/-
Pending opens are never lost or woken twice: over every run of the six calls on a file key, the successful registrations
are exactly those that are still in the stored record, those that a successful `odb_tdb_remove_pending` took out, and
those that were sent a retry.
-/
import Samba.Ntvfs.OpendbSafety

namespace Samba.Opendb

open List Samba.Cluster Transition

/-! ## Accounts of a run -/

/-- The stored record, and what has become of the registrations: all that succeeded, those that a successful
`odb_tdb_remove_pending` of the same pair took out, and those that `MSG_PVFS_RETRY_OPEN` was sent to. -/
structure PendingRun where
  record : Option OpendbFile
  registered : List OpendbPending
  removed : List OpendbPending
  retried : List OpendbPending
  deriving DecidableEq, Repr

/-- The pending opens of the stored record. -/
def storedPending : Option OpendbFile → List OpendbPending
  | none => []
  | some file => file.pending

/-- The pair a successful call registers. -/
def Call.registers (status : NtStatus) : Call → List OpendbPending
  | .openFilePending odb priv => if status = .ok then [⟨odb.serverId, priv⟩] else []
  | _ => []

/-- The pair a successful call takes back. -/
def Call.takesBack (status : NtStatus) : Call → List OpendbPending
  | .removePending odb priv => if status = .ok then [⟨odb.serverId, priv⟩] else []
  | _ => []

/-- The pairs that are told to retry. -/
def retries (sent : List OdbMessage) : List OpendbPending :=
  sent.filterMap fun
    | .retryOpen server notifyPtr => some ⟨server, notifyPtr⟩
    | .oplockBreak .. => none

/-- What a call does to the pending requests and the messages. -/
def PendingRun.step (run : PendingRun) (c : Call) : PendingRun :=
  let r := c.result run.record
  { record := r.record
    registered := run.registered ++ c.registers r.status
    removed := run.removed ++ c.takesBack r.status
    retried := run.retried ++ retries r.sent }

/-- The runs from an absent record. -/
def pendingSystem : System PendingRun Call := .ofFn ⟨none, [], [], []⟩ PendingRun.step

/-! ## The calls keep the accounts -/

/-- Each registration is in exactly one place. -/
structure Accounted (run : PendingRun) : Prop where
  record : RecordOK run.record
  places : run.registered.Perm (storedPending run.record ++ run.removed ++ run.retried)

/-- What a call does to the pending opens: those it registers come in, and those it takes back or retries go. -/
def Moves (c : Call) (rec : Option OpendbFile) : Prop :=
  (storedPending rec ++ c.registers (c.result rec).status).Perm
    (storedPending (c.result rec).record ++ c.takesBack (c.result rec).status ++ retries (c.result rec).sent)

theorem storedPending_push {file : OpendbFile} (h : file.entries ≠ []) : storedPending (odbPushRecord file) = file.pending := by
  rw [odbPushRecord, if_neg (mt length_eq_zero_iff.1 h)]
  rfl

/-- A call that registers, takes back and retries nothing keeps the pending opens. -/
theorem moves_of_kept {c : Call} {rec : Option OpendbFile} (hreg : c.registers (c.result rec).status = [])
    (hback : c.takesBack (c.result rec).status = []) (hsent : retries (c.result rec).sent = [])
    (hkept : storedPending (c.result rec).record = storedPending rec) : Moves c rec := by
  rw [Moves, hreg, hback, hsent, hkept, append_nil, append_nil]

theorem odbTdbOpenFile_pending (odb : OdbContext) (fileHandle : Nat) (streamId shareAccess accessMask : UInt32)
    (deleteOnClose : Bool) (path : String) (oplockLevel : UInt32) (wantGranted : Bool) (rec : Option OpendbFile) :
    let r := (odbTdbOpenFile odb fileHandle streamId shareAccess accessMask deleteOnClose path oplockLevel wantGranted rec).1
    retries r.sent = [] ∧ storedPending r.record = storedPending rec := by
  have hnew : ∀ (entries : List OpendbEntry) (e : OpendbEntry), storedPending (odbPushRecord
      { rec.getD ⟨false, path, [], []⟩ with entries := entries ++ [e] }) = storedPending rec := by
    intro entries e
    rw [storedPending_push (append_ne_nil_of_right_ne_nil _ (cons_ne_nil _ _))]
    cases rec <;> rfl
  dsimp only
  unfold odbTdbOpenFile
  dsimp only
  split
  · exact ⟨rfl, rfl⟩
  split
  · exact ⟨rfl, rfl⟩
  split
  · exact ⟨rfl, rfl⟩
  split
  · exact ⟨rfl, rfl⟩
  split
  · exact ⟨rfl, hnew _ _⟩
  · exact ⟨rfl, hnew _ _⟩

theorem odbTdbRemovePending_cases (odb : OdbContext) (priv : Nat) (file : OpendbFile) :
    odbTdbRemovePending odb priv (some file) = ⟨.unsuccessful, some file, []⟩ ∨
      ∃ (i : Nat) (hlt : i < file.pending.length), file.pending[i] = ⟨odb.serverId, priv⟩ ∧
        odbTdbRemovePending odb priv (some file) =
          ⟨.ok, odbPushRecord { file with pending := file.pending.eraseIdx i }, []⟩ := by
  unfold odbTdbRemovePending
  dsimp only
  split
  · exact .inl rfl
  · rename_i i hi
    rw [List.findIdx?_eq_some_iff_getElem] at hi
    obtain ⟨hlt, hmatch, -⟩ := hi
    rw [Bool.and_eq_true, beq_iff_eq, clusterIdEqual_iff] at hmatch
    exact .inr ⟨i, hlt, by rw [hmatch.1, hmatch.2], rfl⟩

theorem Call.moves {rec : Option OpendbFile} (h : RecordOK rec) (c : Call) : Moves c rec := by
  cases c with
  | openFile odb fileHandle streamId shareAccess accessMask deleteOnClose path oplockLevel wantGranted =>
    obtain ⟨hsent, hkept⟩ := odbTdbOpenFile_pending odb fileHandle streamId shareAccess accessMask deleteOnClose path
      oplockLevel wantGranted rec
    exact moves_of_kept rfl rfl hsent hkept
  | openFilePending odb priv =>
    cases rec with
    | none => exact moves_of_kept rfl rfl rfl rfl
    | some file =>
      have hpush := @storedPending_push { file with pending := file.pending ++ [⟨odb.serverId, priv⟩] } (h file rfl).1
      show (file.pending ++ [_]).Perm (storedPending (odbPushRecord _) ++ [] ++ [])
      rw [hpush, append_nil, append_nil]
  | closeFile odb fileHandle =>
    cases rec with
    | none => exact moves_of_kept rfl rfl rfl rfl
    | some file =>
      rw [Moves]
      simp only [Call.result, Call.registers, Call.takesBack, odbTdbCloseFile]
      split
      · exact .of_eq (append_nil _).symm
      · -- every pending open is told to retry, and none is kept
        have hsent : retries (file.pending.map fun p => .retryOpen p.server p.notifyPtr) = file.pending := by
          rw [retries, filterMap_map]
          exact filterMap_some
        have hstored : ∀ f : OpendbFile, f.pending = [] → storedPending (odbPushRecord f) = [] := by
          intro f hf
          unfold odbPushRecord
          split
          · rfl
          · exact hf
        dsimp only
        rw [hsent, hstored _ rfl, append_nil, nil_append, nil_append]
        exact .refl _
  | removePending odb priv =>
    cases rec with
    | none => exact moves_of_kept rfl rfl rfl rfl
    | some file =>
      have hcases := odbTdbRemovePending_cases odb priv file
      rw [show odbTdbRemovePending odb priv (some file) = Call.result (some file) (.removePending odb priv) from rfl] at hcases
      rcases hcases with hresult | ⟨i, hlt, hpair, hresult⟩
      · rw [Moves, hresult]
        exact .of_eq (append_nil _).symm
      · have hpush := @storedPending_push { file with pending := file.pending.eraseIdx i } (h file rfl).1
        rw [Moves, hresult]
        show (file.pending ++ []).Perm (storedPending (odbPushRecord _) ++ [(⟨odb.serverId, priv⟩ : OpendbPending)] ++ [])
        rw [hpush, ← hpair, append_nil, append_nil]
        exact (getElem_cons_eraseIdx_perm hlt).symm.trans (perm_append_singleton _ _).symm
  | rename path =>
    cases rec with
    | none => exact moves_of_kept rfl rfl rfl rfl
    | some file => exact moves_of_kept rfl rfl rfl (@storedPending_push { file with path } (h file rfl).1)
  | setDeleteOnClose delOnClose =>
    cases rec with
    | none => exact moves_of_kept rfl rfl rfl rfl
    | some file =>
      exact moves_of_kept rfl rfl rfl (@storedPending_push { file with deleteOnClose := delOnClose } (h file rfl).1)

theorem PendingRun.step_accounted {run : PendingRun} (h : Accounted run) (c : Call) : Accounted (run.step c) where
  record := Call.result_ok h.record c
  places := by
    have hmoves := c.moves h.record
    have hplaces := h.places
    unfold Moves at hmoves
    simp only [perm_iff_count, count_append, PendingRun.step] at hmoves hplaces ⊢
    intro p
    have := hmoves p
    have := hplaces p
    omega

/-! ## Pending opens are not lost -/

/-- In every reachable state the successful registrations are, each once, those in the stored record, those taken out
and those that were sent a retry; where the record is gone none of them is left. -/
theorem reachable_pending {run : PendingRun} (h : pendingSystem.Reachable run) :
    run.registered.Perm (storedPending run.record ++ run.removed ++ run.retried) ∧
      (run.record = none → run.registered.Perm (run.removed ++ run.retried)) := by
  have hacc : Accounted run := by
    refine h.invariant (fun s hs => ?_) (fun s c s' hi hs => ?_)
    · subst hs
      exact ⟨.none, .nil⟩
    · subst hs
      exact PendingRun.step_accounted hi c
  refine ⟨hacc.places, fun hnone => ?_⟩
  have := hacc.places
  rwa [hnone] at this

/-- Two servers wait for a file, one of them twice; it gives up one registration before the file is closed. -/
def waitThenClose : List Call :=
  [.openFile ⟨⟨7, 0⟩, true⟩ 1 0 7 1 false "a" 0 true, .openFilePending ⟨⟨8, 0⟩, true⟩ 5, .openFilePending ⟨⟨8, 0⟩, true⟩ 5,
    .openFilePending ⟨⟨9, 0⟩, true⟩ 5, .removePending ⟨⟨8, 0⟩, true⟩ 5, .closeFile ⟨⟨7, 0⟩, true⟩ 1]

theorem waitThenClose_pending : ∃ run, pendingSystem.Reachable run ∧ run.record = none ∧
    run.removed = [⟨⟨8, 0⟩, 5⟩] ∧ run.registered.Perm (run.removed ++ run.retried) := by
  have hr : pendingSystem.Reachable ⟨none, [⟨⟨8, 0⟩, 5⟩, ⟨⟨8, 0⟩, 5⟩, ⟨⟨9, 0⟩, 5⟩], [⟨⟨8, 0⟩, 5⟩],
      [⟨⟨8, 0⟩, 5⟩, ⟨⟨9, 0⟩, 5⟩]⟩ := System.reachable_foldl (.init rfl) waitThenClose
  exact ⟨_, hr, rfl, rfl, (reachable_pending hr).2 rfl⟩

end Samba.Opendb
