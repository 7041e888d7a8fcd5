/-
The up-to-dateness vector of a partition (dsdb/samdb/ldb_modules/repl_meta_data.c, librpc/idl/drsblobs.idl,
drsuapi.idl).

After a replication cycle the stored vector is merged with the one of the source DSA, and the entry of the source DSA
is set to the highwatermark that the cycle reached. The entries of the other DSAs never go back.
-/
import Samba.Dsdb.MetaData
import Samba.Lib.Transition

namespace Samba.Dsdb

open List Samba.Security Transition

/-! ## Vectors -/

/-- `struct drsuapi_DsReplicaCursor2`. -/
structure DsReplicaCursor2 where
  sourceDsaInvocationId : Guid
  highestUsn : UInt64
  lastSyncSuccess : UInt64
  deriving DecidableEq, Repr

/-- `struct replUpToDateVectorBlob`. -/
structure ReplUpToDateVectorBlob where
  version : UInt32
  cursors : List DsReplicaCursor2
  deriving DecidableEq, Repr

/-- `qsort` with `replmd_drsuapi_DsReplicaCursor2_compare`, which moves the cursors of the array. -/
structure CursorSort where
  sort : List DsReplicaCursor2 → List DsReplicaCursor2
  perm : ∀ l, (sort l).Perm l

/-- A search for the entry of a cursor's invocation id: the entry that is found is updated, otherwise the cursor is put
at the end. -/
def mergeCursor (update : DsReplicaCursor2 → DsReplicaCursor2) (c : DsReplicaCursor2) :
    List DsReplicaCursor2 → List DsReplicaCursor2
  | [] => [c]
  | n :: nuv =>
    if c.sourceDsaInvocationId ≠ n.sourceDsaInvocationId then n :: mergeCursor update c nuv
    else update n :: nuv

/-- Only the usn of the entry is updated: the last success stands for direct replication. -/
def raiseUsn (c n : DsReplicaCursor2) : DsReplicaCursor2 :=
  if c.highestUsn > n.highestUsn then { n with highestUsn := c.highestUsn } else n

/-- The loop over the vector of the source DSA. -/
def mergeVector (ourInvocationId : Option Guid) : List DsReplicaCursor2 → List DsReplicaCursor2 → List DsReplicaCursor2
  | [], nuv => nuv
  | c :: ruv, nuv =>
    if ourInvocationId = some c.sourceDsaInvocationId then mergeVector ourInvocationId ruv nuv
    else mergeVector ourInvocationId ruv (mergeCursor (raiseUsn c) c nuv)

/-! ## repsFrom -/

/-- `struct drsuapi_DsReplicaHighWaterMark`. -/
structure DsReplicaHighWaterMark where
  tmpHighestUsn : UInt64
  reservedUsn : UInt64
  highestUsn : UInt64
  deriving DecidableEq, Repr

/-- `struct repsFromTo1`, without what only describes the connection to the source DSA. -/
structure RepsFromTo1 where
  consecutiveSyncFailures : UInt32
  lastSuccess : UInt64
  lastAttempt : UInt64
  resultLastAttempt : UInt32
  highwatermark : DsReplicaHighWaterMark
  sourceDsaObjGuid : Guid
  sourceDsaInvocationId : Guid
  deriving DecidableEq, Repr

/-- `struct repsFromToBlob`. -/
structure RepsFromToBlob where
  version : UInt32
  ctr1 : RepsFromTo1
  deriving DecidableEq, Repr

inductive UptodateError
  | dsDraInternalError
  deriving DecidableEq, Repr

/-- The values of `repsFrom` after a cycle: the first one with the object GUID of the source DSA is replaced, otherwise
a value is added. The values up to that one are checked. -/
def replaceRepsFrom (nrf : RepsFromToBlob) : List RepsFromToBlob → Except UptodateError (List RepsFromToBlob)
  | [] => .ok [nrf]
  | trf :: orf =>
    if trf.version ≠ 1 then .error .dsDraInternalError
    else if trf.ctr1.sourceDsaObjGuid ≠ nrf.ctr1.sourceDsaObjGuid then
      (replaceRepsFrom nrf orf).map (trf :: ·)
    else .ok (nrf :: orf)

/-! ## The update -/

/-- The attributes of a partition's object that tell what was replicated from where. -/
structure Partition where
  replUpToDateVector : Option ReplUpToDateVectorBlob
  repsFrom : List RepsFromToBlob
  deriving DecidableEq, Repr

/-- A replication cycle: the vector received from the source DSA, the source DSA with the highwatermark of the cycle,
our invocation id if there is one attached to the database, and the time. -/
structure Cycle where
  uptodatenessVector : Option (List DsReplicaCursor2)
  sourceDsa : RepsFromTo1
  ourInvocationId : Option Guid
  now : UInt64
  deriving DecidableEq, Repr

/-- The cursor of the source DSA after the cycle. -/
def Cycle.sourceCursor (cycle : Cycle) : DsReplicaCursor2 where
  sourceDsaInvocationId := cycle.sourceDsa.sourceDsaInvocationId
  highestUsn := cycle.sourceDsa.highwatermark.tmpHighestUsn
  lastSyncSuccess := cycle.now

/-- Both the usn and the time of the source DSA's entry are updated: it was replicated from directly. -/
def setSource (source n : DsReplicaCursor2) : DsReplicaCursor2 :=
  { n with highestUsn := source.highestUsn, lastSyncSuccess := source.lastSyncSuccess }

/-- The cursors before they are sorted. -/
def newCursors (ouv : List DsReplicaCursor2) (cycle : Cycle) : List DsReplicaCursor2 :=
  mergeCursor (setSource cycle.sourceCursor) cycle.sourceCursor
    (mergeVector cycle.ourInvocationId (cycle.uptodatenessVector.getD []) ouv)

/-- The `repsFrom` value of the source DSA after the cycle. -/
def Cycle.newRepsFrom (cycle : Cycle) : RepsFromToBlob where
  version := 1
  ctr1 :=
    { cycle.sourceDsa with
      consecutiveSyncFailures := 0
      lastSuccess := nttime1sec cycle.now
      lastAttempt := nttime1sec cycle.now
      resultLastAttempt := 0
      highwatermark :=
        { cycle.sourceDsa.highwatermark with highestUsn := cycle.sourceDsa.highwatermark.tmpHighestUsn } }

/-- `replmd_replicated_uptodate_modify`. -/
def uptodateModify (qs : CursorSort) (cycle : Cycle) (p : Partition) : Except UptodateError Partition :=
  let ouv := p.replUpToDateVector.getD ⟨2, []⟩
  if ouv.version ≠ 2 then .error .dsDraInternalError
  else
    let nuv : ReplUpToDateVectorBlob := ⟨2, qs.sort (newCursors ouv.cursors cycle)⟩
    (replaceRepsFrom cycle.newRepsFrom p.repsFrom).map fun repsFrom => ⟨some nuv, repsFrom⟩

/-- The partition with the cycles that are run on it. It starts without a vector. -/
def uptodateSystem (qs : CursorSort) : System Partition Cycle where
  init p := p.replUpToDateVector = none
  step p cycle p' := uptodateModify qs cycle p = .ok p'

/-! ## Entries of a vector -/

/-- The cursors of the stored vector. -/
def Partition.cursors (p : Partition) : List DsReplicaCursor2 := (p.replUpToDateVector.map (·.cursors)).getD []

/-- The cursor of an invocation id. -/
def cursorOf (id : Guid) (cursors : List DsReplicaCursor2) : Option DsReplicaCursor2 :=
  cursors.find? fun c => c.sourceDsaInvocationId == id

/-- The `highest_usn` of an invocation id does not go back. -/
def NotBefore (before after : Option DsReplicaCursor2) : Prop :=
  ∀ c, before = some c → ∃ c', after = some c' ∧ c.highestUsn ≤ c'.highestUsn

theorem NotBefore.refl (c : Option DsReplicaCursor2) : NotBefore c c := fun c h => ⟨c, h, UInt64.le_refl _⟩

theorem NotBefore.trans {a b c : Option DsReplicaCursor2} (hab : NotBefore a b) (hbc : NotBefore b c) :
    NotBefore a c := fun x hx => by
  obtain ⟨y, hy, hxy⟩ := hab x hx
  obtain ⟨z, hz, hyz⟩ := hbc y hy
  exact ⟨z, hz, UInt64.le_trans hxy hyz⟩

theorem cursorOf_cons (id : Guid) (n : DsReplicaCursor2) (l : List DsReplicaCursor2) :
    cursorOf id (n :: l) = if n.sourceDsaInvocationId = id then some n else cursorOf id l := by
  rw [cursorOf]
  by_cases h : n.sourceDsaInvocationId = id
  · rw [List.find?_cons_of_pos (by simpa using h), if_pos h]
  · rw [List.find?_cons_of_neg (by simpa using h), if_neg h, cursorOf]

/-- In a vector with distinct ids the order of the cursors does not matter. -/
theorem cursorOf_perm {id : Guid} {l l' : List DsReplicaCursor2} (hp : l'.Perm l)
    (hn : (l.map (·.sourceDsaInvocationId)).Nodup) : cursorOf id l' = cursorOf id l := by
  induction hp with
  | nil => rfl
  | cons n _ ih =>
    rw [map_cons, nodup_cons] at hn
    rw [cursorOf_cons, cursorOf_cons, ih hn.2]
  | swap n n' l =>
    have hne : n'.sourceDsaInvocationId ≠ n.sourceDsaInvocationId := fun h => by simp [h] at hn
    simp only [cursorOf_cons]
    by_cases h : n.sourceDsaInvocationId = id
    · rw [if_pos h, if_neg (by rw [← h]; exact hne), if_pos h]
    · rw [if_neg h, if_neg h]
  | trans h₁ h₂ ih₁ ih₂ =>
    exact (ih₁ ((h₂.map _).nodup_iff.2 hn)).trans (ih₂ hn)

section

variable {update : DsReplicaCursor2 → DsReplicaCursor2}
  (hid : ∀ n, (update n).sourceDsaInvocationId = n.sourceDsaInvocationId) (c : DsReplicaCursor2)

include hid

theorem cursorOf_mergeCursor (id : Guid) : ∀ nuv : List DsReplicaCursor2,
    cursorOf id (mergeCursor update c nuv) =
      if c.sourceDsaInvocationId = id then some (((cursorOf id nuv).map update).getD c) else cursorOf id nuv
  | [] => by rw [mergeCursor, cursorOf_cons]; rfl
  | n :: nuv => by
    rw [mergeCursor]
    by_cases hc : c.sourceDsaInvocationId = n.sourceDsaInvocationId
    · rw [if_neg (not_not.2 hc), cursorOf_cons, cursorOf_cons, hid, hc]
      by_cases hn : n.sourceDsaInvocationId = id
      · rw [if_pos hn, if_pos hn, if_pos hn]; rfl
      · rw [if_neg hn, if_neg hn, if_neg hn]
    · rw [if_pos hc, cursorOf_cons, cursorOf_cons, cursorOf_mergeCursor id nuv]
      by_cases hn : n.sourceDsaInvocationId = id
      · rw [if_pos hn, if_pos hn, if_neg fun h => hc (h.trans hn.symm)]
      · rw [if_neg hn, if_neg hn]

theorem map_id_mergeCursor : ∀ nuv : List DsReplicaCursor2,
    (mergeCursor update c nuv).map (·.sourceDsaInvocationId) =
      if c.sourceDsaInvocationId ∈ nuv.map (·.sourceDsaInvocationId) then nuv.map (·.sourceDsaInvocationId)
      else nuv.map (·.sourceDsaInvocationId) ++ [c.sourceDsaInvocationId]
  | [] => rfl
  | n :: nuv => by
    rw [mergeCursor]
    by_cases hc : c.sourceDsaInvocationId = n.sourceDsaInvocationId
    · rw [if_neg (not_not.2 hc), map_cons, hid, if_pos (by simp [hc]), map_cons]
    · rw [if_pos hc, map_cons, map_id_mergeCursor nuv, map_cons]
      by_cases hm : c.sourceDsaInvocationId ∈ nuv.map (·.sourceDsaInvocationId)
      · rw [if_pos hm, if_pos (mem_cons_of_mem _ hm)]
      · rw [if_neg hm, if_neg (fun h => (mem_cons.1 h).elim hc hm), cons_append]

theorem nodup_mergeCursor {nuv : List DsReplicaCursor2} (h : (nuv.map (·.sourceDsaInvocationId)).Nodup) :
    ((mergeCursor update c nuv).map (·.sourceDsaInvocationId)).Nodup := by
  rw [map_id_mergeCursor hid]
  split
  · exact h
  · next hm => exact nodup_append.2 ⟨h, nodup_singleton _, fun a ha b hb => by
      rw [mem_singleton.1 hb]; exact fun e => hm (e ▸ ha)⟩

end

/-! ## The received vector -/

theorem id_raiseUsn (c n : DsReplicaCursor2) : (raiseUsn c n).sourceDsaInvocationId = n.sourceDsaInvocationId := by
  rw [raiseUsn]
  split <;> rfl

theorem le_raiseUsn (c n : DsReplicaCursor2) : n.highestUsn ≤ (raiseUsn c n).highestUsn := by
  rw [raiseUsn]
  split
  · next h => exact UInt64.le_of_lt h
  · exact UInt64.le_refl _

theorem notBefore_mergeCursor (c : DsReplicaCursor2) (id : Guid) (nuv : List DsReplicaCursor2) :
    NotBefore (cursorOf id nuv) (cursorOf id (mergeCursor (raiseUsn c) c nuv)) := by
  intro n hn
  rw [cursorOf_mergeCursor (id_raiseUsn c), hn]
  by_cases hc : c.sourceDsaInvocationId = id
  · exact ⟨raiseUsn c n, if_pos hc, le_raiseUsn c n⟩
  · exact ⟨n, if_neg hc, UInt64.le_refl _⟩

theorem nodup_mergeVector (our : Option Guid) : ∀ (ruv : List DsReplicaCursor2) {nuv : List DsReplicaCursor2},
    (nuv.map (·.sourceDsaInvocationId)).Nodup →
      ((mergeVector our ruv nuv).map (·.sourceDsaInvocationId)).Nodup
  | [], _, h => h
  | c :: ruv, nuv, h => by
    rw [mergeVector]
    split
    · exact nodup_mergeVector our ruv h
    · exact nodup_mergeVector our ruv (nodup_mergeCursor (id_raiseUsn c) c h)

theorem notBefore_mergeVector (our : Option Guid) (id : Guid) : ∀ (ruv nuv : List DsReplicaCursor2),
    NotBefore (cursorOf id nuv) (cursorOf id (mergeVector our ruv nuv))
  | [], nuv => .refl _
  | c :: ruv, nuv => by
    rw [mergeVector]
    split
    · exact notBefore_mergeVector our id ruv nuv
    · exact (notBefore_mergeCursor c id nuv).trans (notBefore_mergeVector our id ruv _)

/-- The entry of our own invocation id is not touched. -/
theorem cursorOf_our_mergeVector (me : Guid) : ∀ (ruv nuv : List DsReplicaCursor2),
    cursorOf me (mergeVector (some me) ruv nuv) = cursorOf me nuv
  | [], nuv => rfl
  | c :: ruv, nuv => by
    rw [mergeVector]
    by_cases hc : some me = some c.sourceDsaInvocationId
    · rw [if_pos hc, cursorOf_our_mergeVector me ruv nuv]
    · rw [if_neg hc, cursorOf_our_mergeVector me ruv, cursorOf_mergeCursor (id_raiseUsn c),
        if_neg fun h => hc (congrArg some h.symm)]

/-! ## A cycle -/

theorem id_setSource (source n : DsReplicaCursor2) :
    (setSource source n).sourceDsaInvocationId = n.sourceDsaInvocationId := rfl

/-- The cursors of a partition after a cycle, up to their order. -/
theorem cursors_uptodateModify {qs : CursorSort} {cycle : Cycle} {p p' : Partition}
    (h : uptodateModify qs cycle p = .ok p') : p'.cursors.Perm (newCursors p.cursors cycle) := by
  rw [uptodateModify] at h
  split at h
  · cases h
  · cases hr : replaceRepsFrom cycle.newRepsFrom p.repsFrom with
    | error e => rw [hr] at h; cases h
    | ok repsFrom =>
      rw [hr] at h
      cases h
      have hp : (p.replUpToDateVector.getD ⟨2, []⟩).cursors = p.cursors := by
        rw [Partition.cursors]
        cases p.replUpToDateVector <;> rfl
      rw [← hp]
      exact qs.perm _

theorem nodup_newCursors {ouv : List DsReplicaCursor2} (cycle : Cycle)
    (h : (ouv.map (·.sourceDsaInvocationId)).Nodup) :
    ((newCursors ouv cycle).map (·.sourceDsaInvocationId)).Nodup :=
  nodup_mergeCursor (id_setSource _) _ (nodup_mergeVector _ _ h)

theorem cursorOf_newCursors (ouv : List DsReplicaCursor2) (cycle : Cycle) (id : Guid) :
    cursorOf id (newCursors ouv cycle) =
      if cycle.sourceDsa.sourceDsaInvocationId = id then some cycle.sourceCursor
      else cursorOf id (mergeVector cycle.ourInvocationId (cycle.uptodatenessVector.getD []) ouv) := by
  have hsource : cycle.sourceCursor.sourceDsaInvocationId = cycle.sourceDsa.sourceDsaInvocationId := rfl
  rw [newCursors, cursorOf_mergeCursor (id_setSource _), hsource]
  by_cases hs : cycle.sourceDsa.sourceDsaInvocationId = id
  · rw [if_pos hs, if_pos hs]
    cases hn : cursorOf id (mergeVector cycle.ourInvocationId (cycle.uptodatenessVector.getD []) ouv) with
    | none => rfl
    | some n =>
      have hid : n.sourceDsaInvocationId = id := by simpa using List.find?_some hn
      rw [Option.map_some, Option.getD_some, setSource, hid, ← hs]
      rfl
  · rw [if_neg hs, if_neg hs]

/-- In every reachable state each invocation id has at most one cursor. -/
theorem nodup_cursors {qs : CursorSort} {p : Partition} (hp : (uptodateSystem qs).Reachable p) :
    (p.cursors.map (·.sourceDsaInvocationId)).Nodup := by
  refine @System.Reachable.invariant _ _ _ (fun p => (p.cursors.map (·.sourceDsaInvocationId)).Nodup) ?_ ?_ _ hp
  · intro p hinit
    rw [Partition.cursors, show p.replUpToDateVector = none from hinit]
    exact nodup_nil
  · intro p cycle p' hinv hstep
    exact ((cursors_uptodateModify hstep).map _).nodup_iff.2 (nodup_newCursors cycle hinv)

/-- In every run of cycles each invocation id has at most one cursor; a cycle sets the cursor of its source DSA to the
highwatermark it reached, changes the cursor of our own invocation id only when we are the source, and takes the
`highest_usn` of no other invocation id back. -/
theorem uptodateVector_forward (qs : CursorSort) (p p' : Partition) (cycle : Cycle)
    (hp : (uptodateSystem qs).Reachable p) (hstep : (uptodateSystem qs).step p cycle p') :
    (p'.cursors.map (·.sourceDsaInvocationId)).Nodup ∧
      cursorOf cycle.sourceDsa.sourceDsaInvocationId p'.cursors = some cycle.sourceCursor ∧
      (∀ me, cycle.ourInvocationId = some me → cycle.sourceDsa.sourceDsaInvocationId ≠ me →
        cursorOf me p'.cursors = cursorOf me p.cursors) ∧
      ∀ id, cycle.sourceDsa.sourceDsaInvocationId ≠ id → NotBefore (cursorOf id p.cursors) (cursorOf id p'.cursors) := by
  have hperm := cursors_uptodateModify hstep
  have hnodup := nodup_newCursors cycle (nodup_cursors hp)
  have hcursor : ∀ id, cursorOf id p'.cursors = cursorOf id (newCursors p.cursors cycle) := fun id =>
    cursorOf_perm hperm hnodup
  refine ⟨(hperm.map _).nodup_iff.2 hnodup, ?_, fun me hme hne => ?_, fun id hne => ?_⟩
  · rw [hcursor, cursorOf_newCursors, if_pos rfl]
  · rw [hcursor, cursorOf_newCursors, if_neg hne, hme, cursorOf_our_mergeVector]
  · rw [hcursor, cursorOf_newCursors, if_neg hne]
    exact notBefore_mergeVector _ _ _ _

/-- A cycle with a source DSA that has the invocation id zero. -/
def cycleOf (tmpHighestUsn : UInt64) : Cycle where
  uptodatenessVector := none
  sourceDsa :=
    { consecutiveSyncFailures := 0, lastSuccess := 0, lastAttempt := 0, resultLastAttempt := 0
      highwatermark := ⟨tmpHighestUsn, 0, 0⟩
      sourceDsaObjGuid := .zero
      sourceDsaInvocationId := .zero }
  ourInvocationId := none
  now := 0

/-- The cursors after cycles that are run on a partition without a vector. -/
def cursorsAfter (qs : CursorSort) (cycles : List Cycle) : Option (List DsReplicaCursor2) :=
  (cycles.foldlM (fun p cycle => uptodateModify qs cycle p) ⟨none, []⟩).toOption.map Partition.cursors

/-- A cycle from a source DSA whose highwatermark is behind the one of the cycle before. -/
theorem source_goes_back :
    let qs : CursorSort := ⟨id, fun _ => .rfl⟩
    (cursorsAfter qs [cycleOf 5]).map (·.map (·.highestUsn)) = some [5] ∧
      (cursorsAfter qs [cycleOf 5, cycleOf 3]).map (·.map (·.highestUsn)) = some [3] := by
  decide

/-- The invocation id that differs from zero in its first field. -/
def dsaId (n : UInt32) : Guid := { Guid.zero with timeLow := n }

/-- A vector with the invocation ids and the `highest_usn` of its cursors. -/
def vectorOf (usns : List (UInt32 × UInt64)) : List DsReplicaCursor2 := usns.map fun (n, usn) => ⟨dsaId n, usn, 0⟩

/-- A cycle from DSA 3 to a database without an invocation id, which takes in the cursors of the DSAs 1 and 2. -/
def firstCycle : Cycle :=
  { cycleOf 5 with
    uptodatenessVector := some (vectorOf [(1, 1), (2, 7)])
    sourceDsa := { (cycleOf 5).sourceDsa with sourceDsaInvocationId := dsaId 3 } }

/-- A cycle from DSA 4 to DSA 1: the vector it sends is behind for DSA 2, ahead for DSA 3, and has a cursor for us. -/
def secondCycle : Cycle :=
  { cycleOf 6 with
    uptodatenessVector := some (vectorOf [(1, 9), (2, 4), (3, 8)])
    sourceDsa := { (cycleOf 6).sourceDsa with sourceDsaInvocationId := dsaId 4, sourceDsaObjGuid := dsaId 4 }
    ourInvocationId := some (dsaId 1) }

theorem uptodateVector_forward_sample :
    let before : Partition := ⟨some ⟨2, vectorOf [(1, 1), (2, 7), (3, 5)]⟩, [firstCycle.newRepsFrom]⟩
    let after : Partition :=
      ⟨some ⟨2, vectorOf [(1, 1), (2, 7), (3, 8), (4, 6)]⟩, [firstCycle.newRepsFrom, secondCycle.newRepsFrom]⟩
    cursorOf (dsaId 4) after.cursors = some secondCycle.sourceCursor ∧
      cursorOf (dsaId 1) after.cursors = cursorOf (dsaId 1) before.cursors ∧
      NotBefore (cursorOf (dsaId 2) before.cursors) (cursorOf (dsaId 2) after.cursors) ∧
      NotBefore (cursorOf (dsaId 3) before.cursors) (cursorOf (dsaId 3) after.cursors) := by
  intro before after
  let qs : CursorSort := ⟨id, fun _ => .rfl⟩
  have hbefore : (uptodateSystem qs).Reachable before :=
    .step firstCycle (.init (show (uptodateSystem qs).init ⟨none, []⟩ from rfl)) rfl
  have hstep : (uptodateSystem qs).step before secondCycle after := rfl
  obtain ⟨-, hsource, hour, hothers⟩ := uptodateVector_forward qs before after secondCycle hbefore hstep
  -- DSA 2 is not the source, and what is received for it is behind
  exact ⟨hsource, hour (dsaId 1) rfl (by decide), hothers (dsaId 2) (by decide), hothers (dsaId 3) (by decide)⟩

end Samba.Dsdb
