/-
Share-mode safety of the open files database: over every run of its six calls, the stored record
has at least one entry, its entries are pairwise compatible, an exclusive or batch oplock is held
only by a sole entry, and only entry 0 can carry delete-on-close.
-/
import Samba.Ntvfs.OpendbTdb
import Mathlib.Data.List.Pairwise

namespace Samba.Opendb

open List Transition

/-! ## Sharing is symmetric -/

/-- `share_conflict` refuses exactly when both opens take part in sharing on one stream and one of
the six mask checks fails. -/
theorem shareConflict_ok_iff (e1 e2 : OpendbEntry) : shareConflict e1 e2 = .ok ↔
    e1.accessMask &&& sharingAccess = 0 ∨ e2.accessMask &&& sharingAccess = 0 ∨ e1.streamId ≠ e2.streamId ∨
    ∀ p ∈ [(secFileWriteData ||| secFileAppendData, shareAccessWrite),
        (secFileReadData ||| secFileExecute, shareAccessRead), (secStdDelete, shareAccessDelete)],
      maskViolates e1.accessMask p.1 e2.shareAccess p.2 = false ∧
      maskViolates e2.accessMask p.1 e1.shareAccess p.2 = false := by
  unfold shareConflict
  by_cases h1 : e1.accessMask &&& sharingAccess = 0
  · simp [h1]
  by_cases h2 : e2.accessMask &&& sharingAccess = 0
  · simp [h1, h2]
  by_cases h3 : e1.streamId ≠ e2.streamId
  · simp [h1, h2, h3]
  simp only [h1, h2, h3, false_or, forall_mem_cons, not_mem_nil, false_imp_iff, implies_true, and_true,
    if_false]
  constructor
  · intro h
    split_ifs at h with a b c d e f
    simp only [Bool.not_eq_true] at a b c d e f
    exact ⟨⟨a, b⟩, ⟨c, d⟩, e, f⟩
  · rintro ⟨⟨a, b⟩, ⟨c, d⟩, e, f⟩
    simp [a, b, c, d, e, f]

theorem shareConflict_comm_ok {e1 e2 : OpendbEntry} (h : shareConflict e1 e2 = .ok) : shareConflict e2 e1 = .ok := by
  rw [shareConflict_ok_iff] at h ⊢
  rcases h with h | h | h | h
  · exact .inr (.inl h)
  · exact .inl h
  · exact .inr (.inr (.inl (Ne.symm h)))
  · exact .inr (.inr (.inr fun p hp => ⟨(h p hp).2, (h p hp).1⟩))

/-! ## The invariant -/

/-- An entry holds an oplock that excludes other opens. -/
def HoldsExclusive (e : OpendbEntry) : Prop := e.oplockLevel = oplockExclusive ∨ e.oplockLevel = oplockBatch

/-- The entries of a stored record. -/
structure EntriesOK (entries : List OpendbEntry) : Prop where
  compatible : entries.Pairwise fun a b => shareConflict a b = .ok
  sole : ∀ e ∈ entries, HoldsExclusive e → entries = [e]
  deleteFirst : ∀ e ∈ entries.tail, e.deleteOnClose = false

/-- A stored record has entries, and they are in order. -/
def RecordOK (rec : Option OpendbFile) : Prop :=
  ∀ file, rec = some file → file.entries ≠ [] ∧ EntriesOK file.entries

theorem EntriesOK.nil : EntriesOK [] := ⟨.nil, by simp, by simp⟩

/-- Taking an entry out keeps the entries in order: the tail of what is left lies in the old
tail. -/
theorem EntriesOK.eraseIdx {entries : List OpendbEntry} (h : EntriesOK entries) (i : Nat) :
    EntriesOK (entries.eraseIdx i) := by
  refine ⟨h.compatible.sublist (eraseIdx_sublist ..), fun e he hx => ?_, fun e he => ?_⟩
  · have := h.sole e (mem_of_mem_eraseIdx he) hx
    rw [this] at he ⊢
    cases i with
    | zero => simp at he
    | succ i => simp
  · apply h.deleteFirst
    cases entries with
    | nil => simp at he
    | cons x xs =>
      cases i with
      | zero => exact mem_of_mem_tail he
      | succ i => exact mem_of_mem_eraseIdx he

/-- A further open may be added behind entries that hold no exclusive oplock and do not conflict
with it, if it asks neither for an oplock nor for delete-on-close. -/
theorem EntriesOK.append {entries : List OpendbEntry} (h : EntriesOK entries) {e : OpendbEntry}
    (hc : ∀ a ∈ entries, shareConflict a e = .ok) (hx : ∀ a ∈ entries, ¬HoldsExclusive a)
    (ho : entries ≠ [] → ¬HoldsExclusive e) (hd : entries ≠ [] → e.deleteOnClose = false) :
    EntriesOK (entries ++ [e]) := by
  refine ⟨?_, fun a ha hax => ?_, fun a ha => ?_⟩
  · rw [pairwise_append]
    refine ⟨h.compatible, pairwise_singleton _ _, fun a ha b hb => ?_⟩
    rw [mem_singleton] at hb
    subst hb
    exact hc a ha
  · rcases mem_append.1 ha with ha | ha
    · exact absurd hax (hx a ha)
    · rw [mem_singleton] at ha
      subst ha
      by_cases hn : entries = []
      · rw [hn]; rfl
      · exact absurd hax (ho hn)
  · cases entries with
    | nil => simp at ha
    | cons x xs =>
      rw [cons_append, tail_cons, mem_append, mem_singleton] at ha
      rcases ha with ha | rfl
      · exact h.deleteFirst a ha
      · exact hd (by simp)

/-! ## The calls keep it -/

theorem RecordOK.none : RecordOK none := fun _ h => by cases h

/-- A pushed record is in order when its entries are. -/
theorem odbPushRecord_ok {file : OpendbFile} (h : EntriesOK file.entries) : RecordOK (odbPushRecord file) := by
  intro file' hf
  unfold odbPushRecord at hf
  split at hf
  · cases hf
  · rename_i hne
    cases hf
    exact ⟨fun hn => hne (by rw [hn]; rfl), h⟩

variable {rec : Option OpendbFile}

/-- What the open path has checked by the time it adds the entry. -/
theorem odbTdbOpenFile_ok (h : RecordOK rec) (odb : OdbContext) (fileHandle : Nat)
    (streamId shareAccess accessMask : UInt32) (deleteOnClose : Bool) (path : String) (oplockLevel : UInt32)
    (wantGranted : Bool) :
    RecordOK (odbTdbOpenFile odb fileHandle streamId shareAccess accessMask deleteOnClose path oplockLevel
      wantGranted rec).1.record := by
  unfold odbTdbOpenFile
  simp only
  generalize hl : (if odb.oplocks = true then oplockLevel else oplockNone) = level
  generalize hfile : rec.getD { deleteOnClose := false, path := path, entries := [], pending := [] } = file
  generalize he : (OpendbEntry.mk odb.serverId streamId shareAccess accessMask fileHandle deleteOnClose
    oplockNone) = e
  have hok : EntriesOK file.entries := by
    cases rec with
    | none => rw [← hfile]; exact .nil
    | some f => rw [← hfile]; exact (h f rfl).2
  split
  · exact h
  · rename_i hbatch
    split
    · exact h
    · rename_i hdel
      split
      · exact h
      · rename_i hconf
        split
        · exact h
        · rename_i hexcl
          rw [List.find?_eq_none] at hbatch hconf hexcl
          have hx : ∀ a ∈ file.entries, ¬HoldsExclusive a := by
            rintro a ha (hax | hax)
            · exact hexcl a ha (by simp [hax])
            · exact hbatch a ha (by simp [hax])
          have hc : ∀ a ∈ file.entries, shareConflict a e = .ok := fun a ha => by simpa using hconf a ha
          have hd : file.entries ≠ [] → e.deleteOnClose = false := by
            intro hn
            have hlen : file.entries.length ≠ 0 := fun h0 => hn (length_eq_zero_iff.1 h0)
            rw [← he]
            simpa [hlen] using (not_or.1 hdel).2
          subst he
          split
          · refine odbPushRecord_ok (hok.append hc hx (fun hn hxe => ?_) hd)
            have hlen : file.entries.length ≠ 0 := fun h0 => hn (length_eq_zero_iff.1 h0)
            simp [HoldsExclusive, oplockGranted, hlen, oplockNone, oplockExclusive, oplockBatch] at hxe
          · refine odbPushRecord_ok (hok.append hc hx (fun _ hxe => ?_) hd)
            simp [HoldsExclusive, oplockNone, oplockExclusive, oplockBatch] at hxe

theorem Call.result_ok (h : RecordOK rec) (c : Call) : RecordOK (c.result rec).record := by
  cases c with
  | openFile odb fileHandle streamId shareAccess accessMask deleteOnClose path oplockLevel wantGranted =>
    exact odbTdbOpenFile_ok h odb fileHandle streamId shareAccess accessMask deleteOnClose path oplockLevel wantGranted
  | openFilePending odb priv =>
    cases rec with
    | none => exact .none
    | some file => exact odbPushRecord_ok (h file rfl).2
  | closeFile odb fileHandle =>
    cases rec with
    | none => exact .none
    | some file =>
      simp only [Call.result, odbTdbCloseFile]
      split
      · exact h
      · exact odbPushRecord_ok ((h file rfl).2.eraseIdx _)
  | removePending odb priv =>
    cases rec with
    | none => exact .none
    | some file =>
      simp only [Call.result, odbTdbRemovePending]
      split
      · exact h
      · exact odbPushRecord_ok (h file rfl).2
  | rename path =>
    cases rec with
    | none => exact .none
    | some file => exact odbPushRecord_ok (h file rfl).2
  | setDeleteOnClose delOnClose =>
    cases rec with
    | none => exact .none
    | some file => exact odbPushRecord_ok (h file rfl).2

theorem reachable_recordOK (h : odbSystem.Reachable rec) : RecordOK rec := by
  refine h.invariant (fun s hs => ?_) (fun s c s' hi hs => ?_)
  · subst hs; exact .none
  · subst hs; exact Call.result_ok hi c

/-! ## Safety -/

/-- In every reachable stored record there is an entry; `share_conflict` of any two different
entries is OK in both orders; an entry with an exclusive or batch oplock is the only entry; and an
entry with delete-on-close is entry 0. -/
theorem reachable_record_safe {file : OpendbFile} (h : odbSystem.Reachable (some file)) :
    file.entries ≠ [] ∧
    (∀ i j (hi : i < file.entries.length) (hj : j < file.entries.length), i ≠ j →
      shareConflict file.entries[i] file.entries[j] = .ok) ∧
    (∀ e ∈ file.entries, e.oplockLevel = oplockExclusive ∨ e.oplockLevel = oplockBatch → file.entries = [e]) ∧
    (∀ i (hi : i < file.entries.length), file.entries[i].deleteOnClose = true → i = 0) := by
  obtain ⟨hne, hok⟩ := reachable_recordOK h file rfl
  refine ⟨hne, fun i j hi hj hij => ?_, hok.sole, fun i hi hd => ?_⟩
  · have hp := pairwise_iff_getElem.1 hok.compatible
    rcases Nat.lt_or_gt_of_ne hij with hlt | hlt
    · exact hp i j hi hj hlt
    · exact shareConflict_comm_ok (hp j i hj hi hlt)
  · by_contra h0
    obtain ⟨k, rfl⟩ := Nat.exists_eq_succ_of_ne_zero h0
    have hmem : file.entries[k + 1] ∈ file.entries.tail := by
      rw [mem_iff_getElem]
      exact ⟨k, by simp; omega, by simp⟩
    rw [hok.deleteFirst _ hmem] at hd
    cases hd

/-- A first open with delete-on-close that shares everything, then a reader on another server. -/
def deleteThenRead : List Call :=
  [.openFile ⟨⟨7, 0⟩, true⟩ 1 0 7 0x10001 true "a" 0 true, .openFile ⟨⟨8, 0⟩, true⟩ 2 0 7 1 false "a" 2 true]

theorem deleteThenRead_safe : ∃ file, odbSystem.Reachable (some file) ∧ file.entries.length = 2 ∧
    ∀ i j (hi : i < file.entries.length) (hj : j < file.entries.length), i ≠ j →
      shareConflict file.entries[i] file.entries[j] = .ok := by
  have hr : odbSystem.Reachable (some ⟨false, "a", [⟨⟨7, 0⟩, 0, 7, 0x10001, 1, true, 0⟩,
      ⟨⟨8, 0⟩, 0, 7, 1, 2, false, 0⟩], []⟩) := System.reachable_foldl (.init rfl) deleteThenRead
  exact ⟨_, hr, rfl, (reachable_record_safe hr).2.1⟩

end Samba.Opendb
