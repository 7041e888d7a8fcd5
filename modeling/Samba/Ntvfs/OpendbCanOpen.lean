/-
Asking and opening (ntvfs/common/opendb_tdb.c): `odb_tdb_can_open` and `odb_tdb_open_file` state the rule by which an open is
admitted twice, with their checks in another order and other errors. Where oplocks are disabled no entry holds one, and the
two agree on every reachable record.
-/
import Samba.Ntvfs.OpendbSafety

namespace Samba.Opendb

open Transition

/-! ## The admission rule -/

/-- The rule both calls follow: the file is not to be deleted, an open that deletes it on close is the only one, and the open
shares with all others. -/
structure Admits (file : OpendbFile) (e : OpendbEntry) (deleteOnClose : Bool) : Prop where
  notPending : file.deleteOnClose = false
  first : deleteOnClose = true → file.entries = []
  shares : ∀ other ∈ file.entries, shareConflict other e = .ok

/-- Sharing looks at the stream, the share access and the access mask of the new open only. -/
theorem shareConflict_congr {e1 e2 e2' : OpendbEntry} (hs : e2.streamId = e2'.streamId)
    (hsa : e2.shareAccess = e2'.shareAccess) (ham : e2.accessMask = e2'.accessMask) :
    shareConflict e1 e2 = shareConflict e1 e2' := by
  unfold shareConflict
  rw [hs, hsa, ham]

theorem Admits.congr {file : OpendbFile} {e e' : OpendbEntry} {deleteOnClose : Bool} (hs : e.streamId = e'.streamId)
    (hsa : e.shareAccess = e'.shareAccess) (ham : e.accessMask = e'.accessMask) :
    Admits file e deleteOnClose ↔ Admits file e' deleteOnClose := by
  constructor
  · exact fun h => ⟨h.notPending, h.first, fun other ho => (shareConflict_congr hs hsa ham).symm.trans (h.shares other ho)⟩
  · exact fun h => ⟨h.notPending, h.first, fun other ho => (shareConflict_congr hs hsa ham).trans (h.shares other ho)⟩

/-- What a new open without delete-on-close and without oplock looks like to `odb_tdb_can_open`. -/
def askedEntry (odb : OdbContext) (shareAccess accessMask : UInt32) : OpendbEntry where
  server := odb.serverId
  streamId := 0
  shareAccess := shareAccess
  accessMask := accessMask
  fileHandle := 0
  deleteOnClose := false
  oplockLevel := oplockNone

theorem odbTdbCanOpen_ok_iff (odb : OdbContext) (shareAccess createOptions accessMask : UInt32) (file : OpendbFile) :
    odbTdbCanOpen odb shareAccess createOptions accessMask (some file) = .ok ↔
      Admits file (askedEntry odb shareAccess accessMask) (createOptions &&& optionsDeleteOnClose != 0) := by
  simp only [odbTdbCanOpen]
  constructor
  · intro h
    split at h
    · cases h
    · rename_i hfirst
      split at h
      · cases h
      · rename_i hpending
        split at h
        · cases h
        · rename_i hshares
          simp only [List.any_eq_true, not_exists, not_and, bne_iff_ne, ne_eq, not_not] at hshares
          refine ⟨Bool.eq_false_iff.mpr hpending, fun hd => ?_, hshares⟩
          by_contra hne
          exact hfirst ⟨bne_iff_ne.mp hd, fun hlen => hne (List.length_eq_zero_iff.mp hlen)⟩
  · intro h
    have hfirst : ¬(createOptions &&& optionsDeleteOnClose ≠ 0 ∧ file.entries.length ≠ 0) :=
      fun hd => hd.2 (List.length_eq_zero_iff.mpr (h.first (bne_iff_ne.mpr hd.1)))
    have hshares : ¬(file.entries.any (shareConflict · (askedEntry odb shareAccess accessMask) != .ok)) = true := by
      simp only [List.any_eq_true, not_exists, not_and, bne_iff_ne, ne_eq, not_not]
      exact h.shares
    rw [if_neg hfirst, if_neg (Bool.eq_false_iff.mp h.notPending)]
    exact if_neg hshares

/-- No entry of the record holds an oplock. -/
def NoOplocks (rec : Option OpendbFile) : Prop :=
  ∀ file, rec = some file → ∀ e ∈ file.entries, e.oplockLevel = oplockNone

/-- The file an open starts from. -/
def openedFile (path : String) (rec : Option OpendbFile) : OpendbFile :=
  rec.getD { deleteOnClose := false, path := path, entries := [], pending := [] }

variable {rec : Option OpendbFile}

theorem NoOplocks.find? (h : NoOplocks rec) (path : String) {level : UInt32}
    (hl : level ≠ oplockNone) : (openedFile path rec).entries.find? (·.oplockLevel == level) = none := by
  rw [List.find?_eq_none]
  intro e he
  cases rec with
  | none => cases he
  | some file =>
    rw [h file rfl e he, beq_iff_eq]
    exact hl.symm

theorem odbTdbOpenFile_ok_iff (odb : OdbContext) (fileHandle : Nat) (streamId shareAccess accessMask : UInt32)
    (deleteOnClose : Bool) (path : String) (oplockLevel : UInt32) (wantGranted : Bool)
    (h : NoOplocks rec) :
    (odbTdbOpenFile odb fileHandle streamId shareAccess accessMask deleteOnClose path oplockLevel wantGranted rec).1.status =
        .ok ↔
      Admits (openedFile path rec)
        ⟨odb.serverId, streamId, shareAccess, accessMask, fileHandle, deleteOnClose, oplockNone⟩ deleteOnClose := by
  have hbatch := @NoOplocks.find? rec h path oplockBatch (by decide)
  have hexcl := @NoOplocks.find? rec h path oplockExclusive (by decide)
  unfold odbTdbOpenFile
  simp only
  rw [show rec.getD { deleteOnClose := false, path := path, entries := [], pending := [] } = openedFile path rec from rfl,
    hbatch]
  generalize openedFile path rec = file at hexcl ⊢
  generalize (OpendbEntry.mk odb.serverId streamId shareAccess accessMask fileHandle deleteOnClose oplockNone) = e
  dsimp only
  by_cases hdel : file.deleteOnClose = true ∨ (file.entries.length ≠ 0 ∧ deleteOnClose = true)
  · rw [if_pos hdel]
    refine iff_of_false nofun fun ha => ?_
    rcases hdel with hp | ⟨hlen, hd⟩
    · rw [ha.notPending] at hp
      cases hp
    · exact hlen (List.length_eq_zero_iff.mpr (ha.first hd))
  · rw [if_neg hdel]
    cases hconf : file.entries.find? (shareConflict · e != .ok) with
    | some c =>
      have hc := List.find?_some hconf
      rw [bne_iff_ne] at hc
      exact iff_of_false hc fun ha => hc (ha.shares c (List.mem_of_find?_eq_some hconf))
    | none =>
      rw [hexcl]
      refine iff_of_true (by dsimp only; split <;> rfl) ⟨?_, fun hd => ?_, fun other ho => ?_⟩
      · exact Bool.eq_false_iff.mpr fun hp => hdel (Or.inl hp)
      · by_contra hne
        exact hdel (Or.inr ⟨fun hlen => hne (List.length_eq_zero_iff.mp hlen), hd⟩)
      · simpa using List.find?_eq_none.mp hconf other ho

/-! ## Runs without oplocks -/

/-- The caller has oplocks disabled. -/
def Call.OplocksDisabled : Call → Prop
  | .openFile odb .. => odb.oplocks = false
  | _ => True

/-- The runs in which oplocks are disabled. -/
def odbSystemNoOplocks : System (Option OpendbFile) Call := odbSystem.restrict fun _ c => c.OplocksDisabled

theorem NoOplocks.push {file : OpendbFile} (h : ∀ e ∈ file.entries, e.oplockLevel = oplockNone) :
    NoOplocks (odbPushRecord file) := by
  intro file' hf
  unfold odbPushRecord at hf
  split at hf
  · cases hf
  · cases hf
    exact h

theorem odbTdbOpenFile_noOplocks (h : NoOplocks rec) {odb : OdbContext}
    (hodb : odb.oplocks = false) (fileHandle : Nat) (streamId shareAccess accessMask : UInt32) (deleteOnClose : Bool)
    (path : String) (oplockLevel : UInt32) (wantGranted : Bool) :
    NoOplocks (odbTdbOpenFile odb fileHandle streamId shareAccess accessMask deleteOnClose path oplockLevel
      wantGranted rec).1.record := by
  have hold : ∀ e ∈ (openedFile path rec).entries, e.oplockLevel = oplockNone := by
    cases rec with
    | none => exact fun e he => nomatch he
    | some file => exact h file rfl
  have hgranted : oplockGranted (openedFile path rec) oplockNone = oplockNone := by
    unfold oplockGranted
    rw [if_neg]
    rintro ⟨hl | hl, _⟩ <;> exact absurd hl (by decide)
  have hadd : ∀ e : OpendbEntry, e.oplockLevel = oplockNone →
      ∀ a ∈ (openedFile path rec).entries ++ [e], a.oplockLevel = oplockNone := by
    intro e he a ha
    rcases List.mem_append.mp ha with ha | ha
    · exact hold a ha
    · rw [List.mem_singleton.mp ha, he]
  unfold odbTdbOpenFile
  simp only [hodb, Bool.false_eq_true, if_false]
  rw [show rec.getD { deleteOnClose := false, path := path, entries := [], pending := [] } = openedFile path rec from rfl]
  split
  · exact h
  · split
    · exact h
    · split
      · exact h
      · split
        · exact h
        · split
          · exact .push (hadd _ hgranted)
          · exact .push (hadd _ rfl)

theorem Call.result_noOplocks (h : NoOplocks rec) {c : Call} (hc : c.OplocksDisabled) :
    NoOplocks (c.result rec).record := by
  have hnone : NoOplocks none := fun _ hf => nomatch hf
  cases c with
  | openFile odb fileHandle streamId shareAccess accessMask deleteOnClose path oplockLevel wantGranted =>
    exact odbTdbOpenFile_noOplocks h hc fileHandle streamId shareAccess accessMask deleteOnClose path oplockLevel wantGranted
  | openFilePending odb priv =>
    cases rec with
    | none => exact hnone
    | some file => exact .push (h file rfl)
  | closeFile odb fileHandle =>
    cases rec with
    | none => exact hnone
    | some file =>
      simp only [Call.result, odbTdbCloseFile]
      split
      · exact h
      · exact .push fun e he => h file rfl e (List.mem_of_mem_eraseIdx he)
  | removePending odb priv =>
    cases rec with
    | none => exact hnone
    | some file =>
      simp only [Call.result, odbTdbRemovePending]
      split
      · exact h
      · exact .push (h file rfl)
  | rename path =>
    cases rec with
    | none => exact hnone
    | some file => exact .push (h file rfl)
  | setDeleteOnClose delOnClose =>
    cases rec with
    | none => exact hnone
    | some file => exact .push (h file rfl)

theorem reachable_noOplocks (h : odbSystemNoOplocks.Reachable rec) : NoOplocks rec := by
  refine h.invariant (fun s hs => ?_) (fun s c s' hi hs => ?_)
  · subst hs
    exact fun _ hf => nomatch hf
  · obtain ⟨hc, rfl⟩ := hs
    exact Call.result_noOplocks hi hc

/-! ## Both calls agree -/

/-- With oplocks disabled, on every reachable record `odb_tdb_can_open` says OK exactly when the open on stream 0 with the same
share access, access mask and delete-on-close is admitted. -/
theorem canOpen_iff_openFile {rec : Option OpendbFile} (h : odbSystemNoOplocks.Reachable rec) (odb : OdbContext)
    (fileHandle : Nat) (shareAccess createOptions accessMask : UInt32) (path : String) (oplockLevel : UInt32)
    (wantGranted : Bool) :
    odbTdbCanOpen odb shareAccess createOptions accessMask rec = .ok ↔
      (odbTdbOpenFile odb fileHandle 0 shareAccess accessMask (createOptions &&& optionsDeleteOnClose != 0) path oplockLevel
        wantGranted rec).1.status = .ok := by
  rw [odbTdbOpenFile_ok_iff _ _ _ _ _ _ _ _ _ (reachable_noOplocks h)]
  cases rec with
  | none => exact iff_of_true rfl ⟨rfl, fun _ => rfl, fun _ ho => nomatch ho⟩
  | some file =>
    rw [odbTdbCanOpen_ok_iff]
    exact Admits.congr rfl rfl rfl

/-- A reader that shares nothing but reading; somebody else may read. -/
theorem canOpen_iff_openFile_reader :
    ∃ rec, odbSystemNoOplocks.Reachable rec ∧
      (odbTdbCanOpen ⟨⟨8, 0⟩, false⟩ 7 0 1 rec = .ok ↔
        (odbTdbOpenFile ⟨⟨8, 0⟩, false⟩ 2 0 7 1 (0 &&& optionsDeleteOnClose != 0) "a" 0 true rec).1.status = .ok) := by
  have hr : odbSystemNoOplocks.Reachable
      (some ⟨false, "a", [⟨⟨7, 0⟩, 0, 1, 1, 1, false, 0⟩], []⟩) :=
    .step (.openFile ⟨⟨7, 0⟩, false⟩ 1 0 1 1 false "a" 2 true) (.init rfl) ⟨rfl, rfl⟩
  exact ⟨_, hr, canOpen_iff_openFile hr ..⟩

end Samba.Opendb
