/-
Runs of lock requests on any number of open files: in every reachable state open files have owners
of their own, no two waiting requests of a server share an address, and the pending entries stored
for a handle are those of the requests on its pending list.
-/
import Samba.Ntvfs.PvfsLockEffect
import Mathlib.Data.List.Perm.Subperm

namespace Samba.PvfsLock

open Function List Samba.Brlock Samba.Cluster SharedExclusive Transition

variable {κ : Type}

/-! ## Pending lists -/

def PvfsFile.addrs (f : PvfsFile κ) : List Nat := f.pendingList.map (·.addr)

/-- The pending entries stored for the handle are those of the requests on its list. -/
def Locked.Queued (h : Locked κ) : Prop := h.waiters = ↑h.file.addrs

theorem addrs_eraseP (ps : List PvfsPendingLock) (addr : Nat) :
    (ps.eraseP (·.addr == addr)).map (·.addr) = (ps.map (·.addr)).erase addr := by
  rw [erase_eq_eraseP, eraseP_map]
  congr 2
  funext p
  exact Bool.eq_iff_iff.mpr ⟨fun h => beq_iff_eq.mpr (beq_iff_eq.mp h).symm,
    fun h => beq_iff_eq.mpr (beq_iff_eq.mp h).symm⟩

/-- What every call on an open file keeps: the file and everyone else's entries, and that the
stored pending entries match the list, which gains no addresses but the new ones. -/
structure Acts (h h' : Locked κ) (new : List Nat) : Prop extends Keeps h h' where
  queued : h.Queued → h'.Queued
  addrs : h'.file.addrs.Subperm (new ++ h.file.addrs)

/-- An effect that changes the waiters as it changes the pending list. -/
theorem Effect.acts {h h' : Locked κ} {G : Multiset (SmbLockEntry × Mode)} {W : Multiset Nat} {n : Int}
    {ps : List PvfsPendingLock} {new : List Nat} (he : Effect h h' G W n ps)
    (hq : h.Queued → W = ↑(ps.map (·.addr))) (ha : (ps.map (·.addr)).Subperm (new ++ h.file.addrs)) :
    Acts h h' new where
  toKeeps := he.toKeeps
  queued hq' := by
    unfold Locked.Queued PvfsFile.addrs
    rw [he.waiters, he.pendings]
    exact hq hq'
  addrs := by
    unfold PvfsFile.addrs at ha ⊢
    rw [he.pendings]
    exact ha

variable {h h' : Locked κ} {f g : PvfsFile κ} {s : State κ} {id j : Nat} {k : κ} {o : Owner}

theorem Effect.acts_same {G : Multiset (SmbLockEntry × Mode)} {n : Int} (new : List Nat)
    (he : Effect h h' G h.waiters n h.file.pendingList) : Acts h h' new :=
  he.acts id (sublist_append_right new _).subperm

theorem Acts.trans {h'' : Locked κ} {new : List Nat} (h₁ : Acts h h' []) (h₂ : Acts h' h'' new) : Acts h h'' new where
  toKeeps := h₁.toKeeps.trans h₂.toKeeps
  queued hq := h₂.queued (h₁.queued hq)
  addrs := h₂.addrs.trans ((subperm_append_left new).mpr h₁.addrs)

theorem Proceeds.acts {h h' : Locked κ} {p : PvfsPendingLock} {i : Nat} {sent : Option LockStatus}
    (hp : Proceeds h p i h' sent) : Acts h h' [p.addr] := by
  cases hp with
  | finished _ heff => exact heff.acts_same _
  | waits _ heff =>
    refine heff.acts (fun hq => ?_) (List.Subperm.refl _)
    rw [hq]
    rfl

theorem mem_addrs {p : PvfsPendingLock} (hp : p ∈ f.pendingList) : p.addr ∈ f.addrs :=
  mem_map_of_mem hp

theorem Continues.acts {h h' : Locked κ} {p : PvfsPendingLock} {reason : PvfsWaitNotice}
    {sent : Option LockStatus} (hp : p ∈ h.file.pendingList) (hc : Continues h p reason h' sent) :
    Acts h h' [] := by
  have hmem := mem_addrs hp
  have herase : h.Queued → h.waiters.erase p.addr =
      ↑((h.file.pendingList.eraseP (·.addr == p.addr)).map (·.addr)) := by
    intro hq
    rw [hq, addrs_eraseP]
    rfl
  have hsub : ((h.file.pendingList.eraseP (·.addr == p.addr)).map (·.addr)).Subperm h.file.addrs :=
    (eraseP_sublist.map _).subperm
  -- putting the request back restores the list up to order
  have hperm : (p.addr :: (h.file.pendingList.eraseP (·.addr == p.addr)).map (·.addr)).Perm h.file.addrs := by
    rw [addrs_eraseP]
    exact (perm_cons_erase hmem).symm
  cases hc with
  | outside => exact (Effect.refl h).acts_same []
  | again _ heff => exact heff.acts (fun hq => hq.trans (Multiset.coe_eq_coe.mpr hperm.symm)) hperm.subperm
  | failed _ _ _ _ heff => exact heff.acts herase hsub
  | granted _ _ heff hproc =>
    have h₁ := hproc.acts
    refine ⟨heff.toKeeps.trans h₁.toKeeps, fun hq => h₁.queued ?_, ?_⟩
    · exact (@Effect.acts _ _ _ _ _ _ _ [] heff herase hsub).queued hq
    · refine h₁.addrs.trans ?_
      unfold PvfsFile.addrs
      rw [heff.pendings]
      exact hperm.subperm

theorem unlockLoop_acts (es : List SmbLockEntry) (h : Locked κ) : Acts h (unlockLoop es h).2 [] := by
  obtain ⟨xs, heff, -, -⟩ := unlockLoop_spec es h
  exact heff.acts_same []

theorem Acts.weaken (ha : Acts h h' []) (new : List Nat) : Acts h h' new :=
  ⟨ha.toKeeps, ha.queued, ha.addrs.trans (sublist_append_right new _).subperm⟩

/-- A request adds at most its own address to the pending list. -/
theorem Requests.acts {h : Locked κ} {lck : SmbLock} {mayAsync : Bool} {addr : Nat} {r : LockResult κ}
    (hown : ∀ p ∈ h.file.pendingList, h.Own p.addr) (hr : Requests h lck mayAsync addr r) :
    Acts h r.locked [addr] := by
  cases hr with
  | rejected _ _ => exact (Effect.refl h).acts_same _
  | cancelled _ hfind =>
    have hmem := mem_of_find?_eq_some hfind
    exact ((pvfsPendingLockContinue_spec (hown _ hmem) .timeout).acts hmem).weaken _
  | unlockFailed _ _ => exact (unlockLoop_acts _ h).weaken _
  | proceeds _ _ hproc => exact (unlockLoop_acts _ h).trans hproc.acts
  | got h₁ _ heff =>
    subst h₁
    exact (unlockLoop_acts _ h).trans (heff.acts_same _)
  | refused h₁ _ _ _ _ _ heff =>
    subst h₁
    exact (unlockLoop_acts _ h).trans (heff.acts_same _)

/-! ## Closing -/

theorem pvfsLockClose_keeps (h : Locked κ) : Keeps h (pvfsLockClose h) := by
  refine ⟨?_, ?_, ?_, ?_⟩
  iterate 3
    unfold pvfsLockClose
    split <;> rfl
  unfold pvfsLockClose
  split
  · show others h.file.owner (brlClose h).locks = _
    rw [brlClose_locks]
    simp only [others, filter_filter, Bool.and_self]
  · rfl

/-- A close that calls `brl_close` leaves nothing of the file's own. -/
theorem pvfsLockClose_own (hne : h.file.lockCount ≠ 0 ∨ h.file.pendingList ≠ []) :
    ∀ lock ∈ (pvfsLockClose h).locks, lockOwner lock ≠ h.file.owner := by
  intro lock hmem
  unfold pvfsLockClose at hmem
  rw [if_pos hne] at hmem
  replace hmem : lock ∈ (brlClose h).locks := hmem
  rw [brlClose_locks] at hmem
  simpa using (mem_filter.mp hmem).2

theorem pvfsLockClose_waiters (hq : h.Queued) : waiters h.file.owner (pvfsLockClose h).locks = 0 := by
  by_cases hne : h.file.lockCount ≠ 0 ∨ h.file.pendingList ≠ []
  · refine Multiset.eq_zero_of_forall_notMem fun ptr hmem => ?_
    obtain ⟨lock, hlock, ho, -, -⟩ := mem_waiters.mp hmem
    exact pvfsLockClose_own hne lock hlock ho
  · have hlocks : (pvfsLockClose h).locks = h.locks := by
      unfold pvfsLockClose
      rw [if_neg hne]
      rfl
    rw [not_or, not_not, not_not] at hne
    rw [hlocks]
    refine hq.trans ?_
    unfold PvfsFile.addrs
    rw [hne.2]
    rfl

/-! ## The states of a run -/

/-- No file open under this key has this owner. -/
def State.Unowned (s : State κ) (k : κ) (o : Owner) : Prop :=
  ∀ id f, s.files id = some f → f.key = k → f.owner ≠ o

/-- What holds of the open files and the stored pending entries in every state of a run. -/
structure WellFormed (s : State κ) : Prop where
  owners : ∀ i j f g, s.files i = some f → s.files j = some g → f.owner = g.owner → i = j
  addrs : ∀ i j f g, s.files i = some f → s.files j = some g → f.brl.server = g.brl.server →
    ∀ addr, addr ∈ f.addrs → addr ∈ g.addrs → i = j
  nodup : ∀ id f, s.files id = some f → f.addrs.Nodup
  queued : ∀ id f, s.files id = some f → (s.locked f).Queued
  idle : ∀ k o, s.Unowned k o → waiters o (storedLocks (s.records k)) = 0

/-- In such a state the pointers of a file's waiting requests are its own. -/
theorem WellFormed.own (hs : WellFormed s)
    (hf : s.files id = some f) {p : PvfsPendingLock} (hp : p ∈ f.pendingList) : (s.locked f).Own p.addr := by
  intro lock hlock hpend hptr hserver
  obtain ⟨hmem, hne⟩ := mem_others.mp hlock
  have hwait : p.addr ∈ waiters (lockOwner lock) (storedLocks (s.records f.key)) :=
    mem_waiters.mpr ⟨lock, hmem, rfl, hpend, hptr⟩
  by_cases hun : s.Unowned f.key (lockOwner lock)
  · rw [hs.idle _ _ hun] at hwait
    exact Multiset.notMem_zero _ hwait
  · unfold State.Unowned at hun
    push Not at hun
    obtain ⟨j, g, hg, hkey, ho⟩ := hun
    have hq : waiters g.owner (storedLocks (s.records g.key)) = ↑g.addrs := hs.queued j g hg
    rw [ho, hkey] at hq
    rw [hq] at hwait
    have hserver' : f.brl.server = g.brl.server := hserver.symm.trans (congrArg Owner.server ho).symm
    have hij := hs.addrs id j f g hf hg hserver' p.addr (mem_addrs hp) hwait
    subst hij
    rw [hf] at hg
    cases hg
    exact hne ho.symm

variable [DecidableEq κ]

/-- A call on one file leaves the entries of every other owner alone, under every key. -/
theorem put_others (hk : Keeps (s.locked f) h') (k : κ) :
    others f.owner (storedLocks (update s.records h'.file.key h'.record k)) =
      others f.owner (storedLocks (s.records k)) := by
  by_cases hkey : k = f.key
  · subst hkey
    rw [hk.key, show (s.locked f).file.key = f.key from rfl, update_self]
    exact hk.others
  · rw [hk.key, show (s.locked f).file.key = f.key from rfl, update_of_ne hkey]

theorem put_files_self (s : State κ) (id : Nat) (h : Locked κ) : (s.put id h).files id = some h.file :=
  update_self ..

theorem put_files_ne (s : State κ) (hj : j ≠ id) (h : Locked κ) : (s.put id h).files j = s.files j :=
  update_of_ne hj _ _

theorem remove_files_self (s : State κ) (id : Nat) (h : Locked κ) : (s.remove id h).files id = none :=
  update_self ..

theorem remove_files_ne (s : State κ) (hj : j ≠ id) (h : Locked κ) : (s.remove id h).files j = s.files j :=
  update_of_ne hj _ _

theorem put_records_self (s : State κ) (id : Nat) (h : Locked κ) :
    (s.put id h).records h.file.key = h.record :=
  update_self ..

theorem put_files (hg : (s.put id h').files j = some g) : (j = id ∧ g = h'.file) ∨ (j ≠ id ∧ s.files j = some g) := by
  by_cases hj : j = id
  · subst hj
    rw [put_files_self] at hg
    cases hg
    exact .inl ⟨rfl, rfl⟩
  · rw [put_files_ne s hj] at hg
    exact .inr ⟨hj, hg⟩

theorem remove_files (hg : (s.remove id h').files j = some g) : j ≠ id ∧ s.files j = some g := by
  by_cases hj : j = id
  · subst hj
    rw [remove_files_self] at hg
    cases hg
  · rw [remove_files_ne s hj] at hg
    exact ⟨hj, hg⟩

/-- A file other than the one a call is on keeps its grants and waiters. -/
theorem WellFormed.frame (hs : WellFormed s)
    (hf : s.files id = some f) (hk : Keeps (s.locked f) h') (hj : j ≠ id) (hg : s.files j = some g)
    (k : κ) :
    grants g.owner (storedLocks (update s.records h'.file.key h'.record k)) =
        grants g.owner (storedLocks (s.records k)) ∧
      waiters g.owner (storedLocks (update s.records h'.file.key h'.record k)) =
        waiters g.owner (storedLocks (s.records k)) := by
  have hne : g.owner ≠ f.owner := fun ho => hj (hs.owners j id g f hg hf ho)
  exact ⟨grants_of_others hne (put_others hk k), waiters_of_others hne (put_others hk k)⟩

/-- A call on an open file leaves an owner without a file without one. -/
theorem unowned_of_put (hf : s.files id = some f) (hk : Keeps (s.locked f) h')
    (hun : (s.put id h').Unowned k o) : s.Unowned k o := by
  intro j g hg hgk
  by_cases hj : j = id
  · subst hj
    rw [hf] at hg
    cases hg
    have howner : h'.file.owner = f.owner := hk.owner
    have hkey : h'.file.key = f.key := hk.key
    exact howner ▸ hun j h'.file (put_files_self s j h') (hkey.trans hgk)
  · exact hun j g ((put_files_ne s hj h').trans hg) hgk

theorem unowned_of_remove (hf : s.files id = some f) (ho : o ≠ f.owner)
    (hun : (s.remove id h').Unowned k o) : s.Unowned k o := by
  intro j g hg hgk hgo
  have hj : j ≠ id := by
    rintro rfl
    rw [hf] at hg
    cases hg
    exact ho hgo.symm
  exact hun j g ((remove_files_ne s hj h').trans hg) hgk hgo

theorem unowned_of_opened (hid : s.files id = none) (hun : (s.put id h').Unowned k o) : s.Unowned k o := by
  intro j g hg hgk
  have hj : j ≠ id := by
    rintro rfl
    rw [hid] at hg
    cases hg
  exact hun j g ((put_files_ne s hj h').trans hg) hgk

omit [DecidableEq κ] in
/-- Under another key than its file's, an owner has no file. -/
theorem WellFormed.unowned_elsewhere (hs : WellFormed s)
    (hf : s.files id = some f) (hk : k ≠ f.key) : s.Unowned k f.owner := by
  intro j g hg hgk hgo
  have hij := hs.owners j id g f hg hf hgo
  subst hij
  rw [hf] at hg
  cases hg
  exact hk hgk.symm

theorem WellFormed.put (hs : WellFormed s) {new : List Nat} (hf : s.files id = some f) (hnew : new.Nodup)
    (hfresh : ∀ addr ∈ new, s.Unused f.brl.server addr) (ha : Acts (s.locked f) h' new) :
    WellFormed (s.put id h') := by
  have howner : h'.file.owner = f.owner := ha.toKeeps.owner
  have hbrl : h'.file.brl = f.brl := ha.brl
  have hkey : h'.file.key = f.key := ha.key
  have hmem : ∀ addr ∈ h'.file.addrs, addr ∈ new ∨ addr ∈ f.addrs := fun addr h =>
    mem_append.mp (ha.addrs.subset h)
  have hunused : ∀ addr ∈ new, ∀ j g, s.files j = some g → g.brl.server = f.brl.server → addr ∉ g.addrs := by
    intro addr hmem j g hg hserver hin
    obtain ⟨q, hq, rfl⟩ := mem_map.mp hin
    exact (hfresh _ hmem).2 j g hg hserver q hq rfl
  -- the called file's address met in another file is an old one
  have hclash : ∀ j g, j ≠ id → s.files j = some g → h'.file.brl.server = g.brl.server →
      ∀ addr, addr ∈ h'.file.addrs → addr ∈ g.addrs → False := by
    intro j g hj hg hserver addr h1 h2
    rw [hbrl] at hserver
    rcases hmem addr h1 with hn | ho
    · exact hunused addr hn j g hg hserver.symm h2
    · exact hj (hs.addrs id j f g hf hg hserver addr ho h2).symm
  refine ⟨?_, ?_, ?_, ?_, ?_⟩
  · intro i j f₁ g₁ hi hj ho
    rcases put_files hi with ⟨rfl, rfl⟩ | ⟨hne, hi'⟩ <;> rcases put_files hj with ⟨rfl, rfl⟩ | ⟨hne', hj'⟩
    · rfl
    · exact hs.owners _ _ _ _ hf hj' (howner ▸ ho)
    · exact hs.owners _ _ _ _ hi' hf (howner ▸ ho)
    · exact hs.owners _ _ _ _ hi' hj' ho
  · intro i j f₁ g₁ hi hj hserver addr h1 h2
    rcases put_files hi with ⟨rfl, rfl⟩ | ⟨hne, hi'⟩ <;> rcases put_files hj with ⟨rfl, rfl⟩ | ⟨hne', hj'⟩
    · rfl
    · exact (hclash j g₁ hne' hj' hserver addr h1 h2).elim
    · exact (hclash i f₁ hne hi' hserver.symm addr h2 h1).elim
    · exact hs.addrs _ _ _ _ hi' hj' hserver addr h1 h2
  · intro j g hj
    rcases put_files hj with ⟨rfl, rfl⟩ | ⟨-, hj'⟩
    · obtain ⟨l, hperm, hsub⟩ := ha.addrs
      refine hperm.nodup_iff.mp (hsub.nodup (nodup_append.mpr ⟨hnew, hs.nodup _ _ hf, ?_⟩))
      rintro a hna b hb rfl
      exact hunused a hna _ _ hf rfl hb
    · exact hs.nodup _ _ hj'
  · intro j g hj
    rcases put_files hj with ⟨rfl, rfl⟩ | ⟨hne, hj'⟩
    · have hq := ha.queued (hs.queued _ _ hf)
      unfold Locked.Queued Locked.waiters Locked.locks at hq ⊢
      rw [State.locked, put_records_self]
      exact hq
    · have hframe := (hs.frame hf ha.toKeeps hne hj' g.key).2
      have hq := hs.queued _ _ hj'
      exact hframe.trans hq
  · intro k o hun
    have hun' := unowned_of_put hf ha.toKeeps hun
    refine Eq.trans ?_ (hs.idle k o hun')
    by_cases ho : o = f.owner
    · subst ho
      have hk : k ≠ f.key := fun hk => hun' id f hf hk.symm rfl
      show waiters _ (storedLocks (update s.records h'.file.key h'.record k)) = _
      rw [hkey, update_of_ne hk]
    · exact waiters_of_others ho (put_others ha.toKeeps k)

theorem WellFormed.opened (hs : WellFormed s)
    (hid : s.files id = none) (howner : ∀ j g, s.files j = some g → g.owner ≠ f.owner)
    (hpend : f.pendingList = []) : WellFormed (s.put id (s.locked f)) := by
  have hrec : (s.put id (s.locked f)).records = s.records := update_eq_self f.key s.records
  have hnil : f.addrs = [] := by
    unfold PvfsFile.addrs
    rw [hpend]
    rfl
  refine ⟨?_, ?_, ?_, ?_, ?_⟩
  · intro i j f₁ g₁ hi hj ho
    rcases put_files hi with ⟨rfl, rfl⟩ | ⟨-, hi'⟩ <;> rcases put_files hj with ⟨rfl, rfl⟩ | ⟨-, hj'⟩
    · rfl
    · exact absurd ho.symm (howner _ _ hj')
    · exact absurd ho (howner _ _ hi')
    · exact hs.owners _ _ _ _ hi' hj' ho
  · intro i j f₁ g₁ hi hj hserver addr h1 h2
    rcases put_files hi with ⟨rfl, rfl⟩ | ⟨-, hi'⟩ <;> rcases put_files hj with ⟨rfl, rfl⟩ | ⟨-, hj'⟩
    · rfl
    · rw [hnil] at h1
      cases h1
    · rw [hnil] at h2
      cases h2
    · exact hs.addrs _ _ _ _ hi' hj' hserver addr h1 h2
  · intro j g hj
    rcases put_files hj with ⟨rfl, rfl⟩ | ⟨-, hj'⟩
    · rw [hnil]
      exact nodup_nil
    · exact hs.nodup _ _ hj'
  · intro j g hj
    show waiters g.owner (storedLocks ((s.put id (s.locked f)).records g.key)) = ↑g.addrs
    rw [hrec]
    rcases put_files hj with ⟨rfl, rfl⟩ | ⟨-, hj'⟩
    · rw [hnil]
      exact hs.idle _ _ fun i g hg _ => howner i g hg
    · exact hs.queued _ _ hj'
  · intro k o hun
    rw [hrec]
    exact hs.idle k o (unowned_of_opened hid hun)

theorem WellFormed.closed (hs : WellFormed s)
    (hf : s.files id = some f) : WellFormed (s.remove id (pvfsLockClose (s.locked f))) := by
  have hk := pvfsLockClose_keeps (s.locked f)
  have hkey : (pvfsLockClose (s.locked f)).file.key = f.key := hk.key
  refine ⟨?_, ?_, ?_, ?_, ?_⟩
  · exact fun i j f₁ g₁ hi hj => hs.owners i j f₁ g₁ (remove_files hi).2 (remove_files hj).2
  · exact fun i j f₁ g₁ hi hj => hs.addrs i j f₁ g₁ (remove_files hi).2 (remove_files hj).2
  · exact fun j g hj => hs.nodup j g (remove_files hj).2
  · intro j g hj
    obtain ⟨hne, hj'⟩ := remove_files hj
    exact ((hs.frame hf hk hne hj' g.key).2).trans (hs.queued _ _ hj')
  · intro k o hun
    show waiters o (storedLocks (update s.records _ _ k)) = 0
    by_cases ho : o = f.owner
    · subst ho
      by_cases hk' : k = f.key
      · subst hk'
        rw [hkey, update_self]
        exact pvfsLockClose_waiters (hs.queued _ _ hf)
      · rw [hkey, update_of_ne hk']
        exact hs.idle k f.owner (hs.unowned_elsewhere hf hk')
    · rw [waiters_of_others ho (put_others hk k)]
      exact hs.idle k o (unowned_of_remove hf ho hun)

theorem Step.wellFormed {s s' : State κ} {e : Event κ} (hs : WellFormed s) (hstep : Step s e s') :
    WellFormed s' := by
  cases hstep with
  | opened id f hid howner hcount hpend => exact hs.opened hid howner hpend
  | invalidHandle _ _ _ _ _ => exact hs
  | lock id f lck mayAsync addr hf hunused =>
    refine hs.put hf (nodup_singleton addr) (fun a ha => ?_)
      ((pvfsLock_spec (s.locked f) lck mayAsync addr).acts fun p hp => hs.own hf hp)
    rw [mem_singleton.mp ha]
    exact hunused
  | resume id f p reason hf hp =>
    refine hs.put hf nodup_nil (fun a ha => (nomatch ha))
      ((pvfsPendingLockContinue_spec (hs.own hf hp) reason).acts hp)
  | close id f hf => exact hs.closed hf

theorem wellFormed {s : State κ} (h : (pvfsSystem κ).Reachable s) : WellFormed s := by
  refine h.invariant ?_ fun s e s' hs hstep => @Step.wellFormed _ _ s s' e hs hstep
  rintro s ⟨hfiles, hrecords⟩
  refine ⟨?_, ?_, ?_, ?_, ?_⟩
  · intro i j f g hf
    rw [hfiles] at hf
    cases hf
  · intro i j f g hf
    rw [hfiles] at hf
    cases hf
  · intro id f hf
    rw [hfiles] at hf
    cases hf
  · intro id f hf
    rw [hfiles] at hf
    cases hf
  · intro k o _
    rw [hrecords]
    rfl

/-! ## Runs without waiting requests -/

/-- No request waits. -/
def State.Quiet (s : State κ) : Prop := ∀ id f, s.files id = some f → f.pendingList = []

theorem State.Quiet.put (hs : s.Quiet) (id : Nat) (hh : h.file.pendingList = []) : (s.put id h).Quiet := by
  intro j g hg
  rcases put_files hg with ⟨-, rfl⟩ | ⟨-, hg'⟩
  · exact hh
  · exact hs j g hg'

omit [DecidableEq κ] in
theorem State.Quiet.unused (hs : s.Quiet) (server : ServerId) {addr : Nat} (ha : addr ≠ 0) :
    s.Unused server addr := by
  refine ⟨ha, fun id g hg _ p hp => ?_⟩
  rw [hs id g hg] at hp
  cases hp

/-- An open file without locks: its address and the protocol of its client. -/
def newFile (addr : Nat) (protocol : Protocol) : PvfsFile Unit where
  brl := ⟨1, ⟨1, 0⟩⟩
  brlHandle := ⟨⟨addr, protocol⟩, ⟨⟨⟨0, 0⟩, 0, 0⟩, ⟨0, protocol⟩, 0, 0, .readLock, 0⟩⟩
  key := ()
  isDirectory := false
  lockCount := 0
  pendingList := []

/-- Nothing open and nothing locked. -/
def noFiles : State Unit := ⟨fun _ => none, fun _ => none⟩

/-- Two open handles of one file. -/
def twoFiles (protocol : Protocol) : State Unit :=
  let s := noFiles.put 0 (noFiles.locked (newFile 10 protocol))
  s.put 1 (s.locked (newFile 20 protocol))

theorem twoFiles_reachable (protocol : Protocol) :
    (pvfsSystem Unit).Reachable (twoFiles protocol) ∧ (twoFiles protocol).Quiet := by
  have h0 : (pvfsSystem Unit).Reachable noFiles := .init ⟨fun _ => rfl, fun _ => rfl⟩
  have q0 : noFiles.Quiet := fun _ _ hf => nomatch hf
  have h1 := h0.step _ (Step.opened 0 (newFile 10 protocol) rfl (fun _ _ hg => nomatch hg) rfl rfl)
  have q1 := q0.put 0 (h := noFiles.locked (newFile 10 protocol)) rfl
  refine ⟨h1.step _ (Step.opened 1 (newFile 20 protocol) rfl ?_ rfl rfl), q1.put 1 rfl⟩
  intro j g hg
  rcases put_files hg with ⟨-, rfl⟩ | ⟨-, hg'⟩
  · simp [newFile, State.locked, PvfsFile.owner]
  · cases hg'

/-- A request for one exclusive lock that does not wait. -/
def exclusiveLock (offset count : UInt64) : SmbLock := ⟨0, 0, [], [⟨0, offset, count⟩]⟩

/-- The first handle takes a lock, then the second another. -/
def firstLocked (protocol : Protocol) : Locked Unit :=
  (pvfsLock ((twoFiles protocol).locked (newFile 10 protocol)) (exclusiveLock 0 1) false 1).locked

def secondLocked (protocol : Protocol) : Locked Unit :=
  (pvfsLock (((twoFiles protocol).put 0 (firstLocked protocol)).locked (newFile 20 protocol))
    (exclusiveLock 10 1) false 1).locked

def bothLocked (protocol : Protocol) : State Unit :=
  ((twoFiles protocol).put 0 (firstLocked protocol)).put 1 (secondLocked protocol)

theorem bothLocked_reachable (protocol : Protocol) :
    (pvfsSystem Unit).Reachable (bothLocked protocol) ∧ (bothLocked protocol).Quiet := by
  obtain ⟨h0, q0⟩ := twoFiles_reachable protocol
  have h1 := h0.step _
    (Step.lock 0 (newFile 10 protocol) (exclusiveLock 0 1) false 1 rfl (q0.unused _ (by decide)))
  have q1 := q0.put 0 (h := firstLocked protocol) rfl
  have h2 := h1.step _
    (Step.lock 1 (newFile 20 protocol) (exclusiveLock 10 1) false 1 rfl (q1.unused _ (by decide)))
  exact ⟨h2, q1.put 1 (h := secondLocked protocol) rfl⟩

end Samba.PvfsLock
