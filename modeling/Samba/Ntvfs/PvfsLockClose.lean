/-
Closing a file with locks. `pvfs_lock_close` skips `brl_close` when `lock_count` is zero and nothing
waits, so it leaves nothing behind as long as `lock_count` is the number of granted locks. Every
path through pvfs_lock.c keeps the count right except a rollback that unlocks a range the handle
does not hold: it counts down all the same. An SMB2 request does so whenever its failing lock was
not held already, which is how a lock can outlive its file.
-/
import Samba.Ntvfs.PvfsLockRuns

namespace Samba.PvfsLock

open Function Multiset Samba.Brlock Samba.Cluster SharedExclusive Transition

variable {κ : Type}

/-! ## The count of a file -/

/-- `lock_count` is the number of granted locks of the handle. -/
def Locked.Counted (h : Locked κ) : Prop := h.file.lockCount = h.grants.card

/-- When a continuation that gives up undoes only locks the handle holds. -/
def Locked.HoldsUndone (h : Locked κ) (p : PvfsPendingLock) (reason : PvfsWaitNotice) : Prop :=
  ∀ e, p.lck.locks[p.pendingLock]? = some e → reason ≠ .event →
    (reason = .cancel ∨ refused h.file (lockMode p.lck) h.locks e = true) →
    ↑(undone h.file.protocol p.lck.locks p.pendingLock) ≤ resources h.grants

/-- When an SMB2 request that fails at once already held the lock it did not get. -/
def Locked.HoldsRefused (h : Locked κ) (lck : SmbLock) : Prop :=
  h.file.protocol = .smb2 → ∀ e,
    lck.locks[(obtainable h.file (lockMode lck) h.locks lck.locks).length]? = some e →
    e ∈ resources h.grants

variable {h h' : Locked κ} {s : State κ} {id : Nat} {f : PvfsFile κ}

theorem Effect.counted {G : Multiset (SmbLockEntry × Mode)} {W : Multiset Nat} {n : Int}
    {ps : List PvfsPendingLock} (he : Effect h h' G W n ps) (hn : n = G.card) : h'.Counted := by
  unfold Locked.Counted
  rw [he.grants, he.count, hn]

theorem card_add_taken (M : Multiset (SmbLockEntry × Mode)) (mode : Mode) (G : List SmbLockEntry) :
    (M + taken mode G).card = M.card + G.length := by
  simp [taken]

/-- Undoing counts right exactly where each unlock finds a lock. -/
theorem counted_releaseAll {M : Multiset (SmbLockEntry × Mode)} {xs : List SmbLockEntry}
    (h : ↑xs ≤ resources M) : (M.card : Int) - xs.length = (releaseAll M xs).card := by
  have := card_releaseAll h
  omega

theorem Proceeds.counted {p : PvfsPendingLock} {i : Nat} {sent : Option LockStatus}
    (hc : h.Counted) (hp : Proceeds h p i h' sent) : h'.Counted := by
  unfold Locked.Counted at hc
  cases hp with
  | finished _ heff =>
    refine heff.counted ?_
    rw [card_add_taken, hc]
    push_cast
    rfl
  | waits _ heff =>
    refine heff.counted ?_
    rw [card_add_taken, hc]
    push_cast
    rfl

theorem Continues.counted {p : PvfsPendingLock} {reason : PvfsWaitNotice}
    {sent : Option LockStatus} (hc : h.Counted) (hheld : h.HoldsUndone p reason)
    (hcont : Continues h p reason h' sent) : h'.Counted := by
  have hc' : h.file.lockCount = h.grants.card := hc
  cases hcont with
  | outside _ => exact hc
  | again _ heff => exact heff.counted hc'
  | failed he hev hwhy _ heff =>
    refine heff.counted ?_
    rw [hc']
    exact counted_releaseAll (hheld _ he hev hwhy)
  | granted he _ heff hproc =>
    refine hproc.counted (heff.counted ?_)
    rw [hc', card_cons]
    push_cast
    rfl

theorem unlockLoop_counted (hc : h.Counted) (es : List SmbLockEntry) : (unlockLoop es h).2.Counted := by
  obtain ⟨xs, heff, hle, -⟩ := unlockLoop_spec es h
  refine heff.counted ?_
  rw [show h.file.lockCount = h.grants.card from hc]
  exact counted_releaseAll hle

/-- The locks an immediate rollback undoes are those just taken, and for SMB2 the refused one. -/
theorem undone_le (M : Multiset (SmbLockEntry × Mode)) (mode : Mode) {protocol : Protocol}
    {locks G rest : List SmbLockEntry} {e : SmbLockEntry} (hlocks : locks = G ++ e :: rest)
    (hheld : protocol = .smb2 → e ∈ resources M) :
    ↑(undone protocol locks G.length) ≤ resources (M + taken mode G) := by
  rw [resources_add, resources_taken, hlocks]
  unfold undone
  by_cases hp : protocol = .smb2
  · rw [if_pos hp, List.take_length_add_append]
    simp only [List.take_succ_cons, List.take_zero, coe_reverse]
    rw [← coe_add, add_comm]
    refine Multiset.add_le_add_right ?_
    exact singleton_le.mpr (hheld hp)
  · rw [if_neg hp, List.take_left, coe_reverse]
    exact le_add_left _ _

/-- The condition on a request: what its rollback, or the one of a request it cancels, undoes is
held by the handle. -/
def Locked.HoldsRollback (h : Locked κ) (lck : SmbLock) (mayAsync : Bool) : Prop :=
  (lck.has lockingAndxCancelLock = true →
    ∀ p, h.file.pendingList.find? (cancels lck) = some p → h.HoldsUndone p .timeout) ∧
  (lck.has lockingAndxCancelLock = false → ¬(lck.timeout ≠ 0 ∧ mayAsync = true) →
    (unlockLoop lck.ulocks h).2.HoldsRefused lck)

theorem Requests.counted {lck : SmbLock} {mayAsync : Bool} {addr : Nat} {r : LockResult κ}
    (hown : ∀ p ∈ h.file.pendingList, h.Own p.addr) (hc : h.Counted) (hheld : h.HoldsRollback lck mayAsync)
    (hr : Requests h lck mayAsync addr r) : r.locked.Counted := by
  cases hr with
  | rejected _ _ => exact hc
  | cancelled hcancel hfind =>
    have hmem := List.mem_of_find?_eq_some hfind
    exact (pvfsPendingLockContinue_spec (hown _ hmem) .timeout).counted hc (hheld.1 hcancel _ hfind)
  | unlockFailed _ _ => exact unlockLoop_counted hc _
  | proceeds _ _ hproc => exact hproc.counted (unlockLoop_counted hc _)
  | got h₁ _ heff =>
    subst h₁
    refine heff.counted ?_
    rw [card_add_taken, show (unlockLoop lck.ulocks h).2.file.lockCount = _ from unlockLoop_counted hc _]
    push_cast
    rfl
  | refused h₁ hasync hdeclined hG hlocks _ heff =>
    subst h₁
    refine heff.counted ?_
    have hrefused := hheld.2 (not_cancel hdeclined) hasync
    have hle := undone_le (unlockLoop lck.ulocks h).2.grants lck.grantMode hlocks fun hp => by
      refine hrefused hp _ ?_
      rw [← hG, hlocks]
      simp
    rw [← counted_releaseAll hle, card_add_taken,
      show (unlockLoop lck.ulocks h).2.file.lockCount = _ from unlockLoop_counted hc _]
    push_cast
    rfl

/-- Requests of other protocols that may not wait always meet the condition. -/
theorem holdsRollback_of_ne_smb2 (hp : h.file.protocol ≠ .smb2) {lck : SmbLock}
    (hcancel : lck.has lockingAndxCancelLock = false) (mayAsync : Bool) : h.HoldsRollback lck mayAsync := by
  refine ⟨fun h' => ?_, fun _ _ hp' => ?_⟩
  · rw [hcancel] at h'
    cases h'
  · rw [(unlockLoop_acts lck.ulocks h).toKeeps.protocol] at hp'
    exact absurd hp' hp

/-! ## Runs -/

/-- A step whose rollbacks, if it makes any, undo only locks the handle holds. -/
def Event.RollbackHeld (s : State κ) : Event κ → Prop
  | .lock id lck mayAsync _ => ∀ f, s.files id = some f → (s.locked f).HoldsRollback lck mayAsync
  | .resume id addr reason => ∀ f, s.files id = some f → ∀ p ∈ f.pendingList, p.addr = addr →
      (s.locked f).HoldsUndone p reason
  | .opened _ _ | .close _ => True

/-- The counts are right, and no granted lock is left of a file that is not open. -/
structure Accounted (s : State κ) : Prop where
  counted : ∀ id f, s.files id = some f → (s.locked f).Counted
  idle : ∀ k o, s.Unowned k o → grants o (storedLocks (s.records k)) = 0

variable [DecidableEq κ]

theorem Accounted.put (hs : WellFormed s) (hc : Accounted s) (hf : s.files id = some f) (hk : Keeps (s.locked f) h') (hcounted : h'.Counted) :
    Accounted (s.put id h') := by
  have hkey : h'.file.key = f.key := hk.key
  refine ⟨?_, ?_⟩
  · intro j g hj
    rcases put_files hj with ⟨rfl, rfl⟩ | ⟨hne, hj'⟩
    · unfold Locked.Counted Locked.grants Locked.locks at hcounted ⊢
      rw [State.locked, put_records_self]
      exact hcounted
    · have hframe := (hs.frame hf hk hne hj' g.key).1
      exact (hc.counted j g hj').trans (congrArg (fun M : Multiset _ => (M.card : Int)) hframe).symm
  · intro k o hun
    have hun' := unowned_of_put hf hk hun
    refine Eq.trans ?_ (hc.idle k o hun')
    by_cases ho : o = f.owner
    · subst ho
      have hk' : k ≠ f.key := fun hk' => hun' id f hf hk'.symm rfl
      show grants _ (storedLocks (update s.records h'.file.key h'.record k)) = _
      rw [hkey, update_of_ne hk']
    · exact grants_of_others ho (put_others hk k)

theorem Accounted.opened (hc : Accounted s)
    (hid : s.files id = none) (howner : ∀ j g, s.files j = some g → g.owner ≠ f.owner)
    (hcount : f.lockCount = 0) : Accounted (s.put id (s.locked f)) := by
  have hrec : (s.put id (s.locked f)).records = s.records := update_eq_self f.key s.records
  refine ⟨?_, ?_⟩
  · intro j g hj
    show g.lockCount = (grants g.owner (storedLocks ((s.put id (s.locked f)).records g.key))).card
    rw [hrec]
    rcases put_files hj with ⟨rfl, rfl⟩ | ⟨-, hj'⟩
    · rw [hc.idle _ _ fun i g hg _ => howner i g hg]
      exact hcount
    · exact hc.counted j g hj'
  · intro k o hun
    rw [hrec]
    exact hc.idle k o (unowned_of_opened hid hun)

omit [DecidableEq κ] in
/-- A close of a file whose count is right leaves nothing of it. -/
theorem pvfsLockClose_clean (hq : h.Queued) (hc : h.Counted) :
    ∀ lock ∈ (pvfsLockClose h).locks, lockOwner lock ≠ h.file.owner := by
  by_cases hne : h.file.lockCount ≠ 0 ∨ h.file.pendingList ≠ []
  · exact pvfsLockClose_own hne
  · have hlocks : (pvfsLockClose h).locks = h.locks := by
      unfold pvfsLockClose
      rw [if_neg hne]
      rfl
    rw [not_or, not_not, not_not] at hne
    have hG : h.grants = 0 := by
      rw [← card_eq_zero]
      have := hc.symm.trans hne.1
      exact_mod_cast this
    have hW : h.waiters = 0 := by
      refine hq.trans ?_
      unfold PvfsFile.addrs
      rw [hne.2]
      rfl
    intro lock hmem ho
    rw [hlocks] at hmem
    by_cases hp : lock.lockType.isPending = true
    · have : lock.notifyPtr ∈ h.waiters := mem_waiters.mpr ⟨lock, hmem, ho, hp, rfl⟩
      rw [hW] at this
      exact notMem_zero _ this
    · rw [Bool.not_eq_true] at hp
      have : lockEntry lock ∈ resources h.grants := mem_resources_grants.mpr ⟨lock, hmem, ho, hp, rfl⟩
      rw [hG] at this
      exact notMem_zero _ this

theorem Accounted.closed (hs : WellFormed s) (hc : Accounted s)
    (hf : s.files id = some f) : Accounted (s.remove id (pvfsLockClose (s.locked f))) := by
  have hk := pvfsLockClose_keeps (s.locked f)
  have hkey : (pvfsLockClose (s.locked f)).file.key = f.key := hk.key
  refine ⟨?_, ?_⟩
  · intro j g hj
    obtain ⟨hne, hj'⟩ := remove_files hj
    have hframe := (hs.frame hf hk hne hj' g.key).1
    exact (hc.counted j g hj').trans (congrArg (fun M : Multiset _ => (M.card : Int)) hframe).symm
  · intro k o hun
    show grants o (storedLocks (update s.records _ _ k)) = 0
    by_cases ho : o = f.owner
    · subst ho
      by_cases hk' : k = f.key
      · subst hk'
        rw [hkey, update_self]
        refine eq_zero_of_forall_notMem fun x hmem => ?_
        obtain ⟨lock, hlock, ho, -⟩ :=
          mem_resources_grants.mp (mem_map_of_mem Prod.fst hmem)
        exact pvfsLockClose_clean (hs.queued _ _ hf) (hc.counted _ _ hf) lock hlock ho
      · rw [hkey, update_of_ne hk']
        exact hc.idle k f.owner (hs.unowned_elsewhere hf hk')
    · rw [grants_of_others ho (put_others hk k)]
      exact hc.idle k o (unowned_of_remove hf ho hun)

/-- A step that meets the condition keeps the counts right. -/
theorem Step.accounted {s s' : State κ} {e : Event κ} (hs : WellFormed s) (hc : Accounted s)
    (hheld : e.RollbackHeld s) (hstep : Step s e s') : Accounted s' := by
  cases hstep with
  | opened id f hid howner hcount hpend => exact hc.opened hid howner hcount
  | invalidHandle _ _ _ _ _ => exact hc
  | lock id f lck mayAsync addr hf hunused =>
    have hspec := pvfsLock_spec (s.locked f) lck mayAsync addr
    have hown : ∀ p ∈ f.pendingList, (s.locked f).Own p.addr := fun p hp => hs.own hf hp
    exact hc.put hs hf (hspec.acts hown).toKeeps (hspec.counted hown (hc.counted _ _ hf) (hheld f hf))
  | resume id f p reason hf hp =>
    have hspec := pvfsPendingLockContinue_spec (hs.own hf hp) reason
    exact hc.put hs hf (hspec.acts hp).toKeeps (hspec.counted (hc.counted _ _ hf) (hheld f hf p hp rfl))
  | close id f hf => exact hc.closed hs hf

/-- Every run whose steps meet the condition keeps the counts right. -/
theorem wellFormed_accounted
    (h : ((pvfsSystem κ).restrict fun s e => e.RollbackHeld s).Reachable s) : WellFormed s ∧ Accounted s := by
  refine @System.Reachable.invariant _ _ _ (fun s => WellFormed s ∧ Accounted s) ?_ ?_ _ h
  · intro s hinit
    obtain ⟨hfiles, hrecords⟩ := hinit
    refine ⟨wellFormed (.init ⟨hfiles, hrecords⟩), ⟨?_, ?_⟩⟩
    · intro id f hf
      rw [hfiles] at hf
      cases hf
    · intro k o _
      rw [hrecords]
      rfl
  · rintro s e s' ⟨hs, hc⟩ ⟨hheld, hstep⟩
    exact ⟨@Step.wellFormed _ _ s s' e hs hstep, @Step.accounted _ _ s s' e hs hc hheld hstep⟩

/-- Closing a file leaves none of its entries in the record, granted or pending, in every run whose
rollbacks undo only locks their handles hold. -/
theorem pvfsLockClose_leaves_nothing {s : State κ}
    (h : ((pvfsSystem κ).restrict fun s e => e.RollbackHeld s).Reachable s) {id : Nat} {f : PvfsFile κ}
    (hf : s.files id = some f) :
    ∀ lock ∈ storedLocks (pvfsLockClose (s.locked f)).record, lockOwner lock ≠ f.owner := by
  obtain ⟨hs, hc⟩ := wellFormed_accounted h
  exact pvfsLockClose_clean (hs.queued _ _ hf) (hc.counted _ _ hf)

/-- One open handle, and the same handle with a granted lock. -/
def oneOpen : State Unit := noFiles.put 0 (noFiles.locked (newFile 10 .nt1))

def oneLocked : Locked Unit := (pvfsLock (oneOpen.locked (newFile 10 .nt1)) (exclusiveLock 0 1) false 1).locked

theorem pvfsLockClose_leaves_nothing_one :
    ∃ (s : State Unit) (f : PvfsFile Unit), ((pvfsSystem Unit).restrict fun s e => e.RollbackHeld s).Reachable s ∧
      s.files 0 = some f ∧ storedLocks (s.locked f).record ≠ [] ∧
      ∀ lock ∈ storedLocks (pvfsLockClose (s.locked f)).record, lockOwner lock ≠ f.owner := by
  have q0 : noFiles.Quiet := fun _ _ hf => nomatch hf
  have q1 : oneOpen.Quiet := q0.put 0 (h := noFiles.locked (newFile 10 .nt1)) rfl
  have hopen : Step noFiles (.opened 0 (newFile 10 .nt1)) oneOpen :=
    Step.opened 0 (newFile 10 .nt1) rfl (fun _ _ hg => nomatch hg) rfl rfl
  have hlock : Step oneOpen (.lock 0 (exclusiveLock 0 1) false 1) (oneOpen.put 0 oneLocked) :=
    Step.lock 0 (newFile 10 .nt1) (exclusiveLock 0 1) false 1 rfl (q1.unused _ (by decide))
  have hheld : Event.RollbackHeld oneOpen (.lock 0 (exclusiveLock 0 1) false 1) := by
    intro f hf
    cases hf
    exact holdsRollback_of_ne_smb2 (by decide) (by decide) false
  have h0 : ((pvfsSystem Unit).restrict fun s e => e.RollbackHeld s).Reachable noFiles :=
    .init ⟨fun _ => rfl, fun _ => rfl⟩
  have h1 : ((pvfsSystem Unit).restrict fun s e => e.RollbackHeld s).Reachable oneOpen :=
    h0.step (.opened 0 (newFile 10 .nt1)) ⟨trivial, hopen⟩
  have h2 : ((pvfsSystem Unit).restrict fun s e => e.RollbackHeld s).Reachable (oneOpen.put 0 oneLocked) :=
    h1.step (.lock 0 (exclusiveLock 0 1) false 1) ⟨hheld, hlock⟩
  exact ⟨_, oneLocked.file, h2, rfl, by decide, @pvfsLockClose_leaves_nothing _ _ _ h2 0 _ rfl⟩

/-- The first of two SMB2 handles, after it asked for the lock the second one holds. -/
def firstRefused : Locked Unit :=
  (pvfsLock ((bothLocked .smb2).locked (firstLocked .smb2).file) (exclusiveLock 10 1) false 1).locked

theorem firstRefused_reachable : (pvfsSystem Unit).Reachable ((bothLocked .smb2).put 0 firstRefused) := by
  obtain ⟨h, q⟩ := bothLocked_reachable .smb2
  exact h.step _
    (Step.lock 0 (firstLocked .smb2).file (exclusiveLock 10 1) false 1 rfl (q.unused _ (by decide)))

/-- The lock of the first handle is still there once that handle is closed. -/
theorem smb2_lock_outlives_close :
    ∃ (s : State Unit) (f : PvfsFile Unit), (pvfsSystem Unit).Reachable s ∧ s.files 0 = some f ∧
      ∃ lock ∈ storedLocks (pvfsLockClose (s.locked f)).record, lockOwner lock = f.owner :=
  ⟨(bothLocked .smb2).put 0 firstRefused, firstRefused.file, firstRefused_reachable, rfl, by decide⟩

end Samba.PvfsLock
