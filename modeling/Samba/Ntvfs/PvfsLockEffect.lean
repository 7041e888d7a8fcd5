/-
What a lock request, a continuation of a waiting request and a close do to the grants, the waiters,
the lock count and the pending list of their file: one case for each way through pvfs_lock.c.
-/
import Samba.Ntvfs.PvfsGrants

namespace Samba.PvfsLock

open Multiset Samba.Brlock Samba.Cluster SharedExclusive

variable {κ : Type}

/-! ## Loops -/

/-- The longest run of locks of a list that can all be had, one after the other. -/
def obtainable (f : PvfsFile κ) (rw : BrlType) : List LockStruct → List SmbLockEntry → List SmbLockEntry
  | _, [] => []
  | locks, e :: rest =>
    if refused f rw locks e then [] else e :: obtainable f rw (locks ++ [wanted f e rw]) rest

theorem obtainable_congr {f f' : PvfsFile κ} (hb : f'.brl = f.brl)
    (hn : f'.brlHandle.ntvfs = f.brlHandle.ntvfs) (rw : BrlType) (es : List SmbLockEntry)
    (locks : List LockStruct) : obtainable f' rw locks es = obtainable f rw locks es := by
  induction es generalizing locks with
  | nil => rfl
  | cons e rest ih =>
    have hw : wanted f' e rw = wanted f e rw := by
      unfold wanted requestedLock
      rw [hb, hn]
    simp only [obtainable, refused_congr hb hn, hw, ih]

/-- What `lockLoop` does: it gets every lock of `G` and stops at the next one, if there is one. -/
structure Loops (h : Locked κ) (rw : BrlType) (ptr : Nat) (es : List SmbLockEntry) (i : Nat)
    (G : List SmbLockEntry) (r : Locked κ × Option (Nat × NtStatus)) : Prop where
  effect : Effect h r.1 (h.grants + taken (grantMode rw) G)
    (if r.2.isSome ∧ rw.isPending then ptr ::ₘ h.waiters else h.waiters)
    (h.file.lockCount + G.length) h.file.pendingList
  stops : (r.2 = none ∧ G = es) ∨
    ∃ e rest status, es = G ++ e :: rest ∧ r.2 = some (i + G.length, status) ∧ status ≠ .ok

theorem taken_cons (mode : Mode) (e : SmbLockEntry) (G : List SmbLockEntry) :
    taken mode (e :: G) = (e, mode) ::ₘ taken mode G := rfl

theorem lockLoop_spec {rw : BrlType} {ptr : Nat} (hptr : rw.isPending = true ∨ ptr = 0)
    (es : List SmbLockEntry) (i : Nat) (h : Locked κ) :
    Loops h rw ptr es i (obtainable h.file (realType rw) h.locks es) (lockLoop rw ptr es i h) := by
  induction es generalizing i h with
  | nil =>
    refine ⟨?_, .inl ⟨rfl, rfl⟩⟩
    have hG : h.grants + taken (grantMode rw) [] = h.grants := add_zero _
    rw [show obtainable h.file (realType rw) h.locks [] = [] from rfl, hG]
    simpa [lockLoop] using Effect.refl h
  | cons e rest ih =>
    cases hr : refused h.file (realType rw) h.locks e with
    | true =>
      obtain ⟨hs, heff⟩ := brlLock_refused ptr hr
      have hloop : lockLoop rw ptr (e :: rest) i h =
          ((brlLock h e rw ptr).2, some (i, (brlLock h e rw ptr).1)) := by
        simp only [lockLoop, if_neg hs]
      have hG : h.grants + taken (grantMode rw) [] = h.grants := add_zero _
      simp only [obtainable, hr, if_true, hloop]
      refine ⟨?_, .inr ⟨e, rest, _, rfl, rfl, hs⟩⟩
      rw [hG]
      simpa using heff
    | false =>
      obtain ⟨hs, heff, hlocks⟩ := brlLock_granted ptr hr
      have hloop : lockLoop rw ptr (e :: rest) i h =
          lockLoop rw ptr rest (i + 1) (addCount (brlLock h e rw ptr).2 1) := by
        simp only [lockLoop, if_pos hs]
      have hstored : granted h.file e rw ptr = wanted h.file e (realType rw) := by
        unfold granted wanted
        rcases hptr with hp | rfl
        · rw [if_pos hp]
        · rw [ite_self]
      have hG : obtainable h.file (realType rw) h.locks (e :: rest) =
          e :: obtainable (addCount (brlLock h e rw ptr).2 1).file (realType rw)
            (addCount (brlLock h e rw ptr).2 1).locks rest := by
        have hkeep : Keeps h (addCount (brlLock h e rw ptr).2 1) := ⟨heff.brl, heff.ntvfs, heff.key, heff.others⟩
        rw [show (addCount (brlLock h e rw ptr).2 1).locks = h.locks ++ [wanted h.file e (realType rw)] from
          hlocks.trans (by rw [hstored]), obtainable_congr hkeep.brl hkeep.ntvfs]
        simp only [obtainable, hr, Bool.false_eq_true, if_false]
      have hih := ih (i + 1) (addCount (brlLock h e rw ptr).2 1)
      have hadd := Effect.after heff.toKeeps (addCount_effect (brlLock h e rw ptr).2 1)
      rw [heff.grants, heff.waiters, heff.count, heff.pendings] at hadd
      rw [hG, hloop]
      generalize obtainable (addCount (brlLock h e rw ptr).2 1).file (realType rw)
        (addCount (brlLock h e rw ptr).2 1).locks rest = G at hih ⊢
      generalize lockLoop rw ptr rest (i + 1) (addCount (brlLock h e rw ptr).2 1) = r at hih ⊢
      obtain ⟨heff', hstop⟩ := hih
      rw [hadd.grants, hadd.waiters, hadd.count, hadd.pendings] at heff'
      refine ⟨?_, ?_⟩
      · have := Effect.after hadd.toKeeps heff'
        rw [cons_add, ← add_cons, ← taken_cons] at this
        have hlen : h.file.lockCount + 1 + (G.length : Int) = h.file.lockCount + ((e :: G).length : Int) := by
          rw [List.length_cons]
          omega
        rw [hlen] at this
        exact this
      · rcases hstop with ⟨hnone, rfl⟩ | ⟨e', rest', status, rfl, hsome, hs'⟩
        · exact .inl ⟨hnone, rfl⟩
        · refine .inr ⟨e', rest', status, rfl, ?_, hs'⟩
          rw [hsome, List.length_cons]
          congr 2
          omega

/-- Undoing releases one grant for each lock undone, and counts one down for each. -/
theorem undoLoop_effect (xs : List SmbLockEntry) (h : Locked κ) :
    Effect h (undoLoop xs h) (releaseAll h.grants xs) h.waiters (h.file.lockCount - xs.length)
      h.file.pendingList := by
  induction xs generalizing h with
  | nil => simpa [undoLoop, releaseAll] using Effect.refl h
  | cons e rest ih =>
    obtain ⟨-, heff⟩ := brlUnlock_spec h e
    have hadd := Effect.after heff.toKeeps (addCount_effect (brlUnlock h e).2 (-1))
    rw [heff.grants, heff.waiters, heff.count, heff.pendings] at hadd
    have hih := ih (addCount (brlUnlock h e).2 (-1))
    rw [hadd.grants, hadd.waiters, hadd.count, hadd.pendings] at hih
    have := Effect.after hadd.toKeeps hih
    have hlen : h.file.lockCount + -1 - (rest.length : Int) = h.file.lockCount - ((e :: rest).length : Int) := by
      rw [List.length_cons]
      omega
    rw [hlen] at this
    exact this

/-- The unlocks of a request release what they find, up to the first that finds nothing. -/
theorem unlockLoop_spec (es : List SmbLockEntry) (h : Locked κ) :
    ∃ xs : List SmbLockEntry, Effect h (unlockLoop es h).2 (releaseAll h.grants xs) h.waiters
        (h.file.lockCount - xs.length) h.file.pendingList ∧
      ↑xs ≤ resources h.grants ∧ ((unlockLoop es h).1 = .ok → xs = es) := by
  induction es generalizing h with
  | nil => exact ⟨[], by simpa [unlockLoop, releaseAll] using Effect.refl h, zero_le _, fun _ => rfl⟩
  | cons e rest ih =>
    obtain ⟨hiff, heff⟩ := brlUnlock_spec h e
    by_cases hs : (brlUnlock h e).1 = .ok
    · have hmem := hiff.mp hs
      have hadd := Effect.after heff.toKeeps (addCount_effect (brlUnlock h e).2 (-1))
      rw [heff.grants, heff.waiters, heff.count, heff.pendings] at hadd
      obtain ⟨xs, heff', hle, hok⟩ := ih (addCount (brlUnlock h e).2 (-1))
      rw [hadd.grants, hadd.waiters, hadd.count, hadd.pendings] at heff'
      rw [hadd.grants, resources_release] at hle
      have hloop : unlockLoop (e :: rest) h = unlockLoop rest (addCount (brlUnlock h e).2 (-1)) := by
        simp only [unlockLoop, if_pos hs]
      have hlen : h.file.lockCount + -1 - (xs.length : Int) = h.file.lockCount - ((e :: xs).length : Int) := by
        rw [List.length_cons]
        omega
      rw [hlen] at heff'
      rw [hloop]
      refine ⟨e :: xs, Effect.after hadd.toKeeps heff', ?_, fun h => congrArg (e :: ·) (hok h)⟩
      rw [← cons_coe, ← cons_erase hmem]
      exact (cons_le_cons_iff e).mpr hle
    · rw [release_of_notMem (mt hiff.mpr hs)] at heff
      have hloop : unlockLoop (e :: rest) h = ((brlUnlock h e).1, (brlUnlock h e).2) := by
        simp only [unlockLoop, if_neg hs]
      rw [hloop]
      exact ⟨[], by simpa [releaseAll] using heff, zero_le _, fun h => absurd h hs⟩

/-! ## A waiting request -/

/-- The mode of the locks a request asks for. -/
def SmbLock.grantMode (lck : SmbLock) : Mode := PvfsLock.grantMode (lockMode lck)

theorem realType_lockMode (lck : SmbLock) : realType (lockMode lck) = lockMode lck := by
  unfold lockMode
  split <;> rfl

theorem realType_pendingMode (lck : SmbLock) : realType (pendingMode lck) = lockMode lck := by
  unfold lockMode pendingMode
  split <;> rfl

theorem pendingMode_isPending (lck : SmbLock) : (pendingMode lck).isPending = true := by
  unfold pendingMode
  split <;> rfl

theorem lockMode_isPending (lck : SmbLock) : (lockMode lck).isPending = false := by
  unfold lockMode
  split <;> rfl

theorem grantMode_pendingMode (lck : SmbLock) : grantMode (pendingMode lck) = lck.grantMode := by
  unfold SmbLock.grantMode lockMode pendingMode
  split <;> rfl

/-- A request that may wait takes its locks from index `i` on: it gets all of them, or waits for
the first it does not get. -/
inductive Proceeds (h : Locked κ) (p : PvfsPendingLock) (i : Nat) : Locked κ → Option LockStatus → Prop
  | finished {h' : Locked κ} {G : List SmbLockEntry} : p.lck.locks.drop i = G →
      Effect h h' (h.grants + taken p.lck.grantMode G) h.waiters (h.file.lockCount + G.length)
        h.file.pendingList →
      Proceeds h p i h' (some (.brl .ok))
  | waits {h' : Locked κ} {G rest : List SmbLockEntry} {e : SmbLockEntry} :
      p.lck.locks.drop i = G ++ e :: rest →
      Effect h h' (h.grants + taken p.lck.grantMode G) (p.addr ::ₘ h.waiters)
        (h.file.lockCount + G.length) ({ p with pendingLock := i + G.length } :: h.file.pendingList) →
      Proceeds h p i h' none

theorem finishPending_spec (h : Locked κ) (p : PvfsPendingLock) (i : Nat) :
    Proceeds h p i (finishPending h p i).1 (finishPending h p i).2 := by
  have hspec := @lockLoop_spec _ (pendingMode p.lck) p.addr (.inl (pendingMode_isPending _))
    (p.lck.locks.drop i) i h
  unfold finishPending
  cases hloop : lockLoop (pendingMode p.lck) p.addr (p.lck.locks.drop i) i h with
  | mk h' stop =>
    rw [hloop] at hspec
    obtain ⟨heff, hstop⟩ := hspec
    rw [grantMode_pendingMode] at heff
    cases stop with
    | none =>
      rcases hstop with ⟨-, hG⟩ | ⟨e, rest, status, -, hsome, -⟩
      · exact .finished hG.symm (by simpa using heff)
      · cases hsome
    | some stop =>
      rcases hstop with ⟨hnone, -⟩ | ⟨e, rest, status, hes, hsome, -⟩
      · cases hnone
      · cases hsome
        refine .waits hes ?_
        have hadd := Effect.after heff.toKeeps (addPending_effect h' { p with
          pendingLock := i + (obtainable h.file (realType (pendingMode p.lck)) h.locks
            (p.lck.locks.drop i)).length })
        rw [heff.grants, heff.waiters, heff.count, heff.pendings,
          if_pos ⟨rfl, pendingMode_isPending _⟩] at hadd
        exact hadd

/-- `pvfs_pending_lock_continue`: the request is put back, fails and is undone, or gets the lock
it waited for and goes on. -/
inductive Continues (h : Locked κ) (p : PvfsPendingLock) (reason : PvfsWaitNotice) :
    Locked κ → Option LockStatus → Prop
  | outside : p.lck.locks[p.pendingLock]? = none → Continues h p reason h none
  | again {h' : Locked κ} : reason = .event →
      Effect h h' h.grants h.waiters h.file.lockCount
        (p :: h.file.pendingList.eraseP (·.addr == p.addr)) →
      Continues h p reason h' none
  | failed {h' : Locked κ} {e : SmbLockEntry} {status : NtStatus} : p.lck.locks[p.pendingLock]? = some e →
      reason ≠ .event → (reason = .cancel ∨ refused h.file (lockMode p.lck) h.locks e = true) →
      status ≠ .ok →
      Effect h h' (releaseAll h.grants (undone h.file.protocol p.lck.locks p.pendingLock))
        (h.waiters.erase p.addr)
        (h.file.lockCount - (undone h.file.protocol p.lck.locks p.pendingLock).length)
        (h.file.pendingList.eraseP (·.addr == p.addr)) →
      Continues h p reason h' (some (.brl status))
  | granted {h₁ h' : Locked κ} {e : SmbLockEntry} {sent : Option LockStatus} :
      p.lck.locks[p.pendingLock]? = some e → reason ≠ .cancel →
      Effect h h₁ ((e, p.lck.grantMode) ::ₘ h.grants) (h.waiters.erase p.addr) (h.file.lockCount + 1)
        (h.file.pendingList.eraseP (·.addr == p.addr)) →
      Proceeds h₁ p (p.pendingLock + 1) h' sent → Continues h p reason h' sent

theorem undoLocks_effect (h : Locked κ) (locks : List SmbLockEntry) (i : Nat) :
    Effect h (undoLocks h locks i) (releaseAll h.grants (undone h.file.protocol locks i)) h.waiters
      (h.file.lockCount - (undone h.file.protocol locks i).length) h.file.pendingList :=
  undoLoop_effect _ h

/-- Removing the pending entry of a request and undoing its locks. -/
theorem giveUp_effect {h : Locked κ} {p : PvfsPendingLock} (hown : h.Own p.addr) :
    Effect h (undoLocks (brlRemovePending h p.addr) p.lck.locks p.pendingLock)
      (releaseAll h.grants (undone h.file.protocol p.lck.locks p.pendingLock)) (h.waiters.erase p.addr)
      (h.file.lockCount - (undone h.file.protocol p.lck.locks p.pendingLock).length)
      h.file.pendingList := by
  have hrem := brlRemovePending_effect hown
  have hundo := undoLocks_effect (brlRemovePending h p.addr) p.lck.locks p.pendingLock
  rw [hrem.grants, hrem.waiters, hrem.count, hrem.pendings, hrem.toKeeps.protocol] at hundo
  exact Effect.after hrem.toKeeps hundo

theorem pvfsPendingLockContinue_spec {h : Locked κ} {p : PvfsPendingLock} (hown : h.Own p.addr)
    (reason : PvfsWaitNotice) :
    Continues h p reason (pvfsPendingLockContinue h p reason).1
      (pvfsPendingLockContinue h p reason).2 := by
  cases he : p.lck.locks[p.pendingLock]? with
  | none =>
    have heq : pvfsPendingLockContinue h p reason = (h, none) := by
      simp only [pvfsPendingLockContinue, he]
    rw [heq]
    exact .outside he
  | some e =>
    have hdrop := dropPending_effect h p
    have hown' := hown.keeps hdrop.toKeeps
    by_cases hc : reason = .cancel
    · have heq : pvfsPendingLockContinue h p reason =
          (undoLocks (brlRemovePending (dropPending h p) p.addr) p.lck.locks p.pendingLock,
            some (.brl .fileLockConflict)) := by
        subst hc
        simp only [pvfsPendingLockContinue, he, if_true, reduceCtorEq, if_false]
      have hgive := Effect.after hdrop.toKeeps (giveUp_effect hown')
      rw [hdrop.grants, hdrop.waiters, hdrop.count, hdrop.pendings, hdrop.toKeeps.protocol] at hgive
      rw [heq]
      exact .failed he (by rw [hc]; decide) (.inl hc) (by decide) hgive
    · cases hr : refused h.file (lockMode p.lck) h.locks e with
      | true =>
        have hr' : refused (dropPending h p).file (realType (lockMode p.lck)) (dropPending h p).locks e = true := by
          rw [realType_lockMode]
          exact hr
        obtain ⟨hs, hlock⟩ := brlLock_refused p.addr hr'
        rw [if_neg (by rw [lockMode_isPending]; decide)] at hlock
        have hlock' := Effect.after hdrop.toKeeps hlock
        rw [hdrop.grants, hdrop.waiters, hdrop.count, hdrop.pendings] at hlock'
        have hown'' := hown.keeps hlock'.toKeeps
        by_cases hev : reason = .event
        · have heq : pvfsPendingLockContinue h p reason =
              (addPending (brlLock (dropPending h p) e (lockMode p.lck) p.addr).2 p, none) := by
            simp only [pvfsPendingLockContinue, he, if_neg hc, if_neg hs, if_pos hev]
          have hadd := Effect.after hlock'.toKeeps
            (addPending_effect (brlLock (dropPending h p) e (lockMode p.lck) p.addr).2 p)
          rw [hlock'.grants, hlock'.waiters, hlock'.count, hlock'.pendings] at hadd
          rw [heq]
          exact .again hev hadd
        · have heq : pvfsPendingLockContinue h p reason =
              (undoLocks (brlRemovePending (brlLock (dropPending h p) e (lockMode p.lck) p.addr).2 p.addr)
                p.lck.locks p.pendingLock,
                some (.brl (brlLock (dropPending h p) e (lockMode p.lck) p.addr).1)) := by
            simp only [pvfsPendingLockContinue, he, if_neg hc, if_neg hs, if_neg hev]
          have hgive := Effect.after hlock'.toKeeps (giveUp_effect hown'')
          rw [hlock'.grants, hlock'.waiters, hlock'.count, hlock'.pendings, hlock'.toKeeps.protocol] at hgive
          rw [heq]
          exact .failed he hev (.inr hr) hs hgive
      | false =>
        have hr' : refused (dropPending h p).file (realType (lockMode p.lck)) (dropPending h p).locks e = false := by
          rw [realType_lockMode]
          exact hr
        obtain ⟨hs, hlock, -⟩ := brlLock_granted p.addr hr'
        have hlock' := Effect.after hdrop.toKeeps hlock
        have hcount := Effect.after hlock'.toKeeps
          (addCount_effect (brlLock (dropPending h p) e (lockMode p.lck) p.addr).2 1)
        rw [hlock.grants, hlock.waiters, hlock.count, hlock.pendings, hdrop.grants, hdrop.waiters,
          hdrop.count, hdrop.pendings] at hcount
        have hrem := Effect.after hcount.toKeeps (brlRemovePending_effect (hown.keeps hcount.toKeeps))
        rw [hcount.grants, hcount.waiters, hcount.count, hcount.pendings] at hrem
        have heq : pvfsPendingLockContinue h p reason = finishPending
            (brlRemovePending (addCount (brlLock (dropPending h p) e (lockMode p.lck) p.addr).2 1) p.addr) p
            (p.pendingLock + 1) := by
          simp only [pvfsPendingLockContinue, he, if_neg hc, if_pos hs]
        rw [heq]
        exact .granted he hc hrem (finishPending_spec _ p _)

/-! ## A request -/

/-- A request that takes no locks: it is on a directory, a cancel, or of a kind not supported. -/
def declined (h : Locked κ) (lck : SmbLock) : Bool :=
  h.file.isDirectory || lck.has lockingAndxCancelLock || lck.has lockingAndxChangeLocktype ||
    lck.has lockingAndxOplockRelease

theorem not_cancel {h : Locked κ} {lck : SmbLock} (hd : declined h lck = false) :
    lck.has lockingAndxCancelLock = false := by
  simp only [declined, Bool.or_eq_false_iff] at hd
  exact hd.1.1.2

/-- `pvfs_lock` on an open file: rejected, a cancel, or unlocks and then locks. -/
inductive Requests (h : Locked κ) (lck : SmbLock) (mayAsync : Bool) (addr : Nat) : LockResult κ → Prop
  | rejected {status : LockStatus} : status ≠ .brl .ok → declined h lck = true →
      Requests h lck mayAsync addr ⟨status, h, none⟩
  | cancelled {p : PvfsPendingLock} : lck.has lockingAndxCancelLock = true →
      h.file.pendingList.find? (cancels lck) = some p →
      Requests h lck mayAsync addr ⟨.brl .ok, (pvfsPendingLockContinue h p .timeout).1,
        some (p, (pvfsPendingLockContinue h p .timeout).2)⟩
  | unlockFailed : (unlockLoop lck.ulocks h).1 ≠ .ok → declined h lck = false →
      Requests h lck mayAsync addr ⟨.brl (unlockLoop lck.ulocks h).1, (unlockLoop lck.ulocks h).2, none⟩
  | proceeds {h' : Locked κ} {sent : Option LockStatus} : lck.timeout ≠ 0 ∧ mayAsync = true →
      declined h lck = false →
      Proceeds (unlockLoop lck.ulocks h).2 ⟨addr, lck, 0⟩ 0 h' sent →
      Requests h lck mayAsync addr ⟨.brl .ok, h', none⟩
  | got {h₁ h' : Locked κ} : h₁ = (unlockLoop lck.ulocks h).2 → declined h lck = false →
      Effect h₁ h' (h₁.grants + taken lck.grantMode lck.locks) h₁.waiters
        (h₁.file.lockCount + lck.locks.length) h₁.file.pendingList →
      Requests h lck mayAsync addr ⟨.brl .ok, h', none⟩
  | refused {h₁ h' : Locked κ} {G rest : List SmbLockEntry} {e : SmbLockEntry} {status : NtStatus} :
      h₁ = (unlockLoop lck.ulocks h).2 → ¬(lck.timeout ≠ 0 ∧ mayAsync = true) →
      declined h lck = false →
      G = obtainable h₁.file (lockMode lck) h₁.locks lck.locks → lck.locks = G ++ e :: rest →
      status ≠ .ok →
      Effect h₁ h' (releaseAll (h₁.grants + taken lck.grantMode G) (undone h₁.file.protocol lck.locks G.length))
        h₁.waiters (h₁.file.lockCount + G.length - (undone h₁.file.protocol lck.locks G.length).length)
        h₁.file.pendingList →
      Requests h lck mayAsync addr ⟨.brl status, h', none⟩

theorem takeLocks_pending (h : Locked κ) (lck : SmbLock) (addr : Nat) :
    takeLocks h lck (some addr) = ⟨.brl .ok, (finishPending h ⟨addr, lck, 0⟩ 0).1, none⟩ := by
  simp only [takeLocks, finishPending, List.drop_zero]
  split <;> rfl

theorem pvfsLock_spec (h : Locked κ) (lck : SmbLock) (mayAsync : Bool) (addr : Nat) :
    Requests h lck mayAsync addr (pvfsLock h lck mayAsync addr) := by
  unfold pvfsLock
  by_cases hd : h.file.isDirectory = true
  · rw [if_pos hd]
    exact .rejected (by decide) (by simp [declined, hd])
  rw [if_neg hd]
  by_cases hcancel : lck.has lockingAndxCancelLock = true
  · rw [if_pos hcancel]
    unfold pvfsLockCancel
    cases hfind : h.file.pendingList.find? (cancels lck) with
    | none => exact .rejected (by decide) (by simp [declined, hcancel])
    | some p => exact .cancelled hcancel hfind
  rw [if_neg hcancel]
  by_cases hchange : lck.has lockingAndxChangeLocktype = true
  · rw [if_pos hchange]
    exact .rejected (by decide) (by simp [declined, hchange])
  rw [if_neg hchange]
  by_cases hoplock : lck.has lockingAndxOplockRelease = true
  · rw [if_pos hoplock]
    exact .rejected (by decide) (by simp [declined, hoplock])
  rw [if_neg hoplock]
  have hdeclined : declined h lck = false := by simp [declined, hd, hcancel, hchange, hoplock]
  by_cases hs : (unlockLoop lck.ulocks h).1 = .ok
  · simp only [if_pos hs]
    by_cases hpending : lck.timeout ≠ 0 ∧ mayAsync = true
    · rw [if_pos hpending, takeLocks_pending]
      exact .proceeds hpending hdeclined (finishPending_spec _ _ 0)
    · rw [if_neg hpending]
      have hspec := @lockLoop_spec _ (lockMode lck) 0 (.inr rfl) lck.locks 0
        (unlockLoop lck.ulocks h).2
      unfold takeLocks
      cases hloop : lockLoop (lockMode lck) 0 lck.locks 0 (unlockLoop lck.ulocks h).2 with
      | mk h' stop =>
        rw [hloop, realType_lockMode] at hspec
        obtain ⟨heff, hstop⟩ := hspec
        have hw : ¬(stop.isSome = true ∧ (lockMode lck).isPending = true) := by
          rw [lockMode_isPending]
          exact fun hp => nomatch hp.2
        simp only [if_neg hw] at heff
        cases stop with
        | none =>
          rcases hstop with ⟨-, hG⟩ | ⟨e, rest, status, -, hsome, -⟩
          · rw [hG] at heff
            exact .got rfl hdeclined heff
          · cases hsome
        | some stop =>
          rcases hstop with ⟨hnone, -⟩ | ⟨e, rest, status, hes, hsome, hst⟩
          · cases hnone
          · cases hsome
            rw [Nat.zero_add]
            refine .refused rfl hpending hdeclined rfl hes hst ?_
            have hundo := Effect.after heff.toKeeps (undoLocks_effect h' lck.locks
              (obtainable (unlockLoop lck.ulocks h).2.file (lockMode lck) (unlockLoop lck.ulocks h).2.locks
                lck.locks).length)
            rw [heff.grants, heff.waiters, heff.count, heff.pendings, heff.toKeeps.protocol] at hundo
            exact hundo
  · simp only [if_neg hs]
    exact .unlockFailed hs hdeclined

end Samba.PvfsLock
