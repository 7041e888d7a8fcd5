/-
Which waiters `brl_tdb_unlock` and `brl_tdb_close` wake. `brl_tdb_notify_unlock` sends a retry to
every pending lock that overlaps the removed lock, or else to an overlapping pending write before
it. Unlock hands it the removed lock, so an unlock loses no wake-up. Close hands it the remaining
locks, and only when the first remaining lock is pending: it wakes every waiter on the closed
handle's locks exactly when that first lock is pending and each such waiter overlaps some
remaining lock.
-/
import Samba.Ntvfs.BrlockSafety

namespace Samba.Brlock

open List

/-! ## The calls that release locks -/

/-- The calls that remove granted locks. -/
inductive ReleaseCall
  | unlock (brl : BrlContext) (brlh : BrlHandle) (smbpid : UInt16) (start size : UInt64)
  | close (brl : BrlContext) (brlh : BrlHandle)

/-- What a release returns, leaves and sends. -/
def ReleaseCall.result (rec : Option (List LockStruct)) : ReleaseCall → BrlResult
  | .unlock brl brlh smbpid start size => brlTdbUnlock brl brlh smbpid start size rec
  | .close brl brlh => brlTdbClose brl brlh rec

/-- The entries the call takes out of the array. -/
def ReleaseCall.removed (locks : List LockStruct) : ReleaseCall → List LockStruct
  | .unlock brl brlh smbpid start size =>
    ((unlockPosition brl brlh smbpid start size locks).bind (locks[·]?)).toList
  | .close brl brlh => locks.filter (ownedBy brl brlh)

/-- The pending lock `lck` at position `p` is sent a retry, or overlaps a pending write that is. -/
def Woken (locks : List LockStruct) (sent : List BrlRetry) (p : Nat) (lck : LockStruct) : Prop :=
  (∃ m ∈ sent, m.pos = p) ∨
    ∃ m ∈ sent, ∃ q, locks[m.pos]? = some q ∧ q.lockType = .pendingWriteLock ∧ brlTdbOverlap lck q = true

/-- `lck` waits for one of the granted locks in `removed`. -/
def WaitsFor (removed : List LockStruct) (lck : LockStruct) : Prop :=
  lck.lockType.isPending = true ∧ ∃ g ∈ removed, g.lockType.isPending = false ∧ brlTdbOverlap lck g = true

/-- Every waiter on a removed granted lock is woken. -/
def NoLostWakeup (removed locks : List LockStruct) (sent : List BrlRetry) : Prop :=
  ∀ p lck, locks[p]? = some lck → WaitsFor removed lck → Woken locks sent p lck

/-- When a release wakes all its waiters: always for an unlock; for a close when, if any remaining
lock waits for a removed one, the first remaining lock is pending and the waiter overlaps some
remaining lock. -/
def ReleaseCall.WakesAll (locks : List LockStruct) : ReleaseCall → Prop
  | .unlock .. => True
  | .close brl brlh =>
    let rest := locks.filter (!ownedBy brl brlh ·)
    ∀ lck ∈ rest, WaitsFor (locks.filter (ownedBy brl brlh)) lck →
      rest.head?.any (·.lockType.isPending) = true ∧ ∃ q ∈ rest, brlTdbOverlap lck q = true

/-! ## One notification pass -/

variable {lck removed : LockStruct} {locks : List LockStruct} {p : Nat}

/-- A retry is sent only to a pending entry that overlaps the removed lock. -/
theorem mem_notifyUnlockFrom {m : BrlRetry} : ∀ (rest : List LockStruct) (i : Nat) (last : Option LockStruct),
      m ∈ brlTdbNotifyUnlockFrom removed i last rest →
      ∃ k lck, m.pos = i + k ∧ rest[k]? = some lck ∧ brlTdbOverlap lck removed = true
  | [], _, _, h => by cases h
  | lck :: rest, i, last, h => by
    have hrec : ∀ last', m ∈ brlTdbNotifyUnlockFrom removed (i + 1) last' rest →
        ∃ k lck', m.pos = i + k ∧ (lck :: rest)[k]? = some lck' ∧ brlTdbOverlap lck' removed = true := by
      intro last' hm
      obtain ⟨k, lck', hk, hl, ho⟩ := mem_notifyUnlockFrom rest (i + 1) last' hm
      exact ⟨k + 1, lck', by omega, by simpa using hl, ho⟩
    simp only [brlTdbNotifyUnlockFrom] at h
    split at h
    · rename_i hp
      split at h
      · exact hrec _ h
      · rcases mem_cons.1 h with rfl | h
        · exact ⟨0, lck, rfl, rfl, hp.2⟩
        · exact hrec _ h
    · exact hrec _ h

/-- Every pending entry that overlaps the removed lock is sent a retry, or overlaps the pending
write notified last before the pass, or one notified by the pass. -/
theorem notifyUnlockFrom_covers (hp : lck.lockType.isPending = true) (ho : brlTdbOverlap lck removed = true) :
    ∀ (rest : List LockStruct) (i : Nat) (last : Option LockStruct) (k : Nat), rest[k]? = some lck →
      (∃ m ∈ brlTdbNotifyUnlockFrom removed i last rest, m.pos = i + k) ∨
      last.any (brlTdbOverlap lck ·) = true ∨
      ∃ m ∈ brlTdbNotifyUnlockFrom removed i last rest, ∃ k' q, m.pos = i + k' ∧ rest[k']? = some q ∧
        q.lockType = .pendingWriteLock ∧ brlTdbOverlap lck q = true
  | [], _, _, _, h => by simp at h
  | x :: rest, i, last, 0, h => by
    simp only [List.getElem?_cons_zero, Option.some.injEq] at h
    subst h
    simp only [brlTdbNotifyUnlockFrom]
    rw [if_pos ⟨hp, ho⟩]
    split
    · rename_i hl
      exact .inr (.inl hl)
    · exact .inl ⟨_, mem_cons_self .., rfl⟩
  | x :: rest, i, last, k + 1, h => by
    rw [List.getElem?_cons_succ] at h
    -- what the rest of the pass gives, seen from this position
    have lift : ∀ last' (sent : List BrlRetry),
        (∀ m ∈ brlTdbNotifyUnlockFrom removed (i + 1) last' rest, m ∈ sent) →
        (last'.any (brlTdbOverlap lck ·) = true → last.any (brlTdbOverlap lck ·) = true ∨
          ∃ m ∈ sent, ∃ k' q, m.pos = i + k' ∧ (x :: rest)[k']? = some q ∧
            q.lockType = .pendingWriteLock ∧ brlTdbOverlap lck q = true) →
        (∃ m ∈ sent, m.pos = i + (k + 1)) ∨ last.any (brlTdbOverlap lck ·) = true ∨
          ∃ m ∈ sent, ∃ k' q, m.pos = i + k' ∧ (x :: rest)[k']? = some q ∧
            q.lockType = .pendingWriteLock ∧ brlTdbOverlap lck q = true := by
      intro last' sent hsub hlast
      rcases notifyUnlockFrom_covers hp ho rest (i + 1) last' k h with
        ⟨m, hm, hpos⟩ | hl | ⟨m, hm, k', q, hpos, hq, hw, hov⟩
      · exact .inl ⟨m, hsub m hm, by omega⟩
      · exact .inr (hlast hl)
      · exact .inr (.inr ⟨m, hsub m hm, k' + 1, q, by omega, by simpa using hq, hw, hov⟩)
    simp only [brlTdbNotifyUnlockFrom]
    split
    · split
      · exact lift last _ (fun m hm => hm) .inl
      · refine lift _ _ (fun m hm => mem_cons_of_mem _ hm) (fun hl => ?_)
        split at hl
        · rename_i hw
          refine .inr ⟨_, mem_cons_self .., 0, x, rfl, rfl, hw, ?_⟩
          simpa using hl
        · exact .inl hl
    · exact lift last _ (fun m hm => hm) .inl

/-- One pass wakes every pending lock that overlaps the removed lock. -/
theorem notifyUnlock_woken
    (hl : locks[p]? = some lck) (hp : lck.lockType.isPending = true) (ho : brlTdbOverlap lck removed = true) :
    Woken locks (brlTdbNotifyUnlock locks removed) p lck := by
  rcases notifyUnlockFrom_covers hp ho locks 0 none p hl with
    ⟨m, hm, hpos⟩ | h | ⟨m, hm, k, q, hpos, hq, hw, hov⟩
  · exact .inl ⟨m, hm, by omega⟩
  · cases h
  · rw [Nat.zero_add] at hpos
    exact .inr ⟨m, hm, q, by rw [hpos]; exact hq, hw, hov⟩

theorem Woken.mono {sent sent' : List BrlRetry}
    (hs : ∀ m ∈ sent, m ∈ sent') (h : Woken locks sent p lck) : Woken locks sent' p lck := by
  rcases h with ⟨m, hm, hpos⟩ | ⟨m, hm, hq⟩
  · exact .inl ⟨m, hs m hm, hpos⟩
  · exact .inr ⟨m, hs m hm, hq⟩

/-! ## Notifying all -/

/-- `brl_tdb_notify_all` sends nothing unless the first lock is pending. -/
theorem notifyAll_of_head (h : ¬locks.head?.any (·.lockType.isPending) = true) : brlTdbNotifyAll locks = [] := by
  unfold brlTdbNotifyAll
  simp only [if_neg h, flatMap_eq_nil_iff, implies_true]

/-- With a pending lock in front it wakes a pending lock exactly when that overlaps some lock of
the array. -/
theorem notifyAll_woken_iff (h : locks.head?.any (·.lockType.isPending) = true) (hl : locks[p]? = some lck) (hp : lck.lockType.isPending = true) :
    Woken locks (brlTdbNotifyAll locks) p lck ↔ ∃ q ∈ locks, brlTdbOverlap lck q = true := by
  have hmem : ∀ m, m ∈ brlTdbNotifyAll locks ↔ ∃ g ∈ locks, m ∈ brlTdbNotifyUnlock locks g := by
    intro m
    simp only [brlTdbNotifyAll, if_pos h, mem_flatMap]
  constructor
  · rintro (⟨m, hm, hpos⟩ | ⟨m, -, q, hq, -, hov⟩)
    · obtain ⟨g, hg, hm⟩ := (hmem m).1 hm
      obtain ⟨k, lck', hk, hl', ho⟩ := mem_notifyUnlockFrom locks 0 none hm
      have : k = p := by omega
      subst this
      rw [hl, Option.some.injEq] at hl'
      subst hl'
      exact ⟨g, hg, ho⟩
    · exact ⟨q, mem_of_getElem? hq, hov⟩
  · rintro ⟨q, hq, hov⟩
    exact (notifyUnlock_woken hl hp hov).mono fun m hm => (hmem m).2 ⟨q, hq, hm⟩

/-! ## The releases -/

theorem unlock_noLostWakeup {brl : BrlContext} {brlh : BrlHandle} {smbpid : UInt16} {start size : UInt64}
    {rest : List LockStruct} (hrec : (brlTdbUnlock brl brlh smbpid start size (some locks)).record = some rest) :
    NoLostWakeup ((ReleaseCall.unlock brl brlh smbpid start size).removed locks) rest
      (brlTdbUnlock brl brlh smbpid start size (some locks)).sent := by
  unfold brlTdbUnlock at hrec ⊢
  simp only [ReleaseCall.removed] at hrec ⊢
  intro p lck hl hw
  cases hu : unlockPosition brl brlh smbpid start size locks with
  | none =>
    obtain ⟨-, g, hg, -⟩ := hw
    simp [hu] at hg
  | some i =>
    simp only [hu] at hrec hw ⊢
    split at hrec
    · cases hrec
    · rename_i hlen
      rw [if_neg hlen]
      cases hrec
      obtain ⟨hp, g, hg, -, ho⟩ := hw
      simp only [Option.bind_some, Option.mem_toList] at hg
      rw [hg]
      exact notifyUnlock_woken hl hp ho

theorem close_noLostWakeup_iff {brl : BrlContext} {brlh : BrlHandle} {rest : List LockStruct}
    (hrec : (brlTdbClose brl brlh (some locks)).record = some rest) :
    NoLostWakeup (locks.filter (ownedBy brl brlh)) rest (brlTdbClose brl brlh (some locks)).sent ↔
      (ReleaseCall.close brl brlh).WakesAll locks := by
  simp only [ReleaseCall.WakesAll]
  unfold brlTdbClose at hrec ⊢
  simp only [brlTdbCloseLoop_fst, brlTdbCloseLoop_snd] at hrec ⊢
  by_cases hne : (locks.filter (!ownedBy brl brlh ·)).length = 0
  · rw [if_pos hne] at hrec; cases hrec
  by_cases hd : (locks.filter (ownedBy brl brlh)).length = 0
  · -- nothing was removed, so nobody waits for a removed lock
    have hnil := length_eq_zero_iff.1 hd
    have hno : ∀ lck, ¬WaitsFor (locks.filter (ownedBy brl brlh)) lck := by
      rintro lck ⟨-, g, hg, -⟩
      rw [hnil] at hg; cases hg
    exact ⟨fun _ lck _ hw => absurd hw (hno lck), fun _ p lck _ hw => absurd hw (hno lck)⟩
  · rw [if_neg hne, if_pos hd] at hrec ⊢
    cases hrec
    by_cases hh : (locks.filter (!ownedBy brl brlh ·)).head?.any (·.lockType.isPending) = true
    · constructor
      · intro h lck hmem hw
        obtain ⟨p, hl⟩ := mem_iff_getElem?.1 hmem
        exact ⟨hh, (notifyAll_woken_iff hh hl hw.1).1 (h p lck hl hw)⟩
      · intro h p lck hl hw
        exact (notifyAll_woken_iff hh hl hw.1).2 (h lck (mem_of_getElem? hl) hw).2
    · simp only [notifyAll_of_head hh]
      constructor
      · intro h lck hmem hw
        obtain ⟨p, hl⟩ := mem_iff_getElem?.1 hmem
        rcases h p lck hl hw with ⟨m, hm, -⟩ | ⟨m, hm, -⟩ <;> cases hm
      · intro h p lck hl hw
        exact absurd (h lck (mem_of_getElem? hl) hw).1 hh

/-- A release that leaves a non-empty array wakes every waiter on the granted locks it removed,
directly or through an overlapping pending write, exactly when `WakesAll` holds of the stored
array: for an unlock always, for a close exactly when the first lock that stays is pending and
every waiter overlaps some lock that stays. -/
theorem release_noLostWakeup_iff (c : ReleaseCall) (locks rest : List LockStruct)
    (hrec : (c.result (some locks)).record = some rest) :
    NoLostWakeup (c.removed locks) rest (c.result (some locks)).sent ↔ c.WakesAll locks := by
  cases c with
  | unlock brl brlh smbpid start size => exact iff_of_true (unlock_noLostWakeup hrec) trivial
  | close brl brlh => exact close_noLostWakeup_iff hrec

/-- Handle `1` holds a write lock on `[0, 10)`; handle `2` holds a read lock on `[100, 110)` and
waits for a write lock on `[0, 10)`. -/
def waiterBehindGranted : List LockStruct :=
  [⟨⟨⟨7, 0⟩, 3, 1⟩, ⟨1, .nt1⟩, 0, 10, .writeLock, 0⟩, ⟨⟨⟨7, 0⟩, 4, 1⟩, ⟨2, .nt1⟩, 100, 10, .readLock, 0⟩,
    ⟨⟨⟨7, 0⟩, 4, 1⟩, ⟨2, .nt1⟩, 0, 10, .pendingWriteLock, 9⟩]

/-- Handle `1` is closed. -/
def closeFirstHandle : ReleaseCall :=
  .close ⟨1, ⟨7, 0⟩⟩ ⟨⟨1, .nt1⟩, ⟨⟨⟨0, 0⟩, 0, 0⟩, ⟨0, .none⟩, 0, 0, .readLock, 0⟩⟩

/-- The same locks, the one that waits in front of the granted read lock. -/
def waiterInFront : List LockStruct :=
  [⟨⟨⟨7, 0⟩, 3, 1⟩, ⟨1, .nt1⟩, 0, 10, .writeLock, 0⟩, ⟨⟨⟨7, 0⟩, 4, 1⟩, ⟨2, .nt1⟩, 0, 10, .pendingWriteLock, 9⟩,
    ⟨⟨⟨7, 0⟩, 4, 1⟩, ⟨2, .nt1⟩, 100, 10, .readLock, 0⟩]

theorem waiterInFront_woken :
    NoLostWakeup (closeFirstHandle.removed waiterInFront) (waiterInFront.drop 1)
      (closeFirstHandle.result (some waiterInFront)).sent := by
  refine (release_noLostWakeup_iff closeFirstHandle waiterInFront (waiterInFront.drop 1) (by decide)).mpr ?_
  have hself : ∀ lck ∈ waiterInFront, brlTdbOverlap lck lck = true := by decide
  exact fun lck hlck _ => ⟨by decide, lck, hlck, hself lck (mem_of_mem_filter hlck)⟩

/-- Closing the handle frees the range the waiter waits for, and no retry is sent: the read lock
now in front keeps `brl_tdb_notify_all` silent. -/
theorem waiterBehindGranted_lost :
    (closeFirstHandle.result (some waiterBehindGranted)).status = .ok ∧
    (closeFirstHandle.result (some waiterBehindGranted)).record = some (waiterBehindGranted.drop 1) ∧
    ¬NoLostWakeup (closeFirstHandle.removed waiterBehindGranted) (waiterBehindGranted.drop 1)
      (closeFirstHandle.result (some waiterBehindGranted)).sent := by
  refine ⟨by decide, by decide, fun h => ?_⟩
  have hsent : (closeFirstHandle.result (some waiterBehindGranted)).sent = [] := by decide
  rw [hsent] at h
  rcases h 1 _ rfl ⟨rfl, _, mem_singleton.2 rfl, by decide, by decide⟩ with ⟨m, hm, -⟩ | ⟨m, hm, -⟩ <;> cases hm

end Samba.Brlock
