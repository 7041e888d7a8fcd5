/-
Byte ranges as integers (ntvfs/common/brlock_tdb.c): when the overlap test of the lock records
agrees with the intersection of the ranges, and what a granted lock allows its owner. The test adds
`start + size` modulo 2^64, so a range that reaches the end of the file space has a small end and
is missed by every range that starts at or above it.
-/
import Samba.Ntvfs.BrlockSafety

namespace Samba.Brlock

open Transition Samba.Cluster

/-! ## Ranges -/

/-- The end of a lock's range, not wrapped around. -/
def LockStruct.rangeEnd (lck : LockStruct) : Nat := lck.start.toNat + lck.size.toNat

/-- The ranges share an offset. -/
def Intersects (lck1 lck2 : LockStruct) : Prop :=
  lck1.start.toNat < lck2.rangeEnd ∧ lck2.start.toNat < lck1.rangeEnd

variable {lck lck1 lck2 : LockStruct} {brl : BrlContext} {brlh : BrlHandle} {smbpid : UInt16} {size start : UInt64}
  {lockType : BrlType} {locks : List LockStruct}

theorem intersects_iff (h1 : lck1.size ≠ 0) (h2 : lck2.size ≠ 0) : Intersects lck1 lck2 ↔ ∃ offset : Nat,
      (lck1.start.toNat ≤ offset ∧ offset < lck1.start.toNat + lck1.size.toNat) ∧
        lck2.start.toNat ≤ offset ∧ offset < lck2.start.toNat + lck2.size.toNat := by
  have hn1 : 0 < lck1.size.toNat := Nat.pos_of_ne_zero fun h => h1 (UInt64.toNat_inj.mp h)
  have hn2 : 0 < lck2.size.toNat := Nat.pos_of_ne_zero fun h => h2 (UInt64.toNat_inj.mp h)
  constructor
  · rintro ⟨h12, h21⟩
    refine ⟨max lck1.start.toNat lck2.start.toNat, ?_⟩
    unfold LockStruct.rangeEnd at *
    omega
  · rintro ⟨offset, ⟨hs1, he1⟩, hs2, he2⟩
    unfold Intersects LockStruct.rangeEnd
    omega

/-- `brl_tdb_overlap` in integers: the ends are taken modulo 2^64. -/
theorem brlTdbOverlap_iff (lck1 lck2 : LockStruct) :
    brlTdbOverlap lck1 lck2 = true ↔
      (lck1.size ≠ 0 ∧ lck1.start = lck2.start ∧ lck1.size = lck2.size) ∨
        (lck1.start.toNat < lck2.rangeEnd % 2 ^ 64 ∧ lck2.start.toNat < lck1.rangeEnd % 2 ^ 64) := by
  unfold brlTdbOverlap LockStruct.rangeEnd
  simp only [ge_iff_le, UInt64.le_iff_toNat_le, UInt64.toNat_add]
  split
  · rename_i he
    simp only [true_iff]
    exact Or.inl he
  · rename_i he
    split
    · simp only [Bool.false_eq_true, false_iff]
      rintro (h | h)
      · exact he h
      · omega
    · simp only [true_iff]
      exact Or.inr (by omega)

/-- The test never reports an overlap of disjoint ranges. -/
theorem Intersects.of_overlap (h : brlTdbOverlap lck1 lck2 = true) : Intersects lck1 lck2 := by
  unfold Intersects
  rcases (brlTdbOverlap_iff lck1 lck2).mp h with ⟨h0, hs, hn⟩ | ⟨h12, h21⟩
  · have hn1 : 0 < lck1.size.toNat := Nat.pos_of_ne_zero fun h => h0 (UInt64.toNat_inj.mp h)
    unfold LockStruct.rangeEnd
    rw [← hs, ← hn]
    omega
  · have := Nat.mod_le lck1.rangeEnd (2 ^ 64)
    have := Nat.mod_le lck2.rangeEnd (2 ^ 64)
    omega

/-- Below the end of the file space the test is exact. -/
theorem overlap_of_intersects (h1 : lck1.rangeEnd < 2 ^ 64) (h2 : lck2.rangeEnd < 2 ^ 64)
    (h : Intersects lck1 lck2) : brlTdbOverlap lck1 lck2 = true := by
  rw [brlTdbOverlap_iff, Nat.mod_eq_of_lt h1, Nat.mod_eq_of_lt h2]
  exact Or.inr h

/-! ## The end of the file space -/

/-- The test sees what `lck1` has in common with `lck2`, as far as the end of `lck1` goes: `lck1`
ends inside the file space, `lck2` ends before it starts, or `lck2` starts below its wrapped end. -/
def EndSeen (lck1 lck2 : LockStruct) : Prop :=
  lck1.rangeEnd < 2 ^ 64 ∨ lck2.rangeEnd ≤ lck1.start.toNat ∨ lck2.start.toNat < lck1.rangeEnd - 2 ^ 64

instance (lck1 lck2 : LockStruct) : Decidable (EndSeen lck1 lck2) := inferInstanceAs (Decidable (_ ∨ _))

/-- `brl_tdb_overlap` says whether the ranges intersect exactly when they are equal, or neither is
a range up to the end of the file space or past it that the other one reaches. -/
theorem brlTdbOverlap_exact_iff (lck1 lck2 : LockStruct) (h1 : lck1.size ≠ 0) (h2 : lck2.size ≠ 0) :
    (brlTdbOverlap lck1 lck2 = true ↔ ∃ offset : Nat,
      (lck1.start.toNat ≤ offset ∧ offset < lck1.start.toNat + lck1.size.toNat) ∧
        lck2.start.toNat ≤ offset ∧ offset < lck2.start.toNat + lck2.size.toNat) ↔
    (lck1.start = lck2.start ∧ lck1.size = lck2.size) ∨ (EndSeen lck1 lck2 ∧ EndSeen lck2 lck1) := by
  rw [← intersects_iff h1 h2]
  by_cases he : lck1.start = lck2.start ∧ lck1.size = lck2.size
  · have ho : brlTdbOverlap lck1 lck2 = true := (brlTdbOverlap_iff lck1 lck2).mpr (Or.inl ⟨h1, he⟩)
    exact iff_of_true (iff_of_true ho (.of_overlap ho)) (Or.inl he)
  · have hw : brlTdbOverlap lck1 lck2 = true ↔
        lck1.start.toNat < lck2.rangeEnd % 2 ^ 64 ∧ lck2.start.toNat < lck1.rangeEnd % 2 ^ 64 := by
      rw [brlTdbOverlap_iff]
      exact or_iff_right fun h => he h.2
    rw [hw, or_iff_right he]
    unfold Intersects EndSeen LockStruct.rangeEnd
    have := lck1.start.toNat_lt
    have := lck2.start.toNat_lt
    have := lck1.size.toNat_lt
    have := lck2.size.toNat_lt
    omega

/-- A write lock on a range, by some owner. -/
def lockOn (start size : UInt64) : LockStruct := ⟨⟨⟨0, 0⟩, 0, 0⟩, ⟨0, .nt1⟩, start, size, .writeLock, 0⟩

theorem brlTdbOverlap_exact_small :
    brlTdbOverlap (lockOn 0 10) (lockOn 5 10) = true ↔ ∃ offset : Nat,
      ((0 : UInt64).toNat ≤ offset ∧ offset < (0 : UInt64).toNat + (10 : UInt64).toNat) ∧
        (5 : UInt64).toNat ≤ offset ∧ offset < (5 : UInt64).toNat + (10 : UInt64).toNat :=
  (brlTdbOverlap_exact_iff (lockOn 0 10) (lockOn 5 10) (by decide) (by decide)).mpr (Or.inr (by decide))

/-- A lock from `2^64 - 10` past the end of the file space and one inside it. -/
theorem brlTdbOverlap_past_end :
    ¬∀ lck1 lck2 : LockStruct, lck1.size ≠ 0 → lck2.size ≠ 0 → (brlTdbOverlap lck1 lck2 = true ↔ ∃ offset : Nat,
      (lck1.start.toNat ≤ offset ∧ offset < lck1.start.toNat + lck1.size.toNat) ∧
        lck2.start.toNat ≤ offset ∧ offset < lck2.start.toNat + lck2.size.toNat) := by
  intro h
  have hb := (h (lockOn 0xFFFFFFFFFFFFFFF6 20) (lockOn 0xFFFFFFFFFFFFFFFB 1) (by decide) (by decide)).mpr
    ⟨0xFFFFFFFFFFFFFFFB, by decide, by decide⟩
  exact absurd hb (by decide)

/-! ## What a granted lock allows -/

/-- The lock belongs to the caller: server, smbpid, brl context and ntvfs handle are its own. -/
structure HeldBy (brl : BrlContext) (brlh : BrlHandle) (smbpid : UInt16) (lck : LockStruct) : Prop where
  server : lck.context.server = brl.server
  smbpid : lck.context.smbpid = smbpid
  ctx : lck.context.ctx = brl.addr
  ntvfs : lck.ntvfs.addr = brlh.ntvfs.addr

theorem HeldBy.of_sameOwner
    (h : HeldBy brl brlh smbpid lck1) (ho : SameOwner lck1 lck2) : HeldBy brl brlh smbpid lck2 :=
  ⟨ho.1.symm.trans h.server, ho.2.1.symm.trans h.smbpid, ho.2.2.1.symm.trans h.ctx, ho.2.2.2.symm.trans h.ntvfs⟩

theorem HeldBy.sameContext (h : HeldBy brl brlh smbpid lck) :
    brlTdbSameContext lck.context { server := brl.server, smbpid := smbpid, ctx := brl.addr } = true := by
  simp [brlTdbSameContext, clusterIdEqual_iff, h.server, h.smbpid, h.ctx]

/-- `[start, start + size)` is a part of the lock's range with at least one offset. -/
structure SubRange (start size : UInt64) (lck : LockStruct) : Prop where
  nonempty : size ≠ 0
  above : lck.start.toNat ≤ start.toNat
  below : start.toNat + size.toNat ≤ lck.rangeEnd

/-- Whatever the test finds in a part of a range it finds in the range. -/
theorem overlap_of_subRange {held req : LockStruct} (hr : SubRange req.start req.size held)
    (hl : lck.rangeEnd < 2 ^ 64) (hh : held.rangeEnd < 2 ^ 64) (h : brlTdbOverlap lck req = true) :
    brlTdbOverlap held lck = true := by
  refine overlap_of_intersects hh hl ?_
  have hi := Intersects.of_overlap h
  have ha := hr.above
  have hb := hr.below
  unfold Intersects LockStruct.rangeEnd at *
  omega

/-- A granted lock that IO in part of a held range conflicts with: it is a read lock of the IO's own
owner and the IO writes, or it is somebody else's. -/
theorem conflictOther_cases (hp : lockType.isPending = false)
    (h : brlTdbConflictOther lck (requestedLock brl brlh smbpid start size lockType 0) = true) :
    brlTdbOverlap lck (requestedLock brl brlh smbpid start size lockType 0) = true ∧
      (lck.lockType = .readLock ∧ lockType = .writeLock ∨
        lck.lockType = .writeLock ∧ ¬HeldBy brl brlh smbpid lck) := by
  unfold brlTdbConflictOther at h
  split at h
  · cases h
  · rename_i hpend
    split at h
    · cases h
    · rename_i hrr
      split at h
      · cases h
      · rename_i hown
        refine ⟨h, ?_⟩
        simp only [requestedLock, not_or, Bool.not_eq_true, not_and] at hpend hrr hown
        cases hl : lck.lockType with
        | readLock =>
          left
          refine ⟨rfl, ?_⟩
          cases lockType with
          | readLock => exact absurd rfl (hrr hl)
          | writeLock => rfl
          | pendingReadLock => cases hp
          | pendingWriteLock => cases hp
        | writeLock =>
          right
          refine ⟨rfl, fun hh => ?_⟩
          exact (hown hh.sameContext hh.ntvfs).2 hl
        | pendingReadLock => rw [hl] at hpend; cases hpend.1
        | pendingWriteLock => rw [hl] at hpend; cases hpend.1

/-- The ranges of the record's locks are not empty and end inside the file space. -/
def InFileSpace (locks : List LockStruct) : Prop :=
  ∀ lck ∈ locks, lck.size ≠ 0 ∧ lck.start.toNat + lck.size.toNat ≤ 2 ^ 64 - 1

instance (locks : List LockStruct) : Decidable (InFileSpace locks) := inferInstanceAs (Decidable (∀ _ ∈ _, _))

theorem InFileSpace.lt (h : InFileSpace locks) (hm : lck ∈ locks) : lck.rangeEnd < 2 ^ 64 := by
  have := (h lck hm).2
  unfold LockStruct.rangeEnd
  omega

/-- Somebody else's granted write lock shares nothing with a granted lock. -/
theorem others_write_disjoint (h : brlSystem.Reachable (some locks)) {i j : Nat}
    (hi : i < locks.length) (hj : j < locks.length) (hg : locks[i].lockType.isPending = false)
    (hw : locks[j].lockType = .writeLock) (ho : ¬SameOwner locks[i] locks[j]) :
    brlTdbOverlap locks[i] locks[j] = false := by
  have hij : j ≠ i := by
    rintro rfl
    exact ho ⟨rfl, rfl, rfl, rfl⟩
  have hx := reachable_locks_exclusive h j i hj hi hij hw
  rw [brlTdbOverlap_comm]
  cases hl : locks[i].lockType with
  | writeLock => exact hx.1 hl
  | readLock =>
    by_contra hc
    rw [Bool.not_eq_false] at hc
    obtain ⟨⟨hs, hp, hc, hn⟩, _⟩ := hx.2 hl hc
    exact ho ⟨hs.symm, hp.symm, hc.symm, hn.symm⟩
  | pendingReadLock => rw [hl] at hg; cases hg
  | pendingWriteLock => rw [hl] at hg; cases hg

theorem locktest_not_ok (h : brlTdbLocktest brl brlh smbpid start size lockType (some locks) ≠ .ok) :
    ∃ j, ∃ hj : j < locks.length,
      brlTdbConflictOther locks[j] (requestedLock brl brlh smbpid start size lockType 0) = true := by
  simp only [brlTdbLocktest] at h
  split at h
  · rename_i ha
    obtain ⟨lck, hm, hc⟩ := List.any_eq_true.mp ha
    obtain ⟨j, hj, rfl⟩ := List.getElem_of_mem hm
    exact ⟨j, hj, hc⟩
  · exact absurd rfl h

/-- A lock the IO of a lock's owner runs into inside the lock's range is a read lock of that owner,
and the IO writes. -/
theorem conflict_in_held (h : brlSystem.Reachable (some locks))
    (hs : InFileSpace locks) {i j : Nat} (hi : i < locks.length) (hj : j < locks.length)
    (hg : locks[i].lockType.isPending = false) (hh : HeldBy brl brlh smbpid locks[i])
    (hr : SubRange start size locks[i]) (hp : lockType.isPending = false)
    (hc : brlTdbConflictOther locks[j] (requestedLock brl brlh smbpid start size lockType 0) = true) :
    lockType = .writeLock ∧ locks[j].lockType = .readLock ∧
      brlTdbOverlap locks[j] (requestedLock brl brlh smbpid start size lockType 0) = true ∧
      brlTdbOverlap locks[i] locks[j] = true := by
  obtain ⟨ho, hk⟩ := conflictOther_cases hp hc
  have hij : brlTdbOverlap locks[i] locks[j] = true :=
    overlap_of_subRange hr (hs.lt (List.getElem_mem hj)) (hs.lt (List.getElem_mem hi)) ho
  rcases hk with ⟨hrd, hwr⟩ | ⟨hwr, hnot⟩
  · exact ⟨hwr, hrd, ho, hij⟩
  · have hd := others_write_disjoint h hi hj hg hwr fun hso => hnot (hh.of_sameOwner hso)
    rw [hd] at hij
    cases hij

/-- In a reachable record whose locks lie inside the file space, the owner of a granted lock may
read every part of its range, and the owner of a granted write lock may write it unless it also
holds a read lock there. -/
theorem held_lock_grants_io {locks : List LockStruct} (h : brlSystem.Reachable (some locks))
    (hs : InFileSpace locks) (brl : BrlContext) (brlh : BrlHandle) (smbpid : UInt16) (held : LockStruct)
    (hm : held ∈ locks) (hg : held.lockType.isPending = false) (hh : HeldBy brl brlh smbpid held)
    (start size : UInt64) (hr : SubRange start size held) :
    brlTdbLocktest brl brlh smbpid start size .readLock (some locks) = .ok ∧
    (held.lockType = .writeLock → brlTdbLocktest brl brlh smbpid start size .writeLock (some locks) ≠ .ok →
      ∃ own ∈ locks, own.lockType = .readLock ∧ HeldBy brl brlh smbpid own ∧
        brlTdbOverlap own (requestedLock brl brlh smbpid start size .writeLock 0) = true) := by
  obtain ⟨i, hi, rfl⟩ := List.getElem_of_mem hm
  constructor
  · by_contra hne
    obtain ⟨j, hj, hc⟩ := locktest_not_ok hne
    exact nomatch (conflict_in_held h hs hi hj hg hh hr rfl hc).1
  · intro hw hne
    obtain ⟨j, hj, hc⟩ := locktest_not_ok hne
    obtain ⟨_, hrd, ho, hij⟩ := conflict_in_held h hs hi hj hg hh hr rfl hc
    have hne' : i ≠ j := by
      rintro rfl
      rw [hw] at hrd
      cases hrd
    have hso := ((reachable_locks_exclusive h i j hi hj hne' hw).2 hrd hij).1
    exact ⟨locks[j], List.getElem_mem hj, hrd, hh.of_sameOwner hso, ho⟩

/-- The owner of `writeThenRead` reads inside its locks; its read lock stops it from writing. -/
theorem writeThenRead_grants_io :
    brlTdbLocktest ⟨1, ⟨7, 0⟩⟩ ⟨⟨2, .nt1⟩, lockOn 0 0⟩ 3 4 2 .readLock (some writeThenReadLocks) = .ok ∧
    ∃ own ∈ writeThenReadLocks, own.lockType = .readLock ∧ HeldBy ⟨1, ⟨7, 0⟩⟩ ⟨⟨2, .nt1⟩, lockOn 0 0⟩ 3 own ∧
      brlTdbOverlap own (requestedLock ⟨1, ⟨7, 0⟩⟩ ⟨⟨2, .nt1⟩, lockOn 0 0⟩ 3 4 2 .writeLock 0) = true := by
  have hr : brlSystem.Reachable (some writeThenReadLocks) := System.reachable_foldl (.init rfl) writeThenRead
  have hio := held_lock_grants_io hr (by decide) ⟨1, ⟨7, 0⟩⟩ ⟨⟨2, .nt1⟩, lockOn 0 0⟩ 3 writeThenReadLocks[0]
    (by decide) rfl ⟨rfl, rfl, rfl, rfl⟩ 4 2 ⟨by decide, by decide, by decide⟩
  exact ⟨hio.1, hio.2 rfl (by decide)⟩

end Samba.Brlock
