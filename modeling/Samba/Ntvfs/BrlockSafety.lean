/-
Byte range lock safety over every run of lock, unlock, remove-pending and close calls: no entry of
a reachable lock array conflicts, in the sense of `brl_tdb_conflict`, with an entry that stands
before it. Two granted write locks therefore never overlap, and a granted write lock overlaps a
granted read lock only when the same owner took the read lock later.
-/
import Samba.Ntvfs.BrlockTdb
import Mathlib.Data.List.Pairwise
import Mathlib.Tactic

namespace Samba.Brlock

open Transition Samba.Cluster

/-! ## Overlap and conflict -/

theorem brlTdbOverlap_comm (a b : LockStruct) : brlTdbOverlap a b = brlTdbOverlap b a := by
  unfold brlTdbOverlap
  by_cases h : a.size ≠ 0 ∧ a.start = b.start ∧ a.size = b.size
  · have h' : b.size ≠ 0 ∧ b.start = a.start ∧ b.size = a.size :=
      ⟨h.2.2 ▸ h.1, h.2.1.symm, h.2.2.symm⟩
    rw [if_pos h, if_pos h']
  · have h' : ¬(b.size ≠ 0 ∧ b.start = a.start ∧ b.size = a.size) :=
      fun hb => h ⟨hb.2.2 ▸ hb.1, hb.2.1.symm, hb.2.2.symm⟩
    rw [if_neg h, if_neg h']
    simp only [or_comm]

/-- The owner of a lock, as far as the conflict rule looks at it. -/
def SameOwner (a b : LockStruct) : Prop :=
  a.context.server = b.context.server ∧ a.context.smbpid = b.context.smbpid ∧
    a.context.ctx = b.context.ctx ∧ a.ntvfs.addr = b.ntvfs.addr

variable {a b : LockStruct} {rec : Option (List LockStruct)}

theorem sameContext_sameOwner (h : brlTdbSameContext a.context b.context = true)
    (hn : a.ntvfs.addr = b.ntvfs.addr) : SameOwner a b := by
  simp only [brlTdbSameContext, Bool.and_eq_true, clusterIdEqual_iff, beq_iff_eq] at h
  exact ⟨h.1.1, h.1.2, h.2, hn⟩

/-- Against a granted write lock that is to be added, every granted lock is tested for overlap. -/
theorem not_conflict_write (ha : a.lockType.isPending = false)
    (hb : b.lockType = .writeLock) (h : brlTdbConflict a b = false) : brlTdbOverlap a b = false := by
  have hp : b.lockType.isPending = false := by rw [hb]; rfl
  unfold brlTdbConflict at h
  rw [if_neg (by simp [ha, hp]), if_neg (by simp [hb]), if_neg (by simp [hb])] at h
  exact h

/-- A read lock is added over a granted write lock only by the write lock's owner. -/
theorem not_conflict_read (ha : a.lockType = .writeLock) (hb : b.lockType = .readLock)
    (h : brlTdbConflict a b = false) (ho : brlTdbOverlap a b = true) : SameOwner a b := by
  unfold brlTdbConflict at h
  simp only [ha, hb, BrlType.isPending, ho] at h
  simp only [Bool.false_eq_true, or_self, if_false, reduceCtorEq, false_and, true_and] at h
  by_contra hs
  rw [if_neg (fun hc => hs (sameContext_sameOwner hc.1 hc.2))] at h
  cases h

/-! ## The invariant -/

/-- No entry conflicts with an entry before it. -/
def Compatible (rec : Option (List LockStruct)) : Prop :=
  (storedLocks rec).Pairwise fun a b => brlTdbConflict a b = false

theorem Compatible.sublist {rec' : Option (List LockStruct)} (h : Compatible rec)
    (hs : (storedLocks rec').Sublist (storedLocks rec)) : Compatible rec' :=
  List.Pairwise.sublist hs h

theorem brlTdbLockAppend_compatible (h : Compatible rec) (brl : BrlContext)
    (brlh : BrlHandle) (smbpid : UInt16) (start size : UInt64) (lockType : BrlType) (notifyPtr : Nat) :
    Compatible (brlTdbLockAppend brl brlh smbpid start size lockType notifyPtr rec).2.2 := by
  unfold brlTdbLockAppend
  simp only
  split
  · exact h
  · rename_i hc
    simp only [List.any_eq_true, not_exists, not_and, Bool.not_eq_true] at hc
    show (storedLocks rec ++ [_]).Pairwise _
    rw [List.pairwise_append]
    refine ⟨h, List.pairwise_singleton _ _, fun a ha b hb => ?_⟩
    rw [List.mem_singleton] at hb
    subst hb
    exact hc a ha

theorem brlTdbLock_compatible (h : Compatible rec) (brl : BrlContext)
    (brlh : BrlHandle) (smbpid : UInt16) (start size : UInt64) (lockType : BrlType) (notifyPtr : Nat) :
    Compatible (brlTdbLock brl brlh smbpid start size lockType notifyPtr rec).2.2 := by
  unfold brlTdbLock
  by_cases hp : lockType.isPending = true
  · simp only [if_pos hp]
    generalize (if lockType = .pendingReadLock then BrlType.readLock else .writeLock) = rw
    split
    · exact brlTdbLockAppend_compatible h ..
    · exact brlTdbLockAppend_compatible (brlTdbLockAppend_compatible h ..) ..
  · rw [if_neg hp]
    exact brlTdbLockAppend_compatible h ..

/-- What `brl_tdb_unlock` stores is the array less one entry. -/
theorem brlTdbUnlock_sublist (brl : BrlContext) (brlh : BrlHandle) (smbpid : UInt16) (start size : UInt64)
    (rec : Option (List LockStruct)) :
    (storedLocks (brlTdbUnlock brl brlh smbpid start size rec).record).Sublist (storedLocks rec) := by
  unfold brlTdbUnlock
  cases rec with
  | none => exact List.Sublist.refl _
  | some locks =>
    simp only
    split
    · exact List.Sublist.refl _
    · split
      · exact List.nil_sublist _
      · exact List.eraseIdx_sublist _ _

theorem brlTdbRemovePending_sublist (brl : BrlContext) (notifyPtr : Nat) (rec : Option (List LockStruct)) :
    (storedLocks (brlTdbRemovePending brl notifyPtr rec).2).Sublist (storedLocks rec) := by
  unfold brlTdbRemovePending
  cases rec with
  | none => exact List.Sublist.refl _
  | some locks =>
    simp only
    split
    · exact List.Sublist.refl _
    · split
      · exact List.nil_sublist _
      · exact List.eraseIdx_sublist _ _

theorem brlTdbCloseLoop_fst (brl : BrlContext) (brlh : BrlHandle) : ∀ locks : List LockStruct,
    (brlTdbCloseLoop brl brlh locks).1 = locks.filter (!ownedBy brl brlh ·)
  | [] => rfl
  | lock :: rest => by
    simp only [brlTdbCloseLoop]
    split
    · rename_i ho
      simp [ho, brlTdbCloseLoop_fst brl brlh rest]
    · rename_i ho
      simp [ho, brlTdbCloseLoop_fst brl brlh rest]

theorem brlTdbCloseLoop_snd (brl : BrlContext) (brlh : BrlHandle) : ∀ locks : List LockStruct,
    (brlTdbCloseLoop brl brlh locks).2 = (locks.filter (ownedBy brl brlh)).length
  | [] => rfl
  | lock :: rest => by
    simp only [brlTdbCloseLoop]
    split
    · rename_i ho
      simp [ho, brlTdbCloseLoop_snd brl brlh rest]
    · rename_i ho
      simp [ho, brlTdbCloseLoop_snd brl brlh rest]

theorem brlTdbClose_sublist (brl : BrlContext) (brlh : BrlHandle) (rec : Option (List LockStruct)) :
    (storedLocks (brlTdbClose brl brlh rec).record).Sublist (storedLocks rec) := by
  unfold brlTdbClose
  cases rec with
  | none => exact List.Sublist.refl _
  | some locks =>
    simp only
    split
    · exact List.nil_sublist _
    · split
      · simp only [storedLocks, Option.getD_some, brlTdbCloseLoop_fst]
        exact List.filter_sublist
      · exact List.Sublist.refl _

/-- Every call keeps the array free of conflicts. -/
theorem Call.apply_compatible (h : Compatible rec) (c : Call) : Compatible (c.apply rec) := by
  cases c with
  | lock brl brlh smbpid start size lockType notifyPtr => exact brlTdbLock_compatible h ..
  | unlock brl brlh smbpid start size => exact h.sublist (brlTdbUnlock_sublist ..)
  | removePending brl notifyPtr => exact h.sublist (brlTdbRemovePending_sublist ..)
  | close brl brlh => exact h.sublist (brlTdbClose_sublist ..)

theorem reachable_compatible (h : brlSystem.Reachable rec) : Compatible rec := by
  refine h.invariant (fun s hs => ?_) (fun s c s' hi hs => ?_)
  · subst hs; exact List.Pairwise.nil
  · subst hs; exact Call.apply_compatible hi c

/-! ## Safety -/

/-- In every reachable lock array two granted write locks never overlap, and a granted write lock
and a granted read lock overlap only if they have the same server, smbpid, brl context and ntvfs
handle and the read lock stands after the write lock. -/
theorem reachable_locks_exclusive {locks : List LockStruct} (h : brlSystem.Reachable (some locks)) (i j : Nat)
    (hi : i < locks.length) (hj : j < locks.length) (hij : i ≠ j) (hw : locks[i].lockType = .writeLock) :
    (locks[j].lockType = .writeLock → brlTdbOverlap locks[i] locks[j] = false) ∧
    (locks[j].lockType = .readLock → brlTdbOverlap locks[i] locks[j] = true →
      SameOwner locks[i] locks[j] ∧ i < j) := by
  have hp : locks.Pairwise fun a b => brlTdbConflict a b = false := reachable_compatible h
  rw [List.pairwise_iff_getElem] at hp
  have hgi : locks[i].lockType.isPending = false := by rw [hw]; rfl
  rcases Nat.lt_or_gt_of_ne hij with hlt | hlt
  · have hc := hp i j hi hj hlt
    exact ⟨fun hj' => not_conflict_write hgi hj' hc, fun hj' ho => ⟨not_conflict_read hw hj' hc ho, hlt⟩⟩
  · have hc := hp j i hj hi hlt
    rw [brlTdbOverlap_comm]
    refine ⟨fun hj' => not_conflict_write (by rw [hj']; rfl) hw hc, fun hj' ho => ?_⟩
    -- an earlier read lock never overlaps the write lock, whoever owns it
    rw [not_conflict_write (by rw [hj']; rfl) hw hc] at ho
    cases ho

/-- One owner takes a write lock on `[0, 10)`, then a read lock on the same range. -/
def writeThenRead : List Call :=
  let brl : BrlContext := ⟨1, ⟨7, 0⟩⟩
  let brlh : BrlHandle := ⟨⟨2, .nt1⟩, ⟨⟨⟨0, 0⟩, 0, 0⟩, ⟨0, .none⟩, 0, 0, .readLock, 0⟩⟩
  [.lock brl brlh 3 0 10 .writeLock 0, .lock brl brlh 3 0 10 .readLock 0]

/-- The array `writeThenRead` leaves. -/
def writeThenReadLocks : List LockStruct :=
  [⟨⟨⟨7, 0⟩, 3, 1⟩, ⟨2, .nt1⟩, 0, 10, .writeLock, 0⟩, ⟨⟨⟨7, 0⟩, 3, 1⟩, ⟨2, .nt1⟩, 0, 10, .readLock, 0⟩]

theorem writeThenRead_exclusive :
    brlTdbOverlap writeThenReadLocks[0] writeThenReadLocks[1] = true ∧
    SameOwner writeThenReadLocks[0] writeThenReadLocks[1] := by
  have hr : brlSystem.Reachable (some writeThenReadLocks) :=
    System.reachable_foldl (.init rfl) writeThenRead
  exact ⟨by decide, ((reachable_locks_exclusive hr 0 1 (by decide) (by decide) (by decide) rfl).2 rfl
    (by decide)).1⟩

end Samba.Brlock
