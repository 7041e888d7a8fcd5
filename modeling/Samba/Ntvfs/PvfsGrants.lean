/-
What the brl calls on an open file do to its granted locks and its waiting requests, taken as
multisets, and that they leave the entries of every other handle alone.
-/
import Samba.Lib.SharedExclusive
import Samba.Ntvfs.BrlockSafety
import Samba.Ntvfs.PvfsLock

namespace Samba.PvfsLock

open List Samba.Brlock Samba.Cluster SharedExclusive

variable {κ : Type}

/-! ## Entries by owner -/

def lockOwner (lock : LockStruct) : Owner := ⟨lock.context.server, lock.context.ctx, lock.ntvfs.addr⟩

def lockEntry (lock : LockStruct) : SmbLockEntry := ⟨lock.context.smbpid, lock.start, lock.size⟩

/-- The mode of a granted lock, or the mode a pending one asks for. -/
def grantMode : BrlType → Mode
  | .readLock | .pendingReadLock => .shared
  | .writeLock | .pendingWriteLock => .exclusive

/-- What a granted entry gives its owner. -/
def grantOf (lock : LockStruct) : SmbLockEntry × Mode := (lockEntry lock, grantMode lock.lockType)

/-- The granted locks of an owner: pid, start and size, and type. -/
def grants (o : Owner) (locks : List LockStruct) : Multiset (SmbLockEntry × Mode) :=
  ↑((locks.filter fun lock => lockOwner lock = o ∧ ¬lock.lockType.isPending).map grantOf)

/-- The notify pointers of an owner's pending entries. -/
def waiters (o : Owner) (locks : List LockStruct) : Multiset Nat :=
  ↑((locks.filter fun lock => lockOwner lock = o ∧ lock.lockType.isPending).map (·.notifyPtr))

/-- The entries of everyone else. -/
def others (o : Owner) (locks : List LockStruct) : Multiset LockStruct :=
  ↑(locks.filter (lockOwner · ≠ o))

variable {l l' : List LockStruct} {o : Owner} {h h' : Locked κ}

theorem grants_perm (o : Owner) (h : l.Perm l') : grants o l = grants o l' :=
  Multiset.coe_eq_coe.mpr ((h.filter _).map _)

theorem waiters_perm (o : Owner) (h : l.Perm l') : waiters o l = waiters o l' :=
  Multiset.coe_eq_coe.mpr ((h.filter _).map _)

theorem others_perm (o : Owner) (h : l.Perm l') : others o l = others o l' :=
  Multiset.coe_eq_coe.mpr (h.filter _)

theorem cons_granted {o : Owner} {lock : LockStruct} (ho : lockOwner lock = o)
    (hp : lock.lockType.isPending = false) (locks : List LockStruct) :
    grants o (lock :: locks) = grantOf lock ::ₘ grants o locks ∧
      waiters o (lock :: locks) = waiters o locks ∧ others o (lock :: locks) = others o locks := by
  refine ⟨?_, ?_, ?_⟩
  · simp [grants, ho, hp]
  · simp [waiters, hp]
  · simp [others, ho]

theorem cons_pending {lock : LockStruct} (ho : lockOwner lock = o)
    (hp : lock.lockType.isPending = true) (locks : List LockStruct) :
    grants o (lock :: locks) = grants o locks ∧
      waiters o (lock :: locks) = lock.notifyPtr ::ₘ waiters o locks ∧
      others o (lock :: locks) = others o locks := by
  refine ⟨?_, ?_, ?_⟩
  · simp [grants, hp]
  · simp [waiters, ho, hp]
  · simp [others, ho]

theorem mem_resources_grants {locks : List LockStruct} {e : SmbLockEntry} : e ∈ resources (grants o locks) ↔
      ∃ lock ∈ locks, lockOwner lock = o ∧ lock.lockType.isPending = false ∧ lockEntry lock = e := by
  simp only [resources, grants, Multiset.map_coe, map_map, Multiset.mem_coe, mem_map,
    mem_filter, decide_eq_true_eq, Bool.not_eq_true, Function.comp_apply, grantOf, and_assoc]

theorem mem_grants_exclusive {locks : List LockStruct} {e : SmbLockEntry} : (e, Mode.exclusive) ∈ grants o locks ↔
      ∃ lock ∈ locks, lockOwner lock = o ∧ lock.lockType = .writeLock ∧ lockEntry lock = e := by
  simp only [grants, Multiset.mem_coe, mem_map, mem_filter, decide_eq_true_eq, grantOf,
    Prod.mk.injEq]
  constructor
  · rintro ⟨lock, ⟨hmem, ho, hp⟩, he, hm⟩
    refine ⟨lock, hmem, ho, ?_, he⟩
    cases ht : lock.lockType <;> simp_all [BrlType.isPending, grantMode]
  · rintro ⟨lock, hmem, ho, ht, he⟩
    exact ⟨lock, ⟨hmem, ho, by simp [ht, BrlType.isPending]⟩, he, by rw [ht]; rfl⟩

theorem mem_waiters {locks : List LockStruct} {ptr : Nat} : ptr ∈ waiters o locks ↔
      ∃ lock ∈ locks, lockOwner lock = o ∧ lock.lockType.isPending = true ∧ lock.notifyPtr = ptr := by
  simp only [waiters, Multiset.mem_coe, mem_map, mem_filter, decide_eq_true_eq, and_assoc]

/-- What an owner holds shows in everyone else's view of another owner. -/
theorem grants_of_others {o' : Owner} (hne : o' ≠ o) (h : others o l = others o l') : grants o' l = grants o' l' := by
  have key : ∀ l : List LockStruct, grants o' l =
      ((others o l).filter fun lock => lockOwner lock = o' ∧ ¬lock.lockType.isPending).map grantOf := by
    intro l
    simp only [grants, others, Multiset.filter_coe, filter_filter, Multiset.map_coe]
    congr 2
    refine filter_congr fun lock _ => ?_
    by_cases ho : lockOwner lock = o' <;> simp [ho, hne]
  rw [key, key, h]

theorem waiters_of_others {o' : Owner} (hne : o' ≠ o)
    (h : others o l = others o l') : waiters o' l = waiters o' l' := by
  have key : ∀ l : List LockStruct, waiters o' l =
      ((others o l).filter fun lock => lockOwner lock = o' ∧ lock.lockType.isPending).map (·.notifyPtr) := by
    intro l
    simp only [waiters, others, Multiset.filter_coe, filter_filter, Multiset.map_coe]
    congr 2
    refine filter_congr fun lock _ => ?_
    by_cases ho : lockOwner lock = o' <;> simp [ho, hne]
  rw [key, key, h]

/-! ## Effects -/

def Locked.locks (h : Locked κ) : List LockStruct := storedLocks h.record

def Locked.grants (h : Locked κ) : Multiset (SmbLockEntry × Mode) := PvfsLock.grants h.file.owner h.locks

def Locked.waiters (h : Locked κ) : Multiset Nat := PvfsLock.waiters h.file.owner h.locks

/-- `h'` is the same open file as `h`, over a record that differs in the file's own entries only. -/
structure Keeps (h h' : Locked κ) : Prop where
  brl : h'.file.brl = h.file.brl
  ntvfs : h'.file.brlHandle.ntvfs = h.file.brlHandle.ntvfs
  key : h'.file.key = h.file.key
  others : others h.file.owner h'.locks = others h.file.owner h.locks

theorem Keeps.refl (h : Locked κ) : Keeps h h := ⟨rfl, rfl, rfl, rfl⟩

theorem Keeps.owner (hk : Keeps h h') : h'.file.owner = h.file.owner := by
  simp only [PvfsFile.owner, hk.brl, hk.ntvfs]

theorem Keeps.protocol (hk : Keeps h h') : h'.file.protocol = h.file.protocol := by
  simp only [PvfsFile.protocol, hk.ntvfs]

theorem Keeps.trans {h'' : Locked κ} (h₁ : Keeps h h') (h₂ : Keeps h' h'') : Keeps h h'' where
  brl := h₂.brl.trans h₁.brl
  ntvfs := h₂.ntvfs.trans h₁.ntvfs
  key := h₂.key.trans h₁.key
  others := by rw [← h₁.others, ← h₁.owner]; exact h₂.others

/-- A step from `h` to `h'`, with the grants `G` and waiters `W` it leaves the file, its
`lock_count` `n` and its `pending_list` `ps`. -/
structure Effect (h h' : Locked κ) (G : Multiset (SmbLockEntry × Mode)) (W : Multiset Nat) (n : Int)
    (ps : List PvfsPendingLock) : Prop extends Keeps h h' where
  grants : h'.grants = G
  waiters : h'.waiters = W
  count : h'.file.lockCount = n
  pendings : h'.file.pendingList = ps

theorem Effect.refl (h : Locked κ) : Effect h h h.grants h.waiters h.file.lockCount h.file.pendingList :=
  ⟨.refl h, rfl, rfl, rfl, rfl⟩

theorem Effect.after {h'' : Locked κ} {G : Multiset (SmbLockEntry × Mode)} {W : Multiset Nat}
    {n : Int} {ps : List PvfsPendingLock} (h₁ : Keeps h h') (h₂ : Effect h' h'' G W n ps) :
    Effect h h'' G W n ps :=
  ⟨h₁.trans h₂.toKeeps, h₂.grants, h₂.waiters, h₂.count, h₂.pendings⟩

theorem addCount_effect (h : Locked κ) (n : Int) :
    Effect h (addCount h n) h.grants h.waiters (h.file.lockCount + n) h.file.pendingList :=
  ⟨⟨rfl, rfl, rfl, rfl⟩, rfl, rfl, rfl, rfl⟩

theorem addPending_effect (h : Locked κ) (p : PvfsPendingLock) :
    Effect h (addPending h p) h.grants h.waiters h.file.lockCount (p :: h.file.pendingList) :=
  ⟨⟨rfl, rfl, rfl, rfl⟩, rfl, rfl, rfl, rfl⟩

theorem dropPending_effect (h : Locked κ) (p : PvfsPendingLock) :
    Effect h (dropPending h p) h.grants h.waiters h.file.lockCount
      (h.file.pendingList.eraseP (·.addr == p.addr)) :=
  ⟨⟨rfl, rfl, rfl, rfl⟩, rfl, rfl, rfl, rfl⟩

/-- A new array for the record, entry by entry what the file gains or loses. -/
theorem Effect.record {f : PvfsFile κ} {record : Option (List LockStruct)}
    {G : Multiset (SmbLockEntry × Mode)} {W : Multiset Nat} (hb : f.brl = h.file.brl)
    (hn : f.brlHandle.ntvfs = h.file.brlHandle.ntvfs) (hkey : f.key = h.file.key)
    (hG : PvfsLock.grants h.file.owner (storedLocks record) = G)
    (hW : PvfsLock.waiters h.file.owner (storedLocks record) = W)
    (hO : others h.file.owner (storedLocks record) = others h.file.owner h.locks) :
    Effect h ⟨f, record⟩ G W f.lockCount f.pendingList := by
  have hk : Keeps h ⟨f, record⟩ := ⟨hb, hn, hkey, hO⟩
  have ho : f.owner = h.file.owner := hk.owner
  refine ⟨hk, ?_, ?_, rfl, rfl⟩
  · rw [Locked.grants, ho]
    exact hG
  · rw [Locked.waiters, ho]
    exact hW

/-! ## Locking -/

/-- The entry a lock of this type would store, without a notify pointer. -/
def wanted (f : PvfsFile κ) (e : SmbLockEntry) (rw : BrlType) : LockStruct :=
  requestedLock f.brl f.brlHandle e.pid e.offset e.count rw 0

/-- Whether one of the stored entries stands in the way of a lock of this type. -/
def refused (f : PvfsFile κ) (rw : BrlType) (locks : List LockStruct) (e : SmbLockEntry) : Bool :=
  locks.any (brlTdbConflict · (wanted f e rw))

/-- `PENDING_READ_LOCK` tries for a `READ_LOCK` first, `PENDING_WRITE_LOCK` for a `WRITE_LOCK`. -/
def realType : BrlType → BrlType
  | .readLock | .pendingReadLock => .readLock
  | .writeLock | .pendingWriteLock => .writeLock

theorem refused_congr {f f' : PvfsFile κ} (hb : f'.brl = f.brl)
    (hn : f'.brlHandle.ntvfs = f.brlHandle.ntvfs) (rw : BrlType) (locks : List LockStruct)
    (e : SmbLockEntry) : refused f' rw locks e = refused f rw locks e := by
  unfold refused wanted requestedLock
  rw [hb, hn]

theorem grants_append (o : Owner) (locks : List LockStruct) (lock : LockStruct) :
    grants o (locks ++ [lock]) = grants o (lock :: locks) :=
  grants_perm o (perm_append_singleton _ _)

theorem waiters_append (o : Owner) (locks : List LockStruct) (lock : LockStruct) :
    waiters o (locks ++ [lock]) = waiters o (lock :: locks) :=
  waiters_perm o (perm_append_singleton _ _)

theorem others_append (o : Owner) (locks : List LockStruct) (lock : LockStruct) :
    others o (locks ++ [lock]) = others o (lock :: locks) :=
  others_perm o (perm_append_singleton _ _)

theorem brlTdbLockFailed_spec (brlh : BrlHandle) (lock : LockStruct) :
    (brlTdbLockFailed brlh lock).1 ≠ .ok ∧ (brlTdbLockFailed brlh lock).2.ntvfs = brlh.ntvfs := by
  unfold brlTdbLockFailed
  repeat' split
  all_goals exact ⟨by simp, rfl⟩

section
variable (brl : BrlContext) (brlh : BrlHandle) (pid : UInt16) (start size : UInt64) (ptr : Nat)
  (record : Option (List LockStruct))

variable {rw : BrlType}

theorem brlTdbLockAppend_granted (hp : rw.isPending = false)
    (hr : (storedLocks record).any (brlTdbConflict · (requestedLock brl brlh pid start size rw ptr)) = false) :
    brlTdbLockAppend brl brlh pid start size rw ptr record =
      (.ok, brlh, some (storedLocks record ++ [requestedLock brl brlh pid start size rw ptr])) := by
  simp only [brlTdbLockAppend, hr, hp, Bool.false_eq_true, if_false]

theorem brlTdbLockAppend_refused
    (hr : (storedLocks record).any (brlTdbConflict · (requestedLock brl brlh pid start size rw ptr)) = true) :
    ∃ status brlh', brlTdbLockAppend brl brlh pid start size rw ptr record = (status, brlh', record) ∧
      status ≠ .ok ∧ brlh'.ntvfs = brlh.ntvfs := by
  obtain ⟨hs, hn⟩ := brlTdbLockFailed_spec brlh (requestedLock brl brlh pid start size rw ptr)
  refine ⟨_, _, ?_, hs, hn⟩
  simp only [brlTdbLockAppend, hr, if_true]

theorem brlTdbLockAppend_pending (hp : rw.isPending = true) : brlTdbLockAppend brl brlh pid start size rw ptr record =
      (.lockNotGranted, brlh, some (storedLocks record ++ [requestedLock brl brlh pid start size rw ptr])) := by
  have hr : (storedLocks record).any (brlTdbConflict · (requestedLock brl brlh pid start size rw ptr)) = false := by
    rw [any_eq_false]
    intro lock _
    have hp' : (requestedLock brl brlh pid start size rw ptr).lockType.isPending = true := hp
    simp [brlTdbConflict, hp']
  simp only [brlTdbLockAppend, hr, hp, Bool.false_eq_true, if_false, if_true]

end

/-- The entry stored for a granted lock. -/
def granted (f : PvfsFile κ) (e : SmbLockEntry) (rw : BrlType) (ptr : Nat) : LockStruct :=
  requestedLock f.brl f.brlHandle e.pid e.offset e.count (realType rw) (if rw.isPending then 0 else ptr)

theorem grantMode_realType (rw : BrlType) : grantMode (realType rw) = grantMode rw := by
  cases rw <;> rfl

theorem realType_isPending (rw : BrlType) : (realType rw).isPending = false := by
  cases rw <;> rfl

variable {h : Locked κ}

/-- The effect of appending an entry of the file's own. -/
theorem append_granted_effect {f : PvfsFile κ} (hb : f.brl = h.file.brl)
    (hn : f.brlHandle.ntvfs = h.file.brlHandle.ntvfs) (hkey : f.key = h.file.key) (e : SmbLockEntry)
    (rw : BrlType) (ptr : Nat) :
    Effect h ⟨f, some (h.locks ++ [granted h.file e rw ptr])⟩ ((e, grantMode rw) ::ₘ h.grants) h.waiters
      f.lockCount f.pendingList := by
  obtain ⟨hG, hW, hO⟩ := @cons_granted h.file.owner (granted h.file e rw ptr) rfl (realType_isPending rw) h.locks
  have hg : grantOf (granted h.file e rw ptr) = (e, grantMode rw) :=
    congrArg (Prod.mk e) (grantMode_realType rw)
  refine Effect.record hb hn hkey ?_ ?_ ?_
  · rw [storedLocks, Option.getD_some, grants_append, hG, hg]
    rfl
  · rw [storedLocks, Option.getD_some, waiters_append, hW]
    rfl
  · rw [storedLocks, Option.getD_some, others_append, hO]

theorem append_pending_effect {h : Locked κ} {f : PvfsFile κ} (hb : f.brl = h.file.brl)
    (hn : f.brlHandle.ntvfs = h.file.brlHandle.ntvfs) (hkey : f.key = h.file.key) (e : SmbLockEntry)
    {rw : BrlType} (hp : rw.isPending = true) (ptr : Nat) {brlh : BrlHandle}
    (hbrlh : brlh.ntvfs = h.file.brlHandle.ntvfs) :
    Effect h ⟨f, some (h.locks ++ [requestedLock h.file.brl brlh e.pid e.offset e.count rw ptr])⟩ h.grants
      (ptr ::ₘ h.waiters) f.lockCount f.pendingList := by
  have ho : lockOwner (requestedLock h.file.brl brlh e.pid e.offset e.count rw ptr) = h.file.owner := by
    simp only [lockOwner, requestedLock, PvfsFile.owner, hbrlh]
  obtain ⟨hG, hW, hO⟩ := cons_pending ho hp h.locks
  refine Effect.record hb hn hkey ?_ ?_ ?_
  · rw [storedLocks, Option.getD_some, grants_append, hG]
    rfl
  · rw [storedLocks, Option.getD_some, waiters_append, hW]
    rfl
  · rw [storedLocks, Option.getD_some, others_append, hO]

/-- `brl_lock` grants a lock no stored entry stands in the way of. -/
theorem brlLock_granted {e : SmbLockEntry} {rw : BrlType} (ptr : Nat)
    (hr : refused h.file (realType rw) h.locks e = false) :
    (brlLock h e rw ptr).1 = .ok ∧
      Effect h (brlLock h e rw ptr).2 ((e, grantMode rw) ::ₘ h.grants) h.waiters h.file.lockCount
        h.file.pendingList ∧
      (brlLock h e rw ptr).2.locks = h.locks ++ [granted h.file e rw ptr] := by
  by_cases hp : rw.isPending = true
  · have happ := brlTdbLockAppend_granted h.file.brl h.file.brlHandle e.pid e.offset e.count 0 h.record
      (realType_isPending rw) hr
    have hrw : (if rw = .pendingReadLock then BrlType.readLock else .writeLock) = realType rw := by
      cases rw <;> first | rfl | cases hp
    have heq : brlLock h e rw ptr =
        (.ok, ⟨h.file, some (h.locks ++ [granted h.file e rw ptr])⟩) := by
      simp only [brlLock, brlTdbLock, if_pos hp, hrw, happ, if_true, granted]
      rfl
    rw [heq]
    exact ⟨rfl, append_granted_effect rfl rfl rfl e rw ptr, rfl⟩
  · rw [Bool.not_eq_true] at hp
    have hreal : realType rw = rw := by cases rw <;> first | rfl | cases hp
    have happ := brlTdbLockAppend_granted h.file.brl h.file.brlHandle e.pid e.offset e.count ptr h.record hp
      (hreal ▸ hr)
    have heq : brlLock h e rw ptr =
        (.ok, ⟨h.file, some (h.locks ++ [granted h.file e rw ptr])⟩) := by
      simp only [brlLock, brlTdbLock, hp, Bool.false_eq_true, if_false, happ, granted, hreal]
      rfl
    rw [heq]
    exact ⟨rfl, append_granted_effect rfl rfl rfl e rw ptr, rfl⟩

/-- `brl_lock` refuses any other, queueing it if it is a pending one. -/
theorem brlLock_refused {e : SmbLockEntry} {rw : BrlType} (ptr : Nat)
    (hr : refused h.file (realType rw) h.locks e = true) :
    (brlLock h e rw ptr).1 ≠ .ok ∧
      Effect h (brlLock h e rw ptr).2 h.grants (if rw.isPending then ptr ::ₘ h.waiters else h.waiters)
        h.file.lockCount h.file.pendingList := by
  by_cases hp : rw.isPending = true
  · obtain ⟨status, brlh, happ, hs, hn⟩ := brlTdbLockAppend_refused h.file.brl h.file.brlHandle e.pid
      e.offset e.count 0 h.record hr
    have hrw : (if rw = .pendingReadLock then BrlType.readLock else .writeLock) = realType rw := by
      cases rw <;> first | rfl | cases hp
    have hpend := brlTdbLockAppend_pending h.file.brl { brlh with lastLock := h.file.brlHandle.lastLock }
      e.pid e.offset e.count ptr h.record hp
    have heq : brlLock h e rw ptr = (.lockNotGranted,
        ⟨{ h.file with brlHandle := { brlh with lastLock := h.file.brlHandle.lastLock } },
          some (h.locks ++ [requestedLock h.file.brl { brlh with lastLock := h.file.brlHandle.lastLock }
            e.pid e.offset e.count rw ptr])⟩) := by
      simp only [brlLock, brlTdbLock, if_pos hp, hrw, happ, if_neg hs, hpend]
      rfl
    rw [heq, if_pos hp]
    refine ⟨by simp, ?_⟩
    exact @append_pending_effect _ h { h.file with
      brlHandle := { brlh with lastLock := h.file.brlHandle.lastLock } } rfl hn rfl e rw hp ptr
      { brlh with lastLock := h.file.brlHandle.lastLock } hn
  · rw [Bool.not_eq_true] at hp
    have hreal : realType rw = rw := by cases rw <;> first | rfl | cases hp
    obtain ⟨status, brlh, happ, hs, hn⟩ := brlTdbLockAppend_refused h.file.brl h.file.brlHandle e.pid
      e.offset e.count ptr h.record (hreal ▸ hr)
    have heq : brlLock h e rw ptr = (status, ⟨{ h.file with brlHandle := brlh }, h.record⟩) := by
      simp only [brlLock, brlTdbLock, hp, Bool.false_eq_true, if_false, happ]
    rw [heq, if_neg (by rw [hp]; decide)]
    exact ⟨hs, Effect.record rfl hn rfl rfl rfl rfl⟩

/-! ## Unlocking -/

/-- The entry a search finds, taken out of the array. -/
theorem findIdx?_perm {locks : List LockStruct} {q : LockStruct → Bool} {i : Nat}
    (h : locks.findIdx? q = some i) :
    ∃ lock, lock ∈ locks ∧ q lock = true ∧ locks.Perm (lock :: locks.eraseIdx i) := by
  obtain ⟨hi, hq, -⟩ := List.findIdx?_eq_some_iff_getElem.mp h
  exact ⟨locks[i], getElem_mem hi, hq, (getElem_cons_eraseIdx_perm hi).symm⟩

/-- `brl_tdb_unlock` stores the array without the entry at the position found. -/
theorem brlTdbUnlock_found {brl : BrlContext} {brlh : BrlHandle} {pid : UInt16} {start size : UInt64}
    {record : Option (List LockStruct)} {i : Nat}
    (hi : unlockPosition brl brlh pid start size (storedLocks record) = some i) :
    (brlTdbUnlock brl brlh pid start size record).status = .ok ∧
      storedLocks (brlTdbUnlock brl brlh pid start size record).record =
        (storedLocks record).eraseIdx i := by
  cases record with
  | none => cases hi
  | some locks =>
    replace hi : unlockPosition brl brlh pid start size locks = some i := hi
    simp only [brlTdbUnlock, hi]
    split
    · rename_i hlen
      refine ⟨rfl, ?_⟩
      obtain ⟨lock, rfl⟩ := length_eq_one_iff.mp hlen
      have hi0 : i < 1 := by
        unfold unlockPosition at hi
        split at hi
        · rename_i j hj
          cases hi
          exact (List.findIdx?_eq_some_iff_getElem.mp hj).1
        · exact (List.findIdx?_eq_some_iff_getElem.mp hi).1
      obtain rfl : i = 0 := by omega
      rfl
    · exact ⟨rfl, rfl⟩

theorem brlTdbUnlock_notFound {brl : BrlContext} {brlh : BrlHandle} {pid : UInt16} {start size : UInt64}
    {record : Option (List LockStruct)}
    (hi : unlockPosition brl brlh pid start size (storedLocks record) = none) :
    (brlTdbUnlock brl brlh pid start size record).status = .rangeNotLocked ∧
      (brlTdbUnlock brl brlh pid start size record).record = record := by
  cases record with
  | none => exact ⟨rfl, rfl⟩
  | some locks =>
    replace hi : unlockPosition brl brlh pid start size locks = none := hi
    simp only [brlTdbUnlock, hi, and_self]

theorem unlockMatches_iff (f : PvfsFile κ) (e : SmbLockEntry) (ok : BrlType → Bool) (lock : LockStruct) :
    unlockMatches f.brl f.brlHandle e.pid e.offset e.count ok lock = true ↔
      lockOwner lock = f.owner ∧ lockEntry lock = e ∧ ok lock.lockType = true := by
  obtain ⟨pid, offset, count⟩ := e
  simp only [unlockMatches, brlTdbSameContext, Bool.and_eq_true, clusterIdEqual_iff, beq_iff_eq,
    lockOwner, lockEntry, PvfsFile.owner, Owner.mk.injEq, SmbLockEntry.mk.injEq]
  tauto

/-- `brl_unlock` releases one grant on the range, a write lock before a read lock, and succeeds
if there was one. -/
theorem brlUnlock_spec (h : Locked κ) (e : SmbLockEntry) :
    ((brlUnlock h e).1 = .ok ↔ e ∈ resources h.grants) ∧
      Effect h (brlUnlock h e).2 (release h.grants e) h.waiters h.file.lockCount h.file.pendingList := by
  have hwrite : ∀ lock, unlockMatches h.file.brl h.file.brlHandle e.pid e.offset e.count
      (· == .writeLock) lock = true ↔
      lockOwner lock = h.file.owner ∧ lockEntry lock = e ∧ lock.lockType = .writeLock := by
    intro lock
    rw [unlockMatches_iff, beq_iff_eq]
  have hany : ∀ lock, unlockMatches h.file.brl h.file.brlHandle e.pid e.offset e.count
      (!·.isPending) lock = true ↔
      lockOwner lock = h.file.owner ∧ lockEntry lock = e ∧ lock.lockType.isPending = false := by
    intro lock
    rw [unlockMatches_iff, Bool.not_eq_true']
  cases hpos : unlockPosition h.file.brl h.file.brlHandle e.pid e.offset e.count (storedLocks h.record) with
  | none =>
    obtain ⟨hs, hrec⟩ := brlTdbUnlock_notFound hpos
    have hnone : e ∉ resources h.grants := by
      intro hmem
      obtain ⟨lock, hlock, ho, hp, he⟩ := mem_resources_grants.mp hmem
      unfold unlockPosition at hpos
      split at hpos
      · cases hpos
      · have := List.findIdx?_eq_none_iff.mp hpos lock hlock
        rw [(hany lock).mpr ⟨ho, he, hp⟩] at this
        cases this
    have heq : (brlUnlock h e).2 = h := by
      simp only [brlUnlock, hrec]
    rw [heq, release_of_notMem hnone]
    refine ⟨iff_of_false ?_ hnone, .refl h⟩
    show (brlTdbUnlock _ _ _ _ _ _).status ≠ .ok
    rw [hs]
    decide
  | some i =>
    obtain ⟨hs, hrec⟩ := brlTdbUnlock_found hpos
    -- the entry removed, and that a read lock is removed only where there is no write lock
    have hfound : ∃ lock, lock ∈ storedLocks h.record ∧ lockOwner lock = h.file.owner ∧ lockEntry lock = e ∧
        lock.lockType.isPending = false ∧
        (lock.lockType = .writeLock ∨ (e, Mode.exclusive) ∉ h.grants) ∧
        (storedLocks h.record).Perm (lock :: (storedLocks h.record).eraseIdx i) := by
      unfold unlockPosition at hpos
      split at hpos
      · rename_i j hj
        cases hpos
        obtain ⟨lock, hmem, hq, hperm⟩ := findIdx?_perm hj
        obtain ⟨ho, he, ht⟩ := (hwrite lock).mp hq
        exact ⟨lock, hmem, ho, he, by rw [ht]; rfl, .inl ht, hperm⟩
      · rename_i hnone
        obtain ⟨lock, hmem, hq, hperm⟩ := findIdx?_perm hpos
        obtain ⟨ho, he, hp⟩ := (hany lock).mp hq
        refine ⟨lock, hmem, ho, he, hp, .inr fun hW => ?_, hperm⟩
        obtain ⟨lock', hmem', ho', ht', he'⟩ := mem_grants_exclusive.mp hW
        have := List.findIdx?_eq_none_iff.mp hnone lock' hmem'
        rw [(hwrite lock').mpr ⟨ho', he', ht'⟩] at this
        cases this
    obtain ⟨lock, hmem, ho, he, hp, hkind, hperm⟩ := hfound
    obtain ⟨hG, hW, hO⟩ := cons_granted ho hp ((storedLocks h.record).eraseIdx i)
    have hgrants : h.grants = grantOf lock ::ₘ grants h.file.owner ((storedLocks h.record).eraseIdx i) :=
      (grants_perm h.file.owner hperm).trans hG
    have hrel : release h.grants e = grants h.file.owner ((storedLocks h.record).eraseIdx i) := by
      unfold release
      rcases hkind with ht | hW
      · have hg : grantOf lock = (e, Mode.exclusive) := by simp [grantOf, he, ht, grantMode]
        rw [hgrants, hg, if_pos (Multiset.mem_cons_self _ _), Multiset.erase_cons_head]
      · have hg : grantOf lock = (e, Mode.shared) := by
          have ht : lock.lockType ≠ .writeLock := fun ht => hW (mem_grants_exclusive.mpr ⟨lock, hmem, ho, ht, he⟩)
          cases hlt : lock.lockType with
          | readLock => simp [grantOf, he, hlt, grantMode]
          | writeLock => exact absurd hlt ht
          | pendingReadLock => rw [hlt] at hp; cases hp
          | pendingWriteLock => rw [hlt] at hp; cases hp
        rw [if_neg hW, hgrants, hg, Multiset.erase_cons_head]
    refine ⟨iff_of_true hs (mem_resources_grants.mpr ⟨lock, hmem, ho, hp, he⟩), ?_⟩
    refine Effect.record rfl rfl rfl ?_ ?_ ?_
    · rw [hrec, hrel]
    · rw [hrec, ← hW]
      exact (waiters_perm h.file.owner hperm).symm
    · rw [hrec, ← hO]
      exact (others_perm h.file.owner hperm).symm

/-! ## Pending entries and closing -/

/-- No other handle of the same server waits with this pointer. -/
def Locked.Own (h : Locked κ) (ptr : Nat) : Prop :=
  ∀ lock ∈ others h.file.owner h.locks, lock.lockType.isPending = true → lock.notifyPtr = ptr →
    lock.context.server ≠ h.file.brl.server

theorem Locked.Own.keeps {h' : Locked κ} {ptr : Nat} (ho : h.Own ptr) (hk : Keeps h h') : h'.Own ptr := by
  unfold Locked.Own
  rw [hk.owner, hk.others, hk.brl]
  exact ho

theorem mem_others {o : Owner} {locks : List LockStruct} {lock : LockStruct} :
    lock ∈ others o locks ↔ lock ∈ locks ∧ lockOwner lock ≠ o := by
  simp only [others, Multiset.mem_coe, mem_filter, decide_eq_true_eq]

/-- `brl_remove_pending` takes one waiter with the pointer off the file's queue. -/
theorem brlRemovePending_effect {ptr : Nat} (hown : h.Own ptr) :
    Effect h (brlRemovePending h ptr) h.grants (h.waiters.erase ptr) h.file.lockCount h.file.pendingList := by
  have hmatch : ∀ lock : LockStruct, (lock.lockType.isPending && lock.notifyPtr == ptr &&
      clusterIdEqual lock.context.server h.file.brl.server) = true ↔
      lock.lockType.isPending = true ∧ lock.notifyPtr = ptr ∧ lock.context.server = h.file.brl.server := by
    intro lock
    rw [Bool.and_eq_true, Bool.and_eq_true, beq_iff_eq, clusterIdEqual_iff, and_assoc]
  cases hpos : (storedLocks h.record).findIdx? fun lock => lock.lockType.isPending && lock.notifyPtr == ptr &&
      clusterIdEqual lock.context.server h.file.brl.server with
  | none =>
    have hnone : ptr ∉ h.waiters := by
      intro hmem
      obtain ⟨lock, hlock, ho, hp, hptr⟩ := mem_waiters.mp hmem
      have := List.findIdx?_eq_none_iff.mp hpos lock hlock
      rw [(hmatch lock).mpr ⟨hp, hptr, congrArg Owner.server ho⟩] at this
      cases this
    have heq : brlRemovePending h ptr = h := by
      obtain ⟨f, record⟩ := h
      cases record with
      | none => rfl
      | some locks =>
        replace hpos : locks.findIdx? _ = none := hpos
        simp only [brlRemovePending, brlTdbRemovePending, hpos]
    rw [heq, Multiset.erase_of_notMem hnone]
    exact .refl h
  | some i =>
    obtain ⟨lock, hmem, hq, hperm⟩ := findIdx?_perm hpos
    obtain ⟨hp, hptr, hserver⟩ := (hmatch lock).mp hq
    have ho : lockOwner lock = h.file.owner := by
      by_contra hne
      exact hown lock (mem_others.mpr ⟨hmem, hne⟩) hp hptr hserver
    have hrec : storedLocks (brlTdbRemovePending h.file.brl ptr h.record).2 =
        (storedLocks h.record).eraseIdx i := by
      obtain ⟨f, record⟩ := h
      cases record with
      | none => cases hpos
      | some locks =>
        replace hpos : locks.findIdx? _ = some i := hpos
        simp only [brlTdbRemovePending, hpos]
        split
        · rename_i hlen
          have hi := (List.findIdx?_eq_some_iff_getElem.mp hpos).1
          have hnil : (locks.eraseIdx i).length = 0 := by rw [length_eraseIdx_of_lt hi]; omega
          exact (length_eq_zero_iff.mp hnil).symm
        · rfl
    obtain ⟨hG, hW, hO⟩ := cons_pending ho hp ((storedLocks h.record).eraseIdx i)
    refine Effect.record rfl rfl rfl ?_ ?_ ?_
    · rw [hrec, ← hG]
      exact (grants_perm h.file.owner hperm).symm
    · have hwait : h.waiters = lock.notifyPtr ::ₘ waiters h.file.owner ((storedLocks h.record).eraseIdx i) :=
        (waiters_perm h.file.owner hperm).trans hW
      rw [hrec, hwait, hptr, Multiset.erase_cons_head]
    · rw [hrec, ← hO]
      exact (others_perm h.file.owner hperm).symm

theorem ownedBy_iff (f : PvfsFile κ) (lock : LockStruct) :
    ownedBy f.brl f.brlHandle lock = true ↔ lockOwner lock = f.owner := by
  simp only [ownedBy, Bool.and_eq_true, clusterIdEqual_iff, beq_iff_eq, lockOwner, PvfsFile.owner,
    Owner.mk.injEq]
  tauto

/-- `brl_close` keeps everyone else's entries only. -/
theorem brlClose_locks (h : Locked κ) :
    (brlClose h).locks = h.locks.filter (lockOwner · ≠ h.file.owner) := by
  have howned : (fun lock => !ownedBy h.file.brl h.file.brlHandle lock) =
      fun lock => decide (lockOwner lock ≠ h.file.owner) := by
    funext lock
    by_cases ho : lockOwner lock = h.file.owner
    · simp [ho, (ownedBy_iff h.file lock).mpr ho]
    · simp [ho, mt (ownedBy_iff h.file lock).mp ho]
  obtain ⟨f, record⟩ := h
  cases record with
  | none => rfl
  | some locks =>
    show storedLocks (brlTdbClose f.brl f.brlHandle (some locks)).record = locks.filter _
    rw [← howned]
    simp only [brlTdbClose, brlTdbCloseLoop_fst, brlTdbCloseLoop_snd]
    split
    · rename_i hlen
      exact (length_eq_zero_iff.mp hlen).symm
    · split
      · rfl
      · rename_i hcount
        have hnil : locks.filter (ownedBy f.brl f.brlHandle) = [] :=
          length_eq_zero_iff.mp (not_not.mp hcount)
        refine (filter_eq_self.mpr fun lock hlock => ?_).symm
        have := filter_eq_nil_iff.mp hnil lock hlock
        simpa using this

end Samba.PvfsLock
