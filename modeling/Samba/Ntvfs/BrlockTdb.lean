/-
Byte range locking (ntvfs/common/brlock_tdb.c): the lock array kept under one file key and the
calls that change it. A record is `none` when tdb holds nothing under the key. Fetching and storing
a record under the chain lock is taken to be faithful, so the branches for a failed tdb call or a
failed allocation do not appear; they leave the record as it was.
-/
import Samba.Lib.Transition
import Samba.Ntvfs.Cluster

namespace Samba.Brlock

open Transition Samba.Cluster

/-! ## Lock records -/

/-- `enum protocol_types`, as far as the locking code tells protocols apart. -/
inductive Protocol
  | none | core | coreplus | lanman1 | lanman2 | nt1 | smb2
  deriving DecidableEq, Repr

/-- An open file handle: its address, which is what lock records compare, and the protocol of the
ntvfs context it belongs to. -/
structure NtvfsHandle where
  addr : Nat
  protocol : Protocol
  deriving DecidableEq, Repr

/-- `enum brl_type`. -/
inductive BrlType
  | readLock | writeLock | pendingReadLock | pendingWriteLock
  deriving DecidableEq, Repr

/-- `lock_type >= PENDING_READ_LOCK`. -/
def BrlType.isPending : BrlType → Bool
  | .readLock | .writeLock => false
  | .pendingReadLock | .pendingWriteLock => true

/-- `struct brl_context`: its address and the server it belongs to. -/
structure BrlContext where
  addr : Nat
  server : ServerId
  deriving DecidableEq, Repr

/-- `struct lock_context`. -/
structure LockContext where
  server : ServerId
  smbpid : UInt16
  ctx : Nat
  deriving DecidableEq, Repr

/-- `struct lock_struct`; pointers are addresses, 0 is NULL. -/
structure LockStruct where
  context : LockContext
  ntvfs : NtvfsHandle
  start : UInt64
  size : UInt64
  lockType : BrlType
  notifyPtr : Nat
  deriving DecidableEq, Repr

/-- `struct brl_handle`, less its key: one key is modelled. -/
structure BrlHandle where
  ntvfs : NtvfsHandle
  lastLock : LockStruct
  deriving DecidableEq, Repr

/-- The status codes the calls return. -/
inductive NtStatus
  | ok | lockNotGranted | fileLockConflict | rangeNotLocked
  deriving DecidableEq, Repr

/-- A `MSG_BRL_RETRY` sent for the entry at position `pos` of the lock array. -/
structure BrlRetry where
  pos : Nat
  server : ServerId
  notifyPtr : Nat
  deriving DecidableEq, Repr

/-! ## Comparing locks -/

def brlTdbSameContext (ctx1 ctx2 : LockContext) : Bool :=
  clusterIdEqual ctx1.server ctx2.server && ctx1.smbpid == ctx2.smbpid && ctx1.ctx == ctx2.ctx

/-- `brl_tdb_overlap`. -/
def brlTdbOverlap (lck1 lck2 : LockStruct) : Bool :=
  -- equal ranges overlap even where `start + size` wraps around
  if lck1.size ≠ 0 ∧ lck1.start = lck2.start ∧ lck1.size = lck2.size then true
  else if lck1.start ≥ lck2.start + lck2.size ∨ lck2.start ≥ lck1.start + lck1.size then false
  else true

/-- Whether `lck2` cannot be added while `lck1` is in place. -/
def brlTdbConflict (lck1 lck2 : LockStruct) : Bool :=
  if lck1.lockType.isPending ∨ lck2.lockType.isPending then false
  else if lck1.lockType = .readLock ∧ lck2.lockType = .readLock then false
  else if brlTdbSameContext lck1.context lck2.context ∧ lck2.lockType = .readLock ∧
      lck1.ntvfs.addr = lck2.ntvfs.addr then false
  else brlTdbOverlap lck1 lck2

/-- Whether IO by `lck2`'s owner conflicts with `lck1`. -/
def brlTdbConflictOther (lck1 lck2 : LockStruct) : Bool :=
  if lck1.lockType.isPending ∨ lck2.lockType.isPending then false
  else if lck1.lockType = .readLock ∧ lck2.lockType = .readLock then false
  else if brlTdbSameContext lck1.context lck2.context ∧ lck1.ntvfs.addr = lck2.ntvfs.addr ∧
      (lck2.lockType = .readLock ∨ lck1.lockType = .writeLock) then false
  else brlTdbOverlap lck1 lck2

/-! ## The calls -/

/-- The error of a failed lock, remembering it in the handle. -/
def brlTdbLockFailed (brlh : BrlHandle) (lock : LockStruct) : NtStatus × BrlHandle :=
  if lock.ntvfs.protocol = .smb2 then (.lockNotGranted, brlh)
  else if lock.notifyPtr ≠ 0 then (.fileLockConflict, { brlh with lastLock := lock })
  else if lock.start ≥ 0xEF000000 ∧ lock.start >>> 63 = 0 then
    (.fileLockConflict, { brlh with lastLock := lock })
  else if clusterIdEqual lock.context.server brlh.lastLock.context.server ∧
      lock.context.ctx = brlh.lastLock.context.ctx ∧ lock.ntvfs.addr = brlh.lastLock.ntvfs.addr ∧
      lock.start = brlh.lastLock.start then (.fileLockConflict, brlh)
  else (.lockNotGranted, { brlh with lastLock := lock })

/-- The stored array under the key; an absent record counts as empty. -/
def storedLocks (rec : Option (List LockStruct)) : List LockStruct := rec.getD []

/-- The `lock_struct` of a request. -/
def requestedLock (brl : BrlContext) (brlh : BrlHandle) (smbpid : UInt16) (start size : UInt64)
    (lockType : BrlType) (notifyPtr : Nat) : LockStruct where
  context := { server := brl.server, smbpid := smbpid, ctx := brl.addr }
  ntvfs := brlh.ntvfs
  start := start
  size := size
  lockType := lockType
  notifyPtr := notifyPtr

/-- The part of `brl_tdb_lock` after the attempt at the real lock: refuse on a conflict, else
append the entry. -/
def brlTdbLockAppend (brl : BrlContext) (brlh : BrlHandle) (smbpid : UInt16) (start size : UInt64)
    (lockType : BrlType) (notifyPtr : Nat) (rec : Option (List LockStruct)) :
    NtStatus × BrlHandle × Option (List LockStruct) :=
  let lock := requestedLock brl brlh smbpid start size lockType notifyPtr
  if (storedLocks rec).any (brlTdbConflict · lock) then
    let (status, brlh) := brlTdbLockFailed brlh lock
    (status, brlh, rec)
  else
    -- a stored pending lock is reported as not granted
    (if lockType.isPending then .lockNotGranted else .ok, brlh, some (storedLocks rec ++ [lock]))

/-- `brl_tdb_lock`. A pending request first tries the real lock, with no notify pointer and
without letting it overwrite `last_lock`; that inner call is never pending itself. -/
def brlTdbLock (brl : BrlContext) (brlh : BrlHandle) (smbpid : UInt16) (start size : UInt64)
    (lockType : BrlType) (notifyPtr : Nat) (rec : Option (List LockStruct)) :
    NtStatus × BrlHandle × Option (List LockStruct) :=
  if lockType.isPending then
    let rw : BrlType := if lockType = .pendingReadLock then .readLock else .writeLock
    let (status, brlh', rec') := brlTdbLockAppend brl brlh smbpid start size rw 0 rec
    let brlh' := { brlh' with lastLock := brlh.lastLock }
    if status = .ok then (.ok, brlh', rec')
    else brlTdbLockAppend brl brlh' smbpid start size lockType notifyPtr rec'
  else brlTdbLockAppend brl brlh smbpid start size lockType notifyPtr rec

/-- The loop of `brl_tdb_notify_unlock` from position `i` on; `lastNotice` is the last pending
write that was notified. -/
def brlTdbNotifyUnlockFrom (removed : LockStruct) :
    Nat → Option LockStruct → List LockStruct → List BrlRetry
  | _, _, [] => []
  | i, lastNotice, lck :: rest =>
    if lck.lockType.isPending ∧ brlTdbOverlap lck removed then
      if lastNotice.any (brlTdbOverlap lck ·) then
        brlTdbNotifyUnlockFrom removed (i + 1) lastNotice rest
      else
        ⟨i, lck.context.server, lck.notifyPtr⟩ ::
          brlTdbNotifyUnlockFrom removed (i + 1)
            (if lck.lockType = .pendingWriteLock then some lck else lastNotice) rest
    else brlTdbNotifyUnlockFrom removed (i + 1) lastNotice rest

def brlTdbNotifyUnlock (locks : List LockStruct) (removed : LockStruct) : List BrlRetry :=
  brlTdbNotifyUnlockFrom removed 0 none locks

/-- `brl_tdb_notify_all`. The loop tests `locks->lock_type`, the first entry of the array, at
every position. -/
def brlTdbNotifyAll (locks : List LockStruct) : List BrlRetry :=
  locks.flatMap fun lck =>
    if locks.head?.any (·.lockType.isPending) then brlTdbNotifyUnlock locks lck else []

/-- What `brl_tdb_unlock` and `brl_tdb_close` leave behind and send. -/
structure BrlResult where
  status : NtStatus
  record : Option (List LockStruct)
  sent : List BrlRetry
  deriving DecidableEq, Repr

/-- The entry `brl_tdb_unlock` looks for: this owner's granted lock on exactly this range. -/
def unlockMatches (brl : BrlContext) (brlh : BrlHandle) (smbpid : UInt16) (start size : UInt64)
    (ok : BrlType → Bool) (lock : LockStruct) : Bool :=
  brlTdbSameContext lock.context { server := brl.server, smbpid := smbpid, ctx := brl.addr } &&
    lock.ntvfs.addr == brlh.ntvfs.addr && lock.start == start && lock.size == size && ok lock.lockType

/-- The position `brl_tdb_unlock` removes: a write lock if there is one, else any granted lock. -/
def unlockPosition (brl : BrlContext) (brlh : BrlHandle) (smbpid : UInt16) (start size : UInt64)
    (locks : List LockStruct) : Option Nat :=
  match locks.findIdx? (unlockMatches brl brlh smbpid start size (· == .writeLock)) with
  | some i => some i
  | none => locks.findIdx? (unlockMatches brl brlh smbpid start size (!·.isPending))

/-- `brl_tdb_unlock`. -/
def brlTdbUnlock (brl : BrlContext) (brlh : BrlHandle) (smbpid : UInt16) (start size : UInt64)
    (rec : Option (List LockStruct)) : BrlResult :=
  match rec with
  | none => ⟨.rangeNotLocked, none, []⟩
  | some locks =>
    match unlockPosition brl brlh smbpid start size locks with
    | none => ⟨.rangeNotLocked, some locks, []⟩
    | some i =>
      if locks.length = 1 then ⟨.ok, none, []⟩
      else
        let rest := locks.eraseIdx i
        ⟨.ok, some rest, (locks[i]?).elim [] (brlTdbNotifyUnlock rest)⟩

/-- `brl_tdb_remove_pending`. -/
def brlTdbRemovePending (brl : BrlContext) (notifyPtr : Nat) (rec : Option (List LockStruct)) :
    NtStatus × Option (List LockStruct) :=
  match rec with
  | none => (.rangeNotLocked, none)
  | some locks =>
    match locks.findIdx? fun lock => lock.lockType.isPending && lock.notifyPtr == notifyPtr &&
        clusterIdEqual lock.context.server brl.server with
    | none => (.rangeNotLocked, some locks)
    | some i => if locks.length = 1 then (.ok, none) else (.ok, some (locks.eraseIdx i))

/-- `brl_tdb_locktest`: whether IO on the range is allowed. -/
def brlTdbLocktest (brl : BrlContext) (brlh : BrlHandle) (smbpid : UInt16) (start size : UInt64)
    (lockType : BrlType) (rec : Option (List LockStruct)) : NtStatus :=
  match rec with
  | none => .ok
  | some locks =>
    if locks.any (brlTdbConflictOther · (requestedLock brl brlh smbpid start size lockType 0)) then
      .fileLockConflict
    else .ok

/-- The locks of a closing handle. -/
def ownedBy (brl : BrlContext) (brlh : BrlHandle) (lock : LockStruct) : Bool :=
  lock.context.ctx == brl.addr && clusterIdEqual lock.context.server brl.server &&
    lock.ntvfs.addr == brlh.ntvfs.addr

/-- The loop of `brl_tdb_close`, which steps back after each removal: the entries it keeps and
`dcount`, the number of entries it removed. -/
def brlTdbCloseLoop (brl : BrlContext) (brlh : BrlHandle) : List LockStruct → List LockStruct × Nat
  | [] => ([], 0)
  | lock :: rest =>
    let (kept, dcount) := brlTdbCloseLoop brl brlh rest
    if ownedBy brl brlh lock then (kept, dcount + 1) else (lock :: kept, dcount)

/-- `brl_tdb_close`. -/
def brlTdbClose (brl : BrlContext) (brlh : BrlHandle) (rec : Option (List LockStruct)) : BrlResult :=
  match rec with
  | none => ⟨.ok, none, []⟩
  | some locks =>
    let (rest, dcount) := brlTdbCloseLoop brl brlh locks
    if rest.length = 0 then ⟨.ok, none, []⟩
    else if dcount ≠ 0 then ⟨.ok, some rest, brlTdbNotifyAll rest⟩
    else ⟨.ok, some locks, []⟩

/-! ## Runs -/

/-- A call on the record, by any server, context and handle, whatever failure the handle
remembers. -/
inductive Call
  | lock (brl : BrlContext) (brlh : BrlHandle) (smbpid : UInt16) (start size : UInt64)
      (lockType : BrlType) (notifyPtr : Nat)
  | unlock (brl : BrlContext) (brlh : BrlHandle) (smbpid : UInt16) (start size : UInt64)
  | removePending (brl : BrlContext) (notifyPtr : Nat)
  | close (brl : BrlContext) (brlh : BrlHandle)

/-- The record after a call. -/
def Call.apply (rec : Option (List LockStruct)) : Call → Option (List LockStruct)
  | .lock brl brlh smbpid start size lockType notifyPtr =>
    (brlTdbLock brl brlh smbpid start size lockType notifyPtr rec).2.2
  | .unlock brl brlh smbpid start size => (brlTdbUnlock brl brlh smbpid start size rec).record
  | .removePending brl notifyPtr => (brlTdbRemovePending brl notifyPtr rec).2
  | .close brl brlh => (brlTdbClose brl brlh rec).record

/-- The lock record of one file key, from an absent record. -/
def brlSystem : System (Option (List LockStruct)) Call := .ofFn none Call.apply

end Samba.Brlock
