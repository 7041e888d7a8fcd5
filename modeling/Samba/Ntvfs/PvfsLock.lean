/-
Byte range lock requests on open files (ntvfs/posix/pvfs_lock.c), over the lock records of
brlock_tdb.c. A request takes its locks one by one; it fails at the first it cannot get, undoing
those it got, or waits for that lock on the file's list of pending locks. Allocation and tdb calls
succeed. Which retry messages the brl calls send is left out: a waiting request may be retried at
any time.
-/
import Samba.Ntvfs.BrlockTdb
import Mathlib.Logic.Function.Basic

namespace Samba.PvfsLock

open Transition Samba.Brlock Samba.Cluster

/-! ## Requests and open files -/

/-- `struct smb_lock_entry`. -/
structure SmbLockEntry where
  pid : UInt16
  offset : UInt64
  count : UInt64
  deriving DecidableEq, Repr

def lockingAndxSharedLock : UInt16 := 0x01
def lockingAndxOplockRelease : UInt16 := 0x02
def lockingAndxChangeLocktype : UInt16 := 0x04
def lockingAndxCancelLock : UInt16 := 0x08

/-- `lockx.in` of a generic lock request, less the handle. The source keeps the unlocks and the
locks in one array, unlocks first, with their counts. -/
structure SmbLock where
  mode : UInt16
  timeout : UInt32
  ulocks : List SmbLockEntry
  locks : List SmbLockEntry
  deriving DecidableEq, Repr

def SmbLock.has (lck : SmbLock) (bit : UInt16) : Bool := lck.mode &&& bit != 0

/-- `struct pvfs_pending_lock`: its address, the request and the index of the lock it waits for. -/
structure PvfsPendingLock where
  addr : Nat
  lck : SmbLock
  pendingLock : Nat
  deriving DecidableEq, Repr

/-- `struct pvfs_file`, as far as locking uses it: the brl context of its share, its brl handle and
that handle's key, whether its descriptor is -1, `lock_count` and `pending_list`. `lock_count` has
64 bits in the source, more than there can be lock entries. -/
structure PvfsFile (κ : Type) where
  brl : BrlContext
  brlHandle : BrlHandle
  key : κ
  isDirectory : Bool
  lockCount : Int
  pendingList : List PvfsPendingLock
  deriving DecidableEq, Repr

/-- The protocol of the requests on a file, `req->ctx->protocol`. -/
def PvfsFile.protocol {κ : Type} (f : PvfsFile κ) : Protocol := f.brlHandle.ntvfs.protocol

/-- An open file with the lock record under its key. -/
structure Locked (κ : Type) where
  file : PvfsFile κ
  record : Option (List LockStruct)
  deriving DecidableEq, Repr

/-- The status codes of a lock request: those of the brl calls and its own. -/
inductive LockStatus
  | brl (status : NtStatus)
  | fileIsADirectory | noAtomicLocks | cancelViolation | notImplemented
  deriving DecidableEq, Repr

/-- `enum pvfs_wait_notice`. -/
inductive PvfsWaitNotice
  | event | timeout | cancel
  deriving DecidableEq, Repr

variable {κ : Type}

/-! ## The brl calls on an open file -/

/-- `brl_lock` on the file's handle. -/
def brlLock (h : Locked κ) (e : SmbLockEntry) (rw : BrlType) (notifyPtr : Nat) : NtStatus × Locked κ :=
  let (status, brlh, record) :=
    brlTdbLock h.file.brl h.file.brlHandle e.pid e.offset e.count rw notifyPtr h.record
  (status, ⟨{ h.file with brlHandle := brlh }, record⟩)

/-- `brl_unlock` on the file's handle. -/
def brlUnlock (h : Locked κ) (e : SmbLockEntry) : NtStatus × Locked κ :=
  let r := brlTdbUnlock h.file.brl h.file.brlHandle e.pid e.offset e.count h.record
  (r.status, ⟨h.file, r.record⟩)

/-- `brl_remove_pending`, whose failure is only logged. -/
def brlRemovePending (h : Locked κ) (notifyPtr : Nat) : Locked κ :=
  ⟨h.file, (brlTdbRemovePending h.file.brl notifyPtr h.record).2⟩

/-- `brl_close` on the file's handle. -/
def brlClose (h : Locked κ) : Locked κ :=
  ⟨h.file, (brlTdbClose h.file.brl h.file.brlHandle h.record).record⟩

def addCount (h : Locked κ) (n : Int) : Locked κ :=
  ⟨{ h.file with lockCount := h.file.lockCount + n }, h.record⟩

/-- `DLIST_ADD(f->pending_list, p)`. -/
def addPending (h : Locked κ) (p : PvfsPendingLock) : Locked κ :=
  ⟨{ h.file with pendingList := p :: h.file.pendingList }, h.record⟩

/-- `DLIST_REMOVE(f->pending_list, p)`. -/
def dropPending (h : Locked κ) (p : PvfsPendingLock) : Locked κ :=
  ⟨{ h.file with pendingList := h.file.pendingList.eraseP (·.addr == p.addr) }, h.record⟩

/-! ## Taking and undoing locks -/

/-- `READ_LOCK` or `WRITE_LOCK`. -/
def lockMode (lck : SmbLock) : BrlType :=
  if lck.has lockingAndxSharedLock then .readLock else .writeLock

/-- `PENDING_READ_LOCK` or `PENDING_WRITE_LOCK`. -/
def pendingMode (lck : SmbLock) : BrlType :=
  if lck.has lockingAndxSharedLock then .pendingReadLock else .pendingWriteLock

/-- The loop over the locks from index `i` on: the index it stopped at and why, or `none` when it
got all of them. -/
def lockLoop (rw : BrlType) (notifyPtr : Nat) :
    List SmbLockEntry → Nat → Locked κ → Locked κ × Option (Nat × NtStatus)
  | [], _, h => (h, none)
  | e :: rest, i, h =>
    let (status, h) := brlLock h e rw notifyPtr
    if status = .ok then lockLoop rw notifyPtr rest (i + 1) (addCount h 1) else (h, some (i, status))

/-- The loop over the unlocks, which stops at the first that fails. -/
def unlockLoop : List SmbLockEntry → Locked κ → NtStatus × Locked κ
  | [], h => (.ok, h)
  | e :: rest, h =>
    let (status, h) := brlUnlock h e
    if status = .ok then unlockLoop rest (addCount h (-1)) else (status, h)

/-- The locks a rollback from index `i` unlocks, in its order. "in SMB2 mode we also try to unlock
failing lock". -/
def undone (protocol : Protocol) (locks : List SmbLockEntry) (i : Nat) : List SmbLockEntry :=
  (locks.take (if protocol = .smb2 then i + 1 else i)).reverse

/-- "undo the locks we just did". -/
def undoLoop : List SmbLockEntry → Locked κ → Locked κ
  | [], h => h
  | e :: rest, h => undoLoop rest (addCount (brlUnlock h e).2 (-1))

/-- The rollback of `pvfs_lock` and of `pvfs_lock_async_failed`. -/
def undoLocks (h : Locked κ) (locks : List SmbLockEntry) (i : Nat) : Locked κ :=
  undoLoop (undone h.file.protocol locks i) h

/-! ## Requests -/

/-- Take the locks from index `i` on for a pending request, which waits for the first it does not
get. Returns the status sent to the client, if one is. -/
def finishPending (h : Locked κ) (p : PvfsPendingLock) (i : Nat) : Locked κ × Option LockStatus :=
  match lockLoop (pendingMode p.lck) p.addr (p.lck.locks.drop i) i h with
  | (h, none) => (h, some (.brl .ok))
  | (h, some (i, _)) => (addPending h { p with pendingLock := i }, none)

/-- `pvfs_pending_lock_continue`, with the status sent to the waiting client, if one is. -/
def pvfsPendingLockContinue (h : Locked κ) (p : PvfsPendingLock) (reason : PvfsWaitNotice) :
    Locked κ × Option LockStatus :=
  match p.lck.locks[p.pendingLock]? with
  | none => (h, none)  -- `pending_lock` is an index of the array
  | some e =>
    let h := dropPending h p
    let (status, h) :=
      if reason = .cancel then (.fileLockConflict, h) else brlLock h e (lockMode p.lck) p.addr
    if status = .ok then
      finishPending (brlRemovePending (addCount h 1) p.addr) p (p.pendingLock + 1)
    else if reason = .event then (addPending h p, none)
    else (undoLocks (brlRemovePending h p.addr) p.lck.locks p.pendingLock, some (.brl status))

/-- The pending request a cancel names. The source breaks off comparing the entries at the first
difference, and gives the request up only if that was an unlock entry. -/
def cancels (lck : SmbLock) (p : PvfsPendingLock) : Bool :=
  p.lck.ulocks.length == lck.ulocks.length && p.lck.locks.length == lck.locks.length &&
    p.lck.mode == (lck.mode &&& ~~~lockingAndxCancelLock) && p.lck.ulocks == lck.ulocks

/-- What a lock request leaves behind: the status it returns, and the status sent to another
request it cancelled. -/
structure LockResult (κ : Type) where
  status : LockStatus
  locked : Locked κ
  cancelled : Option (PvfsPendingLock × Option LockStatus)
  deriving DecidableEq, Repr

/-- `pvfs_lock_cancel`. -/
def pvfsLockCancel (h : Locked κ) (lck : SmbLock) : LockResult κ :=
  match h.file.pendingList.find? (cancels lck) with
  | none => ⟨.cancelViolation, h, none⟩
  | some p =>
    let (h, sent) := pvfsPendingLockContinue h p .timeout
    ⟨.brl .ok, h, some (p, sent)⟩

/-- The locking part of `pvfs_lock`, after the unlocks. `pending` is the address of the pending
structure, if the request may wait. -/
def takeLocks (h : Locked κ) (lck : SmbLock) : Option Nat → LockResult κ
  | some addr =>
    match lockLoop (pendingMode lck) addr lck.locks 0 h with
    | (h, none) => ⟨.brl .ok, h, none⟩
    | (h, some (i, _)) => ⟨.brl .ok, addPending h ⟨addr, lck, i⟩, none⟩
  | none =>
    match lockLoop (lockMode lck) 0 lck.locks 0 h with
    | (h, none) => ⟨.brl .ok, h, none⟩
    | (h, some (i, status)) => ⟨.brl status, undoLocks h lck.locks i, none⟩

/-- `pvfs_lock` on an open file. `mayAsync` is `NTVFS_ASYNC_STATE_MAY_ASYNC`, `addr` the address
`talloc` returns for the pending structure where one is made. -/
def pvfsLock (h : Locked κ) (lck : SmbLock) (mayAsync : Bool) (addr : Nat) : LockResult κ :=
  let pending := if lck.timeout ≠ 0 ∧ mayAsync then some addr else none
  if h.file.isDirectory then ⟨.fileIsADirectory, h, none⟩
  else if lck.has lockingAndxCancelLock then pvfsLockCancel h lck
  else if lck.has lockingAndxChangeLocktype then ⟨.noAtomicLocks, h, none⟩
  else if lck.has lockingAndxOplockRelease then ⟨.notImplemented, h, none⟩
  else
    let (status, h) := unlockLoop lck.ulocks h
    if status = .ok then takeLocks h lck pending else ⟨.brl status, h, none⟩

/-- `pvfs_lock_close`, less the answers to the requests still waiting. -/
def pvfsLockClose (h : Locked κ) : Locked κ :=
  let h := if h.file.lockCount ≠ 0 ∨ h.file.pendingList ≠ [] then
      { brlClose h with file := { h.file with lockCount := 0 } } else h
  { h with file := { h.file with pendingList := [] } }

/-! ## Runs -/

/-- The open files of every server, and the lock records they share. -/
structure State (κ : Type) where
  files : Nat → Option (PvfsFile κ)
  records : κ → Option (List LockStruct)

variable [DecidableEq κ]

/-- Store an open file and its record. -/
def State.put (s : State κ) (id : Nat) (h : Locked κ) : State κ where
  files := Function.update s.files id (some h.file)
  records := Function.update s.records h.file.key h.record

/-- Forget a closed file, storing its record. -/
def State.remove (s : State κ) (id : Nat) (h : Locked κ) : State κ where
  files := Function.update s.files id none
  records := Function.update s.records h.file.key h.record

omit [DecidableEq κ] in
/-- An open file with its record. -/
def State.locked (s : State κ) (f : PvfsFile κ) : Locked κ := ⟨f, s.records f.key⟩

/-- Who a lock entry belongs to: server, brl context and open handle. -/
structure Owner where
  server : ServerId
  ctx : Nat
  ntvfs : Nat
  deriving DecidableEq, Repr

def PvfsFile.owner (f : PvfsFile κ) : Owner := ⟨f.brl.server, f.brl.addr, f.brlHandle.ntvfs.addr⟩

/-- The calls of the clients, and the ends of what they wait for. -/
inductive Event (κ : Type)
  | opened (id : Nat) (f : PvfsFile κ)
  | lock (id : Nat) (lck : SmbLock) (mayAsync : Bool) (addr : Nat)
  | resume (id : Nat) (addr : Nat) (reason : PvfsWaitNotice)
  | close (id : Nat)

omit [DecidableEq κ] in
/-- An address at which the server of a file has no waiting request. -/
def State.Unused (s : State κ) (server : ServerId) (addr : Nat) : Prop :=
  addr ≠ 0 ∧ ∀ id g, s.files id = some g → g.brl.server = server → ∀ p ∈ g.pendingList, p.addr ≠ addr

/-- The steps of the server: each call runs to its end on one file. -/
inductive Step : State κ → Event κ → State κ → Prop
  | opened {s : State κ} (id : Nat) (f : PvfsFile κ) : s.files id = none →
      -- no handle still open has the new one's address
      (∀ j g, s.files j = some g → g.owner ≠ f.owner) → f.lockCount = 0 → f.pendingList = [] →
      Step s (.opened id f) (s.put id (s.locked f))
  | invalidHandle {s : State κ} (id : Nat) (lck : SmbLock) (mayAsync : Bool) (addr : Nat) :
      s.files id = none → Step s (.lock id lck mayAsync addr) s
  | lock {s : State κ} (id : Nat) (f : PvfsFile κ) (lck : SmbLock) (mayAsync : Bool) (addr : Nat) :
      s.files id = some f → s.Unused f.brl.server addr →
      Step s (.lock id lck mayAsync addr) (s.put id (pvfsLock (s.locked f) lck mayAsync addr).locked)
  | resume {s : State κ} (id : Nat) (f : PvfsFile κ) (p : PvfsPendingLock) (reason : PvfsWaitNotice) :
      s.files id = some f → p ∈ f.pendingList →
      Step s (.resume id p.addr reason) (s.put id (pvfsPendingLockContinue (s.locked f) p reason).1)
  | close {s : State κ} (id : Nat) (f : PvfsFile κ) : s.files id = some f →
      Step s (.close id) (s.remove id (pvfsLockClose (s.locked f)))

/-- Any number of servers with files open, from none open and no lock stored. -/
def pvfsSystem (κ : Type) [DecidableEq κ] : System (State κ) (Event κ) where
  init s := (∀ id, s.files id = none) ∧ ∀ k, s.records k = none
  step := Step

end Samba.PvfsLock
