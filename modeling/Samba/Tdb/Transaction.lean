/-
Transactions (lib/tdb/common/transaction.c): starting, cancelling and committing one, the
recovery area that a commit sets up first, and the recovery run when a database is opened.
-/
import Samba.Tdb.Freelist

namespace Samba.Tdb

open Bytes

/-! ## Starting and cancelling -/

/-- The 32-bit words of a buffer. -/
def wordsOf : List UInt8 → List Nat
  | a :: b :: c :: d :: rest => leNat [a, b, c, d] :: wordsOf rest
  | _ => []

/-- The failure of a step whose caller logs it and sets `ecode`. -/
def orFail {α : Type} (e : TdbError) (x : TdbM α) : TdbM α := do
  match ← attempt x with
  | some a => return a
  | none => errcode e

/-- `tdb_transaction_start`. -/
def tdbTransactionStart : TdbM Unit := do
  let tdb ← get
  if tdb.readOnly || tdb.internal || tdb.traverseRead then errcode .errEinval
  else match tdb.transaction with
  | some t => set { tdb with transaction := some { t with nesting := t.nesting + 1 } }
  | none =>
    if tdb.travlocks ≠ [] then errcode .errLock
    else do
      -- setup a copy of the hash table heads so the hash scan in traverse can be fast
      let heads ← orFail .errIo (tdbRead freelistTop (tdbHashtableSize tdb.hashSize) false)
      -- make sure we know about any file expansions already done by anyone else
      let _ ← attempt (tdbOob (u32 (tdb.mapSize + 1)))
      modify fun tdb => { tdb with
        transaction := some ⟨wordsOf heads, [], false, 0, tdb.mapSize⟩, methods := .transaction }
      -- we don't grow the transaction linked list due to hash table updates
      transactionMethodWrite freelistTop (.data heads)

/-- `tdb_transaction_cancel`. -/
def tdbTransactionCancel : TdbM Unit := do
  let tdb ← get
  match tdb.transaction with
  | none => throw .failed
  | some t =>
    if t.nesting ≠ 0 then
      set { tdb with transaction := some { t with transactionError := true, nesting := t.nesting - 1 } }
    else set { tdb with mapSize := t.oldMapSize, methods := .io, transaction := none }

/-! ## The recovery area -/

/-- `transaction_sync`. -/
def transactionSync : TdbM Unit := diskOp .sync

/-- The extents that overwrite the file as it was before the transaction. -/
def oldElements (oldMapSize : Nat) (els : List TransactionEl) : List TransactionEl :=
  els.filter fun el => el.offset < oldMapSize

/-- `tdb_recovery_size`. -/
def tdbRecoverySize (t : Transaction) : Nat :=
  u32 (4 + ((oldElements t.oldMapSize t.elements).map fun el => 2 * sizeofOff + el.length).sum)

/-- The transaction of the context. -/
def getTransaction : TdbM Transaction := do
  match (← get).transaction with
  | some t => return t
  | none => throw .crashed

/-- `tdb_recovery_allocate` when there is no recovery area that is large enough: free the old one, then
allocate a new one at the end of the file. -/
def recoveryAllocateNew (recoveryHead : Nat) (r : ListStruct) : TdbM (Nat × Nat × Nat) := do
  (if recoveryHead ≠ 0 then tdbFree recoveryHead r else pure ())
  -- the tdb_free() call might have increased the recovery size
  let t ← getTransaction
  let tdb ← get
  let recoverySize := tdbRecoverySize t
  -- round up to a multiple of page size
  let recoveryMaxSize := sub32 (tdbAlign (u32 (sizeofRec + recoverySize)) tdb.pageSize) sizeofRec
  let recoveryOffset := tdb.mapSize
  ioExpandFile t.oldMapSize (u32 (sub32 recoveryOffset t.oldMapSize + sizeofRec + recoveryMaxSize))
  -- remap the file
  let _ ← attempt (ioOob (u32 (recoveryOffset + 1)))
  -- we have to reset the old map size so that we don't try to expand the file again in the
  -- transaction commit, which would destroy the recovery area
  modify fun tdb => { tdb with transaction := some { t with oldMapSize := tdb.mapSize } }
  ioWrite tdbRecoveryHead (convertIf tdb.convert (le32 recoveryOffset))
  return (recoverySize, recoveryOffset, recoveryMaxSize)

/-- `tdb_recovery_allocate`: the size, the offset and the room of the recovery area. -/
def tdbRecoveryAllocate : TdbM (Nat × Nat × Nat) := do
  let tdb ← get
  let recoveryHead ← tdbOfsRead tdbRecoveryHead
  let r ← (if recoveryHead ≠ 0 then do
      return ListStruct.ofBytes (← ioRead recoveryHead sizeofRec tdb.convert)
    else pure {})
  let recoverySize := tdbRecoverySize (← getTransaction)
  if recoveryHead ≠ 0 ∧ recoverySize ≤ r.recLen then
    -- it fits in the existing area
    return (recoverySize, recoveryHead, r.recLen)
  else recoveryAllocateNew recoveryHead r

/-- The loop of `transaction_setup_recovery`: the old contents under each extent. -/
def recoveryData (cv : Bool) (oldMapSize newMapSize : Nat) : List TransactionEl → TdbM (List UInt8)
  | [] => return []
  | el :: els =>
    if oldMapSize ≤ el.offset then recoveryData cv oldMapSize newMapSize els
    else if newMapSize < el.offset + el.length then errcode .errCorrupt
    else do
      -- the recovery area contains the old data, not the new data
      let old ← orFail .errIo (ioRead el.offset el.length false)
      let rest ← recoveryData cv oldMapSize newMapSize els
      return convertIf cv (le32 el.offset ++ le32 el.length) ++ old ++ rest

/-- `transaction_setup_recovery`: the offset of the magic of the recovery record. The `CONVERT` of
the record and of the tailer is applied to a pointer there and does not change them. -/
def transactionSetupRecovery : TdbM Nat := do
  let oldMapSize := (← getTransaction).oldMapSize
  let (recoverySize, recoveryOffset, recoveryMaxSize) ← tdbRecoveryAllocate
  let cv := (← get).convert
  let t ← getTransaction
  let r : ListStruct := { dataLen := recoverySize, recLen := recoveryMaxSize, keyLen := oldMapSize }
  let data ← recoveryData cv oldMapSize t.oldMapSize t.elements
  let tailer := u32 (sizeofRec + recoveryMaxSize)
  let block := r.toBytes ++ data ++ le32 tailer
  -- the block was allocated for the recovery size, which wraps
  if sizeofRec + recoverySize < block.length then throw .crashed
  else do
    orFail .errIo (ioWrite recoveryOffset block)
    -- as we don't have ordered writes, we have to sync the recovery data before we update the magic
    -- to indicate that the recovery data is present
    transactionSync
    let magicOffset := u32 (recoveryOffset + offsetofMagic)
    orFail .errIo (ioWrite magicOffset (convertIf cv (le32 tdbRecoveryMagic)))
    -- ensure the recovery magic marker is on disk
    transactionSync
    return magicOffset

/-! ## Recovering -/

/-- The loop of `tdb_transaction_recover` that puts the old contents back. -/
def recoverLoop (cv : Bool) : Nat → List UInt8 → TdbM Unit
  | 0, _ => throw .diverged
  | fuel + 1, p =>
    if 8 < p.length then do
      let head := convertIf cv (p.take 8)
      let len := leNat (head.drop 4)
      orFail .errIo (tdbWrite (leNat (head.take 4)) ((p.drop 8).take len))
      recoverLoop cv fuel (p.drop (8 + len))
    else return ()

/-- `tdb_transaction_recover`. -/
def tdbTransactionRecover : TdbM Unit := do
  let tdb ← get
  let recoveryHead ← orFail .errIo (tdbOfsRead tdbRecoveryHead)
  if recoveryHead = 0 then return ()  -- we have never allocated a recovery record
  else do
    let r ← orFail .errIo (tdbRecGet recoveryHead)
    if r.magic ≠ tdbRecoveryMagic then return ()  -- there is no valid recovery data
    else if tdb.readOnly then errcode .errCorrupt
    else do
      let recoveryEof := r.keyLen
      let data ← orFail .errIo (tdbRead (u32 (recoveryHead + sizeofRec)) r.dataLen false)
      recoverLoop tdb.convert (data.length + 1) data
      transactionSync
      -- if the recovery area is after the recovered eof then remove it
      (if recoveryEof ≤ recoveryHead then orFail .errIo (tdbOfsWrite tdbRecoveryHead 0) else pure ())
      -- remove the recovery magic
      orFail .errIo (tdbOfsWrite (u32 (recoveryHead + offsetofMagic)) 0)
      -- reduce the file size to the old size
      diskOp (.truncate recoveryEof)
      modify fun tdb => { tdb with mapSize := recoveryEof }
      transactionSync

/-! ## Committing -/

/-- The loop of `tdb_transaction_commit` that performs the writes. A failed one has the commit
undone from the recovery area. -/
def commitWrites : List TransactionEl → TdbM Unit
  | [] => return ()
  | el :: els => do
    match ← attempt (ioWrite el.offset el.data) with
    | some _ =>
      modify fun tdb => { tdb with transaction := tdb.transaction.map fun t => { t with elements := els } }
      commitWrites els
    | none =>
      modify fun tdb => { tdb with methods := .io }
      let _ ← attempt tdbTransactionRecover
      let _ ← attempt tdbTransactionCancel
      throw .failed

/-- A step of the commit whose failure cancels the transaction. -/
def orCancel {α : Type} (x : TdbM α) : TdbM α := do
  match ← attempt x with
  | some a => return a
  | none => do
    let _ ← attempt tdbTransactionCancel
    throw .failed

/-- `tdb_transaction_commit`. -/
def tdbTransactionCommit : TdbM Unit := do
  let tdb ← get
  match tdb.transaction with
  | none => throw .failed
  | some t =>
    if t.transactionError then do
      setEcode .errIo
      tdbTransactionCancel
      throw .failed
    else if t.nesting ≠ 0 then set { tdb with transaction := some { t with nesting := t.nesting - 1 } }
    else if t.elements = [] then tdbTransactionCancel
    else do
      -- write the recovery data to the end of the file
      let magicOffset ← (if tdb.noSync then pure 0 else orCancel transactionSetupRecovery)
      -- expand the file to the new size if needed
      let t ← getTransaction
      let mapSize := (← get).mapSize
      (if mapSize ≠ t.oldMapSize then do
        orCancel (orFail .errIo (ioExpandFile t.oldMapSize (sub32 mapSize t.oldMapSize)))
        modify fun tdb => { tdb with mapSize := t.oldMapSize }
        let _ ← attempt (ioOob (u32 (t.oldMapSize + 1)))
      else pure ())
      -- perform all the writes
      commitWrites t.elements
      (if tdb.noSync then pure () else do
        -- ensure the new data is on disk
        transactionSync
        -- remove the recovery marker
        ioWrite magicOffset (le32 0)
        -- ensure the recovery marker has been removed on disk
        transactionSync)
      -- use a transaction cancel to free memory and remove the transaction locks
      tdbTransactionCancel

end Samba.Tdb
