/-
The calls on keys (lib/tdb/common/tdb.c), and a new database (`tdb_new_database` in open.c).
-/
import Samba.Tdb.Freelist

namespace Samba.Tdb

open Bytes

/-- `tdb_increment_seqnum`; errors are ignored. -/
def tdbIncrementSeqnum : TdbM Unit := do
  if (← get).seqnum then do
    let seqnum ← attempt (tdbOfsRead tdbSeqnumOfs)
    let _ ← attempt (tdbOfsWrite tdbSeqnumOfs (u32 (seqnum.getD 0 + 1)))
    return ()
  else return ()

/-! ## Looking up -/

/-- The test of `tdb_find` whether the record at `recPtr` is the one for `key`. -/
def keyMatches (key : List UInt8) (hash recPtr : Nat) (r : ListStruct) : TdbM Bool := do
  if !r.dead && hash == r.fullHash && key.length == r.keyLen then do
    return (← attempt (tdbParseKey key (u32 (recPtr + sizeofRec)) r.keyLen)).getD false
  else return false

/-- The walk of `tdb_find` down a hash chain. -/
def tdbFindLoop (key : List UInt8) (hash : Nat) : Nat → Nat → TdbM (Nat × ListStruct)
  | 0, _ => throw .diverged
  | fuel + 1, recPtr =>
    if recPtr = 0 then errcode .errNoexist else do
    let r ← tdbRecRead recPtr
    if ← keyMatches key hash recPtr r then return (recPtr, r) else tdbFindLoop key hash fuel r.next

/-- `tdb_find`; the source returns 0 where this fails. -/
def tdbFind (key : List UInt8) (hash : Nat) : TdbM (Nat × ListStruct) := do
  let tdb ← get
  let recPtr ← tdbOfsRead (tdbHashTop tdb.hashSize hash)
  tdbFindLoop key hash (tdb.mapSize + 1) recPtr

/-- `tdb_fetch`; `none` is `tdb_null`. -/
def tdbFetch (key : List UInt8) : TdbM (Option (List UInt8)) := do
  let hash := ((← get).hashFn key).toNat
  match ← attempt (tdbFind key hash) with
  | none => return none
  | some (recPtr, r) => attempt (tdbAllocRead (u32 (recPtr + sizeofRec + r.keyLen)) r.dataLen)

/-- `tdb_exists_hash`. -/
def tdbExistsHash (key : List UInt8) (hash : Nat) : TdbM Bool := do
  return (← attempt (tdbFind key hash)).isSome

/-- `tdb_exists`. -/
def tdbExists (key : List UInt8) : TdbM Bool := do
  tdbExistsHash key ((← get).hashFn key).toNat

/-- `tdb_update_hash`: update an entry in place, if the new data fits. -/
def tdbUpdateHash (key : List UInt8) (hash : Nat) (dbuf : List UInt8) : TdbM Unit := do
  let (recPtr, r) ← tdbFind key hash
  -- must be long enough key, data and tailer
  if r.recLen < key.length + dbuf.length + sizeofOff then errcode .success
  else do
    tdbWrite (u32 (recPtr + sizeofRec + r.keyLen)) dbuf
    if dbuf.length ≠ r.dataLen then tdbRecWrite recPtr { r with dataLen := u32 dbuf.length }
    else return ()

/-! ## Deleting -/

/-- The loop of `tdb_do_delete` that finds the previous record in the hash chain. -/
def doDeleteLoop (recPtr : Nat) : Nat → Nat → Nat → TdbM Nat
  | 0, _, _ => throw .diverged
  | fuel + 1, lastPtr, i =>
    if i = recPtr then return lastPtr else do
    let lastrec ← tdbRecRead i
    doDeleteLoop recPtr fuel i lastrec.next

/-- `tdb_do_delete`: actually delete an entry in the database given the offset. -/
def tdbDoDelete (recPtr : Nat) (r : ListStruct) : TdbM Unit := do
  let tdb ← get
  if tdb.readOnly || tdb.traverseRead then throw .failed
  else if recPtr ∈ tdb.travlocks then
    -- someone traversing here: mark it as dead
    tdbRecWrite recPtr { r with magic := tdbDeadMagic }
  else do
    let hashTop := tdbHashTop tdb.hashSize r.fullHash
    let i ← tdbOfsRead hashTop
    let lastPtr ← doDeleteLoop recPtr (tdb.mapSize + 1) 0 i
    -- unlink it: next ptr is at start of record
    tdbOfsWrite (if lastPtr = 0 then hashTop else lastPtr) r.next
    -- recover the space
    tdbFree recPtr r

/-- The walk of `tdb_count_dead`. -/
def countDeadLoop : Nat → Nat → Nat → TdbM Nat
  | 0, _, _ => throw .diverged
  | fuel + 1, res, recPtr =>
    if recPtr = 0 then return res else do
    let r ← tdbRecRead recPtr
    countDeadLoop fuel (if r.magic = tdbDeadMagic then res + 1 else res) r.next

/-- `tdb_count_dead`; errors count as none. -/
def tdbCountDead (hash : Nat) : TdbM Nat := do
  let tdb ← get
  let res ← attempt do
    let recPtr ← tdbOfsRead (tdbHashTop tdb.hashSize hash)
    countDeadLoop (tdb.mapSize + 1) 0 recPtr
  return res.getD 0

/-- The walk of `tdb_purge_dead`. -/
def purgeDeadLoop : Nat → Nat → TdbM Unit
  | 0, _ => throw .diverged
  | fuel + 1, recPtr =>
    if recPtr = 0 then return () else do
    let r ← tdbRecRead recPtr
    (if r.magic = tdbDeadMagic then tdbDoDelete recPtr r else pure ())
    purgeDeadLoop fuel r.next

/-- `tdb_purge_dead`: purge all DEAD records from a hash chain. -/
def tdbPurgeDead (hash : Nat) : TdbM Unit := do
  let tdb ← get
  let recPtr ← tdbOfsRead (tdbHashTop tdb.hashSize hash)
  purgeDeadLoop (tdb.mapSize + 1) recPtr

/-- `tdb_delete_hash`. -/
def tdbDeleteHash (key : List UInt8) (hash : Nat) : TdbM Unit := do
  let tdb ← get
  (if tdb.maxDeadRecords ≠ 0 then do
    let dead ← tdbCountDead hash
    -- don't let the per-chain freelist grow too large
    let _ ← (if (dead : Int) ≥ tdb.maxDeadRecords then attempt (tdbPurgeDead hash) else pure none)
    let (recPtr, r) ← tdbFind key hash
    -- just mark the record as dead
    tdbRecWrite recPtr { r with magic := tdbDeadMagic }
  else do
    let (recPtr, r) ← tdbFind key hash
    tdbDoDelete recPtr r)
  tdbIncrementSeqnum

/-- `tdb_delete`. -/
def tdbDelete (key : List UInt8) : TdbM Unit := do
  tdbDeleteHash key ((← get).hashFn key).toNat

/-! ## Storing -/

/-- The walk of `tdb_find_dead`. -/
def findDeadLoop (length : Nat) : Nat → Nat → TdbM (Nat × ListStruct)
  | 0, _ => throw .diverged
  | fuel + 1, recPtr =>
    if recPtr = 0 then throw .failed else do
    let r ← tdbRecRead recPtr
    -- first fit for simple coding
    if r.dead && r.recLen ≥ length then return (recPtr, r) else findDeadLoop length fuel r.next

/-- `tdb_find_dead`: see if we have a dead record around with enough space. -/
def tdbFindDead (hash length : Nat) : TdbM (Nat × ListStruct) := do
  let tdb ← get
  let recPtr ← tdbOfsRead (tdbHashTop tdb.hashSize hash)
  findDeadLoop length (tdb.mapSize + 1) recPtr

/-- The flag of `tdb_store`. -/
inductive StoreFlag
  | replace | insert | modify
  deriving DecidableEq, Repr

/-- The header `tdb_store` gives the record it stores. -/
def storedRec (r : ListStruct) (key dbuf : List UInt8) (hash : Nat) : ListStruct :=
  { r with keyLen := u32 key.length, dataLen := u32 dbuf.length, fullHash := hash, magic := tdbMagic }

/-- The end of `tdb_store`: space from the free list, at the top of the hash chain. -/
def storeAllocated (key dbuf : List UInt8) (hash : Nat) : TdbM Unit := do
  let tdb ← get
  let hashTop := tdbHashTop tdb.hashSize hash
  (if tdb.maxDeadRecords ≠ 0 then tdbPurgeDead hash else pure ())
  let (recPtr, r) ← tdbAllocate (u32 (key.length + dbuf.length))
  let next ← tdbOfsRead hashTop
  tdbRecWrite recPtr (storedRec { r with next := next } key dbuf hash)
  tdbWrite (u32 (recPtr + sizeofRec)) (key ++ dbuf)
  tdbOfsWrite hashTop recPtr

/-- `tdb_store` once the old record is out of the way: a dead record with enough space, or else
space from the free list. -/
def storeNew (key dbuf : List UInt8) (hash : Nat) : TdbM Unit := do
  if (← get).maxDeadRecords ≠ 0 then do
    match ← attempt (tdbFindDead hash (u32 (key.length + dbuf.length + sizeofOff))) with
    | some (recPtr, r) => do
      tdbRecWrite recPtr (storedRec r key dbuf hash)
      tdbWrite (u32 (recPtr + sizeofRec)) (key ++ dbuf)
    | none => storeAllocated key dbuf hash
  else storeAllocated key dbuf hash

/-- `tdb_store`. -/
def tdbStore (key dbuf : List UInt8) (flag : StoreFlag) : TdbM Unit := do
  let tdb ← get
  if tdb.readOnly || tdb.traverseRead then errcode .errRdonly
  else do
    let hash := (tdb.hashFn key).toNat
    -- check for it existing, on insert
    let done ← (if flag = .insert then do
        if ← tdbExistsHash key hash then errcode .errExists else pure false
      else do
        -- first try in-place update, on modify or replace
        match ← attempt (tdbUpdateHash key hash dbuf) with
        | some _ => pure true
        | none =>
          if (← get).ecode = .errNoexist ∧ flag = .modify then throw .failed else pure false)
    (if !done then do
      -- reset the error code potentially set by the update
      setEcode .success
      -- delete any existing record - if it doesn't exist we don't care
      let _ ← (if flag ≠ .insert then attempt (tdbDeleteHash key hash) else pure none)
      storeNew key dbuf hash
    else pure ())
    tdbIncrementSeqnum

/-- `tdb_append`: append to an entry, create if not exist. A `realloc` to no bytes is taken to give a block. -/
def tdbAppend (key newDbuf : List UInt8) : TdbM Unit := do
  let dbuf ← tdbFetch key
  tdbStore key (dbuf.getD [] ++ newDbuf) .replace

/-! ## A new database -/

/-- The header `tdb_new_database` fills in, followed by the empty free list and hash chains. Only
the magic food of a file is set, and it is not converted. -/
def newDatabaseBytes (hashSize : Nat) (internal convert : Bool) : List UInt8 :=
  (if internal then List.replicate 32 0 else tdbMagicFood)
    ++ convertIf convert (le32 tdbVersion ++ le32 hashSize ++ List.replicate 128 0)
    ++ List.replicate (tdbHashtableSize hashSize) 0

/-- The settings of a database that `tdb_open_ex` and `tdb_set_max_dead` leave to the caller and
to the system. -/
structure OpenArgs where
  hashSize : Nat
  internal : Bool
  noSync : Bool
  convert : Bool
  seqnum : Bool
  mapPtr : Bool
  hashFn : List UInt8 → UInt32
  pageSize : Nat
  maxDeadRecords : Int

/-- `tdb_open_ex` of a database that does not exist yet; `mem` is what memory holds beyond the
new database. -/
def tdbNewDatabase (args : OpenArgs) (mem : Mem) : TdbContext where
  disk := ⟨write mem 0 (newDatabaseBytes args.hashSize args.internal args.convert),
    freelistTop + tdbHashtableSize args.hashSize⟩
  log := []
  mapPtr := args.mapPtr
  mapSize := freelistTop + tdbHashtableSize args.hashSize
  readOnly := false
  traverseRead := false
  ecode := .success
  hashSize := args.hashSize
  internal := args.internal
  noSync := args.noSync
  convert := args.convert
  seqnum := args.seqnum
  travlocks := []
  hashFn := args.hashFn
  methods := .io
  transaction := none
  pageSize := args.pageSize
  maxDeadRecords := args.maxDeadRecords

end Samba.Tdb
