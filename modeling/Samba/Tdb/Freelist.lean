/-
The free list (lib/tdb/common/freelist.c) and the growth of the file that feeds it (`tdb_expand`
in io.c). The loops take their fuel from the size of the map: a chain through distinct records is
shorter than that.
-/
import Samba.Tdb.Io

namespace Samba.Tdb

/-- `tdb_rec_free_read`: read a freelist record and check for simple errors. -/
def tdbRecFreeRead (off : Nat) : TdbM ListStruct := do
  let r ← tdbRecGet off
  let r ← (if r.magic = tdbMagic then do
      -- this happens when a app is showdown while deleting a record
      let r := { r with magic := tdbFreeMagic }
      -- the fixed header is written back in host order
      tdbWrite off r.toBytes
      pure r
    else pure r)
  if r.magic ≠ tdbFreeMagic then errcode .errCorrupt
  else do
    tdbOob (u32 (r.next + sizeofRec))
    return r

/-- The loop of `remove_from_freelist`. -/
def removeFromFreelistLoop (off next : Nat) : Nat → Nat → TdbM Unit
  | 0, _ => throw .diverged
  | fuel + 1, lastPtr => do
    match ← attempt (tdbOfsRead lastPtr) with
    | none => errcode .errCorrupt
    | some i =>
      if i = 0 then errcode .errCorrupt
      else if i = off then tdbOfsWrite lastPtr next
      else removeFromFreelistLoop off next fuel i

/-- `remove_from_freelist`. -/
def removeFromFreelist (off next : Nat) : TdbM Unit := do
  removeFromFreelistLoop off next (← get).mapSize freelistTop

/-- `update_tailer`. -/
def updateTailer (offset : Nat) (r : ListStruct) : TdbM Unit := do
  let totalsize := u32 (sizeofRec + r.recLen)
  tdbOfsWrite (sub32 (offset + totalsize) sizeofOff) totalsize

/-- `tdb_free` up to the label `left`: take in a free record to the right. -/
def freeRight (offset : Nat) (r : ListStruct) : TdbM ListStruct := do
  let right := u32 (offset + sizeofRec + r.recLen)
  if right + sizeofRec ≤ (← get).mapSize then do
    match ← attempt (tdbRecGet right) with
    | none => return r
    | some rr =>
      if rr.magic = tdbFreeMagic then do
        match ← attempt (removeFromFreelist right rr.next) with
        | none => return r
        | some _ => return { r with recLen := u32 (r.recLen + sizeofRec + rr.recLen) }
      else return r
  else return r

/-- `tdb_free` from the label `left` to `update`: become part of a free record to the left. -/
def freeLeft (offset : Nat) (r : ListStruct) : TdbM (Nat × ListStruct) := do
  let left := sub32 offset sizeofOff
  if left > tdbDataStart (← get).hashSize then do
    match ← attempt (tdbOfsRead left) with
    | none => return (offset, r)
    | some leftsize =>
      -- it could be uninitialised data
      if leftsize = 0 ∨ leftsize = tdbPadU32 then return (offset, r)
      else do
        let left := sub32 offset leftsize
        match ← attempt (tdbRecGet left) with
        | none => return (offset, r)
        | some l =>
          if l.magic = tdbFreeMagic then do
            match ← attempt (removeFromFreelist left l.next) with
            | none => return (offset, r)
            | some _ => return (left, { r with recLen := u32 (r.recLen + leftsize) })
          else return (offset, r)
  else return (offset, r)

/-- `tdb_free`. -/
def tdbFree (offset : Nat) (r : ListStruct) : TdbM Unit := do
  -- set an initial tailer, so if we fail we don't leave a bogus record
  updateTailer offset r
  let r ← freeRight offset r
  let (offset, r) ← freeLeft offset r
  updateTailer offset r
  -- now, prepend to free list
  let next ← tdbOfsRead freelistTop
  tdbRecWrite offset { r with next := next, magic := tdbFreeMagic }
  tdbOfsWrite freelistTop offset

/-- `tdb_expand`. -/
def tdbExpand (size : Nat) : TdbM Unit := do
  -- must know about any previous expansions by another process
  let _ ← attempt (tdbOob (u32 ((← get).mapSize + 1)))
  let tdb ← get
  -- always make room for at least 10 more records, and round the database up to a multiple of
  -- the page size
  let size := sub32 (tdbAlign (u32 (tdb.mapSize + u32 (size * 10))) tdb.pageSize) tdb.mapSize
  (if !tdb.internal then tdbExpandFile tdb.mapSize size else pure ())
  modify fun tdb => { tdb with mapSize := u32 (tdb.mapSize + size) }
  -- form a new freelist record and link it into the free list
  tdbFree (sub32 (← get).mapSize size) { recLen := sub32 size sizeofRec }

/-- `tdb_allocate_ofs`: use the free record `r` at `recPtr`, which `lastPtr` points to. -/
def tdbAllocateOfs (length recPtr : Nat) (r : ListStruct) (lastPtr : Nat) : TdbM (Nat × ListStruct) := do
  if r.recLen > length + minRecSize then do
    -- split it: the left piece is allocated, the right piece goes on the free list
    let length := tdbAlign length tdbAlignment
    let newrec : ListStruct := { recLen := sub32 r.recLen (sizeofRec + length) }
    let newrecPtr := u32 (recPtr + sizeofRec + length)
    let r := { r with recLen := length }
    tdbOfsWrite lastPtr r.next
    let r := { r with magic := tdbMagic }
    tdbRecWrite recPtr r
    updateTailer recPtr r
    tdbFree newrecPtr newrec
    return (recPtr, r)
  else do
    tdbOfsWrite lastPtr r.next
    let r := { r with magic := tdbMagic }
    tdbRecWrite recPtr r
    return (recPtr, r)

/-- The `bestfit` of `tdb_allocate`. -/
structure Bestfit where
  recPtr : Nat := 0
  lastPtr : Nat := 0
  recLen : Nat := 0
  deriving DecidableEq, Repr

/-- The walk of `tdb_allocate` down the free list. -/
def bestfitLoop (length : Nat) : Nat → Bestfit → Nat → Nat → TdbM Bestfit
  | 0, _, _, _ => throw .diverged
  | fuel + 1, bestfit, lastPtr, recPtr =>
    if recPtr = 0 then return bestfit else do
    let r ← tdbRecFreeRead recPtr
    if r.recLen ≥ length ∧ (bestfit.recPtr = 0 ∨ r.recLen < bestfit.recLen) then
      -- consider a fit to be good enough if we aren't wasting more than half the space
      if r.recLen < u32 (2 * length) then return ⟨recPtr, lastPtr, r.recLen⟩
      else bestfitLoop length fuel ⟨recPtr, lastPtr, r.recLen⟩ recPtr r.next
    else bestfitLoop length fuel bestfit recPtr r.next

/-- `tdb_allocate` from the label `again`; the fuel bounds how often the file is expanded. -/
def tdbAllocateAgain (length : Nat) : Nat → TdbM (Nat × ListStruct)
  | 0 => throw .diverged
  | fuel + 1 => do
    let recPtr ← tdbOfsRead freelistTop
    let bestfit ← bestfitLoop length ((← get).mapSize + 1) {} freelistTop recPtr
    if bestfit.recPtr ≠ 0 then do
      let r ← tdbRecFreeRead bestfit.recPtr
      tdbAllocateOfs length bestfit.recPtr r bestfit.lastPtr
    else do
      -- we didn't find enough space: see if we can expand the database, then try again
      tdbExpand (u32 (length + sizeofRec))
      tdbAllocateAgain length fuel

/-- `tdb_allocate`: the offset of a record with room for `length` bytes and its tailer. The
source returns 0 where this fails. -/
def tdbAllocate (length : Nat) : TdbM (Nat × ListStruct) := do
  tdbAllocateAgain (u32 (length + sizeofOff)) (← get).mapSize

end Samba.Tdb
