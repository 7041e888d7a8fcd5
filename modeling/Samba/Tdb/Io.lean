/-
Reading and writing the database (lib/tdb/common/io.c), with the transaction versions of the
same methods (lib/tdb/common/transaction.c): every access goes through the method table of the
context, so the code above is the same inside and outside a transaction.
-/
import Samba.Tdb.WriteList

namespace Samba.Tdb

open Bytes

/-! ## Bounds -/

/-- `tdb_oob` of the file: look whether the file has grown before failing. The source's `probe`
only silences the log. -/
def ioOob (len : Nat) : TdbM Unit := do
  let tdb ← get
  if len ≤ tdb.mapSize then return ()
  else if tdb.internal then errcode .errIo
  else if tdb.disk.size < len then errcode .errIo
  else set { tdb with mapSize := tdb.disk.size }

/-- `transaction_oob`. -/
def transactionOob (len : Nat) : TdbM Unit := do
  if len ≤ (← get).mapSize then return () else errcode .errIo

/-- `tdb->methods->tdb_oob`. -/
def tdbOob (len : Nat) : TdbM Unit := do
  match (← get).methods with
  | .io => ioOob len
  | .transaction => transactionOob len

/-! ## The methods of the file -/

/-- `tdb_write`. -/
def ioWrite (off : Nat) (buf : List UInt8) : TdbM Unit := do
  let tdb ← get
  if buf.length = 0 then return ()
  else if tdb.readOnly || tdb.traverseRead then errcode .errRdonly
  else do
    tdbOob (u32 (off + buf.length))
    diskOp (.write off buf)

/-- `tdb_read`. -/
def ioRead (off len : Nat) (cv : Bool) : TdbM (List UInt8) := do
  tdbOob (u32 (off + len))
  return convertIf cv (read (← get).disk.bytes off len)

/-- The loop of `tdb_expand_file` that fills the new space, 1024 bytes at a time. -/
def expandFileFill : Nat → Nat → Nat → TdbM Unit
  | 0, _, _ => throw .diverged
  | fuel + 1, size, addition =>
    if addition = 0 then return () else do
    let n := min addition 1024
    diskOp (.write size (List.replicate n tdbPadByte))
    expandFileFill fuel (size + n) (addition - n)

/-- `tdb_expand_file`. -/
def ioExpandFile (size addition : Nat) : TdbM Unit := do
  let tdb ← get
  if tdb.readOnly || tdb.traverseRead then errcode .errRdonly
  else do
    diskOp (.truncate (u32 (size + addition)))
    expandFileFill (addition + 1) size addition

/-! ## The methods of a transaction -/

/-- The `fail` path of `transaction_read` and `transaction_write`. -/
def transactionFail {α : Type} : TdbM α := fun tdb =>
  .error .failed { tdb with
    ecode := .errIo
    transaction := tdb.transaction.map fun t => { t with transactionError := true } }

/-- The body of the loop of `transaction_read` for an extent that the read meets, with `go` for
the recursive calls: up to 2 reads and a memcpy. The buffer holds `buf` before. -/
def transactionReadEl (go : Nat → List UInt8 → TdbM (List UInt8)) (el : TransactionEl) (off : Nat)
    (buf : List UInt8) (cv : Bool) : TdbM (List UInt8) := do
  let head := el.offset - off
  let first ← (if off < el.offset then attempt (go off (buf.take head)) else pure (some []))
  match first with
  | none => transactionFail
  | some first => do
    let off := off + head
    let buf := buf.drop head
    let part := if off + buf.length ≤ el.offset + el.length then buf.length
      else el.offset + el.length - off
    let buf := convertIf cv ((el.data.drop (off - el.offset)).take part ++ buf.drop part)
    let last ← (if buf.length - part ≠ 0 then attempt (go (off + part) (buf.drop part)) else pure (some []))
    match last with
    | none => transactionFail
    | some last => return first ++ buf.take part ++ last

/-- `transaction_read` into a buffer that holds `buf` before. The fuel bounds the splitting. -/
def transactionRead (cv : Bool) : Nat → Nat → List UInt8 → TdbM (List UInt8)
  | 0, _, _ => throw .diverged
  | fuel + 1, off, buf => do
    match (← get).transaction with
    | none => throw .crashed
    | some t =>
      -- we need to walk the list backwards to get the most recent data
      match t.elements.reverse.find? fun el => el.meets off buf.length with
      | some el => transactionReadEl (transactionRead cv fuel) el off buf cv
      | none => ioRead off buf.length cv

/-- `transaction_write` on the transaction of the context. -/
def transactionMethodWrite (off : Nat) (buf : WriteBuf) : TdbM Unit := do
  let tdb ← get
  match tdb.transaction with
  | none => throw .crashed
  | some t =>
    match transactionWrite tdb.hashSize (buf.length + 1) t off buf with
    | .ok t => set { tdb with transaction := some t }
    | .error e => throw e

/-- `transaction_expand_file`. -/
def transactionExpandFile (size addition : Nat) : TdbM Unit :=
  transactionMethodWrite size (.null addition)

/-! ## Through the method table -/

/-- `tdb->methods->tdb_read`. -/
def tdbRead (off len : Nat) (cv : Bool) : TdbM (List UInt8) := do
  match (← get).methods with
  | .io => ioRead off len cv
  | .transaction => transactionRead cv (len + 1) off (List.replicate len 0)

/-- `tdb->methods->tdb_write`. -/
def tdbWrite (off : Nat) (buf : List UInt8) : TdbM Unit := do
  match (← get).methods with
  | .io => ioWrite off buf
  | .transaction => transactionMethodWrite off (.data buf)

/-- `tdb->methods->tdb_expand_file`. -/
def tdbExpandFile (size addition : Nat) : TdbM Unit := do
  match (← get).methods with
  | .io => ioExpandFile size addition
  | .transaction => transactionExpandFile size addition

/-- `tdb_ofs_read`. -/
def tdbOfsRead (offset : Nat) : TdbM Nat := do
  return leNat (← tdbRead offset sizeofOff (← get).convert)

/-- `tdb_ofs_write`. -/
def tdbOfsWrite (offset d : Nat) : TdbM Unit := do
  tdbWrite offset (convertIf (← get).convert (le32 d))

/-- A record header read through the method table, as it is. -/
def tdbRecGet (offset : Nat) : TdbM ListStruct := do
  return .ofBytes (← tdbRead offset sizeofRec (← get).convert)

/-- `tdb_rec_read`. -/
def tdbRecRead (offset : Nat) : TdbM ListStruct := do
  let r ← tdbRecGet offset
  if r.badMagic then errcode .errCorrupt
  else do
    tdbOob (u32 (r.next + sizeofRec))
    return r

/-- `tdb_rec_write`. -/
def tdbRecWrite (offset : Nat) (r : ListStruct) : TdbM Unit := do
  tdbWrite offset (convertIf (← get).convert r.toBytes)

/-- `tdb_alloc_read`: nothing is read as one byte. -/
def tdbAllocRead (offset len : Nat) : TdbM (List UInt8) := do
  let buf ← tdbRead offset (if len = 0 then 1 else len) false
  return buf.take len

/-- `tdb_parse_data` with `tdb_key_compare`: whether the `len` bytes at `offset` are those of `key`.
A mapped file is compared in place, after a bounds check; without a map, or in a transaction, the
bytes are read. -/
def tdbParseKey (key : List UInt8) (offset len : Nat) : TdbM Bool := do
  let tdb ← get
  if tdb.transaction.isNone && tdb.mapPtr then do
    tdbOob (u32 (offset + len))
    return read (← get).disk.bytes offset len == key.take len
  else
    return (← tdbAllocRead offset len) == key.take len

end Samba.Tdb
