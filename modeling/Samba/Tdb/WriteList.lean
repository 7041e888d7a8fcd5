/-
The write list of a transaction (lib/tdb/common/transaction.c, `transaction_write`): the extents
written since the transaction started, kept in the order they were first written. A write is
split against the extents it meets, and what meets none extends an extent or becomes a new one.
-/
import Samba.Tdb.Context

namespace Samba.Tdb

open Bytes

/-- The index of the last element that satisfies `p`: the list is walked backwards. -/
def lastIdx? {α : Type} (p : α → Bool) : List α → Option Nat
  | [] => none
  | x :: xs => match lastIdx? p xs with
    | some i => some (i + 1)
    | none => if p x then some 0 else none

/-- The buffer argument of `transaction_write`: `len` bytes, or a null pointer and a length. -/
inductive WriteBuf
  | data (buf : List UInt8)
  | null (len : Nat)
  deriving DecidableEq, Repr

namespace WriteBuf

def length : WriteBuf → Nat
  | data buf => buf.length
  | null len => len

def take (n : Nat) : WriteBuf → WriteBuf
  | data buf => data (buf.take n)
  | null len => null (min n len)

def drop (n : Nat) : WriteBuf → WriteBuf
  | data buf => data (buf.drop n)
  | null len => null (len - n)

/-- What an extent made from the buffer holds: a null buffer means pad bytes. -/
def content : WriteBuf → List UInt8
  | data buf => buf
  | null len => List.replicate len tdbPadByte

end WriteBuf

/-- Whether a request for `len` bytes at `off` meets the extent. -/
def TransactionEl.meets (el : TransactionEl) (off len : Nat) : Bool :=
  !(off + len ≤ el.offset) && !(el.offset + el.length ≤ off)

/-- The extent with `buf` copied in at `off`. -/
def TransactionEl.memcpy (el : TransactionEl) (off : Nat) (buf : List UInt8) : TransactionEl :=
  { el with data := el.data.take (off - el.offset) ++ buf ++ el.data.drop (off - el.offset + buf.length) }

/-- The mirror of the hash heads follows writes of one head. -/
def updateHashHeads (hashSize : Nat) (t : Transaction) (off : Nat) (buf : WriteBuf) : Except Stop Transaction :=
  if buf.length = sizeofOff ∧ freelistTop ≤ off ∧ off < freelistTop + tdbHashtableSize hashSize then
    match buf with
    | .data buf => .ok { t with hashHeads := t.hashHeads.set ((off - freelistTop) / sizeofOff) (leNat buf) }
    | .null _ => .error .crashed
  else .ok t

/-- The end of `transaction_write`, for bytes that no extent holds. -/
def transactionAdd (t : Transaction) (off : Nat) (buf : WriteBuf) : Transaction :=
  -- see if we can append the new entry to an existing entry
  match lastIdx? (fun el => el.offset + el.length == off) t.elements with
  | some i =>
    if off + buf.length < t.oldMapSize ∨ t.oldMapSize < off then
      { t with elements := t.elements.modify i fun el => { el with data := el.data ++ buf.content } }
    else { t with elements := t.elements ++ [⟨off, buf.content⟩] }
  | none => { t with elements := t.elements ++ [⟨off, buf.content⟩] }

/-- The body of the loop of `transaction_write` for an extent that the write meets, with `go` for
the recursive calls: up to 2 writes and a memcpy. -/
def transactionReplace (go : Transaction → Nat → WriteBuf → Except Stop Transaction) (t : Transaction)
    (i off : Nat) (buf : WriteBuf) : Except Stop Transaction := do
  let el := t.elements.getD i ⟨0, []⟩
  let head := el.offset - off
  let t ← (if off < el.offset then go t off (buf.take head) else .ok t)
  let off := off + head
  match buf.drop head with
  | .null _ => .error .crashed
  | .data buf =>
    let part := if off + buf.length ≤ el.offset + el.length then buf.length
      else el.offset + el.length - off
    let t := { t with elements := t.elements.modify i fun el => el.memcpy off (buf.take part) }
    if buf.length - part ≠ 0 then go t (off + part) (.data (buf.drop part)) else .ok t

/-- `transaction_write`. The fuel bounds the splitting. -/
def transactionWrite (hashSize : Nat) : Nat → Transaction → Nat → WriteBuf → Except Stop Transaction
  | 0, _, _, _ => .error .diverged
  | fuel + 1, t, off, buf =>
    if buf.length = 0 then .ok t else do
    let t ← updateHashHeads hashSize t off buf
    -- first see if we can replace an existing entry
    match lastIdx? (fun el => el.meets off buf.length) t.elements with
    | some i => transactionReplace (transactionWrite hashSize fuel) t i off buf
    | none => .ok (transactionAdd t off buf)

end Samba.Tdb
