/-
The trivial database (lib/tdb): its on-disk words and records, the open context and the disk
under it. One process holds the database; `fcntl` locks, system calls on the file and allocation
succeed, and a mapped and an unmapped file are the same bytes. The host is little-endian.
-/
import Samba.Lib.Bytes

namespace Samba.Tdb

open Bytes

/-! ## 32-bit words -/

/-- A value stored into a `tdb_off_t`, `tdb_len_t` or `u32`. -/
def u32 (n : Nat) : Nat := n % 2 ^ 32

/-- 32-bit subtraction. -/
def sub32 (a b : Nat) : Nat := u32 (a + (2 ^ 32 - u32 b))

/-- `TDB_ALIGN(x, a)`. -/
def tdbAlign (x a : Nat) : Nat := u32 (x + (a - 1)) &&& (2 ^ 32 - 1 - (a - 1))

/-- `tdb_convert`: reverse the bytes of every 4 byte quantity, leaving a shorter rest alone. -/
def tdbConvert : List UInt8 → List UInt8
  | a :: b :: c :: d :: rest => d :: c :: b :: a :: tdbConvert rest
  | rest => rest

/-- `tdb_convert` where a flag asks for it, as `CONVERT(x)` on the bytes of a word or a record. -/
def convertIf (cv : Bool) (buf : List UInt8) : List UInt8 := if cv then tdbConvert buf else buf

def tdbMagic : Nat := 0x26011999
def tdbFreeMagic : Nat := 2 ^ 32 - 1 - tdbMagic
def tdbDeadMagic : Nat := 0xFEE1DEAD
def tdbRecoveryMagic : Nat := 0xf53bc0e7
def tdbVersion : Nat := 0x26011967 + 6
def tdbPadByte : UInt8 := 0x42
def tdbPadU32 : Nat := 0x42424242
def tdbAlignment : Nat := 4

/-- `sizeof(struct list_struct)`. -/
def sizeofRec : Nat := 24

/-- `sizeof(tdb_off_t)`. -/
def sizeofOff : Nat := 4

def minRecSize : Nat := 2 * sizeofRec + tdbAlignment

/-- `FREELIST_TOP`, which is `sizeof(struct tdb_header)`. -/
def freelistTop : Nat := 168

/-- `offsetof(struct tdb_header, recovery_start)`. -/
def tdbRecoveryHead : Nat := 44

/-- `offsetof(struct tdb_header, sequence_number)`. -/
def tdbSeqnumOfs : Nat := 48

/-- `offsetof(struct list_struct, magic)`. -/
def offsetofMagic : Nat := 20

/-- `TDB_MAGIC_FOOD`, "TDB file" and a newline, with the zeros that fill the 32 bytes of the field. -/
def tdbMagicFood : List UInt8 :=
  [0x54, 0x44, 0x42, 0x20, 0x66, 0x69, 0x6c, 0x65, 0x0a] ++ List.replicate 23 0

/-! ## Records -/

/-- `struct list_struct`: the header of a record. -/
structure ListStruct where
  next : Nat := 0
  recLen : Nat := 0
  keyLen : Nat := 0
  dataLen : Nat := 0
  fullHash : Nat := 0
  magic : Nat := 0
  deriving DecidableEq, Repr

namespace ListStruct

/-- The header as it lies in memory, in host byte order. -/
def toBytes (r : ListStruct) : List UInt8 :=
  le32 r.next ++ le32 r.recLen ++ le32 r.keyLen ++ le32 r.dataLen ++ le32 r.fullHash ++ le32 r.magic

def ofBytes (bs : List UInt8) : ListStruct where
  next := leNat (bs.take 4)
  recLen := leNat ((bs.drop 4).take 4)
  keyLen := leNat ((bs.drop 8).take 4)
  dataLen := leNat ((bs.drop 12).take 4)
  fullHash := leNat ((bs.drop 16).take 4)
  magic := leNat ((bs.drop 20).take 4)

/-- `TDB_DEAD(r)`. -/
def dead (r : ListStruct) : Bool := r.magic == tdbDeadMagic

/-- `TDB_BAD_MAGIC(r)`. -/
def badMagic (r : ListStruct) : Bool := r.magic != tdbMagic && !r.dead

end ListStruct

/-! ## The disk -/

/-- What is asked of the file: a `pwrite` (or a store into the mapped file), an `ftruncate`, an
`fsync`. -/
inductive DiskOp
  | write (off : Nat) (buf : List UInt8)
  | truncate (size : Nat)
  | sync
  deriving DecidableEq, Repr

/-- The file: its bytes and its size. -/
structure Disk where
  bytes : Mem
  size : Nat

/-- `ftruncate` fills what it adds with zeros. -/
def Disk.apply (d : Disk) : DiskOp → Disk
  | .write off buf => { d with bytes := write d.bytes off buf }
  | .truncate size => ⟨fun a => if a < d.size ∧ a < size then d.bytes a else 0, size⟩
  | .sync => d

/-! ## The context -/

/-- `enum TDB_ERROR`, the codes the calls here set. -/
inductive TdbError
  | success | errCorrupt | errIo | errLock | errExists | errNoexist | errEinval | errRdonly
  deriving DecidableEq, Repr

/-- `struct tdb_transaction_el`: one extent written in the transaction. -/
structure TransactionEl where
  offset : Nat
  data : List UInt8
  deriving DecidableEq, Repr

def TransactionEl.length (el : TransactionEl) : Nat := el.data.length

/-- `struct tdb_transaction`; `elements` has the first element at the front. -/
structure Transaction where
  hashHeads : List Nat
  elements : List TransactionEl
  transactionError : Bool
  nesting : Nat
  oldMapSize : Nat
  deriving DecidableEq, Repr

/-- Which `struct tdb_methods` the context uses. -/
inductive Methods
  | io | transaction
  deriving DecidableEq, Repr

/-- `struct tdb_context`, and the file behind it with the record `log` of what was asked of it.
For an internal database `disk.bytes` is the allocated memory and `disk.size` is not used. -/
structure TdbContext where
  disk : Disk
  log : List DiskOp
  /-- Whether `map_ptr` is set. -/
  mapPtr : Bool
  mapSize : Nat
  readOnly : Bool
  traverseRead : Bool
  ecode : TdbError
  hashSize : Nat
  internal : Bool
  noSync : Bool
  convert : Bool
  seqnum : Bool
  /-- The records locked by a traversal of this process. -/
  travlocks : List Nat
  hashFn : List UInt8 → UInt32
  methods : Methods
  transaction : Option Transaction
  pageSize : Nat
  maxDeadRecords : Int

/-- How a call can fail to return normally: it returns an error to its caller, it never
returns, or it goes through a null pointer or past the end of a block. -/
inductive Stop
  | failed | diverged | crashed
  deriving DecidableEq, Repr

abbrev TdbM := EStateM Stop TdbContext

/-- `TDB_ERRCODE(code, ret)` in a `return`. -/
def errcode {α : Type} (e : TdbError) : TdbM α := fun tdb => .error .failed { tdb with ecode := e }

def setEcode (e : TdbError) : TdbM Unit := fun tdb => .ok () { tdb with ecode := e }

/-- A call whose failure the caller looks at (`if (f(..) == -1)`). -/
def attempt {α : Type} (x : TdbM α) : TdbM (Option α) := fun tdb =>
  match x tdb with
  | .ok a tdb' => .ok (some a) tdb'
  | .error .failed tdb' => .ok none tdb'
  | .error e tdb' => .error e tdb'

/-- Ask something of the file. -/
def diskOp (op : DiskOp) : TdbM Unit := fun tdb =>
  .ok () { tdb with disk := tdb.disk.apply op, log := tdb.log ++ [op] }

/-! ## Running calls -/

section Run

variable {α β : Type} {x : TdbM α} {f : α → TdbM β} {a : α} {e : Stop} {s s' : TdbContext}

theorem bind_ok (h : x s = .ok a s') : (x >>= f) s = f a s' := by
  simp only [bind, EStateM.bind, h]

theorem bind_error (h : x s = .error e s') : (x >>= f) s = .error e s' := by
  simp only [bind, EStateM.bind, h]

@[simp] theorem get_bind (g : TdbContext → TdbM β) : (get >>= g) s = g s s := rfl

@[simp] theorem pure_apply : (pure a : TdbM α) s = .ok a s := rfl

@[simp] theorem set_apply : (set s' : TdbM PUnit) s = .ok () s' := rfl

@[simp] theorem modify_apply (g : TdbContext → TdbContext) : (modify g : TdbM PUnit) s = .ok () (g s) := rfl

theorem attempt_ok (h : x s = .ok a s') : attempt x s = .ok (some a) s' := by
  simp only [attempt, h]

theorem attempt_failed (h : x s = .error .failed s') : attempt x s = .ok none s' := by
  simp only [attempt, h]

end Run

/-- `TDB_HASH_TOP(hash)`. -/
def tdbHashTop (hashSize hash : Nat) : Nat := freelistTop + (hash % hashSize + 1) * sizeofOff

/-- `TDB_HASHTABLE_SIZE(tdb)`. -/
def tdbHashtableSize (hashSize : Nat) : Nat := (hashSize + 1) * sizeofOff

/-- `TDB_DATA_START(hash_size)`. -/
def tdbDataStart (hashSize : Nat) : Nat := tdbHashTop hashSize (hashSize - 1)

end Samba.Tdb
