/-
Traversal of a database (lib/tdb/common/traverse.c). The lock on the record a traversal stands at is the one at the head of the
locked records; the locks on the chains and on the transaction are those of `fcntl`, and succeed.
-/
import Samba.Tdb.Store

namespace Samba.Tdb

open Bytes

/-! ## The lock -/

/-- `tlock->off`. -/
def tlockOff : TdbM Nat := do return (← get).travlocks.headD 0

/-- Assignment to `tlock->off`. -/
def setTlockOff (off : Nat) : TdbM Unit := modify fun tdb => { tdb with travlocks := off :: tdb.travlocks.tail }

/-! ## The next record -/

/-- The loop of `tdb_next_hash_chain` for `n` more chains. A mapped file is looked at in place. -/
def ioNextHashChain : Nat → Nat → TdbM Nat
  | 0, h => return h
  | n + 1, h => do
    let tdb ← get
    let top := tdbHashTop tdb.hashSize h
    let off ← (if tdb.mapPtr then pure (some (leNat (read tdb.disk.bytes top sizeofOff))) else attempt (tdbOfsRead top))
    if off = some 0 then ioNextHashChain n (h + 1) else return h

/-- `tdb->methods->next_hash_chain`: the next chain that is not empty, or the hash size. -/
def nextHashChain (hash : Nat) : TdbM Nat := do
  let tdb ← get
  match tdb.methods with
  | .io => ioNextHashChain (tdb.hashSize - hash) hash
  | .transaction =>
    match tdb.transaction with
    | none => throw .crashed
    | some t =>
      -- the heads have that of the free list in front
      return hash + ((t.hashHeads.drop (hash + 1)).take (tdb.hashSize - hash)).findIdx fun head => head ≠ 0

/-- The loop of `tdb_next_lock` through a chain: the next record that is not dead. -/
def nextInChain : Nat → TdbM (Option ListStruct)
  | 0 => throw .diverged
  | fuel + 1 => do
    let current ← tlockOff
    if current = 0 then return none else do
    let r ← tdbRecRead current
    -- detect infinite loops
    if current = r.next then throw .failed
    else if !r.dead then return some r
    else do
      -- try to clean dead ones from old traverses
      setTlockOff r.next
      let tdb ← get
      (if !(tdb.readOnly || tdb.traverseRead) then tdbDoDelete current r else pure ())
      nextInChain fuel

/-- The loop of `tdb_next_lock` over the chains, from chain `hash`: the chain and the record, or `none` at the end. -/
def nextLockLoop : Nat → Bool → Nat → TdbM (Option (Nat × ListStruct))
  | 0, _, _ => throw .diverged
  | fuel + 1, wantNext, hash => do
    let tdb ← get
    if tdb.hashSize ≤ hash then return none else do
    let off ← tlockOff
    -- an optimisation for the common case where the hash chain is empty
    let hash ← (if off = 0 ∧ hash ≠ 0 then nextHashChain hash else pure hash)
    if hash = tdb.hashSize then return none else do
    -- no previous record: start at the top of the chain
    (if off = 0 then do setTlockOff (← tdbOfsRead (tdbHashTop tdb.hashSize hash)) else pure ())
    -- the offset of the old record: grab the next
    (if wantNext then do setTlockOff (← tdbRecRead (← tlockOff)).next else pure ())
    match ← nextInChain (tdb.mapSize + 1) with
    | some r => return some (hash, r)
    | none => nextLockLoop fuel false (hash + 1)

/-- An offset returned as an `int`. -/
def offsetAsInt (off : Nat) : Int := (off : Int).bmod (2 ^ 32)

/-- `tdb_next_lock` from chain `hash`: 0 at the end, -1 on an error, or else the offset of the record, as an `int`; with the chain
and the record. -/
def tdbNextLock (hash : Nat) : TdbM (Int × Nat × ListStruct) := do
  let tdb ← get
  let off ← tlockOff
  match ← attempt (nextLockLoop (tdb.hashSize - hash + 1) (off ≠ 0) hash) with
  | none => do
    setTlockOff 0
    return (-1, hash, {})
  | some none => do
    setEcode .success
    return (0, hash, {})
  | some (some (hash, r)) => return (offsetAsInt (← tlockOff), hash, r)

/-! ## The traversal -/

section Traversal

variable {σ : Type}

/-- `tdb_traverse_func`: called with a key, its data and the private data, it says whether the traversal should stop. -/
abbrev TdbTraverseFunc (σ : Type) := List UInt8 → List UInt8 → σ → TdbM (Bool × σ)

/-- The loop of `tdb_traverse_internal`; the result goes with the private data. -/
def traverseLoop (fn : TdbTraverseFunc σ) : Nat → Nat → Nat → σ → TdbM (Int × σ)
  | 0, _, _, _ => throw .diverged
  | fuel + 1, hash, count, privateData => do
    let (ret, hash, r) ← tdbNextLock hash
    if ret > 0 then do
      -- now read the full record
      match ← attempt (tdbAllocRead (u32 ((← tlockOff) + sizeofRec)) (u32 (r.keyLen + r.dataLen))) with
      | none => return (-1, privateData)
      | some buf => do
        let (stop, privateData) ← fn (buf.take r.keyLen) ((buf.drop r.keyLen).take r.dataLen) privateData
        -- they want us to terminate the traversal
        if stop then return (count + 1, privateData) else traverseLoop fn fuel hash (count + 1) privateData
    else return (if ret < 0 then -1 else count, privateData)

/-- `tdb_traverse_internal`. -/
def tdbTraverseInternal (fn : TdbTraverseFunc σ) (privateData : σ) : TdbM (Int × σ) := do
  let tdb ← get
  modify fun t => { t with travlocks := 0 :: t.travlocks }
  let ret ← traverseLoop fn (tdb.mapSize + 1) 0 0 privateData
  modify fun t => { t with travlocks := tdb.travlocks }
  return ret

/-- `tdb_traverse_read`: temporarily marks the database read only. -/
def tdbTraverseRead (fn : TdbTraverseFunc σ) (privateData : σ) : TdbM (Int × σ) := do
  let tdb ← get
  modify fun t => { t with traverseRead := true }
  let ret ← tdbTraverseInternal fn privateData
  modify fun t => { t with traverseRead := tdb.traverseRead }
  return ret

/-- `tdb_traverse`: the result is -1 on an error, or the number of records passed. -/
def tdbTraverse (fn : TdbTraverseFunc σ) (privateData : σ) : TdbM (Int × σ) := do
  let tdb ← get
  if tdb.readOnly || tdb.traverseRead then tdbTraverseRead fn privateData else tdbTraverseInternal fn privateData

end Traversal

/-! ## Callbacks that do not store -/

/-- What a callback does: calls that store nothing, each depending on the replies before, and at the end whether to stop, with the
private data. -/
inductive Callback (σ : Type) where
  | done (stop : Bool) (privateData : σ)
  | delete (key : List UInt8) (next : Bool → Callback σ)
  | fetch (key : List UInt8) (next : Option (List UInt8) → Callback σ)
  | exists_ (key : List UInt8) (next : Bool → Callback σ)

/-- What the function given to the traversal does with a record. -/
def Callback.run {σ : Type} : Callback σ → TdbM (Bool × σ)
  | .done stop privateData => return (stop, privateData)
  | .delete key next => do (next (← attempt (tdbDelete key)).isSome).run
  | .fetch key next => do (next (← tdbFetch key)).run
  | .exists_ key next => do (next (← tdbExists key)).run

/-- What a traversal has passed to its callback so far, whether the callback stopped it, and the private data of the callback. -/
structure Passing (σ : Type) where
  passed : List (List UInt8 × List UInt8)
  stopped : Bool
  privateData : σ

/-- The callback, with a record of what is passed to it. -/
def logged {σ : Type} (fn : List UInt8 → List UInt8 → σ → Callback σ) : TdbTraverseFunc (Passing σ) :=
  fun key dbuf p => do
    let (stop, privateData) ← (fn key dbuf p.privateData).run
    return (stop, ⟨p.passed ++ [(key, dbuf)], stop, privateData⟩)

end Samba.Tdb
