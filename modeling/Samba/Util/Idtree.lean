/-
The id tree (lib/util/idtree.c): a radix tree from ids to pointers, five bits of the id to a layer,
in which a bit of a layer is set when the part of the tree under it is full. An outcome `none` is
behaviour that C leaves undefined: a shift by 32 bits or more, or an index outside of `pa`.
-/
import Mathlib.Algebra.Ring.Int.Defs
import Mathlib.Algebra.Ring.Nat
import Mathlib.Data.List.Basic

namespace Samba.Util

open Function

def idrBits : Nat := 5

/-- `IDR_FULL`. -/
def idrFull : BitVec 32 := 0xffffffff#32

/-- `IDR_SIZE`. -/
def idrSize : Nat := 32

/-- `IDR_MASK`. -/
def idrMask : Nat := 31

/-- `MAX_ID_BIT`. -/
def maxIdBit : Nat := 2 ^ 31

/-- `MAX_LEVEL`. -/
def maxLevel : Nat := 7

/-- `IDR_FREE_MAX`. -/
def idrFreeMax : Nat := 14

instance neZero_idrSize : NeZero 32 := ⟨by decide⟩

/-- An entry of `ary`: a null pointer, what the user stored in a layer at the bottom, or a
`struct idr_layer`. -/
inductive Slot (α : Type)
  | null
  | user (ptr : α)
  | layer (bitmap : BitVec 32) (ary : Fin 32 → Slot α) (count : Int)

namespace Slot

variable {α : Type}

/-- A layer as `talloc_zero` gives it. -/
def zero : Slot α := .layer 0 (fun _ => .null) 0

/-- The bitmap of a layer is `IDR_FULL`. -/
def isFull : Slot α → Bool
  | .layer bitmap _ _ => bitmap == idrFull
  | _ => false

/-- `p->count`. -/
def count : Slot α → Int
  | .layer _ _ count => count
  | _ => 0

/-- `p->ary[i]`. -/
def child (i : Fin 32) : Slot α → Slot α
  | .layer _ ary _ => ary i
  | _ => .null

end Slot

/-- `struct idr_context`. The first layer of the free list is at the front; its length is
`id_free_cnt`. -/
structure IdrContext (α : Type) where
  top : Slot α
  idFree : List (Slot α)
  layers : Nat

section Idtree

variable {α : Type}

/-- `(id >> (IDR_BITS*l)) & IDR_MASK`. -/
def idrDigit (l id : Nat) : Fin 32 := ⟨(id >>> (idrBits * l)) &&& idrMask, Nat.lt_succ_of_le Nat.and_le_right⟩

/-- `alloc_layer`: the free list is linked through `ary[0]`. -/
def allocLayer : List (Slot α) → Option (Slot α × List (Slot α))
  | .layer bitmap ary count :: idFree => some (.layer bitmap (update ary 0 .null) count, idFree)
  | _ => none

/-- `free_layer`. -/
def freeLayer (idFree : List (Slot α)) (p : Slot α) : List (Slot α) := p :: idFree

/-- `idr_pre_get`. -/
def idrPreGet (idFree : List (Slot α)) : List (Slot α) :=
  (List.range (idrFreeMax - idFree.length)).foldl (fun idFree _ => freeLayer idFree .zero) idFree

/-- `find_next_bit`, with the bits left to look at. -/
def findNextBit (bm : BitVec 32) : Nat → Nat → Nat
  | 0, n => n
  | left + 1, n => if bm.getLsbD n then n else findNextBit bm left (n + 1)

/-! ## Allocating -/

/-- How the search in a layer and below it ends: with an id, with no space from the id on, so that it
goes on in the layer above from the next one, or with an id that is too large or a layer that cannot be
allocated. -/
inductive Search
  | found (id : Nat)
  | up (id : Nat)
  | failed
  deriving DecidableEq, Repr

/-- The search in a layer at level `l`, with `below` the search at the level below. The fuel bounds the
returns to this layer. -/
def subAllocLoop (ptr : α) (l : Nat)
    (below : Slot α → List (Slot α) → Nat → Option (Search × Slot α × List (Slot α))) :
    Nat → Slot α → List (Slot α) → Nat → Option (Search × Slot α × List (Slot α))
  | fuel + 1, .layer bitmap ary count, idFree, id =>
    let p := Slot.layer bitmap ary count
    let n := idrDigit l id
    let m := findNextBit (~~~ bitmap) (idrSize - n) n
    if hm : m < idrSize then
      let id := if m ≠ n then ((id >>> (idrBits * l)) ^^^ n.val ^^^ m) <<< (idrBits * l) else id
      if id ≥ maxIdBit then some (.failed, p, idFree)
      else if l = 0 then
        -- we have reached the leaf node, plant the users pointer and return the raw id
        some (.found id, .layer (bitmap ||| 1#32 <<< m) (update ary ⟨m, hm⟩ (.user ptr)) (count + 1), idFree)
      else
        -- create the layer below if it is missing
        let made := match ary ⟨m, hm⟩ with
          | .null => (allocLayer idFree).map fun new => (new.1, count + 1, new.2)
          | q => some (q, count, idFree)
        match made with
        | none => some (.failed, p, idFree)
        | some (q, count, idFree) =>
          match below q idFree id with
          | none => none
          | some (.up id, q, idFree) =>
            subAllocLoop ptr l below fuel (.layer bitmap (update ary ⟨m, hm⟩ q) count) idFree id
          | some (.failed, q, idFree) =>
            some (.failed, .layer bitmap (update ary ⟨m, hm⟩ q) count, idFree)
          | some (.found id, q, idFree) =>
            -- if the layer below is full mark the bit in this layer
            let bitmap := if q.isFull then bitmap ||| 1#32 <<< (idrDigit l id).val else bitmap
            some (.found id, .layer bitmap (update ary ⟨m, hm⟩ q) count, idFree)
    else
      -- no space available go back to previous layer
      some (.up ((id ||| ((1 <<< (idrBits * (l + 1))) - 1)) + 1), p, idFree)
  | _, _, _, _ => none

/-- `sub_alloc` from the layer at level `l` on. -/
def subAllocFrom (ptr : α) : Nat → Slot α → List (Slot α) → Nat → Option (Search × Slot α × List (Slot α))
  | 0 => subAllocLoop ptr 0 (fun _ _ _ => none) 1
  | l + 1 => subAllocLoop ptr (l + 1) (subAllocFrom ptr l) 34

/-- `sub_alloc`. -/
def subAlloc (ptr : α) (idp : IdrContext α) (id : Nat) : Option (Search × IdrContext α) :=
  -- `pa` has MAX_LEVEL entries, and entry `layers` is written
  if maxLevel ≤ idp.layers then none
  else do
    let (res, top, idFree) ← subAllocFrom ptr (idp.layers - 1) idp.top idp.idFree id
    return (res, { idp with top := top, idFree := idFree })

/-- The loop of `idr_get_new_above_int` that adds layers to the top of the tree: the top, the number of layers and
the free list. When no layer is left those added are torn down. -/
def addLayers (id : Nat) : Nat → List (Slot α) → Slot α → Nat → List (Slot α) → Option (Slot α × Nat) × List (Slot α)
  | 0, _, p, layers, idFree => (some (p, layers), idFree)
  | fuel + 1, added, p, layers, idFree =>
    if layers < maxLevel ∧ 1 <<< (layers * idrBits) ≤ id then
      if p.count = 0 then addLayers id fuel added p (layers + 1) idFree
      else match allocLayer idFree with
        | some (.layer bitmap ary _, idFree) =>
          let new := Slot.layer (if p.isFull then bitmap ||| 1#32 else bitmap) (update ary 0 p) 1
          addLayers id fuel (.zero :: added) new (layers + 1) idFree
        | _ => (none, added ++ idFree)
    else (some (p, layers), idFree)

/-- The top of the tree, the number of layers and the free list with which the layers are added: an empty tree is given
its first layer. -/
def firstLayer (idp : IdrContext α) : Option (Slot α × Nat × List (Slot α)) :=
  match idp.top with
  | .null => (allocLayer idp.idFree).map fun new => (new.1, 1, new.2)
  | top => some (top, idp.layers, idp.idFree)

/-- `idr_get_new_above_int` from the label `build_up` on, with -1 for a failure. -/
def buildUp (ptr : α) : Nat → IdrContext α → Nat → Option (Int × IdrContext α)
  | 0, _, _ => none
  | fuel + 1, idp, id =>
    match firstLayer idp with
    | none => some (-1, idp)
    | some (p, layers, idFree) =>
      match addLayers id maxLevel [] p layers idFree with
      | (none, idFree) => some (-1, { idp with idFree := idFree })
      | (some (top, layers), idFree) =>
        match subAlloc ptr ⟨top, idFree, layers⟩ id with
        | none => none
        | some (.up id, idp) => buildUp ptr fuel idp id
        | some (.failed, idp) => some (-1, idp)
        | some (.found id, idp) => some (id, idp)

/-- `idr_get_new_above_int`. -/
def idrGetNewAboveInt (idp : IdrContext α) (ptr : α) (startingId : Nat) : Option (Int × IdrContext α) :=
  buildUp ptr (maxLevel + 1) { idp with idFree := idrPreGet idp.idFree } startingId

/-! ## Finding and removing -/

/-- `sub_remove` from the layer at level `l` on: whether the id was there, and the slot, null when its layer has been
freed. -/
def subRemoveFrom : Nat → Slot α → List (Slot α) → Nat → Bool × Slot α × List (Slot α)
  | 0, .layer bitmap ary count, idFree, id =>
    let n := idrDigit 0 id
    if bitmap.getLsbD n then
      let p := Slot.layer (bitmap &&& ~~~ (1#32 <<< n.val)) (update ary n .null) (count - 1)
      if count - 1 = 0 then (true, .null, freeLayer idFree p) else (true, p, idFree)
    else (false, .layer bitmap ary count, idFree)
  | l + 1, .layer bitmap ary count, idFree, id =>
    let n := idrDigit (l + 1) id
    let bitmap := bitmap &&& ~~~ (1#32 <<< n.val)
    match subRemoveFrom l (ary n) idFree id with
    | (true, .null, idFree) =>
      let p := Slot.layer bitmap (update ary n .null) (count - 1)
      if count - 1 = 0 then (true, .null, freeLayer idFree p) else (true, p, idFree)
    | (removed, q, idFree) => (removed, .layer bitmap (update ary n q) count, idFree)
  | _, p, idFree, _ => (false, p, idFree)

/-- The layer that is dropped from the top of the tree when all that is left is below its first entry. -/
def dropLayer (idp : IdrContext α) : IdrContext α :=
  match idp.top with
  | .layer _ ary count =>
    match ary 0 with
    | .null => idp
    | p =>
      if count = 1 ∧ 1 < idp.layers then ⟨p, freeLayer idp.idFree (.layer 0 ary 0), idp.layers - 1⟩
      else idp
  | _ => idp

/-- `_idr_remove`: whether the id was there. -/
def idrRemove (idp : IdrContext α) (id : Nat) : Option (Bool × IdrContext α) :=
  if maxLevel ≤ idp.layers then none
  else
    match subRemoveFrom (idp.layers - 1) idp.top idp.idFree id with
    | (false, top, idFree) => some (false, { idp with top := top, idFree := idFree })
    | (true, top, idFree) =>
      let layers := match top with
        | .null => 0
        | _ => idp.layers
      let idp := dropLayer ⟨top, idFree, layers⟩
      some (true, { idp with idFree := idp.idFree.drop (idp.idFree.length - (idrFreeMax - 1)) })

/-- The walk of `_idr_find` down to the pointer. -/
def findWalk : Nat → Slot α → Nat → Option (Option α)
  | 0, .user ptr, _ => some (some ptr)
  | _, .null, _ => some none
  | l + 1, .layer _ ary _, id => findWalk l (ary (idrDigit l id)) id
  | _, _, _ => none

/-- `_idr_find`. -/
def idrFind (idp : IdrContext α) (id : Nat) : Option (Option α) :=
  let n := idp.layers * idrBits
  -- a shift by more bits than the int has
  if 32 ≤ n + idrBits then none
  -- this tests to see if bits outside the current tree are present
  else if id >>> (n + idrBits) ≠ 0 then some none
  else findWalk idp.layers idp.top id

/-! ## The public interface -/

/-- `idr_init`. -/
def idrInit : IdrContext α := ⟨.null, [], 0⟩

/-- `idr_get_new_above`. -/
def idrGetNewAbove (idp : IdrContext α) (ptr : α) (startingId limit : Nat) : Option (Int × IdrContext α) := do
  let (ret, idp) ← idrGetNewAboveInt idp ptr startingId
  if ret > (limit : Int) then do
    let (_, idp) ← idrRemove idp ret.toNat
    return (-1, idp)
  else return (ret, idp)

/-- `idr_get_new`. -/
def idrGetNew (idp : IdrContext α) (ptr : α) (limit : Nat) : Option (Int × IdrContext α) :=
  idrGetNewAbove idp ptr 0 limit

end Idtree

end Samba.Util
