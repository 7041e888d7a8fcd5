/-
Messages as they are stored in tdb (lib/ldb/ldb_tdb/ldb_pack.c): what is unpacked is what was packed, less the elements
that are not stored. Pointers and `size_t` have 64 bits, `unsigned` has 32; of allocation the limits of talloc are kept.
-/
import Mathlib.Algebra.BigOperators.Group.List.Basic
import Samba.Lib.Bytes
import Samba.Ldb.Match

namespace Samba.Ldb

open Bytes CString List

/-! ## Packing -/

def ltdbPackingFormat : Nat := 0x26011967

/-- The old packing format, without a DN. -/
def ltdbPackingFormatNodn : Nat := 0x26011966

/-- `MAX_TALLOC_SIZE`: no block has this size. -/
def tallocLimit : Nat := 0x10000000

/-- `attribute_storable_values`. -/
def attributeStorableValues (el : MessageElement) : Nat :=
  if el.values.length = 0 then 0
  else if sameCase el.name ("dn".toList.map chr) then 0
  else if sameCase el.name ("distinguishedName".toList.map chr) then 0
  else el.values.length

/-- The elements that `ltdb_pack_data` does not pass over. -/
def storable (elements : List MessageElement) : List MessageElement :=
  elements.filter fun el => attributeStorableValues el ≠ 0

def valueSize (v : LdbVal) : Nat := 4 + v.length + 1

def elementSize (el : MessageElement) : Nat := 1 + el.name.length + 4 + (el.values.map valueSize).sum

/-- The first loop of `ltdb_pack_data`: how big the buffer needs to be. -/
def packedSize (dn : Text) (elements : List MessageElement) : Nat :=
  8 + (1 + dn.length) + ((storable elements).map elementSize).sum

def packValue (v : LdbVal) : List UInt8 := le32 v.length ++ v.data.take v.length ++ [0]

def packElement (el : MessageElement) : List UInt8 :=
  el.name ++ [0] ++ le32 el.values.length ++ el.values.flatMap packValue

/-- `ltdb_pack_data`, of a message whose size is below `2^32`; `none` is its result -1, and the outer `none` a DN whose
text C leaves undefined. -/
def ltdbPackData (dn : LdbDn) (elements : List MessageElement) : Option (Option (List UInt8)) := do
  let (text, _) ← ldbDnGetLinearized dn
  match text with
  | none => return none
  | some text =>
    if tallocLimit ≤ packedSize text elements then return none
    else return some (le32 ltdbPackingFormat ++ le32 (storable elements).length ++ text ++ [0] ++
      (storable elements).flatMap packElement)

/-! ## Unpacking -/

/-- `EIO`, `ENOMEM`, and a read behind the end of the buffer. -/
inductive UnpackError
  | eio | enomem | overrun
  deriving DecidableEq, Repr

/-- `talloc_size`, as far as its limit goes. -/
def talloc (size : Nat) : Except UnpackError Unit :=
  if tallocLimit ≤ size then .error .enomem else .ok ()

/-- `talloc_array`. -/
def tallocArray (elSize count : Nat) : Except UnpackError Unit :=
  if tallocLimit / elSize ≤ count then .error .enomem else talloc (elSize * count)

def sizeofLdbVal : Nat := 16

def sizeofLdbMessageElement : Nat := 32

/-- Subtraction of `unsigned` values. -/
def sub32 (a b : Nat) : Nat := if b ≤ a then a - b else (2 ^ 32 - (b - a) % 2 ^ 32) % 2 ^ 32

/-- `pull_uint32`. -/
def pullUint32 (p : List UInt8) : Except UnpackError Nat :=
  if p.length < 4 then .error .overrun else .ok (leNat (p.take 4))

/-- `strnlen`. -/
def strnlen (p : List UInt8) (n : Nat) : Except UnpackError Nat :=
  let len := ((p.take n).takeWhile (· ≠ 0)).length
  if len = p.length ∧ p.length < n then .error .overrun else .ok len

/-- The loop over the values of an element, from `p` on with `remaining` bytes to come. -/
def unpackValues : Nat → List UInt8 → Nat → Except UnpackError (List LdbVal × List UInt8 × Nat)
  | 0, p, remaining => .ok ([], p, remaining)
  | n + 1, p, remaining => do
    let len ← pullUint32 p
    if sub32 remaining 5 < len then .error .eio else
    talloc (len + 1)
    if p.length < 4 + len then .error .overrun else
    let (values, rest) ← unpackValues n (p.drop (len + 4 + 1)) (sub32 remaining (len + 4 + 1))
    return (LdbVal.ofText ((p.drop 4).take len) :: values, rest)

/-- The body of the loop over the elements. -/
def unpackElement (p : List UInt8) (remaining : Nat) : Except UnpackError (MessageElement × List UInt8 × Nat) := do
  if remaining < 10 then .error .eio else
  let len ← strnlen p (remaining - 6)
  if len = remaining - 6 then .error .eio else
  talloc (len + 1)
  let name := p.take len
  let p := p.drop (len + 1)
  let remaining := sub32 remaining (len + 1)
  let numValues ← pullUint32 p
  if numValues ≠ 0 then tallocArray sizeofLdbVal numValues
  let (values, rest) ← unpackValues numValues (p.drop 4) (sub32 remaining 4)
  return (⟨name, values⟩, rest)

/-- The loop of `ltdb_unpack_data` over the elements. -/
def unpackElements : Nat → List UInt8 → Nat → Except UnpackError (List MessageElement)
  | 0, _, _ => .ok []
  | n + 1, p, remaining => do
    let (el, p, remaining) ← unpackElement p remaining
    let els ← unpackElements n p remaining
    return el :: els

/-- The part of `ltdb_unpack_data` behind the DN. -/
def unpackMessage (dn : Option LdbDn) (numElements : Nat) (p : List UInt8) (remaining : Nat) :
    Except UnpackError LdbMessage := do
  if numElements = 0 then return ⟨dn, []⟩ else
  if remaining / 6 < numElements then .error .eio else
  tallocArray sizeofLdbMessageElement numElements
  return ⟨dn, ← unpackElements numElements p remaining⟩

/-- `ltdb_unpack_data`. Bytes that are left unread are only reported. -/
def ltdbUnpackData (data : List UInt8) : Except UnpackError LdbMessage := do
  if data.length < 8 then .error .eio else
  let format ← pullUint32 data
  let numElements ← pullUint32 (data.drop 4)
  let p := data.drop 8
  let remaining := (data.length - 8) % 2 ^ 32
  if format = ltdbPackingFormatNodn then unpackMessage none numElements p remaining
  else if format = ltdbPackingFormat then
    let len ← strnlen p remaining
    if len = remaining then .error .eio else
    talloc (len + 1)
    unpackMessage (some (ldbDnNew (p.take len))) numElements (p.drop (len + 1)) (sub32 remaining (len + 1))
  else .error .eio

/-! ## What is packed is unpacked -/

theorem sub32_of_le {a b : Nat} (h : b ≤ a) : sub32 a b = a - b := if_pos h

theorem tallocLimit_lt : tallocLimit < 2 ^ 32 := by
  unfold tallocLimit
  omega

theorem length_le32 (n : Nat) : (le32 n).length = 4 := rfl

variable {n : Nat} {text : Text} {el : MessageElement} {els : List MessageElement}

theorem pullUint32_le32 (hn : n < 2 ^ 32) (rest : List UInt8) : pullUint32 (le32 n ++ rest) = .ok n := by
  have hlen : ¬(le32 n ++ rest).length < 4 := by
    rw [length_append, length_le32]
    omega
  rw [pullUint32, if_neg hlen, take_left' (length_le32 n), leNat_le32_of_lt hn]

theorem drop_le32 (n : Nat) (rest : List UInt8) : (le32 n ++ rest).drop 4 = rest := drop_left' (length_le32 n)

/-- A text with its NUL behind it is found by `strnlen` when the bound lies behind the NUL. -/
theorem strnlen_text (h0 : (0 : UInt8) ∉ text) (rest : List UInt8) (hn : text.length < n) :
    strnlen (text ++ 0 :: rest) n = .ok text.length := by
  obtain ⟨k, rfl⟩ := Nat.exists_eq_add_of_lt hn
  have htake : ((text ++ 0 :: rest).take (text.length + k + 1)).takeWhile (· ≠ 0) = text := by
    rw [take_append, take_of_length_le (by omega), show text.length + k + 1 - text.length = k + 1 by omega,
      take_succ_cons, takeWhile_append_of_pos (by
        intro c hc
        simpa using fun e : c = 0 => h0 (e ▸ hc))]
    simp
  rw [strnlen]
  simp only [htake]
  rw [if_neg (by simp)]

/-- The bytes of a value are all there. -/
def Full (v : LdbVal) : Prop := v.data.length = v.length

theorem length_packValue {v : LdbVal} (h : Full v) : (packValue v).length = valueSize v := by
  rw [packValue, length_append, length_append, length_le32, length_take, h, Nat.min_self, valueSize]
  rfl

theorem ofText_data {v : LdbVal} (h : Full v) : LdbVal.ofText v.data = v := by
  rw [LdbVal.ofText, h]

theorem unpackValues_succ {len remaining : Nat} {p rest : List UInt8} {vs : List LdbVal} {left : Nat}
    (hpull : pullUint32 p = .ok len) (hroom : ¬sub32 remaining 5 < len) (htalloc : talloc (len + 1) = .ok ())
    (hp : ¬p.length < 4 + len)
    (hvs : unpackValues n (p.drop (len + 4 + 1)) (sub32 remaining (len + 4 + 1)) = .ok (vs, rest, left)) :
    unpackValues (n + 1) p remaining = .ok (LdbVal.ofText ((p.drop 4).take len) :: vs, rest, left) := by
  rw [unpackValues, hpull]
  simp only [bind, Except.bind, if_neg hroom, htalloc, if_neg hp, hvs]
  rfl

/-- The values of an element, with the rest of the buffer behind them. -/
theorem unpackValues_pack {vs : List LdbVal} (hv : ∀ v ∈ vs, Full v) (rest : List UInt8)
    (hsize : (vs.flatMap packValue ++ rest).length < tallocLimit) :
    unpackValues vs.length (vs.flatMap packValue ++ rest) (vs.flatMap packValue ++ rest).length =
      .ok (vs, rest, rest.length) := by
  induction vs with
  | nil => rfl
  | cons v vs ih =>
    have hfull : v.data.length = v.length := hv v (by simp)
    have hdata : v.data.take v.length = v.data := take_of_length_le hfull.le
    set tail := vs.flatMap packValue ++ rest with htail
    have hp : (v :: vs).flatMap packValue ++ rest = le32 v.length ++ (v.data ++ 0 :: tail) := by
      simp only [flatMap_cons, packValue, hdata, append_assoc, cons_append, nil_append, ← htail]
    have hlen : (le32 v.length ++ (v.data ++ 0 :: tail)).length = v.length + 4 + 1 + tail.length := by
      simp only [length_append, length_le32, length_cons, hfull]
      omega
    rw [hp, hlen] at hsize ⊢
    have hlimit := tallocLimit_lt
    have hpull : pullUint32 (le32 v.length ++ (v.data ++ 0 :: tail)) = .ok v.length := pullUint32_le32 (by omega) _
    have hroom : ¬sub32 (v.length + 4 + 1 + tail.length) 5 < v.length := by
      rw [sub32_of_le (by omega)]
      omega
    have htalloc : talloc (v.length + 1) = .ok () := by rw [talloc, if_neg (by omega)]
    have hrest : (le32 v.length ++ (v.data ++ 0 :: tail)).drop (v.length + 4 + 1) = tail := by
      rw [show v.length + 4 + 1 = 4 + (v.length + 1) by omega, ← drop_drop, drop_le32, ← hfull, drop_append]
      simp
    have hval : ((le32 v.length ++ (v.data ++ 0 :: tail)).drop 4).take v.length = v.data := by
      rw [drop_le32, take_left' hfull]
    have hsub : sub32 (v.length + 4 + 1 + tail.length) (v.length + 4 + 1) = tail.length := by
      rw [sub32_of_le (by omega)]
      omega
    have hover : ¬(le32 v.length ++ (v.data ++ 0 :: tail)).length < 4 + v.length := by
      rw [hlen]
      omega
    have htail := ih (fun v' h => hv v' (by simp [h])) (by omega)
    rw [length_cons, unpackValues_succ hpull hroom htalloc hover (by rw [hrest, hsub]; exact htail), hval,
      ofText_data hfull]

/-- An element that can be packed and read back: its name is a string, and its values are whole. -/
structure Packable (el : MessageElement) : Prop where
  name : (0 : UInt8) ∉ el.name
  full : ∀ v ∈ el.values, Full v

/-- The rest of a buffer from an element on, cut at the count of its values. -/
theorem packElement_append (el : MessageElement) (rest : List UInt8) :
    packElement el ++ rest =
      el.name ++ 0 :: (le32 el.values.length ++ (el.values.flatMap packValue ++ rest)) := by
  simp only [packElement, append_assoc, cons_append, nil_append]

/-- The head of an element is read: what remains is to make room for its values and to read them. -/
theorem unpackElement_head (h : Packable el) (hne : el.values ≠ []) (rest : List UInt8)
    (hsize : (packElement el ++ rest).length < tallocLimit) :
    unpackElement (packElement el ++ rest) (packElement el ++ rest).length = (do
      tallocArray sizeofLdbVal el.values.length
      let (values, rest) ← unpackValues el.values.length (el.values.flatMap packValue ++ rest)
        (el.values.flatMap packValue ++ rest).length
      return (⟨el.name, values⟩, rest)) := by
  rw [packElement_append] at hsize ⊢
  set tail := el.values.flatMap packValue ++ rest with htail
  obtain ⟨v, vs, hvs⟩ := exists_cons_of_ne_nil hne
  have hfive : 5 ≤ tail.length := by
    rw [htail, hvs, flatMap_cons, packValue]
    simp only [length_append, length_le32, length_singleton]
    omega
  have hlen : (el.name ++ 0 :: (le32 el.values.length ++ tail)).length = el.name.length + 1 + 4 + tail.length := by
    simp only [length_append, length_le32, length_cons]
    omega
  have hcount : el.values.length < 2 ^ 32 := by
    have hsum : el.values.length ≤ (el.values.flatMap packValue).length := by
      rw [length_flatMap]
      refine (length_le_sum_of_one_le _ ?_).trans' (by simp)
      intro i hi
      obtain ⟨v, -, rfl⟩ := mem_map.mp hi
      rw [packValue, length_append, length_append]
      simp
    have hlimit := tallocLimit_lt
    rw [hlen, htail, length_append] at hsize
    omega
  have hlimit := tallocLimit_lt
  rw [hlen] at hsize
  have hname := strnlen_text h.name (le32 el.values.length ++ tail) (n := el.name.length + 1 + 4 + tail.length - 6)
    (by omega)
  have htalloc : talloc (el.name.length + 1) = .ok () := by rw [talloc, if_neg (by omega)]
  have hdrop : (el.name ++ 0 :: (le32 el.values.length ++ tail)).drop (el.name.length + 1) =
      le32 el.values.length ++ tail := by simp [drop_append]
  have hleft : sub32 (sub32 (el.name.length + 1 + 4 + tail.length) (el.name.length + 1)) 4 = tail.length := by
    have hname : sub32 (el.name.length + 1 + 4 + tail.length) (el.name.length + 1) = tail.length + 4 := by
      rw [sub32_of_le (by omega)]
      omega
    rw [hname, sub32_of_le (by omega), Nat.add_sub_cancel]
  have hvalues : el.values.length ≠ 0 := fun h0 => hne (length_eq_zero_iff.mp h0)
  rw [hlen, unpackElement, if_neg (by omega)]
  simp only [hname, bind, Except.bind, htalloc, hdrop, pullUint32_le32 hcount, drop_le32, take_left]
  rw [if_neg (by omega), if_pos hvalues, hleft]

/-- There is a block for the values of the element. -/
def ValuesFit (el : MessageElement) : Prop := el.values.length < tallocLimit / sizeofLdbVal

theorem unpackElement_pack (h : Packable el) (hne : el.values ≠ []) (hfit : ValuesFit el)
    (rest : List UInt8) (hsize : (packElement el ++ rest).length < tallocLimit) :
    unpackElement (packElement el ++ rest) (packElement el ++ rest).length = .ok (el, rest, rest.length) := by
  have harray : tallocArray sizeofLdbVal el.values.length = .ok () := by
    unfold ValuesFit tallocLimit sizeofLdbVal at hfit
    unfold tallocArray talloc tallocLimit sizeofLdbVal
    rw [if_neg (by omega), if_neg (by omega)]
  have hvalues : (el.values.flatMap packValue ++ rest).length < tallocLimit := by
    rw [packElement_append] at hsize
    simp only [length_append, length_cons] at hsize ⊢
    omega
  rw [unpackElement_head h hne rest hsize, harray]
  simp only [bind, Except.bind, unpackValues_pack h.full rest hvalues]
  rfl

theorem unpackElements_pack (h : ∀ el ∈ els, Packable el) (hne : ∀ el ∈ els, el.values ≠ [])
    (hfit : ∀ el ∈ els, ValuesFit el) (hsize : (els.flatMap packElement).length < tallocLimit) :
    unpackElements els.length (els.flatMap packElement) (els.flatMap packElement).length = .ok els := by
  induction els with
  | nil => rfl
  | cons el els ih =>
    rw [flatMap_cons] at hsize ⊢
    have hrest : (els.flatMap packElement).length < tallocLimit := by
      rw [length_append] at hsize
      omega
    have hels := ih (fun el' he => h el' (by simp [he])) (fun el' he => hne el' (by simp [he]))
      (fun el' he => hfit el' (by simp [he])) hrest
    rw [length_cons, unpackElements, unpackElement_pack (h el (by simp)) (hne el (by simp)) (hfit el (by simp)) _ hsize]
    simp only [bind, Except.bind, hels]
    rfl

theorem length_packElement (h : Packable el) : (packElement el).length = elementSize el := by
  have hvalues : (el.values.flatMap packValue).length = (el.values.map valueSize).sum := by
    rw [length_flatMap]
    exact congrArg List.sum (map_congr_left fun v hv => length_packValue (h.full v hv))
  rw [packElement, elementSize, length_append, length_append, length_append, length_le32, hvalues,
    length_singleton]
  omega

/-- The first loop finds the size of what the second one writes. -/
theorem length_packed (h : ∀ el ∈ els, Packable el) :
    (els.flatMap packElement).length = (els.map elementSize).sum := by
  rw [length_flatMap]
  exact congrArg List.sum (map_congr_left fun el he => length_packElement (h el he))

/-- An element that is stored takes ten bytes at least. -/
theorem ten_le_elementSize (hne : el.values ≠ []) : 10 ≤ elementSize el := by
  obtain ⟨v, vs, hvs⟩ := exists_cons_of_ne_nil hne
  rw [elementSize, hvs, map_cons, sum_cons, valueSize]
  omega

theorem mem_storable {elements : List MessageElement} :
    el ∈ storable elements ↔ el ∈ elements ∧ el.values ≠ [] ∧ ldbAttrDn el.name = false := by
  rw [storable, mem_filter, attributeStorableValues, ldbAttrDn]
  by_cases hv : el.values = []
  · simp [hv]
  · cases sameCase el.name ("dn".toList.map chr) <;> cases sameCase el.name ("distinguishedName".toList.map chr) <;>
      simp [hv]

theorem storable_eq (elements : List MessageElement) :
    storable elements = elements.filter fun el => el.values ≠ [] ∧ ldbAttrDn el.name = false := by
  refine filter_congr fun el he => ?_
  have hmem : el ∈ storable elements ↔ el ∈ elements ∧ el.values ≠ [] ∧ ldbAttrDn el.name = false := mem_storable
  rw [storable, mem_filter] at hmem
  simp only [he, true_and] at hmem
  exact Bool.eq_iff_iff.mpr (hmem.trans (by simp))

/-- The head of the buffer and the DN are read. -/
theorem ltdbUnpackData_head (h0 : (0 : UInt8) ∉ text) (hn : n < 2 ^ 32) (body : List UInt8)
    (hsize : 8 + (1 + text.length) + body.length < tallocLimit) :
    ltdbUnpackData (le32 ltdbPackingFormat ++ le32 n ++ text ++ [0] ++ body) =
      unpackMessage (some (ldbDnNew text)) n body body.length := by
  have hlimit := tallocLimit_lt
  have hdata : le32 ltdbPackingFormat ++ le32 n ++ text ++ [0] ++ body =
      le32 ltdbPackingFormat ++ (le32 n ++ (text ++ 0 :: body)) := by simp
  have hlen : (le32 ltdbPackingFormat ++ (le32 n ++ (text ++ 0 :: body))).length = 8 + (text.length + 1 + body.length) := by
    simp only [length_append, length_le32, length_cons]
    omega
  have hformat : ltdbPackingFormat ≠ ltdbPackingFormatNodn := by decide
  have hdrop : (le32 ltdbPackingFormat ++ (le32 n ++ (text ++ 0 :: body))).drop 8 = text ++ 0 :: body := by
    rw [show (8 : Nat) = 4 + 4 from rfl, ← drop_drop, drop_le32, drop_le32]
  have hbody : (text ++ 0 :: body).drop (text.length + 1) = body := by simp [drop_append]
  have hremaining : (8 + (text.length + 1 + body.length) - 8) % 2 ^ 32 = text.length + 1 + body.length := by
    rw [Nat.add_sub_cancel_left]
    exact Nat.mod_eq_of_lt (by omega)
  have hleft : sub32 (text.length + 1 + body.length) (text.length + 1) = body.length := by
    rw [sub32_of_le (by omega), Nat.add_sub_cancel_left]
  have htalloc : talloc (text.length + 1) = .ok () := by rw [talloc, if_neg (by omega)]
  have hname := strnlen_text h0 body (n := text.length + 1 + body.length) (by omega)
  rw [hdata, ltdbUnpackData, hlen, if_neg (by omega), hremaining, hdrop]
  simp only [pullUint32_le32 (show ltdbPackingFormat < 2 ^ 32 by decide), pullUint32_le32 hn, bind, Except.bind, drop_le32,
    if_neg hformat, if_true, hname, htalloc, take_left, hbody, hleft]
  rw [if_neg (by omega)]

theorem ltdbPackData_eq {dn dn' : LdbDn} {elements : List MessageElement}
    (htext : ldbDnGetLinearized dn = some (some text, dn')) :
    ltdbPackData dn elements = some (if tallocLimit ≤ packedSize text elements then none
      else some (le32 ltdbPackingFormat ++ le32 (storable elements).length ++ text ++ [0] ++
        (storable elements).flatMap packElement)) := by
  simp only [ltdbPackData, htext, bind, Option.bind]
  split_ifs <;> rfl

theorem count_le_size (hne : ∀ el ∈ els, el.values ≠ []) : 10 * els.length ≤ (els.map elementSize).sum := by
  induction els with
  | nil => simp
  | cons el els ih =>
    have hel := ten_le_elementSize (hne el (by simp))
    have hels := ih fun el' he => hne el' (by simp [he])
    rw [length_cons, map_cons, sum_cons]
    omega

/-- What is unpacked from the buffer of a message is the string of its DN and the elements that are stored, as long as
talloc has a block for the elements and for the values of each. -/
theorem ltdbUnpackData_pack {dn dn' : LdbDn} {text : Text} {elements : List MessageElement} {data : List UInt8}
    (htext : ldbDnGetLinearized dn = some (some text, dn')) (h0 : (0 : UInt8) ∉ text)
    (hpackable : ∀ el ∈ elements, Packable el)
    (hcount : (storable elements).length < tallocLimit / sizeofLdbMessageElement)
    (hfit : ∀ el ∈ storable elements, ValuesFit el) (hpack : ltdbPackData dn elements = some (some data)) :
    ltdbUnpackData data = .ok ⟨some (ldbDnNew text),
      elements.filter fun el => el.values ≠ [] ∧ ldbAttrDn el.name = false⟩ ∧
    ldbDnGetLinearized (ldbDnNew text) = some (some text, ldbDnNew text) := by
  refine ⟨?_, rfl⟩
  rw [ltdbPackData_eq htext] at hpack
  split_ifs at hpack with hsize
  · cases hpack
  have hdata := Option.some.inj (Option.some.inj hpack)
  have hlimit := tallocLimit_lt
  have hstored : ∀ el ∈ storable elements, Packable el := fun el he => hpackable el (mem_storable.mp he).1
  have hbody := length_packed hstored
  have hvalues : ∀ el ∈ storable elements, el.values ≠ [] := fun el he => (mem_storable.mp he).2.1
  have hten := count_le_size hvalues
  rw [packedSize, ← hbody] at hsize
  rw [← hbody] at hten
  have harray : tallocArray sizeofLdbMessageElement (storable elements).length = .ok () := by
    unfold tallocLimit sizeofLdbMessageElement at hcount
    unfold tallocArray talloc tallocLimit sizeofLdbMessageElement
    rw [if_neg (by omega), if_neg (by omega)]
  rw [← hdata, ltdbUnpackData_head h0 (by omega) _ (by omega), unpackMessage, ← storable_eq]
  by_cases hnil : (storable elements).length = 0
  · rw [if_pos hnil, length_eq_zero_iff.mp hnil]
    rfl
  · rw [if_neg hnil, if_neg (by omega), harray]
    simp only [bind, Except.bind, unpackElements_pack hstored hvalues hfit (by omega)]
    rfl

/-- Two values, one of them empty, an element of that DN attribute, and one without values. -/
def packedElements : List MessageElement :=
  [⟨[chr 'a'], [.ofText [0], .ofText []]⟩, ⟨"DN".toList.map chr, [.ofText [1]]⟩, ⟨[chr 'b'], []⟩]

theorem ltdbUnpackData_pack_elements :
    ltdbUnpackData (le32 ltdbPackingFormat ++ le32 1 ++ [] ++ [0] ++ packElement ⟨[chr 'a'], [.ofText [0], .ofText []]⟩) =
      .ok ⟨some (ldbDnNew []), [⟨[chr 'a'], [.ofText [0], .ofText []]⟩]⟩ := by
  have hpackable : ∀ el ∈ packedElements, Packable el := by
    intro el he
    simp only [packedElements, mem_cons, not_mem_nil, or_false] at he
    rcases he with rfl | rfl | rfl
    · exact ⟨by decide, by simp [Full, LdbVal.ofText]⟩
    · exact ⟨by decide, by simp [Full, LdbVal.ofText]⟩
    · exact ⟨by decide, by simp⟩
  have hfit : ∀ el ∈ storable packedElements, ValuesFit el := by
    intro el he
    rw [show storable packedElements = [⟨[chr 'a'], [.ofText [0], .ofText []]⟩] by decide] at he
    rw [mem_singleton.mp he, ValuesFit]
    decide
  have htext : ldbDnGetLinearized (ldbDnNew []) = some (some [], ldbDnNew []) := rfl
  exact (ltdbUnpackData_pack htext (by simp) hpackable (by decide) hfit rfl).1

/-- An element whose values have no block is not unpacked. -/
theorem unpackElement_unfit (h : Packable el) (hne : el.values ≠ []) (hfit : ¬ValuesFit el)
    (rest : List UInt8) (hsize : (packElement el ++ rest).length < tallocLimit) :
    unpackElement (packElement el ++ rest) (packElement el ++ rest).length = .error .enomem := by
  have harray : tallocArray sizeofLdbVal el.values.length = .error .enomem := if_pos (not_lt.mp hfit)
  rw [unpackElement_head h hne rest hsize, harray]
  rfl

/-- The element `a` with `n` empty values. -/
def emptyValues (n : Nat) : MessageElement := ⟨[chr 'a'], List.replicate n (.ofText [])⟩

theorem elementSize_emptyValues (n : Nat) : elementSize (emptyValues n) = 6 + 5 * n := by
  simp only [elementSize, emptyValues, map_replicate, sum_replicate, valueSize, LdbVal.ofText, length_nil,
    length_singleton, nsmul_eq_mul, Nat.cast_id]
  omega

theorem emptyValues_packable (n : Nat) : Packable (emptyValues n) :=
  ⟨(by decide : (0 : UInt8) ∉ [chr 'a']), fun v hv => by rw [eq_of_mem_replicate hv]; rfl⟩

theorem storable_emptyValues (hn : n ≠ 0) : storable [emptyValues n] = [emptyValues n] := by
  have hname : ldbAttrDn [chr 'a'] = false := by decide
  rw [storable_eq, filter_cons_of_pos, filter_nil]
  simp [hname, emptyValues, hn]

/-- Buffers are packed that are not unpacked: those of an element with too many values. -/
theorem ltdbUnpackData_emptyValues (hn : tallocLimit / sizeofLdbVal ≤ n) (hsize : 15 + 5 * n < tallocLimit) :
    ∃ data, ltdbPackData (ldbDnNew []) [emptyValues n] = some (some data) ∧ data.length = 15 + 5 * n ∧
      ltdbUnpackData data = .error .enomem := by
  have hlimit := tallocLimit_lt
  have hpos : n ≠ 0 := by
    unfold tallocLimit sizeofLdbVal at hn
    omega
  have hstored := storable_emptyValues hpos
  have hne : (emptyValues n).values ≠ [] := by simp [emptyValues, hpos]
  have hlen : (packElement (emptyValues n)).length = 6 + 5 * n := by
    rw [length_packElement (emptyValues_packable n), elementSize_emptyValues]
  have hpacked : packedSize [] [emptyValues n] = 15 + 5 * n := by
    rw [packedSize, hstored, map_singleton, sum_singleton, elementSize_emptyValues, length_nil]
    omega
  refine ⟨_, by rw [ltdbPackData_eq rfl, hpacked, if_neg (by omega), hstored], ?_, ?_⟩
  · simp only [length_append, length_le32, flatMap_cons, flatMap_nil, hlen, length_nil,
      length_singleton]
    omega
  · have hbody : [emptyValues n].flatMap packElement = packElement (emptyValues n) := by simp
    have harray : tallocArray sizeofLdbMessageElement [emptyValues n].length = .ok () := by
      rw [length_singleton]
      decide
    rw [hbody, ltdbUnpackData_head (by simp) (by simp) _ (by rw [hlen, length_nil]; omega), unpackMessage,
      if_neg (by simp), if_neg (by rw [hlen, length_singleton]; omega), harray]
    have hel := unpackElement_unfit (emptyValues_packable n) hne (not_lt.mpr (by simpa [emptyValues] using hn)) []
      (by rw [append_nil, hlen]; omega)
    rw [append_nil] at hel
    simp only [bind, Except.bind, length_singleton, unpackElements, hel]

/-- `2^24` empty values take eighty megabytes, and have no block when they are read. -/
theorem ltdbUnpackData_many_values :
    ∃ data, ltdbPackData (ldbDnNew []) [emptyValues (2 ^ 24)] = some (some data) ∧ Packable (emptyValues (2 ^ 24)) ∧
      data.length < 2 ^ 31 ∧ ltdbUnpackData data = .error .enomem := by
  obtain ⟨data, hpack, hlen, hunpack⟩ := ltdbUnpackData_emptyValues (n := 2 ^ 24) (by decide) (by decide)
  exact ⟨data, hpack, emptyValues_packable _, by omega, hunpack⟩

end Samba.Ldb
