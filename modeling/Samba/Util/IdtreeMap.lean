/-
What the id tree is for: a map from ids to pointers. The layers of a tree agree with the ids below
them, and every call keeps that.
-/
import Mathlib.Data.Nat.Bitwise
import Mathlib.Data.Fintype.Card
import Mathlib.Tactic.Ring
import Samba.Util.Idtree

namespace Samba.Util

open Function

/-! ## Digits and bits -/

theorem shiftLeft_idrBits (l : Nat) : 2 ^ (idrBits * l) = 32 ^ l := by
  unfold idrBits
  rw [Nat.pow_mul]

theorem idrDigit_val (l id : Nat) : (idrDigit l id).val = id / 32 ^ l % 32 := by
  unfold idrDigit idrMask
  simp only
  rw [Nat.shiftRight_eq_div_pow, shiftLeft_idrBits, show (31 : Nat) = 2 ^ 5 - 1 from rfl, Nat.and_two_pow_sub_one_eq_mod]

/-- The first id behind the part of the tree at level `l` that the id is in. -/
theorem idrNext_eq (l id : Nat) :
    (id ||| ((1 <<< (idrBits * (l + 1))) - 1)) + 1 = (id / 32 ^ (l + 1) + 1) * 32 ^ (l + 1) := by
  rw [Nat.shiftLeft_eq, Nat.one_mul, ← shiftLeft_idrBits (l + 1)]
  generalize idrBits * (l + 1) = k
  have hpos : 0 < 2 ^ k := Nat.two_pow_pos k
  have hor : id ||| (2 ^ k - 1) = 2 ^ k * (id / 2 ^ k) + (2 ^ k - 1) := by
    refine Nat.eq_of_testBit_eq fun i => ?_
    rw [Nat.testBit_or, Nat.testBit_two_pow_sub_one, Nat.testBit_two_pow_mul_add _ (by omega)]
    by_cases hi : i < k
    · simp [hi, Nat.testBit_two_pow_sub_one]
    · rw [if_neg hi, Nat.testBit_div_two_pow]
      simp [hi, Nat.sub_add_cancel (Nat.le_of_not_lt hi)]
  rw [hor, Nat.add_mul, Nat.one_mul, Nat.mul_comm (id / 2 ^ k)]
  omega

/-- The id with its digit at level `l` changed and those below it cleared. -/
theorem idrAdjust_eq {l id m : Nat} (hm : m < 32) :
    ((id >>> (idrBits * l)) ^^^ (idrDigit l id).val ^^^ m) <<< (idrBits * l) =
      (id / 32 ^ (l + 1) * 32 + m) * 32 ^ l := by
  have hq : id / 32 ^ (l + 1) = id / 32 ^ l / 32 := by rw [Nat.pow_succ, Nat.div_div_eq_div_mul]
  rw [Nat.shiftLeft_eq, Nat.shiftRight_eq_div_pow, idrDigit_val, shiftLeft_idrBits, hq]
  generalize id / 32 ^ l = q
  congr 1
  refine Nat.eq_of_testBit_eq fun i => ?_
  have h32 : (32 : Nat) = 2 ^ 5 := rfl
  rw [Nat.mul_comm (q / 32), h32, Nat.testBit_two_pow_mul_add _ hm, Nat.testBit_xor, Nat.testBit_xor,
    Nat.testBit_mod_two_pow]
  by_cases hi : i < 5
  · simp [hi]
  · rw [if_neg hi, Nat.testBit_div_two_pow, Nat.sub_add_cancel (Nat.le_of_not_lt hi)]
    have hz : m.testBit i = false := by
      refine Nat.testBit_lt_two_pow (lt_of_lt_of_le hm ?_)
      exact Nat.pow_le_pow_right (show 0 < 2 by decide) (Nat.le_of_not_lt hi)
    simp [hi, hz]

theorem getLsbD_setBit (bitmap : BitVec 32) (m i : Fin 32) :
    (bitmap ||| 1#32 <<< m.val).getLsbD i = (bitmap.getLsbD i || decide (i = m)) := by
  rw [BitVec.getLsbD_or, BitVec.getLsbD_shiftLeft, BitVec.getLsbD_one]
  congr 1
  have := i.isLt
  simp only [Fin.ext_iff, Bool.and_eq_decide, decide_eq_true_eq, Bool.not_eq_true', decide_eq_false_iff_not]
  by_cases h : i.val = m.val
  · simp [h]
  · simp [h]
    omega

theorem getLsbD_clearBit (bitmap : BitVec 32) (m i : Fin 32) :
    (bitmap &&& ~~~ (1#32 <<< m.val)).getLsbD i = (bitmap.getLsbD i && !decide (i = m)) := by
  rw [BitVec.getLsbD_and, BitVec.getLsbD_not, BitVec.getLsbD_shiftLeft, BitVec.getLsbD_one]
  congr 1
  have := i.isLt
  by_cases h : i.val = m.val
  · simp [Fin.ext_iff, h]
  · simp [Fin.ext_iff, h]
    omega

theorem eq_idrFull_iff (bitmap : BitVec 32) : bitmap = idrFull ↔ ∀ i : Fin 32, bitmap.getLsbD i = true := by
  constructor
  · rintro rfl
    decide
  · intro h
    refine BitVec.eq_of_getLsbD_eq fun i hi => ?_
    rw [h ⟨i, hi⟩]
    exact ((show ∀ i : Fin 32, idrFull.getLsbD i = true by decide) ⟨i, hi⟩).symm

theorem findNextBit_spec (bm : BitVec 32) (left n : Nat) :
    n ≤ findNextBit bm left n ∧ findNextBit bm left n ≤ n + left ∧
    (∀ i, n ≤ i → i < findNextBit bm left n → bm.getLsbD i = false) ∧
    (findNextBit bm left n < n + left → bm.getLsbD (findNextBit bm left n) = true) := by
  induction left generalizing n with
  | zero => exact ⟨le_rfl, le_rfl, fun i h1 h2 => absurd (lt_of_le_of_lt h1 h2) (lt_irrefl _), fun h => absurd h (lt_irrefl _)⟩
  | succ left ih =>
    rw [findNextBit]
    split
    case isTrue hbit => exact ⟨le_rfl, by omega, fun i h1 h2 => by omega, fun _ => hbit⟩
    case isFalse hbit =>
      obtain ⟨h1, h2, h3, h4⟩ := ih (n + 1)
      refine ⟨by omega, by omega, fun i hi hlt => ?_, fun h => h4 (by omega)⟩
      by_cases hin : i = n
      · rw [hin]
        simpa using hbit
      · exact h3 i (by omega) hlt

section Layers

variable {α : Type}

/-! ## What a tree holds -/

def Slot.isNull : Slot α → Bool
  | .null => true
  | _ => false

variable {s : Slot α} {d : Nat} {ary : Fin 32 → Slot α} {idFree : List (Slot α)}

theorem Slot.eq_null (h : s.isNull = true) : s = .null := by
  cases s with
  | null => rfl
  | user => cases h
  | layer => cases h

/-- The pointer stored under an id in a tree of `d` layers; digits of the id above them do not count. -/
def look : Nat → Slot α → Nat → Option α
  | 0, .user ptr, _ => some ptr
  | d + 1, .layer _ ary _, id => look d (ary (idrDigit d id)) id
  | _, _, _ => none

/-- Every id of the tree is in use. -/
def Full (d : Nat) (s : Slot α) : Prop := ∀ id, look d s id ≠ none

/-- The number of entries that are not null. -/
def slotCount (ary : Fin 32 → Slot α) : Int := ((Finset.univ.filter fun i => (ary i).isNull = false).card : Int)

/-- A tree of `d` layers whose bitmaps say which entries are full and whose counts say how many there are. -/
def Sound : Nat → Slot α → Prop
  | 0, s => ∃ ptr, s = .user ptr
  | d + 1, s => ∃ bitmap ary count, s = .layer bitmap ary count ∧ (∀ i, ary i = .null ∨ Sound d (ary i)) ∧
      (∀ i : Fin 32, bitmap.getLsbD i = true ↔ Full d (ary i)) ∧ count = slotCount ary

@[simp] theorem look_null (d id : Nat) : look d (.null : Slot α) id = none := by
  cases d <;> rfl

@[simp] theorem look_layer (d id : Nat) (bitmap : BitVec 32) (ary : Fin 32 → Slot α) (count : Int) :
    look (d + 1) (.layer bitmap ary count) id = look d (ary (idrDigit d id)) id := rfl

@[simp] theorem look_zero (d id : Nat) : look d (.zero : Slot α) id = none := by
  cases d with
  | zero => rfl
  | succ d => simp [Slot.zero]

/-- The ids of a tree repeat above its capacity. -/
theorem look_congr {id id' : Nat} (h : id % 32 ^ d = id' % 32 ^ d) : look d s id = look d s id' := by
  induction d generalizing s with
  | zero => cases s <;> rfl
  | succ d ih =>
    cases s with
    | null => rfl
    | user => rfl
    | layer bitmap ary count =>
      have hlow : ∀ a, a % 32 ^ (d + 1) % 32 ^ d = a % 32 ^ d := fun a =>
        Nat.mod_mod_of_dvd a (Nat.pow_dvd_pow 32 (Nat.le_succ d))
      have hdigit : ∀ a, a / 32 ^ d % 32 = a % 32 ^ (d + 1) / 32 ^ d := fun a => by
        rw [Nat.pow_succ, Nat.mod_mul_right_div_self]
      have hd : idrDigit d id = idrDigit d id' := by
        refine Fin.ext ?_
        rw [idrDigit_val, idrDigit_val, hdigit, hdigit, h]
      rw [look_layer, look_layer, hd]
      refine ih ?_
      rw [← hlow id, ← hlow id', h]

theorem Slot.isFull_iff (h : Sound (d + 1) s) : s.isFull = true ↔ Full (d + 1) s := by
  obtain ⟨bitmap, ary, count, rfl, -, hbits, -⟩ := h
  rw [Slot.isFull, beq_iff_eq, eq_idrFull_iff]
  constructor
  · intro hall id
    exact (hbits _).mp (hall (idrDigit d id)) id
  · intro hfull i
    refine (hbits i).mpr fun id hnone => ?_
    -- the id with this digit in front
    refine hfull (i.val * 32 ^ d + id % 32 ^ d) ?_
    have hpos : 0 < 32 ^ d := Nat.pow_pos (by decide)
    have hdigit : idrDigit d (i.val * 32 ^ d + id % 32 ^ d) = i := by
      refine Fin.ext ?_
      rw [idrDigit_val, Nat.mul_comm, Nat.mul_add_div hpos, Nat.div_eq_of_lt (Nat.mod_lt _ hpos), Nat.add_zero,
        Nat.mod_eq_of_lt i.isLt]
    rw [look_layer, hdigit, ← hnone]
    refine look_congr ?_
    rw [Nat.mul_comm, Nat.mul_add_mod, Nat.mod_mod]

theorem sound_zero (d : Nat) : Sound (d + 1) (.zero : Slot α) := by
  refine ⟨0, fun _ => .null, 0, rfl, fun _ => .inl rfl, fun i => ?_, ?_⟩
  · simp [Full]
  · simp [slotCount, Slot.isNull]

/-! ## Counts -/

theorem slotCount_update {m : Fin 32} {q : Slot α} (h : (ary m).isNull = q.isNull) :
    slotCount (update ary m q) = slotCount ary := by
  unfold slotCount
  congr 2
  refine Finset.filter_congr fun i _ => ?_
  by_cases hi : i = m
  · subst hi
    rw [update_self, h]
  · rw [update_of_ne hi]

theorem slotCount_fill {ary : Fin 32 → Slot α} {m : Fin 32} {q : Slot α} (h : ary m = .null) (hq : q.isNull = false) :
    slotCount (update ary m q) = slotCount ary + 1 := by
  unfold slotCount
  have hset : (Finset.univ.filter fun i => (update ary m q i).isNull = false) =
      insert m (Finset.univ.filter fun i => (ary i).isNull = false) := by
    ext i
    by_cases hi : i = m
    · subst hi
      simp [hq]
    · simp [hi]
  rw [hset, Finset.card_insert_of_notMem (by rw [Finset.mem_filter, h]; simp [Slot.isNull])]
  push_cast
  rfl

theorem slotCount_clear {m : Fin 32} (h : (ary m).isNull = false) :
    slotCount (update ary m .null) = slotCount ary - 1 := by
  have hfill := @slotCount_fill α (update ary m .null) m (ary m) (update_self ..) h
  rw [update_idem, update_eq_self] at hfill
  omega

theorem slotCount_eq_zero (h : slotCount ary = 0) (i : Fin 32) : ary i = .null := by
  unfold slotCount at h
  have hempty : (Finset.univ.filter fun i => (ary i).isNull = false) = ∅ := Finset.card_eq_zero.mp (by exact_mod_cast h)
  refine Slot.eq_null ?_
  have : i ∉ (Finset.univ.filter fun i => (ary i).isNull = false) := by rw [hempty]; simp
  simpa using this

/-! ## Free layers -/

/-- A free layer is zero but for the entry that links the list. -/
def Clean (idFree : List (Slot α)) : Prop :=
  ∀ q ∈ idFree, ∃ ary, q = .layer 0 ary 0 ∧ ∀ i, i ≠ 0 → ary i = .null

theorem clean_cons_zero (h : Clean idFree) : Clean (.zero :: idFree) := by
  intro q hq
  rcases List.mem_cons.mp hq with rfl | hq
  · exact ⟨fun _ => .null, rfl, fun _ _ => rfl⟩
  · exact h q hq

theorem allocLayer_ok (h : Clean idFree) (hpos : 0 < idFree.length) :
    ∃ rest, allocLayer idFree = some (.zero, rest) ∧ Clean rest ∧ idFree.length = rest.length + 1 := by
  cases idFree with
  | nil => simp at hpos
  | cons q rest =>
    obtain ⟨ary, rfl, hary⟩ := h q (by simp)
    refine ⟨rest, ?_, fun q hq => h q (by simp [hq]), rfl⟩
    have hz : update ary 0 .null = fun _ => .null := by
      funext i
      by_cases hi : i = 0
      · rw [hi, update_self]
      · rw [update_of_ne hi, hary i hi]
    rw [allocLayer, hz]
    rfl

theorem idrPreGet_ok (h : Clean idFree) : Clean (idrPreGet idFree) ∧ idrFreeMax ≤ (idrPreGet idFree).length := by
  have hfold : ∀ (xs : List Nat) (idFree : List (Slot α)), Clean idFree →
      Clean (xs.foldl (fun idFree _ => freeLayer idFree .zero) idFree) ∧
      (xs.foldl (fun idFree _ => freeLayer idFree .zero) idFree).length = idFree.length + xs.length := by
    intro xs
    induction xs with
    | nil => exact fun idFree h => ⟨h, rfl⟩
    | cons x xs ih =>
      intro idFree h
      obtain ⟨h1, h2⟩ := ih (freeLayer idFree .zero) (clean_cons_zero h)
      refine ⟨h1, ?_⟩
      rw [List.foldl_cons, h2]
      simp only [freeLayer, List.length_cons]
      omega
  obtain ⟨h1, h2⟩ := hfold (List.range (idrFreeMax - idFree.length)) idFree h
  refine ⟨h1, ?_⟩
  unfold idrPreGet
  rw [h2, List.length_range]
  omega

/-! ## Searching -/

/-- From the id on, every id in the same part of the tree is in use. -/
def Exhausted (d : Nat) (s : Slot α) (id : Nat) : Prop :=
  ∀ k, id ≤ k → k / 32 ^ d = id / 32 ^ d → look d s k ≠ none

/-- The search never has to leave the last entry of a layer that is not the bottom one: where the id is in the last
entry, and every id from there to its end is in use, the entry is full. -/
def NoCarry : Nat → Slot α → Nat → Prop
  | d + 2, .layer _ ary _, id =>
    (idrDigit (d + 1) id = 31 → Exhausted (d + 1) (ary 31) id → Full (d + 1) (ary 31)) ∧
      NoCarry (d + 1) (ary (idrDigit (d + 1) id)) id
  | _, _, _ => True

/-- The pointer has been stored under the least id from `id` on that was not in use. -/
structure Found (d : Nat) (p p' : Slot α) (ptr : α) (id id' : Nat) : Prop where
  sound : Sound d p'
  base : id' / 32 ^ d = id / 32 ^ d
  ge : id ≤ id'
  was : look d p id' = none
  least : ∀ k, id ≤ k → k < id' → look d p k ≠ none
  look_eq : ∀ k, look d p' k = if k % 32 ^ d = id' % 32 ^ d then some ptr else look d p k

theorem found_user (ptr : α) (id : Nat) : Found 0 .null (.user ptr) ptr id id :=
  ⟨⟨ptr, rfl⟩, rfl, le_rfl, rfl, fun k h1 h2 => by omega, fun k => by simp [look, Nat.mod_one]⟩

theorem div_pow_succ (d id : Nat) : id / 32 ^ (d + 1) = id / 32 ^ d / 32 := by
  rw [Nat.pow_succ, Nat.div_div_eq_div_mul]

/-- An id is the number of its part of the tree with the digit behind it. -/
theorem div_eq_digit (d id : Nat) : id / 32 ^ d = id / 32 ^ (d + 1) * 32 + (idrDigit d id).val := by
  rw [div_pow_succ, idrDigit_val]
  omega

/-- Two ids agree on a tree if they agree on the digit of its top layer and below that. -/
theorem mod_pow_succ_iff {k id : Nat} :
    k % 32 ^ (d + 1) = id % 32 ^ (d + 1) ↔ idrDigit d k = idrDigit d id ∧ k % 32 ^ d = id % 32 ^ d := by
  have hsplit : ∀ a, a % 32 ^ (d + 1) = a % 32 ^ d + 32 ^ d * (idrDigit d a).val := fun a => by
    rw [idrDigit_val, Nat.pow_succ, Nat.mod_mul]
  have hpos : 0 < 32 ^ d := Nat.pow_pos (by decide)
  rw [hsplit, hsplit, Fin.ext_iff]
  constructor
  · intro h
    have hlow : k % 32 ^ d = id % 32 ^ d := by
      have := congrArg (· % 32 ^ d) h
      simpa [Nat.add_mul_mod_self_left, Nat.mod_mod] using this
    rw [hlow] at h
    exact ⟨Nat.eq_of_mul_eq_mul_left hpos (by omega), hlow⟩
  · rintro ⟨h1, h2⟩
    rw [h1, h2]

section Parent

variable {d id id₁ id' : Nat} {bitmap bitmap' : BitVec 32} {ary : Fin 32 → Slot α} {count count' : Int} {m : Fin 32}
  {q q' : Slot α} {ptr : α}

/-- The id with which the search enters entry `m` of a layer: the one it came with, or the first one of the entry. -/
structure Enters (d id : Nat) (m : Fin 32) (id₁ : Nat) : Prop where
  part : id₁ / 32 ^ d = id / 32 ^ (d + 1) * 32 + m
  ge : id ≤ id₁
  before : ∀ k, id ≤ k → k < id₁ → k / 32 ^ (d + 1) = id / 32 ^ (d + 1) ∧ idrDigit d id ≤ idrDigit d k ∧ idrDigit d k < m

theorem enters_self (d id : Nat) : Enters d id (idrDigit d id) id :=
  ⟨div_eq_digit d id, le_rfl, fun k h1 h2 => by omega⟩

theorem enters_first {m : Fin 32} (h : idrDigit d id < m) :
    Enters d id m ((id / 32 ^ (d + 1) * 32 + m) * 32 ^ d) := by
  have hpos : 0 < 32 ^ d := Nat.pow_pos (by decide)
  have hself := div_eq_digit d id
  have hlt : id / 32 ^ d < id / 32 ^ (d + 1) * 32 + m := by
    rw [hself]
    have := Fin.lt_def.mp h
    omega
  refine ⟨Nat.mul_div_cancel _ hpos, ?_, fun k h1 h2 => ?_⟩
  · exact le_of_lt ((Nat.div_lt_iff_lt_mul hpos).mp hlt)
  · have hk := div_eq_digit d k
    have hk2 : k / 32 ^ d < id / 32 ^ (d + 1) * 32 + m := (Nat.div_lt_iff_lt_mul hpos).mpr h2
    have hk1 : id / 32 ^ d ≤ k / 32 ^ d := Nat.div_le_div_right h1
    have := (idrDigit d k).isLt
    have := (idrDigit d id).isLt
    have := m.isLt
    rw [Fin.le_def, Fin.lt_def]
    omega

/-- What is found below an entry is found in the layer. -/
theorem Found.parent (hent : Enters d id m id₁) (hfull : ∀ i, idrDigit d id ≤ i → i < m → Full d (ary i))
    (hq : ∀ k, look d q k = look d (ary m) k) (hf : Found d q q' ptr id₁ id')
    (hsound : Sound (d + 1) (.layer bitmap' (update ary m q') count')) :
    Found (d + 1) (.layer bitmap ary count) (.layer bitmap' (update ary m q') count') ptr id id' := by
  have hpart : id' / 32 ^ d = id / 32 ^ (d + 1) * 32 + m := hf.base.trans hent.part
  have hself := div_eq_digit d id'
  have hm := m.isLt
  have hlt := (idrDigit d id').isLt
  have hdigit : idrDigit d id' = m := Fin.ext (by omega)
  refine ⟨hsound, by omega, hent.ge.trans hf.ge, ?_, fun k h1 h2 => ?_, fun k => ?_⟩
  · rw [look_layer, hdigit, ← hq]
    exact hf.was
  · rw [look_layer]
    by_cases hk : k < id₁
    · obtain ⟨-, hlo, hhi⟩ := hent.before k h1 hk
      exact hfull _ hlo hhi k
    · -- the id lies between two of the entry
      have hkm : idrDigit d k = m := by
        have hk1 : id₁ / 32 ^ d ≤ k / 32 ^ d := Nat.div_le_div_right (Nat.le_of_not_lt hk)
        have hk2 : k / 32 ^ d ≤ id' / 32 ^ d := Nat.div_le_div_right (le_of_lt h2)
        have hks := div_eq_digit d k
        have := hent.part
        have := (idrDigit d k).isLt
        exact Fin.ext (by omega)
      rw [hkm, ← hq]
      exact hf.least k (Nat.le_of_not_lt hk) h2
  · rw [look_layer, look_layer]
    by_cases hk : idrDigit d k = m
    · rw [hk, update_self, hf.look_eq, hq]
      refine if_congr ?_ rfl rfl
      rw [mod_pow_succ_iff, hk, hdigit]
      simp
    · rw [update_of_ne hk, if_neg]
      rw [mod_pow_succ_iff, hdigit]
      exact fun h => hk h.1

end Parent

/-! ### One layer -/

section Layer

variable {d id : Nat} {bitmap : BitVec 32} {ary : Fin 32 → Slot α} {count : Int}

theorem Sound.child (h : Sound (d + 1) (.layer bitmap ary count)) (i : Fin 32) : ary i = .null ∨ Sound d (ary i) := by
  obtain ⟨_, _, _, heq, hch, -⟩ := h
  cases heq
  exact hch i

theorem Sound.bits (h : Sound (d + 1) (.layer bitmap ary count)) (i : Fin 32) :
    bitmap.getLsbD i = true ↔ Full d (ary i) := by
  obtain ⟨_, _, _, heq, -, hbits, -⟩ := h
  cases heq
  exact hbits i

theorem Sound.count_eq (h : Sound (d + 1) (.layer bitmap ary count)) : count = slotCount ary := by
  obtain ⟨_, _, _, heq, -, -, hcount⟩ := h
  cases heq
  exact hcount

/-- The next entry that is not full, if there is one. -/
theorem Sound.next_entry (h : Sound (d + 1) (.layer bitmap ary count)) (n : Fin 32) :
    (¬ findNextBit (~~~ bitmap) (idrSize - n) n < idrSize ∧ ∀ i, n ≤ i → Full d (ary i)) ∨
    ∃ m : Fin 32, findNextBit (~~~ bitmap) (idrSize - n) n = m ∧ n ≤ m ∧ (∀ i, n ≤ i → i < m → Full d (ary i)) ∧
      ¬ Full d (ary m) := by
  obtain ⟨h1, h2, h3, h4⟩ := findNextBit_spec (~~~ bitmap) (idrSize - n) n
  generalize findNextBit (~~~ bitmap) (idrSize - n) n = m at h1 h2 h3 h4
  have hn := n.isLt
  have hsum : n.val + (idrSize - n.val) = 32 := by unfold idrSize; omega
  rw [hsum] at h2 h4
  have hfull : ∀ i : Fin 32, n ≤ i → i.val < m → Full d (ary i) := by
    intro i hlo hhi
    have hbit := h3 i (Fin.le_def.mp hlo) hhi
    rw [BitVec.getLsbD_not] at hbit
    refine (h.bits i).mp ?_
    simpa [i.isLt] using hbit
  by_cases hm : m < 32
  · right
    refine ⟨⟨m, hm⟩, rfl, Fin.le_def.mpr h1, fun i hlo hhi => hfull i hlo (Fin.lt_def.mp hhi), fun hf => ?_⟩
    have hbit := h4 hm
    rw [BitVec.getLsbD_not, (h.bits ⟨m, hm⟩).mpr hf] at hbit
    simp at hbit
  · exact .inl ⟨hm, fun i hlo => hfull i hlo (by omega)⟩

theorem exhausted_of_full (hall : ∀ i, idrDigit d id ≤ i → Full d (ary i)) :
    Exhausted (d + 1) (.layer bitmap ary count) id := by
  intro k hle hpart
  refine hall _ ?_ k
  have h1 := div_eq_digit d id
  have h2 := div_eq_digit d k
  have h3 : id / 32 ^ d ≤ k / 32 ^ d := Nat.div_le_div_right hle
  rw [Fin.le_def]
  omega

/-- From its first id on, a part of the tree that is not full is not exhausted. -/
theorem Exhausted.full {s : Slot α} (h : Exhausted d s id) (halign : id % 32 ^ d = 0) : Full d s := by
  have hpos : 0 < 32 ^ d := Nat.pow_pos (by decide)
  intro k
  have hid : 32 ^ d * (id / 32 ^ d) = id := Nat.mul_div_cancel' (Nat.dvd_of_mod_eq_zero halign)
  have hk : look d s k = look d s (id + k % 32 ^ d) := by
    refine look_congr ?_
    rw [← hid, Nat.mul_add_mod, Nat.mod_mod]
  rw [hk]
  refine h _ (Nat.le_add_right ..) ?_
  rw [← hid, Nat.mul_add_div hpos, Nat.div_eq_of_lt (Nat.mod_lt _ hpos), Nat.add_zero, Nat.mul_div_cancel_left _ hpos]

theorem noCarry_aligned {s : Slot α} (halign : id % 32 ^ d = 0) : NoCarry d s id := by
  induction d generalizing s with
  | zero => trivial
  | succ d ih =>
    have hlow : id % 32 ^ d = 0 := Nat.mod_eq_zero_of_dvd
      ((Nat.pow_dvd_pow 32 (Nat.le_succ d)).trans (Nat.dvd_of_mod_eq_zero halign))
    cases d with
    | zero => cases s <;> trivial
    | succ d =>
      cases s with
      | null => trivial
      | user => trivial
      | layer bitmap ary count =>
        refine ⟨fun h => absurd h ?_, ih hlow⟩
        have hz : (idrDigit (d + 1) id).val = 0 := by
          rw [idrDigit_val, ← Nat.mod_mul_right_div_self, ← Nat.pow_succ, halign, Nat.zero_div]
        intro h31
        rw [h31] at hz
        cases hz

theorem noCarry_zero (d id : Nat) : NoCarry (d + 1) (.zero : Slot α) id := by
  cases d with
  | zero => trivial
  | succ d =>
    refine ⟨fun _ hex => absurd (look_null ..) (hex id le_rfl rfl), ?_⟩
    cases d <;> trivial

/-- The pointer of a search that starts later, behind ids that are in use. -/
theorem Found.earlier {p p' : Slot α} {ptr : α} {id₂ id' : Nat} (h : Found d p p' ptr id₂ id') (hle : id ≤ id₂)
    (hpart : id₂ / 32 ^ d = id / 32 ^ d) (hused : ∀ k, id ≤ k → k < id₂ → look d p k ≠ none) :
    Found d p p' ptr id id' := by
  refine ⟨h.sound, h.base.trans hpart, hle.trans h.ge, h.was, fun k h1 h2 => ?_, h.look_eq⟩
  by_cases hk : k < id₂
  · exact hused k h1 hk
  · exact h.least k (Nat.le_of_not_lt hk) h2

end Layer

variable {d id : Nat}

theorem Sound.not_null {s : Slot α} (h : Sound d s) : s.isNull = false := by
  cases d with
  | zero =>
    obtain ⟨ptr, rfl⟩ := h
    rfl
  | succ d =>
    obtain ⟨bitmap, ary, count, rfl, -⟩ := h
    rfl

/-- A layer one entry of which has been replaced. -/
theorem Sound.set {bitmap bitmap' : BitVec 32} {ary : Fin 32 → Slot α} {count count' : Int} {m : Fin 32}
    {q : Slot α} (h : Sound (d + 1) (.layer bitmap ary count)) (hq : Sound d q)
    (hbit : ∀ i : Fin 32, bitmap'.getLsbD i = true ↔ (if i = m then Full d q else bitmap.getLsbD i = true))
    (hcount : count' = if (ary m).isNull then count + 1 else count) :
    Sound (d + 1) (.layer bitmap' (update ary m q) count') := by
  refine ⟨_, _, _, rfl, fun i => ?_, fun i => ?_, ?_⟩
  · by_cases hi : i = m
    · subst hi
      rw [update_self]
      exact .inr hq
    · rw [update_of_ne hi]
      exact h.child i
  · rw [hbit]
    by_cases hi : i = m
    · subst hi
      rw [update_self, if_pos rfl]
    · rw [update_of_ne hi, if_neg hi]
      exact h.bits i
  · rw [hcount, h.count_eq]
    split
    case isTrue hn => exact (slotCount_fill (Slot.eq_null hn) hq.not_null).symm
    case isFalse hn =>
      refine (slotCount_update ?_).symm
      rw [hq.not_null]
      simpa using hn

/-! ### The whole search -/

/-- What the search in a tree of `d` layers has to do. -/
def SearchOk (d : Nat) (ptr : α) (run : Slot α → List (Slot α) → Nat → Option (Search × Slot α × List (Slot α)))
    (p : Slot α) (idFree : List (Slot α)) (id : Nat) : Prop :=
  (Exhausted d p id ∧ run p idFree id = some (.up ((id / 32 ^ d + 1) * 32 ^ d), p, idFree)) ∨
  ∃ id' p' idFree', run p idFree id = some (.found id', p', idFree') ∧ Found d p p' ptr id id' ∧ Clean idFree' ∧
    idFree.length + 1 ≤ idFree'.length + d

theorem subAllocLoop_up {ptr : α} {l fuel : Nat} {bitmap : BitVec 32} {ary : Fin 32 → Slot α} {count : Int}
    {idFree : List (Slot α)} {below : Slot α → List (Slot α) → Nat → Option (Search × Slot α × List (Slot α))}
    (hm : ¬ findNextBit (~~~ bitmap) (idrSize - (idrDigit l id).val) (idrDigit l id).val < idrSize) :
    subAllocLoop ptr l below (fuel + 1) (.layer bitmap ary count) idFree id =
      some (.up ((id / 32 ^ (l + 1) + 1) * 32 ^ (l + 1)), .layer bitmap ary count, idFree) := by
  rw [subAllocLoop, dif_neg hm, idrNext_eq]

/-- The id with which the loop enters an entry. -/
theorem enters_entry {l id : Nat} {m : Fin 32} (hle : idrDigit l id ≤ m) :
    Enters l id m (if m.val ≠ (idrDigit l id).val then
      ((id >>> (idrBits * l)) ^^^ (idrDigit l id).val ^^^ m.val) <<< (idrBits * l) else id) := by
  by_cases hne : m.val = (idrDigit l id).val
  · rw [if_neg (not_not.mpr hne), Fin.ext hne]
    exact enters_self l id
  · rw [if_pos hne, idrAdjust_eq m.isLt]
    exact enters_first (Fin.lt_def.mpr (by have := Fin.le_def.mp hle; omega))

theorem Enters.lt_max {id₁ : Nat} {m : Fin 32} (h : Enters d id m id₁)
    (hmax : (id / 32 ^ (d + 1) + 1) * 32 ^ (d + 1) ≤ maxIdBit) :
    id₁ < maxIdBit ∧ (id₁ / 32 ^ d + 1) * 32 ^ d ≤ maxIdBit := by
  have hpos : 0 < 32 ^ d := Nat.pow_pos (by decide)
  have hm := m.isLt
  have hle : (id₁ / 32 ^ d + 1) * 32 ^ d ≤ maxIdBit := by
    refine le_trans ?_ hmax
    rw [h.part, Nat.pow_succ, Nat.mul_comm (32 ^ d) 32, ← Nat.mul_assoc]
    refine Nat.mul_le_mul_right _ ?_
    omega
  have hlt : id₁ < (id₁ / 32 ^ d + 1) * 32 ^ d := by
    rw [Nat.mul_comm]
    exact Nat.lt_mul_div_succ id₁ hpos
  exact ⟨lt_of_lt_of_le hlt hle, hle⟩

theorem searchLeaf_ok {ptr : α} {p : Slot α} {idFree : List (Slot α)} (hs : Sound 1 p) (hclean : Clean idFree)
    (hmax : (id / 32 ^ 1 + 1) * 32 ^ 1 ≤ maxIdBit) : SearchOk 1 ptr (subAllocFrom ptr 0) p idFree id := by
  have hlayer := hs
  obtain ⟨bitmap, ary, count, rfl, -⟩ := hlayer
  rcases hs.next_entry (idrDigit 0 id) with ⟨hnone, hfull⟩ | ⟨m, hm, hle, hfull, hfree⟩
  · exact .inl ⟨exhausted_of_full hfull, subAllocLoop_up hnone⟩
  · right
    have hent := @enters_entry 0 id m hle
    have hnull : ary m = .null := by
      refine (hs.child m).resolve_right ?_
      rintro ⟨a, ha⟩
      exact hfree fun k => by simp [ha, look]
    generalize hid₁ : (if m.val ≠ (idrDigit 0 id).val then
      ((id >>> (idrBits * 0)) ^^^ (idrDigit 0 id).val ^^^ m.val) <<< (idrBits * 0) else id) = id₁ at hent
    have hlt := (hent.lt_max hmax).1
    refine ⟨id₁, .layer (bitmap ||| 1#32 <<< m.val) (update ary m (.user ptr)) (count + 1), idFree, ?_, ?_, hclean,
      le_rfl⟩
    · rw [subAllocFrom, subAllocLoop]
      simp only [hm]
      rw [dif_pos (show m.val < idrSize from m.isLt), hid₁, if_neg (Nat.not_le.mpr hlt), if_pos trivial]
    · refine Found.parent hent hfull (fun k => by rw [hnull]) (found_user ptr id₁) (hs.set ⟨ptr, rfl⟩ (fun i => ?_) ?_)
      · rw [getLsbD_setBit]
        by_cases hi : i = m
        · simp [hi, Full, look]
        · simp [hi]
      · rw [hnull]
        rfl

section Inner

variable {ptr : α} {l id fuel : Nat} {bitmap : BitVec 32} {ary : Fin 32 → Slot α} {count : Int} {idFree : List (Slot α)}
  {m : Fin 32}

/-- How the loop goes on from an entry `q` of the layer, by what the search below it returns. -/
def subAllocEntry (ptr : α) (l fuel : Nat) (bitmap : BitVec 32) (ary : Fin 32 → Slot α) (count : Int) (m : Fin 32) :
    Option (Search × Slot α × List (Slot α)) → Option (Search × Slot α × List (Slot α))
  | none => none
  | some (.up id, q, idFree) =>
    subAllocLoop ptr (l + 1) (subAllocFrom ptr l) fuel (.layer bitmap (update ary m q) count) idFree id
  | some (.failed, q, idFree) => some (.failed, .layer bitmap (update ary m q) count, idFree)
  | some (.found id, q, idFree) =>
    some (.found id, .layer (if q.isFull then bitmap ||| 1#32 <<< (idrDigit (l + 1) id).val else bitmap)
      (update ary m q) count, idFree)

/-- The entry the search goes on in, made if it is missing. -/
theorem subAllocLoop_enter {id₁ : Nat} (hm : findNextBit (~~~ bitmap) (idrSize - (idrDigit (l + 1) id).val)
      (idrDigit (l + 1) id).val = m)
    (hid : (if m.val ≠ (idrDigit (l + 1) id).val then
      ((id >>> (idrBits * (l + 1))) ^^^ (idrDigit (l + 1) id).val ^^^ m.val) <<< (idrBits * (l + 1)) else id) = id₁)
    (hlt : id₁ < maxIdBit) (hclean : Clean idFree) (hpos : 0 < idFree.length) :
    (ary m ≠ .null ∧ subAllocLoop ptr (l + 1) (subAllocFrom ptr l) (fuel + 1) (.layer bitmap ary count) idFree id =
        subAllocEntry ptr l fuel bitmap ary count m (subAllocFrom ptr l (ary m) idFree id₁)) ∨
      ary m = .null ∧ ∃ rest, Clean rest ∧ idFree.length = rest.length + 1 ∧
        subAllocLoop ptr (l + 1) (subAllocFrom ptr l) (fuel + 1) (.layer bitmap ary count) idFree id =
        subAllocEntry ptr l fuel bitmap ary (count + 1) m (subAllocFrom ptr l .zero rest id₁) := by
  rw [subAllocLoop]
  simp only [hm]
  rw [dif_pos (show m.val < idrSize from m.isLt)]
  simp only [hid, if_neg (Nat.not_le.mpr hlt), Nat.succ_ne_zero, if_false, Fin.eta]
  cases hq : ary m with
  | null =>
    obtain ⟨rest, halloc, hrest, hlen⟩ := allocLayer_ok hclean hpos
    refine .inr ⟨rfl, rest, hrest, hlen, ?_⟩
    simp only [halloc, Option.map_some]
    rcases subAllocFrom ptr l .zero rest id₁ with _ | ⟨_ | _ | _, _, _⟩ <;> rfl
  | user a =>
    refine .inl ⟨by simp, ?_⟩
    dsimp only
    rcases subAllocFrom ptr l (.user a) idFree id₁ with _ | ⟨_ | _ | _, _, _⟩ <;> rfl
  | layer b a c =>
    refine .inl ⟨by simp, ?_⟩
    dsimp only
    rcases subAllocFrom ptr l (.layer b a c) idFree id₁ with _ | ⟨_ | _ | _, _, _⟩ <;> rfl

theorem subAllocEntry_found {id₁ id' : Nat} {q q' : Slot α} {count' : Int} (hs : Sound (l + 2) (.layer bitmap ary count))
    (hent : Enters (l + 1) id m id₁) (hfull : ∀ i, idrDigit (l + 1) id ≤ i → i < m → Full (l + 1) (ary i))
    (hfree : ¬ Full (l + 1) (ary m)) (hq : ∀ k, look (l + 1) q k = look (l + 1) (ary m) k)
    (hcount : count' = if (ary m).isNull then count + 1 else count) (hf : Found (l + 1) q q' ptr id₁ id') :
    ∃ p', subAllocEntry ptr l fuel bitmap ary count' m (some (.found id', q', idFree)) = some (.found id', p', idFree) ∧
      Found (l + 2) (.layer bitmap ary count) p' ptr id id' := by
  have hdigit : idrDigit (l + 1) id' = m := by
    have h1 := div_eq_digit (l + 1) id'
    rw [hf.base, hent.part] at h1
    have := m.isLt
    have := (idrDigit (l + 1) id').isLt
    exact Fin.ext (by omega)
  refine ⟨_, rfl, hf.parent hent hfull hq (hs.set hf.sound (fun i => ?_) hcount)⟩
  have hm : bitmap.getLsbD m = false := by
    rw [← Bool.not_eq_true, hs.bits m]
    exact hfree
  rw [hdigit]
  by_cases hq' : q'.isFull = true
  · rw [if_pos hq', getLsbD_setBit]
    by_cases hi : i = m
    · simp only [hi, decide_true, Bool.or_true, if_true, true_iff]
      exact (Slot.isFull_iff hf.sound).mp hq'
    · simp [hi]
  · rw [if_neg hq']
    by_cases hi : i = m
    · subst hi
      simp only [hm, Bool.false_eq_true, if_true, false_iff]
      exact fun h => hq' ((Slot.isFull_iff hf.sound).mpr h)
    · simp [hi]

/-- What the loop does in the entry that it enters: it finds an id below it, or it goes on behind it. -/
theorem subAllocLoop_entry {id₁ : Nat} (ih : ∀ p idFree id, Sound (l + 1) p → Clean idFree → l ≤ idFree.length →
      (id / 32 ^ (l + 1) + 1) * 32 ^ (l + 1) ≤ maxIdBit → NoCarry (l + 1) p id →
      SearchOk (l + 1) ptr (subAllocFrom ptr l) p idFree id)
    (hs : Sound (l + 2) (.layer bitmap ary count)) (hclean : Clean idFree) (hlen : l + 1 ≤ idFree.length)
    (hm : findNextBit (~~~ bitmap) (idrSize - (idrDigit (l + 1) id).val) (idrDigit (l + 1) id).val = m)
    (hid : (if m.val ≠ (idrDigit (l + 1) id).val then
      ((id >>> (idrBits * (l + 1))) ^^^ (idrDigit (l + 1) id).val ^^^ m.val) <<< (idrBits * (l + 1)) else id) = id₁)
    (hent : Enters (l + 1) id m id₁) (hfull : ∀ i, idrDigit (l + 1) id ≤ i → i < m → Full (l + 1) (ary i))
    (hfree : ¬ Full (l + 1) (ary m)) (hmax : (id / 32 ^ (l + 2) + 1) * 32 ^ (l + 2) ≤ maxIdBit)
    (hcarry : NoCarry (l + 1) (ary m) id₁) :
    (∃ id' p' idFree', subAllocLoop ptr (l + 1) (subAllocFrom ptr l) (fuel + 1) (.layer bitmap ary count) idFree id =
        some (.found id', p', idFree') ∧ Found (l + 2) (.layer bitmap ary count) p' ptr id id' ∧ Clean idFree' ∧
        idFree.length ≤ idFree'.length + (l + 1)) ∨
      Exhausted (l + 1) (ary m) id₁ ∧
        subAllocLoop ptr (l + 1) (subAllocFrom ptr l) (fuel + 1) (.layer bitmap ary count) idFree id =
          subAllocLoop ptr (l + 1) (subAllocFrom ptr l) fuel (.layer bitmap ary count) idFree
            ((id₁ / 32 ^ (l + 1) + 1) * 32 ^ (l + 1)) := by
  obtain ⟨hlt, hmax₁⟩ := hent.lt_max hmax
  rcases @subAllocLoop_enter α ptr l id fuel bitmap ary count idFree m id₁ hm hid hlt hclean (by omega) with
    ⟨hne, e⟩ | ⟨hnull, rest, hrest, hrlen, e⟩
  · have hsm := (hs.child m).resolve_left hne
    rcases ih (ary m) idFree id₁ hsm hclean (by omega) hmax₁ hcarry with ⟨hex, eb⟩ | ⟨id', q', idFree', eb, hf, hcl, hle⟩
    · refine .inr ⟨hex, ?_⟩
      rw [e, eb, subAllocEntry, update_eq_self]
    · obtain ⟨p', ep, hf'⟩ := @subAllocEntry_found α ptr l id fuel bitmap ary count idFree' m id₁ id' (ary m) q' count hs
        hent hfull hfree (fun _ => rfl) (by rw [hsm.not_null]; rfl) hf
      exact .inl ⟨id', p', idFree', by rw [e, eb, ep], hf', hcl, by omega⟩
  · rcases ih .zero rest id₁ (sound_zero l) hrest (by omega) hmax₁ (by rw [hnull] at hcarry; exact noCarry_zero l id₁) with
      ⟨hex, -⟩ | ⟨id', q', idFree', eb, hf, hcl, hle⟩
    · exact absurd (look_zero ..) (hex id₁ le_rfl rfl)
    · obtain ⟨p', ep, hf'⟩ := @subAllocEntry_found α ptr l id fuel bitmap ary count idFree' m id₁ id' .zero q' (count + 1)
        hs hent hfull hfree (fun k => by rw [hnull, look_zero, look_null]) (by rw [hnull]; rfl) hf
      exact .inl ⟨id', p', idFree', by rw [e, eb, ep], hf', hcl, by omega⟩

/-- The search from the first id of an entry of a layer: no entry that it enters is exhausted. -/
theorem searchAligned_ok (ih : ∀ p idFree id, Sound (l + 1) p → Clean idFree → l ≤ idFree.length →
      (id / 32 ^ (l + 1) + 1) * 32 ^ (l + 1) ≤ maxIdBit → NoCarry (l + 1) p id →
      SearchOk (l + 1) ptr (subAllocFrom ptr l) p idFree id)
    (hs : Sound (l + 2) (.layer bitmap ary count)) (hclean : Clean idFree) (hlen : l + 1 ≤ idFree.length)
    (hmax : (id / 32 ^ (l + 2) + 1) * 32 ^ (l + 2) ≤ maxIdBit) (halign : id % 32 ^ (l + 1) = 0) :
    SearchOk (l + 2) ptr (subAllocLoop ptr (l + 1) (subAllocFrom ptr l) (fuel + 1)) (.layer bitmap ary count) idFree id := by
  rcases hs.next_entry (idrDigit (l + 1) id) with ⟨hnone, hfull⟩ | ⟨m, hm, hle, hfull, hfree⟩
  · exact .inl ⟨exhausted_of_full hfull, subAllocLoop_up hnone⟩
  · have hent := @enters_entry (l + 1) id m hle
    generalize hid : (if m.val ≠ (idrDigit (l + 1) id).val then
      ((id >>> (idrBits * (l + 1))) ^^^ (idrDigit (l + 1) id).val ^^^ m.val) <<< (idrBits * (l + 1)) else id) = id₁ at hent
    have halign₁ : id₁ % 32 ^ (l + 1) = 0 := by
      rw [← hid]
      split
      · rw [idrAdjust_eq m.isLt, Nat.mul_mod_left]
      · exact halign
    rcases subAllocLoop_entry ih hs hclean hlen hm hid hent hfull hfree hmax (noCarry_aligned halign₁) with
      ⟨id', p', idFree', e, hf, hcl, hle'⟩ | ⟨hex, -⟩
    · exact .inr ⟨id', p', idFree', e, hf, hcl, by omega⟩
    · exact absurd (hex.full halign₁) hfree

/-- The first id behind an entry that is not the last one. -/
theorem next_entry_first {n : Fin 32} (hn : idrDigit (l + 1) id = n) (h31 : n ≠ 31) :
    (id / 32 ^ (l + 1) + 1) * 32 ^ (l + 1) / 32 ^ (l + 2) = id / 32 ^ (l + 2) ∧
      id < (id / 32 ^ (l + 1) + 1) * 32 ^ (l + 1) ∧ (id / 32 ^ (l + 1) + 1) * 32 ^ (l + 1) % 32 ^ (l + 1) = 0 := by
  have hpos : 0 < 32 ^ (l + 1) := Nat.pow_pos (by decide)
  have hself : id / 32 ^ (l + 1) = id / 32 ^ (l + 2) * 32 + (idrDigit (l + 1) id).val := div_eq_digit (l + 1) id
  have hlt := n.isLt
  have hne : n.val ≠ 31 := fun h => h31 (Fin.ext h)
  rw [hn] at hself
  refine ⟨?_, ?_, Nat.mul_mod_left ..⟩
  · rw [div_pow_succ (l + 1), Nat.mul_div_cancel _ hpos]
    omega
  · rw [Nat.mul_comm]
    exact Nat.lt_mul_div_succ id hpos

end Inner

/-- The search stores the pointer under the least id that is free, or returns the first id behind the tree. -/
theorem subAllocFrom_ok {ptr : α} {l : Nat} {p : Slot α} {idFree : List (Slot α)} {id : Nat} (hs : Sound (l + 1) p)
    (hclean : Clean idFree) (hlen : l ≤ idFree.length) (hmax : (id / 32 ^ (l + 1) + 1) * 32 ^ (l + 1) ≤ maxIdBit)
    (hcarry : NoCarry (l + 1) p id) : SearchOk (l + 1) ptr (subAllocFrom ptr l) p idFree id := by
  induction l generalizing p idFree id with
  | zero => exact searchLeaf_ok hs hclean hmax
  | succ l ih =>
    have hsl := hs
    obtain ⟨bitmap, ary, count, rfl, -⟩ := hsl
    have ih' := fun p idFree id h1 h2 h3 h4 h5 => @ih p idFree id h1 h2 h3 h4 h5
    rcases hs.next_entry (idrDigit (l + 1) id) with ⟨hnone, hfull⟩ | ⟨m, hm, hle, hfull, hfree⟩
    · exact .inl ⟨exhausted_of_full hfull, subAllocLoop_up hnone⟩
    have hent := @enters_entry (l + 1) id m hle
    generalize hid : (if m.val ≠ (idrDigit (l + 1) id).val then
      ((id >>> (idrBits * (l + 1))) ^^^ (idrDigit (l + 1) id).val ^^^ m.val) <<< (idrBits * (l + 1)) else id) = id₁ at hent
    have hfirst : m = idrDigit (l + 1) id ∧ id₁ = id ∨ id₁ % 32 ^ (l + 1) = 0 := by
      rw [← hid]
      split
      · exact .inr (by rw [idrAdjust_eq m.isLt, Nat.mul_mod_left])
      case isFalse h => exact .inl ⟨Fin.ext (not_not.mp h), rfl⟩
    have hcarry₁ : NoCarry (l + 1) (ary m) id₁ := by
      rcases hfirst with ⟨hmn, heq⟩ | halign
      · rw [hmn, heq]
        exact hcarry.2
      · exact noCarry_aligned halign
    rcases @subAllocLoop_entry α ptr l id 33 bitmap ary count idFree m id₁ ih' hs hclean hlen hm hid hent hfull hfree hmax
      hcarry₁ with ⟨id', p', idFree', e, hf, hcl, hle'⟩ | ⟨hex, e⟩
    · exact .inr ⟨id', p', idFree', e, hf, hcl, by omega⟩
    · -- the entry is exhausted but not full: it is the one of the id, and not the last one of the layer
      obtain ⟨hmn, heq⟩ := hfirst.resolve_right fun halign => hfree (hex.full halign)
      rw [heq] at hex e
      have h31 : m ≠ 31 := by
        rintro rfl
        exact hfree (hcarry.1 hmn.symm hex)
      obtain ⟨hpart, hlt, halign⟩ := next_entry_first hmn.symm h31
      have hused : ∀ k, id ≤ k → k < (id / 32 ^ (l + 1) + 1) * 32 ^ (l + 1) →
          look (l + 2) (.layer bitmap ary count) k ≠ none := by
        intro k h1 h2
        have hk : k / 32 ^ (l + 1) = id / 32 ^ (l + 1) := by
          have hpos : 0 < 32 ^ (l + 1) := Nat.pow_pos (by decide)
          have h3 := (Nat.div_lt_iff_lt_mul hpos).mpr h2
          have h4 : id / 32 ^ (l + 1) ≤ k / 32 ^ (l + 1) := Nat.div_le_div_right h1
          omega
        have hdig : idrDigit (l + 1) k = m := by
          rw [hmn]
          refine Fin.ext ?_
          rw [idrDigit_val, idrDigit_val, hk]
        rw [look_layer, hdig]
        exact hex k h1 hk
      rcases @searchAligned_ok α ptr l ((id / 32 ^ (l + 1) + 1) * 32 ^ (l + 1)) 32 bitmap ary count idFree ih' hs hclean hlen
        (by rw [hpart]; exact hmax) halign with ⟨hex₂, e₂⟩ | ⟨id', p', idFree', e₂, hf, hcl, hle'⟩
      · left
        refine ⟨fun k h1 h2 => ?_, ?_⟩
        · by_cases hk : k < (id / 32 ^ (l + 1) + 1) * 32 ^ (l + 1)
          · exact hused k h1 hk
          · exact hex₂ k (Nat.le_of_not_lt hk) (h2.trans hpart.symm)
        · rw [subAllocFrom, e, e₂, hpart]
      · exact .inr ⟨id', p', idFree', by rw [subAllocFrom, e, e₂], hf.earlier (le_of_lt hlt) hpart hused, hcl, hle'⟩

end Layers

end Samba.Util
