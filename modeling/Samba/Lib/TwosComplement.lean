/-
Integers in the basic encoding rules: two's complement in bytes, the most significant byte first. Of the forms of an integer the
shortest one does not begin with nine bits that are the same.
-/
import Samba.Lib.Ber
import Mathlib.Tactic.Ring

namespace Ber

open List

/-- The integer that bytes stand for in two's complement, `none` for no bytes. -/
def integerValue : List UInt8 → Option Int
  | [] => none
  | b :: bs => some (if b < 0x80 then beNumber (b :: bs) else beNumber (b :: bs) - 256 ^ (b :: bs).length)

/-- The bytes stand for the integer, and no fewer bytes do. -/
structure ShortestInteger (bs : List UInt8) (i : Int) : Prop where
  value : integerValue bs = some i
  least : ∀ bs', integerValue bs' = some i → bs.length ≤ bs'.length

/-- The first nine bits of an integer of two bytes or more are not all the same. -/
def Compact : List UInt8 → Prop
  | b :: c :: _ => (b = 0 → 0x80 ≤ c) ∧ (b = 0xff → c < 0x80)
  | _ => True

/-! ## Ranges -/

theorem beNumber_cons (b : UInt8) (bs : List UInt8) : beNumber (b :: bs) = b.toNat * 256 ^ bs.length + beNumber bs := by
  induction bs using List.reverseRecOn with
  | nil => simp [beNumber]
  | append_singleton bs c ih =>
    rw [← cons_append, beNumber_append, ih, beNumber_append, length_append, length_singleton, pow_succ]
    simp only [foldl_cons, foldl_nil]
    ring

theorem lt_80_iff (b : UInt8) : b < 0x80 ↔ b.toNat < 128 := UInt8.lt_iff_toNat_lt

theorem le_80_iff (b : UInt8) : 0x80 ≤ b ↔ 128 ≤ b.toNat := UInt8.le_iff_toNat_le

theorem integerValue_range {bs : List UInt8} {i : Int} (h : integerValue bs = some i) :
    -(128 * 256 ^ (bs.length - 1) : Int) ≤ i ∧ i < 128 * 256 ^ (bs.length - 1) := by
  match bs with
  | [] => cases h
  | b :: bs =>
    have hrest := beNumber_lt bs
    have hb := b.toNat_lt
    have hpow : (256 : Nat) ^ (b :: bs).length = 256 * 256 ^ bs.length := by rw [length_cons, pow_succ, Nat.mul_comm]
    rw [integerValue, Option.some.injEq] at h
    subst h
    rw [length_cons, Nat.add_sub_cancel]
    have hcast : (256 : Int) ^ (bs.length + 1) = 256 * ((256 ^ bs.length : Nat) : Int) := by push_cast; ring
    have hcast' : (256 : Int) ^ bs.length = ((256 ^ bs.length : Nat) : Int) := by push_cast; rfl
    rw [hcast, hcast', beNumber_cons]
    generalize 256 ^ bs.length = p at hrest
    split
    · next hlow =>
      rw [lt_80_iff] at hlow
      have : b.toNat * p ≤ 127 * p := Nat.mul_le_mul_right p (by omega)
      push_cast
      omega
    · next hhigh =>
      rw [lt_80_iff] at hhigh
      have : 128 * p ≤ b.toNat * p := Nat.mul_le_mul_right p (by omega)
      have : b.toNat * p ≤ 255 * p := Nat.mul_le_mul_right p (by omega)
      push_cast
      omega

/-- A compact form of two bytes or more stands for an integer that has no room in fewer bytes. -/
theorem Compact.outside {b c : UInt8} {bs : List UInt8} {i : Int} (h : Compact (b :: c :: bs))
    (hvalue : integerValue (b :: c :: bs) = some i) :
    i < -(128 * 256 ^ bs.length : Int) ∨ (128 * 256 ^ bs.length : Int) ≤ i := by
  have hrest := beNumber_lt bs
  have hb := b.toNat_lt
  have hc := c.toNat_lt
  obtain ⟨hzero, hones⟩ := h
  rw [le_80_iff] at hzero
  rw [lt_80_iff] at hones
  have hzero : b.toNat = 0 → 128 ≤ c.toNat := fun h0 => hzero (UInt8.toNat_inj.mp h0)
  have hones : b.toNat = 255 → c.toNat < 128 := fun h0 => hones (UInt8.toNat_inj.mp h0)
  rw [integerValue, Option.some.injEq] at hvalue
  subst hvalue
  have hcast : (256 : Int) ^ (b :: c :: bs).length = 65536 * ((256 ^ bs.length : Nat) : Int) := by
    rw [length_cons, length_cons]
    push_cast
    ring
  have hcast' : (256 : Int) ^ bs.length = ((256 ^ bs.length : Nat) : Int) := by push_cast; rfl
  have hnumber : beNumber (b :: c :: bs) = (b.toNat * 256 + c.toNat) * 256 ^ bs.length + beNumber bs := by
    rw [beNumber_cons, beNumber_cons, length_cons, pow_succ]
    ring
  rw [hcast, hcast', hnumber]
  have hsmall : b.toNat < 128 → 128 ≤ b.toNat * 256 + c.toNat := fun _ => by omega
  have hlarge : ¬b.toNat < 128 → b.toNat * 256 + c.toNat ≤ 65407 := fun _ => by omega
  generalize b.toNat * 256 + c.toNat = n at hsmall hlarge
  generalize 256 ^ bs.length = p at hrest
  split
  · next hlow =>
    have : 128 * p ≤ n * p := Nat.mul_le_mul_right p (hsmall ((lt_80_iff b).mp hlow))
    push_cast
    omega
  · next hhigh =>
    have : n * p ≤ 65407 * p := Nat.mul_le_mul_right p (hlarge (mt (lt_80_iff b).mpr hhigh))
    push_cast
    omega

theorem Compact.shortest {bs : List UInt8} {i : Int} (h : Compact bs) (hvalue : integerValue bs = some i) :
    ShortestInteger bs i := by
  refine ⟨hvalue, fun bs' hvalue' => ?_⟩
  match bs with
  | [] => cases hvalue
  | [b] =>
    match bs' with
    | [] => cases hvalue'
    | _ :: _ => simp
  | b :: c :: bs =>
    obtain ⟨hlow, hhigh⟩ := integerValue_range hvalue'
    by_contra hshort
    rw [length_cons, length_cons] at hshort
    have hpow : (256 : Nat) ^ (bs'.length - 1) ≤ 256 ^ bs.length := Nat.pow_le_pow_right (by decide) (by omega)
    have hcast : ∀ n, (256 : Int) ^ n = ((256 ^ n : Nat) : Int) := fun n => by push_cast; rfl
    have hout := h.outside hvalue
    rw [hcast] at hlow hhigh hout
    omega

end Ber
