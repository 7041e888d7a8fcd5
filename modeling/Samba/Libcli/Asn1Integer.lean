/-
ASN.1 integers (libcli/util/asn1.c): what is written is the shortest form in two's complement, but it is read without extending
the sign of the first byte.
-/
import Samba.Lib.TwosComplement
import Samba.Libcli.Asn1Calls

namespace Samba.Libcli

open Ber CString List
open Samba.Ndr (maxTallocSize)

/-! ## The form that is written -/

/-- Bytes of a number that is not zero, the first of which is not to be taken for a sign. -/
def PositiveForm : List UInt8 → Prop
  | [] => False
  | [b] => b < 0x80 ∧ b ≠ 0
  | b :: c :: _ => b < 0x80 ∧ (b = 0 → 0x80 ≤ c)

/-- Bytes of a negative number, the first of which is the last one of its leading ones. -/
def NegativeForm : List UInt8 → Prop
  | [] => False
  | [b] => 0x80 ≤ b ∧ b ≠ 0xff
  | b :: c :: _ => 0x80 ≤ b ∧ (b = 0xff → c < 0x80)

variable {bs : List UInt8}

theorem PositiveForm.append (h : PositiveForm bs) (c : UInt8) : PositiveForm (bs ++ [c]) := by
  match bs with
  | [b] => exact ⟨h.1, fun h0 => absurd h0 h.2⟩
  | _ :: _ :: _ => exact h

theorem NegativeForm.append (h : NegativeForm bs) (c : UInt8) : NegativeForm (bs ++ [c]) := by
  match bs with
  | [b] => exact ⟨h.1, fun hff => absurd hff h.2⟩
  | _ :: _ :: _ => exact h

theorem PositiveForm.compact (h : PositiveForm bs) : Compact bs ∧ integerValue bs = some (beNumber bs : Int) := by
  match bs with
  | [b] => exact ⟨trivial, by rw [integerValue, if_pos h.1]⟩
  | b :: c :: _ =>
    refine ⟨⟨h.2, fun hff => absurd h.1 (by rw [hff]; decide)⟩, ?_⟩
    rw [integerValue, if_pos h.1]

theorem NegativeForm.compact (h : NegativeForm bs) :
    Compact bs ∧ integerValue bs = some ((beNumber bs : Int) - 256 ^ bs.length) := by
  have hbit : ∀ b : UInt8, 0x80 ≤ b → ¬b < 0x80 := fun b hb => UInt8.not_lt.mpr hb
  match bs with
  | [b] => exact ⟨trivial, by rw [integerValue, if_neg (hbit b h.1)]⟩
  | b :: c :: _ =>
    refine ⟨⟨fun h0 => absurd h.1 (by rw [h0]; decide), h.2⟩, ?_⟩
    rw [integerValue, if_neg (hbit b h.1)]

theorem nextBytes_of_ne_nil {upper : List UInt8} (h : upper ≠ []) (negative : Bool) (b : UInt8) :
    nextBytes upper negative b = upper ++ [b] := by
  rw [nextBytes, if_neg h]

theorem nextBytes_nil (negative : Bool) (b : UInt8) : nextBytes [] negative b = firstByte negative b := by
  rw [nextBytes, if_pos rfl, nil_append]

theorem positiveForm_intBytes (i : UInt32) (h : i ≠ 0) : PositiveForm (intBytes i false) := by
  have hfirst : ∀ b : UInt8, b ≠ 0 → firstByte false b = [b] ∧ b < 0x80 ∨ firstByte false b = [0, b] ∧ 0x80 ≤ b :=
    forall_byte (by decide +kernel)
  by_cases hupper : i >>> 8 = 0
  · have hb : i.toUInt8 ≠ 0 := by
      have hsplit := toNat_split i
      rw [hupper] at hsplit
      intro h0
      rw [h0] at hsplit
      exact h (UInt32.toNat_inj.mp hsplit)
    rw [intBytes_last hupper]
    rcases hfirst _ hb with ⟨heq, hlow⟩ | ⟨heq, hhigh⟩
    · rw [heq]
      exact ⟨hlow, hb⟩
    · rw [heq]
      exact ⟨by decide, fun _ => hhigh⟩
  · rw [intBytes_next hupper, nextBytes_of_ne_nil (beNumber_intBytes _).1]
    exact (positiveForm_intBytes (i >>> 8) hupper).append _
termination_by i.toNat
decreasing_by exact shiftRight_lt hupper

/-- The upper bytes of a negative number: as long as they are all ones nothing is written of them. -/
theorem negativeForm_intBytes {k : Nat} {j : UInt32} (hlow : 128 * 256 ^ k ≤ j.toNat) (hhigh : j.toNat < 256 ^ (k + 1)) :
    intBytes j true = [] ∧ j.toNat + 1 = 256 ^ (k + 1) ∨
      NegativeForm (intBytes j true) ∧
        (beNumber (intBytes j true) : Int) - 256 ^ (intBytes j true).length = j.toNat - 256 ^ (k + 1) := by
  have hfirst : ∀ b : UInt8, firstByte true b = [] ∧ b.toNat = 255 ∨
      firstByte true b = [b] ∧ 0x80 ≤ b ∧ b ≠ 0xff ∨ firstByte true b = [0xff, b] ∧ b < 0x80 :=
    forall_byte (by decide +kernel)
  -- a byte behind ones that are not written
  have hone : ∀ (b : UInt8) (m : Int), firstByte true b = [] ∧ (b.toNat : Int) + m = 255 + m ∨
      NegativeForm (firstByte true b) ∧ (beNumber (firstByte true b) : Int) - 256 ^ (firstByte true b).length = b.toNat - 256 := by
    intro b m
    rcases hfirst b with ⟨heq, hff⟩ | ⟨heq, hb⟩ | ⟨heq, hb⟩
    · exact .inl ⟨heq, by omega⟩
    · rw [heq]
      exact .inr ⟨hb, by simp [beNumber]⟩
    · rw [heq]
      refine .inr ⟨⟨by decide, fun _ => hb⟩, ?_⟩
      simp only [beNumber, foldl_cons, foldl_nil, length_cons, length_nil]
      have : (255 : UInt8).toNat = 255 := rfl
      rw [this]
      push_cast
      omega
  have hsplit := toNat_split j
  have hb := j.toUInt8.toNat_lt
  induction k generalizing j with
  | zero =>
    have hupper : j >>> 8 = 0 := UInt32.toNat_inj.mp (by show (j >>> 8).toNat = 0; omega)
    have htop : (j >>> 8).toNat = 0 := by rw [hupper]; rfl
    rw [intBytes_last hupper]
    rcases hone j.toUInt8 0 with ⟨hnil, hff⟩ | ⟨hform, hvalue⟩
    · exact .inl ⟨hnil, by omega⟩
    · exact .inr ⟨hform, by rw [hvalue]; push_cast; omega⟩
  | succ k ih =>
    have hpow : (256 : Nat) ^ (k + 1 + 1) = 256 ^ (k + 1) * 256 := pow_succ ..
    have hpow' : (256 : Nat) ^ (k + 1) = 256 ^ k * 256 := pow_succ ..
    have hpos : 0 < (256 : Nat) ^ k := Nat.pow_pos (by decide)
    have hne : j >>> 8 ≠ 0 := by
      intro h0
      rw [h0, show (0 : UInt32).toNat = 0 from rfl] at hsplit
      omega
    have hcast : ((256 : Nat) ^ (k + 1 + 1) : Int) = ((256 ^ (k + 1) : Nat) : Int) * 256 := by push_cast; ring
    have hcast' : ((256 : Nat) ^ (k + 1) : Int) = ((256 ^ (k + 1) : Nat) : Int) := by push_cast; rfl
    rw [intBytes_next hne]
    rcases @ih (j >>> 8) (by omega) (by omega) (toNat_split _) (UInt8.toNat_lt _) with ⟨hnil, hff⟩ | ⟨hform, hvalue⟩
    · rw [hnil, nextBytes_nil]
      rcases hone j.toUInt8 0 with ⟨hnil', hff'⟩ | ⟨hform, hvalue⟩
      · exact .inl ⟨hnil', by omega⟩
      · refine .inr ⟨hform, ?_⟩
        rw [hvalue]
        push_cast at hcast ⊢
        have hones : ((j >>> 8).toNat : Int) + 1 = ((256 ^ (k + 1) : Nat) : Int) := by rw [← hff]; push_cast; rfl
        push_cast at hones
        omega
    · have hupper : intBytes (j >>> 8) true ≠ [] := fun hnil => by rw [hnil] at hform; exact hform
      rw [nextBytes_of_ne_nil hupper]
      refine .inr ⟨hform.append _, ?_⟩
      rw [beNumber_append, length_append, length_singleton, pow_succ, foldl_cons, foldl_nil]
      push_cast at hcast hvalue ⊢
      omega

theorem toInt_eq (i : Int32) :
    i.toInt = if i.toUInt32.toNat < 2 ^ 31 then (i.toUInt32.toNat : Int) else i.toUInt32.toNat - 2 ^ 32 := by
  rw [← Int32.toInt_toBitVec, BitVec.toInt_eq_toNat_cond]
  show (if 2 * i.toUInt32.toNat < 2 ^ 32 then (i.toUInt32.toNat : Int) else i.toUInt32.toNat - ((2 ^ 32 : Nat) : Int)) = _
  split <;> split <;> omega

/-- The content of an integer is its shortest form. -/
theorem shortest_integerBytes (i : Int32) : ShortestInteger (integerBytes i) i.toInt := by
  have hlt := i.toUInt32.toNat_lt
  have htoInt := toInt_eq i
  rw [integerBytes]
  split
  · next h =>
    rw [h]
    exact @Compact.shortest [0xff] (-1) trivial (by decide)
  next hne =>
  by_cases hneg : i < 0
  · have hhigh := (lt_zero_iff i).1 hneg
    rw [decide_eq_true hneg]
    rcases @negativeForm_intBytes 3 i.toUInt32 (by omega) (by omega) with ⟨-, hones⟩ | ⟨hform, hvalue⟩
    · refine absurd ?_ hne
      have hones : i.toUInt32 = (-1 : Int32).toUInt32 := UInt32.toNat_inj.mp
        (by show i.toUInt32.toNat = 4294967295; omega)
      exact congrArg Int32.ofUInt32 hones
    · refine hform.compact.1.shortest (hform.compact.2.trans ?_)
      rw [hvalue, htoInt, if_neg (by omega)]
      norm_num
  · have hlow := mt (lt_zero_iff i).2 hneg
    rw [decide_eq_false hneg, htoInt, if_pos (by omega)]
    by_cases h0 : i.toUInt32 = 0
    · rw [h0]
      rw [intBytes_last (by decide)]
      exact @Compact.shortest [0] 0 trivial (by decide)
    · have hform := positiveForm_intBytes _ h0
      refine hform.compact.1.shortest (hform.compact.2.trans ?_)
      rw [(beNumber_intBytes _).2]

/-! ## Writing and reading -/

/-- The integer is written as the shortest form, with its tag and length, and read back from there. -/
def IntegerRoundTrips (i : Int32) : Prop :=
  ∃ out content, asn1WriteInteger i asn1Init = some ((), out) ∧ out.data = tagged asn1Integer content ∧
    ShortestInteger content i.toInt ∧
    ∃ loaded done, asn1Load out.data = (true, loaded) ∧ asn1ReadInteger loaded = some (i, done)

theorem length_integerBytes (i : Int32) : (integerBytes i).length ≤ 4 := by
  have hleast := (shortest_integerBytes i).least
  have hlt := i.toUInt32.toNat_lt
  have hbytes : integerValue [UInt8.ofNat (i.toUInt32.toNat / 2 ^ 24), UInt8.ofNat (i.toUInt32.toNat / 2 ^ 16),
      UInt8.ofNat (i.toUInt32.toNat / 2 ^ 8), UInt8.ofNat i.toUInt32.toNat] = some i.toInt := by
    have hnumber : beNumber [UInt8.ofNat (i.toUInt32.toNat / 2 ^ 24), UInt8.ofNat (i.toUInt32.toNat / 2 ^ 16),
        UInt8.ofNat (i.toUInt32.toNat / 2 ^ 8), UInt8.ofNat i.toUInt32.toNat] = i.toUInt32.toNat := by
      simp only [beNumber, foldl_cons, foldl_nil, UInt8.toNat_ofNat']
      omega
    have htop := lt_80_iff (UInt8.ofNat (i.toUInt32.toNat / 2 ^ 24))
    rw [UInt8.toNat_ofNat'] at htop
    rw [integerValue, Option.some.injEq, hnumber, toInt_eq]
    split
    · next hlow =>
      rw [if_pos (by have := htop.mp hlow; omega)]
    · next hhigh =>
      rw [if_neg (by have := mt htop.mpr hhigh; omega)]
      norm_num
  exact hleast _ hbytes

/-- What is written is read as the number of its content. -/
theorem integerRoundTrips_iff_readNumber (i : Int32) : IntegerRoundTrips i ↔ readNumber (integerBytes i) = i := by
  have hlen := length_integerBytes i
  have htagged : (tagged asn1Integer (integerBytes i)).length ≤ 20 := by
    have := length_lengthOctets_le (show (integerBytes i).length < 2 ^ 32 by omega)
    rw [tagged, length_cons, length_append]
    omega
  have hwrite : asn1WriteInteger i asn1Init = some ((), written (tagged asn1Integer (integerBytes i)) []) :=
    (Writes.integer i).fits [] [] (by rw [nil_append]; unfold maxTallocSize; omega)
  have hload : asn1Load (tagged asn1Integer (integerBytes i)) = (true, reading [] (tagged asn1Integer (integerBytes i)) []) := by
    rw [asn1Load, if_neg (by unfold maxTallocSize; omega)]
    rfl
  have hread : asn1ReadInteger (reading [] (tagged asn1Integer (integerBytes i)) []) = some (readNumber (integerBytes i),
      reading (tagged asn1Integer (integerBytes i)) [] []) := by
    have h := (ReadsAnywhere.started (Reads.implicitInteger (integerBytes i)) asn1Integer).read [] [] []
      (by rw [append_nil]; omega)
    rw [append_nil, nil_append] at h
    exact h
  constructor
  · rintro ⟨out, content, hout, -, -, loaded, done, hloaded, hback⟩
    obtain ⟨-, rfl⟩ := Prod.mk.inj (Option.some.inj (hwrite.symm.trans hout))
    obtain ⟨-, rfl⟩ := Prod.mk.inj (hload.symm.trans hloaded)
    exact (Prod.mk.inj (Option.some.inj (hread.symm.trans hback))).1
  · intro h
    exact ⟨_, _, hwrite, rfl, shortest_integerBytes i, _, _, hload, by rw [hread, h]⟩

/-- An integer is always written in its shortest form, and it is read back unless it is negative and has nine leading ones: the
reader takes the first byte that is written for one without a sign. -/
theorem integerRoundTrips_iff (i : Int32) : IntegerRoundTrips i ↔ 0 ≤ i.toInt ∨ i.toInt < -2 ^ 23 := by
  have hlt := i.toUInt32.toNat_lt
  rw [integerRoundTrips_iff_readNumber, readNumber_integerBytes, toInt_eq]
  split <;> omega

/-- Minus one is written as one byte, and read as 255. -/
theorem minusOne_not_roundTrips : ¬IntegerRoundTrips (-1) := by
  rw [integerRoundTrips_iff_readNumber]
  decide

end Samba.Libcli
