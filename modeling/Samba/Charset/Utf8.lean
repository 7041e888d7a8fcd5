/-
UTF-8 and UTF-16LE (lib/charset/iconv.c, utf8_pull and utf8_push) are two encodings of the same scalar values: on well-formed
strings each function writes what the other reads.
-/
import Mathlib.Data.List.Flatten
import Samba.Charset.Iconv

namespace Samba.Charset

open CString List Rounds

/-! ## Encodings of scalar values -/

/-- A Unicode scalar value. -/
def Scalar (n : Nat) : Prop := n < 0xD800 ∨ 0xE000 ≤ n ∧ n ≤ 0x10FFFF

instance (n : Nat) : Decidable (Scalar n) := inferInstanceAs (Decidable (_ ∨ _))

/-- The shortest UTF-8 form of a scalar value. -/
def utf8Bytes (n : Nat) : List UInt8 :=
  if n < 0x80 then [UInt8.ofNat n]
  else if n < 0x800 then [UInt8.ofNat (0xC0 + n / 64), UInt8.ofNat (0x80 + n % 64)]
  else if n < 0x10000 then [UInt8.ofNat (0xE0 + n / 4096), UInt8.ofNat (0x80 + n / 64 % 64), UInt8.ofNat (0x80 + n % 64)]
  else [UInt8.ofNat (0xF0 + n / 262144), UInt8.ofNat (0x80 + n / 4096 % 64), UInt8.ofNat (0x80 + n / 64 % 64),
    UInt8.ofNat (0x80 + n % 64)]

/-- The UTF-16LE form of a scalar value: a unit, or a high and a low surrogate. -/
def utf16leBytes (n : Nat) : List UInt8 :=
  if n < 0x10000 then [UInt8.ofNat n, UInt8.ofNat (n / 256)]
  else
    let v := n - 0x10000
    [UInt8.ofNat (v / 1024), UInt8.ofNat (0xD8 + v / 262144), UInt8.ofNat v, UInt8.ofNat (0xDC + v / 256 % 4)]

/-- A well-formed UTF-8 string. -/
def WellFormedUtf8 (bytes : List UInt8) : Prop := ∃ ns : List Nat, (∀ n ∈ ns, Scalar n) ∧ bytes = ns.flatMap utf8Bytes

/-- A well-formed UTF-16LE string. -/
def WellFormedUtf16le (bytes : List UInt8) : Prop := ∃ ns : List Nat, (∀ n ∈ ns, Scalar n) ∧ bytes = ns.flatMap utf16leBytes

/-! ## Bytes and numbers -/

theorem ofNat_congr {a b : Nat} (h : a % 256 = b % 256) : UInt8.ofNat a = UInt8.ofNat b := by
  rw [← UInt8.toNat_inj, UInt8.toNat_ofNat', UInt8.toNat_ofNat']
  exact h

theorem or_shiftLeft {x k : Nat} (h : x < 2 ^ k) (y : Nat) : x ||| y <<< k = x + y * 2 ^ k := by
  rw [Nat.shiftLeft_eq, Nat.or_comm, Nat.mul_comm, ← Nat.two_pow_add_eq_or_of_lt h, Nat.add_comm]

theorem ofNat_or_ofNat {x k : Nat} (h : x < 2 ^ k) (y : Nat) :
    UInt8.ofNat (2 ^ k * y) ||| UInt8.ofNat x = UInt8.ofNat (2 ^ k * y + x) := by
  rw [Nat.two_pow_add_eq_or_of_lt h, UInt8.ofNat_or]

/-- The bytes of a character: the first of two, of three and of four, and those behind it. -/
theorem byte_patterns :
    (∀ a < 32, UInt8.ofNat (0xC0 + a) &&& 0x80 ≠ 0 ∧ UInt8.ofNat (0xC0 + a) &&& 0xe0 = 0xc0 ∧
      UInt8.ofNat (0xC0 + a) <<< 6 = UInt8.ofNat (2 ^ 6 * (a % 4)) ∧
      (UInt8.ofNat (0xC0 + a) >>> 2) &&& 0x7 = UInt8.ofNat (a / 4)) ∧
    (∀ a < 16, UInt8.ofNat (0xE0 + a) &&& 0x80 ≠ 0 ∧ UInt8.ofNat (0xE0 + a) &&& 0xe0 ≠ 0xc0 ∧
      UInt8.ofNat (0xE0 + a) &&& 0xf0 = 0xe0 ∧ (UInt8.ofNat (0xE0 + a) &&& 0xF) <<< 4 = UInt8.ofNat (2 ^ 4 * a)) ∧
    (∀ a < 8, UInt8.ofNat (0xF0 + a) &&& 0x80 ≠ 0 ∧ UInt8.ofNat (0xF0 + a) &&& 0xe0 ≠ 0xc0 ∧
      UInt8.ofNat (0xF0 + a) &&& 0xf0 ≠ 0xe0 ∧ UInt8.ofNat (0xF0 + a) &&& 0xf8 = 0xf0 ∧
      (UInt8.ofNat (0xF0 + a) &&& 0x7).toNat = a) ∧
    (∀ b < 64, isContinuation (UInt8.ofNat (0x80 + b)) = true ∧
      UInt8.ofNat (0x80 + b) &&& 0x3f = UInt8.ofNat b ∧ (UInt8.ofNat (0x80 + b) &&& 0x3f).toNat = b ∧
      UInt8.ofNat (0x80 + b) <<< 6 = UInt8.ofNat (2 ^ 6 * (b % 4)) ∧
      (UInt8.ofNat (0x80 + b) >>> 2) &&& 0xF = UInt8.ofNat (b / 4)) ∧
    (∀ b < 64, (0x80 : UInt8) ||| UInt8.ofNat b = UInt8.ofNat (0x80 + b)) := by
  decide

theorem lead_two : ∀ a < 32, UInt8.ofNat (0xC0 + a) &&& 0x80 ≠ 0 ∧ UInt8.ofNat (0xC0 + a) &&& 0xe0 = 0xc0 ∧
    UInt8.ofNat (0xC0 + a) <<< 6 = UInt8.ofNat (2 ^ 6 * (a % 4)) ∧ (UInt8.ofNat (0xC0 + a) >>> 2) &&& 0x7 = UInt8.ofNat (a / 4) := byte_patterns.1

theorem lead_three : ∀ a < 16, UInt8.ofNat (0xE0 + a) &&& 0x80 ≠ 0 ∧ UInt8.ofNat (0xE0 + a) &&& 0xe0 ≠ 0xc0 ∧
    UInt8.ofNat (0xE0 + a) &&& 0xf0 = 0xe0 ∧ (UInt8.ofNat (0xE0 + a) &&& 0xF) <<< 4 = UInt8.ofNat (2 ^ 4 * a) := byte_patterns.2.1

theorem lead_four : ∀ a < 8, UInt8.ofNat (0xF0 + a) &&& 0x80 ≠ 0 ∧ UInt8.ofNat (0xF0 + a) &&& 0xe0 ≠ 0xc0 ∧
    UInt8.ofNat (0xF0 + a) &&& 0xf0 ≠ 0xe0 ∧ UInt8.ofNat (0xF0 + a) &&& 0xf8 = 0xf0 ∧ (UInt8.ofNat (0xF0 + a) &&& 0x7).toNat = a := byte_patterns.2.2.1

theorem continuation : ∀ b < 64, isContinuation (UInt8.ofNat (0x80 + b)) = true ∧
    UInt8.ofNat (0x80 + b) &&& 0x3f = UInt8.ofNat b ∧ (UInt8.ofNat (0x80 + b) &&& 0x3f).toNat = b ∧
    UInt8.ofNat (0x80 + b) <<< 6 = UInt8.ofNat (2 ^ 6 * (b % 4)) ∧ (UInt8.ofNat (0x80 + b) >>> 2) &&& 0xF = UInt8.ofNat (b / 4) := byte_patterns.2.2.2.1

theorem continuation_or : ∀ b < 64, (0x80 : UInt8) ||| UInt8.ofNat b = UInt8.ofNat (0x80 + b) := byte_patterns.2.2.2.2

/-! ## One character -/

section Character

variable {n : Nat}

theorem utf8PullRound_bytes (h : n ≤ 0x10FFFF) (rest : List UInt8) {outLeft : Nat} (hroom : (utf16leBytes n).length ≤ outLeft) :
    utf8PullRound (utf8Bytes n ++ rest) outLeft = .ok ((utf8Bytes n).length, utf16leBytes n) := by
  unfold utf8Bytes utf16leBytes at *
  by_cases h1 : n < 0x80
  · have hzero : ∀ a < 0x80, UInt8.ofNat a &&& 0x80 = 0 := by decide
    rw [if_pos h1, if_pos (by omega), ofNat_congr (show n / 256 % 256 = 0 % 256 by omega)]
    exact if_pos (hzero n h1)
  rw [if_neg h1] at *
  by_cases h2 : n < 0x800
  · obtain ⟨hbit, hlead, hhigh, hlow⟩ := lead_two (n / 64) (by omega)
    obtain ⟨hcont, hsix, -⟩ := continuation (n % 64) (by omega)
    rw [if_pos h2, if_pos (by omega)]
    simp only [cons_append, nil_append, utf8PullRound]
    rw [if_neg hbit, if_pos hlead, if_neg (by rw [hcont]; decide), hhigh, hlow, hsix, ofNat_or_ofNat (by omega),
      ofNat_congr (show (2 ^ 6 * (n / 64 % 4) + n % 64) % 256 = n % 256 by omega), show n / 64 / 4 = n / 256 by omega]
    rfl
  rw [if_neg h2] at *
  by_cases h3 : n < 0x10000
  · obtain ⟨hbit, hnot2, hlead, hfour⟩ := lead_three (n / 4096) (by omega)
    obtain ⟨hcont1, -, -, hhigh, hlow⟩ := continuation (n / 64 % 64) (by omega)
    obtain ⟨hcont2, hsix, -⟩ := continuation (n % 64) (by omega)
    rw [if_pos h3, if_pos h3]
    simp only [cons_append, nil_append, utf8PullRound]
    rw [if_neg hbit, if_neg hnot2, if_pos hlead, if_neg (by rw [hcont1, hcont2]; decide), hhigh, hsix, hfour, hlow,
      ofNat_or_ofNat (by omega), ofNat_or_ofNat (by omega),
      ofNat_congr (show (2 ^ 6 * (n / 64 % 64 % 4) + n % 64) % 256 = n % 256 by omega),
      ofNat_congr (show (2 ^ 4 * (n / 4096) + n / 64 % 64 / 4) % 256 = n / 256 % 256 by omega)]
    rfl
  rw [if_neg h3] at *
  rw [if_neg h3]
  obtain ⟨hbit, hnot2, hnot3, hlead, hval⟩ := lead_four (n / 262144) (by omega)
  obtain ⟨hcont1, -, hval1, -⟩ := continuation (n / 4096 % 64) (by omega)
  obtain ⟨hcont2, -, hval2, -⟩ := continuation (n / 64 % 64) (by omega)
  obtain ⟨hcont3, -, hval3, -⟩ := continuation (n % 64) (by omega)
  simp only [cons_append, nil_append, utf8PullRound]
  rw [if_neg hbit, if_neg hnot2, if_neg hnot3, if_pos hlead, if_neg (by rw [hcont1, hcont2, hcont3]; decide), hval, hval1, hval2, hval3]
  have hcode : n % 64 ||| (n / 64 % 64) <<< 6 ||| (n / 4096 % 64) <<< 12 ||| (n / 262144) <<< 18 = n := by
    rw [@or_shiftLeft (n % 64) 6 (by omega), @or_shiftLeft (n % 64 + n / 64 % 64 * 2 ^ 6) 12 (by omega), or_shiftLeft (by omega)]
    omega
  have hhigh : ∀ x < 4, UInt8.ofNat x ||| 0xd8 = UInt8.ofNat (0xD8 + x) := by decide
  have hlow : ∀ c : UInt8, (c &&& 0x3) ||| 0xdc = UInt8.ofNat (0xDC + c.toNat % 4) := forall_byte (by decide +kernel)
  have hroom' : 4 ≤ outLeft := hroom
  rw [hcode, if_neg h3, if_neg (by omega)]
  simp only [Nat.shiftRight_eq_div_pow]
  rw [hhigh _ (by omega), hlow, UInt8.toNat_ofNat', show (n - 65536) / 2 ^ 8 % 2 ^ 8 % 4 = (n - 65536) / 256 % 4 by omega]
  rfl

theorem utf8PushRound_bytes (h : Scalar n) (rest : List UInt8) {outLeft : Nat} (hroom : (utf8Bytes n).length ≤ outLeft) :
    utf8PushRound (utf16leBytes n ++ rest) outLeft = .ok ((utf16leBytes n).length, utf8Bytes n) := by
  unfold utf8Bytes utf16leBytes Scalar at *
  by_cases h1 : n < 0x80
  · have hzero : ∀ a < 0x80, UInt8.ofNat a &&& 0x80 = 0 := by decide
    rw [if_pos h1, if_pos (by omega), ofNat_congr (show n / 256 % 256 = 0 % 256 by omega)]
    exact if_pos ⟨rfl, hzero n h1⟩
  rw [if_neg h1] at *
  by_cases h2 : n < 0x800
  · have hone : ∀ a < 8, UInt8.ofNat a &&& 0xf8 = 0 ∧ (UInt8.ofNat a = 0 → a = 0) := by decide
    have hbit : ∀ c : UInt8, c &&& 0x80 = 0 → c.toNat < 0x80 := forall_byte (by decide +kernel)
    have hshift : ∀ c : UInt8, c >>> 6 = UInt8.ofNat (c.toNat / 64) ∧ c &&& 0x3f = UInt8.ofNat (c.toNat % 64) :=
      forall_byte (by decide +kernel)
    have hlead : ∀ x < 4, ∀ y < 8, (0xc0 : UInt8) ||| UInt8.ofNat x ||| UInt8.ofNat y <<< 2 = UInt8.ofNat (0xC0 + (4 * y + x)) := by
      decide
    have hmod : (UInt8.ofNat n).toNat = n % 256 := UInt8.toNat_ofNat'
    rw [if_pos h2] at *
    rw [if_pos (by omega)]
    have hroom' : 2 ≤ outLeft := hroom
    obtain ⟨hmask, hnull⟩ := hone (n / 256) (by omega)
    simp only [cons_append, nil_append, utf8PushRound]
    rw [if_neg (fun hsimple => by have := hnull hsimple.1; have := hbit _ hsimple.2; omega), if_pos hmask, if_neg (by omega),
      (hshift _).1, (hshift _).2, hmod, hlead _ (by omega) _ (by omega), continuation_or _ (by omega),
      show 4 * (n / 256) + n % 256 / 64 = n / 64 by omega, show n % 256 % 64 = n % 64 by omega]
    rfl
  rw [if_neg h2] at *
  by_cases h3 : n < 0x10000
  · have hunit : ∀ a < 256, 8 ≤ a → ¬(0xD8 ≤ a ∧ a < 0xE0) → UInt8.ofNat a ≠ 0 ∧ UInt8.ofNat a &&& 0xf8 ≠ 0 ∧
        UInt8.ofNat a &&& 0xfc ≠ 0xdc ∧ UInt8.ofNat a &&& 0xfc ≠ 0xd8 := by decide +kernel
    have hlead : ∀ x < 16, (0xe0 : UInt8) ||| UInt8.ofNat x = UInt8.ofNat (0xE0 + x) := by decide
    rw [if_pos h3] at *
    have hroom' : 3 ≤ outLeft := hroom
    obtain ⟨hne, hmask, hlow, hhigh⟩ := hunit (n / 256) (by omega) (by omega) (by omega)
    have hcode : (UInt8.ofNat n).toNat ||| (UInt8.ofNat (n / 256)).toNat <<< 8 = n := by
      rw [UInt8.toNat_ofNat', UInt8.toNat_ofNat', or_shiftLeft (by omega)]
      omega
    simp only [cons_append, nil_append, utf8PushRound]
    rw [if_neg (fun hsimple => hne hsimple.1), if_neg hmask, if_neg hlow, if_pos hhigh, if_neg (by omega), hcode]
    simp only [Nat.shiftRight_eq_div_pow, Nat.and_two_pow_sub_one_eq_mod _ 6]
    rw [hlead _ (by omega), continuation_or _ (by omega), continuation_or _ (by omega), if_pos h3]
    rfl
  rw [if_neg h3] at *
  rw [if_neg h3]
  have hunit : ∀ x < 4, UInt8.ofNat (0xD8 + x) ≠ 0 ∧ UInt8.ofNat (0xD8 + x) &&& 0xf8 ≠ 0 ∧ UInt8.ofNat (0xD8 + x) &&& 0xfc ≠ 0xdc ∧
      ¬UInt8.ofNat (0xD8 + x) &&& 0xfc ≠ 0xd8 ∧ (UInt8.ofNat (0xD8 + x) &&& 0x3).toNat = x := by decide
  have hsecond : ∀ x < 4, ¬UInt8.ofNat (0xDC + x) &&& 0xfc ≠ 0xdc ∧ (UInt8.ofNat (0xDC + x) &&& 0x3).toNat = x := by decide
  have hlead : ∀ x < 8, (0xf0 : UInt8) ||| UInt8.ofNat x = UInt8.ofNat (0xF0 + x) := by decide
  have hroom' : 4 ≤ outLeft := hroom
  obtain ⟨hne, hmask, hlow, hhigh, hval⟩ := hunit ((n - 0x10000) / 262144) (by omega)
  obtain ⟨hpair, hval'⟩ := hsecond ((n - 0x10000) / 256 % 4) (by omega)
  have hcode : 0x10000 + ((UInt8.ofNat (n - 0x10000)).toNat ||| ((n - 0x10000) / 256 % 4) <<< 8 |||
      (UInt8.ofNat ((n - 0x10000) / 1024)).toNat <<< 10 ||| ((n - 0x10000) / 262144) <<< 18) = n := by
    rw [UInt8.toNat_ofNat', UInt8.toNat_ofNat', @or_shiftLeft ((n - 0x10000) % 2 ^ 8) 8 (by omega),
      @or_shiftLeft ((n - 0x10000) % 2 ^ 8 + (n - 0x10000) / 256 % 4 * 2 ^ 8) 10 (by omega), or_shiftLeft (by omega)]
    omega
  simp only [cons_append, nil_append, utf8PushRound]
  rw [if_neg (fun hsimple => hne hsimple.1), if_neg hmask, if_neg hlow, if_neg hhigh, if_neg hpair, if_neg (by omega), hval, hval',
    hcode]
  simp only [Nat.shiftRight_eq_div_pow, Nat.and_two_pow_sub_one_eq_mod _ 6]
  rw [hlead _ (by omega), continuation_or _ (by omega), continuation_or _ (by omega), continuation_or _ (by omega)]
  rfl

theorem length_utf8Bytes (n : Nat) :
    (utf8Bytes n).length = if n < 0x80 then 1 else if n < 0x800 then 2 else if n < 0x10000 then 3 else 4 := by
  unfold utf8Bytes
  repeat' split
  all_goals rfl

theorem length_utf8Bytes_pos (n : Nat) : 0 < (utf8Bytes n).length := by
  rw [length_utf8Bytes]
  repeat' split
  all_goals decide

theorem length_utf16leBytes (n : Nat) : (utf16leBytes n).length = if n < 0x10000 then 2 else 4 := by
  unfold utf16leBytes
  split <;> rfl

end Character

/-! ## Strings -/

theorem utf8Pull_bytes {ns : List Nat} (h : ∀ n ∈ ns, Scalar n) {outLeft : Nat}
    (hroom : (ns.flatMap utf16leBytes).length ≤ outLeft) :
    utf8Pull.run (ns.flatMap utf8Bytes) outLeft = .done (ns.flatMap utf16leBytes) := by
  induction ns generalizing outLeft with
  | nil => exact utf8Pull_exact.run_nil outLeft
  | cons n ns ih =>
    rw [forall_mem_cons] at h
    rw [flatMap_cons, length_append] at hroom
    have hn : n ≤ 0x10FFFF := by
      have hs := h.1
      unfold Scalar at hs
      omega
    have hunit : 2 ≤ (utf16leBytes n).length := by
      rw [length_utf16leBytes]
      split <;> omega
    have hpos := length_utf8Bytes_pos n
    rw [flatMap_cons, Loop.run_round (show 1 ≤ _ by rw [length_append]; omega) (show 2 ≤ outLeft by omega)
      (utf8PullRound_bytes hn _ (by omega)), drop_left' rfl, ih h.2 (by omega)]
    rfl

theorem utf8Push_bytes {ns : List Nat} (h : ∀ n ∈ ns, Scalar n) {outLeft : Nat}
    (hroom : (ns.flatMap utf8Bytes).length ≤ outLeft) :
    utf8Push.run (ns.flatMap utf16leBytes) outLeft = .done (ns.flatMap utf8Bytes) := by
  induction ns generalizing outLeft with
  | nil => exact utf8Push_exact.run_nil outLeft
  | cons n ns ih =>
    rw [forall_mem_cons] at h
    rw [flatMap_cons, length_append] at hroom
    have hunit : 2 ≤ (utf16leBytes n).length := by
      rw [length_utf16leBytes]
      split <;> omega
    have hpos := length_utf8Bytes_pos n
    rw [flatMap_cons, Loop.run_round (show 2 ≤ _ by rw [length_append]; omega) (show 1 ≤ outLeft by omega)
      (utf8PushRound_bytes h.1 _ (by omega)), drop_left' rfl, ih h.2 (by omega)]
    rfl

/-- A well-formed UTF-16LE string is pushed and pulled back, and a well-formed UTF-8 string is pulled and pushed back. -/
theorem utf8_utf16le_inverse :
    (∀ units, WellFormedUtf16le units → ∃ bytes, ∀ outLeft, bytes.length ≤ outLeft → utf8Push.run units outLeft = .done bytes ∧
      ∀ outLeft', units.length ≤ outLeft' → utf8Pull.run bytes outLeft' = .done units) ∧
    (∀ bytes, WellFormedUtf8 bytes → ∃ units, ∀ outLeft, units.length ≤ outLeft → utf8Pull.run bytes outLeft = .done units ∧
      ∀ outLeft', bytes.length ≤ outLeft' → utf8Push.run units outLeft' = .done bytes) := by
  constructor
  · rintro units ⟨ns, hns, rfl⟩
    exact ⟨_, fun outLeft hroom => ⟨utf8Push_bytes hns hroom, fun outLeft' hroom' => utf8Pull_bytes hns hroom'⟩⟩
  · rintro bytes ⟨ns, hns, rfl⟩
    exact ⟨_, fun outLeft hroom => ⟨utf8Pull_bytes hns hroom, fun outLeft' hroom' => utf8Push_bytes hns hroom'⟩⟩

/-- Letters, signs and a character outside the first plane. -/
theorem utf8_utf16le_inverse_mixed : ∃ units,
    utf8Pull.run [0x61, 0xC3, 0xA9, 0xE2, 0x82, 0xAC, 0xF0, 0x9F, 0x98, 0x80] units.length = .done units ∧
      utf8Push.run units 10 = .done [0x61, 0xC3, 0xA9, 0xE2, 0x82, 0xAC, 0xF0, 0x9F, 0x98, 0x80] := by
  obtain ⟨units, h⟩ := utf8_utf16le_inverse.2 [0x61, 0xC3, 0xA9, 0xE2, 0x82, 0xAC, 0xF0, 0x9F, 0x98, 0x80]
    ⟨[0x61, 0xE9, 0x20AC, 0x1F600], by decide, by decide⟩
  obtain ⟨hpull, hpush⟩ := h units.length le_rfl
  exact ⟨units, hpull, hpush 10 le_rfl⟩

end Samba.Charset
