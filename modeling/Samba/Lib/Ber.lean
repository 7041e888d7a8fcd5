/-
Definite lengths in the basic encoding rules: a byte below 128, or the number of the bytes that follow and the length in
these, the most significant byte first. Of the forms of a length the shortest one is given.
-/
import Mathlib.Data.Nat.Digits.Lemmas

namespace Ber

open List

/-- The number in bytes of which the first is the most significant. -/
def beNumber (bs : List UInt8) : Nat := bs.foldl (fun n b => n * 256 + b.toNat) 0

/-- The length that bytes stand for, `none` where they are not of the definite form. -/
def definiteLength : List UInt8 → Option Nat
  | [] => none
  | b :: bs =>
    if b < 0x80 then if bs = [] then some b.toNat else none
    else if bs ≠ [] ∧ b.toNat = 0x80 + bs.length then some (beNumber bs) else none

/-- The bytes of a number without zeros in front. -/
def beBytes (n : Nat) : List UInt8 := ((Nat.digits 256 n).map UInt8.ofNat).reverse

/-- The length in the shortest form. -/
def lengthOctets (n : Nat) : List UInt8 :=
  if n < 0x80 then [UInt8.ofNat n] else UInt8.ofNat (0x80 + (beBytes n).length) :: beBytes n

/-- The bytes stand for the length, and no fewer bytes do. -/
structure Shortest (os : List UInt8) (n : Nat) : Prop where
  definite : definiteLength os = some n
  least : ∀ os', definiteLength os' = some n → os.length ≤ os'.length

/-! ## Numbers -/

theorem beNumber_append (bs cs : List UInt8) :
    beNumber (bs ++ cs) = cs.foldl (fun n b => n * 256 + b.toNat) (beNumber bs) :=
  foldl_append

theorem beNumber_lt (bs : List UInt8) : beNumber bs < 256 ^ bs.length := by
  induction bs using List.reverseRecOn with
  | nil => decide
  | append_singleton bs b ih =>
    have hb : b.toNat < 256 := b.toNat_lt
    rw [beNumber_append, length_append, length_singleton, pow_succ, foldl_cons, foldl_nil]
    omega

theorem beBytes_of_pos {n : Nat} (h : 0 < n) : beBytes n = beBytes (n / 256) ++ [UInt8.ofNat (n % 256)] := by
  rw [beBytes, Nat.digits_def' (by decide) h, map_cons, reverse_cons]
  rfl

theorem beNumber_beBytes (n : Nat) : beNumber (beBytes n) = n := by
  induction n using Nat.strong_induction_on with
  | _ n ih =>
    rcases Nat.eq_zero_or_pos n with rfl | hpos
    · rfl
    · rw [beBytes_of_pos hpos, beNumber_append, ih _ (Nat.div_lt_self hpos (by decide)), foldl_cons, foldl_nil,
        UInt8.toNat_ofNat', Nat.mod_mod_of_dvd _ (by decide), Nat.div_add_mod' n 256]

theorem length_beBytes_le_iff {n k : Nat} : (beBytes n).length ≤ k ↔ n < 256 ^ k := by
  rw [beBytes, length_reverse, length_map]
  exact Nat.digits_length_le_iff (by decide) n

/-! ## Lengths -/

theorem definiteLength_lengthOctets {n : Nat} (h : n < 256 ^ 127) : definiteLength (lengthOctets n) = some n := by
  unfold lengthOctets
  split
  · rename_i hn
    have hbyte : UInt8.ofNat n < 0x80 := by
      rw [UInt8.lt_iff_toNat_lt, UInt8.toNat_ofNat', Nat.mod_eq_of_lt (by omega)]
      exact hn
    rw [definiteLength, if_pos hbyte, if_pos rfl, UInt8.toNat_ofNat', Nat.mod_eq_of_lt (by omega)]
  · rename_i hn
    have hlen : (beBytes n).length ≤ 127 := length_beBytes_le_iff.mpr h
    have htoNat : (UInt8.ofNat (0x80 + (beBytes n).length)).toNat = 0x80 + (beBytes n).length := by
      rw [UInt8.toNat_ofNat', Nat.mod_eq_of_lt (by omega)]
    have hbyte : ¬ UInt8.ofNat (0x80 + (beBytes n).length) < 0x80 := by
      rw [UInt8.lt_iff_toNat_lt, htoNat]
      exact Nat.not_lt.mpr (Nat.le_add_right _ _)
    have hne : beBytes n ≠ [] := by
      intro hnil
      have := beNumber_beBytes n
      rw [hnil] at this
      exact hn (this ▸ by decide)
    rw [definiteLength, if_neg hbyte, if_pos ⟨hne, htoNat⟩, beNumber_beBytes]

/-- Any form of a length has at least the bytes of the shortest one. -/
theorem lengthOctets_least {n : Nat} {os : List UInt8} (h : definiteLength os = some n) :
    (lengthOctets n).length ≤ os.length := by
  match os with
  | [] => cases h
  | b :: bs =>
    rw [length_cons]
    unfold lengthOctets
    split
    · exact Nat.succ_le_succ (Nat.zero_le _)
    · rename_i hn
      rw [definiteLength] at h
      split at h
      · rename_i hb
        split at h
        · exact absurd (Option.some.inj h ▸ UInt8.lt_iff_toNat_lt.mp hb) hn
        · cases h
      · split at h
        · rw [← Option.some.inj h]
          exact Nat.succ_le_succ (length_beBytes_le_iff.mpr (beNumber_lt bs))
        · cases h

theorem shortest_lengthOctets {n : Nat} (h : n < 256 ^ 127) : Shortest (lengthOctets n) n :=
  ⟨definiteLength_lengthOctets h, fun _ => lengthOctets_least⟩

theorem one_le_length_lengthOctets (n : Nat) : 1 ≤ (lengthOctets n).length := by
  unfold lengthOctets
  split <;> simp

/-- A length of four bytes or fewer, byte after byte. -/
theorem lengthOctets_of_lt {n : Nat} (h : n < 2 ^ 32) :
    lengthOctets n =
      if n > 0xFFFFFF then
        [0x84, UInt8.ofNat (n >>> 24), UInt8.ofNat (n >>> 16), UInt8.ofNat (n >>> 8), UInt8.ofNat n]
      else if n > 0xFFFF then [0x83, UInt8.ofNat (n >>> 16), UInt8.ofNat (n >>> 8), UInt8.ofNat n]
      else if n > 255 then [0x82, UInt8.ofNat (n >>> 8), UInt8.ofNat n]
      else if n > 127 then [0x81, UInt8.ofNat n]
      else [UInt8.ofNat n] := by
  have hmod (m : Nat) : UInt8.ofNat (m % 256) = UInt8.ofNat m := by
    rw [← UInt8.toNat_inj, UInt8.toNat_ofNat', UInt8.toNat_ofNat', Nat.mod_mod_of_dvd _ (by decide)]
  have hzero : beBytes 0 = [] := rfl
  unfold lengthOctets
  simp only [Nat.shiftRight_eq_div_pow]
  split_ifs with h1 h2 h3 h4 h5 <;> try omega
  · rfl
  · rw [beBytes_of_pos (by omega), beBytes_of_pos (by omega), beBytes_of_pos (by omega), beBytes_of_pos (by omega)]
    simp [Nat.div_div_eq_div_mul, hmod, show n / 4294967296 = 0 by omega, hzero]
  · rw [beBytes_of_pos (by omega), beBytes_of_pos (by omega), beBytes_of_pos (by omega)]
    simp [Nat.div_div_eq_div_mul, hmod, show n / 16777216 = 0 by omega, hzero]
  · rw [beBytes_of_pos (by omega), beBytes_of_pos (by omega)]
    simp [Nat.div_div_eq_div_mul, hmod, show n / 65536 = 0 by omega, hzero]
  · rw [beBytes_of_pos (by omega)]
    simp [hmod, show n / 256 = 0 by omega, hzero]

end Ber
