/-
The loops over the hash digits of a short name as they run (ntvfs/posix/pvfs_shortname.c), with an unsigned index that counts down to
the configured prefix. Every prefix that pvfs_mangle_init takes but zero gives the digits of the hash; with zero, no index is below the
prefix, and the loops run out of the name.
-/
import Samba.Ntvfs.ShortnameCache

namespace Samba.Ntvfs

open CString Samba.Charset

/-- `new_name`, an array of 13 characters. -/
abbrev NameBuffer := Nat → UInt8

/-- An access outside of the name. -/
structure OutsideName where
  index : UInt32

/-- `new_name[i] = c`. -/
def NameBuffer.write (buffer : NameBuffer) (i : UInt32) (c : UInt8) : Except OutsideName NameBuffer :=
  if i.toNat ≤ 12 then .ok (Function.update buffer i.toNat c) else .error ⟨i⟩

/-- `name[i]`. -/
def NameBuffer.read (buffer : NameBuffer) (i : UInt32) : Except OutsideName UInt8 :=
  if i.toNat ≤ 12 then .ok (buffer i.toNat) else .error ⟨i⟩

/-! ## The configuration -/

/-- `DEFAULT_MANGLE_PREFIX`. -/
def defaultManglePrefix : UInt32 := 4

/-- The prefix that `pvfs_mangle_init` takes from the configuration. It is not negative, so that a comparison with an unsigned index
does not change it. -/
def mangleInitPrefix (configured : Int) : UInt32 :=
  if configured < 0 ∨ 6 < configured then defaultManglePrefix else UInt32.ofNat configured.toNat

/-- The loop of `init_tables` that makes `mangle_modulus`. -/
def modulusLoop : Nat → UInt32
  | 0 => 1
  | i + 1 => modulusLoop i * 36

/-- `mangle_modulus`. -/
def initModulus (manglePrefix : UInt32) : UInt32 := modulusLoop (7 - manglePrefix.toNat)

section Loops

variable (manglePrefix : UInt32)

/-- The loop of `name_map` over the digits. `none` is for a loop that is not over after `fuel` rounds. -/
def formLoop : Nat → UInt32 → UInt32 → NameBuffer → Option (Except OutsideName NameBuffer)
  | 0, _, _, _ => none
  | fuel + 1, i, v, newName =>
    if manglePrefix ≤ i then
      let v := v / 36
      match newName.write i (basechar (v % 36).toNat) with
      | .error e => some (.error e)
      | .ok newName => formLoop fuel (i - 1) v newName
    else some (.ok newName)

/-- The part of `name_map` that forms the digits behind the lead characters. -/
def formDigits (fuel : Nat) (hash : UInt32) (newName : NameBuffer) : Option (Except OutsideName NameBuffer) :=
  let newName := Function.update newName 7 (basechar (hash % 36).toNat)
  let newName := Function.update newName 6 (chr '~')
  formLoop manglePrefix fuel 5 hash newName

/-- The loop of `check_cache` over the digits. -/
def extractLoop (name : NameBuffer) : Nat → UInt32 → UInt32 → UInt32 → Option (Except OutsideName UInt32)
  | 0, _, _, _ => none
  | fuel + 1, i, multiplier, hash =>
    if manglePrefix ≤ i then
      match name.read i with
      | .error e => some (.error e)
      | .ok c =>
        let v := UInt32.ofNat (baseReverse c)
        extractLoop name fuel (i - 1) (multiplier * 36) (hash + multiplier * v)
    else some (.ok hash)

/-- The part of `check_cache` that extracts the hash from a short name. -/
def extractHash (fuel : Nat) (name : NameBuffer) : Option (Except OutsideName UInt32) :=
  extractLoop manglePrefix name fuel 5 36 (UInt32.ofNat (baseReverse (name 7)))

/-- The loops over the digits for a name: both end inside of the name, and what is extracted from the digits that were formed is the
hash of the name modulo `mangle_modulus`, whatever stands around the digits. -/
def DigitsRight (nameHash : Text → Nat → UInt32) (name : Text) : Prop :=
  ∀ buffer : NameBuffer, ∃ fuel newName,
    formDigits manglePrefix fuel (nameHash name (prefixLen name) % initModulus manglePrefix) buffer = some (.ok newName) ∧
      ∀ shortName : NameBuffer, (∀ i, manglePrefix.toNat ≤ i → i ≤ 7 → shortName i = newName i) →
        extractHash manglePrefix fuel shortName = some (.ok (nameHash name (prefixLen name) % initModulus manglePrefix))

end Loops

/-! ## The loops -/

section Loops

variable {manglePrefix : UInt32}

/-- With no prefix the loop does not end inside of the name. -/
theorem formLoop_zero (fuel : Nat) (i v : UInt32) (newName b : NameBuffer) : formLoop 0 fuel i v newName ≠ some (.ok b) := by
  induction fuel generalizing i v newName with
  | zero => exact nofun
  | succ fuel ih =>
    rw [formLoop, if_pos (UInt32.zero_le)]
    dsimp only
    split
    · exact nofun
    · exact ih _ _ _

theorem basechar_toNat (v : UInt32) : basechar (v % 36).toNat = basechar (v.toNat % 36) := by
  rw [UInt32.toNat_mod]
  rfl

/-- The places that the loop of `name_map` fills, and what it leaves. -/
theorem formLoop_eq {k : Nat} (hpos : 1 ≤ manglePrefix.toNat) (hk : manglePrefix.toNat + k ≤ 6) {i : UInt32}
    (hi : i.toNat + 1 = manglePrefix.toNat + k) (v : UInt32) (newName : NameBuffer) :
    ∃ b, formLoop manglePrefix (k + 1) i v newName = some (.ok b) ∧
      (∀ j < k, b (manglePrefix.toNat + j) = (hashDigits k (v.toNat / 36)).getD j 0) ∧
      ∀ j, manglePrefix.toNat + k ≤ j → b j = newName j := by
  induction k generalizing i v newName with
  | zero =>
    have hend : ¬manglePrefix ≤ i := by
      rw [UInt32.le_iff_toNat_le]
      omega
    refine ⟨newName, ?_, fun j hj => absurd hj (Nat.not_lt_zero j), fun _ _ => rfl⟩
    rw [formLoop, if_neg hend]
  | succ k ih =>
    have hle : manglePrefix ≤ i := by
      rw [UInt32.le_iff_toNat_le]
      omega
    have hwrite : newName.write i (basechar (v / 36 % 36).toNat) =
        .ok (Function.update newName (manglePrefix.toNat + k) (basechar (v.toNat / 36 % 36))) := by
      rw [NameBuffer.write, if_pos (by omega), basechar_toNat, UInt32.toNat_div, show i.toNat = manglePrefix.toNat + k by omega]
      rfl
    have hnext : (i - 1).toNat + 1 = manglePrefix.toNat + k := by
      rw [UInt32.toNat_sub_of_le i 1 (by rw [UInt32.le_iff_toNat_le]; show 1 ≤ _; omega)]
      show i.toNat - 1 + 1 = _
      omega
    obtain ⟨b, hb, hdigits, hleft⟩ := ih (by omega) hnext (v / 36)
      (Function.update newName (manglePrefix.toNat + k) (basechar (v.toNat / 36 % 36)))
    refine ⟨b, ?_, fun j hj => ?_, fun j hj => ?_⟩
    · rw [formLoop, if_pos hle]
      dsimp only
      rw [hwrite]
      exact hb
    · rw [UInt32.toNat_div] at hdigits
      rw [hashDigits, List.getD_eq_getElem?_getD]
      by_cases hjk : j < k
      · rw [List.getElem?_append_left (by rwa [length_hashDigits]), ← List.getD_eq_getElem?_getD]
        exact hdigits j hjk
      · obtain rfl : j = k := by omega
        rw [List.getElem?_append_right (by rw [length_hashDigits]), length_hashDigits, Nat.sub_self, hleft _ le_rfl, Function.update_self]
        rfl
    · rw [hleft j (by omega), Function.update_of_ne (by omega)]

/-- What the loop of `check_cache` adds for the digits. -/
theorem extractLoop_eq {name : NameBuffer} {digits : Text} (hpos : 1 ≤ manglePrefix.toNat)
    (hlen : manglePrefix.toNat + digits.length ≤ 6) (hname : ∀ j < digits.length, name (manglePrefix.toNat + j) = digits.getD j 0)
    {i : UInt32} (hi : i.toNat + 1 = manglePrefix.toNat + digits.length) (multiplier hash : UInt32) :
    extractLoop manglePrefix name (digits.length + 1) i multiplier hash =
      some (.ok (hash + multiplier * UInt32.ofNat (spelled digits))) := by
  induction digits using List.reverseRecOn generalizing i multiplier hash with
  | nil =>
    have hend : ¬manglePrefix ≤ i := by
      rw [UInt32.le_iff_toNat_le]
      rw [List.length_nil] at hi
      omega
    rw [List.length_nil, extractLoop, if_neg hend]
    show _ = some (Except.ok (hash + multiplier * 0))
    rw [UInt32.mul_zero, UInt32.add_zero]
  | append_singleton digits c ih =>
    rw [List.length_append, List.length_singleton] at hlen hname hi ⊢
    have hle : manglePrefix ≤ i := by
      rw [UInt32.le_iff_toNat_le]
      omega
    have hread : name.read i = Except.ok c := by
      rw [NameBuffer.read, if_pos (by omega), show i.toNat = manglePrefix.toNat + digits.length by omega, hname _ (Nat.lt_succ_self _),
        List.getD_eq_getElem?_getD, List.getElem?_append_right le_rfl, Nat.sub_self]
      rfl
    have hnext : (i - 1).toNat + 1 = manglePrefix.toNat + digits.length := by
      rw [UInt32.toNat_sub_of_le i 1 (by rw [UInt32.le_iff_toNat_le]; show 1 ≤ _; omega)]
      show i.toNat - 1 + 1 = _
      omega
    have hrest := ih (by omega) (fun j hj => by
      rw [hname j (by omega), List.getD_eq_getElem?_getD, List.getElem?_append_left hj, ← List.getD_eq_getElem?_getD]) hnext
      (multiplier * 36) (hash + multiplier * UInt32.ofNat (baseReverse c))
    rw [extractLoop, if_pos hle, hread]
    dsimp only
    rw [hrest, spelled_concat, UInt32.ofNat_add, UInt32.ofNat_mul, UInt32.mul_add, UInt32.mul_assoc, UInt32.add_assoc,
      UInt32.add_comm (multiplier * UInt32.ofNat (baseReverse c))]
    rfl

theorem toNat_initModulus (hpos : 1 ≤ manglePrefix.toNat) (hle : manglePrefix.toNat ≤ 6) :
    (initModulus manglePrefix).toNat = 36 ^ (7 - manglePrefix.toNat) := by
  have hall : ∀ n < 7, 1 ≤ n → (modulusLoop (7 - n)).toNat = 36 ^ (7 - n) := by decide
  exact hall _ (by omega) hpos

/-- With a prefix from 1 to 6, the loops give the digits of the hash and the hash of the digits. -/
theorem digitsRight_of_pos (hpos : 1 ≤ manglePrefix.toNat) (hle : manglePrefix.toNat ≤ 6) (nameHash : Text → Nat → UInt32)
    (name : Text) : DigitsRight manglePrefix nameHash name := by
  intro buffer
  obtain ⟨k, hk⟩ := Nat.exists_eq_add_of_le hle
  generalize hhash : nameHash name (prefixLen name) % initModulus manglePrefix = hash
  have hlt : hash.toNat / 36 < 36 ^ k := by
    have hmod : hash.toNat < 36 ^ (7 - manglePrefix.toNat) := by
      rw [← hhash, UInt32.toNat_mod, toNat_initModulus hpos hle]
      exact Nat.mod_lt _ (Nat.pow_pos (by decide))
    rw [show 7 - manglePrefix.toNat = k + 1 by omega, Nat.pow_succ] at hmod
    omega
  obtain ⟨newName, hform, hdigits, hleft⟩ := @formLoop_eq manglePrefix k hpos hk.ge 5 (show 5 + 1 = _ from hk) hash
    (Function.update (Function.update buffer 7 (basechar (hash % 36).toNat)) 6 (chr '~'))
  refine ⟨k + 1, newName, hform, fun shortName hsame => ?_⟩
  have hlast : shortName 7 = basechar (hash.toNat % 36) := by
    rw [hsame 7 (by omega) le_rfl, hleft 7 (by omega), Function.update_of_ne (by decide), Function.update_self, basechar_toNat]
  have hlen := length_hashDigits k (hash.toNat / 36)
  have hextract := @extractLoop_eq manglePrefix shortName (hashDigits k (hash.toNat / 36)) hpos (by rw [hlen]; exact hk.ge)
    (fun j hj => by rw [hlen] at hj; rw [hsame _ (by omega) (by omega), hdigits j hj]) 5 (by rw [hlen]; exact hk) 36
    (UInt32.ofNat (baseReverse (shortName 7)))
  rw [hlen, spelled_hashDigits hlt] at hextract
  rw [extractHash, hextract, hlast, (baseReverse_basechar _ (Nat.mod_lt _ (by decide))).1]
  refine congrArg (fun h => some (Except.ok h)) ?_
  calc UInt32.ofNat (hash.toNat % 36) + 36 * UInt32.ofNat (hash.toNat / 36)
      = UInt32.ofNat (hash.toNat % 36 + 36 * (hash.toNat / 36)) := by rw [UInt32.ofNat_add, UInt32.ofNat_mul]; rfl
    _ = hash := by rw [Nat.mod_add_div, UInt32.ofNat_toNat]

theorem not_digitsRight_zero (nameHash : Text → Nat → UInt32) (name : Text) : ¬DigitsRight 0 nameHash name := by
  intro h
  obtain ⟨fuel, newName, hform, -⟩ := h fun _ => 0
  exact formLoop_zero _ _ _ _ _ hform

end Loops

/-! ## The configured prefix -/

theorem mangleInitPrefix_pos {configured : Int} (h : configured ≠ 0) :
    1 ≤ (mangleInitPrefix configured).toNat ∧ (mangleInitPrefix configured).toNat ≤ 6 := by
  rw [mangleInitPrefix]
  split
  · decide
  · rw [UInt32.toNat_ofNat']
    omega

/-- Whatever is configured and whatever the name, the loops over the digits end inside of the name and encode the hash, unless the
prefix is zero. -/
theorem digitsRight_iff (configured : Int) (nameHash : Text → Nat → UInt32) (name : Text) :
    DigitsRight (mangleInitPrefix configured) nameHash name ↔ configured ≠ 0 := by
  constructor
  · rintro h rfl
    exact not_digitsRight_zero nameHash name h
  · intro h
    obtain ⟨hpos, hle⟩ := mangleInitPrefix_pos h
    exact digitsRight_of_pos hpos hle nameHash name

/-- With prefix zero the index does not get below the prefix. -/
theorem digits_outside : mangleInitPrefix 0 = 0 ∧ ¬DigitsRight (mangleInitPrefix 0) asciiNameHash (text "long name.txt") :=
  ⟨rfl, not_digitsRight_zero _ _⟩

end Samba.Ntvfs
