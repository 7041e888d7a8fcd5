/-
Numbers as `strtoll` and `strtoull` read them with base 0 (white space, a sign, a prefix that gives the base, digits), as
`sscanf` reads them in fields of a width, and as `printf` prints them.
-/
import Samba.Lib.CString

namespace CString

open List

/-- The value of a digit in bases up to 36. -/
def digitVal (c : UInt8) : Option Nat :=
  if isDigit c then some (c.toNat - 48)
  else if isUpper c then some (c.toNat - 55)
  else if isLower c then some (c.toNat - 87)
  else none

/-- The digits at the start of a string, as a number added to those before, and the rest. -/
def readDigits (base : Nat) (acc : Nat) : Text → Nat × Text
  | [] => (acc, [])
  | c :: s =>
    match digitVal c with
    | some d => if d < base then readDigits base (acc * base + d) s else (acc, c :: s)
    | none => (acc, c :: s)

@[simp] theorem readDigits_nil (base acc : Nat) : readDigits base acc [] = (acc, []) := by
  rw [readDigits]

/-- Whether a string starts with a digit. -/
def startsWithDigit (base : Nat) (s : Text) : Bool :=
  match s.head?.bind digitVal with
  | some d => d < base
  | none => false

/-- A number without its sign and what is behind it, `none` where there is none. -/
def scanMagnitude (s : Text) : Option (Nat × Text) :=
  match s with
  | c :: c' :: rest =>
    if c = chr '0' ∧ (c' = chr 'x' ∨ c' = chr 'X') ∧ startsWithDigit 16 rest then some (readDigits 16 0 rest)
    else if c = chr '0' then some (readDigits 8 0 (c :: c' :: rest))
    else if startsWithDigit 10 (c :: c' :: rest) then some (readDigits 10 0 (c :: c' :: rest))
    else none
  | s => if startsWithDigit 10 s then some (readDigits 10 0 s) else none

/-- A number with its sign (`true` for minus) and what is behind it. -/
def scanNumber (s : Text) : Option (Bool × Nat × Text) :=
  match s.dropWhile isSpace with
  | [] => none
  | c :: rest =>
    if c = chr '-' then (scanMagnitude rest).map fun (n, rest) => (true, n, rest)
    else if c = chr '+' then (scanMagnitude rest).map fun (n, rest) => (false, n, rest)
    else (scanMagnitude (c :: rest)).map fun (n, rest) => (false, n, rest)

/-- `strtoll(s, &end, 0)`: the number, saturated, and the string at `end`. -/
def strtoll (s : Text) : Int × Text :=
  match scanNumber s with
  | none => (0, s)
  | some (neg, n, rest) => (if neg then -(min n (2 ^ 63) : Nat) else (min n (2 ^ 63 - 1) : Nat), rest)

/-- `strtoull(s, NULL, 0)`: a negative number is taken modulo `2 ^ 64`. -/
def strtoull (s : Text) : Nat :=
  match scanNumber s with
  | none => 0
  | some (neg, n, _) => if 2 ^ 64 ≤ n then 2 ^ 64 - 1 else if neg then (2 ^ 64 - n) % 2 ^ 64 else n

/-- The conversion `%04u` or `%02u` of `sscanf`, into an `int`: the field has a width, to which a sign counts. -/
def scanField (width : Nat) (s : Text) : Option (Int × Text) :=
  match s.dropWhile isSpace with
  | [] => none
  | c :: rest =>
    let (neg, body) := if c = chr '-' then (true, rest) else if c = chr '+' then (false, rest) else (false, c :: rest)
    let digits := (body.take (width - (rest.length + 1 - body.length))).takeWhile isDigit
    if digits = [] then none
    else
      let n := (readDigits 10 0 digits).1
      some (if neg then -(n : Int) else n, body.drop digits.length)

/-- The conversion `%04x` of `sscanf`, into an `unsigned int`: an optional sign, an optional `0x` and digits, all within the
width. -/
def scanHexField (width : Nat) (s : Text) : Option Nat :=
  match (s.dropWhile isSpace).take width with
  | [] => none
  | c :: rest =>
    let (neg, body) := if c = chr '-' then (true, rest) else if c = chr '+' then (false, rest) else (false, c :: rest)
    let digits := match body with
      | z :: x :: digits => if z = chr '0' ∧ (x = chr 'x' ∨ x = chr 'X') then digits else body
      | _ => body
    if !startsWithDigit 16 digits then none
    else
      let n := (readDigits 16 0 digits).1
      some (if neg then (2 ^ 32 - n) % 2 ^ 32 else n)

/-- The digits of a number, with zeros in front up to a width: `%04u` and `%02u` of `printf`. -/
def padded (width n : Nat) : Text := ((Nat.toDigits 10 n).leftpad width '0').map chr

/-- The conversion `%lld` of `printf`. -/
def printInt (i : Int) : Text := if i < 0 then chr '-' :: padded 0 i.natAbs else padded 0 i.natAbs

/-- A sign in front of a number, `true` for minus, and what is behind it. -/
def splitSign : Text → Bool × Text
  | [] => (false, [])
  | c :: rest => if c = chr '-' then (true, rest) else if c = chr '+' then (false, rest) else (false, c :: rest)

/-- With base 16, what is behind a `0x` that digits follow. -/
def skipBase (base : Nat) : Text → Text
  | z :: x :: digits =>
    if base = 16 ∧ z = chr '0' ∧ (x = chr 'x' ∨ x = chr 'X') ∧ startsWithDigit 16 digits then digits else z :: x :: digits
  | s => s

/-- A number as `strtol` and `strtoul` read it with base 10 or 16: white space, a sign, with base 16 an optional `0x`, and
digits, with what is behind them. -/
def scanBase (base : Nat) (s : Text) : Option (Bool × Nat × Text) :=
  let (neg, body) := splitSign (s.dropWhile isSpace)
  if startsWithDigit base (skipBase base body) then some (neg, readDigits base 0 (skipBase base body)) else none

/-- `strtol(s, &end, base)` of a `long` of 64 bits: the number, saturated, and the string at `end`. -/
def strtol (base : Nat) (s : Text) : Int × Text :=
  match scanBase base s with
  | none => (0, s)
  | some (neg, n, rest) => (if neg then -(min n (2 ^ 63) : Nat) else (min n (2 ^ 63 - 1) : Nat), rest)

/-- `strtoul(s, &end, base)` of an `unsigned long` of 64 bits, a negative number taken modulo `2 ^ 64`. -/
def strtoul (base : Nat) (s : Text) : Nat × Text :=
  match scanBase base s with
  | none => (0, s)
  | some (neg, n, rest) => (if 2 ^ 64 ≤ n then 2 ^ 64 - 1 else if neg then (2 ^ 64 - n) % 2 ^ 64 else n, rest)

/-- What is behind a `0x` in front of a field. -/
def skipX : Text → Text
  | z :: x :: digits => if z = chr '0' ∧ (x = chr 'x' ∨ x = chr 'X') then digits else z :: x :: digits
  | s => s

/-- The conversion `%04x` of `sscanf` as in `scanHexField`, with what is behind the field. -/
def scanHexFieldRest (width : Nat) (s : Text) : Option (Nat × Text) :=
  let s := s.dropWhile isSpace
  let field := s.take width
  let (neg, body) := splitSign field
  if !startsWithDigit 16 (skipX body) then none
  else
    let (n, behind) := readDigits 16 0 (skipX body)
    some (if neg then (2 ^ 32 - n) % 2 ^ 32 else n, s.drop (field.length - behind.length))

/-- A digit of a number in base 16. -/
def hexChar (d : Nat) : UInt8 := if d < 10 then UInt8.ofNat (48 + d) else UInt8.ofNat (87 + d)

/-- The conversion `%08x` (or of another width) of `printf`, for a number that the width can hold. -/
def hexField : Nat → Nat → Text
  | 0, _ => []
  | width + 1, n => hexField width (n / 16) ++ [hexChar (n % 16)]

/-- `strcasecmp(a, b) == 0`. -/
def sameCase (a b : Text) : Bool := a.map toUpper == b.map toUpper

variable {a b rest s : Text} {c : UInt8} {base n width : Nat} {neg : Bool}

theorem sameCase_iff : sameCase a b = true ↔ a.map toUpper = b.map toUpper := by
  rw [sameCase, beq_iff_eq]

theorem sameCase_refl (a : Text) : sameCase a a = true := sameCase_iff.mpr rfl

theorem sameCase_comm (a b : Text) : sameCase a b = sameCase b a := by
  rw [Bool.eq_iff_iff, sameCase_iff, sameCase_iff, eq_comm]

theorem sameCase_trans {c : Text} (hab : sameCase a b = true) (hbc : sameCase b c = true) : sameCase a c = true :=
  sameCase_iff.mpr ((sameCase_iff.mp hab).trans (sameCase_iff.mp hbc))

/-- Names that are the same agree with the same names. -/
theorem sameCase_congr (h : sameCase a b = true) (c : Text) : sameCase a c = sameCase b c := by
  rw [Bool.eq_iff_iff, sameCase_iff, sameCase_iff, sameCase_iff.mp h]

/-- `strstr`: where the second string is first found in the first one. -/
def strstr (s t : Text) : Option Nat :=
  match s with
  | [] => if t = [] then some 0 else none
  | c :: rest => if t <+: c :: rest then some 0 else (strstr rest t).map (· + 1)

/-! ## Printed numbers -/

theorem chr_digit_injective {c d : Char} (hc : c.isDigit = true) (hd : d.isDigit = true) (h : chr c = chr d) : c = d := by
  have hlt : ∀ e : Char, e.isDigit = true → e.toNat < 256 := by
    intro e he
    exact Nat.lt_of_le_of_lt (Char.isDigit_iff_toNat.mp he).2 (by decide)
  have hnat : ∀ e : Char, e.isDigit = true → (chr e).toNat = e.toNat := by
    intro e he
    exact Nat.mod_eq_of_lt (hlt e he)
  have heq := congrArg UInt8.toNat h
  rw [hnat c hc, hnat d hd] at heq
  exact Char.toNat_inj.mp heq

theorem map_chr_injective {a b : List Char} (ha : ∀ c ∈ a, c.isDigit = true) (hb : ∀ c ∈ b, c.isDigit = true)
    (h : a.map chr = b.map chr) : a = b := by
  induction a generalizing b with
  | nil =>
    rw [map_nil, eq_comm, map_eq_nil_iff] at h
    exact h.symm
  | cons c a ih =>
    cases b with
    | nil => cases h
    | cons d b =>
      rw [map_cons, map_cons, List.cons.injEq] at h
      rw [forall_mem_cons] at ha hb
      rw [chr_digit_injective ha.1 hb.1 h.1, ih ha.2 hb.2 h.2]

theorem leftpad_digit : ∀ c ∈ (Nat.toDigits 10 n).leftpad width '0', c.isDigit = true := by
  intro c hc
  rw [List.leftpad, mem_append] at hc
  rcases hc with hc | hc
  · rw [eq_of_mem_replicate hc]
    decide
  · exact Nat.isDigit_of_mem_toDigits (by decide) (by decide) hc

theorem padded_injective {m : Nat} (h : padded width n = padded width m) : n = m := by
  have hchars := map_chr_injective leftpad_digit leftpad_digit h
  have hvalue : ∀ k : Nat, Nat.ofDigitChars 10 ((Nat.toDigits 10 k).leftpad width '0') 0 = k := by
    intro k
    rw [List.leftpad, Nat.ofDigitChars_append, Nat.ofDigitChars_replicate_zero, Nat.mul_zero, Nat.ofDigitChars_ten_toDigits]
  rw [← hvalue n, hchars, hvalue m]

theorem minus_notMem_padded : chr '-' ∉ padded width n := by
  intro h
  obtain ⟨c, hc, heq⟩ := mem_map.mp h
  have hd := leftpad_digit c hc
  have hle := (Char.isDigit_iff_toNat.mp hd).1
  have hlt := Nat.lt_of_le_of_lt (Char.isDigit_iff_toNat.mp hd).2 (show '9'.toNat < 256 by decide)
  have hnat := congrArg UInt8.toNat heq
  rw [show (chr c).toNat = c.toNat from Nat.mod_eq_of_lt hlt] at hnat
  rw [hnat] at hle
  exact absurd hle (by decide)

theorem length_padded_ge (width n : Nat) : width ≤ (padded width n).length := by
  rw [padded, length_map, List.leftpad, length_append, length_replicate]
  omega

theorem printInt_injective {i j : Int} (h : printInt i = printInt j) : i = j := by
  unfold printInt at h
  split at h
  · split at h
    · have := padded_injective (List.cons.inj h).2
      omega
    · exact absurd (h ▸ mem_cons_self) minus_notMem_padded
  · split at h
    · exact absurd (h.symm ▸ mem_cons_self) minus_notMem_padded
    · have := padded_injective h
      omega

/-! ## Digits that are read -/

/-- The number that digits stand for, behind those of `acc`. -/
def digitsValue (base acc : Nat) (ds : Text) : Nat := ds.foldl (fun n c => n * base + (digitVal c).getD 0) acc

example : digitsValue 10 4 [chr '2'] = 42 := by
  rw [digitsValue]
  decide

/-- A character is a digit of the base. -/
def IsDigitOf (base : Nat) (c : UInt8) : Prop := ∃ d, digitVal c = some d ∧ d < base

theorem readDigits_append {base acc : Nat} {ds rest : Text} (hds : ∀ c ∈ ds, IsDigitOf base c)
    (hrest : startsWithDigit base rest = false) :
    readDigits base acc (ds ++ rest) = (digitsValue base acc ds, rest) := by
  induction ds generalizing acc with
  | nil =>
    match rest with
    | [] => rfl
    | c :: rest =>
      rw [startsWithDigit, List.head?_cons, Option.bind_some] at hrest
      rw [nil_append, readDigits]
      cases hc : digitVal c with
      | none => rfl
      | some d =>
        rw [hc] at hrest
        dsimp only at hrest ⊢
        rw [if_neg (of_decide_eq_false hrest)]
        rfl
  | cons c ds ih =>
    obtain ⟨⟨d, hd, hlt⟩, hds⟩ := forall_mem_cons.mp hds
    rw [cons_append, readDigits, hd]
    dsimp only
    rw [if_pos hlt, ih hds, digitsValue, digitsValue, foldl_cons, hd]
    rfl

theorem startsWithDigit_cons : startsWithDigit base (c :: s) = true ↔ IsDigitOf base c := by
  rw [startsWithDigit, List.head?_cons, Option.bind_some, IsDigitOf]
  cases digitVal c <;> simp

theorem IsDigitOf.not_space_sign (h : IsDigitOf base c) : isSpace c = false ∧ c ≠ chr '-' ∧ c ≠ chr '+' ∧ c ≠ 0 := by
  have hall : ∀ c : UInt8, (digitVal c).isSome = true → isSpace c = false ∧ c ≠ chr '-' ∧ c ≠ chr '+' ∧ c ≠ 0 :=
    forall_byte (by decide +kernel)
  obtain ⟨d, hd, _⟩ := h
  exact hall c (by rw [hd]; rfl)

theorem isDigitOf_hex (h : IsDigitOf 16 c) : c ≠ chr 'x' ∧ c ≠ chr 'X' := by
  have hval : digitVal (chr 'x') = some 33 ∧ digitVal (chr 'X') = some 33 := by decide
  obtain ⟨d, hd, hlt⟩ := h
  constructor
  · rintro rfl
    rw [hval.1, Option.some.injEq] at hd
    omega
  · rintro rfl
    rw [hval.2, Option.some.injEq] at hd
    omega

theorem splitSign_digit (h : IsDigitOf base c) : splitSign (c :: s) = (false, c :: s) := by
  obtain ⟨_, hminus, hplus, _⟩ := h.not_space_sign
  rw [splitSign, if_neg hminus, if_neg hplus]

theorem dropWhile_digit (h : IsDigitOf base c) : (c :: s).dropWhile isSpace = c :: s :=
  dropWhile_cons_of_neg (by rw [h.not_space_sign.1]; exact Bool.false_ne_true)

/-- Digits without a sign are read as they are. -/
theorem scanBase_digits {ds rest : Text} (hne : ds ≠ []) (hds : ∀ c ∈ ds, IsDigitOf 10 c)
    (hrest : startsWithDigit 10 rest = false) : scanBase 10 (ds ++ rest) = some (false, digitsValue 10 0 ds, rest) := by
  obtain ⟨c, cs, rfl⟩ := exists_cons_of_ne_nil hne
  have hc := (forall_mem_cons.mp hds).1
  have hskip (s : Text) : skipBase 10 s = s := by
    unfold skipBase
    split
    · rw [if_neg (by simp)]
    · rfl
  rw [scanBase, cons_append, dropWhile_digit hc, splitSign_digit hc]
  dsimp only
  rw [hskip, if_pos (startsWithDigit_cons.mpr hc), ← cons_append, readDigits_append hds hrest]

theorem isDigitOf_padded {width n : Nat} : ∀ c ∈ padded width n, IsDigitOf 10 c := by
  intro c hc
  obtain ⟨d, hd, rfl⟩ := mem_map.mp hc
  have hdigit := Char.isDigit_iff_toNat.mp (leftpad_digit d hd)
  have hall : ∀ k, '0'.toNat ≤ k → k ≤ '9'.toNat → ∃ v, digitVal (UInt8.ofNat k) = some v ∧ v < 10 := by
    intro k h1 h2
    have : ∀ k < 58, 48 ≤ k → ((digitVal (UInt8.ofNat k)).any (· < 10)) = true := by decide
    have hk := this k (Nat.lt_succ_of_le h2) h1
    cases hv : digitVal (UInt8.ofNat k) with
    | none => rw [hv] at hk; cases hk
    | some v =>
      rw [hv] at hk
      exact ⟨v, rfl, of_decide_eq_true hk⟩
  exact hall _ hdigit.1 hdigit.2

theorem zero_notMem_printInt (i : Int) : (0 : UInt8) ∉ printInt i := by
  have hpadded : ∀ n, (0 : UInt8) ∉ padded 0 n := by
    intro n hmem
    obtain ⟨d, hd, -⟩ := isDigitOf_padded 0 hmem
    rw [show digitVal 0 = none by decide] at hd
    cases hd
  unfold printInt
  split
  · exact not_mem_cons_of_ne_of_not_mem (by decide) (hpadded _)
  · exact hpadded _

theorem digitsValue_padded (width n : Nat) : digitsValue 10 0 (padded width n) = n := by
  have hdigit : ∀ c : Char, c.isDigit = true → (digitVal (chr c)).getD 0 = c.toNat - '0'.toNat := by
    intro c hc
    have hall : ∀ k < 58, 48 ≤ k → (digitVal (UInt8.ofNat k)).getD 0 = k - 48 := by decide
    have hrange := Char.isDigit_iff_toNat.mp hc
    exact hall c.toNat (Nat.lt_succ_of_le hrange.2) hrange.1
  have hvalue : ∀ (cs : List Char) (acc : Nat), (∀ c ∈ cs, c.isDigit = true) →
      digitsValue 10 acc (cs.map chr) = Nat.ofDigitChars 10 cs acc := by
    intro cs
    induction cs with
    | nil => intros; rfl
    | cons c cs ih =>
      intro acc h
      obtain ⟨hc, hcs⟩ := forall_mem_cons.mp h
      rw [Nat.ofDigitChars_cons, ← ih _ hcs, digitsValue, digitsValue, map_cons, foldl_cons, hdigit c hc,
        Nat.mul_comm]
  rw [padded, hvalue _ 0 leftpad_digit, List.leftpad, Nat.ofDigitChars_append, Nat.ofDigitChars_replicate_zero, Nat.mul_zero,
    Nat.ofDigitChars_ten_toDigits]

theorem padded_ne_nil (width n : Nat) : padded width n ≠ [] := by
  rw [padded, ne_eq, map_eq_nil_iff, List.leftpad, append_eq_nil_iff]
  exact fun h => Nat.toDigits_ne_nil h.2

theorem strtol_padded (hn : n < 2 ^ 63) (hrest : startsWithDigit 10 rest = false) :
    strtol 10 (padded 0 n ++ rest) = ((n : Int), rest) := by
  rw [strtol, scanBase_digits (padded_ne_nil 0 n) isDigitOf_padded hrest, digitsValue_padded]
  dsimp only
  rw [if_neg Bool.false_ne_true, Nat.min_eq_left (by omega)]

theorem strtoul_padded {n : Nat} {rest : Text} (hn : n < 2 ^ 64) (hrest : startsWithDigit 10 rest = false) :
    strtoul 10 (padded 0 n ++ rest) = (n, rest) := by
  rw [strtoul, scanBase_digits (padded_ne_nil 0 n) isDigitOf_padded hrest, digitsValue_padded]
  dsimp only
  rw [if_neg (by omega), if_neg Bool.false_ne_true]

theorem head_padded (n : Nat) : padded 0 n = [chr '0'] ∨ (padded 0 n).head? ≠ some (chr '0') := by
  induction n using Nat.strong_induction_on with
  | _ n ih =>
    have hpadded (k : Nat) : padded 0 k = (Nat.toDigits 10 k).map chr := by
      rw [padded, List.leftpad, Nat.zero_sub, replicate_zero, nil_append]
    rcases Nat.lt_or_ge n 10 with hn | hn
    · rw [hpadded, Nat.toDigits_of_lt_base hn]
      have hall : ∀ k < 10, [k.digitChar].map chr = [chr '0'] ∨ ([k.digitChar].map chr).head? ≠ some (chr '0') := by
        decide
      exact hall n hn
    · right
      have hsplit : (padded 0 n).head? = (padded 0 (n / 10)).head? := by
        rw [hpadded n, Nat.toDigits_of_base_le (by decide) hn, map_append, ← hpadded]
        obtain ⟨c, cs, hc⟩ := exists_cons_of_ne_nil (padded_ne_nil 0 (n / 10))
        rw [hc, cons_append, List.head?_cons, List.head?_cons]
      rw [hsplit]
      rcases ih (n / 10) (by omega) with hzero | hhead
      · have := congrArg (digitsValue 10 0) hzero
        rw [digitsValue_padded, show digitsValue 10 0 [chr '0'] = 0 by decide] at this
        omega
      · exact hhead

/-- With base 0 a printed number is read back: it has no leading zero that would make it octal. -/
theorem strtoll_padded (hn : n < 2 ^ 63) : (strtoll (padded 0 n)).1 = n := by
  have hread : ∀ s : Text, s = padded 0 n → scanMagnitude s = some (n, []) := by
    have hdigits : readDigits 10 0 (padded 0 n) = (n, []) := by
      have := @readDigits_append 10 0 _ [] (@isDigitOf_padded 0 n) rfl
      rwa [append_nil, digitsValue_padded] at this
    intro s hs
    have hstart : startsWithDigit 10 s = true := by
      obtain ⟨c, cs, hc⟩ := exists_cons_of_ne_nil (padded_ne_nil 0 n)
      rw [hs, hc]
      exact startsWithDigit_cons.mpr (isDigitOf_padded c (by rw [hc]; exact mem_cons_self))
    unfold scanMagnitude
    split
    · rename_i c c' rest
      have hne : c ≠ chr '0' := by
        rintro rfl
        rcases head_padded n with hzero | hhead
        · rw [hzero] at hs
          cases hs
        · rw [← hs] at hhead
          exact hhead rfl
      rw [if_neg (fun h => hne h.1), if_neg hne, if_pos hstart, hs, hdigits]
    · rw [if_pos hstart, hs, hdigits]
  have hscan : scanNumber (padded 0 n) = some (false, n, []) := by
    obtain ⟨c, cs, hc⟩ := exists_cons_of_ne_nil (padded_ne_nil 0 n)
    have hdigit := @isDigitOf_padded 0 n c (by rw [hc]; exact mem_cons_self)
    obtain ⟨_, hminus, hplus, _⟩ := hdigit.not_space_sign
    rw [scanNumber, hc, dropWhile_digit hdigit]
    dsimp only
    rw [if_neg hminus, if_neg hplus, hread _ hc.symm]
    rfl
  rw [strtoll, hscan]
  dsimp only
  rw [if_neg Bool.false_ne_true, Nat.min_eq_left (by omega)]

theorem length_padded_le {k : Nat} (hk : 0 < k) (h : n < 10 ^ k) : (padded 0 n).length ≤ k := by
  rw [padded, length_map, List.leftpad, length_append, length_replicate, Nat.zero_sub, Nat.zero_add]
  exact (Nat.length_toDigits_le_iff (by decide) hk).mpr h

/-! ## What is behind a number -/

theorem readDigits_suffix (base acc : Nat) (s : Text) : (readDigits base acc s).2 <:+ s := by
  induction s generalizing acc with
  | nil => exact suffix_refl _
  | cons c s ih =>
    rw [readDigits]
    split
    · split
      · exact (ih _).trans (suffix_cons c s)
      · exact suffix_refl _
    · exact suffix_refl _

theorem splitSign_suffix (s : Text) : (splitSign s).2 <:+ s := by
  unfold splitSign
  split
  · exact suffix_refl _
  · split
    · exact suffix_cons _ _
    · split
      · exact suffix_cons _ _
      · exact suffix_refl _

theorem skipBase_suffix (base : Nat) (s : Text) : skipBase base s <:+ s := by
  unfold skipBase
  split
  · split
    · exact (suffix_cons _ _).trans (suffix_cons _ _)
    · exact suffix_refl _
  · exact suffix_refl _

theorem scanBase_suffix (h : scanBase base s = some (neg, n, rest)) : rest <:+ s := by
  rw [scanBase] at h
  dsimp only at h
  split at h
  · have hrest := congrArg (fun p : Bool × Nat × Text => p.2.2) (Option.some.inj h)
    dsimp only at hrest
    rw [← hrest]
    exact (readDigits_suffix ..).trans ((skipBase_suffix ..).trans ((splitSign_suffix _).trans (dropWhile_suffix _)))
  · cases h

theorem strtol_suffix (base : Nat) (s : Text) : (strtol base s).2 <:+ s := by
  rw [strtol]
  split
  · exact suffix_refl _
  · exact scanBase_suffix ‹_›

theorem strtoul_suffix (base : Nat) (s : Text) : (strtoul base s).2 <:+ s := by
  rw [strtoul]
  split
  · exact suffix_refl _
  · exact scanBase_suffix ‹_›

/-! ## What a number is read from -/

/-- The digits at the start of a string, and what is behind them. -/
theorem exists_digits (base : Nat) (s : Text) :
    ∃ ds rest, s = ds ++ rest ∧ (∀ c ∈ ds, IsDigitOf base c) ∧ startsWithDigit base rest = false := by
  induction s with
  | nil => exact ⟨[], [], rfl, by simp, rfl⟩
  | cons c s ih =>
    by_cases hc : IsDigitOf base c
    · obtain ⟨ds, rest, rfl, hds, hrest⟩ := ih
      exact ⟨c :: ds, rest, rfl, forall_mem_cons.mpr ⟨hc, hds⟩, hrest⟩
    · exact ⟨[], c :: s, rfl, by simp, Bool.eq_false_iff.mpr (mt startsWithDigit_cons.mp hc)⟩

theorem digitsValue_lt {ds : Text} (h : ∀ c ∈ ds, IsDigitOf 10 c) (acc : Nat) :
    digitsValue 10 acc ds < (acc + 1) * 10 ^ ds.length := by
  induction ds generalizing acc with
  | nil => exact Nat.lt_of_lt_of_eq (Nat.lt_succ_self acc) (Nat.mul_one _).symm
  | cons c ds ih =>
    obtain ⟨⟨d, hd, hlt⟩, hds⟩ := forall_mem_cons.mp h
    have hrest := ih hds (acc * 10 + d)
    have hstep : (acc * 10 + d + 1) * 10 ^ ds.length ≤ (acc + 1) * 10 * 10 ^ ds.length := Nat.mul_le_mul_right _ (by omega)
    rw [digitsValue, foldl_cons, hd, Option.getD_some, ← digitsValue, length_cons, Nat.pow_succ,
      Nat.mul_comm (10 ^ ds.length), ← Nat.mul_assoc]
    exact Nat.lt_of_lt_of_le hrest hstep

/-- The text of a number: white space, a sign and digits. -/
structure NumberText (space sign ds : Text) (neg : Bool) : Prop where
  space : ∀ c ∈ space, isSpace c = true
  sign : sign = [] ∧ neg = false ∨ sign = [chr '+'] ∧ neg = false ∨ sign = [chr '-'] ∧ neg = true
  ne : ds ≠ []
  digits : ∀ c ∈ ds, IsDigitOf 10 c

theorem scanBase_number {space sign ds : Text} (h : NumberText space sign ds neg)
    (hrest : startsWithDigit 10 rest = false) :
    scanBase 10 (space ++ (sign ++ (ds ++ rest))) = some (neg, digitsValue 10 0 ds, rest) := by
  obtain ⟨c, cs, hcs⟩ := exists_cons_of_ne_nil h.ne
  have hc := h.digits c (by rw [hcs]; simp)
  have hskip (s : Text) : skipBase 10 s = s := by
    unfold skipBase
    split
    · rw [if_neg (by simp)]
    · rfl
  have hbody : (space ++ (sign ++ (ds ++ rest))).dropWhile isSpace = sign ++ (ds ++ rest) := by
    rw [dropWhile_append_of_pos h.space]
    rcases h.sign with ⟨rfl, -⟩ | ⟨rfl, -⟩ | ⟨rfl, -⟩
    · rw [hcs, nil_append, cons_append, dropWhile_digit hc]
    · exact dropWhile_cons_of_neg (by decide)
    · exact dropWhile_cons_of_neg (by decide)
  have hsign : splitSign (sign ++ (ds ++ rest)) = (neg, ds ++ rest) := by
    rcases h.sign with ⟨rfl, rfl⟩ | ⟨rfl, rfl⟩ | ⟨rfl, rfl⟩
    · rw [hcs, nil_append, cons_append, splitSign_digit hc]
    · rfl
    · rfl
  have hstart : startsWithDigit 10 (ds ++ rest) = true := by
    rw [hcs, cons_append]
    exact startsWithDigit_cons.mpr hc
  rw [scanBase, hbody, hsign]
  dsimp only
  rw [hskip, if_pos hstart, readDigits_append h.digits hrest]

theorem splitSign_split (s : Text) :
    ∃ sign, s = sign ++ (splitSign s).2 ∧ (sign = [] ∧ (splitSign s).1 = false ∨ sign = [chr '+'] ∧ (splitSign s).1 = false ∨
      sign = [chr '-'] ∧ (splitSign s).1 = true) := by
  match s with
  | [] => exact ⟨[], rfl, .inl ⟨rfl, rfl⟩⟩
  | c :: cs =>
    rw [splitSign]
    by_cases hminus : c = chr '-'
    · rw [if_pos hminus, hminus]
      exact ⟨[chr '-'], rfl, .inr (.inr ⟨rfl, rfl⟩)⟩
    · rw [if_neg hminus]
      by_cases hplus : c = chr '+'
      · rw [if_pos hplus, hplus]
        exact ⟨[chr '+'], rfl, .inr (.inl ⟨rfl, rfl⟩)⟩
      · rw [if_neg hplus]
        exact ⟨[], rfl, .inl ⟨rfl, rfl⟩⟩

/-- What is read in base 10 comes from the text of a number at the start. -/
theorem scanBase_eq_some (h : scanBase 10 s = some (neg, n, rest)) :
    ∃ space sign ds, s = space ++ (sign ++ (ds ++ rest)) ∧ NumberText space sign ds neg ∧
      startsWithDigit 10 rest = false ∧ n = digitsValue 10 0 ds := by
  have hskip (s : Text) : skipBase 10 s = s := by
    unfold skipBase
    split
    · rw [if_neg (by simp)]
    · rfl
  obtain ⟨ds, rest', hbody, hds, hrest⟩ := exists_digits 10 (splitSign (s.dropWhile isSpace)).2
  have hne : ds ≠ [] := by
    rintro rfl
    rw [scanBase] at h
    dsimp only at h
    rw [hskip, hbody, nil_append, hrest] at h
    cases h
  have hspace : ∀ c ∈ s.takeWhile isSpace, isSpace c = true := fun c hc => mem_takeWhile_imp hc
  obtain ⟨sign, hsplit, hsign⟩ := splitSign_split (s.dropWhile isSpace)
  rw [hbody] at hsplit
  have htext : s = s.takeWhile isSpace ++ (sign ++ (ds ++ rest')) := by
    rw [← hsplit, takeWhile_append_dropWhile]
  have hnumber : NumberText (s.takeWhile isSpace) sign ds (splitSign (s.dropWhile isSpace)).1 := ⟨hspace, hsign, hne, hds⟩
  have hread := scanBase_number hnumber hrest
  rw [← htext, h, Option.some.injEq, Prod.mk.injEq, Prod.mk.injEq] at hread
  obtain ⟨rfl, rfl, rfl⟩ := hread
  exact ⟨_, sign, ds, htext, hnumber, hrest, rfl⟩

/-! ## Fields in base 16 -/

@[simp] theorem length_hexField (width n : Nat) : (hexField width n).length = width := by
  induction width generalizing n with
  | zero => rfl
  | succ width ih => rw [hexField, length_append, ih, length_singleton]

theorem digitVal_hexChar {d : Nat} (h : d < 16) : digitVal (hexChar d) = some d := by
  have hall : ∀ d < 16, digitVal (hexChar d) = some d := by decide
  exact hall d h

theorem isDigitOf_hexField (width n : Nat) : ∀ c ∈ hexField width n, IsDigitOf 16 c := by
  induction width generalizing n with
  | zero => simp [hexField]
  | succ width ih =>
    intro c hc
    rw [hexField, mem_append, mem_singleton] at hc
    rcases hc with hc | rfl
    · exact ih _ c hc
    · exact ⟨n % 16, digitVal_hexChar (Nat.mod_lt _ (by decide)), Nat.mod_lt _ (by decide)⟩

theorem digitsValue_hexField (h : n < 16 ^ width) : digitsValue 16 0 (hexField width n) = n := by
  induction width generalizing n with
  | zero =>
    rw [Nat.lt_one_iff.mp h]
    rfl
  | succ width ih =>
    have hdiv : n / 16 < 16 ^ width := by
      rw [Nat.pow_succ] at h
      omega
    have hfront := ih hdiv
    rw [digitsValue] at hfront
    rw [hexField, digitsValue, foldl_append, hfront, foldl_cons, foldl_nil,
      digitVal_hexChar (Nat.mod_lt _ (by decide)), Option.getD_some, Nat.div_add_mod']

/-- A number printed with `0x` in front is read again. -/
theorem strtol_hexField {width n : Nat} (hwidth : 0 < width) (h : n < 16 ^ width) (hn : n < 2 ^ 63) :
    strtol 16 (chr '0' :: chr 'x' :: hexField width n) = ((n : Int), []) := by
  have hstart : startsWithDigit 16 (hexField width n) = true := by
    obtain ⟨c, cs, hcs⟩ := exists_cons_of_length_pos (Nat.lt_of_lt_of_eq hwidth (length_hexField width n).symm)
    rw [hcs, startsWithDigit_cons]
    exact isDigitOf_hexField width n c (hcs ▸ mem_cons_self)
  have hread : readDigits 16 0 (hexField width n) = (n, []) := by
    have := @readDigits_append 16 0 _ _ (isDigitOf_hexField width n) (show startsWithDigit 16 [] = false from rfl)
    rwa [append_nil, digitsValue_hexField h] at this
  have hzero : IsDigitOf 16 (chr '0') := ⟨0, by decide, by decide⟩
  have hskip : skipBase 16 (chr '0' :: chr 'x' :: hexField width n) = hexField width n := by
    rw [skipBase, if_pos ⟨rfl, rfl, .inl rfl, hstart⟩]
  have hscan : scanBase 16 (chr '0' :: chr 'x' :: hexField width n) = some (false, n, []) := by
    rw [scanBase, dropWhile_digit hzero, splitSign_digit hzero]
    dsimp only
    rw [hskip, if_pos hstart, hread]
  rw [strtol, hscan]
  dsimp only
  rw [if_neg Bool.false_ne_true, Nat.min_eq_left (by omega)]

/-- A field of the full width is read back, whatever follows it. -/
theorem scanHexFieldRest_hexField (hwidth : 0 < width) (h : n < 16 ^ width) (rest : Text) :
    scanHexFieldRest width (hexField width n ++ rest) = some (n, rest) := by
  obtain ⟨c, cs, hcs⟩ := exists_cons_of_length_pos (Nat.lt_of_lt_of_eq hwidth (length_hexField width n).symm)
  have hdigits := isDigitOf_hexField width n
  have hc := hdigits c (hcs ▸ mem_cons_self)
  have hdrop : (hexField width n ++ rest).dropWhile isSpace = hexField width n ++ rest := by
    rw [hcs, cons_append, dropWhile_digit hc]
  have htake : (hexField width n ++ rest).take width = c :: cs := by
    rw [take_left' (length_hexField width n), hcs]
  have hbody : skipX (c :: cs) = c :: cs := by
    match cs with
    | [] => rfl
    | x :: cs =>
      have hx := isDigitOf_hex (hdigits x (hcs ▸ mem_cons_of_mem _ mem_cons_self))
      rw [skipX, if_neg (by simp [hx])]
  have hread : readDigits 16 0 (c :: cs) = (n, []) := by
    have := @readDigits_append 16 0 _ _ hdigits (show startsWithDigit 16 [] = false from rfl)
    rwa [append_nil, digitsValue_hexField h, hcs] at this
  unfold scanHexFieldRest
  simp only [hdrop, htake, splitSign_digit hc, hbody]
  rw [startsWithDigit_cons.mpr hc, hread]
  have hlen : (c :: cs).length = width := by rw [← hcs, length_hexField]
  rw [Bool.not_true, if_neg Bool.false_ne_true, if_neg Bool.false_ne_true, hlen, length_nil, Nat.sub_zero,
    drop_left' (length_hexField width n)]

end CString
