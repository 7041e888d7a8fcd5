/-
Strings and characters as the C library has them in the C locale: a string is the list of its bytes
without the terminating NUL.
-/
import Mathlib.Algebra.Ring.Int.Defs
import Mathlib.Algebra.Ring.Nat
import Mathlib.Data.List.TakeWhile

namespace CString

open List

/-- The byte of a character of the source. -/
def chr (c : Char) : UInt8 := c.toUInt8

abbrev Text := List UInt8

/-! ## Characters -/

/-- `isascii`. -/
def isAscii (c : UInt8) : Bool := c < 0x80

/-- `isdigit`. -/
def isDigit (c : UInt8) : Bool := chr '0' ≤ c && c ≤ chr '9'

/-- `isupper`. -/
def isUpper (c : UInt8) : Bool := chr 'A' ≤ c && c ≤ chr 'Z'

/-- `islower`. -/
def isLower (c : UInt8) : Bool := chr 'a' ≤ c && c ≤ chr 'z'

/-- `isalpha`. -/
def isAlpha (c : UInt8) : Bool := isUpper c || isLower c

/-- `isalnum`. -/
def isAlnum (c : UInt8) : Bool := isAlpha c || isDigit c

/-- `isspace`. -/
def isSpace (c : UInt8) : Bool := c = chr ' ' || (9 ≤ c && c ≤ 13)

/-- `isprint`. -/
def isPrint (c : UInt8) : Bool := chr ' ' ≤ c && c ≤ chr '~'

/-- `toupper`. -/
def toUpper (c : UInt8) : UInt8 := if isLower c then c - 32 else c

/-- `tolower`. -/
def toLower (c : UInt8) : UInt8 := if isUpper c then c + 32 else c

/-- The value of a hexadecimal digit. -/
def hexDigit (c : UInt8) : Option UInt8 :=
  if isDigit c then some (c - chr '0')
  else if chr 'A' ≤ c && c ≤ chr 'F' then some (c - chr 'A' + 10)
  else if chr 'a' ≤ c && c ≤ chr 'f' then some (c - chr 'a' + 10)
  else none

/-! ## Strings -/

/-- The string at the start of a block of bytes. -/
def cstr (bytes : List UInt8) : Text := bytes.takeWhile (· ≠ 0)

/-- `strcmp`: zero for the same string, and the sign of the first difference otherwise. -/
def strcmp : Text → Text → Int
  | [], [] => 0
  | [], _ :: _ => -1
  | _ :: _, [] => 1
  | a :: s, b :: t => if a = b then strcmp s t else if a < b then -1 else 1

theorem strcmp_nil : strcmp [] [] = 0 := by
  rw [strcmp]

/-- `strcasecmp`. -/
def strcasecmp (s t : Text) : Int := strcmp (s.map toLower) (t.map toLower)

/-- `strncmp`. -/
def strncmp (n : Nat) (s t : Text) : Int := strcmp (s.take n) (t.take n)

/-- `strchr`: the place of the first such character. -/
def strchr (s : Text) (c : UInt8) : Option Nat := s.findIdx? (· = c)

/-- `strncasecmp(s, t, n) == 0`. -/
def samePrefixCase (n : Nat) (s t : Text) : Bool := (s.take n).map toUpper == (t.take n).map toUpper

/-- The conversion `%02x` of `sscanf`, cut to a byte: white space is skipped, at most two characters are read, of which
the first may be a sign. -/
def scanHex (s : Text) : Option UInt8 :=
  match s.dropWhile isSpace with
  | [] => none
  | c :: rest =>
    if c = chr '+' then (rest.head?.bind hexDigit)
    else if c = chr '-' then (rest.head?.bind hexDigit).map (0 - ·)
    else match hexDigit c, rest with
      | none, _ => none
      | some x, [] => some x
      | some x, c' :: _ =>
        -- "0x" starts a number that does not fit into the width
        if c = chr '0' ∧ (c' = chr 'x' ∨ c' = chr 'X') then none
        else match hexDigit c' with
          | none => some x
          | some y => some (16 * x + y)

/-- A fact about every byte, from one about every number below 256. -/
theorem forall_byte {P : UInt8 → Prop} (h : ∀ n : Fin 256, P (UInt8.ofNat n)) (c : UInt8) : P c := by
  have hc := h ⟨c.toNat, c.toNat_lt⟩
  rwa [UInt8.ofNat_toNat] at hc

-- a quantifier over a list is decided slowly, `List.all` is not
theorem forall_entry {α : Type} {l : List α} {P : α → Prop} [DecidablePred P] (h : l.all (fun x => decide (P x)) = true) :
    ∀ x ∈ l, P x :=
  fun x hx => of_decide_eq_true (all_eq_true.mp h x hx)

theorem forall_entries {α β : Type} {l : List α} {l' : List β} {P : α → β → Prop} [∀ x y, Decidable (P x y)]
    (h : l.all (fun x => l'.all fun y => decide (P x y)) = true) : ∀ x ∈ l, ∀ y ∈ l', P x y :=
  fun x hx => forall_entry (all_eq_true.mp h x hx)

@[simp] theorem strcmp_self (s : Text) : strcmp s s = 0 := by
  induction s with
  | nil => exact strcmp_nil
  | cons a s ih => rw [strcmp, if_pos rfl, ih]

variable {s t : Text} {c : UInt8}

@[simp] theorem strcmp_eq_zero : strcmp s t = 0 ↔ s = t := by
  constructor
  · intro h
    induction s generalizing t with
    | nil =>
      cases t with
      | nil => rfl
      | cons b t => cases h
    | cons a s ih =>
      cases t with
      | nil => cases h
      | cons b t =>
        rw [strcmp] at h
        split at h
        case isTrue heq => rw [heq, ih h]
        case isFalse =>
          split at h <;> cases h
  · rintro rfl
    exact strcmp_self s

theorem strcmp_cons (a b : UInt8) (s t : Text) :
    strcmp (a :: s) (b :: t) = if a = b then strcmp s t else if a < b then -1 else 1 := rfl

theorem strcmp_swap (s t : Text) : strcmp t s = -strcmp s t := by
  induction s generalizing t with
  | nil => cases t <;> rfl
  | cons a s ih =>
    cases t with
    | nil => rfl
    | cons b t =>
      rw [strcmp_cons, strcmp_cons, ih]
      by_cases hab : a = b
      · rw [if_pos hab, if_pos hab.symm]
      · rw [if_neg hab, if_neg (Ne.symm hab)]
        by_cases hlt : a < b
        · rw [if_pos hlt, if_neg (UInt8.lt_asymm hlt), Int.neg_neg]
        · rw [if_neg hlt, if_pos (UInt8.lt_of_le_of_ne (UInt8.not_lt.mp hlt) (Ne.symm hab))]

/-- The order of strings is transitive, strictly where one of the two steps is. -/
theorem strcmp_trans {u : Text} (hst : strcmp s t ≤ 0) (htu : strcmp t u ≤ 0) :
    strcmp s u ≤ 0 ∧ (strcmp s t < 0 ∨ strcmp t u < 0 → strcmp s u < 0) := by
  induction s generalizing t u with
  | nil =>
    cases u with
    | nil =>
      cases t with
      | nil => exact ⟨hst, fun h => h.elim id id⟩
      | cons b t => exact absurd htu (by rw [strcmp]; decide)
    | cons c u => exact ⟨by rw [strcmp]; decide, fun _ => by rw [strcmp]; decide⟩
  | cons a s ih =>
    cases t with
    | nil => exact absurd hst (by rw [strcmp]; decide)
    | cons b t =>
      cases u with
      | nil => exact absurd htu (by rw [strcmp]; decide)
      | cons c u =>
        have hih := @ih t u
        simp only [strcmp_cons] at hst htu ⊢
        split_ifs at hst htu ⊢ <;> simp_all <;> grind

/-- A shorter string decides a comparison where it differs, and is the smaller one where it does not. -/
theorem strcmp_take (s t : Text) :
    (strcmp s t < 0 ↔ strcmp s (t.take s.length) < 0 ∨ (strcmp s (t.take s.length) = 0 ∧ t.length ≠ s.length)) ∧
      (0 < strcmp s t ↔ 0 < strcmp s (t.take s.length)) := by
  induction s generalizing t with
  | nil => cases t <;> simp [strcmp]
  | cons a s ih =>
    cases t with
    | nil => simp [strcmp]
    | cons b t =>
      rw [length_cons, take_succ_cons, strcmp_cons, strcmp_cons, length_cons]
      split
      · have := ih t
        simpa using this
      · split <;> simp

theorem strchr_eq_none : strchr s c = none ↔ c ∉ s := by
  rw [strchr, List.findIdx?_eq_none_iff]
  simp only [decide_eq_false_iff_not]
  exact ⟨fun h hc => h c hc rfl, fun h x hx he => h (he ▸ hx)⟩

theorem strchr_append (h : c ∉ s) : strchr (s ++ c :: t) c = some s.length := by
  rw [strchr, List.findIdx?_append, show s.findIdx? (· = c) = none from strchr_eq_none.2 h]
  simp [List.findIdx?_cons]

theorem cstr_eq_self (h : (0 : UInt8) ∉ s) : cstr s = s := by
  unfold cstr
  rw [takeWhile_eq_self_iff]
  intro c hc
  refine decide_eq_true ?_
  rintro rfl
  exact h hc

theorem cstr_append {a : List UInt8} (h : (0 : UInt8) ∉ a) (b : List UInt8) : cstr (a ++ b) = a ++ cstr b := by
  unfold cstr
  refine takeWhile_append_of_pos fun c hc => decide_eq_true ?_
  rintro rfl
  exact h hc

theorem cstr_append_of_mem {a : List UInt8} (h : (0 : UInt8) ∈ a) (b : List UInt8) : cstr (a ++ b) = cstr a := by
  induction a with
  | nil => cases h
  | cons c a ih =>
    unfold cstr at ih ⊢
    by_cases hc : c = 0
    · subst hc
      rfl
    · have hmem := (mem_cons.mp h).resolve_left fun heq => hc heq.symm
      rw [cons_append, takeWhile_cons_of_pos (by simpa using hc), takeWhile_cons_of_pos (by simpa using hc),
        ih hmem]

theorem zero_mem_iff_length_cstr {s : List UInt8} : (0 : UInt8) ∈ s ↔ (cstr s).length ≠ s.length := by
  constructor
  · intro h hlen
    have heq : cstr s = s := (List.takeWhile_prefix _).eq_of_length hlen
    have hall := takeWhile_eq_self_iff.mp heq 0 h
    simp at hall
  · intro h
    by_contra hz
    exact h (by rw [cstr_eq_self hz])

theorem zero_notMem_cstr (s : List UInt8) : (0 : UInt8) ∉ cstr s := by
  intro h
  have := mem_takeWhile_imp h
  simp at this

/-- A text is split in one way at the first place of a character. -/
theorem split_unique {u u' v v' : Text} (hu : c ∉ u) (hu' : c ∉ u') (h : u ++ c :: v = u' ++ c :: v') :
    u = u' ∧ v = v' := by
  have hnil : ∀ {w y y' : Text}, c :: y = w ++ c :: y' → c ∉ w → w = [] := by
    intro w y y' heq hw
    cases w with
    | nil => rfl
    | cons d w => exact absurd ((List.cons.inj heq).1 ▸ mem_cons_self) hw
  have huu : u = u' := by
    rcases append_eq_append_iff.mp h with ⟨w, rfl, heq⟩ | ⟨w, rfl, heq⟩
    · rw [hnil heq fun hm => hu' (mem_append_right _ hm), append_nil]
    · rw [hnil heq fun hm => hu (mem_append_right _ hm), append_nil]
  subst huu
  exact ⟨rfl, (List.cons.inj (append_cancel_left h)).2⟩

end CString
