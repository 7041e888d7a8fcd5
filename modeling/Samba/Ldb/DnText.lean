/-
Linearizing and exploding. The parser reads the string of a list of components back to the same list, but for a value
that ends in commas behind a space: an escaped comma does not end the run of spaces that the parser has seen, and the
value is trimmed back to before that run.
-/
import Mathlib.Data.List.Induction
import Samba.Ldb.Dn

namespace Samba.Ldb

open CString List

namespace ExplodeState

/-! ## Reading a name -/

/-- A character of an attribute name behind the first. -/
def nameChar (c : UInt8) : Bool := isAlpha c || isDigit c || c = chr '-'

/-- A valid attribute name: a letter and then letters, digits or hyphens. -/
def validName : Text → Bool
  | [] => false
  | c :: name => isAlpha c && name.all nameChar

/-- The characters of names, and what they are not. -/
theorem name_classes (c : UInt8) :
    (isAlpha c = true → (c ≠ chr ' ' ∧ isAscii c = true ∧ isDigit c = false) ∧ c ≠ 0 ∧ c ≠ chr '@' ∧ toUpper c ≠ chr '<') ∧
      (nameChar c = true → (c ≠ chr ' ' ∧ c ≠ chr '=' ∧ c ≠ chr ',' ∧ isAscii c = true) ∧ c ≠ 0) :=
  @forall_byte (fun c =>
    (isAlpha c = true → (c ≠ chr ' ' ∧ isAscii c = true ∧ isDigit c = false) ∧ c ≠ 0 ∧ c ≠ chr '@' ∧ toUpper c ≠ chr '<') ∧
      (nameChar c = true → (c ≠ chr ' ' ∧ c ≠ chr '=' ∧ c ≠ chr ',' ∧ isAscii c = true) ∧ c ≠ 0)) (by decide +kernel) c

theorem isAlpha_spec (c : UInt8) (h : isAlpha c = true) : c ≠ chr ' ' ∧ isAscii c = true ∧ isDigit c = false :=
  ((name_classes c).1 h).1

theorem nameChar_spec (c : UInt8) (h : nameChar c = true) : c ≠ chr ' ' ∧ c ≠ chr '=' ∧ c ≠ chr ',' ∧ isAscii c = true :=
  ((name_classes c).2 h).1

variable {st st' : ExplodeState} {c : UInt8} {rest : Text} {skip : Bool}

theorem run_cons (h : st.step c rest = .ok (st', false)) : run st (c :: rest) = run (st'.advance c) rest := by
  rw [run, h]

theorem attrStep_name (htrim : st.trim = false) (hoid : st.isOid = false)
    (hc : nameChar c = true) : st.attrStep c = .ok (st.put c) := by
  obtain ⟨hsp, heq, -, hascii⟩ := nameChar_spec c hc
  unfold nameChar at hc
  simp [attrStep, htrim, hoid, hsp, heq, hascii, hc]

theorem run_nameChars {name : Text} {st : ExplodeState} {rest : Text} (hattr : st.inAttr = true) (htrim : st.trim = false)
    (hoid : st.isOid = false) (hname : name.all nameChar = true) :
    ∃ prev, run st (name ++ rest) = run { st with p := st.p + name.length, data := st.data ++ name, prev := prev } rest := by
  induction name generalizing st with
  | nil => exact ⟨st.prev, by simp⟩
  | cons c name ih =>
    rw [all_cons, Bool.and_eq_true] at hname
    have hstep : st.step c (name ++ rest) = .ok (st.put c, false) := by
      rw [step, if_pos hattr, attrStep_name htrim hoid hname.1]
      rfl
    obtain ⟨prev, ih'⟩ := @ih ((st.put c).advance c) hattr htrim hoid hname.2
    refine ⟨prev, ?_⟩
    rw [cons_append, run_cons hstep, ih']
    congr 1
    simp [put, advance, Nat.add_comm, Nat.add_left_comm]

/-- The parser before the start of a component. -/
structure AtStart (st : ExplodeState) : Prop where
  inAttr : st.inAttr = true
  trim : st.trim = true
  inQuote : st.inQuote = false
  isOid : st.isOid = false
  escape : st.escape = false
  data : st.data = []

/-- The parser before the start of a value. -/
def atValue (st : ExplodeState) (name : Text) : ExplodeState :=
  { st with p := st.p + name.length + 1, prev := chr '=', inAttr := false, trim := true, name := name, data := [] }

theorem run_equals (hattr : st.inAttr = true) (htrim : st.trim = false) :
    run st (chr '=' :: rest) = run (advance { st with inAttr := false, trim := true, name := st.data, data := [] } (chr '='))
      rest := by
  refine run_cons ?_
  have heq : chr '=' ≠ chr ' ' := by decide
  rw [step, if_pos hattr]
  simp [attrStep, htrim, heq, Except.map]

theorem run_name {name : Text} (h : st.AtStart) (hname : validName name = true) :
    run st (name ++ chr '=' :: rest) = run (st.atValue name) rest := by
  cases name with
  | nil => cases hname
  | cons c name =>
    rw [validName, Bool.and_eq_true] at hname
    obtain ⟨hsp, hascii, hdigit⟩ := isAlpha_spec c hname.1
    have hfirst : st.step c (name ++ chr '=' :: rest) = .ok ({ st.put c with trim := false }, false) := by
      rw [step, if_pos h.inAttr]
      simp [attrStep, h.trim, hsp, hascii, hdigit, hname.1, Except.map]
    obtain ⟨prev, hrun⟩ := @run_nameChars name (advance { st.put c with trim := false } c) (chr '=' :: rest) h.inAttr rfl
      h.isOid hname.2
    rw [cons_append, run_cons hfirst, hrun, run_equals]
    · simp only [put, advance, atValue, h.data, nil_append, length_cons, cons_append]
      congr 2
      omega
    · exact h.inAttr
    · rfl

/-! ## Reading a value -/

/-- The parser behind a byte of a value. -/
def afterByte (st : ExplodeState) (c : UInt8) : ExplodeState :=
  { st with
    p := st.p + (escapeByte c).length
    prev := c
    data := st.data ++ [c]
    t := if c = chr ',' then st.t else if c = chr ' ' then some (st.t.getD st.p) else none }

/-- The parser inside of a value, outside of quotes. -/
structure InValue (st : ExplodeState) : Prop where
  inAttr : st.inAttr = false
  inQuote : st.inQuote = false
  escape : st.escape = false

/-- The characters with a backslash in front, and how a character is written. -/
theorem escape_classes (c : UInt8) : (c ∈ escaped ↔ c = chr ',' ∨ c ∈ reserved ∨ c = chr '\\') ∧
    (c ∈ reserved → c ≠ chr ',' ∧ c ≠ chr ' ' ∧ c ≠ chr '\\') ∧ (c ≠ 0 → (0 : UInt8) ∉ escapeByte c) := by
  have hescaped : ∀ c ∈ escaped, c = chr ',' ∨ c ∈ reserved ∨ c = chr '\\' :=
    forall_entry (by decide +kernel)
  have hreserved : ∀ c ∈ reserved, c ∈ escaped ∧ c ≠ chr ',' ∧ c ≠ chr ' ' ∧ c ≠ chr '\\' :=
    forall_entry (by decide +kernel)
  have hboth : chr ',' ∈ escaped ∧ chr '\\' ∈ escaped := by decide +kernel
  refine ⟨⟨hescaped c, ?_⟩, fun h => (hreserved c h).2, fun h0 => ?_⟩
  · rintro (rfl | h | rfl)
    · exact hboth.1
    · exact (hreserved c h).1
    · exact hboth.2
  · unfold escapeByte
    split
    · intro h
      rcases mem_cons.mp h with h | h
      · exact absurd h (by decide)
      · exact h0 (mem_singleton.mp h).symm
    · exact fun h => h0 (mem_singleton.mp h).symm

theorem mem_escaped (c : UInt8) : c ∈ escaped ↔ c = chr ',' ∨ c ∈ reserved ∨ c = chr '\\' := (escape_classes c).1

theorem reserved_spec (c : UInt8) : c ∈ reserved → c ≠ chr ',' ∧ c ≠ chr ' ' ∧ c ≠ chr '\\' := (escape_classes c).2.1

/-- A character of a value outside of quotes, with the parser at or behind the start of the value. -/
theorem step_plain {st : ExplodeState} {c : UInt8} {rest : Text} (hattr : st.inAttr = false) (hquote : st.inQuote = false)
    (hc : st.trim = true → c ≠ chr ' ' ∧ c ≠ chr '"') :
    st.step c rest = plainStep { st with trim := false } c rest := by
  rw [step, if_neg (by rw [hattr]; decide), valueStep, if_neg (by rw [hquote]; decide)]
  cases htrim : st.trim with
  | false =>
    rw [if_neg (by decide)]
    congr 1
    rw [← htrim]
  | true =>
    obtain ⟨h1, h2⟩ := hc htrim
    rw [if_pos rfl, if_neg h1, if_neg h2]

theorem run_byte (h : st.InValue) (hz : c ≠ 0) (hc : st.trim = true → c ≠ chr ' ') :
    run st (escapeByte c ++ rest) = run (afterByte { st with trim := false } c) rest := by
  have hback : chr '\\' ≠ chr ' ' ∧ chr '\\' ≠ chr '"' := by decide
  by_cases hesc : c ∈ escaped
  · have hbyte : escapeByte c = [chr '\\', c] := by rw [escapeByte, if_pos hesc]
    rw [hbyte]
    -- the backslash
    have h₁ : st.step (chr '\\') (c :: rest) = .ok ({ st with trim := false, escape := true }, false) := by
      rw [step_plain h.inAttr h.inQuote fun _ => hback, plainStep, if_neg (by decide), if_neg (by decide), if_pos rfl,
        if_neg (by rw [h.escape]; decide)]
    rw [cons_append, cons_append, nil_append, run_cons h₁]
    -- the character behind it
    have h₂ : (advance { st with trim := false, escape := true } (chr '\\')).step c rest =
        .ok ({ st with
          trim := false, p := st.p + 1, prev := chr '\\', data := st.data ++ [c], t := if c = chr ',' then st.t else none },
          false) := by
      rw [@step_plain (advance { st with trim := false, escape := true } (chr '\\')) c rest h.inAttr h.inQuote
        fun ht => absurd ht Bool.false_ne_true, plainStep]
      have hes := h.escape
      rcases (mem_escaped c).mp hesc with rfl | hres | rfl
      · simp [advance, put, hes]
      · obtain ⟨hcomma, -, -⟩ := reserved_spec c hres
        simp [advance, put, hes, hres, hcomma]
      · have hcomma : chr '\\' ≠ chr ',' := by decide
        simp [advance, put, hes, hcomma]
    rw [run_cons h₂]
    congr 1
    have hsp : c ≠ chr ' ' := by
      rintro rfl
      revert hesc
      decide
    simp [afterByte, advance, hbyte, hsp]
  · have hbyte : escapeByte c = [c] := by rw [escapeByte, if_neg hesc, if_neg hz]
    rw [mem_escaped, not_or, not_or] at hesc
    obtain ⟨hcomma, hres, hbs⟩ := hesc
    have hquote : c ≠ chr '"' := by
      rintro rfl
      exact hres (by decide)
    have hstep : st.step c rest = .ok ({ st with
        trim := false, data := st.data ++ [c], t := if c = chr ' ' then some (st.t.getD st.p) else none }, false) := by
      rw [step_plain h.inAttr h.inQuote fun ht => ⟨hc ht, hquote⟩, plainStep, if_neg hcomma, if_neg hres, if_neg hbs,
        if_neg (by rw [h.escape]; decide)]
      split
      case isTrue hsp => simp [put]
      case isFalse hsp => simp [put]
    rw [hbyte, List.cons_append, List.nil_append, run_cons hstep]
    congr 1
    simp [afterByte, advance, hbyte, hcomma]

theorem run_bytes {v : Text} (h : st.InValue) (htrim : st.trim = false)
    (hz : (0 : UInt8) ∉ v) : run st (v.flatMap escapeByte ++ rest) = run (v.foldl afterByte st) rest := by
  induction v generalizing st with
  | nil => rfl
  | cons c v ih =>
    rw [List.mem_cons, not_or] at hz
    have hst : { st with trim := false } = st := by rw [← htrim]
    rw [List.flatMap_cons, List.append_assoc, run_byte h (Ne.symm hz.1) fun ht => absurd (ht.symm.trans htrim) (by decide),
      hst, @ih (st.afterByte c) ⟨h.inAttr, h.inQuote, h.escape⟩ htrim hz.2]
    rfl

/-- The parser behind a value. -/
def afterValue (st : ExplodeState) (v : Text) : ExplodeState := v.foldl afterByte { st with trim := false }

/-- A value that is not empty and does not start with a space. -/
theorem run_value {v : Text} (h : st.InValue) (hz : (0 : UInt8) ∉ v) (hne : v ≠ [])
    (hsp : v.head? ≠ some (chr ' ')) : run st (v.flatMap escapeByte ++ rest) = run (st.afterValue v) rest := by
  cases v with
  | nil => exact absurd rfl hne
  | cons c v =>
    rw [List.mem_cons, not_or] at hz
    have hc : c ≠ chr ' ' := fun heq => hsp (by rw [List.head?_cons, heq])
    rw [List.flatMap_cons, List.append_assoc, run_byte h (Ne.symm hz.1) fun _ => hc]
    exact run_bytes ⟨h.inAttr, h.inQuote, h.escape⟩ rfl hz.2

/-! ## Spaces at the end -/

/-- The value has a space with nothing but spaces and commas behind it. -/
def Trailing (v : Text) : Prop := ∃ u w, v = u ++ chr ' ' :: w ∧ ∀ c ∈ w, c = chr ' ' ∨ c = chr ','

theorem trailing_space (v : Text) : Trailing (v ++ [chr ' ']) := ⟨v, [], rfl, by simp⟩

theorem trailing_comma (v : Text) : Trailing (v ++ [chr ',']) ↔ Trailing v := by
  constructor
  · rintro ⟨u, w, heq, hw⟩
    rcases List.eq_nil_or_concat w with rfl | ⟨w', b, rfl⟩
    · have hlast := congrArg List.getLast? heq
      simp only [List.getLast?_concat, Option.some.injEq] at hlast
      exact absurd hlast (by decide)
    · refine ⟨u, w', ?_, fun c hc => hw c (by simp [hc])⟩
      rw [List.concat_eq_append, ← List.cons_append, ← List.append_assoc] at heq
      exact (List.append_inj_left' heq rfl)
  · rintro ⟨u, w, rfl, hw⟩
    refine ⟨u, w ++ [chr ','], by simp, fun c hc => ?_⟩
    rcases List.mem_append.mp hc with hc | hc
    · exact hw c hc
    · exact .inr (List.mem_singleton.mp hc)

theorem not_trailing {v : Text} {c : UInt8} (hsp : c ≠ chr ' ') (hcomma : c ≠ chr ',') : ¬ Trailing (v ++ [c]) := by
  rintro ⟨u, w, heq, hw⟩
  rcases List.eq_nil_or_concat w with rfl | ⟨w', b, rfl⟩
  · have hlast := congrArg List.getLast? heq
    simp only [List.getLast?_concat, Option.some.injEq] at hlast
    exact hsp hlast
  · have hlast := congrArg List.getLast? heq
    rw [List.concat_eq_append, ← List.cons_append, ← List.append_assoc] at hlast
    simp only [List.getLast?_concat, Option.some.injEq] at hlast
    rcases hw b (by simp) with hb | hb
    · exact hsp (hlast.trans hb)
    · exact hcomma (hlast.trans hb)

/-- The parser has read a value: what it leaves as it is, and where it has put the spaces at the end. -/
structure Behind (st : ExplodeState) (v : Text) (st' : ExplodeState) : Prop where
  inValue : st'.InValue
  trim : st'.trim = false
  isOid : st'.isOid = st.isOid
  name : st'.name = st.name
  components : st'.components = st.components
  data : st'.data = st.data ++ v
  t_none : st'.t = none ↔ ¬ Trailing v
  t_lt : ∀ t, st'.t = some t → t < st'.p

theorem escapeByte_length_pos (c : UInt8) : 0 < (escapeByte c).length := by
  unfold escapeByte
  split
  · simp
  · split <;> simp

theorem afterValue_behind {st : ExplodeState} (h : st.InValue) (ht : st.t = none) (v : Text) :
    Behind st v (st.afterValue v) := by
  unfold afterValue
  induction v using List.reverseRecOn with
  | nil =>
    refine ⟨⟨h.inAttr, h.inQuote, h.escape⟩, rfl, rfl, rfl, rfl, by simp, iff_of_true ht ?_, ?_⟩
    · rintro ⟨u, w, heq, -⟩
      simp at heq
    · intro t h
      exact absurd (ht.symm.trans h) (by simp)
  | append_singleton v c ih =>
    rw [List.foldl_append]
    have hpos := escapeByte_length_pos c
    refine ⟨⟨ih.inValue.inAttr, ih.inValue.inQuote, ih.inValue.escape⟩, ih.trim, ih.isOid, ih.name, ih.components, ?_, ?_, ?_⟩
    · simp [afterByte, ih.data]
    · simp only [List.foldl_cons, List.foldl_nil, afterByte]
      by_cases hcomma : c = chr ','
      · rw [if_pos hcomma, hcomma, trailing_comma, ih.t_none]
      · rw [if_neg hcomma]
        by_cases hsp : c = chr ' '
        · rw [if_pos hsp, hsp]
          exact iff_of_false (by simp) (not_not.mpr (trailing_space v))
        · rw [if_neg hsp]
          exact iff_of_true rfl (not_trailing hsp hcomma)
    · intro t
      simp only [List.foldl_cons, List.foldl_nil, afterByte]
      split
      · intro ht'
        have := ih.t_lt t ht'
        omega
      · split
        · intro ht'
          rw [Option.some.injEq] at ht'
          cases hst : (List.foldl afterByte { st with trim := false } v).t with
          | none =>
            rw [hst, Option.getD_none] at ht'
            omega
          | some t' =>
            rw [hst, Option.getD_some] at ht'
            have := ih.t_lt t' hst
            omega
        · simp

/-! ## What a step does -/

/-- The steps inside of a name. -/
inductive AttrSteps (st : ExplodeState) (c : UInt8) : ExplodeState → Prop
  | blank (htrim : st.trim = true) (hc : c = chr ' ') : AttrSteps st c st
  | digit (htrim : st.trim = true) (hc : c ≠ chr ' ') (hascii : isAscii c = true) (hdigit : isDigit c = true) :
      AttrSteps st c { st.put c with trim := false, isOid := true }
  | letter (htrim : st.trim = true) (hc : c ≠ chr ' ') (hascii : isAscii c = true) (hdigit : isDigit c = false)
      (halpha : isAlpha c = true) : AttrSteps st c { st.put c with trim := false }
  | space (htrim : st.trim = false) (hc : c = chr ' ') : AttrSteps st c { st with trim := true }
  | equals (htrim : st.trim = false) (hsp : c ≠ chr ' ') (hc : c = chr '=') :
      AttrSteps st c { st with inAttr := false, trim := true, name := st.data, data := [] }
  | char (htrim : st.trim = false) (hsp : c ≠ chr ' ') (heq : c ≠ chr '=') (hascii : isAscii c = true)
      (hoid : (st.isOid && !(isDigit c || c = chr '.')) = false) (hc : nameChar c = true) : AttrSteps st c (st.put c)

/-- The steps inside of a value and outside of quotes. -/
inductive PlainSteps (st : ExplodeState) (c : UInt8) (rest : Text) : ExplodeState → Bool → Prop
  | escapedComma (hc : c = chr ',') (hesc : st.escape = true) : PlainSteps st c rest { st.put c with escape := false } false
  | comma {v : LdbVal} (hc : c = chr ',') (hesc : st.escape = false) (hv : st.value = .ok v) :
      PlainSteps st c rest { st with
        components := st.components ++ [⟨st.name, v, none⟩], inAttr := true, trim := true, data := [] } false
  | reserved (hcomma : c ≠ chr ',') (hc : c ∈ reserved ∨ c = chr '\\') (hesc : st.escape = true) :
      PlainSteps st c rest { st.put c with escape := false, t := none } false
  | backslash (hc : c = chr '\\') (hesc : st.escape = false) : PlainSteps st c rest { st with escape := true } false
  | hex {x : UInt8} (hcomma : c ≠ chr ',') (hres : c ∉ ExplodeState.reserved) (hback : c ≠ chr '\\') (hesc : st.escape = true)
      (hx : scanHex (c :: rest) = some x) : PlainSteps st c rest { st.put x with escape := false, t := none } true
  | space (hc : c = chr ' ') (hesc : st.escape = false) :
      PlainSteps st c rest { st.put c with t := some (st.t.getD st.p) } false
  | char (hcomma : c ≠ chr ',') (hres : c ∉ ExplodeState.reserved) (hback : c ≠ chr '\\') (hsp : c ≠ chr ' ')
      (hesc : st.escape = false) : PlainSteps st c rest { st.put c with t := none } false

/-- The steps of the parser. -/
inductive Steps (st : ExplodeState) (c : UInt8) (rest : Text) : ExplodeState → Bool → Prop
  | attr {st' : ExplodeState} (hattr : st.inAttr = true) (h : AttrSteps st c st') : Steps st c rest st' false
  | quoteEnd (hattr : st.inAttr = false) (hquote : st.inQuote = true) (hc : c = chr '"' ∧ st.prev ≠ chr '\\') :
      Steps st c rest { st with inQuote := false } false
  | quoted (hattr : st.inAttr = false) (hquote : st.inQuote = true) (hc : ¬ (c = chr '"' ∧ st.prev ≠ chr '\\')) :
      Steps st c rest (st.put c) false
  | blank (hattr : st.inAttr = false) (hquote : st.inQuote = false) (htrim : st.trim = true) (hc : c = chr ' ') :
      Steps st c rest st false
  | quoteStart (hattr : st.inAttr = false) (hquote : st.inQuote = false) (htrim : st.trim = true) (hc : c = chr '"') :
      Steps st c rest { st with trim := false, inQuote := true } false
  | plain {st' : ExplodeState} {skip : Bool} (hattr : st.inAttr = false) (hquote : st.inQuote = false)
      (hc : st.trim = true → c ≠ chr ' ' ∧ c ≠ chr '"') (h : PlainSteps { st with trim := false } c rest st' skip) :
      Steps st c rest st' skip

theorem attrStep_iff : st.attrStep c = .ok st' ↔ AttrSteps st c st' := by
  constructor
  · intro h
    unfold attrStep at h
    split at h
    case isTrue htrim =>
      split at h
      · cases h
        exact .blank htrim ‹_›
      split at h
      · cases h
      case isFalse hascii =>
        rw [Bool.not_eq_true', Bool.not_eq_false] at hascii
        split at h
        · cases h
          exact .digit htrim ‹_› hascii ‹_›
        split at h
        · cases h
        · cases h
          exact .letter htrim ‹_› hascii (by simpa using ‹¬ isDigit c = true›) (by simpa using ‹¬ (!isAlpha c) = true›)
    case isFalse htrim =>
      rw [Bool.not_eq_true] at htrim
      split at h
      · cases h
        exact .space htrim ‹_›
      split at h
      · cases h
        exact .equals htrim ‹_› ‹_›
      split at h
      · cases h
      case isFalse hascii =>
        split at h
        · cases h
        case isFalse hoid =>
          split at h
          · cases h
          case isFalse hname =>
            cases h
            refine .char htrim ‹_› ‹_› (by simpa using hascii) (Bool.eq_false_iff.mpr hoid) ?_
            rwa [Bool.not_eq_true', Bool.not_eq_false] at hname
  · intro h
    cases h with
    | blank htrim hc => rw [attrStep, if_pos htrim, if_pos hc]
    | digit htrim hc hascii hdigit => simp [attrStep, htrim, hc, hascii, hdigit]
    | letter htrim hc hascii hdigit halpha => simp [attrStep, htrim, hc, hascii, hdigit, halpha]
    | space htrim hc => simp [attrStep, htrim, hc]
    | equals htrim hsp hc => rw [attrStep, if_neg (by simp [htrim]), if_neg hsp, if_pos hc]
    | char htrim hsp heq hascii hoid hc =>
      unfold nameChar at hc
      rw [attrStep, if_neg (by simp [htrim]), if_neg hsp, if_neg heq, if_neg (by simp [hascii]),
        if_neg (by rw [hoid]; decide), if_neg (by rw [hc]; decide)]

theorem plainStep_iff : st.plainStep c rest = .ok (st', skip) ↔ PlainSteps st c rest st' skip := by
  constructor
  · intro h
    unfold plainStep at h
    split at h
    case isTrue hc =>
      split at h
      case isTrue hesc =>
        cases h
        exact .escapedComma hc hesc
      case isFalse hesc =>
        unfold save at h
        cases hv : st.value with
        | error e =>
          rw [hv] at h
          cases h
        | ok v =>
          rw [hv] at h
          cases h
          exact .comma hc (by simpa using hesc) hv
    case isFalse hcomma =>
      split at h
      case isTrue hres =>
        split at h
        case isTrue hesc =>
          cases h
          exact .reserved hcomma (.inl hres) hesc
        case isFalse => cases h
      case isFalse hres =>
        split at h
        case isTrue hback =>
          split at h
          case isTrue hesc =>
            cases h
            exact .reserved hcomma (.inr hback) hesc
          case isFalse hesc =>
            cases h
            exact .backslash hback (by simpa using hesc)
        case isFalse hback =>
          split at h
          case isTrue hesc =>
            cases hx : scanHex (c :: rest) with
            | none =>
              rw [hx] at h
              cases h
            | some x =>
              rw [hx] at h
              cases h
              exact .hex hcomma hres hback hesc hx
          case isFalse hesc =>
            rw [Bool.not_eq_true] at hesc
            split at h
            case isTrue hsp =>
              cases h
              exact .space hsp hesc
            case isFalse hsp =>
              cases h
              exact .char hcomma hres hback hsp hesc
  · intro h
    unfold plainStep
    cases h with
    | escapedComma hc hesc => rw [if_pos hc, if_pos hesc]
    | comma hc hesc hv =>
      rw [if_pos hc, if_neg (by simp [hesc])]
      unfold save
      rw [hv]
      rfl
    | reserved hcomma hc hesc =>
      rw [if_neg hcomma]
      by_cases hres : c ∈ ExplodeState.reserved
      · rw [if_pos hres, if_pos hesc]
      · rw [if_neg hres, if_pos (hc.resolve_left hres), if_pos hesc]
    | backslash hc hesc =>
      rw [hc, if_neg (by decide), if_neg (by decide), if_pos rfl, if_neg (by simp [hesc])]
    | hex hcomma hres hback hesc hx => rw [if_neg hcomma, if_neg hres, if_neg hback, if_pos hesc, hx]
    | space hc hesc =>
      rw [hc, if_neg (by decide), if_neg (by decide), if_neg (by decide), if_neg (by simp [hesc]), if_pos rfl]
    | char hcomma hres hback hsp hesc =>
      rw [if_neg hcomma, if_neg hres, if_neg hback, if_neg (by simp [hesc]), if_neg hsp]

theorem step_iff : st.step c rest = .ok (st', skip) ↔ Steps st c rest st' skip := by
  constructor
  · intro h
    unfold step at h
    split at h
    case isTrue hattr =>
      cases ha : st.attrStep c with
      | error e =>
        rw [ha] at h
        cases h
      | ok st₁ =>
        rw [ha] at h
        cases h
        exact .attr hattr (attrStep_iff.mp ha)
    case isFalse hattr =>
      rw [Bool.not_eq_true] at hattr
      unfold valueStep at h
      split at h
      case isTrue hquote =>
        split at h
        case isTrue hc =>
          cases h
          exact .quoteEnd hattr hquote hc
        case isFalse hc =>
          cases h
          exact .quoted hattr hquote hc
      case isFalse hquote =>
        rw [Bool.not_eq_true] at hquote
        split at h
        case isTrue htrim =>
          split at h
          case isTrue hsp =>
            cases h
            exact .blank hattr hquote htrim hsp
          case isFalse hsp =>
            split at h
            case isTrue hq =>
              cases h
              exact .quoteStart hattr hquote htrim hq
            case isFalse hq => exact .plain hattr hquote (fun _ => ⟨hsp, hq⟩) (plainStep_iff.mp h)
        case isFalse htrim =>
          rw [Bool.not_eq_true] at htrim
          have hst : { st with trim := false } = st := by rw [← htrim]
          refine .plain hattr hquote (fun ht => absurd (ht.symm.trans htrim) (by decide)) ?_
          rw [hst]
          exact plainStep_iff.mp h
  · intro h
    cases h with
    | attr hattr h =>
      rw [step, if_pos hattr, attrStep_iff.mpr h]
      rfl
    | quoteEnd hattr hquote hc => rw [step, if_neg (by simp [hattr]), valueStep, if_pos hquote, if_pos hc]
    | quoted hattr hquote hc => rw [step, if_neg (by simp [hattr]), valueStep, if_pos hquote, if_neg hc]
    | blank hattr hquote htrim hc =>
      rw [step, if_neg (by simp [hattr]), valueStep, if_neg (by simp [hquote]), if_pos htrim, if_pos hc]
    | quoteStart hattr hquote htrim hc =>
      rw [step, if_neg (by simp [hattr]), valueStep, if_neg (by simp [hquote]), if_pos htrim, if_neg (by rw [hc]; decide),
        if_pos hc]
    | plain hattr hquote hc h => rw [step_plain hattr hquote hc, plainStep_iff.mpr h]

/-! ## The components saved so far -/

theorem save_components (h : st.save = .ok st') :
    ∃ v, st.value = .ok v ∧ st' = { st with components := st.components ++ [⟨st.name, v, none⟩] } := by
  unfold save at h
  cases hv : st.value with
  | error e =>
    rw [hv] at h
    cases h
  | ok v =>
    rw [hv] at h
    cases h
    exact ⟨v, rfl, rfl⟩

theorem step_components (h : st.step c rest = .ok (st', skip)) : st.components <+: st'.components := by
  cases step_iff.mp h with
  | attr _ ha => cases ha <;> exact List.prefix_refl _
  | plain _ _ _ hp =>
    cases hp with
    | comma => exact List.prefix_append ..
    | _ => exact List.prefix_refl _
  | _ => exact List.prefix_refl _

/-- The components of the parser at the start of a string are those at its end, with others behind them. -/
theorem run_components {s : Text} {st st' : ExplodeState} (h : run st s = .ok st') : st.components <+: st'.components := by
  induction hn : s.length using Nat.strong_induction_on generalizing s st with
  | _ n ih =>
    cases s with
    | nil =>
      cases h
      exact List.prefix_refl _
    | cons c rest =>
      rw [run] at h
      cases hs : st.step c rest with
      | error e =>
        rw [hs] at h
        cases h
      | ok res =>
        obtain ⟨st₁, skip⟩ := res
        have hpre := step_components hs
        rw [hs] at h
        rw [List.length_cons] at hn
        cases skip with
        | false => exact hpre.trans (@ih rest.length (by omega) rest (st₁.advance c) h rfl)
        | true =>
          cases rest with
          | nil => cases h
          | cons c' rest =>
            rw [List.length_cons] at hn
            exact hpre.trans (@ih rest.length (by omega) rest ((st₁.advance c).advance c') h rfl)

theorem finish_components {comps : List DnComponent} (h : st.finish = .ok comps) : st.components <+: comps := by
  unfold finish at h
  split at h
  · cases h
  · cases hs : st.save with
    | error e =>
      rw [hs] at h
      cases h
    | ok st' =>
      rw [hs] at h
      cases h
      obtain ⟨v, -, rfl⟩ := save_components hs
      exact List.prefix_append ..

/-! ## The end of a value -/

/-- The components that were read before the end of a string, and the one that ends there. -/
theorem finish_eq_ok {comps : List DnComponent} (h : st.finish = .ok comps) :
    st.inAttr = false ∧ ∃ v, st.value = .ok v ∧ comps = st.components ++ [⟨st.name, v, none⟩] := by
  unfold finish at h
  split at h
  case isTrue => cases h
  case isFalse hopen =>
    cases hs : st.save with
    | error e =>
      rw [hs] at h
      cases h
    | ok st' =>
      rw [hs] at h
      cases h
      obtain ⟨v, hv, rfl⟩ := save_components hs
      refine ⟨?_, v, hv, rfl⟩
      rw [Bool.not_eq_true, Bool.or_eq_false_iff] at hopen
      exact hopen.1

theorem value_none (ht : st.t = none) (hz : (0 : UInt8) ∉ st.data) : st.value = .ok (LdbVal.ofText st.data) := by
  unfold value
  rw [ht, cstr_eq_self hz]
  rfl

theorem value_some {t : Nat} {v : LdbVal} (ht : st.t = some t) (hlt : t < st.p) (hv : st.value = .ok v) :
    v.length < st.data.length := by
  unfold value at hv
  rw [ht] at hv
  dsimp only at hv
  split at hv
  · cases hv
    simp only [List.length_take]
    omega
  · cases hv

/-- The parser behind the comma that ends a value. -/
def behindComma (st : ExplodeState) (v : LdbVal) : ExplodeState :=
  { st with
    p := st.p + 1
    prev := chr ','
    inAttr := true
    trim := true
    data := []
    components := st.components ++ [⟨st.name, v, none⟩] }

theorem run_comma (h : st.InValue) (htrim : st.trim = false) :
    run st (chr ',' :: rest) = st.value.bind fun v => run (st.behindComma v) rest := by
  have hst : { st with trim := false } = st := by rw [← htrim]
  have hstep : st.step (chr ',') rest = st.save.bind fun st =>
      .ok ({ st with inAttr := true, trim := true, data := [] }, false) := by
    rw [step_plain h.inAttr h.inQuote fun ht => absurd (ht.symm.trans htrim) (by decide), hst, plainStep, if_pos rfl,
      if_neg (by rw [h.escape]; decide)]
    rfl
  rw [run, hstep]
  unfold save
  cases st.value <;> rfl

/-- The parser at the end of a string that ends in a value. -/
theorem finish_eq (h : st.InValue) : st.finish = st.value.map fun v => st.components ++ [⟨st.name, v, none⟩] := by
  unfold finish
  rw [h.inAttr, h.inQuote, if_neg (by decide)]
  unfold save
  cases st.value <;> rfl

end ExplodeState

/-! ## Whole strings -/

open ExplodeState

/-- The string of a component. -/
def componentText (comp : Text × Text) : Text := comp.1 ++ chr '=' :: comp.2.flatMap escapeByte

/-- The string of a list of components. -/
def textOf (comps : List (Text × Text)) : Text := [chr ','].intercalate (comps.map componentText)

example : textOf [([chr 'c'], [chr 'd'])] = [chr 'c', chr '=', chr 'd'] := by
  rw [textOf]
  decide

/-- A component of a name and a value. -/
def toComponent (comp : Text × Text) : DnComponent := ⟨comp.1, LdbVal.ofText comp.2, none⟩

theorem textOf_single (comp : Text × Text) : textOf [comp] = componentText comp := by
  simp [textOf]

theorem textOf_cons (comp comp' : Text × Text) (comps : List (Text × Text)) :
    textOf (comp :: comp' :: comps) = componentText comp ++ chr ',' :: textOf (comp' :: comps) := by
  simp [textOf, List.intercalate_cons_cons]

/-- A component as the parser gives it back: a valid name, and a value that is not empty, without NUL, and neither begins
nor ends with a space. -/
structure PlainComponent (comp : Text × Text) : Prop where
  name : validName comp.1 = true
  nonempty : comp.2 ≠ []
  noNul : (0 : UInt8) ∉ comp.2
  noSpaceFirst : comp.2.head? ≠ some (chr ' ')
  noSpaceLast : comp.2.getLast? ≠ some (chr ' ')

/-- The parser has read a component up to the end of its value. -/
structure Read (st : ExplodeState) (comp : Text × Text) (st' : ExplodeState) : Prop where
  inValue : st'.InValue
  trim : st'.trim = false
  isOid : st'.isOid = false
  components : st'.components = st.components
  name : st'.name = comp.1
  data : st'.data = comp.2
  t_none : st'.t = none ↔ ¬ Trailing comp.2
  t_lt : ∀ t, st'.t = some t → t < st'.p

theorem run_component {st : ExplodeState} {comp : Text × Text} (h : st.AtStart) (ht : st.t = none)
    (hc : PlainComponent comp) :
    ∃ st', Read st comp st' ∧ ∀ rest, run st (componentText comp ++ rest) = run st' rest := by
  have hv : (st.atValue comp.1).InValue := ⟨rfl, h.inQuote, h.escape⟩
  have hb := @afterValue_behind (st.atValue comp.1) hv ht comp.2
  refine ⟨(st.atValue comp.1).afterValue comp.2, ⟨hb.inValue, hb.trim, hb.isOid.trans h.isOid, hb.components, hb.name,
    by simpa [atValue] using hb.data, hb.t_none, hb.t_lt⟩, fun rest => ?_⟩
  rw [componentText, List.append_assoc, List.cons_append, run_name h hc.name,
    run_value hv hc.noNul hc.nonempty hc.noSpaceFirst]

section Read

variable {st st' : ExplodeState} {comp : Text × Text}

theorem Read.value_eq (h : Read st comp st') (hc : PlainComponent comp) (hgood : ¬ Trailing comp.2) :
    st'.value = .ok (LdbVal.ofText comp.2) := by
  rw [← h.data]
  exact value_none (h.t_none.mpr hgood) (h.data ▸ hc.noNul)

theorem Read.value_ne (h : Read st comp st') (hbad : Trailing comp.2) {v : LdbVal} (hv : st'.value = .ok v) :
    v ≠ LdbVal.ofText comp.2 := by
  rintro rfl
  obtain ⟨t, hst⟩ := Option.ne_none_iff_exists'.mp fun hn => (h.t_none.mp hn) hbad
  have hlen := value_some hst (h.t_lt t hst) hv
  rw [h.data] at hlen
  exact lt_irrefl _ hlen

/-- A component that is read wrong stays in the list. -/
theorem Read.not_eq (h : Read st comp st') (hbad : Trailing comp.2) {v : LdbVal} (hv : st'.value = .ok v)
    {rest : Text} {comps : List DnComponent} :
    (run (st'.behindComma v) rest).bind finish ≠ .ok (st.components ++ toComponent comp :: comps) := by
  intro heq
  cases hr : run (st'.behindComma v) rest with
  | error e =>
    rw [hr] at heq
    cases heq
  | ok st'' =>
    rw [hr] at heq
    have hpre : st'.components ++ [⟨st'.name, v, none⟩] <+: st.components ++ toComponent comp :: comps :=
      (run_components hr).trans (finish_components heq)
    rw [h.components, h.name, List.prefix_append_right_inj, List.cons_prefix_cons] at hpre
    exact h.value_ne hbad hv (congrArg DnComponent.value hpre.1)

theorem Read.atStart (h : Read st comp st') (v : LdbVal) : (st'.behindComma v).AtStart :=
  ⟨rfl, rfl, h.inValue.inQuote, h.isOid, h.inValue.escape, rfl⟩

end Read

/-- The string of a list of components is read back as that list if and only if no value has a space with nothing but
spaces and commas behind it. -/
theorem run_textOf {comps : List (Text × Text)} {st : ExplodeState} (h : st.AtStart) (ht : st.t = none) (hne : comps ≠ [])
    (hcomps : ∀ comp ∈ comps, PlainComponent comp) :
    (run st (textOf comps)).bind finish = .ok (st.components ++ comps.map toComponent) ↔
      ∀ comp ∈ comps, ¬ Trailing comp.2 := by
  induction comps generalizing st with
  | nil => exact absurd rfl hne
  | cons comp comps ih =>
    have hc := hcomps comp (by simp)
    obtain ⟨st', hread, hrun⟩ := run_component h ht hc
    cases comps with
    | nil =>
      have hrun' := hrun []
      rw [List.append_nil] at hrun'
      rw [textOf_single, hrun', run]
      show st'.finish = _ ↔ _
      rw [finish_eq hread.inValue, hread.components, hread.name, List.forall_mem_singleton]
      constructor
      · intro heq hbad
        cases hv : st'.value with
        | error e =>
          rw [hv] at heq
          cases heq
        | ok v =>
          rw [hv] at heq
          have hlist := List.append_cancel_left (Except.ok.inj heq)
          exact hread.value_ne hbad hv (congrArg DnComponent.value (List.cons.inj hlist).1)
      · intro hgood
        rw [hread.value_eq hc hgood]
        rfl
    | cons comp' comps =>
      rw [textOf_cons, hrun, run_comma hread.inValue hread.trim]
      by_cases hbad : Trailing comp.2
      · refine iff_of_false (fun heq => ?_) fun hall => hall comp (by simp) hbad
        cases hv : st'.value with
        | error e =>
          rw [hv] at heq
          cases heq
        | ok v =>
          rw [hv] at heq
          exact hread.not_eq hbad hv heq
      · have ih' := ih (hread.atStart (LdbVal.ofText comp.2)) (hread.t_none.mpr hbad) (by simp)
          fun c hc => hcomps c (by simp [hc])
        have hlist : (st'.behindComma (LdbVal.ofText comp.2)).components ++ (comp' :: comps).map toComponent =
            st.components ++ (comp :: comp' :: comps).map toComponent := by
          simp [behindComma, hread.components, hread.name, toComponent]
        rw [hlist] at ih'
        rw [hread.value_eq hc hbad]
        refine ih'.trans ?_
        rw [@List.forall_mem_cons _ _ comp]
        exact (and_iff_right hbad).symm

/-! ## The string that is linearized -/

/-- A DN of which only the components are known. -/
def ofComponents (comps : List DnComponent) : LdbDn := ⟨false, false, false, none, none, some comps⟩

/-- The string that is built from the components is exploded to the same components. -/
def RoundTrips (comps : List DnComponent) : Prop :=
  ((ldbDnGetLinearized (ofComponents comps)).bind fun res => res.1.bind fun text =>
    (ldbDnExplode (ldbDnNew text)).map fun res => (res.1, res.2.components)) = some (true, some comps)

instance (comps : List DnComponent) : Decidable (RoundTrips comps) := inferInstanceAs (Decidable (_ = _))

theorem escapeByte_ne_zero (c : UInt8) : c ≠ 0 → (0 : UInt8) ∉ escapeByte c := (escape_classes c).2.2

theorem nameChar_ne_zero (c : UInt8) : nameChar c = true ∨ isAlpha c = true → c ≠ 0
  | .inl h => ((name_classes c).2 h).2
  | .inr h => ((name_classes c).1 h).2.1

theorem validName_noNul {name : Text} (h : validName name = true) : (0 : UInt8) ∉ name := by
  cases name with
  | nil => cases h
  | cons c name =>
    rw [validName, Bool.and_eq_true, List.all_eq_true] at h
    intro hmem
    rcases List.mem_cons.mp hmem with heq | hmem
    · exact nameChar_ne_zero c (.inr h.1) heq.symm
    · exact nameChar_ne_zero 0 (.inl (h.2 0 hmem)) rfl

theorem componentText_noNul {comp : Text × Text} (h : PlainComponent comp) : (0 : UInt8) ∉ componentText comp := by
  intro hmem
  rcases List.mem_append.mp hmem with hmem | hmem
  · exact validName_noNul h.name hmem
  · rcases List.mem_cons.mp hmem with heq | hmem
    · exact absurd heq (by decide)
    · obtain ⟨c, hc, hz⟩ := List.mem_flatMap.mp hmem
      exact escapeByte_ne_zero c (fun heq => h.noNul (heq ▸ hc)) hz

variable {comps : List (Text × Text)}

theorem textOf_noNul (h : ∀ comp ∈ comps, PlainComponent comp) : (0 : UInt8) ∉ textOf comps := by
  induction comps with
  | nil => simp [textOf]
  | cons comp comps ih =>
    have hc := componentText_noNul (h comp (by simp))
    cases comps with
    | nil => rwa [textOf_single]
    | cons comp' comps =>
      rw [textOf_cons, List.mem_append, List.mem_cons]
      rintro (hmem | heq | hmem)
      · exact hc hmem
      · exact absurd heq (by decide)
      · exact ih (fun c hc => h c (by simp [hc])) hmem

theorem escapeInternal_ofText (s : Text) : ldbDnEscapeInternal (LdbVal.ofText s) = some (s.flatMap escapeByte) :=
  if_pos rfl

theorem joinComponents_ofText (comps : List (Text × Text)) :
    joinComponents (comps.map fun comp => (comp.1, LdbVal.ofText comp.2)) = some (cstr (textOf comps)) := by
  have htexts : (comps.map fun comp => (comp.1, LdbVal.ofText comp.2)).mapM (fun pair => do
      let value ← ldbDnEscapeInternal pair.2
      return pair.1 ++ chr '=' :: value) = some (comps.map componentText) := by
    rw [List.mapM_map]
    refine Eq.trans ?_ (@List.mapM_pure Option _ _ _ _ comps componentText)
    congr 1
    funext comp
    show (ldbDnEscapeInternal (LdbVal.ofText comp.2)).bind _ = _
    rw [escapeInternal_ofText]
    rfl
  unfold joinComponents
  rw [htexts]
  rfl

theorem joinComponents_eq (h : ∀ comp ∈ comps, PlainComponent comp) :
    joinComponents (comps.map fun comp => (comp.1, LdbVal.ofText comp.2)) = some (textOf comps) := by
  rw [joinComponents_ofText, cstr_eq_self (textOf_noNul h)]

theorem alpha_not_special (c : UInt8) (h : isAlpha c = true) : c ≠ chr '@' ∧ toUpper c ≠ chr '<' :=
  ((name_classes c).1 h).2.2

theorem ldbDnNew_plain {c : UInt8} {s : Text} (h : c ≠ chr '@' ∧ toUpper c ≠ chr '<') : (ldbDnNew (c :: s)).special = false := by
  have hup : toUpper (chr '<') = chr '<' := by decide
  simp [ldbDnNew, samePrefixCase, h.1, h.2, hup]

/-- A string that starts with a letter is not a special DN. -/
theorem ldbDnNew_letter {c : UInt8} {s : Text} (h : isAlpha c = true) : (ldbDnNew (c :: s)).special = false :=
  ldbDnNew_plain (alpha_not_special c h)

/-- A DN of which only the string is known is exploded. -/
theorem ldbDnExplode_text {dn : LdbDn} {text : Text} (hvalid : dn.invalid = false) (hcomps : dn.components = none)
    (hlin : dn.linearized = some text) (hne : text ≠ []) (hspecial : dn.special = false) :
    ldbDnExplode dn = match explode text with
      | .ok comps => some (true, { dn with components := some comps })
      | .error .invalid => some (false, { dn with invalid := true })
      | .error .undefined => none := by
  unfold ldbDnExplode
  rw [if_neg (by simp [hvalid]), if_neg (by simp [hcomps]), hlin]
  dsimp only
  rw [if_neg hne]
  refine (if_neg (by simp [hspecial])).trans ?_
  rcases explode text with (_ | _) | _ <;> rfl

theorem textOf_letter (hne : comps ≠ []) (hcomps : ∀ comp ∈ comps, PlainComponent comp) :
    ∃ c s, textOf comps = c :: s ∧ isAlpha c = true := by
  cases comps with
  | nil => exact absurd rfl hne
  | cons comp comps =>
    have hname := (hcomps comp (by simp)).name
    cases hn : comp.1 with
    | nil =>
      rw [hn] at hname
      cases hname
    | cons c name =>
      rw [hn, validName, Bool.and_eq_true] at hname
      cases comps with
      | nil => exact ⟨c, _, by rw [textOf_single, componentText, hn]; rfl, hname.1⟩
      | cons comp' comps => exact ⟨c, _, by rw [textOf_cons, componentText, hn]; rfl, hname.1⟩

/-- Components that are linearized are read back from the string if and only if no value ends in commas behind a space. -/
theorem linearized_roundTrips_iff {comps : List (Text × Text)} (hne : comps ≠ [])
    (hcomps : ∀ comp ∈ comps, PlainComponent comp) :
    RoundTrips (comps.map toComponent) ↔ ∀ comp ∈ comps, ¬ Trailing comp.2 := by
  have hlin : ldbDnGetLinearized (ofComponents (comps.map toComponent)) =
      some (some (textOf comps), { ofComponents (comps.map toComponent) with linearized := some (textOf comps) }) := by
    unfold ldbDnGetLinearized ofComponents
    dsimp only
    rw [if_neg (by decide), if_neg (by simpa using hne), List.map_map]
    show (joinComponents (comps.map fun comp => (comp.1, LdbVal.ofText comp.2))).bind _ = _
    rw [joinComponents_eq hcomps]
    rfl
  obtain ⟨c, s, htext, hc⟩ := textOf_letter hne hcomps
  have hspecial : (ldbDnNew (textOf comps)).special = false := by
    rw [htext]
    exact ldbDnNew_letter hc
  have hexp := @ldbDnExplode_text (ldbDnNew (textOf comps)) (textOf comps) rfl rfl rfl (by rw [htext]; simp) hspecial
  have hrun := @run_textOf comps {} ⟨rfl, rfl, rfl, rfl, rfl, rfl⟩ rfl hne hcomps
  rw [← hrun]
  unfold RoundTrips
  rw [hlin]
  show (ldbDnExplode (ldbDnNew (textOf comps))).map _ = _ ↔ explode (textOf comps) = _
  rw [hexp]
  cases explode (textOf comps) with
  | ok comps' => simp
  | error e => cases e <;> simp

/-- A value that has a space and a comma inside is read back. -/
theorem linearized_roundTrips_inner : RoundTrips ([("cn".toList.map chr, "a ,b".toList.map chr)].map toComponent) := by
  refine (linearized_roundTrips_iff (by decide) ?_).mpr ?_
  · rw [List.forall_mem_singleton]
    exact ⟨by decide, by decide, by decide, by decide, by decide⟩
  · rw [List.forall_mem_singleton]
    exact @not_trailing ("a ,".toList.map chr) (chr 'b') (by decide) (by decide)

/-- The value "a ," comes back empty. -/
theorem linearized_not_roundTrips :
    ¬ RoundTrips ([("cn".toList.map chr, "a ,".toList.map chr)].map toComponent) := by decide

end Samba.Ldb
