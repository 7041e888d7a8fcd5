/-
The language of DN strings (lib/ldb/common/ldb_dn.c). RFC 4514, less multiple valued RDNs, against what `ldb_dn_explode` reads
where nothing is quoted or escaped: it takes a space in a type for the end of the type and goes on with the type all the same,
refuses a space before the equals sign and the dots of an OID, does not forget behind a component that its type was an OID, and
keeps the place of the spaces at the end of a value, by which it cuts an empty value that follows.
-/
import Samba.Ldb.DnTail
import Mathlib.Tactic

namespace Samba.Ldb

open CString List

namespace ExplodeState

/-! ## Types -/

/-- What the parser takes for a type, up to the equals sign: whether it is at the start of a type or behind a space in it, and
whether a type that started with a digit has been seen, before and after. -/
inductive TypeRead : Bool → Bool → Text → Bool → Text → Prop
  | done {oid : Bool} : TypeRead oid false [] oid []
  | space {oid trim oid' : Bool} {w name : Text} : TypeRead oid true w oid' name →
      TypeRead oid trim (chr ' ' :: w) oid' name
  | digit {oid oid' : Bool} {c : UInt8} {w name : Text} : isDigit c = true → TypeRead true false w oid' name →
      TypeRead oid true (c :: w) oid' (c :: name)
  | letter {oid oid' : Bool} {c : UInt8} {w name : Text} : isAlpha c = true → TypeRead oid false w oid' name →
      TypeRead oid true (c :: w) oid' (c :: name)
  | char {oid oid' : Bool} {c : UInt8} {w name : Text} : nameChar c = true → (oid = true → isDigit c = true) →
      TypeRead oid false w oid' name → TypeRead oid false (c :: w) oid' (c :: name)

theorem isDigit_spec (c : UInt8) : isDigit c = true → nameChar c = true ∧ c ≠ chr '.' ∧ isAlpha c = false :=
  @forall_byte (fun c => isDigit c = true → nameChar c = true ∧ c ≠ chr '.' ∧ isAlpha c = false) (by decide +kernel) c

variable {c : UInt8} {oid : Bool} {st : ExplodeState} {s : Text}

theorem nameChar_of_isAlpha (h : isAlpha c = true) : nameChar c = true := by
  simp [nameChar, h]

theorem TypeRead.notMem {trim oid' : Bool} {w name : Text} (h : TypeRead oid trim w oid' name) :
    chr '=' ∉ w ∧ chr ',' ∉ w := by
  induction h with
  | done => exact ⟨nofun, nofun⟩
  | space _ ih =>
    rw [mem_cons, mem_cons]
    exact ⟨not_or.mpr ⟨by decide, ih.1⟩, not_or.mpr ⟨by decide, ih.2⟩⟩
  | digit hc _ ih =>
    obtain ⟨-, heq, hcomma, -⟩ := nameChar_spec _ (isDigit_spec _ hc).1
    rw [mem_cons, mem_cons]
    exact ⟨not_or.mpr ⟨heq.symm, ih.1⟩, not_or.mpr ⟨hcomma.symm, ih.2⟩⟩
  | letter hc _ ih =>
    obtain ⟨-, heq, hcomma, -⟩ := nameChar_spec _ (nameChar_of_isAlpha hc)
    rw [mem_cons, mem_cons]
    exact ⟨not_or.mpr ⟨heq.symm, ih.1⟩, not_or.mpr ⟨hcomma.symm, ih.2⟩⟩
  | char hc _ _ ih =>
    obtain ⟨-, heq, hcomma, -⟩ := nameChar_spec _ hc
    rw [mem_cons, mem_cons]
    exact ⟨not_or.mpr ⟨heq.symm, ih.1⟩, not_or.mpr ⟨hcomma.symm, ih.2⟩⟩

/-- The parser behind the equals sign of a type. -/
def behindType (st : ExplodeState) (w name : Text) (oid : Bool) : ExplodeState :=
  { st with
    p := st.p + w.length + 1
    prev := chr '='
    inAttr := false
    trim := true
    isOid := oid
    name := st.data ++ name
    data := [] }

theorem attrStep_trim {st : ExplodeState} {c : UInt8} (htrim : st.trim = true) : st.attrStep c =
    if c = chr ' ' then .ok st
    else if isDigit c then .ok { st.put c with trim := false, isOid := true }
    else if isAlpha c then .ok { st.put c with trim := false }
    else .error .invalid := by
  unfold attrStep
  rw [if_pos htrim]
  by_cases hsp : c = chr ' '
  · rw [if_pos hsp, if_pos hsp]
  rw [if_neg hsp, if_neg hsp]
  by_cases hdigit : isDigit c = true
  · rw [if_pos hdigit, if_neg, if_pos hdigit]
    simp [(nameChar_spec _ (isDigit_spec _ hdigit).1).2.2.2]
  · rw [if_neg hdigit, if_neg hdigit]
    by_cases halpha : isAlpha c = true
    · rw [if_pos halpha, if_neg, if_neg]
      · simp [halpha]
      · simp [(isAlpha_spec _ halpha).2.1]
    · rw [if_neg halpha]
      split
      · rfl
      · rw [if_pos (by simp [halpha])]

theorem attrStep_inside (htrim : st.trim = false) : st.attrStep c = if c = chr ' ' then .ok { st with trim := true }
    else if c = chr '=' then .ok { st with inAttr := false, trim := true, name := st.data, data := [] }
    else if nameChar c = true ∧ (st.isOid = true → isDigit c = true) then .ok (st.put c)
    else .error .invalid := by
  unfold attrStep
  rw [if_neg (by rw [htrim]; decide)]
  by_cases hsp : c = chr ' '
  · rw [if_pos hsp, if_pos hsp]
  rw [if_neg hsp, if_neg hsp]
  by_cases heq : c = chr '='
  · rw [if_pos heq, if_pos heq]
  rw [if_neg heq, if_neg heq]
  by_cases hname : nameChar c = true
  · have hascii := (nameChar_spec c hname).2.2.2
    have hdot : isDigit c = false → c ≠ chr '.' := by
      rintro hdigit rfl
      cases hname
    rw [if_neg (by simp [hascii])]
    unfold nameChar at hname
    cases hoid : st.isOid with
    | false =>
      rw [if_neg (by simp), if_neg (by simp [hname]), if_pos ⟨by simpa [nameChar] using hname, nofun⟩]
    | true =>
      cases hdigit : isDigit c with
      | true => rw [if_neg (by simp), if_neg (by simp), if_pos ⟨by simp [nameChar, hdigit], fun _ => rfl⟩]
      | false => rw [if_pos (by simp [hdot hdigit]), if_neg (by simp)]
  · have hnot : (isAlpha c || isDigit c || decide (c = chr '-')) = false := Bool.eq_false_iff.mpr hname
    rw [if_neg (fun h => hname h.1 : ¬(nameChar c = true ∧ (st.isOid = true → isDigit c = true))), hnot]
    split
    · rfl
    · split <;> rfl

theorem run_attr {st₁ : ExplodeState} (hattr : st.inAttr = true) (h : st.attrStep c = .ok st₁)
    (rest : Text) : run st (c :: rest) = run (st₁.advance c) rest := by
  refine run_cons ?_
  rw [step, if_pos hattr, h]
  rfl

theorem run_typeRead {trim oid' : Bool} {w name : Text} (h : TypeRead oid trim w oid' name)
    (hattr : st.inAttr = true) (htrim : st.trim = trim) (hoid : st.isOid = oid) (rest : Text) :
    run st (w ++ chr '=' :: rest) = run (st.behindType w name oid') rest := by
  induction h generalizing st with
  | done =>
    rw [nil_append, run_attr hattr (by rw [attrStep_inside htrim]; rfl)]
    simp only [behindType, advance, ← hoid, length_nil, append_nil]
  | @space oid trim oid' w name _ ih =>
    cases trim with
    | true =>
      rw [cons_append, run_attr hattr (by rw [attrStep_trim htrim]; rfl), @ih (st.advance (chr ' ')) hattr htrim hoid]
      simp only [behindType, advance, length_cons]
      congr 2
      omega
    | false =>
      rw [cons_append, run_attr hattr (by rw [attrStep_inside htrim]; rfl),
        @ih (advance { st with trim := true } (chr ' ')) hattr rfl hoid]
      simp only [behindType, advance, length_cons]
      congr 2
      omega
  | @digit oid oid' c w name hc _ ih =>
    have hsp := (nameChar_spec _ (isDigit_spec _ hc).1).1
    rw [cons_append, run_attr hattr (by rw [attrStep_trim htrim, if_neg hsp, if_pos hc]),
      @ih (advance { st.put c with trim := false, isOid := true } c) hattr rfl rfl]
    simp only [behindType, advance, put, length_cons, append_assoc, singleton_append]
    congr 2
    omega
  | @letter oid oid' c w name hc _ ih =>
    obtain ⟨hsp, -, hdigit⟩ := isAlpha_spec _ hc
    rw [cons_append, run_attr hattr (by
        rw [attrStep_trim htrim, if_neg hsp, if_neg (by rw [hdigit]; decide), if_pos hc]),
      @ih (advance { st.put c with trim := false } c) hattr rfl hoid]
    simp only [behindType, advance, put, length_cons, append_assoc, singleton_append]
    congr 2
    omega
  | @char oid oid' c w name hc hdigit _ ih =>
    obtain ⟨hsp, heq, -⟩ := nameChar_spec _ hc
    rw [cons_append, run_attr hattr (by
        rw [attrStep_inside htrim, if_neg hsp, if_neg heq, if_pos ⟨hc, fun h => hdigit (hoid ▸ h)⟩]),
      @ih (advance (st.put c) c) hattr htrim hoid]
    simp only [behindType, advance, put, length_cons, append_assoc, singleton_append]
    congr 2
    omega

/-- What a run and the end of the string come to. -/
def outcome (st : ExplodeState) (s : Text) : Except DnError (List DnComponent) := (run st s).bind finish

/-- Where no type is read, the string is refused. -/
theorem typeRead_of_outcome {s : Text} {st : ExplodeState} (hattr : st.inAttr = true) :
    outcome st s = .error .invalid ∨
      ∃ w rest oid name, s = w ++ chr '=' :: rest ∧ TypeRead st.isOid st.trim w oid name := by
  have hgo : ∀ {st : ExplodeState} {c : UInt8} {s : Text} {e : DnError}, st.inAttr = true → st.attrStep c = .error e →
      outcome st (c :: s) = .error e := by
    intro st c s e hattr hstep
    rw [outcome, run, step, if_pos hattr, hstep]
    rfl
  induction s generalizing st with
  | nil =>
    left
    show finish st = _
    rw [finish, hattr]
    rfl
  | cons c s ih =>
    have hnext : ∀ {st₁ : ExplodeState}, st.attrStep c = .ok st₁ → st₁.inAttr = true →
        outcome st (c :: s) = .error .invalid ∨
          ∃ w rest oid name, s = w ++ chr '=' :: rest ∧ TypeRead st₁.isOid st₁.trim w oid name := by
      intro st₁ hstep hattr₁
      rw [outcome, run_attr hattr hstep]
      exact @ih (st₁.advance c) hattr₁
    cases htrim : st.trim with
    | true =>
      by_cases hsp : c = chr ' '
      · subst hsp
        rcases hnext (by rw [attrStep_trim htrim, if_pos rfl]) hattr with h | ⟨w, rest, oid, name, rfl, h⟩
        · exact Or.inl h
        · exact Or.inr ⟨_, rest, oid, name, rfl, .space (htrim ▸ h)⟩
      by_cases hdigit : isDigit c = true
      · rcases @hnext { st.put c with trim := false, isOid := true } (by
            rw [attrStep_trim htrim, if_neg hsp, if_pos hdigit]) hattr with h | ⟨w, rest, oid, name, rfl, h⟩
        · exact Or.inl h
        · exact Or.inr ⟨_, rest, oid, _, rfl, .digit hdigit h⟩
      by_cases halpha : isAlpha c = true
      · rcases @hnext { st.put c with trim := false } (by
            rw [attrStep_trim htrim, if_neg hsp, if_neg hdigit, if_pos halpha]) hattr with h | ⟨w, rest, oid, name, rfl, h⟩
        · exact Or.inl h
        · exact Or.inr ⟨_, rest, oid, _, rfl, .letter halpha h⟩
      exact Or.inl (hgo hattr (by rw [attrStep_trim htrim, if_neg hsp, if_neg hdigit, if_neg halpha]))
    | false =>
      by_cases hsp : c = chr ' '
      · subst hsp
        rcases @hnext { st with trim := true } (by rw [attrStep_inside htrim, if_pos rfl]) hattr with
          h | ⟨w, rest, oid, name, rfl, h⟩
        · exact Or.inl h
        · exact Or.inr ⟨_, rest, oid, name, rfl, .space h⟩
      by_cases heq : c = chr '='
      · subst heq
        exact Or.inr ⟨[], s, st.isOid, [], rfl, .done⟩
      by_cases hname : nameChar c = true ∧ (st.isOid = true → isDigit c = true)
      · rcases @hnext (st.put c) (by rw [attrStep_inside htrim, if_neg hsp, if_neg heq, if_pos hname]) hattr with
          h | ⟨w, rest, oid, name, rfl, h⟩
        · exact Or.inl h
        · have h' : TypeRead st.isOid false w oid name := htrim ▸ h
          exact Or.inr ⟨_, rest, oid, _, rfl, .char hname.1 hname.2 h'⟩
      exact Or.inl (hgo hattr (by rw [attrStep_inside htrim, if_neg hsp, if_neg heq, if_neg hname]))

/-! ## Values -/

/-- A character of a value that is neither quoted nor escaped, and not at the end of it. -/
def PlainChar (c : UInt8) : Prop := c ≠ 0 ∧ c ≠ chr ',' ∧ c ∉ reserved ∧ c ≠ chr '\\'

/-- The parser behind a character of a value that is kept. -/
def keepChar (st : ExplodeState) (c : UInt8) : ExplodeState :=
  { st with
    p := st.p + 1
    prev := c
    trim := false
    data := st.data ++ [c]
    t := if c = chr ' ' then some (st.t.getD st.p) else none }

/-- The parser behind a character of a value. -/
def afterChar (st : ExplodeState) (c : UInt8) : ExplodeState :=
  if st.trim = true ∧ c = chr ' ' then st.advance c else st.keepChar c

theorem InValue.afterChar (h : st.InValue) (c : UInt8) : (st.afterChar c).InValue := by
  unfold ExplodeState.afterChar
  split <;> exact ⟨h.inAttr, h.inQuote, h.escape⟩

theorem reserved_quote : chr '"' ∈ reserved := by decide

theorem step_space (h : st.InValue) (htrim : st.trim = true) (rest : Text) :
    st.step (chr ' ') rest = .ok (st, false) := by
  rw [step, if_neg (by rw [h.inAttr]; decide), valueStep, if_neg (by rw [h.inQuote]; decide), if_pos htrim, if_pos rfl]

theorem run_afterChar (h : st.InValue) (hc : PlainChar c) (rest : Text) :
    run st (c :: rest) = run (st.afterChar c) rest := by
  obtain ⟨-, hcomma, hreserved, hslash⟩ := hc
  unfold afterChar
  by_cases hlead : st.trim = true ∧ c = chr ' '
  · rw [if_pos hlead]
    obtain ⟨htrim, rfl⟩ := hlead
    exact run_cons (step_space h htrim rest)
  · rw [if_neg hlead]
    have hquote : c ≠ chr '"' := fun heq => hreserved (heq ▸ reserved_quote)
    have hstep : st.step c rest = .ok (put { st with trim := false, t := if c = chr ' ' then some (st.t.getD st.p) else none } c,
        false) := by
      rw [step_plain h.inAttr h.inQuote fun ht => ⟨fun hsp => hlead ⟨ht, hsp⟩, hquote⟩, plainStep, if_neg hcomma,
        if_neg hreserved, if_neg hslash, if_neg (by simp [h.escape])]
      split <;> rfl
    exact run_cons hstep

/-- The parser behind characters of a value. -/
def afterChars (st : ExplodeState) (v : Text) : ExplodeState := v.foldl afterChar st

theorem InValue.afterChars {v : Text} (h : st.InValue) : (st.afterChars v).InValue := by
  induction v generalizing st with
  | nil => exact h
  | cons c v ih => exact ih (h.afterChar c)

theorem run_afterChars {v : Text} (h : st.InValue) (hv : ∀ c ∈ v, PlainChar c) (rest : Text) :
    run st (v ++ rest) = run (st.afterChars v) rest := by
  induction v generalizing st with
  | nil => rfl
  | cons c v ih =>
    rw [cons_append, run_afterChar h (hv c mem_cons_self)]
    exact ih (h.afterChar c) fun c hc => hv c (mem_cons_of_mem _ hc)

/-- Where no value is read, the string is refused. -/
theorem plain_of_outcome (h : st.InValue) (h0 : (0 : UInt8) ∉ s) (hquote : chr '"' ∉ s) (hslash : chr '\\' ∉ s) :
    outcome st s = .error .invalid ∨
      ∃ v, (∀ c ∈ v, PlainChar c) ∧ (s = v ∨ ∃ rest, s = v ++ chr ',' :: rest) := by
  induction s generalizing st with
  | nil => exact Or.inr ⟨[], nofun, Or.inl rfl⟩
  | cons c s ih =>
    rw [List.mem_cons, not_or] at h0 hquote hslash
    by_cases hcomma : c = chr ','
    · exact Or.inr ⟨[], nofun, Or.inr ⟨s, by rw [hcomma]; rfl⟩⟩
    by_cases hreserved : c ∈ reserved
    · left
      have hsp := (reserved_spec c hreserved).2.1
      rw [outcome, run, step_plain h.inAttr h.inQuote fun _ => ⟨hsp, Ne.symm hquote.1⟩, plainStep, if_neg hcomma,
        if_pos hreserved, if_neg (by simp [h.escape])]
      rfl
    have hc : PlainChar c := ⟨Ne.symm h0.1, hcomma, hreserved, Ne.symm hslash.1⟩
    rcases ih (h.afterChar c) h0.2 hquote.2 hslash.2 with hbad | ⟨v, hv, hs⟩
    · left
      rw [outcome, run_afterChar h hc]
      exact hbad
    · refine Or.inr ⟨c :: v, List.forall_mem_cons.mpr ⟨hc, hv⟩, ?_⟩
      rcases hs with rfl | ⟨rest, rfl⟩
      · exact Or.inl rfl
      · exact Or.inr ⟨rest, rfl⟩

/-- A number of spaces. -/
def spaces (n : Nat) : Text := List.replicate n (chr ' ')

theorem length_spaces (n : Nat) : (spaces n).length = n := List.length_replicate

/-- What the parser takes for a value: whether it remembers spaces at the end of a value, before and after. -/
inductive ValueRead : Bool → Text → Text → Bool → Prop
  | empty {n : Nat} : ValueRead false (spaces n) [] false
  | text {stale : Bool} {lead trail : Nat} {x : Text} : x ≠ [] → (∀ c ∈ x, PlainChar c) → x.head? ≠ some (chr ' ') →
      x.getLast? ≠ some (chr ' ') → ValueRead stale (spaces lead ++ x ++ spaces trail) x (trail != 0)

theorem plainChar_space : PlainChar (chr ' ') := ⟨by decide, by decide, by decide, by decide⟩

theorem plain_spaces {n : Nat} : ∀ c ∈ spaces n, PlainChar c := fun _ hc => (List.mem_replicate.mp hc).2 ▸ plainChar_space

theorem ValueRead.plain {stale stale' : Bool} {v x : Text} (h : ValueRead stale v x stale') : ∀ c ∈ v, PlainChar c := by
  cases h with
  | empty => exact plain_spaces
  | text _ hx =>
    intro c hc
    rcases List.mem_append.mp hc with hc | hc
    · rcases List.mem_append.mp hc with hc | hc
      · exact plain_spaces c hc
      · exact hx c hc
    · exact plain_spaces c hc

/-- The parser before the start of a value. -/
structure AtValue (st : ExplodeState) : Prop extends InValue st where
  trim : st.trim = true
  data : st.data = []
  tBefore : st.TBefore

/-- What reading a value leaves alone. -/
structure SameElse (st st' : ExplodeState) : Prop where
  isOid : st'.isOid = st.isOid
  name : st'.name = st.name
  components : st'.components = st.components

theorem sameElse_afterChars (v : Text) (st : ExplodeState) : SameElse st (st.afterChars v) := by
  induction v generalizing st with
  | nil => exact ⟨rfl, rfl, rfl⟩
  | cons c v ih =>
    obtain ⟨ho, hn, hc⟩ := ih (st.afterChar c)
    have hsame : SameElse st (st.afterChar c) := by
      unfold afterChar
      split <;> exact ⟨rfl, rfl, rfl⟩
    exact ⟨ho.trans hsame.isOid, hn.trans hsame.name, hc.trans hsame.components⟩

theorem afterChars_lead {n : Nat} {st : ExplodeState} (htrim : st.trim = true) :
    (st.afterChars (spaces n)).trim = true ∧ (st.afterChars (spaces n)).data = st.data ∧
      (st.afterChars (spaces n)).t = st.t ∧ (st.afterChars (spaces n)).p = st.p + n := by
  induction n generalizing st with
  | zero => exact ⟨htrim, rfl, rfl, rfl⟩
  | succ n ih =>
    have hstep : st.afterChar (chr ' ') = st.advance (chr ' ') := by
      unfold afterChar
      rw [if_pos ⟨htrim, rfl⟩]
    obtain ⟨h1, h2, h3, h4⟩ := @ih (st.advance (chr ' ')) htrim
    rw [show st.afterChars (spaces (n + 1)) = (st.advance (chr ' ')).afterChars (spaces n) from
      congrArg (fun st : ExplodeState => st.afterChars (spaces n)) hstep]
    refine ⟨h1, h2, h3, h4.trans ?_⟩
    show st.p + 1 + n = st.p + (n + 1)
    omega

/-- Characters behind the start of a value are kept. -/
theorem afterChars_kept {v : Text} {st : ExplodeState} (htrim : st.trim = false) :
    (st.afterChars v).trim = false ∧ (st.afterChars v).data = st.data ++ v ∧ (st.afterChars v).p = st.p + v.length := by
  induction v generalizing st with
  | nil => exact ⟨htrim, (List.append_nil _).symm, rfl⟩
  | cons c v ih =>
    have hstep : st.afterChar c = st.keepChar c := if_neg (by simp [htrim])
    obtain ⟨h1, h2, h3⟩ := @ih (st.afterChar c) (by rw [hstep]; rfl)
    refine ⟨h1, h2.trans ?_, h3.trans ?_⟩
    · rw [hstep]
      simp [keepChar]
    · rw [hstep]
      simp only [keepChar, List.length_cons]
      omega

theorem afterChars_append (st : ExplodeState) (v w : Text) : st.afterChars (v ++ w) = (st.afterChars v).afterChars w :=
  List.foldl_append

/-- A value proper, from its first character to its last. -/
theorem afterChars_text {x : Text} (hdata : st.data = []) (hne : x ≠ [])
    (hfirst : x.head? ≠ some (chr ' ')) (hlast : x.getLast? ≠ some (chr ' ')) :
    (st.afterChars x).trim = false ∧ (st.afterChars x).data = x ∧ (st.afterChars x).t = none ∧
      (st.afterChars x).p = st.p + x.length := by
  have hkept : (st.afterChars x).trim = false ∧ (st.afterChars x).data = x ∧ (st.afterChars x).p = st.p + x.length := by
    obtain ⟨c, x, rfl⟩ := List.exists_cons_of_ne_nil hne
    have hsp : c ≠ chr ' ' := fun h => hfirst (by rw [h]; rfl)
    have hstep : st.afterChar c = st.keepChar c := if_neg fun h => hsp h.2
    obtain ⟨h1, h2, h3⟩ := @afterChars_kept x (st.afterChar c) (by rw [hstep]; rfl)
    refine ⟨h1, h2.trans ?_, h3.trans ?_⟩
    · rw [hstep]
      simp [keepChar, hdata]
    · rw [hstep]
      simp only [keepChar, List.length_cons]
      omega
  refine ⟨hkept.1, hkept.2.1, ?_, hkept.2.2⟩
  rcases List.eq_nil_or_concat x with rfl | ⟨u, c, rfl⟩
  · exact absurd rfl hne
  · rw [List.concat_eq_append] at hlast ⊢
    have hsp : c ≠ chr ' ' := fun h => hlast (by rw [h, List.getLast?_concat])
    rw [afterChars_append]
    show ((st.afterChars u).afterChar c).t = none
    unfold afterChar
    rw [if_neg fun h => hsp h.2]
    exact if_neg hsp

/-- The place of the first of the spaces behind a value is kept. -/
theorem afterChars_trail {n : Nat} (htrim : st.trim = false) (hn : n ≠ 0) :
    (st.afterChars (spaces n)).t = some (st.t.getD st.p) := by
  induction n generalizing st with
  | zero => exact absurd rfl hn
  | succ n ih =>
    have hstep : st.afterChar (chr ' ') = st.keepChar (chr ' ') := if_neg (by simp [htrim])
    rw [show st.afterChars (spaces (n + 1)) = (st.afterChar (chr ' ')).afterChars (spaces n) from rfl, hstep]
    rcases Nat.eq_zero_or_pos n with rfl | hpos
    · rfl
    · exact ih rfl hpos.ne'

/-- The value that is read, and whether spaces behind it are remembered. -/
theorem ValueRead.value_eq {st : ExplodeState} {v x : Text} {stale : Bool} (h : ValueRead st.t.isSome v x stale)
    (hst : st.AtValue) : (st.afterChars v).value = .ok (LdbVal.ofText x) ∧ (st.afterChars v).t.isSome = stale ∧
      (st.afterChars v).TBefore := by
  generalize hold : st.t.isSome = old at h
  cases h with
  | @empty n =>
    obtain ⟨-, hdata, ht, -⟩ := @afterChars_lead n st hst.trim
    rw [hst.data] at hdata
    have hnone : (st.afterChars (spaces n)).t = none :=
      ht.trans (Option.isNone_iff_eq_none.mp (Option.isSome_eq_false_iff.mp hold))
    have hval := value_none hnone (by rw [hdata]; exact nofun)
    rw [hdata] at hval
    exact ⟨hval, by rw [hnone]; rfl, fun t heq => nomatch hnone.symm.trans heq⟩
  | @text _ lead trail _ hne hx hfirst hlast =>
    have h0 : (0 : UInt8) ∉ x := fun hm => (hx 0 hm).1 rfl
    obtain ⟨-, hdata₁, -, -⟩ := @afterChars_lead lead st hst.trim
    rw [hst.data] at hdata₁
    obtain ⟨htrim, hdata₂, hnone, -⟩ := afterChars_text hdata₁ hne hfirst hlast
    rw [afterChars_append, afterChars_append]
    generalize (st.afterChars (spaces lead)).afterChars x = st₂ at htrim hdata₂ hnone
    obtain ⟨-, hdata, hp⟩ := @afterChars_kept (spaces trail) st₂ htrim
    rcases Nat.eq_zero_or_pos trail with rfl | hpos
    · have hval := value_none hnone (by rw [hdata₂]; exact h0)
      rw [hdata₂] at hval
      exact ⟨hval, by show st₂.t.isSome = false; rw [hnone]; rfl, fun t heq => nomatch hnone.symm.trans heq⟩
    · have ht := afterChars_trail htrim hpos.ne'
      rw [hnone, Option.getD_none] at ht
      rw [length_spaces] at hp
      rw [hdata₂] at hdata
      have hlen : (x ++ spaces trail).length = x.length + trail := by rw [List.length_append, length_spaces]
      refine ⟨?_, by rw [ht]; exact (bne_iff_ne.mpr hpos.ne').symm, ?_⟩
      · unfold value
        rw [ht]
        dsimp only
        rw [hp, hdata, hlen, if_pos (by omega), show x.length + trail - (st₂.p + trail - st₂.p) = x.length by omega,
          List.take_left, cstr_eq_self h0]
        rfl
      · intro t heq
        rw [ht] at heq
        cases heq
        omega

/-- An empty value is cut back behind its start where spaces are remembered. -/
theorem value_cut (hst : st.AtValue) (ht : st.t.isSome = true) (n : Nat) :
    (st.afterChars (spaces n)).value = .error .undefined := by
  obtain ⟨-, hdata, ht', hp⟩ := @afterChars_lead n st hst.trim
  obtain ⟨t, hsome⟩ := Option.isSome_iff_exists.mp ht
  refine Stale.value ⟨t, ht'.trans hsome, ?_⟩
  have := hst.tBefore t hsome
  rw [hdata, hst.data, hp, List.length_nil]
  omega

theorem outcome_comma (h : st.InValue) (rest : Text) :
    outcome st (chr ',' :: rest) = st.value.bind fun v => outcome (st.behindComma v) rest := by
  have hstep : st.step (chr ',') rest = ({ st with trim := false } : ExplodeState).save.bind fun st =>
      .ok ({ st with inAttr := true, trim := true, data := [] }, false) := by
    rw [step_plain h.inAttr h.inQuote fun _ => ⟨by decide, by decide⟩, plainStep, if_pos rfl,
      if_neg (by simp [h.escape])]
    rfl
  have hval : value { st with trim := false } = st.value := rfl
  rw [outcome, run, hstep]
  unfold save
  rw [hval]
  cases st.value <;> rfl

theorem outcome_end (h : st.InValue) :
    outcome st [] = st.value.map fun v => st.components ++ [⟨st.name, v, none⟩] := finish_eq h

/-! ## Components -/

/-- The parser before the start of a component, whatever it remembers of those before it. -/
structure AtComponent (st : ExplodeState) : Prop where
  inAttr : st.inAttr = true
  trim : st.trim = true
  inQuote : st.inQuote = false
  escape : st.escape = false
  data : st.data = []
  tBefore : st.TBefore

theorem AtComponent.behindType (h : st.AtComponent) (w name : Text) (oid : Bool) :
    (st.behindType w name oid).AtValue where
  inAttr := rfl
  inQuote := h.inQuote
  escape := h.escape
  trim := rfl
  data := rfl
  tBefore := by
    intro t heq
    have := h.tBefore t heq
    show t < st.p + w.length + 1
    omega

theorem AtValue.behindComma (h : st.AtValue) (v : Text) (htb : (st.afterChars v).TBefore) (val : LdbVal) :
    ((st.afterChars v).behindComma val).AtComponent where
  inAttr := rfl
  trim := rfl
  inQuote := (h.toInValue.afterChars (v := v)).inQuote
  escape := (h.toInValue.afterChars (v := v)).escape
  data := rfl
  tBefore := htb.advance (chr ',')

/-- What the parser makes of a string: the names and values it reads, or none where it cuts an empty value back behind its
start. -/
inductive Reading : Bool → Bool → Text → Option (List (Text × Text)) → Prop
  | last {oid oid' stale stale' : Bool} {w name v x : Text} : TypeRead oid true w oid' name → ValueRead stale v x stale' →
      Reading oid stale (w ++ chr '=' :: v) (some [(name, x)])
  | more {oid oid' stale stale' : Bool} {w name v x rest : Text} {out : Option (List (Text × Text))} :
      TypeRead oid true w oid' name → ValueRead stale v x stale' → Reading oid' stale' rest out →
      Reading oid stale (w ++ chr '=' :: (v ++ chr ',' :: rest)) (out.map ((name, x) :: ·))
  | cut {oid oid' : Bool} {w name rest : Text} {n : Nat} : TypeRead oid true w oid' name →
      (rest = [] ∨ rest.head? = some (chr ',')) → Reading oid true (w ++ chr '=' :: (spaces n ++ rest)) none

/-- The result of a reading. -/
def readingResult (comps : List DnComponent) : Option (List (Text × Text)) → Except DnError (List DnComponent)
  | none => .error .undefined
  | some pairs => .ok (comps ++ pairs.map toComponent)

theorem Reading.outcome_eq {stale : Bool} {out : Option (List (Text × Text))} (h : Reading oid stale s out) (hst : st.AtComponent) (hoid : st.isOid = oid) (ht : st.t.isSome = stale) :
    outcome st s = readingResult st.components out := by
  have htype : ∀ {st : ExplodeState} {oid' : Bool} {w name : Text} (rest : Text), st.AtComponent →
      TypeRead st.isOid true w oid' name → outcome st (w ++ chr '=' :: rest) = outcome (st.behindType w name oid') rest := by
    intro st oid' w name rest hst htype
    rw [outcome, run_typeRead htype hst.inAttr hst.trim rfl]
    rfl
  induction h generalizing st with
  | @last oid oid' stale stale' w name v x hw hv =>
    subst hoid ht
    have hat := hst.behindType w name oid'
    obtain ⟨hval, -, -⟩ := @ValueRead.value_eq (st.behindType w name oid') v x stale' hv hat
    have hsame := sameElse_afterChars v (st.behindType w name oid')
    have hin : ((st.behindType w name oid').afterChars v).InValue := hat.toInValue.afterChars
    have hrun := run_afterChars hat.toInValue hv.plain []
    rw [List.append_nil] at hrun
    rw [htype _ hst hw, outcome, hrun]
    refine (outcome_end hin).trans ?_
    rw [hval, hsame.components, hsame.name]
    show Except.ok (st.components ++ [⟨st.data ++ name, LdbVal.ofText x, none⟩]) = _
    rw [hst.data]
    rfl
  | @more oid oid' stale stale' w name v x rest out hw hv _ ih =>
    subst hoid ht
    have hat := hst.behindType w name oid'
    obtain ⟨hval, hstale, htb⟩ := @ValueRead.value_eq (st.behindType w name oid') v x stale' hv hat
    have hsame := sameElse_afterChars v (st.behindType w name oid')
    have hin : ((st.behindType w name oid').afterChars v).InValue := hat.toInValue.afterChars
    rw [htype _ hst hw, outcome, run_afterChars hat.toInValue hv.plain]
    refine (outcome_comma hin rest).trans ?_
    rw [hval]
    refine (ih (hat.behindComma v htb _) hsame.isOid hstale).trans ?_
    have hcomps : (behindComma ((st.behindType w name oid').afterChars v) (LdbVal.ofText x)).components =
        st.components ++ [⟨name, LdbVal.ofText x, none⟩] := by
      show ((st.behindType w name oid').afterChars v).components ++ [⟨((st.behindType w name oid').afterChars v).name, _, _⟩] = _
      rw [hsame.components, hsame.name]
      show st.components ++ [⟨st.data ++ name, _, _⟩] = _
      rw [hst.data]
      rfl
    rw [hcomps]
    cases out with
    | none => rfl
    | some pairs =>
      simp only [readingResult, Option.map_some, List.append_assoc, List.map_cons]
      rfl
  | @cut oid oid' w name rest n hw hrest =>
    subst hoid
    have hat := hst.behindType w name oid'
    have hcut := value_cut hat ht n
    have hin : ((st.behindType w name oid').afterChars (spaces n)).InValue := hat.toInValue.afterChars
    rw [htype _ hst hw, outcome, run_afterChars hat.toInValue plain_spaces]
    rcases hrest with rfl | hcomma
    · refine (outcome_end hin).trans ?_
      rw [hcut]
      rfl
    · obtain ⟨tail, rfl⟩ := List.head?_eq_some_iff.mp hcomma
      refine (outcome_comma hin tail).trans ?_
      rw [hcut]
      rfl

theorem exists_lead (v : Text) : ∃ n u, v = spaces n ++ u ∧ u.head? ≠ some (chr ' ') := by
  induction v with
  | nil => exact ⟨0, [], rfl, nofun⟩
  | cons c v ih =>
    by_cases hsp : c = chr ' '
    · subst hsp
      obtain ⟨n, u, rfl, hu⟩ := ih
      exact ⟨n + 1, u, rfl, hu⟩
    · exact ⟨0, c :: v, rfl, fun h => hsp (Option.some.inj h)⟩

theorem reverse_spaces (n : Nat) : (spaces n).reverse = spaces n := List.reverse_replicate

theorem exists_trimmed (v : Text) : (∃ n, v = spaces n) ∨ ∃ lead x trail, v = spaces lead ++ x ++ spaces trail ∧ x ≠ [] ∧
    x.head? ≠ some (chr ' ') ∧ x.getLast? ≠ some (chr ' ') := by
  obtain ⟨lead, u, rfl, hu⟩ := exists_lead v
  obtain ⟨trail, x, hx, hlast⟩ := exists_lead u.reverse
  have hrev : u = x.reverse ++ spaces trail := by
    rw [← List.reverse_reverse u, hx, List.reverse_append, reverse_spaces]
  rcases eq_or_ne x [] with rfl | hne
  · left
    cases trail with
    | zero =>
      subst hrev
      exact ⟨lead, List.append_nil _⟩
    | succ trail => exact absurd (by rw [hrev]; rfl) hu
  · have hne' : x.reverse ≠ [] := fun h => hne (List.reverse_eq_nil_iff.mp h)
    refine Or.inr ⟨lead, x.reverse, trail, by rw [List.append_assoc, ← hrev], hne', ?_, by rwa [List.getLast?_reverse]⟩
    rw [hrev, List.head?_append_of_ne_nil _ hne'] at hu
    exact hu

/-- Where nothing is quoted or escaped, a string is read or refused. -/
theorem reading_of_outcome (h0 : (0 : UInt8) ∉ s) (hquote : chr '"' ∉ s) (hslash : chr '\\' ∉ s) (hst : st.AtComponent) :
    outcome st s = .error .invalid ∨ ∃ out, Reading st.isOid st.t.isSome s out := by
  induction hn : s.length using Nat.strong_induction_on generalizing s st with
  | _ n ih =>
    rcases @typeRead_of_outcome s st hst.inAttr with hbad | ⟨w, rest, oid, name, rfl, hw⟩
    · exact Or.inl hbad
    rw [hst.trim] at hw
    have htype : outcome st (w ++ chr '=' :: rest) = outcome (st.behindType w name oid) rest := by
      rw [outcome, run_typeRead hw hst.inAttr hst.trim rfl]
      rfl
    have hat := hst.behindType w name oid
    have hsub : ∀ c, c ∉ w ++ chr '=' :: rest → c ∉ rest := fun c h hm =>
      h (mem_append_right _ (mem_cons_of_mem _ hm))
    rcases plain_of_outcome hat.toInValue (hsub _ h0) (hsub _ hquote) (hsub _ hslash) with hbad | ⟨v, hv, hrest⟩
    · exact Or.inl (htype.trans hbad)
    -- an empty value behind spaces that are remembered is cut, any other value is read
    have hvalue : (∃ n, v = spaces n ∧ st.t.isSome = true) ∨ ∃ x stale, ValueRead st.t.isSome v x stale := by
      rcases exists_trimmed v with ⟨n, rfl⟩ | ⟨lead, x, trail, rfl, hne, hfirst, hlast⟩
      · cases ht : st.t.isSome with
        | true => exact Or.inl ⟨n, rfl, rfl⟩
        | false => exact Or.inr ⟨[], false, .empty⟩
      · refine Or.inr ⟨x, trail != 0, .text hne (fun c hc => hv c ?_) hfirst hlast⟩
        exact mem_append_left _ (mem_append_right _ hc)
    rcases hvalue with ⟨n, rfl, ht⟩ | ⟨x, stale, hx⟩
    · refine Or.inr ⟨none, ?_⟩
      rw [ht]
      rcases hrest with rfl | ⟨rest', rfl⟩
      · have hcut := Reading.cut (n := n) hw (Or.inl rfl)
        rwa [append_nil] at hcut
      · exact .cut hw (Or.inr rfl)
    · rcases hrest with rfl | ⟨rest', rfl⟩
      · exact Or.inr ⟨_, .last hw hx⟩
      · obtain ⟨hval, hstale, htb⟩ := @ValueRead.value_eq (st.behindType w name oid) v x stale hx hat
        have hin : ((st.behindType w name oid).afterChars v).InValue := hat.toInValue.afterChars
        have hcomma : outcome (st.behindType w name oid) (v ++ chr ',' :: rest') =
            outcome (((st.behindType w name oid).afterChars v).behindComma (LdbVal.ofText x)) rest' := by
          rw [outcome, run_afterChars hat.toInValue hv]
          refine (outcome_comma hin rest').trans ?_
          rw [hval]
          rfl
        have hsub' : ∀ c, c ∉ w ++ chr '=' :: (v ++ chr ',' :: rest') → c ∉ rest' := fun c h hm =>
          hsub c h (mem_append_right _ (mem_cons_of_mem _ hm))
        have hlt : rest'.length < n := by
          rw [← hn]
          simp only [length_append, length_cons]
          omega
        rcases ih rest'.length hlt (hsub' _ h0) (hsub' _ hquote) (hsub' _ hslash) (hat.behindComma v htb _) rfl with
          hbad | ⟨out, hout⟩
        · exact Or.inl (htype.trans (hcomma.trans hbad))
        · refine Or.inr ⟨out.map ((name, x) :: ·), .more hw hx ?_⟩
          have hoid : (((st.behindType w name oid).afterChars v).behindComma (LdbVal.ofText x)).isOid = oid :=
            (sameElse_afterChars v (st.behindType w name oid)).isOid
          rw [hoid] at hout
          rw [← hstale]
          exact hout

end ExplodeState

open ExplodeState

/-! ## The language -/

/-- A relative name with one value, and the number of spaces around its type and its value. -/
structure Rdn where
  before : Nat
  type : Text
  gap : Nat
  lead : Nat
  value : Text
  trail : Nat

/-- A dotted decimal OID. -/
def IsOid (w : Text) : Prop :=
  ∃ groups : List Text, 2 ≤ groups.length ∧ (∀ g ∈ groups, g ≠ [] ∧ g.all isDigit = true) ∧ w = [chr '.'].intercalate groups

namespace Rdn

def valueText (r : Rdn) : Text := spaces r.lead ++ r.value ++ spaces r.trail

def typeText (r : Rdn) : Text := spaces r.before ++ r.type ++ spaces r.gap

def text (r : Rdn) : Text := r.typeText ++ chr '=' :: r.valueText

/-- The name and the value that the relative name stands for. -/
def pair (r : Rdn) : Text × Text := (r.type, r.value)

/-- A relative name of the language. -/
structure Ok (r : Rdn) : Prop where
  type : validName r.type = true ∨ IsOid r.type
  chars : ∀ c ∈ r.value, PlainChar c
  first : r.value.head? ≠ some (chr ' ')
  last : r.value.getLast? ≠ some (chr ' ')
  empty : r.value = [] → r.trail = 0

end Rdn

/-- A string is a list of relative names with commas between them. -/
def Lists (s : Text) (rs : List Rdn) : Prop := s = [chr ','].intercalate (rs.map Rdn.text) ∧ ∀ r ∈ rs, r.Ok

/-- The lists that are read: no type is an OID, no space stands before an equals sign, and no value is empty behind a value
with spaces at its end. -/
structure Plain (rs : List Rdn) : Prop where
  names : ∀ r ∈ rs, validName r.type = true ∧ r.gap = 0
  trails : rs.IsChain fun r r' => r.trail = 0 ∨ r'.value ≠ []

theorem IsOid.notMem {w : Text} (h : IsOid w) : chr '=' ∉ w ∧ chr ',' ∉ w ∧ chr '.' ∈ w := by
  obtain ⟨groups, hlen, hgroups, rfl⟩ := h
  have hnot : ∀ {c : UInt8}, isDigit c = false → c ≠ chr '.' → ∀ {gs : List Text},
      (∀ g ∈ gs, g ≠ [] ∧ g.all isDigit = true) → c ∉ [chr '.'].intercalate gs := by
    intro c hc hdot gs hgs
    induction gs with
    | nil => exact nofun
    | cons g gs ih =>
      have hg : c ∉ g := fun hm => by
        rw [all_eq_true.mp (hgs g mem_cons_self).2 c hm] at hc
        cases hc
      cases gs with
      | nil => rwa [intercalate_singleton]
      | cons g' gs =>
        rw [intercalate_cons_cons, append_assoc, singleton_append, mem_append, mem_cons]
        exact not_or.mpr ⟨hg, not_or.mpr ⟨hdot, ih fun g hm => hgs g (mem_cons_of_mem _ hm)⟩⟩
  refine ⟨hnot (by decide) (by decide) hgroups, hnot (by decide) (by decide) hgroups, ?_⟩
  obtain ⟨g, g', gs, rfl⟩ : ∃ g g' gs, groups = g :: g' :: gs := by
    match groups, hlen with
    | g :: g' :: gs, _ => exact ⟨g, g', gs, rfl⟩
  simp [intercalate_cons_cons]

theorem validName_iff {name : Text} : validName name = true ↔ ∃ c w, name = c :: w ∧ isAlpha c = true ∧ ∀ c ∈ w, nameChar c = true := by
  cases name with
  | nil => simp [validName]
  | cons c w => simp [validName]

theorem validName_notMem {name : Text} (h : validName name = true) :
    chr '=' ∉ name ∧ chr ',' ∉ name ∧ name.getLast? ≠ some (chr ' ') := by
  obtain ⟨c, w, rfl, hc, hw⟩ := validName_iff.mp h
  have hall : ∀ c' ∈ c :: w, nameChar c' = true := forall_mem_cons.mpr ⟨nameChar_of_isAlpha hc, hw⟩
  exact ⟨fun hm => (nameChar_spec _ (hall _ hm)).2.1 rfl, fun hm => (nameChar_spec _ (hall _ hm)).2.2.1 rfl,
    fun hm => (nameChar_spec _ (hall _ (mem_of_getLast? hm))).1 rfl⟩

theorem mem_spaces {c : UInt8} {n : Nat} (h : c ∈ spaces n) : c = chr ' ' := (mem_replicate.mp h).2

section Rdn

variable {r : Rdn}

theorem Rdn.Ok.typeText_notMem (h : r.Ok) : chr '=' ∉ r.typeText := by
  have htype : chr '=' ∉ r.type := by
    rcases h.type with hname | hoid
    · exact (validName_notMem hname).1
    · exact hoid.notMem.1
  intro hm
  rcases mem_append.mp hm with hm | hm
  · rcases mem_append.mp hm with hm | hm
    · exact absurd (mem_spaces hm) (by decide)
    · exact htype hm
  · exact absurd (mem_spaces hm) (by decide)

theorem Rdn.Ok.valueText_plain (h : r.Ok) : ∀ c ∈ r.valueText, PlainChar c := by
  intro c hc
  rcases mem_append.mp hc with hc | hc
  · rcases mem_append.mp hc with hc | hc
    · exact plain_spaces c hc
    · exact h.chars c hc
  · exact plain_spaces c hc

end Rdn

theorem comma_notMem {v : Text} (h : ∀ c ∈ v, PlainChar c) : chr ',' ∉ v := fun hm => (h _ hm).2.1 rfl

variable {name s w : Text} {r : Rdn} {rs : List Rdn} {oid oid' stale : Bool}

theorem lists_single : Lists s [r] ↔ s = r.text ∧ r.Ok := by
  simp [Lists]

theorem lists_cons {r' : Rdn} :
    Lists s (r :: r' :: rs) ↔ ∃ rest, s = r.text ++ chr ',' :: rest ∧ r.Ok ∧ Lists rest (r' :: rs) := by
  unfold Lists
  rw [forall_mem_cons, map_cons, map_cons, intercalate_cons_cons, append_assoc,
    singleton_append]
  constructor
  · rintro ⟨rfl, hr, hrs⟩
    exact ⟨_, rfl, hr, rfl, hrs⟩
  · rintro ⟨rest, rfl, hr, rfl, hrs⟩
    exact ⟨rfl, hr, hrs⟩

/-! ## Lists that are read -/

theorem ExplodeState.TypeRead.of_chars (h : ∀ c ∈ w, nameChar c = true) : TypeRead false false w false w := by
  induction w with
  | nil => exact .done
  | cons c w ih =>
    obtain ⟨hc, hw⟩ := forall_mem_cons.mp h
    exact .char hc nofun (ih hw)

theorem ExplodeState.TypeRead.of_spaces (h : TypeRead oid true w oid' name) (n : Nat) :
    TypeRead oid true (spaces n ++ w) oid' name := by
  induction n with
  | zero => exact h
  | succ n ih => exact .space ih

theorem ExplodeState.TypeRead.of_validName (h : validName name = true) (n : Nat) :
    TypeRead false true (spaces n ++ name) false name := by
  obtain ⟨c, w, rfl, hc, hw⟩ := validName_iff.mp h
  exact (TypeRead.letter hc (.of_chars hw)).of_spaces n

theorem Rdn.Ok.valueRead (h : r.Ok) (hstale : stale = false ∨ r.value ≠ []) :
    ValueRead stale r.valueText r.value (r.trail != 0) := by
  by_cases hnil : r.value = []
  · have htrail := h.empty hnil
    rw [hstale.resolve_right fun hne => hne hnil, Rdn.valueText, htrail, hnil]
    show ValueRead false (spaces r.lead ++ [] ++ []) [] false
    rw [append_nil, append_nil]
    exact .empty
  · exact .text hnil h.chars h.first h.last

/-- A list of names that are not OIDs, without spaces before the equals signs, is read. -/
theorem Lists.reading {rs : List Rdn} {s : Text} {stale : Bool} (h : Lists s rs) (hp : Plain rs) (hne : rs ≠ [])
    (hstale : stale = false ∨ ∀ r ∈ rs.head?, r.value ≠ []) : Reading false stale s (some (rs.map Rdn.pair)) := by
  have htype : ∀ {r : Rdn}, validName r.type = true ∧ r.gap = 0 → TypeRead false true r.typeText false r.type := by
    rintro r ⟨hname, hgap⟩
    rw [Rdn.typeText, hgap, show spaces 0 = [] from rfl, append_nil]
    exact .of_validName hname r.before
  induction rs generalizing s stale with
  | nil => exact absurd rfl hne
  | cons r rs ih =>
    have hr := hp.names r mem_cons_self
    have hvalue : stale = false ∨ r.value ≠ [] := hstale.imp_right fun hv => hv r rfl
    cases rs with
    | nil =>
      obtain ⟨rfl, hok⟩ := lists_single.mp h
      exact .last (htype hr) (hok.valueRead hvalue)
    | cons r' rs =>
      obtain ⟨rest, rfl, hok, hrest⟩ := lists_cons.mp h
      obtain ⟨hchain, htail⟩ := isChain_cons_cons.mp hp.trails
      have hnext := @ih rest (r.trail != 0) hrest ⟨fun r hm => hp.names r (mem_cons_of_mem _ hm), htail⟩
        (cons_ne_nil _ _) (hchain.imp (fun h0 => by rw [h0]; rfl) (by simp))
      have hmore := Reading.more (htype hr) (hok.valueRead hvalue) hnext
      rw [Rdn.text, append_assoc, cons_append]
      exact hmore

/-! ## What is read of a list -/

theorem lead_unique {u u' : Text} (hu : u.head? ≠ some (chr ' ')) (hu' : u'.head? ≠ some (chr ' ')) {n m : Nat}
    (h : spaces n ++ u = spaces m ++ u') : n = m ∧ u = u' := by
  induction n generalizing m with
  | zero =>
    cases m with
    | zero => exact ⟨rfl, h⟩
    | succ m =>
      have h' : u = spaces (m + 1) ++ u' := h
      exact absurd (by rw [h']; rfl) hu
  | succ n ih =>
    cases m with
    | zero =>
      have h' : spaces (n + 1) ++ u = u' := h
      exact absurd (by rw [← h']; rfl) hu'
    | succ m =>
      obtain ⟨rfl, rfl⟩ := ih (cons_inj_right _ |>.mp h)
      exact ⟨rfl, rfl⟩

/-- A value and the spaces around it are determined by their text. -/
theorem trimmed_unique {lead trail lead' trail' : Nat} {x x' : Text} (hfirst : x.head? ≠ some (chr ' '))
    (hlast : x.getLast? ≠ some (chr ' ')) (hempty : x = [] → trail = 0) (hfirst' : x'.head? ≠ some (chr ' '))
    (hlast' : x'.getLast? ≠ some (chr ' ')) (hempty' : x' = [] → trail' = 0)
    (h : spaces lead ++ x ++ spaces trail = spaces lead' ++ x' ++ spaces trail') : x = x' ∧ trail = trail' := by
  have hhead : ∀ {x : Text} {trail : Nat}, x.head? ≠ some (chr ' ') → (x = [] → trail = 0) →
      (x ++ spaces trail).head? ≠ some (chr ' ') := by
    intro x trail hfirst hempty
    rcases eq_or_ne x [] with rfl | hne
    · rw [hempty rfl]
      exact nofun
    · rwa [List.head?_append_of_ne_nil _ hne]
  rw [append_assoc, append_assoc] at h
  obtain ⟨-, heq⟩ := lead_unique (hhead hfirst hempty) (hhead hfirst' hempty') h
  have hrev := congrArg List.reverse heq
  rw [reverse_append, reverse_append, reverse_spaces, reverse_spaces] at hrev
  rw [← List.head?_reverse] at hlast hlast'
  obtain ⟨htrail, hx⟩ := lead_unique hlast hlast' hrev
  exact ⟨reverse_injective hx, htrail⟩

/-- The value of a name of the language is read as it is, or not at all. -/
theorem Rdn.Ok.of_valueRead (h : r.Ok) {stale' : Bool} {x : Text} (hv : ValueRead stale r.valueText x stale') :
    x = r.value ∧ stale' = (r.trail != 0) ∧ (stale = false ∨ r.value ≠ []) := by
  generalize hv' : r.valueText = v at hv
  cases hv with
  | @empty n =>
    have heq : spaces n ++ [] ++ spaces 0 = spaces r.lead ++ r.value ++ spaces r.trail := by
      rw [append_nil, show spaces 0 = [] from rfl, append_nil]
      exact hv'.symm
    obtain ⟨hx, htrail⟩ := trimmed_unique (x := []) nofun nofun (fun _ => rfl) h.first h.last h.empty heq
    exact ⟨hx, by rw [← htrail]; rfl, Or.inl rfl⟩
  | @text _ lead trail _ hne _ hfirst hlast =>
    obtain ⟨hx, htrail⟩ := trimmed_unique hfirst hlast (fun hnil => absurd hnil hne) h.first h.last h.empty hv'.symm
    exact ⟨hx, by rw [htrail], Or.inr (hx ▸ hne)⟩

theorem ExplodeState.TypeRead.dot_notMem {trim : Bool} (h : TypeRead oid trim w oid' name) : chr '.' ∉ w := by
  have hname : nameChar (chr '.') = false := by decide
  have hne : ∀ {c : UInt8}, nameChar c = true → chr '.' ≠ c := by
    rintro c hc rfl
    exact absurd hc (by rw [hname]; decide)
  induction h with
  | done => exact nofun
  | space _ ih => exact fun hm => (mem_cons.mp hm).elim (by decide) ih
  | digit hc _ ih => exact fun hm => (mem_cons.mp hm).elim (hne (isDigit_spec _ hc).1) ih
  | letter hc _ ih => exact fun hm => (mem_cons.mp hm).elim (hne (nameChar_of_isAlpha hc)) ih
  | char hc _ _ ih => exact fun hm => (mem_cons.mp hm).elim (hne hc) ih

/-- No space stands at the end of what is taken for a type. -/
theorem ExplodeState.TypeRead.getLast_ne {trim : Bool} (h : TypeRead oid trim w oid' name) :
    w.getLast? ≠ some (chr ' ') ∧ (trim = true → w ≠ []) := by
  have hcons : ∀ {c : UInt8} {w : Text}, (c = chr ' ' → w ≠ []) → w.getLast? ≠ some (chr ' ') →
      (c :: w).getLast? ≠ some (chr ' ') := by
    intro c w hc hw
    cases w with
    | nil => exact fun heq => hc (Option.some.inj heq) rfl
    | cons c' w => rwa [List.getLast?_cons_cons]
  induction h with
  | done => exact ⟨nofun, nofun⟩
  | space _ ih => exact ⟨hcons (fun _ => ih.2 rfl) ih.1, fun _ => cons_ne_nil _ _⟩
  | digit hc _ ih =>
    exact ⟨hcons (fun heq => absurd heq (nameChar_spec _ (isDigit_spec _ hc).1).1) ih.1, fun _ => cons_ne_nil _ _⟩
  | letter hc _ ih => exact ⟨hcons (fun heq => absurd heq (isAlpha_spec _ hc).1) ih.1, fun _ => cons_ne_nil _ _⟩
  | char hc _ _ ih => exact ⟨hcons (fun heq => absurd heq (nameChar_spec _ hc).1) ih.1, nofun⟩

theorem ExplodeState.TypeRead.unique {oid trim oid₁ oid₂ : Bool} {w name₁ name₂ : Text} (h₁ : TypeRead oid trim w oid₁ name₁)
    (h₂ : TypeRead oid trim w oid₂ name₂) : oid₁ = oid₂ ∧ name₁ = name₂ := by
  have hsp : isDigit (chr ' ') = false ∧ isAlpha (chr ' ') = false ∧ nameChar (chr ' ') = false := by decide
  have hdigit : ∀ {c : UInt8}, isDigit c = true → isAlpha c = true → False := by
    intro c hd ha
    rw [(isAlpha_spec c ha).2.2] at hd
    cases hd
  induction h₁ generalizing oid₂ name₂ with
  | done => cases h₂ with
    | done => exact ⟨rfl, rfl⟩
  | space _ ih => cases h₂ with
    | space h₂ => exact ih h₂
    | digit hc => exact absurd hc (by rw [hsp.1]; decide)
    | letter hc => exact absurd hc (by rw [hsp.2.1]; decide)
    | char hc => exact absurd hc (by rw [hsp.2.2]; decide)
  | digit hc _ ih => cases h₂ with
    | space h₂ => exact absurd hc (by rw [hsp.1]; decide)
    | digit _ h₂ =>
      obtain ⟨rfl, rfl⟩ := ih h₂
      exact ⟨rfl, rfl⟩
    | letter hc' => exact (hdigit hc hc').elim
  | letter hc _ ih => cases h₂ with
    | space h₂ => exact absurd hc (by rw [hsp.2.1]; decide)
    | digit hc' h₂ => exact (hdigit hc' hc).elim
    | letter _ h₂ =>
      obtain ⟨rfl, rfl⟩ := ih h₂
      exact ⟨rfl, rfl⟩
  | char hc _ _ ih => cases h₂ with
    | space h₂ => exact absurd hc (by rw [hsp.2.2]; decide)
    | char _ _ h₂ =>
      obtain ⟨rfl, rfl⟩ := ih h₂
      exact ⟨rfl, rfl⟩

/-- The type of a name of the language is read only if it is not an OID and no space stands behind it. -/
theorem Rdn.Ok.of_typeRead (h : r.Ok) (ht : TypeRead false true r.typeText oid name) :
    (validName r.type = true ∧ r.gap = 0) ∧ oid = false ∧ name = r.type := by
  have hgap : r.gap = 0 := by
    by_contra hpos
    refine ht.getLast_ne.1 ?_
    obtain ⟨n, hn⟩ := Nat.exists_eq_succ_of_ne_zero hpos
    have hconcat : r.typeText = (spaces r.before ++ r.type ++ spaces n) ++ [chr ' '] := by
      rw [Rdn.typeText, hn, append_assoc _ (spaces n)]
      exact congrArg _ replicate_succ'
    rw [hconcat, List.getLast?_concat]
  have hname : validName r.type = true := by
    refine h.type.resolve_right fun hoid => ht.dot_notMem ?_
    exact mem_append_left _ (mem_append_right _ hoid.notMem.2.2)
  have htext : r.typeText = spaces r.before ++ r.type := by
    rw [Rdn.typeText, hgap]
    exact append_nil _
  rw [htext] at ht
  obtain ⟨ho, hn⟩ := ht.unique (.of_validName hname r.before)
  exact ⟨⟨hname, hgap⟩, ho, hn⟩

/-- A list is read only if it is plain, and then as the names and values it lists. -/
theorem Lists.of_reading {pairs : List (Text × Text)} (h : Lists s rs)
    (hne : rs ≠ []) (hread : Reading false stale s (some pairs)) :
    Plain rs ∧ pairs = rs.map Rdn.pair ∧ (stale = false ∨ ∀ r ∈ rs.head?, r.value ≠ []) := by
  induction rs generalizing s stale pairs with
  | nil => exact absurd rfl hne
  | cons r rs ih =>
    generalize hs : s = s' at hread
    generalize hout : some pairs = out at hread
    have hsingle : ∀ {r : Rdn}, validName r.type = true ∧ r.gap = 0 → Plain [r] := fun hr =>
      ⟨fun r hm => mem_singleton.mp hm ▸ hr, isChain_singleton _⟩
    cases rs with
    | nil =>
      obtain ⟨rfl, hok⟩ := lists_single.mp h
      cases hread with
      | last ht hv =>
        obtain ⟨hw, hvalue⟩ := split_unique hok.typeText_notMem ht.notMem.1 hs
        subst hw hvalue
        obtain ⟨hr, -, hname⟩ := hok.of_typeRead ht
        obtain ⟨hx, -, hstale⟩ := hok.of_valueRead hv
        rw [Option.some.injEq] at hout
        exact ⟨hsingle hr, by rw [hout, hname, hx]; rfl, hstale.imp_right fun hv r hm => Option.some.inj hm ▸ hv⟩
      | more ht _ _ =>
        obtain ⟨-, hvalue⟩ := split_unique hok.typeText_notMem ht.notMem.1 hs
        refine absurd ?_ (comma_notMem hok.valueText_plain)
        rw [hvalue]
        exact mem_append_right _ mem_cons_self
      | cut => cases hout
    | cons r' rs =>
      obtain ⟨rest, rfl, hok, hrest⟩ := lists_cons.mp h
      rw [Rdn.text, append_assoc, cons_append] at hs
      cases hread with
      | last ht hv =>
        obtain ⟨-, hvalue⟩ := split_unique hok.typeText_notMem ht.notMem.1 hs
        refine absurd ?_ (comma_notMem hv.plain)
        rw [← hvalue]
        exact mem_append_right _ mem_cons_self
      | @more _ _ _ _ _ _ _ _ _ out ht hv hread =>
        obtain ⟨hw, hvalue⟩ := split_unique hok.typeText_notMem ht.notMem.1 hs
        obtain ⟨hv', hr'⟩ := split_unique (comma_notMem hok.valueText_plain) (comma_notMem hv.plain) hvalue
        subst hw hv' hr'
        obtain ⟨hr, rfl, hname⟩ := hok.of_typeRead ht
        obtain ⟨hx, hstale', hstale⟩ := hok.of_valueRead hv
        obtain ⟨pairs', rfl, hpairs⟩ := Option.map_eq_some_iff.mp hout.symm
        obtain ⟨⟨hnames, htrails⟩, hrest', hhead⟩ := ih hrest (cons_ne_nil _ _) hread
        refine ⟨⟨forall_mem_cons.mpr ⟨hr, hnames⟩, isChain_cons_cons.mpr ⟨?_, htrails⟩⟩, ?_,
          hstale.imp_right fun hv r hm => Option.some.inj hm ▸ hv⟩
        · exact hhead.imp (fun h0 => by rw [h0] at hstale'; simpa using hstale'.symm) fun hv => hv r' rfl
        · rw [← hpairs, hname, hx, hrest']
          rfl
      | cut => cases hout

/-! ## What the parser does -/

/-- The parser follows the grammar on a string: it reads the lists of the language, as the types and values they list, and
nothing else. -/
def FollowsGrammar (s : Text) : Prop :=
  (∃ rs, Lists s rs ∧ ∃ dn, ldbDnExplode (ldbDnNew s) = some (true, dn) ∧
    dn.components.getD [] = rs.map fun r => toComponent r.pair) ∨
  ((¬∃ rs, Lists s rs) ∧ ∃ dn, ldbDnExplode (ldbDnNew s) = some (false, dn))

theorem Lists.ne_nil (h : Lists s rs) (hs : s ≠ []) : rs ≠ [] := by
  rintro rfl
  exact hs h.1

/-- Where nothing is quoted or escaped, the parser follows the grammar if and only if the string is empty, or it is not a
special DN and is either a list whose types are not OIDs, with no space before an equals sign and no empty value behind spaces
at the end of a value, or neither a list nor what the parser takes for one. -/
theorem followsGrammar_iff {s : Text} (h0 : (0 : UInt8) ∉ s) (hquote : chr '"' ∉ s) (hslash : chr '\\' ∉ s) :
    FollowsGrammar s ↔ s = [] ∨ ((ldbDnNew s).special = false ∧
      ((∃ rs, Lists s rs ∧ Plain rs) ∨ ((¬∃ rs, Lists s rs) ∧ ¬∃ out, Reading false false s out))) := by
  unfold FollowsGrammar
  by_cases hs : s = []
  · subst hs
    exact iff_of_true (Or.inl ⟨[], ⟨rfl, nofun⟩, ldbDnNew [], rfl, rfl⟩) (Or.inl rfl)
  rw [or_iff_right hs]
  cases hspecial : (ldbDnNew s).special with
  | true =>
    have hexp : ldbDnExplode (ldbDnNew s) = some (true, ldbDnNew s) := by
      unfold ldbDnExplode
      refine (if_neg Bool.false_ne_true).trans ((if_neg Bool.false_ne_true).trans ?_)
      show (if s = [] then _ else if (ldbDnNew s).special then _ else _) = _
      rw [if_neg hs, if_pos hspecial]
    rw [hexp]
    refine iff_of_false ?_ fun h => nomatch h.1
    rintro (⟨rs, hrs, dn, hdn, hcomps⟩ | ⟨-, dn, hdn⟩)
    · cases hdn
      exact hrs.ne_nil hs (List.map_eq_nil_iff.mp hcomps.symm)
    · cases hdn
  | false =>
    have hstart : AtComponent {} := ⟨rfl, rfl, rfl, rfl, rfl, fun _ h => nomatch h⟩
    have hexp := @ldbDnExplode_text (ldbDnNew s) s rfl rfl rfl hs hspecial
    have hread : ∀ {out : Option (List (Text × Text))}, Reading false false s out →
        explode s = readingResult [] out := fun h => h.outcome_eq hstart rfl rfl
    have hplain : ∀ {rs : List Rdn}, Lists s rs → Plain rs → Reading false false s (some (rs.map Rdn.pair)) :=
      fun hrs hp => hrs.reading hp (hrs.ne_nil hs) (Or.inl rfl)
    rw [and_iff_right rfl, hexp]
    rcases reading_of_outcome h0 hquote hslash hstart with hbad | ⟨out, hout⟩
    · have hbad' : explode s = .error .invalid := hbad
      have hnone : ¬∃ out, Reading false false s out := by
        rintro ⟨out, hout⟩
        have heq := hbad'.symm.trans (hread hout)
        cases out <;> cases heq
      rw [hbad']
      constructor
      · rintro (⟨rs, -, dn, hdn, -⟩ | ⟨hrs, -⟩)
        · cases hdn
        · exact Or.inr ⟨hrs, hnone⟩
      · rintro (⟨rs, hrs, hp⟩ | ⟨hrs, -⟩)
        · exact absurd ⟨_, hplain hrs hp⟩ hnone
        · exact Or.inr ⟨hrs, _, rfl⟩
    · have heq := hread hout
      rw [heq]
      cases out with
      | none =>
        refine iff_of_false ?_ ?_
        · rintro (⟨rs, -, dn, hdn, -⟩ | ⟨-, dn, hdn⟩)
          · cases hdn
          · cases hdn
        · rintro (⟨rs, hrs, hp⟩ | ⟨-, hnone⟩)
          · exact nomatch heq.symm.trans (hread (hplain hrs hp))
          · exact hnone ⟨_, hout⟩
      | some pairs =>
        constructor
        · rintro (⟨rs, hrs, -⟩ | ⟨-, dn, hdn⟩)
          · exact Or.inl ⟨rs, hrs, (hrs.of_reading (hrs.ne_nil hs) hout).1⟩
          · cases hdn
        · rintro (⟨rs, hrs, -⟩ | ⟨-, hnone⟩)
          · have hpairs := (hrs.of_reading (hrs.ne_nil hs) hout).2.1
            refine Or.inl ⟨rs, hrs, _, rfl, ?_⟩
            show [] ++ pairs.map toComponent = _
            rw [hpairs, List.nil_append, List.map_map]
            rfl
          · exact absurd ⟨_, hout⟩ hnone

/-- A list of two names is read as it is. -/
theorem followsGrammar_list : FollowsGrammar ("cn=a, dc=b ".toList.map chr) := by
  refine (followsGrammar_iff (by decide) (by decide) (by decide)).mpr (Or.inr ⟨by decide +kernel, Or.inl ?_⟩)
  refine ⟨[⟨0, "cn".toList.map chr, 0, 0, "a".toList.map chr, 0⟩, ⟨1, "dc".toList.map chr, 0, 0, "b".toList.map chr, 1⟩],
    ⟨by decide +kernel, ?_⟩, ?_, ?_⟩
  · rintro r (_ | ⟨_, _ | ⟨_, hm⟩⟩)
    · exact ⟨Or.inl (by decide +kernel), by unfold PlainChar; decide +kernel, by decide, by decide, nofun⟩
    · exact ⟨Or.inl (by decide +kernel), by unfold PlainChar; decide +kernel, by decide, by decide, nofun⟩
    · cases hm
  · decide +kernel
  · exact List.isChain_cons_cons.mpr ⟨Or.inl rfl, List.isChain_singleton _⟩

/-- A list with a space before an equals sign is refused. -/
theorem not_followsGrammar_gap : ¬FollowsGrammar ("cn =a".toList.map chr) := by
  have hlist : Lists ("cn =a".toList.map chr) [⟨0, "cn".toList.map chr, 1, 0, "a".toList.map chr, 0⟩] := by
    refine ⟨by decide +kernel, ?_⟩
    rintro r (_ | ⟨_, hm⟩)
    · exact ⟨Or.inl (by decide +kernel), by unfold PlainChar; decide +kernel, by decide, by decide, nofun⟩
    · cases hm
  have hexp : (ldbDnExplode (ldbDnNew ("cn =a".toList.map chr))).map Prod.fst = some false := by decide +kernel
  rintro (⟨rs, -, dn, hdn, -⟩ | ⟨hnone, -⟩)
  · rw [hdn] at hexp
    cases hexp
  · exact hnone ⟨_, hlist⟩

end Samba.Ldb
