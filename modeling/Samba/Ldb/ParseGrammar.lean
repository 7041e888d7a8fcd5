/-
The grammar of search filters (the comment at the start of lib/ldb/common/ldb_parse.c) against the parser. The parser reads
every filter of the grammar with its tree, wherever it stands.
-/
import Samba.Ldb.Parse

namespace Samba.Ldb

open CString List

/-! ## Scanning -/

/-- White space. -/
def Blank (w : Text) : Prop := ∀ c ∈ w, isSpace c = true

/-- A string that does not start with white space. -/
def Starts (s : Text) : Prop := ∀ c, s.head? = some c → isSpace c = false

theorem skipSpace_starts (s : Text) : Starts (skipSpace s) := by
  intro c hc
  have := List.head?_dropWhile_not isSpace s
  unfold skipSpace at hc
  rw [hc] at this
  exact this

variable {p s w : Text} {c : UInt8}

theorem skipSpace_of_starts (h : Starts s) : skipSpace s = s := by
  cases s with
  | nil => rfl
  | cons c s => exact dropWhile_cons_of_neg (by rw [h c rfl]; decide)

theorem skipSpace_blank (hw : Blank w) : skipSpace (w ++ s) = skipSpace s := by
  induction w with
  | nil => rfl
  | cons c w ih =>
    rw [cons_append]
    unfold skipSpace at ih ⊢
    rw [dropWhile_cons_of_pos (hw c (by simp)), ih fun d hd => hw d (by simp [hd])]

theorem skipSpace_append (hw : Blank w) (hs : Starts s) : skipSpace (w ++ s) = s := by
  rw [skipSpace_blank hw, skipSpace_of_starts hs]

theorem exists_blank (s : Text) : ∃ w, Blank w ∧ s = w ++ skipSpace s :=
  ⟨s.takeWhile isSpace, fun _ hc => mem_takeWhile_imp hc, (takeWhile_append_dropWhile).symm⟩

theorem Blank.append {w₁ w₂ : Text} (h₁ : Blank w₁) (h₂ : Blank w₂) : Blank (w₁ ++ w₂) := by
  intro c hc
  rcases mem_append.mp hc with h | h
  · exact h₁ c h
  · exact h₂ c h

theorem starts_cons (h : isSpace c = false) : Starts (c :: s) := by
  intro d hd
  cases hd
  exact h

theorem strstr_assign {u y : Text} (h : ¬ [chr ':', chr '='] <:+: u) :
    strstr (u ++ chr ':' :: chr '=' :: y) [chr ':', chr '='] = some u.length := by
  induction u with
  | nil =>
    rw [nil_append, strstr, if_pos ⟨y, rfl⟩]
    rfl
  | cons c u ih =>
    rw [cons_append, strstr, if_neg, ih fun hu => h (hu.trans (suffix_cons c u).isInfix)]
    · rfl
    · intro hpre
      rw [cons_prefix_cons] at hpre
      obtain ⟨rfl, hpre⟩ := hpre
      cases u with
      | nil => exact absurd (cons_prefix_cons.mp hpre).1 (by decide)
      | cons d u =>
        rw [cons_append, cons_prefix_cons] at hpre
        obtain ⟨rfl, -⟩ := hpre
        exact h ⟨[], u, rfl⟩

theorem of_strstr_assign {n : Nat} (h : strstr s [chr ':', chr '='] = some n) :
    ∃ y, s = s.take n ++ chr ':' :: chr '=' :: y ∧ ¬ [chr ':', chr '='] <:+: s.take n := by
  induction s generalizing n with
  | nil => cases h
  | cons c s ih =>
    rw [strstr] at h
    split at h
    case isTrue hpre =>
      cases h
      obtain ⟨y, hy⟩ := hpre
      exact ⟨y, hy.symm, by simp⟩
    case isFalse hpre =>
      rw [Option.map_eq_some_iff] at h
      obtain ⟨m, hm, rfl⟩ := h
      obtain ⟨y, hy, hno⟩ := ih hm
      refine ⟨y, by rw [take_succ_cons, cons_append, ← hy], ?_⟩
      rw [take_succ_cons]
      rintro ⟨a, b, hab⟩
      cases a with
      | nil =>
        rw [nil_append, cons_append, List.cons.injEq] at hab
        refine hpre ?_
        rw [hy, ← hab.1, ← hab.2]
        exact ⟨_, rfl⟩
      | cons d a =>
        rw [cons_append, cons_append, List.cons.injEq] at hab
        exact hno ⟨a, b, hab.2⟩

/-! ## Names and operators -/

/-- A name of letters, digits and hyphens, behind an at sign or not. -/
def AttrName (name : Text) : Prop := ∃ at_ nm, name = at_ ++ nm ∧ (at_ = [] ∨ at_ = [chr '@']) ∧ ∀ c ∈ nm, attrChar c = true

/-- The operator of a kind of filter. -/
def operatorText : FilterType → Text
  | .equality => "=".toList.map chr
  | .less => "<=".toList.map chr
  | .greater => ">=".toList.map chr
  | .approx => "~=".toList.map chr
  | .extended => ":=".toList.map chr

/-- A name as the parser finds it in front of an operator: an extended one has a colon and goes on up to the operator. -/
def ScannedName (filtertype : FilterType) (name : Text) : Prop :=
  if filtertype = .extended then ∃ a x, name = a ++ chr ':' :: x ∧ AttrName a ∧ ¬ [chr ':', chr '='] <:+: chr ':' :: x
  else AttrName name

theorem attrChar_of_space : ∀ c : UInt8, isSpace c = true → attrChar c = false := forall_byte (by decide +kernel)

theorem attrChar_spec (c : UInt8) : attrChar c = true → c ≠ chr '@' ∧ c ≠ chr ':' ∧ isSpace c = false ∧ c ∉ "&|!()=<>~".toList.map chr := by
  intro h
  have hlist : ∀ d ∈ chr '@' :: chr ':' :: "&|!()=<>~".toList.map chr, ¬attrChar d = true :=
    forall_entry (by decide +kernel)
  have hne : ∀ d ∈ chr '@' :: chr ':' :: "&|!()=<>~".toList.map chr, c ≠ d := by
    rintro d hd rfl
    exact hlist _ hd h
  refine ⟨hne _ mem_cons_self, hne _ (.tail _ (.head _)), ?_, fun hmem => hlist c (.tail _ (.tail _ hmem)) h⟩
  cases hspace : isSpace c with
  | false => rfl
  | true =>
    rw [attrChar_of_space c hspace] at h
    exact absurd h Bool.false_ne_true

/-- A name ends at a character that can not belong to it. -/
def EndsName (p : Text) : Prop := ∀ c, p.head? = some c → attrChar c = false ∧ c ≠ chr '@'

theorem takeWhile_attr {nm : Text} (hnm : ∀ c ∈ nm, attrChar c = true) (hp : EndsName p) :
    (nm ++ p).takeWhile attrChar = nm ∧ (nm ++ p).dropWhile attrChar = p := by
  have hhead : p.takeWhile attrChar = [] ∧ p.dropWhile attrChar = p := by
    cases p with
    | nil => exact ⟨rfl, rfl⟩
    | cons c p =>
      have hc : ¬ attrChar c = true := by rw [(hp c rfl).1]; decide
      exact ⟨takeWhile_cons_of_neg hc, dropWhile_cons_of_neg hc⟩
  rw [takeWhile_append_of_pos hnm, hhead.1, append_nil, dropWhile_append_of_pos hnm, hhead.2]
  exact ⟨rfl, rfl⟩

/-- The attribute in front of a name's end or of its colon. -/
theorem scanAttr_attr {a : Text} (ha : AttrName a) (hp : EndsName p) :
    scanAttr (a ++ p) = if p.head? = some (chr ':') then
      match strstr p (":=".toList.map chr) with
      | none => none
      | some n => some (a ++ p.take n, p.drop n)
    else some (a, p) := by
  obtain ⟨at_, nm, rfl, hat, hnm⟩ := ha
  obtain ⟨htake, hdrop⟩ := takeWhile_attr hnm hp
  have hfront : (at_ ++ nm ++ p).take (if (at_ ++ nm ++ p).head? = some (chr '@') then 1 else 0) = at_ := by
    rcases hat with rfl | rfl
    · rw [nil_append, if_neg, take_zero]
      intro hhead
      cases nm with
      | nil => exact (hp _ hhead).2 rfl
      | cons c nm =>
        cases hhead
        exact (attrChar_spec _ (hnm _ (by simp))).1 rfl
    · rfl
  unfold scanAttr
  rw [hfront]
  dsimp only
  rw [append_assoc, drop_left, htake]
  generalize (nm ++ p).dropWhile attrChar = behind at hdrop
  subst hdrop
  rfl

theorem scanAttr_name {name p : Text} {filtertype : FilterType} (h : ScannedName filtertype name)
    (hp : if filtertype = .extended then ∃ y, p = chr ':' :: chr '=' :: y else EndsName p ∧ p.head? ≠ some (chr ':')) :
    scanAttr (name ++ p) = some (name, p) := by
  unfold ScannedName at h
  split at h
  case isTrue hext =>
    rw [if_pos hext] at hp
    obtain ⟨a, x, rfl, ha, hno⟩ := h
    obtain ⟨y, rfl⟩ := hp
    have hcolon : EndsName (chr ':' :: x ++ chr ':' :: chr '=' :: y) := by
      intro c hc
      cases hc
      decide
    rw [append_assoc, scanAttr_attr ha hcolon]
    rw [if_pos (show (chr ':' :: x ++ chr ':' :: chr '=' :: y).head? = some (chr ':') from rfl)]
    have hfind := @strstr_assign _ y hno
    rw [show (":=".toList.map chr) = [chr ':', chr '='] from rfl, hfind]
    dsimp only
    rw [take_left, drop_left]
  case isFalse hext =>
    rw [if_neg hext] at hp
    rw [scanAttr_attr h hp.1, if_neg hp.2]

theorem of_scanAttr {name : Text} (h : scanAttr s = some (name, p)) :
    s = name ++ p ∧ (AttrName name ∨ (∃ y, p = chr ':' :: chr '=' :: y) ∧ ScannedName .extended name) := by
  unfold scanAttr at h
  dsimp only at h
  generalize hat : s.take (if s.head? = some (chr '@') then 1 else 0) = at_ at h
  have hat' : at_ = [] ∨ at_ = [chr '@'] := by
    split at hat
    case isTrue hhead =>
      obtain ⟨c, hc⟩ := List.head?_eq_some_iff.mp hhead
      rw [hc] at hat
      exact .inr hat.symm
    case isFalse => exact .inl hat.symm
  have hs : s = at_ ++ s.drop at_.length := by
    rw [← hat, length_take]
    split
    case isTrue hhead =>
      obtain ⟨c, rfl⟩ := List.head?_eq_some_iff.mp hhead
      simp
    case isFalse => simp
  generalize s.drop at_.length = r at h hs
  have hr : r.takeWhile attrChar ++ r.dropWhile attrChar = r := takeWhile_append_dropWhile
  have ha : AttrName (at_ ++ r.takeWhile attrChar) := ⟨_, _, rfl, hat', fun c hc => mem_takeWhile_imp hc⟩
  split at h
  case isFalse =>
    cases h
    exact ⟨by rw [append_assoc, hr, ← hs], .inl ha⟩
  case isTrue hcolon =>
    split at h
    case h_1 => cases h
    case h_2 n hn =>
      cases h
      obtain ⟨y, hy, hno⟩ := of_strstr_assign hn
      have hdrop : (r.dropWhile attrChar).drop n = chr ':' :: chr '=' :: y := by
        have := take_append_drop n (r.dropWhile attrChar)
        exact append_cancel_left (this.trans hy)
      refine ⟨by rw [append_assoc, take_append_drop, append_assoc, hr, ← hs], ?_⟩
      cases n with
      | zero =>
        rw [take_zero, append_nil]
        exact .inl ha
      | succ n =>
        refine .inr ⟨⟨y, hdrop⟩, ?_⟩
        obtain ⟨x, hx⟩ := List.head?_eq_some_iff.mp hcolon
        rw [hx, take_succ_cons] at hno ⊢
        rw [ScannedName, if_pos rfl]
        exact ⟨_, _, rfl, ha, hno⟩

theorem scanOperator_text (filtertype : FilterType) (p : Text) :
    scanOperator (operatorText filtertype ++ p) = some (filtertype, p) := by
  cases filtertype <;> rfl

theorem of_scanOperator {filtertype : FilterType} (h : scanOperator s = some (filtertype, p)) :
    s = operatorText filtertype ++ p := by
  unfold scanOperator at h
  cases s with
  | nil => cases h
  | cons c s =>
    dsimp only at h
    split at h
    case isTrue hc =>
      cases h
      rw [hc]
      rfl
    case isFalse =>
      cases s with
      | nil => cases h
      | cons d s =>
        dsimp only at h
        split at h
        · cases h
        · rename_i hd
          rw [not_not] at hd
          split at h
          · cases h
            simp_all [operatorText]
          · split at h
            · cases h
              simp_all [operatorText]
            · split at h
              · cases h
                simp_all [operatorText]
              · split at h
                · cases h
                  simp_all [operatorText]
                · cases h

/-! ## Values -/

/-- A string without white space at its ends. -/
def Trimmed (v : Text) : Prop := Starts v ∧ Starts v.reverse

/-- A value that is read whole: no closing parenthesis ends it, no white space is cut off, and the parenthesis behind it
is not escaped. -/
structure ScannedValue (v : Text) : Prop where
  unclosed : chr ')' ∉ v
  trimmed : Trimmed v
  last : v.getLast? ≠ some (chr '\\')

theorem scanValue_append {v : Text} (rest : Text) (hv : chr ')' ∉ v) {prev : UInt8}
    (hlast : v.getLast?.getD prev ≠ chr '\\') : scanValue prev (v ++ chr ')' :: rest) = (v, chr ')' :: rest) := by
  induction v generalizing prev with
  | nil => exact if_pos ⟨rfl, hlast⟩
  | cons c v ih =>
    have hc : ¬ (c = chr ')' ∧ prev ≠ chr '\\') := fun h => hv (h.1 ▸ mem_cons_self)
    have hrest := @ih (fun h => hv (mem_cons_of_mem c h)) c (by
      cases v with
      | nil => exact hlast
      | cons d v =>
        rw [List.getLast?_cons_cons, List.getLast?_cons, Option.getD_some] at hlast
        rwa [List.getLast?_cons, Option.getD_some])
    rw [cons_append, scanValue, if_neg hc, hrest]

/-- A parenthesis inside a value is behind a backslash. -/
theorem of_scanValue {prev : UInt8} {s v p : Text} (h : scanValue prev s = (v, p)) :
    s = v ++ p ∧ ∀ u y, v = u ++ chr ')' :: y → u.getLast?.getD prev = chr '\\' := by
  induction s generalizing prev v with
  | nil =>
    cases h
    exact ⟨rfl, fun u y hv => by cases u <;> cases hv⟩
  | cons c s ih =>
    rw [scanValue] at h
    split at h
    case isTrue hc =>
      cases h
      exact ⟨rfl, fun u y hv => by cases u <;> cases hv⟩
    case isFalse hc =>
      cases h
      obtain ⟨hs, hclose⟩ := @ih c _ rfl
      refine ⟨by rw [cons_append, ← hs], fun u y hv => ?_⟩
      cases u with
      | nil =>
        rw [nil_append, List.cons.injEq] at hv
        by_contra hprev
        exact hc ⟨hv.1, hprev⟩
      | cons d u =>
        rw [cons_append, List.cons.injEq] at hv
        rw [List.getLast?_cons, Option.getD_some, ← hv.1]
        exact hclose u y hv.2

theorem rdropWhile_space {v : Text} (hv : Trimmed v) (hw : Blank w) : (v ++ w).rdropWhile isSpace = v := by
  have hrev : Blank w.reverse := fun c hc => hw c (mem_reverse.mp hc)
  have := skipSpace_append hrev hv.2
  unfold skipSpace at this
  rw [List.rdropWhile, reverse_append, this, reverse_reverse]

theorem exists_trimmed {v : Text} (h : Starts (v ++ p)) :
    ∃ w, Blank w ∧ v = v.rdropWhile isSpace ++ w ∧ Trimmed (v.rdropWhile isSpace) := by
  have hvw := @rdropWhile_append_rtakeWhile _ isSpace v
  refine ⟨v.rtakeWhile isSpace, fun c hc => mem_rtakeWhile_imp hc, hvw.symm, fun c hc => h c ?_, ?_⟩
  · rw [List.head?_append, ← hvw, List.head?_append, hc]
    rfl
  · rw [List.rdropWhile, reverse_reverse]
    exact skipSpace_starts v.reverse

theorem Blank.last {v w : Text} (hw : Blank w) (hlast : v.getLast? ≠ some (chr '\\')) {prev : UInt8} (hprev : prev ≠ chr '\\') :
    (v ++ w).getLast?.getD prev ≠ chr '\\' := by
  rw [List.getLast?_append]
  cases hw' : w.getLast? with
  | some c =>
    have hc := hw c (mem_of_getLast? hw')
    rintro rfl
    exact absurd hc (by decide)
  | none =>
    cases hv' : v.getLast? with
    | none => exact hprev
    | some c => exact fun hc => hlast (hv'.trans (congrArg some hc))

theorem skipSpace_value {w₂ v w₃ rest : Text} (hw₂ : Blank w₂) (hw₃ : Blank w₃) (hv : Trimmed v) :
    skipSpace (w₂ ++ (v ++ (w₃ ++ chr ')' :: rest))) =
      (if v = [] then [] else v ++ w₃) ++ chr ')' :: rest := by
  have hclose : Starts (chr ')' :: rest) := starts_cons (by decide)
  rw [skipSpace_blank hw₂]
  split
  case isTrue h => rw [h, nil_append, nil_append, skipSpace_append hw₃ hclose]
  case isFalse h =>
    cases v with
    | nil => exact absurd rfl h
    | cons c v =>
      rw [append_assoc]
      exact skipSpace_of_starts (starts_cons (hv.1 c rfl))

/-! ## Escapes -/

/-- Every backslash is followed by two hexadecimal digits. -/
def HexEscaped (v : Text) : Prop :=
  ∀ u s, v = u ++ chr '\\' :: s → ∃ a b s', s = a :: b :: s' ∧ (hexDigit a).isSome ∧ (hexDigit b).isSome

/-- The check of it. -/
def hexEscapes : Text → Bool
  | [] => true
  | c :: s =>
    if c = chr '\\' then
      match s with
      | a :: b :: s => (hexDigit a).isSome && (hexDigit b).isSome && hexEscapes s
      | _ => false
    else hexEscapes s

theorem hexEscapes_cons {v : Text} (hc : c ≠ chr '\\') : hexEscapes (c :: v) = hexEscapes v := by
  rw [hexEscapes.eq_def]
  exact if_neg hc

theorem hexEscapes_backslash {v : Text} (h : hexEscapes v = true) : HexEscaped v := by
  intro u s hv
  induction v using hexEscapes.induct generalizing u s with
  | case1 => cases u <;> cases hv
  | case2 a b v ih =>
    rw [hexEscapes, if_pos rfl, Bool.and_eq_true, Bool.and_eq_true] at h
    match u with
    | [] =>
      cases hv
      exact ⟨a, b, v, rfl, h.1.1, h.1.2⟩
    | [_] =>
      cases hv
      exact absurd h.1.1 (by decide)
    | [_, _] =>
      cases hv
      exact absurd h.1.2 (by decide)
    | _ :: _ :: _ :: u =>
      cases hv
      exact ih h.2 u s rfl
  | case3 v hno =>
    rw [hexEscapes, if_pos rfl] at h
    · cases h
    · exact hno
  | case4 c v hc ih =>
    rw [hexEscapes_cons hc] at h
    cases u with
    | nil =>
      cases hv
      exact absurd rfl hc
    | cons d u =>
      cases hv
      exact ih h u s rfl

theorem HexEscaped.tail {v : Text} (h : HexEscaped (c :: v)) : HexEscaped v :=
  fun u s hv => h (c :: u) s (by rw [hv, cons_append])

theorem HexEscaped.hexEscapes {v : Text} (h : HexEscaped v) : hexEscapes v = true := by
  induction v using hexEscapes.induct with
  | case1 => rfl
  | case2 a b v ih =>
    obtain ⟨a', b', v', hv, ha, hb⟩ := h [] _ rfl
    cases hv
    rw [Ldb.hexEscapes, if_pos rfl, ha, hb, ih h.tail.tail.tail]
    rfl
  | case3 v hno =>
    obtain ⟨a, b, v', rfl, -, -⟩ := h [] _ rfl
    exact absurd rfl (hno a b v')
  | case4 c v hc ih =>
    rw [hexEscapes_cons hc]
    exact ih h.tail

theorem HexEscaped.last {v : Text} (h : HexEscaped v) : v.getLast? ≠ some (chr '\\') := by
  intro hlast
  obtain ⟨a, b, s', hs, -, -⟩ := h v.dropLast [] (dropLast_append_getLast? _ hlast).symm
  cases hs

/-- There is no parenthesis behind a backslash. -/
theorem HexEscaped.unclosed {v : Text} (h : HexEscaped v)
    (hclose : ∀ u y, v = u ++ chr ')' :: y → u.getLast? = some (chr '\\')) : chr ')' ∉ v := by
  intro hmem
  obtain ⟨u, y, rfl⟩ := append_of_mem hmem
  have hu := dropLast_append_getLast? _ (hclose u y rfl)
  obtain ⟨a, b, s', hs, ha, -⟩ := h u.dropLast (chr ')' :: y) (by rw [← hu]; simp)
  cases hs
  exact absurd ha (by decide)

/-! ## Simple filters -/

theorem space_endsName (c : UInt8) : isSpace c = true → attrChar c = false ∧ c ≠ chr '@' ∧ c ≠ chr ':' := by
  intro h
  refine ⟨attrChar_of_space c h, ?_, ?_⟩
  all_goals
    rintro rfl
    exact absurd h (by decide)

theorem operator_endsName {filtertype : FilterType} {w p : Text} (hw : Blank w) (h : filtertype ≠ .extended) :
    ∀ c, (w ++ (operatorText filtertype ++ p)).head? = some c → attrChar c = false ∧ c ≠ chr '@' ∧ c ≠ chr ':' := by
  intro c hc
  cases w with
  | nil =>
    cases filtertype with
    | extended => exact absurd rfl h
    | _ =>
      cases hc
      decide
  | cons d w =>
    cases hc
    exact space_endsName c (hw c mem_cons_self)

/-- A name, an operator and a value are read back. In front of the operator of an extended match there is no white space. -/
theorem ldbParseFiltertype_text {filtertype : FilterType} {name w₁ w₂ v w₃ rest : Text} (hname : ScannedName filtertype name)
    (hw₁ : Blank w₁) (hext : filtertype = .extended → w₁ = []) (hw₂ : Blank w₂) (hv : ScannedValue v) (hw₃ : Blank w₃) :
    ldbParseFiltertype (name ++ (w₁ ++ (operatorText filtertype ++ (w₂ ++ (v ++ (w₃ ++ chr ')' :: rest)))))) =
      some (filtertype, name, v, chr ')' :: rest) := by
  have hop : Starts (operatorText filtertype ++ (w₂ ++ (v ++ (w₃ ++ chr ')' :: rest)))) := by
    cases filtertype <;> exact starts_cons (by decide)
  have hattr := @scanAttr_name name (w₁ ++ (operatorText filtertype ++ (w₂ ++ (v ++ (w₃ ++ chr ')' :: rest))))) filtertype
    hname (by
      split
      case isTrue h =>
        rw [hext h, h]
        exact ⟨_, rfl⟩
      case isFalse h =>
        have hends := @operator_endsName filtertype w₁ (w₂ ++ (v ++ (w₃ ++ chr ')' :: rest))) hw₁ h
        exact ⟨fun c hc => ⟨(hends c hc).1, (hends c hc).2.1⟩, fun hcolon => (hends _ hcolon).2.2 rfl⟩)
  unfold ldbParseFiltertype
  rw [hattr]
  dsimp only [bind, Option.bind]
  rw [skipSpace_append hw₁ hop, scanOperator_text]
  dsimp only
  rw [skipSpace_value hw₂ hw₃ hv.trimmed, scanValue_append]
  · split
    case isTrue h =>
      rw [h]
      rfl
    case isFalse => rw [rdropWhile_space hv.trimmed hw₃]; rfl
  · split
    case isTrue => exact not_mem_nil
    case isFalse =>
      intro hmem
      rcases mem_append.mp hmem with h | h
      · exact hv.unclosed h
      · exact absurd (hw₃ _ h) (by decide)
  · split
    case isTrue => decide
    case isFalse => exact hw₃.last hv.last (by decide)

/-- What `ldb_parse_filtertype` has found. An extended match whose name has no colon has no tree. -/
theorem of_ldbParseFiltertype {name v : Text} {filtertype : FilterType}
    (h : ldbParseFiltertype s = some (filtertype, name, v, p)) :
    ∃ w₁ w₂ w₃, s = name ++ (w₁ ++ (operatorText filtertype ++ (w₂ ++ (v ++ (w₃ ++ p))))) ∧ Blank w₁ ∧ Blank w₂ ∧ Blank w₃ ∧
      Trimmed v ∧ (∀ u y, v = u ++ chr ')' :: y → u.getLast? = some (chr '\\')) ∧
      (ScannedName filtertype name ∧ (filtertype = .extended → w₁ = []) ∨ filtertype = .extended ∧ AttrName name) := by
  unfold ldbParseFiltertype at h
  dsimp only [bind, Option.bind] at h
  split at h
  case h_1 => cases h
  rename_i np hattr
  obtain ⟨name', q⟩ := np
  dsimp only at h
  split at h
  case h_1 => cases h
  rename_i fp hop
  obtain ⟨ft, q'⟩ := fp
  dsimp only at h
  obtain ⟨hs, hname⟩ := of_scanAttr hattr
  have hq := of_scanOperator hop
  obtain ⟨w₂, hw₂, hq'⟩ := exists_blank q'
  obtain ⟨hv, hclose⟩ := @of_scanValue (chr '=') (skipSpace q') _ _ rfl
  generalize hvp : scanValue (chr '=') (skipSpace q') = vp at h hv hclose
  obtain ⟨v', p'⟩ := vp
  cases h
  dsimp only at hv hclose
  obtain ⟨w₃, hw₃, hvw, htrim⟩ := exists_trimmed (hv ▸ skipSpace_starts q')
  generalize v'.rdropWhile isSpace = v at hvw htrim
  have hesc : ∀ u y, v = u ++ chr ')' :: y → u.getLast? = some (chr '\\') := by
    intro u y huy
    have := hclose u (y ++ w₃) (by rw [hvw, huy, append_assoc, cons_append])
    cases hlast : u.getLast? with
    | none =>
      rw [hlast] at this
      exact absurd this (by decide)
    | some c =>
      rw [hlast] at this
      exact congrArg some this
  have htext : skipSpace q = operatorText filtertype ++ (w₂ ++ (v ++ (w₃ ++ p'))) := by
    rw [hq, ← append_assoc v, ← hvw, ← hv, ← hq']
  rcases hname with hname | ⟨⟨y, rfl⟩, hname⟩
  · obtain ⟨w₁, hw₁, hq₁⟩ := exists_blank q
    refine ⟨w₁, w₂, w₃, by rw [hs, ← htext, ← hq₁], hw₁, hw₂, hw₃, htrim, hesc, ?_⟩
    by_cases hext : filtertype = .extended
    · exact .inr ⟨hext, hname⟩
    · exact .inl ⟨by rwa [ScannedName, if_neg hext], fun h => absurd h hext⟩
  · rw [skipSpace_of_starts (starts_cons (by decide))] at htext
    have hft : filtertype = .extended := by
      cases filtertype with
      | extended => rfl
      | _ => exact absurd (List.cons.inj htext).1 (by decide)
    rw [hft] at htext ⊢
    refine ⟨[], w₂, w₃, by rw [hs, htext, nil_append], fun c hc => (nomatch hc), hw₂, hw₃, htrim, hesc, .inl ⟨hname, fun _ => rfl⟩⟩

theorem AttrName.colon {a : Text} (h : AttrName a) : chr ':' ∉ a := by
  obtain ⟨at_, nm, rfl, hat, hnm⟩ := h
  intro hmem
  rcases mem_append.mp hmem with h | h
  · rcases hat with rfl | rfl
    · exact nomatch h
    · exact absurd (mem_singleton.mp h) (by decide)
  · exact absurd rfl (attrChar_spec _ (hnm _ h)).2.1

/-- The attribute and the rest of a name with a colon. -/
theorem AttrName.split {a : Text} (h : AttrName a) (x : Text) :
    (a ++ chr ':' :: x).takeWhile (· ≠ chr ':') = a ∧ (a ++ chr ':' :: x).dropWhile (· ≠ chr ':') = chr ':' :: x := by
  have ha : ∀ c ∈ a, decide (c ≠ chr ':') = true := by
    intro c hc
    rw [decide_eq_true_eq]
    rintro rfl
    exact h.colon hc
  rw [takeWhile_append_of_pos ha, dropWhile_append_of_pos ha]
  exact ⟨append_nil a, rfl⟩

theorem AttrName.dropWhile_eq {a : Text} (h : AttrName a) : a.dropWhile (· ≠ chr ':') = [] := by
  rw [dropWhile_eq_nil_iff]
  intro c hc
  rw [decide_eq_true_eq]
  rintro rfl
  exact h.colon hc

/-- An extended match needs a colon in its name. -/
theorem ldbParseExtended_attr {a : Text} (ha : AttrName a) (v : Text) : ldbParseExtended a v = none := by
  unfold ldbParseExtended
  dsimp only [bind, Option.bind]
  cases ldbBinaryDecode v with
  | none => rfl
  | some value =>
    dsimp only
    rw [if_pos ha.dropWhile_eq]

/-! ## The grammar -/

/-- The number or name of a matching rule. -/
def Oid (o : Text) : Prop := o ≠ [] ∧ ∀ c ∈ o, attrChar c = true ∨ c = chr '.'

/-- `<attributetype>`, and in front of `:=` the forms of the comment at `ldb_parse_extended`. -/
inductive NameText : FilterType → Text → Prop
  | attr {filtertype a} : filtertype ≠ .extended → AttrName a → a ≠ [] → NameText filtertype a
  | oid {a o} : AttrName a → a ≠ [] → Oid o → NameText .extended (a ++ chr ':' :: o)
  | dnOid {a o} : AttrName a → Oid o → NameText .extended (a ++ chr ':' :: ("dn:".toList.map chr ++ o))
  | dn {a} : AttrName a → a ≠ [] → NameText .extended (a ++ chr ':' :: "dn".toList.map chr)

/-- `<attributevalue>`. -/
structure ValueText (v : Text) : Prop where
  unclosed : chr ')' ∉ v
  trimmed : Trimmed v
  escaped : HexEscaped v

/-- `<simple>`, with the tree of the operation, the name and the value. -/
inductive SimpleText : Text → ParseTree → Prop
  | intro {filtertype name w₁ w₂ v w₃ t} : NameText filtertype name → Blank w₁ → (filtertype = .extended → w₁ = []) →
      Blank w₂ → ValueText v → Blank w₃ → simpleTree filtertype name v = some t →
      SimpleText (name ++ (w₁ ++ (operatorText filtertype ++ (w₂ ++ (v ++ w₃))))) t

section Grammar

-- what stands between the parentheses of a simple filter
variable (simple : Text → ParseTree → Prop)

mutual

/-- `<filter>`, with the tree of its nodes. -/
inductive FilterText : Text → ParseTree → Prop
  | and {w₁ w₂ l ts} : Blank w₁ → Blank w₂ → FilterlistText l ts →
      FilterText (chr '(' :: (w₁ ++ chr '&' :: (w₂ ++ (l ++ [chr ')'])))) (.and ts)
  | or {w₁ w₂ l ts} : Blank w₁ → Blank w₂ → FilterlistText l ts →
      FilterText (chr '(' :: (w₁ ++ chr '|' :: (w₂ ++ (l ++ [chr ')'])))) (.or ts)
  | not {w₁ w₂ f t} : Blank w₁ → FilterText f t → Blank w₂ →
      FilterText (chr '(' :: (w₁ ++ chr '!' :: (f ++ (w₂ ++ [chr ')'])))) (.not t)
  | simple {w c t} : Blank w → simple c t → FilterText (chr '(' :: (w ++ (c ++ [chr ')']))) t

/-- `<filterlist>`. -/
inductive FilterlistText : Text → List ParseTree → Prop
  | one {f w t} : FilterText f t → Blank w → FilterlistText (f ++ w) [t]
  | more {f w t l ts} : FilterText f t → Blank w → FilterlistText l ts → FilterlistText (f ++ (w ++ l)) (t :: ts)

end

end Grammar

variable {simple : Text → ParseTree → Prop}

theorem FilterText.head {f : Text} {t : ParseTree} (h : FilterText simple f t) : ∃ f', f = chr '(' :: f' := by
  cases h <;> exact ⟨_, rfl⟩

theorem FilterlistText.head {l : Text} {ts : List ParseTree} (h : FilterlistText simple l ts) : ∃ l', l = chr '(' :: l' := by
  cases h with
  | one hf _ | more hf _ _ =>
    obtain ⟨f', rfl⟩ := hf.head
    exact ⟨_, rfl⟩

theorem FilterlistText.starts {l : Text} {ts : List ParseTree} (h : FilterlistText simple l ts) (s : Text) : Starts (l ++ s) := by
  obtain ⟨l', rfl⟩ := h.head
  exact starts_cons (by decide)

/-! ## Every filter of the grammar is read -/

/-- A text that is read as a simple filter wherever a closing parenthesis is behind it. -/
structure ReadsSimple (c : Text) (t : ParseTree) : Prop where
  head : ∃ d c', c = d :: c' ∧ isSpace d = false ∧ d ∉ "&|!()".toList.map chr
  reads : ∀ rest, ldbParseSimple (c ++ chr ')' :: rest) = (some t, chr ')' :: rest)

theorem starts_close (rest : Text) : Starts (chr ')' :: rest) := starts_cons (by decide)

variable {fuel : Nat} {s w : Text} {filter : Text → Option ParseTree × Text}

theorem ldbParseFilter_close {rest : Text} {t : ParseTree}
    (h : ldbParseFiltercomp (ldbParseFilter fuel) s = (some t, chr ')' :: rest)) :
    ldbParseFilter (fuel + 1) (chr '(' :: s) = (some t, skipSpace rest) := by
  rw [ldbParseFilter, if_pos (show (chr '(' :: s).head? = some (chr '(') from rfl)]
  dsimp only
  rw [show (chr '(' :: s).drop 1 = s from rfl, h]
  exact if_pos rfl

theorem ldbParseFilter_none (h : s.head? ≠ some (chr '(')) : ldbParseFilter fuel s = (none, s) := by
  cases fuel with
  | zero => rfl
  | succ fuel => exact if_neg h

theorem ldbParseFiltercomp_and (hw : Blank w) :
    ldbParseFiltercomp filter (w ++ chr '&' :: s) = ldbParseFilterlist filter .and (chr '&' :: s) := by
  rw [ldbParseFiltercomp, skipSpace_append hw (starts_cons (by decide))]
  exact if_pos rfl

theorem ldbParseFiltercomp_or (hw : Blank w) :
    ldbParseFiltercomp filter (w ++ chr '|' :: s) = ldbParseFilterlist filter .or (chr '|' :: s) := by
  rw [ldbParseFiltercomp, skipSpace_append hw (starts_cons (by decide))]
  exact (if_neg (by decide)).trans (if_pos rfl)

theorem ldbParseFiltercomp_not (hw : Blank w) :
    ldbParseFiltercomp filter (w ++ chr '!' :: s) = ldbParseNot filter (chr '!' :: s) := by
  rw [ldbParseFiltercomp, skipSpace_append hw (starts_cons (by decide))]
  exact (if_neg (by decide)).trans ((if_neg (by decide)).trans (if_pos rfl))

theorem ldbParseFiltercomp_simple {d : UInt8} (hw : Blank w)
    (hd : isSpace d = false) (hop : d ∉ "&|!()".toList.map chr) :
    ldbParseFiltercomp filter (w ++ d :: s) = ldbParseSimple (d :: s) := by
  have hne : ∀ {e}, e ∈ "&|!()".toList.map chr → d ≠ e := fun he h => hop (h ▸ he)
  rw [ldbParseFiltercomp, skipSpace_append hw (starts_cons hd)]
  dsimp only [List.head?_cons]
  rw [if_neg (hne (by decide)), if_neg (hne (by decide)), if_neg (hne (by decide)),
    if_neg (not_or.mpr ⟨hne (by decide), hne (by decide)⟩)]

/-- The loop ends at the parenthesis behind the list. -/
theorem filterlistLoop_close (n : Nat) (rest : Text) :
    filterlistLoop (ldbParseFilter fuel) n (chr ')' :: rest) = ([], chr ')' :: rest) := by
  cases n with
  | zero => rfl
  | succ n =>
    rw [filterlistLoop, if_neg (cons_ne_nil _ _), ldbParseFilter_none (fun h => by cases h)]

/-- A list is read: the first filter is, and the loop reads the others up to the parenthesis. -/
def ReadsList (fuel : Nat) (l : Text) (ts : List ParseTree) : Prop :=
  ∀ rest, ∃ t ts' q, ts = t :: ts' ∧ ldbParseFilter fuel (l ++ chr ')' :: rest) = (some t, q) ∧ Starts q ∧
    q.length < (l ++ chr ')' :: rest).length ∧
    ∀ n, q.length ≤ n → filterlistLoop (ldbParseFilter fuel) n q = (ts', chr ')' :: rest)

theorem ldbParseFilterlist_reads {fuel : Nat} {op : List ParseTree → ParseTree} {c : UInt8} {w l : Text} {ts : List ParseTree}
    (hw : Blank w) (hl : ReadsList fuel l ts) (hstart : ∀ s, Starts (l ++ s)) (rest : Text) :
    ldbParseFilterlist (ldbParseFilter fuel) op (c :: (w ++ (l ++ chr ')' :: rest))) = (some (op ts), chr ')' :: rest) := by
  obtain ⟨t, ts', q, rfl, hfirst, hq, -, hloop⟩ := hl rest
  rw [ldbParseFilterlist, drop_succ_cons, drop_zero, skipSpace_append hw (hstart _), hfirst]
  dsimp only
  rw [skipSpace_of_starts hq, hloop _ (Nat.le_refl _)]

mutual

theorem ldbParseFilter_text (hsimple : ∀ c t, simple c t → ReadsSimple c t) {f : Text} {t : ParseTree} :
    FilterText simple f t → ∀ fuel, f.length ≤ fuel → ∀ rest, ldbParseFilter fuel (f ++ rest) = (some t, skipSpace rest)
  | .and hw₁ hw₂ hl, fuel + 1, hfuel, rest => by
    simp only [length_cons, length_append, length_nil] at hfuel
    have hlist := @ldbParseFilterlist_reads fuel .and (chr '&') _ _ _ hw₂ (readsList_text hsimple hl fuel (by omega))
      hl.starts rest
    simp only [cons_append, append_assoc, nil_append]
    exact ldbParseFilter_close ((ldbParseFiltercomp_and hw₁).trans hlist)
  | .or hw₁ hw₂ hl, fuel + 1, hfuel, rest => by
    simp only [length_cons, length_append, length_nil] at hfuel
    have hlist := @ldbParseFilterlist_reads fuel .or (chr '|') _ _ _ hw₂ (readsList_text hsimple hl fuel (by omega))
      hl.starts rest
    simp only [cons_append, append_assoc, nil_append]
    exact ldbParseFilter_close ((ldbParseFiltercomp_or hw₁).trans hlist)
  | .not hw₁ hf hw₂, fuel + 1, hfuel, rest => by
    simp only [length_cons, length_append, length_nil] at hfuel
    have hchild := ldbParseFilter_text hsimple hf fuel (by omega)
    simp only [cons_append, append_assoc, nil_append]
    refine ldbParseFilter_close ((ldbParseFiltercomp_not hw₁).trans ?_)
    rw [ldbParseNot, drop_succ_cons, drop_zero, hchild, skipSpace_append hw₂ (starts_close rest)]
  | .simple hw hc, fuel + 1, hfuel, rest => by
    obtain ⟨d, c', rfl, hd, hop⟩ := (hsimple _ _ hc).head
    have hread := (hsimple _ _ hc).reads rest
    simp only [cons_append, append_assoc, nil_append] at hread ⊢
    exact ldbParseFilter_close ((ldbParseFiltercomp_simple hw hd hop).trans hread)

theorem readsList_text (hsimple : ∀ c t, simple c t → ReadsSimple c t) {l : Text} {ts : List ParseTree} :
    FilterlistText simple l ts → ∀ fuel, l.length ≤ fuel → ReadsList fuel l ts
  | .one (f := f) (w := w) (t := t) hf hw, fuel, hfuel => by
    intro rest
    rw [length_append] at hfuel
    have hfirst := ldbParseFilter_text hsimple hf fuel (by omega) (w ++ chr ')' :: rest)
    rw [skipSpace_append hw (starts_close rest), ← append_assoc] at hfirst
    obtain ⟨f', hf'⟩ := hf.head
    refine ⟨t, [], _, rfl, hfirst, starts_close rest, ?_, fun n _ => filterlistLoop_close n rest⟩
    simp only [hf', length_append, length_cons]
    omega
  | .more (f := f) (w := w) (t := t) (l := l) hf hw hl, fuel, hfuel => by
    intro rest
    rw [length_append, length_append] at hfuel
    have hfirst := ldbParseFilter_text hsimple hf fuel (by omega) (w ++ (l ++ chr ')' :: rest))
    rw [skipSpace_append hw (hl.starts _)] at hfirst
    obtain ⟨t', ts', q, rfl, hnext, hq, hlength, hloop⟩ := readsList_text hsimple hl fuel (by omega) rest
    obtain ⟨f', hf'⟩ := hf.head
    refine ⟨t, t' :: ts', _, rfl, by rw [append_assoc, append_assoc, hfirst], hl.starts _, ?_, fun n hn => ?_⟩
    · simp only [hf', length_append, length_cons]
      omega
    · cases n with
      | zero => omega
      | succ n =>
        rw [filterlistLoop, if_neg (append_ne_nil_of_right_ne_nil _ (cons_ne_nil _ _)), hnext]
        dsimp only
        rw [skipSpace_of_starts hq, hloop n (by omega)]

end

variable {t : ParseTree} {filtertype : FilterType} {name : Text}

/-- Behind a filter of the grammar there is nothing left but white space. -/
theorem ldbParseFilter_whole (hsimple : ∀ c t, simple c t → ReadsSimple c t) {f w : Text}
    (hf : FilterText simple f t) (hw : Blank w) : ldbParseFilter (f ++ w).length (f ++ w) = (some t, []) := by
  rw [ldbParseFilter_text hsimple hf _ (by rw [length_append]; omega) w]
  have := skipSpace_append hw (s := []) (fun c hc => (nomatch hc))
  rw [append_nil] at this
  rw [this]

theorem ldbParseTree_filter {s : Text} (h : s.head? = some (chr '(')) : ldbParseTree s = (ldbParseFilter s.length s).1 := by
  obtain ⟨s', rfl⟩ := List.head?_eq_some_iff.mp h
  rw [ldbParseTree, if_neg (cons_ne_nil _ _), skipSpace_of_starts (starts_cons (by decide))]
  exact if_pos rfl

/-! ## Every simple filter is read -/

theorem AttrName.head {a : Text} (h : AttrName a) {d : UInt8} (hd : a.head? = some d) :
    isSpace d = false ∧ d ∉ "&|!()".toList.map chr := by
  obtain ⟨at_, nm, rfl, hat, hnm⟩ := h
  rcases hat with rfl | rfl
  · have hspec := attrChar_spec d (hnm d (mem_of_head? hd))
    exact ⟨hspec.2.2.1, fun hmem => hspec.2.2.2 (mem_append_left ("=<>~".toList.map chr) hmem)⟩
  · cases hd
    decide

theorem ScannedName.head (h : ScannedName filtertype name) {d : UInt8}
    (hd : name.head? = some d) : isSpace d = false ∧ d ∉ "&|!()".toList.map chr := by
  unfold ScannedName at h
  split at h
  case isFalse => exact h.head hd
  case isTrue =>
    obtain ⟨a, x, rfl, ha, -⟩ := h
    cases a with
    | nil =>
      cases hd
      decide
    | cons c a => exact ha.head hd

theorem readsSimple_text {w₁ w₂ v w₃ : Text} (hname : ScannedName filtertype name)
    (hw₁ : Blank w₁) (hext : filtertype = .extended → w₁ = []) (hempty : name = [] → w₁ = []) (hw₂ : Blank w₂)
    (hv : ScannedValue v) (hw₃ : Blank w₃) (ht : simpleTree filtertype name v = some t) :
    ReadsSimple (name ++ (w₁ ++ (operatorText filtertype ++ (w₂ ++ (v ++ w₃))))) t where
  head := by
    cases name with
    | nil =>
      rw [hempty rfl]
      cases filtertype <;> exact ⟨_, _, rfl, by decide, by decide⟩
    | cons d name => exact ⟨d, _, rfl, hname.head rfl⟩
  reads := by
    intro rest
    have := @ldbParseFiltertype_text _ _ _ _ _ _ rest hname hw₁ hext hw₂ hv hw₃
    simp only [append_assoc]
    rw [ldbParseSimple, this]
    dsimp only
    rw [ht]

theorem Oid.assign {o : Text} (h : Oid o) : chr '=' ∉ o := by
  intro hmem
  rcases h.2 _ hmem with h | h
  · exact absurd h (by decide)
  · exact absurd h (by decide)

theorem not_assign_infix {x : Text} (h : chr '=' ∉ x) : ¬ [chr ':', chr '='] <:+: x :=
  fun hx => h (hx.subset (by simp))

theorem scannedName_extended {a x : Text} (ha : AttrName a) (hx : chr '=' ∉ x) : ScannedName .extended (a ++ chr ':' :: x) := by
  rw [ScannedName, if_pos rfl]
  refine ⟨a, x, rfl, ha, not_assign_infix fun h => ?_⟩
  rcases mem_cons.mp h with h | h
  · exact absurd h (by decide)
  · exact hx h

theorem NameText.scanned (h : NameText filtertype name) : ScannedName filtertype name ∧ name ≠ [] := by
  cases h with
  | attr hft ha hne => exact ⟨by rwa [ScannedName, if_neg hft], hne⟩
  | oid ha hne ho => exact ⟨scannedName_extended ha ho.assign, by simp⟩
  | dnOid ha ho =>
    refine ⟨scannedName_extended ha fun h => ?_, by simp⟩
    rcases mem_append.mp h with h | h
    · exact absurd h (by decide)
    · exact ho.assign h
  | dn ha hne => exact ⟨scannedName_extended ha (by decide), by simp⟩

theorem ValueText.scanned {v : Text} (h : ValueText v) : ScannedValue v := ⟨h.unclosed, h.trimmed, h.escaped.last⟩

theorem SimpleText.reads {c : Text} (h : SimpleText c t) : ReadsSimple c t := by
  cases h with
  | intro hname hw₁ hext hw₂ hv hw₃ ht =>
    exact readsSimple_text hname.scanned.1 hw₁ hext (fun h => absurd h hname.scanned.2) hw₂ hv.scanned hw₃ ht

end Samba.Ldb
