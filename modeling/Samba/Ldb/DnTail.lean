/-
Tails of DN strings. Where the parser of a string comes to the start of a component, what is left of the string is the
string of the components that follow: a parser that starts there reads the same components.
-/
import Samba.Ldb.DnText

namespace Samba.Ldb

open CString Option

namespace ExplodeState

/-! ## Where the parser comes to -/

/-- The loop comes to a state with the rest of the string. -/
inductive Reaches : ExplodeState → Text → ExplodeState → Text → Prop
  | here (st : ExplodeState) (s : Text) : Reaches st s st s
  | next {st st₁ st' : ExplodeState} {c : UInt8} {rest s : Text} (hstep : st.step c rest = .ok (st₁, false))
      (h : Reaches (st₁.advance c) rest st' s) : Reaches st (c :: rest) st' s
  | skip {st st₁ st' : ExplodeState} {c c' : UInt8} {rest s : Text} (hstep : st.step c (c' :: rest) = .ok (st₁, true))
      (h : Reaches ((st₁.advance c).advance c') rest st' s) : Reaches st (c :: c' :: rest) st' s

theorem Reaches.run_eq {st st' : ExplodeState} {s s' : Text} (h : Reaches st s st' s') : run st s = run st' s' := by
  induction h with
  | here st s => rfl
  | next hstep h ih => rw [run, hstep]; exact ih
  | skip hstep h ih => rw [run, hstep]; exact ih

/-- A run that succeeds comes to the end of the string. -/
theorem reaches_of_run {s : Text} {st st' : ExplodeState} (h : run st s = .ok st') : Reaches st s st' [] := by
  induction hn : s.length using Nat.strong_induction_on generalizing s st with
  | _ n ih =>
    cases s with
    | nil =>
      cases h
      exact .here _ []
    | cons c rest =>
      rw [run] at h
      cases hs : st.step c rest with
      | error e =>
        rw [hs] at h
        cases h
      | ok res =>
        obtain ⟨st₁, skip⟩ := res
        rw [hs] at h
        rw [List.length_cons] at hn
        cases skip with
        | false => exact .next hs (@ih rest.length (by omega) rest (st₁.advance c) h rfl)
        | true =>
          cases rest with
          | nil => cases h
          | cons c' rest =>
            rw [List.length_cons] at hn
            exact .skip hs (@ih rest.length (by omega) rest ((st₁.advance c).advance c') h rfl)

/-- The spaces at the end are behind the parser. -/
def TBefore (st : ExplodeState) : Prop := ∀ t, st.t = some t → t < st.p

theorem TBefore.step {st st' : ExplodeState} {c : UInt8} {rest : Text} {skip : Bool} (h : st.TBefore)
    (hstep : st.step c rest = .ok (st', skip)) : (st'.advance c).TBefore := by
  have hkeep : ∀ {st₁ : ExplodeState}, st₁.p = st.p → st₁.t = st.t → (st₁.advance c).TBefore := by
    intro st₁ hp ht t heq
    have := h t (ht.symm.trans heq)
    show t < st₁.p + 1
    omega
  cases step_iff.mp hstep with
  | attr _ ha => cases ha <;> exact hkeep rfl rfl
  | plain _ _ _ hp =>
    cases hp with
    | space =>
      intro t heq
      have heq' : some (st.t.getD st.p) = some t := heq
      show t < st.p + 1
      cases hst : st.t with
      | none =>
        rw [hst, getD_none, Option.some.injEq] at heq'
        omega
      | some t' =>
        rw [hst, getD_some, Option.some.injEq] at heq'
        have := h t' hst
        omega
    | reserved => exact fun t heq => nomatch (show none = some t from heq)
    | hex => exact fun t heq => nomatch (show none = some t from heq)
    | char => exact fun t heq => nomatch (show none = some t from heq)
    | _ => exact hkeep rfl rfl
  | _ => exact hkeep rfl rfl

theorem TBefore.advance {st : ExplodeState} (h : st.TBefore) (c : UInt8) : (st.advance c).TBefore := fun t heq =>
  Nat.lt_succ_of_lt (h t heq)

theorem Reaches.tBefore {st st' : ExplodeState} {s s' : Text} (hr : Reaches st s st' s') (h : st.TBefore) : st'.TBefore := by
  induction hr with
  | here => exact h
  | next hstep _ ih => exact ih (h.step hstep)
  | skip hstep _ ih => exact ih ((h.step hstep).advance _)

/-! ## A parser that starts later -/

/-- The spaces that the parser remembers are not those at the end of the value. -/
def Stale (st : ExplodeState) : Prop := ∃ t, st.t = some t ∧ st.data.length < st.p - t

theorem Stale.value {st : ExplodeState} (h : st.Stale) : st.value = .error .undefined := by
  obtain ⟨t, ht, hlt⟩ := h
  unfold ExplodeState.value
  rw [ht]
  dsimp only
  rw [if_neg (by omega)]

/-- Two parsers remember the same number of characters since the first of the spaces at the end, if they are those of the
value. -/
structure SameTrail (st st₀ : ExplodeState) : Prop where
  before : st.TBefore
  before₀ : st₀.TBefore
  same : st.Stale ∨ st₀.t.map (st₀.p - ·) = st.t.map (st.p - ·)

section SameTrail

variable {st st₀ st' st₀' : ExplodeState}

theorem SameTrail.value (h : SameTrail st st₀) (hdata : st₀.data = st.data) {v : LdbVal} (hv : st.value = .ok v) :
    st₀.value = .ok v := by
  rcases h.same with hstale | hsame
  · rw [hstale.value] at hv
    cases hv
  · unfold ExplodeState.value at hv ⊢
    cases ht : st.t with
    | none =>
      rw [ht, map_none, map_eq_none_iff] at hsame
      rw [ht] at hv
      rw [hsame, hdata]
      exact hv
    | some t =>
      rw [ht, map_some, map_eq_some_iff] at hsame
      obtain ⟨t₀, ht₀, heq⟩ := hsame
      rw [ht] at hv
      rw [ht₀, hdata]
      dsimp only at hv ⊢
      rw [heq]
      exact hv

/-- Both parsers go on by a character that keeps what they remember. -/
theorem SameTrail.keep (h : SameTrail st st₀) (ht : st'.t = st.t) (ht₀ : st₀'.t = st₀.t) (hp : st'.p = st.p + 1)
    (hp₀ : st₀'.p = st₀.p + 1) (hdata : st'.data.length ≤ st.data.length + 1) : SameTrail st' st₀' := by
  refine ⟨fun t heq => ?_, fun t heq => ?_, ?_⟩
  · have := h.before t (ht.symm.trans heq)
    omega
  · have := h.before₀ t (ht₀.symm.trans heq)
    omega
  · rcases h.same with ⟨t, hst, hlt⟩ | hsame
    · have := h.before t hst
      exact .inl ⟨t, ht.trans hst, by omega⟩
    · right
      rw [ht, ht₀, hp, hp₀]
      cases hst : st.t with
      | none =>
        rw [hst, map_none, map_eq_none_iff] at hsame
        rw [hsame]
        rfl
      | some t =>
        rw [hst, map_some, map_eq_some_iff] at hsame
        obtain ⟨t₀, hst₀, heq⟩ := hsame
        have h1 := h.before t hst
        have h2 := h.before₀ t₀ hst₀
        rw [hst₀, map_some, map_some, Option.some.injEq]
        omega

theorem sameTrail_none (ht : st.t = none) (ht₀ : st₀.t = none) : SameTrail st st₀ := by
  refine ⟨fun t heq => ?_, fun t heq => ?_, .inr (by rw [ht, ht₀]; rfl)⟩
  · rw [ht] at heq
    cases heq
  · rw [ht₀] at heq
    cases heq

theorem SameTrail.space (h : SameTrail st st₀) (ht : st'.t = some (st.t.getD st.p)) (ht₀ : st₀'.t = some (st₀.t.getD st₀.p))
    (hp : st'.p = st.p + 1) (hp₀ : st₀'.p = st₀.p + 1) (hdata : st'.data.length ≤ st.data.length + 1) :
    SameTrail st' st₀' := by
  have hlt : ∀ {st st' : ExplodeState}, st.TBefore → st'.t = some (st.t.getD st.p) → st'.p = st.p + 1 → st'.TBefore := by
    intro st st' hb ht hp t heq
    rw [ht, Option.some.injEq] at heq
    cases hst : st.t with
    | none =>
      rw [hst, getD_none] at heq
      omega
    | some t' =>
      rw [hst, getD_some] at heq
      have := hb t' hst
      omega
  refine ⟨hlt h.before ht hp, hlt h.before₀ ht₀ hp₀, ?_⟩
  rcases h.same with ⟨t, hst, hlt'⟩ | hsame
  · have := h.before t hst
    rw [hst, getD_some] at ht
    exact .inl ⟨t, ht, by omega⟩
  · right
    rw [ht, ht₀, hp, hp₀]
    cases hst : st.t with
    | none =>
      rw [hst, map_none, map_eq_none_iff] at hsame
      rw [hsame]
      simp
    | some t =>
      rw [hst, map_some, map_eq_some_iff] at hsame
      obtain ⟨t₀, hst₀, heq⟩ := hsame
      have h1 := h.before t hst
      have h2 := h.before₀ t₀ hst₀
      rw [hst₀]
      simp only [getD_some, map_some, Option.some.injEq]
      omega

end SameTrail

/-- The parser `st₀` has started at a component that the parser `st` came to with the components `pre`. -/
structure Follows (pre : List DnComponent) (st st₀ : ExplodeState) : Prop where
  inAttr : st₀.inAttr = st.inAttr
  trim : st₀.trim = st.trim
  inQuote : st₀.inQuote = st.inQuote
  escape : st₀.escape = st.escape
  isOid : st₀.isOid = true → st.isOid = true
  prev : st.inAttr = false → st₀.prev = st.prev
  name : st.inAttr = false → st₀.name = st.name
  data : st₀.data = st.data
  components : st.components = pre ++ st₀.components
  trail : SameTrail st st₀

section Follows

variable {pre : List DnComponent} {st st₀ st' : ExplodeState} {c : UInt8} {rest : Text} {skip : Bool}

theorem Follows.attr (h : Follows pre st st₀) (hs : AttrSteps st c st') :
    ∃ st₀', AttrSteps st₀ c st₀' ∧ Follows pre (st'.advance c) (st₀'.advance c) := by
  cases hs with
  | blank htrim hc =>
    exact ⟨st₀, .blank (h.trim.trans htrim) hc, h.inAttr, h.trim, h.inQuote, h.escape, h.isOid, fun _ => rfl, h.name, h.data,
      h.components, h.trail.keep rfl rfl rfl rfl (Nat.le_succ _)⟩
  | digit htrim hc hascii hdigit =>
    refine ⟨_, .digit (h.trim.trans htrim) hc hascii hdigit, h.inAttr, rfl, h.inQuote, h.escape, fun _ => rfl, fun _ => rfl,
      h.name, ?_, h.components, h.trail.keep rfl rfl rfl rfl ?_⟩
    · exact congrArg (· ++ [c]) h.data
    · simp [put, advance]
  | letter htrim hc hascii hdigit halpha =>
    refine ⟨_, .letter (h.trim.trans htrim) hc hascii hdigit halpha, h.inAttr, rfl, h.inQuote, h.escape, h.isOid,
      fun _ => rfl, h.name, ?_, h.components, h.trail.keep rfl rfl rfl rfl ?_⟩
    · exact congrArg (· ++ [c]) h.data
    · simp [put, advance]
  | space htrim hc =>
    exact ⟨_, .space (h.trim.trans htrim) hc, h.inAttr, rfl, h.inQuote, h.escape, h.isOid, fun _ => rfl, h.name, h.data,
      h.components, h.trail.keep rfl rfl rfl rfl (Nat.le_succ _)⟩
  | equals htrim hsp hc =>
    exact ⟨_, .equals (h.trim.trans htrim) hsp hc, rfl, rfl, h.inQuote, h.escape, h.isOid, fun _ => rfl, fun _ => h.data,
      rfl, h.components, h.trail.keep rfl rfl rfl rfl (Nat.zero_le _)⟩
  | char htrim hsp heq hascii hoid hc =>
    have hoid₀ : (st₀.isOid && !(isDigit c || c = chr '.')) = false := by
      cases ho : st₀.isOid with
      | false => rfl
      | true => rwa [h.isOid ho] at hoid
    refine ⟨_, .char (h.trim.trans htrim) hsp heq hascii hoid₀ hc, h.inAttr, h.trim, h.inQuote, h.escape, h.isOid,
      fun _ => rfl, h.name, ?_, h.components, h.trail.keep rfl rfl rfl rfl ?_⟩
    · exact congrArg (· ++ [c]) h.data
    · simp [put, advance]

theorem Follows.plain (h : Follows pre st st₀) (hattr : st.inAttr = false) (hs : PlainSteps st c rest st' skip) :
    ∃ st₀', PlainSteps st₀ c rest st₀' skip ∧ Follows pre (st'.advance c) (st₀'.advance c) := by
  have hput : ∀ x : UInt8, st₀.data ++ [x] = st.data ++ [x] := fun x => congrArg (· ++ [x]) h.data
  cases hs with
  | escapedComma hc hesc =>
    refine ⟨_, .escapedComma hc (h.escape.trans hesc), h.inAttr, h.trim, h.inQuote, rfl, h.isOid, fun _ => rfl, h.name,
      hput c, h.components, h.trail.keep rfl rfl rfl rfl ?_⟩
    simp [put, advance]
  | comma hc hesc hv =>
    refine ⟨_, .comma hc (h.escape.trans hesc) (h.trail.value h.data hv), rfl, rfl, h.inQuote, h.escape, h.isOid,
      fun _ => rfl, fun ha => absurd ha.symm Bool.false_ne_true, rfl, ?_, h.trail.keep rfl rfl rfl rfl (Nat.zero_le _)⟩
    simp [advance, h.components, h.name hattr]
  | reserved hcomma hc hesc =>
    exact ⟨_, .reserved hcomma hc (h.escape.trans hesc), h.inAttr, h.trim, h.inQuote, rfl, h.isOid, fun _ => rfl, h.name,
      hput c, h.components, sameTrail_none rfl rfl⟩
  | backslash hc hesc =>
    exact ⟨_, .backslash hc (h.escape.trans hesc), h.inAttr, h.trim, h.inQuote, rfl, h.isOid, fun _ => rfl, h.name, h.data,
      h.components, h.trail.keep rfl rfl rfl rfl (Nat.le_succ _)⟩
  | hex hcomma hres hback hesc hx =>
    exact ⟨_, .hex hcomma hres hback (h.escape.trans hesc) hx, h.inAttr, h.trim, h.inQuote, rfl, h.isOid, fun _ => rfl,
      h.name, hput _, h.components, sameTrail_none rfl rfl⟩
  | space hc hesc =>
    refine ⟨_, .space hc (h.escape.trans hesc), h.inAttr, h.trim, h.inQuote, h.escape, h.isOid, fun _ => rfl, h.name, hput c,
      h.components, h.trail.space rfl rfl rfl rfl ?_⟩
    simp [put, advance]
  | char hcomma hres hback hsp hesc =>
    exact ⟨_, .char hcomma hres hback hsp (h.escape.trans hesc), h.inAttr, h.trim, h.inQuote, h.escape, h.isOid,
      fun _ => rfl, h.name, hput c, h.components, sameTrail_none rfl rfl⟩

theorem Follows.untrimmed (h : Follows pre st st₀) : Follows pre { st with trim := false } { st₀ with trim := false } :=
  ⟨h.inAttr, rfl, h.inQuote, h.escape, h.isOid, h.prev, h.name, h.data, h.components,
    h.trail.before, h.trail.before₀, h.trail.same⟩

theorem Follows.step (h : Follows pre st st₀) (hs : st.step c rest = .ok (st', skip)) :
    ∃ st₀', st₀.step c rest = .ok (st₀', skip) ∧ Follows pre (st'.advance c) (st₀'.advance c) := by
  cases step_iff.mp hs with
  | attr hattr ha =>
    obtain ⟨st₀', ha₀, hf⟩ := h.attr ha
    exact ⟨st₀', step_iff.mpr (.attr (h.inAttr.trans hattr) ha₀), hf⟩
  | quoteEnd hattr hquote hc =>
    refine ⟨_, step_iff.mpr (.quoteEnd (h.inAttr.trans hattr) (h.inQuote.trans hquote) ⟨hc.1, ?_⟩), h.inAttr, h.trim, rfl,
      h.escape, h.isOid, fun _ => rfl, h.name, h.data, h.components, h.trail.keep rfl rfl rfl rfl (Nat.le_succ _)⟩
    rw [h.prev hattr]
    exact hc.2
  | quoted hattr hquote hc =>
    refine ⟨_, step_iff.mpr (.quoted (h.inAttr.trans hattr) (h.inQuote.trans hquote) ?_), h.inAttr, h.trim, h.inQuote,
      h.escape, h.isOid, fun _ => rfl, h.name, congrArg (· ++ [c]) h.data, h.components, h.trail.keep rfl rfl rfl rfl ?_⟩
    · rw [h.prev hattr]
      exact hc
    · simp [put, advance]
  | blank hattr hquote htrim hc =>
    exact ⟨_, step_iff.mpr (.blank (h.inAttr.trans hattr) (h.inQuote.trans hquote) (h.trim.trans htrim) hc), h.inAttr, h.trim,
      h.inQuote, h.escape, h.isOid, fun _ => rfl, h.name, h.data, h.components,
      h.trail.keep rfl rfl rfl rfl (Nat.le_succ _)⟩
  | quoteStart hattr hquote htrim hc =>
    exact ⟨_, step_iff.mpr (.quoteStart (h.inAttr.trans hattr) (h.inQuote.trans hquote) (h.trim.trans htrim) hc), h.inAttr,
      rfl, rfl, h.escape, h.isOid, fun _ => rfl, h.name, h.data, h.components,
      h.trail.keep rfl rfl rfl rfl (Nat.le_succ _)⟩
  | plain hattr hquote hc hp =>
    obtain ⟨st₀', hp₀, hf⟩ := @Follows.plain pre { st with trim := false } { st₀ with trim := false } _ c rest skip
      h.untrimmed hattr hp
    exact ⟨st₀', step_iff.mpr (.plain (h.inAttr.trans hattr) (h.inQuote.trans hquote)
      (fun ht => hc (h.trim.symm.trans ht)) hp₀), hf⟩

theorem Follows.advance (h : Follows pre st st₀) (c : UInt8) : Follows pre (st.advance c) (st₀.advance c) :=
  ⟨h.inAttr, h.trim, h.inQuote, h.escape, h.isOid, fun _ => rfl, h.name, h.data, h.components,
    h.trail.keep rfl rfl rfl rfl (Nat.le_succ _)⟩

/-- The second parser reads what the first one does. -/
theorem Follows.run {s : Text} (h : Follows pre st st₀) (hr : run st s = .ok st') :
    ∃ st₀', ExplodeState.run st₀ s = .ok st₀' ∧ Follows pre st' st₀' := by
  induction hn : s.length using Nat.strong_induction_on generalizing s st st₀ with
  | _ n ih =>
    cases s with
    | nil =>
      cases hr
      exact ⟨st₀, rfl, h⟩
    | cons c rest =>
      rw [ExplodeState.run] at hr ⊢
      rw [List.length_cons] at hn
      cases hs : st.step c rest with
      | error e =>
        rw [hs] at hr
        cases hr
      | ok res =>
        obtain ⟨st₁, skip⟩ := res
        obtain ⟨st₂, hs₀, hf⟩ := h.step hs
        rw [hs] at hr
        rw [hs₀]
        cases skip with
        | false => exact ih rest.length (by omega) hf hr rfl
        | true =>
          cases rest with
          | nil => cases hr
          | cons c' rest =>
            rw [List.length_cons] at hn
            exact ih rest.length (by omega) (hf.advance c') hr rfl

theorem Follows.finish (h : Follows pre st st₀) {comps : List DnComponent} (hfin : st.finish = .ok comps) :
    ∃ comps₀, st₀.finish = .ok comps₀ ∧ comps = pre ++ comps₀ := by
  unfold ExplodeState.finish at hfin ⊢
  rw [h.inAttr, h.inQuote]
  split at hfin
  case isTrue => cases hfin
  case isFalse hval =>
    have hattr : st.inAttr = false := by
      rw [Bool.or_eq_true, not_or, Bool.not_eq_true] at hval
      exact hval.1
    rw [if_neg hval]
    unfold save at hfin ⊢
    cases hv : st.value with
    | error e =>
      rw [hv] at hfin
      cases hfin
    | ok v =>
      rw [hv] at hfin
      rw [h.trail.value h.data hv]
      cases hfin
      refine ⟨_, rfl, ?_⟩
      simp [h.components, h.name hattr]

end Follows

/-- Inside of a name there are neither quotes nor escapes. -/
def Quiet (st : ExplodeState) : Prop := st.inAttr = true → st.inQuote = false ∧ st.escape = false

theorem Quiet.step {st st' : ExplodeState} {c : UInt8} {rest : Text} {skip : Bool} (h : st.Quiet)
    (hs : st.step c rest = .ok (st', skip)) : (st'.advance c).Quiet := by
  cases step_iff.mp hs with
  | attr _ ha =>
    cases ha with
    | equals => exact fun ht => nomatch ht
    | _ => exact h
  | plain hattr hquote _ hp =>
    cases hp with
    | comma _ hesc _ => exact fun _ => ⟨hquote, hesc⟩
    | _ => exact fun ht => absurd (hattr.symm.trans ht) (by decide)
  | quoteEnd hattr => exact fun ht => absurd (hattr.symm.trans ht) (by decide)
  | quoted hattr => exact fun ht => absurd (hattr.symm.trans ht) (by decide)
  | blank hattr => exact fun ht => absurd (hattr.symm.trans ht) (by decide)
  | quoteStart hattr => exact fun ht => absurd (hattr.symm.trans ht) (by decide)

/-- The parser of a string is at the start of a component where the tail of the string begins. -/
def Boundary (s tail : Text) : Prop :=
  ∃ st, Reaches {} s st tail ∧ st.inAttr = true ∧ st.trim = true ∧ st.data = []

end ExplodeState

open ExplodeState

end Samba.Ldb
