/-
Tails of DN strings that begin inside of a name. The parser of the whole string reads the same values and components as one
that starts with the tail, but for the name of the first of them, which is longer.
-/
import Samba.Ldb.DnTail

namespace Samba.Ldb

open CString List

namespace ExplodeState

/-! ## Components and where they begin -/

end ExplodeState

open ExplodeState

namespace ExplodeState

/-! ## Parsers with different names -/

/-- What a step makes of another name and other components. -/
inductive Grafts (st st' : ExplodeState) (name : Text) (comps : List DnComponent) : Text → List DnComponent → Prop
  | keep (hname : st'.name = st.name) (hattr : st'.inAttr = st.inAttr) (hcomps : st'.components = st.components) :
      Grafts st st' name comps name comps
  | equals (hattr : st.inAttr = true) (hcomps : st'.components = st.components) : Grafts st st' name comps st'.name comps
  | comma {v : LdbVal} (hattr : st.inAttr = false) (hattr' : st'.inAttr = true)
      (hcomps : st'.components = st.components ++ [⟨st.name, v, none⟩]) :
      Grafts st st' name comps name (comps ++ [⟨name, v, none⟩])

/-- The steps of the parser do not depend on the name and the components. -/
theorem step_graft {st st' : ExplodeState} {c : UInt8} {rest : Text} {skip : Bool} (h : st.step c rest = .ok (st', skip))
    (name : Text) (comps : List DnComponent) :
    ∃ name' comps', Grafts st st' name comps name' comps' ∧
      ExplodeState.step { st with name := name, components := comps } c rest =
        .ok ({ st' with name := name', components := comps' }, skip) := by
  cases step_iff.mp h with
  | attr hattr ha =>
    cases ha with
    | blank htrim hc => exact ⟨_, _, .keep rfl rfl rfl, step_iff.mpr (.attr hattr (.blank htrim hc))⟩
    | digit htrim hc hascii hdigit =>
      exact ⟨_, _, .keep rfl rfl rfl, step_iff.mpr (.attr hattr (.digit htrim hc hascii hdigit))⟩
    | letter htrim hc hascii hdigit halpha =>
      exact ⟨_, _, .keep rfl rfl rfl, step_iff.mpr (.attr hattr (.letter htrim hc hascii hdigit halpha))⟩
    | space htrim hc => exact ⟨_, _, .keep rfl rfl rfl, step_iff.mpr (.attr hattr (.space htrim hc))⟩
    | equals htrim hsp hc => exact ⟨_, _, .equals hattr rfl, step_iff.mpr (.attr hattr (.equals htrim hsp hc))⟩
    | char htrim hsp heq hascii hoid hc =>
      exact ⟨_, _, .keep rfl rfl rfl, step_iff.mpr (.attr hattr (.char htrim hsp heq hascii hoid hc))⟩
  | quoteEnd hattr hquote hc => exact ⟨_, _, .keep rfl rfl rfl, step_iff.mpr (.quoteEnd hattr hquote hc)⟩
  | quoted hattr hquote hc => exact ⟨_, _, .keep rfl rfl rfl, step_iff.mpr (.quoted hattr hquote hc)⟩
  | blank hattr hquote htrim hc => exact ⟨_, _, .keep rfl rfl rfl, step_iff.mpr (.blank hattr hquote htrim hc)⟩
  | quoteStart hattr hquote htrim hc => exact ⟨_, _, .keep rfl rfl rfl, step_iff.mpr (.quoteStart hattr hquote htrim hc)⟩
  | plain hattr hquote hc hp =>
    cases hp with
    | escapedComma hcomma hesc =>
      exact ⟨_, _, .keep rfl rfl rfl, step_iff.mpr (.plain hattr hquote hc (.escapedComma hcomma hesc))⟩
    | comma hcomma hesc hv =>
      exact ⟨_, _, .comma hattr rfl rfl, step_iff.mpr (.plain hattr hquote hc (.comma hcomma hesc hv))⟩
    | reserved hcomma hres hesc =>
      exact ⟨_, _, .keep rfl rfl rfl, step_iff.mpr (.plain hattr hquote hc (.reserved hcomma hres hesc))⟩
    | backslash hback hesc => exact ⟨_, _, .keep rfl rfl rfl, step_iff.mpr (.plain hattr hquote hc (.backslash hback hesc))⟩
    | hex hcomma hres hback hesc hx =>
      exact ⟨_, _, .keep rfl rfl rfl, step_iff.mpr (.plain hattr hquote hc (.hex hcomma hres hback hesc hx))⟩
    | space hsp hesc => exact ⟨_, _, .keep rfl rfl rfl, step_iff.mpr (.plain hattr hquote hc (.space hsp hesc))⟩
    | char hcomma hres hback hsp hesc =>
      exact ⟨_, _, .keep rfl rfl rfl, step_iff.mpr (.plain hattr hquote hc (.char hcomma hres hback hsp hesc))⟩

/-- Two parsers that differ in the name of the component behind `pre` only, which is still being read or has been saved. -/
inductive Renamed (pre : List DnComponent) (n n' : Text) (st : ExplodeState) : ExplodeState → Prop
  | reading (hattr : st.inAttr = false) (hname : st.name = n) (hcomps : st.components = pre) :
      Renamed pre n n' st { st with name := n', components := pre }
  | saved {v : LdbVal} {rest : List DnComponent} {name : Text} (hname : st.inAttr = false → name = st.name)
      (hcomps : st.components = pre ++ ⟨n, v, none⟩ :: rest) :
      Renamed pre n n' st { st with name := name, components := pre ++ ⟨n', v, none⟩ :: rest }

variable {pre : List DnComponent} {n n' : Text} {st st₀ st' : ExplodeState}

theorem Renamed.advance (h : Renamed pre n n' st st₀) (c : UInt8) : Renamed pre n n' (st.advance c) (st₀.advance c) := by
  cases h with
  | reading hattr hname hcomps => exact @Renamed.reading pre n n' (st.advance c) hattr hname hcomps
  | saved hname hcomps => exact @Renamed.saved pre n n' (st.advance c) _ _ _ hname hcomps

theorem Renamed.step {c : UInt8} {rest : Text} {skip : Bool} (h : Renamed pre n n' st st₀)
    (hs : st.step c rest = .ok (st', skip)) :
    ∃ st₀', st₀.step c rest = .ok (st₀', skip) ∧ Renamed pre n n' st' st₀' := by
  cases h with
  | reading hattr hname hcomps =>
    obtain ⟨_, _, hg, hstep⟩ := step_graft hs n' pre
    refine ⟨_, hstep, ?_⟩
    cases hg with
    | keep hname' hattr' hcomps' => exact .reading (hattr'.trans hattr) (hname'.trans hname) (hcomps'.trans hcomps)
    | equals hattr' => exact absurd (hattr.symm.trans hattr') Bool.false_ne_true
    | comma _ hattr' hcomps' =>
      exact .saved (fun ha => absurd (ha.symm.trans hattr') Bool.false_ne_true)
        (show _ = pre ++ ⟨n, _, none⟩ :: [] by rw [hcomps', hcomps, hname])
  | @saved v saved name hname hcomps =>
    obtain ⟨_, _, hg, hstep⟩ := step_graft hs name (pre ++ ⟨n', v, none⟩ :: saved)
    refine ⟨_, hstep, ?_⟩
    cases hg with
    | keep hname' hattr' hcomps' =>
      exact .saved (fun ha => (hname (hattr'.symm.trans ha)).trans hname'.symm) (hcomps'.trans hcomps)
    | equals _ hcomps' => exact .saved (fun _ => rfl) (hcomps'.trans hcomps)
    | @comma w hattr hattr' hcomps' =>
      rw [append_assoc, cons_append, hname hattr]
      refine .saved (fun ha => absurd (ha.symm.trans hattr') Bool.false_ne_true) ?_
      rw [hcomps', hcomps, append_assoc, cons_append]

theorem Renamed.run {s : Text} (h : Renamed pre n n' st st₀) (hr : run st s = .ok st') :
    ∃ st₀', ExplodeState.run st₀ s = .ok st₀' ∧ Renamed pre n n' st' st₀' := by
  induction hn : s.length using Nat.strong_induction_on generalizing s st st₀ with
  | _ k ih =>
    cases s with
    | nil =>
      cases hr
      exact ⟨st₀, rfl, h⟩
    | cons c rest =>
      rw [ExplodeState.run] at hr ⊢
      rw [length_cons] at hn
      cases hs : st.step c rest with
      | error e =>
        rw [hs] at hr
        cases hr
      | ok res =>
        obtain ⟨st₁, skip⟩ := res
        obtain ⟨st₂, hs₀, hg⟩ := h.step hs
        rw [hs] at hr
        rw [hs₀]
        cases skip with
        | false => exact ih rest.length (by omega) (hg.advance c) hr rfl
        | true =>
          cases rest with
          | nil => cases hr
          | cons c' rest =>
            rw [length_cons] at hn
            exact ih rest.length (by omega) ((hg.advance c).advance c') hr rfl

/-- At the end the components differ in this name. -/
theorem Renamed.finish (h : Renamed pre n n' st st₀) {comps : List DnComponent} (hfin : st.finish = .ok comps) :
    ∃ v rest, comps = pre ++ ⟨n, v, none⟩ :: rest ∧ st₀.finish = .ok (pre ++ ⟨n', v, none⟩ :: rest) := by
  unfold ExplodeState.finish at hfin
  split at hfin
  case isTrue => cases hfin
  case isFalse hval =>
    have hattr : st.inAttr = false := by
      rw [Bool.or_eq_true, not_or, Bool.not_eq_true] at hval
      exact hval.1
    unfold save at hfin
    cases hv : st.value with
    | error e =>
      rw [hv] at hfin
      cases hfin
    | ok v =>
      rw [hv] at hfin
      cases hfin
      cases h with
      | reading _ hname hcomps =>
        refine ⟨v, [], by simp [hname, hcomps], ?_⟩
        have hval' : ({ st with name := n', components := pre } : ExplodeState).value = .ok v := hv
        unfold ExplodeState.finish save
        rw [if_neg hval, hval']
        rfl
      | @saved w rest name hname hcomps =>
        refine ⟨w, rest ++ [⟨st.name, v, none⟩], by simp [hcomps], ?_⟩
        have hval' : ({ st with name := name, components := pre ++ ⟨n', w, none⟩ :: rest } : ExplodeState).value = .ok v := hv
        unfold ExplodeState.finish save
        rw [if_neg hval, hval', hname hattr]
        simp [Except.map, bind, Except.bind, pure, Except.pure]

/-! ## The rest of a name -/

/-- Two parsers in the same name, of which one has read `d` before the other has started. -/
structure Beside (d : Text) (st st₀ : ExplodeState) : Prop where
  attr : st.inAttr = true
  attr₀ : st₀.inAttr = true
  data : st.data = d ++ st₀.data
  trim : st₀.data ≠ [] → st₀.trim = st.trim
  trim₀ : st₀.data = [] → st₀.trim = true

variable {d : Text} {st₁ st₂ : ExplodeState} {c : UInt8}

theorem Beside.put (h : Beside d st st₀) (hattr : st₁.inAttr = st.inAttr) (hattr₀ : st₂.inAttr = st₀.inAttr)
    (hdata : st₁.data = st.data ++ [c]) (hdata₀ : st₂.data = st₀.data ++ [c]) (htrim : st₁.trim = st₂.trim) :
    Beside d st₁ st₂ where
  attr := hattr.trans h.attr
  attr₀ := hattr₀.trans h.attr₀
  data := by rw [hdata, hdata₀, h.data, append_assoc]
  trim _ := htrim.symm
  trim₀ hnil := by rw [hdata₀] at hnil; exact absurd hnil (append_ne_nil_of_right_ne_nil _ (cons_ne_nil _ _))

/-- Both parsers go on in the name, or come to its end. -/
theorem Beside.step (h : Beside d st st₀) (ha : AttrSteps st c st₁) (ha₀ : AttrSteps st₀ c st₂) :
    Beside d (st₁.advance c) (st₂.advance c) ∨
      st₁ = { st with inAttr := false, trim := true, name := st.data, data := [] } ∧
        st₂ = { st₀ with inAttr := false, trim := true, name := st₀.data, data := [] } := by
  have hequals : isDigit (chr '=') = false ∧ isAlpha (chr '=') = false := by decide
  cases ha₀ with
  | blank htrim₀ hc =>
    left
    cases ha with
    | blank _ _ => exact ⟨h.attr, h.attr₀, h.data, h.trim, h.trim₀⟩
    | space _ _ => exact ⟨h.attr, h.attr₀, h.data, fun _ => htrim₀, h.trim₀⟩
    | digit _ hne | letter _ hne | equals _ hne | char _ hne => exact absurd hc hne
  | space _ hc =>
    left
    cases ha with
    | blank htrim _ => exact ⟨h.attr, h.attr₀, h.data, fun _ => htrim.symm, fun _ => rfl⟩
    | space _ _ => exact ⟨h.attr, h.attr₀, h.data, fun _ => rfl, fun _ => rfl⟩
    | digit _ hne | letter _ hne | equals _ hne | char _ hne => exact absurd hc hne
  | equals _ hne hc =>
    cases ha with
    | blank _ hsp | space _ hsp => exact absurd hsp hne
    | digit _ _ _ hdigit =>
      rw [hc, hequals.1] at hdigit
      cases hdigit
    | letter _ _ _ _ halpha =>
      rw [hc, hequals.2] at halpha
      cases halpha
    | equals => exact .inr ⟨rfl, rfl⟩
    | char _ _ heq => exact absurd hc heq
  | digit _ hne _ hdigit₀ =>
    left
    cases ha with
    | blank _ hsp | space _ hsp => exact absurd hsp hne
    | digit | letter => exact h.put rfl rfl rfl rfl rfl
    | equals _ _ hc =>
      rw [hc, hequals.1] at hdigit₀
      cases hdigit₀
    | char htrim => exact h.put rfl rfl rfl rfl htrim
  | letter _ hne _ _ halpha₀ =>
    left
    cases ha with
    | blank _ hsp | space _ hsp => exact absurd hsp hne
    | digit | letter => exact h.put rfl rfl rfl rfl rfl
    | equals _ _ hc =>
      rw [hc, hequals.2] at halpha₀
      cases halpha₀
    | char htrim => exact h.put rfl rfl rfl rfl htrim
  | char htrim₀ hne heq =>
    left
    cases ha with
    | blank _ hsp | space _ hsp => exact absurd hsp hne
    | digit | letter => exact h.put rfl rfl rfl rfl htrim₀.symm
    | equals _ _ hc => exact absurd hc heq
    | char htrim => exact h.put rfl rfl rfl rfl (htrim.trans htrim₀.symm)

/-- What steps inside of a name leave alone. -/
structure Kept (st st' : ExplodeState) : Prop where
  components : st'.components = st.components
  inQuote : st'.inQuote = st.inQuote
  escape : st'.escape = st.escape
  t : st'.t = st.t

theorem Kept.of_attr (ha : AttrSteps st c st') : Kept st (st'.advance c) := by
  cases ha <;> exact ⟨rfl, rfl, rfl, rfl⟩

theorem Kept.trans {st₃ : ExplodeState} (h : Kept st st') (h' : Kept st' st₃) : Kept st st₃ :=
  ⟨h'.components.trans h.components, h'.inQuote.trans h.inQuote, h'.escape.trans h.escape, h'.t.trans h.t⟩

theorem attr_of_step {rest : Text} {skip : Bool} (hattr : st.inAttr = true) (hs : st.step c rest = .ok (st', skip)) :
    skip = false ∧ AttrSteps st c st' := by
  cases step_iff.mp hs with
  | attr _ ha => exact ⟨rfl, ha⟩
  | quoteEnd hval | quoted hval | blank hval | quoteStart hval | plain hval =>
    exact absurd (hval.symm.trans hattr) Bool.false_ne_true

/-- Both parsers at the start of a value, behind the name. -/
structure Named (d : Text) (st st₀ : ExplodeState) : Prop where
  attr : st.inAttr = false
  attr₀ : st₀.inAttr = false
  name : st.name = d ++ st₀.name
  data : st.data = []
  data₀ : st₀.data = []
  trim : st₀.trim = st.trim
  prev : st₀.prev = st.prev

theorem Beside.run {s : Text} {st' st₀' : ExplodeState} (h : Beside d st st₀) (hr : run st s = .ok st')
    (hr₀ : ExplodeState.run st₀ s = .ok st₀') (hend : st₀'.inAttr = false) :
    ∃ st₁ st₂ rest, Reaches st s st₁ rest ∧ Reaches st₀ s st₂ rest ∧ Named d st₁ st₂ ∧ Kept st st₁ ∧ Kept st₀ st₂ := by
  induction s generalizing st st₀ with
  | nil =>
    cases hr₀
    exact absurd (hend.symm.trans h.attr₀) Bool.false_ne_true
  | cons c rest ih =>
    rw [ExplodeState.run] at hr hr₀
    cases hs : st.step c rest with
    | error e =>
      rw [hs] at hr
      cases hr
    | ok res =>
      cases hs₀ : st₀.step c rest with
      | error e =>
        rw [hs₀] at hr₀
        cases hr₀
      | ok res₀ =>
        obtain ⟨st₁, skip⟩ := res
        obtain ⟨st₂, skip₀⟩ := res₀
        rw [hs] at hr
        rw [hs₀] at hr₀
        obtain ⟨rfl, ha⟩ := attr_of_step h.attr hs
        obtain ⟨rfl, ha₀⟩ := attr_of_step h.attr₀ hs₀
        rcases h.step ha ha₀ with hbeside | ⟨hst₁, hst₂⟩
        · obtain ⟨st₃, st₄, rest', hreach, hreach₀, hnamed, hkept, hkept₀⟩ := ih hbeside hr hr₀
          exact ⟨st₃, st₄, rest', .next hs hreach, .next hs₀ hreach₀, hnamed, (Kept.of_attr ha).trans hkept,
            (Kept.of_attr ha₀).trans hkept₀⟩
        · refine ⟨st₁.advance c, st₂.advance c, rest, .next hs (.here _ _), .next hs₀ (.here _ _), ?_, .of_attr ha,
            .of_attr ha₀⟩
          rw [hst₁, hst₂]
          exact ⟨rfl, rfl, h.data, rfl, rfl, rfl, rfl⟩

end ExplodeState

end Samba.Ldb
