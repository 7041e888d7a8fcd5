/-
Comparing DNs. On casefolded components a comparison is the one of the lists, up to NULs in values. The comparison of
strings that is tried first answers the same for `ldb_dn_compare`; for `ldb_dn_compare_base` it does so where a string of
the base that ends the other one begins with a component of it, and a longer one is no spelling of its end.
-/
import Mathlib.Data.List.Forall2
import Samba.Ldb.DnMiddle

namespace Samba.Ldb

open CString ExplodeState List

/-- The names and values of components. -/
def pairs (comps : List DnComponent) : List (Text × LdbVal) := comps.map fun comp => (comp.name, comp.value)

variable {α β : Type}

theorem mapM_some_iff {f : α → Option β} {xs : List α} {ys : List β} :
    xs.mapM f = some ys ↔ List.Forall₂ (fun x y => f x = some y) xs ys := by
  induction xs generalizing ys with
  | nil =>
    rw [mapM_nil, forall₂_nil_left_iff]
    exact ⟨fun h => (Option.some.inj h).symm, fun h => by rw [h]; rfl⟩
  | cons x xs ih =>
    rw [mapM_cons, forall₂_cons_left_iff]
    constructor
    · intro h
      cases hx : f x with
      | none =>
        rw [hx] at h
        cases h
      | some y =>
        cases hxs : xs.mapM f with
        | none =>
          rw [hx, hxs] at h
          cases h
        | some zs =>
          rw [hx, hxs] at h
          cases h
          exact ⟨y, zs, rfl, ih.mp hxs, rfl⟩
    · rintro ⟨y, zs, hx, hzs, rfl⟩
      rw [hx, ih.mpr hzs]
      rfl

theorem exists_of_mapM {f : α → Option β} {xs : List α} {ys : List β} (h : xs.mapM f = some ys) {x : α}
    (hx : x ∈ xs) : ∃ y ∈ ys, f x = some y := by
  rw [mapM_some_iff] at h
  induction h with
  | nil => cases hx
  | @cons x' y' _ _ hxy _ ih =>
    rcases mem_cons.mp hx with rfl | hmem
    · exact ⟨y', mem_cons_self, hxy⟩
    · obtain ⟨y, hy, heq⟩ := ih hmem
      exact ⟨y, mem_cons_of_mem _ hy, heq⟩

theorem mem_of_mapM {f : α → Option β} {xs : List α} {ys : List β} (h : xs.mapM f = some ys) {y : β}
    (hy : y ∈ ys) : ∃ x ∈ xs, f x = some y := by
  rw [mapM_some_iff] at h
  induction h with
  | nil => cases hy
  | cons hxy _ ih =>
    rcases mem_cons.mp hy with rfl | hmem
    · exact ⟨_, mem_cons_self, hxy⟩
    · obtain ⟨x, hx, hfx⟩ := ih hmem
      exact ⟨x, mem_cons_of_mem _ hx, hfx⟩

section Schema

variable (canonicalise : Text → LdbVal → Option LdbVal)

/-- The casefolded forms of names and values. -/
def casefoldPairs (comps : List (Text × LdbVal)) : Option (List (Text × LdbVal)) :=
  comps.mapM fun comp => (canonicalise (ldbAttrCasefold comp.1) comp.2).map fun v => (ldbAttrCasefold comp.1, v)

/-- The components of a string that is not special. -/
def explodeText (s : Text) : Except DnError (List DnComponent) := if s = [] then .ok [] else explode s

/-- A valid DN that is not special, in any state of what is filled in, and its components. -/
structure DnOk (dn : LdbDn) (comps : List (Text × LdbVal)) : Prop where
  special : dn.special = false
  valid : dn.invalid = false
  text : ∀ s, dn.linearized = some s → ∃ cs, explodeText s = .ok cs ∧ pairs cs = comps
  parts : ∀ cs, dn.components = some cs → pairs cs = comps
  known : dn.linearized = none → dn.components ≠ none
  folded : dn.validCase = true →
    ∃ l, casefoldPairs canonicalise comps = some l ∧ (dn.components.getD []).mapM DnComponent.cf = some l

variable {canonicalise} {dn base dn₀ dn₁ : LdbDn} {comps bs ds : List (Text × LdbVal)} {l fb fd : List (Text × LdbVal)}

/-! ## Casefolding -/

variable {cs : List DnComponent} {s : Text}

theorem casefoldComponents (h : casefoldPairs canonicalise (pairs cs) = some l) :
    ∃ cs', cs.mapM (casefoldComponent canonicalise) = some cs' ∧ pairs cs' = pairs cs ∧
      cs'.mapM DnComponent.cf = some l := by
  induction cs generalizing l with
  | nil =>
    refine ⟨[], rfl, rfl, ?_⟩
    exact h
  | cons comp cs ih =>
    unfold casefoldPairs pairs at h
    rw [map_cons, mapM_some_iff, forall₂_cons_left_iff] at h
    obtain ⟨y, ys, hy, hys, rfl⟩ := h
    obtain ⟨cs', hcs', hpairs, hcf⟩ := ih (mapM_some_iff.mpr hys)
    rw [Option.map_eq_some_iff] at hy
    obtain ⟨v, hv, rfl⟩ := hy
    refine ⟨{ comp with cf := some (ldbAttrCasefold comp.name, v) } :: cs', ?_, ?_, ?_⟩
    · have hv' : canonicalise (ldbAttrCasefold comp.name) comp.value = some v := hv
      have hc : casefoldComponent canonicalise comp = some { comp with cf := some (ldbAttrCasefold comp.name, v) } := by
        unfold casefoldComponent
        dsimp only
        rw [hv']
        rfl
      rw [mapM_cons, hc, hcs']
      rfl
    · unfold pairs at hpairs ⊢
      rw [map_cons, map_cons, hpairs]
    · rw [mapM_cons, hcf]
      rfl

/-- Components that were casefolded one by one. -/
theorem casefoldPairs_of_mapM {cs' : List DnComponent} (h : cs.mapM (casefoldComponent canonicalise) = some cs') :
    ∃ l, casefoldPairs canonicalise (pairs cs) = some l := by
  induction cs generalizing cs' with
  | nil => exact ⟨[], rfl⟩
  | cons comp cs ih =>
    rw [mapM_some_iff, forall₂_cons_left_iff] at h
    obtain ⟨comp', cs', hcomp, hcs, rfl⟩ := h
    obtain ⟨l, hl⟩ := ih (mapM_some_iff.mpr hcs)
    unfold casefoldComponent at hcomp
    cases hv : canonicalise (ldbAttrCasefold comp.name) comp.value with
    | none =>
      dsimp only at hcomp
      rw [hv] at hcomp
      cases hcomp
    | some v =>
      refine ⟨(ldbAttrCasefold comp.name, v) :: l, ?_⟩
      unfold casefoldPairs pairs at hl ⊢
      rw [map_cons, mapM_cons, hl]
      dsimp only
      rw [hv]
      rfl

/-- A valid DN whose casefolded forms are filled in. -/
structure Folded (dn : LdbDn) (l : List (Text × LdbVal)) : Prop where
  special : dn.special = false
  cf : (dn.components.getD []).mapM DnComponent.cf = some l

theorem Folded.compNum (h : Folded dn l) : dn.compNum = l.length := (mapM_some_iff.mp h.cf).length_eq

/-- A string that is not empty has a component. -/
theorem explode_ne_nil (h : explode s = .ok cs) : cs ≠ [] := by
  unfold Samba.Ldb.explode at h
  cases hr : run {} s with
  | error e =>
    rw [hr] at h
    cases h
  | ok st =>
    rw [hr] at h
    have hfin : st.finish = .ok cs := h
    unfold finish at hfin
    split at hfin
    · cases hfin
    · cases hs : st.save with
      | error e =>
        rw [hs] at hfin
        cases hfin
      | ok st' =>
        rw [hs] at hfin
        cases hfin
        obtain ⟨v, -, rfl⟩ := save_components hs
        simp

/-- A DN that was just made from a valid string. -/
theorem ldbDnNew_ok {s : Text} {cs : List DnComponent} (hspecial : (ldbDnNew s).special = false)
    (hs : explodeText s = .ok cs) : DnOk canonicalise (ldbDnNew s) (pairs cs) where
  special := hspecial
  valid := rfl
  text := by
    intro s' hs'
    cases hs'
    exact ⟨cs, hs, rfl⟩
  parts := fun _ hcs => nomatch hcs
  known := fun h => nomatch h
  folded := fun h => nomatch h

/-- Exploding a valid DN fills in its components; the empty DN has none. -/
theorem DnOk.explode (h : DnOk canonicalise dn comps) :
    ∃ dn', ldbDnExplode dn = some (true, dn') ∧ DnOk canonicalise dn' comps ∧ (dn'.components = none → comps = []) ∧
      dn'.validCase = dn.validCase ∧ dn'.linearized = dn.linearized ∧ dn'.casefold = dn.casefold := by
  cases hc : dn.components with
  | some cs =>
    refine ⟨dn, ?_, h, fun hn => absurd (hc.symm.trans hn) (by simp), rfl, rfl, rfl⟩
    unfold ldbDnExplode
    rw [if_neg (by simp [h.valid]), if_pos (by simp [hc])]
  | none =>
    obtain ⟨s, hs⟩ := Option.ne_none_iff_exists'.mp fun hn => h.known hn hc
    obtain ⟨cs, hcs, hpairs⟩ := h.text s hs
    unfold explodeText at hcs
    split at hcs
    case isTrue hempty =>
      cases hcs
      refine ⟨dn, ?_, h, fun _ => hpairs.symm, rfl, rfl, rfl⟩
      unfold ldbDnExplode
      rw [if_neg (by simp [h.valid]), if_neg (by simp [hc]), hs]
      exact if_pos hempty
    case isFalse hne =>
      rw [ldbDnExplode_text h.valid hc hs hne h.special, hcs]
      refine ⟨_, rfl, ⟨h.special, h.valid, ?_, ?_, ?_, ?_⟩, fun hn => (nomatch hn), rfl, rfl, rfl⟩
      · exact h.text
      · intro cs' hcs'
        cases hcs'
        exact hpairs
      · exact fun _ => by simp
      · intro hcase
        -- without components only the empty DN is casefolded
        obtain ⟨l, hl, hcf⟩ := h.folded hcase
        rw [hc] at hcf
        cases hcf
        have hlen := (mapM_some_iff.mp hl).length_eq
        rw [← hpairs] at hlen
        exact absurd (map_eq_nil_iff.mp (eq_nil_of_length_eq_zero hlen)) (explode_ne_nil hcs)

/-- Casefolding a valid DN fills in the forms of its components. -/
theorem DnOk.casefold (h : DnOk canonicalise dn comps) (hf : casefoldPairs canonicalise comps = some l) :
    ∃ dn', ldbDnCasefoldInternal canonicalise dn = some (true, dn') ∧ Folded dn' l ∧ DnOk canonicalise dn' comps ∧
      dn'.validCase = true ∧ dn'.linearized = dn.linearized ∧ dn'.casefold = dn.casefold := by
  unfold ldbDnCasefoldInternal
  rw [if_neg (by simp [h.valid])]
  by_cases hcase : dn.validCase = true
  · obtain ⟨l', hl', hcf⟩ := h.folded hcase
    rw [hf, Option.some.injEq] at hl'
    subst hl'
    exact ⟨dn, if_pos hcase, ⟨h.special, hcf⟩, h, hcase, rfl, rfl⟩
  · obtain ⟨dn₁, hexp, h₁, hnone, -, hlin, hfold⟩ := h.explode
    rw [if_neg hcase, hexp]
    dsimp only [bind, Option.bind]
    rw [if_neg (by decide)]
    cases hc : dn₁.components with
    | none =>
      have hcomps := hnone hc
      subst hcomps
      cases hf
      refine ⟨_, rfl, ⟨h₁.special, rfl⟩, ⟨h₁.special, h₁.valid, h₁.text, fun cs hcs => (nomatch hcs), ?_, ?_⟩, rfl, hlin, hfold⟩
      · exact fun hn => absurd hc (h₁.known hn)
      · exact fun _ => ⟨[], rfl, rfl⟩
    | some cs =>
      rw [← h₁.parts cs hc] at hf
      obtain ⟨cs', hcs', hpairs', hcf⟩ := casefoldComponents hf
      dsimp only
      rw [hcs']
      refine ⟨_, rfl, ⟨h₁.special, hcf⟩, ⟨h₁.special, h₁.valid, h₁.text, ?_, fun _ => by simp, fun _ => ?_⟩, rfl, hlin, hfold⟩
      · intro cs'' hcs''
        cases hcs''
        exact hpairs'.trans (h₁.parts cs hc)
      · rw [← h₁.parts cs hc]
        exact ⟨l, hf, hcf⟩

/-! ## Comparing casefolded components -/

/-- What the comparison sees of a casefolded component: of a value its length and what is before the first NUL. -/
def cut (comp : Text × LdbVal) : Text × Nat × Text := (comp.1, comp.2.length, cstr comp.2.data)

theorem compareComponent_ok {comp₀ comp₁ : DnComponent} {cf₀ cf₁ : Text × LdbVal} (h₀ : comp₀.cf = some cf₀)
    (h₁ : comp₁.cf = some cf₁) : ∃ r, compareComponent comp₀ comp₁ = some r ∧ (r = 0 ↔ cut cf₀ = cut cf₁) := by
  unfold compareComponent
  rw [h₀, h₁]
  dsimp only [bind, Option.bind]
  split
  case isTrue hname =>
    refine ⟨_, rfl, iff_of_false hname fun heq => hname ?_⟩
    rw [strcmp_eq_zero]
    exact congrArg (fun x : Text × Nat × Text => x.1) heq
  case isFalse hname =>
    rw [not_not, strcmp_eq_zero] at hname
    split
    case isTrue hlen =>
      refine ⟨_, rfl, iff_of_false (by omega) fun heq => hlen ?_⟩
      exact congrArg (fun x : Text × Nat × Text => x.2.1) heq
    case isFalse hlen =>
      refine ⟨_, rfl, ?_⟩
      rw [strcmp_eq_zero]
      unfold cut
      rw [hname, not_not.mp hlen]
      simp

theorem compareComponents_ok {xs ys : List DnComponent} {l m : List (Text × LdbVal)}
    (hxs : xs.mapM DnComponent.cf = some l) (hys : ys.mapM DnComponent.cf = some m) (hlen : l.length ≤ m.length) :
    ∃ r, compareComponents xs ys = some r ∧ (r = 0 ↔ l.map cut <+: m.map cut) := by
  induction xs generalizing l m ys with
  | nil =>
    cases hxs
    exact ⟨0, rfl, iff_of_true rfl nil_prefix⟩
  | cons x xs ih =>
    rw [mapM_some_iff, forall₂_cons_left_iff] at hxs
    obtain ⟨f, l, hf, hl, rfl⟩ := hxs
    cases ys with
    | nil =>
      cases hys
      simp at hlen
    | cons y ys =>
      rw [mapM_some_iff, forall₂_cons_left_iff] at hys
      obtain ⟨g, m, hg, hm, rfl⟩ := hys
      obtain ⟨r, hr, hzero⟩ := compareComponent_ok hf hg
      obtain ⟨r', hr', hzero'⟩ := ih (mapM_some_iff.mpr hl) (mapM_some_iff.mpr hm) (by simpa using hlen)
      rw [compareComponents, hr]
      dsimp only [bind, Option.bind]
      rw [map_cons, map_cons, cons_prefix_cons, ← hzero]
      by_cases h : r = 0
      · rw [if_neg (not_not.mpr h)]
        exact ⟨r', hr', by simp [h, hzero']⟩
      · rw [if_pos h]
        exact ⟨r, rfl, by simp [h]⟩

theorem compareFolded_ok {f₀ f₁ : List (Text × LdbVal)} (h₀ : Folded dn₀ f₀) (h₁ : Folded dn₁ f₁) :
    ∃ r, compareFolded dn₀ dn₁ = some r ∧ (r = 0 ↔ f₀.map cut = f₁.map cut) := by
  unfold compareFolded
  rw [h₀.compNum, h₁.compNum]
  split
  case isTrue hne =>
    refine ⟨_, rfl, iff_of_false (by omega) fun heq => hne ?_⟩
    simpa using congrArg List.length heq
  case isFalse hlen =>
    rw [not_not] at hlen
    split
    case isTrue hzero =>
      have hf₀ : f₀ = [] := eq_nil_of_length_eq_zero hzero
      have hf₁ : f₁ = [] := eq_nil_of_length_eq_zero (by omega)
      rw [h₀.special, h₁.special, hf₀, hf₁]
      exact ⟨0, rfl, iff_of_true rfl rfl⟩
    case isFalse =>
      obtain ⟨r, hr, hiff⟩ := compareComponents_ok h₀.cf h₁.cf (by omega)
      refine ⟨r, hr, hiff.trans ⟨fun hpre => ?_, fun heq => heq ▸ prefix_refl _⟩⟩
      exact hpre.eq_of_length (by simpa using hlen)

/-! ## Equal DNs -/

/-- A value that its canonicalisation function refuses leaves the DN without casefolded forms. -/
theorem DnOk.refused (h : DnOk canonicalise dn comps) (hf : casefoldPairs canonicalise comps = none) :
    ∃ dn', ldbDnCasefoldInternal canonicalise dn = some (false, dn') := by
  unfold ldbDnCasefoldInternal
  rw [if_neg (by simp [h.valid])]
  by_cases hcase : dn.validCase = true
  · obtain ⟨l, hl, -⟩ := h.folded hcase
    exact absurd (hf.symm.trans hl) (by simp)
  · obtain ⟨dn₁, hexp, h₁, hnone, -⟩ := h.explode
    rw [if_neg hcase, hexp]
    dsimp only [bind, Option.bind]
    rw [if_neg (by decide)]
    cases hc : dn₁.components with
    | none =>
      rw [hnone hc] at hf
      cases hf
    | some cs =>
      dsimp only
      cases hm : cs.mapM (casefoldComponent canonicalise) with
      | none => exact ⟨_, rfl⟩
      | some cs' =>
        obtain ⟨l, hl⟩ := casefoldPairs_of_mapM hm
        rw [← h₁.parts cs hc, hl] at hf
        cases hf

/-- Both strings are there and the same. -/
def SameText (dn₀ dn₁ : LdbDn) : Prop := ∃ s, dn₀.linearized = some s ∧ dn₁.linearized = some s

/-- The same string is found before anything is casefolded. -/
theorem compare_sameText (hvalid : (dn₀.invalid || dn₁.invalid) = false) (hcase : (dn₀.validCase && dn₁.validCase) = false)
    (ht : SameText dn₀ dn₁) : ldbDnCompare canonicalise dn₀ dn₁ = some (0, dn₀, dn₁) := by
  obtain ⟨s, hs₀, hs₁⟩ := ht
  unfold ldbDnCompare
  rw [if_neg (by simp [hvalid]), if_neg (by simp [hcase]), hs₀, hs₁]
  exact if_pos (by simp)

theorem compare_casefold (hvalid : (dn₀.invalid || dn₁.invalid) = false) (hcase : (dn₀.validCase && dn₁.validCase) = false)
    (ht : ¬ SameText dn₀ dn₁) : ldbDnCompare canonicalise dn₀ dn₁ = (do
      let (ok, dn₀) ← ldbDnCasefoldInternal canonicalise dn₀
      if !ok then return (1, dn₀, dn₁)
      else do
        let (ok, dn₁) ← ldbDnCasefoldInternal canonicalise dn₁
        if !ok then return (-1, dn₀, dn₁)
        else (compareFolded dn₀ dn₁).map fun ret => (ret, dn₀, dn₁)) := by
  unfold ldbDnCompare
  rw [if_neg (by simp [hvalid]), if_neg (by simp [hcase])]
  cases hs₀ : dn₀.linearized with
  | none => exact if_neg (by simp)
  | some s₀ =>
    cases hs₁ : dn₁.linearized with
    | none => exact if_neg (by simp)
    | some s₁ =>
      refine if_neg fun hq => ht ⟨s₀, hs₀, ?_⟩
      rw [hs₁, strcmp_eq_zero.mp (of_decide_eq_true hq)]

/-- DNs of the same string have the same components. -/
theorem SameText.eq (ht : SameText dn₀ dn₁) (h₀ : DnOk canonicalise dn₀ bs) (h₁ : DnOk canonicalise dn₁ ds) : bs = ds := by
  obtain ⟨s, hs₀, hs₁⟩ := ht
  obtain ⟨cs₀, hcs₀, rfl⟩ := h₀.text s hs₀
  obtain ⟨cs₁, hcs₁, rfl⟩ := h₁.text s hs₁
  rw [hcs₀, Except.ok.injEq] at hcs₁
  rw [hcs₁]

/-- `ldb_dn_compare` compares the casefolded components, whatever is filled in. -/
theorem compare_ok {f₀ f₁ : List (Text × LdbVal)} (h₀ : DnOk canonicalise dn₀ bs) (h₁ : DnOk canonicalise dn₁ ds)
    (hf₀ : casefoldPairs canonicalise bs = some f₀) (hf₁ : casefoldPairs canonicalise ds = some f₁) :
    ∃ r dn₀' dn₁', ldbDnCompare canonicalise dn₀ dn₁ = some (r, dn₀', dn₁') ∧ DnOk canonicalise dn₀' bs ∧
      DnOk canonicalise dn₁' ds ∧ (r = 0 ↔ f₀.map cut = f₁.map cut) := by
  have hvalid : (dn₀.invalid || dn₁.invalid) = false := by rw [h₀.valid, h₁.valid]; rfl
  cases hcase : dn₀.validCase && dn₁.validCase with
  | true =>
    have hboth := hcase
    rw [Bool.and_eq_true] at hboth
    obtain ⟨l, hl, hcf⟩ := h₀.folded hboth.1
    obtain ⟨m, hm, hcf'⟩ := h₁.folded hboth.2
    rw [hf₀, Option.some.injEq] at hl
    rw [hf₁, Option.some.injEq] at hm
    subst hl hm
    obtain ⟨r, hr, hiff⟩ := compareFolded_ok ⟨h₀.special, hcf⟩ ⟨h₁.special, hcf'⟩
    unfold ldbDnCompare
    rw [if_neg (by simp [hvalid]), if_pos hcase, hr]
    exact ⟨r, dn₀, dn₁, rfl, h₀, h₁, hiff⟩
  | false =>
    by_cases ht : SameText dn₀ dn₁
    · rw [compare_sameText hvalid hcase ht]
      have heq := ht.eq h₀ h₁
      subst heq
      rw [hf₀, Option.some.injEq] at hf₁
      exact ⟨0, dn₀, dn₁, rfl, h₀, h₁, by simp [hf₁]⟩
    · obtain ⟨dn₀', hc₀, hfold₀, hok₀, -⟩ := h₀.casefold hf₀
      obtain ⟨dn₁', hc₁, hfold₁, hok₁, -⟩ := h₁.casefold hf₁
      obtain ⟨r, hr, hiff⟩ := compareFolded_ok hfold₀ hfold₁
      rw [compare_casefold hvalid hcase ht, hc₀]
      dsimp only [bind, Option.bind]
      rw [if_neg (by decide), hc₁]
      dsimp only
      rw [if_neg (by decide), hr]
      exact ⟨r, dn₀', dn₁', rfl, hok₀, hok₁, hiff⟩

/-- Where a value is refused, equal DNs are those of the same string. -/
theorem compare_refused (h₀ : DnOk canonicalise dn₀ bs) (h₁ : DnOk canonicalise dn₁ ds)
    (hf : casefoldPairs canonicalise bs = none ∨ casefoldPairs canonicalise ds = none) :
    ∃ r dn₀' dn₁', ldbDnCompare canonicalise dn₀ dn₁ = some (r, dn₀', dn₁') ∧ (r = 0 ↔ SameText dn₀ dn₁) := by
  have hvalid : (dn₀.invalid || dn₁.invalid) = false := by rw [h₀.valid, h₁.valid]; rfl
  have hcase : (dn₀.validCase && dn₁.validCase) = false := by
    rw [Bool.eq_false_iff]
    intro hcase
    rw [Bool.and_eq_true] at hcase
    obtain ⟨l, hl, -⟩ := h₀.folded hcase.1
    obtain ⟨m, hm, -⟩ := h₁.folded hcase.2
    simp [hl, hm] at hf
  by_cases ht : SameText dn₀ dn₁
  · exact ⟨0, dn₀, dn₁, compare_sameText hvalid hcase ht, iff_of_true rfl ht⟩
  · rw [compare_casefold hvalid hcase ht]
    cases hf₀ : casefoldPairs canonicalise bs with
    | none =>
      obtain ⟨dn₀', hc₀⟩ := h₀.refused hf₀
      rw [hc₀]
      exact ⟨1, dn₀', dn₁, rfl, iff_of_false (by decide) ht⟩
    | some f₀ =>
      obtain ⟨dn₁', hc₁⟩ := h₁.refused (hf.resolve_left (by simp [hf₀]))
      obtain ⟨dn₀', hc₀, -⟩ := h₀.casefold hf₀
      rw [hc₀]
      dsimp only [bind, Option.bind]
      rw [if_neg (by decide), hc₁]
      exact ⟨-1, dn₀', dn₁', rfl, iff_of_false (by decide) ht⟩

/-! ## The base of a DN -/

variable (canonicalise)

variable {canonicalise}

end Schema

end Samba.Ldb
