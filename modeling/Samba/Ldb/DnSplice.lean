/-
Values put into a DN string as they are. The parser gives back the bytes that stand between the equals sign of a component
and the comma before the next name only if there is nothing to escape among them, and no space at either end.
-/
import Samba.Ldb.DnTail

namespace Samba.Ldb

open CString List

/-- A text that the parser takes for its own value: nothing in it is to be escaped, and no space is at its end. -/
structure Unescaped (x : Text) : Prop where
  chars : ∀ c ∈ x, c ∉ escaped
  noSpaceLast : x.getLast? ≠ some (chr ' ')

/-- A text that can be put into a DN string as it is. -/
structure Spliceable (x : Text) : Prop extends Unescaped x where
  noSpaceFirst : x.head? ≠ some (chr ' ')

namespace ExplodeState

/-- The parser reads a string to its end, and the component at place `n` then has the value `v`. -/
def Yields (n : Nat) (st : ExplodeState) (s : Text) (v : Text) : Prop :=
  ∃ comps comp, (run st s).bind finish = .ok comps ∧ comps[n]? = some comp ∧ cstr comp.value.data = v

/-- What is behind a value: a comma, and a name with its equals sign. -/
structure Separated (s : Text) : Prop where
  name : ∃ w rest, s = chr ',' :: (w ++ chr '=' :: rest) ∧ w.all nameChar = true

/-- Inside of a value, outside of quotes, behind the spaces at its start. -/
structure Plain (n : Nat) (st : ExplodeState) : Prop where
  inAttr : st.inAttr = false
  inQuote : st.inQuote = false
  trim : st.trim = false
  place : st.components.length = n

section

variable {n : Nat} {st st' : ExplodeState} {c : UInt8} {rest s v : Text}

theorem Yields.run_eq {s' : Text} (h : run st s = run st' s') : Yields n st s v ↔ Yields n st' s' v := by
  rw [Yields, Yields, h]

theorem Yields.step (h : Yields n st (c :: rest) v) : ∃ st' skip, Steps st c rest st' skip ∧
    (skip = false → Yields n (st'.advance c) rest v) ∧
    (skip = true → ∃ c' rest', rest = c' :: rest' ∧ Yields n ((st'.advance c).advance c') rest' v) := by
  obtain ⟨comps, comp, hrun, hcomp, hv⟩ := h
  rw [run] at hrun
  cases hs : st.step c rest with
  | error e =>
    rw [hs] at hrun
    cases hrun
  | ok res =>
    obtain ⟨st', skip⟩ := res
    rw [hs] at hrun
    refine ⟨st', skip, step_iff.mp hs, ?_, ?_⟩
    · rintro rfl
      exact ⟨comps, comp, hrun, hcomp, hv⟩
    · rintro rfl
      cases rest with
      | nil => cases hrun
      | cons c' rest' => exact ⟨c', rest', rfl, comps, comp, hrun, hcomp, hv⟩

/-- A component that has been read stays as it is. -/
theorem Yields.fixed (h : Yields n st s v) (hn : n < st.components.length) : cstr (st.components[n]).value.data = v := by
  obtain ⟨comps, comp, hrun, hcomp, rfl⟩ := h
  cases hr : run st s with
  | error e =>
    rw [hr] at hrun
    cases hrun
  | ok st' =>
    rw [hr] at hrun
    obtain ⟨more, rfl⟩ := (run_components hr).trans (finish_components hrun)
    rw [List.getElem?_append_left hn, List.getElem?_eq_getElem hn] at hcomp
    rw [Option.some.inj hcomp]

/-- What is trimmed back is taken from the end. -/
theorem isPrefix_value {w : LdbVal} (h : st.value = .ok w) : cstr w.data <+: st.data := by
  unfold value at h
  cases ht : st.t with
  | none =>
    rw [ht] at h
    cases h
    exact (List.takeWhile_prefix _).trans (List.takeWhile_prefix _)
  | some t =>
    rw [ht] at h
    dsimp only at h
    split at h
    · cases h
      exact (List.takeWhile_prefix _).trans ((List.takeWhile_prefix _).trans (List.take_prefix _ _))
    · cases h

/-- A value that comes to its end as it was read has no spaces at its end. -/
theorem value_full {w : LdbVal} (h : st.value = .ok w) (hp : st.TBefore) (hfull : cstr w.data = st.data) : st.t = none := by
  cases ht : st.t with
  | none => rfl
  | some t =>
    have hlt := hp t ht
    unfold value at h
    rw [ht] at h
    dsimp only at h
    split at h
    case isTrue hle =>
      cases h
      have hlen : (cstr (cstr (st.data.take (st.data.length - (st.p - t))))).length ≤ st.data.length - (st.p - t) :=
        (List.takeWhile_prefix _).length_le.trans ((List.takeWhile_prefix _).length_le.trans (length_take_le _ _))
      dsimp only at hfull
      rw [hfull] at hlen
      omega
    case isFalse => cases h

theorem Yields.comma {w : LdbVal} (hplace : st.components.length = n)
    (h : Yields n (advance { st with
      components := st.components ++ [⟨st.name, w, none⟩], inAttr := true, trim := true, data := [] } (chr ',')) rest v) :
    cstr w.data = v := by
  have hlt : n < (st.components ++ [(⟨st.name, w, none⟩ : DnComponent)]).length := by
    rw [length_append, hplace]
    exact Nat.lt_succ_self n
  have hv := h.fixed hlt
  have hget : (st.components ++ [(⟨st.name, w, none⟩ : DnComponent)])[n] = ⟨st.name, w, none⟩ := by
    subst hplace
    rw [getElem_append_right (le_refl _)]
    simp
  exact (congrArg (fun comp : DnComponent => cstr comp.value.data) hget).symm.trans hv

/-! ## What is read of the value -/

theorem nameChar_plain (c : UInt8) : nameChar c = true → c ≠ chr ',' ∧ c ∉ reserved ∧ c ≠ chr '\\' ∧ c ≠ chr ' ' :=
  @forall_byte (fun c => nameChar c = true → c ≠ chr ',' ∧ c ∉ reserved ∧ c ≠ chr '\\' ∧ c ≠ chr ' ') (by decide +kernel) c

/-- The steps inside of a value outside of quotes. -/
theorem Plain.steps {skip : Bool} (hst : Plain n st) (h : Steps st c rest st' skip) : PlainSteps st c rest st' skip := by
  cases h with
  | attr hattr => exact absurd (hattr.symm.trans hst.inAttr) (by decide)
  | quoteEnd _ hquote => exact absurd (hquote.symm.trans hst.inQuote) (by decide)
  | quoted _ hquote => exact absurd (hquote.symm.trans hst.inQuote) (by decide)
  | blank _ _ htrim => exact absurd (htrim.symm.trans hst.trim) (by decide)
  | quoteStart _ _ htrim => exact absurd (htrim.symm.trans hst.trim) (by decide)
  | plain _ _ _ hp =>
    have hself : { st with trim := false } = st := by rw [← hst.trim]
    rwa [hself] at hp

/-- The equals sign of the next name is not allowed in a value. -/
theorem Plain.dead {w : Text} (hst : Plain n st) (hesc : st.escape = false) (hw : w.all nameChar = true) :
    ¬ Yields n st (w ++ chr '=' :: rest) v := by
  induction w generalizing st with
  | nil =>
    intro h
    obtain ⟨st', skip, hs, -, -⟩ := Yields.step h
    cases hst.steps hs with
    | escapedComma hc => exact absurd hc (by decide)
    | comma hc => exact absurd hc (by decide)
    | reserved _ _ hesc' => exact absurd (hesc'.symm.trans hesc) (by decide)
    | backslash hc => exact absurd hc (by decide)
    | hex _ _ _ hesc' => exact absurd (hesc'.symm.trans hesc) (by decide)
    | space hc => exact absurd hc (by decide)
    | char _ hres => exact absurd (by decide) hres
  | cons c w ih =>
    intro h
    rw [all_cons, Bool.and_eq_true] at hw
    obtain ⟨hcomma, hres, hback, hsp⟩ := nameChar_plain c hw.1
    obtain ⟨st', skip, hs, hnext, -⟩ := Yields.step h
    cases hst.steps hs with
    | escapedComma hc => exact hcomma hc
    | comma hc => exact hcomma hc
    | reserved _ hc => exact hc.elim hres hback
    | backslash hc => exact hback hc
    | hex _ _ _ hesc' => exact absurd (hesc'.symm.trans hesc) (by decide)
    | space hc => exact hsp hc
    | char =>
      have hst' : Plain n (advance { st.put c with t := none } c) := ⟨hst.inAttr, hst.inQuote, hst.trim, hst.place⟩
      exact ih hst' hesc hw.2 (hnext rfl)

/-- The value gets no more bytes than there are before the comma. -/
theorem Yields.length_le {x : Text} (h : Yields n st (x ++ s) v) (hst : Plain n st) (hs : Separated s) :
    v.length ≤ st.data.length + x.length := by
  obtain ⟨w, rest, rfl, hw⟩ := hs.name
  induction hx : x.length using Nat.strong_induction_on generalizing st x with
  | _ k ih =>
    cases x with
    | nil =>
      obtain ⟨st', skip, hstep, hnext, -⟩ := Yields.step h
      cases hst.steps hstep with
      | escapedComma =>
        exact absurd (hnext rfl) (Plain.dead ⟨hst.inAttr, hst.inQuote, hst.trim, hst.place⟩ rfl hw)
      | comma _ _ hv =>
        have := (isPrefix_value hv).length_le
        rw [(hnext rfl).comma hst.place] at this
        omega
      | reserved hc => exact absurd rfl hc
      | backslash hc => exact absurd hc (by decide)
      | hex hc => exact absurd rfl hc
      | space hc => exact absurd hc (by decide)
      | char hc => exact absurd rfl hc
    | cons c x =>
      rw [length_cons] at hx
      have hgo : ∀ {st₁ : ExplodeState}, Yields n st₁ (x ++ chr ',' :: (w ++ chr '=' :: rest)) v → Plain n st₁ →
          st₁.data.length ≤ st.data.length + 1 → v.length ≤ st.data.length + k := by
        intro st₁ hy hst₁ hlen
        have := ih x.length (by omega) hst₁ hy rfl
        omega
      obtain ⟨st', skip, hstep, hnext, hskip⟩ := Yields.step h
      have hput : ∀ (st₁ : ExplodeState) (b : UInt8), st₁.data = st.data ++ [b] → st₁.data.length ≤ st.data.length + 1 := by
        rintro st₁ b hd
        rw [hd, length_append, length_singleton]
      cases hst.steps hstep with
      | escapedComma => exact hgo (hnext rfl) ⟨hst.inAttr, hst.inQuote, hst.trim, hst.place⟩ (hput _ c rfl)
      | comma hc _ hv =>
        subst hc
        have := (isPrefix_value hv).length_le
        rw [(hnext rfl).comma hst.place] at this
        omega
      | reserved => exact hgo (hnext rfl) ⟨hst.inAttr, hst.inQuote, hst.trim, hst.place⟩ (hput _ c rfl)
      | backslash => exact hgo (hnext rfl) ⟨hst.inAttr, hst.inQuote, hst.trim, hst.place⟩ (Nat.le_succ _)
      | @hex b =>
        obtain ⟨c', rest', hrest, hy⟩ := hskip rfl
        cases x with
        | nil =>
          -- the comma is taken for a digit
          cases hrest
          exact absurd hy (Plain.dead ⟨hst.inAttr, hst.inQuote, hst.trim, hst.place⟩ rfl hw)
        | cons c'' x =>
          obtain ⟨rfl, rfl⟩ := List.cons.inj hrest
          have hst₂ : Plain n (advance (advance { st.put b with escape := false, t := none } c) c'') :=
            ⟨hst.inAttr, hst.inQuote, hst.trim, hst.place⟩
          have hlen := ih x.length (by rw [length_cons] at hx; omega) hst₂ hy rfl
          have hb : (st.data ++ [b]).length + x.length = st.data.length + 1 + x.length := by simp
          rw [length_cons] at hx
          exact hlen.trans (hb.le.trans (by omega))
      | space => exact hgo (hnext rfl) ⟨hst.inAttr, hst.inQuote, hst.trim, hst.place⟩ (hput _ c rfl)
      | char => exact hgo (hnext rfl) ⟨hst.inAttr, hst.inQuote, hst.trim, hst.place⟩ (hput _ c rfl)

/-- What is read as it stands has nothing to escape in it. -/
theorem Yields.unescaped {x : Text} (h : Yields n st (x ++ s) (st.data ++ x)) (hst : Plain n st)
    (hesc : st.escape = false) (hp : st.TBefore) (hs : Separated s) : Unescaped x ∧ (x = [] → st.t = none) := by
  induction x generalizing st with
  | nil =>
    refine ⟨⟨fun c hc => (nomatch hc), by simp⟩, fun _ => ?_⟩
    obtain ⟨w, rest, rfl, -⟩ := hs.name
    obtain ⟨st', skip, hstep, hnext, -⟩ := Yields.step h
    cases hst.steps hstep with
    | escapedComma _ hesc' => exact absurd (hesc'.symm.trans hesc) (by decide)
    | comma _ _ hv =>
      have hfull := (hnext rfl).comma hst.place
      rw [append_nil] at hfull
      exact value_full hv hp hfull
    | reserved hc => exact absurd rfl hc
    | backslash hc => exact absurd hc (by decide)
    | hex hc => exact absurd rfl hc
    | space hc => exact absurd hc (by decide)
    | char hc => exact absurd rfl hc
  | cons c x ih =>
    obtain ⟨st', skip, hstep, hnext, -⟩ := Yields.step h
    have hp' := hp.step (step_iff.mpr hstep)
    have hlast : ∀ c', c' ≠ chr ' ' ∨ x ≠ [] → x.getLast? ≠ some (chr ' ') → (c' :: x).getLast? ≠ some (chr ' ') := by
      intro c' hc hx
      cases x with
      | nil => simpa using hc
      | cons d x => rwa [List.getLast?_cons_cons]
    cases hst.steps hstep with
    | escapedComma _ hesc' => exact absurd (hesc'.symm.trans hesc) (by decide)
    | comma hc _ hv =>
      subst hc
      have hlen := (isPrefix_value hv).length_le
      rw [(hnext rfl).comma hst.place, length_append, length_cons] at hlen
      omega
    | reserved _ _ hesc' => exact absurd (hesc'.symm.trans hesc) (by decide)
    | backslash =>
      have hlen := Yields.length_le (x := x) (hnext rfl) ⟨hst.inAttr, hst.inQuote, hst.trim, hst.place⟩ hs
      rw [length_append, length_cons] at hlen
      have hdata : (advance { st with escape := true } c).data = st.data := rfl
      rw [hdata] at hlen
      omega
    | hex _ _ _ hesc' => exact absurd (hesc'.symm.trans hesc) (by decide)
    | space hc =>
      have hy := hnext rfl
      rw [append_cons] at hy
      obtain ⟨hx, ht⟩ := ih hy ⟨hst.inAttr, hst.inQuote, hst.trim, hst.place⟩ hesc hp'
      have hne : x ≠ [] := fun hnil => (nomatch ht hnil)
      exact ⟨⟨forall_mem_cons.mpr ⟨by rw [hc]; decide, hx.chars⟩, hlast c (.inr hne) hx.noSpaceLast⟩, fun hnil => nomatch hnil⟩
    | char hcomma hres hback hsp =>
      have hy := hnext rfl
      rw [append_cons] at hy
      obtain ⟨hx, -⟩ := ih hy ⟨hst.inAttr, hst.inQuote, hst.trim, hst.place⟩ hesc hp'
      refine ⟨⟨forall_mem_cons.mpr ⟨fun hmem => ?_, hx.chars⟩, hlast c (.inl hsp) hx.noSpaceLast⟩, fun hnil => nomatch hnil⟩
      rcases (mem_escaped c).mp hmem with hc | hc | hc
      · exact hcomma hc
      · exact hres hc
      · exact hback hc

/-- Reading on adds to the value, and the value that is saved is a part of it. -/
theorem Yields.grows (h : Yields n st s v) (hattr : st.inAttr = false) (hplace : st.components.length = n) :
    ∃ d, st.data <+: d ∧ v <+: d := by
  induction hs : s.length using Nat.strong_induction_on generalizing st s with
  | _ k ih =>
    cases s with
    | nil =>
      obtain ⟨comps, comp, hrun, hcomp, rfl⟩ := h
      obtain ⟨-, w, hw, rfl⟩ := finish_eq_ok (show st.finish = .ok comps from hrun)
      subst hplace
      rw [List.getElem?_append_right (le_refl _), Nat.sub_self] at hcomp
      cases hcomp
      exact ⟨st.data, prefix_refl _, isPrefix_value hw⟩
    | cons c s =>
      rw [length_cons] at hs
      have hgo : ∀ {st₁ : ExplodeState} {s₁ : Text}, Yields n st₁ s₁ v → s₁.length < k → st₁.inAttr = false →
          st₁.components.length = n → st.data <+: st₁.data → ∃ d, st.data <+: d ∧ v <+: d := by
        intro st₁ s₁ hy hlen hattr₁ hplace₁ hpre
        obtain ⟨d, hd, hv⟩ := ih s₁.length hlen hy hattr₁ hplace₁ rfl
        exact ⟨d, hpre.trans hd, hv⟩
      obtain ⟨st', skip, hstep, hnext, hskip⟩ := h.step
      cases hstep with
      | attr hattr' => exact absurd (hattr'.symm.trans hattr) (by decide)
      | quoteEnd => exact hgo (hnext rfl) (by omega) hattr hplace (prefix_refl _)
      | quoted => exact hgo (hnext rfl) (by omega) hattr hplace (prefix_append _ _)
      | blank => exact hgo (hnext rfl) (by omega) hattr hplace (prefix_refl _)
      | quoteStart => exact hgo (hnext rfl) (by omega) hattr hplace (prefix_refl _)
      | plain _ _ _ hp =>
        cases hp with
        | escapedComma => exact hgo (hnext rfl) (by omega) hattr hplace (prefix_append _ _)
        | comma hc _ hw =>
          subst hc
          have hpre := isPrefix_value hw
          rw [Yields.comma hplace (hnext rfl)] at hpre
          exact ⟨st.data, prefix_refl _, hpre⟩
        | reserved => exact hgo (hnext rfl) (by omega) hattr hplace (prefix_append _ _)
        | backslash => exact hgo (hnext rfl) (by omega) hattr hplace (prefix_refl _)
        | hex =>
          obtain ⟨c', s', rfl, hy⟩ := hskip rfl
          rw [length_cons] at hs
          exact hgo hy (by omega) hattr hplace (prefix_append _ _)
        | space => exact hgo (hnext rfl) (by omega) hattr hplace (prefix_append _ _)
        | char => exact hgo (hnext rfl) (by omega) hattr hplace (prefix_append _ _)

/-- In quotes the value either ends before the comma, or the comma belongs to it. -/
theorem Yields.quoted {x : Text} (h : Yields n st (x ++ s) v) (hattr : st.inAttr = false) (hquote : st.inQuote = true)
    (htrim : st.trim = false) (hplace : st.components.length = n) (hs : Separated s) :
    v.length ≤ st.data.length + x.length ∨ st.data ++ x ++ [chr ','] <+: v := by
  induction x generalizing st with
  | nil =>
    obtain ⟨w, rest, rfl, -⟩ := hs.name
    obtain ⟨st', skip, hstep, hnext, -⟩ := h.step
    cases hstep with
    | attr hattr' => exact absurd (hattr'.symm.trans hattr) (by decide)
    | quoteEnd _ _ hc => exact absurd hc.1 (by decide)
    | blank _ hquote' => exact absurd (hquote'.symm.trans hquote) (by decide)
    | quoteStart _ hquote' => exact absurd (hquote'.symm.trans hquote) (by decide)
    | plain _ hquote' => exact absurd (hquote'.symm.trans hquote) (by decide)
    | quoted =>
      obtain ⟨d, hd, hv⟩ := (hnext rfl).grows hattr hplace
      have hd' : st.data ++ [chr ','] <+: d := hd
      rcases Nat.lt_or_ge st.data.length v.length with hlt | hge
      · refine .inr (prefix_of_prefix_length_le (by simpa using hd') hv ?_)
        rw [append_nil, length_append, length_singleton]
        exact hlt
      · exact .inl hge
  | cons c x ih =>
    obtain ⟨st', skip, hstep, hnext, -⟩ := h.step
    cases hstep with
    | attr hattr' => exact absurd (hattr'.symm.trans hattr) (by decide)
    | quoteEnd =>
      have hlen := Yields.length_le (x := x) (hnext rfl) ⟨hattr, rfl, htrim, hplace⟩ hs
      refine .inl (hlen.trans ?_)
      rw [length_cons]
      exact Nat.le_succ _
    | blank _ hquote' => exact absurd (hquote'.symm.trans hquote) (by decide)
    | quoteStart _ hquote' => exact absurd (hquote'.symm.trans hquote) (by decide)
    | plain _ hquote' => exact absurd (hquote'.symm.trans hquote) (by decide)
    | quoted =>
      have hdata : (advance (st.put c) c).data = st.data ++ [c] := rfl
      refine (ih (hnext rfl) hattr hquote htrim hplace).imp (fun hlen => ?_) fun hpre => ?_
      · rw [hdata, length_append, length_singleton] at hlen
        rw [length_cons]
        omega
      · rwa [hdata, append_assoc st.data, singleton_append] at hpre

/-! ## The start of the value -/

/-- Behind the equals sign, where spaces are skipped. -/
structure Starts (n : Nat) (st : ExplodeState) : Prop where
  inAttr : st.inAttr = false
  inQuote : st.inQuote = false
  trim : st.trim = true
  escape : st.escape = false
  data : st.data = []
  place : st.components.length = n

theorem Starts.plain (hst : Starts n st) (hc : c ≠ chr ' ' ∧ c ≠ chr '"') :
    run st (c :: rest) = run { st with trim := false } (c :: rest) := by
  rw [run, run, step_plain hst.inAttr hst.inQuote fun _ => hc,
    @step_plain { st with trim := false } c rest hst.inAttr hst.inQuote fun _ => hc]

theorem Starts.isPlain (hst : Starts n st) : Plain n { st with trim := false } :=
  ⟨hst.inAttr, hst.inQuote, rfl, hst.place⟩

theorem Yields.plain_le {x r : Text} (h : Yields n st (x ++ s) v) (hst : Starts n st) (hs : Separated s)
    (heq : x ++ s = c :: r) (hc : c ≠ chr ' ' ∧ c ≠ chr '"') : v.length ≤ x.length := by
  rw [heq, Yields.run_eq (hst.plain hc), ← heq] at h
  have hlen := h.length_le hst.isPlain hs
  rwa [hst.data, length_nil, Nat.zero_add] at hlen

/-- The value gets no more bytes than there are before the comma, unless a quote takes the comma in. -/
theorem Yields.start_le {x : Text} (h : Yields n st (x ++ s) v) (hst : Starts n st) (hs : Separated s) :
    v.length ≤ x.length ∨ ∃ a y, x = a ++ y ∧ chr ',' ∉ a ∧ y ++ [chr ','] <+: v := by
  induction x generalizing st with
  | nil =>
    obtain ⟨w, rest, rfl, -⟩ := hs.name
    exact .inl (h.plain_le hst hs rfl (by decide))
  | cons c x ih =>
    obtain ⟨st', skip, hstep, hnext, -⟩ := h.step
    cases hstep with
    | attr hattr' => exact absurd (hattr'.symm.trans hst.inAttr) (by decide)
    | quoteEnd _ hquote => exact absurd (hquote.symm.trans hst.inQuote) (by decide)
    | quoted _ hquote => exact absurd (hquote.symm.trans hst.inQuote) (by decide)
    | plain _ _ hc => exact .inl (h.plain_le hst hs rfl (hc hst.trim))
    | blank _ _ _ hc =>
      have hst' : Starts n (st.advance c) := ⟨hst.inAttr, hst.inQuote, hst.trim, hst.escape, hst.data, hst.place⟩
      rcases ih (hnext rfl) hst' with hlen | ⟨a, y, rfl, ha, hy⟩
      · exact .inl (Nat.le_succ_of_le hlen)
      · refine .inr ⟨c :: a, y, rfl, ?_, hy⟩
        rw [mem_cons, hc, not_or]
        exact ⟨by decide, ha⟩
    | quoteStart _ _ _ hc =>
      have hquoted : (advance { st with trim := false, inQuote := true } c).data = [] := hst.data
      rcases Yields.quoted (x := x) (hnext rfl) hst.inAttr rfl rfl hst.place hs with hlen | hpre
      · refine .inl (Nat.le_succ_of_le ?_)
        rwa [hquoted, length_nil, Nat.zero_add] at hlen
      · rw [hquoted, nil_append] at hpre
        exact .inr ⟨[c], x, rfl, by rw [hc]; decide, hpre⟩

/-- No list goes on in itself behind a part without the next element. -/
theorem not_prefix_shift {α : Type} {a y : List α} {b : α} (hne : a ≠ []) (hb : b ∉ a) : ¬ y ++ [b] <+: a ++ y := by
  induction hy : y.length using Nat.strong_induction_on generalizing y with
  | _ k ih =>
    intro hpre
    have hshort : y <+: a ++ y := (prefix_append y [b]).trans hpre
    rcases Nat.lt_or_ge y.length a.length with hlt | hge
    · have hin : y ++ [b] <+: a := prefix_of_prefix_length_le hpre (prefix_append a y) (by
        rw [length_append, length_singleton]
        exact hlt)
      exact hb (hin.subset (mem_append_right _ (mem_singleton_self b)))
    · obtain ⟨y', rfl⟩ := prefix_of_prefix_length_le (prefix_append a y) hshort hge
      rw [append_assoc, prefix_append_right_inj] at hpre
      rw [length_append] at hy
      exact ih y'.length (by have := length_pos_of_ne_nil hne; omega) rfl hpre

/-- A text that comes back as the value has nothing to escape in it and no space at either end. -/
theorem Yields.spliced {x : Text} (h : Yields n st (x ++ s) x) (hst : Starts n st) (hp : st.TBefore) (hs : Separated s) :
    Spliceable x := by
  cases x with
  | nil => exact ⟨⟨fun c hc => (nomatch hc), by simp⟩, by simp⟩
  | cons c x =>
    have hshift : ∀ {a y : Text}, x = a ++ y → chr ',' ∉ a → chr ',' ≠ c → ¬ y ++ [chr ','] <+: c :: x := by
      rintro a y rfl ha hc
      exact not_prefix_shift (cons_ne_nil c a) (by rw [mem_cons, not_or]; exact ⟨hc, ha⟩)
    obtain ⟨st', skip, hstep, hnext, -⟩ := h.step
    cases hstep with
    | attr hattr' => exact absurd (hattr'.symm.trans hst.inAttr) (by decide)
    | quoteEnd _ hquote => exact absurd (hquote.symm.trans hst.inQuote) (by decide)
    | quoted _ hquote => exact absurd (hquote.symm.trans hst.inQuote) (by decide)
    | plain _ _ hc =>
      have hc := hc hst.trim
      rw [cons_append, Yields.run_eq (hst.plain hc), ← cons_append] at h
      have hv : c :: x = st.data ++ c :: x := by rw [hst.data, nil_append]
      have hy : Yields n { st with trim := false } (c :: x ++ s) (st.data ++ c :: x) := hv ▸ h
      refine ⟨(hy.unescaped hst.isPlain hst.escape hp hs).1, ?_⟩
      rw [List.head?_cons]
      exact fun heq => hc.1 (Option.some.inj heq)
    | blank _ _ _ hc =>
      have hst' : Starts n (st.advance c) := ⟨hst.inAttr, hst.inQuote, hst.trim, hst.escape, hst.data, hst.place⟩
      rcases Yields.start_le (x := x) (hnext rfl) hst' hs with hlen | ⟨a, y, hx, ha, hy⟩
      · exact absurd hlen (Nat.not_succ_le_self _)
      · exact absurd hy (hshift hx ha (by rw [hc]; decide))
    | quoteStart _ _ _ hc =>
      have hquoted : (advance { st with trim := false, inQuote := true } c).data = [] := hst.data
      rcases Yields.quoted (x := x) (hnext rfl) hst.inAttr rfl rfl hst.place hs with hlen | hpre
      · rw [hquoted, length_nil, Nat.zero_add] at hlen
        exact absurd hlen (Nat.not_succ_le_self _)
      · rw [hquoted, nil_append] at hpre
        exact absurd hpre (hshift (nil_append x).symm (not_mem_nil) (by rw [hc]; decide))

end

end ExplodeState

open ExplodeState

/-! ## Components put together as they are -/

/-- A component whose value is not escaped. -/
def rawComponent (comp : Text × Text) : Text := comp.1 ++ chr '=' :: comp.2

theorem escape_unescaped {v : Text} (h : Unescaped v) (hz : (0 : UInt8) ∉ v) : v.flatMap escapeByte = v := by
  induction v with
  | nil => rfl
  | cons c v ih =>
    have hc : escapeByte c = [c] := by
      rw [escapeByte, if_neg (h.chars c mem_cons_self), if_neg fun heq => hz (by rw [heq]; exact mem_cons_self)]
    have hv : Unescaped v := by
      refine ⟨fun d hd => h.chars d (mem_cons_of_mem _ hd), ?_⟩
      cases v with
      | nil => simp
      | cons d v => simpa [List.getLast?_cons_cons] using h.noSpaceLast
    rw [flatMap_cons, hc, ih hv fun hmem => hz (mem_cons_of_mem _ hmem), singleton_append]

theorem not_trailing_unescaped {v : Text} (h : Unescaped v) : ¬ Trailing v := by
  rintro ⟨u, w, rfl, hw⟩
  have hsp : ∀ c ∈ w, c = chr ' ' := fun c hc =>
    (hw c hc).resolve_right fun heq => h.chars c (by simp [hc]) (by rw [heq]; decide)
  rcases eq_nil_or_concat w with rfl | ⟨w, c, rfl⟩
  · exact h.noSpaceLast (by simp)
  · rw [hsp c (by simp), concat_eq_append] at h
    exact h.noSpaceLast (by rw [← cons_append, ← append_assoc, List.getLast?_concat])

theorem rawComponent_eq {comp : Text × Text} (h : Unescaped comp.2) (hz : (0 : UInt8) ∉ comp.2) :
    rawComponent comp = componentText comp := by
  rw [rawComponent, componentText, escape_unescaped h hz]

/-- A value that comes back from where it was put can be put there. -/
theorem spliceable_of_yields {n : Nat} {st : ExplodeState} {comp : Text × Text} {s : Text} (h : st.AtStart)
    (ht : st.t = none) (hplace : st.components.length = n) (hname : validName comp.1 = true) (hs : Separated s)
    (hy : Yields n st (rawComponent comp ++ s) comp.2) : Spliceable comp.2 := by
  have hrun : run st (rawComponent comp ++ s) = run (st.atValue comp.1) (comp.2 ++ s) := by
    rw [rawComponent, append_assoc, cons_append, run_name h hname]
  rw [Yields.run_eq hrun] at hy
  refine hy.spliced ⟨rfl, h.inQuote, rfl, h.escape, rfl, hplace⟩ (fun t heq => ?_) hs
  exact absurd (ht.symm.trans heq) (by simp)

/-- A component that can be put in as it is leads to the start of the next. -/
theorem run_rawComponent {st : ExplodeState} {comp : Text × Text} {rest : Text} (h : st.AtStart) (ht : st.t = none)
    (hc : PlainComponent comp) (hu : Unescaped comp.2) : ∃ st', run st (rawComponent comp ++ chr ',' :: rest) = run st' rest ∧
      st'.AtStart ∧ st'.t = none ∧ st'.components = st.components ++ [toComponent comp] := by
  obtain ⟨st', hread, hrun⟩ := run_component h ht hc
  have hgood := not_trailing_unescaped hu
  refine ⟨st'.behindComma (LdbVal.ofText comp.2), ?_, hread.atStart _, hread.t_none.mpr hgood, ?_⟩
  · rw [rawComponent_eq hu hc.noNul, hrun, run_comma hread.inValue hread.trim, hread.value_eq hc hgood]
    rfl
  · show st'.components ++ [_] = _
    rw [hread.components, hread.name]
    rfl

end Samba.Ldb
