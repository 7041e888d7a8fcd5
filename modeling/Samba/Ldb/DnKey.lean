/-
The key of the record of a DN (`ltdb_key` in lib/ldb/ldb_tdb/ldb_tdb.c): the string of the casefolded components. The
string tells the components apart up to the first NUL of a value, which the escaping does not escape, and ends there.
-/
import Samba.Ldb.DnCompare

namespace Samba.Ldb

open CString ExplodeState List

/-! ## Names -/

/-- A name as the parser takes it over. -/
structure ReadName (name : Text) : Prop where
  nonempty : name ≠ []
  chars : ∀ c ∈ name, nameChar c = true

/-- The names the parser has read, and what it has read of the next one. -/
structure ExplodeState.Names (st : ExplodeState) : Prop where
  name : st.inAttr = false → ReadName st.name
  data : st.inAttr = true → ∀ c ∈ st.data, nameChar c = true
  started : st.inAttr = true → st.trim = false → st.data ≠ []
  components : ∀ comp ∈ st.components, ReadName comp.name

variable {c : UInt8} {x : Text}

theorem ExplodeState.Names.put {st st' : ExplodeState} (h : st.Names) (hattr : st.inAttr = true)
    (hc : nameChar c = true) (hattr' : st'.inAttr = true) (hdata : st'.data = st.data ++ [c])
    (hcomps : st'.components = st.components) : (st'.advance c).Names := by
  refine ⟨fun ha => absurd (hattr'.symm.trans ha) (by decide), fun _ c' hc' => ?_, fun _ _ => ?_, hcomps ▸ h.components⟩
  · have hmem : c' ∈ st.data ++ [c] := hdata ▸ hc'
    rcases mem_append.mp hmem with hmem | hmem
    · exact h.data hattr c' hmem
    · rw [mem_singleton.mp hmem, hc]
  · show st'.data ≠ []
    rw [hdata]
    simp

theorem ExplodeState.Names.step {st st' : ExplodeState} {c : UInt8} {rest : Text} {skip : Bool} (h : st.Names)
    (hs : st.step c rest = .ok (st', skip)) : (st'.advance c).Names := by
  have hvalue : ∀ {st₁ : ExplodeState}, st.inAttr = false → st₁.inAttr = false → st₁.name = st.name →
      st₁.components = st.components → (st₁.advance c).Names := by
    intro st₁ hattr hattr₁ hname hcomps
    exact ⟨fun _ => hname ▸ h.name hattr, fun ha => absurd (hattr₁.symm.trans ha) (by decide),
      fun ha => absurd (hattr₁.symm.trans ha) (by decide), hcomps ▸ h.components⟩
  cases step_iff.mp hs with
  | attr hattr ha =>
    cases ha with
    | blank => exact ⟨h.name, h.data, h.started, h.components⟩
    | digit _ _ _ hdigit => exact h.put hattr (by simp [nameChar, hdigit]) hattr rfl rfl
    | letter _ _ _ _ halpha => exact h.put hattr (by simp [nameChar, halpha]) hattr rfl rfl
    | space => exact ⟨h.name, h.data, fun _ ht => (nomatch ht), h.components⟩
    | equals htrim =>
      exact ⟨fun _ => ⟨h.started hattr htrim, h.data hattr⟩, fun ha => (nomatch ha), fun ha => (nomatch ha), h.components⟩
    | char _ _ _ _ _ hc => exact h.put hattr hc hattr rfl rfl
  | plain hattr hquote _ hp =>
    cases hp with
    | comma =>
      refine ⟨fun ha => (nomatch ha), fun _ c' hc' => (nomatch hc'), fun _ ht => (nomatch ht), fun comp hcomp => ?_⟩
      rcases mem_append.mp hcomp with hmem | hmem
      · exact h.components comp hmem
      · rw [mem_singleton.mp hmem]
        exact h.name hattr
    | _ => exact hvalue hattr hattr rfl rfl
  | quoteEnd hattr => exact hvalue hattr hattr rfl rfl
  | quoted hattr => exact hvalue hattr hattr rfl rfl
  | blank hattr => exact hvalue hattr hattr rfl rfl
  | quoteStart hattr => exact hvalue hattr hattr rfl rfl

theorem ExplodeState.Reaches.names {st st' : ExplodeState} {s s' : Text} (hr : Reaches st s st' s') (h : st.Names) :
    st'.Names := by
  induction hr with
  | here => exact h
  | next hstep _ ih => exact ih (h.step hstep)
  | skip hstep _ ih =>
    have hn := h.step hstep
    exact ih ⟨hn.name, hn.data, hn.started, hn.components⟩

theorem explode_names {s : Text} {cs : List DnComponent} (h : explode s = .ok cs) : ∀ comp ∈ cs, ReadName comp.name := by
  unfold Samba.Ldb.explode at h
  cases hr : run {} s with
  | error e =>
    rw [hr] at h
    cases h
  | ok st =>
    rw [hr] at h
    obtain ⟨hattr, v, -, rfl⟩ := finish_eq_ok h
    have hn : st.Names := (reaches_of_run hr).names
      ⟨fun ha => (nomatch ha), fun _ c hc => (nomatch hc), fun _ ht => (nomatch ht), fun comp hcomp => (nomatch hcomp)⟩
    intro comp hcomp
    rcases mem_append.mp hcomp with hmem | hmem
    · exact hn.components comp hmem
    · rw [mem_singleton.mp hmem]
      exact hn.name hattr

theorem escapeByte_eq_cons (c : UInt8) : escapeByte c = (if c ∈ escaped then chr '\\' else c) :: (escapeByte c).tail := by
  unfold escapeByte
  split
  · rfl
  · split
    · next h => rw [h]; rfl
    · rfl

theorem escapeHead_ne_comma (c : UInt8) : (if c ∈ escaped then chr '\\' else c) ≠ chr ',' := by
  split
  · decide
  · next h =>
    rintro rfl
    exact h (by decide)

/-- Upper case keeps the characters of names; and how a byte of a value is written. -/
theorem key_classes (c : UInt8) : (nameChar c = true → nameChar (toUpper c) = true ∧ c ≠ chr '@' ∧ c ≠ chr '<') ∧
    escapeByte c = (if c ∈ escaped then chr '\\' else c) :: (escapeByte c).tail ∧
      (if c ∈ escaped then chr '\\' else c) ≠ chr ',' :=
  ⟨@forall_byte (fun c => nameChar c = true → nameChar (toUpper c) = true ∧ c ≠ chr '@' ∧ c ≠ chr '<') (by decide +kernel) c,
    escapeByte_eq_cons c, escapeHead_ne_comma c⟩

theorem nameChar_toUpper (c : UInt8) (h : nameChar c = true) : nameChar (toUpper c) = true := ((key_classes c).1 h).1

theorem nameChar_ne_equals (c : UInt8) (h : nameChar c = true) : c ≠ chr '=' := (nameChar_spec c h).2.1

/-- A casefolded name is not empty, and has no NUL and no equals sign. -/
structure FoldedName (name : Text) : Prop where
  nonempty : name ≠ []
  noNul : (0 : UInt8) ∉ name
  noEquals : chr '=' ∉ name
  noSpecial : chr '@' ∉ name ∧ chr '<' ∉ name

theorem nameChar_not_special (c : UInt8) (h : nameChar c = true) : c ≠ chr '@' ∧ c ≠ chr '<' := ((key_classes c).1 h).2

theorem foldedName_casefold {name : Text} (h : ReadName name) : FoldedName (ldbAttrCasefold name) := by
  have hall : ∀ c ∈ ldbAttrCasefold name, nameChar c = true := by
    intro c hc
    obtain ⟨c', hc', rfl⟩ := mem_map.mp hc
    exact nameChar_toUpper c' (h.chars c' hc')
  exact ⟨mt map_eq_nil_iff.mp h.nonempty, fun hmem => nameChar_ne_zero 0 (.inl (hall 0 hmem)) rfl,
    fun hmem => nameChar_ne_equals _ (hall _ hmem) rfl, fun hmem => (nameChar_not_special _ (hall _ hmem)).1 rfl,
    fun hmem => (nameChar_not_special _ (hall _ hmem)).2 rfl⟩

/-! ## The string of components -/

theorem escapeByte_head (c : UInt8) :
    escapeByte c = (if c ∈ escaped then chr '\\' else c) :: (escapeByte c).tail ∧
      (if c ∈ escaped then chr '\\' else c) ≠ chr ',' := (key_classes c).2

theorem escapeByte_append_inj {d : UInt8} {y : Text} (h : escapeByte c ++ x = escapeByte d ++ y) : c = d ∧ x = y := by
  have hback : chr '\\' ∈ escaped := by decide
  have hhead : (if c ∈ escaped then chr '\\' else c) = if d ∈ escaped then chr '\\' else d := by
    rw [(escapeByte_head c).1, (escapeByte_head d).1] at h
    exact (List.cons.inj h).1
  by_cases hc : c ∈ escaped
  · by_cases hd : d ∈ escaped
    · unfold escapeByte at h
      rw [if_pos hc, if_pos hd] at h
      simpa using h
    · rw [if_pos hc, if_neg hd] at hhead
      exact absurd (hhead ▸ hback) hd
  · by_cases hd : d ∈ escaped
    · rw [if_neg hc, if_pos hd] at hhead
      exact absurd (hhead ▸ hback) hc
    · rw [if_neg hc, if_neg hd] at hhead
      subst hhead
      exact ⟨rfl, append_cancel_left h⟩

/-- What stands behind a value in a string. -/
def Ends (s : Text) : Prop := s = [] ∨ ∃ rest, s = chr ',' :: rest

theorem not_ends : ¬ Ends (escapeByte c ++ x) := by
  obtain ⟨heq, hne⟩ := escapeByte_head c
  rw [heq]
  rintro (h | ⟨rest, h⟩)
  · cases h
  · exact hne (List.cons.inj h).1

/-- The escaped value and what is behind it can be told apart. -/
theorem escape_append_inj {v w r r' : Text} (hr : Ends r) (hr' : Ends r')
    (h : v.flatMap escapeByte ++ r = w.flatMap escapeByte ++ r') : v = w ∧ r = r' := by
  induction v generalizing w with
  | nil =>
    cases w with
    | nil => exact ⟨rfl, h⟩
    | cons d w =>
      have h' : r = escapeByte d ++ (w.flatMap escapeByte ++ r') := by simpa using h
      exact absurd (h' ▸ hr) not_ends
  | cons c v ih =>
    cases w with
    | nil =>
      have h' : escapeByte c ++ (v.flatMap escapeByte ++ r) = r' := by simpa using h
      exact absurd (h' ▸ hr') not_ends
    | cons d w =>
      rw [flatMap_cons, flatMap_cons, append_assoc, append_assoc] at h
      obtain ⟨rfl, hrest⟩ := escapeByte_append_inj h
      obtain ⟨rfl, hrr⟩ := ih hrest
      exact ⟨rfl, hrr⟩

theorem name_append_inj {a b y : Text} (ha : chr '=' ∉ a) (hb : chr '=' ∉ b)
    (h : a ++ chr '=' :: x = b ++ chr '=' :: y) : a = b ∧ x = y := by
  induction a generalizing b with
  | nil =>
    cases b with
    | nil => exact ⟨rfl, (List.cons.inj h).2⟩
    | cons d b => exact absurd (by rw [(List.cons.inj h).1]; simp) hb
  | cons c a ih =>
    cases b with
    | nil => exact absurd (by rw [← (List.cons.inj h).1]; simp) ha
    | cons d b =>
      obtain ⟨rfl, hrest⟩ := List.cons.inj h
      obtain ⟨rfl, hxy⟩ := ih (fun hm => ha (mem_cons_of_mem _ hm)) (fun hm => hb (mem_cons_of_mem _ hm)) hrest
      exact ⟨rfl, hxy⟩

/-- The string of components with another part behind it. -/
theorem textOf_cons_eq (comp : Text × Text) (comps : List (Text × Text)) :
    ∃ rest, textOf (comp :: comps) = comp.1 ++ chr '=' :: (comp.2.flatMap escapeByte ++ rest) ∧ Ends rest ∧
      (rest = [] ↔ comps = []) ∧ (comps ≠ [] → rest = chr ',' :: textOf comps) := by
  cases comps with
  | nil =>
    refine ⟨[], ?_, .inl rfl, by simp, fun h => absurd rfl h⟩
    rw [textOf_single, componentText, append_nil]
  | cons comp' comps =>
    refine ⟨chr ',' :: textOf (comp' :: comps), ?_, .inr ⟨_, rfl⟩, by simp, fun _ => rfl⟩
    rw [textOf_cons, componentText, append_assoc, cons_append]

theorem textOf_injective {a b : List (Text × Text)} (ha : ∀ comp ∈ a, chr '=' ∉ comp.1) (hb : ∀ comp ∈ b, chr '=' ∉ comp.1)
    (h : textOf a = textOf b) : a = b := by
  induction a generalizing b with
  | nil =>
    cases b with
    | nil => rfl
    | cons comp b =>
      obtain ⟨rest, htext, -⟩ := textOf_cons_eq comp b
      rw [htext] at h
      have h' : [] = comp.1 ++ chr '=' :: (comp.2.flatMap escapeByte ++ rest) := h
      simp at h'
  | cons comp a ih =>
    obtain ⟨rest, htext, hends, hnil, hrest⟩ := textOf_cons_eq comp a
    cases b with
    | nil =>
      rw [htext] at h
      have h' : comp.1 ++ chr '=' :: (comp.2.flatMap escapeByte ++ rest) = [] := h
      simp at h'
    | cons comp' b =>
      obtain ⟨rest', htext', hends', hnil', hrest'⟩ := textOf_cons_eq comp' b
      rw [htext, htext'] at h
      obtain ⟨hname, hvalue⟩ := name_append_inj (ha comp (by simp)) (hb comp' (by simp)) h
      obtain ⟨hv, hr⟩ := escape_append_inj hends hends' hvalue
      have hcomp : comp = comp' := Prod.ext hname hv
      by_cases hna : a = []
      · have hnb : b = [] := hnil'.mp (hr ▸ hnil.mpr hna)
        rw [hcomp, hna, hnb]
      · have hnb : b ≠ [] := fun hnb => hna (hnil.mp (hr ▸ hnil'.mpr hnb))
        rw [hrest hna, hrest' hnb, List.cons.injEq] at hr
        rw [hcomp, ih (fun c hc => ha c (by simp [hc])) (fun c hc => hb c (by simp [hc])) hr.2]

/-- The components up to the first NUL of a value. -/
def visible : List (Text × Text) → List (Text × Text)
  | [] => []
  | (name, v) :: rest => if 0 ∈ v then [(name, cstr v)] else (name, v) :: visible rest

theorem cstr_escape (v : Text) : cstr (v.flatMap escapeByte) = (cstr v).flatMap escapeByte := by
  induction v with
  | nil => rfl
  | cons c v ih =>
    by_cases hc : c = 0
    · subst hc
      rfl
    · have hv : cstr (c :: v) = c :: cstr v := takeWhile_cons_of_pos (by simpa using hc)
      rw [flatMap_cons, cstr_append (escapeByte_ne_zero c hc), ih, hv, flatMap_cons]

theorem zero_mem_escape {v : Text} : (0 : UInt8) ∈ v.flatMap escapeByte ↔ 0 ∈ v := by
  constructor
  · intro h
    obtain ⟨c, hc, hmem⟩ := mem_flatMap.mp h
    by_cases hz : c = 0
    · exact hz ▸ hc
    · exact absurd hmem (escapeByte_ne_zero c hz)
  · intro h
    exact mem_flatMap.mpr ⟨0, h, by decide⟩

/-- The string of components ends with the first NUL of a value. -/
theorem cstr_textOf {comps : List (Text × Text)} (h : ∀ comp ∈ comps, (0 : UInt8) ∉ comp.1) :
    cstr (textOf comps) = textOf (visible comps) := by
  induction comps with
  | nil => rfl
  | cons comp comps ih =>
    obtain ⟨rest, htext, -, hnil, hrest⟩ := textOf_cons_eq comp comps
    have hname : (0 : UInt8) ∉ comp.1 ++ [chr '='] := by
      simpa [chr] using ⟨h comp (by simp), by decide⟩
    have hsplit : comp.1 ++ chr '=' :: (comp.2.flatMap escapeByte ++ rest) =
        (comp.1 ++ [chr '=']) ++ (comp.2.flatMap escapeByte ++ rest) := by simp
    rw [htext, hsplit, cstr_append hname, visible]
    by_cases hz : (0 : UInt8) ∈ comp.2
    · rw [if_pos hz, cstr_append_of_mem (zero_mem_escape.mpr hz), cstr_escape, textOf_single, componentText]
      simp
    · rw [if_neg hz, cstr_append (mt zero_mem_escape.mp hz)]
      cases comps with
      | nil =>
        rw [hnil.mpr rfl]
        simp [visible, textOf_single, componentText, cstr]
      | cons comp' comps =>
        have ih' := ih fun c hc => h c (by simp [hc])
        have hcomma : cstr (chr ',' :: textOf (comp' :: comps)) = chr ',' :: cstr (textOf (comp' :: comps)) :=
          takeWhile_cons_of_pos (by decide)
        rw [hrest (by simp), hcomma, ih']
        cases hvis : visible (comp' :: comps) with
        | nil =>
          rw [visible] at hvis
          split at hvis <;> cases hvis
        | cons comp'' comps' =>
          rw [textOf_cons, componentText]
          simp

/-! ## The key of a record -/

section Schema

variable (canonicalise : Text → LdbVal → Option LdbVal)

/-- `ltdb_key`, with `none` for no key. -/
def ltdbKey (dn : LdbDn) : Option (Option (List UInt8) × LdbDn) := do
  let (folded, dn) ← ldbDnGetCasefold canonicalise dn
  return (folded.map fun text => "DN=".toList.map chr ++ text ++ [0], dn)

/-- The canonicalisation functions give a value whose length is that of its block, for one that is such. -/
def KeepsLength : Prop :=
  ∀ name v w, v.length = v.data.length → canonicalise name v = some w → w.length = w.data.length

/-- Both DNs have a key and it is the same. -/
def SameKey (dn₀ dn₁ : LdbDn) : Prop :=
  ∃ key dn₀' dn₁', ltdbKey canonicalise dn₀ = some (some key, dn₀') ∧ ltdbKey canonicalise dn₁ = some (some key, dn₁')

variable {canonicalise} {dn : LdbDn} {comps : List (Text × LdbVal)} {l : List (Text × LdbVal)}

/-- The names and the blocks of casefolded components. -/
def blocks (l : List (Text × LdbVal)) : List (Text × Text) := l.map fun comp => (comp.1, comp.2.data)

/-- Casefolded components as `ldb_dn_get_casefold` can print them. -/
structure Printable (l : List (Text × LdbVal)) : Prop where
  name : ∀ comp ∈ l, FoldedName comp.1
  length : ∀ comp ∈ l, comp.2.length = comp.2.data.length

theorem Printable.join (h : Printable l) : joinComponents l = some (cstr (textOf (blocks l))) := by
  have hl : (blocks l).map (fun comp => (comp.1, LdbVal.ofText comp.2)) = l := by
    unfold blocks
    rw [map_map]
    refine (map_congr_left fun comp hcomp => ?_).trans (map_id l)
    show (comp.1, LdbVal.ofText comp.2.data) = comp
    unfold LdbVal.ofText
    rw [← h.length comp hcomp]
  have hjoin := joinComponents_ofText (blocks l)
  rwa [hl] at hjoin

theorem Printable.noNul (h : Printable l) : ∀ comp ∈ blocks l, (0 : UInt8) ∉ comp.1 := by
  intro comp hcomp
  obtain ⟨comp', hcomp', rfl⟩ := mem_map.mp hcomp
  exact (h.name comp' hcomp').noNul

theorem Printable.noEquals (h : Printable l) : ∀ comp ∈ visible (blocks l), chr '=' ∉ comp.1 := by
  have hall : ∀ comp ∈ blocks l, chr '=' ∉ comp.1 := by
    intro comp hcomp
    obtain ⟨comp', hcomp', rfl⟩ := mem_map.mp hcomp
    exact (h.name comp' hcomp').noEquals
  generalize blocks l = comps at hall
  induction comps with
  | nil => exact fun comp hcomp => nomatch hcomp
  | cons comp comps ih =>
    rw [visible]
    intro comp' hcomp'
    split at hcomp'
    · rw [mem_singleton.mp hcomp']
      exact hall comp (by simp)
    · rcases mem_cons.mp hcomp' with rfl | hmem
      · exact hall comp (by simp)
      · exact ih (fun c hc => hall c (by simp [hc])) comp' hmem

variable {s : Text} {cs : List DnComponent}

/-- What casefolding gives for components that were read from a string, where the canonical values are well formed. -/
theorem printable_of_explode (hs : explodeText s = .ok cs)
    (hlen : ∀ comp ∈ cs, ∀ v, canonicalise (ldbAttrCasefold comp.name) comp.value = some v → v.length = v.data.length)
    (hf : casefoldPairs canonicalise (pairs cs) = some l) : Printable l := by
  have hname : ∀ comp ∈ cs, ReadName comp.name := by
    unfold explodeText at hs
    split at hs
    · cases hs
      exact fun comp hcomp => nomatch hcomp
    · exact explode_names hs
  have hfrom : ∀ x ∈ l, ∃ comp ∈ cs, ∃ v, canonicalise (ldbAttrCasefold comp.name) comp.value = some v ∧
      x = (ldbAttrCasefold comp.name, v) := by
    intro x hx
    obtain ⟨pair, hpair, hcx⟩ := mem_of_mapM hf hx
    obtain ⟨comp, hcomp, rfl⟩ := mem_map.mp hpair
    rw [Option.map_eq_some_iff] at hcx
    obtain ⟨v, hv, rfl⟩ := hcx
    exact ⟨comp, hcomp, v, hv, rfl⟩
  refine ⟨fun x hx => ?_, fun x hx => ?_⟩
  · obtain ⟨comp, hcomp, v, -, rfl⟩ := hfrom x hx
    exact foldedName_casefold (hname comp hcomp)
  · obtain ⟨comp, hcomp, v, hv, rfl⟩ := hfrom x hx
    exact hlen comp hcomp v hv

/-- `ldb_dn_get_casefold` prints the casefolded components; without a component the DN is the empty one. -/
theorem getCasefold_ok (h : DnOk canonicalise dn comps) (hnone : dn.casefold = none)
    (hf : casefoldPairs canonicalise comps = some l) (hl : Printable l) (hempty : comps = [] → dn.linearized = some []) :
    ∃ dn', ldbDnGetCasefold canonicalise dn = some (some (textOf (visible (blocks l))), dn') := by
  obtain ⟨dn', hc, hfold, -, -, hlin, -⟩ := h.casefold hf
  unfold ldbDnGetCasefold
  rw [hnone]
  dsimp only
  rw [if_neg (by simp [h.special]), hc]
  dsimp only [bind, Option.bind]
  rw [if_neg (by decide), hfold.compNum]
  have hlen := (mapM_some_iff.mp hf).length_eq
  by_cases hzero : l.length = 0
  · have hl : l = [] := eq_nil_of_length_eq_zero hzero
    have hcomps : comps = [] := eq_nil_of_length_eq_zero (hlen.trans hzero)
    rw [if_pos hzero, if_pos (hlin.trans (hempty hcomps)), hl]
    exact ⟨_, rfl⟩
  · rw [if_neg hzero, hfold.cf]
    dsimp only
    rw [hl.join, cstr_textOf hl.noNul]
    exact ⟨_, rfl⟩

theorem getCasefold_refused (h : DnOk canonicalise dn comps) (hnone : dn.casefold = none)
    (hf : casefoldPairs canonicalise comps = none) : ∃ dn', ldbDnGetCasefold canonicalise dn = some (none, dn') := by
  obtain ⟨dn', hc⟩ := h.refused hf
  unfold ldbDnGetCasefold
  rw [hnone]
  dsimp only
  rw [if_neg (by simp [h.special]), hc]
  exact ⟨dn', rfl⟩

/-- The casefolded components agree up to the first NUL of a value and are told apart behind it. -/
def DifferBehindNul (l₀ l₁ : List (Text × LdbVal)) : Prop :=
  visible (blocks l₀) = visible (blocks l₁) ∧ l₀.map cut ≠ l₁.map cut

/-- The condition on two strings under which the DNs are equal if and only if they name the same record. -/
structure KeyAgrees (canonicalise : Text → LdbVal → Option LdbVal) (s₀ s₁ : Text) (cs₀ cs₁ : List DnComponent) : Prop where
  nul : ∀ l₀ l₁, casefoldPairs canonicalise (pairs cs₀) = some l₀ → casefoldPairs canonicalise (pairs cs₁) = some l₁ →
    ¬ DifferBehindNul l₀ l₁
  refused : casefoldPairs canonicalise (pairs cs₀) = none → s₀ ≠ s₁

theorem visible_of_cut {l₀ l₁ : List (Text × LdbVal)} (h₀ : Printable l₀) (h₁ : Printable l₁)
    (h : l₀.map cut = l₁.map cut) : visible (blocks l₀) = visible (blocks l₁) := by
  induction l₀ generalizing l₁ with
  | nil =>
    cases l₁ with
    | nil => rfl
    | cons y l₁ => cases h
  | cons x l₀ ih =>
    cases l₁ with
    | nil => cases h
    | cons y l₁ =>
      rw [map_cons, map_cons, List.cons.injEq] at h
      obtain ⟨hcut, hrest⟩ := h
      unfold cut at hcut
      rw [Prod.mk.injEq, Prod.mk.injEq] at hcut
      obtain ⟨hname, hlen, hdata⟩ := hcut
      rw [h₀.length x (by simp), h₁.length y (by simp)] at hlen
      have ih' := @ih l₁ ⟨fun c hc => h₀.name c (by simp [hc]), fun c hc => h₀.length c (by simp [hc])⟩
        ⟨fun c hc => h₁.name c (by simp [hc]), fun c hc => h₁.length c (by simp [hc])⟩ hrest
      have hiff : (0 : UInt8) ∈ x.2.data ↔ (0 : UInt8) ∈ y.2.data := by
        rw [zero_mem_iff_length_cstr, zero_mem_iff_length_cstr, hdata, hlen]
      unfold blocks at ih' ⊢
      rw [map_cons, map_cons, visible, visible]
      by_cases hz : (0 : UInt8) ∈ x.2.data
      · rw [if_pos hz, if_pos (hiff.mp hz), hname, hdata]
      · have hz' := mt hiff.mpr hz
        rw [if_neg hz, if_neg hz', ih', hname, ← cstr_eq_self hz, ← cstr_eq_self hz', hdata]

theorem ltdbKey_new (hsp : (ldbDnNew s).special = false) (hs : explodeText s = .ok cs)
    (hf : casefoldPairs canonicalise (pairs cs) = some l) (hl : Printable l) :
    ∃ dn', ltdbKey canonicalise (ldbDnNew s) = some (some ("DN=".toList.map chr ++ textOf (visible (blocks l)) ++ [0]), dn') := by
  have hempty : pairs cs = [] → (ldbDnNew s).linearized = some [] := by
    intro hnil
    unfold explodeText at hs
    split at hs
    case isTrue hs' => rw [hs']; rfl
    case isFalse => exact absurd (map_eq_nil_iff.mp hnil) (explode_ne_nil hs)
  obtain ⟨dn', hget⟩ := getCasefold_ok (ldbDnNew_ok hsp hs) rfl hf hl hempty
  refine ⟨dn', ?_⟩
  unfold ltdbKey
  rw [hget]
  rfl

theorem ltdbKey_refused (hsp : (ldbDnNew s).special = false) (hs : explodeText s = .ok cs)
    (hf : casefoldPairs canonicalise (pairs cs) = none) : ∃ dn', ltdbKey canonicalise (ldbDnNew s) = some (none, dn') := by
  obtain ⟨dn', hget⟩ := getCasefold_refused (ldbDnNew_ok hsp hs) rfl hf
  refine ⟨dn', ?_⟩
  unfold ltdbKey
  rw [hget]
  rfl

/-- Keys that are made are the same if and only if the casefolded components agree up to the first NUL of a value. -/
theorem sameKey_iff {dn₀ dn₁ dn₀' dn₁' : LdbDn} {l₀ l₁ : List (Text × LdbVal)} (h₀ : Printable l₀) (h₁ : Printable l₁)
    (hk₀ : ltdbKey canonicalise dn₀ = some (some ("DN=".toList.map chr ++ textOf (visible (blocks l₀)) ++ [0]), dn₀'))
    (hk₁ : ltdbKey canonicalise dn₁ = some (some ("DN=".toList.map chr ++ textOf (visible (blocks l₁)) ++ [0]), dn₁')) :
    SameKey canonicalise dn₀ dn₁ ↔ visible (blocks l₀) = visible (blocks l₁) := by
  constructor
  · rintro ⟨key, _, _, hkey₀, hkey₁⟩
    rw [hk₀, Option.some.injEq, Prod.mk.injEq, Option.some.injEq] at hkey₀
    rw [hk₁, Option.some.injEq, Prod.mk.injEq, Option.some.injEq] at hkey₁
    have heq := hkey₀.1.trans hkey₁.1.symm
    rw [append_cancel_right_eq, append_cancel_left_eq] at heq
    exact textOf_injective h₀.noEquals h₁.noEquals heq
  · intro heq
    exact ⟨_, dn₀', dn₁', hk₀, heq ▸ hk₁⟩

theorem sameText_new {s₀ s₁ : Text} : SameText (ldbDnNew s₀) (ldbDnNew s₁) ↔ s₀ = s₁ := by
  constructor
  · rintro ⟨s, h₀, h₁⟩
    exact (Option.some.inj h₀).trans (Option.some.inj h₁).symm
  · rintro rfl
    exact ⟨s₀, rfl, rfl⟩

/-- Two DNs that were just made are equal if and only if they have the same key, if and only if they do not differ behind
the first NUL of a casefolded value, and no value of a DN that is compared with itself is refused. -/
theorem compare_sameKey_iff {s₀ s₁ : Text} {cs₀ cs₁ : List DnComponent} (hcanon : KeepsLength canonicalise)
    (hsp₀ : (ldbDnNew s₀).special = false) (hsp₁ : (ldbDnNew s₁).special = false)
    (hs₀ : explodeText s₀ = .ok cs₀) (hs₁ : explodeText s₁ = .ok cs₁)
    (hnul₀ : ∀ comp ∈ cs₀, comp.value.length = comp.value.data.length)
    (hnul₁ : ∀ comp ∈ cs₁, comp.value.length = comp.value.data.length) :
    (∃ r dn₀ dn₁, ldbDnCompare canonicalise (ldbDnNew s₀) (ldbDnNew s₁) = some (r, dn₀, dn₁) ∧
      (r = 0 ↔ SameKey canonicalise (ldbDnNew s₀) (ldbDnNew s₁))) ↔ KeyAgrees canonicalise s₀ s₁ cs₀ cs₁ := by
  have hok₀ := @ldbDnNew_ok canonicalise s₀ cs₀ hsp₀ hs₀
  have hok₁ := @ldbDnNew_ok canonicalise s₁ cs₁ hsp₁ hs₁
  have hsame : ∀ {r : Int} {dn₀ dn₁ : LdbDn} {P Q : Prop},
      ldbDnCompare canonicalise (ldbDnNew s₀) (ldbDnNew s₁) = some (r, dn₀, dn₁) → ((r = 0 ↔ P) ↔ Q) →
      ((∃ r dn₀ dn₁, ldbDnCompare canonicalise (ldbDnNew s₀) (ldbDnNew s₁) = some (r, dn₀, dn₁) ∧ (r = 0 ↔ P)) ↔ Q) := by
    intro r dn₀ dn₁ P Q hr hiff
    rw [← hiff, hr]
    constructor
    · rintro ⟨r', _, _, heq, hP⟩
      cases heq
      exact hP
    · exact fun hP => ⟨r, dn₀, dn₁, rfl, hP⟩
  by_cases hrefused : casefoldPairs canonicalise (pairs cs₀) = none ∨ casefoldPairs canonicalise (pairs cs₁) = none
  · obtain ⟨r, dn₀, dn₁, hr, hiff⟩ := compare_refused hok₀ hok₁ hrefused
    have hkey : ¬ SameKey canonicalise (ldbDnNew s₀) (ldbDnNew s₁) := by
      rintro ⟨key, _, _, hkey₀, hkey₁⟩
      rcases hrefused with hf | hf
      · obtain ⟨dn', hk⟩ := ltdbKey_refused hsp₀ hs₀ hf
        rw [hk] at hkey₀
        cases hkey₀
      · obtain ⟨dn', hk⟩ := ltdbKey_refused hsp₁ hs₁ hf
        rw [hk] at hkey₁
        cases hkey₁
    refine hsame hr ?_
    rw [hiff, sameText_new]
    constructor
    · intro h
      refine ⟨fun l₀ l₁ hl₀ hl₁ => ?_, fun _ heq => hkey (h.mp heq)⟩
      simp [hl₀, hl₁] at hrefused
    · intro h
      refine iff_of_false (fun heq => ?_) hkey
      have hpairs : pairs cs₀ = pairs cs₁ := (sameText_new.mpr heq).eq hok₀ hok₁
      rw [← hpairs, or_self] at hrefused
      exact h.refused hrefused heq
  · rw [not_or] at hrefused
    obtain ⟨l₀, hl₀⟩ := Option.ne_none_iff_exists'.mp hrefused.1
    obtain ⟨l₁, hl₁⟩ := Option.ne_none_iff_exists'.mp hrefused.2
    have hp₀ := printable_of_explode hs₀ (fun comp hcomp _ => hcanon _ _ _ (hnul₀ comp hcomp)) hl₀
    have hp₁ := printable_of_explode hs₁ (fun comp hcomp _ => hcanon _ _ _ (hnul₁ comp hcomp)) hl₁
    obtain ⟨r, dn₀, dn₁, hr, -, -, hiff⟩ := compare_ok hok₀ hok₁ hl₀ hl₁
    obtain ⟨dn₀', hk₀⟩ := ltdbKey_new hsp₀ hs₀ hl₀ hp₀
    obtain ⟨dn₁', hk₁⟩ := ltdbKey_new hsp₁ hs₁ hl₁ hp₁
    refine hsame hr ?_
    rw [hiff, sameKey_iff hp₀ hp₁ hk₀ hk₁]
    constructor
    · intro h
      refine ⟨fun l₀' l₁' hl₀' hl₁' hdiff => ?_, fun hf => absurd hf hrefused.1⟩
      rw [hl₀, Option.some.injEq] at hl₀'
      rw [hl₁, Option.some.injEq] at hl₁'
      subst hl₀' hl₁'
      exact hdiff.2 (h.mpr hdiff.1)
    · intro h
      refine ⟨visible_of_cut hp₀ hp₁, fun hvis => ?_⟩
      by_contra hne
      exact h.nul l₀ l₁ hl₀ hl₁ ⟨hvis, hne⟩

end Schema

/-- The string "cn=a, dc=x" names the record of "CN=a,dc=x". -/
theorem compare_sameKey_spaced :
    ∃ r dn₀ dn₁, ldbDnCompare (fun _ v => some v) (ldbDnNew ("cn=a, dc=x".toList.map chr))
        (ldbDnNew ("CN=a,dc=x".toList.map chr)) = some (r, dn₀, dn₁) ∧
      (r = 0 ↔ SameKey (fun _ v => some v) (ldbDnNew ("cn=a, dc=x".toList.map chr)) (ldbDnNew ("CN=a,dc=x".toList.map chr))) := by
  have hfold : ∀ cn ∈ ["cn", "CN"], casefoldPairs (fun _ v => some v)
      (pairs [toComponent (cn.toList.map chr, "a".toList.map chr), toComponent ("dc".toList.map chr, "x".toList.map chr)]) =
      some [("CN".toList.map chr, LdbVal.ofText ("a".toList.map chr)), ("DC".toList.map chr, LdbVal.ofText ("x".toList.map chr))] := by
    decide
  have hkeeps : KeepsLength (fun _ v => some v) := by
    rintro name v w hv ⟨⟩
    exact hv
  refine (@compare_sameKey_iff (fun _ v => some v) ("cn=a, dc=x".toList.map chr) ("CN=a,dc=x".toList.map chr)
    [toComponent ("cn".toList.map chr, "a".toList.map chr), toComponent ("dc".toList.map chr, "x".toList.map chr)]
    [toComponent ("CN".toList.map chr, "a".toList.map chr), toComponent ("dc".toList.map chr, "x".toList.map chr)]
    hkeeps (by decide) (by decide) (by decide) (by decide) (by decide) (by decide)).mpr ⟨?_, fun _ => by decide⟩
  intro l₀ l₁ hl₀ hl₁ hdiff
  rw [hfold "cn" (by simp), Option.some.injEq] at hl₀
  rw [hfold "CN" (by simp), Option.some.injEq] at hl₁
  subst hl₀ hl₁
  exact hdiff.2 rfl

/-- `ldb_canonicalise_objectSid` (lib/ldb/samba/ldif_handlers.c) at the string "S-1-5-21", which becomes the block of the
SID: revision 1, one sub-authority, the authority 5 in six bytes, and 21 in four. Other values are kept here. -/
def canonicaliseSid (name : Text) (v : LdbVal) : Option LdbVal :=
  if name = "OBJECTSID".toList.map chr ∧ v = LdbVal.ofText ("S-1-5-21".toList.map chr) then
    some (LdbVal.ofText [1, 1, 0, 0, 0, 0, 0, 5, 21, 0, 0, 0])
  else some v

/-- Two DNs below different components are different, but have the same key, which ends with the first NUL of the SID. -/
theorem compare_not_sameKey :
    explodeText ("objectSid=S-1-5-21,dc=a".toList.map chr) = .ok [toComponent ("objectSid".toList.map chr, "S-1-5-21".toList.map chr),
        toComponent ("dc".toList.map chr, "a".toList.map chr)] ∧
      explodeText ("objectSid=S-1-5-21,dc=b".toList.map chr) = .ok [toComponent ("objectSid".toList.map chr, "S-1-5-21".toList.map chr),
        toComponent ("dc".toList.map chr, "b".toList.map chr)] ∧
      KeepsLength canonicaliseSid ∧
      (ldbDnCompare canonicaliseSid (ldbDnNew ("objectSid=S-1-5-21,dc=a".toList.map chr))
        (ldbDnNew ("objectSid=S-1-5-21,dc=b".toList.map chr))).map Prod.fst = some (-1) ∧
      SameKey canonicaliseSid (ldbDnNew ("objectSid=S-1-5-21,dc=a".toList.map chr))
        (ldbDnNew ("objectSid=S-1-5-21,dc=b".toList.map chr)) := by
  refine ⟨by decide, by decide, ?_, by decide, ?_⟩
  · intro name v w hv hw
    unfold canonicaliseSid at hw
    split at hw
    · cases hw
      rfl
    · cases hw
      exact hv
  · exact ⟨"DN=OBJECTSID=".toList.map chr ++ [1, 1, 0], _, _, rfl, rfl⟩

end Samba.Ldb
