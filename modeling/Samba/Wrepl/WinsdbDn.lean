/-
The DN of a NetBIOS name in the WINS database (`winsdb_dn` and `winsdb_nbt_name` in nbt_server/wins/winsdb.c). Name and
scope are put into the DN string as they are, and read back through the parser of DNs, so that a name is found again only
if it has nothing to escape in it. The attributes of the database have no schema: they are octet strings, but for those
that `@ATTRIBUTES` makes case insensitive.
-/
import Samba.Ldb.AttribHandlers
import Samba.Ldb.DnEdit
import Samba.Ldb.DnSplice
import Samba.Wrepl.Winsdb

namespace Samba.Wrepl

open CString List Samba.Ldb Samba.Ldb.ExplodeState

/-! ## Names and DNs -/

/-- The conversion `0x%02X` of `printf`, for a number below 256. -/
def typeText (type : UInt8) : Text :=
  chr '0' :: chr 'x' :: ((((Nat.toDigits 16 type.toNat).leftpad 2 '0').map Char.toUpper).map chr)

/-- The canonicalisation functions of the attributes in a DN. -/
def winsCanonicalise (caseInsensitive : Text → Bool) (attr : Text) (v : LdbVal) : Option LdbVal :=
  if caseInsensitive attr then ldbHandlerFold v else ldbHandlerCopy v

def typeAttr : Text := "type".toList.map chr
def nameAttr : Text := "name".toList.map chr
def scopeAttr : Text := "scope".toList.map chr

/-- One of the calls of `ldb_dn_add_child_fmt` in `winsdb_dn`, for a string that may be missing or empty. -/
def addPart (canonicalise : Text → LdbVal → Option LdbVal) (attr part : Text) (dn : LdbDn) : Option LdbDn :=
  if ldbDnIsValid dn && part ≠ [] then (ldbDnAddChildFmt canonicalise dn (attr ++ chr '=' :: part)).map Prod.snd
  else some dn

/-- `winsdb_dn`. -/
def winsdbDn (canonicalise : Text → LdbVal → Option LdbVal) (name : NbtName) : Option LdbDn := do
  let dn ← addPart canonicalise nameAttr name.name (ldbDnNew (typeAttr ++ chr '=' :: typeText name.type))
  addPart canonicalise scopeAttr (name.scope.getD []) dn

/-- The `struct nbt_name` that `winsdb_nbt_name` fills in; its enumeration has 32 bits. -/
structure FilledName where
  name : Text
  scope : Option Text
  type : Nat
  deriving DecidableEq, Repr

/-- The value of the component at a place that has a given name. -/
def componentNamed (dn : LdbDn) (name : Text) (cur : Nat) : Option LdbVal :=
  if cur < dn.compNum ∧ (ldbDnGetComponentName dn cur).all (sameCase name) then ldbDnGetComponentVal dn cur else none

/-- `winsdb_nbt_name` behind the check of the number of components. -/
def fillName (dn : LdbDn) : Except NtStatus FilledName :=
  let scope := (componentNamed dn scopeAttr 0).map fun v => cstr v.data
  let cur := if scope.isSome then 1 else 0
  let name := (componentNamed dn nameAttr cur).map fun v => cstr v.data
  let cur := if name.isSome then cur + 1 else cur
  match componentNamed dn typeAttr cur with
  | none => .error .internalDbCorruption
  | some v => .ok ⟨name.getD [], scope, strtoull (cstr v.data) % 2 ^ 32⟩

/-- `winsdb_nbt_name`. -/
def winsdbNbtName (dn : LdbDn) : Option (Except NtStatus FilledName) := do
  let (compNum, dn) ← ldbDnGetCompNum dn
  -- the number is unsigned: that of an invalid DN is large
  if compNum < 0 ∨ compNum > 3 then return .error .internalDbCorruption
  else return fillName dn

/-! ## The string of a name -/

/-- A component for a string that is not empty. -/
def partOf (attr part : Text) : List (Text × Text) := if part = [] then [] else [(attr, part)]

/-- The components of the DN of a name. -/
def NbtName.components (name : NbtName) : List (Text × Text) :=
  partOf scopeAttr (name.scope.getD []) ++ (partOf nameAttr name.name ++ [(typeAttr, typeText name.type)])

/-- The string of components that are not escaped. -/
def rawText (comps : List (Text × Text)) : Text := [chr ','].intercalate (comps.map rawComponent)

theorem rawText_single (comp : Text × Text) : rawText [comp] = rawComponent comp := by
  simp [rawText]

theorem rawText_cons (comp comp' : Text × Text) (comps : List (Text × Text)) :
    rawText (comp :: comp' :: comps) = rawComponent comp ++ chr ',' :: rawText (comp' :: comps) := by
  simp [rawText, intercalate_cons_cons]

/-- A name as NetBIOS has it. -/
structure NbtName.WellFormed (name : NbtName) : Prop where
  noNul : (0 : UInt8) ∉ name.name
  scope : ∀ scope, name.scope = some scope → (0 : UInt8) ∉ scope ∧ scope ≠ []

variable {canonicalise : Text → LdbVal → Option LdbVal} {name other : NbtName}

/-- Strings of components in front of which a component can be put. -/
structure StartsAlpha (comps : List (Text × Text)) : Prop where
  nonempty : comps ≠ []
  names : ∀ comp ∈ comps, ∃ c s, comp.1 = c :: s ∧ isAlpha c = true

variable {comps : List (Text × Text)} {attr part : Text} {cs : List DnComponent} {dn : LdbDn}

theorem StartsAlpha.rawText (h : StartsAlpha comps) : ∃ c s, rawText comps = c :: s ∧ isAlpha c = true := by
  cases comps with
  | nil => exact absurd rfl h.nonempty
  | cons comp comps =>
    obtain ⟨c, s, hname, hc⟩ := h.names comp mem_cons_self
    cases comps with
    | nil => exact ⟨c, _, by rw [rawText_single, rawComponent, hname]; rfl, hc⟩
    | cons comp' comps => exact ⟨c, _, by rw [rawText_cons, rawComponent, hname]; rfl, hc⟩

theorem startsAlpha_partOf (hattr : ∃ c s, attr = c :: s ∧ isAlpha c = true)
    (h : StartsAlpha comps) : StartsAlpha (partOf attr part ++ comps) := by
  refine ⟨append_ne_nil_of_right_ne_nil _ h.nonempty, fun comp hcomp => ?_⟩
  rcases mem_append.mp hcomp with hmem | hmem
  · unfold partOf at hmem
    split at hmem
    · cases hmem
    · rw [mem_singleton.mp hmem]
      exact hattr
  · exact h.names comp hmem

/-- A part in front of a DN of which only the string is known. -/
theorem addPart_new (hattr : ∃ c s, attr = c :: s ∧ isAlpha c = true) (h : StartsAlpha comps) :
    addPart canonicalise attr part (ldbDnNew (rawText comps)) = some (ldbDnNew (rawText (partOf attr part ++ comps))) := by
  unfold addPart partOf
  by_cases hne : part = []
  · rw [if_neg (by simp [hne]), if_pos hne, nil_append]
  · obtain ⟨comp, rest, rfl⟩ := exists_cons_of_ne_nil h.nonempty
    obtain ⟨c, s, htext, hc⟩ := h.rawText
    obtain ⟨d, t, rfl, hd⟩ := hattr
    have hspecial := (@ldbDnNew_letter c s hc).trans (@ldbDnNew_letter d (t ++ chr '=' :: part ++ chr ',' :: c :: s) hd).symm
    rw [if_pos (by simp [ldbDnIsValid, ldbDnNew, hne]), if_neg hne, singleton_append, rawText_cons, htext,
      ldbDnAddChildFmt_text canonicalise rfl rfl rfl, Option.map_some, Option.some.injEq, rawComponent]
    unfold ldbDnNew at hspecial ⊢
    dsimp only at hspecial ⊢
    rw [hspecial]
    rfl

theorem startsAlpha_type (type : UInt8) : StartsAlpha [(typeAttr, typeText type)] := by
  refine ⟨by simp, fun comp hcomp => ?_⟩
  rw [mem_singleton.mp hcomp]
  exact ⟨chr 't', _, rfl, by decide⟩

theorem startsAlpha_components (name : NbtName) : StartsAlpha name.components :=
  startsAlpha_partOf ⟨chr 's', _, rfl, by decide⟩ (startsAlpha_partOf ⟨chr 'n', _, rfl, by decide⟩ (startsAlpha_type _))

theorem winsdbDn_eq (name : NbtName) : winsdbDn canonicalise name = some (ldbDnNew (rawText name.components)) := by
  have htype := startsAlpha_type name.type
  have hattr : ∃ c s, nameAttr = c :: s ∧ isAlpha c = true := ⟨chr 'n', _, rfl, by decide⟩
  have hname : addPart canonicalise nameAttr name.name (ldbDnNew (rawText [(typeAttr, typeText name.type)])) = _ :=
    addPart_new hattr htype
  rw [rawText_single, rawComponent] at hname
  unfold winsdbDn
  rw [hname]
  exact addPart_new ⟨chr 's', _, rfl, by decide⟩ (startsAlpha_partOf hattr htype)

/-! ## Names that come back -/

/-- Name and scope can be put into a DN string as they are. -/
structure NbtName.Spliceable (n : NbtName) : Prop where
  name : Samba.Ldb.Spliceable n.name
  scope : Samba.Ldb.Spliceable (n.scope.getD [])

/-- The DN of the name is valid, and the name is read back from it. -/
def RoundTrips (canonicalise : Text → LdbVal → Option LdbVal) (name : NbtName) : Prop :=
  ∃ dn dn', winsdbDn canonicalise name = some dn ∧ ldbDnValidate dn = some (true, dn') ∧
    winsdbNbtName dn = some (.ok ⟨name.name, name.scope, name.type.toNat⟩)

theorem isAlnum_typeText : ∀ type : UInt8, (typeText type).all isAlnum = true := forall_byte (by decide +kernel)

theorem strtoull_typeText : ∀ type : UInt8, strtoull (cstr (typeText type)) = type.toNat := forall_byte (by decide +kernel)

theorem typeText_spec (type : UInt8) : (typeText type ≠ [] ∧ (0 : UInt8) ∉ typeText type ∧
      (typeText type).head? ≠ some (chr ' ') ∧ (typeText type).getLast? ≠ some (chr ' ')) ∧
    (∀ c ∈ typeText type, c ∉ escaped) ∧ strtoull (cstr (typeText type)) = type.toNat := by
  have halnum : ∀ c ∈ typeText type, isAlnum c = true := all_eq_true.mp (isAlnum_typeText type)
  have hzero : ¬isAlnum 0 = true := by decide
  have hspace : ¬isAlnum (chr ' ') = true := by decide
  have hplain : ∀ c ∈ escaped, ¬isAlnum c = true := forall_entry (by decide +kernel)
  refine ⟨⟨cons_ne_nil _ _, fun h => hzero (halnum _ h), fun h => ?_, fun h => ?_⟩,
    fun c hc he => hplain c he (halnum c hc), strtoull_typeText type⟩
  · exact hspace (halnum _ (mem_of_mem_head? h))
  · exact hspace (halnum _ (mem_of_getLast? h))

/-- A component as it is put in and as it comes back. -/
structure RawComponent (comp : Text × Text) : Prop where
  plain : PlainComponent comp
  unescaped : Unescaped comp.2

theorem rawComponent_of_spliceable (hattr : validName attr = true) (hne : part ≠ [])
    (hz : (0 : UInt8) ∉ part) (h : Samba.Ldb.Spliceable part) : RawComponent (attr, part) :=
  ⟨⟨hattr, hne, hz, h.noSpaceFirst, h.noSpaceLast⟩, h.toUnescaped⟩

theorem rawComponent_type (type : UInt8) : RawComponent (typeAttr, typeText type) := by
  obtain ⟨⟨hne, hz, hfirst, hlast⟩, hchars, -⟩ := typeText_spec type
  have hattr : validName typeAttr = true := by decide
  exact ⟨⟨hattr, hne, hz, hfirst, hlast⟩, hchars, hlast⟩

theorem rawComponent_partOf (hattr : validName attr = true) (hz : (0 : UInt8) ∉ part)
    (h : Samba.Ldb.Spliceable part) : ∀ comp ∈ partOf attr part, RawComponent comp := by
  intro comp hcomp
  unfold partOf at hcomp
  split at hcomp
  case isTrue => cases hcomp
  case isFalse hne =>
    rw [mem_singleton.mp hcomp]
    exact rawComponent_of_spliceable hattr hne hz h

theorem NbtName.WellFormed.scopeNoNul (h : name.WellFormed) : (0 : UInt8) ∉ name.scope.getD [] := by
  cases hs : name.scope with
  | none => simp
  | some scope => exact (h.scope scope hs).1

theorem rawComponent_components (hw : name.WellFormed) (h : name.Spliceable) : ∀ comp ∈ name.components, RawComponent comp := by
  intro comp hcomp
  rcases mem_append.mp hcomp with hmem | hmem
  · exact rawComponent_partOf (by decide) hw.scopeNoNul h.scope comp hmem
  · rcases mem_append.mp hmem with hmem | hmem
    · exact rawComponent_partOf (by decide) hw.noNul h.name comp hmem
    · rw [mem_singleton.mp hmem]
      exact rawComponent_type name.type

theorem rawText_eq (h : ∀ comp ∈ comps, RawComponent comp) : rawText comps = textOf comps := by
  unfold rawText textOf
  congr 1
  exact map_congr_left fun comp hcomp => rawComponent_eq (h comp hcomp).unescaped (h comp hcomp).plain.noNul

theorem components_ne_nil (name : NbtName) : name.components ≠ [] := by simp [NbtName.components]

theorem explode_components (hw : name.WellFormed) (h : name.Spliceable) :
    explode (rawText name.components) = .ok (name.components.map toComponent) := by
  have hraw := rawComponent_components hw h
  rw [rawText_eq hraw]
  exact (run_textOf ⟨rfl, rfl, rfl, rfl, rfl, rfl⟩ rfl (components_ne_nil name) fun comp hcomp => (hraw comp hcomp).plain).mpr
    fun comp hcomp => not_trailing_unescaped (hraw comp hcomp).unescaped

/-- The components are those of the string, when the DN is valid. -/
theorem validate_new (h : StartsAlpha comps) {dn' : LdbDn}
    (hvalid : ldbDnValidate (ldbDnNew (rawText comps)) = some (true, dn')) :
    ∃ cs, explode (rawText comps) = .ok cs ∧ dn' = { ldbDnNew (rawText comps) with components := some cs } := by
  obtain ⟨c, s, htext, hc⟩ := h.rawText
  have hspecial := @ldbDnNew_letter c s hc
  rw [← htext] at hspecial
  have hne : rawText comps ≠ [] := by rw [htext]; exact cons_ne_nil c s
  rw [ldbDnValidate, ldbDnExplode_text rfl rfl rfl hne hspecial] at hvalid
  cases he : explode (rawText comps) with
  | ok cs =>
    rw [he] at hvalid
    exact ⟨cs, rfl, (Prod.mk.inj (Option.some.inj hvalid)).2.symm⟩
  | error e =>
    rw [he] at hvalid
    cases e <;> cases hvalid

theorem validate_of_explode (h : StartsAlpha comps) (he : explode (rawText comps) = .ok cs) :
    ldbDnValidate (ldbDnNew (rawText comps)) = some (true, { ldbDnNew (rawText comps) with components := some cs }) := by
  obtain ⟨c, s, htext, hc⟩ := h.rawText
  have hspecial := @ldbDnNew_letter c s hc
  rw [← htext] at hspecial
  have hne : rawText comps ≠ [] := by rw [htext]; exact cons_ne_nil c s
  rw [ldbDnValidate, ldbDnExplode_text rfl rfl rfl hne hspecial, he]

theorem componentNamed_eq (hcs : dn.components = some cs) (name : Text) (cur : Nat) :
    componentNamed dn name cur = cs[cur]?.bind fun comp => if sameCase name comp.name then some comp.value else none := by
  unfold componentNamed LdbDn.compNum ldbDnGetComponentName ldbDnGetComponentVal
  rw [hcs, Option.getD_some]
  by_cases hlt : cur < cs.length
  · rw [List.getElem?_eq_getElem hlt]
    simp [hlt]
  · rw [List.getElem?_eq_none (not_lt.mp hlt), if_neg fun h => hlt h.1]
    rfl

theorem winsdbNbtName_eq {dn' : LdbDn} (h : ldbDnValidate dn = some (true, dn')) :
    winsdbNbtName dn = some (if dn'.compNum > 3 then .error .internalDbCorruption else fillName dn') := by
  unfold winsdbNbtName ldbDnGetCompNum
  rw [h]
  dsimp only [bind, Option.bind, pure]
  rw [if_pos rfl]
  by_cases hlarge : dn'.compNum > 3
  · rw [if_pos (.inr (by omega)), if_pos hlarge]
  · rw [if_neg (by omega), if_neg hlarge]

/-- The components of a name give the name back. -/
theorem fillName_components (hw : name.WellFormed) (hcs : dn.components = some (name.components.map toComponent)) :
    fillName dn = .ok ⟨name.name, name.scope, name.type.toNat⟩ := by
  obtain ⟨-, -, htype⟩ := typeText_spec name.type
  have hs : sameCase scopeAttr scopeAttr = true ∧ sameCase nameAttr nameAttr = true ∧ sameCase typeAttr typeAttr = true :=
    ⟨beq_self_eq_true _, beq_self_eq_true _, beq_self_eq_true _⟩
  have hd : sameCase scopeAttr nameAttr = false ∧ sameCase scopeAttr typeAttr = false ∧ sameCase nameAttr typeAttr = false := by
    decide
  unfold fillName
  simp only [componentNamed_eq hcs]
  have hname := cstr_eq_self hw.noNul
  cases hscope : name.scope with
  | none =>
    by_cases hn : name.name = []
    · simp [NbtName.components, partOf, hscope, hn, toComponent, LdbVal.ofText, hs, hd, htype]
    · simp [NbtName.components, partOf, hscope, hn, toComponent, LdbVal.ofText, hs, hd, htype, hname]
  | some scope =>
    obtain ⟨hz, hne⟩ := hw.scope scope hscope
    by_cases hn : name.name = []
    · simp [NbtName.components, partOf, hscope, hn, hne, toComponent, LdbVal.ofText, hs, hd, htype,
        cstr_eq_self hz]
    · simp [NbtName.components, partOf, hscope, hn, hne, toComponent, LdbVal.ofText, hs, htype,
        hname, cstr_eq_self hz]

theorem length_components (name : NbtName) : name.components.length ≤ 3 := by
  unfold NbtName.components partOf
  split <;> split <;> simp

/-- A name that can be put in as it is comes back. -/
theorem roundTrips_of_spliceable (hw : name.WellFormed) (h : name.Spliceable) : RoundTrips canonicalise name := by
  have hvalid := validate_of_explode (startsAlpha_components name) (explode_components hw h)
  refine ⟨_, _, winsdbDn_eq name, hvalid, ?_⟩
  have hle : ¬ ({ ldbDnNew (rawText name.components) with
      components := some (name.components.map toComponent) } : LdbDn).compNum > 3 := by
    unfold LdbDn.compNum
    dsimp only
    rw [Option.getD_some, length_map]
    exact not_lt.mpr (length_components name)
  rw [winsdbNbtName_eq hvalid, if_neg hle, fillName_components hw rfl]

/-- What was read of scope and name, and from which components. -/
theorem fillName_ok {filled : FilledName} (hcs : dn.components = some cs) (h : fillName dn = .ok filled) :
    (∀ scope, filled.scope = some scope → ∃ comp, cs[0]? = some comp ∧ cstr comp.value.data = scope) ∧
    (filled.name ≠ [] → ∃ comp, cs[if filled.scope.isSome then 1 else 0]? = some comp ∧ cstr comp.value.data = filled.name) := by
  have hfound : ∀ {attr v : Text} {cur : Nat}, ((componentNamed dn attr cur).map fun v => cstr v.data) = some v →
      ∃ comp, cs[cur]? = some comp ∧ cstr comp.value.data = v := by
    intro attr v cur hv
    rw [componentNamed_eq hcs, Option.map_eq_some_iff] at hv
    obtain ⟨w, hw, rfl⟩ := hv
    obtain ⟨comp, hcomp, hif⟩ := Option.bind_eq_some_iff.mp hw
    split at hif
    · cases hif
      exact ⟨comp, hcomp, rfl⟩
    · cases hif
  unfold fillName at h
  dsimp only at h
  split at h
  · cases h
  · cases h
    refine ⟨fun scope hscope => hfound hscope, fun hne => ?_⟩
    dsimp only at hne ⊢
    cases hname : (componentNamed dn nameAttr
        (if ((componentNamed dn scopeAttr 0).map fun v => cstr v.data).isSome = true then 1 else 0)).map fun v => cstr v.data with
    | none =>
      rw [hname] at hne
      exact absurd rfl hne
    | some v => exact hfound hname

theorem spliceable_nil : Samba.Ldb.Spliceable [] := ⟨⟨fun c hc => (nomatch hc), by simp⟩, by simp⟩

theorem validName_chars (h : validName attr = true) : attr.all nameChar = true := by
  cases attr with
  | nil => cases h
  | cons c attr =>
    rw [validName, Bool.and_eq_true] at h
    rw [all_cons, Bool.and_eq_true, nameChar, h.1]
    exact ⟨rfl, h.2⟩

theorem separated_rawText {comp : Text × Text} (h : validName comp.1 = true) :
    Separated (chr ',' :: rawText (comp :: comps)) := by
  cases comps with
  | nil => exact ⟨⟨comp.1, comp.2, by rw [rawText_single, rawComponent], validName_chars h⟩⟩
  | cons comp' comps =>
    refine ⟨⟨comp.1, comp.2 ++ chr ',' :: rawText (comp' :: comps), ?_, validName_chars h⟩⟩
    rw [rawText_cons, rawComponent, append_assoc, cons_append]

/-- A value that is read back from where it was put, in front of the type, can be put there. -/
theorem spliceable_of_read {n : Nat} {st : ExplodeState} {attr' part' : Text}
    (h : st.AtStart) (ht : st.t = none) (hplace : st.components.length = n) (hattr : validName attr = true)
    (hattr' : validName attr' = true) (hy : Yields n st (rawText ((attr, part) :: (attr', part') :: comps)) part) :
    Samba.Ldb.Spliceable part := by
  rw [rawText_cons] at hy
  exact @spliceable_of_yields n st (attr, part) _ h ht hplace hattr (separated_rawText hattr') hy

/-- A name that comes back can be put in as it is. -/
theorem spliceable_of_roundTrips (hw : name.WellFormed) (h : RoundTrips canonicalise name) : name.Spliceable := by
  obtain ⟨dn, dn', hdn, hvalid, hread⟩ := h
  rw [winsdbDn_eq, Option.some.injEq] at hdn
  subst hdn
  obtain ⟨cs, he, rfl⟩ := validate_new (startsAlpha_components name) hvalid
  rw [winsdbNbtName_eq hvalid, Option.some.injEq] at hread
  split at hread
  · cases hread
  obtain ⟨hscope, hname⟩ := fillName_ok rfl hread
  have htype : validName typeAttr = true := by decide
  have hnameAttr : validName nameAttr = true := by decide
  have hscopeAttr : validName scopeAttr = true := by decide
  have hstart : AtStart {} := ⟨rfl, rfl, rfl, rfl, rfl, rfl⟩
  have hrun : (run {} (rawText name.components)).bind finish = .ok cs := he
  obtain ⟨n, scope, type⟩ := name
  dsimp only at hscope hname
  cases scope with
  | none =>
    refine ⟨?_, spliceable_nil⟩
    by_cases hne : n = []
    · exact hne ▸ spliceable_nil
    · obtain ⟨comp, hcomp, hval⟩ := hname hne
      have hcomps : NbtName.components ⟨n, none, type⟩ = [(nameAttr, n), (typeAttr, typeText type)] := by
        simp [NbtName.components, partOf, hne]
      rw [hcomps] at hrun
      exact spliceable_of_read hstart rfl rfl hnameAttr htype ⟨cs, comp, hrun, hcomp, hval⟩
  | some s =>
    obtain ⟨hz, hsne⟩ := hw.scope s rfl
    obtain ⟨comp, hcomp, hval⟩ := hscope s rfl
    have hcomps : NbtName.components ⟨n, some s, type⟩ =
        (scopeAttr, s) :: (partOf nameAttr n ++ [(typeAttr, typeText type)]) := by
      simp [NbtName.components, partOf, hsne]
    rw [hcomps] at hrun
    obtain ⟨comp', comps', hrest, hattr'⟩ : ∃ comp' comps', partOf nameAttr n ++ [(typeAttr, typeText type)] = comp' :: comps' ∧
        validName comp'.1 = true := by
      unfold partOf
      split
      · exact ⟨_, _, rfl, htype⟩
      · exact ⟨_, _, rfl, hnameAttr⟩
    rw [hrest] at hrun
    have hs := spliceable_of_read hstart rfl rfl hscopeAttr hattr' ⟨cs, comp, hrun, hcomp, hval⟩
    refine ⟨?_, hs⟩
    by_cases hne : n = []
    · exact hne ▸ spliceable_nil
    · obtain ⟨comp, hcomp, hval⟩ := hname hne
      have hraw := rawComponent_of_spliceable hscopeAttr hsne hz hs
      obtain ⟨st', hst', hstart', ht', hcomps'⟩ := run_rawComponent hstart rfl hraw.plain hraw.unescaped
      rw [partOf, if_neg hne] at hrest
      rw [← hrest, singleton_append, rawText_cons, hst'] at hrun
      · exact spliceable_of_read hstart' ht' (by rw [hcomps']; rfl) hnameAttr htype ⟨cs, comp, hrun, hcomp, hval⟩

/-! ## Names that share a record -/

section

variable {caseInsensitive : Text → Bool}

/-- Two names have the same record. -/
def SameRecord (canonicalise : Text → LdbVal → Option LdbVal) (name other : NbtName) : Prop :=
  ∃ dn₀ dn₁, winsdbDn canonicalise name = some dn₀ ∧ winsdbDn canonicalise other = some dn₁ ∧ SameKey canonicalise dn₀ dn₁

/-- Two names are the same up to the casefolding of the values of a DN. -/
structure SameFolded (canonicalise : Text → LdbVal → Option LdbVal) (n m : NbtName) : Prop where
  scope : n.scope.map (fun s => canonicalise (ldbAttrCasefold scopeAttr) (.ofText s)) =
    m.scope.map fun s => canonicalise (ldbAttrCasefold scopeAttr) (.ofText s)
  unnamed : n.name = [] ↔ m.name = []
  name : canonicalise (ldbAttrCasefold nameAttr) (.ofText n.name) = canonicalise (ldbAttrCasefold nameAttr) (.ofText m.name)
  type : n.type = m.type

/-- A value without a NUL whose length is that of its block. -/
def IsText (v : LdbVal) : Prop := v.length = v.data.length ∧ (0 : UInt8) ∉ v.data

theorem mem_moveSpaces {fuel : Nat} {s : Text} {c : UInt8} (h : c ∈ moveSpaces fuel s) : c ∈ s ∨ c = chr ' ' := by
  induction fuel generalizing s with
  | zero => exact .inl h
  | succ fuel ih =>
    have hfront : ∀ d ∈ s.takeWhile (!isBlank ·), d ∈ s := fun d hd => (List.takeWhile_prefix _).subset hd
    have htail : ∀ d ∈ (s.dropWhile (!isBlank ·)), d ∈ s := fun d hd => (dropWhile_suffix _).subset hd
    have htail' : ∀ d ∈ (s.dropWhile (!isBlank ·)).dropWhile isBlank, d ∈ s := fun d hd =>
      htail d ((dropWhile_suffix _).subset hd)
    rw [moveSpaces] at h
    dsimp only at h
    split at h
    · exact .inl h
    · split at h
      · have hmoved : ∀ d ∈ chr ' ' :: (s.dropWhile (!isBlank ·)).dropWhile isBlank ++
            (s.dropWhile (!isBlank ·)).drop (((s.dropWhile (!isBlank ·)).dropWhile isBlank).length + 1),
            d ∈ s ∨ d = chr ' ' := by
          intro d hd
          rcases mem_append.mp hd with hd | hd
          · exact (mem_cons.mp hd).symm.imp_left (htail' d)
          · exact .inl (htail d (mem_of_mem_drop hd))
        rcases mem_append.mp h with h | h
        · exact (mem_append.mp h).elim (fun h => .inl (hfront c h)) fun h => hmoved c (mem_of_mem_take h)
        · exact (ih h).elim (fun h => hmoved c (mem_of_mem_drop h)) .inr
      · rcases mem_append.mp h with h | h
        · exact .inl (hfront c h)
        · rcases mem_cons.mp h with h | h
          · exact .inr h
          · exact (ih h).imp_left (htail' c)

variable {attr : Text}

theorem winsCanonicalise_text {v w : LdbVal} (hv : IsText v)
    (h : winsCanonicalise caseInsensitive attr v = some w) : IsText w := by
  unfold winsCanonicalise at h
  split at h
  · unfold ldbHandlerFold at h
    cases h
    refine ⟨rfl, fun hz => ?_⟩
    have hmem := (mem_moveSpaces hz).resolve_right (by decide)
    have hfold : (0 : UInt8) ∈ (cstr v.data).map toUpper :=
      (List.rdropWhile_prefix _ _).subset ((dropWhile_suffix _).subset hmem)
    obtain ⟨c, hc, hup⟩ := mem_map.mp hfold
    have hzero : toUpper c = 0 → c = 0 := @forall_byte (fun c => toUpper c = 0 → c = 0) (by decide +kernel) c
    exact absurd (mem_takeWhile_imp hc) (by simp [hzero hup])
  · unfold ldbHandlerCopy at h
    split at h
    · cases h
      exact hv
    · cases h

/-- The canonical form of a type tells which type it is. -/
theorem canonicalise_type_inj {a b : UInt8}
    (h : winsCanonicalise caseInsensitive attr (.ofText (typeText a)) = winsCanonicalise caseInsensitive attr (.ofText (typeText b))) :
    a = b := by
  have hcopy : ∀ t : UInt8, ldbHandlerCopy (.ofText (typeText t)) = some (.ofText (typeText t)) :=
    @forall_byte (fun t => ldbHandlerCopy (.ofText (typeText t)) = some (.ofText (typeText t))) (by decide +kernel)
  have hfold : ∀ t : UInt8, (ldbHandlerFold (.ofText (typeText t))).map (fun v => strtoull v.data) = some t.toNat :=
    @forall_byte (fun t => (ldbHandlerFold (.ofText (typeText t))).map (fun v => strtoull v.data) = some t.toNat) (by decide +kernel)
  refine UInt8.toNat_inj.mp (Option.some.inj ?_)
  unfold winsCanonicalise at h
  split at h
  · rw [← hfold a, ← hfold b, h]
  · rw [hcopy, hcopy, Option.some.injEq] at h
    have htext : typeText a = typeText b := congrArg LdbVal.data h
    rw [← (typeText_spec a).2.2, ← (typeText_spec b).2.2, htext]

theorem mem_components {v : Text} : (attr, v) ∈ name.components ↔
    (attr = scopeAttr ∧ v = name.scope.getD [] ∧ v ≠ []) ∨ (attr = nameAttr ∧ v = name.name ∧ v ≠ []) ∨
      (attr = typeAttr ∧ v = typeText name.type) := by
  have hpart : ∀ {attr' part : Text}, (attr, v) ∈ partOf attr' part ↔ attr = attr' ∧ v = part ∧ v ≠ [] := by
    intro attr' part
    unfold partOf
    split
    case isTrue hnil =>
      subst hnil
      exact iff_of_false (not_mem_nil) fun h => h.2.2 h.2.1
    case isFalse hne =>
      rw [mem_singleton, Prod.mk.injEq]
      exact and_congr_right fun _ => ⟨fun h => ⟨h, h ▸ hne⟩, fun h => h.1⟩
  rw [NbtName.components, mem_append, mem_append, mem_singleton, hpart, hpart, Prod.mk.injEq]

theorem explodeText_components (hw : name.WellFormed) (h : name.Spliceable) :
    explodeText (rawText name.components) = .ok (name.components.map toComponent) := by
  obtain ⟨c, s, htext, -⟩ := (startsAlpha_components name).rawText
  rw [explodeText, if_neg (by rw [htext]; exact cons_ne_nil c s), explode_components hw h]

/-- The casefolded components of a name. -/
def foldedComponents (canonicalise : Text → LdbVal → Option LdbVal) (name : NbtName) : Option (List (Text × LdbVal)) :=
  casefoldPairs canonicalise (pairs (name.components.map toComponent))

theorem mem_foldedComponents {l : List (Text × LdbVal)} (hf : foldedComponents canonicalise name = some l) :
    (∀ comp ∈ name.components, ∃ w, (ldbAttrCasefold comp.1, w) ∈ l ∧
      canonicalise (ldbAttrCasefold comp.1) (.ofText comp.2) = some w) ∧
    ∀ x ∈ l, ∃ comp ∈ name.components, x.1 = ldbAttrCasefold comp.1 ∧
      canonicalise (ldbAttrCasefold comp.1) (.ofText comp.2) = some x.2 := by
  unfold foldedComponents casefoldPairs pairs at hf
  rw [map_map, mapM_map] at hf
  constructor
  · intro comp hcomp
    obtain ⟨x, hx, heq⟩ := exists_of_mapM hf hcomp
    obtain ⟨w, hw, rfl⟩ := Option.map_eq_some_iff.mp heq
    exact ⟨w, hx, hw⟩
  · intro x hx
    obtain ⟨comp, hcomp, heq⟩ := mem_of_mapM hf hx
    obtain ⟨w, hw, rfl⟩ := Option.map_eq_some_iff.mp heq
    exact ⟨comp, hcomp, rfl, hw⟩

/-- The casefolded components of a name have no NUL in them. -/
theorem printable_folded (hw : name.WellFormed) (hs : name.Spliceable) {l : List (Text × LdbVal)}
    (hf : foldedComponents (winsCanonicalise caseInsensitive) name = some l) :
    Printable l ∧ ∀ x ∈ l, IsText x.2 := by
  have htext : ∀ comp ∈ name.components, IsText (.ofText comp.2) := fun comp hcomp =>
    ⟨rfl, (rawComponent_components hw hs comp hcomp).plain.noNul⟩
  refine ⟨printable_of_explode (explodeText_components hw hs) (fun comp hcomp v hv => ?_) hf, fun x hx => ?_⟩
  · obtain ⟨comp', hcomp', rfl⟩ := mem_map.mp hcomp
    exact (winsCanonicalise_text (htext comp' hcomp') hv).1
  · obtain ⟨comp, hcomp, -, hv⟩ := (mem_foldedComponents hf).2 x hx
    exact winsCanonicalise_text (htext comp hcomp) hv

theorem visible_eq {comps : List (Text × Text)} (h : ∀ comp ∈ comps, (0 : UInt8) ∉ comp.2) : visible comps = comps := by
  induction comps with
  | nil => rfl
  | cons comp comps ih =>
    rw [visible, if_neg (h comp mem_cons_self), ih fun c hc => h c (mem_cons_of_mem _ hc)]

theorem ltdbKey_name (hw : name.WellFormed) (hs : name.Spliceable) {key : List UInt8} {dn' : LdbDn}
    (h : ltdbKey (winsCanonicalise caseInsensitive) (ldbDnNew (rawText name.components)) = some (some key, dn')) :
    ∃ l, foldedComponents (winsCanonicalise caseInsensitive) name = some l ∧
      ltdbKey (winsCanonicalise caseInsensitive) (ldbDnNew (rawText name.components)) =
        some (some ("DN=".toList.map chr ++ textOf (visible (blocks l)) ++ [0]), dn') := by
  have hexp := explodeText_components hw hs
  have hspecial : (ldbDnNew (rawText name.components)).special = false := by
    obtain ⟨c, s, htext, hc⟩ := (startsAlpha_components name).rawText
    rw [htext]
    exact ldbDnNew_letter hc
  cases hf : foldedComponents (winsCanonicalise caseInsensitive) name with
  | none =>
    obtain ⟨dn'', hk⟩ := ltdbKey_refused hspecial hexp hf
    rw [hk] at h
    cases h
  | some l =>
    obtain ⟨dn'', hk⟩ := ltdbKey_new hspecial hexp hf (printable_folded hw hs hf).1
    refine ⟨l, rfl, ?_⟩
    rw [hk] at h ⊢
    rw [(Prod.mk.inj (Option.some.inj h)).2]

/-- Names whose DNs have the same key have the same casefolded components. -/
theorem SameRecord.transfer (h : SameRecord (winsCanonicalise caseInsensitive) name other) (hw : name.WellFormed)
    (hs : name.Spliceable) (hw' : other.WellFormed) (hs' : other.Spliceable) {v : Text}
    (hmem : (attr, v) ∈ name.components) : ∃ v', (attr, v') ∈ other.components ∧
      winsCanonicalise caseInsensitive (ldbAttrCasefold attr) (.ofText v) =
        winsCanonicalise caseInsensitive (ldbAttrCasefold attr) (.ofText v') := by
  obtain ⟨dn₀, dn₁, hdn₀, hdn₁, hsame⟩ := h
  rw [winsdbDn_eq, Option.some.injEq] at hdn₀ hdn₁
  subst hdn₀
  subst hdn₁
  obtain ⟨key, dn₀', dn₁', hkey₀, hkey₁⟩ := hsame
  obtain ⟨l₀, hf₀, hk₀⟩ := ltdbKey_name hw hs hkey₀
  obtain ⟨l₁, hf₁, hk₁⟩ := ltdbKey_name hw' hs' hkey₁
  obtain ⟨hp₀, ht₀⟩ := printable_folded hw hs hf₀
  obtain ⟨hp₁, ht₁⟩ := printable_folded hw' hs' hf₁
  have hnoNul : ∀ {l : List (Text × LdbVal)}, (∀ x ∈ l, IsText x.2) → visible (blocks l) = blocks l := by
    intro l hl
    refine visible_eq fun comp hcomp => ?_
    obtain ⟨x, hx, rfl⟩ := mem_map.mp hcomp
    exact (hl x hx).2
  have hblocks := (sameKey_iff hp₀ hp₁ hk₀ hk₁).mp ⟨key, dn₀', dn₁', hkey₀, hkey₁⟩
  rw [hnoNul ht₀, hnoNul ht₁] at hblocks
  obtain ⟨w, hw₀, hcanon⟩ := (mem_foldedComponents hf₀).1 _ hmem
  have hin : (ldbAttrCasefold attr, w.data) ∈ blocks l₁ := hblocks ▸ mem_map_of_mem hw₀
  obtain ⟨⟨attr', w'⟩, hx, heq⟩ := mem_map.mp hin
  obtain ⟨hattr, hdata⟩ := Prod.mk.inj heq
  dsimp only at hattr hdata
  have hww : w' = w := by
    obtain ⟨d, n⟩ := w
    obtain ⟨d', n'⟩ := w'
    have h₀ := (ht₀ _ hw₀).1
    have h₁ := (ht₁ _ hx).1
    dsimp only at h₀ h₁ hdata
    subst hdata
    rw [h₀, h₁]
  obtain ⟨⟨a, v'⟩, hcomp, hname, hcanon'⟩ := (mem_foldedComponents hf₁).2 _ hx
  dsimp only at hname hcanon'
  have hfold : ldbAttrCasefold a = ldbAttrCasefold attr := hname.symm.trans hattr
  have hinj : a = attr := by
    have hne : ldbAttrCasefold scopeAttr ≠ ldbAttrCasefold nameAttr ∧ ldbAttrCasefold scopeAttr ≠ ldbAttrCasefold typeAttr ∧
        ldbAttrCasefold nameAttr ≠ ldbAttrCasefold typeAttr := by decide
    rcases mem_components.mp hcomp with ⟨rfl, -⟩ | ⟨rfl, -⟩ | ⟨rfl, -⟩ <;>
      rcases mem_components.mp hmem with ⟨rfl, -⟩ | ⟨rfl, -⟩ | ⟨rfl, -⟩ <;>
      first | rfl | exact absurd hfold (by decide)
  subst hinj
  refine ⟨v', hcomp, ?_⟩
  rw [hcanon, hcanon', hww]

theorem SameRecord.symm (h : SameRecord canonicalise name other) : SameRecord canonicalise other name := by
  obtain ⟨dn₀, dn₁, hdn₀, hdn₁, key, dn₀', dn₁', hkey₀, hkey₁⟩ := h
  exact ⟨dn₁, dn₀, hdn₁, hdn₀, key, dn₁', dn₀', hkey₁, hkey₀⟩

/-- Names that can be put in as they are share a record only if they are the same up to casefolding. -/
theorem SameRecord.sameFolded (h : SameRecord (winsCanonicalise caseInsensitive) name other) (hw : name.WellFormed)
    (hs : name.Spliceable) (hw' : other.WellFormed) (hs' : other.Spliceable) :
    SameFolded (winsCanonicalise caseInsensitive) name other := by
  have hscope : ∀ {n m : NbtName}, SameRecord (winsCanonicalise caseInsensitive) n m → n.WellFormed → n.Spliceable →
      m.WellFormed → m.Spliceable → ∀ s, n.scope = some s → ∃ s', m.scope = some s' ∧
        winsCanonicalise caseInsensitive (ldbAttrCasefold scopeAttr) (.ofText s) =
          winsCanonicalise caseInsensitive (ldbAttrCasefold scopeAttr) (.ofText s') := by
    intro n m h hw hs hw' hs' s hn
    obtain ⟨v', hmem, heq⟩ := h.transfer hw hs hw' hs'
      (mem_components.mpr (.inl ⟨rfl, by rw [hn]; rfl, (hw.scope s hn).2⟩) : (scopeAttr, s) ∈ n.components)
    rcases mem_components.mp hmem with ⟨-, hv, hne⟩ | ⟨hattr, -⟩ | ⟨hattr, -⟩
    · cases hm : m.scope with
      | none =>
        rw [hm] at hv
        exact absurd hv hne
      | some s' =>
        rw [hm] at hv
        cases hv
        exact ⟨_, rfl, heq⟩
    · exact absurd hattr (by decide)
    · exact absurd hattr (by decide)
  have hname : ∀ {n m : NbtName}, SameRecord (winsCanonicalise caseInsensitive) n m → n.WellFormed → n.Spliceable →
      m.WellFormed → m.Spliceable → n.name ≠ [] → m.name ≠ [] ∧
        winsCanonicalise caseInsensitive (ldbAttrCasefold nameAttr) (.ofText n.name) =
          winsCanonicalise caseInsensitive (ldbAttrCasefold nameAttr) (.ofText m.name) := by
    intro n m h hw hs hw' hs' hne
    obtain ⟨v', hmem, heq⟩ := h.transfer hw hs hw' hs'
      (mem_components.mpr (.inr (.inl ⟨rfl, rfl, hne⟩)) : (nameAttr, n.name) ∈ n.components)
    rcases mem_components.mp hmem with ⟨hattr, -⟩ | ⟨-, rfl, hne'⟩ | ⟨hattr, -⟩
    · exact absurd hattr (by decide)
    · exact ⟨hne', heq⟩
    · exact absurd hattr (by decide)
  refine ⟨?_, ?_, ?_, ?_⟩
  · cases hn : name.scope with
    | some s =>
      obtain ⟨s', hm, heq⟩ := hscope h hw hs hw' hs' s hn
      rw [hm, Option.map_some, Option.map_some, heq]
    | none =>
      cases hm : other.scope with
      | none => rfl
      | some s' =>
        obtain ⟨s, hn', -⟩ := hscope h.symm hw' hs' hw hs s' hm
        rw [hn] at hn'
        cases hn'
  · exact not_iff_not.mp ⟨fun hne => (hname h hw hs hw' hs' hne).1, fun hne => (hname h.symm hw' hs' hw hs hne).1⟩
  · by_cases hne : name.name = []
    · by_cases hne' : other.name = []
      · rw [hne, hne']
      · exact absurd hne (hname h.symm hw' hs' hw hs hne').1
    · exact (hname h hw hs hw' hs' hne).2
  · obtain ⟨v', hmem, heq⟩ := h.transfer hw hs hw' hs'
      (mem_components.mpr (.inr (.inr ⟨rfl, rfl⟩)) : (typeAttr, typeText name.type) ∈ name.components)
    rcases mem_components.mp hmem with ⟨hattr, -⟩ | ⟨hattr, -⟩ | ⟨-, rfl⟩
    · exact absurd hattr (by decide)
    · exact absurd hattr (by decide)
    · exact canonicalise_type_inj heq

/-- Two names come back from their DNs, and share a record only if they are the same up to casefolding, if and only if
both can be put into a DN string as they are. -/
theorem winsdbDn_faithful_iff (hw : name.WellFormed) (hw' : other.WellFormed) :
    (RoundTrips (winsCanonicalise caseInsensitive) name ∧ RoundTrips (winsCanonicalise caseInsensitive) other ∧
      (SameRecord (winsCanonicalise caseInsensitive) name other →
        SameFolded (winsCanonicalise caseInsensitive) name other)) ↔ name.Spliceable ∧ other.Spliceable := by
  constructor
  · rintro ⟨h, h', -⟩
    exact ⟨spliceable_of_roundTrips hw h, spliceable_of_roundTrips hw' h'⟩
  · rintro ⟨hs, hs'⟩
    exact ⟨roundTrips_of_spliceable hw hs, roundTrips_of_spliceable hw' hs', fun h => h.sameFolded hw hs hw' hs'⟩

end

/-- Names with a space and a dot inside. -/
def workgroup : NbtName := ⟨"WORK GROUP".toList.map chr, some ("a.b".toList.map chr), 0x1c⟩

theorem winsdbDn_faithful_workgroup : RoundTrips (winsCanonicalise fun _ => false) workgroup ∧
    RoundTrips (winsCanonicalise fun _ => false) workgroup ∧
    (SameRecord (winsCanonicalise fun _ => false) workgroup workgroup →
      SameFolded (winsCanonicalise fun _ => false) workgroup workgroup) := by
  have hw : workgroup.WellFormed := ⟨by decide, fun scope h => by cases h; decide⟩
  have hs : workgroup.Spliceable :=
    ⟨⟨⟨by decide +kernel, by decide +kernel⟩, by decide +kernel⟩,
      ⟨⟨by decide +kernel, by decide +kernel⟩, by decide +kernel⟩⟩
  exact (winsdbDn_faithful_iff hw hw).mpr ⟨hs, hs⟩

/-- A name with a plus sign has no valid DN, and one that starts with a space has the record of the one without. -/
theorem winsdbDn_unfaithful :
    ¬ RoundTrips (winsCanonicalise fun _ => false) ⟨"a+b".toList.map chr, none, 0x20⟩ ∧
    SameRecord (winsCanonicalise fun _ => false) ⟨" a".toList.map chr, none, 0x20⟩ ⟨"a".toList.map chr, none, 0x20⟩ ∧
    ¬ SameFolded (winsCanonicalise fun _ => false) ⟨" a".toList.map chr, none, 0x20⟩ ⟨"a".toList.map chr, none, 0x20⟩ := by
  refine ⟨?_, ?_, fun h => absurd h.name (by decide)⟩
  · rintro ⟨dn, dn', hdn, hvalid, -⟩
    have hfst : ((winsdbDn (winsCanonicalise fun _ => false) ⟨"a+b".toList.map chr, none, 0x20⟩).bind fun dn =>
        (ldbDnValidate dn).map Prod.fst) = some true := by
      rw [hdn, Option.bind_some, hvalid, Option.map_some]
    exact absurd hfst (by decide)
  · exact ⟨_, _, rfl, rfl, _, _, _, rfl, rfl⟩

end Samba.Wrepl
