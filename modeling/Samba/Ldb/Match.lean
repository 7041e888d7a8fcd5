/-
Matching of entries with filters (lib/ldb/common/ldb_match.c), and what becomes of an assertion that is not supported: the
error code of `ldb_match_extended` is passed on as if it were a truth value. The comparison and canonicalisation functions
of the syntaxes are parameters. An outcome `none` is behaviour that C leaves undefined, or a loop that does not end.
-/
import Samba.Lib.CNumber
import Samba.Ldb.DnCompare
import Samba.Ldb.ParseTree

namespace Samba.Ldb

open CString

/-- `struct ldb_message_element`, without the flags of modifications. -/
structure MessageElement where
  name : Text
  values : List LdbVal
  deriving DecidableEq, Repr

/-- `struct ldb_message`. -/
structure LdbMessage where
  dn : Option LdbDn
  elements : List MessageElement
  deriving DecidableEq, Repr

/-- `ldb_msg_find_element`. -/
def ldbMsgFindElement (msg : LdbMessage) (attrName : Text) : Option MessageElement :=
  msg.elements.find? fun el => sameCase el.name attrName

/-- `ldb_attr_dn(attr) == 0`. -/
def ldbAttrDn (attr : Text) : Bool :=
  sameCase attr ("dn".toList.map chr) || sameCase attr ("distinguishedName".toList.map chr)

/-- The functions of the syntax of an attribute; a canonicalisation that fails gives `none`. -/
structure Syntaxes where
  canonicalise : Text → LdbVal → Option LdbVal
  comparison : Text → LdbVal → LdbVal → Int

section Match

variable (schema : Syntaxes)

/-! ## Leaves -/

/-- `ldb_match_present`. -/
def ldbMatchPresent (msg : LdbMessage) (attr : Text) : Int :=
  if ldbAttrDn attr then 1 else if (ldbMsgFindElement msg attr).isSome then 1 else 0

/-- `ldb_match_comparison`. -/
def ldbMatchComparison (msg : LdbMessage) (op : ComparisonOp) (attr : Text) (value : LdbVal) : Int :=
  -- FIXME: APPROX comparison not handled yet
  if op = .approx then 0
  else match ldbMsgFindElement msg attr with
    | none => 0
    | some el =>
      if el.values.any fun v =>
        let ret := schema.comparison el.name v value
        ret = 0 || (ret > 0 && op = .greater) || (ret < 0 && op = .less)
      then 1 else 0

/-- `ldb_match_equality`. What the comparison fills in in the DN of the message is not kept: it does not change what a
later comparison finds (`compare_ok`). -/
def ldbMatchEquality (msg : LdbMessage) (attr : Text) (value : LdbVal) : Option Int :=
  if ldbAttrDn attr then
    match msg.dn with
    | none => some 0
    | some dn => (ldbDnCompare schema.canonicalise dn (ldbDnNew (cstr value.data))).map fun res => if res.1 = 0 then 1 else 0
  else match ldbMsgFindElement msg attr with
    | none => some 0
    | some el => some (if el.values.any fun v => schema.comparison el.name value v = 0 then 1 else 0)

/-- The last of the places where a chunk is found behind the place `p`. -/
def greedy (data : List UInt8) (cnk : LdbVal) : Nat → Nat → Option Nat
  | 0, _ => none
  | fuel + 1, p =>
    if p + cnk.length ≤ data.length then
      match strstr (cstr (data.drop (p + cnk.length))) (cstr cnk.data) with
      | none => some p
      | some g => greedy data cnk fuel (p + cnk.length + g)
    else none

/-- The loop of `ldb_wildcard_compare` over the chunks: what is left of the value, or `none` inside for no match. -/
def wildcardChunks (attr : Text) (endWithWildcard : Bool) : List LdbVal → List UInt8 → Option (Option (List UInt8))
  | [], data => some (some data)
  | chunk :: chunks, data =>
    match schema.canonicalise attr chunk with
    | none => some none
    | some cnk =>
      match strstr (cstr data) (cstr cnk.data) with
      | none => some none
      | some p => do
        let p ← if chunks = [] ∧ !endWithWildcard then greedy data cnk (data.length + 1) p else some p
        if p + cnk.length ≤ data.length then wildcardChunks attr endWithWildcard chunks (data.drop (p + cnk.length))
        else none

/-- `ldb_wildcard_compare`. -/
def ldbWildcardCompare (attr : Text) (startWithWildcard endWithWildcard : Bool) (chunks : List LdbVal) (value : LdbVal) :
    Option Int :=
  match schema.canonicalise attr value with
  | none => some (-1)
  | some val => do
    let rest ←
      if startWithWildcard then some (some (chunks, val.data))
      else match chunks with
        | [] => none
        | chunk :: chunks =>
          match schema.canonicalise attr chunk with
          | none => some none
          | some cnk =>
            -- wildcard prefix searches on binary attributes
            if cnk.length > val.length then some none
            else if cnk.length ≤ cnk.data.length ∧ cnk.length ≤ val.data.length then
              if val.data.take cnk.length = cnk.data.take cnk.length then some (some (chunks, val.data.drop cnk.length))
              else some none
            else none
    match rest with
    | none => return 0
    | some (chunks, data) =>
      match ← wildcardChunks schema attr endWithWildcard chunks data with
      | none => return 0
      -- the last chunk has to reach the end of the string
      | some data => return if !endWithWildcard && cstr data ≠ [] then 0 else 1

/-- `ldb_match_substring`. -/
def ldbMatchSubstring (msg : LdbMessage) (attr : Text) (startWithWildcard endWithWildcard : Bool) (chunks : List LdbVal) :
    Option Int :=
  match ldbMsgFindElement msg attr with
  | none => some 0
  | some el => matchValues el.values
where
  matchValues : List LdbVal → Option Int
    | [] => some 0
    | v :: values => do
      let ret ← ldbWildcardCompare schema attr startWithWildcard endWithWildcard chunks v
      if ret = 1 then return 1 else matchValues values

/-- `ldb_comparator_and`. -/
def ldbComparatorAnd (v₁ v₂ : LdbVal) : Int :=
  let i₁ := strtoull (cstr v₁.data)
  let i₂ := strtoull (cstr v₂.data)
  if i₁ &&& i₂ = i₂ then 1 else 0

/-- `ldb_comparator_or`. -/
def ldbComparatorOr (v₁ v₂ : LdbVal) : Int :=
  let i₁ := strtoull (cstr v₁.data)
  let i₂ := strtoull (cstr v₂.data)
  if i₁ &&& i₂ ≠ 0 then 1 else 0

/-- The table `rules` of `ldb_match_extended`. -/
def extendedRule (ruleId : Text) : Option (LdbVal → LdbVal → Int) :=
  if ruleId = "1.2.840.113556.1.4.803".toList.map chr then some ldbComparatorAnd
  else if ruleId = "1.2.840.113556.1.4.804".toList.map chr then some ldbComparatorOr
  else none

/-- The loop of `ldb_match_extended` over the values. -/
def extendedValues (comp : LdbVal → LdbVal → Int) (value : LdbVal) : List LdbVal → Int
  | [] => 0
  | v :: values =>
    let ret := comp v value
    if ret = -1 ∨ ret = 1 then ret else extendedValues comp value values

/-- `ldb_match_extended`: `-1` where the match is not supported. -/
def ldbMatchExtended (msg : LdbMessage) (attr : Option Text) (dnAttributes : Bool) (ruleId : Option Text) (value : LdbVal) : Int :=
  if dnAttributes then -1
  else match ruleId with
    | none => -1
    | some ruleId =>
      match attr with
      | none => -1
      | some attr =>
        match extendedRule ruleId with
        | none => -1
        | some comp =>
          match ldbMsgFindElement msg attr with
          | none => 0
          | some el => extendedValues comp value el.values

/-- What the function of a leaf returns. -/
def matchLeaf (msg : LdbMessage) : ParseTree → Option Int
  | .equality attr value => ldbMatchEquality schema msg attr value
  | .substring attr startWithWildcard endWithWildcard chunks =>
    ldbMatchSubstring schema msg attr startWithWildcard endWithWildcard chunks
  | .comparison op attr value => some (ldbMatchComparison schema msg op attr value)
  | .present attr => some (ldbMatchPresent msg attr)
  | .extended attr dnAttributes ruleId value => some (ldbMatchExtended msg attr dnAttributes ruleId value)
  | .and _ | .or _ | .not _ => some 0

/-! ## Trees -/

mutual

/-- `ldb_match_message`. -/
def ldbMatchMessage (msg : LdbMessage) : ParseTree → Option Int
  | .and elements => matchAnd msg elements
  | .or elements => matchOr msg elements
  | .not child => (ldbMatchMessage msg child).map fun v => if v = 0 then 1 else 0
  | .equality attr value => matchLeaf schema msg (.equality attr value)
  | .substring attr startWithWildcard endWithWildcard chunks =>
    matchLeaf schema msg (.substring attr startWithWildcard endWithWildcard chunks)
  | .comparison op attr value => matchLeaf schema msg (.comparison op attr value)
  | .present attr => matchLeaf schema msg (.present attr)
  | .extended attr dnAttributes ruleId value => matchLeaf schema msg (.extended attr dnAttributes ruleId value)

/-- The loop of `LDB_OP_AND`. -/
def matchAnd (msg : LdbMessage) : List ParseTree → Option Int
  | [] => some 1
  | t :: ts => do
    let v ← ldbMatchMessage msg t
    if v = 0 then return 0 else matchAnd msg ts

/-- The loop of `LDB_OP_OR`. -/
def matchOr (msg : LdbMessage) : List ParseTree → Option Int
  | [] => some 0
  | t :: ts => do
    let v ← ldbMatchMessage msg t
    if v ≠ 0 then return 1 else matchOr msg ts

end

/-! ## Three-valued filters -/

/-- The truth values of RFC 4511 filters. -/
inductive Truth
  | true
  | false
  | undefined
  deriving DecidableEq, Repr

namespace Truth

def not : Truth → Truth
  | .true => .false
  | .false => .true
  | .undefined => .undefined

def and : Truth → Truth → Truth
  | .false, _ => .false
  | .true, b => b
  | .undefined, .false => .false
  | .undefined, _ => .undefined

def or : Truth → Truth → Truth
  | .true, _ => .true
  | .false, b => b
  | .undefined, .true => .true
  | .undefined, _ => .undefined

variable {a b : Truth}

theorem not_eq_true : a.not = .true ↔ a = .false := by cases a <;> decide
theorem not_eq_false : a.not = .false ↔ a = .true := by cases a <;> decide
theorem and_eq_true : a.and b = .true ↔ a = .true ∧ b = .true := by cases a <;> cases b <;> decide
theorem and_eq_false : a.and b = .false ↔ a = .false ∨ b = .false := by cases a <;> cases b <;> decide
theorem or_eq_true : a.or b = .true ↔ a = .true ∨ b = .true := by cases a <;> cases b <;> decide
theorem or_eq_false : a.or b = .false ↔ a = .false ∧ b = .false := by cases a <;> cases b <;> decide

end Truth

/-- The extended matches that `ldb_match_extended` does not support. -/
def unsupported : ParseTree → Bool
  | .extended attr dnAttributes ruleId _ => dnAttributes || attr.isNone || (ruleId.bind extendedRule).isNone
  | _ => false

/-- The truth value of a leaf. -/
def leafTruth (msg : LdbMessage) (t : ParseTree) : Truth :=
  if unsupported t then .undefined else if matchLeaf schema msg t = some 0 then .false else .true

mutual

/-- The truth value of a filter, where the leaves that are not supported are Undefined. -/
def truth (msg : LdbMessage) : ParseTree → Truth
  | .and ts => truthAnd msg ts
  | .or ts => truthOr msg ts
  | .not t => (truth msg t).not
  | .equality attr value => leafTruth schema msg (.equality attr value)
  | .substring attr startWithWildcard endWithWildcard chunks =>
    leafTruth schema msg (.substring attr startWithWildcard endWithWildcard chunks)
  | .comparison op attr value => leafTruth schema msg (.comparison op attr value)
  | .present attr => leafTruth schema msg (.present attr)
  | .extended attr dnAttributes ruleId value => leafTruth schema msg (.extended attr dnAttributes ruleId value)

def truthAnd (msg : LdbMessage) : List ParseTree → Truth
  | [] => .true
  | t :: ts => (truth msg t).and (truthAnd msg ts)

def truthOr (msg : LdbMessage) : List ParseTree → Truth
  | [] => .false
  | t :: ts => (truth msg t).or (truthOr msg ts)

end

theorem matchAnd_nil (msg : LdbMessage) : matchAnd schema msg [] = some 1 := by
  rw [matchAnd]

theorem matchOr_nil (msg : LdbMessage) : matchOr schema msg [] = some 0 := by
  rw [matchOr]

theorem truthAnd_nil (msg : LdbMessage) : truthAnd schema msg [] = .true := by
  rw [truthAnd]

theorem truthOr_nil (msg : LdbMessage) : truthOr schema msg [] = .false := by
  rw [truthOr]

mutual

/-- An assertion that is not supported makes the filter match: it stands under an even number of negations, all that is
ANDed with it on the way up is true or such an assertion too, and nothing that is ORed with it is true. -/
inductive Leaks (msg : LdbMessage) : ParseTree → Prop
  | leaf {t : ParseTree} (h : unsupported t = true) : Leaks msg t
  | and {ts : List ParseTree} {t : ParseTree} (hall : ∀ t' ∈ ts, truth schema msg t' ≠ .true → Leaks msg t') (ht : t ∈ ts)
      (h : Leaks msg t) : Leaks msg (.and ts)
  | or {ts : List ParseTree} {t : ParseTree} (hall : ∀ t' ∈ ts, truth schema msg t' ≠ .true) (ht : t ∈ ts)
      (h : Leaks msg t) : Leaks msg (.or ts)
  | not {t : ParseTree} (h : Blocks msg t) : Leaks msg (.not t)

/-- An assertion that is not supported keeps the filter from matching, under an odd number of negations. -/
inductive Blocks (msg : LdbMessage) : ParseTree → Prop
  | and {ts : List ParseTree} {t : ParseTree} (hall : ∀ t' ∈ ts, truth schema msg t' ≠ .false) (ht : t ∈ ts)
      (h : Blocks msg t) : Blocks msg (.and ts)
  | or {ts : List ParseTree} {t : ParseTree} (hall : ∀ t' ∈ ts, truth schema msg t' ≠ .false → Blocks msg t') (ht : t ∈ ts)
      (h : Blocks msg t) : Blocks msg (.or ts)
  | not {t : ParseTree} (h : Leaks msg t) : Blocks msg (.not t)

end

variable {schema} {msg : LdbMessage}

variable {ts : List ParseTree} {t : ParseTree}

theorem truthAnd_eq_true : truthAnd schema msg ts = .true ↔ ∀ t ∈ ts, truth schema msg t = .true := by
  induction ts with
  | nil => simp [truthAnd_nil]
  | cons t ts ih => rw [truthAnd, Truth.and_eq_true, ih, List.forall_mem_cons]

theorem truthAnd_eq_false : truthAnd schema msg ts = .false ↔ ∃ t ∈ ts, truth schema msg t = .false := by
  induction ts with
  | nil => simp [truthAnd_nil]
  | cons t ts ih => rw [truthAnd, Truth.and_eq_false, ih, List.exists_mem_cons_iff]

theorem truthOr_eq_true : truthOr schema msg ts = .true ↔ ∃ t ∈ ts, truth schema msg t = .true := by
  induction ts with
  | nil => simp [truthOr_nil]
  | cons t ts ih => rw [truthOr, Truth.or_eq_true, ih, List.exists_mem_cons_iff]

theorem truthOr_eq_false : truthOr schema msg ts = .false ↔ ∀ t ∈ ts, truth schema msg t = .false := by
  induction ts with
  | nil => simp [truthOr_nil]
  | cons t ts ih => rw [truthOr, Truth.or_eq_false, ih, List.forall_mem_cons]

theorem truth_leaf {t : ParseTree} (h : t.isLeaf = true) : truth schema msg t = leafTruth schema msg t := by
  cases t with
  | and ts => cases h
  | or ts => cases h
  | not t => cases h
  | _ => rw [truth]

theorem match_leaf (h : t.isLeaf = true) : ldbMatchMessage schema msg t = matchLeaf schema msg t := by
  cases t with
  | and ts => cases h
  | or ts => cases h
  | not t => cases h
  | _ => rw [ldbMatchMessage]

/-- A match that is not supported returns the error code. -/
theorem matchLeaf_unsupported (h : unsupported t = true) : matchLeaf schema msg t = some (-1) := by
  cases t with
  | extended attr dnAttributes ruleId value =>
    rw [matchLeaf]
    unfold ldbMatchExtended
    cases dnAttributes with
    | true => rfl
    | false =>
      cases ruleId with
      | none => rfl
      | some ruleId =>
        cases attr with
        | none => rfl
        | some attr =>
          have hrule : extendedRule ruleId = none := by simpa [unsupported] using h
          dsimp only
          rw [hrule]
          rfl
  | _ => cases h

/-- Both loops see a filter by whether its value is zero. -/
theorem matchAnd_ok (h : ∀ t ∈ ts, ∃ v, ldbMatchMessage schema msg t = some v) :
    ∃ v, matchAnd schema msg ts = some v ∧ (v = 0 ↔ ∃ t ∈ ts, ldbMatchMessage schema msg t = some 0) := by
  induction ts with
  | nil => exact ⟨1, matchAnd_nil .., by simp⟩
  | cons t ts ih =>
    rw [List.forall_mem_cons] at h
    obtain ⟨⟨v, hv⟩, hts⟩ := h
    obtain ⟨w, hw, hiff⟩ := ih hts
    rw [matchAnd, hv]
    dsimp only [bind, Option.bind]
    rw [List.exists_mem_cons_iff, hv, Option.some.injEq]
    by_cases hz : v = 0
    · exact ⟨0, if_pos hz, by simp [hz]⟩
    · exact ⟨w, by rw [if_neg hz, hw], by simp [hz, hiff]⟩

theorem matchOr_ok (h : ∀ t ∈ ts, ∃ v, ldbMatchMessage schema msg t = some v) :
    ∃ v, matchOr schema msg ts = some v ∧ (v = 0 ↔ ∀ t ∈ ts, ldbMatchMessage schema msg t = some 0) := by
  induction ts with
  | nil => exact ⟨0, matchOr_nil .., by simp⟩
  | cons t ts ih =>
    rw [List.forall_mem_cons] at h
    obtain ⟨⟨v, hv⟩, hts⟩ := h
    obtain ⟨w, hw, hiff⟩ := ih hts
    rw [matchOr, hv]
    dsimp only [bind, Option.bind]
    rw [List.forall_mem_cons, hv, Option.some.injEq]
    by_cases hz : v = 0
    · exact ⟨w, by rw [if_neg (not_not.mpr hz), hw], by simp [hz, hiff]⟩
    · exact ⟨1, if_pos hz, by simp [hz]⟩

theorem leaks_leaf {t : ParseTree} (hleaf : t.isLeaf = true) : Leaks schema msg t ↔ unsupported t = true := by
  constructor
  · intro h
    cases h with
    | leaf h => exact h
    | and => cases hleaf
    | or => cases hleaf
    | not => cases hleaf
  · exact .leaf

theorem not_blocks_leaf {t : ParseTree} (hleaf : t.isLeaf = true) : ¬ Blocks schema msg t := by
  intro h
  cases h <;> cases hleaf

/-- What the value of a filter says about its truth. It is right where the filter is TRUE or FALSE; elsewhere an
assertion that is not supported has decided it. -/
structure Tells (schema : Syntaxes) (msg : LdbMessage) (t : ParseTree) (v : Int) : Prop where
  ofTrue : truth schema msg t = .true → v ≠ 0
  ofFalse : truth schema msg t = .false → v = 0
  leaks : v ≠ 0 ∧ truth schema msg t ≠ .true ↔ Leaks schema msg t
  blocks : v = 0 ∧ truth schema msg t ≠ .false ↔ Blocks schema msg t

theorem Tells.leaf {v : Int} (hleaf : t.isLeaf = true) (hv : matchLeaf schema msg t = some v) :
    Tells schema msg t v := by
  have htruth := @truth_leaf schema msg t hleaf
  unfold leafTruth at htruth
  by_cases hun : unsupported t = true
  · rw [if_pos hun] at htruth
    rw [matchLeaf_unsupported hun, Option.some.injEq] at hv
    subst hv
    refine ⟨by simp [htruth], by simp [htruth], ?_, ?_⟩
    · simp [htruth, leaks_leaf hleaf, hun]
    · simp [not_blocks_leaf hleaf]
  · rw [if_neg hun, hv] at htruth
    have hL := mt (@leaks_leaf schema msg t hleaf).mp hun
    have hB := @not_blocks_leaf schema msg t hleaf
    by_cases hz : v = 0
    · rw [if_pos (by rw [hz])] at htruth
      exact ⟨by simp [htruth], fun _ => hz, iff_of_false (by simp [hz]) hL, iff_of_false (by simp [htruth]) hB⟩
    · rw [if_neg (by simpa using hz)] at htruth
      exact ⟨fun _ => hz, by simp [htruth], iff_of_false (by simp [htruth]) hL, iff_of_false (by simp [hz]) hB⟩

theorem Tells.not {t : ParseTree} {v : Int} (h : Tells schema msg t v) :
    Tells schema msg (.not t) (if v = 0 then 1 else 0) := by
  have htruth : truth schema msg (.not t) = (truth schema msg t).not := by rw [truth]
  have hval : (if v = 0 then (1 : Int) else 0) = 0 ↔ v ≠ 0 := by split <;> simp [*]
  refine ⟨?_, ?_, ?_, ?_⟩
  · rw [htruth, Truth.not_eq_true, ne_eq, hval, not_not]
    exact h.ofFalse
  · rw [htruth, Truth.not_eq_false, hval]
    exact h.ofTrue
  · rw [htruth, ne_eq, ne_eq, Truth.not_eq_true, hval, not_not, h.blocks]
    constructor
    · exact .not
    · intro hl
      cases hl with
      | leaf hun => cases hun
      | not hb => exact hb
  · rw [htruth, ne_eq, Truth.not_eq_false, hval, h.leaks]
    constructor
    · exact .not
    · rintro ⟨⟩
      assumption

/-- The values of the filters of a list. -/
def TellsAll (schema : Syntaxes) (msg : LdbMessage) (ts : List ParseTree) : Prop :=
  ∀ t ∈ ts, ∃ v, ldbMatchMessage schema msg t = some v ∧ Tells schema msg t v

theorem TellsAll.and {ts : List ParseTree} (h : TellsAll schema msg ts) :
    ∃ v, matchAnd schema msg ts = some v ∧ Tells schema msg (.and ts) v := by
  obtain ⟨v, hv, hzero⟩ := matchAnd_ok fun t ht => (h t ht).imp fun _ hx => hx.1
  have htruth : truth schema msg (.and ts) = truthAnd schema msg ts := by rw [truth]
  have hne : v ≠ 0 ↔ ∀ t ∈ ts, ldbMatchMessage schema msg t ≠ some 0 := by
    rw [ne_eq, hzero]
    push Not
    rfl
  refine ⟨v, hv, ⟨?_, ?_, ?_, ?_⟩⟩
  · rw [htruth, truthAnd_eq_true, hne]
    intro hall t ht hz
    obtain ⟨w, hw, htell⟩ := h t ht
    rw [hw, Option.some.injEq] at hz
    exact htell.ofTrue (hall t ht) hz
  · rw [htruth, truthAnd_eq_false, hzero]
    rintro ⟨t, ht, hf⟩
    obtain ⟨w, hw, htell⟩ := h t ht
    exact ⟨t, ht, by rw [hw, htell.ofFalse hf]⟩
  · rw [htruth, ne_eq (truthAnd schema msg ts), truthAnd_eq_true, hne]
    constructor
    · rintro ⟨hall, hnot⟩
      have hleak : ∀ t ∈ ts, truth schema msg t ≠ .true → Leaks schema msg t := by
        intro t ht hnt
        obtain ⟨w, hw, htell⟩ := h t ht
        exact htell.leaks.mp ⟨fun hz => hall t ht (by rw [hw, hz]), hnt⟩
      push Not at hnot
      obtain ⟨t, ht, hnt⟩ := hnot
      exact .and hleak ht (hleak t ht hnt)
    · intro hl
      cases hl with
      | leaf hun => cases hun
      | @and _ t hleak ht hlt =>
        refine ⟨fun t' ht' hz => ?_, fun hall => ?_⟩
        · obtain ⟨w, hw, htell⟩ := h t' ht'
          rw [hw, Option.some.injEq] at hz
          by_cases htrue : truth schema msg t' = .true
          · exact htell.ofTrue htrue hz
          · exact (htell.leaks.mpr (hleak t' ht' htrue)).1 hz
        · obtain ⟨w, hw, htell⟩ := h t ht
          exact (htell.leaks.mpr hlt).2 (hall t ht)
  · rw [htruth, ne_eq, truthAnd_eq_false, hzero]
    constructor
    · rintro ⟨⟨t, ht, hz⟩, hnot⟩
      push Not at hnot
      obtain ⟨w, hw, htell⟩ := h t ht
      rw [hw, Option.some.injEq] at hz
      exact .and hnot ht (htell.blocks.mp ⟨hz, hnot t ht⟩)
    · intro hb
      cases hb with
      | @and _ t hall ht hbt =>
        obtain ⟨w, hw, htell⟩ := h t ht
        refine ⟨⟨t, ht, by rw [hw, (htell.blocks.mpr hbt).1]⟩, ?_⟩
        rintro ⟨t', ht', hf⟩
        exact hall t' ht' hf

theorem TellsAll.or {ts : List ParseTree} (h : TellsAll schema msg ts) :
    ∃ v, matchOr schema msg ts = some v ∧ Tells schema msg (.or ts) v := by
  obtain ⟨v, hv, hzero⟩ := matchOr_ok fun t ht => (h t ht).imp fun _ hx => hx.1
  have htruth : truth schema msg (.or ts) = truthOr schema msg ts := by rw [truth]
  have hne : v ≠ 0 ↔ ∃ t ∈ ts, ldbMatchMessage schema msg t ≠ some 0 := by
    rw [ne_eq, hzero]
    push Not
    rfl
  refine ⟨v, hv, ⟨?_, ?_, ?_, ?_⟩⟩
  · rw [htruth, truthOr_eq_true, hne]
    rintro ⟨t, ht, htrue⟩
    obtain ⟨w, hw, htell⟩ := h t ht
    refine ⟨t, ht, fun hz => ?_⟩
    rw [hw, Option.some.injEq] at hz
    exact htell.ofTrue htrue hz
  · rw [htruth, truthOr_eq_false, hzero]
    intro hall t ht
    obtain ⟨w, hw, htell⟩ := h t ht
    rw [hw, htell.ofFalse (hall t ht)]
  · rw [htruth, ne_eq (truthOr schema msg ts), truthOr_eq_true, hne]
    constructor
    · rintro ⟨⟨t, ht, hnz⟩, hnot⟩
      push Not at hnot
      obtain ⟨w, hw, htell⟩ := h t ht
      exact .or hnot ht (htell.leaks.mp ⟨fun hz => hnz (by rw [hw, hz]), hnot t ht⟩)
    · intro hl
      cases hl with
      | leaf hun => cases hun
      | @or _ t hall ht hlt =>
        obtain ⟨w, hw, htell⟩ := h t ht
        refine ⟨⟨t, ht, fun hz => ?_⟩, ?_⟩
        · rw [hw, Option.some.injEq] at hz
          exact (htell.leaks.mpr hlt).1 hz
        · rintro ⟨t', ht', htrue⟩
          exact hall t' ht' htrue
  · rw [htruth, ne_eq, truthOr_eq_false, hzero]
    constructor
    · rintro ⟨hall, hnot⟩
      have hblock : ∀ t ∈ ts, truth schema msg t ≠ .false → Blocks schema msg t := by
        intro t ht hnf
        obtain ⟨w, hw, htell⟩ := h t ht
        have hz := hall t ht
        rw [hw, Option.some.injEq] at hz
        exact htell.blocks.mp ⟨hz, hnf⟩
      push Not at hnot
      obtain ⟨t, ht, hnf⟩ := hnot
      exact .or hblock ht (hblock t ht hnf)
    · intro hb
      cases hb with
      | @or _ t hblock ht hbt =>
        refine ⟨fun t' ht' => ?_, fun hall => ?_⟩
        · obtain ⟨w, hw, htell⟩ := h t' ht'
          by_cases hf : truth schema msg t' = .false
          · rw [hw, htell.ofFalse hf]
          · rw [hw, (htell.blocks.mpr (hblock t' ht' hf)).1]
        · obtain ⟨w, hw, htell⟩ := h t ht
          exact (htell.blocks.mpr hbt).2 (hall t ht)

theorem match_tells {tree : ParseTree} (hdef : ∀ t ∈ tree.leaves, matchLeaf schema msg t ≠ none) :
    ∃ v, ldbMatchMessage schema msg tree = some v ∧ Tells schema msg tree v := by
  induction tree using ParseTree.induct with
  | and ts ih =>
    rw [ParseTree.leaves] at hdef
    rw [ldbMatchMessage]
    exact TellsAll.and fun t ht => ih t ht fun l hl => hdef l (ParseTree.mem_leavesOf ht hl)
  | or ts ih =>
    rw [ParseTree.leaves] at hdef
    rw [ldbMatchMessage]
    exact TellsAll.or fun t ht => ih t ht fun l hl => hdef l (ParseTree.mem_leavesOf ht hl)
  | not t ih =>
    rw [ParseTree.leaves] at hdef
    obtain ⟨v, hv, htell⟩ := ih hdef
    rw [ldbMatchMessage, hv]
    exact ⟨_, rfl, htell.not⟩
  | leaf t hleaf =>
    rw [ParseTree.leaves_of_isLeaf hleaf] at hdef
    obtain ⟨v, hv⟩ := Option.ne_none_iff_exists'.mp (hdef t (by simp))
    exact ⟨v, by rw [match_leaf hleaf, hv], Tells.leaf hleaf hv⟩

/-- A filter matches only where it is TRUE, if and only if no assertion that is not supported makes it match. -/
theorem match_only_true_iff {tree : ParseTree} (hdef : ∀ t ∈ tree.leaves, matchLeaf schema msg t ≠ none) :
    (∃ v, ldbMatchMessage schema msg tree = some v ∧ (v ≠ 0 → truth schema msg tree = .true)) ↔ ¬ Leaks schema msg tree := by
  obtain ⟨v, hv, htell⟩ := match_tells hdef
  rw [← htell.leaks, hv]
  constructor
  · rintro ⟨w, hw, htrue⟩ ⟨hne, hnt⟩
    rw [Option.some.injEq] at hw
    exact hnt (htrue (hw ▸ hne))
  · intro hno
    refine ⟨v, rfl, fun hne => ?_⟩
    by_contra hnt
    exact hno ⟨hne, hnt⟩

end Match

/-- The filter (&(cn=*)(cn:=x)) does not match an entry without attributes. -/
theorem match_only_true_absent :
    ∃ v, ldbMatchMessage ⟨fun _ v => some v, fun _ _ _ => 0⟩ ⟨none, []⟩
        (.and [.present ("cn".toList.map chr), .extended (some ("cn".toList.map chr)) false none (.ofText ("x".toList.map chr))]) =
        some v ∧
      (v ≠ 0 → truth ⟨fun _ v => some v, fun _ _ _ => 0⟩ ⟨none, []⟩
        (.and [.present ("cn".toList.map chr), .extended (some ("cn".toList.map chr)) false none (.ofText ("x".toList.map chr))]) =
        .true) := by
  refine (match_only_true_iff ?_).mpr ?_
  · simp [ParseTree.leaves, ParseTree.leavesOf, matchLeaf]
  · intro hl
    cases hl with
    | leaf hun => cases hun
    | and hall _ _ =>
      have hp := hall (.present ("cn".toList.map chr)) (by simp) (by decide)
      exact absurd ((leaks_leaf rfl).mp hp) (by decide)

/-- An entry without attributes matches (cn:dn:=x), of which ldb can not tell whether it holds. -/
theorem match_not_only_true :
    ldbMatchMessage ⟨fun _ v => some v, fun _ _ _ => 0⟩ ⟨none, []⟩
        (.extended (some ("cn".toList.map chr)) true none (.ofText ("x".toList.map chr))) = some (-1) ∧
      truth ⟨fun _ v => some v, fun _ _ _ => 0⟩ ⟨none, []⟩
        (.extended (some ("cn".toList.map chr)) true none (.ofText ("x".toList.map chr))) ≠ .true := by
  decide

end Samba.Ldb
