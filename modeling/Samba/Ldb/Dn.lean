/-
Distinguished names (lib/ldb/common/ldb_dn.c): the parser of DN strings, the strings built from components, and the
structure that keeps a string, the components and their casefolded forms, each filled in when it is first asked for.
Memory allocation does not fail. An outcome `none`, or the error `undefined`, is behaviour that C leaves undefined: a
value cut back behind its start, a read behind the end of a string, or a null pointer.
-/
import Mathlib.Data.List.Basic
import Samba.Lib.CString

namespace Samba.Ldb

open CString

/-- `struct ldb_val`: the bytes up to the NUL that ends the block, and the length. -/
structure LdbVal where
  data : List UInt8
  length : Nat
  deriving DecidableEq, Repr

/-- The value of a string. -/
def LdbVal.ofText (s : Text) : LdbVal := ⟨s, s.length⟩

/-- `struct ldb_dn_component`; the casefolded name and value are set and freed together. -/
structure DnComponent where
  name : Text
  value : LdbVal
  cf : Option (Text × LdbVal)
  deriving DecidableEq, Repr

/-- `struct ldb_dn`. `comp_num` is the number of components. -/
structure LdbDn where
  special : Bool
  invalid : Bool
  validCase : Bool
  linearized : Option Text
  casefold : Option Text
  components : Option (List DnComponent)
  deriving DecidableEq, Repr

def LdbDn.compNum (dn : LdbDn) : Nat := (dn.components.getD []).length

/-- `ldb_dn_new`. Of "<SID=" eight characters are compared, so that nothing may follow it. -/
def ldbDnNew (strdn : Text) : LdbDn where
  special := strdn.head? == some (chr '@') || samePrefixCase 6 strdn ("<GUID=".toList.map chr) ||
    samePrefixCase 8 strdn ("<SID=".toList.map chr) || samePrefixCase 8 strdn ("<WKGUID=".toList.map chr)
  invalid := false
  validCase := false
  linearized := some strdn
  casefold := none
  components := none

/-! ## Exploding -/

inductive DnError
  | invalid
  | undefined
  deriving DecidableEq, Repr

/-- The variables of `ldb_dn_explode`: `p` counts the characters read, `prev` is `p[-1]`, `t` the place of the first of
the spaces at the end of the value, `data` what has been written from `dt` on. -/
structure ExplodeState where
  p : Nat := 0
  t : Option Nat := none
  prev : UInt8 := 0
  inAttr : Bool := true
  trim : Bool := true
  inQuote : Bool := false
  isOid : Bool := false
  escape : Bool := false
  name : Text := []
  data : List UInt8 := []
  components : List DnComponent := []
  deriving DecidableEq, Repr

namespace ExplodeState

def put (st : ExplodeState) (c : UInt8) : ExplodeState := { st with data := st.data ++ [c] }

/-- The value that ends here, with the spaces at its end trimmed back. -/
def value (st : ExplodeState) : Except DnError LdbVal :=
  match st.t with
  | none => .ok ⟨cstr st.data, st.data.length⟩
  | some t =>
    if st.p - t ≤ st.data.length then
      let data := st.data.take (st.data.length - (st.p - t))
      .ok ⟨cstr data, data.length⟩
    -- the value would end before its start
    else .error .undefined

/-- Save the component that ends here. -/
def save (st : ExplodeState) : Except DnError ExplodeState := do
  let value ← st.value
  return { st with components := st.components ++ [⟨st.name, value, none⟩] }

/-- A character of an attribute name. -/
def attrStep (st : ExplodeState) (c : UInt8) : Except DnError ExplodeState :=
  if st.trim then
    if c = chr ' ' then .ok st
    else if !isAscii c then .error .invalid
    else if isDigit c then .ok { st.put c with trim := false, isOid := true }
    else if !isAlpha c then .error .invalid
    else .ok { st.put c with trim := false }
  else if c = chr ' ' then .ok { st with trim := true }
  else if c = chr '=' then .ok { st with inAttr := false, trim := true, name := st.data, data := [] }
  else if !isAscii c then .error .invalid
  else if st.isOid && !(isDigit c || c = chr '.') then .error .invalid
  else if !(isAlpha c || isDigit c || c = chr '-') then .error .invalid
  else .ok (st.put c)

/-- The characters that are not allowed in a value unless escaped, but for the comma and the backslash. -/
def reserved : List UInt8 := ['=', '\n', '+', '<', '>', '#', ';', '"'].map chr

/-- A character of a value that is neither in quotes nor before its start, and whether one more is skipped. -/
def plainStep (st : ExplodeState) (c : UInt8) (rest : Text) : Except DnError (ExplodeState × Bool) :=
  if c = chr ',' then
    if st.escape then .ok ({ st.put c with escape := false }, false)
    else do
      -- ok found value terminator
      let st ← st.save
      return ({ st with inAttr := true, trim := true, data := [] }, false)
  else if c ∈ reserved then
    -- a string with not escaped specials is invalid
    if st.escape then .ok ({ st.put c with escape := false, t := none }, false) else .error .invalid
  else if c = chr '\\' then
    if st.escape then .ok ({ st.put c with escape := false, t := none }, false)
    else .ok ({ st with escape := true }, false)
  else if st.escape then
    match scanHex (c :: rest) with
    | none => .error .invalid
    | some x => .ok ({ st.put x with escape := false, t := none }, true)
  else if c = chr ' ' then .ok ({ st.put c with t := some (st.t.getD st.p) }, false)
  else .ok ({ st.put c with t := none }, false)

/-- A character of a value. -/
def valueStep (st : ExplodeState) (c : UInt8) (rest : Text) : Except DnError (ExplodeState × Bool) :=
  if st.inQuote then
    if c = chr '"' ∧ st.prev ≠ chr '\\' then .ok ({ st with inQuote := false }, false)
    else .ok (st.put c, false)
  else if st.trim then
    if c = chr ' ' then .ok (st, false)
    else if c = chr '"' then .ok ({ st with trim := false, inQuote := true }, false)
    else plainStep { st with trim := false } c rest
  else plainStep st c rest

def step (st : ExplodeState) (c : UInt8) (rest : Text) : Except DnError (ExplodeState × Bool) :=
  if st.inAttr then (st.attrStep c).map fun st => (st, false) else st.valueStep c rest

/-- Go on behind a character. -/
def advance (st : ExplodeState) (c : UInt8) : ExplodeState := { st with p := st.p + 1, prev := c }

/-- The loop over the string. -/
def run (st : ExplodeState) : Text → Except DnError ExplodeState
  | [] => .ok st
  | c :: rest =>
    match st.step c rest with
    | .error e => .error e
    | .ok (st, false) => run (st.advance c) rest
    | .ok (st, true) =>
      match rest with
      -- behind the end of the string
      | [] => .error .undefined
      | c' :: rest => run ((st.advance c).advance c') rest

@[simp] theorem run_nil (st : ExplodeState) : st.run [] = .ok st := by
  rw [run]

/-- What is left to do at the end of the string. -/
def finish (st : ExplodeState) : Except DnError (List DnComponent) :=
  if st.inAttr || st.inQuote then .error .invalid else st.save.map components

end ExplodeState

/-- The components of a string that is neither empty nor special. -/
def explode (linearized : Text) : Except DnError (List DnComponent) := do
  let st ← ExplodeState.run {} linearized
  st.finish

/-- `ldb_dn_explode`. -/
def ldbDnExplode (dn : LdbDn) : Option (Bool × LdbDn) :=
  if dn.invalid then some (false, dn)
  else if dn.components.isSome then some (true, dn)
  else match dn.linearized with
    | none => some (false, dn)
    | some text =>
      if text = [] then some (true, dn)
      else if dn.special then some (true, dn)
      else match explode text with
        | .ok components => some (true, { dn with components := some components })
        | .error .invalid => some (false, { dn with invalid := true })
        | .error .undefined => none

/-- `ldb_dn_validate`. -/
def ldbDnValidate (dn : LdbDn) : Option (Bool × LdbDn) := ldbDnExplode dn

/-- `ldb_dn_get_comp_num`. -/
def ldbDnGetCompNum (dn : LdbDn) : Option (Int × LdbDn) := do
  let (ok, dn) ← ldbDnValidate dn
  return (if ok then (dn.compNum : Int) else -1, dn)

/-! ## Strings of components -/

/-- The characters that are escaped in a value. -/
def escaped : List UInt8 := [',', '=', '\n', '+', '<', '>', '#', ';', '\\', '"'].map chr

/-- What is written for a byte of a value; for a zero byte `strncpy` writes three of them. -/
def escapeByte (c : UInt8) : List UInt8 :=
  if c ∈ escaped then [chr '\\', c] else if c = 0 then [0, 0, 0] else [c]

/-- `ldb_dn_escape_internal`. A value that is longer than its block is read behind the block. -/
def ldbDnEscapeInternal (v : LdbVal) : Option (List UInt8) :=
  if v.length = v.data.length then some (v.data.flatMap escapeByte) else none

/-- The string built from names and values. -/
def joinComponents (pairs : List (Text × LdbVal)) : Option Text := do
  let texts ← pairs.mapM fun pair => do
    let value ← ldbDnEscapeInternal pair.2
    return pair.1 ++ chr '=' :: value
  return cstr ([chr ','].intercalate texts)

/-- `ldb_dn_get_linearized`. -/
def ldbDnGetLinearized (dn : LdbDn) : Option (Option Text × LdbDn) :=
  if dn.invalid then some (none, dn)
  else match dn.linearized with
    | some text => some (some text, dn)
    | none =>
      match dn.components with
      | none => some (none, { dn with invalid := true })
      | some comps =>
        if comps = [] then some (some [], { dn with linearized := some [] })
        else do
          let text ← joinComponents (comps.map fun comp => (comp.name, comp.value))
          return (some text, { dn with linearized := some text })

/-! ## Casefolding -/

section Schema

-- the canonicalisation function of the syntax of an attribute, `none` when it fails
variable (canonicalise : Text → LdbVal → Option LdbVal)

/-- `ldb_attr_casefold`. -/
def ldbAttrCasefold (s : Text) : Text := s.map toUpper

/-- Casefold one component. -/
def casefoldComponent (comp : DnComponent) : Option DnComponent := do
  let cfName := ldbAttrCasefold comp.name
  let cfValue ← canonicalise cfName comp.value
  return { comp with cf := some (cfName, cfValue) }

/-- `ldb_dn_casefold_internal`. -/
def ldbDnCasefoldInternal (dn : LdbDn) : Option (Bool × LdbDn) :=
  if dn.invalid then some (false, dn)
  else if dn.validCase then some (true, dn)
  else do
    let (ok, dn) ← ldbDnExplode dn
    if !ok then return (false, dn)
    else match dn.components with
      | none => return (true, { dn with validCase := true })
      | some comps =>
        match comps.mapM (casefoldComponent canonicalise) with
        | some comps => return (true, { dn with components := some comps, validCase := true })
        | none =>
          return (false, { dn with components := some (comps.map fun comp => { comp with cf := none }) })

/-- `ldb_dn_get_casefold`. -/
def ldbDnGetCasefold (dn : LdbDn) : Option (Option Text × LdbDn) :=
  match dn.casefold with
  | some text => some (some text, dn)
  | none =>
    if dn.special then
      dn.linearized.map fun text => (some text, { dn with casefold := some text, validCase := true })
    else do
      let (ok, dn) ← ldbDnCasefoldInternal canonicalise dn
      if !ok then return (none, dn)
      else if dn.compNum = 0 then
        if dn.linearized = some [] then return (some [], { dn with casefold := some [] })
        -- a DN must be NULL, special, or have components
        else return (none, { dn with invalid := true })
      else do
        let pairs ← (dn.components.getD []).mapM DnComponent.cf
        let text ← joinComponents pairs
        return (some text, { dn with casefold := some text })

/-! ## Comparing -/

/-- Compare the casefolded forms of two components. -/
def compareComponent (comp₀ comp₁ : DnComponent) : Option Int := do
  let (name₀, value₀) ← comp₀.cf
  let (name₁, value₁) ← comp₁.cf
  let ret := strcmp name₀ name₁
  if ret ≠ 0 then return ret
  else if value₀.length ≠ value₁.length then return (value₀.length : Int) - value₁.length
  else return strcmp (cstr value₀.data) (cstr value₁.data)

/-- Compare components one by one, up to the end of the first list. -/
def compareComponents : List DnComponent → List DnComponent → Option Int
  | [], _ => some 0
  | _ :: _, [] => none
  | comp₀ :: comps₀, comp₁ :: comps₁ => do
    let ret ← compareComponent comp₀ comp₁
    if ret ≠ 0 then return ret else compareComponents comps₀ comps₁

/-- The end of `ldb_dn_compare`, on casefolded DNs. -/
def compareFolded (dn₀ dn₁ : LdbDn) : Option Int :=
  if dn₀.compNum ≠ dn₁.compNum then some ((dn₁.compNum : Int) - dn₀.compNum)
  else if dn₀.compNum = 0 then
    if dn₀.special && dn₁.special then do
      let s₀ ← dn₀.linearized
      let s₁ ← dn₁.linearized
      return strcmp s₀ s₁
    else if dn₀.special then some 1
    else if dn₁.special then some (-1)
    else some 0
  else compareComponents (dn₀.components.getD []) (dn₁.components.getD [])

/-- `ldb_dn_compare`. -/
def ldbDnCompare (dn₀ dn₁ : LdbDn) : Option (Int × LdbDn × LdbDn) :=
  if dn₀.invalid || dn₁.invalid then some (-1, dn₀, dn₁)
  else if dn₀.validCase && dn₁.validCase then (compareFolded dn₀ dn₁).map fun ret => (ret, dn₀, dn₁)
  else
    let quick : Bool := match dn₀.linearized, dn₁.linearized with
      | some s₀, some s₁ => strcmp s₀ s₁ = 0
      | _, _ => false
    if quick then some (0, dn₀, dn₁)
    else do
      let (ok, dn₀) ← ldbDnCasefoldInternal canonicalise dn₀
      if !ok then return (1, dn₀, dn₁)
      else do
        let (ok, dn₁) ← ldbDnCasefoldInternal canonicalise dn₁
        if !ok then return (-1, dn₀, dn₁)
        else (compareFolded dn₀ dn₁).map fun ret => (ret, dn₀, dn₁)

end Schema

end Samba.Ldb
