/-
Changing a DN and looking into it (lib/ldb/common/ldb_dn.c): components put in front of it, and the names and values of
single components. Memory allocation does not fail, but for a block of no elements, which `talloc_realloc` does not give.
-/
import Samba.Ldb.Dn

namespace Samba.Ldb

open CString

/-- `ldb_dn_is_valid`. -/
def ldbDnIsValid (dn : LdbDn) : Bool := !dn.invalid

/-- `ldb_val_dup`. A value that is longer than its block is read behind the block. -/
def ldbValDup (v : LdbVal) : Option LdbVal := if v.length = v.data.length then some v else none

/-- `ldb_dn_copy_component`. -/
def ldbDnCopyComponent (src : DnComponent) : Option DnComponent := do
  let value ← ldbValDup src.value
  match src.cf with
  | none => return { src with value := value }
  | some (cfName, cfValue) =>
    let cfValue ← ldbValDup cfValue
    return { src with value := value, cf := some (cfName, cfValue) }

/-- The end of `ldb_dn_add_child`: the string. -/
def addChildText (dn child : LdbDn) : Option (Bool × LdbDn) :=
  match dn.linearized with
  | none => some (true, dn)
  | some text => do
    let (s, _) ← ldbDnGetLinearized child
    match s with
    | none => return (false, dn)
    | some s => return (true, { dn with linearized := some (s ++ chr ',' :: text) })

section Schema

variable (canonicalise : Text → LdbVal → Option LdbVal)

/-- `ldb_dn_add_child`. -/
def ldbDnAddChild (dn child : LdbDn) : Option (Bool × LdbDn) :=
  if child.invalid || dn.invalid then some (false, dn)
  else match dn.components with
    | none => addChildText dn child
    | some comps => do
      let (ok, child) ← ldbDnValidate child
      if !ok then return (false, dn)
      else do
        let (s, child) ← if dn.validCase then ldbDnGetCasefold canonicalise child else some (none, child)
        if dn.validCase && s.isNone then return (false, dn)
        else if dn.compNum + child.compNum = 0 then return (false, { dn with components := none, invalid := true })
        else do
          let new ← (child.components.getD []).mapM ldbDnCopyComponent
          let casefold := match dn.casefold, s with
            | some folded, some s => some (s ++ chr ',' :: folded)
            | folded, _ => folded
          addChildText { dn with components := some (new ++ comps), casefold := casefold } child

/-- `ldb_dn_add_child_fmt`, with the printed string. -/
def ldbDnAddChildFmt (dn : LdbDn) (childStr : Text) : Option (Bool × LdbDn) :=
  if dn.invalid then some (false, dn) else ldbDnAddChild canonicalise dn (ldbDnNew childStr)

/-- As long as the DN is only known as a string, the string of the child is put in front of it as it is. -/
theorem ldbDnAddChildFmt_text {dn : LdbDn} {text : Text} (hvalid : dn.invalid = false) (hcomps : dn.components = none)
    (hlin : dn.linearized = some text) (childStr : Text) : ldbDnAddChildFmt canonicalise dn childStr =
      some (true, { dn with linearized := some (childStr ++ chr ',' :: text) }) := by
  obtain ⟨special, invalid, validCase, linearized, casefold, components⟩ := dn
  cases hvalid
  cases hcomps
  cases hlin
  rfl

end Schema

/-! ## Components -/

/-- `ldb_dn_get_component_name`, on a DN that is valid. -/
def ldbDnGetComponentName (dn : LdbDn) (num : Nat) : Option Text := (dn.components.getD [])[num]?.map (·.name)

/-- `ldb_dn_get_component_val`, on a DN that is valid. -/
def ldbDnGetComponentVal (dn : LdbDn) (num : Nat) : Option LdbVal := (dn.components.getD [])[num]?.map (·.value)

end Samba.Ldb
