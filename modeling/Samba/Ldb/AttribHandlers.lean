/-
The canonicalisation and the comparison of values in the standard syntaxes (lib/ldb/common/attrib_handlers.c), with the
times of lib/ldb/common/ldb_msg.c. Casefolding is that of the C locale. Integers wrap around in a difference; `time_t` has
64 bits.
-/
import Mathlib.Data.List.DropRight
import Samba.Lib.CNumber
import Samba.Lib.CTime
import Samba.Ldb.DnKey

namespace Samba.Ldb

open CString CTime

/-- The number that a difference of two numbers leaves in an `int`. -/
def toInt (i : Int) : Int := i.bmod (2 ^ 32)

/-- The value of a `char`. -/
def charValue (c : UInt8) : Int := if c < 128 then c.toNat else (c.toNat : Int) - 256

/-! ## Octet strings -/

/-- `ldb_handler_copy`. `talloc` has no blocks of `0x10000000` bytes and more. -/
def ldbHandlerCopy (v : LdbVal) : Option LdbVal := if v.length + 1 < 0x10000000 then some v else none

/-- `ldb_comparison_binary`. -/
def ldbComparisonBinary (v₁ v₂ : LdbVal) : Int :=
  if v₁.length ≠ v₂.length then toInt (v₁.length - v₂.length)
  else memcmp (v₁.data.take v₁.length) (v₂.data.take v₂.length)
where
  -- on blocks of the same length the order is that of strings
  memcmp (a b : List UInt8) : Int := strcmp a b

/-! ## Directory strings -/

def isBlank (c : UInt8) : Bool := c = chr ' '

/-- The loop of `ldb_handler_fold` over the spaces inside. What is behind more than one of them is moved down without the
NUL at its end, so that as many bytes stay at the end of the string, and the loop goes on at the place where it was. -/
def moveSpaces : Nat → Text → Text
  | 0, s => s
  | fuel + 1, s =>
    let front := s.takeWhile (!isBlank ·)
    let t := s.dropWhile (!isBlank ·)
    if t = [] then s
    else
      let k := (t.takeWhile isBlank).length
      let tail := t.dropWhile isBlank
      if k > 1 then
        let moved := chr ' ' :: tail ++ t.drop (tail.length + 1)
        front ++ moved.take k ++ moveSpaces fuel (moved.drop k)
      else front ++ chr ' ' :: moveSpaces fuel tail

/-- A string without the spaces at its start and its end. -/
def trimBlanks (s : Text) : Text := (s.rdropWhile isBlank).dropWhile isBlank

/-- `ldb_handler_fold`. -/
def ldbHandlerFold (v : LdbVal) : Option LdbVal :=
  let s := trimBlanks ((cstr v.data).map toUpper)
  some (.ofText (moveSpaces s.length s))

/-- The end of the comparisons of strings: the spaces at the end are skipped where a string has ended. -/
def compareEnds (up : UInt8 → UInt8) (s₁ s₂ : Text) : Int :=
  let (s₁, s₂) := if s₁ = [] ∨ s₂ = [] then (s₁.dropWhile isBlank, s₂.dropWhile isBlank) else (s₁, s₂)
  charValue (up (s₁.headD 0)) - charValue (up (s₂.headD 0))

/-- The comparison of strings that are not ASCII, on casefolded strings. -/
def compareUtf8 : Nat → Text → Text → Int
  | 0, s₁, s₂ => compareEnds id s₁ s₂
  | fuel + 1, s₁, s₂ =>
    match s₁, s₂ with
    | c₁ :: rest₁, c₂ :: rest₂ =>
      -- the loop ends where the two bytes have no bit in common
      if c₁ &&& c₂ = 0 ∨ c₁ ≠ c₂ then compareEnds id s₁ s₂
      else if isBlank c₁ then compareUtf8 fuel (rest₁.dropWhile isBlank) (rest₂.dropWhile isBlank)
      else compareUtf8 fuel rest₁ rest₂
    | _, _ => compareEnds id s₁ s₂

/-- The loop of `ldb_comparison_fold`. -/
def compareFold : Nat → Text → Text → Int
  | 0, s₁, s₂ => compareEnds toUpper s₁ s₂
  | fuel + 1, s₁, s₂ =>
    match s₁, s₂ with
    | c₁ :: rest₁, c₂ :: rest₂ =>
      if !isAscii c₁ || !isAscii c₂ then compareUtf8 s₁.length (s₁.map toUpper) (s₂.map toUpper)
      else if toUpper c₁ ≠ toUpper c₂ then compareEnds toUpper s₁ s₂
      else if isBlank c₁ then compareFold fuel (rest₁.dropWhile isBlank) (rest₂.dropWhile isBlank)
      else compareFold fuel rest₁ rest₂
    | _, _ => compareEnds toUpper s₁ s₂

theorem compareFold_zero (s₁ s₂ : Text) : compareFold 0 s₁ s₂ = compareEnds toUpper s₁ s₂ := by
  rw [compareFold]

/-- `ldb_comparison_fold`. -/
def ldbComparisonFold (v₁ v₂ : LdbVal) : Int :=
  let s₁ := (cstr v₁.data).dropWhile isBlank
  let s₂ := (cstr v₂.data).dropWhile isBlank
  compareFold s₁.length s₁ s₂

/-! ## Integers -/

/-- `ldb_canonicalise_Integer`. -/
def ldbCanonicaliseInteger (v : LdbVal) : Option LdbVal :=
  let (i, rest) := strtoll (cstr v.data)
  if rest ≠ [] then none else some (.ofText (printInt i))

/-- `ldb_comparison_Integer`. -/
def ldbComparisonInteger (v₁ v₂ : LdbVal) : Int := toInt ((strtoll (cstr v₁.data)).1 - (strtoll (cstr v₂.data)).1)

/-! ## Times -/

/-- `ldb_string_to_time`. -/
def ldbStringToTime (s : Text) : Int :=
  let fields : Option Tm := do
    let (year, s) ← scanField 4 s
    let (mon, s) ← scanField 2 s
    let (mday, s) ← scanField 2 s
    let (hour, s) ← scanField 2 s
    let (min, s) ← scanField 2 s
    let (sec, _) ← scanField 2 s
    return ⟨year - 1900, mon - 1, mday, hour, min, sec⟩
  match fields with
  | none => 0
  | some tm => timegm tm

/-- A field printed as an unsigned number. -/
def printField (width : Nat) (i : Int) : Text := padded width (i % 2 ^ 32).toNat

/-- `ldb_timestring`. -/
def ldbTimestring (t : Int) : Option Text := do
  let tm ← gmtime t
  let ts := printField 4 (tm.year + 1900) ++ printField 2 (tm.mon + 1) ++ printField 2 tm.mday ++ printField 2 tm.hour ++
    printField 2 tm.min ++ printField 2 tm.sec ++ ".0Z".toList.map chr
  if ts.length ≠ 17 then none else some ts

/-- `ldb_canonicalise_utctime`. -/
def ldbCanonicaliseUtctime (v : LdbVal) : Option LdbVal := (ldbTimestring (ldbStringToTime (cstr v.data))).map .ofText

/-- `ldb_comparison_utctime`. -/
def ldbComparisonUtctime (v₁ v₂ : LdbVal) : Int :=
  let t₁ := ldbStringToTime (cstr v₁.data)
  let t₂ := ldbStringToTime (cstr v₂.data)
  toInt (toInt t₂ - toInt t₁)

/-! ## DNs -/

section Dn

-- the canonicalisation function of the syntax of an attribute in a DN
variable (canonicalise : Text → LdbVal → Option LdbVal)

/-- `ldb_canonicalise_dn`, with an inner `none` for a value that is refused. -/
def ldbCanonicaliseDn (v : LdbVal) : Option (Option LdbVal) := do
  let (ok, dn) ← ldbDnValidate (ldbDnNew (cstr v.data))
  if !ok then return none
  else do
    let (folded, _) ← ldbDnGetCasefold canonicalise dn
    return folded.map .ofText

/-- `ldb_comparison_dn`. -/
def ldbComparisonDn (v₁ v₂ : LdbVal) : Option Int := do
  let (ok, dn₁) ← ldbDnValidate (ldbDnNew (cstr v₁.data))
  if !ok then return -1
  else do
    let (ok, dn₂) ← ldbDnValidate (ldbDnNew (cstr v₂.data))
    if !ok then return -1
    else (ldbDnCompare canonicalise dn₁ dn₂).map Prod.fst

/-! ## The table of the syntaxes -/

/-- The standard syntaxes of which the equality and the index key are compared. -/
inductive StandardSyntax
  | integer
  | octetString
  | directoryString
  | dn
  | utcTime
  deriving DecidableEq, Repr

/-- The column `canonicalise_fn`. -/
def canonicaliseFn : StandardSyntax → LdbVal → Option (Option LdbVal)
  | .integer, v => some (ldbCanonicaliseInteger v)
  | .octetString, v => some (ldbHandlerCopy v)
  | .directoryString, v => some (ldbHandlerFold v)
  | .dn, v => ldbCanonicaliseDn canonicalise v
  | .utcTime, v => some (ldbCanonicaliseUtctime v)

/-- The column `comparison_fn`. -/
def comparisonFn : StandardSyntax → LdbVal → LdbVal → Option Int
  | .integer, v₁, v₂ => some (ldbComparisonInteger v₁ v₂)
  | .octetString, v₁, v₂ => some (ldbComparisonBinary v₁ v₂)
  | .directoryString, v₁, v₂ => some (ldbComparisonFold v₁ v₂)
  | .dn, v₁, v₂ => ldbComparisonDn canonicalise v₁ v₂
  | .utcTime, v₁, v₂ => some (ldbComparisonUtctime v₁ v₂)

end Dn

end Samba.Ldb
