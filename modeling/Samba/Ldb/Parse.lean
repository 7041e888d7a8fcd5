/-
The parser of search filters and their printer (lib/ldb/common/ldb_parse.c). A parser function takes the string at `*s` and
gives back the string at which it leaves `*s`, also when it fails. Memory allocation does not fail.
-/
import Mathlib.Data.List.DropRight
import Samba.Lib.CNumber
import Samba.Ldb.ParseTree

namespace Samba.Ldb

open CString

/-! ## Values -/

/-- The loop of `ldb_binary_decode`. Of what follows a backslash two characters are skipped, whatever `sscanf` reads. -/
def decodeBytes : Text → Option (List UInt8)
  | [] => some []
  | c :: rest =>
    if c = chr '\\' then
      match scanHex rest, rest with
      | none, _ => none
      | some x, _ :: _ :: rest => (decodeBytes rest).map (x :: ·)
      | some x, _ => some [x]
    else (decodeBytes rest).map (c :: ·)

@[simp] theorem decodeBytes_nil : decodeBytes [] = some [] := by
  rw [decodeBytes]

/-- `ldb_binary_decode`. -/
def ldbBinaryDecode (str : Text) : Option LdbVal := (decodeBytes str).map .ofText

/-- A hexadecimal digit of `%02X`. -/
def hexUpper (n : UInt8) : UInt8 := if n < 10 then chr '0' + n else chr 'A' + (n - 10)

/-- The characters that are escaped although they are printable. -/
def filterSpecial : List UInt8 := " *()\\&|!\"".toList.map chr

/-- What is written for a byte of a value. -/
def encodeByte (c : UInt8) : Text :=
  if !isPrint c || filterSpecial.contains c then [chr '\\', hexUpper (c / 16), hexUpper (c % 16)] else [c]

/-- `ldb_binary_encode`. -/
def ldbBinaryEncode (v : LdbVal) : Text := (v.data.take v.length).flatMap encodeByte

/-- `ldb_parse_find_wildcard`: how many characters are before the first wildcard. -/
def ldbParseFindWildcard : Text → Option Nat
  | [] => none
  | c :: rest =>
    if c = chr '\\' then
      match rest with
      | [] => none
      | _ :: rest => (ldbParseFindWildcard rest).map (· + 2)
    else if c = chr '*' then some 0
    else (ldbParseFindWildcard rest).map (· + 1)

/-- The loop of `ldb_wildcard_decode`. -/
def wildcardDecode : Nat → Text → Option (List LdbVal)
  | 0, _ => some []
  | fuel + 1, str =>
    if str = [] then some []
    else match ldbParseFindWildcard str with
      | none => (ldbBinaryDecode str).map ([·])
      | some 0 => wildcardDecode fuel (str.drop 1)
      | some n => do
        let chunk ← ldbBinaryDecode (str.take n)
        let chunks ← wildcardDecode fuel (str.drop (n + 1))
        return chunk :: chunks

/-- `ldb_wildcard_decode`, which fails where there is no chunk. -/
def ldbWildcardDecode (string : Text) : Option (List LdbVal) :=
  match wildcardDecode string.length string with
  | some [] => none
  | chunks => chunks

/-! ## Simple filters -/

/-- The operations of `ldb_parse_filtertype`. -/
inductive FilterType
  | equality
  | less
  | greater
  | approx
  | extended
  deriving DecidableEq, Repr

/-- The characters of an attribute name. -/
def attrChar (c : UInt8) : Bool := (isAscii c && isAlnum c) || c = chr '-'

def skipSpace (s : Text) : Text := s.dropWhile isSpace

/-- The name at the start of a filter, and what is behind it. -/
def scanAttr (s : Text) : Option (Text × Text) :=
  -- for internal attributes the first char can be @
  let at_ := s.take (if s.head? = some (chr '@') then 1 else 0)
  let p := s.drop at_.length
  let name := at_ ++ p.takeWhile attrChar
  let p := p.dropWhile attrChar
  -- but extended searches have : and . chars too
  if p.head? = some (chr ':') then
    match strstr p (":=".toList.map chr) with
    | none => none
    | some n => some (name ++ p.take n, p.drop n)
  else some (name, p)

/-- The operator of a filter. -/
def scanOperator : Text → Option (FilterType × Text)
  | [] => none
  | c :: p =>
    if c = chr '=' then some (.equality, p)
    else match p with
      | [] => none
      | d :: p =>
        if d ≠ chr '=' then none
        else if c = chr '<' then some (.less, p)
        else if c = chr '>' then some (.greater, p)
        else if c = chr '~' then some (.approx, p)
        else if c = chr ':' then some (.extended, p)
        else none

/-- The value up to a parenthesis that is not behind a backslash, and what is behind it; `prev` is the character in
front. -/
def scanValue (prev : UInt8) : Text → Text × Text
  | [] => ([], [])
  | c :: s =>
    if c = chr ')' ∧ prev ≠ chr '\\' then ([], c :: s)
    else (c :: (scanValue c s).1, (scanValue c s).2)

/-- `ldb_parse_filtertype`: the operation, the name, the value, and what is behind it. -/
def ldbParseFiltertype (s : Text) : Option (FilterType × Text × Text × Text) := do
  let (name, p) ← scanAttr s
  let (filter, p) ← scanOperator (skipSpace p)
  -- in front of the value there is the operator or white space
  let (value, p) := scanValue (chr '=') (skipSpace p)
  return (filter, name, value.rdropWhile isSpace, p)

/-- `ldb_parse_extended`. -/
def ldbParseExtended (attr value : Text) : Option ParseTree := do
  let value ← ldbBinaryDecode value
  let p₁ := attr.dropWhile (· ≠ chr ':')
  if p₁ = [] then none
  else
    let attr := attr.takeWhile (· ≠ chr ':')
    let first := (p₁.drop 1).takeWhile (· ≠ chr ':')
    let p₂ := (p₁.drop 1).dropWhile (· ≠ chr ':')
    if first = "dn".toList.map chr then
      return .extended (some attr) true (if p₂ = [] then none else some (p₂.drop 1)) value
    else return .extended (some attr) false (some first) value

/-- The tree of a simple filter. -/
def simpleTree (filtertype : FilterType) (attr value : Text) : Option ParseTree :=
  match filtertype with
  | .equality =>
    if value = [chr '*'] then some (.present attr)
    else if (ldbParseFindWildcard value).isSome then
      (ldbWildcardDecode value).map
        (.substring attr (value.head? = some (chr '*')) (value.getLast? = some (chr '*')))
    else (ldbBinaryDecode value).map (.equality attr)
  | .greater => (ldbBinaryDecode value).map (.comparison .greater attr)
  | .less => (ldbBinaryDecode value).map (.comparison .less attr)
  | .approx => (ldbBinaryDecode value).map (.comparison .approx attr)
  | .extended => ldbParseExtended attr value

/-- `ldb_parse_simple`. -/
def ldbParseSimple (s : Text) : Option ParseTree × Text :=
  match ldbParseFiltertype s with
  | none => (none, s)
  | some (filtertype, attr, value, p) => (simpleTree filtertype attr value, p)

/-! ## Filters -/

section Nested

-- `ldb_parse_filter` for the filters inside
variable (filter : Text → Option ParseTree × Text)

/-- The loop of `ldb_parse_filterlist`. -/
def filterlistLoop : Nat → Text → List ParseTree × Text
  | 0, p => ([], p)
  | fuel + 1, p =>
    if p = [] then ([], p)
    else match filter p with
      | (none, p) => ([], p)
      | (some next, p) =>
        let (elements, p) := filterlistLoop fuel (skipSpace p)
        (next :: elements, p)

/-- `ldb_parse_filterlist`, behind its operator. -/
def ldbParseFilterlist (op : List ParseTree → ParseTree) (s : Text) : Option ParseTree × Text :=
  match filter (skipSpace (s.drop 1)) with
  | (none, _) => (none, s)
  | (some first, p) =>
    let p := skipSpace p
    let (elements, p) := filterlistLoop filter p.length p
    (some (op (first :: elements)), p)

/-- `ldb_parse_not`. -/
def ldbParseNot (s : Text) : Option ParseTree × Text :=
  match filter (s.drop 1) with
  | (none, _) => (none, s)
  | (some child, p) => (some (.not child), p)

/-- `ldb_parse_filtercomp`. -/
def ldbParseFiltercomp (s : Text) : Option ParseTree × Text :=
  let p := skipSpace s
  match p.head? with
  | none => ldbParseSimple p
  | some c =>
    if c = chr '&' then ldbParseFilterlist filter .and p
    else if c = chr '|' then ldbParseFilterlist filter .or p
    else if c = chr '!' then ldbParseNot filter p
    else if c = chr '(' ∨ c = chr ')' then (none, s)
    else ldbParseSimple p

end Nested

/-- `ldb_parse_filter`. Behind a closing parenthesis `*s` moves on, also when what is inside has failed. The number bounds
how deep filters are nested. -/
def ldbParseFilter : Nat → Text → Option ParseTree × Text
  | 0, s => (none, s)
  | fuel + 1, s =>
    if s.head? = some (chr '(') then
      let (ret, p) := ldbParseFiltercomp (ldbParseFilter fuel) (s.drop 1)
      if p.head? = some (chr ')') then (ret, skipSpace (p.drop 1)) else (none, s)
    else (none, s)

/-- The filter that an empty string stands for. -/
def defaultFilter : Text := "(|(objectClass=*)(distinguishedName=*))".toList.map chr

/-- `ldb_parse_tree`: no filter is nested deeper than the string is long. -/
def ldbParseTree (s : Text) : Option ParseTree :=
  let s := skipSpace (if s = [] then defaultFilter else s)
  if s.head? = some (chr '(') then (ldbParseFilter s.length s).1 else (ldbParseSimple s).1

/-! ## Printing -/

/-- The operator of a comparison as it is printed. -/
def comparisonText : ComparisonOp → Text
  | .greater => ">=".toList.map chr
  | .less => "<=".toList.map chr
  | .approx => "~=".toList.map chr

/-- The chunks of a substring match with a wildcard behind each but the last one. -/
def chunksText (endWithWildcard : Bool) : List LdbVal → Text
  | [] => []
  | [chunk] => ldbBinaryEncode chunk ++ if endWithWildcard then [chr '*'] else []
  | chunk :: chunks => ldbBinaryEncode chunk ++ chr '*' :: chunksText endWithWildcard chunks

/-- What stands between the parentheses of a leaf. -/
def leafText : ParseTree → Text
  | .equality attr value => attr ++ chr '=' :: ldbBinaryEncode value
  | .substring attr startWithWildcard endWithWildcard chunks =>
    attr ++ chr '=' :: (if startWithWildcard then [chr '*'] else []) ++ chunksText endWithWildcard chunks
  | .comparison op attr value => attr ++ comparisonText op ++ ldbBinaryEncode value
  | .present attr => attr ++ "=*".toList.map chr
  | .extended attr dnAttributes ruleId value =>
    attr.getD [] ++ (if dnAttributes then ":dn".toList.map chr else []) ++ (if ruleId.isSome then [chr ':'] else []) ++
      ruleId.getD [] ++ ":=".toList.map chr ++ ldbBinaryEncode value
  | .and _ | .or _ | .not _ => []

mutual

/-- `ldb_filter_from_tree`. -/
def ldbFilterFromTree : ParseTree → Text
  | .and elements => "(&".toList.map chr ++ filtersFromTrees elements ++ [chr ')']
  | .or elements => "(|".toList.map chr ++ filtersFromTrees elements ++ [chr ')']
  | .not child => "(!".toList.map chr ++ ldbFilterFromTree child ++ [chr ')']
  | .equality attr value => chr '(' :: leafText (.equality attr value) ++ [chr ')']
  | .substring attr startWithWildcard endWithWildcard chunks =>
    chr '(' :: leafText (.substring attr startWithWildcard endWithWildcard chunks) ++ [chr ')']
  | .comparison op attr value => chr '(' :: leafText (.comparison op attr value) ++ [chr ')']
  | .present attr => chr '(' :: leafText (.present attr) ++ [chr ')']
  | .extended attr dnAttributes ruleId value =>
    chr '(' :: leafText (.extended attr dnAttributes ruleId value) ++ [chr ')']

/-- The filters of a list one behind the other. -/
def filtersFromTrees : List ParseTree → Text
  | [] => []
  | t :: ts => ldbFilterFromTree t ++ filtersFromTrees ts

end

end Samba.Ldb
