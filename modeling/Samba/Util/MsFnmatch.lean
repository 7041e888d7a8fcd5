/-
File name matching (lib/util/ms_fnmatch.c). A `char` pointer is the text it points at, and pointers into one string are compared
by what is left behind them; the loops run over the places where a character starts. The code points of the pattern that are left
are read beforehand, up to the first that is zero. Running over the end of the string or of the `max_n` array is an error.
-/
import Samba.Charset.Codepoint
import Samba.Lib.Search

open Search

namespace Samba.Util

open CString Charset

/-! ## Characters -/

/-- The pointer behind the next character. -/
def nextChar (n : Text) : Text := n.drop (nextCodepoint n).2

/-- The places where a character starts, for at most a number of characters. -/
def walkFrom : Nat → Text → List Text
  | fuel + 1, c :: n => (c :: n) :: walkFrom fuel (nextChar (c :: n))
  | _, _ => []

/-- The places where a character starts. -/
def walk (n : Text) : List Text := walkFrom n.length n

/-- A code point of a pattern and the pattern behind it. -/
structure PatternChar where
  c : Option Nat
  p : Text
  deriving DecidableEq, Repr

/-- The code points that `ms_fnmatch_core` reads of a pattern. -/
def patternChars (pattern : Text) : List PatternChar :=
  ((walk pattern).map fun p => ⟨(nextCodepoint p).1, nextChar p⟩).takeWhile fun q => q.c ≠ some 0

/-- The code point of an ASCII character. -/
def code (c : Char) : Option Nat := some c.toNat

/-! ## Matching -/

/-- Where the code runs over the end of its data. -/
inductive FnError
  | pastTable | pastString
  deriving DecidableEq, Repr

/-- `null_match`. -/
def nullMatch (p : Text) : Int :=
  if p.all fun c => c == chr '*' || c == chr '<' || c == chr '"' || c == chr '>' then 0 else -1

/-- `struct max_n`. -/
structure MaxN where
  predot : Option Text
  postdot : Option Text
  deriving DecidableEq, Repr

/-- `m && m <= n`. -/
def atOrBefore (m : Option Text) (n : Text) : Bool := m.any fun m => n.length ≤ m.length

/-- `if (!m || m > n) m = n`. -/
def earlier (m : Option Text) (n : Text) : Option Text :=
  match m with
  | none => some n
  | some m => if m.length < n.length then some n else some m

/-- Where the loop of a wildcard has to stop: nowhere for a star, at the last dot for a '<'. -/
def wildStop (ldot : Option Text) (c : Option Nat) : Option (Option Text) :=
  if c = code '*' then some none else if c = code '<' then some ldot else none

/-- What a character of the pattern other than a star or a '<' does: it decides, or goes on in the string. -/
inductive CharStep
  | done (ret : Int)
  | next (n : Text)
  deriving DecidableEq, Repr

section CaseTables

variable (upcaseTable : Nat → Nat)

/-- `codepoint_cmpi`. -/
def codepointCmpi (c1 c2 : Option Nat) : Int :=
  if c1 = c2 ∨ c1.map (toupperW upcaseTable) = c2.map (toupperW upcaseTable) then 0
  else ((c1.getD 0xFFFFFFFF : Int) - c2.getD 0xFFFFFFFF).bmod (2 ^ 32)

/-- The cases of `ms_fnmatch_core` other than '*' and '<'. -/
def matchChar (c : Option Nat) (p n : Text) : Except FnError CharStep :=
  if c = code '?' then .ok (if n = [] then .done (-1) else .next (nextChar n))
  else if c = code '>' then
    -- a '.' ends it, and is left for what follows
    if n.head? = some (chr '.') then .ok (if n.tail = [] ∧ nullMatch p = 0 then .done 0 else .next n)
    else .ok (if n = [] then .done (nullMatch p) else .next (nextChar n))
  else if c = code '"' then
    if n = [] ∧ nullMatch p = 0 then .ok (.done 0)
    else .ok (if n.head? ≠ some (chr '.') then .done (-1) else .next (nextChar n))
  else
    let c2 := (nextCodepoint n).1
    if c ≠ c2 ∧ codepointCmpi upcaseTable c c2 ≠ 0 then .ok (.done (-1))
    else if n = [] then .error .pastString
    else .ok (.next (nextChar n))

/-- `ms_fnmatch_core`: the code points of the pattern that are left, the string, and the `max_n` array from the entry of the next
wildcard on. -/
def msFnmatchCore (ldot : Option Text) : List PatternChar → Text → List MaxN → Except FnError (Int × List MaxN)
  | [], n, maxN => .ok (if n = [] then 0 else -1, maxN)
  | ⟨c, p⟩ :: ps, n, maxN =>
    match wildStop ldot c with
    | some stop =>
      match maxN with
      | [] => .error .pastTable
      | e :: maxN =>
        if atOrBefore e.predot n then .ok (nullMatch p, e :: maxN)
        else if atOrBefore e.postdot n && stop.any fun d => d.length ≤ n.length then .ok (-1, e :: maxN)
        else match search (fun n maxN => msFnmatchCore ldot ps n maxN) nextChar stop (walk n) maxN with
          | .error e => .error e
          | .ok (.found, maxN) => .ok (0, e :: maxN)
          | .ok (.stopped, maxN) => .ok (-1, { e with postdot := earlier e.postdot n } :: maxN)
          | .ok (.exhausted, maxN) => .ok (nullMatch p, { e with predot := earlier e.predot n } :: maxN)
    | none =>
      match matchChar upcaseTable c p n with
      | .error e => .error e
      | .ok (.done ret) => .ok (ret, maxN)
      | .ok (.next n) => msFnmatchCore ldot ps n maxN

/-- The recursion of `ms_fnmatch_core` without the early returns and the updates of `max_n`. -/
def plainCore (ldot : Option Text) : List PatternChar → Text → Except FnError Int
  | [], n => .ok (if n = [] then 0 else -1)
  | ⟨c, p⟩ :: ps, n =>
    match wildStop ldot c with
    | some stop =>
      match find (fun n => plainCore ldot ps n) nextChar stop (walk n) with
      | .error e => .error e
      | .ok .found => .ok 0
      | .ok .stopped => .ok (-1)
      | .ok .exhausted => .ok (nullMatch p)
    | none =>
      match matchChar upcaseTable c p n with
      | .error e => .error e
      | .ok (.done ret) => .ok ret
      | .ok (.next n) => plainCore ldot ps n

/-! ## Whole names -/

/-- `strrchr(string, '.')`. -/
def lastDot : Text → Option Text
  | [] => none
  | c :: n => match lastDot n with
    | some d => some d
    | none => if c = chr '.' then some (c :: n) else none

/-- The entries that `ms_fnmatch` allocates: one for each byte that is a star or a '<'. -/
def wildcardCount (pattern : Text) : Nat := pattern.countP fun c => c == chr '*' || c == chr '<'

/-- `ms_fnmatch_core` as `ms_fnmatch` calls it. -/
def runCore (pattern string : Text) : Except FnError Int :=
  (msFnmatchCore upcaseTable (lastDot string) (patternChars pattern) string
    (List.replicate (wildcardCount pattern) ⟨none, none⟩)).map Prod.fst

/-- The recursion without `max_n`, called in its place. -/
def runPlain (pattern string : Text) : Except FnError Int :=
  plainCore upcaseTable (lastDot string) (patternChars pattern) string

/-- `strpbrk(pattern, "<>*?\"") != NULL`. -/
def hasWildcard (pattern : Text) : Bool :=
  pattern.any fun c => c == chr '<' || c == chr '>' || c == chr '*' || c == chr '?' || c == chr '"'

/-- What `ms_fnmatch` makes of a pattern for the protocols up to LANMAN2. -/
def oldPattern : Text → Text
  | [] => []
  | c :: p =>
    (if c = chr '?' then chr '>'
     else if c = chr '.' ∧ (p.head? = some (chr '?') ∨ p.head? = some (chr '*') ∨ p = []) then chr '"'
     else if c = chr '*' ∧ p.head? = some (chr '.') then chr '<'
     else c) :: oldPattern p

/-- `enum protocol_types`. -/
inductive ProtocolTypes
  | none | core | coreplus | lanman1 | lanman2 | nt1 | smb2
  deriving DecidableEq, Repr

/-- `protocol <= PROTOCOL_LANMAN2`. -/
def ProtocolTypes.old : ProtocolTypes → Bool
  | .none | .core | .coreplus | .lanman1 | .lanman2 => true
  | .nt1 | .smb2 => false

/-- The string that is matched. -/
def matchedString (string : Text) : Text := if string = text ".." then text "." else string

/-- `ms_fnmatch`, with the recursion it runs. -/
def msFnmatchWith (run : Text → Text → Except FnError Int) (pattern string : Text) (protocol : ProtocolTypes) :
    Except FnError Int :=
  let string := matchedString string
  if hasWildcard pattern = false then .ok (strcasecmpM upcaseTable pattern string)
  else if protocol.old then
    let p := oldPattern pattern
    if hasWildcard p = false then .ok (strcasecmpM upcaseTable p string) else run p string
  else run pattern string

/-- `ms_fnmatch`. -/
def msFnmatch : Text → Text → ProtocolTypes → Except FnError Int := msFnmatchWith upcaseTable (runCore upcaseTable)

/-- `ms_fnmatch` without `max_n`. -/
def msFnmatchPlain : Text → Text → ProtocolTypes → Except FnError Int := msFnmatchWith upcaseTable (runPlain upcaseTable)

end CaseTables

end Samba.Util
