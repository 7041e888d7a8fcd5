/-
8.3 names for long file names, and the cache that leads back from them (ntvfs/posix/pvfs_shortname.c).

A mangled name has the format Annnn~n.AAA: characters of the original name, a base 36 hash of its leading part, and the
extension. The cache is direct mapped and finds the leading part again by the hash alone.
-/
import Samba.Charset.Codepoint
import Mathlib.Logic.Function.Basic

namespace Samba.Ntvfs

open CString Samba.Charset

/-! ## Characters -/

/-- `reserved_names`. -/
def reservedNames : List Text :=
  ["AUX", "CON", "COM1", "COM2", "COM3", "COM4", "LPT1", "LPT2", "LPT3", "NUL", "PRN"].map text

/-- A character of a string, NUL behind its end. -/
def charAt (name : Text) (i : Nat) : UInt8 := name.getD i 0

/-- `FLAG_BASECHAR`. -/
def flagBasechar (c : UInt8) : Bool := isAlnum c

/-- `FLAG_ASCII`. -/
def flagAscii (c : UInt8) : Bool := isAlnum c || c ∈ [chr '_', chr '-', chr '$', chr '~']

/-- `FLAG_ILLEGAL`. -/
def flagIllegal (c : UInt8) : Bool :=
  c ∈ [chr '*', chr '\\', chr '/', chr '?', chr '<', chr '>', chr '|', chr '"', chr ':']

/-- `FLAG_WILDCARD`. -/
def flagWildcard (c : UInt8) : Bool := c ∈ [chr '*', chr '?', chr '"', chr '<', chr '>']

/-- `FLAG_POSSIBLE1` to `FLAG_POSSIBLE4`, for the places from 0 to 3 of a reserved name. -/
def flagPossible (i : Nat) (c : UInt8) : Bool :=
  (reservedNames.any fun r => c = charAt r i || c = toLower (charAt r i)) || (i = 3 && c = chr '.')

/-- `MANGLE_BASECHARS`. -/
def basechar (d : Nat) : UInt8 := if d < 10 then chr '0' + UInt8.ofNat d else chr 'A' + UInt8.ofNat (d - 10)

/-- `base_reverse`, which reverses the base 36 mapping. -/
def baseReverse (c : UInt8) : Nat :=
  if isDigit c then (c - chr '0').toNat else if isUpper c then (c - chr 'A').toNat + 10 else 0

/-! ## The context -/

/-- `struct pvfs_mangle_context`, without the tables and the cache: the hash of a name, of which only the given length
counts, the number of characters that are taken from the original name, and the size of the cache. -/
structure MangleContext where
  nameHash : Text → Nat → UInt32
  manglePrefix : Nat
  cacheSize : Nat
  manglePrefix_pos : 1 ≤ manglePrefix
  manglePrefix_le : manglePrefix ≤ 6
  cacheSize_pos : 0 < cacheSize

/-- `prefix_cache` and `prefix_cache_hashes`. -/
abbrev PrefixCache := Nat → Option (Text × Nat)

variable (ctx : MangleContext)

/-- `mangle_modulus`. -/
def MangleContext.mangleModulus : Nat := 36 ^ (7 - ctx.manglePrefix)

/-- `mangle_hash`. -/
def mangleHash (key : Text) (length : Nat) : Nat := (ctx.nameHash key length).toNat % ctx.mangleModulus

/-- `cache_insert`. -/
def cacheInsert (cache : PrefixCache) (key : Text) (length hash : Nat) : PrefixCache :=
  Function.update cache (hash % ctx.cacheSize) (some (key.take length, hash))

/-- `cache_lookup`. -/
def cacheLookup (cache : PrefixCache) (hash : Nat) : Option Text :=
  match cache (hash % ctx.cacheSize) with
  | none => none
  | some (key, h) => if hash ≠ h then none else some key

/-! ## Predicates on names -/

/-- `is_mangled_component`, for the first `len` characters of a string. -/
def isMangledComponent (name : Text) (len : Nat) : Bool :=
  -- the best distinguishing characteristic is the ~
  !(len > 12 || len < 8) && charAt name 6 = chr '~' &&
  -- the extension
  (len ≤ 8 || (charAt name 8 = chr '.' && ((name.take len).drop 9).all flagAscii)) &&
  -- the lead characters
  (name.take ctx.manglePrefix).all flagAscii &&
  -- the rest of the hash
  flagBasechar (charAt name 7) && ((name.take 6).drop ctx.manglePrefix).all flagBasechar

/-- `is_mangled`: some component of a path is mangled. -/
def isMangled (name : Text) : Bool :=
  match h : strchr name (chr '/') with
  | some k => isMangledComponent ctx name k || isMangled (name.drop (k + 1))
  | none => isMangledComponent ctx name name.length
termination_by name.length
decreasing_by
  have := List.findIdx?_eq_some_iff_findIdx_eq.1 h
  rw [List.length_drop]
  omega

/-- `is_8_3`. -/
def is83 (name : Text) (allowWildcards : Bool) : Bool :=
  -- as a special case, the names '.' and '..' are allowable 8.3 names
  if name = [chr '.'] ∨ name = [chr '.', chr '.'] then true
  else if name.length > 12 then false
  else
    (match strchr name (chr '.') with
      | none => name.length ≤ 8
      | some prefixLen =>
        let suffixLen := name.length - (prefixLen + 1)
        !(prefixLen > 8 || suffixLen > 3 || suffixLen = 0) && (strchr (name.drop (prefixLen + 1)) (chr '.')).isNone) &&
    name.all fun c => flagAscii c || (allowWildcards && flagWildcard c) || c = chr '.'

/-- `is_reserved_name`. -/
def isReservedName (name : Text) : Bool :=
  flagPossible 0 (charAt name 0) && flagPossible 1 (charAt name 1) && flagPossible 2 (charAt name 2) &&
    flagPossible 3 (charAt name 3) && reservedNames.any fun r => strcasecmp name r = 0

/-- The loop of `is_legal_name`, which takes at least one byte in each round. -/
def isLegalNameFrom : Nat → Text → Bool
  | fuel + 1, name =>
    if name = [] then true
    else match nextCodepoint name with
      | (none, _) => false
      | (some c, size) =>
        -- all high chars are OK
        if c ≥ 128 then isLegalNameFrom fuel (name.drop size)
        else if flagIllegal (UInt8.ofNat c) then false
        else isLegalNameFrom fuel (name.drop size)
  | 0, _ => true

/-- `is_legal_name`. -/
def isLegalName (name : Text) : Bool := isLegalNameFrom (name.length + 1) name

/-! ## From long names to short names -/

/-- `strrchr` for a dot: what stands before and behind the last one. -/
def splitLastDot : Text → Option (Text × Text)
  | [] => none
  | c :: cs =>
    match splitLastDot cs with
    | some (base, ext) => some (c :: base, ext)
    | none => if c = chr '.' then some ([], cs) else none

/-- The name before its extension, and the extension. An extension that contains illegal characters, is too long or has
zero length is part of the prefix. -/
def splitExtension (name : Text) : Option (Text × Text) :=
  match splitLastDot name with
  | none => none
  | some (base, ext) => if (ext.take 4).all flagAscii && ext ≠ [] && ext.length < 4 then some (base, ext) else none

/-- `prefix_len`. -/
def prefixLen (name : Text) : Nat := ((splitExtension name).map Prod.fst |>.getD name).length

/-- The leading characters: the first characters of the name, if they are ascii, otherwise '_'. -/
def leadChars (name : Text) : Text :=
  ((name.take ctx.manglePrefix).map fun c => toUpper (if flagAscii c then c else chr '_')) ++
    List.replicate (ctx.manglePrefix - name.length) (chr '_')

/-- The extension of the mangled name: the first 3 ascii chars after the dot. -/
def mapExtension (name : Text) : Text :=
  match splitExtension name with
  | none => []
  | some (_, ext) => ((ext.filter flagAscii).take 3).map toUpper

/-- The last `k` base 36 digits of a number, the last one last. -/
def hashDigits : Nat → Nat → Text
  | 0, _ => []
  | k + 1, v => hashDigits k (v / 36) ++ [basechar (v % 36)]

@[simp] theorem hashDigits_zero (v : Nat) : hashDigits 0 v = [] := by
  rw [hashDigits]

/-- The mangled name, for the hash of the prefix. -/
def mangledName (name : Text) (hash : Nat) : Text :=
  leadChars ctx name ++ hashDigits (6 - ctx.manglePrefix) (hash / 36) ++ [chr '~', basechar (hash % 36)] ++
    if mapExtension name = [] then [] else chr '.' :: mapExtension name

/-- `name_map`, with the cache after it. -/
def nameMap (cache : PrefixCache) (name : Text) (need83 cache83 : Bool) : Option Text × PrefixCache :=
  -- reserved names are handled specially
  if !isReservedName name && (is83 name false || (!need83 && isLegalName name)) then (none, cache)
  else
    let hash := mangleHash ctx name (prefixLen name)
    (some (mangledName ctx name hash), if cache83 then cacheInsert ctx cache name (prefixLen name) hash else cache)

/-- The short name of a name, which is the name itself where it needs no conversion. It does not depend on the cache. -/
def shortName (name : Text) : Text := (nameMap ctx (fun _ => none) name true false).1.getD name

/-! ## From short names to long names -/

/-- The loop over the digits of the hash, from the last one on. -/
def reverseDigits : Text → Nat → Nat → Nat
  | [], _, hash => hash
  | c :: digits, multiplier, hash => reverseDigits digits (multiplier * 36) (hash + multiplier * baseReverse c)

/-- The hash in an 8.3 name. -/
def hashOf (name : Text) : Nat :=
  reverseDigits ((name.take 6).drop ctx.manglePrefix).reverse 36 (baseReverse (charAt name 7))

/-- The extension of an 8.3 name. -/
def extensionOf (name : Text) : Text := if charAt name 8 = chr '.' then (name.drop 9).take 3 else []

/-- The name that is made of a cached prefix and the extension of an 8.3 name. -/
def longName (key name : Text) : Text :=
  if extensionOf name = [] then key else key ++ chr '.' :: extensionOf name

/-- `check_cache`. -/
def checkCache (cache : PrefixCache) (name : Text) : Option Text :=
  if !isMangled ctx name then none
  else (cacheLookup ctx cache (hashOf ctx name)).map fun key => longName key name

/-- The cache after `name_map` calls with `cache83`, each with a name and `need83`. -/
def cacheAfter (calls : List (Text × Bool)) : PrefixCache :=
  calls.foldl (fun cache call => (nameMap ctx cache call.1 call.2 true).2) fun _ => none

end Samba.Ntvfs
