/-
Client path names made into names of files below the share's base directory (ntvfs/posix/pvfs_resolve.c): the
reformatting of pvfs_unix_path, the reduction of ".." components, and the order in which pvfs_resolve_name tries them.
-/
import Samba.Ntvfs.Shortname

namespace Samba.Ntvfs

open CString Samba.Charset

/-! ## Names -/

/-- The flags of a resolve that are looked at. -/
structure ResolveFlags where
  wildcard : Bool
  streams : Bool
  deriving DecidableEq, Repr

inductive ResolveStatus
  | illegalCharacter | objectNameInvalid | objectPathSyntaxBad | objectPathNotFound
  deriving DecidableEq, Repr

/-- `struct pvfs_state`, as far as names depend on it: the directory of the share, whether its file system has named
streams, `pvfs_name_hash`, and the table for upper case. -/
structure PvfsState where
  baseDirectory : Text
  namedStreams : Bool
  nameHash : Text → Nat → UInt32
  upcaseTable : Nat → Nat

/-- `struct pvfs_filename`, as far as it is known before the file system is looked at. -/
structure PvfsFilename where
  originalName : Text
  fullName : Text
  streamName : Option Text
  streamId : UInt32
  hasWildcard : Bool
  deriving DecidableEq, Repr

variable (pvfs : PvfsState)

/-- `parse_stream_name`: the name and the id of the stream, for the string from the colon on. -/
def parseStreamName (s : Text) : Except ResolveStatus (Option Text × UInt32) :=
  let streamName := s.drop 1
  match strchr streamName (chr ':') with
  | none => .ok (some streamName, pvfs.nameHash streamName streamName.length)
  | some k =>
    if strcasecmpM pvfs.upcaseTable (streamName.drop k) (text ":$DATA") ≠ 0 then .error .objectNameInvalid
    else
      let streamName := streamName.take k
      if streamName = [] then .ok (none, 0)
      else .ok (some streamName, pvfs.nameHash streamName streamName.length)

/-! ## pvfs_unix_path -/

/-- What stands at `*p` after a character was looked at: a byte, or the end that cuts a stream name off, from which `p`
steps back. -/
inductive Written
  | byte (b : UInt8)
  | cut
  deriving DecidableEq, Repr

/-- The `switch` of `pvfs_unix_path`, for the character `c` at the first byte of `rest`. `done` are the bytes from
`p_start` to `p`. -/
def pathChar (flags : ResolveFlags) (done rest : Text) (c : Option Nat) (name : PvfsFilename) :
    Except ResolveStatus (Written × PvfsFilename) :=
  let start : Bool := done = [] || done.getLast? = some (chr '/')
  let ends (b : UInt8) : Bool := b = 0 || b = chr '\\'
  if c = some 0x5C then
    -- wildcards are only allowed in the last part of a name
    if name.hasWildcard then .error .illegalCharacter
    else if done ≠ [] ∧ charAt rest 1 = 0 then .ok (.byte 0, name)
    else .ok (.byte (chr '/'), name)
  else if c = some 0x3A then
    if !flags.streams then .error .illegalCharacter
    else if name.hasWildcard then .error .illegalCharacter
    else match parseStreamName pvfs rest with
      | .error e => .error e
      | .ok (streamName, streamId) => .ok (.cut, { name with streamName := streamName, streamId := streamId })
  else if c ∈ [some 0x2A, some 0x3E, some 0x3C, some 0x3F, some 0x22] then
    if !flags.wildcard then .error .objectNameInvalid
    else .ok (.byte (charAt rest 0), { name with hasWildcard := true })
  else if c = some 0x2F ∨ c = some 0x7C then .error .illegalCharacter
  else if c = some 0x2E then
    -- see if it is definitely a .. or . component
    if charAt rest 1 = chr '.' && ends (charAt rest 2) && start then .error .objectPathSyntaxBad
    else if ends (charAt rest 1) && start then .error .objectPathSyntaxBad
    else .ok (.byte (charAt rest 0), name)
  else .ok (.byte (charAt rest 0), name)

/-- The file name at the end of the loop: the string that starts with the base directory. -/
def fullName (done : Text) : Text := pvfs.baseDirectory ++ chr '/' :: cstr done

/-- The loop of `pvfs_unix_path`, which converts in place. -/
def unixPathFrom (flags : ResolveFlags) (done rest : Text) (name : PvfsFilename) : Except ResolveStatus PvfsFilename :=
  match rest with
  | [] => .ok { name with fullName := fullName pvfs done }
  | b :: bs =>
    if b = 0 then .ok { name with fullName := fullName pvfs done }
    else
      let (c, size) := nextCodepoint (b :: bs)
      match pathChar pvfs flags done (b :: bs) c name with
      | .error e => .error e
      | .ok (.byte b', name) => unixPathFrom flags (done ++ b' :: bs.take (size - 1)) (bs.drop (size - 1)) name
      | .ok (.cut, name) =>
        -- `p` is at the end that was written, or behind it
        if size ≤ 1 then .ok { name with fullName := fullName pvfs done }
        else unixPathFrom flags (done ++ 0 :: bs.take (size - 2)) (bs.drop (size - 2)) name
termination_by rest.length
decreasing_by
  all_goals
    simp only [List.length_drop, List.length_cons]
    omega

/-- `pvfs_unix_path`. -/
def unixPath (flags : ResolveFlags) (cifsName : Text) : Except ResolveStatus PvfsFilename :=
  let name : PvfsFilename :=
    { originalName := cifsName, fullName := [], streamName := none, streamId := 0, hasWildcard := false }
  let rest := cifsName.dropWhile (· = chr '\\')
  if rest = [] then .ok { name with fullName := pvfs.baseDirectory ++ [chr '/', chr '.'] }
  else unixPathFrom pvfs flags [] rest name

/-! ## pvfs_reduce_name -/

/-- The components of a name: what is between backslashes. `cur` is the part of the component that was passed. -/
def splitComponents (cur rest : Text) : List Text :=
  match rest with
  | [] => [cur]
  | b :: bs =>
    let (c, size) := nextCodepoint (b :: bs)
    if c = some 0x5C then cur :: splitComponents (bs.take (size - 1)) (bs.drop (size - 1))
    else splitComponents (cur ++ b :: bs.take (size - 1)) (bs.drop (size - 1))
termination_by rest.length
decreasing_by
  all_goals
    simp only [List.length_drop, List.length_cons]
    omega

/-- The count of the first loop over the components: the '.' components, and all that follow one. -/
def errCount (components : List Text) : Nat :=
  components.foldl (fun n w => if w = [] then n else if w = [chr '.'] ∨ n ≠ 0 then n + 1 else n) 0

/-- `memmove` inside an array: `n` entries from `src` on are copied to `dst`. -/
def memmove {α : Type} (array : List α) (dst src n : Nat) : List α :=
  array.take dst ++ (array.drop src).take n ++ array.drop (dst + n)

/-- The second loop, which removes null components, and ".." components with the one before them. The array is one entry
longer than `numComponents`, and a missing entry ends the components. `none` is for a loop that is not over after `fuel`
rounds. -/
def removeComponents (numComponents : Nat) :
    Nat → List (Option Text) → Nat → Option (Except ResolveStatus (List (Option Text)))
  | 0, _, _ => none
  | fuel + 1, components, i =>
    match components.getD i none with
    | none => some (.ok components)
    | some w =>
      if w = [] then removeComponents numComponents fuel (memmove components i (i + 1) (numComponents - i)) i
      else if w = [chr '.', chr '.'] then
        if i < 1 then some (.error .objectPathSyntaxBad)
        else
          removeComponents numComponents fuel (memmove components (i - 1) (i + 1) (numComponents - (i + 1))) (i - 1)
      else removeComponents numComponents fuel components (i + 1)

/-- The components of the array up to the missing entry. -/
def entries (components : List (Option Text)) : List Text := (components.takeWhile Option.isSome).filterMap id

/-- `pvfs_reduce_name`. -/
def reduceName (fuel : Nat) (flags : ResolveFlags) (fname : Text) : Option (Except ResolveStatus Text) :=
  let components := splitComponents [] fname
  let errCount := errCount components
  if errCount ≠ 0 then
    let errCount := if flags.wildcard then errCount - 1 else errCount
    some (.error (if errCount = 1 then .objectNameInvalid else .objectPathNotFound))
  else
    (removeComponents components.length fuel (components.map some ++ [none]) 0).map fun
      | .error e => .error e
      | .ok array =>
        if entries array = [] then .ok [chr '\\'] else .ok ((entries array).flatMap fun w => chr '\\' :: w)

/-! ## pvfs_resolve_name -/

/-- The start of `pvfs_resolve_name`, up to where it looks at the file system. `none` is for a reduction that is not over
after `fuel` rounds. -/
def resolvePath (fuel : Nat) (flags : ResolveFlags) (cifsName : Text) : Option (Except ResolveStatus PvfsFilename) :=
  let flags : ResolveFlags := { flags with streams := flags.streams && pvfs.namedStreams }
  match unixPath pvfs flags cifsName with
  | .error .objectPathSyntaxBad =>
    -- it might contain .. components which need to be reduced
    (reduceName fuel flags cifsName).map fun
      | .error e => .error e
      | .ok cifsName => unixPath pvfs flags cifsName
  | status => some status

end Samba.Ntvfs
