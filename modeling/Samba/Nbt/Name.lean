/-
NetBIOS names on the wire (libcli/nbt/nbtname.c): a dotted string is a sequence of labels, the end of which may be a
pointer to a place where the same labels were written before. The first label is the name, each byte as two letters.
-/
import Samba.Nbt.WreplName

namespace Samba.Nbt

open CString List Ndr
open Samba.Wrepl (NbtName)

/-! ## Reading -/

/-- `MAX_COMPONENTS`. -/
def maxComponents : Nat := 10

/-- `ndr_pull_component`, with the number of rounds that are left: the component, the offset and the furthest offset. A
pointer costs a round. -/
def ndrPullComponent (data : List UInt8) : Nat → Nat → Nat → Except NdrError (Option Text × Nat × Nat)
  -- too many pointers
  | 0, _, _ => .error .badNetworkName
  | rounds + 1, offset, maxOffset =>
    match data[offset]? with
    | none => .error .badNetworkName
    | some len =>
      if len = 0 then .ok (none, offset + 1, max maxOffset (offset + 1))
      else if len &&& 0xC0 = 0xC0 then
        -- its a label pointer
        match data[offset + 1]? with
        | none => .error .badNetworkName
        | some low =>
          let target := ((len &&& 0x3F).toNat <<< 8) ||| low.toNat
          ndrPullComponent data rounds target (max (max maxOffset (offset + 2)) target)
      -- its a reserved length field
      else if len &&& 0xC0 ≠ 0 then .error .badNetworkName
      else if offset + len.toNat + 2 > data.length then .error .badNetworkName
      else
        .ok (some (cstr ((data.drop (offset + 1)).take len.toNat)), offset + len.toNat + 1,
          max maxOffset (offset + len.toNat + 1))

/-- A component is put behind the name so far. -/
def appendComponent (name : Option Text) (component : Text) : Text :=
  match name with
  | none => component
  | some name => name ++ chr '.' :: component

/-- The loop of `ndr_pull_nbt_string`, with the number of components that are left. -/
def pullComponents (data : List UInt8) : Nat → Option Text → Nat → Nat → Except NdrError (Text × Nat)
  | 0, _, _, _ => .error .badNetworkName
  | n + 1, name, offset, maxOffset => do
    let (component, offset, maxOffset) ← ndrPullComponent data 5 offset maxOffset
    match component with
    | none => return (name.getD [], maxOffset)
    | some component => pullComponents data n (some (appendComponent name component)) offset maxOffset

/-- `ndr_pull_nbt_string`. -/
def ndrPullNbtString (ndr : NdrPull) : Except NdrError (Text × NdrPull) := do
  let (name, maxOffset) ← pullComponents ndr.data maxComponents none ndr.offset ndr.offset
  return (name, { ndr with offset := maxOffset })

/-! ## Writing -/

/-- The string up to its first dot. -/
def firstComponent (s : Text) : Text := s.takeWhile (· ≠ chr '.')

/-- The string behind its first dot. -/
def nextComponents (s : Text) : Text := (s.dropWhile (· ≠ chr '.')).drop 1

theorem length_nextComponents {s : Text} (h : s ≠ []) : (nextComponents s).length < s.length := by
  obtain ⟨c, s, rfl⟩ := exists_cons_of_ne_nil h
  have hle := (dropWhile_suffix (fun x : UInt8 => decide (x ≠ chr '.')) (l := s)).length_le
  rw [nextComponents, length_drop, dropWhile_cons]
  split
  · simp only [length_cons] at hle ⊢
    omega
  · simp only [length_cons]
    omega

/-- `ndr_push_nbt_string`. -/
def ndrPushNbtString (ndr : NdrPush) (s : Text) : Except NdrError NdrPush :=
  if h : s = [] then
    -- we need to terminate the string
    ndrPushBytes ndr [0]
  else match ndr.nbtStringList.find? fun tok => strcmp tok.1 s = 0 with
    -- see if we have pushed the remaing string allready
    | some (_, offset) =>
      if offset > 0x3FFF then .error .string
      else ndrPushBytes ndr [(0xC0 : UInt8) ||| UInt8.ofNat (offset >>> 8), UInt8.ofNat (offset &&& 0xFF)]
    | none =>
      let compname := firstComponent s
      if 0x3F ≤ compname.length then .error .string
      else do
        let ndr ← ndrPushBytes { ndr with nbtStringList := (s, ndr.data.length) :: ndr.nbtStringList }
          (UInt8.ofNat compname.length :: compname)
        have := length_nextComponents h
        ndrPushNbtString ndr (nextComponents s)
termination_by s.length

/-! ## The name itself -/

/-- The two letters of a byte. -/
def letterPair (c : UInt8) : List UInt8 := [chr 'A' + (c >>> 4), chr 'A' + (c &&& 0xF)]

/-- `compress_name`. -/
def compressName (name : Text) (type : UInt8) : Option Text :=
  if name.length > 15 then none
  else
    let padChar := if strcmp name [chr '*'] = 0 then 0 else chr ' '
    some (name.flatMap letterPair ++ (List.replicate (15 - name.length) padChar).flatMap letterPair ++ letterPair type)

/-- The letters that stand for the halves of a byte. -/
def isHalf (c : UInt8) : Bool := chr 'A' ≤ c && c ≤ chr 'P'

/-- The loop of `decompress_name`. -/
def decompressPairs : Text → Option (List UInt8)
  | [] => some []
  | [_] => none
  | c1 :: c2 :: rest =>
    if !(isHalf c1 && isHalf c2) then none
    else (decompressPairs rest).map fun name => (((c1 - chr 'A') <<< 4) ||| (c2 - chr 'A')) :: name

/-- `decompress_name`: the string that is left, and the type. -/
def decompressName (name : Text) : Option (Text × UInt8) :=
  (decompressPairs name).map fun bytes =>
    if bytes.length = 16 then (cstr (trimSpaces (bytes.take 15)), bytes.getD 15 0)
    else (cstr (trimSpaces bytes), 0x00)

/-- `ndr_pull_nbt_name`. The type is a signed character; its byte is kept. -/
def ndrPullNbtName (ndr : NdrPull) : Except NdrError (NbtName × NdrPull) := do
  let (s, ndr) ← ndrPullNbtString ndr
  let cname := firstComponent s
  let scope := if chr '.' ∈ s then some (nextComponents s) else none
  if cname.length > 32 then .error .badNetworkName
  else match decompressName cname with
    | none => .error .badNetworkName
    | some (name, type) => return (⟨name, scope, type⟩, ndr)

/-- The dotted string of a name. -/
def fullname (cname : Text) (scope : Option Text) : Text :=
  match scope with
  | none => cname
  | some scope => cname ++ chr '.' :: scope

/-- `ndr_push_nbt_name`. -/
def ndrPushNbtName (ndr : NdrPush) (r : NbtName) : Except NdrError NdrPush :=
  match compressName r.name r.type with
  | none => .error .string
  | some cname => ndrPushNbtString ndr (fullname cname r.scope)

/-! ## Letters and bytes -/

theorem letterPair_halves (c : UInt8) :
    isHalf (chr 'A' + (c >>> 4)) = true ∧ isHalf (chr 'A' + (c &&& 0xF)) = true ∧
      ((chr 'A' + (c >>> 4) - chr 'A') <<< 4) ||| (chr 'A' + (c &&& 0xF) - chr 'A') = c :=
  @forall_byte (fun c => isHalf (chr 'A' + (c >>> 4)) = true ∧ isHalf (chr 'A' + (c &&& 0xF)) = true ∧
      ((chr 'A' + (c >>> 4) - chr 'A') <<< 4) ||| (chr 'A' + (c &&& 0xF) - chr 'A') = c) (by decide +kernel) c

theorem decompressPairs_letters (bytes : List UInt8) : decompressPairs (bytes.flatMap letterPair) = some bytes := by
  induction bytes with
  | nil => rfl
  | cons c bytes ih =>
    obtain ⟨hhigh, hlow, hbyte⟩ := letterPair_halves c
    rw [flatMap_cons, letterPair, cons_append, cons_append, nil_append, decompressPairs,
      if_neg (by simp [hhigh, hlow]), ih, Option.map_some, hbyte]

/-- The bytes behind the letters. -/
def paddedBytes (name : Text) (type : UInt8) : List UInt8 :=
  name ++ List.replicate (15 - name.length) (if strcmp name [chr '*'] = 0 then 0 else chr ' ') ++ [type]

theorem compressName_eq {name : Text} (h : name.length ≤ 15) (type : UInt8) :
    compressName name type = some ((paddedBytes name type).flatMap letterPair) := by
  rw [compressName, if_neg (by omega), paddedBytes, flatMap_append, flatMap_append, flatMap_singleton]

theorem length_flatMap_letterPair (bytes : List UInt8) : (bytes.flatMap letterPair).length = 2 * bytes.length := by
  induction bytes with
  | nil => rfl
  | cons c bytes ih => rw [flatMap_cons, length_append, ih, letterPair, length_cons]; simp; omega

theorem length_paddedBytes {name : Text} (h : name.length ≤ 15) (type : UInt8) : (paddedBytes name type).length = 16 := by
  rw [paddedBytes, length_append, length_append, length_replicate, length_singleton]
  omega

/-- A compressed name is decompressed, less the spaces at its end. -/
theorem decompressName_compressed {name : Text} (hlen : name.length ≤ 15) (hnul : (0 : UInt8) ∉ name) (type : UInt8) :
    decompressName ((paddedBytes name type).flatMap letterPair) = some (trimSpaces name, type) := by
  have h16 := length_paddedBytes hlen type
  have htake : (paddedBytes name type).take 15 =
      name ++ List.replicate (15 - name.length) (if strcmp name [chr '*'] = 0 then 0 else chr ' ') :=
    take_left' (by simp; omega)
  have htype : (paddedBytes name type).getD 15 0 = type := by
    rw [paddedBytes, getD_append_right _ _ _ _ (by simp; omega)]
    simp [show 15 - (name.length + (15 - name.length)) = 0 by omega]
  rw [decompressName, decompressPairs_letters, Option.map_some, if_pos h16, htake, htype]
  congr 2
  by_cases hstar : strcmp name [chr '*'] = 0
  · -- "*" is padded with zeros
    obtain rfl := strcmp_eq_zero.mp hstar
    decide
  · rw [if_neg hstar]
    rw [trimSpaces_append_spaces]
    exact cstr_eq_self fun h0 => hnul ((List.rdropWhile_prefix _ _).subset h0)

end Samba.Nbt
