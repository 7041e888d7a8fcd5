/-
Security descriptors as SDDL text (libcli/security/sddl.c): codes for flags and SIDs, access control entries in brackets, and
the four parts of a descriptor. Memory allocation does not fail.
-/
import Samba.Security.Text

namespace Samba.Security

open CString

/-! ## Flags -/

/-- `struct flag_map`. -/
structure FlagMap where
  name : Text
  flag : BitVec 32
  deriving DecidableEq, Repr

/-- The loop of `sddl_map_flags`, with what is behind the letters. A round takes a character or more. -/
def sddlMapFlagsLoop (map : List FlagMap) : Nat → Text → BitVec 32 → Option (BitVec 32 × Text)
  | _, [], flags => some (flags, [])
  | 0, _ :: _, _ => none
  | n + 1, c :: str, flags =>
    if !isUpper c then some (flags, c :: str)
    else
      match map.find? fun m => m.name <+: c :: str with
      | none => none
      | some m => sddlMapFlagsLoop map n ((c :: str).drop m.name.length) (flags ||| m.flag)

/-- `sddl_map_flags`. -/
def sddlMapFlags (map : List FlagMap) (str : Text) : Option (BitVec 32 × Text) := sddlMapFlagsLoop map str.length str 0

/-- The second loop of `sddl_flags_to_string`, with the flags that are left. -/
def sddlFlagsByBits : List FlagMap → BitVec 32 → Text × BitVec 32
  | [], flags => ([], flags)
  | m :: map, flags =>
    if flags &&& m.flag ≠ 0 then
      let (s, flags) := sddlFlagsByBits map (flags &&& ~~~m.flag)
      (m.name ++ s, flags)
    else sddlFlagsByBits map flags

/-- `sddl_flags_to_string`. -/
def sddlFlagsToString (map : List FlagMap) (flags : BitVec 32) (checkAll : Bool) : Option Text :=
  match map.find? fun m => m.flag = flags with
  | some m => some m.name
  | none =>
    let (s, flags) := sddlFlagsByBits map flags
    if checkAll && flags ≠ 0 then none else some s

/-- `ace_types`. -/
def aceTypes : List FlagMap :=
  [⟨[chr 'A', chr 'U'], secAceTypeSystemAudit⟩, ⟨[chr 'A', chr 'L'], secAceTypeSystemAlarm⟩,
    ⟨[chr 'O', chr 'A'], secAceTypeAccessAllowedObject⟩, ⟨[chr 'O', chr 'D'], secAceTypeAccessDeniedObject⟩,
    ⟨[chr 'O', chr 'U'], secAceTypeSystemAuditObject⟩, ⟨[chr 'O', chr 'L'], secAceTypeSystemAlarmObject⟩,
    ⟨[chr 'A'], secAceTypeAccessAllowed⟩, ⟨[chr 'D'], secAceTypeAccessDenied⟩]

/-- `ace_flags`. -/
def aceFlags : List FlagMap :=
  [⟨[chr 'O', chr 'I'], 0x01⟩, ⟨[chr 'C', chr 'I'], 0x02⟩, ⟨[chr 'N', chr 'P'], 0x04⟩, ⟨[chr 'I', chr 'O'], 0x08⟩,
    ⟨[chr 'I', chr 'D'], 0x10⟩, ⟨[chr 'S', chr 'A'], 0x40⟩, ⟨[chr 'F', chr 'A'], 0x80⟩]

/-- `ace_access_mask`. -/
def aceAccessMask : List FlagMap :=
  [⟨[chr 'R', chr 'P'], 0x00000010⟩, ⟨[chr 'W', chr 'P'], 0x00000020⟩, ⟨[chr 'C', chr 'R'], 0x00000100⟩,
    ⟨[chr 'C', chr 'C'], 0x00000001⟩, ⟨[chr 'D', chr 'C'], 0x00000002⟩, ⟨[chr 'L', chr 'C'], 0x00000004⟩,
    ⟨[chr 'L', chr 'O'], 0x00000080⟩, ⟨[chr 'R', chr 'C'], 0x00020000⟩, ⟨[chr 'W', chr 'O'], 0x00080000⟩,
    ⟨[chr 'W', chr 'D'], 0x00040000⟩, ⟨[chr 'S', chr 'D'], 0x00010000⟩, ⟨[chr 'D', chr 'T'], 0x00000040⟩,
    ⟨[chr 'S', chr 'W'], 0x00000008⟩, ⟨[chr 'G', chr 'A'], 0x10000000⟩, ⟨[chr 'G', chr 'R'], 0x80000000⟩,
    ⟨[chr 'G', chr 'W'], 0x40000000⟩, ⟨[chr 'G', chr 'X'], 0x20000000⟩]

def aclFlags : List FlagMap :=
  [⟨[chr 'P'], 0x1000⟩, ⟨[chr 'A', chr 'R'], 0x0100⟩, ⟨[chr 'A', chr 'I'], 0x0400⟩]

/-! ## SIDs -/

/-- An entry of `sid_codes`: a SID, or a RID of the domain. -/
structure SidCode where
  code : Text
  sid : Option Text
  rid : UInt32
  deriving DecidableEq, Repr

/-- `sid_codes`: first those with a SID, then those with a RID of the domain. -/
def sidCodes : List SidCode :=
  [⟨[chr 'A', chr 'O'], some ("S-1-5-32-548".toList.map chr), 0⟩, ⟨[chr 'B', chr 'A'], some ("S-1-5-32-544".toList.map chr), 0⟩,
    ⟨[chr 'R', chr 'U'], some ("S-1-5-32-554".toList.map chr), 0⟩, ⟨[chr 'P', chr 'O'], some ("S-1-5-32-550".toList.map chr), 0⟩,
    ⟨[chr 'R', chr 'S'], some ("S-1-5-32-553".toList.map chr), 0⟩, ⟨[chr 'A', chr 'U'], some ("S-1-5-11".toList.map chr), 0⟩,
    ⟨[chr 'S', chr 'Y'], some ("S-1-5-18".toList.map chr), 0⟩, ⟨[chr 'P', chr 'S'], some ("S-1-5-10".toList.map chr), 0⟩,
    ⟨[chr 'W', chr 'D'], some ("S-1-1-0".toList.map chr), 0⟩, ⟨[chr 'E', chr 'D'], some ("S-1-5-9".toList.map chr), 0⟩,
    ⟨[chr 'C', chr 'O'], some ("S-1-3-0".toList.map chr), 0⟩, ⟨[chr 'C', chr 'G'], some ("S-1-3-1".toList.map chr), 0⟩,
    ⟨[chr 'D', chr 'A'], none, 512⟩, ⟨[chr 'E', chr 'A'], none, 519⟩, ⟨[chr 'D', chr 'D'], none, 516⟩,
    ⟨[chr 'D', chr 'U'], none, 513⟩, ⟨[chr 'C', chr 'A'], none, 517⟩]

/-- A character of the set that `strspn` is given. -/
def isSidChar (c : UInt8) : Bool := c = chr '-' || isDigit c

/-- `sddl_decode_sid`. -/
def sddlDecodeSid (domainSid : DomSid) (sddl : Text) : Option (DomSid × Text) :=
  if [chr 'S', chr '-'] <+: sddl then
    let len := ((sddl.drop 2).takeWhile isSidChar).length
    (domSidParse (sddl.take (len + 2))).map (·, sddl.drop (len + 2))
  else
    match sidCodes.find? fun e => e.code <+: sddl with
    | none => none
    | some e =>
      match e.sid with
      | none => some (domSidAddRid domainSid e.rid, sddl.drop 2)
      | some sid => (domSidParse sid).map (·, sddl.drop 2)

/-- `sub_auths[num_auths-1]`. Where there are no sub-authorities, this is the word that is stored in front of them. -/
def lastSubAuth (stray : DomSid → UInt32) (sid : DomSid) : UInt32 := sid.subAuths.getLast?.getD (stray sid)

/-- `sddl_encode_sid`. -/
def sddlEncodeSid (stray : DomSid → UInt32) (domainSid sid : DomSid) : Text :=
  let sidstr := domSidString sid
  match (sidCodes.takeWhile (·.sid.isSome)).find? fun e => e.sid = some sidstr with
  | some e => e.code
  | none =>
    let found :=
      if domSidInDomain domainSid sid then
        (sidCodes.dropWhile (·.sid.isSome)).find? fun e => lastSubAuth stray sid = e.rid
      else none
    match found with
    | some e => e.code
    | none => sidstr

/-! ## Access control entries -/

def secAceObjectTypePresent : BitVec 32 := 1
def secAceInheritedObjectTypePresent : BitVec 32 := 2

/-- A text in parts, each but the last one up to a `;`. -/
def sddlTokens : Nat → Text → Option (List Text)
  | 0, str => some [str]
  | n + 1, str =>
    match strchr str (chr ';') with
    | none => none
    | some i => (sddlTokens n (str.drop (i + 1))).map (str.take i :: ·)

/-- The access mask of `sddl_decode_ace`. -/
def sddlDecodeMask (tok : Text) : Option (BitVec 32) :=
  if [chr '0', chr 'x'] <+: tok then some (BitVec.ofInt 32 (strtol 16 tok).1)
  else (sddlMapFlags aceAccessMask tok).map Prod.fst

/-- A GUID of `sddl_decode_ace`, which may be left out. -/
def sddlDecodeGuid (tok : Text) : Option (Option Guid) := if tok = [] then some none else (guidFromString tok).map some

/-- The `object` of an entry, with the GUIDs that are there. -/
def aceObject (type inheritedType : Option Guid) : SecurityAceObject where
  flags := (if type.isSome then secAceObjectTypePresent else 0) |||
    (if inheritedType.isSome then secAceInheritedObjectTypePresent else 0)
  type := type.getD .zero
  inheritedType := inheritedType.getD .zero

/-- `sddl_decode_ace`. -/
def sddlDecodeAce (domainSid : DomSid) (str : Text) : Option SecurityAce :=
  match sddlTokens 5 str with
  | some [tok0, tok1, tok2, tok3, tok4, tok5] =>
    match sddlMapFlags aceTypes tok0, sddlMapFlags aceFlags tok1, sddlDecodeMask tok2, sddlDecodeGuid tok3,
      sddlDecodeGuid tok4, sddlDecodeSid domainSid tok5 with
    | some (type, _), some (flags, _), some accessMask, some object, some iobject, some (trustee, _) =>
      some ⟨type, flags.setWidth 8, accessMask, aceObject object iobject, trustee⟩
    | _, _, _, _, _, _ => none
  | _ => none

/-- The types that `sddl_encode_ace` prints GUIDs for. The source names the last of them twice. -/
def printsGuids (type : BitVec 32) : Bool :=
  type = secAceTypeAccessAllowedObject || type = secAceTypeAccessDeniedObject || type = secAceTypeSystemAuditObject ||
    type = secAceTypeSystemAuditObject

/-- `sddl_encode_ace`. -/
def sddlEncodeAce (stray : DomSid → UInt32) (domainSid : DomSid) (ace : SecurityAce) : Option Text :=
  match sddlFlagsToString aceTypes ace.type true, sddlFlagsToString aceFlags (ace.flags.setWidth 32) true with
  | some sType, some sFlags =>
    let sMask := (sddlFlagsToString aceAccessMask ace.accessMask true).getD
      (chr '0' :: chr 'x' :: hexField 8 ace.accessMask.toNat)
    let sObject := if printsGuids ace.type ∧ ace.object.flags &&& secAceObjectTypePresent ≠ 0 then
      guidString ace.object.type else []
    let sIobject := if printsGuids ace.type ∧ ace.object.flags &&& secAceInheritedObjectTypePresent ≠ 0 then
      guidString ace.object.inheritedType else []
    some (sType ++ chr ';' :: (sFlags ++ chr ';' :: (sMask ++ chr ';' :: (sObject ++ chr ';' :: (sIobject ++
      chr ';' :: sddlEncodeSid stray domainSid ace.trustee)))))
  | _, _ => none

/-! ## Access control lists -/

def securityAclRevisionNt4 : Nat := 2
def securityAclRevisionAds : Nat := 4

/-- The types that make a list one of revision `SECURITY_ACL_REVISION_ADS`. -/
def isObjectType (type : BitVec 32) : Bool :=
  type = secAceTypeAccessAllowedObject || type = secAceTypeAccessDeniedObject || type = secAceTypeSystemAuditObject ||
    type = secAceTypeSystemAlarmObject

/-- The list of some entries. -/
def aclOf (aces : List SecurityAce) : SecurityAcl :=
  ⟨if aces.any fun ace => isObjectType ace.type then securityAclRevisionAds else securityAclRevisionNt4, aces⟩

/-- The loop of `sddl_decode_acl`, with what is behind the entries. A round takes two characters or more. -/
def sddlDecodeAces (domainSid : DomSid) : Nat → Text → Option (List SecurityAce × Text)
  | _, [] => some ([], [])
  | 0, _ :: _ => none
  | n + 1, c :: sddl =>
    if c ≠ chr '(' then some ([], c :: sddl)
    else
      let astr := sddl.takeWhile (· ≠ chr ')')
      match sddl.drop astr.length with
      | [] => none
      | _ :: rest =>
        match sddlDecodeAce domainSid astr with
        | none => none
        | some ace => (sddlDecodeAces domainSid n rest).map fun (aces, rest) => (ace :: aces, rest)

/-- The start of the next part of a descriptor, in front of which a list is empty. -/
def startsPart : Text → Bool
  | c :: c' :: _ => isUpper c && c' = chr ':'
  | _ => false

/-- `sddl_decode_acl`, with the flags of the list. -/
def sddlDecodeAcl (domainSid : DomSid) (sddl : Text) : Option (SecurityAcl × BitVec 32 × Text) :=
  if startsPart sddl then some (aclOf [], 0, sddl)
  else
    match sddlMapFlags aclFlags sddl with
    | none => none
    | some (flags, sddl) =>
      (sddlDecodeAces domainSid sddl.length sddl).map fun (aces, rest) => (aclOf aces, flags, rest)

/-- The loop of `sddl_encode_acl`. -/
def sddlEncodeAces (stray : DomSid → UInt32) (domainSid : DomSid) : List SecurityAce → Option Text
  | [] => some []
  | ace :: aces =>
    match sddlEncodeAce stray domainSid ace, sddlEncodeAces stray domainSid aces with
    | some s, some rest => some (chr '(' :: (s ++ chr ')' :: rest))
    | _, _ => none

/-- `sddl_encode_acl`. -/
def sddlEncodeAcl (stray : DomSid → UInt32) (domainSid : DomSid) (acl : SecurityAcl) (flags : BitVec 32) : Option Text :=
  match sddlFlagsToString aclFlags flags false, sddlEncodeAces stray domainSid acl.aces with
  | some s, some rest => some (s ++ rest)
  | _, _ => none

/-! ## Descriptors -/

def secDescSaclPresent : BitVec 16 := 0x0010
def secDescSelfRelative : BitVec 16 := 0x8000

/-- The loop of `sddl_decode`. A round takes two characters or more. -/
def sddlDecodeParts (domainSid : DomSid) : Nat → Text → SecurityDescriptor → Option SecurityDescriptor
  | _, [], sd => some sd
  | 0, _ :: _, _ => none
  | n + 1, c :: sddl, sd =>
    match sddl with
    | [] => none
    | c' :: sddl =>
      if c' ≠ chr ':' then none
      else if c = chr 'D' then
        if sd.dacl.isSome then none
        else
          match sddlDecodeAcl domainSid sddl with
          | none => none
          | some (acl, flags, sddl) =>
            sddlDecodeParts domainSid n sddl
              { sd with dacl := some acl, type := sd.type ||| (flags.setWidth 16 ||| secDescDaclPresent) }
      else if c = chr 'S' then
        if sd.sacl.isSome then none
        else
          match sddlDecodeAcl domainSid sddl with
          | none => none
          | some (acl, flags, sddl) =>
            sddlDecodeParts domainSid n sddl
              { sd with sacl := some acl, type := sd.type ||| ((flags <<< 1).setWidth 16 ||| secDescSaclPresent) }
      else if c = chr 'O' then
        if sd.ownerSid.isSome then none
        else
          match sddlDecodeSid domainSid sddl with
          | none => none
          | some (sid, sddl) => sddlDecodeParts domainSid n sddl { sd with ownerSid := some sid }
      else if c = chr 'G' then
        if sd.groupSid.isSome then none
        else
          match sddlDecodeSid domainSid sddl with
          | none => none
          | some (sid, sddl) => sddlDecodeParts domainSid n sddl { sd with groupSid := some sid }
      -- the switch has no default: a part that is not known is left out
      else sddlDecodeParts domainSid n sddl sd

/-- `sddl_decode`. -/
def sddlDecode (domainSid : DomSid) (sddl : Text) : Option SecurityDescriptor :=
  sddlDecodeParts domainSid sddl.length sddl ⟨1, secDescSelfRelative, none, none, none, none⟩

/-- A part of `sddl_encode`: the letter and the text, or nothing for what is not there. -/
def sddlPart (letter : UInt8) (text : Option (Option Text)) : Option Text :=
  match text with
  | none => some []
  | some none => none
  | some (some s) => some (letter :: chr ':' :: s)

/-- `sddl_encode`. -/
def sddlEncode (stray : DomSid → UInt32) (domainSid : DomSid) (sd : SecurityDescriptor) : Option Text :=
  let owner := sddlPart (chr 'O') (sd.ownerSid.map fun sid => some (sddlEncodeSid stray domainSid sid))
  let group := sddlPart (chr 'G') (sd.groupSid.map fun sid => some (sddlEncodeSid stray domainSid sid))
  let dacl := sddlPart (chr 'D') <|
    if sd.type &&& secDescDaclPresent ≠ 0 then sd.dacl.map fun acl => sddlEncodeAcl stray domainSid acl (sd.type.setWidth 32)
    else none
  let sacl := sddlPart (chr 'S') <|
    if sd.type &&& secDescSaclPresent ≠ 0 then
      sd.sacl.map fun acl => sddlEncodeAcl stray domainSid acl ((sd.type >>> 1).setWidth 32)
    else none
  match owner, group, dacl, sacl with
  | some owner, some group, some dacl, some sacl => some (owner ++ (group ++ (dacl ++ sacl)))
  | _, _, _, _ => none

end Samba.Security
