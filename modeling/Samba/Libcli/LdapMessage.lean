/-
LDAP messages (libcli/ldap/ldap.c): ldap_encode and ldap_decode. Controls are left out: no message here has any. Of memory
allocation the limit for the buffer is kept; the arrays of a message that is decoded are no larger than those of the message
that was encoded.
-/
import Samba.Libcli.LdapFilter

namespace Samba.Libcli

open CString Ber Samba.Ldb
open Samba.Ndr (maxTallocSize)

/-! ## Messages -/

/-- `struct ldap_Result`. A string that may be `NULL` is an `Option`. -/
structure LdapResult where
  resultcode : Int32
  dn : Option Text
  errormessage : Option Text
  referral : Option Text
  deriving DecidableEq, Repr

/-- `enum ldap_auth_mechanism` with the credentials of the mechanism. -/
inductive LdapCreds
  | simple (password : Text)
  | sasl (mechanism : Text) (secblob : Option (List UInt8))
  deriving DecidableEq, Repr

/-- `struct ldap_BindRequest`. -/
structure LdapBindRequest where
  version : Int32
  dn : Option Text
  creds : LdapCreds
  deriving DecidableEq, Repr

/-- `struct ldap_SearchRequest`. -/
structure LdapSearchRequest where
  basedn : Text
  scope : Int32
  deref : Int32
  timelimit : UInt32
  sizelimit : UInt32
  attributesonly : Bool
  tree : ParseTree
  attributes : List Text

/-- `struct ldb_message_element`, whose values are blocks of bytes. -/
structure LdapAttrib where
  flags : UInt32
  name : Text
  values : List (List UInt8)
  deriving DecidableEq, Repr

/-- `struct ldap_mod`. -/
structure LdapMod where
  type : Int32
  attrib : LdapAttrib
  deriving DecidableEq, Repr

/-- `struct ldap_ModifyDNRequest`. -/
structure LdapModifyDNRequest where
  dn : Text
  newrdn : Text
  deleteolddn : Bool
  newsuperior : Option Text
  deriving DecidableEq, Repr

/-- `union ldap_Request`. -/
inductive LdapRequest
  | bindRequest (r : LdapBindRequest)
  | bindResponse (response : LdapResult) (secblob : Option (List UInt8))
  | unbindRequest
  | searchRequest (r : LdapSearchRequest)
  | searchResultEntry (dn : Text) (attributes : List LdapAttrib)
  | searchResultDone (r : LdapResult)
  | modifyRequest (dn : Text) (mods : List LdapMod)
  | modifyResponse (r : LdapResult)
  | addRequest (dn : Text) (attributes : List LdapAttrib)
  | addResponse (r : LdapResult)
  | delRequest (dn : Text)
  | delResponse (r : LdapResult)
  | modifyDNRequest (r : LdapModifyDNRequest)
  | modifyDNResponse (r : LdapResult)
  | compareRequest (dn attr : Text) (value : List UInt8)
  | compareResponse (r : LdapResult)
  | abandonRequest (messageid : UInt32)
  | searchResultReference (referral : Text)
  | extendedRequest (oid : Text) (value : Option (List UInt8))
  | extendedResponse (response : LdapResult) (oid : Option Text) (value : Option (List UInt8))

/-- `struct ldap_message`, without controls. -/
structure LdapMessage where
  messageid : Int32
  r : LdapRequest

/-- `enum ldap_request_tag`. -/
inductive LdapRequestTag
  | bindRequest | bindResponse | unbindRequest | searchRequest | searchResultEntry | searchResultDone | modifyRequest
  | modifyResponse | addRequest | addResponse | delRequest | delResponse | modifyDNRequest | modifyDNResponse
  | compareRequest | compareResponse | abandonRequest | searchResultReference | extendedRequest | extendedResponse
  deriving DecidableEq, Repr

namespace LdapRequestTag

/-- The number of a kind of message in its tag. -/
def number : LdapRequestTag → UInt8
  | bindRequest => 0
  | bindResponse => 1
  | unbindRequest => 2
  | searchRequest => 3
  | searchResultEntry => 4
  | searchResultDone => 5
  | modifyRequest => 6
  | modifyResponse => 7
  | addRequest => 8
  | addResponse => 9
  | delRequest => 10
  | delResponse => 11
  | modifyDNRequest => 12
  | modifyDNResponse => 13
  | compareRequest => 14
  | compareResponse => 15
  | abandonRequest => 16
  | searchResultReference => 19
  | extendedRequest => 23
  | extendedResponse => 24

/-- The tag of a message on the wire, `ASN1_APPLICATION` or `ASN1_APPLICATION_SIMPLE`. -/
def wire : LdapRequestTag → UInt8
  | unbindRequest => asn1ApplicationSimple unbindRequest.number
  | delRequest => asn1ApplicationSimple delRequest.number
  | abandonRequest => asn1ApplicationSimple abandonRequest.number
  | type => asn1Application type.number

/-- The cases of the `switch` in `ldap_decode`. -/
def all : List LdapRequestTag :=
  [bindRequest, bindResponse, unbindRequest, searchRequest, searchResultEntry, searchResultDone, searchResultReference,
    modifyRequest, modifyResponse, addRequest, addResponse, delRequest, delResponse, modifyDNRequest, modifyDNResponse,
    compareRequest, compareResponse, abandonRequest, extendedRequest, extendedResponse]

/-- The case for a tag on the wire. -/
def ofWire (tag : UInt8) : Option LdapRequestTag := all.find? (·.wire = tag)

theorem ofWire_wire (type : LdapRequestTag) : ofWire type.wire = some type := by
  cases type <;> decide

end LdapRequestTag

/-- The type of a message. -/
def LdapRequest.type : LdapRequest → LdapRequestTag
  | bindRequest _ => .bindRequest
  | bindResponse _ _ => .bindResponse
  | unbindRequest => .unbindRequest
  | searchRequest _ => .searchRequest
  | searchResultEntry _ _ => .searchResultEntry
  | searchResultDone _ => .searchResultDone
  | modifyRequest _ _ => .modifyRequest
  | modifyResponse _ => .modifyResponse
  | addRequest _ _ => .addRequest
  | addResponse _ => .addResponse
  | delRequest _ => .delRequest
  | delResponse _ => .delResponse
  | modifyDNRequest _ => .modifyDNRequest
  | modifyDNResponse _ => .modifyDNResponse
  | compareRequest _ _ _ => .compareRequest
  | compareResponse _ => .compareResponse
  | abandonRequest _ => .abandonRequest
  | searchResultReference _ => .searchResultReference
  | extendedRequest _ _ => .extendedRequest
  | extendedResponse _ _ _ => .extendedResponse

/-! ## ldap_encode -/

/-- Something that may be missing. -/
def writeOptional {α : Type} (f : α → Asn1Calls Unit) : Option α → Asn1Calls Unit
  | none => return
  | some a => f a

/-- `ldap_encode_response`. A result code is written as one byte. -/
def ldapEncodeResponse (result : LdapResult) : Asn1Calls Unit := do
  asn1WriteEnumerated result.resultcode.toUInt32.toUInt8
  asn1WriteOctetString (result.dn.getD [])
  asn1WriteOctetString (result.errormessage.getD [])
  writeOptional (fun referral => asn1Pushed (asn1Context 3) (asn1WriteOctetString referral)) result.referral

/-- The credentials of a bind request. -/
def ldapEncodeCreds : LdapCreds → Asn1Calls Unit
  -- context, primitive
  | .simple password => asn1Pushed (asn1ContextSimple 0) (asn1Call (asn1Write · password))
  -- context, constructed
  | .sasl mechanism secblob => asn1Pushed (asn1Context 3) do
    asn1WriteOctetString mechanism
    writeOptional asn1WriteOctetString secblob

/-- An attribute with its values, which is written in three places. -/
def ldapEncodeAttrib (attrib : LdapAttrib) : Asn1Calls Unit := asn1Pushed (asn1Sequence 0) do
  asn1WriteOctetString attrib.name
  asn1Pushed asn1Set (attrib.values.forM asn1WriteOctetString)

def ldapEncodeMod (mod : LdapMod) : Asn1Calls Unit := asn1Pushed (asn1Sequence 0) do
  asn1WriteEnumerated mod.type.toUInt32.toUInt8
  ldapEncodeAttrib mod.attrib

/-- What `ldap_encode` writes inside the tag of a message. -/
def ldapEncodeContent : LdapRequest → Asn1Calls Unit
  | .bindRequest r => do
    asn1WriteInteger r.version
    asn1WriteOctetString (r.dn.getD [])
    ldapEncodeCreds r.creds
  | .bindResponse response secblob => do
    ldapEncodeResponse response
    writeOptional (asn1WriteContextSimple 7) secblob
  | .unbindRequest => return
  | .searchRequest r => do
    asn1WriteOctetString r.basedn
    asn1WriteEnumerated r.scope.toUInt32.toUInt8
    asn1WriteEnumerated r.deref.toUInt32.toUInt8
    asn1WriteInteger r.sizelimit.toInt32
    asn1WriteInteger r.timelimit.toInt32
    asn1WriteBoolean r.attributesonly
    ldapPushFilter r.tree
    asn1Pushed (asn1Sequence 0) (r.attributes.forM asn1WriteOctetString)
  | .searchResultEntry dn attributes | .addRequest dn attributes => do
    asn1WriteOctetString dn
    asn1Pushed (asn1Sequence 0) (attributes.forM ldapEncodeAttrib)
  | .searchResultDone r | .modifyResponse r | .addResponse r | .delResponse r | .modifyDNResponse r | .compareResponse r =>
    ldapEncodeResponse r
  | .modifyRequest dn mods => do
    asn1WriteOctetString dn
    asn1Pushed (asn1Sequence 0) (mods.forM ldapEncodeMod)
  | .delRequest dn => asn1Call (asn1Write · dn)
  | .modifyDNRequest r => do
    asn1WriteOctetString r.dn
    asn1WriteOctetString r.newrdn
    asn1WriteBoolean r.deleteolddn
    writeOptional (fun newsuperior => asn1Pushed (asn1ContextSimple 0) (asn1Call (asn1Write · newsuperior))) r.newsuperior
  | .compareRequest dn attr value => do
    asn1WriteOctetString dn
    asn1Pushed (asn1Sequence 0) do
      asn1WriteOctetString attr
      asn1WriteOctetString value
  | .abandonRequest messageid => asn1WriteImplicitInteger messageid.toInt32
  | .searchResultReference referral => asn1WriteOctetString referral
  | .extendedRequest oid value => do
    asn1Pushed (asn1ContextSimple 0) (asn1Call (asn1Write · oid))
    writeOptional (fun value => asn1Pushed (asn1ContextSimple 1) (asn1Call (asn1Write · value))) value
  | .extendedResponse response oid value => do
    ldapEncodeResponse response
    writeOptional (fun oid => asn1Pushed (asn1ContextSimple 10) (asn1Call (asn1Write · oid))) oid
    writeOptional (fun value => asn1Pushed (asn1ContextSimple 11) (asn1Call (asn1Write · value))) value

/-- The `switch` of `ldap_encode`. Nothing is written for an unbind request, not even its tag. -/
def ldapEncodeRequest (r : LdapRequest) : Asn1Calls Unit :=
  if r.type = .unbindRequest then return else asn1Pushed r.type.wire (ldapEncodeContent r)

/-- `ldap_encode`. -/
def ldapEncode (msg : LdapMessage) : Option (List UInt8) :=
  let calls := asn1Pushed (asn1Sequence 0) do
    asn1WriteInteger msg.messageid
    ldapEncodeRequest msg.r
  (calls asn1Init).map fun (_, data) => data.data

/-! ## ldap_decode -/

/-- Something behind a tag that may be missing. -/
def readOptional {α : Type} (tag : UInt8) (r : Asn1Calls α) : Asn1Calls (Option α) := do
  if ← asn1PeekTag tag then return some (← r) else return none

/-- `ldap_decode_response`. -/
def ldapDecodeResponse : Asn1Calls LdapResult := do
  let resultcode ← asn1ReadEnumerated
  let dn ← asn1ReadOctetStringTalloc
  let errormessage ← asn1ReadOctetStringTalloc
  let referral ← readOptional (asn1Context 3) (asn1Started (asn1Context 3) asn1ReadOctetStringTalloc)
  return ⟨resultcode, some dn, some errormessage, referral⟩

/-- The rest of a tag as a string, for the strings that have no tag of their own. -/
def readString : Asn1Calls Text := do return cstr (← asn1ReadRemaining)

/-- The credentials of a bind request. -/
def ldapDecodeCreds : Asn1Calls LdapCreds := do
  if ← asn1PeekTag (asn1ContextSimple 0) then return .simple (← asn1Started (asn1ContextSimple 0) readString)
  else if ← asn1PeekTag (asn1Context 3) then
    asn1Started (asn1Context 3) do
      let mechanism ← asn1ReadOctetStringTalloc
      return .sasl mechanism (← readOptional asn1OctetString asn1ReadOctetString)
  -- neither Simple nor SASL bind
  else failure

/-- A loop that reads a list. -/
def readList {α : Type} (cond : Asn1Calls Bool) (r : Asn1Calls α) : Asn1Calls (List α) :=
  asn1While cond (fun as => do return as ++ [← r]) []

/-- `ldap_decode_attrib`. -/
def ldapDecodeAttrib : Asn1Calls LdapAttrib := asn1Started (asn1Sequence 0) do
  let name ← asn1ReadOctetStringTalloc
  let values ← asn1Started asn1Set (readList (asn1PeekTag asn1OctetString) asn1ReadOctetString)
  return ⟨0, name, values⟩

/-- `ldap_decode_attribs`. -/
def ldapDecodeAttribs : Asn1Calls (List LdapAttrib) :=
  asn1Started (asn1Sequence 0) (readList (asn1PeekTag (asn1Sequence 0)) ldapDecodeAttrib)

/-- `ldap_decode_mod`. -/
def ldapDecodeMod : Asn1Calls LdapMod := asn1Started (asn1Sequence 0) do
  let type ← asn1ReadEnumerated
  let attrib ← ldapDecodeAttrib
  return ⟨type, attrib⟩

/-- What `ldap_decode` reads inside the tag of a message. -/
def ldapDecodeContent : LdapRequestTag → Asn1Calls LdapRequest
  | .bindRequest => do
    let version ← asn1ReadInteger
    let dn ← asn1ReadOctetStringTalloc
    let creds ← ldapDecodeCreds
    return .bindRequest ⟨version, some dn, creds⟩
  | .bindResponse => do
    let response ← ldapDecodeResponse
    return .bindResponse response (← readOptional (asn1ContextSimple 7) (asn1ReadContextSimple 7))
  | .unbindRequest => return .unbindRequest
  | .searchRequest => do
    let basedn ← asn1ReadOctetStringTalloc
    let scope ← asn1ReadEnumerated
    let deref ← asn1ReadEnumerated
    let sizelimit ← asn1ReadInteger
    let timelimit ← asn1ReadInteger
    let attributesonly ← asn1ReadBoolean
    let tree ← ldapDecodeFilterTree
    let attributes ← asn1Started (asn1Sequence 0) (readList asn1MoreRemaining asn1ReadOctetStringTalloc)
    return .searchRequest ⟨basedn, scope, deref, timelimit.toUInt32, sizelimit.toUInt32, attributesonly, tree, attributes⟩
  | .searchResultEntry => do
    let dn ← asn1ReadOctetStringTalloc
    return .searchResultEntry dn (← ldapDecodeAttribs)
  | .searchResultDone => return .searchResultDone (← ldapDecodeResponse)
  | .modifyRequest => do
    let dn ← asn1ReadOctetStringTalloc
    return .modifyRequest dn (← asn1Started (asn1Sequence 0) (readList asn1MoreRemaining ldapDecodeMod))
  | .modifyResponse => return .modifyResponse (← ldapDecodeResponse)
  | .addRequest => do
    let dn ← asn1ReadOctetStringTalloc
    return .addRequest dn (← ldapDecodeAttribs)
  | .addResponse => return .addResponse (← ldapDecodeResponse)
  | .delRequest => return .delRequest (← readString)
  | .delResponse => return .delResponse (← ldapDecodeResponse)
  | .modifyDNRequest => do
    let dn ← asn1ReadOctetStringTalloc
    let newrdn ← asn1ReadOctetStringTalloc
    let deleteolddn ← asn1ReadBoolean
    if ← asn1MoreRemaining then
      return .modifyDNRequest ⟨dn, newrdn, deleteolddn, some (← asn1Started (asn1ContextSimple 0) readString)⟩
    else return .modifyDNRequest ⟨dn, newrdn, deleteolddn, none⟩
  | .modifyDNResponse => return .modifyDNResponse (← ldapDecodeResponse)
  | .compareRequest => do
    let dn ← asn1ReadOctetStringTalloc
    asn1Started (asn1Sequence 0) do
      let attr ← asn1ReadOctetStringTalloc
      return .compareRequest dn attr (← asn1ReadOctetString)
  | .compareResponse => return .compareResponse (← ldapDecodeResponse)
  | .abandonRequest => return .abandonRequest (← asn1ReadImplicitInteger).toUInt32
  | .searchResultReference => return .searchResultReference (← asn1ReadOctetStringTalloc)
  | .extendedRequest => do
    let oid ← asn1ReadContextSimple 0
    return .extendedRequest (cstr oid) (← readOptional (asn1ContextSimple 1) (asn1ReadContextSimple 1))
  | .extendedResponse => do
    let response ← ldapDecodeResponse
    -- behind both tags another one is read
    let oid ← readOptional (asn1ContextSimple 10) (asn1ReadContextSimple 1)
    let value ← readOptional (asn1ContextSimple 11) (asn1ReadContextSimple 1)
    return .extendedResponse response (oid.map cstr) value

/-- The `switch` of `ldap_decode`. -/
def ldapDecodeRequest : Asn1Calls LdapRequest := do
  match LdapRequestTag.ofWire (← asn1PeekUint8) with
  | none => failure
  | some type => asn1Started type.wire (ldapDecodeContent type)

/-- `ldap_decode`, of a message without controls. -/
def ldapDecodeMessage : Asn1Calls LdapMessage := asn1Started (asn1Sequence 0) do
  let messageid ← asn1ReadInteger
  let r ← ldapDecodeRequest
  if ← asn1PeekTag (asn1Context 0) then failure
  return ⟨messageid, r⟩

/-- `ldap_decode` of a block of bytes that `asn1_load` has loaded. -/
def ldapDecode (blob : List UInt8) : Option LdapMessage :=
  match asn1Load blob with
  | (false, _) => none
  | (true, data) =>
    match ldapDecodeMessage data with
    | none => none
    | some (msg, data) => if data.nesting = [] then some msg else none

/-- What is encoded is decoded to the same message. -/
def LdapMessage.RoundTrips (msg : LdapMessage) : Prop := ∃ blob, ldapEncode msg = some blob ∧ ldapDecode blob = some msg

end Samba.Libcli
