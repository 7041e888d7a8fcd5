/-
Which LDAP messages come back as they were (libcli/ldap/ldap.c): `ldap_encode` writes no tag for an unbind request and one byte
of a result code, and `ldap_decode` reads the tag of another field behind those of an extended response.
-/
import Samba.Libcli.LdapMessage

namespace Samba.Libcli

open Ber CString List Samba.Ldb
open Samba.Ndr (maxTallocSize)

/-! ## What is written -/

/-- The byte of an enumerated number. -/
def enumByte (v : Int32) : UInt8 := v.toUInt32.toUInt8

/-- The bytes of a result. -/
def LdapResult.bytes (r : LdapResult) : List UInt8 :=
  tagged asn1Enumerated [enumByte r.resultcode] ++ (tagged asn1OctetString (r.dn.getD []) ++
    (tagged asn1OctetString (r.errormessage.getD []) ++
      r.referral.elim [] fun referral => tagged (asn1Context 3) (tagged asn1OctetString referral)))

/-- The bytes of the credentials of a bind. -/
def LdapCreds.bytes : LdapCreds → List UInt8
  | simple password => tagged (asn1ContextSimple 0) password
  | sasl mechanism secblob =>
    tagged (asn1Context 3) (tagged asn1OctetString mechanism ++ secblob.elim [] (tagged asn1OctetString))

def LdapAttrib.bytes (attrib : LdapAttrib) : List UInt8 :=
  tagged (asn1Sequence 0) (tagged asn1OctetString attrib.name ++
    tagged asn1Set (attrib.values.flatMap (tagged asn1OctetString)))

def LdapMod.bytes (mod : LdapMod) : List UInt8 :=
  tagged (asn1Sequence 0) (tagged asn1Enumerated [enumByte mod.type] ++ mod.attrib.bytes)

/-- What is inside the tag of a message. -/
def LdapRequest.content : LdapRequest → List UInt8
  | bindRequest r => tagged asn1Integer (integerBytes r.version) ++ (tagged asn1OctetString (r.dn.getD []) ++ r.creds.bytes)
  | bindResponse response secblob => response.bytes ++ secblob.elim [] (tagged (asn1ContextSimple 7))
  | unbindRequest => []
  | searchRequest r =>
    tagged asn1OctetString r.basedn ++ (tagged asn1Enumerated [enumByte r.scope] ++ (tagged asn1Enumerated [enumByte r.deref] ++
      (tagged asn1Integer (integerBytes r.sizelimit.toInt32) ++ (tagged asn1Integer (integerBytes r.timelimit.toInt32) ++
        (tagged asn1Boolean [if r.attributesonly then 0xff else 0] ++ (filterBytes r.tree ++
          tagged (asn1Sequence 0) (r.attributes.flatMap (tagged asn1OctetString))))))))
  | searchResultEntry dn attributes | addRequest dn attributes =>
    tagged asn1OctetString dn ++ tagged (asn1Sequence 0) (attributes.flatMap LdapAttrib.bytes)
  | searchResultDone r | modifyResponse r | addResponse r | delResponse r | modifyDNResponse r | compareResponse r => r.bytes
  | modifyRequest dn mods => tagged asn1OctetString dn ++ tagged (asn1Sequence 0) (mods.flatMap LdapMod.bytes)
  | delRequest dn => dn
  | modifyDNRequest r =>
    tagged asn1OctetString r.dn ++ (tagged asn1OctetString r.newrdn ++
      (tagged asn1Boolean [if r.deleteolddn then 0xff else 0] ++ r.newsuperior.elim [] (tagged (asn1ContextSimple 0))))
  | compareRequest dn attr value =>
    tagged asn1OctetString dn ++ tagged (asn1Sequence 0) (tagged asn1OctetString attr ++ tagged asn1OctetString value)
  | abandonRequest messageid => integerBytes messageid.toInt32
  | searchResultReference referral => tagged asn1OctetString referral
  | extendedRequest oid value => tagged (asn1ContextSimple 0) oid ++ value.elim [] (tagged (asn1ContextSimple 1))
  | extendedResponse response oid value =>
    response.bytes ++ (oid.elim [] (tagged (asn1ContextSimple 10)) ++ value.elim [] (tagged (asn1ContextSimple 11)))

def LdapRequest.bytes (r : LdapRequest) : List UInt8 :=
  if r.type = .unbindRequest then [] else tagged r.type.wire r.content

/-- A message on the wire. -/
def LdapMessage.bytes (msg : LdapMessage) : List UInt8 :=
  tagged (asn1Sequence 0) (tagged asn1Integer (integerBytes msg.messageid) ++ msg.r.bytes)

variable {α : Type} {msg : LdapMessage}

theorem Writes.writeOptional {f : α → Asn1Calls Unit} {enc : α → List UInt8} (h : ∀ a, Writes (f a) (enc a))
    (o : Option α) : Writes (writeOptional f o) (o.elim [] enc) := by
  cases o with
  | none => exact .nil
  | some a => exact h a

theorem Writes.response (r : LdapResult) : Writes (ldapEncodeResponse r) r.bytes :=
  .seq (.enumerated _) (.seq (.octetString _) (.seq (.octetString _) (.writeOptional (fun _ => (Writes.octetString _).pushed _) _)))

theorem Writes.creds (c : LdapCreds) : Writes (ldapEncodeCreds c) c.bytes := by
  cases c with
  | simple password => exact (Writes.bytes _).pushed _
  | sasl mechanism secblob => exact (Writes.seq (.octetString _) (.writeOptional .octetString _)).pushed _

theorem Writes.attrib (a : LdapAttrib) : Writes (ldapEncodeAttrib a) a.bytes :=
  (Writes.seq (.octetString _) ((Writes.forM fun _ _ => .octetString _).pushed _)).pushed _

theorem Writes.mod (m : LdapMod) : Writes (ldapEncodeMod m) m.bytes := (Writes.seq (.enumerated _) (.attrib _)).pushed _

/-- Every message but a search request is written. -/
theorem Fills.content (r : LdapRequest) (h : r.type ≠ .searchRequest) : Fills (ldapEncodeContent r) r.content := by
  cases r with
  | bindRequest r => exact (Writes.seq (.integer _) (.seq (.octetString _) (.creds _))).fills
  | bindResponse response secblob => exact (Writes.seq (.response _) (.writeOptional (.contextSimple 7) _)).fills
  | unbindRequest => exact Writes.nil.fills
  | searchRequest r => exact absurd rfl h
  | searchResultEntry dn attributes | addRequest dn attributes =>
    exact (Writes.seq (.octetString _) ((Writes.forM fun a _ => .attrib a).pushed _)).fills
  | searchResultDone r | modifyResponse r | addResponse r | delResponse r | modifyDNResponse r | compareResponse r =>
    exact (Writes.response r).fills
  | modifyRequest dn mods => exact (Writes.seq (.octetString _) ((Writes.forM fun m _ => .mod m).pushed _)).fills
  | delRequest dn => exact (Writes.bytes dn).fills
  | modifyDNRequest r =>
    exact (Writes.seq (.octetString _) (.seq (.octetString _)
      (.seq (.boolean _) (.writeOptional (fun _ => (Writes.bytes _).pushed _) _)))).fills
  | compareRequest dn attr value =>
    exact (Writes.seq (.octetString _) ((Writes.seq (.octetString _) (.octetString _)).pushed _)).fills
  | abandonRequest messageid => exact .implicitInteger _
  | searchResultReference referral => exact (Writes.octetString _).fills
  | extendedRequest oid value =>
    exact (Writes.seq ((Writes.bytes _).pushed _) (.writeOptional (fun _ => (Writes.bytes _).pushed _) _)).fills
  | extendedResponse response oid value =>
    exact (Writes.seq (.response _) (.seq (.writeOptional (fun _ => (Writes.bytes _).pushed _) _)
      (.writeOptional (fun _ => (Writes.bytes _).pushed _) _))).fills

theorem Writes.request (r : LdapRequest) (h : r.type ≠ .searchRequest) : Writes (ldapEncodeRequest r) r.bytes := by
  unfold ldapEncodeRequest LdapRequest.bytes
  split
  · exact .nil
  · exact (Fills.content r h).pushed _

theorem ldapEncode_eq (msg : LdapMessage) (h : msg.r.type ≠ .searchRequest) :
    ldapEncode msg = if msg.bytes.length < maxTallocSize then some msg.bytes else none := by
  have hw := (Writes.seq (.integer msg.messageid) (.request msg.r h)).pushed (asn1Sequence 0)
  rw [ldapEncode]
  split
  · next hfits => rw [show asn1Init = written [] [] from rfl, hw.fits [] [] hfits]; rfl
  · next hfull => rw [show asn1Init = written [] [] from rfl, hw.full [] [] (by decide) (Nat.not_lt.1 hfull)]; rfl

/-! ## What is read -/

/-- A number whose byte is read. -/
def receivedEnum (v : Int32) : Int32 := readNumber [enumByte v]

/-- A result as it is read. -/
def LdapResult.received (r : LdapResult) : LdapResult :=
  ⟨receivedEnum r.resultcode, some (r.dn.getD []), some (r.errormessage.getD []), r.referral⟩

def LdapAttrib.received (attrib : LdapAttrib) : LdapAttrib := { attrib with flags := 0 }

def LdapMod.received (mod : LdapMod) : LdapMod := ⟨receivedEnum mod.type, mod.attrib.received⟩

/-- A message as it is read, if it is. -/
def LdapRequest.received : LdapRequest → Option LdapRequest
  | bindRequest r => some (bindRequest ⟨readNumber (integerBytes r.version), some (r.dn.getD []), r.creds⟩)
  | bindResponse response secblob => some (bindResponse response.received secblob)
  | unbindRequest => none
  | searchRequest _ => none
  | searchResultEntry dn attributes => some (searchResultEntry dn (attributes.map LdapAttrib.received))
  | searchResultDone r => some (searchResultDone r.received)
  | modifyRequest dn mods => some (modifyRequest dn (mods.map LdapMod.received))
  | modifyResponse r => some (modifyResponse r.received)
  | addRequest dn attributes => some (addRequest dn (attributes.map LdapAttrib.received))
  | addResponse r => some (addResponse r.received)
  | delRequest dn => some (delRequest dn)
  | delResponse r => some (delResponse r.received)
  | modifyDNRequest r => some (modifyDNRequest r)
  | modifyDNResponse r => some (modifyDNResponse r.received)
  | compareRequest dn attr value => some (compareRequest dn attr value)
  | compareResponse r => some (compareResponse r.received)
  | abandonRequest messageid => some (abandonRequest (readNumber (integerBytes messageid.toInt32)).toUInt32)
  | searchResultReference referral => some (searchResultReference referral)
  | extendedRequest oid value => some (extendedRequest oid value)
  | extendedResponse response none none => some (extendedResponse response.received none none)
  | extendedResponse _ _ _ => none

/-! ## Strings -/

def LdapResult.Strings (r : LdapResult) : Prop :=
  (∀ s ∈ r.dn, 0 ∉ s) ∧ (∀ s ∈ r.errormessage, 0 ∉ s) ∧ ∀ s ∈ r.referral, 0 ∉ s

def LdapCreds.Strings : LdapCreds → Prop
  | simple password => 0 ∉ password
  | sasl mechanism _ => 0 ∉ mechanism

/-- The strings of a message are strings: they end at their first NUL. -/
def LdapRequest.Strings : LdapRequest → Prop
  | bindRequest r => (∀ s ∈ r.dn, 0 ∉ s) ∧ r.creds.Strings
  | bindResponse response _ => response.Strings
  | unbindRequest => True
  | searchRequest r => 0 ∉ r.basedn ∧ ∀ s ∈ r.attributes, 0 ∉ s
  | searchResultEntry dn attributes | addRequest dn attributes => 0 ∉ dn ∧ ∀ a ∈ attributes, 0 ∉ a.name
  | searchResultDone r | modifyResponse r | addResponse r | delResponse r | modifyDNResponse r | compareResponse r => r.Strings
  | modifyRequest dn mods => 0 ∉ dn ∧ ∀ m ∈ mods, 0 ∉ m.attrib.name
  | delRequest dn => 0 ∉ dn
  | modifyDNRequest r => 0 ∉ r.dn ∧ 0 ∉ r.newrdn ∧ ∀ s ∈ r.newsuperior, 0 ∉ s
  | compareRequest dn attr _ => 0 ∉ dn ∧ 0 ∉ attr
  | abandonRequest _ => True
  | searchResultReference referral => 0 ∉ referral
  | extendedRequest oid _ => 0 ∉ oid
  | extendedResponse response oid _ => response.Strings ∧ ∀ s ∈ oid, 0 ∉ s

theorem notMem_getD {o : Option Text} (h : ∀ s ∈ o, 0 ∉ s) : 0 ∉ o.getD [] := by
  cases o with
  | none => exact not_mem_nil
  | some s => exact h s rfl

/-! ## Reading the parts -/

theorem Reads.text {s : Text} (h : 0 ∉ s) : Reads asn1ReadOctetStringTalloc (tagged asn1OctetString s) (some s) anyRest := by
  have := Reads.octetStringTalloc s
  rwa [cstr_eq_self h] at this

theorem Reads.string {s : Text} (h : 0 ∉ s) : ReadsAll readString s (some s) := by
  have := Reads.map (g := cstr) (Reads.readRemaining s)
  rwa [Option.map_some, cstr_eq_self h] at this

theorem Reads.enum (v : Int32) : Reads asn1ReadEnumerated (tagged asn1Enumerated [enumByte v]) (some (receivedEnum v)) anyRest :=
  Reads.enumerated _

/-- Something that may be missing is found if its tag is ahead. -/
theorem Reads.readOptional {α : Type} {r : Asn1Calls α} {tag : UInt8} {enc : α → List UInt8} {o : Option α}
    (h : ∀ a ∈ o, Reads r (enc a) (some a) anyRest) (hhead : ∀ a ∈ o, ∀ rest, (enc a ++ rest).head? = some tag) :
    Reads (readOptional tag r) (o.elim [] enc) (some o) (fun more => o = none → more.head? ≠ some tag) := by
  cases o with
  | none =>
    refine .look (Reads.peekTag tag false) (Reads.pure none).any fun more hmore => ?_
    exact (decide_eq_false (hmore rfl)).symm
  | some a =>
    refine .look (Reads.peekTag tag true) (Reads.map (g := some) (h a rfl)).any fun more _ => ?_
    exact (decide_eq_true (hhead a rfl more)).symm

theorem head_tagged (tag : UInt8) (content rest : List UInt8) : (tagged tag content ++ rest).head? = some tag := rfl

/-- A list of things that are read one after the other. -/
theorem Reads.readList {α : Type} {cond : Asn1Calls Bool} {r : Asn1Calls α} {enc : α → List UInt8} {received : α → α} {as : List α}
    (hne : ∀ a ∈ as, enc a ≠ []) (hmore : ∀ a ∈ as, ∀ rest, Reads cond [] (some true) (· = enc a ++ rest))
    (hend : Reads cond [] (some false) (· = [])) (h : ∀ a ∈ as, Reads r (enc a) (some (received a)) anyRest) :
    ReadsAll (readList cond r) (as.flatMap enc) (some (as.map received)) := by
  have hloop := @Reads.whileLoop _ (· = []) _ _ _ _ (fun as a => some (as ++ [received a])) _ hne hmore hend
    (fun a ha as => Reads.map (g := fun b => as ++ [b]) (h a ha)) []
  have hfold : ∀ done, as.foldlM (fun as a => some (as ++ [received a])) done = some (done ++ as.map received) := by
    clear hloop hne hmore h
    induction as with
    | nil => exact fun done => by rw [map_nil, append_nil]; rfl
    | cons a as ih =>
      intro done
      rw [foldlM_cons, map_cons]
      exact (ih _).trans (by rw [append_assoc, singleton_append])
  rw [hfold] at hloop
  exact hloop

theorem peekTag_nil (tag : UInt8) : Reads (asn1PeekTag tag) [] (some false) (· = []) :=
  (Reads.peekTag tag false).mono fun more h => by rw [h]; rfl

theorem peekTag_tagged (tag : UInt8) (content rest : List UInt8) :
    Reads (asn1PeekTag tag) [] (some true) (· = tagged tag content ++ rest) :=
  (Reads.peekTag tag true).mono fun more h => by rw [h]; exact (decide_eq_true (head_tagged ..)).symm

/-- A result is read, if no tag behind it is taken for the one of a referral. -/
theorem Reads.response {r : LdapResult} (h : r.Strings) :
    Reads ldapDecodeResponse r.bytes (some r.received) (fun more => r.referral = none → more.head? ≠ some (asn1Context 3)) := by
  have hreferral := @Reads.readOptional Text (asn1Started (asn1Context 3) asn1ReadOctetStringTalloc) (asn1Context 3)
    (fun referral => tagged (asn1Context 3) (tagged asn1OctetString referral)) r.referral
    (fun s hs => (Reads.text (h.2.2 s hs)).any.started _) (fun _ _ _ => rfl)
  exact .step (Reads.enum _) (.step (Reads.text (notMem_getD h.1)) (.step (Reads.text (notMem_getD h.2.1))
    (Reads.map (g := fun referral => LdapResult.mk (receivedEnum r.resultcode) (some (r.dn.getD []))
      (some (r.errormessage.getD [])) referral) hreferral) fun _ _ => trivial) fun _ _ => trivial) fun _ _ => trivial

theorem Reads.creds {c : LdapCreds} (h : c.Strings) : Reads ldapDecodeCreds c.bytes (some c) anyRest := by
  cases c with
  | simple password =>
    refine .look (Reads.peekTag (asn1ContextSimple 0) true) ?_ fun _ _ => rfl
    exact Reads.map (g := LdapCreds.simple) ((Reads.string h).started _)
  | sasl mechanism secblob =>
    refine .look (Reads.peekTag (asn1ContextSimple 0) false) ?_ fun _ _ => rfl
    refine .look (Reads.peekTag (asn1Context 3) true) ?_ fun _ _ => rfl
    have hsecblob := @Reads.readOptional _ asn1ReadOctetString asn1OctetString (tagged asn1OctetString) secblob
      (fun p _ => Reads.octetString p) (fun _ _ _ => rfl)
    refine Reads.started (.step (Reads.text h) ?_ fun _ _ => trivial) _
    exact (Reads.map (g := fun secblob => LdapCreds.sasl mechanism secblob) hsecblob).mono fun more hmore _ => by
      rw [hmore]
      exact nofun

theorem Reads.attrib {a : LdapAttrib} (h : 0 ∉ a.name) : Reads ldapDecodeAttrib a.bytes (some a.received) anyRest := by
  have hvalues := @Reads.readList _ (asn1PeekTag asn1OctetString) asn1ReadOctetString (tagged asn1OctetString) id a.values
    (fun _ _ => cons_ne_nil _ _) (fun p _ rest => peekTag_tagged _ p rest) (peekTag_nil _) fun p _ => Reads.octetString p
  rw [map_id] at hvalues
  refine Reads.started (.step (Reads.text h) ?_ fun _ _ => trivial) _
  exact (Reads.map (g := fun values => LdapAttrib.mk 0 a.name values) (hvalues.started _)).any

theorem Reads.attribs {as : List LdapAttrib} (h : ∀ a ∈ as, 0 ∉ a.name) :
    Reads ldapDecodeAttribs (tagged (asn1Sequence 0) (as.flatMap LdapAttrib.bytes)) (some (as.map LdapAttrib.received)) anyRest :=
  (Reads.readList (fun _ _ => cons_ne_nil _ _) (fun _ _ rest => peekTag_tagged _ _ rest) (peekTag_nil _) fun a ha =>
    Reads.attrib (h a ha)).started _

theorem Reads.mod {m : LdapMod} (h : 0 ∉ m.attrib.name) : Reads ldapDecodeMod m.bytes (some m.received) anyRest := by
  refine Reads.started (.step (Reads.enum _) ?_ fun _ _ => trivial) _
  exact (Reads.map (g := fun attrib => LdapMod.mk (receivedEnum m.type) attrib) (Reads.attrib h)).any

theorem moreRemaining_nil : Reads asn1MoreRemaining [] (some false) (· = []) :=
  (Reads.moreRemaining false).mono fun more h => by rw [h]; rfl

theorem moreRemaining_tagged (tag : UInt8) (content rest : List UInt8) :
    Reads asn1MoreRemaining [] (some true) (· = tagged tag content ++ rest) :=
  (Reads.moreRemaining true).mono fun more h => by rw [h]; rfl

theorem Reads.mods {ms : List LdapMod} (h : ∀ m ∈ ms, 0 ∉ m.attrib.name) :
    Reads (asn1Started (asn1Sequence 0) (Libcli.readList asn1MoreRemaining ldapDecodeMod))
      (tagged (asn1Sequence 0) (ms.flatMap LdapMod.bytes)) (some (ms.map LdapMod.received)) anyRest :=
  (Reads.readList (fun _ _ => cons_ne_nil _ _) (fun _ _ rest => moreRemaining_tagged _ _ rest) moreRemaining_nil fun m hm =>
    Reads.mod (h m hm)).started _

/-! ## Reading messages -/

theorem Reads.onlyResponse {r : LdapResult} (h : r.Strings) (build : LdapResult → LdapRequest) :
    ReadsAll (do return build (← ldapDecodeResponse)) r.bytes (some (build r.received)) :=
  (Reads.map (g := build) (Reads.response h)).mono fun more hmore _ => by
    rw [hmore]
    exact nofun

/-- Calls that fail, and the calls behind them. -/
theorem Reads.fails {β : Type} {r : Asn1Calls α} {f : α → Asn1Calls β} {as bs : List UInt8} {leaves : List UInt8 → Prop}
    (h : Reads r as none anyRest) : Reads (r >>= f) (as ++ bs) none leaves :=
  Reads.bind (g := fun _ => none) h (fun _ ha => nomatch ha) fun _ _ => trivial

/-- Behind the tag of one field the tag of another one is read. -/
theorem Reads.wrongOptional {tag num : UInt8} (h : tag ≠ asn1ContextSimple num) (p : List UInt8) :
    Reads (Libcli.readOptional tag (asn1ReadContextSimple num)) (tagged tag p) none anyRest := by
  refine .look (Reads.peekTag tag true) ?_ fun more _ => (decide_eq_true (head_tagged tag p more)).symm
  have hfails := Reads.map (g := some) (@Reads.started_ne _ asn1ReadRemaining (lengthOctets p.length ++ p) _ _ h)
  exact hfails

theorem Reads.extendedResponse {response : LdapResult} (h : response.Strings) (oid : Option Text) (value : Option (List UInt8)) :
    ReadsAll (ldapDecodeContent .extendedResponse) (LdapRequest.extendedResponse response oid value).content
      (LdapRequest.extendedResponse response oid value).received := by
  cases oid with
  | some oid =>
    refine .step (Reads.response h) (.fails (.wrongOptional (by decide) oid)) fun more _ _ => ?_
    exact fun h => absurd (Option.some.inj h) (by decide)
  | none =>
    have hoid : Reads (Libcli.readOptional (asn1ContextSimple 10) (asn1ReadContextSimple 1)) [] (some none)
        (fun more => more.head? ≠ some (asn1ContextSimple 10)) :=
      (@Reads.readOptional _ (asn1ReadContextSimple 1) (asn1ContextSimple 10) (fun p => p) none (fun _ h => nomatch h)
        (fun _ h => nomatch h)).mono fun _ h _ => h
    cases value with
    | some value =>
      refine .step (Reads.response h) (.step hoid ?_ fun more _ => ?_) fun more _ _ => ?_
      · exact (Reads.map (g := fun value => LdapRequest.extendedResponse response.received none value)
          (@Reads.wrongOptional (asn1ContextSimple 11) 1 (by decide) value)).any
      · exact fun h => absurd (Option.some.inj h) (by decide)
      · exact fun h => absurd (Option.some.inj h) (by decide)
    | none =>
      have hvalue : ReadsAll (Libcli.readOptional (asn1ContextSimple 11) (asn1ReadContextSimple 1)) [] (some none) :=
        (@Reads.readOptional _ (asn1ReadContextSimple 1) (asn1ContextSimple 11) (fun p => p) none (fun _ h => nomatch h)
          (fun _ h => nomatch h)).mono fun more h _ => by rw [h]; exact nofun
      refine .step (Reads.response h) (.step hoid (Reads.map (g := fun value =>
        LdapRequest.extendedResponse response.received none value) hvalue) fun more hmore => ?_) fun more hmore _ => ?_
      · rw [hmore]
        exact nofun
      · rw [hmore]
        exact nofun

/-- Every message but a search request and an unbind request is read up to what is lost. -/
theorem Reads.content {r : LdapRequest} (hsearch : r.type ≠ .searchRequest) (hunbind : r.type ≠ .unbindRequest) (h : r.Strings) :
    ReadsAll (ldapDecodeContent r.type) r.content r.received := by
  have hnil : ∀ {o : Option Text} {tag : UInt8} (more : List UInt8), more = [] → o = none → more.head? ≠ some tag := by
    rintro _ _ _ rfl _
    exact nofun
  have hblob : ∀ (num : UInt8) (blob : Option (List UInt8)),
      ReadsAll (Libcli.readOptional (asn1ContextSimple num) (asn1ReadContextSimple num))
        (blob.elim [] (tagged (asn1ContextSimple num))) (some blob) := fun num blob =>
    (@Reads.readOptional _ (asn1ReadContextSimple num) (asn1ContextSimple num) (tagged (asn1ContextSimple num)) blob
      (fun p _ => Reads.contextSimple num p) (fun _ _ _ => rfl)).mono fun more hmore _ => by rw [hmore]; exact nofun
  cases r with
  | bindRequest r =>
    refine .step (Reads.integer _) (.step (Reads.text (notMem_getD h.1)) ?_ fun _ _ => trivial) fun _ _ => trivial
    exact (Reads.map (g := fun creds => LdapRequest.bindRequest ⟨readNumber (integerBytes r.version), some (r.dn.getD []), creds⟩)
      (Reads.creds h.2)).any
  | bindResponse response secblob =>
    refine .step (Reads.response h) (Reads.map (g := fun secblob => LdapRequest.bindResponse response.received secblob)
      (hblob 7 secblob)) fun more hmore _ => ?_
    cases secblob with
    | none =>
      rw [hmore]
      exact nofun
    | some p => exact fun h => absurd (Option.some.inj h) (by decide)
  | unbindRequest => exact absurd rfl hunbind
  | searchRequest r => exact absurd rfl hsearch
  | searchResultEntry dn attributes =>
    exact .step (Reads.text h.1) (Reads.map (g := fun as => LdapRequest.searchResultEntry dn as) (Reads.attribs h.2)).any
      fun _ _ => trivial
  | addRequest dn attributes =>
    exact .step (Reads.text h.1) (Reads.map (g := fun as => LdapRequest.addRequest dn as) (Reads.attribs h.2)).any
      fun _ _ => trivial
  | modifyRequest dn mods =>
    exact .step (Reads.text h.1) (Reads.map (g := fun mods => LdapRequest.modifyRequest dn mods) (Reads.mods h.2)).any
      fun _ _ => trivial
  | searchResultDone r => exact .onlyResponse h .searchResultDone
  | modifyResponse r => exact .onlyResponse h .modifyResponse
  | addResponse r => exact .onlyResponse h .addResponse
  | delResponse r => exact .onlyResponse h .delResponse
  | modifyDNResponse r => exact .onlyResponse h .modifyDNResponse
  | compareResponse r => exact .onlyResponse h .compareResponse
  | delRequest dn => exact Reads.map (g := LdapRequest.delRequest) (Reads.string h)
  | modifyDNRequest r =>
    obtain ⟨dn, newrdn, deleteolddn, newsuperior⟩ := r
    refine .step (Reads.text h.1) (.step (Reads.text h.2.1) (.step (Reads.boolean _) ?_ fun _ _ => trivial) fun _ _ => trivial)
      fun _ _ => trivial
    have hbool : decide ((if deleteolddn then 0xff else 0 : UInt8) = 0xff) = deleteolddn := by cases deleteolddn <;> rfl
    dsimp only
    rw [hbool]
    cases newsuperior with
    | none => exact .look moreRemaining_nil (Reads.pure _).any fun _ h => h
    | some newsuperior =>
      refine .look (moreRemaining_tagged (asn1ContextSimple 0) newsuperior []) ?_ fun more hmore => by rw [hmore]; rfl
      exact (Reads.map (g := fun newsuperior => LdapRequest.modifyDNRequest ⟨dn, newrdn, deleteolddn, some newsuperior⟩)
        ((Reads.string (h.2.2 _ rfl)).started _)).any
  | compareRequest dn attr value =>
    refine .step (Reads.text h.1) ?_ fun _ _ => trivial
    exact (Reads.started (.step (Reads.text h.2)
      (Reads.map (g := fun value => LdapRequest.compareRequest dn attr value) (Reads.octetString value)).any fun _ _ => trivial) _).any
  | abandonRequest messageid => exact Reads.map (g := fun i => LdapRequest.abandonRequest (Int32.toUInt32 i)) (Reads.implicitInteger _)
  | searchResultReference referral => exact (Reads.map (g := LdapRequest.searchResultReference) (Reads.text h)).any
  | extendedRequest oid value =>
    have hvalue := Reads.map (g := fun value => LdapRequest.extendedRequest (cstr oid) value) (hblob 1 value)
    rw [Option.map_some, show cstr oid = oid from cstr_eq_self h] at hvalue
    refine .step (Reads.contextSimple 0 oid) ?_ fun _ _ => trivial
    rw [show cstr oid = oid from cstr_eq_self h]
    exact hvalue
  | extendedResponse response oid value => exact .extendedResponse h.1 oid value

theorem Reads.request {r : LdapRequest} (hsearch : r.type ≠ .searchRequest) (hunbind : r.type ≠ .unbindRequest) (h : r.Strings) :
    Reads ldapDecodeRequest r.bytes r.received anyRest := by
  rw [LdapRequest.bytes, if_neg hunbind]
  refine .look (Reads.peekUint8 r.type.wire) ?_ fun _ _ => rfl
  rw [LdapRequestTag.ofWire_wire]
  exact (Reads.content hsearch hunbind h).started _

theorem Reads.message (hsearch : msg.r.type ≠ .searchRequest) (hunbind : msg.r.type ≠ .unbindRequest)
    (h : msg.r.Strings) :
    ReadsAnywhere ldapDecodeMessage msg.bytes (msg.r.received.map (LdapMessage.mk (readNumber (integerBytes msg.messageid)))) := by
  refine .started (.step (Reads.integer _) ?_ fun _ _ => trivial) _
  have hend : ∀ r, msg.r.received = some r → ReadsAll (do
      if ← asn1PeekTag (asn1Context 0) then Alternative.failure
      return ⟨readNumber (integerBytes msg.messageid), r⟩) []
      ((some ∘ LdapMessage.mk (readNumber (integerBytes msg.messageid))) r) := fun r _ =>
    .look (peekTag_nil _) (Reads.pure _).any fun _ h => h
  have := Reads.bind (Reads.request hsearch hunbind h) hend fun _ _ => trivial
  rw [append_nil] at this
  rw [Option.map_eq_bind]
  exact this

theorem ldapDecode_of_calls {blob : List UInt8} (h : blob.length < maxTallocSize) : ldapDecode blob =
    match ldapDecodeMessage (reading [] blob []) with
    | none => none
    | some (msg, data) => if data.nesting = [] then some msg else none := by
  rw [ldapDecode, asn1Load, if_neg (Nat.not_le.2 h)]
  rfl

theorem asn1PeekUint8_end (done : List UInt8) (ns : List Nesting) : asn1PeekUint8 (reading done [] ns) = none := by
  have hpeek : asn1Peek (reading done [] ns) 1 = (none, reading done [] ns) := by
    rw [asn1Peek, if_neg (by decide), if_pos]
    · simp [reading]
    · simp [reading]
  rw [asn1PeekUint8, asn1Get, hpeek]

/-- Behind the number of an unbind request there is no tag. -/
theorem ldapDecode_unbind (h : msg.r.type = .unbindRequest) (hsize : msg.bytes.length < maxTallocSize) :
    ldapDecode msg.bytes = none := by
  have hbytes : msg.bytes = tagged (asn1Sequence 0) (tagged asn1Integer (integerBytes msg.messageid)) := by
    rw [LdapMessage.bytes, LdapRequest.bytes, if_pos h, append_nil]
  have hfits : msg.bytes.length < 2 ^ 31 := Nat.lt_trans hsize (by decide)
  have hnone : ldapDecodeMessage (reading [] msg.bytes []) = none := by
    have hlt := length_lt_tagged (asn1Sequence 0) (tagged asn1Integer (integerBytes msg.messageid))
    rw [← hbytes] at hlt
    have hstart := asn1StartTag_tagged (asn1Sequence 0) [] (tagged asn1Integer (integerBytes msg.messageid)) [] []
      (by rw [append_nil, ← hbytes]; exact hfits)
    have hread := (Reads.integer (integerBytes msg.messageid)).read
      ([] ++ asn1Sequence 0 :: lengthOctets (tagged asn1Integer (integerBytes msg.messageid)).length) [] []
      _ (tagged asn1Integer (integerBytes msg.messageid)).length [] trivial (by rw [append_nil])
      (by rw [append_nil, append_nil]; omega)
    rw [append_nil] at hstart hread
    rw [hbytes, ldapDecodeMessage, asn1Started, bind_some hstart]
    refine bind_none ?_
    rw [bind_some hread]
    exact bind_none (bind_none (asn1PeekUint8_end _ _))
  rw [ldapDecode_of_calls hsize, hnone]

theorem ldapDecode_eq (hsearch : msg.r.type ≠ .searchRequest) (h : msg.r.Strings)
    (hsize : msg.bytes.length < maxTallocSize) :
    ldapDecode msg.bytes = msg.r.received.map (LdapMessage.mk (readNumber (integerBytes msg.messageid))) := by
  by_cases hunbind : msg.r.type = .unbindRequest
  · rw [ldapDecode_unbind hunbind hsize]
    cases hr : msg.r with
    | unbindRequest => rfl
    | _ => rw [hr] at hunbind; cases hunbind
  · have hread := (Reads.message hsearch hunbind h).read [] [] [] (by unfold maxTallocSize at hsize; rw [append_nil]; omega)
    rw [append_nil] at hread
    rw [ldapDecode_of_calls hsize, hread]
    cases msg.r.received with
    | none => rfl
    | some r => rfl

/-! ## Messages that survive -/

/-- A number that its byte is enough for. -/
def FitsByte (v : Int32) : Prop := v.toUInt32.toNat < 256

/-- A number whose leading ones are not missed. -/
def FitsInteger (v : Int32) : Prop := v.toUInt32.toNat < 0xFF800000

instance (v : Int32) : Decidable (FitsByte v) := inferInstanceAs (Decidable (_ < _))

instance (v : Int32) : Decidable (FitsInteger v) := inferInstanceAs (Decidable (_ < _))

def LdapResult.Survives (r : LdapResult) : Prop := FitsByte r.resultcode ∧ r.dn ≠ none ∧ r.errormessage ≠ none

/-- Nothing of a message is lost. -/
def LdapRequest.Survives : LdapRequest → Prop
  | bindRequest r => FitsInteger r.version ∧ r.dn ≠ none
  | bindResponse response _ => response.Survives
  | unbindRequest => False
  | searchRequest _ => False
  | searchResultEntry _ attributes | addRequest _ attributes => ∀ a ∈ attributes, a.flags = 0
  | searchResultDone r | modifyResponse r | addResponse r | delResponse r | modifyDNResponse r | compareResponse r => r.Survives
  | modifyRequest _ mods => ∀ m ∈ mods, FitsByte m.type ∧ m.attrib.flags = 0
  | abandonRequest messageid => FitsInteger messageid.toInt32
  | extendedResponse response oid value => response.Survives ∧ oid = none ∧ value = none
  | delRequest _ | modifyDNRequest _ | compareRequest _ _ _ | searchResultReference _ | extendedRequest _ _ => True

theorem receivedEnum_eq_iff (v : Int32) : receivedEnum v = v ↔ FitsByte v := by
  have hval : (receivedEnum v).toUInt32.toNat = v.toUInt32.toNat % 256 := by
    rw [receivedEnum, readNumber_toNat, enumByte]
    simp [beNumber]
    omega
  have hiff : receivedEnum v = v ↔ (receivedEnum v).toUInt32.toNat = v.toUInt32.toNat := by
    rw [UInt32.toNat_inj]
    exact ⟨fun h => by rw [h], congrArg Int32.ofUInt32⟩
  rw [hiff, hval]
  unfold FitsByte
  omega

theorem LdapResult.received_eq_iff (r : LdapResult) : r.received = r ↔ r.Survives := by
  obtain ⟨resultcode, dn, errormessage, referral⟩ := r
  rw [LdapResult.received, LdapResult.mk.injEq, receivedEnum_eq_iff]
  have hsome : ∀ o : Option Text, some (o.getD []) = o ↔ o ≠ none := fun o => by cases o <;> simp
  simp only [hsome, and_true, Survives]

theorem LdapAttrib.received_eq_iff (a : LdapAttrib) : a.received = a ↔ a.flags = 0 := by
  obtain ⟨flags, name, values⟩ := a
  simp only [LdapAttrib.received, LdapAttrib.mk.injEq, and_true]
  exact eq_comm

theorem LdapMod.received_eq_iff (m : LdapMod) : m.received = m ↔ FitsByte m.type ∧ m.attrib.flags = 0 := by
  obtain ⟨type, attrib⟩ := m
  rw [LdapMod.received, LdapMod.mk.injEq, receivedEnum_eq_iff, LdapAttrib.received_eq_iff]

theorem map_eq_self_iff (f : α → α) (as : List α) : as.map f = as ↔ ∀ a ∈ as, f a = a := by
  induction as with
  | nil => simp
  | cons a as ih => rw [map_cons, List.cons.injEq, ih, forall_mem_cons]

theorem LdapRequest.received_eq_iff (r : LdapRequest) : r.received = some r ↔ r.Survives := by
  cases r with
  | bindRequest r =>
    obtain ⟨version, dn, creds⟩ := r
    simp only [received, Survives, Option.some.injEq, bindRequest.injEq, LdapBindRequest.mk.injEq, and_true]
    rw [readNumber_integerBytes]
    cases dn <;> simp [FitsInteger]
  | bindResponse response secblob =>
    simp only [received, Survives, Option.some.injEq, bindResponse.injEq, and_true, LdapResult.received_eq_iff]
  | unbindRequest => simp [received, Survives]
  | searchRequest r => simp [received, Survives]
  | searchResultEntry dn attributes | addRequest dn attributes =>
    simp only [received, Survives, Option.some.injEq, searchResultEntry.injEq, addRequest.injEq, true_and, map_eq_self_iff,
      LdapAttrib.received_eq_iff]
  | searchResultDone r | modifyResponse r | addResponse r | delResponse r | modifyDNResponse r | compareResponse r =>
    simp only [received, Survives, Option.some.injEq, searchResultDone.injEq, modifyResponse.injEq, addResponse.injEq,
      delResponse.injEq, modifyDNResponse.injEq, compareResponse.injEq, LdapResult.received_eq_iff]
  | modifyRequest dn mods =>
    simp only [received, Survives, Option.some.injEq, modifyRequest.injEq, true_and, map_eq_self_iff, LdapMod.received_eq_iff]
  | delRequest dn | modifyDNRequest r | compareRequest dn attr value | searchResultReference referral | extendedRequest oid value =>
    simp only [received, Survives]
  | abandonRequest messageid =>
    have hiff : (readNumber (integerBytes messageid.toInt32)).toUInt32 = messageid ↔
        readNumber (integerBytes messageid.toInt32) = messageid.toInt32 :=
      ⟨fun h => by rw [← Int32.toInt32_toUInt32 (readNumber _), h], fun h => by rw [h]; rfl⟩
    simp only [received, Survives, Option.some.injEq, abandonRequest.injEq, hiff, readNumber_integerBytes, FitsInteger]
  | extendedResponse response oid value =>
    cases oid with
    | some oid => simp [received, Survives]
    | none =>
      cases value with
      | some value => simp [received, Survives]
      | none => simp [received, Survives, LdapResult.received_eq_iff]

theorem not_roundTrips_of_received (hsearch : msg.r.type ≠ .searchRequest) (h : msg.r.Strings)
    (hnone : msg.r.received = none) : ¬ msg.RoundTrips := by
  rintro ⟨blob, hencode, hdecode⟩
  rw [ldapEncode_eq msg hsearch] at hencode
  by_cases hsize : msg.bytes.length < maxTallocSize
  · rw [if_pos hsize] at hencode
    obtain rfl := Option.some.inj hencode
    rw [ldapDecode_eq hsearch h hsize, hnone] at hdecode
    cases hdecode
  · rw [if_neg hsize] at hencode
    cases hencode

/-- A message but a search request comes back as it was if, and only if, it fits the buffer, its numbers fit what is written of
them, and it is neither an unbind request nor an extended response with more than its result. -/
theorem ldapMessage_roundTrips_iff {msg : LdapMessage} (hsearch : msg.r.type ≠ .searchRequest) (h : msg.r.Strings) :
    msg.RoundTrips ↔ FitsInteger msg.messageid ∧ msg.r.Survives ∧ msg.bytes.length < maxTallocSize := by
  unfold LdapMessage.RoundTrips
  rw [ldapEncode_eq msg hsearch]
  constructor
  · rintro ⟨blob, hencode, hdecode⟩
    by_cases hsize : msg.bytes.length < maxTallocSize
    · rw [if_pos hsize] at hencode
      obtain rfl := Option.some.inj hencode
      rw [ldapDecode_eq hsearch h hsize] at hdecode
      obtain ⟨r, hr, hmsg⟩ := Option.map_eq_some_iff.1 hdecode
      refine ⟨?_, ?_, hsize⟩
      · have := congrArg LdapMessage.messageid hmsg
        exact (readNumber_integerBytes _).1 this
      · have : r = msg.r := congrArg LdapMessage.r hmsg
        exact (LdapRequest.received_eq_iff _).1 (by rw [hr, this])
    · rw [if_neg hsize] at hencode
      cases hencode
  · rintro ⟨hid, hsurvives, hsize⟩
    refine ⟨msg.bytes, if_pos hsize, ?_⟩
    rw [ldapDecode_eq hsearch h hsize, (LdapRequest.received_eq_iff _).2 hsurvives, Option.map_some,
      (readNumber_integerBytes _).2 hid]

/-- A modification that adds two values and replaces an attribute by nothing. -/
def modifyMessage : LdapMessage :=
  ⟨7, .modifyRequest [0x61] [⟨0, ⟨0, [0x62], [[1, 2], []]⟩⟩, ⟨2, ⟨0, [0x63], []⟩⟩]⟩

theorem modifyMessage_roundTrips : modifyMessage.RoundTrips := by
  have hstrings : modifyMessage.r.Strings := ⟨by decide, by decide⟩
  have hsurvives : modifyMessage.r.Survives := show ∀ m ∈ _, _ by decide
  exact (ldapMessage_roundTrips_iff (by decide) hstrings).2 ⟨by decide, hsurvives, by decide +kernel⟩

/-- Neither an unbind request nor the name of an extended response comes back. -/
theorem extendedResponse_not_roundTrips :
    ¬ LdapMessage.RoundTrips ⟨1, .extendedResponse ⟨0, some [], some [], none⟩ (some [0x31]) none⟩ ∧
      ¬ LdapMessage.RoundTrips ⟨1, .unbindRequest⟩ := by
  refine ⟨not_roundTrips_of_received (by decide) ⟨⟨?_, ?_, nofun⟩, ?_⟩ rfl, not_roundTrips_of_received (by decide) trivial rfl⟩
  · rintro s ⟨⟩
    exact not_mem_nil
  · rintro s ⟨⟩
    exact not_mem_nil
  · rintro s ⟨⟩
    decide

end Samba.Libcli
