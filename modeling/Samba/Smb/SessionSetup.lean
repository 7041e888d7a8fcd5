/-
The signing key of a server connection with mandatory signing (smb_server/smb/sesssetup.c,
receive.c): requests are checked as they arrive, session setups wait for their authentication, and
whichever finishes first with an authenticated user starts signing. Once it has, the key is safe as
long as `doing_signing` is set. Starting does not set it: it waits for a packet with a good MAC, and
the session setup that starts signing is not signed by most clients. A second session setup that
was waiting already replaces the key.
-/
import Samba.Lib.Transition
import Samba.Smb.Signing

namespace Samba.Smb

open Transition

variable (md5 : List UInt8 → Digest)

/-! ## Session setups -/

/-- A session setup that waits for its authentication: of NT1 style, with its `password2`, or
SPNEGO. -/
inductive SesssetupKind
  | nt1 (password2 : List UInt8)
  | spnego
  deriving DecidableEq, Repr

/-- How the authentication of a session setup ends. An NT1 one always has a session key, a SPNEGO
one may have none. -/
inductive AuthOutcome
  | failed
  | moreProcessing
  | loggedOn (authenticated : Bool) (sessionKey : Option (List UInt8))
  deriving DecidableEq, Repr

/-- The part of the two handlers that starts signing. -/
def startSigning (signing : SigningContext) (request : Packet) (sessionKey response : List UInt8) :
    SigningContext :=
  match smbsrvSetupSigning signing sessionKey response with
  | (false, signing) => signing  -- already signing, or disabled
  | (true, signing) =>
    -- force check of the request packet, now we know the session key
    smbsrvSigningRestart (smbsrvSigningCheckIncoming md5 signing request.buf).signing sessionKey response

/-- `sesssetup_nt1_send`, as far as it changes the signing context. -/
def sesssetupNt1Send (signing : SigningContext) (request : Packet) (password2 : List UInt8) :
    AuthOutcome → SigningContext
  | .failed | .moreProcessing => signing
  | .loggedOn authenticated sessionKey =>
    -- don't try signing as anonymous
    if !authenticated then signing
    else startSigning md5 signing request (sessionKey.getD []) password2

/-- `sesssetup_spnego_send`. -/
def sesssetupSpnegoSend (signing : SigningContext) (request : Packet) : AuthOutcome → SigningContext
  | .failed | .moreProcessing => signing
  | .loggedOn authenticated sessionKey =>
    match sessionKey with
    | some sessionKey => if authenticated then startSigning md5 signing request sessionKey [] else signing
    | none => signing

/-- The session setup, with the packet it came in. -/
structure Sesssetup where
  request : Packet
  kind : SesssetupKind

/-- What the end of its authentication does to the signing context. -/
def Sesssetup.done (setup : Sesssetup) (signing : SigningContext) (outcome : AuthOutcome) : SigningContext :=
  match setup.kind with
  | .nt1 password2 => sesssetupNt1Send md5 signing setup.request password2 outcome
  | .spnego => sesssetupSpnegoSend md5 signing setup.request outcome

/-- The session key the handler has at hand. -/
def Sesssetup.sessionKey (setup : Sesssetup) (key : Option (List UInt8)) : Option (List UInt8) :=
  match setup.kind with
  | .nt1 password2 => some (key.getD [] ++ password2)
  | .spnego => key

/-! ## The connection -/

/-- A connection: its signing context and the session setups that wait. `fixed` is history: the
`mac_key` when the first session setup of an authenticated user completed. -/
structure Connection where
  signing : SigningContext
  waiting : List Sesssetup
  fixed : Option (List UInt8)

/-- What a request asks for. `noReply` is its `SIGNING_NO_REPLY` flag. -/
inductive Command
  | sesssetup (kind : SesssetupKind)
  | other (noReply : Bool)
  deriving DecidableEq, Repr

/-- `switch_message`. -/
def switchMessage (conn : Connection) (request : Packet) : Command → Connection
  | .sesssetup kind => { conn with waiting := conn.waiting ++ [⟨request, kind⟩] }
  | .other noReply => if noReply then { conn with signing := smbsrvSigningNoReply conn.signing } else conn

/-- What happens to a connection. -/
inductive Event
  /-- A packet arrives. -/
  | receive (request : Packet) (command : Command)
  /-- The next command of a chained packet that was accepted. -/
  | chain (request : Packet) (command : Command)
  /-- The authentication of the waiting session setup at this position ends. -/
  | done (i : Nat) (outcome : AuthOutcome)

/-- What an event does to the connection. -/
def Connection.next (conn : Connection) : Event → Connection
  | .receive request command =>
    let checked := smbsrvSigningCheckIncoming md5 conn.signing request.buf
    let conn := { conn with signing := checked.signing }
    if checked.accepted then switchMessage conn request command else conn
  | .chain request command => switchMessage conn request command
  | .done i outcome =>
    match conn.waiting[i]? with
    | none => conn
    | some setup =>
      let signing := setup.done md5 conn.signing outcome
      { signing := signing
        waiting := conn.waiting.eraseIdx i
        fixed := match outcome with
          | .loggedOn true _ => some (conn.fixed.getD signing.macKey)
          | _ => conn.fixed }

/-- A connection of a server that requires signing. -/
def connectionSystem (domainLogons : Bool) : System Connection Event :=
  .ofFn ⟨smbsrvInitSigning .required domainLogons, [], none⟩ (Connection.next md5)

/-! ## Signing, once started -/

/-- Before signing was started. -/
structure Unstarted (signing : SigningContext) : Prop where
  state : signing.signingState = .off
  allowed : signing.allowSmbSigning = true
  mandatory : signing.mandatorySigning = true
  doing : signing.doingSigning = false
  seen : signing.seenValid = false

/-- Signing was started with this key and cannot be turned off. -/
structure Started (signing : SigningContext) (key : List UInt8) : Prop where
  state : signing.signingState = .on
  key : signing.macKey = key
  allowed : signing.allowSmbSigning = true
  seen : signing.seenValid = true

variable {signing : SigningContext}

theorem checkIncoming_unstarted (h : Unstarted signing) (inb : List UInt8) :
    smbsrvSigningCheckIncoming md5 signing inb = ⟨true, signing.nextSeqNum, signing⟩ := by
  unfold smbsrvSigningCheckIncoming
  simp only [h.state, ne_eq, not_true_eq_false, if_false]

/-- Once started, a packet is accepted only with a good MAC, and none turns signing off. -/
theorem checkIncoming_started {key : List UInt8} (h : Started signing key) (inb : List UInt8) :
    Started (smbsrvSigningCheckIncoming md5 signing inb).signing key ∧
      ((smbsrvSigningCheckIncoming md5 signing inb).accepted = true →
        checkSignedIncomingMessage md5 inb key signing.nextSeqNum = true) := by
  unfold smbsrvSigningCheckIncoming
  simp only [h.state, h.key, ne_eq, reduceCtorEq, not_false_eq_true, if_true]
  split
  · exact ⟨⟨rfl, rfl, h.allowed, h.seen⟩, fun hc => nomatch hc⟩
  · unfold signingGood
    cases hcheck : checkSignedIncomingMessage md5 inb key signing.nextSeqNum with
    | true => exact ⟨⟨rfl, rfl, h.allowed, rfl⟩, fun _ => rfl⟩
    | false =>
      simp only [Bool.false_eq_true, if_false, h.seen, Bool.not_true]
      exact ⟨⟨rfl, rfl, h.allowed, rfl⟩, fun hc => nomatch hc⟩

theorem noReply_started {key : List UInt8} (h : Started signing key) :
    Started (smbsrvSigningNoReply signing) key := by
  unfold smbsrvSigningNoReply
  rw [if_pos (by rw [h.state]; decide)]
  exact ⟨h.state, h.key, h.allowed, h.seen⟩

/-- The first start leaves signing on, whether or not the session setup itself was signed. -/
theorem startSigning_unstarted (h : Unstarted signing) (request : Packet) (sessionKey response : List UInt8) :
    Started (startSigning md5 signing request sessionKey response) (sessionKey ++ response) := by
  have hsetup : ∀ s : SigningContext, s.doingSigning = false → s.allowSmbSigning = true →
      smbsrvSetupSigning s sessionKey response = (true, smbcliSimpleSetSigning s sessionKey response) := by
    intro s hd ha
    simp only [smbsrvSetupSigning, setSmbSigningCommon, hd, ha, Bool.false_eq_true, if_false, if_true]
  have hlong : ¬(nbtHdrSize + request.buf.length < hdrSsField + 8) := by
    have := request.long
    unfold nbtHdrSize hdrSsField minSmbSize at *
    omega
  unfold startSigning
  rw [hsetup signing h.doing h.allowed]
  simp only [smbsrvSigningCheckIncoming, smbcliSimpleSetSigning, ne_eq, reduceCtorEq, not_false_eq_true,
    if_true, if_neg hlong, signingGood]
  cases checkSignedIncomingMessage md5 request.buf (sessionKey ++ response) 0 with
  | true =>
    simp only [if_true, smbsrvSigningRestart, Bool.not_true, Bool.false_eq_true, if_false]
    exact ⟨rfl, rfl, h.allowed, rfl⟩
  | false =>
    -- turned off by the failed check, and started again
    simp only [Bool.false_eq_true, if_false, h.seen, Bool.not_false, if_true, smbsrvSigningRestart,
      smbcliSetSigningOff]
    rw [hsetup ⟨.off, [], 0, signing.allowSmbSigning, false, signing.mandatorySigning, false⟩ rfl h.allowed]
    simp only [smbcliSimpleSetSigning, h.mandatory, if_true]
    exact ⟨rfl, rfl, h.allowed, rfl⟩

/-- A later start does nothing where `doing_signing` is set. -/
theorem startSigning_doing (h : signing.doingSigning = true) (request : Packet) (sessionKey response : List UInt8) :
    startSigning md5 signing request sessionKey response = signing := by
  simp only [startSigning, smbsrvSetupSigning, setSmbSigningCommon, h, if_true, Bool.false_eq_true, if_false]

/-! ## Runs -/

/-- A step at which an authenticated session setup does not get at a key that is fixed: signing has
not been started, and the setup brings a session key; or a packet with a good MAC was seen since; or
the setup has no session key. -/
def Event.KeepsKey (conn : Connection) : Event → Prop
  | .done i (.loggedOn true sessionKey) => ∀ setup, conn.waiting[i]? = some setup →
      if conn.signing.signingState = .off then (setup.sessionKey sessionKey).isSome
      else conn.signing.doingSigning = true ∨ (setup.sessionKey sessionKey).isNone
  | _ => True

/-- Until an authenticated user's session setup completes signing is off, and from then on it is on
with the key of that time. -/
def Connection.Fixed (conn : Connection) : Prop :=
  match conn.fixed with
  | none => Unstarted conn.signing
  | some key => Started conn.signing key

theorem done_failed (setup : Sesssetup) (signing : SigningContext) {outcome : AuthOutcome}
    (h : ∀ sessionKey, outcome ≠ .loggedOn true sessionKey) : setup.done md5 signing outcome = signing := by
  unfold Sesssetup.done sesssetupNt1Send sesssetupSpnegoSend
  cases outcome with
  | failed => cases setup.kind <;> rfl
  | moreProcessing => cases setup.kind <;> rfl
  | loggedOn authenticated sessionKey =>
    cases authenticated with
    | true => exact absurd rfl (h sessionKey)
    | false => cases setup.kind <;> cases sessionKey <;> rfl

/-- The end of an authenticated session setup: nothing without a session key, else a start of
signing with it. -/
theorem done_loggedOn (setup : Sesssetup) (signing : SigningContext) (sessionKey : Option (List UInt8)) :
    (setup.sessionKey sessionKey = none → setup.done md5 signing (.loggedOn true sessionKey) = signing) ∧
      (∀ key, setup.sessionKey sessionKey = some key → ∃ k r, k ++ r = key ∧
        setup.done md5 signing (.loggedOn true sessionKey) = startSigning md5 signing setup.request k r) := by
  obtain ⟨request, kind⟩ := setup
  cases kind with
  | nt1 password2 =>
    refine ⟨fun h => (nomatch h), fun key hkey => ?_⟩
    simp only [Sesssetup.sessionKey, Option.some.injEq] at hkey
    exact ⟨_, _, hkey, rfl⟩
  | spnego =>
    cases sessionKey with
    | none => exact ⟨fun _ => rfl, fun key hkey => (nomatch hkey)⟩
    | some k =>
      refine ⟨fun h => (nomatch h), fun key hkey => ?_⟩
      simp only [Sesssetup.sessionKey, Option.some.injEq] at hkey
      exact ⟨k, [], by rw [List.append_nil, hkey], rfl⟩

theorem switchMessage_fixed {conn : Connection} (h : conn.Fixed) (request : Packet) (command : Command) :
    (switchMessage conn request command).Fixed := by
  cases command with
  | sesssetup kind => exact h
  | other noReply =>
    cases noReply with
    | false => exact h
    | true =>
      unfold Connection.Fixed at h ⊢
      simp only [switchMessage, if_true]
      cases hf : conn.fixed with
      | none =>
        rw [hf] at h
        have hoff : smbsrvSigningNoReply conn.signing = conn.signing := if_neg (not_not.mpr h.state)
        rw [hoff]
        exact h
      | some key =>
        rw [hf] at h
        exact noReply_started h

theorem next_fixed {conn : Connection} (h : conn.Fixed) {e : Event} (he : e.KeepsKey conn) :
    (conn.next md5 e).Fixed := by
  cases e with
  | chain request command => exact switchMessage_fixed h request command
  | receive request command =>
    have hchecked : Connection.Fixed
        { conn with signing := (smbsrvSigningCheckIncoming md5 conn.signing request.buf).signing } := by
      unfold Connection.Fixed at h ⊢
      cases hf : conn.fixed with
      | none =>
        rw [hf] at h
        rw [checkIncoming_unstarted md5 h]
        exact h
      | some key =>
        rw [hf] at h
        exact (checkIncoming_started md5 h request.buf).1
    simp only [Connection.next]
    split
    · exact switchMessage_fixed hchecked request command
    · exact hchecked
  | done i outcome =>
    simp only [Connection.next]
    cases hw : conn.waiting[i]? with
    | none => exact h
    | some setup =>
      by_cases hout : ∃ sessionKey, outcome = .loggedOn true sessionKey
      · obtain ⟨sessionKey, rfl⟩ := hout
        have hkeep := he setup hw
        obtain ⟨hnone, hsome⟩ := done_loggedOn md5 setup conn.signing sessionKey
        unfold Connection.Fixed at h ⊢
        cases hf : conn.fixed with
        | none =>
          rw [hf] at h
          rw [if_pos h.state] at hkeep
          obtain ⟨key, hkey⟩ := Option.isSome_iff_exists.mp hkeep
          obtain ⟨k, r, -, hdone⟩ := hsome key hkey
          have hstart := startSigning_unstarted md5 h setup.request k r
          rw [← hdone] at hstart
          exact ⟨hstart.state, rfl, hstart.allowed, hstart.seen⟩
        | some key =>
          rw [hf] at h
          rw [if_neg (by rw [h.state]; decide)] at hkeep
          have hsame : setup.done md5 conn.signing (.loggedOn true sessionKey) = conn.signing := by
            cases hkey : setup.sessionKey sessionKey with
            | none => exact hnone hkey
            | some key' =>
              rw [hkey] at hkeep
              obtain ⟨k, r, -, hdone⟩ := hsome key' hkey
              rcases hkeep with hdoing | hnone'
              · rw [hdone, startSigning_doing md5 hdoing]
              · cases hnone'
          simp only [hsame]
          exact h
      · have hsame := done_failed md5 setup conn.signing fun key hkey => hout ⟨key, hkey⟩
        simp only [hsame]
        cases outcome with
        | failed => exact h
        | moreProcessing => exact h
        | loggedOn authenticated sessionKey =>
          cases authenticated with
          | false => exact h
          | true => exact absurd ⟨sessionKey, rfl⟩ hout

/-- In every run whose steps all keep the key: once a session setup of an authenticated user has
completed, signing is on with the key of that time, and every packet accepted carries the MAC under
that key and the next sequence number. -/
theorem signing_key_fixed {domainLogons : Bool} {conn : Connection}
    (h : ((connectionSystem md5 domainLogons).restrict fun conn e => e.KeepsKey conn).Reachable conn)
    {key : List UInt8} (hkey : conn.fixed = some key) :
    conn.signing.macKey = key ∧ conn.signing.signingState = .on ∧
      ∀ inb, (smbsrvSigningCheckIncoming md5 conn.signing inb).accepted = true →
        CarriesMac md5 inb key conn.signing.nextSeqNum := by
  have hfixed : conn.Fixed := by
    refine @System.Reachable.invariant _ _ _ Connection.Fixed ?_ ?_ _ h
    · rintro conn rfl
      exact ⟨rfl, rfl, rfl, rfl, rfl⟩
    · rintro conn e conn' hconn ⟨hkeep, rfl⟩
      exact next_fixed md5 hconn hkeep
  unfold Connection.Fixed at hfixed
  rw [hkey] at hfixed
  refine ⟨hfixed.key, hfixed.state, fun inb hacc => carriesMac_of_check md5 ?_⟩
  exact (checkIncoming_started md5 hfixed inb).2 hacc

def newConnection : Connection := ⟨smbsrvInitSigning .required false, [], none⟩

/-- A packet whose signature is good with any key and number. -/
def signedPacket : Packet := ⟨List.replicate 14 1 ++ List.replicate 8 0 ++ List.replicate 13 1, by decide⟩

/-- A session setup that arrives and completes, then another one whose packet is signed, so that it finds `doing_signing`
set, and a packet that is not signed. -/
def signedSetups : List Event :=
  [.receive unsignedPacket (.sesssetup (.nt1 [])), .done 0 (.loggedOn true (some [1])),
    .receive signedPacket (.sesssetup (.nt1 [])), .done 0 (.loggedOn true (some [2])), .receive unsignedPacket (.other false)]

theorem signing_key_fixed_signedSetups :
    (signedSetups.foldl (Connection.next zeroMd5) newConnection).signing.macKey = [1] ∧
      (signedSetups.foldl (Connection.next zeroMd5) newConnection).signing.signingState = .on ∧
      ∀ inb, (smbsrvSigningCheckIncoming zeroMd5
          (signedSetups.foldl (Connection.next zeroMd5) newConnection).signing inb).accepted = true →
        CarriesMac zeroMd5 inb [1] (signedSetups.foldl (Connection.next zeroMd5) newConnection).signing.nextSeqNum := by
  have h0 : ((connectionSystem zeroMd5 false).restrict fun conn e => e.KeepsKey conn).Reachable newConnection :=
    .init rfl
  have h := System.reachable_foldl_restrict (f := Connection.next zeroMd5) (fun _ _ => rfl) h0 signedSetups
    ⟨trivial, ?_, trivial, ?_, trivial, trivial⟩
  · exact signing_key_fixed zeroMd5 h (by decide)
  · rintro _ ⟨⟩
    decide
  · rintro _ ⟨⟩
    decide

/-- Two session setups that both wait, then complete one after the other. -/
def twoSetups : List Event :=
  [.receive unsignedPacket (.sesssetup (.nt1 [])), .receive unsignedPacket (.sesssetup (.nt1 [])),
    .done 0 (.loggedOn true (some [1])), .done 0 (.loggedOn true (some [2]))]

/-- The second one replaces the key of the first. -/
theorem second_setup_replaces_key :
    ∃ conn, (connectionSystem zeroMd5 false).Reachable conn ∧ conn.fixed = some [1] ∧
      conn.signing.macKey = [2] :=
  ⟨twoSetups.foldl (Connection.next zeroMd5) newConnection,
    System.reachable_foldl (.init rfl) twoSetups, by decide, by decide⟩

end Samba.Smb
