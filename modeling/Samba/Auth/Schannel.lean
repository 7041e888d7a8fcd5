/-
The Netlogon server's side of an established channel: the state of the chain in the schannel database
(auth/gensec/schannel_state.c), fetched, stepped and stored again for every request (rpc_server/netlogon/dcerpc_netlogon.c),
and the runs of a client with such a server.
-/
import Samba.Auth.Credentials
import Samba.Lib.Transition

namespace Samba.Auth

open Samba.Security Transition

/-! ## The schannel database -/

/-- The record that `schannel_store_session_key_ldb` makes. -/
structure SchannelState where
  sessionKey : BitVec 128
  seed : NetrCredential
  clientState : NetrCredential
  serverState : NetrCredential
  negotiateFlags : BitVec 32
  secureChannelType : BitVec 16
  accountName : List UInt8
  computerName : List UInt8
  flatname : List UInt8
  objectSid : DomSid
  deriving DecidableEq, Repr

/-- What the server runs with: the ciphers, its own domain (`lp_workgroup`) and how the database folds the names, which it
compares without regard to case. -/
structure Server extends Ciphers where
  workgroup : List UInt8
  casefold : List UInt8 → List UInt8

/-- The database: a record a computer. -/
abbrev SchannelDb := List UInt8 → Option SchannelState

variable (server : Server)

/-- `schannel_store_session_key_ldb`: the record of the computer is deleted and added. -/
def schannelStoreSessionKeyLdb (ldb : SchannelDb) (creds : CredentialState) : SchannelDb :=
  Function.update ldb (server.casefold creds.computerName) (some
    { sessionKey := creds.sessionKey
      seed := creds.seed
      clientState := creds.client
      serverState := creds.server
      negotiateFlags := creds.negotiateFlags
      secureChannelType := creds.secureChannelType
      accountName := creds.accountName
      computerName := creds.computerName
      flatname := creds.domain
      objectSid := creds.sid })

/-- `schannel_fetch_session_key_ldb`. The sequence number is not stored. -/
def schannelFetchSessionKeyLdb (ldb : SchannelDb) (computerName domain : List UInt8) : Except NtStatus CredentialState :=
  match ldb (server.casefold computerName) with
  | none => .error .invalidHandle
  | some res =>
    if server.casefold res.flatname ≠ server.casefold domain then .error .invalidHandle
    else .ok
      { negotiateFlags := res.negotiateFlags
        sessionKey := res.sessionKey
        sequence := 0
        seed := res.seed
        client := res.clientState
        server := res.serverState
        secureChannelType := res.secureChannelType
        domain := res.flatname
        computerName := res.computerName
        accountName := res.accountName
        sid := res.objectSid }

/-- What a request is answered with. -/
structure Reply where
  status : NtStatus
  returnAuthenticator : NetrAuthenticator
  deriving DecidableEq, Repr

/-- `dcesrv_netr_creds_server_step_check`: a transaction of the database, cancelled where the request is not accepted. -/
def dcesrvNetrCredsServerStepCheck (ldb : SchannelDb) (computerName : List UInt8) (received : Option NetrAuthenticator)
    (returned : Bool) : SchannelDb × Reply :=
  match schannelFetchSessionKeyLdb server ldb computerName server.workgroup with
  | .error status => (ldb, ⟨status, ⟨0, 0⟩⟩)
  | .ok creds =>
    match credsServerStepCheck server.toCiphers creds received returned with
    | (.ok, creds, ret) => (schannelStoreSessionKeyLdb server ldb creds, ⟨.ok, ret⟩)
    | (status, _, ret) => (ldb, ⟨status, ret⟩)

/-! ## An established channel -/

/-- `dcesrv_netr_ServerAuthenticate3`, with what it finds in the machine account: the state that the server starts with is
stored if the client has shown the right credential. `creds` is what was on the heap before. -/
def dcesrvNetrServerAuthenticate3 (ldb : SchannelDb) (creds : CredentialState) (clientChallenge serverChallenge : NetrCredential)
    (machPwd : BitVec 128) (objectSid : DomSid) (accountName computerName : List UInt8) (secureChannelType : BitVec 16)
    (negotiateFlags : BitVec 32) (credentials : NetrCredential) : SchannelDb × NtStatus × NetrCredential :=
  let (creds, out) := credsServerInit server.toCiphers creds clientChallenge serverChallenge machPwd negotiateFlags
  if credsServerCheck creds credentials then
    let creds := { creds with
      accountName := accountName
      computerName := computerName
      domain := server.workgroup
      secureChannelType := secureChannelType
      sid := objectSid }
    (schannelStoreSessionKeyLdb server ldb creds, .ok, out)
  else (ldb, .accessDenied, out)

/-- The challenges, what client and server know of the account, what was on their heaps and in the database, and the time
at which the client starts. -/
structure Setup where
  clientChallenge : NetrCredential
  serverChallenge : NetrCredential
  machinePassword : BitVec 128
  objectSid : DomSid
  accountName : List UInt8
  secureChannelType : BitVec 16
  negotiateFlags : BitVec 32
  now : BitVec 32
  clientCreds : CredentialState
  serverCreds : CredentialState
  ldb : SchannelDb

/-- The client's first credential and its state after `netr_ServerReqChallenge`. -/
def Setup.client (setup : Setup) : CredentialState × NetrCredential :=
  credsClientInit server.toCiphers setup.now setup.clientCreds setup.clientChallenge setup.serverChallenge
    setup.machinePassword setup.negotiateFlags

/-- What the server answers to the client's first credential. -/
def Setup.authenticate (setup : Setup) : SchannelDb × NtStatus × NetrCredential :=
  dcesrvNetrServerAuthenticate3 server setup.ldb setup.serverCreds setup.clientChallenge setup.serverChallenge
    setup.machinePassword setup.objectSid setup.accountName setup.clientCreds.computerName setup.secureChannelType
    setup.negotiateFlags (setup.client server).2

/-- The client's state and the server's database. -/
structure Channel where
  client : CredentialState
  ldb : SchannelDb

/-- The channel once `netr_ServerAuthenticate3` has come back. -/
def Setup.establish (setup : Setup) : Channel := ⟨(setup.client server).1, (setup.authenticate server).1⟩

/-- A request as it comes to the server. -/
structure Request where
  computerName : List UInt8
  authenticator : Option NetrAuthenticator
  returned : Bool
  deriving DecidableEq, Repr

/-- The client sends a request, and the server checks it. -/
def Channel.request (ch : Channel) (r : Request) : Channel × Reply :=
  let (ldb, reply) := dcesrvNetrCredsServerStepCheck server ch.ldb r.computerName r.authenticator r.returned
  ({ ch with ldb := ldb }, reply)

/-- An honest exchange: what the client sent, what the server answered, whether the client takes the answer for the
server's, and the channel after it. -/
structure Exchange where
  sent : NetrAuthenticator
  reply : Reply
  checked : Bool
  channel : Channel

/-- An honest exchange on the channel. -/
def Channel.exchange (ch : Channel) : Exchange :=
  let (client, auth) := credsClientAuthenticator server.toCiphers ch.client
  let (channel, reply) := Channel.request server { ch with client := client } ⟨client.computerName, some auth, true⟩
  { sent := auth
    reply := reply
    checked := credsClientCheck client (some reply.returnAuthenticator.cred)
    channel := channel }

/-! ## Client and server stay in step -/

inductive Event
  | exchange
  | request (r : Request)
  deriving DecidableEq, Repr

/-- Honest exchanges among any requests that the server rejects. -/
def channelSystem (setup : Setup) : System Channel Event where
  init ch := ch = setup.establish server
  step ch e ch' :=
    match e with
    | .exchange => ch' = (ch.exchange server).channel
    | .request r => ch' = (ch.request server r).1 ∧ (ch.request server r).2.status ≠ .ok

/-- What the server has stored of the client is at the client's place of the chain. -/
def InStep (ch : Channel) : Prop :=
  ∃ creds, schannelFetchSessionKeyLdb server ch.ldb ch.client.computerName server.workgroup = .ok creds ∧
    SamePlace ch.client creds

/-- The names in a state that the server works with are those that it is stored under. -/
structure Named (client creds : CredentialState) : Prop where
  computerName : server.casefold creds.computerName = server.casefold client.computerName
  domain : server.casefold creds.domain = server.casefold server.workgroup

variable {server}

variable {creds : CredentialState} {ch : Channel}

theorem schannelFetch_store {ldb : SchannelDb} {client : CredentialState} (hnamed : Named server client creds) :
    schannelFetchSessionKeyLdb server (schannelStoreSessionKeyLdb server ldb creds) client.computerName server.workgroup =
      .ok { creds with sequence := 0 } := by
  simp only [schannelFetchSessionKeyLdb, schannelStoreSessionKeyLdb, hnamed.computerName, Function.update_self,
    hnamed.domain, ne_eq, not_true_eq_false, if_false]

/-- A request that is not accepted changes nothing. -/
theorem Channel.request_rejected {r : Request} (h : (ch.request server r).2.status ≠ .ok) :
    (ch.request server r).1 = ch := by
  unfold Channel.request dcesrvNetrCredsServerStepCheck at h ⊢
  cases hfetch : schannelFetchSessionKeyLdb server ch.ldb r.computerName server.workgroup with
  | error status => rfl
  | ok creds =>
    rw [hfetch] at h
    rcases hcheck : credsServerStepCheck server.toCiphers creds r.authenticator r.returned with ⟨status, creds', ret⟩
    cases status with
    | ok =>
      simp only [hcheck] at h
      exact absurd rfl h
    | invalidParameter => simp only [hcheck]
    | accessDenied => simp only [hcheck]
    | invalidHandle => simp only [hcheck]

/-- A request that is accepted stores the state after the step. -/
theorem Channel.request_accepted {ch : Channel} {r : Request} {creds creds' : CredentialState} {ret : NetrAuthenticator}
    (hfetch : schannelFetchSessionKeyLdb server ch.ldb r.computerName server.workgroup = .ok creds)
    (h : credsServerStepCheck server.toCiphers creds r.authenticator r.returned = (.ok, creds', ret)) :
    ch.request server r = ({ ch with ldb := schannelStoreSessionKeyLdb server ch.ldb creds' }, ⟨.ok, ret⟩) := by
  unfold Channel.request dcesrvNetrCredsServerStepCheck
  simp only [hfetch, h]

theorem Channel.request_status {r : Request}
    (hfetch : schannelFetchSessionKeyLdb server ch.ldb r.computerName server.workgroup = .ok creds) :
    (ch.request server r).2.status = (credsServerStepCheck server.toCiphers creds r.authenticator r.returned).1 := by
  unfold Channel.request dcesrvNetrCredsServerStepCheck
  rcases hcheck : credsServerStepCheck server.toCiphers creds r.authenticator r.returned with ⟨status, creds', ret⟩
  cases status <;> simp only [hfetch, hcheck]

/-- What an honest exchange does where the server has stored the client's place. -/
theorem Channel.exchange_eq
    (hfetch : schannelFetchSessionKeyLdb server ch.ldb ch.client.computerName server.workgroup = .ok creds)
    (hplace : SamePlace ch.client creds) :
    let next := credsClientAuthenticator server.toCiphers ch.client
    ch.exchange server =
      { sent := next.2
        reply := ⟨.ok, next.1.server, next.2.timestamp⟩
        checked := true
        channel := ⟨next.1, schannelStoreSessionKeyLdb server ch.ldb
          (credsStep server.toCiphers { creds with sequence := next.2.timestamp })⟩ } := by
  intro next
  have hrequest := @Channel.request_accepted _ ⟨next.1, ch.ldb⟩ ⟨ch.client.computerName, some next.2, true⟩ _ _ _
    hfetch (credsServerStepCheck_of_samePlace hplace)
  have hcheck : credsClientCheck next.1 (some next.1.server) = true := decide_eq_true rfl
  have hname : next.1.computerName = ch.client.computerName := rfl
  simp only [Channel.exchange, hname, next, hrequest]
  rw [hcheck]

/-- The invariant of an established channel: it is in step, and stored under the client's name. -/
def Established (server : Server) (ch : Channel) : Prop :=
  ∃ creds, schannelFetchSessionKeyLdb server ch.ldb ch.client.computerName server.workgroup = .ok creds ∧
    SamePlace ch.client creds ∧ Named server ch.client creds

theorem Established.inStep (h : Established server ch) : InStep server ch := by
  obtain ⟨creds, hfetch, hplace, -⟩ := h
  exact ⟨creds, hfetch, hplace⟩

/-- What is stored for the client's name, at the client's place, makes a channel established. -/
theorem established_store {ldb : SchannelDb} {client : CredentialState} (hplace : SamePlace client creds)
    (hnamed : Named server client creds) : Established server ⟨client, schannelStoreSessionKeyLdb server ldb creds⟩ :=
  ⟨_, schannelFetch_store hnamed, ⟨hplace.sessionKey, hplace.seed, hplace.client, hplace.server⟩,
    ⟨hnamed.computerName, hnamed.domain⟩⟩

/-- An exchange on an established channel goes through, and the channel stays established. -/
theorem Established.exchange (h : Established server ch) :
    (ch.exchange server).reply.status = .ok ∧ (ch.exchange server).checked = true ∧
      Established server (ch.exchange server).channel := by
  obtain ⟨creds, hfetch, hplace, hnamed⟩ := h
  rw [Channel.exchange_eq hfetch hplace]
  exact ⟨rfl, rfl, established_store (credsClientAuthenticator_samePlace hplace) ⟨hnamed.computerName, hnamed.domain⟩⟩

/-- The server's state after the authentication. -/
def Setup.serverState (server : Server) (setup : Setup) : CredentialState :=
  { (credsServerInit server.toCiphers setup.serverCreds setup.clientChallenge setup.serverChallenge setup.machinePassword
      setup.negotiateFlags).1 with
    accountName := setup.accountName
    computerName := setup.clientCreds.computerName
    domain := server.workgroup
    secureChannelType := setup.secureChannelType
    sid := setup.objectSid }

theorem Setup.samePlace (server : Server) (setup : Setup) : SamePlace (setup.client server).1 (setup.serverState server) := by
  obtain ⟨hkey, hseed, hclient, hserver⟩ := @credsInit_samePlace server.toCiphers
    { setup.clientCreds with sequence := setup.now, negotiateFlags := setup.negotiateFlags } setup.serverCreds
    setup.clientChallenge setup.serverChallenge setup.machinePassword setup.negotiateFlags
  exact ⟨hkey, hseed, hclient, hserver⟩

/-- The server accepts the client's first credential. -/
theorem Setup.authenticate_eq (server : Server) (setup : Setup) :
    setup.authenticate server =
      (schannelStoreSessionKeyLdb server setup.ldb (setup.serverState server), .ok, (setup.serverState server).server) := by
  have hcheck : credsServerCheck (credsServerInit server.toCiphers setup.serverCreds setup.clientChallenge
      setup.serverChallenge setup.machinePassword setup.negotiateFlags).1 (setup.client server).2 = true :=
    decide_eq_true (setup.samePlace server).client
  unfold Setup.authenticate dcesrvNetrServerAuthenticate3
  simp only [hcheck, if_true]
  rfl

theorem establish_established (server : Server) (setup : Setup) : Established server (setup.establish server) := by
  have hname : (setup.client server).1.computerName = setup.clientCreds.computerName := credsInit_computerName ..
  unfold Setup.establish
  rw [Setup.authenticate_eq]
  exact established_store (setup.samePlace server) ⟨congrArg _ hname.symm, rfl⟩

/-- In every run in which the server rejects all other requests, an honest exchange goes through, the client takes the
answer for the server's, and both are at the same place afterwards. -/
theorem channel_inStep (server : Server) (setup : Setup) {ch : Channel} (h : (channelSystem server setup).Reachable ch) :
    (ch.exchange server).reply.status = .ok ∧ (ch.exchange server).checked = true ∧
      InStep server (ch.exchange server).channel := by
  have hest : Established server ch := by
    refine h.invariant (fun s hs => hs ▸ establish_established server setup) ?_
    intro s e s' hinv hstep
    cases e with
    | exchange => exact hstep ▸ hinv.exchange.2.2
    | request r =>
      obtain ⟨rfl, hrejected⟩ := hstep
      rw [Channel.request_rejected hrejected]
      exact hinv
  obtain ⟨hok, hchecked, hest'⟩ := hest.exchange
  exact ⟨hok, hchecked, hest'.inStep⟩

def sampleSid : DomSid := ⟨1, 0, Vector.replicate 6 0, [], rfl⟩

def sampleCreds : CredentialState := ⟨0, 0, 0, 0, 0, 0, 2, [], [0x77, 0x73], [], sampleSid⟩

/-- A server whose ciphers do little: the key is added, and nothing is digested. -/
def sampleServer : Server :=
  ⟨⟨fun key data => data ^^^ key.setWidth 64, fun _ data => data, fun data => data.setWidth 128, fun _ data => data⟩, [0x64], id⟩

def sampleSetup : Setup := ⟨3, 5, 0, sampleSid, [], 2, netlogonNeg128bit, 100, sampleCreds, sampleCreds, fun _ => none⟩

/-- An exchange, a stranger's request, and another exchange. -/
theorem channel_inStep_sample :
    let ch := ((sampleSetup.establish sampleServer).exchange sampleServer).channel
    (ch.exchange sampleServer).reply.status = .ok ∧ (ch.exchange sampleServer).checked = true ∧
      InStep sampleServer (ch.exchange sampleServer).channel := by
  refine channel_inStep sampleServer sampleSetup (.step (.request ⟨[0x77, 0x73], some ⟨1, 2⟩, true⟩) (.step .exchange (.init rfl) rfl) ⟨?_, ?_⟩)
  · rfl
  · decide

end Samba.Auth
