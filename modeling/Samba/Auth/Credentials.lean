/-
The Netlogon credential chain (libcli/auth/credentials.c): what the client and the server compute from the challenges and
the machine password, and how each authenticator moves the chain on.
-/
import Mathlib.Data.BitVec
import Samba.Security.Descriptor

namespace Samba.Auth

open Samba.Security

/-! ## Credentials -/

/-- `netr_Credential`: the eight bytes of `data`, the first of them lowest. -/
abbrev NetrCredential := BitVec 64

/-- `netr_Authenticator`. -/
structure NetrAuthenticator where
  cred : NetrCredential
  timestamp : BitVec 32
  deriving DecidableEq, Repr

/-- `IVAL` of a credential. -/
def ival (data : NetrCredential) (pos : Nat) : BitVec 32 := data.extractLsb' (8 * pos) 32

/-- The credential that `SIVAL` makes of two words, at 0 and at 4. -/
def sival (low high : BitVec 32) : NetrCredential := high ++ low

@[simp] theorem ival_sival_low (low high : BitVec 32) : ival (sival low high) 0 = low := by
  unfold ival sival
  apply BitVec.eq_of_getLsbD_eq
  intro i hi
  rw [BitVec.getLsbD_extractLsb', BitVec.getLsbD_append]
  simp [hi]

@[simp] theorem ival_sival_high (low high : BitVec 32) : ival (sival low high) 4 = high := by
  unfold ival sival
  apply BitVec.eq_of_getLsbD_eq
  intro i hi
  rw [BitVec.getLsbD_extractLsb', BitVec.getLsbD_append]
  simp [hi]

theorem sival_ival (data : NetrCredential) : sival (ival data 0) (ival data 4) = data := by
  unfold sival ival
  apply BitVec.eq_of_getLsbD_eq
  intro i hi
  rw [BitVec.getLsbD_append]
  by_cases h : i < 32
  · simp [h]
  · simp [h, show i - 32 < 32 by omega, show 32 + (i - 32) = i by omega]

/-- The ciphers and digests of lib/crypto that the chain is made with. -/
structure Ciphers where
  desCrypt112 : BitVec 128 → NetrCredential → NetrCredential
  desCrypt128 : BitVec 128 → BitVec 64 → BitVec 64
  md5 : BitVec 160 → BitVec 128
  hmacMd5 : BitVec 128 → BitVec 128 → BitVec 128

/-- `NETLOGON_NEG_128BIT`. -/
def netlogonNeg128bit : BitVec 32 := 0x4000

/-- `creds_CredentialState`. -/
structure CredentialState where
  negotiateFlags : BitVec 32
  sessionKey : BitVec 128
  sequence : BitVec 32
  seed : NetrCredential
  client : NetrCredential
  server : NetrCredential
  secureChannelType : BitVec 16
  domain : List UInt8
  computerName : List UInt8
  accountName : List UInt8
  sid : DomSid
  deriving DecidableEq, Repr

inductive NtStatus
  | ok | invalidParameter | accessDenied | invalidHandle
  deriving DecidableEq, Repr

section

variable (ciphers : Ciphers)

/-! ## The chain -/

/-- `creds_init_64bit`. -/
def credsInit64bit (creds : CredentialState) (clientChallenge serverChallenge : NetrCredential)
    (machinePassword : BitVec 128) : CredentialState :=
  let sum2 := sival (ival clientChallenge 0 + ival serverChallenge 0) (ival clientChallenge 4 + ival serverChallenge 4)
  -- only the first eight of the sixteen bytes are written
  let sessionKey : BitVec 128 := 0#64 ++ ciphers.desCrypt128 machinePassword sum2
  { creds with
    sessionKey := sessionKey
    client := ciphers.desCrypt112 sessionKey clientChallenge
    server := ciphers.desCrypt112 sessionKey serverChallenge
    seed := ciphers.desCrypt112 sessionKey clientChallenge }

/-- `creds_init_128bit`. -/
def credsInit128bit (creds : CredentialState) (clientChallenge serverChallenge : NetrCredential)
    (machinePassword : BitVec 128) : CredentialState :=
  let tmp := ciphers.md5 (serverChallenge ++ clientChallenge ++ 0#32)
  let sessionKey := ciphers.hmacMd5 machinePassword tmp
  { creds with
    sessionKey := sessionKey
    client := ciphers.desCrypt112 sessionKey clientChallenge
    server := ciphers.desCrypt112 sessionKey serverChallenge
    seed := ciphers.desCrypt112 sessionKey clientChallenge }

/-- The part that `creds_client_init` and `creds_server_init` share. -/
def credsInit (creds : CredentialState) (clientChallenge serverChallenge : NetrCredential) (machinePassword : BitVec 128)
    (negotiateFlags : BitVec 32) : CredentialState :=
  if negotiateFlags &&& netlogonNeg128bit ≠ 0 then credsInit128bit ciphers creds clientChallenge serverChallenge machinePassword
  else credsInit64bit ciphers creds clientChallenge serverChallenge machinePassword

/-- `creds_step`. -/
def credsStep (creds : CredentialState) : CredentialState :=
  let timeCred := sival (ival creds.seed 0 + creds.sequence) (ival creds.seed 4)
  let timeCred1 := sival (ival creds.seed 0 + creds.sequence + 1) (ival creds.seed 4)
  { creds with
    client := ciphers.desCrypt112 creds.sessionKey timeCred
    server := ciphers.desCrypt112 creds.sessionKey timeCred1
    seed := timeCred1 }

/-! ## The client -/

/-- `creds_client_init`, at the time `now`: the state and the initial credential. -/
def credsClientInit (now : BitVec 32) (creds : CredentialState) (clientChallenge serverChallenge : NetrCredential)
    (machinePassword : BitVec 128) (negotiateFlags : BitVec 32) : CredentialState × NetrCredential :=
  let creds := { creds with sequence := now, negotiateFlags := negotiateFlags }
  let creds := credsInit ciphers creds clientChallenge serverChallenge machinePassword negotiateFlags
  (creds, creds.client)

/-- `creds_client_authenticator`. -/
def credsClientAuthenticator (creds : CredentialState) : CredentialState × NetrAuthenticator :=
  let creds := credsStep ciphers { creds with sequence := creds.sequence + 2 }
  (creds, ⟨creds.client, creds.sequence⟩)

/-- `creds_client_check`. -/
def credsClientCheck (creds : CredentialState) (receivedCredentials : Option NetrCredential) : Bool :=
  match receivedCredentials with
  | none => false
  | some received => received = creds.server

/-! ## The server -/

/-- `creds_server_init`: the state and the initial credential. -/
def credsServerInit (creds : CredentialState) (clientChallenge serverChallenge : NetrCredential) (machinePassword : BitVec 128)
    (negotiateFlags : BitVec 32) : CredentialState × NetrCredential :=
  let creds := credsInit ciphers creds clientChallenge serverChallenge machinePassword negotiateFlags
  ({ creds with negotiateFlags := negotiateFlags }, creds.server)

/-- `creds_server_check`. -/
def credsServerCheck (creds : CredentialState) (receivedCredentials : NetrCredential) : Bool :=
  receivedCredentials = creds.client

/-- `creds_server_step_check` with the state that was fetched. `returned` says whether there is room for a returned
authenticator. The results are the status, the state and the returned authenticator. -/
def credsServerStepCheck (creds : CredentialState) (received : Option NetrAuthenticator) (returned : Bool) :
    NtStatus × CredentialState × NetrAuthenticator :=
  match received, returned with
  | some received, true =>
    let creds := credsStep ciphers { creds with sequence := received.timestamp }
    if credsServerCheck creds received.cred then (.ok, creds, ⟨creds.server, creds.sequence⟩)
    else (.accessDenied, creds, ⟨0, 0⟩)
  | _, _ => (.invalidParameter, creds, ⟨0, 0⟩)

end

/-! ## Where two states of one chain stand -/

/-- Two states are at the same place of one chain; the sequence number is not part of it. -/
structure SamePlace (a b : CredentialState) : Prop where
  sessionKey : a.sessionKey = b.sessionKey
  seed : a.seed = b.seed
  client : a.client = b.client
  server : a.server = b.server

section

variable {ciphers : Ciphers} {a b : CredentialState}

theorem credsInit_samePlace (a b : CredentialState) (clientChallenge serverChallenge : NetrCredential)
    (machinePassword : BitVec 128) (negotiateFlags : BitVec 32) :
    SamePlace (credsInit ciphers a clientChallenge serverChallenge machinePassword negotiateFlags)
      (credsInit ciphers b clientChallenge serverChallenge machinePassword negotiateFlags) := by
  unfold credsInit
  split
  · exact ⟨rfl, rfl, rfl, rfl⟩
  · exact ⟨rfl, rfl, rfl, rfl⟩

/-- Both first credentials are the challenges under the session key, and the seed is the client's. -/
theorem credsInit_start (creds : CredentialState) (clientChallenge serverChallenge : NetrCredential)
    (machinePassword : BitVec 128) (negotiateFlags : BitVec 32) :
    let start := credsInit ciphers creds clientChallenge serverChallenge machinePassword negotiateFlags
    start.sequence = creds.sequence ∧ start.seed = start.client ∧
      start.client = ciphers.desCrypt112 start.sessionKey clientChallenge ∧
      start.server = ciphers.desCrypt112 start.sessionKey serverChallenge := by
  unfold credsInit
  split
  · exact ⟨rfl, rfl, rfl, rfl⟩
  · exact ⟨rfl, rfl, rfl, rfl⟩

theorem credsInit_computerName (creds : CredentialState) (clientChallenge serverChallenge : NetrCredential)
    (machinePassword : BitVec 128) (negotiateFlags : BitVec 32) :
    (credsInit ciphers creds clientChallenge serverChallenge machinePassword negotiateFlags).computerName =
      creds.computerName := by
  unfold credsInit
  split <;> rfl

/-- The same step from the same place leads to the same place. -/
theorem credsStep_samePlace (h : SamePlace a b) (hseq : a.sequence = b.sequence) :
    SamePlace (credsStep ciphers a) (credsStep ciphers b) := by
  obtain ⟨hkey, hseed, -, -⟩ := h
  constructor <;> simp only [credsStep, hkey, hseed, hseq]

/-- The timestamp of an authenticator is what the server steps its own state with. -/
theorem credsClientAuthenticator_samePlace (h : SamePlace a b) :
    SamePlace (credsClientAuthenticator ciphers a).1
      (credsStep ciphers { b with sequence := (credsClientAuthenticator ciphers a).2.timestamp }) :=
  credsStep_samePlace (a := { a with sequence := a.sequence + 2 }) ⟨h.1, h.2, h.3, h.4⟩ rfl

/-- The server accepts what a client at its place sends, and answers with what the client expects. -/
theorem credsServerStepCheck_of_samePlace (h : SamePlace a b) :
    credsServerStepCheck ciphers b (some (credsClientAuthenticator ciphers a).2) true =
      (.ok, credsStep ciphers { b with sequence := (credsClientAuthenticator ciphers a).2.timestamp },
        ⟨(credsClientAuthenticator ciphers a).1.server, (credsClientAuthenticator ciphers a).2.timestamp⟩) := by
  have hplace := @credsClientAuthenticator_samePlace ciphers _ _ h
  have hcheck : credsServerCheck
      (credsStep ciphers { b with sequence := (credsClientAuthenticator ciphers a).2.timestamp })
      (credsClientAuthenticator ciphers a).2.cred = true :=
    decide_eq_true hplace.client
  simp only [credsServerStepCheck, hcheck, if_true, hplace.server]
  rfl

/-- A request is accepted exactly if its credential is what the seed and its timestamp make. -/
theorem credsServerStepCheck_ok {creds : CredentialState} {received : NetrAuthenticator} :
    (credsServerStepCheck ciphers creds (some received) true).1 = .ok ↔
      received.cred =
        ciphers.desCrypt112 creds.sessionKey (sival (ival creds.seed 0 + received.timestamp) (ival creds.seed 4)) := by
  simp only [credsServerStepCheck]
  by_cases hcheck : credsServerCheck (credsStep ciphers { creds with sequence := received.timestamp }) received.cred = true
  · rw [if_pos hcheck]
    exact ⟨fun _ => of_decide_eq_true hcheck, fun _ => rfl⟩
  · rw [if_neg hcheck]
    exact ⟨nofun, fun h => absurd (decide_eq_true h) hcheck⟩

end

end Samba.Auth
