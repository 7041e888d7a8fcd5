/-
Requests that are sent again: a party that has seen the credentials of a channel on the wire, but does not know its key,
sends one of them with a timestamp of its own. The server takes the timestamp as it comes, so it accepts such a request
exactly if the timestamp brings the sum of seed and timestamp back to the block that the credential was made of.
-/
import Samba.Auth.Schannel

namespace Samba.Auth

open Samba.Security Transition

/-! ## The blocks of a chain -/

/-- What the credentials of a channel are made of: the challenges, the first seed and the first sequence number. -/
structure Chain where
  clientChallenge : NetrCredential
  serverChallenge : NetrCredential
  seed : NetrCredential
  sequence : BitVec 32
  deriving DecidableEq, Repr

namespace Chain

variable (chain : Chain)

/-- The timestamp of the client's authenticator number `m`. -/
def timestamp : Nat → BitVec 32
  | 0 => chain.sequence + 2
  | m + 1 => timestamp m + 2

/-- The first word of the seed after `m` exchanges; the second one never changes. -/
def seedLow : Nat → BitVec 32
  | 0 => ival chain.seed 0
  | m + 1 => seedLow m + chain.timestamp m + 1

/-- The blocks that were encrypted for the credentials of the first `m` exchanges, in the order in which these were sent. -/
def blocks : Nat → List NetrCredential
  | 0 => [chain.clientChallenge, chain.serverChallenge]
  | m + 1 => blocks m ++ [sival (chain.seedLow m + chain.timestamp m) (ival chain.seed 4),
      sival (chain.seedLow (m + 1)) (ival chain.seed 4)]

/-- After `m` exchanges, the timestamp `t` leads back to the block of credential number `k`. -/
def LeadsBack (m k : Nat) (t : BitVec 32) : Prop :=
  (chain.blocks m)[k]? = some (sival (chain.seedLow m + t) (ival chain.seed 4))

instance (m k : Nat) (t : BitVec 32) : Decidable (chain.LeadsBack m k t) := inferInstanceAs (Decidable (_ = _))

end Chain

/-! ## Traffic on the wire -/

/-- A channel, the credentials that were seen on the wire, and whether a credential was accepted that was sent again. -/
structure Traffic where
  channel : Channel
  seen : List NetrCredential
  accepted : Bool

inductive WireEvent
  | exchange
  | replay (k : Nat) (timestamp : BitVec 32)
  deriving DecidableEq, Repr

/-- The credential of a reply; a request that is rejected is answered with zeros. -/
def Reply.credentials (reply : Reply) : List NetrCredential :=
  if reply.status = .ok then [reply.returnAuthenticator.cred] else []

variable (server : Server)

/-- What an event does to the server and to what has gone over the wire. -/
def Traffic.step (tr : Traffic) : WireEvent → Traffic
  | .exchange =>
    let x := tr.channel.exchange server
    { tr with channel := x.channel, seen := tr.seen ++ x.sent.cred :: x.reply.credentials }
  | .replay k timestamp =>
    match tr.seen[k]? with
    | none => tr
    | some cred =>
      let (channel, reply) := tr.channel.request server ⟨tr.channel.client.computerName, some ⟨cred, timestamp⟩, true⟩
      { channel := channel
        seen := tr.seen ++ reply.credentials
        accepted := tr.accepted || reply.status = .ok }

/-- The traffic after the authentication, which shows a credential of each side. -/
def Setup.traffic (setup : Setup) : Traffic :=
  ⟨setup.establish server, [(setup.client server).2, (setup.authenticate server).2.2], false⟩

def Setup.chain (setup : Setup) : Chain :=
  ⟨setup.clientChallenge, setup.serverChallenge, (setup.client server).1.seed, setup.now⟩

/-- How many exchanges there are among some events. -/
def exchanges (events : List WireEvent) : Nat := events.count .exchange

/-! ## What is accepted -/

/-- After `m` exchanges and no accepted replay: the channel is where the chain is, and the credentials on the wire are
the blocks of the chain under the key. -/
structure Tracks (chain : Chain) (key : BitVec 128) (m : Nat) (tr : Traffic) : Prop where
  established : Established server tr.channel
  sessionKey : tr.channel.client.sessionKey = key
  seed : tr.channel.client.seed = sival (chain.seedLow m) (ival chain.seed 4)
  sequence : tr.channel.client.sequence + 2 = chain.timestamp m
  seen : tr.seen = (chain.blocks m).map (server.desCrypt112 key)

variable {server} {chain : Chain} {key : BitVec 128} {m : Nat} {tr : Traffic}

theorem Tracks.exchange (h : Tracks server chain key m tr) : Tracks server chain key (m + 1) (tr.step server .exchange) := by
  obtain ⟨creds, hfetch, hplace, hnamed⟩ := h.established
  have hstep : (tr.channel.exchange server) = _ := Channel.exchange_eq hfetch hplace
  have hseed : (credsClientAuthenticator server.toCiphers tr.channel.client).1.seed =
      sival (chain.seedLow (m + 1)) (ival chain.seed 4) := by
    simp only [credsClientAuthenticator, credsStep, h.seed, h.sequence, ival_sival_low, ival_sival_high, Chain.seedLow]
  have hclient : (credsClientAuthenticator server.toCiphers tr.channel.client).2.cred =
      server.desCrypt112 key (sival (chain.seedLow m + chain.timestamp m) (ival chain.seed 4)) := by
    simp only [credsClientAuthenticator, credsStep, h.seed, h.sequence, h.sessionKey, ival_sival_low, ival_sival_high]
  have hserver : (credsClientAuthenticator server.toCiphers tr.channel.client).1.server =
      server.desCrypt112 key (sival (chain.seedLow (m + 1)) (ival chain.seed 4)) := by
    simp only [credsClientAuthenticator, credsStep, h.seed, h.sequence, h.sessionKey, ival_sival_low, ival_sival_high,
      Chain.seedLow]
  constructor
  · exact h.established.exchange.2.2
  · simp only [Traffic.step, hstep]
    exact h.sessionKey
  · simp only [Traffic.step, hstep]
    exact hseed
  · simp only [Traffic.step, hstep]
    exact congrArg (· + 2) h.sequence
  · simp only [Traffic.step, hstep, Reply.credentials, if_true, h.seen, Chain.blocks, List.map_append, List.map_cons,
      List.map_nil, hclient, hserver]

/-- A credential that is sent again is accepted exactly if its timestamp leads back to its block. -/
theorem Tracks.replay (h : Tracks server chain key m tr) (hinj : Function.Injective (server.desCrypt112 key)) (k : Nat)
    (t : BitVec 32) :
    chain.LeadsBack m k t ∧ (tr.step server (.replay k t)).accepted = true ∨
      ¬ chain.LeadsBack m k t ∧ tr.step server (.replay k t) = tr := by
  obtain ⟨creds, hfetch, hplace, -⟩ := h.established
  cases hblock : (chain.blocks m)[k]? with
  | none =>
    have hseen : tr.seen[k]? = none := by rw [h.seen, List.getElem?_map, hblock, Option.map_none]
    exact .inr ⟨by rw [Chain.LeadsBack, hblock]; nofun, by simp only [Traffic.step, hseen]⟩
  | some block =>
    have hseen : tr.seen[k]? = some (server.desCrypt112 key block) := by
      rw [h.seen, List.getElem?_map, hblock, Option.map_some]
    have hstatus := (Channel.request_status
      (r := ⟨tr.channel.client.computerName, some ⟨server.desCrypt112 key block, t⟩, true⟩) hfetch)
    have hok := @credsServerStepCheck_ok server.toCiphers creds ⟨server.desCrypt112 key block, t⟩
    rw [← hplace.sessionKey, ← hplace.seed, h.sessionKey, h.seed, hinj.eq_iff, ival_sival_low, ival_sival_high,
      ← hstatus] at hok
    by_cases hback : block = sival (chain.seedLow m + t) (ival chain.seed 4)
    · refine .inl ⟨hblock.trans (congrArg some hback), ?_⟩
      simp only [Traffic.step, hseen, hok.mpr hback, decide_true, Bool.or_true]
    · have hrejected := mt hok.mp hback
      refine .inr ⟨fun hk => hback (Option.some.inj (hblock.symm.trans hk)), ?_⟩
      simp only [Traffic.step, hseen, Channel.request_rejected hrejected, Reply.credentials, if_neg hrejected,
        List.append_nil, decide_eq_false hrejected, Bool.or_false]

theorem step_accepted (h : tr.accepted = true) (e : WireEvent) : (tr.step server e).accepted = true := by
  cases e with
  | exchange => exact h
  | replay k t =>
    simp only [Traffic.step]
    cases tr.seen[k]? with
    | none => exact h
    | some cred => simp only [h, Bool.true_or]

theorem run_accepted (h : tr.accepted = true) (events : List WireEvent) :
    (events.foldl (Traffic.step server) tr).accepted = true := by
  induction events generalizing tr with
  | nil => exact h
  | cons e events ih => exact ih (step_accepted h e)

/-- Nothing that is sent again leads back to its block when it is sent. -/
def NeverBack (chain : Chain) (m : Nat) (events : List WireEvent) : Prop :=
  ∀ pre k t post, events = pre ++ .replay k t :: post → ¬ chain.LeadsBack (m + exchanges pre) k t

theorem neverBack_exchange {events : List WireEvent} :
    NeverBack chain m (.exchange :: events) ↔ NeverBack chain (m + 1) events := by
  constructor
  · intro h pre k t post hsplit
    have := h (.exchange :: pre) k t post (by rw [hsplit]; rfl)
    rwa [show m + exchanges (.exchange :: pre) = m + 1 + exchanges pre by simp [exchanges]; omega] at this
  · intro h pre k t post hsplit
    obtain - | ⟨e, pre⟩ := pre
    · cases hsplit
    · obtain ⟨rfl, htail⟩ := List.cons.inj hsplit
      have := h pre k t post htail
      rwa [show m + 1 + exchanges pre = m + exchanges (.exchange :: pre) by simp [exchanges]; omega] at this

theorem neverBack_replay {events : List WireEvent} {k : Nat} {t : BitVec 32} :
    NeverBack chain m (.replay k t :: events) ↔ ¬ chain.LeadsBack m k t ∧ NeverBack chain m events := by
  constructor
  · intro h
    refine ⟨h [] k t events rfl, fun pre k' t' post hsplit => ?_⟩
    have := h (.replay k t :: pre) k' t' post (by rw [hsplit]; rfl)
    rwa [show exchanges (.replay k t :: pre) = exchanges pre by simp [exchanges]] at this
  · rintro ⟨hback, h⟩ pre k' t' post hsplit
    obtain - | ⟨e, pre⟩ := pre
    · obtain ⟨he, -⟩ := List.cons.inj hsplit
      cases he
      exact hback
    · obtain ⟨rfl, htail⟩ := List.cons.inj hsplit
      have := h pre k' t' post htail
      rwa [show exchanges pre = exchanges (.replay k t :: pre) by simp [exchanges]] at this

/-- In a run, something that is sent again is accepted exactly if it leads back to its block when it is sent. -/
theorem Tracks.run (h : Tracks server chain key m tr) (hinj : Function.Injective (server.desCrypt112 key))
    (hnone : tr.accepted = false) (events : List WireEvent) :
    (events.foldl (Traffic.step server) tr).accepted = false ↔ NeverBack chain m events := by
  induction events generalizing m tr with
  | nil => exact ⟨fun _ pre k t post hsplit => absurd hsplit (by simp), fun _ => hnone⟩
  | cons e events ih =>
    cases e with
    | exchange => rw [List.foldl_cons, ih h.exchange hnone, neverBack_exchange]
    | replay k t =>
      rw [List.foldl_cons, neverBack_replay]
      obtain ⟨hback, haccepted⟩ | ⟨hback, hsame⟩ := h.replay hinj k t
      · rw [run_accepted haccepted]
        exact ⟨nofun, fun hn => absurd hback hn.1⟩
      · rw [hsame, ih h hnone]
        exact ⟨fun hn => ⟨hback, hn⟩, And.right⟩

theorem establish_tracks (server : Server) (setup : Setup) :
    Tracks server (setup.chain server) (setup.client server).1.sessionKey 0 (setup.traffic server) := by
  obtain ⟨hsequence, -, hclient, hserver⟩ := @credsInit_start server.toCiphers
    { setup.clientCreds with sequence := setup.now, negotiateFlags := setup.negotiateFlags }
    setup.clientChallenge setup.serverChallenge setup.machinePassword setup.negotiateFlags
  have hanswer : (setup.authenticate server).2.2 = (setup.client server).1.server := by
    rw [Setup.authenticate_eq]
    exact (setup.samePlace server).server.symm
  constructor
  · exact establish_established server setup
  · rfl
  · exact (sival_ival _).symm
  · exact congrArg (· + 2) hsequence
  · exact congrArg₂ (fun c s => [c, s]) hclient (hanswer.trans hserver)

/-- No credential that is sent again is accepted in a run exactly if none leads back to its block when it is sent. -/
theorem replays_rejected_iff (server : Server) (setup : Setup)
    (hinj : Function.Injective (server.desCrypt112 (setup.client server).1.sessionKey)) (events : List WireEvent) :
    (events.foldl (Traffic.step server) (setup.traffic server)).accepted = false ↔
      NeverBack (setup.chain server) 0 events :=
  (establish_tracks server setup).run hinj rfl events

theorem sampleServer_injective (key : BitVec 128) : Function.Injective (sampleServer.desCrypt112 key) := by
  intro a b h
  have hxor := congrArg (· ^^^ key.setWidth 64) h
  simpa only [sampleServer, BitVec.xor_assoc, BitVec.xor_self, BitVec.xor_zero] using hxor

/-- An exchange, its client credential again with another timestamp, and an exchange. -/
theorem replays_rejected_sample :
    ([.exchange, .replay 2 5, .exchange].foldl (Traffic.step sampleServer) (sampleSetup.traffic sampleServer)).accepted = false := by
  refine (replays_rejected_iff sampleServer sampleSetup (sampleServer_injective _) _).mpr
    (neverBack_exchange.mpr (neverBack_replay.mpr ⟨?_, ?_⟩))
  · decide
  · exact neverBack_exchange.mpr fun pre k t post hsplit => absurd hsplit (by simp)

/-- The server's last credential is accepted with the timestamp 0. -/
theorem replay_accepted :
    ¬ ∀ (server : Server) (setup : Setup),
      Function.Injective (server.desCrypt112 (setup.client server).1.sessionKey) →
        ∀ events : List WireEvent, (events.foldl (Traffic.step server) (setup.traffic server)).accepted = false := by
  intro h
  have := h sampleServer sampleSetup (sampleServer_injective _) [.exchange, .replay 3 0]
  exact absurd this (by decide)

end Samba.Auth
