/-
Who has the record: each node's idea of the dmaster and its copy of the data, and the packets that carry the record from
one node to another. The steps of this abstraction are what the handlers do to it.
-/
import Mathlib.Data.Multiset.AddSub
import Samba.Ctdb.Call

namespace Samba.Ctdb

open Transition

/-! ## Custody of a record -/

/-- What a node's ltdb says of the record. -/
structure View (ν : Type) where
  dmaster : ν
  data : Data
  deriving DecidableEq, Repr

/-- A record on its way: to the lmaster, from the node that gives it up and for the next dmaster, or to its new dmaster. -/
inductive Token (ν : Type)
  | req (src dmaster : ν) (data : Data)
  | reply (dest : ν) (data : Data)
  deriving DecidableEq, Repr

/-- The record in the cluster. -/
structure Custody (ν : Type) where
  views : ν → View ν
  tokens : Multiset (Token ν)
  log : List Event

/-- What can happen to the record. -/
inductive Move (ν : Type)
  | keep | run (n : ν) | give (n : ν) | pass | refuse | accept | drop
  deriving DecidableEq, Repr

section

variable {ν : Type}

/-! ## What the handlers do to it -/

variable (cfg : Config ν)

def Node.view (node : Node ν) : View ν :=
  match node.record with
  | some (header, data) => ⟨header.dmaster, data⟩
  | none => ⟨cfg.lmaster, []⟩

/-- The token that a packet carries, if any. -/
def Packet.token : Packet ν → Option (Token ν)
  | .reqDmaster src _ _ dmaster data => some (.req src dmaster data)
  | .replyDmaster _ dest _ data => some (.reply dest data)
  | _ => none

/-- The tokens in flight. -/
def tokens (packets : List (Packet ν)) : Multiset (Token ν) := (packets.filterMap Packet.token : List (Token ν))

/-- The custody of the record in a state of the cluster. -/
def Cluster.custody (s : Cluster ν) : Custody ν := ⟨fun n => (s.nodes n).view cfg, tokens s.packets, s.log⟩

/-- A handler does nothing to the record. -/
structure Keeps (view : View ν) (r : Handled ν) : Prop where
  view : r.node.view cfg = view
  sent : tokens r.sent = 0
  log : r.log = []

/-- What a call does at node `n`: nothing to the record, it runs, or the record is given away. -/
inductive CallMove (n : ν) (view : View ν) (r : Handled ν) : Prop
  | keep (h : Keeps cfg view r)
  | run (hmaster : view.dmaster = n) (left : Data) (hview : r.node.view cfg = ⟨n, left⟩) (hsent : tokens r.sent = 0)
      (hlog : r.log = [.executed view.data left])
  | give (hmaster : view.dmaster = n) (d : ν) (hview : r.node.view cfg = ⟨cfg.lmaster, view.data⟩)
      (hsent : tokens r.sent = {.req n d view.data}) (hlog : r.log = [])

variable {cfg}

variable (cfg) in
/-- Fetching gives the view of the node and does not change it. -/
theorem ctdbLtdbFetch_view (node : Node ν) : ∃ header node', ctdbLtdbFetch cfg node = (header, (node.view cfg).data, node') ∧
    header.dmaster = (node.view cfg).dmaster ∧ node'.view cfg = node.view cfg ∧ node'.calls = node.calls := by
  obtain ⟨record, calls, up⟩ := node
  rcases record with _ | ⟨header, data⟩
  · exact ⟨_, _, rfl, rfl, rfl, rfl⟩
  · exact ⟨_, _, rfl, rfl, rfl, rfl⟩

theorem tokens_append (ps qs : List (Packet ν)) : tokens (ps ++ qs) = tokens ps + tokens qs := by
  rw [tokens, List.filterMap_append, ← Multiset.coe_add, tokens, tokens]

theorem tokens_perm {ps qs : List (Packet ν)} (h : ps.Perm qs) : tokens ps = tokens qs :=
  Multiset.coe_eq_coe.mpr (h.filterMap _)

variable {packets : List (Packet ν)} {data : Data} {p : Packet ν} {s : Cluster ν}

theorem token_mem_tokens {t : Token ν} (h : t ∈ tokens packets) : ∃ p ∈ packets, p.carriesRecord := by
  obtain ⟨p, hp, htoken⟩ := List.mem_filterMap.mp (Multiset.mem_coe.mp h)
  refine ⟨p, hp, ?_⟩
  cases p with
  | reqDmaster => rfl
  | replyDmaster => rfl
  | reqCall => cases htoken
  | replyCall => cases htoken
  | replyRedirect => cases htoken

theorem ctdbReplyCall_keeps (node : Node ν) (reqid : Nat) : Keeps cfg (node.view cfg) (ctdbReplyCall node reqid) := by
  unfold ctdbReplyCall
  split <;> exact ⟨rfl, rfl, rfl⟩

theorem ctdbReplyRedirect_keeps (n : ν) (node : Node ν) (reqid : Nat) (dmaster : ν) :
    Keeps cfg (node.view cfg) (ctdbReplyRedirect cfg n node reqid dmaster) := by
  unfold ctdbReplyRedirect
  split <;> exact ⟨rfl, rfl, rfl⟩

variable [DecidableEq ν]

/-- A call that runs reads the data it is given; at a node that holds them it leaves the node with what it logs. -/
theorem ctdbCallLocal_view (vnn : ν) {node : Node ν} (call : CtdbCall) {header : LtdbHeader ν} (caller : ν)
    (hview : node.view cfg = ⟨header.dmaster, data⟩) :
    ∃ left header' node', ctdbCallLocal cfg vnn node call header data caller = (node', header', .executed data left) ∧
      node'.view cfg = ⟨header.dmaster, left⟩ := by
  unfold ctdbCallLocal
  rcases cfg.fn call data with _ | newData
  · exact ⟨data, _, _, rfl, hview⟩
  · dsimp only
    generalize (if newData = none ∧ caller ≠ vnn then some data else newData) = written
    rcases written with _ | left
    · exact ⟨data, _, _, rfl, hview⟩
    · exact ⟨left, _, _, rfl, rfl⟩

/-- Taking out a packet that carries the record takes out its token. -/
theorem tokens_erase (hp : p ∈ packets) : tokens packets = tokens [p] + tokens (packets.erase p) := by
  rw [tokens_perm (List.perm_cons_erase hp), ← tokens_append]
  rfl

theorem tokens_erase_none (hp : p ∈ packets) (htoken : p.token = none) :
    tokens (packets.erase p) = tokens packets := by
  have hnone : tokens [p] = 0 := by
    rw [tokens, List.filterMap_cons_none htoken]
    rfl
  rw [tokens_erase hp, hnone, Multiset.zero_add]

theorem tokens_erase_some {t : Token ν} (hp : p ∈ packets)
    (htoken : p.token = some t) : tokens packets = t ::ₘ tokens (packets.erase p) := by
  have hsome : tokens [p] = {t} := by
    rw [tokens, List.filterMap_cons_some htoken]
    rfl
  rw [tokens_erase hp, hsome, Multiset.singleton_add]

theorem ctdbRequestCall_move (n : ν) (node : Node ν) (src : ν) (reqid : Nat) (call : CtdbCall) :
    CallMove cfg n (node.view cfg) (ctdbRequestCall cfg n node src reqid call) := by
  obtain ⟨header, node', hfetch, hmaster, hview, -⟩ := ctdbLtdbFetch_view cfg node
  simp only [ctdbRequestCall, hfetch]
  split_ifs with hother hmigrate
  · exact .keep ⟨hview, rfl, rfl⟩
  · have hmine : header.dmaster = n := not_not.mp hother
    exact .give (hmaster ▸ hmine) src rfl rfl rfl
  · have hmine : header.dmaster = n := not_not.mp hother
    obtain ⟨left, header', node'', hcall, hleft⟩ := ctdbCallLocal_view n call src (hview.trans (by rw [hmaster]))
    simp only [hcall]
    exact .run (hmaster ▸ hmine) left (by rw [hleft, hmine]) rfl rfl

theorem daemonRequestCallFromClient_move (n : ν) (node : Node ν) (call : CtdbCall) (reqid : Nat) :
    CallMove cfg n (node.view cfg) (daemonRequestCallFromClient cfg n node call reqid) := by
  obtain ⟨header, node', hfetch, hmaster, hview, -⟩ := ctdbLtdbFetch_view cfg node
  simp only [daemonRequestCallFromClient, hfetch]
  split_ifs with hmine
  · obtain ⟨left, header', node'', hcall, hleft⟩ := ctdbCallLocal_view n call n (hview.trans (by rw [hmaster]))
    simp only [hcall]
    exact .run (hmaster ▸ hmine.1) left (by rw [hleft, hmine.1]) rfl rfl
  · refine .keep ⟨?_, rfl, rfl⟩
    unfold ctdbDaemonCallSendRemote
    split_ifs <;> exact hview

/-- With `CTDB_FLAG_SELF_CONNECT` the calls of clients are packets too. -/
theorem daemonRequestCallFromClient_keeps (hself : cfg.selfConnect = true) (n : ν) (node : Node ν) (call : CtdbCall)
    (reqid : Nat) : Keeps cfg (node.view cfg) (daemonRequestCallFromClient cfg n node call reqid) := by
  obtain ⟨header, node', hfetch, -, hview, -⟩ := ctdbLtdbFetch_view cfg node
  simp only [daemonRequestCallFromClient, hfetch, hself, ctdbDaemonCallSendRemote, Bool.not_true, Bool.false_eq_true,
    and_false, if_false]
  refine ⟨?_, rfl, rfl⟩
  dsimp only
  split_ifs <;> exact hview

/-- A request for the dmaster role at the lmaster is passed on, or refused when it does not come from the dmaster. -/
theorem ctdbRequestDmaster_view (node : Node ν) (src : ν) (reqid : Nat) (dmaster : ν) (data : Data) :
    let r := ctdbRequestDmaster cfg cfg.lmaster node src reqid dmaster data
    (((node.view cfg).dmaster = src ∨ src = cfg.lmaster) ∧ r.node.view cfg = ⟨dmaster, data⟩ ∧
        tokens r.sent = {.reply dmaster data} ∧ r.log = [.installed data]) ∨
      ((node.view cfg).dmaster ≠ src ∧ src ≠ cfg.lmaster ∧ Keeps cfg (node.view cfg) r) := by
  obtain ⟨header, node', hfetch, hmaster, hview, -⟩ := ctdbLtdbFetch_view cfg node
  simp only [ctdbRequestDmaster, hfetch, ← hmaster]
  split_ifs with hrefused
  · exact .inr ⟨hrefused.1, hrefused.2, ⟨hview, rfl, rfl⟩⟩
  · refine .inl ⟨?_, rfl, rfl, rfl⟩
    by_contra hnone
    exact hrefused (not_or.mp hnone)

/-- A reply that gives a node the dmaster role is taken when its call is there. -/
theorem ctdbReplyDmaster_view (n : ν) (node : Node ν) (reqid : Nat) (data : Data) :
    let r := ctdbReplyDmaster cfg n node reqid data
    ((node.calls reqid).isSome ∧ ∃ left, r.node.view cfg = ⟨n, left⟩ ∧ tokens r.sent = 0 ∧
        r.log = [.installed data, .executed data left]) ∨
      (¬(node.calls reqid).isSome ∧ Keeps cfg (node.view cfg) r) := by
  unfold ctdbReplyDmaster
  rcases hcall : node.calls reqid with _ | state
  · exact .inr ⟨by simp, rfl, rfl, rfl⟩
  · dsimp only
    set header : LtdbHeader ν := { state.header with dmaster := n }
    have hstored : (ctdbLtdbStore node header data).view cfg = ⟨header.dmaster, data⟩ := rfl
    obtain ⟨left, header', node', hlocal, hleft⟩ := ctdbCallLocal_view n state.call n hstored
    simp only [hlocal]
    exact .inl ⟨rfl, left, hleft, rfl, rfl⟩

/-! ## The cluster moves the record as the abstraction does -/

/-- The moves, with a given lmaster. -/
inductive Custody.Step (lmaster : ν) : Custody ν → Move ν → Custody ν → Prop
  | keep {c : Custody ν} : Custody.Step lmaster c .keep c
  | run {c : Custody ν} {n : ν} {left : Data} : (c.views n).dmaster = n → Custody.Step lmaster c (.run n)
      { c with
        views := Function.update c.views n ⟨n, left⟩
        log := c.log ++ [.executed (c.views n).data left] }
  | give {c : Custody ν} {n d : ν} : (c.views n).dmaster = n → Custody.Step lmaster c (.give n)
      { c with
        views := Function.update c.views n ⟨lmaster, (c.views n).data⟩
        tokens := .req n d (c.views n).data ::ₘ c.tokens }
  | pass {c : Custody ν} {src d : ν} {data : Data} {rest : Multiset (Token ν)} : c.tokens = .req src d data ::ₘ rest →
      ((c.views lmaster).dmaster = src ∨ src = lmaster) → Custody.Step lmaster c .pass
      { views := Function.update c.views lmaster ⟨d, data⟩
        tokens := .reply d data ::ₘ rest
        log := c.log ++ [.installed data] }
  | refuse {c : Custody ν} {src d : ν} {data : Data} {rest : Multiset (Token ν)} : c.tokens = .req src d data ::ₘ rest →
      (c.views lmaster).dmaster ≠ src → src ≠ lmaster → Custody.Step lmaster c .refuse { c with tokens := rest }
  | accept {c : Custody ν} {d : ν} {data left : Data} {rest : Multiset (Token ν)} : c.tokens = .reply d data ::ₘ rest →
      Custody.Step lmaster c .accept
      { views := Function.update c.views d ⟨d, left⟩
        tokens := rest
        log := c.log ++ [.installed data, .executed data left] }
  | drop {c : Custody ν} {d : ν} {data : Data} {rest : Multiset (Token ν)} : c.tokens = .reply d data ::ₘ rest →
      Custody.Step lmaster c .drop { c with tokens := rest }

theorem custody_after (s : Cluster ν) (n : ν) (r : Handled ν) (packets : List (Packet ν)) :
    (s.after n r packets).custody cfg =
      ⟨Function.update (s.custody cfg).views n (r.node.view cfg), tokens r.sent + tokens packets, s.log ++ r.log⟩ := by
  have hviews : (fun k => (Function.update s.nodes n r.node k).view cfg) =
      Function.update (s.custody cfg).views n (r.node.view cfg) := by
    funext k
    by_cases hk : k = n
    · subst hk
      simp only [Function.update_self]
    · simp only [Function.update_of_ne hk, Cluster.custody]
  rw [Cluster.custody, Cluster.after, hviews, tokens_append]

theorem custody_keep {n : ν} {r : Handled ν} (h : Keeps cfg ((s.nodes n).view cfg) r) :
    (s.after n r packets).custody cfg = { s.custody cfg with tokens := tokens packets } := by
  have hviews : Function.update (s.custody cfg).views n ((s.nodes n).view cfg) = (s.custody cfg).views :=
    Function.update_eq_self _ _
  rw [custody_after, h.view, hviews, h.sent, h.log, Multiset.zero_add, List.append_nil]
  rfl

theorem callMove_step {n : ν} {r : Handled ν}
    (hpackets : tokens packets = tokens s.packets) (h : CallMove cfg n ((s.nodes n).view cfg) r) :
    ∃ m, Custody.Step cfg.lmaster (s.custody cfg) m ((s.after n r packets).custody cfg) ∧
      (m = .keep ∨ ((s.nodes n).view cfg).dmaster = n ∧ (m = .run n ∨ m = .give n)) := by
  cases h with
  | keep h =>
    refine ⟨.keep, ?_, .inl rfl⟩
    rw [custody_keep h, hpackets]
    exact .keep
  | run hmaster left hview hsent hlog =>
    refine ⟨.run n, ?_, .inr ⟨hmaster, .inl rfl⟩⟩
    rw [custody_after, hview, hsent, hlog, hpackets, Multiset.zero_add]
    exact .run (c := s.custody cfg) hmaster
  | give hmaster d hview hsent hlog =>
    refine ⟨.give n, ?_, .inr ⟨hmaster, .inr rfl⟩⟩
    rw [custody_after, hview, hsent, hlog, hpackets, List.append_nil]
    exact .give (c := s.custody cfg) hmaster

/-- A call comes to a node that has the record: in a packet, or from a client. -/
def CallsMaster (cfg : Config ν) (s : Cluster ν) (a : Action ν) (n : ν) : Prop :=
  ((s.nodes n).view cfg).dmaster = n ∧ ((∃ src reqid call, a = .deliver (.reqCall src n reqid call)) ∨
    (cfg.selfConnect = false ∧ ∃ call reqid, a = .clientCall n call reqid))

/-- A `CTDB_REPLY_DMASTER` finds its call registered at the node it comes to. -/
def FindsCall (s : Cluster ν) (a : Action ν) : Prop :=
  ∀ src dest reqid data, a = .deliver (.replyDmaster src dest reqid data) → ((s.nodes dest).calls reqid).isSome

/-- Requests for the dmaster role go to the lmaster. -/
def ToLmaster (cfg : Config ν) (s : Cluster ν) : Prop :=
  ∀ src dest reqid d data, Packet.reqDmaster src dest reqid d data ∈ s.packets → dest = cfg.lmaster

theorem ctdbRecvPkt_sent (vnn : ν) (node : Node ν) (p : Packet ν) {src dest d : ν} {reqid : Nat}
    (h : Packet.reqDmaster src dest reqid d data ∈ (ctdbRecvPkt cfg vnn node p).sent) : dest = cfg.lmaster := by
  cases p with
  | reqCall src' dest' reqid' call =>
    simp only [ctdbRecvPkt, ctdbRequestCall, ctdbCallSendDmaster] at h
    split_ifs at h <;> simp at h
    exact h.2.1
  | replyCall src' dest' reqid' =>
    simp only [ctdbRecvPkt, ctdbReplyCall] at h
    split at h <;> simp at h
  | replyRedirect src' dest' reqid' dmaster =>
    simp only [ctdbRecvPkt, ctdbReplyRedirect] at h
    split at h <;> simp at h
  | reqDmaster src' dest' reqid' dmaster data' =>
    simp only [ctdbRecvPkt, ctdbRequestDmaster] at h
    split_ifs at h <;> simp at h
  | replyDmaster src' dest' reqid' data' =>
    simp only [ctdbRecvPkt, ctdbReplyDmaster] at h
    split at h <;> simp at h

theorem daemonRequestCallFromClient_sent (vnn : ν) (node : Node ν) (call : CtdbCall) (id : Nat) {src dest d : ν}
    {reqid : Nat}
    (h : Packet.reqDmaster src dest reqid d data ∈ (daemonRequestCallFromClient cfg vnn node call id).sent) : False := by
  simp only [daemonRequestCallFromClient, ctdbDaemonCallSendRemote] at h
  split_ifs at h <;> simp at h

theorem step_toLmaster {s' : Cluster ν} {a : Action ν} (hdest : ToLmaster cfg s) (h : Step cfg s a s') :
    ToLmaster cfg s' := by
  intro src dest reqid d data hmem
  cases h with
  | deliver hp hup =>
    rcases List.mem_append.mp hmem with hmem | hmem
    · exact ctdbRecvPkt_sent _ _ _ hmem
    · exact hdest src dest reqid d data (List.mem_of_mem_erase hmem)
  | clientCall hup hfresh =>
    rcases List.mem_append.mp hmem with hmem | hmem
    · exact (daemonRequestCallFromClient_sent _ _ _ _ hmem).elim
    · exact hdest src dest reqid d data hmem
  | callDone => exact hdest src dest reqid d data hmem
  | callTimeout => exact hdest src dest reqid d data hmem

theorem custody_free (s : Cluster ν) (n : ν) (reqid : Nat) : (s.free n reqid).custody cfg = s.custody cfg := by
  have hviews : (fun k => ((s.free n reqid).nodes k).view cfg) = fun k => (s.nodes k).view cfg := by
    funext k
    unfold Cluster.free
    by_cases hk : k = n
    · subst hk
      simp only [Function.update_self]
      rfl
    · simp only [Function.update_of_ne hk]
  rw [Cluster.custody, hviews]
  rfl


/-- Each step of the cluster is a move of the record: calls run and give away only where the record is, and it is dropped
only by a reply that does not find its call. -/
theorem step_custody {s' : Cluster ν} {a : Action ν} (hdest : ToLmaster cfg s) (h : Step cfg s a s') :
    ∃ m, Custody.Step cfg.lmaster (s.custody cfg) m (s'.custody cfg) ∧
      (∀ n, m = .run n ∨ m = .give n → CallsMaster cfg s a n) ∧ (m = .drop → ¬FindsCall s a) := by
  cases h with
  | @deliver p hp hup =>
    cases p with
    | reqCall src dest reqid call =>
      obtain ⟨m, hstep, hm⟩ := callMove_step (tokens_erase_none hp rfl)
        (ctdbRequestCall_move dest (s.nodes dest) src reqid call)
      refine ⟨m, hstep, fun n hn => ?_, fun hdrop => by simp [hdrop] at hm⟩
      rcases hm with rfl | ⟨hmaster, hm⟩
      · simp at hn
      · obtain rfl : dest = n := by rcases hm with rfl | rfl <;> simpa using hn
        exact ⟨hmaster, .inl ⟨src, reqid, call, rfl⟩⟩
    | replyCall src dest reqid =>
      refine ⟨.keep, ?_, by simp, by simp⟩
      simp only [Packet.dest, ctdbRecvPkt]
      rw [custody_keep (ctdbReplyCall_keeps (s.nodes dest) reqid), tokens_erase_none hp rfl]
      exact .keep
    | replyRedirect src dest reqid dmaster =>
      refine ⟨.keep, ?_, by simp, by simp⟩
      simp only [Packet.dest, ctdbRecvPkt]
      rw [custody_keep (ctdbReplyRedirect_keeps dest (s.nodes dest) reqid dmaster), tokens_erase_none hp rfl]
      exact .keep
    | reqDmaster src dest reqid dmaster data =>
      have htokens := tokens_erase_some (t := .req src dmaster data) hp rfl
      obtain rfl : dest = cfg.lmaster := hdest src dest reqid dmaster data hp
      rcases ctdbRequestDmaster_view (s.nodes cfg.lmaster) src reqid dmaster data with
        ⟨hfrom, hview, hsent, hlog⟩ | ⟨hother, hsrc, hkeeps⟩
      · refine ⟨.pass, ?_, by simp, by simp⟩
        simp only [Packet.dest, ctdbRecvPkt]
        rw [custody_after, hview, hsent, hlog, Multiset.singleton_add]
        exact .pass (c := s.custody cfg) htokens hfrom
      · refine ⟨.refuse, ?_, by simp, by simp⟩
        simp only [Packet.dest, ctdbRecvPkt]
        rw [custody_keep hkeeps]
        exact .refuse (c := s.custody cfg) htokens hother hsrc
    | replyDmaster src dest reqid data =>
      have htokens := tokens_erase_some (t := .reply dest data) hp rfl
      rcases ctdbReplyDmaster_view dest (s.nodes dest) reqid data with ⟨-, left, hview, hsent, hlog⟩ | ⟨hnone, hkeeps⟩
      · refine ⟨.accept, ?_, by simp, by simp⟩
        simp only [Packet.dest, ctdbRecvPkt]
        rw [custody_after, hview, hsent, hlog, Multiset.zero_add]
        exact .accept (c := s.custody cfg) htokens
      · refine ⟨.drop, ?_, by simp, fun _ hfinds => hnone (hfinds src dest reqid data rfl)⟩
        simp only [Packet.dest, ctdbRecvPkt]
        rw [custody_keep hkeeps]
        exact .drop (c := s.custody cfg) htokens
  | @clientCall n call reqid hup hfresh =>
    by_cases hself : cfg.selfConnect = true
    · refine ⟨.keep, ?_, by simp, by simp⟩
      rw [custody_keep (daemonRequestCallFromClient_keeps hself n (s.nodes n) call reqid)]
      exact .keep
    · obtain ⟨m, hstep, hm⟩ := callMove_step (s := s) rfl (daemonRequestCallFromClient_move n (s.nodes n) call reqid)
      refine ⟨m, hstep, fun k hk => ?_, fun hdrop => by simp [hdrop] at hm⟩
      rcases hm with rfl | ⟨hmaster, hm⟩
      · simp at hk
      · obtain rfl : n = k := by rcases hm with rfl | rfl <;> simpa using hk
        exact ⟨hmaster, .inr ⟨by simpa using hself, call, reqid, rfl⟩⟩
  | callDone hcall hdone =>
    refine ⟨.keep, ?_, by simp, by simp⟩
    rw [custody_free]
    exact .keep
  | callTimeout hcall =>
    refine ⟨.keep, ?_, by simp, by simp⟩
    rw [custody_free]
    exact .keep

end

end Samba.Ctdb
