/-
The call protocol of ctdb on one key (cluster/ctdb/common/ctdb_call.c, with ctdb_ltdb.c, ctdb.c and ctdb_daemon.c): the
record and the calls of each node, the packets that are queued, sent or deferred, and the handlers that take a packet. A
packet whose record is locked comes again later, which is as if it had not come. Locks, tdb and allocation do not fail.
-/
import Mathlib.Algebra.Ring.Int.Defs
import Mathlib.Algebra.Ring.Nat
import Mathlib.Logic.Function.Basic
import Samba.Lib.Transition

namespace Samba.Ctdb

open Function Transition

/-! ## Records, calls and packets -/

/-- The data of a record. -/
abbrev Data := List UInt8

/-- `struct ctdb_ltdb_header`, without the `rsn`, which no call reads or changes. -/
structure LtdbHeader (ν : Type) where
  dmaster : ν
  laccessor : ν
  lacount : Nat
  deriving DecidableEq, Repr

/-- `struct ctdb_call` on the key: the function, its argument, and `CTDB_IMMEDIATE_MIGRATION` of the flags. -/
structure CtdbCall where
  callId : Nat
  callData : List UInt8
  immediateMigration : Bool
  deriving DecidableEq, Repr

/-- The packets of the protocol, with `srcnode`, `destnode` and `reqid`. The results a `CTDB_REPLY_CALL` carries are for
the caller alone. -/
inductive Packet (ν : Type)
  | reqCall (src dest : ν) (reqid : Nat) (call : CtdbCall)
  | replyCall (src dest : ν) (reqid : Nat)
  | replyRedirect (src dest : ν) (reqid : Nat) (dmaster : ν)
  | reqDmaster (src dest : ν) (reqid : Nat) (dmaster : ν) (data : Data)
  | replyDmaster (src dest : ν) (reqid : Nat) (data : Data)
  deriving DecidableEq, Repr

/-- Where a packet goes. -/
def Packet.dest {ν : Type} : Packet ν → ν
  | .reqCall _ dest _ _ | .replyCall _ dest _ | .replyRedirect _ dest _ _ | .reqDmaster _ dest _ _ _
  | .replyDmaster _ dest _ _ => dest

/-- A packet that carries the record. -/
def Packet.carriesRecord {ν : Type} : Packet ν → Bool
  | .reqDmaster .. | .replyDmaster .. => true
  | _ => false

/-- `struct ctdb_call_state`. -/
structure CallState (ν : Type) where
  done : Bool
  call : CtdbCall
  redirectCount : Nat
  header : LtdbHeader ν
  deriving DecidableEq, Repr

/-- What a node has of the key: the record in its ltdb, the calls registered in its `idr`, and whether it is up. -/
structure Node (ν : Type) where
  record : Option (LtdbHeader ν × Data)
  calls : Nat → Option (CallState ν)
  up : Bool

/-- What the run has done with the record: a call that read some data and left some, or data stored from a packet. -/
inductive Event
  | executed (read left : Data)
  | installed (data : Data)
  deriving DecidableEq, Repr

/-- The cluster: `ctdb_lmaster` of the key, `max_lacount`, `CTDB_FLAG_SELF_CONNECT`, and the registered functions; a
function that fails or is not known gives `none`, one that leaves `new_data` alone `some none`. -/
structure Config (ν : Type) where
  lmaster : ν
  maxLacount : Nat
  selfConnect : Bool
  fn : CtdbCall → Data → Option (Option Data)

/-- What a handler leaves: the node, the packets it queues, and its part of the log. -/
structure Handled (ν : Type) where
  node : Node ν
  sent : List (Packet ν)
  log : List Event

def maxRedirect : Nat := 2

section Handlers

variable {ν : Type} [DecidableEq ν] (cfg : Config ν)

/-! ## The ltdb -/

/-- `ltdb_initial_header`. -/
def ltdbInitialHeader : LtdbHeader ν := ⟨cfg.lmaster, cfg.lmaster, 0⟩

/-- `ctdb_ltdb_store`. -/
def ctdbLtdbStore (node : Node ν) (header : LtdbHeader ν) (data : Data) : Node ν :=
  { node with record := some (header, data) }

/-- `ctdb_ltdb_fetch`: the header and the data; a record that is not there is stored. -/
def ctdbLtdbFetch (node : Node ν) : LtdbHeader ν × Data × Node ν :=
  match node.record with
  | some (header, data) => (header, data, node)
  | none => (ltdbInitialHeader cfg, [], ctdbLtdbStore node (ltdbInitialHeader cfg) [])

/-! ## Calls -/

/-- `ctdb_call_local` at node `vnn`. -/
def ctdbCallLocal (vnn : ν) (node : Node ν) (call : CtdbCall) (header : LtdbHeader ν) (data : Data) (caller : ν) :
    Node ν × LtdbHeader ν × Event :=
  match cfg.fn call data with
  | none => (node, header, .executed data data)
  | some newData =>
    let lacount := if header.laccessor ≠ caller then 0 else header.lacount
    let header := { header with laccessor := caller, lacount := (lacount + 1) % 2 ^ 32 }
    -- a remote access is written out, so that the lacount is updated
    let newData := if newData = none ∧ header.laccessor ≠ vnn then some data else newData
    match newData with
    | none => (node, header, .executed data data)
    | some newData => (ctdbLtdbStore node header newData, header, .executed data newData)

/-- `ctdb_call_send_dmaster`: the record goes to the lmaster, which passes it on. -/
def ctdbCallSendDmaster (vnn : ν) (node : Node ν) (src : ν) (reqid : Nat) (header : LtdbHeader ν) (data : Data) :
    Handled ν :=
  { node := ctdbLtdbStore node { header with dmaster := cfg.lmaster } data
    sent := [.reqDmaster vnn cfg.lmaster reqid src data]
    log := [] }

/-- `ctdb_request_call`. -/
def ctdbRequestCall (vnn : ν) (node : Node ν) (src : ν) (reqid : Nat) (call : CtdbCall) : Handled ν :=
  let (header, data, node) := ctdbLtdbFetch cfg node
  if header.dmaster ≠ vnn then ⟨node, [.replyRedirect vnn src reqid header.dmaster], []⟩
  else if (header.laccessor = src ∧ cfg.maxLacount ≤ header.lacount) ∨ call.immediateMigration then
    ctdbCallSendDmaster cfg vnn node src reqid header data
  else
    let (node, _, event) := ctdbCallLocal cfg vnn node call header data src
    ⟨node, [.replyCall vnn src reqid], [event]⟩

/-- `ctdb_request_dmaster`. A request from a node that is not the dmaster is fatal: the node goes down. -/
def ctdbRequestDmaster (vnn : ν) (node : Node ν) (src : ν) (reqid : Nat) (dmaster : ν) (data : Data) : Handled ν :=
  let (header, _, node) := ctdbLtdbFetch cfg node
  if header.dmaster ≠ src ∧ src ≠ cfg.lmaster then ⟨{ node with up := false }, [], []⟩
  else
    { node := ctdbLtdbStore node { header with dmaster := dmaster } data
      sent := [.replyDmaster vnn dmaster reqid data]
      log := [.installed data] }

/-- `ctdb_reply_call`. -/
def ctdbReplyCall (node : Node ν) (reqid : Nat) : Handled ν :=
  match node.calls reqid with
  | none => ⟨node, [], []⟩
  | some state => ⟨{ node with calls := update node.calls reqid (some { state with done := true }) }, [], []⟩

/-- `ctdb_reply_dmaster`. -/
def ctdbReplyDmaster (vnn : ν) (node : Node ν) (reqid : Nat) (data : Data) : Handled ν :=
  match node.calls reqid with
  | none => ⟨node, [], []⟩
  | some state =>
    -- we're now the dmaster - update our local ltdb with new header and data
    let header := { state.header with dmaster := vnn }
    let node := ctdbLtdbStore node header data
    let (node, header, event) := ctdbCallLocal cfg vnn node state.call header data vnn
    { node := { node with calls := update node.calls reqid (some { state with done := true, header := header }) }
      sent := []
      log := [.installed data, event] }

/-- `ctdb_reply_redirect`. -/
def ctdbReplyRedirect (vnn : ν) (node : Node ν) (reqid : Nat) (dmaster : ν) : Handled ν :=
  match node.calls reqid with
  | none => ⟨node, [], []⟩
  | some state =>
    -- don't allow for too many redirects
    let dmaster := if state.redirectCount = maxRedirect then cfg.lmaster else dmaster
    let state := { state with redirectCount := state.redirectCount + 1 }
    { node := { node with calls := update node.calls reqid (some state) }
      sent := [.reqCall vnn dmaster reqid state.call]
      log := [] }

/-- `ctdb_recv_pkt`. -/
def ctdbRecvPkt (vnn : ν) (node : Node ν) : Packet ν → Handled ν
  | .reqCall src _ reqid call => ctdbRequestCall cfg vnn node src reqid call
  | .replyCall _ _ reqid => ctdbReplyCall node reqid
  | .replyRedirect _ _ reqid dmaster => ctdbReplyRedirect cfg vnn node reqid dmaster
  | .reqDmaster src _ reqid dmaster data => ctdbRequestDmaster cfg vnn node src reqid dmaster data
  | .replyDmaster _ _ reqid data => ctdbReplyDmaster cfg vnn node reqid data

/-- `ctdb_daemon_call_send_remote`. The id `reqid` is the one that `idr_get_new` has found, and -1 when it found none. -/
def ctdbDaemonCallSendRemote (vnn : ν) (node : Node ν) (call : CtdbCall) (header : LtdbHeader ν) (reqid : Nat) : Handled ν :=
  let state : CallState ν := ⟨false, call, 0, header⟩
  { node := if reqid ≤ 0xFFFF then { node with calls := update node.calls reqid (some state) } else node
    sent := [.reqCall vnn header.dmaster reqid call]
    log := [] }

/-- `daemon_request_call_from_client`. -/
def daemonRequestCallFromClient (vnn : ν) (node : Node ν) (call : CtdbCall) (reqid : Nat) : Handled ν :=
  let (header, data, node) := ctdbLtdbFetch cfg node
  if header.dmaster = vnn ∧ !cfg.selfConnect then
    let (node, _, event) := ctdbCallLocal cfg vnn node call header data vnn
    ⟨node, [], [event]⟩
  else ctdbDaemonCallSendRemote vnn node call header reqid

/-- The ids that `idr_get_new` may find. -/
def FreshId (calls : Nat → Option (CallState ν)) (reqid : Nat) : Prop :=
  (reqid ≤ 0xFFFF ∧ calls reqid = none) ∨ ((∀ i ≤ 0xFFFF, (calls i).isSome) ∧ reqid = 0xFFFFFFFF)

/-! ## Runs -/

/-- The nodes, the packets that are queued, sent or deferred, and the log. -/
structure Cluster (ν : Type) where
  nodes : ν → Node ν
  packets : List (Packet ν)
  log : List Event

/-- What happens next: a packet comes in, a client of a node makes a call, the state of a call that is done is freed, or
that of a call that has timed out or whose client has gone. -/
inductive Action (ν : Type)
  | deliver (p : Packet ν)
  | clientCall (n : ν) (call : CtdbCall) (reqid : Nat)
  | callDone (n : ν) (reqid : Nat)
  | callTimeout (n : ν) (reqid : Nat)

/-- The cluster after a handler has run at node `n`, with the packets that were left before. -/
def Cluster.after (s : Cluster ν) (n : ν) (r : Handled ν) (packets : List (Packet ν)) : Cluster ν :=
  { nodes := update s.nodes n r.node, packets := r.sent ++ packets, log := s.log ++ r.log }

/-- `ctdb_call_destructor`. -/
def Cluster.free (s : Cluster ν) (n : ν) (reqid : Nat) : Cluster ν :=
  let node := s.nodes n
  { s with nodes := update s.nodes n { node with calls := update node.calls reqid none } }

/-- The steps of the cluster. -/
inductive Step : Cluster ν → Action ν → Cluster ν → Prop
  | deliver {s : Cluster ν} {p : Packet ν} : p ∈ s.packets → (s.nodes p.dest).up →
      Step s (.deliver p) (s.after p.dest (ctdbRecvPkt cfg p.dest (s.nodes p.dest) p) (s.packets.erase p))
  | clientCall {s : Cluster ν} {n : ν} {call : CtdbCall} {reqid : Nat} : (s.nodes n).up → FreshId (s.nodes n).calls reqid →
      Step s (.clientCall n call reqid) (s.after n (daemonRequestCallFromClient cfg n (s.nodes n) call reqid) s.packets)
  | callDone {s : Cluster ν} {n : ν} {reqid : Nat} {state : CallState ν} : (s.nodes n).calls reqid = some state →
      state.done → Step s (.callDone n reqid) (s.free n reqid)
  | callTimeout {s : Cluster ν} {n : ν} {reqid : Nat} {state : CallState ν} : (s.nodes n).calls reqid = some state →
      Step s (.callTimeout n reqid) (s.free n reqid)

/-- No node has the record, and nothing is under way. -/
def initialCluster : Cluster ν := ⟨fun _ => ⟨none, fun _ => none, true⟩, [], []⟩

/-- The cluster, as far as its steps meet a condition. -/
def clusterSystem (cond : Cluster ν → Action ν → Prop) : System (Cluster ν) (Action ν) where
  init s := s = initialCluster
  step s a s' := cond s a ∧ Step cfg s a s'

end Handlers

end Samba.Ctdb
