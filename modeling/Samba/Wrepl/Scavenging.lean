/-
The verification of replica records (wrepl_server/wrepl_scavenging.c): an expired replica is held while its owner is asked for
it, and the reply modifies or deletes the record of that name, whatever it has become by then.
-/
import Samba.Lib.Transition
import Samba.Wrepl.ApplyRecords

namespace Samba.Wrepl

open CString Option Transition

/-! ## Calls of the database -/

/-- A call that changes a record of the database. -/
inductive WinsdbCall
  | add (record : WinsdbRecord) (flags : WinsdbFlags)
  | modify (record : WinsdbRecord) (flags : WinsdbFlags)
  | delete (name : NbtName)
  deriving DecidableEq, Repr

/-- `winsdb_delete`. -/
def winsdbDelete (db : Winsdb) (name : NbtName) : Option Winsdb :=
  if (db.records name).isNone then none
  else some { db with records := fun n => if n = name then none else db.records n }

namespace WinsdbCall

/-- What a call makes of the database; `none` is `NBT_RCODE_SVR`. -/
def run (h : WinsdbHandle) (db : Winsdb) : WinsdbCall → Option Winsdb
  | .add record flags => winsdbAdd h db record flags
  | .modify record flags => winsdbModify h db record flags
  | .delete name => winsdbDelete db name

/-- The database after a call, whether it worked or not. -/
def after (h : WinsdbHandle) (db : Winsdb) (call : WinsdbCall) : Winsdb := (call.run h db).getD db

/-- The name of the record that a call is about. -/
def name : WinsdbCall → NbtName
  | .add record _ => record.name
  | .modify record _ => record.name
  | .delete name => name

/-- The message that a call stores, if it works. -/
def stores (h : WinsdbHandle) (db : Winsdb) : WinsdbCall → Option WinsdbMessage
  | .add record flags => (prepareRecord h db record flags).map fun p => winsdbMessage p.1
  | .modify record flags => (prepareRecord h db record flags).map fun p => winsdbMessage p.1
  | .delete _ => none

end WinsdbCall

/-- The version and the owner that a stored record reads as. -/
def stampOf (h : WinsdbHandle) (msg : WinsdbMessage) : Nat × Text := ((msg.decode h).version, (msg.decode h).winsOwner)

/-- The version and the owner of a record that was read. -/
def WinsdbRecord.stamp (record : WinsdbRecord) : Nat × Text := (record.version, record.winsOwner)

/-! ## The verification -/

/-- The timeouts of `service->config`. -/
structure ScavengingConfig where
  tombstoneTimeout : Nat
  verifyInterval : Nat
  deriving DecidableEq, Repr

/-- What `irpc_call_recv` returns, with the addresses of the reply. -/
inductive VerifyReply
  | ok (addrs : List Text)
  | objectNameNotFound
  | error
  deriving DecidableEq, Repr

/-- The text `255.255.255.255`, the address of a group. -/
def groupAddress : Text := "255.255.255.255".toList.map chr

/-- `different`: whether the owner has other addresses than the record. -/
def addressesDiffer (record : WinsdbRecord) (addrs : List Text) : Bool :=
  if record.type ≠ .group then addrs.any fun addr => !record.addresses.any (·.address = addr)
  else addrs ≠ [groupAddress]

/-- The record with all its expiry times set. -/
def expiringAt (record : WinsdbRecord) (expireTime : Int) : WinsdbRecord :=
  { record with expireTime, addresses := record.addresses.map fun addr => { addr with expireTime } }

/-- What `verify_handler` asks of the database. -/
def verifyCall (config : ScavengingConfig) (now : Int) (record : WinsdbRecord) : VerifyReply → Option WinsdbCall
  | .objectNameNotFound => some (.delete record.name)
  | .ok addrs =>
    -- take the ownership of the record and make it a tombstone
    if addressesDiffer record addrs then
      some (.modify { expiringAt record (now + config.tombstoneTimeout) with state := .tombstone } ⟨true, true⟩)
    else some (.modify (expiringAt record (now + config.verifyInterval)) ⟨false, false⟩)
  | .error => none

/-- `verify_handler`. -/
def verifyHandler (h : WinsdbHandle) (config : ScavengingConfig) (db : Winsdb) (now : Int) (record : WinsdbRecord)
    (reply : VerifyReply) : Winsdb :=
  match verifyCall config now record reply with
  | none => db
  | some call => call.after h db

/-- The filter of `wreplsrv_scavenging_replica_active_records`. -/
def replicaActive (h : WinsdbHandle) (now : Int) (msg : WinsdbMessage) : Bool :=
  !(msg.winsOwner = some h.localOwner || msg.winsOwner = some anyOwner) && msg.recordState = .active &&
    msg.expireTime.any (· ≤ now)

/-- The loop of `wreplsrv_scavenging_replica_active_records` over the messages that were found: the records for which a
challenge is sent, each held until its reply, and the status. -/
def wreplsrvScavengingReplicaActiveRecords (h : WinsdbHandle) : List WinsdbMessage → List WinsdbRecord × NtStatus
  | [] => ([], .ok)
  | msg :: msgs =>
    -- as the record is stored, without a look at the clock
    match winsdbRecord h 0 msg with
    | .error status => ([], status)
    | .ok record =>
      if record.state ≠ .active then ([], .internalDbCorruption)
      else
        let (sent, status) := wreplsrvScavengingReplicaActiveRecords h msgs
        (record :: sent, status)

/-! ## Runs -/

/-- The database, and the records whose owners have been asked. -/
structure ScavengingState where
  db : Winsdb
  asked : List WinsdbRecord

/-- What happens: a scavenging run finds some messages, some other part of the server changes a record, or a reply comes. -/
inductive ScavengingEvent
  | scavenge (now : Int) (msgs : List WinsdbMessage)
  | call (c : WinsdbCall)
  | reply (i : Nat) (now : Int) (reply : VerifyReply)

section Run

variable (h : WinsdbHandle) (config : ScavengingConfig)

/-- What an event does to the database and to the pending verifications. -/
def ScavengingState.step (σ : ScavengingState) : ScavengingEvent → ScavengingState
  | .scavenge _ msgs => { σ with asked := σ.asked ++ (wreplsrvScavengingReplicaActiveRecords h msgs).1 }
  | .call c => { σ with db := c.after h σ.db }
  | .reply i now reply =>
    match σ.asked[i]? with
    | none => σ
    | some record => ⟨verifyHandler h config σ.db now record reply, σ.asked.eraseIdx i⟩

/-- A scavenging run finds what the filter asks for. -/
def ScavengingEvent.Happens (σ : ScavengingState) : ScavengingEvent → Prop
  | .scavenge now msgs => ∀ msg, msg ∈ msgs ↔ σ.db.records msg.name = some msg ∧ replicaActive h now msg
  | .call _ => True
  | .reply i _ _ => i < σ.asked.length

def scavengingSystem : System ScavengingState ScavengingEvent where
  init σ := σ.asked = []
  step σ e σ' := e.Happens h σ ∧ σ' = σ.step h config e

/-- The call of the database that an event makes. -/
def ScavengingEvent.call? (σ : ScavengingState) : ScavengingEvent → Option WinsdbCall
  | .scavenge .. => none
  | .call c => some c
  | .reply i now r => σ.asked[i]?.bind fun record => verifyCall config now record r

/-- No event stores a record under a name whose owner is still to answer, unless it has the version and the owner that were
asked about. -/
def LeavesAsked (σ : ScavengingState) (e : ScavengingEvent) : Prop :=
  ∀ call msg, e.call? config σ = some call → (call.run h σ.db).isSome → call.stores h σ.db = some msg →
    ∀ record ∈ (σ.step h config e).asked, record.name = msg.name → stampOf h msg = record.stamp

/-! ## What the calls keep -/

variable {h config} {db db' : Winsdb}

variable {record : WinsdbRecord} {σ : ScavengingState}

theorem prepareRecord_some {record' : WinsdbRecord} {flags : WinsdbFlags}
    (hprep : prepareRecord h db record flags = some (record', db')) : db'.records = db.records ∧ record'.name = record.name := by
  obtain ⟨allocVersion, takeOwnership⟩ := flags
  rw [prepareRecord] at hprep
  by_cases hnew : (winsdbSetMaxVersion db 0).1 = 0
  · cases allocVersion <;> cases takeOwnership <;>
      simp only [hnew, if_true, if_false, Bool.false_eq_true, reduceCtorEq] at hprep <;> cases hprep <;> exact ⟨rfl, rfl⟩
  · cases allocVersion <;> cases takeOwnership <;>
      simp only [hnew, if_true, if_false, Bool.false_eq_true] at hprep <;> cases hprep <;> exact ⟨rfl, rfl⟩

/-- A record that was prepared is stored under its name. -/
theorem set_prepared {record' : WinsdbRecord} {flags : WinsdbFlags}
    (hprep : prepareRecord h db record flags = some (record', db')) :
    (winsdbMessage record').name = record.name ∧ (db'.set (winsdbMessage record')).records record.name = some (winsdbMessage record') ∧
      ∀ name, name ≠ record.name → (db'.set (winsdbMessage record')).records name = db.records name := by
  obtain ⟨hrecords, hname⟩ := prepareRecord_some hprep
  have hmsg : (winsdbMessage record').name = record.name := hname
  refine ⟨hmsg, ?_, fun name hne => ?_⟩
  · rw [← hmsg]
    exact Winsdb.set_self db' (winsdbMessage record')
  · rw [Winsdb.set_other db' (hmsg ▸ hne), hrecords]

/-- A call that works stores its message under its name, or deletes the record. -/
structure CallEffect (h : WinsdbHandle) (db : Winsdb) (call : WinsdbCall) (db' : Winsdb) : Prop where
  name : ∀ msg, call.stores h db = some msg → msg.name = call.name
  own : db'.records call.name = call.stores h db
  other : ∀ name, name ≠ call.name → db'.records name = db.records name
  there : (∀ record flags, call ≠ .add record flags) → (db.records call.name).isSome

theorem WinsdbCall.run_effect {call : WinsdbCall} (hrun : call.run h db = some db') : CallEffect h db call db' := by
  cases call with
  | delete name =>
    rw [run, winsdbDelete] at hrun
    split at hrun
    case isTrue => cases hrun
    case isFalse hthere =>
      cases hrun
      exact ⟨fun msg hmsg => (nomatch hmsg), if_pos rfl, fun n hn => if_neg hn, fun _ =>
        isSome_iff_ne_none.mpr fun hnone => hthere (isNone_iff_eq_none.mpr hnone)⟩
  | add record flags =>
    rw [run, winsdbAdd, bind_eq_bind, bind_eq_some_iff] at hrun
    obtain ⟨⟨record', db₁⟩, hprep, hrun⟩ := hrun
    dsimp only at hrun
    split at hrun
    · cases hrun
    · cases hrun
      obtain ⟨hname, hown, hother⟩ := set_prepared hprep
      have hstores : stores h db (.add record flags) = some (winsdbMessage record') := by rw [stores, hprep]; rfl
      refine ⟨fun msg hmsg => ?_, by rw [hstores]; exact hown, hother, fun hne => absurd rfl (hne record flags)⟩
      cases hstores.symm.trans hmsg
      exact hname
  | modify record flags =>
    rw [run, winsdbModify, bind_eq_bind, bind_eq_some_iff] at hrun
    obtain ⟨⟨record', db₁⟩, hprep, hrun⟩ := hrun
    dsimp only at hrun
    split at hrun
    case isTrue => cases hrun
    case isFalse hthere =>
      cases hrun
      obtain ⟨hname, hown, hother⟩ := set_prepared hprep
      have hstores : stores h db (.modify record flags) = some (winsdbMessage record') := by rw [stores, hprep]; rfl
      refine ⟨fun msg hmsg => ?_, by rw [hstores]; exact hown, hother, fun _ => ?_⟩
      · cases hstores.symm.trans hmsg
        exact hname
      · obtain ⟨hrecords, hname'⟩ := prepareRecord_some hprep
        rw [hrecords, hname'] at hthere
        exact isSome_iff_ne_none.mpr fun hnone => hthere (isNone_iff_eq_none.mpr hnone)

theorem expireRecord_name (h : WinsdbHandle) (now : Int) (stored : WinsdbRecord) :
    (expireRecord h now stored).name = stored.name := by
  unfold expireRecord
  dsimp only
  split_ifs <;> rfl

theorem expireRecord_stamp (h : WinsdbHandle) (now : Int) (stored : WinsdbRecord) :
    (expireRecord h now stored).stamp = stored.stamp := by
  unfold expireRecord
  dsimp only
  split_ifs <;> rfl

/-- A record that is asked about is one of the messages, as it is stored. -/
theorem scavenging_asks {msgs : List WinsdbMessage}
    (hmem : record ∈ (wreplsrvScavengingReplicaActiveRecords h msgs).1) :
    ∃ msg ∈ msgs, record.name = msg.name ∧ stampOf h msg = record.stamp := by
  induction msgs with
  | nil => cases hmem
  | cons msg msgs ih =>
    rw [wreplsrvScavengingReplicaActiveRecords] at hmem
    split at hmem
    · cases hmem
    · rename_i loaded hload
      split at hmem
      · cases hmem
      · rcases List.mem_cons.mp hmem with rfl | hmem
        · rw [winsdbRecord_ok hload]
          exact ⟨msg, List.mem_cons_self, expireRecord_name h 0 _, (expireRecord_stamp h 0 _).symm⟩
        · obtain ⟨msg', hmsg', hrest⟩ := ih hmem
          exact ⟨msg', List.mem_cons_of_mem _ hmsg', hrest⟩

/-! ## Runs that leave the records alone that are asked about -/

/-- Every record whose owner is still to answer is gone, or has the version and the owner that were asked about. -/
def AskedUnchanged (h : WinsdbHandle) (σ : ScavengingState) : Prop :=
  ∀ record ∈ σ.asked, ∀ msg, σ.db.records record.name = some msg → stampOf h msg = record.stamp

/-- An event that changes the database does it by its call. -/
theorem step_db (σ : ScavengingState) (e : ScavengingEvent) :
    (σ.step h config e).db = match e.call? config σ with
      | none => σ.db
      | some call => call.after h σ.db := by
  cases e with
  | scavenge now msgs => rfl
  | call c => rfl
  | reply i now r =>
    rw [ScavengingState.step, ScavengingEvent.call?]
    cases hi : σ.asked[i]? with
    | none => rfl
    | some record =>
      rw [bind_some]
      dsimp only
      rw [verifyHandler]

/-- Only a scavenging run asks about further records. -/
theorem mem_asked_step {e : ScavengingEvent} (hmem : record ∈ (σ.step h config e).asked) :
    record ∈ σ.asked ∨ ∃ now msgs, e = .scavenge now msgs ∧ record ∈ (wreplsrvScavengingReplicaActiveRecords h msgs).1 := by
  cases e with
  | scavenge now msgs => exact (List.mem_append.mp hmem).imp_right fun hsent => ⟨now, msgs, rfl, hsent⟩
  | call c => exact .inl hmem
  | reply i now r =>
    rw [ScavengingState.step] at hmem
    split at hmem
    · exact .inl hmem
    · exact .inl (List.mem_of_mem_eraseIdx hmem)

theorem askedUnchanged_step {e : ScavengingEvent} (hinv : AskedUnchanged h σ) (he : e.Happens h σ)
    (hleaves : LeavesAsked h config σ e) : AskedUnchanged h (σ.step h config e) := by
  intro record hmem msg hmsg
  rw [step_db] at hmsg
  have hold : σ.db.records record.name = some msg → stampOf h msg = record.stamp := by
    intro hstored
    rcases mem_asked_step hmem with hasked | ⟨now, msgs, rfl, hsent⟩
    · exact hinv record hasked msg hstored
    · obtain ⟨msg', hmsg', hname, hstamp⟩ := scavenging_asks hsent
      have hstored' := ((he msg').mp hmsg').1
      rw [← hname, hstored] at hstored'
      cases hstored'
      exact hstamp
  cases hcall : e.call? config σ with
  | none =>
    rw [hcall] at hmsg
    exact hold hmsg
  | some call =>
    rw [hcall] at hmsg
    dsimp only [WinsdbCall.after] at hmsg
    cases hrun : call.run h σ.db with
    | none =>
      rw [hrun] at hmsg
      exact hold hmsg
    | some db' =>
      rw [hrun] at hmsg
      have heffect := WinsdbCall.run_effect hrun
      by_cases hname : record.name = call.name
      · have hstores : call.stores h σ.db = some msg := by
          rw [← heffect.own, ← hname]
          exact hmsg
        exact hleaves call msg hcall (by rw [hrun]; rfl) hstores record hmem (hname.trans (heffect.name msg hstores).symm)
      · exact hold ((heffect.other record.name hname).symm.trans hmsg)

theorem askedUnchanged_of_reachable
    (hreach : ((scavengingSystem h config).restrict (LeavesAsked h config)).Reachable σ) : AskedUnchanged h σ := by
  refine @System.Reachable.invariant _ _ _ (AskedUnchanged h) ?_ ?_ _ hreach
  · intro σ hinit record hmem
    rw [show σ.asked = [] from hinit] at hmem
    cases hmem
  · rintro σ e σ' hinv ⟨hleaves, he, rfl⟩
    exact askedUnchanged_step hinv he hleaves

/-- What `verify_handler` changes is a record that was there. -/
theorem verifyHandler_there {now : Int} {reply : VerifyReply} {name : NbtName}
    (hchanged : (verifyHandler h config db now record reply).records name ≠ db.records name) :
    name = record.name ∧ ∃ msg, db.records name = some msg := by
  rw [verifyHandler] at hchanged
  cases hcall : verifyCall config now record reply with
  | none =>
    rw [hcall] at hchanged
    exact absurd rfl hchanged
  | some call =>
    rw [hcall] at hchanged
    dsimp only [WinsdbCall.after] at hchanged
    cases hrun : call.run h db with
    | none =>
      rw [hrun] at hchanged
      exact absurd rfl hchanged
    | some db' =>
      rw [hrun] at hchanged
      have heffect := WinsdbCall.run_effect hrun
      have hkind : call.name = record.name ∧ ∀ r flags, call ≠ .add r flags := by
        cases reply with
        | error => cases hcall
        | objectNameNotFound =>
          cases hcall
          exact ⟨rfl, fun _ _ => WinsdbCall.noConfusion⟩
        | ok addrs =>
          rw [verifyCall] at hcall
          split at hcall <;> cases hcall <;> exact ⟨rfl, fun _ _ => WinsdbCall.noConfusion⟩
      have hname : name = call.name := by
        by_contra hne
        exact hchanged (heffect.other name hne)
      rw [hname]
      exact ⟨hkind.1, isSome_iff_exists.mp (heffect.there hkind.2)⟩

/-- In a run in which nobody else stores another version or owner under a name that is asked about, a reply changes or deletes
only the record that was read, with the version and the owner it had then. -/
theorem verify_unchanged_only (h : WinsdbHandle) (config : ScavengingConfig) (σ : ScavengingState)
    (hreach : ((scavengingSystem h config).restrict (LeavesAsked h config)).Reachable σ) (i : Nat) (now : Int)
    (reply : VerifyReply) (record : WinsdbRecord) (hi : σ.asked[i]? = some record) (name : NbtName)
    (hchanged : (σ.step h config (.reply i now reply)).db.records name ≠ σ.db.records name) :
    name = record.name ∧ ∃ msg, σ.db.records name = some msg ∧ (msg.decode h).version = record.version ∧
      (msg.decode h).winsOwner = record.winsOwner := by
  rw [ScavengingState.step, hi] at hchanged
  obtain ⟨hname, msg, hmsg⟩ := verifyHandler_there hchanged
  have hstamp := askedUnchanged_of_reachable hreach record (List.mem_of_getElem? hi) msg (hname ▸ hmsg)
  exact ⟨hname, msg, hmsg, congrArg Prod.fst hstamp, congrArg Prod.snd hstamp⟩

/-! ## What a late reply does -/

/-- A reply that the name is not there deletes the record of that name, whatever it has become. -/
theorem verifyHandler_deletes (now : Int) (hthere : (db.records record.name).isSome) :
    (verifyHandler h config db now record .objectNameNotFound).records record.name = none := by
  have hnot : ¬((db.records record.name).isNone = true) := fun hnone => by
    rw [isNone_iff_eq_none.mp hnone] at hthere
    cases hthere
  rw [verifyHandler, verifyCall]
  dsimp only [WinsdbCall.after, WinsdbCall.run]
  rw [winsdbDelete, if_neg hnot, getD_some]
  exact if_pos rfl

/-- A reply with the same addresses stores the version and the owner that were read, whatever is stored by then. -/
theorem verifyHandler_confirms {addrs : List Text} (now : Int)
    (hthere : (db.records record.name).isSome) (hsame : addressesDiffer record addrs = false) :
    ∃ msg, (verifyHandler h config db now record (.ok addrs)).records record.name = some msg ∧
      msg.versionID = record.version ∧ msg.winsOwner = some record.winsOwner := by
  have hnot : ¬((db.records record.name).isNone = true) := fun hnone => by
    rw [isNone_iff_eq_none.mp hnone] at hthere
    cases hthere
  rw [verifyHandler, verifyCall, hsame, if_neg Bool.false_ne_true]
  dsimp only [WinsdbCall.after, WinsdbCall.run]
  refine ⟨winsdbMessage (expiringAt record (now + config.verifyInterval)), ?_, rfl, rfl⟩
  rw [winsdbModify, prepareRecord, if_neg Bool.false_ne_true, bind_eq_bind, bind_some]
  dsimp only
  rw [if_neg Bool.false_ne_true, show (expiringAt record (now + config.verifyInterval)).name = record.name from rfl, if_neg hnot,
    getD_some]
  exact Winsdb.set_self db (winsdbMessage (expiringAt record (now + config.verifyInterval)))

end Run

/-- A server that sorts nothing. -/
def plainHandle : WinsdbHandle := ⟨"10.0.0.1".toList.map chr, fun _ l => l, fun _ l => .refl l⟩

/-- An active replica of another server, with version 5. -/
def oldReplica : WinsdbMessage where
  name := ⟨"HOST".toList.map chr, none, 0⟩
  recordType := .unique
  recordState := .active
  nodeType := .h
  isStatic := false
  expireTime := some 100
  versionID := 5
  winsOwner := some ("10.0.0.2".toList.map chr)
  address := [.full ("10.0.0.9".toList.map chr) ("10.0.0.2".toList.map chr) 100]
  registeredBy := none

/-- A database with that record. -/
def replicaStored : ScavengingState := ⟨⟨fun name => if name = oldReplica.name then some oldReplica else none, 5⟩, []⟩

/-- Its owner is asked about it. -/
def replicaAsked : ScavengingState := replicaStored.step plainHandle ⟨1, 1⟩ (.scavenge 200 [oldReplica])

/-- Replication brings a newer version of it. -/
def replicaUpdated : ScavengingState :=
  replicaAsked.step plainHandle ⟨1, 1⟩ (.call (.modify { oldReplica.decode plainHandle with version := 6 } ⟨false, false⟩))

theorem oldReplica_found : ScavengingEvent.Happens plainHandle replicaStored (.scavenge 200 [oldReplica]) := by
  intro msg
  constructor
  · intro hmsg
    rw [List.mem_singleton.mp hmsg]
    decide
  · rintro ⟨hstored, -⟩
    by_cases hname : msg.name = oldReplica.name
    · cases (if_pos hname).symm.trans hstored
      exact List.mem_singleton_self _
    · cases (if_neg hname).symm.trans hstored

/-- The reply about version 5 deletes version 6. -/
theorem verify_deletes_newer :
    (scavengingSystem plainHandle ⟨1, 1⟩).Reachable replicaUpdated ∧
      ∃ record msg, replicaUpdated.asked[0]? = some record ∧ replicaUpdated.db.records record.name = some msg ∧
        record.version = 5 ∧ (msg.decode plainHandle).version = 6 ∧
        (replicaUpdated.step plainHandle ⟨1, 1⟩ (.reply 0 300 .objectNameNotFound)).db.records record.name = none := by
  have hstored : (scavengingSystem plainHandle ⟨1, 1⟩).Reachable replicaStored := .init (by exact rfl)
  have hasked : (scavengingSystem plainHandle ⟨1, 1⟩).Reachable replicaAsked := .step _ hstored ⟨oldReplica_found, rfl⟩
  refine ⟨.step (.call _) hasked ⟨trivial, rfl⟩, oldReplica.decode plainHandle, { oldReplica with versionID := 6 }, ?_⟩
  decide

/-- Before the reply the record is made static, with the version and the owner it had, and another replica is added. -/
def replicaTouched : ScavengingState :=
  (replicaAsked.step plainHandle ⟨1, 1⟩
      (.call (.modify { oldReplica.decode plainHandle with isStatic := true } ⟨false, false⟩))).step plainHandle ⟨1, 1⟩
    (.call (.add { oldReplica.decode plainHandle with name := ⟨"OTHER".toList.map chr, none, 0⟩, version := 9 } ⟨false, false⟩))

theorem reachable_touched :
    ((scavengingSystem plainHandle ⟨1, 1⟩).restrict (LeavesAsked plainHandle ⟨1, 1⟩)).Reachable replicaTouched := by
  have hstored : ((scavengingSystem plainHandle ⟨1, 1⟩).restrict (LeavesAsked plainHandle ⟨1, 1⟩)).Reachable replicaStored :=
    .init (by exact rfl)
  have hasked := System.Reachable.step (.scavenge 200 [oldReplica]) hstored
    ⟨fun _ _ hcall => (nomatch hcall), oldReplica_found, rfl⟩
  refine .step (.call _) (.step (.call _) hasked ⟨?_, trivial, rfl⟩) ⟨?_, trivial, rfl⟩
  · rintro call msg hcall - hstores record hmem -
    cases hcall
    cases hstores
    rw [List.mem_singleton.mp hmem]
    decide
  · rintro call msg hcall - hstores record hmem hname
    cases hcall
    cases hstores
    rw [List.mem_singleton.mp hmem] at hname
    exact absurd hname (by decide)

/-- Then the reply deletes the record that was read, and only that one. -/
theorem verify_unchanged_only_touched :
    let after := replicaTouched.step plainHandle ⟨1, 1⟩ (.reply 0 300 .objectNameNotFound)
    after.db.records oldReplica.name = none ∧
      (∀ name, name ≠ oldReplica.name → after.db.records name = replicaTouched.db.records name) ∧
      ∃ msg, replicaTouched.db.records oldReplica.name = some msg ∧ msg.isStatic = true ∧
        (msg.decode plainHandle).version = 5 ∧ (msg.decode plainHandle).winsOwner = "10.0.0.2".toList.map chr := by
  intro after
  have honly := verify_unchanged_only plainHandle ⟨1, 1⟩ replicaTouched reachable_touched 0 300 .objectNameNotFound
    (oldReplica.decode plainHandle) (by decide)
  refine ⟨by decide, fun name hname => ?_, ?_⟩
  · by_contra hchanged
    exact hname (honly name hchanged).1
  · obtain ⟨-, msg, hmsg, hversion, howner⟩ := honly oldReplica.name (by decide)
    have hstatic : ∀ m ∈ replicaTouched.db.records oldReplica.name, m.isStatic = true := by decide
    exact ⟨msg, hmsg, hstatic msg hmsg, hversion, howner⟩

end Samba.Wrepl
