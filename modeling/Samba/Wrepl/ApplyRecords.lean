/-
Applying the records of a replication partner (wrepl_server/wrepl_apply_records.c): the decision tables for a record
that is already there and the actions they choose. The calls to the nbt_server are kept as the requests sent; their
replies come later and are not modelled.
-/
import Samba.Wrepl.Winsdb

namespace Samba.Wrepl

open CString

/-! ## Replicas -/

/-- `struct wrepl_address`. -/
structure WreplAddress where
  owner : Text
  address : Text
  deriving DecidableEq, Repr

/-- `struct wrepl_name`. -/
structure WreplName where
  name : NbtName
  type : WreplNameType
  state : WreplNameState
  node : WreplNameNode
  isStatic : Bool
  versionId : Nat
  owner : Text
  addresses : List WreplAddress
  deriving DecidableEq, Repr

/-- The service of the partner: its database, `verify_interval`, and whether an nbt_server is registered. -/
structure WreplsrvService where
  winsDb : WinsdbHandle
  verifyInterval : Int
  nbtServer : Bool

/-- The requests sent to the nbt_server. -/
inductive IrpcCall
  | challenge (name : NbtName) (addrs : List Text)
  | releaseDemand (name : NbtName) (addrs : List Text)
  deriving DecidableEq, Repr

/-- What a call leaves: its status, the database, and the requests it sent. -/
structure Applied where
  status : NtStatus
  db : Winsdb
  calls : List IrpcCall

/-- `enum _R_ACTION`. -/
inductive RAction
  | invalid | doReplace | notReplace | doPropagate | doChallenge | doReleaseDemand | doSgroupMerge
  deriving DecidableEq, Repr

/-! ## Comparing address lists -/

/-- `r_1_is_subset_of_2_address_list`. -/
def r1IsSubsetOf2AddressList (r1 : WinsdbRecord) (r2 : WreplName) (checkOwners : Bool) : Bool :=
  r1.addresses.all fun a1 =>
    match r2.addresses.find? (·.address = a1.address) with
    | none => false
    | some a2 => !(checkOwners && a1.winsOwner ≠ a2.owner)

/-- `r_1_is_superset_of_2_address_list`. -/
def r1IsSupersetOf2AddressList (r1 : WinsdbRecord) (r2 : WreplName) (checkOwners : Bool) : Bool :=
  r2.addresses.all fun a2 =>
    match r1.addresses.find? (·.address = a2.address) with
    | none => false
    | some a1 => !(checkOwners && a2.owner ≠ a1.winsOwner)

/-- `r_1_is_same_as_2_address_list`. -/
def r1IsSameAs2AddressList (r1 : WinsdbRecord) (r2 : WreplName) (checkOwners : Bool) : Bool :=
  if r1.addresses.length ≠ r2.addresses.length then false
  else r1IsSupersetOf2AddressList r1 r2 checkOwners

/-- `r_contains_addrs_from_owner`. -/
def rContainsAddrsFromOwner (r1 : WinsdbRecord) (owner : Text) : Bool :=
  r1.addresses.any (·.winsOwner = owner)

/-! ## Decision tables -/

/-- `replace_same_owner`. -/
def replaceSameOwner (_ : WinsdbRecord) (_ : WreplName) : RAction := .doReplace

/-- `replace_unique_replica_vs_X_replica`. -/
def replaceUniqueReplicaVsXReplica (r1 : WinsdbRecord) (r2 : WreplName) : RAction :=
  if r1.state ≠ .active then .doReplace
  else if r2.type ≠ .sgroup ∧ r2.state = .active then .doReplace
  else .notReplace

/-- `replace_group_replica_vs_X_replica`. -/
def replaceGroupReplicaVsXReplica (r1 : WinsdbRecord) (r2 : WreplName) : RAction :=
  if r1.state ≠ .active ∧ r2.type = .group then .doReplace
  else if r1.state = .tombstone ∧ r2.type ≠ .unique then .doReplace
  else .notReplace

/-- `replace_sgroup_replica_vs_X_replica`. -/
def replaceSgroupReplicaVsXReplica (r1 : WinsdbRecord) (r2 : WreplName) : RAction :=
  if r1.state ≠ .active then .doReplace
  else if r2.type ≠ .sgroup then .notReplace
  else if r2.state ≠ .active then .doReplace
  else if r2.addresses.length = 0 then
    if rContainsAddrsFromOwner r1 r2.owner then .doSgroupMerge else .notReplace
  else if r1IsSupersetOf2AddressList r1 r2 true then .notReplace
  else if r1IsSameAs2AddressList r1 r2 false then .doReplace
  else .doSgroupMerge

/-- `replace_mhomed_replica_vs_X_replica`, the same text as the table for unique names. -/
def replaceMhomedReplicaVsXReplica (r1 : WinsdbRecord) (r2 : WreplName) : RAction :=
  replaceUniqueReplicaVsXReplica r1 r2

/-- `replace_unique_owned_vs_X_replica`. -/
def replaceUniqueOwnedVsXReplica (r1 : WinsdbRecord) (r2 : WreplName) : RAction :=
  if r1.state ≠ .active then .doReplace
  else if r2.state ≠ .active then .doPropagate
  else if r2.type = .group ∨ r2.type = .sgroup then .doReleaseDemand
  else if r1IsSubsetOf2AddressList r1 r2 false then .doReplace
  else .doChallenge

/-- `replace_group_owned_vs_X_replica`. -/
def replaceGroupOwnedVsXReplica (r1 : WinsdbRecord) (r2 : WreplName) : RAction :=
  if (r1.type = .group ∧ r2.type = .group) ∧ (r1.state ≠ .active ∨ r2.state = .active) then .doReplace
  else .doPropagate

/-- `replace_sgroup_owned_vs_X_replica`. -/
def replaceSgroupOwnedVsXReplica (r1 : WinsdbRecord) (r2 : WreplName) : RAction :=
  if r1.state ≠ .active then .doReplace
  else if r2.type ≠ .sgroup ∨ r2.state ≠ .active then .doPropagate
  else if r1IsSameAs2AddressList r1 r2 true then .notReplace
  else .doSgroupMerge

/-- `replace_mhomed_owned_vs_X_replica`, the same text as the table for unique names. -/
def replaceMhomedOwnedVsXReplica (r1 : WinsdbRecord) (r2 : WreplName) : RAction :=
  replaceUniqueOwnedVsXReplica r1 r2

/-! ## Actions -/

/-- The record that `r_do_add`, `r_do_replace` and `r_do_sgroup_merge` start from, with no addresses yet. -/
def recordOfReplica (service : WreplsrvService) (now : Int) (replica : WreplName) : WinsdbRecord :=
  { name := replica.name, type := replica.type, state := replica.state, node := replica.node,
    isStatic := replica.isStatic, expireTime := now + service.verifyInterval, version := replica.versionId,
    winsOwner := replica.owner, addresses := [], registeredBy := none }

/-- The loop that adds the addresses of the replica to a list. -/
def addReplicaAddrs (h : WinsdbHandle) (expireTime : Int) (addresses : List WinsdbAddr) (replica : WreplName) :
    List WinsdbAddr :=
  replica.addresses.foldl (fun addresses a => winsdbAddrListAdd h addresses a.address a.owner expireTime false) addresses

/-- The record of the replica alone. -/
def replacingRecord (service : WreplsrvService) (now : Int) (replica : WreplName) : WinsdbRecord :=
  let record := recordOfReplica service now replica
  { record with addresses := addReplicaAddrs service.winsDb record.expireTime record.addresses replica }

/-- A finished `winsdb_add` or `winsdb_modify`. -/
def saved (db : Winsdb) : Option Winsdb → Applied
  | none => ⟨.foobar, db, []⟩
  | some db' => ⟨.ok, db', []⟩

/-- `r_do_add`. -/
def rDoAdd (service : WreplsrvService) (db : Winsdb) (now : Int) (replica : WreplName) : Applied :=
  saved db (winsdbAdd service.winsDb db (replacingRecord service now replica) ⟨false, false⟩)

/-- `r_do_replace`. -/
def rDoReplace (service : WreplsrvService) (db : Winsdb) (now : Int) (replica : WreplName) : Applied :=
  saved db (winsdbModify service.winsDb db (replacingRecord service now replica) ⟨false, false⟩)

/-- `r_not_replace`. -/
def rNotReplace (db : Winsdb) : Applied := ⟨.ok, db, []⟩

/-- `r_do_propagate`. -/
def rDoPropagate (service : WreplsrvService) (db : Winsdb) (record : WinsdbRecord) : Applied :=
  saved db (winsdbModify service.winsDb db record ⟨true, true⟩)

/-- `r_do_challenge`, up to the reply. -/
def rDoChallenge (service : WreplsrvService) (db : Winsdb) (record : WinsdbRecord) : Applied :=
  if !service.nbtServer then ⟨.internalError, db, []⟩
  else ⟨.ok, db, [.challenge record.name (record.addresses.map (·.address))]⟩

/-- `r_do_release_demand`: replace, and demand the name back from the old addresses. -/
def rDoReleaseDemand (service : WreplsrvService) (db : Winsdb) (now : Int) (record : WinsdbRecord)
    (replica : WreplName) : Applied :=
  let replaced := rDoReplace service db now replica
  if replaced.status ≠ .ok then replaced
  else if !service.nbtServer then { replaced with status := .internalError }
  else { replaced with calls := [.releaseDemand replica.name (record.addresses.map (·.address))] }

/-- The body of the first loop of `r_do_sgroup_merge`: an old address, and `changed_old_addrs`. -/
def mergeOldAddr (h : WinsdbHandle) (owner : Text) (replica : WreplName) (merge : List WinsdbAddr × Bool)
    (addr : WinsdbAddr) : List WinsdbAddr × Bool :=
  let found := replica.addresses.find? (·.address = addr.address)
  let changed := merge.2 || found.any (addr.winsOwner ≠ ·.owner)
  -- not in the replica, and owned by the replica's owner: it isn't added to the merged record
  if found.isNone ∧ addr.winsOwner = owner then (merge.1, true)
  else (winsdbAddrListAdd h merge.1 addr.address addr.winsOwner addr.expireTime false, changed)

/-- The first loop of `r_do_sgroup_merge`. -/
def mergeOldAddrs (h : WinsdbHandle) (owner : Text) (replica : WreplName) (record : WinsdbRecord) :
    List WinsdbAddr × Bool :=
  record.addresses.foldl (mergeOldAddr h owner replica) ([], false)

/-- The merged record of `r_do_sgroup_merge`. -/
def mergedRecord (service : WreplsrvService) (now : Int) (owner : Text) (record : WinsdbRecord) (replica : WreplName) :
    WinsdbRecord :=
  let merge := recordOfReplica service now replica
  let kept := (mergeOldAddrs service.winsDb owner replica record).1
  { merge with addresses := addReplicaAddrs service.winsDb merge.expireTime kept replica }

/-- `r_do_sgroup_merge`. -/
def rDoSgroupMerge (service : WreplsrvService) (db : Winsdb) (now : Int) (owner : Text) (record : WinsdbRecord)
    (replica : WreplName) : Applied :=
  let merge := mergedRecord service now owner record replica
  let changedOldAddrs := (mergeOldAddrs service.winsDb owner replica record).2
  let becomeOwner := !changedOldAddrs || record.winsOwner = service.winsDb.localOwner || merge.addresses.length = 0
  saved db (winsdbModify service.winsDb db merge ⟨becomeOwner, becomeOwner⟩)

/-- The action chosen for a record that is there. -/
def chooseAction (localOwner owner : Text) (record : WinsdbRecord) (replica : WreplName) : RAction :=
  let localVsReplica := record.winsOwner = localOwner
  let sameOwner := ¬localVsReplica ∧ record.winsOwner = owner
  if record.isStatic ∧ ¬sameOwner then
    if localVsReplica ∧ ¬replica.isStatic then .doPropagate else .notReplace
  else if replica.isStatic ∧ ¬record.isStatic ∧ ¬sameOwner then .doReplace
  else if sameOwner then replaceSameOwner record replica
  else if ¬localVsReplica then
    match record.type with
    | .unique => replaceUniqueReplicaVsXReplica record replica
    | .group => replaceGroupReplicaVsXReplica record replica
    | .sgroup => replaceSgroupReplicaVsXReplica record replica
    | .mhomed => replaceMhomedReplicaVsXReplica record replica
  else
    match record.type with
    | .unique => replaceUniqueOwnedVsXReplica record replica
    | .group => replaceGroupOwnedVsXReplica record replica
    | .sgroup => replaceSgroupOwnedVsXReplica record replica
    | .mhomed => replaceMhomedOwnedVsXReplica record replica

/-- `wreplsrv_apply_one_record`; `now` is the clock at the lookup, `later` the clock when the record is built. -/
def wreplsrvApplyOneRecord (service : WreplsrvService) (db : Winsdb) (now later : Int) (owner : Text)
    (replica : WreplName) : Applied :=
  match winsdbLookup service.winsDb db now replica.name with
  | .error .objectNameNotFound => rDoAdd service db later replica
  | .error status => ⟨status, db, []⟩
  | .ok record =>
    match chooseAction service.winsDb.localOwner owner record replica with
    | .invalid => ⟨.internalError, db, []⟩
    | .doReplace => rDoReplace service db later replica
    | .notReplace => rNotReplace db
    | .doPropagate => rDoPropagate service db record
    | .doChallenge => rDoChallenge service db record
    | .doReleaseDemand => rDoReleaseDemand service db later record replica
    | .doSgroupMerge => rDoSgroupMerge service db later owner record replica

end Samba.Wrepl
