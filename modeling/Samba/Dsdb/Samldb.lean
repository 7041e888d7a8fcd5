/-
How the `samldb` module gives SIDs to new users, groups and foreign security principals
(dsdb/samdb/ldb_modules/samldb.c, samdb_search_for_parent_domain of dsdb/samdb/samdb.c). The record
of a domain holds a counter, `nextRid`, as text. A new SID is made from it, or given with the
object, and either way the counter is moved above it, by one modification that deletes the old
value and adds the new one.
-/
import Samba.Security.SddlSid

namespace Samba.Dsdb

open CString Samba.Security

/-! ## The database -/

/-- One component of a DN, in the form that is compared. -/
structure Rdn where
  name : Text
  value : Text
  deriving DecidableEq, Repr

/-- A DN: its RDN first. -/
abbrev Dn := List Rdn

/-- What the filters on `objectclass` tell apart. -/
inductive ObjectClass
  | domain
  | builtinDomain
  | other
  deriving DecidableEq, Repr

/-- A record: the attributes that the module reads and writes. -/
structure Record where
  dn : Dn
  objectClass : ObjectClass
  objectSid : List DomSid
  nextRid : Option Text
  deriving DecidableEq, Repr

/-- The database: no two records have the same DN. -/
structure Samdb where
  records : List Record
  nodup : (records.map Record.dn).Nodup
  deriving DecidableEq, Repr

/-- The error codes of ldb that occur here. -/
inductive LdbError
  | operationsError
  | constraintViolation
  | noSuchAttribute
  | noSuchObject
  | entryAlreadyExists
  | unwillingToPerform
  deriving DecidableEq, Repr

namespace Samdb

/-- A search with the scope base. -/
def find? (db : Samdb) (dn : Dn) : Option Record := db.records.find? (·.dn = dn)

/-- The search for the records with a SID. -/
def withSid (db : Samdb) (sid : DomSid) : List Record := db.records.filter (sid ∈ ·.objectSid)

/-- The search for the domains with a SID. -/
def domainsWithSid (db : Samdb) (sid : DomSid) : List Record :=
  db.records.filter fun r => sid ∈ r.objectSid ∧ r.objectClass = .domain

/-- Another value of `nextRid` in one record. -/
def setNextRid (db : Samdb) (dn : Dn) (str : Text) : Samdb where
  records := db.records.map fun r => if r.dn = dn then { r with nextRid := some str } else r
  nodup := by
    rw [List.map_map, show Record.dn ∘ (fun r => if r.dn = dn then { r with nextRid := some str } else r) = Record.dn from
      funext fun r => by dsimp only [Function.comp]; split <;> rfl]
    exact db.nodup

/-- A new record at a DN that has none. -/
def insert (db : Samdb) (r : Record) (h : ∀ r' ∈ db.records, r'.dn ≠ r.dn) : Samdb where
  records := r :: db.records
  nodup := by
    rw [List.map_cons, List.nodup_cons]
    refine ⟨fun hmem => ?_, db.nodup⟩
    obtain ⟨r', hr', hdn⟩ := List.mem_map.mp hmem
    exact h r' hr' hdn

/-- The deletion of a record. -/
def delete (db : Samdb) (dn : Dn) : Samdb where
  records := db.records.filter (·.dn ≠ dn)
  nodup := db.nodup.sublist (List.filter_sublist.map _)

end Samdb

/-! ## The counter -/

/-- What `samldb_find_next_rid` makes of the text of `nextRid`: a `long`, cut down to a `uint32_t`. -/
def ridOfText (str : Text) : UInt32 := .ofInt (strtoll str).1

/-- The conversion `%u` of a `uint32_t`. -/
def textOfRid (rid : UInt32) : Text := padded 0 rid.toNat

/-- `samldb_set_next_rid`: the old value is deleted and the new one added, or nothing is changed. -/
def samldbSetNextRid (db : Samdb) (dn : Dn) (oldId newId : UInt32) : Except LdbError Samdb :=
  if newId = 0 then .error .operationsError
  else match db.find? dn with
    | none => .error .noSuchObject
    | some r =>
      if r.nextRid = some (textOfRid oldId) then .ok (db.setNextRid dn (textOfRid newId))
      else .error .noSuchAttribute

/-- `samldb_find_next_rid`. -/
def samldbFindNextRid (db : Samdb) (dn : Dn) : Except LdbError UInt32 :=
  match db.find? dn with
  | none => .error .noSuchObject
  | some r => match r.nextRid with
    | none => .error .operationsError
    | some str => .ok (ridOfText str)

/-! ## SIDs -/

/-- The SID with `num_auths` one less. -/
def domainPart (sid : DomSid) : DomSid where
  sidRevNum := sid.sidRevNum
  numAuths := sid.numAuths - 1
  idAuth := sid.idAuth
  subAuths := sid.subAuths.take (sid.numAuths - 1).toNat
  length_subAuths := by
    rw [List.length_take, sid.length_subAuths]
    omega

/-- `sid->sub_auths[sid->num_auths - 1]`. A SID without any is in no domain, and is not asked for it. -/
def lastRid (sid : DomSid) : UInt32 := lastSubAuth (fun _ => 0) sid

/-- `samldb_notice_sid`. -/
def samldbNoticeSid (db : Samdb) (sid : DomSid) : Except LdbError Samdb :=
  if db.withSid sid ≠ [] then .error .constraintViolation
  else match db.domainsWithSid (domainPart sid) with
    | [] => .ok db
    | [dom] =>
      match samldbFindNextRid db dom.dn with
      | .error e => .error e
      | .ok oldRid =>
        if oldRid ≤ lastRid sid then samldbSetNextRid db dom.dn oldRid (lastRid sid + 1) else .ok db
    | _ => .error .operationsError

/-- `samldb_allocate_next_rid`. -/
def samldbAllocateNextRid (db : Samdb) (dn : Dn) (domSid : DomSid) : Except LdbError (DomSid × Samdb) :=
  match samldbFindNextRid db dn with
  | .error e => .error e
  | .ok oldRid =>
    let newSid := domSidAddRid domSid (oldRid + 1)
    match samldbNoticeSid db newSid with
    | .error e => .error e
    | .ok db => .ok (newSid, db)

/-- `samdb_search_for_parent_domain`: the nearest domain above a DN. -/
def samdbSearchForParentDomain (db : Samdb) : Dn → Option Dn
  | [] => none
  | _ :: sdn =>
    match db.find? sdn with
    | some r => if r.objectClass ≠ .other then some sdn else samdbSearchForParentDomain db sdn
    | none => samdbSearchForParentDomain db sdn

/-- The SID of a domain, as `samldb_get_new_sid` reads it. -/
def findDomainSid (db : Samdb) (domDn : Dn) : Except LdbError DomSid :=
  match db.find? domDn with
  | none => .error .noSuchObject
  | some r => match r.objectSid with
    | [] => .error .constraintViolation
    | domSid :: _ => .ok domSid

/-- `samldb_get_new_sid`. -/
def samldbGetNewSid (db : Samdb) (objDn : Dn) : Except LdbError (DomSid × Samdb) :=
  match samdbSearchForParentDomain db objDn with
  | none => .error .constraintViolation
  | some domDn => match findDomainSid db domDn with
    | .error e => .error e
    | .ok domSid => samldbAllocateNextRid db domDn domSid

/-! ## Adding objects -/

/-- The classes of objects the module fills in. -/
inductive AccountClass
  | userOrComputer
  | group
  | foreignSecurityPrincipal
  deriving DecidableEq, Repr

/-- The message of an add: where, what, and the `objectSid` it comes with. -/
structure AddMessage where
  dn : Dn
  accountClass : AccountClass
  objectSid : Option DomSid
  deriving DecidableEq, Repr

/-- `samldb_handle_sid`: the values that `objectSid` has then, and the database. -/
def samldbHandleSid (db : Samdb) (msg : AddMessage) : Except LdbError (List DomSid × Samdb) :=
  match msg.objectSid with
  | none => match samldbGetNewSid db msg.dn with
    | .error e => .error e
    | .ok (sid, db) => .ok ([sid], db)
  | some sid => match samldbNoticeSid db sid with
    | .error e => .error e
    | .ok db => .ok ([sid], db)

/-- `samldb_fill_foreignSecurityPrincipal_object`: the SID is in the RDN, and becomes another value of `objectSid`. -/
def samldbFillForeignSecurityPrincipalObject (db : Samdb) (msg : AddMessage) : Except LdbError (List DomSid × Samdb) :=
  match msg.dn.head?.bind (domSidParse ·.value) with
  | none => .error .constraintViolation
  | some sid => match samldbNoticeSid db sid with
    | .error e => .error e
    | .ok db => .ok (msg.objectSid.toList ++ [sid], db)

/-- The RDN is a `cn`. -/
def rdnIsCn (dn : Dn) : Bool := dn.head?.any fun rdn => sameCase rdn.name ("cn".toList.map chr)

/-- What `samldb_add` does with the message before it passes it on. -/
def samldbFill (db : Samdb) (msg : AddMessage) : Except LdbError (List DomSid × Samdb) :=
  if !rdnIsCn msg.dn then .error .constraintViolation
  else match msg.accountClass with
    | .userOrComputer | .group => samldbHandleSid db msg
    | .foreignSecurityPrincipal => samldbFillForeignSecurityPrincipalObject db msg

/-- The add as the modules below do it: they may refuse it, and there may be such a record. -/
def ldbAdd (db : Samdb) (dn : Dn) (sids : List DomSid) (refusal : Option LdbError) : Except LdbError Samdb :=
  match refusal with
  | some e => .error e
  | none =>
    if h : ∀ r ∈ db.records, r.dn ≠ dn then .ok (db.insert ⟨dn, .other, sids, none⟩ h)
    else .error .entryAlreadyExists

/-- `samldb_add`, with what the modules below say of the add: the values of `objectSid` it stores, and the database. The
counter stays where it was moved to when the add itself fails. -/
def samldbAdd (db : Samdb) (msg : AddMessage) (refusal : Option LdbError) : Except LdbError (List DomSid) × Samdb :=
  match samldbFill db msg with
  | .error e => (.error e, db)
  | .ok (sids, db) => match ldbAdd db msg.dn sids refusal with
    | .error e => (.error e, db)
    | .ok db => (.ok sids, db)

end Samba.Dsdb
