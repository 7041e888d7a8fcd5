/-
The RIDs of a domain over adds and deletions one after another
(dsdb/samdb/ldb_modules/samldb.c). The counter stays above the RID of every object that was ever
added, as long as a foreign security principal does not come with an `objectSid` besides the SID
in its name: that one is stored, but never noticed. So a SID that is generated is a new one, with
one exception: from the last number the counter can have, the RID wraps around to 0, and the check
of the counter does not see it.
-/
import Samba.Dsdb.RidCounter
import Samba.Lib.Transition

namespace Samba.Dsdb

open CString Samba.Security Transition

/-! ## Adds and deletions -/

/-- The database, and the SIDs of all objects it ever contained. -/
structure RidState where
  db : Samdb
  ever : List DomSid
  deriving DecidableEq, Repr

/-- An add, with what the modules below say to it, or a deletion. -/
inductive RidEvent
  | add (msg : AddMessage) (refusal : Option LdbError)
  | delete (dn : Dn)
  deriving DecidableEq, Repr

/-- What a call does to the database and to the history. -/
def RidState.next (s : RidState) : RidEvent → RidState
  | .add msg refusal =>
    match samldbAdd s.db msg refusal with
    | (.ok sids, db) => ⟨db, sids ++ s.ever⟩
    | (.error _, db) => ⟨db, s.ever⟩
  | .delete dn => ⟨s.db.delete dn, s.ever⟩

/-- `nextRid` is greater than the RID of every object of the domain there ever was. -/
def AboveAll (domDn : Dn) (domSid : DomSid) (s : RidState) : Prop :=
  ∃ next, samldbFindNextRid s.db domDn = .ok next ∧ ∀ rid, domSidAddRid domSid rid ∈ s.ever → rid < next

/-- An `objectSid` of the domain that a foreign security principal comes with has a RID below the counter, or one that
the SID in the name will move the counter above. -/
def GivenBelow (domDn : Dn) (domSid : DomSid) (s : RidState) : RidEvent → Prop
  | .add msg _ => msg.accountClass = .foreignSecurityPrincipal → ∀ rid next,
      msg.objectSid = some (domSidAddRid domSid rid) → samldbFindNextRid s.db domDn = .ok next →
      rid < next ∨ ∃ named, msg.dn.head?.bind (domSidParse ·.value) = some (domSidAddRid domSid named) ∧ rid ≤ named
  | .delete _ => True

/-! ## One add -/

variable {db db' : Samdb} {domDn : Dn} {domSid sid : DomSid} {next : UInt32} {msg : AddMessage} {sids : List DomSid}

theorem samldbGetNewSid_ok {objDn : Dn} (h : samldbGetNewSid db objDn = .ok (sid, db')) :
    ∃ dn dom old, samdbSearchForParentDomain db objDn = some dn ∧ findDomainSid db dn = .ok dom ∧
      samldbFindNextRid db dn = .ok old ∧ sid = domSidAddRid dom (old + 1) ∧ samldbNoticeSid db sid = .ok db' := by
  unfold samldbGetNewSid at h
  split at h
  · cases h
  · split at h
    · cases h
    · unfold samldbAllocateNextRid at h
      split at h
      · cases h
      · dsimp only at h
        split at h
        · cases h
        · cases h
          exact ⟨_, _, _, ‹_›, ‹_›, ‹_›, rfl, ‹_›⟩

/-- One SID is noticed for each object, and a foreign security principal keeps the one it comes with besides. -/
theorem samldbFill_ok (h : samldbFill db msg = .ok (sids, db')) :
    ∃ sid, samldbNoticeSid db sid = .ok db' ∧ (sids = [sid] ∨ msg.accountClass = .foreignSecurityPrincipal ∧
      msg.dn.head?.bind (domSidParse ·.value) = some sid ∧ sids = msg.objectSid.toList ++ [sid]) := by
  have hhandle : samldbHandleSid db msg = .ok (sids, db') → ∃ sid, samldbNoticeSid db sid = .ok db' ∧ sids = [sid] := by
    intro h
    unfold samldbHandleSid at h
    split at h
    · split at h
      · cases h
      · cases h
        obtain ⟨_, _, _, _, _, _, _, hnotice⟩ := samldbGetNewSid_ok ‹_›
        exact ⟨_, hnotice, rfl⟩
    · split at h
      · cases h
      · cases h
        exact ⟨_, ‹_›, rfl⟩
  unfold samldbFill at h
  split at h
  · cases h
  · cases hclass : msg.accountClass with
    | userOrComputer | group =>
      rw [hclass] at h
      obtain ⟨sid, hnotice, hsids⟩ := hhandle h
      exact ⟨sid, hnotice, .inl hsids⟩
    | foreignSecurityPrincipal =>
      rw [hclass] at h
      simp only [samldbFillForeignSecurityPrincipalObject] at h
      split at h
      · cases h
      · split at h
        · cases h
        · cases h
          exact ⟨_, ‹_›, .inr ⟨rfl, ‹_›, rfl⟩⟩

variable {s : RidState} {refusal : Option LdbError}

/-- After the module has filled in an object the counter is above its RIDs. -/
theorem samldbFill_advances (hdom : IsDomain s.db domDn domSid)
    (hnext : samldbFindNextRid s.db domDn = .ok next) (hgiven : GivenBelow domDn domSid s (.add msg refusal))
    (h : samldbFill s.db msg = .ok (sids, db')) :
    ∃ next', Advances domDn domSid next db' next' ∧ ∀ rid, domSidAddRid domSid rid ∈ sids → rid < next' := by
  obtain ⟨sid, hnotice, hsids⟩ := samldbFill_ok h
  obtain ⟨next', hadv, hbelow⟩ := samldbNoticeSid_advances hdom hnext hnotice
  refine ⟨next', hadv, fun rid hmem => ?_⟩
  rcases hsids with rfl | ⟨hclass, hnamed, rfl⟩
  · exact hbelow rid (List.mem_singleton.mp hmem).symm
  · rcases List.mem_append.mp hmem with hmem | hmem
    · rcases hgiven hclass rid next (Option.mem_toList.mp hmem) hnext with hlt | ⟨named, hsid, hle⟩
      · exact UInt32.lt_of_lt_of_le hlt hadv.le
      · rw [hnamed] at hsid
        exact UInt32.lt_of_le_of_lt hle (hbelow named (Option.some.inj hsid))
    · exact hbelow rid (List.mem_singleton.mp hmem).symm

/-- A record that is added leaves the domain and its counter as they are. -/
theorem ldbAdd_keeps {dn : Dn} (hdom : IsDomain db domDn domSid) (h : ldbAdd db dn sids refusal = .ok db') :
    IsDomain db' domDn domSid ∧ samldbFindNextRid db' domDn = samldbFindNextRid db domDn := by
  unfold ldbAdd at h
  split at h
  · cases h
  · split at h
    · rename_i hnew
      cases h
      obtain ⟨r, hr, _⟩ := hdom.found
      obtain ⟨hmem, hdn⟩ := Samdb.mem_of_find? hr
      refine ⟨hdom.insert hnew, ?_⟩
      rw [samldbFindNextRid, Samdb.find?_insert_ne fun heq => hnew r hmem (hdn.trans heq.symm), ← samldbFindNextRid]
    · cases h

/-! ## Runs -/

/-- What holds in every state: the domain is there, and its counter is above all RIDs. -/
structure RidInv (domDn : Dn) (domSid : DomSid) (s : RidState) : Prop where
  domain : IsDomain s.db domDn domSid
  above : AboveAll domDn domSid s

theorem RidInv.step {s : RidState} {e : RidEvent} (h : RidInv domDn domSid s) (hgiven : GivenBelow domDn domSid s e)
    (hdelete : e ≠ .delete domDn) : RidInv domDn domSid (s.next e) := by
  obtain ⟨hdom, next, hnext, habove⟩ := h
  cases e with
  | delete dn =>
    have hne : domDn ≠ dn := fun heq => hdelete (heq ▸ rfl)
    refine ⟨hdom.delete hne, next, ?_, habove⟩
    rw [RidState.next, samldbFindNextRid, Samdb.find?_delete_ne hne, ← samldbFindNextRid, hnext]
  | add msg refusal =>
    rw [RidState.next, samldbAdd]
    cases hfill : samldbFill s.db msg with
    | error e => exact ⟨hdom, next, hnext, habove⟩
    | ok filled =>
      obtain ⟨sids, db⟩ := filled
      obtain ⟨next', hadv, hbelow⟩ := samldbFill_advances hdom hnext hgiven hfill
      have hever : ∀ rid, domSidAddRid domSid rid ∈ s.ever → rid < next' :=
        fun rid hmem => UInt32.lt_of_lt_of_le (habove rid hmem) hadv.le
      cases hadd : ldbAdd db msg.dn sids refusal with
      | error e =>
        simp only [hadd]
        exact ⟨hadv.domain, next', hadv.counter, hever⟩
      | ok db' =>
        simp only [hadd]
        obtain ⟨hdom', hsame⟩ := ldbAdd_keeps hadv.domain hadd
        refine ⟨hdom', next', hsame.trans hadv.counter, fun rid hmem => ?_⟩
        rcases List.mem_append.mp hmem with hmem | hmem
        · exact hbelow rid hmem
        · exact hever rid hmem

end Samba.Dsdb
