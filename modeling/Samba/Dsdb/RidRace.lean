/-
Adds of objects without an `objectSid`, by processes that run at the same time on a database
without transactions (dsdb/samdb/ldb_modules/samldb.c). Each search, each modification and the
add itself is one step, and the steps of the processes come in any order. The modification of the
counter is a compare and swap, so of the adds that make it no two have the same SID. But
`samldb_notice_sid` reads the counter a second time, and where another add has moved it in between
it takes the counter for safe and leaves it alone: that add has the same SID.
-/
import Samba.Dsdb.RidHistory

namespace Samba.Dsdb

open CString Samba.Security Transition

/-! ## The steps of an add -/

/-- Where an add is: the step it takes next. -/
inductive AddState
  /-- `samdb_search_for_parent_domain` goes on to the parent of a DN. -/
  | parentDomain (sdn : Dn)
  /-- `samldb_get_new_sid` reads the SID of the domain. -/
  | domainSid (domDn : Dn)
  /-- `samldb_allocate_next_rid` reads the counter. -/
  | nextRid (domDn : Dn) (domSid : DomSid)
  /-- `samldb_notice_sid` searches for the new SID, -/
  | unused (sid : DomSid)
  /-- searches for its domain, -/
  | domain (sid : DomSid)
  /-- reads the counter again -/
  | reread (domDn : Dn) (sid : DomSid)
  /-- and moves it. -/
  | setNextRid (domDn : Dn) (oldRid : UInt32) (sid : DomSid)
  /-- The object is added. -/
  | add (sid : DomSid)
  | added (sid : DomSid)
  | failed (e : LdbError)
  deriving DecidableEq, Repr

/-- One step of the add of an object, with what the modules below will say. -/
def addStep (dn : Dn) (refusal : Option LdbError) : AddState × Samdb → AddState × Samdb
  | (.parentDomain [], db) => (.failed .constraintViolation, db)
  | (.parentDomain (_ :: sdn), db) =>
    match db.find? sdn with
    | some r => if r.objectClass ≠ .other then (.domainSid sdn, db) else (.parentDomain sdn, db)
    | none => (.parentDomain sdn, db)
  | (.domainSid domDn, db) =>
    match findDomainSid db domDn with
    | .error e => (.failed e, db)
    | .ok domSid => (.nextRid domDn domSid, db)
  | (.nextRid domDn domSid, db) =>
    match samldbFindNextRid db domDn with
    | .error e => (.failed e, db)
    | .ok oldRid => (.unused (domSidAddRid domSid (oldRid + 1)), db)
  | (.unused sid, db) => if db.withSid sid ≠ [] then (.failed .constraintViolation, db) else (.domain sid, db)
  | (.domain sid, db) =>
    match db.domainsWithSid (domainPart sid) with
    | [] => (.add sid, db)
    | [dom] => (.reread dom.dn sid, db)
    | _ => (.failed .operationsError, db)
  | (.reread domDn sid, db) =>
    match samldbFindNextRid db domDn with
    | .error e => (.failed e, db)
    | .ok oldRid => if oldRid ≤ lastRid sid then (.setNextRid domDn oldRid sid, db) else (.add sid, db)
  | (.setNextRid domDn oldRid sid, db) =>
    match samldbSetNextRid db domDn oldRid (lastRid sid + 1) with
    | .error e => (.failed e, db)
    | .ok db => (.add sid, db)
  | (.add sid, db) =>
    match ldbAdd db dn [sid] refusal with
    | .error e => (.failed e, db)
    | .ok db => (.added sid, db)
  | (.added sid, db) => (.added sid, db)
  | (.failed e, db) => (.failed e, db)

/-! ## Adds at the same time -/

/-- The database, and where each process is with its add. -/
structure RidRace where
  db : Samdb
  adds : Nat → AddState

/-- The next step of one process. -/
def RidRace.next (dns : Nat → Dn) (s : RidRace) (e : Nat × Option LdbError) : RidRace where
  db := (addStep (dns e.1) e.2 (s.adds e.1, s.db)).2
  adds := Function.update s.adds e.1 (addStep (dns e.1) e.2 (s.adds e.1, s.db)).1

/-- The counter has not been moved above the new RID when `samldb_notice_sid` reads it. -/
def NotOvertaken (s : RidRace) (e : Nat × Option LdbError) : Prop :=
  match s.adds e.1 with
  | .reread domDn sid => match samldbFindNextRid s.db domDn with
    | .ok oldRid => oldRid ≤ lastRid sid
    | .error _ => True
  | _ => True

instance (s : RidRace) (e : Nat × Option LdbError) : Decidable (NotOvertaken s e) := by
  unfold NotOvertaken
  split
  · split <;> infer_instance
  · infer_instance

/-- The SID that an add has made its own. -/
def AddState.owned : AddState → Option DomSid
  | .add sid => some sid
  | .added sid => some sid
  | _ => none

/-- The counter is above the RID of a SID of the domain. -/
def Below (domDn : Dn) (domSid : DomSid) (db : Samdb) (sid : DomSid) : Prop :=
  ∃ rid next, sid = domSidAddRid domSid rid ∧ samldbFindNextRid db domDn = .ok next ∧ rid < next

/-- What is known of an add at each step. -/
def AddOk (domDn : Dn) (domSid : DomSid) (db : Samdb) : AddState → Prop
  | .parentDomain sdn => samdbSearchForParentDomain db sdn = some domDn
  | .domainSid dn => dn = domDn
  | .nextRid dn dom => dn = domDn ∧ dom = domSid
  | .unused sid => ∃ rid, sid = domSidAddRid domSid rid
  | .domain sid => ∃ rid, sid = domSidAddRid domSid rid
  | .reread dn sid => dn = domDn ∧ ∃ rid, sid = domSidAddRid domSid rid
  | .setNextRid dn oldRid sid => dn = domDn ∧ ∃ rid, sid = domSidAddRid domSid rid ∧ oldRid ≤ rid
  | .add sid => Below domDn domSid db sid
  | .added sid => Below domDn domSid db sid
  | .failed _ => True

/-! ## What a step does to the database -/

/-- The domain stays, its counter is not lowered, and the search for it from below finds it as before. -/
structure Grows (domDn : Dn) (domSid : DomSid) (db db' : Samdb) : Prop where
  domain : IsDomain db' domDn domSid
  counter : ∀ next, samldbFindNextRid db domDn = .ok next → ∃ next', samldbFindNextRid db' domDn = .ok next' ∧ next ≤ next'
  parent : ∀ sdn, samdbSearchForParentDomain db' sdn = samdbSearchForParentDomain db sdn

variable {domDn : Dn} {domSid sid : DomSid} {db' : Samdb}

theorem Grows.refl (h : IsDomain db domDn domSid) : Grows domDn domSid db db :=
  ⟨h, fun next hnext => ⟨next, hnext, UInt32.le_refl _⟩, fun _ => rfl⟩

theorem AddOk.grows {a : AddState} (h : AddOk domDn domSid db a) (hgrows : Grows domDn domSid db db') :
    AddOk domDn domSid db' a := by
  have hbelow : ∀ sid, Below domDn domSid db sid → Below domDn domSid db' sid := by
    rintro sid ⟨rid, next, hsid, hnext, hlt⟩
    obtain ⟨next', hnext', hle⟩ := hgrows.counter next hnext
    exact ⟨rid, next', hsid, hnext', UInt32.lt_of_lt_of_le hlt hle⟩
  cases a with
  | parentDomain sdn => exact (hgrows.parent sdn).trans h
  | add sid => exact hbelow sid h
  | added sid => exact hbelow sid h
  | domainSid | nextRid | unused | domain | reread | setNextRid | failed => exact h

theorem samdbSearchForParentDomain_congr (h : ∀ dn, (db'.find? dn).map Record.objectClass =
    (db.find? dn).map Record.objectClass ∨ (db.find? dn = none ∧ (db'.find? dn).map Record.objectClass = some .other))
    (sdn : Dn) : samdbSearchForParentDomain db' sdn = samdbSearchForParentDomain db sdn := by
  induction sdn with
  | nil => rfl
  | cons rdn sdn ih =>
    rw [samdbSearchForParentDomain, samdbSearchForParentDomain]
    rcases h sdn with hsame | ⟨hnone, hother⟩
    · cases hfind : db.find? sdn with
      | none =>
        rw [hfind, Option.map_none, Option.map_eq_none_iff] at hsame
        rw [hsame]
        exact ih
      | some r =>
        rw [hfind, Option.map_some, Option.map_eq_some_iff] at hsame
        obtain ⟨r', hr', hclass⟩ := hsame
        rw [hr']
        dsimp only
        rw [hclass, ih]
    · obtain ⟨r, hr, hclass⟩ := Option.map_eq_some_iff.mp hother
      rw [hnone, hr]
      dsimp only
      rw [hclass, if_neg (fun h => h rfl)]
      exact ih

/-- The modification of the counter, from a number up. -/
theorem grows_setNextRid {oldRid rid : UInt32} (hdom : IsDomain db domDn domSid) (hle : oldRid ≤ rid)
    (h : samldbSetNextRid db domDn oldRid (rid + 1) = .ok db') : Grows domDn domSid db db' := by
  obtain ⟨hzero, hold, hdb, hnew⟩ := samldbSetNextRid_ok h
  refine ⟨hdb ▸ hdom.setNextRid _ _, fun next hnext => ⟨rid + 1, hnew, ?_⟩, ?_⟩
  · rw [hold] at hnext
    cases hnext
    exact UInt32.le_trans hle (UInt32.le_of_lt (lt_succ_of_ne_zero hzero))
  · subst hdb
    refine samdbSearchForParentDomain_congr fun dn => .inl ?_
    by_cases hdn : dn = domDn
    · subst hdn
      obtain ⟨r, hr, _⟩ := hdom.found
      rw [Samdb.find?_setNextRid_self hr, hr]
      rfl
    · rw [Samdb.find?_setNextRid_ne hdn]

theorem grows_ldbAdd {sids : List DomSid} (hdom : IsDomain db domDn domSid)
    (h : ldbAdd db dn sids refusal = .ok db') : Grows domDn domSid db db' := by
  obtain ⟨hdom', hsame⟩ := ldbAdd_keeps hdom h
  refine ⟨hdom', fun next hnext => ⟨next, hsame.trans hnext, UInt32.le_refl _⟩, ?_⟩
  unfold ldbAdd at h
  split at h
  · cases h
  · split at h
    · rename_i hnew
      cases h
      refine samdbSearchForParentDomain_congr fun dn' => ?_
      by_cases hdn : dn = dn'
      · subst hdn
        have hnone : db.find? dn = none := by
          rw [Samdb.find?, List.find?_eq_none]
          intro r hr
          simpa using hnew r hr
        refine .inr ⟨hnone, ?_⟩
        rw [@Samdb.find?_of_mem (db.insert ⟨dn, .other, sids, none⟩ hnew) ⟨dn, .other, sids, none⟩
          List.mem_cons_self]
        rfl
      · exact .inl (by rw [Samdb.find?_insert_ne hdn])
    · cases h

/-! ## One step -/

/-- What one step of one process comes to, when the counter was not overtaken. A SID becomes its own only by the swap of
the counter, which moves it from a number that is not above the RID. -/
structure Stepped (domDn : Dn) (domSid : DomSid) (db : Samdb) (a : AddState) (p : AddState × Samdb) : Prop where
  grows : Grows domDn domSid db p.2
  ok : AddOk domDn domSid p.2 p.1
  owned : ∀ sid, p.1.owned = some sid → a.owned = some sid ∨
    ∃ rid oldRid, sid = domSidAddRid domSid rid ∧ samldbFindNextRid db domDn = .ok oldRid ∧ oldRid ≤ rid

theorem stepped_addStep {s : RidRace} {dns : Nat → Dn} {e : Nat × Option LdbError} (hdom : IsDomain s.db domDn domSid)
    (hok : AddOk domDn domSid s.db (s.adds e.1)) (hturn : NotOvertaken s e) :
    Stepped domDn domSid s.db (s.adds e.1) (addStep (dns e.1) e.2 (s.adds e.1, s.db)) := by
  have hstay : ∀ {a a' : AddState}, AddOk domDn domSid s.db a' → a'.owned = none ∨ a'.owned = a.owned →
      Stepped domDn domSid s.db a (a', s.db) := by
    intro a a' hok' howned
    refine ⟨.refl hdom, hok', fun sid hsid => .inl ?_⟩
    rcases howned with hnone | hsame
    · rw [hnone] at hsid
      cases hsid
    · exact hsame ▸ hsid
  have hfailed : ∀ {a : AddState} (e : LdbError), Stepped domDn domSid s.db a (.failed e, s.db) :=
    fun e => hstay trivial (.inl rfl)
  obtain ⟨record, hrecord, _, hsids⟩ := hdom.found
  rw [NotOvertaken] at hturn
  cases ha : s.adds e.1 with
  | parentDomain sdn =>
    rw [ha] at hok
    cases sdn with
    | nil => exact hfailed _
    | cons rdn sdn =>
      rw [AddOk, samdbSearchForParentDomain] at hok
      rw [addStep]
      cases hfind : s.db.find? sdn with
      | none =>
        rw [hfind] at hok
        exact hstay hok (.inl rfl)
      | some r =>
        rw [hfind] at hok
        dsimp only at hok ⊢
        split at hok
        · rename_i hclass
          rw [if_pos hclass]
          exact hstay (Option.some.inj hok) (.inl rfl)
        · rename_i hclass
          rw [if_neg hclass]
          exact hstay hok (.inl rfl)
  | domainSid dn =>
    rw [ha] at hok
    cases (hok : dn = domDn)
    rw [addStep, findDomainSid, hrecord]
    dsimp only
    rw [hsids]
    exact hstay ⟨rfl, rfl⟩ (.inl rfl)
  | nextRid dn dom =>
    rw [ha] at hok
    obtain ⟨rfl, rfl⟩ := hok
    rw [addStep]
    cases samldbFindNextRid s.db dn with
    | error e => exact hfailed e
    | ok oldRid => exact hstay ⟨oldRid + 1, rfl⟩ (.inl rfl)
  | unused sid =>
    rw [ha] at hok
    rw [addStep]
    split
    · exact hfailed _
    · exact @hstay _ (.domain sid) hok (.inl rfl)
  | domain sid =>
    rw [ha] at hok
    obtain ⟨rid, rfl⟩ := hok
    obtain ⟨r, hr, hdn⟩ := hdom.domainsWithSid
    rw [addStep, hdom.room.domainPart_addRid, hr]
    exact hstay ⟨hdn, rid, rfl⟩ (.inl rfl)
  | reread dn sid =>
    rw [ha] at hok hturn
    obtain ⟨rfl, rid, rfl⟩ := hok
    rw [addStep]
    dsimp only at hturn ⊢
    cases hold : samldbFindNextRid s.db dn with
    | error e => exact hfailed e
    | ok oldRid =>
      rw [hold] at hturn
      dsimp only at hturn ⊢
      rw [if_pos hturn]
      rw [hdom.room.lastRid_addRid] at hturn
      exact hstay ⟨rfl, rid, rfl, hturn⟩ (.inl rfl)
  | setNextRid dn oldRid sid =>
    rw [ha] at hok
    obtain ⟨rfl, rid, rfl, hle⟩ := hok
    rw [addStep, hdom.room.lastRid_addRid]
    cases hset : samldbSetNextRid s.db dn oldRid (rid + 1) with
    | error e => exact hfailed e
    | ok db' =>
      obtain ⟨hzero, hold, _, hnew⟩ := samldbSetNextRid_ok hset
      refine ⟨grows_setNextRid hdom hle hset, ⟨rid, rid + 1, rfl, hnew, lt_succ_of_ne_zero hzero⟩, ?_⟩
      intro sid hsid
      cases hsid
      exact .inr ⟨rid, oldRid, rfl, hold, hle⟩
  | add sid =>
    rw [ha] at hok
    rw [addStep]
    cases hadd : ldbAdd s.db (dns e.1) [sid] e.2 with
    | error e => exact hfailed e
    | ok db' =>
      have hgrows := grows_ldbAdd hdom hadd
      exact ⟨hgrows, AddOk.grows (a := .added sid) hok hgrows, fun _ hsid => .inl hsid⟩
  | added sid =>
    rw [ha] at hok
    exact hstay hok (.inr rfl)
  | failed e => exact hfailed e

/-! ## Runs -/

/-- What holds while no add overtakes another. -/
structure RaceInv (domDn : Dn) (domSid : DomSid) (s : RidRace) : Prop where
  domain : IsDomain s.db domDn domSid
  ok : ∀ i, AddOk domDn domSid s.db (s.adds i)
  distinct : ∀ i j sid, i ≠ j → (s.adds i).owned = some sid → (s.adds j).owned ≠ some sid

/-- The counter is above a SID that an add has made its own. -/
theorem AddOk.below {a : AddState} (h : AddOk domDn domSid db a) (howned : a.owned = some sid) :
    Below domDn domSid db sid := by
  cases a with
  | add sid' | added sid' =>
    cases howned
    exact h
  | parentDomain | domainSid | nextRid | unused | domain | reread | setNextRid | failed => cases howned

theorem RaceInv.step {s : RidRace} {dns : Nat → Dn} {e : Nat × Option LdbError} (h : RaceInv domDn domSid s)
    (hturn : NotOvertaken s e) : RaceInv domDn domSid (s.next dns e) := by
  have hstep := @stepped_addStep _ _ _ dns _ h.domain (h.ok e.1) hturn
  have hself : (s.next dns e).adds e.1 = (addStep (dns e.1) e.2 (s.adds e.1, s.db)).1 := Function.update_self ..
  have hothers : ∀ i, i ≠ e.1 → (s.next dns e).adds i = s.adds i := fun i hi => Function.update_of_ne hi ..
  -- a SID that the process makes its own has a RID that the counter is not above, those of the others are below it
  have hnew : ∀ i sid, i ≠ e.1 → ((s.next dns e).adds e.1).owned = some sid → (s.adds i).owned ≠ some sid := by
    intro i sid hi howned hother
    rw [hself] at howned
    rcases hstep.owned sid howned with hbefore | ⟨rid, oldRid, hsid, hold, hle⟩
    · exact h.distinct i e.1 sid hi hother hbefore
    · obtain ⟨rid', next, hsid', hnext, hlt⟩ := (h.ok i).below hother
      rw [hsid] at hsid'
      rw [h.domain.room.addRid_injective hsid'] at hle
      rw [hold] at hnext
      cases hnext
      exact UInt32.not_le.mpr hlt hle
  refine ⟨hstep.grows.domain, fun i => ?_, fun i j sid hij hi hj => ?_⟩
  · by_cases hi : i = e.1
    · rw [hi, hself]
      exact hstep.ok
    · rw [hothers i hi]
      exact (h.ok i).grows hstep.grows
  · by_cases hik : i = e.1
    · subst hik
      rw [hothers j (Ne.symm hij)] at hj
      exact hnew j sid (Ne.symm hij) hi hj
    · rw [hothers i hik] at hi
      by_cases hjk : j = e.1
      · subst hjk
        exact hnew i sid hij hj hi
      · rw [hothers j hjk] at hj
        exact h.distinct i j sid hij hi hj

end Samba.Dsdb
