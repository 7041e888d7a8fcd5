/-
Special groups under replication: what an active replica of a special group leaves of the members that an active
record of another owner has. The members of the two lists are carried over, unless the record is left alone although
it has a member that its owner no longer sends.
-/
import Samba.Wrepl.ApplyRecords

namespace Samba.Wrepl

open CString List

/-! ## Adding many addresses -/

/-- A loop of `winsdb_addr_list_add` calls. -/
def addAddrs (h : WinsdbHandle) (addresses news : List WinsdbAddr) : List WinsdbAddr :=
  news.foldl (fun l new => winsdbAddrListAdd h l new.address new.winsOwner new.expireTime false) addresses

/-- A list whose addresses come from a set of at most 25 has room for every address of the set. -/
theorem room_of_card {addresses : List WinsdbAddr} (hd : Distinct addresses) {U : Finset Text} (hU : U.card ≤ 25)
    (hin : ∀ x ∈ addresses, x.address ∈ U) {a : Text} (ha : a ∈ U) :
    a ∈ addresses.map (·.address) ∨ addresses.length < 25 := by
  by_cases hmem : a ∈ addresses.map (·.address)
  · exact .inl hmem
  · have hnodup : (a :: addresses.map (·.address)).Nodup := nodup_cons.mpr ⟨hmem, hd⟩
    have hsub : (a :: addresses.map (·.address)).toFinset ⊆ U := by
      intro b hb
      rcases mem_cons.mp (mem_toFinset.mp hb) with rfl | hb
      · exact ha
      · obtain ⟨x, hx, rfl⟩ := mem_map.mp hb
        exact hin x hx
    have hcard := Finset.card_le_card hsub
    rw [toFinset_card_of_nodup hnodup, length_cons, length_map] at hcard
    omega

theorem distinct_nil : Distinct [] := nodup_nil

/-- What a loop of additions leaves when there is room: the new entries, and the old ones they do not replace. -/
structure AddedAll (addresses news result : List WinsdbAddr) : Prop where
  distinct : Distinct result
  covered : ∀ x ∈ addresses ++ news, x.address ∈ result.map (·.address)
  source : ∀ x ∈ result, (x ∈ addresses ∧ x.address ∉ news.map (·.address)) ∨ x ∈ news

theorem addAddrs_ok (h : WinsdbHandle) {U : Finset Text} (hU : U.card ≤ 25) {news addresses : List WinsdbAddr}
    (hd : Distinct addresses) (hin : ∀ x ∈ addresses, x.address ∈ U) (hnew : ∀ x ∈ news, x.address ∈ U) :
    AddedAll addresses news (addAddrs h addresses news) := by
  induction news generalizing addresses with
  | nil =>
    refine ⟨hd, fun x hx => ?_, fun x hx => .inl ⟨hx, by simp⟩⟩
    rw [append_nil] at hx
    exact mem_map_of_mem hx
  | cons new news ih =>
    have hroom := room_of_card hd hU hin (hnew new (by simp))
    have hmem := fun x => (mem_winsdbAddrListAdd (h := h) (x := x) hd hroom).1
    have hd1 := (mem_winsdbAddrListAdd (h := h) (x := new) hd hroom).2
    have hin1 : ∀ x ∈ winsdbAddrListAdd h addresses new.address new.winsOwner new.expireTime false, x.address ∈ U := by
      intro x hx
      rcases (hmem x).mp hx with ⟨hx, -⟩ | rfl
      · exact hin x hx
      · exact hnew x (by simp)
    have hall := ih hd1 hin1 fun x hx => hnew x (by simp [hx])
    rw [addAddrs, foldl_cons, ← addAddrs]
    refine ⟨hall.distinct, fun x hx => ?_, fun x hx => ?_⟩
    · -- an old entry with the address of the new one is covered by the new one
      by_cases hxn : x.address = new.address
      · rw [hxn]
        exact hall.covered new (mem_append_left _ ((hmem new).mpr (.inr rfl)))
      · refine hall.covered x ?_
        rcases mem_append.mp hx with hx | hx
        · exact mem_append_left _ ((hmem x).mpr (.inl ⟨hx, hxn⟩))
        · rcases mem_cons.mp hx with rfl | hx
          · exact absurd rfl hxn
          · exact mem_append_right _ hx
    · rcases hall.source x hx with ⟨hx, hxn⟩ | hx
      · rcases (hmem x).mp hx with ⟨hx, hxa⟩ | rfl
        · exact .inl ⟨hx, by simpa [hxa] using hxn⟩
        · exact .inr (by simp)
      · exact .inr (by simp [hx])

/-- The addresses of a replica as entries of a list. -/
def replicaAddrs (expireTime : Int) (replica : WreplName) : List WinsdbAddr :=
  replica.addresses.map fun a => ⟨a.address, a.owner, expireTime⟩

theorem addReplicaAddrs_eq (h : WinsdbHandle) (expireTime : Int) (addresses : List WinsdbAddr) (replica : WreplName) :
    addReplicaAddrs h expireTime addresses replica = addAddrs h addresses (replicaAddrs expireTime replica) := by
  rw [addReplicaAddrs, addAddrs, replicaAddrs, foldl_map]

theorem map_address_replicaAddrs (expireTime : Int) (replica : WreplName) :
    (replicaAddrs expireTime replica).map (·.address) = replica.addresses.map (·.address) := by
  simp [replicaAddrs, Function.comp_def]

/-- The old addresses that the merge keeps. -/
def keptAddrs (owner : Text) (replica : WreplName) (record : WinsdbRecord) : List WinsdbAddr :=
  record.addresses.filter fun x => ¬(x.address ∉ replica.addresses.map (·.address) ∧ x.winsOwner = owner)

theorem mergeOldAddr_fst (h : WinsdbHandle) (owner : Text) (replica : WreplName) (merge : List WinsdbAddr × Bool)
    (addr : WinsdbAddr) : (mergeOldAddr h owner replica merge addr).1 =
      if addr.address ∉ replica.addresses.map (·.address) ∧ addr.winsOwner = owner then merge.1
      else winsdbAddrListAdd h merge.1 addr.address addr.winsOwner addr.expireTime false := by
  have hfound : (replica.addresses.find? (·.address = addr.address)).isNone = true ↔
      addr.address ∉ replica.addresses.map (·.address) := by simp [List.find?_eq_none]
  simp only [mergeOldAddr, hfound]
  split <;> rfl

theorem mergeOldAddrs_eq (h : WinsdbHandle) (owner : Text) (replica : WreplName) (record : WinsdbRecord) :
    (mergeOldAddrs h owner replica record).1 = addAddrs h [] (keptAddrs owner replica record) := by
  suffices hloop : ∀ (old : List WinsdbAddr) (merge : List WinsdbAddr × Bool),
      (old.foldl (mergeOldAddr h owner replica) merge).1 = addAddrs h merge.1 (old.filter fun x =>
        ¬(x.address ∉ replica.addresses.map (·.address) ∧ x.winsOwner = owner)) from hloop record.addresses ([], false)
  intro old
  induction old with
  | nil => exact fun _ => rfl
  | cons addr old ih =>
    intro merge
    rw [foldl_cons, ih, mergeOldAddr_fst]
    by_cases hdrop : addr.address ∉ replica.addresses.map (·.address) ∧ addr.winsOwner = owner
    · rw [filter_cons_of_neg (by simpa using hdrop), if_pos hdrop]
    · rw [filter_cons_of_pos (by simp only [hdrop, not_false_iff, decide_true]), if_neg hdrop]
      rfl

/-! ## The members a replica leaves -/

/-- Everything the replica has is in the record, nothing of its owner's that it does not have, and every old member
of another owner. -/
structure SgroupKept (owner : Text) (replica : WreplName) (old new : WinsdbRecord) : Prop where
  replicated : ∀ a ∈ replica.addresses, a.address ∈ new.addresses.map (·.address)
  owned : ∀ x ∈ new.addresses, x.winsOwner = owner → x.address ∈ replica.addresses.map (·.address)
  others : ∀ x ∈ old.addresses, x.winsOwner ≠ owner → x.address ∈ new.addresses.map (·.address)

/-- The tables leave the record alone on the ground that it has the addresses of the replica, with their owners: all
of them and no others when the record is ours, at least one and perhaps others when it is a third server's. -/
def LeftAlone (localOwner : Text) (record : WinsdbRecord) (replica : WreplName) : Prop :=
  if record.winsOwner = localOwner then r1IsSameAs2AddressList record replica true = true
  else replica.addresses ≠ [] ∧ r1IsSupersetOf2AddressList record replica true = true

/-- An active replica of a special group, sent by its owner, against an active record of another owner. -/
structure SgroupReplica (owner : Text) (record : WinsdbRecord) (replica : WreplName) : Prop where
  recordStatic : record.isStatic = false
  recordState : record.state = .active
  recordType : record.type = .sgroup
  otherOwner : record.winsOwner ≠ owner
  replicaStatic : replica.isStatic = false
  replicaState : replica.state = .active
  replicaType : replica.type = .sgroup
  sender : replica.owner = owner
  different : (replica.addresses.map (·.address)).Nodup
  room : (record.addresses.map (·.address) ++ replica.addresses.map (·.address)).toFinset.card ≤ 25

theorem superset_mem {r1 : WinsdbRecord} {r2 : WreplName} {checkOwners : Bool}
    (h : r1IsSupersetOf2AddressList r1 r2 checkOwners = true) {a : WreplAddress} (ha : a ∈ r2.addresses) :
    a.address ∈ r1.addresses.map (·.address) := by
  have hfound := all_eq_true.mp h a ha
  rcases hfind : r1.addresses.find? (·.address = a.address) with _ | x
  · rw [hfind] at hfound
    cases hfound
  · exact mem_map.mpr ⟨x, mem_of_find?_eq_some hfind, by simpa using List.find?_some hfind⟩

/-- As many addresses, all of them in the record and no two the same: the record has no others. -/
theorem same_mem {r1 : WinsdbRecord} {r2 : WreplName} {checkOwners : Bool}
    (h : r1IsSameAs2AddressList r1 r2 checkOwners = true) (hd : (r2.addresses.map (·.address)).Nodup) {x : WinsdbAddr}
    (hx : x ∈ r1.addresses) : x.address ∈ r2.addresses.map (·.address) := by
  unfold r1IsSameAs2AddressList at h
  split_ifs at h with hlen
  have hsub : r2.addresses.map (·.address) ⊆ r1.addresses.map (·.address) := by
    intro b hb
    obtain ⟨a, ha, rfl⟩ := mem_map.mp hb
    exact superset_mem h ha
  have hperm : (r2.addresses.map (·.address)).Perm (r1.addresses.map (·.address)) :=
    (subperm_of_subset hd hsub).perm_of_length_le (by simp only [length_map]; omega)
  exact hperm.mem_iff.mpr (mem_map_of_mem hx)

section

variable {service : WreplsrvService} {db : Winsdb} {now later : Int} {owner : Text} {replica : WreplName}
  {record : WinsdbRecord}

/-- The action of the tables for a special group, spelled out. -/
theorem chooseAction_sgroup (hr : SgroupReplica owner record replica) {localOwner : Text} :
    chooseAction localOwner owner record replica =
      if record.winsOwner = localOwner then
        if r1IsSameAs2AddressList record replica true then .notReplace else .doSgroupMerge
      else if replica.addresses.length = 0 then
        if rContainsAddrsFromOwner record owner then .doSgroupMerge else .notReplace
      else if r1IsSupersetOf2AddressList record replica true then .notReplace
      else if r1IsSameAs2AddressList record replica false then .doReplace
      else .doSgroupMerge := by
  by_cases hl : record.winsOwner = localOwner <;>
    simp [chooseAction, hl, hr.recordStatic, hr.replicaStatic, hr.recordType, hr.recordState, hr.replicaState,
      hr.replicaType, hr.sender, hr.otherOwner, replaceSgroupOwnedVsXReplica,
      replaceSgroupReplicaVsXReplica]

/-- A saved record whose entries come from the replica, or are old members that are not the owner's. -/
theorem saved_kept {made : WinsdbRecord} {flags : WinsdbFlags} (hname : made.name = replica.name)
    (hs : made.isStatic = false) (hthere : (db.records replica.name).isSome) (hversion : db.maxVersion + 1 < 2 ^ 64)
    (hall : ∀ a, a ∈ replica.addresses.map (·.address) ∨
        (∃ x ∈ record.addresses, x.address = a ∧ x.winsOwner ≠ owner) → a ∈ made.addresses.map (·.address))
    (hfrom : ∀ x ∈ made.addresses, x.address ∈ replica.addresses.map (·.address) ∨
        ownerOf service.winsDb x.winsOwner ≠ owner) :
    ∃ msg, (saved db (winsdbModify service.winsDb db made flags)).db.records replica.name = some msg ∧
      SgroupKept owner replica record (msg.decode service.winsDb) := by
  obtain ⟨stored, db', hmodify, hrecords, haddr, hstatic⟩ :=
    winsdbModify_ok service.winsDb flags (hname ▸ hthere) hversion
  have hs' : stored.isStatic = false := hstatic.trans hs
  have hback : ∀ a ∈ made.addresses.map (·.address),
      a ∈ ((winsdbMessage stored).decode service.winsDb).addresses.map (·.address) := by
    intro a ha
    rw [← haddr] at ha
    obtain ⟨x, hx, rfl⟩ := mem_map.mp ha
    exact mem_map.mpr ⟨_, (mem_decode_winsdbMessage hs').mpr ⟨x, hx, rfl⟩, rfl⟩
  refine ⟨winsdbMessage stored, by rw [hmodify, ← hname]; exact hrecords, ?_⟩
  refine ⟨fun a ha => hback _ (hall _ (.inl (mem_map_of_mem ha))), fun x hx hxo => ?_,
    fun x hx hxo => hback _ (hall _ (.inr ⟨x, hx, rfl, hxo⟩))⟩
  obtain ⟨y, hy, rfl⟩ := (mem_decode_winsdbMessage hs').mp hx
  exact (hfrom y (haddr ▸ hy)).resolve_right (not_not.mpr hxo)

/-- The addresses of the record and of the replica together, at most 25. -/
def members (record : WinsdbRecord) (replica : WreplName) : Finset Text :=
  (record.addresses.map (·.address) ++ replica.addresses.map (·.address)).toFinset

theorem mem_members_of_replicaAddrs {expireTime : Int} {x : WinsdbAddr} (hx : x ∈ replicaAddrs expireTime replica) :
    x.address ∈ members record replica :=
  mem_toFinset.mpr (mem_append_right _ (map_address_replicaAddrs expireTime replica ▸ mem_map_of_mem hx))

theorem rDoSgroupMerge_kept (hr : SgroupReplica owner record replica) (hthere : (db.records replica.name).isSome)
    (hversion : db.maxVersion + 1 < 2 ^ 64)
    (hnormal : ∀ x ∈ record.addresses, ownerOf service.winsDb x.winsOwner = x.winsOwner) :
    ∃ msg, (rDoSgroupMerge service db later owner record replica).db.records replica.name = some msg ∧
      SgroupKept owner replica record (msg.decode service.winsDb) := by
  set expireTime := later + service.verifyInterval
  have hkept : ∀ x ∈ keptAddrs owner replica record, x ∈ record.addresses ∧
      (x.address ∈ replica.addresses.map (·.address) ∨ x.winsOwner ≠ owner) := by
    intro x hx
    obtain ⟨hx, hcond⟩ := mem_filter.mp hx
    exact ⟨hx, by simpa only [decide_eq_true_eq, not_and_or, not_not] using hcond⟩
  have hroom : (members record replica).card ≤ 25 := hr.room
  have hreplica : ∀ x ∈ replicaAddrs expireTime replica, x.address ∈ members record replica := fun _ hx =>
    mem_members_of_replicaAddrs hx
  have hold := addAddrs_ok service.winsDb hroom distinct_nil (by simp) fun x hx => mem_toFinset.mpr (mem_append_left _ (mem_map_of_mem (hkept x hx).1))
  have holdSource : ∀ x ∈ addAddrs service.winsDb [] (keptAddrs owner replica record), x ∈ keptAddrs owner replica record :=
    fun x hx => (hold.source x hx).resolve_left (by simp)
  have hadd := addAddrs_ok service.winsDb hroom hold.distinct
    (fun x hx => mem_toFinset.mpr
      (mem_append_left _ (mem_map_of_mem (hkept x (holdSource x hx)).1)))
    hreplica
  have hmade : (mergedRecord service later owner record replica).addresses =
      addAddrs service.winsDb (addAddrs service.winsDb [] (keptAddrs owner replica record))
        (replicaAddrs expireTime replica) := by
    rw [mergedRecord, addReplicaAddrs_eq, mergeOldAddrs_eq]
    rfl
  refine saved_kept rfl hr.replicaStatic hthere hversion ?_ ?_
  · rintro a (ha | ⟨x, hx, rfl, hxo⟩)
    · rw [← map_address_replicaAddrs expireTime] at ha
      obtain ⟨x, hx, rfl⟩ := mem_map.mp ha
      exact hmade ▸ hadd.covered x (mem_append_right _ hx)
    · have hx' : x ∈ keptAddrs owner replica record := mem_filter.mpr ⟨hx, by simp [hxo]⟩
      obtain ⟨y, hy, hya⟩ := mem_map.mp (hold.covered x (by simpa using hx'))
      rw [hmade, ← hya]
      exact hadd.covered y (mem_append_left _ hy)
  · intro x hx
    rcases hadd.source x (hmade ▸ hx) with ⟨hx, -⟩ | hx
    · obtain ⟨hmem, hcond⟩ := hkept x (holdSource x hx)
      exact hcond.imp_right fun hxo => by rwa [hnormal x hmem]
    · exact .inl (map_address_replicaAddrs expireTime replica ▸ mem_map_of_mem hx)

/-- So does the replacement, when the replica has the addresses of the record. -/
theorem rDoReplace_kept (hr : SgroupReplica owner record replica) (hthere : (db.records replica.name).isSome)
    (hversion : db.maxVersion + 1 < 2 ^ 64) (hsame : r1IsSameAs2AddressList record replica false) :
    ∃ msg, (rDoReplace service db later replica).db.records replica.name = some msg ∧
      SgroupKept owner replica record (msg.decode service.winsDb) := by
  set expireTime := later + service.verifyInterval
  have hroom : (members record replica).card ≤ 25 := hr.room
  have hreplica : ∀ x ∈ replicaAddrs expireTime replica, x.address ∈ members record replica := fun _ hx =>
    mem_members_of_replicaAddrs hx
  have hadd := addAddrs_ok service.winsDb hroom distinct_nil (by simp) hreplica
  have hmade : (replacingRecord service later replica).addresses =
      addAddrs service.winsDb [] (replicaAddrs expireTime replica) := by
    rw [replacingRecord, addReplicaAddrs_eq]
    rfl
  refine saved_kept rfl hr.replicaStatic hthere hversion ?_ fun x hx => .inl ?_
  · intro a ha
    have ha : a ∈ replica.addresses.map (·.address) := by
      rcases ha with ha | ⟨x, hx, rfl, -⟩
      · exact ha
      · exact same_mem hsame hr.different hx
    rw [← map_address_replicaAddrs expireTime] at ha
    obtain ⟨x, hx, rfl⟩ := mem_map.mp ha
    exact hmade ▸ hadd.covered x (by simpa using hx)
  · have hx := (hadd.source x (hmade ▸ hx)).resolve_left (by simp)
    exact map_address_replicaAddrs expireTime replica ▸ mem_map_of_mem hx

/-- Leaving the record alone is right unless, as stored, it has a member of the owner's that the replica has not. -/
theorem notReplace_kept {h : WinsdbHandle} {msg : WinsdbMessage}
    (hsub : ∀ x ∈ record.addresses, x ∈ (msg.decode h).addresses)
    (hsuper : ∀ a ∈ replica.addresses, a.address ∈ record.addresses.map (·.address)) :
    SgroupKept owner replica record (msg.decode h) ↔
      ¬∃ x ∈ (msg.decode h).addresses, x.winsOwner = owner ∧ x.address ∉ replica.addresses.map (·.address) := by
  refine ⟨fun hkept ⟨x, hx, hxo, hxa⟩ => hxa (hkept.owned x hx hxo), fun hno => ⟨fun a ha => ?_, fun x hx hxo => ?_,
    fun x hx _ => mem_map_of_mem (hsub x hx)⟩⟩
  · obtain ⟨x, hx, hxa⟩ := mem_map.mp (hsuper a ha)
    exact hxa ▸ mem_map_of_mem (hsub x hx)
  · by_contra hxa
    exact hno ⟨x, hx, hxo, hxa⟩

/-- An active replica of a special group leaves the members it should exactly when the record is not left alone with
a member of the sender's that the replica does not have. -/
theorem wreplsrvApplyOneRecord_sgroup_iff {msg : WinsdbMessage} (hstored : db.records replica.name = some msg)
    (hload : winsdbRecord service.winsDb now msg = .ok record) (hr : SgroupReplica owner record replica)
    (hversion : db.maxVersion + 1 < 2 ^ 64) :
    (∃ msg', (wreplsrvApplyOneRecord service db now later owner replica).db.records replica.name = some msg' ∧
        SgroupKept owner replica record (msg'.decode service.winsDb)) ↔
      ¬(LeftAlone service.winsDb.localOwner record replica ∧ ∃ x ∈ (msg.decode service.winsDb).addresses,
        x.winsOwner = owner ∧ x.address ∉ replica.addresses.map (·.address)) := by
  have hthere : (db.records replica.name).isSome := by rw [hstored]; rfl
  have hexp := winsdbRecord_ok hload
  have hs : (msg.decode service.winsDb).isStatic = false := by
    rw [← expireRecord_isStatic service.winsDb now, ← hexp]
    exact hr.recordStatic
  obtain ⟨hsub, hall⟩ := expireRecord_addresses service.winsDb now hs
  rw [← hexp, ← expireRecord_winsOwner service.winsDb now, ← hexp] at hall
  rw [← hexp] at hsub
  have hnormal : ∀ x ∈ record.addresses, ownerOf service.winsDb x.winsOwner = x.winsOwner := fun x hx =>
    ownerOf_decode (hsub x hx)
  have hmerge : ∃ msg', (rDoSgroupMerge service db later owner record replica).db.records replica.name = some msg' ∧
      SgroupKept owner replica record (msg'.decode service.winsDb) := rDoSgroupMerge_kept hr hthere hversion hnormal
  have halone (hsuper : ∀ a ∈ replica.addresses, a.address ∈ record.addresses.map (·.address)) :
      (∃ msg', db.records replica.name = some msg' ∧ SgroupKept owner replica record (msg'.decode service.winsDb)) ↔
        ¬∃ x ∈ (msg.decode service.winsDb).addresses, x.winsOwner = owner ∧
          x.address ∉ replica.addresses.map (·.address) := by
    rw [← notReplace_kept hsub hsuper, hstored]
    exact ⟨fun ⟨_, he, hkept⟩ => Option.some.inj he ▸ hkept, fun hkept => ⟨msg, rfl, hkept⟩⟩
  simp only [wreplsrvApplyOneRecord, winsdbLookup, hstored, hload, chooseAction_sgroup hr]
  by_cases hl : record.winsOwner = service.winsDb.localOwner
  · -- our own record: left alone when the lists are the same, merged otherwise
    simp only [LeftAlone, hl, if_true]
    by_cases hsame : r1IsSameAs2AddressList record replica true
    · simp only [hsame, if_true, rNotReplace, true_and]
      have hsuper : r1IsSupersetOf2AddressList record replica true := by
        unfold r1IsSameAs2AddressList at hsame
        split_ifs at hsame
        exact hsame
      exact halone fun a ha => superset_mem hsuper ha
    · simp only [hsame, Bool.false_eq_true, if_false, false_and, not_false_eq_true, iff_true]
      exact hmerge
  · simp only [LeftAlone, hl, if_false]
    by_cases hempty : replica.addresses.length = 0
    · -- an empty replica takes away what is the owner's
      have hnil : replica.addresses = [] := length_eq_zero_iff.mp hempty
      simp only [hnil, length_nil, if_true, ne_eq, not_true, false_and, not_false_eq_true, iff_true] at halone hmerge ⊢
      by_cases hcontains : rContainsAddrsFromOwner record owner
      · simp only [hcontains, if_true]
        exact hmerge
      · simp only [hcontains, Bool.false_eq_true, if_false, rNotReplace]
        refine (halone (by simp)).mpr ?_
        rintro ⟨x, hx, hxo, -⟩
        exact hcontains (any_eq_true.mpr ⟨x, hall hl ▸ hx, by simpa using hxo⟩)
    · have hne : replica.addresses ≠ [] := fun hnil => hempty (by rw [hnil]; rfl)
      simp only [hempty, if_false, hne, ne_eq, not_false_eq_true, true_and]
      by_cases hsuper : r1IsSupersetOf2AddressList record replica true
      · simp only [hsuper, if_true, rNotReplace, true_and]
        exact halone fun a ha => superset_mem hsuper ha
      · simp only [hsuper, Bool.false_eq_true, if_false, false_and, not_false_eq_true, iff_true]
        by_cases hsame : r1IsSameAs2AddressList record replica false
        · simp only [hsame, if_true]
          exact rDoReplace_kept hr hthere hversion hsame
        · simp only [hsame, Bool.false_eq_true, if_false]
          exact hmerge

end

/-- Server `c` holds a group that `a` registered, with the members 1 and 2 of `b`; then `b` replicates 1 only. -/
def staleService : WreplsrvService :=
  { winsDb := ⟨[chr 'c'], fun _ l => l, fun _ l => .refl l⟩, verifyInterval := 10, nbtServer := true }

def staleName : NbtName := ⟨[chr 'g'], none, 0x1c⟩

def staleMessage : WinsdbMessage :=
  { name := staleName, recordType := .sgroup, recordState := .active, nodeType := .b, isStatic := false,
    expireTime := some 10, versionID := 1, winsOwner := some [chr 'a'],
    address := [.full [chr '1'] [chr 'b'] 10, .full [chr '2'] [chr 'b'] 10], registeredBy := none }

def staleDb : Winsdb := { records := fun name => if name = staleName then some staleMessage else none, maxVersion := 1 }

def staleReplica : WreplName :=
  { name := staleName, type := .sgroup, state := .active, node := .b, isStatic := false, versionId := 2,
    owner := [chr 'b'], addresses := [⟨[chr 'b'], [chr '1']⟩] }

def staleRecord : WinsdbRecord := staleMessage.decode staleService.winsDb

theorem staleReplica_sgroup : SgroupReplica [chr 'b'] staleRecord staleReplica :=
  ⟨rfl, rfl, rfl, by decide, rfl, rfl, rfl, rfl, by decide, by decide⟩

/-- The member that is gone stays. -/
theorem wreplsrvApplyOneRecord_stale :
    winsdbLookup staleService.winsDb staleDb 0 staleName = .ok staleRecord ∧
    SgroupReplica [chr 'b'] staleRecord staleReplica ∧
    ¬∃ msg, (wreplsrvApplyOneRecord staleService staleDb 0 0 [chr 'b'] staleReplica).db.records staleName = some msg ∧
      SgroupKept [chr 'b'] staleReplica staleRecord (msg.decode staleService.winsDb) := by
  refine ⟨rfl, staleReplica_sgroup, ?_⟩
  rintro ⟨msg, hmsg, hkept⟩
  have hsame : msg = staleMessage := (Option.some.inj hmsg).symm
  subst hsame
  exact absurd (hkept.owned ⟨[chr '2'], [chr 'b'], 10⟩ (by decide) rfl) (by decide)

def bothReplica : WreplName :=
  { staleReplica with addresses := [⟨[chr 'b'], [chr '1']⟩, ⟨[chr 'b'], [chr '2']⟩] }

/-- With member 2 in the replica too, leaving the record alone is right. -/
theorem wreplsrvApplyOneRecord_both :
    ∃ msg, (wreplsrvApplyOneRecord staleService staleDb 0 0 [chr 'b'] bothReplica).db.records staleName = some msg ∧
      SgroupKept [chr 'b'] bothReplica staleRecord (msg.decode staleService.winsDb) := by
  have hr : SgroupReplica [chr 'b'] staleRecord bothReplica :=
    ⟨rfl, rfl, rfl, by decide, rfl, rfl, rfl, rfl, by decide, by decide⟩
  have hload : winsdbRecord staleService.winsDb 0 staleMessage = .ok staleRecord := rfl
  refine (wreplsrvApplyOneRecord_sgroup_iff rfl hload hr (by decide)).mpr ?_
  rintro ⟨-, x, hx, -, hgone⟩
  have hall : ∀ x ∈ (staleMessage.decode staleService.winsDb).addresses,
      x.address ∈ bothReplica.addresses.map (·.address) := by decide
  exact hgone (hall x hx)

end Samba.Wrepl
