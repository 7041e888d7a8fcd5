/-
The order of the stored meta data: the array of a new object, as replmd_add_originating makes it, and what merges make of it
(dsdb/samdb/ldb_modules/repl_meta_data.c). The entry of the RDN attribute belongs at the end. The sort of a merge finds its id in the
array that is sorted, at the index where the entry stood before, and the comparison takes the difference of two ids as an `int`.
-/
import Samba.Dsdb.MergeLoop
import Samba.Dsdb.MetaDataSort
import Samba.Dsdb.Samldb
import Samba.Lib.Transition

namespace Samba.Dsdb

open CString List Option Samba.Ldb Samba.Security Transition

/-! ## New objects -/

/-- `struct dsdb_attribute`. -/
structure DsdbAttribute where
  lDAPDisplayName : Text
  attributeID : UInt32
  systemFlags : UInt32
  deriving DecidableEq, Repr

/-- `dsdb_attribute_by_lDAPDisplayName`. -/
def dsdbAttributeByLDAPDisplayName (schema : List DsdbAttribute) (name : Text) : Option DsdbAttribute :=
  schema.find? fun cur => sameCase cur.lDAPDisplayName name

/-- An attribute that is neither constructed nor kept to the replica has meta data. -/
def DsdbAttribute.hasMetaData (sa : DsdbAttribute) : Bool := !(sa.systemFlags &&& 1 ≠ 0 || sa.systemFlags &&& 4 ≠ 0)

/-- `ldb_msg_remove_attr`: the first element of the name is removed. -/
def ldbMsgRemoveAttr (elements : List MessageElement) (attr : Text) : List MessageElement :=
  elements.eraseP fun el => sameCase el.name attr

/-- What `replmd_add_originating` works on: the elements and the RDN of the message, and the values that it generates. -/
structure AddRequest where
  elements : List MessageElement
  rdnName : Text
  rdnValue : LdbVal
  timeStr : Text
  instanceType : Text
  now : UInt64
  ourInvocationId : Guid
  seqNum : UInt64

namespace AddRequest

/-- The autogenerated attributes behind the one of the RDN. -/
def autogenerated : List Text :=
  ["name", "whenCreated", "whenChanged", "uSNCreated", "uSNChanged", "replPropertyMetaData"].map fun s => s.toList.map chr

/-- The elements that get meta data. -/
def message (r : AddRequest) (rdnAttr : DsdbAttribute) : List MessageElement :=
  let msg := (r.rdnName :: autogenerated).foldl ldbMsgRemoveAttr r.elements
  let msg := ldbMsgAddValue msg rdnAttr.lDAPDisplayName r.rdnValue
  let msg := ldbMsgAddValue msg ("name".toList.map chr) r.rdnValue
  let msg := ldbMsgAddValue msg ("whenCreated".toList.map chr) (.ofText r.timeStr)
  ldbMsgAddValue msg ("instanceType".toList.map chr) (.ofText r.instanceType)

def entry (r : AddRequest) (attid : UInt32) : ReplPropertyMetaData1 where
  attid := attid
  version := 1
  originatingChangeTime := r.now
  originatingInvocationId := r.ourInvocationId
  originatingUsn := r.seqNum
  localUsn := r.seqNum

end AddRequest

section NewObject

variable (schema : List DsdbAttribute)

/-- The entries of the elements of a message, before they are sorted. -/
def newMetaData (r : AddRequest) : List MessageElement → Except LdbError (List ReplPropertyMetaData1)
  | [] => .ok []
  | e :: elements =>
    if e.name.head? = some (chr '@') then newMetaData r elements
    else match dsdbAttributeByLDAPDisplayName schema e.name with
      | none => .error .noSuchAttribute
      | some sa =>
        if sa.hasMetaData then (newMetaData r elements).map (r.entry sa.attributeID :: ·) else newMetaData r elements

/-- `replmd_add_originating`: the meta data the object is stored with, or `none` where the sort leaves the array. -/
def replmdAddOriginating (r : AddRequest) : Except LdbError (Option (List ReplPropertyMetaData1)) :=
  if r.elements.any fun el => sameCase el.name ("objectGUID".toList.map chr) then .error .unwillingToPerform
  else if r.elements.any fun el => sameCase el.name ("instanceType".toList.map chr) then .error .unwillingToPerform
  else match dsdbAttributeByLDAPDisplayName schema r.rdnName with
    | none => .error .operationsError
    | some rdnAttr => (newMetaData schema r (r.message rdnAttr)).map fun nmd =>
      (replPropertyMetaDataCtr1Sort (fun _ => rdnAttr.attributeID) nmd).map (List.map ReplPropertyMetaData1.stored)

end NewObject

/-! ## Merges -/

/-- The changes of an object: the entries of `meta_data` with the elements of `msg`, as `dsdb_convert_object` pairs them. -/
structure ObjectChanges where
  seqNum : UInt64
  incoming : List (ReplPropertyMetaData1 × MessageElement)

/-- `replmd_replicated_apply_merge`: the meta data that is stored then. It stays as it is when no element is left in the message;
`none` is for a pointer or a sort that leaves the array. -/
def replmdReplicatedApplyMerge (omd : List ReplPropertyMetaData1) (u : ObjectChanges) : Option (List ReplPropertyMetaData1) := do
  let s ← mergeLoop u.seqNum 0 (u.incoming.map Prod.fst) ⟨omd, u.incoming.map Prod.snd, 0⟩
  if omd.length = 0 then none
  else
    let rdnIdx := omd.length - 1
    let nmd ← replPropertyMetaDataCtr1Sort (fun array => (array rdnIdx).attid) s.nmd
    if s.elements.isEmpty then some omd else some (nmd.map ReplPropertyMetaData1.stored)

/-- The stored meta data after changes. -/
def afterMerge (omd : Option (List ReplPropertyMetaData1)) (u : ObjectChanges) : Option (List ReplPropertyMetaData1) :=
  omd.bind fun omd => replmdReplicatedApplyMerge omd u

/-! ## When the sorts find the order -/

/-- The ids of the attributes of a message that have meta data. -/
def metaDataIds (schema : List DsdbAttribute) (elements : List MessageElement) : List UInt32 :=
  elements.filterMap fun e =>
    if e.name.head? = some (chr '@') then none
    else ((dsdbAttributeByLDAPDisplayName schema e.name).filter (·.hasMetaData)).map (·.attributeID)

/-- A new object whose RDN attribute has meta data, and whose ids can be compared. -/
structure AddsInOrder (schema : List DsdbAttribute) (rdnAttr : DsdbAttribute) (r : AddRequest) : Prop where
  rdnNamed : r.rdnName.head? ≠ some (chr '@')
  rdnHasMetaData : rdnAttr.hasMetaData = true
  comparable : Comparable rdnAttr.attributeID (metaDataIds schema (r.message rdnAttr))

/-- Changes that bring in one attribute at most that has no entry yet, with ids that can be compared. -/
structure MergesInOrder (rdnAttid : UInt32) (omd : List ReplPropertyMetaData1) (u : ObjectChanges) : Prop where
  oneNew : ∃ a, ∀ i ∈ u.incoming, i.1.attid ∈ omd.map (·.attid) ∨ i.1.attid = a
  comparable : Comparable rdnAttid (omd.map (·.attid) ++ u.incoming.map (·.1.attid))

/-! ## A new object -/

section NewObject

variable {schema : List DsdbAttribute} {rdnAttr : DsdbAttribute} {r : AddRequest} {elements : List MessageElement}

theorem newMetaData_ids : ∀ {elements : List MessageElement} {nmd : List ReplPropertyMetaData1},
    newMetaData schema r elements = .ok nmd → nmd.map (·.attid) = metaDataIds schema elements
  | [], _, h => by
    rw [newMetaData, Except.ok.injEq] at h
    rw [← h]
    rfl
  | e :: elements, nmd, h => by
    rw [newMetaData] at h
    rw [metaDataIds, filterMap_cons]
    by_cases hat : e.name.head? = some (chr '@')
    · rw [if_pos hat] at h ⊢
      exact newMetaData_ids h
    · rw [if_neg hat] at h ⊢
      cases hsa : dsdbAttributeByLDAPDisplayName schema e.name with
      | none =>
        rw [hsa] at h
        cases h
      | some sa =>
        rw [hsa] at h
        dsimp only at h
        by_cases hmd : sa.hasMetaData = true
        · rw [if_pos hmd] at h
          cases hrest : newMetaData schema r elements with
          | error err =>
            rw [hrest] at h
            cases h
          | ok rest =>
            rw [hrest] at h
            obtain rfl := Except.ok.inj h
            rw [filter_some, if_pos hmd]
            exact congrArg (sa.attributeID :: ·) (newMetaData_ids hrest)
        · rw [if_neg hmd] at h
          rw [filter_some, if_neg hmd]
          exact newMetaData_ids h

theorem map_name_modify (f : MessageElement → MessageElement) (hf : ∀ el, (f el).name = el.name) :
    ∀ (elements : List MessageElement) (i : Nat), (elements.modify i f).map (·.name) = elements.map (·.name)
  | [], i => by rw [modify_nil]
  | el :: elements, 0 => by rw [modify_zero_cons, map_cons, map_cons, hf]
  | el :: elements, i + 1 => by rw [modify_succ_cons, map_cons, map_cons, map_name_modify f hf elements i]

/-- The names of the elements stay, and the attribute is among them. -/
theorem names_ldbMsgAddValue (elements : List MessageElement) (name : Text) (val : LdbVal) :
    elements.map (·.name) ⊆ (ldbMsgAddValue elements name val).map (·.name) ∧
      ∃ n ∈ (ldbMsgAddValue elements name val).map (·.name), sameCase n name = true := by
  rw [ldbMsgAddValue]
  cases hi : elements.findIdx? fun el => sameCase el.name name with
  | none =>
    refine ⟨?_, name, ?_, sameCase_refl name⟩
    · rw [map_append]
      exact subset_append_left _ _
    · rw [map_append]
      exact mem_append_right _ mem_cons_self
  | some i =>
    dsimp only
    rw [map_name_modify (fun el => { el with values := el.values ++ [val] }) (fun _ => rfl) elements i]
    obtain ⟨hlt, hname, _⟩ := List.findIdx?_eq_some_iff_getElem.1 hi
    exact ⟨List.Subset.refl _, _, mem_map.2 ⟨_, getElem_mem hlt, rfl⟩, hname⟩

/-- The RDN attribute is among the elements that get meta data. -/
theorem rdn_mem_message (r : AddRequest) (rdnAttr : DsdbAttribute) :
    ∃ el ∈ r.message rdnAttr, sameCase el.name rdnAttr.lDAPDisplayName = true := by
  rw [AddRequest.message]
  generalize (r.rdnName :: AddRequest.autogenerated).foldl ldbMsgRemoveAttr r.elements = msg
  obtain ⟨n, hn, hname⟩ := (names_ldbMsgAddValue msg rdnAttr.lDAPDisplayName r.rdnValue).2
  generalize ldbMsgAddValue msg rdnAttr.lDAPDisplayName r.rdnValue = msg at hn ⊢
  have h2 := (names_ldbMsgAddValue msg ("name".toList.map chr) r.rdnValue).1 hn
  have h3 := (names_ldbMsgAddValue _ ("whenCreated".toList.map chr) (.ofText r.timeStr)).1 h2
  have h4 := (names_ldbMsgAddValue _ ("instanceType".toList.map chr) (.ofText r.instanceType)).1 h3
  obtain ⟨el, hel, rfl⟩ := mem_map.1 h4
  exact ⟨el, hel, hname⟩

theorem toUpper_eq_at : ∀ c : UInt8, toUpper c = chr '@' → c = chr '@' := forall_byte (by decide +kernel)

theorem head?_ne_at {a b : Text} (h : sameCase a b = true) (hb : b.head? ≠ some (chr '@')) : a.head? ≠ some (chr '@') := by
  intro ha
  have hhead : (a.map toUpper).head? = (b.map toUpper).head? := by rw [sameCase_iff.1 h]
  rw [List.head?_map, List.head?_map, ha] at hhead
  cases hb' : b.head? with
  | none =>
    rw [hb'] at hhead
    cases hhead
  | some c =>
    rw [hb', map_some, map_some, Option.some.injEq] at hhead
    rw [hb', toUpper_eq_at c hhead.symm] at hb
    exact hb rfl

theorem dsdbAttribute_congr {a b : Text} (h : sameCase a b = true) :
    dsdbAttributeByLDAPDisplayName schema a = dsdbAttributeByLDAPDisplayName schema b := by
  rw [dsdbAttributeByLDAPDisplayName, dsdbAttributeByLDAPDisplayName]
  congr 1
  funext cur
  rw [sameCase_comm, sameCase_congr h, sameCase_comm]

theorem rdn_mem_metaDataIds (hrdn : dsdbAttributeByLDAPDisplayName schema r.rdnName = some rdnAttr) (h : AddsInOrder schema rdnAttr r) :
    rdnAttr.attributeID ∈ metaDataIds schema (r.message rdnAttr) := by
  obtain ⟨el, hel, hname⟩ := rdn_mem_message r rdnAttr
  have hsame : sameCase el.name r.rdnName = true := sameCase_trans hname (by simpa using List.find?_some hrdn)
  refine mem_filterMap.2 ⟨el, hel, ?_⟩
  rw [if_neg (head?_ne_at hsame h.rdnNamed), dsdbAttribute_congr hsame, hrdn, filter_some, if_pos h.rdnHasMetaData]
  rfl

theorem replmdAddOriginating_ordered (hrdn : dsdbAttributeByLDAPDisplayName schema r.rdnName = some rdnAttr)
    (hcond : AddsInOrder schema rdnAttr r) {created : Option (List ReplPropertyMetaData1)}
    (hadd : replmdAddOriginating schema r = .ok created) :
    ∃ md, created = some md ∧ MetaDataOrdered rdnAttr.attributeID md := by
  rw [replmdAddOriginating] at hadd
  split at hadd
  · cases hadd
  split at hadd
  · cases hadd
  rw [hrdn] at hadd
  dsimp only at hadd
  cases hnmd : newMetaData schema r (r.message rdnAttr) with
  | error e =>
    rw [hnmd] at hadd
    cases hadd
  | ok nmd =>
    rw [hnmd] at hadd
    obtain rfl := Except.ok.inj hadd
    have hids := newMetaData_ids hnmd
    obtain ⟨md, hmd, hord, -⟩ := @sort_ordered rdnAttr.attributeID nmd (fun _ => rdnAttr.attributeID) nmd.length
      (by rw [hids]; exact rdn_mem_metaDataIds hrdn hcond) (by rw [hids]; exact hcond.comparable) (by omega)
      (fun _ hlt => absurd hlt (Nat.lt_irrefl _)) (fun _ _ => rfl)
    refine ⟨md.map (·.stored), ?_, hord.stored⟩
    dsimp only
    rw [hmd]
    rfl

end NewObject

/-! ## A merge -/

section Merge

variable {rdnAttid : UInt32} {omd : List ReplPropertyMetaData1}

theorem replmdReplicatedApplyMerge_ordered (homd : MetaDataOrdered rdnAttid omd) {u : ObjectChanges}
    (hcond : MergesInOrder rdnAttid omd u) :
    ∃ md, replmdReplicatedApplyMerge omd u = some md ∧ MetaDataOrdered rdnAttid md := by
  obtain ⟨hne, md, hmd, hord⟩ := sort_merged homd hcond.oneNew hcond.comparable u.seqNum
  have hpairs : (u.incoming.map Prod.fst).zip (u.incoming.map Prod.snd) = u.incoming :=
    (zip_of_prod rfl rfl).symm
  obtain ⟨removed, hloop⟩ := mergeLoop_eq u.seqNum (u.incoming.map Prod.fst) (u.incoming.map Prod.snd) [] omd 0
    (by rw [length_map, length_map])
  rw [hpairs, nil_append, nil_append] at hloop
  rw [replmdReplicatedApplyMerge]
  change mergeLoop u.seqNum 0 _ _ = _ at hloop
  generalize (mergeEntries u.seqNum u.incoming omd).1 = nmd at hloop hmd
  generalize List.map Prod.snd (mergeEntries u.seqNum u.incoming omd).2 = elements at hloop
  rw [hloop]
  simp only [bind_eq_bind, bind_some]
  rw [if_neg hne, hmd, bind_some]
  by_cases hempty : elements.isEmpty = true
  · exact ⟨_, if_pos hempty, homd⟩
  · exact ⟨_, if_neg hempty, hord.stored⟩

end Merge

/-! ## Users -/

/-- Attributes of users, the last with an id of the range for attributes that are defined later. -/
def userSchema : List DsdbAttribute :=
  [⟨"cn".toList.map chr, 3, 0⟩, ⟨"name".toList.map chr, 0x90001, 0⟩, ⟨"whenCreated".toList.map chr, 0x20002, 0⟩,
    ⟨"instanceType".toList.map chr, 0x20001, 0⟩, ⟨"badge".toList.map chr, 0x90000000, 0⟩]

/-- A new user. -/
def addUser (elements : List MessageElement) : AddRequest where
  elements := elements
  rdnName := "CN".toList.map chr
  rdnValue := ⟨[chr 'u'], 1⟩
  timeStr := []
  instanceType := [chr '4']
  now := 0
  ourInvocationId := .zero
  seqNum := 1

/-- Changes of attributes, of the first version each. -/
def changesOf (ids : List UInt32) : ObjectChanges := ⟨2, ids.map fun a => ((versionEntry 1).entry a, ⟨[], []⟩)⟩

/-- What is stored of a new user after changes. -/
def storedUser (elements : List MessageElement) (merges : List ObjectChanges) : Except LdbError (Option (List ReplPropertyMetaData1)) :=
  (replmdAddOriginating userSchema (addUser elements)).map fun created => merges.foldl afterMerge created

/-! ## Runs -/

/-- In a run whose steps meet their conditions, what is stored is in order after every step. -/
theorem storedMetaData_ordered {schema : List DsdbAttribute} {r : AddRequest} {rdnAttr : DsdbAttribute}
    {created : Option (List ReplPropertyMetaData1)} {merges : List ObjectChanges}
    (hrdn : dsdbAttributeByLDAPDisplayName schema r.rdnName = some rdnAttr)
    (hadd : replmdAddOriginating schema r = .ok created) (hcond : AddsInOrder schema rdnAttr r)
    (hmerges : System.HoldsAlong (fun s u => ∀ omd, s = some omd → MergesInOrder rdnAttr.attributeID omd u) afterMerge created merges) :
    ∃ md, merges.foldl afterMerge created = some md ∧ MetaDataOrdered rdnAttr.attributeID md := by
  obtain ⟨md, rfl, hord⟩ := replmdAddOriginating_ordered hrdn hcond hadd
  clear hadd hcond
  induction merges generalizing md with
  | nil => exact ⟨md, rfl, hord⟩
  | cons u merges ih =>
    obtain ⟨md', hmd', hord'⟩ := replmdReplicatedApplyMerge_ordered hord (hmerges.1 md rfl)
    have hstep : afterMerge (some md) u = some md' := hmd'
    have hrest := hmerges.2
    rw [hstep] at hrest
    rw [foldl_cons, hstep]
    exact ih md' hord' hrest

/-- A user whose description comes in alone. -/
theorem storedMetaData_ordered_user : ∃ md, [changesOf [0xD]].foldl afterMerge
    (some ([0x20001, 0x20002, 0x90001, 3].map (addUser []).entry)) = some md ∧ MetaDataOrdered 3 md :=
  @storedMetaData_ordered userSchema (addUser []) ⟨"cn".toList.map chr, 3, 0⟩ _ [changesOf [0xD]] rfl rfl
    ⟨by decide, by decide, by decide⟩
    ⟨fun omd h => by
      obtain rfl := Option.some.inj h
      refine ⟨⟨0xD, fun i hi => Or.inr ?_⟩, by decide⟩
      rw [mem_singleton.1 hi]
      rfl, trivial⟩

/-- A user whose description and given name come in together is stored with the entry of the common name before that of the name, and
one with an attribute of a high id with that entry first. -/
theorem storedUser_misplaced :
    (∃ md, storedUser [] [changesOf [0xD, 0x2A]] = .ok (some md) ∧ ¬MetaDataOrdered 3 md) ∧
      ∃ md, storedUser [⟨"badge".toList.map chr, []⟩] [] = .ok (some md) ∧ ¬MetaDataOrdered 3 md :=
  ⟨⟨_, rfl, by decide⟩, _, rfl, by decide⟩

end Samba.Dsdb
