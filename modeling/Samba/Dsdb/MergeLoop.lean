/-
The merge loop of replmd_replicated_apply_merge as it runs over its arrays (dsdb/samdb/ldb_modules/repl_meta_data.c), on an object that
dsdb_convert_object (dsdb/repl/replicated_objects.c) made. An element that is not applied is deleted from the message at its index less
the elements deleted before.
-/
import Samba.Dsdb.Converge
import Samba.Ldb.DnCompare
import Samba.Ldb.Match

namespace Samba.Dsdb

open CString List Samba.Ldb Samba.Security

/-! ## Elements of a message -/

/-- `ldb_msg_add_value`. -/
def ldbMsgAddValue (elements : List MessageElement) (attrName : Text) (val : LdbVal) : List MessageElement :=
  match elements.findIdx? fun el => sameCase el.name attrName with
  | none => elements ++ [⟨attrName, [val]⟩]
  | some i => elements.modify i fun el => { el with values := el.values ++ [val] }

/-- `ldb_msg_remove_element`, for the element at an index. `none` is for an index that is not in the array. -/
def ldbMsgRemoveElement (elements : List MessageElement) (n : Nat) : Option (List MessageElement) :=
  if n < elements.length then some (elements.take n ++ elements.drop (n + 1)) else none

/-! ## Objects from the wire -/

/-- `struct drsuapi_DsReplicaAttribute`. -/
structure DsReplicaAttribute (A : Type) where
  attid : UInt32
  valueCtr : A

/-- `struct drsuapi_DsReplicaMetaData`. -/
structure DsReplicaMetaData where
  version : UInt32
  originatingChangeTime : UInt64
  originatingInvocationId : Guid
  originatingUsn : UInt64

/-- `DRSUAPI_ATTRIBUTE_name`. -/
def attributeName : UInt32 := 0x00090001

/-- The entry of an attribute that was received. -/
def DsReplicaMetaData.entry (d : DsReplicaMetaData) (attid : UInt32) : ReplPropertyMetaData1 where
  attid := attid
  version := d.version
  originatingChangeTime := d.originatingChangeTime
  originatingInvocationId := d.originatingInvocationId
  originatingUsn := d.originatingUsn
  localUsn := 0

/-- The RDN attribute of the object. -/
structure RdnAttribute where
  name : Text
  attid : UInt32
  value : LdbVal

section ConvertObject

-- `dsdb_decrypt_attribute` and `dsdb_attribute_drsuapi_to_ldb`
variable {A : Type} (toLdb : DsReplicaAttribute A → Option MessageElement)

/-- `dsdb_convert_object`: the array of `meta_data` and the elements of `msg`. With the name, the RDN attribute is put behind all
others. -/
def convertObject (rdn : RdnAttribute) (attributes : List (DsReplicaAttribute A)) (metaData : List DsReplicaMetaData) :
    Option (List ReplPropertyMetaData1 × List MessageElement) :=
  if attributes.length ≠ metaData.length then none
  else do
    let elements ← attributes.mapM toLdb
    let received := attributes.zip metaData
    let array := received.map fun p => p.2.entry p.1.attid
    match (received.filter fun p => p.1.attid = attributeName).getLast? with
    | none => return (array, elements)
    | some (_, nameD) => return (array ++ [nameD.entry rdn.attid], ldbMsgAddValue elements rdn.name rdn.value)

end ConvertObject

/-! ## The loop -/

/-- The new meta data, of `ni` entries, the elements of `msg`, and `removed_attrs`. -/
structure MergeState where
  nmd : List ReplPropertyMetaData1
  elements : List MessageElement
  removedAttrs : Nat

/-- A round of the loop over the incoming meta data. -/
def mergeRound (seqNum : UInt64) (i : Nat) (rm : ReplPropertyMetaData1) (s : MergeState) : Option MergeState :=
  let rm := rm.withLocalUsn seqNum
  match s.nmd.findIdx? fun e => rm.attid = e.attid with
  | some j =>
    let cmp := conflictCompare rm (s.nmd.getD j rm)
    if cmp > 0 then
      -- replace the entry
      some { s with nmd := s.nmd.set j rm }
    else do
      -- we don't want to apply this change so remove the attribute
      let elements ← ldbMsgRemoveElement s.elements (i - s.removedAttrs)
      return { s with elements := elements, removedAttrs := s.removedAttrs + 1 }
  | none => some { s with nmd := s.nmd ++ [rm] }

/-- The loop over the incoming meta data, from an index on. `none` is for a deletion outside of the message. -/
def mergeLoop (seqNum : UInt64) : Nat → List ReplPropertyMetaData1 → MergeState → Option MergeState
  | _, [], s => some s
  | i, rm :: rmd, s => do mergeLoop seqNum (i + 1) rmd (← mergeRound seqNum i rm s)

/-- What the loop is for: left in the message are the elements whose change is applied, in order, and the new meta data has one entry
for each attribute, the incoming one where the change is applied and the stored one elsewhere. -/
structure Merged (seqNum : UInt64) (omd : List ReplPropertyMetaData1) (incoming : List (ReplPropertyMetaData1 × MessageElement))
    (s : MergeState) : Prop where
  elements : s.elements = (incoming.filter fun i => applies i.1 (metaDataOf i.1.attid omd)).map Prod.snd
  nodup : (s.nmd.map (·.attid)).Nodup
  attids : ∀ a, a ∈ s.nmd.map (·.attid) ↔ a ∈ omd.map (·.attid) ∨ a ∈ incoming.map (·.1.attid)
  incoming_mem : ∀ i ∈ incoming, applies i.1 (metaDataOf i.1.attid omd) = true → i.1.withLocalUsn seqNum ∈ s.nmd
  stored_mem : ∀ e ∈ omd, (∀ i ∈ incoming, i.1.attid = e.attid → applies i.1 (some e) = false) → e ∈ s.nmd

/-! ## The loop and the merge of entries -/

/-- The search for the entry of an attribute, and what is done with it. -/
theorem mergeEntry_find (m : ReplPropertyMetaData1) (nmd : List ReplPropertyMetaData1) :
    mergeEntry m nmd =
      match nmd.findIdx? fun e => m.attid = e.attid with
      | some j => if conflictCompare m (nmd.getD j m) > 0 then (nmd.set j m, true) else (nmd, false)
      | none => (nmd ++ [m], true) := by
  induction nmd with
  | nil => rfl
  | cons e nmd ih =>
    rw [mergeEntry, List.findIdx?_cons]
    by_cases he : m.attid = e.attid
    · rw [if_neg (not_not.2 he), if_pos (decide_eq_true he)]
      rfl
    · rw [if_pos he, ih, if_neg (by simpa using he)]
      cases nmd.findIdx? fun e => m.attid = e.attid with
      | none => rfl
      | some j =>
        show _ = if conflictCompare m (nmd.getD j m) > 0 then (e :: nmd.set j m, true) else (e :: nmd, false)
        by_cases hc : conflictCompare m (nmd.getD j m) > 0
        · rw [if_pos hc]
          dsimp only
          rw [if_pos hc]
        · rw [if_neg hc]
          dsimp only
          rw [if_neg hc]

theorem ldbMsgRemoveElement_length (kept rest : List MessageElement) (el : MessageElement) :
    ldbMsgRemoveElement (kept ++ el :: rest) kept.length = some (kept ++ rest) := by
  rw [ldbMsgRemoveElement, if_pos (by simp), take_left, ← drop_drop, drop_left]
  rfl

/-- A round with the elements that are left of those before it, and those still to come. -/
theorem mergeRound_eq (seqNum : UInt64) (rm : ReplPropertyMetaData1) (nmd : List ReplPropertyMetaData1)
    (kept rest : List MessageElement) (el : MessageElement) (removed : Nat) :
    mergeRound seqNum (kept.length + removed) rm ⟨nmd, kept ++ el :: rest, removed⟩ =
      some (if (mergeEntry (rm.withLocalUsn seqNum) nmd).2 then
        ⟨(mergeEntry (rm.withLocalUsn seqNum) nmd).1, kept ++ el :: rest, removed⟩
      else ⟨(mergeEntry (rm.withLocalUsn seqNum) nmd).1, kept ++ rest, removed + 1⟩) := by
  have hfind := mergeEntry_find (rm.withLocalUsn seqNum) nmd
  generalize mergeEntry (rm.withLocalUsn seqNum) nmd = found at hfind ⊢
  rw [mergeRound]
  dsimp only
  cases hj : nmd.findIdx? fun e => (rm.withLocalUsn seqNum).attid = e.attid with
  | none =>
    rw [hj] at hfind
    subst hfind
    rfl
  | some j =>
    rw [hj] at hfind
    dsimp only at hfind ⊢
    by_cases hc : conflictCompare (rm.withLocalUsn seqNum) (nmd.getD j (rm.withLocalUsn seqNum)) > 0
    · rw [if_pos hc] at hfind ⊢
      subst hfind
      rfl
    · rw [if_neg hc] at hfind ⊢
      subst hfind
      rw [Nat.add_sub_cancel, ldbMsgRemoveElement_length]
      rfl

/-- The loop leaves what the merge of the entries leaves. -/
theorem mergeLoop_eq (seqNum : UInt64) : ∀ (rmd : List ReplPropertyMetaData1) (rest kept : List MessageElement)
    (nmd : List ReplPropertyMetaData1) (removed : Nat), rest.length = rmd.length →
    ∃ removed', mergeLoop seqNum (kept.length + removed) rmd ⟨nmd, kept ++ rest, removed⟩ =
      some ⟨(mergeEntries seqNum (rmd.zip rest) nmd).1, kept ++ (mergeEntries seqNum (rmd.zip rest) nmd).2.map Prod.snd, removed'⟩
  | [], [], kept, nmd, removed, _ => ⟨removed, rfl⟩
  | [], _ :: _, _, _, _, hlen => (nomatch hlen)
  | _ :: _, [], _, _, _, hlen => (nomatch hlen)
  | rm :: rmd, el :: rest, kept, nmd, removed, hlen => by
    have hlen' : rest.length = rmd.length := Nat.succ.inj hlen
    rw [mergeLoop, mergeRound_eq, zip_cons_cons, mergeEntries_cons]
    by_cases happ : (mergeEntry (rm.withLocalUsn seqNum) nmd).2 = true
    · obtain ⟨removed', ih⟩ := mergeLoop_eq seqNum rmd rest (kept ++ [el]) (mergeEntry (rm.withLocalUsn seqNum) nmd).1 removed hlen'
      rw [length_append, length_singleton, append_assoc] at ih
      refine ⟨removed', ?_⟩
      rw [if_pos happ, if_pos happ, show kept.length + removed + 1 = kept.length + 1 + removed by omega]
      exact ih.trans (by rw [append_assoc]; rfl)
    · obtain ⟨removed', ih⟩ := mergeLoop_eq seqNum rmd rest kept (mergeEntry (rm.withLocalUsn seqNum) nmd).1 (removed + 1) hlen'
      refine ⟨removed', ?_⟩
      rw [if_neg happ, if_neg happ]
      exact ih

/-! ## What the merge of the entries leaves -/

section Entries

variable {V : Type} {seqNum : UInt64} {rmd : List (ReplPropertyMetaData1 × V)} {nmd : List ReplPropertyMetaData1}

theorem metaDataOf_of_mem (hn : (nmd.map (·.attid)).Nodup) {e : ReplPropertyMetaData1} (he : e ∈ nmd) :
    metaDataOf e.attid nmd = some e := by
  induction nmd with
  | nil => cases he
  | cons e' nmd ih =>
    rw [map_cons, nodup_cons] at hn
    rw [metaDataOf_cons]
    rcases mem_cons.1 he with rfl | he
    · exact if_pos rfl
    · rw [if_neg fun h => hn.1 (mem_map.2 ⟨e, he, h.symm⟩)]
      exact ih hn.2 he

/-- Changes of other attributes do not matter for whether one is applied. -/
theorem mergeEntries_snd (hn : (rmd.map fun i => i.1.attid).Nodup) :
    (mergeEntries seqNum rmd nmd).2 =
      (rmd.filter fun i => applies i.1 (metaDataOf i.1.attid nmd)).map fun i => (i.1.attid, i.2) := by
  induction rmd generalizing nmd with
  | nil => rfl
  | cons i rmd ih =>
    obtain ⟨m, v⟩ := i
    rw [map_cons, nodup_cons] at hn
    have hrest : ∀ i ∈ rmd, applies i.1 (metaDataOf i.1.attid (mergeEntry (m.withLocalUsn seqNum) nmd).1) =
        applies i.1 (metaDataOf i.1.attid nmd) := by
      intro i hi
      rw [metaDataOf_mergeEntry, if_neg fun h => hn.1 (mem_map.2 ⟨i, hi, h.1.symm⟩)]
    rw [mergeEntries_cons, ih hn.2, mergeEntry_snd, applies_withLocalUsn, ReplPropertyMetaData1.attid_withLocalUsn,
      filter_congr hrest, filter_cons]
    split <;> rfl

theorem mem_attids_mergeEntries (a : UInt32) : a ∈ (mergeEntries seqNum rmd nmd).1.map (·.attid) ↔
    a ∈ nmd.map (·.attid) ∨ a ∈ rmd.map fun i => i.1.attid := by
  induction rmd generalizing nmd with
  | nil => exact (or_iff_left not_mem_nil).symm
  | cons i rmd ih =>
    obtain ⟨m, v⟩ := i
    rw [mergeEntries_cons, ih, map_attid_mergeEntry, ReplPropertyMetaData1.attid_withLocalUsn, map_cons, mem_cons]
    split
    · next hm =>
      refine ⟨fun h => h.imp_right .inr, fun h => ?_⟩
      rcases h with h | rfl | h
      · exact .inl h
      · exact .inl hm
      · exact .inr h
    · rw [mem_append, mem_singleton, or_assoc]

theorem find_of_mem (hn : (rmd.map fun i => i.1.attid).Nodup) {i : ReplPropertyMetaData1 × V} (hi : i ∈ rmd) :
    (rmd.find? fun i' => i'.1.attid == i.1.attid) = some i := by
  induction rmd with
  | nil => cases hi
  | cons i' rmd ih =>
    rw [map_cons, nodup_cons] at hn
    rcases mem_cons.1 hi with rfl | hi
    · exact List.find?_cons_of_pos (by simp)
    · rw [List.find?_cons_of_neg fun h => hn.1 (mem_map.2 ⟨i, hi, (by simpa using h : i'.1.attid = i.1.attid).symm⟩)]
      exact ih hn.2 hi

theorem incoming_mem_mergeEntries (hn : (rmd.map fun i => i.1.attid).Nodup) {i : ReplPropertyMetaData1 × V} (hi : i ∈ rmd)
    (happ : applies i.1 (metaDataOf i.1.attid nmd) = true) : i.1.withLocalUsn seqNum ∈ (mergeEntries seqNum rmd nmd).1 := by
  have h := find_mergeEntries seqNum i.1.attid rmd nmd hn
  rw [find_of_mem hn hi] at h
  dsimp only at h
  rw [if_pos happ] at h
  exact mem_of_find?_eq_some (Prod.mk.inj h).1

theorem stored_mem_mergeEntries (hnmd : (nmd.map (·.attid)).Nodup) (hn : (rmd.map fun i => i.1.attid).Nodup)
    {e : ReplPropertyMetaData1} (he : e ∈ nmd) (hall : ∀ i ∈ rmd, i.1.attid = e.attid → applies i.1 (some e) = false) :
    e ∈ (mergeEntries seqNum rmd nmd).1 := by
  have h := find_mergeEntries seqNum e.attid rmd nmd hn
  rw [metaDataOf_of_mem hnmd he] at h
  cases hf : rmd.find? fun i => i.1.attid == e.attid with
  | none =>
    rw [hf] at h
    exact mem_of_find?_eq_some (Prod.mk.inj h).1
  | some i =>
    have hid : i.1.attid = e.attid := by simpa using List.find?_some hf
    rw [hf] at h
    dsimp only at h
    rw [hall i (mem_of_find?_eq_some hf) hid, if_neg Bool.false_ne_true] at h
    exact mem_of_find?_eq_some (Prod.mk.inj h).1

end Entries

/-! ## The merge of a converted object -/

section Convert

variable {A : Type} {toLdb : DsReplicaAttribute A → Option MessageElement} {rdn : RdnAttribute} {attributes : List (DsReplicaAttribute A)}
  {metaData : List DsReplicaMetaData} {rmd : List ReplPropertyMetaData1} {elements : List MessageElement}

theorem exists_of_mem_mapM {α β : Type} {f : α → Option β} {as : List α} {bs : List β} (h : as.mapM f = some bs) {b : β}
    (hb : b ∈ bs) : ∃ a ∈ as, f a = some b := by
  replace h := mapM_some_iff.1 h
  induction h with
  | nil => cases hb
  | cons hab _ ih =>
    rcases mem_cons.1 hb with rfl | hb
    · exact ⟨_, mem_cons_self, hab⟩
    · obtain ⟨a, ha, h⟩ := ih hb
      exact ⟨a, mem_cons_of_mem _ ha, h⟩

/-- The entries and the elements of a converted object: those of the attributes in order, and those of the RDN behind them. -/
theorem convertObject_eq (h : convertObject toLdb rdn attributes metaData = some (rmd, elements))
    (hname : ∀ a ∈ attributes, ∀ el, toLdb a = some el → sameCase el.name rdn.name = false) :
    ∃ converted, attributes.mapM toLdb = some converted ∧ attributes.length = metaData.length ∧
      ((rmd = (attributes.zip metaData).map (fun p => p.2.entry p.1.attid) ∧ elements = converted) ∨
        ∃ nameD : DsReplicaMetaData, rmd = (attributes.zip metaData).map (fun p => p.2.entry p.1.attid) ++ [nameD.entry rdn.attid] ∧
          elements = converted ++ [⟨rdn.name, [rdn.value]⟩]) := by
  rw [convertObject] at h
  split at h
  · cases h
  · rename_i hlen
    obtain ⟨converted, hconv, h⟩ := Option.bind_eq_some_iff.1 h
    refine ⟨converted, hconv, not_not.1 hlen, ?_⟩
    dsimp only at h
    split at h
    · obtain ⟨rfl, rfl⟩ := Prod.mk.inj (Option.some.inj h)
      exact .inl ⟨rfl, rfl⟩
    · rename_i nameA nameD _
      obtain ⟨rfl, rfl⟩ := Prod.mk.inj (Option.some.inj h)
      have hnone : (converted.findIdx? fun el => sameCase el.name rdn.name) = none := by
        rw [List.findIdx?_eq_none_iff]
        intro el hel
        obtain ⟨a, ha, hael⟩ := exists_of_mem_mapM hconv hel
        exact hname a ha el hael
      refine .inr ⟨nameD, rfl, ?_⟩
      rw [ldbMsgAddValue, hnone]

theorem map_attid_received (hlen : attributes.length = metaData.length) :
    ((attributes.zip metaData).map fun p => p.2.entry p.1.attid).map (·.attid) = attributes.map (·.attid) := by
  rw [map_map]
  show (attributes.zip metaData).map ((fun a : DsReplicaAttribute A => a.attid) ∘ Prod.fst) = _
  rw [← map_map, map_fst_zip hlen.le]

/-- A converted object has an element for each entry, and distinct attributes. -/
theorem convertObject_pairs (h : convertObject toLdb rdn attributes metaData = some (rmd, elements))
    (hids : (attributes.map (·.attid)).Nodup) (hrdn : rdn.attid ∉ attributes.map (·.attid))
    (hname : ∀ a ∈ attributes, ∀ el, toLdb a = some el → sameCase el.name rdn.name = false) :
    elements.length = rmd.length ∧ (rmd.map (·.attid)).Nodup := by
  obtain ⟨converted, hconv, hlen, h⟩ := convertObject_eq h hname
  have hclen : converted.length = attributes.length := (mapM_some_iff.1 hconv).length_eq.symm
  have hreceived : ((attributes.zip metaData).map fun p => p.2.entry p.1.attid).length = attributes.length := by
    rw [length_map, length_zip, hlen, Nat.min_self]
  rcases h with ⟨rfl, rfl⟩ | ⟨nameD, rfl, rfl⟩
  · exact ⟨hclen.trans hreceived.symm, by rwa [map_attid_received hlen]⟩
  · refine ⟨by rw [length_append, length_append, hclen, hreceived]; rfl, ?_⟩
    rw [map_append, map_attid_received hlen]
    refine nodup_append.2 ⟨hids, nodup_singleton _, fun a ha b hb => ?_⟩
    rintro rfl
    rw [map_singleton, mem_singleton] at hb
    have hrdnid : a = rdn.attid := hb
    exact hrdn (hrdnid ▸ ha)

/-- On a converted object and stored entries of distinct attributes, the loop deletes no element outside of the message, and leaves
what is applied. -/
theorem mergeLoop_merged (seqNum : UInt64) {omd : List ReplPropertyMetaData1} (homd : (omd.map (·.attid)).Nodup)
    (h : convertObject toLdb rdn attributes metaData = some (rmd, elements)) (hids : (attributes.map (·.attid)).Nodup)
    (hrdn : rdn.attid ∉ attributes.map (·.attid))
    (hname : ∀ a ∈ attributes, ∀ el, toLdb a = some el → sameCase el.name rdn.name = false) :
    elements.length = rmd.length ∧
      ∃ s, mergeLoop seqNum 0 rmd ⟨omd, elements, 0⟩ = some s ∧ Merged seqNum omd (rmd.zip elements) s := by
  obtain ⟨hlen, hrmd⟩ := convertObject_pairs h hids hrdn hname
  obtain ⟨removed, hloop⟩ := mergeLoop_eq seqNum rmd elements [] omd 0 hlen
  have hzip : ((rmd.zip elements).map fun i => i.1.attid) = rmd.map (·.attid) := by
    show (rmd.zip elements).map ((fun m : ReplPropertyMetaData1 => m.attid) ∘ Prod.fst) = _
    rw [← map_map, map_fst_zip hlen.ge]
  have hn : ((rmd.zip elements).map fun i => i.1.attid).Nodup := by rwa [hzip]
  refine ⟨hlen, _, hloop, ?_, nodup_mergeEntries seqNum _ homd, fun a => mem_attids_mergeEntries a,
    fun i hi => incoming_mem_mergeEntries hn hi, fun e he => stored_mem_mergeEntries homd hn he⟩
  show [] ++ _ = _
  rw [nil_append, mergeEntries_snd hn, map_map]
  rfl

end Convert

/-- A received entry of a version. -/
def versionEntry (version : UInt32) : DsReplicaMetaData :=
  ⟨version, 0, .zero, 0⟩

/-- A user whose description was changed here in the meantime, and who was renamed elsewhere. -/
theorem mergeLoop_merged_user :
    ∃ s, mergeLoop 7 0 [(versionEntry 1).entry 0xD, (versionEntry 3).entry attributeName, (versionEntry 3).entry 3]
        ⟨[(versionEntry 2).entry 0xD, (versionEntry 2).entry 3],
          [⟨[chr 'd'], []⟩, ⟨[chr 'n'], []⟩, ⟨[chr 'c'], [⟨[chr 'u'], 1⟩]⟩], 0⟩ = some s ∧
      (s.nmd.map (·.attid)).Nodup := by
  have h := @mergeLoop_merged Text (fun a => some ⟨a.valueCtr, []⟩) ⟨[chr 'c'], 3, ⟨[chr 'u'], 1⟩⟩
    [⟨0xD, [chr 'd']⟩, ⟨attributeName, [chr 'n']⟩] [versionEntry 1, versionEntry 3] _ _ 7
    [(versionEntry 2).entry 0xD, (versionEntry 2).entry 3] (by decide) rfl (by decide) (by decide) (by
      intro a ha el hel
      obtain rfl := Option.some.inj hel
      rcases mem_cons.1 ha with rfl | ha
      · rfl
      · rw [mem_singleton.1 ha]
        rfl)
  obtain ⟨-, s, hs, hmerged⟩ := h
  exact ⟨s, hs, hmerged.nodup⟩

end Samba.Dsdb
