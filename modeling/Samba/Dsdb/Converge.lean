/-
Replicas that merge the same changes of an object in different orders (dsdb/samdb/ldb_modules/repl_meta_data.c).

The stored entry of each attribute is a register, and the changes are offers to it. The conflict comparison returns
differences of wide fields as an `int`, so it is no order: a stamp overrides another one when it is ahead of it by less
than half a turn of 32 bits, and the entry that is left depends on the order of the changes unless one change of each
attribute prevails over all that can be stored.
-/
import Samba.Dsdb.MetaDataSort
import Samba.Lib.Register

namespace Samba.Dsdb

open Option Samba.Ldb Samba.Security

/-! ## Newer stamps -/

/-- `a` is ahead of `b` by less than half a turn of a counter of 32 bits. -/
def Ahead (a b : Nat) : Prop := 0 < ((a : Int) - b) % 2 ^ 32 ∧ ((a : Int) - b) % 2 ^ 32 < 2 ^ 31

/-- The fields of a GUID behind the first, in their order. -/
def guidTail (g : Guid) : List Nat :=
  g.timeMid.toNat :: g.timeHiAndVersion.toNat :: (g.clockSeq.toList ++ g.node.toList).map UInt8.toNat

/-- The stamp of `m` is newer than the one of `e`: its version, or its time at equal versions, or then the invocation id, or then the
usn is ahead. Of the fields of 64 bits the low halves count, and behind its first field an invocation id is compared as it is. -/
def Newer (m e : ReplPropertyMetaData1) : Prop :=
  if m.version ≠ e.version then Ahead m.version.toNat e.version.toNat
  else if m.originatingChangeTime ≠ e.originatingChangeTime then
    Ahead m.originatingChangeTime.toNat e.originatingChangeTime.toNat
  else if m.originatingInvocationId.timeLow ≠ e.originatingInvocationId.timeLow then
    Ahead m.originatingInvocationId.timeLow.toNat e.originatingInvocationId.timeLow.toNat
  else if guidTail m.originatingInvocationId ≠ guidTail e.originatingInvocationId then
    guidTail e.originatingInvocationId < guidTail m.originatingInvocationId
  else Ahead m.originatingUsn.toNat e.originatingUsn.toNat

theorem ahead_iff_uint32 (a b : UInt32) : 0 < (a - b).toBitVec.toInt ↔ Ahead a.toNat b.toNat := by
  have ha := a.toNat_lt
  have hb := b.toNat_lt
  have hsub : (a - b).toBitVec.toNat = (2 ^ 32 - b.toNat + a.toNat) % 2 ^ 32 := UInt32.toNat_sub a b
  rw [BitVec.toInt_eq_toNat_cond, hsub, Ahead]
  split <;> omega

theorem ahead_iff_uint64 (a b : UInt64) : 0 < intOfDifference a b ↔ Ahead a.toNat b.toNat := by
  have ha := a.toNat_lt
  have hb := b.toNat_lt
  have hsub : (a - b).toUInt32.toBitVec.toNat = (2 ^ 64 - b.toNat + a.toNat) % 2 ^ 64 % 2 ^ 32 := by
    rw [← UInt64.toNat_sub a b]
    exact UInt64.toNat_toUInt32 _
  rw [intOfDifference, BitVec.toInt_eq_toNat_cond, hsub, Ahead]
  split <;> omega

theorem difference_ne_zero {a b : UInt32} (h : a ≠ b) : (a - b).toBitVec.toInt ≠ 0 := by
  have ha := a.toNat_lt
  have hb := b.toNat_lt
  have hne : a.toNat ≠ b.toNat := fun he => h (UInt32.toNat_inj.1 he)
  have hsub : (a - b).toBitVec.toNat = (2 ^ 32 - b.toNat + a.toNat) % 2 ^ 32 := UInt32.toNat_sub a b
  rw [BitVec.toInt_eq_toNat_cond, hsub]
  split <;> omega

/-- Bytes compared at the first one that differs are compared as lists of numbers. -/
theorem firstDifference_iff : ∀ {as bs : List UInt8}, as.length = bs.length →
    (firstDifference (as.zip bs) = 0 ↔ as.map UInt8.toNat = bs.map UInt8.toNat) ∧
      (0 < firstDifference (as.zip bs) ↔ bs.map UInt8.toNat < as.map UInt8.toNat)
  | [], [], _ => by simp [firstDifference]
  | a :: as, b :: bs, h => by
    obtain ⟨hzero, hpos⟩ := @firstDifference_iff as bs (Nat.succ.inj h)
    rw [List.zip_cons_cons, firstDifference, List.map_cons, List.map_cons, List.cons.injEq, List.cons_lt_cons_iff]
    by_cases hab : a = b
    · rw [if_neg (not_not.2 hab), hzero, hpos, hab]
      simp
    · have hne : a.toNat ≠ b.toNat := fun he => hab (UInt8.toNat_inj.1 he)
      rw [if_pos hab]
      constructor
      · exact iff_of_false (by omega) fun h => hne h.1
      · constructor
        · intro h
          exact Or.inl (by omega)
        · rintro (h | h)
          · omega
          · exact absurd h.1.symm hne

theorem toList_pair (v : Vector UInt8 2) :
    v.toList = [getElem v 0 Nat.zero_lt_two, getElem v 1 Nat.one_lt_two] := by
  obtain ⟨⟨l⟩, hl⟩ := v
  match l, hl with
  | [a, b], _ => rfl

/-- Behind the first three fields a GUID is bytes. -/
theorem guidCompare_bytes (g h : Guid) :
    guidCompare g h =
      if g.timeLow ≠ h.timeLow then (g.timeLow - h.timeLow).toBitVec.toInt
      else if g.timeMid ≠ h.timeMid then (g.timeMid.toNat : Int) - h.timeMid.toNat
      else if g.timeHiAndVersion ≠ h.timeHiAndVersion then
        (g.timeHiAndVersion.toNat : Int) - h.timeHiAndVersion.toNat
      else firstDifference ((g.clockSeq.toList ++ g.node.toList).zip (h.clockSeq.toList ++ h.node.toList)) := by
  rw [guidCompare, toList_pair, toList_pair]
  rfl

theorem guidCompare_spec (g h : Guid) :
    (guidCompare g h = 0 ↔ g.timeLow = h.timeLow ∧ guidTail g = guidTail h) ∧
      (0 < guidCompare g h ↔
        if g.timeLow ≠ h.timeLow then Ahead g.timeLow.toNat h.timeLow.toNat else guidTail h < guidTail g) := by
  obtain ⟨hzero, hpos⟩ := @firstDifference_iff (g.clockSeq.toList ++ g.node.toList) (h.clockSeq.toList ++ h.node.toList)
    (by simp)
  rw [guidCompare_bytes, guidTail, guidTail, List.cons.injEq, List.cons.injEq, List.cons_lt_cons_iff, List.cons_lt_cons_iff]
  by_cases hlow : g.timeLow = h.timeLow
  swap
  · rw [if_pos hlow, if_pos hlow]
    exact ⟨iff_of_false (difference_ne_zero hlow) fun h => hlow h.1, ahead_iff_uint32 _ _⟩
  rw [if_neg (not_not.2 hlow), if_neg (not_not.2 hlow)]
  by_cases hmid : g.timeMid = h.timeMid
  swap
  · have hne : g.timeMid.toNat ≠ h.timeMid.toNat := fun he => hmid (UInt16.toNat_inj.1 he)
    rw [if_pos hmid]
    omega
  rw [if_neg (not_not.2 hmid)]
  by_cases hhi : g.timeHiAndVersion = h.timeHiAndVersion
  swap
  · have hne : g.timeHiAndVersion.toNat ≠ h.timeHiAndVersion.toNat := fun he => hhi (UInt16.toNat_inj.1 he)
    rw [if_pos hhi, hmid]
    omega
  rw [if_neg (not_not.2 hhi), hzero, hpos, hmid, hhi]
  simp [hlow]

/-- A change overrides what is stored when its stamp is newer. -/
theorem conflictCompare_pos_iff (m e : ReplPropertyMetaData1) : 0 < conflictCompare m e ↔ Newer m e := by
  obtain ⟨hzero, hpos⟩ := guidCompare_spec m.originatingInvocationId e.originatingInvocationId
  rw [conflictCompare, Newer]
  by_cases hversion : m.version = e.version
  swap
  · rw [if_pos hversion, if_pos hversion]
    exact ahead_iff_uint32 _ _
  rw [if_neg (not_not.2 hversion), if_neg (not_not.2 hversion)]
  by_cases htime : m.originatingChangeTime = e.originatingChangeTime
  swap
  · rw [if_pos htime, if_pos htime]
    exact ahead_iff_uint64 _ _
  rw [if_neg (not_not.2 htime), if_neg (not_not.2 htime)]
  dsimp only
  by_cases hret : guidCompare m.originatingInvocationId e.originatingInvocationId = 0
  · obtain ⟨hlow, htail⟩ := hzero.1 hret
    rw [if_neg (not_not.2 hret), if_neg (not_not.2 hlow), if_neg (not_not.2 htail)]
    exact ahead_iff_uint64 _ _
  · rw [if_pos hret, hpos]
    by_cases hlow : m.originatingInvocationId.timeLow = e.originatingInvocationId.timeLow
    · rw [if_neg (not_not.2 hlow), if_neg (not_not.2 hlow), if_pos fun htail => hret (hzero.2 ⟨hlow, htail⟩)]
    · rw [if_pos hlow, if_pos hlow]

instance (m e : ReplPropertyMetaData1) : Decidable (Newer m e) := decidable_of_iff _ (conflictCompare_pos_iff m e)

/-! ## The attributes of an object -/

variable {Dn V : Type}

/-- The change of an attribute. -/
def ReplObject.item (u : ReplObject Dn V) (attid : UInt32) : Option (ReplPropertyMetaData1 × V) :=
  u.attributes.find? fun i => i.1.attid == attid

/-- The stamp and the value of an attribute, `local_usn` aside. -/
def StoredObject.attribute (obj : StoredObject Dn V) (attid : UInt32) : Option ReplPropertyMetaData1 × V :=
  ((metaDataOf attid obj.metaData).map (·.stamp), obj.values attid)

/-- The object after a request to merge changes into it. A request that fails leaves it as it was. -/
def applyNext [DecidableEq Dn] (obj : StoredObject Dn V) (req : UInt64 × ReplObject Dn V) : Option (StoredObject Dn V) :=
  match applyMerge req.1 req.2 obj with
  | .ok obj' => obj'
  | .error _ => some obj

/-- The object after requests, each with the sequence number the replica gave it. -/
def applyAll [DecidableEq Dn] (reqs : List (UInt64 × ReplObject Dn V)) (obj : StoredObject Dn V) :
    Option (StoredObject Dn V) :=
  reqs.foldlM applyNext obj

/-- Replicas that merge the same changes, in any orders and with any repetitions, end, and agree on every attribute. -/
def Converges [DecidableEq Dn] (updates : List (ReplObject Dn V)) (obj : StoredObject Dn V) : Prop :=
  ∀ reqs reqs' : List (UInt64 × ReplObject Dn V), Register.Lists updates (reqs.map Prod.snd) →
    Register.Lists updates (reqs'.map Prod.snd) →
    ∃ obj₁ obj₂, applyAll reqs obj = some obj₁ ∧ applyAll reqs' obj = some obj₂ ∧
      ∀ attid, obj₁.attribute attid = obj₂.attribute attid

/-! ## When changes settle -/

/-- A stamp is newer than the one there is, if there is one. -/
def NewerThan (m : ReplPropertyMetaData1) : Option ReplPropertyMetaData1 → Prop
  | none => True
  | some e => Newer m e

/-- What is stored of a change: its stamp, with the time in seconds, and its value. -/
def entryOf (i : ReplPropertyMetaData1 × V) : Option ReplPropertyMetaData1 × V := (some i.1.stored.stamp, i.2)

/-- The changes of an attribute that come in for an object. -/
def changesTo [DecidableEq Dn] (dn : Dn) (attid : UInt32) (updates : List (ReplObject Dn V)) :
    List (ReplPropertyMetaData1 × V) :=
  updates.filterMap fun u => if u.dn = dn then u.item attid else none

instance (m : ReplPropertyMetaData1) : DecidablePred (NewerThan m)
  | none => isTrue trivial
  | some e => inferInstanceAs (Decidable (Newer m e))

/-- The entries that changes of an attribute can put in the place of what is stored. -/
inductive Storable (changes : List (ReplPropertyMetaData1 × V)) (e : Option ReplPropertyMetaData1 × V) :
    Option ReplPropertyMetaData1 × V → Prop
  | stored : Storable changes e e
  | newer {c : Option ReplPropertyMetaData1 × V} {i : ReplPropertyMetaData1 × V} :
      Storable changes e c → i ∈ changes → NewerThan i.1 c.1 → Storable changes e (entryOf i)

/-- No change of the attribute is newer than what is stored, or one of them is newer than everything else that can be
stored, and no other one is newer than what is stored of it. -/
def ChangesSettle (changes : List (ReplPropertyMetaData1 × V)) (e : Option ReplPropertyMetaData1 × V) : Prop :=
  (∀ i ∈ changes, NewerThan i.1 e.1 → entryOf i = e) ∨
    ∃ f ∈ changes, (∀ i ∈ changes, NewerThan i.1 (entryOf f).1 → entryOf i = entryOf f) ∧
      ∀ c, Storable changes e c → c ≠ entryOf f → NewerThan f.1 c.1

/-- Stamps of an attribute that differ still differ when their times are in seconds. -/
def ApartInSeconds (changes : List (ReplPropertyMetaData1 × V)) : Prop :=
  ∀ i ∈ changes, ∀ j ∈ changes, i.1.stored.stamp = j.1.stored.stamp → i.1.stamp = j.1.stamp

/-- The sorts of the merges find the order: the stored entries are in order, each update brings in one attribute at most
that has no entry, and all ids can be compared. -/
structure SortsInOrder (rdnAttid : UInt32) (obj : StoredObject Dn V) (updates : List (ReplObject Dn V)) : Prop where
  ordered : MetaDataOrdered rdnAttid obj.metaData
  oneNew : ∀ u ∈ updates, ∃ a, ∀ i ∈ u.attributes, i.1.attid ∈ obj.metaData.map (·.attid) ∨ i.1.attid = a
  comparable : Comparable rdnAttid (obj.metaData.map (·.attid) ++ updates.flatMap fun u => u.attributes.map (·.1.attid))

/-! ## One merge -/

/-- The loop over changes with at most one for each attribute: the entry of an attribute is replaced, and its element
left in the message, when its change applies. -/
theorem find_mergeEntries (seqNum : UInt64) (a : UInt32) : ∀ (rmd : List (ReplPropertyMetaData1 × V))
    (nmd : List ReplPropertyMetaData1), (rmd.map fun i => i.1.attid).Nodup →
    (metaDataOf a (mergeEntries seqNum rmd nmd).1, (mergeEntries seqNum rmd nmd).2.find? fun el => el.1 == a) =
      match rmd.find? fun i => i.1.attid == a with
      | some i =>
        if applies i.1 (metaDataOf a nmd) then (some (i.1.withLocalUsn seqNum), some (a, i.2))
        else (metaDataOf a nmd, none)
      | none => (metaDataOf a nmd, none)
  | [], _, _ => rfl
  | (m, v) :: rmd, nmd, hn => by
    rw [List.map_cons, List.nodup_cons] at hn
    have ih := find_mergeEntries seqNum a rmd (mergeEntry (m.withLocalUsn seqNum) nmd).1 hn.2
    have hmd := metaDataOf_mergeEntry (m.withLocalUsn seqNum) a nmd
    have hsnd := mergeEntry_snd (m.withLocalUsn seqNum) nmd
    rw [applies_withLocalUsn, ReplPropertyMetaData1.attid_withLocalUsn] at hmd hsnd
    rw [mergeEntries_cons]
    generalize mergeEntry (m.withLocalUsn seqNum) nmd = first at ih hmd hsnd ⊢
    obtain ⟨nmd', applied⟩ := first
    generalize mergeEntries seqNum rmd nmd' = last at ih ⊢
    obtain ⟨nmd'', elements⟩ := last
    dsimp only at ih hmd hsnd ⊢
    by_cases ha : m.attid = a
    · -- no later change is of this attribute
      have hrest : (rmd.find? fun i => i.1.attid == a) = none := by
        rw [List.find?_eq_none]
        intro i hi hia
        exact hn.1 (List.mem_map.2 ⟨i, hi, by simpa [ha] using hia⟩)
      rw [hrest] at ih
      obtain ⟨hmd'', hel⟩ := Prod.mk.inj ih
      rw [List.find?_cons_of_pos (by simpa using ha), hmd'', hmd, hsnd, ha]
      by_cases hap : applies m (metaDataOf a nmd) = true
      · simp [hap]
      · simp [hap, hel]
    · rw [if_neg fun h => ha h.1] at hmd
      have hel : (if applied then (m.attid, v) :: elements else elements).find? (fun el => el.1 == a) =
          elements.find? fun el => el.1 == a := by
        split
        · exact List.find?_cons_of_neg (by simpa using ha)
        · rfl
      rw [List.find?_cons_of_neg (by simpa using ha), ← hmd, ← ih, hel]

theorem attribute_modify (obj : StoredObject Dn V) {nmd nmd' : List ReplPropertyMetaData1} (hp : nmd.Perm nmd')
    (hnmd : (nmd.map (·.attid)).Nodup) (elements : List (UInt32 × V)) (a : UInt32) :
    (obj.modify nmd hnmd elements).attribute a =
      ((metaDataOf a nmd').map fun m => m.stored.stamp, replaceValues elements obj.values a) := by
  have hmd : (obj.modify nmd hnmd elements).metaData = nmd.map (·.stored) := by rw [StoredObject.modify]
  rw [StoredObject.attribute, hmd, metaDataOf_stored, metaDataOf_perm hp ((hp.map _).nodup_iff.1 hnmd), map_map]
  congr 1

/-- What is stored is what the blob gives back. -/
theorem StoredObject.map_stored (obj : StoredObject Dn V) (a : UInt32) :
    (metaDataOf a obj.metaData).map (fun m => m.stored.stamp) = (metaDataOf a obj.metaData).map (·.stamp) := by
  cases hm : metaDataOf a obj.metaData with
  | none => rw [map_none, map_none]
  | some m => rw [map_some, map_some, obj.stored m (List.mem_of_find?_eq_some hm)]

variable {obj obj' : StoredObject Dn V} {seqNum : UInt64} {u : ReplObject Dn V} {rdnAttid : UInt32}

/-- What a merge can do: nothing, for another object or without elements left, or store the new meta data in some order
and the values of the elements. -/
theorem applyNext_eq_some [DecidableEq Dn] (h : applyNext obj (seqNum, u) = some obj') :
    (u.dn ≠ obj.dn ∧ obj' = obj) ∨
      u.dn = obj.dn ∧ (((mergeEntries seqNum u.attributes obj.metaData).2 = [] ∧ obj' = obj) ∨
        ∃ nmd hnmd, nmd.Perm (mergeEntries seqNum u.attributes obj.metaData).1 ∧
          obj' = obj.modify nmd hnmd (mergeEntries seqNum u.attributes obj.metaData).2) := by
  rw [applyNext, applyMerge] at h
  by_cases hdn : u.dn = obj.dn
  swap
  · rw [if_pos hdn] at h
    exact Or.inl ⟨hdn, (Option.some.inj h).symm⟩
  refine Or.inr ⟨hdn, ?_⟩
  rw [if_neg (not_not.2 hdn)] at h
  dsimp only at h
  split at h
  case h_2 _ herr =>
    split at herr
    · cases herr
    · split at herr
      · cases herr
      · split at herr <;> cases herr
  case h_1 o hok =>
    subst h
    split at hok
    · cases hok
    · split at hok
      · cases hok
      · rename_i nmd hsort
        split at hok
        · next hempty =>
          obtain rfl := Option.some.inj (Except.ok.inj hok)
          exact Or.inl ⟨List.isEmpty_iff.1 hempty, rfl⟩
        · obtain rfl := Option.some.inj (Except.ok.inj hok)
          exact Or.inr ⟨nmd, _, ldbQsortEntries_perm hsort, rfl⟩

/-- Whether the changes override what is stored of an attribute. -/
def overrides [DecidableEq Dn] (dn : Dn) (attid : UInt32) (u : ReplObject Dn V)
    (current : Option ReplPropertyMetaData1 × V) : Bool :=
  u.dn = dn && match u.item attid with
    | some i => applies i.1 current.1
    | none => false

/-- What is stored of an attribute when the changes of it override. Changes that do not name the attribute write
nothing; `obj` is the object before all changes. -/
def written (obj : StoredObject Dn V) (attid : UInt32) (u : ReplObject Dn V) : Option ReplPropertyMetaData1 × V :=
  match u.item attid with
  | some i => entryOf i
  | none => obj.attribute attid

/-- A merge is an offer of its changes to every attribute. -/
theorem attribute_applyNext [DecidableEq Dn] (obj₀ : StoredObject Dn V) (h : applyNext obj (seqNum, u) = some obj') (a : UInt32) :
    obj'.attribute a = Register.offer (overrides obj.dn a) (written obj₀ a) (obj.attribute a) u := by
  obtain ⟨hdn, rfl⟩ | ⟨hdn, hcases⟩ := applyNext_eq_some h
  · rw [Register.offer_of_not_beats (by simp [overrides, hdn])]
  have hov : overrides obj.dn a u (obj.attribute a) = match u.item a with
      | some i => applies i.1 (metaDataOf a obj.metaData)
      | none => false := by
    simp only [overrides, hdn, decide_true, Bool.true_and, StoredObject.attribute, applies_stamp]
  -- the entry and the element of the attribute after the loop
  have hspec := find_mergeEntries seqNum a u.attributes obj.metaData u.nodup
  change _ = (match u.item a with | some i => _ | none => _) at hspec
  rw [Register.offer, hov, written]
  obtain ⟨hempty, rfl⟩ | ⟨nmd, hnmd, hperm, rfl⟩ := hcases
  · rw [hempty] at hspec
    cases hi : u.item a with
    | none => rfl
    | some i =>
      rw [hi] at hspec
      by_cases hap : applies i.1 (metaDataOf a obj'.metaData) = true
      · simp [hap] at hspec
      · simp [hap]
  · rw [attribute_modify obj hperm, replaceValues]
    cases hi : u.item a with
    | none =>
      rw [hi] at hspec
      obtain ⟨hmd, hel⟩ := Prod.mk.inj hspec
      rw [hmd, hel, obj.map_stored]
      rfl
    | some i =>
      rw [hi] at hspec
      by_cases hap : applies i.1 (metaDataOf a obj.metaData) = true
      · obtain ⟨hmd, hel⟩ := Prod.mk.inj (hspec.trans (if_pos hap))
        rw [hmd, hel, if_pos hap, map_some, ReplPropertyMetaData1.stamp_stored_withLocalUsn]
        rfl
      · obtain ⟨hmd, hel⟩ := Prod.mk.inj (hspec.trans (if_neg hap))
        rw [hmd, hel, if_neg hap, obj.map_stored]
        rfl

theorem dn_applyNext [DecidableEq Dn] {req : UInt64 × ReplObject Dn V}
    (h : applyNext obj req = some obj') : obj'.dn = obj.dn := by
  obtain ⟨-, rfl⟩ | ⟨-, ⟨-, rfl⟩ | ⟨nmd, hnmd, -, rfl⟩⟩ := applyNext_eq_some h
  · rfl
  · rfl
  · rfl

/-- A merge whose sort stays in the array ends. -/
theorem applyMerge_of_sort [DecidableEq Dn]
    {nmd : List ReplPropertyMetaData1} (hdn : u.dn = obj.dn) (hne : obj.metaData.length ≠ 0)
    (hsort : replPropertyMetaDataCtr1Sort (fun array => (array (obj.metaData.length - 1)).attid)
      (mergeEntries seqNum u.attributes obj.metaData).1 = some nmd) :
    ∃ hnmd, applyMerge seqNum u obj = .ok (if (mergeEntries seqNum u.attributes obj.metaData).2.isEmpty then some obj
      else some (obj.modify nmd hnmd (mergeEntries seqNum u.attributes obj.metaData).2)) := by
  refine ⟨nodup_sort hsort (nodup_mergeEntries seqNum u.attributes obj.nodup), ?_⟩
  rw [applyMerge, if_neg (not_not.2 hdn)]
  dsimp only
  rw [if_neg hne]
  split
  · next hnone =>
    rw [hsort] at hnone
    cases hnone
  · next nmd' hsome =>
    obtain rfl : nmd = nmd' := Option.some.inj (hsort.symm.trans hsome)
    split <;> rfl

/-- A merge that finds the order ends, with the ids there were and those of the changes, in order. -/
theorem applyNext_ordered [DecidableEq Dn] (hord : MetaDataOrdered rdnAttid obj.metaData)
    (hone : ∃ a, ∀ i ∈ u.attributes, i.1.attid ∈ obj.metaData.map (·.attid) ∨ i.1.attid = a)
    (hcomp : Comparable rdnAttid (obj.metaData.map (·.attid) ++ u.attributes.map (·.1.attid))) (seqNum : UInt64) :
    ∃ obj', applyNext obj (seqNum, u) = some obj' ∧ MetaDataOrdered rdnAttid obj'.metaData ∧
      obj.metaData.map (·.attid) ⊆ obj'.metaData.map (·.attid) ∧
      obj'.metaData.map (·.attid) ⊆ obj.metaData.map (·.attid) ++ u.attributes.map (·.1.attid) := by
  by_cases hdn : u.dn = obj.dn
  swap
  · exact ⟨obj, by rw [applyNext, applyMerge, if_pos hdn], hord, List.Subset.refl _, List.subset_append_left _ _⟩
  obtain ⟨a, ha⟩ := hone
  obtain ⟨new, hids, -, hnew⟩ := attids_mergeEntries seqNum u.attributes obj.metaData ha
  obtain ⟨hne, nmd, hsort, hnmd⟩ := sort_merged hord ⟨a, ha⟩ hcomp seqNum
  obtain ⟨hnodup, hmerge⟩ := applyMerge_of_sort hdn hne hsort
  by_cases hempty : (mergeEntries seqNum u.attributes obj.metaData).2.isEmpty = true
  · rw [if_pos hempty] at hmerge
    exact ⟨obj, by rw [applyNext, hmerge], hord, List.Subset.refl _, List.subset_append_left _ _⟩
  · rw [if_neg hempty] at hmerge
    refine ⟨_, by rw [applyNext, hmerge], hnmd.stored, ?_⟩
    -- the sort moves the entries only
    have hmem : ∀ x, x ∈ (nmd.map (·.stored)).map (·.attid) ↔ x ∈ obj.metaData.map (·.attid) ++ new := fun x => by
      rw [← hids, ← ((ldbQsortEntries_perm hsort).map (·.attid)).mem_iff, List.map_map]
      simp only [Function.comp_def, ReplPropertyMetaData1.attid_stored]
    constructor
    · exact fun x hx => (hmem x).2 (List.mem_append_left _ hx)
    · exact fun x hx => (List.mem_append.1 ((hmem x).1 hx)).elim (List.mem_append_left _)
        fun h => List.mem_append_right _ (hnew h)

/-- A merge of one of the updates ends, and the merges behind it find the order as well. -/
theorem SortsInOrder.applyNext [DecidableEq Dn]
    {updates : List (ReplObject Dn V)} (h : SortsInOrder rdnAttid obj updates) {req : UInt64 × ReplObject Dn V}
    (hreq : req.2 ∈ updates) : ∃ obj', applyNext obj req = some obj' ∧ SortsInOrder rdnAttid obj' updates := by
  have hincoming : req.2.attributes.map (·.1.attid) ⊆ updates.flatMap fun u => u.attributes.map (·.1.attid) :=
    fun x hx => List.mem_flatMap.2 ⟨req.2, hreq, hx⟩
  have hwithin : obj.metaData.map (·.attid) ++ req.2.attributes.map (·.1.attid) ⊆
      obj.metaData.map (·.attid) ++ updates.flatMap fun u => u.attributes.map (·.1.attid) :=
    List.append_subset.2 ⟨List.subset_append_left _ _, List.subset_append_of_subset_right _ hincoming⟩
  obtain ⟨obj', hnext, hord, hkept, hids⟩ := applyNext_ordered h.ordered (h.oneNew req.2 hreq) (h.comparable.subset hwithin) req.1
  refine ⟨obj', hnext, hord, fun u hu => ?_, h.comparable.subset ?_⟩
  · obtain ⟨a, ha⟩ := h.oneNew u hu
    exact ⟨a, fun i hi => (ha i hi).imp_left (hkept ·)⟩
  · exact List.append_subset.2 ⟨List.Subset.trans hids hwithin, List.subset_append_right _ _⟩

/-! ## Runs of merges -/

/-- A run of merges is a run of offers to every attribute. -/
theorem attribute_applyAll [DecidableEq Dn] (obj₀ : StoredObject Dn V) (a : UInt32) :
    ∀ (reqs : List (UInt64 × ReplObject Dn V)) (obj obj' : StoredObject Dn V), applyAll reqs obj = some obj' →
      obj'.attribute a =
        Register.offers (overrides obj.dn a) (written obj₀ a) (reqs.map Prod.snd) (obj.attribute a)
  | [], _, _, h => by rw [← Option.some.inj h]; rfl
  | req :: reqs, obj, obj', h => by
    rw [applyAll, List.foldlM_cons] at h
    cases hnext : applyNext obj req with
    | none =>
      rw [hnext] at h
      cases h
    | some next =>
      rw [hnext] at h
      have ih := attribute_applyAll obj₀ a reqs next obj' h
      rw [dn_applyNext hnext, attribute_applyNext obj₀ hnext] at ih
      exact ih

/-- Runs of updates whose sorts find the order end. -/
theorem SortsInOrder.applyAll [DecidableEq Dn] {updates : List (ReplObject Dn V)} :
    ∀ {reqs : List (UInt64 × ReplObject Dn V)} {obj : StoredObject Dn V}, SortsInOrder rdnAttid obj updates →
      (∀ req ∈ reqs, req.2 ∈ updates) → ∃ obj', applyAll reqs obj = some obj'
  | [], obj, _, _ => ⟨obj, rfl⟩
  | req :: reqs, obj, h, hreqs => by
    obtain ⟨next, hnext, hrest⟩ := h.applyNext (hreqs req List.mem_cons_self)
    obtain ⟨obj', hobj'⟩ := hrest.applyAll fun r hr => hreqs r (List.mem_cons_of_mem _ hr)
    refine ⟨obj', ?_⟩
    rw [Dsdb.applyAll, List.foldlM_cons, hnext]
    exact hobj'

/-! ## What settles -/

section Settles

variable [DecidableEq Dn] {obj : StoredObject Dn V} {attid : UInt32} {updates : List (ReplObject Dn V)}
  {current : Option ReplPropertyMetaData1 × V}

theorem applies_iff (m : ReplPropertyMetaData1) (e : Option ReplPropertyMetaData1) : applies m e = true ↔ NewerThan m e := by
  cases e with
  | none => exact iff_of_true rfl trivial
  | some e => rw [applies, decide_eq_true_iff, gt_iff_lt, conflictCompare_pos_iff, NewerThan]

theorem overrides_iff {u : ReplObject Dn V} :
    overrides obj.dn attid u current = true ↔ ∃ i, u.dn = obj.dn ∧ u.item attid = some i ∧ NewerThan i.1 current.1 := by
  rw [overrides, Bool.and_eq_true, decide_eq_true_iff]
  cases hi : u.item attid with
  | none => simp
  | some i => simp [applies_iff]

theorem mem_changesTo {i : ReplPropertyMetaData1 × V} :
    i ∈ changesTo obj.dn attid updates ↔ ∃ u ∈ updates, u.dn = obj.dn ∧ u.item attid = some i := by
  rw [changesTo, List.mem_filterMap]
  refine exists_congr fun u => and_congr_right fun _ => ?_
  by_cases hdn : u.dn = obj.dn
  · rw [if_pos hdn]
    exact ⟨fun h => ⟨hdn, h⟩, And.right⟩
  · rw [if_neg hdn]
    exact iff_of_false nofun fun h => hdn h.1

omit [DecidableEq Dn] in
theorem written_of_item {u : ReplObject Dn V} {i : ReplPropertyMetaData1 × V} (hi : u.item attid = some i) :
    written obj attid u = entryOf i := by
  rw [written, hi]

variable {e : Option ReplPropertyMetaData1 × V}

/-- The entries that the register can have are those that can be stored. -/
theorem reached_iff : Register.Reached (overrides obj.dn attid) (written obj attid) updates e current ↔
      Storable (changesTo obj.dn attid updates) e current := by
  constructor
  · intro h
    induction h with
    | start => exact .stored
    | @next c u _ hu hb ih =>
      obtain ⟨i, hdn, hi, hnew⟩ := overrides_iff.1 hb
      rw [written_of_item hi]
      exact .newer ih (mem_changesTo.2 ⟨u, hu, hdn, hi⟩) hnew
  · intro h
    induction h with
    | stored => exact .start
    | @newer c i _ hi hnew ih =>
      obtain ⟨u, hu, hdn, hitem⟩ := mem_changesTo.1 hi
      rw [← written_of_item hitem]
      exact .next ih hu (overrides_iff.2 ⟨i, hdn, hitem, hnew⟩)

theorem ChangesSettle.prevails (h : ChangesSettle (changesTo obj.dn attid updates) e) :
    Register.Prevails (overrides obj.dn attid) (written obj attid) updates e := by
  have hkeep : ∀ {c : Option ReplPropertyMetaData1 × V},
      (∀ i ∈ changesTo obj.dn attid updates, NewerThan i.1 c.1 → entryOf i = c) →
      ∀ u ∈ updates, overrides obj.dn attid u c → written obj attid u = c := fun hc u hu hb => by
    obtain ⟨i, hdn, hi, hnew⟩ := overrides_iff.1 hb
    rw [written_of_item hi]
    exact hc i (mem_changesTo.2 ⟨u, hu, hdn, hi⟩) hnew
  rcases h with hstay | ⟨f, hf, habs, hnew⟩
  · exact .inl (hkeep hstay)
  · obtain ⟨u, hu, hdn, hi⟩ := mem_changesTo.1 hf
    refine .inr ⟨u, hu, ?_, fun c hc hne => ?_⟩
    · rw [written_of_item hi]
      exact hkeep habs
    · rw [written_of_item hi] at hne
      exact overrides_iff.2 ⟨f, hdn, hi, hnew c (reached_iff.1 hc) hne⟩

theorem changesSettle_of_prevails (h : Register.Prevails (overrides obj.dn attid) (written obj attid) updates e) :
    ChangesSettle (changesTo obj.dn attid updates) e := by
  have hkeep : ∀ {c : Option ReplPropertyMetaData1 × V},
      (∀ u ∈ updates, overrides obj.dn attid u c → written obj attid u = c) →
      ∀ i ∈ changesTo obj.dn attid updates, NewerThan i.1 c.1 → entryOf i = c := fun hc i hi hnew => by
    obtain ⟨u, hu, hdn, hitem⟩ := mem_changesTo.1 hi
    rw [← written_of_item hitem]
    exact hc u hu (overrides_iff.2 ⟨i, hdn, hitem, hnew⟩)
  rcases h with hstay | ⟨u, hu, habs, hbeat⟩
  · exact .inl (hkeep hstay)
  by_cases he : e = written obj attid u
  · exact .inl (hkeep (he ▸ habs))
  obtain ⟨f, hdn, hi, -⟩ := overrides_iff.1 (hbeat e .start he)
  rw [written_of_item hi] at habs hbeat
  refine .inr ⟨f, mem_changesTo.2 ⟨u, hu, hdn, hi⟩, hkeep habs, fun c hc hne => ?_⟩
  obtain ⟨f', -, hi', hnew⟩ := overrides_iff.1 (hbeat c (reached_iff.2 hc) hne)
  obtain rfl := Option.some.inj (hi.symm.trans hi')
  exact hnew

/-- Changes with equal stamps are newer than the same entries. -/
theorem newerThan_of_stamp {m m' : ReplPropertyMetaData1} (h : m.stamp = m'.stamp) (e : Option ReplPropertyMetaData1) :
    NewerThan m e ↔ NewerThan m' e := by
  cases e with
  | none => rfl
  | some e =>
    change Newer m.stamp e ↔ Newer m'.stamp e
    rw [h]

/-- Where seconds keep the stamps apart, what agrees in every order settles. -/
theorem changesSettle_of_settles (hapart : ApartInSeconds (changesTo obj.dn attid updates))
    (h : Register.Settles (overrides obj.dn attid) (written obj attid) updates e) :
    ChangesSettle (changesTo obj.dn attid updates) e := by
  refine changesSettle_of_prevails (h.prevails fun u hu v hv huv ⟨c, hc⟩ ⟨d, hd⟩ b => ?_)
  obtain ⟨i, hdn, hi, -⟩ := overrides_iff.1 hc
  obtain ⟨j, hdn', hj, -⟩ := overrides_iff.1 hd
  rw [written_of_item hi, written_of_item hj] at huv
  have hstamp := hapart i (mem_changesTo.2 ⟨u, hu, hdn, hi⟩) j (mem_changesTo.2 ⟨v, hv, hdn', hj⟩)
    (Option.some.inj (Prod.mk.inj huv).1)
  rw [Bool.eq_iff_iff, overrides_iff, overrides_iff]
  constructor
  · rintro ⟨i', -, hi', hnew⟩
    obtain rfl := Option.some.inj (hi.symm.trans hi')
    exact ⟨j, hdn', hj, (newerThan_of_stamp hstamp _).1 hnew⟩
  · rintro ⟨j', -, hj', hnew⟩
    obtain rfl := Option.some.inj (hj.symm.trans hj')
    exact ⟨i, hdn, hi, (newerThan_of_stamp hstamp _).2 hnew⟩

/-- A change that is newer than what is stored and than every other change settles them, when none of them is newer. -/
theorem changesSettle_of_newest {changes : List (ReplPropertyMetaData1 × V)}
    {f : ReplPropertyMetaData1 × V} (hf : f ∈ changes) (hstored : NewerThan f.1 e.1)
    (hnewest : ∀ i ∈ changes, entryOf i = entryOf f ∨ Newer f.1 i.1.stored.stamp ∧ ¬NewerThan i.1 (entryOf f).1) :
    ChangesSettle changes e := by
  refine .inr ⟨f, hf, fun i hi hnew => ?_, fun c hc hne => ?_⟩
  · exact (hnewest i hi).resolve_right fun h => h.2 hnew
  · cases hc with
    | stored => exact hstored
    | newer _ hi _ => exact ((hnewest _ hi).resolve_left hne).1

end Settles

/-! ## Agreement -/

/-- Runs of the same updates, in any orders and with any repetitions, that end agree when the changes settle. -/
theorem attribute_agree [DecidableEq Dn] {obj obj₁ obj₂ : StoredObject Dn V} {updates : List (ReplObject Dn V)}
    {reqs reqs' : List (UInt64 × ReplObject Dn V)} {attid : UInt32}
    (hsettle : ChangesSettle (changesTo obj.dn attid updates) (obj.attribute attid))
    (hreqs : Register.Lists updates (reqs.map Prod.snd)) (hreqs' : Register.Lists updates (reqs'.map Prod.snd))
    (h₁ : applyAll reqs obj = some obj₁) (h₂ : applyAll reqs' obj = some obj₂) :
    obj₁.attribute attid = obj₂.attribute attid := by
  rw [attribute_applyAll obj attid reqs obj obj₁ h₁, attribute_applyAll obj attid reqs' obj obj₂ h₂]
  exact (Register.offers_agree_iff updates _).2 hsettle.prevails.settles _ _ hreqs hreqs'

/-- Replicas converge when the sorts find the order and the changes of every attribute settle. When they converge, the
changes of every attribute settle whose stamps differ in seconds. -/
theorem replicas_converge [DecidableEq Dn] (obj : StoredObject Dn V) (updates : List (ReplObject Dn V)) :
    ((∃ rdnAttid, SortsInOrder rdnAttid obj updates) →
      (∀ attid, ChangesSettle (changesTo obj.dn attid updates) (obj.attribute attid)) → Converges updates obj) ∧
    (Converges updates obj → ∀ attid, ApartInSeconds (changesTo obj.dn attid updates) →
      ChangesSettle (changesTo obj.dn attid updates) (obj.attribute attid)) := by
  constructor
  · rintro ⟨rdnAttid, hsorts⟩ hsettle reqs reqs' hreqs hreqs'
    have hmem : ∀ {rs : List (UInt64 × ReplObject Dn V)}, Register.Lists updates (rs.map Prod.snd) →
        ∀ r ∈ rs, r.2 ∈ updates := fun hrs r hr => (hrs r.2).1 (List.mem_map.2 ⟨r, hr, rfl⟩)
    obtain ⟨obj₁, h₁⟩ := hsorts.applyAll (hmem hreqs)
    obtain ⟨obj₂, h₂⟩ := hsorts.applyAll (hmem hreqs')
    exact ⟨obj₁, obj₂, h₁, h₂, fun a => attribute_agree (hsettle a) hreqs hreqs' h₁ h₂⟩
  · intro h a hapart
    refine changesSettle_of_settles hapart ((Register.offers_agree_iff updates _).1 fun us vs hus hvs => ?_)
    have hsnd : ∀ ws : List (ReplObject Dn V), (ws.map fun u => ((0 : UInt64), u)).map Prod.snd = ws := fun ws => by
      simp [Function.comp_def]
    obtain ⟨obj₁, obj₂, h₁, h₂, hagree⟩ := h (us.map fun u => (0, u)) (vs.map fun u => (0, u))
      (by rw [hsnd]; exact hus) (by rw [hsnd]; exact hvs)
    have ha := hagree a
    rwa [attribute_applyAll obj a _ obj obj₁ h₁, attribute_applyAll obj a _ obj obj₂ h₂, hsnd, hsnd] at ha

/-! ## A user -/

instance (rdnAttid : UInt32) (md : List ReplPropertyMetaData1) : Decidable (MetaDataOrdered rdnAttid md) :=
  decidable_of_iff (_ ∧ _) ⟨fun h => ⟨h.1, h.2⟩, fun h => ⟨h.ascending, h.last⟩⟩

instance (rdnAttid : UInt32) (ids : List UInt32) : Decidable (Comparable rdnAttid ids) :=
  decidable_of_iff (ids.all fun a => ids.all fun b => a = rdnAttid || b = rdnAttid || a.toNat < b.toNat + 2 ^ 31) (by
    simp only [List.all_eq_true, Bool.or_eq_true, decide_eq_true_eq, Comparable]
    refine forall₂_congr fun a _ => forall₂_congr fun b _ => ?_
    tauto)

/-- A user with the attributes instanceType, name and, as its RDN, cn. -/
def storedUserObject : StoredObject Unit Nat where
  dn := ()
  metaData := [0x20001, 0x90001, 3].map fun attid => ⟨attid, 1, 0, .zero, 1, 1⟩
  values := fun _ => 0
  nodup := by decide
  stored := by decide

/-- A change of the description and of the name of a user, with a version and a value. -/
def userChange (version : UInt32) (value : Nat) : ReplObject Unit Nat where
  dn := ()
  attributes := [0xD, 0x90001].map fun attid => (⟨attid, version, 0, .zero, 0, 0⟩, value)
  nodup := show ([0xD, 0x90001] : List UInt32).Nodup by decide

/-- Three versions of a description that is new and of a name that is stored. The first version of the name is stale. -/
theorem replicas_converge_versions :
    Converges [userChange 3 30, userChange 1 10, userChange 2 20] storedUserObject := by
  refine (replicas_converge storedUserObject _).1 ⟨3, by decide, fun u hu => ⟨0xD, ?_⟩, by decide⟩ fun a => ?_
  · revert u
    decide
  by_cases hdescription : a = 0xD
  · rw [hdescription]
    exact changesSettle_of_newest (f := (⟨0xD, 3, 0, .zero, 0, 0⟩, 30)) (by decide) trivial (by decide)
  by_cases hname : a = 0x90001
  · rw [hname]
    exact changesSettle_of_newest (f := (⟨0x90001, 3, 0, .zero, 0, 0⟩, 30)) (by decide) (by decide) (by decide)
  have hnone : changesTo () a [userChange 3 30, userChange 1 10, userChange 2 20] = [] := by
    have hitem : ∀ version value, (userChange version value).item a = none := fun version value => by
      simp [ReplObject.item, userChange, Ne.symm hdescription, Ne.symm hname]
    simp [changesTo, hitem]
  rw [show storedUserObject.dn = () from rfl, hnone]
  exact .inl nofun

/-- Of two versions that are `2 ^ 31` apart neither overrides the other one, so the first one stays. -/
theorem replicas_diverge :
    ((applyAll [(1, userChange 0 1), (2, userChange 0x80000000 2)] storedUserObject).map
      fun obj => (obj.attribute 0xD).2) = some 1 ∧
    ((applyAll [(1, userChange 0x80000000 2), (2, userChange 0 1)] storedUserObject).map
      fun obj => (obj.attribute 0xD).2) = some 2 := by
  decide

end Samba.Dsdb
