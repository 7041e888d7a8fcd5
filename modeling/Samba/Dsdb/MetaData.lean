/-
Replication meta data and how incoming changes of an object are merged into the stored one
(dsdb/samdb/ldb_modules/repl_meta_data.c, librpc/idl/drsblobs.idl, librpc/ndr/uuid.c).

Each attribute of an object has an entry of meta data, its stamp. A change is applied when its stamp compares greater
than the stored one. The new entries are sorted by ids before they are stored. The sort finds the id of the RDN attribute
through a pointer to the entry at the index where the last stored one was, in the array that it sorts.
-/
import Samba.Ldb.Qsort
import Samba.Security.Descriptor
import Mathlib.Data.List.Perm.Basic

namespace Samba.Dsdb

open List Samba.Ldb Samba.Security

/-! ## GUIDs -/

/-- `GUID_compare`. The difference of the `uint32_t` fields is returned as an `int`. -/
def guidCompare (u1 u2 : Guid) : Int :=
  if u1.timeLow ≠ u2.timeLow then (u1.timeLow - u2.timeLow).toBitVec.toInt
  else if u1.timeMid ≠ u2.timeMid then (u1.timeMid.toNat : Int) - u2.timeMid.toNat
  else if u1.timeHiAndVersion ≠ u2.timeHiAndVersion then
    (u1.timeHiAndVersion.toNat : Int) - u2.timeHiAndVersion.toNat
  else if getElem u1.clockSeq 0 Nat.zero_lt_two ≠ getElem u2.clockSeq 0 Nat.zero_lt_two then
    ((getElem u1.clockSeq 0 Nat.zero_lt_two).toNat : Int) - (getElem u2.clockSeq 0 Nat.zero_lt_two).toNat
  else if getElem u1.clockSeq 1 Nat.one_lt_two ≠ getElem u2.clockSeq 1 Nat.one_lt_two then
    ((getElem u1.clockSeq 1 Nat.one_lt_two).toNat : Int) - (getElem u2.clockSeq 1 Nat.one_lt_two).toNat
  else firstDifference (u1.node.toList.zip u2.node.toList)

/-! ## Meta data -/

/-- `struct replPropertyMetaData1`. -/
structure ReplPropertyMetaData1 where
  attid : UInt32
  version : UInt32
  originatingChangeTime : UInt64
  originatingInvocationId : Guid
  originatingUsn : UInt64
  localUsn : UInt64
  deriving DecidableEq, Repr

/-- A `uint64_t` difference returned as an `int`. -/
def intOfDifference (a b : UInt64) : Int := (a - b).toUInt32.toBitVec.toInt

/-- `replmd_replPropertyMetaData1_conflict_compare`. -/
def conflictCompare (m1 m2 : ReplPropertyMetaData1) : Int :=
  if m1.version ≠ m2.version then (m1.version - m2.version).toBitVec.toInt
  else if m1.originatingChangeTime ≠ m2.originatingChangeTime then
    intOfDifference m1.originatingChangeTime m2.originatingChangeTime
  else
    let ret := guidCompare m1.originatingInvocationId m2.originatingInvocationId
    if ret ≠ 0 then ret else intOfDifference m1.originatingUsn m2.originatingUsn

/-- What `ndr_pull_NTTIME_1sec` reads back of what `ndr_push_NTTIME_1sec` wrote: the seconds of a time. -/
def nttime1sec (t : UInt64) : UInt64 := t / 10000000 * 10000000

namespace ReplPropertyMetaData1

/-- The entry as the stored blob gives it back. -/
def stored (m : ReplPropertyMetaData1) : ReplPropertyMetaData1 :=
  { m with originatingChangeTime := nttime1sec m.originatingChangeTime }

/-- The entry with the usn of the replica that stores it. -/
def withLocalUsn (m : ReplPropertyMetaData1) (usn : UInt64) : ReplPropertyMetaData1 := { m with localUsn := usn }

/-- The entry without the usn of the replica that stored it. -/
def stamp (m : ReplPropertyMetaData1) : ReplPropertyMetaData1 := m.withLocalUsn 0

@[simp] theorem attid_stored (m : ReplPropertyMetaData1) : m.stored.attid = m.attid := by rw [stored]

@[simp] theorem attid_withLocalUsn (m : ReplPropertyMetaData1) (usn : UInt64) : (m.withLocalUsn usn).attid = m.attid :=
  rfl

@[simp] theorem attid_stamp (m : ReplPropertyMetaData1) : m.stamp.attid = m.attid := rfl

theorem stamp_stored_withLocalUsn (m : ReplPropertyMetaData1) (usn : UInt64) :
    (m.withLocalUsn usn).stored.stamp = m.stored.stamp := rfl

end ReplPropertyMetaData1

/-- Rounding down to multiples of `d` twice rounds once. -/
theorem div_mul_div_mul (t d : UInt64) : t / d * d / d * d = t / d * d := by
  have hle : t.toNat / d.toNat * d.toNat < 2 ^ 64 := (Nat.div_mul_le_self _ _).trans_lt t.toNat_lt
  have h : (t / d * d).toNat = t.toNat / d.toNat * d.toNat := by
    rw [UInt64.toNat_mul, UInt64.toNat_div, Nat.mod_eq_of_lt hle]
  apply UInt64.toNat_inj.1
  rw [UInt64.toNat_mul, UInt64.toNat_div, h]
  rcases Nat.eq_zero_or_pos d.toNat with hd | hd
  · simp [hd]
  · rw [Nat.mul_div_cancel _ hd, Nat.mod_eq_of_lt hle]

theorem nttime1sec_idem (t : UInt64) : nttime1sec (nttime1sec t) = nttime1sec t := div_mul_div_mul t 10000000

theorem ReplPropertyMetaData1.stored_stored (m : ReplPropertyMetaData1) : m.stored.stored = m.stored := by
  rw [stored, stored, nttime1sec_idem]

/-! ## Objects -/

variable {Dn V : Type}

/-- `struct dsdb_extended_replicated_object`, incoming changes of an object: the meta data and the value of each
attribute, which stand at the same index in `meta_data` and in the elements of `msg`. -/
structure ReplObject (Dn V : Type) where
  dn : Dn
  attributes : List (ReplPropertyMetaData1 × V)
  nodup : (attributes.map fun i => i.1.attid).Nodup

/-- The stored object: `replPropertyMetaData` and the values of the attributes. A stored blob was pushed, so its times
are whole seconds. -/
structure StoredObject (Dn V : Type) where
  dn : Dn
  metaData : List ReplPropertyMetaData1
  values : UInt32 → V
  nodup : (metaData.map (·.attid)).Nodup
  stored : ∀ m ∈ metaData, m.stored = m

/-! ## The sort -/

/-- `replmd_replPropertyMetaData1_attid_sort`. -/
def attidSort (rdnAttid : UInt32) (m1 m2 : ReplPropertyMetaData1) : Int :=
  if m1.attid = m2.attid then 0
  else if m1.attid = rdnAttid then 1
  else if m2.attid = rdnAttid then -1
  else (m1.attid - m2.attid).toBitVec.toInt

/-- `replmd_replPropertyMetaDataCtr1_sort`. The id of the RDN attribute is read through a pointer, which may be one into the array.
`none` is for a sort that leaves the array. -/
def replPropertyMetaDataCtr1Sort (rdnAttid : (Nat → ReplPropertyMetaData1) → UInt32) (array : List ReplPropertyMetaData1) :
    Option (List ReplPropertyMetaData1) :=
  ldbQsortEntries (fun a => attidSort (rdnAttid a)) array

/-! ## The merge -/

/-- The search for one incoming entry in the new meta data: the entry of its attribute is replaced when the incoming
one compares greater, and a new attribute is put at the end. The flag says that the change is applied. -/
def mergeEntry (m : ReplPropertyMetaData1) : List ReplPropertyMetaData1 → List ReplPropertyMetaData1 × Bool
  | [] => ([m], true)
  | e :: nmd =>
    if m.attid ≠ e.attid then
      let (nmd', applied) := mergeEntry m nmd
      (e :: nmd', applied)
    else if conflictCompare m e > 0 then (m :: nmd, true)
    else (e :: nmd, false)

/-- The loop over the incoming meta data: the new meta data and the elements left in `msg`. -/
def mergeEntries (seqNum : UInt64) : List (ReplPropertyMetaData1 × V) → List ReplPropertyMetaData1 →
    List ReplPropertyMetaData1 × List (UInt32 × V)
  | [], nmd => (nmd, [])
  | (m, v) :: rmd, nmd =>
    let (nmd', applied) := mergeEntry (m.withLocalUsn seqNum) nmd
    let (nmd'', elements) := mergeEntries seqNum rmd nmd'
    (nmd'', if applied then (m.attid, v) :: elements else elements)

/-- The errors of `replmd_replicated_apply_merge` that depend on its input. -/
inductive Werror
  | notSupported
  deriving DecidableEq, Repr

/-- The values after the modify request, which replaces the attributes of its elements. -/
def replaceValues (elements : List (UInt32 × V)) (values : UInt32 → V) (attid : UInt32) : V :=
  match elements.find? fun el => el.1 == attid with
  | some el => el.2
  | none => values attid

/-! ## The entry of an attribute -/

/-- The entry of an attribute. -/
def metaDataOf (attid : UInt32) (md : List ReplPropertyMetaData1) : Option ReplPropertyMetaData1 :=
  md.find? fun m => m.attid == attid

/-- Whether an incoming entry is applied over the entry there is. -/
def applies (m : ReplPropertyMetaData1) : Option ReplPropertyMetaData1 → Bool
  | none => true
  | some e => conflictCompare m e > 0

theorem applies_withLocalUsn (m : ReplPropertyMetaData1) (usn : UInt64) (e : Option ReplPropertyMetaData1) :
    applies (m.withLocalUsn usn) e = applies m e := by
  cases e with
  | none => rfl
  | some e => rfl

theorem applies_stamp (m : ReplPropertyMetaData1) (e : Option ReplPropertyMetaData1) :
    applies m (e.map (·.stamp)) = applies m e := by
  cases e with
  | none => rfl
  | some e => rfl

@[simp] theorem metaDataOf_nil (a : UInt32) : metaDataOf a [] = none := rfl

theorem metaDataOf_cons (a : UInt32) (e : ReplPropertyMetaData1) (md : List ReplPropertyMetaData1) :
    metaDataOf a (e :: md) = if e.attid = a then some e else metaDataOf a md := by
  by_cases h : e.attid = a
  · rw [metaDataOf, List.find?_cons_of_pos (by simpa using h), if_pos h]
  · rw [metaDataOf, List.find?_cons_of_neg (by simpa using h), if_neg h, metaDataOf]

/-- With one entry for each attribute, the order of the entries does not matter. -/
theorem metaDataOf_perm {a : UInt32} {md md' : List ReplPropertyMetaData1} (hp : md'.Perm md)
    (hn : (md.map (·.attid)).Nodup) : metaDataOf a md' = metaDataOf a md := by
  induction hp with
  | nil => rfl
  | cons e _ ih =>
    rw [map_cons, nodup_cons] at hn
    rw [metaDataOf_cons, metaDataOf_cons, ih hn.2]
  | swap e e' md =>
    have hne : e'.attid ≠ e.attid := fun h => by simp [h] at hn
    simp only [metaDataOf_cons]
    by_cases he : e.attid = a
    · rw [if_pos he, if_neg (by rw [← he]; exact hne), if_pos he]
    · rw [if_neg he, if_neg he]
  | trans h₁ h₂ ih₁ ih₂ =>
    exact (ih₁ ((h₂.map _).nodup_iff.2 hn)).trans (ih₂ hn)

theorem metaDataOf_stored (a : UInt32) (md : List ReplPropertyMetaData1) :
    metaDataOf a (md.map (·.stored)) = (metaDataOf a md).map (·.stored) := by
  induction md with
  | nil => rfl
  | cons e md ih =>
    rw [map_cons, metaDataOf_cons, metaDataOf_cons, ih, ReplPropertyMetaData1.attid_stored]
    split <;> rfl

/-! ## What the merge does to each attribute -/

theorem mergeEntry_snd (m : ReplPropertyMetaData1) : ∀ nmd : List ReplPropertyMetaData1,
    (mergeEntry m nmd).2 = applies m (metaDataOf m.attid nmd)
  | [] => rfl
  | e :: nmd => by
    rw [mergeEntry, metaDataOf_cons]
    by_cases he : m.attid = e.attid
    · rw [if_neg (not_not.2 he), if_pos he.symm]
      by_cases hc : conflictCompare m e > 0 <;> simp [hc, applies]
    · rw [if_pos he, if_neg (Ne.symm he)]
      exact mergeEntry_snd m nmd

theorem metaDataOf_mergeEntry (m : ReplPropertyMetaData1) (a : UInt32) : ∀ nmd : List ReplPropertyMetaData1,
    metaDataOf a (mergeEntry m nmd).1 =
      if m.attid = a ∧ applies m (metaDataOf a nmd) then some m else metaDataOf a nmd
  | [] => by
    rw [mergeEntry, metaDataOf_cons]
    simp [applies]
  | e :: nmd => by
    rw [mergeEntry]
    by_cases he : m.attid = e.attid
    · rw [if_neg (not_not.2 he)]
      by_cases hc : conflictCompare m e > 0
      · rw [if_pos hc, metaDataOf_cons, metaDataOf_cons, ← he]
        by_cases ha : m.attid = a <;> simp [ha, applies, hc]
      · rw [if_neg hc, metaDataOf_cons, ← he]
        by_cases ha : m.attid = a <;> simp [ha, applies, hc]
    · rw [if_pos he]
      show metaDataOf a (e :: (mergeEntry m nmd).1) = _
      rw [metaDataOf_cons, metaDataOf_cons, metaDataOf_mergeEntry m a nmd]
      by_cases hea : e.attid = a
      · rw [if_pos hea, if_pos hea, if_neg fun h => he (h.1.trans hea.symm)]
      · rw [if_neg hea, if_neg hea]

theorem map_attid_mergeEntry (m : ReplPropertyMetaData1) : ∀ nmd : List ReplPropertyMetaData1,
    (mergeEntry m nmd).1.map (·.attid) =
      if m.attid ∈ nmd.map (·.attid) then nmd.map (·.attid) else nmd.map (·.attid) ++ [m.attid]
  | [] => rfl
  | e :: nmd => by
    rw [mergeEntry]
    by_cases he : m.attid = e.attid
    · rw [if_neg (not_not.2 he)]
      by_cases hc : conflictCompare m e > 0 <;> simp [hc, he]
    · rw [if_pos he]
      show (e :: (mergeEntry m nmd).1).map (·.attid) = _
      rw [map_cons, map_attid_mergeEntry m nmd, map_cons]
      by_cases hm : m.attid ∈ nmd.map (·.attid)
      · rw [if_pos hm, if_pos (mem_cons_of_mem _ hm)]
      · rw [if_neg hm, if_neg (fun h => (mem_cons.1 h).elim he hm), cons_append]

theorem nodup_mergeEntry (m : ReplPropertyMetaData1) {nmd : List ReplPropertyMetaData1}
    (h : (nmd.map (·.attid)).Nodup) : ((mergeEntry m nmd).1.map (·.attid)).Nodup := by
  rw [map_attid_mergeEntry]
  split
  · exact h
  · next hm => exact nodup_append.2 ⟨h, nodup_singleton _, fun a ha b hb => by
      rw [mem_singleton.1 hb]; exact fun e => hm (e ▸ ha)⟩

theorem nodup_mergeEntries (seqNum : UInt64) : ∀ (rmd : List (ReplPropertyMetaData1 × V))
    {nmd : List ReplPropertyMetaData1}, (nmd.map (·.attid)).Nodup →
    ((mergeEntries seqNum rmd nmd).1.map (·.attid)).Nodup
  | [], _, h => h
  | (m, _) :: rmd, _, h => nodup_mergeEntries seqNum rmd (nodup_mergeEntry (m.withLocalUsn seqNum) h)

theorem mergeEntries_cons (seqNum : UInt64) (m : ReplPropertyMetaData1) (v : V) (rmd : List (ReplPropertyMetaData1 × V))
    (nmd : List ReplPropertyMetaData1) :
    mergeEntries seqNum ((m, v) :: rmd) nmd =
      ((mergeEntries seqNum rmd (mergeEntry (m.withLocalUsn seqNum) nmd).1).1,
        if (mergeEntry (m.withLocalUsn seqNum) nmd).2 then
          (m.attid, v) :: (mergeEntries seqNum rmd (mergeEntry (m.withLocalUsn seqNum) nmd).1).2
        else (mergeEntries seqNum rmd (mergeEntry (m.withLocalUsn seqNum) nmd).1).2) := rfl

/-- The modify request: the new meta data, sorted, as a blob, and the values of the elements left in `msg`. -/
def StoredObject.modify (obj : StoredObject Dn V) (nmd : List ReplPropertyMetaData1) (hnmd : (nmd.map (·.attid)).Nodup)
    (elements : List (UInt32 × V)) : StoredObject Dn V where
  dn := obj.dn
  metaData := nmd.map (·.stored)
  values := replaceValues elements obj.values
  nodup := by
    simp only [map_map, Function.comp_def, ReplPropertyMetaData1.attid_stored]
    exact hnmd
  stored m hm := by
    obtain ⟨m', -, rfl⟩ := mem_map.1 hm
    exact m'.stored_stored

/-- The sort keeps one entry for each attribute. -/
theorem nodup_sort {rdnAttid : (Nat → ReplPropertyMetaData1) → UInt32} {array sorted : List ReplPropertyMetaData1}
    (h : replPropertyMetaDataCtr1Sort rdnAttid array = some sorted) (hn : (array.map (·.attid)).Nodup) :
    (sorted.map (·.attid)).Nodup :=
  ((ldbQsortEntries_perm h).map _).nodup_iff.2 hn

/-- `replmd_replicated_apply_merge`, for an object that is already there. `seqNum` is the next sequence number of the
database. A merge that leaves no element in `msg` stores nothing. `none` is for a pointer or a sort that leaves the array. -/
def applyMerge [DecidableEq Dn] (seqNum : UInt64) (u : ReplObject Dn V) (obj : StoredObject Dn V) :
    Except Werror (Option (StoredObject Dn V)) :=
  if u.dn ≠ obj.dn then .error .notSupported
  else
    let merged := mergeEntries seqNum u.attributes obj.metaData
    if obj.metaData.length = 0 then .ok none
    else
      let rdnIdx := obj.metaData.length - 1
      match hsort : replPropertyMetaDataCtr1Sort (fun array => (array rdnIdx).attid) merged.1 with
      | none => .ok none
      | some nmd =>
        if merged.2.isEmpty then .ok (some obj)
        else .ok (some (obj.modify nmd (nodup_sort hsort (nodup_mergeEntries seqNum u.attributes obj.nodup)) merged.2))

end Samba.Dsdb
