/-
The order of stored meta data (dsdb/samdb/ldb_modules/repl_meta_data.c): ids ascend, and the entry of the RDN attribute belongs at the
end. When the sort of a merge finds it, though the comparison takes the difference of two ids as an `int` and looks up the id of the RDN
attribute in the array that is sorted.
-/
import Samba.Dsdb.MetaData

namespace Samba.Dsdb

open List Samba.Ldb

/-! ## The order -/

/-- The order of stored meta data: ids ascend, and the entry of the RDN attribute is behind them all. -/
structure MetaDataOrdered (rdnAttid : UInt32) (md : List ReplPropertyMetaData1) : Prop where
  ascending : md.Pairwise fun m1 m2 => m2.attid = rdnAttid ∨ m1.attid ≠ rdnAttid ∧ m1.attid ≤ m2.attid
  last : md.getLast?.map (·.attid) = some rdnAttid

/-- No two ids, the one of the RDN attribute aside, are so far from each other that their difference changes its sign as an `int`. -/
def Comparable (rdnAttid : UInt32) (ids : List UInt32) : Prop :=
  ∀ a ∈ ids, ∀ b ∈ ids, a ≠ rdnAttid → b ≠ rdnAttid → a.toNat < b.toNat + 2 ^ 31

theorem Comparable.subset {rdnAttid : UInt32} {ids ids' : List UInt32} (h : Comparable rdnAttid ids) (hsub : ids' ⊆ ids) :
    Comparable rdnAttid ids' :=
  fun a ha b hb => h a (hsub ha) b (hsub hb)

/-! ## The comparison -/

/-- The place of an entry: the id, or behind all ids. -/
def orderKey (rdnAttid : UInt32) (m : ReplPropertyMetaData1) : Nat := if m.attid = rdnAttid then 2 ^ 32 else m.attid.toNat

section Order

variable {rdnAttid : UInt32} {m m1 m2 : ReplPropertyMetaData1} {md nmd : List ReplPropertyMetaData1}

theorem orderKey_le (m : ReplPropertyMetaData1) : orderKey rdnAttid m ≤ 2 ^ 32 := by
  have := m.attid.toNat_lt
  rw [orderKey]
  split <;> omega

theorem orderKey_eq_iff : orderKey rdnAttid m = 2 ^ 32 ↔ m.attid = rdnAttid := by
  have := m.attid.toNat_lt
  rw [orderKey]
  split
  · rename_i h
    exact iff_of_true rfl h
  · rename_i h
    exact iff_of_false (by omega) h

/-- The difference has the sign of the order between ids less than `2 ^ 31` apart. -/
theorem difference_neg_iff {a b : UInt32} (hab : a.toNat < b.toNat + 2 ^ 31) (hba : b.toNat < a.toNat + 2 ^ 31) :
    (a - b).toBitVec.toInt < 0 ↔ a.toNat < b.toNat := by
  have ha := a.toNat_lt
  have hb := b.toNat_lt
  have hsub : (a - b).toBitVec.toNat = (2 ^ 32 - b.toNat + a.toNat) % 2 ^ 32 := UInt32.toNat_sub a b
  rw [BitVec.toInt_eq_toNat_cond, hsub]
  split <;> omega

theorem attidSort_neg_iff (h1 : m1.attid ≠ rdnAttid → m2.attid ≠ rdnAttid →
    m1.attid.toNat < m2.attid.toNat + 2 ^ 31 ∧ m2.attid.toNat < m1.attid.toNat + 2 ^ 31) :
    attidSort rdnAttid m1 m2 < 0 ↔ orderKey rdnAttid m1 < orderKey rdnAttid m2 := by
  have hlt1 := m1.attid.toNat_lt
  have hlt2 := m2.attid.toNat_lt
  rw [attidSort]
  by_cases heq : m1.attid = m2.attid
  · rw [if_pos heq, orderKey, orderKey, heq]
    exact iff_of_false (Int.lt_irrefl 0) (Nat.lt_irrefl _)
  rw [if_neg heq]
  by_cases hm1 : m1.attid = rdnAttid
  · rw [if_pos hm1, orderKey_eq_iff.2 hm1]
    exact iff_of_false (by decide) (Nat.not_lt.2 (orderKey_le m2))
  rw [if_neg hm1, orderKey, if_neg hm1]
  by_cases hm2 : m2.attid = rdnAttid
  · rw [if_pos hm2, orderKey_eq_iff.2 hm2]
    exact iff_of_true (by decide) hlt1
  · rw [if_neg hm2, orderKey, if_neg hm2]
    exact difference_neg_iff (h1 hm1 hm2).1 (h1 hm1 hm2).2

/-- Entries in the order of their places, one of them the RDN's. -/
theorem metaDataOrdered_of_pairwise (hrdn : rdnAttid ∈ md.map (·.attid))
    (hmd : md.Pairwise fun m1 m2 => orderKey rdnAttid m1 ≤ orderKey rdnAttid m2) : MetaDataOrdered rdnAttid md := by
  refine ⟨hmd.imp fun {m1 m2} hle => ?_, ?_⟩
  · by_cases h2 : m2.attid = rdnAttid
    · exact Or.inl h2
    · have hlt := m2.attid.toNat_lt
      rw [orderKey, orderKey, if_neg h2] at hle
      split at hle
      · omega
      · rename_i h1
        exact Or.inr ⟨h1, UInt32.le_iff_toNat_le.2 hle⟩
  · obtain ⟨m, hm, hid⟩ := mem_map.1 hrdn
    obtain ⟨front, last, rfl⟩ := eq_nil_or_concat md |>.resolve_left (ne_nil_of_mem hm)
    rw [concat_eq_append] at hm hmd ⊢
    rw [List.getLast?_append, List.getLast?_singleton, Option.some_or, Option.map_some]
    congr 1
    rcases mem_append.1 hm with hm | hm
    · have hle := (pairwise_append.1 hmd).2.2 m hm last mem_cons_self
      rw [orderKey_eq_iff.2 hid] at hle
      exact orderKey_eq_iff.1 (Nat.le_antisymm (orderKey_le last) hle)
    · rw [← mem_singleton.1 hm]
      exact hid

/-- What is stored of ordered entries is ordered. -/
theorem MetaDataOrdered.stored (h : MetaDataOrdered rdnAttid md) : MetaDataOrdered rdnAttid (md.map (·.stored)) := by
  refine ⟨pairwise_map.2 ?_, ?_⟩
  · simpa only [ReplPropertyMetaData1.attid_stored] using h.ascending
  · rw [List.getLast?_map, Option.map_map]
    simpa only [Function.comp_def, ReplPropertyMetaData1.attid_stored] using h.last

/-! ## The sort finds the order -/

/-- The sort puts entries in order when the pointer to the id of the RDN attribute is to a fixed place, or into the array at one of its
last two entries, and that is the RDN's. -/
theorem sort_ordered {rdnOf : (Nat → ReplPropertyMetaData1) → UInt32} {slot : Nat} (hrdn : rdnAttid ∈ nmd.map (·.attid))
    (hcomp : Comparable rdnAttid (nmd.map (·.attid))) (hnear : nmd.length ≤ slot + 2)
    (hslot : ∀ m, slot < nmd.length → (nmd.getD slot m).attid = rdnAttid)
    (hread : ∀ a, (slot < nmd.length → (a slot).attid = rdnAttid) → rdnOf a = rdnAttid) :
    ∃ md, replPropertyMetaDataCtr1Sort rdnOf nmd = some md ∧ MetaDataOrdered rdnAttid md ∧ md.Perm nmd := by
  cases nmd with
  | nil => cases hrdn
  | cons m nmd =>
    have hkey : ∀ i, i < nmd.length + 1 → (m :: nmd).getD i m ∈ m :: nmd := fun i hi => by
      rw [getD_eq_getElem (m :: nmd) m hi]
      exact getElem_mem hi
    have hfollows : Follows (fun a => attidSort (rdnOf a)) (orderKey rdnAttid) (nmd.length + 1) slot fun i => (m :: nmd).getD i m := by
      refine ⟨fun b hb hbslot i j hi hj => ?_, fun i hs hi => ?_, hnear⟩
      · have hrdnb : rdnOf b = rdnAttid := hread b fun hs => by
          rw [orderKey_eq_iff.2 (hslot m hs)] at hbslot
          exact orderKey_eq_iff.1 hbslot
        have hfrom : ∀ k, k < nmd.length + 1 → (b k).attid ∈ (m :: nmd).map (·.attid) := fun k hk => by
          obtain ⟨k', _, hk', heq⟩ := hb.from (Nat.zero_le k) (show k ≤ nmd.length + 1 - 1 by omega)
          rw [heq]
          exact mem_map.2 ⟨_, hkey k' (by omega), rfl⟩
        rw [below, hrdnb]
        exact attidSort_neg_iff fun h1 h2 =>
          ⟨hcomp _ (hfrom i hi) _ (hfrom j hj) h1 h2, hcomp _ (hfrom j hj) _ (hfrom i hi) h2 h1⟩
      · rw [orderKey_eq_iff.2 (hslot m hs)]
        exact orderKey_le _
    obtain ⟨md, hmd, hperm, hpair⟩ := ldbQsortEntries_spec hfollows
    exact ⟨md, hmd, metaDataOrdered_of_pairwise ((hperm.map _).mem_iff.2 hrdn) hpair, hperm⟩

end Order

/-! ## The entries of a merge -/

section Merge

variable {V : Type} {rdnAttid : UInt32} {omd : List ReplPropertyMetaData1}

theorem attids_mergeEntries_of_known (seqNum : UInt64) : ∀ (incoming : List (ReplPropertyMetaData1 × V))
    (nmd : List ReplPropertyMetaData1), (∀ i ∈ incoming, i.1.attid ∈ nmd.map (·.attid)) →
    (mergeEntries seqNum incoming nmd).1.map (·.attid) = nmd.map (·.attid)
  | [], _, _ => rfl
  | (m, el) :: incoming, nmd, h => by
    obtain ⟨hm, hrest⟩ := forall_mem_cons.1 h
    have hfirst := map_attid_mergeEntry (m.withLocalUsn seqNum) nmd
    rw [ReplPropertyMetaData1.attid_withLocalUsn, if_pos hm] at hfirst
    rw [mergeEntries_cons]
    exact (attids_mergeEntries_of_known seqNum incoming _ (by rwa [hfirst])).trans hfirst

/-- With one new attribute at most, the entries keep their places, and one comes behind them at most. -/
theorem attids_mergeEntries (seqNum : UInt64) {a : UInt32} : ∀ (incoming : List (ReplPropertyMetaData1 × V))
    (nmd : List ReplPropertyMetaData1), (∀ i ∈ incoming, i.1.attid ∈ nmd.map (·.attid) ∨ i.1.attid = a) →
    ∃ new : List UInt32, (mergeEntries seqNum incoming nmd).1.map (·.attid) = nmd.map (·.attid) ++ new ∧ new.length ≤ 1 ∧
      new ⊆ incoming.map (·.1.attid)
  | [], nmd, _ => ⟨[], (append_nil _).symm, Nat.zero_le _, nil_subset _⟩
  | (m, el) :: incoming, nmd, h => by
    obtain ⟨hm, hrest⟩ := forall_mem_cons.1 h
    have hfirst := map_attid_mergeEntry (m.withLocalUsn seqNum) nmd
    rw [ReplPropertyMetaData1.attid_withLocalUsn] at hfirst
    rw [mergeEntries_cons]
    dsimp only
    generalize (mergeEntry (m.withLocalUsn seqNum) nmd).1 = nmd' at hfirst ⊢
    by_cases hin : m.attid ∈ nmd.map (·.attid)
    · rw [if_pos hin] at hfirst
      obtain ⟨new, hnew, hlen, hsub⟩ := attids_mergeEntries seqNum incoming nmd' (by rwa [hfirst])
      exact ⟨new, by rw [hnew, hfirst], hlen, subset_cons_of_subset _ hsub⟩
    · -- every other attribute has an entry now
      have hma : m.attid = a := hm.resolve_left hin
      rw [if_neg hin] at hfirst
      have hall : ∀ i ∈ incoming, i.1.attid ∈ nmd'.map (·.attid) := fun i hi => by
        rw [hfirst, mem_append, mem_singleton, hma]
        exact hrest i hi
      exact ⟨[m.attid], by rw [attids_mergeEntries_of_known seqNum incoming nmd' hall, hfirst], Nat.le_refl _,
        cons_subset_cons _ (nil_subset _)⟩

/-- The sort of a merge that brings in one new attribute at most puts the entries in order. -/
theorem sort_merged (homd : MetaDataOrdered rdnAttid omd) {incoming : List (ReplPropertyMetaData1 × V)}
    (hone : ∃ a, ∀ i ∈ incoming, i.1.attid ∈ omd.map (·.attid) ∨ i.1.attid = a)
    (hcomp : Comparable rdnAttid (omd.map (·.attid) ++ incoming.map (·.1.attid))) (seqNum : UInt64) :
    omd.length ≠ 0 ∧ ∃ md, replPropertyMetaDataCtr1Sort (fun array => (array (omd.length - 1)).attid)
      (mergeEntries seqNum incoming omd).1 = some md ∧ MetaDataOrdered rdnAttid md := by
  obtain ⟨a, ha⟩ := hone
  obtain ⟨front, last, rfl⟩ : ∃ front last, omd = front ++ [last] := by
    rcases eq_nil_or_concat omd with rfl | ⟨front, last, h⟩
    · cases homd.last
    · exact ⟨front, last, h.trans (concat_eq_append ..)⟩
  have hlast : last.attid = rdnAttid := by
    have := homd.last
    rwa [List.getLast?_append, List.getLast?_singleton, Option.some_or, Option.map_some, Option.some.injEq] at this
  have hlen : (front ++ [last]).length = front.length + 1 := by rw [length_append, length_singleton]
  obtain ⟨new, hids, hnew, hsub⟩ := attids_mergeEntries seqNum incoming (front ++ [last]) ha
  generalize (mergeEntries seqNum incoming (front ++ [last])).1 = nmd at hids ⊢
  have hnmdlen : nmd.length = front.length + 1 + new.length := by
    have := congrArg List.length hids
    rwa [length_map, length_append, length_map, hlen] at this
  -- the last stored entry keeps its place until the sort
  have hslot : ∀ m, (nmd.getD front.length m).attid = rdnAttid := fun m => by
    have hget : (nmd.map (·.attid))[front.length]? = some rdnAttid := by
      rw [hids, List.getElem?_append_left (by simp), map_append, List.getElem?_append_right (by simp)]
      simp [hlast]
    rw [List.getElem?_map, Option.map_eq_some_iff] at hget
    obtain ⟨e, he, hid⟩ := hget
    rw [getD_eq_getElem?_getD, he]
    exact hid
  obtain ⟨md, hmd, hord, -⟩ := @sort_ordered rdnAttid nmd (fun array => (array front.length).attid) front.length
    (by rw [hids]; exact mem_append_left _ (by rw [map_append]; exact mem_append_right _ (mem_singleton.2 hlast.symm)))
    (by
      rw [hids]
      intro x hx y hy
      have hmem : ∀ z ∈ (front ++ [last]).map (·.attid) ++ new, z ∈ (front ++ [last]).map (·.attid) ++ incoming.map (·.1.attid) :=
        fun z hz => (mem_append.1 hz).elim (mem_append_left _) fun h => mem_append_right _ (hsub h)
      exact hcomp x (hmem x hx) y (hmem y hy))
    (by omega) (fun m _ => hslot m) (fun b hb => hb (by omega))
  refine ⟨by omega, md, ?_, hord⟩
  rw [hlen, Nat.add_sub_cancel]
  exact hmd

end Merge

end Samba.Dsdb
