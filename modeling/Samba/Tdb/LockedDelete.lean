/-
Deleting while records are locked by a traversal. A delete takes records off their chains, but for those that are locked: these
are marked as dead and stay where they are. Entries go, and no entry comes.
-/
import Samba.Tdb.Locks
import Samba.Tdb.Lookup

namespace Samba.Tdb

open Bytes Function Links

/-- Records are taken off the chains, but none that is locked. -/
structure Trims (locks : List Nat) (chain chain' : Nat → List Nat) : Prop where
  sub : ∀ j, (chain' j).Sublist (chain j)
  keep : ∀ o ∈ locks, ∀ j, o ∈ chain j → o ∈ chain' j

theorem Trims.refl (locks : List Nat) (chain : Nat → List Nat) : Trims locks chain chain :=
  ⟨fun _ => List.Sublist.refl _, fun _ _ _ h => h⟩

theorem Trims.trans {locks : List Nat} {chain chain' chain'' : Nat → List Nat} (h : Trims locks chain chain')
    (h' : Trims locks chain' chain'') : Trims locks chain chain'' :=
  ⟨fun j => (h'.sub j).trans (h.sub j), fun o ho j hm => h'.keep o ho j (h.keep o ho j hm)⟩

/-- A record that is not locked is taken off its chain. -/
theorem trims_update {locks : List Nat} {chain : Nat → List Nat} {i o : Nat} {l₁ l₂ : List Nat} (hc : chain i = l₁ ++ o :: l₂)
    (ho : o ∉ locks) : Trims locks chain (update chain i (l₁ ++ l₂)) := by
  refine ⟨fun j => ?_, fun q hq j hm => ?_⟩
  · by_cases hj : j = i
    · subst hj
      rw [update_self, hc]
      exact (List.sublist_cons_self o l₂).append_left l₁
    · rw [update_of_ne hj]
  · by_cases hj : j = i
    · subst hj
      have hne : q ≠ o := fun heq => ho (heq ▸ hq)
      rw [hc, List.mem_append, List.mem_cons] at hm
      rw [update_self, List.mem_append]
      exact hm.imp_right fun hm => hm.resolve_left hne
    · rwa [update_of_ne hj]

section Locked

variable {tdb : TdbContext} {bs : List Block} {fl : List Nat} {chain : Nat → List Nat} {map : Map} {locks : List Nat}

/-- `tdb_do_delete` of a record on a chain, whether it is locked or not. What comes behind it on its chain stays. -/
theorem tdbDoDelete_withLocks (h : Chained tdb bs fl chain) {i o : Nat} (hi : i < tdb.hashSize) {l₁ l₂ : List Nat}
    (hc : chain i = l₁ ++ o :: l₂) (locks : List Nat) :
    ∃ tdb' bs' fl' chain', tdbDoDelete o (recAt tdb.convert (view tdb) o) (tdb.withLocks locks) = .ok () (tdb'.withLocks locks) ∧
      Edited tdb tdb' bs' fl' chain' ∧ Sets tdb tdb' chain chain' o none ∧ Trims locks chain chain' ∧
      ∃ l, chain' i = l ++ l₂ := by
  by_cases hlock : o ∈ locks
  · obtain ⟨-, hro, htr⟩ := h.ready.transaction
    obtain ⟨tdb', e, hed, hs⟩ := markDead_ok h hi (show o ∈ chain i by rw [hc]; simp)
    refine ⟨tdb', bs, fl, chain, ?_, hed, hs, Trims.refl _ _, l₁ ++ [o], by rw [hc, List.append_assoc]; rfl⟩
    rw [tdbDoDelete_locked hlock (by rw [hro, htr]; rfl), e]
    rfl
  · obtain ⟨tdb', bs', fl', e, hed, hs⟩ := tdbDoDelete_ok h hi hc
    refine ⟨tdb', bs', fl', _, ?_, hed, hs, trims_update hc hlock, l₁, update_self ..⟩
    rw [tdbDoDelete_unlocked (by rw [h.travlocks]; exact List.not_mem_nil) hlock, e]
    rfl

/-- The walk of `tdb_purge_dead`, with records locked. -/
theorem purgeDeadLoop_withLocks (h : Chained tdb bs fl chain) {i : Nat} (hi : i < tdb.hashSize) {l₁ l₂ : List Nat}
    (hc : chain i = l₁ ++ l₂) {fuel : Nat} (hfuel : l₂.length < fuel) (locks : List Nat) :
    ∃ tdb' bs' fl' chain', purgeDeadLoop fuel (l₂.headD 0) (tdb.withLocks locks) = .ok () (tdb'.withLocks locks) ∧
      Edited tdb tdb' bs' fl' chain' ∧ (∀ o e, Holds tdb' chain' o e ↔ Holds tdb chain o e) ∧ Trims locks chain chain' := by
  induction l₂ generalizing tdb bs fl chain l₁ fuel with
  | nil =>
    obtain ⟨fuel, rfl⟩ : ∃ k, fuel = k + 1 := ⟨fuel - 1, by omega⟩
    exact ⟨tdb, bs, fl, chain, rfl, ⟨h, Kept.refl tdb, rfl⟩, fun _ _ => Iff.rfl, Trims.refl _ _⟩
  | cons o l₂ ih =>
    obtain ⟨fuel, rfl⟩ : ∃ k, fuel = k + 1 := ⟨fuel - 1, by omega⟩
    have hfrom : ChainFrom tdb bs i (lastCell (tdbHashTop tdb.hashSize i) l₁) (o :: l₂) := by
      have hl := h.links i hi
      rw [hc] at hl
      exact ⟨hl.suffix, fun q hq => h.recs i hi q (by rw [hc]; exact List.mem_append_right _ hq)⟩
    obtain ⟨-, h0, hread, hnext, hrest⟩ := hfrom.step h
    rw [hrest.links.head] at hnext
    rw [List.headD_cons, purgeDeadLoop, if_neg h0, bind_ok ((blind_tdbRecRead o).run hread locks), hnext]
    have hfuel' : l₂.length < fuel := by simpa using hfuel
    by_cases hdead : (recAt tdb.convert (view tdb) o).magic = tdbDeadMagic
    · rw [if_pos hdead]
      obtain ⟨tdb₁, bs₁, fl₁, chain₁, e₁, hed₁, hset₁, htrim₁, l, hl⟩ := tdbDoDelete_withLocks h hi hc locks
      obtain ⟨tdb₂, bs₂, fl₂, chain₂, e₂, hed₂, hset₂, htrim₂⟩ := @ih tdb₁ bs₁ fl₁ chain₁ hed₁.chained
        (by rw [hed₁.kept.hashSize]; exact hi) l hl fuel hfuel'
      refine ⟨tdb₂, bs₂, fl₂, chain₂, (bind_ok e₁).trans e₂, hed₁.trans hed₂, fun q e => (hset₂ q e).trans ?_,
        htrim₁.trans htrim₂⟩
      by_cases hq : q = o
      · subst hq
        rw [hset₁.at_ e, Holds, entryAt, if_pos hdead]
        simp
      · exact hset₁.other q hq e
    · rw [if_neg hdead]
      exact @ih tdb bs fl chain h hi (l₁ ++ [o]) (by rw [hc, List.append_assoc]; rfl) fuel hfuel'

theorem tdbPurgeDead_withLocks (h : Chained tdb bs fl chain) (hash : Nat) (locks : List Nat) :
    ∃ tdb' bs' fl' chain', tdbPurgeDead hash (tdb.withLocks locks) = .ok () (tdb'.withLocks locks) ∧
      Edited tdb tdb' bs' fl' chain' ∧ (∀ o e, Holds tdb' chain' o e ↔ Holds tdb chain o e) ∧ Trims locks chain chain' := by
  have hi := Nat.mod_lt hash h.hashSize_pos
  have hread := (blind_tdbOfsRead _).run (h.hashTop_ok hash) locks
  rw [tdbPurgeDead, get_bind, show (tdb.withLocks locks).hashSize = tdb.hashSize from rfl, bind_ok hread,
    (h.chainFrom hash).links.head]
  exact @purgeDeadLoop_withLocks _ _ _ _ h _ hi [] _ rfl _ ((h.length_chain hi).trans (Nat.lt_succ_self _)) locks

/-- What a delete leaves of a database with records locked: fewer records on the chains, and fewer keys. -/
structure Deleted (locks : List Nat) (tdb tdb' : TdbContext) (chain : Nat → List Nat) (map : Map) (bs' : List Block)
    (fl' : List Nat) (chain' : Nat → List Nat) (map' : Map) : Prop where
  edited : Edited tdb tdb' bs' fl' chain'
  represents : Represents tdb' chain' map'
  holds : ∀ o e, Holds tdb' chain' o e → Holds tdb chain o e
  trims : Trims locks chain chain'

theorem Deleted.trans {tdb' tdb'' : TdbContext} {bs' bs'' : List Block} {fl' fl'' : List Nat} {chain' chain'' : Nat → List Nat}
    {map' map'' : Map} (h : Deleted locks tdb tdb' chain map bs' fl' chain' map')
    (h' : Deleted locks tdb' tdb'' chain' map' bs'' fl'' chain'' map'') :
    Deleted locks tdb tdb'' chain map bs'' fl'' chain'' map'' :=
  ⟨h.edited.trans h'.edited, h'.represents, fun o e he => h.holds o e (h'.holds o e he), h.trims.trans h'.trims⟩

theorem Deleted.refl (h : Chained tdb bs fl chain) (hm : Represents tdb chain map) (locks : List Nat) :
    Deleted locks tdb tdb chain map bs fl chain map :=
  ⟨⟨h, Kept.refl tdb, rfl⟩, hm, fun _ _ he => he, Trims.refl _ _⟩

/-- Looking up a key and emptying its record, with records locked. -/
theorem findEmpty_withLocks (h : Chained tdb bs fl chain) (hm : Represents tdb chain map) (key : List UInt8)
    {empty : Nat × ListStruct → TdbM Unit} (locks : List Nat)
    (hempty : ∀ i < tdb.hashSize, ∀ o ∈ chain i, ∃ tdb' bs' fl' chain',
      empty (o, recAt tdb.convert (view tdb) o) (tdb.withLocks locks) = .ok () (tdb'.withLocks locks) ∧
      Edited tdb tdb' bs' fl' chain' ∧ Sets tdb tdb' chain chain' o none ∧ Trims locks chain chain') :
    ∃ tdb' bs' fl' chain', (tdbFind key (tdb.hashFn key).toNat >>= empty) (tdb.withLocks locks) =
        (if (map key).isSome then .ok () (tdb'.withLocks locks) else .error .failed (tdb'.withLocks locks)) ∧
      Deleted locks tdb tdb' chain map bs' fl' chain' (update map key none) := by
  cases hd : map key with
  | none =>
    obtain ⟨hed, hholds⟩ := h.setEcode .errNoexist
    refine ⟨_, bs, fl, chain, bind_error ((blind_tdbFind _ _).fails (tdbFind_none h hm hd) locks), hed, ?_,
      fun o e => (hholds o e).mp, Trims.refl _ _⟩
    rw [← hd, update_eq_self]
    exact hm.congr hholds
  | some d =>
    obtain ⟨o, ho, e⟩ := tdbFind_some h hm hd
    obtain ⟨i, hi, hmem⟩ := ho.1
    obtain ⟨tdb', bs', fl', chain', e', hed, hs, htrim⟩ := hempty i hi o hmem
    refine ⟨tdb', bs', fl', chain', (bind_ok ((blind_tdbFind _ _).run e locks)).trans e', hed, hm.erase ho hs,
      fun q a ha => ?_, htrim⟩
    by_cases hq : q = o
    · subst hq
      rw [hs.at_] at ha
      cases ha
    · exact (hs.other q hq a).mp ha

/-- `tdb_delete_hash` with records locked: the key goes, no other entry is touched, and no locked record leaves its chain. -/
theorem tdbDeleteHash_withLocks (h : Chained tdb bs fl chain) (hm : Represents tdb chain map) (key : List UInt8)
    (locks : List Nat) :
    ∃ tdb' bs' fl' chain', tdbDeleteHash key (tdb.hashFn key).toNat (tdb.withLocks locks) =
        (if (map key).isSome then .ok () (tdb'.withLocks locks) else .error .failed (tdb'.withLocks locks)) ∧
      Deleted locks tdb tdb' chain map bs' fl' chain' (update map key none) := by
  obtain ⟨tdb₁, bs₁, fl₁, chain₁, e₁, hdel₁⟩ : ∃ tdb₁ bs₁ fl₁ chain₁,
      (if tdb.maxDeadRecords ≠ 0 then do
        let dead ← tdbCountDead (tdb.hashFn key).toNat
        let _ ← (if (dead : Int) ≥ tdb.maxDeadRecords then attempt (tdbPurgeDead (tdb.hashFn key).toNat) else pure none)
        let p ← tdbFind key (tdb.hashFn key).toNat
        tdbRecWrite p.1 { p.2 with magic := tdbDeadMagic }
      else do
        let p ← tdbFind key (tdb.hashFn key).toNat
        tdbDoDelete p.1 p.2 : TdbM Unit) (tdb.withLocks locks) =
          (if (map key).isSome then .ok () (tdb₁.withLocks locks) else .error .failed (tdb₁.withLocks locks)) ∧
      Deleted locks tdb tdb₁ chain map bs₁ fl₁ chain₁ (update map key none) := by
    split
    · obtain ⟨dead, hdead⟩ := tdbCountDead_ok h (tdb.hashFn key).toNat
      rw [bind_ok ((blind_tdbCountDead _).run hdead locks)]
      obtain ⟨a, tdb₁, bs₁, fl₁, chain₁, e₁, hed₁, hholds, htrim⟩ : ∃ a tdb₁ bs₁ fl₁ chain₁,
          (if (dead : Int) ≥ tdb.maxDeadRecords then attempt (tdbPurgeDead (tdb.hashFn key).toNat) else pure none)
            (tdb.withLocks locks) = .ok a (tdb₁.withLocks locks) ∧ Edited tdb tdb₁ bs₁ fl₁ chain₁ ∧
          (∀ o e, Holds tdb₁ chain₁ o e ↔ Holds tdb chain o e) ∧ Trims locks chain chain₁ := by
        split
        · obtain ⟨tdb', bs', fl', chain', e, hed, hholds, htrim⟩ := tdbPurgeDead_withLocks h (tdb.hashFn key).toNat locks
          exact ⟨some (), tdb', bs', fl', chain', attempt_ok e, hed, hholds, htrim⟩
        · exact ⟨none, tdb, bs, fl, chain, rfl, ⟨h, Kept.refl tdb, rfl⟩, fun _ _ => Iff.rfl, Trims.refl _ _⟩
      obtain ⟨tdb₂, bs₂, fl₂, chain₂, e₂, hdel₂⟩ := @findEmpty_withLocks _ _ _ _ _ hed₁.chained
        (hm.congr hholds) key (fun p => tdbRecWrite p.1 { p.2 with magic := tdbDeadMagic }) locks fun i hi o ho => by
          obtain ⟨tdb', e, hed, hs⟩ := markDead_ok hed₁.chained hi ho
          exact ⟨tdb', bs₁, fl₁, chain₁, (blind_tdbRecWrite _ _).run e locks, hed, hs, Trims.refl _ _⟩
      rw [hed₁.kept.hashFn] at e₂
      have hdel₁ : Deleted locks tdb tdb₁ chain map bs₁ fl₁ chain₁ map :=
        ⟨hed₁, hm.congr hholds, fun o e => (hholds o e).mp, htrim⟩
      exact ⟨tdb₂, bs₂, fl₂, chain₂, (bind_ok e₁).trans e₂, hdel₁.trans hdel₂⟩
    · refine @findEmpty_withLocks _ _ _ _ _ h hm key (fun p => tdbDoDelete p.1 p.2) locks fun i hi o ho => ?_
      obtain ⟨l₁, l₂, hc⟩ := List.append_of_mem ho
      obtain ⟨tdb', bs', fl', chain', e, hed, hs, htrim, -⟩ := tdbDoDelete_withLocks h hi hc locks
      exact ⟨tdb', bs', fl', chain', e, hed, hs, htrim⟩
  rw [tdbDeleteHash, get_bind]
  cases hd : map key with
  | none =>
    rw [hd] at e₁
    exact ⟨tdb₁, bs₁, fl₁, chain₁, bind_error e₁, hdel₁⟩
  | some d =>
    rw [hd] at e₁
    obtain ⟨tdb₂, e₂, hed₂, hholds⟩ := tdbIncrementSeqnum_ok hdel₁.edited.chained
    have hdel₂ : Deleted locks tdb₁ tdb₂ chain₁ (update map key none) bs₁ fl₁ chain₁ (update map key none) :=
      ⟨hed₂, hdel₁.represents.congr hholds, fun o e => (hholds o e).mp, Trims.refl _ _⟩
    exact ⟨tdb₂, bs₁, fl₁, chain₁, (bind_ok e₁).trans (blind_tdbIncrementSeqnum.run e₂ locks), hdel₁.trans hdel₂⟩

end Locked

end Samba.Tdb
