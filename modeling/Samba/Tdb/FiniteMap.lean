/-
What a database is for: a finite map from keys to data. Every run of calls from a new database gives
the replies of the map, whatever the hash function, the size of the hash table and the number of
dead records that are kept.
-/
import Samba.Tdb.Accounting
import Samba.Tdb.LockedDelete

namespace Samba.Tdb

open Bytes Function Links

section Calls

variable {tdb : TdbContext} {bs : List Block} {fl : List Nat} {chain : Nat → List Nat} {map : Map} {key : List UInt8}

/-! ## Deleting -/

theorem Chained.withLocks_nil (h : Chained tdb bs fl chain) : tdb.withLocks [] = tdb := by
  rw [TdbContext.withLocks, ← h.travlocks]

/-- `tdb_purge_dead` takes out dead records only. -/
theorem tdbPurgeDead_ok (h : Chained tdb bs fl chain) (hash : Nat) :
    ∃ tdb' bs' fl' chain', tdbPurgeDead hash tdb = .ok () tdb' ∧ Edited tdb tdb' bs' fl' chain' ∧
      ∀ o e, Holds tdb' chain' o e ↔ Holds tdb chain o e := by
  obtain ⟨tdb', bs', fl', chain', e, hed, hholds, -⟩ := tdbPurgeDead_withLocks h hash []
  rw [h.withLocks_nil, hed.chained.withLocks_nil] at e
  exact ⟨tdb', bs', fl', chain', e, hed, hholds⟩

/-- `tdb_delete_hash` removes the key, and fails if there is none. -/
theorem tdbDeleteHash_ok (h : Chained tdb bs fl chain) (hm : Represents tdb chain map) (key : List UInt8) :
    ∃ tdb' bs' fl' chain', tdbDeleteHash key (tdb.hashFn key).toNat tdb =
        (if (map key).isSome then .ok () tdb' else .error .failed tdb') ∧
      Edited tdb tdb' bs' fl' chain' ∧ Represents tdb' chain' (update map key none) := by
  obtain ⟨tdb', bs', fl', chain', e, hdel⟩ := tdbDeleteHash_withLocks h hm key []
  rw [h.withLocks_nil, hdel.edited.chained.withLocks_nil] at e
  exact ⟨tdb', bs', fl', chain', e, hdel.edited, hdel.represents⟩

/-! ## Storing -/

/-- `tdb_update_hash` overwrites the data of a key in place, and fails if there is no such key or if
its record is too short. -/
theorem tdbUpdateHash_ok (h : Chained tdb bs fl chain) (hm : Represents tdb chain map) (key dbuf : List UInt8) :
    map key = none ∧ tdbUpdateHash key (tdb.hashFn key).toNat dbuf tdb =
        .error .failed { tdb with ecode := .errNoexist } ∨
    (map key).isSome ∧ tdbUpdateHash key (tdb.hashFn key).toNat dbuf tdb =
        .error .failed { tdb with ecode := .success } ∨
    (map key).isSome ∧ ∃ tdb', tdbUpdateHash key (tdb.hashFn key).toNat dbuf tdb = .ok () tdb' ∧
      Edited tdb tdb' bs fl chain ∧ Represents tdb' chain (update map key (some dbuf)) := by
  cases hd : map key with
  | none => exact .inl ⟨rfl, by rw [tdbUpdateHash, bind_error (tdbFind_none h hm hd)]⟩
  | some d =>
    right
    obtain ⟨o, ho, e⟩ := tdbFind_some h hm hd
    obtain ⟨b, hb, rfl, hmagic, hkl, hdl, hhash, hlen, hroom, hkey, hdata⟩ := h.holds_rec ho
    rw [tdbUpdateHash, bind_ok e]
    simp only
    by_cases hfit : (recAt tdb.convert (view tdb) b.off).recLen < key.length + dbuf.length + sizeofOff
    · exact .inl ⟨rfl, by rw [if_pos hfit]; rfl⟩
    right
    obtain ⟨tdb', e', w, hblock, hnext, hok, hentry⟩ := updateRec_ok h hb rfl hmagic hkl hhash hkey
      (show key.length + dbuf.length + sizeofOff ≤ b.len by omega)
    have hbucket : ∀ j < tdb.hashSize, b.off ∈ chain j → j = (tdb.hashFn key).toNat % tdb.hashSize := fun j hj hmem =>
      h.bucket_unique hj (Nat.mod_lt _ h.hashSize_pos) hmem (h.holds_bucket ho)
    obtain ⟨hed, hother⟩ := h.rewrite hb w hblock fun j hj hmem => ⟨hnext, by rw [hbucket j hj hmem]; exact hok⟩
    have hs : Sets tdb tdb' chain chain b.off (some (key, dbuf)) := by
      refine ⟨fun e => ?_, hother⟩
      rw [Holds, hentry, hed.kept.hashSize]
      exact and_iff_right ho.1
    refine ⟨rfl, tdb', by rw [if_neg hfit]; exact e', hed, ?_⟩
    refine hm.set hs (by rintro _ ⟨⟩; rfl) (fun e he => ?_) fun o' d' ho' => hm.unique ho' ho
    have := he.2
    rw [ho.2] at this
    cases this
    rfl

/-- A record that held nothing comes to hold the entry of a new key. -/
theorem Represents.insert {tdb' : TdbContext} {chain' : Nat → List Nat} (hm : Represents tdb chain map) {o : Nat}
    {dbuf : List UInt8} (hnone : map key = none) (ho : ∀ e, ¬ Holds tdb chain o e)
    (hs : Sets tdb tdb' chain chain' o (some (key, dbuf))) :
    Represents tdb' chain' (update map key (some dbuf)) :=
  hm.set hs (by rintro _ ⟨⟩; rfl) (fun e he => absurd he (ho e)) fun o' d hd => absurd hd (hm.eq_none.mp hnone o' d)

theorem purgeBefore_ok (h : Chained tdb bs fl chain) (hash : Nat) :
    ∃ tdb' bs' fl' chain', (if tdb.maxDeadRecords ≠ 0 then tdbPurgeDead hash else pure ()) tdb = .ok () tdb' ∧
      Edited tdb tdb' bs' fl' chain' ∧ ∀ o e, Holds tdb' chain' o e ↔ Holds tdb chain o e := by
  split
  · exact tdbPurgeDead_ok h hash
  · exact ⟨tdb, bs, fl, chain, rfl, ⟨h, Kept.refl tdb, rfl⟩, fun _ _ => Iff.rfl⟩

/-- A call keeps the settings, and makes the file larger by a record of this length at most. -/
structure Enlarged (length : Nat) (tdb tdb' : TdbContext) : Prop where
  kept : Kept tdb tdb'
  mapSize_le : tdb'.mapSize ≤ tdb.mapSize + (length + 28) * 10 + tdb.pageSize

theorem Edited.enlarged {tdb' : TdbContext} {bs' : List Block} {fl' : List Nat} {chain' : Nat → List Nat}
    (h : Edited tdb tdb' bs' fl' chain') (length : Nat) : Enlarged length tdb tdb' :=
  ⟨h.kept, by rw [h.mapSize, Nat.add_assoc]; exact Nat.le_add_right ..⟩

/-- Calls before and after that leave the size of the file. -/
theorem Enlarged.between {tdb₀ tdb₁ tdb₂ tdb₃ : TdbContext} {length : Nat} (h : Enlarged length tdb₁ tdb₂)
    (hk : Kept tdb₀ tdb₁) (hs : tdb₁.mapSize = tdb₀.mapSize) (hk' : Kept tdb₂ tdb₃) (hs' : tdb₃.mapSize = tdb₂.mapSize) :
    Enlarged length tdb₀ tdb₃ :=
  ⟨(hk.trans h.kept).trans hk', by rw [hs', ← hs, ← hk.pageSize]; exact h.mapSize_le⟩

/-- The end of `tdb_store`: a new record at the top of the chain. -/
theorem storeAllocated_ok (h : Chained tdb bs fl chain) (hm : Represents tdb chain map) {dbuf : List UInt8}
    (hnone : map key = none) (hw : NoWrap tdb (key.length + dbuf.length)) :
    ∃ tdb', storeAllocated key dbuf (tdb.hashFn key).toNat tdb = .ok () tdb' ∧
      Rep tdb' (update map key (some dbuf)) ∧ Enlarged (key.length + dbuf.length) tdb tdb' := by
  obtain ⟨tdb₁, bs₁, fl₁, chain₁, e₁, hed₁, hholds₁⟩ := purgeBefore_ok h (tdb.hashFn key).toNat
  have hch₁ := hed₁.chained
  have hk₁ := hed₁.kept
  have hm₁ := hm.congr hholds₁
  have hw₁ : NoWrap tdb₁ (key.length + dbuf.length) := by
    unfold NoWrap at hw ⊢
    rw [hed₁.mapSize, hk₁.pageSize]
    exact hw
  have hu : u32 (key.length + dbuf.length) = key.length + dbuf.length := by
    unfold NoWrap at hw
    exact u32_of_lt (by omega)
  -- the record
  obtain ⟨tdb₂, bs₂, fl₂, blk, r, e₂, hal⟩ := tdbAllocate_ok hch₁.ready rfl hch₁.heap
    (by unfold NoWrap at hw; unfold sizeofOff; omega) fun _ => hw₁
  have hblk : blk ∈ used bs₂ := hal.used.mem_iff.mpr (by simp)
  obtain ⟨hch₂, hholds₂⟩ := hch₁.grow hal.grows (fun a ha => ha.imp_left And.right) (fun _ _ b hb _ => hb)
    (fun b hb => hal.used.mem_iff.mpr (by simp [hb])) hal.heap
  have hk₂ := hk₁.trans hal.grows.kept
  have hm₂ := hm₁.congr hholds₂
  have hnew : ∀ i < tdb₂.hashSize, blk.off ∉ chain₁ i := by
    intro i hi hmem
    rw [hal.grows.kept.hashSize] at hi
    obtain ⟨b, hb, hoff, -⟩ := hch₁.recs i hi _ hmem
    -- the records in use are apart from the new one
    have hp : (used bs₂).Pairwise BlocksApart :=
      (hal.heap.tiles.ordered.sublist List.filter_sublist).imp fun {b c} hbc => .inl hbc
    have hp' := (hal.used.pairwise_iff fun {b c} hbc => Or.symm hbc).mp hp
    have := List.rel_of_pairwise_cons hp' hb
    unfold BlocksApart Block.stop sizeofRec at this
    omega
  -- its header, key and data
  have hnext := ofsAt_lt tdb₂.convert (view tdb₂) (tdbHashTop tdb₂.hashSize (tdb₂.hashFn key).toNat)
  have hf := hal.fits
  generalize hr' : ({ r with next := ofsAt tdb₂.convert (view tdb₂) (tdbHashTop tdb₂.hashSize (tdb₂.hashFn key).toNat) } :
    ListStruct) = r'
  have hfits : r'.Fits := by
    rw [← hr']
    exact ⟨hnext, hf.recLen, hf.keyLen, hf.dataLen, hf.fullHash, hf.magic⟩
  obtain ⟨tdb₃, tdb₄, e₃, e₄, w₄, hblock, hofs, hok, hentry⟩ := @storeRec_ok _ _ _ _ hch₂ _ hblk r' hfits
    (by rw [← hr']; exact hal.recLen) key dbuf hal.room
  obtain ⟨hed₄, hother₄⟩ := hch₂.rewrite hblk w₄ hblock fun i hi hmem => absurd hmem (hnew i hi)
  have hch₄ := hed₄.chained
  have hk₄ := hk₂.trans hed₄.kept
  -- its place on the chain
  have hi₄ : (tdb₂.hashFn key).toNat % tdb₂.hashSize < tdb₄.hashSize := by
    rw [hed₄.kept.hashSize]
    exact Nat.mod_lt _ hch₂.hashSize_pos
  have htop : ofsAt tdb₄.convert (view tdb₄) blk.off = ofsAt tdb₄.convert (view tdb₄)
      (tdbHashTop tdb₄.hashSize ((tdb₂.hashFn key).toNat % tdb₂.hashSize)) := by
    have hlo := (hch₂.block hblk).2.2.1
    have hhi := (tdbHashTop_bounds hch₂.hashSize_pos (tdb₂.hashFn key).toNat).2.1
    have hcong := @ofsAt_congr tdb₂.convert (view tdb₂) (view tdb₄)
      (tdbHashTop tdb₂.hashSize (tdb₂.hashFn key).toNat) fun a h1 h2 => w₄.frame a (by omega)
    rw [hed₄.kept.convert, hed₄.kept.hashSize, tdbHashTop_mod, hofs, hcong, ← hr']
  obtain ⟨tdb₅, e₅, hed₅, hs₅⟩ := hch₄.push hi₄ hblk hok htop
  have henlarged : Enlarged (key.length + dbuf.length) tdb₁ tdb₂ := ⟨hal.grows.kept, hal.mapSize_le⟩
  refine ⟨tdb₅, ?_, ⟨bs₂, fl₂, _, hed₅.chained, ?_⟩,
    henlarged.between hk₁ hed₁.mapSize (hed₄.kept.trans hed₅.kept) (hed₅.mapSize.trans hed₄.mapSize)⟩
  · rw [storeAllocated, get_bind]
    simp only
    rw [bind_ok e₁, hu, bind_ok e₂]
    simp only
    rw [hed₄.kept.hashSize, tdbHashTop_mod, hk₂.hashSize, hk₂.hashFn] at e₅
    rw [hk₂.hashFn, ← hr', hk₂.hashSize, hk₂.hashFn] at e₃
    have hread := hch₂.hashTop_ok (tdb.hashFn key).toNat
    rw [hk₂.hashSize] at hread
    rw [bind_ok hread, bind_ok e₃, bind_ok e₄]
    exact e₅
  · refine @Represents.insert _ _ _ key _ _ hm₂ blk.off dbuf hnone (fun e he => ?_) ⟨fun e => ?_, fun o ho e => ?_⟩
    · obtain ⟨⟨i, hi, hmem⟩, -⟩ := he
      exact hnew i hi hmem
    · rw [← hentry]
      exact hs₅.at_ e
    · exact (hs₅.other o ho e).trans (hother₄ o ho e)

/-- `tdb_store` of a key that is not there, in a dead record or in a new one. -/
theorem storeNew_ok (h : Chained tdb bs fl chain) (hm : Represents tdb chain map) {dbuf : List UInt8}
    (hnone : map key = none) (hw : NoWrap tdb (key.length + dbuf.length)) :
    ∃ tdb', storeNew key dbuf (tdb.hashFn key).toNat tdb = .ok () tdb' ∧
      Rep tdb' (update map key (some dbuf)) ∧ Enlarged (key.length + dbuf.length) tdb tdb' := by
  rw [storeNew, get_bind]
  split
  case isFalse => exact storeAllocated_ok h hm hnone hw
  have hu : u32 (key.length + dbuf.length + sizeofOff) = key.length + dbuf.length + sizeofOff := by
    unfold NoWrap at hw
    unfold sizeofOff
    exact u32_of_lt (by omega)
  rw [hu]
  rcases tdbFindDead_ok h (tdb.hashFn key).toNat (key.length + dbuf.length + sizeofOff) with
    ⟨o, ho, hdead, hlen, e⟩ | e
  · rw [bind_ok (attempt_ok e)]
    have hi := Nat.mod_lt (tdb.hashFn key).toNat h.hashSize_pos
    obtain ⟨b, hb, rfl, -⟩ := h.recs _ hi o ho
    obtain ⟨hrl, hnext, -⟩ := (h.heap.ok b (h.block hb).1).recAt
    rw [hrl] at hlen
    obtain ⟨tdb₁, tdb', e₁, e₂, w, hblock, hofs, hok, hentry⟩ :=
      storeRec_ok h hb (fits_recAt tdb.convert (view tdb) b.off) hrl hlen
    obtain ⟨hed, hother⟩ := h.rewrite hb w hblock fun j hj hmem =>
      ⟨hofs.trans hnext, by rw [h.bucket_unique hj hi hmem ho]; exact hok⟩
    refine ⟨tdb', (bind_ok e₁).trans e₂, ⟨bs, fl, chain, hed.chained, ?_⟩, hed.enlarged _⟩
    refine @Represents.insert _ _ _ key _ _ hm b.off dbuf hnone (fun a ha => ?_) ⟨fun a => ?_, hother⟩
    · have := ha.2
      rw [hdead] at this
      cases this
    · rw [Holds, hentry, hed.kept.hashSize]
      exact and_iff_right ⟨_, hi, ho⟩
  · rw [bind_ok (attempt_failed e)]
    exact storeAllocated_ok h hm hnone hw

/-- Whether `tdb_store` with a flag succeeds, given whether the key is there. -/
def StoreFlag.accepts : StoreFlag → Bool → Bool
  | .replace, _ => true
  | .insert, found => !found
  | .modify, found => found

/-- The end of `tdb_store` when the entry was not updated in place. -/
theorem storeRest_ok (h : Rep tdb map) (key dbuf : List UInt8) {flag : StoreFlag}
    (hflag : flag = .insert → map key = none) (hw : NoWrap tdb (key.length + dbuf.length)) :
    ∃ tdb', (do
        setEcode .success
        let _ ← (if flag ≠ .insert then attempt (tdbDeleteHash key (tdb.hashFn key).toNat) else pure none)
        storeNew key dbuf (tdb.hashFn key).toNat : TdbM Unit) tdb = .ok () tdb' ∧
      Rep tdb' (update map key (some dbuf)) ∧ Enlarged (key.length + dbuf.length) tdb tdb' := by
  obtain ⟨bs, fl, chain, hch, hm⟩ := h.setEcode .success
  generalize htdb₁ : ({ tdb with ecode := .success } : TdbContext) = tdb₁ at hch hm
  have hset : setEcode .success tdb = .ok () tdb₁ := by rw [← htdb₁]; rfl
  have hfn : tdb₁.hashFn = tdb.hashFn := by rw [← htdb₁]
  have hw₁ : NoWrap tdb₁ (key.length + dbuf.length) := by rw [← htdb₁]; exact hw
  have hk₁ : Kept tdb tdb₁ := by rw [← htdb₁]; exact ⟨rfl, rfl, rfl, rfl, rfl, rfl, rfl, rfl, rfl, rfl, rfl, rfl⟩
  have hs₁ : tdb₁.mapSize = tdb.mapSize := by rw [← htdb₁]
  rw [bind_ok hset, ← hfn]
  split
  · obtain ⟨tdb₂, bs₂, fl₂, chain₂, e₂, hed₂, hm₂⟩ := tdbDeleteHash_ok hch hm key
    have hatt : ∃ a, attempt (tdbDeleteHash key (tdb₁.hashFn key).toNat) tdb₁ = .ok a tdb₂ := by
      cases hd : map key with
      | none =>
        rw [hd] at e₂
        exact ⟨none, attempt_failed e₂⟩
      | some d =>
        rw [hd] at e₂
        exact ⟨some (), attempt_ok e₂⟩
    obtain ⟨a, hatt⟩ := hatt
    have hw₂ : NoWrap tdb₂ (key.length + dbuf.length) := by
      unfold NoWrap at hw₁ ⊢
      rw [hed₂.mapSize, hed₂.kept.pageSize]
      exact hw₁
    obtain ⟨tdb', e', hrep, hen⟩ := storeNew_ok hed₂.chained hm₂ (update_self ..) hw₂
    rw [update_idem] at hrep
    refine ⟨tdb', ?_, hrep, hen.between (hk₁.trans hed₂.kept) (hed₂.mapSize.trans hs₁) (Kept.refl _) rfl⟩
    rw [bind_ok hatt, ← hed₂.kept.hashFn]
    exact e'
  case isFalse hf =>
    obtain ⟨tdb', e', hrep, hen⟩ := storeNew_ok hch hm (hflag (not_ne_iff.mp hf)) hw₁
    exact ⟨tdb', e', hrep, hen.between hk₁ hs₁ (Kept.refl _) rfl⟩

/-- `tdb_store` sets the data of a key, or fails as its flag asks for. -/
theorem tdbStore_ok (h : Rep tdb map) (key dbuf : List UInt8) (flag : StoreFlag)
    (hw : NoWrap tdb (key.length + dbuf.length)) :
    ∃ tdb', tdbStore key dbuf flag tdb =
        (if flag.accepts (map key).isSome then .ok () tdb' else .error .failed tdb') ∧
      Rep tdb' (if flag.accepts (map key).isSome then update map key (some dbuf) else map) ∧
      Enlarged (key.length + dbuf.length) tdb tdb' := by
  obtain ⟨bs, fl, chain, hch, hm⟩ := id h
  obtain ⟨-, hro, htr⟩ := hch.ready.transaction
  rw [tdbStore, get_bind, if_neg (by simp [hro, htr])]
  have hcode : ∀ ecode, Enlarged (key.length + dbuf.length) tdb { tdb with ecode := ecode } := fun ecode =>
    (hch.setEcode ecode).1.enlarged _
  -- the rest, from a context that differs in the error code only
  have hrest : ∀ ecode, (flag = .insert → map key = none) → ∃ tdb', (do
        setEcode .success
        let _ ← (if flag ≠ .insert then attempt (tdbDeleteHash key (tdb.hashFn key).toNat) else pure none)
        storeNew key dbuf (tdb.hashFn key).toNat : TdbM Unit) { tdb with ecode := ecode } = .ok () tdb' ∧
      Rep tdb' (update map key (some dbuf)) ∧ Enlarged (key.length + dbuf.length) tdb tdb' := by
    intro ecode hflag
    obtain ⟨tdb', e, hrep, hen⟩ := storeRest_ok (h.setEcode ecode) key dbuf hflag hw
    exact ⟨tdb', e, hrep, hen.between (hcode ecode).kept rfl (Kept.refl _) rfl⟩
  by_cases hins : flag = .insert
  · subst hins
    obtain ⟨ecode, e₁, hsame⟩ := tdbExistsHash_ok hch hm key
    cases hd : map key with
    | none =>
      obtain ⟨tdb₂, e₂, hrep₂, hen⟩ := hrest .errNoexist fun _ => hd
      obtain ⟨tdb₃, e₃, hrep₃, hk, hs⟩ := hrep₂.incrementSeqnum
      refine ⟨tdb₃, ?_, hrep₃, hen.between (Kept.refl _) rfl hk hs⟩
      rw [hd] at e₁
      rw [hsame hd] at e₁
      have hdone : (do if ← tdbExistsHash key (tdb.hashFn key).toNat then errcode .errExists else pure false :
          TdbM Bool) tdb = .ok false { tdb with ecode := .errNoexist } := bind_ok e₁
      rw [if_pos rfl, bind_ok hdone]
      exact (bind_ok e₂).trans e₃
    | some d =>
      refine ⟨{ tdb with ecode := .errExists }, ?_, h.setEcode .errExists, hcode .errExists⟩
      rw [hd] at e₁
      have hdone : (do if ← tdbExistsHash key (tdb.hashFn key).toNat then errcode .errExists else pure false :
          TdbM Bool) tdb = .error .failed { tdb with ecode := .errExists } := bind_ok e₁
      rw [if_pos rfl, bind_error hdone]
      rfl
  · rw [if_neg hins]
    rcases tdbUpdateHash_ok hch hm key dbuf with ⟨hd, e₁⟩ | ⟨hd, e₁⟩ | ⟨hd, tdb₁, e₁, hed₁, hm₁⟩
    · -- no such key
      have hatt := attempt_failed e₁
      by_cases hmod : flag = .modify
      · subst hmod
        refine ⟨{ tdb with ecode := .errNoexist }, ?_, by rw [hd]; exact h.setEcode .errNoexist, hcode .errNoexist⟩
        rw [hd, bind_error]
        · rfl
        · rw [bind_ok hatt]
          dsimp only
          rw [get_bind, if_pos ⟨rfl, rfl⟩]
          rfl
      · obtain ⟨tdb₂, e₂, hrep₂, hen⟩ := hrest .errNoexist fun hf => absurd hf hins
        obtain ⟨tdb₃, e₃, hrep₃, hk, hs⟩ := hrep₂.incrementSeqnum
        have hacc : flag.accepts (map key).isSome = true := by
          cases flag
          exacts [rfl, absurd rfl hins, absurd rfl hmod]
        refine ⟨tdb₃, ?_, by rw [if_pos hacc]; exact hrep₃, hen.between (Kept.refl _) rfl hk hs⟩
        rw [if_pos hacc]
        refine (bind_ok (?_ : _ = EStateM.Result.ok false { tdb with ecode := .errNoexist })).trans ?_
        · rw [bind_ok hatt]
          dsimp only
          rw [get_bind, if_neg fun hc => hmod hc.2]
          rfl
        · exact (bind_ok e₂).trans e₃
    · -- the record is too short
      have hatt := attempt_failed e₁
      obtain ⟨tdb₂, e₂, hrep₂, hen⟩ := hrest .success fun hf => absurd hf hins
      obtain ⟨tdb₃, e₃, hrep₃, hk, hs⟩ := hrep₂.incrementSeqnum
      have hacc : flag.accepts (map key).isSome = true := by
        rw [hd]
        cases flag
        exacts [rfl, absurd rfl hins, rfl]
      refine ⟨tdb₃, ?_, by rw [if_pos hacc]; exact hrep₃, hen.between (Kept.refl _) rfl hk hs⟩
      rw [if_pos hacc]
      refine (bind_ok (?_ : _ = EStateM.Result.ok false { tdb with ecode := .success })).trans ?_
      · rw [bind_ok hatt]
        dsimp only
        rw [get_bind, if_neg fun hc => by cases hc.1]
        rfl
      · exact (bind_ok e₂).trans e₃
    · obtain ⟨tdb₂, e₂, hrep₂, hk, hs⟩ := Rep.incrementSeqnum ⟨bs, fl, chain, hed₁.chained, hm₁⟩
      have hacc : flag.accepts (map key).isSome = true := by
        rw [hd]
        cases flag
        exacts [rfl, absurd rfl hins, rfl]
      refine ⟨tdb₂, ?_, by rw [if_pos hacc]; exact hrep₂, (hed₁.enlarged _).between (Kept.refl _) rfl hk hs⟩
      rw [if_pos hacc]
      refine (bind_ok (?_ : _ = EStateM.Result.ok true tdb₁)).trans e₂
      rw [bind_ok (attempt_ok e₁)]
      rfl

theorem tdbAppend_ok (h : Rep tdb map) (key newDbuf : List UInt8)
    (hw : NoWrap tdb (key.length + ((map key).getD [] ++ newDbuf).length)) :
    ∃ tdb', tdbAppend key newDbuf tdb = .ok () tdb' ∧
      Rep tdb' (update map key (some ((map key).getD [] ++ newDbuf))) := by
  obtain ⟨tdb₁, e₁, hrep₁, hms, hpage⟩ := tdbFetch_ok h key
  have hw₁ : NoWrap tdb₁ (key.length + ((map key).getD [] ++ newDbuf).length) := by
    unfold NoWrap at hw ⊢
    rw [hms, hpage]
    exact hw
  obtain ⟨tdb', e', hrep, -⟩ := tdbStore_ok hrep₁ key ((map key).getD [] ++ newDbuf) .replace hw₁
  exact ⟨tdb', (bind_ok e₁).trans e', hrep⟩

theorem tdbDelete_ok (h : Rep tdb map) (key : List UInt8) :
    ∃ tdb', tdbDelete key tdb = (if (map key).isSome then .ok () tdb' else .error .failed tdb') ∧
      Rep tdb' (update map key none) := by
  obtain ⟨bs, fl, chain, hch, hm⟩ := h
  obtain ⟨tdb', bs', fl', chain', e, hed, hm'⟩ := tdbDeleteHash_ok hch hm key
  exact ⟨tdb', by rw [tdbDelete, get_bind]; exact e, bs', fl', chain', hed.chained, hm'⟩

end Calls

/-! ## Runs of calls -/

inductive DbCall
  | store (key dbuf : List UInt8) (flag : StoreFlag)
  | append (key newDbuf : List UInt8)
  | delete (key : List UInt8)
  | fetch (key : List UInt8)
  | exists_ (key : List UInt8)
  deriving DecidableEq, Repr

/-- What the caller gets: success or failure, the data fetched, or whether the key exists. -/
inductive DbReply
  | status (ok : Bool)
  | data (dbuf : Option (List UInt8))
  | found (found : Bool)
  deriving DecidableEq, Repr

/-- The call on the database. -/
def DbCall.run : DbCall → TdbM DbReply
  | .store key dbuf flag => do return .status (← attempt (tdbStore key dbuf flag)).isSome
  | .append key newDbuf => do return .status (← attempt (tdbAppend key newDbuf)).isSome
  | .delete key => do return .status (← attempt (tdbDelete key)).isSome
  | .fetch key => do return .data (← tdbFetch key)
  | .exists_ key => do return .found (← tdbExists key)

/-- The call on a finite map. -/
def DbCall.onMap (map : Map) : DbCall → DbReply × Map
  | .store key dbuf flag =>
    if flag.accepts (map key).isSome then (.status true, update map key (some dbuf)) else (.status false, map)
  | .append key newDbuf => (.status true, update map key (some ((map key).getD [] ++ newDbuf)))
  | .delete key => (.status (map key).isSome, update map key none)
  | .fetch key => (.data (map key), map)
  | .exists_ key => (.found (map key).isSome, map)

/-- How many bytes of key and data the call writes. -/
def DbCall.bytes (map : Map) : DbCall → Nat
  | .store key dbuf _ => key.length + dbuf.length
  | .append key newDbuf => key.length + ((map key).getD [] ++ newDbuf).length
  | _ => 0

/-- The calls one after the other, with their replies. -/
def runCalls : List DbCall → TdbM (List DbReply)
  | [] => pure []
  | c :: cs => do
    let reply ← c.run
    let replies ← runCalls cs
    return reply :: replies

/-- The replies of a finite map. -/
def mapReplies : Map → List DbCall → List DbReply
  | _, [] => []
  | map, c :: cs => (c.onMap map).1 :: mapReplies (c.onMap map).2 cs

/-- Before every call the file, with what the call may add to it, is below 2^32. -/
def SizesFit : Map → TdbContext → List DbCall → Prop
  | _, _, [] => True
  | map, tdb, c :: cs => NoWrap tdb (c.bytes map) ∧
    match c.run tdb with
    | .ok _ tdb' => SizesFit (c.onMap map).2 tdb' cs
    | .error _ _ => True

instance (tdb : TdbContext) (length : Nat) : Decidable (NoWrap tdb length) := inferInstanceAs (Decidable (_ ≤ _))

instance SizesFit.decidable : (map : Map) → (tdb : TdbContext) → (calls : List DbCall) →
    Decidable (SizesFit map tdb calls)
  | _, _, [] => isTrue trivial
  | map, tdb, c :: cs =>
    match h : c.run tdb with
    | .ok _ tdb' =>
      have := SizesFit.decidable (c.onMap map).2 tdb' cs
      decidable_of_iff (NoWrap tdb (c.bytes map) ∧ SizesFit (c.onMap map).2 tdb' cs) (by simp [SizesFit, h])
    | .error _ _ => decidable_of_iff (NoWrap tdb (c.bytes map)) (by simp [SizesFit, h])

section Runs

variable {tdb : TdbContext} {map : Map}

theorem DbCall.run_ok (h : Rep tdb map) (c : DbCall) (hw : NoWrap tdb (c.bytes map)) :
    ∃ tdb', c.run tdb = .ok (c.onMap map).1 tdb' ∧ Rep tdb' (c.onMap map).2 := by
  cases c with
  | store key dbuf flag =>
    obtain ⟨tdb', e, hrep, -⟩ := tdbStore_ok h key dbuf flag hw
    refine ⟨tdb', ?_, ?_⟩
    · simp only [DbCall.run, DbCall.onMap]
      by_cases hacc : flag.accepts (map key).isSome = true
      · rw [if_pos hacc] at e ⊢
        exact bind_ok (attempt_ok e)
      · rw [if_neg hacc] at e ⊢
        exact bind_ok (attempt_failed e)
    · simp only [DbCall.onMap]
      split
      case isTrue hacc =>
        rw [if_pos hacc] at hrep
        exact hrep
      case isFalse hacc =>
        rw [if_neg hacc] at hrep
        exact hrep
  | append key newDbuf =>
    obtain ⟨tdb', e, hrep⟩ := tdbAppend_ok h key newDbuf hw
    exact ⟨tdb', bind_ok (attempt_ok e), hrep⟩
  | delete key =>
    obtain ⟨tdb', e, hrep⟩ := tdbDelete_ok h key
    refine ⟨tdb', ?_, hrep⟩
    simp only [DbCall.run, DbCall.onMap]
    cases hd : map key with
    | none =>
      rw [hd] at e
      exact bind_ok (attempt_failed e)
    | some d =>
      rw [hd] at e
      exact bind_ok (attempt_ok e)
  | fetch key =>
    obtain ⟨tdb', e, hrep, -⟩ := tdbFetch_ok h key
    exact ⟨tdb', bind_ok e, hrep⟩
  | exists_ key =>
    obtain ⟨bs, fl, chain, hch, hm⟩ := id h
    obtain ⟨ecode, e, -⟩ := tdbExistsHash_ok hch hm key
    have hex : tdbExists key tdb = .ok (map key).isSome { tdb with ecode := ecode } := by
      rw [tdbExists, get_bind]
      exact e
    exact ⟨_, bind_ok hex, h.setEcode ecode⟩

/-- The finite map after the calls. -/
def mapAfter (map : Map) (calls : List DbCall) : Map := calls.foldl (fun map c => (c.onMap map).2) map

theorem runCalls_ok (h : Rep tdb map) {calls : List DbCall} (hw : SizesFit map tdb calls) :
    ∃ tdb', runCalls calls tdb = .ok (mapReplies map calls) tdb' ∧ Rep tdb' (mapAfter map calls) := by
  induction calls generalizing tdb map with
  | nil => exact ⟨tdb, rfl, h⟩
  | cons c cs ih =>
    obtain ⟨tdb₁, e₁, hrep⟩ := c.run_ok h hw.1
    have hw₁ := hw.2
    rw [e₁] at hw₁
    obtain ⟨tdb₂, e₂, hrep₂⟩ := ih hrep hw₁
    exact ⟨tdb₂, (bind_ok e₁).trans (bind_ok e₂), hrep₂⟩

theorem tdbNewDatabase_rep {args : OpenArgs} (hargs : args.Valid) (mem : Mem) :
    Rep (tdbNewDatabase args mem) fun _ => none := by
  refine ⟨[], [], fun _ => [], ⟨tdbNewDatabase_ready mem hargs, rfl, tdbNewDatabase_heap mem hargs, fun i hi => ?_,
    by simp⟩, ⟨fun k d => ?_, ?_⟩⟩
  · have hlo := (tdbHashTop_bounds hargs.hashSize i).1
    have hhi := (tdbHashTop_bounds hargs.hashSize i).2.1
    rw [tdbDataStart_eq hargs] at hhi
    exact @tdbNewDatabase_ofsAt args mem (tdbHashTop args.hashSize i) (by omega) hhi
  · simp [Holds]
  · simp [Holds]

end Runs

end Samba.Tdb
