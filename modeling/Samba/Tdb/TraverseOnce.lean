/-
A traversal whose callback deletes, but stores nothing (lib/tdb/common/traverse.c): each record that is there all along is passed
once, as long as no record lies at 2 GiB or behind. `tdb_next_lock` returns the offset of the record as an `int`.
-/
import Mathlib.Data.List.Nodup
import Samba.Tdb.FiniteMap
import Samba.Tdb.Traverse

namespace Samba.Tdb

open Bytes Function Links List

/-! ## The callback -/

/-- What a callback does to the map, and what it says at the end. -/
def Callback.eval {σ : Type} : Callback σ → Map → (Bool × σ) × Map
  | .done stop privateData, map => ((stop, privateData), map)
  | .delete key next, map => (next (map key).isSome).eval (update map key none)
  | .fetch key next, map => (next (map key)).eval map
  | .exists_ key next, map => (next (map key).isSome).eval map

section Steps

variable {tdb : TdbContext} {bs : List Block} {fl : List Nat} {chain : Nat → List Nat} {map : Map} {locks : List Nat}

theorem blind_tdbFetch (key : List UInt8) : Blind (tdbFetch key) := by
  refine blind_get (fun _ _ => rfl) fun tdb => (blind_tdbFind _ _).attempt.bind fun found => ?_
  cases found with
  | none => exact blind_pure _
  | some found => exact (blind_tdbAllocRead _ _).attempt

theorem blind_tdbExists (key : List UInt8) : Blind (tdbExists key) :=
  blind_get (fun _ _ => rfl) fun _ => (blind_tdbFind _ _).attempt.bind fun _ => blind_pure _

/-- A callback does to the database what it does to the map. -/
theorem Callback.run_ok {σ : Type} (h : Chained tdb bs fl chain) (hm : Represents tdb chain map) (cb : Callback σ) :
    ∃ tdb' bs' fl' chain', cb.run (tdb.withLocks locks) = .ok (cb.eval map).1 (tdb'.withLocks locks) ∧
      Deleted locks tdb tdb' chain map bs' fl' chain' (cb.eval map).2 := by
  induction cb generalizing tdb bs fl chain map with
  | done stop privateData => exact ⟨tdb, bs, fl, chain, rfl, Deleted.refl h hm locks⟩
  | delete key next ih =>
    obtain ⟨tdb₁, bs₁, fl₁, chain₁, e₁, hdel₁⟩ := tdbDeleteHash_withLocks h hm key locks
    obtain ⟨tdb₂, bs₂, fl₂, chain₂, e₂, hdel₂⟩ := ih (map key).isSome hdel₁.edited.chained hdel₁.represents
    refine ⟨tdb₂, bs₂, fl₂, chain₂, ?_, hdel₁.trans hdel₂⟩
    have hdelete : attempt (tdbDelete key) (tdb.withLocks locks) =
        .ok (if (map key).isSome then some () else none) (tdb₁.withLocks locks) := by
      cases hd : map key with
      | none =>
        rw [hd] at e₁
        exact attempt_failed e₁
      | some d =>
        rw [hd] at e₁
        exact attempt_ok e₁
    have hreply : (if (map key).isSome then some () else none).isSome = (map key).isSome := by
      cases (map key).isSome <;> rfl
    rw [Callback.run, bind_ok hdelete, hreply]
    exact e₂
  | fetch key next ih =>
    obtain ⟨tdb₁, e₁, hed₁, hholds⟩ := tdbFetch_chained h hm key
    have hdel₁ : Deleted locks tdb tdb₁ chain map bs fl chain map :=
      ⟨hed₁, hm.congr hholds, fun o e => (hholds o e).mp, Trims.refl _ _⟩
    obtain ⟨tdb₂, bs₂, fl₂, chain₂, e₂, hdel₂⟩ := ih (map key) hdel₁.edited.chained hdel₁.represents
    exact ⟨tdb₂, bs₂, fl₂, chain₂, (bind_ok ((blind_tdbFetch key).run e₁ locks)).trans e₂, hdel₁.trans hdel₂⟩
  | exists_ key next ih =>
    obtain ⟨ecode, e₁, -⟩ := tdbExistsHash_ok h hm key
    obtain ⟨hed₁, hholds⟩ := h.setEcode ecode
    have hdel₁ : Deleted locks tdb { tdb with ecode := ecode } chain map bs fl chain map :=
      ⟨hed₁, hm.congr hholds, fun o e => (hholds o e).mp, Trims.refl _ _⟩
    obtain ⟨tdb₂, bs₂, fl₂, chain₂, e₂, hdel₂⟩ := ih (map key).isSome hdel₁.edited.chained hdel₁.represents
    exact ⟨tdb₂, bs₂, fl₂, chain₂, (bind_ok ((blind_tdbExists key).run e₁ locks)).trans e₂, hdel₁.trans hdel₂⟩

/-! ## The next record -/

/-- The records on the chains from `hash` on, in the order of a traversal. -/
def recordsFrom (chain : Nat → List Nat) (hashSize hash : Nat) : List Nat := (List.range' hash (hashSize - hash)).flatMap chain

variable {hash hashSize o off : Nat} {chain' : Nat → List Nat} {l : List Nat}

theorem recordsFrom_of_lt (h : hash < hashSize) (chain : Nat → List Nat) :
    recordsFrom chain hashSize hash = chain hash ++ recordsFrom chain hashSize (hash + 1) := by
  obtain ⟨n, rfl⟩ : ∃ n, hashSize = hash + 1 + n := ⟨hashSize - hash - 1, by omega⟩
  rw [recordsFrom, recordsFrom, show hash + 1 + n - hash = n + 1 by omega, show hash + 1 + n - (hash + 1) = n by omega,
    List.range'_succ, flatMap_cons]

theorem recordsFrom_of_ge (h : hashSize ≤ hash) (chain : Nat → List Nat) : recordsFrom chain hashSize hash = [] := by
  rw [recordsFrom, Nat.sub_eq_zero_of_le h]
  rfl

theorem mem_recordsFrom {chain : Nat → List Nat} :
    o ∈ recordsFrom chain hashSize hash ↔ ∃ j, hash ≤ j ∧ j < hashSize ∧ o ∈ chain j := by
  rw [recordsFrom, mem_flatMap]
  constructor
  · rintro ⟨j, hj, ho⟩
    rw [mem_range'_1] at hj
    exact ⟨j, hj.1, by omega, ho⟩
  · rintro ⟨j, h1, h2, ho⟩
    exact ⟨j, mem_range'_1.mpr ⟨h1, by omega⟩, ho⟩

/-- Chains that are the same from `hash` on have the same records there. -/
theorem recordsFrom_congr {chain : Nat → List Nat} (h : ∀ j, hash ≤ j → chain' j = chain j) :
    recordsFrom chain' hashSize hash = recordsFrom chain hashSize hash := by
  refine congrArg List.flatten (map_congr_left fun j hj => h j ?_)
  exact (mem_range'_1.mp hj).1

/-- Chains that get shorter have fewer records. -/
theorem recordsFrom_sublist {chain : Nat → List Nat} (h : ∀ j, (chain' j).Sublist (chain j)) :
    (recordsFrom chain' hashSize hash).Sublist (recordsFrom chain hashSize hash) := by
  unfold recordsFrom
  induction List.range' hash (hashSize - hash) with
  | nil => exact List.Sublist.refl _
  | cons j js ih =>
    exact (h j).append ih

/-- Records of which none is live are passed over, and dead ones may go. -/
structure Skips (tdb tdb' : TdbContext) (chain : Nat → List Nat) (bs' : List Block) (fl' : List Nat) (chain' : Nat → List Nat)
    (ahead ahead' : List Nat) : Prop where
  edited : Edited tdb tdb' bs' fl' chain'
  holds : ∀ o e, Holds tdb' chain' o e ↔ Holds tdb chain o e
  sub : ahead'.Sublist ahead
  live : ∀ o ∈ ahead, ∀ e, Holds tdb chain o e → o ∈ ahead'

/-- A traversal stands at the record `o` of a chain, and has `l` ahead there. -/
structure At (tdb : TdbContext) (chain : Nat → List Nat) (hash o : Nat) (l : List Nat) : Prop where
  lt : hash < tdb.hashSize
  split : ∃ l₁, chain hash = l₁ ++ o :: l

/-- The walk through the rest `l₂` of a chain stops at the first record that is live, and deletes the dead ones before it. -/
theorem nextInChain_ok (h : Chained tdb bs fl chain) {i : Nat} (hi : i < tdb.hashSize) {l₁ l₂ : List Nat} (hc : chain i = l₁ ++ l₂)
    {fuel : Nat} (hfuel : l₂.length < fuel) :
    ∃ res tdb' bs' fl' l₂', nextInChain fuel (tdb.withLocks [l₂.headD 0]) = .ok res (tdb'.withLocks [l₂'.headD 0]) ∧
      Edited tdb tdb' bs' fl' (update chain i (l₁ ++ l₂')) ∧
      (∀ o e, Holds tdb' (update chain i (l₁ ++ l₂')) o e ↔ Holds tdb chain o e) ∧ l₂' <:+ l₂ ∧
      (res = none ∧ l₂' = [] ∨ ∃ o l e, l₂' = o :: l ∧ res = some (recAt tdb'.convert (view tdb') o) ∧ Holds tdb chain o e) := by
  induction l₂ generalizing tdb bs fl chain fuel with
  | nil =>
    obtain ⟨fuel, rfl⟩ : ∃ k, fuel = k + 1 := ⟨fuel - 1, by omega⟩
    have hsame : update chain i (l₁ ++ []) = chain := by rw [← hc, update_eq_self]
    refine ⟨none, tdb, bs, fl, [], rfl, ?_, ?_, suffix_refl _, .inl ⟨rfl, rfl⟩⟩
    · rw [hsame]
      exact ⟨h, Kept.refl tdb, rfl⟩
    · rw [hsame]
      exact fun _ _ => Iff.rfl
  | cons o l ih =>
    obtain ⟨fuel, rfl⟩ : ∃ k, fuel = k + 1 := ⟨fuel - 1, by omega⟩
    have ho : o ∈ chain i := by rw [hc]; simp
    have hfrom : ChainFrom tdb bs i (lastCell (tdbHashTop tdb.hashSize i) l₁) (o :: l) := by
      have hl := h.links i hi
      rw [hc] at hl
      exact ⟨hl.suffix, fun q hq => h.recs i hi q (by rw [hc]; exact mem_append_right _ hq)⟩
    obtain ⟨-, h0, hread, hnext, hrest⟩ := hfrom.step h
    rw [hrest.links.head] at hnext
    have hnodup : (o :: l).Nodup := hfrom.links.nodup
    have hne : o ≠ l.headD 0 := by
      cases l with
      | nil => exact h0
      | cons q l => exact fun heq => (nodup_cons.mp hnodup).1 (heq ▸ mem_cons_self)
    have hcurrent : tlockOff (tdb.withLocks [o]) = .ok o (tdb.withLocks [o]) := rfl
    rw [headD_cons, nextInChain, bind_ok hcurrent, if_neg h0, bind_ok ((blind_tdbRecRead o).run hread [o]),
      if_neg (by rw [hnext]; exact hne)]
    by_cases hdead : (recAt tdb.convert (view tdb) o).magic = tdbDeadMagic
    · have hd : (recAt tdb.convert (view tdb) o).dead = true := by rw [ListStruct.dead, hdead]; rfl
      obtain ⟨-, hro, htr⟩ := h.ready.transaction
      obtain ⟨tdb₁, bs₁, fl₁, e₁, hed₁, hset₁⟩ := tdbDoDelete_ok h hi hc
      have hset : setTlockOff (recAt tdb.convert (view tdb) o).next (tdb.withLocks [o]) =
          .ok () (tdb.withLocks [l.headD 0]) := by rw [hnext]; rfl
      have hdelete : (if !((tdb.withLocks [l.headD 0]).readOnly || (tdb.withLocks [l.headD 0]).traverseRead) then
          tdbDoDelete o (recAt tdb.convert (view tdb) o) else pure ()) (tdb.withLocks [l.headD 0]) =
          .ok () (tdb₁.withLocks [l.headD 0]) := by
        rw [show (tdb.withLocks [l.headD 0]).readOnly = false from hro,
          show (tdb.withLocks [l.headD 0]).traverseRead = false from htr, if_pos (by decide),
          tdbDoDelete_unlocked (by rw [h.travlocks]; exact not_mem_nil) (by rw [mem_singleton]; exact hne), e₁]
        rfl
      rw [if_neg (by rw [hd]; decide), bind_ok hset, get_bind, bind_ok hdelete]
      obtain ⟨res, tdb₂, bs₂, fl₂, l₂', e₂, hed₂, hholds₂, hsuf, hres⟩ := @ih tdb₁ bs₁ fl₁ _ hed₁.chained
        (by rw [hed₁.kept.hashSize]; exact hi) (update_self ..) fuel (by simpa using hfuel)
      rw [update_idem] at hed₂ hholds₂
      have hsame : ∀ q e, Holds tdb₁ (update chain i (l₁ ++ l)) q e ↔ Holds tdb chain q e := by
        intro q e
        by_cases hq : q = o
        · subst hq
          rw [hset₁.at_ e, Holds, entryAt, if_pos hdead]
          simp
        · exact hset₁.other q hq e
      refine ⟨res, tdb₂, bs₂, fl₂, l₂', e₂, hed₁.trans hed₂, fun q e => (hholds₂ q e).trans (hsame q e),
        hsuf.trans (suffix_cons o l), hres.imp_right ?_⟩
      rintro ⟨q, m, e, hq, hr, he⟩
      exact ⟨q, m, e, hq, hr, (hsame q e).mp he⟩
    · have hd : (recAt tdb.convert (view tdb) o).dead = false := by
        rw [ListStruct.dead, beq_eq_false_iff_ne]
        exact hdead
      have hsame : update chain i (l₁ ++ o :: l) = chain := by rw [← hc, update_eq_self]
      obtain ⟨e, he⟩ : ∃ e, Holds tdb chain o e := ⟨_, ⟨i, hi, ho⟩, if_neg hdead⟩
      rw [if_pos (by rw [hd]; rfl)]
      refine ⟨_, tdb, bs, fl, o :: l, rfl, ?_, ?_, suffix_refl _, .inr ⟨o, l, e, rfl, rfl, he⟩⟩
      · rw [hsame]
        exact ⟨h, Kept.refl tdb, rfl⟩
      · rw [hsame]
        exact fun _ _ => Iff.rfl

theorem leNat_convertIf_eq_zero (cv : Bool) {bs : List UInt8} (h : bs.length = 4) : leNat (convertIf cv bs) = 0 ↔ leNat bs = 0 := by
  match bs, h with
  | [a, b, c, d], _ =>
    cases cv with
    | false => rfl
    | true =>
      simp only [convertIf, if_true, tdbConvert, leNat]
      omega

theorem nextHashChain_ok (h : Chained tdb bs fl chain) (hle : hash ≤ tdb.hashSize) (locks : List Nat) :
    ∃ hash', nextHashChain hash (tdb.withLocks locks) = .ok hash' (tdb.withLocks locks) ∧ hash ≤ hash' ∧
      hash' ≤ tdb.hashSize ∧ ∀ j, hash ≤ j → j < hash' → chain j = [] := by
  rw [nextHashChain, get_bind, show (tdb.withLocks locks).methods = .io from h.ready.methods]
  dsimp only
  rw [show (tdb.withLocks locks).hashSize = tdb.hashSize from rfl]
  obtain ⟨n, hn⟩ : ∃ n, tdb.hashSize = hash + n := ⟨tdb.hashSize - hash, by omega⟩
  rw [show tdb.hashSize - hash = n by omega]
  induction n generalizing hash with
  | zero => exact ⟨hash, rfl, le_rfl, hle, fun j h1 h2 => by omega⟩
  | succ n ih =>
    have hi : hash < tdb.hashSize := by omega
    have hhead : ofsAt tdb.convert (view tdb) (tdbHashTop tdb.hashSize hash) = (chain hash).headD 0 := (h.links hash hi).head
    -- in place or not, the word is zero if the chain is empty
    obtain ⟨off, hoff, hzero⟩ : ∃ off, (if (tdb.withLocks locks).mapPtr then
          pure (some (leNat (read (tdb.withLocks locks).disk.bytes (tdbHashTop (tdb.withLocks locks).hashSize hash) sizeofOff)))
        else attempt (tdbOfsRead (tdbHashTop (tdb.withLocks locks).hashSize hash))) (tdb.withLocks locks) =
          .ok (some off) (tdb.withLocks locks) ∧ (off = 0 ↔ (chain hash).headD 0 = 0) := by
      split
      · refine ⟨_, rfl, ?_⟩
        rw [← hhead, ofsAt, view_io h.ready.methods]
        exact (leNat_convertIf_eq_zero _ (length_read ..)).symm
      · refine ⟨_, attempt_ok ((blind_tdbOfsRead _).run (h.hashTop_ok hash) locks), ?_⟩
        rw [hhead]
    rw [ioNextHashChain, get_bind, bind_ok hoff]
    by_cases h0 : off = 0
    · obtain ⟨hash', e, h1, h2, h3⟩ := @ih (hash + 1) (by omega) (by omega)
      have hnil : chain hash = [] := by
        cases hc : chain hash with
        | nil => rfl
        | cons o l =>
          rw [hc] at hzero
          exact absurd (hzero.mp h0) ((h.links hash hi).ne_null o (by rw [hc]; exact mem_cons_self))
      refine ⟨hash', ?_, by omega, h2, fun j hj1 hj2 => ?_⟩
      · rw [if_pos (by rw [h0])]
        exact e
      · rcases Nat.eq_or_lt_of_le hj1 with rfl | hlt
        · exact hnil
        · exact h3 j hlt hj2
    · exact ⟨hash, by rw [if_neg (by simpa using h0)]; rfl, le_rfl, hle, fun j h1 h2 => by omega⟩

theorem Skips.refl (h : Chained tdb bs fl chain) (ahead : List Nat) : Skips tdb tdb chain bs fl chain ahead ahead :=
  ⟨⟨h, Kept.refl tdb, rfl⟩, fun _ _ => Iff.rfl, List.Sublist.refl _, fun _ ho _ _ => ho⟩

theorem Skips.trans {tdb₁ tdb₂ : TdbContext} {bs₁ bs₂ : List Block} {fl₁ fl₂ : List Nat} {chain₁ chain₂ : Nat → List Nat}
    {a a₁ a₂ : List Nat} (h : Skips tdb tdb₁ chain bs₁ fl₁ chain₁ a a₁) (h' : Skips tdb₁ tdb₂ chain₁ bs₂ fl₂ chain₂ a₁ a₂) :
    Skips tdb tdb₂ chain bs₂ fl₂ chain₂ a a₂ :=
  ⟨h.edited.trans h'.edited, fun o e => (h'.holds o e).trans (h.holds o e), h'.sub.trans h.sub,
    fun o ho e he => h'.live o (h.live o ho e he) e ((h.holds o e).mpr he)⟩

/-- What `tdb_next_lock` finds ahead: nothing that is live, or the first live record, with the rest ahead of it. -/
def Finds (tdb tdb' : TdbContext) (chain : Nat → List Nat) (ahead : List Nat) (res : Option (Nat × ListStruct)) (off : Nat) :
    Prop :=
  ∃ bs' fl' chain', res = none ∧ Skips tdb tdb' chain bs' fl' chain' ahead [] ∨
    ∃ hash l, res = some (hash, recAt tdb'.convert (view tdb') off) ∧ At tdb' chain' hash off l ∧ (∃ e, Holds tdb' chain' off e) ∧
      Skips tdb tdb' chain bs' fl' chain' ahead (off :: (l ++ recordsFrom chain' tdb'.hashSize (hash + 1)))

/-- Through the rest `l₂` of a chain, and on with the chains after it. -/
theorem nextRest_ok (h : Chained tdb bs fl chain) {hash : Nat} (hi : hash < tdb.hashSize) {l₁ l₂ : List Nat}
    (hc : chain hash = l₁ ++ l₂) {fuel : Nat}
    (later : ∀ {tdb₁ bs₁ fl₁ chain₁}, Chained tdb₁ bs₁ fl₁ chain₁ → tdb₁.hashSize = tdb.hashSize → ∃ res tdb' off,
      nextLockLoop fuel false (hash + 1) (tdb₁.withLocks [0]) = .ok res (tdb'.withLocks [off]) ∧
        Finds tdb₁ tdb' chain₁ (recordsFrom chain₁ tdb₁.hashSize (hash + 1)) res off) :
    ∃ res tdb' off, (nextInChain (tdb.mapSize + 1) >>= fun found =>
        match found with
        | some r => return some (hash, r)
        | none => nextLockLoop fuel false (hash + 1)) (tdb.withLocks [l₂.headD 0]) = .ok res (tdb'.withLocks [off]) ∧
      Finds tdb tdb' chain (l₂ ++ recordsFrom chain tdb.hashSize (hash + 1)) res off := by
  have hlength : l₂.length < tdb.mapSize + 1 := by
    have := h.length_chain hi
    rw [hc, length_append] at this
    omega
  obtain ⟨res, tdb₁, bs₁, fl₁, l₂', e₁, hed, hholds, hsuf, hres⟩ := nextInChain_ok h hi hc hlength
  generalize hchain₁ : update chain hash (l₁ ++ l₂') = chain₁ at hed hholds
  have hhere : chain₁ hash = l₁ ++ l₂' := by rw [← hchain₁, update_self]
  have hother : ∀ j, j ≠ hash → chain₁ j = chain j := fun j hj => by rw [← hchain₁, update_of_ne hj]
  have hrest : recordsFrom chain₁ tdb.hashSize (hash + 1) = recordsFrom chain tdb.hashSize (hash + 1) :=
    recordsFrom_congr fun j hj => hother j (by omega)
  have hsize := hed.kept.hashSize
  have hskips : Skips tdb tdb₁ chain bs₁ fl₁ chain₁ (l₂ ++ recordsFrom chain tdb.hashSize (hash + 1))
      (l₂' ++ recordsFrom chain tdb.hashSize (hash + 1)) := by
    refine ⟨hed, hholds, hsuf.sublist.append (List.Sublist.refl _), fun q hq e he => ?_⟩
    rcases mem_append.mp hq with hq | hq
    · -- a live record is still on its chain, and not before the place
      refine mem_append_left _ ?_
      obtain ⟨⟨j, hj, hmem⟩, -⟩ := (hholds q e).mpr he
      have hqc : q ∈ chain hash := by rw [hc]; exact mem_append_right _ hq
      have hjh : j = hash := by
        by_contra hne
        rw [hother j hne] at hmem
        exact hne (h.bucket_unique (by rw [← hsize]; exact hj) hi hmem hqc)
      rw [hjh, hhere] at hmem
      refine (mem_append.mp hmem).resolve_left fun hl₁ => ?_
      have hnodup := (h.links hash hi).nodup
      rw [hc] at hnodup
      exact (nodup_append.mp hnodup).2.2 q hl₁ q hq rfl
    · exact mem_append_right _ hq
  rw [bind_ok e₁]
  rcases hres with ⟨rfl, rfl⟩ | ⟨o, l, e, rfl, rfl, he⟩
  · obtain ⟨res, tdb₂, off, e₂, bs₂, fl₂, chain₂, hfinds⟩ := later hed.chained hsize
    rw [hsize, hrest] at hfinds
    refine ⟨res, tdb₂, off, e₂, bs₂, fl₂, chain₂, hfinds.imp ?_ ?_⟩
    · exact fun ⟨hnone, hskips'⟩ => ⟨hnone, hskips.trans hskips'⟩
    · exact fun ⟨hash', l, hsome, hat, hlive, hskips'⟩ => ⟨hash', l, hsome, hat, hlive, hskips.trans hskips'⟩
  · refine ⟨_, tdb₁, o, rfl, bs₁, fl₁, chain₁, .inr ⟨hash, l, rfl, ⟨by rw [hsize]; exact hi, l₁, hhere⟩,
      ⟨e, (hholds o e).mpr he⟩, ?_⟩⟩
    rw [hsize, hrest]
    exact hskips

theorem recordsFrom_skip {hash' : Nat} {chain : Nat → List Nat} (hle : hash ≤ hash') (hle' : hash' ≤ hashSize)
    (h : ∀ j, hash ≤ j → j < hash' → chain j = []) : recordsFrom chain hashSize hash = recordsFrom chain hashSize hash' := by
  obtain ⟨n, rfl⟩ : ∃ n, hash' = hash + n := ⟨hash' - hash, by omega⟩
  induction n generalizing hash with
  | zero => rfl
  | succ n ih =>
    rw [recordsFrom_of_lt (by omega), h hash le_rfl (by omega), nil_append,
      @ih (hash + 1) (by omega) (by omega) fun j h1 h2 => h j (by omega) (by omega)]
    congr 1
    omega

/-- The loop of `tdb_next_lock` from the start of a chain. -/
theorem nextLockLoop_start (h : Chained tdb bs fl chain) (hle : hash ≤ tdb.hashSize) {fuel : Nat}
    (hfuel : tdb.hashSize - hash < fuel) :
    ∃ res tdb' off, nextLockLoop fuel false hash (tdb.withLocks [0]) = .ok res (tdb'.withLocks [off]) ∧
      Finds tdb tdb' chain (recordsFrom chain tdb.hashSize hash) res off := by
  induction fuel generalizing tdb bs fl chain hash with
  | zero => exact absurd hfuel (Nat.not_lt_zero _)
  | succ fuel ih =>
    rw [nextLockLoop, get_bind, show (tdb.withLocks [0]).hashSize = tdb.hashSize from rfl]
    by_cases hend : tdb.hashSize ≤ hash
    · rw [if_pos hend, recordsFrom_of_ge hend]
      exact ⟨none, tdb, 0, rfl, bs, fl, chain, .inl ⟨rfl, Skips.refl h _⟩⟩
    · have hoff : tlockOff (tdb.withLocks [0]) = .ok 0 (tdb.withLocks [0]) := rfl
      obtain ⟨hash', e', h1, h2, hempty⟩ : ∃ hash', (if 0 = 0 ∧ hash ≠ 0 then nextHashChain hash else pure hash)
          (tdb.withLocks [0]) = .ok hash' (tdb.withLocks [0]) ∧ hash ≤ hash' ∧ hash' ≤ tdb.hashSize ∧
          ∀ j, hash ≤ j → j < hash' → chain j = [] := by
        split
        · exact nextHashChain_ok h hle [0]
        · exact ⟨hash, rfl, le_rfl, hle, fun j h1 h2 => by omega⟩
      rw [if_neg hend, bind_ok hoff, bind_ok e', recordsFrom_skip h1 h2 hempty]
      by_cases hlast : hash' = tdb.hashSize
      · rw [if_pos hlast, recordsFrom_of_ge (le_of_eq hlast.symm)]
        exact ⟨none, tdb, 0, rfl, bs, fl, chain, .inl ⟨rfl, Skips.refl h _⟩⟩
      · have hi : hash' < tdb.hashSize := by omega
        have hhead : (if 0 = 0 then do setTlockOff (← tdbOfsRead (tdbHashTop tdb.hashSize hash')) else pure () : TdbM Unit)
            (tdb.withLocks [0]) = .ok () (tdb.withLocks [(chain hash').headD 0]) := by
          rw [if_pos rfl, bind_ok ((blind_tdbOfsRead _).run (h.hashTop_ok hash') [0]), (h.links hash' hi).head]
          rfl
        rw [if_neg hlast, bind_ok hhead, if_neg (by decide), bind_ok (pure_apply ..), recordsFrom_of_lt hi]
        refine @nextRest_ok tdb bs fl chain h hash' hi [] _ rfl fuel fun {tdb₁ bs₁ fl₁ chain₁} h₁ hsize => ?_
        exact ih h₁ (by rw [hsize]; omega) (by rw [hsize]; omega)

/-- The loop of `tdb_next_lock` from the record a traversal stands at. -/
theorem nextLockLoop_next (h : Chained tdb bs fl chain) (hs : At tdb chain hash o l) {fuel : Nat}
    (hfuel : tdb.hashSize - hash < fuel) :
    ∃ res tdb' off, nextLockLoop fuel true hash (tdb.withLocks [o]) = .ok res (tdb'.withLocks [off]) ∧
      Finds tdb tdb' chain (l ++ recordsFrom chain tdb.hashSize (hash + 1)) res off := by
  obtain ⟨l₁, hc⟩ := hs.split
  have hi := hs.lt
  obtain ⟨fuel, rfl⟩ : ∃ k, fuel = k + 1 := ⟨fuel - 1, by omega⟩
  have hfrom : ChainFrom tdb bs hash (lastCell (tdbHashTop tdb.hashSize hash) l₁) (o :: l) := by
    have hl := h.links hash hi
    rw [hc] at hl
    exact ⟨hl.suffix, fun q hq => h.recs hash hi q (by rw [hc]; exact mem_append_right _ hq)⟩
  obtain ⟨-, h0, hread, hnext, hrest⟩ := hfrom.step h
  rw [hrest.links.head] at hnext
  have hoff : tlockOff (tdb.withLocks [o]) = .ok o (tdb.withLocks [o]) := rfl
  have hset : (do setTlockOff (← tdbRecRead (← tlockOff)).next : TdbM Unit) (tdb.withLocks [o]) =
      .ok () (tdb.withLocks [l.headD 0]) := by
    rw [bind_ok hoff, bind_ok ((blind_tdbRecRead o).run hread [o]), hnext]
    rfl
  rw [nextLockLoop, get_bind, show (tdb.withLocks [o]).hashSize = tdb.hashSize from rfl, if_neg (by omega), bind_ok hoff,
    if_neg (fun hno => h0 hno.1), bind_ok (pure_apply ..), if_neg (by omega), if_neg h0, bind_ok (pure_apply ..), if_pos rfl,
    bind_ok hset]
  refine @nextRest_ok tdb bs fl chain h hash hi (l₁ ++ [o]) l (by rw [hc, append_assoc]; rfl) fuel fun {tdb₁ bs₁ fl₁ chain₁} h₁ hsize => ?_
  exact nextLockLoop_start h₁ (by rw [hsize]; omega) (by rw [hsize]; omega)

/-! ## The traversal -/

theorem offsetAsInt_pos (h0 : off ≠ 0) (h : off < 2 ^ 31) : 0 < offsetAsInt off := by
  unfold offsetAsInt Int.bmod
  dsimp only
  split <;> omega

theorem offsetAsInt_neg (h : 2 ^ 31 ≤ off) (hlt : off < 2 ^ 32) : offsetAsInt off < 0 := by
  unfold offsetAsInt Int.bmod
  dsimp only
  split <;> omega

/-- Where a traversal stands, and the records that are ahead: at the start of the chains, or at a record. -/
def Ahead (tdb : TdbContext) (chain : Nat → List Nat) (hash off : Nat) (ahead : List Nat) : Prop :=
  hash ≤ tdb.hashSize ∧ off = 0 ∧ ahead = recordsFrom chain tdb.hashSize hash ∨
    ∃ l, At tdb chain hash off l ∧ ahead = l ++ recordsFrom chain tdb.hashSize (hash + 1)

theorem nextLockLoop_ok (h : Chained tdb bs fl chain) {ahead : List Nat} (ha : Ahead tdb chain hash off ahead) :
    ∃ res tdb' off', nextLockLoop (tdb.hashSize - hash + 1) (off ≠ 0) hash (tdb.withLocks [off]) =
        .ok res (tdb'.withLocks [off']) ∧ Finds tdb tdb' chain ahead res off' := by
  rcases ha with ⟨hle, rfl, rfl⟩ | ⟨l, hs, rfl⟩
  · rw [show decide (0 ≠ 0) = false from rfl]
    exact nextLockLoop_start h hle (Nat.lt_succ_self _)
  · have h0 : off ≠ 0 := by
      obtain ⟨l₁, hc⟩ := hs.split
      exact (h.links hash hs.lt).ne_null off (by rw [hc]; simp)
    rw [decide_eq_true h0]
    exact nextLockLoop_next h hs (Nat.lt_succ_self _)

/-- `tdb_next_lock`: 0 where nothing that is live is ahead, and else the offset of the first live record, as an `int`. -/
theorem tdbNextLock_ok (h : Chained tdb bs fl chain) {ahead : List Nat} (ha : Ahead tdb chain hash off ahead) :
    ∃ tdb' bs' fl' chain', (∃ off', tdbNextLock hash (tdb.withLocks [off]) = .ok (0, hash, {}) (tdb'.withLocks [off']) ∧
        Skips tdb tdb' chain bs' fl' chain' ahead []) ∨
      ∃ hash' o l, tdbNextLock hash (tdb.withLocks [off]) =
          .ok (offsetAsInt o, hash', recAt tdb'.convert (view tdb') o) (tdb'.withLocks [o]) ∧ At tdb' chain' hash' o l ∧
        (∃ e, Holds tdb' chain' o e) ∧ Skips tdb tdb' chain bs' fl' chain' ahead (o :: (l ++ recordsFrom chain' tdb'.hashSize (hash' + 1))) := by
  obtain ⟨res, tdb₁, off', e, bs₁, fl₁, chain₁, hfinds⟩ := nextLockLoop_ok h ha
  have hoff : tlockOff (tdb.withLocks [off]) = .ok off (tdb.withLocks [off]) := rfl
  rw [tdbNextLock, get_bind, bind_ok hoff, show (tdb.withLocks [off]).hashSize = tdb.hashSize from rfl, bind_ok (attempt_ok e)]
  rcases hfinds with ⟨rfl, hskips⟩ | ⟨hash', l, rfl, hat, hlive, hskips⟩
  · obtain ⟨hed, hholds⟩ := hskips.edited.chained.setEcode .success
    exact ⟨_, bs₁, fl₁, chain₁, .inl ⟨off', rfl, hskips.edited.trans hed, fun o e => (hholds o e).trans (hskips.holds o e),
      hskips.sub, fun o ho e he => hskips.live o ho e he⟩⟩
  · exact ⟨tdb₁, bs₁, fl₁, chain₁, .inr ⟨hash', off', l, rfl, hat, hlive, hskips⟩⟩

/-- The key and the data of the record at which a traversal stands. -/
theorem readEntry_ok (h : Chained tdb bs fl chain) {o : Nat} {e : Entry} (he : Holds tdb chain o e) :
    ∃ buf, attempt (tdbAllocRead (u32 (o + sizeofRec)) (u32 ((recAt tdb.convert (view tdb) o).keyLen +
        (recAt tdb.convert (view tdb) o).dataLen))) (tdb.withLocks locks) = .ok (some buf) (tdb.withLocks locks) ∧
      buf.take (recAt tdb.convert (view tdb) o).keyLen = e.1 ∧
      (buf.drop (recAt tdb.convert (view tdb) o).keyLen).take (recAt tdb.convert (view tdb) o).dataLen = e.2 := by
  obtain ⟨b, hb, rfl, -, hkl, hdl, -, -, hroom, hkey, hdata⟩ := @Chained.holds_rec tdb bs fl chain e.1 h o e.2 he
  have hblk := h.block hb
  have hlt := h.ready.access.size_lt
  unfold sizeofOff at hroom
  rw [hkl, hdl, u32_of_lt (by omega), u32_of_lt (by omega)]
  have hread := @tdbAllocRead_ok tdb h.ready (b.off + sizeofRec) (e.1.length + e.2.length) (by omega)
  have hsplit : read (view tdb) (b.off + sizeofRec) (e.1.length + e.2.length) = e.1 ++ e.2 := by
    rw [read_add, hkey, hdata]
  rw [hsplit] at hread
  refine ⟨e.1 ++ e.2, attempt_ok ((blind_tdbAllocRead _ _).run hread locks), take_left, ?_⟩
  rw [drop_left, take_length]

/-- What is left around an element that is left. -/
theorem sublist_around {l₁ l₁' l' : List Nat} (h : (l₁' ++ o :: l').Sublist (l₁ ++ o :: l))
    (hnodup : (l₁ ++ o :: l).Nodup) : l₁'.Sublist l₁ ∧ l'.Sublist l := by
  obtain ⟨-, hol, hdisjoint⟩ := nodup_append.mp hnodup
  have ho₁ : o ∉ l₁ := fun hmem => hdisjoint o hmem o mem_cons_self rfl
  have ho : o ∉ l := (nodup_cons.mp hol).1
  obtain ⟨a, b, hab, ha, hb⟩ := sublist_append_iff.mp h
  rcases append_eq_append_iff.mp hab with ⟨c, rfl, hc⟩ | ⟨c, rfl, hc⟩
  · cases c with
    | nil =>
      subst hc
      rw [append_nil] at ha
      exact ⟨ha, cons_sublist_cons.mp hb⟩
    | cons x c =>
      cases hc
      exact absurd (ha.subset (by simp)) ho₁
  · subst hc
    cases c with
    | nil =>
      rw [append_nil]
      exact ⟨ha, cons_sublist_cons.mp hb⟩
    | cons x c =>
      -- the element would be behind itself
      refine absurd ?_ ho
      rcases sublist_cons_iff.mp hb with hskip | ⟨r, hr, hskip⟩
      · exact hskip.subset (by simp)
      · cases hr
        exact hskip.subset (by simp)

/-- After a callback that deletes, fewer records are ahead, and all that are live. -/
theorem At.deleted (h : Chained tdb bs fl chain) (hat : At tdb chain hash o l) {tdb' : TdbContext}
    {bs' : List Block} {fl' : List Nat} {map' : Map}
    (hd : Deleted [o] tdb tdb' chain map bs' fl' chain' map') :
    ∃ l', At tdb' chain' hash o l' ∧
      (l' ++ recordsFrom chain' tdb'.hashSize (hash + 1)).Sublist (l ++ recordsFrom chain tdb.hashSize (hash + 1)) ∧
      ∀ q ∈ l ++ recordsFrom chain tdb.hashSize (hash + 1), ∀ e, Holds tdb' chain' q e →
        q ∈ l' ++ recordsFrom chain' tdb'.hashSize (hash + 1) := by
  obtain ⟨l₁, hc⟩ := hat.split
  have hi := hat.lt
  have hsize := hd.edited.kept.hashSize
  have hnodup := (h.links hash hi).nodup
  have ho : o ∈ chain' hash := hd.trims.keep o (mem_singleton.mpr rfl) hash (by rw [hc]; simp)
  obtain ⟨l₁', l', hc'⟩ := append_of_mem ho
  have hsub := hd.trims.sub hash
  rw [hc] at hnodup
  rw [hc, hc'] at hsub
  obtain ⟨hsub₁, hsub₂⟩ := sublist_around hsub hnodup
  refine ⟨l', ⟨by rw [hsize]; exact hi, l₁', hc'⟩, ?_, fun q hq e he => ?_⟩
  · rw [hsize]
    exact hsub₂.append (recordsFrom_sublist hd.trims.sub)
  · obtain ⟨⟨j, hj, hmem⟩, -⟩ := he
    have hqj := (hd.trims.sub j).subset hmem
    rw [hsize] at hj ⊢
    rcases mem_append.mp hq with hl | hr
    · obtain rfl : j = hash := h.bucket_unique hj hi hqj (by rw [hc]; simp [hl])
      obtain ⟨-, hol, hdisjoint⟩ := nodup_append.mp hnodup
      rw [hc', mem_append, mem_cons] at hmem
      rcases hmem with hmem | rfl | hmem
      · exact absurd rfl (hdisjoint q (hsub₁.subset hmem) q (mem_cons_of_mem _ hl))
      · exact absurd hl (nodup_cons.mp hol).1
      · exact mem_append_left _ hmem
    · obtain ⟨j', h1, h2, hq'⟩ := mem_recordsFrom.mp hr
      obtain rfl : j = j' := h.bucket_unique hj h2 hqj hq'
      exact mem_append_right _ (mem_recordsFrom.mpr ⟨j, h1, h2, hmem⟩)

/-- The record at which a traversal stands is not ahead of it. -/
theorem At.notMem (h : Chained tdb bs fl chain) (hat : At tdb chain hash o l) :
    o ∉ l ++ recordsFrom chain tdb.hashSize (hash + 1) := by
  obtain ⟨l₁, hc⟩ := hat.split
  have hnodup := (h.links hash hat.lt).nodup
  rw [hc] at hnodup
  intro hmem
  rcases mem_append.mp hmem with hl | hr
  · exact (nodup_cons.mp (nodup_append.mp hnodup).2.1).1 hl
  · obtain ⟨j, h1, h2, ho⟩ := mem_recordsFrom.mp hr
    have := h.bucket_unique hat.lt h2 (by rw [hc]; simp) ho
    omega

theorem Deleted.fewer {tdb' : TdbContext} {bs' : List Block} {fl' : List Nat} {map' : Map}
    (hm : Represents tdb chain map) (hd : Deleted locks tdb tdb' chain map bs' fl' chain' map') {k d : List UInt8}
    (h : map' k = some d) : map k = some d := by
  obtain ⟨o, ho⟩ := (hd.represents.mem k d).mp h
  exact (hm.mem k d).mpr ⟨o, hd.holds o _ ho⟩

/-- The end of a traversal of the entries on the records `ahead`, from what was passed before. -/
structure Passed {σ : Type} (fn : List UInt8 → List UInt8 → σ → Callback σ) (tdb : TdbContext) (chain : Nat → List Nat) (map : Map)
    (ahead : List Nat) (p : Passing σ) (ret : Int) (p' : Passing σ) (map' : Map) : Prop where
  nodup : (p'.passed.map Prod.fst).Nodup
  before : ∀ e ∈ p.passed, e ∈ p'.passed
  /-- Only entries at offsets that are positive as an `int` are passed. -/
  low : ∀ e ∈ p'.passed, e ∈ p.passed ∨ ∃ o ∈ ahead, Holds tdb chain o e ∧ o < 2 ^ 31
  all : p'.stopped = true ∨ (∃ o ∈ ahead, 2 ^ 31 ≤ o ∧ ∃ e, Holds tdb chain o e) ∨
    ∀ o ∈ ahead, ∀ e, Holds tdb chain o e → map' e.1 = some e.2 → e ∈ p'.passed
  fewer : ∀ k d, map' k = some d → map k = some d
  /-- A callback that deletes nothing leaves the map, and one that does not stop is not recorded as stopping. -/
  idle : (∀ key dbuf q m, ((fn key dbuf q).eval m).2 = m) → map' = map
  unstopped : (∀ key dbuf q m, ((fn key dbuf q).eval m).1.1 = false) → p'.stopped = false

theorem traverseLoop_ok {σ : Type} (fn : List UInt8 → List UInt8 → σ → Callback σ) (h : Chained tdb bs fl chain)
    (hm : Represents tdb chain map) {hash off : Nat} {ahead : List Nat} (ha : Ahead tdb chain hash off ahead) {fuel : Nat}
    (hfuel : ahead.length < fuel) {p : Passing σ} (hnodup : (p.passed.map Prod.fst).Nodup)
    (hnew : ∀ o ∈ ahead, ∀ e, Holds tdb chain o e → e.1 ∉ p.passed.map Prod.fst) (hstopped : p.stopped = false) (count : Nat) :
    ∃ ret p' tdb' locks' map', traverseLoop (logged fn) fuel hash count p (tdb.withLocks [off]) =
        .ok (ret, p') (tdb'.withLocks locks') ∧ Rep tdb' map' ∧ Passed fn tdb chain map ahead p ret p' map' := by
  induction fuel generalizing tdb bs fl chain map hash off ahead p count with
  | zero => exact absurd hfuel (Nat.not_lt_zero _)
  | succ fuel ih =>
    obtain ⟨tdb₁, bs₁, fl₁, chain₁, hnext⟩ := tdbNextLock_ok h ha
    rcases hnext with ⟨off', e₁, hskips⟩ | ⟨hash', o, l, e₁, hat, ⟨e, he⟩, hskips⟩
    · -- nothing that is live is ahead
      rw [traverseLoop, bind_ok e₁]
      refine ⟨count, p, tdb₁, [off'], map, rfl, ⟨bs₁, fl₁, chain₁, hskips.edited.chained, hm.congr hskips.holds⟩, hnodup,
        fun e he => he, fun e he => .inl he, .inr (.inr fun o ho e he _ => ?_), fun _ _ hd => hd, fun _ => rfl, fun _ => hstopped⟩
      cases hskips.live o ho e he
    · have ho : o ∈ ahead := hskips.sub.subset mem_cons_self
      have hlive : Holds tdb chain o e := (hskips.holds o e).mp he
      have h₁ := hskips.edited.chained
      have hm₁ : Represents tdb₁ chain₁ map := hm.congr hskips.holds
      have hmem : o ∈ chain₁ hash' := by
        obtain ⟨l₁, hc⟩ := hat.split
        rw [hc]
        simp
      obtain ⟨b, hb, hboff, -⟩ := h₁.recs hash' hat.lt o hmem
      have hblk := h₁.block hb
      have hlt := h₁.ready.access.size_lt
      rw [traverseLoop, bind_ok e₁]
      dsimp only
      rcases Nat.lt_or_ge o (2 ^ 31) with hlow | hhigh
      · have hpos : offsetAsInt o > 0 := by
          exact offsetAsInt_pos ((h₁.links hash' hat.lt).ne_null o hmem) hlow
        obtain ⟨buf, hread, hkey, hdata⟩ := @readEntry_ok tdb₁ bs₁ fl₁ chain₁ [o] h₁ o e he
        obtain ⟨tdb₂, bs₂, fl₂, chain₂, e₂, hdel⟩ := @Callback.run_ok tdb₁ bs₁ fl₁ chain₁ map [o] σ h₁ hm₁
          (fn e.1 e.2 p.privateData)
        have hoff : tlockOff (tdb₁.withLocks [o]) = .ok o (tdb₁.withLocks [o]) := rfl
        rw [if_pos hpos, bind_ok hoff, bind_ok hread]
        dsimp only
        rw [hkey, hdata]
        obtain ⟨⟨⟨stop, privateData⟩, map₂⟩, heval⟩ : ∃ r, (fn e.1 e.2 p.privateData).eval map = r := ⟨_, rfl⟩
        rw [heval] at e₂ hdel
        have hlogged : logged fn e.1 e.2 p (tdb₁.withLocks [o]) =
            .ok (stop, ⟨p.passed ++ [e], stop, privateData⟩) (tdb₂.withLocks [o]) := by
          rw [logged, bind_ok e₂]
          rfl
        have hfresh := hnew o ho e hlive
        have hnodup₂ : ((p.passed ++ [e]).map Prod.fst).Nodup := by
          rw [map_append, map_cons, map_nil]
          refine nodup_append.mpr ⟨hnodup, by simp, fun a ha b hb => ?_⟩
          rw [mem_singleton] at hb
          exact fun hab => hfresh (by rw [← hb, ← hab]; exact ha)
        have hbefore₂ : ∀ a ∈ p.passed, a ∈ p.passed ++ [e] := fun a ha => mem_append_left _ ha
        have hlow₂ : ∀ a ∈ p.passed ++ [e], a ∈ p.passed ∨ ∃ o ∈ ahead, Holds tdb chain o a ∧ o < 2 ^ 31 := by
          intro a ha
          rcases mem_append.mp ha with ha | ha
          · exact .inl ha
          · obtain rfl := mem_singleton.mp ha
            exact .inr ⟨o, ho, hlive, hlow⟩
        have hdead : ∀ q a, Holds tdb₂ chain₂ q a → Holds tdb chain q a := fun q a ha => (hskips.holds q a).mp (hdel.holds q a ha)
        rw [bind_ok hlogged]
        cases stop with
        | true =>
          refine ⟨_, _, tdb₂, [o], map₂, rfl, ⟨bs₂, fl₂, chain₂, hdel.edited.chained, hdel.represents⟩, hnodup₂, hbefore₂, hlow₂,
            .inl rfl, fun k d hd => hdel.fewer hm₁ hd, fun hidle => ?_, fun hun => ?_⟩
          · have := hidle e.1 e.2 p.privateData map
            rw [heval] at this
            exact this
          · have := hun e.1 e.2 p.privateData map
            rw [heval] at this
            cases this
        | false =>
          obtain ⟨l', hat₂, hsub₂, hlive₂⟩ := hat.deleted h₁ hdel
          have hahead : ∀ q ∈ l' ++ recordsFrom chain₂ tdb₂.hashSize (hash' + 1), q ∈ ahead := fun q hq =>
            hskips.sub.subset (mem_cons_of_mem _ (hsub₂.subset hq))
          have hlength : (l' ++ recordsFrom chain₂ tdb₂.hashSize (hash' + 1)).length < fuel := by
            have h1 := hskips.sub.length_le
            have h2 := hsub₂.length_le
            rw [length_cons] at h1
            omega
          have hnew₂ : ∀ q ∈ l' ++ recordsFrom chain₂ tdb₂.hashSize (hash' + 1), ∀ a, Holds tdb₂ chain₂ q a →
              a.1 ∉ (p.passed ++ [e]).map Prod.fst := by
            intro q hq a ha
            have hold := hdead q a ha
            rw [map_append, mem_append, not_or]
            refine ⟨hnew q (hahead q hq) a hold, fun hmem => ?_⟩
            rw [map_cons, map_nil, mem_singleton] at hmem
            have hqo : q = o := @Represents.unique tdb chain map hm q o a.1 a.2 e.2 hold (by rw [hmem]; exact hlive)
            rw [hqo] at hq
            exact hat.notMem h₁ (hsub₂.subset hq)
          obtain ⟨ret, p', tdb', locks', map', e', hrep, hpassed⟩ := @ih tdb₂ bs₂ fl₂ chain₂ map₂ hdel.edited.chained
            hdel.represents hash' o _ (.inr ⟨l', hat₂, rfl⟩) hlength ⟨p.passed ++ [e], false, privateData⟩ hnodup₂ hnew₂ rfl (count + 1)
          refine ⟨ret, p', tdb', locks', map', e', hrep, hpassed.nodup, fun a ha => hpassed.before a (hbefore₂ a ha), fun a ha => ?_,
            ?_, fun k d hd => hdel.fewer hm₁ (hpassed.fewer k d hd), fun hidle => ?_, hpassed.unstopped⟩
          · rcases hpassed.low a ha with ha | ⟨q, hq, ha, hqlow⟩
            · exact hlow₂ a ha
            · exact .inr ⟨q, hahead q hq, hdead q a ha, hqlow⟩
          · refine hpassed.all.imp_right (Or.imp ?_ ?_)
            · rintro ⟨q, hq, hhigh, a, ha⟩
              exact ⟨q, hahead q hq, hhigh, a, hdead q a ha⟩
            · intro hall q hq a ha hend
              -- what is there at the end is there after the callback
              obtain ⟨q', hq'⟩ := (hdel.represents.mem a.1 a.2).mp (hpassed.fewer _ _ hend)
              obtain rfl : q' = q := hm.unique (hdead q' _ hq') ha
              rcases mem_cons.mp (hskips.live q' hq a ha) with rfl | hlater
              · have hsame : a = e := Option.some.inj (ha.2.symm.trans hlive.2)
                rw [hsame]
                exact hpassed.before e (mem_append_right _ (mem_singleton.mpr rfl))
              · exact hall q' (hlive₂ q' hlater a hq') a hq' hend
          · have := hidle e.1 e.2 p.privateData map
            rw [heval] at this
            exact (hpassed.idle hidle).trans this
      · have hneg : offsetAsInt o < 0 := offsetAsInt_neg hhigh (by omega)
        rw [if_neg (by omega), if_pos hneg]
        refine ⟨-1, p, tdb₁, [o], map, rfl, ⟨bs₁, fl₁, chain₁, h₁, hm₁⟩, hnodup, fun e he => he, fun e he => .inl he,
          .inr (.inl ⟨o, ho, hhigh, e, hlive⟩), fun _ _ hd => hd, fun _ => rfl, fun _ => hstopped⟩

theorem withLocks_nil {tdb : TdbContext} (h : tdb.travlocks = []) : tdb.withLocks [] = tdb := by
  rw [TdbContext.withLocks, ← h]

theorem length_recordsFrom (h : Chained tdb bs fl chain) : (recordsFrom chain tdb.hashSize 0).length < tdb.mapSize + 1 := by
  have hnodup : (recordsFrom chain tdb.hashSize 0).Nodup := by
    refine nodup_flatMap.mpr ⟨fun j hj => (h.links j ?_).nodup, ?_⟩
    · rw [mem_range'_1] at hj
      omega
    · refine List.Pairwise.imp_of_mem ?_ nodup_range'
      intro i j hi hj hne o hoi hoj
      rw [mem_range'_1] at hi hj
      exact hne (h.bucket_unique (by omega) (by omega) hoi hoj)
  have hsub : recordsFrom chain tdb.hashSize 0 ⊆ (used bs).map (·.off) := by
    intro o ho
    obtain ⟨j, -, hj, hmem⟩ := mem_recordsFrom.mp ho
    obtain ⟨b, hb, hoff, -⟩ := h.recs j hj o hmem
    exact mem_map.mpr ⟨b, hb, hoff⟩
  have h1 := List.Nodup.length_le_of_subset hnodup hsub
  have h2 := length_filter_le (!·.free) bs
  have h3 := h.heap.tiles.length_le
  rw [length_map] at h1
  unfold used at h1
  omega

/-- `tdb_traverse` with a callback that stores nothing returns, and leaves a database. -/
theorem tdbTraverse_ok {σ : Type} (fn : List UInt8 → List UInt8 → σ → Callback σ) (h : Chained tdb bs fl chain)
    (hm : Represents tdb chain map) (privateData : σ) :
    ∃ ret p tdb' map', tdbTraverse (logged fn) ⟨[], false, privateData⟩ tdb = .ok (ret, p) tdb' ∧ Rep tdb' map' ∧
      Passed fn tdb chain map (recordsFrom chain tdb.hashSize 0) ⟨[], false, privateData⟩ ret p map' := by
  obtain ⟨-, hro, htr⟩ := h.ready.transaction
  obtain ⟨ret, p, tdb', locks', map', e, hrep, hpassed⟩ := @traverseLoop_ok tdb bs fl chain map σ fn h hm 0 0 _
    (.inl ⟨Nat.zero_le _, rfl, rfl⟩) (tdb.mapSize + 1) (length_recordsFrom h) ⟨[], false, privateData⟩ nodup_nil
    (fun _ _ _ _ => not_mem_nil) rfl 0
  obtain ⟨bs', fl', chain', h', -⟩ := id hrep
  refine ⟨ret, p, tdb', map', ?_, hrep, hpassed⟩
  have hlock : (modify fun t => { t with travlocks := 0 :: t.travlocks } : TdbM PUnit) tdb = .ok () (tdb.withLocks [0]) := by
    rw [modify_apply, h.travlocks]
    rfl
  have hunlock : (modify fun t => { t with travlocks := tdb.travlocks } : TdbM PUnit) (tdb'.withLocks locks') = .ok () tdb' := by
    rw [modify_apply, h.travlocks]
    exact congrArg _ (withLocks_nil h'.travlocks)
  rw [tdbTraverse, get_bind, if_neg (by simp [hro, htr]), tdbTraverseInternal, get_bind, bind_ok hlock, bind_ok e, bind_ok hunlock]
  rfl

end Steps

/-! ## Passed once -/

/-- The key is there, with its data. -/
def Present (tdb : TdbContext) (key dbuf : List UInt8) : Prop := ∃ tdb', tdbFetch key tdb = .ok (some dbuf) tdb'

/-- No record is passed twice and, unless the callback stops the traversal, each record that is there before and after is passed. -/
def PassesOnce {σ : Type} (fn : List UInt8 → List UInt8 → σ → Callback σ) (privateData : σ) (tdb : TdbContext) : Prop :=
  ∃ ret p tdb', tdbTraverse (logged fn) ⟨[], false, privateData⟩ tdb = .ok (ret, p) tdb' ∧ (p.passed.map Prod.fst).Nodup ∧
    (p.stopped = true ∨ ∀ key dbuf, Present tdb key dbuf → Present tdb' key dbuf → (key, dbuf) ∈ p.passed)

/-- No record lies at 2 GiB or behind. -/
def RecordsLow (tdb : TdbContext) : Prop :=
  ∀ key o r tdb', tdbFind key (tdb.hashFn key).toNat tdb = .ok (o, r) tdb' → o < 2 ^ 31

section Once

variable {tdb : TdbContext} {map : Map}

theorem Rep.present_iff (h : Rep tdb map) {key dbuf : List UInt8} : Present tdb key dbuf ↔ map key = some dbuf := by
  obtain ⟨tdb', e, -⟩ := tdbFetch_ok h key
  constructor
  · rintro ⟨tdb'', e'⟩
    exact (EStateM.Result.ok.inj (e.symm.trans e')).1
  · intro hd
    exact ⟨tdb', by rw [e, hd]⟩

theorem recordsLow_iff {bs : List Block} {fl : List Nat} {chain : Nat → List Nat} (h : Chained tdb bs fl chain)
    (hm : Represents tdb chain map) : RecordsLow tdb ↔ ∀ o e, Holds tdb chain o e → o < 2 ^ 31 := by
  constructor
  · intro hlow o e he
    have hd : map e.1 = some e.2 := (hm.mem e.1 e.2).mpr ⟨o, he⟩
    obtain ⟨o', he', hfind⟩ := tdbFind_some h hm hd
    obtain rfl : o' = o := hm.unique he' he
    exact hlow e.1 o' _ _ hfind
  · intro hlow key o r tdb' hfind
    rcases tdbFind_ok h key with ⟨o', d, he, e⟩ | ⟨-, e⟩
    · cases e.symm.trans hfind
      exact hlow o _ he
    · cases e.symm.trans hfind

/-- Below 2 GiB, every callback gets every record. -/
theorem RecordsLow.passesOnce (h : Rep tdb map) (hlow : RecordsLow tdb) {σ : Type} (fn : List UInt8 → List UInt8 → σ → Callback σ)
    (privateData : σ) : PassesOnce fn privateData tdb := by
  obtain ⟨bs, fl, chain, hch, hm⟩ := id h
  obtain ⟨ret, p, tdb', map', e, hrep, hpassed⟩ := tdbTraverse_ok fn hch hm privateData
  refine ⟨ret, p, tdb', e, hpassed.nodup, hpassed.all.imp_right ?_⟩
  rintro (⟨o, -, hhigh, a, ha⟩ | hall) key dbuf hbefore hafter
  · have := (recordsLow_iff hch hm).mp hlow o a ha
    omega
  · obtain ⟨o, ho⟩ := (hm.mem key dbuf).mp (h.present_iff.mp hbefore)
    obtain ⟨j, hj, hmem⟩ := ho.1
    exact hall o (mem_recordsFrom.mpr ⟨j, Nat.zero_le _, hj, hmem⟩) _ ho (hrep.present_iff.mp hafter)

/-- A callback that does nothing does not get a record from 2 GiB on. -/
theorem recordsLow_of_passesOnce (h : Rep tdb map) (hpasses : PassesOnce (fun _ _ (s : Unit) => .done false s) () tdb) :
    RecordsLow tdb := by
  obtain ⟨bs, fl, chain, hch, hm⟩ := id h
  obtain ⟨ret, p, tdb', map', e, hrep, hpassed⟩ := tdbTraverse_ok (fun _ _ (s : Unit) => .done false s) hch hm ()
  obtain ⟨ret', p', tdb'', e', -, hall⟩ := hpasses
  cases e.symm.trans e'
  have hmap : map' = map := hpassed.idle fun _ _ _ _ => rfl
  have hstopped : p.stopped = false := hpassed.unstopped fun _ _ _ _ => rfl
  rw [hmap] at hrep
  refine (recordsLow_iff hch hm).mpr fun o a ha => ?_
  have hd : map a.1 = some a.2 := (hm.mem a.1 a.2).mpr ⟨o, ha⟩
  have hin : a ∈ p.passed := (hall.resolve_left (by rw [hstopped]; decide)) a.1 a.2 (h.present_iff.mpr hd) (hrep.present_iff.mpr hd)
  rcases hpassed.low a hin with hno | ⟨o', -, ha', hlow⟩
  · cases hno
  · obtain rfl : o' = o := hm.unique ha' ha
    exact hlow

/-- A traversal passes each record once for every callback exactly if none lies at 2 GiB or behind. -/
theorem Rep.passesOnce_iff (h : Rep tdb map) :
    (∀ (σ : Type) (fn : List UInt8 → List UInt8 → σ → Callback σ) (privateData : σ), PassesOnce fn privateData tdb) ↔
      RecordsLow tdb :=
  ⟨fun hall => recordsLow_of_passesOnce h (hall Unit _ ()), fun hlow _ fn privateData => hlow.passesOnce h fn privateData⟩

end Once

/-! ## After stores and deletes -/

/-- After any calls on a new database that keep it below 4 GiB, `tdb_traverse` passes each record once, whatever its callback deletes,
exactly if no record lies at 2 GiB or behind. -/
theorem traverse_passesOnce_iff {args : OpenArgs} (hargs : args.Valid) (mem : Mem) {calls : List DbCall}
    (hsize : SizesFit (fun _ => none) (tdbNewDatabase args mem) calls) :
    ∃ tdb, runCalls calls (tdbNewDatabase args mem) = .ok (mapReplies (fun _ => none) calls) tdb ∧
      ((∀ (σ : Type) (fn : List UInt8 → List UInt8 → σ → Callback σ) (privateData : σ), PassesOnce fn privateData tdb) ↔
        RecordsLow tdb) := by
  obtain ⟨tdb, e, hrep⟩ := runCalls_ok (tdbNewDatabase_rep hargs mem) hsize
  exact ⟨tdb, e, hrep.passesOnce_iff⟩

theorem recordsLow_of_mapSize_le {tdb : TdbContext} {map : Map} (h : Rep tdb map) (hsize : tdb.mapSize ≤ 2 ^ 31) : RecordsLow tdb := by
  obtain ⟨bs, fl, chain, hch, hm⟩ := h
  refine (recordsLow_iff hch hm).mpr fun o e he => ?_
  obtain ⟨b, hb, rfl, -⟩ := @Chained.holds_rec tdb bs fl chain e.1 hch o e.2 he
  have := hch.block hb
  omega

/-- Two records with the same data. -/
def twoStores (dbuf : List UInt8) : List DbCall := [.store [1] dbuf .insert, .store [2] dbuf .insert]

theorem twoStores_ok {tdb : TdbContext} (h : Rep tdb fun _ => none) (dbuf : List UInt8)
    (hw : tdb.mapSize + (dbuf.length * 20 + 580) + 2 * tdb.pageSize ≤ 2 ^ 32) :
    ∃ tdb' map, runCalls (twoStores dbuf) tdb = .ok [.status true, .status true] tdb' ∧ Rep tdb' map ∧ Kept tdb tdb' ∧
      tdb'.mapSize ≤ tdb.mapSize + (dbuf.length * 20 + 580) + 2 * tdb.pageSize ∧
      map [1] = some dbuf ∧ map [2] = some dbuf := by
  have hw₁ : NoWrap tdb (([1] : List UInt8).length + dbuf.length) := by
    unfold NoWrap
    rw [length_singleton]
    omega
  obtain ⟨tdb₁, e₁, hrep₁, hen₁⟩ := tdbStore_ok h [1] dbuf .insert hw₁
  have hsize₁ := hen₁.mapSize_le
  simp only [length_singleton] at hsize₁
  have hw₂ : NoWrap tdb₁ (([2] : List UInt8).length + dbuf.length) := by
    unfold NoWrap
    rw [hen₁.kept.pageSize, length_singleton]
    omega
  obtain ⟨tdb₂, e₂, hrep₂, hen₂⟩ := tdbStore_ok hrep₁ [2] dbuf .insert hw₂
  have hsize₂ := hen₂.mapSize_le
  rw [hen₁.kept.pageSize, length_singleton] at hsize₂
  refine ⟨tdb₂, _, ?_, hrep₂, hen₁.kept.trans hen₂.kept, by omega, rfl, rfl⟩
  have hrun₁ : (DbCall.store [1] dbuf .insert).run tdb = .ok (.status true) tdb₁ := bind_ok (attempt_ok e₁)
  have hrun₂ : (DbCall.store [2] dbuf .insert).run tdb₁ = .ok (.status true) tdb₂ := bind_ok (attempt_ok e₂)
  exact (bind_ok hrun₁).trans (bind_ok ((bind_ok hrun₂).trans (bind_ok rfl)))

theorem newFile_passesOnce : ∃ tdb, runCalls (twoStores [10]) newFile = .ok [.status true, .status true] tdb ∧
    ∀ (σ : Type) (fn : List UInt8 → List UInt8 → σ → Callback σ) (privateData : σ), PassesOnce fn privateData tdb := by
  have hsize : SizesFit (fun _ => none) newFile (twoStores [10]) := by decide +kernel
  obtain ⟨tdb, e, hiff⟩ := traverse_passesOnce_iff newFileArgs_valid (fun _ => 0) hsize
  have hw : newFile.mapSize + (1 * 20 + 580) + 2 * newFile.pageSize ≤ 2 ^ 31 := by decide
  have hnew : Rep newFile fun _ => none := tdbNewDatabase_rep newFileArgs_valid fun _ => 0
  obtain ⟨tdb', map, e', hrep, -, hle, -⟩ := twoStores_ok hnew [10] (hw.trans (by decide))
  obtain rfl : tdb = tdb' := (EStateM.Result.ok.inj (e.symm.trans e')).2
  exact ⟨tdb, e', hiff.mpr (recordsLow_of_mapSize_le hrep (hle.trans hw))⟩

/-- A hash table of almost 2 GiB. -/
def hugeArgs : OpenArgs := ⟨536869845, false, false, false, false, true, fun _ => 0, 4096, 0⟩

theorem hugeArgs_valid : hugeArgs.Valid := ⟨by decide, by decide, 12, by decide, rfl⟩

def hugeFile : TdbContext := tdbNewDatabase hugeArgs fun _ => 0

/-- One of the two records does not lie below 2 GiB any more. -/
theorem hugeFile_not_passesOnce : ∃ tdb,
    runCalls (twoStores (List.replicate 5000 0)) hugeFile = .ok [.status true, .status true] tdb ∧
      ¬ PassesOnce (fun _ _ (s : Unit) => .done false s) () tdb := by
  have hlen : (List.replicate 5000 (0 : UInt8)).length = 5000 := length_replicate ..
  generalize hdbuf : List.replicate 5000 (0 : UInt8) = dbuf at hlen
  have hw : hugeFile.mapSize + (dbuf.length * 20 + 580) + 2 * hugeFile.pageSize ≤ 2 ^ 32 := by
    rw [hlen]
    decide
  obtain ⟨tdb, map, e, hrep, hkept, -, hd₁, hd₂⟩ := twoStores_ok (tdbNewDatabase_rep hugeArgs_valid fun _ => 0) dbuf hw
  refine ⟨tdb, e, fun hpasses => ?_⟩
  obtain ⟨bs, fl, chain, hch, hm⟩ := id hrep
  have hlow := (recordsLow_iff hch hm).mp (recordsLow_of_passesOnce hrep hpasses)
  obtain ⟨o₁, ho₁⟩ := (hm.mem [1] dbuf).mp hd₁
  obtain ⟨o₂, ho₂⟩ := (hm.mem [2] dbuf).mp hd₂
  have hlow₁ := hlow o₁ _ ho₁
  have hlow₂ := hlow o₂ _ ho₂
  obtain ⟨b₁, hb₁, rfl, -, -, -, -, -, hroom₁, -⟩ := hch.holds_rec ho₁
  obtain ⟨b₂, hb₂, rfl, -, -, -, -, -, hroom₂, -⟩ := hch.holds_rec ho₂
  have hne : b₁ ≠ b₂ := by
    rintro rfl
    have hsame := Option.some.inj (ho₁.2.symm.trans ho₂.2)
    cases hsame
  have happart := hch.heap.tiles.apart (hch.block hb₁).1 (hch.block hb₂).1 hne
  have hstart₁ := (hch.heap.tiles.bounds b₁ (hch.block hb₁).1).1
  have hstart₂ := (hch.heap.tiles.bounds b₂ (hch.block hb₂).1).1
  have hstart : tdbDataStart tdb.hashSize + 4 = 2147479552 := by
    rw [hkept.hashSize]
    decide
  unfold BlocksApart Block.stop at happart
  omega

end Samba.Tdb
