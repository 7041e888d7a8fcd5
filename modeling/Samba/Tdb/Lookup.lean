/-
The map of a database: each key is in one record, on the chain of its bucket. Looking a key up finds its record, and a change of
one record changes the map at one key.
-/
import Samba.Tdb.ChainEdit

namespace Samba.Tdb

open Bytes Function Links

/-! ## Finite maps -/

/-- The data of each key. -/
abbrev Map := List UInt8 → Option (List UInt8)

/-- The chains hold the entries of the map, each in one record. -/
structure Represents (tdb : TdbContext) (chain : Nat → List Nat) (map : Map) : Prop where
  mem : ∀ k d, map k = some d ↔ ∃ o, Holds tdb chain o (k, d)
  unique : ∀ {o o' k d d'}, Holds tdb chain o (k, d) → Holds tdb chain o' (k, d') → o = o'

/-- A database that represents a map. -/
def Rep (tdb : TdbContext) (map : Map) : Prop :=
  ∃ bs fl chain, Chained tdb bs fl chain ∧ Represents tdb chain map

namespace Represents

variable {tdb tdb' : TdbContext} {chain chain' : Nat → List Nat} {map : Map}

theorem congr (h : Represents tdb chain map) (hh : ∀ o e, Holds tdb' chain' o e ↔ Holds tdb chain o e) :
    Represents tdb' chain' map := by
  refine ⟨fun k d => ?_, fun ho ho' => h.unique ((hh _ _).mp ho) ((hh _ _).mp ho')⟩
  rw [h.mem]
  simp only [hh]

theorem eq_none (h : Represents tdb chain map) {key : List UInt8} :
    map key = none ↔ ∀ o d, ¬ Holds tdb chain o (key, d) := by
  rw [Option.eq_none_iff_forall_ne_some]
  constructor
  · intro hn o d hd
    exact hn d ((h.mem key d).mpr ⟨o, hd⟩)
  · intro hn d hd
    obtain ⟨o, ho⟩ := (h.mem key d).mp hd
    exact hn o d ho

/-- One record changes what it holds for one key. -/
theorem set (h : Represents tdb chain map) {o : Nat} {new : Option Entry} {key : List UInt8}
    (hs : Sets tdb tdb' chain chain' o new) (hnew : ∀ e, new = some e → e.1 = key)
    (hold : ∀ e, Holds tdb chain o e → e.1 = key) (hkey : ∀ o' d, Holds tdb chain o' (key, d) → o' = o) :
    Represents tdb' chain' (update map key (new.map Prod.snd)) := by
  have hcases : ∀ o' e, Holds tdb' chain' o' e ↔ o' = o ∧ new = some e ∨ e.1 ≠ key ∧ Holds tdb chain o' e := by
    intro o' e
    by_cases ho : o' = o
    · subst ho
      rw [hs.at_]
      constructor
      · exact fun he => .inl ⟨rfl, he⟩
      · rintro (⟨-, he⟩ | ⟨hne, he⟩)
        exacts [he, absurd (hold e he) hne]
    · rw [hs.other o' ho]
      constructor
      · intro he
        refine .inr ⟨fun hek => ho (hkey o' e.2 ?_), he⟩
        rw [← hek]
        exact he
      · rintro (⟨ho', -⟩ | ⟨-, he⟩)
        exacts [absurd ho' ho, he]
  refine ⟨fun k d => ?_, fun {o₁ o₂ k d d'} h₁ h₂ => ?_⟩
  · by_cases hk : k = key
    · subst hk
      rw [update_self]
      constructor
      · intro hd
        obtain ⟨e, he, rfl⟩ := Option.map_eq_some_iff.mp hd
        obtain rfl := hnew e he
        exact ⟨o, (hcases _ _).mpr (.inl ⟨rfl, he⟩)⟩
      · rintro ⟨o', ho'⟩
        rcases (hcases _ _).mp ho' with ⟨-, he⟩ | ⟨hne, -⟩
        · rw [he]
          rfl
        · exact absurd rfl hne
    · rw [update_of_ne hk, h.mem]
      refine exists_congr fun o' => ?_
      rw [hcases]
      constructor
      · exact fun he => .inr ⟨hk, he⟩
      · rintro (⟨-, he⟩ | ⟨-, he⟩)
        exacts [absurd (hnew _ he) hk, he]
  · rcases (hcases _ _).mp h₁ with ⟨rfl, e₁⟩ | ⟨hne, e₁⟩
    · rcases (hcases _ _).mp h₂ with ⟨rfl, -⟩ | ⟨hne, -⟩
      · rfl
      · exact absurd (hnew _ e₁) hne
    · rcases (hcases _ _).mp h₂ with ⟨-, e₂⟩ | ⟨-, e₂⟩
      · exact absurd (hnew _ e₂) hne
      · exact h.unique e₁ e₂

end Represents

section Calls

variable {tdb : TdbContext} {bs : List Block} {fl : List Nat} {chain : Nat → List Nat} {map : Map} {key : List UInt8}

/-! ## Looking up -/

theorem tdbFind_some (h : Chained tdb bs fl chain) (hm : Represents tdb chain map) {d : List UInt8}
    (hd : map key = some d) : ∃ o, Holds tdb chain o (key, d) ∧
      tdbFind key (tdb.hashFn key).toNat tdb = .ok (o, recAt tdb.convert (view tdb) o) tdb := by
  rcases tdbFind_ok h key with ⟨o, d', ho, e⟩ | ⟨hnone, -⟩
  · have := (hm.mem key d').mpr ⟨o, ho⟩
    rw [hd] at this
    cases this
    exact ⟨o, ho, e⟩
  · rw [hm.eq_none.mpr hnone] at hd
    cases hd

theorem tdbFind_none (h : Chained tdb bs fl chain) (hm : Represents tdb chain map) (hd : map key = none) :
    tdbFind key (tdb.hashFn key).toNat tdb = .error .failed { tdb with ecode := .errNoexist } := by
  rcases tdbFind_ok h key with ⟨o, d, ho, -⟩ | ⟨-, e⟩
  · exact absurd ho (hm.eq_none.mp hd o d)
  · exact e

theorem Rep.setEcode (h : Rep tdb map) (e : TdbError) : Rep { tdb with ecode := e } map := by
  obtain ⟨bs, fl, chain, hch, hm⟩ := h
  obtain ⟨hed, hholds⟩ := hch.setEcode e
  exact ⟨bs, fl, chain, hed.chained, hm.congr hholds⟩

/-- What is known of the record that holds an entry. -/
theorem Chained.holds_rec (h : Chained tdb bs fl chain) {o : Nat} {d : List UInt8} (ho : Holds tdb chain o (key, d)) :
    ∃ b ∈ used bs, b.off = o ∧ (recAt tdb.convert (view tdb) o).magic = tdbMagic ∧
      (recAt tdb.convert (view tdb) o).keyLen = key.length ∧ (recAt tdb.convert (view tdb) o).dataLen = d.length ∧
      (recAt tdb.convert (view tdb) o).fullHash = (tdb.hashFn key).toNat ∧
      (recAt tdb.convert (view tdb) o).recLen = b.len ∧ key.length + d.length + sizeofOff ≤ b.len ∧
      read (view tdb) (o + sizeofRec) key.length = key ∧
      read (view tdb) (o + sizeofRec + key.length) d.length = d := by
  obtain ⟨⟨i, hi, hmem⟩, hentry⟩ := ho
  obtain ⟨b, hb, rfl, hok⟩ := h.recs i hi o hmem
  have hlen := ((h.heap.ok b (h.block hb).1).recAt).1
  have he := hentry
  rw [entryAt] at hentry
  split at hentry
  · cases hentry
  case isFalse hdead =>
    have hmagic := hok.magic.resolve_right hdead
    obtain ⟨hroom, hhash⟩ := hok.live hmagic
    have hhash := hhash _ he
    generalize recAt tdb.convert (view tdb) b.off = r at *
    simp only [Option.some.injEq, Prod.mk.injEq] at hentry
    obtain ⟨hk, hd⟩ := hentry
    have hkl : r.keyLen = key.length := by rw [← hk, length_read]
    have hdl : r.dataLen = d.length := by rw [← hd, length_read]
    rw [hkl] at hk hd hroom
    rw [hdl] at hd hroom
    exact ⟨b, hb, rfl, hmagic, hkl, hdl, hhash, hlen, hroom, hk, hd⟩

/-- `tdb_fetch` returns the data of the key, and changes at most the error code. -/
theorem tdbFetch_chained (h : Chained tdb bs fl chain) (hm : Represents tdb chain map) (key : List UInt8) :
    ∃ tdb', tdbFetch key tdb = .ok (map key) tdb' ∧ Edited tdb tdb' bs fl chain ∧
      ∀ o e, Holds tdb' chain o e ↔ Holds tdb chain o e := by
  rw [tdbFetch, get_bind]
  cases hd : map key with
  | none =>
    refine ⟨_, ?_, h.setEcode .errNoexist⟩
    rw [bind_ok (attempt_failed (tdbFind_none h hm hd))]
    rfl
  | some d =>
    obtain ⟨o, ho, e⟩ := tdbFind_some h hm hd
    obtain ⟨b, hb, rfl, -, hkl, hdl, -, -, hroom, -, hdata⟩ := h.holds_rec ho
    have hblk := h.block hb
    have hlt := h.ready.access.size_lt
    unfold sizeofOff at hroom
    refine ⟨tdb, ?_, ⟨h, Kept.refl tdb, rfl⟩, fun _ _ => Iff.rfl⟩
    have hu : u32 (b.off + sizeofRec + key.length) = b.off + sizeofRec + key.length := u32_of_lt (by omega)
    have hread := @tdbAllocRead_ok tdb h.ready (b.off + sizeofRec + key.length) d.length (by omega)
    rw [hdata] at hread
    rw [bind_ok (attempt_ok e)]
    simp only [hkl, hdl, hu]
    exact attempt_ok hread

theorem tdbFetch_ok (h : Rep tdb map) (key : List UInt8) :
    ∃ tdb', tdbFetch key tdb = .ok (map key) tdb' ∧ Rep tdb' map ∧ tdb'.mapSize = tdb.mapSize ∧
      tdb'.pageSize = tdb.pageSize := by
  obtain ⟨bs, fl, chain, hch, hm⟩ := h
  obtain ⟨tdb', e, hed, hholds⟩ := tdbFetch_chained hch hm key
  exact ⟨tdb', e, ⟨bs, fl, chain, hed.chained, hm.congr hholds⟩, hed.mapSize, hed.kept.pageSize⟩

/-- `tdb_exists_hash` says whether the key is there, and changes at most the error code. -/
theorem tdbExistsHash_ok (h : Chained tdb bs fl chain) (hm : Represents tdb chain map) (key : List UInt8) :
    ∃ ecode, tdbExistsHash key (tdb.hashFn key).toNat tdb = .ok (map key).isSome { tdb with ecode := ecode } ∧
      (map key = none → ecode = .errNoexist) := by
  rw [tdbExistsHash]
  cases hd : map key with
  | none =>
    refine ⟨_, ?_, fun _ => rfl⟩
    rw [bind_ok (attempt_failed (tdbFind_none h hm hd))]
    rfl
  | some d =>
    obtain ⟨o, -, e⟩ := tdbFind_some h hm hd
    refine ⟨tdb.ecode, ?_, nofun⟩
    rw [bind_ok (attempt_ok e)]
    rfl

theorem tdbIncrementSeqnum_ok (h : Chained tdb bs fl chain) :
    ∃ tdb', tdbIncrementSeqnum tdb = .ok () tdb' ∧ Edited tdb tdb' bs fl chain ∧
      ∀ o e, Holds tdb' chain o e ↔ Holds tdb chain o e := by
  rw [tdbIncrementSeqnum, get_bind]
  split
  · have hin : tdbSeqnumOfs + 4 ≤ tdb.mapSize := by
      have := h.heap.top
      have := h.start_le
      unfold tdbSeqnumOfs freelistTop at *
      omega
    obtain ⟨tdb', e, w, -⟩ := @tdbOfsWrite_ok tdb h.ready.access tdbSeqnumOfs
      (u32 ((some (ofsAt tdb.convert (view tdb) tdbSeqnumOfs)).getD 0 + 1)) hin
    refine ⟨tdb', ?_, h.header w fun a ha => ?_⟩
    · rw [bind_ok (attempt_ok (tdbOfsRead_ok h.ready.access hin)), bind_ok (attempt_ok e)]
      rfl
    · unfold tdbSeqnumOfs at ha
      unfold freelistTop
      omega
  · exact ⟨tdb, rfl, ⟨h, Kept.refl tdb, rfl⟩, fun _ _ => Iff.rfl⟩

theorem Rep.incrementSeqnum (h : Rep tdb map) :
    ∃ tdb', tdbIncrementSeqnum tdb = .ok () tdb' ∧ Rep tdb' map ∧ Kept tdb tdb' ∧ tdb'.mapSize = tdb.mapSize := by
  obtain ⟨bs, fl, chain, hch, hm⟩ := h
  obtain ⟨tdb', e, hed, hholds⟩ := tdbIncrementSeqnum_ok hch
  exact ⟨tdb', e, ⟨bs, fl, chain, hed.chained, hm.congr hholds⟩, hed.kept, hed.mapSize⟩

theorem Represents.erase {tdb' : TdbContext} {chain' : Nat → List Nat} (hm : Represents tdb chain map) {o : Nat}
    {d : List UInt8} (ho : Holds tdb chain o (key, d)) (hs : Sets tdb tdb' chain chain' o none) :
    Represents tdb' chain' (update map key none) := by
  refine hm.set hs (by simp) (fun e he => ?_) fun o' d' ho' => hm.unique ho' ho
  have := he.2
  rw [ho.2] at this
  cases this
  rfl

end Calls

end Samba.Tdb
