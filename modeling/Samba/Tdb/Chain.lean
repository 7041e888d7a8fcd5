/-
The hash chains of a database outside a transaction: which records are on them and what entries the
records hold. The walks down a chain, and the edits of the calls on keys: taking a record off its
chain, rewriting one in place, putting a new one at the top.
-/
import Samba.Tdb.Allocate

namespace Samba.Tdb

open Bytes Links List

/-! ## Entries -/

/-- A key with its data. -/
abbrev Entry := List UInt8 × List UInt8

/-- The entry in the record at `o`, unless the record is dead. -/
def entryAt (tdb : TdbContext) (o : Nat) : Option Entry :=
  let r := recAt tdb.convert (view tdb) o
  if r.magic = tdbDeadMagic then none
  else some (read (view tdb) (o + sizeofRec) r.keyLen, read (view tdb) (o + sizeofRec + r.keyLen) r.dataLen)

/-- A record of bucket `i`: dead, or with an entry of that bucket that leaves room for the tailer. -/
structure RecOk (tdb : TdbContext) (i : Nat) (b : Block) : Prop where
  bucket : (recAt tdb.convert (view tdb) b.off).fullHash % tdb.hashSize = i
  magic : (recAt tdb.convert (view tdb) b.off).magic = tdbMagic ∨
    (recAt tdb.convert (view tdb) b.off).magic = tdbDeadMagic
  live : (recAt tdb.convert (view tdb) b.off).magic = tdbMagic →
    (recAt tdb.convert (view tdb) b.off).keyLen + (recAt tdb.convert (view tdb) b.off).dataLen + sizeofOff ≤ b.len ∧
    ∀ e, entryAt tdb b.off = some e → (recAt tdb.convert (view tdb) b.off).fullHash = (tdb.hashFn e.1).toNat

/-- A database whose hash chains `chain` go through records in use. -/
structure Chained (tdb : TdbContext) (bs : List Block) (fl : List Nat) (chain : Nat → List Nat) : Prop where
  ready : Ready tdb
  travlocks : tdb.travlocks = []
  heap : Heap tdb.convert (view tdb) (tdbDataStart tdb.hashSize + 4) tdb.mapSize bs fl
  links : ∀ i < tdb.hashSize, Linked 0 (ofsAt tdb.convert (view tdb)) (tdbHashTop tdb.hashSize i) (chain i)
  recs : ∀ i < tdb.hashSize, ∀ o ∈ chain i, ∃ b ∈ used bs, b.off = o ∧ RecOk tdb i b

/-- The record at `o` is on a hash chain and holds the entry `e`. -/
def Holds (tdb : TdbContext) (chain : Nat → List Nat) (o : Nat) (e : Entry) : Prop :=
  (∃ i < tdb.hashSize, o ∈ chain i) ∧ entryAt tdb o = some e

/-! ## What does not change a record -/

section Keep

variable {tdb tdb' : TdbContext}

/-- All of a header but the link to the next record. -/
theorem recAt_congr_tail {cv : Bool} {m m' : Mem} {o : Nat} (h : ∀ a, o + 4 ≤ a → a < o + sizeofRec → m' a = m a) :
    recAt cv m' o = { recAt cv m o with next := ofsAt cv m' o } := by
  unfold sizeofRec at h
  have hw : ∀ k, 4 ≤ k → k ≤ 20 → ofsAt cv m' (o + k) = ofsAt cv m (o + k) := fun k h1 h2 =>
    ofsAt_congr fun a ha hb => h a (by omega) (by omega)
  rw [recAt_eq, recAt_eq, hw 4 (by omega) (by omega), hw 8 (by omega) (by omega), hw 12 (by omega) (by omega),
    hw 16 (by omega) (by omega), hw 20 (by omega) (by omega)]

/-- A record keeps its entry when only the link to the next record changes. -/
theorem RecOk.keep {i : Nat} {b : Block} (h : RecOk tdb i b) (hk : Kept tdb tdb')
    (hcong : ∀ a, b.off + 4 ≤ a → a < b.stop → view tdb' a = view tdb a) :
    RecOk tdb' i b ∧ entryAt tdb' b.off = entryAt tdb b.off := by
  have hstop : b.stop = b.off + sizeofRec + b.len := rfl
  have hrec : recAt tdb'.convert (view tdb') b.off =
      { recAt tdb.convert (view tdb) b.off with next := ofsAt tdb.convert (view tdb') b.off } := by
    rw [hk.convert]
    exact recAt_congr_tail fun a h1 h2 => hcong a h1 (by omega)
  have hentry : entryAt tdb' b.off = entryAt tdb b.off := by
    unfold entryAt
    rw [hrec]
    simp only
    by_cases hdead : (recAt tdb.convert (view tdb) b.off).magic = tdbDeadMagic
    · rw [if_pos hdead, if_pos hdead]
    · have hlen := (h.live (h.magic.resolve_right hdead)).1
      have hread : ∀ off len, b.off + 24 ≤ off → off + len ≤ b.stop →
          read (view tdb') off len = read (view tdb) off len := fun off len h1 h2 =>
        read_congr fun a ha hb => hcong a (by omega) (by omega)
      unfold sizeofRec sizeofOff at *
      rw [if_neg hdead, if_neg hdead, hread _ _ (by omega) (by omega), hread _ _ (by omega) (by omega)]
  refine ⟨⟨?_, ?_, ?_⟩, hentry⟩
  · rw [hrec, hk.hashSize]
    exact h.bucket
  · rw [hrec]
    exact h.magic
  · rw [hrec, hentry, hk.hashFn]
    exact h.live

end Keep

/-! ## The cells of the chains -/

theorem tdbHashTop_mod (hashSize hash : Nat) : tdbHashTop hashSize (hash % hashSize) = tdbHashTop hashSize hash := by
  unfold tdbHashTop
  rw [Nat.mod_mod]

theorem tdbHashTop_bounds {hashSize : Nat} (h : 0 < hashSize) (hash : Nat) :
    freelistTop + 4 ≤ tdbHashTop hashSize hash ∧ tdbHashTop hashSize hash + 4 ≤ tdbDataStart hashSize + 4 ∧
      tdbHashTop hashSize hash % 4 = 0 := by
  have := Nat.mod_lt hash h
  unfold tdbDataStart tdbHashTop freelistTop sizeofOff
  rw [Nat.mod_eq_of_lt (show hashSize - 1 < hashSize by omega)]
  omega

/-- The words that link the hash chains: the tops, and the first words of records in use. -/
def Cell (hashSize : Nat) (bs : List Block) (q : Nat) : Prop :=
  (∃ i < hashSize, q = tdbHashTop hashSize i) ∨ ∃ b ∈ used bs, b.off = q

namespace Chained

variable {tdb : TdbContext} {bs : List Block} {fl : List Nat} {chain : Nat → List Nat}

theorem start_le (h : Chained tdb bs fl chain) : tdbDataStart tdb.hashSize + 4 ≤ tdb.mapSize := h.heap.tiles.le

theorem block (h : Chained tdb bs fl chain) {b : Block} (hb : b ∈ used bs) :
    b ∈ bs ∧ b.free = false ∧ tdbDataStart tdb.hashSize + 4 ≤ b.off ∧ b.off + sizeofRec + b.len ≤ tdb.mapSize ∧
      4 ≤ b.len := by
  obtain ⟨hb, hfree⟩ := mem_used.mp hb
  have hbounds := h.heap.tiles.bounds b hb
  exact ⟨hb, hfree, hbounds.1, hbounds.2.1, hbounds.2.2.1⟩

variable {i q : Nat}

theorem cell (h : Chained tdb bs fl chain) (hi : i < tdb.hashSize)
    (hq : q ∈ tdbHashTop tdb.hashSize i :: chain i) : Cell tdb.hashSize bs q := by
  rcases mem_cons.mp hq with rfl | hq
  · exact .inl ⟨i, hi, rfl⟩
  · obtain ⟨b, hb, hoff, -⟩ := h.recs i hi q hq
    exact .inr ⟨b, hb, hoff⟩

/-- A cell lies inside the map, meets no free record and no record but for its first word. -/
theorem cell_out (h : Chained tdb bs fl chain) (hq : Cell tdb.hashSize bs q) :
    q + 4 ≤ tdb.mapSize ∧ freelistTop + 4 ≤ q ∧ ∀ b ∈ bs, q + 4 ≤ b.off ∨ b.stop ≤ q ∨ b.off = q ∧ b.free = false := by
  have hstart := h.start_le
  rcases hq with ⟨i, hi, rfl⟩ | ⟨c, hc, rfl⟩
  · obtain ⟨h1, h2, -⟩ := tdbHashTop_bounds (show 0 < tdb.hashSize by omega) i
    refine ⟨by omega, h1, fun b hb => .inl ?_⟩
    have := (h.heap.tiles.bounds b hb).1
    omega
  · obtain ⟨hcb, hfree, hlo, hhi, -⟩ := h.block hc
    have htop := h.heap.top
    refine ⟨by unfold sizeofRec at hhi; omega, by omega, fun b hb => ?_⟩
    by_cases hbc : b = c
    · exact .inr (.inr ⟨by rw [hbc], by rw [hbc]; exact hfree⟩)
    · have := h.heap.tiles.apart hb hcb hbc
      unfold BlocksApart Block.stop sizeofRec at this
      unfold Block.stop sizeofRec
      omega

theorem cells_apart (h : Chained tdb bs fl chain) {q' : Nat} (hq : Cell tdb.hashSize bs q)
    (hq' : Cell tdb.hashSize bs q') (hne : q ≠ q') : WordsApart q q' := by
  have hout := h.cell_out hq
  have hout' := h.cell_out hq'
  rcases hq with ⟨i, hi, rfl⟩ | ⟨b, hb, rfl⟩
  · rcases hq' with ⟨j, hj, rfl⟩ | ⟨c, hc, rfl⟩
    · have h1 := (tdbHashTop_bounds (show 0 < tdb.hashSize by omega) i).2.2
      have h2 := (tdbHashTop_bounds (show 0 < tdb.hashSize by omega) j).2.2
      unfold WordsApart
      omega
    · have := hout.2.2 c (h.block hc).1
      unfold WordsApart Block.stop sizeofRec at *
      omega
  · have := hout'.2.2 b (h.block hb).1
    unfold WordsApart Block.stop sizeofRec at *
    omega

theorem hashSize_pos (h : Chained tdb bs fl chain) : 0 < tdb.hashSize := h.ready.hashSize

/-- A record is on the chain of its own bucket only. -/
theorem bucket_unique (h : Chained tdb bs fl chain) {j o : Nat} (hi : i < tdb.hashSize) (hj : j < tdb.hashSize)
    (hoi : o ∈ chain i) (hoj : o ∈ chain j) : i = j := by
  obtain ⟨b, -, hb, hok⟩ := h.recs i hi o hoi
  obtain ⟨c, -, hc, hok'⟩ := h.recs j hj o hoj
  rw [← hok.bucket, ← hok'.bucket, hb, hc]

theorem hashTop_notMem (h : Chained tdb bs fl chain) (hi : i < tdb.hashSize) (hash : Nat) :
    tdbHashTop tdb.hashSize hash ∉ chain i := by
  intro hmem
  obtain ⟨b, hb, hoff, -⟩ := h.recs i hi _ hmem
  have := h.block hb
  have := (tdbHashTop_bounds h.hashSize_pos hash).2.1
  omega

theorem cell_unique (h : Chained tdb bs fl chain) {j : Nat} (hi : i < tdb.hashSize) (hj : j < tdb.hashSize)
    (hqi : q ∈ tdbHashTop tdb.hashSize i :: chain i) (hqj : q ∈ tdbHashTop tdb.hashSize j :: chain j) : i = j := by
  rcases mem_cons.mp hqi with rfl | hqi
  · rcases mem_cons.mp hqj with heq | hqj
    · unfold tdbHashTop sizeofOff at heq
      rw [Nat.mod_eq_of_lt hi, Nat.mod_eq_of_lt hj] at heq
      omega
    · exact absurd hqj (h.hashTop_notMem hj i)
  · rcases mem_cons.mp hqj with rfl | hqj
    · exact absurd hqi (h.hashTop_notMem hi j)
    · exact h.bucket_unique hi hj hqi hqj

theorem holds_bucket (h : Chained tdb bs fl chain) {o : Nat} {e : Entry} (he : Holds tdb chain o e) :
    o ∈ chain ((tdb.hashFn e.1).toNat % tdb.hashSize) := by
  obtain ⟨⟨i, hi, ho⟩, he⟩ := he
  obtain ⟨b, -, rfl, hok⟩ := h.recs i hi o ho
  have hlive : (recAt tdb.convert (view tdb) b.off).magic = tdbMagic := by
    refine hok.magic.resolve_right fun hdead => ?_
    rw [entryAt, if_pos hdead] at he
    cases he
  rw [← (hok.live hlive).2 e he, hok.bucket]
  exact ho

theorem length_chain (h : Chained tdb bs fl chain) (hi : i < tdb.hashSize) : (chain i).length < tdb.mapSize := by
  have hsub : chain i ⊆ (used bs).map (·.off) := by
    intro o ho
    obtain ⟨b, hb, hoff, -⟩ := h.recs i hi o ho
    exact mem_map.mpr ⟨b, hb, hoff⟩
  have h1 := List.Nodup.length_le_of_subset (h.links i hi).nodup hsub
  have h2 := length_filter_le (!·.free) bs
  have h3 := h.heap.tiles.length_le
  rw [length_map] at h1
  unfold used at h1
  omega

end Chained

/-! ## Walking down a chain -/

/-- The rest of the chain of bucket `i` that hangs from cell `p`. -/
structure ChainFrom (tdb : TdbContext) (bs : List Block) (i p : Nat) (l : List Nat) : Prop where
  links : Linked 0 (ofsAt tdb.convert (view tdb)) p l
  recs : ∀ o ∈ l, ∃ b ∈ used bs, b.off = o ∧ RecOk tdb i b

section Walks

variable {tdb : TdbContext} {bs : List Block} {fl : List Nat} {chain : Nat → List Nat} {i p o : Nat} {l : List Nat}

theorem Chained.chainFrom (h : Chained tdb bs fl chain) (hash : Nat) :
    ChainFrom tdb bs (hash % tdb.hashSize) (tdbHashTop tdb.hashSize hash) (chain (hash % tdb.hashSize)) := by
  have hi := Nat.mod_lt hash h.hashSize_pos
  have hl := h.links _ hi
  rw [tdbHashTop_mod] at hl
  exact ⟨hl, h.recs _ hi⟩

theorem Chained.hashTop_ok (h : Chained tdb bs fl chain) (hash : Nat) :
    tdbOfsRead (tdbHashTop tdb.hashSize hash) tdb =
      .ok (ofsAt tdb.convert (view tdb) (tdbHashTop tdb.hashSize hash)) tdb := by
  have := (tdbHashTop_bounds h.hashSize_pos hash).2.1
  exact tdbOfsRead_ok h.ready.access (this.trans h.start_le)

theorem ChainFrom.stop (hl : ChainFrom tdb bs i p []) : ofsAt tdb.convert (view tdb) p = 0 := hl.links

/-- One step down a chain: the next record is read, and the rest hangs from it. -/
theorem ChainFrom.step (hl : ChainFrom tdb bs i p (o :: l)) (h : Chained tdb bs fl chain) :
    ofsAt tdb.convert (view tdb) p = o ∧ o ≠ 0 ∧ tdbRecRead o tdb = .ok (recAt tdb.convert (view tdb) o) tdb ∧
      (recAt tdb.convert (view tdb) o).next = ofsAt tdb.convert (view tdb) o ∧ ChainFrom tdb bs i o l := by
  obtain ⟨b, hb, rfl, hok⟩ := hl.recs o (by simp)
  have hnext : (recAt tdb.convert (view tdb) b.off).next = ofsAt tdb.convert (view tdb) b.off := by rw [recAt_eq]
  have hrest : ChainFrom tdb bs i b.off l := ⟨hl.links.2.2, fun o ho => hl.recs o (by simp [ho])⟩
  have hblk := h.block hb
  have hin : ofsAt tdb.convert (view tdb) b.off + sizeofRec ≤ tdb.mapSize := by
    rcases hrest.links.next_mem (mem_cons_self ..) with h0 | hmem
    · omega
    · obtain ⟨c, hc, hoff, -⟩ := hrest.recs _ hmem
      have := h.block hc
      omega
  have hoob := tdbOob_ok h.ready.access hin
  rw [← hnext] at hoob
  have hmagic : (recAt tdb.convert (view tdb) b.off).badMagic = false := by
    unfold ListStruct.badMagic ListStruct.dead
    rcases hok.magic with hm | hm <;> rw [hm] <;> decide
  refine ⟨hl.links.2.1, hl.links.1, ?_, hnext, hrest⟩
  rw [tdbRecRead, bind_ok (tdbRecGet_ok h.ready.access (by omega)), if_neg (by rw [hmagic]; decide), bind_ok hoob]
  rfl

theorem tdbAllocRead_ok (h : Ready tdb) {off len : Nat} (hin : off + len + 1 ≤ tdb.mapSize) :
    tdbAllocRead off len tdb = .ok (read (view tdb) off len) tdb := by
  have hread := @tdbRead_ok tdb h.access off (if len = 0 then 1 else len) (by split <;> omega) false (.inr rfl)
  rw [tdbAllocRead, bind_ok hread]
  simp only [convertIf, Bool.false_eq_true, if_false, pure_apply]
  rw [take_read (by split <;> omega)]

theorem tdbParseKey_ok (h : Ready tdb) {key : List UInt8} {off : Nat} (hin : off + key.length + 1 ≤ tdb.mapSize) :
    tdbParseKey key off key.length tdb = .ok (read (view tdb) off key.length == key) tdb := by
  rw [tdbParseKey, get_bind]
  split
  · rw [bind_ok (tdbOob_ok h.access (by omega)), get_bind, take_length, ← view_io h.methods]
    rfl
  · rw [bind_ok (tdbAllocRead_ok h hin), take_length]
    rfl

/-- The test of `tdb_find`: whether the record holds an entry with the key. -/
theorem keyMatches_ok (h : Chained tdb bs fl chain) {b : Block} (hb : b ∈ used bs) (hok : RecOk tdb i b)
    (key : List UInt8) :
    keyMatches key (tdb.hashFn key).toNat b.off (recAt tdb.convert (view tdb) b.off) tdb =
      .ok ((entryAt tdb b.off).any (·.1 == key)) tdb := by
  have hblk := h.block hb
  have hlt := h.ready.access.size_lt
  have hu : u32 (b.off + sizeofRec) = b.off + sizeofRec := u32_of_lt (by omega)
  rw [keyMatches, hu]
  unfold entryAt
  by_cases hdead : (recAt tdb.convert (view tdb) b.off).magic = tdbDeadMagic
  · have : (recAt tdb.convert (view tdb) b.off).dead = true := by rw [ListStruct.dead, hdead]; decide
    rw [if_neg (by simp [this])]
    simp [hdead]
  · have hlive := hok.live (hok.magic.resolve_right hdead)
    have hnd : (recAt tdb.convert (view tdb) b.off).dead = false := by simp [ListStruct.dead, hdead]
    have hentry : entryAt tdb b.off = some (read (view tdb) (b.off + sizeofRec)
        (recAt tdb.convert (view tdb) b.off).keyLen, read (view tdb) (b.off + sizeofRec +
        (recAt tdb.convert (view tdb) b.off).keyLen) (recAt tdb.convert (view tdb) b.off).dataLen) := by
      rw [entryAt, if_neg hdead]
    have hhash := hlive.2 _ hentry
    have hlen := hlive.1
    generalize recAt tdb.convert (view tdb) b.off = r at *
    simp only [hnd, Bool.not_false, Bool.true_and, hdead, if_false, Option.any_some]
    by_cases hkey : key.length = r.keyLen
    · have hparse := @tdbParseKey_ok tdb h.ready key (b.off + sizeofRec) (by unfold sizeofOff at hlen; omega)
      rw [← hkey] at hhash ⊢
      split
      · rw [bind_ok (attempt_ok hparse)]
        rfl
      case isFalse hne =>
        have : read (view tdb) (b.off + sizeofRec) key.length ≠ key := by
          intro he
          simp only [he] at hhash
          simp [hhash] at hne
        simp [this]
    · have hne : read (view tdb) (b.off + sizeofRec) r.keyLen ≠ key := by
        intro he
        rw [← he, length_read] at hkey
        exact hkey rfl
      simp [hkey, hne]

/-- The walk of `tdb_find` stops at a record with the key, if there is one. -/
theorem tdbFindLoop_ok (h : Chained tdb bs fl chain) (hl : ChainFrom tdb bs i p l) (key : List UInt8) {fuel : Nat}
    (hfuel : l.length < fuel) :
    (∃ o ∈ l, ∃ d, entryAt tdb o = some (key, d) ∧
      tdbFindLoop key (tdb.hashFn key).toNat fuel (ofsAt tdb.convert (view tdb) p) tdb =
        .ok (o, recAt tdb.convert (view tdb) o) tdb) ∨
    (∀ o ∈ l, ∀ d, entryAt tdb o ≠ some (key, d)) ∧
      tdbFindLoop key (tdb.hashFn key).toNat fuel (ofsAt tdb.convert (view tdb) p) tdb =
        .error .failed { tdb with ecode := .errNoexist } := by
  induction l generalizing p fuel with
  | nil =>
    obtain ⟨fuel, rfl⟩ : ∃ k, fuel = k + 1 := ⟨fuel - 1, by omega⟩
    exact .inr ⟨by simp, by rw [tdbFindLoop, if_pos hl.stop]; rfl⟩
  | cons o l ih =>
    obtain ⟨fuel, rfl⟩ : ∃ k, fuel = k + 1 := ⟨fuel - 1, by omega⟩
    obtain ⟨hp, h0, hread, hnext, hrest⟩ := hl.step h
    obtain ⟨b, hb, rfl, hok⟩ := hl.recs o (by simp)
    rw [tdbFindLoop, hp, if_neg h0, bind_ok hread, bind_ok (keyMatches_ok h hb hok key), hnext]
    by_cases hm : ∃ d, entryAt tdb b.off = some (key, d)
    · obtain ⟨d, hd⟩ := hm
      rw [if_pos (by simp [hd])]
      exact .inl ⟨b.off, by simp, d, hd, rfl⟩
    · have hno : (entryAt tdb b.off).any (·.1 == key) = false := by
        rw [Option.any_eq_false]
        rintro ⟨k, d⟩ hd
        rw [beq_eq_false_iff_ne]
        rintro rfl
        exact hm ⟨d, hd⟩
      rw [if_neg (by simp [hno])]
      rcases ih hrest (by simpa using hfuel) with ⟨o, ho, d, hd, e⟩ | ⟨hnone, e⟩
      · exact .inl ⟨o, by simp [ho], d, hd, e⟩
      · refine .inr ⟨fun o ho d hd => ?_, e⟩
        rcases mem_cons.mp ho with rfl | ho
        exacts [hm ⟨d, hd⟩, hnone o ho d hd]

/-- `tdb_find` finds a record that holds an entry with the key, or fails with `TDB_ERR_NOEXIST`. -/
theorem tdbFind_ok (h : Chained tdb bs fl chain) (key : List UInt8) :
    (∃ o d, Holds tdb chain o (key, d) ∧
      tdbFind key (tdb.hashFn key).toNat tdb = .ok (o, recAt tdb.convert (view tdb) o) tdb) ∨
    (∀ o d, ¬ Holds tdb chain o (key, d)) ∧
      tdbFind key (tdb.hashFn key).toNat tdb = .error .failed { tdb with ecode := .errNoexist } := by
  have hi := Nat.mod_lt (tdb.hashFn key).toNat h.hashSize_pos
  rw [tdbFind, get_bind, bind_ok (h.hashTop_ok _)]
  rcases tdbFindLoop_ok h (h.chainFrom _) key ((h.length_chain hi).trans (Nat.lt_succ_self _)) with
    ⟨o, ho, d, hd, e⟩ | ⟨hnone, e⟩
  · exact .inl ⟨o, d, ⟨⟨_, hi, ho⟩, hd⟩, e⟩
  · exact .inr ⟨fun o d hd => hnone o (h.holds_bucket hd) d hd.2, e⟩

/-- The walk of `tdb_do_delete` finds the cell before a record, with 0 for the top of the chain. -/
theorem doDeleteLoop_ok (h : Chained tdb bs fl chain) {l₁ l₂ : List Nat} (hl : ChainFrom tdb bs i p (l₁ ++ o :: l₂))
    {fuel last : Nat} (hfuel : l₁.length < fuel) :
    doDeleteLoop o fuel last (ofsAt tdb.convert (view tdb) p) tdb = .ok (lastCell last l₁) tdb := by
  have hnodup := hl.links.nodup
  induction l₁ generalizing p fuel last with
  | nil =>
    obtain ⟨fuel, rfl⟩ : ∃ k, fuel = k + 1 := ⟨fuel - 1, by omega⟩
    rw [doDeleteLoop, if_pos hl.links.2.1]
    rfl
  | cons q l₁ ih =>
    obtain ⟨fuel, rfl⟩ : ∃ k, fuel = k + 1 := ⟨fuel - 1, by omega⟩
    obtain ⟨hp, -, hread, hnext, hrest⟩ := hl.step h
    have hne : q ≠ o := by
      rintro rfl
      simp at hnodup
    rw [doDeleteLoop, hp, if_neg hne, bind_ok hread, hnext]
    exact ih hrest (by simpa using hfuel) (nodup_cons.mp hnodup).2

theorem countDeadLoop_ok (h : Chained tdb bs fl chain) (hl : ChainFrom tdb bs i p l) {fuel res : Nat}
    (hfuel : l.length < fuel) :
    ∃ n, countDeadLoop fuel res (ofsAt tdb.convert (view tdb) p) tdb = .ok n tdb := by
  induction l generalizing p fuel res with
  | nil =>
    obtain ⟨fuel, rfl⟩ : ∃ k, fuel = k + 1 := ⟨fuel - 1, by omega⟩
    exact ⟨res, by rw [countDeadLoop, if_pos hl.stop]; rfl⟩
  | cons o l ih =>
    obtain ⟨fuel, rfl⟩ : ∃ k, fuel = k + 1 := ⟨fuel - 1, by omega⟩
    obtain ⟨hp, h0, hread, hnext, hrest⟩ := hl.step h
    rw [countDeadLoop, hp, if_neg h0, bind_ok hread, hnext]
    exact ih hrest (by simpa using hfuel)

theorem tdbCountDead_ok (h : Chained tdb bs fl chain) (hash : Nat) : ∃ n, tdbCountDead hash tdb = .ok n tdb := by
  have hi := Nat.mod_lt hash h.hashSize_pos
  obtain ⟨n, hn⟩ := @countDeadLoop_ok _ _ _ _ _ _ _ h (h.chainFrom hash) (tdb.mapSize + 1) 0
    ((h.length_chain hi).trans (Nat.lt_succ_self _))
  refine ⟨n, ?_⟩
  rw [tdbCountDead, get_bind, bind_ok (attempt_ok ((bind_ok (h.hashTop_ok hash)).trans hn))]
  rfl

/-- The walk of `tdb_find_dead` stops at a dead record with enough space, if there is one. -/
theorem findDeadLoop_ok (h : Chained tdb bs fl chain) (hl : ChainFrom tdb bs i p l) {fuel : Nat} (length : Nat)
    (hfuel : l.length < fuel) :
    (∃ o ∈ l, entryAt tdb o = none ∧ length ≤ (recAt tdb.convert (view tdb) o).recLen ∧
      findDeadLoop length fuel (ofsAt tdb.convert (view tdb) p) tdb = .ok (o, recAt tdb.convert (view tdb) o) tdb) ∨
    findDeadLoop length fuel (ofsAt tdb.convert (view tdb) p) tdb = .error .failed tdb := by
  induction l generalizing p fuel with
  | nil =>
    obtain ⟨fuel, rfl⟩ : ∃ k, fuel = k + 1 := ⟨fuel - 1, by omega⟩
    exact .inr (by rw [findDeadLoop, if_pos hl.stop]; rfl)
  | cons o l ih =>
    obtain ⟨fuel, rfl⟩ : ∃ k, fuel = k + 1 := ⟨fuel - 1, by omega⟩
    obtain ⟨hp, h0, hread, hnext, hrest⟩ := hl.step h
    rw [findDeadLoop, hp, if_neg h0, bind_ok hread, hnext]
    split
    case isTrue hd =>
      simp only [ListStruct.dead, Bool.and_eq_true, beq_iff_eq, decide_eq_true_eq] at hd
      exact .inl ⟨o, by simp, by rw [entryAt, if_pos hd.1], hd.2, rfl⟩
    case isFalse =>
      rcases ih hrest (by simpa using hfuel) with ⟨o, ho, hd⟩ | e
      · exact .inl ⟨o, by simp [ho], hd⟩
      · exact .inr e

theorem tdbFindDead_ok (h : Chained tdb bs fl chain) (hash length : Nat) :
    (∃ o ∈ chain (hash % tdb.hashSize), entryAt tdb o = none ∧ length ≤ (recAt tdb.convert (view tdb) o).recLen ∧
      tdbFindDead hash length tdb = .ok (o, recAt tdb.convert (view tdb) o) tdb) ∨
    tdbFindDead hash length tdb = .error .failed tdb := by
  have hi := Nat.mod_lt hash h.hashSize_pos
  rw [tdbFindDead, get_bind, bind_ok (h.hashTop_ok hash)]
  exact findDeadLoop_ok h (h.chainFrom hash) length ((h.length_chain hi).trans (Nat.lt_succ_self _))

end Walks

end Samba.Tdb
