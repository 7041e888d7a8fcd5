/-
How the space of a database is laid out: behind the hash table, consecutive records up to the end
of the map, each with its length in the header and its total size in the tailer, the free ones
linked from the top of the free list and never next to each other. `tdb_free` keeps the layout.
-/
import Mathlib.Data.List.Chain
import Mathlib.Data.List.Pairwise
import Samba.Lib.Links
import Samba.Tdb.Access

namespace Samba.Tdb

open Bytes Links List

/-! ## Records one after the other -/

/-- A record: where its header is, its `rec_len`, and whether it is free. -/
structure Block where
  off : Nat
  len : Nat
  free : Bool
  deriving DecidableEq, Repr

/-- The end of a record. -/
def Block.stop (b : Block) : Nat := b.off + sizeofRec + b.len

/-- The records lie one after the other from `a` to `e`, each with room for its tailer. -/
def Tiles : Nat → List Block → Nat → Prop
  | a, [], e => a = e
  | a, b :: bs, e => b.off = a ∧ 4 ≤ b.len ∧ b.len % 4 = 0 ∧ Tiles b.stop bs e

theorem tiles_append {a e : Nat} {xs ys : List Block} :
    Tiles a (xs ++ ys) e ↔ ∃ c, Tiles a xs c ∧ Tiles c ys e := by
  induction xs generalizing a with
  | nil => simp [Tiles]
  | cons b xs ih =>
    simp only [cons_append, Tiles, ih]
    constructor
    · rintro ⟨h1, h2, h3, c, h4, h5⟩
      exact ⟨c, ⟨h1, h2, h3, h4⟩, h5⟩
    · rintro ⟨c, ⟨h1, h2, h3, h4⟩, h5⟩
      exact ⟨h1, h2, h3, c, h4, h5⟩

/-- Two records that do not meet. -/
def BlocksApart (b c : Block) : Prop := b.stop ≤ c.off ∨ c.stop ≤ b.off

instance : Std.Symm BlocksApart := ⟨fun _ _ => Or.symm⟩

namespace Tiles

variable {a e : Nat} {bs : List Block}

theorem mid {pre post : List Block} {b : Block} (h : Tiles a (pre ++ b :: post) e) :
    Tiles a pre b.off ∧ 4 ≤ b.len ∧ b.len % 4 = 0 ∧ Tiles b.stop post e := by
  obtain ⟨c, h1, rfl, h2⟩ := tiles_append.mp h
  exact ⟨h1, h2⟩

theorem le (h : Tiles a bs e) : a ≤ e := by
  induction bs generalizing a with
  | nil => exact le_of_eq h
  | cons b bs ih =>
    have := ih h.2.2.2
    have := h.1
    unfold Block.stop at *
    omega

theorem bounds (h : Tiles a bs e) : ∀ b ∈ bs, a ≤ b.off ∧ b.stop ≤ e ∧ 4 ≤ b.len ∧ b.len % 4 = 0 := by
  induction bs generalizing a with
  | nil => simp
  | cons c bs ih =>
    intro b hb
    have hle := h.2.2.2.le
    rcases mem_cons.mp hb with rfl | hb
    · exact ⟨le_of_eq h.1.symm, hle, h.2.1, h.2.2.1⟩
    · have := ih h.2.2.2 b hb
      have := h.1
      unfold Block.stop at *
      omega

theorem ordered (h : Tiles a bs e) : bs.Pairwise fun b c => b.stop ≤ c.off := by
  induction bs generalizing a with
  | nil => exact .nil
  | cons b bs ih => exact .cons (fun c hc => (h.2.2.2.bounds c hc).1) (ih h.2.2.2)

theorem apart (h : Tiles a bs e) {b c : Block} (hb : b ∈ bs) (hc : c ∈ bs) (hne : b ≠ c) : BlocksApart b c := by
  have hp : bs.Pairwise BlocksApart := h.ordered.imp fun {b c} hbc => .inl hbc
  exact hp.forall hb hc hne

theorem length_le (h : Tiles a bs e) : a + bs.length ≤ e := by
  induction bs generalizing a with
  | nil => exact le_of_eq h
  | cons b bs ih =>
    have := ih h.2.2.2
    have := h.1
    simp only [length_cons]
    unfold Block.stop sizeofRec at *
    omega

theorem mod_four (h : Tiles a bs e) (ha : a % 4 = 0) : e % 4 = 0 := by
  induction bs generalizing a with
  | nil => exact h ▸ ha
  | cons b bs ih =>
    refine ih h.2.2.2 ?_
    have := h.1
    have := h.2.2.1
    unfold Block.stop sizeofRec
    omega

end Tiles

/-! ## The heap -/

/-- The header and the tailer of a record say what it is. -/
structure BlockOk (cv : Bool) (m : Mem) (b : Block) : Prop where
  recLen : ofsAt cv m (b.off + 4) = b.len
  tailer : ofsAt cv m (b.stop - 4) = sizeofRec + b.len
  magic : ofsAt cv m (b.off + 20) = tdbFreeMagic ↔ b.free = true

/-- No two free records are next to each other. -/
def NoAdjacent (bs : List Block) : Prop := bs.IsChain fun a b => ¬ (a.free = true ∧ b.free = true)

/-- The offsets of the free records. -/
def freeOffs (bs : List Block) : List Nat := (bs.filter (·.free)).map (·.off)

/-- The records in use. -/
def used (bs : List Block) : List Block := bs.filter (!·.free)

/-- Consecutive records from `start` to `stop` with `fl` the free list. -/
structure Heap (cv : Bool) (m : Mem) (start stop : Nat) (bs : List Block) (fl : List Nat) : Prop where
  tiles : Tiles start bs stop
  ok : ∀ b ∈ bs, BlockOk cv m b
  links : Linked 0 (ofsAt cv m) freelistTop fl
  perm : fl.Perm (freeOffs bs)
  apart : NoAdjacent bs
  top : freelistTop + 4 ≤ start

/-- A heap in which the record `hole` is being freed: it counts as free, but its header and tailer
are not yet those of a free record and it is not on the free list. -/
structure Holed (cv : Bool) (m : Mem) (start stop : Nat) (pre : List Block) (hole : Block) (post : List Block)
    (fl : List Nat) : Prop where
  tiles : Tiles start (pre ++ hole :: post) stop
  free : hole.free = true
  ok : ∀ b ∈ pre ++ post, BlockOk cv m b
  links : Linked 0 (ofsAt cv m) freelistTop fl
  perm : fl.Perm (freeOffs (pre ++ post))
  preApart : NoAdjacent pre
  postApart : NoAdjacent post
  top : freelistTop + 4 ≤ start

/-- The bytes of the free records and the top of the free list. -/
def FreeBytes (bs : List Block) (a : Nat) : Prop :=
  freelistTop ≤ a ∧ a < freelistTop + 4 ∨ ∃ b ∈ bs, b.free = true ∧ b.off ≤ a ∧ a < b.stop

theorem BlockOk.congr {cv : Bool} {m m' : Mem} {b : Block} (h : BlockOk cv m b) (hlen : 4 ≤ b.len)
    (hcong : ∀ a, b.off + 4 ≤ a → a < b.stop → m' a = m a) : BlockOk cv m' b := by
  unfold Block.stop sizeofRec at *
  have h4 : ofsAt cv m' (b.off + 4) = ofsAt cv m (b.off + 4) :=
    ofsAt_congr fun a h1 h2 => hcong a h1 (by omega)
  have h20 : ofsAt cv m' (b.off + 20) = ofsAt cv m (b.off + 20) :=
    ofsAt_congr fun a h1 h2 => hcong a (by omega) (by omega)
  have ht : ofsAt cv m' (b.off + 24 + b.len - 4) = ofsAt cv m (b.off + 24 + b.len - 4) :=
    ofsAt_congr fun a h1 h2 => hcong a (by omega) (by omega)
  exact ⟨h4.trans h.recLen, ht.trans h.tailer, by rw [h20]; exact h.magic⟩

/-! ## The free list -/

/-- Two words that do not meet. -/
def WordsApart (a b : Nat) : Prop := a + 4 ≤ b ∨ b + 4 ≤ a

instance : Std.Symm WordsApart := ⟨fun _ _ => Or.symm⟩

theorem nodup_of_wordsApart {l : List Nat} (h : l.Pairwise WordsApart) : l.Nodup :=
  h.imp fun {a b} hab he => by unfold WordsApart at hab; omega

/-- The cells of the free list are words that do not meet. -/
theorem cells_apart {start : Nat} {bs : List Block} {fl : List Nat}
    (hord : bs.Pairwise fun b c => b.stop ≤ c.off) (hbounds : ∀ b ∈ bs, start ≤ b.off)
    (hperm : fl.Perm (freeOffs bs)) (htop : freelistTop + 4 ≤ start) :
    (freelistTop :: fl).Pairwise WordsApart := by
  have hfree : (freeOffs bs).Pairwise WordsApart := by
    refine pairwise_map.mpr ((hord.sublist filter_sublist).imp fun {b c} h => ?_)
    unfold Block.stop sizeofRec at h
    exact .inl (by omega)
  refine .cons (fun o ho => ?_) ((hperm.pairwise_iff fun {a b} h => Or.symm h).mpr hfree)
  obtain ⟨b, hb, rfl⟩ := mem_map.mp (hperm.mem_iff.mp ho)
  exact .inl (htop.trans (hbounds b (mem_of_mem_filter hb)))

theorem mem_freeOffs {bs : List Block} {o : Nat} : o ∈ freeOffs bs ↔ ∃ b ∈ bs, b.free = true ∧ b.off = o := by
  simp [freeOffs, and_assoc]

theorem removeFromFreelistLoop_eq {tdb : TdbContext} (h : Access tdb) {p o nxt fuel : Nat} {l₁ l₂ : List Nat}
    (hl : Linked 0 (ofsAt tdb.convert (view tdb)) p (l₁ ++ o :: l₂))
    (hapart : (p :: (l₁ ++ o :: l₂)).Pairwise WordsApart) (hin : ∀ q ∈ p :: l₁, q + 4 ≤ tdb.mapSize)
    (hfuel : l₁.length < fuel) :
    removeFromFreelistLoop o nxt fuel p tdb = tdbOfsWrite (lastCell p l₁) nxt tdb := by
  induction l₁ generalizing p fuel with
  | nil =>
    obtain ⟨fuel, rfl⟩ : ∃ k, fuel = k + 1 := ⟨fuel - 1, by omega⟩
    rw [removeFromFreelistLoop, bind_ok (attempt_ok (tdbOfsRead_ok h (hin p (by simp))))]
    simp only [hl.2.1]
    rw [if_neg hl.1, if_true]
    rfl
  | cons q l₁ ih =>
    obtain ⟨fuel, rfl⟩ : ∃ k, fuel = k + 1 := ⟨fuel - 1, by simp only [length_cons] at hfuel; omega⟩
    rw [removeFromFreelistLoop, bind_ok (attempt_ok (tdbOfsRead_ok h (hin p (by simp))))]
    simp only [hl.2.1]
    have hne : q ≠ o := by
      have := nodup_of_wordsApart (pairwise_cons.mp hapart).2
      rintro rfl
      simp at this
    rw [if_neg hl.1, if_neg hne]
    exact ih hl.2.2 (pairwise_cons.mp hapart).2 (fun r hr => hin r (by simp at hr ⊢; tauto))
      (by simpa using hfuel)

/-- The records `bs` among those of a tiled space, with `fl` the list of the free ones. -/
structure FreeChain (cv : Bool) (m : Mem) (start stop : Nat) (all bs : List Block) (fl : List Nat) : Prop where
  tiles : Tiles start all stop
  sub : bs.Sublist all
  links : Linked 0 (ofsAt cv m) freelistTop fl
  perm : fl.Perm (freeOffs bs)
  top : freelistTop + 4 ≤ start

namespace FreeChain

variable {cv : Bool} {m : Mem} {start stop : Nat} {all bs : List Block} {fl : List Nat}

theorem length_fl (h : FreeChain cv m start stop all bs fl) : fl.length < stop := by
  have hlen := h.tiles.length_le
  have hfl := h.perm.length_eq
  have hsub := h.sub.length_le
  have hle := length_filter_le (·.free) bs
  have := h.top
  simp only [freeOffs, length_map] at *
  unfold freelistTop at *
  omega

theorem cells (h : FreeChain cv m start stop all bs fl) : (freelistTop :: fl).Pairwise WordsApart :=
  cells_apart (h.tiles.ordered.sublist h.sub) (fun b hb => (h.tiles.bounds b (h.sub.mem hb)).1) h.perm h.top

variable {q : Nat}

/-- A cell of the free list is the top or the first word of a free record. -/
theorem mem_cells (h : FreeChain cv m start stop all bs fl) (hq : q ∈ freelistTop :: fl) :
    q = freelistTop ∨ ∃ b ∈ bs, b.free = true ∧ b.off = q :=
  (mem_cons.mp hq).imp_right fun hq => mem_freeOffs.mp (h.perm.mem_iff.mp hq)

theorem cell_in (h : FreeChain cv m start stop all bs fl) (hq : q ∈ freelistTop :: fl) : q + 4 ≤ stop := by
  rcases h.mem_cells hq with rfl | ⟨b, hb, -, rfl⟩
  · exact h.top.trans h.tiles.le
  · have := h.tiles.bounds b (h.sub.mem hb)
    unfold Block.stop sizeofRec at this
    omega

/-- A cell of the free list lies outside what the header and tailer of a record say. -/
theorem cell_out (h : FreeChain cv m start stop all bs fl) (hq : q ∈ freelistTop :: fl) {c : Block}
    (hc : c ∈ all) : q + 4 ≤ c.off + 4 ∨ c.stop ≤ q := by
  have hb := h.tiles.bounds c hc
  have htop := h.top
  rcases h.mem_cells hq with rfl | ⟨b, hb, -, rfl⟩
  · omega
  · by_cases hne : b = c
    · subst hne
      exact .inl le_rfl
    · have := h.tiles.apart (h.sub.mem hb) hc hne
      unfold BlocksApart Block.stop sizeofRec at *
      omega

theorem freeBytes_cell (h : FreeChain cv m start stop all bs fl) (hq : q ∈ freelistTop :: fl) {a : Nat}
    (h1 : q ≤ a) (h2 : a < q + 4) : FreeBytes all a := by
  rcases h.mem_cells hq with rfl | ⟨b, hb, hf, rfl⟩
  · exact .inl ⟨h1, h2⟩
  · refine .inr ⟨b, h.sub.mem hb, hf, h1, ?_⟩
    unfold Block.stop sizeofRec
    omega

/-- Making the cell before a record point past it takes the record off the free list. -/
theorem unlink {tdb : TdbContext} (ha : Access tdb) {o : Nat} {l₁ l₂ : List Nat}
    (h : FreeChain tdb.convert (view tdb) start tdb.mapSize all bs (l₁ ++ o :: l₂)) :
    ∃ tdb', tdbOfsWrite (lastCell freelistTop l₁) (ofsAt tdb.convert (view tdb) o) tdb = .ok () tdb' ∧
      Writes (FreeBytes all) tdb tdb' ∧ Linked 0 (ofsAt tdb.convert (view tdb')) freelistTop (l₁ ++ l₂) ∧
      ∀ c ∈ all, BlockOk tdb.convert (view tdb) c → BlockOk tdb.convert (view tdb') c := by
  have hlast : lastCell freelistTop l₁ ∈ freelistTop :: (l₁ ++ o :: l₂) := by
    have := lastCell_mem freelistTop l₁
    simp only [mem_cons, mem_append] at this ⊢
    tauto
  obtain ⟨tdb', e, w, hv⟩ := @tdbOfsWrite_ok tdb ha (lastCell freelistTop l₁) (ofsAt tdb.convert (view tdb) o)
    (h.cell_in hlast)
  refine ⟨tdb', e, w.mono fun a ha => h.freeBytes_cell hlast ha.1 ha.2, ?_, fun c hc hok => ?_⟩
  · refine h.links.unlink (nodup_of_wordsApart h.cells) ?_ fun q hq hne => ?_
    · rw [hv]
      exact ofsAt_write_same (ofsAt_lt ..)
    · -- the other cells do not meet the one rewritten
      have hq' : q ∈ freelistTop :: (l₁ ++ o :: l₂) := by
        simp only [mem_cons, mem_append] at hq ⊢
        tauto
      have hw := h.cells.forall hq' hlast hne
      unfold WordsApart at hw
      rw [hv]
      exact ofsAt_write_disjoint (by simpa using hw)
  · refine hok.congr (h.tiles.bounds c hc).2.2.1 fun a h1 h2 => w.frame a ?_
    have := h.cell_out hlast hc
    omega

/-- `remove_from_freelist` takes a record off the free list. -/
theorem remove {tdb : TdbContext} (ha : Access tdb)
    (h : FreeChain tdb.convert (view tdb) start tdb.mapSize all bs fl) {b : Block} (hb : b ∈ bs)
    (hfree : b.free = true) :
    ∃ tdb' fl', removeFromFreelist b.off (ofsAt tdb.convert (view tdb) b.off) tdb = .ok () tdb' ∧
      Writes (FreeBytes all) tdb tdb' ∧
      (∀ c ∈ all, BlockOk tdb.convert (view tdb) c → BlockOk tdb.convert (view tdb') c) ∧
      Linked 0 (ofsAt tdb.convert (view tdb')) freelistTop fl' ∧ (b.off :: fl').Perm fl := by
  have hmem : b.off ∈ fl := h.perm.mem_iff.mpr (mem_freeOffs.mpr ⟨b, hb, hfree, rfl⟩)
  obtain ⟨l₁, l₂, rfl⟩ := append_of_mem hmem
  have hcell : ∀ q ∈ freelistTop :: l₁, q + 4 ≤ tdb.mapSize := by
    intro q hq
    refine h.cell_in ?_
    simp only [mem_cons, mem_append] at hq ⊢
    tauto
  have hlen := h.length_fl
  simp only [length_append, length_cons] at hlen
  obtain ⟨tdb', e, w, hl, hok⟩ := h.unlink ha
  refine ⟨tdb', l₁ ++ l₂, ?_, w, hok, hl, perm_middle.symm⟩
  rw [removeFromFreelist, get_bind, removeFromFreelistLoop_eq ha h.links h.cells hcell (by omega), e]

end FreeChain

/-! ## A record being freed -/

namespace Holed

variable {cv : Bool} {m m' : Mem} {start stop : Nat} {pre post : List Block} {hole : Block} {fl : List Nat}

theorem freeChain (h : Holed cv m start stop pre hole post fl) :
    FreeChain cv m start stop (pre ++ hole :: post) (pre ++ post) fl :=
  ⟨h.tiles, by simp, h.links, h.perm, h.top⟩

theorem mem_of_mem {b : Block} (hb : b ∈ pre ++ post) : b ∈ pre ++ hole :: post := by
  simp only [mem_append, mem_cons] at hb ⊢
  tauto

/-- What is written inside the hole does not show. -/
theorem congr (h : Holed cv m start stop pre hole post fl)
    (hcong : ∀ a, a < hole.off ∨ hole.stop ≤ a → m' a = m a) : Holed cv m' start stop pre hole post fl := by
  obtain ⟨hpre, h4, -, hpost⟩ := h.tiles.mid
  have hside : ∀ b ∈ pre ++ post, b.stop ≤ hole.off ∨ hole.stop ≤ b.off := by
    intro b hb
    rcases mem_append.mp hb with hb | hb
    exacts [.inl (hpre.bounds b hb).2.1, .inr (hpost.bounds b hb).1]
  refine ⟨h.tiles, h.free, fun b hb => ?_, ?_, h.perm, h.preApart, h.postApart, h.top⟩
  · refine (h.ok b hb).congr (h.tiles.bounds b (mem_of_mem hb)).2.2.1 fun a h1 h2 => hcong a ?_
    have := hside b hb
    omega
  · refine h.links.congr fun q hq => ofsAt_congr fun a h1 h2 => hcong a ?_
    rcases h.freeChain.mem_cells hq with rfl | ⟨b, hb, -, rfl⟩
    · have := hpre.le
      have := h.top
      omega
    · have := hside b hb
      unfold Block.stop sizeofRec at *
      omega

end Holed

/-! ## Freeing -/

theorem u32_of_lt {n : Nat} (h : n < 2 ^ 32) : u32 n = n := Nat.mod_eq_of_lt h

theorem sub32_of_le {a b : Nat} (h : b ≤ a) (ha : a < 2 ^ 32) : sub32 a b = a - b := by
  unfold sub32 u32
  omega

theorem updateTailer_ok {tdb : TdbContext} (ha : Access tdb) {b : Block} {r : ListStruct} (hr : r.recLen = b.len)
    (hin : b.stop ≤ tdb.mapSize) :
    ∃ tdb', updateTailer b.off r tdb = .ok () tdb' ∧
      Writes (fun a => b.stop - 4 ≤ a ∧ a < b.stop) tdb tdb' ∧
      view tdb' = write (view tdb) (b.stop - 4) (convertIf tdb.convert (le32 (sizeofRec + b.len))) := by
  have hlt := ha.size_lt
  have hstop : 4 ≤ b.stop := by unfold Block.stop sizeofRec; omega
  have h1 : u32 (sizeofRec + r.recLen) = sizeofRec + b.len := by
    rw [hr]
    refine u32_of_lt ?_
    unfold Block.stop at hin
    omega
  have h2 : sub32 (b.off + (sizeofRec + b.len)) sizeofOff = b.stop - 4 := by
    unfold Block.stop at *
    rw [← Nat.add_assoc]
    exact sub32_of_le hstop (by omega)
  obtain ⟨tdb', e, w, hv⟩ := @tdbOfsWrite_ok tdb ha (b.stop - 4) (sizeofRec + b.len) (by omega)
  refine ⟨tdb', ?_, w.mono fun a h => by omega, hv⟩
  simp only [updateTailer, h1, h2]
  exact e

variable {b : Block}

theorem BlockOk.recAt {cv : Bool} {m : Mem} (h : BlockOk cv m b) :
    (recAt cv m b.off).recLen = b.len ∧ (recAt cv m b.off).next = ofsAt cv m b.off ∧
      ((recAt cv m b.off).magic = tdbFreeMagic ↔ b.free = true) := by
  rw [recAt_eq]
  exact ⟨h.recLen, rfl, h.magic⟩

theorem used_append (xs ys : List Block) : used (xs ++ ys) = used xs ++ used ys := by simp [used]

theorem used_cons_free (h : b.free = true) (bs : List Block) : used (b :: bs) = used bs := by
  simp [used, h]

theorem freeOffs_append (xs ys : List Block) : freeOffs (xs ++ ys) = freeOffs xs ++ freeOffs ys := by simp [freeOffs]

theorem freeOffs_cons_free (h : b.free = true) (bs : List Block) :
    freeOffs (b :: bs) = b.off :: freeOffs bs := by simp [freeOffs, h]

/-- The hole has grown by free records around it, with nothing else changed. -/
structure Grown (start : Nat) (tdb tdb' : TdbContext) (pre : List Block) (hole : Block) (post : List Block)
    (pre' : List Block) (hole' : Block) (post' : List Block) (fl' : List Nat) : Prop where
  writes : Writes (FreeBytes (pre ++ hole :: post)) tdb tdb'
  holed : Holed tdb.convert (view tdb') start tdb.mapSize pre' hole' post' fl'
  used : used (pre' ++ post') = used (pre ++ post)
  within : hole'.off ≤ hole.off ∧ hole.stop ≤ hole'.stop
  bytes : ∀ a, FreeBytes (pre' ++ hole' :: post') a → FreeBytes (pre ++ hole :: post) a

theorem Grown.refl {start : Nat} {tdb : TdbContext} {pre post : List Block} {hole : Block} {fl : List Nat}
    (ha : Access tdb) (h : Holed tdb.convert (view tdb) start tdb.mapSize pre hole post fl) :
    Grown start tdb tdb pre hole post pre hole post fl :=
  ⟨Writes.refl ha, h, rfl, ⟨le_rfl, le_rfl⟩, fun _ hb => hb⟩

section Free

variable {tdb : TdbContext} {start : Nat} {pre post : List Block} {hole b : Block} {fl : List Nat} {r : ListStruct}

/-- The hole and the free record after it, as one. -/
def joined (b c : Block) : Block := ⟨b.off, b.len + sizeofRec + c.len, true⟩

variable {c : Block}

theorem joined_stop {b : Block} (h : c.off = b.stop) : (joined b c).stop = c.stop := by
  unfold joined Block.stop at *
  simp only
  omega

theorem freeBytes_joined (hoff : c.off = b.stop) (hb : b.free = true) (hc : c.free = true) {a : Nat}
    (ha : FreeBytes (pre ++ joined b c :: post) a) : FreeBytes (pre ++ b :: c :: post) a := by
  rcases ha with ha | ⟨d, hd, hf, h1, h2⟩
  · exact .inl ha
  simp only [mem_append, mem_cons] at hd
  rcases hd with hd | rfl | hd
  · exact .inr ⟨d, by simp [hd], hf, h1, h2⟩
  · rw [joined_stop hoff] at h2
    by_cases hlt : a < b.stop
    · exact .inr ⟨b, by simp, hb, h1, hlt⟩
    · exact .inr ⟨c, by simp, hc, by omega, h2⟩
  · exact .inr ⟨d, by simp [hd], hf, h1, h2⟩

theorem tiles_joined {stop : Nat} (h : Tiles start (pre ++ b :: c :: post) stop) :
    Tiles start (pre ++ joined b c :: post) stop := by
  obtain ⟨hpre, h4, hmod, hoff, h4', hmod', hpost⟩ := h.mid
  refine tiles_append.mpr ⟨b.off, hpre, rfl, ?_, ?_, ?_⟩
  · unfold joined
    simp only
    omega
  · unfold joined sizeofRec
    simp only
    omega
  · rw [joined_stop hoff]
    exact hpost

/-- Once a free record right after the hole is off the free list, the two are one hole. -/
theorem grown_right {tdb' : TdbContext} {fl' : List Nat}
    (h : Holed tdb.convert (view tdb) start tdb.mapSize pre hole (b :: post) fl) (hfree : b.free = true)
    (w : Writes (FreeBytes (pre ++ hole :: b :: post)) tdb tdb')
    (hok : ∀ c ∈ pre ++ b :: post, BlockOk tdb.convert (view tdb') c)
    (hl : Linked 0 (ofsAt tdb.convert (view tdb')) freelistTop fl') (hperm : (b.off :: fl').Perm fl) :
    Grown start tdb tdb' pre hole (b :: post) pre (joined hole b) post fl' := by
  have hoff : b.off = hole.stop := h.tiles.mid.2.2.2.1
  refine ⟨w, ⟨tiles_joined h.tiles, rfl, fun c hc => hok c ?_, hl, ?_, h.preApart,
    (isChain_cons.mp h.postApart).2, h.top⟩, ?_, ⟨le_rfl, ?_⟩, fun a => freeBytes_joined hoff h.free hfree⟩
  · simp only [mem_append, mem_cons] at hc ⊢
    tauto
  · have hp := hperm.trans h.perm
    rw [freeOffs_append, freeOffs_cons_free hfree] at hp
    rw [freeOffs_append]
    exact (hp.trans perm_middle).cons_inv
  · simp only [used_append, used_cons_free hfree]
  · rw [joined_stop hoff, ← hoff]
    unfold Block.stop
    omega

/-- Once a free record right before the hole is off the free list, the two are one hole. -/
theorem grown_left {tdb' : TdbContext} {fl' : List Nat}
    (h : Holed tdb.convert (view tdb) start tdb.mapSize (pre ++ [b]) hole post fl) (hfree : b.free = true)
    (w : Writes (FreeBytes ((pre ++ [b]) ++ hole :: post)) tdb tdb')
    (hok : ∀ c ∈ (pre ++ [b]) ++ post, BlockOk tdb.convert (view tdb') c)
    (hl : Linked 0 (ofsAt tdb.convert (view tdb')) freelistTop fl') (hperm : (b.off :: fl').Perm fl) :
    Grown start tdb tdb' (pre ++ [b]) hole post pre (joined b hole) post fl' := by
  have htiles : Tiles start (pre ++ b :: hole :: post) tdb.mapSize := by simpa using h.tiles
  have hoff : hole.off = b.stop := htiles.mid.2.2.2.1
  refine ⟨w, ⟨tiles_joined htiles, rfl, fun c hc => hok c ?_, hl, ?_, (isChain_append.mp h.preApart).1,
    h.postApart, h.top⟩, ?_, ⟨?_, le_of_eq (joined_stop hoff).symm⟩, fun a ha => ?_⟩
  · simp only [mem_append, mem_cons] at hc ⊢
    tauto
  · have hp := hperm.trans h.perm
    simp only [freeOffs_append, freeOffs_cons_free hfree, append_assoc, cons_append] at hp
    rw [freeOffs_append]
    exact (hp.trans perm_middle).cons_inv
  · simp only [used_append, used_cons_free hfree]
    simp [used]
  · unfold joined Block.stop at *
    simp only
    omega
  · simpa using freeBytes_joined hoff hfree h.free ha

/-- A free record to the right becomes part of the hole. -/
theorem freeRight_ok (ha : Access tdb) (h : Holed tdb.convert (view tdb) start tdb.mapSize pre hole post fl)
    (hr : r.recLen = hole.len) :
    ∃ tdb' hole' post' fl', freeRight hole.off r tdb = .ok { r with recLen := hole'.len } tdb' ∧
      hole'.off = hole.off ∧ Grown start tdb tdb' pre hole post pre hole' post' fl' ∧
      ∀ c ∈ post'.head?, c.free = false := by
  obtain ⟨hpre, h4, hmod, hpost⟩ := h.tiles.mid
  have hlt := ha.size_lt
  have hright : u32 (hole.off + sizeofRec + r.recLen) = hole.stop := by
    rw [hr]
    exact u32_of_lt (lt_of_le_of_lt hpost.le hlt)
  have hsame : ({ r with recLen := hole.len } : ListStruct) = r := by rw [← hr]
  cases post with
  | nil =>
    have hend : hole.stop = tdb.mapSize := hpost
    refine ⟨tdb, hole, [], fl, ?_, rfl, Grown.refl ha h, by simp⟩
    simp only [freeRight, hright, get_bind, hsame]
    rw [if_neg (by unfold sizeofRec; omega)]
    rfl
  | cons b post =>
    have hoff : b.off = hole.stop := hpost.1
    have hb : b ∈ pre ++ b :: post := by simp
    have hstop := hpost.2.2.2.le
    have hin : b.off + sizeofRec ≤ tdb.mapSize := by unfold Block.stop at hstop; omega
    obtain ⟨hlen, hnext, hmagic⟩ := (h.ok b hb).recAt
    simp only [freeRight, hright, get_bind]
    rw [← hoff, if_pos hin, bind_ok (attempt_ok (tdbRecGet_ok ha hin))]
    simp only [hlen, hnext, hmagic]
    cases hfree : b.free with
    | false => exact ⟨tdb, hole, b :: post, fl, by rw [hsame]; rfl, rfl, Grown.refl ha h, by simp [hfree]⟩
    | true =>
      obtain ⟨tdb', fl', e, w, hok, hl, hperm⟩ := h.freeChain.remove ha hb hfree
      replace hok := fun c hc => hok c (Holed.mem_of_mem hc) (h.ok c hc)
      have hu : u32 (r.recLen + sizeofRec + b.len) = hole.len + sizeofRec + b.len := by
        rw [hr]
        refine u32_of_lt ?_
        unfold Block.stop at *
        omega
      refine ⟨tdb', joined hole b, post, fl', ?_, rfl, grown_right h hfree w hok hl hperm, fun c hc => ?_⟩
      · rw [if_pos rfl, bind_ok (attempt_ok e), hu]
        rfl
      · have := (isChain_cons.mp h.postApart).1 c hc
        simpa [hfree] using this

/-- The hole becomes part of a free record to the left. -/
theorem freeLeft_ok (ha : Access tdb) (hstart : start = tdbDataStart tdb.hashSize + 4)
    (h : Holed tdb.convert (view tdb) start tdb.mapSize pre hole post fl) (hr : r.recLen = hole.len) :
    ∃ tdb' hole' pre' fl', freeLeft hole.off r tdb = .ok (hole'.off, { r with recLen := hole'.len }) tdb' ∧
      Grown start tdb tdb' pre hole post pre' hole' post fl' ∧ ∀ c ∈ pre'.getLast?, c.free = false := by
  obtain ⟨hpre, h4, hmod, hpost⟩ := h.tiles.mid
  have hlt := ha.size_lt
  have hsame : ({ r with recLen := hole.len } : ListStruct) = r := by rw [← hr]
  have htop := h.top
  have hle : hole.off ≤ tdb.mapSize := by
    have := hpost.le
    unfold Block.stop at this
    omega
  have hleft : sub32 hole.off sizeofOff = hole.off - 4 :=
    sub32_of_le (by have := hpre.le; unfold sizeofOff; omega) (by omega)
  simp only [freeLeft, hleft, get_bind]
  rcases eq_nil_or_concat' pre with rfl | ⟨pre, b, rfl⟩
  · have hfirst : start = hole.off := hpre
    refine ⟨tdb, hole, [], fl, ?_, Grown.refl ha h, by simp⟩
    rw [if_neg (by omega), hsame]
    rfl
  · have hb : b ∈ (pre ++ [b]) ++ post := by simp
    have hoff : hole.off = b.stop := by
      have htiles : Tiles start (pre ++ b :: hole :: post) tdb.mapSize := by simpa using h.tiles
      exact htiles.mid.2.2.2.1
    obtain ⟨hbs, hbe, hb4, hbmod⟩ := hpre.bounds b (by simp)
    obtain ⟨hlen, hnext, hmagic⟩ := (h.ok b hb).recAt
    have hleftsize : ofsAt tdb.convert (view tdb) (hole.off - 4) = sizeofRec + b.len := by
      rw [hoff]
      exact (h.ok b hb).tailer
    have hstop : b.stop = b.off + sizeofRec + b.len := rfl
    have hback : sub32 hole.off (sizeofRec + b.len) = b.off := by
      rw [sub32_of_le (by omega) (by omega)]
      omega
    -- a tailer is never taken for uninitialised data
    have hpad : ¬ (sizeofRec + b.len = 0 ∨ sizeofRec + b.len = tdbPadU32) := by
      unfold sizeofRec tdbPadU32
      omega
    rw [if_pos (by unfold sizeofRec at hstop; omega),
      bind_ok (attempt_ok (tdbOfsRead_ok ha (show hole.off - 4 + 4 ≤ _ by omega)))]
    simp only [hleftsize]
    rw [if_neg hpad, hback,
      bind_ok (attempt_ok (tdbRecGet_ok ha (show b.off + sizeofRec ≤ _ by omega)))]
    simp only [hnext, hmagic]
    cases hfree : b.free with
    | false =>
      refine ⟨tdb, hole, pre ++ [b], fl, ?_, Grown.refl ha h, by simp [hfree]⟩
      rw [hsame]
      rfl
    | true =>
      obtain ⟨tdb', fl', e, w, hok, hl, hperm⟩ := h.freeChain.remove ha hb hfree
      replace hok := fun c hc => hok c (Holed.mem_of_mem hc) (h.ok c hc)
      have hu : u32 (r.recLen + (sizeofRec + b.len)) = b.len + sizeofRec + hole.len := by
        have := hpost.le
        rw [hr, u32_of_lt (by unfold Block.stop at *; omega)]
        omega
      refine ⟨tdb', joined b hole, pre, fl', ?_, grown_left h hfree w hok hl hperm, fun c hc => ?_⟩
      · rw [if_pos rfl, bind_ok (attempt_ok e), hu]
        rfl
      · have := (isChain_append.mp h.preApart).2.2 c hc b (by simp)
        simpa [hfree] using this

/-- The hole becomes a free record at the top of the free list. -/
theorem link_ok (ha : Access tdb) (h : Holed tdb.convert (view tdb) start tdb.mapSize pre hole post fl)
    (hpre : ∀ c ∈ pre.getLast?, c.free = false) (hpost : ∀ c ∈ post.head?, c.free = false)
    (hr : r.recLen = hole.len) (hfits : r.Fits) :
    ∃ tdb', (do
        updateTailer hole.off r
        let next ← tdbOfsRead freelistTop
        tdbRecWrite hole.off { r with next := next, magic := tdbFreeMagic }
        tdbOfsWrite freelistTop hole.off : TdbM Unit) tdb = .ok () tdb' ∧
      Writes (FreeBytes (pre ++ hole :: post)) tdb tdb' ∧
      Heap tdb.convert (view tdb') start tdb.mapSize (pre ++ hole :: post) (hole.off :: fl) := by
  obtain ⟨htpre, h4, hmod, htpost⟩ := h.tiles.mid
  have hle := htpost.le
  have hstart := htpre.le
  have htop := h.top
  have hstop : hole.stop = hole.off + sizeofRec + hole.len := rfl
  unfold sizeofRec at hstop
  obtain ⟨tdb₁, e₁, w₁, hv₁⟩ := updateTailer_ok ha hr hle
  have hnext := tdbOfsRead_ok w₁.access (show freelistTop + 4 ≤ _ by rw [w₁.mapSize]; omega)
  generalize hn : ofsAt tdb₁.convert (view tdb₁) freelistTop = next at hnext
  obtain ⟨tdb₂, e₂, w₂, hv₂⟩ := @tdbRecWrite_ok tdb₁ w₁.access hole.off { r with next := next, magic := tdbFreeMagic }
    (by rw [w₁.mapSize]; unfold sizeofRec; omega)
  obtain ⟨tdb₃, e₃, w₃, hv₃⟩ := @tdbOfsWrite_ok tdb₂ w₂.access freelistTop hole.off
    (by rw [w₂.mapSize, w₁.mapSize]; omega)
  have hcv₁ := w₁.convert
  have hcv₂ := w₂.convert
  rw [hcv₁] at hcv₂ hv₂ hn
  rw [hcv₂] at hv₃
  -- outside the top and the hole nothing has changed
  have hframe : ∀ a, ¬ (freelistTop ≤ a ∧ a < freelistTop + 4) → ¬ (hole.off ≤ a ∧ a < hole.stop) →
      view tdb₃ a = view tdb a := by
    intro a h1 h2
    rw [w₃.frame a h1, w₂.frame a (by unfold sizeofRec; omega), w₁.frame a (by omega)]
  have hside : ∀ b ∈ pre ++ post, b.stop ≤ hole.off ∨ hole.stop ≤ b.off := by
    intro b hb
    rcases mem_append.mp hb with hb | hb
    exacts [.inl (htpre.bounds b hb).2.1, .inr (htpost.bounds b hb).1]
  have hofs₂ : ∀ o, hole.off ≤ o → ofsAt tdb.convert (view tdb₃) o = ofsAt tdb.convert (view tdb₂) o := by
    intro o ho
    rw [hv₃]
    exact ofsAt_write_disjoint (by simp; omega)
  have hrec : recAt tdb.convert (view tdb₂) hole.off = { r with next := next, magic := tdbFreeMagic } := by
    rw [hv₂]
    exact recAt_write_same ⟨hn ▸ ofsAt_lt .., hfits.recLen, hfits.keyLen, hfits.dataLen, hfits.fullHash,
      show tdbFreeMagic < 2 ^ 32 by decide⟩
  rw [recAt_eq] at hrec
  simp only [ListStruct.mk.injEq] at hrec
  have hhole : BlockOk tdb.convert (view tdb₃) hole := by
    refine ⟨?_, ?_, ?_⟩
    · rw [hofs₂ _ (by omega), hrec.2.1, hr]
    · rw [hofs₂ _ (by omega), hv₂, ofsAt_write_disjoint (by simp [sizeofRec]; omega), hv₁]
      exact ofsAt_write_same (by have := ha.size_lt; unfold sizeofRec; omega)
    · rw [hofs₂ _ (by omega), hrec.2.2.2.2.2, h.free]
      simp
  refine ⟨tdb₃, by rw [bind_ok e₁, bind_ok hnext, bind_ok e₂, e₃], ?_, h.tiles, fun b hb => ?_, ?_, ?_, ?_, h.top⟩
  · have hin : ∀ a, hole.off ≤ a ∧ a < hole.stop → FreeBytes (pre ++ hole :: post) a := fun a ha =>
      .inr ⟨hole, by simp, h.free, ha.1, ha.2⟩
    refine (w₁.mono fun a ha => hin a (by omega)).trans ((w₂.mono fun a ha => hin a ?_).trans
      (w₃.mono fun a ha => .inl ha))
    unfold sizeofRec at ha
    omega
  · by_cases hbh : b = hole
    · rw [hbh]
      exact hhole
    · have hb' : b ∈ pre ++ post := by
        simp only [mem_append, mem_cons] at hb ⊢
        tauto
      have hbounds := h.tiles.bounds b hb
      refine (h.ok b hb').congr hbounds.2.2.1 fun a h1 h2 => hframe a (by omega) ?_
      have := hside b hb'
      omega
  · refine h.links.push (by omega) ?_ ?_ fun q hq => ?_
    · rw [hofs₂ _ le_rfl, hrec.1, ← hn, hv₁]
      exact ofsAt_write_disjoint (by simp; omega)
    · rw [hv₃]
      exact ofsAt_write_same (by have := ha.size_lt; omega)
    · have hcell := h.freeChain.mem_cells (mem_cons_of_mem freelistTop hq)
      have hap := (pairwise_cons.mp h.freeChain.cells).1 q hq
      refine ofsAt_congr fun a h1 h2 => hframe a (by unfold WordsApart at hap; omega) ?_
      rcases hcell with rfl | ⟨b, hb, -, rfl⟩
      · omega
      · have := hside b hb
        unfold Block.stop sizeofRec at *
        omega
  · rw [freeOffs_append, freeOffs_cons_free h.free]
    refine (List.Perm.cons _ h.perm).trans ?_
    rw [freeOffs_append]
    exact perm_middle.symm
  · refine isChain_append.mpr ⟨h.preApart, isChain_cons.mpr ⟨fun c hc => ?_, h.postApart⟩, fun c hc d hd => ?_⟩
    · simp [hpost c hc]
    · simp [hpre c hc]

/-- `tdb_free` makes the hole, with the free records next to it, a free record of the heap. -/
theorem tdbFree_ok (ha : Access tdb) (hstart : start = tdbDataStart tdb.hashSize + 4)
    (h : Holed tdb.convert (view tdb) start tdb.mapSize pre hole post fl) (hr : r.recLen = hole.len)
    (hfits : r.Fits) :
    ∃ tdb' bs' fl', tdbFree hole.off r tdb = .ok () tdb' ∧
      Writes (FreeBytes (pre ++ hole :: post)) tdb tdb' ∧
      Heap tdb.convert (view tdb') start tdb.mapSize bs' fl' ∧ used bs' = used (pre ++ post) ∧
      ∃ b ∈ bs', b.free = true ∧ b.off ≤ hole.off ∧ hole.stop ≤ b.stop := by
  have hle := h.tiles.mid.2.2.2.le
  have hin : ∀ a, hole.off ≤ a ∧ a < hole.stop → FreeBytes (pre ++ hole :: post) a := fun a ha =>
    .inr ⟨hole, by simp, h.free, ha.1, ha.2⟩
  obtain ⟨tdb₁, e₁, w₁, -⟩ := updateTailer_ok ha hr hle
  have h₁ : Holed tdb₁.convert (view tdb₁) start tdb₁.mapSize pre hole post fl := by
    rw [w₁.convert, w₁.mapSize]
    exact h.congr fun a ha => w₁.frame a (by unfold Block.stop sizeofRec at *; omega)
  obtain ⟨tdb₂, hole₂, post₂, fl₂, e₂, hoff₂, g₂, hhead⟩ := freeRight_ok w₁.access h₁ hr
  have h₂ : Holed tdb₂.convert (view tdb₂) start tdb₂.mapSize pre hole₂ post₂ fl₂ := by
    rw [g₂.writes.convert, g₂.writes.mapSize]
    exact g₂.holed
  have hstart₂ : start = tdbDataStart tdb₂.hashSize + 4 := by
    rw [g₂.writes.hashSize, w₁.hashSize]
    exact hstart
  obtain ⟨tdb₃, hole₃, pre₃, fl₃, e₃, g₃, hlast⟩ :=
    @freeLeft_ok _ _ _ _ _ _ { r with recLen := hole₂.len } g₂.writes.access hstart₂ h₂ rfl
  have h₃ : Holed tdb₃.convert (view tdb₃) start tdb₃.mapSize pre₃ hole₃ post₂ fl₃ := by
    rw [g₃.writes.convert, g₃.writes.mapSize]
    exact g₃.holed
  have hbound : hole₃.len < 2 ^ 32 := by
    have := h₃.tiles.mid.2.2.2.le
    have := g₃.writes.access.size_lt
    unfold Block.stop at *
    omega
  obtain ⟨tdb₄, e₄, w₄, hheap⟩ := @link_ok _ _ _ _ _ _ { r with recLen := hole₃.len } g₃.writes.access h₃ hlast hhead
    rfl ⟨hfits.next, hbound, hfits.keyLen, hfits.dataLen, hfits.fullHash, hfits.magic⟩
  have hbytes₂ : ∀ a, FreeBytes (pre ++ hole₂ :: post₂) a → FreeBytes (pre ++ hole :: post) a := g₂.bytes
  refine ⟨tdb₄, pre₃ ++ hole₃ :: post₂, hole₃.off :: fl₃, ?_, ?_, ?_, ?_, hole₃, by simp, h₃.free, ?_, ?_⟩
  · rw [tdbFree, bind_ok e₁, bind_ok e₂, ← hoff₂, bind_ok e₃]
    exact e₄
  · refine (w₁.mono fun a ha => hin a ?_).trans (g₂.writes.trans ((g₃.writes.mono hbytes₂).trans
      (w₄.mono fun a ha => hbytes₂ a (g₃.bytes a ha))))
    unfold Block.stop sizeofRec at *
    omega
  · have hc : tdb₃.convert = tdb.convert := g₃.writes.convert.trans (g₂.writes.convert.trans w₁.convert)
    have hm : tdb₃.mapSize = tdb.mapSize := g₃.writes.mapSize.trans (g₂.writes.mapSize.trans w₁.mapSize)
    rwa [hc, hm] at hheap
  · have hu := g₃.used.trans g₂.used
    rw [used_append] at hu
    rw [used_append, used_cons_free h₃.free]
    exact hu
  · exact g₃.within.1.trans g₂.within.1
  · exact g₂.within.2.trans g₃.within.2

end Free

end Samba.Tdb
