/-
The edits that the calls on keys make to the hash chains: taking a record off its chain and freeing
it, rewriting a record in place, putting a new record at the top of a chain. Each edit keeps the
chains and changes what one record holds.
-/
import Mathlib.Logic.Function.Basic
import Samba.Tdb.Chain

namespace Samba.Tdb

open Bytes Function Links List

/-- The record at `o` comes to hold `new`, and all other records hold what they held. -/
structure Sets (tdb tdb' : TdbContext) (chain chain' : Nat → List Nat) (o : Nat) (new : Option Entry) : Prop where
  at_ : ∀ e, Holds tdb' chain' o e ↔ new = some e
  other : ∀ o', o' ≠ o → ∀ e, Holds tdb' chain' o' e ↔ Holds tdb chain o' e

/-- The chains after an edit inside the map. -/
structure Edited (tdb tdb' : TdbContext) (bs' : List Block) (fl' : List Nat) (chain' : Nat → List Nat) : Prop where
  chained : Chained tdb' bs' fl' chain'
  kept : Kept tdb tdb'
  mapSize : tdb'.mapSize = tdb.mapSize

theorem Edited.trans {tdb tdb' tdb'' : TdbContext} {bs' bs'' : List Block} {fl' fl'' : List Nat}
    {chain' chain'' : Nat → List Nat} (h : Edited tdb tdb' bs' fl' chain') (h' : Edited tdb' tdb'' bs'' fl'' chain'') :
    Edited tdb tdb'' bs'' fl'' chain'' :=
  ⟨h'.chained, h.kept.trans h'.kept, h'.mapSize.trans h.mapSize⟩

/-- The heap sees of the records in use only their headers and tailers. -/
theorem Heap.frame {cv : Bool} {m m' : Mem} {start stop : Nat} {bs : List Block} {fl : List Nat}
    (h : Heap cv m start stop bs fl) (hfree : ∀ a, FreeBytes bs a → m' a = m a)
    (hused : ∀ b ∈ used bs, BlockOk cv m' b) : Heap cv m' start stop bs fl := by
  refine ⟨h.tiles, fun b hb => ?_, h.links.congr fun q hq => ?_, h.perm, h.apart, h.top⟩
  · by_cases hf : b.free = true
    · exact (h.ok b hb).congr (h.tiles.bounds b hb).2.2.1 fun a h1 h2 => hfree a (.inr ⟨b, hb, hf, by omega, h2⟩)
    · exact hused b (mem_used.mpr ⟨hb, by simpa using hf⟩)
  · exact ofsAt_congr fun a h1 h2 => hfree a (h.freeChain.freeBytes_cell hq h1 h2)

section Edits

variable {tdb tdb' : TdbContext} {bs : List Block} {fl : List Nat} {chain : Nat → List Nat}

/-! ## Links -/

/-- What rewriting the link in a cell leaves alone. -/
structure Relinked (tdb tdb' : TdbContext) (bs : List Block) (fl : List Nat) (p v : Nat) : Prop where
  writes : Writes (fun a => p ≤ a ∧ a < p + 4) tdb tdb'
  ready : Ready tdb'
  kept : Kept tdb tdb'
  heap : Heap tdb'.convert (view tdb') (tdbDataStart tdb'.hashSize + 4) tdb'.mapSize bs fl
  at_ : ofsAt tdb'.convert (view tdb') p = v
  other : ∀ q, Cell tdb.hashSize bs q → q ≠ p → ofsAt tdb'.convert (view tdb') q = ofsAt tdb.convert (view tdb) q
  recs : ∀ i, ∀ b ∈ used bs, RecOk tdb i b → RecOk tdb' i b ∧ entryAt tdb' b.off = entryAt tdb b.off

theorem Chained.relink (h : Chained tdb bs fl chain) {p v : Nat} (hp : Cell tdb.hashSize bs p) (hv : v < 2 ^ 32) :
    ∃ tdb', tdbOfsWrite p v tdb = .ok () tdb' ∧ Relinked tdb tdb' bs fl p v := by
  obtain ⟨hin, htop, hout⟩ := h.cell_out hp
  obtain ⟨tdb', e, w, hview⟩ := @tdbOfsWrite_ok tdb h.ready.access p v hin
  have hg := w.grows h.ready
  have hcv := hg.kept.convert
  -- a cell is no part of what a header says about its record
  have hcong : ∀ b ∈ bs, ∀ a, b.off + 4 ≤ a → a < b.stop → view tdb' a = view tdb a := by
    intro b hb a h1 h2
    refine w.frame a ?_
    have := hout b hb
    omega
  refine ⟨tdb', e, w, hg.ready, hg.kept, ?_, ?_, fun q hq hne => ?_, fun i b hb hok => ?_⟩
  · rw [hcv, hg.kept.hashSize, w.mapSize]
    refine h.heap.frame (fun a ha => w.frame a ?_) fun b hb => ?_
    · rcases ha with ha | ⟨b, hb, hfree, h1, h2⟩
      · omega
      · rcases hout b hb with h3 | h3 | ⟨-, h3⟩
        · omega
        · omega
        · rw [h3] at hfree
          cases hfree
    · have hblk := h.block hb
      exact (h.heap.ok b hblk.1).congr hblk.2.2.2.2 (hcong b hblk.1)
  · rw [hcv, hview]
    exact ofsAt_write_same hv
  · have hw := h.cells_apart hq hp hne
    unfold WordsApart at hw
    rw [hcv, hview]
    exact ofsAt_write_disjoint (by simpa using hw)
  · exact hok.keep hg.kept (hcong b (h.block hb).1)

variable {i o : Nat} {b : Block}

/-- A record leaves its chain when the cell before it is made to point past it. -/
theorem Chained.unlink (h : Chained tdb bs fl chain) (hi : i < tdb.hashSize) {l₁ l₂ : List Nat}
    (hc : chain i = l₁ ++ o :: l₂) :
    ∃ tdb', tdbOfsWrite (lastCell (tdbHashTop tdb.hashSize i) l₁) (ofsAt tdb.convert (view tdb) o) tdb = .ok () tdb' ∧
      Edited tdb tdb' bs fl (update chain i (l₁ ++ l₂)) ∧
      Sets tdb tdb' chain (update chain i (l₁ ++ l₂)) o none := by
  have hlast : lastCell (tdbHashTop tdb.hashSize i) l₁ ∈ tdbHashTop tdb.hashSize i :: chain i := by
    have := lastCell_mem (tdbHashTop tdb.hashSize i) l₁
    rw [hc]
    simp only [mem_cons, mem_append] at this ⊢
    tauto
  have hlinks := h.links i hi
  have hnodup := hlinks.nodup
  rw [hc] at hlinks hnodup
  have hnotin : o ∉ l₁ ++ l₂ := (nodup_cons.mp (perm_middle.nodup_iff.mp hnodup)).1
  have hsub : ∀ j, ∀ q ∈ update chain i (l₁ ++ l₂) j, q ∈ chain j := by
    intro j q hq
    by_cases hj : j = i
    · subst hj
      rw [update_self] at hq
      rw [hc]
      simp only [mem_append, mem_cons] at hq ⊢
      tauto
    · rwa [update_of_ne hj] at hq
  obtain ⟨tdb', e, hr⟩ := h.relink (h.cell hi hlast) (ofsAt_lt tdb.convert (view tdb) o)
  refine ⟨tdb', e, ⟨⟨hr.ready, hr.kept.travlocks.trans h.travlocks, hr.heap, fun j hj => ?_, fun j hj q hq => ?_⟩,
    hr.kept, hr.writes.mapSize⟩, ⟨fun a => ?_, fun q hq a => ?_⟩⟩
  · rw [hr.kept.hashSize] at hj ⊢
    by_cases hji : j = i
    · subst hji
      rw [update_self]
      refine hlinks.unlink ?_ hr.at_ fun q hq hne => hr.other q (h.cell hj ?_) hne
      · refine nodup_cons.mpr ⟨fun hmem => ?_, hnodup⟩
        rw [← hc] at hmem
        exact h.hashTop_notMem hj j hmem
      · rw [hc]
        simp only [mem_cons, mem_append] at hq ⊢
        tauto
    · rw [update_of_ne hji]
      refine (h.links j hj).congr fun q hq => hr.other q (h.cell hj hq) ?_
      rintro rfl
      exact hji (h.cell_unique hj hi hq hlast)
  · obtain ⟨b, hb, hoff, hok⟩ := h.recs j (by rwa [hr.kept.hashSize] at hj) q (hsub j q hq)
    exact ⟨b, hb, hoff, (hr.recs j b hb hok).1⟩
  · simp only [reduceCtorEq, iff_false]
    rintro ⟨⟨j, hj, hmem⟩, -⟩
    rw [hr.kept.hashSize] at hj
    have hj' : j = i := h.bucket_unique hj hi (hsub j o hmem) (by rw [hc]; simp)
    subst hj'
    rw [update_self] at hmem
    exact hnotin hmem
  · unfold Holds
    have hmem : (∃ j < tdb'.hashSize, q ∈ update chain i (l₁ ++ l₂) j) ↔ ∃ j < tdb.hashSize, q ∈ chain j := by
      rw [hr.kept.hashSize]
      refine ⟨fun ⟨j, hj, hm⟩ => ⟨j, hj, hsub j q hm⟩, fun ⟨j, hj, hm⟩ => ⟨j, hj, ?_⟩⟩
      by_cases hji : j = i
      · subst hji
        rw [update_self]
        rw [hc] at hm
        simp only [mem_append, mem_cons] at hm ⊢
        tauto
      · rwa [update_of_ne hji]
    rw [hmem]
    refine and_congr_right fun ⟨j, hj, hm⟩ => ?_
    obtain ⟨b, hb, rfl, hok⟩ := h.recs j hj q hm
    rw [(hr.recs j b hb hok).2]

theorem Chained.push (h : Chained tdb bs fl chain) (hi : i < tdb.hashSize) (hb : b ∈ used bs) (hok : RecOk tdb i b)
    (hnext : ofsAt tdb.convert (view tdb) b.off = ofsAt tdb.convert (view tdb) (tdbHashTop tdb.hashSize i)) :
    ∃ tdb', tdbOfsWrite (tdbHashTop tdb.hashSize i) b.off tdb = .ok () tdb' ∧
      Edited tdb tdb' bs fl (update chain i (b.off :: chain i)) ∧
      Sets tdb tdb' chain (update chain i (b.off :: chain i)) b.off (entryAt tdb b.off) := by
  have hblk := h.block hb
  have hlt := h.ready.access.size_lt
  have hmem : ∀ j q, q ∈ update chain i (b.off :: chain i) j ↔ j = i ∧ q = b.off ∨ q ∈ chain j := by
    intro j q
    by_cases hj : j = i
    · subst hj
      simp
    · simp [hj]
  have htop : Cell tdb.hashSize bs (tdbHashTop tdb.hashSize i) := .inl ⟨i, hi, rfl⟩
  have hne : b.off ≠ tdbHashTop tdb.hashSize i := by
    have := (tdbHashTop_bounds h.hashSize_pos i).2.1
    omega
  obtain ⟨tdb', e, hr⟩ := h.relink htop (show b.off < 2 ^ 32 by omega)
  refine ⟨tdb', e, ⟨⟨hr.ready, hr.kept.travlocks.trans h.travlocks, hr.heap, fun j hj => ?_, fun j hj q hq => ?_⟩,
    hr.kept, hr.writes.mapSize⟩, ⟨fun a => ?_, fun q hq a => ?_⟩⟩
  · rw [hr.kept.hashSize] at hj ⊢
    by_cases hji : j = i
    · subst hji
      rw [update_self]
      refine (h.links j hj).push ?_ ?_ hr.at_ fun q hq => hr.other q (h.cell hj (by simp [hq])) ?_
      · have := h.heap.top
        omega
      · exact (hr.other b.off (.inr ⟨b, hb, rfl⟩) hne).trans hnext
      · rintro rfl
        exact h.hashTop_notMem hj j hq
    · rw [update_of_ne hji]
      refine (h.links j hj).congr fun q hq => hr.other q (h.cell hj hq) ?_
      rintro rfl
      exact hji (h.cell_unique hj hi hq (by simp))
  · rcases (hmem j q).mp hq with ⟨rfl, rfl⟩ | hq
    · exact ⟨b, hb, rfl, (hr.recs j b hb hok).1⟩
    · obtain ⟨c, hc, hoff, hok'⟩ := h.recs j (by rwa [hr.kept.hashSize] at hj) q hq
      exact ⟨c, hc, hoff, (hr.recs j c hc hok').1⟩
  · unfold Holds
    rw [(hr.recs i b hb hok).2, hr.kept.hashSize]
    exact and_iff_right ⟨i, hi, (hmem i b.off).mpr (.inl ⟨rfl, rfl⟩)⟩
  · unfold Holds
    simp only [hmem, hr.kept.hashSize, hq, and_false, false_or]
    refine and_congr_right fun ⟨j, hj, hm⟩ => ?_
    obtain ⟨c, hc, rfl, hok'⟩ := h.recs j hj q hm
    rw [(hr.recs j c hc hok').2]

/-! ## Space -/

/-- The chains do not see what happens outside the hash table and the records on them. -/
theorem Chained.grow (h : Chained tdb bs fl chain) {bs' : List Block} {fl' : List Nat} {us : List Block}
    {R : Nat → Prop} (g : Grows R tdb tdb')
    (hR : ∀ a, R a → a < freelistTop + 4 ∨ tdbDataStart tdb.hashSize + 4 ≤ a ∧ ∀ b ∈ us, ¬ (b.off ≤ a ∧ a < b.stop))
    (hus : ∀ i < tdb.hashSize, ∀ b ∈ used bs, b.off ∈ chain i → b ∈ us) (hsub : ∀ b ∈ us, b ∈ used bs')
    (hheap : Heap tdb.convert (view tdb') (tdbDataStart tdb.hashSize + 4) tdb'.mapSize bs' fl') :
    Chained tdb' bs' fl' chain ∧ ∀ o e, Holds tdb' chain o e ↔ Holds tdb chain o e := by
  have htop := h.heap.top
  have hkeep : ∀ i < tdb.hashSize, ∀ b ∈ used bs, b.off ∈ chain i → ∀ a, b.off ≤ a → a < b.stop →
      view tdb' a = view tdb a := by
    intro i hi b hb hmem a h1 h2
    have hblk := h.block hb
    refine g.frame a (by unfold Block.stop at h2; omega) fun hra => ?_
    rcases hR a hra with hlt | hsp
    · omega
    · exact hsp.2 b (hus i hi b hb hmem) ⟨h1, h2⟩
  have hrec : ∀ i < tdb.hashSize, ∀ o ∈ chain i, ∃ b ∈ used bs', b.off = o ∧ RecOk tdb' i b ∧
      entryAt tdb' o = entryAt tdb o := by
    intro i hi o ho
    obtain ⟨b, hb, rfl, hok⟩ := h.recs i hi o ho
    obtain ⟨hok', hentry⟩ := hok.keep g.kept fun a h1 h2 => hkeep i hi b hb ho a (by omega) h2
    exact ⟨b, hsub b (hus i hi b hb ho), rfl, hok', hentry⟩
  refine ⟨⟨g.ready, g.kept.travlocks.trans h.travlocks, ?_, fun i hi => ?_, fun i hi o ho => ?_⟩, fun o e => ?_⟩
  · rw [g.kept.convert, g.kept.hashSize]
    exact hheap
  · rw [g.kept.convert, g.kept.hashSize] at *
    refine (h.links i hi).congr fun q hq => ofsAt_congr fun a h1 h2 => ?_
    rcases mem_cons.mp hq with rfl | hq
    · have := tdbHashTop_bounds h.hashSize_pos i
      have := h.start_le
      refine g.frame a (by omega) fun hra => ?_
      have := hR a hra
      omega
    · obtain ⟨b, hb, rfl, -⟩ := h.recs i hi q hq
      exact hkeep i hi b hb hq a h1 (by unfold Block.stop sizeofRec; omega)
  · rw [g.kept.hashSize] at hi
    obtain ⟨b, hb, hoff, hok, -⟩ := hrec i hi o ho
    exact ⟨b, hb, hoff, hok⟩
  · unfold Holds
    rw [g.kept.hashSize]
    refine and_congr_right fun ⟨i, hi, ho⟩ => ?_
    obtain ⟨-, -, -, -, hentry⟩ := hrec i hi o ho
    rw [hentry]

/-- Words of the header before the free list do not matter to the chains. -/
theorem Chained.header (h : Chained tdb bs fl chain) {R : Nat → Prop} (w : Writes R tdb tdb')
    (hR : ∀ a, R a → a < freelistTop) :
    Edited tdb tdb' bs fl chain ∧ ∀ o e, Holds tdb' chain o e ↔ Holds tdb chain o e := by
  have htop := h.heap.top
  have hsame : ∀ a, freelistTop ≤ a → view tdb' a = view tdb a := fun a ha => w.frame a fun hra => by
    have := hR a hra
    omega
  have hheap : Heap tdb.convert (view tdb') (tdbDataStart tdb.hashSize + 4) tdb'.mapSize bs fl := by
    rw [w.mapSize]
    refine h.heap.frame (fun a ha => hsame a ?_) fun b hb => ?_
    · rcases ha with ha | ⟨b, hb, -, h1, -⟩
      · exact ha.1
      · have := (h.heap.tiles.bounds b hb).1
        omega
    · have hblk := h.block hb
      exact (h.heap.ok b hblk.1).congr hblk.2.2.2.2 fun a h1 _ => hsame a (by omega)
  obtain ⟨hch, hholds⟩ := h.grow (w.grows h.ready) (fun a ha => .inl (by have := hR a ha; omega))
    (fun _ _ b hb _ => hb) (fun b hb => hb) hheap
  exact ⟨⟨hch, w.same.kept, w.mapSize⟩, hholds⟩

/-- The error code does not matter to the chains. -/
theorem Chained.setEcode (h : Chained tdb bs fl chain) (e : TdbError) :
    Edited tdb { tdb with ecode := e } bs fl chain ∧
      ∀ o a, Holds { tdb with ecode := e } chain o a ↔ Holds tdb chain o a := by
  have hview : view { tdb with ecode := e } = view tdb := rfl
  have hready : Ready { tdb with ecode := e } :=
    ⟨⟨h.ready.access.size_lt, .inl ⟨h.ready.methods, h.ready.transaction⟩⟩, h.ready.methods, h.ready.file,
      h.ready.hashSize, h.ready.page⟩
  have hkept : Kept tdb { tdb with ecode := e } := ⟨rfl, rfl, rfl, rfl, rfl, rfl, rfl, rfl, rfl, rfl, rfl, rfl⟩
  have g : Grows (fun _ => False) tdb { tdb with ecode := e } := ⟨hready, hkept, le_rfl, fun a _ _ => by rw [hview]⟩
  obtain ⟨hch, hholds⟩ := h.grow g (fun _ hf => hf.elim) (fun _ _ b hb _ => hb) (fun b hb => hb)
    (by rw [hview]; exact h.heap)
  exact ⟨⟨hch, hkept, rfl⟩, hholds⟩

/-- `tdb_free` of a record that is on no chain. -/
theorem Chained.free (h : Chained tdb bs fl chain) (hb : b ∈ used bs)
    (hout : ∀ i < tdb.hashSize, b.off ∉ chain i) {r : ListStruct} (hr : r.recLen = b.len) (hfits : r.Fits) :
    ∃ tdb' bs' fl', tdbFree b.off r tdb = .ok () tdb' ∧ Edited tdb tdb' bs' fl' chain ∧
      ∀ o e, Holds tdb' chain o e ↔ Holds tdb chain o e := by
  obtain ⟨hbs, hfree⟩ := mem_used.mp hb
  obtain ⟨pre, post, rfl⟩ := append_of_mem hbs
  have hholed := h.heap.release hfree
  obtain ⟨tdb', bs', fl', e, w, hheap, hused, -⟩ := tdbFree_ok h.ready.access rfl hholed hr hfits
  have hspare : used (pre ++ (⟨b.off, b.len, true⟩ : Block) :: post) = used (pre ++ post) := by
    rw [used_append, used_cons_free rfl, used_append]
  have g : Grows (Spare (tdbDataStart tdb.hashSize + 4) (used (pre ++ post))) tdb tdb' := by
    refine (w.grows h.ready).mono fun a _ ha => ?_
    rw [← hspare]
    exact FreeBytes.spare hholed.tiles ha
  -- a record on a chain is not the one freed
  have hus : ∀ i < tdb.hashSize, ∀ c ∈ used (pre ++ b :: post), c.off ∈ chain i → c ∈ used (pre ++ post) := by
    intro i hi c hc hmem
    have hne : c ≠ b := by
      rintro rfl
      exact hout i hi hmem
    rw [mem_used] at hc ⊢
    refine ⟨?_, hc.2⟩
    have := hc.1
    simp only [mem_append, mem_cons] at this ⊢
    tauto
  rw [← w.mapSize] at hheap
  obtain ⟨hch, hholds⟩ := h.grow g (fun a ha => ha.imp_left And.right) hus (fun c hc => by rw [hused]; exact hc) hheap
  exact ⟨tdb', bs', fl', e, ⟨hch, g.kept, w.mapSize⟩, hholds⟩

/-- `tdb_do_delete` takes a record off its chain and frees it. -/
theorem tdbDoDelete_ok (h : Chained tdb bs fl chain) (hi : i < tdb.hashSize) {l₁ l₂ : List Nat}
    (hc : chain i = l₁ ++ o :: l₂) :
    ∃ tdb' bs' fl', tdbDoDelete o (recAt tdb.convert (view tdb) o) tdb = .ok () tdb' ∧
      Edited tdb tdb' bs' fl' (update chain i (l₁ ++ l₂)) ∧
      Sets tdb tdb' chain (update chain i (l₁ ++ l₂)) o none := by
  obtain ⟨-, hro, htr⟩ := h.ready.transaction
  have hmem : o ∈ chain i := by rw [hc]; simp
  obtain ⟨b, hb, rfl, hok⟩ := h.recs i hi o hmem
  have hblk := h.block hb
  have hbucket : tdbHashTop tdb.hashSize (recAt tdb.convert (view tdb) b.off).fullHash = tdbHashTop tdb.hashSize i := by
    rw [← tdbHashTop_mod, hok.bucket]
  obtain ⟨hlen, hnext, -⟩ := (h.heap.ok b hblk.1).recAt
  have hfits := fits_recAt tdb.convert (view tdb) b.off
  -- the cell before the record
  have hfrom : ChainFrom tdb bs i (tdbHashTop tdb.hashSize i) (l₁ ++ b.off :: l₂) := by
    rw [← hc]
    exact ⟨h.links i hi, h.recs i hi⟩
  have hlength := h.length_chain hi
  rw [hc, length_append] at hlength
  have hlast := @doDeleteLoop_ok _ _ _ _ _ _ _ h _ _ hfrom (tdb.mapSize + 1) 0 (by omega)
  have hcell : (if lastCell 0 l₁ = 0 then tdbHashTop tdb.hashSize i else lastCell 0 l₁) =
      lastCell (tdbHashTop tdb.hashSize i) l₁ := by
    cases l₁ with
    | nil => exact if_pos rfl
    | cons q l₁ =>
      refine if_neg (hfrom.links.ne_null _ ?_)
      exact mem_append_left _ (lastCell_mem q l₁)
  obtain ⟨tdb₁, e₁, hed₁, hset₁⟩ := h.unlink hi hc
  have hkept := hed₁.kept
  have hout : ∀ j < tdb₁.hashSize, b.off ∉ update chain i (l₁ ++ l₂) j := by
    intro j hj hm
    rw [hkept.hashSize] at hj
    have hnodup := hfrom.links.nodup
    by_cases hji : j = i
    · subst hji
      rw [update_self] at hm
      exact (nodup_cons.mp (perm_middle.nodup_iff.mp hnodup)).1 hm
    · rw [update_of_ne hji] at hm
      exact hji (h.bucket_unique hj hi hm hmem)
  obtain ⟨tdb₂, bs₂, fl₂, e₂, hed₂, hset₂⟩ := hed₁.chained.free hb hout hlen hfits
  refine ⟨tdb₂, bs₂, fl₂, ?_, hed₁.trans hed₂, ⟨fun e => ?_, fun q hq e => ?_⟩⟩
  · rw [tdbDoDelete, get_bind, if_neg (by simp [hro, htr]), if_neg (by simp [h.travlocks])]
    simp only [hbucket]
    rw [bind_ok (tdbOfsRead_ok h.ready.access (h.cell_out (.inl ⟨i, hi, rfl⟩)).1), bind_ok hlast, hcell, hnext,
      bind_ok e₁]
    exact e₂
  · rw [hset₂]
    exact hset₁.at_ e
  · rw [hset₂]
    exact hset₁.other q hq e

/-! ## Rewriting a record -/

/-- A record that is rewritten in place, with its length and tailer and its place on the chain as they
were. -/
theorem Chained.rewrite (h : Chained tdb bs fl chain) (hb : b ∈ used bs)
    (w : Writes (fun a => b.off ≤ a ∧ a < b.stop) tdb tdb') (hok : BlockOk tdb.convert (view tdb') b)
    (hrec : ∀ i < tdb.hashSize, b.off ∈ chain i →
      ofsAt tdb.convert (view tdb') b.off = ofsAt tdb.convert (view tdb) b.off ∧ RecOk tdb' i b) :
    Edited tdb tdb' bs fl chain ∧ ∀ o, o ≠ b.off → ∀ e, Holds tdb' chain o e ↔ Holds tdb chain o e := by
  have hg := w.grows h.ready
  have hblk := h.block hb
  have hout : ∀ c ∈ bs, c ≠ b → ∀ a, c.off ≤ a → a < c.stop → view tdb' a = view tdb a := by
    intro c hc hne a h1 h2
    refine w.frame a ?_
    have := h.heap.tiles.apart hc hblk.1 hne
    unfold BlocksApart at this
    omega
  have hkeep : ∀ i < tdb.hashSize, ∀ c ∈ used bs, c ≠ b → RecOk tdb i c →
      RecOk tdb' i c ∧ entryAt tdb' c.off = entryAt tdb c.off := fun i _ c hc hne hcok =>
    hcok.keep hg.kept fun a h1 h2 => hout c (h.block hc).1 hne a (by omega) h2
  refine ⟨⟨⟨hg.ready, hg.kept.travlocks.trans h.travlocks, ?_, fun i hi => ?_, fun i hi o ho => ?_⟩, hg.kept, w.mapSize⟩,
    fun o ho e => ?_⟩
  · rw [hg.kept.convert, hg.kept.hashSize, w.mapSize]
    refine h.heap.frame (fun a ha => w.frame a fun hin => ?_) fun c hc => ?_
    · -- the bytes of a record in use are not free
      rcases FreeBytes.spare h.heap.tiles ha with hsp | hsp
      · have := h.heap.top
        omega
      · exact hsp.2 b hb hin
    · by_cases hcb : c = b
      · rw [hcb]
        exact hok
      · have hc' := h.block hc
        exact (h.heap.ok c hc'.1).congr hc'.2.2.2.2 fun a h1 h2 => hout c hc'.1 hcb a (by omega) h2
  · rw [hg.kept.convert, hg.kept.hashSize] at *
    refine (h.links i hi).congr fun q hq => ?_
    rcases mem_cons.mp hq with rfl | hq
    · refine ofsAt_congr fun a h1 h2 => w.frame a ?_
      have := tdbHashTop_bounds h.hashSize_pos i
      omega
    · obtain ⟨c, hc, rfl, -⟩ := h.recs i hi q hq
      by_cases hcb : c = b
      · rw [hcb] at hq ⊢
        exact (hrec i hi hq).1
      · exact ofsAt_congr fun a h1 h2 => hout c (h.block hc).1 hcb a h1 (by unfold Block.stop sizeofRec; omega)
  · rw [hg.kept.hashSize] at hi
    obtain ⟨c, hc, rfl, hcok⟩ := h.recs i hi o ho
    by_cases hcb : c = b
    · rw [hcb] at ho
      exact ⟨b, hb, by rw [hcb], (hrec i hi ho).2⟩
    · exact ⟨c, hc, rfl, (hkeep i hi c hc hcb hcok).1⟩
  · unfold Holds
    rw [hg.kept.hashSize]
    refine and_congr_right fun ⟨i, hi, hm⟩ => ?_
    obtain ⟨c, hc, rfl, hcok⟩ := h.recs i hi o hm
    have hcb : c ≠ b := by
      rintro rfl
      exact ho rfl
    rw [(hkeep i hi c hc hcb hcok).2]

/-- The record holds the key and data that are written behind its header. -/
theorem recOk_of_entry {b : Block} {r : ListStruct} {key dbuf : List UInt8}
    (hrec : recAt tdb.convert (view tdb) b.off = r) (hmagic : r.magic = tdbMagic) (hkl : r.keyLen = key.length)
    (hdl : r.dataLen = dbuf.length) (hhash : r.fullHash = (tdb.hashFn key).toNat)
    (hroom : key.length + dbuf.length + sizeofOff ≤ b.len)
    (hkey : read (view tdb) (b.off + sizeofRec) key.length = key)
    (hdata : read (view tdb) (b.off + sizeofRec + key.length) dbuf.length = dbuf) :
    RecOk tdb ((tdb.hashFn key).toNat % tdb.hashSize) b ∧ entryAt tdb b.off = some (key, dbuf) := by
  have hne : ¬ tdbMagic = tdbDeadMagic := by decide
  have hentry : entryAt tdb b.off = some (key, dbuf) := by
    unfold entryAt
    rw [hrec]
    simp only [hmagic, hne, if_false, hkl, hdl, hkey, hdata]
  refine ⟨⟨by rw [hrec, hhash], by rw [hrec]; exact .inl hmagic, fun _ => ⟨?_, fun e he => ?_⟩⟩, hentry⟩
  · rw [hrec, hkl, hdl]
    exact hroom
  · rw [hentry] at he
    cases he
    rw [hrec, hhash]

/-- The two writes with which `tdb_store` fills a record. -/
theorem storeRec_ok (h : Chained tdb bs fl chain) {b : Block} (hb : b ∈ used bs) {r : ListStruct} (hfits : r.Fits)
    (hlen : r.recLen = b.len) {key dbuf : List UInt8} (hroom : key.length + dbuf.length + sizeofOff ≤ b.len) :
    ∃ tdb₁ tdb', tdbRecWrite b.off (storedRec r key dbuf (tdb.hashFn key).toNat) tdb = .ok () tdb₁ ∧
      tdbWrite (u32 (b.off + sizeofRec)) (key ++ dbuf) tdb₁ = .ok () tdb' ∧
      Writes (fun a => b.off ≤ a ∧ a < b.stop) tdb tdb' ∧ BlockOk tdb.convert (view tdb') b ∧
      ofsAt tdb.convert (view tdb') b.off = r.next ∧ RecOk tdb' ((tdb.hashFn key).toNat % tdb.hashSize) b ∧
      entryAt tdb' b.off = some (key, dbuf) := by
  obtain ⟨hbs, hfree, hlo, hhi, h4⟩ := h.block hb
  have hlt := h.ready.access.size_lt
  have hstop : b.stop = b.off + sizeofRec + b.len := rfl
  unfold sizeofOff at hroom
  have hu : u32 (b.off + sizeofRec) = b.off + sizeofRec := u32_of_lt (by omega)
  have hukey : u32 key.length = key.length := u32_of_lt (by omega)
  have hudata : u32 dbuf.length = dbuf.length := u32_of_lt (by omega)
  generalize hr' : storedRec r key dbuf (tdb.hashFn key).toNat = r'
  have hfits' : r'.Fits := by
    rw [← hr']
    exact ⟨hfits.next, hfits.recLen, by simp only [storedRec, hukey]; omega, by simp only [storedRec, hudata]; omega,
      (tdb.hashFn key).toNat_lt, show tdbMagic < 2 ^ 32 by decide⟩
  obtain ⟨tdb₁, e₁, w₁, hv₁⟩ := @tdbRecWrite_ok tdb h.ready.access b.off r' (by omega)
  obtain ⟨tdb₂, e₂, w₂, hv₂⟩ := @tdbWrite_ok tdb₁ w₁.access (b.off + sizeofRec) (key ++ dbuf)
    (by rw [w₁.mapSize, length_append]; omega)
  rw [length_append] at w₂
  have w : Writes (fun a => b.off ≤ a ∧ a < b.stop) tdb tdb₂ :=
    (w₁.mono fun a ha => ⟨ha.1, by omega⟩).trans (w₂.mono fun a ha => ⟨by omega, by omega⟩)
  have hk := w.same.kept
  have hrec : recAt tdb.convert (view tdb₂) b.off = r' := by
    rw [recAt, hv₂, read_write_disjoint (.inl le_rfl), hv₁]
    exact recAt_write_same hfits'
  have htail : ofsAt tdb.convert (view tdb₂) (b.stop - 4) = sizeofRec + b.len := by
    have hcong : ofsAt tdb.convert (view tdb₂) (b.stop - 4) = ofsAt tdb.convert (view tdb) (b.stop - 4) :=
      ofsAt_congr fun a h1 h2 => (w₂.frame a (by omega)).trans (w₁.frame a (by omega))
    rw [hcong]
    exact (h.heap.ok b hbs).tailer
  have hread := read_write_same (view tdb₁) (b.off + sizeofRec) (key ++ dbuf)
  rw [← hv₂, length_append, read_add] at hread
  have hkey := append_inj_left hread (by simp)
  have hdata := append_inj_right hread (by simp)
  have hrec₂ : recAt tdb₂.convert (view tdb₂) b.off = r' := by
    rw [hk.convert]
    exact hrec
  have hok := @recOk_of_entry tdb₂ b r' key dbuf hrec₂ (by rw [← hr']; rfl) (by rw [← hr']; exact hukey)
    (by rw [← hr']; exact hudata) (by rw [← hr', hk.hashFn]; rfl) hroom hkey hdata
  rw [hk.hashFn, hk.hashSize] at hok
  refine ⟨tdb₁, tdb₂, e₁, by rw [hu]; exact e₂, w, ?_, ?_, hok⟩
  · refine blockOk_of_recAt (by rw [← hr']; exact hlen) ?_ hfree hrec htail
    rw [← hr']
    exact show tdbMagic ≠ tdbFreeMagic by decide
  · rw [recAt_eq] at hrec
    have := congrArg ListStruct.next hrec
    rw [← hr'] at this
    exact this

/-- The writes with which `tdb_update_hash` overwrites the data of a record. -/
theorem updateRec_ok (h : Chained tdb bs fl chain) (hb : b ∈ used bs) {r : ListStruct}
    {key dbuf : List UInt8} (hr : recAt tdb.convert (view tdb) b.off = r) (hmagic : r.magic = tdbMagic)
    (hkl : r.keyLen = key.length) (hhash : r.fullHash = (tdb.hashFn key).toNat)
    (hkey : read (view tdb) (b.off + sizeofRec) key.length = key)
    (hroom : key.length + dbuf.length + sizeofOff ≤ b.len) :
    ∃ tdb', (do
        tdbWrite (u32 (b.off + sizeofRec + r.keyLen)) dbuf
        if dbuf.length ≠ r.dataLen then tdbRecWrite b.off { r with dataLen := u32 dbuf.length }
        else return () : TdbM Unit) tdb = .ok () tdb' ∧
      Writes (fun a => b.off ≤ a ∧ a < b.stop) tdb tdb' ∧ BlockOk tdb.convert (view tdb') b ∧
      ofsAt tdb.convert (view tdb') b.off = ofsAt tdb.convert (view tdb) b.off ∧
      RecOk tdb' ((tdb.hashFn key).toNat % tdb.hashSize) b ∧ entryAt tdb' b.off = some (key, dbuf) := by
  obtain ⟨hbs, hfree, hlo, hhi, h4⟩ := h.block hb
  have hlt := h.ready.access.size_lt
  have hstop : b.stop = b.off + sizeofRec + b.len := rfl
  obtain ⟨hlen, hnext, -⟩ := (h.heap.ok b hbs).recAt
  have hfits := fits_recAt tdb.convert (view tdb) b.off
  rw [hr] at hlen hnext hfits
  unfold sizeofOff at hroom
  have hu : u32 (b.off + sizeofRec + r.keyLen) = b.off + sizeofRec + key.length := by
    rw [hkl]
    exact u32_of_lt (by omega)
  have hudata : u32 dbuf.length = dbuf.length := u32_of_lt (by omega)
  obtain ⟨tdb₁, e₁, w₁, hv₁⟩ := @tdbWrite_ok tdb h.ready.access (b.off + sizeofRec + key.length) dbuf (by omega)
  have hrec₁ : recAt tdb.convert (view tdb₁) b.off = r := by
    rw [recAt, hv₁, read_write_disjoint (by omega)]
    exact hr
  -- the header is written if the length of the data changes
  obtain ⟨tdb₂, e₂, w₂, hrec₂⟩ : ∃ tdb₂, (if dbuf.length ≠ r.dataLen then
        tdbRecWrite b.off { r with dataLen := u32 dbuf.length } else pure () : TdbM Unit) tdb₁ = .ok () tdb₂ ∧
      Writes (fun a => b.off ≤ a ∧ a < b.off + sizeofRec) tdb₁ tdb₂ ∧
      recAt tdb.convert (view tdb₂) b.off = { r with dataLen := dbuf.length } := by
    rw [hudata]
    split
    · obtain ⟨tdb₂, e₂, w₂, hv₂⟩ := @tdbRecWrite_ok tdb₁ w₁.access b.off { r with dataLen := dbuf.length }
        (by rw [w₁.mapSize]; omega)
      refine ⟨tdb₂, e₂, w₂, ?_⟩
      rw [w₁.convert] at hv₂
      rw [hv₂]
      exact recAt_write_same ⟨hfits.next, hfits.recLen, hfits.keyLen, by simp only; omega, hfits.fullHash, hfits.magic⟩
    case isFalse heq =>
      refine ⟨tdb₁, rfl, Writes.refl w₁.access, ?_⟩
      rw [hrec₁, not_ne_iff.mp heq]
  have w : Writes (fun a => b.off ≤ a ∧ a < b.stop) tdb tdb₂ :=
    (w₁.mono fun a ha => ⟨by omega, by omega⟩).trans (w₂.mono fun a ha => ⟨ha.1, by omega⟩)
  have hk := w.same.kept
  have hkey₂ : read (view tdb₂) (b.off + sizeofRec) key.length = key := by
    refine (read_congr fun a h1 h2 => ?_).trans hkey
    exact (w₂.frame a (by omega)).trans (w₁.frame a (by omega))
  have hdata₂ : read (view tdb₂) (b.off + sizeofRec + key.length) dbuf.length = dbuf := by
    have hsame := read_write_same (view tdb) (b.off + sizeofRec + key.length) dbuf
    rw [← hv₁] at hsame
    exact (read_congr fun a h1 h2 => w₂.frame a (by omega)).trans hsame
  have htail : ofsAt tdb.convert (view tdb₂) (b.stop - 4) = sizeofRec + b.len := by
    have hcong : ofsAt tdb.convert (view tdb₂) (b.stop - 4) = ofsAt tdb.convert (view tdb) (b.stop - 4) :=
      ofsAt_congr fun a h1 h2 => (w₂.frame a (by omega)).trans (w₁.frame a (by omega))
    rw [hcong]
    exact (h.heap.ok b hbs).tailer
  have hok := @recOk_of_entry tdb₂ b { r with dataLen := dbuf.length } key dbuf (by rw [hk.convert]; exact hrec₂) hmagic
    hkl rfl (by rw [hk.hashFn]; exact hhash) hroom hkey₂ hdata₂
  rw [hk.hashFn, hk.hashSize] at hok
  refine ⟨tdb₂, ?_, w, ?_, ?_, hok⟩
  · rw [hu, bind_ok e₁]
    exact e₂
  · refine @blockOk_of_recAt _ _ b { r with dataLen := dbuf.length } hlen ?_ hfree hrec₂ htail
    simp only [hmagic]
    decide
  · rw [recAt_eq] at hrec₂
    exact (congrArg ListStruct.next hrec₂).trans hnext

theorem markDead_ok (h : Chained tdb bs fl chain) (hi : i < tdb.hashSize) (ho : o ∈ chain i) :
    ∃ tdb', tdbRecWrite o { recAt tdb.convert (view tdb) o with magic := tdbDeadMagic } tdb = .ok () tdb' ∧
      Edited tdb tdb' bs fl chain ∧ Sets tdb tdb' chain chain o none := by
  obtain ⟨b, hb, rfl, hok⟩ := h.recs i hi o ho
  obtain ⟨hbs, hfree, hlo, hhi, h4⟩ := h.block hb
  have hstop : b.stop = b.off + sizeofRec + b.len := rfl
  obtain ⟨hlen, hnext, -⟩ := (h.heap.ok b hbs).recAt
  have hbucket := hok.bucket
  have hfits := fits_recAt tdb.convert (view tdb) b.off
  generalize hr : ({ recAt tdb.convert (view tdb) b.off with magic := tdbDeadMagic } : ListStruct) = r
  have hfits' : r.Fits := by
    rw [← hr]
    exact ⟨hfits.next, hfits.recLen, hfits.keyLen, hfits.dataLen, hfits.fullHash, show tdbDeadMagic < 2 ^ 32 by decide⟩
  obtain ⟨tdb', e, w, hv⟩ := @tdbRecWrite_ok tdb h.ready.access b.off r (by omega)
  have hk := w.same.kept
  have hrec : recAt tdb.convert (view tdb') b.off = r := by
    rw [hv]
    exact recAt_write_same hfits'
  have hdead : r.magic = tdbDeadMagic := by rw [← hr]
  have hok' : RecOk tdb' i b := by
    rw [← hk.convert] at hrec
    refine ⟨?_, .inr (by rw [hrec, hdead]), fun hlive => ?_⟩
    · rw [hrec, ← hr, hk.hashSize]
      exact hbucket
    · rw [hrec, hdead] at hlive
      exact absurd hlive (by decide)
  have hblock : BlockOk tdb.convert (view tdb') b := by
    refine blockOk_of_recAt (by rw [← hr]; exact hlen) (by rw [hdead]; decide) hfree hrec ?_
    have hcong : ofsAt tdb.convert (view tdb') (b.stop - 4) = ofsAt tdb.convert (view tdb) (b.stop - 4) :=
      ofsAt_congr fun a h1 h2 => w.frame a (by omega)
    rw [hcong]
    exact (h.heap.ok b hbs).tailer
  have hsame : ofsAt tdb.convert (view tdb') b.off = ofsAt tdb.convert (view tdb) b.off := by
    rw [recAt_eq] at hrec
    have := congrArg ListStruct.next hrec
    rw [← hr] at this
    exact this.trans hnext
  obtain ⟨hed, hother⟩ := h.rewrite hb (w.mono fun a ha => ⟨ha.1, by omega⟩) hblock fun j hj hm =>
    ⟨hsame, by rw [h.bucket_unique hj hi hm ho]; exact hok'⟩
  refine ⟨tdb', e, hed, ⟨fun a => ?_, hother⟩⟩
  rw [Holds, entryAt, hk.convert, hrec]
  simp [hdead]

end Edits

end Samba.Tdb
