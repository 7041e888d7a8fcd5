/-
Allocation keeps the layout: `tdb_allocate` takes its space out of a free record, or out of the
space by which the file is grown, and leaves the records in use alone.
-/
import Samba.Tdb.Layout

namespace Samba.Tdb

open Bytes Links List

/-! ## Rounding up -/

theorem tdbAlign_lt (x a : Nat) : tdbAlign x a < 2 ^ 32 := Nat.and_lt_two_pow _ (by omega)

/-- Rounding up to a power of two, and down again modulo `2 ^ 32`. -/
theorem tdbAlign_pow (x k : Nat) : tdbAlign x (2 ^ k) = u32 (x + (2 ^ k - 1)) / 2 ^ k * 2 ^ k := by
  have hpos : 0 < 2 ^ k := Nat.two_pow_pos k
  have hy : u32 (x + (2 ^ k - 1)) < 2 ^ 32 := Nat.mod_lt _ (by decide)
  rw [tdbAlign]
  generalize u32 (x + (2 ^ k - 1)) = y at hy ⊢
  rcases Nat.lt_or_ge (2 ^ k - 1) (2 ^ 32) with hlt | hge
  · rw [← Nat.shiftRight_eq_div_pow, ← Nat.shiftLeft_eq, show 2 ^ 32 - 1 - (2 ^ k - 1) = 2 ^ 32 - (2 ^ k - 1 + 1) by omega]
    apply Nat.eq_of_testBit_eq
    intro i
    rw [Nat.testBit_and, Nat.testBit_two_pow_sub_succ hlt, Nat.testBit_two_pow_sub_one, Nat.testBit_shiftLeft,
      Nat.testBit_shiftRight]
    by_cases hki : k ≤ i
    · by_cases hi : i < 32
      · simp [hki, hi, Nat.not_lt.mpr hki]
      · have hpow : 2 ^ 32 ≤ 2 ^ i := Nat.pow_le_pow_right (by omega) (by omega)
        have : y.testBit i = false := Nat.testBit_lt_two_pow (by omega)
        simp [this, hki]
    · simp [hki, Nat.not_le.mp hki]
  · rw [show 2 ^ 32 - 1 - (2 ^ k - 1) = 0 by omega, Nat.and_zero, Nat.div_eq_of_lt (by omega), Nat.zero_mul]

theorem tdbAlign_two_pow {x k : Nat} (hx : x + (2 ^ k - 1) < 2 ^ 32) :
    tdbAlign x (2 ^ k) = (x + (2 ^ k - 1)) / 2 ^ k * 2 ^ k := by
  rw [tdbAlign_pow, u32_of_lt hx]

theorem tdbAlign_spec {x k : Nat} (hx : x + (2 ^ k - 1) < 2 ^ 32) :
    x ≤ tdbAlign x (2 ^ k) ∧ tdbAlign x (2 ^ k) ≤ x + (2 ^ k - 1) ∧ 2 ^ k ∣ tdbAlign x (2 ^ k) := by
  rw [tdbAlign_two_pow hx]
  have hpos : 0 < 2 ^ k := Nat.two_pow_pos k
  have h := Nat.div_add_mod (x + (2 ^ k - 1)) (2 ^ k)
  have hmod := Nat.mod_lt (x + (2 ^ k - 1)) hpos
  rw [Nat.mul_comm] at h
  exact ⟨by omega, by omega, Nat.dvd_mul_left ..⟩

/-! ## Walking the free list -/

namespace Heap

variable {cv : Bool} {m : Mem} {start stop : Nat} {bs : List Block} {fl : List Nat}

theorem freeChain (h : Heap cv m start stop bs fl) : FreeChain cv m start stop bs bs fl :=
  ⟨h.tiles, .refl _, h.links, h.perm, h.top⟩

theorem next_in (h : Heap cv m start stop bs fl) {q : Nat} (hq : q ∈ freelistTop :: fl) :
    ofsAt cv m q + sizeofRec ≤ stop := by
  have htop := h.tiles.le
  have := h.top
  rcases h.links.next_mem hq with h0 | hmem
  · rw [h0]
    unfold sizeofRec freelistTop at *
    omega
  · obtain ⟨b, hb, -, hoff⟩ := mem_freeOffs.mp (h.perm.mem_iff.mp hmem)
    have := (h.tiles.bounds b hb).2
    unfold Block.stop at this
    omega

end Heap

section Walk

variable {tdb : TdbContext} {start : Nat} {bs : List Block} {fl : List Nat}

theorem tdbRecFreeRead_ok (ha : Access tdb) (h : Heap tdb.convert (view tdb) start tdb.mapSize bs fl) {b : Block}
    (hb : b ∈ bs) (hfree : b.free = true) :
    tdbRecFreeRead b.off tdb = .ok (recAt tdb.convert (view tdb) b.off) tdb := by
  obtain ⟨-, hnext, hmagic⟩ := (h.ok b hb).recAt
  have hin : b.off + sizeofRec ≤ tdb.mapSize := by
    have := (h.tiles.bounds b hb).2.1
    unfold Block.stop at this
    omega
  have hmem : b.off ∈ freelistTop :: fl :=
    mem_cons_of_mem _ (h.perm.mem_iff.mpr (mem_freeOffs.mpr ⟨b, hb, hfree, rfl⟩))
  have hoob := tdbOob_ok ha (h.next_in hmem)
  rw [← hnext] at hoob
  have hm := hmagic.mpr hfree
  rw [tdbRecFreeRead, bind_ok (tdbRecGet_ok ha hin), if_neg (by rw [hm]; decide), bind_ok (pure_apply)]
  simp only [hm, ne_eq, not_true_eq_false, if_false]
  rw [bind_ok hoob]
  rfl

/-- A free record that is long enough, and the cell that points to it. -/
def Found (bs : List Block) (fl : List Nat) (length : Nat) (best : Bestfit) : Prop :=
  ∃ b ∈ bs, b.free = true ∧ b.off = best.recPtr ∧ length ≤ b.len ∧
    ∃ l₁ l₂, fl = l₁ ++ b.off :: l₂ ∧ best.lastPtr = lastCell freelistTop l₁

/-- The walk of `tdb_allocate` finds a free record that is long enough, if there is one. -/
theorem bestfitLoop_ok (ha : Access tdb) (h : Heap tdb.convert (view tdb) start tdb.mapSize bs fl) {length : Nat}
    {l₁ l₂ : List Nat} (hfl : fl = l₁ ++ l₂) {fuel : Nat} (hfuel : l₂.length < fuel) {best : Bestfit}
    (hbest : (best.recPtr = 0 ∧ ∀ b ∈ bs, b.free = true → b.off ∈ l₁ → b.len < length) ∨ Found bs fl length best) :
    ∃ best', bestfitLoop length fuel best (lastCell freelistTop l₁)
        (ofsAt tdb.convert (view tdb) (lastCell freelistTop l₁)) tdb = .ok best' tdb ∧
      ((best'.recPtr = 0 ∧ ∀ b ∈ bs, b.free = true → b.len < length) ∨ Found bs fl length best') := by
  induction l₂ generalizing l₁ fuel best with
  | nil =>
    obtain ⟨fuel, rfl⟩ : ∃ k, fuel = k + 1 := ⟨fuel - 1, by omega⟩
    have hend : ofsAt tdb.convert (view tdb) (lastCell freelistTop l₁) = 0 := by
      have := h.links
      rw [hfl] at this
      exact this.suffix
    refine ⟨best, by rw [bestfitLoop, if_pos hend]; rfl, hbest.imp_left fun ⟨h0, hall⟩ => ⟨h0, fun b hb hf => ?_⟩⟩
    refine hall b hb hf ?_
    rw [append_nil] at hfl
    rw [← hfl]
    exact h.perm.mem_iff.mpr (mem_freeOffs.mpr ⟨b, hb, hf, rfl⟩)
  | cons o l₂ ih =>
    obtain ⟨fuel, rfl⟩ : ∃ k, fuel = k + 1 := ⟨fuel - 1, by omega⟩
    have hlinks : Linked 0 (ofsAt tdb.convert (view tdb)) (lastCell freelistTop l₁) (o :: l₂) := by
      have := h.links
      rw [hfl] at this
      exact this.suffix
    have hmem : o ∈ fl := by rw [hfl]; simp
    obtain ⟨b, hb, hfree, hoff⟩ := mem_freeOffs.mp (h.perm.mem_iff.mp hmem)
    obtain ⟨hlen, hnext, -⟩ := (h.ok b hb).recAt
    rw [hlinks.2.1, ← hoff, bestfitLoop, if_neg (by rw [hoff]; exact hlinks.1),
      bind_ok (tdbRecFreeRead_ok ha h hb hfree), hlen, hnext]
    -- the record looked at hangs from the cell before it
    have hfound : length ≤ b.len → Found bs fl length ⟨b.off, lastCell freelistTop l₁, b.len⟩ := fun hle =>
      ⟨b, hb, hfree, rfl, hle, l₁, l₂, by rw [hoff]; exact hfl, rfl⟩
    have hcell : lastCell freelistTop (l₁ ++ [o]) = b.off := by rw [lastCell_append, hoff]
    have hfl' : fl = (l₁ ++ [o]) ++ l₂ := by simpa using hfl
    have hrest : ∀ best, ((best.recPtr = 0 ∧ ∀ c ∈ bs, c.free = true → c.off ∈ l₁ ++ [o] → c.len < length) ∨
        Found bs fl length best) → _ := fun best hb => ih hfl' (by simpa using hfuel) hb
    rw [hcell] at hrest
    split
    case isTrue hc =>
      split
      · exact ⟨_, rfl, .inr (hfound hc.1)⟩
      · exact hrest _ (.inr (hfound hc.1))
    case isFalse hc =>
      refine hrest best (hbest.imp_left fun ⟨h0, hall⟩ => ⟨h0, fun c hcm hcf hco => ?_⟩)
      rcases mem_append.mp hco with hco | hco
      · exact hall c hcm hcf hco
      · -- two records at one offset are the same
        have hceq : c = b := by
          by_contra hne
          have := h.tiles.apart hcm hb hne
          rw [mem_singleton, ← hoff] at hco
          unfold BlocksApart Block.stop sizeofRec at this
          omega
        rw [hceq]
        by_contra hlt
        exact hc ⟨by omega, .inl h0⟩

end Walk

/-! ## Taking space from a free record -/

/-- A record allocated with room for `length` bytes, out of free space only. -/
structure Allocated (start : Nat) (tdb tdb' : TdbContext) (bs bs' : List Block) (fl' : List Nat) (length : Nat)
    (blk : Block) (r : ListStruct) : Prop where
  writes : Writes (FreeBytes bs) tdb tdb'
  heap : Heap tdb.convert (view tdb') start tdb.mapSize bs' fl'
  free : blk.free = false
  used : (used bs').Perm (blk :: used bs)
  room : length ≤ blk.len
  recLen : r.recLen = blk.len
  fits : r.Fits

theorem used_cons_used {b : Block} (h : b.free = false) (bs : List Block) : used (b :: bs) = b :: used bs := by
  simp [used, h]

theorem freeOffs_cons_used {b : Block} (h : b.free = false) (bs : List Block) : freeOffs (b :: bs) = freeOffs bs := by
  simp [freeOffs, h]

theorem Heap.release {cv : Bool} {m : Mem} {start stop : Nat} {pre post : List Block} {b : Block} {fl : List Nat}
    (h : Heap cv m start stop (pre ++ b :: post) fl) (hb : b.free = false) :
    Holed cv m start stop pre ⟨b.off, b.len, true⟩ post fl := by
  obtain ⟨hpre, h4, hmod, hpost⟩ := h.tiles.mid
  have hapart := isChain_append.mp h.apart
  refine ⟨tiles_append.mpr ⟨b.off, hpre, rfl, h4, hmod, hpost⟩, rfl, fun c hc => h.ok c (Holed.mem_of_mem hc), h.links,
    ?_, hapart.1, (isChain_cons.mp hapart.2.1).2, h.top⟩
  have hperm := h.perm
  rw [freeOffs_append, freeOffs_cons_used hb, ← freeOffs_append] at hperm
  exact hperm

theorem mem_used {bs : List Block} {b : Block} : b ∈ used bs ↔ b ∈ bs ∧ b.free = false := by
  simp [used]

namespace Holed

variable {cv : Bool} {m : Mem} {start stop : Nat} {pre post : List Block} {hole left right : Block} {fl : List Nat}

/-- A hole with the header and tailer of a record in use is one. -/
theorem fill (h : Holed cv m start stop pre hole post fl) (hok : BlockOk cv m ⟨hole.off, hole.len, false⟩) :
    Heap cv m start stop (pre ++ ⟨hole.off, hole.len, false⟩ :: post) fl := by
  obtain ⟨hpre, h4, hmod, hpost⟩ := h.tiles.mid
  refine ⟨tiles_append.mpr ⟨hole.off, hpre, rfl, h4, hmod, hpost⟩, fun b hb => ?_, h.links, ?_, ?_, h.top⟩
  · simp only [mem_append, mem_cons] at hb
    rcases hb with hb | rfl | hb
    exacts [h.ok b (by simp [hb]), hok, h.ok b (by simp [hb])]
  · rw [freeOffs_append, freeOffs_cons_used rfl, ← freeOffs_append]
    exact h.perm
  · refine isChain_append.mpr ⟨h.preApart, isChain_cons.mpr ⟨fun c _ => by simp, h.postApart⟩, ?_⟩
    simp

/-- The left part of a hole may be made a record in use. -/
theorem carve (h : Holed cv m start stop pre hole post fl) (hoff : left.off = hole.off) (hmid : right.off = left.stop)
    (hstop : right.stop = hole.stop) (hl : 4 ≤ left.len ∧ left.len % 4 = 0) (hr : 4 ≤ right.len ∧ right.len % 4 = 0)
    (hlf : left.free = false) (hrf : right.free = true) (hok : BlockOk cv m left) :
    Holed cv m start stop (pre ++ [left]) right post fl := by
  obtain ⟨hpre, h4, hmod, hpost⟩ := h.tiles.mid
  refine ⟨?_, hrf, fun b hb => ?_, h.links, ?_, ?_, h.postApart, h.top⟩
  · rw [append_assoc]
    refine tiles_append.mpr ⟨hole.off, hpre, hoff, hl.1, hl.2, hmid, hr.1, hr.2, ?_⟩
    rw [hstop]
    exact hpost
  · simp only [mem_append, mem_singleton] at hb
    rcases hb with (hb | rfl) | hb
    exacts [h.ok b (by simp [hb]), hok, h.ok b (by simp [hb])]
  · have hleft : freeOffs [left] = [] := freeOffs_cons_used hlf []
    rw [freeOffs_append, freeOffs_append, hleft, append_nil, ← freeOffs_append]
    exact h.perm
  · refine isChain_append.mpr ⟨h.preApart, isChain_singleton _, ?_⟩
    simp [hlf]

end Holed

/-- The header and the tailer that an allocated record is given. -/
theorem blockOk_of_recAt {cv : Bool} {m : Mem} {b : Block} {r : ListStruct}
    (hlen : r.recLen = b.len) (hmagic : r.magic ≠ tdbFreeMagic) (hfree : b.free = false)
    (hrec : recAt cv m b.off = r) (htail : ofsAt cv m (b.stop - 4) = sizeofRec + b.len) : BlockOk cv m b := by
  rw [recAt_eq] at hrec
  refine ⟨?_, htail, ?_⟩
  · rw [← hlen, ← hrec]
  · rw [hfree]
    simp only [Bool.false_eq_true, iff_false]
    rw [← hrec] at hmagic
    exact hmagic

theorem fits_recLen {n : Nat} (h : n < 2 ^ 32) : ({ recLen := n } : ListStruct).Fits :=
  ⟨Nat.two_pow_pos 32, h, Nat.two_pow_pos 32, Nat.two_pow_pos 32, Nat.two_pow_pos 32, Nat.two_pow_pos 32⟩

section AllocateOfs

variable {tdb : TdbContext} {start : Nat} {bs : List Block} {fl : List Nat} {length : Nat} {best : Bestfit}

/-- `tdb_allocate_ofs` allocates from the free record it is given. -/
theorem tdbAllocateOfs_ok (ha : Access tdb) (hstart : start = tdbDataStart tdb.hashSize + 4)
    (h : Heap tdb.convert (view tdb) start tdb.mapSize bs fl) (h4 : 4 ≤ length) (hf : Found bs fl length best) :
    ∃ tdb' bs' fl' blk r, tdbAllocateOfs length best.recPtr (recAt tdb.convert (view tdb) best.recPtr)
        best.lastPtr tdb = .ok (blk.off, r) tdb' ∧ Allocated start tdb tdb' bs bs' fl' length blk r := by
  obtain ⟨b, hb, hfree, hoff, hle, l₁, l₂, rfl, hlast⟩ := hf
  obtain ⟨pre, post, rfl⟩ := append_of_mem hb
  have hbounds := h.tiles.bounds b hb
  have hlt := ha.size_lt
  have hstop : b.stop = b.off + sizeofRec + b.len := rfl
  obtain ⟨hlen, hnext, -⟩ := (h.ok b hb).recAt
  have hfits := fits_recAt tdb.convert (view tdb) b.off
  rw [← hoff, hlast]
  generalize hr : recAt tdb.convert (view tdb) b.off = r at hlen hnext hfits
  -- the record leaves the free list
  obtain ⟨tdb₁, e₁, w₁, hl₁, hok₁⟩ := h.freeChain.unlink ha
  rw [← hnext] at e₁
  have hapart := isChain_append.mp h.apart
  have h₁ : Holed tdb.convert (view tdb₁) start tdb.mapSize pre b post (l₁ ++ l₂) := by
    refine ⟨h.tiles, hfree, fun c hc => ?_, hl₁, ?_, hapart.1, (isChain_cons.mp hapart.2.1).2, h.top⟩
    · have hc' : c ∈ pre ++ b :: post := Holed.mem_of_mem hc
      exact hok₁ c hc' (h.ok c hc')
    · have hp := h.perm
      rw [freeOffs_append, freeOffs_cons_free hfree] at hp
      rw [freeOffs_append]
      exact (perm_middle.symm.trans (hp.trans perm_middle)).cons_inv
  have hin : ∀ a, b.off ≤ a ∧ a < b.stop → FreeBytes (pre ++ b :: post) a := fun a ha =>
    .inr ⟨b, by simp, hfree, ha.1, ha.2⟩
  have hcv₁ := w₁.convert
  have hms₁ := w₁.mapSize
  rw [tdbAllocateOfs]
  by_cases hsplit : r.recLen > length + minRecSize
  · -- the left part is used, the right part is freed
    rw [if_pos hsplit]
    unfold minRecSize sizeofRec tdbAlignment at hsplit
    obtain ⟨hal₁, hal₂, hal₃⟩ := @tdbAlign_spec length 2 (by omega)
    rw [show (2 : Nat) ^ 2 = tdbAlignment from rfl] at hal₁ hal₂ hal₃
    generalize tdbAlign length tdbAlignment = len at hal₁ hal₂ hal₃
    unfold tdbAlignment at hal₂ hal₃
    have hright : u32 (b.off + sizeofRec + len) = b.off + sizeofRec + len := by
      refine u32_of_lt ?_
      unfold sizeofRec at *
      omega
    have hrest : sub32 r.recLen (sizeofRec + len) = b.len - (sizeofRec + len) := by
      rw [hlen]
      refine sub32_of_le ?_ ?_
      · unfold sizeofRec
        omega
      · omega
    rw [bind_ok e₁]
    simp only [hright, hrest]
    generalize hr' : ({ r with recLen := len, magic := tdbMagic } : ListStruct) = r'
    have hfits' : r'.Fits := by
      rw [← hr']
      exact ⟨hfits.next, by simp only; omega, hfits.keyLen, hfits.dataLen, hfits.fullHash,
        show tdbMagic < 2 ^ 32 by decide⟩
    have hlen' : r'.recLen = len := by rw [← hr']
    have hmagic' : r'.magic ≠ tdbFreeMagic := by rw [← hr']; exact show tdbMagic ≠ tdbFreeMagic by decide
    obtain ⟨left, hleft⟩ : ∃ left : Block, left = ⟨b.off, len, false⟩ := ⟨_, rfl⟩
    obtain ⟨right, hrt⟩ : ∃ right : Block, right = ⟨b.off + sizeofRec + len, b.len - (sizeofRec + len), true⟩ := ⟨_, rfl⟩
    have hll : left.len = len := by rw [hleft]
    have hrl : right.len = b.len - (sizeofRec + len) := by rw [hrt]
    have hls : left.stop = b.off + sizeofRec + len := by rw [hleft]; rfl
    have hrs : right.stop = b.stop := by
      rw [hrt]
      unfold Block.stop sizeofRec
      simp only
      omega
    unfold sizeofRec at hls hrl
    obtain ⟨tdb₂, e₂, w₂, hv₂⟩ := @tdbRecWrite_ok tdb₁ w₁.access b.off r' (by omega)
    obtain ⟨tdb₃, e₃, w₃, hv₃⟩ := @updateTailer_ok tdb₂ w₂.access left r' (by rw [hlen', hleft])
      (by rw [hls, w₂.mapSize, hms₁]; unfold sizeofRec at hstop; omega)
    have hcv₂ := w₂.convert.trans hcv₁
    rw [hcv₁] at hv₂
    rw [hcv₂] at hv₃
    have h₃ : Holed tdb.convert (view tdb₃) start tdb.mapSize pre b post (l₁ ++ l₂) := by
      refine h₁.congr fun a ha => (w₃.frame a ?_).trans (w₂.frame a (by omega))
      unfold sizeofRec at hstop
      omega
    have hok₃ : BlockOk tdb.convert (view tdb₃) left := by
      refine blockOk_of_recAt (by rw [hlen', hleft]) hmagic' (by rw [hleft]) ?_ ?_
      · have hrec : recAt tdb.convert (view tdb₃) left.off = recAt tdb.convert (view tdb₂) left.off := by
          rw [recAt, recAt, hv₃, read_write_disjoint ?_]
          left
          rw [hls, hleft]
          unfold sizeofRec
          simp only
          omega
        rw [hrec, hv₂, hleft]
        exact recAt_write_same hfits'
      · rw [hv₃]
        exact ofsAt_write_same (by rw [hleft]; unfold sizeofRec; simp only; omega)
    have hholed : Holed tdb.convert (view tdb₃) start tdb.mapSize (pre ++ [left]) right post (l₁ ++ l₂) :=
      h₃.carve (by rw [hleft]) (by rw [hls, hrt]; rfl) hrs (by omega) (by omega) (by rw [hleft]) (by rw [hrt]) hok₃
    have hcv₃ := w₃.convert.trans hcv₂
    have hms₃ := w₃.mapSize.trans (w₂.mapSize.trans hms₁)
    rw [← hcv₃, ← hms₃] at hholed
    obtain ⟨tdb₄, bs', fl', e₄, w₄, hheap, hused, -⟩ := @tdbFree_ok _ _ _ _ _ _
      { recLen := b.len - (sizeofRec + len) } w₃.access
      (by rw [w₃.hashSize, w₂.hashSize, w₁.hashSize]; exact hstart) hholed (by rw [hrt])
      (fits_recLen (by omega))
    rw [hcv₃, hms₃] at hheap
    have hoffl : left.off = b.off := by rw [hleft]
    refine ⟨tdb₄, bs', fl', left, r', ?_, ?_, hheap, by rw [hleft], ?_, by rw [hleft]; exact hal₁, by rw [hlen', hleft],
      hfits'⟩
    · rw [hoffl] at e₃ ⊢
      rw [hrt] at e₄
      rw [bind_ok e₂, bind_ok e₃, bind_ok e₄]
      rfl
    · refine w₁.trans ((w₂.mono fun a ha => hin a (by omega)).trans ((w₃.mono fun a ha => hin a ?_).trans
        (w₄.mono fun a ha => ?_)))
      · unfold sizeofRec at hstop
        omega
      · rcases ha with ha | ⟨c, hc, hcf, h1, h2⟩
        · exact .inl ha
        · simp only [mem_append, mem_cons, not_mem_nil, or_false] at hc
          rcases hc with (hc | rfl) | rfl | hc
          · exact .inr ⟨c, by simp [hc], hcf, h1, h2⟩
          · rw [hleft] at hcf
            cases hcf
          · refine hin a ⟨?_, by omega⟩
            rw [hrt] at h1
            simp only at h1
            omega
          · exact .inr ⟨c, by simp [hc], hcf, h1, h2⟩
    · rw [hused]
      simp only [used_append, used_cons_free hfree, used_cons_used (show left.free = false by rw [hleft])]
      simp only [append_assoc, cons_append]
      exact perm_middle
  · -- the whole record is used
    rw [if_neg hsplit, bind_ok e₁]
    generalize hr' : ({ r with magic := tdbMagic } : ListStruct) = r'
    have hfits' : r'.Fits := by
      rw [← hr']
      exact ⟨hfits.next, hfits.recLen, hfits.keyLen, hfits.dataLen, hfits.fullHash, show tdbMagic < 2 ^ 32 by decide⟩
    have hlen' : r'.recLen = b.len := by rw [← hr']; exact hlen
    have hmagic' : r'.magic ≠ tdbFreeMagic := by rw [← hr']; exact show tdbMagic ≠ tdbFreeMagic by decide
    obtain ⟨tdb₂, e₂, w₂, hv₂⟩ := @tdbRecWrite_ok tdb₁ w₁.access b.off r' (by omega)
    rw [hcv₁] at hv₂
    have h₂ : Holed tdb.convert (view tdb₂) start tdb.mapSize pre b post (l₁ ++ l₂) :=
      h₁.congr fun a ha => w₂.frame a (by omega)
    have hok₂ : BlockOk tdb.convert (view tdb₂) ⟨b.off, b.len, false⟩ := by
      refine blockOk_of_recAt hlen' hmagic' rfl (by rw [hv₂]; exact recAt_write_same hfits') ?_
      have htail := (hok₁ b hb (h.ok b hb)).tailer
      rw [hv₂]
      refine (ofsAt_write_disjoint ?_).trans htail
      simp only [length_convertIf, length_toBytes, Block.stop]
      omega
    refine ⟨tdb₂, _, l₁ ++ l₂, ⟨b.off, b.len, false⟩, r', by rw [bind_ok e₂]; rfl, ?_, h₂.fill hok₂, rfl, ?_, hle, hlen',
      hfits'⟩
    · exact w₁.trans (w₂.mono fun a ha => hin a (by omega))
    · rw [used_append, used_cons_used rfl, used_append, used_cons_free hfree]
      exact perm_middle

end AllocateOfs

/-! ## Growing -/

/-- The settings that no call changes. -/
structure Kept (tdb tdb' : TdbContext) : Prop where
  mapPtr : tdb'.mapPtr = tdb.mapPtr
  readOnly : tdb'.readOnly = tdb.readOnly
  traverseRead : tdb'.traverseRead = tdb.traverseRead
  hashSize : tdb'.hashSize = tdb.hashSize
  internal : tdb'.internal = tdb.internal
  convert : tdb'.convert = tdb.convert
  seqnum : tdb'.seqnum = tdb.seqnum
  travlocks : tdb'.travlocks = tdb.travlocks
  hashFn : tdb'.hashFn = tdb.hashFn
  methods : tdb'.methods = tdb.methods
  pageSize : tdb'.pageSize = tdb.pageSize
  maxDeadRecords : tdb'.maxDeadRecords = tdb.maxDeadRecords

theorem Kept.refl (tdb : TdbContext) : Kept tdb tdb :=
  ⟨rfl, rfl, rfl, rfl, rfl, rfl, rfl, rfl, rfl, rfl, rfl, rfl⟩

theorem Kept.trans {tdb tdb' tdb'' : TdbContext} (h : Kept tdb tdb') (h' : Kept tdb' tdb'') : Kept tdb tdb'' :=
  ⟨h'.mapPtr.trans h.mapPtr, h'.readOnly.trans h.readOnly, h'.traverseRead.trans h.traverseRead,
    h'.hashSize.trans h.hashSize, h'.internal.trans h.internal, h'.convert.trans h.convert, h'.seqnum.trans h.seqnum,
    h'.travlocks.trans h.travlocks, h'.hashFn.trans h.hashFn, h'.methods.trans h.methods,
    h'.pageSize.trans h.pageSize, h'.maxDeadRecords.trans h.maxDeadRecords⟩

theorem Same.kept {tdb tdb' : TdbContext} (h : Same tdb tdb') : Kept tdb tdb' := by
  unfold Same at h
  rw [h]
  exact ⟨rfl, rfl, rfl, rfl, rfl, rfl, rfl, rfl, rfl, rfl, rfl, rfl⟩

/-- A database open for writing outside a transaction, with the size of its file known. -/
structure Ready (tdb : TdbContext) : Prop where
  access : Access tdb
  methods : tdb.methods = .io
  file : tdb.internal = false → tdb.disk.size = tdb.mapSize
  hashSize : 0 < tdb.hashSize
  page : ∃ k, 2 ≤ k ∧ tdb.pageSize = 2 ^ k

/-- The context `tdb'` comes from `tdb` by writes to bytes in `R`, or past the end of the map. -/
structure Grows (R : Nat → Prop) (tdb tdb' : TdbContext) : Prop where
  ready : Ready tdb'
  kept : Kept tdb tdb'
  mapSize_le : tdb.mapSize ≤ tdb'.mapSize
  frame : ∀ a, a < tdb.mapSize → ¬ R a → view tdb' a = view tdb a

namespace Grows

variable {R R' : Nat → Prop} {tdb tdb' tdb'' : TdbContext}

theorem mono (h : Grows R tdb tdb') (hR : ∀ a, a < tdb.mapSize → R a → R' a) : Grows R' tdb tdb' :=
  ⟨h.ready, h.kept, h.mapSize_le, fun a ha hn => h.frame a ha (mt (hR a ha) hn)⟩

theorem trans (h : Grows R tdb tdb') (h' : Grows R tdb' tdb'') : Grows R tdb tdb'' :=
  ⟨h'.ready, h.kept.trans h'.kept, h.mapSize_le.trans h'.mapSize_le, fun a ha hn =>
    (h'.frame a (lt_of_lt_of_le ha h.mapSize_le) hn).trans (h.frame a ha hn)⟩

end Grows

theorem Ready.transaction {tdb : TdbContext} (h : Ready tdb) :
    tdb.transaction = none ∧ tdb.readOnly = false ∧ tdb.traverseRead = false := by
  rcases h.access.mode with ⟨-, h⟩ | ⟨-, t, ht⟩
  · exact h
  · have := h.methods
    rw [ht.methods] at this
    cases this

theorem Writes.grows {R : Nat → Prop} {tdb tdb' : TdbContext} (w : Writes R tdb tdb') (h : Ready tdb) :
    Grows R tdb tdb' := by
  have hk := w.same.kept
  refine ⟨⟨w.access, hk.methods.trans h.methods, fun hi => ?_, by rw [hk.hashSize]; exact h.hashSize, ?_⟩, hk,
    le_of_eq w.mapSize.symm, fun a _ hn => w.frame a hn⟩
  · rw [(w.outside h.transaction.1).2, w.mapSize]
    exact h.file (hk.internal ▸ hi)
  · rw [hk.pageSize]
    exact h.page

/-- The top of the free list, and what lies behind the hash table but in no record in use. -/
def Spare (start : Nat) (us : List Block) (a : Nat) : Prop :=
  freelistTop ≤ a ∧ a < freelistTop + 4 ∨ start ≤ a ∧ ∀ b ∈ us, ¬ (b.off ≤ a ∧ a < b.stop)

theorem FreeBytes.spare {start stop : Nat} {bs : List Block} (ht : Tiles start bs stop) {a : Nat}
    (h : FreeBytes bs a) : Spare start (used bs) a := by
  refine h.imp_right ?_
  rintro ⟨b, hb, hf, h1, h2⟩
  refine ⟨(ht.bounds b hb).1.trans h1, fun c hc hin => ?_⟩
  rw [used, mem_filter] at hc
  have hne : b ≠ c := by
    rintro rfl
    simp [hf] at hc
  have := ht.apart hb hc.1 hne
  unfold BlocksApart at this
  omega

section Expand

variable {tdb : TdbContext} {start : Nat} {bs : List Block} {fl : List Nat}

/-- The end of the file that `tdb_expand` computes. -/
def expandStop (tdb : TdbContext) (size : Nat) : Nat := tdbAlign (u32 (tdb.mapSize + u32 (size * 10))) tdb.pageSize

/-- A database open for writing, outside a transaction or inside one, that knows the size of its file. -/
structure Growable (tdb : TdbContext) : Prop where
  access : Access tdb
  file : tdb.methods = .io → tdb.internal = false → tdb.disk.size = tdb.mapSize
  inside : ∀ t, InTransaction tdb t → tdb.internal = false ∧ t.oldMapSize ≤ tdb.mapSize
  heads : freelistTop + tdbHashtableSize tdb.hashSize ≤ tdb.mapSize

theorem Ready.growable (h : Ready tdb) (heads : freelistTop + tdbHashtableSize tdb.hashSize ≤ tdb.mapSize) : Growable tdb :=
  ⟨h.access, fun _ => h.file, fun _ ht => (nomatch h.methods.symm.trans ht.methods), heads⟩

/-- What lies behind the end of the map is out of bounds. -/
theorem tdbOob_growable (h : Growable tdb) {len : Nat} (hgt : tdb.mapSize < len) (hlt : len < 2 ^ 32) :
    tdbOob (u32 len) tdb = errcode .errIo tdb := by
  rw [tdbOob, get_bind, u32_of_lt hlt]
  rcases h.access.mode with ⟨hm, -⟩ | ⟨-, t, ht⟩
  · rw [hm]
    dsimp only
    rw [ioOob, get_bind, if_neg (by omega)]
    by_cases hi : tdb.internal = true
    · rw [if_pos hi]
    · rw [if_neg hi, if_pos (by rw [h.file hm (by simpa using hi)]; exact hgt)]
  · rw [ht.methods]
    dsimp only
    rw [transactionOob, get_bind, if_neg (by omega)]

/-- Looking for an expansion by someone else only sets the error code. -/
theorem probe_growable (h : Growable tdb) (hlt : tdb.mapSize + 1 < 2 ^ 32) :
    attempt (tdbOob (u32 (tdb.mapSize + 1))) tdb = .ok none { tdb with ecode := .errIo } :=
  attempt_failed (tdbOob_growable h (Nat.lt_succ_self _) hlt)

/-- A heap to which space has been added at the end. -/
theorem Heap.grow {m' : Mem} {stop : Nat} (h : Heap tdb.convert (view tdb) start tdb.mapSize bs fl) {len : Nat}
    (h4 : 4 ≤ len) (hmod : len % 4 = 0) (hstop : stop = tdb.mapSize + sizeofRec + len)
    (hframe : ∀ a, a < tdb.mapSize → m' a = view tdb a) :
    Holed tdb.convert m' start stop bs ⟨tdb.mapSize, len, true⟩ [] fl := by
  refine ⟨tiles_append.mpr ⟨tdb.mapSize, h.tiles, rfl, h4, hmod, hstop.symm⟩, rfl, fun b hb => ?_, ?_, ?_, h.apart,
    .nil, h.top⟩
  · have hb' : b ∈ bs := by simpa using hb
    have hbounds := h.tiles.bounds b hb'
    exact (h.ok b hb').congr hbounds.2.2.1 fun a _ h2 => hframe a (by omega)
  · refine h.links.congr fun q hq => ofsAt_congr fun a _ h2 => hframe a ?_
    have := h.freeChain.cell_in hq
    omega
  · rw [append_nil]
    exact h.perm

/-- The file behind a database grown, if there is one: in a transaction by an extent. -/
theorem expandFile_growable (h : Growable tdb) {addition : Nat} (hlt : tdb.mapSize + addition < 2 ^ 32) :
    ∃ tdb', (if !tdb.internal then tdbExpandFile tdb.mapSize addition else pure ()) tdb = .ok () tdb' ∧ Same tdb tdb' ∧
      Growable { tdb' with mapSize := tdb.mapSize + addition } ∧ ∀ a, a < tdb.mapSize → view tdb' a = view tdb a := by
  have hheads := h.heads
  rcases h.access.mode with ⟨hm, ht, hr, htr⟩ | ⟨hc, t, ht⟩
  · by_cases hi : tdb.internal = true
    · rw [if_neg (by simp [hi])]
      exact ⟨tdb, rfl, rfl, ⟨⟨hlt, .inl ⟨hm, ht, hr, htr⟩⟩, fun _ hno => absurd (hi.symm.trans hno) (by decide),
        fun _ ht' => (nomatch hm.symm.trans ht'.methods), Nat.le_add_right_of_le hheads⟩, fun _ _ => rfl⟩
    · have hf : tdb.internal = false := by simpa using hi
      have hio : tdbExpandFile tdb.mapSize addition tdb = ioExpandFile tdb.mapSize addition tdb := by
        rw [tdbExpandFile, get_bind, hm]
      obtain ⟨hsize, hbytes⟩ := @foldl_expandOps tdb.disk tdb.mapSize addition (by rw [h.file hm hf])
      rw [if_pos (by simp [hi]), hio, ioExpandFile_eq hr htr hlt]
      refine ⟨_, rfl, rfl, ⟨⟨hlt, .inl ⟨hm, ht, hr, htr⟩⟩, fun _ _ => hsize,
        fun _ ht' => (nomatch hm.symm.trans ht'.methods), Nat.le_add_right_of_le hheads⟩, fun a ha => ?_⟩
      rw [view_io hm, view_io (show (tdb.diskOps _).methods = .io from hm)]
      exact hbytes a ha
  · obtain ⟨hf, hold⟩ := h.inside t ht
    obtain ⟨t', e, w⟩ := @transactionWrite_null tdb.hashSize tdb.mapSize addition t ht.list hold hheads
    have hexpand : tdbExpandFile tdb.mapSize addition tdb = .ok () { tdb with transaction := some t' } := by
      simp only [tdbExpandFile, transactionExpandFile, transactionMethodWrite, get_bind, ht.methods, ht.transaction,
        WriteBuf.length, e]
      rfl
    have hin : InTransaction { tdb with transaction := some t', mapSize := tdb.mapSize + addition } t' :=
      ⟨ht.methods, rfl, hlt, w.ok⟩
    rw [if_pos (by simp [hf]), hexpand]
    refine ⟨_, rfl, rfl, ⟨⟨hlt, .inr ⟨hc, t', hin⟩⟩, fun hm => (nomatch hm.symm.trans ht.methods), fun t'' ht'' => ?_,
      Nat.le_add_right_of_le hheads⟩, fun a ha => ?_⟩
    · cases ht''.transaction
      exact ⟨hf, w.oldMapSize ▸ Nat.le_add_right_of_le hold⟩
    · have hview : view { tdb with transaction := some t' } = overlay tdb.disk.bytes t'.elements := by
        simp [view, ht.methods]
      rw [hview, view_inTransaction ht, w.overlay]
      exact write_of_lt ha

/-- What `tdb_expand` does when the new end does not lie below the old one: the file is grown, and the new space is freed. -/
theorem tdbExpand_eq (h : Growable tdb) {size : Nat} (hlt : tdb.mapSize + 1 < 2 ^ 32)
    (hle : tdb.mapSize ≤ expandStop tdb size) :
    ∃ tdb', tdbExpand size tdb =
        tdbFree tdb.mapSize { recLen := sub32 (expandStop tdb size - tdb.mapSize) sizeofRec } tdb' ∧
      Growable tdb' ∧ Kept tdb tdb' ∧ tdb'.mapSize = expandStop tdb size ∧
      ∀ a, a < tdb.mapSize → view tdb' a = view tdb a := by
  have hstop : expandStop tdb size < 2 ^ 32 := tdbAlign_lt _ _
  have hadd : sub32 (expandStop tdb size) tdb.mapSize = expandStop tdb size - tdb.mapSize := sub32_of_le hle hstop
  have hnew : u32 (tdb.mapSize + (expandStop tdb size - tdb.mapSize)) = expandStop tdb size := by
    rw [Nat.add_sub_cancel' hle, u32_of_lt hstop]
  have hoff : sub32 (expandStop tdb size) (expandStop tdb size - tdb.mapSize) = tdb.mapSize := by
    rw [sub32_of_le (Nat.sub_le ..) hstop, Nat.sub_sub_self hle]
  have hprobed : Growable { tdb with ecode := .errIo } := by
    refine ⟨⟨hlt.trans' (Nat.lt_succ_self _), ?_⟩, h.file, fun t ht => h.inside t ⟨ht.methods, ht.transaction, ht.size_lt, ht.list⟩,
      h.heads⟩
    exact h.access.mode.imp_right fun ⟨hc, t, ht⟩ => ⟨hc, t, ht.methods, ht.transaction, ht.size_lt, ht.list⟩
  obtain ⟨tdb₂, e, hsame, hgrown, hframe⟩ := @expandFile_growable { tdb with ecode := .errIo } hprobed
    (expandStop tdb size - tdb.mapSize) (by dsimp only; omega)
  have hmap := hsame.mapSize
  have hkept := hsame.kept
  dsimp only at e hmap hgrown hframe
  rw [Nat.add_sub_cancel' hle] at hgrown
  refine ⟨{ tdb₂ with mapSize := expandStop tdb size }, ?_, hgrown, ?_, rfl, hframe⟩
  · rw [tdbExpand, get_bind, bind_ok (probe_growable h hlt), get_bind]
    have hsz : sub32 (tdbAlign (u32 (tdb.mapSize + u32 (size * 10))) tdb.pageSize) tdb.mapSize =
        expandStop tdb size - tdb.mapSize := hadd
    dsimp only
    rw [hsz, bind_ok e, bind_ok (modify_apply _), get_bind]
    dsimp only
    rw [hmap, hnew, hoff]
  · exact ⟨hkept.mapPtr, hkept.readOnly, hkept.traverseRead, hkept.hashSize, hkept.internal, hkept.convert, hkept.seqnum,
      hkept.travlocks, hkept.hashFn, hkept.methods, hkept.pageSize, hkept.maxDeadRecords⟩

/-- A database stays growable when it is written to. -/
theorem Growable.writes {R : Nat → Prop} {tdb' : TdbContext} (h : Growable tdb) (w : Writes R tdb tdb') : Growable tdb' := by
  have hk := w.same.kept
  refine ⟨w.access, fun hm hi => ?_, fun t' ht' => ?_, by rw [hk.hashSize, w.mapSize]; exact h.heads⟩
  · have hm' : tdb.methods = .io := hk.methods.symm.trans hm
    rcases h.access.mode with ⟨-, ht, -⟩ | ⟨-, t, ht⟩
    · rw [(w.outside ht).2, w.mapSize]
      exact h.file hm' (hk.internal.symm.trans hi)
    · cases hm'.symm.trans ht.methods
  · rcases h.access.mode with ⟨hm, -⟩ | ⟨-, t, ht⟩
    · cases (hk.methods.symm.trans ht'.methods).symm.trans hm
    · obtain ⟨-, -, t₁, ht₁, hold, -⟩ := w.inside t ht
      cases ht'.transaction.symm.trans ht₁.transaction
      obtain ⟨hi, hle⟩ := h.inside t ht
      exact ⟨hk.internal.trans hi, by rw [hold, w.mapSize]; exact hle⟩

theorem four_dvd_expandStop (hpage : ∃ k, 2 ≤ k ∧ tdb.pageSize = 2 ^ k) (size : Nat) : expandStop tdb size % 4 = 0 := by
  obtain ⟨k, hk, hpage⟩ := hpage
  rw [expandStop, hpage, tdbAlign_pow]
  exact Nat.mod_eq_zero_of_dvd ((Nat.pow_dvd_pow 2 hk).trans (Nat.dvd_mul_left ..))

theorem Heap.mod_four (hstart : start = tdbDataStart tdb.hashSize + 4)
    (h : Heap tdb.convert (view tdb) start tdb.mapSize bs fl) : tdb.mapSize % 4 = 0 := by
  refine h.tiles.mod_four ?_
  rw [hstart]
  unfold tdbDataStart tdbHashTop freelistTop sizeofOff
  omega

/-- Where the new end leaves room for a record behind the old one, `tdb_expand` adds a free record there. -/
theorem tdbExpand_grown (hgrow : Growable tdb) (hpage : ∃ k, 2 ≤ k ∧ tdb.pageSize = 2 ^ k)
    (hstart : start = tdbDataStart tdb.hashSize + 4) (h : Heap tdb.convert (view tdb) start tdb.mapSize bs fl) {size : Nat}
    (hroom : tdb.mapSize + 28 ≤ expandStop tdb size) :
    ∃ tdb' bs' fl', tdbExpand size tdb = .ok () tdb' ∧ Growable tdb' ∧ Kept tdb tdb' ∧ tdb'.mapSize = expandStop tdb size ∧
      (∀ a, a < tdb.mapSize → ¬ Spare start (used bs) a → view tdb' a = view tdb a) ∧
      Heap tdb.convert (view tdb') start tdb'.mapSize bs' fl' ∧ used bs' = used bs ∧
      ∃ b ∈ bs', b.free = true ∧ expandStop tdb size ≤ tdb.mapSize + b.len + sizeofRec := by
  have hstop : expandStop tdb size < 2 ^ 32 := tdbAlign_lt _ _
  have hstop4 := four_dvd_expandStop hpage size
  have hmap4 := h.mod_four hstart
  obtain ⟨tdb₃, e₃, hgrow₃, hkept, hmap₃, hframe₃⟩ := @tdbExpand_eq tdb hgrow size (by omega) (by omega)
  generalize expandStop tdb size = stop at *
  have hlen : sub32 (stop - tdb.mapSize) sizeofRec = stop - tdb.mapSize - 24 := sub32_of_le (by unfold sizeofRec; omega) (by omega)
  have hholed : Holed tdb₃.convert (view tdb₃) start tdb₃.mapSize bs ⟨tdb.mapSize, stop - tdb.mapSize - 24, true⟩ [] fl := by
    rw [hkept.convert, hmap₃]
    exact h.grow (by omega) (by omega) (by unfold sizeofRec; omega) hframe₃
  obtain ⟨tdb₄, bs', fl', e₄, w₄, hheap, hused, b, hb, hbf, hb1, hb2⟩ := @tdbFree_ok _ _ _ _ _ _
    { recLen := stop - tdb.mapSize - 24 } hgrow₃.access (by rw [hkept.hashSize]; exact hstart) hholed rfl
    (fits_recLen (by omega))
  rw [append_nil] at hused
  rw [hkept.convert, ← w₄.mapSize] at hheap
  refine ⟨tdb₄, bs', fl', ?_, hgrow₃.writes w₄, hkept.trans w₄.same.kept, w₄.mapSize.trans hmap₃, fun a ha hn => ?_, hheap, hused,
    b, hb, hbf, ?_⟩
  · rw [e₃, hlen]
    exact e₄
  · -- below the old end only free records have been written
    refine (w₄.frame a fun hf => hn ?_).trans (hframe₃ a ha)
    rcases hf with hf | ⟨c, hc, hcf, h1, h2⟩
    · exact .inl hf
    · rcases mem_append.mp hc with hc | hc
      · exact FreeBytes.spare h.tiles (.inr ⟨c, hc, hcf, h1, h2⟩)
      · rw [mem_singleton] at hc
        rw [hc] at h1
        simp only at h1
        omega
  · have hbe : b.off + 24 + b.len = b.stop := rfl
    have hhole : (⟨tdb.mapSize, stop - tdb.mapSize - 24, true⟩ : Block).stop = tdb.mapSize + 24 + (stop - tdb.mapSize - 24) := rfl
    simp only at hb1
    unfold sizeofRec
    omega

/-- The records of a database start right behind its hash table. -/
theorem tdbDataStart_add {hashSize : Nat} (h : 0 < hashSize) :
    tdbDataStart hashSize + 4 = freelistTop + tdbHashtableSize hashSize := by
  unfold tdbDataStart tdbHashTop tdbHashtableSize sizeofOff
  rw [Nat.mod_eq_of_lt (by omega)]
  omega

/-- `tdb_expand` adds a free record at the end. -/
theorem tdbExpand_ok (hready : Ready tdb) (hstart : start = tdbDataStart tdb.hashSize + 4)
    (h : Heap tdb.convert (view tdb) start tdb.mapSize bs fl) {size : Nat} (h28 : 28 ≤ size)
    (hbound : tdb.mapSize + size * 10 + tdb.pageSize ≤ 2 ^ 32) :
    ∃ tdb' bs' fl', tdbExpand size tdb = .ok () tdb' ∧ Grows (Spare start (used bs)) tdb tdb' ∧
      Heap tdb.convert (view tdb') start tdb'.mapSize bs' fl' ∧ used bs' = used bs ∧
      (∃ b ∈ bs', b.free = true ∧ size ≤ b.len) ∧ tdb'.mapSize ≤ tdb.mapSize + size * 10 + tdb.pageSize := by
  obtain ⟨k, hk2, hpage⟩ := hready.page
  have hpow : 0 < 2 ^ k := Nat.two_pow_pos k
  have hx : u32 (tdb.mapSize + u32 (size * 10)) = tdb.mapSize + size * 10 := by unfold u32; omega
  obtain ⟨hal₁, hal₂, -⟩ := @tdbAlign_spec (tdb.mapSize + size * 10) k (by omega)
  have hstop : expandStop tdb size = tdbAlign (tdb.mapSize + size * 10) (2 ^ k) := by rw [expandStop, hx, hpage]
  have hheads : freelistTop + tdbHashtableSize tdb.hashSize ≤ tdb.mapSize := by
    rw [← tdbDataStart_add hready.hashSize, ← hstart]
    exact h.tiles.le
  obtain ⟨tdb', bs', fl', e, hgrow, hkept, hmap, hframe, hheap, hused, b, hb, hfree, hlen⟩ :=
    @tdbExpand_grown tdb start bs fl (hready.growable hheads) hready.page hstart h size (by omega)
  have hm : tdb'.methods = .io := hkept.methods.trans hready.methods
  refine ⟨tdb', bs', fl', e, ⟨⟨hgrow.access, hm, hgrow.file hm, by rw [hkept.hashSize]; exact hready.hashSize,
    by rw [hkept.pageSize]; exact hready.page⟩, hkept, by omega, hframe⟩, hheap, hused, ⟨b, hb, hfree, ?_⟩, by omega⟩
  unfold sizeofRec at hlen
  omega

end Expand

/-! ## Allocating -/

/-- What `tdb_allocate` does: a record in use with room for `length` bytes and a tailer, made out of
free space or of space by which the file grows. -/
structure Allocates (start : Nat) (tdb tdb' : TdbContext) (bs bs' : List Block) (fl' : List Nat) (length : Nat)
    (blk : Block) (r : ListStruct) : Prop where
  grows : Grows (Spare start (used bs)) tdb tdb'
  heap : Heap tdb.convert (view tdb') start tdb'.mapSize bs' fl'
  free : blk.free = false
  used : (used bs').Perm (blk :: used bs)
  room : length + sizeofOff ≤ blk.len
  recLen : r.recLen = blk.len
  fits : r.Fits
  mapSize_le : tdb'.mapSize ≤ tdb.mapSize + (length + 28) * 10 + tdb.pageSize

/-- What `tdb_allocate` finds on the free list in its first round. -/
def bestfitFor (length : Nat) : TdbM Bestfit := do
  let recPtr ← tdbOfsRead freelistTop
  bestfitLoop (u32 (length + sizeofOff)) ((← get).mapSize + 1) {} freelistTop recPtr

/-- A free record is long enough, so that the file is not grown. -/
def ServedFree (tdb : TdbContext) (length : Nat) : Prop := ∃ best, bestfitFor length tdb = .ok best tdb ∧ best.recPtr ≠ 0

section Allocate

variable {tdb : TdbContext} {start : Nat} {bs : List Block} {fl : List Nat} {length : Nat}

/-- One round of `tdb_allocate`: it takes a free record that is long enough if there is one, and
else grows the file and tries again. -/
theorem tdbAllocateAgain_ok (ha : Access tdb) (hstart : start = tdbDataStart tdb.hashSize + 4)
    (h : Heap tdb.convert (view tdb) start tdb.mapSize bs fl) (h4 : 4 ≤ length) (fuel : Nat) :
    (∃ tdb' bs' fl' blk r, tdbAllocateAgain length (fuel + 1) tdb = .ok (blk.off, r) tdb' ∧
      Allocated start tdb tdb' bs bs' fl' length blk r) ∨
    (∀ b ∈ bs, b.free = true → b.len < length) ∧ tdbAllocateAgain length (fuel + 1) tdb =
      (tdbExpand (u32 (length + sizeofRec)) >>= fun _ => tdbAllocateAgain length fuel) tdb := by
  have htop : freelistTop + 4 ≤ tdb.mapSize := h.top.trans h.tiles.le
  have hfl : fl.length < tdb.mapSize := h.freeChain.length_fl
  obtain ⟨best, e, hbest⟩ := @bestfitLoop_ok tdb start bs fl ha h length [] fl rfl (tdb.mapSize + 1) (by omega) {}
    (.inl ⟨rfl, by simp⟩)
  simp only [lastCell] at e
  rw [tdbAllocateAgain, bind_ok (tdbOfsRead_ok ha htop), get_bind, bind_ok e]
  rcases hbest with ⟨h0, hall⟩ | hf
  · exact .inr ⟨hall, by rw [if_neg (by simp [h0])]⟩
  · left
    obtain ⟨b, hb, hfree, hoff, -⟩ := id hf
    have hne : best.recPtr ≠ 0 := by
      have := (h.tiles.bounds b hb).1
      have := h.top
      unfold freelistTop at *
      omega
    have hread := tdbRecFreeRead_ok ha h hb hfree
    rw [hoff] at hread
    rw [if_pos hne, bind_ok hread]
    exact tdbAllocateOfs_ok ha hstart h h4 hf

theorem not_servedFree (ha : Access tdb) (h : Heap tdb.convert (view tdb) start tdb.mapSize bs fl)
    (hlen : u32 (length + sizeofOff) = length + 4) (hall : ∀ b ∈ bs, b.free = true → b.len < length + 4) :
    ¬ServedFree tdb length := by
  rintro ⟨best, e, hne⟩
  have htop : freelistTop + 4 ≤ tdb.mapSize := h.top.trans h.tiles.le
  have hfl : fl.length < tdb.mapSize := h.freeChain.length_fl
  obtain ⟨best', e', hbest⟩ := @bestfitLoop_ok tdb start bs fl ha h (length + 4) [] fl rfl (tdb.mapSize + 1) (by omega) {}
    (.inl ⟨rfl, by simp⟩)
  simp only [lastCell] at e'
  rw [bestfitFor, bind_ok (tdbOfsRead_ok ha htop), get_bind, hlen, e'] at e
  cases e
  rcases hbest with ⟨h0, -⟩ | ⟨b, hb, hfree, -, hle, -⟩
  · exact hne h0
  · have := hall b hb hfree
    omega

/-- `tdb_allocate` returns a record with room for what was asked, and keeps the layout. -/
theorem tdbAllocate_ok (hready : Ready tdb) (hstart : start = tdbDataStart tdb.hashSize + 4)
    (h : Heap tdb.convert (view tdb) start tdb.mapSize bs fl) (hfits : length + sizeofOff < 2 ^ 32)
    (hbound : ¬ServedFree tdb length → tdb.mapSize + (length + 28) * 10 + tdb.pageSize ≤ 2 ^ 32) :
    ∃ tdb' bs' fl' blk r, tdbAllocate length tdb = .ok (blk.off, r) tdb' ∧
      Allocates start tdb tdb' bs bs' fl' length blk r := by
  have hlen : u32 (length + sizeofOff) = length + 4 := u32_of_lt hfits
  obtain ⟨fuel, hfuel⟩ : ∃ k, tdb.mapSize = k + 1 + 1 := by
    have := h.top
    have := h.tiles.le
    unfold freelistTop at *
    exact ⟨tdb.mapSize - 2, by omega⟩
  rw [tdbAllocate, get_bind, hlen, hfuel]
  rcases tdbAllocateAgain_ok hready.access hstart h (show 4 ≤ length + 4 by omega) (fuel + 1) with
    ⟨tdb', bs', fl', blk, r, e, hal⟩ | ⟨hall, e⟩
  · refine ⟨tdb', bs', fl', blk, r, e, ?_, ?_, hal.free, hal.used, hal.room, hal.recLen, hal.fits, ?_⟩
    · exact (hal.writes.grows hready).mono fun a _ hf => FreeBytes.spare h.tiles hf
    · rw [hal.writes.mapSize]
      exact hal.heap
    · rw [hal.writes.mapSize]
      omega
  · have hbound := hbound (not_servedFree hready.access h hlen hall)
    have hsize : u32 (length + 4 + sizeofRec) = length + 28 := u32_of_lt (by unfold sizeofRec; omega)
    obtain ⟨tdb₁, bs₁, fl₁, e₁, g₁, h₁, hused₁, ⟨b, hb, hfree, hble⟩, hmap₁⟩ := tdbExpand_ok hready hstart h
      (show 28 ≤ length + 28 by omega) hbound
    have hcv := g₁.kept.convert
    rw [← hcv] at h₁
    have hstart₁ : start = tdbDataStart tdb₁.hashSize + 4 := by rw [g₁.kept.hashSize]; exact hstart
    rw [e, hsize, bind_ok e₁]
    -- the second round finds the record that the first one added
    rcases tdbAllocateAgain_ok g₁.ready.access hstart₁ h₁ (show 4 ≤ length + 4 by omega) fuel with
      ⟨tdb', bs', fl', blk, r, e', hal⟩ | ⟨hnone, -⟩
    · refine ⟨tdb', bs', fl', blk, r, e', ?_, ?_, hal.free, hused₁ ▸ hal.used, hal.room, hal.recLen, hal.fits, ?_⟩
      · refine g₁.trans ((hal.writes.grows g₁.ready).mono fun a _ hf => ?_)
        rw [← hused₁]
        exact FreeBytes.spare h₁.tiles hf
      · rw [hal.writes.mapSize, ← hcv]
        exact hal.heap
      · rw [hal.writes.mapSize]
        exact hmap₁
    · have := hnone b hb hfree
      omega

end Allocate

end Samba.Tdb
