/-
Growing the map (`tdb_expand` in lib/tdb/common/io.c) for every size that may be asked for: the new end is computed with 32 bits,
so that what a size of 2^32 / 10 or more adds may be anything.
-/
import Samba.Tdb.Accounting
import Samba.Tdb.Keeps

namespace Samba.Tdb

open Bytes

/-! ## The size of the map -/

/-- `tdb_oob` finds no expansion by someone else. -/
def Frozen (tdb : TdbContext) : Prop := tdb.methods = .transaction ∨ tdb.internal = true ∨ tdb.disk.size ≤ tdb.mapSize

/-- No expansion by someone else is found, and the map has the size `n`. -/
def SizeIs (n : Nat) (tdb : TdbContext) : Prop := Frozen tdb ∧ tdb.mapSize = n

/-! ## The methods -/

section Methods

variable {n : Nat}

theorem errcode_keepsSize {α : Type} (e : TdbError) : Keeps (SizeIs n) (errcode e : TdbM α) := fun tdb h =>
  ⟨fun _ _ e => (nomatch e), fun e' tdb' e => by cases e; exact h⟩

theorem tdbOob_keepsSize (len : Nat) : Keeps (SizeIs n) (tdbOob len) := by
  intro tdb h
  rw [tdbOob, get_bind]
  cases hm : tdb.methods with
  | io =>
    dsimp only
    rw [ioOob, get_bind]
    split
    · exact Keeps.pure () tdb h
    · split
      · exact errcode_keepsSize _ tdb h
      · split
        · exact errcode_keepsSize _ tdb h
        · -- the file would have to be longer than the map
          next hlt hi hlong =>
          rcases h.1 with h | h | h
          · cases hm.symm.trans h
          · exact absurd h hi
          · omega
  | transaction =>
    dsimp only
    rw [transactionOob, get_bind]
    split
    · exact Keeps.pure () tdb h
    · exact errcode_keepsSize _ tdb h

theorem diskWrite_keepsSize (off : Nat) (buf : List UInt8) : Keeps (SizeIs n) (diskOp (.write off buf)) := fun tdb h =>
  ⟨fun a' tdb' e => by cases e; exact h, fun _ _ e => (nomatch e)⟩

theorem ioWrite_keepsSize (off : Nat) (buf : List UInt8) : Keeps (SizeIs n) (ioWrite off buf) := by
  refine .get fun s => ?_
  split
  · exact .pure ()
  · split
    · exact errcode_keepsSize _
    · exact .bind (tdbOob_keepsSize _) fun _ => diskWrite_keepsSize off buf

theorem ioRead_keepsSize (off len : Nat) (cv : Bool) : Keeps (SizeIs n) (ioRead off len cv) :=
  .bind (tdbOob_keepsSize _) fun _ => .get fun _ => .pure _

theorem transactionFail_keepsSize {α : Type} : Keeps (SizeIs n) (transactionFail : TdbM α) := fun tdb h =>
  ⟨fun _ _ e => (nomatch e), fun e' tdb' e => by cases e; exact h⟩

theorem transactionMethodWrite_keepsSize (off : Nat) (buf : WriteBuf) : Keeps (SizeIs n) (transactionMethodWrite off buf) := by
  intro tdb h
  rw [transactionMethodWrite, get_bind]
  cases ht : tdb.transaction with
  | none => exact Keeps.throw _ tdb h
  | some t =>
    dsimp only
    cases hw : transactionWrite tdb.hashSize (buf.length + 1) t off buf with
    | ok t' => exact ⟨fun _ tdb' e => by cases e; exact h, fun _ _ e => by cases e⟩
    | error e => exact Keeps.throw e tdb h

theorem sizeIs_invariant (n : Nat) : MethodInvariant (SizeIs n) := by
  refine ⟨errcode_keepsSize, tdbRead_keeps transactionFail_keepsSize ioRead_keepsSize, fun off buf => .get fun s => ?_⟩
  split
  · exact ioWrite_keepsSize _ _
  · exact transactionMethodWrite_keepsSize _ _

end Methods

/-! ## Every size -/

/-- `tdb_expand` fails and leaves the size of the map, or makes the map larger by what was asked at least, with a free record that is
large enough. -/
def ExpandMeets (start : Nat) (tdb : TdbContext) (size : Nat) : Prop :=
  (∃ tdb', tdbExpand size tdb = .error .failed tdb' ∧ tdb'.mapSize = tdb.mapSize) ∨
  ∃ tdb' bs' fl', tdbExpand size tdb = .ok () tdb' ∧ tdb.mapSize + size ≤ tdb'.mapSize ∧ tdb'.mapSize < 2 ^ 32 ∧
    Heap tdb.convert (view tdb') start tdb'.mapSize bs' fl' ∧ ∃ b ∈ bs', b.free = true ∧ size ≤ b.len + sizeofRec

/-- The end of the page of `x`, without a bound. -/
def pageEnd (page x : Nat) : Nat := (x + (page - 1)) / page * page

/-- The end of the map that `tdb_expand` is after, without a bound. -/
def wantedStop (tdb : TdbContext) (size : Nat) : Nat := tdb.mapSize + size * 10

/-- The sum does not wrap around `2 ^ 32`, up to the end of its page, or what is lost by that is made up for by the nine further
records and the rest of the page. -/
structure SizeFits (tdb : TdbContext) (size : Nat) : Prop where
  page : wantedStop tdb size + tdb.pageSize ≤ (wantedStop tdb size / 2 ^ 32 + 1) * 2 ^ 32
  madeUp : wantedStop tdb size / 2 ^ 32 * 2 ^ 32 ≤ size * 9 + (pageEnd tdb.pageSize (wantedStop tdb size) - wantedStop tdb size)

/-- The new space has room for a record, as it has from a size of three on, or becomes part of a free record before it. -/
def RoomForRecord (tdb : TdbContext) (bs : List Block) (size : Nat) : Prop :=
  3 ≤ size ∨ tdb.mapSize + 28 ≤ pageEnd tdb.pageSize (wantedStop tdb size) ∨
    tdb.mapSize < pageEnd tdb.pageSize (wantedStop tdb size) ∧ ∃ b ∈ bs.getLast?, b.free = true

/-- The map ends with a page, and ten times the size is a multiple of `2 ^ 32` or less than a page below one. -/
structure GrowsByNothing (tdb : TdbContext) (size : Nat) : Prop where
  page : tdb.mapSize % tdb.pageSize = 0
  size : size * 10 % 2 ^ 32 = 0 ∨ 2 ^ 32 < size * 10 % 2 ^ 32 + tdb.pageSize

/-- The sizes for which `tdb_expand` does what it should: the sum fits, with room for a record, or, outside a transaction, nothing is
added at all, which fails. -/
def ExpandFits (tdb : TdbContext) (bs : List Block) (size : Nat) : Prop :=
  SizeFits tdb size ∧ RoomForRecord tdb bs size ∨ tdb.methods = .io ∧ GrowsByNothing tdb size

/-! ## The new end -/

section NewEnd

variable {tdb : TdbContext} {size : Nat}

variable {k : Nat}

/-- The new end, as the rest of what was wanted modulo `2 ^ 32`. -/
theorem expandStop_eq (tdb : TdbContext) (size : Nat) (hpow : tdb.pageSize = 2 ^ k) :
    expandStop tdb size = u32 (wantedStop tdb size % 2 ^ 32 + (2 ^ k - 1)) / 2 ^ k * 2 ^ k := by
  have hsum : u32 (tdb.mapSize + u32 (size * 10)) = wantedStop tdb size % 2 ^ 32 := by
    unfold u32 wantedStop
    omega
  rw [expandStop, hsum, hpow, tdbAlign_pow]

/-- Where the page is not lost, the new end is that of the page, less what is lost. -/
theorem expandStop_add (hk : k ≤ 32) (hpow : tdb.pageSize = 2 ^ k)
    (h : wantedStop tdb size + tdb.pageSize ≤ (wantedStop tdb size / 2 ^ 32 + 1) * 2 ^ 32) :
    expandStop tdb size + wantedStop tdb size / 2 ^ 32 * 2 ^ 32 = pageEnd tdb.pageSize (wantedStop tdb size) := by
  rw [expandStop_eq tdb size hpow, pageEnd]
  rw [hpow] at h ⊢
  have hpos : 0 < 2 ^ k := Nat.two_pow_pos k
  have hsplit : 2 ^ 32 = 2 ^ k * 2 ^ (32 - k) := by rw [← Nat.pow_add, Nat.add_sub_cancel' hk]
  have hdiv := Nat.div_add_mod (wantedStop tdb size) (2 ^ 32)
  generalize wantedStop tdb size / 2 ^ 32 = q at h hdiv ⊢
  have hu : u32 (wantedStop tdb size % 2 ^ 32 + (2 ^ k - 1)) = wantedStop tdb size % 2 ^ 32 + (2 ^ k - 1) :=
    u32_of_lt (by omega)
  rw [hu]
  generalize wantedStop tdb size % 2 ^ 32 = y at hdiv ⊢
  have hx : wantedStop tdb size + (2 ^ k - 1) = y + (2 ^ k - 1) + 2 ^ k * (2 ^ (32 - k) * q) := by
    rw [← hdiv, ← Nat.mul_assoc, ← hsplit]
    omega
  rw [hx, Nat.add_mul_div_left _ _ hpos, Nat.add_mul, Nat.mul_comm (2 ^ (32 - k) * q), ← Nat.mul_assoc, ← hsplit, Nat.mul_comm q]

theorem expandStop_eq_zero (hpow : tdb.pageSize = 2 ^ k) (hk : k < 32)
    (h : (wantedStop tdb size / 2 ^ 32 + 1) * 2 ^ 32 < wantedStop tdb size + tdb.pageSize) : expandStop tdb size = 0 := by
  have hpage : 2 ^ k ≤ 2 ^ 31 := Nat.pow_le_pow_right (by decide) (by omega)
  rw [hpow] at h
  rw [expandStop_eq tdb size hpow, Nat.div_eq_of_lt (by unfold u32; omega), Nat.zero_mul]

theorem le_pageEnd (hpow : tdb.pageSize = 2 ^ k) (x : Nat) : x ≤ pageEnd tdb.pageSize x := by
  have hpos : 0 < 2 ^ k := Nat.two_pow_pos k
  rw [pageEnd, hpow]
  have h := Nat.div_add_mod (x + (2 ^ k - 1)) (2 ^ k)
  have hmod := Nat.mod_lt (x + (2 ^ k - 1)) hpos
  rw [Nat.mul_comm] at h
  omega

/-- The condition on the sizes says that the map grows by what was asked for. -/
theorem sizeFits_iff (hpow : tdb.pageSize = 2 ^ k) (hk : k < 32) (hpos : 0 < tdb.mapSize) :
    SizeFits tdb size ↔ tdb.mapSize + size ≤ expandStop tdb size := by
  have hle := le_pageEnd hpow (wantedStop tdb size)
  have hwanted : wantedStop tdb size = tdb.mapSize + size * 10 := rfl
  constructor
  · rintro ⟨hpage, hmade⟩
    have := expandStop_add hk.le hpow hpage
    omega
  · intro hadds
    by_cases hpage : wantedStop tdb size + tdb.pageSize ≤ (wantedStop tdb size / 2 ^ 32 + 1) * 2 ^ 32
    · have := expandStop_add hk.le hpow hpage
      exact ⟨hpage, by omega⟩
    · have := expandStop_eq_zero hpow hk (Nat.lt_of_not_le hpage)
      omega

/-- The new end is the old one exactly where nothing is added. -/
theorem growsByNothing_iff (hpow : tdb.pageSize = 2 ^ k) (hk : k < 32) (hpos : 0 < tdb.mapSize)
    (hlt : tdb.mapSize < 2 ^ 32) :
    GrowsByNothing tdb size ↔ expandStop tdb size = tdb.mapSize := by
  have hpage : 2 ^ k ≤ 2 ^ 31 := Nat.pow_le_pow_right (by decide) (by omega)
  have hkpos : 0 < 2 ^ k := Nat.two_pow_pos k
  have hsum : wantedStop tdb size % 2 ^ 32 = (tdb.mapSize + size * 10 % 2 ^ 32) % 2 ^ 32 := by
    unfold wantedStop
    omega
  have hc : size * 10 % 2 ^ 32 < 2 ^ 32 := Nat.mod_lt _ (by decide)
  have hparts : GrowsByNothing tdb size ↔
      tdb.mapSize % tdb.pageSize = 0 ∧ (size * 10 % 2 ^ 32 = 0 ∨ 2 ^ 32 < size * 10 % 2 ^ 32 + tdb.pageSize) :=
    ⟨fun h => ⟨h.page, h.size⟩, fun h => ⟨h.1, h.2⟩⟩
  rw [hparts, expandStop_eq tdb size hpow, hsum]
  generalize size * 10 % 2 ^ 32 = c at hc ⊢
  rw [hpow]
  constructor
  · rintro ⟨hmap, hsize⟩
    obtain ⟨n, hn⟩ : 2 ^ k ∣ tdb.mapSize := Nat.dvd_of_mod_eq_zero hmap
    have hle : 2 ^ k ≤ tdb.mapSize := Nat.le_of_dvd hpos (Nat.dvd_of_mod_eq_zero hmap)
    rw [Nat.mul_comm] at hn
    -- there is a page behind the old end, or the old end is that of the last one
    have hlast : tdb.mapSize + 2 ^ k ≤ 2 ^ 32 := by
      have hsplit : 2 ^ 32 = 2 ^ (32 - k) * 2 ^ k := by rw [← Nat.pow_add, Nat.sub_add_cancel hk.le]
      rw [hn, hsplit] at hlt
      have hmul := Nat.mul_le_mul_right (2 ^ k) (Nat.lt_of_mul_lt_mul_right hlt)
      rw [← hsplit, Nat.succ_mul] at hmul
      omega
    have hquot : u32 ((tdb.mapSize + c) % 2 ^ 32 + (2 ^ k - 1)) / 2 ^ k = n := by
      rw [Nat.div_eq_iff hkpos]
      unfold u32
      omega
    rw [hquot, hn]
  · intro heq
    refine ⟨by rw [← heq]; exact Nat.mul_mod_left .., ?_⟩
    have hd := Nat.div_add_mod (u32 ((tdb.mapSize + c) % 2 ^ 32 + (2 ^ k - 1))) (2 ^ k)
    have hm := Nat.mod_lt (u32 ((tdb.mapSize + c) % 2 ^ 32 + (2 ^ k - 1))) hkpos
    rw [Nat.mul_comm, heq] at hd
    unfold u32 at hd hm
    omega

end NewEnd

/-! ## Freeing what is no record -/

section Every

variable {tdb : TdbContext} {start : Nat} {bs : List Block} {fl : List Nat} {size : Nat}

/-- Space too short for a record becomes part of a free record before it. -/
theorem tdbFree_joined {pre : List Block} {b : Block} (hgrow : Growable tdb) (hstart : start = tdbDataStart tdb.hashSize + 4) {m : Mem} {old : Nat}
    (h : Heap tdb.convert m start old (pre ++ [b]) fl) (hframe : ∀ a, a < old → view tdb a = m a) (hfree : b.free = true)
    (hgt : old < tdb.mapSize) (hsmall : tdb.mapSize < old + 28) (hmod : (tdb.mapSize - old) % 4 = 0) :
    ∃ tdb' bs' fl', tdbFree old { recLen := sub32 (tdb.mapSize - old) sizeofRec } tdb = .ok () tdb' ∧
      Heap tdb.convert (view tdb') start tdb.mapSize bs' fl' ∧ tdb'.mapSize = tdb.mapSize ∧
      ∃ c ∈ bs', c.free = true ∧ tdb.mapSize ≤ old + c.len := by
  have hlt := hgrow.access.size_lt
  obtain ⟨hpre, hb4, hbmod, hbstop⟩ := h.tiles.mid
  have hstop : b.stop = old := hbstop
  have hstop' : b.stop = b.off + sizeofRec + b.len := rfl
  unfold sizeofRec at hstop'
  have hbstart := hpre.le
  have htop := h.top
  obtain ⟨g, hg⟩ : ∃ g, tdb.mapSize - old = g := ⟨_, rfl⟩
  rw [hg] at hmod ⊢
  have hlen : sub32 g sizeofRec = (g + (2 ^ 32 - 24)) % 2 ^ 32 := rfl
  have htotal : u32 (sizeofRec + sub32 g sizeofRec) = g := by rw [hlen]; unfold u32 sizeofRec; omega
  -- the tailer is at the new end
  obtain ⟨tdb₁, e₁, w₁, -⟩ := @tdbOfsWrite_ok tdb hgrow.access (tdb.mapSize - 4) g (by omega)
  have hupdate : updateTailer old { recLen := sub32 g sizeofRec } tdb = .ok () tdb₁ := by
    have hoff : sub32 (old + g) sizeofOff = tdb.mapSize - 4 := by
      rw [sub32_of_le (by unfold sizeofOff; omega) (by omega)]
      unfold sizeofOff
      omega
    simp only [updateTailer, htotal, hoff]
    exact e₁
  have hframe₁ : ∀ a, a < old → view tdb₁ a = m a := fun a ha => (w₁.frame a (by omega)).trans (hframe a ha)
  have hright : freeRight old { recLen := sub32 g sizeofRec } tdb₁ = .ok { recLen := sub32 g sizeofRec } tdb₁ := by
    have hr : u32 (old + sizeofRec + sub32 g sizeofRec) = tdb.mapSize := by
      rw [hlen]
      unfold u32 sizeofRec
      omega
    simp only [freeRight, hr, get_bind]
    rw [if_neg (by rw [w₁.mapSize]; unfold sizeofRec; omega)]
    rfl
  -- the record before the new space is as if it had been longer all along
  obtain ⟨c, hc⟩ : ∃ c : Block, c = ⟨b.off, b.len + g, true⟩ := ⟨_, rfl⟩
  have hclen : c.off = b.off ∧ c.len = b.len + g ∧ c.free = true := by rw [hc]; exact ⟨rfl, rfl, rfl⟩
  have htiles : Tiles start (pre ++ [c]) tdb.mapSize := by
    refine tiles_append.mpr ⟨b.off, hpre, hclen.1, by omega, by omega, ?_⟩
    show c.stop = tdb.mapSize
    unfold Block.stop sizeofRec
    omega
  have hmem : ∀ x ∈ pre ++ [b], BlockOk tdb.convert (view tdb₁) x := by
    intro x hx
    have hbounds := h.tiles.bounds x hx
    exact (h.ok x hx).congr hbounds.2.2.1 fun a _ h2 => hframe₁ a (by omega)
  have hchain : FreeChain tdb₁.convert (view tdb₁) start tdb₁.mapSize (pre ++ [c]) (pre ++ [c]) fl := by
    rw [w₁.convert, w₁.mapSize]
    refine ⟨htiles, .refl _, h.links.congr fun q hq => ofsAt_congr fun a _ h2 => hframe₁ a ?_, ?_, h.top⟩
    · have := h.freeChain.cell_in hq
      omega
    · have hperm := h.perm
      rw [freeOffs_append, freeOffs_cons_free hfree] at hperm
      rw [freeOffs_append, freeOffs_cons_free hclen.2.2, hclen.1]
      exact hperm
  obtain ⟨tdb₂, fl₂, e₂, w₂, hok₂, hlinks₂, hperm₂⟩ := hchain.remove w₁.access (b := c) (by simp) hclen.2.2
  rw [hclen.1] at e₂ hperm₂
  have hleft : freeLeft old { recLen := sub32 g sizeofRec } tdb₁ =
      .ok (c.off, { recLen := c.len }) tdb₂ := by
    obtain ⟨hblen, hnext, hmagic⟩ := (hmem b (by simp)).recAt
    have htail := (hmem b (by simp)).tailer
    rw [hstop] at htail
    have hl : sub32 old sizeofOff = old - 4 := sub32_of_le (by unfold sizeofOff; omega) (by omega)
    have hback : sub32 old (sizeofRec + b.len) = b.off := by
      unfold sizeofRec
      rw [sub32_of_le (by omega) (by omega)]
      omega
    have hpad : ¬ (sizeofRec + b.len = 0 ∨ sizeofRec + b.len = tdbPadU32) := by
      unfold sizeofRec tdbPadU32
      omega
    have hsum : u32 (sub32 g sizeofRec + (sizeofRec + b.len)) = c.len := by
      rw [hlen, hclen.2.1]
      unfold u32 sizeofRec
      omega
    simp only [freeLeft, hl, get_bind]
    rw [if_pos (by have := w₁.hashSize; rw [this]; omega),
      bind_ok (attempt_ok (tdbOfsRead_ok w₁.access (show old - 4 + 4 ≤ _ by rw [w₁.mapSize]; omega)))]
    rw [← w₁.convert] at htail hnext hmagic hblen
    simp only [htail]
    rw [if_neg hpad, hback,
      bind_ok (attempt_ok (tdbRecGet_ok w₁.access (show b.off + sizeofRec ≤ _ by rw [w₁.mapSize]; unfold sizeofRec; omega)))]
    simp only [hnext, hmagic]
    rw [if_pos hfree, bind_ok (attempt_ok e₂), hsum, hclen.1]
    rfl
  have hholed : Holed tdb₂.convert (view tdb₂) start tdb₂.mapSize pre c [] fl₂ := by
    rw [w₂.convert, w₂.mapSize, w₁.mapSize]
    refine ⟨htiles, hclen.2.2, fun x hx => ?_, hlinks₂, ?_, (List.isChain_append.mp h.apart).1, .nil, h.top⟩
    · have hx' : x ∈ pre := by simpa using hx
      rw [w₁.convert] at hok₂ ⊢
      exact hok₂ x (by simp [hx']) (hmem x (by simp [hx']))
    · have hp := hperm₂.trans h.perm
      rw [freeOffs_append, freeOffs_cons_free hfree] at hp
      rw [List.append_nil]
      have hp' := hp.trans List.perm_append_comm
      exact hp'.cons_inv
  have hlast : ∀ x ∈ pre.getLast?, x.free = false := by
    intro x hx
    have := (List.isChain_append.mp h.apart).2.2 x hx b (by simp)
    simpa [hfree] using this
  obtain ⟨tdb₃, e₃, w₃, hheap⟩ := @link_ok _ _ _ _ _ _ { recLen := c.len } w₂.access hholed hlast (by simp) rfl
    (fits_recLen (by omega))
  refine ⟨tdb₃, pre ++ [c], c.off :: fl₂, ?_, ?_, ?_, c, by simp, hclen.2.2, by omega⟩
  · rw [tdbFree, bind_ok hupdate, bind_ok hright, bind_ok hleft]
    exact e₃
  · rw [w₂.convert, w₁.convert, w₂.mapSize, w₁.mapSize] at hheap
    exact hheap
  · rw [w₃.mapSize, w₂.mapSize, w₁.mapSize]

/-- The space between the old end and itself is freed as if a record began there. -/
theorem tdbFree_empty_eq (hgrow : Growable tdb) :
    ∃ next tdb', tdbFree tdb.mapSize { recLen := sub32 0 sizeofRec } tdb = (do
        tdbRecWrite tdb.mapSize { recLen := sub32 0 sizeofRec, next := next, magic := tdbFreeMagic }
        tdbOfsWrite freelistTop tdb.mapSize : TdbM Unit) tdb' ∧
      Growable tdb' ∧ Kept tdb tdb' ∧ tdb'.mapSize = tdb.mapSize := by
  have hlt := hgrow.access.size_lt
  have hle : freelistTop + 4 ≤ tdb.mapSize := by
    have := hgrow.heads
    unfold tdbHashtableSize sizeofOff at this
    omega
  obtain ⟨size, hmap⟩ : ∃ size, tdb.mapSize = size := ⟨_, rfl⟩
  obtain ⟨r, hr⟩ : ∃ r : ListStruct, { recLen := sub32 0 sizeofRec } = r := ⟨_, rfl⟩
  have hlen : r.recLen = 2 ^ 32 - 24 := by rw [← hr]; rfl
  rw [hmap] at hlt hle ⊢
  unfold freelistTop at hle
  have htailer : ∀ s : TdbContext, Growable s → s.mapSize = size →
      ∃ s', updateTailer size r s = .ok () s' ∧ Growable s' ∧ Same s s' ∧ s'.mapSize = size ∧
        ofsAt s'.convert (view s') (size - 4) = 0 := by
    intro s hs hsize
    have htotal : u32 (sizeofRec + r.recLen) = 0 := by rw [hlen]; decide
    have hoff : sub32 (size + 0) sizeofOff = size - 4 := sub32_of_le (by unfold sizeofOff; omega) (by omega)
    obtain ⟨s', e, w, hv⟩ := @tdbOfsWrite_ok s hs.access (size - 4) 0 (by omega)
    refine ⟨s', ?_, hs.writes w, w.same, w.mapSize.trans hsize, ?_⟩
    · simp only [updateTailer, htotal, hoff]
      exact e
    · rw [hv, w.convert]
      exact ofsAt_write_same (by decide)
  obtain ⟨tdb₁, e₁, hgrow₁, hsame₁, hmap₁, hzero⟩ := htailer tdb hgrow hmap
  have hright : freeRight size r tdb₁ = .ok r tdb₁ := by
    have hr : u32 (size + sizeofRec + r.recLen) = size := by
      rw [hlen]
      unfold u32 sizeofRec
      omega
    simp only [freeRight, hr, get_bind]
    rw [if_neg (by unfold sizeofRec; omega)]
    rfl
  have hleft : freeLeft size r tdb₁ = .ok (size, r) tdb₁ := by
    have hl : sub32 size sizeofOff = size - 4 := sub32_of_le (by unfold sizeofOff; omega) (by omega)
    simp only [freeLeft, hl, get_bind]
    split
    · rw [bind_ok (attempt_ok (tdbOfsRead_ok hgrow₁.access (by omega))), hzero]
      rfl
    · rfl
  obtain ⟨tdb₂, e₂, hgrow₂, hsame₂, hmap₂, -⟩ := htailer tdb₁ hgrow₁ hmap₁
  refine ⟨ofsAt tdb₂.convert (view tdb₂) freelistTop, tdb₂, ?_, hgrow₂, hsame₁.kept.trans hsame₂.kept, hmap₂⟩
  rw [hr, tdbFree, bind_ok e₁, bind_ok hright, bind_ok hleft]
  dsimp only
  rw [bind_ok e₂, bind_ok (tdbOfsRead_ok hgrow₂.access (by unfold freelistTop; omega)), ← hr]

/-- Outside a transaction it cannot be freed: the header does not fit. -/
theorem tdbFree_empty (hgrow : Growable tdb) (hm : tdb.methods = .io) (hlt : tdb.mapSize + sizeofRec < 2 ^ 32) :
    ∃ tdb', tdbFree tdb.mapSize { recLen := sub32 0 sizeofRec } tdb = .error .failed tdb' ∧ tdb'.mapSize = tdb.mapSize := by
  obtain ⟨next, tdb₂, e, hgrow₂, hkept, hmap₂⟩ := tdbFree_empty_eq hgrow
  have hm₂ : tdb₂.methods = .io := hkept.methods.trans hm
  refine ⟨{ tdb₂ with ecode := .errIo }, e.trans (bind_error ?_), hmap₂⟩
  rw [← hmap₂] at hlt ⊢
  have hio : ∀ buf, tdbWrite tdb₂.mapSize buf tdb₂ = ioWrite tdb₂.mapSize buf tdb₂ := fun buf => by rw [tdbWrite, get_bind, hm₂]
  have hwords : ∀ r' : ListStruct, (convertIf tdb₂.convert r'.toBytes).length = sizeofRec := by simp
  obtain ⟨hro, htr⟩ : tdb₂.readOnly = false ∧ tdb₂.traverseRead = false := by
    rcases hgrow₂.access.mode with ⟨-, -, hro, htr⟩ | ⟨-, t, ht⟩
    · exact ⟨hro, htr⟩
    · cases hm₂.symm.trans ht.methods
  rw [tdbRecWrite, get_bind, hio, ioWrite, get_bind, if_neg (by rw [hwords]; decide), if_neg (by simp [hro, htr]), hwords]
  exact bind_error (tdbOob_growable hgrow₂ (by unfold sizeofRec; omega) hlt)

theorem expandStop_room {k : Nat} (hk : k ≤ 32) (hpow : tdb.pageSize = 2 ^ k) (size : Nat) : expandStop tdb size + 2 ^ k ≤ 2 ^ 32 := by
  rw [expandStop, hpow, tdbAlign_pow]
  have hy : u32 (u32 (tdb.mapSize + u32 (size * 10)) + (2 ^ k - 1)) < 2 ^ 32 := Nat.mod_lt _ (by decide)
  generalize u32 (u32 (tdb.mapSize + u32 (size * 10)) + (2 ^ k - 1)) = y at hy ⊢
  have hsplit : 2 ^ 32 = 2 ^ (32 - k) * 2 ^ k := by rw [← Nat.pow_add, Nat.sub_add_cancel hk]
  have hlt : y / 2 ^ k < 2 ^ (32 - k) := Nat.div_lt_of_lt_mul (by rw [Nat.mul_comm, ← hsplit]; exact hy)
  calc y / 2 ^ k * 2 ^ k + 2 ^ k = (y / 2 ^ k + 1) * 2 ^ k := (Nat.succ_mul _ _).symm
    _ ≤ 2 ^ (32 - k) * 2 ^ k := Nat.mul_le_mul_right _ hlt
    _ = 2 ^ 32 := hsplit.symm

/-- Outside a transaction, growing to the old end fails. -/
theorem tdbExpand_same (hgrow : Growable tdb) (hpage : ∃ k, 5 ≤ k ∧ k < 32 ∧ tdb.pageSize = 2 ^ k) (hm : tdb.methods = .io)
    (hsame : expandStop tdb size = tdb.mapSize) :
    ∃ tdb', tdbExpand size tdb = .error .failed tdb' ∧ tdb'.mapSize = tdb.mapSize := by
  obtain ⟨k, hk5, hk32, hpow⟩ := hpage
  -- a page is larger than a header
  have hlt : tdb.mapSize + sizeofRec < 2 ^ 32 := by
    have hroom := expandStop_room hk32.le hpow size
    have hpage : 2 ^ 5 ≤ 2 ^ k := Nat.pow_le_pow_right (by decide) hk5
    unfold sizeofRec
    omega
  obtain ⟨tdb₁, e₁, hgrow₁, hkept, hmap₁, -⟩ := @tdbExpand_eq tdb hgrow size (by unfold sizeofRec at hlt; omega) (by omega)
  rw [hsame, Nat.sub_self] at e₁
  obtain ⟨tdb', e', hmap'⟩ := tdbFree_empty hgrow₁ (hkept.methods.trans hm) (by rw [hmap₁, hsame]; exact hlt)
  rw [hmap₁, hsame] at e'
  exact ⟨tdb', e₁.trans e', by rw [hmap', hmap₁, hsame]⟩

/-- From a size of three on, what was asked for leaves room for a record too. -/
theorem room_of_adds {k : Nat} (hk : k < 32) (hpow : tdb.pageSize = 2 ^ k) (hlt : tdb.mapSize < 2 ^ 32) (h3 : 3 ≤ size)
    (hadds : tdb.mapSize + size ≤ expandStop tdb size) : tdb.mapSize + 28 ≤ expandStop tdb size := by
  rcases Nat.lt_or_ge size 28 with hsmall | hlarge
  · have hpage : 2 ^ k ≤ 2 ^ 31 := Nat.pow_le_pow_right (by decide) (by omega)
    have hwanted : wantedStop tdb size = tdb.mapSize + size * 10 := rfl
    have hle := le_pageEnd hpow (wantedStop tdb size)
    by_cases hfit : wantedStop tdb size + tdb.pageSize ≤ (wantedStop tdb size / 2 ^ 32 + 1) * 2 ^ 32
    · have hstop := expandStop_add hk.le hpow hfit
      have hpageEnd : pageEnd tdb.pageSize (wantedStop tdb size) ≤ wantedStop tdb size + (2 ^ k - 1) := by
        rw [pageEnd, hpow]
        exact Nat.div_mul_le_self ..
      have hnone : wantedStop tdb size / 2 ^ 32 = 0 := by omega
      omega
    · have := expandStop_eq_zero hpow hk (Nat.lt_of_not_le hfit)
      omega
  · omega

theorem ExpandFits.meets (hgrow : Growable tdb) (hpage : ∃ k, 5 ≤ k ∧ k < 32 ∧ tdb.pageSize = 2 ^ k)
    (hstart : start = tdbDataStart tdb.hashSize + 4) (h : Heap tdb.convert (view tdb) start tdb.mapSize bs fl)
    (hfits : ExpandFits tdb bs size) : ExpandMeets start tdb size := by
  obtain ⟨k, hk5, hk32, hpow⟩ := hpage
  have hlt := hgrow.access.size_lt
  have hpos : 0 < tdb.mapSize := by have := hgrow.heads; unfold freelistTop at this; omega
  have hstop : expandStop tdb size < 2 ^ 32 := tdbAlign_lt _ _
  rcases hfits with ⟨hsize, hroom⟩ | ⟨hm, hsame⟩
  · have hadds := (sizeFits_iff hpow hk32 hpos).mp hsize
    have hend := expandStop_add hk32.le hpow hsize.page
    by_cases h28 : tdb.mapSize + 28 ≤ expandStop tdb size
    · obtain ⟨tdb', bs', fl', e, -, -, hmap, -, hheap, -, b, hb, hfree, hlen⟩ :=
        @tdbExpand_grown tdb start bs fl hgrow ⟨k, by omega, hpow⟩ hstart h size h28
      exact .inr ⟨tdb', bs', fl', e, by omega, by omega, hheap, b, hb, hfree, by omega⟩
    · -- the space is too short for a record: there is a free one before it
      have h3 : ¬ 3 ≤ size := fun h3 => h28 (room_of_adds hk32 hpow hlt h3 hadds)
      have hnone : wantedStop tdb size / 2 ^ 32 = 0 := by
        have hpage : 2 ^ k ≤ 2 ^ 31 := Nat.pow_le_pow_right (by decide) (by omega)
        have hmade := hsize.madeUp
        have hle : pageEnd tdb.pageSize (wantedStop tdb size) ≤ wantedStop tdb size + (2 ^ k - 1) := by
          rw [pageEnd, hpow]
          exact Nat.div_mul_le_self ..
        unfold wantedStop at *
        omega
      obtain ⟨hgt, b, hb, hfree⟩ := (hroom.resolve_left h3).resolve_left (by omega)
      obtain ⟨pre, rfl⟩ : ∃ pre, bs = pre ++ [b] := List.getLast?_eq_some_iff.mp hb
      obtain ⟨tdb₁, e₁, hgrow₁, hkept, hmap₁, hframe⟩ := @tdbExpand_eq tdb hgrow size (by omega) (by omega)
      rw [← hmap₁] at e₁ hadds hstop h28
      obtain ⟨tdb', bs', fl', e, hheap, hmap, c, hc, hcfree, hlen⟩ := @tdbFree_joined tdb₁ start fl pre b hgrow₁
        (by rw [hkept.hashSize]; exact hstart) _ _ (by rw [hkept.convert]; exact h) hframe hfree (by omega) (by omega)
        (by have := four_dvd_expandStop ⟨k, by omega, hpow⟩ size; have := h.mod_four hstart; omega)
      rw [hkept.convert, ← hmap] at hheap
      exact .inr ⟨tdb', bs', fl', e₁.trans e, by omega, by omega, hheap, c, hc, hcfree, by omega⟩
  · exact .inl (tdbExpand_same hgrow ⟨k, hk5, hk32, hpow⟩ hm ((growsByNothing_iff hpow hk32 hpos hlt).mp hsame))

/-- The second round of `tdb_allocate` finds the record that the first one added, or the first one fails. -/
theorem ExpandFits.returns {length : Nat} (hgrow : Growable tdb) (hpage : ∃ k, 5 ≤ k ∧ k < 32 ∧ tdb.pageSize = 2 ^ k)
    (hstart : start = tdbDataStart tdb.hashSize + 4) (h : Heap tdb.convert (view tdb) start tdb.mapSize bs fl)
    (hlt : length + 28 < 2 ^ 32) (hfits : ExpandFits tdb bs (length + 28)) :
    (∃ r tdb', tdbAllocate length tdb = .ok r tdb') ∨ ∃ tdb', tdbAllocate length tdb = .error .failed tdb' := by
  obtain ⟨k, hk5, hk32, hpow⟩ := hpage
  have hmap := hgrow.access.size_lt
  have hpos : 0 < tdb.mapSize := by have := hgrow.heads; unfold freelistTop at this; omega
  have hlen : u32 (length + sizeofOff) = length + 4 := u32_of_lt (by unfold sizeofOff; omega)
  have hsize : u32 (length + 4 + sizeofRec) = length + 28 := u32_of_lt (by unfold sizeofRec; omega)
  obtain ⟨fuel, hfuel⟩ : ∃ k, tdb.mapSize = k + 1 + 1 := by
    have := h.top
    have := h.tiles.le
    unfold freelistTop at *
    exact ⟨tdb.mapSize - 2, by omega⟩
  rw [tdbAllocate, get_bind, hlen, hfuel]
  rcases tdbAllocateAgain_ok hgrow.access hstart h (show 4 ≤ length + 4 by omega) (fuel + 1) with
    ⟨tdb', -, -, blk, r, e, -⟩ | ⟨-, e⟩
  · exact .inl ⟨_, tdb', e⟩
  rw [e, hsize]
  rcases hfits with ⟨hadds, -⟩ | ⟨hm, hsame⟩
  · have hadds' := (sizeFits_iff hpow hk32 hpos).mp hadds
    obtain ⟨tdb₁, bs₁, fl₁, e₁, hgrow₁, hkept, hmap₁, -, hheap, -, b, hb, hfree, hble⟩ :=
      @tdbExpand_grown tdb start bs fl hgrow ⟨k, by omega, hpow⟩ hstart h (length + 28) (by omega)
    rw [← hkept.convert] at hheap
    rw [bind_ok e₁]
    rcases tdbAllocateAgain_ok hgrow₁.access (by rw [hkept.hashSize]; exact hstart) hheap (show 4 ≤ length + 4 by omega) fuel with
      ⟨tdb', -, -, blk, r, e', -⟩ | ⟨hnone, -⟩
    · exact .inl ⟨_, tdb', e'⟩
    · have := hnone b hb hfree
      unfold sizeofRec at hble
      omega
  · obtain ⟨tdb', e', -⟩ := tdbExpand_same hgrow ⟨k, hk5, hk32, hpow⟩ hm ((growsByNothing_iff hpow hk32 hpos hmap).mp hsame)
    exact .inr ⟨tdb', bind_error e'⟩

/-- Where the new end is below the old one, or too close to it, the map has the size of the new end after the call. -/
theorem mapSize_of_expand (hgrow : Growable tdb) (hlt : tdb.mapSize + 1 < 2 ^ 32)
    (hin : tdb.internal = true ∨ tdb.mapSize ≤ expandStop tdb size) :
    (∀ tdb', tdbExpand size tdb = .ok () tdb' → tdb'.mapSize = expandStop tdb size) ∧
      ∀ e tdb', tdbExpand size tdb = .error e tdb' → tdb'.mapSize = expandStop tdb size := by
  have hfree : ∃ off r tdb₁, tdbExpand size tdb = tdbFree off r tdb₁ ∧ Frozen tdb₁ ∧ tdb₁.mapSize = expandStop tdb size := by
    by_cases hle : tdb.mapSize ≤ expandStop tdb size
    · obtain ⟨tdb₁, e₁, hgrow₁, -, hmap₁, -⟩ := tdbExpand_eq hgrow hlt hle
      refine ⟨_, _, tdb₁, e₁, ?_, hmap₁⟩
      rcases hgrow₁.access.mode with ⟨hm, -⟩ | ⟨-, t, ht⟩
      · by_cases hi : tdb₁.internal = true
        · exact .inr (.inl hi)
        · exact .inr (.inr (le_of_eq (hgrow₁.file hm (by simpa using hi))))
      · exact .inl ht.methods
    · have hi : tdb.internal = true := hin.resolve_right hle
      have hstop : expandStop tdb size < 2 ^ 32 := tdbAlign_lt _ _
      have hnew : u32 (tdb.mapSize + sub32 (expandStop tdb size) tdb.mapSize) = expandStop tdb size := by
        unfold sub32 u32
        omega
      refine ⟨sub32 (expandStop tdb size) (sub32 (expandStop tdb size) tdb.mapSize),
        { recLen := sub32 (sub32 (expandStop tdb size) tdb.mapSize) sizeofRec },
        { tdb with ecode := .errIo, mapSize := expandStop tdb size }, ?_, .inr (.inl hi), rfl⟩
      have hsz : tdbAlign (u32 (tdb.mapSize + u32 (size * 10))) tdb.pageSize = expandStop tdb size := rfl
      rw [tdbExpand, get_bind, bind_ok (probe_growable hgrow hlt), get_bind]
      dsimp only
      rw [if_neg (by simp [hi]), bind_ok (pure_apply ..), bind_ok (modify_apply _), get_bind]
      dsimp only
      rw [hsz, hnew]
  obtain ⟨off, r, tdb₁, e₁, hfrozen, hmap₁⟩ := hfree
  obtain ⟨hok, herr⟩ := (sizeIs_invariant _).tdbFree off r tdb₁ ⟨hfrozen, hmap₁⟩
  rw [e₁]
  exact ⟨fun tdb' e => (hok () tdb' e).2, fun e' tdb' e => (herr e' tdb' e).2⟩

variable {off : Nat} {buf : WriteBuf}

/-- Writing to a transaction does not fail in a way that its caller sees. -/
theorem transactionWrite_ne_failed {hashSize fuel : Nat} {t : Transaction} :
    transactionWrite hashSize fuel t off buf ≠ .error .failed := by
  induction fuel generalizing t off buf with
  | zero =>
    intro h
    cases h
  | succ fuel ih =>
    have hopt : ∀ {c : Prop} [Decidable c] {t : Transaction} {o : Nat} {b : WriteBuf},
        (if c then transactionWrite hashSize fuel t o b else .ok t) ≠ .error .failed := by
      intro c _ t o b h
      split at h
      · exact ih h
      · cases h
    have hbind : ∀ {x : Except Stop Transaction} {f : Transaction → Except Stop Transaction}, x ≠ .error .failed →
        (∀ t, f t ≠ .error .failed) → (x >>= f) ≠ .error .failed := by
      intro x f hx hf
      cases x with
      | error e => exact fun h => hx (by cases h; rfl)
      | ok t => exact hf t
    rw [transactionWrite]
    split
    · intro h
      cases h
    · refine hbind (fun h => ?_) fun t => ?_
      · unfold updateHashHeads at h
        split at h
        · cases buf with
          | data buf => cases h
          | null len => cases h
        · cases h
      · split
        · refine hbind hopt fun t => ?_
          dsimp only
          split
          · intro h
            cases h
          · exact hopt
        · intro h
          cases h

theorem transactionMethodWrite_ne_failed {s s' : TdbContext} :
    transactionMethodWrite off buf s ≠ .error .failed s' := by
  intro h
  rw [transactionMethodWrite, get_bind] at h
  cases ht : s.transaction with
  | none =>
    rw [ht] at h
    cases h
  | some t =>
    rw [ht] at h
    dsimp only at h
    cases hw : transactionWrite s.hashSize (buf.length + 1) t off buf with
    | ok t' =>
      rw [hw] at h
      cases h
    | error e =>
      rw [hw] at h
      cases h
      exact transactionWrite_ne_failed hw

theorem transactionMethodWrite_ok {s s' : TdbContext}
    (h : transactionMethodWrite off buf s = .ok () s') : ∃ t, s' = { s with transaction := some t } := by
  rw [transactionMethodWrite, get_bind] at h
  cases ht : s.transaction with
  | none =>
    rw [ht] at h
    cases h
  | some t =>
    rw [ht] at h
    dsimp only at h
    cases hw : transactionWrite s.hashSize (buf.length + 1) t off buf with
    | ok t' =>
      rw [hw] at h
      cases h
      exact ⟨t', rfl⟩
    | error e =>
      rw [hw] at h
      cases h

/-- In a transaction, growing to the old end or below it goes wrong. -/
theorem not_meets_inTransaction {t : Transaction} (hgrow : Growable tdb) (ht : InTransaction tdb t) (hpos : 0 < size)
    (hlt : tdb.mapSize + 1 < 2 ^ 32) (hle : expandStop tdb size ≤ tdb.mapSize) : ¬ ExpandMeets start tdb size := by
  have hstop : expandStop tdb size < 2 ^ 32 := tdbAlign_lt _ _
  rcases Nat.lt_or_eq_of_le hle with hbelow | hsame
  · -- the file is not made larger, and the map gets smaller
    have hnew : u32 (tdb.mapSize + sub32 (expandStop tdb size) tdb.mapSize) = expandStop tdb size := by
      unfold sub32 u32
      omega
    have hsz : tdbAlign (u32 (tdb.mapSize + u32 (size * 10))) tdb.pageSize = expandStop tdb size := rfl
    have hexpand : tdbExpand size tdb = (do
        transactionMethodWrite tdb.mapSize (.null (sub32 (expandStop tdb size) tdb.mapSize))
        modify fun s => { s with mapSize := u32 (s.mapSize + sub32 (expandStop tdb size) tdb.mapSize) }
        tdbFree (sub32 (← get).mapSize (sub32 (expandStop tdb size) tdb.mapSize))
          { recLen := sub32 (sub32 (expandStop tdb size) tdb.mapSize) sizeofRec } : TdbM Unit) { tdb with ecode := .errIo } := by
      rw [tdbExpand, get_bind, bind_ok (probe_growable hgrow hlt), get_bind]
      dsimp only
      rw [hsz, if_pos (by simp [(hgrow.inside t ht).1])]
      have hfile : tdbExpandFile tdb.mapSize (sub32 (expandStop tdb size) tdb.mapSize) { tdb with ecode := .errIo } =
          transactionMethodWrite tdb.mapSize (.null (sub32 (expandStop tdb size) tdb.mapSize)) { tdb with ecode := .errIo } := by
        rw [tdbExpandFile, get_bind, ht.methods]
        rfl
      simp only [bind, EStateM.bind, hfile]
    cases hw : transactionMethodWrite tdb.mapSize (.null (sub32 (expandStop tdb size) tdb.mapSize)) { tdb with ecode := .errIo } with
    | error e s =>
      rw [bind_error hw] at hexpand
      rintro (⟨tdb', e', -⟩ | ⟨tdb', -, -, e', -⟩)
      · cases hexpand.symm.trans e'
        exact transactionMethodWrite_ne_failed hw
      · cases hexpand.symm.trans e'
    | ok u s =>
      obtain ⟨t', rfl⟩ := transactionMethodWrite_ok hw
      rw [bind_ok hw, bind_ok (modify_apply _), get_bind] at hexpand
      dsimp only at hexpand
      rw [hnew] at hexpand
      obtain ⟨hok, herr⟩ := (sizeIs_invariant (expandStop tdb size)).tdbFree
        (sub32 (expandStop tdb size) (sub32 (expandStop tdb size) tdb.mapSize))
        { recLen := sub32 (sub32 (expandStop tdb size) tdb.mapSize) sizeofRec }
        { tdb with ecode := .errIo, transaction := some t', mapSize := expandStop tdb size } ⟨.inl ht.methods, rfl⟩
      rintro (⟨tdb', e', hmap⟩ | ⟨tdb', -, -, e', hadds, -⟩)
      · have := (herr _ _ (hexpand.symm.trans e')).2
        omega
      · have := (hok _ _ (hexpand.symm.trans e')).2
        omega
  · -- the header is written behind the end
    obtain ⟨tdb₁, e₁, hgrow₁, hkept₁, hmap₁, -⟩ := @tdbExpand_eq tdb hgrow size hlt hsame.ge
    obtain ⟨next, tdb₂, e₂, hgrow₂, hkept₂, hmap₂⟩ := tdbFree_empty_eq hgrow₁
    rw [hsame, Nat.sub_self] at e₁
    rw [hmap₁, hsame] at e₂
    have hm₂ : tdb₂.methods = .transaction := (hkept₂.methods.trans hkept₁.methods).trans ht.methods
    have hwrite : ∀ {s s' : TdbContext} {off : Nat} {buf : List UInt8}, s.methods = .transaction →
        tdbWrite off buf s ≠ .error .failed s' := by
      intro s s' off buf hm h
      rw [tdbWrite, get_bind, hm] at h
      exact transactionMethodWrite_ne_failed h
    rintro (⟨tdb', e', -⟩ | ⟨tdb', -, -, e', hadds, -⟩)
    · have hfail := e₂.symm.trans (e₁.symm.trans e')
      cases hrec : tdbRecWrite tdb.mapSize { recLen := sub32 0 sizeofRec, next := next, magic := tdbFreeMagic } tdb₂ with
      | error e s =>
        rw [bind_error hrec] at hfail
        cases hfail
        exact hwrite hm₂ hrec
      | ok u s =>
        have hm : s.methods = .transaction := by
          rw [tdbRecWrite, get_bind, tdbWrite, get_bind, hm₂] at hrec
          obtain ⟨t', rfl⟩ := transactionMethodWrite_ok hrec
          exact hm₂
        rw [bind_ok hrec] at hfail
        exact hwrite hm hfail
    · have := (mapSize_of_expand hgrow hlt (.inr hsame.ge)).1 tdb' e'
      omega

end Every

/-- For every size that fits, `tdb_expand` fails and leaves the size of the map, or grows the map by what was asked and adds a free
record that is large enough, and then `tdb_allocate` returns. Of the sizes from three on, only those that fit, but perhaps where a file
is cut. -/
theorem tdbExpand_meets_iff {tdb : TdbContext} {start : Nat} {bs : List Block} {fl : List Nat} (hgrow : Growable tdb)
    (hpage : ∃ k, 5 ≤ k ∧ k < 32 ∧ tdb.pageSize = 2 ^ k) (hstart : start = tdbDataStart tdb.hashSize + 4)
    (h : Heap tdb.convert (view tdb) start tdb.mapSize bs fl) (size : UInt32) :
    (ExpandFits tdb bs size.toNat → ExpandMeets start tdb size.toNat ∧ ∀ length, length + sizeofOff + sizeofRec = size.toNat →
      (∃ r tdb', tdbAllocate length tdb = .ok r tdb') ∨ ∃ tdb', tdbAllocate length tdb = .error .failed tdb') ∧
    (3 ≤ size.toNat → (tdb.internal = false ∧ tdb.methods = .io → tdb.mapSize ≤ expandStop tdb size.toNat) →
      ExpandMeets start tdb size.toNat → ExpandFits tdb bs size.toNat) := by
  have hsize := size.toNat_lt
  generalize size.toNat = size at hsize ⊢
  refine ⟨fun hfits => ⟨hfits.meets hgrow hpage hstart h, fun length hlength => ?_⟩, fun h3 hcut hmeets => ?_⟩
  · subst hlength
    exact ExpandFits.returns hgrow hpage hstart h hsize hfits
  · obtain ⟨k, -, hk32, hpow⟩ := hpage
    have hlt := hgrow.access.size_lt
    have hmod := h.mod_four hstart
    have hpos : 0 < tdb.mapSize := by have := hgrow.heads; unfold freelistTop at this; omega
    rcases hgrow.access.mode with ⟨hm, -⟩ | ⟨-, t, ht⟩
    · have hin : tdb.internal = true ∨ tdb.mapSize ≤ expandStop tdb size := by
        by_cases hi : tdb.internal = true
        · exact .inl hi
        · exact .inr (hcut ⟨by simpa using hi, hm⟩)
      obtain ⟨hok, herr⟩ := mapSize_of_expand hgrow (by omega) hin
      rcases hmeets with ⟨tdb', e, hmap⟩ | ⟨tdb', bs', fl', e, hadds, -⟩
      · exact .inr ⟨hm, (growsByNothing_iff hpow hk32 hpos hlt).mpr ((herr _ tdb' e).symm.trans hmap)⟩
      · rw [hok tdb' e] at hadds
        exact .inl ⟨(sizeFits_iff hpow hk32 hpos).mpr hadds, .inl h3⟩
    · rcases Nat.lt_or_ge tdb.mapSize (expandStop tdb size) with hgt | hle
      · obtain ⟨hok, herr⟩ := mapSize_of_expand hgrow (by omega) (.inr hgt.le)
        rcases hmeets with ⟨tdb', e, hmap⟩ | ⟨tdb', bs', fl', e, hadds, -⟩
        · have := herr _ tdb' e
          omega
        · rw [hok tdb' e] at hadds
          exact .inl ⟨(sizeFits_iff hpow hk32 hpos).mpr hadds, .inl h3⟩
      · exact absurd hmeets (not_meets_inTransaction hgrow ht (by omega) (by omega) hle)

/-- A new file has room for a hundred bytes. -/
theorem newFile_expands : ExpandMeets 176 newFile 100 ∧
    ((∃ r tdb', tdbAllocate 72 newFile = .ok r tdb') ∨ ∃ tdb', tdbAllocate 72 newFile = .error .failed tdb') := by
  have hgrow : Growable newFile := (tdbNewDatabase_ready (fun _ => 0) newFileArgs_valid).growable (by decide)
  have hmeets := (tdbExpand_meets_iff hgrow ⟨12, by decide, by decide, rfl⟩ rfl
    (tdbNewDatabase_heap (fun _ => 0) newFileArgs_valid) 100).1 (.inl ⟨⟨by decide, by decide⟩, .inl (by decide)⟩)
  exact ⟨hmeets.1, hmeets.2 72 rfl⟩

/-- Ten times this size is 4 with 32 bits: the file grows by what is left of a page. -/
theorem newFile_wraps : ¬ ∀ size : UInt32, ExpandMeets 176 newFile size.toNat := by
  intro hall
  have hgrow : Growable newFile := (tdbNewDatabase_ready (fun _ => 0) newFileArgs_valid).growable (by decide)
  have hstop : expandStop newFile 429496730 = 4096 := by decide
  obtain ⟨hok, herr⟩ := @mapSize_of_expand newFile 429496730 hgrow (by decide) (.inr (by decide))
  rcases hall 429496730 with ⟨tdb', e, hmap⟩ | ⟨tdb', bs', fl', e, hadds, -⟩
  · rw [herr _ tdb' e, hstop] at hmap
    cases hmap
  · rw [hok tdb' e, hstop] at hadds
    exact absurd hadds (by decide)

end Samba.Tdb
