/-
What the calls see through the method table: inside and outside a transaction alike, the bytes of
a view, which in-range reads return and in-range writes overwrite. Words and record headers in the
view, in either byte order.
-/
import Samba.Tdb.WriteListRefine

namespace Samba.Tdb

open Bytes List

/-! ## Words and headers in memory -/

@[simp] theorem length_tdbConvert (bs : List UInt8) : (tdbConvert bs).length = bs.length := by
  induction bs using tdbConvert.induct with
  | case1 a b c d rest ih => simp [tdbConvert, ih]
  | case2 rest h => rw [tdbConvert.eq_2 _ h]

theorem tdbConvert_tdbConvert (bs : List UInt8) : tdbConvert (tdbConvert bs) = bs := by
  induction bs using tdbConvert.induct with
  | case1 a b c d rest ih => simp [tdbConvert, ih]
  | case2 rest h => rw [tdbConvert.eq_2 _ h, tdbConvert.eq_2 _ h]

variable {bs : List UInt8} {tdb : TdbContext}

theorem tdbConvert_append (h : bs.length % 4 = 0) (cs : List UInt8) :
    tdbConvert (bs ++ cs) = tdbConvert bs ++ tdbConvert cs := by
  induction bs using tdbConvert.induct with
  | case1 a b c d rest ih =>
    simp only [length_cons] at h
    simp only [cons_append, tdbConvert, ih (by omega)]
  | case2 rest hr =>
    match rest, hr with
    | [], _ => rfl
    | [a], _ => simp at h
    | [a, b], _ => simp at h
    | [a, b, c], _ => simp at h
    | a :: b :: c :: d :: rest, hr => exact absurd rfl (hr a b c d rest)

@[simp] theorem length_convertIf (cv : Bool) (bs : List UInt8) : (convertIf cv bs).length = bs.length := by
  cases cv <;> simp [convertIf]

theorem convertIf_convertIf (cv : Bool) (bs : List UInt8) : convertIf cv (convertIf cv bs) = bs := by
  cases cv <;> simp [convertIf, tdbConvert_tdbConvert]

theorem convertIf_append (cv : Bool) (h : bs.length % 4 = 0) (cs : List UInt8) :
    convertIf cv (bs ++ cs) = convertIf cv bs ++ convertIf cv cs := by
  cases cv <;> simp [convertIf, tdbConvert_append h]

/-- The word at `off`, as `tdb_ofs_read` returns it. -/
def ofsAt (cv : Bool) (m : Mem) (off : Nat) : Nat := leNat (convertIf cv (read m off 4))

/-- The record header at `off`. -/
def recAt (cv : Bool) (m : Mem) (off : Nat) : ListStruct := .ofBytes (convertIf cv (read m off sizeofRec))

theorem ofsAt_lt (cv : Bool) (m : Mem) (off : Nat) : ofsAt cv m off < 2 ^ 32 := by
  have := leNat_lt (convertIf cv (read m off 4))
  simpa [ofsAt] using this

theorem ofsAt_congr {cv : Bool} {m m' : Mem} {off : Nat} (h : ∀ a, off ≤ a → a < off + 4 → m' a = m a) :
    ofsAt cv m' off = ofsAt cv m off := by
  rw [ofsAt, read_congr h]
  rfl

theorem ofsAt_write_same {cv : Bool} {m : Mem} {off v : Nat} (h : v < 2 ^ 32) :
    ofsAt cv (write m off (convertIf cv (le32 v))) off = v := by
  have := read_write_same m off (convertIf cv (le32 v))
  rw [length_convertIf, length_le32] at this
  rw [ofsAt, this, convertIf_convertIf, leNat_le32_of_lt h]

theorem ofsAt_write_disjoint {cv : Bool} {m : Mem} {off off' : Nat}
    (h : off + 4 ≤ off' ∨ off' + bs.length ≤ off) : ofsAt cv (write m off' bs) off = ofsAt cv m off := by
  rw [ofsAt, read_write_disjoint h]
  rfl

theorem recAt_eq (cv : Bool) (m : Mem) (off : Nat) :
    recAt cv m off = ⟨ofsAt cv m off, ofsAt cv m (off + 4), ofsAt cv m (off + 8), ofsAt cv m (off + 12),
      ofsAt cv m (off + 16), ofsAt cv m (off + 20)⟩ := by
  have hsplit : convertIf cv (read m off sizeofRec) = convertIf cv (read m off 4) ++
      (convertIf cv (read m (off + 4) 4) ++ (convertIf cv (read m (off + 8) 4) ++
      (convertIf cv (read m (off + 12) 4) ++ (convertIf cv (read m (off + 16) 4) ++
      convertIf cv (read m (off + 20) 4))))) := by
    rw [show sizeofRec = 4 + (4 + (4 + (4 + (4 + 4)))) from rfl]
    simp only [read_add, Nat.add_assoc]
    repeat rw [convertIf_append cv (by simp)]
  have hdrop : ∀ {b c : List UInt8}, b.length = 4 → (b ++ c).take 4 = b ∧ (b ++ c).drop 4 = c := by
    intro b c hb
    exact ⟨take_left' hb, drop_left' hb⟩
  rw [recAt, hsplit]
  unfold ListStruct.ofBytes ofsAt
  have h8 : ∀ x : List UInt8, x.drop 8 = (x.drop 4).drop 4 := fun x => by rw [drop_drop]
  have h12 : ∀ x : List UInt8, x.drop 12 = ((x.drop 4).drop 4).drop 4 := fun x => by simp [drop_drop]
  have h16 : ∀ x : List UInt8, x.drop 16 = (((x.drop 4).drop 4).drop 4).drop 4 := fun x => by simp [drop_drop]
  have h20 : ∀ x : List UInt8, x.drop 20 = ((((x.drop 4).drop 4).drop 4).drop 4).drop 4 :=
    fun x => by simp [drop_drop]
  have hlen : ∀ o, (convertIf cv (read m o 4)).length = 4 := by simp
  have hlast : (convertIf cv (read m (off + 20) 4)).take 4 = convertIf cv (read m (off + 20) 4) :=
    take_of_length_le (by simp)
  simp only [h8, h12, h16, h20, (hdrop (hlen _)).1, (hdrop (hlen _)).2, hlast]

/-- The fields of a header that fit their words. -/
structure ListStruct.Fits (r : ListStruct) : Prop where
  next : r.next < 2 ^ 32
  recLen : r.recLen < 2 ^ 32
  keyLen : r.keyLen < 2 ^ 32
  dataLen : r.dataLen < 2 ^ 32
  fullHash : r.fullHash < 2 ^ 32
  magic : r.magic < 2 ^ 32

theorem fits_recAt (cv : Bool) (m : Mem) (off : Nat) : (recAt cv m off).Fits := by
  rw [recAt_eq]
  exact ⟨ofsAt_lt .., ofsAt_lt .., ofsAt_lt .., ofsAt_lt .., ofsAt_lt .., ofsAt_lt ..⟩

@[simp] theorem length_toBytes (r : ListStruct) : r.toBytes.length = sizeofRec := by
  simp [ListStruct.toBytes, sizeofRec]

theorem ofBytes_toBytes {r : ListStruct} (h : r.Fits) : ListStruct.ofBytes r.toBytes = r := by
  cases r
  simp only [ListStruct.ofBytes, ListStruct.toBytes, ListStruct.mk.injEq]
  refine ⟨?_, ?_, ?_, ?_, ?_, ?_⟩
  · exact leNat_le32_of_lt h.next
  · exact leNat_le32_of_lt h.recLen
  · exact leNat_le32_of_lt h.keyLen
  · exact leNat_le32_of_lt h.dataLen
  · exact leNat_le32_of_lt h.fullHash
  · exact leNat_le32_of_lt h.magic

theorem recAt_write_same {cv : Bool} {m : Mem} {off : Nat} {r : ListStruct} (h : r.Fits) :
    recAt cv (write m off (convertIf cv r.toBytes)) off = r := by
  have := read_write_same m off (convertIf cv r.toBytes)
  rw [length_convertIf, length_toBytes] at this
  rw [recAt, this, convertIf_convertIf, ofBytes_toBytes h]

/-! ## The view -/

/-- What the calls see: the file, or in a transaction the file under its extents. -/
def view (tdb : TdbContext) : Mem :=
  match tdb.methods, tdb.transaction with
  | .transaction, some t => overlay tdb.disk.bytes t.elements
  | _, _ => tdb.disk.bytes

/-- The database is open for writing, outside a transaction or, in host byte order, inside one. -/
structure Access (tdb : TdbContext) : Prop where
  size_lt : tdb.mapSize < 2 ^ 32
  mode : tdb.methods = .io ∧ tdb.transaction = none ∧ tdb.readOnly = false ∧ tdb.traverseRead = false ∨
    tdb.convert = false ∧ ∃ t, InTransaction tdb t

theorem view_io (h : tdb.methods = .io) : view tdb = tdb.disk.bytes := by
  simp [view, h]

theorem view_inTransaction {t : Transaction} (h : InTransaction tdb t) :
    view tdb = overlay tdb.disk.bytes t.elements := by
  simp [view, h.methods, h.transaction]

theorem tdbOob_io (hm : tdb.methods = .io) {len : Nat} (hin : len ≤ tdb.mapSize) :
    tdbOob (u32 len) tdb = .ok () tdb := by
  have hlt : u32 len ≤ tdb.mapSize := (Nat.mod_le ..).trans hin
  rw [tdbOob, get_bind, hm]
  simp only [ioOob, get_bind]
  rw [if_pos hlt]
  rfl

theorem tdbOob_ok (h : Access tdb) {len : Nat} (hin : len ≤ tdb.mapSize) : tdbOob (u32 len) tdb = .ok () tdb := by
  rcases h.mode with ⟨hm, -⟩ | ⟨-, t, ht⟩
  exacts [tdbOob_io hm hin, tdbOob_transaction ht.methods hin]

theorem tdbRead_ok {tdb : TdbContext} (h : Access tdb) {off len : Nat} (hin : off + len ≤ tdb.mapSize)
    {cv : Bool} (hcv : cv = tdb.convert ∨ cv = false) :
    tdbRead off len cv tdb = .ok (convertIf cv (read (view tdb) off len)) tdb := by
  rw [tdbRead, get_bind]
  rcases h.mode with ⟨hm, -⟩ | ⟨hc, t, ht⟩
  · rw [hm, view_io hm]
    exact ioRead_io hm hin cv
  · have hf : cv = false := by simpa [hc] using hcv
    have hread := @transactionRead_eq tdb t ht (len + 1) off (List.replicate len 0) (by simp) (by simpa using hin)
    rw [length_replicate] at hread
    rw [ht.methods, view_inTransaction ht, hf]
    exact hread

/-- What stays as it was while a call writes inside the map. -/
def Same (tdb tdb' : TdbContext) : Prop :=
  tdb' = { tdb with disk := tdb'.disk, log := tdb'.log, transaction := tdb'.transaction }

namespace Same

variable {tdb tdb' tdb'' : TdbContext}

theorem trans (h : Same tdb tdb') (h' : Same tdb' tdb'') : Same tdb tdb'' := by
  unfold Same at h h' ⊢
  rw [h', h]

theorem mapSize (h : Same tdb tdb') : tdb'.mapSize = tdb.mapSize := by
  unfold Same at h
  have e := congrArg TdbContext.mapSize h
  exact e

theorem hashSize (h : Same tdb tdb') : tdb'.hashSize = tdb.hashSize := by
  unfold Same at h
  have e := congrArg TdbContext.hashSize h
  exact e

theorem convert (h : Same tdb tdb') : tdb'.convert = tdb.convert := by
  unfold Same at h
  have e := congrArg TdbContext.convert h
  exact e

end Same

/-- The context `tdb'` comes from `tdb` by writes to bytes in `R`. -/
structure Writes (R : Nat → Prop) (tdb tdb' : TdbContext) : Prop where
  access : Access tdb'
  same : Same tdb tdb'
  frame : ∀ a, ¬ R a → view tdb' a = view tdb a
  outside : tdb.transaction = none → tdb'.transaction = none ∧ tdb'.disk.size = tdb.disk.size
  inside : ∀ t, InTransaction tdb t → tdb'.disk = tdb.disk ∧ tdb'.log = tdb.log ∧
    ∃ t', InTransaction tdb' t' ∧ t'.oldMapSize = t.oldMapSize ∧ t'.nesting = t.nesting ∧
      t'.transactionError = t.transactionError ∧
      (∀ a, Covered t.elements a → Covered t'.elements a) ∧
      ∀ a, Covered t'.elements a → Covered t.elements a ∨ R a

namespace Writes

variable {R R' : Nat → Prop} {tdb tdb' tdb'' : TdbContext}

theorem refl (h : Access tdb) : Writes R tdb tdb :=
  ⟨h, rfl, fun _ _ => rfl, fun ht => ⟨ht, rfl⟩, fun t ht =>
    ⟨rfl, rfl, t, ht, rfl, rfl, rfl, fun _ hc => hc, fun _ hc => .inl hc⟩⟩

theorem mono (h : Writes R tdb tdb') (hR : ∀ a, R a → R' a) : Writes R' tdb tdb' := by
  refine ⟨h.access, h.same, fun a ha => h.frame a (mt (hR a) ha), h.outside, fun t ht => ?_⟩
  obtain ⟨hd, hl, t', ht', ho, hn, he, hc, hc'⟩ := h.inside t ht
  exact ⟨hd, hl, t', ht', ho, hn, he, hc, fun a ha => (hc' a ha).imp_right (hR a)⟩

theorem trans (h : Writes R tdb tdb') (h' : Writes R tdb' tdb'') : Writes R tdb tdb'' := by
  refine ⟨h'.access, h.same.trans h'.same, fun a ha => (h'.frame a ha).trans (h.frame a ha), fun ht => ?_,
    fun t ht => ?_⟩
  · obtain ⟨h1, h2⟩ := h.outside ht
    obtain ⟨h3, h4⟩ := h'.outside h1
    exact ⟨h3, h4.trans h2⟩
  · obtain ⟨hd, hl, t', ht', ho, hn, he, hc, hR⟩ := h.inside t ht
    obtain ⟨hd', hl', t'', ht'', ho', hn', he', hc', hR'⟩ := h'.inside t' ht'
    refine ⟨hd'.trans hd, hl'.trans hl, t'', ht'', ho'.trans ho, hn'.trans hn, he'.trans he,
      fun a ha => hc' a (hc a ha), fun a ha => ?_⟩
    rcases hR' a ha with ha | ha
    exacts [hR a ha, .inr ha]

theorem mapSize (h : Writes R tdb tdb') : tdb'.mapSize = tdb.mapSize := h.same.mapSize
theorem hashSize (h : Writes R tdb tdb') : tdb'.hashSize = tdb.hashSize := h.same.hashSize
theorem convert (h : Writes R tdb tdb') : tdb'.convert = tdb.convert := h.same.convert

end Writes

/-- An in-range write overwrites the view, and only what it says. -/
theorem tdbWrite_ok {tdb : TdbContext} (h : Access tdb) {off : Nat} {bs : List UInt8}
    (hin : off + bs.length ≤ tdb.mapSize) :
    ∃ tdb', tdbWrite off bs tdb = .ok () tdb' ∧ Writes (fun a => off ≤ a ∧ a < off + bs.length) tdb tdb' ∧
      view tdb' = write (view tdb) off bs := by
  rcases h.mode with ⟨hm, ht, hr, htr⟩ | ⟨hc, t, ht⟩
  · have hio : tdbWrite off bs tdb = ioWrite off bs tdb := by rw [tdbWrite, get_bind, hm]
    rw [hio, ioWrite, get_bind]
    by_cases h0 : bs.length = 0
    · rw [if_pos h0]
      exact ⟨tdb, rfl, Writes.refl h, by rw [eq_nil_of_length_eq_zero h0, write_nil]⟩
    rw [if_neg h0, if_neg (by simp [hr, htr]), bind_ok (tdbOob_io hm hin)]
    refine ⟨_, rfl, ?_⟩
    have hview : view { tdb with disk := tdb.disk.apply (.write off bs), log := tdb.log ++ [.write off bs] } =
        write (view tdb) off bs := by
      rw [view_io hm]
      exact view_io hm
    refine ⟨⟨⟨h.size_lt, .inl ⟨hm, ht, hr, htr⟩⟩, rfl, fun a ha => ?_, fun _ => ⟨ht, rfl⟩, fun t h' => ?_⟩, hview⟩
    · rw [hview]
      exact write_of_out (by omega)
    · rw [h'.methods] at hm
      cases hm
  · obtain ⟨t', e, w⟩ : ∃ t', transactionWrite tdb.hashSize (bs.length + 1) t off (.data bs) = .ok t' ∧
        Wrote tdb.mapSize off bs t t' := transactionWrite_data ht.list (Nat.lt_succ_self _) hin
    have ht' : InTransaction { tdb with transaction := some t' } t' := ⟨ht.methods, rfl, ht.size_lt, w.ok⟩
    have hview : view { tdb with transaction := some t' } = write (view tdb) off bs := by
      rw [view_inTransaction ht', view_inTransaction ht]
      exact w.overlay _
    refine ⟨{ tdb with transaction := some t' }, ?_, ?_, hview⟩
    · simp only [tdbWrite, transactionMethodWrite, get_bind, ht.methods, ht.transaction, WriteBuf.length, e]
      rfl
    · refine ⟨⟨h.size_lt, .inr ⟨hc, t', ht'⟩⟩, rfl, fun a ha => ?_, fun hn => ?_, fun t₀ h₀ => ?_⟩
      · rw [hview]
        exact write_of_out (by omega)
      · rw [ht.transaction] at hn
        cases hn
      · obtain rfl : t₀ = t := by
          have := h₀.transaction.symm.trans ht.transaction
          simpa using this
        exact ⟨rfl, rfl, t', ht', w.oldMapSize, w.nesting, w.transactionError,
          fun a ha => (w.covered a).mpr (.inl ha), fun a ha => (w.covered a).mp ha⟩

/-! ## Words and headers through the method table -/

theorem tdbOfsRead_ok {tdb : TdbContext} (h : Access tdb) {off : Nat} (hin : off + 4 ≤ tdb.mapSize) :
    tdbOfsRead off tdb = .ok (ofsAt tdb.convert (view tdb) off) tdb := by
  rw [tdbOfsRead, get_bind, bind_ok (@tdbRead_ok tdb h off sizeofOff hin tdb.convert (.inl rfl))]
  rfl

theorem tdbRecGet_ok {tdb : TdbContext} (h : Access tdb) {off : Nat} (hin : off + sizeofRec ≤ tdb.mapSize) :
    tdbRecGet off tdb = .ok (recAt tdb.convert (view tdb) off) tdb := by
  rw [tdbRecGet, get_bind, bind_ok (tdbRead_ok h hin (.inl rfl))]
  rfl

theorem tdbOfsWrite_ok {tdb : TdbContext} (h : Access tdb) {off v : Nat} (hin : off + 4 ≤ tdb.mapSize) :
    ∃ tdb', tdbOfsWrite off v tdb = .ok () tdb' ∧ Writes (fun a => off ≤ a ∧ a < off + 4) tdb tdb' ∧
      view tdb' = write (view tdb) off (convertIf tdb.convert (le32 v)) := by
  obtain ⟨tdb', e, w, hv⟩ := @tdbWrite_ok tdb h off (convertIf tdb.convert (le32 v)) (by simpa using hin)
  refine ⟨tdb', by rw [tdbOfsWrite, get_bind, e], ?_, hv⟩
  simpa using w

theorem tdbRecWrite_ok {tdb : TdbContext} (h : Access tdb) {off : Nat} {r : ListStruct}
    (hin : off + sizeofRec ≤ tdb.mapSize) :
    ∃ tdb', tdbRecWrite off r tdb = .ok () tdb' ∧ Writes (fun a => off ≤ a ∧ a < off + sizeofRec) tdb tdb' ∧
      view tdb' = write (view tdb) off (convertIf tdb.convert r.toBytes) := by
  obtain ⟨tdb', e, w, hv⟩ := @tdbWrite_ok tdb h off (convertIf tdb.convert r.toBytes) (by simpa using hin)
  refine ⟨tdb', by rw [tdbRecWrite, get_bind, e], ?_, hv⟩
  simpa using w

/-! ## Growing the file -/

/-- The context after some requests to the file. -/
def TdbContext.diskOps (tdb : TdbContext) (ops : List DiskOp) : TdbContext :=
  { tdb with disk := ops.foldl Disk.apply tdb.disk, log := tdb.log ++ ops }

/-- The writes that fill new space. -/
def fillOps : Nat → Nat → Nat → List DiskOp
  | 0, _, _ => []
  | fuel + 1, size, addition =>
    if addition = 0 then []
    else .write size (List.replicate (min addition 1024) tdbPadByte) ::
      fillOps fuel (size + min addition 1024) (addition - min addition 1024)

/-- What `tdb_expand_file` asks of the file. -/
def expandOps (size addition : Nat) : List DiskOp :=
  .truncate (size + addition) :: fillOps (addition + 1) size addition

theorem expandFileFill_eq {fuel size addition : Nat} (h : addition < fuel) (tdb : TdbContext) :
    expandFileFill fuel size addition tdb = .ok () (tdb.diskOps (fillOps fuel size addition)) := by
  induction fuel generalizing size addition tdb with
  | zero => omega
  | succ fuel ih =>
    rw [expandFileFill, fillOps]
    split
    · simp [TdbContext.diskOps]
    · have hfill := @ih (size + min addition 1024) (addition - min addition 1024) (by omega)
        (tdb.diskOps [.write size (List.replicate (min addition 1024) tdbPadByte)])
      rw [show (diskOp (.write size (List.replicate (min addition 1024) tdbPadByte)) >>=
          fun _ => expandFileFill fuel (size + min addition 1024) (addition - min addition 1024)) tdb = _ from hfill]
      simp [TdbContext.diskOps]

theorem ioExpandFile_eq {tdb : TdbContext} (hr : tdb.readOnly = false) (htr : tdb.traverseRead = false)
    {size addition : Nat} (hlt : size + addition < 2 ^ 32) :
    ioExpandFile size addition tdb = .ok () (tdb.diskOps (expandOps size addition)) := by
  have hu : u32 (size + addition) = size + addition := Nat.mod_eq_of_lt hlt
  rw [ioExpandFile, get_bind, if_neg (by simp [hr, htr]), hu]
  have hfill := @expandFileFill_eq (addition + 1) size addition (Nat.lt_succ_self _)
    (tdb.diskOps [.truncate (size + addition)])
  rw [show (diskOp (.truncate (size + addition)) >>= fun _ => expandFileFill (addition + 1) size addition) tdb = _
    from hfill]
  simp [TdbContext.diskOps, expandOps]

/-- Filling writes pad bytes inside the new space. -/
theorem mem_fillOps {fuel size addition : Nat} {op : DiskOp} (h : op ∈ fillOps fuel size addition) :
    ∃ off n, op = .write off (List.replicate n tdbPadByte) ∧ size ≤ off ∧ off + n ≤ size + addition := by
  induction fuel generalizing size addition with
  | zero => cases h
  | succ fuel ih =>
    rw [fillOps] at h
    split at h
    · cases h
    · rcases mem_cons.mp h with rfl | h
      · exact ⟨size, min addition 1024, rfl, le_rfl, by omega⟩
      · obtain ⟨off, n, rfl, h1, h2⟩ := ih h
        exact ⟨off, n, rfl, by omega, by omega⟩

/-- Writes at or after `size` leave the bytes before it and the size of the file alone. -/
theorem foldl_apply_after {ops : List DiskOp} {size : Nat}
    (h : ∀ op ∈ ops, ∃ off bs, op = .write off bs ∧ size ≤ off) (d : Disk) :
    (ops.foldl Disk.apply d).size = d.size ∧ ∀ a, a < size → (ops.foldl Disk.apply d).bytes a = d.bytes a := by
  induction ops generalizing d with
  | nil => exact ⟨rfl, fun _ _ => rfl⟩
  | cons op ops ih =>
    obtain ⟨off, bs, rfl, hle⟩ := h op (by simp)
    obtain ⟨h1, h2⟩ := ih (fun op hop => h op (by simp [hop])) (d.apply (.write off bs))
    refine ⟨h1, fun a ha => (h2 a ha).trans ?_⟩
    exact write_of_lt (by omega)

theorem foldl_expandOps {d : Disk} {size addition : Nat} (h : size ≤ d.size) :
    ((expandOps size addition).foldl Disk.apply d).size = size + addition ∧
      ∀ a, a < size → ((expandOps size addition).foldl Disk.apply d).bytes a = d.bytes a := by
  obtain ⟨h1, h2⟩ := @foldl_apply_after (fillOps (addition + 1) size addition) size
    (fun op hop => by obtain ⟨off, n, rfl, hle, -⟩ := mem_fillOps hop; exact ⟨off, _, rfl, hle⟩)
    (d.apply (.truncate (size + addition)))
  refine ⟨h1, fun a ha => (h2 a ha).trans ?_⟩
  simp only [Disk.apply]
  exact if_pos ⟨by omega, by omega⟩

end Samba.Tdb
