/-
What `tdb_transaction_commit` asks of the file: the recovery area, in the old one or behind the end of
the file, the old contents in it, its mark, the new contents, and the mark off again, with a sync
between.
-/
import Samba.Tdb.Allocate
import Samba.Tdb.Recovery

namespace Samba.Tdb

open Bytes List

/-! ## The state at a commit -/

/-- The recovery data of the extents that lie in the old file, and its tailer. -/
def recoveryBytes (t : Transaction) : Nat :=
  4 + ((oldElements t.oldMapSize t.elements).map fun el => 2 * sizeofOff + el.length).sum

/-- Where the file already has a recovery area: it lies in the old file with its mark off, the extents leave it
alone, and the transaction shows a database whose other records are in order, so that the area can be freed. -/
structure OldArea (tdb : TdbContext) (t : Transaction) (off room : Nat) (pre post : List Block) (fl : List Nat) :
    Prop where
  heap : Holed false (view tdb) (tdbDataStart tdb.hashSize + 4) tdb.mapSize pre ⟨off, room, true⟩ post fl
  recLen : (recAt false tdb.disk.bytes off).recLen = room
  magic : (recAt false tdb.disk.bytes off).magic ≠ tdbRecoveryMagic
  inside : off + sizeofRec + room ≤ tdb.disk.size
  apart : ∀ a, off ≤ a → a < off + sizeofRec + room → ¬ Covered t.elements a
  /-- Freeing the area adds extents; the sizes still fit 32 bits. -/
  fits : ∀ tdb' t', tdbFree off (recAt false tdb.disk.bytes off) tdb = .ok () tdb' → tdb'.transaction = some t' →
    tdb.mapSize + sizeofRec + recoveryBytes t' + tdb.pageSize ≤ 2 ^ 32

/-- A transaction about to be committed, on a database that is consistent on the disk. -/
structure Committing (tdb : TdbContext) (t : Transaction) : Prop where
  inTransaction : InTransaction tdb t
  convert : tdb.convert = false
  readOnly : tdb.readOnly = false
  traverseRead : tdb.traverseRead = false
  internal : tdb.internal = false
  noSync : tdb.noSync = false
  page : ∃ k, 2 ≤ k ∧ tdb.pageSize = 2 ^ k
  old : t.oldMapSize = tdb.disk.size
  old_le : tdb.disk.size ≤ tdb.mapSize
  header : 48 ≤ tdb.disk.size
  head : ∀ a, tdbRecoveryHead ≤ a → a < tdbRecoveryHead + 4 → ¬ Covered t.elements a
  fits : tdb.mapSize + sizeofRec + recoveryBytes t + tdb.pageSize ≤ 2 ^ 32
  area : ofsAt false tdb.disk.bytes tdbRecoveryHead = 0 ∨
    ∃ room pre post fl, OldArea tdb t (ofsAt false tdb.disk.bytes tdbRecoveryHead) room pre post fl

/-- The recovery area is there, with the head pointing to it, and nothing else has changed on the disk below its old
end. -/
structure Prepared (base : TdbContext) (alloc : List DiskOp) (tdb : TdbContext) (t : Transaction) (off room : Nat) :
    Prop where
  inTransaction : InTransaction tdb t
  writable : tdb.readOnly = false ∧ tdb.traverseRead = false
  internal : tdb.internal = false
  convert : tdb.convert = false
  disk : tdb.disk = alloc.foldl Disk.apply base.disk
  log : tdb.log = base.log ++ alloc
  list : WriteListOk base.disk.size base.mapSize t.elements
  area : Area base.disk (oldElements base.disk.size t.elements) off room
  apart : ∀ a, off ≤ a → a < off + sizeofRec + room → ¬ Covered t.elements a
  headOut : ∀ a, tdbRecoveryHead ≤ a → a < tdbRecoveryHead + 4 → ¬ Covered t.elements a
  head : ofsAt false tdb.disk.bytes tdbRecoveryHead = off
  frame : ∀ a, a < base.disk.size → ¬ (tdbRecoveryHead ≤ a ∧ a < tdbRecoveryHead + 4) →
    tdb.disk.bytes a = base.disk.bytes a
  size : t.oldMapSize = tdb.disk.size ∧ tdb.disk.size ≤ tdb.mapSize ∧ base.disk.size ≤ tdb.disk.size ∧
    off + sizeofRec + room ≤ tdb.disk.size ∧ base.mapSize ≤ tdb.mapSize
  nesting : ∀ t₀, base.transaction = some t₀ → t.nesting = t₀.nesting
  kept : Kept base tdb

theorem Covered.oldElements {old : Nat} {els : List TransactionEl} {a : Nat} (h : Covered (oldElements old els) a) :
    Covered els a := by
  obtain ⟨el, hel, hin⟩ := h
  exact ⟨el, mem_of_mem_filter hel, hin⟩

theorem length_oldEntries (m : Mem) (els : List TransactionEl) :
    (oldEntries m els).length = (els.map fun el => 2 * sizeofOff + el.length).sum := by
  induction els with
  | nil => rfl
  | cons el els ih =>
    simp only [oldEntries, flatMap_cons, length_append, length_le32, length_read, map_cons,
      sum_cons] at ih ⊢
    rw [ih]
    unfold sizeofOff
    omega

/-- The area suits the extents, if it has the room and they leave it alone. -/
theorem area_of_list {old : Disk} {size : Nat} {els : List TransactionEl} {off room : Nat}
    (hl : WriteListOk old.size size els) (hroom : (oldEntries old.bytes (oldElements old.size els)).length + 4 ≤ room)
    (hplace : off + sizeofRec + room ≤ old.size ∨ old.size ≤ off) (hoff : off + sizeofRec + room < 2 ^ 32)
    (hold : old.size < 2 ^ 32) (h48 : 48 ≤ old.size ∧ 48 ≤ off)
    (hhead : ∀ a, tdbRecoveryHead ≤ a → a < tdbRecoveryHead + 4 → ¬ Covered els a)
    (hapart : ∀ a, off ≤ a → a < off + sizeofRec + room → ¬ Covered els a) :
    Area old (oldElements old.size els) off room := by
  refine ⟨fun el hel => ?_, hroom, hplace, hoff, hold, h48, fun a h1 h2 hc => hhead a h1 h2 hc.oldElements,
    fun a h1 h2 hc => hapart a h1 h2 hc.oldElements⟩
  obtain ⟨hel, hlt⟩ := mem_filter.mp hel
  simp only [decide_eq_true_eq] at hlt
  exact ⟨hl.nonempty el hel, (hl.noStraddle el hel).resolve_right (by omega)⟩

section Allocate

variable {tdb : TdbContext} {t : Transaction} {off : Nat}

theorem getTransaction_ok (h : tdb.transaction = some t) : getTransaction tdb = .ok t tdb := by
  rw [getTransaction, get_bind, h]
  rfl

theorem Committing.access (h : Committing tdb t) : Access tdb :=
  ⟨h.inTransaction.size_lt, .inr ⟨h.convert, t, h.inTransaction⟩⟩

/-- The head is read from the disk, through a transaction that leaves it alone. -/
theorem Committing.readHead (h : Committing tdb t) :
    tdbOfsRead tdbRecoveryHead tdb = .ok (ofsAt false tdb.disk.bytes tdbRecoveryHead) tdb := by
  have h48 := h.header
  have hle := h.old_le
  have hread := @tdbOfsRead_ok tdb h.access tdbRecoveryHead (by unfold tdbRecoveryHead; omega)
  have hcong : ofsAt false (view tdb) tdbRecoveryHead = ofsAt false tdb.disk.bytes tdbRecoveryHead := by
    refine ofsAt_congr fun a h1 h2 => ?_
    rw [view_inTransaction h.inTransaction]
    exact overlay_of_not_covered (h.head a h1 h2)
  rw [h.convert, hcong] at hread
  exact hread

theorem tdbRecoverySize_eq (h : recoveryBytes t < 2 ^ 32) : tdbRecoverySize t = recoveryBytes t := Nat.mod_eq_of_lt h

theorem OldArea.header (ho : ∃ room pre post fl, OldArea tdb t off room pre post fl) : 48 ≤ off := by
  obtain ⟨room, pre, post, fl, ho⟩ := ho
  have hb := (ho.heap.tiles.bounds ⟨off, room, true⟩ (by simp)).1
  have htop := ho.heap.top
  unfold freelistTop at htop
  simp only at hb
  omega

/-- The two ways of `tdb_recovery_allocate`, given the record that it reads at the head. -/
theorem allocate_eq (h : Committing tdb t) (hoff : ofsAt false tdb.disk.bytes tdbRecoveryHead = off) {r : ListStruct}
    (hrec : (if off ≠ 0 then do return ListStruct.ofBytes (← ioRead off sizeofRec tdb.convert) else pure {} :
      TdbM ListStruct) tdb = .ok r tdb) :
    tdbRecoveryAllocate tdb = if off ≠ 0 ∧ recoveryBytes t ≤ r.recLen then .ok (recoveryBytes t, off, r.recLen) tdb
      else recoveryAllocateNew off r tdb := by
  obtain ⟨k, hk2, hpage⟩ := h.page
  have hpow : 0 < 2 ^ k := Nat.two_pow_pos k
  have hfits := h.fits
  have hsz : tdbRecoverySize t = recoveryBytes t := tdbRecoverySize_eq (by omega)
  rw [tdbRecoveryAllocate, get_bind, bind_ok h.readHead, hoff, bind_ok hrec,
    bind_ok (getTransaction_ok h.inTransaction.transaction), hsz]
  split
  · rfl
  · rfl

variable {room : Nat} {post pre : List Block} {fl : List Nat}

theorem OldArea.readRec (h : Committing tdb t) (ho : OldArea tdb t off room pre post fl) :
    (if off ≠ 0 then do return ListStruct.ofBytes (← ioRead off sizeofRec tdb.convert) else pure {} :
      TdbM ListStruct) tdb = .ok (recAt false tdb.disk.bytes off) tdb := by
  have h48 : 48 ≤ off := OldArea.header ⟨_, _, _, _, ho⟩
  have hin := ho.inside
  have hold := h.old_le
  have hread := @ioRead_inTransaction tdb t h.inTransaction off sizeofRec (by omega)
  rw [← h.convert] at hread
  rw [if_pos (by omega), bind_ok hread]
  rfl

theorem allocate_reuse (h : Committing tdb t)
    (hoff : ofsAt false tdb.disk.bytes tdbRecoveryHead = off) (ho : OldArea tdb t off room pre post fl)
    (hfit : recoveryBytes t ≤ room) :
    tdbRecoveryAllocate tdb = .ok (recoveryBytes t, off, room) tdb ∧ Prepared tdb [] tdb t off room := by
  have hfits := h.fits
  have hin := ho.inside
  have hold := h.old_le
  have hlt := h.inTransaction.size_lt
  have h48 : 48 ≤ off := OldArea.header ⟨_, _, _, _, ho⟩
  constructor
  · rw [allocate_eq h hoff (ho.readRec h), ho.recLen, if_pos ⟨by omega, hfit⟩]
  · have hl := h.inTransaction.list
    rw [h.old] at hl
    have hroom : (oldEntries tdb.disk.bytes (oldElements tdb.disk.size t.elements)).length + 4 ≤ room := by
      rw [length_oldEntries, ← h.old]
      unfold recoveryBytes at hfit
      omega
    refine ⟨h.inTransaction, ⟨h.readOnly, h.traverseRead⟩, h.internal, h.convert, rfl, by simp, hl,
      area_of_list hl hroom (.inl hin) (by omega) (by omega) ⟨h.header, h48⟩ h.head ho.apart, ho.apart, h.head, hoff,
      fun _ _ _ => rfl, ⟨h.old, hold, le_rfl, hin, le_rfl⟩, fun t₀ ht => ?_, Kept.refl tdb⟩
    rw [Option.some.inj (h.inTransaction.transaction.symm.trans ht)]

/-- The transaction once the old recovery area, if there was one, has been freed in it. -/
structure Freed (tdb tdb₁ : TdbContext) (t₁ : Transaction) : Prop where
  inTransaction : InTransaction tdb₁ t₁
  same : Same tdb tdb₁
  disk : tdb₁.disk = tdb.disk
  log : tdb₁.log = tdb.log
  old : t₁.oldMapSize = tdb.disk.size
  head : ∀ a, tdbRecoveryHead ≤ a → a < tdbRecoveryHead + 4 → ¬ Covered t₁.elements a
  fits : tdb.mapSize + sizeofRec + recoveryBytes t₁ + tdb.pageSize ≤ 2 ^ 32
  nesting : ∀ t₀, tdb.transaction = some t₀ → t₁.nesting = t₀.nesting

theorem Committing.freed_none (h : Committing tdb t) : Freed tdb tdb t := by
  refine ⟨h.inTransaction, rfl, rfl, rfl, h.old, h.head, h.fits, fun t₀ ht => ?_⟩
  rw [Option.some.inj (h.inTransaction.transaction.symm.trans ht)]

theorem Committing.freed_area (h : Committing tdb t) (ho : OldArea tdb t off room pre post fl) :
    ∃ tdb₁ t₁, tdbFree off (recAt false tdb.disk.bytes off) tdb = .ok () tdb₁ ∧ Freed tdb tdb₁ t₁ ∧
      ∀ a, ¬ FreeBytes (pre ++ ⟨off, room, true⟩ :: post) a → view tdb₁ a = view tdb a := by
  have hheap := ho.heap
  rw [← h.convert] at hheap
  obtain ⟨tdb₁, bs', fl', e, w, -⟩ := tdbFree_ok h.access rfl hheap ho.recLen (fits_recAt ..)
  obtain ⟨hdisk, hlog, t₁, ht₁, hold, hnest, -, -, hcov⟩ := w.inside t h.inTransaction
  refine ⟨tdb₁, t₁, e, ⟨ht₁, w.same, hdisk, hlog, hold.trans h.old, fun a h1 h2 hc => ?_,
    ho.fits tdb₁ t₁ e ht₁.transaction, fun t₀ ht => ?_⟩, w.frame⟩
  swap
  · rw [hnest, Option.some.inj (h.inTransaction.transaction.symm.trans ht)]
  rcases hcov a hc with hc | hf
  · exact h.head a h1 h2 hc
  · -- free space begins with the top of the free list
    have hle : freelistTop ≤ a := by
      rcases hf with hf | ⟨b, hb, -, hlo, -⟩
      · exact hf.1
      · have := (ho.heap.tiles.bounds b hb).1
        have := ho.heap.top
        omega
    unfold tdbRecoveryHead freelistTop at *
    omega

theorem WriteListOk.grow {old size size' : Nat} {els : List TransactionEl} (h : WriteListOk old size els)
    (hle : size ≤ size') : WriteListOk size' size' els :=
  ⟨h.nonempty, h.disjoint, fun el hel => (h.inRange el hel).trans hle,
    fun el hel => .inl ((h.inRange el hel).trans hle), fun a h1 h2 => by omega⟩

/-- The requests for a new recovery area at `off`, behind a file of `old` bytes. -/
def areaOps (old off room : Nat) : List DiskOp :=
  expandOps old (off - old + sizeofRec + room) ++ [.write tdbRecoveryHead (le32 off)]

/-- A new recovery area is allocated behind the end of the file. -/
theorem allocate_new (h : Committing tdb t) {recoveryHead : Nat} {r : ListStruct} {tdb₁ : TdbContext} {t₁ : Transaction}
    (efree : (if recoveryHead ≠ 0 then tdbFree recoveryHead r else pure ()) tdb = .ok () tdb₁) (hf : Freed tdb tdb₁ t₁) :
    ∃ room tdb₂, recoveryAllocateNew recoveryHead r tdb = .ok (recoveryBytes t₁, tdb.mapSize, room) tdb₂ ∧
      tdb₂.mapSize = tdb.mapSize + sizeofRec + room ∧ Prepared tdb (areaOps tdb.disk.size tdb.mapSize room) tdb₂ { t₁ with oldMapSize := tdb.mapSize + sizeofRec + room }
        tdb.mapSize room := by
  obtain ⟨k, hk2, hpage⟩ := h.page
  have hkept := hf.same.kept
  have hfits := hf.fits
  have hold := h.old_le
  have h48 := h.header
  have hpow : 0 < 2 ^ k := Nat.two_pow_pos k
  have hm₁ : tdb₁.mapSize = tdb.mapSize := hf.same.mapSize
  have hlist := hf.inTransaction.list
  rw [hf.old, hm₁] at hlist
  rw [hpage] at hfits
  -- the sizes
  obtain ⟨hal₁, hal₂, -⟩ := @tdbAlign_spec (sizeofRec + recoveryBytes t₁) k (by omega)
  obtain ⟨room, hroom⟩ : ∃ room, tdbAlign (sizeofRec + recoveryBytes t₁) (2 ^ k) = sizeofRec + room :=
    ⟨tdbAlign (sizeofRec + recoveryBytes t₁) (2 ^ k) - sizeofRec, by omega⟩
  rw [hroom] at hal₁ hal₂
  have hsz : tdbRecoverySize t₁ = recoveryBytes t₁ := tdbRecoverySize_eq (by omega)
  have hmax : sub32 (tdbAlign (u32 (sizeofRec + tdbRecoverySize t₁)) tdb₁.pageSize) sizeofRec = room := by
    rw [hsz, hkept.pageSize, hpage, u32_of_lt (by omega), hroom, sub32_of_le (by omega) (by omega)]
    omega
  have hadd : u32 (sub32 tdb₁.mapSize t₁.oldMapSize + sizeofRec + room) = tdb.mapSize - tdb.disk.size + sizeofRec + room := by
    rw [hf.old, hm₁, sub32_of_le (by omega) (by omega), u32_of_lt (by omega)]
  have hsum : tdb.disk.size + (tdb.mapSize - tdb.disk.size + sizeofRec + room) = tdb.mapSize + sizeofRec + room := by omega
  -- the file is grown
  have hexp : ioExpandFile t₁.oldMapSize (tdb.mapSize - tdb.disk.size + sizeofRec + room) tdb₁ =
      .ok () (tdb₁.diskOps (expandOps tdb.disk.size (tdb.mapSize - tdb.disk.size + sizeofRec + room))) := by
    rw [hf.old]
    exact ioExpandFile_eq (hkept.readOnly.trans h.readOnly) (hkept.traverseRead.trans h.traverseRead) (by omega)
  obtain ⟨hs, hb⟩ := @foldl_expandOps tdb.disk tdb.disk.size (tdb.mapSize - tdb.disk.size + sizeofRec + room) le_rfl
  rw [hsum] at hs
  generalize hops : expandOps tdb.disk.size (tdb.mapSize - tdb.disk.size + sizeofRec + room) = ops at hexp hs hb
  have hdisk : (tdb₁.diskOps ops).disk = ops.foldl Disk.apply tdb.disk := by
    rw [TdbContext.diskOps, hf.disk]
  obtain ⟨res, ecode, eprobe⟩ := @probe_ioOob (tdb₁.diskOps ops) (hkept.internal.trans h.internal)
    (by rw [hdisk, hs, show (tdb₁.diskOps ops).mapSize = _ from hm₁]; omega) (by rw [hdisk, hs]; omega)
  rw [show (tdb₁.diskOps ops).mapSize = tdb₁.mapSize from rfl] at eprobe
  generalize htdb₂ : ({ tdb₁.diskOps ops with
      mapSize := (tdb₁.diskOps ops).disk.size, ecode := ecode
      transaction := some { t₁ with oldMapSize := (tdb₁.diskOps ops).disk.size } } : TdbContext) = tdb₂
  have hmap₂ : tdb₂.mapSize = tdb.mapSize + sizeofRec + room := by rw [← htdb₂, ← hs, ← hdisk]
  have hmeth₂ : tdb₂.methods = .transaction := by rw [← htdb₂]; exact hf.inTransaction.methods
  have hwr₂ : tdb₂.readOnly = false ∧ tdb₂.traverseRead = false := by
    rw [← htdb₂]
    exact ⟨hkept.readOnly.trans h.readOnly, hkept.traverseRead.trans h.traverseRead⟩
  have ewrite := @ioWrite_inTransaction tdb₂ hmeth₂ hwr₂ tdbRecoveryHead (le32 tdb.mapSize) (by simp)
    (by rw [hmap₂, length_le32]; unfold tdbRecoveryHead; omega)
  have hcov : ∀ a, tdb.mapSize ≤ a → ¬ Covered t₁.elements a := by
    rintro a ha ⟨el, hel, h1, h2⟩
    have := hlist.inRange el hel
    omega
  have hbytes₂ : tdb₂.disk = ops.foldl Disk.apply tdb.disk := by rw [← htdb₂]; exact hdisk
  refine ⟨room, { tdb₂ with
    disk := tdb₂.disk.apply (.write tdbRecoveryHead (le32 tdb.mapSize))
    log := tdb₂.log ++ [.write tdbRecoveryHead (le32 tdb.mapSize)] }, ?_, hmap₂, ?_⟩
  · have hcv : tdb₁.convert = false := hkept.convert.trans h.convert
    rw [recoveryAllocateNew, bind_ok efree, bind_ok (getTransaction_ok hf.inTransaction.transaction), get_bind]
    simp only [hmax]
    rw [hadd, bind_ok hexp, bind_ok eprobe, bind_ok (modify_apply _)]
    simp only
    rw [htdb₂, hcv, hm₁, show convertIf false (le32 tdb.mapSize) = le32 tdb.mapSize from rfl, bind_ok ewrite, hsz]
    rfl
  · have hroom' : (oldEntries tdb.disk.bytes (oldElements tdb.disk.size t₁.elements)).length + 4 ≤ room := by
      rw [length_oldEntries, ← hf.old]
      unfold recoveryBytes at hal₁
      omega
    have hapart : ∀ a, tdb.mapSize ≤ a → a < tdb.mapSize + sizeofRec + room → ¬ Covered t₁.elements a :=
      fun a h1 _ => hcov a h1
    refine ⟨⟨hmeth₂, ?_, ?_, ?_⟩, hwr₂, ?_, ?_, ?_, ?_, hlist, ?_, hapart, hf.head, ?_, fun a ha hn => ?_,
      ⟨?_, ?_, ?_, ?_, ?_⟩, hf.nesting, ?_⟩
    · rw [← htdb₂, hdisk, hs]
    · rw [hmap₂]
      omega
    · rw [hmap₂]
      exact hlist.grow (show tdb.mapSize ≤ tdb.mapSize + sizeofRec + room by omega)
    · rw [← htdb₂]
      exact hkept.internal.trans h.internal
    · rw [← htdb₂]
      exact hkept.convert.trans h.convert
    · rw [hbytes₂, areaOps, hops, foldl_append]
      rfl
    · rw [areaOps, hops, ← htdb₂, ← append_assoc]
      exact congrArg (· ++ ops ++ [DiskOp.write tdbRecoveryHead (le32 tdb.mapSize)]) hf.log
    · exact area_of_list hlist hroom' (.inr hold) (by omega) (by omega) ⟨h48, by omega⟩ hf.head hapart
    · exact @ofsAt_write_same false _ tdbRecoveryHead tdb.mapSize (by omega)
    · refine (write_of_out ?_).trans ?_
      · rw [length_le32]
        omega
      · rw [hbytes₂]
        exact hb a ha
    · rw [show (tdb₂.disk.apply (.write tdbRecoveryHead (le32 tdb.mapSize))).size = tdb₂.disk.size from rfl, hbytes₂, hs]
    · rw [show (tdb₂.disk.apply (.write tdbRecoveryHead (le32 tdb.mapSize))).size = tdb₂.disk.size from rfl, hbytes₂, hs,
        hmap₂]
    · rw [show (tdb₂.disk.apply (.write tdbRecoveryHead (le32 tdb.mapSize))).size = tdb₂.disk.size from rfl, hbytes₂, hs]
      omega
    · rw [show (tdb₂.disk.apply (.write tdbRecoveryHead (le32 tdb.mapSize))).size = tdb₂.disk.size from rfl, hbytes₂, hs]
    · rw [hmap₂]
      omega
    · rw [← htdb₂]
      exact ⟨hkept.mapPtr, hkept.readOnly, hkept.traverseRead, hkept.hashSize, hkept.internal, hkept.convert,
        hkept.seqnum, hkept.travlocks, hkept.hashFn, hkept.methods, hkept.pageSize, hkept.maxDeadRecords⟩

/-- The marks and sizes of the file before the commit, by which it asks for no recovery. -/
theorem Committing.unarmed (h : Committing tdb t) : Unarmed tdb.disk := by
  rcases h.area with h0 | ⟨room, pre, post, fl, ho⟩
  · exact .inl h0
  · have := ho.inside
    exact .inr ⟨by omega, ho.magic⟩

/-- How `tdb_recovery_allocate` came by the recovery area. -/
inductive AreaKind (base tdb : TdbContext) (t : Transaction) (off room : Nat) : List DiskOp → Prop
  | reuse : tdb = base → off + sizeofRec + room ≤ base.disk.size → AreaKind base tdb t off room []
  | fresh : tdb.mapSize = t.oldMapSize → off = base.mapSize →
      AreaKind base tdb t off room (areaOps base.disk.size off room)

theorem allocate_fresh (h : Committing tdb t) {recoveryHead : Nat} {r : ListStruct} {tdb₁ : TdbContext} {t₁ : Transaction}
    (efree : (if recoveryHead ≠ 0 then tdbFree recoveryHead r else pure ()) tdb = .ok () tdb₁) (hf : Freed tdb tdb₁ t₁)
    (heq : tdbRecoveryAllocate tdb = recoveryAllocateNew recoveryHead r tdb) :
    ∃ alloc tdb₂ t₂ off room, tdbRecoveryAllocate tdb =
        .ok (recoveryBytes { t₂ with oldMapSize := tdb.disk.size }, off, room) tdb₂ ∧
      Prepared tdb alloc tdb₂ t₂ off room ∧ AreaKind tdb tdb₂ t₂ off room alloc := by
  obtain ⟨room, tdb₂, e, hmap, hp⟩ := allocate_new h efree hf
  refine ⟨_, tdb₂, _, tdb.mapSize, room, ?_, hp, .fresh hmap rfl⟩
  rw [heq, e, ← hf.old]

/-- `tdb_recovery_allocate` finds the recovery area in the old one or behind the end of the file. -/
theorem allocate_ok (h : Committing tdb t) :
    ∃ alloc tdb₁ t₁ off room, tdbRecoveryAllocate tdb =
        .ok (recoveryBytes { t₁ with oldMapSize := tdb.disk.size }, off, room) tdb₁ ∧
      Prepared tdb alloc tdb₁ t₁ off room ∧ AreaKind tdb tdb₁ t₁ off room alloc := by
  rcases h.area with h0 | ⟨room, pre, post, fl, ho⟩
  · refine @allocate_fresh tdb t h 0 {} tdb t (by rw [if_neg (by simp)]; rfl) h.freed_none ?_
    rw [allocate_eq h h0 (show _ = EStateM.Result.ok ({} : ListStruct) tdb by rw [if_neg (by simp)]; rfl), if_neg (by simp)]
  · have h48 := OldArea.header ⟨_, _, _, _, ho⟩
    by_cases hfit : recoveryBytes t ≤ room
    · obtain ⟨e, hp⟩ := allocate_reuse h rfl ho hfit
      refine ⟨[], tdb, t, _, room, ?_, hp, .reuse rfl ho.inside⟩
      rw [e, ← h.old]
    · obtain ⟨tdb₁, t₁, e, hf, -⟩ := h.freed_area ho
      refine @allocate_fresh tdb t h (ofsAt false tdb.disk.bytes tdbRecoveryHead)
        (recAt false tdb.disk.bytes (ofsAt false tdb.disk.bytes tdbRecoveryHead)) tdb₁ t₁
        (by rw [if_pos (by omega)]; exact e) hf ?_
      rw [allocate_eq h rfl (ho.readRec h), ho.recLen, if_neg fun hc => hfit hc.2]

end Allocate

/-! ## The recovery data -/

/-- What is written to the recovery area before its mark. -/
def recoveryBlob (old : Disk) (els : List TransactionEl) (room : Nat) : List UInt8 :=
  (⟨0, room, old.size, (oldEntries old.bytes els).length + 4, 0, 0⟩ : ListStruct).toBytes ++
    oldEntries old.bytes els ++ le32 (sizeofRec + room)

/-- The mark. -/
def markOp (off : Nat) : DiskOp := .write (off + offsetofMagic) (le32 tdbRecoveryMagic)

def unmarkOp (off : Nat) : DiskOp := .write (off + offsetofMagic) (le32 0)

variable {tdb : TdbContext}

theorem orFail_ok {α : Type} {x : TdbM α} {a : α} {tdb' : TdbContext} {e : TdbError} (h : x tdb = .ok a tdb') :
    orFail e x tdb = .ok a tdb' :=
  bind_ok (attempt_ok h)

theorem orCancel_ok {α : Type} {x : TdbM α} {a : α} {tdb' : TdbContext} (h : x tdb = .ok a tdb') :
    orCancel x tdb = .ok a tdb' :=
  bind_ok (attempt_ok h)

theorem recoveryData_ok {t : Transaction} (h : InTransaction tdb t) {old new : Nat}
    {els : List TransactionEl} (hin : ∀ el ∈ els, el.offset < old →
      el.offset + el.length ≤ new ∧ el.offset + el.length ≤ tdb.mapSize) :
    recoveryData false old new els tdb = .ok (oldEntries tdb.disk.bytes (oldElements old els)) tdb := by
  induction els with
  | nil => rfl
  | cons el els ih =>
    have ih := ih fun e he => hin e (by simp [he])
    rw [recoveryData]
    by_cases hlt : el.offset < old
    · obtain ⟨hnew, hmap⟩ := hin el (by simp) hlt
      have hread : orFail .errIo (ioRead el.offset el.length false) tdb =
          .ok (read tdb.disk.bytes el.offset el.length) tdb := orFail_ok (ioRead_inTransaction h hmap)
      rw [if_neg (by omega), if_neg (by omega), bind_ok hread, bind_ok ih]
      simp [oldElements, hlt, oldEntries, convertIf]
    · rw [if_pos (by omega), ih]
      simp [oldElements, hlt]

theorem oldEntries_congr {m m' : Mem} {els : List TransactionEl} (h : ∀ a, Covered els a → m a = m' a) :
    oldEntries m els = oldEntries m' els := by
  refine flatMap_congr fun el hel => ?_
  rw [read_congr fun a h1 h2 => h a ⟨el, hel, h1, h2⟩]

theorem TdbContext.diskOps_nil (tdb : TdbContext) : tdb.diskOps [] = tdb := by
  simp [TdbContext.diskOps]

theorem transactionSync_eq (tdb : TdbContext) : transactionSync tdb = .ok () (tdb.diskOps [.sync]) := rfl

section Setup

variable {base tdb : TdbContext} {t : Transaction} {alloc : List DiskOp} {off room : Nat}

/-- The requests of `transaction_setup_recovery` once there is a recovery area. -/
def setupOps (old : Disk) (els : List TransactionEl) (off room : Nat) : List DiskOp :=
  [.write off (recoveryBlob old els room), .sync, markOp off, .sync]

theorem Prepared.oldEntries_eq (h : Prepared base alloc tdb t off room) :
    oldEntries tdb.disk.bytes (oldElements base.disk.size t.elements) =
      oldEntries base.disk.bytes (oldElements base.disk.size t.elements) := by
  refine oldEntries_congr fun a hc => h.frame a ?_ fun hhead => h.area.head a hhead.1 hhead.2 hc
  obtain ⟨el, hel, h1, h2⟩ := hc
  have := (h.area.extents el hel).2
  omega

theorem Prepared.length_blob (h : Prepared base alloc tdb t off room) :
    off + (recoveryBlob base.disk (oldElements base.disk.size t.elements) room).length ≤ off + sizeofRec + room := by
  have := h.area.fits
  unfold recoveryBlob
  simp only [length_append, length_toBytes, length_le32]
  omega

theorem Prepared.orFail_write (h : Prepared base alloc tdb t off room) (ops : List DiskOp) {o : Nat} {bs : List UInt8}
    (hpos : 0 < bs.length) (hin : o + bs.length ≤ tdb.mapSize) :
    orFail .errIo (ioWrite o bs) (tdb.diskOps ops) = .ok () ((tdb.diskOps ops).diskOps [.write o bs]) :=
  orFail_ok (@ioWrite_inTransaction (tdb.diskOps ops) h.inTransaction.methods h.writable o bs hpos hin)

theorem transactionSetupRecovery_ok {t₀ : Transaction} (ht₀ : base.transaction = some t₀)
    (hold : t₀.oldMapSize = base.disk.size) (h : Prepared base alloc tdb t off room)
    (e : tdbRecoveryAllocate base = .ok (recoveryBytes { t with oldMapSize := base.disk.size }, off, room) tdb) :
    transactionSetupRecovery base = .ok (off + offsetofMagic)
      (tdb.diskOps (setupOps base.disk (oldElements base.disk.size t.elements) off room)) := by
  have hdata : recoveryData false base.disk.size t.oldMapSize t.elements tdb =
      .ok (oldEntries base.disk.bytes (oldElements base.disk.size t.elements)) tdb := by
    rw [← h.oldEntries_eq]
    refine recoveryData_ok h.inTransaction fun el hel hlt => ?_
    have := (h.list.noStraddle el hel).resolve_right (by omega)
    have := h.size
    omega
  have hsize := h.size
  have hlt := h.area.off_lt
  have hsz : recoveryBytes { t with oldMapSize := base.disk.size } =
      (oldEntries base.disk.bytes (oldElements base.disk.size t.elements)).length + 4 := by
    rw [length_oldEntries]
    exact Nat.add_comm ..
  have hblob := h.length_blob
  have hwrite := @Prepared.orFail_write base tdb t alloc off room h [] off
    (recoveryBlob base.disk (oldElements base.disk.size t.elements) room) (by simp [recoveryBlob]) (by omega)
  have hmark := @Prepared.orFail_write base tdb t alloc off room h
    [.write off (recoveryBlob base.disk (oldElements base.disk.size t.elements) room), .sync]
    (off + offsetofMagic) (le32 tdbRecoveryMagic) (by simp)
    (by rw [length_le32]; unfold sizeofRec at hsize; unfold offsetofMagic; omega)
  have hu1 : u32 (sizeofRec + room) = sizeofRec + room := u32_of_lt (by omega)
  have hu2 : u32 (off + offsetofMagic) = off + offsetofMagic :=
    u32_of_lt (by unfold sizeofRec at hlt; unfold offsetofMagic; omega)
  have hblock : ¬ sizeofRec + ((oldEntries base.disk.bytes (oldElements base.disk.size t.elements)).length + 4) <
      (recoveryBlob base.disk (oldElements base.disk.size t.elements) room).length := by
    simp only [recoveryBlob, length_append, length_toBytes, length_le32]
    omega
  rw [transactionSetupRecovery, bind_ok (getTransaction_ok ht₀), hold, bind_ok e]
  simp only
  rw [get_bind, bind_ok (getTransaction_ok h.inTransaction.transaction), h.convert, bind_ok hdata, hu1, hsz, hu2]
  refine (congrFun (if_neg hblock) tdb).trans ?_
  rw [tdb.diskOps_nil] at hwrite
  refine (bind_ok hwrite).trans ?_
  rw [bind_ok (transactionSync_eq _), TdbContext.diskOps_diskOps]
  refine (bind_ok hmark).trans ?_
  rw [bind_ok (transactionSync_eq _), TdbContext.diskOps_diskOps, TdbContext.diskOps_diskOps]
  rfl

end Setup

/-! ## The new contents -/

/-- The requests that grow the file to the size of the transaction. -/
def growOps (tdb : TdbContext) (t : Transaction) : List DiskOp :=
  if tdb.mapSize ≠ t.oldMapSize then expandOps t.oldMapSize (tdb.mapSize - t.oldMapSize) else []

/-- The requests that put the extents into the file. -/
def writeOps (els : List TransactionEl) : List DiskOp := els.map fun el => .write el.offset el.data

theorem foldl_writeOps (els : List TransactionEl) (d : Disk) :
    (writeOps els).foldl Disk.apply d = { d with bytes := overlay d.bytes els } := by
  induction els generalizing d with
  | nil => rfl
  | cons el els ih =>
    rw [writeOps, map_cons, foldl_cons]
    exact ih _

section Write

variable {tdb : TdbContext} {t : Transaction}

theorem growFile_ok (h : InTransaction tdb t) (hw : tdb.readOnly = false ∧ tdb.traverseRead = false)
    (hi : tdb.internal = false) (hsize : tdb.disk.size = t.oldMapSize) (hle : t.oldMapSize ≤ tdb.mapSize) :
    ∃ e, (if tdb.mapSize ≠ t.oldMapSize then do
        orCancel (orFail .errIo (ioExpandFile t.oldMapSize (sub32 tdb.mapSize t.oldMapSize)))
        modify fun tdb => { tdb with mapSize := t.oldMapSize }
        let _ ← attempt (ioOob (u32 (t.oldMapSize + 1)))
      else pure () : TdbM Unit) tdb = .ok () { tdb.diskOps (growOps tdb t) with ecode := e } := by
  have hlt := h.size_lt
  by_cases hne : tdb.mapSize = t.oldMapSize
  · refine ⟨tdb.ecode, ?_⟩
    rw [if_neg (not_not.mpr hne), growOps, if_neg (not_not.mpr hne), tdb.diskOps_nil]
    rfl
  · have hsub : sub32 tdb.mapSize t.oldMapSize = tdb.mapSize - t.oldMapSize := sub32_of_le hle hlt
    have hexp := @ioExpandFile_eq tdb hw.1 hw.2 t.oldMapSize (tdb.mapSize - t.oldMapSize) (by omega)
    obtain ⟨hs, -⟩ := @foldl_expandOps tdb.disk t.oldMapSize (tdb.mapSize - t.oldMapSize) (le_of_eq hsize.symm)
    rw [growOps, if_pos hne, if_pos hne, hsub]
    generalize expandOps t.oldMapSize (tdb.mapSize - t.oldMapSize) = ops at hexp hs ⊢
    have hcancel : orCancel (orFail .errIo (ioExpandFile t.oldMapSize (tdb.mapSize - t.oldMapSize))) tdb =
        .ok () (tdb.diskOps ops) := orCancel_ok (orFail_ok hexp)
    have hd : (tdb.diskOps ops).disk.size = tdb.mapSize := by
      rw [TdbContext.diskOps, hs]
      omega
    obtain ⟨r, e, eprobe⟩ := @probe_ioOob { tdb.diskOps ops with mapSize := t.oldMapSize } hi
      (by rw [hd]; exact hle) (by rw [hd]; exact hlt)
    refine ⟨e, ?_⟩
    rw [bind_ok hcancel, bind_ok (modify_apply _), bind_ok eprobe, hd]
    rfl

theorem commitWrites_diskOps (h : InTransaction tdb t) (hw : tdb.readOnly = false ∧ tdb.traverseRead = false) :
    ∃ els', commitWrites t.elements tdb = .ok () { tdb.diskOps (writeOps t.elements) with
      transaction := some { t with elements := els' } } := by
  obtain ⟨els', e⟩ := commitWrites_eq h.methods hw h.list.nonempty h.list.inRange
  refine ⟨els' t.elements, ?_⟩
  rw [e, h.transaction, TdbContext.diskOps, foldl_writeOps]
  rfl

end Write

section Commit

variable {tdb : TdbContext} {t : Transaction}

/-- The context once the commit is done. -/
def TdbContext.committed (tdb : TdbContext) (t : Transaction) (ops : List DiskOp) (e : TdbError) : TdbContext :=
  { tdb.diskOps ops with ecode := e, mapSize := t.oldMapSize, methods := .io, transaction := none }

theorem cancel_outermost (ht : tdb.transaction = some t) (hnest : t.nesting = 0) :
    tdbTransactionCancel tdb = .ok () { tdb with mapSize := t.oldMapSize, methods := .io, transaction := none } := by
  rw [tdbTransactionCancel, get_bind, ht]
  simp [hnest]

/-- A commit of the outermost transaction, with some extents. -/
theorem commit_ok (h : Committing tdb t) (herr : t.transactionError = false) (hnest : t.nesting = 0)
    (hne : t.elements ≠ []) :
    ∃ alloc tdb₁ t₁ off room e, Prepared tdb alloc tdb₁ t₁ off room ∧ AreaKind tdb tdb₁ t₁ off room alloc ∧
      tdbTransactionCommit tdb = .ok () (tdb₁.committed t₁
        (setupOps tdb.disk (oldElements tdb.disk.size t₁.elements) off room ++ growOps tdb₁ t₁ ++
          writeOps t₁.elements ++ [.sync, unmarkOp off, .sync]) e) := by
  obtain ⟨alloc, tdb₁, t₁, off, room, ealloc, hp, hkind⟩ := allocate_ok h
  have hsetup := transactionSetupRecovery_ok h.inTransaction.transaction h.old hp ealloc
  generalize hops : setupOps tdb.disk (oldElements tdb.disk.size t₁.elements) off room = ops at hsetup
  have hsz : (tdb₁.diskOps ops).disk.size = tdb₁.disk.size := by
    rw [← hops]
    rfl
  have hin₁ : InTransaction (tdb₁.diskOps ops) t₁ :=
    ⟨hp.inTransaction.methods, hp.inTransaction.transaction, hp.inTransaction.size_lt, hp.inTransaction.list⟩
  obtain ⟨e, hgrow⟩ := growFile_ok hin₁ hp.writable hp.internal (hsz.trans hp.size.1.symm)
    (hp.size.1.le.trans hp.size.2.1)
  have hg : growOps (tdb₁.diskOps ops) t₁ = growOps tdb₁ t₁ := rfl
  rw [hg, TdbContext.diskOps_diskOps] at hgrow
  have hin₂ : InTransaction { tdb₁.diskOps (ops ++ growOps tdb₁ t₁) with ecode := e } t₁ :=
    ⟨hp.inTransaction.methods, hp.inTransaction.transaction, hp.inTransaction.size_lt, hp.inTransaction.list⟩
  obtain ⟨els', hwrites⟩ := commitWrites_diskOps hin₂ hp.writable
  refine ⟨alloc, tdb₁, t₁, off, room, e, hp, hkind, ?_⟩
  rw [tdbTransactionCommit, get_bind, h.inTransaction.transaction]
  simp only [herr, Bool.false_eq_true, if_false, hnest, ne_eq, not_true_eq_false, hne, h.noSync]
  rw [bind_ok (orCancel_ok hsetup), bind_ok (getTransaction_ok hin₁.transaction), get_bind]
  refine (bind_ok hgrow).trans ?_
  rw [bind_ok hwrites]
  generalize htdb₂ : ({ TdbContext.diskOps { tdb₁.diskOps (ops ++ growOps tdb₁ t₁) with ecode := e }
    (writeOps t₁.elements) with transaction := some { t₁ with elements := els' } } : TdbContext) = tdb₂
  have hmap₂ : tdb₂.mapSize = tdb₁.mapSize := by rw [← htdb₂]; rfl
  have hsize := hp.size
  have hunmark := @ioWrite_inTransaction (tdb₂.diskOps [.sync]) (by rw [← htdb₂]; exact hp.inTransaction.methods)
    (by rw [← htdb₂]; exact hp.writable) (off + offsetofMagic) (le32 0) (by simp)
    (by rw [length_le32, show (tdb₂.diskOps [.sync]).mapSize = _ from hmap₂]
        unfold sizeofRec at hsize
        unfold offsetofMagic
        omega)
  have hnest₁ : t₁.nesting = 0 := (hp.nesting t h.inTransaction.transaction).trans hnest
  have hsync : (do transactionSync; ioWrite (off + offsetofMagic) (le32 0); transactionSync : TdbM Unit) tdb₂ =
      .ok () (tdb₂.diskOps [.sync, unmarkOp off, .sync]) := by
    rw [bind_ok (transactionSync_eq _), bind_ok hunmark]
    simp [transactionSync_eq, TdbContext.diskOps, unmarkOp]
  rw [bind_ok hsync, @cancel_outermost (tdb₂.diskOps _) { t₁ with elements := els' } (by rw [← htdb₂]; rfl) hnest₁,
    ← htdb₂]
  simp [TdbContext.diskOps, TdbContext.committed, hops]

end Commit

end Samba.Tdb
