/-
The accounting of the space: in every state reached from a new database by calls of `tdb_allocate`
and `tdb_free`, outside transactions, the records fill the space behind the hash table, each free
one is on the free list once, and the allocated ones are apart.
-/
import Mathlib.Data.List.Perm.Basic
import Samba.Lib.Transition
import Samba.Tdb.Allocate

namespace Samba.Tdb

open Bytes Links List Transition

/-! ## A new database -/

/-- Settings as `tdb_open_ex` makes them: the hash table has a bucket, its size fits the offsets, and
the page size is that of a system. -/
structure OpenArgs.Valid (args : OpenArgs) : Prop where
  hashSize : 0 < args.hashSize
  size_lt : freelistTop + tdbHashtableSize args.hashSize < 2 ^ 32
  page : ∃ k, 2 ≤ k ∧ args.pageSize = 2 ^ k

section New

variable {args : OpenArgs} (mem : Mem)

theorem tdbNewDatabase_ready (h : args.Valid) : Ready (tdbNewDatabase args mem) :=
  ⟨⟨h.size_lt, .inl ⟨rfl, rfl, rfl, rfl⟩⟩, rfl, fun _ => rfl, h.hashSize, h.page⟩

/-- The records of a database start right behind its hash table. -/
theorem tdbDataStart_eq (h : args.Valid) :
    tdbDataStart args.hashSize + 4 = freelistTop + tdbHashtableSize args.hashSize :=
  tdbDataStart_add h.hashSize

/-- The free list and the hash chains start out empty. -/
theorem tdbNewDatabase_zero {a : Nat} (h1 : freelistTop ≤ a) (h2 : a < freelistTop + tdbHashtableSize args.hashSize) :
    view (tdbNewDatabase args mem) a = 0 := by
  have hhead : ((if args.internal then List.replicate 32 0 else tdbMagicFood) ++ convertIf args.convert
      (le32 tdbVersion ++ le32 args.hashSize ++ List.replicate 128 0)).length = freelistTop := by
    simp only [length_append, length_convertIf, length_le32, length_replicate]
    split <;> rfl
  rw [view_io rfl]
  simp only [tdbNewDatabase, newDatabaseBytes]
  rw [write_append, hhead, write_of_mem (by omega) (by simp; omega), getElem_replicate]

theorem tdbNewDatabase_ofsAt {off : Nat} (h1 : freelistTop ≤ off)
    (h2 : off + 4 ≤ freelistTop + tdbHashtableSize args.hashSize) :
    ofsAt args.convert (view (tdbNewDatabase args mem)) off = 0 := by
  have hcong := @ofsAt_congr args.convert (fun _ => 0) (view (tdbNewDatabase args mem)) off fun a ha1 ha2 =>
    tdbNewDatabase_zero mem (by omega) (by omega)
  rw [hcong]
  cases args.convert <;> rfl

theorem tdbNewDatabase_heap (h : args.Valid) :
    Heap args.convert (view (tdbNewDatabase args mem)) (tdbDataStart args.hashSize + 4)
      (tdbNewDatabase args mem).mapSize [] [] := by
  have hle : 4 ≤ tdbHashtableSize args.hashSize := by unfold tdbHashtableSize sizeofOff; omega
  refine ⟨tdbDataStart_eq h, by simp, tdbNewDatabase_ofsAt mem le_rfl (by omega), .nil, .nil, ?_⟩
  rw [tdbDataStart_eq h]
  omega

end New

/-! ## Allocations and frees -/

/-- An allocation: the offset and the header that `tdb_allocate` returned, and the length asked for. -/
structure Allocation where
  recPtr : Nat
  hdr : ListStruct
  length : Nat

/-- Two allocations whose records do not meet. -/
def Allocation.Disjoint (a b : Allocation) : Prop :=
  a.recPtr + sizeofRec + a.hdr.recLen ≤ b.recPtr ∨ b.recPtr + sizeofRec + b.hdr.recLen ≤ a.recPtr

/-- A database with the allocations that have not been freed. -/
structure Space where
  tdb : TdbContext
  live : List Allocation

/-- The calls on the space of a database. -/
inductive SpaceCall
  /-- `tdb_allocate(tdb, length, &rec)`. -/
  | allocate (length : Nat)
  /-- `tdb_free(tdb, offset, &rec)` of the `i`th live allocation. -/
  | free (i : Nat) (r : ListStruct)

/-- The 32-bit sizes that `tdb_allocate` and `tdb_expand` compute do not wrap. -/
def NoWrap (tdb : TdbContext) (length : Nat) : Prop := tdb.mapSize + (length + 28) * 10 + tdb.pageSize ≤ 2 ^ 32

/-- The sizes of a call do not wrap: the length with its tailer, and those of `tdb_expand` where no free record is long
enough. -/
def Allocatable (tdb : TdbContext) (length : Nat) : Prop :=
  length + sizeofOff < 2 ^ 32 ∧ (¬ServedFree tdb length → NoWrap tdb length)

/-- A caller may have filled in the other fields of a header before it frees the record. -/
def HeaderOf (a : Allocation) (r : ListStruct) : Prop := r.recLen = a.hdr.recLen ∧ r.Fits

/-- The calls on the space of a new database. -/
def spaceSystem (args : OpenArgs) (mem : Mem) : System Space SpaceCall where
  init s := s = ⟨tdbNewDatabase args mem, []⟩
  step s c s' :=
    match c with
    | .allocate length => Allocatable s.tdb length ∧ ∃ recPtr r,
        tdbAllocate length s.tdb = .ok (recPtr, r) s'.tdb ∧ s'.live = ⟨recPtr, r, length⟩ :: s.live
    | .free i r => ∃ a, s.live[i]? = some a ∧ HeaderOf a r ∧
        tdbFree a.recPtr r s.tdb = .ok () s'.tdb ∧ s'.live = s.live.eraseIdx i

/-! ## The accounting -/

/-- The record of an allocation. -/
def Allocation.block (a : Allocation) : Block := ⟨a.recPtr, a.hdr.recLen, false⟩

/-- Consecutive records fill the space behind the hash table, and those in use are the allocations. -/
structure Accounted (args : OpenArgs) (s : Space) (bs : List Block) (fl : List Nat) : Prop where
  heap : Heap s.tdb.convert (view s.tdb) (tdbDataStart args.hashSize + 4) s.tdb.mapSize bs fl
  live : (used bs).Perm (s.live.map (·.block))
  room : ∀ a ∈ s.live, a.length + sizeofOff ≤ a.hdr.recLen

/-- The invariant of the calls. -/
structure SpaceOk (args : OpenArgs) (s : Space) : Prop where
  ready : Ready s.tdb
  hashSize : s.tdb.hashSize = args.hashSize
  accounted : ∃ bs fl, Accounted args s bs fl

section Calls

variable {args : OpenArgs} {s s' : Space}

/-- `tdb_allocate` succeeds, with a record apart from all others. -/
theorem SpaceOk.allocate (h : SpaceOk args s) {length : Nat} (hw : Allocatable s.tdb length) :
    ∃ recPtr r tdb', tdbAllocate length s.tdb = .ok (recPtr, r) tdb' ∧
      SpaceOk args ⟨tdb', ⟨recPtr, r, length⟩ :: s.live⟩ := by
  obtain ⟨bs, fl, hacc⟩ := h.accounted
  obtain ⟨tdb', bs', fl', blk, r, e, hal⟩ := tdbAllocate_ok h.ready (by rw [h.hashSize]) hacc.heap hw.1 hw.2
  have hblk : (⟨blk.off, r, length⟩ : Allocation).block = blk := by
    rw [Allocation.block, hal.recLen, ← hal.free]
  refine ⟨blk.off, r, tdb', e, hal.grows.ready, hal.grows.kept.hashSize.trans h.hashSize, bs', fl', ?_, ?_, ?_⟩
  · have := hal.heap
    rw [← hal.grows.kept.convert] at this
    exact this
  · rw [map_cons, hblk]
    exact hal.used.trans (hacc.live.cons blk)
  · intro a ha
    rcases mem_cons.mp ha with rfl | ha
    · exact hal.recLen ▸ hal.room
    · exact hacc.room a ha

theorem SpaceOk.free (h : SpaceOk args s) {i : Nat} {a : Allocation} (hi : s.live[i]? = some a) {r : ListStruct}
    (hr : HeaderOf a r) :
    ∃ tdb', tdbFree a.recPtr r s.tdb = .ok () tdb' ∧ SpaceOk args ⟨tdb', s.live.eraseIdx i⟩ := by
  obtain ⟨bs, fl, hacc⟩ := h.accounted
  obtain ⟨hlt, rfl⟩ := List.getElem?_eq_some_iff.mp hi
  have hlive : (s.live.map (·.block)).Perm (s.live[i].block :: (s.live.eraseIdx i).map (·.block)) :=
    (getElem_cons_eraseIdx_perm hlt).symm.map _
  have hmem : s.live[i].block ∈ used bs := (hacc.live.trans hlive).mem_iff.mpr (by simp)
  obtain ⟨pre, post, rfl⟩ := append_of_mem (mem_used.mp hmem).1
  obtain ⟨tdb', bs', fl', e, w, hheap, hused, -⟩ := tdbFree_ok h.ready.access (by rw [h.hashSize])
    (hacc.heap.release rfl) hr.1 hr.2
  have hg := w.grows h.ready
  refine ⟨tdb', e, hg.ready, hg.kept.hashSize.trans h.hashSize, bs', fl', ?_, ?_, fun b hb =>
    hacc.room b (mem_of_mem_eraseIdx hb)⟩
  · rw [← hg.kept.convert, ← w.mapSize] at hheap
    exact hheap
  · rw [hused]
    have hsplit := hacc.live.trans hlive
    rw [used_append, used_cons_used rfl] at hsplit
    rw [used_append]
    exact (perm_middle.symm.trans hsplit).cons_inv

theorem SpaceOk.step (h : SpaceOk args s) {c : SpaceCall} {mem : Mem} (hs : (spaceSystem args mem).step s c s') :
    SpaceOk args s' := by
  obtain ⟨tdb', live'⟩ := s'
  cases c with
  | allocate length =>
    obtain ⟨hw, recPtr, r, e, rfl⟩ := hs
    obtain ⟨_, _, _, e', hok⟩ := h.allocate hw
    cases e.symm.trans e'
    exact hok
  | free i r =>
    obtain ⟨a, hi, hr, e, rfl⟩ := hs
    obtain ⟨_, e', hok⟩ := h.free hi hr
    cases e.symm.trans e'
    exact hok

theorem reachable_spaceOk (hargs : args.Valid) {mem : Mem} (h : (spaceSystem args mem).Reachable s) :
    SpaceOk args s := by
  refine h.invariant (fun s hs => ?_) fun s c s' hok hs => hok.step hs
  subst hs
  exact ⟨tdbNewDatabase_ready mem hargs, rfl, [], [], tdbNewDatabase_heap mem hargs, .nil, by simp⟩

/-- Allocations of different records are apart. -/
theorem SpaceOk.disjoint (h : SpaceOk args s) : s.live.Pairwise Allocation.Disjoint := by
  obtain ⟨bs, fl, hacc⟩ := h.accounted
  have hp : (used bs).Pairwise BlocksApart :=
    (hacc.heap.tiles.ordered.sublist filter_sublist).imp fun {b c} hbc => .inl hbc
  have hl := (hacc.live.pairwise_iff fun {b c} hbc => Or.symm hbc).mp hp
  exact (pairwise_map.mp hl).imp fun {a b} hab => hab

end Calls

/-- In every state reached from a new database by allocations whose sizes do not wrap and by frees of
live allocations: the records fill the space behind the hash table one after the other, with the
length in the header and the total size in the tailer; the free list holds each free record once and
no allocated one; no two free records are adjacent; the records in use are the live allocations, each
with room for what was asked and a tailer, and pairwise disjoint. The next call succeeds too. -/
theorem reachable_space_accounted {args : OpenArgs} (hargs : args.Valid) {mem : Mem} {s : Space}
    (h : (spaceSystem args mem).Reachable s) :
    (∃ bs fl, Tiles (tdbDataStart args.hashSize + sizeofOff) bs s.tdb.mapSize ∧
      (∀ b ∈ bs, BlockOk s.tdb.convert (view s.tdb) b) ∧
      Linked 0 (ofsAt s.tdb.convert (view s.tdb)) freelistTop fl ∧ fl.Perm (freeOffs bs) ∧ fl.Nodup ∧
      (∀ a ∈ s.live, a.recPtr ∉ fl) ∧ NoAdjacent bs ∧ (used bs).Perm (s.live.map (·.block))) ∧
    (∀ a ∈ s.live, a.length + sizeofOff ≤ a.hdr.recLen) ∧ s.live.Pairwise Allocation.Disjoint ∧
    (∀ length, Allocatable s.tdb length → ∃ recPtr r tdb', tdbAllocate length s.tdb = .ok (recPtr, r) tdb') ∧
    ∀ a ∈ s.live, ∀ r, HeaderOf a r → ∃ tdb', tdbFree a.recPtr r s.tdb = .ok () tdb' := by
  have hok := reachable_spaceOk hargs h
  obtain ⟨bs, fl, hacc⟩ := hok.accounted
  refine ⟨⟨bs, fl, hacc.heap.tiles, hacc.heap.ok, hacc.heap.links, hacc.heap.perm, ?_, ?_, hacc.heap.apart, hacc.live⟩,
    hacc.room, hok.disjoint, fun length hw => ?_, fun a ha r hr => ?_⟩
  · exact (nodup_cons.mp (nodup_of_wordsApart hacc.heap.freeChain.cells)).2
  · intro a ha hfl
    obtain ⟨b, hb, hfree, hoff⟩ := mem_freeOffs.mp (hacc.heap.perm.mem_iff.mp hfl)
    have hmem := mem_used.mp (hacc.live.mem_iff.mpr (mem_map_of_mem ha))
    have hne : b ≠ a.block := by
      rintro rfl
      cases hfree
    have := hacc.heap.tiles.apart hb hmem.1 hne
    unfold BlocksApart Block.stop sizeofRec Allocation.block at this
    simp only at this
    omega
  · obtain ⟨recPtr, r, tdb', e, -⟩ := hok.allocate hw
    exact ⟨recPtr, r, tdb', e⟩
  · obtain ⟨i, hi, rfl⟩ := mem_iff_getElem.mp ha
    obtain ⟨tdb', e, -⟩ := hok.free (List.getElem?_eq_getElem hi) hr
    exact ⟨tdb', e⟩

/-- Where `tdb_allocate` put a record, and the `rec_len` it returned. -/
def allocatedLen (length : Nat) (tdb : TdbContext) : Option (Nat × Nat) :=
  match tdbAllocate length tdb with
  | .ok (recPtr, r) _ => some (recPtr, r.recLen)
  | .error _ _ => none

theorem allocatedLen_eq_some {length recPtr len : Nat} {tdb : TdbContext}
    (h : allocatedLen length tdb = some (recPtr, len)) :
    ∃ r tdb', tdbAllocate length tdb = .ok (recPtr, r) tdb' ∧ r.recLen = len := by
  unfold allocatedLen at h
  split at h
  case h_1 p r tdb' e =>
    cases h
    exact ⟨r, tdb', e, rfl⟩
  case h_2 => cases h

/-- The settings of `newFile`. -/
def newFileArgs : OpenArgs := ⟨1, false, false, false, false, true, fun _ => 0, 4096, 0⟩

theorem newFileArgs_valid : newFileArgs.Valid := ⟨by decide, by decide, 12, by decide, rfl⟩

instance (a : Allocation) (r : ListStruct) : Decidable (HeaderOf a r) :=
  decidable_of_iff (r.recLen = a.hdr.recLen ∧ r.next < 2 ^ 32 ∧ r.recLen < 2 ^ 32 ∧ r.keyLen < 2 ^ 32 ∧ r.dataLen < 2 ^ 32 ∧
    r.fullHash < 2 ^ 32 ∧ r.magic < 2 ^ 32)
    ⟨fun ⟨h, h₁, h₂, h₃, h₄, h₅, h₆⟩ => ⟨h, h₁, h₂, h₃, h₄, h₅, h₆⟩,
      fun ⟨h, h₁, h₂, h₃, h₄, h₅, h₆⟩ => ⟨h, h₁, h₂, h₃, h₄, h₅, h₆⟩⟩

/-- The calls one after the other, as long as they succeed and their sizes do not wrap. -/
def Space.run : List SpaceCall → Space → Option Space
  | [], s => some s
  | .allocate length :: calls, s =>
    match tdbAllocate length s.tdb with
    | .ok (recPtr, r) tdb' =>
      if s.tdb.mapSize + (length + 28) * 10 + s.tdb.pageSize ≤ 2 ^ 32 then run calls ⟨tdb', ⟨recPtr, r, length⟩ :: s.live⟩
      else none
    | .error _ _ => none
  | .free i r :: calls, s =>
    match s.live[i]? with
    | none => none
    | some a =>
      match tdbFree a.recPtr r s.tdb with
      | .ok _ tdb' => if HeaderOf a r then run calls ⟨tdb', s.live.eraseIdx i⟩ else none
      | .error _ _ => none

theorem Space.run_reachable {args : OpenArgs} {mem : Mem} {s' : Space} :
    ∀ {calls : List SpaceCall} {s : Space}, (spaceSystem args mem).Reachable s → s.run calls = some s' →
      (spaceSystem args mem).Reachable s'
  | [], s, h, hrun => by
    cases hrun
    exact h
  | .allocate length :: calls, s, h, hrun => by
    rw [Space.run] at hrun
    split at hrun
    case h_1 recPtr r tdb' e =>
      split at hrun
      case isTrue hw =>
        have hfits : length + sizeofOff < 2 ^ 32 := by unfold sizeofOff; omega
        exact run_reachable (h.step (.allocate length) ⟨⟨hfits, fun _ => hw⟩, recPtr, r, e, rfl⟩) hrun
      case isFalse => cases hrun
    case h_2 => cases hrun
  | .free i r :: calls, s, h, hrun => by
    rw [Space.run] at hrun
    split at hrun
    case h_1 => cases hrun
    case h_2 a ha =>
      split at hrun
      case h_1 _ tdb' e =>
        split at hrun
        case isTrue hr => exact run_reachable (h.step (.free i r) ⟨a, ha, hr, e, rfl⟩) hrun
        case isFalse => cases hrun
      case h_2 => cases hrun

/-- Three records are allocated and the first two freed again: they are joined, and have room for a longer one. -/
theorem newFile_space_accounted : ∃ s, (spaceSystem newFileArgs fun _ => 0).Reachable s ∧
    s.live.map (fun a => (a.recPtr, a.hdr.recLen, a.length)) = [(248, 12, 8)] ∧
    (allocatedLen 40 s.tdb).map Prod.fst = some 176 ∧ (∀ a ∈ s.live, a.length + sizeofOff ≤ a.hdr.recLen) ∧
    ∃ tdb', tdbFree 248 { recLen := 12 } s.tdb = .ok () tdb' := by
  have hrun : (Space.run [.allocate 8, .allocate 8, .allocate 8, .free 2 { recLen := 12 }, .free 1 { recLen := 12 }]
      ⟨newFile, []⟩).map (fun s => (s.live.map (fun a => (a.recPtr, a.hdr.recLen, a.length)),
        (allocatedLen 40 s.tdb).map Prod.fst)) = some ([(248, 12, 8)], some 176) := by decide +kernel
  obtain ⟨s, hs, hlive⟩ := Option.map_eq_some_iff.mp hrun
  obtain ⟨hlive, hroom⟩ := Prod.mk.inj hlive
  have hreach := Space.run_reachable (.init rfl) hs
  obtain ⟨-, hrecLen, -, -, hfree⟩ := reachable_space_accounted newFileArgs_valid hreach
  obtain ⟨a, ha, heq⟩ : ∃ a ∈ s.live, (a.recPtr, a.hdr.recLen, a.length) = (248, 12, 8) :=
    mem_map.mp (hlive ▸ mem_cons_self ..)
  obtain ⟨hptr, hlen, -⟩ : a.recPtr = 248 ∧ a.hdr.recLen = 12 ∧ a.length = 8 := by simpa using heq
  exact ⟨s, hreach, hlive, hroom, hrecLen, hptr ▸ hfree a ha { recLen := 12 } ⟨hlen.symm, fits_recLen (by decide)⟩⟩

/-- The last word of the hash table is at `TDB_DATA_START`, so no records fill the space from there; and
the length asked for wraps around when the tailer is added to it. -/
theorem newFile_not_from_dataStart :
    (¬ ∃ bs, Tiles (tdbDataStart newFile.hashSize) bs newFile.mapSize) ∧
    allocatedLen (2 ^ 32 - 4) newFile = some (176, 0) := by
  refine ⟨?_, by decide +kernel⟩
  rintro ⟨bs, h⟩
  cases bs with
  | nil => exact absurd h (show ¬ 172 = 176 by decide)
  | cons b bs =>
    have hb := (h.bounds b (by simp)).1
    have hstop := h.2.2.2.le
    have hmap : newFile.mapSize = 176 := rfl
    have hstart : tdbDataStart newFile.hashSize = 172 := rfl
    unfold Block.stop sizeofRec at hstop
    omega

end Samba.Tdb
