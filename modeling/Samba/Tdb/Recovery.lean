/-
Recovery (`tdb_transaction_recover`): what a recovery area has to say, that recovering from it puts
the old contents back, and that recovering again after a crash does too, if the disk does not cut
the file before it has taken the reset of the recovery head.
-/
import Samba.Tdb.Access
import Samba.Tdb.Crash

namespace Samba.Tdb

open Bytes List

/-! ## Requests of an open database -/

theorem TdbContext.diskOps_diskOps (tdb : TdbContext) (ops ops' : List DiskOp) :
    (tdb.diskOps ops).diskOps ops' = tdb.diskOps (ops ++ ops') := by
  simp [TdbContext.diskOps]

/-- A database just opened on a file, in host byte order. -/
structure Opened (tdb : TdbContext) : Prop where
  methods : tdb.methods = .io
  transaction : tdb.transaction = none
  readOnly : tdb.readOnly = false
  traverseRead : tdb.traverseRead = false
  convert : tdb.convert = false
  size_lt : tdb.mapSize < 2 ^ 32

namespace Opened

variable {tdb : TdbContext}

theorem access (h : Opened tdb) : Access tdb :=
  ⟨h.size_lt, .inl ⟨h.methods, h.transaction, h.readOnly, h.traverseRead⟩⟩

theorem diskOps (h : Opened tdb) (ops : List DiskOp) : Opened (tdb.diskOps ops) :=
  ⟨h.methods, h.transaction, h.readOnly, h.traverseRead, h.convert, h.size_lt⟩

variable {off : Nat}

theorem ofsRead (h : Opened tdb) (hin : off + 4 ≤ tdb.mapSize) :
    orFail .errIo (tdbOfsRead off) tdb = .ok (ofsAt false tdb.disk.bytes off) tdb := by
  have hread := tdbOfsRead_ok h.access hin
  rw [view_io h.methods, h.convert] at hread
  exact bind_ok (attempt_ok hread)

theorem recGet (h : Opened tdb) (hin : off + sizeofRec ≤ tdb.mapSize) :
    orFail .errIo (tdbRecGet off) tdb = .ok (recAt false tdb.disk.bytes off) tdb := by
  have hread := tdbRecGet_ok h.access hin
  rw [view_io h.methods, h.convert] at hread
  exact bind_ok (attempt_ok hread)

theorem readBytes (h : Opened tdb) {len : Nat} (hin : off + len ≤ tdb.mapSize) :
    orFail .errIo (tdbRead off len false) tdb = .ok (read tdb.disk.bytes off len) tdb := by
  have hread := @tdbRead_ok tdb h.access off len hin false (.inr rfl)
  rw [view_io h.methods] at hread
  exact bind_ok (attempt_ok hread)

theorem write (h : Opened tdb) {off : Nat} {bs : List UInt8} (hpos : 0 < bs.length)
    (hin : off + bs.length ≤ tdb.mapSize) :
    orFail .errIo (tdbWrite off bs) tdb = .ok () (tdb.diskOps [.write off bs]) := by
  have hio : tdbWrite off bs tdb = ioWrite off bs tdb := by rw [tdbWrite, get_bind, h.methods]
  refine bind_ok (attempt_ok ?_)
  rw [hio, ioWrite, get_bind, if_neg (by omega), if_neg (by simp [h.readOnly, h.traverseRead]),
    bind_ok (tdbOob_io h.methods hin)]
  rfl

theorem ofsWrite (h : Opened tdb) {off v : Nat} (hin : off + 4 ≤ tdb.mapSize) :
    orFail .errIo (tdbOfsWrite off v) tdb = .ok () (tdb.diskOps [.write off (le32 v)]) := by
  have hw := @Opened.write tdb h off (le32 v) (by simp) (by simpa using hin)
  have heq : tdbOfsWrite off v tdb = tdbWrite off (le32 v) tdb := by
    rw [tdbOfsWrite, get_bind, h.convert]
    rfl
  simp only [orFail, attempt, bind, EStateM.bind, heq] at hw ⊢
  exact hw

end Opened

/-! ## The recovery area -/

/-- The recovery data: for each extent its offset, its length and the old contents. -/
def oldEntries (m : Mem) (els : List TransactionEl) : List UInt8 :=
  els.flatMap fun el => le32 el.offset ++ le32 el.length ++ read m el.offset el.length

/-- Where the recovery area of a transaction on the file `old` lies: at `off`, with `room` bytes behind its
header, for the old contents under the extents `els`. It is a part of the old file or all behind it. -/
structure Area (old : Disk) (els : List TransactionEl) (off room : Nat) : Prop where
  extents : ∀ el ∈ els, 0 < el.length ∧ el.offset + el.length ≤ old.size
  fits : (oldEntries old.bytes els).length + 4 ≤ room
  place : off + sizeofRec + room ≤ old.size ∨ old.size ≤ off
  off_lt : off + sizeofRec + room < 2 ^ 32
  old_lt : old.size < 2 ^ 32
  header : 48 ≤ old.size ∧ 48 ≤ off
  head : ∀ a, tdbRecoveryHead ≤ a → a < tdbRecoveryHead + 4 → ¬ Covered els a
  apart : ∀ a, off ≤ a → a < off + sizeofRec + room → ¬ Covered els a

/-- The recovery head and the recovery area. -/
def InArea (off room a : Nat) : Prop :=
  tdbRecoveryHead ≤ a ∧ a < tdbRecoveryHead + 4 ∨ off ≤ a ∧ a < off + sizeofRec + room

/-- There is no recovery to do. -/
def Unarmed (d : Disk) : Prop :=
  ofsAt false d.bytes tdbRecoveryHead = 0 ∨
    ofsAt false d.bytes tdbRecoveryHead + sizeofRec ≤ d.size ∧
      (recAt false d.bytes (ofsAt false d.bytes tdbRecoveryHead)).magic ≠ tdbRecoveryMagic

/-- The file holds the old contents and needs no recovery. -/
structure Pre (old : Disk) (off room : Nat) (d : Disk) : Prop where
  size : old.size ≤ d.size ∧ d.size < 2 ^ 32
  rest : ∀ a, a < old.size → ¬ InArea off room a → d.bytes a = old.bytes a
  unarmed : Unarmed d

/-- The file holds the old contents but for the extents, and they are in a recovery area that is marked. -/
structure Armed (old : Disk) (els : List TransactionEl) (off room : Nat) (d : Disk) : Prop where
  size : old.size ≤ d.size ∧ off + sizeofRec + room ≤ d.size ∧ d.size < 2 ^ 32
  head : ofsAt false d.bytes tdbRecoveryHead = off
  hdr : recAt false d.bytes off =
    ⟨0, room, old.size, (oldEntries old.bytes els).length + 4, 0, tdbRecoveryMagic⟩
  data : read d.bytes (off + sizeofRec) (oldEntries old.bytes els).length = oldEntries old.bytes els
  rest : ∀ a, a < old.size → ¬ InArea off room a → ¬ Covered els a → d.bytes a = old.bytes a

/-! ## Recovering -/

/-- The write that puts the old contents back under an extent. -/
def restoreOp (old : Disk) (el : TransactionEl) : DiskOp := .write el.offset (read old.bytes el.offset el.length)

/-- The requests of `tdb_transaction_recover`, up to its first sync and after it. -/
def restoreOps (old : Disk) (els : List TransactionEl) : List DiskOp := els.map (restoreOp old)

/-- The operations of `tdb_transaction_recover` that clear the recovery record. -/
def clearOps (old : Disk) (off : Nat) : List DiskOp :=
  (if old.size ≤ off then [.write tdbRecoveryHead (le32 0)] else []) ++
    [.write (off + offsetofMagic) (le32 0), .truncate old.size]

theorem recover_unarmed {tdb : TdbContext} (h : Opened tdb) (hsize : tdb.mapSize = tdb.disk.size)
    (h48 : 48 ≤ tdb.disk.size) (hun : Unarmed tdb.disk) : tdbTransactionRecover tdb = .ok () tdb := by
  rw [tdbTransactionRecover, get_bind, bind_ok (h.ofsRead (by unfold tdbRecoveryHead; omega))]
  rcases hun with h0 | ⟨hin, hmagic⟩
  · rw [if_pos h0]
    rfl
  · by_cases h0 : ofsAt false tdb.disk.bytes tdbRecoveryHead = 0
    · rw [if_pos h0]
      rfl
    · rw [if_neg h0, bind_ok (h.recGet (by omega)), if_pos hmagic]
      rfl

/-- The loop of `tdb_transaction_recover` over the recovery data and its tailer. -/
theorem recoverLoop_ok {old : Disk} {els : List TransactionEl} {tail : List UInt8} (htail : tail.length = 4)
    {tdb : TdbContext} (h : Opened tdb) (hlt : old.size < 2 ^ 32) (hle : old.size ≤ tdb.mapSize)
    (hels : ∀ el ∈ els, 0 < el.length ∧ el.offset + el.length ≤ old.size) {fuel : Nat} (hfuel : els.length < fuel) :
    recoverLoop false fuel (oldEntries old.bytes els ++ tail) tdb = .ok () (tdb.diskOps (restoreOps old els)) := by
  induction els generalizing tdb fuel with
  | nil =>
    obtain ⟨fuel, rfl⟩ : ∃ k, fuel = k + 1 := ⟨fuel - 1, by omega⟩
    rw [recoverLoop, if_neg (by simp [oldEntries, htail])]
    simp [restoreOps, TdbContext.diskOps]
  | cons el els ih =>
    obtain ⟨fuel, rfl⟩ : ∃ k, fuel = k + 1 := ⟨fuel - 1, by omega⟩
    obtain ⟨hpos, hin⟩ := hels el (by simp)
    have hp : oldEntries old.bytes (el :: els) ++ tail = (le32 el.offset ++ le32 el.length) ++
        (read old.bytes el.offset el.length ++ (oldEntries old.bytes els ++ tail)) := by
      simp [oldEntries]
    have htake : ((le32 el.offset ++ le32 el.length) ++ (read old.bytes el.offset el.length ++
        (oldEntries old.bytes els ++ tail))).take 8 = le32 el.offset ++ le32 el.length := take_left' (by simp)
    have hdrop : ((le32 el.offset ++ le32 el.length) ++ (read old.bytes el.offset el.length ++
        (oldEntries old.bytes els ++ tail))).drop 8 = read old.bytes el.offset el.length ++
        (oldEntries old.bytes els ++ tail) := drop_left' (by simp)
    have hoff : leNat ((le32 el.offset ++ le32 el.length).take 4) = el.offset := by
      rw [take_left' (by simp), leNat_le32_of_lt (by omega)]
    have hlen : leNat ((le32 el.offset ++ le32 el.length).drop 4) = el.length := by
      rw [drop_left' (by simp), leNat_le32_of_lt (by omega)]
    have hdata : (read old.bytes el.offset el.length ++ (oldEntries old.bytes els ++ tail)).take el.length =
        read old.bytes el.offset el.length := take_left' (by simp)
    have hrest : ((le32 el.offset ++ le32 el.length) ++ (read old.bytes el.offset el.length ++
        (oldEntries old.bytes els ++ tail))).drop (8 + el.length) = oldEntries old.bytes els ++ tail := by
      rw [← drop_drop, hdrop, drop_left' (by simp)]
    have hw := @Opened.write tdb h el.offset (read old.bytes el.offset el.length) (by simpa using hpos)
      (by simp only [length_read]; omega)
    rw [hp, recoverLoop, if_pos (by simp [htail]; omega)]
    simp only [htake, convertIf, Bool.false_eq_true, if_false, hoff, hlen, hdrop, hdata]
    rw [bind_ok hw, hrest, ih (h.diskOps _) hle (fun e he => hels e (by simp [he])) (by simpa using hfuel),
      TdbContext.diskOps_diskOps]
    rfl

section Armed

variable {old : Disk} {els : List TransactionEl} {off room : Nat}

/-- The number of extents is bounded by the length of the recovery data. -/
theorem length_le_oldEntries (m : Mem) (els : List TransactionEl) : els.length ≤ (oldEntries m els).length := by
  induction els with
  | nil => simp
  | cons el els ih =>
    simp only [oldEntries, flatMap_cons, length_append, length_le32, length_read, length_cons] at ih ⊢
    omega

theorem recover_armed (ha : Area old els off room) {tdb : TdbContext} (h : Opened tdb)
    (hsize : tdb.mapSize = tdb.disk.size) (harm : Armed old els off room tdb.disk) :
    tdbTransactionRecover tdb =
      .ok () { tdb.diskOps (restoreOps old els ++ .sync :: (clearOps old off ++ [.sync])) with mapSize := old.size } := by
  obtain ⟨hold, hin, hlt⟩ := harm.size
  have hoff := ha.header.2
  have hfits := ha.fits
  have hu24 : u32 (off + sizeofRec) = off + sizeofRec := Nat.mod_eq_of_lt (by omega)
  have hu20 : u32 (off + offsetofMagic) = off + offsetofMagic :=
    Nat.mod_eq_of_lt (by unfold sizeofRec at hin; unfold offsetofMagic; omega)
  have hread := h.readBytes (show off + sizeofRec + ((oldEntries old.bytes els).length + 4) ≤ tdb.mapSize by omega)
  rw [read_add, harm.data] at hread
  have hloop := @recoverLoop_ok old els (read tdb.disk.bytes (off + sizeofRec + (oldEntries old.bytes els).length) 4)
    (by simp) tdb h ha.old_lt (by omega) ha.extents
    ((oldEntries old.bytes els ++ read tdb.disk.bytes (off + sizeofRec + (oldEntries old.bytes els).length) 4).length + 1)
    (by have := length_le_oldEntries old.bytes els; simp only [length_append, length_read]; omega)
  have hroh := h.readOnly
  rw [tdbTransactionRecover, get_bind, bind_ok (h.ofsRead (by unfold tdbRecoveryHead; omega)), harm.head,
    if_neg (by omega), bind_ok (h.recGet (by omega)), harm.hdr]
  simp only [ne_eq, not_true_eq_false, if_false, hroh, Bool.false_eq_true, hu24]
  rw [bind_ok hread, h.convert, bind_ok hloop]
  generalize htdb₁ : tdb.diskOps (restoreOps old els) = tdb₁
  have h₁ : Opened tdb₁ := htdb₁ ▸ h.diskOps _
  have hm₁ : tdb₁.mapSize = tdb.disk.size := by rw [← htdb₁]; exact hsize
  have hsync : ∀ t : TdbContext, transactionSync t = .ok () (t.diskOps [.sync]) := fun _ => rfl
  have hhead : (if old.size ≤ off then orFail .errIo (tdbOfsWrite tdbRecoveryHead 0) else pure ()) (tdb₁.diskOps [.sync]) =
      .ok () ((tdb₁.diskOps [.sync]).diskOps (if old.size ≤ off then [.write tdbRecoveryHead (le32 0)] else [])) := by
    split
    · exact (h₁.diskOps _).ofsWrite (by unfold tdbRecoveryHead; rw [show (tdb₁.diskOps [.sync]).mapSize = _ from hm₁]; omega)
    · simp [TdbContext.diskOps]
  rw [bind_ok (hsync _), bind_ok hhead, TdbContext.diskOps_diskOps, hu20]
  generalize hops : ([.sync] ++ if old.size ≤ off then [.write tdbRecoveryHead (le32 0)] else [] : List DiskOp) = ops
  have hmagic := @Opened.ofsWrite (tdb₁.diskOps ops) (h₁.diskOps _) (off + offsetofMagic) 0
    (by rw [show (tdb₁.diskOps ops).mapSize = _ from hm₁]; unfold sizeofRec at hin; unfold offsetofMagic; omega)
  rw [bind_ok hmagic, TdbContext.diskOps_diskOps]
  simp only [diskOp, bind, EStateM.bind, modify_apply, transactionSync]
  rw [← htdb₁, ← hops]
  simp [TdbContext.diskOps, clearOps]

/-! ## The file while it is recovered -/

/-- The old contents are back, and the recovery area is still marked. -/
structure Restored (old : Disk) (els : List TransactionEl) (off room : Nat) (d : Disk) : Prop where
  armed : Armed old els off room d
  rest : ∀ a, a < old.size → ¬ InArea off room a → d.bytes a = old.bytes a

variable {d d' : Disk}

/-- A file that differs only under the extents is as much armed. -/
theorem Armed.congr (ha : Area old els off room) (h : Armed old els off room d)
    (hsize : d.size ≤ d'.size ∧ d'.size < 2 ^ 32)
    (hbytes : ∀ a, a < d.size → InArea off room a ∨ a < old.size ∧ ¬ Covered els a → d'.bytes a = d.bytes a) :
    Armed old els off room d' := by
  obtain ⟨h1, h2, h3⟩ := h.size
  have hfits := ha.fits
  have h48 := ha.header
  have harea : ∀ a, off ≤ a → a < off + sizeofRec + room → d'.bytes a = d.bytes a := fun a ha hb =>
    hbytes a (by omega) (.inl (.inr ⟨ha, hb⟩))
  refine ⟨by omega, ?_, ?_, ?_, fun a hlt hn hc => ?_⟩
  · rw [← h.head]
    exact ofsAt_congr fun a ha hb => hbytes a (by unfold tdbRecoveryHead at hb; omega) (.inl (.inl ⟨ha, hb⟩))
  · rw [← h.hdr, recAt, recAt, read_congr fun a ha hb => harea a ha (by omega)]
  · refine Eq.trans (read_congr fun a ha hb => harea a ?_ ?_) h.data
    · omega
    · omega
  · rw [hbytes a (by omega) (.inr ⟨hlt, hc⟩)]
    exact h.rest a hlt hn hc

theorem restoreOp_frame (old : Disk) {el : TransactionEl} (hel : el ∈ els) (d : Disk) :
    (d.apply (restoreOp old el)).size = d.size ∧
      ∀ a, ¬ Covered els a → (d.apply (restoreOp old el)).bytes a = d.bytes a := by
  refine ⟨rfl, fun a hn => write_of_out ?_⟩
  by_contra hin
  rw [length_read] at hin
  exact hn ⟨el, hel, by omega, by omega⟩

/-- Putting back some of the old contents keeps a file armed. -/
theorem Armed.restoreOp (ha : Area old els off room) (h : Armed old els off room d) {op : DiskOp}
    (hop : op ∈ restoreOps old els) : Armed old els off room (d.apply op) := by
  obtain ⟨el, hel, rfl⟩ := mem_map.mp hop
  obtain ⟨hs, hb⟩ := restoreOp_frame old hel d
  refine h.congr ha ⟨le_of_eq hs.symm, by rw [hs]; exact h.size.2.2⟩ fun a _ hor => hb a ?_
  rcases hor with (hhead | harea) | ⟨-, hn⟩
  exacts [ha.head a hhead.1 hhead.2, ha.apart a harea.1 harea.2, hn]

theorem foldl_restoreOps (old : Disk) (els : List TransactionEl) (d : Disk) :
    ((restoreOps old els).foldl Disk.apply d).size = d.size ∧
    (∀ a, ¬ Covered els a → ((restoreOps old els).foldl Disk.apply d).bytes a = d.bytes a) ∧
    ∀ a, Covered els a → ((restoreOps old els).foldl Disk.apply d).bytes a = old.bytes a := by
  induction els generalizing d with
  | nil => exact ⟨rfl, fun _ _ => rfl, fun a ⟨_, hel, _⟩ => by simp at hel⟩
  | cons el els ih =>
    obtain ⟨h1, h2, h3⟩ := ih (d.apply (restoreOp old el))
    obtain ⟨-, hframe⟩ := @restoreOp_frame (el :: els) old el (by simp) d
    refine ⟨h1, fun a hn => ?_, fun a hc => ?_⟩
    · refine (h2 a fun ⟨e, he, hin⟩ => hn ⟨e, by simp [he], hin⟩).trans (hframe a hn)
    · by_cases hlater : Covered els a
      · exact h3 a hlater
      · obtain ⟨e, he, hin⟩ := hc
        rcases mem_cons.mp he with rfl | he
        · exact (h2 a hlater).trans (write_read_of_mem hin.1 hin.2)
        · exact absurd ⟨e, he, hin⟩ hlater

theorem Armed.restored (ha : Area old els off room) (h : Armed old els off room d) :
    Restored old els off room ((restoreOps old els).foldl Disk.apply d) := by
  obtain ⟨h1, h2, h3⟩ := foldl_restoreOps old els d
  refine ⟨h.congr ha ⟨le_of_eq h1.symm, by rw [h1]; exact h.size.2.2⟩ fun a _ hor => h2 a ?_, fun a hlt hn => ?_⟩
  · rcases hor with (hhead | harea) | ⟨-, hn⟩
    exacts [ha.head a hhead.1 hhead.2, ha.apart a harea.1 harea.2, hn]
  · by_cases hc : Covered els a
    · exact h3 a hc
    · exact (h2 a hc).trans (h.rest a hlt hn hc)

/-! ## Removing the mark -/

/-- The disk does not cut the file before it has taken a reset of the recovery head. -/
def headFirst : Reorder := fun lost op => ∀ size, op = .truncate size → ∀ buf, .write tdbRecoveryHead buf ∉ lost

theorem Pre.of_head_zero (hsize : old.size ≤ d.size ∧ d.size < 2 ^ 32)
    (hrest : ∀ a, a < old.size → ¬ InArea off room a → d.bytes a = old.bytes a)
    (h0 : ofsAt false d.bytes tdbRecoveryHead = 0) : Pre old off room d :=
  ⟨hsize, hrest, .inl h0⟩

/-- The mark is gone from the recovery area that the head points to. -/
structure Disarmed (old : Disk) (off room : Nat) (d : Disk) : Prop where
  size : old.size ≤ d.size ∧ off + sizeofRec + room ≤ d.size ∧ d.size < 2 ^ 32
  head : ofsAt false d.bytes tdbRecoveryHead = off
  magic : ofsAt false d.bytes (off + offsetofMagic) = 0
  rest : ∀ a, a < old.size → ¬ InArea off room a → d.bytes a = old.bytes a

theorem Disarmed.pre (h : Disarmed old off room d) : Pre old off room d := by
  refine ⟨⟨h.size.1, h.size.2.2⟩, h.rest, .inr ?_⟩
  have hsize := h.size
  rw [h.head]
  refine ⟨by omega, ?_⟩
  rw [recAt_eq]
  simp only
  rw [show (20 : Nat) = offsetofMagic from rfl, h.magic]
  decide

theorem apply_clearMagic (h48 : 48 ≤ off) (d : Disk) :
    (d.apply (.write (off + offsetofMagic) (le32 0))).size = d.size ∧
    ofsAt false (d.apply (.write (off + offsetofMagic) (le32 0))).bytes tdbRecoveryHead =
      ofsAt false d.bytes tdbRecoveryHead ∧
    ofsAt false (d.apply (.write (off + offsetofMagic) (le32 0))).bytes (off + offsetofMagic) = 0 ∧
    ∀ a, ¬ InArea off room a → (d.apply (.write (off + offsetofMagic) (le32 0))).bytes a = d.bytes a := by
  refine ⟨rfl, ?_, ?_, fun a hn => ?_⟩
  · refine ofsAt_write_disjoint (.inl ?_)
    unfold tdbRecoveryHead offsetofMagic
    omega
  · exact @ofsAt_write_same false d.bytes (off + offsetofMagic) 0 (by decide)
  · refine write_of_out ?_
    rw [length_le32]
    unfold InArea sizeofRec tdbRecoveryHead at hn
    unfold offsetofMagic
    omega

theorem apply_clearHead (d : Disk) :
    (d.apply (.write tdbRecoveryHead (le32 0))).size = d.size ∧
    ofsAt false (d.apply (.write tdbRecoveryHead (le32 0))).bytes tdbRecoveryHead = 0 ∧
    ∀ a, ¬ InArea off room a → (d.apply (.write tdbRecoveryHead (le32 0))).bytes a = d.bytes a := by
  refine ⟨rfl, @ofsAt_write_same false d.bytes tdbRecoveryHead 0 (by decide), fun a hn => write_of_out ?_⟩
  rw [length_le32]
  unfold InArea at hn
  omega

theorem apply_cut (hle : old.size ≤ d.size) : (d.apply (.truncate old.size)).size = old.size ∧
      ∀ a, a < old.size → (d.apply (.truncate old.size)).bytes a = d.bytes a :=
  ⟨rfl, fun _ ha => if_pos ⟨by omega, ha⟩⟩

theorem Restored.disarm (ha : Area old els off room) (h : Restored old els off room d) :
    Disarmed old off room (d.apply (.write (off + offsetofMagic) (le32 0))) := by
  obtain ⟨h1, h2, h3, h4⟩ := @apply_clearMagic off room ha.header.2 d
  exact ⟨h.armed.size, h2.trans h.armed.head, h3, fun a hlt hn => (h4 a hn).trans (h.rest a hlt hn)⟩

theorem Disarmed.cut (ha : Area old els off room) (hin : off + sizeofRec + room ≤ old.size) {d : Disk}
    (h : Disarmed old off room d) : Disarmed old off room (d.apply (.truncate old.size)) := by
  have hlt := ha.old_lt
  have h48 := ha.header
  obtain ⟨h1, h2⟩ := apply_cut h.size.1
  refine ⟨⟨le_of_eq h1.symm, by rw [h1]; exact ⟨hin, hlt⟩⟩, ?_, ?_, fun a hl hn => (h2 a hl).trans (h.rest a hl hn)⟩
  · refine Eq.trans (ofsAt_congr fun a _ hl => h2 a ?_) h.head
    unfold tdbRecoveryHead at hl
    omega
  · refine Eq.trans (ofsAt_congr fun a _ hl => h2 a ?_) h.magic
    unfold sizeofRec at hin
    unfold offsetofMagic at hl
    omega

/-- With a recovery area behind the old end of file: the head is reset first, and the rest does not
matter then. -/
theorem clear_head_ok (ha : Area old els off room) (h : Restored old els off room d) {lost : List DiskOp}
    {ok : Reorder}
    (hs : Survives ok lost (d.apply (.write tdbRecoveryHead (le32 0)))
      [.write (off + offsetofMagic) (le32 0), .truncate old.size] d') : Pre old off room d' := by
  obtain ⟨-, h0, hb⟩ := @apply_clearHead off room d
  have h48 := ha.header
  have hinv : (old.size ≤ d'.size ∧ d'.size < 2 ^ 32) ∧
      (∀ a, a < old.size → ¬ InArea off room a → d'.bytes a = old.bytes a) ∧
      ofsAt false d'.bytes tdbRecoveryHead = 0 := by
    refine @Survives.invariant _ _ _ _ _ (fun d' => (old.size ≤ d'.size ∧ d'.size < 2 ^ 32) ∧
      (∀ a, a < old.size → ¬ InArea off room a → d'.bytes a = old.bytes a) ∧
      ofsAt false d'.bytes tdbRecoveryHead = 0) hs (fun op hop e he => ?_)
      ⟨⟨h.armed.size.1, h.armed.size.2.2⟩, fun a hlt hn => (hb a hn).trans (h.rest a hlt hn), h0⟩
    obtain ⟨hes, her, he0⟩ := he
    rcases mem_cons.mp hop with rfl | hop
    · obtain ⟨-, h2, -, h4⟩ := @apply_clearMagic off room h48.2 e
      exact ⟨hes, fun a hlt hn => (h4 a hn).trans (her a hlt hn), h2.trans he0⟩
    · rw [mem_singleton] at hop
      subst hop
      obtain ⟨h1, h2⟩ := apply_cut hes.1
      refine ⟨⟨le_of_eq h1.symm, by rw [h1]; exact ha.old_lt⟩, fun a hlt hn => (h2 a hlt).trans (her a hlt hn), ?_⟩
      rw [← he0]
      exact ofsAt_congr fun a _ hlt => h2 a (by unfold tdbRecoveryHead at hlt; omega)
  exact Pre.of_head_zero hinv.1 hinv.2.1 hinv.2.2

theorem clear_inside_ok (ha : Area old els off room) (hin : off + sizeofRec + room ≤ old.size)
    (h : Restored old els off room d) {lost : List DiskOp} {ok : Reorder}
    (hs : Survives ok lost d [.write (off + offsetofMagic) (le32 0), .truncate old.size] d') :
    Restored old els off room d' ∨ Disarmed old off room d' := by
  have h48 := ha.header
  refine @Survives.invariant _ _ _ _ _ (fun d' => Restored old els off room d' ∨ Disarmed old off room d') hs
    (fun op hop e he => ?_) (.inl h)
  rcases mem_cons.mp hop with rfl | hop
  · right
    rcases he with he | he
    · exact he.disarm ha
    · obtain ⟨-, h2, h3, h4⟩ := @apply_clearMagic off room h48.2 e
      exact ⟨he.size, h2.trans he.head, h3, fun a hlt hn => (h4 a hn).trans (he.rest a hlt hn)⟩
  · rw [mem_singleton] at hop
    subst hop
    rcases he with he | he
    · left
      obtain ⟨h1, h2⟩ := apply_cut he.armed.size.1
      have hfits := ha.fits
      have hlt := ha.old_lt
      refine ⟨⟨⟨le_of_eq h1.symm, by rw [h1]; exact ⟨hin, hlt⟩⟩, ?_, ?_, ?_, fun a hl hn hc => ?_⟩, fun a hl hn => ?_⟩
      · refine Eq.trans (ofsAt_congr fun a _ hlt => h2 a ?_) he.armed.head
        unfold tdbRecoveryHead at hlt
        omega
      · rw [← he.armed.hdr, recAt, recAt, read_congr fun a _ hlt => h2 a (by omega)]
      · exact Eq.trans (read_congr fun a _ hlt => h2 a (by omega)) he.armed.data
      · exact (h2 a hl).trans (he.armed.rest a hl hn hc)
      · exact (h2 a hl).trans (he.rest a hl hn)
    · exact .inr (he.cut ha hin)

/-- A crash while the mark is removed leaves the old contents, marked or not. -/
theorem clear_survives (ha : Area old els off room) (h : Restored old els off room d)
    (hs : Survives headFirst [] d (clearOps old off) d') : Pre old off room d' ∨ Armed old els off room d' := by
  unfold clearOps at hs
  by_cases hplace : old.size ≤ off
  · rw [if_pos hplace] at hs
    cases hs with
    | stop => exact .inr h.armed
    | kept _ _ hs => exact .inl (clear_head_ok ha h hs)
    | lostWrite hs =>
      -- the head still points to the recovery area, so the file is not cut
      have hcut : ∀ {lost : List DiskOp} {e : Disk}, .write tdbRecoveryHead (le32 0) ∈ lost →
          Survives headFirst lost e [.truncate old.size] d' → d' = e := by
        intro lost e hmem hs
        cases hs with
        | stop => rfl
        | kept _ hok _ => exact absurd hmem (hok _ rfl _)
        | lostTruncate _ hs =>
          cases hs
          rfl
      cases hs with
      | stop => exact .inr h.armed
      | kept _ _ hs =>
        rw [hcut (by simp) hs]
        exact .inl (h.disarm ha).pre
      | lostWrite hs =>
        rw [hcut (by simp) hs]
        exact .inr h.armed
  · rw [if_neg hplace] at hs
    have hin := ha.place.resolve_right hplace
    exact (clear_inside_ok ha hin h hs).symm.imp Disarmed.pre Restored.armed

/-- Once the mark is removed the file holds the old contents. -/
theorem clear_done (ha : Area old els off room) (h : Restored old els off room d) :
    Pre old off room ((clearOps old off).foldl Disk.apply d) := by
  unfold clearOps
  by_cases hplace : old.size ≤ off
  · rw [if_pos hplace]
    exact clear_head_ok ha h (@Survives.all [] [.write (off + offsetofMagic) (le32 0), .truncate old.size] (by simp) _)
  · rw [if_neg hplace]
    exact ((h.disarm ha).cut ha (ha.place.resolve_right hplace)).pre

/-- A crash during recovery leaves the old contents, or a file from which they can be recovered. -/
theorem crash_recover (ha : Area old els off room) (h : Armed old els off room d)
    (hc : Crash headFirst d (restoreOps old els ++ .sync :: (clearOps old off ++ [.sync])) d') :
    Pre old off room d' ∨ Armed old els off room d' := by
  have hns₁ : DiskOp.sync ∉ restoreOps old els := by simp [restoreOps, restoreOp]
  have hns₂ : DiskOp.sync ∉ clearOps old off := by
    unfold clearOps
    split <;> simp
  rcases hc.cases_sync hns₁ with hs | hc
  · exact .inr (hs.invariant (fun op hop e he => he.restoreOp ha hop) h)
  · rcases hc.cases_sync hns₂ with hs | hc
    · exact clear_survives ha (h.restored ha) hs
    · rw [hc.nil]
      exact .inl (clear_done ha (h.restored ha))

end Armed

end Samba.Tdb
