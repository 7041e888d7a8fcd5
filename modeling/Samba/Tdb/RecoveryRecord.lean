/-
The recovery record (lib/tdb/common/transaction.c) in both byte orders: what `transaction_setup_recovery` writes, and what
`tdb_transaction_recover` reads from it. The header is written as the host has it, but read in the byte order of the database.
-/
import Mathlib.Algebra.Order.BigOperators.Group.List
import Samba.Tdb.CrashAtomic
import Samba.Tdb.Keeps

namespace Samba.Tdb

open Bytes List

/-! ## The record that is written -/

/-- An extent of the old file with its contents. -/
@[ext] structure OldExtent where
  offset : Nat
  length : Nat
  data : List UInt8
  deriving DecidableEq, Repr

/-- An extent in the recovery data. -/
def OldExtent.encode (cv : Bool) (e : OldExtent) : List UInt8 := convertIf cv (le32 e.offset ++ le32 e.length) ++ e.data

/-- The old contents under the elements of a transaction. -/
def oldExtents (m : Mem) (oldMapSize : Nat) (els : List TransactionEl) : List OldExtent :=
  (oldElements oldMapSize els).map fun el => ⟨el.offset, el.length, read m el.offset el.length⟩

/-- The size of the recovery data without a bound: `tdb_recovery_size` has it modulo `2 ^ 32`. -/
def recoverySize (oldMapSize : Nat) (els : List TransactionEl) : Nat :=
  4 + ((oldElements oldMapSize els).map fun el => 2 * sizeofOff + el.length).sum

/-- A 32-bit number with its bytes in the other order. -/
def byteRev (n : Nat) : Nat := leNat (tdbConvert (le32 n))

/-! ## The record that is read -/

/-- The extents in the recovery data, as the loop of `tdb_transaction_recover` takes them. -/
def decodeExtents (cv : Bool) (p : List UInt8) : List OldExtent :=
  if 8 < p.length then
    let head := convertIf cv (p.take 8)
    let len := leNat (head.drop 4)
    ⟨leNat (head.take 4), len, (p.drop 8).take len⟩ :: decodeExtents cv (p.drop (8 + len))
  else []
termination_by p.length
decreasing_by
  rw [length_drop]
  omega

/-- What `tdb_transaction_recover` takes from the file. -/
structure RecoveredRecord where
  head : Nat
  magic : Nat
  eof : Nat
  extents : List OldExtent
  deriving DecidableEq, Repr

/-- `tdb_transaction_recover` up to its first write: the record, if there is one. -/
def recoverRead : TdbM (Option RecoveredRecord) := do
  let tdb ← get
  let recoveryHead ← orFail .errIo (tdbOfsRead tdbRecoveryHead)
  if recoveryHead = 0 then return none
  else do
    let r ← orFail .errIo (tdbRecGet recoveryHead)
    if r.magic ≠ tdbRecoveryMagic then return none
    else if tdb.readOnly then errcode .errCorrupt
    else do
      let data ← orFail .errIo (tdbRead (u32 (recoveryHead + sizeofRec)) r.dataLen false)
      return some ⟨recoveryHead, r.magic, r.keyLen, decodeExtents tdb.convert data⟩

/-- `tdb_transaction_recover` from its first write on. -/
def putBack (record : RecoveredRecord) : TdbM Unit := do
  forM record.extents fun e => orFail .errIo (tdbWrite e.offset e.data)
  transactionSync
  (if record.eof ≤ record.head then orFail .errIo (tdbOfsWrite tdbRecoveryHead 0) else pure ())
  orFail .errIo (tdbOfsWrite (u32 (record.head + offsetofMagic)) 0)
  diskOp (.truncate record.eof)
  modify fun tdb => { tdb with mapSize := record.eof }
  transactionSync

theorem recoverLoop_decode (cv : Bool) {fuel : Nat} {p : List UInt8} (h : p.length < fuel) :
    recoverLoop cv fuel p = forM (decodeExtents cv p) fun e => orFail .errIo (tdbWrite e.offset e.data) := by
  induction fuel generalizing p with
  | zero => exact absurd h (Nat.not_lt_zero _)
  | succ fuel ih =>
    rw [recoverLoop, decodeExtents]
    split
    · dsimp only
      rw [forM_cons, ih (by rw [length_drop]; omega)]
    · rfl

/-- `tdb_transaction_recover` reads the record, and puts back what it says. -/
theorem tdbTransactionRecover_eq :
    tdbTransactionRecover = recoverRead >>= fun | none => pure () | some record => putBack record := by
  simp only [tdbTransactionRecover, recoverRead, bind_assoc]
  refine bind_congr fun tdb => bind_congr fun recoveryHead => ?_
  split
  · rfl
  · rw [bind_assoc]
    refine bind_congr fun r => ?_
    split
    · rfl
    · split
      · rfl
      · rw [bind_assoc]
        refine bind_congr fun data => ?_
        rw [recoverLoop_decode _ (Nat.lt_succ_self _)]
        rfl

/-! ## The recovery area -/

/-- A transaction about to be committed, in a file that is known to end at its old end: the recovery head is not written in it, and
points to no record or to one inside the file. -/
structure RecoveryReady (tdb : TdbContext) (t : Transaction) : Prop where
  methods : tdb.methods = .transaction
  transaction : tdb.transaction = some t
  writable : tdb.readOnly = false ∧ tdb.traverseRead = false
  internal : tdb.internal = false
  old : t.oldMapSize = tdb.disk.size
  le : tdb.disk.size ≤ tdb.mapSize
  size_lt : tdb.mapSize < 2 ^ 32
  header : tdbRecoveryHead + 4 ≤ tdb.disk.size
  head : ∀ el ∈ t.elements, el.meets tdbRecoveryHead sizeofOff = false
  area : ofsAt tdb.convert tdb.disk.bytes tdbRecoveryHead ≠ 0 →
    tdbRecoveryHead + 4 ≤ ofsAt tdb.convert tdb.disk.bytes tdbRecoveryHead ∧
      ofsAt tdb.convert tdb.disk.bytes tdbRecoveryHead + sizeofRec +
        (recAt tdb.convert tdb.disk.bytes (ofsAt tdb.convert tdb.disk.bytes tdbRecoveryHead)).recLen ≤ tdb.disk.size

/-- The recovery area has room for the recovery data, in a file below 4 GiB. -/
structure AreaFits (size off max : Nat) : Prop where
  size : size ≤ max
  stop : off + sizeofRec + max < 2 ^ 32

/-- A recovery area of the file, to which its recovery head points. -/
structure RecoveryArea (tdb : TdbContext) (off max : Nat) : Prop where
  head : ofsAt tdb.convert tdb.disk.bytes tdbRecoveryHead = off
  above : tdbRecoveryHead + 4 ≤ off
  inside : off + sizeofRec + max ≤ tdb.disk.size
  le : tdb.disk.size ≤ tdb.mapSize
  size_lt : tdb.mapSize < 2 ^ 32

/-- The context `tdb` with other extents in its transaction. -/
def InsideOf (tdb : TdbContext) (oldMapSize : Nat) (s : TdbContext) : Prop :=
  ∃ t e, s = { tdb with transaction := some t, ecode := e } ∧ t.oldMapSize = oldMapSize

theorem ok_of_except_bind {ε α β : Type} {x : Except ε α} {f : α → Except ε β} {b : β} (h : (x >>= f) = .ok b) :
    ∃ a, x = .ok a ∧ f a = .ok b := by
  cases x with
  | error e => cases h
  | ok a => exact ⟨a, rfl, h⟩

section Inside

variable {tdb : TdbContext} {old : Nat}

theorem errcode_inside {α : Type} (e : TdbError) : Keeps (InsideOf tdb old) (errcode e : TdbM α) := by
  rintro _ ⟨t, e₀, rfl, ht⟩
  exact ⟨fun _ _ h => (by cases h), fun e' tdb' h => by cases h; exact ⟨t, e, rfl, ht⟩⟩

theorem transactionFail_inside {α : Type} : Keeps (InsideOf tdb old) (transactionFail : TdbM α) := by
  rintro _ ⟨t, e₀, rfl, ht⟩
  exact ⟨fun _ _ h => (by cases h), fun e' tdb' h => by cases h; exact ⟨{ t with transactionError := true }, .errIo, rfl, ht⟩⟩

theorem ioRead_inside (hm : tdb.methods = .transaction) (off len : Nat) (cv : Bool) :
    Keeps (InsideOf tdb old) (ioRead off len cv) := by
  refine .bind (fun s hs => ?_) fun _ => .get fun _ => .pure _
  have hms : s.methods = .transaction := by
    obtain ⟨t, e, rfl, -⟩ := hs
    exact hm
  rw [tdbOob, get_bind, hms]
  dsimp only
  rw [transactionOob, get_bind]
  split
  · exact Keeps.pure () s hs
  · exact errcode_inside _ s hs

theorem updateHashHeads_oldMapSize {hashSize off : Nat} {t t' : Transaction} {buf : WriteBuf}
    (h : updateHashHeads hashSize t off buf = .ok t') : t'.oldMapSize = t.oldMapSize := by
  unfold updateHashHeads at h
  split at h
  · cases buf with
    | data buf =>
      cases h
      rfl
    | null len => cases h
  · cases h
    rfl

theorem transactionReplace_oldMapSize {go : Transaction → Nat → WriteBuf → Except Stop Transaction}
    (hgo : ∀ {t t' off buf}, go t off buf = .ok t' → t'.oldMapSize = t.oldMapSize) {t t' : Transaction} {i off : Nat}
    {buf : WriteBuf} (h : transactionReplace go t i off buf = .ok t') : t'.oldMapSize = t.oldMapSize := by
  have hopt : ∀ {c : Prop} [Decidable c] {t t' : Transaction} {off : Nat} {buf : WriteBuf},
      (if c then go t off buf else .ok t) = .ok t' → t'.oldMapSize = t.oldMapSize := by
    intro c _ t t' off buf h
    split at h
    · exact hgo h
    · cases h
      rfl
  obtain ⟨t₁, hfirst, h⟩ := ok_of_except_bind h
  rw [← hopt hfirst]
  split at h
  · cases h
  · exact (hopt h).trans rfl

/-- Writing in a transaction leaves the old end of the file. -/
theorem transactionWrite_oldMapSize {hashSize fuel off : Nat} {t t' : Transaction} {buf : WriteBuf}
    (h : transactionWrite hashSize fuel t off buf = .ok t') : t'.oldMapSize = t.oldMapSize := by
  induction fuel generalizing t t' off buf with
  | zero => cases h
  | succ fuel ih =>
    rw [transactionWrite] at h
    split at h
    · cases h
      rfl
    · obtain ⟨t₁, hheads, h⟩ := ok_of_except_bind h
      rw [← updateHashHeads_oldMapSize hheads]
      split at h
      · exact transactionReplace_oldMapSize ih h
      · cases h
        rw [transactionAdd]
        split
        · split <;> rfl
        · rfl

/-- The methods leave the context as it is, up to the extents of the transaction. -/
theorem insideOf_invariant (hm : tdb.methods = .transaction) : MethodInvariant (InsideOf tdb old) := by
  refine ⟨errcode_inside, tdbRead_keeps transactionFail_inside (ioRead_inside hm), fun off buf s hs => ?_⟩
  have hms : s.methods = .transaction := by
    obtain ⟨t, e, rfl, -⟩ := hs
    exact hm
  rw [tdbWrite, get_bind, hms]
  dsimp only
  obtain ⟨t, e, rfl, ht⟩ := hs
  rw [transactionMethodWrite, get_bind]
  dsimp only
  cases hw : transactionWrite tdb.hashSize (buf.length + 1) t off (.data buf) with
  | ok t' =>
    have hw' : transactionWrite tdb.hashSize ((WriteBuf.data buf).length + 1) t off (.data buf) = .ok t' := hw
    rw [hw']
    refine ⟨fun _ tdb' h => ?_, fun _ _ h => by cases h⟩
    cases h
    exact ⟨t', e, rfl, (transactionWrite_oldMapSize hw).trans ht⟩
  | error e' =>
    have hw' : transactionWrite tdb.hashSize ((WriteBuf.data buf).length + 1) t off (.data buf) = .error e' := hw
    rw [hw']
    exact Keeps.throw e' _ ⟨t, e, rfl, ht⟩

end Inside

section Area

variable {tdb tdb₁ : TdbContext} {t t₁ : Transaction} {size off max : Nat}

variable {s : TdbContext}

theorem ok_of_bind {α β : Type} {x : TdbM α} {f : α → TdbM β} {b : β} {s' : TdbContext} (h : (x >>= f) s = .ok b s') :
    ∃ a s₁, x s = .ok a s₁ ∧ f a s₁ = .ok b s' := by
  cases hx : x s with
  | ok a s₁ =>
    rw [bind_ok hx] at h
    exact ⟨a, s₁, rfl, h⟩
  | error e s₁ =>
    rw [bind_error hx] at h
    cases h

theorem RecoveryReady.readHead (h : RecoveryReady tdb t) :
    tdbOfsRead tdbRecoveryHead tdb = .ok (ofsAt tdb.convert tdb.disk.bytes tdbRecoveryHead) tdb := by
  have hnone : (t.elements.reverse.find? fun el => el.meets tdbRecoveryHead sizeofOff) = none := by
    rw [List.find?_eq_none]
    intro el hel
    simp [h.head el (mem_reverse.mp hel)]
  have hin : tdbRecoveryHead + sizeofOff ≤ tdb.mapSize := h.header.trans h.le
  have hio : ioRead tdbRecoveryHead sizeofOff tdb.convert tdb =
      .ok (convertIf tdb.convert (read tdb.disk.bytes tdbRecoveryHead sizeofOff)) tdb := by
    rw [ioRead, bind_ok (tdbOob_transaction h.methods hin)]
    rfl
  have hread : tdbRead tdbRecoveryHead sizeofOff tdb.convert tdb =
      .ok (convertIf tdb.convert (read tdb.disk.bytes tdbRecoveryHead sizeofOff)) tdb := by
    rw [tdbRead, get_bind, h.methods]
    dsimp only
    rw [transactionRead, get_bind, h.transaction]
    dsimp only
    rw [length_replicate, hnone]
    exact hio
  rw [tdbOfsRead, get_bind, bind_ok hread]
  rfl

theorem RecoveryReady.oldArea (h : RecoveryReady tdb t)
    (hne : ofsAt tdb.convert tdb.disk.bytes tdbRecoveryHead ≠ 0) :
    RecoveryArea tdb (ofsAt tdb.convert tdb.disk.bytes tdbRecoveryHead)
      (recAt tdb.convert tdb.disk.bytes (ofsAt tdb.convert tdb.disk.bytes tdbRecoveryHead)).recLen :=
  ⟨rfl, (h.area hne).1, (h.area hne).2, h.le, h.size_lt⟩

theorem InsideOf.facts {old : Nat} (h : InsideOf tdb old s) :
    ∃ t, s.transaction = some t ∧ t.oldMapSize = old ∧ Kept tdb s ∧ s.disk = tdb.disk ∧ s.mapSize = tdb.mapSize := by
  obtain ⟨t, e, rfl, ht⟩ := h
  exact ⟨t, rfl, ht, ⟨rfl, rfl, rfl, rfl, rfl, rfl, rfl, rfl, rfl, rfl, rfl, rfl⟩, rfl, rfl⟩

/-- `tdb_recovery_allocate`, once the old area is free. -/
theorem newArea_ok (h : RecoveryReady tdb t) (hs : InsideOf tdb t.oldMapSize s) (hnew : (do
      let t ← getTransaction
      let tdb ← get
      let recoverySize := tdbRecoverySize t
      let recoveryMaxSize := sub32 (tdbAlign (u32 (sizeofRec + recoverySize)) tdb.pageSize) sizeofRec
      let recoveryOffset := tdb.mapSize
      ioExpandFile t.oldMapSize (u32 (sub32 recoveryOffset t.oldMapSize + sizeofRec + recoveryMaxSize))
      let _ ← attempt (ioOob (u32 (recoveryOffset + 1)))
      modify fun tdb => { tdb with transaction := some { t with oldMapSize := tdb.mapSize } }
      ioWrite tdbRecoveryHead (convertIf tdb.convert (le32 recoveryOffset))
      return (recoverySize, recoveryOffset, recoveryMaxSize) : TdbM (Nat × Nat × Nat)) s = .ok (size, off, max) tdb₁)
    (ht₁ : tdb₁.transaction = some t₁) (hlt : off + sizeofRec + max < 2 ^ 32) :
    RecoveryArea tdb₁ off max ∧ Kept tdb tdb₁ ∧ size = u32 (recoverySize t.oldMapSize t₁.elements) ∧ t₁.oldMapSize = tdb₁.mapSize := by
  obtain ⟨t₂, ht₂, hold₂, hkept, hdisk, hmap⟩ := hs.facts
  obtain ⟨_, _, hget, hrest⟩ := ok_of_bind hnew
  clear hnew
  rw [getTransaction_ok ht₂] at hget
  cases hget
  rw [get_bind, hmap, hold₂] at hrest
  generalize hsz : tdbRecoverySize t₂ = sz at hrest
  generalize sub32 (tdbAlign (u32 (sizeofRec + sz)) s.pageSize) sizeofRec = room at hrest
  obtain ⟨_, s₁, hexpand, hrest⟩ := ok_of_bind hrest
  obtain ⟨o, s₂, hprobe, hrest⟩ := ok_of_bind hrest
  obtain ⟨_, s₃, hset, hrest⟩ := ok_of_bind hrest
  obtain ⟨_, s₄, hhead, hrest⟩ := ok_of_bind hrest
  cases hrest
  have hle := h.le
  have hold := h.old
  have hwritable : s.readOnly = false ∧ s.traverseRead = false :=
    ⟨hkept.readOnly.trans h.writable.1, hkept.traverseRead.trans h.writable.2⟩
  -- the file is grown by the area
  have hu : u32 (sub32 tdb.mapSize t.oldMapSize + sizeofRec + max) = tdb.mapSize - t.oldMapSize + sizeofRec + max := by
    rw [sub32_of_le (by omega) h.size_lt, u32_of_lt (by omega)]
  have hstop : t.oldMapSize + (tdb.mapSize - t.oldMapSize + sizeofRec + max) = tdb.mapSize + sizeofRec + max := by omega
  rw [hu, ioExpandFile_eq hwritable.1 hwritable.2 (by rw [hstop]; exact hlt)] at hexpand
  obtain ⟨hsize, -⟩ := @foldl_expandOps s.disk t.oldMapSize (tdb.mapSize - t.oldMapSize + sizeofRec + max) (by rw [hdisk]; omega)
  rw [hstop] at hsize
  generalize expandOps t.oldMapSize (tdb.mapSize - t.oldMapSize + sizeofRec + max) = ops at hsize hexpand
  cases hexpand
  -- and found to be so
  have hoob : ioOob (u32 (tdb.mapSize + 1)) (s.diskOps ops) =
      .ok () { s.diskOps ops with mapSize := tdb.mapSize + sizeofRec + max } := by
    have hone : u32 (tdb.mapSize + 1) = tdb.mapSize + 1 := u32_of_lt (by unfold sizeofRec at hlt; omega)
    rw [ioOob, get_bind, hone, if_neg (by rw [show (s.diskOps ops).mapSize = _ from hmap]; omega),
      if_neg (by rw [show (s.diskOps ops).internal = _ from hkept.internal, h.internal]; decide),
      if_neg (by rw [show (s.diskOps ops).disk.size = _ from hsize]; unfold sizeofRec; omega),
      show (s.diskOps ops).disk.size = _ from hsize]
    rfl
  rw [attempt_ok hoob] at hprobe
  cases hprobe
  injection hset with _ hset
  have hmethods₃ : s₃.methods = .transaction := by rw [← hset]; exact hkept.methods.trans h.methods
  have hwritable₃ : s₃.readOnly = false ∧ s₃.traverseRead = false := by rw [← hset]; exact hwritable
  have hmap₃ : s₃.mapSize = tdb.mapSize + sizeofRec + max := by rw [← hset]
  rw [ioWrite_inTransaction hmethods₃ hwritable₃ (by simp) (by
    have := h.header
    rw [length_convertIf, length_le32, hmap₃]
    omega)] at hhead
  cases hhead
  subst hset
  cases ht₁
  refine ⟨⟨?_, h.header.trans hle, hsize.ge, hsize.le, hlt⟩, ⟨hkept.mapPtr, hkept.readOnly, hkept.traverseRead, hkept.hashSize,
    hkept.internal, hkept.convert, hkept.seqnum, hkept.travlocks, hkept.hashFn, hkept.methods, hkept.pageSize,
    hkept.maxDeadRecords⟩, ?_, rfl⟩
  · exact ofsAt_write_same (by unfold sizeofRec at hlt; omega)
  · rw [← hsz, ← hold₂]
    rfl

/-- `tdb_recovery_allocate` finds a recovery area. -/
theorem allocate_area (h : RecoveryReady tdb t) (halloc : tdbRecoveryAllocate tdb = .ok (size, off, max) tdb₁)
    (ht₁ : tdb₁.transaction = some t₁) (hlt : off + sizeofRec + max < 2 ^ 32) :
    RecoveryArea tdb₁ off max ∧ Kept tdb tdb₁ ∧ size = u32 (recoverySize t.oldMapSize t₁.elements) ∧
      t₁.oldMapSize ≤ tdb₁.mapSize := by
  rw [tdbRecoveryAllocate, get_bind, bind_ok h.readHead] at halloc
  generalize hhead : ofsAt tdb.convert tdb.disk.bytes tdbRecoveryHead = head at halloc
  have hnewArea : ∀ {r : ListStruct}, recoveryAllocateNew head r tdb = .ok (size, off, max) tdb₁ →
      RecoveryArea tdb₁ off max ∧ Kept tdb tdb₁ ∧ size = u32 (recoverySize t.oldMapSize t₁.elements) ∧
        t₁.oldMapSize ≤ tdb₁.mapSize := by
    intro r hnew
    obtain ⟨_, s, hfree, hnew⟩ := ok_of_bind hnew
    have hs : InsideOf tdb t.oldMapSize s := by
      have hself : InsideOf tdb t.oldMapSize tdb := ⟨t, tdb.ecode, by rw [← h.transaction], rfl⟩
      split at hfree
      · exact (((insideOf_invariant h.methods).tdbFree head r tdb hself).1 _ _ hfree)
      · cases hfree
        exact hself
    obtain ⟨harea, hkept, hsize, hold⟩ := newArea_ok h hs hnew ht₁ hlt
    exact ⟨harea, hkept, hsize, hold.le⟩
  by_cases h0 : head = 0
  · rw [if_neg (by simpa using h0), bind_ok (pure_apply ..), bind_ok (getTransaction_ok h.transaction),
      if_neg (by simp [h0])] at halloc
    exact hnewArea halloc
  · have harea := h.oldArea (by rw [hhead]; exact h0)
    rw [hhead] at harea
    have hrec : ioRead head sizeofRec tdb.convert tdb = .ok (convertIf tdb.convert (read tdb.disk.bytes head sizeofRec)) tdb := by
      have := harea.inside
      rw [ioRead, bind_ok (tdbOob_transaction h.methods (by have := harea.le; omega))]
      rfl
    rw [if_pos h0, bind_assoc, bind_ok hrec, bind_ok (pure_apply ..), bind_ok (getTransaction_ok h.transaction)] at halloc
    split at halloc
    · cases halloc
      cases h.transaction.symm.trans ht₁
      exact ⟨harea, Kept.refl tdb, rfl, h.old.le.trans h.le⟩
    · exact hnewArea halloc

end Area

/-! ## The header -/

/-- A word, written as the host has it and read in the byte order of the database. -/
def asRead (cv : Bool) (n : Nat) : Nat := leNat (convertIf cv (le32 n))

variable {cv : Bool}

theorem asRead_eq_self_iff {n : Nat} (h : n < 2 ^ 32) : asRead cv n = n ↔ (cv = true → byteRev n = n) := by
  cases cv with
  | false => simp [asRead, convertIf, leNat_le32_of_lt h]
  | true => simp [asRead, convertIf, byteRev]

/-- Turning the bytes of a word around changes it by a multiple of 255. -/
theorem asRead_mod (cv : Bool) (n : Nat) : asRead cv n % 255 = n % 2 ^ 32 % 255 := by
  cases cv with
  | false => simp [asRead, convertIf, leNat_le32]
  | true =>
    have hsplit (k : Nat) : ∃ q d, k = 256 * q + d ∧ d < 256 := ⟨k / 256, k % 256, by omega, by omega⟩
    obtain ⟨q, a, rfl, ha⟩ := hsplit n
    obtain ⟨q, b, rfl, hb⟩ := hsplit q
    obtain ⟨q, c, rfl, hc⟩ := hsplit q
    obtain ⟨q, d, rfl, hd⟩ := hsplit q
    have h0 : (256 * (256 * (256 * (256 * q + d) + c) + b) + a) % 2 ^ 8 = a := by omega
    have h1 : (256 * (256 * (256 * (256 * q + d) + c) + b) + a) / 256 % 2 ^ 8 = b := by omega
    have h2 : (256 * (256 * (256 * (256 * q + d) + c) + b) + a) / 65536 % 2 ^ 8 = c := by omega
    have h3 : (256 * (256 * (256 * (256 * q + d) + c) + b) + a) / 16777216 % 2 ^ 8 = d := by omega
    have hword : (256 * (256 * (256 * (256 * q + d) + c) + b) + a) % 2 ^ 32 = 256 * (256 * (256 * d + c) + b) + a := by omega
    simp only [asRead, convertIf, if_true, le32, tdbConvert, leNat, UInt8.toNat_ofNat', h0, h1, h2, h3, hword]
    clear h0 h1 h2 h3 hword
    omega

theorem ofBytes_header (cv : Bool) (max size old : Nat) (rest : List UInt8) :
    let r : ListStruct := { dataLen := size, recLen := max, keyLen := old }
    ListStruct.ofBytes (convertIf cv ((r.toBytes.take offsetofMagic ++ convertIf cv (le32 tdbRecoveryMagic) ++ rest).take sizeofRec)) =
      { recLen := asRead cv max, keyLen := asRead cv old, dataLen := asRead cv size, magic := tdbRecoveryMagic } := by
  obtain ⟨word, hword⟩ : ∃ word, convertIf cv (le32 tdbRecoveryMagic) = word := ⟨_, rfl⟩
  have hmagic : leNat (convertIf cv word) = tdbRecoveryMagic := by
    rw [← hword, convertIf_convertIf, leNat_le32_of_lt (by decide)]
  have hlength : word.length = 4 := by rw [← hword, length_convertIf, length_le32]
  rw [hword]
  match word, hlength with
  | [w0, w1, w2, w3], _ =>
    have hzero : asRead cv 0 = 0 := by
      clear hword hmagic
      cases cv <;> rfl
    have hparts : ListStruct.ofBytes (convertIf cv ((({ dataLen := size, recLen := max, keyLen := old } : ListStruct).toBytes.take
        offsetofMagic ++ [w0, w1, w2, w3] ++ rest).take sizeofRec)) =
        { next := asRead cv 0, recLen := asRead cv max, keyLen := asRead cv old, dataLen := asRead cv size,
          fullHash := asRead cv 0, magic := leNat (convertIf cv [w0, w1, w2, w3]) } := by
      cases cv <;> rfl
    refine hparts.trans ?_
    rw [hmagic, hzero]

/-! ## The extents -/

theorem length_encode {e : OldExtent} (h : e.data.length = e.length) : (e.encode cv).length = 8 + e.length := by
  simp [OldExtent.encode, h]

/-- An extent of the file, as 32-bit numbers and its contents. -/
structure OldExtent.Ok (e : OldExtent) : Prop where
  offset : e.offset < 2 ^ 32
  length : e.length < 2 ^ 32
  data : e.data.length = e.length

theorem decodeExtents_encode {e : OldExtent} (h : e.Ok) {rest : List UInt8} (hrest : rest ≠ []) :
    decodeExtents cv (e.encode cv ++ rest) = e :: decodeExtents cv rest := by
  have hpos : 0 < rest.length := length_pos_of_ne_nil hrest
  have hlt : 8 < (e.encode cv ++ rest).length := by
    rw [length_append, length_encode h.data]
    omega
  have hwords : (convertIf cv (le32 e.offset ++ le32 e.length)).length = 8 := by simp
  have happ : e.encode cv ++ rest = convertIf cv (le32 e.offset ++ le32 e.length) ++ (e.data ++ rest) := by
    rw [OldExtent.encode, append_assoc]
  have hhead : convertIf cv ((e.encode cv ++ rest).take 8) = le32 e.offset ++ le32 e.length := by
    rw [happ, take_left' hwords, convertIf_convertIf]
  have hoffset : leNat ((le32 e.offset ++ le32 e.length).take 4) = e.offset := leNat_le32_of_lt h.offset
  have hlength : leNat ((le32 e.offset ++ le32 e.length).drop 4) = e.length := leNat_le32_of_lt h.length
  have hdata : ((e.encode cv ++ rest).drop 8).take e.length = e.data := by
    rw [happ, drop_left' hwords, take_left' h.data]
  have hbehind : (e.encode cv ++ rest).drop (8 + e.length) = rest := drop_left' (length_encode h.data)
  rw [decodeExtents, if_pos hlt, hhead]
  dsimp only
  rw [hoffset, hlength, hdata, hbehind]

theorem decodeExtents_of_short {p : List UInt8} (h : p.length ≤ 8) : decodeExtents cv p = [] := by
  rw [decodeExtents, if_neg (by omega)]

theorem decodeExtents_encode_all {es : List OldExtent} (h : ∀ e ∈ es, e.Ok) {rest : List UInt8} (hrest : rest ≠ []) :
    decodeExtents cv (es.flatMap (OldExtent.encode cv) ++ rest) = es ++ decodeExtents cv rest := by
  induction es with
  | nil => rfl
  | cons e es ih =>
    rw [flatMap_cons, append_assoc, decodeExtents_encode (h e mem_cons_self) (by simp [hrest]),
      ih fun e' he' => h e' (mem_cons_of_mem _ he'), cons_append]

/-- The size of extents in the recovery data. -/
def extentsSize (es : List OldExtent) : Nat := (es.map fun e => 8 + e.data.length).sum

theorem extentsSize_decode (cv : Bool) (p : List UInt8) : extentsSize (decodeExtents cv p) ≤ p.length := by
  induction h : p.length using Nat.strong_induction_on generalizing p with
  | _ n ih =>
    subst h
    rw [decodeExtents]
    split
    · next hlt =>
      dsimp only
      have hlater := ih _ (by rw [length_drop]; omega) (p.drop (8 + leNat ((convertIf cv (p.take 8)).drop 4))) rfl
      generalize leNat ((convertIf cv (p.take 8)).drop 4) = len at hlater ⊢
      rw [length_drop] at hlater
      unfold extentsSize at hlater ⊢
      rw [map_cons, sum_cons, length_take, length_drop]
      rcases Nat.lt_or_ge (p.length - 8) len with hshort | hlong
      · have hnil : p.drop (8 + len) = [] := drop_eq_nil_of_le (by omega)
        omega
      · omega
    · simp [extentsSize]

theorem length_flatMap_encode {cv : Bool} {es : List OldExtent} (h : ∀ e ∈ es, e.data.length = e.length) :
    (es.flatMap (OldExtent.encode cv)).length = extentsSize es := by
  induction es with
  | nil => rfl
  | cons e es ih =>
    have he := h e mem_cons_self
    rw [flatMap_cons, length_append, length_encode he, ih fun e' he' => h e' (mem_cons_of_mem _ he')]
    rw [extentsSize, extentsSize, map_cons, sum_cons, he]

theorem extentsSize_oldExtents (m : Mem) (oldMapSize : Nat) (els : List TransactionEl) :
    recoverySize oldMapSize els = extentsSize (oldExtents m oldMapSize els) + 4 := by
  rw [recoverySize, extentsSize, oldExtents, map_map, Nat.add_comm]
  simp [Function.comp_def, sizeofOff]

theorem oldExtents_ok {m : Mem} {oldMapSize : Nat} {els : List TransactionEl} (hold : oldMapSize < 2 ^ 32)
    (hsize : recoverySize oldMapSize els < 2 ^ 32) : ∀ e ∈ oldExtents m oldMapSize els, e.Ok := by
  rw [extentsSize_oldExtents m] at hsize
  intro e he
  have hle : 8 + e.data.length ≤ extentsSize (oldExtents m oldMapSize els) :=
    le_sum_of_mem (mem_map_of_mem he)
  obtain ⟨el, hel, rfl⟩ := mem_map.mp he
  have hoffset : el.offset < oldMapSize := by simpa using (mem_filter.mp hel).2
  have hdata : (read m el.offset el.length).length = el.length := length_read ..
  dsimp only at hle
  exact ⟨by dsimp only; omega, by dsimp only; omega, hdata⟩

/-! ## Writing the record -/

/-- The block that `transaction_setup_recovery` fills. -/
def recoveryBlock (cv : Bool) (m : Mem) (old size max : Nat) (els : List TransactionEl) : List UInt8 :=
  ({ dataLen := size, recLen := max, keyLen := old } : ListStruct).toBytes ++
    (oldExtents m old els).flatMap (OldExtent.encode cv) ++ le32 (u32 (sizeofRec + max))

theorem length_recoveryBlock (cv : Bool) (m : Mem) (old size max : Nat) (els : List TransactionEl) :
    (recoveryBlock cv m old size max els).length = sizeofRec + recoverySize old els := by
  have hdata : ∀ e ∈ oldExtents m old els, e.data.length = e.length := by
    intro e he
    obtain ⟨el, -, rfl⟩ := mem_map.mp he
    exact length_read ..
  rw [recoveryBlock, length_append, length_append, length_toBytes, length_flatMap_encode hdata, length_le32,
    extentsSize_oldExtents m]
  omega

section Setup

variable {tdb tdb₁ : TdbContext} {t t₁ : Transaction} {size off max : Nat}

/-- The loop of `transaction_setup_recovery`, where no extent runs over the end. -/
theorem recoveryData_extents (hm : tdb.methods = .transaction) {cv : Bool} {old new : Nat} {els : List TransactionEl}
    (hin : ∀ el ∈ oldElements old els, el.offset + el.length ≤ new) (hle : new ≤ tdb.mapSize) :
    recoveryData cv old new els tdb = .ok ((oldExtents tdb.disk.bytes old els).flatMap (OldExtent.encode cv)) tdb := by
  induction els with
  | nil => rfl
  | cons el els ih =>
    rw [recoveryData]
    by_cases hnew : old ≤ el.offset
    · have hskip : oldElements old (el :: els) = oldElements old els := by
        rw [oldElements, filter_cons_of_neg (by simpa using hnew), ← oldElements]
      rw [hskip] at hin
      rw [if_pos hnew, ih hin, oldExtents, oldExtents, hskip]
    · have htake : oldElements old (el :: els) = el :: oldElements old els := by
        rw [oldElements, filter_cons_of_pos (by simpa using hnew), ← oldElements]
      rw [htake] at hin
      have hel := hin el mem_cons_self
      have hread : ioRead el.offset el.length false tdb = .ok (read tdb.disk.bytes el.offset el.length) tdb := by
        rw [ioRead, bind_ok (tdbOob_transaction hm (hel.trans hle))]
        rfl
      have hcons : oldExtents tdb.disk.bytes old (el :: els) =
          ⟨el.offset, el.length, read tdb.disk.bytes el.offset el.length⟩ :: oldExtents tdb.disk.bytes old els := by
        rw [oldExtents, htake, map_cons, ← oldExtents]
      rw [if_neg hnew, if_neg (by omega), bind_ok (orFail_ok hread), bind_ok (ih fun e he => hin e (mem_cons_of_mem _ he)),
        hcons, flatMap_cons]
      rfl

/-- What `transaction_setup_recovery` does once it has the recovery area: from `2 ^ 32` bytes on it runs out of its block; else it
writes the record, and then its magic. -/
theorem transactionSetupRecovery_eq (ht : tdb.transaction = some t)
    (halloc : tdbRecoveryAllocate tdb = .ok (size, off, max) tdb₁) (ht₁ : tdb₁.transaction = some t₁)
    (hm : tdb₁.methods = .transaction) (hw : tdb₁.readOnly = false ∧ tdb₁.traverseRead = false)
    (harea : RecoveryArea tdb₁ off max) (hsize : size = u32 (recoverySize t.oldMapSize t₁.elements)) (hroom : size ≤ max)
    (hin : ∀ el ∈ oldElements t.oldMapSize t₁.elements, el.offset + el.length ≤ t₁.oldMapSize)
    (hle : t₁.oldMapSize ≤ tdb₁.mapSize) :
    transactionSetupRecovery tdb =
      if 2 ^ 32 ≤ recoverySize t.oldMapSize t₁.elements then .error .crashed tdb₁
      else .ok (off + offsetofMagic) (tdb₁.diskOps
        [.write off (recoveryBlock tdb₁.convert tdb₁.disk.bytes t.oldMapSize size max t₁.elements), .sync,
          .write (off + offsetofMagic) (convertIf tdb₁.convert (le32 tdbRecoveryMagic)), .sync]) := by
  have hblock := length_recoveryBlock tdb₁.convert tdb₁.disk.bytes t.oldMapSize size max t₁.elements
  have hinside := harea.inside
  have hmap := harea.le
  have hlt := harea.size_lt
  rw [transactionSetupRecovery, bind_ok (getTransaction_ok ht), bind_ok halloc]
  simp only
  rw [get_bind, bind_ok (getTransaction_ok ht₁), bind_ok (recoveryData_extents hm hin hle), ← recoveryBlock]
  rcases Nat.lt_or_ge (recoverySize t.oldMapSize t₁.elements) (2 ^ 32) with hsmall | hlarge
  · have hexact : size = recoverySize t.oldMapSize t₁.elements := hsize.trans (Nat.mod_eq_of_lt hsmall)
    have hu : u32 (off + offsetofMagic) = off + offsetofMagic :=
      u32_of_lt (by unfold sizeofRec at hinside; unfold offsetofMagic; omega)
    have hwrite := @ioWrite_inTransaction tdb₁ hm hw off
      (recoveryBlock tdb₁.convert tdb₁.disk.bytes t.oldMapSize size max t₁.elements)
      (by rw [hblock]; unfold sizeofRec; omega) (by rw [hblock]; omega)
    have hmark := @ioWrite_inTransaction (tdb₁.diskOps
        [.write off (recoveryBlock tdb₁.convert tdb₁.disk.bytes t.oldMapSize size max t₁.elements), .sync]) hm hw
      (off + offsetofMagic) (convertIf tdb₁.convert (le32 tdbRecoveryMagic)) (by simp)
      (by rw [length_convertIf, length_le32, show (tdb₁.diskOps _).mapSize = tdb₁.mapSize from rfl]
          unfold sizeofRec at hinside
          unfold offsetofMagic
          omega)
    have hshort : ¬ sizeofRec + size < (recoveryBlock tdb₁.convert tdb₁.disk.bytes t.oldMapSize size max t₁.elements).length := by
      omega
    rw [if_neg (Nat.not_le_of_lt hsmall), hu]
    refine (congrFun (if_neg hshort) tdb₁).trans ?_
    refine (bind_ok (orFail_ok hwrite)).trans ?_
    refine (bind_ok (transactionSync_eq _)).trans ?_
    rw [show TdbContext.diskOps { tdb₁ with disk := _, log := _ } [DiskOp.sync] = tdb₁.diskOps
      [.write off (recoveryBlock tdb₁.convert tdb₁.disk.bytes t.oldMapSize size max t₁.elements), .sync] by
        simp [TdbContext.diskOps]]
    refine (bind_ok (orFail_ok hmark)).trans ?_
    rw [bind_ok (transactionSync_eq _)]
    simp [TdbContext.diskOps]
  · have hwrap : size < recoverySize t.oldMapSize t₁.elements := by
      omega
    have hlong : sizeofRec + size < (recoveryBlock tdb₁.convert tdb₁.disk.bytes t.oldMapSize size max t₁.elements).length := by
      omega
    rw [if_pos hlarge]
    refine (congrFun (if_pos hlong) tdb₁).trans ?_
    rfl

end Setup

/-! ## Reading the record -/

/-- The extents are read from recovery data of any size that agrees with the right one modulo 255, exactly if it is the right one. -/
theorem decodeExtents_eq_iff {cv : Bool} {m : Mem} {old size : Nat} {els : List TransactionEl} {tailer behind : List UInt8}
    (hold : old < 2 ^ 32) (hlt : recoverySize old els < 2 ^ 32) (htailer : tailer.length = 4)
    (hmod : size % 255 = recoverySize old els % 255)
    (hin : size ≤ ((oldExtents m old els).flatMap (OldExtent.encode cv) ++ (tailer ++ behind)).length) :
    decodeExtents cv (((oldExtents m old els).flatMap (OldExtent.encode cv) ++ (tailer ++ behind)).take size) =
      oldExtents m old els ↔ size = recoverySize old els := by
  have hok := @oldExtents_ok m old els hold hlt
  have hsum := extentsSize_oldExtents m old els
  have hlength := @length_flatMap_encode cv _ fun e he => (hok e he).data
  constructor
  · intro hdecode
    -- all extents are in what is read, and no further one
    have hleast : extentsSize (oldExtents m old els) ≤ size := by
      have := extentsSize_decode cv (((oldExtents m old els).flatMap (OldExtent.encode cv) ++ (tailer ++ behind)).take size)
      rw [hdecode, length_take] at this
      omega
    have hmost : size ≤ extentsSize (oldExtents m old els) + 8 := by
      by_contra hlong
      push Not at hlong
      rw [length_append, hlength] at hin
      rw [take_append, hlength, take_of_length_le (by rw [hlength]; omega)] at hdecode
      have hrest : 8 < ((tailer ++ behind).take (size - extentsSize (oldExtents m old els))).length := by
        rw [length_take]
        omega
      rw [decodeExtents_encode_all hok (ne_nil_of_length_pos (by omega))] at hdecode
      have hnil := append_right_eq_self.mp hdecode
      rw [decodeExtents, if_pos hrest] at hnil
      cases hnil
    omega
  · rintro rfl
    have htake : ((oldExtents m old els).flatMap (OldExtent.encode cv) ++ (tailer ++ behind)).take (recoverySize old els) =
        (oldExtents m old els).flatMap (OldExtent.encode cv) ++ tailer := by
      rw [← append_assoc]
      exact take_left' (by rw [length_append, hlength]; omega)
    rw [htake, decodeExtents_encode_all hok (ne_nil_of_length_pos (by omega)), decodeExtents_of_short (by omega),
      append_nil]

section Read

variable {tdb : TdbContext} {off : Nat}

/-- The record at the recovery head of an open file is read up to its data. -/
theorem recoverRead_record (hm : tdb.methods = .io) (hro : tdb.readOnly = false)
    (hhead : ofsAt tdb.convert tdb.disk.bytes tdbRecoveryHead = off) (habove : tdbRecoveryHead + 4 ≤ off)
    (hin : off + sizeofRec ≤ tdb.mapSize) (hlt : tdb.mapSize < 2 ^ 32)
    (hmagic : (recAt tdb.convert tdb.disk.bytes off).magic = tdbRecoveryMagic) :
    recoverRead tdb = (do
      let data ← orFail .errIo (ioRead (off + sizeofRec) (recAt tdb.convert tdb.disk.bytes off).dataLen false)
      return some ⟨off, tdbRecoveryMagic, (recAt tdb.convert tdb.disk.bytes off).keyLen, decodeExtents tdb.convert data⟩ :
        TdbM (Option RecoveredRecord)) tdb := by
  have hio : ∀ o len cv, tdbRead o len cv tdb = ioRead o len cv tdb := fun o len cv => by rw [tdbRead, get_bind, hm]
  have hofs : tdbOfsRead tdbRecoveryHead tdb = .ok off tdb := by
    rw [tdbOfsRead, get_bind, bind_ok ((hio _ _ _).trans (ioRead_io hm (show tdbRecoveryHead + sizeofOff ≤ _ by
      unfold sizeofOff
      omega) _))]
    exact congrArg (fun o => EStateM.Result.ok o tdb) hhead
  have hrec : tdbRecGet off tdb = .ok (recAt tdb.convert tdb.disk.bytes off) tdb := by
    rw [tdbRecGet, get_bind, bind_ok ((hio _ _ _).trans (ioRead_io hm hin _))]
    rfl
  have hu : u32 (off + sizeofRec) = off + sizeofRec := u32_of_lt (by omega)
  have hdata : ∀ len, orFail .errIo (tdbRead (off + sizeofRec) len false) tdb =
      orFail .errIo (ioRead (off + sizeofRec) len false) tdb := by
    intro len
    simp only [orFail, bind, EStateM.bind, attempt, hio]
  rw [recoverRead, get_bind, bind_ok (orFail_ok hofs), if_neg (by omega), bind_ok (orFail_ok hrec), if_neg (by simp [hmagic]),
    if_neg (by simp [hro]), hu, hmagic]
  simp only [bind, EStateM.bind, hdata]

/-- A read of an open file, by the bound that `tdb_oob` computes. -/
theorem orFail_ioRead (hm : tdb.methods = .io) (hi : tdb.internal = false) (hsize : tdb.mapSize = tdb.disk.size) (o len : Nat) :
    orFail .errIo (ioRead o len false) tdb =
      if u32 (o + len) ≤ tdb.mapSize then .ok (read tdb.disk.bytes o len) tdb else .error .failed { tdb with ecode := .errIo } := by
  by_cases hle : u32 (o + len) ≤ tdb.mapSize
  · have hoob : tdbOob (u32 (o + len)) tdb = .ok () tdb := by
      rw [tdbOob, get_bind, hm]
      dsimp only
      rw [ioOob, get_bind, if_pos hle]
      rfl
    rw [if_pos hle]
    refine orFail_ok ?_
    rw [ioRead, bind_ok hoob]
    rfl
  · have hoob : tdbOob (u32 (o + len)) tdb = errcode .errIo tdb := by
      rw [tdbOob, get_bind, hm]
      dsimp only
      rw [ioOob, get_bind, if_neg hle, if_neg (by simp [hi]), if_pos (by omega)]
    have hread : ioRead o len false tdb = .error .failed { tdb with ecode := .errIo } := by
      exact bind_error hoob
    rw [if_neg hle]
    exact bind_ok (attempt_failed hread)

end Read

/-! ## The round trip -/

/-- The record that `transaction_setup_recovery` writes is read back from the file as one with this old end of the file and these
extents. -/
def RecordRoundTrips (tdb : TdbContext) (old : Nat) (extents : List OldExtent) : Prop :=
  ∃ magicOffset tdb', transactionSetupRecovery tdb = .ok magicOffset tdb' ∧
    ∃ head tdb'', recoverRead (reopen tdb' tdb'.disk) = .ok (some ⟨head, tdbRecoveryMagic, old, extents⟩) tdb''

section RoundTrip

variable {tdb tdb₁ : TdbContext} {t t₁ : Transaction} {size off max : Nat}

/-- The file behind a recovery area with its record and its magic. -/
theorem recordedFile (cv : Bool) (m : Mem) (old size max off : Nat) (els : List TransactionEl) (n : Nat) :
    let m' := write (write m off (recoveryBlock cv m old size max els)) (off + offsetofMagic) (convertIf cv (le32 tdbRecoveryMagic))
    recAt cv m' off = { recLen := asRead cv max, keyLen := asRead cv old, dataLen := asRead cv size, magic := tdbRecoveryMagic } ∧
      ∃ behind, behind.length = n ∧ read m' (off + sizeofRec) (recoverySize old els + n) =
        (oldExtents m old els).flatMap (OldExtent.encode cv) ++ (le32 (u32 (sizeofRec + max)) ++ behind) := by
  have hblock := length_recoveryBlock cv m old size max els
  have hsame := read_write_same m off (recoveryBlock cv m old size max els)
  rw [hblock] at hsame
  have hmagic := read_write_same (write m off (recoveryBlock cv m old size max els)) (off + offsetofMagic)
    (convertIf cv (le32 tdbRecoveryMagic))
  rw [length_convertIf, length_le32] at hmagic
  generalize hm₁ : write m off (recoveryBlock cv m old size max els) = m₁ at hsame hmagic ⊢
  have hapart : ∀ o n, o + n ≤ off + offsetofMagic ∨ off + sizeofRec ≤ o →
      read (write m₁ (off + offsetofMagic) (convertIf cv (le32 tdbRecoveryMagic))) o n = read m₁ o n := by
    intro o n ho
    refine read_write_disjoint ?_
    rw [length_convertIf, length_le32]
    unfold sizeofRec at ho
    unfold offsetofMagic at ho ⊢
    omega
  constructor
  · have hfront : read m₁ off offsetofMagic =
        ({ dataLen := size, recLen := max, keyLen := old } : ListStruct).toBytes.take offsetofMagic := by
      rw [← take_read (show offsetofMagic ≤ sizeofRec + recoverySize old els by unfold offsetofMagic sizeofRec; omega), hsame,
        recoveryBlock, append_assoc, take_append_of_le_length (by rw [length_toBytes]; decide)]
    have hhead : read (write m₁ (off + offsetofMagic) (convertIf cv (le32 tdbRecoveryMagic))) off sizeofRec =
        ({ dataLen := size, recLen := max, keyLen := old } : ListStruct).toBytes.take offsetofMagic ++
          convertIf cv (le32 tdbRecoveryMagic) := by
      rw [show sizeofRec = offsetofMagic + 4 from rfl, read_add, hmagic, hapart _ _ (.inl le_rfl), hfront]
    have hofBytes := ofBytes_header cv max size old []
    dsimp only at hofBytes
    rw [append_nil, ← hhead, take_read le_rfl] at hofBytes
    exact hofBytes
  · refine ⟨read (write m₁ (off + offsetofMagic) (convertIf cv (le32 tdbRecoveryMagic))) (off + sizeofRec + recoverySize old els) n,
      length_read .., ?_⟩
    rw [read_add, hapart _ _ (.inr le_rfl), ← append_assoc]
    congr 1
    have hdrop := @drop_read m₁ off (sizeofRec + recoverySize old els) sizeofRec (Nat.le_add_right ..)
    rw [Nat.add_sub_cancel_left] at hdrop
    rw [← hdrop, hsame, recoveryBlock, append_assoc, drop_left' (length_toBytes _)]

/-- What is read back where the recovery data has less than `2 ^ 32` bytes. -/
theorem roundTrips_of_lt (h : RecoveryReady tdb t) (halloc : tdbRecoveryAllocate tdb = .ok (size, off, max) tdb₁)
    (ht₁ : tdb₁.transaction = some t₁) (hfits : AreaFits size off max)
    (hin : ∀ el ∈ oldElements t.oldMapSize t₁.elements, el.offset + el.length ≤ t₁.oldMapSize)
    (hlt : recoverySize t.oldMapSize t₁.elements < 2 ^ 32) :
    RecordRoundTrips tdb t.oldMapSize (oldExtents tdb₁.disk.bytes t.oldMapSize t₁.elements) ↔
      asRead tdb.convert t.oldMapSize = t.oldMapSize ∧
        asRead tdb.convert (recoverySize t.oldMapSize t₁.elements) = recoverySize t.oldMapSize t₁.elements := by
  obtain ⟨harea, hkept, hsize, hle⟩ := allocate_area h halloc ht₁ hfits.stop
  have hsetup := transactionSetupRecovery_eq h.transaction halloc ht₁ (hkept.methods.trans h.methods)
    ⟨hkept.readOnly.trans h.writable.1, hkept.traverseRead.trans h.writable.2⟩ harea hsize hfits.size hin hle
  have hexact : size = recoverySize t.oldMapSize t₁.elements := hsize.trans (Nat.mod_eq_of_lt hlt)
  have hroom := hfits.size
  rw [if_neg (Nat.not_le_of_lt hlt), hexact] at hsetup
  have hinside := harea.inside
  have habove := harea.above
  have hbound := harea.le.trans_lt harea.size_lt
  rw [← hkept.convert]
  obtain ⟨hrec, behind, hbehind, hbody⟩ := recordedFile tdb₁.convert tdb₁.disk.bytes t.oldMapSize
    (recoverySize t.oldMapSize t₁.elements) max off t₁.elements
    (asRead tdb₁.convert (recoverySize t.oldMapSize t₁.elements))
  -- the file as the next process finds it
  generalize htdb' : tdb₁.diskOps [.write off (recoveryBlock tdb₁.convert tdb₁.disk.bytes t.oldMapSize
    (recoverySize t.oldMapSize t₁.elements) max t₁.elements), .sync,
    .write (off + offsetofMagic) (convertIf tdb₁.convert (le32 tdbRecoveryMagic)), .sync] = tdb' at hsetup
  have hdisk : tdb'.disk = ⟨write (write tdb₁.disk.bytes off (recoveryBlock tdb₁.convert tdb₁.disk.bytes t.oldMapSize
      (recoverySize t.oldMapSize t₁.elements) max t₁.elements)) (off + offsetofMagic)
      (convertIf tdb₁.convert (le32 tdbRecoveryMagic)), tdb₁.disk.size⟩ := by
    rw [← htdb']
    rfl
  have hconvert : tdb'.convert = tdb₁.convert := by rw [← htdb']; rfl
  have hsettings : tdb'.readOnly = false ∧ tdb'.internal = false := by
    rw [← htdb']
    exact ⟨hkept.readOnly.trans h.writable.1, hkept.internal.trans h.internal⟩
  clear htdb'
  generalize hm' : write (write tdb₁.disk.bytes off (recoveryBlock tdb₁.convert tdb₁.disk.bytes t.oldMapSize
      (recoverySize t.oldMapSize t₁.elements) max t₁.elements)) (off + offsetofMagic)
      (convertIf tdb₁.convert (le32 tdbRecoveryMagic)) = m' at hrec hbody hdisk
  have hhead : ofsAt tdb₁.convert m' tdbRecoveryHead = off := by
    rw [← hm', ofsAt_write_disjoint (.inl (by omega)), ofsAt_write_disjoint (.inl habove)]
    exact harea.head
  obtain ⟨next, hnext⟩ : ∃ next, reopen tdb' tdb'.disk = next := ⟨_, rfl⟩
  have hm : next.methods = .io := by rw [← hnext]; rfl
  have hcv : next.convert = tdb₁.convert := by rw [← hnext]; exact hconvert
  have hbytes : next.disk.bytes = m' ∧ next.mapSize = tdb₁.disk.size ∧ next.mapSize = next.disk.size := by
    rw [← hnext, hdisk]
    exact ⟨rfl, rfl, rfl⟩
  have hread := @recoverRead_record next off hm (by rw [← hnext]; exact hsettings.1) (by rw [hcv, hbytes.1]; exact hhead) habove
    (by rw [hbytes.2.1]; omega) (by rw [hbytes.2.1]; exact hbound) (by rw [hcv, hbytes.1, hrec])
  rw [hcv, hbytes.1, hrec] at hread
  simp only [bind, EStateM.bind, orFail_ioRead hm (show next.internal = false by rw [← hnext]; exact hsettings.2) hbytes.2.2,
    hbytes.1, hbytes.2.1] at hread
  have hdecode := @decodeExtents_eq_iff tdb₁.convert tdb₁.disk.bytes t.oldMapSize
    (asRead tdb₁.convert (recoverySize t.oldMapSize t₁.elements)) t₁.elements (le32 (u32 (sizeofRec + max))) behind
    (by have := h.old; have := h.le; have := h.size_lt; omega) hlt (length_le32 _)
    (by rw [asRead_mod, Nat.mod_eq_of_lt hlt]) (by rw [← hbody, length_read]; omega)
  rw [← hbody, take_read (by omega)] at hdecode
  generalize asRead tdb₁.convert (recoverySize t.oldMapSize t₁.elements) = dataLen at hread hdecode ⊢
  have hok : u32 (off + sizeofRec + dataLen) ≤ tdb₁.disk.size → recoverRead next = .ok (some ⟨off, tdbRecoveryMagic,
      asRead tdb₁.convert t.oldMapSize, decodeExtents tdb₁.convert (read m' (off + sizeofRec) dataLen)⟩) next := by
    intro hc
    rw [hread, if_pos hc]
    rfl
  rw [RecordRoundTrips, ← hdecode]
  constructor
  · rintro ⟨_, _, e, head, tdb'', eread⟩
    cases hsetup.symm.trans e
    rw [hnext] at eread
    by_cases hc : u32 (off + sizeofRec + dataLen) ≤ tdb₁.disk.size
    · have hrecord := Option.some.inj (EStateM.Result.ok.inj ((hok hc).symm.trans eread)).1
      simp only [RecoveredRecord.mk.injEq, true_and] at hrecord
      exact hrecord.2
    · rw [hread, if_neg hc] at eread
      cases eread
  · rintro ⟨hold, hextents⟩
    have hlen : dataLen = recoverySize t.oldMapSize t₁.elements := hdecode.mp hextents
    refine ⟨_, _, hsetup, off, next, ?_⟩
    rw [hnext, hok (by rw [hlen, u32_of_lt (by omega)]; omega), hold, hextents]

/-- The recovery record is read back exactly when the recovery data has less than `2 ^ 32` bytes and, in a database in the other byte
order, its size and the old end of the file are the same in both. -/
theorem recoveryRoundTrips_iff (h : RecoveryReady tdb t) (halloc : tdbRecoveryAllocate tdb = .ok (size, off, max) tdb₁)
    (ht₁ : tdb₁.transaction = some t₁) (hfits : AreaFits size off max)
    (hin : ∀ el ∈ oldElements t.oldMapSize t₁.elements, el.offset + el.length ≤ t₁.oldMapSize) :
    RecordRoundTrips tdb t.oldMapSize (oldExtents tdb₁.disk.bytes t.oldMapSize t₁.elements) ↔
      recoverySize t.oldMapSize t₁.elements < 2 ^ 32 ∧
        (tdb.convert = true → byteRev t.oldMapSize = t.oldMapSize ∧
          byteRev (recoverySize t.oldMapSize t₁.elements) = recoverySize t.oldMapSize t₁.elements) := by
  have hold : t.oldMapSize < 2 ^ 32 := by
    have := h.old
    have := h.le
    have := h.size_lt
    omega
  rcases Nat.lt_or_ge (recoverySize t.oldMapSize t₁.elements) (2 ^ 32) with hlt | hge
  · rw [roundTrips_of_lt h halloc ht₁ hfits hin hlt, asRead_eq_self_iff hold, asRead_eq_self_iff hlt, and_iff_right hlt]
    exact imp_and.symm
  · obtain ⟨harea, hkept, hsize, hle⟩ := allocate_area h halloc ht₁ hfits.stop
    have hsetup := transactionSetupRecovery_eq h.transaction halloc ht₁ (hkept.methods.trans h.methods)
      ⟨hkept.readOnly.trans h.writable.1, hkept.traverseRead.trans h.writable.2⟩ harea hsize hfits.size hin hle
    rw [if_pos hge] at hsetup
    refine ⟨fun ⟨_, _, e, _⟩ => ?_, fun hno => absurd hno.1 (by omega)⟩
    cases hsetup.symm.trans e

end RoundTrip

/-- A transaction with two extents, in a file of 4096 bytes with a recovery area of 100 bytes at 2048. -/
def areaFile (cv : Bool) : TdbContext :=
  { newFile with
    disk := ⟨write (write (fun _ => 7) tdbRecoveryHead (convertIf cv (le32 2048))) 2048
      (convertIf cv ({ recLen := 100 } : ListStruct).toBytes), 4096⟩
    mapSize := 4096
    convert := cv
    methods := .transaction
    transaction := some ⟨[0, 0], [⟨1000, [1, 2, 3]⟩, ⟨3000, [4]⟩], false, 0, 4096⟩ }

theorem areaFile_ready : RecoveryReady (areaFile false) ⟨[0, 0], [⟨1000, [1, 2, 3]⟩, ⟨3000, [4]⟩], false, 0, 4096⟩ :=
  ⟨rfl, rfl, ⟨rfl, rfl⟩, rfl, rfl, le_rfl, by decide, by decide, by decide, fun _ => by decide⟩

theorem areaFile_roundTrips : RecordRoundTrips (areaFile false) 4096 [⟨1000, 3, [7, 7, 7]⟩, ⟨3000, 1, [7]⟩] := by
  have halloc : tdbRecoveryAllocate (areaFile false) = .ok (24, 2048, 100) (areaFile false) := rfl
  exact (recoveryRoundTrips_iff areaFile_ready halloc rfl ⟨by decide, by decide⟩ (by decide)).mpr ⟨by decide, fun hno => by cases hno⟩

/-- In the same database in the other byte order the next process reads 0x18000000 bytes of recovery data, and fails. -/
theorem byteSwapped_not_roundTrips :
    ¬ RecordRoundTrips (areaFile true) 4096 [⟨1000, 3, [7, 7, 7]⟩, ⟨3000, 1, [7]⟩] := by
  rintro ⟨magicOffset, tdb', hsetup, head, tdb'', hread⟩
  obtain ⟨rfl, rfl⟩ : magicOffset = 2068 ∧ tdb' = (areaFile true).diskOps
      [.write 2048 (recoveryBlock true (areaFile true).disk.bytes 4096 24 100 [⟨1000, [1, 2, 3]⟩, ⟨3000, [4]⟩]), .sync,
        .write 2068 (convertIf true (le32 tdbRecoveryMagic)), .sync] := by
    cases hsetup
    exact ⟨rfl, rfl⟩
  cases hread

end Samba.Tdb
