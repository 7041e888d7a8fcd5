/-
Crashes in a commit. Up to the mark the file is the old one; with the mark on, the old contents can be
recovered from it, however often the recovery is itself cut short; with the mark off again it is the
new one. A recovery can only go wrong when the disk cuts the file back before it has taken the reset of
the recovery head.
-/
import Samba.Tdb.Commit

namespace Samba.Tdb

open Bytes List

/-! ## Before the mark -/

section Blob

variable {old : Disk} {els : List TransactionEl} {off room : Nat}

/-- A range of bytes is overwritten, and then a part of it behind its header. -/
theorem recAt_write_blob (hn : (oldEntries old.bytes els).length + 4 < 2 ^ 32) (hroom : room < 2 ^ 32)
    (hold : old.size < 2 ^ 32) (m : Mem) :
    recAt false (write m off (recoveryBlob old els room)) off =
      ⟨0, room, old.size, (oldEntries old.bytes els).length + 4, 0, 0⟩ := by
  have hfits : (⟨0, room, old.size, (oldEntries old.bytes els).length + 4, 0, 0⟩ : ListStruct).Fits :=
    ⟨Nat.two_pow_pos 32, hroom, hold, hn, Nat.two_pow_pos 32, Nat.two_pow_pos 32⟩
  rw [recoveryBlob, append_assoc, write_append, length_toBytes, recAt, read_write_disjoint (.inl le_rfl)]
  exact recAt_write_same hfits

theorem read_write_blob (m : Mem) :
    read (write m off (recoveryBlob old els room)) (off + sizeofRec) (oldEntries old.bytes els).length =
      oldEntries old.bytes els := by
  rw [recoveryBlob, write_append, read_write_disjoint, write_append, length_toBytes]
  · exact read_write_same ..
  · left
    rw [length_append, length_toBytes, Nat.add_assoc]

theorem recAt_write_magic {m : Mem} {v : Nat} (hv : v < 2 ^ 32) :
    recAt false (write m (off + offsetofMagic) (le32 v)) off = { recAt false m off with magic := v } := by
  have hd : ∀ o, o ≤ off + 16 → ofsAt false (write m (off + offsetofMagic) (le32 v)) o = ofsAt false m o := by
    intro o ho
    refine ofsAt_write_disjoint (.inl ?_)
    unfold offsetofMagic
    omega
  have hm := @ofsAt_write_same false m (off + offsetofMagic) v hv
  rw [recAt_eq, recAt_eq, hd off (by omega), hd (off + 4) (by omega), hd (off + 8) (by omega), hd (off + 12) (by omega),
    hd (off + 16) (by omega)]
  exact congrArg (ListStruct.mk _ _ _ _ _) hm

end Blob

/-- Without the top byte of the mark there is no mark. -/
theorem magic_ne_of_top {m : Mem} {off : Nat} (h : m (off + 23) ≠ 0xf5) : (recAt false m off).magic ≠ tdbRecoveryMagic := by
  rw [recAt_eq]
  intro hm
  have hword : ofsAt false m (off + 20) = leNat [m (off + 20), m (off + 21), m (off + 22), m (off + 23)] := rfl
  simp only [hword, leNat, tdbRecoveryMagic] at hm
  have h0 := (m (off + 20)).toNat_lt
  have h1 := (m (off + 21)).toNat_lt
  have h2 := (m (off + 22)).toNat_lt
  exact h (UInt8.toNat_inj.mp (show (m (off + 23)).toNat = 0xf5 by omega))

/-- The file while a new recovery area is added behind its end. -/
structure Growing (old : Disk) (off room : Nat) (d : Disk) : Prop where
  size : d.size = off + sizeofRec + room
  rest : ∀ a, a < old.size → ¬ (tdbRecoveryHead ≤ a ∧ a < tdbRecoveryHead + 4) → d.bytes a = old.bytes a
  head : ofsAt false d.bytes tdbRecoveryHead = ofsAt false old.bytes tdbRecoveryHead ∨
    ofsAt false d.bytes tdbRecoveryHead = off
  top : d.bytes (off + 23) ≠ 0xf5

/-- The head of the old file points nowhere, or to an area that is not marked. -/
structure HeadOk (old : Disk) : Prop where
  size : 48 ≤ old.size
  area : ofsAt false old.bytes tdbRecoveryHead = 0 ∨ 48 ≤ ofsAt false old.bytes tdbRecoveryHead ∧
    ofsAt false old.bytes tdbRecoveryHead + sizeofRec ≤ old.size ∧
    (recAt false old.bytes (ofsAt false old.bytes tdbRecoveryHead)).magic ≠ tdbRecoveryMagic

section Growing

variable {old d : Disk} {off room : Nat}

theorem Growing.pre (h : Growing old off room d) (hok : HeadOk old) (hoff : old.size ≤ off)
    (hlt : off + sizeofRec + room < 2 ^ 32) : Pre old off room d := by
  have hsize := h.size
  refine ⟨by omega, fun a ha hn => h.rest a ha fun hc => hn (.inl hc), ?_⟩
  rcases h.head with hhead | hhead
  · rcases hok.area with h0 | ⟨h48, hin, hmagic⟩
    · exact .inl (hhead.trans h0)
    · right
      rw [hhead]
      refine ⟨by omega, ?_⟩
      generalize ofsAt false old.bytes tdbRecoveryHead = head at *
      rw [recAt, read_congr fun a h1 h2 => h.rest a (by omega) (by unfold tdbRecoveryHead; omega)]
      exact hmagic
  · right
    rw [hhead]
    exact ⟨by omega, magic_ne_of_top h.top⟩

theorem HeadOk.pre (h : HeadOk old) (hlt : old.size < 2 ^ 32) : Pre old off room old := by
  refine ⟨⟨le_rfl, hlt⟩, fun _ _ _ => rfl, ?_⟩
  rcases h.area with h0 | ⟨-, hin, hm⟩
  exacts [.inl h0, .inr ⟨hin, hm⟩]

/-- A write behind the old end of the file that does not write the top byte of a mark. -/
theorem Growing.write (h : Growing old off room d) (h48 : 48 ≤ old.size) {o : Nat} {bs : List UInt8}
    (ho : old.size ≤ o) (htop : ∀ b, bs[off + 23 - o]? = some b → b ≠ 0xf5) :
    Growing old off room (d.apply (.write o bs)) := by
  refine ⟨h.size, fun a ha hn => (write_of_lt (by omega)).trans (h.rest a ha hn), ?_, ?_⟩
  · rw [show ofsAt false (d.apply (.write o bs)).bytes tdbRecoveryHead = ofsAt false d.bytes tdbRecoveryHead from
      ofsAt_write_disjoint (.inl (by unfold tdbRecoveryHead; omega))]
    exact h.head
  · change Bytes.write d.bytes o bs (off + 23) ≠ 0xf5
    by_cases hin : o ≤ off + 23 ∧ off + 23 - o < bs.length
    · rw [write_of_mem hin.1 hin.2]
      exact htop _ (List.getElem?_eq_getElem hin.2)
    · rw [write_of_out (by omega)]
      exact h.top

theorem Growing.writeHead (h : Growing old off room d) (h48 : 48 ≤ off) (hlt : off < 2 ^ 32) :
    Growing old off room (d.apply (.write tdbRecoveryHead (le32 off))) := by
  refine ⟨h.size, fun a ha hn => ?_, .inr (@ofsAt_write_same false d.bytes tdbRecoveryHead off hlt), ?_⟩
  · refine (write_of_out ?_).trans (h.rest a ha hn)
    rw [length_le32]
    omega
  · change Bytes.write d.bytes tdbRecoveryHead (le32 off) (off + 23) ≠ 0xf5
    rw [write_of_ge (by rw [length_le32]; unfold tdbRecoveryHead; omega)]
    exact h.top

theorem Growing.start (h48 : 48 ≤ old.size) (hoff : old.size ≤ off) :
    Growing old off room (old.apply (.truncate (off + sizeofRec + room))) := by
  have hb : ∀ a, a < old.size → (old.apply (.truncate (off + sizeofRec + room))).bytes a = old.bytes a := fun a ha =>
    if_pos ⟨ha, by omega⟩
  refine ⟨rfl, fun a ha _ => hb a ha, .inl (ofsAt_congr fun a _ h2 => hb a ?_), ?_⟩
  · unfold tdbRecoveryHead at h2
    omega
  · have h0 : (old.apply (.truncate (off + sizeofRec + room))).bytes (off + 23) = 0 := if_neg (by omega)
    rw [h0]
    decide

/-- A crash while the recovery area is added and filled leaves the old file. -/
theorem survives_areaOps (hok : HeadOk old) (hoff : old.size ≤ off) (hlt : off + sizeofRec + room < 2 ^ 32)
    {els : List TransactionEl} {d' : Disk}
    (hs : Survives anyOrder [] old (areaOps old.size off room ++ [.write off (recoveryBlob old els room)]) d') :
    Pre old off room d' := by
  have h48 := hok.size
  have hsum : old.size + (off - old.size + sizeofRec + room) = off + sizeofRec + room := by omega
  rw [areaOps, expandOps, hsum, cons_append, cons_append] at hs
  cases hs with
  | stop => exact hok.pre (by omega)
  | lostTruncate hle =>
    unfold sizeofRec at hle
    omega
  | kept _ _ hs =>
    refine (hs.invariant (fun op hop e he => ?_) (Growing.start h48 hoff)).pre hok hoff hlt
    rw [append_assoc, mem_append] at hop
    rcases hop with hop | hop
    · obtain ⟨o, n, rfl, ho, -⟩ := mem_fillOps hop
      refine he.write h48 ho fun b hb => ?_
      rw [eq_of_mem_replicate (mem_of_getElem? hb)]
      decide
    · rw [mem_append, mem_singleton, mem_singleton] at hop
      rcases hop with rfl | rfl
      · exact he.writeHead (by omega) (by omega)
      · refine he.write h48 hoff fun b hb => ?_
        rw [Nat.add_sub_cancel_left] at hb
        have hzero : (recoveryBlob old els room)[23]? = some 0 := by
          simp [recoveryBlob, ListStruct.toBytes, le32]
        rw [hzero] at hb
        obtain rfl := Option.some.inj hb
        decide

end Growing

/-! ## From the mark on -/

section Windows

variable {tdb tdb₁ : TdbContext} {t t₁ : Transaction} {alloc : List DiskOp} {off room : Nat}

theorem Committing.headOk (h : Committing tdb t) : HeadOk tdb.disk := by
  refine ⟨h.header, ?_⟩
  rcases h.area with h0 | ⟨room, pre, post, fl, ho⟩
  · exact .inl h0
  · have hin := ho.inside
    exact .inr ⟨OldArea.header ⟨_, _, _, _, ho⟩, by omega, ho.magic⟩

theorem Prepared.apply_blob (hp : Prepared tdb alloc tdb₁ t₁ off room) {d : Disk}
    (hhead : ofsAt false d.bytes tdbRecoveryHead = off) :
    ofsAt false (d.apply (.write off (recoveryBlob tdb.disk (oldElements tdb.disk.size t₁.elements) room))).bytes
      tdbRecoveryHead = off ∧
    recAt false (d.apply (.write off (recoveryBlob tdb.disk (oldElements tdb.disk.size t₁.elements) room))).bytes off =
      ⟨0, room, tdb.disk.size, (oldEntries tdb.disk.bytes (oldElements tdb.disk.size t₁.elements)).length + 4, 0, 0⟩ ∧
    ∀ a, ¬ InArea off room a →
      (d.apply (.write off (recoveryBlob tdb.disk (oldElements tdb.disk.size t₁.elements) room))).bytes a = d.bytes a := by
  have h48 := hp.area.header
  have hfits := hp.area.fits
  have hlt := hp.area.off_lt
  have hlen := hp.length_blob
  refine ⟨?_, recAt_write_blob (by omega) (by omega) hp.area.old_lt _, fun a hn => write_of_out ?_⟩
  · refine (ofsAt_write_disjoint (.inl ?_)).trans hhead
    unfold tdbRecoveryHead
    omega
  · unfold InArea at hn
    omega

/-- A crash before the mark leaves the old file. -/
theorem survives_unmarked (h : Committing tdb t) (hp : Prepared tdb alloc tdb₁ t₁ off room)
    (hkind : AreaKind tdb tdb₁ t₁ off room alloc) {d : Disk}
    (hs : Survives anyOrder [] tdb.disk
      (alloc ++ [.write off (recoveryBlob tdb.disk (oldElements tdb.disk.size t₁.elements) room)]) d) :
    Pre tdb.disk off room d := by
  have hlt := hp.area.old_lt
  cases hkind with
  | fresh hmap hoff =>
    refine survives_areaOps h.headOk ?_ hp.area.off_lt hs
    rw [hoff]
    exact h.old_le
  | reuse htdb hin =>
    subst htdb
    have hwritten : Pre tdb₁.disk off room (tdb₁.disk.apply
        (.write off (recoveryBlob tdb₁.disk (oldElements tdb₁.disk.size t₁.elements) room))) := by
      obtain ⟨h1, h2, h3⟩ := hp.apply_blob hp.head
      refine ⟨⟨le_rfl, hlt⟩, fun a _ hn => h3 a hn, .inr ?_⟩
      rw [h1, h2]
      exact ⟨show off + sizeofRec ≤ tdb₁.disk.size by omega, show (0 : Nat) ≠ tdbRecoveryMagic by decide⟩
    rw [nil_append] at hs
    cases hs with
    | stop => exact h.headOk.pre hlt
    | kept _ _ hs =>
      cases hs
      exact hwritten
    | lostWrite hs =>
      cases hs
      exact h.headOk.pre hlt

/-- The mark, once the recovery data are there. -/
theorem Prepared.armed (hp : Prepared tdb alloc tdb₁ t₁ off room) :
    Armed tdb.disk (oldElements tdb.disk.size t₁.elements) off room ((tdb₁.disk.apply
      (.write off (recoveryBlob tdb.disk (oldElements tdb.disk.size t₁.elements) room))).apply (markOp off)) := by
  obtain ⟨h1, h2, h3⟩ := hp.apply_blob hp.head
  have h48 := hp.area.header
  have hsize := hp.size
  have hmap := hp.inTransaction.size_lt
  have hdata : read (tdb₁.disk.apply (.write off (recoveryBlob tdb.disk (oldElements tdb.disk.size t₁.elements)
      room))).bytes (off + sizeofRec) (oldEntries tdb.disk.bytes (oldElements tdb.disk.size t₁.elements)).length =
      oldEntries tdb.disk.bytes (oldElements tdb.disk.size t₁.elements) := read_write_blob _
  have hs : (tdb₁.disk.apply (.write off (recoveryBlob tdb.disk (oldElements tdb.disk.size t₁.elements) room))).size =
      tdb₁.disk.size := rfl
  generalize tdb₁.disk.apply (.write off (recoveryBlob tdb.disk (oldElements tdb.disk.size t₁.elements) room)) = d
    at h1 h2 h3 hdata hs ⊢
  refine ⟨?_, ?_, ?_, ?_, fun a hlt hn hc => ?_⟩
  · change _ ≤ d.size ∧ _ ≤ d.size ∧ d.size < _
    omega
  · refine (ofsAt_write_disjoint (.inl ?_)).trans h1
    unfold tdbRecoveryHead offsetofMagic
    omega
  · rw [markOp, Disk.apply]
    simp only
    rw [recAt_write_magic (by decide), h2]
  · refine (read_write_disjoint (.inr ?_)).trans hdata
    rw [length_le32]
    unfold offsetofMagic sizeofRec
    omega
  · have hmark : (d.apply (markOp off)).bytes a = d.bytes a := by
      refine write_of_out ?_
      rw [length_le32]
      unfold InArea sizeofRec at hn
      unfold offsetofMagic
      omega
    rw [hmark, h3 a hn]
    exact hp.frame a hlt fun hc => hn (.inl hc)

/-- With the mark on, the new contents may be written in part. -/
theorem survives_marked (hp : Prepared tdb alloc tdb₁ t₁ off room) {lost : List DiskOp} {d d' : Disk}
    (harm : Armed tdb.disk (oldElements tdb.disk.size t₁.elements) off room d) (hd : d.size = tdb₁.disk.size)
    (hs : Survives anyOrder lost d (growOps tdb₁ t₁ ++ writeOps t₁.elements) d') :
    Armed tdb.disk (oldElements tdb.disk.size t₁.elements) off room d' := by
  obtain ⟨hold, hle, -, -, -⟩ := hp.size
  have hmap := hp.inTransaction.size_lt
  have hops : ∀ op ∈ growOps tdb₁ t₁ ++ writeOps t₁.elements,
      Within (fun a => Covered t₁.elements a ∨ d.size ≤ a) d.size op := by
    intro op hop
    rcases mem_append.mp hop with hop | hop
    · unfold growOps at hop
      split at hop
      · rcases mem_cons.mp hop with rfl | hop
        · change d.size ≤ _
          omega
        · obtain ⟨o, n, rfl, ho, -⟩ := mem_fillOps hop
          exact fun a h1 _ => .inr (by omega)
      · cases hop
    · obtain ⟨el, hel, rfl⟩ := mem_map.mp hop
      exact fun a h1 h2 => .inl ⟨el, hel, h1, h2⟩
  have hlt : d'.size < 2 ^ 32 := by
    refine @Survives.invariant _ _ _ _ _ (fun d => d.size < 2 ^ 32) hs (fun op hop e he => ?_) harm.size.2.2
    cases op with
    | write off buf => exact he
    | sync => exact he
    | truncate size =>
      rcases mem_append.mp hop with hop | hop
      · unfold growOps at hop
        split at hop
        · rcases mem_cons.mp hop with heq | hop
          · cases heq
            change t₁.oldMapSize + (tdb₁.mapSize - t₁.oldMapSize) < _
            omega
          · obtain ⟨o, n, heq, -⟩ := mem_fillOps hop
            cases heq
        · cases hop
      · obtain ⟨el, -, heq⟩ := mem_map.mp hop
        cases heq
  obtain ⟨h1, h2⟩ := hs.frame hops le_rfl
  refine harm.congr hp.area ⟨h1, hlt⟩ fun a ha hor => h2 a ha ?_
  rintro (hc | hge)
  · rcases hor with (hhead | harea) | ⟨hlt, hn⟩
    · exact hp.headOut a hhead.1 hhead.2 hc
    · exact hp.apart a harea.1 harea.2 hc
    · obtain ⟨el, hel, h3, h4⟩ := hc
      exact hn ⟨el, mem_filter.mpr ⟨hel, by simp only [decide_eq_true_eq]; omega⟩, h3, h4⟩
  · omega

/-- With the mark off again there is nothing to recover. -/
theorem Armed.unmark {old : Disk} {els : List TransactionEl} (ha : Area old els off room) {d : Disk}
    (h : Armed old els off room d) : Unarmed (d.apply (unmarkOp off)) := by
  obtain ⟨-, hhead, hmagic, -⟩ := @apply_clearMagic off room ha.header.2 d
  have hsize := h.size
  right
  rw [unmarkOp, hhead, h.head, recAt_eq]
  refine ⟨show off + sizeofRec ≤ d.size by omega, ?_⟩
  simp only
  rw [show (20 : Nat) = offsetofMagic from rfl, hmagic]
  decide

end Windows

/-! ## Crashes -/

/-- The context that a call leaves, whether it succeeds or fails. -/
def after {α : Type} (x : TdbM α) (tdb : TdbContext) : TdbContext :=
  match x tdb with
  | .ok _ tdb' => tdb'
  | .error _ tdb' => tdb'

theorem after_ok {α : Type} {x : TdbM α} {a : α} {tdb tdb' : TdbContext} (h : x tdb = .ok a tdb') : after x tdb = tdb' := by
  simp only [after, h]

/-- The database opened again on the file that a crash left. -/
def reopen (tdb : TdbContext) (d : Disk) : TdbContext :=
  { tdb with disk := d, log := [], mapSize := d.size, ecode := .success, methods := .io, transaction := none }

/-- The files that can be found after a crash in a commit, and after further crashes in the recoveries that follow
it, in which the disk may reorder requests by `ok`. -/
inductive Crashed (tdb : TdbContext) (ok : Reorder) : Disk → Prop
  | commit {ops : List DiskOp} {d : Disk} : (after tdbTransactionCommit tdb).log = tdb.log ++ ops →
      Crash anyOrder tdb.disk ops d → Crashed tdb ok d
  | recover {d d' : Disk} : Crashed tdb ok d → Crash ok d (after tdbTransactionRecover (reopen tdb d)).log d' →
      Crashed tdb ok d'

/-- The recovery head and the recovery area that it points to. -/
def InRecovery (d : Disk) (a : Nat) : Prop :=
  InArea (ofsAt false d.bytes tdbRecoveryHead) (recAt false d.bytes (ofsAt false d.bytes tdbRecoveryHead)).recLen a

section Crashes

variable {tdb : TdbContext} {t : Transaction}

theorem Committing.reopen_opened (h : Committing tdb t) {d : Disk} (hlt : d.size < 2 ^ 32) : Opened (reopen tdb d) :=
  ⟨rfl, rfl, h.readOnly, h.traverseRead, h.convert, hlt⟩

/-- A commit that asks nothing of the file: the transaction failed before, is not the outermost, or wrote nothing. -/
theorem commit_idle (ht : tdb.transaction = some t)
    (hidle : t.transactionError = true ∨ t.nesting ≠ 0 ∨ t.elements = []) :
    (after tdbTransactionCommit tdb).log = tdb.log ∧ (after tdbTransactionCommit tdb).disk = tdb.disk := by
  have hcancel : ∀ e, ∃ tdb', tdbTransactionCancel { tdb with ecode := e } = .ok () tdb' ∧
      tdb'.log = tdb.log ∧ tdb'.disk = tdb.disk := by
    intro e
    by_cases hn : t.nesting = 0
    · exact ⟨_, @cancel_outermost { tdb with ecode := e } t ht hn, rfl, rfl⟩
    · refine ⟨{ tdb with
        ecode := e, transaction := some { t with transactionError := true, nesting := t.nesting - 1 } }, ?_, rfl, rfl⟩
      rw [tdbTransactionCancel, get_bind, ht]
      simp only [if_pos hn]
      rfl
  by_cases herr : t.transactionError = true
  · obtain ⟨tdb', e, hlog, hdisk⟩ := hcancel .errIo
    have hc : tdbTransactionCommit tdb = .error .failed tdb' := by
      rw [tdbTransactionCommit, get_bind, ht]
      simp only [if_pos herr]
      exact (bind_ok e)
    simp only [after, hc]
    exact ⟨hlog, hdisk⟩
  · by_cases hn : t.nesting = 0
    · have hels := (hidle.resolve_left herr).resolve_left (not_not.mpr hn)
      obtain ⟨tdb', e, hlog, hdisk⟩ := hcancel tdb.ecode
      have hc : tdbTransactionCommit tdb = .ok () tdb' := by
        rw [tdbTransactionCommit, get_bind, ht]
        simp only [if_neg herr, hn, ne_eq, not_true_eq_false, if_false, if_pos hels]
        exact e
      rw [after_ok hc]
      exact ⟨hlog, hdisk⟩
    · have hc : tdbTransactionCommit tdb =
          .ok () { tdb with transaction := some { t with nesting := t.nesting - 1 } } := by
        rw [tdbTransactionCommit, get_bind, ht]
        simp only [if_neg herr, ne_eq, hn, not_false_eq_true, if_true]
        rfl
      rw [after_ok hc]
      exact ⟨rfl, rfl⟩

section Outermost

variable {tdb₁ : TdbContext} {t₁ : Transaction} {alloc : List DiskOp} {off room : Nat}

theorem sync_notMem_expandOps (size addition : Nat) : DiskOp.sync ∉ expandOps size addition := by
  intro hmem
  rcases mem_cons.mp hmem with heq | hmem
  · cases heq
  · obtain ⟨o, n, heq, -⟩ := mem_fillOps hmem
    cases heq

theorem AreaKind.sync_notMem (h : AreaKind tdb tdb₁ t₁ off room alloc) : DiskOp.sync ∉ alloc := by
  cases h with
  | reuse => simp
  | fresh =>
    intro hmem
    rcases mem_append.mp hmem with hmem | hmem
    · exact sync_notMem_expandOps _ _ hmem
    · simp at hmem

theorem sync_notMem_newOps (tdb : TdbContext) (t : Transaction) :
    DiskOp.sync ∉ growOps tdb t ++ writeOps t.elements := by
  intro hmem
  rcases mem_append.mp hmem with hmem | hmem
  · unfold growOps at hmem
    split at hmem
    · exact sync_notMem_expandOps _ _ hmem
    · cases hmem
  · obtain ⟨el, -, heq⟩ := mem_map.mp hmem
    cases heq

/-- The file with the new contents, the mark still on. -/
def newFileMarked (old : Disk) (tdb₁ : TdbContext) (t₁ : Transaction) (off room : Nat) : Disk :=
  (growOps tdb₁ t₁ ++ writeOps t₁.elements).foldl Disk.apply ((tdb₁.disk.apply
    (.write off (recoveryBlob old (oldElements old.size t₁.elements) room))).apply (markOp off))

theorem Prepared.armed_new (hp : Prepared tdb alloc tdb₁ t₁ off room) :
    Armed tdb.disk (oldElements tdb.disk.size t₁.elements) off room (newFileMarked tdb.disk tdb₁ t₁ off room) :=
  survives_marked hp hp.armed rfl (@Survives.all [] _ (sync_notMem_newOps tdb₁ t₁) _)

/-- A crash in a commit leaves the old file, one to recover the old contents from, or the new file. -/
theorem crash_commit (h : Committing tdb t) (hp : Prepared tdb alloc tdb₁ t₁ off room)
    (hkind : AreaKind tdb tdb₁ t₁ off room alloc) {d : Disk}
    (hc : Crash anyOrder tdb.disk (alloc ++ (setupOps tdb.disk (oldElements tdb.disk.size t₁.elements) off room ++
      growOps tdb₁ t₁ ++ writeOps t₁.elements ++ [.sync, unmarkOp off, .sync])) d) :
    Pre tdb.disk off room d ∨ Armed tdb.disk (oldElements tdb.disk.size t₁.elements) off room d ∨
      d = (newFileMarked tdb.disk tdb₁ t₁ off room).apply (unmarkOp off) := by
  have hlist : ∀ blob new : List DiskOp, ∀ mark unmark : DiskOp,
      alloc ++ (blob ++ [.sync, mark, .sync] ++ new ++ [.sync, unmark, .sync]) =
        (alloc ++ blob) ++ .sync :: ([mark] ++ .sync :: (new ++ .sync :: ([unmark] ++ .sync :: []))) := by
    simp
  rw [append_assoc _ (growOps tdb₁ t₁), show setupOps tdb.disk (oldElements tdb.disk.size t₁.elements) off room =
    [.write off (recoveryBlob tdb.disk (oldElements tdb.disk.size t₁.elements) room)] ++ [.sync, markOp off, .sync]
    from rfl, hlist] at hc
  have hns : DiskOp.sync ∉ alloc ++ [.write off (recoveryBlob tdb.disk (oldElements tdb.disk.size t₁.elements) room)] := by
    simp [hkind.sync_notMem]
  rcases hc.cases_sync hns with hs | hc
  · exact .inl (survives_unmarked h hp hkind hs)
  have hunmarked := survives_unmarked h hp hkind (Survives.all hns _)
  rw [foldl_append, ← hp.disk] at hc hunmarked
  rcases hc.cases_sync (by simp [markOp]) with hs | hc
  · cases hs with
    | stop => exact .inl hunmarked
    | kept _ _ hs =>
      cases hs
      exact .inr (.inl hp.armed)
    | lostWrite hs =>
      cases hs
      exact .inl hunmarked
  rcases hc.cases_sync (sync_notMem_newOps tdb₁ t₁) with hs | hc
  · exact .inr (.inl (survives_marked hp hp.armed rfl hs))
  rcases hc.cases_sync (by simp [unmarkOp]) with hs | hc
  · cases hs with
    | stop => exact .inr (.inl hp.armed_new)
    | kept _ _ hs =>
      cases hs
      exact .inr (.inr rfl)
    | lostWrite hs =>
      cases hs
      exact .inr (.inl hp.armed_new)
  · exact .inr (.inr hc.nil)

/-- What a crash in the commit can leave, and a crash in a recovery keeps. -/
def CrashOk (old : Disk) (els : List TransactionEl) (off room : Nat) (new d : Disk) : Prop :=
  Pre old off room d ∨ Armed old els off room d ∨ d = new

/-- A file that needs no recovery, and of which a recovery asks nothing. -/
theorem recover_reopen (h : Committing tdb t) {d : Disk} (h48 : 48 ≤ d.size) (hlt : d.size < 2 ^ 32) (hun : Unarmed d) :
    tdbTransactionRecover (reopen tdb d) = .ok () (reopen tdb d) :=
  recover_unarmed (h.reopen_opened hlt) rfl h48 hun

theorem CrashOk.recover (h : Committing tdb t) {els : List TransactionEl} (ha : Area tdb.disk els off room) {new d : Disk}
    (hnew : Unarmed new ∧ 48 ≤ new.size ∧ new.size < 2 ^ 32) (hok : CrashOk tdb.disk els off room new d) :
    ∃ tdb', tdbTransactionRecover (reopen tdb d) = .ok () tdb' ∧
      (Pre tdb.disk off room tdb'.disk ∨ tdb'.disk = new) ∧
      ∀ d', Crash headFirst d tdb'.log d' → CrashOk tdb.disk els off room new d' := by
  have h48 := h.header
  rcases hok with hpre | harm | rfl
  · refine ⟨_, recover_reopen h (by have := hpre.size; omega) hpre.size.2 hpre.unarmed, .inl hpre, fun d' hc => ?_⟩
    rw [hc.nil]
    exact .inl hpre
  · refine ⟨_, recover_armed ha (h.reopen_opened harm.size.2.2) rfl harm, .inl ?_, fun d' hc => ?_⟩
    · simp only [TdbContext.diskOps, foldl_append, foldl_cons, foldl_nil]
      exact clear_done ha (harm.restored ha)
    · rcases crash_recover ha harm hc with hpre | harm
      exacts [.inl hpre, .inr (.inl harm)]
  · refine ⟨_, recover_reopen h hnew.2.1 hnew.2.2 hnew.1, .inr rfl, fun d' hc => ?_⟩
    rw [hc.nil]
    exact .inr (.inr rfl)

end Outermost

/-- What a recovery has to leave of a file: the bytes of the old file, but for the recovery head and the recovery
area, or the file that the commit leaves. -/
def Recovers (tdb : TdbContext) (d : Disk) : Prop :=
  ∃ tdb', tdbTransactionRecover (reopen tdb d) = .ok () tdb' ∧
    ((tdb.disk.size ≤ tdb'.disk.size ∧ ∀ a, a < tdb.disk.size → ¬ InRecovery (after tdbTransactionCommit tdb).disk a →
      tdb'.disk.bytes a = tdb.disk.bytes a) ∨ tdb'.disk = (after tdbTransactionCommit tdb).disk)

theorem recovers_idle (h : Committing tdb t) {ok : Reorder}
    (hidle : t.transactionError = true ∨ t.nesting ≠ 0 ∨ t.elements = []) {d : Disk} (hc : Crashed tdb ok d) :
    Recovers tdb d := by
  obtain ⟨hlog, hdisk⟩ := commit_idle h.inTransaction.transaction hidle
  have hold := h.old_le
  have hrec := recover_reopen h h.header (by have := h.inTransaction.size_lt; omega) h.unarmed
  have hd : d = tdb.disk := by
    induction hc with
    | @commit ops d e hc =>
      rw [hlog] at e
      obtain rfl : ops = [] := by simpa using e.symm
      exact hc.nil
    | recover _ hc ih =>
      rw [ih, after_ok hrec] at hc
      exact hc.nil
  rw [hd]
  exact ⟨_, hrec, .inr hdisk.symm⟩

theorem recovers_outermost (h : Committing tdb t) (herr : t.transactionError = false) (hnest : t.nesting = 0)
    (hne : t.elements ≠ []) {d : Disk} (hc : Crashed tdb headFirst d) : Recovers tdb d := by
  obtain ⟨alloc, tdb₁, t₁, off, room, e, hp, hkind, ecommit⟩ := commit_ok h herr hnest hne
  have harm := hp.armed_new
  have hsize := harm.size
  have h48 := h.header
  have hnew : Unarmed ((newFileMarked tdb.disk tdb₁ t₁ off room).apply (unmarkOp off)) := harm.unmark hp.area
  have hdisk : (after tdbTransactionCommit tdb).disk =
      (newFileMarked tdb.disk tdb₁ t₁ off room).apply (unmarkOp off) := by
    rw [after_ok ecommit]
    simp only [TdbContext.committed, TdbContext.diskOps, foldl_append, newFileMarked]
    rfl
  have hrecover : ∀ d, CrashOk tdb.disk (oldElements tdb.disk.size t₁.elements) off room
      ((newFileMarked tdb.disk tdb₁ t₁ off room).apply (unmarkOp off)) d → _ := fun d hok =>
    hok.recover h hp.area ⟨hnew, show 48 ≤ (newFileMarked tdb.disk tdb₁ t₁ off room).size by omega, hsize.2.2⟩
  have hok : CrashOk tdb.disk (oldElements tdb.disk.size t₁.elements) off room
      ((newFileMarked tdb.disk tdb₁ t₁ off room).apply (unmarkOp off)) d := by
    induction hc with
    | @commit ops d elog hc =>
      rw [after_ok ecommit] at elog
      simp only [TdbContext.committed, TdbContext.diskOps, hp.log, append_assoc, append_cancel_left_eq] at elog
      rw [← elog] at hc
      refine crash_commit h hp hkind ?_
      simpa only [append_assoc] using hc
    | @recover d d' _ hc ih =>
      obtain ⟨tdb', erec, -, hcrash⟩ := hrecover d ih
      rw [after_ok erec] at hc
      exact hcrash d' hc
  obtain ⟨tdb', erec, hleft, -⟩ := hrecover d hok
  refine ⟨tdb', erec, ?_⟩
  rw [hdisk]
  refine hleft.imp_left fun hpre => ⟨hpre.size.1, fun a ha hn => hpre.rest a ha fun hin => hn ?_⟩
  obtain ⟨-, hhead, -, -⟩ := @apply_clearMagic off room hp.area.header.2 (newFileMarked tdb.disk tdb₁ t₁ off room)
  have hrec : recAt false ((newFileMarked tdb.disk tdb₁ t₁ off room).apply (unmarkOp off)).bytes off =
      { recAt false (newFileMarked tdb.disk tdb₁ t₁ off room).bytes off with magic := 0 } := recAt_write_magic (by decide)
  unfold InRecovery
  rw [unmarkOp, hhead, harm.head, ← unmarkOp, hrec, harm.hdr]
  exact hin

/-- A commit is atomic under crashes as long as no crash in a recovery has the disk cut the file back
while it loses the reset of the recovery head: whatever requests are lost, in the commit and in any
number of recoveries after it, the next recovery succeeds and leaves the old contents or the new file. -/
theorem commit_crash_atomic {tdb : TdbContext} {t : Transaction} (h : Committing tdb t) {d : Disk}
    (hc : Crashed tdb headFirst d) : Recovers tdb d := by
  by_cases hidle : t.transactionError = true ∨ t.nesting ≠ 0 ∨ t.elements = []
  · exact recovers_idle h hidle hc
  · simp only [not_or, Bool.not_eq_true, not_not] at hidle
    exact recovers_outermost h hidle.1 hidle.2.1 hidle.2.2 hc

end Crashes

/-! ## A crash that recovery does not survive -/

/-- A new file in a transaction: the extent is the hash table. -/
def startedFile : TdbContext := after tdbTransactionStart newFile

def startedTransaction : Transaction := ⟨[0, 0], [⟨168, List.replicate 8 0⟩], false, 0, 176⟩

theorem startedFile_committing : Committing startedFile startedTransaction := by
  have ht : startedFile.transaction = some startedTransaction := by decide
  have hsize : startedFile.mapSize = 176 ∧ startedFile.disk.size = 176 := by decide
  have hcov : ∀ a, Covered startedTransaction.elements a → 168 ≤ a := by
    rintro a ⟨el, hel, h1, -⟩
    obtain rfl := mem_singleton.mp hel
    exact h1
  refine ⟨⟨by decide, ht, by rw [hsize.1]; decide, ?_⟩, by decide, by decide,
    by decide, by decide, by decide, ⟨12, by decide, by decide⟩, by rw [hsize.2]; rfl,
    by rw [hsize.1, hsize.2], by rw [hsize.2]; decide, fun a _ h2 hc => ?_, by rw [hsize.1]; decide,
    .inl (by decide +kernel)⟩
  · rw [hsize.1]
    exact ⟨by decide, pairwise_singleton .., by decide, by decide, fun a (h1 : 176 ≤ a) h2 => by omega⟩
  · have := hcov a hc
    unfold tdbRecoveryHead at h2
    omega

/-- What its commit asks of the file: up to the first sync, from there to the second, and the rest. -/
def startedLog : List DiskOp := (after tdbTransactionCommit startedFile).log

def startedArea : List DiskOp := startedLog.takeWhile (· ≠ .sync)

def startedRest : List DiskOp := startedLog.drop (startedArea.length + 3)

/-- The file with the mark on and nothing else after it. -/
def markedFile : Disk := (startedArea.foldl Disk.apply startedFile.disk).apply (markOp 176)

example : startedArea ≠ [] := by
  decide +kernel

theorem startedFile_crashed (ok : Reorder) : Crashed startedFile ok markedFile := by
  have hlog : (after tdbTransactionCommit startedFile).log =
      startedFile.log ++ (startedArea ++ .sync :: ([markOp 176] ++ .sync :: startedRest)) := by decide +kernel
  exact .commit hlog (.synced (.synced (.lost .stop)))

/-- A crash with the mark on: the file is recovered. -/
theorem startedFile_recovers : Crashed startedFile headFirst markedFile ∧ Recovers startedFile markedFile :=
  ⟨startedFile_crashed headFirst, commit_crash_atomic startedFile_committing (startedFile_crashed headFirst)⟩

/-- The file that is left when that recovery is cut short, the file has been cut back, and the two writes before
that are lost: the head still points to a recovery area that is no longer there. -/
def cutFile : Disk := (markedFile.apply (.write 168 (List.replicate 8 0))).apply (.truncate 176)

/-- Without an order between the writes of a recovery, a second crash can leave a file that no recovery
succeeds on. -/
theorem startedFile_not_recovers : Committing startedFile startedTransaction ∧ Crashed startedFile anyOrder cutFile ∧
    ¬ Recovers startedFile cutFile := by
  refine ⟨startedFile_committing, ?_, ?_⟩
  · have hlog : (after tdbTransactionRecover (reopen startedFile markedFile)).log =
        [.write 168 (List.replicate 8 0)] ++ .sync ::
          [.write 44 (le32 0), .write 196 (le32 0), .truncate 176, .sync] := by decide +kernel
    refine .recover (startedFile_crashed anyOrder) ?_
    rw [hlog]
    exact .synced (.lost (.lostWrite (.lostWrite (.kept (by simp) trivial .stop))))
  · rintro ⟨tdb', e, -⟩
    have hfail : EStateM.run' tdbTransactionRecover (reopen startedFile cutFile) = none := by decide +kernel
    delta EStateM.run' EStateM.run at hfail
    rw [e] at hfail
    cases hfail

end Samba.Tdb
