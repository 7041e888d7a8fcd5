/-
The write list refines the file: after any in-range writes and expansions of a transaction, the
extents are disjoint, none straddles the old end of file, what a transaction reads is the base
file with the writes applied in program order, and writing the extents in list order gives that
same file.
-/
import Samba.Tdb.Store
import Samba.Tdb.Transaction

namespace Samba.Tdb

open Bytes List

/-! ## Extents over a file -/

/-- The file with the extents written in list order, as the commit writes them. -/
def overlay (base : Mem) (els : List TransactionEl) : Mem :=
  els.foldl (fun m el => write m el.offset el.data) base

/-- The extent and the range do not meet. -/
def TransactionEl.Apart (el : TransactionEl) (off len : Nat) : Prop :=
  el.offset + el.length ≤ off ∨ off + len ≤ el.offset

/-- Some extent holds the byte at `a`. -/
def Covered (els : List TransactionEl) (a : Nat) : Prop :=
  ∃ el ∈ els, el.offset ≤ a ∧ a < el.offset + el.length

/-- What holds of the extents of a transaction on a file of `old` bytes grown to `size`. -/
structure WriteListOk (old size : Nat) (els : List TransactionEl) : Prop where
  nonempty : ∀ el ∈ els, 0 < el.length
  disjoint : els.Pairwise fun a b => a.Apart b.offset b.length
  inRange : ∀ el ∈ els, el.offset + el.length ≤ size
  noStraddle : ∀ el ∈ els, el.offset + el.length ≤ old ∨ old ≤ el.offset
  covered : ∀ a, old ≤ a → a < size → Covered els a

variable {el : TransactionEl} {len off old size size' : Nat} {α : Type} {bs : List UInt8}
  {els post pre : List TransactionEl} {base tdb : TdbContext} {t : Transaction} {file : Mem × Nat}

theorem apart_of_meets_eq_false (h : el.meets off len = false) : el.Apart off len := by
  simp only [TransactionEl.meets, Bool.and_eq_false_iff, Bool.not_eq_false', decide_eq_true_eq] at h
  exact h.symm

theorem overlaps_of_meets (h : el.meets off len = true) : el.offset < off + len ∧ off < el.offset + el.length := by
  simp only [TransactionEl.meets, Bool.and_eq_true, Bool.not_eq_true', decide_eq_false_iff_not,
    Nat.not_le] at h
  exact h

theorem lastIdx?_some {p : α → Bool} {xs : List α} {i : Nat} (h : lastIdx? p xs = some i) :
    ∃ pre x post, xs = pre ++ x :: post ∧ pre.length = i ∧ p x = true := by
  induction xs generalizing i with
  | nil => cases h
  | cons x xs ih =>
    rw [lastIdx?] at h
    split at h
    case h_1 j hj =>
      obtain ⟨pre, y, post, rfl, rfl, hy⟩ := ih hj
      cases h
      exact ⟨x :: pre, y, post, rfl, rfl, hy⟩
    case h_2 =>
      split at h
      · cases h
        exact ⟨[], x, xs, rfl, rfl, by assumption⟩
      · cases h

theorem lastIdx?_none {p : α → Bool} {xs : List α} (h : lastIdx? p xs = none) : ∀ x ∈ xs, p x = false := by
  induction xs with
  | nil => simp
  | cons x xs ih =>
    rw [lastIdx?] at h
    split at h
    · cases h
    case h_2 hn =>
      split at h
      · cases h
      case isFalse hp =>
        intro y hy
        rcases mem_cons.mp hy with rfl | hy
        · simpa using hp
        · exact ih hn y hy

theorem modify_length_append (pre : List α) (x : α) (post : List α) (f : α → α) :
    (pre ++ x :: post).modify pre.length f = pre ++ f x :: post := by
  induction pre with
  | nil => simp
  | cons y pre ih => simp [ih]

/-! ## The file under the extents -/

theorem overlay_append (base : Mem) (els els' : List TransactionEl) :
    overlay base (els ++ els') = overlay (overlay base els) els' := by
  simp [overlay]

theorem overlay_cons (base : Mem) (el : TransactionEl) (els : List TransactionEl) :
    overlay base (el :: els) = overlay (write base el.offset el.data) els := rfl

/-- A write that meets no extent can be made before them or after them. -/
theorem overlay_write (h : ∀ el ∈ els, el.Apart off bs.length) (m : Mem) :
    overlay (write m off bs) els = write (overlay m els) off bs := by
  induction els generalizing m with
  | nil => rfl
  | cons el els ih =>
    rw [overlay_cons, overlay_cons, write_comm (h el (by simp)).symm]
    exact ih (fun e he => h e (by simp [he])) _

/-- Bytes no extent holds are those of the file. -/
theorem overlay_of_not_covered {base : Mem} {a : Nat} (h : ¬ Covered els a) : overlay base els a = base a := by
  induction els generalizing base with
  | nil => rfl
  | cons el els ih =>
    rw [overlay_cons, ih (fun ⟨e, he, hc⟩ => h ⟨e, by simp [he], hc⟩)]
    apply write_of_out
    by_contra hc
    exact h ⟨el, by simp, by unfold TransactionEl.length; omega⟩

/-- Bytes of an extent are those written there last. -/
theorem read_overlay {base : Mem} {k n : Nat}
    (hd : els.Pairwise fun a b => a.Apart b.offset b.length) (hel : el ∈ els) (hn : k + n ≤ el.length) :
    read (overlay base els) (el.offset + k) n = (el.data.drop k).take n := by
  obtain ⟨pre, post, rfl⟩ := append_of_mem hel
  have hpost : ∀ e ∈ post, e.Apart el.offset el.data.length := fun e he =>
    ((pairwise_cons.mp (pairwise_append.mp hd).2.1).1 e he).symm
  unfold TransactionEl.length at hn
  rw [overlay_append, overlay_cons, overlay_write hpost, ← take_read (l := el.data.length - k) (by omega),
    ← drop_read (by omega), read_write_same]

/-! ## One write -/

/-- What writing `bs` at `off` does to a transaction on a file grown to `size`. -/
structure Wrote (size off : Nat) (bs : List UInt8) (t t' : Transaction) : Prop where
  ok : WriteListOk t'.oldMapSize size t'.elements
  oldMapSize : t'.oldMapSize = t.oldMapSize
  nesting : t'.nesting = t.nesting
  transactionError : t'.transactionError = t.transactionError
  overlay : ∀ base, overlay base t'.elements = write (overlay base t.elements) off bs
  covered : ∀ a, Covered t'.elements a ↔ Covered t.elements a ∨ off ≤ a ∧ a < off + bs.length
  /-- Extents that start after the write keep their place in the list. -/
  later : ∀ (i : Nat) (el : TransactionEl), t.elements[i]? = some el → off + bs.length ≤ el.offset → t'.elements[i]? = some el

theorem WriteListOk.disjoint_mid (h : WriteListOk old size (pre ++ el :: post)) :
    (∀ e ∈ pre, e.Apart el.offset el.length) ∧ (∀ e ∈ post, e.Apart el.offset el.length) := by
  have hd := pairwise_append.mp h.disjoint
  exact ⟨fun e he => hd.2.2 e he el (by simp), fun e he => ((pairwise_cons.mp hd.2.1).1 e he).symm⟩

/-- An extent may be replaced by one that meets none of the others. -/
theorem WriteListOk.replace {el' : TransactionEl}
    (h : WriteListOk old size (pre ++ el :: post)) (hpos : 0 < el'.length)
    (hpre : ∀ e ∈ pre, e.Apart el'.offset el'.length) (hpost : ∀ e ∈ post, e.Apart el'.offset el'.length)
    (hsize : size ≤ size') (hrange : el'.offset + el'.length ≤ size')
    (hstraddle : el'.offset + el'.length ≤ old ∨ old ≤ el'.offset)
    (hold : el'.offset = el.offset) (hlen : el.length ≤ el'.length)
    (hcov : ∀ a, size ≤ a → a < size' → el'.offset ≤ a ∧ a < el'.offset + el'.length) :
    WriteListOk old size' (pre ++ el' :: post) := by
  have hmem : ∀ e ∈ pre ++ el' :: post, e = el' ∨ e ∈ pre ++ el :: post := by
    intro e he
    simp only [mem_append, mem_cons] at he ⊢
    tauto
  constructor
  · intro e he
    rcases hmem e he with rfl | he
    exacts [hpos, h.nonempty e he]
  · have hd := pairwise_append.mp h.disjoint
    have hc := pairwise_cons.mp hd.2.1
    refine pairwise_append.mpr ⟨hd.1, pairwise_cons.mpr ⟨fun e he => (hpost e he).symm, hc.2⟩, ?_⟩
    intro a ha b hb
    rcases mem_cons.mp hb with rfl | hb
    exacts [hpre a ha, hd.2.2 a ha b (by simp [hb])]
  · intro e he
    rcases hmem e he with rfl | he
    exacts [hrange, (h.inRange e he).trans hsize]
  · intro e he
    rcases hmem e he with rfl | he
    exacts [hstraddle, h.noStraddle e he]
  · intro a h1 h2
    by_cases ha : a < size
    · obtain ⟨e, he, hc⟩ := h.covered a h1 ha
      simp only [mem_append, mem_cons] at he
      rcases he with he | rfl | he
      · exact ⟨e, by simp [he], hc⟩
      · exact ⟨el', by simp, by omega⟩
      · exact ⟨e, by simp [he], hc⟩
    · exact ⟨el', by simp, hcov a (by omega) h2⟩

/-- A new extent that meets none of the others may be added. -/
theorem WriteListOk.append
    (h : WriteListOk old size els) (hpos : 0 < el.length) (hels : ∀ e ∈ els, e.Apart el.offset el.length)
    (hsize : size ≤ size') (hrange : el.offset + el.length ≤ size')
    (hstraddle : el.offset + el.length ≤ old ∨ old ≤ el.offset)
    (hcov : ∀ a, size ≤ a → a < size' → el.offset ≤ a ∧ a < el.offset + el.length) :
    WriteListOk old size' (els ++ [el]) := by
  constructor
  · simp only [mem_append, mem_singleton]
    rintro e (he | rfl)
    exacts [h.nonempty e he, hpos]
  · refine pairwise_append.mpr ⟨h.disjoint, pairwise_singleton .., ?_⟩
    simpa using hels
  · simp only [mem_append, mem_singleton]
    rintro e (he | rfl)
    exacts [(h.inRange e he).trans hsize, hrange]
  · simp only [mem_append, mem_singleton]
    rintro e (he | rfl)
    exacts [h.noStraddle e he, hstraddle]
  · intro a h1 h2
    by_cases ha : a < size
    · obtain ⟨e, he, hc⟩ := h.covered a h1 ha
      exact ⟨e, by simp [he], hc⟩
    · exact ⟨el, by simp, hcov a (by omega) h2⟩

theorem updateHashHeads_data (hashSize : Nat) (t : Transaction) (off : Nat) (bs : List UInt8) :
    ∃ heads, updateHashHeads hashSize t off (.data bs) = .ok { t with hashHeads := heads } := by
  unfold updateHashHeads
  split
  · exact ⟨_, rfl⟩
  · exact ⟨t.hashHeads, rfl⟩

theorem length_memcpy (h1 : el.offset ≤ off)
    (h2 : off + bs.length ≤ el.offset + el.length) : (el.memcpy off bs).length = el.length := by
  unfold TransactionEl.memcpy TransactionEl.length at *
  simp only [length_append, length_take, length_drop]
  omega

/-- Copying into an extent writes the bytes where they belong. -/
theorem write_memcpy (h1 : el.offset ≤ off) (h2 : off + bs.length ≤ el.offset + el.length) (m : Mem) :
    write m el.offset (el.memcpy off bs).data = write (write m el.offset el.data) off bs := by
  unfold TransactionEl.memcpy TransactionEl.length at *
  obtain ⟨k, rfl⟩ := Nat.exists_eq_add_of_le h1
  simp only [Nat.add_sub_cancel_left]
  have hk : (el.data.take k).length = k := by simp; omega
  have hsplit : el.data = el.data.take k ++ ((el.data.drop k).take bs.length ++ el.data.drop (k + bs.length)) := by
    rw [← drop_drop, take_append_drop, take_append_drop]
  have hmid : ((el.data.drop k).take bs.length).length = bs.length := by simp; omega
  conv_rhs => rw [hsplit]
  rw [append_assoc, write_append, write_append, write_append, write_append, hk, hmid,
    write_comm (a := el.offset + k + bs.length) (b := el.offset + k) (by right; simp)]
  congr 1
  -- the bytes copied over do not show
  funext a
  by_cases ha : el.offset + k ≤ a ∧ a < el.offset + k + bs.length
  · rw [write_of_mem ha.1 (by omega), write_of_mem ha.1 (by omega)]
  · rw [write_of_out (b := bs) (by omega), write_of_out (b := bs) (by omega),
      write_of_out (b := (el.data.drop k).take bs.length) (by omega)]

theorem wrote_memcpy (h : WriteListOk t.oldMapSize size t.elements)
    (hels : t.elements = pre ++ el :: post) (h1 : el.offset ≤ off) (h2 : off + bs.length ≤ el.offset + el.length)
    (hpos : 0 < bs.length) :
    Wrote size off bs t { t with elements := pre ++ el.memcpy off bs :: post } := by
  rw [hels] at h
  have hlen := length_memcpy h1 h2
  obtain ⟨hpre, hpost⟩ := h.disjoint_mid
  have hmem : el ∈ pre ++ el :: post := by simp
  refine ⟨?_, rfl, rfl, rfl, ?_, ?_, ?_⟩
  · exact h.replace (by rw [hlen]; exact h.nonempty _ hmem) (by rw [hlen]; exact hpre) (by rw [hlen]; exact hpost)
      le_rfl (by rw [hlen]; exact h.inRange _ hmem) (by rw [hlen]; exact h.noStraddle _ hmem) rfl
      (by rw [hlen]) (fun a _ _ => by omega)
  · intro base
    have hout : ∀ e ∈ post, e.Apart off bs.length := by
      intro e he
      have := hpost e he
      unfold TransactionEl.Apart at *
      omega
    rw [hels, overlay_append, overlay_append, overlay_cons, overlay_cons, ← overlay_write hout]
    exact congrArg (overlay · post) (write_memcpy h1 h2 _)
  · intro a
    rw [hels]
    constructor
    · rintro ⟨e, he, hc⟩
      simp only [mem_append, mem_cons] at he
      rcases he with he | rfl | he
      · exact .inl ⟨e, by simp [he], hc⟩
      · exact .inl ⟨el, by simp, hlen ▸ hc⟩
      · exact .inl ⟨e, by simp [he], hc⟩
    · rintro (⟨e, he, hc⟩ | hc)
      · simp only [mem_append, mem_cons] at he
        rcases he with he | rfl | he
        · exact ⟨e, by simp [he], hc⟩
        · exact ⟨e.memcpy off bs, by simp, hlen.symm ▸ hc⟩
        · exact ⟨e, by simp [he], hc⟩
      · refine ⟨el.memcpy off bs, by simp, ?_⟩
        rw [hlen]
        exact ⟨h1.trans hc.1, lt_of_lt_of_le hc.2 h2⟩
  · intro i e he hi
    rw [hels] at he
    have hne : i ≠ pre.length := by
      rintro rfl
      simp at he
      subst he
      omega
    rw [← he, List.getElem?_append, List.getElem?_append]
    split
    · rfl
    · rw [List.getElem?_cons, List.getElem?_cons]
      simp [show i - pre.length ≠ 0 by omega]

/-- A write right after an extent that meets no extent may become its end. -/
theorem wrote_extend (h : WriteListOk t.oldMapSize size t.elements)
    (hels : t.elements = pre ++ el :: post) (hend : el.offset + el.length = off)
    (hout : ∀ e ∈ t.elements, e.Apart off bs.length) (hold : off + bs.length < t.oldMapSize ∨ t.oldMapSize < off)
    (hsize : size ≤ size') (hrange : off + bs.length ≤ size')
    (hcov : ∀ a, size ≤ a → a < size' → off ≤ a ∧ a < off + bs.length) :
    Wrote size' off bs t { t with elements := pre ++ { el with data := el.data ++ bs } :: post } := by
  rw [hels] at h hout
  have hmem : el ∈ pre ++ el :: post := by simp
  have hlen : ({ el with data := el.data ++ bs } : TransactionEl).length = el.length + bs.length := by
    simp [TransactionEl.length]
  have hpos := h.nonempty _ hmem
  obtain ⟨hpre, hpost⟩ := h.disjoint_mid
  have hapart : ∀ e : TransactionEl, 0 < e.length → e.Apart off bs.length → e.Apart el.offset el.length →
      e.Apart el.offset (el.length + bs.length) := by
    intro e he h1 h2
    unfold TransactionEl.Apart at *
    omega
  refine ⟨?_, rfl, rfl, rfl, ?_, ?_, ?_⟩
  · refine h.replace (by omega) ?_ ?_ hsize ?_ ?_ rfl (by omega) ?_
    · exact fun e he => hlen ▸ hapart e (h.nonempty e (by simp [he])) (hout e (by simp [he])) (hpre e he)
    · exact fun e he => hlen ▸ hapart e (h.nonempty e (by simp [he])) (hout e (by simp [he])) (hpost e he)
    · rw [hlen]
      simp only
      omega
    · rw [hlen]
      simp only
      have := h.noStraddle _ hmem
      omega
    · intro a h1 h2
      have := hcov a h1 h2
      simp only
      omega
  · intro base
    rw [hels, overlay_append, overlay_append, overlay_cons, overlay_cons,
      ← overlay_write (fun e he => hout e (by simp [he]))]
    simp only [write_append]
    unfold TransactionEl.length at hend
    rw [hend]
  · intro a
    rw [hels]
    constructor
    · rintro ⟨e, he, hc⟩
      simp only [mem_append, mem_cons] at he
      rcases he with he | rfl | he
      · exact .inl ⟨e, by simp [he], hc⟩
      · rw [hlen] at hc
        simp only at hc
        by_cases ha : a < off
        · exact .inl ⟨el, by simp, by omega⟩
        · exact .inr (by omega)
      · exact .inl ⟨e, by simp [he], hc⟩
    · rintro (⟨e, he, hc⟩ | hc)
      · simp only [mem_append, mem_cons] at he
        rcases he with he | rfl | he
        · exact ⟨e, by simp [he], hc⟩
        · refine ⟨_, mem_append_right _ (mem_cons_self ..), ?_⟩
          simp only
          omega
        · exact ⟨e, by simp [he], hc⟩
      · refine ⟨_, mem_append_right _ (mem_cons_self ..), ?_⟩
        simp only
        omega
  · intro i e he hi
    rw [hels] at he
    have hne : i ≠ pre.length := by
      rintro rfl
      simp at he
      subst he
      omega
    rw [← he, List.getElem?_append, List.getElem?_append]
    split
    · rfl
    · rw [List.getElem?_cons, List.getElem?_cons]
      simp [show i - pre.length ≠ 0 by omega]

/-- A write that meets no extent may become an extent of its own. -/
theorem wrote_new (h : WriteListOk t.oldMapSize size t.elements) (hpos : 0 < bs.length)
    (hout : ∀ e ∈ t.elements, e.Apart off bs.length)
    (hold : off + bs.length ≤ t.oldMapSize ∨ t.oldMapSize ≤ off)
    (hsize : size ≤ size') (hrange : off + bs.length ≤ size')
    (hcov : ∀ a, size ≤ a → a < size' → off ≤ a ∧ a < off + bs.length) :
    Wrote size' off bs t { t with elements := t.elements ++ [⟨off, bs⟩] } := by
  refine ⟨h.append hpos hout hsize hrange hold hcov, rfl, rfl, rfl, ?_, ?_, ?_⟩
  · intro base
    rw [overlay_append]
    rfl
  · intro a
    constructor
    · rintro ⟨e, he, hc⟩
      rcases mem_append.mp he with he | he
      · exact .inl ⟨e, he, hc⟩
      · rw [mem_singleton] at he
        subst he
        exact .inr hc
    · rintro (⟨e, he, hc⟩ | hc)
      · exact ⟨e, by simp [he], hc⟩
      · exact ⟨⟨off, bs⟩, by simp, hc⟩
  · intro i e he _
    have hi : i < t.elements.length := (List.getElem?_eq_some_iff.mp he).1
    rw [List.getElem?_append_left hi, he]

/-- Two writes one after the other in the file are one. -/
theorem Wrote.trans {cs : List UInt8} {t₁ t₂ : Transaction}
    (h₁ : Wrote size off bs t t₁) (h₂ : Wrote size (off + bs.length) cs t₁ t₂) :
    Wrote size off (bs ++ cs) t t₂ := by
  refine ⟨h₂.ok, h₂.oldMapSize.trans h₁.oldMapSize, h₂.nesting.trans h₁.nesting,
    h₂.transactionError.trans h₁.transactionError, ?_, ?_, ?_⟩
  · intro base
    rw [h₂.overlay, h₁.overlay, write_append]
  · intro a
    rw [h₂.covered, h₁.covered, length_append, or_assoc]
    constructor <;> rintro (h | h)
    · exact .inl h
    · exact .inr (by omega)
    · exact .inl h
    · exact .inr (by omega)
  · intro i el hi hle
    rw [length_append] at hle
    exact h₂.later i el (h₁.later i el hi (by omega)) (by omega)

theorem wrote_nil (h : WriteListOk t.oldMapSize size t.elements) : Wrote size off [] t t := by
  refine ⟨h, rfl, rfl, rfl, fun base => (write_nil ..).symm, fun a => ?_, fun i el hi _ => hi⟩
  simp only [length_nil, Nat.add_zero, iff_self_or]
  omega

/-- Bytes that no extent holds lie on one side of the old end of file. -/
theorem WriteListOk.side (h : WriteListOk old size els)
    (hpos : 0 < len) (hin : off + len ≤ size) (hout : ∀ e ∈ els, e.Apart off len) : off + len ≤ old := by
  by_contra hc
  obtain ⟨e, he, h1, h2⟩ := h.covered (off + len - 1) (by omega) (by omega)
  have := hout e he
  unfold TransactionEl.Apart at this
  omega

theorem exists_append_of_getElem? {xs : List α} {i : Nat} {x : α} (h : xs[i]? = some x) :
    ∃ pre post, xs = pre ++ x :: post ∧ pre.length = i := by
  obtain ⟨hi, rfl⟩ := List.getElem?_eq_some_iff.mp h
  refine ⟨xs.take i, xs.drop (i + 1), ?_, by simp; omega⟩
  rw [← drop_eq_getElem_cons hi, take_append_drop]

@[simp] theorem WriteBuf.length_content (buf : WriteBuf) : buf.content.length = buf.length := by
  cases buf <;> simp [WriteBuf.content, WriteBuf.length]

/-- Bytes that no extent holds: within the file they lie before its old end, and the file may
also be grown by them. -/
theorem transactionAdd_wrote {size size' : Nat} {t : Transaction} {off : Nat} {buf : WriteBuf}
    (h : WriteListOk t.oldMapSize size t.elements) (hpos : 0 < buf.length)
    (hout : ∀ e ∈ t.elements, e.Apart off buf.length)
    (hold : off + buf.length ≤ t.oldMapSize ∨ t.oldMapSize ≤ off)
    (hsize : size ≤ size') (hrange : off + buf.length ≤ size')
    (hcov : ∀ a, size ≤ a → a < size' → off ≤ a ∧ a < off + buf.length) :
    Wrote size' off buf.content t (transactionAdd t off buf) := by
  rw [← buf.length_content] at hpos hout hold hrange hcov
  unfold transactionAdd
  rw [← buf.length_content]
  split
  case h_1 i hi =>
    obtain ⟨pre, el, post, hels, rfl, hend⟩ := lastIdx?_some hi
    split
    case isTrue hc =>
      rw [hels, modify_length_append]
      exact wrote_extend h hels (by simpa using hend) hout hc hsize hrange hcov
    case isFalse => exact wrote_new h hpos hout hold hsize hrange hcov
  case h_2 => exact wrote_new h hpos hout hold hsize hrange hcov

/-- A write that meets an extent, once shorter writes are known to do what they should. -/
theorem transactionReplace_wrote {go : Transaction → Nat → WriteBuf → Except Stop Transaction}
    (hgo : ∀ (t : Transaction) off cs, WriteListOk t.oldMapSize size t.elements → cs.length < bs.length →
      off + cs.length ≤ size → ∃ t', go t off (.data cs) = .ok t' ∧ Wrote size off cs t t')
    (h : WriteListOk t.oldMapSize size t.elements) (hels : t.elements = pre ++ el :: post)
    (hin : off + bs.length ≤ size) (hbs : 0 < bs.length) (hm1 : el.offset < off + bs.length)
    (hm2 : off < el.offset + el.length) :
    ∃ t', transactionReplace go t pre.length off (.data bs) = .ok t' ∧ Wrote size off bs t t' := by
  have hel : t.elements[pre.length]? = some el := by rw [hels]; simp
  have hget : t.elements.getD pre.length ⟨0, []⟩ = el := by
    rw [getD_eq_getElem?_getD, hel]
    rfl
  have hpos := h.nonempty el (by rw [hels]; simp)
  unfold transactionReplace
  simp only [hget, WriteBuf.take, WriteBuf.drop]
  generalize hhead : el.offset - off = head
  have hheadlen : (bs.take head).length = head := by rw [length_take]; omega
  -- the bytes before the extent, which stays where it is
  have hfirst : ∃ t₁, (if off < el.offset then go t off (.data (bs.take head)) else .ok t) = .ok t₁ ∧
      Wrote size off (bs.take head) t t₁ ∧ t₁.elements[pre.length]? = some el := by
    by_cases hlt : off < el.offset
    · obtain ⟨t₁, e, w⟩ := hgo t off (bs.take head) h (by omega) (by omega)
      exact ⟨t₁, by rw [if_pos hlt, e], w, w.later _ el hel (by omega)⟩
    · have h0 : head = 0 := by omega
      rw [if_neg hlt, h0]
      exact ⟨t, rfl, wrote_nil h, hel⟩
  obtain ⟨t₁, e₁, w₁, hel₁⟩ := hfirst
  obtain ⟨pre₁, post₁, hels₁, hpre₁⟩ := exists_append_of_getElem? hel₁
  rw [e₁]
  simp only [bind, Except.bind]
  -- the bytes inside it
  generalize hcs : bs.drop head = cs
  have hcslen : cs.length = bs.length - head := by rw [← hcs, length_drop]
  generalize hpart : (if off + head + cs.length ≤ el.offset + el.length then cs.length
    else el.offset + el.length - (off + head)) = part
  have hpartlen : 0 < part ∧ part ≤ cs.length ∧ off + head + part ≤ el.offset + el.length := by
    split at hpart <;> omega
  have htake : (cs.take part).length = part := by rw [length_take]; omega
  have w₂ : Wrote size (off + head) (cs.take part) t₁
      { t₁ with elements := pre₁ ++ el.memcpy (off + head) (cs.take part) :: post₁ } :=
    wrote_memcpy w₁.ok hels₁ (by omega) (by omega) (by omega)
  rw [← hpre₁, hels₁, modify_length_append]
  have w₁₂ := w₁.trans (by rw [hheadlen]; exact w₂)
  -- and the bytes after it
  split
  · obtain ⟨t₃, e₃, w₃⟩ := hgo _ (off + head + part) (cs.drop part) w₁₂.ok
      (by rw [length_drop]; omega) (by rw [length_drop]; omega)
    refine ⟨t₃, e₃, ?_⟩
    have := w₁₂.trans (by rw [length_append, hheadlen, htake, ← Nat.add_assoc]; exact w₃)
    rwa [append_assoc, take_append_drop, ← hcs, take_append_drop] at this
  · have hall : bs.take head ++ cs.take part = bs := by
      rw [show cs.take part = cs from take_of_length_le (by omega), ← hcs, take_append_drop]
    rw [hall] at w₁₂
    exact ⟨_, rfl, w₁₂⟩

/-- An in-range write of any length, whatever extents it meets. -/
theorem transactionWrite_data {hashSize fuel : Nat}
    (h : WriteListOk t.oldMapSize size t.elements) (hfuel : bs.length < fuel) (hin : off + bs.length ≤ size) :
    ∃ t', transactionWrite hashSize fuel t off (.data bs) = .ok t' ∧ Wrote size off bs t t' := by
  induction fuel generalizing t off bs with
  | zero => omega
  | succ fuel ih =>
    unfold transactionWrite
    by_cases h0 : bs.length = 0
    · rw [eq_nil_of_length_eq_zero h0]
      exact ⟨t, rfl, wrote_nil h⟩
    rw [if_neg (show (WriteBuf.data bs).length ≠ 0 from h0)]
    obtain ⟨heads, hheads⟩ := updateHashHeads_data hashSize t off bs
    rw [hheads]
    -- the mirror of the hash heads is no part of the argument
    suffices hs : ∃ t', _ ∧ Wrote size off bs { t with hashHeads := heads } t' by
      obtain ⟨t', e, w⟩ := hs
      exact ⟨t', e, w.ok, w.oldMapSize, w.nesting, w.transactionError, w.overlay, w.covered, w.later⟩
    simp only [bind, Except.bind]
    split
    case h_1 i hi =>
      obtain ⟨pre, el, post, hels, rfl, hmeets⟩ := lastIdx?_some hi
      obtain ⟨hm1, hm2⟩ := overlaps_of_meets hmeets
      exact transactionReplace_wrote (fun t off cs hok hlt hsz => ih hok (by omega) hsz) h hels hin
        (Nat.pos_of_ne_zero h0) hm1 hm2
    case h_2 hn =>
      have hpos : 0 < bs.length := Nat.pos_of_ne_zero h0
      have hout : ∀ e ∈ t.elements, e.Apart off bs.length := fun e he =>
        apart_of_meets_eq_false (lastIdx?_none hn e he)
      exact ⟨_, rfl, @transactionAdd_wrote _ _ _ _ (.data bs) h hpos hout (.inl (h.side hpos hin hout)) le_rfl hin
        (fun a _ _ => by omega)⟩

/-- Growing the file adds an extent of pad bytes at its end. -/
theorem transactionWrite_null {hashSize size n : Nat} {t : Transaction}
    (h : WriteListOk t.oldMapSize size t.elements) (hold : t.oldMapSize ≤ size)
    (hheads : freelistTop + tdbHashtableSize hashSize ≤ size) :
    ∃ t', transactionWrite hashSize (n + 1) t size (.null n) = .ok t' ∧
      Wrote (size + n) size (List.replicate n tdbPadByte) t t' := by
  unfold transactionWrite
  by_cases h0 : n = 0
  · subst h0
    exact ⟨t, rfl, wrote_nil h⟩
  have hmeets : lastIdx? (fun el => el.meets size n) t.elements = none := by
    rcases hl : lastIdx? (fun el => el.meets size n) t.elements with _ | i
    · exact hl
    · obtain ⟨pre, el, post, hels, rfl, hm⟩ := lastIdx?_some hl
      have := (overlaps_of_meets hm).2
      have := h.inRange el (by rw [hels]; simp)
      omega
  have hnull : updateHashHeads hashSize t size (.null n) = .ok t := if_neg (by omega)
  rw [if_neg (show (WriteBuf.null n).length ≠ 0 from h0), hnull]
  simp only [bind, Except.bind]
  rw [show (WriteBuf.null n).length = n from rfl, hmeets]
  refine ⟨_, rfl, @transactionAdd_wrote _ _ _ _ (.null n) h (Nat.pos_of_ne_zero h0) ?_ (.inr hold)
    (Nat.le_add_right ..) le_rfl (fun a h1 h2 => ⟨h1, h2⟩)⟩
  exact fun e he => apart_of_meets_eq_false (lastIdx?_none hmeets e he)

/-! ## Reading -/

/-- The context of a transaction with these extents, the file grown to `mapSize`. -/
structure InTransaction (tdb : TdbContext) (t : Transaction) : Prop where
  methods : tdb.methods = .transaction
  transaction : tdb.transaction = some t
  size_lt : tdb.mapSize < 2 ^ 32
  list : WriteListOk t.oldMapSize tdb.mapSize t.elements

theorem tdbOob_transaction (hm : tdb.methods = .transaction)
    (hin : len ≤ tdb.mapSize) : tdbOob (u32 len) tdb = .ok () tdb := by
  have hlt : u32 len ≤ tdb.mapSize := (Nat.mod_le ..).trans hin
  rw [tdbOob, get_bind, hm]
  simp only [transactionOob, get_bind]
  rw [if_pos hlt]
  rfl

theorem ioRead_inTransaction {tdb : TdbContext} {t : Transaction} (h : InTransaction tdb t) {off len : Nat}
    (hin : off + len ≤ tdb.mapSize) : ioRead off len false tdb = .ok (read tdb.disk.bytes off len) tdb := by
  rw [ioRead, bind_ok (tdbOob_transaction h.methods hin)]
  rfl

/-- A read that meets an extent, once shorter reads are known to see the extents over the file. -/
theorem transactionReadEl_eq (h : InTransaction tdb t) {go : Nat → List UInt8 → TdbM (List UInt8)} {buf : List UInt8}
    (hgo : ∀ off' cs, cs.length < buf.length → off' + cs.length ≤ tdb.mapSize →
      go off' cs tdb = .ok (read (overlay tdb.disk.bytes t.elements) off' cs.length) tdb)
    (hel : el ∈ t.elements) (hin : off + buf.length ≤ tdb.mapSize)
    (hm1 : el.offset < off + buf.length) (hm2 : off < el.offset + el.length) :
    transactionReadEl go el off buf false tdb =
      .ok (read (overlay tdb.disk.bytes t.elements) off buf.length) tdb := by
  have hpos := h.list.nonempty el hel
  generalize hm : overlay tdb.disk.bytes t.elements = m at hgo ⊢
  unfold transactionReadEl
  simp only
  generalize hhead : el.offset - off = head
  have hheadlen : (buf.take head).length = head := by rw [length_take]; omega
  -- the bytes before the extent
  have hfirst : (if off < el.offset then attempt (go off (buf.take head)) else pure (some [])) tdb =
      .ok (some (read m off head)) tdb := by
    split
    · rw [attempt_ok (hgo off (buf.take head) (by omega) (by omega)), hheadlen]
    · rw [show head = 0 by omega]
      rfl
  rw [bind_ok hfirst]
  -- the bytes inside it
  generalize hcs : buf.drop head = cs
  have hcslen : cs.length = buf.length - head := by rw [← hcs, length_drop]
  generalize hpart : (if off + head + cs.length ≤ el.offset + el.length then cs.length
    else el.offset + el.length - (off + head)) = part
  have hpartlen : part ≤ cs.length ∧ off + head + part ≤ el.offset + el.length ∧
      (cs.length - part ≠ 0 → 0 < part) := by
    split at hpart <;> omega
  have hin' : (el.data.drop (off + head - el.offset)).take part = read m (off + head) part := by
    rw [← hm, ← read_overlay (k := off + head - el.offset) (n := part) h.list.disjoint hel (by omega)]
    congr 1
    omega
  have hlen' : (read m (off + head) part ++ cs.drop part).length = cs.length := by
    rw [length_append, length_read, length_drop]
    omega
  simp only [convertIf, hin', Bool.false_eq_true, if_false, hlen']
  rw [drop_left' (length_read ..), take_left' (length_read ..)]
  -- and the bytes after it
  have hlast : (if cs.length - part ≠ 0 then attempt (go (off + head + part) (cs.drop part))
      else pure (some [])) tdb = .ok (some (read m (off + head + part) (cs.length - part))) tdb := by
    split
    · rw [attempt_ok (hgo _ (cs.drop part) (by rw [length_drop]; omega) (by rw [length_drop]; omega)),
        length_drop]
    · rw [show cs.length - part = 0 by omega]
      rfl
  rw [bind_ok hlast]
  simp only [pure_apply]
  rw [← read_add, Nat.add_assoc off, ← read_add, show head + part + (cs.length - part) = buf.length by omega]

/-- Reading in a transaction sees the extents over the file, whatever the buffer held. -/
theorem transactionRead_eq {tdb : TdbContext} {t : Transaction} (h : InTransaction tdb t) {fuel off : Nat}
    {buf : List UInt8} (hfuel : buf.length < fuel) (hin : off + buf.length ≤ tdb.mapSize) :
    transactionRead false fuel off buf tdb =
      .ok (read (overlay tdb.disk.bytes t.elements) off buf.length) tdb := by
  induction fuel generalizing off buf with
  | zero => omega
  | succ fuel ih =>
    rw [transactionRead, get_bind, h.transaction]
    cases hf : t.elements.reverse.find? fun el => el.meets off buf.length with
    | none =>
      -- a real read
      simp only [hf]
      rw [ioRead_inTransaction h hin]
      congr 1
      apply read_congr
      intro a h1 h2
      refine (overlay_of_not_covered ?_).symm
      rintro ⟨el, hel, hc⟩
      have hm := List.find?_eq_none.mp hf el (by simpa using hel)
      have := apart_of_meets_eq_false (by simpa using hm)
      unfold TransactionEl.Apart at this
      omega
    | some el =>
      have hel : el ∈ t.elements := by simpa using mem_of_find?_eq_some hf
      have hmeets : el.meets off buf.length = true := by simpa using List.find?_some hf
      obtain ⟨hm1, hm2⟩ := overlaps_of_meets hmeets
      simp only [hf]
      exact transactionReadEl_eq h (fun off' cs hlt hle => ih (by omega) hle) hel hin hm1 hm2

/-! ## Runs of a transaction -/

/-- A call of `tdb->methods` that changes the file: `tdb_write`, or `tdb_expand_file` as
`tdb_expand` makes it. -/
inductive TransactionOp
  | write (off : Nat) (buf : List UInt8)
  | expand (addition : Nat)

/-- What an operation does to the file it is on. -/
def runOp : TransactionOp → TdbM Unit
  | .write off buf => tdbWrite off buf
  | .expand addition => do
    tdbExpandFile (← get).mapSize addition
    modify fun tdb => { tdb with mapSize := u32 (tdb.mapSize + addition) }

def runOps : List TransactionOp → TdbM Unit
  | [] => pure ()
  | op :: ops => do
    runOp op
    runOps ops

/-- What a call is to do to a plain file of this contents and size. -/
def fileOp (file : Mem × Nat) : TransactionOp → Mem × Nat
  | .write off buf => (Bytes.write file.1 off buf, file.2)
  | .expand addition => (Bytes.write file.1 file.2 (List.replicate addition tdbPadByte), file.2 + addition)

/-- The calls stay inside the file, and the file inside 32 bits. -/
def OpsInRange : Nat → List TransactionOp → Prop
  | _, [] => True
  | size, .write off buf :: ops => off + buf.length ≤ size ∧ OpsInRange size ops
  | size, .expand addition :: ops => size + addition < 2 ^ 32 ∧ OpsInRange (size + addition) ops

/-- A database open for writing, with no transaction, whose hash table lies in the file. -/
structure Idle (tdb : TdbContext) : Prop where
  methods : tdb.methods = .io
  transaction : tdb.transaction = none
  readOnly : tdb.readOnly = false
  traverseRead : tdb.traverseRead = false
  internal : tdb.internal = false
  travlocks : tdb.travlocks = []
  heads : freelistTop + tdbHashtableSize tdb.hashSize ≤ tdb.mapSize
  mapSize_le : tdb.mapSize ≤ tdb.disk.size
  size_lt : tdb.disk.size < 2 ^ 32

/-- Looking for an expansion by someone else leaves the size of the file in `map_size`. -/
theorem probe_ioOob {tdb : TdbContext} (hi : tdb.internal = false) (hle : tdb.mapSize ≤ tdb.disk.size)
    (hlt : tdb.disk.size < 2 ^ 32) :
    ∃ r e, attempt (ioOob (u32 (tdb.mapSize + 1))) tdb = .ok r { tdb with mapSize := tdb.disk.size, ecode := e } := by
  unfold ioOob
  have hfile : ¬ tdb.internal = true := by simp [hi]
  by_cases hfull : u32 (tdb.mapSize + 1) ≤ tdb.mapSize
  · have hmap : tdb.mapSize = tdb.disk.size := by unfold u32 at hfull; omega
    refine ⟨some (), tdb.ecode, attempt_ok ?_⟩
    rw [get_bind, if_pos hfull, ← hmap]
    rfl
  by_cases hgrown : tdb.disk.size < u32 (tdb.mapSize + 1)
  · have hmap : tdb.mapSize = tdb.disk.size := by unfold u32 at hgrown; omega
    refine ⟨none, .errIo, attempt_failed ?_⟩
    rw [get_bind, if_neg hfull, if_neg hfile, if_pos hgrown, ← hmap]
    rfl
  · refine ⟨some (), tdb.ecode, attempt_ok ?_⟩
    rw [get_bind, if_neg hfull, if_neg hfile, if_neg hgrown]
    rfl

/-- A transaction on `base` that shows the contents and size of `file`. -/
structure Shows (base : TdbContext) (file : Mem × Nat) (tdb : TdbContext) (t : Transaction) : Prop where
  inTransaction : InTransaction tdb t
  disk : tdb.disk = base.disk
  writable : tdb.readOnly = false ∧ tdb.traverseRead = false
  old : t.oldMapSize = base.disk.size
  size : tdb.mapSize = file.2
  old_le : base.disk.size ≤ file.2
  heads : freelistTop + tdbHashtableSize tdb.hashSize ≤ file.2
  contents : overlay base.disk.bytes t.elements = file.1

theorem ioRead_io (hm : tdb.methods = .io) (hin : off + len ≤ tdb.mapSize)
    (cv : Bool) : ioRead off len cv tdb = .ok (convertIf cv (read tdb.disk.bytes off len)) tdb := by
  have hlt : u32 (off + len) ≤ tdb.mapSize := (Nat.mod_le ..).trans hin
  have hoob : tdbOob (u32 (off + len)) tdb = .ok () tdb := by
    rw [tdbOob, get_bind, hm]
    simp only [ioOob, get_bind]
    rw [if_pos hlt]
    rfl
  rw [ioRead, bind_ok hoob]
  rfl

/-- A started transaction shows the file as it is. -/
theorem tdbTransactionStart_shows (h : Idle tdb) : ∃ tdb' t, tdbTransactionStart tdb = .ok () tdb' ∧
      Shows tdb (tdb.disk.bytes, tdb.disk.size) tdb' t := by
  obtain ⟨r, e, hprobe⟩ := probe_ioOob h.internal h.mapSize_le h.size_lt
  have hread : tdbRead freelistTop (tdbHashtableSize tdb.hashSize) false tdb =
      .ok (read tdb.disk.bytes freelistTop (tdbHashtableSize tdb.hashSize)) tdb := by
    rw [tdbRead, get_bind, h.methods]
    exact ioRead_io h.methods h.heads false
  generalize hheads : read tdb.disk.bytes freelistTop (tdbHashtableSize tdb.hashSize) = heads at hread
  have hlen : heads.length = tdbHashtableSize tdb.hashSize := by rw [← hheads, length_read]
  have hempty : WriteListOk tdb.disk.size tdb.disk.size [] :=
    ⟨by simp, .nil, by simp, by simp, fun a h1 h2 => by omega⟩
  have hle := h.heads.trans h.mapSize_le
  obtain ⟨t, ht, w⟩ : ∃ t, transactionWrite tdb.hashSize (heads.length + 1)
      ⟨wordsOf heads, [], false, 0, tdb.disk.size⟩ freelistTop (.data heads) = .ok t ∧
      Wrote tdb.disk.size freelistTop heads ⟨wordsOf heads, [], false, 0, tdb.disk.size⟩ t :=
    transactionWrite_data hempty (Nat.lt_succ_self _) (by rw [hlen]; exact hle)
  have hold : t.oldMapSize = tdb.disk.size := w.oldMapSize
  refine ⟨{ tdb with mapSize := tdb.disk.size, ecode := e, transaction := some t, methods := .transaction }, t, ?_, ?_⟩
  · rw [tdbTransactionStart, get_bind, if_neg (by simp [h.readOnly, h.internal, h.traverseRead]), h.transaction]
    simp only
    rw [if_neg (by simp [h.travlocks])]
    have hfail : orFail .errIo (tdbRead freelistTop (tdbHashtableSize tdb.hashSize) false) tdb = .ok heads tdb := by
      rw [orFail, bind_ok (attempt_ok hread)]
      rfl
    have hoob : attempt (tdbOob (u32 (tdb.mapSize + 1))) tdb =
        .ok r { tdb with mapSize := tdb.disk.size, ecode := e } := by
      rw [← hprobe]
      simp only [attempt, tdbOob, get_bind, h.methods]
    rw [bind_ok hfail, bind_ok hoob, bind_ok (modify_apply _), transactionMethodWrite, get_bind]
    simp only [WriteBuf.length, ht]
    rfl
  · refine ⟨⟨rfl, rfl, h.size_lt, ?_⟩, rfl, ⟨h.readOnly, h.traverseRead⟩, hold, rfl, le_rfl, hle, ?_⟩
    · exact w.ok
    · rw [w.overlay, ← hheads]
      exact write_read_same ..

theorem Shows.wrote {t' : Transaction} (h : Shows base file tdb t) (w : Wrote size off bs t t') (hsize : file.2 ≤ size)
    (hlt : size < 2 ^ 32) :
    Shows base (write file.1 off bs, size) { tdb with mapSize := size, transaction := some t' } t' :=
  ⟨⟨h.inTransaction.methods, rfl, hlt, w.ok⟩, h.disk, h.writable, w.oldMapSize.trans h.old, rfl,
    h.old_le.trans hsize, h.heads.trans hsize, by rw [w.overlay, h.contents]⟩

/-- One call does to the transaction what it should do to the file. -/
theorem runOp_shows (h : Shows base file tdb t)
    {op : TransactionOp} {ops : List TransactionOp} (hin : OpsInRange file.2 (op :: ops)) :
    ∃ tdb' t', runOp op tdb = .ok () tdb' ∧ Shows base (fileOp file op) tdb' t' ∧
      OpsInRange (fileOp file op).2 ops := by
  have hlist : WriteListOk t.oldMapSize file.2 t.elements := h.size ▸ h.inTransaction.list
  have hlt : file.2 < 2 ^ 32 := h.size ▸ h.inTransaction.size_lt
  cases op with
  | write off bs =>
    obtain ⟨t', e, w⟩ : ∃ t', transactionWrite tdb.hashSize (bs.length + 1) t off (.data bs) = .ok t' ∧
        Wrote file.2 off bs t t' := transactionWrite_data hlist (Nat.lt_succ_self _) hin.1
    refine ⟨{ tdb with transaction := some t' }, t', ?_, ?_, hin.2⟩
    · simp only [runOp, tdbWrite, transactionMethodWrite, get_bind, h.inTransaction.methods,
        h.inTransaction.transaction, WriteBuf.length, e]
      rfl
    · have hs := h.wrote w le_rfl hlt
      have hmap : ({ tdb with mapSize := file.2, transaction := some t' } : TdbContext) =
        { tdb with transaction := some t' } := by rw [← h.size]
      rwa [hmap] at hs
  | expand n =>
    obtain ⟨t', e, w⟩ : ∃ t', transactionWrite tdb.hashSize (n + 1) t file.2 (.null n) = .ok t' ∧
        Wrote (file.2 + n) file.2 (List.replicate n tdbPadByte) t t' :=
      transactionWrite_null hlist (h.old ▸ h.old_le) h.heads
    refine ⟨{ tdb with mapSize := file.2 + n, transaction := some t' }, t', ?_, ?_, hin.2⟩
    · have hexpand : tdbExpandFile file.2 n tdb = .ok () { tdb with transaction := some t' } := by
        simp only [tdbExpandFile, transactionExpandFile, transactionMethodWrite, get_bind, h.inTransaction.methods,
          h.inTransaction.transaction, WriteBuf.length, e]
        rfl
      rw [runOp, get_bind, h.size, bind_ok hexpand, modify_apply]
      simp only [h.size, u32, Nat.mod_eq_of_lt hin.1]
    · exact h.wrote w (Nat.le_add_right ..) hin.1

theorem runOps_shows {ops : List TransactionOp} (h : Shows base file tdb t) (hin : OpsInRange file.2 ops) :
    ∃ tdb' t', runOps ops tdb = .ok () tdb' ∧ Shows base (ops.foldl fileOp file) tdb' t' := by
  induction ops generalizing tdb file t with
  | nil => exact ⟨tdb, t, rfl, h⟩
  | cons op ops ih =>
    obtain ⟨tdb₁, t₁, e₁, h₁, hin₁⟩ := runOp_shows h hin
    obtain ⟨tdb', t', e', h'⟩ := ih h₁ hin₁
    exact ⟨tdb', t', by rw [runOps, bind_ok e₁, e'], h'⟩

theorem ioWrite_inTransaction {tdb : TdbContext} (hm : tdb.methods = .transaction)
    (hw : tdb.readOnly = false ∧ tdb.traverseRead = false) {off : Nat} {bs : List UInt8}
    (hpos : 0 < bs.length) (hin : off + bs.length ≤ tdb.mapSize) :
    ioWrite off bs tdb =
      .ok () { tdb with disk := tdb.disk.apply (.write off bs), log := tdb.log ++ [.write off bs] } := by
  rw [ioWrite, get_bind, if_neg (by omega), if_neg (by simp [hw.1, hw.2]),
    bind_ok (tdbOob_transaction hm hin)]
  rfl

/-- The writes of the commit put the extents into the file in list order. -/
theorem commitWrites_eq (hm : tdb.methods = .transaction)
    (hw : tdb.readOnly = false ∧ tdb.traverseRead = false) (hpos : ∀ el ∈ els, 0 < el.length)
    (hin : ∀ el ∈ els, el.offset + el.length ≤ tdb.mapSize) :
    ∃ els' : List TransactionEl → List TransactionEl, commitWrites els tdb = .ok () { tdb with
      disk := { tdb.disk with bytes := overlay tdb.disk.bytes els }
      log := tdb.log ++ els.map fun el => .write el.offset el.data
      transaction := tdb.transaction.map fun t => { t with elements := els' t.elements } } := by
  induction els generalizing tdb with
  | nil =>
    refine ⟨id, ?_⟩
    simp only [map_nil, append_nil, id, Option.map_id']
    rfl
  | cons el els ih =>
    have hwrite := ioWrite_inTransaction hm hw (hpos el (by simp)) (hin el (by simp))
    obtain ⟨els', e⟩ := @ih { tdb with
        disk := tdb.disk.apply (.write el.offset el.data), log := tdb.log ++ [.write el.offset el.data]
        transaction := tdb.transaction.map fun t => { t with elements := els } }
      hm hw (fun e he => hpos e (by simp [he])) (fun e he => hin e (by simp [he]))
    refine ⟨fun _ => els' els, ?_⟩
    rw [commitWrites, bind_ok (attempt_ok hwrite)]
    simp only
    rw [bind_ok (modify_apply _), e]
    simp only [map_cons, append_assoc, singleton_append, Option.map_map]
    rfl

/-- The write list refines the file: after any in-range calls, in-range reads see the file with the
calls applied in program order, the extents are disjoint and do not straddle the old end of file,
and writing them in list order gives that file. -/
theorem transaction_refines_file {tdb : TdbContext} (h : Idle tdb) {ops : List TransactionOp}
    (hin : OpsInRange tdb.disk.size ops) :
    ∃ tdb₀ tdb₁ t, tdbTransactionStart tdb = .ok () tdb₀ ∧ runOps ops tdb₀ = .ok () tdb₁ ∧
      tdb₁.transaction = some t ∧
      tdb₁.mapSize = (ops.foldl fileOp (tdb.disk.bytes, tdb.disk.size)).2 ∧
      (∀ off buf, off + buf.length ≤ tdb₁.mapSize → transactionRead false (buf.length + 1) off buf tdb₁ =
        .ok (read (ops.foldl fileOp (tdb.disk.bytes, tdb.disk.size)).1 off buf.length) tdb₁) ∧
      t.elements.Pairwise (fun a b => a.offset + a.length ≤ b.offset ∨ b.offset + b.length ≤ a.offset) ∧
      (∀ el ∈ t.elements, el.offset + el.length ≤ tdb.disk.size ∨ tdb.disk.size ≤ el.offset) ∧
      ∃ tdb₂, commitWrites t.elements tdb₁ = .ok () tdb₂ ∧
        tdb₂.disk.bytes = (ops.foldl fileOp (tdb.disk.bytes, tdb.disk.size)).1 := by
  obtain ⟨tdb₀, t₀, e₀, h₀⟩ := tdbTransactionStart_shows h
  obtain ⟨tdb₁, t, e₁, h₁⟩ := runOps_shows h₀ hin
  have hlist := h₁.inTransaction.list
  obtain ⟨t₂, e₂⟩ := commitWrites_eq h₁.inTransaction.methods h₁.writable hlist.nonempty hlist.inRange
  refine ⟨tdb₀, tdb₁, t, e₀, e₁, h₁.inTransaction.transaction, h₁.size, ?_, hlist.disjoint, ?_, _, e₂, ?_⟩
  · intro off buf hoff
    rw [transactionRead_eq h₁.inTransaction (Nat.lt_succ_self _) hoff, h₁.disk, h₁.contents]
  · rw [← h₁.old]
    exact hlist.noStraddle
  · simp only
    rw [h₁.disk, h₁.contents]

/-- A new file database, where memory beyond it is zero. -/
def newFile : TdbContext :=
  tdbNewDatabase ⟨1, false, false, false, false, true, fun _ => 0, 4096, 0⟩ fun _ => 0

/-- Writes inside, up to and across the end of a file. -/
def crossingWrites : List TransactionOp :=
  [.write 170 [1, 2, 3], .expand 4, .write 174 [9, 8, 7, 6], .write 172 [5]]

theorem newFile_refines : ∃ tdb₀ tdb₁,
    tdbTransactionStart newFile = .ok () tdb₀ ∧ runOps crossingWrites tdb₀ = .ok () tdb₁ ∧
    transactionRead false 11 170 (List.replicate 10 0) tdb₁ = .ok [1, 2, 5, 0, 9, 8, 7, 6, 0x42, 0x42] tdb₁ := by
  have hidle : Idle newFile := ⟨rfl, rfl, rfl, rfl, rfl, rfl, by decide, by decide, by decide⟩
  have hin : OpsInRange newFile.disk.size crossingWrites := ⟨by decide, by decide, by decide, by decide, trivial⟩
  obtain ⟨tdb₀, tdb₁, t, e₀, e₁, -, hsize, hread, -⟩ := transaction_refines_file hidle hin
  have hfile : read (crossingWrites.foldl fileOp (newFile.disk.bytes, newFile.disk.size)).1 170 10 =
      [1, 2, 5, 0, 9, 8, 7, 6, 0x42, 0x42] := by decide
  refine ⟨tdb₀, tdb₁, e₀, e₁, (hread 170 (List.replicate 10 0) ?_).trans (congrArg (EStateM.Result.ok · tdb₁) hfile)⟩
  rw [hsize]
  decide

end Samba.Tdb
