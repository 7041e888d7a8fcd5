/-
The reads of `ltdb_unpack_data` (lib/ldb/ldb_tdb/ldb_pack.c) against the end of the buffer. Names and counts are looked for
with ten bytes in hand, but the length word of a value is read whatever is left, and `remaining-5`, which bounds the value,
wraps around where less than five bytes are left. A record is unpacked inside its buffer exactly when it has room for every
value that it comes to.
-/
import Samba.Ldb.Pack
import Mathlib.Logic.Relation
import Mathlib.Tactic

namespace Samba.Ldb

open Bytes CString List

/-! ## The parts of a record -/

/-- A part of a record that is still to come, with the buffer from there on: an element, or a value of an element. -/
inductive Part
  | element (elements : Nat) (p : List UInt8)
  | value (values elements : Nat) (p : List UInt8)

/-- `remaining`, an `unsigned`. -/
def remainingOf (p : List UInt8) : Nat := p.length % 2 ^ 32

/-- The first four bytes. -/
def word (p : List UInt8) : Nat := leNat (p.take 4)

/-- The part behind a part, where nothing of it makes the unpacking fail. -/
inductive Part.Next : Part → Part → Prop
  | element {elements : Nat} {name p : List UInt8} : (0 : UInt8) ∉ name → 10 ≤ remainingOf (name ++ 0 :: p) →
      name.length < remainingOf (name ++ 0 :: p) - 6 → talloc (name.length + 1) = .ok () →
      (word p ≠ 0 → tallocArray sizeofLdbVal (word p) = .ok ()) →
      Next (.element (elements + 1) (name ++ 0 :: p)) (.value (word p) elements (p.drop 4))
  | value {values elements : Nat} {p : List UInt8} : 5 ≤ p.length → word p ≤ sub32 (remainingOf p) 5 →
      talloc (word p + 1) = .ok () →
      Next (.value (values + 1) elements p) (.value values elements (p.drop (word p + 5)))
  | last {elements : Nat} {p : List UInt8} : Next (.value 0 elements p) (.element elements p)

/-- The elements of a record, behind its header and its DN. -/
inductive Part.First (data : List UInt8) : Part → Prop
  | nodn : 8 ≤ data.length → word data = ltdbPackingFormatNodn →
      word (data.drop 4) ≤ remainingOf (data.drop 8) / 6 →
      tallocArray sizeofLdbMessageElement (word (data.drop 4)) = .ok () →
      First data (.element (word (data.drop 4)) (data.drop 8))
  | dn {text p : List UInt8} : 8 ≤ data.length → word data = ltdbPackingFormat → data.drop 8 = text ++ 0 :: p →
      (0 : UInt8) ∉ text → text.length < remainingOf (data.drop 8) → talloc (text.length + 1) = .ok () →
      word (data.drop 4) ≤ remainingOf p / 6 →
      tallocArray sizeofLdbMessageElement (word (data.drop 4)) = .ok () →
      First data (.element (word (data.drop 4)) p)

/-- The buffer has room for a value, `values` more of its element and `elements` more elements: for its length word and its
NUL, or for the length word alone if talloc has no block of that length, or it is zero and nothing follows. -/
def ValueInside (values elements : Nat) (p : List UInt8) : Prop :=
  5 ≤ p.length ∨
    (p.length = 4 ∧ (talloc (word p + 1) ≠ .ok () ∨ (word p = 0 ∧ values = 0 ∧ elements = 0)))

/-- There is room for all values from a part of the record on. -/
def Part.Inside (part : Part) : Prop :=
  ∀ values elements p, Relation.ReflTransGen Part.Next part (.value (values + 1) elements p) →
    ValueInside values elements p

/-! ## What stands behind a part -/

theorem Part.Inside.next {a b : Part} (h : a.Inside) (hn : a.Next b) : b.Inside :=
  fun values elements p hr => h values elements p (.head hn hr)

variable {elements remaining values : Nat} {p : List UInt8}

theorem Part.inside_value_zero : (Part.value 0 elements p).Inside ↔ (Part.element elements p).Inside := by
  constructor
  · exact fun h => h.next .last
  · intro h values elements' p' hr
    rcases Relation.ReflTransGen.cases_head hr with heq | ⟨b, hn, hr⟩
    · cases heq
    · cases hn
      exact h values elements' p' hr

theorem Part.inside_value_succ : (Part.value (values + 1) elements p).Inside ↔ ValueInside values elements p ∧
      (5 ≤ p.length → word p ≤ sub32 (remainingOf p) 5 → talloc (word p + 1) = .ok () →
        (Part.value values elements (p.drop (word p + 5))).Inside) := by
  constructor
  · exact fun h => ⟨h values elements p .refl, fun h5 hlen htalloc => h.next (.value h5 hlen htalloc)⟩
  · rintro ⟨hv, hnext⟩ values' elements' p' hr
    rcases Relation.ReflTransGen.cases_head hr with heq | ⟨b, hn, hr⟩
    · cases heq
      exact hv
    · cases hn with
      | value h5 hlen htalloc => exact hnext h5 hlen htalloc values' elements' p' hr

theorem text_unique {text text' p' : List UInt8} (h : text ++ 0 :: p = text' ++ 0 :: p') (h0 : (0 : UInt8) ∉ text)
    (h0' : (0 : UInt8) ∉ text') : text = text' ∧ p = p' := by
  induction text generalizing text' with
  | nil =>
    cases text' with
    | nil => exact ⟨rfl, tail_eq_of_cons_eq h⟩
    | cons c text' => exact absurd (head_eq_of_cons_eq h ▸ mem_cons_self) h0'
  | cons c text ih =>
    cases text' with
    | nil => exact absurd (head_eq_of_cons_eq h ▸ mem_cons_self) h0
    | cons c' text' =>
      rw [cons_append, cons_append] at h
      obtain ⟨rfl, htail⟩ := cons_eq_cons.mp h
      obtain ⟨rfl, rfl⟩ := ih htail (fun hm => h0 (mem_cons_of_mem _ hm)) fun hm => h0' (mem_cons_of_mem _ hm)
      exact ⟨rfl, rfl⟩

theorem Part.inside_element_zero (p : List UInt8) : (Part.element 0 p).Inside := by
  intro values elements p' hr
  rcases Relation.ReflTransGen.cases_head hr with heq | ⟨b, hn, _⟩
  · cases heq
  · cases hn

/-! ## Errors -/

theorem ok_bind {α β : Type} (a : α) (f : α → Except UnpackError β) : (Except.ok a >>= f) = f a := rfl

theorem talloc_error {size : Nat} (h : talloc size ≠ .ok ()) : talloc size = .error .enomem := by
  unfold talloc at h ⊢
  split at h
  · rename_i hlimit
    rw [if_pos hlimit]
  · exact absurd rfl h

theorem tallocArray_error {elSize count : Nat} (h : tallocArray elSize count ≠ .ok ()) :
    tallocArray elSize count = .error .enomem := by
  unfold tallocArray at h ⊢
  split at h
  · rename_i hlimit
    rw [if_pos hlimit]
  · rename_i hlimit
    rw [if_neg hlimit, talloc_error h]

theorem pullUint32_ok (h : 4 ≤ p.length) : pullUint32 p = .ok (word p) := if_neg (Nat.not_lt.mpr h)

theorem lt_of_talloc {size : Nat} (h : talloc size = .ok ()) : size < tallocLimit := by
  unfold talloc at h
  split at h
  · cases h
  · omega

theorem word_lt (p : List UInt8) : word p < 2 ^ 32 := by
  have := leNat_lt (p.take 4)
  have hlen : (p.take 4).length ≤ 4 := by
    rw [length_take]
    exact Nat.min_le_left _ _
  exact this.trans_le (by simpa using Nat.pow_le_pow_right (by decide : 0 < 256) hlen)

/-- `remaining` follows the buffer, as long as it is not left. -/
theorem sub32_remainingOf {n : Nat} (h : n ≤ p.length) : sub32 (remainingOf p) n = remainingOf (p.drop n) := by
  unfold sub32 remainingOf
  rw [length_drop]
  split <;> omega

/-- Inside the buffer `strnlen` finds a NUL below its bound, or returns the bound. -/
theorem strnlen_inside {n : Nat} (h : n ≤ p.length) :
    (∃ text q, p = text ++ 0 :: q ∧ (0 : UInt8) ∉ text ∧ text.length < n) ∨ strnlen p n = .ok n := by
  by_cases h0 : (0 : UInt8) ∈ p.take n
  · obtain ⟨text, q, hsplit, hnot⟩ := eq_append_cons_of_mem h0
    refine Or.inl ⟨text, q ++ p.drop n, ?_, hnot, ?_⟩
    · rw [← cons_append, ← append_assoc, ← hsplit, take_append_drop]
    · have hlen := congrArg List.length hsplit
      rw [length_take, length_append, length_cons] at hlen
      omega
  · have htake : (p.take n).takeWhile (· ≠ 0) = p.take n := by
      rw [takeWhile_eq_self_iff]
      intro c hc
      simpa using fun e : c = 0 => h0 (e ▸ hc)
    have hlen : (p.take n).length = n := by rw [length_take, Nat.min_eq_left h]
    refine Or.inr ?_
    rw [strnlen]
    simp only [htake, hlen]
    rw [if_neg (by omega)]

/-! ## Reading the parts -/

/-- The values still to come of an element and the elements behind it, read from `p` on. -/
def readValues (values elements : Nat) (p : List UInt8) (remaining : Nat) : Except UnpackError (List MessageElement) := do
  let (_, p, remaining) ← unpackValues values p remaining
  unpackElements elements p remaining

theorem readValues_zero (elements : Nat) (p : List UInt8) (remaining : Nat) :
    readValues 0 elements p remaining = unpackElements elements p remaining := rfl

theorem readValues_succ_overrun_iff : readValues (values + 1) elements p remaining = .error .overrun ↔
      p.length < 4 ∨ (4 ≤ p.length ∧ word p ≤ sub32 remaining 5 ∧ talloc (word p + 1) = .ok () ∧
        (p.length < 4 + word p ∨
          readValues values elements (p.drop (word p + 5)) (sub32 remaining (word p + 5)) = .error .overrun)) := by
  rw [readValues, unpackValues]
  rcases Nat.lt_or_ge p.length 4 with h4 | h4
  · rw [show pullUint32 p = .error .overrun from if_pos h4]
    exact iff_of_true rfl (Or.inl h4)
  rw [or_iff_right (by omega), and_iff_right h4, pullUint32_ok h4]
  simp only [bind, Except.bind]
  by_cases hroom : word p ≤ sub32 remaining 5
  · rw [if_neg (by omega), and_iff_right hroom]
    by_cases htalloc : talloc (word p + 1) = .ok ()
    · rw [htalloc, and_iff_right rfl]
      dsimp only
      by_cases hlen : p.length < 4 + word p
      · rw [if_pos hlen]
        exact iff_of_true rfl (Or.inl hlen)
      · rw [if_neg hlen, or_iff_right hlen, readValues]
        simp only [bind, Except.bind, Nat.add_assoc, Nat.reduceAdd]
        cases unpackValues values (p.drop (word p + 5)) (sub32 remaining (word p + 5)) with
        | error e => rfl
        | ok r => rfl
    · rw [talloc_error htalloc]
      exact iff_of_false (by rintro ⟨⟩) fun h => absurd h.1 (by rintro ⟨⟩)
  · rw [if_pos (by omega)]
    simp [hroom]

/-- The end of the loop over the elements, behind the count of values. -/
theorem readValues_overrun_iff (name : Text) :
    ((unpackValues values p remaining >>= fun v => pure ((⟨name, v.1⟩ : MessageElement), v.2)) >>=
      fun v => unpackElements elements v.2.1 v.2.2 >>= fun els => pure (v.1 :: els)) = .error .overrun ↔
      readValues values elements p remaining = .error .overrun := by
  rw [readValues]
  cases unpackValues values p remaining with
  | error e => simp [bind, Except.bind]
  | ok v =>
    simp only [bind, Except.bind, pure, Except.pure]
    cases unpackElements elements v.2.1 v.2.2 with
    | error e => rfl
    | ok els => simp

theorem unpackElements_succ_overrun_iff : unpackElements (elements + 1) p remaining = .error .overrun ↔
      10 ≤ remaining ∧ (strnlen p (remaining - 6) = .error .overrun ∨ ∃ len, strnlen p (remaining - 6) = .ok len ∧
        len ≠ remaining - 6 ∧ talloc (len + 1) = .ok () ∧ ((p.drop (len + 1)).length < 4 ∨
          (4 ≤ (p.drop (len + 1)).length ∧
            (word (p.drop (len + 1)) ≠ 0 → tallocArray sizeofLdbVal (word (p.drop (len + 1))) = .ok ()) ∧
            readValues (word (p.drop (len + 1))) elements ((p.drop (len + 1)).drop 4)
              (sub32 (sub32 remaining (len + 1)) 4) = .error .overrun))) := by
  rw [unpackElements, unpackElement]
  rcases Nat.lt_or_ge remaining 10 with h10 | h10
  · rw [if_pos h10]
    simp [bind, Except.bind, Nat.not_le.mpr h10]
  rw [if_neg (Nat.not_lt.mpr h10), and_iff_right h10]
  cases hname : strnlen p (remaining - 6) with
  | error e => simp [bind, Except.bind]
  | ok len =>
    simp only [ok_bind, reduceCtorEq, false_or, Except.ok.injEq, exists_eq_left']
    by_cases hlen : len = remaining - 6
    · rw [if_pos hlen]
      simp [bind, Except.bind, hlen]
    · rw [if_neg hlen, and_iff_right hlen]
      by_cases htalloc : talloc (len + 1) = .ok ()
      · rw [htalloc, and_iff_right rfl]
        generalize p.drop (len + 1) = q
        rcases Nat.lt_or_ge q.length 4 with h4 | h4
        · rw [show pullUint32 q = .error .overrun from if_pos h4]
          exact iff_of_true rfl (Or.inl h4)
        rw [or_iff_right (by omega), and_iff_right h4, pullUint32_ok h4]
        simp only [ok_bind]
        by_cases harray : word q ≠ 0 → tallocArray sizeofLdbVal (word q) = .ok ()
        · rw [and_iff_right harray]
          by_cases hz : word q ≠ 0
          · rw [if_pos hz, harray hz]
            exact readValues_overrun_iff _
          · rw [if_neg hz]
            exact readValues_overrun_iff _
        · obtain ⟨hz, hfail⟩ := Classical.not_imp.mp harray
          rw [if_pos hz, tallocArray_error hfail]
          exact iff_of_false (by rintro ⟨⟩) fun h => absurd (h.1 hz) (by rintro ⟨⟩)
      · rw [talloc_error htalloc]
        exact iff_of_false (by rintro ⟨⟩) fun h => absurd h.1 (by rintro ⟨⟩)

/-! ## The parts of a record and the end of its buffer -/

theorem remainingOf_le (p : List UInt8) : remainingOf p ≤ p.length := Nat.mod_le _ _

/-- Behind the end of the buffer everything that is read is outside. -/
theorem readValues_past (h : 10 ≤ remaining) :
    readValues values elements [] remaining = .error .overrun ↔ ¬(values = 0 ∧ elements = 0) := by
  cases values with
  | zero =>
    rw [readValues_zero]
    cases elements with
    | zero => exact iff_of_false (by rintro ⟨⟩) fun hn => hn ⟨rfl, rfl⟩
    | succ elements =>
      refine iff_of_true (unpackElements_succ_overrun_iff.mpr ⟨h, Or.inl ?_⟩) (by omega)
      rw [strnlen]
      simp only [take_nil, takeWhile_nil, length_nil]
      rw [if_pos ⟨trivial, by omega⟩]
  | succ values => exact iff_of_true (readValues_succ_overrun_iff.mpr (Or.inl (by decide))) (by omega)

/-- If the elements behind an element are unpacked inside exactly where there is room for them, then so is the element. -/
theorem readValues_inside_iff
    (hels : ∀ p, unpackElements elements p (remainingOf p) ≠ .error .overrun ↔ (Part.element elements p).Inside)
    (values : Nat) (p : List UInt8) :
    readValues values elements p (remainingOf p) ≠ .error .overrun ↔ (Part.value values elements p).Inside := by
  induction values generalizing p with
  | zero => rw [readValues_zero, Part.inside_value_zero, hels]
  | succ values ih =>
    rw [Part.inside_value_succ, Ne, readValues_succ_overrun_iff]
    rcases Nat.lt_trichotomy p.length 4 with h4 | h4 | h4
    · refine iff_of_false (fun h => h (Or.inl h4)) fun h => ?_
      rcases h.1 with h5 | ⟨h4', _⟩ <;> omega
    · -- the bound on the value has wrapped around
      have hroom : sub32 (remainingOf p) 5 = 2 ^ 32 - 1 := by
        unfold remainingOf sub32
        rw [h4]
        rfl
      have hword := word_lt p
      rw [hroom, or_iff_right h4.not_lt, and_iff_right h4.ge, and_iff_right (by omega : word p ≤ 2 ^ 32 - 1),
        and_iff_left fun h5 : 5 ≤ p.length => absurd h5 (by omega), ValueInside,
        or_iff_right (by omega : ¬5 ≤ p.length), and_iff_right h4]
      by_cases htalloc : talloc (word p + 1) = .ok ()
      · rw [and_iff_right htalloc, or_iff_right (not_not_intro htalloc)]
        by_cases hzero : word p = 0
        · have hdrop : p.drop (word p + 5) = [] := drop_of_length_le (by omega)
          have hwrapped : sub32 (remainingOf p) (word p + 5) = 2 ^ 32 - 1 := by rw [hzero, Nat.zero_add, hroom]
          rw [or_iff_right (by omega : ¬p.length < 4 + word p), hdrop, hwrapped, readValues_past (by decide), not_not,
            and_iff_right hzero]
        · exact iff_of_false (fun h => h (Or.inl (by omega))) fun h => hzero h.1
      · exact iff_of_true (fun h => htalloc h.1) (Or.inl htalloc)
    · have hinside : ValueInside values elements p := Or.inl h4
      rw [or_iff_right (by omega : ¬p.length < 4), and_iff_right (by omega : 4 ≤ p.length), and_iff_right hinside]
      by_cases hroom : word p ≤ sub32 (remainingOf p) 5
      · by_cases htalloc : talloc (word p + 1) = .ok ()
        · have hlen : word p + 5 ≤ p.length := by
            have hlimit := lt_of_talloc htalloc
            unfold sub32 remainingOf at hroom
            unfold tallocLimit at hlimit
            split at hroom <;> omega
          rw [and_iff_right hroom, and_iff_right htalloc, or_iff_right (by omega : ¬p.length < 4 + word p),
            sub32_remainingOf hlen]
          rw [forall_prop_of_true (by omega : 5 ≤ p.length), forall_prop_of_true hroom, forall_prop_of_true htalloc]
          exact ih _
        · exact iff_of_true (fun h => htalloc h.2.1) fun _ _ h => absurd h htalloc
      · exact iff_of_true (fun h => hroom h.1) fun _ h => absurd h hroom

/-- From a boundary between elements on, no read leaves the buffer exactly when there is room for the values. -/
theorem unpackElements_inside_iff (elements : Nat) (p : List UInt8) :
    unpackElements elements p (remainingOf p) ≠ .error .overrun ↔ (Part.element elements p).Inside := by
  induction elements generalizing p with
  | zero => exact iff_of_true nofun (Part.inside_element_zero p)
  | succ elements ih =>
    have hle := remainingOf_le p
    rw [Ne, unpackElements_succ_overrun_iff]
    by_cases h10 : 10 ≤ remainingOf p
    · rw [and_iff_right h10]
      rcases strnlen_inside (by omega : remainingOf p - 6 ≤ p.length) with ⟨name, q, rfl, h0, hlen⟩ | hnone
      · have hname := strnlen_text h0 q hlen
        have hdrop : (name ++ 0 :: q).drop (name.length + 1) = q := by simp [drop_append]
        have hlength : (name ++ 0 :: q).length = name.length + 1 + q.length := by
          rw [length_append, length_cons]
          omega
        have hleft : sub32 (sub32 (remainingOf (name ++ 0 :: q)) (name.length + 1)) 4 = remainingOf (q.drop 4) := by
          rw [sub32_remainingOf (by omega), hdrop, sub32_remainingOf (by omega)]
        simp only [hname, reduceCtorEq, false_or, Except.ok.injEq, exists_eq_left', hdrop, hleft]
        rw [and_iff_right (by omega : name.length ≠ _), or_iff_right (by omega),
          and_iff_right (by omega : 4 ≤ q.length)]
        constructor
        · intro h values els p' hr
          rcases Relation.ReflTransGen.cases_head hr with heq | ⟨b, hn, hrest⟩
          · cases heq
          · generalize hp : name ++ 0 :: q = p at hn
            cases hn with
            | @element _ name' q' h0' _ hlen' htalloc harray =>
              obtain ⟨rfl, rfl⟩ := text_unique hp.symm h0' h0
              refine (readValues_inside_iff ih _ _).mp ?_ values els p' hrest
              exact fun hover => h ⟨htalloc, harray, hover⟩
        · rintro h ⟨htalloc, harray, hover⟩
          exact (readValues_inside_iff ih _ _).mpr (h.next (.element h0 h10 hlen htalloc harray)) hover
      · simp only [hnone, reduceCtorEq, false_or, Except.ok.injEq, exists_eq_left']
        refine iff_of_true (fun h => h.1 rfl) ?_
        intro values els p' hr
        rcases Relation.ReflTransGen.cases_head hr with heq | ⟨b, hn, _⟩
        · cases heq
        · cases hn with
          | @element _ name q h0 _ hlen =>
            rw [strnlen_text h0 q hlen] at hnone
            exact absurd (Except.ok.inj hnone) hlen.ne
    · refine iff_of_true (fun h => h10 h.1) ?_
      intro values els p' hr
      rcases Relation.ReflTransGen.cases_head hr with heq | ⟨b, hn, _⟩
      · cases heq
      · cases hn with
        | element _ h10' => exact absurd h10' h10

/-! ## Records -/

theorem unpackMessage_inside_iff (dn : Option LdbDn) (elements : Nat) (p : List UInt8) :
    unpackMessage dn elements p (remainingOf p) ≠ .error .overrun ↔
      (elements ≤ remainingOf p / 6 → tallocArray sizeofLdbMessageElement elements = .ok () →
        (Part.element elements p).Inside) := by
  unfold unpackMessage
  by_cases hzero : elements = 0
  · subst hzero
    exact iff_of_true nofun fun _ _ => Part.inside_element_zero p
  rw [if_neg hzero]
  by_cases hcount : elements ≤ remainingOf p / 6
  · rw [if_neg (Nat.not_lt.mpr hcount), forall_prop_of_true hcount]
    by_cases harray : tallocArray sizeofLdbMessageElement elements = .ok ()
    · rw [forall_prop_of_true harray, ← unpackElements_inside_iff, harray]
      simp only [bind, Except.bind, pure, Except.pure]
      cases unpackElements elements p (remainingOf p) with
      | error e => simp
      | ok els => simp
    · rw [tallocArray_error harray]
      exact iff_of_true nofun fun h => nomatch h
  · rw [if_pos (Nat.not_le.mp hcount)]
    exact iff_of_true nofun fun h => absurd h hcount

/-- A value of a record, with `values` more of its element and `elements` more elements to come. -/
def ComesToValue (data : List UInt8) (values elements : Nat) (p : List UInt8) : Prop :=
  ∃ first, Part.First data first ∧ Relation.ReflTransGen Part.Next first (.value (values + 1) elements p)

/-- `ltdb_unpack_data` reads nothing behind the end of the buffer exactly when there is room in it for every value that the
record comes to. -/
theorem ltdbUnpackData_inside_iff (data : List UInt8) :
    ltdbUnpackData data ≠ .error .overrun ↔
      ∀ values elements p, ComesToValue data values elements p → ValueInside values elements p := by
  have hforall : (∀ values elements p, ComesToValue data values elements p → ValueInside values elements p) ↔
      ∀ first, Part.First data first → first.Inside := by
    constructor
    · exact fun h first hf values elements p hr => h values elements p ⟨first, hf, hr⟩
    · rintro h values elements p ⟨first, hf, hr⟩
      exact h first hf values elements p hr
  rw [hforall, ltdbUnpackData]
  rcases Nat.lt_or_ge data.length 8 with h8 | h8
  · rw [if_pos h8]
    refine iff_of_true (by rintro ⟨⟩) fun first hf => ?_
    cases hf <;> omega
  rw [if_neg (Nat.not_lt.mpr h8), pullUint32_ok (by omega),
    pullUint32_ok (by rw [length_drop]; omega : 4 ≤ (data.drop 4).length)]
  have hremaining : (data.length - 8) % 2 ^ 32 = remainingOf (data.drop 8) := by rw [remainingOf, length_drop]
  simp only [ok_bind, hremaining]
  by_cases hnodn : word data = ltdbPackingFormatNodn
  · rw [if_pos hnodn, unpackMessage_inside_iff]
    constructor
    · intro h first hf
      cases hf with
      | nodn _ _ hcount harray => exact h hcount harray
      | dn _ hdn => exact absurd (hnodn.symm.trans hdn) (by decide)
    · exact fun h hcount harray => h _ (.nodn h8 hnodn hcount harray)
  rw [if_neg hnodn]
  by_cases hdn : word data = ltdbPackingFormat
  · rw [if_pos hdn]
    rcases strnlen_inside (remainingOf_le (data.drop 8)) with ⟨text, p, hp, h0, hlen⟩ | hnone
    · have hdrop : (data.drop 8).drop (text.length + 1) = p := by
        rw [hp]
        simp [drop_append]
      have hleft : sub32 (remainingOf (data.drop 8)) (text.length + 1) = remainingOf p := by
        have hlength := congrArg List.length hp
        rw [length_append, length_cons] at hlength
        rw [sub32_remainingOf (by omega), hdrop]
      rw [show strnlen (data.drop 8) (remainingOf (data.drop 8)) = .ok text.length by
        rw [hp] at hlen ⊢
        exact strnlen_text h0 p hlen]
      simp only [ok_bind]
      rw [if_neg hlen.ne, hdrop, hleft]
      by_cases htalloc : talloc (text.length + 1) = .ok ()
      · rw [htalloc, ok_bind, unpackMessage_inside_iff]
        constructor
        · intro h first hf
          cases hf with
          | nodn _ hnodn' => exact absurd hnodn' hnodn
          | @dn text' p' _ _ hp' h0' _ _ hcount harray =>
            obtain ⟨rfl, rfl⟩ := text_unique (hp.symm.trans hp') h0 h0'
            exact h hcount harray
        · exact fun h hcount harray => h _ (.dn h8 hdn hp h0 hlen htalloc hcount harray)
      · rw [talloc_error htalloc]
        refine iff_of_true (by rintro ⟨⟩) fun first hf => ?_
        cases hf with
        | nodn _ hnodn' => exact absurd hnodn' hnodn
        | @dn text' p' _ _ hp' h0' _ htalloc' =>
          obtain ⟨rfl, rfl⟩ := text_unique (hp.symm.trans hp') h0 h0'
          exact absurd htalloc' htalloc
    · rw [hnone, ok_bind, if_pos rfl]
      refine iff_of_true (by rintro ⟨⟩) fun first hf => ?_
      cases hf with
      | nodn _ hnodn' => exact absurd hnodn' hnodn
      | @dn text p _ _ hp h0 hlen =>
        rw [hp] at hlen hnone
        rw [strnlen_text h0 p hlen] at hnone
        exact absurd (Except.ok.inj hnone) hlen.ne
  · rw [if_neg hdn]
    refine iff_of_true (by rintro ⟨⟩) fun first hf => ?_
    cases hf with
    | nodn _ hnodn' => exact absurd hnodn' hnodn
    | dn _ hdn' => exact absurd hdn' hdn

/-- A record without a DN, of one element `a` with one value, that ends behind the length of the value. -/
theorem ltdbUnpackData_overrun : ¬ ∀ data : List UInt8, ltdbUnpackData data ≠ .error .overrun := by
  intro h
  exact h (le32 ltdbPackingFormatNodn ++ le32 1 ++ [97, 0] ++ le32 1 ++ le32 1) (by decide)

end Samba.Ldb
