/-
Singly linked lists: a cell holds the address of the next one, and `null` ends the list. The
address a list hangs from is a cell like the others, so unlinking and pushing are the same at the
head and inside.
-/
import Mathlib.Data.List.Basic
import Mathlib.Tactic.Tauto

namespace Links

open List

universe u

variable {α : Type u} (null : α)

/-- From cell `p` on, following `next` leads through the cells of the list to `null`. -/
def Linked (next : α → α) : α → List α → Prop
  | p, [] => next p = null
  | p, o :: l => o ≠ null ∧ next p = o ∧ Linked next o l

/-- The last cell of a list that hangs from `p`. -/
def lastCell : α → List α → α
  | p, [] => p
  | _, o :: l => lastCell o l

theorem lastCell_mem (p : α) (l : List α) : lastCell p l ∈ p :: l := by
  induction l generalizing p with
  | nil => simp [lastCell]
  | cons o l ih => exact mem_cons_of_mem _ (ih o)

theorem lastCell_append (p o : α) (l : List α) : lastCell p (l ++ [o]) = o := by
  induction l generalizing p with
  | nil => rfl
  | cons q l ih => exact ih q

variable {null} {next next' : α → α} {p o : α} {l l₁ l₂ : List α}

/-- The list does not see changes to other cells. -/
theorem Linked.congr (h : Linked null next p l) (hcong : ∀ q ∈ p :: l, next' q = next q) :
    Linked null next' p l := by
  induction l generalizing p with
  | nil =>
    rw [Linked, hcong p (by simp)]
    exact h
  | cons o l ih =>
    refine ⟨h.1, ?_, ih h.2.2 fun q hq => hcong q (by simp only [mem_cons] at hq ⊢; tauto)⟩
    rw [hcong p (by simp)]
    exact h.2.1

/-- What comes after the first cells hangs from the last of them. -/
theorem Linked.suffix (h : Linked null next p (l₁ ++ l₂)) : Linked null next (lastCell p l₁) l₂ := by
  induction l₁ generalizing p with
  | nil => exact h
  | cons o l₁ ih => exact ih h.2.2

theorem Linked.head (h : Linked null next p l) : next p = l.headD null := by
  cases l with
  | nil => exact h
  | cons o l => exact h.2.1

theorem Linked.ne_null (h : Linked null next p l) : ∀ o ∈ l, o ≠ null := by
  induction l generalizing p with
  | nil => simp
  | cons q l ih =>
    intro o ho
    rcases mem_cons.mp ho with rfl | ho
    exacts [h.1, ih h.2.2 o ho]

/-- From every cell the list goes on to another of its cells, or ends. -/
theorem Linked.next_mem (h : Linked null next p l) {q : α} (hq : q ∈ p :: l) : next q = null ∨ next q ∈ l := by
  induction l generalizing p with
  | nil =>
    rw [mem_singleton] at hq
    exact .inl (hq ▸ h)
  | cons o l ih =>
    rcases mem_cons.mp hq with rfl | hq
    · exact .inr (by simp [h.2.1])
    · exact (ih h.2.2 hq).imp_right (mem_cons_of_mem _)

theorem Linked.unique {l' : List α} (h : Linked null next p l) (h' : Linked null next p l') : l = l' := by
  induction l generalizing p l' with
  | nil =>
    cases l' with
    | nil => rfl
    | cons o l' => exact absurd (h'.2.1.symm.trans h) h'.1
  | cons o l ih =>
    cases l' with
    | nil => exact absurd (h.2.1.symm.trans h') h.1
    | cons o' l' =>
      obtain rfl : o = o' := h.2.1.symm.trans h'.2.1
      rw [ih h.2.2 h'.2.2]

/-- A list that ends passes through no cell twice. -/
theorem Linked.nodup (h : Linked null next p l) : l.Nodup := by
  induction l generalizing p with
  | nil => exact .nil
  | cons o l ih =>
    refine nodup_cons.mpr ⟨fun ho => ?_, ih h.2.2⟩
    -- from the second time on it would go on as from the first
    obtain ⟨l₁, l₂, rfl⟩ := append_of_mem ho
    have hrest : Linked null next (lastCell o (l₁ ++ [o])) l₂ := by
      refine Linked.suffix ?_
      rw [append_assoc]
      exact h.2.2
    rw [lastCell_append] at hrest
    have := congrArg List.length (h.2.2.unique hrest)
    simp only [length_append, length_cons] at this
    omega

/-- A cell leaves the list when the cell before it is made to point past it. -/
theorem Linked.unlink (h : Linked null next p (l₁ ++ o :: l₂)) (hnodup : (p :: (l₁ ++ o :: l₂)).Nodup)
    (hlast : next' (lastCell p l₁) = next o)
    (hcong : ∀ q ∈ p :: (l₁ ++ l₂), q ≠ lastCell p l₁ → next' q = next q) :
    Linked null next' p (l₁ ++ l₂) := by
  induction l₁ generalizing p with
  | nil =>
    have ho := h.2.2
    simp only [lastCell, nil_append] at hlast hcong hnodup ⊢
    cases l₂ with
    | nil =>
      rw [Linked, hlast]
      exact ho
    | cons q l₂ =>
      refine ⟨ho.1, hlast.trans ho.2.1, ho.2.2.congr fun r hr => hcong r (by simp [hr]) ?_⟩
      rintro rfl
      simp only [nodup_cons, mem_cons] at hnodup hr
      tauto
  | cons q l₁ ih =>
    have hnodup' : (q :: (l₁ ++ o :: l₂)).Nodup := (nodup_cons.mp hnodup).2
    refine ⟨h.1, ?_, ih h.2.2 hnodup' hlast fun r hr => hcong r (mem_cons_of_mem _ hr)⟩
    rw [hcong p (by simp), h.2.1]
    -- the cell changed is further down the list
    intro hp
    have hmem := lastCell_mem q l₁
    rw [show lastCell q l₁ = p from hp.symm] at hmem
    refine (nodup_cons.mp hnodup).1 ?_
    simp only [cons_append, mem_cons, mem_append] at hmem ⊢
    tauto

theorem Linked.push (h : Linked null next p l) (ho : o ≠ null) (hnew : next' o = next p)
    (hhead : next' p = o) (hcong : ∀ q ∈ l, next' q = next q) : Linked null next' p (o :: l) := by
  refine ⟨ho, hhead, ?_⟩
  cases l with
  | nil => exact hnew.trans h
  | cons q l => exact ⟨h.1, hnew.trans h.2.1, h.2.2.congr hcong⟩

end Links
