/-
Claims on resources, shared or exclusive, held as a multiset: one holder may claim a resource
several times and in both modes. Releasing names only the resource and gives up an exclusive claim
first. What a release does to the claimed resources and to the exclusive ones, and when releasing
what was just taken restores the claims held before.
-/
import Mathlib.Data.Multiset.AddSub
import Mathlib.Data.Multiset.Filter
import Mathlib.Data.Multiset.MapFold
import Mathlib.Tactic.Ring

namespace SharedExclusive

universe u

inductive Mode
  | shared | exclusive
  deriving DecidableEq, Repr

variable {ρ : Type u} [DecidableEq ρ]

/-- The resources claimed, once for each claim. -/
def resources (M : Multiset (ρ × Mode)) : Multiset ρ := M.map Prod.fst

/-- The resources claimed exclusively. -/
def exclusives (M : Multiset (ρ × Mode)) : Multiset ρ :=
  (M.filter (·.2 = .exclusive)).map Prod.fst

/-- Claiming every resource of a list in one mode. -/
def taken (mode : Mode) (xs : List ρ) : Multiset (ρ × Mode) := ↑(xs.map (·, mode))

/-- Giving up one claim on a resource: an exclusive one if there is one, else a shared one. -/
def release (M : Multiset (ρ × Mode)) (x : ρ) : Multiset (ρ × Mode) :=
  if (x, .exclusive) ∈ M then M.erase (x, .exclusive) else M.erase (x, .shared)

/-- Releasing the resources of a list one after another. -/
def releaseAll (M : Multiset (ρ × Mode)) (xs : List ρ) : Multiset (ρ × Mode) := xs.foldl release M

/-! ## Counting -/

omit [DecidableEq ρ] in
@[simp] theorem resources_cons (c : ρ × Mode) (M : Multiset (ρ × Mode)) :
    resources (c ::ₘ M) = c.1 ::ₘ resources M :=
  Multiset.map_cons _ _ _

omit [DecidableEq ρ] in
@[simp] theorem resources_add (M N : Multiset (ρ × Mode)) :
    resources (M + N) = resources M + resources N :=
  Multiset.map_add _ _ _

omit [DecidableEq ρ] in
@[simp] theorem exclusives_cons_exclusive (x : ρ) (M : Multiset (ρ × Mode)) :
    exclusives ((x, .exclusive) ::ₘ M) = x ::ₘ exclusives M := by
  simp [exclusives]

omit [DecidableEq ρ] in
@[simp] theorem exclusives_cons_shared (x : ρ) (M : Multiset (ρ × Mode)) :
    exclusives ((x, .shared) ::ₘ M) = exclusives M := by
  simp [exclusives]

omit [DecidableEq ρ] in
@[simp] theorem exclusives_add (M N : Multiset (ρ × Mode)) :
    exclusives (M + N) = exclusives M + exclusives N := by
  simp [exclusives, Multiset.filter_add]

omit [DecidableEq ρ] in
variable {M : Multiset (ρ × Mode)}

theorem mem_exclusives {x : ρ} : x ∈ exclusives M ↔ (x, Mode.exclusive) ∈ M := by
  constructor
  · intro h
    obtain ⟨⟨y, m⟩, hy, rfl⟩ := Multiset.mem_map.mp h
    obtain ⟨hm, rfl⟩ := Multiset.mem_filter.mp hy
    exact hm
  · exact fun h => Multiset.mem_map.mpr ⟨_, Multiset.mem_filter.mpr ⟨h, rfl⟩, rfl⟩

omit [DecidableEq ρ] in
theorem mem_resources {x : ρ} : x ∈ resources M ↔ (x, Mode.exclusive) ∈ M ∨ (x, Mode.shared) ∈ M := by
  constructor
  · intro h
    obtain ⟨⟨y, m⟩, hy, rfl⟩ := Multiset.mem_map.mp h
    cases m with
    | shared => exact .inr hy
    | exclusive => exact .inl hy
  · rintro (h | h)
    · exact Multiset.mem_map_of_mem Prod.fst h
    · exact Multiset.mem_map_of_mem Prod.fst h

omit [DecidableEq ρ] in
@[simp] theorem resources_taken (mode : Mode) (xs : List ρ) : resources (taken mode xs) = ↑xs := by
  simp [resources, taken, Function.comp_def]

omit [DecidableEq ρ] in
@[simp] theorem exclusives_taken (mode : Mode) (xs : List ρ) :
    exclusives (taken mode xs) = if mode = .exclusive then ↑xs else 0 := by
  induction xs with
  | nil => simp [exclusives, taken]
  | cons x xs ih =>
    cases mode with
    | shared => exact (exclusives_cons_shared x _).trans ih
    | exclusive => exact (exclusives_cons_exclusive x _).trans (congrArg (x ::ₘ ·) ih)

/-- How often a claim occurs follows from the claimed and the exclusively claimed resources. -/
theorem count_shared_add (M : Multiset (ρ × Mode)) (x : ρ) :
    M.count (x, .shared) + (exclusives M).count x = (resources M).count x := by
  induction M using Multiset.induction_on with
  | empty => rfl
  | cons c M ih =>
    obtain ⟨y, mode⟩ := c
    cases mode with
    | shared =>
      simp only [exclusives_cons_shared, resources_cons, Multiset.count_cons, Prod.mk.injEq, and_true]
      omega
    | exclusive =>
      simp only [exclusives_cons_exclusive, resources_cons, Multiset.count_cons, Prod.mk.injEq,
        reduceCtorEq, and_false, if_false]
      omega

theorem count_exclusive (M : Multiset (ρ × Mode)) (x : ρ) :
    M.count (x, .exclusive) = (exclusives M).count x := by
  induction M using Multiset.induction_on with
  | empty => rfl
  | cons c M ih =>
    obtain ⟨y, mode⟩ := c
    cases mode with
    | shared =>
      simp only [exclusives_cons_shared, Multiset.count_cons, Prod.mk.injEq, reduceCtorEq, and_false,
        if_false, ih, Nat.add_zero]
    | exclusive =>
      simp only [exclusives_cons_exclusive, Multiset.count_cons, Prod.mk.injEq, and_true, ih]

/-- Claims are determined by the claimed and the exclusively claimed resources. -/
theorem ext_claims {N : Multiset (ρ × Mode)} (hr : resources M = resources N)
    (he : exclusives M = exclusives N) : M = N := by
  ext ⟨x, mode⟩
  cases mode with
  | exclusive => rw [count_exclusive, count_exclusive, he]
  | shared =>
    have hM := count_shared_add M x
    have hN := count_shared_add N x
    rw [hr, he] at hM
    omega

/-! ## Releasing -/

theorem release_of_notMem {M : Multiset (ρ × Mode)} {x : ρ} (h : x ∉ resources M) : release M x = M := by
  rw [mem_resources, not_or] at h
  unfold release
  rw [if_neg h.1, Multiset.erase_of_notMem h.2]

theorem resources_release (M : Multiset (ρ × Mode)) (x : ρ) :
    resources (release M x) = (resources M).erase x := by
  unfold release
  split
  · rename_i h
    obtain ⟨N, rfl⟩ := Multiset.exists_cons_of_mem h
    simp
  · rename_i h
    by_cases hs : (x, Mode.shared) ∈ M
    · obtain ⟨N, rfl⟩ := Multiset.exists_cons_of_mem hs
      simp
    · have hx : x ∉ resources M := fun hx => (mem_resources.mp hx).elim h hs
      rw [Multiset.erase_of_notMem hs, Multiset.erase_of_notMem hx]

theorem exclusives_release (M : Multiset (ρ × Mode)) (x : ρ) :
    exclusives (release M x) = (exclusives M).erase x := by
  unfold release
  split
  · rename_i h
    obtain ⟨N, rfl⟩ := Multiset.exists_cons_of_mem h
    simp
  · rename_i h
    rw [Multiset.erase_of_notMem (mt mem_exclusives.mp h)]
    by_cases hs : (x, Mode.shared) ∈ M
    · obtain ⟨N, rfl⟩ := Multiset.exists_cons_of_mem hs
      simp
    · rw [Multiset.erase_of_notMem hs]

theorem resources_releaseAll (M : Multiset (ρ × Mode)) (xs : List ρ) :
    resources (releaseAll M xs) = resources M - ↑xs := by
  induction xs generalizing M with
  | nil => simp [releaseAll]
  | cons x xs ih =>
    calc resources (releaseAll M (x :: xs))
        = resources (release M x) - ↑xs := ih (release M x)
      _ = (resources M).erase x - ↑xs := by rw [resources_release]
      _ = resources M - ↑(x :: xs) := by rw [← Multiset.cons_coe, Multiset.sub_cons]

theorem exclusives_releaseAll (M : Multiset (ρ × Mode)) (xs : List ρ) :
    exclusives (releaseAll M xs) = exclusives M - ↑xs := by
  induction xs generalizing M with
  | nil => simp [releaseAll]
  | cons x xs ih =>
    calc exclusives (releaseAll M (x :: xs))
        = exclusives (release M x) - ↑xs := ih (release M x)
      _ = (exclusives M).erase x - ↑xs := by rw [exclusives_release]
      _ = exclusives M - ↑(x :: xs) := by rw [← Multiset.cons_coe, Multiset.sub_cons]

/-- Where every resource released is claimed, each release gives up exactly one claim. -/
theorem card_releaseAll {xs : List ρ} (h : ↑xs ≤ resources M) : (releaseAll M xs).card + xs.length = M.card := by
  have hcard := congrArg Multiset.card (resources_releaseAll M xs)
  have hle := Multiset.card_le_card h
  rw [Multiset.card_sub h] at hcard
  simp only [resources, Multiset.card_map, Multiset.coe_card] at hcard hle
  omega

/-- Releasing what was just taken restores the claims held before, unless it was taken shared and
one of the resources was already claimed exclusively. -/
theorem releaseAll_taken_iff (M : Multiset (ρ × Mode)) (mode : Mode) {xs ys : List ρ}
    (hp : ys.Perm xs) :
    releaseAll (M + taken mode xs) ys = M ↔
      (mode = .shared → ∀ x ∈ xs, (x, Mode.exclusive) ∉ M) := by
  have hys : (↑ys : Multiset ρ) = ↑xs := Multiset.coe_eq_coe.mpr hp
  have hr : resources (releaseAll (M + taken mode xs) ys) = resources M := by
    rw [resources_releaseAll, resources_add, resources_taken, hys, Multiset.add_sub_cancel_right]
  have he : exclusives (releaseAll (M + taken mode xs) ys) =
      exclusives M + (if mode = .exclusive then ↑xs else 0) - ↑xs := by
    rw [exclusives_releaseAll, exclusives_add, exclusives_taken, hys]
  cases mode with
  | exclusive =>
    rw [if_pos rfl, Multiset.add_sub_cancel_right] at he
    exact ⟨fun _ h => (nomatch h), fun _ => ext_claims hr he⟩
  | shared =>
    rw [if_neg (by decide), Multiset.add_zero] at he
    constructor
    · intro h _ x hx hM
      have hsub : exclusives M - ↑xs = exclusives M := by rw [← he, h]
      have hcount := congrArg (Multiset.count x) hsub
      rw [Multiset.count_sub] at hcount
      have h1 : 0 < (exclusives M).count x := Multiset.count_pos.mpr (mem_exclusives.mpr hM)
      have h2 : 0 < Multiset.count x (↑xs : Multiset ρ) := Multiset.count_pos.mpr hx
      omega
    · intro h
      refine ext_claims hr (he.trans ?_)
      ext x
      rw [Multiset.count_sub]
      by_cases hx : x ∈ xs
      · have h0 : (exclusives M).count x = 0 :=
          Multiset.count_eq_zero.mpr (mt mem_exclusives.mp (h rfl x hx))
        omega
      · have h0 : Multiset.count x (↑xs : Multiset ρ) = 0 := Multiset.count_eq_zero.mpr hx
        omega

end SharedExclusive
