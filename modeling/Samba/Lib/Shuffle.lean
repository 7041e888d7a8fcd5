/-
Arrays whose entries are only moved: exchanges of two entries, and an entry that is moved down over others. What such moves keep is a
property of the entries, and what they leave in place is what is outside of their bounds.
-/
import Mathlib.Data.List.Perm.Basic
import Mathlib.Logic.Equiv.Basic
import Mathlib.Data.List.Nodup
import Mathlib.Data.List.GetD

namespace Samba.Shuffle

open List

variable {α : Type}

/-- The entries from `lo` to `hi` were moved among themselves. -/
def Within (lo hi : Nat) (a b : Nat → α) : Prop :=
  ∃ σ : Equiv.Perm Nat, (∀ i, i < lo ∨ hi < i → σ i = i) ∧ b = a ∘ σ

/-- Two entries are exchanged. -/
def exchange (a : Nat → α) (i j : Nat) : Nat → α := fun k => if k = i then a j else if k = j then a i else a k

/-- The entry at `j` is moved down to `i`, and those between move up. -/
def moveDown (a : Nat → α) (i j : Nat) : Nat → α := fun k => if k = i then a j else if i < k ∧ k ≤ j then a (k - 1) else a k

/-- The first entries of an array. -/
def entriesOf (n : Nat) (a : Nat → α) : List α := (List.range n).map a

variable {a b c : Nat → α} {lo hi i j k n : Nat}

@[simp] theorem exchange_left (a : Nat → α) (i j : Nat) : exchange a i j i = a j := if_pos rfl

@[simp] theorem exchange_right (a : Nat → α) (i j : Nat) : exchange a i j j = a i := by
  rw [exchange]
  split
  · rename_i h
    rw [h]
  · exact if_pos rfl

theorem exchange_other (hi' : k ≠ i) (hj : k ≠ j) : exchange a i j k = a k := by rw [exchange, if_neg hi', if_neg hj]

theorem exchange_comm (a : Nat → α) (i j : Nat) : exchange a i j = exchange a j i := by
  funext k
  by_cases hi : k = i
  · subst hi
    rw [exchange_left, exchange_right]
  · by_cases hj : k = j
    · subst hj
      rw [exchange_left, exchange_right]
    · rw [exchange_other hi hj, exchange_other hj hi]

theorem Within.refl (lo hi : Nat) (a : Nat → α) : Within lo hi a a := ⟨Equiv.refl Nat, fun _ _ => rfl, rfl⟩

theorem Within.trans (hab : Within lo hi a b) (hbc : Within lo hi b c) : Within lo hi a c := by
  obtain ⟨σ, hσ, rfl⟩ := hab
  obtain ⟨τ, hτ, rfl⟩ := hbc
  refine ⟨τ.trans σ, fun i hi => ?_, rfl⟩
  rw [Equiv.trans_apply, hτ i hi, hσ i hi]

theorem Within.mono {lo' hi' : Nat} (h : Within lo hi a b) (hlo : lo' ≤ lo) (hhi : hi ≤ hi') : Within lo' hi' a b := by
  obtain ⟨σ, hσ, rfl⟩ := h
  exact ⟨σ, fun i hi => hσ i (by omega), rfl⟩

theorem Within.outside (h : Within lo hi a b) (hi : i < lo ∨ hi < i) : b i = a i := by
  obtain ⟨σ, hσ, rfl⟩ := h
  exact congrArg a (hσ i hi)

/-- A permutation that moves nothing outside of bounds moves nothing out of them. -/
theorem mem_bounds {σ : Equiv.Perm Nat} (hσ : ∀ i, i < lo ∨ hi < i → σ i = i) (hlo : lo ≤ i) (hhi : i ≤ hi) :
    lo ≤ σ i ∧ σ i ≤ hi := by
  by_contra h
  have hout : σ i < lo ∨ hi < σ i := by omega
  have := σ.injective (hσ (σ i) hout)
  omega

theorem symm_outside {σ : Equiv.Perm Nat} (hσ : ∀ i, i < lo ∨ hi < i → σ i = i) : ∀ i, i < lo ∨ hi < i → σ.symm i = i :=
  fun i hi => by rw [Equiv.symm_apply_eq, hσ i hi]

/-- Each entry comes from inside of the bounds. -/
theorem Within.from (h : Within lo hi a b) (hlo : lo ≤ i) (hhi : i ≤ hi) : ∃ j, lo ≤ j ∧ j ≤ hi ∧ b i = a j := by
  obtain ⟨σ, hσ, rfl⟩ := h
  obtain ⟨h1, h2⟩ := mem_bounds hσ hlo hhi
  exact ⟨σ i, h1, h2, rfl⟩

theorem Within.to (h : Within lo hi a b) (hlo : lo ≤ i) (hhi : i ≤ hi) : ∃ j, lo ≤ j ∧ j ≤ hi ∧ b j = a i := by
  obtain ⟨σ, hσ, rfl⟩ := h
  obtain ⟨h1, h2⟩ := mem_bounds (symm_outside hσ) hlo hhi
  exact ⟨σ.symm i, h1, h2, by rw [Function.comp_apply, Equiv.apply_symm_apply]⟩

theorem within_exchange (a : Nat → α) (hi' : lo ≤ i ∧ i ≤ hi) (hj : lo ≤ j ∧ j ≤ hi) : Within lo hi a (exchange a i j) := by
  refine ⟨Equiv.swap i j, fun k hk => Equiv.swap_apply_of_ne_of_ne (by omega) (by omega), ?_⟩
  funext k
  rw [exchange, Function.comp_apply, Equiv.swap_apply_def]
  split
  · rfl
  · split <;> rfl

/-- The permutation of a move down. -/
def downPerm (h : i ≤ j) : Equiv.Perm Nat where
  toFun k := if k = i then j else if i < k ∧ k ≤ j then k - 1 else k
  invFun k := if k = j then i else if i ≤ k ∧ k < j then k + 1 else k
  left_inv k := by
    dsimp only
    split_ifs <;> omega
  right_inv k := by
    dsimp only
    split_ifs <;> omega

theorem within_moveDown (a : Nat → α) (hi' : lo ≤ i) (hij : i ≤ j) (hj : j ≤ hi) : Within lo hi a (moveDown a i j) := by
  refine ⟨downPerm hij, fun k hk => ?_, ?_⟩
  · show (if k = i then j else if i < k ∧ k ≤ j then k - 1 else k) = k
    rw [if_neg (by omega), if_neg (by omega)]
  · funext k
    show _ = a (if k = i then j else if i < k ∧ k ≤ j then k - 1 else k)
    rw [moveDown]
    split
    · rfl
    · split <;> rfl

theorem entriesOf_getD (xs : List α) (x : α) : entriesOf xs.length (fun i => xs.getD i x) = xs := by
  refine ext_getElem (by rw [entriesOf, length_map, length_range]) fun i _ hi => ?_
  simp only [entriesOf, getElem_map, getElem_range]
  exact getD_eq_getElem xs x hi

/-- The entries are the same, in another order. -/
theorem Within.perm (h : Within 0 hi a b) (hn : hi < n) : (entriesOf n b).Perm (entriesOf n a) := by
  obtain ⟨σ, hσ, rfl⟩ := h
  have hrange : ((List.range n).map σ).Perm (List.range n) := by
    refine (perm_ext_iff_of_nodup (List.Nodup.map σ.injective nodup_range) nodup_range).2 fun k => ?_
    have hin : ∀ τ : Equiv.Perm Nat, (∀ i, i < 0 ∨ hi < i → τ i = i) → ∀ k, k < n → τ k < n := by
      intro τ hτ k hk
      by_cases hk' : k ≤ hi
      · have := (mem_bounds hτ (Nat.zero_le k) hk').2
        omega
      · rwa [hτ k (by omega)]
    rw [mem_map, mem_range]
    constructor
    · rintro ⟨k', hk', rfl⟩
      exact hin σ hσ k' (mem_range.1 hk')
    · exact fun hk => ⟨σ.symm k, mem_range.2 (hin σ.symm (symm_outside hσ) k hk), σ.apply_symm_apply k⟩
  rw [entriesOf, entriesOf, ← map_map]
  exact hrange.map a

end Samba.Shuffle
