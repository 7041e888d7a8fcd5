/-
Wildcard patterns over any alphabet: a value is split by chunks that stand in it one behind the other, with anything or
nothing between them. A chunk that is not the last one may be placed where it occurs first; the last one has to be placed at
the end where no wildcard follows it.
-/
import Mathlib.Data.List.Infix
import Mathlib.Tactic

namespace Glob

universe u

variable {α : Type u}

/-- The value is `x₀ c₁ x₁ … cₙ xₙ` for the chunks `c₁ … cₙ`, where `x₀` is empty without a wildcard at the start and `xₙ`
without one at the end. -/
def Splits (startOpen endOpen : Bool) (chunks : List (List α)) (value : List α) : Prop :=
  ∃ (x : List α) (xs : List (List α)), xs.length = chunks.length ∧
    value = x ++ (List.zipWith (· ++ ·) chunks xs).flatten ∧ (startOpen = false → x = []) ∧
    (endOpen = false → (x :: xs).getLast? = some [])

variable {endOpen startOpen : Bool} {chunk value : List α} {chunks : List (List α)}

theorem splits_nil :
    Splits startOpen endOpen [] value ↔ (startOpen = false → value = []) ∧ (endOpen = false → value = []) := by
  constructor
  · rintro ⟨x, xs, hlen, rfl, hs, he⟩
    obtain rfl := List.length_eq_zero_iff.mp hlen
    simp only [List.zipWith_nil_left, List.flatten_nil, List.append_nil, List.getLast?_singleton, Option.some.injEq] at he ⊢
    exact ⟨hs, he⟩
  · rintro ⟨hs, he⟩
    refine ⟨value, [], rfl, by simp, hs, fun h => ?_⟩
    rw [he h]
    rfl

theorem splits_cons : Splits startOpen endOpen (chunk :: chunks) value ↔
      ∃ x rest, value = x ++ chunk ++ rest ∧ (startOpen = false → x = []) ∧ Splits true endOpen chunks rest := by
  constructor
  · rintro ⟨x, xs, hlen, rfl, hs, he⟩
    cases xs with
    | nil => cases hlen
    | cons x' xs =>
      refine ⟨x, x' ++ (List.zipWith (· ++ ·) chunks xs).flatten, by simp, hs, x', xs, by simpa using hlen, rfl, nofun, ?_⟩
      intro h
      rw [← he h, List.getLast?_cons_cons]
  · rintro ⟨x, rest, rfl, hs, x', xs, hlen, rfl, _, he⟩
    refine ⟨x, x' :: xs, by simpa using hlen, by simp, hs, fun h => ?_⟩
    rw [List.getLast?_cons_cons, he h]

/-- More in front of a value does no harm behind a wildcard. -/
theorem Splits.of_suffix {value' : List α} (hv : value <:+ value')
    (hmore : chunks ≠ [] ∨ endOpen = true) (h : Splits true endOpen chunks value) : Splits true endOpen chunks value' := by
  obtain ⟨u, rfl⟩ := hv
  cases chunks with
  | nil =>
    obtain rfl := hmore.resolve_left fun hn => hn rfl
    exact splits_nil.mpr ⟨nofun, nofun⟩
  | cons chunk chunks =>
    obtain ⟨x, rest, rfl, _, hrest⟩ := splits_cons.mp h
    exact splits_cons.mpr ⟨u ++ x, rest, by simp, nofun, hrest⟩

/-- The chunk stands behind `x` and nowhere before that. -/
structure FirstAt (chunk value x rest : List α) : Prop where
  eq : value = x ++ chunk ++ rest
  first : ∀ x' rest', value = x' ++ chunk ++ rest' → x.length ≤ x'.length

/-- A chunk behind a wildcard, with a wildcard or a chunk behind it, may be placed where it occurs first. -/
theorem splits_first {x rest : List α} (h : FirstAt chunk value x rest) (hmore : chunks ≠ [] ∨ endOpen = true) :
    Splits true endOpen (chunk :: chunks) value ↔ Splits true endOpen chunks rest := by
  rw [splits_cons]
  constructor
  · rintro ⟨x', rest', heq, _, hrest⟩
    refine hrest.of_suffix ?_ hmore
    have hle := h.first x' rest' heq
    have hlen : (x ++ chunk ++ rest).length = (x' ++ chunk ++ rest').length := by rw [← heq, h.eq]
    refine List.suffix_of_suffix_length_le (heq ▸ List.suffix_append _ _) (h.eq ▸ List.suffix_append _ _) ?_
    simp only [List.length_append] at hlen
    omega
  · exact fun hrest => ⟨x, rest, h.eq, nofun, hrest⟩

theorem splits_last : Splits true false [chunk] value ↔ chunk <:+ value := by
  rw [splits_cons]
  constructor
  · rintro ⟨x, rest, rfl, _, hrest⟩
    obtain rfl := (splits_nil.mp hrest).2 rfl
    exact ⟨x, by simp⟩
  · rintro ⟨x, rfl⟩
    exact ⟨x, [], by simp, nofun, splits_nil.mpr ⟨nofun, fun _ => rfl⟩⟩

/-- Every chunk of a pattern occurs in the value. -/
theorem Splits.isInfix (h : Splits startOpen endOpen chunks value) (hc : chunk ∈ chunks) : chunk <:+: value := by
  induction chunks generalizing startOpen value with
  | nil => cases hc
  | cons c chunks ih =>
    obtain ⟨x, rest, rfl, _, hrest⟩ := splits_cons.mp h
    rcases List.mem_cons.mp hc with rfl | hc
    · exact ⟨x, rest, rfl⟩
    · exact (ih hrest hc).trans (List.suffix_append _ _).isInfix

end Glob
