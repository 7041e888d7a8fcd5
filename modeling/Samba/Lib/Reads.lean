/-
Programs that read memory: a value with the addresses read on the way to it, and the rules by which
such a program keeps to a range of them. What lies outside the range is there to be read too, and may
be anything.
-/
import Mathlib.Algebra.Ring.Nat
import Mathlib.Data.List.Basic

/-- A value and the addresses that were read for it, in order. -/
structure Reading (α : Type) where
  value : α
  places : List Nat
  deriving DecidableEq, Repr

namespace Reading

variable {α β : Type} {lo hi : Nat}

instance : Monad Reading where
  pure a := ⟨a, []⟩
  bind m f := ⟨(f m.value).value, m.places ++ (f m.value).places⟩

@[simp] theorem value_pure (a : α) : (pure a : Reading α).value = a := rfl

@[simp] theorem value_bind (m : Reading α) (f : α → Reading β) : (m >>= f).value = (f m.value).value := rfl

/-! ## Memory -/

abbrev Memory := Nat → UInt8

/-- The byte at an address. -/
def byte (mem : Memory) (i : Nat) : Reading Nat := ⟨(mem i).toNat, [i]⟩

/-- The two bytes at an address, low byte first. -/
def word (mem : Memory) (i : Nat) : Reading Nat := ⟨(mem i).toNat + 256 * (mem (i + 1)).toNat, [i, i + 1]⟩

/-- The four bytes at an address, low byte first. -/
def dword (mem : Memory) (i : Nat) : Reading Nat :=
  ⟨(mem i).toNat + 256 * (mem (i + 1)).toNat + 65536 * (mem (i + 2)).toNat + 16777216 * (mem (i + 3)).toNat,
    [i, i + 1, i + 2, i + 3]⟩

@[simp] theorem value_byte (mem : Memory) (i : Nat) : (byte mem i).value = (mem i).toNat := by
  simp only [byte]

@[simp] theorem value_word (mem : Memory) (i : Nat) :
    (word mem i).value = (mem i).toNat + 256 * (mem (i + 1)).toNat := by
  simp only [word]

theorem word_lt (mem : Memory) (i : Nat) : (word mem i).value < 2 ^ 16 := by
  have h₀ := (mem i).toNat_lt
  have h₁ := (mem (i + 1)).toNat_lt
  rw [value_word]
  omega

/-! ## Keeping to a range -/

/-- Every address read is one of `lo`, ..., `hi - 1`. -/
def Inside (m : Reading α) (lo hi : Nat) : Prop := ∀ i ∈ m.places, lo ≤ i ∧ i < hi

instance (m : Reading α) (lo hi : Nat) : Decidable (m.Inside lo hi) :=
  inferInstanceAs (Decidable (∀ i ∈ m.places, lo ≤ i ∧ i < hi))

@[simp] theorem inside_pure (a : α) : (pure a : Reading α).Inside lo hi := nofun

@[simp] theorem inside_bind (m : Reading α) (f : α → Reading β) :
    (m >>= f).Inside lo hi ↔ m.Inside lo hi ∧ (f m.value).Inside lo hi := by
  unfold Inside
  constructor
  · intro h
    exact ⟨fun i hi => h i (List.mem_append_left _ hi), fun i hi => h i (List.mem_append_right _ hi)⟩
  · rintro ⟨hm, hf⟩ i hi
    rcases List.mem_append.mp hi with hi | hi
    · exact hm i hi
    · exact hf i hi

@[simp] theorem inside_byte (mem : Memory) (i : Nat) : (byte mem i).Inside lo hi ↔ lo ≤ i ∧ i < hi := by
  simp [Inside, byte]

@[simp] theorem inside_word (mem : Memory) (i : Nat) : (word mem i).Inside lo hi ↔ lo ≤ i ∧ i + 1 < hi := by
  simp only [Inside, word, List.forall_mem_cons, List.not_mem_nil, false_imp_iff, implies_true, and_true]
  omega

@[simp] theorem inside_dword (mem : Memory) (i : Nat) : (dword mem i).Inside lo hi ↔ lo ≤ i ∧ i + 3 < hi := by
  simp only [Inside, dword, List.forall_mem_cons, List.not_mem_nil, false_imp_iff, implies_true, and_true]
  omega

/-- A wider range holds what a narrower one does. -/
theorem Inside.mono {m : Reading α} {lo' hi' : Nat} (h : m.Inside lo hi) (hlo : lo' ≤ lo) (hhi : hi ≤ hi') :
    m.Inside lo' hi' := by
  intro i hmem
  obtain ⟨h₁, h₂⟩ := h i hmem
  exact ⟨by omega, by omega⟩

end Reading
