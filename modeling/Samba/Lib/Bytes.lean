/-
Byte memories: reading and overwriting ranges of an unbounded memory, and little-endian 32-bit
words in it. Ranges that do not meet do not see each other's writes.
-/
import Mathlib.Data.List.Basic
import Mathlib.Tactic.Ring

namespace Bytes

open List

/-- A memory: the byte at every address. -/
abbrev Mem := Nat → UInt8

/-- The `len` bytes from `off`. -/
def read (m : Mem) (off len : Nat) : List UInt8 :=
  (List.range len).map fun i => m (off + i)

/-- The memory with `bs` written at `off`. -/
def write (m : Mem) (off : Nat) (bs : List UInt8) : Mem := fun a =>
  if off ≤ a then (bs[a - off]?).getD (m a) else m a

/-! ## Ranges -/

@[simp] theorem length_read (m : Mem) (off len : Nat) : (read m off len).length = len := by
  simp [read]

variable {a len off : Nat} {m : Mem} {bs : List UInt8}

theorem getElem?_read (m : Mem) (off : Nat) {i : Nat} (h : i < len) : (read m off len)[i]? = some (m (off + i)) := by
  simp [read, h]

theorem read_congr {m' : Mem} (h : ∀ a, off ≤ a → a < off + len → m a = m' a) : read m off len = read m' off len := by
  unfold read
  apply map_congr_left
  intro i hi
  rw [mem_range] at hi
  exact h _ (by omega) (by omega)

@[simp] theorem read_zero (m : Mem) (off : Nat) : read m off 0 = [] := rfl

theorem read_add (m : Mem) (off a b : Nat) :
    read m off (a + b) = read m off a ++ read m (off + a) b := by
  unfold read
  rw [range_add, map_append, map_map]
  congr 1
  apply map_congr_left
  intro i _
  simp [Nat.add_assoc]

theorem take_read {l n : Nat} (h : n ≤ l) : (read m off l).take n = read m off n := by
  obtain ⟨k, rfl⟩ := Nat.exists_eq_add_of_le h
  rw [read_add, take_left' (length_read ..)]

theorem drop_read {m : Mem} {off len n : Nat} (h : n ≤ len) :
    (read m off len).drop n = read m (off + n) (len - n) := by
  obtain ⟨k, rfl⟩ := Nat.exists_eq_add_of_le h
  rw [read_add, drop_left' (length_read ..), Nat.add_sub_cancel_left]

/-- Two memories with the same bytes in a range read the same there, and conversely. -/
theorem read_eq_iff : read m off bs.length = bs ↔ ∀ i (h : i < bs.length), m (off + i) = bs[i] := by
  constructor
  · intro h i hi
    have := getElem?_read m off hi
    rw [h, List.getElem?_eq_getElem hi] at this
    exact (Option.some.inj this).symm
  · intro h
    apply ext_getElem (by simp)
    intro i h1 h2
    simp [read, h i h2]

theorem write_of_lt (h : a < off) : write m off bs a = m a := by
  simp [write, Nat.not_le.mpr h]

theorem write_of_ge (h : off + bs.length ≤ a) : write m off bs a = m a := by
  have : bs[a - off]? = none := List.getElem?_eq_none (by omega)
  simp [write, this]

theorem write_of_out {o : Nat} {b : List UInt8} (h : a < o ∨ o + b.length ≤ a) : write m o b a = m a :=
  h.elim write_of_lt write_of_ge

theorem write_of_mem (h1 : off ≤ a) (h2 : a - off < bs.length) : write m off bs a = bs[a - off] := by
  simp [write, h1, List.getElem?_eq_getElem h2]

@[simp] theorem write_nil (m : Mem) (off : Nat) : write m off [] = m := by
  funext a
  simp [write]

@[simp] theorem read_write_same (m : Mem) (off : Nat) (bs : List UInt8) :
    read (write m off bs) off bs.length = bs := by
  rw [read_eq_iff]
  intro i hi
  rw [write_of_mem (by omega) (by omega)]
  simp

theorem read_write_disjoint {off' : Nat} (h : off + len ≤ off' ∨ off' + bs.length ≤ off) :
    read (write m off' bs) off len = read m off len := by
  apply read_congr
  intro a h1 h2
  exact write_of_out (by omega)

/-- Writing in one go is writing the parts one after the other. -/
theorem write_append (m : Mem) (off : Nat) (bs cs : List UInt8) :
    write m off (bs ++ cs) = write (write m off bs) (off + bs.length) cs := by
  funext a
  by_cases h1 : a < off
  · rw [write_of_lt h1, write_of_lt (by omega), write_of_lt h1]
  by_cases h2 : a < off + bs.length
  · rw [write_of_lt h2, write_of_mem (by omega) (by simp; omega), write_of_mem (by omega) (by omega),
      getElem_append_left]
  by_cases h3 : a < off + bs.length + cs.length
  · rw [write_of_mem (by omega) (by simp; omega), write_of_mem (by omega) (by omega),
      getElem_append_right (by omega)]
    congr 1
    omega
  · rw [write_of_ge (by simp; omega), write_of_ge (by omega), write_of_ge (by omega)]

theorem write_read_of_mem {m' : Mem} (h1 : off ≤ a) (h2 : a < off + len) :
    write m off (read m' off len) a = m' a := by
  rw [write_of_mem h1 (by simp; omega)]
  simp only [read, getElem_map, getElem_range]
  congr 1
  omega

/-- Writing back what is there changes nothing. -/
theorem write_read_same (m : Mem) (off len : Nat) : write m off (read m off len) = m := by
  funext a
  by_cases h : off ≤ a ∧ a < off + len
  · exact write_read_of_mem h.1 h.2
  · exact write_of_out (by simp; omega)

theorem write_comm {b : Nat} {cs : List UInt8} (h : a + bs.length ≤ b ∨ b + cs.length ≤ a) :
    write (write m a bs) b cs = write (write m b cs) a bs := by
  funext x
  by_cases hx : a ≤ x ∧ x < a + bs.length
  · rw [write_of_out (by omega), write_of_mem hx.1 (by omega), write_of_mem hx.1 (by omega)]
  · rw [write_of_out (b := bs) (by omega)]
    by_cases hy : b ≤ x ∧ x < b + cs.length
    · rw [write_of_mem hy.1 (by omega), write_of_mem hy.1 (by omega)]
    · rw [write_of_out (by omega), write_of_out (by omega), write_of_out (by omega)]

/-! ## Words -/

/-- The number a little-endian byte string stands for. -/
def leNat : List UInt8 → Nat
  | [] => 0
  | b :: bs => b.toNat + 256 * leNat bs

/-- The four bytes of a 32-bit word, lowest first; higher bits are lost. -/
def le32 (n : Nat) : List UInt8 :=
  [UInt8.ofNat n, UInt8.ofNat (n / 256), UInt8.ofNat (n / 65536), UInt8.ofNat (n / 16777216)]

@[simp] theorem length_le32 (n : Nat) : (le32 n).length = 4 := rfl

theorem leNat_lt : ∀ bs : List UInt8, leNat bs < 256 ^ bs.length
  | [] => by simp [leNat]
  | b :: bs => by
    have h := leNat_lt bs
    have hb := b.toNat_lt
    rw [leNat, length_cons, Nat.pow_succ]
    omega

theorem leNat_le32 (n : Nat) : leNat (le32 n) = n % 2 ^ 32 := by
  simp only [le32, leNat, UInt8.toNat_ofNat']
  omega

theorem leNat_le32_of_lt {n : Nat} (h : n < 2 ^ 32) : leNat (le32 n) = n := by
  rw [leNat_le32, Nat.mod_eq_of_lt h]

end Bytes
