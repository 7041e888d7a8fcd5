/-
Base64 (lib/ldb/common/ldb_ldif.c): the encoder and the decoder of values in LDIF, which pack six bits into a character. What
is encoded here has a block for its digits: talloc gives none from about 201 MB of value on, below the 2^28 bytes whose bits
overflow an int. The callers say what they do without one.
-/
import Samba.Lib.CString

namespace Samba.Ldb

open CString List

/-- The digits. -/
def b64 : Text := "ABCDEFGHIJKLMNOPQRSTUVWXYZabcdefghijklmnopqrstuvwxyz0123456789+/".toList.map chr

/-! ## Encoding -/

/-- A byte of a block. -/
def byteAt (d : List UInt8) (k : Nat) : Nat := (d.getD k 0).toNat

/-- The six bits of the digit `i`. -/
def b64Index (d : List UInt8) (i : Nat) : Nat :=
  let byteOffset := i * 6 / 8
  let bitOffset := i * 6 % 8
  if bitOffset < 3 then (byteAt d byteOffset >>> (2 - bitOffset)) &&& 0x3F
  else
    let idx := (byteAt d byteOffset <<< (bitOffset - 2)) &&& 0x3F
    if byteOffset + 1 < d.length then idx ||| (byteAt d (byteOffset + 1) >>> (8 - (bitOffset - 2))) else idx

/-- `ldb_base64_encode`. -/
def ldbBase64Encode (buf : List UInt8) : Text :=
  let bytes := (buf.length * 8 + 5) / 6
  let padBytes := if bytes % 4 ≠ 0 then 4 - bytes % 4 else 0
  (List.range bytes).map (fun i => b64.getD (b64Index buf i) 0) ++ List.replicate padBytes (chr '=')

/-! ## Decoding -/

/-- The bits of the digit `i` are put into the block; also how many bytes the block has then. -/
def base64Step (d : List UInt8) (i idx : Nat) : List UInt8 × Nat :=
  let byteOffset := i * 6 / 8
  let bitOffset := i * 6 % 8
  let d := d.modify byteOffset (· &&& ~~~UInt8.ofNat (1 <<< (8 - bitOffset) - 1))
  if bitOffset < 3 then (d.modify byteOffset (· ||| UInt8.ofNat (idx <<< (2 - bitOffset))), byteOffset + 1)
  else
    ((d.modify byteOffset (· ||| UInt8.ofNat (idx >>> (bitOffset - 2)))).set (byteOffset + 1)
      (UInt8.ofNat (idx <<< (8 - (bitOffset - 2)))), byteOffset + 2)

/-- The loop of `ldb_base64_decode`, with the string that is left. The block is the string itself: what is written lies
where digits have been read. -/
def base64Loop (d : List UInt8) (i n : Nat) : Text → Option (List UInt8)
  | [] => some (d.take (if 3 ≤ (i - 1) * 6 % 8 then n - 1 else n))
  | c :: s =>
    match b64.findIdx? (· = c) with
    | some idx =>
      let (d, n) := base64Step d i idx
      base64Loop d (i + 1) n s
    | none =>
      -- the only termination allowed
      if c = chr '=' then some (d.take (if 3 ≤ (i - 1) * 6 % 8 then n - 1 else n)) else none

/-- `ldb_base64_decode`. -/
def ldbBase64Decode (s : Text) : Option (List UInt8) := base64Loop s 0 0 s

/-! ## Bits -/

theorem byteAt_lt (d : List UInt8) (k : Nat) : byteAt d k < 256 := UInt8.toNat_lt _

theorem byteAt_of_le {d : List UInt8} {k : Nat} (h : d.length ≤ k) : byteAt d k = 0 := by
  rw [byteAt, getD_eq_getElem?_getD, List.getElem?_eq_none h]
  rfl

theorem or_of_lt {a b k : Nat} (h : b < 2 ^ k) : a * 2 ^ k ||| b = a * 2 ^ k + b := by
  rw [← Nat.shiftLeft_eq, ← Nat.shiftLeft_add_eq_or_of_lt h]

/-- The bits of a digit, by the place of its first bit in a byte. -/
theorem b64Index_eq (d : List UInt8) (i : Nat) : b64Index d i =
    if i % 4 = 0 then byteAt d (i * 6 / 8) / 4
    else if i % 4 = 1 then byteAt d (i * 6 / 8) % 4 * 16 + byteAt d (i * 6 / 8 + 1) / 16
    else if i % 4 = 2 then byteAt d (i * 6 / 8) % 16 * 4 + byteAt d (i * 6 / 8 + 1) / 64
    else byteAt d (i * 6 / 8) % 64 := by
  have hlt := byteAt_lt d (i * 6 / 8)
  have hlt' := byteAt_lt d (i * 6 / 8 + 1)
  have hand : ∀ a : Nat, a &&& 0x3F = a % 64 := fun a => Nat.and_two_pow_sub_one_eq_mod a 6
  have hbit : i * 6 % 8 = [0, 6, 4, 2].getD (i % 4) 0 := by
    have hi : i % 4 < 4 := Nat.mod_lt _ (by decide)
    have hmod : i * 6 % 8 = i % 4 * 6 % 8 := by omega
    rw [hmod]
    generalize i % 4 = r at hi
    revert r
    decide
  -- behind the end a byte counts as zero
  have hend : ∀ idx s, (if i * 6 / 8 + 1 < d.length then idx ||| (byteAt d (i * 6 / 8 + 1) >>> s) else idx) =
      idx ||| (byteAt d (i * 6 / 8 + 1) >>> s) := by
    intro idx s
    split
    · rfl
    · next h => rw [byteAt_of_le (Nat.not_lt.1 h), Nat.zero_shiftRight, Nat.or_zero]
  unfold b64Index
  simp only [hend, hand, hbit]
  have hi : i % 4 < 4 := Nat.mod_lt _ (by decide)
  generalize byteAt d (i * 6 / 8) = x at hlt
  generalize byteAt d (i * 6 / 8 + 1) = y at hlt'
  generalize i % 4 = r at hi
  match r, hi with
  | 0, _ =>
    show x >>> 2 % 64 = x / 4
    rw [Nat.shiftRight_eq_div_pow]
    omega
  | 1, _ =>
    have hx : x * 2 ^ 4 % 64 = x % 4 * 2 ^ 4 := by omega
    calc x <<< 4 % 64 ||| y >>> 4 = x * 2 ^ 4 % 64 ||| y / 2 ^ 4 := by rw [Nat.shiftLeft_eq, Nat.shiftRight_eq_div_pow]
      _ = x % 4 * 2 ^ 4 ||| y / 2 ^ 4 := by rw [hx]
      _ = x % 4 * 2 ^ 4 + y / 2 ^ 4 := or_of_lt (by omega)
  | 2, _ =>
    have hx : x * 2 ^ 2 % 64 = x % 16 * 2 ^ 2 := by omega
    calc x <<< 2 % 64 ||| y >>> 6 = x * 2 ^ 2 % 64 ||| y / 2 ^ 6 := by rw [Nat.shiftLeft_eq, Nat.shiftRight_eq_div_pow]
      _ = x % 16 * 2 ^ 2 ||| y / 2 ^ 6 := by rw [hx]
      _ = x % 16 * 2 ^ 2 + y / 2 ^ 6 := or_of_lt (by omega)
  | 3, _ => exact congrArg (· % 64) (Nat.shiftRight_zero)

theorem byteAt_modify (d : List UInt8) (f : UInt8 → UInt8) (k j : Nat) :
    byteAt (d.modify k f) j = if j = k ∧ k < d.length then (f (d.getD k 0)).toNat else byteAt d j := by
  unfold byteAt
  simp only [getD_eq_getElem?_getD, List.getElem?_modify]
  by_cases hj : j = k
  · subst hj
    by_cases hlt : j < d.length
    · simp [hlt]
    · simp [hlt]
  · simp [hj, Ne.symm hj]

theorem byteAt_set (d : List UInt8) (x : UInt8) (k j : Nat) :
    byteAt (d.set k x) j = if j = k ∧ k < d.length then x.toNat else byteAt d j := by
  unfold byteAt
  simp only [getD_eq_getElem?_getD, List.getElem?_set]
  by_cases hj : j = k
  · subst hj
    by_cases hlt : j < d.length
    · simp [hlt]
    · simp [hlt]
  · simp [hj, Ne.symm hj]

/-- The bits of a byte above others are kept, and others are put below them. -/
theorem keep_or (x : UInt8) {s q : Nat} (hs : s = 2 ∨ s = 4 ∨ s = 6 ∨ s = 8) (hq : q < 2 ^ s) :
    ((x &&& ~~~UInt8.ofNat (1 <<< s - 1)) ||| UInt8.ofNat q).toNat = x.toNat / 2 ^ s * 2 ^ s + q := by
  have hkeep : (x &&& ~~~UInt8.ofNat (1 <<< s - 1)).toNat = x.toNat / 2 ^ s * 2 ^ s := by
    have hx := x.toNat_lt
    rw [UInt8.toNat_and]
    generalize x.toNat = n at hx
    rcases hs with rfl | rfl | rfl | rfl <;> revert n <;> decide +kernel
  have hlt : q < 256 := by rcases hs with rfl | rfl | rfl | rfl <;> omega
  rw [UInt8.toNat_or, hkeep, UInt8.toNat_ofNat_of_lt' hlt, or_of_lt hq]

/-- How many bits of the byte are below those of earlier digits. -/
def freeBits (i : Nat) : Nat := 8 - i * 6 % 8

theorem freeBits_eq (i : Nat) : i % 4 = 0 ∧ freeBits i = 8 ∧ i * 6 % 8 = 0 ∨ i % 4 = 1 ∧ freeBits i = 2 ∧ i * 6 % 8 = 6 ∨
    i % 4 = 2 ∧ freeBits i = 4 ∧ i * 6 % 8 = 4 ∨ i % 4 = 3 ∧ freeBits i = 6 ∧ i * 6 % 8 = 2 := by
  have hsplit : i * 6 % 8 = i % 4 * 6 % 8 := by omega
  have hi : i % 4 < 4 := Nat.mod_lt _ (by decide)
  unfold freeBits
  rw [hsplit]
  generalize i % 4 = r at hi
  revert r
  decide

/-- The block has the bits of the first digits. -/
structure HasDigits (d v : List UInt8) (i : Nat) : Prop where
  whole : ∀ j < i * 6 / 8, byteAt d j = byteAt v j
  cut : byteAt v (i * 6 / 8) / 2 ^ freeBits i = byteAt d (i * 6 / 8) / 2 ^ freeBits i

/-- The block after a digit whose bits all lie in one byte. -/
theorem byteAt_step_one (d : List UInt8) {i idx : Nat} (hb : i * 6 % 8 < 3) (hidx : idx < 64) (hi : i * 6 / 8 < d.length) (j : Nat) :
    byteAt (base64Step d i idx).1 j = if j = i * 6 / 8 then
      byteAt d j / 2 ^ freeBits i * 2 ^ freeBits i + idx * 2 ^ (freeBits i - 6) else byteAt d j := by
  have hf := freeBits_eq i
  have hs : freeBits i = 2 ∨ freeBits i = 4 ∨ freeBits i = 6 ∨ freeBits i = 8 := by omega
  have hshift : idx <<< (2 - i * 6 % 8) = idx * 2 ^ (freeBits i - 6) := by
    rw [Nat.shiftLeft_eq, show 2 - i * 6 % 8 = freeBits i - 6 by omega]
  have hlt : idx * 2 ^ (freeBits i - 6) < 2 ^ freeBits i := by
    rcases hf with ⟨-, hf, hb'⟩ | ⟨-, hf, hb'⟩ | ⟨-, hf, hb'⟩ | ⟨-, hf, hb'⟩ <;> rw [hf] <;> omega
  rw [base64Step, if_pos hb]
  dsimp only
  rw [modify_modify_eq, byteAt_modify]
  by_cases hj : j = i * 6 / 8
  · subst hj
    rw [if_pos ⟨rfl, hi⟩, if_pos rfl, hshift]
    exact keep_or _ hs hlt
  · rw [if_neg fun h => hj h.1, if_neg hj]

/-- The block after a digit whose bits lie in two bytes. -/
theorem byteAt_step_two (d : List UInt8) {i idx : Nat} (hb : ¬ i * 6 % 8 < 3) (hidx : idx < 64) (hi : i * 6 / 8 + 1 < d.length)
    (j : Nat) : byteAt (base64Step d i idx).1 j = if j = i * 6 / 8 + 1 then idx * 2 ^ (2 + freeBits i) % 256
      else if j = i * 6 / 8 then byteAt d j / 2 ^ freeBits i * 2 ^ freeBits i + idx / 2 ^ (6 - freeBits i) else byteAt d j := by
  have hf := freeBits_eq i
  have hs : freeBits i = 2 ∨ freeBits i = 4 ∨ freeBits i = 6 ∨ freeBits i = 8 := by omega
  have hshift : idx >>> (i * 6 % 8 - 2) = idx / 2 ^ (6 - freeBits i) := by
    rw [Nat.shiftRight_eq_div_pow, show i * 6 % 8 - 2 = 6 - freeBits i by omega]
  have hlt : idx / 2 ^ (6 - freeBits i) < 2 ^ freeBits i := by
    rcases hf with ⟨-, hf, hb'⟩ | ⟨-, hf, hb'⟩ | ⟨-, hf, hb'⟩ | ⟨-, hf, hb'⟩ <;> rw [hf] <;> omega
  have hlow : (UInt8.ofNat (idx <<< (8 - (i * 6 % 8 - 2)))).toNat = idx * 2 ^ (2 + freeBits i) % 256 := by
    rw [Nat.shiftLeft_eq, show 8 - (i * 6 % 8 - 2) = 2 + freeBits i by omega]
    rfl
  rw [base64Step, if_neg hb]
  dsimp only
  rw [modify_modify_eq, byteAt_set, byteAt_modify, length_modify]
  by_cases hj : j = i * 6 / 8 + 1
  · rw [if_pos ⟨hj, hi⟩, if_pos hj, hlow]
  · rw [if_neg fun h => hj h.1, if_neg hj]
    by_cases hj' : j = i * 6 / 8
    · subst hj'
      rw [if_pos ⟨rfl, by omega⟩, if_pos rfl, hshift]
      exact keep_or _ hs hlt
    · rw [if_neg fun h => hj' h.1, if_neg hj']

theorem b64Index_lt (v : List UInt8) (i : Nat) : b64Index v i < 64 := by
  have hx := byteAt_lt v (i * 6 / 8)
  have hy := byteAt_lt v (i * 6 / 8 + 1)
  rw [b64Index_eq]
  split_ifs <;> omega

theorem HasDigits.step {d v : List UInt8} {i : Nat} (h : HasDigits d v i) (hi : i < d.length) :
    HasDigits (base64Step d i (b64Index v i)).1 v (i + 1) := by
  have hx := byteAt_lt v (i * 6 / 8)
  have hy := byteAt_lt v (i * 6 / 8 + 1)
  have hd := byteAt_lt d (i * 6 / 8)
  have hlt := b64Index_lt v i
  have hidx := b64Index_eq v i
  obtain ⟨hwhole, hcut⟩ := h
  have hnext : (i + 1) * 6 / 8 = i * 6 / 8 + (if i % 4 = 0 then 0 else 1) := by
    split
    · omega
    · have hr : i % 4 = 1 ∨ i % 4 = 2 ∨ i % 4 = 3 := by omega
      rcases hr with hr | hr | hr <;> omega
  rcases freeBits_eq i with ⟨hr, hf, hb⟩ | ⟨hr, hf, hb⟩ | ⟨hr, hf, hb⟩ | ⟨hr, hf, hb⟩
  · have hf' : freeBits (i + 1) = 2 := by have := freeBits_eq (i + 1); omega
    rw [if_pos hr] at hnext hidx
    have hstep := byteAt_step_one d (by omega) hlt (by omega : i * 6 / 8 < d.length)
    constructor
    · intro j hj
      rw [hnext] at hj
      rw [hstep, if_neg (by omega), hwhole j hj]
    · rw [hf', hnext, hstep, Nat.add_zero, if_pos rfl, hf, hidx]
      omega
  · have hf' : freeBits (i + 1) = 4 := by have := freeBits_eq (i + 1); omega
    rw [if_neg (by omega)] at hnext
    rw [if_neg (by omega), if_pos hr] at hidx
    have hstep := byteAt_step_two d (by omega) hlt (by omega : i * 6 / 8 + 1 < d.length)
    rw [hf] at hcut hstep
    constructor
    · intro j hj
      rw [hstep, if_neg (by omega)]
      split
      · next hj' =>
        rw [hj', hidx]
        omega
      · exact hwhole j (by omega)
    · rw [hf', hnext, hstep, if_pos rfl, hidx]
      omega
  · have hf' : freeBits (i + 1) = 6 := by have := freeBits_eq (i + 1); omega
    rw [if_neg (by omega)] at hnext
    rw [if_neg (by omega), if_neg (by omega), if_pos hr] at hidx
    have hstep := byteAt_step_two d (by omega) hlt (by omega : i * 6 / 8 + 1 < d.length)
    rw [hf] at hcut hstep
    constructor
    · intro j hj
      rw [hstep, if_neg (by omega)]
      split
      · next hj' =>
        rw [hj', hidx]
        omega
      · exact hwhole j (by omega)
    · rw [hf', hnext, hstep, if_pos rfl, hidx]
      omega
  · have hf' : freeBits (i + 1) = 8 := by have := freeBits_eq (i + 1); omega
    rw [if_neg (by omega)] at hnext
    rw [if_neg (by omega), if_neg (by omega), if_neg (by omega)] at hidx
    have hstep := byteAt_step_one d (by omega) hlt (by omega : i * 6 / 8 < d.length)
    rw [hf] at hcut hstep
    constructor
    · intro j hj
      rw [hstep]
      split
      · next hj' =>
        rw [hj', hidx]
        omega
      · exact hwhole j (by omega)
    · have h1 : byteAt v ((i + 1) * 6 / 8) < 2 ^ 8 := byteAt_lt v ((i + 1) * 6 / 8)
      have h2 : byteAt (base64Step d i (b64Index v i)).1 ((i + 1) * 6 / 8) < 2 ^ 8 := byteAt_lt _ _
      rw [hf', Nat.div_eq_of_lt h1, Nat.div_eq_of_lt h2]

theorem length_base64Step (d : List UInt8) (i idx : Nat) : (base64Step d i idx).1.length = d.length := by
  unfold base64Step
  dsimp only
  split <;> simp

/-- How many bytes the block has after a digit. -/
theorem base64Step_snd (d : List UInt8) (i idx : Nat) :
    (base64Step d i idx).2 = i * 6 / 8 + (if i * 6 % 8 < 3 then 1 else 2) := by
  unfold base64Step
  dsimp only
  split <;> rfl

/-! ## What is encoded is decoded -/

theorem b64_eq : b64 = (List.range' 65 26 ++ List.range' 97 26 ++ List.range' 48 10 ++ [43, 47]).map UInt8.ofNat := by
  decide

theorem findIdx_b64 {k : Nat} (h : k < 64) : b64.findIdx? (· = b64.getD k 0) = some k := by
  rw [b64_eq]
  revert k
  decide

theorem b64_getD_mem {k : Nat} (h : k < 64) : isAlnum (b64.getD k 0) = true ∨ b64.getD k 0 = chr '+' ∨ b64.getD k 0 = chr '/' := by
  rw [b64_eq]
  revert k
  decide

/-- The digits of a value are read one after the other. -/
theorem base64Loop_digits {v d : List UInt8} {i n m : Nat} (h : HasDigits d v i) (hlen : i + m ≤ d.length) (s : Text) :
    ∃ d', base64Loop d i n (((List.range' i m).map fun i => b64.getD (b64Index v i) 0) ++ s) =
        base64Loop d' (i + m) (if m = 0 then n else (i + m - 1) * 6 / 8 + (if (i + m - 1) * 6 % 8 < 3 then 1 else 2)) s ∧
      HasDigits d' v (i + m) ∧ d'.length = d.length := by
  induction m generalizing d i n with
  | zero => exact ⟨d, rfl, h, rfl⟩
  | succ m ih =>
    have hstep := h.step (by omega)
    obtain ⟨d', e, hd', hl⟩ := @ih (base64Step d i (b64Index v i)).1 (i + 1) (base64Step d i (b64Index v i)).2 hstep
      (by rw [length_base64Step]; omega)
    refine ⟨d', ?_, by rw [show i + (m + 1) = i + 1 + m by omega]; exact hd', by rw [hl, length_base64Step]⟩
    rw [List.range'_succ, map_cons, cons_append, base64Loop, findIdx_b64 (b64Index_lt v i)]
    dsimp only
    rw [e, if_neg (Nat.succ_ne_zero m), show i + (m + 1) - 1 = i + m by omega, show i + (m + 1) = i + 1 + m by omega]
    by_cases hm : m = 0
    · subst hm
      simp only [↓reduceIte, Nat.add_zero, base64Step_snd]
    · rw [if_neg hm, show i + 1 + m - 1 = i + m by omega]

theorem base64Loop_pad (d : List UInt8) (i n k : Nat) : base64Loop d i n (List.replicate k (chr '=')) =
    some (d.take (if 3 ≤ (i - 1) * 6 % 8 then n - 1 else n)) := by
  cases k with
  | zero => rfl
  | succ k =>
    have hnone : b64.findIdx? (· = chr '=') = none := by
      rw [b64_eq]
      decide
    rw [replicate_succ, base64Loop, hnone]
    exact if_pos rfl

theorem take_eq_of_byteAt {d v : List UInt8} (hlen : v.length ≤ d.length) (h : ∀ j < v.length, byteAt d j = byteAt v j) :
    d.take v.length = v := by
  refine ext_getElem (by rw [length_take]; omega) fun j h1 h2 => ?_
  have hj := UInt8.toNat_inj.1 (h j h2)
  rw [getD_eq_getElem?_getD, getD_eq_getElem?_getD, List.getElem?_eq_getElem (by omega),
    List.getElem?_eq_getElem h2] at hj
  rw [getElem_take]
  exact hj

theorem ldbBase64_roundTrip (v : List UInt8) : ldbBase64Decode (ldbBase64Encode v) = some v := by
  rw [ldbBase64Decode, ldbBase64Encode]
  generalize hbytes : (v.length * 8 + 5) / 6 = bytes
  generalize (if bytes % 4 ≠ 0 then 4 - bytes % 4 else 0) = pad
  rw [range_eq_range']
  generalize htext : ((List.range' 0 bytes).map fun i => b64.getD (b64Index v i) 0) ++ List.replicate pad (chr '=') = text
  have hlen : 0 + bytes ≤ text.length := by
    rw [← htext, length_append, length_map, length_range']
    omega
  have hstart : HasDigits text v 0 := by
    refine ⟨fun j hj => absurd hj (Nat.not_lt_zero _), ?_⟩
    have h1 := byteAt_lt v 0
    have h2 := byteAt_lt text 0
    exact (Nat.div_eq_of_lt h1).trans (Nat.div_eq_of_lt h2).symm
  obtain ⟨d, e, hd, hdlen⟩ := @base64Loop_digits v text 0 0 bytes hstart hlen (List.replicate pad (chr '='))
  rw [htext, base64Loop_pad] at e
  rw [e]
  rw [Nat.zero_add] at hd hlen ⊢
  have hwhole : bytes * 6 / 8 = v.length := by omega
  have hcount : (if 3 ≤ (bytes - 1) * 6 % 8 then
      (if bytes = 0 then 0 else (bytes - 1) * 6 / 8 + (if (bytes - 1) * 6 % 8 < 3 then 1 else 2)) - 1 else
        if bytes = 0 then 0 else (bytes - 1) * 6 / 8 + (if (bytes - 1) * 6 % 8 < 3 then 1 else 2)) = v.length := by
    have hmod : v.length % 3 = 0 ∨ v.length % 3 = 1 ∨ v.length % 3 = 2 := by omega
    split_ifs <;> rcases hmod with h | h | h <;> omega
  rw [hcount]
  exact congrArg some (take_eq_of_byteAt (by omega) fun j hj => hd.whole j (by omega))

example : ldbBase64Decode (ldbBase64Encode [77, 0, 255, 9]) = some [77, 0, 255, 9] := by
  decide +kernel

/-- An encoded value is made of digits and signs for padding. -/
theorem mem_ldbBase64Encode {v : List UInt8} {c : UInt8} (h : c ∈ ldbBase64Encode v) :
    isAlnum c = true ∨ c = chr '+' ∨ c = chr '/' ∨ c = chr '=' := by
  rcases mem_append.1 h with h | h
  · obtain ⟨i, -, rfl⟩ := mem_map.1 h
    rcases b64_getD_mem (b64Index_lt v i) with h | h | h
    · exact .inl h
    · exact .inr (.inl h)
    · exact .inr (.inr (.inl h))
  · exact .inr (.inr (.inr (eq_of_mem_replicate h)))

end Samba.Ldb
