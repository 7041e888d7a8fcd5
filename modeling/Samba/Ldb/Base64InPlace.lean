/-
`ldb_base64_decode` (lib/ldb/common/ldb_ldif.c) in the buffer it reads: the bytes are written over the digits they come from.
It answers what a decoder that reads from a copy answers, because each place it writes lies among the characters it has read.
-/
import Samba.Ldb.Base64
import Samba.Ndr.Basic

namespace Samba.Ldb

open CString List
open Samba.Ndr (maxTallocSize)

/-! ## The decoder in its buffer -/

/-- Where the decoder is: the buffer, the number of characters that `s` has gone past, the number of bytes decoded, the bit
offset of the last digit, and every place written so far with the number of characters read by then. -/
structure Base64Decoder where
  d : List UInt8
  i : Nat
  n : Nat
  bitOffset : Nat
  writes : List (Nat × Nat)
  deriving DecidableEq, Repr

namespace Base64Decoder

/-- `d[k] = x`, while `s` points at the character `i`. -/
def put (st : Base64Decoder) (k : Nat) (x : UInt8) : Base64Decoder :=
  { st with d := st.d.set k x, writes := (st.i + 1, k) :: st.writes }

/-- The body of the loop, for the digit `idx`. -/
def digit (st : Base64Decoder) (idx : Nat) : Base64Decoder :=
  let byteOffset := st.i * 6 / 8
  let bitOffset := st.i * 6 % 8
  let st := st.put byteOffset (st.d.getD byteOffset 0 &&& ~~~UInt8.ofNat (1 <<< (8 - bitOffset) - 1))
  if bitOffset < 3 then
    let st := st.put byteOffset (st.d.getD byteOffset 0 ||| UInt8.ofNat (idx <<< (2 - bitOffset)))
    { st with i := st.i + 1, n := byteOffset + 1, bitOffset := bitOffset }
  else
    let st := st.put byteOffset (st.d.getD byteOffset 0 ||| UInt8.ofNat (idx >>> (bitOffset - 2)))
    let st := st.put (byteOffset + 1) 0
    let st := st.put (byteOffset + 1) (st.d.getD (byteOffset + 1) 0 ||| UInt8.ofNat (idx <<< (8 - (bitOffset - 2))))
    { st with i := st.i + 1, n := byteOffset + 2, bitOffset := bitOffset }

/-- The loop, of at most `fuel` rounds; `none` where it leaves the buffer. -/
def loop : Nat → Base64Decoder → Option Base64Decoder
  | 0, _ => none
  | fuel + 1, st =>
    match st.d[st.i]? with
    | none => none
    | some c =>
      if c = 0 then some st
      else
        match b64.findIdx? (· = c) with
        | none => some st
        | some idx => loop fuel (st.digit idx)

/-- The end of `ldb_base64_decode`, with what it returns. -/
def finish (st : Base64Decoder) : Int × Base64Decoder :=
  let n := if 3 ≤ st.bitOffset then st.n - 1 else st.n
  let c := st.d.getD st.i 0
  -- the only termination allowed
  if c ≠ 0 ∧ c ≠ chr '=' then (-1, st) else (n, st.put n 0)

/-- No character was overwritten before it was read. -/
def Safe (st : Base64Decoder) : Prop := ∀ w ∈ st.writes, w.2 < w.1

end Base64Decoder

/-- `ldb_base64_decode` on a buffer: what it returns and what it leaves, `none` where it reads behind the buffer. -/
def ldbBase64DecodeInPlace (s : List UInt8) : Option (Int × Base64Decoder) :=
  (Base64Decoder.loop (s.length + 1) ⟨s, 0, 0, 0, []⟩).map (·.finish)

/-! ## One digit -/

namespace Base64Decoder

variable {st : Base64Decoder}

theorem set_or_and {d : List UInt8} {k : Nat} (x y : UInt8) :
    (d.set k (d.getD k 0 &&& x)).set k ((d.set k (d.getD k 0 &&& x)).getD k 0 ||| y) =
      (d.modify k (· &&& x)).modify k (· ||| y) := by
  rw [modify_modify_eq, List.set_set]
  apply ext_getElem?
  intro j
  simp only [List.getElem?_set, List.getElem?_modify, getD_eq_getElem?_getD]
  by_cases hj : k = j
  · subst hj
    by_cases hk : k < d.length <;> simp [hk]
  · simp [hj]

theorem set_zero_or (d : List UInt8) (k : Nat) (y : UInt8) :
    (d.set k 0).set k ((d.set k 0).getD k 0 ||| y) = d.set k y := by
  rw [List.set_set, getD_eq_getElem?_getD, List.getElem?_set_self']
  cases d[k]? <;> simp

/-- The block after a digit is that of the decoder which reads from a copy. -/
theorem digit_d (st : Base64Decoder) (idx : Nat) : (st.digit idx).d = (base64Step st.d st.i idx).1 := by
  unfold digit base64Step put
  dsimp only
  split
  · exact set_or_and _ _
  · rw [set_zero_or, set_or_and]

theorem digit_i (st : Base64Decoder) (idx : Nat) : (st.digit idx).i = st.i + 1 := by
  unfold digit
  dsimp only
  split <;> rfl

theorem digit_n (st : Base64Decoder) (idx : Nat) : (st.digit idx).n = (base64Step st.d st.i idx).2 := by
  unfold digit base64Step
  dsimp only
  split <;> rfl

theorem digit_bitOffset (st : Base64Decoder) (idx : Nat) : (st.digit idx).bitOffset = st.i * 6 % 8 := by
  unfold digit
  dsimp only
  split <;> rfl

theorem Safe.put (h : st.Safe) {k : Nat} (hk : k ≤ st.i) (x : UInt8) : (st.put k x).Safe := by
  rintro w hw
  rcases mem_cons.1 hw with rfl | hw
  · exact Nat.lt_succ_of_le hk
  · exact h w hw

/-- The bits of the digit `i` lie in the first `i + 1` bytes. -/
theorem Safe.digit (h : st.Safe) (idx : Nat) : (st.digit idx).Safe := by
  have hbyte : st.i * 6 / 8 < st.i + 1 := by omega
  unfold Base64Decoder.digit Base64Decoder.put
  dsimp only
  split
  · rintro w hw
    simp only [mem_cons] at hw
    rcases hw with rfl | rfl | hw
    · exact hbyte
    · exact hbyte
    · exact h w hw
  · have hnext : st.i * 6 / 8 + 1 < st.i + 1 := by omega
    rintro w hw
    simp only [mem_cons] at hw
    rcases hw with rfl | rfl | rfl | rfl | hw
    · exact hnext
    · exact hnext
    · exact hbyte
    · exact hbyte
    · exact h w hw

/-! ## The loop -/

/-- What the decoder leaves where it stops, against the decoder that reads the rest of the string `s` from a copy of the
block `d`. -/
structure Stops (d s : List UInt8) (i n : Nat) (st : Base64Decoder) (d' : List UInt8) : Prop where
  block : st.d = d' ++ [0]
  length : d'.length = d.length
  inside : st.i ≤ d.length
  count : st.n - (if 3 ≤ st.bitOffset then 1 else 0) ≤ st.i
  safe : st.Safe
  copy : base64Loop d i n s = if st.d.getD st.i 0 ≠ 0 ∧ st.d.getD st.i 0 ≠ chr '=' then none
    else some (d'.take (if 3 ≤ st.bitOffset then st.n - 1 else st.n))

/-- Before a round: what is left of the string is still in the buffer as it was. -/
structure Unread (d s : List UInt8) (st : Base64Decoder) : Prop where
  block : st.d = d ++ [0]
  ahead : d.drop st.i = s
  inside : st.i ≤ d.length
  bit : st.bitOffset = (st.i - 1) * 6 % 8
  count : st.n - (if 3 ≤ st.bitOffset then 1 else 0) ≤ st.i
  safe : st.Safe

/-- A digit is put among the first `i + 1` bytes, in front of the last byte of the block. -/
theorem base64Step_append {d : List UInt8} {i : Nat} (hi : i < d.length) (idx : Nat) (e : List UInt8) :
    base64Step (d ++ e) i idx = ((base64Step d i idx).1 ++ e, (base64Step d i idx).2) := by
  have hbyte : i * 6 / 8 < d.length := by omega
  have hmodify (f : UInt8 → UInt8) (d : List UInt8) (h : i * 6 / 8 < d.length) :
      (d ++ e).modify (i * 6 / 8) f = d.modify (i * 6 / 8) f ++ e := by
    simp [modify_eq_set_getElem?, List.getElem?_append_left h, set_append_left, h]
  unfold base64Step
  dsimp only
  split
  · rw [hmodify _ _ hbyte, hmodify _ _ (by simpa using hbyte)]
  · have hnext : i * 6 / 8 + 1 < d.length := by omega
    rw [hmodify _ _ hbyte, hmodify _ _ (by simpa using hbyte), set_append_left _ _ (by simpa using hnext)]

theorem base64Step_drop (d : List UInt8) (i idx : Nat) : (base64Step d i idx).1.drop (i + 1) = d.drop (i + 1) := by
  have hbyte : i * 6 / 8 < i + 1 := by omega
  unfold base64Step
  dsimp only
  split
  · rw [drop_modify_of_lt _ _ _ _ hbyte, drop_modify_of_lt _ _ _ _ hbyte]
  · have hnext : i * 6 / 8 + 1 < i + 1 := by omega
    rw [drop_set_of_lt hnext, drop_modify_of_lt _ _ _ _ hbyte, drop_modify_of_lt _ _ _ _ hbyte]

theorem Unread.digit {d s : List UInt8} {c : UInt8} (h : Unread d (c :: s) st) (idx : Nat) :
    Unread (base64Step d st.i idx).1 s (st.digit idx) := by
  have hlt : st.i < d.length := by
    have hlen := congrArg List.length h.ahead
    rw [length_drop, length_cons] at hlen
    omega
  have htail : d.drop (st.i + 1) = s := by rw [← tail_drop, h.ahead, tail_cons]
  constructor
  · rw [digit_d, h.block, base64Step_append hlt]
  · rw [digit_i, base64Step_drop, htail]
  · rw [digit_i, length_base64Step]
    exact hlt
  · rw [digit_i, digit_bitOffset, Nat.add_sub_cancel]
  · rw [digit_i, digit_n, digit_bitOffset, base64Step_snd]
    split <;> split <;> omega
  · exact h.safe.digit idx

theorem Unread.char {d s : List UInt8} (h : Unread d s st) : st.d[st.i]? = some (s.headD 0) := by
  rw [h.block]
  cases s with
  | nil =>
    have hlen := drop_eq_nil_iff.1 h.ahead
    rw [Nat.le_antisymm h.inside hlen, List.getElem?_append_right (Nat.le_refl _)]
    simp
  | cons c s =>
    have hhead := congrArg List.head? h.ahead
    rw [List.head?_drop, List.head?_cons] at hhead
    rw [List.getElem?_append_left (List.getElem?_eq_some_iff.1 hhead).1, hhead]
    rfl

/-- The loop stops inside the buffer, at the end of the string or at what is no digit. -/
theorem loop_stops {s : List UInt8} (hs : 0 ∉ s) {d : List UInt8} {fuel : Nat} (hfuel : s.length < fuel)
    (h : Unread d s st) : ∃ st' d', loop fuel st = some st' ∧ Stops d s st.i st.n st' d' := by
  induction s generalizing d st fuel with
  | nil =>
    obtain ⟨fuel, rfl⟩ : ∃ k, fuel = k + 1 := ⟨fuel - 1, by simp at hfuel; omega⟩
    have hchar := h.char
    refine ⟨st, d, ?_, h.block, rfl, h.inside, h.count, h.safe, ?_⟩
    · rw [loop, hchar]
      simp
    · rw [getD_eq_getElem?_getD, hchar, base64Loop, ← h.bit]
      simp
  | cons c s ih =>
    obtain ⟨fuel, rfl⟩ : ∃ k, fuel = k + 1 := ⟨fuel - 1, by simp at hfuel; omega⟩
    have hchar := h.char
    have hc : c ≠ 0 := by
      rintro rfl
      exact hs mem_cons_self
    rw [headD_cons] at hchar
    rw [loop, hchar]
    dsimp only
    rw [if_neg hc]
    cases hidx : b64.findIdx? (· = c) with
    | none =>
      refine ⟨st, d, rfl, h.block, rfl, h.inside, h.count, h.safe, ?_⟩
      rw [base64Loop, hidx, getD_eq_getElem?_getD, hchar, ← h.bit]
      by_cases hpad : c = chr '=' <;> simp [hc, hpad]
    | some idx =>
      have hfuel' : s.length < fuel := by simpa using hfuel
      obtain ⟨st', d', hloop, hstops⟩ := ih (fun hm => hs (mem_cons_of_mem c hm)) hfuel' (h.digit idx)
      refine ⟨st', d', hloop, hstops.block, ?_, ?_, hstops.count, hstops.safe, ?_⟩
      · rw [hstops.length, length_base64Step]
      · rw [← length_base64Step d st.i idx]
        exact hstops.inside
      · have hcopy := hstops.copy
        have hlt : st.i < d.length := by
          have hlen := congrArg List.length h.ahead
          rw [length_drop, length_cons] at hlen
          omega
        rw [digit_i, digit_n, h.block, base64Step_append hlt] at hcopy
        rw [base64Loop, hidx]
        exact hcopy

end Base64Decoder

/-! ## The decoder and its copy -/

/-- Decoding in place gives the answer of the decoder that reads from a copy, with the bytes at the start of the buffer, and
overwrites no character before it is read. -/
structure DecodesInPlace (s : Text) (answer : Option (List UInt8)) (r : Int × Base64Decoder) : Prop where
  returned : r.1 = match answer with
    | some v => (v.length : Int)
    | none => -1
  left : ∀ v, answer = some v → r.2.d.take v.length = v
  length : r.2.d.length = s.length + 1
  safe : r.2.Safe

theorem ldbBase64DecodeInPlace_eq {s : Text} (hs : 0 ∉ s) :
    ∃ r, ldbBase64DecodeInPlace (s ++ [0]) = some r ∧ DecodesInPlace s (ldbBase64Decode s) r := by
  have hstart : Base64Decoder.Unread s s ⟨s ++ [0], 0, 0, 0, []⟩ :=
    ⟨rfl, rfl, Nat.zero_le _, rfl, Nat.zero_le _, by rintro w ⟨⟩⟩
  have hfuel : s.length < (s ++ [0]).length + 1 := by rw [length_append]; omega
  obtain ⟨st, d, hloop, hstops⟩ := Base64Decoder.loop_stops hs hfuel hstart
  refine ⟨st.finish, ?_, ?_⟩
  · rw [ldbBase64DecodeInPlace, hloop]
    rfl
  have hinside : st.i < st.d.length := by
    rw [hstops.block, length_append, hstops.length]
    exact Nat.lt_succ_of_le hstops.inside
  have hlength : st.d.length = s.length + 1 := by rw [hstops.block, length_append, hstops.length, length_singleton]
  rw [ldbBase64Decode, hstops.copy]
  unfold Base64Decoder.finish
  dsimp only
  split
  · exact ⟨rfl, by simp, hlength, hstops.safe⟩
  · have hcount := hstops.count
    have hn : (if 3 ≤ st.bitOffset then st.n - 1 else st.n) ≤ st.i := by
      split <;> simp_all
    have hle : (if 3 ≤ st.bitOffset then st.n - 1 else st.n) ≤ d.length := by
      rw [hstops.length]
      exact Nat.le_trans hn hstops.inside
    constructor
    · simp [hle]
    · rintro v hv
      rw [← Option.some.inj hv, length_take, Nat.min_eq_left hle]
      show (st.d.set _ 0).take _ = _
      rw [take_set_of_le (Nat.le_refl _), hstops.block, take_append_of_le_length hle]
    · show (st.d.set _ 0).length = _
      rw [length_set, hlength]
    · exact hstops.safe.put hn 0

/-! ## In place of what was encoded -/

/-- No `int` of the encoder or the decoder overflows, and `talloc_array` has a block for the characters. -/
structure Base64Fits (v : List UInt8) : Prop where
  bits : v.length * 8 + 5 < 2 ^ 31
  digits : ∀ i ≤ (ldbBase64Encode v).length, i * 6 < 2 ^ 31
  block : (ldbBase64Encode v).length + 1 < maxTallocSize

theorem length_ldbBase64Encode (v : List UInt8) : (ldbBase64Encode v).length ≤ (v.length * 8 + 5) / 6 + 3 := by
  unfold ldbBase64Encode
  dsimp only
  rw [length_append, length_map, length_range, length_replicate]
  split <;> omega

theorem base64Fits_of_lt {v : List UInt8} (h : v.length < 2 ^ 27) : Base64Fits v := by
  have hlength := length_ldbBase64Encode v
  refine ⟨by omega, fun i hi => by omega, ?_⟩
  unfold maxTallocSize
  omega

theorem zero_notMem_ldbBase64Encode (v : List UInt8) : 0 ∉ ldbBase64Encode v := by
  have hall : ∀ c : UInt8, isAlnum c = true ∨ c = chr '+' ∨ c = chr '/' ∨ c = chr '=' → c ≠ 0 :=
    forall_byte (by decide +kernel)
  intro hmem
  exact hall 0 (mem_ldbBase64Encode hmem) rfl

/-- What was encoded is decoded in place to the bytes it was, and no character is overwritten before it is read. -/
theorem ldbBase64_inPlace (v : List UInt8) (h : v.length < 2 ^ 27) :
    Base64Fits v ∧ ∃ r, ldbBase64DecodeInPlace (ldbBase64Encode v ++ [0]) = some r ∧ r.1 = v.length ∧
      r.2.d.take v.length = v ∧ r.2.Safe := by
  obtain ⟨r, hr, hdecodes⟩ := ldbBase64DecodeInPlace_eq (zero_notMem_ldbBase64Encode v)
  rw [ldbBase64_roundTrip] at hdecodes
  exact ⟨base64Fits_of_lt h, r, hr, hdecodes.returned, hdecodes.left v rfl, hdecodes.safe⟩

theorem ldbBase64_inPlace_two : Base64Fits [chr 'H', chr 'i'] ∧
    ∃ r, ldbBase64DecodeInPlace (ldbBase64Encode [chr 'H', chr 'i'] ++ [0]) = some r ∧ r.1 = 2 ∧
      r.2.d.take 2 = [chr 'H', chr 'i'] ∧ r.2.Safe :=
  ldbBase64_inPlace [chr 'H', chr 'i'] (by decide)

end Samba.Ldb
