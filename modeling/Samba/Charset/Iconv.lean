/-
Samba's own conversion between character sets (lib/charset/iconv.c): for each set a function that pulls it into UTF-16LE and
one that pushes UTF-16LE into it, and conversions between two other sets, which go through a buffer of 2048 bytes. Buffers
are lists of bytes; a conversion leaves what it did not read and gives what it wrote.
-/
import Samba.Lib.CNumber
import Samba.Lib.Rounds

namespace Samba.Charset

open CString List Rounds

/-- The values of `errno`. -/
inductive Errno
  | e2big | einval | eilseq
  deriving DecidableEq, Repr

abbrev Converted := Conv Errno UInt8 UInt8

/-- The end of a pull: whatever is left did not fit. -/
def pullStop (left : Nat) : Option Errno := if left > 0 then some .e2big else none

/-- The end of a push: half a unit is left, or something that did not fit. -/
def pushStop (left : Nat) : Option Errno :=
  if left = 1 then some .einval else if left > 1 then some .e2big else none

/-! ## ASCII -/

def asciiPullRound : List UInt8 → Nat → Except Errno (Nat × List UInt8)
  | c :: _, _ => .ok (1, [c, 0])
  | [], _ => .error .einval

/-- `ascii_pull`. -/
def asciiPull : Loop Errno UInt8 UInt8 where
  minIn := 1
  minOut := 2
  round := asciiPullRound
  stop := pullStop
  minIn_pos := by decide
  takes := by
    intro input outLeft n out h
    cases input with
    | nil => cases h
    | cons c rest =>
      obtain ⟨rfl, rfl⟩ := Prod.mk.inj (Except.ok.inj h)
      decide

def asciiPushRound : List UInt8 → Nat → Except Errno (Nat × List UInt8)
  | u0 :: _ :: _, _ => .ok (2, [u0 &&& 0x7F])
  | _, _ => .error .einval

/-- `ascii_push`. It returns the number of units that are not ASCII. -/
def asciiPush : Loop Errno UInt8 UInt8 where
  minIn := 2
  minOut := 1
  round := asciiPushRound
  stop := pushStop
  minIn_pos := Nat.zero_lt_two
  takes := by
    intro input outLeft n out h
    unfold asciiPushRound at h
    split at h
    · obtain ⟨rfl, rfl⟩ := Prod.mk.inj (Except.ok.inj h)
      decide
    · cases h

/-! ## UCS2-HEX -/

/-- A round of `ucs2hex_pull`. The scan of the digits does not stop where the input ends; `behind` is what stands there. -/
def ucs2hexPullRound (behind : List UInt8) : List UInt8 → Nat → Except Errno (Nat × List UInt8)
  | c :: rest, _ =>
    -- seven bit ascii case
    if c ≠ chr '@' then .ok (1, [c, 0])
    -- it's a hex character
    else if rest.length < 4 then .error .einval
    else match scanHexField 4 (rest ++ behind) with
      | none => .error .eilseq
      | some v => .ok (5, [UInt8.ofNat v, UInt8.ofNat (v >>> 8)])
  | [], _ => .error .einval

/-- `ucs2hex_pull`. -/
def ucs2hexPull (behind : List UInt8) : Loop Errno UInt8 UInt8 where
  minIn := 1
  minOut := 2
  round := ucs2hexPullRound behind
  stop := pullStop
  minIn_pos := by decide
  takes := by
    intro input outLeft n out h
    unfold ucs2hexPullRound at h
    split at h
    · split at h
      · obtain ⟨rfl, rfl⟩ := Prod.mk.inj (Except.ok.inj h)
        decide
      · split at h
        · cases h
        · split at h
          · cases h
          · obtain ⟨rfl, rfl⟩ := Prod.mk.inj (Except.ok.inj h)
            decide
    · cases h

/-- A digit of `%04x`. -/
def hexChar (d : Nat) : UInt8 := if d < 10 then chr '0' + UInt8.ofNat d else chr 'a' + UInt8.ofNat (d - 10)

/-- `@%04x`. -/
def hexUnit (v : Nat) : List UInt8 :=
  [chr '@', hexChar (v / 4096 % 16), hexChar (v / 256 % 16), hexChar (v / 16 % 16), hexChar (v % 16)]

/-- One round of the loop of `ucs2hex_push`. -/
def ucs2hexPushRound : List UInt8 → Nat → Except Errno (Nat × List UInt8)
  | u0 :: u1 :: _, outLeft =>
    if u1 = 0 ∧ u0 &&& 0x80 = 0 ∧ u0 ≠ chr '@' then .ok (2, [u0])
    else if outLeft < 5 then .error .e2big
    else .ok (2, hexUnit (u0.toNat + 256 * u1.toNat))
  | _, _ => .error .einval

/-- `ucs2hex_push`. -/
def ucs2hexPush : Loop Errno UInt8 UInt8 where
  minIn := 2
  minOut := 1
  round := ucs2hexPushRound
  stop := pushStop
  minIn_pos := Nat.zero_lt_two
  takes := by
    intro input outLeft n out h
    unfold ucs2hexPushRound at h
    split at h
    · split at h
      · obtain ⟨rfl, rfl⟩ := Prod.mk.inj (Except.ok.inj h)
        decide
      · split at h
        · cases h
        · obtain ⟨rfl, rfl⟩ := Prod.mk.inj (Except.ok.inj h)
          decide
    · cases h

/-! ## UTF-16 -/

/-- `swab`, and a zero for a byte that has no partner. -/
def swabBytes : List UInt8 → List UInt8
  | a :: b :: rest => b :: a :: swabBytes rest
  | [_] => [0]
  | [] => []

/-- `iconv_swab`. A length that an `int` does not hold is never the whole input; what is moved then is left out. -/
def iconvSwab (input : List UInt8) (outLeft : Nat) : Converted :=
  let n := min input.length outLeft
  if 2 ^ 31 ≤ n then ⟨some .e2big, input, []⟩
  else ⟨pullStop (input.length - n), input.drop n, swabBytes (input.take n)⟩

/-- `iconv_copy`. -/
def iconvCopy (input : List UInt8) (outLeft : Nat) : Converted :=
  let n := min input.length outLeft
  if 2 ^ 31 ≤ n then ⟨some .e2big, input, []⟩
  else ⟨pullStop (input.length - n), input.drop n, input.take n⟩

/-! ## UTF-8 -/

/-- A byte that continues a character. -/
def isContinuation (c : UInt8) : Bool := c &&& 0xc0 = 0x80

/-- One round of the loop of `utf8_pull`: the bytes it takes and the unit it writes. -/
def utf8PullRound : List UInt8 → Nat → Except Errno (Nat × List UInt8)
  | c0 :: rest, outLeft =>
    if c0 &&& 0x80 = 0 then .ok (1, [c0, 0])
    else if c0 &&& 0xe0 = 0xc0 then
      match rest with
      | c1 :: _ =>
        if !isContinuation c1 then .error .eilseq
        else .ok (2, [(c0 <<< 6) ||| (c1 &&& 0x3f), (c0 >>> 2) &&& 0x7])
      | _ => .error .eilseq
    else if c0 &&& 0xf0 = 0xe0 then
      match rest with
      | c1 :: c2 :: _ =>
        if !isContinuation c1 || !isContinuation c2 then .error .eilseq
        else .ok (3, [(c1 <<< 6) ||| (c2 &&& 0x3f), ((c0 &&& 0xF) <<< 4) ||| ((c1 >>> 2) &&& 0xF)])
      | _ => .error .eilseq
    else if c0 &&& 0xf8 = 0xf0 then
      match rest with
      | c1 :: c2 :: c3 :: _ =>
        if !isContinuation c1 || !isContinuation c2 || !isContinuation c3 then .error .eilseq
        else
          let codepoint := (c3 &&& 0x3f).toNat ||| ((c2 &&& 0x3f).toNat <<< 6) ||| ((c1 &&& 0x3f).toNat <<< 12) |||
            ((c0 &&& 0x7).toNat <<< 18)
          if codepoint < 0x10000 then
            -- accept UTF-8 characters that are not minimally packed, but pack the result
            .ok (4, [UInt8.ofNat codepoint, UInt8.ofNat (codepoint >>> 8)])
          else
            let codepoint := codepoint - 0x10000
            if outLeft < 4 then .error .e2big
            else .ok (4, [UInt8.ofNat (codepoint >>> 10), UInt8.ofNat (codepoint >>> 18) ||| 0xd8, UInt8.ofNat codepoint,
              (UInt8.ofNat (codepoint >>> 8) &&& 0x3) ||| 0xdc])
      | _ => .error .eilseq
    -- we don't handle 5 byte sequences
    else .error .einval
  | [], _ => .error .einval

variable {input : List UInt8} {n : Nat}

/-- A round of `utf8_pull` needs room for what it writes, one unit or two. -/
theorem utf8PullRound_ok {outLeft : Nat} {out : List UInt8} (h : utf8PullRound input outLeft = .ok (n, out)) :
    0 < n ∧ n ≤ input.length ∧ (out.length = 2 ∨ out.length = 4) ∧ ∀ outLeft', 2 ≤ outLeft' →
      utf8PullRound input outLeft' = if outLeft' < out.length then .error .e2big else .ok (n, out) := by
  cases input with
  | nil => cases h
  | cons c0 rest =>
    simp only [utf8PullRound] at h ⊢
    by_cases h1 : c0 &&& 0x80 = 0
    · rw [if_pos h1] at h
      obtain ⟨rfl, rfl⟩ := Prod.mk.inj (Except.ok.inj h)
      refine ⟨by decide, by simp, .inl rfl, fun outLeft' hroom => ?_⟩
      rw [if_pos h1]
      exact (if_neg (Nat.not_lt.mpr hroom)).symm
    rw [if_neg h1] at h
    by_cases h2 : c0 &&& 0xe0 = 0xc0
    · rw [if_pos h2] at h
      split at h
      · split at h
        · cases h
        · rename_i hc
          obtain ⟨rfl, rfl⟩ := Prod.mk.inj (Except.ok.inj h)
          refine ⟨by decide, by simp, .inl rfl, fun outLeft' hroom => ?_⟩
          rw [if_neg h1, if_pos h2, if_neg hc]
          exact (if_neg (Nat.not_lt.mpr hroom)).symm
      · cases h
    rw [if_neg h2] at h
    by_cases h3 : c0 &&& 0xf0 = 0xe0
    · rw [if_pos h3] at h
      split at h
      · split at h
        · cases h
        · rename_i hc
          obtain ⟨rfl, rfl⟩ := Prod.mk.inj (Except.ok.inj h)
          refine ⟨by decide, by simp, .inl rfl, fun outLeft' hroom => ?_⟩
          rw [if_neg h1, if_neg h2, if_pos h3, if_neg hc]
          exact (if_neg (Nat.not_lt.mpr hroom)).symm
      · cases h
    rw [if_neg h3] at h
    by_cases h4 : c0 &&& 0xf8 = 0xf0
    · rw [if_pos h4] at h
      split at h
      · split at h
        · cases h
        · rename_i hc
          split at h
          · rename_i hsmall
            obtain ⟨rfl, rfl⟩ := Prod.mk.inj (Except.ok.inj h)
            refine ⟨by decide, by simp, .inl rfl, fun outLeft' hroom => ?_⟩
            rw [if_neg h1, if_neg h2, if_neg h3, if_pos h4, if_neg hc, if_pos hsmall]
            exact (if_neg (Nat.not_lt.mpr hroom)).symm
          · rename_i hsmall
            split at h
            · cases h
            · obtain ⟨rfl, rfl⟩ := Prod.mk.inj (Except.ok.inj h)
              refine ⟨by decide, by simp, .inr rfl, fun outLeft' _ => ?_⟩
              rw [if_neg h1, if_neg h2, if_neg h3, if_pos h4, if_neg hc, if_neg hsmall]
              rfl
      · cases h
    · rw [if_neg h4] at h
      cases h

/-- `utf8_pull`. -/
def utf8Pull : Loop Errno UInt8 UInt8 where
  minIn := 1
  minOut := 2
  round := utf8PullRound
  stop := pullStop
  minIn_pos := by decide
  takes := fun h => (utf8PullRound_ok h).1

/-- One round of the loop of `utf8_push`. -/
def utf8PushRound : List UInt8 → Nat → Except Errno (Nat × List UInt8)
  | u0 :: u1 :: rest, outLeft =>
    -- simplest case
    if u1 = 0 ∧ u0 &&& 0x80 = 0 then .ok (2, [u0])
    -- next simplest case
    else if u1 &&& 0xf8 = 0 then
      if outLeft < 2 then .error .e2big
      else .ok (2, [(0xc0 : UInt8) ||| (u0 >>> 6) ||| (u1 <<< 2), (0x80 : UInt8) ||| (u0 &&& 0x3f)])
    -- its the second part of a 4 byte sequence. Illegal
    else if u1 &&& 0xfc = 0xdc then .error (if rest.length < 2 then .einval else .eilseq)
    else if u1 &&& 0xfc ≠ 0xd8 then
      let codepoint := u0.toNat ||| (u1.toNat <<< 8)
      if outLeft < 3 then .error .e2big
      else .ok (2, [(0xe0 : UInt8) ||| UInt8.ofNat (codepoint >>> 12), (0x80 : UInt8) ||| UInt8.ofNat ((codepoint >>> 6) &&& 0x3f),
        (0x80 : UInt8) ||| UInt8.ofNat (codepoint &&& 0x3f)])
    -- its the first part of a 4 byte sequence
    else match rest with
      | u2 :: u3 :: _ =>
        if u3 &&& 0xfc ≠ 0xdc then .error .eilseq
        else
          let codepoint := 0x10000 + (u2.toNat ||| ((u3 &&& 0x3).toNat <<< 8) ||| (u0.toNat <<< 10) |||
            ((u1 &&& 0x3).toNat <<< 18))
          if outLeft < 4 then .error .e2big
          else .ok (4, [(0xf0 : UInt8) ||| UInt8.ofNat (codepoint >>> 18),
            (0x80 : UInt8) ||| UInt8.ofNat ((codepoint >>> 12) &&& 0x3f), (0x80 : UInt8) ||| UInt8.ofNat ((codepoint >>> 6) &&& 0x3f),
            (0x80 : UInt8) ||| UInt8.ofNat (codepoint &&& 0x3f)])
      | _ => .error .einval
  | _, _ => .error .einval

/-- The last unit is the first part of a pair. -/
def EndsHigh (units : List UInt8) : Prop := ∃ high, units.getLast? = some high ∧ high &&& 0xfc = 0xd8

/-- What a round of `utf8_push` takes, a unit or a pair, and what it writes; it looks at nothing else. -/
theorem utf8PushRound_ok {outLeft : Nat} {out : List UInt8} (h : utf8PushRound input outLeft = .ok (n, out)) :
    ∃ taken rest, input = taken ++ rest ∧ taken.length = n ∧ (n = 2 ∨ n = 4 ∧ EndsHigh (taken.take 2)) ∧ ¬EndsHigh taken ∧
      1 ≤ out.length ∧
      ∀ rest' outLeft', 1 ≤ outLeft' →
        utf8PushRound (taken ++ rest') outLeft' = if outLeft' < out.length then .error .e2big else .ok (n, out) := by
  have hend : ∀ {taken : List UInt8} {u : UInt8}, u &&& 0xfc ≠ 0xd8 → ¬EndsHigh (taken ++ [u]) := by
    rintro taken u hu ⟨high, hlast, hhigh⟩
    rw [List.getLast?_concat] at hlast
    obtain rfl := Option.some.inj hlast
    exact hu hhigh
  have hsmall : ∀ u : UInt8, u &&& 0xf8 = 0 → u &&& 0xfc ≠ 0xd8 :=
    forall_byte (by decide +kernel)
  match input with
  | [] => cases h
  | [_] => cases h
  | u0 :: u1 :: rest =>
    simp only [utf8PushRound] at h
    by_cases h1 : u1 = 0 ∧ u0 &&& 0x80 = 0
    · rw [if_pos h1] at h
      obtain ⟨rfl, rfl⟩ := Prod.mk.inj (Except.ok.inj h)
      refine ⟨[u0, u1], rest, rfl, rfl, .inl rfl, @hend [u0] u1 (by rw [h1.1]; decide), le_rfl, fun rest' outLeft' hroom => ?_⟩
      simp only [cons_append, nil_append, utf8PushRound]
      rw [if_pos h1]
      exact (if_neg (Nat.not_lt.mpr hroom)).symm
    rw [if_neg h1] at h
    by_cases h2 : u1 &&& 0xf8 = 0
    · rw [if_pos h2] at h
      split at h
      · cases h
      · obtain ⟨rfl, rfl⟩ := Prod.mk.inj (Except.ok.inj h)
        refine ⟨[u0, u1], rest, rfl, rfl, .inl rfl, @hend [u0] u1 (hsmall u1 h2), by simp, fun rest' outLeft' _ => ?_⟩
        simp only [cons_append, nil_append, utf8PushRound]
        rw [if_neg h1, if_pos h2]
        rfl
    rw [if_neg h2] at h
    by_cases h3 : u1 &&& 0xfc = 0xdc
    · rw [if_pos h3] at h
      cases h
    rw [if_neg h3] at h
    by_cases h4 : u1 &&& 0xfc ≠ 0xd8
    · rw [if_pos h4] at h
      split at h
      · cases h
      · obtain ⟨rfl, rfl⟩ := Prod.mk.inj (Except.ok.inj h)
        refine ⟨[u0, u1], rest, rfl, rfl, .inl rfl, @hend [u0] u1 h4, by simp, fun rest' outLeft' _ => ?_⟩
        simp only [cons_append, nil_append, utf8PushRound]
        rw [if_neg h1, if_neg h2, if_neg h3, if_pos h4]
        rfl
    rw [if_neg h4] at h
    split at h
    · rename_i u2 u3 rest
      split at h
      · cases h
      · rename_i hlow
        split at h
        · cases h
        · obtain ⟨rfl, rfl⟩ := Prod.mk.inj (Except.ok.inj h)
          have hu3 : u3 &&& 0xfc ≠ 0xd8 := by
            rw [not_not.mp hlow]
            decide
          refine ⟨[u0, u1, u2, u3], rest, rfl, rfl, .inr ⟨rfl, u1, rfl, not_not.mp h4⟩, @hend [u0, u1, u2] u3 hu3, by simp, fun rest' outLeft' _ => ?_⟩
          simp only [cons_append, nil_append, utf8PushRound]
          rw [if_neg h1, if_neg h2, if_neg h3, if_neg h4, if_neg hlow]
          rfl
    · cases h

/-- `utf8_push`. -/
def utf8Push : Loop Errno UInt8 UInt8 where
  minIn := 2
  minOut := 1
  round := utf8PushRound
  stop := pushStop
  minIn_pos := Nat.zero_lt_two
  takes := fun h => by
    obtain ⟨_, _, _, _, hn, _⟩ := utf8PushRound_ok h
    omega

/-! ## The loops do not depend on the room -/

theorem pullStop_full (h : 1 ≤ n) : pullStop n = some .e2big := if_pos h

theorem pushStop_full (h : 2 ≤ n) : pushStop n = some .e2big := by
  rw [pushStop, if_neg (by omega), if_pos (by omega)]

theorem asciiPull_exact : asciiPull.Exact .e2big where
  round := by
    intro input outLeft n out h
    cases input with
    | nil => cases h
    | cons c rest =>
      obtain ⟨rfl, rfl⟩ := Prod.mk.inj (Except.ok.inj h)
      exact ⟨by simp, le_rfl, fun outLeft' hroom => (if_neg (Nat.not_lt.mpr hroom)).symm⟩
  stop_zero := rfl
  stop_full := pullStop_full

theorem asciiPush_exact : asciiPush.Exact .e2big where
  round := by
    intro input outLeft n out h
    match input with
    | [] => cases h
    | [_] => cases h
    | u0 :: u1 :: rest =>
      obtain ⟨rfl, rfl⟩ := Prod.mk.inj (Except.ok.inj h)
      exact ⟨by simp, le_rfl, fun outLeft' hroom => (if_neg (Nat.not_lt.mpr hroom)).symm⟩
  stop_zero := rfl
  stop_full := pushStop_full

theorem ucs2hexPull_exact (behind : List UInt8) : (ucs2hexPull behind).Exact .e2big where
  round := by
    intro input outLeft n out h
    cases input with
    | nil => cases h
    | cons c rest =>
      simp only [ucs2hexPull, ucs2hexPullRound] at h ⊢
      by_cases hat : c ≠ chr '@'
      · rw [if_pos hat] at h
        obtain ⟨rfl, rfl⟩ := Prod.mk.inj (Except.ok.inj h)
        refine ⟨by simp, le_rfl, fun outLeft' hroom => ?_⟩
        rw [if_pos hat]
        exact (if_neg (Nat.not_lt.mpr hroom)).symm
      rw [if_neg hat] at h
      by_cases hshort : rest.length < 4
      · rw [if_pos hshort] at h
        cases h
      rw [if_neg hshort] at h
      cases hscan : scanHexField 4 (rest ++ behind) with
      | none =>
        rw [hscan] at h
        cases h
      | some v =>
        rw [hscan] at h
        obtain ⟨rfl, rfl⟩ := Prod.mk.inj (Except.ok.inj h)
        refine ⟨by rw [length_cons]; omega, le_rfl, fun outLeft' hroom => ?_⟩
        rw [if_neg hat, if_neg hshort]
        exact (if_neg (Nat.not_lt.mpr hroom)).symm
  stop_zero := rfl
  stop_full := pullStop_full

theorem ucs2hexPush_exact : ucs2hexPush.Exact .e2big where
  round := by
    intro input outLeft n out h
    match input with
    | [] => cases h
    | [_] => cases h
    | u0 :: u1 :: rest =>
      simp only [ucs2hexPush, ucs2hexPushRound] at h ⊢
      by_cases hplain : u1 = 0 ∧ u0 &&& 0x80 = 0 ∧ u0 ≠ chr '@'
      · rw [if_pos hplain] at h
        obtain ⟨rfl, rfl⟩ := Prod.mk.inj (Except.ok.inj h)
        refine ⟨by simp, le_rfl, fun outLeft' hroom => ?_⟩
        rw [if_pos hplain]
        exact (if_neg (Nat.not_lt.mpr hroom)).symm
      · rw [if_neg hplain] at h
        split at h
        · cases h
        · obtain ⟨rfl, rfl⟩ := Prod.mk.inj (Except.ok.inj h)
          refine ⟨by simp, by simp [hexUnit], fun outLeft' _ => ?_⟩
          rw [if_neg hplain]
          rfl
  stop_zero := rfl
  stop_full := pushStop_full

theorem utf8Pull_exact : utf8Pull.Exact .e2big where
  round := by
    intro input outLeft n out h
    obtain ⟨-, hle, hout, hround⟩ := utf8PullRound_ok h
    exact ⟨hle, show 2 ≤ out.length by omega, hround⟩
  stop_zero := rfl
  stop_full := pullStop_full

theorem utf8Push_exact : utf8Push.Exact .e2big where
  round := by
    intro input outLeft n out h
    obtain ⟨taken, rest, rfl, rfl, -, -, hout, hround⟩ := utf8PushRound_ok h
    exact ⟨by simp, hout, hround rest⟩
  stop_zero := rfl
  stop_full := pushStop_full

/-! ## Conversions between two sets -/

/-- `sizeof(cvtbuf)` in `smb_iconv`. -/
def cvtbufSize : Nat := 2048

/-- `struct charset_functions`. A pull function is given what stands behind its input; it moves on as long as the buffer of
`smb_iconv` is empty. -/
structure CharsetFunctions where
  name : Text
  pull : List UInt8 → List UInt8 → Nat → Converted
  push : List UInt8 → Nat → Converted
  pull_progress : ∀ {behind input : List UInt8}, input ≠ [] →
    (pull behind input cvtbufSize).err = none ∨ (pull behind input cvtbufSize).err = some .e2big →
    (pull behind input cvtbufSize).rest.length < input.length

theorem Loop.progress {l : Loop Errno UInt8 UInt8} (hin : l.minIn = 1) (hout : l.minOut = 2)
    (hroom : ∀ input, l.round input cvtbufSize ≠ .error .e2big) (hne : input ≠ [])
    (h : (l.run input cvtbufSize).err = none ∨ (l.run input cvtbufSize).err = some .e2big) :
    (l.run input cvtbufSize).rest.length < input.length := by
  have hpos := length_pos_of_ne_nil hne
  have hmin : l.minOut ≤ cvtbufSize := by rw [hout]; decide
  cases hr : l.round input cvtbufSize with
  | error e =>
    rw [Loop.run_error (by omega) hmin hr] at h
    rcases h with h | h
    · cases h
    · exact absurd (Option.some.inj h ▸ hr) (hroom input)
  | ok res => exact Loop.length_rest_lt (by omega) hmin hr

theorem ucs2hexPullRound_room (behind input : List UInt8) (outLeft : Nat) :
    ucs2hexPullRound behind input outLeft ≠ .error .e2big := by
  unfold ucs2hexPullRound
  repeat' split
  all_goals nofun

theorem utf8PullRound_room (input : List UInt8) : utf8PullRound input cvtbufSize ≠ .error .e2big := by
  cases input with
  | nil => nofun
  | cons c0 rest =>
    simp only [utf8PullRound, if_neg (show ¬cvtbufSize < 4 by decide)]
    repeat' split
    all_goals nofun

theorem length_drop_cvtbuf (hne : input ≠ []) (hn : n = min input.length cvtbufSize) :
    (input.drop n).length < input.length := by
  have hpos := length_pos_of_ne_nil hne
  have hcap : 0 < cvtbufSize := by decide
  rw [length_drop]
  omega

theorem min_cvtbufSize (n : Nat) : ¬2 ^ 31 ≤ min n cvtbufSize := by
  unfold cvtbufSize
  omega

def utf16leFunctions (name : Text) : CharsetFunctions where
  name
  pull := fun _ => iconvCopy
  push := iconvCopy
  pull_progress := by
    intro _ input hne _
    unfold iconvCopy
    rw [if_neg (min_cvtbufSize _)]
    exact length_drop_cvtbuf hne rfl

def utf16beFunctions (name : Text) : CharsetFunctions where
  name
  pull := fun _ => iconvSwab
  push := iconvSwab
  pull_progress := by
    intro _ input hne _
    unfold iconvSwab
    rw [if_neg (min_cvtbufSize _)]
    exact length_drop_cvtbuf hne rfl

def utf8Functions (name : Text) : CharsetFunctions where
  name
  pull := fun _ => utf8Pull.run
  push := utf8Push.run
  pull_progress := Loop.progress rfl rfl utf8PullRound_room

def asciiFunctions (name : Text) : CharsetFunctions where
  name
  pull := fun _ => asciiPull.run
  push := asciiPush.run
  pull_progress := Loop.progress rfl rfl fun input => by cases input <;> nofun

def ucs2hexFunctions (name : Text) : CharsetFunctions where
  name
  pull := fun behind => (ucs2hexPull behind).run
  push := ucs2hexPush.run
  pull_progress := Loop.progress rfl rfl fun input => ucs2hexPullRound_room _ input _

/-- The text of a string literal. -/
def text (s : String) : Text := s.toList.map chr

/-- `builtin_functions`. -/
def builtinFunctions : List CharsetFunctions :=
  [utf16leFunctions (text "UCS-2LE"), utf16leFunctions (text "UTF-16LE"),
    utf16beFunctions (text "UCS-2BE"), utf16beFunctions (text "UTF-16BE"),
    utf8Functions (text "UTF8"), utf8Functions (text "UTF-8"),
    asciiFunctions (text "ASCII"), ucs2hexFunctions (text "UCS2-HEX")]

/-- The part of `smb_iconv` that goes through the buffer. -/
def smbIconvChunks (source target : CharsetFunctions) (behind input : List UInt8) (outLeft : Nat) : Converted :=
  if hin : input = [] then .done []
  else
    let pulled := source.pull behind input cvtbufSize
    if hp : pulled.err = none ∨ pulled.err = some .e2big then
      let pushed := target.push pulled.out outLeft
      match pushed.err with
      | some e => ⟨some e, pulled.rest, pushed.out⟩
      | none =>
        have := source.pull_progress hin hp
        (smbIconvChunks source target behind pulled.rest (outLeft - pushed.out.length)).after pushed.out
    else ⟨pulled.err, pulled.rest, []⟩
termination_by input.length

/-- `smb_iconv_t`, of the sets that are built in. -/
inductive Descriptor
  | direct (convert : List UInt8 → List UInt8 → Nat → Converted)
  | buffered (source target : CharsetFunctions)

/-- `smb_iconv`. -/
def smbIconv : Descriptor → List UInt8 → List UInt8 → Nat → Converted
  | .direct convert => convert
  | .buffered source target => smbIconvChunks source target

/-- `is_utf16`. -/
def isUtf16 (name : Text) : Bool := strcasecmp name (text "UCS-2LE") = 0 || strcasecmp name (text "UTF-16LE") = 0

/-- `smb_iconv_open`, without the sets of the system's own `iconv`. -/
def smbIconvOpen (tocode fromcode : Text) : Option Descriptor :=
  -- check for the simplest null conversion
  if strcmp fromcode tocode = 0 then some (.direct fun _ => iconvCopy)
  else do
    let source ← builtinFunctions.find? fun f => strcasecmp fromcode f.name = 0
    let target ← builtinFunctions.find? fun f => strcasecmp tocode f.name = 0
    -- check for conversion to/from ucs2
    if isUtf16 fromcode then return .direct fun _ => target.push
    else if isUtf16 tocode then return .direct source.pull
    -- the general case has to go via a buffer
    else return .buffered source target

end Samba.Charset
