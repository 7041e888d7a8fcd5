/-
Strings read one code point at a time (lib/charset/charcnv.c, next_codepoint; lib/charset/util_unistr.c). The unix charset
is the default, "UTF8".
-/
import Samba.Charset.Charcnv

namespace Samba.Charset

open CString Rounds

/-- What `next_codepoint` makes of the UTF-16 that it got: one unit, or a pair of surrogates. -/
def codepointOfUtf16 : List UInt8 → Option Nat
  | [b0, b1] => some (b0.toNat + 256 * b1.toNat)
  | [b0, b1, b2, b3] =>
    some (0x10000 + (b2.toNat ||| ((b3 &&& 0x3).toNat <<< 8) ||| (b0.toNat <<< 10) ||| ((b1 &&& 0x3).toNat <<< 18)))
  | _ => none

/-- `next_codepoint`: the code point of the next character, `none` for `INVALID_CODEPOINT`, and the bytes it takes. -/
def nextCodepoint (str : Text) : Option Nat × Nat :=
  match str with
  | [] => (some 0, 1)
  | c :: _ =>
    if c &&& 0x80 = 0 then (some c.toNat, 1)
    else
      -- no multi-byte character takes more than 5 bytes
      let input := str.take 5
      match getConvHandle .unix .utf16 with
      | none => (none, 1)
      | some descriptor =>
        let first := smbIconv descriptor [] input 2
        if first.out = [] then
          -- this is needed to cope with codepoints above 64k
          let second := smbIconv descriptor [] first.rest 4
          if second.out = [] then (none, 1)
          else (codepointOfUtf16 second.out, input.length - second.rest.length)
        else (codepointOfUtf16 first.out, input.length - first.rest.length)

section CaseTables

-- `upcase_table`, for the code points from 128 on
variable (upcaseTable : Nat → Nat)

/-- `toupper_w`. -/
def toupperW (val : Nat) : Nat :=
  if val < 128 then (toUpper (UInt8.ofNat val)).toNat
  else if 0x10000 ≤ val then val
  else upcaseTable val

/-- The loop of `strcasecmp_m`, which takes at least one byte of each string in each round. -/
def strcasecmpMFrom : Nat → Text → Text → Int
  | fuel + 1, s1, s2 =>
    if s1 = [] ∨ s2 = [] then ((s1.headD 0).toInt8.toInt - (s2.headD 0).toInt8.toInt)
    else
      let (c1, size1) := nextCodepoint s1
      let (c2, size2) := nextCodepoint s2
      let s1 := s1.drop size1
      let s2 := s2.drop size2
      if c1 = c2 then strcasecmpMFrom fuel s1 s2
      else match c1, c2 with
        | some c1, some c2 =>
          if toupperW upcaseTable c1 ≠ toupperW upcaseTable c2 then (c1 : Int) - c2 else strcasecmpMFrom fuel s1 s2
        | _, _ => strcasecmp s1 s2
  | 0, _, _ => 0

/-- `strcasecmp_m`. -/
def strcasecmpM (s1 s2 : Text) : Int := strcasecmpMFrom upcaseTable (s1.length + 1) s1 s2

end CaseTables

/-! ## Strings of characters -/

theorem nextCodepoint_ascii {c : UInt8} (h : c &&& 0x80 = 0) (rest : Text) :
    nextCodepoint (c :: rest) = (some c.toNat, 1) := if_pos h

theorem getConvHandle_unix_utf16 : getConvHandle .unix .utf16 = some (.direct fun _ => utf8Pull.run) := rfl

/-- The characters that are not ASCII have a first byte that is not, and take at most 4 bytes. -/
theorem utf8Bytes_wide {n : Nat} (hn : 0x80 ≤ n) (hmax : n ≤ 0x10FFFF) :
    ∃ c cs, utf8Bytes n = c :: cs ∧ c &&& 0x80 ≠ 0 ∧ cs.length ≤ 3 := by
  unfold utf8Bytes
  rw [if_neg (by omega)]
  split
  · exact ⟨_, _, rfl, (lead_two (n / 64) (by omega)).1, by simp⟩
  · split
    · exact ⟨_, _, rfl, (lead_three (n / 4096) (by omega)).1, by simp⟩
    · exact ⟨_, _, rfl, (lead_four (n / 262144) (by omega)).1, by simp⟩

theorem codepointOfUtf16_bytes {n : Nat} (h : n ≤ 0x10FFFF) : codepointOfUtf16 (utf16leBytes n) = some n := by
  unfold utf16leBytes
  by_cases hn : n < 0x10000
  · rw [if_pos hn, codepointOfUtf16, UInt8.toNat_ofNat', UInt8.toNat_ofNat', Option.some_inj]
    omega
  · have hhigh : ∀ a < 4, (UInt8.ofNat (0xD8 + a) &&& 0x3).toNat = a := by decide
    have hlow : ∀ a < 4, (UInt8.ofNat (0xDC + a) &&& 0x3).toNat = a := by decide
    obtain ⟨v, rfl⟩ := Nat.exists_eq_add_of_le (Nat.le_of_not_lt hn)
    rw [if_neg hn, Nat.add_sub_cancel_left]
    dsimp only
    rw [codepointOfUtf16, hhigh _ (by omega), hlow _ (by omega), UInt8.toNat_ofNat', UInt8.toNat_ofNat', Option.some_inj,
      @or_shiftLeft (v % 2 ^ 8) 8 (by omega), @or_shiftLeft (v % 2 ^ 8 + v / 256 % 4 * 2 ^ 8) 10 (by omega), or_shiftLeft (by omega)]
    omega

theorem utf8PullRound_take (s : Text) (room : Nat) : utf8PullRound (s.take 5) room = utf8PullRound s room := by
  match s with
  | [] | [_] | [_, _] | [_, _, _] | _ :: _ :: _ :: _ :: _ => rfl

/-- What `next_codepoint` makes of a character that is not ASCII. -/
theorem nextCodepoint_round {c : UInt8} (h : c &&& 0x80 ≠ 0) (bytes : Text) :
    (∃ n out, utf8PullRound (c :: bytes) 4 = .ok (n, out) ∧ nextCodepoint (c :: bytes) = (codepointOfUtf16 out, n)) ∨
      (∃ e, utf8PullRound (c :: bytes) 4 = .error e) ∧ nextCodepoint (c :: bytes) = (none, 1) := by
  have hcons : nextCodepoint (c :: bytes) =
      (let first := utf8Pull.run ((c :: bytes).take 5) 2
       if first.out = [] then
         let second := utf8Pull.run first.rest 4
         if second.out = [] then (none, 1)
         else (codepointOfUtf16 second.out, ((c :: bytes).take 5).length - second.rest.length)
       else (codepointOfUtf16 first.out, ((c :: bytes).take 5).length - first.rest.length)) := by
    rw [nextCodepoint, if_neg h]
    rfl
  have hin : utf8Pull.minIn ≤ ((c :: bytes).take 5).length := Nat.succ_le_succ (Nat.zero_le _)
  have hround : ∀ room, utf8Pull.round ((c :: bytes).take 5) room = utf8PullRound (c :: bytes) room :=
    utf8PullRound_take (c :: bytes)
  -- a round that fills the room is the last one
  have hlast : ∀ room n out, utf8PullRound (c :: bytes) room = .ok (n, out) → out.length = room → 2 ≤ room →
      utf8Pull.run ((c :: bytes).take 5) room = ⟨pullStop ((c :: bytes).take 5 |>.drop n).length, ((c :: bytes).take 5).drop n, out⟩ := by
    intro room n out hr hlen hroom
    rw [Loop.run_round hin hroom ((hround room).trans hr), hlen, Nat.sub_self, Loop.run_stop (fun hs => absurd hs.2 (by decide))]
    rw [Conv.after, List.append_nil]
    rfl
  have hsize : ∀ n, n ≤ ((c :: bytes).take 5).length →
      ((c :: bytes).take 5).length - (((c :: bytes).take 5).drop n).length = n := by
    intro n hn
    rw [List.length_drop]
    omega
  have hne : ∀ out : List UInt8, out.length = 2 ∨ out.length = 4 → out ≠ [] := by
    rintro _ hlen rfl
    exact absurd hlen (by decide)
  rw [hcons]
  cases hr : utf8PullRound (c :: bytes) 4 with
  | ok p =>
    obtain ⟨n, out⟩ := p
    refine .inl ⟨n, out, rfl, ?_⟩
    obtain ⟨-, hn, hlen, hother⟩ := utf8PullRound_ok ((utf8PullRound_take (c :: bytes) 4).trans hr)
    have htwo := hother 2 le_rfl
    rw [utf8PullRound_take] at htwo
    dsimp only
    rcases hlen with hlen | hlen
    · rw [if_neg (by omega)] at htwo
      rw [hlast 2 n out htwo hlen le_rfl, if_neg (hne out (.inl hlen)), hsize n hn]
    · rw [if_pos (by omega)] at htwo
      rw [Loop.run_error hin (show utf8Pull.minOut ≤ 2 from le_rfl) ((hround 2).trans htwo), if_pos rfl, hlast 4 n out hr hlen (by decide),
        if_neg (hne out (.inr hlen)), hsize n hn]
  | error e =>
    refine .inr ⟨⟨e, rfl⟩, ?_⟩
    obtain ⟨e', htwo⟩ : ∃ e', utf8PullRound (c :: bytes) 2 = .error e' := by
      cases hr2 : utf8PullRound (c :: bytes) 2 with
      | error e' => exact ⟨e', rfl⟩
      | ok p =>
        obtain ⟨n, out⟩ := p
        have hfour := (utf8PullRound_ok hr2).2.2.2 4 (by decide)
        rw [hr] at hfour
        have hlen := (utf8PullRound_ok hr2).2.2.1
        rw [if_neg (by omega)] at hfour
        cases hfour
    dsimp only
    rw [Loop.run_error hin (show utf8Pull.minOut ≤ 2 from le_rfl) ((hround 2).trans htwo), if_pos rfl,
      Loop.run_error hin (show utf8Pull.minOut ≤ 4 by decide) ((hround 4).trans hr), if_pos rfl]

/-- A character that is not ASCII is read as one, from all of its bytes. -/
theorem nextCodepoint_wide {n : Nat} (h : Scalar n) (hn : 0x80 ≤ n) (rest : Text) :
    nextCodepoint (utf8Bytes n ++ rest) = (some n, (utf8Bytes n).length) := by
  have hmax : n ≤ 0x10FFFF := by unfold Scalar at h; omega
  obtain ⟨b, bs, hbytes, hlead, -⟩ := utf8Bytes_wide hn hmax
  have hround := @utf8PullRound_bytes n hmax rest 4 (by
    rw [length_utf16leBytes]
    split <;> omega)
  rw [hbytes, List.cons_append] at hround ⊢
  rcases nextCodepoint_round hlead (bs ++ rest) with ⟨m, out, hr, hnext⟩ | ⟨⟨e, he⟩, -⟩
  · obtain ⟨rfl, rfl⟩ := Prod.mk.inj (Except.ok.inj (hr.symm.trans hround))
    rw [hnext, codepointOfUtf16_bytes hmax]
  · exact absurd (he.symm.trans hround) (nomatch ·)

/-- The bytes that a round takes behind the first continue the character. -/
theorem utf8PullRound_continuation {c : UInt8} {bytes out : List UInt8} {room n : Nat}
    (h : utf8PullRound (c :: bytes) room = .ok (n, out)) : ∀ b ∈ bytes.take (n - 1), isContinuation b = true := by
  simp only [utf8PullRound] at h
  by_cases h1 : c &&& 0x80 = 0
  · rw [if_pos h1] at h
    obtain ⟨rfl, -⟩ := Prod.mk.inj (Except.ok.inj h)
    exact List.forall_mem_nil _
  rw [if_neg h1] at h
  by_cases h2 : c &&& 0xe0 = 0xc0
  · rw [if_pos h2] at h
    split at h
    · split at h
      · cases h
      · rename_i c1 rest hcont
        obtain ⟨rfl, -⟩ := Prod.mk.inj (Except.ok.inj h)
        exact List.forall_mem_singleton.2 (by simpa using hcont)
    · cases h
  rw [if_neg h2] at h
  by_cases h3 : c &&& 0xf0 = 0xe0
  · rw [if_pos h3] at h
    split at h
    · split at h
      · cases h
      · rename_i c1 c2 rest hcont
        obtain ⟨rfl, -⟩ := Prod.mk.inj (Except.ok.inj h)
        simp only [Bool.or_eq_true, Bool.not_eq_true', not_or, Bool.not_eq_false] at hcont
        exact List.forall_mem_cons.2 ⟨hcont.1, List.forall_mem_singleton.2 hcont.2⟩
    · cases h
  rw [if_neg h3] at h
  by_cases h4 : c &&& 0xf8 = 0xf0
  · rw [if_pos h4] at h
    split at h
    · rename_i c1 c2 c3 rest
      split at h
      · cases h
      · rename_i hcont
        have hn : n = 4 := by
          repeat' split at h
          all_goals first | cases h; done | exact (Prod.mk.inj (Except.ok.inj h)).1.symm
        subst hn
        simp only [Bool.or_eq_true, Bool.not_eq_true', not_or, Bool.not_eq_false] at hcont
        exact List.forall_mem_cons.2 ⟨hcont.1.1, List.forall_mem_cons.2 ⟨hcont.1.2, List.forall_mem_singleton.2 hcont.2⟩⟩
    · cases h
  · rw [if_neg h4] at h
    cases h

theorem nextCodepoint_continuation (c : UInt8) (bytes : Text) :
    ∀ b ∈ bytes.take ((nextCodepoint (c :: bytes)).2 - 1), isContinuation b = true := by
  by_cases hc : c &&& 0x80 = 0
  · rw [nextCodepoint_ascii hc]
    exact nofun
  rcases nextCodepoint_round hc bytes with ⟨n, out, hr, hnext⟩ | ⟨-, hnext⟩
  · rw [hnext]
    exact utf8PullRound_continuation hr
  · rw [hnext]
    exact nofun

end Samba.Charset
