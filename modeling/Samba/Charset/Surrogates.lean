/-
The UTF-16LE that utf8_pull makes of the bytes it takes (lib/charset/iconv.c). Only the form of a character is looked at: a
surrogate that stands in UTF-8 by itself, or a value behind the end of Unicode, gets into the output, and utf8_push refuses what
has surrogates that are not in pairs.
-/
import Samba.Charset.Utf8

namespace Samba.Charset

open CString List Rounds

/-! ## The values of characters -/

/-- The six bits of a byte behind the first. -/
def sixBits (bytes : List UInt8) (i : Nat) : Nat := (bytes.getD i 0).toNat % 64

/-- How many bytes a character has, by its first byte. -/
def utf8Size (c : UInt8) : Nat := if c < 0x80 then 1 else if c < 0xe0 then 2 else if c < 0xf0 then 3 else 4

/-- The number that the bits of a character spell, in the shortest form or not. -/
def utf8Value (c : UInt8) (bytes : List UInt8) : Nat :=
  if c < 0x80 then c.toNat
  else if c < 0xe0 then c.toNat % 32 * 64 + sixBits bytes 0
  else if c < 0xf0 then c.toNat % 16 * 4096 + sixBits bytes 0 * 64 + sixBits bytes 1
  else c.toNat % 8 * 262144 + sixBits bytes 0 * 4096 + sixBits bytes 1 * 64 + sixBits bytes 2

/-- The values of the characters of a string, behind bytes that are skipped. -/
def utf8ValuesFrom : Nat → List UInt8 → List Nat
  | _, [] => []
  | 0, c :: bytes => utf8Value c bytes :: utf8ValuesFrom (utf8Size c - 1) bytes
  | skip + 1, _ :: bytes => utf8ValuesFrom skip bytes

def utf8Values (bytes : List UInt8) : List Nat := utf8ValuesFrom 0 bytes

/-- What `utf8_pull` writes for a value, of up to 21 bits. -/
def unitsOf (v : Nat) : List UInt8 :=
  if v < 0x10000 then [UInt8.ofNat v, UInt8.ofNat (v / 256)]
  else
    let w := v - 0x10000
    [UInt8.ofNat (w / 1024), UInt8.ofNat (w / 262144) ||| 0xd8, UInt8.ofNat w, UInt8.ofNat (0xDC + w / 256 % 4)]

theorem utf8ValuesFrom_eq (skip : Nat) (bytes : List UInt8) : utf8ValuesFrom skip bytes = utf8Values (bytes.drop skip) := by
  induction bytes generalizing skip with
  | nil =>
    rw [drop_nil]
    cases skip <;> rfl
  | cons c bytes ih =>
    cases skip with
    | zero => rfl
    | succ skip => exact ih skip

theorem utf8Size_pos (c : UInt8) : 0 < utf8Size c := by
  unfold utf8Size
  repeat' split
  all_goals decide

theorem utf8Values_cons (c : UInt8) (bytes : List UInt8) :
    utf8Values (c :: bytes) = utf8Value c bytes :: utf8Values ((c :: bytes).drop (utf8Size c)) := by
  obtain ⟨n, hn⟩ := Nat.exists_eq_succ_of_ne_zero (utf8Size_pos c).ne'
  rw [hn, drop_succ_cons, utf8Values, utf8ValuesFrom, hn, utf8ValuesFrom_eq]
  rfl

theorem utf8Value_le (c : UInt8) (bytes : List UInt8) : utf8Value c bytes ≤ 0x1FFFFF := by
  have hsix : ∀ i, sixBits bytes i < 64 := fun i => Nat.mod_lt _ (by decide)
  have h0 := hsix 0
  have h1 := hsix 1
  have h2 := hsix 2
  have hc := c.toNat_lt
  unfold utf8Value
  repeat' split
  all_goals omega

variable {n outLeft room v : Nat} {bytes out rest units : List UInt8} {u0 u1 : UInt8}

theorem mem_utf8Values_le (h : v ∈ utf8Values bytes) : v ≤ 0x1FFFFF := by
  induction hn : bytes.length using Nat.strong_induction_on generalizing bytes with
  | _ m ih =>
    cases bytes with
    | nil => cases h
    | cons c bytes =>
      rw [utf8Values_cons, mem_cons] at h
      rcases h with rfl | h
      · exact utf8Value_le c bytes
      · have := utf8Size_pos c
        exact ih _ (by rw [← hn, length_drop, length_cons]; omega) h rfl

theorem byte_bits (c : UInt8) :
    c <<< 6 = UInt8.ofNat (2 ^ 6 * (c.toNat % 4)) ∧ (c >>> 2) &&& 0x7 = UInt8.ofNat (c.toNat / 4 % 8) ∧
      c &&& 0x3f = UInt8.ofNat (c.toNat % 64) ∧ (c &&& 0x3f).toNat = c.toNat % 64 ∧
      (c &&& 0xF) <<< 4 = UInt8.ofNat (2 ^ 4 * (c.toNat % 16)) ∧ (c >>> 2) &&& 0xF = UInt8.ofNat (c.toNat / 4 % 16) ∧
      (c &&& 0x7).toNat = c.toNat % 8 ∧ (c &&& 0x3) ||| 0xdc = UInt8.ofNat (0xDC + c.toNat % 4) :=
  @forall_byte (fun c => c <<< 6 = UInt8.ofNat (2 ^ 6 * (c.toNat % 4)) ∧ (c >>> 2) &&& 0x7 = UInt8.ofNat (c.toNat / 4 % 8) ∧
      c &&& 0x3f = UInt8.ofNat (c.toNat % 64) ∧ (c &&& 0x3f).toNat = c.toNat % 64 ∧
      (c &&& 0xF) <<< 4 = UInt8.ofNat (2 ^ 4 * (c.toNat % 16)) ∧ (c >>> 2) &&& 0xF = UInt8.ofNat (c.toNat / 4 % 16) ∧
      (c &&& 0x7).toNat = c.toNat % 8 ∧ (c &&& 0x3) ||| 0xdc = UInt8.ofNat (0xDC + c.toNat % 4)) (by decide +kernel) c

theorem lead_classes (c : UInt8) :
    (c &&& 0x80 = 0 → c < 0x80) ∧ (c &&& 0xe0 = 0xc0 → ¬c < 0x80 ∧ c < 0xe0) ∧
      (c &&& 0xf0 = 0xe0 → ¬c < 0x80 ∧ ¬c < 0xe0 ∧ c < 0xf0) ∧ (c &&& 0xf8 = 0xf0 → ¬c < 0x80 ∧ ¬c < 0xe0 ∧ ¬c < 0xf0) :=
  @forall_byte (fun c => (c &&& 0x80 = 0 → c < 0x80) ∧ (c &&& 0xe0 = 0xc0 → ¬c < 0x80 ∧ c < 0xe0) ∧
      (c &&& 0xf0 = 0xe0 → ¬c < 0x80 ∧ ¬c < 0xe0 ∧ c < 0xf0) ∧ (c &&& 0xf8 = 0xf0 → ¬c < 0x80 ∧ ¬c < 0xe0 ∧ ¬c < 0xf0))
    (by decide +kernel) c

/-- A round takes a character and writes its value. -/
theorem utf8PullRound_value {c : UInt8}
    (h : utf8PullRound (c :: bytes) outLeft = .ok (n, out)) : n = utf8Size c ∧ out = unitsOf (utf8Value c bytes) := by
  obtain ⟨hone, htwo, hthree, hfour⟩ := lead_classes c
  obtain ⟨hc6, hc2, -, -, hc4, -, hc8, -⟩ := byte_bits c
  simp only [utf8PullRound] at h
  by_cases h1 : c &&& 0x80 = 0
  · rw [if_pos h1] at h
    obtain ⟨rfl, rfl⟩ := Prod.mk.inj (Except.ok.inj h)
    have hlt : c.toNat < 128 := UInt8.lt_iff_toNat_lt.mp (hone h1)
    rw [utf8Size, utf8Value, if_pos (hone h1), if_pos (hone h1), unitsOf, if_pos (by omega), UInt8.ofNat_toNat,
      Nat.div_eq_of_lt (by omega)]
    exact ⟨rfl, rfl⟩
  rw [if_neg h1] at h
  by_cases h2 : c &&& 0xe0 = 0xc0
  · rw [if_pos h2] at h
    split at h
    · rename_i c1 rest
      split at h
      · cases h
      · obtain ⟨rfl, rfl⟩ := Prod.mk.inj (Except.ok.inj h)
        obtain ⟨-, -, hsix, -⟩ := byte_bits c1
        rw [utf8Size, utf8Value, if_neg (htwo h2).1, if_neg (htwo h2).1, if_pos (htwo h2).2, if_pos (htwo h2).2, unitsOf]
        show _ ∧ _ = if c.toNat % 32 * 64 + c1.toNat % 64 < 0x10000 then _ else _
        rw [if_pos (by omega), hc6, hsix, hc2, ofNat_or_ofNat (by omega)]
        refine ⟨rfl, ?_⟩
        rw [ofNat_congr (show (2 ^ 6 * (c.toNat % 4) + c1.toNat % 64) % 256 = (c.toNat % 32 * 64 + c1.toNat % 64) % 256 by omega),
          show c.toNat / 4 % 8 = (c.toNat % 32 * 64 + c1.toNat % 64) / 256 by omega]
        rfl
    · cases h
  rw [if_neg h2] at h
  by_cases h3 : c &&& 0xf0 = 0xe0
  · rw [if_pos h3] at h
    split at h
    · rename_i c1 c2 rest
      split at h
      · cases h
      · obtain ⟨rfl, rfl⟩ := Prod.mk.inj (Except.ok.inj h)
        obtain ⟨hd6, -, -, -, -, hd4, -⟩ := byte_bits c1
        obtain ⟨-, -, hsix, -⟩ := byte_bits c2
        obtain ⟨hn1, hn2, hp⟩ := hthree h3
        rw [utf8Size, utf8Value, if_neg hn1, if_neg hn1, if_neg hn2, if_neg hn2, if_pos hp, if_pos hp, unitsOf]
        show _ ∧ _ = if c.toNat % 16 * 4096 + c1.toNat % 64 * 64 + c2.toNat % 64 < 0x10000 then _ else _
        rw [if_pos (by omega), hd6, hsix, hc4, hd4, ofNat_or_ofNat (by omega), ofNat_or_ofNat (by omega)]
        refine ⟨rfl, ?_⟩
        rw [ofNat_congr (show (2 ^ 6 * (c1.toNat % 4) + c2.toNat % 64) % 256 =
            (c.toNat % 16 * 4096 + c1.toNat % 64 * 64 + c2.toNat % 64) % 256 by omega),
          ofNat_congr (show (2 ^ 4 * (c.toNat % 16) + c1.toNat / 4 % 16) % 256 =
            (c.toNat % 16 * 4096 + c1.toNat % 64 * 64 + c2.toNat % 64) / 256 % 256 by omega)]
        rfl
    · cases h
  rw [if_neg h3] at h
  by_cases h4 : c &&& 0xf8 = 0xf0
  · rw [if_pos h4] at h
    split at h
    · rename_i c1 c2 c3 rest
      split at h
      · cases h
      · obtain ⟨-, -, -, h1', -⟩ := byte_bits c1
        obtain ⟨-, -, -, h2', -⟩ := byte_bits c2
        obtain ⟨-, -, -, h3', -⟩ := byte_bits c3
        obtain ⟨hn1, hn2, hn3⟩ := hfour h4
        have hcode : c3.toNat % 64 ||| (c2.toNat % 64) <<< 6 ||| (c1.toNat % 64) <<< 12 ||| (c.toNat % 8) <<< 18 =
            c.toNat % 8 * 262144 + c1.toNat % 64 * 4096 + c2.toNat % 64 * 64 + c3.toNat % 64 := by
          rw [@or_shiftLeft (c3.toNat % 64) 6 (by omega), @or_shiftLeft (c3.toNat % 64 + c2.toNat % 64 * 2 ^ 6) 12 (by omega),
            or_shiftLeft (by omega)]
          omega
        rw [h1', h2', h3', hc8, hcode] at h
        rw [utf8Size, utf8Value, if_neg hn1, if_neg hn1, if_neg hn2, if_neg hn2, if_neg hn3, if_neg hn3]
        show _ ∧ _ = unitsOf (c.toNat % 8 * 262144 + c1.toNat % 64 * 4096 + c2.toNat % 64 * 64 + c3.toNat % 64)
        generalize c.toNat % 8 * 262144 + c1.toNat % 64 * 4096 + c2.toNat % 64 * 64 + c3.toNat % 64 = v at h
        unfold unitsOf
        split at h
        · rename_i hsmall
          obtain ⟨rfl, rfl⟩ := Prod.mk.inj (Except.ok.inj h)
          rw [if_pos hsmall, Nat.shiftRight_eq_div_pow]
          exact ⟨rfl, rfl⟩
        · rename_i hsmall
          split at h
          · cases h
          · obtain ⟨rfl, rfl⟩ := Prod.mk.inj (Except.ok.inj h)
            refine ⟨rfl, ?_⟩
            rw [if_neg hsmall]
            simp only [Nat.shiftRight_eq_div_pow]
            rw [(byte_bits (UInt8.ofNat ((v - 65536) / 2 ^ 8))).2.2.2.2.2.2.2, UInt8.toNat_ofNat',
              show (v - 65536) / 2 ^ 8 % 2 ^ 8 % 4 = (v - 65536) / 256 % 4 by omega]
    · cases h
  · rw [if_neg h4] at h
    cases h

theorem utf8Pull_values {input : List UInt8} (h : utf8Pull.run input room = .done units) :
    units = (utf8Values input).flatMap unitsOf := by
  refine Loop.done_induction (P := fun input _ units => units = (utf8Values input).flatMap unitsOf) (fun _ => rfl) ?_ h
  intro input outLeft n out u' hin _ hr _ ih
  cases input with
  | nil => cases hr
  | cons c bytes =>
    obtain ⟨rfl, rfl⟩ := utf8PullRound_value hr
    rw [utf8Values_cons, flatMap_cons, ih]

/-! ## Surrogates -/

def IsHigh (v : Nat) : Prop := 0xD800 ≤ v ∧ v < 0xDC00

def IsLow (v : Nat) : Prop := 0xDC00 ≤ v ∧ v < 0xE000

/-- Values of Unicode, in which a high surrogate stands before each low one and a low one behind each high one. -/
inductive SurrogatesPaired : List Nat → Prop
  | nil : SurrogatesPaired []
  | scalar {v : Nat} {vs : List Nat} : Scalar v → SurrogatesPaired vs → SurrogatesPaired (v :: vs)
  | pair {high low : Nat} {vs : List Nat} : IsHigh high → IsLow low → SurrogatesPaired vs → SurrogatesPaired (high :: low :: vs)

/-- `utf8_push` takes all of it, where there is room. -/
def PushAccepts (units : List UInt8) : Prop := ∃ bytes, ∀ room, bytes.length ≤ room → utf8Push.run units room = .done bytes

theorem unitsOf_scalar (h : Scalar v) : unitsOf v = utf16leBytes v := by
  unfold unitsOf utf16leBytes Scalar at *
  split
  · rfl
  · have hhigh : ∀ x < 4, UInt8.ofNat x ||| 0xd8 = UInt8.ofNat (0xD8 + x) := by decide
    dsimp only
    rw [hhigh _ (by omega)]

/-- The scalar value that the two halves of a pair stand for. -/
def pairValue (high low : Nat) : Nat :=
  0x10000 + (high - 0xD800) * 1024 + (low - 0xDC00)

theorem unitsOf_pair {high low : Nat} (hh : IsHigh high) (hl : IsLow low) :
    unitsOf high ++ unitsOf low = utf16leBytes (pairValue high low) := by
  generalize hn : pairValue high low = n
  unfold pairValue IsHigh IsLow at *
  have h0 : high % 256 = (n - 0x10000) / 1024 % 256 := by omega
  have h1 : high / 256 = 0xD8 + (n - 0x10000) / 262144 := by omega
  have h2 : low % 256 = (n - 0x10000) % 256 := by omega
  have h3 : low / 256 = 0xDC + (n - 0x10000) / 256 % 4 := by omega
  have h4 : ¬n < 0x10000 := by omega
  rw [unitsOf, if_pos (by omega), unitsOf, if_pos (by omega), utf16leBytes, if_neg h4, ofNat_congr h0, ofNat_congr h2, h1, h3]
  rfl

theorem scalar_pair {high low : Nat} (hh : IsHigh high) (hl : IsLow low) : Scalar (pairValue high low) := by
  unfold Scalar pairValue IsHigh IsLow at *
  omega

theorem wellFormed_nil : WellFormedUtf16le [] :=
  ⟨[], nofun, rfl⟩

theorem wellFormed_append (hn : Scalar n) (h : WellFormedUtf16le units) :
    WellFormedUtf16le (utf16leBytes n ++ units) := by
  obtain ⟨ns, hns, rfl⟩ := h
  exact ⟨n :: ns, forall_mem_cons.2 ⟨hn, hns⟩, flatMap_cons.symm⟩

theorem SurrogatesPaired.wellFormed {vs : List Nat} (h : SurrogatesPaired vs) : WellFormedUtf16le (vs.flatMap unitsOf) := by
  induction h with
  | nil => exact wellFormed_nil
  | scalar hv _ ih =>
    rw [flatMap_cons, unitsOf_scalar hv]
    exact wellFormed_append hv ih
  | pair hhigh hlow _ ih =>
    rw [flatMap_cons, flatMap_cons, ← append_assoc, unitsOf_pair hhigh hlow]
    exact wellFormed_append (scalar_pair hhigh hlow) ih

theorem WellFormedUtf16le.accepted (h : WellFormedUtf16le units) : PushAccepts units := by
  obtain ⟨ns, hns, rfl⟩ := h
  exact ⟨_, fun room hroom => utf8Push_bytes hns hroom⟩

theorem and_f8 (u : UInt8) : u &&& 0xf8 = (u &&& 0xfc) &&& 0xf8 := by
  rw [UInt8.and_assoc]
  rfl

/-- The second half of a pair does not stand by itself. -/
theorem utf8PushRound_low {u0 u1 : UInt8} (h : u1 &&& 0xfc = 0xdc) (rest : List UInt8) (outLeft : Nat) :
    ∃ e, utf8PushRound (u0 :: u1 :: rest) outLeft = .error e := by
  have h0 : u1 ≠ 0 := by
    rintro rfl
    exact absurd h (by decide)
  have h8 : u1 &&& 0xf8 ≠ 0 := by
    rw [and_f8, h]
    decide
  simp only [utf8PushRound]
  rw [if_neg (fun hs => h0 hs.1), if_neg h8, if_pos h]
  exact ⟨_, rfl⟩

/-- Behind the first half of a pair stands the second. -/
theorem utf8PushRound_high (h : u1 &&& 0xfc = 0xd8) (hr : utf8PushRound (u0 :: u1 :: rest) outLeft = .ok (n, out)) :
    ∃ u2 u3 rest', rest = u2 :: u3 :: rest' ∧ u3 &&& 0xfc = 0xdc ∧ n = 4 := by
  have h0 : u1 ≠ 0 := by
    rintro rfl
    exact absurd h (by decide)
  have h8 : u1 &&& 0xf8 ≠ 0 := by
    rw [and_f8, h]
    decide
  have hlow : u1 &&& 0xfc ≠ 0xdc := by
    rw [h]
    decide
  simp only [utf8PushRound] at hr
  rw [if_neg (fun hs => h0 hs.1), if_neg h8, if_neg hlow, if_neg (not_not.mpr h)] at hr
  split at hr
  · rename_i u2 u3 rest'
    split at hr
    · cases hr
    · rename_i hu3
      split at hr
      · cases hr
      · exact ⟨u2, u3, rest', rfl, not_not.mp hu3, (Prod.mk.inj (Except.ok.inj hr)).1.symm⟩
  · cases hr

theorem utf8PushRound_single (hhigh : u1 &&& 0xfc ≠ 0xd8)
    (hr : utf8PushRound (u0 :: u1 :: rest) outLeft = .ok (n, out)) : n = 2 := by
  obtain ⟨taken, rest', hsplit, hlen, hn, -⟩ := utf8PushRound_ok hr
  rcases hn with hn | ⟨hn, high, hlast, hbits⟩
  · exact hn
  · have htake : taken.take 2 = [u0, u1] := by
      have := congrArg (List.take 2) hsplit
      rwa [take_append_of_le_length (by omega), eq_comm] at this
    rw [htake] at hlast
    obtain rfl := Option.some.inj hlast
    exact absurd hbits hhigh

/-- The first bytes of the units that are written. -/
theorem unitsOf_small (h : v < 0x10000) : ∃ u0 u1, unitsOf v = [u0, u1] ∧ (u1 &&& 0xfc = 0xd8 ↔ IsHigh v) ∧
    (u1 &&& 0xfc = 0xdc ↔ IsLow v) := by
  have hclass : ∀ a < 256, (UInt8.ofNat a &&& 0xfc = 0xd8 ↔ 0xD8 ≤ a ∧ a < 0xDC) ∧ (UInt8.ofNat a &&& 0xfc = 0xdc ↔ 0xDC ≤ a ∧ a < 0xE0) := by
    decide +kernel
  obtain ⟨hhigh, hlow⟩ := hclass (v / 256) (by omega)
  refine ⟨UInt8.ofNat v, UInt8.ofNat (v / 256), by rw [unitsOf, if_pos h], hhigh.trans ?_, hlow.trans ?_⟩
  · unfold IsHigh
    omega
  · unfold IsLow
    omega

/-- Of a value behind the end of Unicode both halves are second ones. -/
theorem unitsOf_large (h : ¬v < 0x10000) (hv : v ≤ 0x1FFFFF) :
    ∃ u0 u1 u2 u3, unitsOf v = [u0, u1, u2, u3] ∧ u3 &&& 0xfc = 0xdc ∧ (u1 &&& 0xfc = 0xd8 ∨ u1 &&& 0xfc = 0xdc) ∧
      (u1 &&& 0xfc = 0xd8 ↔ v ≤ 0x10FFFF) := by
  have hclass : ∀ a < 8, ((UInt8.ofNat a ||| 0xd8) &&& 0xfc = 0xd8 ∨ (UInt8.ofNat a ||| 0xd8) &&& 0xfc = 0xdc) ∧
      ((UInt8.ofNat a ||| 0xd8) &&& 0xfc = 0xd8 ↔ a < 4) := by
    decide
  have hlow : ∀ a < 4, UInt8.ofNat (0xDC + a) &&& 0xfc = 0xdc := by decide
  obtain ⟨hor, hiff⟩ := hclass ((v - 0x10000) / 262144) (by omega)
  refine ⟨_, _, _, _, by rw [unitsOf, if_neg h], hlow _ (by omega), hor, hiff.trans ?_⟩
  omega

/-- A unit that is the second half of a pair is not accepted in the first place. -/
theorem not_done_of_low (h : u1 &&& 0xfc = 0xdc) : utf8Push.run (u0 :: u1 :: rest) room ≠ .done bytes := by
  intro hrun
  rcases Loop.done_cases hrun with ⟨hnil, -⟩ | ⟨n, out, u', -, -, hr, -⟩
  · cases hnil
  · obtain ⟨e, he⟩ := @utf8PushRound_low u0 u1 h rest room
    cases he.symm.trans hr

/-- Values of which the units are accepted have their surrogates in pairs. -/
theorem paired_of_push {vs : List Nat} (hvs : ∀ v ∈ vs, v ≤ 0x1FFFFF) {room : Nat} {bytes : List UInt8}
    (h : utf8Push.run (vs.flatMap unitsOf) room = .done bytes) : SurrogatesPaired vs := by
  induction hn : vs.length using Nat.strong_induction_on generalizing vs room bytes with
  | _ m ih =>
    cases vs with
    | nil => exact .nil
    | cons v vs =>
      rw [forall_mem_cons] at hvs
      rw [length_cons] at hn
      rw [flatMap_cons] at h
      by_cases hsmall : v < 0x10000
      · obtain ⟨u0, u1, hunits, hhigh, hlow⟩ := unitsOf_small hsmall
        rw [hunits] at h
        rcases Loop.done_cases h with ⟨hnil, -⟩ | ⟨n, out, u', -, -, hr, hrest, -⟩
        · cases hnil
        by_cases hv : IsHigh v
        · obtain ⟨u2, u3, rest, htail, hu3, rfl⟩ := utf8PushRound_high (hhigh.2 hv) hr
          replace htail : vs.flatMap unitsOf = u2 :: u3 :: rest := htail
          rw [htail] at hrest
          cases vs with
          | nil => cases htail
          | cons w ws =>
            rw [forall_mem_cons] at hvs
            rw [length_cons] at hn
            rw [flatMap_cons] at htail
            by_cases hw : w < 0x10000
            · obtain ⟨w0, w1, hwunits, -, hwlow⟩ := unitsOf_small hw
              rw [hwunits] at htail
              obtain ⟨rfl, rfl, rfl⟩ : w0 = u2 ∧ w1 = u3 ∧ ws.flatMap unitsOf = rest := by simpa using htail
              exact .pair hv (hwlow.1 hu3) (ih _ (by omega) hvs.2.2 hrest rfl)
            · -- the first half would be taken for the second of this pair, and the second half is left
              obtain ⟨w0, w1, w2, w3, hwunits, hw3, -⟩ := unitsOf_large hw hvs.2.1
              rw [hwunits] at htail
              obtain ⟨-, -, rfl⟩ : w0 = u2 ∧ w1 = u3 ∧ w2 :: w3 :: ws.flatMap unitsOf = rest := by simpa using htail
              exact absurd hrest (not_done_of_low hw3)
        · obtain rfl := utf8PushRound_single (fun hb => hv (hhigh.1 hb)) hr
          have hscalar : Scalar v := by
            have hnot : ¬IsLow v := fun hl => not_done_of_low (hlow.2 hl) h
            unfold Scalar IsHigh IsLow at *
            omega
          exact .scalar hscalar (ih _ (by omega) hvs.2 hrest rfl)
      · obtain ⟨u0, u1, u2, u3, hunits, hu3, hor, hiff⟩ := unitsOf_large hsmall hvs.1
        rw [hunits] at h
        rcases hor with hhigh | hlow
        · rcases Loop.done_cases h with ⟨hnil, -⟩ | ⟨n, out, u', -, -, hr, hrest, -⟩
          · cases hnil
          obtain ⟨-, -, -, -, -, rfl⟩ := utf8PushRound_high hhigh hr
          have hscalar : Scalar v := .inr ⟨by omega, hiff.1 hhigh⟩
          exact .scalar hscalar (ih _ (by omega) hvs.2 hrest rfl)
        · exact absurd h (not_done_of_low hlow)

/-! ## What is pulled can be pushed -/

/-- A string of bytes that `utf8_pull` takes gives well-formed UTF-16LE, which `utf8_push` accepts, exactly if its surrogates stand
in pairs and none of its values is behind the end of Unicode. -/
theorem utf8Pull_wellFormed_iff {input units : List UInt8} {room : Nat} (h : utf8Pull.run input room = .done units) :
    (WellFormedUtf16le units ∧ PushAccepts units) ↔ SurrogatesPaired (utf8Values input) := by
  obtain rfl := utf8Pull_values h
  constructor
  · rintro ⟨-, bytes, hbytes⟩
    exact paired_of_push (fun v hv => mem_utf8Values_le hv) (hbytes _ le_rfl)
  · exact fun hp => ⟨hp.wellFormed, hp.wellFormed.accepted⟩

theorem utf8Pull_one {c : UInt8} (hr : utf8PullRound (c :: bytes) room = .ok (n, out))
    (hout : 2 ≤ room) (hn : (c :: bytes).drop n = []) : utf8Pull.run (c :: bytes) room = .done out := by
  rw [Loop.run_round (show 1 ≤ _ from Nat.succ_le_succ (Nat.zero_le _)) hout hr, hn, utf8Pull_exact.run_nil, Conv.after_done,
    append_nil]

/-- A high and a low surrogate, each in three bytes. -/
theorem utf8Pull_wellFormed_pair : WellFormedUtf16le [0x00, 0xD8, 0x00, 0xDC] ∧ PushAccepts [0x00, 0xD8, 0x00, 0xDC] := by
  have hpull : utf8Pull.run [0xED, 0xA0, 0x80, 0xED, 0xB0, 0x80] 4 = .done [0x00, 0xD8, 0x00, 0xDC] := by
    have hround : utf8PullRound [0xED, 0xA0, 0x80, 0xED, 0xB0, 0x80] 4 = .ok (3, [0x00, 0xD8]) := rfl
    have hlow : utf8Pull.run [0xED, 0xB0, 0x80] 2 = .done [0x00, 0xDC] := utf8Pull_one rfl le_rfl rfl
    rw [Loop.run_round (by decide) (by decide) hround]
    exact congrArg (Conv.after [0x00, 0xD8]) hlow
  exact (utf8Pull_wellFormed_iff hpull).2 (.pair (show IsHigh 0xD800 from ⟨by decide, by decide⟩)
    (show IsLow 0xDC00 from ⟨by decide, by decide⟩) .nil)

/-- A surrogate by itself. -/
theorem surrogate_not_wellFormed : utf8Pull.run [0xED, 0xA0, 0x80] 2 = .done [0x00, 0xD8] ∧
    ¬(WellFormedUtf16le [0x00, 0xD8] ∧ PushAccepts [0x00, 0xD8]) := by
  refine ⟨utf8Pull_one rfl le_rfl rfl, ?_⟩
  rintro ⟨-, bytes, hbytes⟩
  have hp := @paired_of_push [0xD800] (by decide) _ bytes (hbytes _ le_rfl)
  cases hp with
  | scalar hs _ => exact absurd hs (by decide)

end Samba.Charset
