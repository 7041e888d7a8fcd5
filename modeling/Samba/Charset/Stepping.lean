/-
A string taken character by character (lib/charset/charcnv.c, next_codepoint and push_codepoint; lib/charset/util_unistr.c,
strlen_m) and converted as a whole (convert_string). On well-formed UTF-8 the two agree.
-/
import Samba.Charset.Codepoint

namespace Samba.Charset

open CString List Rounds

/-- `push_codepoint`: the bytes of a character in the unix charset. -/
def pushCodepoint (c : Nat) : Option Text :=
  if c < 128 then some [UInt8.ofNat c]
  else
    match getConvHandle .utf16 .unix with
    | none => none
    | some descriptor =>
      let buf :=
        if c < 0x10000 then [UInt8.ofNat c, UInt8.ofNat (c / 256)]
        else
          let c := c - 0x10000
          [UInt8.ofNat (c >>> 10), UInt8.ofNat ((c >>> 18) ||| 0xd8), UInt8.ofNat c, UInt8.ofNat (((c >>> 8) &&& 0x3) ||| 0xdc)]
      let converted := smbIconv descriptor [] buf 5
      if converted.rest = [] then some converted.out else none

/-- What `strlen_m` counts for a character; `INVALID_CODEPOINT` is not below 0x10000. -/
def unitCount : Option Nat → Nat
  | some c => if c < 0x10000 then 1 else 2
  | none => 2

/-- The second loop of `strlen_m`, which takes at least one byte in each round. -/
def strlenMFrom : Nat → Text → Nat
  | fuel + 1, s =>
    if s = [] then 0
    else
      let (c, size) := nextCodepoint s
      unitCount c + strlenMFrom fuel (s.drop size)
  | 0, _ => 0

/-- `strlen_m`. The first loop counts what is ASCII. -/
def strlenM (s : Text) : Nat :=
  let ascii := s.takeWhile fun c => c &&& 0x80 = 0
  let s := s.dropWhile fun c => c &&& 0x80 = 0
  ascii.length + if s = [] then 0 else strlenMFrom s.length s

/-- The characters that `next_codepoint` yields from the start of a string to its end, each with its size. -/
def codepointsFrom : Nat → Text → List (Option Nat × Nat)
  | fuel + 1, s => if s = [] then [] else nextCodepoint s :: codepointsFrom fuel (s.drop (nextCodepoint s).2)
  | 0, _ => []

def codepoints (s : Text) : List (Option Nat × Nat) := codepointsFrom s.length s

/-- `convert_string`: what it writes, `none` for -1. -/
def convertString (source target : CharsetT) (src : List UInt8) (destlen : Nat) : Option (List UInt8) :=
  match getConvHandle source target with
  -- conversion not supported, use as is
  | none => some (src.take (min src.length destlen))
  | some descriptor =>
    let converted := smbIconv descriptor [] src destlen
    if converted.err = none then some converted.out else none

/-! ## One character -/

variable {n : Nat} {ns : List Nat}

theorem nextCodepoint_scalar (h : Scalar n) (rest : Text) :
    nextCodepoint (utf8Bytes n ++ rest) = (some n, (utf8Bytes n).length) := by
  by_cases hn : n < 0x80
  · have hzero : ∀ a < 0x80, UInt8.ofNat a &&& 0x80 = 0 := by decide
    rw [show utf8Bytes n = [UInt8.ofNat n] from if_pos hn, singleton_append, nextCodepoint_ascii (hzero n hn), UInt8.toNat_ofNat',
      Nat.mod_eq_of_lt (by omega), length_singleton]
  · exact nextCodepoint_wide h (Nat.le_of_not_lt hn) rest

/-- The buffer that `push_codepoint` fills is the UTF-16 form of the character. -/
theorem pushCodepoint_buf (h : n ≤ 0x10FFFF) : (if n < 0x10000 then [UInt8.ofNat n, UInt8.ofNat (n / 256)]
      else [UInt8.ofNat ((n - 0x10000) >>> 10), UInt8.ofNat (((n - 0x10000) >>> 18) ||| 0xd8), UInt8.ofNat (n - 0x10000),
        UInt8.ofNat ((((n - 0x10000) >>> 8) &&& 0x3) ||| 0xdc)]) = utf16leBytes n := by
  unfold utf16leBytes
  split
  · rfl
  · have hhigh : ∀ a < 4, a ||| 0xd8 = 0xD8 + a := by decide
    have hlow : ∀ a < 4, a ||| 0xdc = 0xDC + a := by decide
    have hmask : ∀ v : Nat, v &&& 0x3 = v % 4 := fun v => Nat.and_two_pow_sub_one_eq_mod v 2
    have h10 : ∀ v : Nat, v >>> 10 = v / 1024 := fun v => Nat.shiftRight_eq_div_pow v 10
    have h18 : ∀ v : Nat, v >>> 18 = v / 262144 := fun v => Nat.shiftRight_eq_div_pow v 18
    have h8 : ∀ v : Nat, v >>> 8 = v / 256 := fun v => Nat.shiftRight_eq_div_pow v 8
    dsimp only
    rw [h10, h18, h8, hmask, hhigh _ (by omega), hlow _ (by omega)]

theorem length_utf8Bytes_le (n : Nat) : (utf8Bytes n).length ≤ 4 := by
  rw [length_utf8Bytes]
  repeat' split
  all_goals decide

theorem pushCodepoint_scalar (h : Scalar n) : pushCodepoint n = some (utf8Bytes n) := by
  unfold pushCodepoint
  by_cases hn : n < 128
  · rw [if_pos hn, utf8Bytes, if_pos hn]
  · have hmax : n ≤ 0x10FFFF := by unfold Scalar at h; omega
    rw [if_neg hn]
    show (let converted := smbIconv (.direct fun _ => utf8Push.run) [] _ 5
      if converted.rest = [] then some converted.out else none) = _
    dsimp only
    rw [pushCodepoint_buf hmax]
    have hrun := @utf8Push_bytes [n] (forall_mem_singleton.2 h) 5 (by
      have := length_utf8Bytes_le n
      rw [flatMap_cons, flatMap_nil, append_nil]
      omega)
    rw [flatMap_cons, flatMap_nil, append_nil, flatMap_cons, flatMap_nil, append_nil] at hrun
    show (if (utf8Push.run (utf16leBytes n) 5).rest = [] then some (utf8Push.run (utf16leBytes n) 5).out else none) = _
    rw [hrun]
    rfl

theorem mapM_pushCodepoint (h : ∀ n ∈ ns, Scalar n) : ns.mapM pushCodepoint = some (ns.map utf8Bytes) := by
  induction ns with
  | nil => rfl
  | cons n ns ih =>
    rw [forall_mem_cons] at h
    rw [mapM_cons, pushCodepoint_scalar h.1, ih h.2]
    rfl

/-! ## Whole strings -/

theorem codepointsFrom_scalars (h : ∀ n ∈ ns, Scalar n) {fuel : Nat} (hfuel : (ns.flatMap utf8Bytes).length ≤ fuel) :
    codepointsFrom fuel (ns.flatMap utf8Bytes) = ns.map fun n => (some n, (utf8Bytes n).length) := by
  induction ns generalizing fuel with
  | nil => cases fuel <;> rfl
  | cons n ns ih =>
    rw [forall_mem_cons] at h
    have hpos := length_utf8Bytes_pos n
    rw [flatMap_cons, length_append] at hfuel
    cases fuel with
    | zero => omega
    | succ fuel =>
      rw [codepointsFrom, if_neg (flatMap_utf8_ne_nil (cons_ne_nil n ns)), flatMap_cons, nextCodepoint_scalar h.1,
        drop_left, ih h.2 (by omega), map_cons]

/-- A character counts for as many units as its UTF-16 form has. -/
theorem unitCount_scalar (n : Nat) : 2 * unitCount (some n) = (utf16leBytes n).length := by
  rw [unitCount, length_utf16leBytes]
  split <;> rfl

theorem strlenMFrom_scalars (h : ∀ n ∈ ns, Scalar n) {fuel : Nat} (hfuel : (ns.flatMap utf8Bytes).length ≤ fuel) :
    2 * strlenMFrom fuel (ns.flatMap utf8Bytes) = (ns.flatMap utf16leBytes).length := by
  induction ns generalizing fuel with
  | nil => cases fuel <;> rfl
  | cons n ns ih =>
    rw [forall_mem_cons] at h
    have hpos := length_utf8Bytes_pos n
    rw [flatMap_cons, length_append] at hfuel
    cases fuel with
    | zero => omega
    | succ fuel =>
      rw [strlenMFrom, if_neg (flatMap_utf8_ne_nil (cons_ne_nil n ns)), flatMap_cons, nextCodepoint_scalar h.1]
      dsimp only
      rw [drop_left, Nat.mul_add, unitCount_scalar, ih h.2 (by omega), flatMap_cons, length_append]

theorem strlenM_ascii {c : UInt8} (h : c &&& 0x80 = 0) (s : Text) : strlenM (c :: s) = strlenM s + 1 := by
  unfold strlenM
  rw [takeWhile_cons_of_pos (by simpa using h), dropWhile_cons_of_pos (by simpa using h)]
  dsimp only
  rw [length_cons]
  omega

theorem strlenM_wide {c : UInt8} (h : c &&& 0x80 ≠ 0) (s : Text) : strlenM (c :: s) = strlenMFrom (c :: s).length (c :: s) := by
  unfold strlenM
  rw [takeWhile_cons_of_neg (by simpa using h), dropWhile_cons_of_neg (by simpa using h)]
  exact Nat.zero_add _

theorem strlenM_scalars (h : ∀ n ∈ ns, Scalar n) :
    2 * strlenM (ns.flatMap utf8Bytes) = (ns.flatMap utf16leBytes).length := by
  induction ns with
  | nil => rfl
  | cons n ns ih =>
    rw [forall_mem_cons] at h
    by_cases hn : n < 0x80
    · have hzero : ∀ a < 0x80, UInt8.ofNat a &&& 0x80 = 0 := by decide
      have h8 : utf8Bytes n = [UInt8.ofNat n] := if_pos hn
      rw [flatMap_cons, h8, singleton_append, strlenM_ascii (hzero n hn), Nat.mul_add, ih h.2, flatMap_cons,
        length_append, length_utf16leBytes, if_pos (by omega), Nat.add_comm]
    · have hmax : n ≤ 0x10FFFF := by unfold Scalar at h; omega
      obtain ⟨b, bs, hbytes, hlead, -⟩ := utf8Bytes_wide (Nat.le_of_not_lt hn) hmax
      have hstring : (n :: ns).flatMap utf8Bytes = b :: (bs ++ ns.flatMap utf8Bytes) := by
        rw [flatMap_cons, hbytes, cons_append]
      rw [hstring, strlenM_wide hlead, ← hstring]
      exact strlenMFrom_scalars (forall_mem_cons.2 h) le_rfl

theorem convertString_scalars (h : ∀ n ∈ ns, Scalar n) {room : Nat}
    (hroom : (ns.flatMap utf16leBytes).length ≤ room) :
    convertString .unix .utf16 (ns.flatMap utf8Bytes) room = some (ns.flatMap utf16leBytes) := by
  have hrun := utf8Pull_bytes h hroom
  show (let converted := utf8Pull.run (ns.flatMap utf8Bytes) room
    if converted.err = none then some converted.out else none) = _
  rw [hrun]
  rfl

/-! ## Character at a time and as a whole -/

/-- Stepping through a well-formed string yields its characters, each of which is written back as it was, and counts the units that
the conversion of the string writes. -/
theorem stepping_agrees {ns : List Nat} (h : ∀ n ∈ ns, Scalar n ∧ n ≠ 0) {s : Text} (hs : s = ns.flatMap utf8Bytes) :
    codepoints s = ns.map (fun n => (some n, (utf8Bytes n).length)) ∧ ns.mapM pushCodepoint = some (ns.map utf8Bytes) ∧
      (ns.map utf8Bytes).flatten = s ∧
      ∀ room, 2 * strlenM s ≤ room → ∃ out, convertString .unix .utf16 s room = some out ∧ out.length = 2 * strlenM s := by
  subst hs
  have hscalar : ∀ n ∈ ns, Scalar n := fun n hn => (h n hn).1
  refine ⟨codepointsFrom_scalars hscalar le_rfl, ?_, rfl, fun room hroom => ?_⟩
  · exact mapM_pushCodepoint hscalar
  · rw [strlenM_scalars hscalar] at hroom ⊢
    exact ⟨_, convertString_scalars hscalar hroom, rfl⟩

/-- A letter, the euro sign and a character that takes a pair of surrogates. -/
theorem stepping_agrees_mixed : ∃ s : Text, strlenM s = 4 ∧
    codepoints s = [(some 0x41, 1), (some 0x20AC, 3), (some 0x1F600, 4)] := by
  have h : ∀ n ∈ [0x41, 0x20AC, 0x1F600], Scalar n ∧ n ≠ 0 := by decide
  obtain ⟨hcodes, -, -, hconv⟩ := stepping_agrees h rfl
  obtain ⟨out, hout, hlen⟩ := hconv _ le_rfl
  rw [convertString_scalars (fun n hn => (h n hn).1) (strlenM_scalars fun n hn => (h n hn).1).ge] at hout
  obtain rfl := Option.some.inj hout
  exact ⟨_, Nat.eq_of_mul_eq_mul_left (show 0 < 2 by decide) hlen.symm, hcodes⟩

end Samba.Charset
