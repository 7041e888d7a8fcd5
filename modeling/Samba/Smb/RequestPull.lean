/-
Strings in SMB requests (smb_server/smb/request.c, req_pull_string and req_pull_ascii4): the limits
that the data portion of the request, the caller's `byte_len` and the terminator put on a string, and
what is read for it. The conversion to the unix charset is an arbitrary function, a section variable:
it sees the bytes of the string and nothing else.
-/
import Samba.Charset.Charcnv
import Samba.Smb.Receive
import Samba.Stream.Packet

namespace Samba.SmbServer

open Reading Samba.Charset Samba.Smb

/-! ## Strings in memory -/

/-- `strnlen` of at most `n` bytes. -/
def strnlen (mem : Memory) (src : Nat) : Nat → Reading Nat
  | 0 => return 0
  | n + 1 => do
    let c ← byte mem src
    if c = 0 then return 0
    else
      let len ← strnlen mem (src + 1) n
      return len + 1

/-- The loop of `utf16_len_n`, with so many bytes left: it looks at no character that ends them. -/
def utf16Loop (mem : Memory) (src : Nat) : Nat → Reading Nat
  | n + 3 => do
    let c ← word mem src
    if c = 0 then return 0
    else
      let len ← utf16Loop mem (src + 2) (n + 1)
      return len + 2
  | _ => return 0

/-- `utf16_len_n`. -/
def utf16LenN (mem : Memory) (src n : Nat) : Reading Nat := do
  let len ← utf16Loop mem src n
  return if len + 2 ≤ n then len + 2 else len

/-- The bytes that a conversion of `len` bytes at `src` is given. -/
def sourceBytes (mem : Memory) (src len : Nat) : Reading (List UInt8) :=
  ⟨(List.range' src len).map mem, List.range' src len⟩

/-! ## Pulling -/

def strAscii : UInt32 := 4
def strUnicode : UInt32 := 8
def strNoalign : UInt32 := 16
def strNoRangeCheck : UInt32 := 32
def flags2UnicodeStrings : Nat := 0x8000

/-- `flags & bit`. -/
def flagSet (flags bit : UInt32) : Bool := flags &&& bit != 0

/-- A number as an `int`. -/
def toInt (n : Int) : Int := n.bmod (2 ^ 32)

/-- `*dest`, `none` for NULL, and the number returned. -/
structure Pulled where
  dest : Option (List UInt8)
  count : Nat
  deriving DecidableEq, Repr

section
variable (convert : CharsetT → CharsetT → List UInt8 → Option (List UInt8))
variable (pkt : RecvPacket) (req : SmbsrvRequest)

/-- `ucs2_align`, counting from the start of the buffer. -/
def ucs2Align (src : Nat) (flags : UInt32) : Nat :=
  if flagSet flags (strNoalign ||| strAscii) then 0 else src % 2

/-- The bytes left in the data portion, as an `int`. The difference is a `size_t`. -/
def dataLeft (src : Nat) : Int := toInt ((req.dataSize : Int) - ((src : Int) - req.data))

/-- The conversion at the end of a pull: on failure NULL and zero. -/
def pullConvert (source : CharsetT) (src len count : Nat) : Reading Pulled := do
  let bytes ← sourceBytes pkt.mem src len
  match convert source .unix bytes with
  | none => return ⟨none, 0⟩
  | some out => return ⟨some out, count⟩

/-- `req_pull_ucs2` behind the alignment. -/
def pullAligned (src : Nat) (byteLen : Int) (flags : UInt32) (alignment : Nat) : Reading Pulled :=
  let srcLen :=
    if flagSet flags strNoRangeCheck then byteLen
    else if byteLen ≠ -1 ∧ dataLeft req src > byteLen then byteLen else dataLeft req src
  if srcLen < 0 then return ⟨none, 0⟩
  else do
    let srcLen2 ← utf16LenN pkt.mem src srcLen.toNat
    if srcLen2 = 0 then return ⟨some [], srcLen2 + alignment⟩
    else pullConvert convert pkt .utf16 src srcLen2 (srcLen2 + alignment)

/-- `req_pull_ucs2`. -/
def reqPullUcs2 (src : Nat) (byteLen : Int) (flags : UInt32) : Reading Pulled :=
  if !flagSet flags strNoalign ∧ ucs2Align src flags ≠ 0 then
    pullAligned convert pkt req (src + 1) (if byteLen ≠ -1 then byteLen - 1 else byteLen) flags 1
  else pullAligned convert pkt req src byteLen flags 0

/-- `req_pull_ascii` behind the computation of the limit. -/
def pullTerminated (src : Nat) (srcLen : Int) : Reading Pulled := do
  let len ← strnlen pkt.mem src (srcLen % 2 ^ 64).toNat
  -- include the termination if we didn't reach the end of the packet
  let srcLen2 := if (len : Int) ≤ srcLen - 1 then len + 1 else len
  pullConvert convert pkt .dos src srcLen2 srcLen2

/-- `req_pull_ascii`. -/
def reqPullAscii (src : Nat) (byteLen : Int) (flags : UInt32) : Reading Pulled :=
  if flagSet flags strNoRangeCheck then pullTerminated convert pkt src byteLen
  else if dataLeft req src < 0 then return ⟨none, 0⟩
  else if byteLen ≠ -1 ∧ dataLeft req src > byteLen then pullTerminated convert pkt src byteLen
  else pullTerminated convert pkt src (dataLeft req src)

/-- Whether a string is in UTF-16. -/
def pullsUnicode (flags : UInt32) : Bool :=
  !flagSet flags strAscii && (flagSet flags strUnicode || req.flags2 &&& flags2UnicodeStrings != 0)

/-- `req_pull_string`. -/
def reqPullString (src : Nat) (byteLen : Int) (flags : UInt32) : Reading Pulled :=
  if pullsUnicode req flags then reqPullUcs2 convert pkt req src byteLen flags
  else reqPullAscii convert pkt req src byteLen flags

/-- `req_pull_ascii4`. The comparison is one of `size_t`s. -/
def reqPullAscii4 (src : Nat) (flags : UInt32) : Reading Pulled :=
  if ((src : Int) - req.data + 1) % 2 ^ 64 > req.dataSize then
    -- win2000 treats this as the empty string!
    return ⟨some [], 0⟩
  else do
    -- this consumes the 0x4 byte
    let ret ← reqPullString convert pkt req (src + 1) (-1) flags
    if ret.count = 2 ^ 64 - 1 then return ⟨some [], 1⟩ else return ⟨ret.dest, ret.count + 1⟩
end

/-! ## The limits -/

/-- A string of characters of `width` bytes at the start of `n` bytes: it goes on to the first NUL
character and takes that in, or it takes in all whole characters. -/
structure Extent (width : Nat) (nul : Nat → Prop) (n len : Nat) : Prop where
  whole : width ∣ len
  le : len ≤ n
  inner : ∀ k, width * (k + 1) < len → ¬nul k
  ends : (∃ k, len = width * (k + 1) ∧ nul k) ∨ n < len + width

/-- The NUL characters of a string at `src`. -/
def nulAt (mem : Memory) (unicode : Bool) (src k : Nat) : Prop :=
  if unicode then (word mem (src + 2 * k)).value = 0 else (byte mem (src + k)).value = 0

/-- Where the bytes of a string at `src` start. -/
def pullStart (req : SmbsrvRequest) (src : Nat) (flags : UInt32) : Nat :=
  if pullsUnicode req flags ∧ !flagSet flags strNoalign then src + src % 2 else src

/-- Where a string has to end: with the data portion, and with the caller's limit. -/
def pullEnd (req : SmbsrvRequest) (src : Nat) (byteLen : Int) : Nat :=
  if byteLen = -1 then req.data + req.dataSize else min (req.data + req.dataSize) (src + byteLen.toNat)

/-- What is pulled is NULL and counts nothing, or is the string at the first place for one, converted,
and counts the bytes from the source position to its end. -/
def CountsString (convert : CharsetT → CharsetT → List UInt8 → Option (List UInt8)) (pkt : RecvPacket)
    (req : SmbsrvRequest) (src : Nat) (byteLen : Int) (flags : UInt32) (p : Pulled) : Prop :=
  let unicode := pullsUnicode req flags
  let start := pullStart req src flags
  (p.dest = none ∧ p.count = 0) ∨
    ∃ len out, Extent (if unicode then 2 else 1) (nulAt pkt.mem unicode start) (pullEnd req src byteLen - start) len ∧
      start ≤ pullEnd req src byteLen ∧ p.dest = some out ∧ src + p.count = start + len ∧
      (len = 0 ∧ out = [] ∨
        convert (if unicode then .utf16 else .dos) .unix (sourceBytes pkt.mem start len).value = some out)

/-- A pull keeps to the data portion and to the limit of the caller, in what it reads and in what it
consumes, and counts what it consumes. -/
structure RespectsLimits (convert : CharsetT → CharsetT → List UInt8 → Option (List UInt8)) (pkt : RecvPacket)
    (req : SmbsrvRequest) (src : Nat) (byteLen : Int) (flags : UInt32) (r : Reading Pulled) : Prop where
  portion : r.Inside req.data (req.data + req.dataSize)
  read : byteLen ≠ -1 → r.Inside src (src + byteLen.toNat)
  consumed : byteLen ≠ -1 → r.value.count ≤ byteLen.toNat
  counts : CountsString convert pkt req src byteLen flags r.value

/-! ### Finding the end -/

variable {mem : Memory} {pkt : RecvPacket} {req : SmbsrvRequest}
variable {convert : CharsetT → CharsetT → List UInt8 → Option (List UInt8)}

theorem strnlen_spec (mem : Memory) (src n : Nat) :
    (strnlen mem src n).Inside src (src + n) ∧ (strnlen mem src n).value ≤ n ∧
      (∀ k < (strnlen mem src n).value, (byte mem (src + k)).value ≠ 0) ∧
      ((byte mem (src + (strnlen mem src n).value)).value = 0 ∨ (strnlen mem src n).value = n) := by
  induction n generalizing src with
  | zero =>
    refine ⟨inside_pure _, le_rfl, ?_, .inr rfl⟩
    rintro k hk
    cases hk
  | succ n ih =>
    obtain ⟨hinside, hle, hinner, hends⟩ := ih (src + 1)
    have hmore : ∀ k, src + 1 + k = src + (k + 1) := fun k => by omega
    unfold strnlen
    by_cases hc : (byte mem src).value = 0
    · simp only [inside_bind, value_bind, if_pos hc, inside_byte, inside_pure, value_pure]
      refine ⟨⟨⟨le_rfl, by omega⟩, trivial⟩, Nat.zero_le _, ?_, .inl hc⟩
      rintro k hk
      cases hk
    · simp only [inside_bind, value_bind, if_neg hc, inside_byte, inside_pure, value_pure, and_true]
      refine ⟨⟨⟨le_rfl, by omega⟩, hinside.mono (by omega) (by omega)⟩, by omega, ?_, ?_⟩
      · rintro k hk
        obtain _ | k := k
        · exact hc
        · rw [← hmore]
          exact hinner k (by omega)
      · rw [← hmore]
        exact hends.imp id (by omega)

theorem utf16Loop_spec (mem : Memory) (src n : Nat) :
    (utf16Loop mem src n).Inside src (src + n) ∧ 2 ∣ (utf16Loop mem src n).value ∧
      (utf16Loop mem src n).value ≤ n ∧
      (∀ k, 2 * k < (utf16Loop mem src n).value → (word mem (src + 2 * k)).value ≠ 0) ∧
      ((word mem (src + (utf16Loop mem src n).value)).value = 0 ∨ n ≤ (utf16Loop mem src n).value + 2) := by
  induction src, n using utf16Loop.induct with
  | case1 src n ih =>
    obtain ⟨hinside, heven, hle, hinner, hends⟩ := ih
    have hmore : ∀ k, src + 2 + k = src + (k + 2) := fun k => by omega
    unfold utf16Loop
    by_cases hc : (word mem src).value = 0
    · simp only [inside_bind, value_bind, if_pos hc, inside_word, inside_pure, value_pure]
      refine ⟨⟨⟨le_rfl, by omega⟩, trivial⟩, Nat.dvd_zero _, Nat.zero_le _, ?_, .inl hc⟩
      rintro k hk
      cases hk
    · simp only [inside_bind, value_bind, if_neg hc, inside_word, inside_pure, value_pure, and_true]
      refine ⟨⟨⟨le_rfl, by omega⟩, hinside.mono (by omega) (by omega)⟩, by omega, by omega, ?_, ?_⟩
      · rintro k hk
        obtain _ | k := k
        · exact hc
        · rw [show src + 2 * (k + 1) = src + 2 + 2 * k by omega]
          exact hinner k (by omega)
      · rw [← hmore]
        exact hends.imp id (by omega)
  | case2 n src hn =>
    have hshort : n ≤ 2 := by
      by_contra hlong
      obtain ⟨m, rfl⟩ : ∃ m, n = m + 3 := ⟨n - 3, by omega⟩
      exact hn m rfl
    have hzero : utf16Loop mem src n = pure 0 := by
      unfold utf16Loop
      split
      · omega
      · rfl
    rw [hzero]
    refine ⟨inside_pure _, Nat.dvd_zero _, Nat.zero_le _, ?_, .inr hshort⟩
    rintro k hk
    cases hk

theorem utf16LenN_spec (mem : Memory) (src n : Nat) :
    (utf16LenN mem src n).Inside src (src + n) ∧
      Extent 2 (nulAt mem true src) n (utf16LenN mem src n).value := by
  obtain ⟨hinside, heven, hle, hinner, hends⟩ := utf16Loop_spec mem src n
  unfold utf16LenN
  simp only [inside_bind, inside_pure, and_true, value_bind, value_pure]
  refine ⟨hinside, ?_⟩
  split
  · next hroom =>
    refine ⟨by omega, hroom, ?_, ?_⟩
    · rintro k hk
      exact hinner k (by omega)
    · refine hends.imp (fun hnul => ⟨(utf16Loop mem src n).value / 2, by omega, ?_⟩) (by omega)
      rw [nulAt, if_pos rfl, Nat.mul_div_cancel' heven]
      exact hnul
  · next hroom =>
    refine ⟨heven, hle, ?_, .inr (by omega)⟩
    rintro k hk
    exact hinner k (by omega)

/-- The length that `req_pull_ascii` takes from `strnlen`. -/
theorem strnlen_extent (mem : Memory) (src n : Nat) :
    Extent 1 (nulAt mem false src) n
      (if (strnlen mem src n).value + 1 ≤ n then (strnlen mem src n).value + 1 else (strnlen mem src n).value) := by
  obtain ⟨-, hle, hinner, hends⟩ := strnlen_spec mem src n
  split
  · next hroom =>
    refine ⟨Nat.one_dvd _, hroom, ?_, .inl ⟨(strnlen mem src n).value, by omega, ?_⟩⟩
    · rintro k hk
      exact hinner k (by omega)
    · rcases hends with hnul | hall
      · exact hnul
      · omega
  · next hroom =>
    refine ⟨Nat.one_dvd _, hle, ?_, .inr (by omega)⟩
    rintro k hk
    exact hinner k (by omega)

/-! ### One pull -/

/-- A pull of the string between `start` and `stop`. -/
structure PullsAt (convert : CharsetT → CharsetT → List UInt8 → Option (List UInt8)) (mem : Memory)
    (unicode : Bool) (start stop alignment : Nat) (r : Reading Pulled) : Prop where
  inside : r.Inside start stop
  value : r.value = ⟨none, 0⟩ ∨ ∃ len out,
    Extent (if unicode then 2 else 1) (nulAt mem unicode start) (stop - start) len ∧
      r.value = ⟨some out, len + alignment⟩ ∧
      (len = 0 ∧ out = [] ∨
        convert (if unicode then .utf16 else .dos) .unix (sourceBytes mem start len).value = some out)

theorem sourceBytes_inside (mem : Memory) (src len : Nat) : (sourceBytes mem src len).Inside src (src + len) := by
  rintro i hi
  rw [sourceBytes, List.mem_range'_1] at hi
  exact hi

theorem pullConvert_inside (source : CharsetT) (src len count : Nat) :
    (pullConvert convert pkt source src len count).Inside src (src + len) := by
  unfold pullConvert
  simp only [inside_bind, sourceBytes_inside, true_and]
  split <;> exact inside_pure _

theorem pullConvert_value (source : CharsetT) (src len count : Nat) :
    (pullConvert convert pkt source src len count).value = ⟨none, 0⟩ ∨
      ∃ out, convert source .unix (sourceBytes pkt.mem src len).value = some out ∧
        (pullConvert convert pkt source src len count).value = ⟨some out, count⟩ := by
  unfold pullConvert
  simp only [value_bind]
  cases hout : convert source .unix (sourceBytes pkt.mem src len).value with
  | none => exact .inl rfl
  | some out => exact .inr ⟨out, rfl, rfl⟩

theorem toInt_eq {n : Int} (hlow : -(2 ^ 31) ≤ n) (hhigh : n < 2 ^ 31) : toInt n = n := by
  unfold toInt
  rw [Int.bmod_eq_of_le (by omega) (by omega)]

theorem dataLeft_eq (hfits : req.Fits pkt) (hsize : pkt.size < 2 ^ 31) (src : Nat)
    (hsrc : src ≤ req.data + req.dataSize + 2) :
    dataLeft req src = (req.data : Int) + req.dataSize - src := by
  have hrange := hfits.range
  rw [dataLeft, toInt_eq (by omega) (by omega)]
  omega

variable {src : Nat} {byteLen : Int} {flags : UInt32}

/-- The limit on a string that starts in the data portion or at its end. -/
theorem srcLen_eq (hfits : req.Fits pkt) (hsize : pkt.size < 2 ^ 31)
    (hsrc : src ≤ req.data + req.dataSize) (hbyteLen : -1 ≤ byteLen) :
    (if byteLen ≠ -1 ∧ dataLeft req src > byteLen then byteLen else dataLeft req src) =
      ((pullEnd req src byteLen - src : Nat) : Int) := by
  rw [dataLeft_eq hfits hsize src (by omega), pullEnd]
  split_ifs <;> omega

/-- The pull of a string that starts in the data portion or at its end. -/
theorem pullAligned_spec (hfits : req.Fits pkt) (hsize : pkt.size < 2 ^ 31) {src : Nat}
    (hsrc : src ≤ req.data + req.dataSize) {byteLen : Int} (hbyteLen : -1 ≤ byteLen) {flags : UInt32}
    (hflags : flagSet flags strNoRangeCheck = false) (alignment : Nat) :
    PullsAt convert pkt.mem true src (pullEnd req src byteLen) alignment
      (pullAligned convert pkt req src byteLen flags alignment) := by
  have hend : src ≤ pullEnd req src byteLen := by
    unfold pullEnd
    split <;> omega
  set n := pullEnd req src byteLen - src with hn
  obtain ⟨hinside, hextent⟩ := utf16LenN_spec pkt.mem src n
  have hle := hextent.le
  unfold pullAligned
  simp only [hflags, Bool.false_eq_true, if_false]
  rw [srcLen_eq hfits hsize hsrc hbyteLen, ← hn, if_neg (by omega), Int.toNat_natCast]
  constructor
  · simp only [inside_bind]
    refine ⟨hinside.mono le_rfl (by omega), ?_⟩
    split
    · exact inside_pure _
    · exact Inside.mono (pullConvert_inside _ _ _ _) le_rfl (by omega)
  · simp only [value_bind]
    split
    · next hzero =>
      refine .inr ⟨0, [], hzero ▸ hextent, ?_, .inl ⟨rfl, rfl⟩⟩
      rw [hzero]
      rfl
    · rcases @pullConvert_value pkt convert .utf16 src (utf16LenN pkt.mem src n).value
        ((utf16LenN pkt.mem src n).value + alignment) with hnone | ⟨out, hout, hvalue⟩
      · exact .inl hnone
      · exact .inr ⟨_, out, hextent, hvalue, .inr hout⟩

/-- A string that would start behind the end is refused. -/
theorem pullAligned_behind (hfits : req.Fits pkt) (hsize : pkt.size < 2 ^ 31)
    (hstart : req.data + req.dataSize < src) (hsrc : src ≤ req.data + req.dataSize + 2) (byteLen : Int)
    (hflags : flagSet flags strNoRangeCheck = false) (alignment : Nat) :
    pullAligned convert pkt req src byteLen flags alignment = pure ⟨none, 0⟩ := by
  have hleft := dataLeft_eq hfits hsize src (by omega)
  unfold pullAligned
  simp only [hflags, Bool.false_eq_true, if_false]
  rw [if_pos]
  rw [hleft]
  split <;> omega

theorem pullTerminated_spec (src : Nat) {n : Nat} (hn : n < 2 ^ 31) :
    PullsAt convert pkt.mem false src (src + n) 0 (pullTerminated convert pkt src n) := by
  obtain ⟨hinside, -, -, -⟩ := strnlen_spec pkt.mem src n
  have hextent := strnlen_extent pkt.mem src n
  have hmax : ((n : Int) % 2 ^ 64).toNat = n := by omega
  have hroom : ((strnlen pkt.mem src n).value : Int) ≤ (n : Int) - 1 ↔ (strnlen pkt.mem src n).value + 1 ≤ n := by
    omega
  set len := if (strnlen pkt.mem src n).value + 1 ≤ n then (strnlen pkt.mem src n).value + 1
    else (strnlen pkt.mem src n).value with hlen
  have hle := hextent.le
  unfold pullTerminated
  rw [hmax]
  constructor
  · simp only [inside_bind, hinside, true_and, hroom, ← hlen]
    exact Inside.mono (pullConvert_inside _ _ _ _) le_rfl (by omega)
  · simp only [value_bind, hroom, ← hlen]
    rcases @pullConvert_value pkt convert .dos src len len with hnone | ⟨out, hout, hvalue⟩
    · exact .inl hnone
    · refine .inr ⟨len, out, ?_, hvalue, .inr hout⟩
      rw [Nat.add_sub_cancel_left]
      exact hextent

theorem reqPullAscii_spec (hfits : req.Fits pkt) (hsize : pkt.size < 2 ^ 31)
    (hsrc : src ≤ req.data + req.dataSize) (hbyteLen : -1 ≤ byteLen)
    (hflags : flagSet flags strNoRangeCheck = false) :
    PullsAt convert pkt.mem false src (pullEnd req src byteLen) 0
      (reqPullAscii convert pkt req src byteLen flags) := by
  have hlimit := srcLen_eq hfits hsize hsrc hbyteLen
  have hleft := dataLeft_eq hfits hsize src (by omega)
  have hrange := hfits.range
  set n := pullEnd req src byteLen - src with hn
  have hend : pullEnd req src byteLen = src + n := by
    unfold pullEnd at hn ⊢
    split at hn <;> split <;> omega
  have hsmall : n < 2 ^ 31 := by
    unfold pullEnd at hn
    split at hn <;> omega
  unfold reqPullAscii
  rw [hflags, if_neg Bool.false_ne_true, if_neg (by omega), hend]
  split
  · next hshort =>
    rw [if_pos hshort] at hlimit
    rw [hlimit]
    exact pullTerminated_spec src hsmall
  · next hlong =>
    rw [if_neg hlong] at hlimit
    rw [hlimit]
    exact pullTerminated_spec src hsmall

/-! ### What a pull keeps to -/

theorem respectsLimits_refused (src : Nat) (byteLen : Int) (flags : UInt32) :
    RespectsLimits convert pkt req src byteLen flags (pure ⟨none, 0⟩) :=
  ⟨inside_pure _, fun _ => inside_pure _, fun _ => Nat.zero_le _, .inl ⟨rfl, rfl⟩⟩

/-- So does a pull between the place where the string starts and the place where it has to end. -/
theorem PullsAt.respectsLimits (alignment : Nat) {r : Reading Pulled} (hdata : req.data ≤ src)
    (hstart : pullStart req src flags = src + alignment)
    (hend : pullStart req src flags ≤ pullEnd req src byteLen)
    (h : PullsAt convert pkt.mem (pullsUnicode req flags) (pullStart req src flags) (pullEnd req src byteLen)
      alignment r) : RespectsLimits convert pkt req src byteLen flags r := by
  have hportion : pullEnd req src byteLen ≤ req.data + req.dataSize := by
    unfold pullEnd
    split <;> omega
  have hlimit : byteLen ≠ -1 → pullEnd req src byteLen ≤ src + byteLen.toNat := by
    intro hne
    rw [pullEnd, if_neg hne]
    omega
  refine ⟨h.inside.mono (by omega) hportion, fun hne => h.inside.mono (by omega) (hlimit hne), ?_, ?_⟩
  · intro hne
    have hle := hlimit hne
    rcases h.value with hvalue | ⟨len, out, hextent, hvalue, -⟩
    · rw [hvalue]
      exact Nat.zero_le _
    · have hlen := hextent.le
      rw [hvalue]
      show len + alignment ≤ byteLen.toNat
      omega
  · rcases h.value with hvalue | ⟨len, out, hextent, hvalue, hout⟩
    · exact .inl ⟨congrArg Pulled.dest hvalue, congrArg Pulled.count hvalue⟩
    · refine .inr ⟨len, out, hextent, hend, congrArg Pulled.dest hvalue, ?_, hout⟩
      rw [hvalue, hstart]
      show src + (len + alignment) = src + alignment + len
      omega

/-- A string that has to be aligned, with no byte allowed for it and a byte left in the data portion. -/
def Unlimited (req : SmbsrvRequest) (src : Nat) (byteLen : Int) (flags : UInt32) : Prop :=
  pullsUnicode req flags = true ∧ flagSet flags strNoalign = false ∧ src % 2 = 1 ∧ byteLen = 0 ∧
    src < req.data + req.dataSize

theorem le_pullEnd (hsrc : src ≤ req.data + req.dataSize) (byteLen : Int) : src ≤ pullEnd req src byteLen := by
  unfold pullEnd
  split <;> omega

theorem flagSet_or (flags a b : UInt32) : flagSet flags (a ||| b) = (flagSet flags a || flagSet flags b) := by
  have hdistrib : flags &&& (a ||| b) = flags &&& a ||| flags &&& b := by
    apply UInt32.toBitVec_inj.mp
    ext i
    simp [Bool.and_or_distrib_left]
  rw [Bool.eq_iff_iff]
  simp only [flagSet, hdistrib, bne_iff_ne, ne_eq, UInt32.or_eq_zero_iff, Bool.or_eq_true]
  tauto

theorem ucs2Align_iff (hunicode : pullsUnicode req flags = true) (src : Nat) :
    (!flagSet flags strNoalign) = true ∧ ucs2Align src flags ≠ 0 ↔
      flagSet flags strNoalign = false ∧ src % 2 = 1 := by
  have hascii : flagSet flags strAscii = false := by
    unfold pullsUnicode at hunicode
    simp only [Bool.and_eq_true, Bool.not_eq_true'] at hunicode
    exact hunicode.1
  unfold ucs2Align
  rw [flagSet_or, hascii]
  cases flagSet flags strNoalign <;> simp

theorem reqPullString_respects (hfits : req.Fits pkt) (hsize : pkt.size < 2 ^ 31) {src : Nat}
    (hdata : req.data ≤ src) (hsrc : src ≤ req.data + req.dataSize + 1) {byteLen : Int}
    (hbyteLen : -1 ≤ byteLen) {flags : UInt32} (hflags : flagSet flags strNoRangeCheck = false)
    (hok : ¬Unlimited req src byteLen flags) :
    RespectsLimits convert pkt req src byteLen flags (reqPullString convert pkt req src byteLen flags) := by
  unfold reqPullString
  cases hunicode : pullsUnicode req flags with
  | false =>
    have hstart : pullStart req src flags = src := by simp [pullStart, hunicode]
    rw [if_neg Bool.false_ne_true]
    by_cases hin : src ≤ req.data + req.dataSize
    · refine PullsAt.respectsLimits 0 hdata hstart
        (by rw [hstart]; exact le_pullEnd hin byteLen) ?_
      rw [hunicode, hstart]
      exact reqPullAscii_spec hfits hsize hin hbyteLen hflags
    · have hleft := dataLeft_eq hfits hsize src (by omega)
      unfold reqPullAscii
      rw [hflags, if_neg Bool.false_ne_true, if_pos (by omega)]
      exact respectsLimits_refused src byteLen flags
  | true =>
    rw [if_pos rfl]
    unfold reqPullUcs2
    by_cases halign : flagSet flags strNoalign = false ∧ src % 2 = 1
    · rw [if_pos ((ucs2Align_iff hunicode src).mpr halign)]
      obtain ⟨hnoalign, hodd⟩ := halign
      have hstart : pullStart req src flags = src + 1 := by
        simp [pullStart, hunicode, hnoalign, hodd]
      by_cases hin : src + 1 ≤ req.data + req.dataSize
      · -- with a byte left in the portion the limit is not zero, and taking one off leaves it a limit
        have hne : byteLen ≠ 0 := fun h0 => hok ⟨hunicode, hnoalign, hodd, h0, by omega⟩
        have hend : pullEnd req (src + 1) (if byteLen ≠ -1 then byteLen - 1 else byteLen) =
            pullEnd req src byteLen := by
          unfold pullEnd
          split_ifs <;> omega
        have hspec := @pullAligned_spec pkt req convert hfits hsize _ hin
          (if byteLen ≠ -1 then byteLen - 1 else byteLen) (by split <;> omega) _ hflags 1
        rw [hend] at hspec
        have hle := le_pullEnd hin (if byteLen ≠ -1 then byteLen - 1 else byteLen)
        rw [hend] at hle
        refine PullsAt.respectsLimits 1 hdata hstart (by rw [hstart]; exact hle) ?_
        rw [hunicode, hstart]
        exact hspec
      · rw [pullAligned_behind hfits hsize (by omega) (by omega) _ hflags]
        exact respectsLimits_refused src byteLen flags
    · rw [if_neg (mt (ucs2Align_iff hunicode src).mp halign)]
      have hstart : pullStart req src flags = src := by
        unfold pullStart
        split
        · next hmay =>
          have heven : ¬src % 2 = 1 := fun hodd => halign ⟨by simpa using hmay.2, hodd⟩
          omega
        · rfl
      by_cases hin : src ≤ req.data + req.dataSize
      · refine PullsAt.respectsLimits 0 hdata hstart
          (by rw [hstart]; exact le_pullEnd hin byteLen) ?_
        rw [hunicode, hstart]
        exact pullAligned_spec hfits hsize hin hbyteLen hflags 0
      · rw [pullAligned_behind hfits hsize (by omega) (by omega) _ hflags]
        exact respectsLimits_refused src byteLen flags

/-- With no byte allowed, taking one off for the alignment leaves no limit: something is read or
consumed. -/
theorem reqPullString_unlimited (hfits : req.Fits pkt) (hsize : pkt.size < 2 ^ 31) (hflags : flagSet flags strNoRangeCheck = false) (h : Unlimited req src byteLen flags) :
    ¬RespectsLimits convert pkt req src byteLen flags (reqPullString convert pkt req src byteLen flags) := by
  obtain ⟨hunicode, hnoalign, hodd, rfl, hin⟩ := h
  intro hrespects
  have hread := hrespects.read (by decide)
  have hconsumed := hrespects.consumed (by decide)
  have hpull : reqPullString convert pkt req src 0 flags = pullAligned convert pkt req (src + 1) (-1) flags 1 := by
    unfold reqPullString reqPullUcs2
    rw [if_pos hunicode, if_pos ((ucs2Align_iff hunicode src).mpr ⟨hnoalign, hodd⟩)]
    rfl
  have hleft := dataLeft_eq hfits hsize (src + 1) (by omega)
  rw [hpull] at hread hconsumed
  unfold pullAligned at hread hconsumed
  simp only [hflags, Bool.false_eq_true, if_false] at hread hconsumed
  have hlimit : (if (-1 : Int) ≠ -1 ∧ dataLeft req (src + 1) > -1 then -1 else dataLeft req (src + 1)) =
      dataLeft req (src + 1) := if_neg fun hne => hne.1 rfl
  rw [hlimit, if_neg (by omega)] at hread hconsumed
  simp only [inside_bind, value_bind] at hread hconsumed
  split at hconsumed
  · simp at hconsumed
  next hlen =>
  rw [if_neg hlen] at hread
  -- the conversion is given at least the byte behind the alignment
  have hbytes : (sourceBytes pkt.mem (src + 1)
      (utf16LenN pkt.mem (src + 1) (dataLeft req (src + 1)).toNat).value).Inside src src := by
    have hconvert := hread.2
    unfold pullConvert at hconvert
    simp only [inside_bind] at hconvert
    exact hconvert.1
  have hmem := hbytes (src + 1) (by
    rw [sourceBytes, List.mem_range'_1]
    omega)
  omega

/-! ### Strings behind a 0x4 -/

/-- What `req_pull_ascii4` keeps to: it reads in the data portion, and counts the byte it consumes
and the string behind it, or nothing where there is no such byte. -/
structure RespectsLimits4 (convert : CharsetT → CharsetT → List UInt8 → Option (List UInt8)) (pkt : RecvPacket)
    (req : SmbsrvRequest) (src : Nat) (flags : UInt32) (r : Reading Pulled) : Prop where
  portion : r.Inside req.data (req.data + req.dataSize)
  counts : (req.data + req.dataSize ≤ src ∧ r.value = ⟨some [], 0⟩) ∨
    ∃ string, CountsString convert pkt req (src + 1) (-1) flags string ∧
      r.value = ⟨string.dest, 1 + string.count⟩

theorem reqPullAscii4_respects (hfits : req.Fits pkt) (hsize : pkt.size < 2 ^ 31)
    (hdata : req.data ≤ src) (hsrc : src ≤ req.data + req.dataSize + 1)
    (hflags : flagSet flags strNoRangeCheck = false) :
    RespectsLimits4 convert pkt req src flags (reqPullAscii4 convert pkt req src flags) := by
  have hrange := hfits.range
  unfold reqPullAscii4
  split
  · exact ⟨inside_pure _, .inl ⟨by omega, rfl⟩⟩
  next hin =>
  have hinner := @reqPullString_respects pkt req convert hfits hsize (src + 1) (by omega) (by omega)
    (-1) le_rfl _ hflags (fun hu => by have := hu.2.2.2.1; omega)
  set string := (reqPullString convert pkt req (src + 1) (-1) flags).value with hstring
  have hcount : string.count ≠ 2 ^ 64 - 1 := by
    rw [hstring]
    rcases hinner.counts with ⟨-, hzero⟩ | ⟨len, out, hextent, hend, -, hsum, -⟩
    · rw [hzero]
      decide
    · have hle := hextent.le
      have hstop : pullEnd req (src + 1) (-1) = req.data + req.dataSize := by
        rw [pullEnd, if_pos rfl]
      omega
  constructor
  · simp only [inside_bind]
    refine ⟨hinner.portion, ?_⟩
    split <;> exact inside_pure _
  · simp only [value_bind, ← hstring, if_neg hcount]
    exact .inr ⟨string, hinner.counts, by rw [value_pure, Nat.add_comm]⟩

/-- The packets of the SMB server are small enough for an `int`: the NBT header has a length of 24 bits. -/
theorem nbt_size_lt {blob : Samba.Stream.DataBlob} {size : Nat}
    (h : Samba.Stream.packetFullRequestNbt blob = (.ok, some size)) : size < 2 ^ 31 := by
  have hbyte : ∀ pos, Samba.Stream.cval blob pos < 2 ^ 8 := fun pos => (blob.getD pos 0).toNat_lt
  have hlen : Samba.Stream.smbLen blob < 2 ^ 24 := by
    unfold Samba.Stream.smbLen
    refine Nat.or_lt_two_pow (Nat.or_lt_two_pow ?_ ?_) ?_
    · exact (hbyte 3).trans (by decide)
    · have h₂ := hbyte 2
      rw [Nat.shiftLeft_eq]
      omega
    · have h₁ := hbyte 1
      rw [Nat.shiftLeft_eq]
      omega
  unfold Samba.Stream.packetFullRequestNbt Samba.Stream.packetFullRequest at h
  split at h
  · cases h
  split at h
  · cases h
  simp only [Prod.mk.injEq, Option.some.injEq, true_and] at h
  omega

/-- Strings pulled from a request keep to all their limits exactly when none of them has to be aligned
in front of a byte of the data portion and is allowed no byte at all. -/
theorem reqPull_respects_iff (convert : CharsetT → CharsetT → List UInt8 → Option (List UInt8))
    (hfits : req.Fits pkt) (hsize : pkt.size < 2 ^ 31) {src : Nat} (hdata : req.data ≤ src)
    (hsrc : src ≤ req.data + req.dataSize + 1) {byteLen : Int} (hbyteLen : -1 ≤ byteLen) {flags : UInt32}
    (hflags : flagSet flags strNoRangeCheck = false) :
    RespectsLimits convert pkt req src byteLen flags (reqPullString convert pkt req src byteLen flags) ∧
        RespectsLimits4 convert pkt req src flags (reqPullAscii4 convert pkt req src flags) ↔
      ¬Unlimited req src byteLen flags := by
  constructor
  · rintro ⟨hstring, -⟩ hu
    exact reqPullString_unlimited hfits hsize hflags hu hstring
  · intro hok
    exact ⟨reqPullString_respects hfits hsize hdata hsrc hbyteLen hflags hok,
      reqPullAscii4_respects hfits hsize hdata hsrc hflags⟩

/-- A packet without words and with the five bytes of data `x A \0 \0 \0`. -/
def stringPacket : RecvPacket := packetOf (headerBytes 40 0 ++ [5, 0, 0x78, 0x41, 0, 0, 0]) (by decide)

/-- Its request, with the data at an odd place. -/
def stringRequest : SmbsrvRequest := ⟨0, 37, 0, 39, 5⟩

theorem stringRequest_fits : stringRequest.Fits stringPacket := by
  have hrecv : (smbsrvRecvSmbRequest stringPacket true).value = .switchMessage 0 stringRequest := by decide
  exact (smbsrvRecvSmbRequest_fits hrecv).1

theorem reqPull_respects_three :
    RespectsLimits convertStringTalloc stringPacket stringRequest 39 3 strUnicode
        (reqPullString convertStringTalloc stringPacket stringRequest 39 3 strUnicode) ∧
      RespectsLimits4 convertStringTalloc stringPacket stringRequest 39 strUnicode
        (reqPullAscii4 convertStringTalloc stringPacket stringRequest 39 strUnicode) := by
  refine (reqPull_respects_iff convertStringTalloc stringRequest_fits (by decide) (by decide) (by decide)
    (by decide) (by decide)).mpr ?_
  rintro ⟨-, -, -, hzero, -⟩
  cases hzero

/-- With no byte allowed, all five are consumed. -/
theorem reqPull_not_respects :
    (reqPullString convertStringTalloc stringPacket stringRequest 39 0 strUnicode).value = ⟨some [0x41, 0], 5⟩ ∧
      ¬RespectsLimits convertStringTalloc stringPacket stringRequest 39 0 strUnicode
        (reqPullString convertStringTalloc stringPacket stringRequest 39 0 strUnicode) := by
  have hvalue : (reqPullString convertStringTalloc stringPacket stringRequest 39 0 strUnicode).value =
      ⟨some [0x41, 0], 5⟩ := by decide +kernel
  refine ⟨hvalue, fun h => ?_⟩
  have hconsumed := h.consumed (by decide)
  rw [hvalue] at hconsumed
  revert hconsumed
  decide

end Samba.SmbServer
