/-
The contexts into which NDR data is written and from which it is read (librpc/ndr/libndr.h, ndr.c, ndr_basic.c): buffers
that grow, alignment, and words in either byte order. Offsets are below `2^32`; of memory allocation the limit that talloc
has for one block is kept.
-/
import Mathlib.Data.BitVec
import Samba.Lib.Bytes
import Samba.Lib.CString

namespace Samba.Ndr

open Bytes CString List

/-! ## Flags -/

def libndrFlagBigendian : BitVec 32 := 1 <<< 0
def libndrFlagNoalign : BitVec 32 := 1 <<< 1
def libndrFlagStrAscii : BitVec 32 := 1 <<< 2
def libndrFlagStrLen4 : BitVec 32 := 1 <<< 3
def libndrFlagStrSize4 : BitVec 32 := 1 <<< 4
def libndrFlagStrNoterm : BitVec 32 := 1 <<< 5
def libndrFlagStrNullterm : BitVec 32 := 1 <<< 6
def libndrFlagStrSize2 : BitVec 32 := 1 <<< 7
def libndrFlagStrBytesize : BitVec 32 := 1 <<< 8
def libndrFlagStrFixlen32 : BitVec 32 := 1 <<< 9
def libndrFlagStrConformant : BitVec 32 := 1 <<< 10
def libndrFlagStrCharlen : BitVec 32 := 1 <<< 11
def libndrFlagStrUtf8 : BitVec 32 := 1 <<< 12
def libndrFlagStrFixlen15 : BitVec 32 := 1 <<< 13
def libndrStringFlags : BitVec 32 := 0x7FFC
def libndrFlagRemaining : BitVec 32 := 1 <<< 21
def libndrFlagLittleEndian : BitVec 32 := 1 <<< 27

/-- `NDR_BE`. -/
def ndrBe (flags : BitVec 32) : Bool :=
  flags &&& (libndrFlagBigendian ||| libndrFlagLittleEndian) = libndrFlagBigendian

inductive NdrError
  | bufsize | alloc | string | charcnv | badNetworkName | invalidParameterMix
  deriving DecidableEq, Repr

/-- The byte order of a word. -/
def ordered (flags : BitVec 32) (bs : List UInt8) : List UInt8 := if ndrBe flags then bs.reverse else bs

/-- The bytes from the offset up to a multiple of `n`. -/
def padding (flags : BitVec 32) (offset n : Nat) : Nat :=
  if flags &&& libndrFlagNoalign = 0 then (offset + (n - 1)) / n * n - offset else 0

/-! ## Writing -/

/-- `MAX_TALLOC_SIZE`: no block has this size. -/
def maxTallocSize : Nat := 0x10000000

/-- `NDR_BASE_MARSHALL_SIZE`. -/
def ndrBaseMarshallSize : Nat := 1024

/-- `struct ndr_push`, with what has been written. The list of NetBIOS strings has the last one first. -/
structure NdrPush where
  flags : BitVec 32
  data : List UInt8
  allocSize : Nat
  nbtStringList : List (Text × Nat)
  deriving DecidableEq, Repr

/-- `ndr_push_init_ctx`, with flags. -/
def ndrPushInitCtx (flags : BitVec 32) : NdrPush := ⟨flags, [], ndrBaseMarshallSize, []⟩

/-- `ndr_push_expand`. -/
def ndrPushExpand (ndr : NdrPush) (extraSize : Nat) : Except NdrError NdrPush :=
  let size := extraSize + ndr.data.length
  if 2 ^ 32 ≤ size then .error .bufsize
  else if ndr.allocSize > size then .ok ndr
  else
    let allocSize := max (ndr.allocSize + ndrBaseMarshallSize) (size + 1)
    if maxTallocSize ≤ allocSize then .error .alloc else .ok { ndr with allocSize }

/-- `ndr_push_bytes`, of fewer than `2^32` bytes. -/
def ndrPushBytes (ndr : NdrPush) (bs : List UInt8) : Except NdrError NdrPush := do
  let ndr ← ndrPushExpand ndr bs.length
  return { ndr with data := ndr.data ++ bs }

/-- `ndr_push_zero`. -/
def ndrPushZero (ndr : NdrPush) (n : Nat) : Except NdrError NdrPush := ndrPushBytes ndr (List.replicate n 0)

/-- `ndr_push_align`: zeros, one by one. -/
def ndrPushAlign (ndr : NdrPush) (n : Nat) : Except NdrError NdrPush :=
  (List.replicate (padding ndr.flags ndr.data.length n) (0 : UInt8)).foldlM (fun ndr b => ndrPushBytes ndr [b]) ndr

/-- `ndr_push_uint16`. -/
def ndrPushUint16 (ndr : NdrPush) (v : Nat) : Except NdrError NdrPush := do
  let ndr ← ndrPushAlign ndr 2
  ndrPushBytes ndr (ordered ndr.flags ((le32 v).take 2))

/-- `ndr_push_uint32`. -/
def ndrPushUint32 (ndr : NdrPush) (v : Nat) : Except NdrError NdrPush := do
  let ndr ← ndrPushAlign ndr 4
  ndrPushBytes ndr (ordered ndr.flags (le32 v))

/-! ## Reading -/

/-- `struct ndr_pull`. -/
structure NdrPull where
  flags : BitVec 32
  data : List UInt8
  offset : Nat
  deriving DecidableEq, Repr

/-- `ndr_pull_bytes`. -/
def ndrPullBytes (ndr : NdrPull) (n : Nat) : Except NdrError (List UInt8 × NdrPull) :=
  if n > ndr.data.length ∨ ndr.offset + n > ndr.data.length then .error .bufsize
  else .ok ((ndr.data.drop ndr.offset).take n, { ndr with offset := ndr.offset + n })

/-- `ndr_pull_align`. -/
def ndrPullAlign (ndr : NdrPull) (n : Nat) : Except NdrError NdrPull :=
  let ndr := { ndr with offset := ndr.offset + padding ndr.flags ndr.offset n }
  if ndr.offset > ndr.data.length then .error .bufsize else .ok ndr

/-- `ndr_pull_uint16`. -/
def ndrPullUint16 (ndr : NdrPull) : Except NdrError (Nat × NdrPull) := do
  let ndr ← ndrPullAlign ndr 2
  let (bs, ndr) ← ndrPullBytes ndr 2
  return (leNat (ordered ndr.flags bs), ndr)

/-- `ndr_pull_uint32`. -/
def ndrPullUint32 (ndr : NdrPull) : Except NdrError (Nat × NdrPull) := do
  let ndr ← ndrPullAlign ndr 4
  let (bs, ndr) ← ndrPullBytes ndr 4
  return (leNat (ordered ndr.flags bs), ndr)

/-! ## What is written is read -/

@[simp] theorem length_ordered (flags : BitVec 32) (bs : List UInt8) : (ordered flags bs).length = bs.length := by
  unfold ordered
  split <;> simp

@[simp] theorem ordered_ordered (flags : BitVec 32) (bs : List UInt8) : ordered flags (ordered flags bs) = bs := by
  unfold ordered
  split <;> simp

/-- Bytes have been written behind what was there. -/
structure Writes (ndr ndr' : NdrPush) (bs : List UInt8) : Prop where
  data : ndr'.data = ndr.data ++ bs
  flags : ndr'.flags = ndr.flags
  nbtStringList : ndr'.nbtStringList = ndr.nbtStringList

theorem Writes.trans {a b c : NdrPush} {bs cs : List UInt8} (hab : Writes a b bs) (hbc : Writes b c cs) :
    Writes a c (bs ++ cs) :=
  ⟨by rw [hbc.data, hab.data, append_assoc], hbc.flags.trans hab.flags, hbc.nbtStringList.trans hab.nbtStringList⟩

variable {ndr : NdrPush} {n : Nat} {flags : BitVec 32}

theorem writes_of_bytes {ndr' : NdrPush} {bs : List UInt8} (h : ndrPushBytes ndr bs = .ok ndr') : Writes ndr ndr' bs := by
  unfold ndrPushBytes ndrPushExpand at h
  dsimp only [bind, Except.bind, pure, Except.pure] at h
  split at h
  · cases h
  · rename_i ndr₁ hexp
    obtain rfl := Except.ok.inj h
    split at hexp
    · cases hexp
    · split at hexp
      · obtain rfl := Except.ok.inj hexp
        exact ⟨rfl, rfl, rfl⟩
      · split at hexp
        · cases hexp
        · obtain rfl := Except.ok.inj hexp
          exact ⟨rfl, rfl, rfl⟩

/-- Memory is there as long as the buffer stays well below the limit. -/
theorem ndrPushBytes_ok {ndr : NdrPush} {bs : List UInt8}
    (hsize : ndr.data.length + bs.length + ndrBaseMarshallSize < maxTallocSize) : ∃ ndr', ndrPushBytes ndr bs = .ok ndr' := by
  obtain ⟨ndr', hndr⟩ : ∃ ndr', ndrPushExpand ndr bs.length = .ok ndr' := by
    unfold ndrPushExpand
    dsimp only
    unfold ndrBaseMarshallSize maxTallocSize at *
    rw [if_neg (by omega)]
    split
    · exact ⟨_, rfl⟩
    · rw [if_neg (by omega)]
      exact ⟨_, rfl⟩
  exact ⟨_, by rw [ndrPushBytes, hndr]; rfl⟩

/-- At the start of a buffer there is nothing to pad. -/
@[simp] theorem padding_zero (flags : BitVec 32) (hn : 0 < n) : padding flags 0 n = 0 := by
  unfold padding
  split
  · rw [Nat.zero_add, Nat.div_eq_of_lt (by omega)]
    omega
  · rfl

theorem ndrPushAlign_zero (h : ndr.data = []) (hn : 0 < n) : ndrPushAlign ndr n = .ok ndr := by
  rw [ndrPushAlign, h, length_nil, padding_zero _ hn]
  rfl

theorem ndrPushUint32_zero {ndr : NdrPush} (h : ndr.data = []) (v : Nat) :
    ∃ ndr', ndrPushUint32 ndr v = .ok ndr' ∧ Writes ndr ndr' (ordered ndr.flags (le32 v)) := by
  obtain ⟨ndr', hndr⟩ := @ndrPushBytes_ok ndr (ordered ndr.flags (le32 v)) (by
    rw [h, length_ordered, length_le32]
    decide)
  refine ⟨ndr', ?_, writes_of_bytes hndr⟩
  rw [ndrPushUint32, ndrPushAlign_zero h (by decide)]
  exact hndr

theorem ndrPullBytes_eq {flags : BitVec 32} {pre bs rest : List UInt8} {offset n : Nat} (hoff : offset = pre.length)
    (hn : n = bs.length) :
    ndrPullBytes ⟨flags, pre ++ (bs ++ rest), offset⟩ n = .ok (bs, ⟨flags, pre ++ (bs ++ rest), offset + n⟩) := by
  subst hoff hn
  rw [ndrPullBytes, if_neg (by simp; omega), drop_left' rfl, take_left' rfl]

theorem ndrPullAlign_eq {pre rest : List UInt8} :
    ndrPullAlign ⟨flags, pre ++ (List.replicate (padding flags pre.length n) 0 ++ rest), pre.length⟩ n =
      .ok ⟨flags, pre ++ (List.replicate (padding flags pre.length n) 0 ++ rest), pre.length + padding flags pre.length n⟩ := by
  rw [ndrPullAlign]
  exact if_neg (by simp)

theorem ndrPullUint32_eq {flags : BitVec 32} {pre rest : List UInt8} {v : Nat} (hv : v < 2 ^ 32) :
    ndrPullUint32 ⟨flags, pre ++ (List.replicate (padding flags pre.length 4) 0 ++ (ordered flags (le32 v) ++ rest)), pre.length⟩ =
      .ok (v, ⟨flags, pre ++ (List.replicate (padding flags pre.length 4) 0 ++ (ordered flags (le32 v) ++ rest)),
        pre.length + padding flags pre.length 4 + 4⟩) := by
  rw [ndrPullUint32, ndrPullAlign_eq]
  dsimp only [bind, Except.bind]
  rw [← append_assoc, ndrPullBytes_eq (by simp) (by simp)]
  dsimp only [pure, Except.pure]
  rw [ordered_ordered, leNat_le32_of_lt hv]

theorem ndrPullUint16_eq {flags : BitVec 32} {pre rest : List UInt8} {v : Nat} (hv : v < 2 ^ 16) :
    ndrPullUint16 ⟨flags, pre ++ (List.replicate (padding flags pre.length 2) 0 ++ (ordered flags ((le32 v).take 2) ++ rest)),
        pre.length⟩ =
      .ok (v, ⟨flags, pre ++ (List.replicate (padding flags pre.length 2) 0 ++ (ordered flags ((le32 v).take 2) ++ rest)),
        pre.length + padding flags pre.length 2 + 2⟩) := by
  have hval : leNat ((le32 v).take 2) = v := by
    simp only [le32, take_succ_cons, take_zero, leNat, UInt8.toNat_ofNat']
    omega
  rw [ndrPullUint16, ndrPullAlign_eq]
  dsimp only [bind, Except.bind]
  rw [← append_assoc, ndrPullBytes_eq (by simp) (by simp)]
  dsimp only [pure, Except.pure]
  rw [ordered_ordered, hval]

theorem ndrPullAlign_zero {data : List UInt8} (hn : 0 < n) :
    ndrPullAlign ⟨flags, data, 0⟩ n = .ok ⟨flags, data, 0⟩ := by
  rw [ndrPullAlign]
  dsimp only
  rw [padding_zero _ hn]
  exact if_neg (by simp)

theorem ndrPullUint32_zero {rest : List UInt8} {v : Nat} (hv : v < 2 ^ 32) :
    ndrPullUint32 ⟨flags, ordered flags (le32 v) ++ rest, 0⟩ = .ok (v, ⟨flags, ordered flags (le32 v) ++ rest, 4⟩) := by
  have h := @ndrPullUint32_eq flags [] rest v hv
  rwa [length_nil, padding_zero _ (by decide), replicate_zero, nil_append, nil_append] at h

/-! ## Words where nothing is to be padded -/

theorem padding_of_dvd {offset : Nat} (h : n ∣ offset) : padding flags offset n = 0 := by
  unfold padding
  split
  · obtain ⟨k, rfl⟩ := h
    rcases Nat.eq_zero_or_pos n with rfl | hn
    · simp
    · rw [Nat.mul_add_div hn, Nat.div_eq_of_lt (by omega), Nat.add_zero, Nat.mul_comm, Nat.sub_self]
  · rfl

theorem ndrPushAlign_of_dvd (h : n ∣ ndr.data.length) : ndrPushAlign ndr n = .ok ndr := by
  rw [ndrPushAlign, padding_of_dvd h]
  rfl

theorem ndrPushUint32_ok {ndr : NdrPush} (h : 4 ∣ ndr.data.length)
    (hsize : ndr.data.length + 4 + ndrBaseMarshallSize < maxTallocSize) (v : Nat) :
    ∃ ndr', ndrPushUint32 ndr v = .ok ndr' ∧ Writes ndr ndr' (ordered ndr.flags (le32 v)) := by
  obtain ⟨ndr', hndr⟩ := @ndrPushBytes_ok ndr (ordered ndr.flags (le32 v)) (by rwa [length_ordered, length_le32])
  refine ⟨ndr', ?_, writes_of_bytes hndr⟩
  rw [ndrPushUint32, ndrPushAlign_of_dvd h]
  exact hndr

theorem ndrPushUint16_ok {ndr : NdrPush} (h : 2 ∣ ndr.data.length)
    (hsize : ndr.data.length + 2 + ndrBaseMarshallSize < maxTallocSize) (v : Nat) :
    ∃ ndr', ndrPushUint16 ndr v = .ok ndr' ∧ Writes ndr ndr' (ordered ndr.flags ((le32 v).take 2)) := by
  obtain ⟨ndr', hndr⟩ := @ndrPushBytes_ok ndr (ordered ndr.flags ((le32 v).take 2)) (by
    rw [length_ordered, length_take, length_le32]
    exact hsize)
  refine ⟨ndr', ?_, writes_of_bytes hndr⟩
  rw [ndrPushUint16, ndrPushAlign_of_dvd h]
  exact hndr

theorem ndrPullUint32_of_dvd {flags : BitVec 32} {pre rest : List UInt8} {v : Nat} (h : 4 ∣ pre.length) (hv : v < 2 ^ 32) :
    ndrPullUint32 ⟨flags, pre ++ (ordered flags (le32 v) ++ rest), pre.length⟩ =
      .ok (v, ⟨flags, pre ++ (ordered flags (le32 v) ++ rest), pre.length + 4⟩) := by
  have hpull := @ndrPullUint32_eq flags pre rest v hv
  rwa [padding_of_dvd h, replicate_zero, nil_append] at hpull

theorem ndrPullUint16_of_dvd {flags : BitVec 32} {pre rest : List UInt8} {v : Nat} (h : 2 ∣ pre.length) (hv : v < 2 ^ 16) :
    ndrPullUint16 ⟨flags, pre ++ (ordered flags ((le32 v).take 2) ++ rest), pre.length⟩ =
      .ok (v, ⟨flags, pre ++ (ordered flags ((le32 v).take 2) ++ rest), pre.length + 2⟩) := by
  have hpull := @ndrPullUint16_eq flags pre rest v hv
  rwa [padding_of_dvd h, replicate_zero, nil_append] at hpull

end Samba.Ndr
