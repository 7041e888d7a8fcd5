/-
Receiving SMB requests (smb_server/smb/receive.c): the checks on a packet and on the further parts of
an AndX chain, with every byte they read. Addresses count from the start of the packet's buffer. What
the signing check says is an argument, and what a command handler does is left open: it answers, or
asks for the next part.
-/
import Samba.Lib.Reads
import Samba.Smb.Signing
import Mathlib.Tactic

namespace Samba.SmbServer

open Reading Samba.Smb

def hdrCom : Nat := 4
def hdrWct : Nat := 32
def hdrVwv : Nat := 33
def smbMagic : Nat := 0x424D53FF
def smbChainNone : Nat := 0xFF

/-- `VWV`. -/
def vwvOffset (vwv : Nat) : Nat := vwv * 2

/-- The blob of a packet, and the memory around it. No object in memory has 2^63 bytes. -/
structure RecvPacket where
  mem : Memory
  size : Nat
  size_lt : size < 2 ^ 63

/-- `struct smbsrv_request`: its `flags2` and where the parts of its `in` buffer are. `hdr` is always
`NBT_HDR_SIZE` bytes into the buffer, and `ptr` is set to `data`. -/
structure SmbsrvRequest where
  flags2 : Nat
  vwv : Nat
  wct : Nat
  data : Nat
  dataSize : Nat
  deriving DecidableEq, Repr

/-! ## The first part -/

/-- What becomes of a packet. -/
inductive Received
  /-- `smbsrv_reply_special`. -/
  | special
  /-- `smbsrv_terminate_connection`. -/
  | terminated (reason : String)
  /-- `smbsrv_send_error` with `NT_STATUS_ACCESS_DENIED`. -/
  | accessDenied
  | switchMessage (command : Nat) (req : SmbsrvRequest)
  deriving DecidableEq, Repr

/-- `req->in.data_size`: the byte count, or all that is left of an oversized packet. The difference is
a `size_t`. -/
def recvDataSize (pkt : RecvPacket) (vwv wct data : Nat) : Reading Nat := do
  let bcc ← word pkt.mem (vwv + vwvOffset wct)
  let rest := (pkt.size + 2 ^ 64 - data) % 2 ^ 64
  if bcc + 0x10000 ≤ rest then
    if wct < 1 then return rest
    else
      let andx ← word pkt.mem (vwv + vwvOffset 0)
      return if andx = smbChainNone then rest else bcc
  else return bcc

/-- `req->in.data` and `req->in.data_size`, zero as allocated if the words do not fit. -/
def recvData (pkt : RecvPacket) (vwv wct : Nat) : Reading (Nat × Nat) := do
  if vwv + vwvOffset wct ≤ pkt.size then
    let data := vwv + vwvOffset wct + 2
    let dataSize ← recvDataSize pkt vwv wct data
    return (data, dataSize)
  else return (0, 0)

/-- The end of `smbsrv_recv_smb_request`, with a request whose ranges passed the checks. -/
def recvChecked (pkt : RecvPacket) (signed : Bool) (vwv wct data dataSize : Nat) : Reading Received := do
  let flags2 ← word pkt.mem (nbtHdrSize + hdrFlg2)
  if !signed then return .accessDenied
  else
    let command ← byte pkt.mem (nbtHdrSize + hdrCom)
    return .switchMessage command ⟨flags2, vwv, wct, data, dataSize⟩

/-- The part of `smbsrv_recv_smb_request` behind the test of the magic number. -/
def recvSmb (pkt : RecvPacket) (signed : Bool) : Reading Received := do
  let vwv := nbtHdrSize + hdrVwv
  let wct ← byte pkt.mem (nbtHdrSize + hdrWct)
  let (data, dataSize) ← recvData pkt vwv wct
  if nbtHdrSize + minSmbSize + 2 * wct > pkt.size then return .terminated "Invalid SMB packet"
  else if (nbtHdrSize + minSmbSize + 2 * wct + dataSize) % 2 ^ 64 > pkt.size then
    return .terminated "Invalid SMB packet"
  else recvChecked pkt signed vwv wct data dataSize

/-- `smbsrv_recv_smb_request`. `signed` is what `smbsrv_signing_check_incoming` returns. -/
def smbsrvRecvSmbRequest (pkt : RecvPacket) (signed : Bool) : Reading Received := do
  let first ← byte pkt.mem 0
  if first ≠ 0 then return .special
  else if nbtHdrSize + minSmbSize > pkt.size then return .terminated "Invalid SMB packet"
  else
    let magic ← dword pkt.mem nbtHdrSize
    if magic ≠ smbMagic then return .terminated "Non-SMB packet"
    else recvSmb pkt signed

/-! ## The further parts -/

/-- What becomes of a request at the end of a part. The words are those set in the reply, `VWV(0)` and
`VWV(1)`. -/
inductive Chained
  | sendError (words : Option (Nat × Nat))
  | sendReply (words : Nat × Nat)
  | switchMessage (command : Nat) (req : SmbsrvRequest) (words : Nat × Nat)
  deriving DecidableEq, Repr

/-- The reading of the next part, at `hdr + chain_offset`. -/
def chainPart (pkt : RecvPacket) (req : SmbsrvRequest) (outSize chainCmd chainOffset : Nat) :
    Reading Chained := do
  let wct ← byte pkt.mem (nbtHdrSize + chainOffset)
  let vwv := nbtHdrSize + chainOffset + 1
  if vwv + vwvOffset wct + 2 > pkt.size then return .sendError (some (smbChainNone, 0))
  else
    let dataSize ← word pkt.mem (vwv + vwvOffset wct)
    let data := vwv + vwvOffset wct + 2
    if data + dataSize > pkt.size then return .sendError (some (smbChainNone, 0))
    else
      return .switchMessage chainCmd
        { req with vwv := vwv, wct := wct, data := data, dataSize := dataSize }
        (chainCmd, (outSize - nbtHdrSize) % 2 ^ 16)

/-- `smbsrv_chain_reply`, for a reply of `outWct` words and `outSize` bytes. -/
def smbsrvChainReply (pkt : RecvPacket) (req : SmbsrvRequest) (outWct outSize : Nat) : Reading Chained := do
  if req.wct < 2 ∨ outWct < 2 then return .sendError none
  else
    let chainCmd ← byte pkt.mem (req.vwv + vwvOffset 0)
    let chainOffset ← word pkt.mem (req.vwv + vwvOffset 1)
    if chainCmd = smbChainNone then return .sendReply (smbChainNone, 0)
    else if chainOffset + nbtHdrSize ≥ pkt.size then return .sendError (some (smbChainNone, 0))
    else chainPart pkt req outSize chainCmd chainOffset

/-- The requests and chained parts that are handed to `switch_message` for a packet, one after the
other: the first part, and as many more as the handlers ask for. -/
inductive Dispatched (pkt : RecvPacket) : List SmbsrvRequest → Prop
  | first {signed : Bool} {command : Nat} {req : SmbsrvRequest} :
      (smbsrvRecvSmbRequest pkt signed).value = .switchMessage command req → Dispatched pkt [req]
  | next {parts : List SmbsrvRequest} {req req' : SmbsrvRequest} {outWct outSize command : Nat}
      {words : Nat × Nat} : Dispatched pkt (parts ++ [req]) →
      (smbsrvChainReply pkt req outWct outSize).value = .switchMessage command req' words →
      Dispatched pkt (parts ++ [req] ++ [req'])

/-! ## Inside the packet -/

/-- The parameter words, the byte count behind them and the data behind that lie in the packet. -/
structure SmbsrvRequest.Fits (req : SmbsrvRequest) (pkt : RecvPacket) : Prop where
  words : req.vwv + vwvOffset req.wct + 2 ≤ pkt.size
  data : req.data = req.vwv + vwvOffset req.wct + 2
  range : req.data + req.dataSize ≤ pkt.size

/-- Everything read for a packet, and every range handed over, lies in the packet. -/
structure ParsesInside (pkt : RecvPacket) : Prop where
  recv : ∀ signed, (smbsrvRecvSmbRequest pkt signed).Inside 0 pkt.size
  fits : ∀ parts, Dispatched pkt parts → ∀ req ∈ parts, req.Fits pkt
  chain : ∀ parts, Dispatched pkt parts → ∀ req ∈ parts, ∀ outWct outSize,
    (smbsrvChainReply pkt req outWct outSize).Inside 0 pkt.size

/-- The word count of the first part. -/
def RecvPacket.wct (pkt : RecvPacket) : Nat := (pkt.mem (nbtHdrSize + hdrWct)).toNat

/-- The packet gets as far as its word count. -/
structure RecvPacket.IsSmb (pkt : RecvPacket) : Prop where
  first : pkt.mem 0 = 0
  long : nbtHdrSize + minSmbSize ≤ pkt.size
  magic : (dword pkt.mem nbtHdrSize).value = smbMagic

/-- The packet ends right behind its parameter words, or one byte into the byte count. -/
def RecvPacket.CutInCount (pkt : RecvPacket) : Prop :=
  pkt.IsSmb ∧ nbtHdrSize + hdrVwv + vwvOffset pkt.wct ≤ pkt.size ∧
    pkt.size < nbtHdrSize + hdrVwv + vwvOffset pkt.wct + 2

/-! ### The first part -/

theorem fits_words_iff (pkt : RecvPacket) (wct : Nat) :
    nbtHdrSize + minSmbSize + 2 * wct ≤ pkt.size ↔ nbtHdrSize + hdrVwv + vwvOffset wct + 2 ≤ pkt.size := by
  simp only [nbtHdrSize, minSmbSize, hdrVwv, vwvOffset]
  omega

/-- The data size is read from the byte count and, of an oversized packet with parameter words, from
the first word. -/
theorem recvDataSize_inside (pkt : RecvPacket) (vwv wct data : Nat) :
    (recvDataSize pkt vwv wct data).Inside 0 pkt.size ↔ vwv + vwvOffset wct + 2 ≤ pkt.size := by
  have hfirst : 1 ≤ wct → vwv + vwvOffset 0 + 1 < pkt.size ∨ vwv + vwvOffset wct + 2 > pkt.size := by
    unfold vwvOffset
    omega
  unfold recvDataSize
  simp only [inside_bind, inside_word, Nat.zero_le, true_and]
  constructor
  · rintro ⟨h, -⟩
    omega
  · intro h
    refine ⟨by omega, ?_⟩
    split_ifs with hbig hnone
    · exact inside_pure _
    · simp only [inside_bind, inside_word, inside_pure, Nat.zero_le, true_and, and_true]
      rcases hfirst (by omega) with hf | hf <;> omega
    · exact inside_pure _

variable {pkt : RecvPacket} {command wct : Nat} {req : SmbsrvRequest}

theorem recvData_inside {vwv : Nat} : (recvData pkt vwv wct).Inside 0 pkt.size ↔
      ¬(vwv + vwvOffset wct ≤ pkt.size ∧ pkt.size < vwv + vwvOffset wct + 2) := by
  unfold recvData
  by_cases hwords : vwv + vwvOffset wct ≤ pkt.size
  · simp only [if_pos hwords, inside_bind, recvDataSize_inside, inside_pure, and_true]
    omega
  · simp only [if_neg hwords, inside_pure, true_iff]
    omega

/-- The data of a request starts behind its byte count. -/
theorem recvData_data {pkt : RecvPacket} {vwv wct : Nat} (hwords : vwv + vwvOffset wct ≤ pkt.size) :
    (recvData pkt vwv wct).value.1 = vwv + vwvOffset wct + 2 := by
  unfold recvData
  rw [if_pos hwords]
  rfl

theorem value_bind_pure (m : Reading Nat) (a : Nat) : (m >>= fun n => pure (a, n)).value.2 = m.value := rfl

-- the bounds are variables: compared with a literal, the condition would be evaluated
theorem dataSize_choice {rest limit room : Nat} (m andx : Reading Nat) (h : m.value < limit) :
    (m >>= fun bcc => if bcc + room ≤ rest then
        if wct < 1 then pure rest else andx >>= fun andx => pure (if andx = smbChainNone then rest else bcc)
      else pure bcc : Reading Nat).value < limit ∨
    (m >>= fun bcc => if bcc + room ≤ rest then
        if wct < 1 then pure rest else andx >>= fun andx => pure (if andx = smbChainNone then rest else bcc)
      else pure bcc : Reading Nat).value = rest := by
  rw [value_bind]
  split_ifs
  · exact Or.inr (value_pure _)
  · rw [value_bind, value_pure]
    split_ifs
    · exact Or.inr rfl
    · exact Or.inl h
  · exact Or.inl h

theorem recvDataSize_value (pkt : RecvPacket) (vwv wct data : Nat) :
    (recvDataSize pkt vwv wct data).value < 2 ^ 16 ∨
      (recvDataSize pkt vwv wct data).value = (pkt.size + 2 ^ 64 - data) % 2 ^ 64 :=
  dataSize_choice (word pkt.mem (vwv + vwvOffset wct)) (word pkt.mem (vwv + vwvOffset 0)) (word_lt pkt.mem (vwv + vwvOffset wct))

/-- The data size is a byte count, or at most what is left of the packet. -/
theorem recvData_dataSize {vwv : Nat} (hwords : vwv + vwvOffset wct + 2 ≤ pkt.size) :
    (recvData pkt vwv wct).value.2 < 2 ^ 16 ∨
      vwv + vwvOffset wct + 2 + (recvData pkt vwv wct).value.2 = pkt.size := by
  have hsize := pkt.size_lt
  have hrest : (pkt.size + 2 ^ 64 - (vwv + vwvOffset wct + 2)) % 2 ^ 64 =
      pkt.size - (vwv + vwvOffset wct + 2) := by
    rw [show pkt.size + 2 ^ 64 - (vwv + vwvOffset wct + 2) =
      pkt.size - (vwv + vwvOffset wct + 2) + 2 ^ 64 by omega, Nat.add_mod_right]
    exact Nat.mod_eq_of_lt (by omega)
  have hvalue := recvDataSize_value pkt vwv wct (vwv + vwvOffset wct + 2)
  rw [hrest] at hvalue
  have hdata : recvData pkt vwv wct = recvDataSize pkt vwv wct (vwv + vwvOffset wct + 2) >>= fun dataSize =>
      pure (vwv + vwvOffset wct + 2, dataSize) := if_pos (by omega)
  rw [hdata, value_bind_pure]
  refine hvalue.imp_right fun h => ?_
  rw [h]
  exact Nat.add_sub_cancel' hwords

theorem recvChecked_inside (hlong : nbtHdrSize + minSmbSize ≤ pkt.size) (signed : Bool)
    (vwv wct data dataSize : Nat) : (recvChecked pkt signed vwv wct data dataSize).Inside 0 pkt.size := by
  unfold nbtHdrSize minSmbSize at hlong
  unfold recvChecked
  simp only [inside_bind, inside_word, Nat.zero_le, true_and]
  refine ⟨by simp only [nbtHdrSize, hdrFlg2]; omega, ?_⟩
  split_ifs
  · exact inside_pure _
  · simp only [inside_bind, inside_byte, inside_pure, Nat.zero_le, true_and, and_true]
    simp only [nbtHdrSize, hdrCom]
    omega

theorem recvSmb_inside (hlong : nbtHdrSize + minSmbSize ≤ pkt.size) (signed : Bool) :
    (recvSmb pkt signed).Inside 0 pkt.size ↔
      ¬(nbtHdrSize + hdrVwv + vwvOffset pkt.wct ≤ pkt.size ∧
        pkt.size < nbtHdrSize + hdrVwv + vwvOffset pkt.wct + 2) := by
  have hwct : nbtHdrSize + hdrWct < pkt.size := by
    simp only [nbtHdrSize, hdrWct, minSmbSize] at *
    omega
  unfold recvSmb
  simp only [inside_bind, inside_byte, Nat.zero_le, true_and, recvData_inside, value_byte, hwct]
  constructor
  · rintro ⟨h, -⟩
    exact h
  · intro h
    refine ⟨h, ?_⟩
    split
    · exact inside_pure _
    split
    · exact inside_pure _
    · exact recvChecked_inside hlong signed _ _ _ _

/-- The bytes read for the first part lie in the packet, unless it is cut in its byte count. -/
theorem smbsrvRecvSmbRequest_inside (hsize : nbtHdrSize ≤ pkt.size) (signed : Bool) :
    (smbsrvRecvSmbRequest pkt signed).Inside 0 pkt.size ↔ ¬pkt.CutInCount := by
  have h0 : 0 < pkt.size := by
    unfold nbtHdrSize at hsize
    omega
  unfold smbsrvRecvSmbRequest
  simp only [inside_bind, inside_byte, value_byte, h0, Nat.zero_le, true_and]
  by_cases hfirst : (pkt.mem 0).toNat = 0
  swap
  · rw [if_pos hfirst]
    refine iff_of_true (inside_pure _) fun hc => hfirst ?_
    rw [hc.1.first]
    rfl
  rw [if_neg (not_not.mpr hfirst)]
  by_cases hlong : nbtHdrSize + minSmbSize ≤ pkt.size
  swap
  · rw [if_pos (Nat.lt_of_not_le hlong)]
    exact iff_of_true (inside_pure _) fun hc => hlong hc.1.long
  rw [if_neg (Nat.not_lt.mpr hlong)]
  have hdword : nbtHdrSize + 3 < pkt.size := by
    simp only [nbtHdrSize, minSmbSize] at *
    omega
  simp only [inside_bind, inside_dword, hdword, Nat.zero_le, true_and]
  by_cases hmagic : (dword pkt.mem nbtHdrSize).value = smbMagic
  · rw [if_neg (not_not.mpr hmagic), recvSmb_inside hlong]
    have hsmb : pkt.IsSmb := ⟨UInt8.toNat_inj.mp hfirst, hlong, hmagic⟩
    unfold RecvPacket.CutInCount
    simp only [hsmb, true_and]
  · rw [if_pos hmagic]
    exact iff_of_true (inside_pure _) fun hc => hmagic hc.1.magic

/-- What is handed over of a packet passed the checks. -/
theorem recvSmb_fits {signed : Bool} (h : (recvSmb pkt signed).value = .switchMessage command req) :
    req.Fits pkt ∧ req.vwv = nbtHdrSize + hdrVwv ∧ req.wct = pkt.wct := by
  unfold recvSmb at h
  simp only [value_bind, value_byte] at h
  set data := (recvData pkt (nbtHdrSize + hdrVwv) (pkt.mem (nbtHdrSize + hdrWct)).toNat).value with hdata
  split at h
  · cases h
  next hwords =>
  split at h
  · cases h
  next hrange =>
  rw [gt_iff_lt, not_lt, fits_words_iff] at hwords
  -- the sum cannot wrap: the data size is a byte count, or what is left of the packet
  have hsum : nbtHdrSize + minSmbSize + 2 * pkt.wct + data.2 ≤ pkt.size := by
    have hsize := pkt.size_lt
    have hbound := recvData_dataSize hwords
    rw [← hdata] at hbound
    rw [gt_iff_lt, not_lt] at hrange
    change (nbtHdrSize + minSmbSize + 2 * pkt.wct + data.2) % 2 ^ 64 ≤ pkt.size at hrange
    change nbtHdrSize + hdrVwv + vwvOffset pkt.wct + 2 ≤ pkt.size at hwords
    change _ ∨ nbtHdrSize + hdrVwv + vwvOffset pkt.wct + 2 + data.2 = pkt.size at hbound
    simp only [nbtHdrSize, minSmbSize, hdrVwv, vwvOffset] at *
    rcases hbound with hb | hb
    · rwa [Nat.mod_eq_of_lt (by omega)] at hrange
    · omega
  have hbehind := @recvData_data pkt _ _ (Nat.le_of_add_right_le hwords)
  rw [← hdata] at hbehind
  unfold recvChecked at h
  simp only [value_bind] at h
  split at h
  · cases h
  simp only [value_bind, value_pure, Received.switchMessage.injEq] at h
  obtain ⟨-, rfl⟩ := h
  refine ⟨⟨hwords, hbehind, ?_⟩, rfl, rfl⟩
  rw [hbehind]
  change nbtHdrSize + hdrVwv + vwvOffset pkt.wct + 2 + data.2 ≤ pkt.size
  simp only [nbtHdrSize, minSmbSize, hdrVwv, vwvOffset] at *
  omega

theorem smbsrvRecvSmbRequest_fits {signed : Bool}
    (h : (smbsrvRecvSmbRequest pkt signed).value = .switchMessage command req) :
    req.Fits pkt ∧ req.vwv = nbtHdrSize + hdrVwv ∧ req.wct = pkt.wct := by
  unfold smbsrvRecvSmbRequest at h
  simp only [value_bind] at h
  split at h
  · cases h
  split at h
  · cases h
  simp only [value_bind] at h
  split at h
  · cases h
  exact recvSmb_fits h

/-! ### A further part -/

/-- The words of the link to the next part are parameter words, and the next part is read as far as
it was checked. -/
theorem smbsrvChainReply_inside (hfits : req.Fits pkt)
    (outWct outSize : Nat) : (smbsrvChainReply pkt req outWct outSize).Inside 0 pkt.size := by
  have hwords := hfits.words
  unfold smbsrvChainReply
  split
  · exact inside_pure _
  next hwct =>
  have hlink : req.vwv + vwvOffset 1 + 1 < pkt.size := by
    unfold vwvOffset at *
    omega
  simp only [inside_bind, inside_byte, inside_word, Nat.zero_le, true_and, hlink]
  refine ⟨by unfold vwvOffset at *; omega, ?_⟩
  split
  · exact inside_pure _
  split
  · exact inside_pure _
  next hoffset =>
  unfold chainPart
  simp only [inside_bind, inside_byte, Nat.zero_le, true_and]
  refine ⟨by omega, ?_⟩
  split
  · exact inside_pure _
  next hcount =>
  simp only [inside_bind, inside_word, Nat.zero_le, true_and]
  refine ⟨by omega, ?_⟩
  split
  · exact inside_pure _
  · exact inside_pure _

/-- The offset in the second parameter word of a request. -/
def SmbsrvRequest.chainOffset (req : SmbsrvRequest) (pkt : RecvPacket) : Nat :=
  (word pkt.mem (req.vwv + vwvOffset 1)).value

/-- What is handed over of a further part passed the checks, and starts where the part before says. -/
theorem smbsrvChainReply_fits {req' : SmbsrvRequest} {outWct outSize : Nat} {words : Nat × Nat}
    (h : (smbsrvChainReply pkt req outWct outSize).value = .switchMessage command req' words) :
    req'.Fits pkt ∧ req'.vwv = nbtHdrSize + req.chainOffset pkt + 1 := by
  unfold smbsrvChainReply at h
  split at h
  · cases h
  simp only [value_bind] at h
  split at h
  · cases h
  split at h
  · cases h
  unfold chainPart at h
  simp only [value_bind] at h
  split at h
  · cases h
  next hcount =>
  simp only [value_bind] at h
  split at h
  · cases h
  next hrange =>
  simp only [value_pure, Chained.switchMessage.injEq] at h
  obtain ⟨-, rfl, -⟩ := h
  exact ⟨⟨Nat.le_of_not_lt hcount, rfl, Nat.le_of_not_lt hrange⟩, rfl⟩

/-! ### Every part -/

/-- Every part handed over for a packet passed the checks. -/
theorem Dispatched.fits {parts : List SmbsrvRequest} (h : Dispatched pkt parts) : ∀ req ∈ parts, req.Fits pkt := by
  induction h with
  | first hrecv =>
    rintro req hreq
    rw [List.mem_singleton] at hreq
    subst hreq
    exact (smbsrvRecvSmbRequest_fits hrecv).1
  | next _ hchain ih =>
    rintro req hreq
    rcases List.mem_append.mp hreq with hreq | hreq
    · exact ih req hreq
    · rw [List.mem_singleton] at hreq
      subst hreq
      exact (smbsrvChainReply_fits hchain).1

/-- All parsing of a packet stays inside it exactly when it is not cut in the byte count of its first
part; that read is the only one in front of its check. -/
theorem parsesInside_iff (pkt : RecvPacket) (hsize : nbtHdrSize ≤ pkt.size) :
    ParsesInside pkt ↔ ¬pkt.CutInCount := by
  constructor
  · intro h
    exact (smbsrvRecvSmbRequest_inside hsize true).mp (h.recv true)
  · intro h
    refine ⟨fun signed => (smbsrvRecvSmbRequest_inside hsize signed).mpr h, fun _ hd => hd.fits, ?_⟩
    rintro parts hd req hreq outWct outSize
    exact smbsrvChainReply_inside (hd.fits req hreq) outWct outSize

/-- A packet with these bytes, and zeros behind them. -/
def packetOf (bytes : List UInt8) (h : bytes.length < 2 ^ 63) : RecvPacket where
  mem i := bytes.getD i 0
  size := bytes.length
  size_lt := h

/-- The NBT header for `len` bytes, and an SMB header with this word count. -/
def headerBytes (len wct : UInt8) : List UInt8 :=
  [0, 0, 0, len, 0xFF, 0x53, 0x4D, 0x42] ++ List.replicate 28 0 ++ [wct]

/-- A request of three parts: two words and two bytes of data, two words without data, one byte of data without words. -/
def threePart : RecvPacket :=
  packetOf (headerBytes 52 2 ++ [0x75, 0, 41, 0, 2, 0, 8, 9] ++ [2, 0x10, 0, 48, 0, 0, 0] ++ [0, 1, 0, 7]) (by decide)

/-- All three parts are handed over, if the handlers go on. -/
theorem threePart_dispatched : Dispatched threePart [⟨0, 37, 2, 43, 2⟩, ⟨0, 46, 2, 52, 0⟩, ⟨0, 53, 0, 55, 1⟩] := by
  have hfirst : Dispatched threePart [⟨0, 37, 2, 43, 2⟩] :=
    .first (show (smbsrvRecvSmbRequest threePart true).value = .switchMessage 0 _ by decide)
  have hsecond : Dispatched threePart ([] ++ [⟨0, 37, 2, 43, 2⟩] ++ [⟨0, 46, 2, 52, 0⟩]) :=
    hfirst.next (show (smbsrvChainReply threePart _ 2 43).value = .switchMessage 0x75 _ (0x75, 39) by decide)
  exact hsecond.next (show (smbsrvChainReply threePart _ 2 50).value = .switchMessage 0x10 _ (0x10, 46) by decide)

theorem parsesInside_threePart :
    ParsesInside threePart ∧ (⟨0, 53, 0, 55, 1⟩ : SmbsrvRequest).Fits threePart ∧
      (smbsrvChainReply threePart ⟨0, 46, 2, 52, 0⟩ 2 50).Inside 0 threePart.size := by
  have hcut : ¬threePart.CutInCount := by
    rintro ⟨-, -, hcut⟩
    revert hcut
    decide
  have hinside := (parsesInside_iff threePart (by decide)).mpr hcut
  have hfits := hinside.fits _ threePart_dispatched
  have hchain := hinside.chain _ threePart_dispatched
  exact ⟨hinside, hfits _ (by simp), hchain _ (by simp) 2 50⟩

/-- Of a request that ends behind its only word the byte count is read from behind the packet. -/
theorem cutInCount_reads_outside : ¬ParsesInside (packetOf (headerBytes 35 1 ++ [0, 0]) (by decide)) := by
  intro h
  have hrecv := h.recv true
  revert hrecv
  decide

end Samba.SmbServer
