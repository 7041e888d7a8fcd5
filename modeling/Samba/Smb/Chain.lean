/-
AndX chains (smb_server/smb/receive.c): the parts that `smbsrv_chain_reply` hands to `switch_message`
for one packet, whatever the command handlers do. A handler can only go on with the part that the
packet links to or stop, so the runs are the walks along the links of the packet, and they end when
the links lead forward.
-/
import Samba.Lib.Walks
import Samba.Smb.Receive

namespace Samba.SmbServer

open List Reading Relation Samba.Smb Walks

/-! ## The links of a packet -/

variable (pkt : RecvPacket)

/-- The word count of the part at an offset from the SMB header. -/
def RecvPacket.wctAt (offset : Nat) : Nat := (pkt.mem (nbtHdrSize + offset)).toNat

/-- The parameter words of the part at an offset. -/
def vwvAt (offset : Nat) : Nat := nbtHdrSize + offset + 1

/-- The data of the part at an offset. -/
def RecvPacket.dataAt (offset : Nat) : Nat := vwvAt offset + vwvOffset (pkt.wctAt offset) + 2

/-- The byte count of the part at an offset. -/
def RecvPacket.bccAt (offset : Nat) : Nat :=
  (word pkt.mem (vwvAt offset + vwvOffset (pkt.wctAt offset))).value

/-- The part at the offset `a` names a next command and the offset `b`, and a part fits there. -/
structure RecvPacket.Links (a b : Nat) : Prop where
  words : 2 ≤ pkt.wctAt a
  command : (pkt.mem (vwvAt a + vwvOffset 0)).toNat ≠ smbChainNone
  offset : b = (word pkt.mem (vwvAt a + vwvOffset 1)).value
  start : nbtHdrSize + b < pkt.size
  count : pkt.dataAt b ≤ pkt.size
  data : pkt.dataAt b + pkt.bccAt b ≤ pkt.size

/-- The request as `smbsrv_chain_reply` sets it for the part at an offset. -/
def RecvPacket.partAt (flags2 offset : Nat) : SmbsrvRequest where
  flags2 := flags2
  vwv := vwvAt offset
  wct := pkt.wctAt offset
  data := pkt.dataAt offset
  dataSize := pkt.bccAt offset

/-- A request that was set for the part at an offset. -/
structure SmbsrvRequest.At (req : SmbsrvRequest) (pkt : RecvPacket) (offset : Nat) : Prop where
  vwv : req.vwv = vwvAt offset
  wct : req.wct = pkt.wctAt offset

/-- Where a part starts: the offset of its word count from the SMB header. -/
def SmbsrvRequest.offset (req : SmbsrvRequest) : Nat := req.vwv - (nbtHdrSize + 1)

variable {pkt}

variable {req : SmbsrvRequest} {signed : Bool} {command : Nat}

theorem SmbsrvRequest.At.offset_eq {a : Nat} (h : req.At pkt a) : req.offset = a := by
  rw [SmbsrvRequest.offset, h.vwv, vwvAt]
  omega

theorem partAt_at (flags2 a : Nat) : (pkt.partAt flags2 a).At pkt a := ⟨rfl, rfl⟩

theorem chainPart_fits (req : SmbsrvRequest) (outSize command : Nat) {b : Nat} (hcount : pkt.dataAt b ≤ pkt.size)
    (hdata : pkt.dataAt b + pkt.bccAt b ≤ pkt.size) :
    (chainPart pkt req outSize command b).value =
      .switchMessage command (pkt.partAt req.flags2 b) (command, (outSize - nbtHdrSize) % 2 ^ 16) := by
  simp only [RecvPacket.dataAt, RecvPacket.bccAt, RecvPacket.wctAt, vwvAt] at hcount hdata
  unfold chainPart
  simp only [value_bind]
  rw [value_byte, if_neg (Nat.not_lt.mpr hcount)]
  simp only [value_bind]
  rw [if_neg (Nat.not_lt.mpr hdata)]
  rfl

/-- `smbsrv_chain_reply` goes on exactly along the link of the part it is called for. -/
theorem smbsrvChainReply_switch_iff {req req' : SmbsrvRequest} {a outWct outSize command : Nat}
    {words : Nat × Nat} (hat : req.At pkt a) :
    (smbsrvChainReply pkt req outWct outSize).value = .switchMessage command req' words ↔
      ∃ b, pkt.Links a b ∧ 2 ≤ outWct ∧ command = (pkt.mem (vwvAt a + vwvOffset 0)).toNat ∧
        req' = pkt.partAt req.flags2 b ∧ words = (command, (outSize - nbtHdrSize) % 2 ^ 16) := by
  obtain ⟨hvwv, hwct⟩ := hat
  unfold smbsrvChainReply
  rw [hvwv, hwct]
  constructor
  · intro h
    split at h
    · cases h
    next hwords =>
    rw [not_or, not_lt, not_lt] at hwords
    simp only [value_bind] at h
    split at h
    · cases h
    next hcommand =>
    split at h
    · cases h
    next hstart =>
    unfold chainPart at h
    simp only [value_bind] at h
    split at h
    · cases h
    next hcount =>
    simp only [value_bind] at h
    split at h
    · cases h
    next hdata =>
    simp only [value_pure, Chained.switchMessage.injEq] at h
    obtain ⟨rfl, rfl, rfl⟩ := h
    rw [value_byte] at hcommand hcount hdata ⊢
    refine ⟨(word pkt.mem (vwvAt a + vwvOffset 1)).value, ⟨hwords.1, hcommand, rfl, ?_, ?_, ?_⟩,
      hwords.2, rfl, rfl, rfl⟩
    · omega
    · exact Nat.le_of_not_lt hcount
    · exact Nat.le_of_not_lt hdata
  · rintro ⟨b, hlink, hout, rfl, rfl, rfl⟩
    obtain ⟨hwords, hcommand, rfl, hstart, hcount, hdata⟩ := hlink
    rw [if_neg (not_or.mpr ⟨Nat.not_lt.mpr hwords, Nat.not_lt.mpr hout⟩)]
    simp only [value_bind]
    rw [value_byte, if_neg hcommand, if_neg (by omega)]
    exact chainPart_fits req outSize _ hcount hdata

/-! ## Runs -/

theorem first_at (h : (smbsrvRecvSmbRequest pkt signed).value = .switchMessage command req) : req.At pkt hdrWct := by
  obtain ⟨-, hvwv, hwct⟩ := smbsrvRecvSmbRequest_fits h
  exact ⟨hvwv, hwct⟩

/-- The offsets of the parts of a run are a walk along the links of the packet. -/
theorem Dispatched.walk {parts : List SmbsrvRequest} (h : Dispatched pkt parts) :
    (∀ req ∈ parts, req.At pkt req.offset) ∧ Walk pkt.Links hdrWct (parts.map (·.offset)) := by
  induction h with
  | first hrecv =>
    have hat := first_at hrecv
    have hoffset := hat.offset_eq
    constructor
    · rintro req hreq
      rw [mem_singleton] at hreq
      subst hreq
      rwa [hoffset]
    · rw [map_singleton, hoffset]
      exact .start
  | @next parts req req' outWct outSize command words _ hchain ih =>
    obtain ⟨hat, hwalk⟩ := ih
    obtain ⟨b, hlink, -, -, rfl, -⟩ := (smbsrvChainReply_switch_iff (hat req (by simp))).mp hchain
    have hnext : (pkt.partAt req.flags2 b).offset = b := (partAt_at req.flags2 b).offset_eq
    constructor
    · rintro r hr
      rcases mem_append.mp hr with hr | hr
      · exact hat r hr
      · rw [mem_singleton] at hr
        subst hr
        rw [hnext]
        exact partAt_at req.flags2 b
    · rw [map_append, map_singleton] at hwalk
      rw [map_append, map_append, map_singleton, map_singleton, hnext]
      exact hwalk.step hlink

end Samba.SmbServer
