/-
SMB signing: the signing context of a connection and the MAC of a packet (libcli/raw/smb_signing.c,
smb_server/smb/signing.c), for both ends. Packets are given from the SMB header on, without the NBT
header before it. MD5 is an arbitrary function, a section variable.
-/
import Mathlib.Tactic

namespace Samba.Smb

open List

/-! ## The signing context -/

/-- `enum smb_signing_engine_state`. -/
inductive SigningEngineState
  | off | bsrspyl | on
  deriving DecidableEq, Repr

/-- `enum smb_signing_state`, the `server signing` option. -/
inductive SigningState
  | off | supported | required | auto
  deriving DecidableEq, Repr

/-- `struct smb_signing_context`. -/
structure SigningContext where
  signingState : SigningEngineState
  macKey : List UInt8
  nextSeqNum : UInt32
  allowSmbSigning : Bool
  doingSigning : Bool
  mandatorySigning : Bool
  seenValid : Bool
  deriving DecidableEq, Repr

/-- `set_smb_signing_common`: whether signing may be started. -/
def setSmbSigningCommon (signInfo : SigningContext) : Bool :=
  if signInfo.doingSigning then false else signInfo.allowSmbSigning

/-- `smbcli_set_signing_off`. -/
def smbcliSetSigningOff (signInfo : SigningContext) : SigningContext :=
  { signInfo with doingSigning := false, nextSeqNum := 0, macKey := [], signingState := .off }

/-- `smbcli_simple_set_signing`; a NULL response counts as an empty one. -/
def smbcliSimpleSetSigning (signInfo : SigningContext) (userSessionKey response : List UInt8) :
    SigningContext :=
  { signInfo with macKey := userSessionKey ++ response, nextSeqNum := 0, signingState := .on }

/-- `signing_good`: what becomes of a packet with a good or bad MAC, and of the context. -/
def signingGood (signInfo : SigningContext) (good : Bool) : Bool × SigningContext :=
  if good then (true, { signInfo with doingSigning := true, seenValid := true })
  else if !signInfo.seenValid then
    -- if we have never seen a good packet, just turn it off
    (true, smbcliSetSigningOff signInfo)
  else (false, signInfo)

/-- `smbsrv_setup_signing`: whether signing was started. -/
def smbsrvSetupSigning (signing : SigningContext) (sessionKey response : List UInt8) :
    Bool × SigningContext :=
  if setSmbSigningCommon signing then (true, smbcliSimpleSetSigning signing sessionKey response)
  else (false, signing)

/-- `smbsrv_signing_restart`. -/
def smbsrvSigningRestart (signing : SigningContext) (sessionKey response : List UInt8) : SigningContext :=
  if !signing.seenValid then
    let signing := { (smbsrvSetupSigning signing sessionKey response).2 with nextSeqNum := 2 }
    if signing.mandatorySigning then { signing with seenValid := true } else signing
  else signing

/-- `smbsrv_init_signing`, on a connection that is all zero. -/
def smbsrvInitSigning (serverSigning : SigningState) (domainLogons : Bool) : SigningContext :=
  let zero : SigningContext := ⟨.off, [], 0, false, false, false, false⟩
  match serverSigning with
  | .off => { zero with allowSmbSigning := false }
  | .supported => { zero with allowSmbSigning := true }
  | .required => { zero with allowSmbSigning := true, mandatorySigning := true }
  | .auto => { zero with allowSmbSigning := domainLogons }

/-! ## Packets -/

def nbtHdrSize : Nat := 4
def minSmbSize : Nat := 35
def hdrFlg2 : Nat := 10
def hdrSsField : Nat := 14
def flags2SmbSecuritySignatures : UInt16 := 0x0004

/-- A packet as it is sent and received: the receiving ends drop anything shorter. -/
structure Packet where
  buf : List UInt8
  long : minSmbSize ≤ buf.length

/-- `memcpy(buf + off, bs, ..)` inside a buffer. -/
def memcpy (buf : List UInt8) (off : Nat) (bs : List UInt8) : List UInt8 :=
  buf.take off ++ bs ++ buf.drop (off + bs.length)

/-- `SIVAL`. -/
def sival (n : UInt32) : List UInt8 :=
  [n.toUInt8, (n >>> 8).toUInt8, (n >>> 16).toUInt8, (n >>> 24).toUInt8]

/-- `SVAL`. -/
def sval (buf : List UInt8) (off : Nat) : UInt16 :=
  (buf.getD off 0).toUInt16 ||| ((buf.getD (off + 1) 0).toUInt16 <<< 8)

/-- `SSVAL`. -/
def ssval (buf : List UInt8) (off : Nat) (v : UInt16) : List UInt8 :=
  memcpy buf off [v.toUInt8, (v >>> 8).toUInt8]

def markPacketSigned (out : List UInt8) : List UInt8 :=
  ssval out hdrFlg2 (sval out hdrFlg2 ||| flags2SmbSecuritySignatures)

/-- A 16 byte digest. -/
abbrev Digest := { d : List UInt8 // d.length = 16 }

variable (md5 : List UInt8 → Digest)

/-- `sign_outgoing_message`. -/
def signOutgoingMessage (out macKey : List UInt8) (seqNum : UInt32) : List UInt8 :=
  let out := memcpy out hdrSsField (sival seqNum ++ sival 0)
  -- mark the packet as signed before we sign it
  let out := markPacketSigned out
  memcpy out hdrSsField ((md5 (macKey ++ out)).val.take 8)

/-- The MAC a packet should have under a key and a sequence number. -/
def wantedMac (inb macKey : List UInt8) (seqNum : UInt32) : List UInt8 :=
  (md5 (macKey ++ (inb.take hdrSsField ++ (sival seqNum ++ sival 0) ++ inb.drop (hdrSsField + 8)))).val.take 8

/-- The packet carries that MAC. -/
def CarriesMac (inb macKey : List UInt8) (seqNum : UInt32) : Prop :=
  (inb.drop hdrSsField).take 8 = wantedMac md5 inb macKey seqNum

/-- `check_signed_incoming_message`. -/
def checkSignedIncomingMessage (inb macKey : List UInt8) (seqNum : UInt32) : Bool :=
  -- room enough for the signature?
  if nbtHdrSize + inb.length < nbtHdrSize + hdrSsField + 8 then false
  else if macKey.length = 0 then false
  else (inb.drop hdrSsField).take 8 == wantedMac md5 inb macKey seqNum

/-! ## The server's end -/

/-- What `smbsrv_signing_check_incoming` makes of a packet: whether it is accepted, `req->seq_num`,
and the context. `req->seq_num` has 64 bits but only ever holds values of `next_seq_num`. -/
structure Incoming where
  accepted : Bool
  seqNum : UInt32
  signing : SigningContext
  deriving DecidableEq, Repr

/-- `smbsrv_signing_check_incoming`. -/
def smbsrvSigningCheckIncoming (signing : SigningContext) (inb : List UInt8) : Incoming :=
  let seqNum := signing.nextSeqNum
  let allocated :=
    if signing.signingState ≠ .off then { signing with nextSeqNum := seqNum + 2 } else signing
  match signing.signingState with
  | .off => ⟨true, seqNum, allocated⟩
  | .bsrspyl | .on =>
    if nbtHdrSize + inb.length < hdrSsField + 8 then ⟨false, seqNum, allocated⟩
    else
      let (accepted, signing) :=
        signingGood allocated (checkSignedIncomingMessage md5 inb allocated.macKey seqNum)
      ⟨accepted, seqNum, signing⟩

/-- `smbsrv_signing_no_reply`. -/
def smbsrvSigningNoReply (signing : SigningContext) : SigningContext :=
  if signing.signingState ≠ .off then { signing with nextSeqNum := signing.nextSeqNum - 1 } else signing

/-- The field of a packet that is signed in name only. -/
def bsrspylField : List UInt8 := [0x42, 0x53, 0x52, 0x53, 0x50, 0x59, 0x4C, 0x20]

/-- `smbsrv_sign_packet`, for a reply to the request with this `seq_num`. -/
def smbsrvSignPacket (signing : SigningContext) (seqNum : UInt32) (out : List UInt8) : List UInt8 :=
  match signing.signingState with
  | .off => out
  | .bsrspyl => memcpy (markPacketSigned out) hdrSsField bsrspylField
  | .on => signOutgoingMessage md5 out signing.macKey (seqNum + 1)

/-! ## The client's end -/

/-- `smbcli_request_calculate_sign_mac`: the packet sent, `req->seq_num` and the context. -/
def smbcliRequestCalculateSignMac (signInfo : SigningContext) (signSingleIncrement : Bool)
    (seqNum : UInt32) (out : List UInt8) : List UInt8 × UInt32 × SigningContext :=
  match signInfo.signingState with
  | .off => (out, seqNum, signInfo)
  | .bsrspyl => (memcpy (markPacketSigned out) hdrSsField bsrspylField, seqNum, signInfo)
  | .on =>
    let seqNum := signInfo.nextSeqNum
    (signOutgoingMessage md5 out signInfo.macKey seqNum, seqNum,
      { signInfo with nextSeqNum := seqNum + (if signSingleIncrement then 1 else 2) })

/-- `smbcli_request_check_sign_mac`, on a reply to the request with this `seq_num`. -/
def smbcliRequestCheckSignMac (signInfo : SigningContext) (seqNum : UInt32) (inb : List UInt8) :
    Bool × SigningContext :=
  match signInfo.signingState with
  | .off => (true, signInfo)
  | .bsrspyl | .on =>
    if nbtHdrSize + inb.length < hdrSsField + 8 then (false, signInfo)
    else signingGood signInfo (checkSignedIncomingMessage md5 inb signInfo.macKey (seqNum + 1))

/-! ## A signed packet passes the check -/

theorem length_memcpy {buf bs : List UInt8} {off : Nat} (h : off + bs.length ≤ buf.length) :
    (memcpy buf off bs).length = buf.length := by
  simp only [memcpy, length_append, length_take, length_drop]
  omega

/-- Bytes written in the first part of a buffer. -/
theorem memcpy_append {A B bs : List UInt8} {off : Nat} (h : off + bs.length ≤ A.length) :
    memcpy (A ++ B) off bs = memcpy A off bs ++ B := by
  unfold memcpy
  rw [take_append_of_le_length (by omega), drop_append_of_le_length h]
  simp only [append_assoc]

/-- Bytes written over bytes of the same number. -/
theorem memcpy_middle {A S S' B : List UInt8} (h : S'.length = S.length) :
    memcpy (A ++ S ++ B) A.length S' = A ++ S' ++ B := by
  unfold memcpy
  rw [append_assoc A S B, take_left, h, ← append_assoc,
    show A.length + S.length = (A ++ S).length from length_append.symm, drop_left]

theorem length_markPacketSigned {out : List UInt8} (h : hdrFlg2 + 2 ≤ out.length) :
    (markPacketSigned out).length = out.length :=
  length_memcpy h

theorem markPacketSigned_append {A B : List UInt8} (h : hdrFlg2 + 2 ≤ A.length) :
    markPacketSigned (A ++ B) = markPacketSigned A ++ B := by
  have hflags : sval (A ++ B) hdrFlg2 = sval A hdrFlg2 := by
    unfold sval
    simp only [getD_eq_getElem?_getD]
    rw [List.getElem?_append_left (by omega), List.getElem?_append_left (by omega)]
  unfold markPacketSigned ssval
  rw [hflags]
  exact memcpy_append h

theorem length_mac (d : Digest) : (d.val.take 8).length = 8 := by
  rw [length_take, d.property]
  rfl

/-- Signing a packet, in its three parts: what stands before the signature, with the packet marked
as signed, the MAC, and what stands behind. -/
theorem signOutgoingMessage_parts {A S B : List UInt8} (hA : A.length = hdrSsField) (hS : S.length = 8)
    (macKey : List UInt8) (seqNum : UInt32) :
    signOutgoingMessage md5 (A ++ S ++ B) macKey seqNum =
      markPacketSigned A ++
        (md5 (macKey ++ (markPacketSigned A ++ (sival seqNum ++ sival 0) ++ B))).val.take 8 ++ B := by
  have hmark : (markPacketSigned A).length = hdrSsField :=
    (length_markPacketSigned (by rw [hA]; decide)).trans hA
  unfold signOutgoingMessage
  have hput : memcpy (A ++ S ++ B) hdrSsField (sival seqNum ++ sival 0) =
      A ++ ((sival seqNum ++ sival 0) ++ B) := by
    rw [← hA, memcpy_middle (by rw [hS]; rfl), append_assoc]
  simp only [hput]
  rw [markPacketSigned_append (by rw [hA]; decide), ← append_assoc]
  conv_lhs => rw [← hmark]
  exact memcpy_middle (length_mac _)

/-- The receiver of a signed packet finds the MAC it wants. -/
theorem checkSigned_signOutgoing {out macKey : List UInt8} (hlen : minSmbSize ≤ out.length)
    (hkey : macKey ≠ []) (seqNum : UInt32) :
    checkSignedIncomingMessage md5 (signOutgoingMessage md5 out macKey seqNum) macKey seqNum = true ∧
      (signOutgoingMessage md5 out macKey seqNum).length = out.length := by
  unfold minSmbSize at hlen
  have hsplit : out = out.take hdrSsField ++ (out.drop hdrSsField).take 8 ++ out.drop (hdrSsField + 8) := by
    rw [append_assoc, ← drop_drop, take_append_drop, take_append_drop]
  have hA : (out.take hdrSsField).length = hdrSsField := by
    rw [length_take]
    exact Nat.min_eq_left (le_trans (by decide) hlen)
  have hS : ((out.drop hdrSsField).take 8).length = 8 := by
    rw [length_take, length_drop]
    unfold hdrSsField
    omega
  have hmark : (markPacketSigned (out.take hdrSsField)).length = hdrSsField :=
    (length_markPacketSigned (by rw [hA]; decide)).trans hA
  have hsign := signOutgoingMessage_parts md5 (B := out.drop (hdrSsField + 8)) hA hS macKey seqNum
  rw [← hsplit] at hsign
  generalize markPacketSigned (out.take hdrSsField) = A at hsign hmark
  generalize hB : out.drop (hdrSsField + 8) = B at hsign hsplit
  have hBlen : B.length = out.length - 22 := by
    rw [← hB, length_drop]
    rfl
  set mac := (md5 (macKey ++ (A ++ (sival seqNum ++ sival 0) ++ B))).val.take 8 with hmac
  have hmaclen : mac.length = 8 := length_mac _
  have hlength : (A ++ mac ++ B).length = out.length := by
    rw [length_append, length_append, hmark, hmaclen, hBlen]
    unfold hdrSsField
    omega
  rw [hsign]
  refine ⟨?_, hlength⟩
  have htake : (A ++ mac ++ B).take hdrSsField = A := by
    rw [append_assoc, take_left' hmark]
  have hdrop : (A ++ mac ++ B).drop (hdrSsField + 8) = B :=
    drop_left' (by rw [length_append, hmark, hmaclen])
  have hfield : ((A ++ mac ++ B).drop hdrSsField).take 8 = mac := by
    rw [append_assoc, drop_left' hmark, take_left' hmaclen]
  unfold checkSignedIncomingMessage wantedMac
  rw [if_neg (by rw [hlength]; unfold hdrSsField; omega),
    if_neg (by rw [length_eq_zero_iff]; exact hkey), htake, hdrop, hfield, beq_iff_eq]

theorem carriesMac_of_check {inb macKey : List UInt8} {seqNum : UInt32}
    (h : checkSignedIncomingMessage md5 inb macKey seqNum = true) : CarriesMac md5 inb macKey seqNum := by
  unfold checkSignedIncomingMessage at h
  split at h
  · cases h
  · split at h
    · cases h
    · exact beq_iff_eq.mp h

/-- A packet that nobody signed, under an MD5 that is always zero. -/
def unsignedPacket : Packet := ⟨List.replicate 35 1, by decide⟩

def zeroMd5 (_ : List UInt8) : Digest := ⟨List.replicate 16 0, rfl⟩

example : checkSignedIncomingMessage zeroMd5 unsignedPacket.buf [1] 0 = false := by decide

end Samba.Smb
