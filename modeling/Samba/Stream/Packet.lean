/-
The packet layer over a stream socket (lib/stream/packet.c): the bytes of a packet that has not come in full stay in
`partial`, and whole packets are given to the callback one by one. `packet_recv` is cut where it calls the callback, so that
whatever happens while the callback runs comes between its two halves.
-/
import Mathlib.Algebra.Ring.Int.Defs
import Mathlib.Algebra.Ring.Nat
import Mathlib.Data.List.Basic
import Samba.Lib.Framing

namespace Samba.Stream

/-! ## Data blobs -/

abbrev DataBlob := List UInt8

/-- `NTSTATUS`: success, `STATUS_MORE_ENTRIES`, or an error. -/
inductive NtStatus
  | ok | moreEntries | error (code : UInt32)
  deriving DecidableEq, Repr

def ntStatusInvalidParameter : NtStatus := .error 0xc000000d
def ntStatusEndOfFile : NtStatus := .error 0xc0000011
def ntStatusNoMemory : NtStatus := .error 0xc0000017
def ntStatusConnectionDisconnected : NtStatus := .error 0xc000020c

/-- `NT_STATUS_IS_ERR`. -/
def NtStatus.isErr : NtStatus → Bool
  | .error _ => true
  | _ => false

/-- `MAX_TALLOC_SIZE`. -/
def maxTallocSize : Nat := 0x10000000

/-- `data_blob_realloc`: talloc frees a block that shrinks to nothing, and gives none of the largest size. What is in the
new part of a block that grows is never read before it is written. -/
def dataBlobRealloc (blob : DataBlob) (length : Nat) : Option DataBlob :=
  if length = 0 ∨ maxTallocSize ≤ length then none
  else some (blob.take length ++ List.replicate (length - blob.length) 0)

/-- `data_blob_talloc` of bytes that are there. -/
def dataBlobTalloc (data : List UInt8) : Option DataBlob := if maxTallocSize ≤ data.length then none else some data

/-! ## Full requests -/

/-- What a `full_request` function returns, and the size if it has set one. -/
abbrev FullRequest := DataBlob → NtStatus × Option Nat

/-- `CVAL`. -/
def cval (buf : DataBlob) (pos : Nat) : Nat := (buf.getD pos 0).toNat

/-- `smb_len`. -/
def smbLen (buf : DataBlob) : Nat := cval buf 3 ||| (cval buf 2 <<< 8) ||| (cval buf 1 <<< 16)

/-- `RIVAL` at 0. -/
def rival (buf : DataBlob) : Nat := cval buf 3 + cval buf 2 * 2 ^ 8 + cval buf 1 * 2 ^ 16 + cval buf 0 * 2 ^ 24

/-- What `packet_full_request_nbt` and `packet_full_request_u32` share. -/
def packetFullRequest (packetSize : DataBlob → Nat) : FullRequest := fun blob =>
  if blob.length < 4 then (.moreEntries, none)
  else if blob.length < packetSize blob then (.moreEntries, some (packetSize blob))
  else (.ok, some (packetSize blob))

/-- `packet_full_request_nbt`. -/
def packetFullRequestNbt : FullRequest := packetFullRequest fun blob => 4 + smbLen blob

/-- `packet_full_request_u32`. The sum is one of 32-bit words. -/
def packetFullRequestU32 : FullRequest := packetFullRequest fun blob => (4 + rival blob) % 2 ^ 32

/-! ## The packet context -/

/-- `packet_context`, with the number of timers for it in the event context, and whether its socket is watched for input.
`sock` and `ev` are whether there is one. `error` is what the error handler was last called with. -/
structure PacketContext where
  partialBlob : DataBlob
  numRead : Nat
  initialRead : Nat
  sock : Bool
  ev : Bool
  packetSize : Nat
  serialise : Bool
  processing : Nat
  recvDisable : Bool
  readable : Bool
  timers : Nat
  error : Option NtStatus
  deriving DecidableEq, Repr

/-- `packet_init`, with a socket, and with an event context and serialising where these are asked for. -/
def packetInit (ev serialise : Bool) : PacketContext :=
  { partialBlob := [], numRead := 0, initialRead := 0, sock := true, ev := ev, packetSize := 0, serialise := serialise
    processing := 0, recvDisable := false, readable := true, timers := 0, error := none }

/-- What the socket says: how much `socket_pending` finds, and what `socket_recv` returns for a length. -/
structure SocketIn where
  pending : Except NtStatus Nat
  recv : Nat → NtStatus × List UInt8

/-- Where a function of the packet layer stops: the context, how many bytes it has taken from the socket, and the packet
that it gives to the callback. Without one it has returned. -/
structure Stop where
  pc : PacketContext
  nread : Nat
  call : Option DataBlob
  deriving DecidableEq, Repr

def PacketContext.stop (pc : PacketContext) : Stop := ⟨pc, 0, none⟩

/-- `packet_error`. -/
def packetError (pc : PacketContext) (status : NtStatus) : PacketContext := { pc with sock := false, error := some status }

/-- `packet_eof`. -/
def packetEof (pc : PacketContext) : PacketContext := packetError pc ntStatusEndOfFile

section

variable (fullRequest : FullRequest)

/-- `packet_recv` from the label `next_partial` on, up to the callback. -/
def nextPartial (pc : PacketContext) : Stop :=
  match if pc.partialBlob.length ≠ pc.numRead then dataBlobRealloc pc.partialBlob pc.numRead else some pc.partialBlob with
  | none => (packetError pc ntStatusNoMemory).stop
  | some blob =>
    let (status, size) := fullRequest (blob.take pc.numRead)
    let pc := { pc with partialBlob := blob, packetSize := size.getD pc.packetSize }
    if status.isErr then (packetError pc status).stop
    else if status ≠ .ok then pc.stop
    else if pc.numRead < pc.packetSize then (packetError pc ntStatusInvalidParameter).stop
    else
      -- it is a full request
      match if pc.packetSize < pc.numRead then dataBlobTalloc ((blob.take pc.numRead).drop pc.packetSize) else some [] with
      | none => (packetError pc ntStatusNoMemory).stop
      | some rest =>
        match if pc.packetSize < pc.numRead then dataBlobRealloc (blob.take pc.numRead) pc.packetSize
          else some (blob.take pc.numRead) with
        | none => (packetError { pc with partialBlob := rest } ntStatusNoMemory).stop
        | some packet =>
          { pc := { pc with
              partialBlob := rest
              numRead := pc.numRead - pc.packetSize
              packetSize := 0
              processing := if pc.serialise then 1 else pc.processing }
            nread := 0
            call := some packet }

/-- How much `packet_recv` wants to read. The first difference is one of `size_t`, the second of `uint32_t`. -/
def packetPending (pc : PacketContext) (sock : SocketIn) : Except NtStatus Nat :=
  if pc.packetSize ≠ 0 then .ok (pc.packetSize - pc.numRead)
  else if pc.initialRead ≠ 0 then .ok ((2 ^ 32 + pc.initialRead - pc.numRead) % 2 ^ 32)
  else if pc.sock then sock.pending
  else .error ntStatusConnectionDisconnected

/-- `packet_recv`, up to the callback. -/
def packetRecv (pc : PacketContext) (sock : SocketIn) : Stop :=
  if pc.processing ≠ 0 then { pc with readable := false, processing := pc.processing + 1 : PacketContext }.stop
  else if pc.recvDisable then { pc with readable := false : PacketContext }.stop
  else if pc.packetSize ≠ 0 ∧ pc.packetSize ≤ pc.numRead then nextPartial fullRequest pc
  else
    match packetPending pc sock with
    | .error status => (packetError pc status).stop
    | .ok npending =>
      if npending = 0 then (packetEof pc).stop
      else if (npending + pc.numRead) % 2 ^ 64 < npending then (packetError pc ntStatusInvalidParameter).stop
      else if (npending + pc.numRead) % 2 ^ 64 < pc.numRead then (packetError pc ntStatusInvalidParameter).stop
      else
        -- possibly expand the partial packet buffer
        match if pc.partialBlob.length < npending + pc.numRead then dataBlobRealloc pc.partialBlob (npending + pc.numRead)
          else some pc.partialBlob with
        | none => (packetError pc ntStatusNoMemory).stop
        | some blob =>
          let pc := { pc with partialBlob := blob }
          if blob.length < pc.numRead + npending then (packetError pc ntStatusInvalidParameter).stop
          else
            let (status, data) := if pc.sock then sock.recv npending else (ntStatusConnectionDisconnected, [])
            if status.isErr then (packetError pc status).stop
            else if status ≠ .ok then pc.stop
            else if data = [] then (packetEof pc).stop
            else
              { nextPartial fullRequest { pc with
                  partialBlob := blob.take pc.numRead ++ data ++ blob.drop (pc.numRead + data.length)
                  numRead := (pc.numRead + data.length) % 2 ^ 32 } with
                nread := data.length }

/-- The end of processing a packet: input that came meanwhile is watched for again. -/
def PacketContext.processed (pc : PacketContext) : PacketContext :=
  if pc.processing ≠ 0 then { pc with readable := if 1 < pc.processing then true else pc.readable, processing := 0 } else pc

/-- `packet_recv` after the callback, which has returned `status`. -/
def packetRecvAfter (pc : PacketContext) (status : NtStatus) : Stop :=
  let pc := pc.processed
  if status ≠ .ok then (packetError pc status).stop
  else if pc.partialBlob.length = 0 then pc.stop
  else if !pc.ev then nextPartial fullRequest pc
  else
    -- we got multiple packets in one tcp read
    let (status, size) := fullRequest (pc.partialBlob.take pc.numRead)
    let pc := { pc with packetSize := size.getD pc.packetSize }
    if status.isErr then (packetError pc status).stop
    else if status ≠ .ok then pc.stop
    else { pc with timers := pc.timers + 1 : PacketContext }.stop

/-- `packet_next_event`, when a timer of the context fires. -/
def packetNextEvent (pc : PacketContext) (sock : SocketIn) : Stop :=
  let pc := { pc with timers := pc.timers - 1 }
  if pc.numRead ≠ 0 ∧ pc.packetSize ≠ 0 ∧ pc.packetSize ≤ pc.numRead then packetRecv fullRequest pc sock else pc.stop

end

/-- `packet_recv_disable`. -/
def packetRecvDisable (pc : PacketContext) : PacketContext := { pc with readable := false, recvDisable := true }

/-- `packet_recv_enable`. -/
def packetRecvEnable (pc : PacketContext) : PacketContext :=
  let pc := { pc with readable := true, recvDisable := false }
  if pc.numRead ≠ 0 ∧ pc.numRead ≤ pc.packetSize then { pc with timers := pc.timers + 1 } else pc

/-- A complete packet is in the buffer. -/
def PacketContext.HasPacket (pc : PacketContext) : Prop := 0 < pc.packetSize ∧ pc.packetSize ≤ pc.numRead

instance (pc : PacketContext) : Decidable pc.HasPacket := inferInstanceAs (Decidable (_ ∧ _))

/-- A connection: its packet context, and how many callbacks are running, one inside the other. -/
structure Conn where
  pc : PacketContext
  depth : Nat
  deriving DecidableEq, Repr

/-- Where a function stops, it has called the callback or returned. -/
def Stop.conn (r : Stop) (depth : Nat) : Conn := ⟨r.pc, if r.call.isSome then depth + 1 else depth⟩

/-! ## From one packet to the next -/

section

variable {size : DataBlob → Nat} {pc : PacketContext}

/-- Only the marks of processing change when it ends. -/
theorem PacketContext.processed_eq (pc : PacketContext) :
    pc.processed = { pc with readable := pc.processed.readable, processing := 0 } := by
  unfold PacketContext.processed
  split
  · rfl
  · rename_i h
    rw [not_not] at h
    rw [← h]

/-- What `next_partial` does, by the bytes that were read. -/
inductive NextPartial (size : DataBlob → Nat) (pc : PacketContext) : Stop → Prop
  | failed {pc' : PacketContext} {status : NtStatus}
      (h : pc.numRead = 0 ∨ maxTallocSize ≤ pc.numRead ∨ 4 ≤ pc.numRead ∧ size (pc.partialBlob.take pc.numRead) = 0) :
      NextPartial size pc (packetError pc' status).stop
  | header (h : pc.numRead < 4) : NextPartial size pc { pc with partialBlob := pc.partialBlob.take pc.numRead : PacketContext }.stop
  | more (h4 : 4 ≤ pc.numRead) (h : pc.numRead < size (pc.partialBlob.take pc.numRead)) :
      NextPartial size pc
        { pc with
          partialBlob := pc.partialBlob.take pc.numRead
          packetSize := size (pc.partialBlob.take pc.numRead) : PacketContext }.stop
  | call (h4 : 4 ≤ pc.numRead) (h : size (pc.partialBlob.take pc.numRead) ≤ pc.numRead) :
      NextPartial size pc
        { pc := { pc with
            partialBlob := (pc.partialBlob.take pc.numRead).drop (size (pc.partialBlob.take pc.numRead))
            numRead := pc.numRead - size (pc.partialBlob.take pc.numRead)
            packetSize := 0
            processing := if pc.serialise then 1 else pc.processing }
          nread := 0
          call := some ((pc.partialBlob.take pc.numRead).take (size (pc.partialBlob.take pc.numRead))) }

/-- Shrinking the buffer to what was read fails at the limits of talloc only. -/
theorem shrink_cases (h : pc.numRead ≤ pc.partialBlob.length) :
    let blob := if pc.partialBlob.length ≠ pc.numRead then dataBlobRealloc pc.partialBlob pc.numRead else some pc.partialBlob
    blob = none ∧ (pc.numRead = 0 ∨ maxTallocSize ≤ pc.numRead) ∨ blob = some (pc.partialBlob.take pc.numRead) := by
  intro blob
  by_cases hlen : pc.partialBlob.length = pc.numRead
  · exact .inr (by rw [show blob = some pc.partialBlob from if_neg (not_not.mpr hlen), ← hlen, List.take_length])
  · by_cases hlimit : pc.numRead = 0 ∨ maxTallocSize ≤ pc.numRead
    · exact .inl ⟨(if_pos hlen).trans (if_pos hlimit), hlimit⟩
    · refine .inr (((if_pos hlen).trans (if_neg hlimit)).trans ?_)
      rw [Nat.sub_eq_zero_of_le h, List.replicate_zero, List.append_nil]

theorem nextPartial_cases (h : pc.numRead ≤ pc.partialBlob.length) :
    NextPartial size pc (nextPartial (packetFullRequest size) pc) := by
  have hbuf : (pc.partialBlob.take pc.numRead).length = pc.numRead := List.length_take_of_le h
  unfold nextPartial
  obtain ⟨hblob, hlimit⟩ | hblob := shrink_cases h
  · rw [hblob]
    exact .failed (by tauto)
  rw [hblob]
  simp only [List.take_take, Nat.min_self, packetFullRequest, hbuf]
  generalize hB : pc.partialBlob.take pc.numRead = buf at hbuf ⊢
  by_cases h4 : pc.numRead < 4
  · have hheader := @NextPartial.header size _ h4
    rw [hB] at hheader
    simp only [if_pos h4, NtStatus.isErr, Bool.false_eq_true, if_false, ne_eq, reduceCtorEq, not_false_eq_true, if_true]
    exact hheader
  rw [if_neg h4]
  by_cases hsize : pc.numRead < size buf
  · have hmore := @NextPartial.more size _ (Nat.le_of_not_lt h4) (by rw [hB]; exact hsize)
    rw [hB] at hmore
    simp only [if_pos hsize, NtStatus.isErr, Bool.false_eq_true, if_false, ne_eq, reduceCtorEq, not_false_eq_true, if_true]
    exact hmore
  rw [if_neg hsize]
  have hcall := @NextPartial.call size _ (Nat.le_of_not_lt h4) (by rw [hB]; exact Nat.le_of_not_lt hsize)
  rw [hB] at hcall
  simp only [NtStatus.isErr, Bool.false_eq_true, if_false, ne_eq, not_true_eq_false, Option.getD_some, hsize]
  by_cases hrest : size buf < pc.numRead
  · have hlimit : maxTallocSize ≤ pc.numRead ∨ size buf = 0 →
        pc.numRead = 0 ∨ maxTallocSize ≤ pc.numRead ∨ 4 ≤ pc.numRead ∧ size (pc.partialBlob.take pc.numRead) = 0 := by
      rw [hB]
      omega
    simp only [if_pos hrest, dataBlobTalloc, dataBlobRealloc, List.length_drop, hbuf]
    by_cases hdrop : maxTallocSize ≤ pc.numRead - size buf
    · rw [if_pos hdrop]
      exact .failed (hlimit (by omega))
    rw [if_neg hdrop]
    by_cases hpacket : size buf = 0 ∨ maxTallocSize ≤ size buf
    · simp only [if_pos hpacket]
      exact .failed (hlimit (by omega))
    · simp only [if_neg hpacket]
      rw [Nat.sub_eq_zero_of_le (Nat.le_of_lt hrest), List.replicate_zero, List.append_nil]
      exact hcall
  · have hall : size buf = pc.numRead := Nat.le_antisymm (Nat.le_of_not_lt hsize) (Nat.le_of_not_lt hrest)
    simp only [if_neg hrest]
    rw [hall, ← hbuf, List.drop_length, List.take_length] at hcall
    rw [hall, ← hbuf]
    exact hcall

variable {fullRequest : FullRequest} {sock : SocketIn}

/-- While a packet is being processed, `packet_recv` only marks that there is input. -/
theorem packetRecv_processing (h : pc.processing ≠ 0) :
    packetRecv fullRequest pc sock = { pc with readable := false, processing := pc.processing + 1 : PacketContext }.stop := by
  rw [packetRecv, if_pos h]

theorem packetRecv_disabled (h : pc.processing = 0) (hdisable : pc.recvDisable = true) :
    packetRecv fullRequest pc sock = { pc with readable := false : PacketContext }.stop := by
  rw [packetRecv, if_neg (not_not.mpr h), if_pos hdisable]

/-- With a complete packet in the buffer, nothing is read. -/
theorem packetRecv_hasPacket (h : pc.processing = 0) (hdisable : pc.recvDisable = false) (hpacket : pc.HasPacket) :
    packetRecv fullRequest pc sock = nextPartial fullRequest pc := by
  rw [packetRecv, if_neg (not_not.mpr h), if_neg (by rw [hdisable]; exact Bool.false_ne_true),
    if_pos ⟨Nat.ne_of_gt hpacket.1, hpacket.2⟩]

end

end Samba.Stream
