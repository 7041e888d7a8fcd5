/-
Packets are delivered once and in order: whatever pieces the stream comes in, and whichever of input and timers comes first,
the callback gets the packets of the stream one by one, and what is left in the buffer is the start of the next one.
-/
import Samba.Stream.Packet
import Samba.Lib.Transition

namespace Samba.Stream

open List Transition

/-! ## The two framings -/

theorem cval_append {a : DataBlob} (b : DataBlob) {pos : Nat} (h : pos < a.length) : cval (a ++ b) pos = cval a pos := by
  rw [cval, cval, getD_eq_getElem?_getD, getD_eq_getElem?_getD, List.getElem?_append_left h]

/-- Packets with the length of NBT sessions. -/
def nbtFraming : Framing UInt8 where
  header := 4
  size blob := 4 + smbLen blob
  header_pos := by decide
  size_append a b h := by
    unfold smbLen
    rw [cval_append b (by omega), cval_append b (by omega), cval_append b (by omega)]

/-- Packets with a length of 32 bits in network byte order. -/
def u32Framing : Framing UInt8 where
  header := 4
  size blob := 4 + rival blob
  header_pos := by decide
  size_append a b h := by
    unfold rival
    rw [cval_append b (by omega), cval_append b (by omega), cval_append b (by omega), cval_append b (by omega)]

/-- The `full_request` functions of the packet layer. -/
inductive Protocol
  | nbt | u32
  deriving DecidableEq, Repr

def Protocol.framing : Protocol → Framing UInt8
  | .nbt => nbtFraming
  | .u32 => u32Framing

def Protocol.fullRequest : Protocol → FullRequest
  | .nbt => packetFullRequestNbt
  | .u32 => packetFullRequestU32

/-- The size that the function computes. -/
def Protocol.size : Protocol → DataBlob → Nat
  | .nbt => fun blob => 4 + smbLen blob
  | .u32 => fun blob => (4 + rival blob) % 2 ^ 32

variable {proto : Protocol}

theorem Protocol.fullRequest_eq : proto.fullRequest = packetFullRequest proto.size := by
  cases proto <;> rfl

@[simp] theorem Protocol.header_eq : proto.framing.header = 4 := by
  cases proto <;> rfl

/-- A size below the largest block of talloc is computed right. -/
theorem Protocol.size_eq {blob : DataBlob} (h : proto.framing.size blob < maxTallocSize) :
    proto.size blob = proto.framing.size blob := by
  cases proto with
  | nbt => rfl
  | u32 => exact Nat.mod_eq_of_lt (Nat.lt_trans h (by decide))

/-! ## Streams of packets -/

/-- Packets that the buffer has room for. -/
structure Packets (proto : Protocol) (packets : List DataBlob) : Prop where
  isFrame : ∀ p ∈ packets, proto.framing.IsFrame p
  length_lt : ∀ p ∈ packets, p.length < maxTallocSize

/-- What is in the buffer and what has not been read is the rest of the packets, and what is known of the next packet's size
is right. -/
structure Waiting (proto : Protocol) (pc : PacketContext) (unread : List UInt8) (todo : List DataBlob) : Prop where
  stream : pc.partialBlob ++ unread = todo.flatten
  numRead : pc.numRead = pc.partialBlob.length
  numRead_lt : pc.numRead < maxTallocSize
  packetSize : pc.packetSize = 0 ∨ 4 ≤ pc.numRead ∧ pc.packetSize = proto.framing.size pc.partialBlob

/-- Nothing has gone wrong, and receiving is enabled. -/
structure Open (ev : Bool) (pc : PacketContext) : Prop where
  error : pc.error = none
  sock : pc.sock = true
  recvDisable : pc.recvDisable = false
  initialRead : pc.initialRead = 0
  ev : pc.ev = ev

section

variable {pc : PacketContext} {unread : List UInt8} {todo : List DataBlob} {buf : DataBlob}

/-- What `next_partial` does with some bytes of the stream: the first packet goes to the callback once it has come. -/
inductive Cut (proto : Protocol) (pc : PacketContext) (buf : DataBlob) (unread : List UInt8) (todo : List DataBlob) :
    Stop → Prop
  | wait {packetSize : Nat}
      (h : pc.numRead < 4 ∧ packetSize = pc.packetSize ∨
        4 ≤ pc.numRead ∧ packetSize = proto.framing.size buf ∧ pc.numRead < packetSize) :
      Cut proto pc buf unread todo { pc with partialBlob := buf, packetSize := packetSize : PacketContext }.stop
  | call {p : DataBlob} {ps : List DataBlob} (htodo : todo = p :: ps) (hp : 4 ≤ p.length) (hle : p.length ≤ pc.numRead)
      (hrest : buf.drop p.length ++ unread = ps.flatten) :
      Cut proto pc buf unread todo
        { pc := { pc with
            partialBlob := buf.drop p.length
            numRead := pc.numRead - p.length
            packetSize := 0
            processing := if pc.serialise then 1 else pc.processing }
          nread := 0
          call := some p }

theorem nextPartial_cut (htodo : Packets proto todo) (hle : pc.numRead ≤ pc.partialBlob.length)
    (hbuf : pc.partialBlob.take pc.numRead = buf) (hstream : buf ++ unread = todo.flatten) (h0 : 0 < pc.numRead)
    (hlt : pc.numRead < maxTallocSize) : Cut proto pc buf unread todo (nextPartial proto.fullRequest pc) := by
  have hlen : buf.length = pc.numRead := by rw [← hbuf, length_take_of_le hle]
  rw [Protocol.fullRequest_eq]
  have hcases := @nextPartial_cases proto.size _ hle
  -- with a header, the size is that of the first packet
  have hfirst : 4 ≤ pc.numRead → ∃ p ps, todo = p :: ps ∧ 4 ≤ p.length ∧ proto.size buf = p.length ∧
      proto.framing.size buf = p.length := by
    intro h4
    obtain ⟨p, ps, rfl, hsize, -⟩ := Framing.head_frame hstream htodo.isFrame (by rw [Protocol.header_eq]; omega)
    have hp := (htodo.isFrame p (by simp)).header_le
    rw [Protocol.header_eq] at hp
    exact ⟨p, ps, rfl, hp, (Protocol.size_eq (by rw [hsize]; exact htodo.length_lt p (by simp))).trans hsize, hsize⟩
  generalize nextPartial (packetFullRequest proto.size) pc = r at hcases ⊢
  cases hcases with
  | failed h =>
    exfalso
    obtain h | h | ⟨h4, h⟩ := h
    · omega
    · omega
    · obtain ⟨p, ps, -, hp, hsize, -⟩ := hfirst h4
      rw [hbuf] at h
      omega
  | header h4 =>
    rw [hbuf]
    exact .wait (.inl ⟨h4, rfl⟩)
  | more h4 hmore =>
    obtain ⟨p, ps, -, -, hsize, hsize'⟩ := hfirst h4
    rw [hbuf] at hmore ⊢
    exact .wait (.inr ⟨h4, hsize.trans hsize'.symm, hmore⟩)
  | call h4 hcall =>
    obtain ⟨p, ps, rfl, hp, hsize, -⟩ := hfirst h4
    rw [hbuf] at hcall ⊢
    rw [hsize] at hcall ⊢
    obtain ⟨htake, hdrop⟩ := Framing.cut_frame hstream (by omega)
    rw [htake]
    exact .call rfl hp hcall hdrop

/-- What `packet_recv` reads comes behind the buffer. -/
theorem packetRecv_reads (fullRequest : FullRequest) {ev : Bool} {sock : SocketIn} (npending : Nat) (data : List UInt8)
    (hopen : Open ev pc) (hprocessing : pc.processing = 0)
    (hnumRead : pc.numRead = pc.partialBlob.length) (hpacket : ¬ pc.HasPacket) (hpending : packetPending pc sock = .ok npending)
    (hpos : 0 < npending) (hroom : npending + pc.numRead < maxTallocSize) (hrecv : sock.recv npending = (.ok, data))
    (hdata : data ≠ []) (hlen : data.length ≤ npending) :
    packetRecv fullRequest pc sock =
      { nextPartial fullRequest { pc with
          partialBlob := pc.partialBlob ++ data ++ (List.replicate npending 0).drop data.length
          numRead := pc.numRead + data.length } with
        nread := data.length } := by
  have hmax : maxTallocSize < 2 ^ 32 := by decide
  have hexpand : (if pc.partialBlob.length < npending + pc.numRead then
      dataBlobRealloc pc.partialBlob (npending + pc.numRead) else some pc.partialBlob) =
        some (pc.partialBlob ++ List.replicate npending 0) := by
    rw [if_pos (by omega), dataBlobRealloc, if_neg (by omega), take_of_length_le (by omega),
      show npending + pc.numRead - pc.partialBlob.length = npending by omega]
  have htake : (pc.partialBlob ++ List.replicate npending 0).take pc.numRead = pc.partialBlob := by
    rw [hnumRead, take_left']
    rfl
  have hdrop : (pc.partialBlob ++ List.replicate npending (0 : UInt8)).drop (pc.numRead + data.length) =
      (List.replicate npending 0).drop data.length := by
    rw [hnumRead, drop_append]
    simp
  have hnone : ¬(pc.packetSize ≠ 0 ∧ pc.packetSize ≤ pc.numRead) := fun h => hpacket ⟨Nat.pos_of_ne_zero h.1, h.2⟩
  unfold packetRecv
  rw [if_neg (not_not.mpr hprocessing), if_neg (by rw [hopen.recvDisable]; exact Bool.false_ne_true), if_neg hnone, hpending]
  simp only
  rw [if_neg (by omega), if_neg (by omega), if_neg (by omega), hexpand]
  simp only [hopen.sock, if_true, hrecv]
  rw [if_neg (by simp only [length_append, length_replicate]; omega), if_neg (by simp [NtStatus.isErr]),
    if_neg (by simp), if_neg hdata, htake, hdrop, Nat.mod_eq_of_lt (by omega)]

end

/-! ## Runs -/

/-- A connection with what the callback was given so far and what has not been read from the stream. -/
structure Delivery where
  conn : Conn
  delivered : List DataBlob
  unread : List UInt8
  deriving DecidableEq, Repr

/-- What can happen: input on the socket, of which `socket_pending` finds `pending` bytes and at most `count` bytes are read;
a timer of the context that fires; the innermost callback that returns. -/
inductive Arrival
  | readable (pending count : Nat)
  | timer
  | callback
  deriving DecidableEq, Repr

def Delivery.stop (d : Delivery) (r : Stop) (depth : Nat) : Delivery :=
  ⟨r.conn depth, d.delivered ++ r.call.toList, d.unread.drop r.nread⟩

/-- The socket with the rest of the stream. -/
def Delivery.socket (d : Delivery) (pending count : Nat) : SocketIn :=
  ⟨.ok pending, fun wanted => (.ok, d.unread.take (min count wanted))⟩

/-- What an event does to a packet context, with the packets it hands over. -/
def Delivery.step (proto : Protocol) (d : Delivery) : Arrival → Delivery
  | .readable pending count => d.stop (packetRecv proto.fullRequest d.conn.pc (d.socket pending count)) d.conn.depth
  | .timer => d.stop (packetNextEvent proto.fullRequest d.conn.pc (d.socket d.unread.length d.unread.length)) d.conn.depth
  | .callback => d.stop (packetRecvAfter proto.fullRequest d.conn.pc .ok) (d.conn.depth - 1)

/-- When an event can happen. -/
def Delivery.Enabled (d : Delivery) : Arrival → Prop
  | .readable pending count => d.conn.pc.readable = true ∧ 0 < pending ∧ pending ≤ d.unread.length ∧ 0 < count
  | .timer => 0 < d.conn.pc.timers
  | .callback => 0 < d.conn.depth

/-- The connections over which the packets come. -/
def deliverySystem (proto : Protocol) (ev serialise : Bool) (packets : List DataBlob) : System Delivery Arrival where
  init d := d = ⟨⟨packetInit ev serialise, 0⟩, [], packets.flatten⟩
  step d a d' := d.Enabled a ∧ d' = d.step proto a

/-- Where `packet_recv` asks how much there is to read, talloc has a block for it. -/
def Fits (d : Delivery) (a : Arrival) : Prop :=
  match a with
  | .readable pending _ =>
    d.conn.pc.processing = 0 → d.conn.pc.packetSize = 0 → pending + d.conn.pc.numRead < maxTallocSize
  | _ => True

/-- Between two events, with no callback running: the size of the next packet is known once its header has come, and once
it has come a timer is pending. -/
structure Idle (pc : PacketContext) : Prop where
  processing : pc.processing = 0
  sized : 4 ≤ pc.numRead → pc.packetSize ≠ 0
  timer : pc.HasPacket → 0 < pc.timers

/-- The invariant: the packets that were delivered, and the others still to come. -/
structure InOrder (proto : Protocol) (ev : Bool) (packets : List DataBlob) (d : Delivery) : Prop where
  opened : Open ev d.conn.pc
  waiting : ∃ todo, packets = d.delivered ++ todo ∧ Waiting proto d.conn.pc d.unread todo
  watched : d.conn.pc.readable = true ∨ 1 < d.conn.pc.processing
  idle : d.conn.depth = 0 → Idle d.conn.pc

section

variable {ev : Bool} {packets todo : List DataBlob} {pc : PacketContext} {buf : DataBlob} {unread : List UInt8} {d : Delivery}

/-- What `next_partial` does keeps the packets in order. -/
theorem cut_inOrder {r : Stop} {delivered : List DataBlob} {depth : Nat} (hcut : Cut proto pc buf unread todo r)
    (hopen : Open ev pc) (hreadable : pc.readable = true) (hprocessing : pc.processing = 0)
    (hpackets : packets = delivered ++ todo) (hnumRead : pc.numRead = buf.length) (hlt : pc.numRead < maxTallocSize)
    (hstream : buf ++ unread = todo.flatten) (hsize : pc.packetSize = 0 ∨ 4 ≤ pc.numRead) :
    r.nread = 0 ∧ InOrder proto ev packets ⟨r.conn depth, delivered ++ r.call.toList, unread⟩ := by
  obtain ⟨herror, hsock, hdisable, hinitial, hev⟩ := hopen
  cases hcut with
  | @wait packetSize h =>
    refine ⟨rfl, ⟨herror, hsock, hdisable, hinitial, hev⟩, ⟨todo, ?_, hstream, hnumRead, hlt, ?_⟩, .inl hreadable,
      fun _ => ⟨hprocessing, ?_, ?_⟩⟩
    · rw [hpackets]
      exact congrArg (· ++ todo) (append_nil _).symm
    · show packetSize = 0 ∨ 4 ≤ pc.numRead ∧ packetSize = proto.framing.size buf
      omega
    · show 4 ≤ pc.numRead → packetSize ≠ 0
      omega
    · rintro ⟨h0, hle⟩
      simp only [PacketContext.stop, Stop.conn] at h0 hle
      omega
  | @call p ps htodo hp hle hrest =>
    refine ⟨rfl, ⟨herror, hsock, hdisable, hinitial, hev⟩, ⟨ps, ?_, hrest, ?_, ?_, .inl rfl⟩, .inl hreadable, nofun⟩
    · rw [hpackets, htodo, Option.toList_some, append_assoc]
      rfl
    · show pc.numRead - p.length = (buf.drop p.length).length
      rw [length_drop, hnumRead]
    · show pc.numRead - p.length < maxTallocSize
      omega

/-- A function that returns at once, with the buffer as it was. -/
theorem stop_inOrder (hopen : Open ev pc) (hwaiting : Waiting proto pc d.unread todo) (hpackets : packets = d.delivered ++ todo)
    (hwatched : pc.readable = true ∨ 1 < pc.processing) (depth : Nat) (hidle : depth = 0 → Idle pc) :
    InOrder proto ev packets (d.stop pc.stop depth) := by
  refine ⟨hopen, ⟨todo, ?_, hwaiting⟩, hwatched, hidle⟩
  rw [hpackets]
  exact congrArg (· ++ todo) (append_nil _).symm

theorem nextPartial_inOrder (hopen : Open ev pc) (hreadable : pc.readable = true) (hprocessing : pc.processing = 0)
    (hwaiting : Waiting proto pc d.unread todo) (hpackets : packets = d.delivered ++ todo) (htodo : Packets proto todo)
    (h0 : 0 < pc.numRead) (depth : Nat) : InOrder proto ev packets (d.stop (nextPartial proto.fullRequest pc) depth) := by
  obtain ⟨hstream, hnumRead, hlt, hsize⟩ := hwaiting
  have hcut := nextPartial_cut htodo (Nat.le_of_eq hnumRead) (by rw [hnumRead, take_length]) hstream h0 hlt
  obtain ⟨hnread, hinv⟩ := @cut_inOrder _ ev _ _ _ _ _ _ _ depth hcut hopen hreadable hprocessing hpackets hnumRead hlt
    hstream (hsize.imp_right And.left)
  unfold Delivery.stop
  rw [hnread]
  exact hinv

theorem packets_todo {delivered : List DataBlob} (hpackets : Packets proto packets) (h : packets = delivered ++ todo) :
    Packets proto todo :=
  ⟨fun p hp => hpackets.isFrame p (by rw [h]; exact mem_append_right _ hp),
    fun p hp => hpackets.length_lt p (by rw [h]; exact mem_append_right _ hp)⟩

theorem readable_inOrder (hpackets : Packets proto packets) (h : InOrder proto ev packets d) {pending count : Nat}
    (henabled : d.Enabled (.readable pending count)) (hfits : Fits d (.readable pending count)) :
    InOrder proto ev packets (d.step proto (.readable pending count)) := by
  obtain ⟨hreadable, hpending, hle, hcount⟩ := henabled
  obtain ⟨todo, htodo, hwaiting⟩ := h.waiting
  have hrest := packets_todo hpackets htodo
  show InOrder proto ev packets (d.stop (packetRecv proto.fullRequest d.conn.pc (d.socket pending count)) d.conn.depth)
  by_cases hprocessing : d.conn.pc.processing = 0
  swap
  · -- a packet is being processed, and input is no longer watched for
    rw [packetRecv_processing hprocessing]
    refine stop_inOrder ?_ ?_ htodo (.inr (Nat.succ_lt_succ (Nat.pos_of_ne_zero hprocessing))) _
      fun hd => absurd (h.idle hd).processing hprocessing
    · exact ⟨h.opened.1, h.opened.2, h.opened.3, h.opened.4, h.opened.5⟩
    · exact ⟨hwaiting.1, hwaiting.2, hwaiting.3, hwaiting.4⟩
  by_cases hpacket : d.conn.pc.HasPacket
  · rw [packetRecv_hasPacket hprocessing h.opened.recvDisable hpacket]
    exact nextPartial_inOrder h.opened hreadable hprocessing hwaiting htodo hrest (Nat.lt_of_lt_of_le hpacket.1 hpacket.2) _
  obtain ⟨hstream, hnumRead, hlt, hsize⟩ := hwaiting
  obtain ⟨npending, hnpending, hpos, hroom⟩ : ∃ npending, packetPending d.conn.pc (d.socket pending count) = .ok npending ∧
      0 < npending ∧ npending + d.conn.pc.numRead < maxTallocSize := by
    by_cases hknown : d.conn.pc.packetSize = 0
    · refine ⟨pending, ?_, hpending, hfits hprocessing hknown⟩
      rw [packetPending, if_neg (not_not.mpr hknown), if_neg (not_not.mpr h.opened.initialRead), if_pos h.opened.sock]
      rfl
    · -- the size of the packet that has begun is known
      obtain ⟨h4, hsize⟩ := hsize.resolve_left hknown
      obtain ⟨p, ps, rfl, hp, -⟩ := Framing.head_frame hstream hrest.isFrame (by rw [Protocol.header_eq]; omega)
      have hlength := hrest.length_lt p (by simp)
      have hmore : d.conn.pc.numRead < d.conn.pc.packetSize :=
        Nat.lt_of_not_le fun hge => hpacket ⟨Nat.pos_of_ne_zero hknown, hge⟩
      refine ⟨d.conn.pc.packetSize - d.conn.pc.numRead, ?_, by omega, by omega⟩
      rw [packetPending, if_pos hknown]
  have hdata : (d.unread.take (min count npending)).length = min (min count npending) d.unread.length := length_take
  rw [packetRecv_reads proto.fullRequest npending (d.unread.take (min count npending)) h.opened hprocessing hnumRead hpacket
    hnpending hpos hroom rfl (fun hnil => by rw [hnil, length_nil] at hdata; omega) (by omega)]
  generalize hread : d.unread.take (min count npending) = data at hdata ⊢
  have hunread : data ++ d.unread.drop data.length = d.unread := by
    conv_rhs => rw [← take_append_drop (min count npending) d.unread, hread]
    rw [hdata, ← drop_eq_drop_min]
  have hlen : (d.conn.pc.partialBlob ++ data).length = d.conn.pc.numRead + data.length := by
    rw [length_append, hnumRead]
  have hstream' : (d.conn.pc.partialBlob ++ data) ++ d.unread.drop data.length = todo.flatten := by
    rw [append_assoc, hunread, hstream]
  generalize hpc : ({ d.conn.pc with
    partialBlob := d.conn.pc.partialBlob ++ data ++ (List.replicate npending 0).drop data.length
    numRead := d.conn.pc.numRead + data.length } : PacketContext) = pc
  have hnumRead' : pc.numRead = (d.conn.pc.partialBlob ++ data).length := by rw [hlen, ← hpc]
  have hopen : Open ev pc := hpc ▸ ⟨h.opened.1, h.opened.2, h.opened.3, h.opened.4, h.opened.5⟩
  have hreadable' : pc.readable = true := by rw [← hpc]; exact hreadable
  have hprocessing' : pc.processing = 0 := by rw [← hpc]; exact hprocessing
  have hsize' : pc.packetSize = 0 ∨ 4 ≤ pc.numRead := by
    rw [hnumRead', hlen, ← hpc]
    simp only
    omega
  have hbuf : pc.partialBlob.take pc.numRead = d.conn.pc.partialBlob ++ data := by
    rw [hnumRead', ← hpc]
    exact take_left' rfl
  have hle' : pc.numRead ≤ pc.partialBlob.length := by
    rw [hnumRead', ← hpc, @length_append _ (_ ++ data)]
    exact Nat.le_add_right ..
  exact (cut_inOrder (nextPartial_cut hrest hle' hbuf hstream' (by omega) (by omega)) hopen hreadable' hprocessing' htodo
    hnumRead' (by omega) hstream' hsize').2

theorem timer_inOrder (hpackets : Packets proto packets) (h : InOrder proto ev packets d) :
    InOrder proto ev packets (d.step proto .timer) := by
  obtain ⟨todo, htodo, hwaiting⟩ := h.waiting
  show InOrder proto ev packets (d.stop (packetNextEvent proto.fullRequest d.conn.pc _) d.conn.depth)
  unfold packetNextEvent
  generalize hpc : ({ d.conn.pc with timers := d.conn.pc.timers - 1 } : PacketContext) = pc
  have hwaiting' : Waiting proto pc d.unread todo := hpc ▸ ⟨hwaiting.1, hwaiting.2, hwaiting.3, hwaiting.4⟩
  have hopen : Open ev pc := hpc ▸ ⟨h.opened.1, h.opened.2, h.opened.3, h.opened.4, h.opened.5⟩
  have hwatched : pc.readable = true ∨ 1 < pc.processing := by rw [← hpc]; exact h.watched
  have hidle : d.conn.depth = 0 → pc.processing = 0 ∧ (4 ≤ pc.numRead → pc.packetSize ≠ 0) := by
    rw [← hpc]
    exact fun hd => ⟨(h.idle hd).processing, (h.idle hd).sized⟩
  by_cases hpacket : pc.HasPacket
  · have hpos := Nat.lt_of_lt_of_le hpacket.1 hpacket.2
    simp only
    rw [if_pos ⟨Nat.ne_of_gt hpos, Nat.ne_of_gt hpacket.1, hpacket.2⟩]
    by_cases hprocessing : pc.processing = 0
    · rw [packetRecv_hasPacket hprocessing hopen.recvDisable hpacket]
      exact nextPartial_inOrder hopen (hwatched.resolve_right (by omega)) hprocessing hwaiting' htodo
        (packets_todo hpackets htodo) hpos _
    · rw [packetRecv_processing hprocessing]
      refine stop_inOrder ?_ ?_ htodo (.inr (Nat.succ_lt_succ (Nat.pos_of_ne_zero hprocessing))) _
        fun hd => absurd (hidle hd).1 hprocessing
      · exact ⟨hopen.1, hopen.2, hopen.3, hopen.4, hopen.5⟩
      · exact ⟨hwaiting'.1, hwaiting'.2, hwaiting'.3, hwaiting'.4⟩
  · have hnone : ¬(pc.numRead ≠ 0 ∧ pc.packetSize ≠ 0 ∧ pc.packetSize ≤ pc.numRead) :=
      fun hp => hpacket ⟨Nat.pos_of_ne_zero hp.2.1, hp.2.2⟩
    simp only
    rw [if_neg hnone]
    exact stop_inOrder hopen hwaiting' htodo hwatched _ fun hd => ⟨(hidle hd).1, (hidle hd).2, fun hp => absurd hp hpacket⟩

/-- Input that came while a packet was processed is watched for again. -/
theorem processed_readable (h : pc.readable = true ∨ 1 < pc.processing) : pc.processed.readable = true := by
  unfold PacketContext.processed
  by_cases hprocessing : pc.processing = 0
  · rw [if_neg (not_not.mpr hprocessing)]
    exact h.resolve_right (by omega)
  · rw [if_pos hprocessing]
    by_cases hmore : 1 < pc.processing
    · exact if_pos hmore
    · exact (if_neg hmore).trans (h.resolve_right hmore)

theorem callback_inOrder (hpackets : Packets proto packets) (h : InOrder proto ev packets d) :
    InOrder proto ev packets (d.step proto .callback) := by
  obtain ⟨todo, htodo, hwaiting⟩ := h.waiting
  have hrest := packets_todo hpackets htodo
  show InOrder proto ev packets (d.stop (packetRecvAfter proto.fullRequest d.conn.pc .ok) (d.conn.depth - 1))
  unfold packetRecvAfter
  rw [PacketContext.processed_eq, processed_readable h.watched]
  generalize hpc : ({ d.conn.pc with readable := true, processing := 0 } : PacketContext) = pc
  have hopen : Open ev pc := hpc ▸ ⟨h.opened.1, h.opened.2, h.opened.3, h.opened.4, h.opened.5⟩
  have hwaiting' : Waiting proto pc d.unread todo := hpc ▸ ⟨hwaiting.1, hwaiting.2, hwaiting.3, hwaiting.4⟩
  have hreadable : pc.readable = true := hpc ▸ rfl
  have hprocessing : pc.processing = 0 := hpc ▸ rfl
  clear hpc
  obtain ⟨hstream, hnumRead, hlt, hsize⟩ := hwaiting'
  simp only [ne_eq, not_true_eq_false, if_false]
  by_cases hempty : pc.partialBlob.length = 0
  · rw [if_pos hempty]
    refine stop_inOrder hopen ⟨hstream, hnumRead, hlt, hsize⟩ htodo (.inl hreadable) _ fun _ => ⟨hprocessing, by omega, ?_⟩
    rintro ⟨h0, hle⟩
    omega
  rw [if_neg hempty]
  cases hev : pc.ev with
  | false => exact nextPartial_inOrder hopen hreadable hprocessing ⟨hstream, hnumRead, hlt, hsize⟩ htodo hrest (by omega) _
  | true =>
    have htake : pc.partialBlob.take pc.numRead = pc.partialBlob := by rw [hnumRead, take_length]
    obtain ⟨herror, hsock, hdisable, hinitial, hopen'⟩ := hopen
    have htrue := hev.symm.trans hopen'
    simp only [Bool.not_true, Bool.false_eq_true, if_false, Protocol.fullRequest_eq, packetFullRequest, htake, ← hnumRead]
    by_cases h4 : pc.numRead < 4
    · simp only [if_pos h4, NtStatus.isErr, Bool.false_eq_true, if_false, reduceCtorEq, not_false_eq_true, if_true]
      refine stop_inOrder ?_ ?_ htodo ?_ _ fun _ => ?_
      · exact ⟨herror, hsock, hdisable, hinitial, htrue⟩
      · exact ⟨hstream, hnumRead, hlt, hsize⟩
      · exact .inl hreadable
      · refine ⟨hprocessing, fun h => absurd h4 (Nat.not_lt_of_le h), ?_⟩
        rintro ⟨h0, hle⟩
        simp only [Option.getD_none] at h0 hle
        omega
    obtain ⟨p, ps, rfl, hfirst, hpos⟩ := Framing.head_frame hstream hrest.isFrame (by rw [Protocol.header_eq]; omega)
    have hcomputed : proto.size pc.partialBlob = proto.framing.size pc.partialBlob :=
      Protocol.size_eq (by rw [hfirst]; exact hrest.length_lt p (by simp))
    have hne : proto.size pc.partialBlob ≠ 0 := by omega
    rw [if_neg h4]
    by_cases hmore : pc.numRead < proto.size pc.partialBlob
    · simp only [if_pos hmore, NtStatus.isErr, Bool.false_eq_true, if_false, reduceCtorEq, not_false_eq_true, if_true]
      refine stop_inOrder ?_ ?_ htodo ?_ _ fun _ => ?_
      · exact ⟨herror, hsock, hdisable, hinitial, htrue⟩
      · exact ⟨hstream, hnumRead, hlt, .inr ⟨Nat.le_of_not_lt h4, hcomputed⟩⟩
      · exact .inl hreadable
      · exact ⟨hprocessing, fun _ => hne, fun hp => absurd hp.2 (Nat.not_le_of_lt hmore)⟩
    · simp only [if_neg hmore, NtStatus.isErr, Bool.false_eq_true, if_false, not_true_eq_false]
      refine stop_inOrder ?_ ?_ htodo ?_ _ fun _ => ?_
      · exact ⟨herror, hsock, hdisable, hinitial, htrue⟩
      · exact ⟨hstream, hnumRead, hlt, .inr ⟨Nat.le_of_not_lt h4, hcomputed⟩⟩
      · exact .inl hreadable
      · exact ⟨hprocessing, fun _ => hne, fun _ => Nat.succ_pos _⟩

end

/-! ## What the callback gets -/

/-- The packets reach the callback in order, each once, and while nothing is pending the buffer has the bytes after the last of
them that have been read, and no complete packet. -/
structure DeliveredInOrder (proto : Protocol) (packets : List DataBlob) (d : Delivery) : Prop where
  error : d.conn.pc.error = none
  delivered : d.delivered <+: packets
  settled : d.conn.depth = 0 → d.conn.pc.timers = 0 →
    d.conn.pc.readable = true ∧ d.conn.pc.partialBlob.length = d.conn.pc.numRead ∧
      d.delivered.flatten ++ d.conn.pc.partialBlob ++ d.unread = packets.flatten ∧
      ¬ proto.framing.Complete d.conn.pc.partialBlob
  all : d.conn.depth = 0 → d.conn.pc.timers = 0 → d.unread = [] → d.delivered = packets

theorem inOrder_deliveredInOrder {ev : Bool} {packets : List DataBlob} {d : Delivery} (hpackets : Packets proto packets)
    (h : InOrder proto ev packets d) : DeliveredInOrder proto packets d := by
  obtain ⟨todo, htodo, hstream, hnumRead, -, hsize⟩ := h.waiting
  have hsettled : d.conn.depth = 0 → d.conn.pc.timers = 0 → ¬ proto.framing.Complete d.conn.pc.partialBlob := by
    rintro hdepth htimers ⟨hheader, hcomplete⟩
    rw [Protocol.header_eq, ← hnumRead] at hheader
    have hidle := h.idle hdepth
    obtain ⟨-, hknown⟩ := hsize.resolve_left (hidle.sized hheader)
    have := hidle.timer ⟨Nat.pos_of_ne_zero (hidle.sized hheader), by omega⟩
    omega
  refine ⟨h.opened.error, ⟨todo, htodo.symm⟩, ?_, ?_⟩
  · intro hdepth htimers
    have hprocessing := (h.idle hdepth).processing
    refine ⟨h.watched.resolve_right (by omega), hnumRead.symm, ?_, hsettled hdepth htimers⟩
    rw [htodo, append_assoc, hstream, flatten_append]
  · intro hdepth htimers hunread
    rw [hunread, append_nil] at hstream
    rw [htodo, Framing.frames_nil hstream (packets_todo hpackets htodo).isFrame (hsettled hdepth htimers), append_nil]

/-- Packets that talloc has room for are delivered once and in order in every run in which talloc has room for what
`socket_pending` finds. -/
theorem packets_deliveredInOrder (proto : Protocol) (ev serialise : Bool) {packets : List DataBlob}
    (hpackets : Packets proto packets) {d : Delivery}
    (h : ((deliverySystem proto ev serialise packets).restrict Fits).Reachable d) : DeliveredInOrder proto packets d := by
  refine @inOrder_deliveredInOrder _ ev _ _ hpackets
    (@System.Reachable.invariant _ _ _ (InOrder proto ev packets) ?_ ?_ _ h)
  · rintro _ rfl
    have hmax : 0 < maxTallocSize := by decide
    refine ⟨⟨rfl, rfl, rfl, rfl, rfl⟩, ⟨packets, rfl, rfl, rfl, hmax, .inl rfl⟩, .inl rfl, fun _ => ⟨rfl, nofun, ?_⟩⟩
    exact fun hp => absurd hp.1 (Nat.lt_irrefl 0)
  · rintro d a _ hd ⟨hfits, henabled, rfl⟩
    cases a with
    | readable pending count => exact readable_inOrder hpackets hd henabled hfits
    | timer => exact timer_inOrder hpackets hd
    | callback => exact callback_inOrder hpackets hd

def firstDelivery (ev serialise : Bool) (packets : List DataBlob) : Delivery :=
  ⟨⟨packetInit ev serialise, 0⟩, [], packets.flatten⟩

/-- Two packets, the second of which has come in part. -/
theorem packets_deliveredInOrder_sample :
    DeliveredInOrder .u32 [[0, 0, 0, 0], [0, 0, 0, 1, 7]]
      ([Arrival.readable 6 6, .readable 3 1, .callback, .readable 2 1].foldl (Delivery.step .u32)
        (firstDelivery true true [[0, 0, 0, 0], [0, 0, 0, 1, 7]])) := by
  have hpackets : Packets .u32 [[0, 0, 0, 0], [0, 0, 0, 1, 7]] :=
    ⟨by simpa using ⟨⟨by decide, by decide⟩, ⟨by decide, by decide⟩⟩, by decide⟩
  refine packets_deliveredInOrder .u32 true true hpackets (.step (.readable 2 1) (.step .callback (.step (.readable 3 1)
    (.step (.readable 6 6) (.init rfl) ⟨?_, ?_, rfl⟩) ⟨?_, ?_, rfl⟩) ⟨trivial, ?_, rfl⟩) ⟨?_, ?_, rfl⟩)
  all_goals first | (unfold Fits; decide) | (unfold Delivery.Enabled; decide)

/-- The header of a packet of `MAX_TALLOC_SIZE` bytes. -/
def largeHeader : DataBlob := [0x0f, 0xff, 0xff, 0xfc]

/-- A packet for which talloc has no block: the connection is given up once its header has come. -/
def largePacket : DataBlob := largeHeader ++ List.replicate 0xffffffc 0

theorem largePacket_isFrame : Protocol.u32.framing.IsFrame largePacket := by
  have hlen : largePacket.length = 0x10000000 := by
    rw [largePacket, length_append, length_replicate]
    simp [largeHeader]
  refine ⟨?_, ?_⟩
  · rw [hlen]
    decide
  · rw [hlen, largePacket, Framing.size_append _ _ _ (by decide)]
    decide

/-- The context once the header is in the buffer. -/
def largeContext : PacketContext :=
  { packetInit false false with partialBlob := largeHeader, numRead := 4, packetSize := 0x10000000 }

theorem largeHeader_step (tail : List UInt8) :
    Delivery.step .u32 ⟨⟨packetInit false false, 0⟩, [], largeHeader ++ tail⟩ (.readable 4 4) =
      ⟨⟨largeContext, 0⟩, [], tail⟩ := by
  have hread : packetRecv packetFullRequestU32 (packetInit false false)
      (Delivery.socket ⟨⟨packetInit false false, 0⟩, [], largeHeader ++ tail⟩ 4 4) =
        { nextPartial packetFullRequestU32 { packetInit false false with partialBlob := largeHeader, numRead := 4 } with
          nread := 4 } :=
    packetRecv_reads packetFullRequestU32 4 largeHeader (⟨rfl, rfl, rfl, rfl, rfl⟩ : Open false _) rfl rfl (by decide) rfl
      (by decide) (by decide) rfl (by decide) (by decide)
  have hnext : nextPartial packetFullRequestU32 { packetInit false false with partialBlob := largeHeader, numRead := 4 } =
      largeContext.stop := by decide
  show Delivery.stop _ (packetRecv packetFullRequestU32 (packetInit false false) _) 0 = _
  rw [hread, hnext]
  rfl

theorem largeContext_error (tail : List UInt8) :
    (Delivery.step .u32 ⟨⟨largeContext, 0⟩, [], tail⟩ (.readable 1 1)).conn.pc.error = some ntStatusNoMemory := by
  simp only [Delivery.step, Delivery.stop, Stop.conn, packetRecv, packetPending]
  simp [largeContext, largeHeader, packetInit, dataBlobRealloc, maxTallocSize, packetError, PacketContext.stop]

theorem largePacket_not_delivered :
    ¬ ∀ (proto : Protocol) (ev serialise : Bool) (packets : List DataBlob), (∀ p ∈ packets, proto.framing.IsFrame p) →
      ∀ d, (deliverySystem proto ev serialise packets).Reachable d → DeliveredInOrder proto packets d := by
  intro h
  obtain ⟨tail, hlarge, hlen⟩ : ∃ tail, largePacket = largeHeader ++ tail ∧ 0 < tail.length :=
    ⟨_, rfl, by rw [length_replicate]; omega⟩
  have hframe := largePacket_isFrame
  generalize largePacket = packet at hlarge hframe
  have hstart : (deliverySystem .u32 false false [packet]).Reachable
      ⟨⟨packetInit false false, 0⟩, [], largeHeader ++ tail⟩ :=
    .init (by rw [hlarge]; simp [deliverySystem])
  have hhead : 4 ≤ (largeHeader ++ tail).length := by
    rw [length_append]
    exact Nat.le_add_right ..
  have hheader : (deliverySystem .u32 false false [packet]).Reachable ⟨⟨largeContext, 0⟩, [], tail⟩ :=
    .step (.readable 4 4) hstart ⟨⟨rfl, by decide, hhead, by decide⟩, (largeHeader_step tail).symm⟩
  have hmore : (deliverySystem .u32 false false [packet]).Reachable
      (Delivery.step .u32 ⟨⟨largeContext, 0⟩, [], tail⟩ (.readable 1 1)) :=
    .step (.readable 1 1) hheader ⟨⟨rfl, by decide, hlen, by decide⟩, rfl⟩
  have herror := (h .u32 false false [packet] (by simpa using hframe) _ hmore).error
  exact absurd ((largeContext_error tail).symm.trans herror) nofun

end Samba.Stream
