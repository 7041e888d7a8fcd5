/-
Packets that wait while receiving is disabled: a complete packet in the buffer has a timer that will have it processed, as
long as `packet_recv_enable` is not called where the buffer has more than that packet and the timer has already fired.
-/
import Samba.Stream.Packet
import Samba.Lib.Transition

namespace Samba.Stream

open Transition

/-! ## What the functions leave -/

/-- What is read is in the buffer, and a size that is known is that of a whole header. -/
structure Held (pc : PacketContext) : Prop where
  numRead_le : pc.numRead ≤ pc.partialBlob.length
  packetSize : pc.packetSize = 0 ∨ 4 ≤ pc.packetSize

/-- What a function of the packet layer does to a context that is held, unless it fails: if it returns, there is no complete
packet in the buffer. -/
structure Settles (pc : PacketContext) (r : Stop) : Prop where
  held : Held r.pc
  ev : r.pc.ev = pc.ev
  recvDisable : r.pc.recvDisable = pc.recvDisable
  timers : r.pc.timers = pc.timers
  returned : r.call = none → r.pc.processing = pc.processing ∧ ¬ r.pc.HasPacket

section

variable {size : DataBlob → Nat} {pc : PacketContext}

theorem nextPartial_settles (hsize : ∀ blob, 4 ≤ size blob) (h : Held pc)
    (herror : (nextPartial (packetFullRequest size) pc).pc.error = none) :
    Settles pc (nextPartial (packetFullRequest size) pc) := by
  have hlen : (pc.partialBlob.take pc.numRead).length = pc.numRead := List.length_take_of_le h.numRead_le
  have hcases := @nextPartial_cases size _ h.numRead_le
  generalize nextPartial (packetFullRequest size) pc = r at hcases herror ⊢
  cases hcases with
  | failed => cases herror
  | header h4 =>
    have hnone : ¬ PacketContext.HasPacket { pc with partialBlob := pc.partialBlob.take pc.numRead } := by
      rintro ⟨h0, hle⟩
      have := h.packetSize
      simp only at h0 hle
      omega
    exact ⟨⟨Nat.le_of_eq hlen.symm, h.packetSize⟩, rfl, rfl, rfl, fun _ => ⟨rfl, hnone⟩⟩
  | more h4 hmore =>
    exact ⟨⟨Nat.le_of_eq hlen.symm, .inr (hsize _)⟩, rfl, rfl, rfl, fun _ => ⟨rfl, fun hp => absurd hp.2 (Nat.not_le_of_lt hmore)⟩⟩
  | call h4 hcall =>
    exact ⟨⟨Nat.le_of_eq (by rw [List.length_drop, hlen]), .inl rfl⟩, rfl, rfl, rfl, nofun⟩

theorem packetRecv_settles (hsize : ∀ blob, 4 ≤ size blob) (h : Held pc) (hprocessing : pc.processing = 0)
    (hdisable : pc.recvDisable = false) (sock : SocketIn)
    (herror : (packetRecv (packetFullRequest size) pc sock).pc.error = none) :
    Settles pc (packetRecv (packetFullRequest size) pc sock) := by
  revert herror
  unfold packetRecv
  rw [if_neg (not_not.mpr hprocessing), if_neg (by rw [hdisable]; exact Bool.false_ne_true)]
  by_cases hpacket : pc.packetSize ≠ 0 ∧ pc.packetSize ≤ pc.numRead
  · rw [if_pos hpacket]
    exact nextPartial_settles hsize h
  rw [if_neg hpacket]
  have hnone : ¬ pc.HasPacket := fun hp => hpacket ⟨Nat.ne_of_gt hp.1, hp.2⟩
  cases packetPending pc sock with
  | error status => exact nofun
  | ok npending =>
    simp only
    by_cases h0 : npending = 0
    · rw [if_pos h0]
      exact nofun
    rw [if_neg h0]
    split
    · exact nofun
    split
    · exact nofun
    cases hexpand : (if pc.partialBlob.length < npending + pc.numRead then
        dataBlobRealloc pc.partialBlob (npending + pc.numRead) else some pc.partialBlob) with
    | none => exact nofun
    | some blob =>
      simp only
      by_cases hroom : blob.length < pc.numRead + npending
      · rw [if_pos hroom]
        exact nofun
      rw [if_neg hroom]
      rcases (if pc.sock then sock.recv npending else (ntStatusConnectionDisconnected, [])) with ⟨status, data⟩
      simp only
      by_cases herr : status.isErr
      · rw [if_pos herr]
        exact nofun
      rw [if_neg herr]
      by_cases hok : status ≠ .ok
      · -- the socket has nothing after all
        rw [if_pos hok]
        exact fun _ => ⟨⟨by simp only [PacketContext.stop]; omega, h.packetSize⟩, rfl, rfl, rfl, fun _ => ⟨rfl, hnone⟩⟩
      rw [if_neg hok]
      by_cases hdata : data = []
      · rw [if_pos hdata]
        exact nofun
      rw [if_neg hdata]
      intro herror
      have hheld : Held { pc with
          partialBlob := blob.take pc.numRead ++ data ++ blob.drop (pc.numRead + data.length)
          numRead := (pc.numRead + data.length) % 2 ^ 32 } := by
        refine ⟨?_, h.packetSize⟩
        have := Nat.mod_le (pc.numRead + data.length) (2 ^ 32)
        simp only [List.length_append, List.length_take]
        omega
      obtain ⟨hheld', hev, hdis, htimers, hreturned⟩ := nextPartial_settles hsize hheld herror
      exact ⟨hheld', hev, hdis, htimers, hreturned⟩

/-- After the callback of a context with an event context, a complete packet that is left has a timer. -/
theorem packetRecvAfter_settles (h : Held pc) (hsize : ∀ blob, 4 ≤ size blob) (hev : pc.ev = true) (status : NtStatus)
    (herror : (packetRecvAfter (packetFullRequest size) pc status).pc.error = none) :
    let r := packetRecvAfter (packetFullRequest size) pc status
    r.call = none ∧ Held r.pc ∧ r.pc.ev = true ∧ r.pc.recvDisable = pc.recvDisable ∧ r.pc.processing = 0 ∧
      (r.pc.HasPacket → 0 < r.pc.timers) := by
  revert herror
  unfold packetRecvAfter
  rw [PacketContext.processed_eq]
  generalize pc.processed.readable = readable
  obtain ⟨hle, hpacket⟩ := h
  by_cases hstatus : status ≠ .ok
  · simp only [if_pos hstatus]
    exact nofun
  simp only [if_neg hstatus, hev, Bool.not_true, Bool.false_eq_true, if_false]
  by_cases hempty : pc.partialBlob.length = 0
  · rw [if_pos hempty]
    intro _
    refine ⟨rfl, ⟨hle, hpacket⟩, rfl, rfl, rfl, ?_⟩
    rintro ⟨h0, hp⟩
    simp only [PacketContext.stop] at h0 hp
    omega
  rw [if_neg hempty]
  simp only [packetFullRequest, List.length_take_of_le hle]
  by_cases h4 : pc.numRead < 4
  · simp only [if_pos h4, NtStatus.isErr, Bool.false_eq_true, if_false, ne_eq, reduceCtorEq, not_false_eq_true, if_true]
    intro _
    refine ⟨rfl, ⟨hle, hpacket⟩, rfl, rfl, rfl, ?_⟩
    rintro ⟨h0, hp⟩
    simp only [PacketContext.stop, Option.getD_none] at h0 hp
    omega
  rw [if_neg h4]
  by_cases hmore : pc.numRead < size (pc.partialBlob.take pc.numRead)
  · simp only [if_pos hmore, NtStatus.isErr, Bool.false_eq_true, if_false, ne_eq, reduceCtorEq, not_false_eq_true, if_true]
    intro _
    exact ⟨rfl, ⟨hle, .inr (hsize _)⟩, rfl, rfl, rfl, fun hp => absurd hp.2 (Nat.not_le_of_lt hmore)⟩
  · simp only [if_neg hmore, NtStatus.isErr, Bool.false_eq_true, if_false, ne_eq, not_true_eq_false]
    intro _
    exact ⟨rfl, ⟨hle, .inr (hsize _)⟩, rfl, rfl, rfl, fun _ => Nat.succ_pos _⟩

end

/-! ## Runs -/

/-- What can happen: input on the socket, a timer of the context that fires, the innermost callback that returns, and
callers that disable and enable receiving. -/
inductive Event
  | readable (sock : SocketIn)
  | timer (sock : SocketIn)
  | callback (status : NtStatus)
  | disable
  | enable

variable (fullRequest : FullRequest)

/-- What an event does to a connection. -/
def Conn.step (c : Conn) : Event → Conn
  | .readable sock => (packetRecv fullRequest c.pc sock).conn c.depth
  | .timer sock => (packetNextEvent fullRequest c.pc sock).conn c.depth
  | .callback status => (packetRecvAfter fullRequest c.pc status).conn (c.depth - 1)
  | .disable => { c with pc := packetRecvDisable c.pc }
  | .enable => { c with pc := packetRecvEnable c.pc }

/-- When an event can happen. After an error the connection is the error handler's, and nothing more happens. -/
def Conn.Enabled (c : Conn) : Event → Prop
  | .timer _ => c.pc.error = none ∧ 0 < c.pc.timers
  | .callback _ => c.pc.error = none ∧ 0 < c.depth
  | _ => c.pc.error = none

/-- The connections over NBT with an event context. -/
def connSystem (serialise : Bool) (initialRead : Nat) : System Conn Event where
  init c := c = ⟨{ packetInit true serialise with initialRead := initialRead }, 0⟩
  step c e c' := c.Enabled e ∧ c' = c.step packetFullRequestNbt e

/-- A packet that waits has been forgotten: receiving is enabled, no packet is being processed, and the buffer has a complete
packet for which no timer is pending. -/
def Conn.Stranded (c : Conn) : Prop :=
  c.pc.error = none ∧ c.pc.recvDisable = false ∧ c.depth = 0 ∧ c.pc.HasPacket ∧ c.pc.timers = 0

/-- What keeps a packet from being forgotten. -/
structure Woken (c : Conn) : Prop where
  held : Held c.pc
  ev : c.pc.ev = true
  idle : c.depth = 0 → c.pc.processing = 0
  timer : c.depth = 0 → c.pc.recvDisable = false → c.pc.HasPacket → 0 < c.pc.timers

/-- Enabling wakes a packet that waits: not where the buffer has more than that packet and no timer is pending. -/
def Wakes (c : Conn) (e : Event) : Prop :=
  match e with
  | .enable => ¬(c.depth = 0 ∧ 0 < c.pc.packetSize ∧ c.pc.packetSize < c.pc.numRead ∧ c.pc.timers = 0)
  | _ => True

theorem packetSize_nbt (blob : DataBlob) : 4 ≤ 4 + smbLen blob := Nat.le_add_right ..

section

variable {c : Conn} {sock : SocketIn}

/-- Where `packet_recv` looks at the buffer, it leaves no packet behind that nobody waits for. -/
theorem packetRecv_woken (hheld : Held c.pc) (hev : c.pc.ev = true) (hprocessing : c.pc.processing = 0)
    (hdisable : c.pc.recvDisable = false) (herror : (packetRecv packetFullRequestNbt c.pc sock).pc.error = none) :
    Woken ((packetRecv packetFullRequestNbt c.pc sock).conn c.depth) := by
  obtain ⟨hheld', hev', -, -, hreturned⟩ := packetRecv_settles packetSize_nbt hheld hprocessing hdisable sock herror
  cases hcall : (packetRecv packetFullRequestNbt c.pc sock).call with
  | none =>
    obtain ⟨hprocessing', hnone⟩ := hreturned hcall
    exact ⟨hheld', hev'.trans hev, fun _ => hprocessing'.trans hprocessing, fun _ _ hp => absurd hp hnone⟩
  | some packet =>
    have hdepth : ((packetRecv packetFullRequestNbt c.pc sock).conn c.depth).depth = c.depth + 1 := by
      simp only [Stop.conn, hcall, Option.isSome_some, if_true]
    refine ⟨hheld', hev'.trans hev, ?_, ?_⟩
    · rw [hdepth]
      exact fun h => absurd h (Nat.succ_ne_zero _)
    · rw [hdepth]
      exact fun h => absurd h (Nat.succ_ne_zero _)

theorem readable_woken (h : Woken c) (herror : (c.step packetFullRequestNbt (.readable sock)).pc.error = none) :
    Woken (c.step packetFullRequestNbt (.readable sock)) := by
  by_cases hprocessing : c.pc.processing = 0
  · cases hdisable : c.pc.recvDisable with
    | false => exact packetRecv_woken h.held h.ev hprocessing hdisable herror
    | true =>
      simp only [Conn.step, packetRecv_disabled hprocessing hdisable]
      exact ⟨⟨h.held.1, h.held.2⟩, h.ev, h.idle, h.timer⟩
  · simp only [Conn.step, packetRecv_processing hprocessing]
    exact ⟨⟨h.held.1, h.held.2⟩, h.ev, fun hd => absurd (h.idle hd) hprocessing, h.timer⟩

theorem timer_woken (h : Woken c) (herror : (c.step packetFullRequestNbt (.timer sock)).pc.error = none) :
    Woken (c.step packetFullRequestNbt (.timer sock)) := by
  let fired : Conn := ⟨{ c.pc with timers := c.pc.timers - 1 }, c.depth⟩
  have hheld : Held fired.pc := ⟨h.held.1, h.held.2⟩
  by_cases hpacket : c.pc.numRead ≠ 0 ∧ c.pc.packetSize ≠ 0 ∧ c.pc.packetSize ≤ c.pc.numRead
  · have hstep : c.step packetFullRequestNbt (.timer sock) = (packetRecv packetFullRequestNbt fired.pc sock).conn fired.depth := by
      simp only [Conn.step, packetNextEvent, if_pos hpacket, fired]
    rw [hstep] at herror ⊢
    by_cases hprocessing : c.pc.processing = 0
    · cases hdisable : c.pc.recvDisable with
      | false => exact packetRecv_woken (c := fired) hheld h.ev hprocessing hdisable herror
      | true =>
        -- the timer is gone, but receiving is disabled
        rw [@packetRecv_disabled fired.pc _ _ hprocessing hdisable]
        exact ⟨⟨h.held.1, h.held.2⟩, h.ev, h.idle, fun _ hd => absurd (hdisable.symm.trans hd) nofun⟩
    · rw [@packetRecv_processing fired.pc _ _ hprocessing]
      exact ⟨⟨h.held.1, h.held.2⟩, h.ev, fun hd => absurd (h.idle hd) hprocessing, fun hd => absurd (h.idle hd) hprocessing⟩
  · have hstep : c.step packetFullRequestNbt (.timer sock) = fired := by
      simp only [Conn.step, packetNextEvent, if_neg hpacket, fired]
      rfl
    rw [hstep]
    refine ⟨hheld, h.ev, h.idle, fun _ _ hp => absurd ?_ hpacket⟩
    obtain ⟨h0, hle⟩ := hp
    exact ⟨Nat.ne_of_gt (Nat.lt_of_lt_of_le h0 hle), Nat.ne_of_gt h0, hle⟩

theorem callback_woken (h : Woken c) {status : NtStatus}
    (herror : (c.step packetFullRequestNbt (.callback status)).pc.error = none) :
    Woken (c.step packetFullRequestNbt (.callback status)) := by
  obtain ⟨hcall, hheld, hev, hdisable, hprocessing, htimer⟩ :=
    packetRecvAfter_settles h.held packetSize_nbt h.ev status herror
  exact ⟨hheld, hev, fun _ => hprocessing, fun _ _ => htimer⟩

theorem enable_woken (h : Woken c) (hwakes : Wakes c .enable) : Woken (c.step packetFullRequestNbt .enable) := by
  simp only [Conn.step, packetRecvEnable]
  by_cases hadd : c.pc.numRead ≠ 0 ∧ c.pc.numRead ≤ c.pc.packetSize
  · rw [if_pos hadd]
    exact ⟨⟨h.held.1, h.held.2⟩, h.ev, h.idle, fun _ _ _ => Nat.succ_pos _⟩
  · rw [if_neg hadd]
    refine ⟨⟨h.held.1, h.held.2⟩, h.ev, h.idle, fun hdepth _ hp => Nat.pos_of_ne_zero fun htimers => hwakes ?_⟩
    obtain ⟨h0, hle⟩ := hp
    exact ⟨hdepth, h0, Nat.lt_of_not_le fun hge => hadd ⟨Nat.ne_of_gt (Nat.lt_of_lt_of_le h0 hle), hge⟩, htimers⟩

theorem step_woken {e : Event} (h : Woken c) (hwakes : Wakes c e)
    (herror : (c.step packetFullRequestNbt e).pc.error = none) : Woken (c.step packetFullRequestNbt e) := by
  cases e with
  | readable sock => exact readable_woken h herror
  | timer sock => exact timer_woken h herror
  | callback status => exact callback_woken h herror
  | disable => exact ⟨⟨h.held.1, h.held.2⟩, h.ev, h.idle, fun _ hd => absurd hd nofun⟩
  | enable => exact enable_woken h hwakes

end

/-- No packet is forgotten in a run in which enabling always wakes what waits. -/
theorem not_stranded (serialise : Bool) (initialRead : Nat) {c : Conn}
    (h : ((connSystem serialise initialRead).restrict Wakes).Reachable c) : ¬ c.Stranded := by
  have hwoken : c.pc.error = none → Woken c := by
    refine @System.Reachable.invariant _ _ _ (fun c => c.pc.error = none → Woken c) ?_ ?_ _ h
    · rintro _ rfl _
      exact ⟨⟨Nat.le_refl 0, .inl rfl⟩, rfl, fun _ => rfl, fun _ _ hp => absurd hp.1 (Nat.lt_irrefl 0)⟩
    · rintro c e _ hc ⟨hwakes, henabled, rfl⟩ herror
      refine step_woken (hc ?_) hwakes herror
      cases e with
      | timer sock => exact henabled.1
      | callback status => exact henabled.1
      | _ => exact henabled
  rintro ⟨herror, hdisable, hdepth, hpacket, htimers⟩
  have := (hwoken herror).timer hdepth hdisable hpacket
  omega

/-- A socket with some bytes on it. -/
def socketWith (data : List UInt8) : SocketIn := ⟨.ok data.length, fun wanted => (.ok, data.take wanted)⟩

def firstConn : Conn := ⟨packetInit true false, 0⟩

def Conn.run (c : Conn) (events : List Event) : Conn := events.foldl (Conn.step packetFullRequestNbt) c

/-- Two empty packets in one read; receiving is disabled while the first is processed, and enabled after the timer. -/
theorem not_stranded_sample :
    ¬ (firstConn.run [.readable (socketWith (List.replicate 8 0)), .disable, .callback .ok, .timer (socketWith []), .enable]).Stranded :=
  not_stranded false 0 (.step .enable (.step (.timer (socketWith [])) (.step (.callback .ok) (.step .disable
    (.step (.readable (socketWith (List.replicate 8 0))) (.init rfl)
    ⟨trivial, rfl, rfl⟩) ⟨trivial, rfl, rfl⟩) ⟨trivial, ⟨rfl, by decide⟩, rfl⟩) ⟨trivial, ⟨rfl, by decide⟩, rfl⟩)
    ⟨by unfold Wakes; decide, rfl, rfl⟩)

/-- With a third packet in the buffer, enabling does not bring the timer back. -/
theorem stranded_third :
    ¬ ∀ (serialise : Bool) (initialRead : Nat) (c : Conn), (connSystem serialise initialRead).Reachable c → ¬ c.Stranded := by
  intro h
  refine h false 0 (firstConn.run [.readable (socketWith (List.replicate 12 0)), .disable, .callback .ok,
    .timer (socketWith []), .enable]) ?_ (by unfold Conn.Stranded; decide)
  exact .step .enable (.step (.timer (socketWith [])) (.step (.callback .ok) (.step .disable
    (.step (.readable (socketWith (List.replicate 12 0))) (.init rfl)
    ⟨rfl, rfl⟩) ⟨rfl, rfl⟩) ⟨⟨rfl, by decide⟩, rfl⟩) ⟨⟨rfl, by decide⟩, rfl⟩) ⟨rfl, rfl⟩

end Samba.Stream
