/-
Packets on a byte stream (cluster/ctdb/common/ctdb_io.c). However the bytes of a sequence of packets are cut into reads, the
queue's callback is called with exactly these packets, as long as talloc has a block for what has come.
-/
import Samba.Lib.Bytes

namespace Samba.Ctdb

open Bytes List

/-! ## Reading -/

/-- `MAX_TALLOC_SIZE`. -/
def maxTallocSize : Nat := 0x10000000

/-- `talloc_memdup`. -/
def tallocMemdup (data : List UInt8) : Option (List UInt8) :=
  if data.length ≥ maxTallocSize then none else some data

/-- `*(uint32_t *)data`. -/
def lengthWord (data : List UInt8) : Nat := leNat (data.take 4)

/-- A call of the queue's callback; `none` is `callback(NULL, 0)`, after which the queue is not read again. -/
abbrev Callback := Option (List UInt8)

/-- The loop of `queue_io_read`: the callbacks, and the bytes that are left, or `none` where it has failed. Behind a length
of zero the loop does not move on. -/
def packetLoop : Nat → List UInt8 → Option (List Callback × Option (List UInt8))
  | 0, _ => none
  | fuel + 1, data =>
    if 4 ≤ data.length ∧ lengthWord data ≤ data.length then
      match tallocMemdup (data.take (lengthWord data)) with
      | none => some ([none], none)
      | some d2 => (packetLoop fuel (data.drop (lengthWord data))).map fun r => (some d2 :: r.1, r.2)
    else some ([], some data)

/-- `queue_io_read`, with the bytes in `queue->partial` and those that are read. What is kept is below the limit of talloc,
so that the size of the block does not wrap. -/
def queueIoRead (kept input : List UInt8) : Option (List Callback × Option (List UInt8)) :=
  -- the descriptor has been closed
  if input = [] then some ([none], none)
  else
    let data := kept ++ input
    if data.length ≥ maxTallocSize then some ([none], none)
    else if 4 ≤ data.length ∧ lengthWord data = data.length then some ([some data], some [])
    else match packetLoop (data.length + 1) data with
      | some (calls, some rest) =>
        -- we have only part of a packet
        if rest = [] ∨ calls = [] then some (calls, some rest)
        else match tallocMemdup rest with
          | none => some (calls ++ [none], none)
          | some rest => some (calls, some rest)
      | r => r

/-- Reads one after the other. -/
def queueRun : List UInt8 → List (List UInt8) → Option (List Callback × Option (List UInt8))
  | kept, [] => some ([], some kept)
  | kept, input :: inputs =>
    match queueIoRead kept input with
    | some (calls, some kept) => (queueRun kept inputs).map fun r => (calls ++ r.1, r.2)
    | r => r

/-- There is a block for the bytes that each read finds and those that are kept. -/
def fits : List UInt8 → List (List UInt8) → Bool
  | _, [] => true
  | kept, input :: inputs =>
    kept.length + input.length < maxTallocSize &&
      match queueIoRead kept input with
      | some (_, some kept) => fits kept inputs
      | _ => true

/-! ## Packets -/

/-- A packet has its length in its first word. -/
structure IsPacket (p : List UInt8) : Prop where
  header : 4 ≤ p.length
  length : lengthWord p = p.length

/-- The start of a packet of which bytes are missing. -/
def Incomplete (s : List UInt8) : Prop := ∃ p, IsPacket p ∧ s <+: p ∧ s ≠ p

theorem IsPacket.ne_nil {p : List UInt8} (h : IsPacket p) : p ≠ [] := by
  rintro rfl
  exact absurd h.header (by decide)

variable {s tail : List UInt8} {ps : List (List UInt8)}

theorem lengthWord_of_isPrefix {p : List UInt8} (h : s <+: p) (hs : 4 ≤ s.length) : lengthWord p = lengthWord s := by
  obtain ⟨t, rfl⟩ := h
  rw [lengthWord, lengthWord, take_append_of_le_length hs]

/-- The loop stops at a packet that is incomplete. -/
theorem Incomplete.stops (h : Incomplete s) : ¬ (4 ≤ s.length ∧ lengthWord s ≤ s.length) := by
  rintro ⟨hs, hlen⟩
  obtain ⟨p, hp, hpre, hne⟩ := h
  rw [← lengthWord_of_isPrefix hpre hs, hp.length] at hlen
  exact hne (hpre.eq_of_length_le hlen)

theorem incomplete_nil : Incomplete [] :=
  ⟨le32 4, ⟨by decide, by decide⟩, nil_prefix, by decide⟩

theorem Incomplete.of_isPrefix {t : List UInt8} (h : Incomplete t) (hs : s <+: t) : Incomplete s := by
  obtain ⟨p, hp, hpre, hne⟩ := h
  refine ⟨p, hp, hs.trans hpre, fun heq => hne ?_⟩
  rw [heq] at hs
  exact hpre.eq_of_length_le hs.length_le

/-- A place in a stream of packets is behind some of them and inside the next. -/
theorem exists_split {x y : List UInt8} (hps : ∀ p ∈ ps, IsPacket p) (htail : Incomplete tail)
    (h : x ++ y = ps.flatten ++ tail) :
    ∃ done todo part, ps = done ++ todo ∧ x = done.flatten ++ part ∧ Incomplete part ∧ part ++ y = todo.flatten ++ tail := by
  induction ps generalizing x with
  | nil => exact ⟨[], [], x, rfl, rfl, htail.of_isPrefix ⟨y, h⟩, h⟩
  | cons p ps ih =>
    rw [flatten_cons, append_assoc] at h
    rcases Nat.lt_or_ge x.length p.length with hlt | hge
    · have hpre : x <+: p := prefix_of_prefix_length_le ⟨y, h⟩ (prefix_append _ _) hlt.le
      refine ⟨[], p :: ps, x, rfl, rfl, ⟨p, hps p mem_cons_self, hpre, ?_⟩, ?_⟩
      · rintro rfl
        exact lt_irrefl _ hlt
      · rw [h, flatten_cons, append_assoc]
    · have hpre : p <+: x ++ y := h ▸ prefix_append p _
      obtain ⟨x', rfl⟩ : p <+: x := prefix_of_prefix_length_le hpre (prefix_append x y) hge
      rw [append_assoc] at h
      obtain ⟨done, todo, part, rfl, rfl, hpart, hy⟩ :=
        ih (fun q hq => hps q (mem_cons_of_mem _ hq)) (append_cancel_left h)
      exact ⟨p :: done, todo, part, rfl, by rw [flatten_cons, append_assoc], hpart, hy⟩

/-! ## The reads -/

theorem packetLoop_packets (hps : ∀ p ∈ ps, IsPacket p) (htail : Incomplete tail)
    (hsize : (ps.flatten ++ tail).length < maxTallocSize) {fuel : Nat} (hfuel : ps.length < fuel) :
    packetLoop fuel (ps.flatten ++ tail) = some (ps.map some, some tail) := by
  induction ps generalizing fuel with
  | nil =>
    obtain ⟨fuel, rfl⟩ := Nat.exists_eq_add_one_of_ne_zero (by omega : fuel ≠ 0)
    rw [flatten_nil, nil_append, packetLoop, if_neg htail.stops]
    rfl
  | cons p ps ih =>
    obtain ⟨fuel, rfl⟩ := Nat.exists_eq_add_one_of_ne_zero (by omega : fuel ≠ 0)
    have hp := hps p mem_cons_self
    have hlen := hp.length
    rw [flatten_cons, append_assoc] at hsize ⊢
    rw [length_append] at hsize
    have hword : lengthWord (p ++ (ps.flatten ++ tail)) = p.length :=
      (lengthWord_of_isPrefix (prefix_append _ _) hp.header).trans hlen
    have hheader := hp.header
    have hmemdup : tallocMemdup p = some p := if_neg (by omega)
    rw [packetLoop, if_pos (by rw [hword, length_append]; omega), hword, take_left, hmemdup, drop_left]
    dsimp only
    rw [ih (fun q hq => hps q (mem_cons_of_mem _ hq)) (by omega) (by rw [length_cons] at hfuel; omega)]
    rfl

theorem length_le_flatten (hps : ∀ p ∈ ps, IsPacket p) : ps.length ≤ ps.flatten.length := by
  induction ps with
  | nil => exact Nat.zero_le _
  | cons p ps ih =>
    have hheader := (hps p mem_cons_self).header
    have := ih fun q hq => hps q (mem_cons_of_mem _ hq)
    rw [length_cons, flatten_cons, length_append]
    omega

/-- A read hands out the packets that it completes. -/
theorem queueIoRead_packets {kept input : List UInt8} (hinput : input ≠ [])
    (hsize : kept.length + input.length < maxTallocSize) (hps : ∀ p ∈ ps, IsPacket p) (htail : Incomplete tail)
    (h : kept ++ input = ps.flatten ++ tail) : queueIoRead kept input = some (ps.map some, some tail) := by
  have hsize' : (ps.flatten ++ tail).length < maxTallocSize := by rwa [← h, length_append]
  have hfuel : ps.length < (ps.flatten ++ tail).length + 1 := by
    have := length_le_flatten hps
    rw [length_append]
    omega
  have hloop := packetLoop_packets hps htail hsize' hfuel
  unfold queueIoRead
  dsimp only
  rw [if_neg hinput, h, if_neg (Nat.not_le.mpr hsize'), hloop]
  split
  case isTrue hwhole =>
    cases ps with
    | nil => exact absurd ⟨hwhole.1, hwhole.2.le⟩ htail.stops
    | cons p ps =>
      have hp := hps p mem_cons_self
      rw [flatten_cons, append_assoc] at hwhole ⊢
      have hword := lengthWord_of_isPrefix (prefix_append p (ps.flatten ++ tail)) hp.header
      rw [hwhole.2, hp.length, length_append] at hword
      obtain ⟨hps', rfl⟩ := append_eq_nil_iff.mp (length_eq_zero_iff.mp (by omega : (ps.flatten ++ tail).length = 0))
      cases ps with
      | nil => simp
      | cons q ps =>
        rw [flatten_cons, append_eq_nil_iff] at hps'
        exact absurd hps'.1 (hps q (by simp)).ne_nil
  case isFalse =>
    dsimp only
    split
    · rfl
    · rw [length_append] at hsize'
      rw [show tallocMemdup tail = some tail from if_neg (by omega)]

theorem queueRun_packets_from {inputs : List (List UInt8)} {kept : List UInt8}
    (hps : ∀ p ∈ ps, IsPacket p) (htail : Incomplete tail) (hinputs : ∀ input ∈ inputs, input ≠ []) (hkept : Incomplete kept)
    (h : kept ++ inputs.flatten = ps.flatten ++ tail) (hfits : fits kept inputs = true) :
    queueRun kept inputs = some (ps.map some, some tail) := by
  induction inputs generalizing kept ps with
  | nil =>
    rw [flatten_nil, append_nil] at h
    cases ps with
    | nil =>
      rw [flatten_nil, nil_append] at h
      rw [queueRun, h]
      rfl
    | cons p ps =>
      -- what is kept has no whole packet in it
      exfalso
      have hp := hps p mem_cons_self
      have hheader := hp.header
      rw [flatten_cons, append_assoc] at h
      refine hkept.stops ?_
      rw [h, lengthWord_of_isPrefix (prefix_append _ _) hp.header, hp.length, length_append]
      omega
  | cons input inputs ih =>
    rw [flatten_cons, ← append_assoc] at h
    obtain ⟨done, todo, part, rfl, hdone, hpart, htodo⟩ := exists_split hps htail h
    rw [fits, Bool.and_eq_true, decide_eq_true_eq] at hfits
    have hread := queueIoRead_packets (hinputs input mem_cons_self) hfits.1
      (fun p hp => hps p (mem_append_left _ hp)) hpart hdone
    have hfits' := hfits.2
    rw [hread] at hfits'
    rw [queueRun, hread]
    dsimp only
    rw [ih (fun p hp => hps p (mem_append_right _ hp)) (fun i hi => hinputs i (mem_cons_of_mem _ hi)) hpart htodo
      hfits', Option.map_some, map_append]

/-- However a sequence of packets and the start of a next one are cut into reads, the callback is called with exactly these
packets in order, and exactly the start of the next one is kept. -/
theorem queueRun_packets {inputs : List (List UInt8)} {ps : List (List UInt8)} {tail : List UInt8}
    (hps : ∀ p ∈ ps, IsPacket p) (htail : Incomplete tail) (hinputs : ∀ input ∈ inputs, input ≠ [])
    (h : inputs.flatten = ps.flatten ++ tail) (hfits : fits [] inputs = true) :
    queueRun [] inputs = some (ps.map some, some tail) :=
  queueRun_packets_from hps htail hinputs incomplete_nil h hfits

/-- Two packets and the start of a third one, cut inside their length words. -/
theorem queueRun_packets_two :
    queueRun [] [[4, 0], [0, 0, 5, 0], [0, 0, 7, 9], [0]] = some ([some [4, 0, 0, 0], some [5, 0, 0, 0, 7]], some [9, 0]) := by
  have hps : ∀ p ∈ [[4, 0, 0, 0], [5, 0, 0, 0, 7]], IsPacket p :=
    forall_mem_cons.mpr ⟨⟨by decide, by decide⟩, forall_mem_singleton.mpr ⟨by decide, by decide⟩⟩
  have htail : Incomplete [9, 0] := ⟨[9, 0, 0, 0, 1, 2, 3, 4, 5], ⟨by decide, by decide⟩, by decide, by decide⟩
  exact queueRun_packets hps htail (by decide) rfl (by decide)

/-- A packet of 256 MiB that arrives in one read is not handed out. -/
theorem queueRun_limit : ¬ ∀ (inputs ps : List (List UInt8)) (tail : List UInt8), (∀ p ∈ ps, IsPacket p) → Incomplete tail →
    (∀ input ∈ inputs, input ≠ []) → inputs.flatten = ps.flatten ++ tail →
    queueRun [] inputs = some (ps.map some, some tail) := by
  intro h
  obtain ⟨p, hp, hlen⟩ : ∃ p, IsPacket p ∧ p.length = maxTallocSize := by
    refine ⟨le32 maxTallocSize ++ List.replicate (maxTallocSize - 4) 0, ⟨?_, ?_⟩, ?_⟩
    · rw [length_append, length_le32]
      omega
    · rw [lengthWord, take_left' (length_le32 _), leNat_le32_of_lt (by decide), length_append, length_le32,
        length_replicate]
      rfl
    · rw [length_append, length_le32, length_replicate]
      rfl
  have hrun := h [p] [p] [] (forall_mem_singleton.mpr hp) incomplete_nil (forall_mem_singleton.mpr hp.ne_nil)
    (append_nil _).symm
  have hread : queueIoRead [] p = some ([none], none) := by
    rw [queueIoRead, if_neg hp.ne_nil]
    exact if_pos hlen.ge
  rw [queueRun, hread] at hrun
  cases hrun

end Samba.Ctdb
