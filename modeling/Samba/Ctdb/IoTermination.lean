/-
Termination of the reads of a ctdb queue (cluster/ctdb/common/ctdb_io.c). The packet loop of `queue_io_read` moves on by the
length word it finds, for which there is no lower bound. A length of zero is smaller than what is left, an empty block can be
copied, and the loop comes back to the same bytes. So a read ends exactly when no packet that it comes to starts with a length
of zero.
-/
import Samba.Ctdb.Io
import Mathlib.Tactic

namespace Samba.Ctdb

open Bytes List

/-! ## Packet boundaries -/

/-- The condition of the loop in `queue_io_read`: there is another packet. -/
def Enters (data : List UInt8) : Prop := 4 ≤ data.length ∧ lengthWord data ≤ data.length

instance (data : List UInt8) : Decidable (Enters data) := inferInstanceAs (Decidable (_ ∧ _))

/-- What can be left of `data` when the loop looks for the next packet. -/
inductive Boundary (data : List UInt8) : List UInt8 → Prop
  | start : Boundary data data
  | next {rest : List UInt8} : Boundary data rest → Enters rest → Boundary data (rest.drop (lengthWord rest))

/-- What is left of `data` where no packet follows. -/
structure Pending (data rest : List UInt8) : Prop where
  boundary : Boundary data rest
  stops : ¬ Enters rest

/-- No packet starts with a length of zero. -/
def NoZero (data : List UInt8) : Prop := ∀ rest, Boundary data rest → 4 ≤ rest.length → lengthWord rest ≠ 0

theorem Boundary.trans {a b c : List UInt8} (hab : Boundary a b) (hbc : Boundary b c) : Boundary a c := by
  induction hbc with
  | start => exact hab
  | next _ he ih => exact .next ih he

variable {data input kept r rest : List UInt8} {fuel : Nat}

theorem Boundary.eq_or_next (h : Boundary data rest) :
    rest = data ∨ Enters data ∧ Boundary (data.drop (lengthWord data)) rest := by
  induction h with
  | start => exact Or.inl rfl
  | next _ he ih =>
    rcases ih with rfl | ⟨hd, hb⟩
    · exact Or.inr ⟨he, .start⟩
    · exact Or.inr ⟨hd, .next hb he⟩

theorem Boundary.total {r' : List UInt8} (h : Boundary data r) (h' : Boundary data r') :
    Boundary r r' ∨ Boundary r' r := by
  induction h with
  | start => exact Or.inl h'
  | next _ he ih =>
    rcases ih with hb | hb
    · rcases hb.eq_or_next with rfl | ⟨_, hn⟩
      · exact Or.inr (.next .start he)
      · exact Or.inl hn
    · exact Or.inr (.next hb he)

theorem Pending.eq_of_boundary (h : Pending data rest) (hr : Boundary rest r) : r = rest :=
  hr.eq_or_next.resolve_right fun hn => h.stops hn.1

theorem Pending.unique {data r r' : List UInt8} (h : Pending data r) (h' : Pending data r') : r = r' := by
  rcases h.boundary.total h'.boundary with hb | hb
  · exact (h.eq_of_boundary hb).symm
  · exact h'.eq_of_boundary hb

theorem NoZero.of_boundary (h : NoZero data) (hb : Boundary data rest) : NoZero rest :=
  fun r hr => h r (hb.trans hr)

theorem lengthWord_append {s : List UInt8} (hs : 4 ≤ s.length) (t : List UInt8) : lengthWord (s ++ t) = lengthWord s :=
  lengthWord_of_isPrefix (prefix_append s t) hs

theorem Enters.append {s : List UInt8} (h : Enters s) (t : List UInt8) : Enters (s ++ t) := by
  unfold Enters
  rw [lengthWord_append h.1, length_append]
  exact ⟨by have := h.1; omega, by have := h.2; omega⟩

theorem Boundary.append (h : Boundary data rest) (t : List UInt8) : Boundary (data ++ t) (rest ++ t) := by
  induction h with
  | start => exact .start
  | next _ he ih =>
    have hn := Boundary.next ih (he.append t)
    rwa [lengthWord_append he.1, drop_append_of_le_length he.2] at hn

/-- With more bytes behind it, a boundary is one of what was there before or lies behind what was left over. -/
theorem Boundary.of_append {t : List UInt8} (hp : Pending data rest) (h : Boundary (data ++ t) r) :
    (∃ s, Boundary data s ∧ Enters s ∧ r = s ++ t) ∨ Boundary (rest ++ t) r := by
  -- a boundary of the data is one where a packet follows, or what is left over
  have hcases : ∀ s, Boundary data s →
      (∃ s', Boundary data s' ∧ Enters s' ∧ s ++ t = s' ++ t) ∨ Boundary (rest ++ t) (s ++ t) := by
    intro s hs
    by_cases he : Enters s
    · exact Or.inl ⟨s, hs, he, rfl⟩
    · exact Or.inr (Pending.unique ⟨hs, he⟩ hp ▸ .start)
  induction h with
  | start => exact hcases data .start
  | next _ he ih =>
    rcases ih with ⟨s, hs, hes, rfl⟩ | hb
    · rw [lengthWord_append hes.1, drop_append_of_le_length hes.2]
      exact hcases _ (.next hs hes)
    · exact Or.inr (.next hb he)

theorem noZero_append_iff (hp : Pending data rest) (hz : NoZero data) (t : List UInt8) :
    NoZero (data ++ t) ↔ NoZero (rest ++ t) := by
  constructor
  · exact fun h => h.of_boundary (hp.boundary.append t)
  · intro h r hr h4
    rcases hr.of_append hp with ⟨s, hs, hes, rfl⟩ | hb
    · rw [lengthWord_append hes.1]
      exact hz s hs hes.1
    · exact h r hb h4

/-! ## The loop -/

theorem tallocMemdup_take (h : data.length < maxTallocSize) (n : Nat) :
    tallocMemdup (data.take n) = some (data.take n) := by
  refine if_neg ?_
  have := length_take_le' n data
  omega

theorem packetLoop_enters (he : Enters data) (hsize : data.length < maxTallocSize) :
    packetLoop (fuel + 1) data = (packetLoop fuel (data.drop (lengthWord data))).map fun r =>
      (some (data.take (lengthWord data)) :: r.1, r.2) := by
  rw [packetLoop]
  refine (if_pos he).trans ?_
  rw [tallocMemdup_take hsize]

/-- Without a length of zero the loop hands out packets and stops at what is left over. -/
theorem packetLoop_noZero (hz : NoZero data) (hsize : data.length < maxTallocSize)
    (hfuel : data.length < fuel) : ∃ calls rest, packetLoop fuel data = some (calls, some rest) ∧ Pending data rest := by
  induction fuel generalizing data with
  | zero => exact absurd hfuel (Nat.not_lt_zero _)
  | succ fuel ih =>
    by_cases he : Enters data
    · have hword := hz data .start he.1
      have hshort : (data.drop (lengthWord data)).length < data.length := by
        have := he.1
        rw [length_drop]
        omega
      obtain ⟨calls, rest, hloop, hrest⟩ :=
        ih (hz.of_boundary (.next .start he)) (hshort.trans hsize) (by omega)
      refine ⟨some (data.take (lengthWord data)) :: calls, rest, ?_, (Boundary.next .start he).trans hrest.boundary, hrest.stops⟩
      rw [packetLoop_enters he hsize, hloop]
      rfl
    · exact ⟨[], data, if_neg he, .start, he⟩

theorem packetLoop_zero (h4 : 4 ≤ data.length) (hzero : lengthWord data = 0)
    (hsize : data.length < maxTallocSize) (fuel : Nat) : packetLoop fuel data = none := by
  induction fuel with
  | zero => rfl
  | succ fuel ih =>
    rw [packetLoop_enters ⟨h4, by omega⟩ hsize, hzero, drop_zero, ih]
    rfl

theorem Boundary.length_le (h : Boundary data rest) : rest.length ≤ data.length := by
  induction h with
  | start => exact le_rfl
  | next _ _ ih =>
    rw [length_drop]
    exact (Nat.sub_le _ _).trans ih

/-- A loop that ends does so from every packet it comes to. -/
theorem packetLoop_boundary (h : Boundary data rest) (hsize : data.length < maxTallocSize) (hend : packetLoop fuel data ≠ none) : ∃ fuel', packetLoop fuel' rest ≠ none := by
  induction h with
  | start => exact ⟨fuel, hend⟩
  | next hb he ih =>
    obtain ⟨fuel', hend'⟩ := ih
    cases fuel' with
    | zero => exact absurd rfl hend'
    | succ fuel' =>
      rw [packetLoop_enters he (hb.length_le.trans_lt hsize), Ne, Option.map_eq_none_iff] at hend'
      exact ⟨fuel', hend'⟩

theorem packetLoop_terminates_iff (hsize : data.length < maxTallocSize) :
    (∃ fuel, packetLoop fuel data ≠ none) ↔ NoZero data := by
  constructor
  · rintro ⟨fuel, hend⟩ rest hb h4 hzero
    obtain ⟨fuel', hend'⟩ := packetLoop_boundary hb hsize hend
    exact hend' (packetLoop_zero h4 hzero (hb.length_le.trans_lt hsize) fuel')
  · intro hz
    obtain ⟨calls, rest, hloop, _⟩ := packetLoop_noZero hz hsize (Nat.lt_succ_self _)
    exact ⟨_, by rw [hloop]; exact Option.some_ne_none _⟩

/-! ## One read -/

/-- `queue_io_read` comes to an end: it fails before the loop, has one whole packet, or leaves the loop. -/
def ReadTerminates (kept input : List UInt8) : Prop :=
  input = [] ∨ maxTallocSize ≤ (kept ++ input).length ∨
    (4 ≤ (kept ++ input).length ∧ lengthWord (kept ++ input) = (kept ++ input).length) ∨
    ∃ fuel, packetLoop fuel (kept ++ input) ≠ none

theorem noZero_whole (h4 : 4 ≤ data.length) (h : lengthWord data = data.length) : NoZero data := by
  intro rest hb h4'
  rcases hb.eq_or_next with rfl | ⟨_, hb⟩
  · omega
  · have hle := hb.length_le
    rw [h, drop_length, length_nil] at hle
    omega

theorem readTerminates_iff (hinput : input ≠ [])
    (hsize : (kept ++ input).length < maxTallocSize) : ReadTerminates kept input ↔ NoZero (kept ++ input) := by
  rw [ReadTerminates, or_iff_right hinput, or_iff_right (Nat.not_le.mpr hsize), packetLoop_terminates_iff hsize]
  exact or_iff_right_of_imp fun h => noZero_whole h.1 h.2

/-- A read that ends with the queue alive found something, in a block talloc had, and no length of zero. -/
theorem queueIoRead_ok {calls : List Callback} (h : queueIoRead kept input = some (calls, some rest)) :
    input ≠ [] ∧ (kept ++ input).length < maxTallocSize ∧ NoZero (kept ++ input) ∧ Pending (kept ++ input) rest := by
  unfold queueIoRead at h
  dsimp only at h
  split at h
  · cases h
  · rename_i hinput
    split at h
    · cases h
    · rename_i hsize
      rw [Nat.not_le] at hsize
      refine ⟨hinput, hsize, ?_⟩
      split at h
      · rename_i hwhole
        cases h
        refine ⟨noZero_whole hwhole.1 hwhole.2, ?_, by decide⟩
        have hn := Boundary.next .start (⟨hwhole.1, hwhole.2.le⟩ : Enters (kept ++ input))
        rwa [hwhole.2, drop_length] at hn
      · have hz : NoZero (kept ++ input) := by
          refine (packetLoop_terminates_iff hsize).mp ⟨(kept ++ input).length + 1, fun hnone => ?_⟩
          rw [hnone] at h
          cases h
        obtain ⟨calls', rest', hloop, hrest⟩ := packetLoop_noZero hz hsize (Nat.lt_succ_self _)
        rw [hloop] at h
        dsimp only at h
        refine ⟨hz, ?_⟩
        split at h
        · cases h
          exact hrest
        · rw [show tallocMemdup rest' = some rest' from if_neg (by have := hrest.boundary.length_le; omega)] at h
          cases h
          exact hrest

theorem queueIoRead_noZero (hinput : input ≠ [])
    (hsize : (kept ++ input).length < maxTallocSize) (hz : NoZero (kept ++ input)) :
    ∃ calls rest, queueIoRead kept input = some (calls, some rest) := by
  obtain ⟨calls, rest, hloop, hrest⟩ := packetLoop_noZero hz hsize (Nat.lt_succ_self _)
  unfold queueIoRead
  dsimp only
  rw [if_neg hinput, if_neg (Nat.not_le.mpr hsize)]
  split
  · exact ⟨_, _, rfl⟩
  · rw [hloop]
    dsimp only
    split
    · exact ⟨_, _, rfl⟩
    · rw [show tallocMemdup rest = some rest from if_neg (by have := hrest.boundary.length_le; omega)]
      exact ⟨_, _, rfl⟩

/-! ## Runs -/

theorem queueRun_snoc (kept : List UInt8) (reads : List (List UInt8)) (input : List UInt8) :
    queueRun kept (reads ++ [input]) =
      match queueRun kept reads with
      | some (calls, some kept') => (queueIoRead kept' input).map fun r => (calls ++ r.1, r.2)
      | r => r := by
  induction reads generalizing kept with
  | nil =>
    simp only [nil_append, queueRun]
    rcases queueIoRead kept input with _ | ⟨calls, _ | rest⟩ <;> simp
  | cons first reads ih =>
    simp only [cons_append, queueRun]
    rcases queueIoRead kept first with _ | ⟨calls, _ | rest⟩
    · rfl
    · rfl
    · simp only [ih rest]
      rcases queueRun rest reads with _ | ⟨calls', _ | rest'⟩
      · rfl
      · rfl
      · simp only [Option.map_some, Option.map_map]
        congr 1
        funext r
        simp

/-- The bytes come in through these reads: each finds some, and there is a block for them and what is left over. -/
inductive Received : List (List UInt8) → Prop
  | none : Received []
  | read {reads : List (List UInt8)} {input : List UInt8} : Received reads → input ≠ [] →
      (∀ rest, Pending reads.flatten rest → (rest ++ input).length < maxTallocSize) → Received (reads ++ [input])

/-- Every read of a queue that is alive comes to an end. -/
def RunTerminates (inputs : List (List UInt8)) : Prop :=
  ∀ reads input, reads ++ [input] <+: inputs → ∀ calls kept, queueRun [] reads = some (calls, some kept) →
    ReadTerminates kept input

theorem flatten_snoc (reads : List (List UInt8)) (input : List UInt8) :
    (reads ++ [input]).flatten = reads.flatten ++ input := by
  rw [flatten_append, flatten_singleton]

/-- A queue that is alive has received its stream, met no length of zero in it, and keeps what is left over. -/
theorem queueRun_ok {reads : List (List UInt8)} {calls : List Callback}
    (h : queueRun [] reads = some (calls, some kept)) :
    Received reads ∧ NoZero reads.flatten ∧ Pending reads.flatten kept := by
  induction reads using List.reverseRecOn generalizing calls kept with
  | nil =>
    cases h
    exact ⟨.none, fun rest hb h4 => absurd (h4.trans hb.length_le) (by decide), .start, by decide⟩
  | append_singleton reads input ih =>
    rw [queueRun_snoc] at h
    split at h
    · rename_i calls' kept' hrun
      obtain ⟨hreceived, hz, hp⟩ := ih hrun
      obtain ⟨⟨calls'', rest⟩, hread, heq⟩ := Option.map_eq_some_iff.mp h
      obtain ⟨rfl, rfl⟩ : calls' ++ calls'' = calls ∧ rest = some kept := by simpa using heq
      obtain ⟨hinput, hsize, hz', hp'⟩ := queueIoRead_ok hread
      rw [flatten_snoc]
      refine ⟨.read hreceived hinput fun r hr => hr.unique hp ▸ hsize, (noZero_append_iff hp hz input).mpr hz',
        (hp.boundary.append input).trans hp'.boundary, hp'.stops⟩
    · rename_i hdead
      exact absurd h (hdead calls kept)

/-- Where no read has met a length of zero the queue is alive. -/
theorem queueRun_of_noZero {reads : List (List UInt8)} (h : Received reads) (hz : NoZero reads.flatten) :
    ∃ calls kept, queueRun [] reads = some (calls, some kept) := by
  induction h with
  | none => exact ⟨[], [], rfl⟩
  | @read reads input _ hinput hsize ih =>
    rw [flatten_snoc] at hz
    have hz' : NoZero reads.flatten := by
      intro rest hb h4
      have := hz _ (hb.append input) (by rw [length_append]; omega)
      rwa [lengthWord_append h4] at this
    obtain ⟨calls, kept, hrun⟩ := ih hz'
    obtain ⟨_, _, hp⟩ := queueRun_ok hrun
    obtain ⟨calls', rest, hread⟩ := queueIoRead_noZero hinput (hsize kept hp) ((noZero_append_iff hp hz' input).mp hz)
    refine ⟨calls ++ calls', rest, ?_⟩
    rw [queueRun_snoc, hrun]
    simp [hread]

/-- Whatever the stream and however it is cut into reads, every read ends exactly when no packet of what is received starts
with a length of zero. -/
theorem runTerminates_iff (inputs : List (List UInt8)) :
    RunTerminates inputs ↔ ∀ reads, reads <+: inputs → Received reads → NoZero reads.flatten := by
  constructor
  · intro h reads hreads hreceived
    induction hreceived with
    | none => exact fun rest hb h4 => absurd (h4.trans hb.length_le) (by decide)
    | @read reads input hreceived hinput hsize ih =>
      have hz := ih ((prefix_append reads [input]).trans hreads)
      obtain ⟨calls, kept, hrun⟩ := queueRun_of_noZero hreceived hz
      obtain ⟨_, _, hp⟩ := queueRun_ok hrun
      rw [flatten_snoc, noZero_append_iff hp hz input, ← readTerminates_iff hinput (hsize kept hp)]
      exact h reads input hreads calls kept hrun
  · intro h reads input hreads calls kept hrun
    obtain ⟨hreceived, hz, hp⟩ := queueRun_ok hrun
    by_cases hinput : input = []
    · exact Or.inl hinput
    rcases Nat.lt_or_ge (kept ++ input).length maxTallocSize with hsize | hsize
    · rw [readTerminates_iff hinput hsize, ← noZero_append_iff hp hz input, ← flatten_snoc]
      exact h _ hreads (.read hreceived hinput fun r hr => hr.unique hp ▸ hsize)
    · exact Or.inr (Or.inl hsize)

/-- Four bytes of zero never come to an end. -/
theorem not_runTerminates_zero : ¬ ∀ inputs : List (List UInt8), RunTerminates inputs := by
  intro h
  have hz := (runTerminates_iff [[0, 0, 0, 0]]).mp (h _) [[0, 0, 0, 0]] (prefix_refl _)
    (.read .none (by decide) fun rest hr => by
      have := hr.boundary.length_le
      rw [length_append]
      exact Nat.lt_of_le_of_lt (Nat.add_le_add_right this _) (by decide))
  exact hz _ .start (by decide) (by decide)

end Samba.Ctdb
