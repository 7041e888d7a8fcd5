/-
Loops that convert a buffer round by round: each round takes some units of the input and writes some of the output, and the
loop ends where the input or the room is too short for another round. What such a loop does with a buffer of another size, and
with the input cut in two, follows from what its rounds do.
-/
import Mathlib.Data.List.Basic
import Mathlib.Data.List.Infix

namespace Rounds

open List

universe u v w

variable {ε : Type u} {α : Type v} {β : Type w}

/-- What a conversion leaves: an error, the input that was not taken, and what was written. -/
structure Conv (ε : Type u) (α : Type v) (β : Type w) where
  err : Option ε
  rest : List α
  out : List β
  deriving DecidableEq, Repr

namespace Conv

/-- A conversion after something was written. -/
def after (out : List β) (c : Conv ε α β) : Conv ε α β := { c with out := out ++ c.out }

/-- Everything was taken. -/
def done (out : List β) : Conv ε α β := ⟨none, [], out⟩

@[simp] theorem after_err (out : List β) (c : Conv ε α β) : (c.after out).err = c.err := rfl
@[simp] theorem after_rest (out : List β) (c : Conv ε α β) : (c.after out).rest = c.rest := rfl
@[simp] theorem after_out (out : List β) (c : Conv ε α β) : (c.after out).out = out ++ c.out := rfl
@[simp] theorem after_done (a b : List β) : (done b : Conv ε α β).after a = done (a ++ b) := rfl

theorem done_inj {a b : List β} (h : (done a : Conv ε α β) = done b) : a = b := congrArg Conv.out h

theorem after_eq_done {out u : List β} {c : Conv ε α β} (h : c.after out = done u) : ∃ u', c = done u' ∧ u = out ++ u' := by
  obtain ⟨err, rest, out'⟩ := c
  obtain ⟨rfl, rfl, rfl⟩ := Conv.mk.inj h
  exact ⟨out', rfl, rfl⟩

end Conv

open Conv

/-- A loop: the shortest input and the least room for a round, what a round takes and writes, and what is reported for the
input that is left at the end. -/
structure Loop (ε : Type u) (α : Type v) (β : Type w) where
  minIn : Nat
  minOut : Nat
  round : List α → Nat → Except ε (Nat × List β)
  stop : Nat → Option ε
  minIn_pos : 0 < minIn
  takes : ∀ {input : List α} {outLeft n : Nat} {out : List β}, round input outLeft = .ok (n, out) → 0 < n

namespace Loop

variable {l : Loop ε α β} {input : List α} {outLeft n : Nat} {out : List β}

def run (l : Loop ε α β) (input : List α) (outLeft : Nat) : Conv ε α β :=
  if _h : l.minIn ≤ input.length ∧ l.minOut ≤ outLeft then
    match _hr : l.round input outLeft with
    | .error e => ⟨some e, input, []⟩
    | .ok (n, out) => (l.run (input.drop n) (outLeft - out.length)).after out
  else ⟨l.stop input.length, input, []⟩
termination_by input.length
decreasing_by
  have := l.minIn_pos
  have := l.takes _hr
  rw [length_drop]
  omega

theorem run_round (hin : l.minIn ≤ input.length) (hout : l.minOut ≤ outLeft) (hr : l.round input outLeft = .ok (n, out)) :
    l.run input outLeft = (l.run (input.drop n) (outLeft - out.length)).after out := by
  rw [run, dif_pos ⟨hin, hout⟩]
  split
  · rename_i e he
    rw [hr] at he
    cases he
  · rename_i n' out' hok
    obtain ⟨rfl, rfl⟩ := Prod.mk.inj (Except.ok.inj (hr.symm.trans hok))
    rfl

theorem run_error {e : ε} (hin : l.minIn ≤ input.length) (hout : l.minOut ≤ outLeft) (hr : l.round input outLeft = .error e) :
    l.run input outLeft = ⟨some e, input, []⟩ := by
  rw [run, dif_pos ⟨hin, hout⟩]
  split
  · rename_i e' he
    rw [Except.error.inj (hr.symm.trans he)]
  · rename_i hok
    rw [hr] at hok
    cases hok

theorem run_stop (h : ¬(l.minIn ≤ input.length ∧ l.minOut ≤ outLeft)) :
    l.run input outLeft = ⟨l.stop input.length, input, []⟩ := by
  rw [run, dif_neg h]

/-- The rounds depend on the room only in that what they write has to fit, and `full` is reported where it does not. -/
structure Exact (l : Loop ε α β) (full : ε) : Prop where
  round : ∀ {input outLeft n out}, l.round input outLeft = .ok (n, out) →
    n ≤ input.length ∧ l.minOut ≤ out.length ∧ ∀ outLeft', l.minOut ≤ outLeft' →
      l.round input outLeft' = if outLeft' < out.length then .error full else .ok (n, out)
  stop_zero : l.stop 0 = none
  stop_full : ∀ {n}, l.minIn ≤ n → l.stop n = some full

section Exact

variable {full : ε} {u : List β}

/-- A conversion that takes everything begins with a round. -/
theorem done_cases (h : l.run input outLeft = done u) :
    input = [] ∧ u = [] ∨ ∃ n out u', l.minIn ≤ input.length ∧ l.minOut ≤ outLeft ∧ l.round input outLeft = .ok (n, out) ∧
      l.run (input.drop n) (outLeft - out.length) = done u' ∧ u = out ++ u' := by
  by_cases hmin : l.minIn ≤ input.length ∧ l.minOut ≤ outLeft
  · cases hr : l.round input outLeft with
    | error e =>
      rw [run_error hmin.1 hmin.2 hr] at h
      cases h
    | ok res =>
      obtain ⟨n, out⟩ := res
      rw [run_round hmin.1 hmin.2 hr] at h
      obtain ⟨u', hu', hu⟩ := after_eq_done h
      exact .inr ⟨n, out, u', hmin.1, hmin.2, rfl, hu', hu⟩
  · rw [run_stop hmin] at h
    obtain ⟨-, rfl, rfl⟩ := Conv.mk.inj h
    exact .inl ⟨rfl, rfl⟩

theorem Exact.run_nil (hl : l.Exact full) (outLeft : Nat) : l.run [] outLeft = done [] := by
  have := l.minIn_pos
  rw [run_stop (by simp; omega), length_nil, hl.stop_zero]
  rfl

/-- Induction over a conversion that takes everything. -/
theorem done_induction {P : List α → Nat → List β → Prop}
    (hnil : ∀ outLeft, P [] outLeft [])
    (hround : ∀ input outLeft n out u', l.minIn ≤ input.length → l.minOut ≤ outLeft → l.round input outLeft = .ok (n, out) →
      l.run (input.drop n) (outLeft - out.length) = done u' → P (input.drop n) (outLeft - out.length) u' →
      P input outLeft (out ++ u')) (h : l.run input outLeft = done u) : P input outLeft u := by
  induction hn : input.length using Nat.strong_induction_on generalizing input outLeft u with
  | _ m ih =>
    rcases done_cases h with ⟨rfl, rfl⟩ | ⟨n, out, u', hin, hout, hr, hrest, rfl⟩
    · exact hnil outLeft
    · have hpos := l.takes hr
      have hmin := l.minIn_pos
      exact hround input outLeft n out u' hin hout hr hrest (ih _ (by rw [length_drop]; omega) hrest rfl)

theorem Exact.fits (hl : l.Exact full) (hout : l.minOut ≤ outLeft) (hr : l.round input outLeft = .ok (n, out)) :
    out.length ≤ outLeft := by
  by_contra hless
  rw [(hl.round hr).2.2 outLeft hout, if_pos (by omega)] at hr
  cases hr

theorem Exact.room (hl : l.Exact full) (hr : l.round input outLeft = .ok (n, out)) {outLeft' : Nat}
    (hle : out.length ≤ outLeft') : l.minOut ≤ outLeft' ∧ l.round input outLeft' = .ok (n, out) := by
  obtain ⟨-, hwrites, hround⟩ := hl.round hr
  exact ⟨hwrites.trans hle, by rw [hround outLeft' (hwrites.trans hle), if_neg (by omega)]⟩

/-- A conversion without an error took everything, if every rest is reported. -/
theorem done_of_err (hstop : ∀ {n}, 0 < n → l.stop n ≠ none) (h : (l.run input outLeft).err = none) :
    l.run input outLeft = done (l.run input outLeft).out := by
  induction hn : input.length using Nat.strong_induction_on generalizing input outLeft with
  | _ m ih =>
    by_cases hmin : l.minIn ≤ input.length ∧ l.minOut ≤ outLeft
    · cases hr : l.round input outLeft with
      | error e =>
        rw [run_error hmin.1 hmin.2 hr] at h
        cases h
      | ok res =>
        obtain ⟨n, out⟩ := res
        have hpos := l.takes hr
        have hin := l.minIn_pos
        rw [run_round hmin.1 hmin.2 hr] at h ⊢
        rw [ih _ (by rw [← hn, length_drop]; omega) h rfl]
        rfl
    · rw [run_stop hmin] at h ⊢
      have hnil : input = [] := by
        by_contra hne
        exact hstop (length_pos_of_ne_nil hne) h
      subst hnil
      rw [show l.stop [].length = none from h]
      rfl

theorem Exact.done_room (hl : l.Exact full) (h : l.run input outLeft = done u) :
    u.length ≤ outLeft ∧ ∀ outLeft', u.length ≤ outLeft' → l.run input outLeft' = done u := by
  refine done_induction (P := fun input outLeft u => u.length ≤ outLeft ∧
    ∀ outLeft', u.length ≤ outLeft' → l.run input outLeft' = done u) ?_ ?_ h
  · exact fun outLeft => ⟨Nat.zero_le _, fun _ _ => hl.run_nil _⟩
  intro input outLeft n out u' hin hout hr _ ⟨hu, ih⟩
  have hfit := hl.fits hout hr
  rw [length_append]
  refine ⟨by omega, fun outLeft' hle => ?_⟩
  obtain ⟨hmin, hr'⟩ := hl.room hr (show out.length ≤ outLeft' by omega)
  rw [run_round hin hmin hr', ih _ (by omega), after_done]

/-- What a buffer of some size takes of an input that could be converted whole: a first part of the output, as much as there
is room for, and the rest of the input gives the rest. -/
structure Split (l : Loop ε α β) (full : ε) (input : List α) (u : List β) (cap : Nat) (rest : List α) (out u' : List β) : Prop where
  run : l.run input cap = ⟨if rest = [] then none else some full, rest, out⟩
  whole : u = out ++ u'
  fits : out.length ≤ cap
  next : ∀ outLeft, u'.length ≤ outLeft → l.run rest outLeft = done u'
  filled : ∀ m, (∀ {input outLeft n out}, l.round input outLeft = .ok (n, out) → out.length ≤ m) → rest ≠ [] →
    cap < out.length + m

theorem Exact.split (hl : l.Exact full) (h : l.run input outLeft = done u) (cap : Nat) :
    ∃ rest out u', Split l full input u cap rest out u' := by
  refine done_induction (P := fun input _ u => ∀ cap, ∃ rest out u', Split l full input u cap rest out u') ?_ ?_ h cap
  · exact fun _ cap => ⟨[], [], [], hl.run_nil cap, rfl, Nat.zero_le cap, fun _ _ => hl.run_nil _, fun _ _ hne => absurd rfl hne⟩
  · intro input outLeft n out u' hin hout hr hrest ih cap
    have hne : input ≠ [] := by
      rintro rfl
      exact absurd hin (Nat.not_le.mpr l.minIn_pos)
    have hwhole := (hl.done_room ((run_round hin hout hr).trans (hrest ▸ after_done _ _))).2
    by_cases hcap : l.minOut ≤ cap
    · by_cases hfit : out.length ≤ cap
      · obtain ⟨rest, out', u'', hs⟩ := ih (cap - out.length)
        have hle := hs.fits
        refine ⟨rest, out ++ out', u'', ?_, by rw [hs.whole, append_assoc], by rw [length_append]; omega, hs.next,
          fun m hm hrest' => ?_⟩
        · rw [run_round hin hcap (hl.room hr hfit).2, hs.run]
          rfl
        · have := hs.filled m hm hrest'
          rw [length_append]
          omega
      · refine ⟨input, [], out ++ u', ?_, rfl, Nat.zero_le cap, hwhole, fun m hm _ => ?_⟩
        · rw [run_error hin hcap (by rw [(hl.round hr).2.2 cap hcap, if_pos (by omega)]), if_neg hne]
        · have := hm hr
          rw [length_nil]
          omega
    · refine ⟨input, [], out ++ u', ?_, rfl, Nat.zero_le cap, hwhole, fun m hm _ => ?_⟩
      · rw [run_stop (fun hmin => hcap hmin.2), hl.stop_full hin, if_neg hne]
      · have := hm hr
        have := (hl.round hr).2.1
        rw [length_nil]
        omega

/-- What is converted in one piece is converted in two, if no round takes from both. -/
theorem Exact.append (hl : l.Exact full) {a b : List α} {d : Nat} (hmin : l.minIn ≤ d)
    (hd : ∀ {input outLeft n out}, l.round input outLeft = .ok (n, out) → d ∣ n) (ha : d ∣ a.length)
    (hcut : ∀ a', a' <:+ a → a' ≠ [] → d ∣ a'.length → ∀ outLeft n out, l.minOut ≤ outLeft →
      l.round (a' ++ b) outLeft = .ok (n, out) → n ≤ a'.length ∧ l.round a' outLeft = .ok (n, out))
    (h : l.run (a ++ b) outLeft = done u) :
    ∃ u₁ u₂, u = u₁ ++ u₂ ∧ l.run a outLeft = done u₁ ∧ l.run b (outLeft - u₁.length) = done u₂ := by
  induction hn : a.length using Nat.strong_induction_on generalizing a outLeft u with
  | _ m ih =>
    by_cases hne : a = []
    · subst hne
      exact ⟨[], u, rfl, hl.run_nil _, by simpa using h⟩
    · rcases done_cases h with ⟨hnil, -⟩ | ⟨n, out, u', -, hout, hr, hrest, rfl⟩
      · exact absurd (append_eq_nil_iff.mp hnil).1 hne
      · obtain ⟨hle, hra⟩ := hcut a (suffix_refl a) hne ha outLeft n out hout hr
        have hpos := l.takes hr
        have hlong := Nat.le_of_dvd (length_pos_of_ne_nil hne) ha
        rw [drop_append_of_le_length hle] at hrest
        obtain ⟨u₁, u₂, rfl, h₁, h₂⟩ := @ih _ (by rw [← hn, length_drop]; omega) (outLeft - out.length) u' (a.drop n)
          (by rw [length_drop]; exact Nat.dvd_sub ha (hd hr))
          (fun a' ha' => hcut a' (ha'.trans (drop_suffix n a))) hrest rfl
        refine ⟨out ++ u₁, u₂, (append_assoc ..).symm, ?_, ?_⟩
        · rw [run_round (hmin.trans hlong) hout hra, h₁, after_done]
        · rwa [length_append, ← Nat.sub_sub]

end Exact

/-- The input that is left is the end of the input. -/
theorem rest_suffix (input : List α) (outLeft : Nat) : (l.run input outLeft).rest <:+ input := by
  induction hn : input.length using Nat.strong_induction_on generalizing input outLeft with
  | _ m ih =>
    by_cases hmin : l.minIn ≤ input.length ∧ l.minOut ≤ outLeft
    · cases hr : l.round input outLeft with
      | error e =>
        rw [run_error hmin.1 hmin.2 hr]
      | ok res =>
        obtain ⟨n, out⟩ := res
        have hpos := l.takes hr
        have hin := l.minIn_pos
        rw [run_round hmin.1 hmin.2 hr, after_rest]
        exact (ih _ (by rw [← hn, length_drop]; omega) _ _ rfl).trans (drop_suffix n input)
    · rw [run_stop hmin]

theorem length_rest_lt (hin : l.minIn ≤ input.length) (hout : l.minOut ≤ outLeft) (hr : l.round input outLeft = .ok (n, out)) :
    (l.run input outLeft).rest.length < input.length := by
  have hpos := l.takes hr
  have hmin := l.minIn_pos
  have hrest := (@rest_suffix _ _ _ l (input.drop n) (outLeft - out.length)).length_le
  rw [length_drop] at hrest
  rw [run_round hin hout hr, after_rest]
  omega

/-- The output is a multiple of what each round's output is a multiple of. -/
theorem dvd_length_out {d : Nat} (hd : ∀ {input outLeft n out}, l.round input outLeft = .ok (n, out) → d ∣ out.length)
    (input : List α) (outLeft : Nat) : d ∣ (l.run input outLeft).out.length := by
  induction hn : input.length using Nat.strong_induction_on generalizing input outLeft with
  | _ m ih =>
    by_cases hmin : l.minIn ≤ input.length ∧ l.minOut ≤ outLeft
    · cases hr : l.round input outLeft with
      | error e =>
        rw [run_error hmin.1 hmin.2 hr]
        exact Nat.dvd_zero d
      | ok res =>
        obtain ⟨n, out⟩ := res
        have hpos := l.takes hr
        have hin := l.minIn_pos
        rw [run_round hmin.1 hmin.2 hr, after_out, length_append]
        exact Nat.dvd_add (hd hr) (ih _ (by rw [← hn, length_drop]; omega) _ _ rfl)
    · rw [run_stop hmin]
      exact Nat.dvd_zero d

end Loop

end Rounds
