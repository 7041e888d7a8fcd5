/-
Searches through a list of places. A place is tried by a function that returns zero where it succeeds; the search ends at the
first success, and at the place where it has to stop once the place behind it has been tried too. A search that carries a table
comes to what the search without the table comes to, if each trial does; a search that fails from one place fails from later ones.
-/
import Mathlib.Tactic

namespace Search

universe u v w x

variable {α : Type u} {ε : Type v} {σ : Type w} {β : Type x}

/-! ## Searches -/

/-- How a search ends. -/
inductive Outcome
  | found | stopped | exhausted
  deriving DecidableEq, Repr

/-- A search in which each trial reads and changes a table. -/
def search [DecidableEq α] (core : α → σ → Except ε (Int × σ)) (next : α → α) (stop : Option α) :
    List α → σ → Except ε (Outcome × σ)
  | [], s => .ok (.exhausted, s)
  | n :: ns, s =>
    match core n s with
    | .error e => .error e
    | .ok (ret, s) =>
      if ret = 0 then .ok (.found, s)
      else if stop = some n then
        match core (next n) s with
        | .error e => .error e
        | .ok (ret, s) => .ok (if ret = 0 then .found else .stopped, s)
      else search core next stop ns s

/-- The search without a table. -/
def find [DecidableEq α] (core : α → Except ε Int) (next : α → α) (stop : Option α) : List α → Except ε Outcome
  | [] => .ok .exhausted
  | n :: ns =>
    match core n with
    | .error e => .error e
    | .ok ret =>
      if ret = 0 then .ok .found
      else if stop = some n then
        match core (next n) with
        | .error e => .error e
        | .ok ret => .ok (if ret = 0 then .found else .stopped)
      else find core next stop ns

@[simp] theorem search_nil [DecidableEq α] (core : α → σ → Except ε (Int × σ)) (next : α → α) (stop : Option α) (s : σ) :
    search core next stop [] s = .ok (.exhausted, s) := by
  unfold search
  rfl

@[simp] theorem find_nil [DecidableEq α] (core : α → Except ε Int) (next : α → α) (stop : Option α) :
    find core next stop [] = .ok .exhausted := by
  rw [find]

/-- The places that a search tries. -/
def tried [DecidableEq α] (core : α → Except ε Int) (next : α → α) (stop : Option α) : List α → List α
  | [] => []
  | n :: ns => n :: match core n with
    | .error _ => []
    | .ok ret => if ret = 0 then [] else if stop = some n then [next n] else tried core next stop ns

/-- A computation with a table comes to what one without it comes to, and keeps an invariant of the table. -/
def Carries (I : σ → Prop) (a : Except ε (β × σ)) (b : Except ε β) : Prop :=
  match b with
  | .error e => a = .error e
  | .ok r => ∃ s, a = .ok (r, s) ∧ I s

theorem Carries.map_fst {I : σ → Prop} {a : Except ε (β × σ)} {b : Except ε β} (h : Carries I a b) : a.map Prod.fst = b := by
  cases b with
  | error e =>
    have h' : a = .error e := h
    rw [h']
    rfl
  | ok r =>
    obtain ⟨s, rfl, -⟩ := h
    rfl

theorem Carries.mono {I J : σ → Prop} {a : Except ε (β × σ)} {b : Except ε β} (h : Carries I a b) (hIJ : ∀ s, I s → J s) :
    Carries J a b := by
  cases b with
  | error e => exact h
  | ok r =>
    obtain ⟨s, rfl, hs⟩ := h
    exact ⟨s, rfl, hIJ s hs⟩

variable [DecidableEq α] {core : α → Except ε Int} {next : α → α} {stop : Option α}

theorem search_carries {I : σ → Prop} {place : α → Prop} {step : α → σ → Except ε (Int × σ)}
    (hcore : ∀ n, place n → ∀ s, I s → Carries I (step n s) (core n)) {places : List α}
    (hplaces : ∀ n ∈ places, place n ∧ place (next n)) {s : σ} (hs : I s) :
    Carries I (search step next stop places s) (find core next stop places) := by
  induction places generalizing s with
  | nil =>
    rw [find_nil, search_nil]
    exact ⟨s, rfl, hs⟩
  | cons n ns ih =>
    obtain ⟨⟨hn, hnext⟩, hrest⟩ := List.forall_mem_cons.mp hplaces
    have hstep := hcore n hn s hs
    unfold search find
    cases hc : core n with
    | error e =>
      rw [hc] at hstep
      have hstep' : step n s = .error e := hstep
      rw [hstep']
      rfl
    | ok ret =>
      rw [hc] at hstep
      obtain ⟨s₁, hstep, hs₁⟩ := hstep
      rw [hstep]
      dsimp only
      by_cases hret : ret = 0
      · rw [if_pos hret, if_pos hret]
        exact ⟨s₁, rfl, hs₁⟩
      rw [if_neg hret, if_neg hret]
      by_cases hstop : stop = some n
      · rw [if_pos hstop, if_pos hstop]
        have hlast := hcore (next n) hnext s₁ hs₁
        cases hc' : core (next n) with
        | error e =>
          rw [hc'] at hlast
          have hlast' : step (next n) s₁ = .error e := hlast
          rw [hlast']
          rfl
        | ok ret' =>
          rw [hc'] at hlast
          obtain ⟨s₂, hlast, hs₂⟩ := hlast
          rw [hlast]
          exact ⟨s₂, rfl, hs₂⟩
      · rw [if_neg hstop, if_neg hstop]
        exact ih hrest hs₁

/-! ## Searches that fail -/

variable {places : List α}

/-- Where nothing is found up to the end, nothing is found from later on. -/
theorem find_exhausted_append {l : List α} (h : find core next stop (l ++ places) = .ok .exhausted) :
    find core next stop places = .ok .exhausted := by
  induction l with
  | nil => exact h
  | cons n l ih =>
    rw [List.cons_append, find] at h
    cases hc : core n with
    | error e =>
      rw [hc] at h
      cases h
    | ok ret =>
      rw [hc] at h
      dsimp only at h
      by_cases hret : ret = 0
      · rw [if_pos hret] at h
        cases h
      rw [if_neg hret] at h
      by_cases hstop : stop = some n
      · rw [if_pos hstop] at h
        cases hc' : core (next n) with
        | error e =>
          rw [hc'] at h
          cases h
        | ok ret' =>
          rw [hc'] at h
          dsimp only at h
          split at h <;> cases h
      · rw [if_neg hstop] at h
        exact ih h

/-- Where nothing is found up to the place where the search stops, nothing is found from later on, before that place. -/
theorem find_stopped_append {l : List α} (hl : ∀ n ∈ l, stop ≠ some n)
    (h : find core next stop (l ++ places) = .ok .stopped) : find core next stop places = .ok .stopped := by
  induction l with
  | nil => exact h
  | cons n l ih =>
    obtain ⟨hn, hl⟩ := List.forall_mem_cons.mp hl
    rw [List.cons_append, find] at h
    cases hc : core n with
    | error e =>
      rw [hc] at h
      cases h
    | ok ret =>
      rw [hc] at h
      dsimp only at h
      by_cases hret : ret = 0
      · rw [if_pos hret] at h
        cases h
      · rw [if_neg hret, if_neg hn] at h
        exact ih hl h

theorem exists_of_find_error {e : ε} (h : find core next stop places = .error e) : ∃ n, core n = .error e := by
  induction places with
  | nil => cases h
  | cons n ns ih =>
    rw [find] at h
    cases hc : core n with
    | error e' =>
      rw [hc] at h
      cases h
      exact ⟨n, hc⟩
    | ok ret =>
      rw [hc] at h
      dsimp only at h
      by_cases hret : ret = 0
      · rw [if_pos hret] at h
        cases h
      rw [if_neg hret] at h
      by_cases hstop : stop = some n
      · rw [if_pos hstop] at h
        cases hc' : core (next n) with
        | error e' =>
          rw [hc'] at h
          cases h
          exact ⟨next n, hc'⟩
        | ok ret' =>
          rw [hc'] at h
          cases h
      · rw [if_neg hstop] at h
        exact ih h

/-! ## Trials that differ -/

/-- A search depends on the trials that it makes. -/
theorem find_congr {core' : α → Except ε Int} (h : ∀ n ∈ tried core next stop places, core' n = core n) :
    find core' next stop places = find core next stop places := by
  induction places with
  | nil => rfl
  | cons n ns ih =>
    obtain ⟨hn, hrest⟩ := List.forall_mem_cons.mp h
    unfold find
    rw [hn]
    cases hc : core n with
    | error e => rfl
    | ok ret =>
      rw [hc] at hrest
      dsimp only at hrest ⊢
      by_cases hret : ret = 0
      · rw [if_pos hret, if_pos hret]
      rw [if_neg hret] at hrest ⊢
      rw [if_neg hret]
      by_cases hstop : stop = some n
      · rw [if_pos hstop] at hrest ⊢
        rw [if_pos hstop, hrest _ List.mem_cons_self]
      · rw [if_neg hstop] at hrest ⊢
        rw [if_neg hstop]
        exact ih hrest

/-- A trial that ends in an error ends the search. -/
theorem find_error {core' : α → Except ε Int} {e : ε} (hsame : ∀ n, core' n = core n ∨ core' n = .error e)
    (h : ∃ n ∈ tried core next stop places, core' n = .error e) : find core' next stop places = .error e := by
  induction places with
  | nil =>
    obtain ⟨n, hn, -⟩ := h
    cases hn
  | cons n ns ih =>
    obtain ⟨m, hm, herror⟩ := h
    unfold find
    rcases hsame n with hn | hn
    · rw [hn]
      rcases List.mem_cons.mp hm with rfl | hm
      · rw [← hn, herror]
      cases hc : core n with
      | error e' =>
        rw [hc] at hm
        cases hm
      | ok ret =>
        rw [hc] at hm
        dsimp only at hm ⊢
        by_cases hret : ret = 0
        · rw [if_pos hret] at hm
          cases hm
        rw [if_neg hret] at hm ⊢
        by_cases hstop : stop = some n
        · rw [if_pos hstop] at hm ⊢
          rw [← List.mem_singleton.mp hm, herror]
        · rw [if_neg hstop] at hm ⊢
          exact ih ⟨m, hm, herror⟩
    · rw [hn]

end Search
