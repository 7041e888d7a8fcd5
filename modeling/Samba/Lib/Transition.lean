/-
Systems that answer calls one after another: a set of starting states and a step relation
labelled by the call. Reachable states, the rule that an inductive invariant holds in every
reachable state, and finite runs of a total step function.
-/
import Mathlib.Logic.Relation

namespace Transition

universe u v

/-- A system: where it starts, and which state a call can lead to. -/
structure System (σ : Type u) (α : Type v) where
  init : σ → Prop
  step : σ → α → σ → Prop

variable {σ : Type u} {α : Type v}

namespace System

/-- The states some run of calls leads to. -/
inductive Reachable (S : System σ α) : σ → Prop
  | init {s : σ} : S.init s → Reachable S s
  | step {s s' : σ} (a : α) : Reachable S s → S.step s a s' → Reachable S s'

/-- An inductive invariant holds in every reachable state. -/
theorem Reachable.invariant {S : System σ α} {Inv : σ → Prop} (hinit : ∀ s, S.init s → Inv s)
    (hstep : ∀ s a s', Inv s → S.step s a s' → Inv s') {s : σ} (h : S.Reachable s) : Inv s := by
  induction h with
  | init hs => exact hinit _ hs
  | step a _ hs ih => exact hstep _ a _ ih hs

/-- The runs in which every step meets a condition on the state before it. -/
def restrict (S : System σ α) (P : σ → α → Prop) : System σ α where
  init := S.init
  step s a s' := P s a ∧ S.step s a s'

/-- The system of a total step function started in one state. -/
def ofFn (s₀ : σ) (f : σ → α → σ) : System σ α where
  init s := s = s₀
  step s a s' := s' = f s a

/-- Every run of a total step function stays in the reachable states. -/
theorem reachable_foldl {s₀ : σ} {f : σ → α → σ} {s : σ} (h : (ofFn s₀ f).Reachable s) :
    ∀ calls : List α, (ofFn s₀ f).Reachable (calls.foldl f s)
  | [] => h
  | a :: calls => reachable_foldl (.step a h rfl) calls

/-- A condition holds before each step of a run of a total step function. -/
def HoldsAlong (P : σ → α → Prop) (f : σ → α → σ) : σ → List α → Prop
  | _, [] => True
  | s, a :: calls => P s a ∧ HoldsAlong P f (f s a) calls

instance decidableHoldsAlong {P : σ → α → Prop} {f : σ → α → σ} [∀ s a, Decidable (P s a)] :
    ∀ (s : σ) (calls : List α), Decidable (HoldsAlong P f s calls)
  | _, [] => isTrue trivial
  | s, a :: calls => @instDecidableAnd _ _ _ (decidableHoldsAlong (f s a) calls)

/-- A run of a total step function whose steps are among the system's, each under the condition, stays in the states
that restricted runs reach. -/
theorem reachable_foldl_restrict {S : System σ α} {P : σ → α → Prop} {f : σ → α → σ} (hf : ∀ s a, S.step s a (f s a))
    {s : σ} (h : (S.restrict P).Reachable s) :
    ∀ calls : List α, HoldsAlong P f s calls → (S.restrict P).Reachable (calls.foldl f s)
  | [], _ => h
  | a :: calls, hcalls => reachable_foldl_restrict hf (.step a h ⟨hcalls.1, hf s a⟩) calls hcalls.2

end System

end Transition
