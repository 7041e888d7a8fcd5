/-
What calls leave as it is, whatever they return: a property of the context that the methods of the table keep is kept by the calls
above them, up to `tdb_free` (lib/tdb/common/freelist.c), whether these succeed, fail or stop.
-/
import Samba.Tdb.Freelist

namespace Samba.Tdb

/-- A call keeps `I`, whatever it returns. -/
def Keeps (I : TdbContext → Prop) {α : Type} (x : TdbM α) : Prop :=
  ∀ tdb, I tdb → (∀ a tdb', x tdb = .ok a tdb' → I tdb') ∧ ∀ e tdb', x tdb = .error e tdb' → I tdb'

namespace Keeps

variable {I : TdbContext → Prop} {α β : Type} {x : TdbM α} {f : α → TdbM β}

theorem pure (a : α) : Keeps I (pure a : TdbM α) := fun tdb h =>
  ⟨fun a' tdb' e => by cases e; exact h, fun _ _ e => (nomatch e)⟩

theorem throw (e : Stop) : Keeps I (throw e : TdbM α) := fun tdb h =>
  ⟨fun _ _ e => (nomatch e), fun e' tdb' e => by cases e; exact h⟩

theorem bind (hx : Keeps I x) (hf : ∀ a, Keeps I (f a)) : Keeps I (x >>= f) := by
  intro tdb h
  obtain ⟨hok, herr⟩ := hx tdb h
  cases hr : x tdb with
  | ok a tdb₁ =>
    rw [bind_ok hr]
    exact hf a tdb₁ (hok a tdb₁ hr)
  | error e tdb₁ =>
    rw [bind_error hr]
    exact ⟨fun _ _ e => (nomatch e), fun e' tdb' he => by cases he; exact herr e tdb₁ hr⟩

theorem get {f : TdbContext → TdbM β} (hf : ∀ s, Keeps I (f s)) : Keeps I (get >>= f) := fun tdb h => hf tdb tdb h

theorem attempt (hx : Keeps I x) : Keeps I (attempt x) := by
  intro tdb h
  obtain ⟨hok, herr⟩ := hx tdb h
  unfold Tdb.attempt
  cases hr : x tdb with
  | ok a tdb₁ =>
    exact ⟨fun b tdb' e => by cases e; exact hok a tdb₁ hr, fun _ _ e => (nomatch e)⟩
  | error e tdb₁ =>
    have h₁ := herr e tdb₁ hr
    cases e with
    | failed => exact ⟨fun b tdb' e => by cases e; exact h₁, fun _ _ e => (nomatch e)⟩
    | diverged => exact ⟨fun _ _ e => (nomatch e), fun b tdb' e => by cases e; exact h₁⟩
    | crashed => exact ⟨fun _ _ e => (nomatch e), fun b tdb' e => by cases e; exact h₁⟩

end Keeps

/-- The methods of the table keep `I`, and so does setting `ecode`. -/
structure MethodInvariant (I : TdbContext → Prop) : Prop where
  errcode : ∀ {α : Type} (e : TdbError), Keeps I (errcode e : TdbM α)
  read : ∀ off len cv, Keeps I (tdbRead off len cv)
  write : ∀ off buf, Keeps I (tdbWrite off buf)

namespace MethodInvariant

variable {I : TdbContext → Prop} (h : MethodInvariant I)

include h

theorem tdbOfsRead (offset : Nat) : Keeps I (tdbOfsRead offset) :=
  .get fun _ => .bind (h.read _ _ _) fun _ => .pure _

theorem tdbOfsWrite (offset d : Nat) : Keeps I (tdbOfsWrite offset d) := .get fun _ => h.write _ _

theorem tdbRecGet (offset : Nat) : Keeps I (tdbRecGet offset) :=
  .get fun _ => .bind (h.read _ _ _) fun _ => .pure _

theorem removeFromFreelist (off next : Nat) : Keeps I (removeFromFreelist off next) := by
  refine .get fun s => ?_
  generalize s.mapSize = fuel
  generalize freelistTop = lastPtr
  induction fuel generalizing lastPtr with
  | zero => exact .throw _
  | succ fuel ih =>
    refine .bind (h.tdbOfsRead _).attempt fun i => ?_
    cases i with
    | none => exact h.errcode _
    | some i =>
      dsimp only
      split
      · exact h.errcode _
      · split
        · exact h.tdbOfsWrite _ _
        · exact ih _

theorem freeRight (offset : Nat) (r : ListStruct) : Keeps I (freeRight offset r) := by
  refine .get fun s => ?_
  split
  · refine .bind (h.tdbRecGet _).attempt fun rr => ?_
    cases rr with
    | none => exact .pure _
    | some rr =>
      dsimp only
      split
      · refine .bind (h.removeFromFreelist _ _).attempt fun removed => ?_
        cases removed with
        | none => exact .pure _
        | some _ => exact .pure _
      · exact .pure _
  · exact .pure _

theorem freeLeft (offset : Nat) (r : ListStruct) : Keeps I (freeLeft offset r) := by
  refine .get fun s => ?_
  split
  · refine .bind (h.tdbOfsRead _).attempt fun leftsize => ?_
    cases leftsize with
    | none => exact .pure _
    | some leftsize =>
      dsimp only
      split
      · exact .pure _
      · refine .bind (h.tdbRecGet _).attempt fun l => ?_
        cases l with
        | none => exact .pure _
        | some l =>
          dsimp only
          split
          · refine .bind (h.removeFromFreelist _ _).attempt fun removed => ?_
            cases removed with
            | none => exact .pure _
            | some _ => exact .pure _
          · exact .pure _
  · exact .pure _

/-- `tdb_free` keeps what the methods keep, whether it fails or not. -/
theorem tdbFree (offset : Nat) (r : ListStruct) : Keeps I (tdbFree offset r) := by
  refine .bind (h.tdbOfsWrite _ _) fun _ => .bind (h.freeRight _ _) fun r => .bind (h.freeLeft _ _) fun l => ?_
  exact .bind (h.tdbOfsWrite _ _) fun _ => .bind (h.tdbOfsRead _) fun next =>
    .bind (.get fun _ => h.write _ _) fun _ => h.tdbOfsWrite _ _

end MethodInvariant

/-! ## Reading in a transaction -/

section Read

variable {I : TdbContext → Prop}

theorem transactionReadEl_keeps (hfail : Keeps I (transactionFail : TdbM (List UInt8))) {go : Nat → List UInt8 → TdbM (List UInt8)}
    (hgo : ∀ off buf, Keeps I (go off buf)) (el : TransactionEl) (off : Nat) (buf : List UInt8) (cv : Bool) :
    Keeps I (transactionReadEl go el off buf cv) := by
  have hopt : ∀ (c : Prop) [Decidable c] (o : Nat) (b : List UInt8),
      Keeps I (if c then attempt (go o b) else pure (some [])) := by
    intro c _ o b
    split
    · exact (hgo o b).attempt
    · exact .pure _
  refine .bind (hopt _ _ _) fun first => ?_
  cases first with
  | none => exact hfail
  | some first =>
    refine .bind (hopt _ _ _) fun last => ?_
    cases last with
    | none => exact hfail
    | some last => exact .pure _

theorem transactionRead_keeps (hfail : Keeps I (transactionFail : TdbM (List UInt8))) (hio : ∀ off len cv, Keeps I (ioRead off len cv))
    (cv : Bool) (fuel off : Nat) (buf : List UInt8) : Keeps I (transactionRead cv fuel off buf) := by
  induction fuel generalizing off buf with
  | zero => exact .throw _
  | succ fuel ih =>
    refine .get fun s => ?_
    split
    · exact .throw _
    · split
      · exact transactionReadEl_keeps hfail ih _ _ _ _
      · exact hio _ _ _

theorem tdbRead_keeps (hfail : Keeps I (transactionFail : TdbM (List UInt8))) (hio : ∀ off len cv, Keeps I (ioRead off len cv))
    (off len : Nat) (cv : Bool) : Keeps I (tdbRead off len cv) := by
  refine .get fun s => ?_
  split
  · exact hio _ _ _
  · exact transactionRead_keeps hfail hio _ _ _ _

end Read

end Samba.Tdb
