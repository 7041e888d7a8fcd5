/-
Calls that do not look at the records locked by a traversal. They do with locks what they do without, and leave the locks as they
are; only `tdb_do_delete` and the start of a transaction look.
-/
import Samba.Tdb.Store

namespace Samba.Tdb

/-- The context with other records locked by a traversal. -/
def TdbContext.withLocks (tdb : TdbContext) (locks : List Nat) : TdbContext := { tdb with travlocks := locks }

/-- The result with other records locked. -/
def relock {α : Type} (locks : List Nat) : EStateM.Result Stop TdbContext α → EStateM.Result Stop TdbContext α
  | .ok a tdb => .ok a (tdb.withLocks locks)
  | .error e tdb => .error e (tdb.withLocks locks)

/-- A call that does not look at the locks. -/
def Blind {α : Type} (x : TdbM α) : Prop := ∀ locks tdb, x (tdb.withLocks locks) = relock locks (x tdb)

/-! ## Programs -/

section Programs

variable {α β : Type} {x : TdbM α} {f : α → TdbM β}

theorem Blind.run (h : Blind x) {tdb tdb' : TdbContext} {a : α} (e : x tdb = .ok a tdb') (locks : List Nat) :
    x (tdb.withLocks locks) = .ok a (tdb'.withLocks locks) := by
  rw [h, e]
  rfl

theorem Blind.fails (h : Blind x) {tdb tdb' : TdbContext} {stop : Stop} (e : x tdb = .error stop tdb') (locks : List Nat) :
    x (tdb.withLocks locks) = .error stop (tdb'.withLocks locks) := by
  rw [h, e]
  rfl

theorem blind_pure (a : α) : Blind (pure a : TdbM α) := fun _ _ => rfl

theorem blind_throw (stop : Stop) : Blind (throw stop : TdbM α) := fun _ _ => rfl

theorem blind_errcode (e : TdbError) : Blind (errcode e : TdbM α) := fun _ _ => rfl

theorem Blind.bind (hx : Blind x) (hf : ∀ a, Blind (f a)) : Blind (x >>= f) := by
  intro locks tdb
  show EStateM.bind x f _ = relock locks (EStateM.bind x f tdb)
  unfold EStateM.bind
  rw [hx]
  cases x tdb with
  | ok a tdb' => exact hf a locks tdb'
  | error stop tdb' => rfl

/-- A program that reads the context does not look at the locks, if it goes on in the same way whatever is locked. -/
theorem blind_get {g : TdbContext → TdbM β} (hsame : ∀ locks tdb, g (tdb.withLocks locks) = g tdb) (hg : ∀ tdb, Blind (g tdb)) :
    Blind (get >>= g) := by
  intro locks tdb
  rw [get_bind, get_bind, hsame]
  exact hg tdb locks tdb

theorem Blind.attempt (hx : Blind x) : Blind (attempt x) := by
  intro locks tdb
  unfold Tdb.attempt
  rw [hx]
  rcases x tdb with ⟨a, tdb'⟩ | ⟨stop, tdb'⟩
  · rfl
  · cases stop <;> rfl

theorem blind_ite {c : Prop} [Decidable c] {y : TdbM α} (hx : Blind x) (hy : Blind y) : Blind (if c then x else y) := by
  split
  · exact hx
  · exact hy

end Programs

/-! ## Reading and writing -/

theorem blind_diskOp (op : DiskOp) : Blind (diskOp op) := fun _ _ => rfl

theorem blind_ioOob (len : Nat) : Blind (ioOob len) := by
  intro locks tdb
  unfold ioOob
  rw [get_bind, get_bind]
  show (if len ≤ tdb.mapSize then _ else if tdb.internal then _ else if tdb.disk.size < len then _ else _ : TdbM Unit) _ =
    relock locks ((if len ≤ tdb.mapSize then _ else if tdb.internal then _ else if tdb.disk.size < len then _ else _ : TdbM Unit) _)
  split
  · rfl
  · split
    · rfl
    · split <;> rfl

theorem blind_tdbOob (len : Nat) : Blind (tdbOob len) := by
  refine blind_get (fun _ _ => rfl) fun tdb => ?_
  cases tdb.methods with
  | io => exact blind_ioOob len
  | transaction =>
    exact blind_get (fun _ _ => rfl) fun tdb => blind_ite (blind_pure _) (blind_errcode _)

theorem blind_ioRead (off len : Nat) (cv : Bool) : Blind (ioRead off len cv) :=
  (blind_tdbOob _).bind fun _ => blind_get (fun _ _ => rfl) fun _ => blind_pure _

theorem blind_ioWrite (off : Nat) (buf : List UInt8) : Blind (ioWrite off buf) := by
  refine blind_get (fun _ _ => rfl) fun tdb => ?_
  refine blind_ite (blind_pure _) (blind_ite (blind_errcode _) ?_)
  exact (blind_tdbOob _).bind fun _ => blind_diskOp _

theorem blind_transactionFail {α : Type} : Blind (transactionFail : TdbM α) := fun _ _ => rfl

theorem blind_transactionReadEl {go : Nat → List UInt8 → TdbM (List UInt8)} (hgo : ∀ off buf, Blind (go off buf))
    (el : TransactionEl) (off : Nat) (buf : List UInt8) (cv : Bool) : Blind (transactionReadEl go el off buf cv) := by
  unfold transactionReadEl
  dsimp only
  refine (blind_ite (hgo _ _).attempt (blind_pure _)).bind fun first => ?_
  cases first with
  | none => exact blind_transactionFail
  | some first =>
    refine (blind_ite (hgo _ _).attempt (blind_pure _)).bind fun last => ?_
    cases last with
    | none => exact blind_transactionFail
    | some last => exact blind_pure _

theorem blind_transactionRead (cv : Bool) (fuel : Nat) : ∀ off buf, Blind (transactionRead cv fuel off buf) := by
  induction fuel with
  | zero => exact fun _ _ => blind_throw _
  | succ fuel ih =>
    intro off buf
    refine blind_get (fun _ _ => rfl) fun tdb => ?_
    cases tdb.transaction with
    | none => exact blind_throw _
    | some t =>
      dsimp only
      cases t.elements.reverse.find? fun el => el.meets off buf.length with
      | none => exact blind_ioRead off buf.length cv
      | some el => exact blind_transactionReadEl ih el off buf cv

theorem blind_transactionMethodWrite (off : Nat) (buf : WriteBuf) : Blind (transactionMethodWrite off buf) := by
  intro locks tdb
  unfold transactionMethodWrite
  rw [get_bind, get_bind]
  rw [show (tdb.withLocks locks).transaction = tdb.transaction from rfl,
    show (tdb.withLocks locks).hashSize = tdb.hashSize from rfl]
  cases tdb.transaction with
  | none => rfl
  | some t =>
    dsimp only
    cases transactionWrite tdb.hashSize (buf.length + 1) t off buf <;> rfl

theorem blind_tdbRead (off len : Nat) (cv : Bool) : Blind (tdbRead off len cv) := by
  refine blind_get (fun _ _ => rfl) fun tdb => ?_
  cases tdb.methods with
  | io => exact blind_ioRead off len cv
  | transaction => exact blind_transactionRead cv (len + 1) off _

theorem blind_tdbWrite (off : Nat) (buf : List UInt8) : Blind (tdbWrite off buf) := by
  refine blind_get (fun _ _ => rfl) fun tdb => ?_
  cases tdb.methods with
  | io => exact blind_ioWrite off buf
  | transaction => exact blind_transactionMethodWrite off _

theorem blind_tdbOfsRead (offset : Nat) : Blind (tdbOfsRead offset) :=
  blind_get (fun _ _ => rfl) fun _ => (blind_tdbRead _ _ _).bind fun _ => blind_pure _

theorem blind_tdbOfsWrite (offset d : Nat) : Blind (tdbOfsWrite offset d) :=
  blind_get (fun _ _ => rfl) fun _ => blind_tdbWrite _ _

theorem blind_tdbRecGet (offset : Nat) : Blind (tdbRecGet offset) :=
  blind_get (fun _ _ => rfl) fun _ => (blind_tdbRead _ _ _).bind fun _ => blind_pure _

theorem blind_tdbRecRead (offset : Nat) : Blind (tdbRecRead offset) := by
  refine (blind_tdbRecGet offset).bind fun r => blind_ite (blind_errcode _) ?_
  exact (blind_tdbOob _).bind fun _ => blind_pure _

theorem blind_tdbRecWrite (offset : Nat) (r : ListStruct) : Blind (tdbRecWrite offset r) :=
  blind_get (fun _ _ => rfl) fun _ => blind_tdbWrite _ _

theorem blind_tdbAllocRead (offset len : Nat) : Blind (tdbAllocRead offset len) :=
  (blind_tdbRead _ _ _).bind fun _ => blind_pure _

theorem blind_tdbParseKey (key : List UInt8) (offset len : Nat) : Blind (tdbParseKey key offset len) := by
  refine blind_get (fun _ _ => rfl) fun tdb => blind_ite ?_ ?_
  · exact (blind_tdbOob _).bind fun _ => blind_get (fun _ _ => rfl) fun _ => blind_pure _
  · exact (blind_tdbAllocRead _ _).bind fun _ => blind_pure _

/-! ## Calls on keys -/

theorem blind_keyMatches (key : List UInt8) (hash recPtr : Nat) (r : ListStruct) : Blind (keyMatches key hash recPtr r) :=
  blind_ite ((blind_tdbParseKey _ _ _).attempt.bind fun _ => blind_pure _) (blind_pure _)

theorem blind_tdbFindLoop (key : List UInt8) (hash fuel : Nat) : ∀ recPtr, Blind (tdbFindLoop key hash fuel recPtr) := by
  induction fuel with
  | zero => exact fun _ => blind_throw _
  | succ fuel ih =>
    refine fun recPtr => blind_ite (blind_errcode _) ?_
    refine (blind_tdbRecRead _).bind fun r => (blind_keyMatches _ _ _ _).bind fun b => ?_
    exact blind_ite (blind_pure _) (ih _)

theorem blind_tdbFind (key : List UInt8) (hash : Nat) : Blind (tdbFind key hash) :=
  blind_get (fun _ _ => rfl) fun _ => (blind_tdbOfsRead _).bind fun _ => blind_tdbFindLoop _ _ _ _

theorem blind_doDeleteLoop (recPtr fuel : Nat) : ∀ lastPtr i, Blind (doDeleteLoop recPtr fuel lastPtr i) := by
  induction fuel with
  | zero => exact fun _ _ => blind_throw _
  | succ fuel ih =>
    exact fun lastPtr i => blind_ite (blind_pure _) ((blind_tdbRecRead _).bind fun _ => ih _ _)

theorem blind_countDeadLoop (fuel : Nat) : ∀ res recPtr, Blind (countDeadLoop fuel res recPtr) := by
  induction fuel with
  | zero => exact fun _ _ => blind_throw _
  | succ fuel ih =>
    exact fun res recPtr => blind_ite (blind_pure _) ((blind_tdbRecRead _).bind fun _ => ih _ _)

theorem blind_tdbCountDead (hash : Nat) : Blind (tdbCountDead hash) := by
  refine blind_get (fun _ _ => rfl) fun tdb => Blind.bind (Blind.attempt ?_) fun _ => blind_pure _
  exact (blind_tdbOfsRead _).bind fun _ => blind_countDeadLoop _ _ _

theorem blind_tdbIncrementSeqnum : Blind tdbIncrementSeqnum := by
  refine blind_get (fun _ _ => rfl) fun tdb => blind_ite ?_ (blind_pure _)
  exact (blind_tdbOfsRead _).attempt.bind fun _ => (blind_tdbOfsWrite _ _).attempt.bind fun _ => blind_pure _

/-! ## The free list -/

theorem blind_removeFromFreelistLoop (off next fuel : Nat) : ∀ lastPtr, Blind (removeFromFreelistLoop off next fuel lastPtr) := by
  induction fuel with
  | zero => exact fun _ => blind_throw _
  | succ fuel ih =>
    refine fun lastPtr => (blind_tdbOfsRead _).attempt.bind fun i => ?_
    cases i with
    | none => exact blind_errcode _
    | some i => exact blind_ite (blind_errcode _) (blind_ite (blind_tdbOfsWrite _ _) (ih _))

theorem blind_removeFromFreelist (off next : Nat) : Blind (removeFromFreelist off next) :=
  blind_get (fun _ _ => rfl) fun _ => blind_removeFromFreelistLoop _ _ _ _

theorem blind_updateTailer (offset : Nat) (r : ListStruct) : Blind (updateTailer offset r) := blind_tdbOfsWrite _ _

theorem blind_freeRight (offset : Nat) (r : ListStruct) : Blind (freeRight offset r) := by
  refine blind_get (fun _ _ => rfl) fun tdb => blind_ite ?_ (blind_pure _)
  refine (blind_tdbRecGet _).attempt.bind fun rr => ?_
  cases rr with
  | none => exact blind_pure _
  | some rr =>
    refine blind_ite ((blind_removeFromFreelist _ _).attempt.bind fun a => ?_) (blind_pure _)
    cases a with
    | none => exact blind_pure _
    | some _ => exact blind_pure _

theorem blind_freeLeft (offset : Nat) (r : ListStruct) : Blind (freeLeft offset r) := by
  refine blind_get (fun _ _ => rfl) fun tdb => blind_ite ?_ (blind_pure _)
  refine (blind_tdbOfsRead _).attempt.bind fun leftsize => ?_
  cases leftsize with
  | none => exact blind_pure _
  | some leftsize =>
    refine blind_ite (blind_pure _) ((blind_tdbRecGet _).attempt.bind fun l => ?_)
    cases l with
    | none => exact blind_pure _
    | some l =>
      refine blind_ite ((blind_removeFromFreelist _ _).attempt.bind fun a => ?_) (blind_pure _)
      cases a with
      | none => exact blind_pure _
      | some _ => exact blind_pure _

theorem blind_tdbFree (offset : Nat) (r : ListStruct) : Blind (tdbFree offset r) := by
  refine (blind_updateTailer _ _).bind fun _ => (blind_freeRight _ _).bind fun r => (blind_freeLeft _ _).bind fun p => ?_
  refine (blind_updateTailer _ _).bind fun _ => (blind_tdbOfsRead _).bind fun _ => ?_
  exact (blind_tdbRecWrite _ _).bind fun _ => blind_tdbOfsWrite _ _

/-- Where its record is not locked, `tdb_do_delete` does what it does without locks. -/
theorem tdbDoDelete_unlocked {tdb : TdbContext} {locks : List Nat} {recPtr : Nat} (h0 : recPtr ∉ tdb.travlocks)
    (h : recPtr ∉ locks) (r : ListStruct) :
    tdbDoDelete recPtr r (tdb.withLocks locks) = relock locks (tdbDoDelete recPtr r tdb) := by
  unfold tdbDoDelete
  rw [get_bind, get_bind]
  show (if tdb.readOnly || tdb.traverseRead then _ else if recPtr ∈ locks then _ else _ : TdbM Unit) _ =
    relock locks ((if tdb.readOnly || tdb.traverseRead then _ else if recPtr ∈ tdb.travlocks then _ else _ : TdbM Unit) _)
  rw [if_neg h, if_neg h0]
  refine blind_ite (blind_throw _) ?_ locks tdb
  refine (blind_tdbOfsRead _).bind fun i => (blind_doDeleteLoop _ _ _ _).bind fun lastPtr => ?_
  exact (blind_tdbOfsWrite _ _).bind fun _ => blind_tdbFree _ _

theorem tdbDoDelete_locked {tdb : TdbContext} {locks : List Nat} {recPtr : Nat} (h : recPtr ∈ locks)
    (hwrite : (tdb.readOnly || tdb.traverseRead) = false) (r : ListStruct) :
    tdbDoDelete recPtr r (tdb.withLocks locks) =
      relock locks (tdbRecWrite recPtr { r with magic := tdbDeadMagic } tdb) := by
  unfold tdbDoDelete
  rw [get_bind]
  show (if tdb.readOnly || tdb.traverseRead then _ else if recPtr ∈ locks then _ else _ : TdbM Unit) _ = _
  rw [if_neg (by rw [hwrite]; decide), if_pos h]
  exact blind_tdbRecWrite _ _ locks tdb

end Samba.Tdb
