/-
The list of the stores of paged searches under the calls of the module: the pointers of neighbours agree in every run, and the
list has every store that was not freed as long as its head is freed only when it is the only one.
-/
import Samba.Ldb.PagedResults

namespace Samba.Ldb

open CString Links Option Transition

variable {Entry Control : Type} {priv priv' : PrivateData Entry Control} {a b : Addr} {s t s' : ResultsStore Entry Control}

namespace ResultsStore

/-- A store without its place in the list. -/
def contents (s : ResultsStore Entry Control) : ResultsStore Entry Control := { s with prev := none, next := none }

/-- Stores that differ in their results only. -/
structure SamePlace (s s' : ResultsStore Entry Control) : Prop where
  cookie : s'.cookie = s.cookie
  prev : s'.prev = s.prev
  next : s'.next = s.next

theorem SamePlace.refl (s : ResultsStore Entry Control) : SamePlace s s := ⟨rfl, rfl, rfl⟩

theorem SamePlace.trans {s s' s'' : ResultsStore Entry Control} (h : SamePlace s s') (h' : SamePlace s' s'') : SamePlace s s'' :=
  ⟨h'.cookie.trans h.cookie, h'.prev.trans h.prev, h'.next.trans h.next⟩

theorem SamePlace.lower {s s' : ResultsStore Entry Control} (h : SamePlace s s') (lower : List (LowerCall Entry Control)) :
    SamePlace s { s' with lower } := ⟨h.cookie, h.prev, h.next⟩

/-- What becomes of the neighbours when a store leaves the list. -/
def relink (s : ResultsStore Entry Control) (b : Addr) (t : ResultsStore Entry Control) : ResultsStore Entry Control :=
  { t with next := if s.prev = some b then s.next else t.next, prev := if s.next = some b then s.prev else t.prev }

end ResultsStore

open ResultsStore

namespace PrivateData

/-- Neighbours point to each other, and a store is older than the one before it. -/
structure Sound (priv : PrivateData Entry Control) : Prop where
  head : ∀ {a}, priv.store = some a → ∃ s, priv.heap a = some s ∧ s.prev = none
  next : ∀ {a s b}, priv.heap a = some s → s.next = some b → b < a ∧ ∃ t, priv.heap b = some t ∧ t.prev = some a
  prev : ∀ {a s b}, priv.heap a = some s → s.prev = some b → a < b ∧ ∃ t, priv.heap b = some t ∧ t.next = some a
  fresh : ∀ {a s}, priv.heap a = some s → a < priv.brk

theorem Sound.init : (PagedModule.init : PagedModule Entry Control).priv.Sound where
  head h := nomatch h
  next h := nomatch h
  prev h := nomatch h
  fresh h := nomatch h

/-! ## What the operations do -/

/-- The module after the store `s` at `a` was freed. -/
def freed (priv : PrivateData Entry Control) (a : Addr) (s : ResultsStore Entry Control) : PrivateData Entry Control :=
  { priv with
    store := if priv.store = some a then none else priv.store
    heap := fun b => if b = a then none else (priv.heap b).map (relink s b) }

/-- A store without results, before the others. -/
def fresh (priv : PrivateData Entry Control) : ResultsStore Entry Control :=
  ⟨printInt priv.nextFreeId, none, priv.store, [], 0, [], []⟩

/-- The module after a store was put before the others. -/
def started (priv : PrivateData Entry Control) : PrivateData Entry Control where
  nextFreeId := priv.nextFreeId + 1
  store := some priv.brk
  heap b := if b = priv.brk then some priv.fresh
    else if priv.store = some b then (priv.heap b).map fun t => { t with prev := some priv.brk } else priv.heap b
  brk := priv.brk + 1

theorem set_self (hs : priv.heap a = some s) : priv.set a (some s) = priv := by
  obtain ⟨id, head, heap, brk⟩ := priv
  rw [set]
  congr 1
  funext b
  by_cases hb : b = a
  · rw [if_pos hb, hb]
    exact hs.symm
  · rw [if_neg hb]

/-- An assignment through a pointer that is `NULL` or points to a store. -/
theorem assign_eq {p : Option Addr} (hp : ∀ c, p = some c → ∃ t, priv.heap c = some t)
    (f : ResultsStore Entry Control → ResultsStore Entry Control) :
    priv.assign p f = some { priv with heap := fun b => if p = some b then (priv.heap b).map f else priv.heap b } := by
  cases p with
  | none => simp [assign]
  | some c =>
    obtain ⟨t, ht⟩ := hp c rfl
    rw [assign, ht, map_some, set]
    congr 2
    funext b
    by_cases hb : b = c
    · rw [if_pos hb, if_pos (congrArg some hb.symm), hb, ht, map_some]
    · rw [if_neg hb, if_neg fun h => hb (Option.some.inj h).symm]

/-- The two assignments of the destructor, for one store. -/
theorem relink_eq (s : ResultsStore Entry Control) (t : Option (ResultsStore Entry Control)) :
    (if s.next = some b then (if s.prev = some b then t.map fun t => { t with next := s.next } else t).map
        fun t => { t with prev := s.prev }
      else if s.prev = some b then t.map fun t => { t with next := s.next } else t) = t.map (relink s b) := by
  cases t with
  | none => simp
  | some t => by_cases h₁ : s.next = some b <;> by_cases h₂ : s.prev = some b <;> simp [h₁, h₂, relink]

theorem Sound.freeStore_eq (h : priv.Sound) (hs : priv.heap a = some s) :
    freeStore priv a = some (priv.freed a s) := by
  have hprev := assign_eq (fun c hc => (h.prev hs hc).2.imp fun _ => And.left) fun t => { t with next := s.next }
  have hnext := @assign_eq _ _ { priv with
      heap := fun b => if s.prev = some b then (priv.heap b).map fun t => { t with next := s.next } else priv.heap b } s.next
    (by
      intro c hc
      obtain ⟨-, t, ht, -⟩ := h.next hs hc
      simp only [ht]
      split <;> exact ⟨_, rfl⟩) fun t => { t with prev := s.prev }
  rw [freeStore, storeDestructor, hs]
  simp only [bind_eq_bind, bind_some, hprev, hnext, pure_def, map_some, relink_eq]
  rw [freed]
  split <;> rfl

theorem Sound.newStore_eq (h : priv.Sound) (hid : priv.nextFreeId < intMax) :
    newStore priv = some (priv.started, priv.brk) := by
  rw [newStore, if_pos hid]
  simp only [bind_eq_bind, bind_some, pure_def, set,
    assign_eq (fun c hc => (h.head hc).imp fun _ => And.left)]
  rfl

theorem freed_heap (hb : b ≠ a) : (priv.freed a s).heap b = (priv.heap b).map (relink s b) := if_neg hb

theorem freed_eq_some (h : (priv.freed a s).heap b = some t) : b ≠ a ∧ ∃ t₀, priv.heap b = some t₀ ∧ t = relink s b t₀ := by
  by_cases hb : b = a
  · cases (if_pos hb).symm.trans h
  · rw [freed_heap hb, map_eq_some_iff] at h
    obtain ⟨t₀, ht₀, rfl⟩ := h
    exact ⟨hb, t₀, ht₀, rfl⟩

theorem started_heap (hb : b ≠ priv.brk) :
    priv.started.heap b = (priv.heap b).map fun t => { t with prev := if priv.store = some b then some priv.brk else t.prev } := by
  refine (if_neg hb).trans ?_
  split <;> simp

theorem started_heap_brk : priv.started.heap priv.brk = some priv.fresh := if_pos rfl

theorem started_eq_some (h : priv.started.heap b = some t) (hb : b ≠ priv.brk) :
    ∃ t₀, priv.heap b = some t₀ ∧ t = { t₀ with prev := if priv.store = some b then some priv.brk else t₀.prev } := by
  rw [started_heap hb, map_eq_some_iff] at h
  obtain ⟨t₀, ht₀, rfl⟩ := h
  exact ⟨t₀, ht₀, rfl⟩

/-! ## Neighbours -/

/-- What is written into a store that stays at its place. -/
theorem Sound.set (h : priv.Sound) (hs : priv.heap a = some s) (hplace : SamePlace s s') : (priv.set a (some s')).Sound := by
  -- a store of the module after it has the place of one before it
  have hback : ∀ {b t}, (priv.set a (some s')).heap b = some t → ∃ t₀, priv.heap b = some t₀ ∧ SamePlace t₀ t := by
    intro b t ht
    by_cases hb : b = a
    · subst hb
      rw [set_heap_same] at ht
      cases ht
      exact ⟨s, hs, hplace⟩
    · rw [set_heap_of_ne _ hb] at ht
      exact ⟨t, ht, .refl t⟩
  have hforth : ∀ {b t}, priv.heap b = some t → ∃ t', (priv.set a (some s')).heap b = some t' ∧ SamePlace t t' := by
    intro b t ht
    by_cases hb : b = a
    · subst hb
      cases hs.symm.trans ht
      exact ⟨s', set_heap_same _ _ _, hplace⟩
    · exact ⟨t, (set_heap_of_ne _ hb _).trans ht, .refl t⟩
  refine ⟨fun {b} hb => ?_, fun {b t c} ht hc => ?_, fun {b t c} ht hc => ?_, fun {b t} ht => ?_⟩
  · obtain ⟨t, ht, hprev⟩ := h.head hb
    obtain ⟨t', ht', hp⟩ := hforth ht
    exact ⟨t', ht', hp.prev.trans hprev⟩
  · obtain ⟨t₀, ht₀, hp⟩ := hback ht
    obtain ⟨hlt, u, hu, hprev⟩ := h.next ht₀ (hp.next.symm.trans hc)
    obtain ⟨u', hu', hp'⟩ := hforth hu
    exact ⟨hlt, u', hu', hp'.prev.trans hprev⟩
  · obtain ⟨t₀, ht₀, hp⟩ := hback ht
    obtain ⟨hlt, u, hu, hnext⟩ := h.prev ht₀ (hp.prev.symm.trans hc)
    obtain ⟨u', hu', hp'⟩ := hforth hu
    exact ⟨hlt, u', hu', hp'.next.trans hnext⟩
  · obtain ⟨t₀, ht₀, -⟩ := hback ht
    exact h.fresh ht₀

theorem Sound.freed (h : priv.Sound) (hs : priv.heap a = some s) : (priv.freed a s).Sound := by
  refine ⟨fun {b} hb => ?_, fun {b t c} ht hc => ?_, fun {b t c} ht hc => ?_, fun {b t} ht => ?_⟩
  · rw [PrivateData.freed] at hb
    dsimp only at hb
    split at hb
    case isTrue => cases hb
    case isFalse hne =>
      obtain ⟨t, ht, hprev⟩ := h.head hb
      have hba : b ≠ a := fun hba => hne (hba ▸ hb)
      refine ⟨relink s b t, by rw [freed_heap hba, ht]; rfl, ?_⟩
      -- nothing is before the head
      rw [relink]
      dsimp only
      split
      case isFalse => exact hprev
      case isTrue hnext =>
        obtain ⟨-, u, hu, hup⟩ := h.next hs hnext
        cases hu.symm.trans ht
        cases hup.symm.trans hprev
  · obtain ⟨hba, t₀, ht₀, rfl⟩ := freed_eq_some ht
    rw [relink] at hc
    dsimp only at hc
    split at hc
    case isTrue hprev =>
      -- `b` was before the store, and `c` after it
      obtain ⟨hlt, u, hu, -⟩ := h.next hs hc
      obtain ⟨hlt', -⟩ := h.prev hs hprev
      refine ⟨hlt.trans hlt', relink s c u, by rw [freed_heap hlt.ne, hu]; rfl, ?_⟩
      rw [relink]
      exact (if_pos hc).trans hprev
    case isFalse hprev =>
      obtain ⟨hlt, u, hu, hup⟩ := h.next ht₀ hc
      have hca : c ≠ a := by
        rintro rfl
        cases hs.symm.trans hu
        exact hprev hup
      refine ⟨hlt, relink s c u, by rw [freed_heap hca, hu]; rfl, ?_⟩
      rw [relink]
      dsimp only
      rw [if_neg, hup]
      intro hnext
      obtain ⟨-, u', hu', hup'⟩ := h.next hs hnext
      cases hu.symm.trans hu'
      exact hba (Option.some.inj (hup.symm.trans hup'))
  · obtain ⟨hba, t₀, ht₀, rfl⟩ := freed_eq_some ht
    rw [relink] at hc
    dsimp only at hc
    split at hc
    case isTrue hnext =>
      obtain ⟨hlt, u, hu, -⟩ := h.prev hs hc
      obtain ⟨hlt', -⟩ := h.next hs hnext
      refine ⟨hlt'.trans hlt, relink s c u, by rw [freed_heap hlt.ne', hu]; rfl, ?_⟩
      rw [relink]
      exact (if_pos hc).trans hnext
    case isFalse hnext =>
      obtain ⟨hlt, u, hu, hun⟩ := h.prev ht₀ hc
      have hca : c ≠ a := by
        rintro rfl
        cases hs.symm.trans hu
        exact hnext hun
      refine ⟨hlt, relink s c u, by rw [freed_heap hca, hu]; rfl, ?_⟩
      rw [relink]
      dsimp only
      rw [if_neg, hun]
      intro hprev
      obtain ⟨-, u', hu', hun'⟩ := h.prev hs hprev
      cases hu.symm.trans hu'
      exact hba (Option.some.inj (hun.symm.trans hun'))
  · obtain ⟨-, t₀, ht₀, -⟩ := freed_eq_some ht
    exact h.fresh ht₀

theorem Sound.started (h : priv.Sound) : priv.started.Sound := by
  have hold : ∀ {b t}, priv.heap b = some t → b ≠ priv.brk := fun ht => Nat.ne_of_lt (h.fresh ht)
  refine ⟨fun {b} hb => ?_, fun {b t c} ht hc => ?_, fun {b t c} ht hc => ?_, fun {b t} ht => ?_⟩
  · cases hb
    exact ⟨priv.fresh, started_heap_brk, rfl⟩
  · by_cases hb : b = priv.brk
    · subst hb
      cases started_heap_brk.symm.trans ht
      obtain ⟨u, hu, -⟩ := h.head hc
      exact ⟨h.fresh hu, _, by rw [started_heap (hold hu), hu]; rfl, if_pos hc⟩
    · obtain ⟨t₀, ht₀, rfl⟩ := started_eq_some ht hb
      obtain ⟨hlt, u, hu, hup⟩ := h.next ht₀ hc
      refine ⟨hlt, _, by rw [started_heap (hold hu), hu]; rfl, ?_⟩
      dsimp only
      rw [if_neg, hup]
      -- the head has no store before it
      intro hhead
      obtain ⟨u', hu', hup'⟩ := h.head hhead
      cases hu.symm.trans hu'
      cases hup.symm.trans hup'
  · by_cases hb : b = priv.brk
    · subst hb
      cases started_heap_brk.symm.trans ht
      cases hc
    · obtain ⟨t₀, ht₀, rfl⟩ := started_eq_some ht hb
      dsimp only at hc
      split at hc
      case isTrue hhead =>
        cases hc
        exact ⟨h.fresh ht₀, priv.fresh, started_heap_brk, hhead⟩
      case isFalse =>
        obtain ⟨hlt, u, hu, hun⟩ := h.prev ht₀ hc
        refine ⟨hlt, { u with prev := if priv.store = some c then some priv.brk else u.prev }, ?_, hun⟩
        rw [started_heap (hold hu), hu, map_some]
  · by_cases hb : b = priv.brk
    · exact hb ▸ Nat.lt_succ_self _
    · obtain ⟨t₀, ht₀, -⟩ := started_eq_some ht hb
      exact Nat.lt_succ_of_lt (h.fresh ht₀)

end PrivateData

open PrivateData

/-! ## What a call does to the stores -/

theorem pagedSearchCallback_place {r : LowerReply Entry Control} (h : pagedSearchCallback s r = some s') : SamePlace s s' := by
  cases r with
  | entry e =>
    rw [pagedSearchCallback] at h
    split at h
    · cases h
      exact ⟨rfl, rfl, rfl⟩
    · cases h
  | done controls =>
    cases h
    exact ⟨rfl, rfl, rfl⟩

theorem lowerCall_place {call : LowerCall Entry Control} (h : lowerCall s call = some s') : SamePlace s s' := by
  obtain ⟨replies, ret⟩ := call
  rw [lowerCall] at h
  dsimp only at h
  induction replies generalizing s with
  | nil =>
    cases h
    exact .refl _
  | cons r replies ih =>
    rw [List.foldlM_cons, bind_eq_bind, bind_eq_some_iff] at h
    obtain ⟨t, ht, h⟩ := h
    exact (pagedSearchCallback_place ht).trans (ih h)

theorem waitAll_place {lower : List (LowerCall Entry Control)} {ret : Int} (h : waitAll s lower = some (s', ret)) :
    SamePlace s s' := by
  induction lower generalizing s with
  | nil =>
    cases h
    exact ⟨rfl, rfl, rfl⟩
  | cons call lower ih =>
    rw [waitAll, bind_eq_bind, bind_eq_some_iff] at h
    obtain ⟨t, ht, h⟩ := h
    have hplace := lowerCall_place ht
    split at h
    · cases h
      exact hplace.lower _
    · exact hplace.trans (ih h)

theorem pagedResults_place {up : Reply Entry Control → Int} {handle handle' : PagedHandle} {replies : List (Reply Entry Control)}
    {ret : Int} (h : pagedResults up handle s = some (s', handle', replies, ret)) :
    SamePlace s s' ∧ handle'.store = handle.store := by
  rw [pagedResults, bind_eq_bind, bind_eq_some_iff] at h
  obtain ⟨d, -, h⟩ := h
  dsimp only at h
  split at h <;> cases h <;> exact ⟨⟨rfl, rfl, rfl⟩, rfl⟩

/-- The store that a call is about: of a search with a cookie, and of a wait. -/
def ownStore (m : PagedModule Entry Control) : PagedCall Entry Control → Option Addr
  | .search req => req.cookie.bind fun cookie => (findStore m.priv.heap (cstr cookie) m.priv.brk m.priv.store).join
  | .wait i _ _ => m.handles[i]?.map (·.store)

/-- A search that is abandoned by the request that starts it. -/
def PagedCall.isDropped : PagedCall Entry Control → Prop
  | .search req => req.cookie = none ∧ req.size = 0
  | .wait .. => False

/-- What a call makes of the stores. -/
inductive Change (m : PagedModule Entry Control) (c : PagedCall Entry Control) : PrivateData Entry Control → Prop
  | same : Change m c m.priv
  | started {s' : ResultsStore Entry Control} (hid : m.priv.nextFreeId < intMax) (h : SamePlace m.priv.fresh s') :
    Change m c (m.priv.started.set m.priv.brk (some s'))
  | dropped {s' : ResultsStore Entry Control} (hid : m.priv.nextFreeId < intMax) (h : SamePlace m.priv.fresh s')
    (hc : c.isDropped) : Change m c ((m.priv.started.set m.priv.brk (some s')).freed m.priv.brk s')
  | updated {a : Addr} {s s' : ResultsStore Entry Control} (hown : ownStore m c = some a) (hs : m.priv.heap a = some s)
    (h : SamePlace s s') : Change m c (m.priv.set a (some s'))
  | ended {a : Addr} {s s' : ResultsStore Entry Control} (hown : ownStore m c = some a) (hs : m.priv.heap a = some s)
    (h : SamePlace s s') : Change m c ((m.priv.set a (some s')).freed a s')

section Step

variable {m m' : PagedModule Entry Control} {c : PagedCall Entry Control}

theorem findStore_live {heap : Addr → Option (ResultsStore Entry Control)} {cookie : Text} {fuel : Nat} {p : Option Addr}
    (h : findStore heap cookie fuel p = some (some a)) : ∃ s, heap a = some s ∧ s.cookie = cookie := by
  induction fuel generalizing p with
  | zero => cases p <;> cases h
  | succ fuel ih =>
    cases p with
    | none => cases h
    | some b =>
      rw [findStore, bind_eq_bind, bind_eq_some_iff] at h
      obtain ⟨t, ht, h⟩ := h
      split at h
      case isTrue hcookie =>
        cases h
        exact ⟨t, ht, hcookie⟩
      case isFalse => exact ih h

theorem search_change {req : PagedRequest Entry Control} {res : SearchResult Entry Control} (h : m.priv.Sound)
    (hres : pagedSearch m.priv req = some res) : Change m (.search req) res.priv := by
  rw [pagedSearch] at hres
  cases hcookie : req.cookie with
  | none =>
    rw [hcookie] at hres
    dsimp only at hres
    by_cases hid : m.priv.nextFreeId < intMax
    · rw [h.newStore_eq hid] at hres
      simp only [bind_eq_bind, bind_some, started_heap_brk, bind_eq_some_iff] at hres
      obtain ⟨t, ht, hres⟩ := hres
      have hplace := (lowerCall_place ht).lower req.lower
      have hsound := h.started.set started_heap_brk hplace
      rw [pagedSearch.finish] at hres
      split at hres
      case isTrue hsize =>
        rw [hsound.freeStore_eq (set_heap_same _ _ _)] at hres
        cases hres
        exact .dropped hid hplace ⟨hcookie, hsize⟩
      case isFalse =>
        cases hres
        exact .started hid hplace
    · rw [newStore, if_neg hid] at hres
      cases hres
  | some cookie =>
    rw [hcookie] at hres
    dsimp only at hres
    rw [bind_eq_bind, bind_eq_some_iff] at hres
    obtain ⟨found, hfound, hres⟩ := hres
    cases found with
    | none =>
      cases hres
      exact .same
    | some a =>
      have hown : ownStore m (.search req) = some a := by simp [ownStore, hcookie, hfound]
      obtain ⟨s, hs, -⟩ := findStore_live hfound
      dsimp only at hres
      rw [pagedSearch.finish] at hres
      split at hres
      case isTrue =>
        rw [h.freeStore_eq hs] at hres
        cases hres
        have hended := Change.ended hown hs (.refl s)
        rwa [set_self hs] at hended
      case isFalse =>
        cases hres
        exact .same

theorem deliverPage_change {up : Reply Entry Control → Int} {handle : PagedHandle} {res : WaitResult Entry Control}
    (h : m.priv.Sound) (hown : ownStore m c = some handle.store) (hs : m.priv.heap handle.store = some s) (hplace : SamePlace s s')
    (hres : deliverPage up m.priv handle s' = some res) : Change m c res.priv := by
  rw [deliverPage, bind_eq_bind, bind_eq_some_iff] at hres
  obtain ⟨⟨t, handle', replies, ret⟩, ht, hres⟩ := hres
  obtain ⟨hplace', hstore⟩ := pagedResults_place ht
  dsimp only at hres
  rw [hstore] at hres
  have hst := hplace.trans hplace'
  split at hres
  case isTrue =>
    rw [(h.set hs hst).freeStore_eq (set_heap_same _ _ _)] at hres
    cases hres
    exact .ended hown hs hst
  case isFalse =>
    cases hres
    exact .updated hown hs hst

theorem wait_change {i : Nat} {type : WaitType} {up : Reply Entry Control → Int} {handle : PagedHandle}
    {res : WaitResult Entry Control} (h : m.priv.Sound) (hhandle : m.handles[i]? = some handle)
    (hres : pagedWait up m.priv handle type = some res) : Change m (.wait i type up) res.priv := by
  have hown : ownStore m (.wait i type up) = some handle.store := by rw [ownStore, hhandle]; rfl
  rw [pagedWait] at hres
  split at hres
  case isTrue =>
    cases hres
    exact .same
  case isFalse =>
    rw [bind_eq_bind, bind_eq_some_iff] at hres
    obtain ⟨s, hs, hres⟩ := hres
    split at hres
    · exact deliverPage_change h hown hs (.refl s) hres
    · rw [bind_eq_bind, bind_eq_some_iff] at hres
      obtain ⟨⟨t, ret⟩, ht, hres⟩ := hres
      dsimp only at hres
      split at hres
      · cases hres
        exact .updated hown hs (waitAll_place ht)
      · exact deliverPage_change h hown hs (waitAll_place ht) hres
    · rw [bind_eq_some_iff] at hres
      obtain ⟨t, ht, hres⟩ := hres
      have hplace := (lowerCall_place ht).lower
      dsimp only at hres
      split at hres
      · cases hres
        exact .updated hown hs (hplace _)
      · split at hres
        · exact deliverPage_change h hown hs (hplace _) hres
        · cases hres
          exact .updated hown hs (hplace _)

theorem step_change (h : m.priv.Sound) (hstep : m.step c = some m') : Change m c m'.priv := by
  cases c with
  | search req =>
    rw [PagedModule.step, map_eq_some_iff] at hstep
    obtain ⟨res, hres, rfl⟩ := hstep
    exact search_change h hres
  | wait i type up =>
    rw [PagedModule.step, bind_eq_bind, bind_eq_some_iff] at hstep
    obtain ⟨handle, hhandle, hstep⟩ := hstep
    rw [bind_eq_bind, bind_eq_some_iff] at hstep
    obtain ⟨res, hres, hstep⟩ := hstep
    cases hstep
    exact wait_change h hhandle hres

theorem Change.sound {p : PrivateData Entry Control} (h : m.priv.Sound) (hc : Change m c p) : p.Sound := by
  cases hc with
  | same => exact h
  | started hid hplace => exact h.started.set started_heap_brk hplace
  | dropped hid hplace hc => exact (h.started.set started_heap_brk hplace).freed (set_heap_same _ _ _)
  | updated hown hs hplace => exact h.set hs hplace
  | ended hown hs hplace => exact (h.set hs hplace).freed (set_heap_same _ _ _)

/-- In every run, also after the head was freed, neighbours point to each other. -/
theorem sound_of_reachable (h : pagedSystem.Reachable m) : m.priv.Sound := by
  refine @System.Reachable.invariant _ _ _ (fun m => m.priv.Sound) ?_ ?_ _ h
  · rintro m rfl
    exact .init
  · exact fun m c m' hsound hstep => (step_change hsound hstep).sound hsound

end Step

end Samba.Ldb
