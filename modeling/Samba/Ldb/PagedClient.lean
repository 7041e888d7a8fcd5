/-
A client that follows the cookies of a paged search (lib/ldb/modules/paged_results.c). Whether a page ends with a cookie is
decided by what is left of its size, and whether the store is freed by what is left in it: a page that is asked for as large as
what the store then holds gets the cookie of a store that is gone.
-/
import Samba.Ldb.PagedStores

namespace Samba.Ldb

open CString List ResultsStore

variable {Entry Control : Type}

/-! ## The client -/

/-- What a page brings: the code of a failure, or entries and the cookie of the next page. -/
inductive Page (Entry : Type)
  | failed (ret : Int)
  | done (entries : List Entry) (cookie : Option Text)
  deriving DecidableEq, Repr

/-- A client whose callback takes every reply. -/
def takesAll : Reply Entry Control → Int := fun _ => ldbSuccess

def Reply.entry? : Reply Entry Control → Option Entry
  | .entry e => some e
  | .done .. => none

def Reply.cookie? : Reply Entry Control → Option Text
  | .entry _ => none
  | .done _ paged => paged.cookie

def LowerReply.entry? : LowerReply Entry Control → Option Entry
  | .entry e => some e
  | .done _ => none

/-- The entries that a call into the search below passes up. -/
def LowerCall.entries (call : LowerCall Entry Control) : List Entry := call.replies.filterMap LowerReply.entry?

/-- `ldb_wait` until the handle is done or the wait fails; `waits` has the types of the waits. -/
def waitPage (waits : Nat → WaitType) : Nat → PrivateData Entry Control → PagedHandle →
    Option (PrivateData Entry Control × List (Reply Entry Control) × Int)
  | 0, _, _ => none
  | fuel + 1, priv, handle => do
    let res ← pagedWait takesAll priv handle (waits 0)
    if res.ret ≠ ldbSuccess ∨ res.handle.done then return (res.priv, res.replies, res.ret)
    else do
      let (priv, replies, ret) ← waitPage (fun i => waits (i + 1)) fuel res.priv res.handle
      return (priv, res.replies ++ replies, ret)

/-- How many calls into the search below are still to come, for the store of a handle. -/
def callsLeft (priv : PrivateData Entry Control) (handle : PagedHandle) : Nat :=
  ((priv.heap handle.store).map (·.lower.length)).getD 0

/-- The rest of a page after `ldb_request`. -/
def clientWait (waits : Nat → WaitType) (res : SearchResult Entry Control) : Option (PrivateData Entry Control × Page Entry) :=
  match res.handle with
  | none => some (res.priv, .failed res.ret)
  | some handle =>
    if res.ret ≠ ldbSuccess then some (res.priv, .failed res.ret)
    else do
      let (priv, replies, ret) ← waitPage waits (callsLeft res.priv handle + 1) res.priv handle
      return (priv, if ret ≠ ldbSuccess then .failed ret
        else .done (replies.filterMap Reply.entry?) (replies.getLast?.bind Reply.cookie?))

/-- What a client does with a page: it goes on with the cookie, or has all. -/
def clientNext (next : PrivateData Entry Control → Text → Option (List (List Entry))) :
    PrivateData Entry Control × Page Entry → Option (List (List Entry))
  | (_, .failed _) => none
  | (_, .done entries none) => some [entries]
  | (priv, .done entries (some cookie)) => (next priv cookie).map (entries :: ·)

/-- The pages of a client that repeats a search with the cookie of the reply before, until there is no cookie: page `k` is asked
for with the size `sizes k`, and waited for with the types `waits k`. -/
def clientRun (start : LowerCall Entry Control) (lower : List (LowerCall Entry Control)) : Nat → (Nat → Nat) →
    (Nat → Nat → WaitType) → PrivateData Entry Control → Option Text → Option (List (List Entry))
  | 0, _, _, _, _ => none
  | fuel + 1, sizes, waits, priv, cookie => do
    let res ← pagedSearch priv ⟨cookie, sizes 0, start, lower⟩
    let page ← clientWait (waits 0) res
    clientNext (fun priv cookie => clientRun start lower fuel (fun k => sizes (k + 1)) (fun k => waits (k + 1)) priv (some cookie))
      page

/-! ## Counting -/

/-- How many entries a store holds when a page is delivered, and what the calls still to come will add: the waits go on until
the page can be filled or the search below is done. -/
def arrived (size : Nat) : (Nat → WaitType) → Nat → List Nat → Nat × List Nat
  | _, held, [] => (held, [])
  | waits, held, n :: ns =>
    match waits 0 with
    | .all => (held + (n :: ns).sum, [])
    | .none => if size ≤ held + n ∨ ns = [] then (held + n, ns) else arrived size (fun i => waits (i + 1)) (held + n) ns

/-- How many entries the store holds when page `k` is delivered. -/
def heldAt : Nat → (Nat → Nat) → (Nat → Nat → WaitType) → Nat → List Nat → Nat
  | 0, sizes, waits, held, ns => (arrived (sizes 0) (waits 0) held ns).1
  | k + 1, sizes, waits, held, ns =>
    let a := arrived (sizes 0) (waits 0) held ns
    heldAt k (fun k => sizes (k + 1)) (fun k => waits (k + 1)) (a.1 - sizes 0) a.2

theorem arrived_sum (size : Nat) (waits : Nat → WaitType) (held : Nat) (ns : List Nat) :
    (arrived size waits held ns).1 + (arrived size waits held ns).2.sum = held + ns.sum := by
  induction ns generalizing waits held with
  | nil => rfl
  | cons n ns ih =>
    rw [arrived]
    split
    · rfl
    · split
      · simp only [sum_cons]
        omega
      · rw [ih, sum_cons]
        omega

theorem held_le_arrived (size : Nat) (waits : Nat → WaitType) (held : Nat) (ns : List Nat) :
    held ≤ (arrived size waits held ns).1 := by
  induction ns generalizing waits held with
  | nil => exact le_rfl
  | cons n ns ih =>
    rw [arrived]
    split
    · exact Nat.le_add_right _ _
    · split
      · exact Nat.le_add_right _ _
      · exact (Nat.le_add_right _ _).trans (ih _ _)

/-- A page that cannot be filled is delivered when the search below is done. -/
theorem arrived_done {size : Nat} {waits : Nat → WaitType} {held : Nat} {ns : List Nat}
    (h : (arrived size waits held ns).1 < size) : (arrived size waits held ns).2 = [] := by
  induction ns generalizing waits held with
  | nil => rfl
  | cons n ns ih =>
    rw [arrived] at h ⊢
    split at h
    · rfl
    · split at h
      case isTrue hor =>
        rw [if_pos hor]
        exact hor.resolve_left (by dsimp only at h; omega)
      case isFalse hor =>
        rw [if_neg hor]
        exact ih h

/-- With `LDB_WAIT_ALL` for every page, the store holds what the pages before have left of all the entries. -/
theorem heldAt_all (k : Nat) (sizes : Nat → Nat) (held : Nat) (ns : List Nat) :
    heldAt k sizes (fun _ _ => .all) held ns = held + ns.sum - ((List.range k).map sizes).sum := by
  have harrived : ∀ size held ns, arrived size (fun _ => .all) held ns = (held + ns.sum, []) := by
    intro size held ns
    cases ns <;> rfl
  induction k generalizing sizes held ns with
  | zero => simp [heldAt, harrived]
  | succ k ih =>
    rw [heldAt, harrived, ih, range_succ_eq_map, map_cons, sum_cons, map_map, sum_nil, Nat.add_zero]
    simp only [Function.comp_def, Nat.succ_eq_add_one]
    omega

/-! ## Calls into the search below -/

variable {priv : PrivateData Entry Control} {a : Addr} {s : ResultsStore Entry Control}

theorem filterMap_entry (e : Entry) (replies : List (LowerReply Entry Control)) :
    (LowerReply.entry e :: replies).filterMap LowerReply.entry? = e :: replies.filterMap LowerReply.entry? := rfl

theorem filterMap_done (controls : List Control) (replies : List (LowerReply Entry Control)) :
    (LowerReply.done controls :: replies).filterMap LowerReply.entry? = replies.filterMap LowerReply.entry? := rfl

theorem foldlM_callback_ok {replies : List (LowerReply Entry Control)}
    (h : s.numEntries + (replies.filterMap LowerReply.entry?).length ≤ intMax) :
    ∃ controls, replies.foldlM pagedSearchCallback s = some
      { s with
        first := s.first ++ replies.filterMap LowerReply.entry?
        numEntries := s.numEntries + (replies.filterMap LowerReply.entry?).length
        controls } := by
  induction replies generalizing s with
  | nil => exact ⟨s.controls, by simp⟩
  | cons r replies ih =>
    cases r with
    | entry e =>
      rw [filterMap_entry, length_cons] at h
      have hlt : s.numEntries < intMax := by omega
      obtain ⟨controls, hfold⟩ := @ih { s with first := s.first ++ [e], numEntries := s.numEntries + 1 }
        (by dsimp only; omega)
      refine ⟨controls, ?_⟩
      rw [foldlM_cons, pagedSearchCallback, if_pos hlt, Option.bind_eq_bind, Option.bind_some, hfold,
        filterMap_entry, length_cons, append_assoc, singleton_append, Nat.add_right_comm, ← Nat.add_assoc]
    | done controls =>
      obtain ⟨controls', hfold⟩ := @ih { s with controls } h
      refine ⟨controls', ?_⟩
      rw [foldlM_cons, pagedSearchCallback, Option.bind_eq_bind, Option.bind_some, hfold, filterMap_done]

theorem foldlM_callback_none {replies : List (LowerReply Entry Control)} (hle : s.numEntries ≤ intMax)
    (h : intMax < s.numEntries + (replies.filterMap LowerReply.entry?).length) :
    replies.foldlM pagedSearchCallback s = none := by
  induction replies generalizing s with
  | nil =>
    rw [filterMap_nil, length_nil] at h
    omega
  | cons r replies ih =>
    rw [foldlM_cons, Option.bind_eq_bind]
    cases r with
    | entry e =>
      rw [filterMap_entry, length_cons] at h
      rw [pagedSearchCallback]
      split
      case isTrue hlt =>
        exact ih hlt (by dsimp only; omega)
      case isFalse => rfl
    | done controls =>
      exact ih hle h

/-- A call that the counter of a store has room for. -/
theorem lowerCall_ok {call : LowerCall Entry Control} (h : s.numEntries + call.entries.length ≤ intMax) :
    ∃ controls, lowerCall s call = some
      { s with first := s.first ++ call.entries, numEntries := s.numEntries + call.entries.length, controls } :=
  foldlM_callback_ok h

theorem lowerCall_none {call : LowerCall Entry Control} (hle : s.numEntries ≤ intMax)
    (h : intMax < s.numEntries + call.entries.length) : lowerCall s call = none :=
  foldlM_callback_none hle h

/-- The entries of some calls. -/
def entriesOf (lower : List (LowerCall Entry Control)) : List Entry := lower.flatMap LowerCall.entries

/-- How many entries each of some calls passes up. -/
def countsOf (lower : List (LowerCall Entry Control)) : List Nat := lower.map (·.entries.length)

theorem entriesOf_cons (call : LowerCall Entry Control) (lower : List (LowerCall Entry Control)) :
    entriesOf (call :: lower) = call.entries ++ entriesOf lower := rfl

theorem countsOf_cons (call : LowerCall Entry Control) (lower : List (LowerCall Entry Control)) :
    countsOf (call :: lower) = call.entries.length :: countsOf lower := rfl

theorem length_entriesOf (lower : List (LowerCall Entry Control)) : (entriesOf lower).length = (countsOf lower).sum := by
  rw [entriesOf, length_flatMap, countsOf]

theorem waitAll_ok {lower : List (LowerCall Entry Control)} (hret : ∀ call ∈ lower, call.ret = ldbSuccess)
    (h : s.numEntries + (countsOf lower).sum ≤ intMax) :
    ∃ controls, waitAll s lower = some
      ({ s with first := s.first ++ entriesOf lower, numEntries := s.numEntries + (countsOf lower).sum, controls, lower := [] },
        ldbSuccess) := by
  induction lower generalizing s with
  | nil => exact ⟨s.controls, by simp [waitAll, entriesOf, countsOf]⟩
  | cons call lower ih =>
    rw [countsOf_cons, sum_cons] at h
    obtain ⟨controls, hcall⟩ := @lowerCall_ok _ _ s call (by omega)
    obtain ⟨controls', hrest⟩ := @ih { s with
        first := s.first ++ call.entries, numEntries := s.numEntries + call.entries.length, controls }
      (fun c hc => hret c (mem_cons_of_mem _ hc)) (by dsimp only; omega)
    refine ⟨controls', ?_⟩
    rw [waitAll, hcall, Option.bind_eq_bind, Option.bind_some, if_neg (by rw [hret call mem_cons_self]; decide), hrest,
      entriesOf_cons, countsOf_cons, sum_cons, append_assoc, Nat.add_assoc]

theorem waitAll_none {lower : List (LowerCall Entry Control)} (hret : ∀ call ∈ lower, call.ret = ldbSuccess)
    (hle : s.numEntries ≤ intMax) (h : intMax < s.numEntries + (countsOf lower).sum) : waitAll s lower = none := by
  induction lower generalizing s with
  | nil =>
    rw [countsOf, map_nil, sum_nil] at h
    omega
  | cons call lower ih =>
    rw [waitAll, Option.bind_eq_bind]
    by_cases hcount : s.numEntries + call.entries.length ≤ intMax
    · obtain ⟨controls, hcall⟩ := lowerCall_ok hcount
      rw [hcall, Option.bind_some, if_neg (by rw [hret call mem_cons_self]; decide)]
      rw [countsOf_cons, sum_cons] at h
      exact ih (fun c hc => hret c (mem_cons_of_mem _ hc)) hcount (by dsimp only; omega)
    · rw [lowerCall_none hle (by omega), Option.bind_none]

/-! ## One page -/

/-- The loop of `paged_results` for a client that takes every entry: the page is the start of what the store holds. -/
theorem deliverEntries_takesAll (first : List Entry) (p : Nat) :
    deliverEntries (takesAll : Reply Entry Control → Int) first first.length p = some
      ⟨(first.take p).map .entry, ldbSuccess, first.drop p, first.length - p, ((p - first.length : Nat) : Int)⟩ := by
  induction first generalizing p with
  | nil => simp [deliverEntries]
  | cons e first ih =>
    cases p with
    | zero => simp [deliverEntries]
    | succ p =>
      have hsize : ((p + 1 : Nat) : Int) - 1 = (p : Nat) := by omega
      rw [deliverEntries, if_pos ⟨Nat.succ_pos _, by omega⟩]
      dsimp only [takesAll, length_cons]
      rw [if_neg (by decide), hsize, Nat.add_sub_cancel, Nat.add_sub_add_right, Nat.add_sub_add_right]
      rw [ih]
      rfl

/-- A store at the head of the list, which the search below goes on to fill without an error. -/
structure Serving (priv : PrivateData Entry Control) (a : Addr) (s : ResultsStore Entry Control) : Prop where
  sound : priv.Sound
  head : priv.store = some a
  live : priv.heap a = some s
  cookie : cstr s.cookie = s.cookie
  count : s.numEntries = s.first.length
  room : s.first.length ≤ intMax
  lower : ∀ call ∈ s.lower, call.ret = ldbSuccess

/-- The store `s'` is what the waits make of `s` before a page is delivered. -/
structure Arrives (s s' : ResultsStore Entry Control) (n : Nat × List Nat) : Prop where
  place : SamePlace s s'
  entries : s'.first ++ entriesOf s'.lower = s.first ++ entriesOf s.lower
  held : s'.first.length = n.1
  left : countsOf s'.lower = n.2
  count : s'.numEntries = s'.first.length
  lower : ∀ call ∈ s'.lower, call.ret = ldbSuccess

theorem deliverPage_done {up : Reply Entry Control → Int} {handle : PagedHandle} {res : WaitResult Entry Control}
    (h : deliverPage up priv handle s = some res) : res.handle.done = true := by
  rw [deliverPage, Option.bind_eq_bind, Option.bind_eq_some_iff] at h
  obtain ⟨⟨t, handle', replies, ret⟩, hres, h⟩ := h
  have hdone : handle'.done = true := by
    rw [pagedResults, Option.bind_eq_bind, Option.bind_eq_some_iff] at hres
    obtain ⟨d, -, hres⟩ := hres
    split at hres <;> cases hres <;> rfl
  dsimp only at h
  split at h
  · obtain ⟨p, -, h⟩ := Option.bind_eq_some_iff.mp h
    cases h
    exact hdone
  · cases h
    exact hdone

theorem set_set (x y : Option (ResultsStore Entry Control)) : (priv.set a x).set a y = priv.set a y := by
  rw [PrivateData.set, PrivateData.set, PrivateData.set]
  congr 1
  funext b
  by_cases hb : b = a
  · rw [if_pos hb, if_pos hb]
  · rw [if_neg hb, if_neg hb]
    exact if_neg hb

theorem deliverPage_set {up : Reply Entry Control → Int} {handle : PagedHandle} (x : Option (ResultsStore Entry Control)) :
    deliverPage up (priv.set handle.store x) handle s = deliverPage up priv handle s := by
  rw [deliverPage, deliverPage]
  cases hres : pagedResults up handle s with
  | none => rfl
  | some res =>
    obtain ⟨-, hstore⟩ := pagedResults_place hres
    simp only [Option.bind_eq_bind, Option.bind_some, hstore, set_set]

/-- A wait that delivers the page is the last one. -/
theorem waitPage_deliver {waits : Nat → WaitType} {fuel : Nat} {handle : PagedHandle}
    (h : pagedWait takesAll priv handle (waits 0) = deliverPage takesAll priv handle s) :
    waitPage waits (fuel + 1) priv handle =
      (deliverPage takesAll priv handle s).map fun res => (res.priv, res.replies, res.ret) := by
  rw [waitPage, h]
  cases hres : deliverPage takesAll priv handle s with
  | none => rfl
  | some res =>
    rw [Option.bind_eq_bind, Option.bind_some, if_pos (.inr (deliverPage_done hres))]
    rfl

/-- A store after a call into the search below. -/
def ResultsStore.afterCall (s : ResultsStore Entry Control) (call : LowerCall Entry Control)
    (lower : List (LowerCall Entry Control)) (controls : List Control) : ResultsStore Entry Control :=
  { s with first := s.first ++ call.entries, numEntries := s.first.length + call.entries.length, controls, lower }

theorem ResultsStore.length_afterCall (s : ResultsStore Entry Control) (call : LowerCall Entry Control)
    (lower : List (LowerCall Entry Control)) (controls : List Control) :
    (s.afterCall call lower controls).first.length = s.first.length + call.entries.length := length_append

section Call

variable {call : LowerCall Entry Control} {lower : List (LowerCall Entry Control)}

theorem Serving.ret_head (h : Serving priv a s) (hlower : s.lower = call :: lower) : call.ret = ldbSuccess :=
  h.lower call (by rw [hlower]; exact mem_cons_self)

theorem Serving.ret_tail (h : Serving priv a s) (hlower : s.lower = call :: lower) : ∀ c ∈ lower, c.ret = ldbSuccess :=
  fun c hc => h.lower c (by rw [hlower]; exact mem_cons_of_mem _ hc)

theorem Serving.afterCall (h : Serving priv a s) (hlower : s.lower = call :: lower)
    (hle : s.first.length + call.entries.length ≤ intMax) (controls : List Control) :
    Serving (priv.set a (some (s.afterCall call lower controls))) a (s.afterCall call lower controls) where
  sound := h.sound.set h.live ⟨rfl, rfl, rfl⟩
  head := h.head
  live := PrivateData.set_heap_same _ _ _
  cookie := h.cookie
  count := (s.length_afterCall call lower controls).symm
  room := (s.length_afterCall call lower controls).trans_le hle
  lower := h.ret_tail hlower

/-- A wait with `LDB_WAIT_NONE`: the page is delivered if it can be filled or nothing is to come. -/
theorem pagedWait_none (h : Serving priv a s) (hlower : s.lower = call :: lower)
    (hle : s.first.length + call.entries.length ≤ intMax) (p : Nat) :
    ∃ controls, pagedWait takesAll priv ⟨p, a, false, ldbSuccess⟩ .none =
      if p ≤ s.first.length + call.entries.length ∨ countsOf lower = [] then
        deliverPage takesAll priv ⟨p, a, false, ldbSuccess⟩ (s.afterCall call lower controls)
      else some ⟨priv.set a (some (s.afterCall call lower controls)), ⟨p, a, false, ldbSuccess⟩, [], ldbSuccess⟩ := by
  obtain ⟨controls, hok⟩ := @lowerCall_ok _ _ s call (by rwa [h.count])
  refine ⟨controls, ?_⟩
  rw [pagedWait, if_neg Bool.false_ne_true, h.live, Option.bind_eq_bind, Option.bind_some]
  simp only [hlower, hok, Option.bind_some, h.ret_head hlower, ne_eq, not_true_eq_false, if_false,
    ge_iff_le, Int.ofNat_le, h.count, countsOf, map_eq_nil_iff]
  rfl

/-- A wait that leaves the page to the waits after it. -/
theorem waitPage_continue {waits : Nat → WaitType} {fuel p : Nat} {x : Option (ResultsStore Entry Control)}
    (h : pagedWait takesAll priv ⟨p, a, false, ldbSuccess⟩ (waits 0) =
      some ⟨priv.set a x, ⟨p, a, false, ldbSuccess⟩, [], ldbSuccess⟩) :
    waitPage waits (fuel + 1) priv ⟨p, a, false, ldbSuccess⟩ =
      waitPage (fun i => waits (i + 1)) fuel (priv.set a x) ⟨p, a, false, ldbSuccess⟩ := by
  rw [waitPage, h, Option.bind_eq_bind, Option.bind_some, if_neg (by simp [ldbSuccess])]
  cases waitPage (fun i => waits (i + 1)) fuel (priv.set a x) ⟨p, a, false, ldbSuccess⟩ <;> rfl

end Call

variable {p : Nat} {waits : Nat → WaitType}

/-- The waits for a page, where the counter of the store has room for what arrives. -/
theorem waitPage_arrives (h : Serving priv a s)
    (hroom : (arrived p waits s.first.length (countsOf s.lower)).1 ≤ intMax) :
    ∃ s', Arrives s s' (arrived p waits s.first.length (countsOf s.lower)) ∧
      waitPage waits (s.lower.length + 1) priv ⟨p, a, false, ldbSuccess⟩ =
        (deliverPage takesAll priv ⟨p, a, false, ldbSuccess⟩ s').map fun res => (res.priv, res.replies, res.ret) := by
  induction hlower : s.lower generalizing priv s waits with
  | nil =>
    refine ⟨s, ⟨.refl s, by rw [hlower], rfl, by rw [hlower]; rfl, h.count, h.lower⟩, ?_⟩
    refine waitPage_deliver ?_
    rw [pagedWait, if_neg Bool.false_ne_true, h.live, Option.bind_eq_bind, Option.bind_some]
    simp only [hlower]
  | cons call lower ih =>
    rw [hlower, countsOf_cons, arrived] at hroom
    rw [countsOf_cons, arrived]
    cases hwait : waits 0 with
    | all =>
      rw [hwait] at hroom
      have hsum : s.numEntries + (countsOf (call :: lower)).sum ≤ intMax := by rwa [h.count]
      obtain ⟨controls, hall⟩ := waitAll_ok (hlower ▸ h.lower) hsum
      let s' : ResultsStore Entry Control := { s with
        first := s.first ++ entriesOf (call :: lower)
        numEntries := s.numEntries + (countsOf (call :: lower)).sum
        controls
        lower := [] }
      have hlength : s'.first.length = s.first.length + (countsOf (call :: lower)).sum := by
        rw [length_append, length_entriesOf]
      refine ⟨s', ⟨⟨rfl, rfl, rfl⟩, ?_, hlength, rfl, ?_, fun c hc => (not_mem_nil hc).elim⟩, waitPage_deliver ?_⟩
      · rw [hlower]
        exact append_nil _
      · rw [hlength, ← h.count]
      · rw [pagedWait, if_neg Bool.false_ne_true, h.live, Option.bind_eq_bind, Option.bind_some]
        simp only [hlower, hwait, hall, Option.bind_eq_bind, Option.bind_some, ne_eq, not_true_eq_false, if_false]
        rfl
    | none =>
      rw [hwait] at hroom
      dsimp only at hroom ⊢
      have hle : s.first.length + call.entries.length ≤ intMax := by
        split at hroom
        · exact hroom
        · exact (held_le_arrived _ _ _ _).trans hroom
      obtain ⟨controls, hstep⟩ := pagedWait_none h hlower hle p
      have hlength := s.length_afterCall call lower controls
      have hentries : (s.afterCall call lower controls).first ++ entriesOf lower = s.first ++ entriesOf s.lower := by
        rw [hlower, entriesOf_cons, ← append_assoc]
        rfl
      by_cases hend : p ≤ s.first.length + call.entries.length ∨ countsOf lower = []
      · rw [if_pos hend] at hstep ⊢
        exact ⟨s.afterCall call lower controls, ⟨⟨rfl, rfl, rfl⟩, hentries, hlength, rfl, hlength.symm, h.ret_tail hlower⟩,
          waitPage_deliver (hwait ▸ hstep)⟩
      · rw [if_neg hend] at hroom hstep ⊢
        obtain ⟨s', harrives, hwaits⟩ := ih (h.afterCall hlower hle controls) (by rwa [hlength]) rfl
        rw [hlength] at harrives
        refine ⟨s', ⟨(show SamePlace s (s.afterCall call lower controls) from ⟨rfl, rfl, rfl⟩).trans harrives.place,
          harrives.entries.trans hentries, harrives.held, harrives.left, harrives.count, harrives.lower⟩, ?_⟩
        rw [length_cons, waitPage_continue (hwait ▸ hstep), hwaits,
          @deliverPage_set _ _ _ _ _ ⟨p, a, false, ldbSuccess⟩]

/-- The waits for a page, where the counter of the store overflows. -/
theorem waitPage_overflow (h : Serving priv a s)
    (hroom : intMax < (arrived p waits s.first.length (countsOf s.lower)).1) :
    waitPage waits (s.lower.length + 1) priv ⟨p, a, false, ldbSuccess⟩ = none := by
  induction hlower : s.lower generalizing priv s waits with
  | nil =>
    rw [hlower] at hroom
    exact absurd h.room (Nat.not_le.mpr hroom)
  | cons call lower ih =>
    have hfull : s.numEntries ≤ intMax := h.count ▸ h.room
    rw [hlower, countsOf_cons, arrived] at hroom
    cases hwait : waits 0 with
    | all =>
      rw [hwait] at hroom
      have hall := waitAll_none (hlower ▸ h.lower) hfull (show intMax < s.numEntries + (countsOf (call :: lower)).sum by
        rwa [h.count])
      rw [waitPage, pagedWait, if_neg Bool.false_ne_true, h.live]
      simp only [hlower, hwait, hall, Option.bind_eq_bind, Option.bind_some, Option.bind_none]
    | none =>
      rw [hwait] at hroom
      dsimp only at hroom
      by_cases hle : s.first.length + call.entries.length ≤ intMax
      · obtain ⟨controls, hstep⟩ := pagedWait_none h hlower hle p
        split at hroom
        case isTrue => omega
        case isFalse hend =>
          rw [if_neg hend] at hstep
          rw [length_cons, waitPage_continue (hwait ▸ hstep)]
          exact ih (h.afterCall hlower hle controls) (by rwa [ResultsStore.length_afterCall]) rfl
      · have hnone := @lowerCall_none _ _ s call hfull (by rw [h.count]; omega)
        rw [waitPage, pagedWait, if_neg Bool.false_ne_true, h.live]
        simp only [hlower, hwait, hnone, Option.bind_eq_bind, Option.bind_some, Option.bind_none]

/-! ## What a page brings -/

/-- What a page of size `p` leaves of a store. -/
def ResultsStore.afterPage (s : ResultsStore Entry Control) (p : Nat) : ResultsStore Entry Control :=
  { s with first := s.first.drop p, numEntries := s.first.length - p, controls := [] }

/-- The module after a page: a store that has nothing left is freed. -/
def PrivateData.afterPage (priv : PrivateData Entry Control) (a : Addr) (s : ResultsStore Entry Control) (p : Nat) :
    PrivateData Entry Control :=
  if s.first.length ≤ p then (priv.set a (some (s.afterPage p))).freed a (s.afterPage p) else priv.set a (some (s.afterPage p))

theorem deliverPage_takesAll {s' : ResultsStore Entry Control} {n : Nat × List Nat} (h : Serving priv a s)
    (harrives : Arrives s s' n) (p : Nat) :
    deliverPage takesAll priv ⟨p, a, false, ldbSuccess⟩ s' = some
      ⟨priv.afterPage a s' p, ⟨((p - s'.first.length : Nat) : Int), a, true, ldbSuccess⟩,
        (s'.first.take p).map .entry ++
          [.done s'.controls (if s'.first.length < p then ⟨0, none⟩ else ⟨s'.first.length - p, some s.cookie⟩)], ldbSuccess⟩ := by
  have hresults : pagedResults takesAll ⟨p, a, false, ldbSuccess⟩ s' = some (s'.afterPage p,
      ⟨((p - s'.first.length : Nat) : Int), a, true, ldbSuccess⟩, (s'.first.take p).map .entry ++
        [.done s'.controls (if s'.first.length < p then ⟨0, none⟩ else ⟨s'.first.length - p, some s.cookie⟩)], ldbSuccess) := by
    rw [pagedResults, harrives.count, deliverEntries_takesAll, Option.bind_eq_bind, Option.bind_some, ← harrives.place.cookie]
    have hsize : ((p - s'.first.length : Nat) : Int) > 0 ↔ s'.first.length < p := by omega
    simp only [ne_eq, not_true_eq_false, if_false, hsize]
    rfl
  have hplace := harrives.place.trans (show SamePlace s' (s'.afterPage p) from ⟨rfl, rfl, rfl⟩)
  rw [deliverPage, hresults, Option.bind_eq_bind, Option.bind_some, PrivateData.afterPage]
  dsimp only
  have hempty : (s'.afterPage p).numEntries = 0 ↔ s'.first.length ≤ p := Nat.sub_eq_zero_iff_le
  by_cases hle : s'.first.length ≤ p
  · rw [if_pos hle, if_pos (hempty.mpr hle), (h.sound.set h.live hplace).freeStore_eq (PrivateData.set_heap_same _ _ _)]
    rfl
  · rw [if_neg hle, if_neg (mt hempty.mp hle)]
    rfl

/-- A page for which the counter of the store has room. -/
theorem clientWait_arrives (h : Serving priv a s)
    (hroom : (arrived p waits s.first.length (countsOf s.lower)).1 ≤ intMax) :
    ∃ s', Arrives s s' (arrived p waits s.first.length (countsOf s.lower)) ∧
      clientWait waits ⟨priv, some ⟨p, a, false, ldbSuccess⟩, ldbSuccess⟩ = some (priv.afterPage a s' p,
        .done (s'.first.take p) (if s'.first.length < p then none else some s.cookie)) := by
  obtain ⟨s', harrives, hwait⟩ := waitPage_arrives h hroom
  refine ⟨s', harrives, ?_⟩
  have hcalls : callsLeft priv ⟨p, a, false, ldbSuccess⟩ = s.lower.length := by
    rw [callsLeft, h.live]
    rfl
  rw [clientWait]
  simp only [ne_eq, not_true_eq_false, if_false, hcalls, hwait, deliverPage_takesAll h harrives, Option.map_some,
    Option.bind_eq_bind, Option.bind_some, Option.pure_def, Option.some.injEq, Prod.mk.injEq, true_and]
  rw [filterMap_append, filterMap_map, List.getLast?_append]
  have hentries : (s'.first.take p).filterMap (Reply.entry? ∘ (Reply.entry : Entry → Reply Entry Control)) = s'.first.take p :=
    filterMap_some
  rw [hentries]
  split <;> simp [Reply.entry?, Reply.cookie?]

theorem clientWait_overflow (h : Serving priv a s)
    (hroom : intMax < (arrived p waits s.first.length (countsOf s.lower)).1) :
    clientWait waits ⟨priv, some ⟨p, a, false, ldbSuccess⟩, ldbSuccess⟩ = none := by
  have hcalls : callsLeft priv ⟨p, a, false, ldbSuccess⟩ = s.lower.length := by
    rw [callsLeft, h.live]
    rfl
  rw [clientWait]
  simp only [ne_eq, not_true_eq_false, if_false, hcalls, waitPage_overflow h hroom, Option.bind_eq_bind, Option.bind_none]

/-! ## All pages -/

section Pages

variable {start : LowerCall Entry Control} {lower : List (LowerCall Entry Control)} {sizes : Nat → Nat}
  {waits : Nat → Nat → WaitType}

/-- A client, given enough fuel, gets some entries, each once and in order, on pages that are not larger than it asked for. -/
def Fetches (run : Nat → Option (List (List Entry))) (sizes : Nat → Nat) (entries : List Entry) : Prop :=
  ∃ fuel pages, run fuel = some pages ∧ pages.flatten = entries ∧ ∀ k page, pages[k]? = some page → page.length ≤ sizes k

/-- A client that has a first page and goes on with a cookie. -/
theorem fetches_cons {next : Nat → Option (List (List Entry))} {page rest : List Entry} (hpage : page.length ≤ sizes 0) :
    Fetches (fun fuel => (next fuel).map (page :: ·)) sizes (page ++ rest) ↔
      Fetches next (fun k => sizes (k + 1)) rest := by
  constructor
  · rintro ⟨fuel, pages, hrun, hflat, hsizes⟩
    obtain ⟨pages', hnext, rfl⟩ := Option.map_eq_some_iff.mp hrun
    exact ⟨fuel, pages', hnext, append_cancel_left hflat, fun k page hk => hsizes (k + 1) page hk⟩
  · rintro ⟨fuel, pages, hnext, rfl, hsizes⟩
    refine ⟨fuel, page :: pages, by dsimp only; rw [hnext, Option.map_some], rfl, fun k page' hk => ?_⟩
    cases k with
    | zero =>
      cases hk
      exact hpage
    | succ k => exact hsizes k page' hk

variable {p : Nat}

/-- The search that goes on with a store at the head of the list. -/
theorem pagedSearch_continue (h : Serving priv a s) (hp : 1 ≤ p) : pagedSearch priv ⟨some s.cookie, p, start, lower⟩ =
      some ⟨priv, some ⟨p, a, false, ldbSuccess⟩, ldbSuccess⟩ := by
  have hbrk : ∃ n, priv.brk = n + 1 := Nat.exists_eq_succ_of_ne_zero (Nat.ne_zero_of_lt (h.sound.fresh h.live))
  obtain ⟨n, hn⟩ := hbrk
  have hfind : findStore priv.heap (cstr s.cookie) priv.brk priv.store = some (some a) := by
    rw [hn, h.head, findStore, h.live, Option.bind_eq_bind, Option.bind_some, if_pos h.cookie.symm]
    rfl
  rw [pagedSearch]
  dsimp only
  rw [hfind, Option.bind_eq_bind, Option.bind_some]
  dsimp only
  rw [pagedSearch.finish, if_neg (show ¬((p : Int) = 0) by omega)]

/-- A cookie finds nothing when the list is empty. -/
theorem clientRun_refused (hstore : priv.store = none) (fuel : Nat) (cookie : Text) :
    clientRun start lower fuel sizes waits priv (some cookie) = none := by
  cases fuel with
  | zero => rfl
  | succ fuel =>
    rw [clientRun, pagedSearch]
    dsimp only
    rw [hstore, findStore]
    rfl

/-- The first page needs fuel, so that there is no difference between all the fuel and the fuel that is left. -/
theorem fetches_succ {run : Nat → Option (List (List Entry))} {entries : List Entry} (hzero : run 0 = none) :
    Fetches run sizes entries ↔ Fetches (fun fuel => run (fuel + 1)) sizes entries := by
  constructor
  · rintro ⟨fuel, pages, hrun, hrest⟩
    cases fuel with
    | zero =>
      rw [hzero] at hrun
      cases hrun
    | succ fuel => exact ⟨fuel, pages, hrun, hrest⟩
  · rintro ⟨fuel, pages, hrun, hrest⟩
    exact ⟨fuel + 1, pages, hrun, hrest⟩

theorem not_fetches {run : Nat → Option (List (List Entry))} {entries : List Entry} (h : ∀ fuel, run fuel = none) :
    ¬Fetches run sizes entries := by
  rintro ⟨fuel, pages, hrun, -⟩
  rw [h fuel] at hrun
  cases hrun

/-- A module after a page that leaves something in the store serves the next page from the rest. -/
theorem Serving.afterPage {s' : ResultsStore Entry Control} {n : Nat × List Nat} (h : Serving priv a s)
    (harrives : Arrives s s' n) (hroom : s'.first.length ≤ intMax) (hlt : p < s'.first.length) :
    Serving (priv.afterPage a s' p) a (s'.afterPage p) := by
  have hplace := harrives.place.trans (show SamePlace s' (s'.afterPage p) from ⟨rfl, rfl, rfl⟩)
  rw [PrivateData.afterPage, if_neg (Nat.not_le.mpr hlt)]
  refine ⟨h.sound.set h.live hplace, h.head, PrivateData.set_heap_same _ _ _, ?_, ?_, ?_, harrives.lower⟩
  · rw [hplace.cookie]
    exact h.cookie
  · exact (length_drop ..).symm
  · rw [ResultsStore.afterPage, length_drop]
    omega

/-- When nothing is left, no page finds as much as it asks for. -/
theorem heldAt_zero (k : Nat) (sizes : Nat → Nat) (waits : Nat → Nat → WaitType) : heldAt k sizes waits 0 [] = 0 := by
  induction k generalizing sizes waits with
  | zero => rfl
  | succ k ih =>
    rw [heldAt, arrived, Nat.zero_sub]
    exact ih _ _

/-- A client that is answered from a store gets what the store and the search below have, if and only if no page finds as many
entries in the store as it asks for, and never more than an `int` counts. -/
theorem fetches_served (h : Serving priv a s) (hsizes : ∀ k, 1 ≤ sizes k) :
    Fetches (fun fuel => (clientWait (waits 0) ⟨priv, some ⟨sizes 0, a, false, ldbSuccess⟩, ldbSuccess⟩).bind
        (clientNext fun priv cookie =>
          clientRun start lower fuel (fun k => sizes (k + 1)) (fun k => waits (k + 1)) priv (some cookie)))
        sizes (s.first ++ entriesOf s.lower) ↔
      ∀ k, heldAt k sizes waits s.first.length (countsOf s.lower) ≤ intMax ∧
        heldAt k sizes waits s.first.length (countsOf s.lower) ≠ sizes k := by
  induction hn : s.first.length + (countsOf s.lower).sum using Nat.strong_induction_on generalizing priv s sizes waits with
  | _ n ih =>
    by_cases hroom : (arrived (sizes 0) (waits 0) s.first.length (countsOf s.lower)).1 ≤ intMax
    case neg =>
      -- the counter overflows
      refine iff_of_false (not_fetches fun fuel => ?_) fun hall => hroom (hall 0).1
      rw [clientWait_overflow h (Nat.not_le.mp hroom), Option.bind_none]
    case pos =>
      obtain ⟨s', harrives, hpage⟩ := clientWait_arrives h hroom
      have hsum := arrived_sum (sizes 0) (waits 0) s.first.length (countsOf s.lower)
      rw [← harrives.held] at hroom
      rcases Nat.lt_trichotomy s'.first.length (sizes 0) with hlt | heq | hgt
      · -- the last page
        have hleft := arrived_done (harrives.held ▸ hlt)
        have hnil : entriesOf s'.lower = [] := by
          rw [← harrives.left, countsOf, map_eq_nil_iff] at hleft
          rw [hleft]
          rfl
        rw [hpage, if_pos hlt, take_of_length_le hlt.le, ← harrives.entries, hnil, append_nil]
        refine iff_of_true ⟨0, [s'.first], rfl, append_nil _, fun k page hk => ?_⟩ fun k => ?_
        · cases k with
          | zero =>
            cases hk
            exact hlt.le
          | succ k => cases hk
        · cases k with
          | zero =>
            rw [heldAt, ← harrives.held]
            exact ⟨hroom, hlt.ne⟩
          | succ k =>
            rw [heldAt, hleft, ← harrives.held, Nat.sub_eq_zero_of_le hlt.le, heldAt_zero]
            exact ⟨Nat.zero_le _, (Nat.lt_of_lt_of_le Nat.zero_lt_one (hsizes _)).ne⟩
      · -- the store is freed although the page has a cookie
        refine iff_of_false (not_fetches fun fuel => ?_) fun hall => (hall 0).2 (harrives.held.symm.trans heq)
        have hstore : (priv.afterPage a s' (sizes 0)).store = none := by
          rw [PrivateData.afterPage, if_pos heq.le]
          exact if_pos h.head
        rw [hpage, if_neg heq.not_lt, Option.bind_some, clientNext, clientRun_refused hstore, Option.map_none]
      · -- the next page is served from the rest
        have hserving := h.afterPage harrives hroom hgt
        have hcookie : (s'.afterPage (sizes 0)).cookie = s.cookie := harrives.place.cookie
        have hlength : (s'.afterPage (sizes 0)).first.length = s'.first.length - sizes 0 := length_drop ..
        have hentries : s.first ++ entriesOf s.lower =
            s'.first.take (sizes 0) ++ ((s'.afterPage (sizes 0)).first ++ entriesOf (s'.afterPage (sizes 0)).lower) := by
          rw [← harrives.entries, ← append_assoc, ResultsStore.afterPage, take_append_drop]
        have hrest := @ih _ (by
            have hleft : countsOf (s'.afterPage (sizes 0)).lower = _ := harrives.left
            have := hsizes 0
            rw [hlength, hleft]
            rw [← harrives.held] at hsum
            omega) (priv.afterPage a s' (sizes 0)) (s'.afterPage (sizes 0)) (fun k => sizes (k + 1)) (fun k => waits (k + 1)) hserving
          (fun k => hsizes (k + 1)) rfl
        rw [hpage, if_neg hgt.not_gt, hentries]
        simp only [Option.bind_some, clientNext]
        rw [fetches_cons (by rw [length_take]; omega), fetches_succ rfl]
        simp only [clientRun, ← hcookie, pagedSearch_continue hserving (hsizes 1), Option.bind_eq_bind, Option.bind_some]
        rw [hrest, hlength, show countsOf (s'.afterPage (sizes 0)).lower = _ from harrives.left, harrives.held]
        constructor
        · intro hall k
          cases k with
          | zero =>
            rw [heldAt, ← harrives.held]
            exact ⟨hroom, hgt.ne'⟩
          | succ k => exact hall k
        · exact fun hall k => hall (k + 1)

/-- The first search of a client, where no counter overflows. -/
theorem pagedSearch_start (h : priv.Sound) (hid : priv.nextFreeId < intMax) (hret : start.ret = ldbSuccess)
    (hlower : ∀ call ∈ lower, call.ret = ldbSuccess) (hroom : start.entries.length ≤ intMax) (hp : 1 ≤ p) :
    ∃ priv' s, Serving priv' priv.brk s ∧ s.first = start.entries ∧ s.lower = lower ∧
      pagedSearch priv ⟨none, p, start, lower⟩ = some ⟨priv', some ⟨p, priv.brk, false, ldbSuccess⟩, ldbSuccess⟩ := by
  obtain ⟨controls, hcall⟩ := @lowerCall_ok _ _ priv.fresh start (by simpa [PrivateData.fresh] using hroom)
  let s : ResultsStore Entry Control := ⟨printInt priv.nextFreeId, none, priv.store, start.entries, start.entries.length, controls,
    lower⟩
  refine ⟨priv.started.set priv.brk (some s), s, ?_, rfl, rfl, ?_⟩
  · refine ⟨h.started.set PrivateData.started_heap_brk ⟨rfl, rfl, rfl⟩, rfl, PrivateData.set_heap_same _ _ _, ?_, rfl, hroom,
      hlower⟩
    exact cstr_eq_self (zero_notMem_printInt priv.nextFreeId)
  · rw [pagedSearch]
    rw [h.newStore_eq hid, Option.bind_eq_bind, Option.bind_some]
    dsimp only
    rw [PrivateData.started_heap_brk, Option.bind_eq_bind, Option.bind_some, hcall, Option.bind_some,
      hret, pagedSearch.finish, if_neg (show ¬((p : Int) = 0) by omega)]
    simp only [PrivateData.fresh, nil_append, Nat.zero_add]
    rfl

/-- A client that follows the cookies gets every entry once and in order, on pages that succeed and are not larger than it asked
for, if and only if an id is left for the search, no page finds as many entries in the store as it asks for, and the store never
holds more than an `int` counts. -/
theorem pagedClient_iff (m : PagedModule Entry Control) (hm : pagedSystem.Reachable m) (start : LowerCall Entry Control)
    (lower : List (LowerCall Entry Control)) (hstart : start.ret = ldbSuccess) (hlower : ∀ call ∈ lower, call.ret = ldbSuccess)
    (sizes : Nat → Nat) (hsizes : ∀ k, 1 ≤ sizes k) (waits : Nat → Nat → WaitType) :
    Fetches (fun fuel => clientRun start lower fuel sizes waits m.priv none) sizes (start.entries ++ entriesOf lower) ↔
      m.priv.nextFreeId < intMax ∧ ∀ k, heldAt k sizes waits start.entries.length (countsOf lower) ≤ intMax ∧
        heldAt k sizes waits start.entries.length (countsOf lower) ≠ sizes k := by
  have hsound := sound_of_reachable hm
  rw [fetches_succ rfl]
  simp only [clientRun, Option.bind_eq_bind]
  by_cases hid : m.priv.nextFreeId < intMax
  · by_cases hroom : start.entries.length ≤ intMax
    · obtain ⟨priv', s, hserving, hfirst, hslower, hsearch⟩ := pagedSearch_start hsound hid hstart hlower hroom (hsizes 0)
      simp only [hsearch, Option.bind_some]
      rw [← hfirst, ← hslower, fetches_served hserving hsizes, hfirst, hslower]
      exact (and_iff_right hid).symm
    · refine iff_of_false (not_fetches fun fuel => ?_) fun hall => hroom ((held_le_arrived _ _ _ _).trans (hall.2 0).1)
      have hnone := @lowerCall_none _ _ m.priv.fresh start (Nat.zero_le _) (by simpa [PrivateData.fresh] using hroom)
      rw [pagedSearch]
      rw [hsound.newStore_eq hid, Option.bind_eq_bind, Option.bind_some]
      dsimp only
      rw [PrivateData.started_heap_brk, Option.bind_eq_bind, Option.bind_some, hnone]
      rfl
  · refine iff_of_false (not_fetches fun fuel => ?_) fun hall => hid hall.1
    rw [pagedSearch]
    rw [newStore, if_neg hid]
    rfl

/-- With `LDB_WAIT_ALL` no first pages together are as large as the result. -/
theorem pagedClient_waitAll_iff {m : PagedModule Entry Control} (hm : pagedSystem.Reachable m) (hstart : start.ret = ldbSuccess)
    (hlower : ∀ call ∈ lower, call.ret = ldbSuccess) (hsizes : ∀ k, 1 ≤ sizes k) :
    Fetches (fun fuel => clientRun start lower fuel sizes (fun _ _ => .all) m.priv none) sizes (start.entries ++ entriesOf lower) ↔
      m.priv.nextFreeId < intMax ∧ (start.entries ++ entriesOf lower).length ≤ intMax ∧
        ∀ k, ((List.range (k + 1)).map sizes).sum ≠ (start.entries ++ entriesOf lower).length := by
  rw [pagedClient_iff m hm start lower hstart hlower sizes hsizes]
  refine and_congr_right fun _ => ?_
  simp only [heldAt_all, length_append, length_entriesOf, range_succ, map_append, sum_append, map_cons,
    map_nil, sum_cons, sum_nil]
  constructor
  · intro hall
    refine ⟨by simpa using (hall 0).1, fun k => ?_⟩
    have := (hall k).2
    omega
  · rintro ⟨hle, hne⟩ k
    have := hne k
    have := hsizes k
    omega

end Pages

/-! ## A page that is just as large as the result -/

/-- A search with some results that is done at once. -/
def doneWith (entries : List Nat) : LowerCall Nat Unit := ⟨entries.map .entry ++ [.done []], ldbSuccess⟩

/-- Two entries on one page: the page has a cookie, which is then refused. -/
theorem exact_page_refused :
    (∃ priv, (pagedSearch PagedModule.init.priv ⟨none, 2, doneWith [1, 2], []⟩).bind (clientWait fun _ => .all) =
          some (priv, .done [1, 2] (some (printInt 1))) ∧
        (pagedSearch priv ⟨some (printInt 1), 2, doneWith [1, 2], []⟩).map (·.ret) = some ldbErrUnwillingToPerform) ∧
      ¬Fetches (fun fuel => clientRun (doneWith [1, 2]) [] fuel (fun _ => 2) (fun _ _ => .all) PagedModule.init.priv none)
        (fun _ => 2) [1, 2] := by
  refine ⟨⟨_, rfl, rfl⟩, not_fetches fun fuel => ?_⟩
  match fuel with
  | 0 => rfl
  | 1 => rfl
  | fuel + 2 => rfl

/-- Three entries on pages of two. -/
theorem pagedClient_iff_three :
    Fetches (fun fuel => clientRun (doneWith [1, 2, 3]) [] fuel (fun _ => 2) (fun _ _ => .all) PagedModule.init.priv none)
      (fun _ => 2) [1, 2, 3] := by
  refine (pagedClient_iff PagedModule.init (.init rfl) (doneWith [1, 2, 3]) [] rfl (fun _ hc => nomatch hc) (fun _ => 2)
    (fun _ => by decide) fun _ _ => .all).2 ⟨by decide, fun k => ?_⟩
  rw [heldAt_all]
  have hthree : (doneWith [1, 2, 3]).entries.length = 3 := rfl
  simp [countsOf, intMax]
  omega

end Samba.Ldb
