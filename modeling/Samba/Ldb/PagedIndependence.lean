/-
Outstanding paged searches do not disturb each other as long as the newest of them is ended only when it is the only one: the
destructor of a store takes the head away from the list and all the other stores with it.
-/
import Mathlib.Data.List.Nodup
import Mathlib.Data.List.Perm.Subperm
import Samba.Ldb.PagedStores

namespace Samba.Ldb

open CString Links List Option ResultsStore Transition

variable {Entry Control : Type} {priv : PrivateData Entry Control} {a b : Addr} {s t s' : ResultsStore Entry Control}

namespace PrivateData

/-- The list as cells: `none` is the head, and the cell of a store is its `next`. -/
def nextCell (priv : PrivateData Entry Control) : Option Addr → Option Addr
  | none => priv.store
  | some a => (priv.heap a).bind (·.next)

/-- The list has every store, and a cookie names one of them. -/
structure Listed (priv : PrivateData Entry Control) : Prop where
  sound : priv.Sound
  list : ∃ as : List Addr, Linked none priv.nextCell none (as.map some) ∧ ∀ b, b ∈ as ↔ ∃ t, priv.heap b = some t
  named : ∀ {a s}, priv.heap a = some s → ∃ id : Nat, id < priv.nextFreeId ∧ s.cookie = printInt id
  distinct : ∀ {a b s t}, priv.heap a = some s → priv.heap b = some t → s.cookie = t.cookie → a = b

theorem Listed.init : (PagedModule.init : PagedModule Entry Control).priv.Listed where
  sound := .init
  list := ⟨[], rfl, fun _ => ⟨fun h => (not_mem_nil h).elim, fun ⟨_, h⟩ => nomatch h⟩⟩
  named h := nomatch h
  distinct h := nomatch h

/-! ## Finding a store -/

theorem findStore_linked {as : List Addr} {c : Option Addr} {fuel : Nat} (hlink : Linked none priv.nextCell c (as.map some))
    (hlive : ∀ b ∈ as, ∃ t, priv.heap b = some t)
    (hdistinct : ∀ {b t}, priv.heap b = some t → t.cookie = s.cookie → b = a) (hs : priv.heap a = some s) (ha : a ∈ as)
    (hfuel : as.length ≤ fuel) : findStore priv.heap s.cookie fuel (priv.nextCell c) = some (some a) := by
  induction as generalizing c fuel with
  | nil => cases ha
  | cons b as ih =>
    obtain ⟨-, hnext, hrest⟩ := hlink
    obtain ⟨t, ht⟩ := hlive b mem_cons_self
    cases fuel with
    | zero => simp at hfuel
    | succ fuel =>
      rw [hnext, findStore, bind_eq_bind, ht, bind_some]
      by_cases hcookie : t.cookie = s.cookie
      · rw [if_pos hcookie, hdistinct ht hcookie]
        rfl
      · rw [if_neg hcookie]
        have hba : a ≠ b := by
          rintro rfl
          cases hs.symm.trans ht
          exact hcookie rfl
        have hcell : priv.nextCell (some b) = t.next := by rw [nextCell, ht, bind_some]
        rw [← hcell]
        exact ih hrest (fun c hc => hlive c (mem_cons_of_mem _ hc)) ((mem_cons.mp ha).resolve_left hba)
          (by simpa using hfuel)

theorem Listed.findStore_cookie (h : priv.Listed) (hs : priv.heap a = some s) :
    findStore priv.heap (cstr s.cookie) priv.brk priv.store = some (some a) := by
  obtain ⟨as, hlink, hmem⟩ := h.list
  obtain ⟨id, -, hcookie⟩ := h.named hs
  have hlength : as.length ≤ priv.brk := by
    have hnodup : as.Nodup := List.Nodup.of_map _ hlink.nodup
    have hsub : as ⊆ List.range priv.brk := by
      intro b hb
      obtain ⟨t, ht⟩ := (hmem b).mp hb
      exact mem_range.mpr (h.sound.fresh ht)
    simpa using (subperm_of_subset hnodup hsub).length_le
  rw [cstr_eq_self (hcookie ▸ zero_notMem_printInt id)]
  exact findStore_linked hlink (fun b hb => (hmem b).mp hb) (fun ht hc => (h.distinct hs ht hc.symm).symm) hs
    ((hmem a).mpr ⟨s, hs⟩) hlength

/-! ## Keeping the list -/

theorem nextCell_set (hs : priv.heap a = some s) (hplace : SamePlace s s') :
    (priv.set a (some s')).nextCell = priv.nextCell := by
  funext c
  cases c with
  | none => rfl
  | some b =>
    rw [nextCell, nextCell]
    by_cases hb : b = a
    · rw [hb, set_heap_same, hs, bind_some, bind_some, hplace.next]
    · rw [set_heap_of_ne _ hb]

theorem Listed.set (h : priv.Listed) (hs : priv.heap a = some s) (hplace : SamePlace s s') :
    (priv.set a (some s')).Listed := by
  have hback : ∀ {b t}, (priv.set a (some s')).heap b = some t → ∃ t₀, priv.heap b = some t₀ ∧ t.cookie = t₀.cookie := by
    intro b t ht
    by_cases hb : b = a
    · rw [hb, set_heap_same] at ht
      cases ht
      exact ⟨s, hb ▸ hs, hplace.cookie⟩
    · rw [set_heap_of_ne _ hb] at ht
      exact ⟨t, ht, rfl⟩
  refine ⟨h.sound.set hs hplace, ?_, fun {b t} ht => ?_, fun {b c t u} ht hu hcookie => ?_⟩
  · obtain ⟨as, hlink, hmem⟩ := h.list
    refine ⟨as, by rwa [nextCell_set hs hplace], fun b => ?_⟩
    rw [hmem]
    by_cases hb : b = a
    · rw [hb, set_heap_same]
      exact ⟨fun _ => ⟨s', rfl⟩, fun _ => ⟨s, hs⟩⟩
    · rw [set_heap_of_ne _ hb]
  · obtain ⟨t₀, ht₀, hcookie⟩ := hback ht
    rw [hcookie]
    exact h.named ht₀
  · obtain ⟨t₀, ht₀, htc⟩ := hback ht
    obtain ⟨u₀, hu₀, huc⟩ := hback hu
    exact h.distinct ht₀ hu₀ (htc.symm.trans (hcookie.trans huc))

theorem Listed.started (h : priv.Listed) : priv.started.Listed := by
  have hold : ∀ {b t}, priv.heap b = some t → b ≠ priv.brk := fun ht => Nat.ne_of_lt (h.sound.fresh ht)
  have hfresh : ∀ {b t}, priv.started.heap b = some t → b ≠ priv.brk → t.cookie ≠ priv.fresh.cookie := by
    intro b t ht hb hcookie
    obtain ⟨t₀, ht₀, rfl⟩ := started_eq_some ht hb
    obtain ⟨id, hlt, hid⟩ := h.named ht₀
    have hid' : printInt id = printInt priv.nextFreeId := hid.symm.trans hcookie
    have := printInt_injective hid'
    omega
  refine ⟨h.sound.started, ?_, fun {b t} ht => ?_, fun {b c t u} ht hu hcookie => ?_⟩
  · obtain ⟨as, hlink, hmem⟩ := h.list
    refine ⟨priv.brk :: as, hlink.push (by simp) ?_ rfl fun c hc => ?_, fun b => ?_⟩
    · show (priv.started.heap priv.brk).bind (·.next) = _
      rw [started_heap_brk]
      rfl
    · obtain ⟨b, hb, rfl⟩ := mem_map.mp hc
      obtain ⟨t, ht⟩ := (hmem b).mp hb
      rw [nextCell, nextCell, started_heap (hold ht), ht]
      rfl
    · by_cases hb : b = priv.brk
      · rw [hb, started_heap_brk]
        exact ⟨fun _ => ⟨_, rfl⟩, fun _ => mem_cons_self⟩
      · rw [mem_cons, or_iff_right hb, hmem, started_heap hb]
        cases priv.heap b <;> simp
  · by_cases hb : b = priv.brk
    · rw [hb, started_heap_brk] at ht
      cases ht
      exact ⟨priv.nextFreeId, Nat.lt_succ_self _, rfl⟩
    · obtain ⟨t₀, ht₀, rfl⟩ := started_eq_some ht hb
      obtain ⟨id, hlt, hid⟩ := h.named ht₀
      exact ⟨id, Nat.lt_succ_of_lt hlt, hid⟩
  · by_cases hb : b = priv.brk
    · by_cases hc : c = priv.brk
      · exact hb.trans hc.symm
      · subst hb
        cases started_heap_brk.symm.trans ht
        exact absurd hcookie.symm (hfresh hu hc)
    · by_cases hc : c = priv.brk
      · subst hc
        cases started_heap_brk.symm.trans hu
        exact absurd hcookie (hfresh ht hb)
      · obtain ⟨t₀, ht₀, rfl⟩ := started_eq_some ht hb
        obtain ⟨u₀, hu₀, rfl⟩ := started_eq_some hu hc
        exact h.distinct ht₀ hu₀ hcookie

theorem findStore_freed_head (hhead : priv.store = some a) (cookie : Text) (fuel : Nat) :
    findStore (priv.freed a s).heap cookie fuel (priv.freed a s).store = some none := by
  rw [show (priv.freed a s).store = none from if_pos hhead, findStore]

/-- The list loses the store that is freed and no other, unless it is the head and there are others. -/
theorem Listed.freed (h : priv.Listed) (hs : priv.heap a = some s)
    (hlast : priv.store = some a → ∀ b t, priv.heap b = some t → b = a) : (priv.freed a s).Listed := by
  refine ⟨h.sound.freed hs, ?_, fun {b t} ht => ?_, fun {b c t u} ht hu hcookie => ?_⟩
  · obtain ⟨as, hlink, hmem⟩ := h.list
    obtain ⟨l₁, l₂, rfl⟩ := append_of_mem ((hmem a).mpr ⟨s, hs⟩)
    have hnodup : (l₁ ++ a :: l₂).Nodup := List.Nodup.of_map _ hlink.nodup
    have hlive : ∀ b, b ∈ l₁ ++ l₂ ↔ ∃ t, (priv.freed a s).heap b = some t := by
      intro b
      by_cases hb : b = a
      · subst hb
        simp only [mem_append, PrivateData.freed, if_pos, reduceCtorEq, exists_false, iff_false]
        have := hnodup
        simp only [nodup_append, nodup_cons, mem_cons] at this
        rintro (h₁ | h₂)
        · exact this.2.2 b h₁ b (.inl rfl) rfl
        · exact this.2.1.1 h₂
      · rw [freed_heap hb]
        have := hmem b
        simp only [mem_append, mem_cons, hb, false_or] at this
        rw [mem_append, this]
        cases priv.heap b <;> simp
    refine ⟨l₁ ++ l₂, ?_, hlive⟩
    by_cases hhead : priv.store = some a
    · -- nothing is left
      have hnil : l₁ ++ l₂ = [] := by
        refine eq_nil_iff_forall_not_mem.mpr fun b hb => ?_
        obtain ⟨t, ht⟩ := (hlive b).mp hb
        obtain ⟨hba, t₀, ht₀, -⟩ := freed_eq_some ht
        exact hba (hlast hhead b t₀ ht₀)
      rw [hnil]
      exact if_pos hhead
    · rw [map_append, map_cons] at hlink
      have hsuffix := hlink.suffix
      have hnext : (priv.freed a s).nextCell none = priv.store := if_neg hhead
      rw [map_append]
      -- the cell before the store is its `prev`
      cases hcell : lastCell none (l₁.map some) with
      | none =>
        rw [hcell] at hsuffix
        exact absurd hsuffix.2.1 hhead
      | some p =>
        rw [hcell] at hsuffix
        obtain ⟨u, hu⟩ : ∃ u, priv.heap p = some u := by
          have hp := hsuffix.2.1
          rw [nextCell] at hp
          obtain ⟨u, hu, -⟩ := bind_eq_some_iff.mp hp
          exact ⟨u, hu⟩
        have hun : u.next = some a := by
          have hp := hsuffix.2.1
          rwa [nextCell, hu, bind_some] at hp
        have hprev : s.prev = some p := by
          obtain ⟨-, s₀, hs₀, hprev⟩ := h.sound.next hu hun
          rwa [← hs₀.symm.trans hs |> Option.some.inj]
        have hpa : p ≠ a := by
          rintro rfl
          exact absurd (h.sound.next hu hun).1 (lt_irrefl _)
        refine hlink.unlink ?_ ?_ fun c hc hcp => ?_
        · refine nodup_cons.mpr ⟨by simp, ?_⟩
          rw [← map_cons, ← map_append]
          exact hnodup.map fun _ _ => Option.some.inj
        · rw [hcell, nextCell, freed_heap hpa, hu, nextCell, hs]
          exact if_pos hprev
        · rw [hcell] at hcp
          cases c with
          | none => exact hnext
          | some b =>
            have hb : b ∈ l₁ ++ l₂ := by
              simpa using hc
            obtain ⟨t, ht⟩ := (hlive b).mp hb
            obtain ⟨hba, t₀, ht₀, -⟩ := freed_eq_some ht
            rw [nextCell, nextCell, freed_heap hba, ht₀]
            refine if_neg fun hpb => hcp ?_
            exact (hprev.symm.trans hpb).symm
  · obtain ⟨-, t₀, ht₀, rfl⟩ := freed_eq_some ht
    obtain ⟨id, hlt, hid⟩ := h.named ht₀
    exact ⟨id, hlt, hid⟩
  · obtain ⟨-, t₀, ht₀, rfl⟩ := freed_eq_some ht
    obtain ⟨-, u₀, hu₀, rfl⟩ := freed_eq_some hu
    exact h.distinct ht₀ hu₀ hcookie

end PrivateData

open PrivateData

/-! ## Runs -/

/-- The search that a call ends is not the newest one, unless it is the only one. -/
structure EndsSafely (m : PagedModule Entry Control) (c : PagedCall Entry Control) : Prop where
  dropped : c.isDropped → ∀ b, m.priv.heap b = none
  ended : ∀ m' a, m.step c = some m' → m.priv.store = some a → m'.priv.heap a = none → ∀ b t, m.priv.heap b = some t → b = a

section Run

variable {m m' : PagedModule Entry Control} {c : PagedCall Entry Control}

/-- A step that ends a search safely keeps the list. -/
theorem listed_step (h : m.priv.Listed) (hc : EndsSafely m c) (hstep : m.step c = some m') : m'.priv.Listed := by
  have hchange := step_change h.sound hstep
  generalize hp : m'.priv = p at hchange ⊢
  cases hchange with
  | same => exact h
  | started hid hplace => exact h.started.set started_heap_brk hplace
  | dropped hid hplace hdrop =>
    refine (h.started.set started_heap_brk hplace).freed (set_heap_same _ _ _) fun _ b t ht => ?_
    by_contra hb
    rw [set_heap_of_ne _ hb, started_heap hb, hc.dropped hdrop b] at ht
    cases ht
  | updated hown hs hplace => exact h.set hs hplace
  | @ended a s s' hown hs hplace =>
    refine (h.set hs hplace).freed (set_heap_same _ _ _) fun hhead b t ht => ?_
    by_contra hb
    rw [set_heap_of_ne _ hb] at ht
    refine hb (hc.ended m' a hstep hhead ?_ b t ht)
    rw [hp]
    exact if_pos rfl

/-- In a run in which searches end safely the list has every outstanding search. -/
theorem listed_of_reachable (h : (pagedSystem.restrict EndsSafely).Reachable m) : m.priv.Listed := by
  refine @System.Reachable.invariant _ _ _ (fun m => m.priv.Listed) ?_ ?_ _ h
  · rintro m rfl
    exact .init
  · exact fun m c m' hlisted hstep => listed_step hlisted hstep.1 hstep.2

/-- The stores of the other searches keep their results. -/
theorem Change.contents {p : PrivateData Entry Control} (h : m.priv.Sound) (hc : Change m c p) (hs : m.priv.heap a = some s)
    (hown : ownStore m c ≠ some a) : ∃ s', p.heap a = some s' ∧ s'.contents = s.contents := by
  have hold : a ≠ m.priv.brk := Nat.ne_of_lt (h.fresh hs)
  cases hc with
  | same => exact ⟨s, hs, rfl⟩
  | started hid hplace =>
    rw [set_heap_of_ne _ hold, started_heap hold, hs]
    exact ⟨_, rfl, rfl⟩
  | dropped hid hplace hdrop =>
    rw [freed_heap hold, set_heap_of_ne _ hold, started_heap hold, hs]
    exact ⟨_, rfl, rfl⟩
  | @updated b t t' hown' ht hplace =>
    have hab : a ≠ b := fun hab => hown (hab ▸ hown')
    rw [set_heap_of_ne _ hab, hs]
    exact ⟨s, rfl, rfl⟩
  | @ended b t t' hown' ht hplace =>
    have hab : a ≠ b := fun hab => hown (hab ▸ hown')
    rw [freed_heap hab, set_heap_of_ne _ hab, hs]
    exact ⟨_, rfl, rfl⟩

/-- In a run in which searches end safely, a call leaves the results of the other outstanding searches as they are, and the
cookie of every outstanding search finds it. -/
theorem pagedSearches_independent (m m' : PagedModule Entry Control) (c : PagedCall Entry Control)
    (h : (pagedSystem.restrict EndsSafely).Reachable m) (hc : EndsSafely m c) (hstep : m.step c = some m') :
    (∀ a s, m.priv.heap a = some s → ownStore m c ≠ some a →
        ∃ s', m'.priv.heap a = some s' ∧ s'.contents = s.contents) ∧
      ∀ a s, m'.priv.heap a = some s → findStore m'.priv.heap (cstr s.cookie) m'.priv.brk m'.priv.store = some (some a) := by
  have hlisted := listed_of_reachable h
  refine ⟨fun a s hs hown => (step_change hlisted.sound hstep).contents hlisted.sound hs hown, fun a s hs => ?_⟩
  exact (listed_step hlisted hc hstep).findStore_cookie hs

end Run

/-- A search with two results that asks for a page of one. -/
def olderSearch : PagedCall Nat Unit := .search ⟨none, 1, ⟨[.entry 1, .entry 2, .done []], ldbSuccess⟩, []⟩

/-- A search with one result that asks for a page of two. -/
def newerSearch : PagedCall Nat Unit := .search ⟨none, 2, ⟨[.entry 3, .done []], ldbSuccess⟩, []⟩

/-- The newer search is waited for and ends with its last page. -/
def newerEnds : PagedCall Nat Unit := .wait 1 .all fun _ => ldbSuccess

/-- After that the older search has its results, but its cookie finds nothing. -/
theorem newest_end_loses_others :
    ∃ m, [olderSearch, newerSearch, newerEnds].foldlM PagedModule.step .init = some m ∧
      (∃ s, m.priv.heap 0 = some s ∧ s.first = [1, 2]) ∧
      findStore m.priv.heap (cstr (printInt 1)) m.priv.brk m.priv.store = some none :=
  ⟨_, rfl, ⟨_, rfl, rfl⟩, rfl⟩

/-- The module after the search with one result was started, and the one with two results after it. -/
def shortStarted : PagedModule Nat Unit := (PagedModule.init.step newerSearch).getD .init

def bothStarted : PagedModule Nat Unit := (shortStarted.step olderSearch).getD .init

/-- The search with one result is waited for and ends. It is not the newest one. -/
def olderEnds : PagedCall Nat Unit := .wait 0 .all fun _ => ldbSuccess

theorem reachable_bothStarted : ((@pagedSystem Nat Unit).restrict EndsSafely).Reachable bothStarted := by
  have hfirst : EndsSafely PagedModule.init newerSearch := ⟨fun h => absurd h.2 (by decide), fun _ _ _ h => nomatch h⟩
  have honly : ∀ b t, shortStarted.priv.heap b = some t → b = 0 := by
    intro b t ht
    by_contra hb
    have hnone : shortStarted.priv.heap b = none := (if_neg hb).trans (if_neg hb)
    rw [hnone] at ht
    cases ht
  have hsecond : EndsSafely shortStarted olderSearch := by
    refine ⟨fun h => absurd h.2 (by decide), fun m' a _ hhead _ b t ht => ?_⟩
    rw [honly b t ht]
    exact Option.some.inj hhead
  exact .step olderSearch (.step newerSearch (.init rfl) ⟨hfirst, rfl⟩) ⟨hsecond, rfl⟩

/-- The end of the older search takes its store away; the newer one keeps its two results and is found by its cookie. -/
theorem pagedSearches_independent_older :
    ∃ m', bothStarted.step olderEnds = some m' ∧ m'.priv.heap 0 = none ∧
      ∃ s, m'.priv.heap 1 = some s ∧ s.first = [1, 2] ∧
        findStore m'.priv.heap (cstr s.cookie) m'.priv.brk m'.priv.store = some (some 1) := by
  have hsafe : EndsSafely bothStarted olderEnds := by
    refine ⟨fun h => (nomatch h), fun m' a hstep hhead hgone => ?_⟩
    obtain rfl : 1 = a := Option.some.inj hhead
    cases hstep
    cases hgone
  obtain ⟨hothers, hcookie⟩ := pagedSearches_independent bothStarted _ olderEnds reachable_bothStarted hsafe rfl
  obtain ⟨s, hs, hcontents⟩ := hothers 1 _ rfl (by decide)
  exact ⟨_, rfl, rfl, s, hs, congrArg (·.first) hcontents, hcookie 1 s hs⟩

end Samba.Ldb
