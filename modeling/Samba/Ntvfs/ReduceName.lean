/-
When pvfs_reduce_name (ntvfs/posix/pvfs_resolve.c) cancels the ".." components of a name. The count of the memmove that removes two
components leaves the end of the array where it is, so that the last two components are read once more, until an empty component was
removed: without one the loop does not end, and with one they are part of the result.
-/
import Mathlib.Tactic.Linarith
import Samba.Ntvfs.ResolveReduced

namespace Samba.Ntvfs

open CString List Option Samba.Charset

/-! ## What the loop leaves -/

section Components

variable {num : Nat} {passed ws us vs rest : List Text} {w : Text}

theorem collapse_append (passed us vs : List Text) :
    collapse passed (us ++ vs) = (collapse passed us).bind fun r => collapse r.reverse vs := by
  induction us generalizing passed with
  | nil =>
    show _ = collapse passed.reverse.reverse vs
    rw [reverse_reverse, nil_append]
  | cons u us ih =>
    rw [cons_append]
    by_cases h : u = []
    · subst h
      rw [collapse_null, collapse_null, ih]
    · by_cases hback : u = [chr '.', chr '.']
      · subst hback
        cases passed with
        | nil => rfl
        | cons v passed => rw [collapse_back, collapse_back, ih]
      · rw [collapse_push h hback, collapse_push h hback, ih]

/-- The loop ends where the end of the array gets moved, where there is nothing to cancel, and where too much is cancelled. `rest` is
what is there once more behind the components. -/
theorem endsAs_full (h : [] ∈ us ∨ (rest = [] ∧ [chr '.', chr '.'] ∉ us) ∨ collapse passed us = none)
    (hlen : (arrayOf (passed.reverse ++ (us ++ rest)) []).length = num + 1) :
    EndsAs num (arrayOf (passed.reverse ++ (us ++ rest)) []) passed.length
      (collapse passed (us ++ (rest ++ (List.replicate (backs us) (lastTwo (passed.reverse ++ (us ++ rest)))).flatten))) := by
  induction us generalizing passed rest with
  | nil =>
    rcases h with h | ⟨rfl, -⟩ | h
    · cases h
    · rw [append_nil, append_nil]
      exact endsAs_end
    · cases h
  | cons u us ih =>
    by_cases hu : u = []
    · subst hu
      obtain ⟨junk', hjunk', hlen', hstep⟩ := removeComponents_null hlen
      rw [backs_null, replicate_zero, flatten_nil, append_nil, cons_append, collapse_null]
      exact (endsAs_slack hjunk' hlen').step hstep
    by_cases hback : u = [chr '.', chr '.']
    · subst hback
      cases passed with
      | nil => exact endsAs_first
      | cons v passed =>
        have hlong : 2 ≤ ((v :: passed).reverse ++ [chr '.', chr '.'] :: (us ++ rest)).length := by
          rw [length_append, length_reverse, length_cons, length_cons]
          omega
        have h' : [] ∈ us ∨ (rest ++ lastTwo ((v :: passed).reverse ++ [chr '.', chr '.'] :: (us ++ rest)) = [] ∧
            [chr '.', chr '.'] ∉ us) ∨ collapse passed us = none := by
          rcases h with h | ⟨-, h⟩ | h
          · exact .inl ((mem_cons.1 h).resolve_left (Ne.symm hu))
          · exact absurd mem_cons_self h
          · exact .inr (.inr h)
        have hnext := @ih passed (rest ++ lastTwo ((v :: passed).reverse ++ [chr '.', chr '.'] :: (us ++ rest))) h' (by
          rw [cons_append, length_arrayOf] at hlen
          rw [length_arrayOf, lastTwo]
          simp only [length_append, length_reverse, length_cons, length_drop] at hlen ⊢
          omega)
        rw [← append_assoc us, ← append_assoc passed.reverse, lastTwo_append_lastTwo _ hlong, append_assoc rest] at hnext
        rw [cons_append, cons_append, collapse_back, backs_back, replicate_succ, flatten_cons]
        refine EndsAs.step (fun fuel => ?_) hnext
        rw [cons_append] at hlen
        rw [removeComponents_back_full hlen]
        simp only [append_assoc]
    · have h' : [] ∈ us ∨ (rest = [] ∧ [chr '.', chr '.'] ∉ us) ∨ collapse (u :: passed) us = none := by
        rcases h with h | ⟨hr, h⟩ | h
        · exact .inl ((mem_cons.1 h).resolve_left (Ne.symm hu))
        · exact .inr (.inl ⟨hr, fun hmem => h (mem_cons_of_mem _ hmem)⟩)
        · rw [collapse_push hu hback] at h
          exact .inr (.inr h)
      have hassoc : (u :: passed).reverse ++ (us ++ rest) = passed.reverse ++ (u :: us ++ rest) := by
        rw [reverse_cons, append_assoc]
        rfl
      have hnext := @ih (u :: passed) rest h' (by rwa [hassoc])
      rw [hassoc] at hnext
      rw [show u :: us ++ (rest ++ _) = u :: (us ++ (rest ++ _)) from rfl, collapse_push hu hback, backs_push hu hback]
      refine hnext.step fun fuel => ?_
      rw [cons_append, removeComponents_push hu hback, hassoc]
      rfl

/-- What the loop leaves of the components of a name. -/
theorem endsAs_reduced (h : [] ∈ ws ∨ [chr '.', chr '.'] ∉ ws ∨ collapse [] ws = none) :
    EndsAs ws.length (ws.map some ++ [none]) 0 (reduced ws) := by
  have hfull := @endsAs_full ws.length [] ws [] (h.imp_right (Or.imp_left fun h => ⟨rfl, h⟩)) (by
    rw [append_nil, length_arrayOf]
    rfl)
  rw [append_nil, nil_append] at hfull
  exact hfull

/-! ## Components that cancel -/

/-- A component that is neither empty nor "..". -/
def Ordinary (w : Text) : Prop := w ≠ [] ∧ w ≠ [chr '.', chr '.']

instance (w : Text) : Decidable (Ordinary w) := inferInstanceAs (Decidable (_ ∧ _))

/-- As many ".." components as ordinary ones. -/
def Cancels (ws : List Text) : Prop := ws.count [chr '.', chr '.'] = ws.countP Ordinary

/-- At no place were there more ".." components than ordinary ones. -/
def Balanced (ws : List Text) : Prop := ∀ us, us <+: ws → us.count [chr '.', chr '.'] ≤ us.countP Ordinary

theorem count_null (ws : List Text) : ([] :: ws).count [chr '.', chr '.'] = ws.count [chr '.', chr '.'] ∧
    ([] :: ws).countP Ordinary = ws.countP Ordinary :=
  ⟨count_cons_of_ne (by decide), countP_cons_of_neg (by decide)⟩

theorem count_back (ws : List Text) : ([chr '.', chr '.'] :: ws).count [chr '.', chr '.'] = ws.count [chr '.', chr '.'] + 1 ∧
    ([chr '.', chr '.'] :: ws).countP Ordinary = ws.countP Ordinary :=
  ⟨count_cons_self, countP_cons_of_neg (by decide)⟩

theorem count_push (h : w ≠ []) (hback : w ≠ [chr '.', chr '.']) (ws : List Text) :
    (w :: ws).count [chr '.', chr '.'] = ws.count [chr '.', chr '.'] ∧ (w :: ws).countP Ordinary = ws.countP Ordinary + 1 :=
  ⟨count_cons_of_ne hback, countP_cons_of_pos (decide_eq_true (show Ordinary w from ⟨h, hback⟩))⟩

/-- Each ordinary component adds one to what was passed and each ".." takes one away. -/
theorem length_collapse (h : collapse passed ws = some vs) :
    vs.length + ws.count [chr '.', chr '.'] = passed.length + ws.countP Ordinary := by
  induction ws generalizing passed with
  | nil =>
    obtain rfl := Option.some.inj h
    simp
  | cons w ws ih =>
    by_cases hw : w = []
    · subst hw
      rw [collapse_null] at h
      rw [(count_null ws).1, (count_null ws).2]
      exact ih h
    · by_cases hback : w = [chr '.', chr '.']
      · subst hback
        cases passed with
        | nil => cases h
        | cons v passed =>
          rw [collapse_back] at h
          rw [(count_back ws).1, (count_back ws).2, length_cons]
          have := ih h
          omega
      · rw [collapse_push hw hback] at h
        rw [(count_push hw hback ws).1, (count_push hw hback ws).2]
        have := ih h
        rw [length_cons] at this
        omega

theorem collapse_eq_none_iff : collapse passed ws = none ↔
    ∃ us, us <+: ws ∧ passed.length + us.countP Ordinary < us.count [chr '.', chr '.'] := by
  induction ws generalizing passed with
  | nil =>
    refine iff_of_false nofun ?_
    rintro ⟨us, hus, hlt⟩
    rw [prefix_nil.1 hus] at hlt
    simp at hlt
  | cons w ws ih =>
    -- the empty start is never too short
    have hcons : (∃ us, us <+: w :: ws ∧ passed.length + us.countP Ordinary < us.count [chr '.', chr '.']) ↔
        ∃ us, us <+: ws ∧ passed.length + (w :: us).countP Ordinary < (w :: us).count [chr '.', chr '.'] := by
      constructor
      · rintro ⟨us, hus, hlt⟩
        rcases prefix_cons_iff.1 hus with rfl | ⟨us', rfl, hus'⟩
        · simp at hlt
        · exact ⟨us', hus', hlt⟩
      · rintro ⟨us, hus, hlt⟩
        exact ⟨w :: us, prefix_cons_iff.2 (.inr ⟨us, rfl, hus⟩), hlt⟩
    rw [hcons]
    by_cases hw : w = []
    · subst hw
      rw [collapse_null, ih]
      exact exists_congr fun us => by rw [(count_null us).1, (count_null us).2]
    · by_cases hback : w = [chr '.', chr '.']
      · subst hback
        cases passed with
        | nil =>
          refine iff_of_true rfl ⟨[], nil_prefix, ?_⟩
          rw [(count_back []).1, (count_back []).2]
          exact Nat.one_pos
        | cons v passed =>
          rw [collapse_back, ih]
          refine exists_congr fun us => and_congr_right fun _ => ?_
          rw [(count_back us).1, (count_back us).2, length_cons]
          omega
      · rw [collapse_push hw hback, ih]
        refine exists_congr fun us => and_congr_right fun _ => ?_
        rw [(count_push hw hback us).1, (count_push hw hback us).2, length_cons]
        omega

theorem collapse_ne_none_iff : collapse [] ws ≠ none ↔ Balanced ws := by
  rw [Ne, collapse_eq_none_iff]
  unfold Balanced
  push Not
  exact forall_congr' fun us => by rw [length_nil, Nat.zero_add]

theorem count_replicate (n : Nat) (ws : List Text) :
    ((List.replicate n ws).flatten).count [chr '.', chr '.'] = n * ws.count [chr '.', chr '.'] ∧
      ((List.replicate n ws).flatten).countP Ordinary = n * ws.countP Ordinary := by
  induction n with
  | zero => simp
  | succ n ih =>
    rw [replicate_succ, flatten_cons, count_append, countP_append, ih.1, ih.2, Nat.add_mul, Nat.add_mul]
    omega

/-- What cancels at the end of components leads back to where they led. -/
theorem collapse_again {u v : Text} (h : Cancels [u, v]) (hvs : collapse [] (ws ++ [u, v]) = some vs) :
    collapse vs.reverse [u, v] = some vs := by
  rw [collapse_append] at hvs
  obtain ⟨r, -, hvs⟩ := bind_eq_some_iff.1 hvs
  generalize r.reverse = passed at hvs
  unfold Cancels at h
  by_cases hu : u = []
  · subst hu
    rw [collapse_null] at hvs ⊢
    rw [(count_null [v]).1, (count_null [v]).2] at h
    by_cases hv : v = []
    · subst hv
      rw [collapse_null] at hvs ⊢
      obtain rfl := Option.some.inj hvs
      rw [reverse_reverse]
      rfl
    · by_cases hback : v = [chr '.', chr '.']
      · subst hback
        exact absurd h (by decide)
      · rw [(count_push hv hback []).1, (count_push hv hback []).2] at h
        exact absurd h (by decide)
  · by_cases hback : u = [chr '.', chr '.']
    · subst hback
      rw [(count_back [v]).1, (count_back [v]).2] at h
      by_cases hv : v = []
      · subst hv
        exact absurd h (by decide)
      · by_cases hback' : v = [chr '.', chr '.']
        · subst hback'
          exact absurd h (by decide)
        · cases passed with
          | nil => cases hvs
          | cons p passed =>
            rw [collapse_back, collapse_push hv hback'] at hvs
            obtain rfl := Option.some.inj hvs
            rw [reverse_reverse, collapse_back, collapse_push hv hback']
            rfl
    · rw [(count_push hu hback [v]).1, (count_push hu hback [v]).2] at h
      by_cases hback' : v = [chr '.', chr '.']
      · subst hback'
        rw [collapse_push hu hback, collapse_back] at hvs ⊢
        obtain rfl := Option.some.inj hvs
        rw [reverse_reverse]
        rfl
      · rw [count_cons_of_ne hback'] at h
        exact absurd h (by simp)

theorem collapse_replicate (n : Nat) (h : collapse vs.reverse us = some vs) :
    collapse vs.reverse (List.replicate n us).flatten = some vs := by
  induction n with
  | zero => exact congrArg some (reverse_reverse vs)
  | succ n ih =>
    rw [replicate_succ, flatten_cons, collapse_append, h]
    exact ih

theorem length_lastTwo (h : 2 ≤ ws.length) : (lastTwo ws).length = 2 := by
  rw [lastTwo, length_drop]
  omega

/-- What is left is what the components lead to if nothing is read once more, or what is read once more cancels. -/
theorem reduced_of_cancels (hvs : collapse [] ws = some vs) (h : backs ws = 0 ∨ 2 ≤ ws.length ∧ Cancels (lastTwo ws)) :
    reduced ws = some vs := by
  rw [reduced, collapse_append, hvs, bind_some]
  rcases h with h | ⟨hlong, h⟩
  · rw [h]
    exact congrArg some (reverse_reverse vs)
  · obtain ⟨u, v, huv⟩ := length_eq_two.1 (length_lastTwo hlong)
    have hws : ws = ws.take (ws.length - 2) ++ [u, v] := by
      rw [← huv, lastTwo, take_append_drop]
    rw [huv] at h ⊢
    rw [hws] at hvs
    exact collapse_replicate _ (collapse_again h hvs)

/-- As many components are left only if what is read once more cancels. -/
theorem cancels_of_length (hvs : collapse [] ws = some vs) (hus : reduced ws = some us) (hlen : us.length = vs.length)
    (hb : backs ws ≠ 0) : Cancels (lastTwo ws) := by
  rw [reduced, collapse_append, hvs, bind_some] at hus
  have hsum := length_collapse hus
  rw [(count_replicate _ _).1, (count_replicate _ _).2, length_reverse] at hsum
  exact Nat.eq_of_mul_eq_mul_left (Nat.pos_of_ne_zero hb) (by omega)

theorem two_le_length_of_backs (hvs : collapse [] ws = some vs) (hb : backs ws ≠ 0) : 2 ≤ ws.length := by
  match ws, hb with
  | [w], hb =>
    by_cases hback : w = [chr '.', chr '.']
    · subst hback
      cases hvs
    · exact absurd (backs_eq_zero (mem_singleton.not.2 (Ne.symm hback))) hb
  | _ :: _ :: _, _ => exact Nat.le_add_left 2 _

theorem null_not_mem_collapse (hvs : collapse passed ws = some vs) (hpassed : [] ∉ passed) : [] ∉ vs := by
  induction ws generalizing passed with
  | nil =>
    obtain rfl := Option.some.inj hvs
    rwa [mem_reverse]
  | cons w ws ih =>
    by_cases hw : w = []
    · subst hw
      rw [collapse_null] at hvs
      exact ih hvs hpassed
    · by_cases hback : w = [chr '.', chr '.']
      · subst hback
        cases passed with
        | nil => cases hvs
        | cons v passed =>
          rw [collapse_back] at hvs
          exact ih hvs fun h => hpassed (mem_cons_of_mem _ h)
      · rw [collapse_push hw hback] at hvs
        exact ih hvs fun h => (mem_cons.1 h).elim (fun h => hw h.symm) hpassed

end Components

/-! ## The name that is built -/

/-- The components behind their separators, or one separator where none is left. -/
def joined (ws : List Text) : Text := if ws = [] then [chr '\\'] else ws.flatMap fun w => chr '\\' :: w

theorem count_joined {ws : List Text} (h : ∀ w ∈ ws, chr '\\' ∉ w) :
    (ws.flatMap fun w => chr '\\' :: w).count (chr '\\') = ws.length := by
  induction ws with
  | nil => rfl
  | cons w ws ih =>
    rw [forall_mem_cons] at h
    rw [flatMap_cons, count_append, count_cons_self, count_eq_zero.2 h.1, ih h.2, length_cons]
    omega

theorem length_joined_lt {ws : List Text} (hne : ws ≠ []) (hnull : [] ∉ ws) : 1 < (joined ws).length := by
  obtain ⟨w, ws, rfl⟩ := exists_cons_of_ne_nil hne
  have hw : w ≠ [] := fun h => hnull (h ▸ mem_cons_self)
  have := length_pos_of_ne_nil hw
  rw [joined, if_neg (cons_ne_nil _ _), flatMap_cons, length_append, length_cons]
  omega

theorem length_eq_of_joined {us vs : List Text} (hus : ∀ w ∈ us, chr '\\' ∉ w) (hvs : ∀ w ∈ vs, chr '\\' ∉ w) (hus' : [] ∉ us)
    (hvs' : [] ∉ vs) (h : joined us = joined vs) : us.length = vs.length := by
  by_cases hu : us = []
  · by_cases hv : vs = []
    · rw [hu, hv]
    · have := length_joined_lt hv hvs'
      rw [← h, hu] at this
      exact absurd this (by decide)
  · by_cases hv : vs = []
    · have := length_joined_lt hu hus'
      rw [h, hv] at this
      exact absurd this (by decide)
    · rw [joined, joined, if_neg hu, if_neg hv] at h
      rw [← count_joined hus, h, count_joined hvs]

theorem separator_not_mem_take (b : UInt8) (bs : Text) : chr '\\' ∉ bs.take ((nextCodepoint (b :: bs)).2 - 1) :=
  fun h => absurd (nextCodepoint_continuation b bs _ h) (by decide)

theorem separator_not_mem {cur rest : Text} (hcur : chr '\\' ∉ cur) : ∀ w ∈ splitComponents cur rest, chr '\\' ∉ w := by
  induction hn : rest.length using Nat.strong_induction_on generalizing cur rest with
  | _ n ih =>
    cases rest with
    | nil =>
      rw [splitComponents]
      exact forall_mem_singleton.2 hcur
    | cons b bs =>
      have htake := separator_not_mem_take b bs
      rw [length_cons] at hn
      rw [splitComponents]
      split
      rename_i c size hnext
      rw [hnext] at htake
      have hlt : (bs.drop (size - 1)).length < n := by
        rw [length_drop]
        omega
      split
      · exact forall_mem_cons.2 ⟨hcur, ih _ hlt htake rfl⟩
      · rename_i hc
        refine ih _ hlt (fun h => ?_) rfl
        rcases mem_append.1 h with h | h
        · exact hcur h
        · rcases mem_cons.1 h with rfl | h
          · rw [nextCodepoint_ascii (by decide)] at hnext
            exact hc (Prod.mk.inj hnext).1.symm
          · exact htake h

theorem errCount_eq_zero {ws : List Text} (h : [chr '.'] ∉ ws) : errCount ws = 0 := by
  unfold errCount
  induction ws with
  | nil => rfl
  | cons w ws ih =>
    rw [mem_cons, not_or] at h
    have hstep : (if w = [] then 0 else if w = [chr '.'] ∨ 0 ≠ 0 then 0 + 1 else 0) = 0 := by
      split
      · rfl
      · exact if_neg (not_or.2 ⟨Ne.symm h.1, not_not.2 rfl⟩)
    rw [foldl_cons, hstep]
    exact ih h.2

section Reduce

variable {flags : ResolveFlags} {fname : Text}

/-- Without "." components, the result is that of the loop. -/
theorem reduceName_eq (hdot : [chr '.'] ∉ splitComponents [] fname) (fuel : Nat) :
    reduceName fuel flags fname = (removeComponents (splitComponents [] fname).length fuel
      ((splitComponents [] fname).map some ++ [none]) 0).map (Except.map fun array => joined (entries array)) := by
  rw [reduceName]
  dsimp only
  rw [errCount_eq_zero hdot, if_neg (not_not.2 rfl)]
  congr 1
  funext r
  cases r with
  | error e => rfl
  | ok array =>
    show (if _ then _ else _) = Except.ok (if _ then _ else _)
    split <;> rfl

/-- `pvfs_reduce_name` ends. It succeeds exactly if at no place there were more ".." than ordinary components, with the components
that the name leads to. -/
def ReducesRight (flags : ResolveFlags) (fname : Text) : Prop :=
  ∃ r, (∃ fuel, ∀ fuel', fuel ≤ fuel' → reduceName fuel' flags fname = some r) ∧
    ((∃ t, r = .ok t) ↔ Balanced (splitComponents [] fname)) ∧
    ∀ t, r = .ok t → (collapse [] (splitComponents [] fname)).map joined = some t

theorem EndsAs.reducesRight (hdot : [chr '.'] ∉ splitComponents [] fname)
    (h : EndsAs (splitComponents [] fname).length ((splitComponents [] fname).map some ++ [none]) 0
      (collapse [] (splitComponents [] fname))) : ReducesRight flags fname := by
  cases hws : collapse [] (splitComponents [] fname) with
  | none =>
    rw [hws] at h
    obtain ⟨fuel, h⟩ := h
    refine ⟨.error .objectPathSyntaxBad, ⟨fuel, fun fuel' hle => ?_⟩, iff_of_false nofun ?_, nofun⟩
    · rw [reduceName_eq hdot, removeComponents_mono h hle]
      rfl
    · exact fun hb => collapse_ne_none_iff.2 hb hws
  | some vs =>
    rw [hws] at h
    obtain ⟨fuel, array, h, rfl⟩ := h
    refine ⟨.ok (joined (entries array)), ⟨fuel, fun fuel' hle => ?_⟩, iff_of_true ⟨_, rfl⟩ ?_, fun t ht => ?_⟩
    · rw [reduceName_eq hdot, removeComponents_mono h hle]
      rfl
    · exact collapse_ne_none_iff.1 (by rw [hws]; exact nofun)
    · rw [hws, ← Except.ok.inj ht]
      rfl

/-- Without an empty component, a ".." among the last two keeps the loop from ending. -/
theorem null_mem_of_cancels {array : List (Option Text)} {ws : List Text} {fuel : Nat} (hlong : 2 ≤ ws.length)
    (hcancels : Cancels (lastTwo ws)) (hok : removeComponents ws.length fuel (ws.map some ++ [none]) 0 = some (.ok array)) :
    [] ∈ ws := by
  by_contra hnull
  obtain ⟨u, v, huv⟩ := length_eq_two.1 (length_lastTwo hlong)
  have hu : u ≠ [] := fun h => hnull (mem_of_mem_lastTwo (by rw [huv, h]; exact mem_cons_self))
  have hv : v ≠ [] := fun h => hnull (mem_of_mem_lastTwo (by rw [huv, h]; exact mem_cons_of_mem _ mem_cons_self))
  have hback : [chr '.', chr '.'] ∈ lastTwo ws := by
    by_contra hback
    rw [huv, mem_cons, mem_singleton, not_or] at hback
    rw [huv, Cancels, (count_push hu (Ne.symm hback.1) [v]).1, (count_push hu (Ne.symm hback.1) [v]).2,
      count_cons_of_ne (Ne.symm hback.2)] at hcancels
    exact absurd hcancels (by simp)
  exact @removeComponents_stuck ws.length fuel [] ws array hnull (mem_of_mem_lastTwo hback) hback
    (by rw [length_arrayOf]; rfl) hok

variable (flags fname) in
/-- A name without "." components is reduced right exactly if it is refused, or no ".." stands before its first empty component, or it
has an empty component and of its last two components as many are ".." as are ordinary. -/
theorem reducesRight_iff (hdot : [chr '.'] ∉ splitComponents [] fname) :
    ReducesRight flags fname ↔ ¬Balanced (splitComponents [] fname) ∨ backs (splitComponents [] fname) = 0 ∨
      [] ∈ splitComponents [] fname ∧ Cancels (lastTwo (splitComponents [] fname)) := by
  have hsep : ∀ w ∈ splitComponents [] fname, chr '\\' ∉ w := separator_not_mem not_mem_nil
  constructor
  · rintro ⟨r, ⟨fuel, hrun⟩, hiff, hjoined⟩
    refine or_iff_not_imp_left.2 fun hb => or_iff_not_imp_left.2 fun hbacks => ?_
    obtain ⟨t, rfl⟩ := hiff.2 (not_not.1 hb)
    obtain ⟨vs, hvs, hvst⟩ := map_eq_some_iff.1 (hjoined t rfl)
    have hrun := hrun fuel le_rfl
    rw [reduceName_eq hdot] at hrun
    obtain ⟨res, hres, hrest⟩ := map_eq_some_iff.1 hrun
    cases res with
    | error e => cases hrest
    | ok array =>
      have hred := removeComponents_reduced hres
      have hlong := two_le_length_of_backs hvs hbacks
      have hlen : (entries array).length = vs.length := by
        refine length_eq_of_joined (fun w hw => hsep w (mem_of_reduced hred hw)) (fun w hw => ?_)
          (null_not_mem_collapse hred not_mem_nil) (null_not_mem_collapse hvs not_mem_nil)
          ((Except.ok.inj hrest).trans hvst.symm)
        exact hsep w ((mem_of_collapse hvs hw).resolve_left not_mem_nil)
      have hcancels := cancels_of_length hvs hred hlen hbacks
      exact ⟨null_mem_of_cancels hlong hcancels hres, hcancels⟩
  · intro h
    refine EndsAs.reducesRight hdot ?_
    cases hws : collapse [] (splitComponents [] fname) with
    | none =>
      have hends := endsAs_reduced (.inr (.inr hws))
      rw [reduced, collapse_append, hws] at hends
      exact hends
    | some vs =>
      have hb : Balanced (splitComponents [] fname) := collapse_ne_none_iff.1 (by rw [hws]; exact nofun)
      have h := h.resolve_left (not_not.2 hb)
      by_cases hbacks : backs (splitComponents [] fname) = 0
      · have hends := @endsAs_reduced (splitComponents [] fname) (by
          by_cases hnull : [] ∈ splitComponents [] fname
          · exact .inl hnull
          · refine .inr (.inl ?_)
            rw [backs, takeWhile_eq_self_iff.2 (fun w hw => decide_eq_true (show w ≠ [] by rintro rfl; exact hnull hw))] at hbacks
            exact count_eq_zero.1 hbacks)
        rwa [reduced_of_cancels hws (.inl hbacks)] at hends
      · have h := h.resolve_left hbacks
        have hends := endsAs_reduced (.inl h.1)
        rwa [reduced_of_cancels hws (.inr ⟨two_le_length_of_backs hws hbacks, h.2⟩)] at hends

end Reduce

theorem word_ascii {w : Text} (h : ∀ b ∈ w, b < 0x80 ∧ b ≠ 0 ∧ b ≠ chr '\\') : Word w := by
  induction w with
  | nil => exact Word.nil
  | cons b w ih =>
    rw [forall_mem_cons] at h
    have hb : b.toNat < 0x80 := UInt8.lt_iff_toNat_lt.1 h.1.1
    have hbytes : utf8Bytes b.toNat = [b] := by rw [utf8Bytes_ascii hb, UInt8.ofNat_toNat]
    rw [← singleton_append, ← hbytes]
    refine Word.cons ⟨.inl (by omega), fun h0 => h.1.2.1 (UInt8.toNat_inj.1 h0), fun hs => h.1.2.2 (UInt8.toNat_inj.1 hs)⟩ (ih h.2)

theorem splitComponents_parent : splitComponents [] [chr 'x', chr '\\', chr '.', chr '.'] = [[chr 'x'], [chr '.', chr '.']] :=
  @splitComponents_join [] [chr 'x'] [[chr '.', chr '.']]
    (forall_mem_cons.2 ⟨word_ascii (by decide +kernel), forall_mem_singleton.2 (word_ascii (by decide +kernel))⟩)

/-- A name with the separator in front, whose empty first component is removed. -/
theorem reducesRight_separator : ReducesRight ⟨false, false⟩ [chr '\\', chr 'x', chr '\\', chr '.', chr '.'] := by
  have hsplit : splitComponents [] [chr '\\', chr 'x', chr '\\', chr '.', chr '.'] = [[], [chr 'x'], [chr '.', chr '.']] :=
    @splitComponents_join [] [] [[chr 'x'], [chr '.', chr '.']] (forall_mem_cons.2 ⟨Word.nil,
      forall_mem_cons.2 ⟨word_ascii (by decide +kernel), forall_mem_singleton.2 (word_ascii (by decide +kernel))⟩⟩)
  exact (reducesRight_iff ⟨false, false⟩ _ (by rw [hsplit]; decide)).2 (.inr (.inl (by rw [hsplit]; rfl)))

/-- The same without it, for which the loop does not end. -/
theorem parent_not_reducesRight : [chr '.'] ∉ splitComponents [] [chr 'x', chr '\\', chr '.', chr '.'] ∧
    ¬ReducesRight ⟨false, false⟩ [chr 'x', chr '\\', chr '.', chr '.'] := by
  have hdot : [chr '.'] ∉ splitComponents [] [chr 'x', chr '\\', chr '.', chr '.'] := by
    rw [splitComponents_parent]
    decide
  refine ⟨hdot, ?_⟩
  rintro ⟨r, ⟨fuel, hrun⟩, hiff, -⟩
  have hb : Balanced [[chr 'x'], [chr '.', chr '.']] := collapse_ne_none_iff.1 nofun
  obtain ⟨t, rfl⟩ := hiff.2 (by rw [splitComponents_parent]; exact hb)
  have hrun := hrun fuel le_rfl
  rw [reduceName_eq hdot, splitComponents_parent] at hrun
  obtain ⟨res, hres, hrest⟩ := map_eq_some_iff.1 hrun
  cases res with
  | error e => cases hrest
  | ok array => exact absurd (@null_mem_of_cancels array [[chr 'x'], [chr '.', chr '.']] fuel le_rfl rfl hres) (by decide)

end Samba.Ntvfs
