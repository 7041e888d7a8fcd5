/-
The reduction of ".." components (ntvfs/posix/pvfs_resolve.c), and the paths that client names are resolved to. What
pvfs_reduce_name leaves of a name is described without its array: the components that the name leads to, after the last
two were repeated for each ".." that is met before the end of the array moves.
-/
import Samba.Ntvfs.ResolveInside

namespace Samba.Ntvfs

open CString List Samba.Charset

/-! ## The reduction of a name -/

/-- Where components lead to: an empty one leads nowhere, and ".." one back. -/
def collapse (passed : List Text) : List Text → Option (List Text)
  | [] => some passed.reverse
  | w :: ws =>
    if w = [] then collapse passed ws
    else if w = [chr '.', chr '.'] then
      match passed with
      | [] => none
      | _ :: passed => collapse passed ws
    else collapse (w :: passed) ws

theorem collapse_null (passed ws : List Text) : collapse passed ([] :: ws) = collapse passed ws := by
  rw [collapse.eq_def]
  exact if_pos rfl

theorem collapse_back (v : Text) (passed ws : List Text) :
    collapse (v :: passed) ([chr '.', chr '.'] :: ws) = collapse passed ws := rfl

theorem collapse_push {w : Text} (h : w ≠ []) (hback : w ≠ [chr '.', chr '.']) (passed ws : List Text) :
    collapse passed (w :: ws) = collapse (w :: passed) ws := by
  rw [collapse.eq_def]
  dsimp only
  rw [if_neg h, if_neg hback]

/-- The last two components, or all if there are fewer. -/
def lastTwo (ws : List Text) : List Text := ws.drop (ws.length - 2)

/-- The ".." components before the first empty one. -/
def backs (ws : List Text) : Nat := (ws.takeWhile (· ≠ [])).count [chr '.', chr '.']

/-- The components that `pvfs_reduce_name` leaves. The end of the array is moved along only once an empty component was
removed; for each ".." before, the last two components are there once more. -/
def reduced (ws : List Text) : Option (List Text) :=
  collapse [] (ws ++ (List.replicate (backs ws) (lastTwo ws)).flatten)

/-! ## What the loop ends with -/

section Ends

variable {num fuel i : Nat} {array : List (Option Text)} {r r' : Except ResolveStatus (List (Option Text))}

theorem removeComponents_mono (h : removeComponents num fuel array i = some r) {fuel' : Nat} (hle : fuel ≤ fuel') :
    removeComponents num fuel' array i = some r := by
  induction fuel generalizing array i fuel' with
  | zero => cases h
  | succ fuel ih =>
    obtain ⟨f, rfl⟩ := Nat.exists_eq_add_of_le hle
    rw [show fuel + 1 + f = fuel + f + 1 by omega]
    rw [removeComponents] at h ⊢
    split at h
    · exact h
    · split
      · exact ih (by rwa [if_pos ‹_›] at h) (Nat.le_add_right fuel f)
      · rw [if_neg ‹_›] at h
        split
        · rw [if_pos ‹_›] at h
          split
          · rwa [if_pos ‹_›] at h
          · exact ih (by rwa [if_neg ‹_›] at h) (Nat.le_add_right fuel f)
        · exact ih (by rwa [if_neg ‹_›] at h) (Nat.le_add_right fuel f)

theorem removeComponents_unique {fuel' : Nat} (h : removeComponents num fuel array i = some r)
    (h' : removeComponents num fuel' array i = some r') : r = r' := by
  have hmax := removeComponents_mono h (Nat.le_max_left fuel fuel')
  rw [removeComponents_mono h' (Nat.le_max_right fuel fuel')] at hmax
  exact (Option.some.inj hmax).symm

/-- The loop ends, and refuses the name or leaves components. -/
def EndsAs (num : Nat) (array : List (Option Text)) (i : Nat) : Option (List Text) → Prop
  | none => ∃ fuel, removeComponents num fuel array i = some (.error .objectPathSyntaxBad)
  | some vs => ∃ fuel array', removeComponents num fuel array i = some (.ok array') ∧ entries array' = vs

theorem EndsAs.step {array' : List (Option Text)} {i' : Nat} {o : Option (List Text)}
    (hstep : ∀ fuel, removeComponents num (fuel + 1) array i = removeComponents num fuel array' i') (h : EndsAs num array' i' o) :
    EndsAs num array i o := by
  cases o with
  | none =>
    obtain ⟨fuel, h⟩ := h
    exact ⟨fuel + 1, (hstep fuel).trans h⟩
  | some vs =>
    obtain ⟨fuel, array'', h, hvs⟩ := h
    exact ⟨fuel + 1, array'', (hstep fuel).trans h, hvs⟩

theorem EndsAs.eq_of_ok {o : Option (List Text)} {left : List (Option Text)} (h : EndsAs num array i o)
    (hok : removeComponents num fuel array i = some (.ok left)) : o = some (entries left) := by
  cases o with
  | none =>
    obtain ⟨fuel', h⟩ := h
    cases removeComponents_unique hok h
  | some vs =>
    obtain ⟨fuel', left', h, rfl⟩ := h
    rw [Except.ok.inj (removeComponents_unique hok h)]

end Ends

/-! ## The array -/

/-- The array of the components, with what is behind the missing entry. -/
def arrayOf (ws : List Text) (junk : List (Option Text)) : List (Option Text) := ws.map some ++ none :: junk

theorem entries_arrayOf (ws : List Text) (junk : List (Option Text)) : entries (arrayOf ws junk) = ws := by
  rw [entries, arrayOf, takeWhile_append_of_pos (by simp), takeWhile_cons_of_neg (by simp), append_nil,
    filterMap_map]
  simp

section

variable {num fuel : Nat} {passed ws : List Text} {w : Text} {junk : List (Option Text)}

theorem getD_arrayOf : (arrayOf (passed.reverse ++ w :: ws) junk).getD passed.length none = some w := by
  simp [arrayOf, getD_eq_getElem?_getD]

theorem getD_arrayOf_end : (arrayOf passed.reverse junk).getD passed.length none = none := by
  simp [arrayOf, getD_eq_getElem?_getD]

theorem take_arrayOf : (arrayOf (passed.reverse ++ ws) junk).take passed.length = passed.reverse.map some := by
  rw [arrayOf, map_append, append_assoc, take_left' (by simp)]

theorem drop_arrayOf : (arrayOf (passed.reverse ++ w :: ws) junk).drop (passed.length + 1) = arrayOf ws junk := by
  have : arrayOf (passed.reverse ++ w :: ws) junk = (passed.reverse.map some ++ [some w]) ++ arrayOf ws junk := by
    simp [arrayOf]
  rw [this, drop_left' (by simp)]

theorem length_arrayOf : (arrayOf ws junk).length = ws.length + 1 + junk.length := by
  simp [arrayOf]
  omega

theorem removeComponents_null (hlen : (arrayOf (passed.reverse ++ [] :: ws) junk).length = num + 1) :
    ∃ junk', junk' ≠ [] ∧ (arrayOf (passed.reverse ++ ws) junk').length = num + 1 ∧ ∀ fuel,
      removeComponents num (fuel + 1) (arrayOf (passed.reverse ++ [] :: ws) junk) passed.length =
        removeComponents num fuel (arrayOf (passed.reverse ++ ws) junk') passed.length := by
  have hl : passed.length + ws.length + 1 + junk.length = num := by
    rw [length_arrayOf, length_append, length_reverse, length_cons] at hlen
    omega
  have hmove : memmove (arrayOf (passed.reverse ++ [] :: ws) junk) passed.length (passed.length + 1)
      (num - passed.length) =
        arrayOf (passed.reverse ++ ws) (junk ++ (arrayOf (passed.reverse ++ [] :: ws) junk).drop num) := by
    rw [memmove, take_arrayOf, drop_arrayOf, take_of_length_le (by rw [length_arrayOf]; omega),
      show passed.length + (num - passed.length) = num by omega]
    simp [arrayOf]
  refine ⟨_, ?_, ?_, fun fuel => by rw [← hmove, removeComponents, getD_arrayOf]; exact if_pos rfl⟩
  · intro h
    have := congrArg List.length (append_eq_nil_iff.1 h).2
    rw [length_drop, hlen, length_nil] at this
    omega
  · rw [length_arrayOf, length_append, length_append, length_drop, hlen, length_reverse]
    omega

theorem removeComponents_push (h : w ≠ []) (hback : w ≠ [chr '.', chr '.']) :
    removeComponents num (fuel + 1) (arrayOf (passed.reverse ++ w :: ws) junk) passed.length =
      removeComponents num fuel (arrayOf ((w :: passed).reverse ++ ws) junk) (w :: passed).length := by
  rw [removeComponents, getD_arrayOf]
  dsimp only
  rw [if_neg h, if_neg hback, reverse_cons, append_assoc]
  rfl

/-- A ".." component is removed with the one before it, and what is behind is moved up to the last entry but one. -/
theorem removeComponents_back {v : Text}
    (hlen : (arrayOf ((v :: passed).reverse ++ [chr '.', chr '.'] :: ws) junk).length = num + 1) :
    removeComponents num (fuel + 1) (arrayOf ((v :: passed).reverse ++ [chr '.', chr '.'] :: ws) junk)
        (v :: passed).length =
      removeComponents num fuel (passed.reverse.map some ++ (arrayOf ws junk).dropLast ++
        (arrayOf ((v :: passed).reverse ++ [chr '.', chr '.'] :: ws) junk).drop (num - 2)) passed.length := by
  have hl : passed.length + ws.length + 2 + junk.length = num := by
    rw [length_arrayOf, length_append, length_reverse, length_cons, length_cons] at hlen
    omega
  have htake : (arrayOf ((v :: passed).reverse ++ [chr '.', chr '.'] :: ws) junk).take passed.length =
      passed.reverse.map some := by
    rw [reverse_cons, append_assoc, take_arrayOf]
  rw [removeComponents, getD_arrayOf]
  dsimp only
  rw [if_neg (by decide), if_pos rfl, if_neg (by simp), memmove, drop_arrayOf, length_cons, Nat.add_sub_cancel,
    htake, dropLast_eq_take, length_arrayOf, show num - (passed.length + 1 + 1) = ws.length + 1 + junk.length - 1 by omega,
    show passed.length + (ws.length + 1 + junk.length - 1) = num - 2 by omega]

/-- Once the missing entry is not the last, it is moved too. -/
theorem removeComponents_back_slack {v : Text} (hjunk : junk ≠ [])
    (hlen : (arrayOf ((v :: passed).reverse ++ [chr '.', chr '.'] :: ws) junk).length = num + 1) :
    ∃ junk', junk' ≠ [] ∧ (arrayOf (passed.reverse ++ ws) junk').length = num + 1 ∧ ∀ fuel,
      removeComponents num (fuel + 1) (arrayOf ((v :: passed).reverse ++ [chr '.', chr '.'] :: ws) junk)
          (v :: passed).length =
        removeComponents num fuel (arrayOf (passed.reverse ++ ws) junk') passed.length := by
  have hl : passed.length + ws.length + 2 + junk.length = num := by
    rw [length_arrayOf, length_append, length_reverse, length_cons, length_cons] at hlen
    omega
  have hmove : passed.reverse.map some ++ (arrayOf ws junk).dropLast ++
      (arrayOf ((v :: passed).reverse ++ [chr '.', chr '.'] :: ws) junk).drop (num - 2) =
        arrayOf (passed.reverse ++ ws) (junk.dropLast ++
          (arrayOf ((v :: passed).reverse ++ [chr '.', chr '.'] :: ws) junk).drop (num - 2)) := by
    rw [arrayOf, dropLast_append_of_ne_nil (cons_ne_nil _ _), dropLast_cons_of_ne_nil hjunk]
    simp [arrayOf]
  refine ⟨_, ?_, ?_, fun fuel => by rw [removeComponents_back hlen, hmove]⟩
  · intro h
    have := congrArg List.length (append_eq_nil_iff.1 h).2
    rw [length_drop, hlen, length_nil] at this
    omega
  · rw [length_arrayOf, length_append, length_append, length_drop, hlen, length_reverse,
      length_dropLast]
    have := length_pos_iff.2 hjunk
    omega

/-- Before, it stays, and the last two components stand there once more. -/
theorem removeComponents_back_full {v : Text}
    (hlen : (arrayOf ((v :: passed).reverse ++ [chr '.', chr '.'] :: ws) []).length = num + 1) :
    removeComponents num (fuel + 1) (arrayOf ((v :: passed).reverse ++ [chr '.', chr '.'] :: ws) [])
        (v :: passed).length =
      removeComponents num fuel
        (arrayOf (passed.reverse ++ (ws ++ lastTwo ((v :: passed).reverse ++ [chr '.', chr '.'] :: ws))) [])
        passed.length := by
  rw [removeComponents_back hlen]
  have hl : ((v :: passed).reverse ++ [chr '.', chr '.'] :: ws).length = num := by
    rw [length_arrayOf] at hlen
    simpa using hlen
  have h2 : num - 2 ≤ ((v :: passed).reverse ++ [chr '.', chr '.'] :: ws).length := by omega
  congr 1
  rw [lastTwo, hl, arrayOf, dropLast_concat, arrayOf,
    drop_append_of_le_length (by rw [length_map]; exact h2)]
  simp [arrayOf]

/-- At the first component, there is no way back. -/
theorem removeComponents_back_first :
    removeComponents num (fuel + 1) (arrayOf ([chr '.', chr '.'] :: ws) junk) 0 =
      some (.error .objectPathSyntaxBad) := by
  rw [removeComponents]
  rfl

theorem removeComponents_end :
    removeComponents num (fuel + 1) (arrayOf passed.reverse junk) passed.length =
      some (.ok (arrayOf passed.reverse junk)) := by
  rw [removeComponents, getD_arrayOf_end]

theorem endsAs_end : EndsAs num (arrayOf passed.reverse junk) passed.length (some passed.reverse) :=
  ⟨1, _, removeComponents_end, entries_arrayOf _ _⟩

theorem endsAs_first : EndsAs num (arrayOf ([chr '.', chr '.'] :: ws) junk) 0 none :=
  ⟨1, removeComponents_back_first⟩

/-- With the missing entry moved along, the components that are left are those the name leads to. -/
theorem endsAs_slack (hjunk : junk ≠ []) (hlen : (arrayOf (passed.reverse ++ ws) junk).length = num + 1) :
    EndsAs num (arrayOf (passed.reverse ++ ws) junk) passed.length (collapse passed ws) := by
  induction ws generalizing passed junk with
  | nil =>
    rw [append_nil]
    exact endsAs_end
  | cons w ws ih =>
    by_cases h : w = []
    · subst h
      obtain ⟨junk', hjunk', hlen', hstep⟩ := removeComponents_null hlen
      rw [collapse_null]
      exact (ih hjunk' hlen').step hstep
    · by_cases hback : w = [chr '.', chr '.']
      · subst hback
        cases passed with
        | nil => exact endsAs_first
        | cons v passed =>
          obtain ⟨junk', hjunk', hlen', hstep⟩ := removeComponents_back_slack hjunk hlen
          rw [collapse_back]
          exact (ih hjunk' hlen').step hstep
      · rw [collapse_push h hback]
        exact (ih hjunk (by rwa [reverse_cons, append_assoc])).step fun fuel => removeComponents_push h hback

theorem lastTwo_append_lastTwo (ws : List Text) {vs : List Text} (h : 2 ≤ vs.length) :
    lastTwo (ws ++ lastTwo vs) = lastTwo vs := by
  have hl : (lastTwo vs).length = 2 := by rw [lastTwo, length_drop]; omega
  rw [lastTwo, length_append, hl, drop_left' (by omega)]

theorem mem_of_mem_lastTwo (h : w ∈ lastTwo ws) : w ∈ ws := mem_of_mem_drop h

/-- When the end does not move and a ".." component is among the last two, there always is one more. -/
theorem removeComponents_stuck {array : List (Option Text)} (hnull : [] ∉ passed.reverse ++ ws)
    (hback : [chr '.', chr '.'] ∈ ws) (hlast : [chr '.', chr '.'] ∈ lastTwo (passed.reverse ++ ws))
    (hlen : (arrayOf (passed.reverse ++ ws) []).length = num + 1) :
    removeComponents num fuel (arrayOf (passed.reverse ++ ws) []) passed.length ≠ some (.ok array) := by
  induction fuel generalizing passed ws with
  | zero => exact nofun
  | succ fuel ih =>
    cases ws with
    | nil => exact absurd hback not_mem_nil
    | cons w ws =>
      have hw : w ≠ [] := fun h => hnull (h ▸ mem_append_right _ mem_cons_self)
      by_cases h : w = [chr '.', chr '.']
      · subst h
        cases passed with
        | nil =>
          rw [reverse_nil, nil_append, length_nil, removeComponents_back_first]
          exact nofun
        | cons v passed =>
          rw [removeComponents_back_full hlen]
          have hlong : 2 ≤ ((v :: passed).reverse ++ [chr '.', chr '.'] :: ws).length := by
            rw [length_append, length_reverse, length_cons, length_cons]
            omega
          refine ih ?_ (mem_append_right _ hlast) ?_ ?_
          · intro h
            rcases mem_append.1 h with h | h
            · exact hnull (mem_append_left _ (by rw [reverse_cons]; exact mem_append_left _ h))
            · rcases mem_append.1 h with h | h
              · exact hnull (mem_append_right _ (mem_cons_of_mem _ h))
              · exact hnull (mem_of_mem_lastTwo h)
          · rwa [← append_assoc, lastTwo_append_lastTwo _ hlong]
          · rw [length_arrayOf] at hlen ⊢
            rw [lastTwo, length_append, length_append, length_drop]
            simp only [length_append, length_reverse, length_cons] at hlen ⊢
            omega
      · rw [removeComponents_push hw h]
        have hassoc : (w :: passed).reverse ++ ws = passed.reverse ++ w :: ws := by
          rw [reverse_cons, append_assoc]
          rfl
        refine ih ?_ ((mem_cons.1 hback).resolve_left (Ne.symm h)) ?_ ?_
        · rwa [hassoc]
        · rwa [hassoc]
        · rwa [hassoc]

theorem backs_null (ws : List Text) : backs ([] :: ws) = 0 := rfl

theorem backs_back (ws : List Text) : backs ([chr '.', chr '.'] :: ws) = backs ws + 1 := by
  rw [backs, takeWhile_cons_of_pos (by decide), count_cons_self, backs]

theorem backs_push (h : w ≠ []) (hback : w ≠ [chr '.', chr '.']) : backs (w :: ws) = backs ws := by
  rw [backs, takeWhile_cons_of_pos (by simpa using h), count_cons_of_ne hback, backs]

theorem backs_eq_zero (h : [chr '.', chr '.'] ∉ ws) : backs ws = 0 :=
  count_eq_zero.2 fun hmem => h (takeWhile_subset _ hmem)

theorem backs_append {vs : List Text} (h : [] ∈ ws ∨ [chr '.', chr '.'] ∉ vs) : backs (ws ++ vs) = backs ws := by
  induction ws with
  | nil => exact backs_eq_zero (h.resolve_left not_mem_nil)
  | cons w ws ih =>
    by_cases hw : w = []
    · subst hw
      rw [cons_append, backs_null, backs_null]
    · have ih := ih (h.imp_left fun h => (mem_cons.1 h).resolve_left (Ne.symm hw))
      by_cases hback : w = [chr '.', chr '.']
      · subst hback
        rw [cons_append, backs_back, backs_back, ih]
      · rw [cons_append, backs_push hw hback, backs_push hw hback, ih]

/-- The components that are left, from the start on. -/
theorem removeComponents_full {array : List (Option Text)} (hnull : [] ∉ passed)
    (hlen : (arrayOf (passed.reverse ++ ws) []).length = num + 1)
    (hok : removeComponents num fuel (arrayOf (passed.reverse ++ ws) []) passed.length = some (.ok array)) :
    collapse passed (ws ++ (List.replicate (backs ws) (lastTwo (passed.reverse ++ ws))).flatten) =
      some (entries array) := by
  induction fuel generalizing passed ws with
  | zero => cases hok
  | succ fuel ih =>
    cases ws with
    | nil =>
      rw [append_nil, removeComponents_end] at hok
      rw [← Except.ok.inj (Option.some.inj hok), entries_arrayOf]
      rfl
    | cons w ws =>
      by_cases h : w = []
      · subst h
        obtain ⟨junk', hjunk', hlen', heq⟩ := removeComponents_null hlen
        rw [heq] at hok
        rw [backs_null, replicate_zero, flatten_nil, append_nil, collapse_null]
        exact (endsAs_slack hjunk' hlen').eq_of_ok hok
      by_cases hback : w = [chr '.', chr '.']
      · subst hback
        cases passed with
        | nil =>
          rw [reverse_nil, nil_append, length_nil, removeComponents_back_first] at hok
          cases hok
        | cons v passed =>
          have hlong : 2 ≤ ((v :: passed).reverse ++ [chr '.', chr '.'] :: ws).length := by
            rw [length_append, length_reverse, length_cons, length_cons]
            omega
          have hmoved : backs (ws ++ lastTwo ((v :: passed).reverse ++ [chr '.', chr '.'] :: ws)) = backs ws := by
            refine backs_append (or_iff_not_imp_left.2 fun hws hlast => ?_)
            refine removeComponents_stuck ?_ mem_cons_self hlast hlen hok
            simp only [mem_append, mem_reverse, mem_cons, not_or]
            exact ⟨by simpa using hnull, by decide, hws⟩
          rw [removeComponents_back_full hlen] at hok
          have hok' := ih (fun h => hnull (mem_cons_of_mem _ h)) (by
            rw [length_arrayOf] at hlen ⊢
            rw [lastTwo, length_append, length_append, length_drop]
            simp only [length_append, length_reverse, length_cons] at hlen ⊢
            omega) hok
          rw [hmoved, ← append_assoc passed.reverse, lastTwo_append_lastTwo _ hlong, append_assoc] at hok'
          rw [cons_append, collapse_back, backs_back, replicate_succ, flatten_cons]
          exact hok'
      · rw [removeComponents_push h hback] at hok
        have hassoc : (w :: passed).reverse ++ ws = passed.reverse ++ w :: ws := by
          rw [reverse_cons, append_assoc]
          rfl
        rw [cons_append, collapse_push h hback, backs_push h hback, ← hassoc]
        exact ih (fun hmem => (mem_cons.1 hmem).elim (fun h' => h h'.symm) hnull) (by rwa [hassoc]) hok

/-- The components that `pvfs_reduce_name` leaves of those of a name. -/
theorem removeComponents_reduced {array : List (Option Text)}
    (hok : removeComponents ws.length fuel (ws.map some ++ [none]) 0 = some (.ok array)) :
    reduced ws = some (entries array) :=
  @removeComponents_full ws.length fuel [] ws array not_mem_nil (by rw [length_arrayOf]; rfl) hok

end

/-! ## Names made of components -/

theorem Word.nil : Word [] := ⟨[], nofun, rfl⟩

theorem Word.cons {c : Nat} {w : Text} (hc : WordChar c) (h : Word w) : Word (utf8Bytes c ++ w) := by
  obtain ⟨cs, hcs, rfl⟩ := h
  exact ⟨c :: cs, forall_mem_cons.2 ⟨hc, hcs⟩, by rw [flatMap_cons]⟩

theorem join_append_head (v w : Text) (ws : List Text) :
    v ++ [chr '\\'].intercalate (w :: ws) = [chr '\\'].intercalate ((v ++ w) :: ws) := by
  cases ws with
  | nil => rw [intercalate_singleton, intercalate_singleton]
  | cons u ws => rw [intercalate_cons_cons, intercalate_cons_cons, append_assoc, append_assoc,
      append_assoc]

/-- A string of characters is made of components. -/
theorem exists_words {cs : List Nat} (h : ∀ c ∈ cs, Scalar c ∧ c ≠ 0) :
    ∃ w ws, (∀ v ∈ w :: ws, Word v) ∧ cs.flatMap utf8Bytes = [chr '\\'].intercalate (w :: ws) := by
  induction cs with
  | nil => exact ⟨[], [], by simpa using Word.nil, by rw [intercalate_singleton]; rfl⟩
  | cons c cs ih =>
    rw [forall_mem_cons] at h
    obtain ⟨w, ws, hws, heq⟩ := ih h.2
    rw [flatMap_cons, heq]
    by_cases hsep : c = 0x5C
    · subst hsep
      refine ⟨[], w :: ws, forall_mem_cons.2 ⟨Word.nil, hws⟩, ?_⟩
      rw [intercalate_cons_cons, nil_append, utf8Bytes_ascii (by decide)]
      rfl
    · rw [forall_mem_cons] at hws
      exact ⟨utf8Bytes c ++ w, ws, forall_mem_cons.2 ⟨Word.cons ⟨h.1.1, h.1.2, hsep⟩ hws.1, hws.2⟩,
        join_append_head _ _ _⟩

/-- The components of a name: what stands between the separators. -/
def ClientName.components (name : ClientName) : List Text := name.text.splitOn (chr '\\')

theorem ClientName.components_words (name : ClientName) : ∀ w ∈ name.components, Word w := by
  obtain ⟨w, ws, hws, heq⟩ := exists_words name.valid
  rw [components, text, heq, splitOn_intercalate _ (fun v hv => (hws v hv).not_mem.2) (cons_ne_nil _ _)]
  exact hws

theorem ClientName.join_components (name : ClientName) : [chr '\\'].intercalate name.components = name.text :=
  intercalate_splitOn _

theorem splitComponents_wide {c : Nat} (h : Scalar c) (hc : 0x80 ≤ c) (cur rest : Text) :
    splitComponents cur (utf8Bytes c ++ rest) = splitComponents (cur ++ utf8Bytes c) rest := by
  have hnext := nextCodepoint_wide h hc rest
  have hmax : c ≤ 0x10FFFF := by unfold Scalar at h; omega
  obtain ⟨b, bs, hbytes, -⟩ := utf8Bytes_wide hc hmax
  rw [hbytes, cons_append] at hnext ⊢
  rw [splitComponents, hnext]
  dsimp only
  rw [if_neg fun he => absurd (Option.some.inj he) (by omega), length_cons, Nat.add_sub_cancel, take_left,
    drop_left]

theorem splitComponents_ascii {c : Nat} (hc : c < 0x80) (cur rest : Text) :
    splitComponents cur (UInt8.ofNat c :: rest) =
      if c = 0x5C then cur :: splitComponents [] rest else splitComponents (cur ++ [UInt8.ofNat c]) rest := by
  rw [splitComponents, nextCodepoint_ascii (ascii_bit c hc), toNat_ofNat_ascii hc]
  simp only [Option.some.injEq]
  rfl

theorem splitComponents_word {cs : List Nat} (hcs : ∀ c ∈ cs, WordChar c) (cur rest : Text) :
    splitComponents cur (cs.flatMap utf8Bytes ++ rest) = splitComponents (cur ++ cs.flatMap utf8Bytes) rest := by
  induction cs generalizing cur with
  | nil => rw [flatMap_nil, nil_append, append_nil]
  | cons c cs ih =>
    rw [forall_mem_cons] at hcs
    have hchar : splitComponents cur (utf8Bytes c ++ (cs.flatMap utf8Bytes ++ rest)) =
        splitComponents (cur ++ utf8Bytes c) (cs.flatMap utf8Bytes ++ rest) := by
      by_cases hlow : c < 0x80
      · rw [utf8Bytes_ascii hlow, singleton_append, splitComponents_ascii hlow, if_neg hcs.1.2.2]
      · exact splitComponents_wide hcs.1.1 (by omega) _ _
    rw [flatMap_cons, append_assoc, hchar, ih hcs.2, append_assoc]

/-- The components that `pvfs_reduce_name` looks at are those of the name. -/
theorem splitComponents_join {cur w : Text} {ws : List Text} (h : ∀ v ∈ w :: ws, Word v) :
    splitComponents cur ([chr '\\'].intercalate (w :: ws)) = (cur ++ w) :: ws := by
  induction ws generalizing cur w with
  | nil =>
    obtain ⟨cs, hcs, rfl⟩ := h w mem_cons_self
    have := splitComponents_word hcs cur []
    rw [append_nil] at this
    rw [intercalate_singleton, this, splitComponents]
  | cons v ws ih =>
    obtain ⟨cs, hcs, rfl⟩ := h w mem_cons_self
    have hstep := splitComponents_ascii (show 0x5C < 0x80 by decide) (cur ++ cs.flatMap utf8Bytes)
      ([chr '\\'].intercalate (v :: ws))
    rw [if_pos rfl, ih fun u hu => h u (mem_cons_of_mem _ hu), nil_append] at hstep
    rw [intercalate_cons_cons, append_assoc, splitComponents_word hcs]
    exact hstep

theorem mem_of_collapse {passed ws vs : List Text} (h : collapse passed ws = some vs) {v : Text} (hv : v ∈ vs) :
    v ∈ passed ∨ v ∈ ws := by
  induction ws generalizing passed with
  | nil =>
    obtain rfl := Option.some.inj h
    exact .inl (mem_reverse.1 hv)
  | cons w ws ih =>
    by_cases hw : w = []
    · subst hw
      rw [collapse_null] at h
      exact (ih h).imp_right (mem_cons_of_mem _)
    · by_cases hback : w = [chr '.', chr '.']
      · subst hback
        cases passed with
        | nil => cases h
        | cons u passed =>
          rw [collapse_back] at h
          exact (ih h).imp (mem_cons_of_mem _) (mem_cons_of_mem _)
      · rw [collapse_push hw hback] at h
        rcases ih h with hmem | hmem
        · rcases mem_cons.1 hmem with rfl | hmem
          · exact .inr mem_cons_self
          · exact .inl hmem
        · exact .inr (mem_cons_of_mem _ hmem)

theorem mem_of_reduced {ws vs : List Text} (h : reduced ws = some vs) {v : Text} (hv : v ∈ vs) : v ∈ ws := by
  rcases mem_of_collapse h hv with hmem | hmem
  · exact absurd hmem not_mem_nil
  · rcases mem_append.1 hmem with hmem | hmem
    · exact hmem
    · obtain ⟨l, hl, hmem⟩ := mem_flatten.1 hmem
      rw [(mem_replicate.1 hl).2] at hmem
      exact mem_of_mem_lastTwo hmem

/-- The name that `pvfs_reduce_name` builds of components. -/
theorem flatMap_separator {w : Text} {ws : List Text} :
    ((w :: ws).flatMap fun v => chr '\\' :: v) = [chr '\\'].intercalate ([] :: w :: ws) := by
  induction ws generalizing w with
  | nil => simp [intercalate_cons_cons, intercalate_singleton]
  | cons v ws ih =>
    rw [flatMap_cons, ih]
    simp only [intercalate_cons_cons, nil_append, append_assoc, cons_append]

theorem hasDots_dropWhile (ws : List Text) : HasDots (ws.dropWhile (· = [])) ↔ HasDots ws := by
  induction ws with
  | nil => exact Iff.rfl
  | cons w ws ih =>
    by_cases hw : w = []
    · subst hw
      rw [dropWhile_cons_of_pos (by decide), ih, hasDots_cons (by decide)]
      exact (or_iff_right (by decide)).symm
    · rw [dropWhile_cons_of_neg (by simpa using hw)]

theorem leadsOut_null (ws : List Text) : LeadsOut ([] :: ws) ↔ LeadsOut ws := Iff.rfl

/-- The name that `pvfs_reduce_name` gives is the separator and the components that are left. -/
theorem reduceName_ok {ws : List Text} {fuel : Nat} {flags : ResolveFlags} {cifsName : Text} (hne : ws ≠ [])
    (hws : ∀ v ∈ ws, Word v) (h : reduceName fuel flags ([chr '\\'].intercalate ws) = some (.ok cifsName)) :
    ∃ vs us, reduced ws = some vs ∧ cifsName = [chr '\\'].intercalate us ∧ (∀ v ∈ us, Word v) ∧
      (LeadsOut us ↔ LeadsOut vs) := by
  obtain ⟨w, ws, rfl⟩ := exists_cons_of_ne_nil hne
  rw [reduceName, splitComponents_join hws, nil_append] at h
  dsimp only at h
  split at h
  · cases h
  · obtain ⟨res, hres, h⟩ := Option.map_eq_some_iff.1 h
    cases res with
    | error e => cases h
    | ok array =>
      have hred := removeComponents_reduced hres
      dsimp only at h
      refine ⟨entries array, ?_⟩
      cases hleft : entries array with
      | nil =>
        rw [hleft, if_pos rfl] at h
        exact ⟨[[], []], hleft ▸ hred, by rw [← Except.ok.inj h]; rfl, by simpa using Word.nil, Iff.rfl⟩
      | cons v vs =>
        rw [hleft, if_neg (cons_ne_nil _ _), flatMap_separator] at h
        rw [hleft] at hred
        refine ⟨[] :: v :: vs, hred, (Except.ok.inj h).symm, forall_mem_cons.2 ⟨Word.nil, ?_⟩, leadsOut_null _⟩
        exact fun u hu => hws u (mem_of_reduced hred hu)

/-- A client name leads out of the share. With a "." or ".." component before the first colon, it is the components that
the reduction leaves that do. -/
def ClientName.LeadsOut (name : ClientName) : Prop :=
  if HasDots name.components then ∃ ws, reduced name.components = some ws ∧ Ntvfs.LeadsOut ws
  else Ntvfs.LeadsOut name.components

instance (name : ClientName) : Decidable name.LeadsOut :=
  have : Decidable (∃ ws, reduced name.components = some ws ∧ Ntvfs.LeadsOut ws) :=
    decidable_of_iff (∃ ws ∈ reduced name.components, Ntvfs.LeadsOut ws) Iff.rfl
  inferInstanceAs (Decidable (if HasDots name.components then _ else Ntvfs.LeadsOut name.components))

/-- The path that an accepted name is resolved to is inside the share unless the name leads out of it. -/
theorem resolvePath_inside_iff {pvfs : PvfsState} {fuel : Nat} {flags : ResolveFlags} {name : ClientName}
    {r : PvfsFilename} (h : resolvePath pvfs fuel flags name.text = some (.ok r)) : Inside pvfs r ↔ ¬name.LeadsOut := by
  have hne : name.components ≠ [] := splitOn_ne_nil _ _
  rw [resolvePath, ← name.join_components] at h
  split at h
  · next herr =>
    have hdots : HasDots name.components := by
      rcases unixPath_join name.components_words (by rw [herr]; exact fun e he => (Except.error.inj he).symm) with
        ⟨hd, -⟩ | ⟨-, -, r', hr', -⟩
      · exact (hasDots_dropWhile _).1 hd
      · rw [herr] at hr'
        cases hr'
    obtain ⟨res, hres, h⟩ := Option.map_eq_some_iff.1 h
    cases res with
    | error e => cases h
    | ok cifsName =>
      obtain ⟨vs, us, hred, rfl, hwords, hout⟩ := reduceName_ok hne name.components_words hres
      dsimp only at h
      rcases unixPath_join hwords (by rw [h]; exact nofun) with ⟨-, herr'⟩ | ⟨hd, hs, r', hr', hfull⟩
      · rw [h] at herr'
        cases herr'
      · obtain rfl := Except.ok.inj (h.symm.trans hr')
        rw [inside_iff hd hs hfull, hout, ClientName.LeadsOut, if_pos hdots]
        exact not_congr ⟨fun h => ⟨vs, hred, h⟩, fun ⟨vs', hred', h⟩ => Option.some.inj (hred.symm.trans hred') ▸ h⟩
  · have h := Option.some.inj h
    rcases unixPath_join name.components_words (by rw [h]; exact nofun) with ⟨-, herr⟩ | ⟨hd, hs, r', hr', hfull⟩
    · rw [h] at herr
      cases herr
    · obtain rfl := Except.ok.inj (h.symm.trans hr')
      rw [inside_iff hd hs hfull, ClientName.LeadsOut, if_neg fun h => hd ((hasDots_dropWhile _).2 h)]

/-- A share of a file system that has named streams. -/
def streamsShare : PvfsState where
  baseDirectory := text "/data"
  namedStreams := true
  nameHash := fun _ _ => 0
  upcaseTable := id

/-- A stream of the directory above the share. -/
def parentStream : ClientName := ⟨"..:x".toList.map Char.toNat, by decide⟩

/-- The colon behind the dots is none of the characters that end a ".." component, and it cuts the path off there. -/
theorem resolvePath_parentStream : ∃ r, resolvePath streamsShare 1 ⟨false, true⟩ parentStream.text = some (.ok r) ∧
    r.fullName = text "/data/.." := by
  have htext : parentStream.text = [chr '.', chr '.', chr ':', chr 'x'] := by decide
  have hdot : chr '.' = UInt8.ofNat 0x2E := rfl
  have hcolon : chr ':' = UInt8.ofNat 0x3A := rfl
  refine ⟨⟨text "..:x", text "/data/..", some (text "x"), 0, false⟩, ?_, rfl⟩
  have hpath : unixPath streamsShare ⟨false, true⟩ parentStream.text =
      .ok ⟨text "..:x", text "/data/..", some (text "x"), 0, false⟩ := by
    rw [htext, unixPath, show List.dropWhile (fun b => decide (b = chr '\\')) [chr '.', chr '.', chr ':', chr 'x'] =
      [chr '.', chr '.', chr ':', chr 'x'] by decide, if_neg (cons_ne_nil _ _)]
    rw [hdot, unixPathFrom_ascii (by decide) (by decide), ← hdot, pathChar_dot]
    rw [show dotComponent [] [chr '.', chr ':', chr 'x'] = false by decide]
    rw [if_neg (by decide)]
    dsimp only
    rw [hdot, unixPathFrom_ascii (by decide) (by decide), ← hdot, pathChar_dot]
    rw [show dotComponent ([] ++ [chr '.']) [chr ':', chr 'x'] = false by decide]
    rw [if_neg (by decide)]
    dsimp only
    rw [hcolon, unixPathFrom_ascii (by decide) (by decide)]
    decide
  rw [resolvePath]
  dsimp only
  rw [show (⟨false, true && streamsShare.namedStreams⟩ : ResolveFlags) = ⟨false, true⟩ from rfl, hpath]

/-- A name that goes into a directory and back. -/
def backAgain : ClientName := ⟨"\\a\\..\\b".toList.map Char.toNat, by decide⟩

/-- It is refused at first, and accepted without the part that goes back. -/
theorem resolvePath_backAgain : ∃ r, resolvePath streamsShare 6 ⟨false, true⟩ backAgain.text = some (.ok r) ∧
    r.fullName = text "/data/b" := by
  have hfirst : unixPath streamsShare ⟨false, true⟩ backAgain.text = .error .objectPathSyntaxBad := by
    rw [unixPath, show backAgain.text.dropWhile (fun b => decide (b = chr '\\')) = text "a\\..\\b" by decide,
      if_neg (by decide)]
    show unixPathFrom _ _ _ (chr 'a' :: chr '\\' :: chr '.' :: text ".\\b") _ = _
    rw [unixPathFrom_byte (by decide) rfl, unixPathFrom_byte (by decide) rfl, unixPathFrom_error (by decide) rfl]
  have hcomponents : backAgain.components = [[], text "a", text "..", text "b"] := by decide
  have hsplit : splitComponents [] backAgain.text = [[], text "a", text "..", text "b"] := by
    have hwords := backAgain.components_words
    have hjoin := backAgain.join_components
    rw [hcomponents] at hwords hjoin
    rw [← hjoin, splitComponents_join hwords, nil_append]
  have hreduce : reduceName 6 ⟨false, true⟩ backAgain.text = some (.ok (text "\\b")) := by
    rw [reduceName, hsplit]
    decide
  have hsecond : unixPath streamsShare ⟨false, true⟩ (text "\\b") =
      .ok ⟨text "\\b", text "/data/b", none, 0, false⟩ := by
    rw [unixPath, show (text "\\b").dropWhile (fun b => decide (b = chr '\\')) = [chr 'b'] by decide, if_neg (by decide)]
    rw [unixPathFrom_byte (by decide) rfl, unixPathFrom]
    rfl
  refine ⟨⟨text "\\b", text "/data/b", none, 0, false⟩, ?_, rfl⟩
  rw [resolvePath]
  dsimp only
  rw [show (⟨false, true && streamsShare.namedStreams⟩ : ResolveFlags) = ⟨false, true⟩ from rfl, hfirst]
  dsimp only
  rw [hreduce]
  exact congrArg some hsecond

theorem resolvePath_inside_sample :
    (∃ r, resolvePath streamsShare 1 ⟨false, true⟩ parentStream.text = some (.ok r) ∧ ¬Inside streamsShare r) ∧
      ∃ r, resolvePath streamsShare 6 ⟨false, true⟩ backAgain.text = some (.ok r) ∧ Inside streamsShare r := by
  obtain ⟨r, h, -⟩ := resolvePath_parentStream
  obtain ⟨r', h', -⟩ := resolvePath_backAgain
  have hout : parentStream.LeadsOut := by decide
  have hin : ¬backAgain.LeadsOut := by decide
  exact ⟨⟨r, h, fun hinside => (resolvePath_inside_iff h).mp hinside hout⟩, r', h', (resolvePath_inside_iff h').mpr hin⟩

/-- An accepted name whose path is the directory above the share. -/
theorem parentStream_outside : ¬∀ (pvfs : PvfsState) (fuel : Nat) (flags : ResolveFlags) (name : ClientName)
    (r : PvfsFilename), resolvePath pvfs fuel flags name.text = some (.ok r) → Inside pvfs r := by
  intro hall
  obtain ⟨r, h, hfull⟩ := resolvePath_parentStream
  obtain ⟨path, hpath, hin⟩ := hall _ _ _ _ _ h
  rw [hfull] at hpath
  obtain rfl : [chr '.', chr '.'] = path := (List.cons.inj (@append_cancel_left _ (text "/data") _ _ hpath)).2
  exact hin.elim (by decide) fun h => h [chr '.', chr '.'] (by decide) (.inr rfl)

end Samba.Ntvfs
