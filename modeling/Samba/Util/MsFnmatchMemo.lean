/-
The `max_n` array of `ms_fnmatch_core`. An entry says that the search of its wildcard failed from some place on; it fails from
every later place then, so that the early returns answer what the recursion without the array answers. The array has an entry for
each byte that is a star or a '<', and the recursion uses one for each code point: with a wildcard that is encoded in two bytes it
runs over the end of the array.
-/
import Samba.Util.MsFnmatch

open Search

namespace Samba.Util

open CString Charset List Rounds

/-! ## Places -/

theorem length_rest_of_out {ε α β : Type} {l : Loop ε α β} {input : List α} {outLeft : Nat} (h : (l.run input outLeft).out ≠ []) :
    (l.run input outLeft).rest.length < input.length := by
  by_cases hmin : l.minIn ≤ input.length ∧ l.minOut ≤ outLeft
  · cases hr : l.round input outLeft with
    | error e => exact absurd (by rw [Loop.run_error hmin.1 hmin.2 hr]) h
    | ok res => exact Loop.length_rest_lt hmin.1 hmin.2 hr
  · exact absurd (by rw [Loop.run_stop hmin]) h

theorem nextCodepoint_pos (n : Text) : 0 < (nextCodepoint n).2 := by
  cases n with
  | nil => exact Nat.one_pos
  | cons c n =>
    unfold nextCodepoint
    dsimp only
    split
    · exact Nat.one_pos
    · rw [getConvHandle_unix_utf16]
      have hfirst : ∀ input room, smbIconv (.direct fun _ => utf8Pull.run) [] input room = utf8Pull.run input room :=
        fun _ _ => rfl
      dsimp only
      rw [hfirst]
      split
      · rw [hfirst]
        split
        · exact Nat.one_pos
        next hout =>
          have hle : (utf8Pull.run ((c :: n).take 5) 2).rest.length ≤ ((c :: n).take 5).length :=
            (Loop.rest_suffix _ _).length_le
          have := length_rest_of_out hout
          show 0 < _ - _
          omega
      next hout =>
        have := length_rest_of_out hout
        show 0 < _ - _
        omega

theorem length_nextChar_lt {n : Text} (h : n ≠ []) : (nextChar n).length < n.length := by
  have hpos := length_pos_iff.mpr h
  have := nextCodepoint_pos n
  rw [nextChar, length_drop]
  omega

theorem walkFrom_eq {fuel : Nat} {n : Text} (h : n.length ≤ fuel) : walkFrom fuel n = walk n := by
  have hgo : ∀ {k fuel fuel' : Nat} {n : Text}, n.length ≤ k → n.length ≤ fuel → n.length ≤ fuel' →
      walkFrom fuel n = walkFrom fuel' n := by
    intro k
    induction k with
    | zero =>
      intro fuel fuel' n hk _ _
      obtain rfl := length_eq_zero_iff.mp (Nat.le_zero.mp hk)
      cases fuel <;> cases fuel' <;> rfl
    | succ k ih =>
      intro fuel fuel' n hk h h'
      cases n with
      | nil => cases fuel <;> cases fuel' <;> rfl
      | cons c n =>
        have hlt := length_nextChar_lt (cons_ne_nil c n)
        rw [length_cons] at hk h h' hlt
        obtain ⟨fuel, rfl⟩ := Nat.exists_eq_succ_of_ne_zero (show fuel ≠ 0 by omega)
        obtain ⟨fuel', rfl⟩ := Nat.exists_eq_succ_of_ne_zero (show fuel' ≠ 0 by omega)
        exact congrArg ((c :: n) :: ·) (ih (by omega) (by omega) (by omega))
  exact hgo le_rfl h le_rfl

theorem walk_eq {n : Text} (h : n ≠ []) : walk n = n :: walk (nextChar n) := by
  obtain ⟨c, n, rfl⟩ := exists_cons_of_ne_nil h
  have hlt := length_nextChar_lt h
  rw [length_cons] at hlt
  exact congrArg ((c :: n) :: ·) (walkFrom_eq (by omega))

theorem walk_length {n : Text} : ∀ m ∈ walk n, m ≠ [] ∧ m.length ≤ n.length := by
  induction hk : n.length using Nat.strong_induction_on generalizing n with
  | _ k ih =>
    rcases eq_or_ne n [] with rfl | hne
    · exact nofun
    · have hlt := length_nextChar_lt hne
      rw [walk_eq hne]
      refine forall_mem_cons.mpr ⟨⟨hne, hk.le⟩, fun m hm => ?_⟩
      obtain ⟨hm, hle⟩ := ih _ (by omega) rfl m hm
      exact ⟨hm, by omega⟩

/-- The places of a string come one behind the other. -/
theorem walk_pairwise (n : Text) : (walk n).Pairwise fun a b => b.length < a.length := by
  induction hk : n.length using Nat.strong_induction_on generalizing n with
  | _ k ih =>
    rcases eq_or_ne n [] with rfl | hne
    · exact List.Pairwise.nil
    · have hlt := length_nextChar_lt hne
      rw [walk_eq hne]
      refine pairwise_cons.mpr ⟨fun m hm => ?_, ih _ (by omega) _ rfl⟩
      have := (walk_length m hm).2
      omega

/-- A place of a string, or its end. -/
def At (string n : Text) : Prop := ∃ l, walk string = l ++ walk n

theorem At.refl (string : Text) : At string string := ⟨[], rfl⟩

theorem At.end_ (string : Text) : At string [] := ⟨walk string, (append_nil _).symm⟩

section At

variable {string m n : Text}

theorem At.next (h : At string n) : At string (nextChar n) := by
  obtain ⟨l, hl⟩ := h
  rcases eq_or_ne n [] with rfl | hne
  · exact At.end_ string
  · exact ⟨l ++ [n], by rw [hl, walk_eq hne, append_assoc]; rfl⟩

theorem At.of_walk (h : At string n) : ∀ m ∈ walk n, At string m := by
  induction hk : n.length using Nat.strong_induction_on generalizing n with
  | _ k ih =>
    rcases eq_or_ne n [] with rfl | hne
    · exact nofun
    · have hlt := length_nextChar_lt hne
      rw [walk_eq hne]
      exact forall_mem_cons.mpr ⟨h, ih _ (by omega) h.next rfl⟩

/-- Of two places of one string, the later one is behind the other, by places that are longer. -/
theorem At.later (hm : At string m) (hn : At string n) (hle : n.length ≤ m.length) :
    ∃ l, walk m = l ++ walk n ∧ ∀ x ∈ l, n.length < x.length := by
  have hlonger : ∀ {l : List Text}, walk m = l ++ walk n → ∀ x ∈ l, n.length < x.length := by
    intro l hl x hx
    rcases eq_or_ne n [] with rfl | hne
    · exact length_pos_iff.mpr (walk_length x (hl ▸ mem_append_left _ hx)).1
    · have hpair := walk_pairwise m
      rw [hl] at hpair
      exact (pairwise_append.mp hpair).2.2 x hx n (by rw [walk_eq hne]; exact mem_cons_self)
  obtain ⟨l₁, h₁⟩ := hm
  obtain ⟨l₂, h₂⟩ := hn
  rcases append_eq_append_iff.mp (h₁.symm.trans h₂) with ⟨l, -, hl⟩ | ⟨l, -, hl⟩
  · exact ⟨l, hl, hlonger hl⟩
  · -- what is before the earlier place in the walk of the later one is nothing
    cases l with
    | nil => exact ⟨[], hl.symm, nofun⟩
    | cons x l =>
      have hne : n ≠ [] := fun hnil => by rw [hnil] at hl; cases hl
      have hpair := walk_pairwise n
      rw [hl] at hpair
      have hx : x = n := by
        rw [walk_eq hne] at hl
        exact (List.cons.inj hl).1.symm
      rcases eq_or_ne m [] with rfl | hm
      · exact absurd (length_eq_zero_iff.mp (Nat.le_zero.mp hle)) hne
      · have := (pairwise_append.mp hpair).2.2 x mem_cons_self m (by rw [walk_eq hm]; exact mem_cons_self)
        rw [hx] at this
        omega

end At

section CaseTables

variable {upcaseTable : Nat → Nat} {ldot : Option Text} {string : Text}

/-! ## The recursion without the array -/

/-- The result of a wildcard. -/
def wildResult (p : Text) : Outcome → Int
  | .found => 0
  | .stopped => -1
  | .exhausted => nullMatch p

/-- The recursion without the array, with room for a number of wildcards that stand behind each other. -/
def roomCore (upcaseTable : Nat → Nat) (ldot : Option Text) : List PatternChar → Nat → Text → Except FnError Int
  | [], _, n => .ok (if n = [] then 0 else -1)
  | ⟨c, p⟩ :: ps, room, n =>
    match wildStop ldot c with
    | some stop =>
      match room with
      | 0 => .error .pastTable
      | room + 1 => (find (fun n => roomCore upcaseTable ldot ps room n) nextChar stop (walk n)).map (wildResult p)
    | none =>
      match matchChar upcaseTable c p n with
      | .error e => .error e
      | .ok (.done ret) => .ok ret
      | .ok (.next n) => roomCore upcaseTable ldot ps room n

/-- The wildcards that the recursion without the array comes to have room. -/
def Within (upcaseTable : Nat → Nat) (ldot : Option Text) : List PatternChar → Nat → Text → Prop
  | [], _, _ => True
  | ⟨c, p⟩ :: ps, room, n =>
    match wildStop ldot c with
    | some stop =>
      match room with
      | 0 => False
      | room + 1 => ∀ m ∈ tried (fun n => plainCore upcaseTable ldot ps n) nextChar stop (walk n),
          Within upcaseTable ldot ps room m
    | none =>
      match matchChar upcaseTable c p n with
      | .ok (.next n) => Within upcaseTable ldot ps room n
      | _ => True

theorem plainCore_wild {c : Option Nat} {p : Text} {ps : List PatternChar} {stop : Option Text}
    (hwild : wildStop ldot c = some stop) (n : Text) : plainCore upcaseTable ldot (⟨c, p⟩ :: ps) n =
      (find (fun n => plainCore upcaseTable ldot ps n) nextChar stop (walk n)).map (wildResult p) := by
  rw [plainCore, hwild]
  dsimp only
  generalize find (fun n => plainCore upcaseTable ldot ps n) nextChar stop (walk n) = found
  rcases found with _ | (_ | _ | _) <;> rfl

/-- Where there is room, the recursion is the one without the array; elsewhere it comes to a wildcard without room. -/
theorem roomCore_eq (ps : List PatternChar) : ∀ room n,
    (Within upcaseTable ldot ps room n → roomCore upcaseTable ldot ps room n = plainCore upcaseTable ldot ps n) ∧
      (¬Within upcaseTable ldot ps room n → roomCore upcaseTable ldot ps room n = .error .pastTable) := by
  induction ps with
  | nil => exact fun room n => ⟨fun _ => rfl, fun h => absurd trivial h⟩
  | cons q ps ih =>
    obtain ⟨c, p⟩ := q
    intro room n
    cases hwild : wildStop ldot c with
    | some stop =>
      rw [plainCore_wild hwild]
      unfold Within roomCore
      rw [hwild]
      cases room with
      | zero => exact ⟨False.elim, fun _ => rfl⟩
      | succ room =>
        dsimp only
        constructor
        · intro h
          rw [find_congr fun m hm => (ih room m).1 (h m hm)]
        · intro h
          push Not at h
          obtain ⟨m, hm, hnot⟩ := h
          have hsame : ∀ m, roomCore upcaseTable ldot ps room m = plainCore upcaseTable ldot ps m ∨
              roomCore upcaseTable ldot ps room m = .error .pastTable := fun m =>
            (Classical.em (Within upcaseTable ldot ps room m)).imp (ih room m).1 (ih room m).2
          rw [find_error hsame ⟨m, hm, (ih room m).2 hnot⟩]
          rfl
    | none =>
      unfold Within roomCore plainCore
      rw [hwild]
      dsimp only
      cases matchChar upcaseTable c p n with
      | error e => exact ⟨fun _ => rfl, fun h => absurd trivial h⟩
      | ok step =>
        cases step with
        | done ret => exact ⟨fun _ => rfl, fun h => absurd trivial h⟩
        | next n => exact ih room n

/-! ## The array -/

/-- An entry is right for the search of its wildcard: it failed from `predot` up to the end, and from `postdot` up to the last
dot. -/
structure EntryOk (string : Text) (core : Text → Except FnError Int) (stop : Option Text) (e : MaxN) : Prop where
  predot : ∀ m, e.predot = some m → At string m ∧ find core nextChar stop (walk m) = .ok .exhausted
  postdot : ∀ m, e.postdot = some m → At string m ∧ find core nextChar stop (walk m) = .ok .stopped

/-- The entries are right for the wildcards of a pattern. -/
def TableOk (upcaseTable : Nat → Nat) (ldot : Option Text) (string : Text) : List PatternChar → List MaxN → Prop
  | [], _ => True
  | ⟨c, _⟩ :: ps, maxN =>
    match wildStop ldot c with
    | some stop =>
      match maxN with
      | [] => True
      | e :: maxN => EntryOk string (roomCore upcaseTable ldot ps maxN.length) stop e ∧ TableOk upcaseTable ldot string ps maxN
    | none => TableOk upcaseTable ldot string ps maxN

section TableOk

variable {c : Option Nat} {p : Text} {ps : List PatternChar} {maxN : List MaxN} {stop : Option Text} {e : MaxN}

theorem tableOk_char (hwild : wildStop ldot c = none) :
    TableOk upcaseTable ldot string (⟨c, p⟩ :: ps) maxN ↔ TableOk upcaseTable ldot string ps maxN := by
  rw [TableOk, hwild]

theorem tableOk_wild (hwild : wildStop ldot c = some stop) :
    TableOk upcaseTable ldot string (⟨c, p⟩ :: ps) (e :: maxN) ↔
      EntryOk string (roomCore upcaseTable ldot ps maxN.length) stop e ∧ TableOk upcaseTable ldot string ps maxN := by
  rw [TableOk, hwild]

end TableOk

theorem tableOk_fresh (ps : List PatternChar) : ∀ count,
    TableOk upcaseTable ldot string ps (List.replicate count ⟨none, none⟩) := by
  induction ps with
  | nil => exact fun _ => trivial
  | cons q ps ih =>
    intro count
    unfold TableOk
    cases wildStop ldot q.c with
    | none => exact ih count
    | some stop =>
      cases count with
      | zero => exact trivial
      | succ count => exact ⟨⟨nofun, nofun⟩, ih count⟩

section EntryOk

variable {core : Text → Except FnError Int} {stop : Option Text} {e : MaxN} {n : Text}

theorem atOrBefore_iff {m : Option Text} : atOrBefore m n = true ↔ ∃ m', m = some m' ∧ n.length ≤ m'.length := by
  cases m <;> simp [atOrBefore]

/-- Behind `predot` the search fails up to the end. -/
theorem EntryOk.exhausted (h : EntryOk string core stop e) (hn : At string n) (hpredot : atOrBefore e.predot n = true) :
    find core nextChar stop (walk n) = .ok .exhausted := by
  obtain ⟨m, hm, hle⟩ := atOrBefore_iff.mp hpredot
  obtain ⟨hat, hfind⟩ := h.predot m hm
  obtain ⟨l, hl, -⟩ := hat.later hn hle
  rw [hl] at hfind
  exact find_exhausted_append hfind

/-- Behind `postdot` and not behind the last dot, the search fails up to the last dot. -/
theorem EntryOk.stopped (h : EntryOk string core stop e) (hn : At string n) (hpostdot : atOrBefore e.postdot n = true)
    (hstop : (stop.any fun d => d.length ≤ n.length) = true) : find core nextChar stop (walk n) = .ok .stopped := by
  obtain ⟨m, hm, hle⟩ := atOrBefore_iff.mp hpostdot
  obtain ⟨hat, hfind⟩ := h.postdot m hm
  obtain ⟨l, hl, hlonger⟩ := hat.later hn hle
  rw [hl] at hfind
  refine find_stopped_append (fun x hx heq => ?_) hfind
  have hlt := hlonger x hx
  rw [heq, Option.any_some, decide_eq_true_iff] at hstop
  omega

theorem earlier_cases {m : Option Text} {x : Text} (h : earlier m n = some x) : x = n ∨ m = some x := by
  unfold earlier at h
  cases m with
  | none => exact Or.inl (Option.some.inj h).symm
  | some m =>
    dsimp only at h
    split at h
    · exact Or.inl (Option.some.inj h).symm
    · exact Or.inr h

theorem EntryOk.setPredot (h : EntryOk string core stop e) (hn : At string n)
    (hfind : find core nextChar stop (walk n) = .ok .exhausted) :
    EntryOk string core stop { e with predot := earlier e.predot n } where
  predot m hm := by
    rcases earlier_cases hm with rfl | hm
    · exact ⟨hn, hfind⟩
    · exact h.predot m hm
  postdot := h.postdot

theorem EntryOk.setPostdot (h : EntryOk string core stop e) (hn : At string n)
    (hfind : find core nextChar stop (walk n) = .ok .stopped) :
    EntryOk string core stop { e with postdot := earlier e.postdot n } where
  predot := h.predot
  postdot m hm := by
    rcases earlier_cases hm with rfl | hm
    · exact ⟨hn, hfind⟩
    · exact h.postdot m hm

end EntryOk

theorem matchChar_at {c : Option Nat} {p n n' : Text} (hn : At string n)
    (h : matchChar upcaseTable c p n = .ok (.next n')) : At string n' := by
  unfold matchChar at h
  dsimp only at h
  split at h
  · split at h
    · cases h
    · cases h
      exact hn.next
  · split at h
    · split at h
      · split at h
        · cases h
        · cases h
          exact hn
      · split at h
        · cases h
        · cases h
          exact hn.next
    · split at h
      · split at h
        · cases h
        · split at h
          · cases h
          · cases h
            exact hn.next
      · split at h
        · cases h
        · split at h
          · cases h
          · cases h
            exact hn.next

theorem matchChar_error {c : Option Nat} {p n : Text} {e : FnError} (h : matchChar upcaseTable c p n = .error e) :
    e = .pastString := by
  unfold matchChar at h
  dsimp only at h
  split at h
  · cases h
  · split at h
    · split at h <;> cases h
    · split at h
      · split at h <;> cases h
      · split at h
        · cases h
        · split at h
          · cases h
            rfl
          · cases h

/-- An array of a length whose entries are right. -/
def KeepsTable (upcaseTable : Nat → Nat) (ldot : Option Text) (string : Text) (ps : List PatternChar) (room : Nat)
    (maxN : List MaxN) : Prop :=
  maxN.length = room ∧ TableOk upcaseTable ldot string ps maxN

/-- With entries that are right, the recursion comes to what it comes to with room for as many wildcards, and leaves entries that
are right. -/
theorem msFnmatchCore_carries (ps : List PatternChar) : ∀ room n, At string n → ∀ maxN,
    KeepsTable upcaseTable ldot string ps room maxN →
      Carries (KeepsTable upcaseTable ldot string ps room) (msFnmatchCore upcaseTable ldot ps n maxN)
        (roomCore upcaseTable ldot ps room n) := by
  induction ps with
  | nil => exact fun room n _ maxN htable => ⟨maxN, rfl, htable⟩
  | cons q ps ih =>
    obtain ⟨c, p⟩ := q
    rintro room n hn maxN ⟨hlen, htable⟩
    unfold msFnmatchCore roomCore
    cases hwild : wildStop ldot c with
    | none =>
      have htable' := (tableOk_char hwild).mp htable
      dsimp only
      cases hstep : matchChar upcaseTable c p n with
      | error e => rfl
      | ok step =>
        cases step with
        | done ret => exact ⟨maxN, rfl, hlen, htable⟩
        | next n' =>
          exact (ih room n' (matchChar_at hn hstep) maxN ⟨hlen, htable'⟩).mono fun maxN' h =>
            ⟨h.1, (tableOk_char hwild).mpr h.2⟩
    | some stop =>
      dsimp only
      cases maxN with
      | nil =>
        subst hlen
        rfl
      | cons e maxN =>
        subst hlen
        obtain ⟨he, htable'⟩ := (tableOk_wild hwild).mp htable
        dsimp only [length_cons]
        by_cases hpredot : atOrBefore e.predot n = true
        · rw [if_pos hpredot, he.exhausted hn hpredot]
          exact ⟨_, rfl, rfl, htable⟩
        rw [if_neg hpredot]
        by_cases hpostdot : (atOrBefore e.postdot n && stop.any fun d => d.length ≤ n.length) = true
        · obtain ⟨hpost, hstop⟩ := Bool.and_eq_true_iff.mp hpostdot
          rw [if_pos hpostdot, he.stopped hn hpost hstop]
          exact ⟨_, rfl, rfl, htable⟩
        rw [if_neg hpostdot]
        have hsearch := @search_carries _ _ _ _ (fun n => roomCore upcaseTable ldot ps maxN.length n) nextChar stop
          (KeepsTable upcaseTable ldot string ps maxN.length) (At string)
          (fun n maxN => msFnmatchCore upcaseTable ldot ps n maxN) (ih maxN.length) (walk n)
          (fun m hm => ⟨hn.of_walk m hm, (hn.of_walk m hm).next⟩) maxN ⟨rfl, htable'⟩
        cases hfind : find (fun n => roomCore upcaseTable ldot ps maxN.length n) nextChar stop (walk n) with
        | error err =>
          rw [hfind] at hsearch
          rw [show search (fun n maxN => msFnmatchCore upcaseTable ldot ps n maxN) nextChar stop (walk n) maxN =
            .error err from hsearch]
          rfl
        | ok outcome =>
          rw [hfind] at hsearch
          obtain ⟨maxN', hsearch, hlen', hkeep⟩ := hsearch
          rw [hsearch]
          rw [← hlen'] at he hfind
          have hlen : ∀ e' : MaxN, (e' :: maxN').length = maxN.length + 1 := fun e' => congrArg (· + 1) hlen'
          cases outcome with
          | found => exact ⟨_, rfl, hlen _, (tableOk_wild hwild).mpr ⟨he, hkeep⟩⟩
          | stopped => exact ⟨_, rfl, hlen _, (tableOk_wild hwild).mpr ⟨he.setPostdot hn hfind, hkeep⟩⟩
          | exhausted => exact ⟨_, rfl, hlen _, (tableOk_wild hwild).mpr ⟨he.setPredot hn hfind, hkeep⟩⟩

/-! ## Whole names -/

/-- What the array brings: the recursion with room for as many wildcards as the array has entries. -/
theorem runCore_eq (pattern string : Text) : runCore upcaseTable pattern string =
    roomCore upcaseTable (lastDot string) (patternChars pattern) (wildcardCount pattern) string := by
  refine (msFnmatchCore_carries (patternChars pattern) _ string (At.refl string) _ ⟨?_, tableOk_fresh _ _⟩).map_fst
  exact length_replicate

/-- The recursion without the array uses no array. -/
theorem plainCore_ne_pastTable (ps : List PatternChar) : ∀ n, plainCore upcaseTable ldot ps n ≠ .error .pastTable := by
  induction ps with
  | nil => exact fun n => nofun
  | cons q ps ih =>
    obtain ⟨c, p⟩ := q
    intro n
    cases hwild : wildStop ldot c with
    | some stop =>
      rw [plainCore_wild hwild]
      cases hfind : find (fun n => plainCore upcaseTable ldot ps n) nextChar stop (walk n) with
      | ok outcome => exact nofun
      | error e =>
        obtain ⟨m, hm⟩ := exists_of_find_error hfind
        rintro heq
        cases heq
        exact ih m hm
    | none =>
      unfold plainCore
      rw [hwild]
      dsimp only
      cases hstep : matchChar upcaseTable c p n with
      | error e =>
        rintro heq
        cases heq
        exact absurd (matchChar_error hstep) (by decide)
      | ok step =>
        cases step with
        | done ret => exact nofun
        | next n' => exact ih n'

/-- The answers with and without the array are zero together. -/
def SameAnswer (upcaseTable : Nat → Nat) (pattern string : Text) : Prop :=
  (msFnmatch upcaseTable pattern string .nt1).map (fun ret => decide (ret = 0)) =
    (msFnmatchPlain upcaseTable pattern string .nt1).map fun ret => decide (ret = 0)

/-- The array changes no answer, if and only if the pattern is compared as a name or the wildcards that the recursion comes to
have an entry. -/
theorem msFnmatch_same_iff (upcaseTable : Nat → Nat) (pattern string : Text) :
    SameAnswer upcaseTable pattern string ↔ hasWildcard pattern = false ∨
      Within upcaseTable (lastDot (matchedString string)) (patternChars pattern) (wildcardCount pattern)
        (matchedString string) := by
  unfold SameAnswer msFnmatch msFnmatchPlain msFnmatchWith
  dsimp only
  by_cases hwild : hasWildcard pattern = false
  · rw [if_pos hwild, if_pos hwild]
    exact iff_of_true rfl (Or.inl hwild)
  rw [if_neg hwild, if_neg hwild, if_neg (by decide), if_neg (by decide), or_iff_right hwild, runCore_eq]
  unfold runPlain
  generalize matchedString string = string
  obtain ⟨hsame, hpast⟩ := @roomCore_eq upcaseTable (lastDot string) (patternChars pattern) (wildcardCount pattern) string
  constructor
  · intro heq
    by_contra hnot
    rw [hpast hnot] at heq
    cases hplain : plainCore upcaseTable (lastDot string) (patternChars pattern) string with
    | ok ret =>
      rw [hplain] at heq
      cases heq
    | error e =>
      rw [hplain] at heq
      cases heq
      exact plainCore_ne_pastTable _ _ hplain
  · intro hwithin
    rw [hsame hwithin]

/-- A star in two bytes has no entry. -/
theorem not_sameAnswer_wide : ¬SameAnswer (fun c => c) [0x3F, 0xC0, 0xAA] (text "a") := by
  intro h
  have hok := congrArg Except.isOk h
  revert hok
  decide +kernel

end CaseTables

end Samba.Util
