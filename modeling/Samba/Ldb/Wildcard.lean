/-
Substring filters (lib/ldb/common/ldb_match.c). `ldb_wildcard_compare` takes the first place of every chunk. For the last one
of a pattern that does not end with a wildcard it goes on from place to place, each behind the end of the one before it, to
reach the end of the value. A place at the end that overlaps the one before it is passed over, and a value that matches is
refused.
-/
import Samba.Lib.Glob
import Samba.Ldb.Match

namespace Samba.Ldb

open CString Glob List Option

/-! ## Searching -/

variable {s t : Text}

theorem strstr_eq_some {p : Nat} (h : strstr s t = some p) :
    ∃ x, x.length = p ∧ FirstAt t s x (s.drop (p + t.length)) := by
  induction s generalizing p with
  | nil =>
    rw [strstr] at h
    split at h
    · rename_i ht
      cases h
      subst ht
      exact ⟨[], rfl, rfl, fun _ _ _ => Nat.zero_le _⟩
    · cases h
  | cons c s ih =>
    rw [strstr] at h
    split at h
    · rename_i hpre
      cases h
      obtain ⟨y, hy⟩ := hpre
      refine ⟨[], rfl, ?_, fun _ _ _ => Nat.zero_le _⟩
      rw [← hy]
      simp
    · rename_i hpre
      obtain ⟨q, hq, rfl⟩ := map_eq_some_iff.mp h
      obtain ⟨x, rfl, heq, hfirst⟩ := ih hq
      refine ⟨c :: x, rfl, ?_, ?_⟩
      · rw [show x.length + 1 + t.length = x.length + t.length + 1 by omega, drop_succ_cons, cons_append,
          cons_append, ← heq]
      · intro x' rest' heq'
        cases x' with
        | nil => exact absurd ⟨rest', heq'.symm⟩ hpre
        | cons d x' =>
          rw [cons_append, cons_append] at heq'
          have := hfirst x' rest' (tail_eq_of_cons_eq heq')
          rw [length_cons, length_cons]
          omega

theorem strstr_eq_none_iff : strstr s t = none ↔ ¬ t <:+: s := by
  induction s with
  | nil =>
    rw [strstr, infix_nil]
    split <;> simp_all
  | cons c s ih =>
    rw [strstr, infix_cons_iff]
    split
    · rename_i hpre
      exact iff_of_false nofun fun h => h (Or.inl hpre)
    · rename_i hpre
      rw [map_eq_none_iff, ih, or_iff_right hpre]

theorem add_length_le_of_strstr {p : Nat} (h : strstr s t = some p) : p + t.length ≤ s.length := by
  obtain ⟨x, rfl, heq, _⟩ := strstr_eq_some h
  have hlen := congrArg List.length heq
  rw [length_append, length_append] at hlen
  omega

/-! ## The places of the chunks -/

/-- The chunks are found one behind the other, each at its first place, and `rest` is left. A chunk is looked for up to a NUL
in it, and passed over in its whole length. -/
inductive Scans : List Text → Text → Text → Prop
  | nil {s : Text} : Scans [] s s
  | cons {chunk s rest : Text} {chunks : List Text} {p : Nat} : strstr s (cstr chunk) = some p →
      p + chunk.length ≤ s.length → Scans chunks (s.drop (p + chunk.length)) rest → Scans (chunk :: chunks) s rest

/-- One of the chunks is not found behind those before it. -/
inductive Missing : List Text → Text → Prop
  | here {chunk s : Text} {chunks : List Text} : strstr s (cstr chunk) = none → Missing (chunk :: chunks) s
  | later {chunk s : Text} {chunks : List Text} {p : Nat} : strstr s (cstr chunk) = some p →
      p + chunk.length ≤ s.length → Missing chunks (s.drop (p + chunk.length)) → Missing (chunk :: chunks) s

/-- `rest` is left where a chunk is cut off with all in front of it, as long as it is found. -/
inductive LeftOver (chunk : Text) : Text → Text → Prop
  | none {s : Text} : strstr s (cstr chunk) = none → LeftOver chunk s s
  | cut {s rest : Text} {p : Nat} : strstr s (cstr chunk) = some p → p + chunk.length ≤ s.length →
      LeftOver chunk (s.drop (p + chunk.length)) rest → LeftOver chunk s rest

theorem zero_notMem_drop (h : (0 : UInt8) ∉ s) (n : Nat) : (0 : UInt8) ∉ s.drop n :=
  fun hm => h (mem_of_mem_drop hm)

section Loop

variable {schema : Syntaxes} {attr : Text} (hid : ∀ v, schema.canonicalise attr v = some v)
include hid

variable {chunk s : Text} {p : Nat}

theorem wildcardChunks_none {endWithWildcard : Bool} {chunks : List LdbVal} (hs : (0 : UInt8) ∉ s)
    (h : strstr s (cstr chunk) = none) :
    wildcardChunks schema attr endWithWildcard (LdbVal.ofText chunk :: chunks) s = some none := by
  rw [wildcardChunks, hid]
  simp only [LdbVal.ofText, cstr_eq_self hs, h]

/-- A chunk that is not the last one, or has a wildcard behind it. -/
theorem wildcardChunks_found {endWithWildcard : Bool} {chunks : List LdbVal}
    (hs : (0 : UInt8) ∉ s) (hmore : chunks ≠ [] ∨ endWithWildcard = true) (h : strstr s (cstr chunk) = some p) :
    wildcardChunks schema attr endWithWildcard (LdbVal.ofText chunk :: chunks) s =
      if p + chunk.length ≤ s.length then
        wildcardChunks schema attr endWithWildcard chunks (s.drop (p + chunk.length))
      else none := by
  have hlast : ¬(chunks = [] ∧ (!endWithWildcard) = true) := by
    rintro ⟨hc, he⟩
    rcases hmore with hn | hn
    · exact hn hc
    · rw [hn] at he
      cases he
  rw [wildcardChunks, hid]
  simp only [LdbVal.ofText, cstr_eq_self hs, h]
  rw [if_neg hlast]
  rfl

theorem wildcardChunks_last (hs : (0 : UInt8) ∉ s) (h : strstr s (cstr chunk) = some p) :
    wildcardChunks schema attr false [LdbVal.ofText chunk] s =
      (greedy s (LdbVal.ofText chunk) (s.length + 1) p).bind fun p =>
        if p + chunk.length ≤ s.length then some (some (s.drop (p + chunk.length))) else none := by
  rw [wildcardChunks, hid]
  simp only [LdbVal.ofText, cstr_eq_self hs, h]
  rw [if_pos ⟨trivial, by decide⟩]
  rfl

omit hid in
theorem greedy_succ (chunk s : Text) (fuel p : Nat) : greedy s (LdbVal.ofText chunk) (fuel + 1) p =
    if p + chunk.length ≤ s.length then
      match strstr (cstr (s.drop (p + chunk.length))) (cstr chunk) with
      | none => some p
      | some g => greedy s (LdbVal.ofText chunk) fuel (p + chunk.length + g)
    else none := rfl

omit hid in
/-- Going from place to place ends where no more of the chunk is found. -/
theorem greedy_leftOver (hs : (0 : UInt8) ∉ s) (hchunk : chunk ≠ []) {fuel : Nat}
    (hp : p + chunk.length ≤ s.length) (hfuel : s.length < fuel + p) (rest : Text) :
    ((greedy s (LdbVal.ofText chunk) fuel p).bind fun p =>
        if p + chunk.length ≤ s.length then some (some (s.drop (p + chunk.length))) else none) = some (some rest) ↔
      LeftOver chunk (s.drop (p + chunk.length)) rest := by
  have hpos : 0 < chunk.length := length_pos_of_ne_nil hchunk
  induction fuel generalizing p with
  | zero => omega
  | succ fuel ih =>
    have hcstr := cstr_eq_self (zero_notMem_drop hs (p + chunk.length))
    rw [greedy_succ, if_pos hp, hcstr]
    cases hfind : strstr (s.drop (p + chunk.length)) (cstr chunk) with
    | none =>
      simp only [bind_some]
      rw [if_pos hp, Option.some.injEq, Option.some.injEq]
      constructor
      · rintro rfl
        exact .none hfind
      · intro h
        cases h with
        | none => rfl
        | cut hsome => rw [hfind] at hsome; cases hsome
    | some g =>
      have hdrop : s.drop (p + chunk.length + g + chunk.length) =
          (s.drop (p + chunk.length)).drop (g + chunk.length) := by
        rw [drop_drop, Nat.add_assoc (p + chunk.length)]
      have hlen : (s.drop (p + chunk.length)).length = s.length - (p + chunk.length) := length_drop
      dsimp only
      by_cases hroom : p + chunk.length + g + chunk.length ≤ s.length
      · refine (ih hroom (by omega)).trans ?_
        rw [hdrop]
        constructor
        · exact fun h => .cut hfind (by omega) h
        · intro h
          cases h with
          | none hnone => rw [hfind] at hnone; cases hnone
          | cut hsome _ h =>
            rw [hfind] at hsome
            cases hsome
            exact h
      · have hnone : greedy s (LdbVal.ofText chunk) fuel (p + chunk.length + g) = none := by
          cases fuel with
          | zero => rfl
          | succ fuel => exact if_neg hroom
        rw [hnone]
        refine iff_of_false nofun fun h => ?_
        cases h with
        | none hnone => rw [hfind] at hnone; cases hnone
        | cut hsome hle =>
          rw [hfind] at hsome
          cases hsome
          omega

/-- The loop over the first chunks of a pattern. -/
theorem wildcardChunks_append {endWithWildcard : Bool} (chunks : List Text) {more : List LdbVal}
    (hmore : more ≠ [] ∨ endWithWildcard = true) {s : Text} (hs : (0 : UInt8) ∉ s) (r : Option (List UInt8)) :
    wildcardChunks schema attr endWithWildcard (chunks.map LdbVal.ofText ++ more) s = some r ↔
      (Missing chunks s ∧ r = none) ∨
        ∃ rest, Scans chunks s rest ∧ wildcardChunks schema attr endWithWildcard more rest = some r := by
  induction chunks generalizing s with
  | nil =>
    constructor
    · exact fun h => Or.inr ⟨s, .nil, h⟩
    · rintro (⟨h, _⟩ | ⟨rest, h, hr⟩)
      · cases h
      · cases h
        exact hr
  | cons chunk chunks ih =>
    have hmore' : chunks.map LdbVal.ofText ++ more ≠ [] ∨ endWithWildcard = true :=
      hmore.imp_left fun hn h => hn (append_eq_nil_iff.mp h).2
    rw [map_cons, cons_append]
    cases hfind : strstr s (cstr chunk) with
    | none =>
      rw [wildcardChunks_none hid hs hfind, Option.some.injEq]
      constructor
      · rintro rfl
        exact Or.inl ⟨.here hfind, rfl⟩
      · rintro (⟨_, rfl⟩ | ⟨rest, h, _⟩)
        · rfl
        · cases h with
          | cons hsome => rw [hfind] at hsome; cases hsome
    | some p =>
      rw [wildcardChunks_found hid hs hmore' hfind]
      by_cases hroom : p + chunk.length ≤ s.length
      · rw [if_pos hroom, ih (zero_notMem_drop hs _)]
        constructor
        · rintro (⟨h, rfl⟩ | ⟨rest, h, hr⟩)
          · exact Or.inl ⟨.later hfind hroom h, rfl⟩
          · exact Or.inr ⟨rest, .cons hfind hroom h, hr⟩
        · rintro (⟨h, rfl⟩ | ⟨rest, h, hr⟩)
          · cases h with
            | here hnone => rw [hfind] at hnone; cases hnone
            | later hsome _ h =>
              rw [hfind] at hsome
              cases hsome
              exact Or.inl ⟨h, rfl⟩
          · cases h with
            | cons hsome _ h =>
              rw [hfind] at hsome
              cases hsome
              exact Or.inr ⟨rest, h, hr⟩
      · rw [if_neg hroom]
        refine iff_of_false nofun ?_
        rintro (⟨h, _⟩ | ⟨rest, h, _⟩)
        · cases h with
          | here hnone => rw [hfind] at hnone; cases hnone
          | later hsome hle =>
            rw [hfind] at hsome
            cases hsome
            exact hroom hle
        · cases h with
          | cons hsome hle =>
            rw [hfind] at hsome
            cases hsome
            exact hroom hle

/-- The loop over the chunks, with a wildcard at the end of the pattern. -/
theorem wildcardChunks_open (chunks : List Text) (hs : (0 : UInt8) ∉ s) (r : Option (List UInt8)) :
    wildcardChunks schema attr true (chunks.map LdbVal.ofText) s = some r ↔
      (Missing chunks s ∧ r = none) ∨ ∃ rest, Scans chunks s rest ∧ r = some rest := by
  have h := @wildcardChunks_append schema attr hid true chunks [] (Or.inr rfl) s hs r
  rw [append_nil] at h
  rw [h]
  refine or_congr_right (exists_congr fun rest => and_congr_right fun _ => ?_)
  rw [wildcardChunks, Option.some.injEq]
  exact eq_comm

/-- The loop over the chunks, without a wildcard at the end. -/
theorem wildcardChunks_closed (chunks : List Text) {last : Text} (hlast : last ≠ []) (hs : (0 : UInt8) ∉ s)
    (r : Option (List UInt8)) :
    wildcardChunks schema attr false ((chunks ++ [last]).map LdbVal.ofText) s = some r ↔
      (Missing chunks s ∧ r = none) ∨ ∃ s', Scans chunks s s' ∧
        ((strstr s' (cstr last) = none ∧ r = none) ∨
          (strstr s' (cstr last) ≠ none ∧ ∃ rest, LeftOver last s' rest ∧ r = some rest)) := by
  rw [map_append, wildcardChunks_append hid chunks (Or.inl (by simp)) hs r]
  refine or_congr_right (exists_congr fun s' => and_congr_right fun hscan => ?_)
  have hs' : (0 : UInt8) ∉ s' := by
    clear r
    induction hscan with
    | nil => exact hs
    | cons _ _ _ ih => exact ih (zero_notMem_drop hs _)
  rw [map_singleton]
  cases hfind : strstr s' (cstr last) with
  | none =>
    rw [wildcardChunks_none hid hs' hfind, Option.some.injEq]
    simp [eq_comm]
  | some p =>
    rw [wildcardChunks_last hid hs' hfind]
    simp only [reduceCtorEq, false_and, false_or, ne_eq, not_false_eq_true, true_and]
    by_cases hroom : p + last.length ≤ s'.length
    · cases r with
      | none =>
        refine iff_of_false (fun h => ?_) nofun
        obtain ⟨q, _, hq⟩ := bind_eq_some_iff.mp h
        split at hq <;> cases hq
      | some rest =>
        rw [greedy_leftOver hs' hlast hroom (by omega) rest]
        simp only [Option.some.injEq, exists_eq_right']
        constructor
        · exact fun h => .cut hfind hroom h
        · intro h
          cases h with
          | none hnone => rw [hfind] at hnone; cases hnone
          | cut hsome _ h =>
            rw [hfind] at hsome
            cases hsome
            exact h
    · rw [show greedy s' (LdbVal.ofText last) (s'.length + 1) p = none from if_neg hroom]
      refine iff_of_false nofun ?_
      rintro ⟨rest, h, _⟩
      cases h with
      | none hnone => rw [hfind] at hnone; cases hnone
      | cut hsome hle =>
        rw [hfind] at hsome
        cases hsome
        exact hroom hle

end Loop

/-! ## Chunks without a NUL -/

variable {chunk rest s : Text} {chunks more : List Text}

/-- What is left of a value behind its last place where a chunk is cut off. -/
theorem LeftOver.suffix (h : LeftOver chunk s rest) : rest <:+ s := by
  induction h with
  | none => exact suffix_refl _
  | cut _ _ _ ih => exact ih.trans (drop_suffix _ _)

theorem exists_leftOver (h0 : (0 : UInt8) ∉ chunk) (hne : chunk ≠ []) (s : Text) : ∃ rest, LeftOver chunk s rest := by
  have hpos := length_pos_of_ne_nil hne
  induction hn : s.length using Nat.strong_induction_on generalizing s with
  | _ n ih =>
    cases hfind : strstr s (cstr chunk) with
    | none => exact ⟨s, .none hfind⟩
    | some p =>
      have hroom := add_length_le_of_strstr hfind
      rw [cstr_eq_self h0] at hroom
      obtain ⟨rest, hrest⟩ := ih (s.drop (p + chunk.length)).length (by rw [length_drop]; omega) _ rfl
      exact ⟨rest, .cut hfind hroom hrest⟩

/-- Where nothing is left, the value ends with the chunk. -/
theorem LeftOver.isSuffix (h0 : (0 : UInt8) ∉ chunk) (h : LeftOver chunk s []) (hne : s ≠ []) : chunk <:+ s := by
  generalize hnil : ([] : Text) = rest at h
  induction h with
  | none => exact absurd hnil.symm hne
  | @cut s rest p hfind _ _ ih =>
    subst hnil
    obtain ⟨x, rfl, heq, _⟩ := strstr_eq_some hfind
    rw [cstr_eq_self h0] at heq
    rcases eq_or_ne (s.drop (x.length + chunk.length)) [] with hnil | hne'
    · rw [hnil, append_nil] at heq
      exact ⟨x, heq.symm⟩
    · exact (ih hne' rfl).trans (drop_suffix _ _)

theorem LeftOver.unique {chunk s rest rest' : Text} (h : LeftOver chunk s rest) (h' : LeftOver chunk s rest') :
    rest' = rest := by
  induction h with
  | none hnone =>
    cases h' with
    | none => rfl
    | cut hfind => rw [hnone] at hfind; cases hfind
  | cut hfind _ _ ih =>
    cases h' with
    | none hnone => rw [hnone] at hfind; cases hfind
    | cut hfind' _ h' =>
      rw [hfind] at hfind'
      cases hfind'
      exact ih h'

theorem Scans.unique {chunks : List Text} {s rest rest' : Text} (h : Scans chunks s rest) (h' : Scans chunks s rest') :
    rest' = rest := by
  induction h with
  | nil =>
    cases h'
    rfl
  | cons hfind _ _ ih =>
    cases h' with
    | cons hfind' _ h' =>
      rw [hfind] at hfind'
      cases hfind'
      exact ih h'

theorem Scans.not_missing (h : Scans chunks s rest) : ¬ Missing chunks s := by
  induction h with
  | nil => exact nofun
  | cons hfind _ _ ih =>
    intro h'
    cases h' with
    | here hnone => rw [hnone] at hfind; cases hfind
    | later hfind' _ h' =>
      rw [hfind] at hfind'
      cases hfind'
      exact ih h'

theorem scans_or_missing (h0 : ∀ c ∈ chunks, (0 : UInt8) ∉ c) (s : Text) :
    Missing chunks s ∨ ∃ rest, Scans chunks s rest := by
  induction chunks generalizing s with
  | nil => exact Or.inr ⟨s, .nil⟩
  | cons chunk chunks ih =>
    cases hfind : strstr s (cstr chunk) with
    | none => exact Or.inl (.here hfind)
    | some p =>
      have hroom := add_length_le_of_strstr hfind
      rw [cstr_eq_self (h0 chunk mem_cons_self)] at hroom
      rcases ih (fun c hc => h0 c (mem_cons_of_mem _ hc)) (s.drop (p + chunk.length)) with h | ⟨rest, h⟩
      · exact Or.inl (.later hfind hroom h)
      · exact Or.inr ⟨rest, .cons hfind hroom h⟩

/-- The first places of the chunks do as well as any others. -/
theorem Scans.splits_iff {endOpen : Bool}
    (h0 : ∀ c ∈ chunks, (0 : UInt8) ∉ c) (hmore : more ≠ [] ∨ endOpen = true) (h : Scans chunks s rest) :
    Splits true endOpen (chunks ++ more) s ↔ Splits true endOpen more rest := by
  induction h with
  | nil => exact Iff.rfl
  | @cons chunk s rest chunks p hfind _ _ ih =>
    have hmore' : chunks ++ more ≠ [] ∨ endOpen = true :=
      hmore.imp_left fun hn h => hn (append_eq_nil_iff.mp h).2
    obtain ⟨x, rfl, hfirst⟩ := strstr_eq_some hfind
    rw [cstr_eq_self (h0 chunk mem_cons_self)] at hfirst
    rw [cons_append, splits_first hfirst hmore']
    exact ih fun c hc => h0 c (mem_cons_of_mem _ hc)

theorem Missing.not_splits {endOpen : Bool} (h0 : ∀ c ∈ chunks, (0 : UInt8) ∉ c)
    (hmore : more ≠ [] ∨ endOpen = true) (h : Missing chunks s) : ¬ Splits true endOpen (chunks ++ more) s := by
  induction h with
  | @here chunk s chunks hnone =>
    rw [cstr_eq_self (h0 chunk mem_cons_self), strstr_eq_none_iff] at hnone
    exact fun h => hnone (h.isInfix (by simp))
  | @later chunk s chunks p hfind _ _ ih =>
    have hmore' : chunks ++ more ≠ [] ∨ endOpen = true :=
      hmore.imp_left fun hn h => hn (append_eq_nil_iff.mp h).2
    obtain ⟨x, rfl, hfirst⟩ := strstr_eq_some hfind
    rw [cstr_eq_self (h0 chunk mem_cons_self)] at hfirst
    rw [cons_append, splits_first hfirst hmore']
    exact ih fun c hc => h0 c (mem_cons_of_mem _ hc)

/-! ## The comparison -/

/-- What is left to be found, and where: without a wildcard at the start the value has to start with the first chunk. -/
def Opens (startWithWildcard : Bool) (chunks : List Text) (value : Text) (more : List Text) (s : Text) : Prop :=
  if startWithWildcard then more = chunks ∧ s = value else ∃ chunk, chunks = chunk :: more ∧ value = chunk ++ s

theorem splits_iff_opens {startWithWildcard endWithWildcard : Bool} {value : Text}
    (hne : chunks ≠ []) : Splits startWithWildcard endWithWildcard chunks value ↔
      ∃ more s, Opens startWithWildcard chunks value more s ∧ Splits true endWithWildcard more s := by
  unfold Opens
  cases startWithWildcard with
  | true => simp
  | false =>
    obtain ⟨chunk, chunks, rfl⟩ := exists_cons_of_ne_nil hne
    rw [splits_cons]
    constructor
    · rintro ⟨x, s, rfl, hx, hs⟩
      obtain rfl := hx rfl
      exact ⟨chunks, s, ⟨chunk, rfl, rfl⟩, hs⟩
    · rintro ⟨more, s, ⟨chunk', heq, rfl⟩, hs⟩
      cases heq
      exact ⟨[], s, rfl, fun _ => rfl, hs⟩

theorem Opens.unique {startWithWildcard : Bool} {chunks more more' : List Text} {value s s' : Text}
    (h : Opens startWithWildcard chunks value more s) (h' : Opens startWithWildcard chunks value more' s') :
    more' = more ∧ s' = s := by
  unfold Opens at h h'
  cases startWithWildcard with
  | true => exact ⟨h'.1.trans h.1.symm, h'.2.trans h.2.symm⟩
  | false =>
    obtain ⟨chunk, rfl, rfl⟩ := h
    obtain ⟨chunk', heq, hv⟩ := h'
    cases heq
    exact ⟨rfl, (append_cancel_left hv).symm⟩

theorem Opens.parts {startWithWildcard : Bool} {value : Text} (h : Opens startWithWildcard chunks value more s) :
    s <:+ value ∧ ∃ first, chunks = first ++ more ∧ ∀ c ∈ first, c <:+: value := by
  unfold Opens at h
  cases startWithWildcard with
  | true =>
    obtain ⟨rfl, rfl⟩ := h
    exact ⟨suffix_refl _, [], rfl, nofun⟩
  | false =>
    obtain ⟨chunk, rfl, rfl⟩ := h
    refine ⟨suffix_append _ _, [chunk], rfl, fun c hc => ?_⟩
    rw [mem_singleton.mp hc]
    exact (prefix_append _ _).isInfix

/-- The value that is returned at the end. -/
def verdict (endWithWildcard : Bool) : Option (List UInt8) → Int
  | none => 0
  | some rest => if !endWithWildcard && cstr rest ≠ [] then 0 else 1

section Compare

variable {schema : Syntaxes} {attr : Text} (hid : ∀ v, schema.canonicalise attr v = some v)
include hid

variable {chunks : List Text} {s : Text}

theorem ldbWildcardCompare_opens {startWithWildcard endWithWildcard : Bool} {more : List Text} {value : Text}
    (h : Opens startWithWildcard chunks value more s) :
    ldbWildcardCompare schema attr startWithWildcard endWithWildcard (chunks.map LdbVal.ofText) (LdbVal.ofText value) =
      (wildcardChunks schema attr endWithWildcard (more.map LdbVal.ofText) s).map (verdict endWithWildcard) := by
  have hend : ∀ x : Option (Option (List UInt8)), (do
      match ← x with
      | none => return 0
      | some data => return if !endWithWildcard && cstr data ≠ [] then 0 else 1 : Option Int) =
        x.map (verdict endWithWildcard) := by
    intro x
    rcases x with _ | _ | data <;> rfl
  unfold Opens at h
  cases startWithWildcard with
  | true =>
    obtain ⟨rfl, rfl⟩ := h
    rw [ldbWildcardCompare, hid]
    exact hend _
  | false =>
    obtain ⟨chunk, rfl, rfl⟩ := h
    have hlen : ¬(LdbVal.ofText chunk).length > (LdbVal.ofText (chunk ++ s)).length := by
      show ¬chunk.length > (chunk ++ s).length
      rw [length_append]
      omega
    have hroom : (LdbVal.ofText chunk).length ≤ (LdbVal.ofText chunk).data.length ∧
        (LdbVal.ofText chunk).length ≤ (LdbVal.ofText (chunk ++ s)).data.length :=
      ⟨le_rfl, Nat.not_lt.mp hlen⟩
    have hsame : (LdbVal.ofText (chunk ++ s)).data.take (LdbVal.ofText chunk).length =
        (LdbVal.ofText chunk).data.take (LdbVal.ofText chunk).length := by
      show (chunk ++ s).take chunk.length = chunk.take chunk.length
      rw [take_left, take_length]
    have hdrop : (LdbVal.ofText (chunk ++ s)).data.drop (LdbVal.ofText chunk).length = s := drop_left
    rw [ldbWildcardCompare, hid]
    simp only [map_cons, hid, Bool.false_eq_true, if_false]
    rw [if_neg hlen, if_pos hroom, if_pos hsame, hdrop]
    exact hend _

/-- The value does not start with the first chunk. -/
theorem ldbWildcardCompare_closed {startWithWildcard endWithWildcard : Bool} {chunks : List Text} {value : Text}
    (hne : chunks ≠ []) (h : ¬∃ more s, Opens startWithWildcard chunks value more s) :
    ldbWildcardCompare schema attr startWithWildcard endWithWildcard (chunks.map LdbVal.ofText) (LdbVal.ofText value) =
      some 0 := by
  cases startWithWildcard with
  | true => exact absurd ⟨chunks, value, rfl, rfl⟩ h
  | false =>
    obtain ⟨chunk, chunks, rfl⟩ := exists_cons_of_ne_nil hne
    rw [ldbWildcardCompare, hid]
    simp only [map_cons, hid, Bool.false_eq_true, if_false]
    by_cases hlen : (LdbVal.ofText chunk).length > (LdbVal.ofText value).length
    · rw [if_pos hlen]
      rfl
    · have hle : chunk.length ≤ value.length := Nat.not_lt.mp hlen
      have hroom : (LdbVal.ofText chunk).length ≤ (LdbVal.ofText chunk).data.length ∧
          (LdbVal.ofText chunk).length ≤ (LdbVal.ofText value).data.length := ⟨le_rfl, hle⟩
      have hdiff : ¬(LdbVal.ofText value).data.take (LdbVal.ofText chunk).length =
          (LdbVal.ofText chunk).data.take (LdbVal.ofText chunk).length := by
        intro heq
        have heq' : value.take chunk.length = chunk.take chunk.length := heq
        rw [take_length] at heq'
        refine h ⟨chunks, value.drop chunk.length, chunk, rfl, ?_⟩
        conv_lhs => rw [← take_append_drop chunk.length value, heq']
      rw [if_neg hlen, if_pos hroom, if_neg hdiff]
      rfl

/-- What the comparison answers: 1 for a value that is split by the chunks, something else for the others. -/
def Answers (schema : Syntaxes) (attr : Text) (startWithWildcard endWithWildcard : Bool) (chunks : List Text)
    (value : Text) : Prop :=
  ∃ r, ldbWildcardCompare schema attr startWithWildcard endWithWildcard (chunks.map LdbVal.ofText) (LdbVal.ofText value) =
    some r ∧ (r = 1 ↔ Splits startWithWildcard endWithWildcard chunks value)

/-- If the last chunk can end the value, the places one behind the other lead there. -/
def EndReached (chunks : List Text) (s : Text) : Prop :=
  ∀ init last s' rest, chunks = init ++ [last] → Scans init s s' → last <:+ s' → LeftOver last s' rest → rest = []

/-- The search fails: at a chunk, or at the end of the value. -/
def SearchFails (endWithWildcard : Bool) (chunks : List Text) (s : Text) : Prop :=
  Missing chunks s ∨ (endWithWildcard = false ∧
    ∃ init last s' rest, chunks = init ++ [last] ∧ Scans init s s' ∧ LeftOver last s' rest ∧ rest ≠ [])

omit hid in
theorem Scans.suffix {rest : Text} (h : Scans chunks s rest) : rest <:+ s := by
  induction h with
  | nil => exact suffix_refl _
  | cons _ _ _ ih => exact ih.trans (drop_suffix _ _)

omit hid in
theorem missing_snoc {last : Text} : Missing (chunks ++ [last]) s ↔
    Missing chunks s ∨ ∃ s', Scans chunks s s' ∧ strstr s' (cstr last) = none := by
  constructor
  · intro h
    induction chunks generalizing s with
    | nil =>
      cases h with
      | here hnone => exact Or.inr ⟨s, .nil, hnone⟩
      | later _ _ h => cases h
    | cons chunk chunks ih =>
      rw [cons_append] at h
      cases h with
      | here hnone => exact Or.inl (.here hnone)
      | later hfind hroom h =>
        rcases ih h with h | ⟨s', hscan, hnone⟩
        · exact Or.inl (.later hfind hroom h)
        · exact Or.inr ⟨s', .cons hfind hroom hscan, hnone⟩
  · rintro (h | ⟨s', hscan, hnone⟩)
    · induction h with
      | here hnone => exact .here hnone
      | later hfind hroom _ ih => exact .later hfind hroom ih
    · induction hscan with
      | nil => exact .here hnone
      | cons hfind hroom _ ih => exact .later hfind hroom (ih hnone)

omit hid in
theorem verdict_closed {rest : Text} (h0 : (0 : UInt8) ∉ rest) : verdict false (some rest) = if rest = [] then 1 else 0 := by
  simp only [verdict, cstr_eq_self h0]
  by_cases h : rest = [] <;> simp [h]

/-- With a wildcard at the end the answer is right. -/
theorem answers_open (hs : (0 : UInt8) ∉ s) (h0 : ∀ c ∈ chunks, (0 : UInt8) ∉ c) :
    ∃ r, (wildcardChunks schema attr true (chunks.map LdbVal.ofText) s).map (verdict true) = some r ∧
      (r = 1 ↔ Splits true true chunks s) := by
  rcases scans_or_missing h0 s with hmissing | ⟨rest, hscan⟩
  · refine ⟨0, ?_, iff_of_false (by decide) ?_⟩
    · rw [(wildcardChunks_open hid chunks hs none).mpr (Or.inl ⟨hmissing, rfl⟩)]
      rfl
    · have hnot : ¬ Splits true true (chunks ++ []) s := hmissing.not_splits h0 (Or.inr rfl)
      rwa [append_nil] at hnot
  · refine ⟨1, ?_, iff_of_true rfl ?_⟩
    · rw [(wildcardChunks_open hid chunks hs (some rest)).mpr (Or.inr ⟨rest, hscan, rfl⟩)]
      rfl
    · have hsplits : Splits true true (chunks ++ []) s ↔ Splits true true [] rest := hscan.splits_iff h0 (Or.inr rfl)
      rw [append_nil] at hsplits
      exact hsplits.mpr (splits_nil.mpr ⟨nofun, nofun⟩)

/-- Without one it is right where the places of the last chunk lead to the end. -/
theorem answers_closed_iff (hs : (0 : UInt8) ∉ s) (h0 : ∀ c ∈ chunks, (0 : UInt8) ∉ c) (hne : ∀ c ∈ chunks, c ≠ []) :
    (∃ r, (wildcardChunks schema attr false (chunks.map LdbVal.ofText) s).map (verdict false) = some r ∧
      (r = 1 ↔ Splits true false chunks s)) ↔ EndReached chunks s := by
  rcases eq_nil_or_concat chunks with rfl | ⟨init, last, rfl⟩
  · refine iff_of_true ⟨_, rfl, ?_⟩ ?_
    · rw [verdict_closed hs, splits_nil]
      by_cases h : s = [] <;> simp [h]
    · intro init last _ _ hnil
      simp at hnil
  rw [concat_eq_append] at h0 hne ⊢
  have h0last : (0 : UInt8) ∉ last := h0 last (by simp)
  have hlast : last ≠ [] := hne last (by simp)
  have h0init : ∀ c ∈ init, (0 : UInt8) ∉ c := fun c hc => h0 c (mem_append_left _ hc)
  have hmore : [last] ≠ [] ∨ false = true := Or.inl (by simp)
  have hloop := wildcardChunks_closed hid init hlast hs
  rcases scans_or_missing h0init s with hmissing | ⟨s', hscan⟩
  · refine iff_of_true ⟨0, ?_, iff_of_false (by decide) (hmissing.not_splits h0init hmore)⟩ ?_
    · rw [(hloop none).mpr (Or.inl ⟨hmissing, rfl⟩)]
      rfl
    · intro init' last' s' _ heq hscan
      obtain ⟨rfl, -⟩ := append_inj' heq rfl
      exact absurd hmissing hscan.not_missing
  · have hs' : (0 : UInt8) ∉ s' := fun hm => hs (hscan.suffix.subset hm)
    have hend : EndReached (init ++ [last]) s ↔ (last <:+ s' → ∀ rest, LeftOver last s' rest → rest = []) := by
      constructor
      · exact fun h hsuffix rest hrest => h init last s' rest rfl hscan hsuffix hrest
      · intro h init' last' s'' rest heq hscan' hsuffix hrest
        obtain ⟨rfl, hl⟩ := append_inj' heq rfl
        cases hl
        obtain rfl := hscan.unique hscan'
        exact h hsuffix rest hrest
    rw [hscan.splits_iff h0init hmore, splits_last, hend]
    cases hfind : strstr s' (cstr last) with
    | none =>
      have hnot : ¬ last <:+ s' := by
        rw [cstr_eq_self h0last, strstr_eq_none_iff] at hfind
        exact fun h => hfind h.isInfix
      refine iff_of_true ⟨0, ?_, iff_of_false (by decide) hnot⟩ fun h => absurd h hnot
      rw [(hloop none).mpr (Or.inr ⟨s', hscan, Or.inl ⟨hfind, rfl⟩⟩)]
      rfl
    | some p =>
      obtain ⟨rest, hrest⟩ := exists_leftOver h0last hlast s'
      have hrest0 : (0 : UInt8) ∉ rest := fun hm => hs' (hrest.suffix.subset hm)
      rw [(hloop (some rest)).mpr (Or.inr ⟨s', hscan, Or.inr ⟨by rw [hfind]; exact nofun, rest, hrest, rfl⟩⟩),
        map_some, verdict_closed hrest0]
      have hne' : s' ≠ [] := by
        rintro rfl
        have hroom := add_length_le_of_strstr hfind
        rw [cstr_eq_self h0last] at hroom
        exact hlast (length_eq_zero_iff.mp (Nat.le_zero.mp ((Nat.le_add_left _ _).trans hroom)))
      constructor
      · rintro ⟨r, hr, hsplits⟩ hsuffix rest' hrest'
        rw [hrest.unique hrest']
        rw [hsplits.mpr hsuffix, Option.some.injEq] at hr
        by_contra hn
        rw [if_neg hn] at hr
        cases hr
      · intro h
        refine ⟨_, rfl, fun hr => ?_, fun hsuffix => if_pos (h hsuffix rest hrest)⟩
        by_cases hn : rest = []
        · subst hn
          exact hrest.isSuffix h0last hne'
        · rw [if_neg hn] at hr
          cases hr

/-- With a NUL in a chunk the answer is right where the search fails. -/
theorem answers_zero_iff {endWithWildcard : Bool} (hs : (0 : UInt8) ∉ s)
    (h0 : ∃ c ∈ chunks, (0 : UInt8) ∈ c) (hne : ∀ c ∈ chunks, c ≠ []) :
    (∃ r, (wildcardChunks schema attr endWithWildcard (chunks.map LdbVal.ofText) s).map (verdict endWithWildcard) = some r ∧
      (r = 1 ↔ Splits true endWithWildcard chunks s)) ↔ SearchFails endWithWildcard chunks s := by
  obtain ⟨zero, hzero, hmem⟩ := h0
  have hnot : ¬ Splits true endWithWildcard chunks s := fun h => hs ((h.isInfix hzero).subset hmem)
  cases endWithWildcard with
  | true =>
    constructor
    · rintro ⟨r, hr, hsplits⟩
      obtain ⟨found, hloop, rfl⟩ := map_eq_some_iff.mp hr
      rcases (wildcardChunks_open hid chunks hs found).mp hloop with ⟨hmissing, _⟩ | ⟨rest, _, rfl⟩
      · exact Or.inl hmissing
      · exact absurd (hsplits.mp rfl) hnot
    · rintro (hmissing | ⟨he, _⟩)
      · refine ⟨0, ?_, iff_of_false (by decide) hnot⟩
        rw [(wildcardChunks_open hid chunks hs none).mpr (Or.inl ⟨hmissing, rfl⟩)]
        rfl
      · cases he
  | false =>
    obtain ⟨init, last, rfl⟩ : ∃ init last, chunks = init ++ [last] := by
      rcases eq_nil_or_concat chunks with rfl | ⟨init, last, rfl⟩
      · cases hzero
      · exact ⟨init, last, concat_eq_append⟩
    have hloop := wildcardChunks_closed hid init (hne last (by simp)) hs
    have hdone : ∀ {s' rest}, Scans init s s' → LeftOver last s' rest → (0 : UInt8) ∉ rest :=
      fun hscan hrest hm => hs ((hrest.suffix.trans hscan.suffix).subset hm)
    have hzeroAnswer : wildcardChunks schema attr false ((init ++ [last]).map LdbVal.ofText) s = some none →
        ∃ r, (wildcardChunks schema attr false ((init ++ [last]).map LdbVal.ofText) s).map (verdict false) = some r ∧
          (r = 1 ↔ Splits true false (init ++ [last]) s) := by
      intro h
      rw [h]
      exact ⟨0, rfl, iff_of_false (by decide) hnot⟩
    constructor
    · rintro ⟨r, hr, hsplits⟩
      obtain ⟨found, hfound, rfl⟩ := map_eq_some_iff.mp hr
      rcases (hloop found).mp hfound with ⟨hmissing, _⟩ | ⟨s', hscan, ⟨hnone, _⟩ | ⟨_, rest, hrest, rfl⟩⟩
      · exact Or.inl (missing_snoc.mpr (Or.inl hmissing))
      · exact Or.inl (missing_snoc.mpr (Or.inr ⟨s', hscan, hnone⟩))
      · refine Or.inr ⟨rfl, init, last, s', rest, rfl, hscan, hrest, fun hnil => hnot (hsplits.mp ?_)⟩
        rw [verdict_closed (hdone hscan hrest), if_pos hnil]
    · rintro (hmissing | ⟨_, init', last', s', rest, heq, hscan, hrest, hleft⟩)
      · rcases missing_snoc.mp hmissing with hmissing | ⟨s', hscan, hnone⟩
        · exact hzeroAnswer ((hloop none).mpr (Or.inl ⟨hmissing, rfl⟩))
        · exact hzeroAnswer ((hloop none).mpr (Or.inr ⟨s', hscan, Or.inl ⟨hnone, rfl⟩⟩))
      · obtain ⟨rfl, hl⟩ := append_inj' heq rfl
        cases hl
        by_cases hfind : strstr s' (cstr last) = none
        · exact hzeroAnswer ((hloop none).mpr (Or.inr ⟨s', hscan, Or.inl ⟨hfind, rfl⟩⟩))
        · rw [(hloop (some rest)).mpr (Or.inr ⟨s', hscan, Or.inr ⟨hfind, rest, hrest, rfl⟩⟩), map_some,
            verdict_closed (hdone hscan hrest), if_neg hleft]
          exact ⟨0, rfl, iff_of_false (by decide) hnot⟩

/-- The comparison answers 1 exactly for the values that are split by the chunks: where no chunk has a NUL in it and the
pattern ends with a wildcard, or the last chunk is not looked for past the end of the value; and where a chunk has a NUL in it
and the search fails. -/
theorem ldbWildcardCompare_iff (startWithWildcard endWithWildcard : Bool) {chunks : List Text} {value : Text}
    (hne : chunks ≠ []) (hchunks : ∀ c ∈ chunks, c ≠ []) (hv : (0 : UInt8) ∉ value) :
    Answers schema attr startWithWildcard endWithWildcard chunks value ↔
      ((∀ c ∈ chunks, (0 : UInt8) ∉ c) ∧ (endWithWildcard = true ∨
        ∀ more s, Opens startWithWildcard chunks value more s → EndReached more s)) ∨
      ((∃ c ∈ chunks, (0 : UInt8) ∈ c) ∧
        ∀ more s, Opens startWithWildcard chunks value more s → SearchFails endWithWildcard more s) := by
  by_cases hopen : ∃ more s, Opens startWithWildcard chunks value more s
  · obtain ⟨more, s, hopen⟩ := hopen
    have hforall : ∀ P : List Text → Text → Prop,
        (∀ more' s', Opens startWithWildcard chunks value more' s' → P more' s') ↔ P more s := by
      refine fun P => ⟨fun h => h more s hopen, fun h more' s' hopen' => ?_⟩
      obtain ⟨rfl, rfl⟩ := hopen.unique hopen'
      exact h
    obtain ⟨hsuffix, first, rfl, hfirst⟩ := hopen.parts
    have hs : (0 : UInt8) ∉ s := fun hm => hv (hsuffix.subset hm)
    have hfirst0 : ∀ c ∈ first, (0 : UInt8) ∉ c := fun c hc hm => hv ((hfirst c hc).subset hm)
    have hmore : ∀ c ∈ more, c ≠ [] := fun c hc => hchunks c (mem_append_right _ hc)
    have hsplits : Splits startWithWildcard endWithWildcard (first ++ more) value ↔ Splits true endWithWildcard more s := by
      rw [splits_iff_opens hne]
      constructor
      · rintro ⟨more', s', hopen', h⟩
        obtain ⟨rfl, rfl⟩ := hopen.unique hopen'
        exact h
      · exact fun h => ⟨more, s, hopen, h⟩
    unfold Answers
    rw [ldbWildcardCompare_opens hid hopen, hsplits, hforall EndReached, hforall (SearchFails endWithWildcard)]
    by_cases h0 : ∀ c ∈ first ++ more, (0 : UInt8) ∉ c
    · have hnot : ¬ ∃ c ∈ first ++ more, (0 : UInt8) ∈ c := fun ⟨c, hc, hm⟩ => h0 c hc hm
      have h0more : ∀ c ∈ more, (0 : UInt8) ∉ c := fun c hc => h0 c (mem_append_right _ hc)
      rw [or_iff_left fun h => hnot h.1, and_iff_right h0]
      cases endWithWildcard with
      | true => exact iff_of_true (answers_open hid hs h0more) (Or.inl rfl)
      | false =>
        rw [or_iff_right (by decide)]
        exact answers_closed_iff hid hs h0more hmore
    · push Not at h0
      obtain ⟨c, hc, hm⟩ := h0
      have hcmore : c ∈ more := (mem_append.mp hc).resolve_left fun hf => hfirst0 c hf hm
      rw [or_iff_right fun h => h.1 c hc hm, and_iff_right ⟨c, hc, hm⟩]
      exact answers_zero_iff hid hs ⟨c, hcmore, hm⟩ hmore
  · have hzero := @ldbWildcardCompare_closed _ _ hid startWithWildcard endWithWildcard chunks value hne hopen
    refine iff_of_true ⟨0, hzero, iff_of_false (by decide) fun h => ?_⟩ ?_
    · obtain ⟨more, s, hopens, -⟩ := (splits_iff_opens hne).mp h
      exact hopen ⟨more, s, hopens⟩
    · by_cases h0 : ∀ c ∈ chunks, (0 : UInt8) ∉ c
      · exact Or.inl ⟨h0, Or.inr fun more s h => absurd ⟨more, s, h⟩ hopen⟩
      · push Not at h0
        exact Or.inr ⟨h0, fun more s h => absurd ⟨more, s, h⟩ hopen⟩

end Compare

/-- Values are compared as they are. -/
def plainSyntaxes : Syntaxes := ⟨fun _ v => some v, fun _ _ _ => 0⟩

/-- `a*b*aa` matches `abbaaaa`: the last chunk is found twice behind the others, the second time at the end. -/
theorem ldbWildcardCompare_abbaaaa :
    Answers plainSyntaxes [] false false [[97], [98], [97, 97]] [97, 98, 98, 97, 97, 97, 97] := by
  refine (@ldbWildcardCompare_iff plainSyntaxes [] (fun _ => rfl) false false _ _ (by decide) (by decide) (by decide)).mpr
    (Or.inl ⟨by decide, Or.inr ?_⟩)
  rintro more s ⟨chunk, hchunks, hvalue⟩
  cases hchunks
  obtain rfl : [98, 98, 97, 97, 97, 97] = s := by simpa using hvalue
  intro init last s' rest heq hscan _ hleft
  obtain ⟨rfl, hlast⟩ := append_inj' (show [[98]] ++ [[97, 97]] = init ++ [last] from heq) rfl
  cases hlast
  cases hscan with
  | cons hp _ hrest =>
    obtain rfl := Option.some.inj ((show _ = some 0 by decide).symm.trans hp)
    cases hrest
    cases hleft with
    | none h => exact absurd h (by decide)
    | cut hp _ hleft =>
      obtain rfl := Option.some.inj ((show _ = some 1 by decide).symm.trans hp)
      cases hleft with
      | none h => exact absurd h (by decide)
      | cut hp _ hleft =>
        obtain rfl := Option.some.inj ((show _ = some 0 by decide).symm.trans hp)
        cases hleft with
        | none _ => rfl
        | cut hp _ _ => exact absurd ((show _ = none by decide).symm.trans hp) nofun

/-- `*aa` does not match `aaa`, where the second place of the chunk overlaps the first one. -/
theorem ldbWildcardCompare_aaa :
    ¬ ∀ (schema : Syntaxes) (attr : Text), (∀ v, schema.canonicalise attr v = some v) →
      ∀ (startWithWildcard endWithWildcard : Bool) (chunks : List Text) (value : Text), chunks ≠ [] →
        (∀ c ∈ chunks, c ≠ []) → (0 : UInt8) ∉ value →
        (chunks.length = 1 → startWithWildcard = true ∨ endWithWildcard = true) →
        Answers schema attr startWithWildcard endWithWildcard chunks value := by
  intro h
  obtain ⟨r, hr, hiff⟩ := h plainSyntaxes [] (fun _ => rfl) true false [[97, 97]] [97, 97, 97] (by decide) (by decide)
    (by decide) (fun _ => Or.inl rfl)
  have h0 : ldbWildcardCompare plainSyntaxes [] true false ([[97, 97]].map LdbVal.ofText) (LdbVal.ofText [97, 97, 97]) =
      some 0 := by decide
  rw [h0] at hr
  cases hr
  exact absurd (hiff.mpr (splits_last.mpr ⟨[97], rfl⟩)) (by decide)

end Samba.Ldb
