/-
The letters of flags in SDDL text: names that are put one after the other are told apart again where no name is the start of
another, and flags that are single bits are all there or missing.
-/
import Samba.Security.Sddl

namespace Samba.Security

open CString List

/-- The names of some flags, one after the other. -/
def namesOf (ms : List FlagMap) : Text := ms.flatMap FlagMap.name

/-- Some flags together. -/
def flagsOf (ms : List FlagMap) : BitVec 32 := ms.foldr (fun m flags => m.flag ||| flags) 0

theorem flagsOf_nil : flagsOf [] = 0#32 := rfl

theorem flagsOf_cons (m : FlagMap) (ms : List FlagMap) : flagsOf (m :: ms) = m.flag ||| flagsOf ms := rfl

/-- Names in upper case, none the start of another, for one bit each. -/
structure Legible (map : List FlagMap) : Prop where
  named : ∀ m ∈ map, m.name ≠ []
  upper : ∀ m ∈ map, ∀ c ∈ m.name, isUpper c = true
  free : ∀ m ∈ map, ∀ m' ∈ map, m'.name <+: m.name → m' = m
  bit : ∀ m ∈ map, ∃ k < 32, m.flag = BitVec.twoPow 32 k

-- `List.all` is evaluated over the characters that there are, not over every byte
theorem forall_chars {α : Type} {entries : List α} {text : α → Text} {p : UInt8 → Bool}
    (h : entries.all (fun e => (text e).all p) = true) : ∀ e ∈ entries, ∀ c ∈ text e, p c = true :=
  fun e he => all_eq_true.mp (all_eq_true.mp h e he)

theorem legible_maps : Legible aceFlags ∧ Legible aclFlags ∧ Legible aceAccessMask :=
  ⟨⟨by decide, forall_chars (by decide), by decide, by decide⟩,
    ⟨by decide, forall_chars (by decide), by decide, by decide⟩,
    ⟨by decide, forall_chars (by decide), by decide, by decide⟩⟩

theorem legible_aceFlags : Legible aceFlags := legible_maps.1

theorem legible_aclFlags : Legible aclFlags := legible_maps.2.1

theorem legible_aceAccessMask : Legible aceAccessMask := legible_maps.2.2

/-! ## Letters that are read -/

/-- The text does not start with a letter in upper case. -/
def StopsFlags (s : Text) : Prop := ∀ c ∈ s.head?, isUpper c = false

/-- Of keys none of which is the start of another, the one that a text starts with is found. -/
theorem find_start {α : Type} {key : α → Text} {entries : List α}
    (hfree : ∀ m ∈ entries, ∀ m' ∈ entries, key m' <+: key m → m' = m) {m : α} (hm : m ∈ entries) (s : Text) :
    entries.find? (fun m' => key m' <+: key m ++ s) = some m := by
  have hself : key m <+: key m ++ s := prefix_append _ _
  cases hfind : entries.find? fun m' => key m' <+: key m ++ s with
  | none => exact absurd (decide_eq_true hself) (List.find?_eq_none.mp hfind m hm)
  | some m' =>
    have hm' := mem_of_find?_eq_some hfind
    have hstart : key m' <+: key m ++ s := by simpa using List.find?_some hfind
    rcases Nat.le_total (key m').length (key m).length with hle | hle
    · rw [hfree m hm m' hm' (prefix_of_prefix_length_le hstart hself hle)]
    · rw [hfree m' hm' m hm (prefix_of_prefix_length_le hself hstart hle)]

/-- Names that are put one after the other are read one after the other. -/
theorem Legible.mapFlagsLoop_names {map : List FlagMap} (hmap : Legible map) {ms : List FlagMap} (hms : ∀ m ∈ ms, m ∈ map)
    {n : Nat} {rest : Text} {flags : BitVec 32} (hn : (namesOf ms ++ rest).length ≤ n) :
    ∃ n', rest.length ≤ n' ∧
      sddlMapFlagsLoop map n (namesOf ms ++ rest) flags = sddlMapFlagsLoop map n' rest (flags ||| flagsOf ms) := by
  induction ms generalizing n flags with
  | nil => exact ⟨n, hn, by rw [flagsOf_nil, BitVec.or_zero]; rfl⟩
  | cons m ms ih =>
    obtain ⟨hm, hms⟩ := forall_mem_cons.mp hms
    obtain ⟨c, name, hname⟩ := exists_cons_of_ne_nil (hmap.named m hm)
    have hc : isUpper c = true := hmap.upper m hm c (hname ▸ mem_cons_self)
    have htext : namesOf (m :: ms) ++ rest = m.name ++ (namesOf ms ++ rest) := by
      rw [namesOf, flatMap_cons, append_assoc, namesOf]
    have hfind := find_start hmap.free hm (namesOf ms ++ rest)
    have hdrop : (m.name ++ (namesOf ms ++ rest)).drop m.name.length = namesOf ms ++ rest := drop_left
    have hsome : m.name ++ (namesOf ms ++ rest) = c :: (name ++ (namesOf ms ++ rest)) := by rw [hname, cons_append]
    rw [htext, hsome] at hn ⊢
    rw [hsome] at hfind hdrop
    match n with
    | 0 => simp at hn
    | n + 1 =>
      have hlen : (namesOf ms ++ rest).length ≤ n := by
        simp only [length_cons, length_append] at hn ⊢
        omega
      obtain ⟨n', hn', hloop⟩ := @ih hms _ (flags ||| m.flag) hlen
      refine ⟨n', hn', ?_⟩
      rw [sddlMapFlagsLoop, hc, Bool.not_true, if_neg Bool.false_ne_true, hfind]
      dsimp only
      rw [hdrop, hloop, flagsOf_cons, BitVec.or_assoc]

variable {map : List FlagMap} {rest : Text} {a m x : BitVec 32}

theorem Legible.mapFlags_names (hmap : Legible map) {ms : List FlagMap} (hms : ∀ m ∈ ms, m ∈ map) (hrest : StopsFlags rest) : sddlMapFlags map (namesOf ms ++ rest) = some (flagsOf ms, rest) := by
  obtain ⟨n, hn, hloop⟩ := @Legible.mapFlagsLoop_names _ hmap _ hms _ _ 0 (Nat.le_refl (namesOf ms ++ rest).length)
  rw [sddlMapFlags, hloop, show (0 : BitVec 32) ||| flagsOf ms = flagsOf ms from BitVec.zero_or]
  match rest, n with
  | [], _ => rw [sddlMapFlagsLoop]
  | c :: rest, 0 => simp at hn
  | c :: rest, n + 1 =>
    have hc : isUpper c = false := hrest c rfl
    rw [sddlMapFlagsLoop, hc]
    rfl

/-- A letter that no name starts with is an error. -/
theorem Legible.mapFlags_names_none (hmap : Legible map) {ms : List FlagMap} (hms : ∀ m ∈ ms, m ∈ map)
    {c : UInt8} (hc : isUpper c = true) (hnone : ∀ m ∈ map, ¬ m.name <+: c :: rest) :
    sddlMapFlags map (namesOf ms ++ c :: rest) = none := by
  obtain ⟨n, hn, hloop⟩ := @Legible.mapFlagsLoop_names _ hmap _ hms _ _ 0 (Nat.le_refl (namesOf ms ++ c :: rest).length)
  have hfind : map.find? (fun m => m.name <+: c :: rest) = none := by
    rw [List.find?_eq_none]
    intro m hm
    simpa using hnone m hm
  rw [sddlMapFlags, hloop]
  match n with
  | 0 => simp at hn
  | n + 1 =>
    rw [sddlMapFlagsLoop, hc, Bool.not_true, if_neg Bool.false_ne_true, hfind]

/-- What holds of no flags, and with each flag of the map added, holds of the flags that are read. -/
theorem mapFlags_invariant {P : BitVec 32 → Prop} (h0 : P 0)
    (hstep : ∀ m ∈ map, ∀ flags, P flags → P (flags ||| m.flag)) {str : Text} {flags : BitVec 32}
    (h : sddlMapFlags map str = some (flags, rest)) : P flags := by
  have hloop : ∀ (n : Nat) (str : Text) (acc : BitVec 32), P acc → sddlMapFlagsLoop map n str acc = some (flags, rest) →
      P flags := by
    intro n
    induction n with
    | zero =>
      intro str acc hacc h
      match str with
      | [] =>
        cases h
        exact hacc
      | _ :: _ => cases h
    | succ n ih =>
      intro str acc hacc h
      match str with
      | [] =>
        cases h
        exact hacc
      | c :: str =>
        rw [sddlMapFlagsLoop] at h
        split at h
        · cases h
          exact hacc
        · split at h
          · cases h
          · rename_i m hm
            exact ih _ _ (hstep m (mem_of_find?_eq_some hm) acc hacc) h
  exact hloop _ _ 0 h0 h

/-! ## Letters that are written -/

theorem Legible.and_flag (hmap : Legible map) {m : FlagMap} (hm : m ∈ map) (flags : BitVec 32) :
    flags &&& m.flag = 0 ∨ flags &&& m.flag = m.flag := by
  obtain ⟨k, _, hk⟩ := hmap.bit m hm
  rw [hk, BitVec.and_twoPow]
  split
  · exact .inr rfl
  · exact .inl rfl

theorem and_or_of_and_eq (h : x &&& m = m) : m ||| (x &&& ~~~m &&& a) = x &&& (m ||| a) := by
  ext i hi
  have hbit := congrArg (fun b : BitVec 32 => b[i]) h
  simp only [BitVec.getElem_and, BitVec.getElem_or, BitVec.getElem_not] at hbit ⊢
  cases hx : x[i] <;> cases hm : m[i] <;> simp_all

theorem and_or_of_and_zero (h : x &&& m = 0) : x &&& a = x &&& (m ||| a) := by
  ext i hi
  have hbit := congrArg (fun b : BitVec 32 => b[i]) h
  simp only [BitVec.getElem_and, BitVec.getElem_or, BitVec.ofNat_eq_ofNat, BitVec.getElem_zero] at hbit ⊢
  cases hx : x[i] <;> cases hm : m[i] <;> simp_all

theorem and_not_or (x m a : BitVec 32) : x &&& ~~~m &&& ~~~a = x &&& ~~~(m ||| a) := by
  ext i hi
  simp only [BitVec.getElem_and, BitVec.getElem_or, BitVec.getElem_not]
  cases x[i] <;> cases m[i] <;> cases a[i] <;> rfl

theorem and_not_of_and_zero (h : x &&& m = 0) : x &&& ~~~a = x &&& ~~~(m ||| a) := by
  ext i hi
  have hbit := congrArg (fun b : BitVec 32 => b[i]) h
  simp only [BitVec.getElem_and, BitVec.getElem_or, BitVec.getElem_not, BitVec.ofNat_eq_ofNat, BitVec.getElem_zero] at hbit ⊢
  cases hx : x[i] <;> cases hm : m[i] <;> simp_all

/-- The names are those of the flags that the map has, and the flags that it does not have are left. -/
theorem Legible.flagsByBits (hmap : Legible map) (flags : BitVec 32) :
    ∃ ms, (∀ m ∈ ms, m ∈ map) ∧ flagsOf ms = flags &&& flagsOf map ∧
      sddlFlagsByBits map flags = (namesOf ms, flags &&& ~~~flagsOf map) := by
  have hbits : ∀ m ∈ map, ∀ flags, flags &&& m.flag = 0 ∨ flags &&& m.flag = m.flag := fun m hm => hmap.and_flag hm
  clear hmap
  induction map generalizing flags with
  | nil =>
    have hall : flags &&& ~~~flagsOf [] = flags := by
      rw [flagsOf_nil, BitVec.not_zero, BitVec.and_allOnes]
    exact ⟨[], by simp, by simp [flagsOf], by rw [hall]; rfl⟩
  | cons m map ih =>
    obtain ⟨hm, hbits⟩ := forall_mem_cons.mp hbits
    rw [sddlFlagsByBits, flagsOf_cons]
    by_cases hzero : flags &&& m.flag = 0
    · obtain ⟨ms, hms, hflags, hloop⟩ := ih flags hbits
      rw [if_neg (not_not.mpr hzero), hloop, ← and_or_of_and_zero hzero, ← and_not_of_and_zero hzero]
      exact ⟨ms, fun m hm => mem_cons_of_mem _ (hms m hm), hflags, rfl⟩
    · obtain ⟨ms, hms, hflags, hloop⟩ := ih (flags &&& ~~~m.flag) hbits
      rw [if_pos hzero, hloop, ← and_or_of_and_eq ((hm flags).resolve_left hzero), ← and_not_or]
      refine ⟨m :: ms, ?_, by rw [flagsOf_cons, hflags], rfl⟩
      rw [forall_mem_cons]
      exact ⟨mem_cons_self, fun m hm => mem_cons_of_mem _ (hms m hm)⟩

theorem and_flagsOf {m : FlagMap} (hm : m ∈ map) : m.flag &&& ~~~flagsOf map = 0 := by
  induction map with
  | nil => cases hm
  | cons m' map ih =>
    rw [flagsOf_cons, ← and_not_or]
    rcases mem_cons.mp hm with rfl | hm
    · rw [show m.flag &&& ~~~m.flag = 0 from BitVec.and_not_self _]
      exact BitVec.zero_and
    · have hleft := ih hm
      rw [BitVec.and_assoc, BitVec.and_comm (~~~m'.flag), ← BitVec.and_assoc, hleft]
      exact BitVec.zero_and

theorem and_eq_of_and_not (h : x &&& ~~~a = 0) : x &&& a = x := by
  ext i hi
  have hbit := congrArg (fun b : BitVec 32 => b[i]) h
  simp only [BitVec.getElem_and, BitVec.getElem_not, BitVec.ofNat_eq_ofNat, BitVec.getElem_zero] at hbit ⊢
  cases hx : x[i] <;> cases ha : a[i] <;> simp_all

/-- The letters of the flags that the map has, where these are asked for all of them. -/
theorem Legible.flagsToString (hmap : Legible map) (flags : BitVec 32) (checkAll : Bool) :
    ∃ ms, (∀ m ∈ ms, m ∈ map) ∧ flagsOf ms = flags &&& flagsOf map ∧
      sddlFlagsToString map flags checkAll =
        if checkAll = true ∧ flags &&& ~~~flagsOf map ≠ 0 then none else some (namesOf ms) := by
  rw [sddlFlagsToString]
  cases hfind : map.find? fun m => m.flag = flags with
  | some m =>
    have hm := mem_of_find?_eq_some hfind
    have hflag : m.flag = flags := by simpa using List.find?_some hfind
    have hleft := and_flagsOf hm
    rw [hflag] at hleft
    refine ⟨[m], by simpa using hm, ?_, ?_⟩
    · rw [flagsOf_cons, flagsOf_nil, BitVec.or_zero, hflag, and_eq_of_and_not hleft]
    · rw [if_neg (fun h => h.2 hleft)]
      simp [namesOf]
  | none =>
    obtain ⟨ms, hms, hflags, hloop⟩ := hmap.flagsByBits flags
    refine ⟨ms, hms, hflags, ?_⟩
    rw [hloop]
    simp

end Samba.Security
