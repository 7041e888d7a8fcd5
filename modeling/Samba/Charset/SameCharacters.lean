/-
What strcasecmp_m (lib/charset/util_unistr.c) takes for the same. The strings are compared character by character, but two invalid
bytes are the same INVALID_CODEPOINT, and behind an invalid byte that stands against a character the rest is compared as bytes.
-/
import Mathlib.Data.List.Forall2
import Samba.Charset.Codepoint

namespace Samba.Charset

open CString List Rounds

/-! ## The characters of a string -/

/-- The bytes of the characters from the start of a string to its end. -/
def charactersFrom : Nat → Text → List Text
  | fuel + 1, s => if s = [] then [] else s.take (nextCodepoint s).2 :: charactersFrom fuel (s.drop (nextCodepoint s).2)
  | 0, _ => []

def characters (s : Text) : List Text := charactersFrom s.length s

/-- The code point that the bytes of a character stand for, `none` for an invalid byte. -/
def codepointOf (w : Text) : Option Nat := (nextCodepoint w).1

theorem utf8PullRound_taken {input out : List UInt8} {room n : Nat} (h : utf8PullRound input room = .ok (n, out)) :
    utf8PullRound (input.take n) room = .ok (n, out) := by
  cases input with
  | nil => cases h
  | cons c rest =>
    simp only [utf8PullRound] at h
    by_cases h1 : c &&& 0x80 = 0
    · rw [if_pos h1] at h
      obtain ⟨rfl, rfl⟩ := Prod.mk.inj (Except.ok.inj h)
      exact if_pos h1
    rw [if_neg h1] at h
    by_cases h2 : c &&& 0xe0 = 0xc0
    · rw [if_pos h2] at h
      split at h
      · split at h
        · cases h
        · rename_i hcont
          obtain ⟨rfl, rfl⟩ := Prod.mk.inj (Except.ok.inj h)
          rw [take_succ_cons, take_succ_cons, take_zero, utf8PullRound, if_neg h1, if_pos h2]
          exact if_neg hcont
      · cases h
    rw [if_neg h2] at h
    by_cases h3 : c &&& 0xf0 = 0xe0
    · rw [if_pos h3] at h
      split at h
      · split at h
        · cases h
        · rename_i hcont
          obtain ⟨rfl, rfl⟩ := Prod.mk.inj (Except.ok.inj h)
          rw [take_succ_cons, take_succ_cons, take_succ_cons, take_zero, utf8PullRound, if_neg h1, if_neg h2,
            if_pos h3]
          exact if_neg hcont
      · cases h
    rw [if_neg h3] at h
    by_cases h4 : c &&& 0xf8 = 0xf0
    · rw [if_pos h4] at h
      cases rest with
      | nil => cases h
      | cons c1 rest =>
        cases rest with
        | nil => cases h
        | cons c2 rest =>
          cases rest with
          | nil => cases h
          | cons c3 rest =>
            have hn : n = 4 := by
              dsimp only at h
              repeat' split at h
              all_goals first | cases h; done | exact (Prod.mk.inj (Except.ok.inj h)).1.symm
            subst hn
            rw [take_succ_cons, take_succ_cons, take_succ_cons, take_succ_cons, take_zero, utf8PullRound,
              if_neg h1, if_neg h2, if_neg h3, if_pos h4]
            exact h
    · rw [if_neg h4] at h
      cases h

/-- A byte that is not ASCII does not stand by itself. -/
theorem utf8PullRound_alone {c : UInt8} (h : c &&& 0x80 ≠ 0) (room : Nat) : ∃ e, utf8PullRound [c] room = .error e := by
  simp only [utf8PullRound]
  rw [if_neg h]
  repeat' split
  all_goals exact ⟨_, rfl⟩

/-- A character is what its own bytes stand for, at least one byte and no more than there are. -/
theorem nextCodepoint_taken {s : Text} (hs : s ≠ []) :
    0 < (nextCodepoint s).2 ∧ (nextCodepoint s).2 ≤ s.length ∧ nextCodepoint (s.take (nextCodepoint s).2) = nextCodepoint s := by
  obtain ⟨c, bytes, rfl⟩ := exists_cons_of_ne_nil hs
  by_cases hc : c &&& 0x80 = 0
  · rw [nextCodepoint_ascii hc]
    exact ⟨Nat.one_pos, Nat.succ_le_succ (Nat.zero_le _), nextCodepoint_ascii hc []⟩
  rcases nextCodepoint_round hc bytes with ⟨n, out, hr, hnext⟩ | ⟨-, hnext⟩
  · obtain ⟨hpos, hn, -⟩ := utf8PullRound_ok hr
    have htaken := utf8PullRound_taken hr
    obtain ⟨m, rfl⟩ := Nat.exists_eq_succ_of_ne_zero hpos.ne'
    rw [hnext]
    refine ⟨hpos, hn, ?_⟩
    rw [take_succ_cons] at htaken ⊢
    rcases nextCodepoint_round hc (bytes.take m) with ⟨n', out', hr', hnext'⟩ | ⟨⟨e, he⟩, -⟩
    · obtain ⟨rfl, rfl⟩ := Prod.mk.inj (Except.ok.inj (hr'.symm.trans htaken))
      exact hnext'
    · exact absurd (he.symm.trans htaken) (nomatch ·)
  · rw [hnext]
    refine ⟨Nat.one_pos, Nat.succ_le_succ (Nat.zero_le _), ?_⟩
    show nextCodepoint [c] = _
    obtain ⟨e, he⟩ := utf8PullRound_alone hc 4
    rcases nextCodepoint_round hc [] with ⟨n', out', hr', -⟩ | ⟨-, hnext'⟩
    · exact absurd (he.symm.trans hr') (nomatch ·)
    · exact hnext'

theorem charactersFrom_fuel {fuel : Nat} {s : Text} (h : s.length ≤ fuel) : charactersFrom fuel s = characters s := by
  unfold characters
  induction hn : s.length using Nat.strong_induction_on generalizing s fuel with
  | _ n ih =>
    by_cases hs : s = []
    · subst hs
      subst hn
      cases fuel <;> rfl
    · obtain ⟨hpos, -, -⟩ := nextCodepoint_taken hs
      have hlen := length_pos_of_ne_nil hs
      have hlt : (s.drop (nextCodepoint s).2).length < n := by rw [length_drop]; omega
      obtain ⟨f, rfl⟩ := Nat.exists_eq_succ_of_ne_zero (show fuel ≠ 0 by omega)
      obtain ⟨m, rfl⟩ := Nat.exists_eq_succ_of_ne_zero (show n ≠ 0 by omega)
      rw [charactersFrom, charactersFrom, if_neg hs, if_neg hs, @ih _ hlt f _ (by omega) rfl, @ih _ hlt m _ (by omega) rfl]

theorem characters_cons {s : Text} (hs : s ≠ []) :
    characters s = s.take (nextCodepoint s).2 :: characters (s.drop (nextCodepoint s).2) := by
  obtain ⟨hpos, -, -⟩ := nextCodepoint_taken hs
  have hlen := length_pos_of_ne_nil hs
  obtain ⟨m, hm⟩ := Nat.exists_eq_succ_of_ne_zero hlen.ne'
  rw [characters, hm, charactersFrom, if_neg hs, charactersFrom_fuel (by rw [length_drop]; omega)]

theorem flatten_characters (s : Text) : (characters s).flatten = s := by
  induction hn : s.length using Nat.strong_induction_on generalizing s with
  | _ n ih =>
    by_cases hs : s = []
    · subst hs
      rfl
    · obtain ⟨hpos, -, -⟩ := nextCodepoint_taken hs
      have hlen := length_pos_of_ne_nil hs
      rw [characters_cons hs, flatten_cons, ih _ (by rw [← hn, length_drop]; omega) _ rfl, take_append_drop]

/-! ## The same characters -/

section CaseTables

variable (upcaseTable : Nat → Nat)

/-- What the loop passes: two invalid bytes, or two valid characters with one upper case. -/
def Passes (w1 w2 : Text) : Prop :=
  (codepointOf w1).map (toupperW upcaseTable) = (codepointOf w2).map (toupperW upcaseTable)

/-- The same bytes, or two valid characters with one upper case. -/
def SameCharacter (w1 w2 : Text) : Prop := w1 = w2 ∨ codepointOf w1 ≠ none ∧ Passes upcaseTable w1 w2

/-- As many characters, each the same as the one at its place. -/
def SameCharacters (s1 s2 : Text) : Prop := List.Forall₂ (SameCharacter upcaseTable) (characters s1) (characters s2)

/-- An invalid byte stands against a valid character, with what is passed before them, and behind them are the same bytes in any
case. -/
inductive HandsOver : List Text → List Text → Prop
  | here {w1 w2 : Text} {ws1 ws2 : List Text} : (codepointOf w1 = none ↔ codepointOf w2 ≠ none) →
      strcasecmp ws1.flatten ws2.flatten = 0 → HandsOver (w1 :: ws1) (w2 :: ws2)
  | there {w1 w2 : Text} {ws1 ws2 : List Text} : Passes upcaseTable w1 w2 → HandsOver ws1 ws2 → HandsOver (w1 :: ws1) (w2 :: ws2)

/-- All characters are passed, and two invalid bytes among them differ. -/
def InvalidDiffer (ws1 ws2 : List Text) : Prop :=
  List.Forall₂ (Passes upcaseTable) ws1 ws2 ∧ ∃ p ∈ ws1.zip ws2, codepointOf p.1 = none ∧ p.1 ≠ p.2

variable {upcaseTable}

theorem SameCharacter.passes {w1 w2 : Text} (h : SameCharacter upcaseTable w1 w2) : Passes upcaseTable w1 w2 := by
  rcases h with rfl | ⟨-, h⟩
  · rfl
  · exact h

/-- The tables do not matter for whether a character is valid. -/
theorem Passes.none_iff {w1 w2 : Text} (h : Passes upcaseTable w1 w2) : codepointOf w1 = none ↔ codepointOf w2 = none := by
  rw [← Option.map_eq_none_iff (f := toupperW upcaseTable), h, Option.map_eq_none_iff]

theorem sameCharacter_equivalence : Equivalence (SameCharacter upcaseTable) where
  refl _ := .inl rfl
  symm := by
    rintro w1 w2 (rfl | ⟨hv, h⟩)
    · exact .inl rfl
    · exact .inr ⟨fun hn => hv (h.none_iff.2 hn), h.symm⟩
  trans := by
    rintro w1 w2 w3 (rfl | ⟨hv, h⟩) (rfl | ⟨hv', h'⟩)
    · exact .inl rfl
    · exact .inr ⟨hv', h'⟩
    · exact .inr ⟨hv, h⟩
    · exact .inr ⟨hv, h.trans h'⟩

theorem sameCharacters_equivalence : Equivalence (SameCharacters upcaseTable) where
  refl _ := forall₂_same.2 fun _ _ => sameCharacter_equivalence.refl _
  symm h := (h.imp fun _ _ hs => sameCharacter_equivalence.symm hs).flip
  trans {s1 s2 s3} h12 h23 := by
    unfold SameCharacters at *
    generalize characters s1 = ws1 at h12
    generalize characters s2 = ws2 at h12 h23
    generalize characters s3 = ws3 at h23
    induction h12 generalizing ws3 with
    | nil => exact h23
    | cons h _ ih =>
      cases h23 with
      | cons h' hs => exact .cons (sameCharacter_equivalence.trans h h') (ih _ hs)

/-- A byte that is not zero is not zero with a sign. -/
theorem toInt8_ne_zero {c : UInt8} (h : c ≠ 0) : c.toInt8.toInt ≠ 0 := by
  have hall : ∀ c : UInt8, c ≠ 0 → c.toInt8.toInt ≠ 0 := forall_byte (by decide +kernel)
  exact hall c h

theorem characters_nil : characters [] = [] := rfl

section FirstCharacter

variable {w1 w2 : Text} {ws1 ws2 : List Text}

/-- What the loop finds the same: all is passed, or the rest is handed over and is the same. -/
def FoundSame (upcaseTable : Nat → Nat) (ws1 ws2 : List Text) : Prop :=
  List.Forall₂ (Passes upcaseTable) ws1 ws2 ∨ HandsOver upcaseTable ws1 ws2

theorem Passes.foundSame_cons (h : Passes upcaseTable w1 w2) :
    FoundSame upcaseTable (w1 :: ws1) (w2 :: ws2) ↔ FoundSame upcaseTable ws1 ws2 := by
  constructor
  · rintro (hall | hover)
    · exact .inl (forall₂_cons.1 hall).2
    · cases hover with
      | here hx _ => exact absurd (hx.symm.trans h.none_iff) not_iff_self
      | there _ hover => exact .inr hover
  · rintro (hall | hover)
    · exact .inl (.cons h hall)
    · exact .inr (.there h hover)

theorem foundSame_of_invalid (h : codepointOf w1 = none ↔ codepointOf w2 ≠ none) :
    FoundSame upcaseTable (w1 :: ws1) (w2 :: ws2) ↔ strcasecmp ws1.flatten ws2.flatten = 0 := by
  have hnot : ¬Passes upcaseTable w1 w2 := fun hp => absurd (h.symm.trans hp.none_iff) not_iff_self
  constructor
  · rintro (hall | hover)
    · exact absurd (forall₂_cons.1 hall).1 hnot
    · cases hover with
      | here _ hrest => exact hrest
      | there hp _ => exact absurd hp hnot
  · exact fun hrest => .inr (.here h hrest)

theorem not_foundSame {c1 c2 : Nat} (h1 : codepointOf w1 = some c1) (h2 : codepointOf w2 = some c2)
    (h : toupperW upcaseTable c1 ≠ toupperW upcaseTable c2) : ¬FoundSame upcaseTable (w1 :: ws1) (w2 :: ws2) := by
  have hnot : ¬Passes upcaseTable w1 w2 := by
    unfold Passes
    rw [h1, h2]
    exact fun he => h (Option.some.inj he)
  rintro (hall | hover)
  · exact hnot (forall₂_cons.1 hall).1
  · cases hover with
    | here hx _ =>
      rw [h1, h2] at hx
      exact absurd (hx.2 (nofun)) (nofun)
    | there hp _ => exact hnot hp

end FirstCharacter

theorem strcasecmpMFrom_eq_zero {fuel : Nat} {s1 s2 : Text} (hfuel : s1.length < fuel) (h1 : 0 ∉ s1) (h2 : 0 ∉ s2) :
    strcasecmpMFrom upcaseTable fuel s1 s2 = 0 ↔
      FoundSame upcaseTable (characters s1) (characters s2) := by
  induction fuel generalizing s1 s2 with
  | zero => omega
  | succ fuel ih =>
    rw [strcasecmpMFrom]
    by_cases hend : s1 = [] ∨ s2 = []
    · rw [if_pos hend]
      cases s1 with
      | nil =>
        cases s2 with
        | nil => exact iff_of_true rfl (.inl .nil)
        | cons c s2 =>
          have hc : c ≠ 0 := fun hc => h2 (hc ▸ mem_cons_self)
          have := toInt8_ne_zero hc
          rw [characters_cons (cons_ne_nil c s2), characters_nil]
          refine iff_of_false (fun h0 => this ?_) (fun h => ?_)
          · rw [headD_cons] at h0
            exact neg_eq_zero.1 ((zero_sub _).symm.trans h0)
          · rcases h with h | h <;> cases h
      | cons c s1 =>
        obtain rfl : s2 = [] := hend.resolve_left (cons_ne_nil c s1)
        have hc : c ≠ 0 := fun hc => h1 (hc ▸ mem_cons_self)
        have := toInt8_ne_zero hc
        rw [characters_cons (cons_ne_nil c s1), characters_nil]
        refine iff_of_false (fun h0 => this ?_) (fun h => ?_)
        · rw [headD_cons] at h0
          exact (sub_zero _).symm.trans h0
        · rcases h with h | h <;> cases h
    · obtain ⟨hne1, hne2⟩ := not_or.1 hend
      obtain ⟨hpos1, -, hcode1⟩ := nextCodepoint_taken hne1
      obtain ⟨-, -, hcode2⟩ := nextCodepoint_taken hne2
      replace hcode1 : codepointOf (s1.take (nextCodepoint s1).2) = (nextCodepoint s1).1 := congrArg Prod.fst hcode1
      replace hcode2 : codepointOf (s2.take (nextCodepoint s2).2) = (nextCodepoint s2).1 := congrArg Prod.fst hcode2
      have hlen := length_pos_of_ne_nil hne1
      have hih := @ih (s1.drop (nextCodepoint s1).2) (s2.drop (nextCodepoint s2).2) (by rw [length_drop]; omega)
        (fun h => h1 (mem_of_mem_drop h)) (fun h => h2 (mem_of_mem_drop h))
      rw [if_neg hend, characters_cons hne1, characters_cons hne2]
      generalize s1.take (nextCodepoint s1).2 = w1 at hcode1
      generalize s2.take (nextCodepoint s2).2 = w2 at hcode2
      generalize nextCodepoint s1 = p1 at hcode1 hih
      generalize nextCodepoint s2 = p2 at hcode2 hih
      obtain ⟨c1, size1⟩ := p1
      obtain ⟨c2, size2⟩ := p2
      dsimp only at hcode1 hcode2 hih ⊢
      by_cases hsame : c1 = c2
      · have hp : Passes upcaseTable w1 w2 := by rw [Passes, hcode1, hcode2, hsame]
        rw [if_pos hsame, hp.foundSame_cons]
        exact hih
      · rw [if_neg hsame]
        cases c1 with
        | none =>
          cases c2 with
          | none => exact absurd rfl hsame
          | some c2 =>
            rw [foundSame_of_invalid (by rw [hcode1, hcode2]; exact iff_of_true rfl nofun), flatten_characters, flatten_characters]
        | some c1 =>
          cases c2 with
          | none =>
            rw [foundSame_of_invalid (by rw [hcode1, hcode2]; exact iff_of_false nofun (fun h => h rfl)), flatten_characters,
              flatten_characters]
          | some c2 =>
            dsimp only
            by_cases hup : toupperW upcaseTable c1 = toupperW upcaseTable c2
            · have hp : Passes upcaseTable w1 w2 := by rw [Passes, hcode1, hcode2, Option.map_some, Option.map_some, hup]
              rw [if_neg (not_not.2 hup), hp.foundSame_cons]
              exact hih
            · rw [if_pos hup]
              refine iff_of_false (fun h0 => hsame ?_) (not_foundSame hcode1 hcode2 hup)
              rw [Int.ofNat_inj.1 (Int.eq_of_sub_eq_zero h0)]

/-- Where all is passed, the characters are the same unless invalid bytes differ. -/
theorem sameCharacter_of_passes {ws1 ws2 : List Text} (h : List.Forall₂ (Passes upcaseTable) ws1 ws2) :
    List.Forall₂ (SameCharacter upcaseTable) ws1 ws2 ↔ ¬∃ p ∈ ws1.zip ws2, codepointOf p.1 = none ∧ p.1 ≠ p.2 := by
  induction h with
  | nil => exact iff_of_true .nil (by rintro ⟨p, hp, -⟩; cases hp)
  | @cons w1 w2 ws1 ws2 hp _ ih =>
    rw [forall₂_cons, ih, zip_cons_cons, exists_mem_cons_iff, not_or]
    refine and_congr_left fun _ => ⟨?_, fun hd => ?_⟩
    · rintro (rfl | ⟨hv, -⟩) ⟨hn, hne⟩
      · exact hne rfl
      · exact hv hn
    · by_cases hn : codepointOf w1 = none
      · exact .inl (not_not.1 fun hne => hd ⟨hn, hne⟩)
      · exact .inr ⟨hn, hp⟩

theorem HandsOver.not_same {ws1 ws2 : List Text} (h : HandsOver upcaseTable ws1 ws2) :
    ¬List.Forall₂ (SameCharacter upcaseTable) ws1 ws2 := by
  induction h with
  | here hx _ =>
    intro hall
    exact absurd (hx.symm.trans (forall₂_cons.1 hall).1.passes.none_iff) not_iff_self
  | there _ _ ih => exact fun hall => ih (forall₂_cons.1 hall).2

/-! ## strcasecmp_m -/

variable (upcaseTable) in
/-- With every case table, strings that `strcasecmp_m` takes for the same have the same characters, exactly if no invalid bytes among
them differ and nothing is handed over to the comparison of bytes that is the same there. Strings of the same characters are always
taken for the same, which is an equivalence. -/
theorem strcasecmpM_sound_iff (s1 s2 : Text) (h1 : 0 ∉ s1) (h2 : 0 ∉ s2) :
    ((strcasecmpM upcaseTable s1 s2 = 0 → SameCharacters upcaseTable s1 s2) ↔
      ¬InvalidDiffer upcaseTable (characters s1) (characters s2) ∧ ¬HandsOver upcaseTable (characters s1) (characters s2)) ∧
    (SameCharacters upcaseTable s1 s2 → strcasecmpM upcaseTable s1 s2 = 0) ∧ Equivalence (SameCharacters upcaseTable) := by
  have hzero := @strcasecmpMFrom_eq_zero upcaseTable (s1.length + 1) s1 s2 (Nat.lt_succ_self _) h1 h2
  rw [strcasecmpM, hzero]
  refine ⟨⟨fun h => ⟨?_, fun hover => hover.not_same (h (.inr hover))⟩, ?_⟩, fun h => ?_, sameCharacters_equivalence⟩
  · rintro ⟨hall, hdiffer⟩
    exact (sameCharacter_of_passes hall).1 (h (.inl hall)) hdiffer
  · rintro ⟨hdiffer, hover⟩ (hall | h)
    · exact (sameCharacter_of_passes hall).2 fun hd => hdiffer ⟨hall, hd⟩
    · exact absurd h hover
  · exact .inl (h.imp fun _ _ hs => hs.passes)

end CaseTables

theorem codepointOf_invalid {c : UInt8} {bytes : Text} {e : Errno} (hc : c &&& 0x80 ≠ 0)
    (h : utf8PullRound (c :: bytes) 4 = .error e) : nextCodepoint (c :: bytes) = (none, 1) := by
  rcases nextCodepoint_round hc bytes with ⟨n, out, hr, -⟩ | ⟨-, hnext⟩
  · exact absurd (h.symm.trans hr) (nomatch ·)
  · exact hnext

theorem nextCodepoint_stray : nextCodepoint [0x80] = (none, 1) := codepointOf_invalid (by decide) rfl

theorem codepointOf_stray : codepointOf [0x80] = none := congrArg Prod.fst nextCodepoint_stray

/-- A letter in both cases, with the same invalid byte behind it. -/
theorem strcasecmpM_sound_invalidByte :
    (strcasecmpM (fun n => n) [chr 'a', 0x80] [chr 'A', 0x80] = 0 → SameCharacters (fun n => n) [chr 'a', 0x80] [chr 'A', 0x80]) ∧
      strcasecmpM (fun n => n) [chr 'a', 0x80] [chr 'A', 0x80] = 0 := by
  obtain ⟨hsound, hconverse, -⟩ :=
    strcasecmpM_sound_iff (fun n => n) [chr 'a', 0x80] [chr 'A', 0x80] (by decide) (by decide)
  have hlast : characters [0x80] = [[0x80]] := by
    rw [characters_cons (cons_ne_nil _ _), nextCodepoint_stray]
    rfl
  have h1 : characters [chr 'a', 0x80] = [[chr 'a'], [0x80]] :=
    (characters_cons (cons_ne_nil _ _)).trans (congrArg ([chr 'a'] :: ·) hlast)
  have h2 : characters [chr 'A', 0x80] = [[chr 'A'], [0x80]] :=
    (characters_cons (cons_ne_nil _ _)).trans (congrArg ([chr 'A'] :: ·) hlast)
  refine ⟨hsound.2 ?_, hconverse ?_⟩
  · rw [h1, h2]
    constructor
    · rintro ⟨-, p, hp, hnone, hne⟩
      rcases mem_cons.1 hp with rfl | hp
      · exact absurd hnone (by decide)
      · obtain rfl := mem_singleton.1 hp
        exact hne rfl
    · rintro (⟨hiff, -⟩ | ⟨-, ⟨hiff, -⟩ | ⟨-, ⟨⟩⟩⟩)
      · exact absurd (hiff.2 (by decide)) (by decide)
      · exact hiff.1 codepointOf_stray codepointOf_stray
  · rw [SameCharacters, h1, h2]
    exact .cons (.inr ⟨by decide, rfl⟩) (.cons (.inl rfl) .nil)

/-- An invalid byte against a letter, with the same letter behind them. -/
theorem strcasecmpM_handsOver : strcasecmpM (fun n => n) [0x80, chr 'a'] [chr 'X', chr 'a'] = 0 ∧
    ¬SameCharacters (fun n => n) [0x80, chr 'a'] [chr 'X', chr 'a'] := by
  have hbad : nextCodepoint [0x80, chr 'a'] = (none, 1) := codepointOf_invalid (by decide) rfl
  have h1 : characters [0x80, chr 'a'] = [[0x80], [chr 'a']] := by
    rw [characters_cons (cons_ne_nil _ _), hbad]
    rfl
  have h2 : characters [chr 'X', chr 'a'] = [[chr 'X'], [chr 'a']] := rfl
  have hover : HandsOver (fun n => n) (characters [0x80, chr 'a']) (characters [chr 'X', chr 'a']) := by
    rw [h1, h2]
    exact .here (iff_of_true codepointOf_stray (by decide)) rfl
  refine ⟨(strcasecmpMFrom_eq_zero (by decide) (by decide) (by decide)).2 (.inr hover), hover.not_same⟩

end Samba.Charset
