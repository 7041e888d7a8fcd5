/-
Equality of values and equality of index keys: for each standard syntax, when `comparison_fn` finds two values equal that
have the same canonical form, and only those.
-/
import Mathlib.Data.List.Infix
import Samba.Ldb.AttribHandlers

namespace Samba.Ldb

open CString CTime List

variable {s s₁ s₂ t : Text} {c₁ c₂ v₁ v₂ : LdbVal} {c : UInt8} {fuel : Nat}

theorem ofText_inj : LdbVal.ofText s = LdbVal.ofText t ↔ s = t := by
  constructor
  · exact fun h => congrArg LdbVal.data h
  · exact fun h => congrArg LdbVal.ofText h

theorem toInt_eq_zero {i : Int} : toInt i = 0 ↔ 2 ^ 32 ∣ i := by
  unfold toInt
  rw [← Int.dvd_iff_bmod_eq_zero]
  rfl

/-! ## Integers and octet strings -/

theorem integer_agrees (h₁ : ldbCanonicaliseInteger v₁ = some c₁) (h₂ : ldbCanonicaliseInteger v₂ = some c₂) :
    c₁ = c₂ ↔ (strtoll (cstr v₁.data)).1 = (strtoll (cstr v₂.data)).1 := by
  have hprint : ∀ {v c : LdbVal}, ldbCanonicaliseInteger v = some c → c = .ofText (printInt (strtoll (cstr v.data)).1) := by
    intro v c h
    unfold ldbCanonicaliseInteger at h
    dsimp only at h
    split at h
    · cases h
    · exact (Option.some.inj h).symm
  rw [hprint h₁, hprint h₂, ofText_inj]
  exact ⟨printInt_injective, fun h => by rw [h]⟩

theorem octetString_agrees (hv₁ : v₁.length = v₁.data.length) (hv₂ : v₂.length = v₂.data.length)
    (h₁ : ldbHandlerCopy v₁ = some c₁) (h₂ : ldbHandlerCopy v₂ = some c₂) :
    ldbComparisonBinary v₁ v₂ = 0 ↔ c₁ = c₂ := by
  have hcopy : ∀ {v c : LdbVal}, ldbHandlerCopy v = some c → v.length + 1 < 0x10000000 ∧ c = v := by
    intro v c h
    unfold ldbHandlerCopy at h
    split at h
    · exact ⟨‹_›, (Option.some.inj h).symm⟩
    · cases h
  obtain ⟨hlt₁, rfl⟩ := hcopy h₁
  obtain ⟨hlt₂, rfl⟩ := hcopy h₂
  unfold ldbComparisonBinary
  split
  case isTrue hne =>
    -- the lengths are too small for their difference to vanish
    refine iff_of_false (fun hz => ?_) fun heq => hne (congrArg LdbVal.length heq)
    rw [toInt_eq_zero] at hz
    omega
  case isFalse hlen =>
    rw [not_not] at hlen
    unfold ldbComparisonBinary.memcmp
    rw [strcmp_eq_zero, hv₁, take_length, hv₂, take_length]
    constructor
    · intro hdata
      cases c₁
      cases c₂
      simp_all
    · exact fun heq => congrArg LdbVal.data heq

/-! ## Times -/

theorem gmtime_fields {t : Int} {tm : Tm} (h : gmtime t = some tm) :
    (-2 ^ 31 ≤ tm.year ∧ tm.year < 2 ^ 31) ∧ (0 ≤ tm.mon ∧ tm.mon < 12) ∧ (1 ≤ tm.mday ∧ tm.mday < 32) ∧
      (0 ≤ tm.hour ∧ tm.hour < 24) ∧ (0 ≤ tm.min ∧ tm.min < 60) ∧ 0 ≤ tm.sec ∧ tm.sec < 60 := by
  unfold gmtime at h
  dsimp only at h
  split at h
  case isFalse => cases h
  case isTrue hyear =>
    cases h
    have hm := civil_month (t / 86400)
    have hd := civil_day (t / 86400)
    dsimp only
    omega

theorem printField_injective {width : Nat} {i j : Int} (h : printField width i = printField width j) :
    i % 2 ^ 32 = j % 2 ^ 32 := by
  have := padded_injective h
  omega

/-- The fields of a printed time have the widths of the format. -/
theorem ldbTimestring_some {t : Int} (h : ldbTimestring t = some s) : ∃ tm, gmtime t = some tm ∧
      s = printField 4 (tm.year + 1900) ++ printField 2 (tm.mon + 1) ++ printField 2 tm.mday ++ printField 2 tm.hour ++
        printField 2 tm.min ++ printField 2 tm.sec ++ ".0Z".toList.map chr ∧
      (printField 2 (tm.mon + 1)).length = 2 ∧ (printField 2 tm.mday).length = 2 ∧ (printField 2 tm.hour).length = 2 ∧
      (printField 2 tm.min).length = 2 ∧ (printField 2 tm.sec).length = 2 := by
  unfold ldbTimestring at h
  cases hg : gmtime t with
  | none =>
    rw [hg] at h
    cases h
  | some tm =>
    rw [hg] at h
    dsimp only [bind, Option.bind] at h
    split at h
    case isTrue => cases h
    case isFalse hlen =>
      rw [not_not] at hlen
      cases h
      refine ⟨tm, rfl, rfl, ?_⟩
      have hge : ∀ width i, width ≤ (printField width i).length := fun width i => length_padded_ge width _
      have hz : (".0Z".toList.map chr).length = 3 := rfl
      simp only [length_append, hz] at hlen
      have h₁ := hge 4 (tm.year + 1900)
      have h₂ := hge 2 (tm.mon + 1)
      have h₃ := hge 2 tm.mday
      have h₄ := hge 2 tm.hour
      have h₅ := hge 2 tm.min
      have h₆ := hge 2 tm.sec
      omega

theorem ldbTimestring_injective {t₁ t₂ : Int} (h₁ : ldbTimestring t₁ = some s) (h₂ : ldbTimestring t₂ = some s) :
    t₁ = t₂ := by
  obtain ⟨tm₁, hg₁, hs₁, hmon₁, hmday₁, hhour₁, hmin₁, hsec₁⟩ := ldbTimestring_some h₁
  obtain ⟨tm₂, hg₂, hs₂, hmon₂, hmday₂, hhour₂, hmin₂, hsec₂⟩ := ldbTimestring_some h₂
  obtain ⟨heq, -⟩ := append_inj' (hs₁.symm.trans hs₂) rfl
  obtain ⟨heq, hsec⟩ := append_inj' heq (hsec₁.trans hsec₂.symm)
  obtain ⟨heq, hmin⟩ := append_inj' heq (hmin₁.trans hmin₂.symm)
  obtain ⟨heq, hhour⟩ := append_inj' heq (hhour₁.trans hhour₂.symm)
  obtain ⟨heq, hmday⟩ := append_inj' heq (hmday₁.trans hmday₂.symm)
  obtain ⟨hyear, hmon⟩ := append_inj' heq (hmon₁.trans hmon₂.symm)
  have hf₁ := gmtime_fields hg₁
  have hf₂ := gmtime_fields hg₂
  have hyear := printField_injective hyear
  have hmon := printField_injective hmon
  have hmday := printField_injective hmday
  have hhour := printField_injective hhour
  have hmin := printField_injective hmin
  have hsec := printField_injective hsec
  have htm : tm₁ = tm₂ := by
    cases tm₁
    cases tm₂
    dsimp only at *
    rw [Tm.mk.injEq]
    omega
  rw [← timegm_gmtime hg₁, ← timegm_gmtime hg₂, htm]

theorem utcTime_agrees (h₁ : ldbCanonicaliseUtctime v₁ = some c₁) (h₂ : ldbCanonicaliseUtctime v₂ = some c₂) :
    c₁ = c₂ ↔ ldbStringToTime (cstr v₁.data) = ldbStringToTime (cstr v₂.data) := by
  unfold ldbCanonicaliseUtctime at h₁ h₂
  rw [Option.map_eq_some_iff] at h₁ h₂
  obtain ⟨s₁, hs₁, rfl⟩ := h₁
  obtain ⟨s₂, hs₂, rfl⟩ := h₂
  rw [ofText_inj]
  constructor
  · rintro rfl
    exact ldbTimestring_injective hs₁ hs₂
  · intro heq
    rw [heq, hs₂] at hs₁
    exact (Option.some.inj hs₁).symm

theorem comparisonUtctime_eq_zero :
    ldbComparisonUtctime v₁ v₂ = 0 ↔ 2 ^ 32 ∣ ldbStringToTime (cstr v₂.data) - ldbStringToTime (cstr v₁.data) := by
  unfold ldbComparisonUtctime
  dsimp only
  rw [toInt_eq_zero]
  have hdvd : ∀ t : Int, 2 ^ 32 ∣ toInt t - t := by
    intro t
    exact Int.dvd_bmod_sub_self
  have h₁ := hdvd (ldbStringToTime (cstr v₁.data))
  have h₂ := hdvd (ldbStringToTime (cstr v₂.data))
  omega

/-! ## Directory strings -/

/-- A string with one space in the place of each run of spaces, and none at its end. -/
def squash : Text → Text
  | [] => []
  | c :: s =>
    if isBlank c then
      match squash s with
      | [] => []
      | d :: rest => if isBlank d then d :: rest else chr ' ' :: d :: rest
    else c :: squash s

example : squash [chr 'a', chr ' ', chr ' '] = [chr 'a'] := by
  rw [squash]
  decide

theorem isBlank_iff : isBlank c = true ↔ c = chr ' ' := decide_eq_true_iff

theorem squash_blanks (s : Text) :
    squash (chr ' ' :: s) = if s.dropWhile isBlank = [] then [] else chr ' ' :: squash (s.dropWhile isBlank) := by
  induction s with
  | nil => rfl
  | cons c s ih =>
    by_cases hc : isBlank c = true
    · rw [isBlank_iff] at hc
      subst hc
      rw [dropWhile_cons_of_pos (by decide), ← ih]
      have hsp : isBlank (chr ' ') = true := by decide
      rw [squash, if_pos hsp]
      cases hs : squash (chr ' ' :: s) with
      | nil => rfl
      | cons d rest =>
        rw [hs] at ih
        split at ih
        · cases ih
        · rw [List.cons.injEq] at ih
          dsimp only
          rw [if_pos (by rw [ih.1]; exact hsp)]
    · rw [dropWhile_cons_of_neg hc, if_neg (by simp)]
      have hs : squash (c :: s) = c :: squash s := by rw [squash, if_neg hc]
      rw [squash, if_pos (by decide), hs]
      dsimp only
      rw [if_neg hc]

theorem squash_eq_nil : squash s = [] ↔ s.dropWhile isBlank = [] := by
  cases s with
  | nil => simp [squash]
  | cons c s =>
    by_cases hc : isBlank c = true
    · rw [isBlank_iff] at hc
      subst hc
      rw [squash_blanks, dropWhile_cons_of_pos (by decide)]
      split <;> simp [*]
    · rw [squash, if_neg hc, dropWhile_cons_of_neg hc]
      simp

theorem isBlank_toUpper (c : UInt8) : isBlank (toUpper c) = isBlank c :=
  @forall_byte (fun c => isBlank (toUpper c) = isBlank c) (by decide +kernel) c

example : isBlank (toUpper (chr ' ')) = true := by
  decide +kernel

theorem map_dropWhile_blank (s : Text) : (s.dropWhile isBlank).map toUpper = (s.map toUpper).dropWhile isBlank := by
  induction s with
  | nil => rfl
  | cons c s ih =>
    rw [map_cons]
    by_cases hc : isBlank c = true
    · rw [dropWhile_cons_of_pos hc, dropWhile_cons_of_pos (by rw [isBlank_toUpper, hc]), ih]
    · rw [dropWhile_cons_of_neg hc, dropWhile_cons_of_neg (by rw [isBlank_toUpper]; exact hc), map_cons]

theorem charValue_inj {d : UInt8} : charValue c = charValue d ↔ c = d := by
  unfold charValue
  constructor
  · intro h
    have hc := c.toNat_lt
    have hd := d.toNat_lt
    refine UInt8.toNat_inj.mp ?_
    simp only [UInt8.lt_iff_toNat_lt, show (128 : UInt8).toNat = 128 from rfl] at h
    split at h <;> split at h <;> omega
  · rintro rfl
    rfl

theorem toUpper_eq_zero (c : UInt8) : toUpper c = 0 ↔ c = 0 :=
  @forall_byte (fun c => toUpper c = 0 ↔ c = 0) (by decide +kernel) c

/-- The comparison at the end of one of the strings: the other one has only spaces left. -/
theorem compareEnds_nil (hnil : s₁ = [] ∨ s₂ = []) (h₁ : (0 : UInt8) ∉ s₁) (h₂ : (0 : UInt8) ∉ s₂) :
    compareEnds toUpper s₁ s₂ = 0 ↔ squash (s₁.map toUpper) = squash (s₂.map toUpper) := by
  have hhead : ∀ {s : Text}, (0 : UInt8) ∉ s → (toUpper ((s.dropWhile isBlank).headD 0) = 0 ↔ squash (s.map toUpper) = []) := by
    intro s hs
    rw [squash_eq_nil, toUpper_eq_zero, ← map_dropWhile_blank, map_eq_nil_iff]
    cases hd : s.dropWhile isBlank with
    | nil => simp
    | cons c rest =>
      have hc : c ∈ s := (dropWhile_sublist isBlank).mem (by rw [hd]; simp)
      have hne : c ≠ 0 := fun heq => hs (heq ▸ hc)
      simp [hne]
  unfold compareEnds
  dsimp only
  rw [if_pos hnil]
  dsimp only
  rw [Int.sub_eq_zero, charValue_inj]
  rcases hnil with rfl | rfl
  · have h := hhead h₂
    rw [eq_comm, eq_comm (a := squash _)]
    exact h
  · exact hhead h₁

theorem squash_cons_of_ne (hc : isBlank c = false) (s : Text) : squash (c :: s) = c :: squash s := by
  rw [squash, if_neg (by simp [hc])]

/-- Strings that differ in the first character are different. -/
theorem squash_cons_ne {d : UInt8} (h : c ≠ d) : squash (c :: s) ≠ squash (d :: t) := by
  have hblank : ∀ {c d : UInt8} {s t : Text}, isBlank c = true → isBlank d = false → squash (c :: s) ≠ squash (d :: t) := by
    intro c d s t hc hd heq
    rw [isBlank_iff] at hc
    subst hc
    rw [squash_blanks, squash_cons_of_ne hd] at heq
    split at heq
    · cases heq
    · rw [List.cons.injEq] at heq
      rw [← heq.1] at hd
      exact absurd hd (by decide)
  cases hc : isBlank c with
  | true =>
    cases hd : isBlank d with
    | true => exact absurd ((isBlank_iff.mp hc).trans (isBlank_iff.mp hd).symm) h
    | false => exact hblank hc hd
  | false =>
    cases hd : isBlank d with
    | true => exact fun heq => hblank hd hc heq.symm
    | false =>
      rw [squash_cons_of_ne hc, squash_cons_of_ne hd]
      exact fun heq => h (List.cons.inj heq).1

/-- ASCII characters of a string. -/
def IsAsciiText (s : Text) : Prop := ∀ c ∈ s, isAscii c = true ∧ c ≠ 0

theorem IsAsciiText.dropWhile (h : IsAsciiText s) : IsAsciiText (s.dropWhile isBlank) :=
  fun c hc => h c ((dropWhile_sublist isBlank).mem hc)

theorem IsAsciiText.noNul (h : IsAsciiText s) : (0 : UInt8) ∉ s := fun hz => (h 0 hz).2 rfl

/-- Behind spaces the rest of two strings is the same, or ends in both. -/
theorem squash_eq_behind : squash ((s.dropWhile isBlank).map toUpper) = squash ((t.dropWhile isBlank).map toUpper) ↔
      (if (s.dropWhile isBlank).map toUpper = [] then [] else chr ' ' :: squash ((s.dropWhile isBlank).map toUpper)) =
        if (t.dropWhile isBlank).map toUpper = [] then [] else chr ' ' :: squash ((t.dropWhile isBlank).map toUpper) := by
  have hne : ∀ {s : Text}, (s.dropWhile isBlank).map toUpper ≠ [] → squash ((s.dropWhile isBlank).map toUpper) ≠ [] := by
    intro s hs
    rw [ne_eq, squash_eq_nil, ← map_dropWhile_blank, dropWhile_idempotent]
    exact hs
  by_cases hs : (s.dropWhile isBlank).map toUpper = []
  · by_cases ht : (t.dropWhile isBlank).map toUpper = []
    · rw [hs, ht, if_pos rfl]
      simp
    · rw [if_pos hs, if_neg ht, hs]
      exact iff_of_false (fun heq => hne ht heq.symm) (by simp)
  · by_cases ht : (t.dropWhile isBlank).map toUpper = []
    · rw [if_neg hs, if_pos ht, ht]
      exact iff_of_false (hne hs) (by simp)
    · rw [if_neg hs, if_neg ht, List.cons.injEq]
      simp

theorem compareFold_nil (h : s₁ = [] ∨ s₂ = []) : compareFold fuel s₁ s₂ = compareEnds toUpper s₁ s₂ := by
  cases fuel with
  | zero => rw [compareFold_zero]
  | succ fuel =>
    unfold compareFold
    rcases h with rfl | rfl
    · rfl
    · cases s₁ <;> rfl

/-- The walk over two strings finds those equal that are the same but for case and the number of spaces. -/
theorem compareFold_eq_zero (hlen : s₁.length ≤ fuel) (h₁ : IsAsciiText s₁) (h₂ : IsAsciiText s₂) :
    compareFold fuel s₁ s₂ = 0 ↔ squash (s₁.map toUpper) = squash (s₂.map toUpper) := by
  induction fuel generalizing s₁ s₂ with
  | zero =>
    have hnil : s₁ = [] := eq_nil_of_length_eq_zero (by omega)
    rw [compareFold_nil (.inl hnil)]
    exact compareEnds_nil (.inl hnil) h₁.noNul h₂.noNul
  | succ fuel ih =>
    cases s₁ with
    | nil =>
      rw [compareFold_nil (.inl rfl)]
      exact compareEnds_nil (.inl rfl) h₁.noNul h₂.noNul
    | cons c s₁ =>
      cases s₂ with
      | nil =>
        rw [compareFold_nil (.inr rfl)]
        exact compareEnds_nil (.inr rfl) h₁.noNul h₂.noNul
      | cons d s₂ =>
        have hc := h₁ c (by simp)
        have hd := h₂ d (by simp)
        have hs₁ : IsAsciiText s₁ := fun e he => h₁ e (by simp [he])
        have hs₂ : IsAsciiText s₂ := fun e he => h₂ e (by simp [he])
        rw [length_cons] at hlen
        rw [map_cons, map_cons]
        have hstep : compareFold (fuel + 1) (c :: s₁) (d :: s₂) =
            if toUpper c ≠ toUpper d then compareEnds toUpper (c :: s₁) (d :: s₂)
            else if isBlank c then compareFold fuel (s₁.dropWhile isBlank) (s₂.dropWhile isBlank)
            else compareFold fuel s₁ s₂ := by
          rw [compareFold]
          exact if_neg (by simp [hc.1, hd.1])
        rw [hstep]
        split
        case isTrue hne =>
          refine iff_of_false ?_ (squash_cons_ne hne)
          unfold compareEnds
          dsimp only
          rw [if_neg (by simp)]
          dsimp only [headD_cons]
          rw [Int.sub_eq_zero, charValue_inj]
          exact hne
        case isFalse heq =>
          rw [not_not] at heq
          split
          case isTrue hsp =>
            have hup : toUpper c = chr ' ' := isBlank_iff.mp ((isBlank_toUpper c).trans hsp)
            have hle := (dropWhile_sublist (l := s₁) isBlank).length_le
            rw [ih (by omega) hs₁.dropWhile hs₂.dropWhile, ← heq, hup, squash_blanks, squash_blanks,
              ← map_dropWhile_blank, ← map_dropWhile_blank]
            exact squash_eq_behind
          case isFalse hsp =>
            have hup : isBlank (toUpper c) = false := by rw [isBlank_toUpper, Bool.eq_false_iff]; exact hsp
            rw [ih (by omega) hs₁ hs₂, ← heq, squash_cons_of_ne hup, squash_cons_of_ne hup, List.cons.injEq]
            simp

/-- No two spaces follow each other. -/
def NoRuns (s : Text) : Prop := ¬ [chr ' ', chr ' '] <:+: s

theorem NoRuns.of_suffix (h : NoRuns s) (ht : t <:+ s) : NoRuns t := fun hrun => h (hrun.trans ht.isInfix)

/-- Where no spaces follow each other none is moved. -/
theorem moveSpaces_noRuns (h : NoRuns s) : moveSpaces fuel s = s := by
  induction fuel generalizing s with
  | zero => rw [moveSpaces]
  | succ fuel ih =>
    rw [moveSpaces]
    dsimp only
    have hsplit := takeWhile_append_dropWhile (p := (!isBlank ·)) (l := s)
    cases ht : s.dropWhile (!isBlank ·) with
    | nil => rw [if_pos rfl]
    | cons c tail =>
      rw [ht] at hsplit
      have hsuf : c :: tail <:+ s := ⟨_, hsplit⟩
      have hc : isBlank c = true := by
        have := head_dropWhile_not (!isBlank ·) (l := s) (by rw [ht]; simp)
        simpa [ht] using this
      have htail : tail.takeWhile isBlank = [] := by
        cases tail with
        | nil => rfl
        | cons d rest =>
          refine takeWhile_cons_of_neg fun hd => h ?_
          rw [isBlank_iff] at hc hd
          subst hc hd
          exact List.IsInfix.trans ⟨[], rest, rfl⟩ hsuf.isInfix
      have hdrop : tail.dropWhile isBlank = tail := by
        have := takeWhile_append_dropWhile (p := isBlank) (l := tail)
        rwa [htail, nil_append] at this
      rw [if_neg (by simp), takeWhile_cons_of_pos hc, htail, if_neg (by simp), dropWhile_cons_of_pos hc, hdrop,
        ih (h.of_suffix ((suffix_cons c tail).trans hsuf)), ← isBlank_iff.mp hc, hsplit]

theorem squash_noRuns (h : NoRuns s) (hlast : ∀ c, s.getLast? = some c → isBlank c = false) : squash s = s := by
  induction s with
  | nil => rfl
  | cons c s ih =>
    cases s with
    | nil =>
      have hc := hlast c rfl
      rw [squash_cons_of_ne hc]
      rfl
    | cons d s =>
      have hs := ih (h.of_suffix (suffix_cons c _)) fun e he => hlast e (by rw [List.getLast?_cons_cons, he])
      cases hc : isBlank c with
      | false => rw [squash_cons_of_ne hc, hs]
      | true =>
        have hd : ¬ isBlank d = true := by
          intro hd
          rw [isBlank_iff] at hc hd
          subst hc hd
          exact h ⟨[], s, rfl⟩
        rw [squash, if_pos hc, hs]
        dsimp only
        rw [if_neg hd, isBlank_iff.mp hc]

theorem squash_append_blanks {w : Text} (hw : ∀ c ∈ w, isBlank c = true) : squash (s ++ w) = squash s := by
  induction s with
  | nil => exact squash_eq_nil.mpr (dropWhile_eq_nil_iff.mpr hw)
  | cons c s ih => rw [cons_append, squash, squash, ih]

theorem squash_trimBlanks (s : Text) : squash (trimBlanks s) = squash (s.dropWhile isBlank) := by
  have hall : ∀ {r w : Text}, (∀ c ∈ w, isBlank c = true) → squash (r.dropWhile isBlank) = squash ((r ++ w).dropWhile isBlank) := by
    intro r w hw
    induction r with
    | nil => rw [nil_append, dropWhile_eq_nil_iff.mpr hw, dropWhile_nil]
    | cons c r ih =>
      rw [cons_append]
      by_cases hc : isBlank c = true
      · rw [dropWhile_cons_of_pos hc, dropWhile_cons_of_pos hc, ih]
      · rw [dropWhile_cons_of_neg hc, dropWhile_cons_of_neg hc, ← cons_append, squash_append_blanks hw]
  unfold trimBlanks
  rw [hall (w := s.rtakeWhile isBlank) fun c hc => mem_rtakeWhile_imp hc, rdropWhile_append_rtakeWhile]

theorem trimBlanks_last (h : (trimBlanks s).getLast? = some c) : isBlank c = false := by
  unfold trimBlanks at h
  have hsuf : (s.rdropWhile isBlank).dropWhile isBlank <:+ s.rdropWhile isBlank := dropWhile_suffix isBlank
  obtain ⟨pre, hpre⟩ := hsuf
  have hlast : (s.rdropWhile isBlank).getLast? = some c := by
    rw [← hpre, List.getLast?_append, h]
    rfl
  have hne : s.rdropWhile isBlank ≠ [] := fun hnil => by rw [hnil] at hlast; cases hlast
  have hnot := rdropWhile_last_not isBlank s hne
  rw [List.getLast?_eq_some_getLast hne, Option.some.injEq] at hlast
  rw [hlast, Bool.not_eq_true] at hnot
  exact hnot

/-- The string that `ldb_handler_fold` has when it comes to the spaces inside. -/
def foldedText (v : LdbVal) : Text := trimBlanks ((cstr v.data).map toUpper)

theorem comparisonFold_eq_zero (h₁ : ∀ c ∈ v₁.data, isAscii c = true) (h₂ : ∀ c ∈ v₂.data, isAscii c = true) :
    ldbComparisonFold v₁ v₂ = 0 ↔ squash (foldedText v₁) = squash (foldedText v₂) := by
  have hascii : ∀ {v : LdbVal}, (∀ c ∈ v.data, isAscii c = true) → IsAsciiText (cstr v.data) := by
    intro v h c hc
    refine ⟨h c ((takeWhile_sublist _).mem hc), ?_⟩
    rintro rfl
    exact zero_notMem_cstr v.data hc
  have hfolded : ∀ v : LdbVal, squash (foldedText v) = squash (((cstr v.data).dropWhile isBlank).map toUpper) := by
    intro v
    rw [foldedText, squash_trimBlanks, map_dropWhile_blank]
  unfold ldbComparisonFold
  dsimp only
  rw [compareFold_eq_zero (Nat.le_refl _) (hascii h₁).dropWhile (hascii h₂).dropWhile, hfolded, hfolded]

/-- The condition on directory strings: there are no two spaces inside of either that follow each other, or the two are
the same but for case and the spaces at their ends. -/
def FoldsAlike (v₁ v₂ : LdbVal) : Prop :=
  (NoRuns (foldedText v₁) ∧ NoRuns (foldedText v₂)) ∨ foldedText v₁ = foldedText v₂

theorem directoryString_agrees (h₁ : ∀ c ∈ v₁.data, isAscii c = true)
    (h₂ : ∀ c ∈ v₂.data, isAscii c = true) (hc₁ : ldbHandlerFold v₁ = some c₁) (hc₂ : ldbHandlerFold v₂ = some c₂)
    (h : FoldsAlike v₁ v₂) : ldbComparisonFold v₁ v₂ = 0 ↔ c₁ = c₂ := by
  rw [comparisonFold_eq_zero h₁ h₂]
  cases hc₁
  cases hc₂
  rw [ofText_inj]
  show _ ↔ moveSpaces (foldedText v₁).length (foldedText v₁) = moveSpaces (foldedText v₂).length (foldedText v₂)
  rcases h with ⟨hr₁, hr₂⟩ | heq
  · rw [moveSpaces_noRuns hr₁, moveSpaces_noRuns hr₂, squash_noRuns hr₁ fun _ => trimBlanks_last,
      squash_noRuns hr₂ fun _ => trimBlanks_last]
  · rw [heq]
    simp

/-! ## DNs -/

section Dn

variable {canonicalise : Text → LdbVal → Option LdbVal} {dn dn₀ dn₁ : LdbDn} {s s₀ s₁ : Text}

/-- A special DN, casefolded or not. -/
structure SpecialDn (dn : LdbDn) (s : Text) : Prop where
  special : dn.special = true
  valid : dn.invalid = false
  text : dn.linearized = some s
  parts : dn.components = none

theorem SpecialDn.compNum (h : SpecialDn dn s) : dn.compNum = 0 := by
  unfold LdbDn.compNum
  rw [h.parts]
  rfl

theorem SpecialDn.explode (h : SpecialDn dn s) : ldbDnExplode dn = some (true, dn) := by
  unfold ldbDnExplode
  rw [if_neg (by simp [h.valid]), if_neg (by simp [h.parts]), h.text]
  dsimp only
  by_cases hs : s = []
  · rw [if_pos hs]
  · rw [if_neg hs, if_pos h.special]

theorem SpecialDn.casefold (h : SpecialDn dn s) :
    ∃ dn', ldbDnCasefoldInternal canonicalise dn = some (true, dn') ∧ SpecialDn dn' s := by
  unfold ldbDnCasefoldInternal
  rw [if_neg (by simp [h.valid])]
  by_cases hcase : dn.validCase = true
  · exact ⟨dn, if_pos hcase, h⟩
  · rw [if_neg hcase, h.explode]
    dsimp only [bind, Option.bind]
    rw [if_neg (by decide), h.parts]
    exact ⟨_, rfl, h.special, h.valid, h.text, rfl⟩

theorem compareFolded_special (h₀ : SpecialDn dn₀ s₀) (h₁ : SpecialDn dn₁ s₁) :
    compareFolded dn₀ dn₁ = some (strcmp s₀ s₁) := by
  unfold compareFolded
  rw [h₀.compNum, h₁.compNum, if_neg (by simp), if_pos rfl, h₀.special, h₁.special, h₀.text, h₁.text]
  rfl

variable {l : List (Text × LdbVal)}

theorem compareFolded_mixed (h₀ : SpecialDn dn₀ s₀) (h₁ : Folded dn₁ l) :
    (∃ r, compareFolded dn₀ dn₁ = some r ∧ r ≠ 0) ∧ ∃ r, compareFolded dn₁ dn₀ = some r ∧ r ≠ 0 := by
  unfold compareFolded
  rw [h₀.compNum, h₁.compNum]
  by_cases hl : l.length = 0
  · rw [hl, if_neg (by simp), if_pos rfl, h₀.special, h₁.special, if_neg (by simp), if_pos rfl, if_neg (by simp), if_pos rfl]
    exact ⟨⟨1, rfl, by decide⟩, -1, by rw [if_neg (by decide)]; rfl, by decide⟩
  · rw [if_pos (Ne.symm hl), if_pos hl]
    exact ⟨⟨_, rfl, by omega⟩, _, rfl, by omega⟩

theorem samePrefixCase_head {n : Nat} {c d : UInt8} {s t : Text} (h : samePrefixCase (n + 1) (c :: s) (d :: t) = true) :
    toUpper c = toUpper d := by
  unfold samePrefixCase at h
  rw [beq_iff_eq] at h
  exact (List.cons.inj h).1

theorem special_head {s : Text} (h : (ldbDnNew s).special = true) : ∃ c rest, s = c :: rest ∧ (c = chr '@' ∨ c = chr '<') := by
  have hlt : ∀ c : UInt8, toUpper c = toUpper (chr '<') → c = chr '<' :=
    @forall_byte (fun c => toUpper c = toUpper (chr '<') → c = chr '<') (by decide +kernel)
  cases s with
  | nil => exact absurd h (by decide)
  | cons c rest =>
    refine ⟨c, rest, rfl, ?_⟩
    unfold ldbDnNew at h
    dsimp only at h
    rw [Bool.or_eq_true, Bool.or_eq_true, Bool.or_eq_true, List.head?_cons, beq_iff_eq, Option.some.injEq] at h
    rcases h with ((h | h) | h) | h
    · exact .inl h
    · exact .inr (hlt c (@samePrefixCase_head 5 c _ rest ("GUID=".toList.map chr) h))
    · exact .inr (hlt c (@samePrefixCase_head 7 c _ rest ("SID=".toList.map chr) h))
    · exact .inr (hlt c (@samePrefixCase_head 7 c _ rest ("WKGUID=".toList.map chr) h))

/-- A casefolded string is not that of a special DN. -/
theorem folded_not_special (hl : Printable l) (hs : (ldbDnNew s).special = true) :
    textOf (visible (blocks l)) ≠ s := by
  obtain ⟨c, rest, rfl, hc⟩ := special_head hs
  cases l with
  | nil => exact fun h => nomatch h
  | cons x l =>
    have hname := hl.name x (by simp)
    have hvis : ∃ v vs, visible (blocks (x :: l)) = (x.1, v) :: vs := by
      unfold blocks
      rw [map_cons, visible]
      split
      · exact ⟨_, _, rfl⟩
      · exact ⟨_, _, rfl⟩
    obtain ⟨v, vs, hvis⟩ := hvis
    obtain ⟨tail, htext, -⟩ := textOf_cons_eq (x.1, v) vs
    rw [hvis, htext]
    dsimp only
    cases hx : x.1 with
    | nil => exact absurd hx hname.nonempty
    | cons d name =>
      intro heq
      have hd : d = c := (List.cons.inj heq).1
      have hmem : c ∈ x.1 := by rw [hx, hd]; simp
      rcases hc with rfl | rfl
      · exact hname.noSpecial.1 hmem
      · exact hname.noSpecial.2 hmem

variable (canonicalise) in
/-- What a DN value becomes: the DN after validation, and its canonical form. -/
inductive DnForm (s : Text) (dn : LdbDn) : Text → Prop
  | special {text : Text} (hnew : (ldbDnNew s).special = true) (h : SpecialDn dn s) (htext : text = s) : DnForm s dn text
  | plain {cs : List DnComponent} {l : List (Text × LdbVal)} (hnew : (ldbDnNew s).special = false) (hs : explodeText s = .ok cs)
      (h : DnOk canonicalise dn (pairs cs)) (hf : casefoldPairs canonicalise (pairs cs) = some l) (hl : Printable l)
      (hlin : dn.linearized = some s) : DnForm s dn (textOf (visible (blocks l)))

variable (canonicalise) in
/-- The canonicalisation functions give values whose length is that of their block. -/
def Terminates : Prop := ∀ name v w, canonicalise name v = some w → w.length = w.data.length

theorem canonicaliseDn_form {v c : LdbVal} (hcanon : Terminates canonicalise)
    (h : ldbCanonicaliseDn canonicalise v = some (some c)) :
    ∃ dn text, ldbDnValidate (ldbDnNew (cstr v.data)) = some (true, dn) ∧ dn.validCase = false ∧ dn.invalid = false ∧
      DnForm canonicalise (cstr v.data) dn text ∧ c = .ofText text := by
  unfold ldbCanonicaliseDn at h
  generalize cstr v.data = s at *
  unfold ldbDnValidate at h ⊢
  cases hsp : (ldbDnNew s).special with
  | true =>
    have hspecial : SpecialDn (ldbDnNew s) s := ⟨hsp, rfl, rfl, rfl⟩
    rw [hspecial.explode] at h ⊢
    refine ⟨ldbDnNew s, s, rfl, rfl, rfl, .special hsp hspecial rfl, ?_⟩
    have hget : ldbDnGetCasefold canonicalise (ldbDnNew s) =
        some (some s, { ldbDnNew s with casefold := some s, validCase := true }) := by
      unfold ldbDnGetCasefold
      exact if_pos hsp
    dsimp only [bind, Option.bind] at h
    rw [if_neg (by decide), hget] at h
    exact (Option.some.inj (Option.some.inj h)).symm
  | false =>
    have hexp : ∃ cs, explodeText s = .ok cs := by
      unfold explodeText
      by_cases hs : s = []
      · exact ⟨[], if_pos hs⟩
      · rw [if_neg hs]
        rw [ldbDnExplode_text rfl rfl rfl hs hsp] at h
        cases he : explode s with
        | ok cs => exact ⟨cs, rfl⟩
        | error e =>
          rw [he] at h
          cases e <;> cases h
    obtain ⟨cs, hcs⟩ := hexp
    obtain ⟨dn, hdn, hok, -, hcase, hlin, hnone⟩ := (@ldbDnNew_ok canonicalise s cs hsp hcs).explode
    rw [hdn] at h ⊢
    dsimp only [bind, Option.bind] at h
    rw [if_neg (by decide)] at h
    cases hf : casefoldPairs canonicalise (pairs cs) with
    | none =>
      obtain ⟨dn', hget⟩ := getCasefold_refused hok hnone hf
      rw [hget] at h
      cases h
    | some l =>
      have hl := printable_of_explode hcs (fun _ _ _ => hcanon _ _ _) hf
      have hempty : pairs cs = [] → dn.linearized = some [] := by
        intro hnil
        unfold explodeText at hcs
        split at hcs
        case isTrue hs => rw [hlin, hs]; rfl
        case isFalse => exact absurd (map_eq_nil_iff.mp hnil) (explode_ne_nil hcs)
      obtain ⟨dn', hget⟩ := getCasefold_ok hok hnone hf hl hempty
      rw [hget] at h
      exact ⟨dn, _, rfl, hcase, hok.valid, .plain hsp hcs hok hf hl hlin, (Option.some.inj (Option.some.inj h)).symm⟩

/-- The condition on DNs: the casefolded components do not differ only behind the first NUL of a value. -/
def FormsAlike (canonicalise : Text → LdbVal → Option LdbVal) (s₁ s₂ : Text) : Prop :=
  ∀ cs₁ cs₂ l₁ l₂, (ldbDnNew s₁).special = false → (ldbDnNew s₂).special = false → explodeText s₁ = .ok cs₁ →
    explodeText s₂ = .ok cs₂ → casefoldPairs canonicalise (pairs cs₁) = some l₁ →
    casefoldPairs canonicalise (pairs cs₂) = some l₂ → ¬ DifferBehindNul l₁ l₂

theorem compare_mixed {comps : List (Text × LdbVal)} (hcase₀ : dn₀.validCase = false)
    (hcase₁ : dn₁.validCase = false) (hne : s₀ ≠ s₁) (h₀ : SpecialDn dn₀ s₀) (h₁ : DnOk canonicalise dn₁ comps)
    (hlin : dn₁.linearized = some s₁) (hf : casefoldPairs canonicalise comps = some l) :
    (∃ r, (ldbDnCompare canonicalise dn₀ dn₁).map Prod.fst = some r ∧ r ≠ 0) ∧
      ∃ r, (ldbDnCompare canonicalise dn₁ dn₀).map Prod.fst = some r ∧ r ≠ 0 := by
  have htext : ∀ {s : Text}, dn₀.linearized = some s → dn₁.linearized = some s → False := by
    intro s hs₀ hs₁
    exact hne ((Option.some.inj (h₀.text.symm.trans hs₀)).trans (Option.some.inj (hlin.symm.trans hs₁)).symm)
  obtain ⟨dn₀', hc₀, hsp⟩ := @SpecialDn.casefold canonicalise dn₀ s₀ h₀
  obtain ⟨dn₁', hc₁, hfold, -⟩ := h₁.casefold hf
  obtain ⟨⟨r, hr, hrne⟩, r', hr', hrne'⟩ := compareFolded_mixed hsp hfold
  constructor
  · rw [compare_casefold (by rw [h₀.valid, h₁.valid]; rfl) (by rw [hcase₀]; rfl) (fun ⟨s, ha, hb⟩ => htext ha hb), hc₀]
    dsimp only [bind, Option.bind]
    rw [if_neg (by decide), hc₁]
    dsimp only
    rw [if_neg (by decide), hr]
    exact ⟨r, rfl, hrne⟩
  · rw [compare_casefold (by rw [h₀.valid, h₁.valid]; rfl) (by rw [hcase₁]; rfl) (fun ⟨s, ha, hb⟩ => htext hb ha), hc₁]
    dsimp only [bind, Option.bind]
    rw [if_neg (by decide), hc₀]
    dsimp only
    rw [if_neg (by decide), hr']
    exact ⟨r', rfl, hrne'⟩

theorem compare_special (hcase : dn₀.validCase = false) (h₀ : SpecialDn dn₀ s₀) (h₁ : SpecialDn dn₁ s₁) :
    ∃ r, (ldbDnCompare canonicalise dn₀ dn₁).map Prod.fst = some r ∧ (r = 0 ↔ s₀ = s₁) := by
  have hvalid : (dn₀.invalid || dn₁.invalid) = false := by rw [h₀.valid, h₁.valid]; rfl
  have hvc : (dn₀.validCase && dn₁.validCase) = false := by rw [hcase]; rfl
  have hiff : SameText dn₀ dn₁ ↔ s₀ = s₁ := by
    constructor
    · rintro ⟨s, hs₀, hs₁⟩
      exact (Option.some.inj (h₀.text.symm.trans hs₀)).trans (Option.some.inj (h₁.text.symm.trans hs₁)).symm
    · rintro rfl
      exact ⟨s₀, h₀.text, h₁.text⟩
  by_cases ht : SameText dn₀ dn₁
  · rw [compare_sameText hvalid hvc ht]
    exact ⟨0, rfl, iff_of_true rfl (hiff.mp ht)⟩
  · obtain ⟨dn₀', hc₀, hsp₀⟩ := @SpecialDn.casefold canonicalise dn₀ s₀ h₀
    obtain ⟨dn₁', hc₁, hsp₁⟩ := @SpecialDn.casefold canonicalise dn₁ s₁ h₁
    rw [compare_casefold hvalid hvc ht, hc₀]
    dsimp only [bind, Option.bind]
    rw [if_neg (by decide), hc₁]
    dsimp only
    rw [if_neg (by decide), compareFolded_special hsp₀ hsp₁]
    exact ⟨_, rfl, strcmp_eq_zero⟩

theorem dn_agrees {v₁ v₂ c₁ c₂ : LdbVal} (hcanon : Terminates canonicalise)
    (h₁ : ldbCanonicaliseDn canonicalise v₁ = some (some c₁)) (h₂ : ldbCanonicaliseDn canonicalise v₂ = some (some c₂)) :
    (∃ r, ldbComparisonDn canonicalise v₁ v₂ = some r ∧ (r = 0 ↔ c₁ = c₂)) ↔
      FormsAlike canonicalise (cstr v₁.data) (cstr v₂.data) := by
  obtain ⟨dn₁, t₁, hv₁, hcase₁, hvalid₁, hform₁, rfl⟩ := canonicaliseDn_form hcanon h₁
  obtain ⟨dn₂, t₂, hv₂, hcase₂, hvalid₂, hform₂, rfl⟩ := canonicaliseDn_form hcanon h₂
  have hcomp : ldbComparisonDn canonicalise v₁ v₂ = (ldbDnCompare canonicalise dn₁ dn₂).map Prod.fst := by
    unfold ldbComparisonDn
    rw [hv₁, hv₂]
    rfl
  rw [hcomp, ofText_inj]
  generalize cstr v₁.data = s₁ at *
  generalize cstr v₂.data = s₂ at *
  -- where one of the DNs is special the condition does not say anything
  have hvoid : (ldbDnNew s₁).special = true ∨ (ldbDnNew s₂).special = true → FormsAlike canonicalise s₁ s₂ := by
    intro h cs₁ cs₂ l₁ l₂ hs₁ hs₂
    rw [hs₁, hs₂] at h
    simp at h
  cases hform₁ with
  | special hnew₁ hsp₁ ht₁ =>
    cases hform₂ with
    | special hnew₂ hsp₂ ht₂ =>
      rw [ht₁, ht₂]
      exact iff_of_true (compare_special hcase₁ hsp₁ hsp₂) (hvoid (.inl hnew₁))
    | plain hnew₂ hs₂ hok₂ hf₂ hl₂ hlin₂ =>
      have hne : s₁ ≠ s₂ := fun heq => by rw [heq, hnew₂] at hnew₁; cases hnew₁
      obtain ⟨⟨r, hr, hrne⟩, -⟩ := compare_mixed hcase₁ hcase₂ hne hsp₁ hok₂ hlin₂ hf₂
      exact iff_of_true ⟨r, hr, iff_of_false hrne fun heq => folded_not_special hl₂ hnew₁ (heq.symm.trans ht₁)⟩ (hvoid (.inl hnew₁))
  | plain hnew₁ hs₁ hok₁ hf₁ hl₁ hlin₁ =>
    cases hform₂ with
    | special hnew₂ hsp₂ ht₂ =>
      have hne : s₂ ≠ s₁ := fun heq => by rw [heq, hnew₁] at hnew₂; cases hnew₂
      obtain ⟨-, r, hr, hrne⟩ := compare_mixed hcase₂ hcase₁ hne hsp₂ hok₁ hlin₁ hf₁
      exact iff_of_true ⟨r, hr, iff_of_false hrne fun heq => folded_not_special hl₁ hnew₂ (heq.trans ht₂)⟩ (hvoid (.inr hnew₂))
    | plain hnew₂ hs₂ hok₂ hf₂ hl₂ hlin₂ =>
      obtain ⟨r, dn₁', dn₂', hr, -, -, hiff⟩ := compare_ok hok₁ hok₂ hf₁ hf₂
      rw [hr]
      have htext : ∀ {l₁ l₂ : List (Text × LdbVal)}, Printable l₁ → Printable l₂ →
          (textOf (visible (blocks l₁)) = textOf (visible (blocks l₂)) ↔ visible (blocks l₁) = visible (blocks l₂)) :=
        fun hl₁ hl₂ => ⟨textOf_injective hl₁.noEquals hl₂.noEquals, fun heq => by rw [heq]⟩
      rw [htext hl₁ hl₂]
      constructor
      · rintro ⟨r', hr', hzero⟩ cs₁' cs₂' l₁' l₂' - - hcs₁ hcs₂ hf₁' hf₂' ⟨hvis, hcut⟩
        rw [hs₁, Except.ok.injEq] at hcs₁
        rw [hs₂, Except.ok.injEq] at hcs₂
        subst hcs₁ hcs₂
        rw [hf₁, Option.some.injEq] at hf₁'
        rw [hf₂, Option.some.injEq] at hf₂'
        subst hf₁' hf₂'
        cases hr'
        exact hcut (hiff.mp (hzero.mpr hvis))
      · intro halike
        refine ⟨r, rfl, hiff.trans ⟨visible_of_cut hl₁ hl₂, fun hvis => ?_⟩⟩
        by_contra hcut
        exact halike _ _ _ _ hnew₁ hnew₂ hs₁ hs₂ hf₁ hf₂ ⟨hvis, hcut⟩

/-! ## All syntaxes -/

variable (canonicalise) in
/-- The condition under which equality and the index key agree. Integers and times may not be a multiple of `2 ^ 32`
apart. -/
def AgreeWhen : StandardSyntax → LdbVal → LdbVal → Prop
  | .integer, v₁, v₂ =>
    2 ^ 32 ∣ (strtoll (cstr v₁.data)).1 - (strtoll (cstr v₂.data)).1 →
      (strtoll (cstr v₁.data)).1 = (strtoll (cstr v₂.data)).1
  | .octetString, _, _ => True
  | .directoryString, v₁, v₂ => FoldsAlike v₁ v₂
  | .dn, v₁, v₂ => FormsAlike canonicalise (cstr v₁.data) (cstr v₂.data)
  | .utcTime, v₁, v₂ =>
    2 ^ 32 ∣ ldbStringToTime (cstr v₂.data) - ldbStringToTime (cstr v₁.data) →
      ldbStringToTime (cstr v₁.data) = ldbStringToTime (cstr v₂.data)

/-- A difference that is cut to an `int` vanishes only for the same numbers, if and only if they are not a multiple of
`2 ^ 32` apart. -/
theorem vanishes_iff {a b : Int} {P Q : Prop} (hP : P ↔ 2 ^ 32 ∣ a - b) (hQ : Q ↔ a = b) :
    (P ↔ Q) ↔ (2 ^ 32 ∣ a - b → a = b) := by
  rw [hP, hQ]
  constructor
  · exact fun h => h.mp
  · exact fun h => ⟨h, fun heq => by rw [heq, Int.sub_self]; exact Int.dvd_zero _⟩

theorem exists_eq_some_iff {r : Int} {P : Int → Prop} : (∃ r', some r = some r' ∧ P r') ↔ P r := by
  constructor
  · rintro ⟨r', heq, h⟩
    cases heq
    exact h
  · exact fun h => ⟨r, rfl, h⟩

/-- Two values that have canonical forms are found equal if and only if the forms are the same, under the condition of
their syntax; but for directory strings the condition is necessary too. -/
theorem comparison_canonical_iff {syn : StandardSyntax} {v₁ v₂ c₁ c₂ : LdbVal} (hcanon : Terminates canonicalise)
    (hv₁ : v₁.length = v₁.data.length) (hv₂ : v₂.length = v₂.data.length)
    (hascii : syn = .directoryString → (∀ c ∈ v₁.data, isAscii c = true) ∧ ∀ c ∈ v₂.data, isAscii c = true)
    (h₁ : canonicaliseFn canonicalise syn v₁ = some (some c₁)) (h₂ : canonicaliseFn canonicalise syn v₂ = some (some c₂)) :
    (AgreeWhen canonicalise syn v₁ v₂ → ∃ r, comparisonFn canonicalise syn v₁ v₂ = some r ∧ (r = 0 ↔ c₁ = c₂)) ∧
      (syn ≠ .directoryString → (∃ r, comparisonFn canonicalise syn v₁ v₂ = some r ∧ (r = 0 ↔ c₁ = c₂)) →
        AgreeWhen canonicalise syn v₁ v₂) := by
  cases syn with
  | integer =>
    have hiff := vanishes_iff toInt_eq_zero (integer_agrees (Option.some.inj h₁) (Option.some.inj h₂))
    exact ⟨fun h => ⟨_, rfl, hiff.mpr h⟩, fun _ h => hiff.mp (exists_eq_some_iff.mp h)⟩
  | octetString =>
    exact ⟨fun _ => ⟨_, rfl, octetString_agrees hv₁ hv₂ (Option.some.inj h₁) (Option.some.inj h₂)⟩, fun _ _ => trivial⟩
  | directoryString =>
    obtain ⟨ha₁, ha₂⟩ := hascii rfl
    exact ⟨fun h => ⟨_, rfl, directoryString_agrees ha₁ ha₂ (Option.some.inj h₁) (Option.some.inj h₂) h⟩,
      fun hne => absurd rfl hne⟩
  | dn => exact ⟨(dn_agrees hcanon h₁ h₂).mpr, fun _ => (dn_agrees hcanon h₁ h₂).mp⟩
  | utcTime =>
    have hforms := utcTime_agrees (Option.some.inj h₁) (Option.some.inj h₂)
    have hiff := vanishes_iff comparisonUtctime_eq_zero (hforms.trans eq_comm)
    constructor
    · exact fun h => ⟨_, rfl, hiff.mpr fun hdvd => (h hdvd).symm⟩
    · exact fun _ h hdvd => (hiff.mp (exists_eq_some_iff.mp h) hdvd).symm

end Dn

/-- The values "Foo Bar " and "foo bar" are equal, and their canonical forms are the same. -/
theorem comparison_canonical_case :
    ∃ r, comparisonFn (fun _ v => some (.ofText v.data)) .directoryString (.ofText ("Foo Bar ".toList.map chr))
        (.ofText ("foo bar".toList.map chr)) = some r ∧
      (r = 0 ↔ LdbVal.ofText ("FOO BAR".toList.map chr) = LdbVal.ofText ("FOO BAR".toList.map chr)) := by
  have hcanon : Terminates fun _ v => some (.ofText v.data) := by
    rintro name v w ⟨⟩
    rfl
  exact (@comparison_canonical_iff (fun _ v => some (.ofText v.data)) .directoryString
    (.ofText ("Foo Bar ".toList.map chr)) (.ofText ("foo bar".toList.map chr)) _ _ hcanon rfl rfl
    (fun _ => ⟨by decide +kernel, by decide +kernel⟩) (by decide +kernel) (by decide +kernel)).1 (.inr (by decide))

/-- Values that are equal and have different canonical forms: two spaces against one, the numbers 0 and `2 ^ 32`, and
two times that are `2 ^ 32` seconds apart. -/
theorem comparison_not_canonical :
    (ldbComparisonFold (.ofText ("a  b".toList.map chr)) (.ofText ("a b".toList.map chr)) = 0 ∧
      ldbHandlerFold (.ofText ("a  b".toList.map chr)) = some (.ofText ("A BB".toList.map chr)) ∧
      ldbHandlerFold (.ofText ("a b".toList.map chr)) = some (.ofText ("A B".toList.map chr))) ∧
    (ldbComparisonInteger (.ofText ("0".toList.map chr)) (.ofText ("4294967296".toList.map chr)) = 0 ∧
      ldbCanonicaliseInteger (.ofText ("0".toList.map chr)) = some (.ofText ("0".toList.map chr)) ∧
      ldbCanonicaliseInteger (.ofText ("4294967296".toList.map chr)) = some (.ofText ("4294967296".toList.map chr))) ∧
    ldbComparisonUtctime (.ofText ("19700101000000.0Z".toList.map chr)) (.ofText ("21060207062816.0Z".toList.map chr)) = 0 ∧
      ldbCanonicaliseUtctime (.ofText ("19700101000000.0Z".toList.map chr)) =
        some (.ofText ("19700101000000.0Z".toList.map chr)) ∧
      ldbCanonicaliseUtctime (.ofText ("21060207062816.0Z".toList.map chr)) =
        some (.ofText ("21060207062816.0Z".toList.map chr)) := by
  decide +kernel

end Samba.Ldb
