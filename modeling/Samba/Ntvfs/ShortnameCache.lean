/-
What the cache of short names leads to (ntvfs/posix/pvfs_shortname.c, check_cache). The lookup goes by the hash digits
alone: the leading characters of the short name are not compared, lower case digits count as zeros, and the extension is
put behind whatever prefix was found. When the name that comes out has the short name that was looked up.
-/
import Samba.Ntvfs.Shortname

namespace Samba.Ntvfs

open CString List Samba.Charset

/-! ## Characters -/

/-- The classes of a byte and of its upper case. -/
theorem byte_classes (c : UInt8) :
    (flagAscii (toUpper c) = flagAscii c ∧ flagBasechar (toUpper c) = flagBasechar c ∧ toUpper (toUpper c) = toUpper c) ∧
      (flagAscii c = true → c ≠ chr '.' ∧ c ≠ chr '/') ∧
      (flagBasechar c = true → flagAscii c = true ∧ basechar (baseReverse (toUpper c)) = toUpper c ∧
        baseReverse (toUpper c) < 36) :=
  @forall_byte (fun c =>
    (flagAscii (toUpper c) = flagAscii c ∧ flagBasechar (toUpper c) = flagBasechar c ∧ toUpper (toUpper c) = toUpper c) ∧
      (flagAscii c = true → c ≠ chr '.' ∧ c ≠ chr '/') ∧
      (flagBasechar c = true → flagAscii c = true ∧ basechar (baseReverse (toUpper c)) = toUpper c ∧
        baseReverse (toUpper c) < 36)) (by decide +kernel) c

theorem flagAscii_toUpper (c : UInt8) : flagAscii (toUpper c) = flagAscii c := (byte_classes c).1.1

theorem flagBasechar_toUpper (c : UInt8) : flagBasechar (toUpper c) = flagBasechar c := (byte_classes c).1.2.1

theorem toUpper_toUpper (c : UInt8) : toUpper (toUpper c) = toUpper c := (byte_classes c).1.2.2

variable {c : UInt8}

theorem not_dot_of_ascii : flagAscii c = true → c ≠ chr '.' ∧ c ≠ chr '/' := (byte_classes c).2.1

theorem ascii_of_basechar (h : flagBasechar c = true) : flagAscii c = true := ((byte_classes c).2.2 h).1

theorem basechar_baseReverse (h : flagBasechar c = true) :
    basechar (baseReverse (toUpper c)) = toUpper c ∧ baseReverse (toUpper c) < 36 := ((byte_classes c).2.2 h).2

theorem baseReverse_basechar : ∀ d < 36, baseReverse (basechar d) = d ∧ toUpper (basechar d) = basechar d := by
  decide

/-! ## Digits -/

/-- The number that base 36 digits spell. -/
def spelled (digits : Text) : Nat := digits.foldl (fun v c => 36 * v + baseReverse c) 0

theorem spelled_concat (digits : Text) (c : UInt8) : spelled (digits ++ [c]) = 36 * spelled digits + baseReverse c := by
  rw [spelled, foldl_append]
  rfl

theorem reverseDigits_reverse (digits : Text) (multiplier hash : Nat) :
    reverseDigits digits.reverse multiplier hash = hash + multiplier * spelled digits := by
  induction digits using List.reverseRecOn generalizing multiplier hash with
  | nil => rfl
  | append_singleton digits c ih =>
    rw [reverse_append, reverse_singleton, singleton_append, reverseDigits, ih, spelled_concat]
    ring

theorem length_hashDigits (k v : Nat) : (hashDigits k v).length = k := by
  induction k generalizing v with
  | zero => rw [hashDigits_zero, length_nil]
  | succ k ih => rw [hashDigits, length_append, ih, length_singleton]

theorem spelled_hashDigits {k v : Nat} (h : v < 36 ^ k) : spelled (hashDigits k v) = v := by
  induction k generalizing v with
  | zero =>
    rw [Nat.lt_one_iff.1 h]
    rfl
  | succ k ih =>
    rw [hashDigits, spelled_concat, ih (by rw [Nat.pow_succ] at h; omega),
      (baseReverse_basechar _ (Nat.mod_lt _ (by decide))).1]
    omega

/-- Digits that are spelled as `basechar` spells them are the digits of their number. -/
theorem hashDigits_spelled {digits : Text} (h : ∀ c ∈ digits, basechar (baseReverse c) = c ∧ baseReverse c < 36) :
    hashDigits digits.length (spelled digits) = digits := by
  induction digits using List.reverseRecOn with
  | nil => rfl
  | append_singleton digits c ih =>
    obtain ⟨hc, hlt⟩ := h c (by simp)
    rw [length_append, length_singleton, hashDigits, spelled_concat,
      show (36 * spelled digits + baseReverse c) / 36 = spelled digits by omega,
      show (36 * spelled digits + baseReverse c) % 36 = baseReverse c by omega,
      ih fun d hd => h d (mem_append_left _ hd), hc]

theorem toUpper_hashDigits (k v : Nat) : (hashDigits k v).map toUpper = hashDigits k v := by
  induction k generalizing v with
  | zero => rfl
  | succ k ih =>
    rw [hashDigits, map_append, ih, map_singleton, (baseReverse_basechar _ (Nat.mod_lt _ (by decide))).2]

/-! ## Mangled 8.3 names -/

/-- The parts of a mangled 8.3 name. -/
structure Parts (ctx : MangleContext) (name lead digits : Text) (last : UInt8) (ext : Text) : Prop where
  eq : name = lead ++ digits ++ [chr '~', last] ++ if ext = [] then [] else chr '.' :: ext
  length_lead : lead.length = ctx.manglePrefix
  length_digits : digits.length = 6 - ctx.manglePrefix
  lead_ascii : ∀ c ∈ lead, flagAscii c = true
  digits_base : ∀ c ∈ digits, flagBasechar c = true
  last_base : flagBasechar last = true
  ext_ascii : ∀ c ∈ ext, flagAscii c = true
  length_ext : ext.length ≤ 3

variable {ctx : MangleContext} {name : Text}

/-- Names of at most 8 ascii characters, and an extension of at most 3, are 8.3 names. -/
theorem is83_of_ascii {base ext : Text} (hbase : ∀ c ∈ base, flagAscii c = true) (hlen : base.length ≤ 8)
    (hext : ∀ c ∈ ext, flagAscii c = true) (hlext : ext.length ≤ 3) :
    is83 (base ++ if ext = [] then [] else chr '.' :: ext) false = true := by
  have hdot : ∀ {t : Text}, (∀ c ∈ t, flagAscii c = true) → chr '.' ∉ t := fun ht h => (not_dot_of_ascii (ht _ h)).1 rfl
  by_cases he : ext = []
  · rw [if_pos he, append_nil, is83]
    split
    · rfl
    · rw [if_neg (by omega), strchr_eq_none.2 (hdot hbase)]
      simp only [hlen, decide_true, Bool.true_and, all_eq_true]
      intro c hc
      rw [hbase c hc, Bool.true_or, Bool.true_or]
  · have hpos : 0 < ext.length := length_pos_iff.2 he
    rw [if_neg he, is83]
    split
    · rfl
    · rw [if_neg (by rw [length_append, length_cons]; omega), strchr_append (hdot hbase)]
      have hdrop : (base ++ chr '.' :: ext).drop (base.length + 1) = ext := by
        rw [← drop_drop, drop_left, drop_one, tail_cons]
      have hsuffix : (base ++ chr '.' :: ext).length - (base.length + 1) = ext.length := by
        rw [length_append, length_cons]; omega
      dsimp only
      rw [hdrop, hsuffix, strchr_eq_none.2 (hdot hext), Option.isNone_none, Bool.and_true, Bool.and_eq_true]
      refine ⟨?_, ?_⟩
      · simp only [Bool.not_eq_true', Bool.or_eq_false_iff, decide_eq_false_iff_not]
        omega
      · rw [all_eq_true]
        intro c hc
        rcases mem_append.1 hc with hc | hc
        · rw [hbase c hc, Bool.true_or, Bool.true_or]
        · rcases mem_cons.1 hc with rfl | hc
          · decide
          · rw [hext c hc, Bool.true_or, Bool.true_or]

theorem chars_of_is83 (h : is83 name false = true) : ∀ c ∈ name, flagAscii c = true ∨ c = chr '.' := by
  intro c hc
  rw [is83] at h
  split at h
  · next hdots =>
    rcases hdots with rfl | rfl <;> simp at hc <;> exact .inr hc
  · split at h
    · cases h
    · obtain ⟨-, hall⟩ := Bool.and_eq_true_iff.1 h
      have := all_eq_true.1 hall c hc
      simpa using this

theorem ext_ne_nil_of_is83 {base ext : Text} (hbase : chr '.' ∉ base) (hlen : 2 ≤ base.length)
    (h : is83 (base ++ chr '.' :: ext) false = true) : ext ≠ [] := by
  rintro rfl
  rw [is83, if_neg] at h
  · split at h
    · cases h
    · rw [strchr_append hbase] at h
      simp at h
  · rintro (h | h)
    · have := congrArg List.length h
      simp only [length_append, length_cons, length_nil] at this
      omega
    · have := congrArg List.length h
      simp only [length_append, length_cons, length_nil] at this
      omega

/-- An 8.3 name that is mangled falls into its parts. -/
theorem exists_parts (h83 : is83 name false = true) (hm : isMangled ctx name = true) :
    ∃ lead digits last ext, Parts ctx name lead digits last ext := by
  have hslash : strchr name (chr '/') = none := strchr_eq_none.2 fun h => by
    rcases chars_of_is83 h83 _ h with h | h
    · exact (not_dot_of_ascii h).2 rfl
    · exact absurd h (by decide)
  have hm : isMangledComponent ctx name name.length = true := by
    rw [isMangled] at hm
    split at hm
    · next hs => rw [hslash] at hs; cases hs
    · exact hm
  have hp := ctx.manglePrefix_le
  simp only [isMangledComponent, Bool.and_eq_true, Bool.not_eq_true', Bool.or_eq_false_iff, decide_eq_false_iff_not,
    decide_eq_true_eq, Bool.or_eq_true, all_eq_true, not_lt] at hm
  obtain ⟨⟨⟨⟨⟨⟨hmax, hmin⟩, htilde⟩, hext⟩, hlead⟩, hlast⟩, hdigits⟩ := hm
  rw [take_of_length_le (le_refl _)] at hext
  obtain ⟨front, tail, rfl, hfront⟩ : ∃ front tail, name = front ++ tail ∧ front.length = 6 :=
    ⟨name.take 6, name.drop 6, (take_append_drop 6 name).symm, by rw [length_take]; omega⟩
  rw [take_left' hfront] at hdigits
  rw [take_append_of_le_length (by omega)] at hlead
  -- behind the first six characters stand the tilde and the last digit
  obtain ⟨tilde, last, tail, rfl⟩ : ∃ tilde last tail', tail = tilde :: last :: tail' := by
    rw [length_append] at hmin
    rcases tail with _ | ⟨tilde, _ | ⟨last, tail'⟩⟩
    · rw [length_nil] at hmin; omega
    · rw [length_singleton] at hmin; omega
    · exact ⟨tilde, last, tail', rfl⟩
  have hat : ∀ i, charAt (front ++ tilde :: last :: tail) (6 + i) = charAt (tilde :: last :: tail) i := fun i => by
    rw [charAt, charAt, getD_eq_getElem?_getD, getD_eq_getElem?_getD,
      List.getElem?_append_right (by omega), hfront, Nat.add_sub_cancel_left]
  obtain rfl : tilde = chr '~' := (hat 0).symm.trans htilde
  replace hlast : flagBasechar last = true := (congrArg flagBasechar (hat 1)).symm.trans hlast
  have hascii : ∀ c ∈ front ++ [chr '~', last], flagAscii c = true := by
    intro c hc
    rw [← take_append_drop ctx.manglePrefix front] at hc
    rcases mem_append.1 hc with hc | hc
    · rcases mem_append.1 hc with hc | hc
      · exact hlead c hc
      · exact ascii_of_basechar (hdigits c hc)
    · rcases mem_cons.1 hc with rfl | hc
      · decide
      · rw [mem_singleton.1 hc]; exact ascii_of_basechar hlast
  have hsplit : front ++ chr '~' :: last :: tail =
      front.take ctx.manglePrefix ++ front.drop ctx.manglePrefix ++ [chr '~', last] ++ tail := by
    rw [take_append_drop, append_assoc]
    rfl
  have hparts : ∀ ext, (tail = if ext = [] then [] else chr '.' :: ext) → (∀ c ∈ ext, flagAscii c = true) →
      ext.length ≤ 3 → Parts ctx (front ++ chr '~' :: last :: tail) (front.take ctx.manglePrefix)
        (front.drop ctx.manglePrefix) last ext := fun ext htail hext hlen =>
    { eq := by rw [hsplit, htail]
      length_lead := by rw [length_take]; omega
      length_digits := by rw [length_drop]; omega
      lead_ascii := hlead
      digits_base := hdigits
      last_base := hlast
      ext_ascii := hext
      length_ext := hlen }
  cases tail with
  | nil => exact ⟨_, _, _, [], hparts [] rfl (forall_mem_nil _) (Nat.zero_le _)⟩
  | cons dot ext =>
    have hlen : (front ++ chr '~' :: last :: dot :: ext).length = 9 + ext.length := by
      rw [length_append, length_cons, length_cons, length_cons]; omega
    rcases hext with hext | ⟨hdot, hext⟩
    · omega
    · obtain rfl : dot = chr '.' := (hat 2).symm.trans hdot
      have hne : ext ≠ [] := @ext_ne_nil_of_is83 (front ++ [chr '~', last]) ext
        (fun h => (not_dot_of_ascii (hascii _ h)).1 rfl) (by rw [length_append]; simp) (by simpa using h83)
      have hdrop : (front ++ chr '~' :: last :: chr '.' :: ext).drop 9 = ext := by
        rw [show 9 = front.length + 3 by omega, ← drop_drop, drop_left]
        rfl
      rw [hdrop] at hext
      exact ⟨_, _, _, ext, hparts ext (if_neg hne).symm hext (by omega)⟩

namespace Parts

variable {lead digits ext : Text} {last : UInt8} (h : Parts ctx name lead digits last ext)

include h

theorem length_front : (lead ++ digits).length = 6 := by
  have := ctx.manglePrefix_le
  rw [length_append, h.length_lead, h.length_digits]
  omega

theorem take_six : name.take 6 = lead ++ digits := by
  rw [h.eq, append_assoc (lead ++ digits)]
  exact take_left' h.length_front

theorem take_manglePrefix : name.take ctx.manglePrefix = lead := by
  rw [h.eq, append_assoc, append_assoc]
  exact take_left' h.length_lead

theorem charAt_front (i : Nat) :
    charAt name (6 + i) = charAt ([chr '~', last] ++ if ext = [] then [] else chr '.' :: ext) i := by
  have hlen := h.length_front
  rw [h.eq, append_assoc (lead ++ digits), charAt, charAt, getD_eq_getElem?_getD, getD_eq_getElem?_getD,
    List.getElem?_append_right (by omega), hlen, Nat.add_sub_cancel_left]

theorem hashOf_eq : hashOf ctx name = baseReverse last + 36 * spelled digits := by
  rw [hashOf, h.take_six, drop_left' h.length_lead, reverseDigits_reverse, h.charAt_front 1]
  rfl

theorem extensionOf_eq : extensionOf name = ext := by
  have hlen := h.length_front
  have h8 := h.charAt_front 2
  rw [extensionOf, h8]
  by_cases he : ext = []
  · rw [if_pos he, he]
    exact if_neg (show (0 : UInt8) ≠ chr '.' by decide)
  · have hdrop : name.drop 9 = ext := by
      rw [h.eq, if_neg he, append_assoc (lead ++ digits), show 9 = (lead ++ digits).length + 3 by omega,
        ← drop_drop, drop_left]
      rfl
    rw [if_neg he, hdrop, take_of_length_le h.length_ext]
    exact if_pos rfl

theorem map_toUpper :
    Parts ctx (name.map toUpper) (lead.map toUpper) (digits.map toUpper) (toUpper last) (ext.map toUpper) where
  eq := by
    rw [h.eq]
    by_cases he : ext = [] <;> simp [he] <;> decide
  length_lead := by rw [length_map, h.length_lead]
  length_digits := by rw [length_map, h.length_digits]
  lead_ascii := by
    intro c hc
    obtain ⟨d, hd, rfl⟩ := mem_map.1 hc
    rw [flagAscii_toUpper, h.lead_ascii d hd]
  digits_base := by
    intro c hc
    obtain ⟨d, hd, rfl⟩ := mem_map.1 hc
    rw [flagBasechar_toUpper, h.digits_base d hd]
  last_base := by rw [flagBasechar_toUpper, h.last_base]
  ext_ascii := by
    intro c hc
    obtain ⟨d, hd, rfl⟩ := mem_map.1 hc
    rw [flagAscii_toUpper, h.ext_ascii d hd]
  length_ext := by rw [length_map]; exact h.length_ext

/-- The hash digits of the name in upper case are those of the number they spell. -/
theorem hashDigits_iff (hash : Nat) (hlt : hash < ctx.mangleModulus) :
    hashDigits (6 - ctx.manglePrefix) (hash / 36) = digits.map toUpper ∧ basechar (hash % 36) = toUpper last ↔
      hashOf ctx (name.map toUpper) = hash := by
  have hp := ctx.manglePrefix_le
  have hbase := h.last_base
  rw [h.map_toUpper.hashOf_eq]
  constructor
  · rintro ⟨hd, hl⟩
    have hdiv : hash / 36 < 36 ^ (6 - ctx.manglePrefix) := by
      rw [MangleContext.mangleModulus, show 7 - ctx.manglePrefix = 6 - ctx.manglePrefix + 1 by omega, Nat.pow_succ] at hlt
      omega
    rw [← hd, ← hl, spelled_hashDigits hdiv, (baseReverse_basechar _ (Nat.mod_lt _ (by decide))).1]
    omega
  · intro heq
    obtain ⟨hcanon, hlt36⟩ := basechar_baseReverse hbase
    have hdigits : ∀ c ∈ digits.map toUpper, basechar (baseReverse c) = c ∧ baseReverse c < 36 := by
      intro c hc
      obtain ⟨d, hd, rfl⟩ := mem_map.1 hc
      exact basechar_baseReverse (h.digits_base d hd)
    have hspell := hashDigits_spelled hdigits
    rw [length_map, h.length_digits] at hspell
    rw [← heq, show (baseReverse (toUpper last) + 36 * spelled (digits.map toUpper)) / 36 = spelled (digits.map toUpper)
      by omega, show (baseReverse (toUpper last) + 36 * spelled (digits.map toUpper)) % 36 = baseReverse (toUpper last)
      by omega]
    exact ⟨hspell, hcanon⟩

end Parts

/-! ## Extensions -/

variable {digits ext lead s : Text} {last : UInt8}

theorem splitLastDot_eq_none : splitLastDot s = none ↔ chr '.' ∉ s := by
  induction s with
  | nil => exact ⟨fun _ => not_mem_nil, fun _ => rfl⟩
  | cons c s ih =>
    rw [splitLastDot, mem_cons]
    cases hs : splitLastDot s with
    | some p => exact ⟨nofun, fun h => absurd (ih.2 fun hm => h (.inr hm)) (by rw [hs]; nofun)⟩
    | none =>
      by_cases hc : c = chr '.'
      · exact ⟨fun h => (nomatch (if_pos hc).symm.trans h), fun h => absurd (.inl hc.symm) h⟩
      · exact ⟨fun _ h => h.elim (fun he => hc he.symm) (ih.1 hs), fun _ => if_neg hc⟩

theorem splitLastDot_eq_some {base : Text} :
    splitLastDot s = some (base, ext) ↔ s = base ++ chr '.' :: ext ∧ chr '.' ∉ ext := by
  induction s generalizing base ext with
  | nil => exact ⟨nofun, fun h => by simp at h⟩
  | cons c s ih =>
    rw [splitLastDot]
    cases hs : splitLastDot s with
    | some p =>
      obtain ⟨hs', he⟩ := ih.1 hs
      constructor
      · intro h
        obtain ⟨rfl, rfl⟩ := Prod.mk.inj (Option.some.inj h)
        exact ⟨by rw [hs', cons_append], he⟩
      · rintro ⟨heq, hext⟩
        cases base with
        | nil =>
          obtain ⟨-, rfl⟩ := List.cons.inj heq
          rw [splitLastDot_eq_none.2 hext] at hs
          cases hs
        | cons c' base =>
          obtain ⟨rfl, htail⟩ := List.cons.inj heq
          obtain ⟨rfl, rfl⟩ := Prod.mk.inj (Option.some.inj (hs.symm.trans (ih.2 ⟨htail, hext⟩)))
          rfl
    | none =>
      have hno := splitLastDot_eq_none.1 hs
      constructor
      · intro h
        by_cases hc : c = chr '.'
        · obtain ⟨rfl, rfl⟩ := Prod.mk.inj (Option.some.inj ((if_pos hc).symm.trans h))
          exact ⟨by rw [hc, nil_append], hno⟩
        · exact (nomatch (if_neg hc).symm.trans h)
      · rintro ⟨heq, -⟩
        cases base with
        | nil =>
          obtain ⟨rfl, rfl⟩ := List.cons.inj heq
          rfl
        | cons c' base =>
          obtain ⟨-, rfl⟩ := List.cons.inj heq
          exact absurd (mem_append_right _ mem_cons_self) hno

theorem splitExtension_eq_some {base : Text} : splitExtension s = some (base, ext) ↔
      s = base ++ chr '.' :: ext ∧ (∀ c ∈ ext, flagAscii c = true) ∧ ext ≠ [] ∧ ext.length ≤ 3 := by
  have hvalid : ∀ e : Text, (((e.take 4).all flagAscii && e ≠ [] && e.length < 4 : Bool) = true) ↔
      (∀ c ∈ e, flagAscii c = true) ∧ e ≠ [] ∧ e.length ≤ 3 := by
    intro e
    simp only [Bool.and_eq_true, decide_eq_true_eq, all_eq_true]
    constructor
    · rintro ⟨⟨hall, hne⟩, hlen⟩
      rw [take_of_length_le (by omega)] at hall
      exact ⟨hall, hne, by omega⟩
    · rintro ⟨hall, hne, hlen⟩
      exact ⟨⟨fun c hc => hall c (mem_of_mem_take hc), hne⟩, by omega⟩
  have hdot : (∀ c ∈ ext, flagAscii c = true) → chr '.' ∉ ext := fun h hc => (not_dot_of_ascii (h _ hc)).1 rfl
  rw [splitExtension]
  cases hs : splitLastDot s with
  | none =>
    refine ⟨nofun, fun ⟨heq, hall, _⟩ => ?_⟩
    rw [splitLastDot_eq_some.2 ⟨heq, hdot hall⟩] at hs
    cases hs
  | some p =>
    dsimp only
    constructor
    · intro h
      split at h
      · next hv =>
        obtain ⟨rfl, rfl⟩ := Prod.mk.inj (Option.some.inj h)
        exact ⟨(splitLastDot_eq_some.1 hs).1, (hvalid _).1 hv⟩
      · cases h
    · rintro ⟨heq, hext⟩
      rw [splitLastDot_eq_some.2 ⟨heq, hdot hext.1⟩] at hs
      obtain ⟨rfl, rfl⟩ := Prod.mk.inj (Option.some.inj hs)
      exact if_pos ((hvalid _).2 hext)

theorem mapExtension_of_some {s base ext : Text} (h : splitExtension s = some (base, ext)) :
    mapExtension s = ext.map toUpper := by
  obtain ⟨-, hall, -, hlen⟩ := splitExtension_eq_some.1 h
  rw [mapExtension, h]
  dsimp only
  rw [filter_eq_self.2 hall, take_of_length_le hlen]

theorem mapExtension_eq_nil : mapExtension s = [] ↔ splitExtension s = none := by
  cases h : splitExtension s with
  | none => rw [mapExtension, h]; exact ⟨fun _ => rfl, fun _ => rfl⟩
  | some p =>
    rw [mapExtension_of_some h, map_eq_nil_iff]
    exact ⟨fun he => absurd he (splitExtension_eq_some.1 h).2.2.1, nofun⟩

/-- A name is its prefix, and a dot and its extension if it has one. -/
theorem take_prefixLen (s : Text) :
    s = s.take (prefixLen s) ∧ splitExtension s = none ∨
      ∃ ext, splitExtension s = some (s.take (prefixLen s), ext) := by
  cases h : splitExtension s with
  | none =>
    rw [prefixLen, h]
    exact .inl ⟨(take_length).symm, rfl⟩
  | some p =>
    obtain ⟨base, ext⟩ := p
    obtain ⟨heq, -⟩ := splitExtension_eq_some.1 h
    refine .inr ⟨ext, ?_⟩
    rw [prefixLen, h]
    show some (base, ext) = some (s.take base.length, ext)
    rw [heq, take_left]

/-! ## The mangled name -/

theorem length_leadChars (s : Text) : (leadChars ctx s).length = ctx.manglePrefix := by
  rw [leadChars, length_append, length_map, length_take, length_replicate]
  omega

theorem toUpper_leadChars (s : Text) : (leadChars ctx s).map toUpper = leadChars ctx s := by
  rw [leadChars, map_append, map_map, map_replicate]
  congr 1
  exact map_congr_left fun c _ => toUpper_toUpper _

theorem toUpper_mapExtension (s : Text) : (mapExtension s).map toUpper = mapExtension s := by
  cases h : splitExtension s with
  | none => rw [mapExtension_eq_nil.2 h]; rfl
  | some p =>
    rw [@mapExtension_of_some s p.1 p.2 h, map_map]
    exact map_congr_left fun c _ => toUpper_toUpper _

theorem toUpper_mangledName (s : Text) (hash : Nat) :
    (mangledName ctx s hash).map toUpper = mangledName ctx s hash := by
  rw [mangledName, map_append, map_append, map_append, toUpper_leadChars, toUpper_hashDigits]
  congr 1
  · rw [map_cons, map_singleton, (baseReverse_basechar _ (Nat.mod_lt _ (by decide))).2]
    rfl
  · split
    · rfl
    · rw [map_cons, toUpper_mapExtension]
      rfl

/-- A name is mangled to an 8.3 name exactly if the parts agree. -/
theorem Parts.eq_mangledName_iff (h : Parts ctx name lead digits last ext) (s : Text) (hash : Nat) :
    mangledName ctx s hash = name ↔ leadChars ctx s = lead ∧ hashDigits (6 - ctx.manglePrefix) (hash / 36) = digits ∧
      basechar (hash % 36) = last ∧ mapExtension s = ext := by
  have htail : ∀ e e' : Text, (if e = [] then [] else chr '.' :: e) = (if e' = [] then [] else chr '.' :: e') ↔ e = e' := by
    intro e e'
    by_cases he : e = [] <;> by_cases he' : e' = [] <;> simp [he, he', eq_comm]
  rw [h.eq, mangledName, append_assoc, append_assoc, append_assoc, append_assoc]
  constructor
  · intro heq
    obtain ⟨hl, heq⟩ := append_inj heq (by rw [length_leadChars, h.length_lead])
    obtain ⟨hd, heq⟩ := append_inj heq (by rw [length_hashDigits, h.length_digits])
    obtain ⟨hlast, heq⟩ := append_inj heq rfl
    exact ⟨hl, hd, (List.cons.inj (List.cons.inj hlast).2).1, (htail _ _).1 heq⟩
  · rintro ⟨rfl, rfl, rfl, rfl⟩
    rfl

/-! ## Converted names -/

/-- The name is one that `name_map` converts. -/
def Converted (s : Text) : Prop := isReservedName s = true ∨ is83 s false = false

theorem length_reserved (h : isReservedName s = true) : s.length ≤ 4 := by
  rw [isReservedName, Bool.and_eq_true, any_eq_true] at h
  obtain ⟨-, r, hr, heq⟩ := h
  have hsame : s.map toLower = r.map toLower := by simpa [strcasecmp] using heq
  have hlen : ∀ r ∈ reservedNames, r.length ≤ 4 := by decide
  have := congrArg List.length hsame
  rw [length_map, length_map] at this
  exact this ▸ hlen r hr

/-- The name that a long name is cached by, without its extension. -/
def stemOf (s : Text) : Text := s.take (prefixLen s)

/-- A cached prefix is not itself the front of a mangled name: a name with such a prefix is an 8.3 name. -/
theorem Converted.not_front (hconv : Converted s) (hascii : ∀ c ∈ stemOf s, flagAscii c = true) :
    (stemOf s).length ≠ 8 := by
  intro hlen
  have hs83 : is83 s false = true := by
    rcases take_prefixLen s with ⟨hs, -⟩ | ⟨ext, hext⟩
    · have := @is83_of_ascii _ [] hascii (le_of_eq hlen) nofun (Nat.zero_le _)
      rw [if_pos rfl, append_nil] at this
      rwa [stemOf, ← hs] at this
    · obtain ⟨hs, hall, hne, hle⟩ := splitExtension_eq_some.1 hext
      have := is83_of_ascii hascii (le_of_eq hlen) hall hle
      rw [if_neg hne, stemOf] at this
      rwa [← hs] at this
  rcases hconv with hr | h83
  · have := length_reserved hr
    rw [stemOf, length_take] at hlen
    omega
  · rw [hs83] at h83
    cases h83

/-! ## The call that filled a slot -/

/-- What stands behind a prefix: a dot and the extension, if there is one. -/
def dotted (ext : Text) : Text := if ext = [] then [] else chr '.' :: ext

/-- The hash of a prefix and of what is behind it: `pvfs_name_hash` counts characters, so that behind a prefix with
characters of more than one byte it reads on. -/
def stemHash (ctx : MangleContext) (stem rest : Text) : Nat :=
  (ctx.nameHash (stem ++ rest) stem.length).toNat % ctx.mangleModulus

/-- Whether a `name_map` call converts its name. -/
def converts (name : Text) (need83 : Bool) : Bool := isReservedName name || !is83 name false && (need83 || !isLegalName name)

/-- The name of the last call that converted one with a hash of this slot. -/
def filledBy (ctx : MangleContext) (calls : List (Text × Bool)) (slot : Nat) : Option Text :=
  (calls.reverse.find? fun call =>
    converts call.1 call.2 && mangleHash ctx call.1 (prefixLen call.1) % ctx.cacheSize == slot).map Prod.fst

theorem converted_of_converts {need83 : Bool} (h : converts s need83 = true) : Converted s := by
  rw [converts, Bool.or_eq_true, Bool.and_eq_true, Bool.not_eq_true'] at h
  exact h.imp_right And.left

theorem nameMap_cache (cache : PrefixCache) (s : Text) (need83 : Bool) :
    (nameMap ctx cache s need83 true).2 =
      if converts s need83 = true then cacheInsert ctx cache s (prefixLen s) (mangleHash ctx s (prefixLen s)) else cache := by
  rw [nameMap, converts]
  cases isReservedName s <;> cases is83 s false <;> cases need83 <;> cases isLegalName s <;> rfl

/-- What the cache holds is what the call that filled the slot put there. -/
theorem cacheAfter_eq (calls : List (Text × Bool)) (slot : Nat) :
    cacheAfter ctx calls slot =
      (filledBy ctx calls slot).map fun s => (stemOf s, mangleHash ctx s (prefixLen s)) := by
  induction calls using List.reverseRecOn with
  | nil => rfl
  | append_singleton calls call ih =>
    have hlast : cacheAfter ctx (calls ++ [call]) = (nameMap ctx (cacheAfter ctx calls) call.1 call.2 true).2 := by
      rw [cacheAfter, foldl_append]
      rfl
    rw [hlast, nameMap_cache, filledBy, reverse_append, reverse_singleton, singleton_append, List.find?_cons]
    cases hconv : converts call.1 call.2 with
    | false =>
      exact ih
    | true =>
      rw [if_pos rfl, Bool.true_and, cacheInsert, Function.update_apply]
      by_cases hslot : slot = mangleHash ctx call.1 (prefixLen call.1) % ctx.cacheSize
      · rw [if_pos hslot, ← hslot, beq_self_eq_true]
        rfl
      · rw [if_neg hslot, beq_false_of_ne (Ne.symm hslot)]
        exact ih

theorem filledBy_converted {calls : List (Text × Bool)} {slot : Nat} (h : filledBy ctx calls slot = some s) :
    Converted s := by
  obtain ⟨call, hcall, rfl⟩ := Option.map_eq_some_iff.1 h
  have := List.find?_some hcall
  rw [Bool.and_eq_true] at this
  exact converted_of_converts this.1

/-! ## Looking a short name up -/

/-- The long name that comes out of the cache has the short name that was looked up: the long name is one that is
converted, its leading characters are those of the short name, the hash digits spell its hash, and it has no extension
that the short name does not have. -/
structure LeadsBack (ctx : MangleContext) (key name : Text) : Prop where
  converted : Converted (longName key name)
  lead : leadChars ctx (longName key name) = (name.take ctx.manglePrefix).map toUpper
  hash : hashOf ctx (name.map toUpper) = mangleHash ctx (longName key name) (prefixLen (longName key name))
  extension : extensionOf name = [] → splitExtension (longName key name) = none

theorem shortName_of_converted (h : Converted s) :
    shortName ctx s = mangledName ctx s (mangleHash ctx s (prefixLen s)) := by
  rw [shortName, nameMap, if_neg]
  · rfl
  · rcases h with h | h <;> simp [h]

theorem shortName_of_not_converted (h : ¬Converted s) : shortName ctx s = s := by
  rw [Converted, not_or, Bool.not_eq_true, Bool.not_eq_false] at h
  rw [shortName, nameMap, if_pos (by simp [h.1, h.2])]
  rfl

theorem mangleHash_lt (s : Text) (len : Nat) : mangleHash ctx s len < ctx.mangleModulus :=
  Nat.mod_lt _ (Nat.pow_pos (by decide))

/-- The short name of what a cached prefix leads to is the one that was looked up, up to letter case, exactly if the
prefix leads back. -/
theorem leadsBack_iff {key : Text} (h : Parts ctx name lead digits last ext)
    (hs : Converted s) (hkey : stemOf s = key) :
    (shortName ctx (longName key name)).map toUpper = name.map toUpper ↔ LeadsBack ctx key name := by
  subst hkey
  have hext := h.extensionOf_eq
  have hupper := h.map_toUpper
  by_cases hconv : Converted (longName (stemOf s) name)
  · rw [shortName_of_converted hconv, toUpper_mangledName, hupper.eq_mangledName_iff]
    have hmap : mapExtension (longName (stemOf s) name) = ext.map toUpper ↔
        (extensionOf name = [] → splitExtension (longName (stemOf s) name) = none) := by
      rw [hext]
      by_cases he : ext = []
      · rw [he, map_nil, mapExtension_eq_nil]
        exact ⟨fun h _ => h, fun h => h rfl⟩
      · have hsome : splitExtension (longName (stemOf s) name) = some (stemOf s, ext) :=
          splitExtension_eq_some.2 ⟨by rw [longName, hext, if_neg he], h.ext_ascii, he, h.length_ext⟩
        exact ⟨fun _ he' => absurd he' he, fun _ => mapExtension_of_some hsome⟩
    rw [hmap]
    constructor
    · rintro ⟨hl, hd, hlast, he⟩
      exact ⟨hconv, by rw [h.take_manglePrefix, hl], (h.hashDigits_iff _ (mangleHash_lt _ _)).1 ⟨hd, hlast⟩, he⟩
    · rintro ⟨-, hl, hhash, he⟩
      obtain ⟨hd, hlast⟩ := (h.hashDigits_iff _ (mangleHash_lt _ _)).2 hhash
      exact ⟨by rw [hl, h.take_manglePrefix], hd, hlast, he⟩
  · refine ⟨fun heq => absurd heq ?_, fun hl => absurd hl.converted hconv⟩
    rw [shortName_of_not_converted hconv]
    intro heq
    -- the prefix would be the front of the mangled name
    have hlong : longName (stemOf s) name = stemOf s ++ if ext = [] then [] else chr '.' :: ext := by
      rw [longName, hext]
      split
      · rw [append_nil]
      · rfl
    rw [hlong, h.eq, map_append, map_append] at heq
    have hfront : (stemOf s).map toUpper = (lead ++ digits ++ [chr '~', last]).map toUpper := append_cancel_right heq
    have hlen := h.length_front
    refine hs.not_front (fun c hc => ?_) ?_
    · have : toUpper c ∈ (lead ++ digits ++ [chr '~', last]).map toUpper := hfront ▸ mem_map_of_mem hc
      obtain ⟨d, hd, hdc⟩ := mem_map.1 this
      rw [← flagAscii_toUpper, ← hdc, flagAscii_toUpper]
      rcases mem_append.1 hd with hd | hd
      · rcases mem_append.1 hd with hd | hd
        · exact h.lead_ascii d hd
        · exact ascii_of_basechar (h.digits_base d hd)
      · rcases mem_cons.1 hd with rfl | hd
        · decide
        · rw [mem_singleton.1 hd]; exact ascii_of_basechar h.last_base
    · have := congrArg List.length hfront
      rw [length_map, length_map, length_append, hlen] at this
      exact this

/-- The short name agrees with the call that filled its slot: a reserved name has no extension, and without one the
prefix is no name with an extension, nor `.` or `..`; the leading characters are those of the prefix, and of the short
name's own extension where the prefix is shorter; and the hash digits, lower case ones too, spell the hash of the
prefix. -/
structure Agrees (ctx : MangleContext) (s name : Text) : Prop where
  reserved : isReservedName s = true → extensionOf name = []
  bare : extensionOf name = [] → splitExtension (stemOf s) = none ∧ stemOf s ≠ [chr '.'] ∧ stemOf s ≠ [chr '.', chr '.']
  lead : (name.take ctx.manglePrefix).map toUpper =
    ((stemOf s).map (fun c => toUpper (if flagAscii c then c else chr '_')) ++
      (if extensionOf name = [] then [] else chr '_' :: (extensionOf name).map toUpper) ++
      List.replicate ctx.manglePrefix (chr '_')).take ctx.manglePrefix
  hash : hashOf ctx (name.map toUpper) = stemHash ctx (stemOf s) (dotted (extensionOf name))

theorem alnum_toLower (c : UInt8) : flagBasechar (toLower c) = flagBasechar c :=
  @forall_byte (fun c => flagBasechar (toLower c) = flagBasechar c) (by decide +kernel) c

theorem ascii_of_reserved (h : isReservedName s = true) : ∀ c ∈ s, flagAscii c = true := by
  intro c hc
  rw [isReservedName, Bool.and_eq_true, any_eq_true] at h
  obtain ⟨-, r, hr, heq⟩ := h
  have hsame : s.map toLower = r.map toLower := by simpa [strcasecmp] using heq
  have hbase : (reservedNames.all fun r => r.all flagBasechar) = true := by decide
  obtain ⟨d, hd, hdc⟩ := mem_map.1 (hsame ▸ mem_map_of_mem hc : toLower c ∈ r.map toLower)
  refine ascii_of_basechar ?_
  rw [← alnum_toLower, ← hdc, alnum_toLower]
  exact all_eq_true.1 (all_eq_true.1 hbase r hr) d hd

theorem not_dot_of_reserved (h : isReservedName s = true) : chr '.' ∉ s := fun hc =>
  (not_dot_of_ascii (ascii_of_reserved h _ hc)).1 rfl

theorem strchr_eq_some {c : UInt8} {k : Nat} (h : strchr s c = some k) :
    c ∉ s.take k ∧ s = s.take k ++ c :: s.drop (k + 1) := by
  obtain ⟨hlt, hidx, hbefore⟩ := List.findIdx?_eq_some_iff_getElem.1 h
  have hc : s[k] = c := of_decide_eq_true hidx
  refine ⟨fun hmem => ?_, ?_⟩
  · obtain ⟨i, hi, hget⟩ := mem_iff_getElem.1 hmem
    rw [length_take] at hi
    rw [getElem_take] at hget
    have := hbefore i (by omega)
    simp [hget] at this
  · rw [← hc, cons_getElem_drop_succ, take_append_drop]

/-- The parts of an 8.3 name: at most 8 characters, and an extension that `name_map` takes as one. -/
theorem parts_of_is83 (h : is83 s false = true) (hdot : s ≠ [chr '.']) (hdots : s ≠ [chr '.', chr '.']) :
    (chr '.' ∉ s ∧ (∀ c ∈ s, flagAscii c = true) ∧ s.length ≤ 8) ∨
      ∃ base ext, splitExtension s = some (base, ext) ∧ chr '.' ∉ base ∧ (∀ c ∈ base, flagAscii c = true) ∧
        base.length ≤ 8 := by
  have hchars := chars_of_is83 h
  rw [is83, if_neg (not_or.2 ⟨hdot, hdots⟩)] at h
  split at h
  · cases h
  · obtain ⟨hlens, -⟩ := Bool.and_eq_true_iff.1 h
    cases hs : strchr s (chr '.') with
    | none =>
      rw [hs] at hlens
      have hno := strchr_eq_none.1 hs
      exact .inl ⟨hno, fun c hc => (hchars c hc).resolve_right fun he => hno (he ▸ hc), of_decide_eq_true hlens⟩
    | some k =>
      rw [hs] at hlens
      simp only [Bool.and_eq_true, Bool.not_eq_true', Bool.or_eq_false_iff, decide_eq_false_iff_not,
        Option.isNone_iff_eq_none] at hlens
      obtain ⟨⟨⟨hk, h3⟩, h0⟩, hone⟩ := hlens
      obtain ⟨hfront, hsplit⟩ := strchr_eq_some hs
      have hback := strchr_eq_none.1 hone
      have hlen : s.length = k + 1 + (s.drop (k + 1)).length := by
        rw [length_drop]
        omega
      have hascii : ∀ t : Text, chr '.' ∉ t → (∀ c ∈ t, c ∈ s) → ∀ c ∈ t, flagAscii c = true :=
        fun t ht hsub c hc => (hchars c (hsub c hc)).resolve_right fun he => ht (he ▸ hc)
      refine .inr ⟨s.take k, s.drop (k + 1),
        splitExtension_eq_some.2 ⟨hsplit, hascii _ hback fun c => mem_of_mem_drop, ?_, ?_⟩,
        hfront, hascii _ hfront fun c => mem_of_mem_take, ?_⟩
      · intro hnil
        rw [hnil] at hlen
        simp only [length_nil] at hlen
        omega
      · omega
      · rw [length_take]
        omega

theorem longName_eq (key name : Text) : longName key name = key ++ dotted (extensionOf name) := by
  rw [longName, dotted]
  split
  · rw [append_nil]
  · rfl

/-- Whether the long name that comes out is converted, by the name of the call and the extension of the short name. -/
theorem converted_longName_iff (hs : Converted s) (hascii : ∀ c ∈ ext, flagAscii c = true) (hlen : ext.length ≤ 3) :
    Converted (stemOf s ++ dotted ext) ∧ (ext = [] → splitExtension (stemOf s ++ dotted ext) = none) ↔
      (isReservedName s = true → ext = []) ∧
        (ext = [] → splitExtension (stemOf s) = none ∧ stemOf s ≠ [chr '.'] ∧ stemOf s ≠ [chr '.', chr '.']) := by
  by_cases he : ext = []
  · subst he
    rw [dotted, if_pos rfl, append_nil]
    simp only [implies_true, true_and, forall_const]
    constructor
    · rintro ⟨hconv, hnone⟩
      refine ⟨hnone, fun hdot => ?_, fun hdots => ?_⟩
      · rw [hdot] at hconv
        exact absurd hconv (by rw [Converted]; decide)
      · rw [hdots] at hconv
        exact absurd hconv (by rw [Converted]; decide)
    · rintro ⟨hnone, hdot, hdots⟩
      refine ⟨?_, hnone⟩
      rcases take_prefixLen s with ⟨heq, -⟩ | ⟨e, hsome⟩
      · rw [stemOf, ← heq]
        exact hs
      · obtain ⟨heq, hall, hne, hle⟩ := splitExtension_eq_some.1 hsome
        rcases hs with hr | h83
        · exact absurd (heq ▸ mem_append_right _ mem_cons_self) (not_dot_of_reserved hr)
        · -- with its extension, an 8.3 prefix would be an 8.3 name
          refine .inr (Bool.eq_false_iff.2 fun hstem => ?_)
          rcases parts_of_is83 hstem hdot hdots with ⟨-, hchars, h8⟩ | ⟨base, ext, hsplit, -⟩
          · have := is83_of_ascii hchars h8 hall hle
            rw [if_neg hne, stemOf, ← heq, h83] at this
            cases this
          · rw [hnone] at hsplit
            cases hsplit
  · have hdotted : stemOf s ++ dotted ext = stemOf s ++ chr '.' :: ext := by rw [dotted, if_neg he]
    rw [hdotted]
    simp only [he, false_implies, and_true]
    have hmem : chr '.' ∈ stemOf s ++ chr '.' :: ext := mem_append_right _ mem_cons_self
    have hsplit : splitExtension (stemOf s ++ chr '.' :: ext) = some (stemOf s, ext) :=
      splitExtension_eq_some.2 ⟨rfl, hascii, he, hlen⟩
    have hnodots : stemOf s ++ chr '.' :: ext ≠ [chr '.'] ∧ stemOf s ++ chr '.' :: ext ≠ [chr '.', chr '.'] := by
      constructor
      · intro heq
        rw [heq, show splitExtension [chr '.'] = none by decide] at hsplit
        cases hsplit
      · intro heq
        rw [heq, show splitExtension [chr '.', chr '.'] = none by decide] at hsplit
        cases hsplit
    constructor
    · intro hconv hr
      have hconv := hconv.resolve_left fun h => not_dot_of_reserved h hmem
      have hchars : ∀ c ∈ stemOf s, flagAscii c = true := fun c hc => ascii_of_reserved hr c (mem_of_mem_take hc)
      have h8 : (stemOf s).length ≤ 8 := by
        have := length_reserved hr
        rw [stemOf, length_take]
        omega
      have := is83_of_ascii hchars h8 hascii hlen
      rw [if_neg he, hconv] at this
      cases this
    · intro hr
      have h83 := hs.resolve_left hr
      refine .inr (Bool.eq_false_iff.2 fun hlong => ?_)
      rcases parts_of_is83 hlong hnodots.1 hnodots.2 with ⟨hno, -⟩ | ⟨base, e, hparts, hbase, hchars, h8⟩
      · exact hno hmem
      · obtain ⟨rfl, rfl⟩ := Prod.mk.inj (Option.some.inj (hsplit.symm.trans hparts))
        -- the name of the call would be an 8.3 name too
        have hs83 : is83 s false = true := by
          rcases take_prefixLen s with ⟨heq, -⟩ | ⟨e', hsome⟩
          · have := @is83_of_ascii _ [] hchars h8 nofun (Nat.zero_le _)
            rw [if_pos rfl, append_nil, stemOf, ← heq] at this
            exact this
          · obtain ⟨heq, hall, hne, hle⟩ := splitExtension_eq_some.1 hsome
            have := is83_of_ascii hchars h8 hall hle
            rw [if_neg hne, stemOf, ← heq] at this
            exact this
        rw [hs83] at h83
        cases h83

/-- The leading characters of a prefix with an extension. -/
theorem leadChars_dotted (stem : Text) {ext : Text} (hascii : ∀ c ∈ ext, flagAscii c = true) :
    leadChars ctx (stem ++ dotted ext) =
      (stem.map (fun c => toUpper (if flagAscii c then c else chr '_')) ++
        (if ext = [] then [] else chr '_' :: ext.map toUpper) ++
        List.replicate ctx.manglePrefix (chr '_')).take ctx.manglePrefix := by
  have htail : (dotted ext).map (fun c => toUpper (if flagAscii c then c else chr '_')) =
      if ext = [] then [] else chr '_' :: ext.map toUpper := by
    rw [dotted]
    split
    · rfl
    · rw [map_cons]
      congr 1
      exact map_congr_left fun c hc => by rw [if_pos (hascii c hc)]
  rw [← htail, ← map_append]
  generalize stem ++ dotted ext = t
  rw [leadChars, take_append, length_map, ← map_take, take_replicate, Nat.min_eq_left (Nat.sub_le _ _)]

/-- A prefix leads back exactly if the short name agrees with the call that filled the slot. -/
theorem leadsBack_iff_agrees (h : Parts ctx name lead digits last ext)
    (hs : Converted s) : LeadsBack ctx (stemOf s) name ↔ Agrees ctx s name := by
  have hext := h.extensionOf_eq
  have hascii : ∀ c ∈ extensionOf name, flagAscii c = true := by
    rw [hext]
    exact h.ext_ascii
  have hlen : (extensionOf name).length ≤ 3 := by
    rw [hext]
    exact h.length_ext
  have hlong := longName_eq (stemOf s) name
  have hconv := converted_longName_iff hs hascii hlen
  rw [← hlong] at hconv
  have hlead := @leadChars_dotted ctx (stemOf s) _ hascii
  rw [← hlong] at hlead
  have hhash : (extensionOf name = [] → splitExtension (longName (stemOf s) name) = none) →
      mangleHash ctx (longName (stemOf s) name) (prefixLen (longName (stemOf s) name)) =
        stemHash ctx (stemOf s) (dotted (extensionOf name)) := by
    intro hnone
    have hlead : prefixLen (longName (stemOf s) name) = (stemOf s).length := by
      by_cases he : extensionOf name = []
      · rw [prefixLen, hnone he, hlong, he, dotted, if_pos rfl, append_nil]
        rfl
      · have hsplit : splitExtension (longName (stemOf s) name) = some (stemOf s, extensionOf name) := by
          rw [hlong, dotted, if_neg he]
          exact splitExtension_eq_some.2 ⟨rfl, hascii, he, hlen⟩
        rw [prefixLen, hsplit]
        rfl
    rw [hlead, mangleHash, stemHash, hlong]
  constructor
  · rintro ⟨hc, hl, hh, he⟩
    obtain ⟨hreserved, hbare⟩ := hconv.1 ⟨hc, he⟩
    exact ⟨hreserved, hbare, hl.symm.trans hlead, hh.trans (hhash he)⟩
  · rintro ⟨hreserved, hbare, hl, hh⟩
    obtain ⟨hc, he⟩ := hconv.2 ⟨hreserved, hbare⟩
    exact ⟨hc, hlead.trans hl.symm, hh.trans (hhash he).symm, he⟩

/-- After any `name_map` calls, a lookup of an 8.3 name gives no name with another short name exactly if it misses the
cache or agrees with the call that filled its slot. -/
theorem checkCache_sameName_iff (ctx : MangleContext) (calls : List (Text × Bool)) (name : Text)
    (h83 : is83 name false = true) :
    (∀ r, checkCache ctx (cacheAfter ctx calls) name = some r →
        (shortName ctx r).map toUpper = name.map toUpper) ↔
      (isMangled ctx name = true → ∀ s, filledBy ctx calls (hashOf ctx name % ctx.cacheSize) = some s →
        hashOf ctx name = mangleHash ctx s (prefixLen s) → Agrees ctx s name) := by
  cases hm : isMangled ctx name with
  | false => exact ⟨fun _ h => (nomatch h), fun _ r hr => by simp [checkCache, hm] at hr⟩
  | true =>
    obtain ⟨lead, digits, last, ext, hparts⟩ := exists_parts h83 hm
    -- a hit gives the prefix of the name that filled the slot
    have hcheck : ∀ r, checkCache ctx (cacheAfter ctx calls) name = some r ↔
        ∃ s, filledBy ctx calls (hashOf ctx name % ctx.cacheSize) = some s ∧
          hashOf ctx name = mangleHash ctx s (prefixLen s) ∧ longName (stemOf s) name = r := by
      intro r
      rw [checkCache, hm, Bool.not_true, if_neg Bool.false_ne_true, cacheLookup, cacheAfter_eq]
      cases filledBy ctx calls (hashOf ctx name % ctx.cacheSize) with
      | none => simp
      | some s =>
        simp only [Option.map_some, Option.some.injEq, exists_eq_left']
        split
        · next hne => simp [hne]
        · next heq => simp [not_not.1 heq]
    constructor
    · intro h _ s hs hhash
      have hconv := filledBy_converted hs
      exact (leadsBack_iff_agrees hparts hconv).1
        ((leadsBack_iff hparts hconv rfl).1 (h _ ((hcheck _).2 ⟨s, hs, hhash, rfl⟩)))
    · intro h r hr
      obtain ⟨s, hs, hhash, rfl⟩ := (hcheck r).1 hr
      have hconv := filledBy_converted hs
      exact (leadsBack_iff hparts hconv rfl).2 ((leadsBack_iff_agrees hparts hconv).2 (h rfl s hs hhash))

/-- `pvfs_name_hash` for names of ascii characters. -/
def asciiNameHash (key : Text) (length : Nat) : UInt32 :=
  (key.take length).foldl (fun value c => value * 0x01000193 ^^^ (toUpper c).toUInt32) 0xa6b93095

/-- The default context. -/
def defaultMangle : MangleContext := ⟨asciiNameHash, 4, 512, by decide, by decide, by decide⟩

/-- Three names that are converted, a reserved one among them, and one that is legal as it stands. -/
def sampleCalls : List (Text × Bool) :=
  [(text "long name.txt", true), (text "a.b.c", true), (text "con", false), (text "short.txt", true)]

theorem checkCache_sameName_sample :
    (shortName defaultMangle (text "long name.TXT")).map toUpper = (text "LoNG8R~K.TXT").map toUpper := by
  have hhit : checkCache defaultMangle (cacheAfter defaultMangle sampleCalls) (text "LoNG8R~K.TXT") =
      some (text "long name.TXT") := by decide +kernel
  have hfilled : filledBy defaultMangle sampleCalls (hashOf defaultMangle (text "LoNG8R~K.TXT") % 512) =
      some (text "long name.txt") := by decide +kernel
  refine (checkCache_sameName_iff defaultMangle sampleCalls (text "LoNG8R~K.TXT") (by decide +kernel)).2
    (fun _ s hs _ => ?_) _ hhit
  obtain rfl := Option.some.inj (hfilled.symm.trans hs)
  exact ⟨by decide +kernel, by decide +kernel, by decide +kernel, by decide +kernel⟩

/-- The leading characters of a short name are not compared. -/
theorem forged_leadChars :
    is83 (text "EVIL8R~K.TXT") false = true ∧
      checkCache defaultMangle (cacheAfter defaultMangle sampleCalls) (text "EVIL8R~K.TXT") = some (text "long name.TXT") ∧
      shortName defaultMangle (text "long name.TXT") = text "LONG8R~K.TXT" ∧
      (shortName defaultMangle (text "long name.TXT")).map toUpper ≠ (text "EVIL8R~K.TXT").map toUpper := by
  decide +kernel

end Samba.Ntvfs
