/-
Which texts are parsed as SIDs, and as which ones (libcli/security/dom_sid.c).
-/
import Samba.Security.Text

namespace Samba.Security

open CString List Option

/-! ## Numbers as they are written -/

/-- The text of a number, in its parts. -/
structure NumberParts where
  space : Text
  sign : Text
  digits : Text
  neg : Bool
  isNumber : NumberText space sign digits neg

namespace NumberParts

def text (n : NumberParts) : Text := n.space ++ (n.sign ++ n.digits)

/-- What `strtol` makes of the number. -/
def long (n : NumberParts) : Int :=
  if n.neg then -(min (digitsValue 10 0 n.digits) (2 ^ 63) : Nat) else (min (digitsValue 10 0 n.digits) (2 ^ 63 - 1) : Nat)

/-- What `strtoul` makes of the number. -/
def ulong (n : NumberParts) : Nat :=
  if 2 ^ 64 ≤ digitsValue 10 0 n.digits then 2 ^ 64 - 1
  else if n.neg then (2 ^ 64 - digitsValue 10 0 n.digits) % 2 ^ 64
  else digitsValue 10 0 n.digits

variable {n : NumberParts} {rest : Text}

theorem scanBase_text (hrest : startsWithDigit 10 rest = false) :
    scanBase 10 (n.text ++ rest) = some (n.neg, digitsValue 10 0 n.digits, rest) := by
  rw [text, append_assoc, append_assoc]
  exact scanBase_number n.isNumber hrest

theorem strtol_text (hrest : startsWithDigit 10 rest = false) : strtol 10 (n.text ++ rest) = (n.long, rest) := by
  rw [strtol, scanBase_text hrest]
  rfl

theorem strtoul_text (hrest : startsWithDigit 10 rest = false) : strtoul 10 (n.text ++ rest) = (n.ulong, rest) := by
  rw [strtoul, scanBase_text hrest]
  rfl

theorem text_ne (n : NumberParts) (rest : Text) : rest ≠ n.text ++ rest := by
  intro h
  have hlength := congrArg List.length h
  have hpos := length_pos_iff.mpr n.isNumber.ne
  simp only [text, length_append] at hlength
  omega

theorem minus_notMem (h : n.neg = false) : chr '-' ∉ n.text := by
  intro hmem
  rw [text, mem_append, mem_append] at hmem
  rcases hmem with hmem | hmem | hmem
  · exact absurd (n.isNumber.space _ hmem) (by decide)
  · rcases n.isNumber.sign with ⟨hsign, -⟩ | ⟨hsign, -⟩ | ⟨-, hneg⟩
    · rw [hsign] at hmem
      exact (nomatch hmem)
    · rw [hsign] at hmem
      exact absurd hmem (by decide)
    · exact absurd (h.symm.trans hneg) Bool.false_ne_true
  · exact (n.isNumber.digits _ hmem).not_space_sign.2.1 rfl

theorem minus_mem (h : n.neg = true) : chr '-' ∈ n.text := by
  rcases n.isNumber.sign with ⟨-, hneg⟩ | ⟨-, hneg⟩ | ⟨hsign, -⟩
  · exact absurd (hneg.symm.trans h) Bool.false_ne_true
  · exact absurd (hneg.symm.trans h) Bool.false_ne_true
  · rw [text, hsign]
    simp

/-- A number that is found is written at the start of the text. -/
theorem exists_of_scanBase {s rest : Text} {neg : Bool} {value : Nat} (h : scanBase 10 s = some (neg, value, rest)) :
    ∃ n : NumberParts, s = n.text ++ rest ∧ startsWithDigit 10 rest = false := by
  obtain ⟨space, sign, ds, rfl, hnumber, hrest, -⟩ := scanBase_eq_some h
  exact ⟨⟨space, sign, ds, neg, hnumber⟩, by rw [text, append_assoc, append_assoc], hrest⟩

end NumberParts

/-- Where the end of a number has moved, there is a number. -/
theorem exists_of_strtoul {s : Text} (h : (strtoul 10 s).2 ≠ s) :
    ∃ (n : NumberParts) (rest : Text), s = n.text ++ rest ∧ startsWithDigit 10 rest = false := by
  rw [strtoul] at h
  cases hscan : scanBase 10 s with
  | none =>
    rw [hscan] at h
    exact absurd rfl h
  | some result =>
    obtain ⟨neg, value, rest⟩ := result
    obtain ⟨n, hn⟩ := NumberParts.exists_of_scanBase hscan
    exact ⟨n, rest, hn⟩

theorem strtol_cases (s : Text) :
    (∃ (n : NumberParts) (rest : Text), s = n.text ++ rest ∧ startsWithDigit 10 rest = false) ∨
      scanBase 10 s = none ∧ strtol 10 s = (0, s) := by
  rw [strtol]
  cases hscan : scanBase 10 s with
  | none => exact .inr ⟨rfl, rfl⟩
  | some result =>
    obtain ⟨neg, value, rest⟩ := result
    obtain ⟨n, hn⟩ := NumberParts.exists_of_scanBase hscan
    exact .inl ⟨n, rest, hn⟩

/-- A hyphen is the sign of a number where a digit is behind it. -/
theorem scanBase_minus (p : Text) : scanBase 10 (chr '-' :: p) = none ↔ startsWithDigit 10 p = false := by
  have hskip : skipBase 10 p = p := by
    rw [skipBase.eq_def]
    split
    · rw [if_neg (by simp)]
    · rfl
  rw [scanBase, dropWhile_cons_of_neg (by decide), splitSign, if_pos rfl]
  dsimp only
  rw [hskip]
  cases startsWithDigit 10 p <;> simp

theorem startsWithDigit_text (n : NumberParts) (rest : Text) :
    startsWithDigit 10 (n.text ++ rest) = startsWithDigit 10 n.text := by
  have hne : n.text ≠ [] := by
    intro h
    have hempty := append_eq_nil_iff.mp (append_eq_nil_iff.mp h).2
    exact n.isNumber.ne hempty.2
  obtain ⟨c, cs, hcs⟩ := exists_cons_of_ne_nil hne
  rw [hcs]
  rfl

/-! ## Texts of SIDs -/

/-- A text that is accepted, in its parts: `S-R-A`, a `-N` for each sub-authority, and what is not looked at. -/
structure SidText where
  letter : UInt8
  rev : Option NumberParts
  authority : NumberParts
  subAuths : List NumberParts
  tail : Text
  letter_eq : letter = chr 'S' ∨ letter = chr 's'
  /-- Without a revision, the hyphens in front of the authority are not a sign of it. -/
  authority_start : rev = none → startsWithDigit 10 authority.text = false
  subAuths_neg : ∀ n ∈ subAuths, n.neg = false
  tail_minus : chr '-' ∉ tail
  tail_digit : startsWithDigit 10 tail = false

namespace SidText

/-- The sub-authorities with their hyphens. -/
def subAuthsText (subAuths : List NumberParts) (tail : Text) : Text := subAuths.flatMap (fun n => chr '-' :: n.text) ++ tail

def text (t : SidText) : Text :=
  t.letter :: chr '-' :: (((t.rev.map NumberParts.text).getD []) ++
    chr '-' :: (t.authority.text ++ subAuthsText t.subAuths t.tail))

/-- The SID of a text. -/
def sid (t : SidText) : DomSid :=
  .ofSubAuths (UInt8.ofNat (((t.rev.map NumberParts.long).getD 0) % 2 ^ 32).toNat)
    (idAuthOf (UInt32.ofNat (t.authority.long % 2 ^ 32).toNat)) (t.subAuths.map fun n => UInt32.ofNat n.ulong)

theorem subAuthsText_cons (n : NumberParts) (subAuths : List NumberParts) (tail : Text) :
    subAuthsText (n :: subAuths) tail = chr '-' :: (n.text ++ subAuthsText subAuths tail) := by
  rw [subAuthsText, flatMap_cons, cons_append, cons_append, append_assoc, ← subAuthsText]

theorem subAuthsText_digit {tail : Text} (subAuths : List NumberParts) (h : startsWithDigit 10 tail = false) :
    startsWithDigit 10 (subAuthsText subAuths tail) = false := by
  cases subAuths with
  | nil => exact h
  | cons n subAuths =>
    rw [subAuthsText_cons]
    exact minus_not_digit

theorem count_subAuthsText {subAuths : List NumberParts} {tail : Text} (hneg : ∀ n ∈ subAuths, n.neg = false)
    (htail : chr '-' ∉ tail) : (subAuthsText subAuths tail).count (chr '-') = subAuths.length := by
  induction subAuths with
  | nil => exact count_eq_zero_of_not_mem htail
  | cons n subAuths ih =>
    obtain ⟨hn, hrest⟩ := forall_mem_cons.mp hneg
    rw [subAuthsText_cons, count_cons_self, count_append, count_eq_zero_of_not_mem (NumberParts.minus_notMem hn),
      Nat.zero_add, ih hrest, length_cons]

theorem parseSubAuths_subAuthsText {tail : Text} (subAuths : List NumberParts) (h : startsWithDigit 10 tail = false) :
    parseSubAuths subAuths.length (subAuthsText subAuths tail) = some (subAuths.map fun n => UInt32.ofNat n.ulong) := by
  induction subAuths with
  | nil => rfl
  | cons n subAuths ih =>
    rw [subAuthsText_cons, length_cons, parseSubAuths, if_neg (not_not.mpr rfl),
      NumberParts.strtoul_text (subAuthsText_digit subAuths h)]
    dsimp only
    rw [if_neg (n.text_ne _), ih]
    rfl

theorem parseSubAuths_count {n : Nat} {p : Text} {subs : List UInt32} (h : parseSubAuths n p = some subs) :
    n ≤ p.count (chr '-') := by
  induction n generalizing p subs with
  | zero => exact Nat.zero_le _
  | succ n ih =>
    match p with
    | [] => cases h
    | c :: s =>
      rw [parseSubAuths] at h
      split at h
      · cases h
      next hc =>
      dsimp only at h
      split at h
      · cases h
      obtain ⟨rest, hrest, -⟩ := map_eq_some_iff.mp h
      have hcount := ih hrest
      have hsuffix := (strtoul_suffix 10 s).sublist.count_le (chr '-')
      rw [not_not.mp hc, count_cons_self]
      omega

/-- The sub-authorities that are read are written one behind the other. With as many hyphens as sub-authorities, there is none in the
numbers and none behind them. -/
theorem exists_of_parseSubAuths {n : Nat} {p : Text} {subs : List UInt32} (h : parseSubAuths n p = some subs)
    (hcount : p.count (chr '-') = n) (hdigit : startsWithDigit 10 p = false) :
    ∃ (subAuths : List NumberParts) (tail : Text), p = subAuthsText subAuths tail ∧ (∀ n ∈ subAuths, n.neg = false) ∧
      chr '-' ∉ tail ∧ startsWithDigit 10 tail = false := by
  induction n generalizing p subs with
  | zero => exact ⟨[], p, rfl, by simp, count_eq_zero.mp hcount, hdigit⟩
  | succ n ih =>
    match p with
    | [] => cases h
    | c :: s =>
      rw [parseSubAuths] at h
      split at h
      · cases h
      next hc =>
      obtain rfl := not_not.mp hc
      dsimp only at h
      split at h
      · cases h
      next hmoved =>
      obtain ⟨number, rest, rfl, hrest⟩ := exists_of_strtoul hmoved
      rw [NumberParts.strtoul_text hrest] at h
      obtain ⟨subs', hsubs, -⟩ := map_eq_some_iff.mp h
      dsimp only at hsubs
      have hleast := parseSubAuths_count hsubs
      rw [count_cons_self, count_append] at hcount
      have hneg : number.neg = false := by
        by_contra hneg
        have := count_pos_iff.mpr (NumberParts.minus_mem (Bool.of_not_eq_false hneg))
        omega
      obtain ⟨subAuths, tail, rfl, hnegs, htail⟩ := ih hsubs (by omega) hrest
      exact ⟨number :: subAuths, tail, (subAuthsText_cons _ _ _).symm, forall_mem_cons.mpr ⟨hneg, hnegs⟩, htail⟩

/-! ## What is accepted -/

theorem toUpper_iff (c : UInt8) : (toUpper c = toUpper (chr 'S') ↔ c = chr 'S' ∨ c = chr 's') ∧
    (toUpper c = toUpper (chr '-') ↔ c = chr '-') := by
  revert c
  exact forall_byte (by decide +kernel)

theorem samePrefixCase_iff (s : Text) :
    samePrefixCase 2 s [chr 'S', chr '-'] = true ↔ ∃ c rest, s = c :: chr '-' :: rest ∧ (c = chr 'S' ∨ c = chr 's') := by
  match s with
  | [] => simp [samePrefixCase]
  | [c] => simp [samePrefixCase]
  | c :: d :: rest =>
    have hc := (toUpper_iff c).1
    have hd := (toUpper_iff d).2
    simp [samePrefixCase, hc, hd]
    tauto

theorem domSidParse_text (t : SidText) : domSidParse t.text = some t.sid := by
  have hprefix : samePrefixCase 2 t.text [chr 'S', chr '-'] = true := (samePrefixCase_iff _).mpr ⟨_, _, rfl, t.letter_eq⟩
  have hdigit := subAuthsText_digit t.subAuths t.tail_digit
  have hrev : strtol 10 (t.text.drop 2) =
      ((t.rev.map NumberParts.long).getD 0, chr '-' :: (t.authority.text ++ subAuthsText t.subAuths t.tail)) := by
    rw [text, drop_succ_cons, drop_succ_cons, drop_zero]
    cases hopt : t.rev with
    | some n => exact NumberParts.strtol_text minus_not_digit
    | none =>
      -- the hyphen is no sign here: no digit is behind it
      have hscan := (scanBase_minus (t.authority.text ++ subAuthsText t.subAuths t.tail)).mpr
        ((startsWithDigit_text _ _).trans (t.authority_start hopt))
      rw [map_none, getD_none, nil_append, strtol, hscan]
      rfl
  rw [domSidParse, hprefix, hrev]
  dsimp only
  rw [if_neg (by decide), if_neg (not_not.mpr rfl), NumberParts.strtol_text hdigit]
  dsimp only
  rw [if_neg (t.authority.text_ne _), count_subAuthsText t.subAuths_neg t.tail_minus,
    parseSubAuths_subAuthsText _ t.tail_digit, map_some]
  rfl

theorem exists_of_domSidParse {s : Text} {sid : DomSid} (h : domSidParse s = some sid) : ∃ t : SidText, t.text = s := by
  rw [domSidParse] at h
  split at h
  · cases h
  next hprefix =>
  obtain ⟨c, rest, rfl, hc⟩ := (samePrefixCase_iff s).mp (by simpa using hprefix)
  rw [drop_succ_cons, drop_succ_cons, drop_zero] at h
  -- what stands in front of the hyphen is a number, or nothing
  obtain ⟨rev, behind, hrest, hrev, hnone⟩ : ∃ (rev : Option NumberParts) (behind : Text),
      rest = (rev.map NumberParts.text).getD [] ++ behind ∧ (strtol 10 rest).2 = behind ∧
        (rev = none → scanBase 10 rest = none) := by
    rcases strtol_cases rest with ⟨n, behind, rfl, hdigit⟩ | ⟨hscan, hstay⟩
    · exact ⟨some n, behind, rfl, by rw [NumberParts.strtol_text hdigit], by rintro ⟨⟩⟩
    · exact ⟨none, rest, rfl, by rw [hstay], fun _ => hscan⟩
  generalize hlong : strtol 10 rest = result at h hrev
  obtain ⟨long, p⟩ := result
  obtain rfl := hrev
  cases p with
  | nil => cases h
  | cons d s =>
    dsimp only at h
    split at h
    · cases h
    next hd =>
    obtain rfl := not_not.mp hd
    rcases strtol_cases s with ⟨authority, behind, rfl, hdigit⟩ | ⟨-, hstay⟩
    · rw [NumberParts.strtol_text hdigit] at h
      dsimp only at h
      split at h
      · cases h
      obtain ⟨subs, hsubs, -⟩ := map_eq_some_iff.mp h
      obtain ⟨subAuths, tail, rfl, hneg, hminus, htail⟩ := exists_of_parseSubAuths hsubs rfl hdigit
      have hstart : rev = none → startsWithDigit 10 authority.text = false := by
        rintro rfl
        -- otherwise the hyphen would have been the sign of a number
        have hscan := hnone rfl
        rw [hrest, map_none, getD_none, nil_append, scanBase_minus, startsWithDigit_text] at hscan
        exact hscan
      refine ⟨⟨c, rev, authority, subAuths, tail, hc, hstart, hneg, hminus, htail⟩, ?_⟩
      exact congrArg (fun rest => c :: chr '-' :: rest) hrest.symm
    · rw [hstay] at h
      dsimp only at h
      rw [if_pos rfl] at h
      cases h

theorem domSidParse_eq_some_iff (s : Text) (sid : DomSid) :
    domSidParse s = some sid ↔ ∃ t : SidText, t.text = s ∧ t.sid = sid := by
  constructor
  · intro h
    obtain ⟨t, rfl⟩ := exists_of_domSidParse h
    exact ⟨t, rfl, Option.some.inj ((domSidParse_text t).symm.trans h)⟩
  · rintro ⟨t, rfl, rfl⟩
    exact domSidParse_text t

end SidText

/-- A SID with a short authority and at most 127 sub-authorities is parsed from what is printed; and the texts that are accepted are
those of `SidText`, with the numbers of their parts. -/
theorem domSidParse_accepts (sid : DomSid) (h0 : 0 ≤ sid.numAuths) (h : sid.numAuths < 2 ^ 7) (hauth : ShortAuth sid.idAuth) :
    domSidParse (domSidString sid) = some sid ∧
      ∀ s sid', domSidParse s = some sid' ↔ ∃ t : SidText, t.text = s ∧ t.sid = sid' :=
  ⟨domSidParse_domSidString h0 h hauth, SidText.domSidParse_eq_some_iff⟩

/-- The SID S-1-5-32-544. -/
theorem builtinAdministrators_parsed :
    domSidParse (domSidString (.ofSubAuths 1 (idAuthOf 5) [32, 544])) = some (.ofSubAuths 1 (idAuthOf 5) [32, 544]) :=
  (domSidParse_accepts (.ofSubAuths 1 (idAuthOf 5) [32, 544]) (by decide) (by decide) (shortAuth_idAuthOf 5)).1

/-- `S-R-A` and a `-N` for each sub-authority, in decimal digits. -/
def PlainSidText (s : Text) : Prop :=
  ∃ (r a : Text) (subs : List Text), (∀ ds ∈ r :: a :: subs, ds ≠ [] ∧ ∀ c ∈ ds, IsDigitOf 10 c) ∧
    s = chr 'S' :: chr '-' :: (r ++ chr '-' :: (a ++ subs.flatMap fun sub => chr '-' :: sub))

/-- What is behind the last number is not looked at. -/
theorem behindNumber_accepted : ¬∀ s sid, domSidParse s = some sid → PlainSidText s := by
  intro h
  have hparse : domSidParse ("S-1-5x".toList.map chr) = some (.ofSubAuths 1 (idAuthOf 5) []) := by decide
  obtain ⟨r, a, subs, hdigits, htext⟩ := h _ _ hparse
  have hmem : chr 'x' ∈ "S-1-5x".toList.map chr := by decide
  have hdigit : ¬IsDigitOf 10 (chr 'x') := by
    rintro ⟨d, hd, hlt⟩
    rw [show digitVal (chr 'x') = some 33 by decide] at hd
    exact absurd (Option.some.inj hd) (by omega)
  have hrev := hdigits r (by simp)
  have hauthority := hdigits a (by simp)
  have hsub := fun sub hsub => hdigits sub (mem_cons_of_mem _ (mem_cons_of_mem _ hsub))
  rw [htext] at hmem
  simp only [mem_cons, mem_append, mem_flatMap] at hmem
  rcases hmem with hmem | hmem | hmem | hmem | hmem | ⟨sub, hin, hmem | hmem⟩
  · exact absurd hmem (by decide)
  · exact absurd hmem (by decide)
  · exact hdigit (hrev.2 _ hmem)
  · exact absurd hmem (by decide)
  · exact hdigit (hauthority.2 _ hmem)
  · exact absurd hmem (by decide)
  · exact hdigit ((hsub sub hin).2 _ hmem)

end Samba.Security
