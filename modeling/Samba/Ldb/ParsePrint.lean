/-
Printing a filter and parsing it again (`ldb_filter_from_tree` and `ldb_parse_tree`): every tree that the parser builds has
a text that is read back as the same tree.
-/
import Samba.Ldb.ParseGrammar

namespace Samba.Ldb

open CString List Option

/-! ## Encoded values -/

theorem hex_classes (c : UInt8) :
    ((encodeByte c = [c] ∧ c ≠ chr '\\' ∧ c ≠ chr '*' ∧ c ≠ chr ')' ∧ isSpace c = false) ∨
      encodeByte c = [chr '\\', hexUpper (c / 16), hexUpper (c % 16)]) ∧
    ((c < 16 → hexDigit (hexUpper c) = some c ∧ isSpace (hexUpper c) = false) ∧
      hexUpper (c % 16) ∉ "+-xX\\*)".toList.map chr) ∧
    (c / 16 < 16 ∧ c % 16 < 16 ∧ 16 * (c / 16) + c % 16 = c ∧ c / 16 % 16 = c / 16) := by
  have hplain : ∀ c : UInt8, isPrint c = true → c ∉ filterSpecial → isSpace c = false := forall_byte (by decide +kernel)
  have hspecial : ∀ d ∈ [chr '\\', chr '*', chr ')'], d ∈ filterSpecial := forall_entry (by decide +kernel)
  have hdigit : ∀ d < 16, (hexDigit (hexUpper (UInt8.ofNat d)) = some (UInt8.ofNat d) ∧ isSpace (hexUpper (UInt8.ofNat d)) = false) ∧
      hexUpper (UInt8.ofNat d) ∉ "+-xX\\*)".toList.map chr := by decide +kernel
  have hlt : ∀ c : UInt8, c < 16 → (hexDigit (hexUpper c) = some c ∧ isSpace (hexUpper c) = false) ∧
      hexUpper c ∉ "+-xX\\*)".toList.map chr := by
    intro c hc
    have h := hdigit c.toNat (UInt8.lt_iff_toNat_lt.mp hc)
    rwa [UInt8.ofNat_toNat] at h
  have hmod : c % 16 < 16 := by
    rw [UInt8.lt_iff_toNat_lt, UInt8.toNat_mod]
    exact Nat.mod_lt _ (by decide)
  refine ⟨?_, ⟨fun h => (hlt c h).1, (hlt _ hmod).2⟩, ?_⟩
  · unfold encodeByte
    split
    · exact Or.inr rfl
    · next h =>
      rw [Bool.or_eq_true, not_or, Bool.not_eq_true', Bool.not_eq_false, contains_iff_mem] at h
      refine Or.inl ⟨rfl, ?_, ?_, ?_, hplain c h.1 h.2⟩
      all_goals
        rintro rfl
        exact h.2 (hspecial _ (by simp))
  · have h16 : (16 : UInt8).toNat = 16 := rfl
    have hc := c.toNat_lt
    simp only [UInt8.lt_iff_toNat_lt, ← UInt8.toNat_inj, UInt8.toNat_add, UInt8.toNat_mul, UInt8.toNat_mod, UInt8.toNat_div, h16]
    omega

/-- A byte is written as itself, or as a backslash and its two digits. -/
theorem encodeByte_cases (c : UInt8) :
    (encodeByte c = [c] ∧ c ≠ chr '\\' ∧ c ≠ chr '*' ∧ c ≠ chr ')' ∧ isSpace c = false) ∨
      encodeByte c = [chr '\\', hexUpper (c / 16), hexUpper (c % 16)] := (hex_classes c).1

example : encodeByte (chr '*') = [chr '\\', chr '2', chr 'A'] := by
  decide +kernel

theorem hexUpper_spec (c : UInt8) : (c < 16 → hexDigit (hexUpper c) = some c ∧ isSpace (hexUpper c) = false) ∧
    hexUpper (c % 16) ∉ "+-xX\\*)".toList.map chr := (hex_classes c).2.1

theorem digits_lt (c : UInt8) : c / 16 < 16 ∧ c % 16 < 16 ∧ 16 * (c / 16) + c % 16 = c ∧ c / 16 % 16 = c / 16 :=
  (hex_classes c).2.2

theorem hexUpper_ne (c : UInt8) {d : UInt8} (hd : d ∈ "+-xX\\*)".toList.map chr) :
    hexUpper (c / 16) ≠ d ∧ hexUpper (c % 16) ≠ d := by
  have hhigh := (hexUpper_spec (c / 16)).2
  rw [(digits_lt c).2.2.2] at hhigh
  exact ⟨fun h => hhigh (h ▸ hd), fun h => (hexUpper_spec c).2 (h ▸ hd)⟩

theorem scanHex_digits (c : UInt8) (s : Text) : scanHex (hexUpper (c / 16) :: hexUpper (c % 16) :: s) = some c := by
  obtain ⟨hlt, hlt', heq, -⟩ := digits_lt c
  obtain ⟨hhigh, hspace⟩ := (hexUpper_spec (c / 16)).1 hlt
  obtain ⟨hlow, -⟩ := (hexUpper_spec (c % 16)).1 hlt'
  have hskip : (hexUpper (c / 16) :: hexUpper (c % 16) :: s).dropWhile isSpace = hexUpper (c / 16) :: hexUpper (c % 16) :: s :=
    dropWhile_cons_of_neg (by rw [hspace]; decide)
  rw [scanHex, hskip]
  dsimp only
  rw [if_neg (hexUpper_ne c (by decide)).1, if_neg (hexUpper_ne c (by decide)).1, hhigh]
  dsimp only
  rw [if_neg (fun h => h.2.elim (hexUpper_ne c (by decide)).2 (hexUpper_ne c (by decide)).2), hlow]
  dsimp only
  rw [heq]

theorem decodeBytes_cons {c : UInt8} (hc : c ≠ chr '\\') (s : Text) : decodeBytes (c :: s) = (decodeBytes s).map (c :: ·) := by
  rw [decodeBytes.eq_def]
  exact if_neg hc

theorem decodeBytes_escape {a b c : UInt8} {s : Text} (h : scanHex (a :: b :: s) = some c) :
    decodeBytes (chr '\\' :: a :: b :: s) = (decodeBytes s).map (c :: ·) := by
  rw [decodeBytes.eq_def]
  dsimp only
  rw [if_pos rfl, h]

theorem decodeBytes_encodeByte (c : UInt8) (s : Text) : decodeBytes (encodeByte c ++ s) = (decodeBytes s).map (c :: ·) := by
  rcases encodeByte_cases c with ⟨h, hne, -⟩ | h
  · rw [h, singleton_append, decodeBytes_cons hne]
  · rw [h]
    exact decodeBytes_escape (scanHex_digits c s)

theorem decodeBytes_encode (v : List UInt8) : decodeBytes (v.flatMap encodeByte) = some v := by
  induction v with
  | nil => rfl
  | cons c v ih => rw [flatMap_cons, decodeBytes_encodeByte, ih, map_some]

theorem encode_ofText (v : Text) : ldbBinaryEncode (.ofText v) = v.flatMap encodeByte := by
  rw [ldbBinaryEncode, LdbVal.ofText, take_length]

theorem ldbBinaryDecode_encode (v : Text) : ldbBinaryDecode (ldbBinaryEncode (.ofText v)) = some (.ofText v) := by
  rw [encode_ofText, ldbBinaryDecode, decodeBytes_encode, map_some]

theorem findWildcard_encodeByte (c : UInt8) (s : Text) :
    ldbParseFindWildcard (encodeByte c ++ s) = (ldbParseFindWildcard s).map (· + (encodeByte c).length) := by
  rcases encodeByte_cases c with ⟨h, hne, hstar, -⟩ | h
  · rw [h, singleton_append, ldbParseFindWildcard.eq_def]
    dsimp only
    rw [if_neg hne, if_neg hstar]
    rfl
  · rw [h]
    show ldbParseFindWildcard (chr '\\' :: hexUpper (c / 16) :: hexUpper (c % 16) :: s) = _
    have hlow := (hexUpper_ne c (d := chr '\\') (by decide)).2
    have hlow' := (hexUpper_ne c (d := chr '*') (by decide)).2
    rw [ldbParseFindWildcard, if_pos rfl]
    rw [ldbParseFindWildcard.eq_def]
    dsimp only
    rw [if_neg hlow, if_neg hlow', Option.map_map]
    rfl

/-- The first wildcard is behind a value that is written. -/
theorem findWildcard_encode (v s : Text) :
    ldbParseFindWildcard (v.flatMap encodeByte ++ s) = (ldbParseFindWildcard s).map (· + (v.flatMap encodeByte).length) := by
  induction v with
  | nil => simp
  | cons c v ih =>
    rw [flatMap_cons, append_assoc, findWildcard_encodeByte, ih, Option.map_map]
    congr 1
    funext n
    simp only [Function.comp, length_append]
    omega

theorem findWildcard_encode_nil (v : Text) : ldbParseFindWildcard (v.flatMap encodeByte) = none := by
  have := findWildcard_encode v []
  rwa [append_nil] at this

/-! ## Texts of values -/

/-- Characters that a value is read with, whatever is around them. -/
structure PlainText (v : Text) : Prop where
  chars : ∀ c ∈ v, isSpace c = false ∧ c ≠ chr ')'
  last : v.getLast? ≠ some (chr '\\')

theorem PlainText.append {u v : Text} (hu : PlainText u) (hv : PlainText v) : PlainText (u ++ v) where
  chars c hc := (mem_append.mp hc).elim (hu.chars c) (hv.chars c)
  last := by
    rw [List.getLast?_append]
    cases h : v.getLast? with
    | none => exact hu.last
    | some c => exact fun hc => hv.last (h.trans hc)

theorem PlainText.scanned {v : Text} (h : PlainText v) : ScannedValue v where
  unclosed hmem := (h.chars _ hmem).2 rfl
  trimmed := ⟨fun c hc => (h.chars c (mem_of_head? hc)).1,
    fun c hc => (h.chars c (mem_reverse.mp (mem_of_head? hc))).1⟩
  last := h.last

theorem plainText_nil : PlainText [] := ⟨fun _ h => (nomatch h), fun h => (nomatch h)⟩

theorem plainText_star : PlainText [chr '*'] :=
  ⟨fun c hc => by rw [mem_singleton.mp hc]; decide, by decide⟩

theorem plainText_encodeByte (c : UInt8) : PlainText (encodeByte c) ∧ chr '*' ∉ encodeByte c := by
  rcases encodeByte_cases c with ⟨h, hne, hstar, hclose, hspace⟩ | h
  · rw [h]
    refine ⟨⟨fun d hd => ?_, fun hlast => hne (Option.some.inj hlast)⟩, fun hmem => hstar (mem_singleton.mp hmem).symm⟩
    rw [mem_singleton.mp hd]
    exact ⟨hspace, hclose⟩
  · obtain ⟨hlt, hlt', -, -⟩ := digits_lt c
    obtain ⟨-, hspace⟩ := (hexUpper_spec (c / 16)).1 hlt
    obtain ⟨-, hspace'⟩ := (hexUpper_spec (c % 16)).1 hlt'
    rw [h]
    refine ⟨⟨fun d hd => ?_, fun hlast => (hexUpper_ne c (by decide)).2 (Option.some.inj hlast)⟩, fun hmem => ?_⟩
    · rcases mem_cons.mp hd with rfl | hd
      · decide
      rcases mem_cons.mp hd with rfl | hd
      · exact ⟨hspace, (hexUpper_ne c (by decide)).1⟩
      · rw [mem_singleton.mp hd]
        exact ⟨hspace', (hexUpper_ne c (by decide)).2⟩
    · rcases mem_cons.mp hmem with h | h
      · exact absurd h (by decide)
      rcases mem_cons.mp h with h | h
      · exact (hexUpper_ne c (d := chr '*') (by decide)).1 h.symm
      · exact (hexUpper_ne c (d := chr '*') (by decide)).2 (mem_singleton.mp h).symm

theorem plainText_encode (v : Text) : PlainText (v.flatMap encodeByte) ∧ chr '*' ∉ v.flatMap encodeByte := by
  induction v with
  | nil => exact ⟨plainText_nil, not_mem_nil⟩
  | cons c v ih =>
    obtain ⟨hplain, hstar⟩ := plainText_encodeByte c
    rw [flatMap_cons]
    exact ⟨hplain.append ih.1, fun h => (mem_append.mp h).elim hstar ih.2⟩

theorem encodeByte_ne_nil (c : UInt8) : encodeByte c ≠ [] := by
  rcases encodeByte_cases c with ⟨h, -⟩ | h <;> rw [h] <;> exact cons_ne_nil _ _

theorem encode_ne_nil {v : Text} (hv : v ≠ []) : v.flatMap encodeByte ≠ [] := by
  cases v with
  | nil => exact absurd rfl hv
  | cons c v => exact append_ne_nil_of_left_ne_nil (encodeByte_ne_nil c) _

/-! ## Wildcards -/

/-- A chunk of a substring match. -/
def Chunk (chunk : LdbVal) : Prop := ∃ v, v ≠ [] ∧ chunk = .ofText v

theorem wildcardDecode_nil (fuel : Nat) : wildcardDecode fuel [] = some [] := by
  cases fuel <;> rfl

theorem findWildcard_star (s : Text) : ldbParseFindWildcard (chr '*' :: s) = some 0 := by
  rw [ldbParseFindWildcard.eq_def]
  dsimp only
  rw [if_neg (by decide), if_pos rfl]

theorem wildcardDecode_star (fuel : Nat) (s : Text) : wildcardDecode (fuel + 1) (chr '*' :: s) = wildcardDecode fuel s := by
  rw [wildcardDecode, if_neg (cons_ne_nil _ _), findWildcard_star]
  rfl

variable {str value : Text} {filter : Text → Option ParseTree × Text}

theorem wildcardDecode_some {n : Nat} (h : ldbParseFindWildcard str = some (n + 1)) (fuel : Nat) :
    wildcardDecode (fuel + 1) str = (ldbBinaryDecode (str.take (n + 1))).bind fun chunk =>
      (wildcardDecode fuel (str.drop (n + 2))).bind fun chunks => some (chunk :: chunks) := by
  have hne : str ≠ [] := by
    rintro rfl
    cases h
  rw [wildcardDecode, if_neg hne, h]
  rfl

theorem wildcardDecode_chunk {v : Text} (hv : v ≠ []) (fuel : Nat) (s : Text) :
    wildcardDecode (fuel + 1) (v.flatMap encodeByte ++ chr '*' :: s) = (wildcardDecode fuel s).map (.ofText v :: ·) := by
  have hne := encode_ne_nil hv
  have hfind := findWildcard_encode v (chr '*' :: s)
  have hdecode := ldbBinaryDecode_encode v
  rw [encode_ofText] at hdecode
  generalize v.flatMap encodeByte = e at hne hfind hdecode
  obtain ⟨n, hn⟩ : ∃ n, e.length = n + 1 := ⟨e.length - 1, by have := length_pos_iff.mpr hne; omega⟩
  have hfind' : ldbParseFindWildcard (e ++ chr '*' :: s) = some (n + 1) := by
    rw [hfind, hn, findWildcard_star, map_some, Nat.zero_add]
  have htake : (e ++ chr '*' :: s).take (n + 1) = e := by rw [← hn, take_left]
  have hdrop : (e ++ chr '*' :: s).drop (n + 2) = s := by
    show (e ++ chr '*' :: s).drop (n + 1 + 1) = s
    rw [← hn, ← drop_drop, drop_left]
    rfl
  rw [wildcardDecode_some hfind', htake, hdecode, hdrop, bind_some]
  cases wildcardDecode fuel s <;> rfl

/-- The last chunk without a wildcard behind it. -/
theorem wildcardDecode_last {v : Text} (hv : v ≠ []) (fuel : Nat) :
    wildcardDecode (fuel + 1) (v.flatMap encodeByte) = some [.ofText v] := by
  have hdecode := ldbBinaryDecode_encode v
  rw [encode_ofText] at hdecode
  rw [wildcardDecode, if_neg (encode_ne_nil hv), findWildcard_encode_nil]
  dsimp only
  rw [hdecode, map_some]

theorem wildcardDecode_chunks {e : Bool} {chunks : List LdbVal} (hchunks : ∀ chunk ∈ chunks, Chunk chunk) {fuel : Nat}
    (hfuel : (chunksText e chunks).length ≤ fuel) : wildcardDecode fuel (chunksText e chunks) = some chunks := by
  induction chunks generalizing fuel with
  | nil => exact wildcardDecode_nil fuel
  | cons chunk chunks ih =>
    obtain ⟨v, hv, rfl⟩ := hchunks chunk mem_cons_self
    have hpos := length_pos_iff.mpr (encode_ne_nil hv)
    cases chunks with
    | nil =>
      rw [chunksText, encode_ofText] at hfuel ⊢
      cases fuel with
      | zero => simp only [length_append] at hfuel; omega
      | succ fuel =>
        cases e with
        | false => rw [if_neg (by decide), append_nil, wildcardDecode_last hv]
        | true => rw [if_pos rfl, wildcardDecode_chunk hv, wildcardDecode_nil, map_some]
    | cons chunk' chunks =>
      rw [chunksText, encode_ofText] at hfuel ⊢
      · simp only [length_append, length_cons] at hfuel
        cases fuel with
        | zero => omega
        | succ fuel =>
          rw [wildcardDecode_chunk hv, ih (fun c hc => hchunks c (mem_cons_of_mem _ hc)) (by omega), map_some]
      · exact cons_ne_nil _ _
      · exact cons_ne_nil _ _

/-! ## Simple filters that are built -/

/-- A simple filter as the parser builds it. -/
inductive ParsedLeaf : ParseTree → Prop
  | present {a} : AttrName a → ParsedLeaf (.present a)
  | equality {a v} : AttrName a → ParsedLeaf (.equality a (.ofText v))
  | comparison {op a v} : AttrName a → ParsedLeaf (.comparison op a (.ofText v))
  | substring {a s e chunks} : AttrName a → chunks ≠ [] → (∀ chunk ∈ chunks, Chunk chunk) →
      (s = true ∨ e = true ∨ 2 ≤ chunks.length) → ParsedLeaf (.substring a s e chunks)
  | rule {a m v} : AttrName a → chr ':' ∉ m → m.head? ≠ some (chr '=') → m ≠ "dn".toList.map chr →
      ParsedLeaf (.extended (some a) false (some m) (.ofText v))
  | dn {a v} : AttrName a → ParsedLeaf (.extended (some a) true none (.ofText v))
  | dnRule {a r v} : AttrName a → ¬ [chr ':', chr '='] <:+: chr ':' :: r →
      ParsedLeaf (.extended (some a) true (some r) (.ofText v))

theorem exists_ofText {v : LdbVal} (h : ldbBinaryDecode str = some v) : ∃ s, v = .ofText s := by
  unfold ldbBinaryDecode at h
  rw [map_eq_some_iff] at h
  obtain ⟨s, -, rfl⟩ := h
  exact ⟨s, rfl⟩

theorem decodeBytes_ne_nil {s : Text} (hne : str ≠ []) (h : decodeBytes str = some s) : s ≠ [] := by
  cases str with
  | nil => exact absurd rfl hne
  | cons c str =>
    rw [decodeBytes.eq_def] at h
    dsimp only at h
    split at h
    case isTrue =>
      split at h
      · cases h
      · rw [map_eq_some_iff] at h
        obtain ⟨s', -, rfl⟩ := h
        exact cons_ne_nil _ _
      · cases h
        exact cons_ne_nil _ _
    case isFalse =>
      rw [map_eq_some_iff] at h
      obtain ⟨s', -, rfl⟩ := h
      exact cons_ne_nil _ _

theorem chunk_of_decode {v : LdbVal} (hne : str ≠ []) (h : ldbBinaryDecode str = some v) : Chunk v := by
  unfold ldbBinaryDecode at h
  rw [map_eq_some_iff] at h
  obtain ⟨s, hs, rfl⟩ := h
  exact ⟨s, decodeBytes_ne_nil hne hs, rfl⟩

theorem findWildcard_zero (h : ldbParseFindWildcard str = some 0) : ∃ rest, str = chr '*' :: rest := by
  cases str with
  | nil => cases h
  | cons c str =>
    rw [ldbParseFindWildcard.eq_def] at h
    dsimp only at h
    split at h
    case isTrue =>
      split at h
      · cases h
      · rw [map_eq_some_iff] at h
        obtain ⟨n, -, hn⟩ := h
        omega
    case isFalse =>
      split at h
      case isTrue hc => exact ⟨str, by rw [hc]⟩
      case isFalse =>
        rw [map_eq_some_iff] at h
        obtain ⟨n, -, hn⟩ := h
        omega

theorem findWildcard_split {n : Nat} (h : ldbParseFindWildcard str = some n) :
    str = str.take n ++ chr '*' :: str.drop (n + 1) ∧ n < str.length := by
  induction str using ldbParseFindWildcard.induct generalizing n with
  | case1 => cases h
  | case2 => cases h
  | case3 d rest ih =>
    rw [ldbParseFindWildcard, if_pos rfl, map_eq_some_iff] at h
    obtain ⟨m, hm, rfl⟩ := h
    obtain ⟨heq, hlt⟩ := ih hm
    rw [take_succ_cons, take_succ_cons, drop_succ_cons, drop_succ_cons, cons_append,
      cons_append, ← heq]
    exact ⟨rfl, by simp only [length_cons]; omega⟩
  | case4 rest hc =>
    rw [findWildcard_star] at h
    cases h
    exact ⟨rfl, by simp⟩
  | case5 c rest hc hstar ih =>
    rw [ldbParseFindWildcard.eq_def] at h
    dsimp only at h
    rw [if_neg hc, if_neg hstar, map_eq_some_iff] at h
    obtain ⟨m, hm, rfl⟩ := h
    obtain ⟨heq, hlt⟩ := ih hm
    rw [take_succ_cons, drop_succ_cons, cons_append, ← heq]
    exact ⟨rfl, by simp only [length_cons]; omega⟩

/-- The chunks of a value. Without a chunk it ends with a wildcard. -/
theorem of_wildcardDecode {fuel : Nat} {chunks : List LdbVal} (hfuel : str.length ≤ fuel)
    (h : wildcardDecode fuel str = some chunks) :
    (∀ chunk ∈ chunks, Chunk chunk) ∧ (chunks = [] → str = [] ∨ str.getLast? = some (chr '*')) := by
  induction fuel generalizing str chunks with
  | zero =>
    cases h
    exact ⟨fun _ h => (nomatch h), fun _ => .inl (length_eq_zero_iff.mp (by omega))⟩
  | succ fuel ih =>
    cases hfind : ldbParseFindWildcard str with
    | none =>
      rw [wildcardDecode] at h
      split at h
      case isTrue hnil =>
        cases h
        exact ⟨fun _ h => (nomatch h), fun _ => .inl hnil⟩
      case isFalse hne =>
        rw [hfind] at h
        dsimp only at h
        rw [map_eq_some_iff] at h
        obtain ⟨v, hv, rfl⟩ := h
        refine ⟨fun chunk hc => ?_, fun h => (nomatch h)⟩
        rw [mem_singleton.mp hc]
        exact chunk_of_decode hne hv
    | some n =>
      cases n with
      | zero =>
        obtain ⟨rest, rfl⟩ := findWildcard_zero hfind
        rw [wildcardDecode_star] at h
        obtain ⟨hchunks, hlast⟩ := ih (by simp only [length_cons] at hfuel; omega) h
        refine ⟨hchunks, fun hnil => .inr ?_⟩
        rcases hlast hnil with rfl | hlast
        · rfl
        · rw [List.getLast?_cons, hlast]
          rfl
      | succ n =>
        obtain ⟨hsplit, hlt⟩ := findWildcard_split hfind
        rw [wildcardDecode_some hfind, bind_eq_some_iff] at h
        obtain ⟨chunk, hchunk, h⟩ := h
        rw [bind_eq_some_iff] at h
        obtain ⟨rest, hrest, h⟩ := h
        cases h
        obtain ⟨hchunks, -⟩ := ih (by rw [length_drop]; omega) hrest
        refine ⟨fun c hc => ?_, fun h => (nomatch h)⟩
        rcases mem_cons.mp hc with rfl | hc
        · refine chunk_of_decode (fun hnil => ?_) hchunk
          have := congrArg List.length hnil
          rw [length_take, length_nil] at this
          omega
        · exact hchunks c hc

/-- A substring match has two chunks, or a wildcard at one end. -/
theorem of_ldbWildcardDecode {chunks : List LdbVal} (hfind : (ldbParseFindWildcard value).isSome = true)
    (h : ldbWildcardDecode value = some chunks) :
    chunks ≠ [] ∧ (∀ chunk ∈ chunks, Chunk chunk) ∧
      (value.head? = some (chr '*') ∨ value.getLast? = some (chr '*') ∨ 2 ≤ chunks.length) := by
  have hdecode : wildcardDecode value.length value = some chunks ∧ chunks ≠ [] := by
    unfold ldbWildcardDecode at h
    split at h
    case h_1 => cases h
    case h_2 hne => exact ⟨h, fun hnil => hne (hnil ▸ h)⟩
  refine ⟨hdecode.2, (of_wildcardDecode (Nat.le_refl _) hdecode.1).1, ?_⟩
  obtain ⟨n, hn⟩ := isSome_iff_exists.mp hfind
  obtain ⟨hsplit, hlt⟩ := findWildcard_split hn
  cases n with
  | zero =>
    obtain ⟨rest, rfl⟩ := findWildcard_zero hn
    exact .inl rfl
  | succ n =>
    refine .inr ?_
    obtain ⟨fuel, hfuel⟩ : ∃ fuel, value.length = fuel + 1 := ⟨value.length - 1, by omega⟩
    rw [hfuel, wildcardDecode_some hn, bind_eq_some_iff] at hdecode
    obtain ⟨⟨chunk, -, h⟩, -⟩ := hdecode
    rw [bind_eq_some_iff] at h
    obtain ⟨rest, hrest, h⟩ := h
    cases h
    cases rest with
    | cons chunk' rest => exact .inr (by simp)
    | nil =>
      refine .inl ?_
      rw [hsplit, List.getLast?_append, List.getLast?_cons]
      rcases (of_wildcardDecode (by rw [length_drop]; omega) hrest).2 rfl with hnil | hlast
      · rw [show n + 1 + 1 = n + 2 from rfl, hnil]
        rfl
      · rw [show n + 1 + 1 = n + 2 from rfl, hlast]
        rfl

/-- The attribute, the `dn` and the rule of an extended match. -/
theorem ldbParseExtended_name {a : Text} (ha : AttrName a) (x v : Text) : ldbParseExtended (a ++ chr ':' :: x) v =
    (ldbBinaryDecode v).map fun value =>
      if x.takeWhile (· ≠ chr ':') = "dn".toList.map chr then
        .extended (some a) true
          (if x.dropWhile (· ≠ chr ':') = [] then none else some ((x.dropWhile (· ≠ chr ':')).drop 1)) value
      else .extended (some a) false (some (x.takeWhile (· ≠ chr ':'))) value := by
  unfold ldbParseExtended
  rw [(ha.split x).1, (ha.split x).2]
  dsimp only [bind, Option.bind]
  cases ldbBinaryDecode v with
  | none => rfl
  | some value =>
    rw [map_some]
    dsimp only
    rw [if_neg (cons_ne_nil _ _), show (chr ':' :: x).drop 1 = x from rfl]
    split <;> rfl

theorem dropWhile_colon {x : Text} : x.dropWhile (· ≠ chr ':') = [] ∨ ∃ r, x.dropWhile (· ≠ chr ':') = chr ':' :: r := by
  cases h : x.dropWhile (· ≠ chr ':') with
  | nil => exact .inl rfl
  | cons c r =>
    have := List.head?_dropWhile_not (fun d => decide (d ≠ chr ':')) x
    rw [h] at this
    refine .inr ⟨r, ?_⟩
    have hc : c = chr ':' := by simpa using this
    rw [hc]

theorem parsedLeaf_extended {name : Text} {t : ParseTree} (hname : ScannedName .extended name)
    (h : ldbParseExtended name value = some t) : ParsedLeaf t := by
  rw [ScannedName, if_pos rfl] at hname
  obtain ⟨a, x, rfl, ha, hno⟩ := hname
  have hx : x.takeWhile (· ≠ chr ':') ++ x.dropWhile (· ≠ chr ':') = x := takeWhile_append_dropWhile
  rw [ldbParseExtended_name ha, map_eq_some_iff] at h
  obtain ⟨v, hv, rfl⟩ := h
  obtain ⟨s, rfl⟩ := exists_ofText hv
  split
  case isTrue hdn =>
    rcases @dropWhile_colon x with hnil | ⟨r, hr⟩
    · rw [if_pos hnil]
      exact .dn ha
    · rw [hr, if_neg (cons_ne_nil _ _)]
      refine .dnRule ha fun hin => hno (hin.trans ?_)
      rw [← hx, hr]
      exact ⟨chr ':' :: x.takeWhile (· ≠ chr ':'), [], by simp⟩
  case isFalse hdn =>
    refine .rule ha (fun hmem => ?_) (fun hhead => hno ?_) hdn
    · have := mem_takeWhile_imp hmem
      rw [decide_eq_true_eq] at this
      exact this rfl
    · obtain ⟨m, hm⟩ := List.head?_eq_some_iff.mp hhead
      rw [← hx, hm]
      exact ⟨[], m ++ x.dropWhile (· ≠ chr ':'), rfl⟩

theorem parsedLeaf_simpleTree {filtertype : FilterType} {name : Text} {t : ParseTree}
    (hname : ScannedName filtertype name) (h : simpleTree filtertype name value = some t) : ParsedLeaf t := by
  have hattr : filtertype ≠ .extended → AttrName name := fun hne => by rwa [ScannedName, if_neg hne] at hname
  cases filtertype with
  | extended => exact parsedLeaf_extended hname h
  | equality =>
    unfold simpleTree at h
    dsimp only at h
    split at h
    · cases h
      exact .present (hattr (by decide))
    · split at h
      case isTrue hfind =>
        rw [map_eq_some_iff] at h
        obtain ⟨chunks, hchunks, rfl⟩ := h
        obtain ⟨hne, hall, hwild⟩ := of_ldbWildcardDecode hfind hchunks
        refine .substring (hattr (by decide)) hne hall ?_
        rw [decide_eq_true_eq, decide_eq_true_eq]
        exact hwild
      case isFalse =>
        rw [map_eq_some_iff] at h
        obtain ⟨v, hv, rfl⟩ := h
        obtain ⟨s, rfl⟩ := exists_ofText hv
        exact .equality (hattr (by decide))
  | _ =>
    unfold simpleTree at h
    dsimp only at h
    rw [map_eq_some_iff] at h
    obtain ⟨v, hv, rfl⟩ := h
    obtain ⟨s, rfl⟩ := exists_ofText hv
    exact .comparison (hattr (by decide))

theorem parsedLeaf_simple {s p : Text} {t : ParseTree} (h : ldbParseSimple s = (some t, p)) : ParsedLeaf t := by
  unfold ldbParseSimple at h
  cases hread : ldbParseFiltertype s with
  | none =>
    rw [hread] at h
    cases h
  | some x =>
    obtain ⟨filtertype, name, v, q⟩ := x
    rw [hread] at h
    dsimp only at h
    rw [Prod.mk.injEq] at h
    obtain ⟨_, _, _, -, -, -, -, -, -, hname⟩ := of_ldbParseFiltertype hread
    rcases hname with ⟨hname, -⟩ | ⟨rfl, hname⟩
    · exact parsedLeaf_simpleTree hname h.1
    · rw [simpleTree, ldbParseExtended_attr hname] at h
      cases h.1

/-! ## A simple filter is read back -/

theorem readsSimple_print {filtertype : FilterType} {name v : Text} {t : ParseTree} (hname : ScannedName filtertype name)
    (hv : PlainText v) (ht : simpleTree filtertype name v = some t) : ReadsSimple (name ++ (operatorText filtertype ++ v)) t := by
  have hnil : Blank [] := fun _ h => (nomatch h)
  have := readsSimple_text hname hnil (fun _ => rfl) (fun _ => rfl) hnil hv.scanned hnil ht
  rwa [nil_append, nil_append, append_nil] at this

theorem scannedName_attr {filtertype : FilterType} {a : Text} (h : filtertype ≠ .extended) (ha : AttrName a) :
    ScannedName filtertype a := by
  rwa [ScannedName, if_neg h]

theorem encode_ne_star (v : Text) : ldbBinaryEncode (.ofText v) ≠ [chr '*'] := by
  intro h
  rw [encode_ofText] at h
  exact (plainText_encode v).2 (h ▸ mem_singleton_self _)

theorem simpleTree_equality (a v : Text) :
    simpleTree .equality a (ldbBinaryEncode (.ofText v)) = some (.equality a (.ofText v)) := by
  have hfind : (ldbParseFindWildcard (ldbBinaryEncode (.ofText v))).isSome ≠ true := by
    rw [encode_ofText, findWildcard_encode_nil]
    decide
  rw [simpleTree, if_neg (encode_ne_star v), if_neg hfind, ldbBinaryDecode_encode, map_some]

theorem chunksText_cons {e : Bool} {chunk : LdbVal} {chunks : List LdbVal} : chunksText e (chunk :: chunks) =
    ldbBinaryEncode chunk ++
      if chunks = [] then (if e then [chr '*'] else []) else chr '*' :: chunksText e chunks := by
  cases chunks <;> rfl

theorem plainText_chunks {e : Bool} {chunks : List LdbVal} (hchunks : ∀ chunk ∈ chunks, Chunk chunk) :
    PlainText (chunksText e chunks) := by
  induction chunks with
  | nil => exact plainText_nil
  | cons chunk chunks ih =>
    obtain ⟨v, -, rfl⟩ := hchunks chunk mem_cons_self
    rw [chunksText_cons, encode_ofText]
    refine (plainText_encode v).1.append ?_
    split
    · split
      · exact plainText_star
      · exact plainText_nil
    · exact plainText_star.append (ih fun c hc => hchunks c (mem_cons_of_mem _ hc))

/-- The chunks do not start with a wildcard, and end with one only if the match does. -/
theorem chunksText_ends {e : Bool} {chunks : List LdbVal} (hne : chunks ≠ []) (hchunks : ∀ chunk ∈ chunks, Chunk chunk) :
    (∃ c s, chunksText e chunks = c :: s ∧ c ≠ chr '*') ∧ ((chunksText e chunks).getLast? = some (chr '*') ↔ e = true) := by
  induction chunks with
  | nil => exact absurd rfl hne
  | cons chunk chunks ih =>
    obtain ⟨v, hv, rfl⟩ := hchunks chunk mem_cons_self
    have hstar := (plainText_encode v).2
    rw [chunksText_cons, encode_ofText]
    have henc := encode_ne_nil hv
    generalize v.flatMap encodeByte = enc at hstar henc
    refine ⟨?_, ?_⟩
    · cases enc with
      | nil => exact absurd rfl henc
      | cons c s => exact ⟨c, _, rfl, fun h => hstar (h ▸ mem_cons_self)⟩
    · split
      case isTrue =>
        cases e with
        | true => simp
        | false =>
          rw [if_neg (by decide), append_nil]
          exact ⟨fun h => absurd (mem_of_getLast? h) hstar, fun h => (nomatch h)⟩
      case isFalse hrest =>
        obtain ⟨⟨c, s, hcs, -⟩, hlast⟩ := ih hrest fun c hc => hchunks c (mem_cons_of_mem _ hc)
        rw [← hlast, hcs, List.getLast?_append, List.getLast?_cons_cons, List.getLast?_cons]
        rfl

theorem chunksText_find {e : Bool} {chunks : List LdbVal} (hchunks : ∀ chunk ∈ chunks, Chunk chunk)
    (h : e = true ∨ 2 ≤ chunks.length) (hne : chunks ≠ []) : (ldbParseFindWildcard (chunksText e chunks)).isSome = true := by
  cases chunks with
  | nil => exact absurd rfl hne
  | cons chunk chunks =>
    obtain ⟨v, -, rfl⟩ := hchunks chunk mem_cons_self
    rw [chunksText_cons, encode_ofText, findWildcard_encode]
    split
    case isTrue hnil =>
      rw [hnil] at h
      rcases h with rfl | h
      · rw [if_pos rfl, findWildcard_star]
        rfl
      · simp at h
    case isFalse =>
      rw [findWildcard_star]
      rfl

theorem simpleTree_substring {a : Text} {s e : Bool} {chunks : List LdbVal} (hne : chunks ≠ [])
    (hchunks : ∀ chunk ∈ chunks, Chunk chunk) (hwild : s = true ∨ e = true ∨ 2 ≤ chunks.length) :
    simpleTree .equality a ((if s then [chr '*'] else []) ++ chunksText e chunks) = some (.substring a s e chunks) := by
  obtain ⟨⟨c, text, htext, hc⟩, hlast⟩ := @chunksText_ends e chunks hne hchunks
  generalize hvalue : (if s = true then [chr '*'] else []) ++ chunksText e chunks = value
  have hstar : value ≠ [chr '*'] := by
    rw [← hvalue, htext]
    cases s with
    | true => simp
    | false => exact fun h => hc (List.cons.inj h).1
  have hfind : (ldbParseFindWildcard value).isSome = true := by
    rw [← hvalue]
    cases s with
    | true =>
      rw [if_pos rfl, singleton_append, findWildcard_star]
      rfl
    | false => exact chunksText_find hchunks (hwild.resolve_left (by decide)) hne
  have hdecode : ldbWildcardDecode value = some chunks := by
    have hloop : wildcardDecode value.length value = some chunks := by
      rw [← hvalue]
      cases s with
      | true =>
        rw [if_pos rfl, singleton_append, length_cons, wildcardDecode_star]
        exact wildcardDecode_chunks hchunks (Nat.le_refl _)
      | false => exact wildcardDecode_chunks hchunks (Nat.le_refl _)
    rw [ldbWildcardDecode, hloop]
    cases chunks with
    | nil => exact absurd rfl hne
    | cons chunk chunks => rfl
  have hhead : decide (value.head? = some (chr '*')) = s := by
    rw [← hvalue, htext]
    cases s with
    | true => rfl
    | false => exact decide_eq_false fun h => hc (Option.some.inj h)
  have hend : decide (value.getLast? = some (chr '*')) = e := by
    rw [← hvalue, List.getLast?_append]
    have : (chunksText e chunks).getLast?.or (if s = true then [chr '*'] else []).getLast? = (chunksText e chunks).getLast? := by
      rw [htext, List.getLast?_cons]
      rfl
    rw [this]
    cases e with
    | true => exact decide_eq_true (hlast.mpr rfl)
    | false => exact decide_eq_false fun h => (nomatch hlast.mp h)
  rw [simpleTree, if_neg hstar, if_pos hfind, hdecode, map_some, hhead, hend]

theorem readsSimple_leaf {t : ParseTree} (h : ParsedLeaf t) : ReadsSimple (leafText t) t := by
  cases h with
  | present ha => exact @readsSimple_print .equality _ _ _ (scannedName_attr (by decide) ha) plainText_star rfl
  | @equality a v ha =>
    have hv := (plainText_encode v).1
    rw [← encode_ofText] at hv
    exact readsSimple_print (scannedName_attr (by decide) ha) hv (simpleTree_equality a v)
  | @comparison op a v ha =>
    have hv := (plainText_encode v).1
    have hdecode := ldbBinaryDecode_encode v
    rw [encode_ofText] at hdecode
    rw [leafText, encode_ofText, append_assoc]
    cases op with
    | greater =>
      refine @readsSimple_print .greater _ _ _ (scannedName_attr (by decide) ha) hv ?_
      rw [simpleTree, hdecode, map_some]
    | less =>
      refine @readsSimple_print .less _ _ _ (scannedName_attr (by decide) ha) hv ?_
      rw [simpleTree, hdecode, map_some]
    | approx =>
      refine @readsSimple_print .approx _ _ _ (scannedName_attr (by decide) ha) hv ?_
      rw [simpleTree, hdecode, map_some]
  | @substring a s e chunks ha hne hchunks hwild =>
    have htext : leafText (.substring a s e chunks) =
        a ++ (operatorText .equality ++ ((if s then [chr '*'] else []) ++ chunksText e chunks)) := by
      rw [leafText, append_assoc]
      rfl
    rw [htext]
    refine readsSimple_print (scannedName_attr (by decide) ha) ?_ (simpleTree_substring hne hchunks hwild)
    refine PlainText.append ?_ (plainText_chunks hchunks)
    split
    · exact plainText_star
    · exact plainText_nil
  | @rule a m v ha hcolon hhead hdn =>
    have hv := (plainText_encode v).1
    have hdecode := ldbBinaryDecode_encode v
    rw [encode_ofText] at hdecode
    have hm : ∀ c ∈ m, decide (c ≠ chr ':') = true := fun c hc => decide_eq_true fun h => hcolon (h ▸ hc)
    have htake : m.takeWhile (· ≠ chr ':') = m := takeWhile_eq_self_iff.mpr hm
    have htext : leafText (.extended (some a) false (some m) (.ofText v)) =
        (a ++ chr ':' :: m) ++ (operatorText .extended ++ v.flatMap encodeByte) := by
      rw [leafText, encode_ofText]
      simp [operatorText]
    rw [htext]
    refine readsSimple_print ?_ hv ?_
    · rw [ScannedName, if_pos rfl]
      refine ⟨a, m, rfl, ha, ?_⟩
      rintro ⟨u, y, huy⟩
      cases u with
      | nil =>
        rw [nil_append, cons_append, cons_append, List.cons.injEq] at huy
        exact hhead (by rw [← huy.2]; rfl)
      | cons c u =>
        rw [cons_append, cons_append, List.cons.injEq] at huy
        exact hcolon (by rw [← huy.2]; simp)
    · rw [simpleTree, ldbParseExtended_name ha, hdecode, map_some, htake, if_neg hdn]
  | @dn a v ha =>
    have hv := (plainText_encode v).1
    have hdecode := ldbBinaryDecode_encode v
    rw [encode_ofText] at hdecode
    have htext : leafText (.extended (some a) true none (.ofText v)) =
        (a ++ chr ':' :: "dn".toList.map chr) ++ (operatorText .extended ++ v.flatMap encodeByte) := by
      rw [leafText, encode_ofText]
      simp [operatorText]
    rw [htext]
    refine readsSimple_print (scannedName_extended ha (by decide)) hv ?_
    rw [simpleTree, ldbParseExtended_name ha, hdecode]
    rfl
  | @dnRule a r v ha hno =>
    have hv := (plainText_encode v).1
    have hdecode := ldbBinaryDecode_encode v
    rw [encode_ofText] at hdecode
    have htext : leafText (.extended (some a) true (some r) (.ofText v)) =
        (a ++ chr ':' :: ("dn".toList.map chr ++ chr ':' :: r)) ++ (operatorText .extended ++ v.flatMap encodeByte) := by
      rw [leafText, encode_ofText]
      simp [operatorText]
    rw [htext]
    refine readsSimple_print ?_ hv ?_
    · rw [ScannedName, if_pos rfl]
      refine ⟨a, _, rfl, ha, ?_⟩
      rintro ⟨u, y, huy⟩
      rcases u with _ | ⟨_, _ | ⟨_, _ | ⟨_, u⟩⟩⟩
      · exact absurd (List.cons.inj (List.cons.inj huy).2).1 (by decide)
      · exact absurd (List.cons.inj (List.cons.inj huy).2).1 (by decide)
      · exact absurd (List.cons.inj (List.cons.inj (List.cons.inj huy).2).2).1 (by decide)
      · exact hno ⟨u, y, (List.cons.inj (List.cons.inj (List.cons.inj huy).2).2).2⟩
    · rw [simpleTree, ldbParseExtended_name ha, hdecode]
      rfl

/-! ## Filters that are built -/

/-- A filter as the parser builds it. -/
inductive ParsedTree : ParseTree → Prop
  | and {ts} : ts ≠ [] → (∀ t ∈ ts, ParsedTree t) → ParsedTree (.and ts)
  | or {ts} : ts ≠ [] → (∀ t ∈ ts, ParsedTree t) → ParsedTree (.or ts)
  | not {t} : ParsedTree t → ParsedTree (.not t)
  | leaf {t} : ParsedLeaf t → ParsedTree t

theorem filterlistLoop_parsed (hfilter : ∀ s t p, filter s = (some t, p) → ParsedTree t) (n : Nat) (p : Text) :
    ∀ t ∈ (filterlistLoop filter n p).1, ParsedTree t := by
  induction n generalizing p with
  | zero => exact fun _ h => (nomatch h)
  | succ n ih =>
    rw [filterlistLoop]
    split
    · exact fun _ h => (nomatch h)
    · split
      · exact fun _ h => (nomatch h)
      · rename_i next q hnext
        intro t ht
        rcases mem_cons.mp ht with rfl | ht
        · exact hfilter _ _ _ hnext
        · exact ih (skipSpace q) t ht

theorem ldbParseFilterlist_parsed
    (hfilter : ∀ s t p, filter s = (some t, p) → ParsedTree t) {op : List ParseTree → ParseTree}
    (hop : ∀ ts, ts ≠ [] → (∀ t ∈ ts, ParsedTree t) → ParsedTree (op ts)) {s p : Text} {t : ParseTree}
    (h : ldbParseFilterlist filter op s = (some t, p)) : ParsedTree t := by
  unfold ldbParseFilterlist at h
  split at h
  case h_1 => cases h
  case h_2 first q hfirst =>
    cases h
    exact hop _ (cons_ne_nil _ _) (forall_mem_cons.mpr ⟨hfilter _ _ _ hfirst, filterlistLoop_parsed hfilter _ _⟩)

theorem ldbParseFiltercomp_parsed
    (hfilter : ∀ s t p, filter s = (some t, p) → ParsedTree t) {s p : Text} {t : ParseTree}
    (h : ldbParseFiltercomp filter s = (some t, p)) : ParsedTree t := by
  unfold ldbParseFiltercomp at h
  dsimp only at h
  split at h
  case h_1 => exact .leaf (parsedLeaf_simple h)
  case h_2 =>
    split at h
    · exact ldbParseFilterlist_parsed hfilter (fun _ => .and) h
    split at h
    · exact ldbParseFilterlist_parsed hfilter (fun _ => .or) h
    split at h
    · unfold ldbParseNot at h
      split at h
      case h_1 => cases h
      case h_2 child q hchild =>
        cases h
        exact .not (hfilter _ _ _ hchild)
    split at h
    · cases h
    · exact .leaf (parsedLeaf_simple h)

theorem ldbParseFilter_parsed (fuel : Nat) : ∀ s t p, ldbParseFilter fuel s = (some t, p) → ParsedTree t := by
  induction fuel with
  | zero =>
    intro s t p h
    cases h
  | succ fuel ih =>
    intro s t p h
    rw [ldbParseFilter] at h
    split at h
    case isFalse => cases h
    case isTrue =>
      generalize hcomp : ldbParseFiltercomp (ldbParseFilter fuel) (s.drop 1) = x at h
      obtain ⟨ret, q⟩ := x
      dsimp only at h
      split at h
      · cases h
        exact ldbParseFiltercomp_parsed ih hcomp
      · cases h

theorem ldbParseTree_parsed {s : Text} {t : ParseTree} (h : ldbParseTree s = some t) : ParsedTree t := by
  unfold ldbParseTree at h
  generalize skipSpace (if s = [] then defaultFilter else s) = s' at h
  dsimp only at h
  split at h
  · exact ldbParseFilter_parsed _ _ t _ (Prod.ext h rfl)
  · exact .leaf (@parsedLeaf_simple _ _ t (Prod.ext h rfl))

/-! ## Filters are read back -/

/-- The text of a simple filter that is built. -/
def PrintedLeaf (c : Text) (t : ParseTree) : Prop := ParsedLeaf t ∧ c = leafText t

theorem filterText_leaf {t : ParseTree} (h : ParsedLeaf t) : FilterText PrintedLeaf (ldbFilterFromTree t) t := by
  have htext : ldbFilterFromTree t = chr '(' :: ([] ++ (leafText t ++ [chr ')'])) := by
    cases h <;> rw [ldbFilterFromTree] <;> rfl
  rw [htext]
  exact .simple (fun _ h => (nomatch h)) ⟨h, rfl⟩

theorem filterlistText_print {ts : List ParseTree} (hne : ts ≠ []) (h : ∀ t ∈ ts, FilterText PrintedLeaf (ldbFilterFromTree t) t) :
    FilterlistText PrintedLeaf (filtersFromTrees ts) ts := by
  have hnil : Blank [] := fun _ h => (nomatch h)
  induction ts with
  | nil => exact absurd rfl hne
  | cons t ts ih =>
    have hhead := h t mem_cons_self
    rw [filtersFromTrees]
    cases ts with
    | nil =>
      rw [filtersFromTrees]
      exact .one hhead hnil
    | cons t' ts => exact @FilterlistText.more _ _ [] _ _ _ hhead hnil (ih (cons_ne_nil _ _) fun t ht => h t (mem_cons_of_mem _ ht))

/-- The text of a filter is one of the grammar, with the filter as its tree. -/
theorem filterText_print {t : ParseTree} (h : ParsedTree t) : FilterText PrintedLeaf (ldbFilterFromTree t) t := by
  have hnil : Blank [] := fun _ h => (nomatch h)
  induction h with
  | and hne _ ih =>
    rw [ldbFilterFromTree]
    exact .and hnil hnil (filterlistText_print hne ih)
  | or hne _ ih =>
    rw [ldbFilterFromTree]
    exact .or hnil hnil (filterlistText_print hne ih)
  | not _ ih =>
    rw [ldbFilterFromTree]
    exact .not hnil ih hnil
  | leaf h => exact filterText_leaf h

/-- Every filter that is parsed has a text that is parsed as the same filter. -/
theorem ldbParseTree_print {s : Text} {t : ParseTree} (h : ldbParseTree s = some t) :
    ldbParseTree (ldbFilterFromTree t) = some t := by
  have htext := filterText_print (ldbParseTree_parsed h)
  have hleaf : ∀ c t, PrintedLeaf c t → ReadsSimple c t := by
    rintro c t ⟨ht, rfl⟩
    exact readsSimple_leaf ht
  have hread := ldbParseFilter_whole hleaf htext (w := []) (fun _ h => (nomatch h))
  obtain ⟨f, hf⟩ := htext.head
  rw [append_nil] at hread
  rw [ldbParseTree_filter (by rw [hf]; rfl), hread]

/-- `cn:dn:2.4:=a\2a`, an extended match without its parentheses. -/
theorem ldbParseTree_print_extended : ∃ t, ldbParseTree (ldbFilterFromTree t) = some t := by
  obtain ⟨t, ht⟩ := isSome_iff_exists.mp
    (show (ldbParseTree ("cn:dn:2.4:=a\\2a".toList.map chr)).isSome = true by decide +kernel)
  exact ⟨t, ldbParseTree_print ht⟩

end Samba.Ldb
