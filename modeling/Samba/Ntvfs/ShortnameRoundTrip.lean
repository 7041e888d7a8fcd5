/-
The way back from a short name that was just made (ntvfs/posix/pvfs_shortname.c, name_map and check_cache). Whatever the name and the
cache, the short name has the mangled 8.3 format, its digits spell the hash of the entry that name_map left in the cache, and the entry
and the extension are the name again.
-/
import Samba.Ntvfs.ShortnameCache

namespace Samba.Ntvfs

open CString List Samba.Charset

variable {ctx : MangleContext}

/-- The same name, but for the letter case of what is behind its last dot. -/
def SameUpToExtensionCase (name r : Text) : Prop :=
  r = name ∨ ∃ base ext, chr '.' ∉ ext ∧ name = base ++ chr '.' :: ext ∧ r = base ++ chr '.' :: ext.map toUpper

/-! ## The parts of a short name -/

theorem flagBasechar_basechar : ∀ d < 36, flagBasechar (basechar d) = true := by decide

theorem flagBasechar_hashDigits {k v : Nat} {c : UInt8} (h : c ∈ hashDigits k v) : flagBasechar c = true := by
  induction k generalizing v with
  | zero => cases h
  | succ k ih =>
    rw [hashDigits] at h
    rcases mem_append.1 h with h | h
    · exact ih h
    · rw [mem_singleton.1 h]
      exact flagBasechar_basechar _ (Nat.mod_lt _ (by decide))

theorem flagAscii_leadChars {s : Text} {c : UInt8} (h : c ∈ leadChars ctx s) : flagAscii c = true := by
  rw [leadChars] at h
  rcases mem_append.1 h with h | h
  · obtain ⟨d, -, rfl⟩ := mem_map.1 h
    rw [flagAscii_toUpper]
    split
    · assumption
    · decide
  · rw [(mem_replicate.1 h).2]
    decide

theorem flagAscii_mapExtension {s : Text} {c : UInt8} (h : c ∈ mapExtension s) : flagAscii c = true := by
  cases hs : splitExtension s with
  | none =>
    rw [mapExtension_eq_nil.2 hs] at h
    cases h
  | some p =>
    rw [@mapExtension_of_some s p.1 p.2 hs] at h
    obtain ⟨d, hd, rfl⟩ := mem_map.1 h
    rw [flagAscii_toUpper]
    exact (splitExtension_eq_some.1 hs).2.1 d hd

theorem length_mapExtension (s : Text) : (mapExtension s).length ≤ 3 := by
  cases hs : splitExtension s with
  | none =>
    rw [mapExtension_eq_nil.2 hs]
    exact Nat.zero_le _
  | some p =>
    rw [@mapExtension_of_some s p.1 p.2 hs, length_map]
    exact (splitExtension_eq_some.1 hs).2.2.2

theorem mangledName_parts (ctx : MangleContext) (s : Text) (hash : Nat) :
    Parts ctx (mangledName ctx s hash) (leadChars ctx s) (hashDigits (6 - ctx.manglePrefix) (hash / 36)) (basechar (hash % 36))
      (mapExtension s) where
  eq := rfl
  length_lead := length_leadChars s
  length_digits := length_hashDigits _ _
  lead_ascii _ := flagAscii_leadChars
  digits_base _ := flagBasechar_hashDigits
  last_base := flagBasechar_basechar _ (Nat.mod_lt _ (by decide))
  ext_ascii _ := flagAscii_mapExtension
  length_ext := length_mapExtension s

namespace Parts

variable {name lead digits ext : Text} {last : UInt8} (h : Parts ctx name lead digits last ext)

include h

theorem front_ascii : ∀ c ∈ lead ++ digits ++ [chr '~', last], flagAscii c = true := by
  intro c hc
  rcases mem_append.1 hc with hc | hc
  · rcases mem_append.1 hc with hc | hc
    · exact h.lead_ascii c hc
    · exact ascii_of_basechar (h.digits_base c hc)
  · rcases mem_cons.1 hc with rfl | hc
    · decide
    · rw [mem_singleton.1 hc]
      exact ascii_of_basechar h.last_base

theorem is83 : Ntvfs.is83 name false = true := by
  rw [h.eq]
  refine is83_of_ascii h.front_ascii ?_ h.ext_ascii h.length_ext
  rw [length_append, h.length_front]
  exact le_rfl

theorem length_eq : name.length = 8 + if ext = [] then 0 else ext.length + 1 := by
  rw [h.eq, length_append, length_append, h.length_front]
  split <;> rfl

theorem isMangledComponent : Ntvfs.isMangledComponent ctx name name.length = true := by
  have hlen := h.length_eq
  have hext := h.length_ext
  have h6 : charAt name 6 = chr '~' := h.charAt_front 0
  have h7 : charAt name 7 = last := h.charAt_front 1
  have htail : name.length ≤ 8 ∨ charAt name 8 = chr '.' ∧ ∀ c ∈ name.drop 9, flagAscii c = true := by
    have h8 := h.charAt_front 2
    by_cases he : ext = []
    · rw [if_pos he] at hlen
      exact .inl hlen.le
    · have hfront := h.length_front
      have hdrop : name.drop 9 = ext := by
        rw [h.eq, if_neg he, append_assoc (lead ++ digits), show 9 = (lead ++ digits).length + 3 by omega, ← drop_drop,
          drop_left]
        rfl
      rw [if_neg he] at h8
      exact .inr ⟨h8, by rw [hdrop]; exact h.ext_ascii⟩
  simp only [Ntvfs.isMangledComponent, Bool.and_eq_true, Bool.not_eq_true', Bool.or_eq_false_iff, decide_eq_false_iff_not,
    decide_eq_true_eq, Bool.or_eq_true, all_eq_true, not_lt]
  rw [take_of_length_le (le_refl name.length), h.take_manglePrefix, h.take_six, drop_left' h.length_lead, h6, h7]
  refine ⟨⟨⟨⟨⟨⟨?_, ?_⟩, rfl⟩, htail⟩, h.lead_ascii⟩, h.last_base⟩, h.digits_base⟩
  · split at hlen <;> omega
  · omega

theorem isMangled : Ntvfs.isMangled ctx name = true := by
  have hslash : strchr name (chr '/') = none := strchr_eq_none.2 fun hmem => by
    rcases chars_of_is83 h.is83 _ hmem with hc | hc
    · exact (not_dot_of_ascii hc).2 rfl
    · exact absurd hc (by decide)
  rw [Ntvfs.isMangled]
  split
  · next hs =>
    rw [hslash] at hs
    cases hs
  · exact h.isMangledComponent

end Parts

/-! ## The way back -/

/-- The digits of a short name spell the hash it was made for. -/
theorem hashOf_mangledName (s : Text) {hash : Nat} (h : hash < ctx.mangleModulus) : hashOf ctx (mangledName ctx s hash) = hash := by
  have hp := ctx.manglePrefix_le
  rw [MangleContext.mangleModulus, show 7 - ctx.manglePrefix = 6 - ctx.manglePrefix + 1 by omega, Nat.pow_succ] at h
  rw [(mangledName_parts ctx s hash).hashOf_eq, spelled_hashDigits (by omega), (baseReverse_basechar _ (Nat.mod_lt _ (by decide))).1]
  omega

theorem cacheLookup_insert (cache : PrefixCache) (key : Text) (length hash : Nat) :
    cacheLookup ctx (cacheInsert ctx cache key length hash) hash = some (key.take length) := by
  rw [cacheLookup, cacheInsert, Function.update_self]
  exact if_neg (not_not.2 rfl)

/-- The entry of a name and the extension of its short name are the name, but for the case of the extension. -/
theorem longName_mangledName (s : Text) (hash : Nat) :
    SameUpToExtensionCase s (longName (s.take (prefixLen s)) (mangledName ctx s hash)) := by
  rw [longName, (mangledName_parts ctx s hash).extensionOf_eq]
  rcases take_prefixLen s with ⟨hs, hnone⟩ | ⟨ext, hsome⟩
  · rw [if_pos (mapExtension_eq_nil.2 hnone), ← hs]
    exact .inl rfl
  · obtain ⟨heq, hall, hne, -⟩ := splitExtension_eq_some.1 hsome
    rw [mapExtension_of_some hsome, if_neg (by simpa using hne)]
    exact .inr ⟨_, ext, fun hc => (not_dot_of_ascii (hall _ hc)).1 rfl, heq, rfl⟩

/-- Where `name_map` returns a short name, `is_8_3` and `is_mangled_component` accept it, and `check_cache` returns the name, up to
the letter case of its extension. -/
theorem nameMap_roundTrip (ctx : MangleContext) (cache cache' : PrefixCache) (name n : Text)
    (h : nameMap ctx cache name true true = (some n, cache')) :
    is83 n false = true ∧ isMangledComponent ctx n n.length = true ∧
      ∃ r, checkCache ctx cache' n = some r ∧ SameUpToExtensionCase name r := by
  rw [nameMap] at h
  split at h
  · cases h
  · dsimp only at h
    rw [if_pos rfl] at h
    obtain ⟨hn, rfl⟩ := Prod.mk.inj h
    obtain rfl := Option.some.inj hn
    have hparts := mangledName_parts ctx name (mangleHash ctx name (prefixLen name))
    refine ⟨hparts.is83, hparts.isMangledComponent, _, ?_, @longName_mangledName ctx name (mangleHash ctx name (prefixLen name))⟩
    rw [checkCache, hparts.isMangled, hashOf_mangledName name (mangleHash_lt _ _), cacheLookup_insert]
    rfl

/-- The cache after the short name of one file was made. -/
def sampleCache : PrefixCache := cacheAfter defaultMangle [(text "long name.txt", true)]

theorem nameMap_roundTrip_sample : ∃ r, checkCache defaultMangle sampleCache (text "LONG8R~K.TXT") = some r ∧
    SameUpToExtensionCase (text "long name.txt") r := by
  have h : (nameMap defaultMangle (fun _ => none) (text "long name.txt") true true).1 = some (text "LONG8R~K.TXT") := by decide
  exact (nameMap_roundTrip defaultMangle (fun _ => none) sampleCache _ _ (Prod.ext h rfl)).2.2

end Samba.Ntvfs
