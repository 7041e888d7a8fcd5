/-
Access control entries in SDDL text: the six parts of an entry, and the entries that are read back as they are.
-/
import Samba.Security.SddlSid

namespace Samba.Security

open CString List

/-! ## Parts -/

/-- A part of an entry has no separator and no bracket in it. -/
def PartText (s : Text) : Prop := ∀ c ∈ s, c ≠ chr ';' ∧ c ≠ chr ')'

theorem partText_nil : PartText [] := by simp [PartText]

theorem sddlTokens_cons {t : Text} (ht : PartText t) (n : Nat) (rest : Text) :
    sddlTokens (n + 1) (t ++ chr ';' :: rest) = (sddlTokens n rest).map (t :: ·) := by
  have hfind : strchr (t ++ chr ';' :: rest) (chr ';') = some t.length := strchr_append fun h => (ht _ h).1 rfl
  have hdrop : (t ++ chr ';' :: rest).drop (t.length + 1) = rest := by
    rw [drop_append, drop_of_length_le (by omega)]
    simp
  rw [sddlTokens, hfind]
  dsimp only
  rw [hdrop, take_left]

theorem partText_upper {s : Text} (h : ∀ c ∈ s, isUpper c = true) : PartText s := by
  have hall : ∀ c : UInt8, isUpper c = true → c ≠ chr ';' ∧ c ≠ chr ')' := by
    refine fun c h => ⟨?_, ?_⟩
    all_goals
      rintro rfl
      exact absurd h (by decide)
  exact fun c hc => hall c (h c hc)

theorem Legible.partText {map : List FlagMap} (hmap : Legible map) {ms : List FlagMap} (hms : ∀ m ∈ ms, m ∈ map) :
    PartText (namesOf ms) := by
  refine partText_upper fun c hc => ?_
  obtain ⟨m, hm, hc⟩ := mem_flatMap.mp hc
  exact hmap.upper m (hms m hm) c hc

theorem partText_hexField (width n : Nat) : PartText (hexField width n) := by
  have hall : ∀ c : UInt8, (digitVal c).isSome = true → c ≠ chr ';' ∧ c ≠ chr ')' := by
    refine fun c h => ⟨?_, ?_⟩
    all_goals
      rintro rfl
      exact absurd h (by decide)
  intro c hc
  obtain ⟨d, hd, _⟩ := isDigitOf_hexField width n c hc
  exact hall c (by rw [hd]; rfl)

theorem partText_append {s t : Text} (hs : PartText s) (ht : PartText t) : PartText (s ++ t) :=
  fun c hc => (mem_append.mp hc).elim (hs c) (ht c)

theorem partText_guidString (guid : Guid) : PartText (guidString guid) := by
  have hfields : ∀ (fields : List (Bool × Nat)) (ns : List Nat), PartText (printFields fields ns) := by
    intro fields
    induction fields with
    | nil => exact fun _ => partText_nil
    | cons field fields ih =>
      intro ns
      obtain ⟨dash, width⟩ := field
      match ns with
      | [] => exact partText_nil
      | n :: ns =>
        have hdash : PartText (if dash then [chr '-'] else []) := by
          cases dash
          · exact partText_nil
          · simp only [PartText, if_true, mem_singleton]
            rintro c rfl
            decide
        exact partText_append (partText_append hdash (partText_hexField width n)) (ih ns)
  exact hfields _ _

theorem guidString_ne_nil (guid : Guid) : guidString guid ≠ [] := by
  intro h
  have := congrArg List.length h
  simp [guidString, guidFields, Guid.fields, printFields] at this

/-! ## Types, flags and masks -/

/-- The types that letters make, with the letters that are written for each and the type that these are read as. -/
def aceTypeLetters : List (BitVec 32 × Text × BitVec 32) :=
  [(0, "A".toList.map chr, 0), (1, "D".toList.map chr, 1), (2, "AU".toList.map chr, 2), (3, "AL".toList.map chr, 3),
    (5, "OA".toList.map chr, 5), (6, "OD".toList.map chr, 6), (7, "OU".toList.map chr, 7), (8, "OL".toList.map chr, 8),
    (9, "ALOL".toList.map chr, 11), (10, "AUOL".toList.map chr, 10), (11, "AUALOL".toList.map chr, 11),
    (13, "ALOAOL".toList.map chr, 15), (14, "AUOAOL".toList.map chr, 15), (15, "AUALOAOL".toList.map chr, 15)]

/-- The types whose letters make another type. -/
def mixedTypes : List (BitVec 32) := [9, 13, 14]

theorem encode_type {type : BitVec 32} (h : type ∈ aceTypeLetters.map Prod.fst) :
    ∃ s type', sddlFlagsToString aceTypes type true = some s ∧ PartText s ∧ sddlMapFlags aceTypes s = some (type', []) ∧
      (type' = type ↔ type ∉ mixedTypes) := by
  have hwrite : ∀ row ∈ aceTypeLetters, sddlFlagsToString aceTypes row.1 true = some row.2.1 :=
    forall_entry (by decide)
  have hread : ∀ row ∈ aceTypeLetters, sddlMapFlags aceTypes row.2.1 = some (row.2.2, []) :=
    forall_entry (by decide)
  have hupper : ∀ row ∈ aceTypeLetters, ∀ c ∈ row.2.1, isUpper c = true := forall_chars (by decide)
  have hmixed : ∀ row ∈ aceTypeLetters, (row.2.2 = row.1 ↔ row.1 ∉ mixedTypes) := forall_entry (by decide)
  obtain ⟨row, hrow, rfl⟩ := mem_map.mp h
  exact ⟨row.2.1, row.2.2, hwrite row hrow, partText_upper (hupper row hrow), hread row hrow, hmixed row hrow⟩

theorem stopsFlags_nil : StopsFlags [] := by simp [StopsFlags]

/-- Flags that the map has are read as they are written. -/
theorem Legible.encode_flags {map : List FlagMap} (hmap : Legible map) {flags : BitVec 32}
    (h : flags &&& ~~~flagsOf map = 0) :
    ∃ s, sddlFlagsToString map flags true = some s ∧ PartText s ∧ sddlMapFlags map s = some (flags, []) := by
  obtain ⟨ms, hms, hflags, hstring⟩ := hmap.flagsToString flags true
  have hread := hmap.mapFlags_names hms stopsFlags_nil
  rw [append_nil, hflags, and_eq_of_and_not h] at hread
  refine ⟨namesOf ms, ?_, hmap.partText hms, hread⟩
  rw [hstring, if_neg (fun hleft => hleft.2 h)]

/-- Every access mask is read as it is written, in letters or as a number. -/
theorem encode_mask (mask : BitVec 32) :
    ∃ s, (sddlFlagsToString aceAccessMask mask true).getD (chr '0' :: chr 'x' :: hexField 8 mask.toNat) = s ∧ PartText s ∧
      sddlDecodeMask s = some mask := by
  obtain ⟨ms, hms, hflags, hstring⟩ := legible_aceAccessMask.flagsToString mask true
  by_cases hleft : mask &&& ~~~flagsOf aceAccessMask = 0
  · have hread := legible_aceAccessMask.mapFlags_names hms stopsFlags_nil
    rw [append_nil, hflags, and_eq_of_and_not hleft] at hread
    have hletters : ¬ [chr '0', chr 'x'] <+: namesOf ms := by
      intro hpre
      obtain ⟨m, hm, hzero⟩ := mem_flatMap.mp (hpre.subset mem_cons_self)
      exact absurd (legible_aceAccessMask.upper m (hms m hm) _ hzero) (by decide)
    refine ⟨namesOf ms, ?_, legible_aceAccessMask.partText hms, ?_⟩
    · rw [hstring, if_neg (fun h => h.2 hleft)]
      rfl
    · rw [sddlDecodeMask, if_neg hletters, hread]
      rfl
  · refine ⟨_, rfl, ?_, ?_⟩
    · rw [hstring, if_pos ⟨rfl, hleft⟩]
      intro c hc
      rcases mem_cons.mp hc with rfl | hc
      · decide
      rcases mem_cons.mp hc with rfl | hc
      · decide
      exact partText_hexField 8 _ c hc
    · have hlt : mask.toNat < 2 ^ 32 := mask.isLt
      have hwidth : mask.toNat < 16 ^ 8 := by omega
      have hnumber := @strtol_hexField 8 _ (by decide) hwidth (by omega)
      have hpre : [chr '0', chr 'x'] <+: chr '0' :: chr 'x' :: hexField 8 mask.toNat := prefix_append [_, _] _
      rw [hstring, if_pos ⟨rfl, hleft⟩, Option.getD_none, sddlDecodeMask, if_pos hpre, hnumber]
      dsimp only
      rw [BitVec.ofInt_natCast, BitVec.ofNat_toNat, BitVec.setWidth_eq]

theorem encode_guid (guid : Option Guid) :
    ∃ s, (match guid with | some guid => guidString guid | none => []) = s ∧ PartText s ∧ sddlDecodeGuid s = some guid := by
  cases guid with
  | none => exact ⟨[], rfl, partText_nil, rfl⟩
  | some guid =>
    refine ⟨_, rfl, partText_guidString guid, ?_⟩
    rw [sddlDecodeGuid, if_neg (guidString_ne_nil guid), guidFromString_guidString]
    rfl

/-! ## Entries -/

/-- What holds of the entries that `sddl_decode_ace` returns. -/
structure AceDecoded (domainSid : DomSid) (ace : SecurityAce) : Prop where
  type : ace.type ∈ aceTypeLetters.map Prod.fst
  flags : ace.flags.setWidth 32 &&& ~~~flagsOf aceFlags = 0
  object : ∃ type inheritedType, ace.object = aceObject type inheritedType
  trustee : SidDecoded domainSid ace.trustee

/-- The entries whose text is read back as they are: the letters of the type give the type, GUIDs are there for the types only
that `sddl_encode_ace` prints them for, and the trustee is kept. -/
structure AceKept (stray : DomSid → UInt32) (domainSid : DomSid) (ace : SecurityAce) : Prop where
  type : ace.type ∉ mixedTypes
  object : printsGuids ace.type = true ∨ ace.object.flags = 0
  trustee : SidKept stray domainSid ace.trustee

theorem aceObject_flags (type inheritedType : Option Guid) :
    ((aceObject type inheritedType).flags &&& secAceObjectTypePresent ≠ 0 ↔ type.isSome = true) ∧
      ((aceObject type inheritedType).flags &&& secAceInheritedObjectTypePresent ≠ 0 ↔ inheritedType.isSome = true) := by
  cases type <;> cases inheritedType <;> simp [aceObject, secAceObjectTypePresent, secAceInheritedObjectTypePresent]

theorem aceObject_flags_eq_zero {type inheritedType : Option Guid} :
    (aceObject type inheritedType).flags = 0 ↔ type = none ∧ inheritedType = none := by
  cases type <;> cases inheritedType <;> simp [aceObject, secAceObjectTypePresent, secAceInheritedObjectTypePresent]

/-- The text of an entry, and what is read of its parts. -/
theorem encodeAce_parts (stray : DomSid → UInt32) {domainSid : DomSid} {ace : SecurityAce} (hdecoded : AceDecoded domainSid ace)
    {object iobject : Option Guid} (hobject : ace.object = aceObject object iobject) :
    ∃ s type', sddlEncodeAce stray domainSid ace = some (s ++ sddlEncodeSid stray domainSid ace.trustee) ∧
      (∀ c ∈ s, c ≠ chr ')') ∧ (type' = ace.type ↔ ace.type ∉ mixedTypes) ∧
      ∀ sid, sddlDecodeAce domainSid (s ++ sid) = (sddlDecodeSid domainSid sid).map fun trustee =>
        ⟨type', ace.flags, ace.accessMask, aceObject (if printsGuids ace.type then object else none)
          (if printsGuids ace.type then iobject else none), trustee.1⟩ := by
  obtain ⟨sType, type', htype, hpType, hreadType, hmixed⟩ := encode_type hdecoded.type
  obtain ⟨sFlags, hflags, hpFlags, hreadFlags⟩ := legible_aceFlags.encode_flags hdecoded.flags
  obtain ⟨sMask, hmask, hpMask, hreadMask⟩ := encode_mask ace.accessMask
  obtain ⟨sObject, hsObject, hpObject, hreadObject⟩ := encode_guid (if printsGuids ace.type then object else none)
  obtain ⟨sIobject, hsIobject, hpIobject, hreadIobject⟩ := encode_guid (if printsGuids ace.type then iobject else none)
  have hguid : (if printsGuids ace.type ∧ ace.object.flags &&& secAceObjectTypePresent ≠ 0 then
      guidString ace.object.type else []) = sObject := by
    rw [← hsObject, hobject]
    simp only [(aceObject_flags object iobject).1]
    cases printsGuids ace.type <;> cases object <;> simp [aceObject]
  have higuid : (if printsGuids ace.type ∧ ace.object.flags &&& secAceInheritedObjectTypePresent ≠ 0 then
      guidString ace.object.inheritedType else []) = sIobject := by
    rw [← hsIobject, hobject]
    simp only [(aceObject_flags object iobject).2]
    cases printsGuids ace.type <;> cases iobject <;> simp [aceObject]
  refine ⟨sType ++ chr ';' :: (sFlags ++ chr ';' :: (sMask ++ chr ';' :: (sObject ++ chr ';' :: (sIobject ++ [chr ';'])))),
    type', ?_, ?_, hmixed, ?_⟩
  · rw [sddlEncodeAce, htype, hflags]
    dsimp only
    rw [hmask, hguid, higuid]
    simp
  · have hsep : chr ';' ≠ chr ')' := by decide
    intro c hc
    simp only [mem_append, mem_cons, not_mem_nil, or_false] at hc
    rcases hc with hc | rfl | hc | rfl | hc | rfl | hc | rfl | hc | rfl
    · exact (hpType c hc).2
    · exact hsep
    · exact (hpFlags c hc).2
    · exact hsep
    · exact (hpMask c hc).2
    · exact hsep
    · exact (hpObject c hc).2
    · exact hsep
    · exact (hpIobject c hc).2
    · exact hsep
  · intro sid
    have htokens : sddlTokens 5 (sType ++ chr ';' :: (sFlags ++ chr ';' :: (sMask ++ chr ';' :: (sObject ++ chr ';' ::
        (sIobject ++ [chr ';'])))) ++ sid) = some [sType, sFlags, sMask, sObject, sIobject, sid] := by
      simp only [append_assoc, cons_append, nil_append]
      rw [sddlTokens_cons hpType, sddlTokens_cons hpFlags, sddlTokens_cons hpMask, sddlTokens_cons hpObject,
        sddlTokens_cons hpIobject]
      rfl
    rw [sddlDecodeAce, htokens]
    dsimp only
    rw [hreadType, hreadFlags, hreadMask, hreadObject, hreadIobject]
    cases sddlDecodeSid domainSid sid with
    | none => rfl
    | some trustee =>
      dsimp only
      rw [BitVec.setWidth_setWidth_of_le _ (by decide), BitVec.setWidth_eq]
      rfl

/-- What is read of the text of an entry. -/
def aceReread (stray : DomSid → UInt32) (domainSid : DomSid) (ace : SecurityAce) : Option SecurityAce :=
  (sddlEncodeAce stray domainSid ace).bind (sddlDecodeAce domainSid)

theorem aceReread_iff {stray : DomSid → UInt32} {domainSid : DomSid} {ace : SecurityAce} (h0 : 0 ≤ domainSid.numAuths)
    (h7 : domainSid.numAuths < 2 ^ 7) (hdecoded : AceDecoded domainSid ace) :
    aceReread stray domainSid ace = some ace ↔ AceKept stray domainSid ace := by
  obtain ⟨object, iobject, hobject⟩ := hdecoded.object
  obtain ⟨s, type', hencode, _, hmixed, hdecode⟩ := encodeAce_parts stray hdecoded hobject
  have hsid := @sidReread_iff stray _ _ h0 h7 hdecoded.trustee
  have hreread : aceReread stray domainSid ace = (sidReread stray domainSid ace.trustee).map fun trustee =>
      ⟨type', ace.flags, ace.accessMask, aceObject (if printsGuids ace.type then object else none)
        (if printsGuids ace.type then iobject else none), trustee⟩ := by
    rw [aceReread, hencode, Option.bind_some, hdecode, sidReread, Option.map_map]
    rfl
  rw [hreread]
  constructor
  · intro h
    obtain ⟨trustee, htrustee, heq⟩ := Option.map_eq_some_iff.mp h
    obtain ⟨acetype, aceflags, mask, aceobject, acetrustee⟩ := ace
    simp only [SecurityAce.mk.injEq, true_and] at heq
    obtain ⟨rfl, hguids, rfl⟩ := heq
    refine ⟨hmixed.mp rfl, ?_, hsid.mp htrustee⟩
    dsimp only at hguids hobject ⊢
    by_cases hprints : printsGuids type' = true
    · exact .inl hprints
    · right
      rw [if_neg hprints, if_neg hprints] at hguids
      rw [← hguids]
      exact aceObject_flags_eq_zero.mpr ⟨rfl, rfl⟩
  · intro h
    have hguids : aceObject (if printsGuids ace.type then object else none)
        (if printsGuids ace.type then iobject else none) = ace.object := by
      rcases h.object with hprints | hzero
      · rw [if_pos hprints, if_pos hprints, hobject]
      · rw [hobject] at hzero ⊢
        obtain ⟨rfl, rfl⟩ := aceObject_flags_eq_zero.mp hzero
        simp
    rw [hsid.mpr h.trustee, Option.map_some, hguids, hmixed.mpr h.type]

end Samba.Security
