/-
Security descriptors in SDDL text: the descriptors that `sddl_decode` returns, and those of them that are read back from what
`sddl_encode` writes.
-/
import Samba.Security.SddlAce

namespace Samba.Security

open CString List Option

/-! ## What is read -/

/-- The flags of a list that letters make. -/
def aclFlagValues : List (BitVec 32) := [0, 0x1000, 0x0100, 0x0400, 0x1100, 0x1400, 0x0500, 0x1500]

/-- What holds of the lists that `sddl_decode_acl` returns. -/
structure AclDecoded (domainSid : DomSid) (acl : SecurityAcl) : Prop where
  revision : acl = aclOf acl.aces
  aces : ∀ ace ∈ acl.aces, AceDecoded domainSid ace

/-- The type of a descriptor with a DACL or not, a SACL or not, and the flags of these. -/
def sdType (dacl sacl : Bool) (dflags sflags : BitVec 32) : BitVec 16 :=
  secDescSelfRelative ||| (if dacl then dflags.setWidth 16 ||| secDescDaclPresent else 0) |||
    (if sacl then (sflags <<< 1).setWidth 16 ||| secDescSaclPresent else 0)

/-- What holds of the descriptors that `sddl_decode` returns. -/
structure SdDecoded (domainSid : DomSid) (sd : SecurityDescriptor) : Prop where
  revision : sd.revision = 1
  type : ∃ dflags ∈ aclFlagValues, ∃ sflags ∈ aclFlagValues, sd.type = sdType sd.dacl.isSome sd.sacl.isSome dflags sflags
  owner : ∀ sid ∈ sd.ownerSid, SidDecoded domainSid sid
  group : ∀ sid ∈ sd.groupSid, SidDecoded domainSid sid
  dacl : ∀ acl ∈ sd.dacl, AclDecoded domainSid acl
  sacl : ∀ acl ∈ sd.sacl, AclDecoded domainSid acl

variable {rest s str : Text} {flags : BitVec 32} {map : List FlagMap} {domainSid : DomSid} {n : Nat}
  {aces : List SecurityAce}

theorem aceType_decoded {type : BitVec 32} (h : sddlMapFlags aceTypes str = some (type, rest)) :
    type ∈ aceTypeLetters.map Prod.fst := by
  have hclosed : ∀ m ∈ aceTypes, ∀ row ∈ aceTypeLetters, row.1 ||| m.flag ∈ aceTypeLetters.map Prod.fst :=
    forall_entries (by decide)
  refine mapFlags_invariant (P := fun flags => flags ∈ aceTypeLetters.map Prod.fst) (by decide) ?_ h
  intro m hm flags hflags
  obtain ⟨row, hrow, rfl⟩ := mem_map.mp hflags
  exact hclosed m hm row hrow

theorem aclFlags_decoded (h : sddlMapFlags aclFlags str = some (flags, rest)) : flags ∈ aclFlagValues := by
  have hclosed : ∀ m ∈ aclFlags, aclFlagValues.all (fun flags => flags ||| m.flag ∈ aclFlagValues) = true := by
    decide
  refine mapFlags_invariant (P := fun flags => flags ∈ aclFlagValues) (by decide) ?_ h
  intro m hm flags hflags
  exact of_decide_eq_true (all_eq_true.mp (hclosed m hm) flags hflags)

theorem mapFlags_within (h : sddlMapFlags map str = some (flags, rest)) : flags &&& ~~~flagsOf map = 0 := by
  refine mapFlags_invariant (P := fun flags => flags &&& ~~~flagsOf map = 0) BitVec.zero_and ?_ h
  intro m hm flags hflags
  rw [BitVec.and_or_distrib_right, hflags, and_flagsOf hm]
  rfl

/-- No flag is gained where a byte is made of the flags. -/
theorem setWidth_within {within : BitVec 32} (h : flags &&& ~~~within = 0) :
    (flags.setWidth 8).setWidth 32 &&& ~~~within = 0 := by
  apply BitVec.eq_of_getLsbD_eq
  intro i hi
  have hbit := congrArg (fun b : BitVec 32 => b.getLsbD i) h
  simp only [BitVec.getLsbD_and, BitVec.getLsbD_setWidth, BitVec.ofNat_eq_ofNat, BitVec.getLsbD_zero] at hbit ⊢
  cases hflag : flags.getLsbD i <;> simp_all

theorem decodeAce_decoded {ace : SecurityAce}
    (h : sddlDecodeAce domainSid str = some ace) : AceDecoded domainSid ace := by
  rw [sddlDecodeAce] at h
  split at h
  · split at h
    · rename_i htype hflags _ _ _ htrustee
      cases h
      exact ⟨aceType_decoded htype, setWidth_within (mapFlags_within hflags), ⟨_, _, rfl⟩, decodeSid_decoded htrustee⟩
    · cases h
  · cases h

theorem decodeAces_decoded
    (h : sddlDecodeAces domainSid n s = some (aces, rest)) : ∀ ace ∈ aces, AceDecoded domainSid ace := by
  induction n generalizing s aces with
  | zero =>
    match s with
    | [] =>
      cases h
      simp
    | _ :: _ => cases h
  | succ n ih =>
    match s with
    | [] =>
      cases h
      simp
    | c :: s =>
      rw [sddlDecodeAces] at h
      split at h
      · cases h
        simp
      · dsimp only at h
        split at h
        · cases h
        · split at h
          · cases h
          · rename_i ace hace
            obtain ⟨⟨aces', rest'⟩, haces, hpair⟩ := map_eq_some_iff.mp h
            cases hpair
            rw [forall_mem_cons]
            exact ⟨decodeAce_decoded hace, ih haces⟩

theorem decodeAcl_decoded {acl : SecurityAcl}
    (h : sddlDecodeAcl domainSid s = some (acl, flags, rest)) : AclDecoded domainSid acl ∧ flags ∈ aclFlagValues := by
  rw [sddlDecodeAcl] at h
  split at h
  · cases h
    exact ⟨⟨rfl, by simp [aclOf]⟩, by decide⟩
  · split at h
    · cases h
    · rename_i hflags
      obtain ⟨⟨aces, rest'⟩, haces, hpair⟩ := map_eq_some_iff.mp h
      cases hpair
      exact ⟨⟨rfl, decodeAces_decoded haces⟩, aclFlags_decoded hflags⟩

/-- Every part that is read keeps what holds of a descriptor. -/
theorem decodeParts_decoded {sd sd' : SecurityDescriptor}
    (hsd : SdDecoded domainSid sd) (h : sddlDecodeParts domainSid n s sd = some sd') : SdDecoded domainSid sd' := by
  induction n generalizing s sd with
  | zero =>
    match s with
    | [] =>
      cases h
      exact hsd
    | _ :: _ => cases h
  | succ n ih =>
    match s with
    | [] =>
      cases h
      exact hsd
    | [_] => cases h
    | c :: c' :: s =>
      obtain ⟨dflags, hdflags, sflags, hsflags, htype⟩ := hsd.type
      rw [sddlDecodeParts] at h
      split at h
      · cases h
      split at h
      · split at h
        · cases h
        rename_i hnone
        split at h
        · cases h
        · rename_i acl flags rest hacl
          obtain ⟨hdecoded, hflags⟩ := decodeAcl_decoded hacl
          refine ih ?_ h
          refine ⟨hsd.revision, ⟨flags, hflags, sflags, hsflags, ?_⟩, hsd.owner, hsd.group, ?_, hsd.sacl⟩
          · rw [htype, Bool.eq_false_iff.mpr hnone, sdType, sdType]
            simp only [Bool.false_eq_true, if_false, isSome_some, if_true]
            ac_rfl
          · rintro _ ⟨⟩
            exact hdecoded
      split at h
      · split at h
        · cases h
        rename_i hnone
        split at h
        · cases h
        · rename_i acl flags rest hacl
          obtain ⟨hdecoded, hflags⟩ := decodeAcl_decoded hacl
          refine ih ?_ h
          refine ⟨hsd.revision, ⟨dflags, hdflags, flags, hflags, ?_⟩, hsd.owner, hsd.group, hsd.dacl, ?_⟩
          · rw [htype, Bool.eq_false_iff.mpr hnone, sdType, sdType]
            simp only [Bool.false_eq_true, if_false, isSome_some, if_true]
            ac_rfl
          · rintro _ ⟨⟩
            exact hdecoded
      split at h
      · split at h
        · cases h
        split at h
        · cases h
        · rename_i sid rest hsid
          refine ih ?_ h
          refine ⟨hsd.revision, hsd.type, ?_, hsd.group, hsd.dacl, hsd.sacl⟩
          rintro _ ⟨⟩
          exact decodeSid_decoded hsid
      split at h
      · split at h
        · cases h
        split at h
        · cases h
        · rename_i sid rest hsid
          refine ih ?_ h
          refine ⟨hsd.revision, hsd.type, hsd.owner, ?_, hsd.dacl, hsd.sacl⟩
          rintro _ ⟨⟩
          exact decodeSid_decoded hsid
      exact ih hsd h

theorem sddlDecode_decoded {sd : SecurityDescriptor}
    (h : sddlDecode domainSid s = some sd) : SdDecoded domainSid sd := by
  have hstart : SdDecoded domainSid ⟨1, secDescSelfRelative, none, none, none, none⟩ :=
    ⟨rfl, ⟨0, by decide, 0, by decide, rfl⟩, by simp, by simp, by simp, by simp⟩
  exact decodeParts_decoded hstart h

/-! ## Entries that are written -/

/-- What is read of the text of some entries. -/
def acesReread (stray : DomSid → UInt32) (domainSid : DomSid) : List SecurityAce → Option (List SecurityAce)
  | [] => some []
  | ace :: aces =>
    match aceReread stray domainSid ace with
    | none => none
    | some ace => (acesReread stray domainSid aces).map (ace :: ·)

/-- The text of an entry in brackets is read on its own. -/
theorem decodeAces_encodeAce (stray : DomSid → UInt32) {ace : SecurityAce} (hdecoded : AceDecoded domainSid ace) (rest : Text) :
    ∃ text, sddlEncodeAce stray domainSid ace = some text ∧
      sddlDecodeAces domainSid (n + 1) (chr '(' :: (text ++ chr ')' :: rest)) =
        match aceReread stray domainSid ace with
        | none => none
        | some ace => (sddlDecodeAces domainSid n rest).map fun (aces, rest) => (ace :: aces, rest) := by
  obtain ⟨object, iobject, hobject⟩ := hdecoded.object
  obtain ⟨s, type', hencode, hs, _, hdecode⟩ := encodeAce_parts stray hdecoded hobject
  have hreread : aceReread stray domainSid ace = sddlDecodeAce domainSid (s ++ sddlEncodeSid stray domainSid ace.trustee) := by
    rw [aceReread, hencode, bind_some]
  refine ⟨_, hencode, ?_⟩
  rw [sddlDecodeAces, if_neg (not_not.mpr rfl)]
  dsimp only
  have hs' : ∀ c ∈ s, (decide (c ≠ chr ')')) = true := fun c hc => decide_eq_true (hs c hc)
  rcases encodeSid_bracket stray domainSid ace.trustee with hsid | hsid
  · have hspan : (s ++ sddlEncodeSid stray domainSid ace.trustee ++ chr ')' :: rest).takeWhile (· ≠ chr ')') =
        s ++ sddlEncodeSid stray domainSid ace.trustee := by
      rw [takeWhile_append_of_pos, takeWhile_cons_of_neg (by simp), append_nil]
      intro c hc
      exact (mem_append.mp hc).elim (hs' c) fun hc => decide_eq_true (hsid c hc)
    rw [hspan, drop_left]
    generalize sddlDecodeAce domainSid (s ++ sddlEncodeSid stray domainSid ace.trustee) = decoded at hreread ⊢
    generalize aceReread stray domainSid ace = reread at hreread ⊢
    subst hreread
    cases reread <;> rfl
  · -- the text of an error has a bracket itself; it is no SID with and without this
    have herror : aceReread stray domainSid ace = none := by
      rw [hreread, hdecode, hsid, decodeSid_error]
      rfl
    have hspan : (s ++ sddlEncodeSid stray domainSid ace.trustee ++ chr ')' :: rest).takeWhile (· ≠ chr ')') =
        s ++ chr '(' :: "SID ERR".toList.map chr := by
      have hsplit : s ++ sddlEncodeSid stray domainSid ace.trustee ++ chr ')' :: rest =
          (s ++ chr '(' :: "SID ERR".toList.map chr) ++ chr ')' :: chr ')' :: rest := by
        rw [hsid]
        simp
      rw [hsplit, takeWhile_append_of_pos, takeWhile_cons_of_neg (by simp), append_nil]
      have hletters : ∀ c ∈ chr '(' :: "SID ERR".toList.map chr, (decide (c ≠ chr ')')) = true :=
        all_eq_true.mp (by decide)
      exact fun c hc => (mem_append.mp hc).elim (hs' c) (hletters c)
    rw [hspan, herror, hdecode, decodeSid_error]
    cases (s ++ sddlEncodeSid stray domainSid ace.trustee ++ chr ')' :: rest).drop
      (s ++ chr '(' :: "SID ERR".toList.map chr).length <;> rfl

/-- What follows the entries of a list does not start with one. -/
def StopsAces (s : Text) : Prop := ∀ c ∈ s.head?, c ≠ chr '('

theorem decodeAces_encodeAces (stray : DomSid → UInt32)
    (hdecoded : ∀ ace ∈ aces, AceDecoded domainSid ace) (hrest : StopsAces rest) :
    ∃ text, sddlEncodeAces stray domainSid aces = some text ∧ (aces = [] → text = []) ∧
      (aces ≠ [] → text.head? = some (chr '(')) ∧ ∀ n, (text ++ rest).length ≤ n →
      sddlDecodeAces domainSid n (text ++ rest) = (acesReread stray domainSid aces).map (·, rest) := by
  induction aces with
  | nil =>
    refine ⟨[], rfl, fun _ => rfl, fun h => absurd rfl h, fun n hn => ?_⟩
    rw [nil_append] at hn ⊢
    match rest, n with
    | [], _ => rw [sddlDecodeAces]; rfl
    | c :: rest, 0 => simp at hn
    | c :: rest, n + 1 => rw [sddlDecodeAces, if_pos (hrest c rfl)]; rfl
  | cons ace aces ih =>
    obtain ⟨hace, haces⟩ := forall_mem_cons.mp hdecoded
    obtain ⟨texts, hencodes, _, _, hread⟩ := ih haces
    obtain ⟨text, hencode, _⟩ := decodeAces_encodeAce stray hace (n := 0) []
    refine ⟨chr '(' :: (text ++ chr ')' :: texts), ?_, by simp, fun _ => rfl, ?_⟩
    · rw [sddlEncodeAces, hencode, hencodes]
    · intro n hn
      match n with
      | 0 => simp at hn
      | n + 1 =>
        obtain ⟨text', hencode', hstep⟩ := decodeAces_encodeAce stray hace (n := n) (texts ++ rest)
        obtain rfl : text' = text := Option.some.inj (hencode'.symm.trans hencode)
        have hsplit : chr '(' :: (text' ++ chr ')' :: texts) ++ rest = chr '(' :: (text' ++ chr ')' :: (texts ++ rest)) := by
          simp
        have hlen : (texts ++ rest).length ≤ n := by
          rw [hsplit] at hn
          simp only [length_cons, length_append] at hn ⊢
          omega
        rw [hsplit, hstep, acesReread, hread n hlen]
        cases aceReread stray domainSid ace with
        | none => rfl
        | some ace' => cases acesReread stray domainSid aces <;> rfl

theorem acesReread_iff {stray : DomSid → UInt32} (h0 : 0 ≤ domainSid.numAuths)
    (h7 : domainSid.numAuths < 2 ^ 7) (hdecoded : ∀ ace ∈ aces, AceDecoded domainSid ace) :
    acesReread stray domainSid aces = some aces ↔ ∀ ace ∈ aces, AceKept stray domainSid ace := by
  induction aces with
  | nil => simp [acesReread]
  | cons ace aces ih =>
    obtain ⟨hace, haces⟩ := forall_mem_cons.mp hdecoded
    rw [forall_mem_cons, ← ih haces, ← aceReread_iff h0 h7 hace, acesReread]
    cases aceReread stray domainSid ace with
    | none => simp
    | some ace' => simp [and_comm]

/-! ## Lists that are written -/

/-- What may follow a list: nothing, or the SACL. -/
def ListEnd (rest : Text) : Prop := rest = [] ∨ ∃ s, rest = chr 'S' :: chr ':' :: s

theorem ListEnd.stopsAces (h : ListEnd rest) : StopsAces rest := by
  rcases h with rfl | ⟨s, rfl⟩
  · simp [StopsAces]
  · rintro c ⟨⟩
    decide

/-- Flags in front of a text are not the start of a part. -/
theorem Legible.startsPart_names (hmap : Legible map) {ms : List FlagMap} (hms : ∀ m ∈ ms, m ∈ map)
    (hne : ms ≠ []) (hrest : rest.head? ≠ some (chr ':')) : startsPart (namesOf ms ++ rest) = false := by
  have hupper : ∀ c : UInt8, isUpper c = true → c ≠ chr ':' := by
    rintro c h rfl
    exact absurd h (by decide)
  obtain ⟨m, ms, rfl⟩ := exists_cons_of_ne_nil hne
  obtain ⟨c, name, hname⟩ := exists_cons_of_ne_nil (hmap.named m (hms m mem_cons_self))
  have hletters : ∀ c ∈ namesOf (m :: ms), isUpper c = true := by
    intro c hc
    obtain ⟨m', hm', hc⟩ := mem_flatMap.mp hc
    exact hmap.upper m' (hms m' hm') c hc
  have hsplit : namesOf (m :: ms) = c :: (name ++ namesOf ms) := by
    rw [namesOf, flatMap_cons, hname]
    rfl
  rw [hsplit] at hletters ⊢
  rw [cons_append]
  have hsecond : (name ++ namesOf ms ++ rest).head? ≠ some (chr ':') := by
    cases htail : name ++ namesOf ms with
    | nil => rwa [nil_append]
    | cons c' tail =>
      rw [cons_append, List.head?_cons, ne_eq, Option.some.injEq]
      exact hupper c' (hletters c' (mem_cons_of_mem _ (htail ▸ mem_cons_self)))
  cases htail : name ++ namesOf ms ++ rest with
  | nil => rfl
  | cons c' tail =>
    rw [htail, List.head?_cons, ne_eq, Option.some.injEq] at hsecond
    rw [startsPart, decide_eq_false hsecond, Bool.and_false]

theorem Legible.flagsOf_eq_zero (hmap : Legible map) {ms : List FlagMap} (hms : ∀ m ∈ ms, m ∈ map) :
    flagsOf ms = 0 ↔ ms = [] := by
  match ms with
  | [] => simp [flagsOf]
  | m :: ms =>
    obtain ⟨k, hk, hflag⟩ := hmap.bit m (hms m mem_cons_self)
    refine ⟨fun h => ?_, fun h => by cases h⟩
    have hbit := congrArg (fun b : BitVec 32 => b.getLsbD k) h
    simp [flagsOf_cons, hflag, hk] at hbit

/-- A list is read on its own, but that flags without entries are not told apart from the SACL behind them. -/
theorem decodeAcl_encodeAcl (stray : DomSid → UInt32) {domainSid : DomSid} {acl : SecurityAcl} (hdecoded : AclDecoded domainSid acl)
    (flags : BitVec 32) {rest : Text} (hrest : ListEnd rest) :
    ∃ text, sddlEncodeAcl stray domainSid acl flags = some text ∧
      sddlDecodeAcl domainSid (text ++ rest) =
        if acl.aces = [] ∧ flags &&& flagsOf aclFlags ≠ 0 ∧ rest ≠ [] then none
        else (acesReread stray domainSid acl.aces).map fun aces => (aclOf aces, flags &&& flagsOf aclFlags, rest) := by
  obtain ⟨ms, hms, hflags, hstring⟩ := legible_aclFlags.flagsToString flags false
  obtain ⟨texts, hencodes, hnil, hhead, hread⟩ := decodeAces_encodeAces stray hdecoded.aces hrest.stopsAces
  refine ⟨namesOf ms ++ texts, ?_, ?_⟩
  · rw [sddlEncodeAcl, hstring, hencodes]
    simp
  rw [append_assoc, ← hflags, sddlDecodeAcl]
  by_cases haces : acl.aces = []
  · rw [hnil haces, nil_append, haces]
    by_cases hempty : ms = []
    · subst hempty
      have hzero : ¬ (([] : List SecurityAce) = [] ∧ flagsOf [] ≠ 0 ∧ rest ≠ []) := fun h => h.2.1 rfl
      rw [if_neg hzero]
      rcases hrest with rfl | ⟨s, rfl⟩
      · rfl
      · rfl
    · have hflag : flagsOf ms ≠ 0 := mt (legible_aclFlags.flagsOf_eq_zero hms).mp hempty
      rcases hrest with rfl | ⟨s, rfl⟩
      · rw [legible_aclFlags.startsPart_names hms hempty (by simp), if_neg Bool.false_ne_true,
          legible_aclFlags.mapFlags_names hms stopsFlags_nil, if_neg (fun h => h.2.2 rfl)]
        rfl
      · have hnone : ∀ m ∈ aclFlags, ¬ m.name <+: chr 'S' :: chr ':' :: s := by
          have hhead : ∀ m ∈ aclFlags, m.name ≠ [] ∧ m.name.head? ≠ some (chr 'S') :=
            forall_entry (by decide)
          intro m hm hpre
          obtain ⟨hne, hS⟩ := hhead m hm
          obtain ⟨c, name, hname⟩ := exists_cons_of_ne_nil hne
          rw [hname, cons_prefix_cons] at hpre
          exact hS (by rw [hname, hpre.1]; rfl)
        rw [legible_aclFlags.startsPart_names hms hempty (by rw [List.head?_cons]; decide), if_neg Bool.false_ne_true,
          legible_aclFlags.mapFlags_names_none hms (by decide) hnone, if_pos ⟨rfl, hflag, by simp⟩]
  · obtain ⟨tail, htail⟩ : ∃ tail, texts ++ rest = chr '(' :: tail := by
      obtain ⟨c, tail, htexts⟩ : ∃ c tail, texts = c :: tail := by
        match texts, hhead haces with
        | c :: tail, _ => exact ⟨c, tail, rfl⟩
      have hc := hhead haces
      rw [htexts, List.head?_cons, Option.some.injEq] at hc
      exact ⟨tail ++ rest, by rw [htexts, hc]; rfl⟩
    have hstops : StopsFlags (texts ++ rest) := by
      rw [htail]
      rintro c ⟨⟩
      decide
    have hpart : startsPart (namesOf ms ++ (texts ++ rest)) = false := by
      by_cases hempty : ms = []
      · subst hempty
        rw [htail]
        cases tail <;> rfl
      · exact legible_aclFlags.startsPart_names hms hempty (by rw [htail, List.head?_cons]; decide)
    rw [hpart, if_neg Bool.false_ne_true, legible_aclFlags.mapFlags_names hms hstops, if_neg (fun h => haces h.1)]
    dsimp only
    rw [hread _ (Nat.le_refl _), Option.map_map]
    rfl

/-- What is read of the text of a list. -/
def aclReread (stray : DomSid → UInt32) (domainSid : DomSid) (acl : SecurityAcl) : Option SecurityAcl :=
  (acesReread stray domainSid acl.aces).map aclOf

theorem aclReread_iff {stray : DomSid → UInt32} {domainSid : DomSid} {acl : SecurityAcl} (h0 : 0 ≤ domainSid.numAuths)
    (h7 : domainSid.numAuths < 2 ^ 7) (hdecoded : AclDecoded domainSid acl) :
    aclReread stray domainSid acl = some acl ↔ ∀ ace ∈ acl.aces, AceKept stray domainSid ace := by
  rw [← acesReread_iff h0 h7 hdecoded.aces, aclReread]
  constructor
  · intro h
    obtain ⟨aces, haces, hacl⟩ := map_eq_some_iff.mp h
    rw [haces, ← hacl]
    rfl
  · intro h
    rw [h, map_some, ← hdecoded.revision]

/-! ## Descriptors that are written -/

/-- What is read of the text of something that may be missing. -/
def optReread {α : Type} (reread : α → Option α) : Option α → Option (Option α)
  | none => some none
  | some a => (reread a).map some

theorem optReread_iff {α : Type} {reread : α → Option α} {P : α → Prop} {x : Option α}
    (h : ∀ a ∈ x, (reread a = some a ↔ P a)) : optReread reread x = some x ↔ ∀ a ∈ x, P a := by
  cases x with
  | none => simp [optReread]
  | some a =>
    have ha := h a rfl
    simp only [optReread, map_eq_some_iff, Option.some.injEq, exists_eq_right, mem_def, forall_eq']
    exact ha

/-- A text that goes on with a part of a descriptor, or ends. -/
def PartsText (rest : Text) : Prop := rest = [] ∨ ∃ c s, rest = c :: chr ':' :: s ∧ isUpper c = true

theorem PartsText.stopsSid (h : PartsText rest) : StopsSid rest := by
  have hupper : ∀ c : UInt8, isUpper c = true → isSidChar c = false := forall_byte (by decide +kernel)
  rcases h with rfl | ⟨c, s, rfl, hc⟩
  · simp [StopsSid]
  · rintro c ⟨⟩
    exact hupper _ hc

theorem sddlPart_partsText {letter : UInt8} (hletter : isUpper letter = true) {text : Option (Option Text)}
    (h : sddlPart letter text = some s) (hrest : PartsText rest) : PartsText (s ++ rest) := by
  match text with
  | none =>
    cases h
    exact hrest
  | some none => cases h
  | some (some t) =>
    cases h
    exact .inr ⟨letter, t ++ rest, rfl, hletter⟩

section
variable (stray : DomSid → UInt32) {domainSid : DomSid} {n : Nat} {s rest : Text} {sd : SecurityDescriptor}

theorem decodeParts_owner {sid : Option DomSid}
    (htext : sddlPart (chr 'O') (sid.map fun sid => some (sddlEncodeSid stray domainSid sid)) = some s)
    (hrest : PartsText rest) (hsd : sd.ownerSid = none) (hn : (s ++ rest).length ≤ n) :
    ∃ n', rest.length ≤ n' ∧ sddlDecodeParts domainSid n (s ++ rest) sd =
      (optReread (sidReread stray domainSid) sid).bind fun sid =>
        sddlDecodeParts domainSid n' rest { sd with ownerSid := sid } := by
  cases sid with
  | none =>
    cases htext
    exact ⟨n, hn, by rw [optReread, bind_some, ← hsd]; rfl⟩
  | some sid =>
    cases htext
    match n with
    | 0 => simp at hn
    | n + 1 =>
      refine ⟨n, by simp only [length_append, length_cons] at hn; omega, ?_⟩
      rw [cons_append, cons_append, sddlDecodeParts, decodeSid_encodeSid stray domainSid sid hrest.stopsSid, hsd]
      rw [if_neg (not_not.mpr rfl), if_neg (by decide), if_neg (by decide), if_pos rfl, optReread]
      cases sidReread stray domainSid sid <;> rfl

theorem decodeParts_group {sid : Option DomSid}
    (htext : sddlPart (chr 'G') (sid.map fun sid => some (sddlEncodeSid stray domainSid sid)) = some s)
    (hrest : PartsText rest) (hsd : sd.groupSid = none) (hn : (s ++ rest).length ≤ n) :
    ∃ n', rest.length ≤ n' ∧ sddlDecodeParts domainSid n (s ++ rest) sd =
      (optReread (sidReread stray domainSid) sid).bind fun sid =>
        sddlDecodeParts domainSid n' rest { sd with groupSid := sid } := by
  cases sid with
  | none =>
    cases htext
    exact ⟨n, hn, by rw [optReread, bind_some, ← hsd]; rfl⟩
  | some sid =>
    cases htext
    match n with
    | 0 => simp at hn
    | n + 1 =>
      refine ⟨n, by simp only [length_append, length_cons] at hn; omega, ?_⟩
      rw [cons_append, cons_append, sddlDecodeParts, decodeSid_encodeSid stray domainSid sid hrest.stopsSid, hsd]
      rw [if_neg (not_not.mpr rfl), if_neg (by decide), if_neg (by decide), if_neg (by decide), if_pos rfl, optReread]
      cases sidReread stray domainSid sid <;> rfl

/-- A DACL with flags and without entries, and with a SACL behind it, is not read. -/
def Ambiguous (acl : Option SecurityAcl) (flags : BitVec 32) (rest : Text) : Prop :=
  ∃ a ∈ acl, a.aces = [] ∧ flags &&& flagsOf aclFlags ≠ 0 ∧ rest ≠ []

instance (acl : Option SecurityAcl) (flags : BitVec 32) (rest : Text) : Decidable (Ambiguous acl flags rest) :=
  inferInstanceAs (Decidable (∃ a ∈ acl, a.aces = [] ∧ flags &&& flagsOf aclFlags ≠ 0 ∧ rest ≠ []))

theorem decodeParts_dacl {acl : Option SecurityAcl} {flags : BitVec 32} (hdecoded : ∀ a ∈ acl, AclDecoded domainSid a)
    (hrest : ListEnd rest) :
    ∃ s, sddlPart (chr 'D') (acl.map fun acl => sddlEncodeAcl stray domainSid acl flags) = some s ∧
      ∀ {n : Nat} {sd : SecurityDescriptor}, sd.dacl = none → (s ++ rest).length ≤ n →
      ∃ n', rest.length ≤ n' ∧ sddlDecodeParts domainSid n (s ++ rest) sd =
        if Ambiguous acl flags rest then none
        else (optReread (aclReread stray domainSid) acl).bind fun acl' =>
          sddlDecodeParts domainSid n' rest { sd with
            dacl := acl'
            type := sd.type ||| if acl.isSome then (flags &&& flagsOf aclFlags).setWidth 16 ||| secDescDaclPresent else 0 } := by
  cases acl with
  | none =>
    refine ⟨[], rfl, fun {n sd} hsd hn => ⟨n, hn, ?_⟩⟩
    rw [if_neg (by simp [Ambiguous]), optReread, bind_some]
    obtain ⟨_, _, _, _, _, _⟩ := sd
    cases hsd
    simp
  | some acl =>
    obtain ⟨text, hencode, hread⟩ := decodeAcl_encodeAcl stray (hdecoded acl rfl) flags hrest
    refine ⟨chr 'D' :: chr ':' :: text, by rw [map_some, hencode]; rfl, fun {n sd} hsd hn => ?_⟩
    match n with
    | 0 => simp at hn
    | n + 1 =>
      refine ⟨n, by simp only [length_append, length_cons] at hn; omega, ?_⟩
      have hambiguous : Ambiguous (some acl) flags rest ↔ acl.aces = [] ∧ flags &&& flagsOf aclFlags ≠ 0 ∧ rest ≠ [] := by
        simp [Ambiguous]
      rw [cons_append, cons_append, sddlDecodeParts, hread, hsd]
      rw [if_neg (not_not.mpr rfl), if_pos rfl, isSome_none, if_neg Bool.false_ne_true, optReread, aclReread]
      by_cases hnone : acl.aces = [] ∧ flags &&& flagsOf aclFlags ≠ 0 ∧ rest ≠ []
      · rw [if_pos hnone, if_pos (hambiguous.mpr hnone)]
      · rw [if_neg hnone, if_neg (mt hambiguous.mp hnone)]
        cases acesReread stray domainSid acl.aces <;> rfl

theorem decodeParts_sacl {acl : Option SecurityAcl} {flags : BitVec 32} (hdecoded : ∀ a ∈ acl, AclDecoded domainSid a) :
    ∃ s, sddlPart (chr 'S') (acl.map fun acl => sddlEncodeAcl stray domainSid acl flags) = some s ∧
      (s = [] ↔ acl = none) ∧ ListEnd s ∧ ∀ {n : Nat} {sd : SecurityDescriptor}, sd.sacl = none → s.length ≤ n →
      sddlDecodeParts domainSid n s sd = (optReread (aclReread stray domainSid) acl).map fun acl' => { sd with
          sacl := acl'
          type := sd.type |||
            if acl.isSome then ((flags &&& flagsOf aclFlags) <<< 1).setWidth 16 ||| secDescSaclPresent else 0 } := by
  cases acl with
  | none =>
    refine ⟨[], rfl, by simp, .inl rfl, fun {n sd} hsd _ => ?_⟩
    rw [optReread, map_some, sddlDecodeParts]
    obtain ⟨_, _, _, _, _, _⟩ := sd
    cases hsd
    simp
  | some acl =>
    obtain ⟨text, hencode, hread⟩ := @decodeAcl_encodeAcl stray _ _ (hdecoded acl rfl) flags [] (.inl rfl)
    rw [append_nil, if_neg (fun h => h.2.2 rfl)] at hread
    refine ⟨chr 'S' :: chr ':' :: text, by rw [map_some, hencode]; rfl, by simp, .inr ⟨text, rfl⟩, fun {n sd} hsd hn => ?_⟩
    match n with
    | 0 => simp at hn
    | n + 1 =>
      rw [sddlDecodeParts, hread, hsd]
      rw [if_neg (not_not.mpr rfl), if_neg (by decide), if_pos rfl, isSome_none, if_neg Bool.false_ne_true, optReread,
        aclReread]
      cases acesReread stray domainSid acl.aces with
      | none => rfl
      | some aces =>
        dsimp only [map_some]
        rw [sddlDecodeParts]
        rfl

end

/-! ## Descriptors that are kept -/

/-- The flags `P`, `AR` and `AI` of a DACL. -/
def secDescDaclFlags : BitVec 16 := 0x1500

/-- The descriptors whose text is read back as they are: all their SIDs and entries are kept, and a DACL with flags has entries,
or no SACL behind it. -/
structure SdKept (stray : DomSid → UInt32) (domainSid : DomSid) (sd : SecurityDescriptor) : Prop where
  owner : ∀ sid ∈ sd.ownerSid, SidKept stray domainSid sid
  group : ∀ sid ∈ sd.groupSid, SidKept stray domainSid sid
  dacl : ∀ acl ∈ sd.dacl, ∀ ace ∈ acl.aces, AceKept stray domainSid ace
  sacl : ∀ acl ∈ sd.sacl, ∀ ace ∈ acl.aces, AceKept stray domainSid ace
  flagged : ∀ acl ∈ sd.dacl, acl.aces = [] → sd.sacl.isSome = true → sd.type &&& secDescDaclFlags = 0

/-- The text of a descriptor is accepted, and gives the descriptor back. -/
def SddlFaithful (stray : DomSid → UInt32) (domainSid : DomSid) (sd : SecurityDescriptor) : Prop :=
  ∃ sddl, sddlEncode stray domainSid sd = some sddl ∧ sddlDecode domainSid sddl = some sd

theorem sdType_eq (dacl sacl : Bool) {dflags sflags : BitVec 32} (hd : dflags ∈ aclFlagValues) (hs : sflags ∈ aclFlagValues) :
    (sdType dacl sacl dflags sflags &&& secDescDaclPresent ≠ 0 ↔ dacl = true) ∧
      (sdType dacl sacl dflags sflags &&& secDescSaclPresent ≠ 0 ↔ sacl = true) ∧
      (dacl = true → (sdType dacl sacl dflags sflags).setWidth 32 &&& flagsOf aclFlags = dflags) ∧
      (sacl = true → (sdType dacl sacl dflags sflags >>> 1).setWidth 32 &&& flagsOf aclFlags = sflags) ∧
      (dacl = true → (sdType dacl sacl dflags sflags &&& secDescDaclFlags = 0 ↔ dflags = 0)) := by
  have hall : (aclFlagValues.all fun dflags => aclFlagValues.all fun sflags => [false, true].all fun dacl =>
      [false, true].all fun sacl =>
        decide (sdType dacl sacl dflags sflags &&& secDescDaclPresent ≠ 0 ↔ dacl = true) &&
        (decide (sdType dacl sacl dflags sflags &&& secDescSaclPresent ≠ 0 ↔ sacl = true) &&
        (decide (dacl = true → (sdType dacl sacl dflags sflags).setWidth 32 &&& flagsOf aclFlags = dflags) &&
        (decide (sacl = true → (sdType dacl sacl dflags sflags >>> 1).setWidth 32 &&& flagsOf aclFlags = sflags) &&
        decide (dacl = true → (sdType dacl sacl dflags sflags &&& secDescDaclFlags = 0 ↔ dflags = 0)))))) = true := by
    decide
  have hbool : ∀ b : Bool, b ∈ [false, true] := by decide
  have h := all_eq_true.mp (all_eq_true.mp (all_eq_true.mp (all_eq_true.mp hall dflags hd) sflags hs)
    dacl (hbool dacl)) sacl (hbool sacl)
  simpa only [Bool.and_eq_true, decide_eq_true_eq] using h

/-- What `sddl_decode` returns is read back from what `sddl_encode` writes for it exactly if it is kept. -/
theorem sddlFaithful_iff {stray : DomSid → UInt32} {domainSid : DomSid} {s : Text} {sd : SecurityDescriptor}
    (h0 : 0 ≤ domainSid.numAuths) (h7 : domainSid.numAuths < 2 ^ 7) (h : sddlDecode domainSid s = some sd) :
    SddlFaithful stray domainSid sd ↔ SdKept stray domainSid sd := by
  have hdecoded := sddlDecode_decoded h
  obtain ⟨dflags, hdflags, sflags, hsflags, htype⟩ := hdecoded.type
  obtain ⟨hdpresent, hspresent, hdtype, hstype, hflagged⟩ := sdType_eq sd.dacl.isSome sd.sacl.isSome hdflags hsflags
  rw [← htype] at hdpresent hspresent hdtype hstype hflagged
  obtain ⟨sText, hsText, hsNil, hsEnd, hsRead⟩ :=
    @decodeParts_sacl stray _ _ ((sd.type >>> 1).setWidth 32) hdecoded.sacl
  obtain ⟨dText, hdText, hdRead⟩ := @decodeParts_dacl stray _ _ _ (sd.type.setWidth 32) hdecoded.dacl hsEnd
  obtain ⟨gText, hgText⟩ : ∃ text, sddlPart (chr 'G') (sd.groupSid.map fun sid => some (sddlEncodeSid stray domainSid sid)) =
      some text := by
    cases sd.groupSid <;> exact ⟨_, rfl⟩
  obtain ⟨oText, hoText⟩ : ∃ text, sddlPart (chr 'O') (sd.ownerSid.map fun sid => some (sddlEncodeSid stray domainSid sid)) =
      some text := by
    cases sd.ownerSid <;> exact ⟨_, rfl⟩
  have hsParts : PartsText sText := hsEnd.imp id fun ⟨t, ht⟩ => ⟨chr 'S', t, ht, by decide⟩
  have hdParts : PartsText (dText ++ sText) := sddlPart_partsText (by decide) hdText hsParts
  have hgParts : PartsText (gText ++ (dText ++ sText)) := sddlPart_partsText (by decide) hgText hdParts
  have hencode : sddlEncode stray domainSid sd = some (oText ++ (gText ++ (dText ++ sText))) := by
    have hdacl : (if sd.type &&& secDescDaclPresent ≠ 0 then
        sd.dacl.map fun acl => sddlEncodeAcl stray domainSid acl (sd.type.setWidth 32) else none) =
        sd.dacl.map fun acl => sddlEncodeAcl stray domainSid acl (sd.type.setWidth 32) := by
      simp only [hdpresent]
      cases sd.dacl <;> rfl
    have hsacl : (if sd.type &&& secDescSaclPresent ≠ 0 then
        sd.sacl.map fun acl => sddlEncodeAcl stray domainSid acl ((sd.type >>> 1).setWidth 32) else none) =
        sd.sacl.map fun acl => sddlEncodeAcl stray domainSid acl ((sd.type >>> 1).setWidth 32) := by
      simp only [hspresent]
      cases sd.sacl <;> rfl
    unfold sddlEncode
    dsimp only
    rw [hdacl, hsacl, hoText, hgText, hdText, hsText]
  have hsame : secDescSelfRelative |||
      (if sd.dacl.isSome then (sd.type.setWidth 32 &&& flagsOf aclFlags).setWidth 16 ||| secDescDaclPresent else 0) |||
      (if sd.sacl.isSome then
        (((sd.type >>> 1).setWidth 32 &&& flagsOf aclFlags) <<< 1).setWidth 16 ||| secDescSaclPresent else 0) = sd.type := by
    have hd : (if sd.dacl.isSome then (sd.type.setWidth 32 &&& flagsOf aclFlags).setWidth 16 ||| secDescDaclPresent else 0) =
        if sd.dacl.isSome then dflags.setWidth 16 ||| secDescDaclPresent else 0 := by
      split
      · rw [hdtype ‹_›]
      · rfl
    have ht : (if sd.sacl.isSome then
        (((sd.type >>> 1).setWidth 32 &&& flagsOf aclFlags) <<< 1).setWidth 16 ||| secDescSaclPresent else 0) =
        if sd.sacl.isSome then (sflags <<< 1).setWidth 16 ||| secDescSaclPresent else 0 := by
      split
      · rw [hstype ‹_›]
      · rfl
    rw [hd, ht, htype, sdType]
  have hread : sddlDecode domainSid (oText ++ (gText ++ (dText ++ sText))) =
      (optReread (sidReread stray domainSid) sd.ownerSid).bind fun o =>
        (optReread (sidReread stray domainSid) sd.groupSid).bind fun g =>
          if Ambiguous sd.dacl (sd.type.setWidth 32) sText then none
          else (optReread (aclReread stray domainSid) sd.dacl).bind fun d =>
            (optReread (aclReread stray domainSid) sd.sacl).map fun t => ⟨1, sd.type, o, g, t, d⟩ := by
    obtain ⟨n₁, hn₁, ho⟩ := @decodeParts_owner stray _ _ _ _ ⟨1, secDescSelfRelative, none, none, none, none⟩ _ hoText hgParts rfl
      (Nat.le_refl _)
    rw [sddlDecode, ho]
    refine bind_congr fun o _ => ?_
    obtain ⟨n₂, hn₂, hg⟩ := @decodeParts_group stray _ _ _ _ ⟨1, secDescSelfRelative, o, none, none, none⟩ _ hgText hdParts rfl hn₁
    rw [hg]
    refine bind_congr fun g _ => ?_
    obtain ⟨n₃, hn₃, hd⟩ := @hdRead _ ⟨1, secDescSelfRelative, o, g, none, none⟩ rfl hn₂
    rw [hd]
    refine if_congr Iff.rfl rfl (bind_congr fun d _ => ?_)
    rw [hsRead rfl hn₃]
    dsimp only
    rw [hsame]
  have howner := optReread_iff fun sid hsid => @sidReread_iff stray _ _ h0 h7 (hdecoded.owner sid hsid)
  have hgroup := optReread_iff fun sid hsid => @sidReread_iff stray _ _ h0 h7 (hdecoded.group sid hsid)
  have hdacl := optReread_iff fun acl hacl => @aclReread_iff stray _ _ h0 h7 (hdecoded.dacl acl hacl)
  have hsacl := optReread_iff fun acl hacl => @aclReread_iff stray _ _ h0 h7 (hdecoded.sacl acl hacl)
  have hambiguous : ¬ Ambiguous sd.dacl (sd.type.setWidth 32) sText ↔
      ∀ acl ∈ sd.dacl, acl.aces = [] → sd.sacl.isSome = true → sd.type &&& secDescDaclFlags = 0 := by
    have hpart : sText ≠ [] ↔ sd.sacl.isSome = true := by
      rw [ne_eq, hsNil]
      cases sd.sacl <;> simp
    have hflags {acl : SecurityAcl} (hacl : acl ∈ sd.dacl) :
        sd.type.setWidth 32 &&& flagsOf aclFlags = 0 ↔ sd.type &&& secDescDaclFlags = 0 := by
      have hsome : sd.dacl.isSome = true := isSome_iff_exists.mpr ⟨acl, hacl⟩
      rw [hdtype hsome, hflagged hsome]
    unfold Ambiguous
    push Not
    refine forall_congr' fun acl => forall_congr' fun hacl => ?_
    rw [← hflags hacl, ← hpart]
    refine forall_congr' fun _ => ?_
    exact ⟨fun h hne => by_contra fun hzero => hne (h hzero), fun h hzero => by_contra fun hne => hzero (h hne)⟩
  rw [SddlFaithful]
  constructor
  · rintro ⟨sddl, hsddl, hback⟩
    obtain rfl := Option.some.inj (hencode.symm.trans hsddl)
    rw [hread] at hback
    obtain ⟨o, ho, hback⟩ := bind_eq_some_iff.mp hback
    obtain ⟨g, hg, hback⟩ := bind_eq_some_iff.mp hback
    split at hback
    · cases hback
    rename_i hclear
    obtain ⟨d, hd, hback⟩ := bind_eq_some_iff.mp hback
    obtain ⟨t, ht, hback⟩ := map_eq_some_iff.mp hback
    have hsd := congrArg (fun sd : SecurityDescriptor => (sd.ownerSid, sd.groupSid, sd.dacl, sd.sacl)) hback
    simp only [Prod.mk.injEq] at hsd
    obtain ⟨hO, hG, hD, hS⟩ := hsd
    rw [hO] at ho
    rw [hG] at hg
    rw [hD] at hd
    rw [hS] at ht
    exact ⟨howner.mp ho, hgroup.mp hg, hdacl.mp hd, hsacl.mp ht, hambiguous.mp hclear⟩
  · intro hkept
    refine ⟨_, hencode, ?_⟩
    rw [hread, howner.mpr hkept.owner, bind_some, hgroup.mpr hkept.group, bind_some,
      if_neg (hambiguous.mpr hkept.flagged), hdacl.mpr hkept.dacl, bind_some, hsacl.mpr hkept.sacl, map_some]
    have hrevision := hdecoded.revision
    obtain ⟨revision, _, _, _, _, _⟩ := sd
    cases hrevision
    rfl

/-- The domain `S-1-2-3-4`. -/
def sampleDomain : DomSid := .ofSubAuths 1 #v[0, 0, 0, 0, 0, 2] [3, 4]

/-- An entry of the type `OA` with a GUID, for a user of the domain. -/
def sampleAce : SecurityAce :=
  ⟨5, 2, 0x100000, aceObject (some ⟨0x1131f6aa, 0x9c07, 0x11d1, #v[0xf7, 0x9f], #v[0, 0xc0, 0x4f, 0xc2, 0xdc, 0xd2]⟩) none,
    .ofSubAuths 1 #v[0, 0, 0, 0, 0, 2] [3, 4, 500]⟩

theorem sddlFaithful_sample :
    SddlFaithful (fun _ => 0) sampleDomain ⟨1, 0x9004, some (domSidAddRid sampleDomain 512), none, none, some (aclOf [sampleAce])⟩ := by
  refine (sddlFaithful_iff (s := "O:DAD:P(OA;CI;0x100000;1131f6aa-9c07-11d1-f79f-00c04fc2dcd2;;S-1-2-3-4-500)".toList.map chr)
    (by decide) (by decide) (by decide)).mpr ⟨?_, by simp, ?_, by simp, by simp [aclOf]⟩
  · rintro _ ⟨⟩
    exact ⟨by decide, fun _ _ => by decide⟩
  · rintro _ ⟨⟩ ace hace
    obtain rfl := mem_singleton.mp hace
    exact ⟨by decide, .inl rfl, by decide, fun _ h => absurd h (by decide)⟩

/-- `S:D:P` is an empty SACL and an empty DACL that is protected; what is written for it, `D:PS:`, is not accepted. -/
theorem flaggedDacl_not_faithful :
    ¬ ∀ (stray : DomSid → UInt32) (domainSid : DomSid) (s : Text) (sd : SecurityDescriptor), 0 ≤ domainSid.numAuths →
      domainSid.numAuths < 2 ^ 7 → sddlDecode domainSid s = some sd → SddlFaithful stray domainSid sd := by
  intro h
  obtain ⟨sddl, hencode, hdecode⟩ := h (fun _ => 0) sampleDomain ("S:D:P".toList.map chr)
    ⟨1, 0x9014, none, none, some (aclOf []), some (aclOf [])⟩ (by decide) (by decide) (by decide)
  have htext : sddlEncode (fun _ => 0) sampleDomain ⟨1, 0x9014, none, none, some (aclOf []), some (aclOf [])⟩ =
      some ("D:PS:".toList.map chr) := by decide
  obtain rfl := Option.some.inj (htext.symm.trans hencode)
  rw [show sddlDecode sampleDomain ("D:PS:".toList.map chr) = none by decide] at hdecode
  cases hdecode

end Samba.Security
