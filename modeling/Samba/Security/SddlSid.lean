/-
SIDs in SDDL text: which of the SIDs that `sddl_decode_sid` returns are read back from what `sddl_encode_sid` writes for them.
-/
import Samba.Security.SddlFlags

namespace Samba.Security

open CString

/-- The RIDs that have a code in every domain. -/
def domainRids : List UInt32 := [512, 519, 516, 513, 517]

/-- The text goes on with nothing that `sddl_decode_sid` takes for a SID. -/
def StopsSid (s : Text) : Prop := ∀ c ∈ s.head?, isSidChar c = false

/-- What is read of the text of a SID. -/
def sidReread (stray : DomSid → UInt32) (domainSid sid : DomSid) : Option DomSid :=
  (sddlDecodeSid domainSid (sddlEncodeSid stray domainSid sid)).map Prod.fst

/-! ## Codes and numbers that are read -/

/-- What the entries of `sid_codes` have in common. -/
structure CodesOk (codes : List SidCode) : Prop where
  free : ∀ e ∈ codes, ∀ e' ∈ codes, e'.code <+: e.code → e' = e
  two : ∀ e ∈ codes, (e.code.length = 2 ∧ e.code ≠ [chr 'S', chr '-']) ∧ e.code.head? ≠ some (chr '(') ∧ e.code ≠ []
  noBracket : ∀ e ∈ codes, ∀ c ∈ e.code, c ≠ chr ')'
  rids : ∀ e ∈ codes, e.sid = none → e.rid ∈ domainRids
  short : ∀ e ∈ codes, ∀ t ∈ e.sid, t.length < 2 ^ 7
  known : ∀ e ∈ codes, ∀ t ∈ e.sid, ∀ sid ∈ domSidParse t, ∃ rid ∈ sid.subAuths.getLast?, rid ∉ domainRids

theorem codesOk_sidCodes : CodesOk sidCodes := by
  have hnoBracket : ∀ e ∈ sidCodes, ∀ c ∈ e.code, decide (c ≠ chr ')') = true := forall_chars (by decide)
  exact ⟨forall_entries (by decide), forall_entry (by decide),
    fun e he c hc => of_decide_eq_true (hnoBracket e he c hc), forall_entry (by decide),
    forall_entry (by decide), forall_entry (by decide)⟩

theorem decodeSid_code (domainSid : DomSid) {e : SidCode} (he : e ∈ sidCodes) (rest : Text) :
    sddlDecodeSid domainSid (e.code ++ rest) =
      match e.sid with
      | none => some (domSidAddRid domainSid e.rid, rest)
      | some sid => (domSidParse sid).map (·, rest) := by
  obtain ⟨hlen, hcode⟩ := (codesOk_sidCodes.two e he).1
  have hnumber : ¬ [chr 'S', chr '-'] <+: e.code ++ rest := by
    intro h
    exact hcode (List.prefix_iff_eq_take.mp h ▸ (List.take_left' hlen).symm)
  rw [sddlDecodeSid, if_neg hnumber, find_start codesOk_sidCodes.free he rest]
  dsimp only
  generalize hdrop : (e.code ++ rest).drop 2 = behind
  rw [List.drop_left' hlen] at hdrop
  subst hdrop
  cases e.sid <;> rfl

theorem decodeSid_number (domainSid : DomSid) {ds rest : Text} (hds : ∀ c ∈ ds, isSidChar c = true) (hrest : StopsSid rest) :
    sddlDecodeSid domainSid ([chr 'S', chr '-'] ++ ds ++ rest) =
      (domSidParse ([chr 'S', chr '-'] ++ ds)).map (·, rest) := by
  have hspan : (ds ++ rest).takeWhile isSidChar = ds := by
    rw [List.takeWhile_append_of_pos hds]
    match rest with
    | [] => simp
    | c :: rest =>
      rw [List.takeWhile_cons_of_neg (by rw [hrest c rfl]; exact Bool.false_ne_true), List.append_nil]
  have hlen : ([chr 'S', chr '-'] ++ ds).length = ds.length + 2 := by simp
  rw [sddlDecodeSid, if_pos (by rw [List.append_assoc]; exact List.prefix_append _ _)]
  dsimp only
  rw [show (([chr 'S', chr '-'] ++ ds ++ rest).drop 2) = ds ++ rest from rfl, hspan, ← hlen, List.take_left, List.drop_left]

theorem decodeSid_error (domainSid : DomSid) (s : Text) : sddlDecodeSid domainSid (chr '(' :: s) = none := by
  have hfind : sidCodes.find? (fun e => e.code <+: chr '(' :: s) = none := by
    rw [List.find?_eq_none]
    intro e he hpre
    obtain ⟨hhead, hne⟩ := (codesOk_sidCodes.two e he).2
    obtain ⟨c, cs, hcs⟩ := List.exists_cons_of_ne_nil hne
    have hpre := of_decide_eq_true hpre
    rw [hcs, List.cons_prefix_cons] at hpre
    exact hhead (by rw [hcs, hpre.1]; rfl)
  rw [sddlDecodeSid, if_neg, hfind]
  rw [List.cons_prefix_cons]
  exact fun h => absurd h.1 (by decide)

/-! ## Codes and numbers that are written -/

theorem isSidChar_padded {width n : Nat} : ∀ c ∈ padded width n, isSidChar c = true := by
  intro c hc
  obtain ⟨d, hd, hlt⟩ := isDigitOf_padded c hc
  by_cases hdigit : isDigit c = true
  · rw [isSidChar, hdigit, Bool.or_true]
  -- a letter stands for ten or more
  · rw [digitVal, if_neg hdigit] at hd
    have hA : (chr 'A').toNat = 65 := rfl
    have ha : (chr 'a').toNat = 97 := rfl
    split at hd
    · next hupper =>
      rw [isUpper, Bool.and_eq_true, decide_eq_true_iff, UInt8.le_iff_toNat_le, hA] at hupper
      have hval := Option.some.inj hd
      omega
    · split at hd
      · next hlower =>
        rw [isLower, Bool.and_eq_true, decide_eq_true_iff, UInt8.le_iff_toNat_le, ha] at hlower
        have hval := Option.some.inj hd
        omega
      · cases hd

theorem domSidText_eq (sid : DomSid) :
    ∃ ds, (∀ c ∈ ds, isSidChar c = true) ∧ domSidText sid = [chr 'S', chr '-'] ++ ds := by
  refine ⟨padded 0 sid.sidRevNum.toNat ++ chr '-' :: padded 0 (idAuthNumber sid.idAuth).toNat ++
    subAuthsText sid.subAuths, ?_, by simp [domSidText, subAuthsText]⟩
  have hminus : isSidChar (chr '-') = true := rfl
  intro c hc
  simp only [List.mem_append, List.mem_cons, subAuthsText, List.mem_flatMap] at hc
  rcases hc with (hc | rfl | hc) | ⟨sub, _, rfl | hc⟩
  · exact isSidChar_padded c hc
  · exact hminus
  · exact isSidChar_padded c hc
  · exact hminus
  · exact isSidChar_padded c hc

/-- A printed SID is an error, or the start of a number. A count that is negative leaves a short text. -/
theorem domSidString_cases (sid : DomSid) :
    (sid.numAuths < 0 ∧ domSidString sid = "(SID ERR)".toList.map chr) ∨
      ∃ ds, (∀ c ∈ ds, isSidChar c = true) ∧ domSidString sid = [chr 'S', chr '-'] ++ ds ∧
        (sid.numAuths < 0 → (domSidString sid).length < 2 ^ 7) := by
  rw [domSidString]
  by_cases hneg : sid.numAuths * 11 + 25 < 0
  · left
    rw [if_pos hneg]
    exact ⟨by omega, rfl⟩
  · right
    obtain ⟨ds, hds, htext⟩ := domSidText_eq sid
    obtain ⟨k, hk⟩ : ∃ k, (sid.numAuths * 11 + 25 - 1).toNat = 2 + k := ⟨(sid.numAuths * 11 + 25 - 1).toNat - 2, by omega⟩
    rw [if_neg hneg, htext, hk]
    refine ⟨ds.take k, fun c hc => hds c (List.mem_of_mem_take hc), ?_, ?_⟩
    · rw [List.take_append, List.take_of_length_le (by simp)]
      simp
    · intro h
      rw [List.length_take]
      omega

/-- The codes of SIDs come first in `sid_codes`, and those of RIDs behind them. -/
theorem encodeSid_cases (stray : DomSid → UInt32) (domainSid sid : DomSid) :
    (∃ e ∈ sidCodes, e.sid = some (domSidString sid) ∧ sddlEncodeSid stray domainSid sid = e.code) ∨
      (∃ e ∈ sidCodes, e.sid = none ∧ e.rid ∈ domainRids ∧ domSidInDomain domainSid sid = true ∧
        lastSubAuth stray sid = e.rid ∧ sddlEncodeSid stray domainSid sid = e.code) ∨
      ((domSidInDomain domainSid sid = true → lastSubAuth stray sid ∉ domainRids) ∧
        sddlEncodeSid stray domainSid sid = domSidString sid) := by
  have htake : ∀ e ∈ sidCodes.takeWhile (·.sid.isSome), e ∈ sidCodes := fun e he => (List.takeWhile_prefix _).subset he
  have hdrop : ∀ e ∈ sidCodes.dropWhile (·.sid.isSome), e ∈ sidCodes ∧ e.sid = none ∧ e.rid ∈ domainRids :=
    forall_entry (by decide)
  have hrids : ∀ rid ∈ domainRids, ∃ e ∈ sidCodes.dropWhile (·.sid.isSome), rid = e.rid := by
    have hall : (domainRids.all fun rid => (sidCodes.dropWhile (·.sid.isSome)).any fun e => rid = e.rid) = true := by
      decide
    intro rid hrid
    obtain ⟨e, he, heq⟩ := List.any_eq_true.mp (List.all_eq_true.mp hall rid hrid)
    exact ⟨e, he, of_decide_eq_true heq⟩
  rw [sddlEncodeSid]
  cases hknown : (sidCodes.takeWhile (·.sid.isSome)).find? fun e => e.sid = some (domSidString sid) with
  | some e =>
    left
    exact ⟨e, htake e (List.mem_of_find?_eq_some hknown), by simpa using List.find?_some hknown, rfl⟩
  | none =>
    right
    dsimp only
    by_cases hdomain : domSidInDomain domainSid sid = true
    · rw [if_pos hdomain]
      cases hrid : (sidCodes.dropWhile (·.sid.isSome)).find? fun e => lastSubAuth stray sid = e.rid with
      | some e =>
        left
        obtain ⟨he, hnone, hmem⟩ := hdrop e (List.mem_of_find?_eq_some hrid)
        exact ⟨e, he, hnone, hmem, hdomain, by simpa using List.find?_some hrid, rfl⟩
      | none =>
        right
        refine ⟨fun _ hmem => ?_, rfl⟩
        obtain ⟨e, he, hlast⟩ := hrids _ hmem
        exact absurd (decide_eq_true hlast) (List.find?_eq_none.mp hrid e he)
    · rw [if_neg hdomain]
      exact .inr ⟨fun h => absurd h hdomain, rfl⟩

/-- The text of a SID has no bracket in it, unless it is an error. -/
theorem encodeSid_bracket (stray : DomSid → UInt32) (domainSid sid : DomSid) :
    (∀ c ∈ sddlEncodeSid stray domainSid sid, c ≠ chr ')') ∨
      sddlEncodeSid stray domainSid sid = chr '(' :: "SID ERR)".toList.map chr := by
  have hcodes := codesOk_sidCodes.noBracket
  have hchars : ∀ c : UInt8, isSidChar c = true → c ≠ chr ')' := by
    rintro c h rfl
    exact absurd h (by decide)
  rcases encodeSid_cases stray domainSid sid with ⟨e, he, _, hsid⟩ | ⟨e, he, _, _, _, _, hsid⟩ | ⟨_, hsid⟩
  · exact .inl (hsid ▸ hcodes e he)
  · exact .inl (hsid ▸ hcodes e he)
  rcases domSidString_cases sid with ⟨_, hstring⟩ | ⟨ds, hds, hstring, _⟩
  · exact .inr (hsid.trans hstring)
  · left
    rw [hsid, hstring]
    intro c hc
    rcases List.mem_append.mp hc with hc | hc
    · rcases List.mem_cons.mp hc with rfl | hc
      · decide
      · rw [List.mem_singleton.mp hc]
        decide
    · exact hchars c (hds c hc)

/-- The text of a SID is read on its own, whatever follows it. -/
theorem decodeSid_encodeSid (stray : DomSid → UInt32) (domainSid sid : DomSid) {rest : Text} (hrest : StopsSid rest) :
    sddlDecodeSid domainSid (sddlEncodeSid stray domainSid sid ++ rest) =
      (sidReread stray domainSid sid).map (·, rest) := by
  have hcode (e : SidCode) (he : e ∈ sidCodes) (hsid : sddlEncodeSid stray domainSid sid = e.code) :
      sddlDecodeSid domainSid (sddlEncodeSid stray domainSid sid ++ rest) =
        (sidReread stray domainSid sid).map (·, rest) := by
    have hall := decodeSid_code domainSid he []
    rw [List.append_nil] at hall
    rw [sidReread, hsid, decodeSid_code domainSid he, hall]
    cases e.sid with
    | none => rfl
    | some t =>
      dsimp only
      cases domSidParse t <;> rfl
  rcases encodeSid_cases stray domainSid sid with ⟨e, he, _, hsid⟩ | ⟨e, he, _, _, _, _, hsid⟩ | ⟨_, hsid⟩
  · exact hcode e he hsid
  · exact hcode e he hsid
  rw [sidReread, hsid]
  rcases domSidString_cases sid with ⟨_, hstring⟩ | ⟨ds, hds, hstring, _⟩
  · have herror : domSidString sid = chr '(' :: "SID ERR)".toList.map chr := hstring
    rw [herror, List.cons_append, decodeSid_error, decodeSid_error]
    rfl
  · have hown := @decodeSid_number domainSid _ [] hds (by simp [StopsSid])
    rw [List.append_nil] at hown
    rw [hstring, decodeSid_number domainSid hds hrest, hown]
    cases domSidParse ([chr 'S', chr '-'] ++ ds) <;> rfl

/-! ## SIDs that are kept -/

/-- What holds of the SIDs that `sddl_decode_sid` returns. -/
structure SidDecoded (domainSid sid : DomSid) : Prop where
  lower : -2 ^ 7 ≤ sid.numAuths
  upper : sid.numAuths < 2 ^ 7
  auth : ShortAuth sid.idAuth ∨ ∃ rid ∈ domainRids, sid = domSidAddRid domainSid rid

/-- The SIDs whose text is read back as they are: the number of sub-authorities did not overflow, and where the last of them
is a RID with a code, the SID is of the domain itself. -/
structure SidKept (stray : DomSid → UInt32) (domainSid sid : DomSid) : Prop where
  counted : 0 ≤ sid.numAuths
  direct : domSidInDomain domainSid sid = true → lastSubAuth stray sid ∈ domainRids →
    sid.numAuths = domainSid.numAuths + 1

theorem ofSubAuths_bounds (rev : UInt8) (auth : Vector UInt8 6) (subs : List UInt32) :
    -2 ^ 7 ≤ (DomSid.ofSubAuths rev auth subs).numAuths ∧ (DomSid.ofSubAuths rev auth subs).numAuths < 2 ^ 7 := by
  rw [DomSid.ofSubAuths_numAuths]
  have := @Int.le_bmod (subs.length : Int) 256 (by decide)
  have := @Int.bmod_lt (subs.length : Int) 256 (by decide)
  omega

variable {domainSid sid : DomSid}

theorem domSidParse_decoded {s : Text} (domainSid : DomSid) (h : domSidParse s = some sid) :
    SidDecoded domainSid sid := by
  obtain ⟨rev, ia, subs, rfl⟩ : ∃ rev ia subs, DomSid.ofSubAuths rev (idAuthOf ia) subs = sid := by
    unfold domSidParse at h
    split at h
    · cases h
    dsimp only at h
    split at h
    · cases h
    split at h
    · cases h
    split at h
    · cases h
    obtain ⟨subs, _, h⟩ := Option.map_eq_some_iff.mp h
    exact ⟨_, _, subs, h⟩
  have hbounds := ofSubAuths_bounds rev (idAuthOf ia) subs
  exact ⟨hbounds.1, hbounds.2, .inl (by rw [DomSid.ofSubAuths_idAuth]; exact shortAuth_idAuthOf ia)⟩

theorem decodeSid_decoded {s rest : Text} (h : sddlDecodeSid domainSid s = some (sid, rest)) :
    SidDecoded domainSid sid := by
  have hrids := codesOk_sidCodes.rids
  rw [sddlDecodeSid] at h
  split at h
  · obtain ⟨sid', hparse, hpair⟩ := Option.map_eq_some_iff.mp h
    cases hpair
    exact domSidParse_decoded domainSid hparse
  · split at h
    · cases h
    · rename_i e he
      split at h
      · rename_i hnone
        cases h
        have hbounds := ofSubAuths_bounds domainSid.sidRevNum domainSid.idAuth (domainSid.subAuths ++ [e.rid])
        exact ⟨hbounds.1, hbounds.2, .inr ⟨e.rid, hrids e (List.mem_of_find?_eq_some he) hnone, rfl⟩⟩
      · obtain ⟨sid', hparse, hpair⟩ := Option.map_eq_some_iff.mp h
        cases hpair
        exact domSidParse_decoded domainSid hparse

theorem zip_eq_iff_start {α : Type} {xs ys : List α} (hlen : xs.length ≤ ys.length) :
    (∀ pair ∈ xs.zip ys, pair.1 = pair.2) ↔ xs <+: ys := by
  induction xs generalizing ys with
  | nil => simp
  | cons x xs ih =>
    match ys with
    | [] => simp at hlen
    | y :: ys =>
      rw [List.zip_cons_cons, List.forall_mem_cons, List.cons_prefix_cons, ih (Nat.le_of_succ_le_succ hlen)]

theorem domSidInDomain_iff :
    domSidInDomain domainSid sid = true ↔ domainSid.numAuths ≤ sid.numAuths ∧ domainSid.subAuths <+: sid.subAuths ∧
      domainSid.sidRevNum = sid.sidRevNum ∧ domainSid.idAuth = sid.idAuth := by
  rw [domSidInDomain]
  by_cases hnum : domainSid.numAuths > sid.numAuths
  · rw [if_pos hnum]
    exact ⟨fun h => absurd h (by decide), fun h => absurd h.1 (by omega)⟩
  have hlen : domainSid.subAuths.length ≤ sid.subAuths.length := by
    rw [domainSid.length_subAuths, sid.length_subAuths]
    omega
  have hsubs := compareSubAuths_eq_none (domainSid.subAuths.zip sid.subAuths).reverse
  simp only [List.mem_reverse] at hsubs
  rw [zip_eq_iff_start hlen] at hsubs
  rw [if_neg hnum, ← domSidCompareAuth_eq_zero, ← hsubs]
  cases hcompare : compareSubAuths (domainSid.subAuths.zip sid.subAuths).reverse with
  | some ret => simp
  | none => simp [show domainSid.numAuths ≤ sid.numAuths by omega]

theorem domSidAddRid_numAuths {rid : UInt32} (h0 : 0 ≤ domainSid.numAuths)
    (h7 : domainSid.numAuths < 2 ^ 7) (hcount : 0 ≤ (domSidAddRid domainSid rid).numAuths) :
    (domSidAddRid domainSid rid).numAuths = domainSid.numAuths + 1 ∧
      (domSidAddRid domainSid rid).subAuths = domainSid.subAuths ++ [rid] := by
  have hlen := domainSid.length_subAuths
  rw [domSidAddRid, DomSid.ofSubAuths_numAuths, List.length_append, List.length_singleton, hlen] at hcount
  have hnum : ((domainSid.numAuths.toNat + 1 : Nat) : Int).bmod 256 = domainSid.numAuths + 1 := by
    rw [Int.bmod_def] at hcount ⊢
    split at hcount <;> split <;> omega
  rw [domSidAddRid, DomSid.ofSubAuths_numAuths, DomSid.ofSubAuths_subAuths, List.length_append, List.length_singleton, hlen,
    hnum]
  refine ⟨rfl, List.take_of_length_le ?_⟩
  rw [List.length_append, List.length_singleton, hlen]
  omega

/-- The SIDs of the domain that `dom_sid_add_rid` makes. -/
theorem eq_domSidAddRid_iff {domainSid sid : DomSid} {rid : UInt32} (h0 : 0 ≤ domainSid.numAuths)
    (h7 : domainSid.numAuths < 2 ^ 7) (hsid : sid.numAuths < 2 ^ 7) (stray : DomSid → UInt32) :
    sid = domSidAddRid domainSid rid ∧ 0 ≤ sid.numAuths ↔
      domSidInDomain domainSid sid = true ∧ lastSubAuth stray sid = rid ∧ sid.numAuths = domainSid.numAuths + 1 := by
  rw [domSidInDomain_iff]
  constructor
  · rintro ⟨rfl, hcount⟩
    obtain ⟨hnum, hsubs⟩ := domSidAddRid_numAuths h0 h7 hcount
    refine ⟨⟨by omega, by rw [hsubs]; exact List.prefix_append _ _, ?_, ?_⟩, by rw [lastSubAuth, hsubs]; simp, hnum⟩
    · rw [domSidAddRid, DomSid.ofSubAuths_sidRevNum]
    · rw [domSidAddRid, DomSid.ofSubAuths_idAuth]
  · rintro ⟨⟨_, ⟨tail, htail⟩, hrev, hauth⟩, hlast, hnum⟩
    have hlen : tail.length = 1 := by
      have := congrArg List.length htail
      rw [List.length_append, domainSid.length_subAuths, sid.length_subAuths] at this
      omega
    obtain ⟨x, rfl⟩ := List.length_eq_one_iff.mp hlen
    have hx : x = rid := by
      rw [lastSubAuth, ← htail, List.getLast?_concat] at hlast
      exact hlast
    have hself := @ofSubAuths_self sid (by omega) hsid
    rw [← hrev, ← hauth, ← htail, hx] at hself
    exact ⟨hself.symm, by omega⟩

/-- A SID that is well known has no RID of `sid_codes`. -/
theorem known_last (stray : DomSid → UInt32) {e : SidCode} (he : e ∈ sidCodes) {t : Text} (ht : e.sid = some t)
    (h : domSidParse t = some sid) : lastSubAuth stray sid ∉ domainRids := by
  obtain ⟨rid, hlast, hrid⟩ := codesOk_sidCodes.known e he t ht sid h
  rw [lastSubAuth, hlast]
  exact hrid

/-- The text of a SID gives the SID back exactly for the SIDs that are kept. -/
theorem sidReread_iff {stray : DomSid → UInt32} {domainSid sid : DomSid} (h0 : 0 ≤ domainSid.numAuths) (h7 : domainSid.numAuths < 2 ^ 7)
    (hdecoded : SidDecoded domainSid sid) :
    sidReread stray domainSid sid = some sid ↔ SidKept stray domainSid sid := by
  have hparse (hcount : 0 ≤ sid.numAuths) (hauth : ShortAuth sid.idAuth) : domSidParse (domSidString sid) = some sid :=
    domSidParse_domSidString hcount hdecoded.upper hauth
  -- a SID that `dom_sid_add_rid` made is of the domain, and has a RID with a code
  have hmade (hcount : 0 ≤ sid.numAuths) (hauth : ¬ ShortAuth sid.idAuth) :
      domSidInDomain domainSid sid = true ∧ lastSubAuth stray sid ∈ domainRids := by
    obtain ⟨rid, hrid, hsid⟩ := hdecoded.auth.resolve_left hauth
    obtain ⟨hin, hlast, _⟩ := (eq_domSidAddRid_iff h0 h7 hdecoded.upper stray).mp ⟨hsid, hcount⟩
    exact ⟨hin, hlast ▸ hrid⟩
  rcases encodeSid_cases stray domainSid sid with ⟨e, he, hknown, henc⟩ | ⟨e, he, hnone, hrid, hin, hlast, henc⟩ | ⟨hother, henc⟩
  · -- the code of a SID that is well known
    have hown := decodeSid_code domainSid he []
    rw [List.append_nil, hknown] at hown
    have hreread : sidReread stray domainSid sid = domSidParse (domSidString sid) := by
      rw [sidReread, henc, hown]
      dsimp only
      cases domSidParse (domSidString sid) <;> rfl
    have hshort : (domSidString sid).length < 2 ^ 7 := codesOk_sidCodes.short e he _ hknown
    rw [hreread]
    constructor
    · intro h
      exact ⟨domSidParse_nonneg h hshort, fun _ hmem => absurd hmem (known_last stray he hknown h)⟩
    · intro h
      by_cases hauth : ShortAuth sid.idAuth
      · exact hparse h.counted hauth
      · exfalso
        have hmem := (hmade h.counted hauth).2
        have htext : domSidParse (domSidString sid) = _ := domSidString_of_nonneg h.counted ▸ domSidParse_domSidText sid
        obtain ⟨rid, hlast, hrid⟩ := codesOk_sidCodes.known e he _ hknown _ htext
        rw [DomSid.ofSubAuths_subAuths, ← DomSid.ofSubAuths_subAuths sid.sidRevNum sid.idAuth,
          ofSubAuths_self h.counted hdecoded.upper] at hlast
        rw [lastSubAuth, hlast] at hmem
        exact hrid hmem
  · -- the code of a RID
    have hown := decodeSid_code domainSid he []
    rw [List.append_nil, hnone] at hown
    have hreread : sidReread stray domainSid sid = some (domSidAddRid domainSid e.rid) := by
      rw [sidReread, henc, hown]
      rfl
    have hcount : 0 ≤ sid.numAuths := h0.trans (domSidInDomain_iff.mp hin).1
    have hmade := @eq_domSidAddRid_iff _ _ e.rid h0 h7 hdecoded.upper stray
    rw [hreread, Option.some.injEq]
    constructor
    · intro h
      exact ⟨hcount, fun _ _ => (hmade.mp ⟨h.symm, hcount⟩).2.2⟩
    · intro h
      exact (hmade.mpr ⟨hin, hlast, h.direct hin (hlast ▸ hrid)⟩).1.symm
  · -- the number
    constructor
    · intro h
      refine ⟨?_, fun hin hmem => absurd hmem (hother hin)⟩
      by_contra hneg
      rw [sidReread, henc] at h
      rcases domSidString_cases sid with ⟨_, hstring⟩ | ⟨ds, hds, hstring, hshort⟩
      · have herror : domSidString sid = chr '(' :: "SID ERR)".toList.map chr := hstring
        rw [herror, decodeSid_error] at h
        cases h
      · have hown := @decodeSid_number domainSid _ [] hds (by simp [StopsSid])
        rw [List.append_nil, ← hstring] at hown
        rw [hown, Option.map_map] at h
        obtain ⟨sid', hparse', rfl⟩ := Option.map_eq_some_iff.mp h
        exact hneg (domSidParse_nonneg hparse' (hshort (by simpa using hneg)))
    · intro h
      have hauth : ShortAuth sid.idAuth := by
        by_contra hauth
        obtain ⟨hin, hmem⟩ := hmade h.counted hauth
        exact hother hin hmem
      obtain ⟨ds, hds, htext⟩ := domSidText_eq sid
      have hown := @decodeSid_number domainSid _ [] hds (by simp [StopsSid])
      rw [List.append_nil, ← htext, ← domSidString_of_nonneg h.counted, hparse h.counted hauth] at hown
      rw [sidReread, henc, hown]
      rfl

end Samba.Security
