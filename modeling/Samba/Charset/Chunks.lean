/-
Conversion through the buffer of `smb_iconv` (lib/charset/iconv.c). The buffer is filled again and again; what stands in it is
pushed as if it were all. This is the conversion of the whole unless a pair of surrogates is cut in two and the target is
UTF-8: `utf8_push` reports the first half as an incomplete sequence, and `smb_iconv` gives up.
-/
import Samba.Charset.Utf8

namespace Samba.Charset

open CString List Rounds

/-- The sets between which a conversion goes through the buffer. -/
inductive Builtin
  | utf8 | utf16be | ucs2hex | ascii
  deriving DecidableEq, Repr

def Builtin.functions : Builtin → CharsetFunctions
  | .utf8 => utf8Functions (text "UTF8")
  | .utf16be => utf16beFunctions (text "UTF-16BE")
  | .ucs2hex => ucs2hexFunctions (text "UCS2-HEX")
  | .ascii => asciiFunctions (text "ASCII")

theorem utf16be_pull (behind input : List UInt8) (room : Nat) :
    Builtin.utf16be.functions.pull behind input room = iconvSwab input room := rfl

/-! ## `swab` -/

section Swab

variable {a b input units : List UInt8} {room : Nat}

theorem length_swabBytes (bytes : List UInt8) : (swabBytes bytes).length = bytes.length := by
  induction bytes using swabBytes.induct with
  | case1 a b rest ih => simp [swabBytes, ih]
  | case2 => rfl
  | case3 => rfl

theorem swabBytes_append (h : 2 ∣ a.length) (b : List UInt8) : swabBytes (a ++ b) = swabBytes a ++ swabBytes b := by
  induction a using swabBytes.induct with
  | case1 x y rest ih =>
    rw [cons_append, cons_append, swabBytes, ih (by simp only [length_cons] at h; omega), swabBytes]
    rfl
  | case2 x => exact absurd h (by simp)
  | case3 => rfl

theorem swabBytes_swabBytes (h : 2 ∣ a.length) : swabBytes (swabBytes a) = a := by
  induction a using swabBytes.induct with
  | case1 x y rest ih => rw [swabBytes, swabBytes, ih (by simp only [length_cons] at h; omega)]
  | case2 x => exact absurd h (by simp)
  | case3 => rfl

theorem iconvSwab_done (h : iconvSwab input room = .done units) :
    input.length ≤ room ∧ input.length < 2 ^ 31 ∧ units = swabBytes input := by
  unfold iconvSwab at h
  dsimp only at h
  split at h
  · cases h
  · obtain ⟨-, hrest, rfl⟩ := Conv.mk.inj h
    have hlen := congrArg List.length hrest
    rw [length_drop, length_nil] at hlen
    exact ⟨by omega, by omega, by rw [take_of_length_le (by omega)]⟩

theorem iconvSwab_whole (hroom : input.length ≤ room) (hint : input.length < 2 ^ 31) :
    iconvSwab input room = .done (swabBytes input) := by
  unfold iconvSwab
  rw [Nat.min_eq_left hroom, if_neg (by omega), Nat.sub_self, drop_length, take_length]
  rfl

end Swab

/-! ## Filling the buffer -/

/-- The most that a pull function writes at once. -/
def Builtin.most : Builtin → Nat
  | .utf8 => 4
  | _ => 2

/-- What the pull function writes into the empty buffer, of input that it could convert whole. -/
structure Filled (source : CharsetFunctions) (most : Nat) (behind input units rest out units' : List UInt8) : Prop where
  pull : source.pull behind input cvtbufSize = ⟨if rest = [] then none else some .e2big, rest, out⟩
  whole : units = out ++ units'
  fits : out.length ≤ cvtbufSize
  next : ∀ room, units'.length ≤ room → source.pull behind rest room = .done units'
  filled : rest ≠ [] → 2 ∣ out.length ∧ cvtbufSize < out.length + most

section Filling

variable {source : Builtin} {behind input units : List UInt8} {room : Nat}

theorem filled_of_split {l : Loop Errno UInt8 UInt8} (hl : l.Exact .e2big) {most : Nat}
    (hd : ∀ {input outLeft n out}, l.round input outLeft = .ok (n, out) → 2 ∣ out.length ∧ out.length ≤ most)
    {f : CharsetFunctions} (hf : f.pull behind = l.run) (h : f.pull behind input room = .done units) :
    ∃ rest out units', Filled f most behind input units rest out units' := by
  rw [hf] at h
  obtain ⟨rest, out, units', hs⟩ := hl.split h cvtbufSize
  refine ⟨rest, out, units', hf ▸ hs.run, hs.whole, hs.fits, hf ▸ hs.next, fun hne => ⟨?_, hs.filled most (fun hr => (hd hr).2) hne⟩⟩
  have hout : 2 ∣ (l.run input cvtbufSize).out.length := Loop.dvd_length_out (fun hr => (hd hr).1) input cvtbufSize
  rwa [hs.run] at hout

theorem asciiPull_two {outLeft n : Nat} {out : List UInt8} (h : asciiPull.round input outLeft = .ok (n, out)) :
    out.length = 2 := by
  cases input with
  | nil => cases h
  | cons c rest =>
    obtain ⟨rfl, rfl⟩ := Prod.mk.inj (Except.ok.inj h)
    rfl

theorem ucs2hexPull_two {outLeft n : Nat} {out : List UInt8} (h : (ucs2hexPull behind).round input outLeft = .ok (n, out)) :
    out.length = 2 := by
  simp only [ucs2hexPull] at h
  unfold ucs2hexPullRound at h
  split at h
  · split at h
    · obtain ⟨rfl, rfl⟩ := Prod.mk.inj (Except.ok.inj h)
      rfl
    · split at h
      · cases h
      · split at h
        · cases h
        · obtain ⟨rfl, rfl⟩ := Prod.mk.inj (Except.ok.inj h)
          rfl
  · cases h

theorem swab_filled (h : iconvSwab input room = .done units) :
    ∃ rest out units', Filled (utf16beFunctions (text "UTF-16BE")) 2 behind input units rest out units' := by
  obtain ⟨-, hint, rfl⟩ := iconvSwab_done h
  by_cases hshort : input.length ≤ cvtbufSize
  · refine ⟨[], swabBytes input, [], iconvSwab_whole hshort hint, (append_nil _).symm, by rwa [length_swabBytes],
      fun room _ => ?_, fun hne => absurd rfl hne⟩
    exact @iconvSwab_whole [] room (Nat.zero_le room) (by decide)
  · have htake : (input.take cvtbufSize).length = cvtbufSize := by rw [length_take]; omega
    have heven : 2 ∣ cvtbufSize := by decide
    have hne : input.drop cvtbufSize ≠ [] := by simpa using hshort
    refine ⟨input.drop cvtbufSize, swabBytes (input.take cvtbufSize), swabBytes (input.drop cvtbufSize), ?_, ?_,
      by rw [length_swabBytes, htake], fun room hroom => ?_, fun _ => ?_⟩
    · show iconvSwab input cvtbufSize = _
      unfold iconvSwab
      rw [if_neg (min_cvtbufSize _), Nat.min_eq_right (by omega), if_neg hne]
      have hstop : pullStop (input.length - cvtbufSize) = some .e2big := pullStop_full (by omega)
      rw [hstop]
    · rw [← swabBytes_append (by rw [htake]; exact heven), take_append_drop]
    · rw [length_swabBytes] at hroom
      exact iconvSwab_whole hroom (by rw [length_drop]; omega)
    · rw [length_swabBytes, htake]
      exact ⟨heven, by omega⟩

theorem Builtin.filled (h : source.functions.pull behind input room = .done units) :
    ∃ rest out units', Filled source.functions source.most behind input units rest out units' := by
  cases source with
  | utf8 =>
    refine filled_of_split utf8Pull_exact (fun hr => ?_) rfl h
    rcases (utf8PullRound_ok hr).2.2.1 with hout | hout <;> rw [hout] <;> decide
  | utf16be => exact swab_filled h
  | ucs2hex => exact filled_of_split (ucs2hexPull_exact behind) (fun hr => by rw [ucs2hexPull_two hr]; decide) rfl h
  | ascii => exact filled_of_split asciiPull_exact (fun hr => by rw [asciiPull_two hr]; decide) rfl h

theorem Builtin.push_nil (target : Builtin) (outLeft : Nat) : target.functions.push [] outLeft = .done [] := by
  cases target with
  | utf8 => exact utf8Push_exact.run_nil outLeft
  | utf16be => exact @iconvSwab_whole [] outLeft (Nat.zero_le outLeft) (by decide)
  | ucs2hex => exact ucs2hexPush_exact.run_nil outLeft
  | ascii => exact asciiPush_exact.run_nil outLeft

theorem Builtin.pull_nil (source : Builtin) (behind : List UInt8) (room : Nat) : source.functions.pull behind [] room = .done [] := by
  cases source with
  | utf8 => exact utf8Pull_exact.run_nil room
  | utf16be => exact @iconvSwab_whole [] room (Nat.zero_le room) (by decide)
  | ucs2hex => exact (ucs2hexPull_exact behind).run_nil room
  | ascii => exact asciiPull_exact.run_nil room

end Filling

/-! ## Pushing in two pieces -/

section Pushing

variable {a b out : List UInt8} {outLeft : Nat}

theorem EndsHigh.of_append (h : EndsHigh (a ++ b)) (hb : b ≠ []) : EndsHigh b := by
  obtain ⟨high, hlast, hhigh⟩ := h
  rw [List.getLast?_append_of_ne_nil _ hb] at hlast
  exact ⟨high, hlast, hhigh⟩

theorem EndsHigh.append (h : EndsHigh b) (a : List UInt8) : EndsHigh (a ++ b) := by
  obtain ⟨high, hlast, hhigh⟩ := h
  have hne : b ≠ [] := by
    rintro rfl
    cases hlast
  exact ⟨high, by rw [List.getLast?_append_of_ne_nil _ hne, hlast], hhigh⟩

theorem unit_cut {l : Loop Errno UInt8 UInt8} (htwo : ∀ {input outLeft n out}, l.round input outLeft = .ok (n, out) → n = 2)
    (hlocal : ∀ u0 u1 rest rest' outLeft, l.round (u0 :: u1 :: rest) outLeft = l.round (u0 :: u1 :: rest') outLeft)
    {a' : List UInt8} (hne : a' ≠ []) (heven : 2 ∣ a'.length) {n : Nat} (hr : l.round (a' ++ b) outLeft = .ok (n, out)) :
    n ≤ a'.length ∧ l.round a' outLeft = .ok (n, out) := by
  match a' with
  | [] => exact absurd rfl hne
  | [_] => exact absurd heven (by simp)
  | u0 :: u1 :: rest =>
    refine ⟨by rw [htwo hr]; simp, ?_⟩
    rw [hlocal u0 u1 rest (rest ++ b)]
    exact hr

theorem asciiPush_append (heven : 2 ∣ a.length) (h : asciiPush.run (a ++ b) outLeft = .done out) :
    ∃ out₁ out₂, out = out₁ ++ out₂ ∧ asciiPush.run a outLeft = .done out₁ ∧
      asciiPush.run b (outLeft - out₁.length) = .done out₂ := by
  have htwo : ∀ {input outLeft n out}, asciiPush.round input outLeft = .ok (n, out) → n = 2 := by
    intro input outLeft n out hr
    simp only [asciiPush] at hr
    unfold asciiPushRound at hr
    split at hr
    · exact (Prod.mk.inj (Except.ok.inj hr)).1.symm
    · cases hr
  exact asciiPush_exact.append (d := 2) le_rfl (fun hr => (htwo hr).symm ▸ Nat.dvd_refl 2) heven
    (fun a' _ hne ha' outLeft n out _ hr => unit_cut htwo (fun _ _ _ _ _ => rfl) hne ha' hr) h

theorem ucs2hexPush_append (heven : 2 ∣ a.length) (h : ucs2hexPush.run (a ++ b) outLeft = .done out) :
    ∃ out₁ out₂, out = out₁ ++ out₂ ∧ ucs2hexPush.run a outLeft = .done out₁ ∧
      ucs2hexPush.run b (outLeft - out₁.length) = .done out₂ := by
  have htwo : ∀ {input outLeft n out}, ucs2hexPush.round input outLeft = .ok (n, out) → n = 2 := by
    intro input outLeft n out hr
    simp only [ucs2hexPush] at hr
    unfold ucs2hexPushRound at hr
    split at hr
    · split at hr
      · exact (Prod.mk.inj (Except.ok.inj hr)).1.symm
      · split at hr
        · cases hr
        · exact (Prod.mk.inj (Except.ok.inj hr)).1.symm
    · cases hr
  exact ucs2hexPush_exact.append (d := 2) le_rfl (fun hr => (htwo hr).symm ▸ Nat.dvd_refl 2) heven
    (fun a' _ hne ha' outLeft n out _ hr => unit_cut htwo (fun _ _ _ _ _ => rfl) hne ha' hr) h

/-- A pair that begins in the first piece ends in it, unless the piece ends with its first half. -/
theorem utf8Push_append (heven : 2 ∣ a.length) (hend : ¬EndsHigh a) (h : utf8Push.run (a ++ b) outLeft = .done out) :
    ∃ out₁ out₂, out = out₁ ++ out₂ ∧ utf8Push.run a outLeft = .done out₁ ∧
      utf8Push.run b (outLeft - out₁.length) = .done out₂ := by
  refine utf8Push_exact.append (d := 2) le_rfl (fun hr => ?_) heven (fun a' hsuffix hne ha' outLeft n out hroom hr => ?_) h
  · obtain ⟨taken, rest, -, -, hn, -⟩ := utf8PushRound_ok hr
    rcases hn with rfl | ⟨rfl, -⟩ <;> decide
  · have hfits := utf8Push_exact.fits hroom hr
    obtain ⟨taken, rest, hsplit, rfl, hn, -, -, hround⟩ := utf8PushRound_ok hr
    have hpos := length_pos_of_ne_nil hne
    obtain ⟨pre, rfl⟩ := hsuffix
    by_cases hle : taken.length ≤ a'.length
    · obtain ⟨tail, rfl⟩ := prefix_of_prefix_length_le (hsplit ▸ prefix_append taken rest) (prefix_append a' b) hle
      refine ⟨hle, ?_⟩
      show utf8PushRound _ _ = _
      rw [hround tail outLeft hroom, if_neg (by omega)]
    · rcases hn with htwo | ⟨hfour, hhigh⟩
      · exact absurd (Nat.le_of_dvd hpos ha') (by omega)
      · have hlen : a'.length = 2 := by omega
        have hfirst : taken.take 2 = a' := by
          have hboth := congrArg (List.take 2) hsplit
          rwa [take_left' hlen, take_append_of_le_length (by omega), eq_comm] at hboth
        rw [hfirst] at hhigh
        exact absurd (hhigh.append pre) hend

theorem Builtin.push_append {target : Builtin} (heven : 2 ∣ a.length) (hend : target = .utf8 → ¬EndsHigh a)
    (h : target.functions.push (a ++ b) outLeft = .done out) :
    ∃ out₁ out₂, out = out₁ ++ out₂ ∧ target.functions.push a outLeft = .done out₁ ∧
      target.functions.push b (outLeft - out₁.length) = .done out₂ := by
  cases target with
  | utf8 => exact utf8Push_append heven (hend rfl) h
  | utf16be =>
    obtain ⟨hroom, hint, rfl⟩ := iconvSwab_done h
    rw [length_append] at hroom hint
    refine ⟨swabBytes a, swabBytes b, swabBytes_append heven b, iconvSwab_whole (by omega) (by omega), ?_⟩
    rw [length_swabBytes]
    exact iconvSwab_whole (by omega) (by omega)
  | ucs2hex => exact ucs2hexPush_append heven h
  | ascii => exact asciiPush_append heven h

theorem pushStop_pos {n : Nat} (h : 0 < n) : pushStop n ≠ none := by
  unfold pushStop
  split
  · nofun
  · rw [if_pos (by omega)]
    nofun

/-- Units that end with half a pair are not pushed to the end. -/
theorem utf8Push_endsHigh (hend : EndsHigh a) : (utf8Push.run a outLeft).err ≠ none := by
  induction hn : a.length using Nat.strong_induction_on generalizing a outLeft with
  | _ m ih =>
    have hpos : 0 < a.length := by
      obtain ⟨high, hlast, -⟩ := hend
      cases a with
      | nil => cases hlast
      | cons => exact Nat.succ_pos _
    by_cases hmin : utf8Push.minIn ≤ a.length ∧ utf8Push.minOut ≤ outLeft
    · cases hr : utf8Push.round a outLeft with
      | error e =>
        rw [Loop.run_error hmin.1 hmin.2 hr]
        nofun
      | ok res =>
        obtain ⟨n, out⟩ := res
        rw [Loop.run_round hmin.1 hmin.2 hr, Conv.after_err]
        obtain ⟨taken, rest, rfl, rfl, hn', hnot, -⟩ := utf8PushRound_ok hr
        have hne : rest ≠ [] := by
          rintro rfl
          rw [append_nil] at hend
          exact hnot hend
        rw [drop_left' rfl]
        exact ih _ (by rw [← hn, length_append]; omega) (hend.of_append hne) rfl
    · rw [Loop.run_stop hmin]
      exact pushStop_pos hpos

end Pushing

/-! ## Chunk by chunk -/

/-- What stands in the buffer, one time after the other. -/
def pullChunks (source : CharsetFunctions) (behind input : List UInt8) : List (List UInt8) :=
  if hin : input = [] then []
  else
    let pulled := source.pull behind input cvtbufSize
    if hp : pulled.err = none ∨ pulled.err = some .e2big then
      have := source.pull_progress hin hp
      pulled.out :: pullChunks source behind pulled.rest
    else []
termination_by input.length

/-- A chunk that is not the last ends with the first half of a pair. -/
def CutsPair (source : Builtin) (behind input : List UInt8) : Prop :=
  ∃ chunk ∈ (pullChunks source.functions behind input).dropLast, EndsHigh chunk

section Chunks

variable {source target : Builtin} {behind input units rest out units' : List UInt8} {room outLeft : Nat}

theorem pullChunks_nil (source : CharsetFunctions) (behind : List UInt8) : pullChunks source behind [] = [] := by
  rw [pullChunks, dif_pos rfl]

variable {most : Nat}

theorem pullChunks_eq_nil {source : CharsetFunctions} (hf : Filled source most behind input units rest out units') :
    pullChunks source behind input = [] ↔ input = [] := by
  constructor
  · intro h
    by_contra hin
    rw [pullChunks, dif_neg hin] at h
    dsimp only at h
    rw [dif_pos (by rw [hf.pull]; split <;> simp)] at h
    cases h
  · rintro rfl
    exact pullChunks_nil source behind

theorem Filled.chunks {source : CharsetFunctions} (hf : Filled source most behind input units rest out units')
    (hin : input ≠ []) : pullChunks source behind input = out :: pullChunks source behind rest := by
  rw [pullChunks, dif_neg hin]
  dsimp only
  rw [dif_pos (by rw [hf.pull]; split <;> simp), hf.pull]

theorem Filled.iconv_done {source target : CharsetFunctions}
    (hf : Filled source most behind input units rest out units') (hin : input ≠ []) {pushed : List UInt8}
    (hpush : target.push out outLeft = .done pushed) : smbIconvChunks source target behind input outLeft =
      (smbIconvChunks source target behind rest (outLeft - pushed.length)).after pushed := by
  rw [smbIconvChunks, dif_neg hin]
  dsimp only
  rw [dif_pos (by rw [hf.pull]; split <;> simp), hf.pull]
  dsimp only
  rw [hpush]
  rfl

theorem Filled.iconv_error {source target : CharsetFunctions}
    (hf : Filled source most behind input units rest out units') (hin : input ≠ [])
    (hpush : (target.push out outLeft).err ≠ none) : (smbIconvChunks source target behind input outLeft).err ≠ none := by
  obtain ⟨e, he⟩ := Option.ne_none_iff_exists'.mp hpush
  rw [smbIconvChunks, dif_neg hin]
  dsimp only
  rw [dif_pos (by rw [hf.pull]; split <;> simp), hf.pull]
  dsimp only
  rw [he]
  nofun

theorem Filled.length_rest_lt {source : CharsetFunctions} (hf : Filled source most behind input units rest out units')
    (hin : input ≠ []) : rest.length < input.length := by
  have hprogress := @source.pull_progress behind input hin (by rw [hf.pull]; split <;> simp)
  rwa [hf.pull] at hprogress

/-- Without such a chunk the pieces are pushed as the whole. -/
theorem smbIconvChunks_whole (hpull : source.functions.pull behind input room = .done units)
    (hpush : target.functions.push units outLeft = .done out) (hcut : target = .utf8 → ¬CutsPair source behind input) :
    smbIconvChunks source.functions target.functions behind input outLeft = .done out := by
  induction hn : input.length using Nat.strong_induction_on generalizing input units room outLeft out with
  | _ m ih =>
    by_cases hin : input = []
    · subst hin
      rw [source.pull_nil] at hpull
      obtain rfl := Conv.done_inj hpull
      rw [smbIconvChunks, dif_pos rfl, ← target.push_nil outLeft]
      exact hpush
    · obtain ⟨rest, chunk, units', hf⟩ := source.filled hpull
      have hchunks := hf.chunks hin
      have hlt := hf.length_rest_lt hin
      obtain rfl := hf.whole
      by_cases hrest : rest = []
      · subst hrest
        have hlast := hf.next _ le_rfl
        rw [source.pull_nil] at hlast
        obtain rfl := Conv.done_inj hlast
        rw [append_nil] at hpush
        rw [hf.iconv_done hin hpush, smbIconvChunks, dif_pos rfl, Conv.after_done, append_nil]
      · obtain ⟨rest', chunk', units'', hf'⟩ := source.filled (hf.next _ le_rfl)
        have hmore : pullChunks source.functions behind rest ≠ [] := fun h => hrest ((pullChunks_eq_nil hf').mp h)
        obtain ⟨out₁, out₂, rfl, h₁, h₂⟩ := Builtin.push_append (hf.filled hrest).1
          (fun ht hend => hcut ht ⟨chunk, by rw [hchunks, dropLast_cons_of_ne_nil hmore]; exact mem_cons_self, hend⟩) hpush
        rw [hf.iconv_done hin h₁, ih _ (hn ▸ hlt) (hf.next _ le_rfl) h₂ (fun ht ⟨c, hc, hend⟩ => hcut ht
          ⟨c, by rw [hchunks, dropLast_cons_of_ne_nil hmore]; exact mem_cons_of_mem _ hc, hend⟩) rfl, Conv.after_done]

/-- With such a chunk the conversion to UTF-8 fails. -/
theorem smbIconvChunks_cut (hpull : source.functions.pull behind input room = .done units) (hcut : CutsPair source behind input) :
    (smbIconvChunks source.functions Builtin.utf8.functions behind input outLeft).err ≠ none := by
  induction hn : input.length using Nat.strong_induction_on generalizing input units room outLeft with
  | _ m ih =>
    obtain ⟨c, hc, hend⟩ := hcut
    by_cases hin : input = []
    · subst hin
      rw [pullChunks_nil] at hc
      cases hc
    · obtain ⟨rest, chunk, units', hf⟩ := source.filled hpull
      have hlt := hf.length_rest_lt hin
      by_cases herr : (Builtin.utf8.functions.push chunk outLeft).err = none
      · have hdone : Builtin.utf8.functions.push chunk outLeft = .done (Builtin.utf8.functions.push chunk outLeft).out :=
          Loop.done_of_err (fun hn => pushStop_pos hn) herr
        rw [hf.iconv_done hin hdone, Conv.after_err]
        refine ih _ (hn ▸ hlt) (hf.next _ le_rfl) ⟨c, ?_, hend⟩ rfl
        rw [hf.chunks hin] at hc
        by_cases hmore : pullChunks source.functions behind rest = []
        · rw [hmore] at hc
          cases hc
        · rw [dropLast_cons_of_ne_nil hmore] at hc
          rcases mem_cons.mp hc with rfl | hc
          · exact absurd herr (utf8Push_endsHigh hend)
          · exact hc
      · exact hf.iconv_error hin herr

theorem CutsPair.cons {most : Nat} (hf : Filled source.functions most behind input units rest out units') (hin : input ≠ []) :
    CutsPair source behind input ↔
      pullChunks source.functions behind rest ≠ [] ∧ (EndsHigh out ∨ CutsPair source behind rest) := by
  unfold CutsPair
  rw [hf.chunks hin]
  by_cases hmore : pullChunks source.functions behind rest = []
  · rw [hmore]
    simp
  · rw [dropLast_cons_of_ne_nil hmore, exists_mem_cons_iff]
    simp [hmore]

theorem Builtin.eq_nil_of_pull (h : source.functions.pull behind input room = .done []) : input = [] := by
  have hloop : ∀ l : Loop Errno UInt8 UInt8, l.Exact .e2big → l.minOut = 2 → l.run input room = .done [] → input = [] := by
    intro l hl hmin hrun
    rcases Loop.done_cases hrun with ⟨hnil, -⟩ | ⟨n, out, u', -, -, hr, -, hu⟩
    · exact hnil
    · have hout := (hl.round hr).2.1
      rw [(append_eq_nil_iff.mp hu.symm).1, length_nil, hmin] at hout
      exact absurd hout (by decide)
  cases source with
  | utf8 => exact hloop _ utf8Pull_exact rfl h
  | utf16be =>
    obtain ⟨-, -, hnil⟩ := iconvSwab_done h
    rw [← length_eq_zero_iff, ← length_swabBytes, ← hnil, length_nil]
  | ucs2hex => exact hloop _ (ucs2hexPull_exact behind) rfl h
  | ascii => exact hloop _ asciiPull_exact rfl h

theorem cvtbufSize_le_mul (k : Nat) : cvtbufSize ≤ cvtbufSize * (k + 1) := Nat.le_mul_of_pos_right _ (Nat.succ_pos k)

/-- A set of which every character becomes one unit fills the buffer to the end, so that it is known where the buffer cuts. -/
theorem cutsPair_iff (hsource : source ≠ .utf8) (hpull : source.functions.pull behind input room = .done units) :
    CutsPair source behind input ↔
      ∃ k, cvtbufSize * (k + 1) < units.length ∧ EndsHigh (units.take (cvtbufSize * (k + 1))) := by
  induction hn : input.length using Nat.strong_induction_on generalizing input units room with
  | _ m ih =>
    by_cases hin : input = []
    · subst hin
      rw [source.pull_nil] at hpull
      obtain rfl := Conv.done_inj hpull
      simp [CutsPair, pullChunks_nil]
    · obtain ⟨rest, chunk, units', hf⟩ := source.filled hpull
      have hfits := hf.fits
      rw [CutsPair.cons hf hin, hf.whole]
      by_cases hrest : rest = []
      · subst hrest
        have hlast := hf.next _ le_rfl
        rw [source.pull_nil] at hlast
        obtain rfl := Conv.done_inj hlast
        simp only [pullChunks_nil, ne_eq, not_true_eq_false, false_and, false_iff, not_exists, not_and, append_nil]
        intro k hk
        have := cvtbufSize_le_mul k
        omega
      · obtain ⟨rest', chunk', units'', hf'⟩ := source.filled (hf.next _ le_rfl)
        have hmore : pullChunks source.functions behind rest ≠ [] := fun h => hrest ((pullChunks_eq_nil hf').mp h)
        have hpos : 0 < units'.length := by
          refine length_pos_of_ne_nil fun hnil => hrest ?_
          have hnext := hf.next _ le_rfl
          rw [hnil] at hnext
          exact Builtin.eq_nil_of_pull hnext
        have hlen : chunk.length = cvtbufSize := by
          obtain ⟨heven, hfull⟩ := hf.filled hrest
          have hcap : 2 ∣ cvtbufSize := by decide
          have hmost : source.most = 2 := by
            cases source with
            | utf8 => exact absurd rfl hsource
            | _ => rfl
          omega
        have htake : ∀ k, (chunk ++ units').take (cvtbufSize * (k + 1 + 1)) = chunk ++ units'.take (cvtbufSize * (k + 1)) := by
          intro k
          rw [Nat.mul_succ, ← hlen, Nat.add_comm, take_length_add_append]
        rw [ih _ (hn ▸ hf.length_rest_lt hin) (hf.next _ le_rfl) rfl, length_append]
        constructor
        · rintro ⟨-, hend | ⟨k, hk, hend⟩⟩
          · exact ⟨0, by rw [Nat.zero_add, Nat.mul_one]; omega,
              by rwa [Nat.zero_add, Nat.mul_one, ← hlen, take_left' rfl]⟩
          · exact ⟨k + 1, by rw [Nat.mul_succ]; omega, by rw [htake]; exact hend.append chunk⟩
        · rintro ⟨k, hk, hend⟩
          refine ⟨hmore, ?_⟩
          cases k with
          | zero =>
            rw [Nat.zero_add, Nat.mul_one, ← hlen, take_left' rfl] at hend
            exact .inl hend
          | succ k =>
            rw [Nat.mul_succ] at hk
            rw [htake] at hend
            refine .inr ⟨k, by omega, hend.of_append fun hnil => ?_⟩
            have htaken := congrArg List.length hnil
            have := cvtbufSize_le_mul k
            have hcap : 0 < cvtbufSize := by decide
            rw [length_take, length_nil] at htaken
            omega

theorem not_endsHigh_utf16le {ns : List Nat} (h : ∀ n ∈ ns, Scalar n) : ¬EndsHigh (ns.flatMap utf16leBytes) := by
  induction ns with
  | nil => exact fun ⟨_, hlast, _⟩ => (nomatch hlast)
  | cons n ns ih =>
    rw [forall_mem_cons] at h
    rw [flatMap_cons]
    intro hend
    by_cases hne : ns.flatMap utf16leBytes = []
    · rw [hne, append_nil] at hend
      obtain ⟨high, hlast, hhigh⟩ := hend
      have hunit : ∀ a < 256, UInt8.ofNat a &&& 0xfc = 0xd8 → 0xD8 ≤ a ∧ a < 0xDC := by decide +kernel
      have hs := h.1
      unfold Scalar at hs
      unfold utf16leBytes at hlast
      split at hlast
      · obtain rfl := Option.some.inj hlast
        have := hunit (n / 256) (by omega) hhigh
        omega
      · obtain rfl := Option.some.inj hlast
        have := hunit (0xDC + (n - 0x10000) / 256 % 4) (by omega) hhigh
        omega
    · exact ih h.2 (hend.of_append hne)

/-- What is pulled and pushed in one piece comes out of the buffer the same, unless the target is UTF-8 and the buffer cuts a
pair in two. -/
theorem smbIconv_buffered_iff (hpull : source.functions.pull behind input room = .done units)
    (hpush : target.functions.push units outLeft = .done out) :
    smbIconv (.buffered source.functions target.functions) behind input outLeft = .done out ↔
      (target = .utf8 → ¬CutsPair source behind input) := by
  constructor
  · rintro h rfl hcut
    have herr := @smbIconvChunks_cut source behind input units room outLeft hpull hcut
    rw [show smbIconvChunks source.functions Builtin.utf8.functions behind input outLeft = _ from h] at herr
    exact herr rfl
  · exact smbIconvChunks_whole hpull hpush

end Chunks

/-- Letters and then a character that takes two units. -/
def longName (m : Nat) : List Nat := List.replicate m 0x61 ++ [0x10000]

theorem longName_units (m : Nat) : (longName m).flatMap utf16leBytes =
    ((List.replicate m 0x61).flatMap utf16leBytes ++ [0x00, 0xD8]) ++ [0x00, 0xDC] := by
  rw [longName, flatMap_append, append_assoc]
  rfl

theorem length_letters (m : Nat) : ((List.replicate m 0x61).flatMap utf16leBytes).length = 2 * m ∧
    ((List.replicate m 0x61).flatMap utf8Bytes).length = m := by
  induction m with
  | zero => exact ⟨rfl, rfl⟩
  | succ m ih =>
    rw [replicate_succ, flatMap_cons, flatMap_cons, length_append, length_append, ih.1, ih.2]
    exact ⟨by rw [length_utf16leBytes, if_pos (by decide)]; omega, by simp [utf8Bytes]; omega⟩

theorem length_longName (m : Nat) : ((longName m).flatMap utf16leBytes).length = 2 * m + 4 ∧
    ((longName m).flatMap utf8Bytes).length = m + 4 := by
  constructor
  · rw [longName_units, length_append, length_append, (length_letters m).1]
    rfl
  · rw [longName, flatMap_append, length_append, (length_letters m).2]
    rfl

/-- In one piece such a name is pulled from UTF-16BE and pushed as UTF-8. -/
theorem longName_whole {m : Nat} (hm : 2 * m + 4 < 2 ^ 31) :
    Builtin.utf16be.functions.pull [] (swabBytes ((longName m).flatMap utf16leBytes)) (2 * m + 4) =
        .done ((longName m).flatMap utf16leBytes) ∧
      Builtin.utf8.functions.push ((longName m).flatMap utf16leBytes) (m + 4) = .done ((longName m).flatMap utf8Bytes) := by
  obtain ⟨hlen16, hlen8⟩ := length_longName m
  constructor
  · rw [utf16be_pull, iconvSwab_whole (by rw [length_swabBytes, hlen16]) (by rw [length_swabBytes, hlen16]; omega),
      swabBytes_swabBytes (by rw [hlen16]; omega)]
  · refine utf8Push_bytes (fun n hn => ?_) (by rw [hlen8])
    rcases mem_append.mp hn with hn | hn
    · rw [eq_of_mem_replicate hn]
      decide
    · rw [mem_singleton.mp hn]
      decide

/-- Behind 1024 letters the buffer is full, and the pair comes with the next filling. -/
theorem smbIconv_buffered_longName :
    smbIconv (.buffered Builtin.utf16be.functions Builtin.utf8.functions) []
      (swabBytes ((longName 1024).flatMap utf16leBytes)) 1028 = .done ((longName 1024).flatMap utf8Bytes) := by
  obtain ⟨hpull, hpush⟩ := @longName_whole 1024 (by decide)
  refine (@smbIconv_buffered_iff .utf16be .utf8 [] _ _ _ _ 1028 hpull hpush).mpr fun _ hcut => ?_
  obtain ⟨k, hk, hend⟩ := (cutsPair_iff (by decide) hpull).mp hcut
  have hcap : cvtbufSize = 2048 := rfl
  rw [(length_longName 1024).1, hcap] at hk
  obtain rfl : k = 0 := by omega
  have hletters : ((longName 1024).flatMap utf16leBytes).take (cvtbufSize * (0 + 1)) =
      (List.replicate 1024 0x61).flatMap utf16leBytes := by
    rw [longName_units, append_assoc, hcap]
    exact take_left' (length_letters 1024).1
  rw [hletters] at hend
  refine not_endsHigh_utf16le (fun n hn => ?_) hend
  rw [eq_of_mem_replicate hn]
  decide

/-- In UTF-16BE the pair behind 1023 letters lies across the end of the buffer. -/
theorem longName_not_converted :
    Builtin.utf16be.functions.pull [] (swabBytes ((longName 1023).flatMap utf16leBytes)) 2050 =
        .done ((longName 1023).flatMap utf16leBytes) ∧
      Builtin.utf8.functions.push ((longName 1023).flatMap utf16leBytes) 1027 = .done ((longName 1023).flatMap utf8Bytes) ∧
      smbIconv (.buffered Builtin.utf16be.functions Builtin.utf8.functions) []
          (swabBytes ((longName 1023).flatMap utf16leBytes)) 1027 ≠ .done ((longName 1023).flatMap utf8Bytes) := by
  obtain ⟨hpull, hpush⟩ := @longName_whole 1023 (by decide)
  refine ⟨hpull, hpush, fun h => ?_⟩
  refine @smbIconvChunks_cut .utf16be [] _ _ _ 1027 hpull
    ((cutsPair_iff (by decide) hpull).mpr ⟨0, by rw [(length_longName 1023).1]; decide, ?_⟩) (congrArg Conv.err h)
  rw [longName_units, take_left' (by rw [length_append, (length_letters 1023).1]; rfl)]
  exact EndsHigh.append ⟨0xD8, rfl, by decide⟩ _

end Samba.Charset
