/-
NetBIOS names that are pushed into one buffer are read back from where they were pushed (libcli/nbt/nbtname.c). A pointer
leads to a label that was written for an earlier name, never to another pointer, and what is read behind it ends before the
pointer: so one round is enough for each component, and the furthest offset is the end of what was pushed.
-/
import Samba.Nbt.Name

namespace Samba.Nbt

open CString List Ndr
open Samba.Wrepl (NbtName)

/-! ## Dotted strings -/

/-- What stands behind a label. -/
def dotted (s : Text) : Text := if s = [] then [] else chr '.' :: s

/-- The labels with dots between them. -/
def joinLabels : List Text → Text
  | [] => []
  | l :: ls => l ++ dotted (joinLabels ls)

theorem joinLabels_cons (l : Text) (ls : List Text) : joinLabels (l :: ls) = l ++ dotted (joinLabels ls) := rfl

theorem length_le_dotted (s : Text) : s.length ≤ (dotted s).length := by
  unfold dotted
  split
  · rename_i hs
    rw [hs]
  · exact Nat.le_succ _

/-- The labels that can be pushed. -/
structure ValidLabel (l : Text) : Prop where
  nonempty : l ≠ []
  short : l.length < 0x3F
  noDot : chr '.' ∉ l
  noNul : (0 : UInt8) ∉ l

/-- The number of components of a dotted string. -/
def components (s : Text) : Nat := if s = [] then 0 else s.count (chr '.') + 1

variable {l : Text}

theorem firstComponent_append (h : chr '.' ∉ l) (s : Text) : firstComponent (l ++ dotted s) = l := by
  have hl : ∀ c ∈ l, decide (c ≠ chr '.') = true := fun c hc => by simpa using fun e : c = chr '.' => h (e ▸ hc)
  rw [firstComponent, takeWhile_append_of_pos hl, dotted]
  split <;> simp

theorem nextComponents_append (h : chr '.' ∉ l) (s : Text) : nextComponents (l ++ dotted s) = s := by
  have hl : ∀ c ∈ l, decide (c ≠ chr '.') = true := fun c hc => by simpa using fun e : c = chr '.' => h (e ▸ hc)
  rw [nextComponents, dropWhile_append_of_pos hl, dotted]
  split
  · rename_i hs
    simp [hs]
  · simp

theorem components_append (hne : l ≠ []) (h : chr '.' ∉ l) (s : Text) :
    components (l ++ dotted s) = components s + 1 := by
  rw [components, if_neg (by simp [hne]), count_append, count_eq_zero_of_not_mem h, dotted, components]
  split <;> simp

theorem components_joinLabels {ls : List Text} (h : ∀ l ∈ ls, ValidLabel l) : components (joinLabels ls) = ls.length := by
  induction ls with
  | nil => rfl
  | cons l ls ih =>
    rw [forall_mem_cons] at h
    rw [joinLabels, components_append h.1.nonempty h.1.noDot, ih h.2, length_cons]

theorem length_joinLabels_tail (l : Text) (ls : List Text) (h : l ≠ []) :
    (joinLabels ls).length + 1 ≤ (joinLabels (l :: ls)).length := by
  have := length_pos_of_ne_nil h
  rw [joinLabels, length_append, dotted]
  split
  · rename_i hs
    simp only [hs, length_nil]
    omega
  · simp only [length_cons]
    omega

theorem length_joinLabels_le {ls : List Text} (h : ∀ l ∈ ls, ValidLabel l) : (joinLabels ls).length ≤ 0x3F * ls.length := by
  induction ls with
  | nil => simp [joinLabels]
  | cons l ls ih =>
    rw [forall_mem_cons] at h
    have hl := h.1.short
    have hrest := ih h.2
    rw [joinLabels_cons, length_append, length_cons, dotted]
    split
    · simp only [length_nil]
      omega
    · simp only [length_cons]
      omega

/-! ## What is on the wire -/

/-- A label begins here. -/
def StartsLabel (data : List UInt8) (offset : Nat) : Prop :=
  ∃ len, data[offset]? = some len ∧ len ≠ 0 ∧ len &&& 0xC0 = 0

/-- The dotted string `s` is read from the offset on, and nothing is looked at from `out` on. -/
inductive Wire (data : List UInt8) : Nat → Text → Nat → Prop
  | stop {offset : Nat} : data[offset]? = some 0 → Wire data offset [] (offset + 1)
  | label {offset out : Nat} {l s : Text} : ValidLabel l → data[offset]? = some (UInt8.ofNat l.length) →
    (data.drop (offset + 1)).take l.length = l → Wire data (offset + l.length + 1) s out →
    Wire data offset (l ++ dotted s) out
  | pointer {offset out : Nat} {high low : UInt8} {s : Text} : data[offset]? = some high → high &&& 0xC0 = 0xC0 →
    data[offset + 1]? = some low → StartsLabel data (((high &&& 0x3F).toNat <<< 8) ||| low.toNat) →
    Wire data (((high &&& 0x3F).toNat <<< 8) ||| low.toNat) s out → out ≤ offset → Wire data offset s (offset + 2)

section Wire

variable {data : List UInt8} {offset out : Nat} {s : Text}

theorem Wire.lt_length (h : Wire data offset s out) : offset < data.length := by
  cases h with
  | stop h => exact (List.getElem?_eq_some_iff.mp h).1
  | label _ h => exact (List.getElem?_eq_some_iff.mp h).1
  | pointer h => exact (List.getElem?_eq_some_iff.mp h).1

theorem Wire.lt_out (h : Wire data offset s out) : offset < out := by
  induction h with
  | stop => omega
  | label _ _ _ _ ih => omega
  | pointer => omega

theorem Wire.append (h : Wire data offset s out) (more : List UInt8) : Wire (data ++ more) offset s out := by
  have hget : ∀ {i : Nat} {c : UInt8}, data[i]? = some c → (data ++ more)[i]? = some c := fun h => by
    rw [List.getElem?_append_left (List.getElem?_eq_some_iff.mp h).1, h]
  induction h with
  | stop h => exact .stop (hget h)
  | @label offset out l s hl hlen htake hs ih =>
    refine .label hl (hget hlen) ?_ ih
    have hle : l.length ≤ (data.drop (offset + 1)).length := by
      have := congrArg List.length htake
      rw [length_take] at this
      omega
    rw [drop_append_of_le_length (by have := hs.lt_length; omega), take_append_of_le_length hle, htake]
  | pointer hhigh hflag hlow hstart _ hout ih =>
    obtain ⟨len, hlen, hne, hzero⟩ := hstart
    exact .pointer (hget hhigh) hflag (hget hlow) ⟨len, hget hlen, hne, hzero⟩ ih hout

theorem short_len {n : Nat} (h : n < 0x3F) (hpos : 0 < n) :
    (UInt8.ofNat n).toNat = n ∧ UInt8.ofNat n ≠ 0 ∧ UInt8.ofNat n &&& 0xC0 = 0 := by
  revert hpos
  revert n
  decide

/-- A label is read as a component, whatever rounds are left. -/
theorem ndrPullComponent_label {l : Text} (hl : ValidLabel l) (hlen : data[offset]? = some (UInt8.ofNat l.length))
    (htake : (data.drop (offset + 1)).take l.length = l) (hnext : offset + l.length + 1 < data.length) (rounds maxOffset : Nat) :
    ndrPullComponent data (rounds + 1) offset maxOffset =
      .ok (some l, offset + l.length + 1, max maxOffset (offset + l.length + 1)) := by
  obtain ⟨hnat, hne, hflag⟩ := short_len hl.short (length_pos_of_ne_nil hl.nonempty)
  rw [ndrPullComponent, hlen]
  dsimp only
  rw [if_neg hne, hflag, if_neg (by decide), if_neg (by decide), hnat, if_neg (by omega), htake, cstr_eq_self hl.noNul]

/-- Where a label begins, the number of rounds makes no difference. -/
theorem ndrPullComponent_rounds (h : StartsLabel data offset) (rounds maxOffset : Nat) :
    ndrPullComponent data (rounds + 1) offset maxOffset = ndrPullComponent data 5 offset maxOffset := by
  obtain ⟨len, hlen, hne, hflag⟩ := h
  rw [ndrPullComponent, ndrPullComponent, hlen]
  dsimp only
  have h0 : ¬(0 : UInt8) = 0xC0 := by decide
  rw [if_neg hne, if_neg hne, hflag]
  simp only [if_neg h0]

/-- The name so far with what is still to come. -/
def joined (name : Option Text) (s : Text) : Text := if s = [] then name.getD [] else appendComponent name s

theorem joined_label (name : Option Text) {l : Text} (hl : l ≠ []) (s : Text) :
    joined (some (appendComponent name l)) s = joined name (l ++ dotted s) := by
  rw [joined, joined, if_neg (show ¬l ++ dotted s = [] by simp [hl]), dotted]
  split
  · rw [append_nil]
    rfl
  · cases name with
    | none => rfl
    | some name => simp [appendComponent]

/-- The components of a string on the wire are read in order. -/
theorem pullComponents_wire (h : Wire data offset s out) {n : Nat} (hn : components s < n) (name : Option Text) (maxOffset : Nat) :
    pullComponents data n name offset maxOffset = .ok (joined name s, max maxOffset out) := by
  induction h generalizing n name maxOffset with
  | stop h =>
    obtain ⟨n, rfl⟩ := Nat.exists_eq_add_of_lt hn
    rw [pullComponents, ndrPullComponent, h]
    rfl
  | @label offset out l s hl hlen htake hs ih =>
    rw [components_append hl.nonempty hl.noDot] at hn
    obtain ⟨n, rfl⟩ := Nat.exists_eq_add_of_lt hn
    rw [pullComponents, ndrPullComponent_label hl hlen htake hs.lt_length]
    dsimp only [bind, Except.bind]
    rw [ih (by omega), joined_label _ hl.nonempty]
    have := hs.lt_out
    congr 2
    omega
  | @pointer offset out high low s hhigh hflag hlow hstart hs hout ih =>
    obtain ⟨n, rfl⟩ := Nat.exists_eq_add_of_lt hn
    have hne : high ≠ 0 := by
      rintro rfl
      exact absurd hflag (by decide)
    have hcomp : ndrPullComponent data 5 offset maxOffset =
        ndrPullComponent data 5 (((high &&& 0x3F).toNat <<< 8) ||| low.toNat)
          (max (max maxOffset (offset + 2)) (((high &&& 0x3F).toNat <<< 8) ||| low.toNat)) := by
      rw [← ndrPullComponent_rounds hstart 3, ndrPullComponent, hhigh]
      dsimp only
      rw [if_neg hne, if_pos hflag, hlow]
    have hpull := ih hn name (max (max maxOffset (offset + 2)) (((high &&& 0x3F).toNat <<< 8) ||| low.toNat))
    rw [pullComponents] at hpull ⊢
    rw [hcomp, hpull]
    have := hs.lt_out
    congr 2
    omega

end Wire

/-! ## Pushing a dotted string -/

/-- The string that a token stands for is there to be read. -/
def Complete (data : List UInt8) (tok : Text × Nat) : Prop :=
  StartsLabel data tok.2 ∧ ∃ out ≤ data.length, Wire data tok.2 tok.1 out

theorem Complete.append {data : List UInt8} {tok : Text × Nat} (h : Complete data tok) (more : List UInt8) :
    Complete (data ++ more) tok := by
  obtain ⟨⟨len, hlen, hrest⟩, out, hout, hw⟩ := h
  refine ⟨⟨len, ?_, hrest⟩, out, by rw [length_append]; omega, hw.append more⟩
  rw [List.getElem?_append_left (List.getElem?_eq_some_iff.mp hlen).1, hlen]

/-- The two bytes of a pointer give the offset back. -/
theorem pointer_bytes {offset : Nat} (h : offset ≤ 0x3FFF) :
    ((0xC0 : UInt8) ||| UInt8.ofNat (offset >>> 8)) &&& 0xC0 = 0xC0 ∧
      ((((0xC0 : UInt8) ||| UInt8.ofNat (offset >>> 8)) &&& 0x3F).toNat <<< 8 ||| (UInt8.ofNat (offset &&& 0xFF)).toNat) =
        offset := by
  have hhigh : ∀ n < 64, ((0xC0 : UInt8) ||| UInt8.ofNat n) &&& 0xC0 = 0xC0 ∧
      (((0xC0 : UInt8) ||| UInt8.ofNat n) &&& 0x3F).toNat = n := by decide
  have hdiv : offset >>> 8 = offset / 2 ^ 8 := Nat.shiftRight_eq_div_pow ..
  have hmod : offset &&& 0xFF = offset % 2 ^ 8 := Nat.and_two_pow_sub_one_eq_mod offset 8
  obtain ⟨hflag, hsix⟩ := hhigh (offset >>> 8) (by omega)
  refine ⟨hflag, ?_⟩
  rw [hsix, hmod, UInt8.toNat_ofNat', Nat.mod_mod, hdiv, Nat.shiftLeft_eq, Nat.mul_comm,
    ← Nat.two_pow_add_eq_or_of_lt (Nat.mod_lt _ (by decide))]
  exact Nat.div_add_mod offset (2 ^ 8)

/-- What pushing a dotted string leaves behind. -/
structure PushedString (ndr ndr' : NdrPush) (s : Text) : Prop where
  data : ∃ more, ndr'.data = ndr.data ++ more
  flags : ndr'.flags = ndr.flags
  size : ndr'.data.length ≤ ndr.data.length + 2 * s.length + 2
  wire : Wire ndr'.data ndr.data.length s ndr'.data.length
  tokens : ∀ tok ∈ ndr'.nbtStringList, tok ∈ ndr.nbtStringList ∨ Complete ndr'.data tok

/-- The first label of the rest, once it is written. -/
theorem PushedString.label {ndr ndr₁ ndr' : NdrPush} {l s : Text} (hl : ValidLabel l)
    (hdata : ndr₁.data = ndr.data ++ UInt8.ofNat l.length :: l) (hflags : ndr₁.flags = ndr.flags)
    (htokens : ndr₁.nbtStringList = (l ++ dotted s, ndr.data.length) :: ndr.nbtStringList)
    (h : PushedString ndr₁ ndr' s) : PushedString ndr ndr' (l ++ dotted s) := by
  obtain ⟨more, hmore⟩ := h.data
  rw [hdata, append_assoc] at hmore
  have hlen : ndr'.data[ndr.data.length]? = some (UInt8.ofNat l.length) := by
    rw [hmore, List.getElem?_append_right le_rfl, Nat.sub_self]
    rfl
  have htake : (ndr'.data.drop (ndr.data.length + 1)).take l.length = l := by
    rw [hmore, drop_append, drop_of_length_le (by omega), show ndr.data.length + 1 - ndr.data.length = 1 by omega]
    exact take_left' rfl
  have hw := h.wire
  rw [show ndr₁.data.length = ndr.data.length + l.length + 1 by rw [hdata]; simp; omega] at hw
  have hwire : Wire ndr'.data ndr.data.length (l ++ dotted s) ndr'.data.length := .label hl hlen htake hw
  obtain ⟨-, hne, hflag⟩ := short_len hl.short (length_pos_of_ne_nil hl.nonempty)
  have hsize : ndr'.data.length ≤ ndr.data.length + 2 * (l ++ dotted s).length + 2 := by
    have hpos := length_pos_of_ne_nil hl.nonempty
    have hrest := h.size
    have hdot := length_le_dotted s
    rw [hdata, length_append, length_cons] at hrest
    rw [length_append]
    omega
  refine ⟨⟨_, hmore⟩, h.flags.trans hflags, hsize, hwire, fun tok htok => ?_⟩
  rcases h.tokens tok htok with hmem | hcomplete
  · rw [htokens] at hmem
    rcases mem_cons.mp hmem with rfl | hmem
    · exact .inr ⟨⟨_, hlen, hne, hflag⟩, _, le_rfl, hwire⟩
    · exact .inl hmem
  · exact .inr hcomplete

variable {ndr : NdrPush} {r : NbtName}

/-- A dotted string can be read where it was pushed. Of the tokens only those for strings that are not longer count: the
longer ones belong to the string that is being written. -/
theorem pushedString {ls : List Text} (hls : ∀ l ∈ ls, ValidLabel l) {ndr' : NdrPush}
    (htokens : ∀ tok ∈ ndr.nbtStringList, tok.1.length ≤ (joinLabels ls).length → Complete ndr.data tok)
    (h : ndrPushNbtString ndr (joinLabels ls) = .ok ndr') : PushedString ndr ndr' (joinLabels ls) := by
  induction ls generalizing ndr with
  | nil =>
    rw [joinLabels, ndrPushNbtString, dif_pos rfl] at h
    have hw := writes_of_bytes h
    refine ⟨⟨_, hw.data⟩, hw.flags, by rw [hw.data]; simp; omega, ?_, fun tok htok => .inl (hw.nbtStringList ▸ htok)⟩
    rw [hw.data, length_append]
    exact .stop (by rw [List.getElem?_append_right le_rfl, Nat.sub_self]; rfl)
  | cons l ls ih =>
    rw [forall_mem_cons] at hls
    have hne : joinLabels (l :: ls) ≠ [] := by simp [joinLabels, hls.1.nonempty]
    rw [ndrPushNbtString, dif_neg hne] at h
    split at h
    · rename_i key offset hfind
      obtain rfl : key = joinLabels (l :: ls) := by simpa using List.find?_some hfind
      obtain ⟨hstart, out, hout, hw⟩ := htokens _ (mem_of_find?_eq_some hfind) le_rfl
      split at h
      · cases h
      · rename_i hoff
        obtain ⟨hflag, htarget⟩ := pointer_bytes (show offset ≤ 0x3FFF by omega)
        have hwr := writes_of_bytes h
        refine ⟨⟨_, hwr.data⟩, hwr.flags, by rw [hwr.data]; simp, ?_, fun tok htok =>
          .inl (hwr.nbtStringList ▸ htok)⟩
        have hptr := Complete.append ⟨hstart, out, hout, hw⟩ [(0xC0 : UInt8) ||| UInt8.ofNat (offset >>> 8), UInt8.ofNat (offset &&& 0xFF)]
        rw [← hwr.data] at hptr
        obtain ⟨hstart', -⟩ := hptr
        have hw' := hw.append [(0xC0 : UInt8) ||| UInt8.ofNat (offset >>> 8), UInt8.ofNat (offset &&& 0xFF)]
        rw [← hwr.data] at hw'
        rw [show ndr'.data.length = ndr.data.length + 2 by rw [hwr.data]; simp]
        refine .pointer ?_ hflag ?_ (htarget.symm ▸ hstart') (htarget.symm ▸ hw') hout
        · rw [hwr.data, List.getElem?_append_right le_rfl, Nat.sub_self]
          rfl
        · rw [hwr.data, List.getElem?_append_right (by omega), show ndr.data.length + 1 - ndr.data.length = 1 by omega]
          rfl
    · dsimp only at h
      rw [joinLabels_cons, firstComponent_append hls.1.noDot, nextComponents_append hls.1.noDot] at h
      have hshort := hls.1.short
      rw [if_neg (by omega)] at h
      cases hb : ndrPushBytes { ndr with nbtStringList := (l ++ dotted (joinLabels ls), ndr.data.length) :: ndr.nbtStringList }
          (UInt8.ofNat l.length :: l) with
      | error e => rw [hb] at h; cases h
      | ok ndr₁ =>
        rw [hb] at h
        have hw := writes_of_bytes hb
        have htail := length_joinLabels_tail l ls hls.1.nonempty
        refine PushedString.label hls.1 hw.data hw.flags hw.nbtStringList (ih hls.2 (fun tok htok hlen => ?_) h)
        rw [hw.nbtStringList] at htok
        rcases mem_cons.mp htok with rfl | hmem
        · have hlong : (joinLabels (l :: ls)).length ≤ (joinLabels ls).length := hlen
          omega
        · rw [hw.data]
          exact (htokens tok hmem (by omega)).append _

/-- Pushing a dotted string does not fail as long as there is room and the tokens for it lie within reach of a pointer. -/
theorem ndrPushNbtString_ok {ls : List Text} (hls : ∀ l ∈ ls, ValidLabel l)
    (htokens : ∀ tok ∈ ndr.nbtStringList, tok.1.length ≤ (joinLabels ls).length → tok.2 ≤ 0x3FFF)
    (hroom : ndr.data.length + 2 * (joinLabels ls).length + 2 + ndrBaseMarshallSize < maxTallocSize) :
    ∃ ndr', ndrPushNbtString ndr (joinLabels ls) = .ok ndr' := by
  induction ls generalizing ndr with
  | nil =>
    rw [joinLabels, ndrPushNbtString, dif_pos rfl]
    exact ndrPushBytes_ok (by simp only [length_singleton]; omega)
  | cons l ls ih =>
    rw [forall_mem_cons] at hls
    have hpos := length_pos_of_ne_nil hls.1.nonempty
    have hne : joinLabels (l :: ls) ≠ [] := by simp [joinLabels, hls.1.nonempty]
    have hlen : (joinLabels (l :: ls)).length = l.length + (dotted (joinLabels ls)).length := length_append
    rw [ndrPushNbtString, dif_neg hne]
    split
    · rename_i key offset hfind
      obtain rfl : key = joinLabels (l :: ls) := by simpa using List.find?_some hfind
      have hoff : offset ≤ 0x3FFF := htokens _ (mem_of_find?_eq_some hfind) le_rfl
      rw [if_neg (by omega)]
      exact ndrPushBytes_ok (by simp only [length_cons, length_nil]; omega)
    · dsimp only
      rw [joinLabels_cons, firstComponent_append hls.1.noDot, nextComponents_append hls.1.noDot]
      have hshort := hls.1.short
      have htail := length_joinLabels_tail l ls hls.1.nonempty
      have hdotted := length_le_dotted (joinLabels ls)
      rw [if_neg (by omega)]
      obtain ⟨ndr₁, hb⟩ := @ndrPushBytes_ok
        { ndr with nbtStringList := (l ++ dotted (joinLabels ls), ndr.data.length) :: ndr.nbtStringList }
        (UInt8.ofNat l.length :: l) (by simp only [length_cons]; omega)
      have hw := writes_of_bytes hb
      rw [hb]
      refine ih hls.2 (fun tok htok hle => ?_) ?_
      · rw [hw.nbtStringList] at htok
        rcases mem_cons.mp htok with rfl | hmem
        · have hlong : (joinLabels (l :: ls)).length ≤ (joinLabels ls).length := hle
          omega
        · exact htokens tok hmem (by omega)
      · rw [hw.data]
        simp only [length_append, length_cons]
        omega

/-! ## Pushing names -/

/-- A scope that can be pushed: at most eight labels. -/
def ValidScope (scope : Text) : Prop :=
  ∃ labels, labels ≠ [] ∧ labels.length ≤ 8 ∧ (∀ l ∈ labels, ValidLabel l) ∧ scope = joinLabels labels

/-- The names that survive the wire. -/
structure WireName (r : NbtName) : Prop where
  length : r.name.length ≤ 15
  noNul : (0 : UInt8) ∉ r.name
  stop : r.name.getLast? ≠ some (chr ' ')
  scope : ∀ scope, r.scope = some scope → ValidScope scope

/-- The first label of a name. -/
def encodedName (r : NbtName) : Text := (paddedBytes r.name r.type).flatMap letterPair

theorem length_encodedName (h : r.name.length ≤ 15) : (encodedName r).length = 32 := by
  rw [encodedName, length_flatMap_letterPair, length_paddedBytes h]

theorem isHalf_letters (c : UInt8) : isHalf c = true → c ≠ chr '.' ∧ c ≠ 0 := by
  intro h
  constructor
  · rintro rfl
    exact absurd h (by decide)
  · rintro rfl
    exact absurd h (by decide)

theorem validLabel_encodedName (h : r.name.length ≤ 15) : ValidLabel (encodedName r) := by
  have hlen := length_encodedName h
  have hmem : ∀ c ∈ encodedName r, isHalf c = true := by
    intro c hc
    obtain ⟨b, -, hb⟩ := mem_flatMap.mp hc
    obtain ⟨hhigh, hlow, -⟩ := letterPair_halves b
    rcases mem_cons.mp hb with rfl | hb
    · exact hhigh
    · rw [mem_singleton.mp hb]
      exact hlow
  exact ⟨ne_nil_of_length_pos (by omega), by omega, fun hc => (isHalf_letters _ (hmem _ hc)).1 rfl,
    fun hc => (isHalf_letters _ (hmem _ hc)).2 rfl⟩

theorem WireName.labels (h : WireName r) :
    ∃ labels, labels.length ≤ 8 ∧ (∀ l ∈ encodedName r :: labels, ValidLabel l) ∧
      fullname (encodedName r) r.scope = joinLabels (encodedName r :: labels) ∧
      (r.scope = none ∧ labels = [] ∨ labels ≠ [] ∧ r.scope = some (joinLabels labels)) := by
  have hname := validLabel_encodedName h.length
  cases hs : r.scope with
  | none => exact ⟨[], by simp, by simpa using hname, by simp [fullname, joinLabels, dotted], .inl ⟨rfl, rfl⟩⟩
  | some scope =>
    obtain ⟨labels, hne, hcount, hvalid, rfl⟩ := h.scope scope hs
    refine ⟨labels, hcount, forall_mem_cons.mpr ⟨hname, hvalid⟩, ?_, .inr ⟨hne, rfl⟩⟩
    have hjoin : joinLabels labels ≠ [] := by
      obtain ⟨l, ls, rfl⟩ := exists_cons_of_ne_nil hne
      simp [joinLabels_cons, (hvalid l mem_cons_self).nonempty]
    rw [fullname, joinLabels_cons, dotted, if_neg hjoin]

theorem ndrPushNbtName_eq (h : r.name.length ≤ 15) (ndr : NdrPush) :
    ndrPushNbtName ndr r = ndrPushNbtString ndr (fullname (encodedName r) r.scope) := by
  rw [ndrPushNbtName, compressName_eq h]
  rfl

theorem ndrPullNbtName_wire {flags : BitVec 32} {data : List UInt8} {start out : Nat} (hr : WireName r)
    (h : Wire data start (fullname (encodedName r) r.scope) out) :
    ndrPullNbtName ⟨flags, data, start⟩ = .ok (r, ⟨flags, data, out⟩) := by
  obtain ⟨labels, hcount, hvalid, hfull, hscope⟩ := hr.labels
  have hlen := length_encodedName hr.length
  rw [hfull] at h
  have hcomp : components (joinLabels (encodedName r :: labels)) < maxComponents := by
    rw [components_joinLabels hvalid, length_cons, maxComponents]
    omega
  have hne : joinLabels (encodedName r :: labels) ≠ [] := by
    simp [joinLabels_cons, (hvalid _ mem_cons_self).nonempty]
  have hdot := (hvalid _ mem_cons_self).noDot
  have hout := h.lt_out
  rw [ndrPullNbtName, ndrPullNbtString, pullComponents_wire h hcomp, joined, if_neg hne]
  dsimp only [bind, Except.bind, pure, Except.pure, appendComponent]
  rw [joinLabels_cons, firstComponent_append hdot, nextComponents_append hdot, if_neg (by omega),
    show decompressName (encodedName r) = _ from decompressName_compressed hr.length hr.noNul r.type,
    trimSpaces_eq_self.mpr hr.stop, Nat.max_eq_right (Nat.le_of_lt hout)]
  obtain ⟨name, scope, type⟩ := r
  rcases hscope with ⟨hs, rfl⟩ | ⟨hls, hs⟩
  · cases hs
    rw [joinLabels, dotted, if_pos rfl, append_nil, if_neg hdot]
  · cases hs
    have hjoin : joinLabels labels ≠ [] := by
      obtain ⟨l, ls, rfl⟩ := exists_cons_of_ne_nil hls
      simp [joinLabels_cons, (hvalid l (by simp)).nonempty]
    rw [if_pos (by simp [dotted, hjoin])]

/-- A context into which names and other bytes have been pushed, with the place of each name: from where it was pushed to
where that push left the offset. -/
inductive Pushed : NdrPush → List (NbtName × Nat × Nat) → Prop
  | init (flags : BitVec 32) : Pushed (ndrPushInitCtx flags) []
  | bytes {ndr ndr' : NdrPush} {log : List (NbtName × Nat × Nat)} {bs : List UInt8} : Pushed ndr log →
    ndrPushBytes ndr bs = .ok ndr' → Pushed ndr' log
  | name {ndr ndr' : NdrPush} {log : List (NbtName × Nat × Nat)} {r : NbtName} : Pushed ndr log → WireName r →
    ndrPushNbtName ndr r = .ok ndr' → Pushed ndr' ((r, ndr.data.length, ndr'.data.length) :: log)

/-- Every string that has been pushed can be read. -/
structure Readable (ndr : NdrPush) (log : List (NbtName × Nat × Nat)) : Prop where
  tokens : ∀ tok ∈ ndr.nbtStringList, Complete ndr.data tok
  names : ∀ r start out, (r, start, out) ∈ log → WireName r ∧ Wire ndr.data start (fullname (encodedName r) r.scope) out

theorem Readable.append {ndr' : NdrPush} {log : List (NbtName × Nat × Nat)} {more : List UInt8} (h : Readable ndr log)
    (hdata : ndr'.data = ndr.data ++ more) :
    (∀ tok ∈ ndr.nbtStringList, Complete ndr'.data tok) ∧
      ∀ r start out, (r, start, out) ∈ log → WireName r ∧ Wire ndr'.data start (fullname (encodedName r) r.scope) out := by
  rw [hdata]
  exact ⟨fun tok htok => (h.tokens tok htok).append more, fun r start out hlog =>
    ⟨(h.names r start out hlog).1, (h.names r start out hlog).2.append more⟩⟩

theorem pushed_readable {log : List (NbtName × Nat × Nat)} (h : Pushed ndr log) : Readable ndr log := by
  induction h with
  | init flags => exact ⟨fun _ h => (nomatch h), fun _ _ _ h => (nomatch h)⟩
  | bytes _ hb ih =>
    have hw := writes_of_bytes hb
    obtain ⟨htokens, hnames⟩ := ih.append hw.data
    exact ⟨hw.nbtStringList ▸ htokens, hnames⟩
  | @name ndr ndr' log r _ hr hpush ih =>
    obtain ⟨labels, -, hvalid, hfull, -⟩ := hr.labels
    rw [ndrPushNbtName_eq hr.length, hfull] at hpush
    have hp := pushedString hvalid (fun tok htok _ => ih.tokens tok htok) hpush
    obtain ⟨more, hmore⟩ := hp.data
    obtain ⟨htokens, hnames⟩ := ih.append hmore
    refine ⟨fun tok htok => (hp.tokens tok htok).elim (htokens tok) id, fun r' start out hlog => ?_⟩
    rcases mem_cons.mp hlog with heq | hlog
    · obtain ⟨rfl, rfl, rfl⟩ := heq
      exact ⟨hr, hfull ▸ hp.wire⟩
    · exact hnames r' start out hlog

/-- Names that were pushed into one context, among any other bytes, are read back where they were pushed, and the offset is
left where the push left it; and as long as the context holds no more than `0x3FFF` bytes the next name can be pushed. -/
theorem pushed_names_read {ndr : NdrPush} {log : List (NbtName × Nat × Nat)} (h : Pushed ndr log) :
    (∀ r start out, (r, start, out) ∈ log →
      ndrPullNbtName ⟨ndr.flags, ndr.data, start⟩ = .ok (r, ⟨ndr.flags, ndr.data, out⟩)) ∧
    (ndr.data.length ≤ 0x3FFF → ∀ r, WireName r → ∃ ndr', ndrPushNbtName ndr r = .ok ndr') := by
  have hread := pushed_readable h
  constructor
  · intro r start out hlog
    obtain ⟨hr, hwire⟩ := hread.names r start out hlog
    exact ndrPullNbtName_wire hr hwire
  · intro hsize r hr
    obtain ⟨labels, hcount, hvalid, hfull, -⟩ := hr.labels
    rw [ndrPushNbtName_eq hr.length, hfull]
    refine ndrPushNbtString_ok hvalid (fun tok htok _ => ?_) ?_
    · obtain ⟨⟨_, hlen, -⟩, -⟩ := hread.tokens tok htok
      have := (List.getElem?_eq_some_iff.mp hlen).1
      omega
    · have := length_joinLabels_le hvalid
      rw [length_cons] at this
      unfold ndrBaseMarshallSize maxTallocSize
      omega

theorem scopedName_wireName : WireName scopedName := by
  refine ⟨by decide, by decide, by decide, fun scope hs => ⟨["ab".toList.map chr], by simp, by simp, ?_, ?_⟩⟩
  · intro l hl
    rw [mem_singleton.mp hl]
    exact ⟨by decide, by decide, by decide, by decide⟩
  · rw [← Option.some.inj hs]
    decide

/-- The same name twice: the second time there are only pointers to read. -/
theorem pushed_names_read_twice : ∃ ndr start out,
    Pushed ndr [(scopedName, start, out), (scopedName, 0, start)] ∧
      ndrPullNbtName ⟨ndr.flags, ndr.data, start⟩ = .ok (scopedName, ⟨ndr.flags, ndr.data, out⟩) := by
  have hinit := Pushed.init 0
  obtain ⟨ndr₁, hpush₁⟩ := (pushed_names_read hinit).2 (by decide) scopedName scopedName_wireName
  have hpushed₁ := hinit.name scopedName_wireName hpush₁
  have hsize : ndr₁.data.length ≤ 0x3FFF := by
    obtain ⟨labels, hcount, hvalid, hfull, -⟩ := scopedName_wireName.labels
    rw [ndrPushNbtName_eq scopedName_wireName.length, hfull] at hpush₁
    have hp := (pushedString hvalid (fun _ htok _ => absurd htok (by simp [ndrPushInitCtx])) hpush₁).size
    have hlong := length_joinLabels_le hvalid
    rw [length_cons] at hlong
    rw [ndrPushInitCtx, length_nil] at hp
    omega
  obtain ⟨ndr₂, hpush₂⟩ := (pushed_names_read hpushed₁).2 hsize scopedName scopedName_wireName
  have hpushed₂ := hpushed₁.name scopedName_wireName hpush₂
  exact ⟨ndr₂, _, _, hpushed₂, (pushed_names_read hpushed₂).1 _ _ _ mem_cons_self⟩

end Samba.Nbt
