/-
A NetBIOS name that was received, pushed again (libcli/nbt/nbtname.c). The reader takes labels with any bytes and joins them
with dots; the writer splits them again, and writes an empty label as the end of the name. So a scope comes back when all its
labels are there and short enough, and a name when it does not end in a space.
-/
import Samba.Nbt.NameWire

namespace Samba.Nbt

open CString List Ndr Option
open Samba.Wrepl (NbtName)

/-! ## What is read -/

section Received

variable {data : List UInt8}

/-- A component has no NUL, and at most 63 bytes. -/
theorem ndrPullComponent_some {rounds offset maxOffset offset' maxOffset' : Nat} {component : Text}
    (h : ndrPullComponent data rounds offset maxOffset = .ok (some component, offset', maxOffset')) :
    (0 : UInt8) ∉ component ∧ component.length ≤ 0x3F := by
  induction rounds generalizing offset maxOffset with
  | zero => cases h
  | succ rounds ih =>
    rw [ndrPullComponent] at h
    split at h
    · cases h
    · rename_i len _
      split at h
      · cases h
      · split at h
        · split at h
          · cases h
          · exact ih h
        · rename_i hptr
          split at h
          · cases h
          · rename_i hflag
            split at h
            · cases h
            · obtain ⟨hcomp, -⟩ := Prod.mk.inj (Except.ok.inj h)
              obtain rfl := Option.some.inj hcomp
              refine ⟨zero_notMem_cstr _, ?_⟩
              have hlen : len.toNat ≤ 0x3F := @forall_byte (fun c => ¬c &&& 0xC0 ≠ 0 → c.toNat ≤ 0x3F) (by decide +kernel) len hflag
              refine le_trans (List.takeWhile_prefix _).length_le ?_
              rw [length_take]
              omega

/-- The string that is read has no NUL, and is short. -/
theorem pullComponents_text {n : Nat} {name : Option Text} {offset maxOffset maxOffset' : Nat} {s : Text}
    (hname : (0 : UInt8) ∉ name.getD []) (h : pullComponents data n name offset maxOffset = .ok (s, maxOffset')) :
    (0 : UInt8) ∉ s ∧ s.length ≤ (name.getD []).length + 0x40 * n := by
  induction n generalizing name offset maxOffset with
  | zero => cases h
  | succ n ih =>
    rw [pullComponents] at h
    cases hc : ndrPullComponent data 5 offset maxOffset with
    | error e => rw [hc] at h; cases h
    | ok res =>
      obtain ⟨component, offset', maxOffset₁⟩ := res
      rw [hc] at h
      cases component with
      | none =>
        obtain ⟨rfl, -⟩ := Prod.mk.inj (Except.ok.inj h)
        exact ⟨hname, by omega⟩
      | some component =>
        obtain ⟨hnul, hlen⟩ := ndrPullComponent_some hc
        have happ : (0 : UInt8) ∉ appendComponent name component ∧
            (appendComponent name component).length ≤ (name.getD []).length + 0x40 := by
          cases name with
          | none => exact ⟨hnul, by simp only [appendComponent, getD_none, length_nil]; omega⟩
          | some name =>
            refine ⟨?_, by simp only [appendComponent, getD_some, length_append, length_cons]; omega⟩
            rw [appendComponent, mem_append, mem_cons]
            exact fun h0 => h0.elim hname fun h0 => h0.elim (fun h0 => absurd h0 (by decide)) hnul
        obtain ⟨hs, hslen⟩ := @ih (some (appendComponent name component)) _ _ happ.1 h
        rw [getD_some] at hslen
        exact ⟨hs, by have := happ.2; omega⟩

theorem length_decompressPairs {cname : Text} {bytes : List UInt8} (h : decompressPairs cname = some bytes) :
    cname.length = 2 * bytes.length := by
  induction cname using decompressPairs.induct generalizing bytes with
  | case1 =>
    obtain rfl := Option.some.inj h
    rfl
  | case2 => cases h
  | case3 c1 c2 rest hhalf =>
    rw [decompressPairs, if_pos hhalf] at h
    cases h
  | case4 c1 c2 rest hhalf ih =>
    rw [decompressPairs, if_neg hhalf] at h
    obtain ⟨bytes', hbytes, rfl⟩ := map_eq_some_iff.mp h
    rw [length_cons, length_cons, ih hbytes, length_cons]
    omega

/-- A name as it can be received. -/
structure Received (r : NbtName) : Prop where
  length : r.name.length ≤ 15
  noNul : (0 : UInt8) ∉ r.name
  scope : (0 : UInt8) ∉ r.scope.getD [] ∧ (r.scope.getD []).length ≤ 640

theorem ndrPullNbtName_received {ndr ndr' : NdrPull} {r : NbtName} (h : ndrPullNbtName ndr = .ok (r, ndr')) : Received r := by
  rw [ndrPullNbtName, ndrPullNbtString] at h
  cases hp : pullComponents ndr.data maxComponents none ndr.offset ndr.offset with
  | error e => rw [hp] at h; cases h
  | ok res =>
    obtain ⟨s, maxOffset⟩ := res
    obtain ⟨hnul, hlen⟩ := pullComponents_text (by simp) hp
    rw [hp] at h
    dsimp only [bind, Except.bind, pure, Except.pure] at h
    split at h
    · cases h
    · rename_i hshort
      split at h
      · cases h
      · rename_i name type hname
        obtain ⟨rfl, -⟩ := Prod.mk.inj (Except.ok.inj h)
        rw [decompressName] at hname
        obtain ⟨bytes, hbytes, hpair⟩ := map_eq_some_iff.mp hname
        have hcount := length_decompressPairs hbytes
        have hcut : ∀ bs : List UInt8, (0 : UInt8) ∉ cstr (trimSpaces bs) ∧ (cstr (trimSpaces bs)).length ≤ bs.length :=
          fun bs => ⟨zero_notMem_cstr _, ((List.takeWhile_prefix _).length_le).trans (List.rdropWhile_prefix _ _).length_le⟩
        have hboth : name.length ≤ 15 ∧ (0 : UInt8) ∉ name := by
          split at hpair
          · obtain ⟨rfl, -⟩ := Prod.mk.inj hpair
            refine ⟨(hcut _).2.trans ?_, (hcut _).1⟩
            rw [length_take]
            omega
          · obtain ⟨rfl, -⟩ := Prod.mk.inj hpair
            exact ⟨(hcut _).2.trans (by omega), (hcut _).1⟩
        have hnext : (0 : UInt8) ∉ nextComponents s ∧ (nextComponents s).length ≤ s.length := by
          refine ⟨fun h0 => hnul ((dropWhile_suffix _).subset (mem_of_mem_drop h0)), ?_⟩
          rw [nextComponents, length_drop]
          exact (Nat.sub_le _ _).trans (dropWhile_suffix _).length_le
        refine ⟨hboth.1, hboth.2, ?_⟩
        dsimp only
        split
        · exact ⟨hnext.1, hnext.2.trans (by simpa [maxComponents] using hlen)⟩
        · exact ⟨by simp, by simp⟩

end Received

/-! ## What is written -/

/-- The components that the writer finds in a string: a dot at its end is not followed by one. -/
def parts (s : Text) : List Text :=
  if h : s = [] then []
  else
    have := length_nextComponents h
    firstComponent s :: parts (nextComponents s)
termination_by s.length

/-- The bytes of labels. -/
def encodeLabels (ls : List Text) : List UInt8 := ls.flatMap fun l => UInt8.ofNat l.length :: l

theorem encodeLabels_cons (l : Text) (ls : List Text) :
    encodeLabels (l :: ls) = (UInt8.ofNat l.length :: l) ++ encodeLabels ls := flatMap_cons

theorem encodeLabels_append (ls ms : List Text) : encodeLabels (ls ++ ms) = encodeLabels ls ++ encodeLabels ms :=
  flatMap_append

theorem parts_nil : parts [] = [] := by rw [parts, dif_pos rfl]

theorem parts_of_ne {s : Text} (h : s ≠ []) : parts s = firstComponent s :: parts (nextComponents s) := by
  rw [parts, dif_neg h]

theorem parts_label {l s : Text} (h : chr '.' ∉ l) (hne : l ++ dotted s ≠ []) : parts (l ++ dotted s) = l :: parts s := by
  rw [parts_of_ne hne, firstComponent_append h, nextComponents_append h]

theorem parts_clean {s : Text} (h : (0 : UInt8) ∉ s) : ∀ l ∈ parts s, (0 : UInt8) ∉ l ∧ chr '.' ∉ l := by
  induction s using parts.induct with
  | case1 =>
    rw [parts_nil]
    simp
  | case2 s hs _ ih =>
    rw [parts_of_ne hs, forall_mem_cons]
    refine ⟨⟨fun h0 => h ((List.takeWhile_prefix _).subset h0), fun hdot => ?_⟩, ih fun h0 => h ?_⟩
    · simpa using mem_takeWhile_imp hdot
    · exact (dropWhile_suffix _).subset (mem_of_mem_drop h0)

theorem length_parts_step {s : Text} (h : s ≠ []) :
    (firstComponent s).length + 1 + 2 * (nextComponents s).length ≤ 2 * s.length := by
  have hpos := length_pos_of_ne_nil h
  have hsplit := congrArg List.length (@takeWhile_append_dropWhile _ (fun x : UInt8 => decide (x ≠ chr '.')) s)
  rw [length_append] at hsplit
  rw [firstComponent, nextComponents, length_drop]
  omega

/-- No suffix of the string has been written before. -/
def FreshFor (ndr : NdrPush) (s : Text) : Prop := ∀ tok ∈ ndr.nbtStringList, s.length < tok.1.length

theorem FreshFor.find {ndr : NdrPush} {s : Text} (h : FreshFor ndr s) :
    ndr.nbtStringList.find? (fun tok => strcmp tok.1 s = 0) = none := by
  rw [List.find?_eq_none]
  intro tok htok heq
  have hlen := h tok htok
  rw [strcmp_eq_zero.mp (of_decide_eq_true heq)] at hlen
  omega

theorem FreshFor.next {ndr ndr' : NdrPush} {s : Text} (h : FreshFor ndr s) (hs : s ≠ []) {offset : Nat}
    (hlist : ndr'.nbtStringList = (s, offset) :: ndr.nbtStringList) : FreshFor ndr' (nextComponents s) := by
  have hnext := length_nextComponents hs
  intro tok htok
  rw [hlist] at htok
  rcases mem_cons.mp htok with rfl | htok
  · exact hnext
  · exact hnext.trans (h tok htok)

theorem freshFor_init (flags : BitVec 32) (s : Text) : FreshFor (ndrPushInitCtx flags) s := fun _ htok => (nomatch htok)

/-- A string of which nothing has been written yet is written as its components. -/
theorem ndrPushNbtString_parts {s : Text} {ndr ndr' : NdrPush} (hfresh : FreshFor ndr s)
    (h : ndrPushNbtString ndr s = .ok ndr') :
    (∀ l ∈ parts s, l.length < 0x3F) ∧ ndr'.flags = ndr.flags ∧ ndr'.data = ndr.data ++ (encodeLabels (parts s) ++ [0]) := by
  induction s using parts.induct generalizing ndr with
  | case1 =>
    rw [ndrPushNbtString, dif_pos rfl] at h
    have hw := writes_of_bytes h
    rw [parts_nil]
    exact ⟨by simp, hw.flags, hw.data⟩
  | case2 s hs _ ih =>
    rw [ndrPushNbtString, dif_neg hs, hfresh.find] at h
    dsimp only at h
    split at h
    · cases h
    · rename_i hshort
      cases hb : ndrPushBytes { ndr with nbtStringList := (s, ndr.data.length) :: ndr.nbtStringList }
          (UInt8.ofNat (firstComponent s).length :: firstComponent s) with
      | error e => rw [hb] at h; cases h
      | ok ndr₁ =>
        rw [hb] at h
        have hw := writes_of_bytes hb
        obtain ⟨hrest, hflags, hdata⟩ := ih (hfresh.next hs hw.nbtStringList) h
        rw [parts_of_ne hs, forall_mem_cons, encodeLabels_cons]
        refine ⟨⟨by omega, hrest⟩, hflags.trans hw.flags, ?_⟩
        rw [hdata, hw.data, append_assoc, append_assoc]

theorem ndrPushNbtString_parts_ok {s : Text} {ndr : NdrPush} (hfresh : FreshFor ndr s)
    (hroom : ndr.data.length + 2 * s.length + 2 + ndrBaseMarshallSize < maxTallocSize)
    (hshort : ∀ l ∈ parts s, l.length < 0x3F) : ∃ ndr', ndrPushNbtString ndr s = .ok ndr' := by
  induction s using parts.induct generalizing ndr with
  | case1 =>
    rw [ndrPushNbtString, dif_pos rfl]
    exact ndrPushBytes_ok (by simp only [length_singleton, length_nil] at hroom ⊢; omega)
  | case2 s hs _ ih =>
    have hstep := length_parts_step hs
    rw [parts_of_ne hs, forall_mem_cons] at hshort
    rw [ndrPushNbtString, dif_neg hs, hfresh.find]
    dsimp only
    rw [if_neg (by omega)]
    obtain ⟨ndr₁, hb⟩ := @ndrPushBytes_ok { ndr with nbtStringList := (s, ndr.data.length) :: ndr.nbtStringList }
      (UInt8.ofNat (firstComponent s).length :: firstComponent s) (by simp only [length_cons]; omega)
    have hw := writes_of_bytes hb
    rw [hb]
    refine ih (hfresh.next hs hw.nbtStringList) ?_ hshort.2
    rw [hw.data, length_append, length_cons]
    dsimp only
    omega

/-! ## What is read again -/

section Again

variable {data rest : List UInt8} {offset : Nat} {l : Text} {ls : List Text}

theorem label_at (h : data.drop offset = encodeLabels (l :: ls) ++ 0 :: rest) :
    data[offset]? = some (UInt8.ofNat l.length) ∧ (data.drop (offset + 1)).take l.length = l ∧
      data.drop (offset + l.length + 1) = encodeLabels ls ++ 0 :: rest ∧ offset + l.length + 1 < data.length := by
  rw [encodeLabels_cons, append_assoc, cons_append] at h
  have htail : data.drop (offset + 1) = l ++ (encodeLabels ls ++ 0 :: rest) := by
    rw [← drop_drop, h, drop_succ_cons, drop_zero]
  have hlen := congrArg List.length htail
  simp only [length_drop, length_append, length_cons] at hlen
  refine ⟨?_, ?_, ?_, by omega⟩
  · have hget := @List.getElem?_drop _ data offset 0
    rwa [h, Nat.add_zero, List.getElem?_cons_zero, eq_comm] at hget
  · rw [htail, take_left' rfl]
  · rw [show offset + l.length + 1 = offset + 1 + l.length by omega, ← drop_drop, htail, drop_left' rfl]

theorem wire_encodeLabels (hls : ∀ l ∈ ls, ValidLabel l) (h : data.drop offset = encodeLabels ls ++ 0 :: rest) :
    Wire data offset (joinLabels ls) (offset + (encodeLabels ls).length + 1) := by
  induction ls generalizing offset with
  | nil =>
    have hget := @List.getElem?_drop _ data offset 0
    rw [h, Nat.add_zero] at hget
    exact .stop hget.symm
  | cons l ls ih =>
    rw [forall_mem_cons] at hls
    obtain ⟨hlen, htake, hnext, -⟩ := label_at h
    have hw := Wire.label hls.1 hlen htake (ih hls.2 hnext)
    rw [encodeLabels_cons, length_append, length_cons]
    rwa [show offset + (l.length + 1 + (encodeLabels ls).length) + 1 =
      offset + l.length + 1 + (encodeLabels ls).length + 1 by omega]

theorem pullComponents_many (hls : ∀ l ∈ ls, ValidLabel l) (h : data.drop offset = encodeLabels ls ++ 0 :: rest) {n : Nat}
    (hn : n ≤ ls.length) (name : Option Text) (maxOffset : Nat) :
    pullComponents data n name offset maxOffset = .error .badNetworkName := by
  induction ls generalizing offset n name maxOffset with
  | nil =>
    obtain rfl : n = 0 := Nat.le_zero.mp hn
    rfl
  | cons l ls ih =>
    rw [forall_mem_cons] at hls
    obtain ⟨hlen, htake, hnext, hroom⟩ := label_at h
    cases n with
    | zero => rfl
    | succ n =>
      rw [length_cons] at hn
      rw [pullComponents, ndrPullComponent_label hls.1 hlen htake hroom]
      exact ih hls.2 hnext (by omega) _ _

end Again

/-! ## The echo -/

/-- The name that is pushed into a fresh context, unless that fails, is read back whole. -/
def Echoes (flags : BitVec 32) (r : NbtName) : Prop :=
  ∀ ndr, ndrPushNbtName (ndrPushInitCtx flags) r = .ok ndr →
    ndrPullNbtName ⟨flags, ndr.data, 0⟩ = .ok (r, ⟨flags, ndr.data, ndr.data.length⟩)

/-- A component of the scope for which there is no length byte. -/
def HasLongPart (r : NbtName) : Prop := ∃ l ∈ parts (r.scope.getD []), 0x3F ≤ l.length

section Echo

variable {flags : BitVec 32} {r : NbtName}

theorem parts_fullname (h : r.name.length ≤ 15) :
    parts (fullname (encodedName r) r.scope) = encodedName r :: parts (r.scope.getD []) := by
  have hname := validLabel_encodedName h
  cases r.scope with
  | none =>
    have hdot : encodedName r = encodedName r ++ dotted [] := (append_nil _).symm
    rw [fullname, hdot, parts_label hname.noDot (by simp [hname.nonempty]), ← hdot]
    rfl
  | some scope =>
    have hne : encodedName r ++ chr '.' :: scope ≠ [] := by simp
    rw [fullname, parts_of_ne hne]
    have hl : ∀ c ∈ encodedName r, decide (c ≠ chr '.') = true := fun c hc => by
      simpa using fun e : c = chr '.' => hname.noDot (e ▸ hc)
    rw [firstComponent, nextComponents, takeWhile_append_of_pos hl, dropWhile_append_of_pos hl]
    simp

theorem length_fullname (h : Received r) : (fullname (encodedName r) r.scope).length ≤ 673 := by
  have hlen := length_encodedName h.length
  have hscope := h.scope.2
  cases hs : r.scope with
  | none =>
    rw [fullname]
    omega
  | some scope =>
    rw [hs, getD_some] at hscope
    rw [fullname, length_append, length_cons]
    omega

theorem echo_data {ndr : NdrPush} (h : Received r) (hpush : ndrPushNbtName (ndrPushInitCtx flags) r = .ok ndr) :
    ¬HasLongPart r ∧ ndr.data = encodeLabels (encodedName r :: parts (r.scope.getD [])) ++ [0] := by
  rw [ndrPushNbtName_eq h.length] at hpush
  obtain ⟨hshort, -, hdata⟩ := ndrPushNbtString_parts (freshFor_init flags _) hpush
  rw [parts_fullname h.length] at hshort hdata
  refine ⟨fun ⟨l, hl, hlong⟩ => ?_, hdata⟩
  have := hshort l (mem_cons_of_mem _ hl)
  omega

theorem echo_ok (h : Received r) (hshort : ¬HasLongPart r) : ∃ ndr, ndrPushNbtName (ndrPushInitCtx flags) r = .ok ndr := by
  rw [ndrPushNbtName_eq h.length]
  refine ndrPushNbtString_parts_ok (freshFor_init flags _) ?_ ?_
  · have := length_fullname h
    show 0 + _ + 2 + _ < _
    unfold ndrBaseMarshallSize maxTallocSize
    omega
  · rw [parts_fullname h.length, forall_mem_cons]
    refine ⟨(validLabel_encodedName h.length).short, fun l hl => ?_⟩
    by_contra hlong
    exact hshort ⟨l, hl, by omega⟩

/-- What is read from the labels of a name, if there are not too many of them. -/
theorem ndrPullNbtName_labels {r' : NbtName} {ndr' : NdrPull} {ls : List Text} {rest : List UInt8} (h : Received r)
    (hls : ∀ l ∈ ls, ValidLabel l)
    (hpull : ndrPullNbtName ⟨flags, encodeLabels (encodedName r :: ls) ++ 0 :: rest, 0⟩ = .ok (r', ndr')) :
    ndr'.offset = (encodeLabels (encodedName r :: ls)).length + 1 ∧ ls.length ≤ 8 ∧ r'.name = trimSpaces r.name ∧
      r'.scope = if ls = [] then none else some (joinLabels ls) := by
  have hname := validLabel_encodedName h.length
  have hlen := length_encodedName h.length
  have hvalid := forall_mem_cons.mpr ⟨hname, hls⟩
  have hdata : (encodeLabels (encodedName r :: ls) ++ 0 :: rest).drop 0 = encodeLabels (encodedName r :: ls) ++ 0 :: rest := rfl
  rw [ndrPullNbtName, ndrPullNbtString] at hpull
  dsimp only at hpull
  by_cases hcount : maxComponents ≤ (encodedName r :: ls).length
  · rw [pullComponents_many hvalid hdata hcount] at hpull
    cases hpull
  · have hcomp := components_joinLabels hvalid
    rw [pullComponents_wire (wire_encodeLabels hvalid hdata) (by omega)] at hpull
    have hne : joinLabels (encodedName r :: ls) ≠ [] := by simp [joinLabels_cons, hname.nonempty]
    rw [joined, if_neg hne] at hpull
    dsimp only [bind, Except.bind, pure, Except.pure, appendComponent] at hpull
    rw [joinLabels_cons, firstComponent_append hname.noDot, nextComponents_append hname.noDot, if_neg (by omega),
      show decompressName (encodedName r) = _ from decompressName_compressed h.length h.noNul r.type] at hpull
    obtain ⟨rfl, rfl⟩ := Prod.mk.inj (Except.ok.inj hpull)
    rw [length_cons, maxComponents] at hcount
    refine ⟨by dsimp only; omega, by omega, rfl, ?_⟩
    dsimp only
    cases ls with
    | nil => rw [joinLabels, dotted, if_pos rfl, append_nil, if_neg hname.noDot, if_pos rfl]
    | cons l ls =>
      have hjoin : joinLabels (l :: ls) ≠ [] := by simp [joinLabels_cons, (hls l mem_cons_self).nonempty]
      rw [dotted, if_neg hjoin, if_pos (by simp), if_neg (cons_ne_nil _ _)]

theorem WireName.echoes (h : WireName r) : Echoes flags r := by
  intro ndr hpush
  obtain ⟨labels, -, hvalid, hfull, -⟩ := h.labels
  rw [ndrPushNbtName_eq h.length, hfull] at hpush
  have hp := pushedString hvalid (fun _ htok => absurd htok not_mem_nil) hpush
  exact ndrPullNbtName_wire h (hfull ▸ hp.wire)

/-- A name that comes back was well formed: an empty component would have ended the reading, and the name is read without
spaces at its end. -/
theorem Echoes.wireName (h : Received r) (hshort : ¬HasLongPart r) (hecho : Echoes flags r) : WireName r := by
  obtain ⟨ndr, hpush⟩ := @echo_ok flags r h hshort
  have hpull := hecho ndr hpush
  rw [(echo_data h hpush).2] at hpull
  have hpart : ∀ l ∈ parts (r.scope.getD []), l ≠ [] → ValidLabel l := fun l hl hne =>
    ⟨hne, by by_contra hlong; exact hshort ⟨l, hl, by omega⟩, (parts_clean h.scope.1 l hl).2, (parts_clean h.scope.1 l hl).1⟩
  by_cases hempty : [] ∈ parts (r.scope.getD [])
  · -- the zero that stands for the empty component is not the last byte
    obtain ⟨before, after, hsplit, hbefore⟩ := eq_append_cons_of_mem hempty
    have hdata : encodeLabels (encodedName r :: parts (r.scope.getD [])) ++ [0] =
        encodeLabels (encodedName r :: before) ++ 0 :: (encodeLabels after ++ [0]) := by
      rw [hsplit, ← cons_append, encodeLabels_append, encodeLabels_cons, append_assoc]
      rfl
    rw [hdata] at hpull
    obtain ⟨hoffset, -⟩ := ndrPullNbtName_labels h (fun l hl => hpart l (by rw [hsplit]; exact mem_append_left _ hl)
      fun hnil => hbefore (hnil ▸ hl)) hpull
    simp only [length_append, length_cons] at hoffset
    omega
  · have hvalid : ∀ l ∈ parts (r.scope.getD []), ValidLabel l := fun l hl => hpart l hl fun hnil => hempty (hnil ▸ hl)
    obtain ⟨-, hcount, hname, hscope⟩ := ndrPullNbtName_labels h hvalid hpull
    refine ⟨h.length, h.noNul, trimSpaces_eq_self.mp hname.symm, fun scope hs => ?_⟩
    rw [hs] at hscope hcount hvalid
    split at hscope
    · cases hscope
    · rename_i hne
      exact ⟨_, hne, hcount, hvalid, Option.some.inj hscope⟩

theorem Received.echoes_iff (h : Received r) : Echoes flags r ↔ HasLongPart r ∨ WireName r := by
  constructor
  · intro hecho
    by_cases hshort : HasLongPart r
    · exact .inl hshort
    · exact .inr (hecho.wireName h hshort)
  · rintro (hlong | hwire)
    · exact fun ndr hpush => absurd hlong (echo_data h hpush).1
    · exact hwire.echoes

/-- A name that was received can be echoed exactly when the writer rejects one of its labels, or it does not end in a space
and its scope consists of at most eight labels, none of them empty. -/
theorem received_echoes_iff {ndr ndr' : NdrPull} (h : ndrPullNbtName ndr = .ok (r, ndr')) :
    Echoes flags r ↔ HasLongPart r ∨ WireName r :=
  (ndrPullNbtName_received h).echoes_iff

end Echo

/-- The name `A` with a scope. -/
def packet (scope : List UInt8) : NdrPull := ⟨0, [2, chr 'E', chr 'B', UInt8.ofNat scope.length] ++ scope ++ [0, 0], 0⟩

theorem scopedPacket_echoes : Echoes 0 ⟨[chr 'A'], some [chr 'x', chr '.', chr 'y'], 0⟩ := by
  refine (@received_echoes_iff 0 _ (packet [chr 'x', chr '.', chr 'y']) ⟨0, (packet [chr 'x', chr '.', chr 'y']).data, 8⟩
    (by decide)).mpr (.inr ⟨by decide, by decide, by decide, fun scope hs => ?_⟩)
  obtain rfl := Option.some.inj hs
  refine ⟨[[chr 'x'], [chr 'y']], by simp, by simp, fun l hl => ?_, by decide⟩
  rcases mem_cons.mp hl with rfl | hl
  · exact ⟨by decide, by decide, by decide, by decide⟩
  · rw [mem_singleton.mp hl]
    exact ⟨by decide, by decide, by decide, by decide⟩

/-- A label that is a single dot is a scope whose only component is empty. -/
theorem dotLabel_not_echoed : ∃ r ndr', ndrPullNbtName (packet [chr '.']) = .ok (r, ndr') ∧ ¬Echoes 0 r := by
  refine ⟨⟨[chr 'A'], some [chr '.'], 0⟩, ⟨0, (packet [chr '.']).data, 6⟩, by decide, fun hecho => ?_⟩
  have hreceived : Received ⟨[chr 'A'], some [chr '.'], 0⟩ := ⟨by decide, by decide, by decide⟩
  have hparts : parts [chr '.'] = [[]] := by
    rw [parts_of_ne (by decide), show nextComponents [chr '.'] = [] from rfl, parts_nil]
    rfl
  rcases hreceived.echoes_iff.mp hecho with ⟨l, hl, hlong⟩ | hwire
  · rw [getD_some, hparts, mem_singleton] at hl
    subst hl
    exact absurd hlong (by decide)
  · obtain ⟨labels, hne, -, hvalid, hjoin⟩ := hwire.scope _ rfl
    obtain ⟨l, ls, rfl⟩ := exists_cons_of_ne_nil hne
    have hl := hvalid l mem_cons_self
    obtain ⟨c, l, rfl⟩ := exists_cons_of_ne_nil hl.nonempty
    rw [joinLabels_cons, cons_append] at hjoin
    obtain ⟨rfl, -⟩ := List.cons.inj hjoin
    exact hl.noDot mem_cons_self

end Samba.Nbt
