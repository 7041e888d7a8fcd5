/-
Object identifiers in the basic encoding rules (libcli/util/asn1.c): `ber_write_OID_String` and `ber_read_OID_String`. Memory
allocation does not fail, and an index into a block does not overflow.
-/
import Samba.Lib.CNumber
import Mathlib.Data.List.Induction

namespace Samba.Libcli

open CString List

/-! ## Writing -/

/-- How `ber_write_OID_String` ends without a blob: it refuses the string, or it stores behind the end of the blob. -/
inductive OidStop
  | refused | outside
  deriving DecidableEq, Repr

/-- The bytes of an arc. -/
def arcBytes (v : UInt32) : List UInt8 :=
  (if v ≥ (1 : UInt32) <<< 28 then [((0x80 : UInt32) ||| ((v >>> 28) &&& 0x7f)).toUInt8] else []) ++
  (if v ≥ (1 : UInt32) <<< 21 then [((0x80 : UInt32) ||| ((v >>> 21) &&& 0x7f)).toUInt8] else []) ++
  (if v ≥ (1 : UInt32) <<< 14 then [((0x80 : UInt32) ||| ((v >>> 14) &&& 0x7f)).toUInt8] else []) ++
  (if v ≥ (1 : UInt32) <<< 7 then [((0x80 : UInt32) ||| ((v >>> 7) &&& 0x7f)).toUInt8] else []) ++
  [(v &&& 0x7f).toUInt8]

/-- Bytes stored one after the other from the index `i` on. -/
def storeBytes (blob : List UInt8) (i : Nat) (bs : List UInt8) : Except OidStop (List UInt8) :=
  if i + bs.length ≤ blob.length then .ok (blob.take i ++ bs ++ blob.drop (i + bs.length)) else .error .outside

/-- What is behind the number and the dot at the start of a string. -/
def behindDot (p : Text) : Option Text :=
  match (strtoul 10 p).2 with
  | c :: q => if c = chr '.' then some q else none
  | [] => none

variable {oid p q : Text}

theorem behindDot_lt (h : behindDot p = some q) : q.length < p.length := by
  have hsuffix := (strtoul_suffix 10 p).length_le
  rw [behindDot] at h
  split at h
  · next c q' hnewp =>
    split at h
    · obtain rfl := Option.some.inj h
      rw [hnewp, length_cons] at hsuffix
      omega
    · cases h
  · cases h

/-- The loop of `ber_write_OID_String` over the arcs behind the first two. -/
def writeArcs (p : Text) (blob : List UInt8) (i : Nat) : Except OidStop (List UInt8) :=
  if p = [] then .ok (blob.take i)
  else
    let v := UInt32.ofNat (strtoul 10 p).1
    match _hnewp : behindDot p with
    | some q => do
      let blob ← storeBytes blob i (arcBytes v)
      writeArcs q blob (i + (arcBytes v).length)
    | none =>
      if (strtoul 10 p).2 = [] then do
        let blob ← storeBytes blob i (arcBytes v)
        return blob.take (i + (arcBytes v).length)
      else .error .refused
termination_by p.length
decreasing_by exact behindDot_lt _hnewp

/-- `ber_write_OID_String`. -/
def berWriteOidString (oid : Text) : Except OidStop (List UInt8) :=
  match behindDot oid with
  | none => .error .refused
  | some p =>
    match behindDot p with
    | none => .error .refused
    | some q => do
      let v := UInt32.ofNat (strtoul 10 oid).1
      let v2 := UInt32.ofNat (strtoul 10 p).1
      -- the ber representation can't use more space than the string one
      let blob ← storeBytes (List.replicate oid.length 0) 0 [(40 * v + v2).toUInt8]
      writeArcs q blob 1

/-! ## Reading -/

/-- The value of an arc, with one more byte. -/
def pushSeptet (v : UInt32) (b : UInt8) : UInt32 := (v <<< 7) ||| (b &&& 0x7f).toUInt32

/-- The loop of `ber_read_OID_String`: what is printed, and the value of an arc that is not ended. -/
def readArcs : List UInt8 → UInt32 → Text × UInt32
  | [], v => ([], v)
  | b :: bs, v =>
    if b &&& 0x80 = 0 then
      let (text, rest) := readArcs bs 0
      (chr '.' :: padded 0 (pushSeptet v b).toNat ++ text, rest)
    else readArcs bs (pushSeptet v b)

/-- `ber_read_OID_String`. -/
def berReadOidString : List UInt8 → Option Text
  | b :: c :: bs =>
    let (text, v) := readArcs (c :: bs) 0
    if v ≠ 0 then none else some (padded 0 (b / 40).toNat ++ chr '.' :: padded 0 (b % 40).toNat ++ text)
  | _ => none

/-! ## The arcs of a string -/

/-- The arcs that are read from a string, each modulo `2 ^ 32`, and whether these are the whole string. -/
def arcsOf (p : Text) : List UInt32 × Bool :=
  if p = [] then ([], true)
  else
    let v := UInt32.ofNat (strtoul 10 p).1
    match _hnewp : behindDot p with
    | some q => (v :: (arcsOf q).1, (arcsOf q).2)
    | none => if (strtoul 10 p).2 = [] then ([v], true) else ([], false)
termination_by p.length
decreasing_by all_goals exact behindDot_lt _hnewp

theorem arcsOf_nil : arcsOf [] = ([], true) := by
  rw [arcsOf, if_pos rfl]

theorem arcsOf_dot (hne : p ≠ []) (h : behindDot p = some q) :
    arcsOf p = (UInt32.ofNat (strtoul 10 p).1 :: (arcsOf q).1, (arcsOf q).2) := by
  rw [arcsOf, if_neg hne]
  dsimp only
  split
  · next q' hq' =>
    obtain rfl := Option.some.inj (h.symm.trans hq')
    rfl
  · next hq' => cases h.symm.trans hq'

theorem arcsOf_last (hne : p ≠ []) (h : (strtoul 10 p).2 = []) :
    arcsOf p = ([UInt32.ofNat (strtoul 10 p).1], true) := by
  have hdot : behindDot p = none := by rw [behindDot, h]
  rw [arcsOf, if_neg hne]
  dsimp only
  split
  · next q' hq' => cases hdot.symm.trans hq'
  · rw [if_pos h]

theorem arcsOf_other (hne : p ≠ []) (hdot : behindDot p = none) (h : (strtoul 10 p).2 ≠ []) :
    arcsOf p = ([], false) := by
  rw [arcsOf, if_neg hne]
  dsimp only
  split
  · next q' hq' => cases hdot.symm.trans hq'
  · rw [if_neg h]

/-- The bytes that a string asks for behind the first one. -/
def arcsBytes (p : Text) : List UInt8 := (arcsOf p).1.flatMap arcBytes

theorem storeBytes_of_le {blob bs : List UInt8} {i : Nat} (h : i + bs.length ≤ blob.length) :
    storeBytes blob i bs = .ok (blob.take i ++ bs ++ blob.drop (i + bs.length)) := if_pos h

theorem storeBytes_of_lt {blob bs : List UInt8} {i : Nat} (h : ¬i + bs.length ≤ blob.length) :
    storeBytes blob i bs = .error .outside := if_neg h

/-- The bytes of the arcs are stored one after the other, up to what is no arc, as long as there is room. -/
theorem writeArcs_eq (p : Text) (blob : List UInt8) (i : Nat) (hi : i ≤ blob.length) :
    writeArcs p blob i =
      if i + (arcsBytes p).length ≤ blob.length then
        if (arcsOf p).2 = true then .ok (blob.take i ++ arcsBytes p) else .error .refused
      else .error .outside := by
  rw [writeArcs]
  by_cases hne : p = []
  · subst hne
    rw [if_pos rfl, arcsBytes, arcsOf_nil]
    simp [hi]
  rw [if_neg hne]
  dsimp only
  -- one arc is stored, and it is in front of the others
  have hstore : ∀ (bs : List UInt8), i + bs.length ≤ blob.length →
      (blob.take i ++ bs ++ blob.drop (i + bs.length)).length = blob.length ∧
      (blob.take i ++ bs ++ blob.drop (i + bs.length)).take (i + bs.length) = blob.take i ++ bs := by
    intro bs hbs
    have hfront : (blob.take i ++ bs).length = i + bs.length := by
      rw [length_append, length_take, Nat.min_eq_left hi]
    refine ⟨?_, ?_⟩
    · rw [length_append, hfront, length_drop]
      omega
    · rw [← hfront, take_left]
  split
  · next q hq =>
    have hbytes : arcsBytes p = arcBytes (UInt32.ofNat (strtoul 10 p).1) ++ arcsBytes q := by
      rw [arcsBytes, arcsOf_dot hne hq, flatMap_cons, ← arcsBytes]
    have hwhole : (arcsOf p).2 = (arcsOf q).2 := by rw [arcsOf_dot hne hq]
    rw [hbytes, hwhole, length_append]
    generalize arcBytes (UInt32.ofNat (strtoul 10 p).1) = bs
    by_cases hfit : i + bs.length ≤ blob.length
    · obtain ⟨hlen, htake⟩ := hstore bs hfit
      rw [storeBytes_of_le hfit]
      refine (writeArcs_eq q _ _ (by rw [hlen]; exact hfit)).trans ?_
      rw [hlen, htake, Nat.add_assoc, append_assoc]
    · rw [storeBytes_of_lt hfit, if_neg (by omega)]
      rfl
  · next hdot =>
    by_cases hend : (strtoul 10 p).2 = []
    · rw [if_pos hend, arcsBytes, arcsOf_last hne hend, flatMap_singleton]
      generalize arcBytes (UInt32.ofNat (strtoul 10 p).1) = bs
      rw [if_pos (rfl : true = true)]
      by_cases hfit : i + bs.length ≤ blob.length
      · rw [storeBytes_of_le hfit, if_pos hfit]
        exact congrArg Except.ok (hstore bs hfit).2
      · rw [storeBytes_of_lt hfit, if_neg hfit]
        rfl
    · rw [if_neg hend, arcsBytes, arcsOf_other hne hdot hend, flatMap_nil, length_nil, if_pos (by omega),
        if_neg Bool.false_ne_true]
termination_by p.length
decreasing_by exact behindDot_lt ‹_›

/-! ## Where the bytes are stored -/

/-- An arc of `7 * k` bits has at most `k` bytes. -/
theorem length_arcBytes_le {v : UInt32} {k : Nat} (hk : 0 < k) (h : v.toNat < 128 ^ k) : (arcBytes v).length ≤ k := by
  have hpow : (k ≤ 1 → 128 ^ k ≤ 2 ^ 7) ∧ (k ≤ 2 → 128 ^ k ≤ 2 ^ 14) ∧ (k ≤ 3 → 128 ^ k ≤ 2 ^ 21) ∧
      (k ≤ 4 → 128 ^ k ≤ 2 ^ 28) :=
    ⟨fun h => Nat.pow_le_pow_right (n := 128) (by decide) h, fun h => Nat.pow_le_pow_right (n := 128) (by decide) h,
      fun h => Nat.pow_le_pow_right (n := 128) (by decide) h, fun h => Nat.pow_le_pow_right (n := 128) (by decide) h⟩
  have hge (j : UInt32) : v ≥ (1 : UInt32) <<< j ↔ ((1 : UInt32) <<< j).toNat ≤ v.toNat := UInt32.le_iff_toNat_le
  have h7 : ((1 : UInt32) <<< 7).toNat = 2 ^ 7 := rfl
  have h14 : ((1 : UInt32) <<< 14).toNat = 2 ^ 14 := rfl
  have h21 : ((1 : UInt32) <<< 21).toNat = 2 ^ 21 := rfl
  have h28 : ((1 : UInt32) <<< 28).toNat = 2 ^ 28 := rfl
  have hlen (c : Prop) [Decidable c] (b : UInt8) : (if c then [b] else []).length = if c then 1 else 0 := by split <;> rfl
  simp only [arcBytes, length_append, length_singleton, hlen, hge, h7, h14, h21, h28]
  split_ifs <;> omega

/-- Without a minus sign, an arc has no more bytes than characters, unless it is empty. -/
theorem length_arc_le (hminus : chr '-' ∉ p) :
    (arcBytes (UInt32.ofNat (strtoul 10 p).1)).length ≤ max 1 (p.length - (strtoul 10 p).2.length) := by
  have hone : (arcBytes (UInt32.ofNat 0)).length = 1 := rfl
  rw [strtoul]
  cases hscan : scanBase 10 p with
  | none => exact Nat.le_trans (Nat.le_of_eq hone) (Nat.le_max_left _ _)
  | some result =>
    obtain ⟨neg, n, rest⟩ := result
    obtain ⟨space, sign, ds, rfl, hnumber, -, rfl⟩ := scanBase_eq_some hscan
    have hneg : neg = false := by
      rcases hnumber.sign with ⟨-, h⟩ | ⟨-, h⟩ | ⟨rfl, -⟩
      · exact h
      · exact h
      · exact absurd (by simp) hminus
    have hpos := length_pos_iff.mpr hnumber.ne
    have hlt := digitsValue_lt hnumber.digits 0
    rw [Nat.zero_add, Nat.one_mul] at hlt
    dsimp only
    refine Nat.le_trans (length_arcBytes_le hpos ?_) (Nat.le_trans ?_ (Nat.le_max_right _ _))
    · have hpow : 10 ^ ds.length ≤ 128 ^ ds.length := Nat.pow_le_pow_left (by decide) _
      rw [UInt32.toNat_ofNat', hneg]
      split
      · next hlarge =>
        -- a number that is saturated has more than five digits
        have hlong : 5 ≤ ds.length := by
          by_contra hshort
          have : (10 : Nat) ^ ds.length ≤ 10 ^ 5 := Nat.pow_le_pow_right (by decide) (by omega)
          omega
        have : (128 : Nat) ^ 5 ≤ 128 ^ ds.length := Nat.pow_le_pow_right (by decide) hlong
        omega
      · rw [if_neg Bool.false_ne_true]
        have := Nat.mod_le (digitsValue 10 0 ds) (2 ^ 32)
        omega
    · simp only [length_append]
      omega

theorem length_arcsBytes_le (p : Text) (hminus : chr '-' ∉ p) : (arcsBytes p).length ≤ p.length := by
  have harc := length_arc_le hminus
  by_cases hne : p = []
  · subst hne
    rw [arcsBytes, arcsOf_nil]
    exact Nat.le_refl _
  have hpos := length_pos_iff.mpr hne
  cases hdot : behindDot p with
  | some q =>
    have hlt := behindDot_lt hdot
    obtain ⟨newp, hnewp⟩ : ∃ newp, (strtoul 10 p).2 = newp := ⟨_, rfl⟩
    have hsuffix := strtoul_suffix 10 p
    have hq : newp = chr '.' :: q := by
      rw [behindDot, hnewp] at hdot
      match newp with
      | [] => cases hdot
      | c :: q' =>
        dsimp only at hdot
        split at hdot
        · next hc => rw [hc, Option.some.inj hdot]
        · cases hdot
    rw [hnewp, hq] at hsuffix harc
    have hrest := length_arcsBytes_le q fun hmem => hminus (hsuffix.subset (mem_cons_of_mem _ hmem))
    rw [arcsBytes, arcsOf_dot hne hdot, flatMap_cons, ← arcsBytes, length_append]
    rw [length_cons] at harc
    omega
  | none =>
    by_cases hend : (strtoul 10 p).2 = []
    · rw [hend, length_nil] at harc
      rw [arcsBytes, arcsOf_last hne hend, flatMap_singleton]
      omega
    · rw [arcsBytes, arcsOf_other hne hdot hend]
      exact Nat.zero_le _
termination_by p.length
decreasing_by exact behindDot_lt ‹_›

/-- The text behind the first two arcs of an OID. -/
def oidArcs (oid : Text) : Option Text := (behindDot oid).bind behindDot

/-- `ber_write_OID_String` makes no store behind the end of its blob. -/
def StoresInside (oid : Text) : Prop := berWriteOidString oid ≠ .error .outside

theorem oidArcs_lt (h : oidArcs oid = some q) : q.length + 2 ≤ oid.length := by
  obtain ⟨p, hp, hq⟩ := Option.bind_eq_some_iff.mp h
  have := behindDot_lt hp
  have := behindDot_lt hq
  omega

/-- The first byte of an OID. -/
def oidFirst (oid : Text) : UInt8 :=
  (40 * UInt32.ofNat (strtoul 10 oid).1 + UInt32.ofNat (strtoul 10 ((behindDot oid).getD [])).1).toUInt8

theorem berWriteOidString_none (h : oidArcs oid = none) : berWriteOidString oid = .error .refused := by
  rw [berWriteOidString]
  cases hp : behindDot oid with
  | none => rfl
  | some p =>
    rw [oidArcs, hp, Option.bind_some] at h
    dsimp only
    rw [h]

theorem berWriteOidString_some (h : oidArcs oid = some q) : berWriteOidString oid =
      if 1 + (arcsBytes q).length ≤ oid.length then
        if (arcsOf q).2 = true then .ok (oidFirst oid :: arcsBytes q) else .error .refused
      else .error .outside := by
  have hlen := oidArcs_lt h
  obtain ⟨p, hp, hq⟩ := Option.bind_eq_some_iff.mp h
  have hfirst : oidFirst oid = (40 * UInt32.ofNat (strtoul 10 oid).1 + UInt32.ofNat (strtoul 10 p).1).toUInt8 := by
    rw [oidFirst, hp, Option.getD_some]
  have hstore : storeBytes (List.replicate oid.length 0) 0 [oidFirst oid] =
      .ok (oidFirst oid :: List.replicate (oid.length - 1) 0) := by
    rw [storeBytes_of_le (by rw [length_replicate, length_singleton]; omega)]
    simp
  rw [berWriteOidString, hp]
  dsimp only
  rw [hq]
  dsimp only
  rw [← hfirst, hstore]
  refine (writeArcs_eq q _ 1 (by simp)).trans ?_
  rw [length_cons, length_replicate, Nat.sub_add_cancel (by omega)]
  rfl

theorem storesInside_iff_length (oid : Text) :
    StoresInside oid ↔ ∀ q, oidArcs oid = some q → 1 + (arcsBytes q).length ≤ oid.length := by
  cases h : oidArcs oid with
  | none =>
    refine iff_of_true ?_ (by simp)
    rw [StoresInside, berWriteOidString_none h]
    simp
  | some q =>
    rw [StoresInside, berWriteOidString_some h]
    simp only [Option.some.injEq, forall_eq']
    split
    · next hfit =>
      refine iff_of_true ?_ hfit
      split <;> simp
    · next hfit => exact iff_of_false (by simp) hfit

theorem behindDot_suffix (h : behindDot p = some q) : q <:+ p := by
  have hsuffix := strtoul_suffix 10 p
  rw [behindDot] at h
  split at h
  · next c q' hnewp =>
    split at h
    · obtain rfl := Option.some.inj h
      exact (suffix_cons c _).trans (hnewp ▸ hsuffix)
    · cases h
  · cases h

theorem storesInside_of_notMem (hminus : chr '-' ∉ oid) : StoresInside oid := by
  refine (storesInside_iff_length oid).mpr fun q h => ?_
  obtain ⟨p, hp, hq⟩ := Option.bind_eq_some_iff.mp h
  have := length_arcsBytes_le q fun hmem => hminus ((behindDot_suffix hp).subset ((behindDot_suffix hq).subset hmem))
  have := oidArcs_lt h
  omega

/-- The stores stay in the blob exactly when the arcs behind the first two have fewer bytes than the whole string has characters;
so it is for every string without a minus sign. -/
theorem storesInside_iff (oid : Text) :
    (StoresInside oid ↔ ∀ q, oidArcs oid = some q → 1 + (arcsBytes q).length ≤ oid.length) ∧
      (chr '-' ∉ oid → StoresInside oid) :=
  ⟨storesInside_iff_length oid, storesInside_of_notMem⟩

/-- Two arcs of minus one need ten bytes. -/
theorem minusArcs_outside : ¬StoresInside ("1.2.-1.-1".toList.map chr) := by
  rw [storesInside_iff_length]
  intro h
  have harcs : oidArcs ("1.2.-1.-1".toList.map chr) = some ("-1.-1".toList.map chr) := by decide
  have hlen := h _ harcs
  have hdot : behindDot ("-1.-1".toList.map chr) = some ("-1".toList.map chr) := by decide
  rw [arcsBytes, arcsOf_dot (by decide) hdot, arcsOf_last (by decide) (by decide)] at hlen
  exact absurd hlen (by decide)

end Samba.Libcli
