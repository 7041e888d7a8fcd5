/-
Reading the object identifiers that were written, and which blobs give the same string (libcli/util/asn1.c).
-/
import Samba.Libcli.Asn1Oid

namespace Samba.Libcli

open CString List

/-! ## Septets -/

theorem toNat_pushSeptet (v : UInt32) (b : UInt8) : (pushSeptet v b).toNat = (v.toNat * 128 + b.toNat % 128) % 2 ^ 32 := by
  have hlow : (b &&& 0x7f).toUInt32.toNat = b.toNat % 128 := by
    rw [UInt8.toNat_toUInt32, UInt8.toNat_and]
    exact Nat.and_two_pow_sub_one_eq_mod b.toNat 7
  have hhigh : (v <<< 7).toNat = 2 ^ 7 * (v.toNat % 2 ^ 25) := by
    have hshift : (v <<< 7).toNat = v.toNat <<< 7 % 2 ^ 32 := UInt32.toNat_shiftLeft v 7
    rw [hshift, Nat.shiftLeft_eq]
    omega
  have hlt : b.toNat % 128 < 2 ^ 7 := Nat.mod_lt _ (by decide)
  rw [pushSeptet, UInt32.toNat_or, hlow, hhigh, ← Nat.two_pow_add_eq_or_of_lt hlt]
  omega

theorem toNat_septetByte (v k : UInt32) (hk : k.toNat < 32) :
    ((0x80 : UInt32) ||| ((v >>> k) &&& 0x7f)).toUInt8.toNat = 128 + v.toNat / 2 ^ k.toNat % 128 := by
  have hseptet : ((v >>> k) &&& 0x7f).toNat = v.toNat / 2 ^ k.toNat % 128 := by
    rw [UInt32.toNat_and, UInt32.toNat_shiftRight, Nat.mod_eq_of_lt hk, Nat.shiftRight_eq_div_pow]
    exact Nat.and_two_pow_sub_one_eq_mod _ 7
  have hlt : v.toNat / 2 ^ k.toNat % 128 < 2 ^ 7 := Nat.mod_lt _ (by decide)
  have hor := Nat.two_pow_add_eq_or_of_lt hlt 1
  have htag : (0x80 : UInt32).toNat = 2 ^ 7 * 1 := rfl
  rw [UInt32.toNat_toUInt8, UInt32.toNat_or, hseptet, htag, ← hor]
  omega

theorem toNat_lastByte (v : UInt32) : (v &&& 0x7f).toUInt8.toNat = v.toNat % 128 := by
  have hseptet : (v &&& 0x7f).toNat = v.toNat % 128 := by
    rw [UInt32.toNat_and]
    exact Nat.and_two_pow_sub_one_eq_mod _ 7
  rw [UInt32.toNat_toUInt8, hseptet]
  omega

theorem and_continuation_iff (b : UInt8) : b &&& 0x80 = 0 ↔ b.toNat < 128 := by
  revert b
  exact forall_byte (by decide +kernel)

/-! ## Groups of bytes -/

/-- The bytes of the arcs, each up to a byte without the continuation bit, and the bytes behind the last such byte. -/
def splitArcs : List UInt8 → List (List UInt8) × List UInt8
  | [] => ([], [])
  | b :: bs =>
    if b.toNat < 128 then ([b] :: (splitArcs bs).1, (splitArcs bs).2)
    else
      match splitArcs bs with
      | (arc :: arcs, rest) => ((b :: arc) :: arcs, rest)
      | ([], rest) => ([], b :: rest)

/-- The number that the septets of an arc are, behind the septets of `acc`. -/
def septets (acc : Nat) (bs : List UInt8) : Nat := bs.foldl (fun n b => n * 128 + b.toNat % 128) acc

/-- The arcs of the bytes behind the first one, as they are read: modulo `2 ^ 32`. -/
def arcValues (bs : List UInt8) : List UInt32 := (splitArcs bs).1.map fun arc => UInt32.ofNat (septets 0 arc)

/-- The arcs as they are printed. -/
def arcsText (arcs : List UInt32) : Text := arcs.flatMap fun v => chr '.' :: padded 0 v.toNat

/-- An object identifier in canonical decimals. -/
def oidText (a0 a1 : Nat) (arcs : List UInt32) : Text := padded 0 a0 ++ chr '.' :: padded 0 a1 ++ arcsText arcs

theorem splitArcs_of_lt {b : UInt8} (bs : List UInt8) (h : b.toNat < 128) :
    splitArcs (b :: bs) = ([b] :: (splitArcs bs).1, (splitArcs bs).2) := by
  rw [splitArcs, if_pos h]

theorem splitArcs_of_le {b : UInt8} (bs : List UInt8) (h : ¬b.toNat < 128) :
    splitArcs (b :: bs) =
      match splitArcs bs with
      | (arc :: arcs, rest) => ((b :: arc) :: arcs, rest)
      | ([], rest) => ([], b :: rest) := by
  rw [splitArcs, if_neg h]

theorem septets_cons (acc : Nat) (b : UInt8) (bs : List UInt8) :
    septets acc (b :: bs) = septets (acc * 128 + b.toNat % 128) bs := rfl

theorem septets_mod (acc : Nat) (bs : List UInt8) : septets (acc % 2 ^ 32) bs % 2 ^ 32 = septets acc bs % 2 ^ 32 := by
  induction bs generalizing acc with
  | nil => exact Nat.mod_mod _ _
  | cons b bs ih =>
    have hstep : (acc % 2 ^ 32 * 128 + b.toNat % 128) % 2 ^ 32 = (acc * 128 + b.toNat % 128) % 2 ^ 32 := by omega
    rw [septets_cons, septets_cons, ← ih, hstep, ih]

/-- With one more byte in front of it, an arc that was begun is the arc that begins with that byte. -/
theorem septets_pushSeptet (v : UInt32) (b : UInt8) (bs : List UInt8) :
    UInt32.ofNat (septets (pushSeptet v b).toNat bs) = UInt32.ofNat (septets v.toNat (b :: bs)) := by
  apply UInt32.toNat_inj.mp
  rw [UInt32.toNat_ofNat', UInt32.toNat_ofNat', toNat_pushSeptet, septets_mod, septets_cons]

/-- What the loop prints, and what it keeps: the first arc is the one that was begun before. -/
theorem readArcs_eq (bs : List UInt8) (v : UInt32) :
    readArcs bs v =
      match splitArcs bs with
      | (arc :: arcs, rest) =>
        (arcsText (UInt32.ofNat (septets v.toNat arc) :: arcs.map fun arc => UInt32.ofNat (septets 0 arc)),
          UInt32.ofNat (septets 0 rest))
      | ([], rest) => ([], UInt32.ofNat (septets v.toNat rest)) := by
  induction bs generalizing v with
  | nil =>
    rw [readArcs, splitArcs]
    simp [septets]
  | cons b bs ih =>
    rw [readArcs]
    by_cases hb : b.toNat < 128
    · rw [if_pos ((and_continuation_iff b).mpr hb), splitArcs_of_lt bs hb, ih 0]
      have hone : UInt32.ofNat (septets v.toNat [b]) = pushSeptet v b := by
        rw [← septets_pushSeptet]
        simp [septets]
      rcases hsplit : splitArcs bs with ⟨_ | ⟨arc, arcs⟩, rest⟩ <;> dsimp only <;>
        simp only [hone, arcsText, flatMap_cons, map_cons, map_nil, flatMap_nil, append_nil,
          cons_append, UInt32.toNat_zero]
    · rw [if_neg fun h => hb ((and_continuation_iff b).mp h), splitArcs_of_le bs hb, ih]
      rcases splitArcs bs with ⟨_ | ⟨arc, arcs⟩, rest⟩ <;> dsimp only <;> rw [septets_pushSeptet]

/-- A blob is accepted exactly when what stands behind its last ended arc has the value zero modulo `2 ^ 32`. -/
theorem berReadOidString_eq (b : UInt8) {bs : List UInt8} (hne : bs ≠ []) :
    berReadOidString (b :: bs) =
      if UInt32.ofNat (septets 0 (splitArcs bs).2) = 0 then some (oidText (b / 40).toNat (b % 40).toNat (arcValues bs))
      else none := by
  obtain ⟨c, bs, rfl⟩ := exists_cons_of_ne_nil hne
  rw [berReadOidString, readArcs_eq, arcValues, oidText]
  generalize splitArcs (c :: bs) = split
  obtain ⟨_ | ⟨arc, arcs⟩, rest⟩ := split <;> dsimp only <;> rw [ite_not] <;> rfl

/-! ## What was written is read -/

theorem splitArcs_arc {front : List UInt8} {last : UInt8} (rest : List UInt8) (hfront : ∀ b ∈ front, ¬b.toNat < 128)
    (hlast : last.toNat < 128) :
    splitArcs (front ++ last :: rest) = ((front ++ [last]) :: (splitArcs rest).1, (splitArcs rest).2) := by
  induction front with
  | nil => exact splitArcs_of_lt rest hlast
  | cons b front ih =>
    rw [cons_append, splitArcs_of_le _ (hfront b mem_cons_self),
      ih fun c hc => hfront c (mem_cons_of_mem _ hc)]
    rfl

/-- The bytes of an arc: all but the last one have the continuation bit, and their septets are the arc. -/
theorem arcBytes_split (v : UInt32) :
    ∃ front last, arcBytes v = front ++ [last] ∧ (∀ b ∈ front, ¬b.toNat < 128) ∧ last.toNat < 128 ∧
      septets 0 (arcBytes v) = v.toNat := by
  have hge (j : UInt32) : v ≥ (1 : UInt32) <<< j ↔ ((1 : UInt32) <<< j).toNat ≤ v.toNat := UInt32.le_iff_toNat_le
  have h7 : ((1 : UInt32) <<< 7).toNat = 2 ^ 7 := rfl
  have h14 : ((1 : UInt32) <<< 14).toNat = 2 ^ 14 := rfl
  have h21 : ((1 : UInt32) <<< 21).toNat = 2 ^ 21 := rfl
  have h28 : ((1 : UInt32) <<< 28).toNat = 2 ^ 28 := rfl
  have b7 : _ = 128 + v.toNat / 2 ^ 7 % 128 := toNat_septetByte v 7 (by decide)
  have b14 : _ = 128 + v.toNat / 2 ^ 14 % 128 := toNat_septetByte v 14 (by decide)
  have b21 : _ = 128 + v.toNat / 2 ^ 21 % 128 := toNat_septetByte v 21 (by decide)
  have b28 : _ = 128 + v.toNat / 2 ^ 28 % 128 := toNat_septetByte v 28 (by decide)
  have blast := toNat_lastByte v
  have hlt := v.toNat_lt
  have hshape := arcBytes.eq_def v
  simp only [hge, h7, h14, h21, h28] at hshape
  revert b7 b14 b21 b28 blast hshape
  generalize ((0x80 : UInt32) ||| ((v >>> 28) &&& 0x7f)).toUInt8 = c28
  generalize ((0x80 : UInt32) ||| ((v >>> 21) &&& 0x7f)).toUInt8 = c21
  generalize ((0x80 : UInt32) ||| ((v >>> 14) &&& 0x7f)).toUInt8 = c14
  generalize ((0x80 : UInt32) ||| ((v >>> 7) &&& 0x7f)).toUInt8 = c7
  generalize (v &&& 0x7f).toUInt8 = c
  intro b7 b14 b21 b28 blast hshape
  refine ⟨_, c, hshape, ?_, by omega, ?_⟩
  · intro b hb
    simp only [mem_append, mem_ite_nil_right, mem_singleton] at hb
    rcases hb with ((⟨-, rfl⟩ | ⟨-, rfl⟩) | ⟨-, rfl⟩) | ⟨-, rfl⟩ <;> omega
  · have happend (acc : Nat) (bs cs : List UInt8) : septets acc (bs ++ cs) = septets (septets acc bs) cs := foldl_append
    have hif (acc : Nat) (p : Prop) [Decidable p] (b : UInt8) :
        septets acc (if p then [b] else []) = if p then acc * 128 + b.toNat % 128 else acc := by split <;> rfl
    have hlast (acc : Nat) : septets acc [c] = acc * 128 + c.toNat % 128 := rfl
    rw [hshape]
    simp only [happend, hif, hlast]
    -- the septets that are left out are zero
    split_ifs <;> omega

theorem splitArcs_flatMap (arcs : List UInt32) : splitArcs (arcs.flatMap arcBytes) = (arcs.map arcBytes, []) := by
  induction arcs with
  | nil => rfl
  | cons v arcs ih =>
    obtain ⟨front, last, hbytes, hfront, hlast, -⟩ := arcBytes_split v
    rw [flatMap_cons, map_cons, hbytes, append_assoc, singleton_append, splitArcs_arc _ hfront hlast, ih]

theorem arcValues_flatMap (arcs : List UInt32) : arcValues (arcs.flatMap arcBytes) = arcs := by
  rw [arcValues, splitArcs_flatMap, map_map]
  refine map_id'' (fun v => ?_) arcs
  obtain ⟨front, last, hbytes, hfront, hlast, hvalue⟩ := arcBytes_split v
  rw [Function.comp_apply, hvalue, UInt32.ofNat_toNat]

theorem startsWithDigit_arcsText (arcs : List UInt32) : startsWithDigit 10 (arcsText arcs) = false := by
  cases arcs with
  | nil => rfl
  | cons v arcs =>
    rw [arcsText, flatMap_cons, cons_append]
    rfl

theorem behindDot_padded {n : Nat} (q : Text) (hn : n < 2 ^ 64) : behindDot (padded 0 n ++ chr '.' :: q) = some q := by
  rw [behindDot, strtoul_padded hn rfl]
  exact if_pos rfl

theorem strtoul_arc (v : UInt32) (arcs : List UInt32) :
    strtoul 10 (padded 0 v.toNat ++ arcsText arcs) = (v.toNat, arcsText arcs) := by
  have := v.toNat_lt
  exact strtoul_padded (by omega) (startsWithDigit_arcsText arcs)

/-- The arcs of a text are those that were printed. -/
theorem arcsOf_text (v : UInt32) (arcs : List UInt32) : arcsOf (padded 0 v.toNat ++ arcsText arcs) = (v :: arcs, true) := by
  have hne : padded 0 v.toNat ++ arcsText arcs ≠ [] := fun h => padded_ne_nil _ _ (append_eq_nil_iff.mp h).1
  have hv := v.toNat_lt
  have hnumber := strtoul_arc v arcs
  induction arcs generalizing v with
  | nil =>
    rw [arcsOf_last hne (congrArg Prod.snd hnumber), hnumber, UInt32.ofNat_toNat]
  | cons w arcs ih =>
    have hdot : behindDot (padded 0 v.toNat ++ arcsText (w :: arcs)) = some (padded 0 w.toNat ++ arcsText arcs) := by
      rw [arcsText, flatMap_cons, cons_append, ← arcsText]
      exact behindDot_padded _ (by omega)
    have hne' : padded 0 w.toNat ++ arcsText arcs ≠ [] := fun h => padded_ne_nil _ _ (append_eq_nil_iff.mp h).1
    rw [arcsOf_dot hne hdot, hnumber, UInt32.ofNat_toNat, ih w hne' w.toNat_lt (strtoul_arc w arcs)]

variable {a0 a1 : Nat} {arcs : List UInt32} {blob : List UInt8}

theorem behindDot_oidText (a1 : Nat) (arcs : List UInt32) (h : a0 < 2 ^ 64) :
    behindDot (oidText a0 a1 arcs) = some (padded 0 a1 ++ arcsText arcs) := by
  rw [oidText, append_assoc, cons_append]
  exact behindDot_padded _ h

theorem oidArcs_oidText {a0 a1 : Nat} (v : UInt32) (arcs : List UInt32) (h0 : a0 < 2 ^ 64) (h1 : a1 < 2 ^ 64) :
    oidArcs (oidText a0 a1 (v :: arcs)) = some (padded 0 v.toNat ++ arcsText arcs) := by
  rw [oidArcs, behindDot_oidText _ _ h0, Option.bind_some, arcsText, flatMap_cons, cons_append, ← arcsText]
  exact behindDot_padded _ h1

theorem oidFirst_oidText (arcs : List UInt32) (h : 40 * a0 + a1 < 256) :
    (oidFirst (oidText a0 a1 arcs)).toNat = 40 * a0 + a1 := by
  have hfirst : (strtoul 10 (oidText a0 a1 arcs)).1 = a0 := by
    rw [oidText, append_assoc, cons_append, strtoul_padded (by omega) rfl]
  have hsecond : (strtoul 10 (padded 0 a1 ++ arcsText arcs)).1 = a1 := by
    rw [strtoul_padded (by omega) (startsWithDigit_arcsText arcs)]
  rw [oidFirst, behindDot_oidText _ _ (by omega), Option.getD_some, hfirst, hsecond]
  simp
  omega

theorem minus_notMem_oidText (a0 a1 : Nat) (arcs : List UInt32) : chr '-' ∉ oidText a0 a1 arcs := by
  intro h
  rw [oidText, mem_append, mem_append, mem_cons, arcsText, mem_flatMap] at h
  rcases h with (h | h | h) | ⟨v, -, h⟩
  · exact minus_notMem_padded h
  · exact absurd h (by decide)
  · exact minus_notMem_padded h
  · rcases mem_cons.mp h with h | h
    · exact absurd h (by decide)
    · exact minus_notMem_padded h

/-- What is written for an object identifier in canonical decimals. -/
theorem berWriteOidString_oidText (hne : arcs ≠ []) (h : 40 * a0 + a1 < 256) :
    berWriteOidString (oidText a0 a1 arcs) = .ok (UInt8.ofNat (40 * a0 + a1) :: arcs.flatMap arcBytes) := by
  obtain ⟨v, arcs, rfl⟩ := exists_cons_of_ne_nil hne
  have harcs := @oidArcs_oidText a0 a1 v arcs (by omega) (by omega)
  have hfit := (storesInside_iff_length _).mp
    (storesInside_of_notMem (minus_notMem_oidText a0 a1 (v :: arcs))) _ harcs
  have hfirst : oidFirst (oidText a0 a1 (v :: arcs)) = UInt8.ofNat (40 * a0 + a1) := by
    rw [← oidFirst_oidText (v :: arcs) h, UInt8.ofNat_toNat]
  have hbytes : arcsBytes (padded 0 v.toNat ++ arcsText arcs) = (v :: arcs).flatMap arcBytes := by
    rw [arcsBytes, arcsOf_text]
  rw [berWriteOidString_some harcs, if_pos hfit, arcsOf_text, if_pos rfl, hfirst, hbytes]

/-! ## Which blobs give the same string -/

theorem arcsText_injective {arcs' : List UInt32} (h : arcsText arcs = arcsText arcs') : arcs = arcs' := by
  match arcs, arcs' with
  | [], [] => rfl
  | [], w :: arcs' => exact (nomatch h)
  | v :: arcs, [] => exact (nomatch h)
  | v :: arcs, w :: arcs' =>
    rw [arcsText, arcsText, flatMap_cons, flatMap_cons, cons_append, cons_append, ← arcsText,
      ← arcsText] at h
    have hparse := congrArg arcsOf (List.cons.inj h).2
    rw [arcsOf_text, arcsOf_text] at hparse
    exact congrArg Prod.fst hparse

/-- The first two numbers and the arcs are found again in what is printed. -/
theorem oidText_injective {b0 b1 : Nat} {arcs' : List UInt32} (ha : a0 < 2 ^ 64 ∧ a1 < 2 ^ 64)
    (hb : b0 < 2 ^ 64 ∧ b1 < 2 ^ 64) (h : oidText a0 a1 arcs = oidText b0 b1 arcs') : a0 = b0 ∧ a1 = b1 ∧ arcs = arcs' := by
  have hfirst := congrArg (strtoul 10) h
  rw [oidText, oidText, append_assoc, append_assoc, cons_append, cons_append, strtoul_padded ha.1 rfl,
    strtoul_padded hb.1 rfl] at hfirst
  have hsecond := congrArg (strtoul 10) (List.cons.inj (congrArg Prod.snd hfirst)).2
  rw [strtoul_padded ha.2 (startsWithDigit_arcsText arcs), strtoul_padded hb.2 (startsWithDigit_arcsText arcs')] at hsecond
  exact ⟨congrArg Prod.fst hfirst, congrArg Prod.fst hsecond, arcsText_injective (congrArg Prod.snd hsecond)⟩

/-- The form that is written: every arc in its shortest bytes. -/
def ShortestOid (blob : List UInt8) : Prop := ∃ (b : UInt8) (arcs : List UInt32), arcs ≠ [] ∧ blob = b :: arcs.flatMap arcBytes

/-- Two blobs with the same first byte and the same arcs modulo `2 ^ 32`. -/
def SameArcs (blob blob' : List UInt8) : Prop := blob.head? = blob'.head? ∧ arcValues blob.tail = arcValues blob'.tail

theorem accepted_cons {oid : Text} (h : berReadOidString blob = some oid) :
    ∃ b bs, bs ≠ [] ∧ blob = b :: bs ∧ oid = oidText (b / 40).toNat (b % 40).toNat (arcValues bs) := by
  match blob with
  | [] => cases h
  | [b] => cases h
  | b :: c :: bs =>
    rw [berReadOidString_eq b (cons_ne_nil c bs)] at h
    split at h
    · exact ⟨b, c :: bs, cons_ne_nil c bs, rfl, (Option.some.inj h).symm⟩
    · cases h

theorem sameText_iff {blob' : List UInt8} {oid oid' : Text} (h : berReadOidString blob = some oid)
    (h' : berReadOidString blob' = some oid') : oid = oid' ↔ SameArcs blob blob' := by
  obtain ⟨b, bs, hne, rfl, rfl⟩ := accepted_cons h
  obtain ⟨c, cs, hne', rfl, rfl⟩ := accepted_cons h'
  have hdiv (b : UInt8) : (b / 40).toNat < 2 ^ 64 ∧ (b % 40).toNat < 2 ^ 64 := by
    have := (b / 40).toNat_lt
    have := (b % 40).toNat_lt
    omega
  rw [SameArcs, List.head?_cons, List.head?_cons, Option.some.injEq, tail_cons, tail_cons]
  constructor
  · intro htext
    obtain ⟨hquot, hrem, harcs⟩ := oidText_injective (hdiv b) (hdiv c) htext
    rw [UInt8.toNat_div, UInt8.toNat_div] at hquot
    rw [UInt8.toNat_mod, UInt8.toNat_mod] at hrem
    rw [show (40 : UInt8).toNat = 40 from rfl] at hquot hrem
    refine ⟨UInt8.toNat_inj.mp ?_, harcs⟩
    omega
  · rintro ⟨rfl, harcs⟩
    rw [harcs]

theorem shortest_unique {blob' : List UInt8} (h : ShortestOid blob) (h' : ShortestOid blob') (hsame : SameArcs blob blob') :
    blob = blob' := by
  obtain ⟨b, arcs, -, rfl⟩ := h
  obtain ⟨c, arcs', -, rfl⟩ := h'
  obtain ⟨hhead, harcs⟩ := hsame
  rw [tail_cons, tail_cons, arcValues_flatMap, arcValues_flatMap] at harcs
  rw [Option.some.inj hhead, harcs]

/-- An object identifier is read as it was written, from a blob in its shortest form; two blobs that are accepted give the same
string exactly when they have the same first byte and the same arcs modulo `2 ^ 32`, and then they are equal if they are both in
their shortest form. -/
theorem berReadOidString_berWriteOidString (a0 a1 : Nat) (arcs : List UInt32) (h0 : a0 ≤ 2) (h1 : a1 < 40) (hne : arcs ≠ []) :
    (∃ blob, berWriteOidString (oidText a0 a1 arcs) = .ok blob ∧ ShortestOid blob ∧
        berReadOidString blob = some (oidText a0 a1 arcs)) ∧
      ∀ blob blob' oid oid', berReadOidString blob = some oid → berReadOidString blob' = some oid' →
        (oid = oid' ↔ SameArcs blob blob') ∧ (ShortestOid blob → ShortestOid blob' → oid = oid' → blob = blob') := by
  refine ⟨⟨_, berWriteOidString_oidText hne (by omega), ⟨_, arcs, hne, rfl⟩, ?_⟩, fun blob blob' oid oid' h h' =>
    ⟨sameText_iff h h', fun hshort hshort' htext => shortest_unique hshort hshort' ((sameText_iff h h').mp htext)⟩⟩
  obtain ⟨v, arcs, rfl⟩ := exists_cons_of_ne_nil hne
  obtain ⟨front, last, hbytes, -⟩ := arcBytes_split v
  have hbehind : (v :: arcs).flatMap arcBytes ≠ [] := by
    rw [flatMap_cons, hbytes]
    simp
  have hb : (UInt8.ofNat (40 * a0 + a1)).toNat = 40 * a0 + a1 := by
    rw [UInt8.toNat_ofNat']
    omega
  have hquot : (UInt8.ofNat (40 * a0 + a1) / 40).toNat = a0 := by
    rw [UInt8.toNat_div, hb, show (40 : UInt8).toNat = 40 from rfl]
    omega
  have hrem : (UInt8.ofNat (40 * a0 + a1) % 40).toNat = a1 := by
    rw [UInt8.toNat_mod, hb, show (40 : UInt8).toNat = 40 from rfl]
    omega
  rw [berReadOidString_eq _ hbehind, splitArcs_flatMap, arcValues_flatMap, hquot, hrem]
  exact if_pos rfl

/-- The object identifier 1.2.840.113549. -/
theorem rsadsi_reads :
    ∃ blob, berWriteOidString (oidText 1 2 [840, 113549]) = .ok blob ∧ berReadOidString blob = some (oidText 1 2 [840, 113549]) := by
  obtain ⟨blob, hwrite, -, hread⟩ :=
    (berReadOidString_berWriteOidString 1 2 [840, 113549] (by decide) (by decide) (by decide)).1
  exact ⟨blob, hwrite, hread⟩

/-- An accepted blob ends with the last byte of an arc, and no other accepted blob gives its string. -/
def OidFaithful (blob : List UInt8) : Prop :=
  ∀ oid, berReadOidString blob = some oid →
    (∃ b ∈ blob.getLast?, b &&& 0x80 = 0) ∧ ∀ blob', berReadOidString blob' = some oid → blob' = blob

/-- A byte 0x80 in front of an arc is read over, and so is one behind the last arc. -/
theorem padded_not_faithful : ¬OidFaithful [0x2a, 0x03] ∧ ¬OidFaithful [0x2a, 0x03, 0x80] := by
  have hread : berReadOidString [0x2a, 0x03] = some (oidText 1 2 [3]) ∧
      berReadOidString [0x2a, 0x80, 0x03] = some (oidText 1 2 [3]) ∧
      berReadOidString [0x2a, 0x03, 0x80] = some (oidText 1 2 [3]) := by decide
  refine ⟨fun h => ?_, fun h => ?_⟩
  · have := (h _ hread.1).2 _ hread.2.1
    exact absurd this (by decide)
  · obtain ⟨b, hb, hlast⟩ := (h _ hread.2.2).1
    obtain rfl := Option.some.inj hb
    exact absurd hlast (by decide)

end Samba.Libcli
