/-
NetBIOS names as WINS replication has them on the wire (libcli/nbt/nbtname.c): a counted buffer with the name padded to 15
bytes, the type, and the scope. The reader looks for the scope one byte behind the place where the writer has put it.
-/
import Mathlib.Data.List.DropRight
import Mathlib.Data.List.GetD
import Samba.Ndr.Basic
import Samba.Wrepl.Winsdb

namespace Samba.Nbt

open CString List Ndr
open Samba.Wrepl (NbtName)

/-- The conversion `%-15s`. -/
def padded (s : Text) : Text := s ++ List.replicate (15 - s.length) (chr ' ')

/-- Trailing spaces are taken off. -/
def trimSpaces (s : Text) : Text := s.rdropWhile (· = chr ' ')

/-- What `ndr_push_wrepl_nbt_name` puts into its buffer. -/
def wreplNamebuf (r : NbtName) : List UInt8 :=
  let namebuf := (padded r.name ++ chr 'X' :: r.scope.getD [] ++ [0]).set 15 r.type
  -- oh wow, what a nasty bug in windows ...
  if r.type = 0x1b then (namebuf.set 15 (namebuf.getD 0 0)).set 0 0x1b else namebuf

/-- `ndr_push_wrepl_nbt_name`. -/
def ndrPushWreplNbtName (ndr : NdrPush) (r : NbtName) : Except NdrError NdrPush :=
  if r.name.length > 15 then .error .invalidParameterMix
  else if (r.scope.getD []).length > 238 then .error .invalidParameterMix
  else do
    let namebuf := wreplNamebuf r
    let ndr ← ndrPushAlign ndr 4
    let ndr ← ndrPushUint32 ndr namebuf.length
    ndrPushBytes ndr namebuf

/-- The name that `ndr_pull_wrepl_nbt_name` makes of its buffer. -/
def nbtNameOfNamebuf (namebuf : List UInt8) : NbtName :=
  -- oh wow, what a nasty bug in windows ...
  let namebuf := if namebuf.getD 0 0 = 0x1b ∧ 16 ≤ namebuf.length then (namebuf.set 0 (namebuf.getD 15 0)).set 15 0x1b else namebuf
  if namebuf.length < 17 then ⟨cstr namebuf, none, 0x00⟩
  else
    let name := trimSpaces (cstr (namebuf.set 15 0))
    ⟨name, if namebuf.length > 18 then some (cstr (namebuf.drop 17)) else none, namebuf.getD 15 0⟩

/-- `ndr_pull_wrepl_nbt_name`. -/
def ndrPullWreplNbtName (ndr : NdrPull) : Except NdrError (NbtName × NdrPull) := do
  let ndr ← ndrPullAlign ndr 4
  let (namebufLen, ndr) ← ndrPullUint32 ndr
  if namebufLen < 1 ∨ namebufLen > 255 then .error .alloc else
  let (namebuf, ndr) ← ndrPullBytes ndr namebufLen
  return (nbtNameOfNamebuf namebuf, ndr)

/-! ## Names that come back -/

/-- The name is read back from the bytes that are written for it. -/
def WreplRoundTrips (flags : BitVec 32) (r : NbtName) : Prop :=
  ∃ ndr ndr', ndrPushWreplNbtName (ndrPushInitCtx flags) r = .ok ndr ∧
    ndrPullWreplNbtName ⟨flags, ndr.data, 0⟩ = .ok (r, ndr')

/-- Names that fit into the format. -/
structure WreplName (r : NbtName) : Prop where
  length : r.name.length ≤ 15
  noNul : (0 : UInt8) ∉ r.name
  start : r.name.head? ≠ some 0x1b
  stop : r.name.getLast? ≠ some (chr ' ')
  scope : ∀ scope, r.scope = some scope → scope ≠ [] ∧ (0 : UInt8) ∉ scope ∧ scope.length ≤ 238

variable {s : Text} {r : NbtName}

theorem length_padded (h : s.length ≤ 15) : (padded s).length = 15 := by
  rw [padded, length_append, length_replicate]
  omega

theorem trimSpaces_append_spaces (s : Text) (n : Nat) : trimSpaces (s ++ List.replicate n (chr ' ')) = trimSpaces s := by
  induction n with
  | zero => rw [replicate_zero, append_nil]
  | succ n ih =>
    rw [replicate_succ', ← append_assoc, trimSpaces, rdropWhile_concat_pos _ _ _ (by simp)]
    exact ih

theorem trimSpaces_eq_self : trimSpaces s = s ↔ s.getLast? ≠ some (chr ' ') := by
  rw [trimSpaces, rdropWhile_eq_self_iff]
  constructor
  · intro h hlast
    have hne : s ≠ [] := by
      rintro rfl
      cases hlast
    rw [List.getLast?_eq_some_getLast hne, Option.some.injEq] at hlast
    exact h hne (by simpa using hlast)
  · intro h hne hspace
    exact h (by rw [List.getLast?_eq_some_getLast hne, of_decide_eq_true hspace])

theorem cstr_append_zero (h : (0 : UInt8) ∉ s) (rest : List UInt8) : cstr (s ++ 0 :: rest) = s := by
  rw [cstr_append h]
  exact append_nil _

/-- The buffer before the swap: name, type and scope. -/
theorem wreplNamebuf_plain (h : r.name.length ≤ 15) :
    (padded r.name ++ chr 'X' :: r.scope.getD [] ++ [0]).set 15 r.type = padded r.name ++ r.type :: (r.scope.getD [] ++ [0]) := by
  have hlen := length_padded h
  rw [append_assoc, set_append_right _ _ (by omega), hlen]
  rfl

theorem unswap (h : WreplName r) : let namebuf := wreplNamebuf r
    (if namebuf.getD 0 0 = 0x1b ∧ 16 ≤ namebuf.length then (namebuf.set 0 (namebuf.getD 15 0)).set 15 0x1b else namebuf) =
      padded r.name ++ r.type :: (r.scope.getD [] ++ [0]) := by
  have hlen := length_padded h.length
  obtain ⟨c, s, hcs⟩ : ∃ c s, padded r.name = c :: s := exists_cons_of_length_pos (by omega)
  have hs : s.length = 14 := by
    rw [hcs, length_cons] at hlen
    omega
  have hc : c ≠ 0x1b := by
    rintro rfl
    unfold padded at hcs
    cases hname : r.name with
    | nil =>
      rw [hname] at hcs
      exact absurd (List.cons.inj hcs).1 (by decide)
    | cons d t =>
      rw [hname, cons_append] at hcs
      exact h.start (by rw [hname, (List.cons.inj hcs).1]; rfl)
  unfold wreplNamebuf
  rw [wreplNamebuf_plain h.length, hcs]
  dsimp only
  by_cases htype : r.type = 0x1b
  · have hset : ((c :: s ++ r.type :: (r.scope.getD [] ++ [0])).set 15 ((c :: s ++ r.type :: (r.scope.getD [] ++ [0])).getD 0 0)).set
        0 0x1b = 0x1b :: s ++ c :: (r.scope.getD [] ++ [0]) := by
      rw [cons_append, set_cons_succ, set_append_right _ _ (by omega), hs]
      rfl
    rw [if_pos htype, hset, if_pos ⟨rfl, by simp; omega⟩]
    have h15 : ((0x1b : UInt8) :: s ++ c :: (r.scope.getD [] ++ [0])).getD 15 0 = c := by
      rw [cons_append, getD_cons_succ, getD_append_right _ _ _ _ (by omega), hs]
      rfl
    rw [h15, cons_append, set_cons_zero, set_cons_succ, set_append_right _ _ (by omega), hs]
    rw [htype]
    rfl
  · rw [if_neg htype, if_neg fun h => hc h.1]

/-- A buffer of the writer is read as the name with the scope less its first byte. -/
theorem nbtNameOfNamebuf_wreplNamebuf (h : WreplName r) : nbtNameOfNamebuf (wreplNamebuf r) =
      ⟨r.name, if (r.scope.getD []).length > 1 then some (cstr ((r.scope.getD []).drop 1 ++ [0])) else none, r.type⟩ := by
  have hlen := length_padded h.length
  unfold nbtNameOfNamebuf
  rw [unswap h]
  dsimp only
  have hname : trimSpaces (cstr ((padded r.name ++ r.type :: (r.scope.getD [] ++ [0])).set 15 0)) = r.name := by
    rw [set_append_right _ _ (by omega), hlen, Nat.sub_self, set_cons_zero, cstr_append_zero, padded,
      trimSpaces_append_spaces, trimSpaces_eq_self.mpr h.stop]
    rw [padded, mem_append, mem_replicate]
    exact fun h0 => h0.elim h.noNul fun h0 => absurd h0.2 (by decide)
  have htype : (padded r.name ++ r.type :: (r.scope.getD [] ++ [0])).getD 15 0 = r.type := by
    rw [getD_append_right _ _ _ _ (by omega), hlen]
    rfl
  have hscope : (padded r.name ++ r.type :: (r.scope.getD [] ++ [0])).drop 17 = (r.scope.getD [] ++ [0]).drop 1 := by
    rw [drop_append, drop_of_length_le (by omega), hlen]
    rfl
  rw [if_neg (by simp; omega), hname, htype, hscope]
  by_cases hlong : (r.scope.getD []).length > 1
  · rw [if_pos (by simp; omega), if_pos hlong, drop_append_of_le_length (by omega)]
  · rw [if_neg (by simp; omega), if_neg hlong]

theorem length_wreplNamebuf (h : r.name.length ≤ 15) : (wreplNamebuf r).length = 17 + (r.scope.getD []).length := by
  have hlen := length_padded h
  unfold wreplNamebuf
  dsimp only
  split <;> simp only [length_set, length_append, length_cons, length_nil, hlen] <;> omega

/-- What is written for a name, and what is read from it. -/
theorem wrepl_transfer {flags : BitVec 32} {r : NbtName} (h : WreplName r) :
    ∃ ndr, ndrPushWreplNbtName (ndrPushInitCtx flags) r = .ok ndr ∧
      ∃ ndr', ndrPullWreplNbtName ⟨flags, ndr.data, 0⟩ = .ok (nbtNameOfNamebuf (wreplNamebuf r), ndr') := by
  have hscope : (r.scope.getD []).length ≤ 238 := by
    cases hs : r.scope with
    | none => simp
    | some scope => exact (h.scope scope hs).2.2
  have hlen := length_wreplNamebuf h.length
  obtain ⟨ndr₁, hword, hw₁⟩ := @ndrPushUint32_zero (ndrPushInitCtx flags) rfl (wreplNamebuf r).length
  have hdata₁ : ndr₁.data = ordered flags (Bytes.le32 (wreplNamebuf r).length) := by
    rw [hw₁.data]
    rfl
  obtain ⟨ndr₂, hbytes⟩ := @ndrPushBytes_ok ndr₁ (wreplNamebuf r) (by
    rw [hdata₁, length_ordered, Bytes.length_le32, hlen]
    unfold ndrBaseMarshallSize maxTallocSize
    omega)
  have hdata₂ : ndr₂.data = ordered flags (Bytes.le32 (wreplNamebuf r).length) ++ wreplNamebuf r := by
    rw [(writes_of_bytes hbytes).data, hdata₁]
  refine ⟨ndr₂, ?_, ⟨flags, ndr₂.data, 4 + (wreplNamebuf r).length⟩, ?_⟩
  · have halign : ndrPushAlign (ndrPushInitCtx flags) 4 = .ok (ndrPushInitCtx flags) := ndrPushAlign_zero rfl (by decide)
    rw [ndrPushWreplNbtName, if_neg (by have := h.length; omega), if_neg (by omega), halign]
    dsimp only [bind, Except.bind]
    rw [hword]
    exact hbytes
  · have hbuf := @ndrPullBytes_eq flags (ordered flags (Bytes.le32 (wreplNamebuf r).length)) (wreplNamebuf r) [] 4
      (wreplNamebuf r).length (by simp) rfl
    rw [append_nil] at hbuf
    rw [hdata₂, ndrPullWreplNbtName, ndrPullAlign_zero (by decide)]
    dsimp only [bind, Except.bind]
    rw [ndrPullUint32_zero (by omega)]
    dsimp only
    rw [if_neg (by omega), hbuf]
    rfl

/-- A name is read back from its WINS replication form exactly when it has no scope. -/
theorem wreplRoundTrips_iff {flags : BitVec 32} {r : NbtName} (h : WreplName r) :
    WreplRoundTrips flags r ↔ r.scope = none := by
  obtain ⟨ndr, hpush, ndr', hpull⟩ := @wrepl_transfer flags r h
  rw [nbtNameOfNamebuf_wreplNamebuf h] at hpull
  constructor
  · rintro ⟨ndr₁, ndr₁', hpush₁, hpull₁⟩
    obtain rfl := Except.ok.inj (hpush.symm.trans hpush₁)
    have hname := (Prod.mk.inj (Except.ok.inj (hpull.symm.trans hpull₁))).1
    have hscope := congrArg NbtName.scope hname
    dsimp only at hscope
    cases hs : r.scope with
    | none => rfl
    | some scope =>
      rw [hs, Option.getD_some] at hscope
      obtain ⟨hne, hnul, -⟩ := h.scope scope hs
      split at hscope
      · -- the scope that comes back is shorter
        have hnul' : (0 : UInt8) ∉ scope.drop 1 := fun h0 => hnul (mem_of_mem_drop h0)
        have hcut := cstr_append_zero hnul' []
        rw [hcut] at hscope
        have hlen := congrArg List.length (Option.some.inj hscope)
        rw [length_drop] at hlen
        have := length_pos_of_ne_nil hne
        omega
      · cases hscope
  · intro hs
    refine ⟨ndr, ndr', hpush, ?_⟩
    rw [hpull, hs]
    obtain ⟨name, scope, type⟩ := r
    cases hs
    rfl

/-- A server with a scope of two bytes. -/
def scopedName : NbtName := ⟨"SRV".toList.map chr, some ("ab".toList.map chr), 0x20⟩

theorem scopedName_not_roundTrips : WreplName scopedName ∧ ¬WreplRoundTrips 0 scopedName := by
  have h : WreplName scopedName := by
    refine ⟨by decide, by decide, by decide, by decide, fun scope hs => ?_⟩
    obtain rfl := Option.some.inj hs
    decide
  refine ⟨h, fun ⟨ndr, ndr', hpush, hpull⟩ => ?_⟩
  obtain ⟨ndr₁, hpush₁, ndr₁', hpull₁⟩ := @wrepl_transfer 0 scopedName h
  obtain rfl := Except.ok.inj (hpush₁.symm.trans hpush)
  have hname := (Prod.mk.inj (Except.ok.inj (hpull₁.symm.trans hpull))).1
  exact absurd hname (by decide)

theorem unscoped_roundTrips : WreplRoundTrips 0 ⟨"SRV".toList.map chr, none, 0x1b⟩ :=
  (@wreplRoundTrips_iff 0 _ ⟨by decide, by decide, by decide, by decide, fun _ hs => by cases hs⟩).mpr rfl

end Samba.Nbt
