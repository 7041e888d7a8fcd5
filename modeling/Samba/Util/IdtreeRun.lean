/-
The id tree over runs of calls. A call keeps the tree and the map from ids to pointers in step, as long as the search
for an id does not leave the last entry of a layer and no id outside of the tree falls on one in it.
-/
import Samba.Util.IdtreeMap
import Samba.Lib.Transition

namespace Samba.Util

open Function

section Grow

variable {α : Type}

/-! ## Layers on top -/

theorem idrDigit_of_lt {l id : Nat} (h : id < 32 ^ l) : idrDigit l id = 0 := by
  refine Fin.ext ?_
  rw [idrDigit_val, Nat.div_eq_of_lt h]
  rfl

theorem idrDigit_ne_zero {l id : Nat} (hlo : 32 ^ l ≤ id) (hhi : id < 32 ^ (l + 1)) : idrDigit l id ≠ 0 := by
  have hpos : 0 < 32 ^ l := Nat.pow_pos (by decide)
  have hone : 1 ≤ id / 32 ^ l := (Nat.le_div_iff_mul_le hpos).mpr (by omega)
  have hmax : id / 32 ^ l < 32 := by
    rw [Nat.div_lt_iff_lt_mul hpos, Nat.mul_comm, ← Nat.pow_succ]
    exact hhi
  intro h
  have hval := congrArg Fin.val h
  rw [idrDigit_val, Nat.mod_eq_of_lt hmax] at hval
  simp only [Fin.val_zero] at hval
  omega

/-- A tree one entry of whose layers is never full. -/
theorem not_full_null (d : Nat) : ¬ Full d (.null : Slot α) := fun h => h 0 (look_null d 0)

/-- A layer without entries holds nothing, at any level. -/
theorem Sound.of_count_zero {d : Nat} {p : Slot α} (h : Sound (d + 1) p) (hcount : p.count = 0) :
    Sound (d + 2) p ∧ (∀ k, look (d + 1) p k = none) ∧ ∀ k, look (d + 2) p k = none := by
  have hp := h
  obtain ⟨bitmap, ary, count, rfl, -⟩ := hp
  have hnull := slotCount_eq_zero (h.count_eq.symm.trans hcount)
  refine ⟨⟨bitmap, ary, count, rfl, fun i => .inl (hnull i), fun i => ?_, h.count_eq⟩, fun k => ?_, fun k => ?_⟩
  · rw [h.bits i, hnull i]
    exact iff_of_false (not_full_null d) (not_full_null (d + 1))
  · rw [look_layer, hnull, look_null]
  · rw [look_layer, hnull, look_null]

theorem Sound.grow {d : Nat} {p : Slot α} (h : Sound (d + 1) p) :
    Sound (d + 2) (.layer (if p.isFull then 0 ||| 1#32 else 0) (update (fun _ => .null) 0 p) 1) := by
  refine ⟨_, _, _, rfl, fun i => ?_, fun i => ?_, ?_⟩
  · by_cases hi : i = 0
    · subst hi
      rw [update_self]
      exact .inr h
    · exact .inl (update_of_ne hi ..)
  · by_cases hi : i = 0
    · subst hi
      rw [update_self, ← Slot.isFull_iff h]
      cases p.isFull <;> decide
    · rw [update_of_ne hi]
      refine iff_of_false ?_ (not_full_null _)
      have hset := getLsbD_setBit (0 : BitVec 32) 0 i
      simp only [Fin.val_zero, BitVec.shiftLeft_zero] at hset
      cases p.isFull
      · simp
      · rw [if_pos rfl, hset]
        simp [hi]
  · rw [slotCount_fill rfl h.not_null]
    simp [slotCount, Slot.isNull]

/-- The layers that are put on top of a tree make room for the id, and the ids that were in the tree stay. -/
theorem addLayers_ok {id fuel L : Nat} {added : List (Slot α)} {p : Slot α} {idFree : List (Slot α)} (hs : Sound (L + 1) p)
    (hid : id < 32 ^ 6) (hL : L + 1 ≤ 6) (hfuel : 6 ≤ L + fuel) (hclean : Clean idFree) (hlen : 6 ≤ L + 1 + idFree.length) :
    ∃ p' L' idFree', addLayers id fuel added p (L + 1) idFree = (some (p', L' + 1), idFree') ∧ Sound (L' + 1) p' ∧
      L ≤ L' ∧ L' + 1 ≤ 6 ∧ id < 32 ^ (L' + 1) ∧ (∀ k, k < 32 ^ (L + 1) → look (L' + 1) p' k = look (L + 1) p k) ∧
      (∀ k, 32 ^ (L + 1) ≤ k → k < 32 ^ (L' + 1) → look (L' + 1) p' k = none) ∧ Clean idFree' ∧
      idFree.length + L ≤ idFree'.length + L' := by
  induction fuel generalizing L added p idFree with
  | zero =>
    have hL5 : L = 5 := by omega
    subst hL5
    exact ⟨p, 5, idFree, rfl, hs, le_rfl, le_rfl, hid, fun k _ => rfl, fun k h1 h2 => by omega, hclean, le_rfl⟩
  | succ fuel ih =>
    rw [addLayers]
    have hpow : 1 <<< ((L + 1) * idrBits) = 32 ^ (L + 1) := by
      rw [Nat.shiftLeft_eq, Nat.one_mul, Nat.mul_comm, shiftLeft_idrBits]
    rw [hpow]
    split
    case isFalse hstop =>
      have hlt : id < 32 ^ (L + 1) := by
        unfold maxLevel at hstop
        by_contra h
        exact hstop ⟨by omega, by omega⟩
      exact ⟨p, L, idFree, rfl, hs, le_rfl, hL, hlt, fun k _ => rfl, fun k h1 h2 => by omega, hclean, le_rfl⟩
    case isTrue hgrow =>
      have hL6 : L + 2 ≤ 6 := by
        by_contra h
        have hL5 : L = 5 := by omega
        rw [hL5] at hgrow
        omega
      have hmono : 32 ^ (L + 1) ≤ 32 ^ (L + 2) := Nat.pow_le_pow_right (by decide) (by omega)
      split
      case isTrue hcount =>
        obtain ⟨hs₂, hnone, hnone₂⟩ := hs.of_count_zero hcount
        obtain ⟨p', L', idFree', e, hs', hle, h6, hlt, hold, hnew, hcl, hl⟩ :=
          @ih (L + 1) added p idFree hs₂ hL6 (by omega) hclean (by omega)
        refine ⟨p', L', idFree', e, hs', by omega, h6, hlt, fun k hk => ?_, fun k h1 h2 => ?_, hcl, by omega⟩
        · rw [hold k (by omega), hnone, hnone₂]
        · by_cases hk : k < 32 ^ (L + 2)
          · rw [hold k hk, hnone₂]
          · exact hnew k (Nat.le_of_not_lt hk) h2
      case isFalse hcount =>
        obtain ⟨rest, halloc, hrest, hrlen⟩ := allocLayer_ok hclean (by omega)
        rw [halloc]
        dsimp only [Slot.zero]
        obtain ⟨p', L', idFree', e, hs', hle, h6, hlt, hold, hnew, hcl, hl⟩ :=
          @ih (L + 1) (.layer 0 (fun _ => .null) 0 :: added) _ rest hs.grow hL6 (by omega) hrest (by omega)
        refine ⟨p', L', idFree', e, hs', by omega, h6, hlt, fun k hk => ?_, fun k h1 h2 => ?_, hcl, by omega⟩
        · rw [hold k (by omega), look_layer, idrDigit_of_lt hk, update_self]
        · by_cases hk : k < 32 ^ (L + 2)
          · rw [hold k hk, look_layer, update_of_ne (idrDigit_ne_zero h1 hk), look_null]
          · exact hnew k (Nat.le_of_not_lt hk) h2

end Grow

section Shrink

variable {α : Type}

/-! ## Layers without entries -/

theorem clearBit_of_clear {bitmap : BitVec 32} {n : Fin 32} (h : bitmap.getLsbD n = false) :
    bitmap &&& ~~~ (1#32 <<< n.val) = bitmap := by
  refine BitVec.eq_of_getLsbD_eq fun i hi => ?_
  have hclear := getLsbD_clearBit bitmap n ⟨i, hi⟩
  by_cases hin : (⟨i, hi⟩ : Fin 32) = n
  · rw [hclear, hin]
    have hi' : bitmap.getLsbD i = false := by
      rw [← hin] at h
      exact h
    simp [hi']
  · rw [hclear]
    simp [hin]

section Layer

variable {d : Nat} {bitmap : BitVec 32} {ary : Fin 32 → Slot α} {count : Int} {n : Fin 32} {q : Slot α}

/-- A layer one entry of which has been taken out. -/
theorem Sound.clear (h : Sound (d + 1) (.layer bitmap ary count)) (hn : (ary n).isNull = false) :
    Sound (d + 1) (.layer (bitmap &&& ~~~ (1#32 <<< n.val)) (update ary n .null) (count - 1)) := by
  refine ⟨_, _, _, rfl, fun i => ?_, fun i => ?_, ?_⟩
  · by_cases hi : i = n
    · subst hi
      exact .inl (update_self ..)
    · rw [update_of_ne hi]
      exact h.child i
  · rw [getLsbD_clearBit]
    by_cases hi : i = n
    · subst hi
      rw [update_self]
      exact iff_of_false (by simp) (not_full_null d)
    · rw [update_of_ne hi, ← h.bits i]
      simp [hi]
  · rw [slotCount_clear hn, h.count_eq]

/-- A layer one entry of which is not full any more. -/
theorem Sound.replace (h : Sound (d + 1) (.layer bitmap ary count)) (hn : (ary n).isNull = false) (hq : Sound d q)
    (hfull : ¬ Full d q) :
    Sound (d + 1) (.layer (bitmap &&& ~~~ (1#32 <<< n.val)) (update ary n q) count) := by
  refine h.set hq (fun i => ?_) (by rw [hn]; rfl)
  rw [getLsbD_clearBit]
  by_cases hi : i = n
  · simp [hi, hfull]
  · simp [hi]

theorem Sound.clean_cons {idFree : List (Slot α)} (h : Sound (d + 1) (.layer bitmap ary count)) (hcount : count = 0)
    (hclean : Clean idFree) : Clean (freeLayer idFree (.layer bitmap ary count)) := by
  have hnull := slotCount_eq_zero (h.count_eq.symm.trans hcount)
  have hbitmap : bitmap = 0 := by
    refine BitVec.eq_of_getLsbD_eq fun i hi => ?_
    have hbit := h.bits ⟨i, hi⟩
    rw [hnull] at hbit
    have : ¬ bitmap.getLsbD i = true := fun h' => not_full_null d (hbit.mp h')
    simpa using this
  intro p hp
  rcases List.mem_cons.mp hp with rfl | hp
  · exact ⟨ary, by rw [hbitmap, hcount], fun i _ => hnull i⟩
  · exact hclean p hp

/-- What a layer holds after one of its entries has lost an id. -/
theorem look_update {bitmap' : BitVec 32} {count' : Int} {id : Nat} (hn : idrDigit d id = n)
    (hq : ∀ k, look d q k = if k % 32 ^ d = id % 32 ^ d then none else look d (ary n) k) (k : Nat) :
    look (d + 1) (.layer bitmap' (update ary n q) count') k =
      if k % 32 ^ (d + 1) = id % 32 ^ (d + 1) then none else look (d + 1) (.layer bitmap ary count) k := by
  rw [look_layer, look_layer]
  by_cases hk : idrDigit d k = n
  · rw [hk, update_self, hq]
    refine if_congr ?_ rfl rfl
    rw [mod_pow_succ_iff, hk, hn]
    simp
  · rw [update_of_ne hk, if_neg]
    rw [mod_pow_succ_iff, hn]
    exact fun h => hk h.1

end Layer

/-! ## Removing -/

/-- An id that is not in the tree is not removed, and the tree stays as it is. -/
theorem subRemoveFrom_absent {l id : Nat} {p : Slot α} {idFree : List (Slot α)} (hs : p = .null ∨ Sound (l + 1) p)
    (hnone : look (l + 1) p id = none) : subRemoveFrom l p idFree id = (false, p, idFree) := by
  induction l generalizing p with
  | zero =>
    rcases hs with rfl | hs
    · rfl
    obtain ⟨bitmap, ary, count, rfl, -, hbits, -⟩ := hs
    rw [subRemoveFrom, if_neg]
    intro hbit
    exact (hbits _).mp hbit id hnone
  | succ l ih =>
    rcases hs with rfl | hs
    · rfl
    have hp := hs
    obtain ⟨bitmap, ary, count, rfl, -⟩ := hp
    rw [look_layer] at hnone
    have hbit : bitmap.getLsbD (idrDigit (l + 1) id) = false := by
      rw [← Bool.not_eq_true, hs.bits]
      exact fun hfull => hfull id hnone
    rw [subRemoveFrom]
    dsimp only
    rw [ih (hs.child _) hnone, clearBit_of_clear hbit]
    dsimp only
    rw [update_eq_self]

/-- An id that is in the tree is removed, and no other. -/
theorem subRemoveFrom_present {l id : Nat} {p : Slot α} {idFree : List (Slot α)} (hs : Sound (l + 1) p)
    (hclean : Clean idFree) (hsome : look (l + 1) p id ≠ none) :
    ∃ p' idFree', subRemoveFrom l p idFree id = (true, p', idFree') ∧ (p' = .null ∨ Sound (l + 1) p') ∧ Clean idFree' ∧
      ∀ k, look (l + 1) p' k = if k % 32 ^ (l + 1) = id % 32 ^ (l + 1) then none else look (l + 1) p k := by
  have hp := hs
  -- both levels take an entry out of a layer, which is freed when it has no other
  have hdrop : ∀ {l : Nat} {bitmap : BitVec 32} {ary : Fin 32 → Slot α} {count : Int} {idFree : List (Slot α)},
      Sound (l + 1) (.layer bitmap ary count) → Clean idFree → (ary (idrDigit l id)).isNull = false →
      (∀ k, look l (.null : Slot α) k = if k % 32 ^ l = id % 32 ^ l then none else look l (ary (idrDigit l id)) k) →
      ∃ p' idFree', (if count - 1 = 0 then
          (true, .null, freeLayer idFree (.layer (bitmap &&& ~~~ (1#32 <<< (idrDigit l id).val))
            (update ary (idrDigit l id) .null) (count - 1)))
        else (true, .layer (bitmap &&& ~~~ (1#32 <<< (idrDigit l id).val))
          (update ary (idrDigit l id) .null) (count - 1), idFree)) = (true, p', idFree') ∧
        (p' = .null ∨ Sound (l + 1) p') ∧ Clean idFree' ∧
        ∀ k, look (l + 1) p' k =
          if k % 32 ^ (l + 1) = id % 32 ^ (l + 1) then none else look (l + 1) (.layer bitmap ary count) k := by
    intro l bitmap ary count idFree hs hclean hn hq
    have hclear := hs.clear hn
    have hlook := @look_update α l bitmap ary count _ .null (bitmap &&& ~~~ (1#32 <<< (idrDigit l id).val)) (count - 1) id
      rfl hq
    split
    case isTrue hz =>
      refine ⟨.null, _, rfl, .inl rfl, hclear.clean_cons hz hclean, fun k => ?_⟩
      rw [look_null, ← hlook k, look_layer, slotCount_eq_zero (hclear.count_eq.symm.trans hz), look_null]
    case isFalse => exact ⟨_, _, rfl, .inr hclear, hclean, hlook⟩
  induction l generalizing p with
  | zero =>
    obtain ⟨bitmap, ary, count, rfl, -⟩ := hp
    rw [look_layer] at hsome
    have hu := (hs.child (idrDigit 0 id)).resolve_left fun h => hsome (by rw [h, look_null])
    have hbit : bitmap.getLsbD (idrDigit 0 id) = true := (hs.bits _).mpr fun k => by
      obtain ⟨a, ha⟩ := hu
      simp [ha, look]
    rw [subRemoveFrom, if_pos hbit]
    exact hdrop hs hclean hu.not_null fun k => by simp [Nat.mod_one]
  | succ l ih =>
    obtain ⟨bitmap, ary, count, rfl, -⟩ := hp
    rw [look_layer] at hsome
    have hq := (hs.child (idrDigit (l + 1) id)).resolve_left fun h => hsome (by rw [h, look_null])
    obtain ⟨q', idFree', e, hq', hclean', hlook⟩ := ih hq hsome hq
    rw [subRemoveFrom]
    dsimp only
    rw [e]
    rcases hq' with rfl | hq'
    · exact hdrop hs hclean' hq.not_null hlook
    · have hfull : ¬ Full (l + 1) q' := fun h => h id (by rw [hlook, if_pos rfl])
      refine ⟨_, idFree', ?_, .inr (hs.replace hq.not_null hq' hfull), hclean', look_update rfl hlook⟩
      obtain ⟨_, _, _, rfl, -⟩ := hq'
      rfl

end Shrink

section Calls

variable {α : Type} {idp : IdrContext α} {map : Nat → Option α}

/-! ## The tree and the map -/

/-- The tree holds what the map does. -/
structure IdrOk (idp : IdrContext α) (map : Nat → Option α) : Prop where
  clean : Clean idp.idFree
  layers_le : idp.layers ≤ 6
  shape : (idp.layers = 0 ∧ idp.top = .null) ∨ (0 < idp.layers ∧ Sound idp.layers idp.top)
  below : ∀ id, id < 32 ^ idp.layers → look idp.layers idp.top id = map id
  above : ∀ id, 32 ^ idp.layers ≤ id → map id = none

/-- The search from the id on does not leave the last entry of a layer that is not at the bottom, where that entry is
not full. -/
def StaysBelow (map : Nat → Option α) (id : Nat) : Prop :=
  ∀ e, 1 ≤ e → idrDigit e id = 31 → (∀ k, id ≤ k → k / 32 ^ e = id / 32 ^ e → map k ≠ none) →
    ∀ k, k / 32 ^ e = id / 32 ^ e → map k ≠ none

theorem noCarry_of_map {d id : Nat} {s : Slot α} (h : StaysBelow map id)
    (hlook : ∀ k, k / 32 ^ d = id / 32 ^ d → look d s k = map k) : NoCarry d s id := by
  induction d generalizing s with
  | zero => trivial
  | succ d ih =>
    cases d with
    | zero => cases s <;> trivial
    | succ d =>
      cases s with
      | null => trivial
      | user => trivial
      | layer bitmap ary count =>
        have hchild : ∀ k, k / 32 ^ (d + 1) = id / 32 ^ (d + 1) → look (d + 1) (ary (idrDigit (d + 1) id)) k = map k := by
          intro k hk
          have hdig : idrDigit (d + 1) k = idrDigit (d + 1) id := by
            refine Fin.ext ?_
            rw [idrDigit_val, idrDigit_val, hk]
          rw [← hdig, ← look_layer]
          refine hlook k ?_
          rw [div_pow_succ, hk, ← div_pow_succ]
        refine ⟨fun h31 hex => ?_, ih hchild⟩
        rw [h31] at hchild
        intro k
        -- the same place in the part of the tree that the id is in
        have hpos : 0 < 32 ^ (d + 1) := Nat.pow_pos (by decide)
        have hk' : (32 ^ (d + 1) * (id / 32 ^ (d + 1)) + k % 32 ^ (d + 1)) / 32 ^ (d + 1) = id / 32 ^ (d + 1) := by
          rw [Nat.mul_add_div hpos, Nat.div_eq_of_lt (Nat.mod_lt _ hpos), Nat.add_zero]
        have hsame : look (d + 1) (ary 31) k =
            look (d + 1) (ary 31) (32 ^ (d + 1) * (id / 32 ^ (d + 1)) + k % 32 ^ (d + 1)) := by
          refine look_congr ?_
          rw [Nat.mul_add_mod, Nat.mod_mod]
        rw [hsame, hchild _ hk']
        refine h (d + 1) (by omega) h31 (fun k h1 h2 => ?_) _ hk'
        rw [← hchild k h2]
        exact hex k h1 h2

/-- An id that is a power of 32 has no digit 31. -/
theorem staysBelow_pow (l : Nat) : StaysBelow map (32 ^ l) := by
  intro e _ h31
  exfalso
  have hval := congrArg Fin.val h31
  rw [idrDigit_val] at hval
  rcases Nat.lt_trichotomy e l with h | rfl | h
  · obtain ⟨j, rfl⟩ := Nat.exists_eq_add_of_lt h
    rw [show 32 ^ (e + j + 1) = 32 ^ e * (32 ^ j * 32) by rw [Nat.pow_succ, Nat.pow_add, Nat.mul_assoc],
      Nat.mul_div_cancel_left _ (Nat.pow_pos (by decide)), Nat.mul_mod_left] at hval
    cases hval
  · rw [Nat.div_self (Nat.pow_pos (by decide))] at hval
    cases hval
  · rw [Nat.div_eq_of_lt (Nat.pow_lt_pow_right (by decide) h)] at hval
    cases hval

/-! ## Allocating -/

/-- The least id from `start` on that is not in use. -/
structure LeastFree (map : Nat → Option α) (start id : Nat) : Prop where
  ge : start ≤ id
  free : map id = none
  least : ∀ k, start ≤ k → k < id → map k ≠ none

/-- One round of the search, in a tree that has room for the id. -/
theorem subAlloc_ok {ptr : α} {L id : Nat} {top : Slot α} {idFree : List (Slot α)} (hs : Sound (L + 1) top) (hL : L + 1 ≤ 6)
    (hclean : Clean idFree) (hlen : L ≤ idFree.length) (hid : id < 32 ^ (L + 1)) (hstays : StaysBelow map id)
    (hbelow : ∀ k, k < 32 ^ (L + 1) → look (L + 1) top k = map k) (habove : ∀ k, 32 ^ (L + 1) ≤ k → map k = none) :
    ((∀ k, id ≤ k → k < 32 ^ (L + 1) → map k ≠ none) ∧
      subAlloc ptr ⟨top, idFree, L + 1⟩ id = some (.up (32 ^ (L + 1)), ⟨top, idFree, L + 1⟩)) ∨
    ∃ id' idp', subAlloc ptr ⟨top, idFree, L + 1⟩ id = some (.found id', idp') ∧ LeastFree map id id' ∧
      id' < 32 ^ idp'.layers ∧ IdrOk idp' (update map id' (some ptr)) := by
  have hpart : ∀ k, k / 32 ^ (L + 1) = id / 32 ^ (L + 1) ↔ k < 32 ^ (L + 1) := fun k => by
    rw [Nat.div_eq_of_lt hid, Nat.div_eq_zero_iff]
    have : 32 ^ (L + 1) ≠ 0 := Nat.pos_iff_ne_zero.mp (Nat.pow_pos (by decide))
    tauto
  have hmax : (id / 32 ^ (L + 1) + 1) * 32 ^ (L + 1) ≤ maxIdBit := by
    rw [Nat.div_eq_of_lt hid, Nat.zero_add, Nat.one_mul]
    calc 32 ^ (L + 1) ≤ 32 ^ 6 := Nat.pow_le_pow_right (by decide) hL
      _ ≤ maxIdBit := by decide
  have hcarry : NoCarry (L + 1) top id := noCarry_of_map hstays fun k hk => hbelow k ((hpart k).mp hk)
  have hlvl : ¬ maxLevel ≤ L + 1 := by
    unfold maxLevel
    omega
  unfold subAlloc
  rw [if_neg hlvl]
  dsimp only
  rw [Nat.add_sub_cancel]
  rcases @subAllocFrom_ok α ptr L top idFree id hs hclean hlen hmax hcarry with ⟨hex, e⟩ | ⟨id', top', idFree', e, hf, hcl, -⟩
  · refine .inl ⟨fun k h1 h2 => ?_, ?_⟩
    · rw [← hbelow k h2]
      exact hex k h1 ((hpart k).mpr h2)
    · rw [e, Nat.div_eq_of_lt hid, Nat.zero_add, Nat.one_mul]
      rfl
  · right
    have hid' : id' < 32 ^ (L + 1) := (hpart id').mp hf.base
    refine ⟨id', ⟨top', idFree', L + 1⟩, by rw [e]; rfl, ⟨hf.ge, ?_, fun k h1 h2 => ?_⟩, hid', ?_⟩
    · rw [← hbelow id' hid']
      exact hf.was
    · rw [← hbelow k (by omega)]
      exact hf.least k h1 h2
    · refine ⟨hcl, hL, .inr ⟨Nat.succ_pos L, hf.sound⟩, fun k hk => ?_, fun k hk => ?_⟩
      · rw [hf.look_eq, Nat.mod_eq_of_lt hk, Nat.mod_eq_of_lt hid']
        by_cases h : k = id'
        · rw [if_pos h, h, update_self]
        · rw [if_neg h, update_of_ne h, hbelow k hk]
      · have hk' : 32 ^ (L + 1) ≤ k := hk
        rw [update_of_ne (by omega), habove k hk]

/-- The tree as the loop that adds layers starts with it: an empty one is given its first layer. -/
theorem IdrOk.start (h : IdrOk idp map) (hroom : 14 ≤ idp.idFree.length + idp.layers) :
    ∃ p L idFree, firstLayer idp = some (p, L + 1, idFree) ∧ Sound (L + 1) p ∧ L + 1 ≤ 6 ∧
      Clean idFree ∧ 14 ≤ idFree.length + (L + 1) ∧ (∀ k, k < 32 ^ (L + 1) → look (L + 1) p k = map k) ∧
      ∀ k, 32 ^ (L + 1) ≤ k → map k = none := by
  rcases h.shape with ⟨hl, htop⟩ | ⟨hpos, hs⟩
  · obtain ⟨rest, halloc, hrest, hlen⟩ := allocLayer_ok h.clean (by omega)
    have hnone : ∀ k, map k = none := by
      intro k
      by_cases hk : k < 32 ^ idp.layers
      · rw [← h.below k hk, htop, look_null]
      · exact h.above k (Nat.le_of_not_lt hk)
    refine ⟨.zero, 0, rest, by rw [firstLayer, htop, halloc]; rfl, sound_zero 0, by decide, hrest, by omega, fun k _ => ?_,
      fun k _ => hnone k⟩
    rw [look_zero, hnone]
  · obtain ⟨L, hL⟩ := Nat.exists_eq_succ_of_ne_zero (Nat.pos_iff_ne_zero.mp hpos)
    rw [hL] at hs
    refine ⟨idp.top, L, idp.idFree, ?_, hs, by have := h.layers_le; omega, h.clean, by omega, ?_, ?_⟩
    · obtain ⟨bitmap, ary, count, htop, -⟩ := hs
      rw [firstLayer, htop, hL]
    · rw [← Nat.succ_eq_add_one, ← hL]
      exact h.below
    · rw [← Nat.succ_eq_add_one, ← hL]
      exact h.above

/-- One round of the search for an id: it finds the least one that is free, or every id of the tree is in use. -/
theorem buildUp_round {ptr : α} {fuel id : Nat} (h : IdrOk idp map) (hroom : 14 ≤ idp.idFree.length + idp.layers)
    (hid : id < 32 ^ 6) (hstays : StaysBelow map id) :
    (∃ (id' : Nat) (idp' : IdrContext α), buildUp ptr (fuel + 1) idp id = some ((id' : Int), idp') ∧ LeastFree map id id' ∧
      id' < 32 ^ idp'.layers ∧ IdrOk idp' (update map id' (some ptr))) ∨
    ∃ idp', buildUp ptr (fuel + 1) idp id = buildUp ptr fuel idp' (32 ^ idp'.layers) ∧ IdrOk idp' map ∧
      14 ≤ idp'.idFree.length + idp'.layers ∧ id < 32 ^ idp'.layers ∧
      ∀ k, id ≤ k → k < 32 ^ idp'.layers → map k ≠ none := by
  obtain ⟨p, L, idFree, e, hs, hL, hcl, hlen, hbelow, habove⟩ := h.start hroom
  obtain ⟨p', L', idFree', e', hs', hle, h6, hlt, hold, hnew, hcl', hlen'⟩ :=
    @addLayers_ok α id maxLevel L [] p idFree hs hid hL (by unfold maxLevel; omega) hcl (by omega)
  have hmono : 32 ^ (L + 1) ≤ 32 ^ (L' + 1) := Nat.pow_le_pow_right (by decide) (by omega)
  have hbelow' : ∀ k, k < 32 ^ (L' + 1) → look (L' + 1) p' k = map k := by
    intro k hk
    by_cases hkL : k < 32 ^ (L + 1)
    · rw [hold k hkL, hbelow k hkL]
    · rw [hnew k (Nat.le_of_not_lt hkL) hk, habove k (Nat.le_of_not_lt hkL)]
  have habove' : ∀ k, 32 ^ (L' + 1) ≤ k → map k = none := fun k hk => habove k (hmono.trans hk)
  rw [buildUp, e]
  dsimp only
  rw [e']
  dsimp only
  rcases @subAlloc_ok α map ptr L' id p' idFree' hs' h6 hcl' (by omega) hlt hstays hbelow' habove' with
    ⟨hused, es⟩ | ⟨id', idp', es, hleast, hlt', hok⟩
  · refine .inr ⟨⟨p', idFree', L' + 1⟩, by rw [es], ⟨hcl', h6, .inr ⟨Nat.succ_pos L', hs'⟩, hbelow', habove'⟩, ?_, hlt, hused⟩
    show 14 ≤ idFree'.length + (L' + 1)
    omega
  · exact .inl ⟨id', idp', by rw [es], hleast, hlt', hok⟩

/-- The pointer is stored under the least id that is free. -/
theorem idrGetNewAboveInt_ok {ptr : α} {start : Nat} (h : IdrOk idp map) (hstays : StaysBelow map start)
    (hfree : ∃ k, start ≤ k ∧ k < 2 ^ 30 ∧ map k = none) :
    ∃ (id' : Nat) (idp' : IdrContext α), idrGetNewAboveInt idp ptr start = some ((id' : Int), idp') ∧
      LeastFree map start id' ∧ id' < 32 ^ idp'.layers ∧ IdrOk idp' (update map id' (some ptr)) := by
  obtain ⟨k, hk1, hk2, hk⟩ := hfree
  obtain ⟨hclean, hlen⟩ := idrPreGet_ok h.clean
  have h₀ : IdrOk { idp with idFree := idrPreGet idp.idFree } map := ⟨hclean, h.layers_le, h.shape, h.below, h.above⟩
  unfold idrFreeMax at hlen
  have hroom : 14 ≤ (idrPreGet idp.idFree).length + idp.layers := by omega
  rw [show (2 : Nat) ^ 30 = 32 ^ 6 from rfl] at hk2
  unfold idrGetNewAboveInt maxLevel
  rcases @buildUp_round α _ map ptr 7 start h₀ hroom (by omega) hstays with hfound | ⟨idp', e, hok, hroom', hlt, hused⟩
  · exact hfound
  · -- every id of the tree is in use: the search goes on behind it, where none is
    have hge : 32 ^ idp'.layers ≤ k := by
      by_contra hlt'
      exact hused k hk1 (Nat.lt_of_not_le hlt') hk
    rcases @buildUp_round α idp' map ptr 6 (32 ^ idp'.layers) hok hroom' (by omega) (staysBelow_pow _) with
      ⟨id', idp'', e', hleast, hlt', hok'⟩ | ⟨idp'', -, -, -, hlt', hused'⟩
    · refine ⟨id', idp'', e.trans e', ⟨hlt.le.trans hleast.ge, hleast.free, fun j h1 h2 => ?_⟩, hlt', hok'⟩
      by_cases hj : j < 32 ^ idp'.layers
      · exact hused j h1 hj
      · exact hleast.least j (Nat.le_of_not_lt hj) h2
    · exact absurd (hok.above _ le_rfl) (hused' _ le_rfl hlt')

/-! ## Removing and finding -/

/-- An id outside of the tree falls on one that is in it, by its low digits. -/
def Aliased (idp : IdrContext α) (map : Nat → Option α) (id : Nat) : Prop :=
  32 ^ idp.layers ≤ id ∧ map (id % 32 ^ idp.layers) ≠ none

theorem IdrOk.look_eq {id : Nat} (h : IdrOk idp map) (halias : ¬ Aliased idp map id) :
    look idp.layers idp.top id = map id := by
  have hpos : 0 < 32 ^ idp.layers := Nat.pow_pos (by decide)
  have hlook : look idp.layers idp.top id = map (id % 32 ^ idp.layers) := by
    rw [← h.below _ (Nat.mod_lt _ hpos)]
    exact look_congr (Nat.mod_mod ..).symm
  rw [hlook]
  by_cases hid : id < 32 ^ idp.layers
  · rw [Nat.mod_eq_of_lt hid]
  · rw [h.above id (Nat.le_of_not_lt hid)]
    by_contra hne
    exact halias ⟨Nat.le_of_not_lt hid, hne⟩

theorem slotCount_one {ary : Fin 32 → Slot α} (h : slotCount ary = 1) (h0 : (ary 0).isNull = false) {i : Fin 32}
    (hi : i ≠ 0) : ary i = .null := by
  have hclear := slotCount_clear h0
  rw [h] at hclear
  have hnull := slotCount_eq_zero hclear i
  rw [update_of_ne hi] at hnull
  exact hnull

theorem dropLayer_ok (h : IdrOk idp map) : IdrOk (dropLayer idp) map := by
  unfold dropLayer
  split
  case h_2 => exact h
  case h_1 bitmap ary count htop =>
    split
    case h_1 => exact h
    case h_2 hne =>
      split
      case isFalse => exact h
      case isTrue hdrop =>
        obtain ⟨hcount, hlayers⟩ := hdrop
        obtain ⟨d, hd⟩ : ∃ d, idp.layers = d + 2 := ⟨idp.layers - 2, by omega⟩
        have hs : Sound (d + 2) (.layer bitmap ary count) := by
          rcases h.shape with ⟨h0, -⟩ | ⟨-, hs⟩
          · omega
          · rwa [hd, htop] at hs
        have h0 := (hs.child 0).resolve_left hne
        have hrest : ∀ i, i ≠ 0 → ary i = .null := fun i hi =>
          slotCount_one (hs.count_eq.symm.trans hcount) h0.not_null hi
        have hmono : 32 ^ (d + 1) ≤ 32 ^ (d + 2) := Nat.pow_le_pow_right (by decide) (by omega)
        have hbelow : ∀ k, k < 32 ^ (d + 2) → look (d + 2) (.layer bitmap ary count) k = map k := by
          rw [← htop, ← hd]
          exact h.below
        rw [hd]
        refine ⟨fun q hq => ?_, by have := h.layers_le; show d + 1 ≤ 6; omega, .inr ⟨Nat.succ_pos d, h0⟩, fun k hk => ?_,
          fun k hk => ?_⟩
        · rcases List.mem_cons.mp hq with rfl | hq
          · exact ⟨ary, rfl, hrest⟩
          · exact h.clean q hq
        · have hk' : k < 32 ^ (d + 1) := hk
          rw [← hbelow k (hk'.trans_le hmono), look_layer, idrDigit_of_lt hk']
          rfl
        · have hk' : 32 ^ (d + 1) ≤ k := hk
          by_cases hk2 : k < 32 ^ (d + 2)
          · rw [← hbelow k hk2, look_layer, hrest _ (idrDigit_ne_zero hk' hk2), look_null]
          · refine h.above k ?_
            rw [hd]
            exact Nat.le_of_not_lt hk2

theorem IdrOk.trim (h : IdrOk idp map) (n : Nat) : IdrOk { idp with idFree := idp.idFree.drop n } map :=
  ⟨fun q hq => h.clean q (List.mem_of_mem_drop hq), h.layers_le, h.shape, h.below, h.above⟩

/-- An id is removed if and only if it is in use. -/
theorem idrRemove_ok {id : Nat} (h : IdrOk idp map) (halias : ¬ Aliased idp map id) :
    ∃ idp', idrRemove idp id = some ((map id).isSome, idp') ∧ IdrOk idp' (update map id none) := by
  have hlvl : ¬ maxLevel ≤ idp.layers := by
    have := h.layers_le
    unfold maxLevel
    omega
  have hlook := h.look_eq halias
  rw [idrRemove, if_neg hlvl]
  cases hm : map id with
  | none =>
    have habsent : subRemoveFrom (idp.layers - 1) idp.top idp.idFree id = (false, idp.top, idp.idFree) := by
      rcases h.shape with ⟨h0, htop⟩ | ⟨hpos, hs⟩
      · rw [htop, h0]
        rfl
      · have hd : idp.layers - 1 + 1 = idp.layers := Nat.sub_add_cancel hpos
        refine subRemoveFrom_absent (.inr ?_) ?_
        · rwa [hd]
        · rw [hd, hlook, hm]
    rw [habsent]
    refine ⟨idp, rfl, ?_⟩
    rw [update_eq_self_iff.mpr hm.symm]
    exact h
  | some ptr =>
    have hid : id < 32 ^ idp.layers := by
      by_contra hge
      rw [h.above id (Nat.le_of_not_lt hge)] at hm
      cases hm
    rcases h.shape with ⟨h0, htop⟩ | ⟨hpos, hs⟩
    · rw [htop, look_null, hm] at hlook
      cases hlook
    obtain ⟨L, hL⟩ : ∃ L, idp.layers = L + 1 := ⟨idp.layers - 1, by omega⟩
    have hbelow := h.below
    have habove := h.above
    rw [hL] at hs hlook hid hbelow habove
    obtain ⟨top', idFree', e, hs', hcl, hlook'⟩ := subRemoveFrom_present hs h.clean (by rw [hlook, hm]; simp)
    have hbelow' : ∀ k, k < 32 ^ (L + 1) → look (L + 1) top' k = update map id none k := by
      intro k hk
      rw [hlook', Nat.mod_eq_of_lt hk, Nat.mod_eq_of_lt hid]
      by_cases hki : k = id
      · rw [if_pos hki, hki, update_self]
      · rw [if_neg hki, update_of_ne hki, hbelow k hk]
    have habove' : ∀ k, 32 ^ (L + 1) ≤ k → update map id none k = none := by
      intro k hk
      rw [update_of_ne (by omega), habove k hk]
    rw [hL, Nat.add_sub_cancel, e]
    refine ⟨_, rfl, IdrOk.trim (dropLayer_ok ?_) _⟩
    rcases hs' with rfl | hs'
    · have hnone : ∀ k, update map id none k = none := by
        intro k
        by_cases hk : k < 32 ^ (L + 1)
        · rw [← hbelow' k hk, look_null]
        · exact habove' k (Nat.le_of_not_lt hk)
      refine ⟨hcl, Nat.zero_le 6, .inl ⟨rfl, rfl⟩, fun k _ => ?_, fun k _ => hnone k⟩
      rw [hnone, look_null]
    · have hlayers : L + 1 ≤ 6 := hL ▸ h.layers_le
      have hshape := hs'
      obtain ⟨bitmap, ary, count, rfl, -⟩ := hshape
      exact ⟨hcl, hlayers, .inr ⟨Nat.succ_pos L, hs'⟩, hbelow', habove'⟩

theorem findWalk_ok {d id : Nat} {s : Slot α} (h : s = .null ∨ Sound d s) : findWalk d s id = some (look d s id) := by
  induction d generalizing s with
  | zero =>
    rcases h with rfl | ⟨ptr, rfl⟩
    · rfl
    · rfl
  | succ d ih =>
    rcases h with rfl | ⟨bitmap, ary, count, rfl, hch, -⟩
    · rfl
    · rw [findWalk, ih (hch _), look_layer]

/-- The pointer under an id is found, in a tree of at most five layers. -/
theorem idrFind_ok {id : Nat} (h : IdrOk idp map) (hlayers : idp.layers ≤ 5)
    (halias : 32 ^ (idp.layers + 1) ≤ id ∨ ¬ Aliased idp map id) : idrFind idp id = some (map id) := by
  have hpow : idp.layers * idrBits + idrBits = idrBits * (idp.layers + 1) := by ring
  have hshift : id >>> (idp.layers * idrBits + idrBits) = id / 32 ^ (idp.layers + 1) := by
    rw [hpow, Nat.shiftRight_eq_div_pow, shiftLeft_idrBits]
  have hdef : ¬ 32 ≤ idp.layers * idrBits + idrBits := by
    unfold idrBits
    omega
  unfold idrFind
  rw [if_neg hdef, hshift]
  have hpos : 0 < 32 ^ (idp.layers + 1) := Nat.pow_pos (by decide)
  split
  case isTrue hout =>
    have hge : 32 ^ (idp.layers + 1) ≤ id := by
      by_contra hlt
      exact hout (Nat.div_eq_of_lt (Nat.lt_of_not_le hlt))
    rw [h.above id ((Nat.pow_le_pow_right (by decide) (Nat.le_succ _)).trans hge)]
  case isFalse hin =>
    have hlt : ¬ 32 ^ (idp.layers + 1) ≤ id := by
      intro hge
      exact hin (Nat.pos_iff_ne_zero.mp (Nat.div_pos hge hpos))
    rw [findWalk_ok (h.shape.imp And.right And.right), h.look_eq (halias.resolve_left hlt)]

end Calls

section Runs

variable {α : Type} {idp : IdrContext α} {map : Nat → Option α}

/-! ## Runs of calls -/

/-- A call of the public interface. -/
inductive IdrCall (α : Type)
  | getNew (ptr : α) (limit : Nat)
  | getNewAbove (ptr : α) (startingId limit : Nat)
  | remove (id : Nat)
  | find (id : Nat)

/-- What a call returns. -/
inductive IdrAnswer (α : Type)
  | id (ret : Int)
  | removed (ok : Bool)
  | ptr (p : Option α)

/-- What a call answers, and the context it leaves. -/
def IdrCall.run (idp : IdrContext α) : IdrCall α → Option (IdrAnswer α × IdrContext α)
  | .getNew ptr limit => (idrGetNew idp ptr limit).map fun res => (.id res.1, res.2)
  | .getNewAbove ptr startingId limit => (idrGetNewAbove idp ptr startingId limit).map fun res => (.id res.1, res.2)
  | .remove id => (idrRemove idp id).map fun res => (.removed res.1, res.2)
  | .find id => (idrFind idp id).map fun p => (.ptr p, idp)

/-- The pointers under the ids in use after a call, by what it returned. -/
def IdrCall.after (map : Nat → Option α) : IdrCall α → IdrAnswer α → Nat → Option α
  | .getNew ptr _, .id ret => if 0 ≤ ret then update map ret.toNat (some ptr) else map
  | .getNewAbove ptr _ _, .id ret => if 0 ≤ ret then update map ret.toNat (some ptr) else map
  | .remove id, .removed true => update map id none
  | _, _ => map

/-- The id that a map gives out: the least one that is free, if that is not above the limit. -/
def GivesOut (map : Nat → Option α) (startingId limit : Nat) (ret : Int) : Prop :=
  (∃ id : Nat, ret = id ∧ id ≤ limit ∧ LeastFree map startingId id) ∨
    ret = -1 ∧ ∀ k, startingId ≤ k → k ≤ limit → map k ≠ none

/-- What a map from ids to pointers answers. -/
def IdrCall.Answers (map : Nat → Option α) : IdrCall α → IdrAnswer α → Prop
  | .getNew _ limit, .id ret => GivesOut map 0 limit ret
  | .getNewAbove _ startingId limit, .id ret => GivesOut map startingId limit ret
  | .remove id, .removed ok => ok = (map id).isSome
  | .find id, .ptr p => p = map id
  | _, _ => False

/-- The calls that the tree answers as a map does. -/
def IdrCall.Meets (idp : IdrContext α) (map : Nat → Option α) : IdrCall α → Prop
  | .getNew _ _ => ∃ k, k < 2 ^ 30 ∧ map k = none
  | .getNewAbove _ startingId _ => StaysBelow map startingId ∧ ∃ k, startingId ≤ k ∧ k < 2 ^ 30 ∧ map k = none
  | .remove id => ¬ Aliased idp map id
  | .find id => idp.layers ≤ 5 ∧ (32 ^ (idp.layers + 1) ≤ id ∨ ¬ Aliased idp map id)

theorem staysBelow_zero : StaysBelow map 0 := by
  intro e _ h31
  have hval := congrArg Fin.val h31
  rw [idrDigit_val, Nat.zero_div] at hval
  cases hval

theorem idrGetNewAbove_ok {ptr : α} {start limit : Nat} (h : IdrOk idp map) (hstays : StaysBelow map start)
    (hfree : ∃ k, start ≤ k ∧ k < 2 ^ 30 ∧ map k = none) :
    ∃ ret idp', idrGetNewAbove idp ptr start limit = some (ret, idp') ∧ GivesOut map start limit ret ∧
      IdrOk idp' (if 0 ≤ ret then update map ret.toNat (some ptr) else map) := by
  obtain ⟨id, idp', e, hleast, hlt, hok⟩ := @idrGetNewAboveInt_ok α idp map ptr start h hstays hfree
  unfold idrGetNewAbove
  rw [e]
  by_cases hlim : (limit : Int) < id
  · -- the id is above the limit: it is given back
    obtain ⟨idp'', e', hok'⟩ := @idrRemove_ok α idp' _ id hok fun halias => Nat.not_le_of_lt hlt halias.1
    refine ⟨-1, idp'', ?_, .inr ⟨rfl, fun k h1 h2 => hleast.least k h1 (by omega)⟩, ?_⟩
    · show (if (id : Int) > limit then _ else _) = _
      rw [if_pos hlim]
      show (idrRemove idp' (Int.toNat id)).bind _ = _
      rw [Int.toNat_natCast, e']
      rfl
    · rw [if_neg (by decide)]
      rwa [update_idem, update_eq_self_iff.mpr hleast.free.symm] at hok'
  · refine ⟨id, idp', ?_, .inl ⟨id, rfl, by omega, hleast⟩, ?_⟩
    · show (if (id : Int) > limit then _ else _) = _
      rw [if_neg hlim]
      rfl
    · rwa [if_pos (Int.natCast_nonneg id), Int.toNat_natCast]

/-- A call that meets the condition is answered as a map does, and keeps the tree and the map in step. -/
theorem IdrOk.call (h : IdrOk idp map) {c : IdrCall α} (hc : c.Meets idp map) :
    ∃ answer idp', c.run idp = some (answer, idp') ∧ c.Answers map answer ∧ IdrOk idp' (c.after map answer) := by
  cases c with
  | getNew ptr limit =>
    obtain ⟨k, hk, hnone⟩ := hc
    obtain ⟨ret, idp', e, hans, hok⟩ := @idrGetNewAbove_ok α idp map ptr 0 limit h staysBelow_zero
      ⟨k, Nat.zero_le k, hk, hnone⟩
    exact ⟨.id ret, idp', by rw [IdrCall.run, idrGetNew, e]; rfl, hans, hok⟩
  | getNewAbove ptr start limit =>
    obtain ⟨ret, idp', e, hans, hok⟩ := @idrGetNewAbove_ok α idp map ptr start limit h hc.1 hc.2
    exact ⟨.id ret, idp', by rw [IdrCall.run, e]; rfl, hans, hok⟩
  | remove id =>
    obtain ⟨idp', e, hok⟩ := idrRemove_ok h hc
    refine ⟨.removed (map id).isSome, idp', by rw [IdrCall.run, e]; rfl, rfl, ?_⟩
    cases hm : map id with
    | none => rwa [update_eq_self_iff.mpr hm.symm] at hok
    | some ptr => exact hok
  | find id => exact ⟨.ptr (map id), idp, by rw [IdrCall.run, idrFind_ok h hc.1 hc.2]; rfl, rfl, h⟩

/-- Runs of calls that meet the condition, on a fresh context: the context, and the pointers under the ids that the calls
so far have allocated and not removed. -/
def idtree (α : Type) : Transition.System (IdrContext α × (Nat → Option α)) (IdrCall α) where
  init s := s = (idrInit, fun _ => none)
  step s c s' := c.Meets s.1 s.2 ∧ ∃ answer, c.run s.1 = some (answer, s'.1) ∧ s'.2 = c.after s.2 answer

theorem reachable_idrOk {s : IdrContext α × (Nat → Option α)} (h : (idtree α).Reachable s) : IdrOk s.1 s.2 := by
  refine @Transition.System.Reachable.invariant _ _ (idtree α) (fun s => IdrOk s.1 s.2) ?_ ?_ s h
  · rintro _ rfl
    refine ⟨fun q hq => absurd hq List.not_mem_nil, Nat.zero_le 6, .inl ⟨rfl, rfl⟩, fun k _ => look_null .., fun k _ => rfl⟩
  · rintro s c s' hok ⟨hc, answer, e, hmap⟩
    obtain ⟨answer', idp', e', -, hok'⟩ := hok.call hc
    rw [e] at e'
    cases e'
    rw [hmap]
    exact hok'

/-- In every run of calls that meet the condition the tree answers as a map from ids to pointers does. -/
theorem reachable_idtree_answers {s : IdrContext α × (Nat → Option α)} (h : (idtree α).Reachable s) {c : IdrCall α}
    (hc : c.Meets s.1 s.2) : ∃ answer idp', c.run s.1 = some (answer, idp') ∧ c.Answers s.2 answer := by
  obtain ⟨answer, idp', e, hans, -⟩ := (reachable_idrOk h).call hc
  exact ⟨answer, idp', e, hans⟩

/-- The context after calls on a fresh one. -/
def contextAfter (calls : List (IdrCall Bool)) : IdrContext Bool :=
  calls.foldl (fun idp c => ((c.run idp).map Prod.snd).getD idp) idrInit

/-- Of two ids the first is removed: the second one is found, and the first is given out again. -/
theorem idtree_answers_removed :
    ∃ map : Nat → Option Bool, map 0 = none ∧ map 1 = some false ∧
      (∃ answer idp', (IdrCall.find 1).run (contextAfter [.getNew true 100, .getNew false 100, .remove 0]) =
        some (answer, idp') ∧ (IdrCall.find 1).Answers map answer) ∧
      ∃ answer idp', (IdrCall.getNew true 100).run (contextAfter [.getNew true 100, .getNew false 100, .remove 0]) =
        some (answer, idp') ∧ (IdrCall.getNew true 100).Answers map answer := by
  have hone : (idtree Bool).Reachable (contextAfter [.getNew true 100], update (fun _ => none) 0 (some true)) :=
    .step (.getNew true 100) (.init rfl) ⟨⟨0, by decide, rfl⟩, .id 0, rfl, rfl⟩
  have htwo : (idtree Bool).Reachable (contextAfter [.getNew true 100, .getNew false 100],
      update (update (fun _ => none) 0 (some true)) 1 (some false)) :=
    .step (.getNew false 100) hone ⟨⟨1, by decide, rfl⟩, .id 1, rfl, rfl⟩
  have hremoved : (idtree Bool).Reachable (contextAfter [.getNew true 100, .getNew false 100, .remove 0],
      update (update (update (fun _ => none) 0 (some true)) 1 (some false)) 0 none) :=
    .step (.remove 0) htwo ⟨fun h => absurd h.1 (by decide), .removed true, rfl, rfl⟩
  refine ⟨update (update (update (fun _ => none) 0 (some true)) 1 (some false)) 0 none,
    rfl, rfl, ?_, ?_⟩
  · exact reachable_idtree_answers hremoved ⟨by decide, .inr fun h => absurd h.1 (by decide)⟩
  · exact reachable_idtree_answers hremoved ⟨0, by decide, rfl⟩

/-- With one id in use, the id 32 is found and removed in its place. -/
theorem idtree_aliases : ∃ idp idp' : IdrContext Unit, (IdrCall.getNew () 100).run idrInit = some (.id 0, idp) ∧
    (IdrCall.find 32).run idp = some (.ptr (some ()), idp) ∧ (IdrCall.remove 32).run idp = some (.removed true, idp') ∧
    ¬ (IdrCall.find 32).Answers ((IdrCall.getNew () 100).after (fun _ => none) (.id 0)) (.ptr (some ())) ∧
    ¬ (IdrCall.remove 32).Answers ((IdrCall.getNew () 100).after (fun _ => none) (.id 0)) (.removed true) := by
  refine ⟨_, _, rfl, rfl, rfl, fun h => ?_, fun h => ?_⟩
  · have hnone : some () = none := h
    cases hnone
  · have hfalse : true = false := h
    cases hfalse

end Runs

end Samba.Util
