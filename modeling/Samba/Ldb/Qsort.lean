/-
The sort of ldb, a quicksort without recursion that leaves short pieces to an insertion sort at the end. The comparison may read the
array while it is sorted: the opaque pointer of the caller can point into it. What is proved is that the array comes out in order
whenever the comparison agrees with one order on every array that the sort makes, for which it is enough that it does so while one of
the last two places has an entry that is above all others.
-/
import Mathlib.Algebra.Ring.Int.Defs
import Mathlib.Algebra.Ring.Nat
import Samba.Lib.Shuffle

namespace Samba.Ldb

open List Option Shuffle

/-! ## The sort -/

/-- Partitions of no more than this many further entries are not sorted by quicksort. -/
def maxThresh : Nat := 4

section

variable {α : Type} (cmp : (Nat → α) → α → α → Int)

/-- `(*cmp)(i, j, opaque) < 0` on the array as it is. -/
def below (a : Nat → α) (i j : Nat) : Prop := cmp a (a i) (a j) < 0

instance (a : Nat → α) (i j : Nat) : Decidable (below cmp a i j) := inferInstanceAs (Decidable (_ < _))

/-- The median of the three is put at `mid`, and `lo` and `hi` to its sides. -/
def medianOfThree (a : Nat → α) (lo mid hi : Nat) : Nat → α :=
  let a := if below cmp a mid lo then exchange a mid lo else a
  if below cmp a hi mid then
    let a := exchange a mid hi
    if below cmp a mid lo then exchange a mid lo else a
  else a

/-- `left_ptr` goes up over what is below `mid`; `none` where it leaves the array, which has `room` entries from `left_ptr` on. -/
def scanUp (a : Nat → α) (mid : Nat) : (room left : Nat) → Option Nat
  | 0, _ => none
  | room + 1, left => if below cmp a left mid then scanUp a mid room (left + 1) else some left

/-- `right_ptr` goes down over what is above `mid`; `none` where it leaves the array. -/
def scanDown (a : Nat → α) (mid : Nat) : (right : Nat) → Option Nat
  | 0 => if below cmp a mid 0 then none else some 0
  | right + 1 => if below cmp a mid (right + 1) then scanDown a mid right else some (right + 1)

/-- Where the walls have met. -/
structure Walls (α : Type) where
  array : Nat → α
  left : Nat
  right : Nat

/-- The walls collapse: entries on the wrong sides of `mid` are exchanged until the pointers have met. -/
def collapseWalls (n : Nat) : (rounds : Nat) → (a : Nat → α) → (mid left right : Nat) → Option (Walls α)
  | 0, _, _, _, _ => none
  | rounds + 1, a, mid, left, right => do
    let left ← scanUp cmp a mid (n - left) left
    let right ← scanDown cmp a mid right
    if left < right then
      let a := exchange a left right
      -- the pivot is followed when it is one of the two
      let mid := if mid = left then right else if mid = right then left else mid
      if left + 1 ≤ right - 1 then collapseWalls n rounds a mid (left + 1) (right - 1)
      else some ⟨a, left + 1, right - 1⟩
    else if left = right then some ⟨a, left + 1, right - 1⟩
    else some ⟨a, left, right⟩

/-- `(size_t) (hi - lo) <= max_thresh`; the difference is large when `hi` is below `lo`. -/
def isShort (lo hi : Nat) : Prop := lo ≤ hi ∧ hi ≤ lo + maxThresh

instance (lo hi : Nat) : Decidable (isShort lo hi) := inferInstanceAs (Decidable (_ ∧ _))

/-- The partitions, with the pending ones on the stack. A partition that is turned around has its middle outside of the array. -/
def quickLoop (n : Nat) : (rounds : Nat) → (a : Nat → α) → (lo hi : Nat) → (stack : List (Nat × Nat)) → Option (Nat → α)
  | 0, _, _, _, _ => none
  | rounds + 1, a, lo, hi, stack => do
    if hi < lo then none
    else
      let mid := lo + (hi - lo) / 2
      let w ← collapseWalls cmp n n (medianOfThree cmp a lo mid hi) mid (lo + 1) (hi - 1)
      if isShort lo w.right then
        if isShort w.left hi then
          match stack with
          | [] => some w.array
          | (lo, hi) :: stack => quickLoop n rounds w.array lo hi stack
        else quickLoop n rounds w.array w.left hi stack
      else if isShort w.left hi then quickLoop n rounds w.array lo w.right stack
      else if (hi : Int) - w.left < (w.right : Int) - lo then quickLoop n rounds w.array w.left hi ((lo, w.right) :: stack)
      else quickLoop n rounds w.array lo w.right ((w.left, hi) :: stack)

/-- The smallest entry from the start to `thresh`. -/
def smallestOfFirst (a : Nat → α) : (thresh : Nat) → Nat
  | 0 => 0
  | thresh + 1 =>
    let smallest := smallestOfFirst a thresh
    if below cmp a (thresh + 1) smallest then thresh + 1 else smallest

/-- The insertion sort of `count` entries from `run` on: each goes down to behind the first that is not above it. -/
def insertLoop : (count run : Nat) → (a : Nat → α) → Option (Nat → α)
  | 0, _, a => some a
  | count + 1, run, a => do
    let behind ← scanDown cmp a run (run - 1)
    insertLoop count (run + 1) (if behind + 1 ≠ run then moveDown a (behind + 1) run else a)

/-- The quicksort, which leaves short partitions alone. -/
def quickPhase (n : Nat) (a : Nat → α) : Option (Nat → α) :=
  if maxThresh < n then quickLoop cmp n n a 0 (n - 1) [] else some a

/-- The smallest of the first entries goes to the start, where it ends every way down of the insertion sort. -/
def smallestToStart (n : Nat) (a : Nat → α) : Nat → α :=
  let smallest := smallestOfFirst cmp a (min (n - 1) maxThresh)
  if smallest ≠ 0 then exchange a smallest 0 else a

/-- `ldb_qsort` of the first `n` entries; `none` where it reads outside of them. -/
def ldbQsort (n : Nat) (a : Nat → α) : Option (Nat → α) :=
  if n = 0 then some a
  else do
    let a ← quickPhase cmp n a
    insertLoop cmp (n - 2) 2 (smallestToStart cmp n a)

/-- `ldb_qsort` of an array that is given by its entries. -/
def ldbQsortEntries : List α → Option (List α)
  | [] => some []
  | x :: xs => (ldbQsort cmp (xs.length + 1) fun i => (x :: xs).getD i x).map (entriesOf (xs.length + 1))

end

/-! ## Comparisons that follow an order -/

section

variable {α : Type} {cmp : (Nat → α) → α → α → Int} {key : α → Nat} {n slot lo hi mid left right : Nat} {a b : Nat → α}

/-- The comparison follows the order of `key` on every array that this one is turned into while the key at `slot` stays. No entry is
above that one, and the slot is one of the last two places; a slot outside of the array asks for nothing. -/
structure Follows (cmp : (Nat → α) → α → α → Int) (key : α → Nat) (n slot : Nat) (a : Nat → α) : Prop where
  agrees : ∀ b, Within 0 (n - 1) a b → key (b slot) = key (a slot) →
    ∀ i j, i < n → j < n → (below cmp b i j ↔ key (b i) < key (b j))
  top : ∀ i, slot < n → i < n → key (a i) ≤ key (a slot)
  near : n ≤ slot + 2

variable {front i j : Nat} {pending : List (Nat × Nat)}

theorem Follows.below_iff (h : Follows cmp key n slot a) (hi : i < n) (hj : j < n) :
    below cmp a i j ↔ key (a i) < key (a j) := h.agrees a (.refl _ _ _) rfl i j hi hj

theorem Follows.moved (h : Follows cmp key n slot a) (hab : Within 0 (n - 1) a b) (hslot : key (b slot) = key (a slot)) :
    Follows cmp key n slot b := by
  refine ⟨fun c hbc hc => h.agrees c (hab.trans hbc) (hc.trans hslot), fun i hs hi => ?_, h.near⟩
  obtain ⟨j, _, hj, hij⟩ := hab.from (Nat.zero_le i) (show i ≤ n - 1 by omega)
  rw [hij, hslot]
  exact h.top j hs (by omega)

/-- The exchange with an entry that is not below keeps the key at the slot. -/
theorem Follows.exchange_slot (h : Follows cmp key n slot a) (hi : i < n) (hj : j < n) (hslot : i ≠ slot)
    (hle : key (a j) ≤ key (a i)) : key (exchange a i j slot) = key (a slot) := by
  by_cases hsj : slot = j
  · subst hsj
    rw [exchange_right]
    exact Nat.le_antisymm (h.top i hj hi) hle
  · rw [exchange_other (Ne.symm hslot) hsj]

theorem Follows.exchange (h : Follows cmp key n slot a) (hi : i < n) (hj : j < n) (hslot : i ≠ slot)
    (hle : key (a j) ≤ key (a i)) : Follows cmp key n slot (exchange a i j) :=
  h.moved (within_exchange a ⟨Nat.zero_le i, by omega⟩ ⟨Nat.zero_le j, by omega⟩) (h.exchange_slot hi hj hslot hle)

theorem medianOfThree_spec (h : Follows cmp key n slot a) (hlo : lo < mid) (hmid : mid + 2 ≤ hi) (hhi : hi < n) :
    ∃ b, medianOfThree cmp a lo mid hi = b ∧ Within lo hi a b ∧ key (b slot) = key (a slot) ∧
      key (b lo) ≤ key (b mid) ∧ key (b mid) ≤ key (b hi) := by
  have hnear := h.near
  -- the first exchange, if there is one
  obtain ⟨c, hc, hac, hcs, hcle⟩ : ∃ c, (if below cmp a mid lo then exchange a mid lo else a) = c ∧ Within lo hi a c ∧
      key (c slot) = key (a slot) ∧ key (c lo) ≤ key (c mid) := by
    by_cases hlt : below cmp a mid lo
    · refine ⟨_, if_pos hlt, within_exchange a (by omega) (by omega), by rw [exchange_other (by omega) (by omega)], ?_⟩
      rw [h.below_iff (by omega) (by omega)] at hlt
      rw [exchange_right, exchange_left]
      omega
    · refine ⟨a, if_neg hlt, .refl _ _ _, rfl, ?_⟩
      rw [h.below_iff (by omega) (by omega)] at hlt
      omega
  have hfc : Follows cmp key n slot c := h.moved (hac.mono (Nat.zero_le _) (by omega)) hcs
  simp only [medianOfThree, hc]
  by_cases hlt : below cmp c hi mid
  · rw [if_pos hlt]
    rw [hfc.below_iff (by omega) (by omega)] at hlt
    have hfd := hfc.exchange (show mid < n by omega) hhi (by omega) (Nat.le_of_lt hlt)
    have hwd : Within lo hi a (exchange c mid hi) := hac.trans (within_exchange c (by omega) (by omega))
    have hsd : key (exchange c mid hi slot) = key (a slot) :=
      (hfc.exchange_slot (show mid < n by omega) hhi (by omega) (Nat.le_of_lt hlt)).trans hcs
    have hdlo : exchange c mid hi lo = c lo := exchange_other (by omega) (by omega)
    by_cases hlt' : below cmp (exchange c mid hi) mid lo
    · refine ⟨_, if_pos hlt', hwd.trans (within_exchange _ (by omega) (by omega)),
        by rwa [exchange_other (by omega) (by omega)], ?_, ?_⟩
      · rw [hfd.below_iff (by omega) (by omega)] at hlt'
        rw [exchange_right, exchange_left (exchange c mid hi)]
        omega
      · rw [exchange_left, exchange_other (show hi ≠ mid by omega) (show hi ≠ lo by omega), hdlo, exchange_right]
        exact hcle
    · refine ⟨_, if_neg hlt', hwd, hsd, ?_, ?_⟩
      · rw [hfd.below_iff (by omega) (by omega)] at hlt'
        omega
      · rw [exchange_left, exchange_right]
        omega
  · refine ⟨c, if_neg hlt, hac, hcs, hcle, ?_⟩
    rw [hfc.below_iff (by omega) (by omega)] at hlt
    omega

/-! ## The partition -/

/-- What is up to a mark stops the pointer that goes up. -/
theorem scanUp_spec (h : Follows cmp key n slot a) (hmid : mid < n) {mark : Nat} (hmark : mark < n)
    (hstop : key (a mid) ≤ key (a mark)) (hleft : left ≤ mark) :
    ∃ l, scanUp cmp a mid (n - left) left = some l ∧ left ≤ l ∧ l ≤ mark ∧ key (a mid) ≤ key (a l) ∧
      ∀ k, left ≤ k → k < l → key (a k) < key (a mid) := by
  induction hd : mark - left generalizing left with
  | zero =>
    obtain rfl : left = mark := by omega
    rw [show n - left = n - left - 1 + 1 by omega, scanUp, if_neg (by rw [h.below_iff hmark hmid]; omega)]
    exact ⟨left, rfl, Nat.le_refl _, Nat.le_refl _, hstop, fun k _ _ => by omega⟩
  | succ d ih =>
    rw [show n - left = n - (left + 1) + 1 by omega, scanUp]
    by_cases hlt : below cmp a left mid
    · rw [if_pos hlt]
      rw [h.below_iff (by omega) hmid] at hlt
      obtain ⟨l, hl, h1, h2, h3, h4⟩ := @ih (left + 1) (by omega) (by omega)
      refine ⟨l, hl, by omega, h2, h3, fun k hk hkl => ?_⟩
      rcases Nat.eq_or_lt_of_le hk with rfl | hk
      · exact hlt
      · exact h4 k hk hkl
    · rw [if_neg hlt]
      rw [h.below_iff (by omega) hmid] at hlt
      exact ⟨left, rfl, Nat.le_refl _, hleft, by omega, fun k _ _ => by omega⟩

theorem scanDown_spec (h : Follows cmp key n slot a) (hmid : mid < n) {mark : Nat} (hstop : key (a mark) ≤ key (a mid)) :
    ∀ right, mark ≤ right → right < n → ∃ r, scanDown cmp a mid right = some r ∧ mark ≤ r ∧ r ≤ right ∧
      key (a r) ≤ key (a mid) ∧ ∀ k, r < k → k ≤ right → key (a mid) < key (a k)
  | 0, hle, hn => by
    obtain rfl : mark = 0 := by omega
    rw [scanDown, if_neg (by rw [h.below_iff hmid hn]; omega)]
    exact ⟨0, rfl, Nat.le_refl _, Nat.le_refl _, hstop, fun k _ _ => by omega⟩
  | right + 1, hle, hn => by
    rw [scanDown]
    by_cases hlt : below cmp a mid (right + 1)
    · rw [if_pos hlt]
      rw [h.below_iff hmid hn] at hlt
      have hne : mark ≠ right + 1 := by
        rintro rfl
        omega
      obtain ⟨r, hr, h1, h2, h3, h4⟩ := scanDown_spec h hmid hstop right (by omega) (by omega)
      refine ⟨r, hr, h1, by omega, h3, fun k hk hkr => ?_⟩
      rcases Nat.eq_or_lt_of_le hkr with rfl | hkr
      · exact hlt
      · exact h4 k hk (by omega)
    · rw [if_neg hlt]
      rw [h.below_iff hmid hn] at hlt
      exact ⟨right + 1, rfl, hle, Nat.le_refl _, by omega, fun k _ _ => by omega⟩

/-- Between `lo` and `hi`, what is before `left` is no more than the pivot and what is behind `right` no less. -/
structure Parted (key : α → Nat) (pivot lo hi left right : Nat) (a : Nat → α) : Prop where
  before : ∀ k, lo ≤ k → k < left → key (a k) ≤ pivot
  behind : ∀ k, right < k → k ≤ hi → pivot ≤ key (a k)

/-- The walls meet with the entries parted, and both sides are shorter. -/
theorem collapseWalls_spec (hhi : hi < n) : ∀ rounds a mid left right, Follows cmp key n slot a → lo < left → left ≤ right →
    right < hi → lo ≤ mid → mid ≤ hi → Parted key (key (a mid)) lo hi left right a → right - left < rounds →
    ∃ w, collapseWalls cmp n rounds a mid left right = some w ∧ Within lo hi a w.array ∧ key (w.array slot) = key (a slot) ∧
      Parted key (key (a mid)) lo hi w.left w.right w.array ∧ lo ≤ w.right ∧ w.right < w.left ∧ w.left ≤ hi
  | 0, _, _, _, _, _, _, _, _, _, _, _, hr => absurd hr (Nat.not_lt_zero _)
  | rounds + 1, a, mid, left, right, hf, hlo, hlr, hrh, hmid, hmid', hpart, hr => by
    have hnear := hf.near
    obtain ⟨l, hl, hl1, hl2, hl3, hl4⟩ := scanUp_spec hf (show mid < n by omega) (show right + 1 < n by omega)
      (hpart.behind _ (Nat.lt_succ_self _) (by omega)) (show left ≤ right + 1 by omega)
    obtain ⟨r, hr', hr1, hr2, hr3, hr4⟩ := scanDown_spec hf (show mid < n by omega)
      (hpart.before (left - 1) (by omega) (by omega)) right (by omega) (by omega)
    have hbefore : ∀ k, lo ≤ k → k < l → key (a k) ≤ key (a mid) := fun k h1 h2 => by
      by_cases hk : k < left
      · exact hpart.before k h1 hk
      · exact Nat.le_of_lt (hl4 k (by omega) h2)
    have hbehind : ∀ k, r < k → k ≤ hi → key (a mid) ≤ key (a k) := fun k h1 h2 => by
      by_cases hk : right < k
      · exact hpart.behind k hk h2
      · exact Nat.le_of_lt (hr4 k h1 (by omega))
    simp only [collapseWalls, hl, hr', bind_eq_bind, bind_some]
    rcases Nat.lt_trichotomy l r with hlt | rfl | hgt
    · rw [if_pos hlt]
      have hsb := hf.exchange_slot (show l < n by omega) (show r < n by omega) (by omega) (Nat.le_trans hr3 hl3)
      have hwb : Within lo hi a (exchange a l r) := within_exchange a (by omega) (by omega)
      have hfb := hf.moved (hwb.mono (Nat.zero_le _) (by omega)) hsb
      have hpart' : Parted key (key (a mid)) lo hi (l + 1) (r - 1) (exchange a l r) := by
        refine ⟨fun k h1 h2 => ?_, fun k h1 h2 => ?_⟩
        · rcases Nat.eq_or_lt_of_le (Nat.le_of_lt_succ h2) with rfl | hk
          · rwa [exchange_left]
          · rw [exchange_other (by omega) (by omega)]
            exact hbefore k h1 hk
        · rcases Nat.eq_or_lt_of_le (show r ≤ k by omega) with rfl | hk
          · rwa [exchange_right]
          · rw [exchange_other (by omega) (by omega)]
            exact hbehind k hk h2
      obtain ⟨mid', hm', hlom, hmhi, hpivot⟩ : ∃ m, (if mid = l then r else if mid = r then l else mid) = m ∧
          lo ≤ m ∧ m ≤ hi ∧ exchange a l r m = a mid := by
        by_cases h1 : mid = l
        · exact ⟨r, if_pos h1, by omega, by omega, by rw [exchange_right, h1]⟩
        · by_cases h2 : mid = r
          · exact ⟨l, by rw [if_neg h1, if_pos h2], by omega, by omega, by rw [exchange_left, h2]⟩
          · exact ⟨mid, by rw [if_neg h1, if_neg h2], hmid, hmid', exchange_other h1 h2⟩
      rw [hm']
      by_cases hgo : l + 1 ≤ r - 1
      · rw [if_pos hgo]
        obtain ⟨w, hw, h1, h2, h3, h4⟩ := collapseWalls_spec hhi rounds (exchange a l r) mid' (l + 1) (r - 1) hfb (by omega) hgo
          (by omega) hlom hmhi (by rwa [hpivot]) (by omega)
        rw [hpivot] at h3
        exact ⟨w, hw, hwb.trans h1, h2.trans hsb, h3, h4⟩
      · rw [if_neg hgo]
        exact ⟨_, rfl, hwb, hsb, hpart', by dsimp only; omega, by dsimp only; omega, by dsimp only; omega⟩
    · rw [if_neg (Nat.lt_irrefl _), if_pos rfl]
      refine ⟨_, rfl, .refl _ _ _, rfl, ⟨fun k h1 h2 => ?_, fun k h1 h2 => ?_⟩, by dsimp only; omega, by dsimp only; omega,
        by dsimp only; omega⟩
      · rcases Nat.eq_or_lt_of_le (Nat.le_of_lt_succ h2) with rfl | hk
        · exact hr3
        · exact hbefore k h1 hk
      · rcases Nat.eq_or_lt_of_le (show l ≤ k by dsimp only at h1; omega) with rfl | hk
        · exact hl3
        · exact hbehind k hk h2
    · rw [if_neg (by omega), if_neg (by omega)]
      exact ⟨_, rfl, .refl _ _ _, rfl, ⟨hbefore, hbehind⟩, by dsimp only; omega, by dsimp only; omega, by dsimp only; omega⟩

/-! ## The pending partitions -/

/-- Two partitions without a common entry. -/
def Separate (p q : Nat × Nat) : Prop := p.2 < q.1 ∨ q.2 < p.1

/-- A smallest entry is at `front` or before it, the pending partition that starts the array ends at `front`, and the others are behind
it. Where no pending partition starts the array, `front` is in the part that the insertion sort searches for the smallest. -/
structure Front (key : α → Nat) (n front : Nat) (pending : List (Nat × Nat)) (a : Nat → α) : Prop where
  least : ∃ i, i ≤ front ∧ ∀ k, k < n → key (a i) ≤ key (a k)
  behind : ∀ q ∈ pending, front < q.1 ∨ q = (0, front)
  short : front ≤ maxThresh ∨ (0, front) ∈ pending
  separate : pending.Pairwise Separate

theorem Front.perm {pending' : List (Nat × Nat)} (h : Front key n front pending a)
    (hp : pending'.Perm pending) : Front key n front pending' a :=
  ⟨h.least, fun q hq => h.behind q (hp.mem_iff.1 hq), h.short.imp_right hp.mem_iff.2,
    (hp.pairwise_iff fun hpq => hpq.symm).2 h.separate⟩

theorem Front.drop (h : Front key n front ((lo, hi) :: pending) a)
    (hshort : hi ≤ lo + maxThresh) : Front key n front pending a := by
  refine ⟨h.least, fun q hq => h.behind q (mem_cons_of_mem _ hq), ?_, (pairwise_cons.1 h.separate).2⟩
  rcases h.short with hs | hs
  · exact Or.inl hs
  · rcases mem_cons.1 hs with heq | hs
    · obtain ⟨rfl, rfl⟩ := Prod.mk.inj heq
      exact Or.inl (by omega)
    · exact Or.inr hs

theorem Front.split {pivot : Nat} (h : Front key n front ((lo, hi) :: pending) a)
    (hn : hi < n) (hab : Within lo hi a b) (hpart : Parted key pivot lo hi left right b) (hlo : lo ≤ right) (hrl : right < left)
    (hhi : left ≤ hi) : ∃ front', Front key n front' ((lo, right) :: (left, hi) :: pending) b := by
  obtain ⟨i, hi1, hi2⟩ := h.least
  obtain ⟨haway, hrest⟩ := pairwise_cons.1 h.separate
  have hseparate : ((lo, right) :: (left, hi) :: pending).Pairwise Separate := by
    refine pairwise_cons.2 ⟨forall_mem_cons.2 ⟨Or.inl hrl, fun q hq => ?_⟩,
      pairwise_cons.2 ⟨fun q hq => ?_, hrest⟩⟩
    · exact (haway q hq).imp (fun hlt => Nat.lt_of_le_of_lt (show right ≤ hi by omega) hlt) id
    · exact (haway q hq).imp id (fun hlt => Nat.lt_of_lt_of_le hlt (show lo ≤ left by omega))
  rcases h.behind (lo, hi) mem_cons_self with hf | hf
  · -- the front is not touched
    refine ⟨front, ⟨i, hi1, fun k hk => ?_⟩, fun q hq => ?_, ?_, hseparate⟩
    · rw [hab.outside (Or.inl (by omega))]
      by_cases hin : lo ≤ k ∧ k ≤ hi
      · obtain ⟨j, h1, h2, h3⟩ := hab.from hin.1 hin.2
        rw [h3]
        exact hi2 j (by omega)
      · rw [hab.outside (by omega)]
        exact hi2 k hk
    · rcases mem_cons.1 hq with rfl | hq
      · exact Or.inl hf
      · rcases mem_cons.1 hq with rfl | hq
        · exact Or.inl (by dsimp only; omega)
        · exact h.behind q (mem_cons_of_mem _ hq)
    · rcases h.short with hs | hs
      · exact Or.inl hs
      · rcases mem_cons.1 hs with heq | hs
        · obtain ⟨rfl, rfl⟩ := Prod.mk.inj heq
          omega
        · exact Or.inr (mem_cons_of_mem _ (mem_cons_of_mem _ hs))
  · -- the front is the partition itself, and its left side the new one
    obtain ⟨rfl, rfl⟩ := Prod.mk.inj hf
    obtain ⟨j, h1, h2, h3⟩ := hab.to (Nat.zero_le i) hi1
    have hall : ∀ k, k < n → key (b j) ≤ key (b k) := fun k hk => by
      rw [h3]
      by_cases hin : k ≤ hi
      · obtain ⟨m, _, h5, h6⟩ := hab.from (Nat.zero_le k) hin
        rw [h6]
        exact hi2 m (by omega)
      · rw [hab.outside (Or.inr (by omega))]
        exact hi2 k hk
    refine ⟨right, ?_, fun q hq => ?_, Or.inr mem_cons_self, hseparate⟩
    · by_cases hj : j ≤ right
      · exact ⟨j, hj, hall⟩
      · refine ⟨0, Nat.zero_le _, fun k hk => ?_⟩
        have h4 := hpart.before 0 (Nat.zero_le _) (by omega)
        have h5 := hpart.behind j (by omega) h2
        have h6 := hall k hk
        omega
    · rcases mem_cons.1 hq with rfl | hq
      · exact Or.inr rfl
      · rcases mem_cons.1 hq with rfl | hq
        · exact Or.inl hrl
        · rcases h.behind q (mem_cons_of_mem _ hq) with hq' | rfl
          · exact Or.inl (by omega)
          · rcases haway _ hq with hlt | hlt
            · exact absurd hlt (Nat.not_lt_zero _)
            · exact absurd hlt (Nat.not_lt_zero _)

/-- How much is pending. -/
def width (pending : List (Nat × Nat)) : Nat := (pending.map fun q => q.2 - q.1).sum

@[simp] theorem width_cons (lo hi : Nat) (pending : List (Nat × Nat)) : width ((lo, hi) :: pending) = hi - lo + width pending := rfl

/-- A pending partition is long enough for the median of three, and inside of the array. -/
def Pending (n : Nat) (q : Nat × Nat) : Prop := q.1 + maxThresh ≤ q.2 ∧ q.2 < n

/-- The quicksort ends within its rounds, with a smallest entry in the part that the insertion sort searches. -/
theorem quickLoop_spec : ∀ rounds a lo hi stack front, Follows cmp key n slot a → (∀ q ∈ (lo, hi) :: stack, Pending n q) →
    Front key n front ((lo, hi) :: stack) a → width ((lo, hi) :: stack) < rounds →
    ∃ b, quickLoop cmp n rounds a lo hi stack = some b ∧ Within 0 (n - 1) a b ∧ key (b slot) = key (a slot) ∧
      ∃ i, i ≤ maxThresh ∧ ∀ k, k < n → key (b i) ≤ key (b k)
  | 0, _, _, _, _, _, _, _, _, hr => absurd hr (Nat.not_lt_zero _)
  | rounds + 1, a, lo, hi, stack, front, hf, hpend, hfront, hr => by
    obtain ⟨hlong, hhi⟩ := hpend (lo, hi) mem_cons_self
    have hstack : ∀ q ∈ stack, Pending n q := fun q hq => hpend q (mem_cons_of_mem _ hq)
    simp only [maxThresh] at hlong hhi
    rw [width_cons] at hr
    obtain ⟨m, hm, ham, hms, hm1, hm2⟩ := @medianOfThree_spec _ cmp key n slot lo hi (lo + (hi - lo) / 2) a hf (by omega) (by omega) hhi
    have hfm := hf.moved (ham.mono (Nat.zero_le _) (by omega)) hms
    obtain ⟨w, hw, hmw, hws, hpart, hw1, hw2, hw3⟩ := collapseWalls_spec hhi n m (lo + (hi - lo) / 2) (lo + 1) (hi - 1) hfm
      (show lo < lo + 1 by omega) (by omega) (by omega) (by omega) (by omega)
      ⟨fun k h1 h2 => (show k = lo by omega) ▸ hm1, fun k h1 h2 => (show k = hi by omega) ▸ hm2⟩ (by omega)
    have haw : Within lo hi a w.array := ham.trans hmw
    have haw' : Within 0 (n - 1) a w.array := haw.mono (Nat.zero_le _) (by omega)
    have hsw : key (w.array slot) = key (a slot) := hws.trans hms
    have hfw := hf.moved haw' hsw
    obtain ⟨front', hsplit⟩ := hfront.split hhi haw hpart hw1 hw2 hw3
    -- what follows from the rest of the run
    have hgo : ∀ lo' hi' stack', (∀ q ∈ (lo', hi') :: stack', Pending n q) → Front key n front' ((lo', hi') :: stack') w.array →
        width ((lo', hi') :: stack') < rounds →
        ∃ b, quickLoop cmp n rounds w.array lo' hi' stack' = some b ∧ Within 0 (n - 1) a b ∧ key (b slot) = key (a slot) ∧
          ∃ i, i ≤ maxThresh ∧ ∀ k, k < n → key (b i) ≤ key (b k) := fun lo' hi' stack' h1 h2 h3 => by
      obtain ⟨b, hb, hab, hbs, hleast⟩ := quickLoop_spec rounds w.array lo' hi' stack' front' hfw h1 h2 h3
      exact ⟨b, hb, haw'.trans hab, hbs.trans hsw, hleast⟩
    simp only [quickLoop, hm, hw, bind_eq_bind, bind_some]
    rw [if_neg (show ¬hi < lo by omega)]
    by_cases hshortL : isShort lo w.right
    · rw [if_pos hshortL]
      have hright := hsplit.drop hshortL.2
      by_cases hshortR : isShort w.left hi
      · rw [if_pos hshortR]
        have hrest := hright.drop hshortR.2
        cases stack with
        | nil =>
          obtain ⟨i, hi1, hi2⟩ := hrest.least
          have hshort := hrest.short.resolve_right not_mem_nil
          exact ⟨_, rfl, haw', hsw, i, by omega, hi2⟩
        | cons q stack => exact hgo _ _ _ hstack hrest (by rw [width_cons] at hr ⊢; omega)
      · rw [if_neg hshortR]
        have hlongR : Pending n (w.left, hi) := by
          unfold isShort at hshortR
          exact ⟨by dsimp only; omega, hhi⟩
        exact hgo _ _ _ (forall_mem_cons.2 ⟨hlongR, hstack⟩) hright (by rw [width_cons]; omega)
    · rw [if_neg hshortL]
      have hlongL : Pending n (lo, w.right) := by
        unfold isShort at hshortL
        exact ⟨by dsimp only; omega, by dsimp only; omega⟩
      by_cases hshortR : isShort w.left hi
      · rw [if_pos hshortR]
        exact hgo _ _ _ (forall_mem_cons.2 ⟨hlongL, hstack⟩) ((hsplit.perm (.swap _ _ _)).drop hshortR.2)
          (by rw [width_cons]; omega)
      · rw [if_neg hshortR]
        have hlongR : Pending n (w.left, hi) := by
          unfold isShort at hshortR
          exact ⟨by dsimp only; omega, hhi⟩
        have hboth := forall_mem_cons.2 ⟨hlongL, forall_mem_cons.2 ⟨hlongR, hstack⟩⟩
        by_cases hlarger : (hi : Int) - w.left < (w.right : Int) - lo
        · rw [if_pos hlarger]
          exact hgo _ _ _ (forall_mem_cons.2 ⟨hlongR, forall_mem_cons.2 ⟨hlongL, hstack⟩⟩) (hsplit.perm (.swap _ _ _))
            (by rw [width_cons, width_cons]; omega)
        · rw [if_neg hlarger]
          exact hgo _ _ _ hboth hsplit (by rw [width_cons, width_cons]; omega)

/-! ## The insertion sort -/

theorem smallestOfFirst_spec (h : Follows cmp key n slot a) : ∀ thresh, thresh < n →
    smallestOfFirst cmp a thresh ≤ thresh ∧ ∀ k, k ≤ thresh → key (a (smallestOfFirst cmp a thresh)) ≤ key (a k)
  | 0, _ => ⟨Nat.le_refl _, fun k hk => by rw [Nat.le_zero.1 hk]; exact Nat.le_refl _⟩
  | thresh + 1, hn => by
    obtain ⟨h1, h2⟩ := smallestOfFirst_spec h thresh (by omega)
    simp only [smallestOfFirst]
    by_cases hlt : below cmp a (thresh + 1) (smallestOfFirst cmp a thresh)
    · rw [if_pos hlt]
      rw [h.below_iff hn (by omega)] at hlt
      refine ⟨Nat.le_refl _, fun k hk => ?_⟩
      rcases Nat.eq_or_lt_of_le hk with rfl | hk
      · exact Nat.le_refl _
      · have := h2 k (by omega)
        omega
    · rw [if_neg hlt]
      rw [h.below_iff hn (by omega)] at hlt
      refine ⟨by omega, fun k hk => ?_⟩
      rcases Nat.eq_or_lt_of_le hk with rfl | hk
      · omega
      · exact h2 k (by omega)

/-- The first entries are in order. -/
def Ordered (key : α → Nat) (n : Nat) (a : Nat → α) : Prop := ∀ i j, i ≤ j → j < n → key (a i) ≤ key (a j)

/-- An entry put down behind the last entry that is not above it. -/
theorem Ordered.moveDown {run behind : Nat} (h : Ordered key run a) (hbehind : behind + 1 ≤ run)
    (hle : key (a behind) ≤ key (a run)) (hgt : ∀ k, behind < k → k ≤ run - 1 → key (a run) < key (a k)) :
    Ordered key (run + 1) (moveDown a (behind + 1) run) := by
  intro i j hij hj
  have hlow : ∀ k, k ≤ behind → Shuffle.moveDown a (behind + 1) run k = a k := fun k hk => by
    rw [Shuffle.moveDown, if_neg (by omega), if_neg (by omega)]
  have hmid : Shuffle.moveDown a (behind + 1) run (behind + 1) = a run := by rw [Shuffle.moveDown, if_pos rfl]
  have hhigh : ∀ k, behind + 1 < k → k ≤ run → Shuffle.moveDown a (behind + 1) run k = a (k - 1) := fun k h1 h2 => by
    rw [Shuffle.moveDown, if_neg (by omega), if_pos ⟨h1, h2⟩]
  rcases Nat.lt_trichotomy j (behind + 1) with hjb | rfl | hjb
  · rw [hlow i (by omega), hlow j (by omega)]
    exact h i j hij (by omega)
  · rw [hmid]
    rcases Nat.eq_or_lt_of_le hij with rfl | hib
    · exact Nat.le_of_eq (congrArg key hmid)
    · rw [hlow i (by omega)]
      exact Nat.le_trans (h i behind (by omega) (by omega)) hle
  · rw [hhigh j hjb (by omega)]
    rcases Nat.lt_trichotomy i (behind + 1) with hib | rfl | hib
    · rw [hlow i (by omega)]
      exact h i (j - 1) (by omega) (by omega)
    · rw [hmid]
      exact Nat.le_of_lt (hgt (j - 1) (by omega) (by omega))
    · rw [hhigh i hib (by omega)]
      exact h (i - 1) (j - 1) (by omega) (by omega)

/-- With a smallest entry at the start, the insertion sort stays in the array and puts the entries in order. -/
theorem insertLoop_spec : ∀ count run a, run + count = n → 2 ≤ run → (0 < count → Follows cmp key n slot a) →
    (∀ k, k < n → key (a 0) ≤ key (a k)) → Ordered key run a →
    ∃ b, insertLoop cmp count run a = some b ∧ Within 0 (n - 1) a b ∧ Ordered key n b
  | 0, run, a, hn, _, _, _, hord => ⟨a, rfl, .refl _ _ _, by rwa [show n = run by omega]⟩
  | count + 1, run, a, hn, hrun, hfollows, hleast, hord => by
    have hf := hfollows (Nat.succ_pos _)
    have hnear := hf.near
    obtain ⟨r, hr, _, hr2, hr3, hr4⟩ := scanDown_spec hf (show run < n by omega) (hleast run (by omega)) (run - 1)
      (Nat.zero_le _) (by omega)
    obtain ⟨b, hb, hab, hb0, hbord, hbs⟩ : ∃ b, (if r + 1 ≠ run then moveDown a (r + 1) run else a) = b ∧
        Within 0 (n - 1) a b ∧ b 0 = a 0 ∧ Ordered key (run + 1) b ∧ (0 < count → key (b slot) = key (a slot)) := by
      have hmoved := hord.moveDown (show r + 1 ≤ run by omega) hr3 hr4
      by_cases hne : r + 1 ≠ run
      · refine ⟨_, if_pos hne, within_moveDown a (Nat.zero_le _) (by omega) (by omega), ?_, hmoved, fun hc => ?_⟩
        · rw [moveDown, if_neg (by omega), if_neg (by omega)]
        · -- nothing before the slot is above its entry, so that one stays where it is
          have hlt := hr4 (run - 1) (by omega) (Nat.le_refl _)
          have hsr : run ≠ slot := by
            rintro rfl
            have := hf.top (run - 1) (by omega) (by omega)
            omega
          rw [moveDown, if_neg (by omega), if_neg (by omega)]
      · refine ⟨a, if_neg hne, .refl _ _ _, rfl, ?_, fun _ => rfl⟩
        rwa [show moveDown a (r + 1) run = a by
          funext k
          rw [moveDown]
          split
          · rename_i hk
            rw [hk, show r + 1 = run by omega]
          · rw [if_neg (by omega)]] at hmoved
    obtain ⟨c, hc, hbc, hcord⟩ := insertLoop_spec count (run + 1) b (by omega) (by omega)
      (fun hcount => hf.moved hab (hbs hcount))
      (fun k hk => by
        obtain ⟨j, _, h2, h3⟩ := hab.from (Nat.zero_le k) (show k ≤ n - 1 by omega)
        rw [hb0, h3]
        exact hleast j (by omega)) hbord
    simp only [insertLoop, hr, bind_eq_bind, bind_some, hb]
    exact ⟨c, hc, hab.trans hbc, hcord⟩

/-! ## The sort puts the entries in order -/

/-- The quicksort leaves a smallest entry in the part that is searched for it. -/
theorem quickPhase_spec (h : Follows cmp key n slot a) (hn : n ≠ 0) :
    ∃ b, quickPhase cmp n a = some b ∧ Within 0 (n - 1) a b ∧ key (b slot) = key (a slot) ∧
      ∃ i, i ≤ min (n - 1) maxThresh ∧ ∀ k, k < n → key (b i) ≤ key (b k) := by
  obtain ⟨hi, hleast⟩ := smallestOfFirst_spec h (n - 1) (by omega)
  generalize smallestOfFirst cmp a (n - 1) = i at hi hleast
  replace hleast : ∀ k, k < n → key (a i) ≤ key (a k) := fun k hk => hleast k (by omega)
  rw [quickPhase]
  by_cases hlong : maxThresh < n
  · rw [if_pos hlong]
    simp only [maxThresh] at hlong
    obtain ⟨b, hb, hab, hbs, j, hj, hleast'⟩ := quickLoop_spec n a 0 (n - 1) [] (n - 1) h
      (forall_mem_singleton.2 ⟨by simp only [maxThresh]; omega, by dsimp only; omega⟩)
      ⟨⟨i, hi, hleast⟩, forall_mem_singleton.2 (Or.inr rfl), Or.inr mem_cons_self, pairwise_singleton _ _⟩
      (by rw [width_cons]; simp only [width, map_nil, sum_nil]; omega)
    simp only [maxThresh] at hj
    exact ⟨b, hb, hab, hbs, j, by simp only [maxThresh]; omega, hleast'⟩
  · rw [if_neg hlong]
    exact ⟨a, rfl, .refl _ _ _, rfl, i, by omega, hleast⟩

/-- The key at the slot changes only where there are no more than two entries. -/
theorem smallestToStart_spec (h : Follows cmp key n slot a) (hn : n ≠ 0) (hi : i ≤ min (n - 1) maxThresh)
    (hleast : ∀ k, k < n → key (a i) ≤ key (a k)) :
    Within 0 (n - 1) a (smallestToStart cmp n a) ∧
      (∀ k, k < n → key (smallestToStart cmp n a 0) ≤ key (smallestToStart cmp n a k)) ∧
      (2 < n → key (smallestToStart cmp n a slot) = key (a slot)) := by
  have hnear := h.near
  obtain ⟨hs, hsmallest⟩ := smallestOfFirst_spec h (min (n - 1) maxThresh) (by omega)
  have hall : ∀ k, k < n → key (a (smallestOfFirst cmp a (min (n - 1) maxThresh))) ≤ key (a k) := fun k hk =>
    Nat.le_trans (hsmallest i hi) (hleast k hk)
  simp only [smallestToStart]
  generalize smallestOfFirst cmp a (min (n - 1) maxThresh) = s at hs hall
  by_cases hne : s ≠ 0
  · rw [if_pos hne]
    have hwithin : Within 0 (n - 1) a (exchange a s 0) := within_exchange a (by omega) (by omega)
    refine ⟨hwithin, fun k hk => ?_, fun hlong => ?_⟩
    · obtain ⟨j, _, h2, h3⟩ := hwithin.from (Nat.zero_le k) (show k ≤ n - 1 by omega)
      rw [exchange_right, h3]
      exact hall j (by omega)
    · rw [exchange_comm]
      exact h.exchange_slot (by omega) (by omega) (by omega) (hall 0 (by omega))
  · rw [if_neg hne]
    rw [not_not.1 hne] at hall
    exact ⟨.refl _ _ _, hall, fun _ => rfl⟩

/-- `ldb_qsort` stays inside of the array, moves its entries among themselves and puts them in order. -/
theorem ldbQsort_spec (h : Follows cmp key n slot a) :
    ∃ b, ldbQsort cmp n a = some b ∧ Within 0 (n - 1) a b ∧ Ordered key n b := by
  rw [ldbQsort]
  by_cases hn : n = 0
  · exact ⟨a, if_pos hn, .refl _ _ _, fun i j _ hj => by omega⟩
  rw [if_neg hn]
  obtain ⟨b, hb, hab, hbs, i, hi, hleast⟩ := quickPhase_spec h hn
  obtain ⟨hbc, hcleast, hcs⟩ := smallestToStart_spec (h.moved hab hbs) hn hi hleast
  simp only [hb, bind_eq_bind, bind_some]
  by_cases hone : n = 1
  · exact ⟨smallestToStart cmp n b, by rw [hone]; rfl, hab.trans hbc,
      fun i j hij hj => Nat.le_of_eq (by rw [show i = j by omega])⟩
  · obtain ⟨d, hd, hcd, hord⟩ := @insertLoop_spec _ cmp key n slot (n - 2) 2 (smallestToStart cmp n b) (by omega) (Nat.le_refl _)
      (fun hlong => (h.moved hab hbs).moved hbc (hcs (by omega))) hcleast
      (fun i j hij hj => by
        rcases Nat.eq_zero_or_pos i with rfl | hpos
        · exact hcleast j (by omega)
        · exact Nat.le_of_eq (by rw [show i = j by omega]))
    exact ⟨d, hd, hab.trans (hbc.trans hcd), hord⟩

theorem ldbQsortEntries_spec {x : α} {xs : List α} (h : Follows cmp key (xs.length + 1) slot fun i => (x :: xs).getD i x) :
    ∃ ys, ldbQsortEntries cmp (x :: xs) = some ys ∧ ys.Perm (x :: xs) ∧ ys.Pairwise fun y z => key y ≤ key z := by
  obtain ⟨b, hb, hwithin, hord⟩ := ldbQsort_spec h
  refine ⟨entriesOf (xs.length + 1) b, by rw [ldbQsortEntries, hb]; rfl, ?_, ?_⟩
  · have hperm := hwithin.perm (show xs.length + 1 - 1 < xs.length + 1 by omega)
    rwa [show entriesOf (xs.length + 1) (fun i => (x :: xs).getD i x) = x :: xs from entriesOf_getD (x :: xs) x] at hperm
  · rw [entriesOf, pairwise_map]
    exact pairwise_lt_range.imp_of_mem fun {i j} _ hj hij => hord i j (Nat.le_of_lt hij) (mem_range.1 hj)

end

/-! ## Comparisons that follow no order -/

section

variable {α : Type} {cmp : (Nat → α) → α → α → Int} {n lo hi mid left right : Nat} {a b : Nat → α}

theorem scanDown_le : ∀ {right r : Nat}, scanDown cmp a mid right = some r → r ≤ right
  | 0, r, h => by
    rw [scanDown] at h
    split at h
    · cases h
    · cases h
      exact Nat.le_refl _
  | right + 1, r, h => by
    rw [scanDown] at h
    split at h
    · have := scanDown_le h
      omega
    · cases h
      exact Nat.le_refl _

theorem medianOfThree_within (hlo : lo ≤ mid) (hhi : mid ≤ hi) : Within 0 hi a (medianOfThree cmp a lo mid hi) := by
  have hex : ∀ (c : Nat → α) (i j : Nat), i ≤ hi → j ≤ hi → Within 0 hi c (exchange c i j) := fun c i j h1 h2 =>
    within_exchange c ⟨Nat.zero_le i, h1⟩ ⟨Nat.zero_le j, h2⟩
  -- the first exchange, if there is one
  obtain ⟨c, hc, hac⟩ : ∃ c, (if below cmp a mid lo then exchange a mid lo else a) = c ∧ Within 0 hi a c := by
    split
    · exact ⟨_, rfl, hex a mid lo hhi (by omega)⟩
    · exact ⟨a, rfl, .refl _ _ _⟩
  simp only [medianOfThree, hc]
  split
  · have hacd := hac.trans (hex c mid hi hhi (Nat.le_refl _))
    split
    · exact hacd.trans (hex _ mid lo hhi (by omega))
    · exact hacd
  · exact hac

/-- The walls collapse inside of the partition, and the right one goes down only. -/
theorem collapseWalls_within : ∀ {rounds : Nat} {a : Nat → α} {mid left right : Nat} {w : Walls α},
    collapseWalls cmp n rounds a mid left right = some w → Within 0 right a w.array ∧ w.right ≤ right
  | 0, _, _, _, _, _, h => by cases h
  | rounds + 1, a, mid, left, right, w, h => by
    simp only [collapseWalls, bind_eq_bind, bind_eq_some_iff] at h
    obtain ⟨l, -, r, hr, h⟩ := h
    have hle := scanDown_le hr
    split at h
    · next hlt =>
      have hex : Within 0 right a (exchange a l r) := within_exchange a (by omega) (by omega)
      split at h
      · obtain ⟨hwithin, hright⟩ := collapseWalls_within h
        exact ⟨hex.trans (hwithin.mono (Nat.le_refl _) (by omega)), by omega⟩
      · cases h
        exact ⟨hex, by dsimp only; omega⟩
    · split at h
      · cases h
        exact ⟨.refl _ _ _, by dsimp only; omega⟩
      · cases h
        exact ⟨.refl _ _ _, hle⟩

theorem quickLoop_within : ∀ {rounds : Nat} {a b : Nat → α} {lo hi : Nat} {stack : List (Nat × Nat)},
    quickLoop cmp n rounds a lo hi stack = some b → hi < n → (∀ q ∈ stack, q.2 < n) → Within 0 (n - 1) a b
  | 0, _, _, _, _, _, h, _, _ => by cases h
  | rounds + 1, a, b, lo, hi, stack, h, hhi, hstack => by
    rw [quickLoop] at h
    split at h
    · cases h
    simp only [bind_eq_bind, bind_eq_some_iff] at h
    obtain ⟨w, hw, h⟩ := h
    obtain ⟨hcollapse, hright⟩ := collapseWalls_within hw
    have hmedian : Within 0 hi a (medianOfThree cmp a lo (lo + (hi - lo) / 2) hi) :=
      medianOfThree_within (by omega) (by omega)
    have hparted : Within 0 (n - 1) a w.array :=
      (hmedian.mono (Nat.le_refl _) (by omega)).trans (hcollapse.mono (Nat.le_refl _) (by omega))
    have hwr : w.right < n := by omega
    split at h
    · split at h
      · split at h
        · cases h
          exact hparted
        · next q stack =>
          exact hparted.trans (quickLoop_within h (hstack _ mem_cons_self)
            fun q hq => hstack q (mem_cons_of_mem _ hq))
      · exact hparted.trans (quickLoop_within h hhi hstack)
    · split at h
      · exact hparted.trans (quickLoop_within h hwr hstack)
      · split at h
        · exact hparted.trans (quickLoop_within h hhi (forall_mem_cons.2 ⟨hwr, hstack⟩))
        · exact hparted.trans (quickLoop_within h hwr (forall_mem_cons.2 ⟨hhi, hstack⟩))

theorem smallestOfFirst_le : ∀ thresh, smallestOfFirst cmp a thresh ≤ thresh
  | 0 => Nat.le_refl _
  | thresh + 1 => by
    have := smallestOfFirst_le thresh
    simp only [smallestOfFirst]
    split <;> omega

theorem smallestToStart_within : Within 0 (n - 1) a (smallestToStart cmp n a) := by
  have hle := @smallestOfFirst_le _ cmp a (min (n - 1) maxThresh)
  simp only [smallestToStart]
  split
  · exact within_exchange a (by omega) (by omega)
  · exact .refl _ _ _

theorem insertLoop_within : ∀ {count run : Nat} {a b : Nat → α}, insertLoop cmp count run a = some b → 0 < run →
    run + count ≤ n → Within 0 (n - 1) a b
  | 0, _, _, _, h, _, _ => by
    cases h
    exact .refl _ _ _
  | count + 1, run, a, b, h, hrun, hn => by
    simp only [insertLoop, bind_eq_bind, bind_eq_some_iff] at h
    obtain ⟨r, hr, h⟩ := h
    have hle := scanDown_le hr
    refine Within.trans ?_ (insertLoop_within h (Nat.succ_pos _) (by omega))
    split
    · exact within_moveDown a (Nat.zero_le _) (by omega) (by omega)
    · exact .refl _ _ _

/-- What comes out of the sort is what went in, in another order, whatever the comparison says. -/
theorem ldbQsort_within (h : ldbQsort cmp n a = some b) : Within 0 (n - 1) a b := by
  rw [ldbQsort] at h
  split at h
  · cases h
    exact .refl _ _ _
  simp only [bind_eq_bind, bind_eq_some_iff] at h
  obtain ⟨c, hc, h⟩ := h
  have hquick : Within 0 (n - 1) a c := by
    rw [quickPhase] at hc
    split at hc
    · exact quickLoop_within hc (by omega) nofun
    · cases hc
      exact .refl _ _ _
  by_cases hone : n = 1
  · subst hone
    cases h
    exact hquick.trans smallestToStart_within
  · exact hquick.trans (smallestToStart_within.trans (insertLoop_within h (by decide) (by omega)))

theorem ldbQsortEntries_perm {xs ys : List α} (h : ldbQsortEntries cmp xs = some ys) : ys.Perm xs := by
  cases xs with
  | nil =>
    cases h
    exact .refl _
  | cons x xs =>
    simp only [ldbQsortEntries, map_eq_some_iff] at h
    obtain ⟨b, hb, rfl⟩ := h
    have hperm := (ldbQsort_within hb).perm (show xs.length + 1 - 1 < xs.length + 1 by omega)
    rwa [show entriesOf (xs.length + 1) (fun i => (x :: xs).getD i x) = x :: xs from entriesOf_getD (x :: xs) x] at hperm

end

end Samba.Ldb
