/-
Access checks (libcli/security/access_check.c): what the ordered list of ACEs permits for a single bit, how the check of a
mask refines it, and where asking for the maximum that is allowed departs from it. Both passes over the list are coded
apart: the one that collects the maximum lets a denial win that comes too late for the ordered check, and the check behind
it leaves out the bit for deletion.
-/
import Samba.Security.Descriptor

namespace Samba.Security

def secStdDelete : BitVec 32 := 0x00010000
def secStdReadControl : BitVec 32 := 0x00020000
def secStdWriteDac : BitVec 32 := 0x00040000
def secFlagSystemSecurity : BitVec 32 := 0x01000000
def secFlagMaximumAllowed : BitVec 32 := 0x02000000

/-- The bits that the owner always gets. -/
def ownerBits : BitVec 32 := secStdWriteDac ||| secStdReadControl ||| secStdDelete

/-- The `NTSTATUS` values of access checks. -/
inductive NtStatus
  | ok | accessDenied | privilegeNotHeld
  deriving DecidableEq, Repr

section Check

variable (sd : SecurityDescriptor) (token : SecurityToken)

/-- The ACE is not passed over. -/
def applicable (ace : SecurityAce) : Bool :=
  ace.flags &&& secAceFlagInheritOnly = 0 && securityTokenHasSid token (some ace.trustee)

/-- The ACE is one of those that deny. -/
def denies (ace : SecurityAce) : Bool :=
  ace.type = secAceTypeAccessDenied || ace.type = secAceTypeAccessDeniedObject

/-- What the loop of `access_check_max_allowed` does with an ACE: `granted` and `denied`. -/
def collectAce (masks : BitVec 32 × BitVec 32) (ace : SecurityAce) : BitVec 32 × BitVec 32 :=
  if !applicable token ace then masks
  else if ace.type = secAceTypeAccessAllowed then (masks.1 ||| ace.accessMask, masks.2)
  else if denies ace then (masks.1, masks.2 ||| ace.accessMask)
  -- Other ACE types not handled/supported
  else masks

/-- `access_check_max_allowed`; without a DACL a null pointer is followed. -/
def accessCheckMaxAllowed : Option (BitVec 32) :=
  let granted :=
    if securityTokenHasSid token sd.ownerSid then ownerBits
    else if securityTokenHasPrivilege token secPrivRestore then secStdDelete
    else 0
  sd.dacl.map fun dacl =>
    let masks := dacl.aces.foldl (collectAce token) (granted, 0)
    masks.1 &&& ~~~masks.2

/-- The loop of `sec_access_check` over the ACEs, and the check behind it. -/
def checkAces : List SecurityAce → BitVec 32 → NtStatus
  | [], bitsRemaining => if bitsRemaining ≠ 0 then .accessDenied else .ok
  | ace :: aces, bitsRemaining =>
    if bitsRemaining = 0 then .ok
    else if !applicable token ace then checkAces aces bitsRemaining
    else if ace.type = secAceTypeAccessAllowed then checkAces aces (bitsRemaining &&& ~~~ace.accessMask)
    else if denies ace then
      if bitsRemaining &&& ace.accessMask ≠ 0 then .accessDenied else checkAces aces bitsRemaining
    else checkAces aces bitsRemaining

/-- The owner and who may restore are exempt. -/
def exemptBits (bitsRemaining : BitVec 32) : BitVec 32 :=
  let bitsRemaining :=
    if bitsRemaining &&& ownerBits ≠ 0 ∧ securityTokenHasSid token sd.ownerSid then bitsRemaining &&& ~~~ownerBits
    else bitsRemaining
  if bitsRemaining &&& secStdDelete ≠ 0 ∧ securityTokenHasPrivilege token secPrivRestore then
    bitsRemaining &&& ~~~secStdDelete
  else bitsRemaining

/-- `sec_access_check` behind the maximum allowed flag: the status and `*access_granted`. -/
def checkDesired (accessDesired accessGranted bitsRemaining : BitVec 32) : NtStatus × BitVec 32 :=
  let security := accessDesired &&& secFlagSystemSecurity ≠ 0
  if security ∧ !securityTokenHasPrivilege token secPrivSecurity then (.privilegeNotHeld, accessGranted)
  else
    let bitsRemaining := if security then bitsRemaining &&& ~~~secFlagSystemSecurity else bitsRemaining
    -- dacl not present allows access
    if sd.type &&& secDescDaclPresent = 0 then (.ok, accessDesired)
    else match sd.dacl with
      -- empty dacl denies access
      | none => (.accessDenied, accessGranted)
      | some dacl =>
        if dacl.aces = [] then (.accessDenied, accessGranted)
        else (checkAces token dacl.aces (exemptBits sd token bitsRemaining), accessGranted)

/-- `sec_access_check`. -/
def secAccessCheck (accessDesired : BitVec 32) : Option (NtStatus × BitVec 32) :=
  if accessDesired &&& secFlagMaximumAllowed ≠ 0 then
    (accessCheckMaxAllowed sd token).map fun maxAllowed =>
      let desired := (accessDesired ||| maxAllowed) &&& ~~~secFlagMaximumAllowed
      checkDesired sd token desired desired (desired &&& ~~~secStdDelete)
  else some (checkDesired sd token accessDesired accessDesired accessDesired)

end Check

/-! ## What a list of ACEs permits -/

section Permission

variable (sd : SecurityDescriptor) (token : SecurityToken)

/-- The first ACE that applies and has the bit allows it. -/
def Allowed (i : Nat) : List SecurityAce → Prop
  | [] => False
  | ace :: aces =>
    if applicable token ace ∧ ace.accessMask.getLsbD i then
      ace.type = secAceTypeAccessAllowed ∨ (¬denies ace ∧ Allowed i aces)
    else Allowed i aces

/-- Some ACE that applies allows the bit. -/
def AllowedSomewhere (aces : List SecurityAce) (i : Nat) : Prop :=
  ∃ ace ∈ aces, applicable token ace ∧ ace.type = secAceTypeAccessAllowed ∧ ace.accessMask.getLsbD i

/-- Some ACE that applies denies the bit. -/
def Denied (aces : List SecurityAce) (i : Nat) : Prop :=
  ∃ ace ∈ aces, applicable token ace ∧ denies ace ∧ ace.accessMask.getLsbD i

/-- The bit is granted without a look at the ACEs. -/
def Exempt (i : Nat) : Prop :=
  (securityTokenHasSid token sd.ownerSid ∧ ownerBits.getLsbD i) ∨
    (securityTokenHasPrivilege token secPrivRestore ∧ secStdDelete.getLsbD i)

/-- The bit may be had on its own. -/
def Permitted (i : Nat) : Prop :=
  (secFlagSystemSecurity.getLsbD i → securityTokenHasPrivilege token secPrivSecurity) ∧
    (sd.type &&& secDescDaclPresent ≠ 0 →
      ∃ dacl, sd.dacl = some dacl ∧ dacl.aces ≠ [] ∧
        (secFlagSystemSecurity.getLsbD i ∨ Exempt sd token i ∨ Allowed token i dacl.aces))

/-- The bit belongs to the maximum that is allowed. -/
def MaxAllowed (dacl : SecurityAcl) (i : Nat) : Prop :=
  (Exempt sd token i ∨ AllowedSomewhere token dacl.aces i) ∧ ¬Denied token dacl.aces i

end Permission

/-! ## Masks and bits -/

theorem and_ne_zero_iff {x m : BitVec 32} : x &&& m ≠ 0 ↔ ∃ i, x.getLsbD i = true ∧ m.getLsbD i = true := by
  constructor
  · intro h
    by_contra hnone
    push Not at hnone
    refine h (BitVec.eq_of_getLsbD_eq fun i _ => ?_)
    rw [BitVec.getLsbD_and]
    cases hx : x.getLsbD i with
    | false => simp
    | true => simp [Bool.eq_false_iff.mpr (hnone i hx)]
  · rintro ⟨i, hx, hm⟩ h
    have hi : (x &&& m).getLsbD i = true := by rw [BitVec.getLsbD_and, hx, hm]; rfl
    rw [h] at hi
    simp at hi

theorem getLsbD_andNot (x m : BitVec 32) (i : Nat) :
    (x &&& ~~~m).getLsbD i = true ↔ x.getLsbD i = true ∧ ¬m.getLsbD i = true := by
  rw [BitVec.getLsbD_and, BitVec.getLsbD_not, Bool.and_eq_true, Bool.and_eq_true, decide_eq_true_iff, Bool.not_eq_true',
    Bool.not_eq_true]
  exact ⟨fun h => ⟨h.1, h.2.2⟩, fun h => ⟨h.1, BitVec.lt_of_getLsbD h.1, h.2⟩⟩

/-- Bits are cleared when some of them are there and it is called for. -/
theorem getLsbD_clearIf (x m : BitVec 32) (p : Prop) [Decidable p] (i : Nat) :
    (if x &&& m ≠ 0 ∧ p then x &&& ~~~m else x).getLsbD i = true ↔ x.getLsbD i = true ∧ ¬(p ∧ m.getLsbD i = true) := by
  split
  case isTrue h =>
    rw [getLsbD_andNot]
    exact and_congr_right fun _ => not_congr ⟨fun hm => ⟨h.2, hm⟩, And.right⟩
  case isFalse h => exact ⟨fun hx => ⟨hx, fun hm => h ⟨and_ne_zero_iff.mpr ⟨i, hx, hm.2⟩, hm.1⟩⟩, And.left⟩

theorem flag_getLsbD (i : Nat) :
    (secStdDelete.getLsbD i = true ↔ i = 16) ∧ (secFlagSystemSecurity.getLsbD i = true ↔ i = 24) ∧
      (secFlagMaximumAllowed.getLsbD i = true ↔ i = 25) ∧
      (ownerBits.getLsbD i = true ↔ i = 16 ∨ i = 17 ∨ i = 18) := by
  by_cases hi : i < 32
  · revert i
    decide
  · have hlt : ∀ x : BitVec 32, ¬x.getLsbD i = true := fun x hx => hi (BitVec.lt_of_getLsbD hx)
    exact ⟨⟨fun h => absurd h (hlt _), fun h => by omega⟩, ⟨fun h => absurd h (hlt _), fun h => by omega⟩,
      ⟨fun h => absurd h (hlt _), fun h => by omega⟩, ⟨fun h => absurd h (hlt _), fun h => by omega⟩⟩

/-! ## The ordered check -/

section Check

variable {sd : SecurityDescriptor} {token : SecurityToken}

variable {aces : List SecurityAce} {i : Nat} {dacl : SecurityAcl}

/-- The loop over the ACEs passes when each bit that remains is allowed. -/
theorem checkAces_ok_iff {bits : BitVec 32} :
    checkAces token aces bits = .ok ↔ ∀ i, bits.getLsbD i = true → Allowed token i aces := by
  induction aces generalizing bits with
  | nil =>
    rw [checkAces]
    by_cases h : bits = 0
    · simp [h]
    · obtain ⟨i, hi, -⟩ := and_ne_zero_iff.mp (show bits &&& bits ≠ 0 by rwa [BitVec.and_self])
      rw [if_pos h]
      exact ⟨fun h => (NtStatus.noConfusion h), fun h => (h i hi).elim⟩
  | cons ace aces ih =>
    rw [checkAces]
    by_cases hzero : bits = 0
    · simp [hzero]
    · rw [if_neg hzero]
      by_cases happ : applicable token ace = true
      · rw [if_neg (by simp [happ])]
        by_cases hallow : ace.type = secAceTypeAccessAllowed
        · rw [if_pos hallow, ih]
          refine forall_congr' fun i => ?_
          rw [getLsbD_andNot, Allowed]
          by_cases hmask : ace.accessMask.getLsbD i = true <;> simp [happ, hmask, hallow]
        · rw [if_neg hallow]
          by_cases hdeny : denies ace = true
          · rw [if_pos hdeny]
            split
            case isTrue hne =>
              obtain ⟨i, hi, hmask⟩ := and_ne_zero_iff.mp hne
              refine ⟨fun h => (NtStatus.noConfusion h), fun h => ?_⟩
              have hi := h i hi
              rw [Allowed, if_pos ⟨happ, hmask⟩] at hi
              rcases hi with hi | hi
              · exact absurd hi hallow
              · exact absurd hdeny hi.1
            case isFalse heq =>
              rw [ih]
              refine forall_congr' fun i => imp_congr_right fun hi => ?_
              have hmask : ¬ace.accessMask.getLsbD i = true := fun hm => heq (and_ne_zero_iff.mpr ⟨i, hi, hm⟩)
              rw [Allowed, if_neg fun h => hmask h.2]
          · rw [if_neg hdeny, ih]
            refine forall_congr' fun i => imp_congr_right fun _ => ?_
            rw [Allowed]
            split
            · simp [hallow, hdeny]
            · rfl
      · rw [if_pos (by simp [happ]), ih]
        refine forall_congr' fun i => imp_congr_right fun _ => ?_
        rw [Allowed, if_neg fun h => happ h.1]

theorem getLsbD_exemptBits (bits : BitVec 32) (i : Nat) :
    (exemptBits sd token bits).getLsbD i = true ↔ bits.getLsbD i = true ∧ ¬Exempt sd token i := by
  rw [exemptBits, getLsbD_clearIf, getLsbD_clearIf, Exempt]
  tauto

/-- The check of a mask of which some bits are left out. -/
theorem checkDesired_ok_iff {desired granted bits : BitVec 32} (hsub : ∀ i, bits.getLsbD i = true → desired.getLsbD i = true) :
    (checkDesired sd token desired granted bits).1 = .ok ↔
      (desired.getLsbD 24 = true → securityTokenHasPrivilege token secPrivSecurity = true) ∧
      (sd.type &&& secDescDaclPresent ≠ 0 → ∃ dacl, sd.dacl = some dacl ∧ dacl.aces ≠ [] ∧
        ∀ i, bits.getLsbD i = true → i = 24 ∨ Exempt sd token i ∨ Allowed token i dacl.aces) := by
  have hsec : desired &&& secFlagSystemSecurity ≠ 0 ↔ desired.getLsbD 24 = true := by
    rw [and_ne_zero_iff]
    exact ⟨fun ⟨i, hi, hs⟩ => (flag_getLsbD i).2.1.mp hs ▸ hi, fun h => ⟨24, h, by decide⟩⟩
  have hbits : ∀ i, (if desired &&& secFlagSystemSecurity ≠ 0 then bits &&& ~~~secFlagSystemSecurity else bits).getLsbD i = true ↔
      bits.getLsbD i = true ∧ i ≠ 24 := by
    intro i
    split
    · rw [getLsbD_andNot, (flag_getLsbD i).2.1]
    case isFalse h =>
      refine ⟨fun hi => ⟨hi, ?_⟩, And.left⟩
      rintro rfl
      exact h (hsec.mpr (hsub 24 hi))
  unfold checkDesired
  dsimp only
  by_cases hpriv : desired.getLsbD 24 = true ∧ ¬securityTokenHasPrivilege token secPrivSecurity = true
  · rw [if_pos ⟨hsec.mpr hpriv.1, by simpa using hpriv.2⟩]
    exact ⟨fun h => (NtStatus.noConfusion h), fun h => absurd (h.1 hpriv.1) hpriv.2⟩
  · rw [if_neg fun h => hpriv ⟨hsec.mp h.1, by simpa using h.2⟩]
    have hpriv' : desired.getLsbD 24 = true → securityTokenHasPrivilege token secPrivSecurity = true :=
      fun h => by_contra fun hp => hpriv ⟨h, hp⟩
    by_cases hpresent : sd.type &&& secDescDaclPresent = 0
    · rw [if_pos hpresent]
      exact ⟨fun _ => ⟨hpriv', fun h => absurd hpresent h⟩, fun _ => rfl⟩
    · rw [if_neg hpresent]
      cases hdacl : sd.dacl with
      | none => exact ⟨fun h => (NtStatus.noConfusion h), fun h => by simpa using h.2 hpresent⟩
      | some dacl =>
        dsimp only
        split
        case isTrue hempty =>
          refine ⟨fun h => (NtStatus.noConfusion h), fun h => ?_⟩
          obtain ⟨dacl', heq, hne, -⟩ := h.2 hpresent
          exact absurd (Option.some.inj heq ▸ hempty) hne
        case isFalse hempty =>
          rw [checkAces_ok_iff]
          refine ⟨fun h => ⟨hpriv', fun _ => ⟨dacl, rfl, hempty, fun i hi => ?_⟩⟩, ?_⟩
          · by_contra hnone
            push Not at hnone
            exact hnone.2.2 (h i ((getLsbD_exemptBits _ i).mpr ⟨(hbits i).mpr ⟨hi, hnone.1⟩, hnone.2.1⟩))
          · rintro ⟨-, h⟩ i hi
            obtain ⟨dacl', heq, -, h⟩ := h hpresent
            obtain rfl := Option.some.inj heq
            obtain ⟨hi, hexempt⟩ := (getLsbD_exemptBits _ i).mp hi
            obtain ⟨hi, hne⟩ := (hbits i).mp hi
            exact ((h i hi).resolve_left hne).resolve_left hexempt

/-- What is granted is the mask that was checked. -/
theorem checkDesired_snd (desired bits : BitVec 32) : (checkDesired sd token desired desired bits).2 = desired := by
  unfold checkDesired
  dsimp only
  split
  · rfl
  · split
    · rfl
    · split
      · rfl
      · split <;> rfl

/-- A single bit that is asked for is granted exactly when it is permitted. -/
theorem secAccessCheck_twoPow (hi : i < 32) (hmax : i ≠ 25) :
    (∃ granted, secAccessCheck sd token (BitVec.twoPow 32 i) = some (.ok, granted)) ↔ Permitted sd token i := by
  have hbit : ∀ j, (BitVec.twoPow 32 i).getLsbD j = true ↔ j = i := by
    intro j
    rw [BitVec.getLsbD_twoPow, Bool.and_eq_true, decide_eq_true_iff, decide_eq_true_iff]
    exact ⟨fun h => h.2.symm, fun h => ⟨hi, h.symm⟩⟩
  have hne : ¬(BitVec.twoPow 32 i &&& secFlagMaximumAllowed ≠ 0) := fun h => by
    obtain ⟨j, hj, hm⟩ := and_ne_zero_iff.mp h
    exact hmax ((hbit j).mp hj ▸ (flag_getLsbD j).2.2.1.mp hm)
  rw [secAccessCheck, if_neg hne, Permitted, (flag_getLsbD i).2.1]
  have hok := @checkDesired_ok_iff sd token (BitVec.twoPow 32 i) (BitVec.twoPow 32 i) (BitVec.twoPow 32 i) fun _ h => h
  simp only [hbit, forall_eq] at hok
  rw [show (24 = i) = (i = 24) from propext eq_comm] at hok
  rw [← hok]
  exact ⟨fun ⟨g, h⟩ => by rw [Option.some.inj h], fun h => ⟨_, congrArg some (Prod.ext h rfl)⟩⟩

theorem secAccessCheck_of_not_max {desired : BitVec 32} (hmax : desired.getLsbD 25 = false) :
    secAccessCheck sd token desired = some (checkDesired sd token desired desired desired) := by
  refine if_neg fun h => ?_
  obtain ⟨i, hi, hm⟩ := and_ne_zero_iff.mp h
  rw [(flag_getLsbD i).2.2.1.mp hm, hmax] at hi
  exact absurd hi (by simp)

/-! ## The maximum that is allowed -/

/-- What the loop of `access_check_max_allowed` has collected behind a list of ACEs. -/
theorem foldl_collectAce (aces : List SecurityAce) (masks : BitVec 32 × BitVec 32) (i : Nat) :
    ((aces.foldl (collectAce token) masks).1.getLsbD i = true ↔ masks.1.getLsbD i = true ∨ AllowedSomewhere token aces i) ∧
    ((aces.foldl (collectAce token) masks).2.getLsbD i = true ↔ masks.2.getLsbD i = true ∨ Denied token aces i) := by
  induction aces generalizing masks with
  | nil => simp [AllowedSomewhere, Denied]
  | cons ace aces ih =>
    have hhead : ((collectAce token masks ace).1.getLsbD i = true ↔ masks.1.getLsbD i = true ∨
          (applicable token ace = true ∧ ace.type = secAceTypeAccessAllowed ∧ ace.accessMask.getLsbD i = true)) ∧
        ((collectAce token masks ace).2.getLsbD i = true ↔ masks.2.getLsbD i = true ∨
          (applicable token ace = true ∧ denies ace = true ∧ ace.accessMask.getLsbD i = true)) := by
      unfold collectAce
      by_cases happ : applicable token ace = true
      · rw [if_neg (by simp [happ])]
        by_cases hallow : ace.type = secAceTypeAccessAllowed
        · have hdeny : denies ace = false := by rw [denies, hallow]; decide
          rw [if_pos hallow]
          simp [happ, hallow, hdeny]
        · rw [if_neg hallow]
          by_cases hdeny : denies ace = true
          · rw [if_pos hdeny]
            simp [happ, hallow, hdeny]
          · rw [if_neg hdeny]
            simp [hallow, hdeny]
      · rw [if_pos (by simp [happ])]
        simp [happ]
    rw [List.foldl_cons, (ih _).1, (ih _).2, hhead.1, hhead.2, AllowedSomewhere, AllowedSomewhere, Denied, Denied]
    simp only [List.mem_cons, exists_eq_or_imp, or_assoc, and_self]

theorem getLsbD_accessCheckMaxAllowed {maxAllowed : BitVec 32} (hdacl : sd.dacl = some dacl)
    (h : accessCheckMaxAllowed sd token = some maxAllowed) (i : Nat) :
    maxAllowed.getLsbD i = true ↔ MaxAllowed sd token dacl i := by
  rw [accessCheckMaxAllowed, hdacl, Option.map_some, Option.some.injEq] at h
  subst h
  have hstart : (if securityTokenHasSid token sd.ownerSid = true then ownerBits
      else if securityTokenHasPrivilege token secPrivRestore = true then secStdDelete else 0).getLsbD i = true ↔
      Exempt sd token i := by
    rw [Exempt]
    have hsub : secStdDelete.getLsbD i = true → ownerBits.getLsbD i = true := fun h => by
      rw [(flag_getLsbD i).2.2.2, (flag_getLsbD i).1.mp h]
      exact .inl rfl
    split
    case isTrue howner => exact ⟨fun h => .inl ⟨howner, h⟩, fun h => h.elim And.right fun h => hsub h.2⟩
    case isFalse howner =>
      split
      case isTrue hpriv => exact ⟨fun h => .inr ⟨hpriv, h⟩, fun h => h.elim (fun h => absurd h.1 howner) And.right⟩
      case isFalse hpriv =>
        exact ⟨fun h => by simp at h, fun h => h.elim (fun h => absurd h.1 howner) fun h => absurd h.1 hpriv⟩
  rw [getLsbD_andNot, (foldl_collectAce _ _ _).1, (foldl_collectAce _ _ _).2, hstart, MaxAllowed]
  simp

/-- What is allowed somewhere and denied nowhere is allowed by the first ACE that has it. -/
theorem allowed_of_not_denied (h : AllowedSomewhere token aces i)
    (hdenied : ¬Denied token aces i) : Allowed token i aces := by
  induction aces with
  | nil =>
    obtain ⟨_, hmem, _⟩ := h
    cases hmem
  | cons ace aces ih =>
    have hrest : ¬Denied token aces i := fun ⟨ace', hmem, hace⟩ => hdenied ⟨ace', List.mem_cons_of_mem _ hmem, hace⟩
    rw [Allowed]
    split
    case isTrue hace =>
      refine or_iff_not_imp_left.mpr fun htype => ⟨fun hdeny => hdenied ⟨ace, List.mem_cons_self, hace.1, hdeny, hace.2⟩, ?_⟩
      obtain ⟨ace', hmem, hace'⟩ := h
      rcases List.mem_cons.mp hmem with rfl | hmem
      · exact absurd hace'.2.1 htype
      · exact ih ⟨ace', hmem, hace'⟩ hrest
    case isFalse hace =>
      obtain ⟨ace', hmem, hace'⟩ := h
      rcases List.mem_cons.mp hmem with rfl | hmem
      · exact absurd ⟨hace'.1, hace'.2.2⟩ hace
      · exact ih ⟨ace', hmem, hace'⟩ hrest

theorem allowedSomewhere_of_allowed (h : Allowed token i aces) : AllowedSomewhere token aces i := by
  induction aces with
  | nil => exact h.elim
  | cons ace aces ih =>
    have hcons : Allowed token i aces → AllowedSomewhere token (ace :: aces) i := fun h =>
      have ⟨ace', hmem, hace⟩ := ih h
      ⟨ace', List.mem_cons_of_mem _ hmem, hace⟩
    rw [Allowed] at h
    split at h
    case isTrue hace =>
      rcases h with h | h
      · exact ⟨ace, List.mem_cons_self, hace.1, h, hace.2⟩
      · exact hcons h.2
    case isFalse => exact hcons h

/-- The mask that is checked when the maximum allowed flag is there. -/
theorem exists_maxMask {dacl : SecurityAcl} (hdacl : sd.dacl = some dacl) (desired : BitVec 32) :
    ∃ mask, (accessCheckMaxAllowed sd token).map (fun maxAllowed => (desired ||| maxAllowed) &&& ~~~secFlagMaximumAllowed) =
        some mask ∧
      ∀ i, mask.getLsbD i = true ↔ (desired.getLsbD i = true ∨ MaxAllowed sd token dacl i) ∧ i ≠ 25 := by
  obtain ⟨maxAllowed, hallowed⟩ : ∃ maxAllowed, accessCheckMaxAllowed sd token = some maxAllowed :=
    ⟨_, by rw [accessCheckMaxAllowed, hdacl, Option.map_some]⟩
  refine ⟨(desired ||| maxAllowed) &&& ~~~secFlagMaximumAllowed, by rw [hallowed, Option.map_some], fun i => ?_⟩
  rw [getLsbD_andNot, BitVec.getLsbD_or, Bool.or_eq_true, getLsbD_accessCheckMaxAllowed hdacl hallowed,
    (flag_getLsbD i).2.2.1]

/-- The check of a mask with the maximum allowed flag. -/
theorem secAccessCheck_max_iff {desired granted : BitVec 32} (hdacl : sd.dacl = some dacl)
    (hmax : desired.getLsbD 25 = true) :
    secAccessCheck sd token desired = some (.ok, granted) ↔
      (∀ i, granted.getLsbD i = true ↔ (desired.getLsbD i = true ∨ MaxAllowed sd token dacl i) ∧ i ≠ 25) ∧
      (granted.getLsbD 24 = true → securityTokenHasPrivilege token secPrivSecurity = true) ∧
      (sd.type &&& secDescDaclPresent ≠ 0 → dacl.aces ≠ [] ∧
        ∀ i, granted.getLsbD i = true → i ≠ 16 → i = 24 ∨ Exempt sd token i ∨ Allowed token i dacl.aces) := by
  have hflag : desired &&& secFlagMaximumAllowed ≠ 0 := and_ne_zero_iff.mpr ⟨25, hmax, by decide⟩
  obtain ⟨mask, hmask, hbits⟩ := @exists_maxMask sd token dacl hdacl desired
  rw [secAccessCheck, if_pos hflag]
  have hrun : ((accessCheckMaxAllowed sd token).map fun maxAllowed =>
      let desired := (desired ||| maxAllowed) &&& ~~~secFlagMaximumAllowed
      checkDesired sd token desired desired (desired &&& ~~~secStdDelete)) =
      some (checkDesired sd token mask mask (mask &&& ~~~secStdDelete)) := by
    obtain ⟨maxAllowed, hallowed, rfl⟩ := Option.map_eq_some_iff.mp hmask
    rw [hallowed, Option.map_some]
  rw [hrun, Option.some.injEq]
  have hok := @checkDesired_ok_iff sd token mask mask (mask &&& ~~~secStdDelete) fun i h => ((getLsbD_andNot _ _ i).mp h).1
  constructor
  · intro h
    obtain rfl : mask = granted := (checkDesired_snd mask _).symm.trans (congrArg Prod.snd h)
    obtain ⟨hpriv, hpresent⟩ := hok.mp (congrArg Prod.fst h)
    refine ⟨hbits, hpriv, fun hp => ?_⟩
    obtain ⟨dacl', heq, hne, hall⟩ := hpresent hp
    obtain rfl := Option.some.inj (hdacl.symm.trans heq)
    exact ⟨hne, fun i hi h16 => hall i ((getLsbD_andNot _ _ i).mpr ⟨hi, mt (flag_getLsbD i).1.mp h16⟩)⟩
  · rintro ⟨hgr, hpriv, hpresent⟩
    obtain rfl : granted = mask := BitVec.eq_of_getLsbD_eq fun i _ => by
      rw [Bool.eq_iff_iff, hgr, hbits]
    have h := hok.mpr ⟨hpriv, fun hp => ⟨dacl, hdacl, (hpresent hp).1, fun i hi =>
      have hi := (getLsbD_andNot _ _ i).mp hi
      (hpresent hp).2 i hi.1 (mt (flag_getLsbD i).1.mpr hi.2)⟩⟩
    exact Prod.ext h (checkDesired_snd _ _)

theorem permitted_of_maxAllowed (h : MaxAllowed sd token dacl i) : Exempt sd token i ∨ Allowed token i dacl.aces :=
  h.1.imp_right fun hsome => allowed_of_not_denied hsome h.2

end Check

/-! ## No more than can be had bit by bit -/

section Exceeds

variable (sd : SecurityDescriptor) (token : SecurityToken)

/-- Each bit that a check grants could be asked for on its own. -/
def NeverExceeds (desired : BitVec 32) : Prop :=
  ∀ granted, secAccessCheck sd token desired = some (.ok, granted) →
    ∀ i < 32, granted.getLsbD i = true → BitVec.twoPow 32 i ≠ secFlagMaximumAllowed →
      ∃ granted', secAccessCheck sd token (BitVec.twoPow 32 i) = some (.ok, granted')

/-- The mask asks for the maximum and for deletion, which is not permitted, while everything else is in order. -/
structure UncheckedDelete (desired : BitVec 32) : Prop where
  maximum : desired &&& secFlagMaximumAllowed ≠ 0
  delete : desired &&& secStdDelete ≠ 0
  refused : ¬Permitted sd token 16
  others : ∀ i, desired.getLsbD i = true → i ≠ 16 → i ≠ 25 → Permitted sd token i
  dacl : ∃ dacl, sd.dacl = some dacl ∧ dacl.aces ≠ [] ∧
    (MaxAllowed sd token dacl 24 → securityTokenHasPrivilege token secPrivSecurity = true)

variable {sd token}

theorem and_flag_ne_zero {x m : BitVec 32} {k : Nat} (hm : ∀ i, m.getLsbD i = true ↔ i = k) :
    x &&& m ≠ 0 ↔ x.getLsbD k = true := by
  rw [and_ne_zero_iff]
  exact ⟨fun ⟨i, hi, h⟩ => (hm i).mp h ▸ hi, fun h => ⟨k, h, (hm k).mpr rfl⟩⟩

theorem twoPow_ne_max {i : Nat} (hi : i < 32) : BitVec.twoPow 32 i ≠ secFlagMaximumAllowed ↔ i ≠ 25 := by
  revert i
  decide

/-- An access check grants nothing that could not be had bit by bit, unless deletion is asked for together with the
maximum and slips through. -/
theorem secAccessCheck_neverExceeds_iff (desired : BitVec 32) :
    NeverExceeds sd token desired ↔ ¬UncheckedDelete sd token desired := by
  constructor
  · rintro h ⟨hmax, hdel, hrefused, hothers, dacl, hdacl, hne, hpriv⟩
    rw [and_flag_ne_zero fun i => (flag_getLsbD i).2.2.1] at hmax
    rw [and_flag_ne_zero fun i => (flag_getLsbD i).1] at hdel
    obtain ⟨mask, -, hbits⟩ := @exists_maxMask sd token dacl hdacl desired
    have hok : secAccessCheck sd token desired = some (.ok, mask) := by
      refine (secAccessCheck_max_iff hdacl hmax).mpr ⟨hbits, fun h24 => ?_, fun hpresent => ⟨hne, fun i hi h16 => ?_⟩⟩
      · rcases ((hbits 24).mp h24).1 with hd | hm
        · exact (hothers 24 hd (by decide) (by decide)).1 (by decide)
        · exact hpriv hm
      · obtain ⟨hd | hm, h25⟩ := (hbits i).mp hi
        · obtain ⟨dacl', heq, -, hperm⟩ := (hothers i hd h16 h25).2 hpresent
          obtain rfl := Option.some.inj (hdacl.symm.trans heq)
          exact hperm.imp_left (flag_getLsbD i).2.1.mp
        · exact .inr (permitted_of_maxAllowed hm)
    have h16 : mask.getLsbD 16 = true := (hbits 16).mpr ⟨.inl hdel, by decide⟩
    exact hrefused ((secAccessCheck_twoPow (by decide) (by decide)).mp
      (h mask hok 16 (by decide) h16 ((twoPow_ne_max (by decide)).mpr (by decide))))
  · intro hchecked granted hok i hi hgranted hne
    have h25 : i ≠ 25 := (twoPow_ne_max hi).mp hne
    rw [secAccessCheck_twoPow hi h25]
    by_cases hmax : desired.getLsbD 25 = true
    · cases hdacl : sd.dacl with
      | none =>
        rw [secAccessCheck, if_pos ((and_flag_ne_zero fun i => (flag_getLsbD i).2.2.1).mpr hmax), accessCheckMaxAllowed,
          hdacl] at hok
        cases hok
      | some dacl =>
        obtain ⟨hbits, hpriv, hpresent⟩ := (secAccessCheck_max_iff hdacl hmax).mp hok
        have hother : ∀ j, granted.getLsbD j = true → j ≠ 16 → Permitted sd token j := fun j hj h16 =>
          ⟨fun h24 => hpriv ((flag_getLsbD j).2.1.mp h24 ▸ hj), fun hp => ⟨dacl, hdacl, (hpresent hp).1,
            ((hpresent hp).2 j hj h16).imp_left (flag_getLsbD j).2.1.mpr⟩⟩
        by_cases h16 : i = 16
        · subst h16
          by_contra hrefused
          have hp : sd.type &&& secDescDaclPresent ≠ 0 := fun h0 => hrefused ⟨fun h => absurd h (by decide), fun h => absurd h0 h⟩
          have hnot : ¬(Exempt sd token 16 ∨ Allowed token 16 dacl.aces) := fun h =>
            hrefused ⟨fun h => absurd h (by decide), fun _ => ⟨dacl, hdacl, (hpresent hp).1, .inr h⟩⟩
          refine hchecked ⟨(and_flag_ne_zero fun i => (flag_getLsbD i).2.2.1).mpr hmax,
            (and_flag_ne_zero fun i => (flag_getLsbD i).1).mpr ?_, hrefused, fun j hj h16 h25 => ?_, dacl, hdacl,
            (hpresent hp).1, fun h24 => hpriv ((hbits 24).mpr ⟨.inr h24, by decide⟩)⟩
          · exact ((hbits 16).mp hgranted).1.resolve_right fun h => hnot (permitted_of_maxAllowed h)
          · exact hother j ((hbits j).mpr ⟨.inl hj, h25⟩) h16
        · exact hother i hgranted h16
    · rw [secAccessCheck_of_not_max (Bool.not_eq_true _ ▸ hmax), Option.some.injEq] at hok
      have hmask : desired = granted := (checkDesired_snd desired desired).symm.trans (congrArg Prod.snd hok)
      subst hmask
      obtain ⟨hpriv, hpresent⟩ := (checkDesired_ok_iff fun _ h => h).mp (congrArg Prod.fst hok)
      refine ⟨fun h24 => hpriv ((flag_getLsbD i).2.1.mp h24 ▸ hgranted), fun hp => ?_⟩
      obtain ⟨dacl, hdacl, hne, hall⟩ := hpresent hp
      exact ⟨dacl, hdacl, hne, (hall i hgranted).imp_left (flag_getLsbD i).2.1.mpr⟩

/-- "S-1-1-0", everyone. -/
def sidWorld : DomSid := ⟨1, 1, #v[0, 0, 0, 0, 0, 1], [0], rfl⟩

/-- A token of everyone, without privileges. -/
def worldToken : SecurityToken := ⟨[sidWorld], 0⟩

/-- An ACE for everyone. -/
def worldAce (type accessMask : BitVec 32) : SecurityAce :=
  ⟨type, 0, accessMask, ⟨0, .zero, .zero⟩, sidWorld⟩

/-- A descriptor with these ACEs that nobody owns. -/
def daclDescriptor (aces : List SecurityAce) : SecurityDescriptor := ⟨1, secDescDaclPresent, none, none, none, some ⟨2, aces⟩⟩

/-- Who may only read the descriptor is granted deletion. -/
theorem secAccessCheck_exceeds :
    ¬NeverExceeds (daclDescriptor [worldAce secAceTypeAccessAllowed secStdReadControl]) worldToken
      (secFlagMaximumAllowed ||| secStdDelete) := by
  intro h
  obtain ⟨granted, hgranted⟩ := h (secStdDelete ||| secStdReadControl) (by decide) 16 (by decide) (by decide) (by decide)
  have hdenied : secAccessCheck (daclDescriptor [worldAce secAceTypeAccessAllowed secStdReadControl]) worldToken
      (BitVec.twoPow 32 16) = some (.accessDenied, BitVec.twoPow 32 16) := by decide
  rw [hdenied] at hgranted
  cases hgranted

end Exceeds

/-! ## All that can be had bit by bit -/

section Complete

variable (sd : SecurityDescriptor) (token : SecurityToken)

/-- Asking for the maximum is granted with every bit that could be asked for on its own. -/
def MaximumComplete : Prop :=
  ∃ granted, secAccessCheck sd token secFlagMaximumAllowed = some (.ok, granted) ∧
    ∀ i < 32, BitVec.twoPow 32 i ≠ secFlagSystemSecurity → BitVec.twoPow 32 i ≠ secFlagMaximumAllowed →
      (∃ granted', secAccessCheck sd token (BitVec.twoPow 32 i) = some (.ok, granted')) → granted.getLsbD i = true

variable {sd token}

theorem twoPow_ne_security {i : Nat} (hi : i < 32) : BitVec.twoPow 32 i ≠ secFlagSystemSecurity ↔ i ≠ 24 := by
  revert i
  decide

/-- The maximum is complete exactly when no ACE denies what the owner, the privilege to restore or an earlier ACE has
granted already, and the ACEs do not grant access to the system ACL without the privilege for it. -/
theorem maximumComplete_iff {dacl : SecurityAcl} (hpresent : sd.type &&& secDescDaclPresent ≠ 0)
    (hdacl : sd.dacl = some dacl) (hne : dacl.aces ≠ []) :
    MaximumComplete sd token ↔
      (MaxAllowed sd token dacl 24 → securityTokenHasPrivilege token secPrivSecurity = true) ∧
      ∀ i < 32, i ≠ 24 → i ≠ 25 → Exempt sd token i ∨ Allowed token i dacl.aces → ¬Denied token dacl.aces i := by
  have hmax : secFlagMaximumAllowed.getLsbD 25 = true := by decide
  have hperm : ∀ i, i ≠ 24 → (Permitted sd token i ↔ Exempt sd token i ∨ Allowed token i dacl.aces) := fun i h24 => by
    have hsec : ¬secFlagSystemSecurity.getLsbD i = true := mt (flag_getLsbD i).2.1.mp h24
    constructor
    · rintro ⟨-, h⟩
      obtain ⟨dacl', heq, -, h⟩ := h hpresent
      obtain rfl := Option.some.inj (hdacl.symm.trans heq)
      exact h.resolve_left hsec
    · exact fun h => ⟨fun h => absurd h hsec, fun _ => ⟨dacl, hdacl, hne, .inr h⟩⟩
  constructor
  · rintro ⟨granted, hok, hall⟩
    obtain ⟨hbits, hpriv, -⟩ := (secAccessCheck_max_iff hdacl hmax).mp hok
    refine ⟨fun h24 => hpriv ((hbits 24).mpr ⟨.inr h24, by decide⟩), fun i hi h24 h25 h => ?_⟩
    have hgranted := hall i hi ((twoPow_ne_security hi).mpr h24) ((twoPow_ne_max hi).mpr h25)
      ((secAccessCheck_twoPow hi h25).mpr ((hperm i h24).mpr h))
    exact (((hbits i).mp hgranted).1.resolve_left (mt (flag_getLsbD i).2.2.1.mp h25)).2
  · rintro ⟨hpriv, hall⟩
    obtain ⟨mask, -, hbits⟩ := @exists_maxMask sd token dacl hdacl secFlagMaximumAllowed
    have hin : ∀ i, mask.getLsbD i = true → MaxAllowed sd token dacl i := fun i hi =>
      ((hbits i).mp hi).1.resolve_left (mt (flag_getLsbD i).2.2.1.mp ((hbits i).mp hi).2)
    refine ⟨mask, (secAccessCheck_max_iff hdacl hmax).mpr ⟨hbits, fun h => hpriv (hin 24 h), fun _ => ⟨hne, fun i hi _ =>
      .inr (permitted_of_maxAllowed (hin i hi))⟩⟩, fun i hi h24 h25 h => ?_⟩
    rw [twoPow_ne_security hi] at h24
    rw [twoPow_ne_max hi] at h25
    have h := (hperm i h24).mp ((secAccessCheck_twoPow hi h25).mp h)
    exact (hbits i).mpr ⟨.inr ⟨h.imp_right allowedSomewhere_of_allowed, hall i hi h24 h25 h⟩, h25⟩

/-- An ACE that denies comes behind one that allows. -/
def lateDenial : SecurityAcl :=
  ⟨2, [worldAce secAceTypeAccessAllowed secStdReadControl, worldAce secAceTypeAccessDenied secStdReadControl]⟩

/-- The bit that is granted on its own is not part of the maximum. -/
theorem maximum_not_complete : (daclDescriptor lateDenial.aces).type &&& secDescDaclPresent ≠ 0 ∧ lateDenial.aces ≠ [] ∧
    ¬MaximumComplete (daclDescriptor lateDenial.aces) worldToken := by
  refine ⟨by decide, by simp [lateDenial], ?_⟩
  rintro ⟨granted, hok, hall⟩
  have hmax : secAccessCheck (daclDescriptor lateDenial.aces) worldToken secFlagMaximumAllowed = some (.ok, 0) := by decide
  obtain ⟨-, rfl⟩ := Prod.mk.inj (Option.some.inj (hmax.symm.trans hok))
  have h := hall 17 (by decide) (by decide) (by decide) ⟨BitVec.twoPow 32 17, by decide⟩
  exact absurd h (by decide)

theorem of_getLsbD_twoPow {i n : Nat} (h : (BitVec.twoPow 32 n).getLsbD i = true) : i = n := by
  rw [BitVec.getLsbD_twoPow, Bool.and_eq_true, decide_eq_true_eq, decide_eq_true_eq] at h
  exact h.2.symm

/-- Another right is denied. -/
def otherDenial : SecurityAcl :=
  ⟨2, [worldAce secAceTypeAccessAllowed secStdReadControl, worldAce secAceTypeAccessDenied secStdDelete]⟩

theorem otherDenial_maximum : MaximumComplete (daclDescriptor otherDenial.aces) worldToken := by
  refine (@maximumComplete_iff (daclDescriptor otherDenial.aces) worldToken otherDenial (by decide) rfl (by simp [otherDenial])).mpr ⟨?_, ?_⟩
  · unfold MaxAllowed Exempt AllowedSomewhere Denied
    decide
  · rintro i - - - hgot ⟨ace, hace, -, hdenies, hbit⟩
    rcases List.mem_pair.mp hace with rfl | rfl
    · exact absurd hdenies (by decide)
    -- only the deletion is denied, and that is allowed by nothing
    obtain rfl : i = 16 := of_getLsbD_twoPow (show (BitVec.twoPow 32 16).getLsbD i = true from hbit)
    rcases hgot with h | h
    · exact absurd h (by unfold Exempt; decide)
    · simp only [otherDenial, Allowed] at h
      exact absurd h (by decide)

end Complete

end Samba.Security
