/-
Access checks without the maximum allowed flag: the loop over a shrinking set of bits gives each bit to the first ACE that
decides it. With the flag the pass before the loop follows the DACL that the checks behind it would find missing.
-/
import Samba.Security.AccessCheck

namespace Samba.Security

/-! ## The first ACE that decides a bit -/

section Check

variable (sd : SecurityDescriptor) (token : SecurityToken)

/-- The ACE is not passed over, and it allows or denies the bit. -/
def decidesBit (i : Nat) (ace : SecurityAce) : Bool :=
  applicable token ace && (ace.type = secAceTypeAccessAllowed || denies ace) && ace.accessMask.getLsbD i

/-- Some ACE decides the bit, and the first one that does allows it. -/
def FirstAllows (i : Nat) (aces : List SecurityAce) : Prop :=
  ∃ ace, aces.find? (decidesBit token i) = some ace ∧ ace.type = secAceTypeAccessAllowed

variable {sd token}

theorem allowed_iff_firstAllows {i : Nat} {aces : List SecurityAce} : Allowed token i aces ↔ FirstAllows token i aces := by
  induction aces with
  | nil => simp [Allowed, FirstAllows]
  | cons ace aces ih =>
    rw [Allowed]
    split
    case isTrue happ =>
      by_cases hallow : ace.type = secAceTypeAccessAllowed
      · have hdecides : decidesBit token i ace = true := by simp [decidesBit, happ, hallow]
        rw [FirstAllows, List.find?_cons_of_pos hdecides]
        exact iff_of_true (.inl hallow) ⟨ace, rfl, hallow⟩
      · by_cases hdeny : denies ace = true
        · have hdecides : decidesBit token i ace = true := by simp [decidesBit, happ, hdeny]
          rw [FirstAllows, List.find?_cons_of_pos hdecides]
          refine iff_of_false (fun h => h.elim hallow fun h => h.1 hdeny) ?_
          rintro ⟨ace', heq, hallow'⟩
          exact hallow (Option.some.inj heq ▸ hallow')
        · -- of another type: the ACE is passed over
          have hdecides : ¬decidesBit token i ace = true := by simp [decidesBit, hallow, hdeny]
          rw [FirstAllows, List.find?_cons_of_neg hdecides, ← FirstAllows, ← ih]
          simp [hallow, hdeny]
    case isFalse happ =>
      have hdecides : ¬decidesBit token i ace = true := by
        intro h
        simp only [decidesBit, Bool.and_eq_true] at h
        exact happ ⟨h.1.1, h.2⟩
      rw [FirstAllows, List.find?_cons_of_neg hdecides, ← FirstAllows, ih]

/-- With a DACL and without the maximum allowed flag, a mask is granted exactly when each bit of it is exempt or given by the
first ACE that decides it, and access to the system ACL by the privilege for it. -/
theorem secAccessCheck_ok_iff {desired : BitVec 32} (hpresent : sd.type &&& secDescDaclPresent ≠ 0)
    (hmax : desired &&& secFlagMaximumAllowed = 0) :
    (∃ granted, secAccessCheck sd token desired = some (.ok, granted)) ↔
      ∃ dacl, sd.dacl = some dacl ∧ dacl.aces ≠ [] ∧
        (desired &&& secFlagSystemSecurity ≠ 0 → securityTokenHasPrivilege token secPrivSecurity = true) ∧
        ∀ i, desired.getLsbD i = true → ¬secFlagSystemSecurity.getLsbD i = true →
          Exempt sd token i ∨ FirstAllows token i dacl.aces := by
  have hbit : desired.getLsbD 25 = false := by
    have h := mt (and_flag_ne_zero (x := desired) fun i => (flag_getLsbD i).2.2.1).mpr (not_not.mpr hmax)
    exact Bool.not_eq_true _ ▸ h
  have hcheck := @checkDesired_ok_iff sd token desired desired desired fun _ h => h
  rw [secAccessCheck_of_not_max hbit]
  have hgranted : (∃ granted, some (checkDesired sd token desired desired desired) = some (NtStatus.ok, granted)) ↔
      (checkDesired sd token desired desired desired).1 = .ok :=
    ⟨fun ⟨g, h⟩ => by rw [Option.some.inj h], fun h => ⟨_, congrArg some (Prod.ext h rfl)⟩⟩
  rw [hgranted, hcheck, and_flag_ne_zero fun i => (flag_getLsbD i).2.1]
  simp only [(flag_getLsbD _).2.1, ← allowed_iff_firstAllows]
  constructor
  · rintro ⟨hpriv, h⟩
    obtain ⟨dacl, hdacl, hne, hall⟩ := h hpresent
    exact ⟨dacl, hdacl, hne, hpriv, fun i hi h24 => (hall i hi).resolve_left h24⟩
  · rintro ⟨dacl, hdacl, hne, hpriv, hall⟩
    exact ⟨hpriv, fun _ => ⟨dacl, hdacl, hne, fun i hi => or_iff_not_imp_left.mpr (hall i hi)⟩⟩

/-- Reading the descriptor is allowed before it is denied. -/
theorem lateDenial_granted :
    ∃ granted, secAccessCheck (daclDescriptor lateDenial.aces) worldToken secStdReadControl = some (.ok, granted) := by
  refine (secAccessCheck_ok_iff (by decide) (by decide)).mpr ⟨lateDenial, rfl, by simp [lateDenial], by decide, ?_⟩
  intro i hi _
  obtain rfl : i = 17 := of_getLsbD_twoPow (show (BitVec.twoPow 32 17).getLsbD i = true from hi)
  exact .inr ⟨_, rfl, rfl⟩

end Check

/-! ## Descriptors without a DACL -/

section Total

variable (sd : SecurityDescriptor) (token : SecurityToken)

/-- A check follows no null pointer, and where the descriptor has no DACL it refuses no mask that does not ask for the system
ACL. -/
structure SafeCheck (desired : BitVec 32) : Prop where
  returns : ∃ result, secAccessCheck sd token desired = some result
  absent : sd.type &&& secDescDaclPresent = 0 → desired &&& secFlagSystemSecurity = 0 →
    ∃ granted, secAccessCheck sd token desired = some (.ok, granted)

variable {sd token}

/-- A check is safe without the maximum allowed flag. With it, there must be a list of ACEs; and if it does not count as
present, then either the mask asks for the system ACL itself, or the ACEs do not add this bit, or the token has the privilege
for it. -/
theorem safeCheck_iff (desired : BitVec 32) :
    SafeCheck sd token desired ↔ (desired &&& secFlagMaximumAllowed ≠ 0 →
      ∃ dacl, sd.dacl = some dacl ∧
        (sd.type &&& secDescDaclPresent = 0 → desired &&& secFlagSystemSecurity = 0 →
          AllowedSomewhere token dacl.aces 24 → ¬Denied token dacl.aces 24 →
            securityTokenHasPrivilege token secPrivSecurity = true)) := by
  have h24 := @and_flag_ne_zero desired _ _ fun i => (flag_getLsbD i).2.1
  have h25 := @and_flag_ne_zero desired _ _ fun i => (flag_getLsbD i).2.2.1
  have hexempt : ¬Exempt sd token 24 := fun h => h.elim (fun h => absurd h.2 (by decide)) fun h => absurd h.2 (by decide)
  by_cases hmax : desired &&& secFlagMaximumAllowed = 0
  · have hbit : desired.getLsbD 25 = false := Bool.not_eq_true _ ▸ mt h25.mpr (not_not.mpr hmax)
    have hrun := @secAccessCheck_of_not_max sd token desired hbit
    refine iff_of_true ⟨⟨_, hrun⟩, fun habsent hsec => ?_⟩ fun h => absurd hmax h
    have hok := (@checkDesired_ok_iff sd token desired desired desired fun _ h => h).mpr
      ⟨fun h => absurd hsec (h24.mpr h), fun h => absurd habsent h⟩
    exact ⟨_, hrun.trans (congrArg some (Prod.ext hok rfl))⟩
  have hbit : desired.getLsbD 25 = true := h25.mp hmax
  cases hdacl : sd.dacl with
  | none =>
    refine iff_of_false (fun h => ?_) fun h => ?_
    · obtain ⟨result, hrun⟩ := h.returns
      rw [secAccessCheck, if_pos hmax, accessCheckMaxAllowed, hdacl] at hrun
      cases hrun
    · obtain ⟨_, hnone, -⟩ := h hmax
      cases hnone
  | some dacl =>
    obtain ⟨mask, hmask, hbits⟩ := @exists_maxMask sd token dacl hdacl desired
    obtain ⟨maxAllowed, hallowed, -⟩ := Option.map_eq_some_iff.mp hmask
    have hreturns : ∃ result, secAccessCheck sd token desired = some result := by
      rw [secAccessCheck, if_pos hmax, hallowed]
      exact ⟨_, rfl⟩
    constructor
    · intro h _
      refine ⟨dacl, rfl, fun habsent hsec hsome hnot => ?_⟩
      obtain ⟨granted, hok⟩ := h.absent habsent hsec
      obtain ⟨hgranted, hpriv, -⟩ := (secAccessCheck_max_iff hdacl hbit).mp hok
      exact hpriv ((hgranted 24).mpr ⟨.inr ⟨.inr hsome, hnot⟩, by decide⟩)
    · intro h
      refine ⟨hreturns, fun habsent hsec => ⟨mask, (secAccessCheck_max_iff hdacl hbit).mpr ⟨hbits, fun hm => ?_,
        fun hp => absurd habsent hp⟩⟩⟩
      obtain ⟨dacl', heq, hpriv⟩ := h hmax
      obtain rfl := Option.some.inj heq
      rcases ((hbits 24).mp hm).1 with hdesired | ⟨hallow, hnot⟩
      · exact absurd hsec (h24.mpr hdesired)
      · exact hpriv habsent hsec (hallow.resolve_left hexempt) hnot

/-- A descriptor that nobody owns and that has no DACL. -/
def emptyDescriptor : SecurityDescriptor := ⟨1, 0, none, none, none, none⟩

/-- The maximum that is allowed is asked for where there is no DACL. -/
theorem maximum_not_safe : ¬SafeCheck emptyDescriptor worldToken secFlagMaximumAllowed := by
  intro h
  obtain ⟨result, hrun⟩ := h.returns
  have hnull : secAccessCheck emptyDescriptor worldToken secFlagMaximumAllowed = none := by decide
  rw [hnull] at hrun
  cases hrun

end Total

end Samba.Security
