/-
SIDs (libcli/security/dom_sid.c), security descriptors and security tokens (librpc/idl/security.idl, misc.idl,
libcli/security/security_token.c, privilege.c).
-/
import Mathlib.Data.List.Basic
import Mathlib.Data.BitVec

namespace Samba.Security

/-! ## SIDs -/

/-- `struct dom_sid`. `num_auths` is an `int8_t`; a negative count has no sub-authorities. -/
structure DomSid where
  sidRevNum : UInt8
  numAuths : Int
  idAuth : Vector UInt8 6
  subAuths : List UInt32
  length_subAuths : subAuths.length = numAuths.toNat
  deriving DecidableEq, Repr

/-- The difference of the first of two bytes that differ. -/
def firstDifference : List (UInt8 × UInt8) → Int
  | [] => 0
  | (a, b) :: rest => if a ≠ b then (a.toNat : Int) - b.toNat else firstDifference rest

/-- `dom_sid_compare_auth`. -/
def domSidCompareAuth (sid1 sid2 : DomSid) : Int :=
  if sid1.sidRevNum ≠ sid2.sidRevNum then (sid1.sidRevNum.toNat : Int) - sid2.sidRevNum.toNat
  else firstDifference (sid1.idAuth.toList.zip sid2.idAuth.toList)

/-- The loop of `dom_sid_compare` over the sub-authorities, which are given from the last one on. The difference is an
`unsigned` one. -/
def compareSubAuths : List (UInt32 × UInt32) → Option Int
  | [] => none
  | (a, b) :: rest => if a ≠ b then some (a - b).toBitVec.toInt else compareSubAuths rest

/-- `dom_sid_compare`. -/
def domSidCompare (sid1 sid2 : DomSid) : Int :=
  if sid1.numAuths ≠ sid2.numAuths then sid1.numAuths - sid2.numAuths
  else (compareSubAuths (sid1.subAuths.zip sid2.subAuths).reverse).getD (domSidCompareAuth sid1 sid2)

/-- `dom_sid_equal`, with a second SID that may be missing. -/
def domSidEqual (sid1 : DomSid) (sid2 : Option DomSid) : Bool :=
  match sid2 with
  | none => false
  | some sid2 => domSidCompare sid1 sid2 = 0

/-! ## Descriptors -/

/-- `struct GUID`. -/
structure Guid where
  timeLow : UInt32
  timeMid : UInt16
  timeHiAndVersion : UInt16
  clockSeq : Vector UInt8 2
  node : Vector UInt8 6
  deriving DecidableEq, Repr

/-- A GUID of zeros. -/
def Guid.zero : Guid := ⟨0, 0, 0, #v[0, 0], #v[0, 0, 0, 0, 0, 0]⟩

/-- `struct security_ace_object`. A GUID that is not there is zero. -/
structure SecurityAceObject where
  flags : BitVec 32
  type : Guid
  inheritedType : Guid
  deriving DecidableEq, Repr

/-- `struct security_ace`. -/
structure SecurityAce where
  type : BitVec 32
  flags : BitVec 8
  accessMask : BitVec 32
  object : SecurityAceObject
  trustee : DomSid
  deriving DecidableEq, Repr

def secAceTypeAccessAllowed : BitVec 32 := 0
def secAceTypeAccessDenied : BitVec 32 := 1
def secAceTypeSystemAudit : BitVec 32 := 2
def secAceTypeSystemAlarm : BitVec 32 := 3
def secAceTypeAccessAllowedObject : BitVec 32 := 5
def secAceTypeAccessDeniedObject : BitVec 32 := 6
def secAceTypeSystemAuditObject : BitVec 32 := 7
def secAceTypeSystemAlarmObject : BitVec 32 := 8

def secAceFlagInheritOnly : BitVec 8 := 0x08

/-- `struct security_acl`. -/
structure SecurityAcl where
  revision : Nat
  aces : List SecurityAce
  deriving DecidableEq, Repr

/-- `struct security_descriptor`. -/
structure SecurityDescriptor where
  revision : Nat
  type : BitVec 16
  ownerSid : Option DomSid
  groupSid : Option DomSid
  sacl : Option SecurityAcl
  dacl : Option SecurityAcl
  deriving DecidableEq, Repr

def secDescDaclPresent : BitVec 16 := 0x0004

/-! ## Tokens -/

/-- `struct security_token`, with the SIDs and privileges that access checks look at. -/
structure SecurityToken where
  sids : List DomSid
  privilegeMask : BitVec 64
  deriving DecidableEq, Repr

/-- `security_token_has_sid`. -/
def securityTokenHasSid (token : SecurityToken) (sid : Option DomSid) : Bool :=
  token.sids.any fun tokenSid => domSidEqual tokenSid sid

def secPrivSecurity : Nat := 1
def secPrivRestore : Nat := 3

/-- `sec_privilege_mask`. -/
def secPrivilegeMask (privilege : Nat) : BitVec 64 :=
  if privilege < 1 ∨ 64 < privilege then 0 else 1 <<< (privilege - 1)

/-- `security_token_has_privilege`. -/
def securityTokenHasPrivilege (token : SecurityToken) (privilege : Nat) : Bool :=
  if privilege < 1 ∨ 64 < privilege then false else token.privilegeMask &&& secPrivilegeMask privilege ≠ 0

/-! ## Equal SIDs -/

theorem firstDifference_eq_zero (pairs : List (UInt8 × UInt8)) : firstDifference pairs = 0 ↔ ∀ pair ∈ pairs, pair.1 = pair.2 := by
  induction pairs with
  | nil => simp [firstDifference]
  | cons pair pairs ih =>
    obtain ⟨a, b⟩ := pair
    rw [firstDifference, List.forall_mem_cons]
    by_cases hab : a = b
    · rw [if_neg (not_not.mpr hab), ih]
      simp [hab]
    · have hne : a.toNat ≠ b.toNat := mt UInt8.toNat_inj.mp hab
      rw [if_pos hab]
      exact ⟨fun h => absurd h (by omega), fun h => absurd h.1 hab⟩

theorem compareSubAuths_eq_none (pairs : List (UInt32 × UInt32)) :
    compareSubAuths pairs = none ↔ ∀ pair ∈ pairs, pair.1 = pair.2 := by
  induction pairs with
  | nil => simp [compareSubAuths]
  | cons pair pairs ih =>
    obtain ⟨a, b⟩ := pair
    rw [compareSubAuths, List.forall_mem_cons]
    by_cases hab : a = b
    · rw [if_neg (not_not.mpr hab), ih]
      simp [hab]
    · rw [if_pos hab]
      exact ⟨fun h => absurd h (by simp), fun h => absurd h.1 hab⟩

/-- Two lists of one length are the same when they agree everywhere. -/
theorem eq_of_zip {α : Type} {xs ys : List α} (hlen : xs.length = ys.length) (h : ∀ pair ∈ xs.zip ys, pair.1 = pair.2) :
    xs = ys := by
  induction xs generalizing ys with
  | nil => exact (List.length_eq_zero_iff.mp hlen.symm).symm
  | cons x xs ih =>
    cases ys with
    | nil => cases hlen
    | cons y ys =>
      rw [List.zip_cons_cons, List.forall_mem_cons] at h
      have hxy : x = y := h.1
      rw [hxy, ih (Nat.succ.inj hlen) h.2]

theorem mem_zip_self {α : Type} (xs : List α) : ∀ pair ∈ xs.zip xs, pair.1 = pair.2 := by
  induction xs with
  | nil => simp
  | cons x xs ih => rw [List.zip_cons_cons, List.forall_mem_cons]; exact ⟨rfl, ih⟩

theorem domSidCompareAuth_eq_zero {sid1 sid2 : DomSid} :
    domSidCompareAuth sid1 sid2 = 0 ↔ sid1.sidRevNum = sid2.sidRevNum ∧ sid1.idAuth = sid2.idAuth := by
  rw [domSidCompareAuth]
  by_cases hrev : sid1.sidRevNum = sid2.sidRevNum
  · rw [if_neg (not_not.mpr hrev), firstDifference_eq_zero]
    constructor
    · intro h
      exact ⟨hrev, Vector.toList_inj.mp (eq_of_zip (by simp) h)⟩
    · rintro ⟨-, hid⟩
      rw [hid]
      exact mem_zip_self _
  · have hne : sid1.sidRevNum.toNat ≠ sid2.sidRevNum.toNat := mt UInt8.toNat_inj.mp hrev
    rw [if_pos hrev]
    exact ⟨fun h => absurd h (by omega), fun h => absurd h.1 hrev⟩

end Samba.Security
