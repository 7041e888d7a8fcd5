/-
Search filters as trees (`struct ldb_parse_tree` in lib/ldb/include/ldb.h).
-/
import Samba.Ldb.Dn

namespace Samba.Ldb

open CString

/-- The operations that compare a value by its order. -/
inductive ComparisonOp
  | greater
  | less
  | approx
  deriving DecidableEq, Repr

/-- `struct ldb_parse_tree`. The chunks of a substring match are the values between the wildcards. -/
inductive ParseTree
  | and (elements : List ParseTree)
  | or (elements : List ParseTree)
  | not (child : ParseTree)
  | equality (attr : Text) (value : LdbVal)
  | substring (attr : Text) (startWithWildcard endWithWildcard : Bool) (chunks : List LdbVal)
  | comparison (op : ComparisonOp) (attr : Text) (value : LdbVal)
  | present (attr : Text)
  | extended (attr : Option Text) (dnAttributes : Bool) (ruleId : Option Text) (value : LdbVal)
  deriving Repr

namespace ParseTree

/-- A node without sub-filters. -/
def isLeaf : ParseTree → Bool
  | .and _ | .or _ | .not _ => false
  | _ => true

mutual

/-- The leaves of a filter. -/
def leaves : ParseTree → List ParseTree
  | .and ts => leavesOf ts
  | .or ts => leavesOf ts
  | .not t => leaves t
  | .equality attr value => [.equality attr value]
  | .substring attr startWithWildcard endWithWildcard chunks => [.substring attr startWithWildcard endWithWildcard chunks]
  | .comparison op attr value => [.comparison op attr value]
  | .present attr => [.present attr]
  | .extended attr dnAttributes ruleId value => [.extended attr dnAttributes ruleId value]

def leavesOf : List ParseTree → List ParseTree
  | [] => []
  | t :: ts => leaves t ++ leavesOf ts

end

theorem leaves_of_isLeaf {t : ParseTree} (h : t.isLeaf = true) : t.leaves = [t] := by
  cases t with
  | and ts => cases h
  | or ts => cases h
  | not t => cases h
  | _ => rw [leaves]

theorem mem_leavesOf {ts : List ParseTree} {t l : ParseTree} (ht : t ∈ ts) (hl : l ∈ t.leaves) : l ∈ leavesOf ts := by
  induction ts with
  | nil => cases ht
  | cons t' ts ih =>
    rw [leavesOf, List.mem_append]
    rcases List.mem_cons.mp ht with rfl | hmem
    · exact .inl hl
    · exact .inr (ih hmem)

mutual

/-- Induction over filters, with one case for all leaves. -/
theorem induct {P : ParseTree → Prop} (and : ∀ ts, (∀ t ∈ ts, P t) → P (.and ts)) (or : ∀ ts, (∀ t ∈ ts, P t) → P (.or ts))
    (not : ∀ t, P t → P (.not t)) (leaf : ∀ t, t.isLeaf = true → P t) : ∀ t, P t
  | .and ts => and ts (inductList and or not leaf ts)
  | .or ts => or ts (inductList and or not leaf ts)
  | .not t => not t (induct and or not leaf t)
  | .equality _ _ => leaf _ rfl
  | .substring _ _ _ _ => leaf _ rfl
  | .comparison _ _ _ => leaf _ rfl
  | .present _ => leaf _ rfl
  | .extended _ _ _ _ => leaf _ rfl

theorem inductList {P : ParseTree → Prop} (and : ∀ ts, (∀ t ∈ ts, P t) → P (.and ts)) (or : ∀ ts, (∀ t ∈ ts, P t) → P (.or ts))
    (not : ∀ t, P t → P (.not t)) (leaf : ∀ t, t.isLeaf = true → P t) : ∀ ts : List ParseTree, ∀ t ∈ ts, P t
  | [] => fun _ h => nomatch h
  | t :: ts => List.forall_mem_cons.mpr ⟨induct and or not leaf t, inductList and or not leaf ts⟩

end

end ParseTree

end Samba.Ldb
