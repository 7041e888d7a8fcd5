/-
Server identities (librpc/idl/misc.idl, cluster/cluster.h), by which the locking databases tell
apart the servers that share them.
-/
import Mathlib.Tactic

namespace Samba.Cluster

/-- `struct server_id`. -/
structure ServerId where
  id : UInt32
  node : UInt32
  deriving DecidableEq, Repr

def clusterIdEqual (id1 id2 : ServerId) : Bool := id1.id == id2.id && id1.node == id2.node

theorem clusterIdEqual_iff (a b : ServerId) : clusterIdEqual a b = true ↔ a = b := by
  rcases a with ⟨i, n⟩
  rcases b with ⟨i', n'⟩
  simp [clusterIdEqual]

end Samba.Cluster
