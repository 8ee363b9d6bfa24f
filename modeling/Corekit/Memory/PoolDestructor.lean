import Corekit.Memory.PoolTreeRuns

/-! `~SlabPoolImpl`: the large allocations, the blocks class by class, and then the
children. Whatever the pool and the pools below it took from the underlying
allocator goes back, each piece once, and nothing else does. -/
namespace Corekit.Memory
open Corekit.Foundation Allocation

namespace PoolTree

variable (t : PoolTree)

def children (i : Nat) : List Nat := (List.range t.count).filter fun j => t.parent j = some i

def below (i : Nat) : List Nat :=
  (List.range t.count).filter fun j => i ∈ t.toForest.lineage j

end PoolTree

namespace PoolTree

variable {t : PoolTree} {i j : Nat}

end PoolTree

namespace TreeWorld

variable {w : TreeWorld} {owned : Nat → List Extent} {i : Nat}

/-- Extents with one base are one, so an address tells its pool. -/
theorem Sound.owner_unique (h : w.Sound owned) {j k : Nat} (hj : j < w.tree.count)
    (hk : k < w.tree.count) {left right : Extent} (hleft : left ∈ owned j)
    (hright : right ∈ owned k) (hbase : left.base = right.base) : j = k := by
  by_contra hne
  have hdisj := h.owned_apart hj hk hne hleft hright
  have hpos := h.outstanding_pos (h.owned_sub hj hleft)
  have hpos' := h.outstanding_pos (h.owned_sub hk hright)
  unfold Extent.Disjoint at hdisj
  omega

theorem Sound.bases_nodup (h : w.Sound owned) : (w.tree.heap.outstanding.map Extent.base).Nodup := by
  refine List.pairwise_map.mpr (h.apart.imp_of_mem fun {left right} hleft hright hdisj heq => ?_)
  have hpos := h.outstanding_pos hleft
  have hpos' := h.outstanding_pos hright
  unfold Extent.Disjoint at hdisj
  omega

end TreeWorld

end Corekit.Memory
