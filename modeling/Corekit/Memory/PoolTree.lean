import Corekit.Foundation.Lineage
import Corekit.Memory.SlabGrowth

/-! Several `SlabPoolImpl` objects over one heap. A pool is known by the number
of its creation; `parent_` is such a number. A call works on one pool, on the
statistics of its parent and on the heap; a header may lead it to a Block of
another pool. -/
namespace Corekit.Memory
open Corekit.Api Corekit.Foundation

namespace PoolState

variable (s : PoolState)

/-- The Block whose `used_count` an allocation raises through the header of the
slab that it takes from the free list. -/
def recycledOwner (size : Nat) : Option Nat :=
  if s.Refuses size ∨ kNumSizeClasses ≤ sizeClassIndex size then none
  else (s.pool.freeLists (sizeClassIndex size)).getLast?.map (SlabHeader.blockOwner s.heap.memory)

/-- The Block whose `used_count` a `Free` lowers. -/
def freedOwner (ptr : Nat) : Option Nat :=
  if ptr = 0 ∨ s.pool.inited = false ∨
      SlabHeader.magic s.heap.memory (headerFromUser ptr) ≠ kSlabMagic ∨
      kNumSizeClasses ≤ SlabHeader.classIndex s.heap.memory (headerFromUser ptr) then none
  else some (SlabHeader.blockOwner s.heap.memory (headerFromUser ptr))

/-- `Owns` looks at the magic number only. -/
def owns (ptr : Nat) : Bool :=
  ptr ≠ 0 ∧ SlabHeader.magic s.heap.memory (headerFromUser ptr) = kSlabMagic

end PoolState

/-- The pools below `count` exist. -/
structure PoolTree extends Forest where
  count : Nat := 0
  pools : Nat → SlabPoolImpl := fun _ => {}
  heap : Heap := {}

namespace PoolTree

variable (t : PoolTree)

/-- What a call on pool `i` works on. -/
def view (i : Nat) : PoolState where
  pool := t.pools i
  parentStats := (t.parent i).map fun p => (t.pools p).stats
  heap := t.heap

def put (i : Nat) (s : PoolState) : PoolTree :=
  { t with
    pools := fun j =>
      if j = i then s.pool
      else if t.parent i = some j then
        { t.pools j with stats := s.parentStats.getD (t.pools j).stats }
      else t.pools j
    heap := s.heap }

/-- The Block that a call on pool `i` reaches through a header, if it belongs to
another pool. -/
def foreign (i : Nat) (owner : Option Nat) : Option Nat :=
  owner.filter fun address =>
    address ≠ 0 ∧ ∀ block ∈ (t.pools i).allBlocks, block.address ≠ address

def writeUsed (owner : Option Nat) (f : Nat → Nat) : PoolTree :=
  match owner with
  | none => t
  | some address => { t with pools := fun j => (t.pools j).updateUsed address f }

/-- `corekit_create_memory_pool` -/
def create : PoolTree :=
  { t with
    count := t.count + 1
    pools := Function.update t.pools t.count {}
    parent := Function.update t.parent t.count none
    older := by
      intro i p h
      by_cases hi : i = t.count
      · subst hi
        simp at h
      · rw [Function.update_of_ne hi] at h
        exact t.older i p h }

def init (i : Nat) (config : PoolConfig) : Status × PoolTree :=
  let (status, s) := (t.view i).init config
  (status, t.put i s)

def adopt (i : Nat) (hi : i < t.count) : PoolTree :=
  { t with
    count := t.count + 1
    pools := Function.update t.pools t.count {}
    parent := Function.update t.parent t.count (some i)
    older := by
      intro j p h
      by_cases hj : j = t.count
      · subst hj
        rw [Function.update_self, Option.some.injEq] at h
        exact h ▸ hi
      · rw [Function.update_of_ne hj] at h
        exact t.older j p h }

/-- `allocated` says whether `new (std::nothrow)` found memory. -/
def createChild (i : Nat) (hi : i < t.count) (config : PoolConfig) (allocated : Bool) :
    Result Nat × PoolTree :=
  if (t.pools i).inited = false then
    (.error ⟨.kNotInitialized, "parent pool not initialized", .kCore⟩, t)
  else if allocated = false then
    (.error ⟨.kInternalError, "failed to allocate child pool", .kCore⟩, t)
  else
    let (status, child) := (t.adopt i hi).init t.count config
    if status.ok then (.ok t.count, child) else (.error status, t)

/-- Two Block objects have two addresses, whichever pools they belong to. -/
def allocAligned (i size alignment : Nat) (answer : Answer) : Option (Option Nat × PoolTree) :=
  if ∀ j < t.count, (t.pools j).FreshBlock answer.block then
    ((t.view i).allocAligned size alignment answer).map fun (result, s) =>
      (result, (t.put i s).writeUsed (t.foreign i ((t.view i).recycledOwner size))
        fun used => (used + 1) % 2 ^ 64)
  else none

def alloc (i size : Nat) (answer : Answer) : Option (Option Nat × PoolTree) :=
  t.allocAligned i size 8 answer

def free (i ptr : Nat) : PoolTree :=
  (t.put i ((t.view i).free ptr)).writeUsed (t.foreign i ((t.view i).freedOwner ptr))
    fun used => if used > 0 then used - 1 else used

def owns (i ptr : Nat) : Bool := (t.view i).owns ptr

end PoolTree

end Corekit.Memory
