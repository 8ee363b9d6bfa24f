import Corekit.Api.Status
import Corekit.Foundation.Extent
import Mathlib.Data.UInt
import Mathlib.Logic.Function.Basic

/-! `SlabPoolImpl` over a byte memory. The slab headers live in that memory, in
front of the user bytes; the Block objects live in deques of their own and are
known by their addresses, which is what a header stores. What the surroundings
decide (the answer of the underlying allocator, where a deque puts a Block) is
an argument; the outer `none` of a result says that this is no possible answer. -/
namespace Corekit.Memory
open Corekit.Api Corekit.Foundation

def kNumSizeClasses : Nat := 10

def kSizeClasses : List Nat := [8, 16, 32, 64, 128, 256, 512, 1024, 2048, 4096]

def kGuardPattern : UInt8 := 0xFD

def kGuardSize : Nat := 8

def kSlabMagic : Nat := 0xC0EE0AAB

def kLargeClass : Nat := 0xFFFF

def sizeofSlabHeader : Nat := 24

/-- The smallest class that fits, `kNumSizeClasses` if there is none. -/
def sizeClassIndex (size : Nat) : Nat := kSizeClasses.findIdx fun bytes => size ≤ bytes

def classBytes (classIdx : Nat) : Nat := kSizeClasses.getD classIdx 0

namespace SlabHeader

variable (mem : Mem) (hdr : Nat)

def magic : Nat := mem.loadLE 4 hdr

def classIndex : Nat := mem.loadLE 2 (hdr + 4)

def flags : Nat := mem.loadLE 2 (hdr + 6)

def userSize : Nat := mem.loadLE 8 (hdr + 8)

def blockOwner : Nat := mem.loadLE 8 (hdr + 16)

def setMagic (value : Nat) : Mem := mem.storeLE 4 hdr value

def setClassIndex (value : Nat) : Mem := mem.storeLE 2 (hdr + 4) value

def setFlags (value : Nat) : Mem := mem.storeLE 2 (hdr + 6) value

def setUserSize (value : Nat) : Mem := mem.storeLE 8 (hdr + 8) value

def setBlockOwner (value : Nat) : Mem := mem.storeLE 8 (hdr + 16) value

/-- The stores that every allocation makes into its header. -/
def stamp (classIdx : Nat) (guards : Bool) (size : Nat) : Mem :=
  let mem := setMagic mem hdr kSlabMagic
  let mem := setClassIndex mem hdr classIdx
  let mem := setFlags mem hdr (if guards then 1 else 0)
  setUserSize mem hdr size

end SlabHeader

def headerFromUser (ptr : Nat) : Nat := ptr - sizeofSlabHeader

def userFromHeader (hdr : Nat) : Nat := hdr + sizeofSlabHeader

structure Block where
  /-- where the Block object is -/
  address : Nat
  base : Nat
  totalBytes : Nat
  slabSize : Nat
  slabCount : Nat
  usedCount : Nat
  deriving DecidableEq, Repr

structure PoolConfig where
  blockSize : UInt64 := 65536
  maxBytes : UInt64 := 0
  enableGuardBytes : Bool := false
  deriving DecidableEq

/-- 64-bit counters. -/
structure AtomicStats where
  allocCount : Nat := 0
  freeCount : Nat := 0
  bytesInUse : Nat := 0
  bytesPeak : Nat := 0
  slabHits : Nat := 0
  slabMisses : Nat := 0
  deriving DecidableEq, Repr

structure SlabPoolImpl where
  config : PoolConfig := {}
  inited : Bool := false
  stats : AtomicStats := {}
  blocks : Nat → List Block := fun _ => []
  freeLists : Nat → List Nat := fun _ => []
  largeAllocs : List Nat := []

/-- The memory and what the underlying allocator has handed out of it. -/
structure Heap where
  memory : Mem := fun _ => 0
  outstanding : List Extent := []

/-- A pool, the statistics of its parent if it has one, and the heap. -/
structure PoolState where
  pool : SlabPoolImpl := {}
  parentStats : Option AtomicStats := none
  heap : Heap := {}

/-- What the surroundings answer to one allocation. -/
structure Answer where
  /-- the pointer from the underlying allocator -/
  raw : Option Nat
  /-- the address of a new Block object -/
  block : Nat
  deriving DecidableEq, Repr

namespace Heap

/-- The underlying allocator may hand out a range that overlaps no other. -/
def Grants (heap : Heap) (size raw : Nat) : Prop :=
  0 < raw ∧ raw + size ≤ 2 ^ 64 ∧ ∀ extent ∈ heap.outstanding, extent.Disjoint ⟨raw, size⟩

instance (heap : Heap) (size raw : Nat) : Decidable (heap.Grants size raw) :=
  inferInstanceAs (Decidable (_ ∧ _ ∧ _))

def globalAllocOrNull (heap : Heap) (size _alignment : Nat) :
    Option Nat → Option (Option Nat × Heap)
  | none => some (none, heap)
  | some raw =>
    if heap.Grants size raw then
      some (some raw, { heap with outstanding := ⟨raw, size⟩ :: heap.outstanding })
    else none

def globalFreeIgnore (heap : Heap) (ptr : Nat) : Heap :=
  { heap with outstanding := heap.outstanding.eraseP fun extent => extent.base = ptr }

end Heap

def writeGuard (mem : Mem) (userPtr userSize slabDataSize : Nat) : Mem :=
  mem.fill (userPtr + userSize) (min (slabDataSize - userSize) kGuardSize) kGuardPattern

/-- `Free` calls this and does not look at the answer. -/
def validateGuard (mem : Mem) (userPtr userSize : Nat) : Bool :=
  mem.read (userPtr + userSize) kGuardSize = List.replicate kGuardSize kGuardPattern

namespace AtomicStats

def addInUse (stats : AtomicStats) (size : Nat) : AtomicStats :=
  { stats with bytesInUse := (stats.bytesInUse + size) % 2 ^ 64 }

/-- The compare-exchange loop that stops at zero. -/
def subInUse (stats : AtomicStats) (size : Nat) : AtomicStats :=
  { stats with
    bytesInUse := if stats.bytesInUse > size then stats.bytesInUse - size else 0 }

def recordAlloc (stats : AtomicStats) (size : Nat) : AtomicStats :=
  let inUse := (stats.bytesInUse + size) % 2 ^ 64
  { stats with
    allocCount := (stats.allocCount + 1) % 2 ^ 64
    bytesInUse := inUse
    bytesPeak := max stats.bytesPeak inUse }

def recordFree (stats : AtomicStats) (size : Nat) : AtomicStats :=
  { stats.subInUse size with freeCount := (stats.freeCount + 1) % 2 ^ 64 }

end AtomicStats

namespace Block

def slabs (block : Block) : List Nat := Extent.cells block.base block.slabSize block.slabCount

def extent (block : Block) : Extent := ⟨block.base, block.totalBytes⟩

/-- A write to `used_count` through a pointer. -/
def writeUsed (address : Nat) (f : Nat → Nat) (block : Block) : Block :=
  if block.address = address then { block with usedCount := f block.usedCount } else block

end Block

namespace SlabPoolImpl

variable (pool : SlabPoolImpl)

def slabSize (classIdx : Nat) : Nat :=
  sizeofSlabHeader + classBytes classIdx + if pool.config.enableGuardBytes then kGuardSize else 0

def allBlocks : List Block := (List.range kNumSizeClasses).flatMap pool.blocks

/-- A write through a pointer to a Block. One that points to no stored Block is
dangling, and nothing is said of it here. -/
def updateUsed (address : Nat) (f : Nat → Nat) : SlabPoolImpl :=
  { pool with blocks := fun classIdx => (pool.blocks classIdx).map (Block.writeUsed address f) }

/-- Where a deque may put a new Block. -/
def FreshBlock (address : Nat) : Prop :=
  0 < address ∧ address < 2 ^ 64 ∧ ∀ block ∈ pool.allBlocks, block.address ≠ address

instance (address : Nat) : Decidable (pool.FreshBlock address) :=
  inferInstanceAs (Decidable (_ ∧ _ ∧ _))

def blockCount : Nat := pool.allBlocks.length

end SlabPoolImpl

namespace PoolState

variable (s : PoolState)

def init (config : PoolConfig) : Status × PoolState :=
  if s.pool.inited then
    (⟨.kAlreadyInitialized, "pool already initialized", .kCore⟩, s)
  else (.okStatus, { s with pool := { s.pool with config := config, inited := true } })

/-- The branch of `AllocFromSlab` that takes the last slot of the free list. -/
def popSlab (classIdx userSize slot : Nat) : PoolState :=
  let guards := s.pool.config.enableGuardBytes
  let mem := SlabHeader.stamp s.heap.memory slot classIdx guards userSize
  let mem := if guards then
      writeGuard mem (userFromHeader slot) userSize (classBytes classIdx)
    else mem
  let owner := SlabHeader.blockOwner mem slot
  let pool := { s.pool with
    freeLists := Function.update s.pool.freeLists classIdx (s.pool.freeLists classIdx).dropLast
    stats := { s.pool.stats with slabHits := (s.pool.stats.slabHits + 1) % 2 ^ 64 } }
  { s with
    pool := if owner ≠ 0 then pool.updateUsed owner fun used => (used + 1) % 2 ^ 64 else pool
    heap := { s.heap with memory := mem } }

/-- The loop that hands the slabs `1 .. N-1` of a new block to the free list. -/
def populate (block : Block) : List Nat → Mem × List Nat → Mem × List Nat
  | [], result => result
  | i :: rest, (mem, freeList) =>
    let slot := block.base + i * block.slabSize
    populate block rest (SlabHeader.setBlockOwner mem slot block.address, freeList ++ [slot])

/-- The rest of `AllocFromSlab`, once the block is there. -/
def carveBlock (classIdx userSize : Nat) (block : Block) : PoolState :=
  let guards := s.pool.config.enableGuardBytes
  let mem := s.heap.memory.fill block.base block.totalBytes 0
  let (mem, freeList) := populate block (List.range' 1 (block.slabCount - 1))
    (mem, s.pool.freeLists classIdx)
  let mem := SlabHeader.stamp mem block.base classIdx guards userSize
  let mem := SlabHeader.setBlockOwner mem block.base block.address
  let mem := if guards then
      writeGuard mem (userFromHeader block.base) userSize (classBytes classIdx)
    else mem
  { s with
    pool := { s.pool with
      blocks := Function.update s.pool.blocks classIdx (s.pool.blocks classIdx ++ [block])
      freeLists := Function.update s.pool.freeLists classIdx freeList
      stats := { s.pool.stats with slabMisses := (s.pool.stats.slabMisses + 1) % 2 ^ 64 } }
    heap := { s.heap with memory := mem } }

def allocFromSlab (classIdx userSize : Nat) (answer : Answer) : Option (Option Nat × PoolState) :=
  match (s.pool.freeLists classIdx).getLast? with
  | some slot => some (some (userFromHeader slot), s.popSlab classIdx userSize slot)
  | none =>
    let slabSize := s.pool.slabSize classIdx
    let blockBytes := s.pool.config.blockSize.toNat
    let slabCount := blockBytes / slabSize
    if slabCount = 0 then some (none, s)
    else
      match s.heap.globalAllocOrNull blockBytes 8 answer.raw with
      | none => none
      | some (none, heap) => some (none, { s with heap := heap })
      | some (some raw, heap) =>
        if s.pool.FreshBlock answer.block then
          some (some (userFromHeader raw), carveBlock { s with heap := heap } classIdx userSize
            ⟨answer.block, raw, blockBytes, slabSize, slabCount, 1⟩)
        else none

def allocLarge (size alignment : Nat) (answer : Answer) : Option (Option Nat × PoolState) :=
  let guards := s.pool.config.enableGuardBytes
  let total := (sizeofSlabHeader + size + if guards then kGuardSize else 0) % 2 ^ 64
  match s.heap.globalAllocOrNull total (max alignment 8) answer.raw with
  | none => none
  | some (none, heap) => some (none, { s with heap := heap })
  | some (some raw, heap) =>
    let mem := SlabHeader.stamp heap.memory raw kLargeClass guards size
    let mem := SlabHeader.setBlockOwner mem raw 0
    let mem := if guards then writeGuard mem (userFromHeader raw) size size else mem
    some (some (userFromHeader raw), { s with
      pool := { s.pool with largeAllocs := s.pool.largeAllocs ++ [raw] }
      heap := { heap with memory := mem } })

/-- The statistics of a successful allocation, of the pool and of its parent. -/
def recordAlloc (size : Nat) : PoolState :=
  { s with
    pool := { s.pool with stats := s.pool.stats.recordAlloc size }
    parentStats := s.parentStats.map fun stats => stats.addInUse size }

def allocAligned (size alignment : Nat) (answer : Answer) : Option (Option Nat × PoolState) :=
  if size = 0 ∨ s.pool.inited = false then some (none, s)
  else if 0 < s.pool.config.maxBytes.toNat ∧
      s.pool.config.maxBytes.toNat < (s.pool.stats.bytesInUse + size) % 2 ^ 64 then
    some (none, s)
  else
    let classIdx := sizeClassIndex size
    let result := if classIdx < kNumSizeClasses then s.allocFromSlab classIdx size answer
      else s.allocLarge size alignment answer
    result.map fun
      | (some ptr, s) => (some ptr, s.recordAlloc size)
      | (none, s) => (none, s)

def alloc (size : Nat) (answer : Answer) : Option (Option Nat × PoolState) :=
  s.allocAligned size 8 answer

def freeToSlab (hdr : Nat) : PoolState :=
  let classIdx := SlabHeader.classIndex s.heap.memory hdr
  if kNumSizeClasses ≤ classIdx then s
  else
    let owner := SlabHeader.blockOwner s.heap.memory hdr
    let pool := if owner ≠ 0 then
        s.pool.updateUsed owner fun used => if used > 0 then used - 1 else used
      else s.pool
    { s with
      pool := { pool with
        freeLists := Function.update pool.freeLists classIdx (pool.freeLists classIdx ++ [hdr]) }
      heap := { s.heap with memory := SlabHeader.setMagic s.heap.memory hdr 0 } }

/-- Overwrite the first `raw` with the last element, and drop the last. -/
def swapRemove (largeAllocs : List Nat) (raw : Nat) : List Nat :=
  match largeAllocs.findIdx? (· = raw), largeAllocs.getLast? with
  | some i, some last => (largeAllocs.set i last).dropLast
  | _, _ => largeAllocs

def freeLarge (hdr : Nat) : PoolState :=
  { s with
    pool := { s.pool with largeAllocs := swapRemove s.pool.largeAllocs hdr }
    heap := Heap.globalFreeIgnore
      { s.heap with memory := SlabHeader.setMagic s.heap.memory hdr 0 } hdr }

def free (ptr : Nat) : PoolState :=
  if ptr = 0 ∨ s.pool.inited = false then s
  else
    let hdr := headerFromUser ptr
    if SlabHeader.magic s.heap.memory hdr ≠ kSlabMagic then s
    else
      let freedSize := SlabHeader.userSize s.heap.memory hdr
      let s := if SlabHeader.classIndex s.heap.memory hdr = kLargeClass then s.freeLarge hdr
        else s.freeToSlab hdr
      { s with
        pool := { s.pool with stats := s.pool.stats.recordFree freedSize }
        parentStats := s.parentStats.map fun stats => stats.subInUse freedSize }

/-- `RebuildFreeList`: the slabs without the magic number are free. -/
def rebuildFreeList (block : Block) : List Nat → Mem × List Nat → Mem × List Nat
  | [], result => result
  | slot :: rest, (mem, freeList) =>
    if SlabHeader.magic mem slot ≠ kSlabMagic then
      rebuildFreeList block rest
        (SlabHeader.setBlockOwner mem slot block.address, freeList ++ [slot])
    else rebuildFreeList block rest (mem, freeList)

/-- `Shrink` in one size class. The blocks in use are copied into a new deque,
at `addresses`. -/
def shrinkClass (classIdx : Nat) (addresses : List Nat) : Option PoolState :=
  let idle := (s.pool.blocks classIdx).filter fun block => block.usedCount = 0
  let inUse := (s.pool.blocks classIdx).filter fun block => block.usedCount ≠ 0
  if addresses.length = inUse.length ∧ addresses.Nodup ∧
      ∀ address ∈ addresses, s.pool.FreshBlock address then
    let heap := idle.foldl (fun heap block => heap.globalFreeIgnore block.base) s.heap
    let kept := inUse.zipWith (fun block address => { block with address := address }) addresses
    let (mem, freeList) := kept.foldl
      (fun result block => rebuildFreeList block block.slabs result) (heap.memory, [])
    some { s with
      pool := { s.pool with
        blocks := Function.update s.pool.blocks classIdx kept
        freeLists := Function.update s.pool.freeLists classIdx freeList }
      heap := { heap with memory := mem } }
  else none

def shrinkFrom (addresses : Nat → List Nat) : List Nat → PoolState → Option PoolState
  | [], s => some s
  | classIdx :: rest, s =>
    match s.shrinkClass classIdx (addresses classIdx) with
    | none => none
    | some s => shrinkFrom addresses rest s

def shrink (addresses : Nat → List Nat) : Option PoolState :=
  shrinkFrom addresses (List.range kNumSizeClasses) s

end PoolState

end Corekit.Memory
