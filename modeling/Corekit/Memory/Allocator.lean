import Corekit.Api.Status
import Mathlib.Data.List.Nodup
import Mathlib.Data.Multiset.Basic
import Mathlib.Algebra.GroupWithZero.Nat

/-! The counting allocators. `SystemAllocator`, `MimallocAllocator` and
`TbbAllocator` are written alike, up to the name of the backend and the calls
they make to it, so one definition with the backend as a field models the three.
Counters are 64-bit; the answer of the backend is an argument. -/
namespace Corekit.Memory
open Corekit.Api

inductive AllocBackend where
  | kSystem
  | kTbbScalable
  | kMimalloc
  deriving DecidableEq, Repr

def isPowerOfTwo (x : Nat) : Bool := x ≠ 0 ∧ x &&& (x - 1) = 0

/-- `alloc_sizes_`: pointers and the sizes they were asked for. -/
abbrev SizeTable := List (Nat × Nat)

namespace SizeTable

variable (table : SizeTable)

def sizeOf? (ptr : Nat) : Option Nat :=
  (List.find? (fun entry => entry.1 = ptr) table).map Prod.snd

def erase (ptr : Nat) : SizeTable := table.filter fun entry => entry.1 ≠ ptr

def put (ptr size : Nat) : SizeTable := (ptr, size) :: erase table ptr

def total : Nat := (table.map Prod.snd).sum

end SizeTable

structure CountingAllocator where
  backend : AllocBackend
  allocCount : Nat := 0
  freeCount : Nat := 0
  allocFailCount : Nat := 0
  bytesInUse : Nat := 0
  bytesPeak : Nat := 0
  allocSizes : SizeTable := []
  deriving DecidableEq

namespace CountingAllocator

variable (a : CountingAllocator)

def failureText : AllocBackend → String
  | .kSystem => "posix_memalign failed"
  | .kMimalloc => "mi_malloc_aligned failed"
  | .kTbbScalable => "scalable_aligned_malloc failed"

def recordAllocFailure : CountingAllocator :=
  { a with allocFailCount := (a.allocFailCount + 1) % 2 ^ 64 }

def recordAllocSuccess (ptr size : Nat) : CountingAllocator :=
  let inUseNow := (a.bytesInUse + size) % 2 ^ 64
  { a with
    allocCount := (a.allocCount + 1) % 2 ^ 64
    allocSizes := SizeTable.put a.allocSizes ptr size
    bytesInUse := inUseNow
    bytesPeak := max a.bytesPeak inUseNow }

/-- The subtraction that stops at zero. -/
def lowered (cur delta : Nat) : Nat := if cur > delta then cur - delta else 0

def recordDeallocate (ptr : Nat) : CountingAllocator :=
  let released := (SizeTable.sizeOf? a.allocSizes ptr).getD 0
  { a with
    allocSizes := SizeTable.erase a.allocSizes ptr
    freeCount := (a.freeCount + 1) % 2 ^ 64
    bytesInUse := if released > 0 then lowered a.bytesInUse released else a.bytesInUse }

def resetStats : CountingAllocator :=
  let live := SizeTable.total a.allocSizes % 2 ^ 64
  { a with
    allocCount := 0
    freeCount := 0
    allocFailCount := 0
    bytesInUse := live
    bytesPeak := live }

/-- The status of arguments that are refused. -/
def checkArguments (size alignment : Nat) : Option Status :=
  if size = 0 then some ⟨.kInvalidArgument, "size must be > 0", .kMemory⟩
  else if alignment < 8 ∨ isPowerOfTwo alignment = false then
    some ⟨.kInvalidArgument, "alignment must be power-of-two and >= sizeof(void*)", .kMemory⟩
  else none

def allocate (size alignment : Nat) (answer : Option Nat) : Result Nat × CountingAllocator :=
  match checkArguments size alignment with
  | some status => (.error status, a.recordAllocFailure)
  | none =>
    match answer with
    | none => (.error ⟨.kInternalError, failureText a.backend, .kMemory⟩, a.recordAllocFailure)
    | some ptr => (.ok ptr, a.recordAllocSuccess ptr size)

def deallocate (ptr : Nat) : Status × CountingAllocator :=
  if ptr = 0 then (.okStatus, a) else (.okStatus, a.recordDeallocate ptr)

end CountingAllocator

namespace SizeTable

variable {table : SizeTable} {ptr size : Nat}

theorem erase_of_notMem (h : ptr ∉ table.map Prod.fst) : erase table ptr = table := by
  apply List.filter_eq_self.mpr
  intro entry hentry
  simp only [ne_eq, decide_eq_true_eq]
  exact fun heq => h (heq ▸ List.mem_map_of_mem hentry)

theorem perm_of_mem (hnodup : (table.map Prod.fst).Nodup) (h : (ptr, size) ∈ table) :
    sizeOf? table ptr = some size ∧ table.Perm ((ptr, size) :: erase table ptr) := by
  induction table with
  | nil => cases h
  | cons entry rest ih =>
    obtain ⟨hnot, hrest⟩ := List.nodup_cons.mp (List.map_cons ▸ hnodup)
    rcases List.mem_cons.mp h with heq | hmem
    · subst heq
      refine ⟨by simp [sizeOf?], ?_⟩
      have herase : erase ((ptr, size) :: rest) ptr = rest := by
        have := @erase_of_notMem rest ptr (by simpa using hnot)
        simpa [erase] using this
      rw [herase]
    · have hne : entry.1 ≠ ptr := by
        intro heq
        exact hnot (heq ▸ List.mem_map_of_mem (f := Prod.fst) hmem)
      obtain ⟨hfind, hperm⟩ := ih hrest hmem
      have herase : erase (entry :: rest) ptr = entry :: erase rest ptr := by
        simp [erase, hne]
      refine ⟨?_, ?_⟩
      · rw [← hfind]
        simp [sizeOf?, hne]
      · rw [herase]
        exact (hperm.cons entry).trans (List.Perm.swap _ _ _)

theorem total_perm {table' : SizeTable} (h : table.Perm table') : total table = total table' :=
  (h.map Prod.snd).sum_nat

@[simp] theorem total_cons (entry : Nat × Nat) : total (entry :: table) = entry.2 + total table := by
  simp [total]

end SizeTable

end Corekit.Memory
