import Corekit.Foundation.Slots
import Corekit.Memory.PoolFrames
import Corekit.Memory.SlabRuns

/-! One pool used by many threads. Every section under `mu_` and every single atomic
operation is one step. The header of an allocation that is being made or freed
belongs to its thread; the accesses to it outside of a section go with the step
that they stand next to. -/
namespace Corekit.Memory
open Corekit.Foundation Allocation

def SlabPoolImpl.listing (pool : SlabPoolImpl) (raws : List Nat) : SlabPoolImpl :=
  { pool with largeAllocs := pool.largeAllocs ++ raws }

namespace PoolState

variable (s : PoolState)

/-- `AllocLarge` up to its section. -/
def takeLarge (size alignment : Nat) (answer : Answer) : Option (Option Nat × PoolState) :=
  let guards := s.pool.config.enableGuardBytes
  let total := (sizeofSlabHeader + size + if guards then kGuardSize else 0) % 2 ^ 64
  match s.heap.globalAllocOrNull total (max alignment 8) answer.raw with
  | none => none
  | some (none, heap) => some (none, { s with heap := heap })
  | some (some raw, heap) =>
    let mem := SlabHeader.stamp heap.memory raw kLargeClass guards size
    let mem := SlabHeader.setBlockOwner mem raw 0
    let mem := if guards then writeGuard mem (userFromHeader raw) size size else mem
    some (some raw, { s with heap := { heap with memory := mem } })

def listing (raws : List Nat) : PoolState := { s with pool := s.pool.listing raws }

theorem allocLarge_eq (size alignment : Nat) (answer : Answer) :
    s.allocLarge size alignment answer = (s.takeLarge size alignment answer).map fun
      | (some raw, s) => (some (userFromHeader raw), s.listing [raw])
      | (none, s) => (none, s) := by
  simp only [allocLarge, takeLarge]
  generalize s.heap.globalAllocOrNull _ _ _ = result
  match result with
  | none | some (none, _) | some (some _, _) => rfl

end PoolState

/-- The next operation of a thread. -/
inductive PoolPc where
  | idle
  -- AllocAligned
  | checking (size alignment : Nat)
  | taking (size alignment : Nat)
  | listing (x : Allocation)
  | counting (x : Allocation)
  | adding (x : Allocation)
  | loadingPeak (x : Allocation) (inUse : Nat)
  | raisingPeak (x : Allocation) (inUse peak : Nat)
  | addingParent (x : Allocation)
  -- Free
  | releasing (x : Allocation)
  | countingFree (size : Nat)
  | loadingInUse (size : Nat)
  | lowering (size cur : Nat)
  | loadingParent (size : Nat)
  | loweringParent (size pcur : Nat)
  deriving DecidableEq, Repr

structure PoolThreads where
  state : PoolState
  /-- what callers got from `AllocAligned` and have not passed to `Free` -/
  live : List Allocation := []
  threads : List PoolPc

inductive PoolCall where
  | allocAligned (size alignment : Nat)
  | free (ptr : Nat)

/-- The answers of the surroundings and whether a weak exchange fails without a
reason are choices. The counters of the parent are its own: its other users may
change them at any time. -/
inductive PoolLabel where
  | call (thread : Nat) (call : PoolCall)
  | step (thread : Nat) (answer : Answer) (spurious : Bool)
  | shrink (addresses : Nat → List Nat)
  | store (address : Nat) (byte : UInt8)
  | parent (stats : AtomicStats)

namespace PoolThreads

def start (config : PoolConfig) (parentStats : Option AtomicStats) (count : Nat) : PoolThreads :=
  { state := (PoolState.init { parentStats := parentStats } config).2
    threads := List.replicate count .idle }

variable (w : PoolThreads)

def goto (thread : Nat) (pc : PoolPc) : PoolThreads :=
  { w with threads := w.threads.set thread pc }

def withStats (stats : AtomicStats) : PoolThreads :=
  { w with state := { w.state with pool := { w.state.pool with stats := stats } } }

def withParent (stats : Option AtomicStats) : PoolThreads :=
  { w with state := { w.state with parentStats := stats } }

/-- `Free` is called with a null pointer or a live one. -/
def enter (thread : Nat) : PoolCall → Option PoolThreads
  | .allocAligned size alignment =>
    if size = 0 ∨ w.state.pool.inited = false then some w
    else if 0 < w.state.pool.config.maxBytes.toNat then
      some (w.goto thread (.checking size alignment))
    else some (w.goto thread (.taking size alignment))
  | .free ptr =>
    if ptr = 0 ∨ w.state.pool.inited = false then some w
    else
      (w.live.find? fun x => x.ptr = ptr).map fun x =>
        { w with live := w.live.erase x }.goto thread (.releasing x)

/-- The pointer is returned, after the parent has been told. -/
def recorded (thread : Nat) (x : Allocation) : PoolThreads :=
  match w.state.parentStats with
  | some _ => w.goto thread (.addingParent x)
  | none => { w with live := x :: w.live }.goto thread .idle

/-- A failed `compare_exchange_weak` loads the current value and tries again. -/
def advance (thread : Nat) (answer : Answer) (spurious : Bool) : PoolPc → Option PoolThreads
  | .idle => none
  | .checking size alignment =>
    let current := w.state.pool.stats.bytesInUse
    if w.state.pool.config.maxBytes.toNat < (current + size) % 2 ^ 64 then
      some (w.goto thread .idle)
    else some (w.goto thread (.taking size alignment))
  | .taking size alignment =>
    let classIdx := sizeClassIndex size
    if classIdx < kNumSizeClasses then
      (w.state.allocFromSlab classIdx size answer).map fun
        | (none, state) => { w with state := state }.goto thread .idle
        | (some ptr, state) =>
          { w with state := state }.goto thread (.counting ⟨headerFromUser ptr, size⟩)
    else
      (w.state.takeLarge size alignment answer).map fun
        | (none, state) => { w with state := state }.goto thread .idle
        | (some raw, state) => { w with state := state }.goto thread (.listing ⟨raw, size⟩)
  | .listing x =>
    some ({ w with state := w.state.listing [x.header] }.goto thread (.counting x))
  | .counting x =>
    let stats := w.state.pool.stats
    some ((w.withStats { stats with allocCount := (stats.allocCount + 1) % 2 ^ 64 }).goto thread
      (.adding x))
  | .adding x =>
    let stats := w.state.pool.stats.addInUse x.size
    some ((w.withStats stats).goto thread (.loadingPeak x stats.bytesInUse))
  | .loadingPeak x inUse =>
    some (w.goto thread (.raisingPeak x inUse w.state.pool.stats.bytesPeak))
  | .raisingPeak x inUse peak =>
    let stats := w.state.pool.stats
    if inUse > peak then
      if stats.bytesPeak = peak ∧ spurious = false then
        some ((w.withStats { stats with bytesPeak := inUse }).recorded thread x)
      else some (w.goto thread (.raisingPeak x inUse stats.bytesPeak))
    else some (w.recorded thread x)
  | .addingParent x =>
    let parentStats := w.state.parentStats.map fun stats => AtomicStats.addInUse stats x.size
    some ({ w.withParent parentStats with live := x :: w.live }.goto thread .idle)
  | .releasing x =>
    let hdr := headerFromUser x.ptr
    if SlabHeader.magic w.state.heap.memory hdr ≠ kSlabMagic then some (w.goto thread .idle)
    else
      let freedSize := SlabHeader.userSize w.state.heap.memory hdr
      let state := if SlabHeader.classIndex w.state.heap.memory hdr = kLargeClass then
          w.state.freeLarge hdr
        else w.state.freeToSlab hdr
      some ({ w with state := state }.goto thread (.countingFree freedSize))
  | .countingFree size =>
    let stats := w.state.pool.stats
    some ((w.withStats { stats with freeCount := (stats.freeCount + 1) % 2 ^ 64 }).goto thread
      (.loadingInUse size))
  | .loadingInUse size => some (w.goto thread (.lowering size w.state.pool.stats.bytesInUse))
  | .lowering size cur =>
    let stats := w.state.pool.stats
    if stats.bytesInUse = cur ∧ spurious = false then
      some ((w.withStats (stats.subInUse size)).goto thread
        (if w.state.parentStats.isSome then .loadingParent size else .idle))
    else some (w.goto thread (.lowering size stats.bytesInUse))
  | .loadingParent size =>
    w.state.parentStats.map fun stats => w.goto thread (.loweringParent size stats.bytesInUse)
  | .loweringParent size pcur =>
    w.state.parentStats.map fun stats =>
      if stats.bytesInUse = pcur ∧ spurious = false then
        (w.withParent (some (stats.subInUse size))).goto thread .idle
      else w.goto thread (.loweringParent size stats.bytesInUse)

/-- Callers write into the bytes that they asked for; memory that the underlying
allocator has not handed out may change at any time. -/
def step : PoolLabel → Option PoolThreads
  | .call thread call => if w.threads[thread]? = some .idle then w.enter thread call else none
  | .step thread answer spurious => (w.threads[thread]?).bind (w.advance thread answer spurious)
  | .shrink addresses => (w.state.shrink addresses).map fun state => { w with state := state }
  | .store address byte =>
    if PoolWorld.Writable ⟨w.state, w.live⟩ address then
      some { w with state := { w.state with heap := { w.state.heap with
        memory := w.state.heap.memory.write address [byte] } } }
    else none
  | .parent stats => some (w.withParent (w.state.parentStats.map fun _ => stats))

def Quiescent : Prop := ∀ pc ∈ w.threads, pc = .idle

instance : Decidable w.Quiescent := inferInstanceAs (Decidable (∀ pc ∈ w.threads, _))

/-! A call that nothing interrupts does what the sequential model says. -/

section Alone

variable {threads : List PoolPc} {i : Nat} (hi : i < threads.length)
include hi

theorem runs_own {s : PoolState} {live : List Allocation} {pc : PoolPc} {answer : Answer}
    {spurious : Bool} {rest : List PoolLabel} :
    runs step ⟨s, live, threads.set i pc⟩ (.step i answer spurious :: rest) =
      (advance ⟨s, live, threads.set i pc⟩ i answer spurious pc).bind
        fun next => runs step next rest := by
  rw [runs, step, List.getElem?_set_self hi, Option.bind_some]

theorem counting_alone (s : PoolState) (live : List Allocation) (x : Allocation) :
    ∃ labels, runs step ⟨s, live, threads.set i (.counting x)⟩ labels =
      some ⟨s.recordAlloc x.size, x :: live, threads.set i .idle⟩ := by
  obtain ⟨pool, parentStats, heap⟩ := s
  have hpeak (stats : Option AtomicStats) (rest : List PoolLabel) :
      runs step ⟨⟨pool, stats, heap⟩, live, threads.set i (.counting x)⟩
        (.step i ⟨none, 0⟩ false :: .step i ⟨none, 0⟩ false :: .step i ⟨none, 0⟩ false ::
          .step i ⟨none, 0⟩ false :: rest) =
      runs step (recorded ⟨⟨{ pool with stats := pool.stats.recordAlloc x.size }, stats, heap⟩, live,
        threads.set i (.counting x)⟩ i x) rest := by
    simp only [runs_own hi, advance, goto, withStats, List.set_set, Option.bind_some,
      AtomicStats.addInUse, AtomicStats.recordAlloc]
    rcases Nat.lt_or_ge pool.stats.bytesPeak ((pool.stats.bytesInUse + x.size) % 2 ^ 64)
      with hlt | hge
    · simp only [max_eq_right hlt.le, if_pos hlt, and_self, if_true, Option.bind_some, recorded, goto,
        List.set_set]
    · simp only [max_eq_left hge, if_neg hge.not_gt, Option.bind_some, recorded, goto, List.set_set]
  cases parentStats with
  | none =>
    refine ⟨_, (hpeak none []).trans ?_⟩
    simp only [recorded, goto, List.set_set, runs_nil]
    rfl
  | some stats =>
    refine ⟨_, (hpeak (some stats) [.step i ⟨none, 0⟩ false]).trans ?_⟩
    simp only [recorded, goto, List.set_set, runs_own hi, advance, withParent, Option.bind_some,
      runs_nil]
    rfl

omit hi in
theorem runs_call {s : PoolState} {live : List Allocation} (hidle : threads[i]? = some .idle)
    {call : PoolCall} {rest : List PoolLabel} :
    runs step ⟨s, live, threads⟩ (.call i call :: rest) =
      (enter ⟨s, live, threads⟩ i call).bind fun next => runs step next rest := by
  rw [runs, step, if_pos hidle]

omit hi in
theorem set_idle (hidle : threads[i]? = some .idle) : threads.set i .idle = threads := by
  obtain ⟨hlt, heq⟩ := List.getElem?_eq_some_iff.mp hidle
  rw [← heq, List.set_getElem_self hlt]

theorem taking_alone {s : PoolState} (live : List Allocation) (hidle : threads[i]? = some .idle)
    {size : Nat} (alignment : Nat) (hready : ¬(size = 0 ∨ s.pool.inited = false))
    (hbudget : ¬(0 < s.pool.config.maxBytes.toNat ∧
      s.pool.config.maxBytes.toNat < (s.pool.stats.bytesInUse + size) % 2 ^ 64)) :
    ∃ labels, runs step ⟨s, live, threads⟩ (.call i (.allocAligned size alignment) :: labels) =
      some ⟨s, live, threads.set i (.taking size alignment)⟩ := by
  by_cases hlimited : 0 < s.pool.config.maxBytes.toNat
  · refine ⟨[.step i ⟨none, 0⟩ false], ?_⟩
    simp only [runs_call hidle, enter, hready, if_false, hlimited, if_true, goto, Option.bind_some,
      runs_own hi, advance, not_and.mp hbudget hlimited, List.set_set, runs_nil]
  · refine ⟨[], ?_⟩
    simp only [runs_call hidle, enter, hready, if_false, hlimited, goto, Option.bind_some, runs_nil]

theorem refused_alone {s : PoolState} (live : List Allocation) (hidle : threads[i]? = some .idle)
    {size alignment : Nat} (hrefuses : s.Refuses size) :
    ∃ labels, runs step ⟨s, live, threads⟩ (.call i (.allocAligned size alignment) :: labels) =
      some ⟨s, live, threads⟩ := by
  by_cases hready : size = 0 ∨ s.pool.inited = false
  · refine ⟨[], ?_⟩
    simp only [runs_call hidle, enter, hready, if_true, Option.bind_some, runs_nil]
  · obtain ⟨hlimited, hover⟩ := (or_assoc.mpr hrefuses).resolve_left hready
    refine ⟨[.step i ⟨none, 0⟩ false], ?_⟩
    simp only [runs_call hidle, enter, hready, if_false, hlimited, if_true, goto, Option.bind_some,
      runs_own hi, advance, hover, List.set_set, set_idle hidle, runs_nil]

theorem allocAligned_alone {s s' : PoolState} (live : List Allocation)
    (hidle : threads[i]? = some .idle) {size alignment : Nat} {answer : Answer}
    {result : Option Nat} (hcall : s.allocAligned size alignment answer = some (result, s')) :
    ∃ labels, runs step ⟨s, live, threads⟩ (.call i (.allocAligned size alignment) :: labels) =
      some ⟨s', (result.map fun ptr => ⟨headerFromUser ptr, size⟩).toList ++ live, threads⟩ := by
  by_cases hrefuses : s.Refuses size
  · rw [PoolState.allocAligned_of_refuses hrefuses] at hcall
    cases hcall
    exact refused_alone hi live hidle hrefuses
  have hready : ¬(size = 0 ∨ s.pool.inited = false) := fun h => hrefuses (or_assoc.mp (.inl h))
  have hbudget := fun h => hrefuses (or_assoc.mp (.inr h))
  obtain ⟨before, hbefore⟩ := taking_alone hi live hidle alignment hready hbudget
  rw [PoolState.allocAligned, if_neg hready, if_neg hbudget] at hcall
  obtain ⟨⟨ptr, mid⟩, hinner, hrecord⟩ := Option.map_eq_some_iff.mp hcall
  -- the rest of the call, from the state in which memory is taken
  have hrest : ∃ labels, runs step ⟨s, live, threads.set i (.taking size alignment)⟩ labels =
      some ⟨s', (result.map fun ptr => ⟨headerFromUser ptr, size⟩).toList ++ live,
        threads.set i .idle⟩ := by
    by_cases hc : sizeClassIndex size < kNumSizeClasses
    · rw [if_pos hc] at hinner
      cases ptr with
      | none =>
        cases hrecord
        refine ⟨[.step i answer false], ?_⟩
        simp only [runs_own hi, advance, if_pos hc, hinner, Option.map_some, Option.bind_some, goto,
          List.set_set, runs_nil]
        rfl
      | some ptr =>
        cases hrecord
        obtain ⟨after, hafter⟩ := counting_alone hi mid live ⟨headerFromUser ptr, size⟩
        refine ⟨.step i answer false :: after, ?_⟩
        simp only [runs_own hi, advance, if_pos hc, hinner, Option.map_some, Option.bind_some, goto,
          List.set_set, hafter]
        rfl
    · rw [if_neg hc, PoolState.allocLarge_eq] at hinner
      obtain ⟨⟨raw, taken⟩, htake, hlist⟩ := Option.map_eq_some_iff.mp hinner
      cases raw with
      | none =>
        cases hlist
        cases hrecord
        refine ⟨[.step i answer false], ?_⟩
        simp only [runs_own hi, advance, if_neg hc, htake, Option.map_some, Option.bind_some, goto,
          List.set_set, runs_nil]
        rfl
      | some raw =>
        cases hlist
        cases hrecord
        obtain ⟨after, hafter⟩ := counting_alone hi (taken.listing [raw]) live ⟨raw, size⟩
        refine ⟨.step i answer false :: .step i answer false :: after, ?_⟩
        simp only [runs_own hi, advance, if_neg hc, htake, Option.map_some, Option.bind_some, goto,
          List.set_set, hafter]
        rfl
  obtain ⟨after, hafter⟩ := hrest
  rw [set_idle hidle] at hafter
  exact ⟨before ++ after, runs_append.mpr ⟨_, hbefore, hafter⟩⟩

theorem countingFree_alone (s : PoolState) (live : List Allocation) (size : Nat) :
    ∃ labels, runs step ⟨s, live, threads.set i (.countingFree size)⟩ labels =
      some ⟨s.recordFree size, live, threads.set i .idle⟩ := by
  obtain ⟨pool, parentStats, heap⟩ := s
  cases parentStats with
  | none =>
    refine ⟨List.replicate 3 (.step i ⟨none, 0⟩ false), ?_⟩
    simp only [List.replicate, runs_own hi, advance, goto, withStats, List.set_set, Option.bind_some,
      and_self, if_true, Option.isSome_none, runs_nil]
    rfl
  | some stats =>
    refine ⟨List.replicate 5 (.step i ⟨none, 0⟩ false), ?_⟩
    simp only [List.replicate, runs_own hi, advance, goto, withStats, withParent, List.set_set,
      Option.bind_some, and_self, if_true, Option.isSome_some, Option.map_some, runs_nil]
    rfl

theorem free_alone {s : PoolState} {live : List Allocation} (hidle : threads[i]? = some .idle)
    (hinited : s.pool.inited = true) {ptr : Nat} (hptr : ptr ≠ 0) {x : Allocation}
    (hfind : live.find? (fun x => x.ptr = ptr) = some x) :
    ∃ labels, runs step ⟨s, live, threads⟩ (.call i (.free ptr) :: labels) =
      some ⟨s.free ptr, live.erase x, threads⟩ := by
  have hx : x.ptr = ptr := by simpa using List.find?_some hfind
  subst hx
  have hready : ¬(x.ptr = 0 ∨ s.pool.inited = false) := by simp [hptr, hinited]
  by_cases hmagic : SlabHeader.magic s.heap.memory (headerFromUser x.ptr) = kSlabMagic
  · obtain ⟨after, hafter⟩ := countingFree_alone hi
      (if SlabHeader.classIndex s.heap.memory (headerFromUser x.ptr) = kLargeClass then
        s.freeLarge (headerFromUser x.ptr) else s.freeToSlab (headerFromUser x.ptr))
      (live.erase x) (SlabHeader.userSize s.heap.memory (headerFromUser x.ptr))
    refine ⟨.step i ⟨none, 0⟩ false :: after, ?_⟩
    simp only [runs_call hidle, enter, if_neg hready, hfind, Option.map_some, goto, Option.bind_some,
      runs_own hi, advance, hmagic, ne_eq, not_true_eq_false, if_false, List.set_set, hafter,
      set_idle hidle, PoolState.free]
    rfl
  · refine ⟨[.step i ⟨none, 0⟩ false], ?_⟩
    simp only [runs_call hidle, enter, if_neg hready, hfind, Option.map_some, goto, Option.bind_some,
      runs_own hi, advance, hmagic, ne_eq, not_false_eq_true, if_true, List.set_set, runs_nil,
      set_idle hidle, PoolState.free]

end Alone

end PoolThreads

namespace PoolPc

/-- The allocation that the call has and its caller has not. -/
def held? : PoolPc → Option Allocation
  | .listing x | .counting x | .adding x | .loadingPeak x _ | .raisingPeak x _ _ | .addingParent x
  | .releasing x => some x
  | _ => none

def unlisted? : PoolPc → Option Nat
  | .listing x => some x.header
  | _ => none

/-- What is asked for has room for header and guard. -/
def Valid : PoolPc → Prop
  | .checking size _ | .taking size _ => 0 < size ∧ sizeofSlabHeader + size + kGuardSize < 2 ^ 64
  | _ => True

end PoolPc

namespace PoolThreads

def allocations (w : PoolThreads) : List Allocation := w.live ++ w.threads.filterMap PoolPc.held?

def unlisted (w : PoolThreads) : List Nat := w.threads.filterMap PoolPc.unlisted?

end PoolThreads

end Corekit.Memory
