import Corekit.Foundation.Extent
import Corekit.Foundation.Slots
import Corekit.Foundation.Transition
import Corekit.Memory.Allocator
import Mathlib.Tactic.Abel

/-! One counting allocator used by many threads. Every section under `size_mu_`
and every single atomic operation is one step. A thread keeps the block it works
on, of which the code knows the pointer and, in `Allocate`, the size. -/
namespace Corekit.Memory
open Corekit.Foundation

/-- The next operation of a thread. -/
inductive AllocPc where
  | idle
  | requesting (size : Nat)
  | failing
  -- RecordAllocSuccess
  | counting (block : Extent)
  | tabling (block : Extent)
  | adding (block : Extent)
  | loadingPeak (block : Extent) (inUseNow : Nat)
  | raisingPeak (block : Extent) (inUseNow peak : Nat)
  -- RecordDeallocate, and the call that gives the memory back
  | erasing (block : Extent)
  | countingFree (block : Extent) (released : Nat)
  | loadingInUse (block : Extent) (delta : Nat)
  | lowering (block : Extent) (delta cur : Nat)
  | releasing (block : Extent)
  -- ResetStats
  | summing
  | zeroingAlloc (live : Nat)
  | zeroingFree (live : Nat)
  | zeroingFail (live : Nat)
  | storingInUse (live : Nat)
  | storingPeak (live : Nat)
  deriving DecidableEq, Repr

structure StatsWorld where
  allocator : CountingAllocator
  /-- what the backend has handed out -/
  held : List Extent := []
  /-- what callers got from `Allocate` and have not passed to `Deallocate` -/
  live : List Extent := []
  threads : List AllocPc

inductive AllocCall where
  | allocate (size alignment : Nat)
  | deallocate (ptr : Nat)
  | resetStats

/-- The answer of the backend and whether a weak exchange fails without a reason
are choices of the surroundings. -/
inductive AllocLabel where
  | call (thread : Nat) (call : AllocCall)
  | step (thread : Nat) (answer : Option Nat) (spurious : Bool)

namespace StatsWorld

def start (backend : AllocBackend) (count : Nat) : StatsWorld :=
  { allocator := { backend := backend }, threads := List.replicate count .idle }

variable (w : StatsWorld)

def goto (thread : Nat) (pc : AllocPc) : StatsWorld :=
  { w with threads := w.threads.set thread pc }

/-- A block that the backend may hand out next. -/
def Grants (block : Extent) : Prop :=
  0 < block.base ∧ block.base + block.len ≤ 2 ^ 64 ∧ ∀ other ∈ w.held, other.Disjoint block

instance (block : Extent) : Decidable (w.Grants block) := inferInstanceAs (Decidable (_ ∧ _ ∧ _))

/-- `Deallocate` is called with a null pointer or a live one. -/
def enter (thread : Nat) : AllocCall → Option StatsWorld
  | .allocate size alignment =>
    match CountingAllocator.checkArguments size alignment with
    | some _ => some (w.goto thread .failing)
    | none => some (w.goto thread (.requesting size))
  | .deallocate ptr =>
    if ptr = 0 then some w
    else
      match w.live.find? fun block => block.base = ptr with
      | none => none
      | some block =>
        some ({ w with live := w.live.eraseP fun other => other.base = ptr }.goto thread
          (.erasing block))
  | .resetStats => some (w.goto thread .summing)

/-- A failed `compare_exchange_weak` loads the current value and tries again. -/
def advance (thread : Nat) (answer : Option Nat) (spurious : Bool) : AllocPc → Option StatsWorld
  | .idle => none
  | .requesting size =>
    match answer with
    | none => some (w.goto thread .failing)
    | some raw =>
      if w.Grants ⟨raw, size⟩ then
        some ({ w with held := ⟨raw, size⟩ :: w.held }.goto thread (.counting ⟨raw, size⟩))
      else none
  | .failing => some ({ w with allocator := w.allocator.recordAllocFailure }.goto thread .idle)
  | .counting block =>
    some ({ w with allocator.allocCount := (w.allocator.allocCount + 1) % 2 ^ 64 }.goto thread
      (.tabling block))
  | .tabling block =>
    some ({ w with
      allocator.allocSizes := SizeTable.put w.allocator.allocSizes block.base block.len }.goto
        thread (.adding block))
  | .adding block =>
    let inUseNow := (w.allocator.bytesInUse + block.len) % 2 ^ 64
    some ({ w with allocator.bytesInUse := inUseNow }.goto thread (.loadingPeak block inUseNow))
  | .loadingPeak block inUseNow =>
    some (w.goto thread (.raisingPeak block inUseNow w.allocator.bytesPeak))
  | .raisingPeak block inUseNow peak =>
    if inUseNow > peak then
      if w.allocator.bytesPeak = peak ∧ spurious = false then
        some ({ w with allocator.bytesPeak := inUseNow, live := block :: w.live }.goto thread .idle)
      else some (w.goto thread (.raisingPeak block inUseNow w.allocator.bytesPeak))
    else some ({ w with live := block :: w.live }.goto thread .idle)
  | .erasing block =>
    let released := (SizeTable.sizeOf? w.allocator.allocSizes block.base).getD 0
    some ({ w with
      allocator.allocSizes := SizeTable.erase w.allocator.allocSizes block.base }.goto thread
        (.countingFree block released))
  | .countingFree block released =>
    some ({ w with allocator.freeCount := (w.allocator.freeCount + 1) % 2 ^ 64 }.goto thread
      (if released > 0 then .loadingInUse block released else .releasing block))
  | .loadingInUse block delta => some (w.goto thread (.lowering block delta w.allocator.bytesInUse))
  | .lowering block delta cur =>
    if w.allocator.bytesInUse = cur ∧ spurious = false then
      some ({ w with allocator.bytesInUse := CountingAllocator.lowered cur delta }.goto thread
        (.releasing block))
    else some (w.goto thread (.lowering block delta w.allocator.bytesInUse))
  | .releasing block =>
    some ({ w with held := w.held.eraseP fun other => other.base = block.base }.goto thread .idle)
  | .summing =>
    some (w.goto thread (.zeroingAlloc (SizeTable.total w.allocator.allocSizes % 2 ^ 64)))
  | .zeroingAlloc live =>
    some ({ w with allocator.allocCount := 0 }.goto thread (.zeroingFree live))
  | .zeroingFree live =>
    some ({ w with allocator.freeCount := 0 }.goto thread (.zeroingFail live))
  | .zeroingFail live =>
    some ({ w with allocator.allocFailCount := 0 }.goto thread (.storingInUse live))
  | .storingInUse live =>
    some ({ w with allocator.bytesInUse := live }.goto thread (.storingPeak live))
  | .storingPeak live => some ({ w with allocator.bytesPeak := live }.goto thread .idle)

def step : AllocLabel → Option StatsWorld
  | .call thread call => if w.threads[thread]? = some .idle then w.enter thread call else none
  | .step thread answer spurious => (w.threads[thread]?).bind (w.advance thread answer spurious)

def Quiescent : Prop := ∀ pc ∈ w.threads, pc = .idle

instance : Decidable w.Quiescent := inferInstanceAs (Decidable (∀ pc ∈ w.threads, _))

end StatsWorld

namespace AllocPc

/-- The block that the backend has handed out for this call. -/
def holds : AllocPc → Multiset Extent
  | .counting block | .tabling block | .adding block | .loadingPeak block _
  | .raisingPeak block _ _ | .erasing block | .countingFree block _ | .loadingInUse block _
  | .lowering block _ _ | .releasing block => {block}
  | _ => 0

def tabled : AllocPc → Multiset Extent
  | .adding block | .loadingPeak block _ | .raisingPeak block _ _ | .erasing block => {block}
  | _ => 0

def counted : AllocPc → Multiset Extent
  | .loadingPeak block _ | .raisingPeak block _ _ | .erasing block | .countingFree block _
  | .loadingInUse block _ | .lowering block _ _ => {block}
  | _ => 0

def Valid : AllocPc → Prop
  | .requesting size => 0 < size
  | .countingFree block released => released = block.len
  | .loadingInUse block delta | .lowering block delta _ => delta = block.len
  | _ => True

def raises : AllocPc → Option Nat
  | .loadingPeak _ inUseNow => some inUseNow
  | .raisingPeak _ inUseNow peak => if peak < inUseNow then some inUseNow else none
  | _ => none

/-- One of the table and the counter has the block of this call and the other has not. -/
def unsettled : AllocPc → Bool
  | .adding _ | .countingFree _ _ | .loadingInUse _ _ | .lowering _ _ _ => true
  | _ => false

def storesInUse : AllocPc → Bool
  | .zeroingAlloc _ | .zeroingFree _ | .zeroingFail _ | .storingInUse _ => true
  | _ => false

def storesPeak (pc : AllocPc) : Bool :=
  pc.storesInUse || match pc with
    | .storingPeak _ => true
    | _ => false

/-- What a `ResetStats` has summed is current. -/
def Summed (inUse : Nat) : AllocPc → Prop
  | .zeroingAlloc live | .zeroingFree live | .zeroingFail live | .storingInUse live => live = inUse
  | .storingPeak live => inUse ≤ live
  | _ => True

theorem tabled_eq_counted {pc : AllocPc} (h : pc.unsettled = false) : pc.tabled = pc.counted := by
  cases pc <;> first | rfl | cases h

theorem summed_of_not_storesPeak {pc : AllocPc} (h : pc.storesPeak = false) (inUse : Nat) :
    pc.Summed inUse := by
  cases pc <;> trivial

theorem Summed.lower {pc : AllocPc} {inUse inUse' : Nat} (h : pc.Summed inUse)
    (hstores : pc.storesInUse = false) (hle : inUse' ≤ inUse) : pc.Summed inUse' := by
  cases pc <;> first | trivial | exact hle.trans h

theorem raises_or_le (block : Extent) (inUseNow peak : Nat) :
    inUseNow ∈ (raisingPeak block inUseNow peak).raises ∨ inUseNow ≤ peak := by
  simp only [raises, Option.mem_def, Option.ite_none_right_eq_some, and_true]
  exact Nat.lt_or_ge peak inUseNow

theorem tabled_le_holds (pc : AllocPc) : pc.tabled ≤ pc.holds := by
  cases pc <;> simp [tabled, holds]

theorem counted_le_holds (pc : AllocPc) : pc.counted ≤ pc.holds := by
  cases pc <;> simp [counted, holds]

end AllocPc

namespace StatsWorld

variable {w w' : StatsWorld}

def tableBlocks (table : SizeTable) : Multiset Extent :=
  (table.map fun entry => (⟨entry.1, entry.2⟩ : Extent) : List Extent)

def totalLen (blocks : Multiset Extent) : Nat := (blocks.map Extent.len).sum

def PeakCovered (w : StatsWorld) (peak : Nat) : Prop :=
  w.allocator.bytesInUse ≤ peak ∨
    ∃ pc ∈ w.threads, ∃ value ∈ pc.raises, w.allocator.bytesInUse ≤ value

/-- A `ResetStats` that is about to store has a number that is current: the bytes
in use for `bytes_in_use_`, a bound of them for `bytes_peak_`. -/
def StoresCurrent (w : StatsWorld) : AllocPc → Prop
  | .storingInUse live => live = w.allocator.bytesInUse
  | .storingPeak live => w.PeakCovered live
  | _ => True

/-- `ResetStats` sums while no other call has updated one of the table and the
counter only; the counter does not change between the sum and its store, and does
not grow before the store of the peak. -/
def keepsApart (w : StatsWorld) : AllocLabel → Bool
  | .call _ _ => true
  | .step thread _ _ =>
    match w.threads[thread]? with
    | some .summing => w.threads.all fun pc => !pc.unsettled
    | some (.adding _) => w.threads.all fun pc => !pc.storesPeak
    | some (.lowering _ _ _) => w.threads.all fun pc => !pc.storesInUse
    | _ => true

/-- Every block is in the heap, in the table and in the counter exactly when the
call that works on it has got that far. -/
structure Balanced (w : StatsWorld) : Prop where
  apart : w.held.Pairwise Extent.Disjoint
  room : ∀ block ∈ w.held, 0 < block.base ∧ 0 < block.len ∧ block.base + block.len ≤ 2 ^ 64
  valid : ∀ (i : Nat) pc, w.threads[i]? = some pc → pc.Valid
  heap : (w.held : Multiset Extent) = w.live + slotSum (fun _ pc => pc.holds) w.threads
  table : tableBlocks w.allocator.allocSizes =
    w.live + slotSum (fun _ pc => pc.tabled) w.threads
  bytes : w.allocator.bytesInUse =
    totalLen (w.live + slotSum (fun _ pc => pc.counted) w.threads)
  peak : w.PeakCovered w.allocator.bytesPeak

@[simp] theorem totalLen_add (left right : Multiset Extent) :
    totalLen (left + right) = totalLen left + totalLen right := by
  simp [totalLen]

@[simp] theorem totalLen_singleton (block : Extent) : totalLen {block} = block.len := by
  simp [totalLen]

@[simp] theorem totalLen_zero : totalLen 0 = 0 := rfl

theorem totalLen_cons (block : Extent) (blocks : List Extent) :
    totalLen ((block :: blocks : List Extent) : Multiset Extent) = block.len + totalLen blocks := by
  simp [totalLen]

theorem totalLen_le {left right : Multiset Extent} (h : left ≤ right) :
    totalLen left ≤ totalLen right := by
  obtain ⟨rest, rfl⟩ := Multiset.le_iff_exists_add.mp h
  simp

theorem totalLen_tableBlocks (table : SizeTable) :
    totalLen (tableBlocks table) = SizeTable.total table := by
  simp [totalLen, tableBlocks, SizeTable.total, Function.comp_def]

theorem Quiescent.slotSum (h : w.Quiescent) {f : AllocPc → Multiset Extent} (hf : f .idle = 0) :
    slotSum (fun _ pc => f pc) w.threads = 0 := by
  apply slotSum_eq_zero
  intro i pc hpc
  rw [h pc (List.mem_of_getElem? hpc), hf]

theorem start_quiescent (backend : AllocBackend) (count : Nat) : (start backend count).Quiescent :=
  fun _ hpc => List.eq_of_mem_replicate hpc

namespace Balanced

theorem apart_of_le (h : w.Balanced) {blocks : List Extent}
    (hle : (blocks : Multiset Extent) ≤ w.held) : blocks.Pairwise Extent.Disjoint := by
  obtain ⟨other, hperm, hsub⟩ := Multiset.coe_le.mp hle
  exact (h.apart.sublist hsub).perm hperm fun hdisj => hdisj.symm

theorem room_of_le (h : w.Balanced) {blocks : List Extent}
    (hle : (blocks : Multiset Extent) ≤ w.held) {block : Extent} (hmem : block ∈ blocks) :
    0 < block.base ∧ 0 < block.len ∧ block.base + block.len ≤ 2 ^ 64 :=
  h.room block (Multiset.mem_coe.mp (Multiset.mem_of_le hle hmem))

theorem bases_nodup (h : w.Balanced) {blocks : List Extent}
    (hle : (blocks : Multiset Extent) ≤ w.held) : (blocks.map Extent.base).Nodup := by
  refine List.pairwise_map.mpr ((h.apart_of_le hle).imp_of_mem ?_)
  intro left right hleft hright hdisj heq
  have hpos := (h.room_of_le hle hleft).2.1
  have hpos' := (h.room_of_le hle hright).2.1
  unfold Extent.Disjoint at hdisj
  omega

theorem coe_eraseP (h : w.Balanced) {blocks : List Extent}
    (hle : (blocks : Multiset Extent) ≤ w.held) {block : Extent} (hmem : block ∈ blocks) :
    (blocks : Multiset Extent) =
      {block} + (blocks.eraseP fun other => other.base = block.base : List Extent) := by
  have hperm := Extent.perm_eraseP_base (h.apart_of_le hle)
    (fun other hother => (h.room_of_le hle hother).2.1) hmem
  rw [Multiset.singleton_add, Multiset.cons_coe]
  exact Multiset.coe_eq_coe.mpr hperm

theorem held_lt (h : w.Balanced) : totalLen w.held < 2 ^ 64 := by
  -- the null page adds one byte that no block has
  have hapart : (⟨0, 1⟩ :: w.held).Pairwise Extent.Disjoint := by
    refine List.pairwise_cons.mpr ⟨fun block hblock => .inl ?_, h.apart⟩
    exact (h.room block hblock).1
  have hle : ((⟨0, 1⟩ :: w.held).map Extent.len).sum ≤ 2 ^ 64 := by
    apply Extent.sum_len_le hapart
    intro block hblock
    rcases List.mem_cons.mp hblock with rfl | hmem
    · simp
    · exact (h.room block hmem).2.2
  have hsum : totalLen w.held = (w.held.map Extent.len).sum := by simp [totalLen]
  rw [List.map_cons, List.sum_cons] at hle
  change 1 + _ ≤ _ at hle
  omega

theorem live_le (h : w.Balanced) : (w.live : Multiset Extent) ≤ w.held := by
  rw [h.heap]
  exact Multiset.le_add_right _ _

theorem table_le (h : w.Balanced) : tableBlocks w.allocator.allocSizes ≤ w.held := by
  rw [h.heap, h.table]
  exact add_le_add_right (slotSum_le (fun _ pc => pc.tabled_le_holds) _) _

theorem bytes_le (h : w.Balanced) : w.allocator.bytesInUse ≤ totalLen w.held := by
  rw [h.bytes, h.heap]
  exact totalLen_le (add_le_add_right (slotSum_le (fun _ pc => pc.counted_le_holds) _) _)

theorem mem_held (h : w.Balanced) {i : Nat} {pc : AllocPc} (hpc : w.threads[i]? = some pc)
    {block : Extent} (hmem : block ∈ pc.holds) : block ∈ w.held := by
  have hslot : block ∈ slotSum (fun _ pc => pc.holds) w.threads := mem_slotSum.mpr ⟨i, pc, hpc, hmem⟩
  rw [← Multiset.mem_coe, h.heap]
  exact Multiset.mem_add.mpr (.inr hslot)

/-- The rule for one step of one thread: what leaves the thread goes to the heap,
the table, the counter or the caller, and the other way round. -/
theorem move (h : w.Balanced) {i : Nat} {old new : AllocPc} (hold : w.threads[i]? = some old)
    (hthreads : w'.threads = w.threads.set i new) (hapart : w'.held.Pairwise Extent.Disjoint)
    (hroom : ∀ block ∈ w'.held, 0 < block.base ∧ 0 < block.len ∧ block.base + block.len ≤ 2 ^ 64)
    (hvalid : new.Valid)
    (hheap : (w'.held : Multiset Extent) + (w.live + old.holds) = w.held + (w'.live + new.holds))
    (htable : tableBlocks w'.allocator.allocSizes + (w.live + old.tabled) =
      tableBlocks w.allocator.allocSizes + (w'.live + new.tabled))
    (hbytes : w'.allocator.bytesInUse + (totalLen w.live + totalLen old.counted) =
      w.allocator.bytesInUse + (totalLen w'.live + totalLen new.counted))
    (hpeak : w'.PeakCovered w'.allocator.bytesPeak) : w'.Balanced := by
  have hcounted := congrArg totalLen (slotSum_set (fun _ pc => pc.counted) new hold)
  refine ⟨hapart, hroom, hthreads ▸ forall_slots_set h.valid hvalid, ?_, ?_, ?_, hpeak⟩
  · rw [hthreads]
    exact slotSum_balance (fun _ pc => pc.holds) hold h.heap hheap
  · rw [hthreads]
    exact slotSum_balance (fun _ pc => pc.tabled) hold h.table htable
  · have hold' := h.bytes
    simp only [hthreads, totalLen_add] at hcounted hold' ⊢
    omega

end Balanced

theorem PeakCovered.move {peak peak' : Nat} (h : w.PeakCovered peak) {i : Nat} {old new : AllocPc}
    (hold : w.threads[i]? = some old) (hthreads : w'.threads = w.threads.set i new)
    (hbytes : w'.allocator.bytesInUse ≤ w.allocator.bytesInUse) (hpeak : peak ≤ peak')
    (hraises : ∀ value ∈ old.raises, value ∈ new.raises ∨ value ≤ peak') :
    w'.PeakCovered peak' := by
  have hi : i < w.threads.length := (List.getElem?_eq_some_iff.mp hold).1
  rcases h with hle | ⟨pc, hpc, value, hvalue, hle⟩
  · exact .inl (hbytes.trans (hle.trans hpeak))
  · obtain ⟨j, hj⟩ := List.mem_iff_getElem?.mp hpc
    by_cases hij : i = j
    · subst hij
      cases hold.symm.trans hj
      rcases hraises value hvalue with hnew | hcovered
      · refine .inr ⟨new, ?_, value, hnew, hbytes.trans hle⟩
        rw [hthreads]
        exact List.mem_set hi new
      · exact .inl (hbytes.trans (hle.trans hcovered))
    · refine .inr ⟨pc, ?_, value, hvalue, hbytes.trans hle⟩
      rw [hthreads]
      exact List.mem_of_getElem? ((List.getElem?_set_ne hij).trans hj)

namespace Balanced

variable {i : Nat} {block : Extent}

theorem quiet (h : w.Balanced) {old new : AllocPc} (hold : w.threads[i]? = some old)
    (hthreads : w'.threads = w.threads.set i new) (hheld : w'.held = w.held)
    (hlive : w'.live = w.live) (hsizes : w'.allocator.allocSizes = w.allocator.allocSizes)
    (hinUse : w'.allocator.bytesInUse = w.allocator.bytesInUse)
    (hpeak : w'.allocator.bytesPeak = w.allocator.bytesPeak) (hvalid : new.Valid)
    (hholds : new.holds = old.holds) (htabled : new.tabled = old.tabled)
    (hcounted : new.counted = old.counted)
    (hraises : ∀ value ∈ old.raises, value ∈ new.raises ∨ value ≤ w.allocator.bytesPeak) :
    w'.Balanced := by
  apply h.move hold hthreads (hheld ▸ h.apart) (hheld ▸ h.room) hvalid
  · rw [hheld, hlive, hholds]
  · rw [hsizes, hlive, htabled]
  · rw [hinUse, hlive, hcounted]
  · rw [hpeak]
    exact h.peak.move hold hthreads hinUse.le le_rfl hraises

theorem grant (h : w.Balanced) {size : Nat} {raw : Nat}
    (hold : w.threads[i]? = some (.requesting size)) (hgrants : w.Grants ⟨raw, size⟩) :
    ({ w with held := ⟨raw, size⟩ :: w.held }.goto i (.counting ⟨raw, size⟩)).Balanced := by
  obtain ⟨hbase, hroom, hfresh⟩ := hgrants
  apply h.move hold rfl
  · exact List.pairwise_cons.mpr ⟨fun other hother => (hfresh other hother).symm, h.apart⟩
  · intro block hblock
    rcases List.mem_cons.mp hblock with rfl | hmem
    · exact ⟨hbase, h.valid i _ hold, hroom⟩
    · exact h.room block hmem
  · trivial
  · simp only [goto, AllocPc.holds, ← Multiset.cons_coe, ← Multiset.singleton_add]
    abel
  · rfl
  · rfl
  · exact h.peak.move hold rfl le_rfl le_rfl (by simp [AllocPc.raises])

theorem table_add_le (h : w.Balanced) (hold : w.threads[i]? = some (.tabling block)) :
    block ::ₘ tableBlocks w.allocator.allocSizes ≤ w.held := by
  have hle := slotSum_add_le (f := fun _ pc => pc.tabled) (g := fun _ pc => pc.holds)
    (fun _ pc => pc.tabled_le_holds) hold (m := {block}) (by simp [AllocPc.tabled, AllocPc.holds])
  rw [h.heap, h.table, ← Multiset.singleton_add, add_comm, add_assoc]
  exact add_le_add_right hle _

theorem tabling (h : w.Balanced) (hold : w.threads[i]? = some (.tabling block)) :
    ({ w with
      allocator.allocSizes := SizeTable.put w.allocator.allocSizes block.base block.len }.goto
        i (.adding block)).Balanced := by
  have hnodup := @bases_nodup _ h
    (block :: w.allocator.allocSizes.map fun entry : Nat × Nat => (⟨entry.1, entry.2⟩ : Extent))
    (h.table_add_le hold)
  rw [List.map_cons, List.map_map, List.nodup_cons] at hnodup
  have hput : SizeTable.put w.allocator.allocSizes block.base block.len =
      (block.base, block.len) :: w.allocator.allocSizes := by
    rw [SizeTable.put, SizeTable.erase_of_notMem hnodup.1]
  refine h.move hold rfl h.apart h.room trivial ?_ ?_ ?_ ?_
  · rfl
  · simp only [goto, hput, tableBlocks, List.map_cons, AllocPc.tabled, ← Multiset.cons_coe,
      ← Multiset.singleton_add]
    abel
  · rfl
  · exact h.peak.move hold rfl le_rfl le_rfl (by simp [AllocPc.raises])

theorem bytes_add_le (h : w.Balanced) (hold : w.threads[i]? = some (.adding block)) :
    w.allocator.bytesInUse + block.len ≤ totalLen w.held := by
  have hle := slotSum_add_le (f := fun _ pc => pc.counted) (g := fun _ pc => pc.holds)
    (fun _ pc => pc.counted_le_holds) hold (m := {block}) (by simp [AllocPc.counted, AllocPc.holds])
  have hlen := totalLen_le hle
  rw [h.heap, h.bytes]
  simp only [totalLen_add, totalLen_singleton] at hlen ⊢
  omega

theorem adding (h : w.Balanced) (hold : w.threads[i]? = some (.adding block)) :
    ({ w with allocator.bytesInUse := (w.allocator.bytesInUse + block.len) % 2 ^ 64 }.goto i
      (.loadingPeak block ((w.allocator.bytesInUse + block.len) % 2 ^ 64))).Balanced := by
  have hlt : w.allocator.bytesInUse + block.len < 2 ^ 64 := (h.bytes_add_le hold).trans_lt h.held_lt
  have hi : i < w.threads.length := (List.getElem?_eq_some_iff.mp hold).1
  refine h.move hold rfl h.apart h.room trivial ?_ ?_ ?_ ?_
  · rfl
  · rfl
  · simp only [goto, AllocPc.counted, Nat.mod_eq_of_lt hlt, totalLen_zero, totalLen_singleton]
    omega
  · exact .inr ⟨_, List.mem_set hi _, _, rfl, le_rfl⟩

theorem returns (h : w.Balanced) {inUseNow peak newPeak : Nat}
    (hold : w.threads[i]? = some (.raisingPeak block inUseNow peak))
    (hpeak : w.allocator.bytesPeak ≤ newPeak) (hraised : peak < inUseNow → inUseNow ≤ newPeak) :
    ({ w with allocator.bytesPeak := newPeak, live := block :: w.live }.goto i .idle).Balanced := by
  refine h.move hold rfl h.apart h.room trivial ?_ ?_ ?_ ?_
  · simp only [goto, AllocPc.holds, ← Multiset.cons_coe, ← Multiset.singleton_add]
    abel
  · simp only [goto, AllocPc.tabled, ← Multiset.cons_coe, ← Multiset.singleton_add]
    abel
  · simp only [goto, AllocPc.counted, totalLen_cons, totalLen_singleton, totalLen_zero]
    omega
  · refine h.peak.move hold rfl le_rfl hpeak fun value hvalue => ?_
    simp only [AllocPc.raises, Option.mem_def, Option.ite_none_right_eq_some,
      Option.some.injEq] at hvalue
    exact .inr (hvalue.2 ▸ hraised hvalue.1)

theorem takes (h : w.Balanced) (hold : w.threads[i]? = some .idle) (hmem : block ∈ w.live) :
    ({ w with live := w.live.eraseP fun other => other.base = block.base }.goto i
      (.erasing block)).Balanced := by
  have hlive := h.coe_eraseP h.live_le hmem
  refine h.move hold rfl h.apart h.room trivial ?_ ?_ ?_ ?_
  · simp only [goto, AllocPc.holds, hlive]
    abel
  · simp only [goto, AllocPc.tabled, hlive]
    abel
  · simp only [goto, AllocPc.counted, hlive, totalLen_add, totalLen_singleton, totalLen_zero]
    omega
  · exact h.peak.move hold rfl le_rfl le_rfl (by simp [AllocPc.raises])

theorem perm_table (h : w.Balanced) (hmem : block ∈ tableBlocks w.allocator.allocSizes) :
    SizeTable.sizeOf? w.allocator.allocSizes block.base = some block.len ∧
      w.allocator.allocSizes.Perm
        ((block.base, block.len) :: SizeTable.erase w.allocator.allocSizes block.base) := by
  have hbases := @bases_nodup _ h
    (w.allocator.allocSizes.map fun entry : Nat × Nat => (⟨entry.1, entry.2⟩ : Extent)) h.table_le
  rw [List.map_map] at hbases
  obtain ⟨entry, hentry, rfl⟩ := List.mem_map.mp (Multiset.mem_coe.mp hmem)
  exact SizeTable.perm_of_mem hbases hentry

theorem erasing (h : w.Balanced) (hold : w.threads[i]? = some (.erasing block)) :
    ({ w with
      allocator.allocSizes := SizeTable.erase w.allocator.allocSizes block.base }.goto i
        (.countingFree block
          ((SizeTable.sizeOf? w.allocator.allocSizes block.base).getD 0))).Balanced := by
  have hmem : block ∈ tableBlocks w.allocator.allocSizes := by
    rw [h.table]
    exact Multiset.mem_add.mpr (.inr (mem_slotSum.mpr ⟨i, _, hold, by simp [AllocPc.tabled]⟩))
  obtain ⟨hsize, hperm⟩ := h.perm_table hmem
  have htable : tableBlocks w.allocator.allocSizes =
      {block} + tableBlocks (SizeTable.erase w.allocator.allocSizes block.base) := by
    rw [Multiset.singleton_add]
    exact Multiset.coe_eq_coe.mpr (hperm.map _)
  refine h.move hold rfl h.apart h.room (by rw [hsize]; rfl) ?_ ?_ ?_ ?_
  · rfl
  · simp only [goto, AllocPc.tabled, htable]
    abel
  · rfl
  · exact h.peak.move hold rfl le_rfl le_rfl (by simp [AllocPc.raises])

theorem lowering (h : w.Balanced) {delta : Nat}
    (hold : w.threads[i]? = some (.lowering block delta w.allocator.bytesInUse)) :
    ({ w with
      allocator.bytesInUse := CountingAllocator.lowered w.allocator.bytesInUse delta }.goto i
        (.releasing block)).Balanced := by
  have hdelta : delta = block.len := h.valid i _ hold
  have hle : block.len ≤ w.allocator.bytesInUse := by
    obtain ⟨rest, hrest, -⟩ := slotSum_split (fun _ pc => pc.counted) hold
    rw [h.bytes, hrest]
    simp only [AllocPc.counted, totalLen_add, totalLen_singleton]
    omega
  have hlowered : CountingAllocator.lowered w.allocator.bytesInUse delta =
      w.allocator.bytesInUse - block.len := by
    unfold CountingAllocator.lowered
    split <;> omega
  refine h.move hold rfl h.apart h.room trivial ?_ ?_ ?_ ?_
  · rfl
  · rfl
  · simp only [goto, AllocPc.counted, hlowered, totalLen_singleton, totalLen_zero]
    omega
  · exact h.peak.move hold rfl (by simp [goto, hlowered]) le_rfl (by simp [AllocPc.raises])

theorem releasing (h : w.Balanced) (hold : w.threads[i]? = some (.releasing block)) :
    ({ w with held := w.held.eraseP fun other => other.base = block.base }.goto i .idle).Balanced := by
  have hmem : block ∈ w.held := h.mem_held hold (by simp [AllocPc.holds])
  have hheld := h.coe_eraseP le_rfl hmem
  refine h.move hold rfl (h.apart.sublist List.eraseP_sublist)
    (fun other hother => h.room other (List.mem_of_mem_eraseP hother)) trivial ?_ ?_ ?_ ?_
  · simp only [goto, AllocPc.holds, hheld]
    abel
  · rfl
  · rfl
  · exact h.peak.move hold rfl le_rfl le_rfl (by simp [AllocPc.raises])

theorem enter (h : w.Balanced) {call : AllocCall} (hold : w.threads[i]? = some .idle)
    (hstep : w.enter i call = some w') : w'.Balanced := by
  cases call with
  | allocate size alignment =>
    unfold StatsWorld.enter at hstep
    cases hcheck : CountingAllocator.checkArguments size alignment with
    | some status =>
      simp only [hcheck, Option.some.injEq] at hstep
      subst hstep
      exact h.quiet hold rfl rfl rfl rfl rfl rfl trivial rfl rfl rfl (by simp [AllocPc.raises])
    | none =>
      simp only [hcheck, Option.some.injEq] at hstep
      subst hstep
      have hsize : 0 < size := by
        unfold CountingAllocator.checkArguments at hcheck
        split at hcheck
        · cases hcheck
        · omega
      exact h.quiet hold rfl rfl rfl rfl rfl rfl hsize rfl rfl rfl (by simp [AllocPc.raises])
  | deallocate ptr =>
    unfold StatsWorld.enter at hstep
    simp only at hstep
    split at hstep
    · cases hstep
      exact h
    · split at hstep
      · cases hstep
      · next block hfind =>
        cases hstep
        have hbase : block.base = ptr := by simpa using List.find?_some hfind
        subst hbase
        exact h.takes hold (List.mem_of_find?_eq_some hfind)
  | resetStats =>
    cases hstep
    exact h.quiet hold rfl rfl rfl rfl rfl rfl trivial rfl rfl rfl (by simp [AllocPc.raises])

/-- Every step but the two stores of `ResetStats` keeps the balance; these do
when the number that is stored is current. -/
theorem advance (h : w.Balanced) {answer : Option Nat} {spurious : Bool} {pc : AllocPc}
    (hold : w.threads[i]? = some pc) (hcurrent : w.StoresCurrent pc)
    (hstep : w.advance i answer spurious pc = some w') : w'.Balanced := by
  cases pc with
  | idle => cases hstep
  | requesting size =>
    cases answer with
    | none =>
      cases hstep
      exact h.quiet hold rfl rfl rfl rfl rfl rfl trivial rfl rfl rfl (by simp [AllocPc.raises])
    | some raw =>
      simp only [StatsWorld.advance, Option.ite_none_right_eq_some, Option.some.injEq] at hstep
      obtain ⟨hgrants, rfl⟩ := hstep
      exact h.grant hold hgrants
  | tabling block =>
    cases hstep
    exact h.tabling hold
  | adding block =>
    cases hstep
    exact h.adding hold
  | loadingPeak block inUseNow =>
    cases hstep
    refine h.quiet hold rfl rfl rfl rfl rfl rfl trivial rfl rfl rfl fun value hvalue => ?_
    cases Option.some.inj hvalue
    exact AllocPc.raises_or_le _ _ _
  | raisingPeak block inUseNow peak =>
    simp only [StatsWorld.advance] at hstep
    split_ifs at hstep with hlarger hsame
    · cases hstep
      exact h.returns hold (hsame.1.le.trans hlarger.le) fun _ => le_rfl
    · cases hstep
      refine h.quiet hold rfl rfl rfl rfl rfl rfl trivial rfl rfl rfl fun value hvalue => ?_
      have hvalue : value = inUseNow := by simpa [AllocPc.raises, hlarger, eq_comm] using hvalue
      subst hvalue
      exact AllocPc.raises_or_le _ _ _
    · cases hstep
      exact h.returns hold le_rfl fun hless => absurd hless hlarger
  | erasing block =>
    cases hstep
    exact h.erasing hold
  | countingFree block released =>
    cases hstep
    have hreleased : released = block.len := h.valid i _ hold
    have hpos := (h.room block (h.mem_held hold (by simp [AllocPc.holds]))).2.1
    rw [if_pos (hreleased ▸ hpos)]
    exact h.quiet hold rfl rfl rfl rfl rfl rfl hreleased rfl rfl rfl (by simp [AllocPc.raises])
  | loadingInUse block delta =>
    cases hstep
    have hdelta : delta = block.len := h.valid i _ hold
    exact h.quiet hold rfl rfl rfl rfl rfl rfl hdelta rfl rfl rfl (by simp [AllocPc.raises])
  | lowering block delta cur =>
    simp only [StatsWorld.advance] at hstep
    split_ifs at hstep with hsame
    · cases hstep
      obtain ⟨rfl, -⟩ := hsame
      exact h.lowering hold
    · cases hstep
      have hdelta : delta = block.len := h.valid i _ hold
      exact h.quiet hold rfl rfl rfl rfl rfl rfl hdelta rfl rfl rfl (by simp [AllocPc.raises])
  | releasing block =>
    cases hstep
    exact h.releasing hold
  | storingInUse live =>
    cases hstep
    have hlive : live = w.allocator.bytesInUse := hcurrent
    exact h.quiet hold rfl rfl rfl rfl hlive rfl trivial rfl rfl rfl (by simp [AllocPc.raises])
  | storingPeak live =>
    cases hstep
    refine h.move hold rfl h.apart h.room trivial rfl rfl rfl ?_
    exact PeakCovered.move hcurrent hold rfl le_rfl le_rfl (by simp [AllocPc.raises])
  | failing | counting block | summing | zeroingAlloc live | zeroingFree live
  | zeroingFail live =>
    cases hstep
    exact h.quiet hold rfl rfl rfl rfl rfl rfl trivial rfl rfl rfl (by simp [AllocPc.raises])

theorem start (backend : AllocBackend) (count : Nat) : (StatsWorld.start backend count).Balanced where
  apart := .nil
  room := by simp [StatsWorld.start]
  valid := by
    intro i pc hpc
    cases start_quiescent backend count pc (List.mem_of_getElem? hpc)
    trivial
  heap := by rw [(start_quiescent backend count).slotSum rfl]; rfl
  table := by rw [(start_quiescent backend count).slotSum rfl]; rfl
  bytes := by rw [(start_quiescent backend count).slotSum rfl]; rfl
  peak := .inl le_rfl

theorem quiescent (h : w.Balanced) (hquiescent : w.Quiescent) :
    w.allocator.bytesInUse = SizeTable.total w.allocator.allocSizes ∧
      w.allocator.bytesInUse ≤ w.allocator.bytesPeak := by
  constructor
  · rw [h.bytes, ← totalLen_tableBlocks, h.table, hquiescent.slotSum rfl, hquiescent.slotSum rfl]
  · rcases h.peak with hle | ⟨pc, hpc, value, hvalue, -⟩
    · exact hle
    · rw [hquiescent pc hpc] at hvalue
      cases hvalue

theorem total_eq (h : w.Balanced) (hsettled : ∀ pc ∈ w.threads, pc.unsettled = false) :
    SizeTable.total w.allocator.allocSizes = w.allocator.bytesInUse := by
  have hsame : slotSum (fun _ pc => pc.tabled) w.threads =
      slotSum (fun _ pc => pc.counted) w.threads :=
    slotSum_congr fun _ pc hpc =>
      AllocPc.tabled_eq_counted (hsettled pc (List.mem_of_getElem? hpc))
  rw [← totalLen_tableBlocks, h.table, h.bytes, hsame]

end Balanced

/-! A call that nothing interrupts does what the sequential model says. -/

section Alone

variable {i : Nat} (hi : i < w.threads.length) (hidle : w.threads[i] = .idle)
include hi hidle

theorem set_idle : w.threads.set i .idle = w.threads := by
  rw [← hidle, List.set_getElem_self hi]

theorem runs_call {call : AllocCall} {rest : List AllocLabel} :
    runs step w (.call i call :: rest) = (w.enter i call).bind fun next => runs step next rest := by
  rw [runs, step, List.getElem?_eq_getElem hi, hidle, if_pos rfl]

omit hidle in
theorem runs_own {allocator : CountingAllocator} {held live : List Extent} {pc : AllocPc}
    {answer : Option Nat} {spurious : Bool} {rest : List AllocLabel} :
    runs step ⟨allocator, held, live, w.threads.set i pc⟩ (.step i answer spurious :: rest) =
      (advance ⟨allocator, held, live, w.threads.set i pc⟩ i answer spurious pc).bind
        fun next => runs step next rest := by
  rw [runs, step, List.getElem?_set_self hi, Option.bind_some]

theorem allocate_alone {size alignment raw : Nat}
    (hcheck : CountingAllocator.checkArguments size alignment = none)
    (hgrants : w.Grants ⟨raw, size⟩) :
    runs step w (.call i (.allocate size alignment) :: List.replicate 6 (.step i (some raw) false)) =
      some { w with
        allocator := (w.allocator.allocate size alignment (some raw)).2
        held := ⟨raw, size⟩ :: w.held
        live := ⟨raw, size⟩ :: w.live } := by
  have hgrants' (a l t) : Grants ⟨a, w.held, l, t⟩ ⟨raw, size⟩ := hgrants
  simp only [List.replicate, runs_call hi hidle, enter, hcheck, goto, Option.bind_some, runs_own hi,
    advance, List.set_set, hgrants', if_true, runs_nil, CountingAllocator.allocate,
    CountingAllocator.recordAllocSuccess]
  rcases Nat.lt_or_ge w.allocator.bytesPeak ((w.allocator.bytesInUse + size) % 2 ^ 64) with hlt | hge
  · rw [max_eq_right hlt.le, if_pos hlt]
    simp [set_idle hi hidle]
  · rw [max_eq_left hge, if_neg hge.not_gt]
    simp [set_idle hi hidle]

theorem allocate_fails_alone {size alignment : Nat} {status : Api.Status}
    (hcheck : CountingAllocator.checkArguments size alignment = some status) :
    runs step w [.call i (.allocate size alignment), .step i none false] =
      some { w with allocator := (w.allocator.allocate size alignment none).2 } := by
  simp only [runs_call hi hidle, enter, hcheck, goto, Option.bind_some, runs_own hi, advance,
    List.set_set, set_idle hi hidle, runs_nil, CountingAllocator.allocate]

theorem allocate_refused_alone {size alignment : Nat}
    (hcheck : CountingAllocator.checkArguments size alignment = none) :
    runs step w (.call i (.allocate size alignment) :: List.replicate 2 (.step i none false)) =
      some { w with allocator := (w.allocator.allocate size alignment none).2 } := by
  simp only [List.replicate, runs_call hi hidle, enter, hcheck, goto, Option.bind_some, runs_own hi,
    advance, List.set_set, set_idle hi hidle, runs_nil, CountingAllocator.allocate]

theorem deallocate_alone (h : w.Balanced) {block : Extent}
    (hfind : w.live.find? (fun other => other.base = block.base) = some block) :
    runs step w (.call i (.deallocate block.base) :: List.replicate 5 (.step i none false)) =
      some { w with
        allocator := (w.allocator.deallocate block.base).2
        held := w.held.eraseP fun other => other.base = block.base
        live := w.live.eraseP fun other => other.base = block.base } := by
  have hmem := List.mem_of_find?_eq_some hfind
  obtain ⟨hbase, hlen, -⟩ := h.room_of_le h.live_le hmem
  have htable : block ∈ tableBlocks w.allocator.allocSizes := by
    rw [h.table]
    exact Multiset.mem_add.mpr (.inl hmem)
  have hsize := (h.perm_table htable).1
  simp only [List.replicate, runs_call hi hidle, enter, hfind, goto, Option.bind_some, runs_own hi,
    advance, List.set_set, if_true, set_idle hi hidle, runs_nil, if_neg hbase.ne', hsize,
    Option.getD_some, if_pos hlen, and_self, CountingAllocator.deallocate,
    CountingAllocator.recordDeallocate]

theorem resetStats_alone :
    runs step w (.call i .resetStats :: List.replicate 6 (.step i none false)) =
      some { w with allocator := w.allocator.resetStats } := by
  simp only [List.replicate, runs_call hi hidle, enter, goto, Option.bind_some, runs_own hi, advance,
    List.set_set, set_idle hi hidle, runs_nil, CountingAllocator.resetStats]

end Alone

structure Steady (w : StatsWorld) : Prop where
  balanced : w.Balanced
  summed : ∀ pc ∈ w.threads, pc.Summed w.allocator.bytesInUse

namespace Steady

variable {i : Nat}

theorem summed_goto (h : w.Steady) {new : AllocPc} (hthreads : w'.threads = w.threads.set i new)
    (hinUse : w'.allocator.bytesInUse = w.allocator.bytesInUse)
    (hnew : new.Summed w.allocator.bytesInUse) :
    ∀ pc ∈ w'.threads, pc.Summed w'.allocator.bytesInUse := by
  intro pc hpc
  rw [hthreads] at hpc
  rw [hinUse]
  rcases List.mem_or_eq_of_mem_set hpc with hmem | rfl
  · exact h.summed pc hmem
  · exact hnew

theorem storesCurrent (h : w.Steady) {pc : AllocPc} (hpc : pc ∈ w.threads) : w.StoresCurrent pc := by
  have hsummed := h.summed pc hpc
  cases pc with
  | storingPeak live => exact .inl hsummed
  | storingInUse live => exact hsummed
  | _ => trivial

theorem enter (h : w.Steady) {call : AllocCall} (hold : w.threads[i]? = some .idle)
    (hstep : w.enter i call = some w') : w'.Steady := by
  refine ⟨h.balanced.enter hold hstep, ?_⟩
  unfold StatsWorld.enter at hstep
  split at hstep
  · split at hstep <;>
    · cases hstep
      exact h.summed_goto rfl rfl trivial
  · split at hstep
    · cases hstep
      exact h.summed
    · split at hstep
      · cases hstep
      · cases hstep
        exact h.summed_goto rfl rfl trivial
  · cases hstep
    exact h.summed_goto rfl rfl trivial

theorem advance (h : w.Steady) {answer : Option Nat} {spurious : Bool} {pc : AllocPc}
    (hold : w.threads[i]? = some pc) (hapart : w.keepsApart (.step i answer spurious) = true)
    (hstep : w.advance i answer spurious pc = some w') : w'.Steady := by
  have hpc : pc ∈ w.threads := List.mem_of_getElem? hold
  have hsummed := h.summed pc hpc
  refine ⟨h.balanced.advance hold (h.storesCurrent hpc) hstep, ?_⟩
  simp only [keepsApart, hold] at hapart
  cases pc with
  | idle => cases hstep
  | requesting size =>
    cases answer with
    | none =>
      cases hstep
      exact h.summed_goto rfl rfl trivial
    | some raw =>
      simp only [StatsWorld.advance, Option.ite_none_right_eq_some, Option.some.injEq] at hstep
      obtain ⟨-, rfl⟩ := hstep
      exact h.summed_goto rfl rfl trivial
  | adding block =>
    cases hstep
    intro other hother
    rcases List.mem_or_eq_of_mem_set hother with hmem | rfl
    · have hstores := List.all_eq_true.mp hapart other hmem
      exact AllocPc.summed_of_not_storesPeak (by simpa using hstores) _
    · trivial
  | raisingPeak block inUseNow peak =>
    simp only [StatsWorld.advance] at hstep
    split_ifs at hstep <;>
    · cases hstep
      exact h.summed_goto rfl rfl trivial
  | countingFree block released =>
    cases hstep
    refine h.summed_goto rfl rfl ?_
    split <;> trivial
  | lowering block delta cur =>
    simp only [StatsWorld.advance] at hstep
    split_ifs at hstep with hsame
    · cases hstep
      obtain ⟨rfl, -⟩ := hsame
      have hle : CountingAllocator.lowered w.allocator.bytesInUse delta ≤ w.allocator.bytesInUse := by
        unfold CountingAllocator.lowered
        split <;> omega
      intro other hother
      rcases List.mem_or_eq_of_mem_set hother with hmem | rfl
      · have hstores := List.all_eq_true.mp hapart other hmem
        exact (h.summed other hmem).lower (by simpa using hstores) hle
      · trivial
    · cases hstep
      exact h.summed_goto rfl rfl trivial
  | summing =>
    cases hstep
    refine h.summed_goto rfl rfl ?_
    have hlt := h.balanced.bytes_le.trans_lt h.balanced.held_lt
    have hsettled : ∀ pc ∈ w.threads, pc.unsettled = false := by
      intro pc hmem
      simpa using List.all_eq_true.mp hapart pc hmem
    change _ % 2 ^ 64 = _
    rw [h.balanced.total_eq hsettled, Nat.mod_eq_of_lt hlt]
  | storingInUse live =>
    cases hstep
    have hlive : live = w.allocator.bytesInUse := hsummed
    exact h.summed_goto rfl hlive hlive.ge
  | zeroingAlloc live | zeroingFree live | zeroingFail live =>
    cases hstep
    exact h.summed_goto rfl rfl hsummed
  | failing | counting block | tabling block | loadingPeak block inUseNow | erasing block
  | loadingInUse block delta | releasing block | storingPeak live =>
    cases hstep
    exact h.summed_goto rfl rfl trivial

theorem step (h : w.Steady) {label : AllocLabel} (hapart : w.keepsApart label = true)
    (hstep : w.step label = some w') : w'.Steady := by
  cases label with
  | call thread call =>
    simp only [StatsWorld.step, Option.ite_none_right_eq_some] at hstep
    exact h.enter hstep.1 hstep.2
  | step thread answer spurious =>
    obtain ⟨pc, hpc, hadvance⟩ := Option.bind_eq_some_iff.mp hstep
    exact h.advance hpc hapart hadvance

theorem start (backend : AllocBackend) (count : Nat) : (StatsWorld.start backend count).Steady := by
  refine ⟨.start backend count, fun pc hpc => ?_⟩
  cases start_quiescent backend count pc hpc
  trivial

end Steady

end StatsWorld

/-- Runs of any number of threads in which no call updates the counter between the
sum of a `ResetStats` and its stores, and no `ResetStats` sums while a call has
updated only one of the table and the counter: whenever no call is in progress,
the live bytes are the sum of the table, and the peak is not below them. -/
theorem live_bytes_right_at_rest (backend : AllocBackend) (count : Nat) (labels : List AllocLabel)
    (w : StatsWorld)
    (hapart : Meets StatsWorld.step (fun w label => w.keepsApart label = true)
      (.start backend count) labels)
    (hrun : runs StatsWorld.step (.start backend count) labels = some w)
    (hquiescent : w.Quiescent) :
    w.allocator.bytesInUse = SizeTable.total w.allocator.allocSizes ∧
      w.allocator.bytesPeak ≥ w.allocator.bytesInUse := by
  have h : w.Steady := runs_invariant_of_meets (fun _ _ _ h hapart hstep => h.step hapart hstep)
    (.start backend count) hapart hrun
  exact h.balanced.quiescent hquiescent

/-- Two threads allocate and one resets in between: its sum comes after the first
allocation, and the second one has entered the table but not the counter when the
sum is stored. -/
theorem live_bytes_right_at_rest_two :
    ∃ w, runs StatsWorld.step (.start .kSystem 2)
        [.call 0 (.allocate 8 8), .step 0 (some 4096) false, .step 0 none false,
          .step 0 none false, .step 0 none false, .step 0 none false, .step 0 none true,
          .step 0 none false, .call 0 .resetStats, .call 1 (.allocate 24 16),
          .step 1 (some 8192) false, .step 1 none false, .step 0 none false,
          .step 1 none false, .step 0 none false, .step 0 none false, .step 0 none false,
          .step 0 none false, .step 0 none false, .step 1 none false, .step 1 none false,
          .step 1 none false] = some w ∧
      w.Quiescent ∧ SizeTable.total w.allocator.allocSizes = 32 ∧ w.allocator.bytesInUse = 32 ∧
      w.allocator.bytesPeak ≥ 32 := by
  obtain ⟨w, hrun, hw⟩ := Option.map_eq_some_iff.mp
    (show (runs StatsWorld.step (.start .kSystem 2)
        [.call 0 (.allocate 8 8), .step 0 (some 4096) false, .step 0 none false,
          .step 0 none false, .step 0 none false, .step 0 none false, .step 0 none true,
          .step 0 none false, .call 0 .resetStats, .call 1 (.allocate 24 16),
          .step 1 (some 8192) false, .step 1 none false, .step 0 none false,
          .step 1 none false, .step 0 none false, .step 0 none false, .step 0 none false,
          .step 0 none false, .step 0 none false, .step 1 none false, .step 1 none false,
          .step 1 none false]).map
        (fun w => decide (w.Quiescent ∧ SizeTable.total w.allocator.allocSizes = 32)) =
        some true by decide +kernel)
  obtain ⟨hquiescent, htotal⟩ := of_decide_eq_true hw
  obtain ⟨hinUse, hpeak⟩ := live_bytes_right_at_rest .kSystem 2 _ w
    (.of_checks (fun _ _ h => h) (by decide +kernel)) hrun hquiescent
  rw [htotal] at hinUse
  exact ⟨w, hrun, hquiescent, htotal, hinUse, hinUse ▸ hpeak⟩

/-- A block is allocated between the sum and the stores: the counter stays at zero
while the block is live. -/
theorem resetStats_forgets_block :
    ∃ w, runs StatsWorld.step (.start .kSystem 2)
        [.call 0 .resetStats, .step 0 none false, .call 1 (.allocate 8 8),
          .step 1 (some 4096) false, .step 1 none false, .step 1 none false,
          .step 1 none false, .step 1 none false, .step 1 none false, .step 0 none false,
          .step 0 none false, .step 0 none false, .step 0 none false, .step 0 none false] =
        some w ∧
      w.Quiescent ∧ w.live = [⟨4096, 8⟩] ∧ SizeTable.total w.allocator.allocSizes = 8 ∧
      w.allocator.bytesInUse = 0 := by
  obtain ⟨w, hrun, hw⟩ := Option.map_eq_some_iff.mp
    (show (runs StatsWorld.step (.start .kSystem 2)
        [.call 0 .resetStats, .step 0 none false, .call 1 (.allocate 8 8),
          .step 1 (some 4096) false, .step 1 none false, .step 1 none false,
          .step 1 none false, .step 1 none false, .step 1 none false, .step 0 none false,
          .step 0 none false, .step 0 none false, .step 0 none false, .step 0 none false]).map
        (fun w => decide (w.Quiescent ∧ w.live = [⟨4096, 8⟩] ∧
          SizeTable.total w.allocator.allocSizes = 8 ∧ w.allocator.bytesInUse = 0)) =
        some true by decide +kernel)
  exact ⟨w, hrun, of_decide_eq_true hw⟩

end Corekit.Memory
