import Corekit.Api.Json
import Corekit.Foundation.Transition
import Corekit.Memory.Allocator

/-! `GlobalAllocator`: the current allocator object and the options, and every
call that reaches them. `enabled` says which backends the build has. -/
namespace Corekit.Memory
open Corekit.Api Corekit.Foundation

structure GlobalAllocatorOptions where
  backend : AllocBackend := .kSystem
  strictBackend : Bool := true
  deriving DecidableEq, Repr

structure GlobalAllocator where
  allocator : Option CountingAllocator := some { backend := .kSystem }
  options : GlobalAllocatorOptions := {}

def createAllocator (enabled : AllocBackend → Bool) (backend : AllocBackend) :
    Result CountingAllocator :=
  match backend with
  | .kSystem => .ok { backend := .kSystem }
  | backend =>
    if enabled backend then .ok { backend := backend }
    else .error ⟨.kUnsupported, "Requested backend is not enabled in this build", .kMemory⟩

def parseBackend (value : String) : Result AllocBackend :=
  if value = "system" then .ok .kSystem
  else if value = "tbb" ∨ value = "tbb_scalable" ∨ value = "tbbscalable" then .ok .kTbbScalable
  else if value = "mimalloc" ∨ value = "mi" then .ok .kMimalloc
  else .error ⟨.kInvalidArgument, "memory.backend is invalid", .kMemory⟩

/-- The checks of `ConfigureFromFile` before it looks at the current options. -/
def loadRoot (file : Result Json) : Result Json :=
  match file with
  | .error status => .error status
  | .ok root =>
    if root.isObject then .ok root
    else .error ⟨.kInvalidArgument, "root JSON must be object", .kMemory⟩

def memorySection (root : Json) : Result Json :=
  match root.member? "memory" with
  | none => .ok root
  | some memory =>
    if memory.isObject then .ok memory
    else .error ⟨.kInvalidArgument, "memory must be JSON object", .kMemory⟩

def readBackend (memory : Json) (options : GlobalAllocatorOptions) :
    Result GlobalAllocatorOptions :=
  match memory.member? "backend" with
  | none => .ok options
  | some (.string value) =>
    match parseBackend value with
    | .error status => .error status
    | .ok backend => .ok { options with backend := backend }
  | some _ => .error ⟨.kInvalidArgument, "memory.backend must be string", .kMemory⟩

def readStrict (memory : Json) (options : GlobalAllocatorOptions) :
    Result GlobalAllocatorOptions :=
  match memory.member? "strict_backend" with
  | none => .ok options
  | some (.boolean value) => .ok { options with strictBackend := value }
  | some _ => .error ⟨.kInvalidArgument, "memory.strict_backend must be boolean", .kMemory⟩

def readOptions (root : Json) (options : GlobalAllocatorOptions) : Result GlobalAllocatorOptions := do
  let memory ← memorySection root
  let options ← readBackend memory options
  readStrict memory options

namespace GlobalAllocator

variable (s : GlobalAllocator)

def ensureAllocatorLocked : CountingAllocator × GlobalAllocator :=
  match s.allocator with
  | some allocator => (allocator, s)
  | none =>
    ({ backend := .kSystem },
      { allocator := some { backend := .kSystem }
        options := { s.options with backend := .kSystem } })

def configure (enabled : AllocBackend → Bool) (options : GlobalAllocatorOptions) :
    Status × GlobalAllocator :=
  let (current, s) := s.ensureAllocatorLocked
  if options.backend ≠ s.options.backend then
    if current.bytesInUse ≠ 0 then
      (⟨.kWouldBlock, "cannot switch allocator backend while memory is still in use", .kMemory⟩, s)
    else
      match createAllocator enabled options.backend with
      | .ok created => (.okStatus, { allocator := some created, options := options })
      | .error status =>
        if options.strictBackend then (status, s)
        else
          match createAllocator enabled .kSystem with
          | .error status => (status, s)
          | .ok fallback =>
            (.okStatus,
              { allocator := some fallback, options := { options with backend := .kSystem } })
  else (.okStatus, { s with options := options })

def configureFromFile (enabled : AllocBackend → Bool) (file : Result Json) :
    Status × GlobalAllocator :=
  match loadRoot file with
  | .error status => (status, s)
  | .ok root =>
    match readOptions root s.options with
    | .error status => (status, s)
    | .ok options => s.configure enabled options

def allocate (size alignment : Nat) (answer : Option Nat) : Result Nat × GlobalAllocator :=
  let (current, s) := s.ensureAllocatorLocked
  let (result, current) := current.allocate size alignment answer
  (result, { s with allocator := some current })

def deallocate (ptr : Nat) : Status × GlobalAllocator :=
  let (current, s) := s.ensureAllocatorLocked
  let (status, current) := current.deallocate ptr
  (status, { s with allocator := some current })

def resetCurrentStats : GlobalAllocator :=
  let (current, s) := s.ensureAllocatorLocked
  { s with allocator := some current.resetStats }

end GlobalAllocator

/-- The global allocator and the pointers it has handed out that are not yet
freed, with their sizes. -/
structure AllocatorWorld where
  global : GlobalAllocator := {}
  live : List (Nat × Nat) := []

inductive AllocatorAction where
  | configure (options : GlobalAllocatorOptions)
  | configureFromFile (file : Result Json)
  | allocate (size alignment : Nat) (answer : Option Nat)
  | deallocate (ptr : Nat)
  | resetCurrentStats

namespace AllocatorWorld

variable (enabled : AllocBackend → Bool)

/-- The backends answer with pointers that nobody holds, and callers give back
only what they hold. -/
def step (w : AllocatorWorld) : AllocatorAction → Option AllocatorWorld
  | .configure options => some { w with global := (w.global.configure enabled options).2 }
  | .configureFromFile file => some { w with global := (w.global.configureFromFile enabled file).2 }
  | .allocate size alignment answer =>
    if ∀ ptr ∈ answer, ptr ≠ 0 ∧ ptr ∉ w.live.map Prod.fst then
      let (result, global) := w.global.allocate size alignment answer
      match result with
      | .ok ptr => some ⟨global, (ptr, size) :: w.live⟩
      | .error _ => some { w with global := global }
    else none
  | .deallocate ptr =>
    if ptr = 0 then some { w with global := (w.global.deallocate ptr).2 }
    else if ptr ∈ w.live.map Prod.fst then
      some ⟨(w.global.deallocate ptr).2, SizeTable.erase w.live ptr⟩
    else none
  | .resetCurrentStats => some { w with global := w.global.resetCurrentStats }

/-- The live bytes stay below 2^64. -/
def Fits (w : AllocatorWorld) (action : AllocatorAction) : Prop :=
  ∀ w', w.step enabled action = some w' → SizeTable.total w'.live < 2 ^ 64

structure Inv (w : AllocatorWorld) : Prop where
  current : ∃ a, w.global.allocator = some a ∧ a.backend = w.global.options.backend ∧
    a.allocSizes.Perm w.live ∧ a.bytesInUse = SizeTable.total w.live
  pointers : (w.live.map Prod.fst).Nodup
  sizes : ∀ entry ∈ w.live, entry.1 ≠ 0 ∧ 0 < entry.2
  fits : SizeTable.total w.live < 2 ^ 64

end AllocatorWorld

section Configure

variable {enabled : AllocBackend → Bool} {s : GlobalAllocator} {a : CountingAllocator}

theorem createAllocator_ok {backend : AllocBackend}
    (h : createAllocator enabled backend = .ok a) : a = { backend := backend } := by
  cases backend with
  | kSystem =>
    cases h
    rfl
  | kTbbScalable =>
    simp only [createAllocator] at h
    split_ifs at h
    cases h
    rfl
  | kMimalloc =>
    simp only [createAllocator] at h
    split_ifs at h
    cases h
    rfl

theorem createAllocator_error {backend : AllocBackend} {status : Status}
    (h : createAllocator enabled backend = .error status) : status.ok = false := by
  cases backend with
  | kSystem => cases h
  | kTbbScalable =>
    simp only [createAllocator] at h
    split_ifs at h
    cases h
    rfl
  | kMimalloc =>
    simp only [createAllocator] at h
    split_ifs at h
    cases h
    rfl

/-- All that `Configure` can do: refuse and change nothing, keep the allocator,
or install a new one while no byte is in use. -/
theorem GlobalAllocator.configure_cases (h : s.allocator = some a)
    (options : GlobalAllocatorOptions) :
    ((s.configure enabled options).1.ok = false ∧ (s.configure enabled options).2 = s) ∨
    ((s.configure enabled options).1 = .okStatus ∧ options.backend = s.options.backend ∧
      (s.configure enabled options).2 = { s with options := options }) ∨
    ((s.configure enabled options).1 = .okStatus ∧ options.backend ≠ s.options.backend ∧
      a.bytesInUse = 0 ∧ ∃ backend, (s.configure enabled options).2 =
        { allocator := some { backend := backend }
          options := { options with backend := backend } }) := by
  have hensure : s.ensureAllocatorLocked = (a, s) := by simp [ensureAllocatorLocked, h]
  unfold configure
  rw [hensure]
  by_cases hsame : options.backend = s.options.backend
  · simp [hsame]
  by_cases huse : a.bytesInUse = 0
  · simp only [hsame, huse, ne_eq, not_false_eq_true, not_true_eq_false, if_true, if_false]
    cases hcreate : createAllocator enabled options.backend with
    | ok created =>
      cases createAllocator_ok hcreate
      exact .inr (.inr ⟨rfl, trivial, trivial, options.backend, rfl⟩)
    | error status =>
      cases hstrict : options.strictBackend with
      | true => exact .inl ⟨createAllocator_error hcreate, rfl⟩
      | false => exact .inr (.inr ⟨rfl, trivial, trivial, .kSystem, rfl⟩)
  · simp [hsame, huse, Status.ok]

theorem GlobalAllocator.configureFromFile_cases (file : Result Json) :
    (s.configureFromFile enabled file).2 = s ∨
      ∃ options, s.configureFromFile enabled file = s.configure enabled options := by
  unfold configureFromFile
  cases loadRoot file with
  | error status => exact .inl rfl
  | ok root =>
    cases hread : readOptions root s.options with
    | error status => exact .inl (by simp [hread])
    | ok options => exact .inr ⟨options, by simp [hread]⟩

end Configure

namespace AllocatorWorld

variable {enabled : AllocBackend → Bool} {w w' : AllocatorWorld}

theorem eq_nil_of_total {live : List (Nat × Nat)} (hsizes : ∀ entry ∈ live, 0 < entry.2)
    (h : SizeTable.total live = 0) : live = [] := by
  cases live with
  | nil => rfl
  | cons entry rest =>
    have := hsizes entry (by simp)
    rw [SizeTable.total_cons] at h
    omega

theorem Inv.configure (h : w.Inv) (options : GlobalAllocatorOptions) :
    Inv { w with global := (w.global.configure enabled options).2 } := by
  obtain ⟨a, ha, hbackend, hperm, huse⟩ := h.current
  rcases @GlobalAllocator.configure_cases enabled _ _ ha options with ⟨-, hsame⟩ |
    ⟨-, heq, hnext⟩ | ⟨-, -, hzero, backend, hnext⟩
  · rw [hsame]
    exact h
  · refine ⟨⟨a, ?_, ?_, hperm, huse⟩, h.pointers, h.sizes, h.fits⟩
    · rw [hnext]
      exact ha
    · rw [hnext, hbackend]
      exact heq.symm
  · -- the new object knows no pointer, and there is none
    have hnil : w.live = [] :=
      eq_nil_of_total (fun entry hentry => (h.sizes entry hentry).2) (huse ▸ hzero)
    refine ⟨⟨{ backend := backend }, ?_, ?_, ?_, ?_⟩, h.pointers, h.sizes, h.fits⟩
    · rw [hnext]
    · rw [hnext]
    · rw [hnil]
    · rw [hnil]
      rfl

theorem Inv.allocate (h : w.Inv) {size alignment : Nat} {answer : Option Nat}
    (hfits : w.Fits enabled (.allocate size alignment answer))
    (hfresh : ∀ ptr ∈ answer, ptr ≠ 0 ∧ ptr ∉ w.live.map Prod.fst)
    (hstep : w.step enabled (.allocate size alignment answer) = some w') : w'.Inv := by
  have hroom := hfits w' hstep
  obtain ⟨a, ha, hbackend, hperm, huse⟩ := h.current
  have hensure : w.global.ensureAllocatorLocked = (a, w.global) := by
    simp [GlobalAllocator.ensureAllocatorLocked, ha]
  have hfail : Inv { w with
      global := { w.global with allocator := some a.recordAllocFailure } } :=
    ⟨⟨_, rfl, hbackend, hperm, huse⟩, h.pointers, h.sizes, h.fits⟩
  simp only [step, if_pos hfresh, GlobalAllocator.allocate, hensure,
    CountingAllocator.allocate] at hstep
  cases hcheck : CountingAllocator.checkArguments size alignment with
  | some status =>
    simp only [hcheck] at hstep
    cases hstep
    exact hfail
  | none =>
    cases answer with
    | none =>
      simp only [hcheck] at hstep
      cases hstep
      exact hfail
    | some ptr =>
      simp only [hcheck] at hstep
      cases hstep
      obtain ⟨hnull, hnew⟩ := hfresh ptr rfl
      have hpos : 0 < size := by
        by_contra hzero
        simp [CountingAllocator.checkArguments, Nat.eq_zero_of_not_pos hzero] at hcheck
      have htable : ptr ∉ a.allocSizes.map Prod.fst := by
        rwa [(hperm.map Prod.fst).mem_iff]
      refine ⟨⟨_, rfl, hbackend, ?_, ?_⟩, ?_, ?_, ?_⟩
      · simp only [CountingAllocator.recordAllocSuccess, SizeTable.put,
          SizeTable.erase_of_notMem htable]
        exact hperm.cons _
      · simp only [SizeTable.total_cons] at hroom
        simp only [CountingAllocator.recordAllocSuccess, huse, SizeTable.total_cons]
        rw [Nat.add_comm, Nat.mod_eq_of_lt hroom]
      · exact List.nodup_cons.mpr ⟨hnew, h.pointers⟩
      · intro entry hentry
        rcases List.mem_cons.mp hentry with rfl | hentry
        · exact ⟨hnull, hpos⟩
        · exact h.sizes entry hentry
      · exact hroom

theorem Inv.deallocate (h : w.Inv) {ptr : Nat} (hnull : ptr ≠ 0)
    (hmem : ptr ∈ w.live.map Prod.fst) :
    Inv ⟨(w.global.deallocate ptr).2, SizeTable.erase w.live ptr⟩ := by
  obtain ⟨a, ha, hbackend, hperm, huse⟩ := h.current
  have hensure : w.global.ensureAllocatorLocked = (a, w.global) := by
    simp [GlobalAllocator.ensureAllocatorLocked, ha]
  obtain ⟨⟨key, size⟩, hentry, rfl⟩ := List.mem_map.mp hmem
  have hkeys : (a.allocSizes.map Prod.fst).Nodup := (hperm.map _).nodup_iff.mpr h.pointers
  obtain ⟨hfind, htable⟩ := SizeTable.perm_of_mem hkeys (hperm.mem_iff.mpr hentry)
  obtain ⟨-, hlive⟩ := SizeTable.perm_of_mem h.pointers hentry
  have hpos : 0 < size := (h.sizes _ hentry).2
  have htotal := SizeTable.total_perm hlive
  rw [SizeTable.total_cons] at htotal
  have hsub : ∀ entry ∈ SizeTable.erase w.live key, entry ∈ w.live :=
    fun entry hmem => (List.mem_filter.mp hmem).1
  have hglobal : (w.global.deallocate key).2 =
      { w.global with allocator := some (a.recordDeallocate key) } := by
    simp only [GlobalAllocator.deallocate, hensure, CountingAllocator.deallocate]
    rw [if_neg hnull]
  simp only [hglobal]
  refine ⟨⟨a.recordDeallocate key, rfl, hbackend, ?_, ?_⟩, ?_, ?_, ?_⟩
  · exact ((htable.symm.trans (hperm.trans hlive))).cons_inv
  · simp only [CountingAllocator.recordDeallocate, hfind, Option.getD_some, if_pos hpos,
      CountingAllocator.lowered, huse]
    simp only at htotal
    split_ifs <;> omega
  · exact h.pointers.sublist (List.Sublist.map _ List.filter_sublist)
  · exact fun entry hentry => h.sizes entry (hsub entry hentry)
  · have := h.fits
    change SizeTable.total (SizeTable.erase w.live key) < 2 ^ 64
    simp only at htotal
    omega

theorem Inv.step (h : w.Inv) {action : AllocatorAction} (hfits : w.Fits enabled action)
    (hstep : w.step enabled action = some w') : w'.Inv := by
  obtain ⟨a, ha, hbackend, hperm, huse⟩ := h.current
  have hensure : w.global.ensureAllocatorLocked = (a, w.global) := by
    simp [GlobalAllocator.ensureAllocatorLocked, ha]
  cases action with
  | configure options =>
    cases hstep
    exact h.configure options
  | configureFromFile file =>
    cases hstep
    rcases @GlobalAllocator.configureFromFile_cases enabled w.global file with hsame |
      ⟨options, hcall⟩
    · rw [hsame]
      exact h
    · rw [hcall]
      exact h.configure options
  | allocate size alignment answer =>
    by_cases hfresh : ∀ ptr ∈ answer, ptr ≠ 0 ∧ ptr ∉ w.live.map Prod.fst
    · exact h.allocate hfits hfresh hstep
    · rw [AllocatorWorld.step, if_neg hfresh] at hstep
      cases hstep
  | deallocate ptr =>
    simp only [AllocatorWorld.step] at hstep
    split_ifs at hstep with hnull hmem
    · cases hstep
      refine ⟨⟨a, ?_, ?_, hperm, huse⟩, h.pointers, h.sizes, h.fits⟩
      · simp [GlobalAllocator.deallocate, hensure, CountingAllocator.deallocate, hnull]
      · simp [GlobalAllocator.deallocate, hensure, hbackend]
    · cases hstep
      exact h.deallocate hnull hmem
  | resetCurrentStats =>
    cases hstep
    refine ⟨⟨a.resetStats, ?_, ?_, hperm, ?_⟩, h.pointers, h.sizes, h.fits⟩
    · simp [GlobalAllocator.resetCurrentStats, hensure]
    · simp [GlobalAllocator.resetCurrentStats, hensure, CountingAllocator.resetStats, hbackend]
    · simp only [CountingAllocator.resetStats]
      rw [SizeTable.total_perm hperm, Nat.mod_eq_of_lt h.fits]

theorem start_inv : Inv {} :=
  ⟨⟨{ backend := .kSystem }, rfl, rfl, List.Perm.refl _, rfl⟩, by simp, by simp, by decide⟩

end AllocatorWorld

/-- Any history of the global allocator, with any set of backends built in. -/
theorem live_pointers_stay_with_their_allocator (enabled : AllocBackend → Bool)
    (actions : List AllocatorAction) (w : AllocatorWorld)
    (hfits : Meets (AllocatorWorld.step enabled) (AllocatorWorld.Fits enabled) {} actions)
    (hrun : runs (AllocatorWorld.step enabled) {} actions = some w) :
    (∃ a, w.global.allocator = some a ∧
      (∀ entry ∈ w.live, SizeTable.sizeOf? a.allocSizes entry.1 = some entry.2) ∧
      a.bytesInUse = SizeTable.total w.live ∧ w.global.options.backend = a.backend) ∧
    (w.live ≠ [] →
      (∀ options, (w.global.configure enabled options).2.allocator = w.global.allocator) ∧
      ∀ file, (w.global.configureFromFile enabled file).2.allocator = w.global.allocator) ∧
    (∀ options, (w.global.configure enabled options).1.ok = false →
      (w.global.configure enabled options).2 = w.global) ∧
    ∀ file, (w.global.configureFromFile enabled file).1.ok = false →
      (w.global.configureFromFile enabled file).2 = w.global := by
  have h : w.Inv := runs_invariant_of_meets (fun _ _ _ h hfits hstep => h.step hfits hstep)
    AllocatorWorld.start_inv hfits hrun
  obtain ⟨a, ha, hbackend, hperm, huse⟩ := h.current
  have hkeys : (a.allocSizes.map Prod.fst).Nodup := (hperm.map _).nodup_iff.mpr h.pointers
  have hkeep : w.live ≠ [] → ∀ options,
      (w.global.configure enabled options).2.allocator = w.global.allocator := by
    intro hlive options
    rcases @GlobalAllocator.configure_cases enabled _ _ ha options with ⟨-, hsame⟩ |
      ⟨-, -, hnext⟩ | ⟨-, -, hzero, -⟩
    · rw [hsame]
    · rw [hnext]
    · exact absurd (AllocatorWorld.eq_nil_of_total (fun entry hentry => (h.sizes entry hentry).2)
        (huse ▸ hzero)) hlive
  have hfailed : ∀ options, (w.global.configure enabled options).1.ok = false →
      (w.global.configure enabled options).2 = w.global := by
    intro options hstatus
    rcases @GlobalAllocator.configure_cases enabled _ _ ha options with ⟨-, hsame⟩ |
      ⟨hok, -⟩ | ⟨hok, -⟩
    · exact hsame
    · rw [hok] at hstatus
      cases hstatus
    · rw [hok] at hstatus
      cases hstatus
  refine ⟨⟨a, ha, ?_, huse, hbackend.symm⟩, fun hlive => ⟨hkeep hlive, ?_⟩, hfailed, ?_⟩
  · intro entry hentry
    exact (SizeTable.perm_of_mem hkeys (hperm.mem_iff.mpr hentry)).1
  · intro file
    rcases @GlobalAllocator.configureFromFile_cases enabled w.global file with hsame |
      ⟨options, hcall⟩
    · rw [hsame]
    · rw [hcall]
      exact hkeep hlive options
  · intro file hstatus
    rcases @GlobalAllocator.configureFromFile_cases enabled w.global file with hsame |
      ⟨options, hcall⟩
    · exact hsame
    · rw [hcall] at hstatus ⊢
      exact hfailed options hstatus

/-- One allocation, and a switch that is refused while it is live. -/
theorem live_pointers_stay_with_their_allocator_one :
    ∃ w, runs (AllocatorWorld.step fun _ => true) {} [.allocate 100 8 (some 4096)] = some w ∧
      w.live = [(4096, 100)] ∧
      (w.global.configure (fun _ => true) { backend := .kMimalloc }).2.allocator =
        w.global.allocator := by
  obtain ⟨w, hrun, hlive⟩ := Option.map_eq_some_iff.mp
    (show (runs (AllocatorWorld.step fun _ => true) {} [.allocate 100 8 (some 4096)]).map
      AllocatorWorld.live = some [(4096, 100)] by decide +kernel)
  refine ⟨w, hrun, hlive, ?_⟩
  have hfits : Meets (AllocatorWorld.step fun _ => true) (AllocatorWorld.Fits fun _ => true) {}
      [.allocate 100 8 (some 4096)] := by
    refine ⟨fun w' hstep => ?_, fun _ _ => trivial⟩
    have hw : w' = w := Option.some.inj (by simpa [runs, hstep] using hrun)
    rw [hw, hlive]
    decide
  exact ((live_pointers_stay_with_their_allocator _ _ w hfits hrun).2.1 (by simp [hlive])).1 _

end Corekit.Memory
