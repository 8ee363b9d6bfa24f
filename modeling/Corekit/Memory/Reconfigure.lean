import Corekit.Foundation.Sections
import Corekit.Memory.GlobalAllocator

/-! Concurrent reconfiguration of the global allocator. `Configure` holds
`ConfigureMu` from beginning to end; `ConfigureFromFile` holds it to copy the
options, lets it go while it merges the file into the copy, and takes it again
in `Configure`. -/
namespace Corekit.Memory
open Corekit.Api Corekit.Foundation

inductive ConfigCall where
  | configure (options : GlobalAllocatorOptions)
  | configureFromFile (file : Result Json)

/-- The options that the first section saw, and what the file made of them. -/
structure Merge where
  snapshot : GlobalAllocatorOptions
  merged : GlobalAllocatorOptions

namespace ConfigCall

variable (enabled : AllocBackend → Bool)

def sections : ConfigCall → SectionCall GlobalAllocator Merge Status
  | .configure options =>
    { direct := true
      read := fun g => .ok ⟨g.options, options⟩
      write := fun merge g => g.configure enabled merge.merged }
  | .configureFromFile file =>
    { read := fun g =>
        match loadRoot file with
        | .error status => .error status
        | .ok root =>
          match readOptions root g.options with
          | .error status => .error status
          | .ok options => .ok ⟨g.options, options⟩
      write := fun merge g => g.configure enabled merge.merged }

def run (g : GlobalAllocator) : ConfigCall → Status × GlobalAllocator
  | .configure options => g.configure enabled options
  | .configureFromFile file => g.configureFromFile enabled file

def execute (g : GlobalAllocator) (calls : List ConfigCall) : GlobalAllocator :=
  calls.foldl (fun g call => (call.run enabled g).2) g

theorem whole_sections (call : ConfigCall) (g : GlobalAllocator) :
    (call.sections enabled).whole g = call.run enabled g := by
  cases call with
  | configure options => rfl
  | configureFromFile file =>
    simp only [SectionCall.whole, sections, run, GlobalAllocator.configureFromFile]
    cases loadRoot file with
    | error status => rfl
    | ok root => cases hread : readOptions root g.options <;> simp [hread]

end ConfigCall

/-- Options whose fields agree where the file has nothing to say. -/
def agreeUnset (root : Json) (snapshot current : GlobalAllocatorOptions) : Bool :=
  match memorySection root with
  | .error _ => true
  | .ok memory =>
    ((memory.member? "backend").isSome || decide (current.backend = snapshot.backend)) &&
      ((memory.member? "strict_backend").isSome ||
        decide (current.strictBackend = snapshot.strictBackend))

/-- Call `i` does not enter its second section, or finds there every field that
its file does not set as it was in the first. -/
def keepsSnapshot (calls : List ConfigCall) (m : SectionMachine GlobalAllocator Merge Status)
    (i : Nat) : Bool :=
  match calls[i]?, m.pcs i with
  | some (.configureFromFile file), .prepared merge =>
    match loadRoot file with
    | .error _ => true
    | .ok root => agreeUnset root merge.snapshot m.state.options
  | _, _ => true

theorem readBackend_of_agree {memory : Json} {snapshot current merged : GlobalAllocatorOptions}
    (h : readBackend memory snapshot = .ok merged)
    (hagree : (memory.member? "backend").isSome = true ∨ current.backend = snapshot.backend) :
    readBackend memory current =
      .ok { backend := merged.backend, strictBackend := current.strictBackend } ∧
      merged.strictBackend = snapshot.strictBackend := by
  unfold readBackend at h ⊢
  cases hmember : memory.member? "backend" with
  | none =>
    rw [hmember] at h hagree
    cases h
    have hsame := hagree.resolve_left (by simp)
    exact ⟨by rw [← hsame], rfl⟩
  | some value =>
    rw [hmember] at h
    cases value with
    | string text =>
      simp only at h ⊢
      cases hparse : parseBackend text with
      | error status =>
        rw [hparse] at h
        cases h
      | ok backend =>
        rw [hparse] at h
        cases h
        exact ⟨rfl, rfl⟩
    | object members => cases h
    | boolean value => cases h
    | unsigned value => cases h
    | other => cases h

theorem readStrict_of_agree {memory : Json} {snapshot current merged : GlobalAllocatorOptions}
    (h : readStrict memory snapshot = .ok merged) (hbackend : current.backend = snapshot.backend)
    (hagree : (memory.member? "strict_backend").isSome = true ∨
      current.strictBackend = snapshot.strictBackend) : readStrict memory current = .ok merged := by
  unfold readStrict at h ⊢
  cases hmember : memory.member? "strict_backend" with
  | none =>
    rw [hmember] at h hagree
    cases h
    have hsame := hagree.resolve_left (by simp)
    rw [show current = snapshot by
      cases current
      cases snapshot
      simp_all]
  | some value =>
    rw [hmember] at h
    cases value with
    | boolean value =>
      cases h
      simp only [hbackend]
    | object members => cases h
    | string text => cases h
    | unsigned value => cases h
    | other => cases h

theorem readOptions_of_agree {root : Json} {snapshot current merged : GlobalAllocatorOptions}
    (h : readOptions root snapshot = .ok merged) (hagree : agreeUnset root snapshot current = true) :
    readOptions root current = .ok merged := by
  unfold readOptions agreeUnset at *
  cases hmemory : memorySection root with
  | error status =>
    rw [hmemory] at h
    cases h
  | ok memory =>
    rw [hmemory] at h hagree
    simp only [Bool.and_eq_true, Bool.or_eq_true, decide_eq_true_eq] at hagree
    change (readBackend memory snapshot >>= readStrict memory) = .ok merged at h
    change (readBackend memory current >>= readStrict memory) = .ok merged
    cases hread : readBackend memory snapshot with
    | error status =>
      rw [hread] at h
      cases h
    | ok mid =>
      rw [hread] at h
      obtain ⟨hcurrent, hstrict⟩ := readBackend_of_agree hread hagree.1
      rw [hcurrent]
      exact readStrict_of_agree h rfl (hagree.2.imp_right fun hsame => hsame.trans hstrict.symm)

section Runs

variable {enabled : AllocBackend → Bool} {calls : List ConfigCall} {g : GlobalAllocator}
  {m m' : SectionMachine GlobalAllocator Merge Status}

def Merged (calls : List ConfigCall) (m : SectionMachine GlobalAllocator Merge Status) : Prop :=
  ∀ i merge, m.pcs i = .prepared merge → ∃ file root,
    calls[i]? = some (.configureFromFile file) ∧ loadRoot file = .ok root ∧
      readOptions root merge.snapshot = .ok merge.merged

theorem getElem?_sections {i : Nat} {call : SectionCall GlobalAllocator Merge Status}
    (h : (calls.map (ConfigCall.sections enabled))[i]? = some call) :
    ∃ config, calls[i]? = some config ∧ config.sections enabled = call := by
  rw [List.getElem?_map] at h
  exact Option.map_eq_some_iff.mp h

theorem Merged.current (h : Merged calls m) {i : Nat} (hkeeps : keepsSnapshot calls m i = true) :
    m.Current (calls.map (ConfigCall.sections enabled)) i := by
  intro call merge hcall hpc
  obtain ⟨config, hconfig, rfl⟩ := getElem?_sections hcall
  obtain ⟨file, root, hfile, hroot, hread⟩ := h i merge hpc
  rw [hfile] at hconfig
  cases hconfig
  simp only [keepsSnapshot, hfile, hpc, hroot] at hkeeps
  simp only [SectionCall.whole, ConfigCall.sections, hroot, readOptions_of_agree hread hkeeps]

theorem Merged.finish (h : Merged calls m) (i : Nat) (outcome : Status × GlobalAllocator) :
    Merged calls (m.finish i outcome) := by
  intro j merge hpc
  by_cases hji : j = i
  · subst hji
    simp [SectionMachine.finish] at hpc
  · exact h j merge ((Function.update_of_ne hji _ _).symm.trans hpc)

theorem Merged.step (h : Merged calls m) {i : Nat}
    (hstep : m.step (calls.map (ConfigCall.sections enabled)) i = some m') : Merged calls m' := by
  unfold SectionMachine.step at hstep
  split at hstep
  · cases hstep
  · cases hstep
  · cases hstep
    exact h.finish _ _
  · next call hcall hpc =>
    split_ifs at hstep with hdirect
    · cases hstep
      exact h.finish _ _
    · split at hstep
      · cases hstep
        exact h.finish _ _
      · next merge hread =>
        cases hstep
        intro j merge' hpc'
        by_cases hji : j = i
        · subst hji
          have heq : merge = merge' := by simpa using hpc'
          subst heq
          obtain ⟨config, hconfig, rfl⟩ := getElem?_sections hcall
          cases config with
          | configure options => exact absurd rfl hdirect
          | configureFromFile file =>
            simp only [ConfigCall.sections] at hread
            cases hroot : loadRoot file with
            | error status => simp [hroot] at hread
            | ok root =>
              simp only [hroot] at hread
              cases hoptions : readOptions root m.state.options with
              | error status => simp [hoptions] at hread
              | ok options =>
                simp only [hoptions, Except.ok.injEq] at hread
                subst hread
                exact ⟨file, root, hconfig, hroot, hoptions⟩
        · exact h j merge' ((Function.update_of_ne hji _ _).symm.trans hpc')

theorem logged_of_run {labels : List Nat}
    (hkeeps : Meets (SectionMachine.step (calls.map (ConfigCall.sections enabled)))
      (fun m i => keepsSnapshot calls m i = true) (.start g) labels)
    (hrun : runs (SectionMachine.step (calls.map (ConfigCall.sections enabled)))
      (.start g) labels = some m) :
    m.Logged (calls.map (ConfigCall.sections enabled)) g := by
  have hinit : Merged calls (.start g) := fun i merge hpc => by cases hpc
  refine SectionMachine.runs_serial ?_ hrun
  exact hkeeps.imp (fun _ _ _ h hstep => Merged.step h hstep) (fun _ _ h hkeeps =>
    Merged.current h hkeeps) hinit

theorem execute_of_serial {log : List (Nat × Status)} {g' : GlobalAllocator}
    (h : SectionMachine.Serial (calls.map (ConfigCall.sections enabled)) g log g') :
    g' = ConfigCall.execute enabled g (log.filterMap fun entry => calls[entry.1]?) := by
  induction log generalizing g with
  | nil =>
    cases h
    rfl
  | cons entry rest ih =>
    obtain ⟨call, mid, hcall, hwhole, hrest⟩ := h
    obtain ⟨config, hconfig, rfl⟩ := getElem?_sections hcall
    rw [ConfigCall.whole_sections] at hwhole
    rw [List.filterMap_cons, hconfig, ih hrest]
    simp [ConfigCall.execute, hwhole]

theorem filterMap_getElem?_range {α : Type} (l : List α) :
    (List.range l.length).filterMap (fun i => l[i]?) = l := by
  have hmap : (List.range l.length).map (fun i => l[i]?) = l.map some := by
    apply List.ext_getElem (by simp)
    intro i hi hi'
    simp
  have hid := congrArg (List.filterMap id) hmap
  simpa [List.filterMap_map, Function.comp_def] using hid

end Runs

/-- Runs of any number of calls in which every second section finds the fields
that its file leaves out as they were in the first: once all calls are done, the
options and the allocator are those of the same calls one after the other. -/
theorem reconfigurations_are_serial (enabled : AllocBackend → Bool) (calls : List ConfigCall)
    (g : GlobalAllocator) (labels : List Nat) (m : SectionMachine GlobalAllocator Merge Status)
    (hkeeps : Meets (SectionMachine.step (calls.map (ConfigCall.sections enabled)))
      (fun m i => keepsSnapshot calls m i = true) (.start g) labels)
    (hrun : runs (SectionMachine.step (calls.map (ConfigCall.sections enabled)))
      (.start g) labels = some m)
    (hdone : ∀ i < calls.length, ∃ status, m.pcs i = .finished status) :
    ∃ order, order.Perm calls ∧
      m.state.options = (ConfigCall.execute enabled g order).options ∧
      m.state.allocator = (ConfigCall.execute enabled g order).allocator := by
  have h := logged_of_run hkeeps hrun
  have hstate := execute_of_serial h.serial
  refine ⟨m.log.filterMap fun entry => calls[entry.1]?, ?_, by rw [← hstate], by rw [← hstate]⟩
  have hperm := h.perm_range (by simpa using hdone)
  rw [List.length_map] at hperm
  have horder := hperm.filterMap fun i => calls[i]?
  rw [List.filterMap_map, filterMap_getElem?_range] at horder
  exact horder

/-- Two files that set one field each, one call after the other. -/
theorem reconfigurations_are_serial_two :
    ∃ m, runs (SectionMachine.step (List.map (ConfigCall.sections fun _ => true)
          [.configureFromFile (.ok (.object [("backend", .string "mimalloc")])),
            .configureFromFile (.ok (.object [("strict_backend", .boolean false)]))]))
        (.start {}) [0, 0, 1, 1] = some m ∧
      ∃ order : List ConfigCall, order.length = 2 ∧
        m.state.options = (ConfigCall.execute (fun _ => true) {} order).options := by
  obtain ⟨m, hrun, hm⟩ := Option.map_eq_some_iff.mp
    (show (runs (SectionMachine.step (List.map (ConfigCall.sections fun _ => true)
          [.configureFromFile (.ok (.object [("backend", .string "mimalloc")])),
            .configureFromFile (.ok (.object [("strict_backend", .boolean false)]))]))
        (.start {}) [0, 0, 1, 1]).map (fun m => m.log) =
        some [(0, .okStatus), (1, .okStatus)] by decide +kernel)
  have hkeeps : Meets (SectionMachine.step (List.map (ConfigCall.sections fun _ => true)
      [.configureFromFile (.ok (.object [("backend", .string "mimalloc")])),
        .configureFromFile (.ok (.object [("strict_backend", .boolean false)]))]))
      (fun m i => keepsSnapshot
        [.configureFromFile (.ok (.object [("backend", .string "mimalloc")])),
          .configureFromFile (.ok (.object [("strict_backend", .boolean false)]))] m i = true)
      (.start {}) [0, 0, 1, 1] := .of_checks (fun _ _ h => h) (by decide +kernel)
  have hdone : ∀ i < 2, ∃ status, m.pcs i = .finished status := by
    intro i hi
    have hlog := (logged_of_run hkeeps hrun).finished i .okStatus
    refine ⟨.okStatus, hlog.mp ?_⟩
    rw [hm]
    have : i = 0 ∨ i = 1 := by omega
    rcases this with rfl | rfl <;> simp
  obtain ⟨order, hperm, hoptions, -⟩ := reconfigurations_are_serial _ _ _ _ m hkeeps hrun hdone
  exact ⟨m, hrun, order, hperm.length_eq, hoptions⟩

/-- Both calls take their snapshots first: the second one writes the old backend
back, and the update of the first is lost. -/
theorem reconfiguration_loses_update :
    ∃ m, runs (SectionMachine.step (List.map (ConfigCall.sections fun _ => true)
          [.configureFromFile (.ok (.object [("backend", .string "mimalloc")])),
            .configureFromFile (.ok (.object [("strict_backend", .boolean false)]))]))
        (.start {}) [0, 1, 0, 1] = some m ∧
      m.log.map Prod.snd = [.okStatus, .okStatus] ∧ m.state.options = ⟨.kSystem, false⟩ ∧
      (ConfigCall.execute (fun _ => true) {}
          [.configureFromFile (.ok (.object [("backend", .string "mimalloc")])),
            .configureFromFile (.ok (.object [("strict_backend", .boolean false)]))]).options =
        ⟨.kMimalloc, false⟩ ∧
      (ConfigCall.execute (fun _ => true) {}
          [.configureFromFile (.ok (.object [("strict_backend", .boolean false)])),
            .configureFromFile (.ok (.object [("backend", .string "mimalloc")]))]).options =
        ⟨.kMimalloc, false⟩ := by
  obtain ⟨m, hrun, hm⟩ := Option.map_eq_some_iff.mp
    (show (runs (SectionMachine.step (List.map (ConfigCall.sections fun _ => true)
          [.configureFromFile (.ok (.object [("backend", .string "mimalloc")])),
            .configureFromFile (.ok (.object [("strict_backend", .boolean false)]))]))
        (.start {}) [0, 1, 0, 1]).map
        (fun m => (m.log.map Prod.snd, m.state.options)) =
        some ([.okStatus, .okStatus], ⟨.kSystem, false⟩) by decide +kernel)
  simp only [Prod.mk.injEq] at hm
  exact ⟨m, hrun, hm.1, hm.2, by decide +kernel, by decide +kernel⟩

end Corekit.Memory
