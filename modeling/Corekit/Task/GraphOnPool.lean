import Corekit.Task.GraphRefinement
import Corekit.Task.GraphFailFast

/-! What the refinement gives: `RunWithExecutor` on a thread pool that other clients
use as well. -/
namespace Corekit.Task
open Corekit.Api Corekit.Foundation

namespace Hosted

variable {α : Type} {refusals : Bool} {c : Nat} {rest : α → Program Unit} {h : Hosted α}

theorem Hosts.start {w : Watch} {p : GraphProgram α} (hw : w.Faithful)
    (hready : (w.machine.clients c).pc = .ready)
    (hprogram : (w.machine.clients c).program = (GraphProgram.onExecutor p).bind rest)
    (hcovers : Covers (fun _ _ => True) (GraphProgram.onExecutor p) []) :
    Hosts refusals c rest ⟨w, p, {}⟩ where
  faithful := hw
  awaits := .of_ready hready
  runs := fun _ _ _ => hprogram
  unrefused := fun _ _ _ _ id status hpc => by
    rw [show machine ⟨w, p, {}⟩ = w.machine from rfl, hready] at hpc
    cases hpc
  placed := ⟨List.nodup_nil, fun _ hclosure => absurd hclosure List.not_mem_nil⟩
  covered := ⟨[], hcovers, fun _ hid => absurd hid List.not_mem_nil⟩

end Hosted

namespace SimpleTaskGraph

variable {g : SimpleTaskGraph} {throws : TaskId → Bool} {options : GraphRunOptions}
  {s : Surroundings}

structure Accounts (g : SimpleTaskGraph) (throws : TaskId → Bool) (s : Surroundings)
    (stats : GraphRunStats) : Prop where
  total : stats.total = g.nodes.size
  succeeded : stats.succeeded = s.ended.countP fun id => !throws id
  failed : stats.failed = s.ended.countP throws
  canceled : g.nodes.size < 2 ^ 64 → stats.canceled = g.nodes.keys.countP fun id => id ∉ s.started

theorem Settled.accounts {k : Nat} {done : List TaskId} (hs : Settled g k done s)
    (hnodup : done.Nodup) (hmem : ∀ v ∈ done, v ∈ g.nodes.keys) :
    Accounts g throws s
      (finishStats (({ total := g.nodes.size } : GraphRunStats).tally (done.map throws))) := by
  obtain ⟨hstarted, hended⟩ := Settled.perm hs
  obtain ⟨hfalse, htrue⟩ := @count_map_throws throws done
  constructor
  · rfl
  · simp only [finishStats, GraphRunStats.tally, hfalse, Nat.zero_add]
    exact (hended.countP_eq _).symm
  · simp only [finishStats, GraphRunStats.tally, htrue, Nat.zero_add]
    exact (hended.countP_eq _).symm
  · intro hsize
    rw [finishStats_calls hsize hnodup hmem]
    apply List.countP_congr
    intro v _
    simp [hstarted.mem_iff]

theorem Outcome.returned {refusals : Bool} {value : Option (Result GraphRunStats)}
    (h : Outcome g options throws refusals value s) :
    (refusals = true ∧ ∃ status, value = some (.error status) ∧ status.ok = false) ∨
    ∃ stats, value = some (.ok stats) ∧ Accounts g throws s stats ∧
      (∀ closure ∈ s.closures, closure.phase = .ended) ∧ s.started.Perm s.ended ∧
      (s.started.Perm g.nodes.keys ∨ options.failFast = true ∧ ∃ v ∈ s.started, throws v = true) := by
  cases h with
  | refused s status allowed error => exact .inl ⟨allowed, status, rfl, error⟩
  | complete s done all settled =>
    obtain ⟨hstarted, hended⟩ := Settled.perm settled
    have hnodup : done.Nodup := all.nodup_iff.mpr (OrderedMap.keys_nodup g.nodes)
    exact .inr ⟨_, rfl, Settled.accounts settled hnodup (fun v hv => all.subset hv),
      settled.quiet, hstarted.trans hended.symm, .inl (hstarted.trans all)⟩
  | cut s done level ready indegree failFast peeled clean dirty settled =>
    obtain ⟨hstarted, hended⟩ := Settled.perm settled
    obtain ⟨v, hv, hthrow⟩ := List.any_eq_true.mp dirty
    refine .inr ⟨_, rfl, Settled.accounts settled peeled.kahn.nodup.of_append_left ?_,
      settled.quiet, hstarted.trans hended.symm, .inr ⟨failFast, v, ?_, hthrow⟩⟩
    · exact fun w hw => peeled.kahn.mem w (List.mem_append_left _ hw)
    · exact hstarted.mem_iff.mpr (List.mem_append_right _ hv)

theorem runWithExecutor_covers (g : SimpleTaskGraph) (options : GraphRunOptions) :
    Covers (fun _ _ => True) (GraphProgram.onExecutor (g.runWithExecutor true options)) [] :=
  (g.runInternal_covers options).mono fun _ _ _ => trivial

/-- Two nodes in a row, run by client 0 on one worker; client 1 has a task of its
own. -/
def chainOnPool : Hosted (Option (Result GraphRunStats)) :=
  ⟨Watch.start { workerCount := 1 } 0 fun c =>
      if c = 0 then (GraphProgram.onExecutor ((build [.addTask true {}, .addTask true {},
        .addDependency 1 2]).runWithExecutor true {})).bind fun _ => .ret ()
      else .op (.submit true) fun _ => .ret (),
    (build [.addTask true {}, .addTask true {}, .addDependency 1 2]).runWithExecutor true {}, {}⟩

end SimpleTaskGraph

end Corekit.Task
