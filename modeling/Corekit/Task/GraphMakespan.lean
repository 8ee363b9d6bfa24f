import Corekit.Foundation.Batching
import Corekit.Task.GraphBatches

/-! How many batches a run takes. `RunInternal` starts every node that it may
start, as far as `max_concurrency` allows, so its batches are not far from the
fewest that the dependencies and the limit leave open. -/
namespace Corekit.Task
open Corekit.Api Corekit.Foundation

namespace SimpleTaskGraph

variable {g : SimpleTaskGraph} {options : GraphRunOptions} {throws : TaskId → Bool}

/-- A way to run the graph in batches that respects dependencies and limit. -/
def Schedule (g : SimpleTaskGraph) (options : GraphRunOptions) : List (List TaskId) → Prop :=
  Kahn.Plan g.nodes.keys g.succ (levelCap options) []

def Sequential (g : SimpleTaskGraph) : List TaskId → Prop := Kahn.Chained g.nodes.keys g.succ

theorem Peeled.available {done level ready : List TaskId} {indegree : Indegree}
    (h : g.Peeled done level ready indegree) (v : TaskId) :
    Kahn.Available g.nodes.keys g.succ done v ↔ v ∈ level ++ ready := by
  have hsplit := h.kahn.nodup
  rw [List.append_assoc, List.nodup_append] at hsplit
  constructor
  · intro havailable
    have hreached := (h.kahn.reached v havailable.mem).mpr
      (Kahn.missing_eq_zero.mpr havailable.preds)
    rw [List.append_assoc] at hreached
    exact (List.mem_append.mp hreached).resolve_left havailable.fresh
  · intro hv
    have hreached : v ∈ done ++ level ++ ready := by
      rw [List.append_assoc]
      exact List.mem_append_right _ hv
    have hmem := h.kahn.mem v hreached
    refine ⟨hmem, fun hdone => hsplit.2.2 v hdone v hv rfl, ?_⟩
    exact Kahn.missing_eq_zero.mp ((h.kahn.reached v hmem).mp hreached)

/-- No failure cuts the run short. -/
def Uncut (options : GraphRunOptions) (throws : TaskId → Bool) (g : SimpleTaskGraph) : Prop :=
  options.failFast = false ∨ ∀ v ∈ g.nodes.keys, throws v = false

theorem batchesFrom_greedy (hg : g.WellFormed) {order : List TaskId}
    (hperm : order.Perm g.nodes.keys) (horder : Kahn.Ordered g.nodes.keys g.succ order)
    (huncut : Uncut options throws g) {fuel : Nat} {done ready : List TaskId} {indegree : Indegree}
    (hpeeled : g.Peeled done [] ready indegree) (hfuel : g.nodes.size ≤ fuel + done.length) :
    Kahn.Plan g.nodes.keys g.succ (levelCap options) done
        (g.batchesFrom options throws fuel indegree ready) ∧
      Kahn.Greedy g.nodes.keys g.succ (levelCap options) done
        (g.batchesFrom options throws fuel indegree ready) := by
  apply Peeled.loop_induction hg hperm horder options _ _ hpeeled hfuel
  · intro fuel done indegree hdone
    rw [batchesFrom]
    exact ⟨fun v hv => hdone.symm.subset hv, trivial⟩
  · rintro fuel done first others level ready indegree hlevel hready hpop
      ⟨indegree', ready', hrelax, -, hplan, hgreedy⟩
    have hmem : ∀ v ∈ level, v ∈ g.nodes.keys := hpop.unblocked.mem
    have hgoes : ¬(level.any throws = true ∧ options.failFast = true) := by
      rintro ⟨hany, hfast⟩
      obtain ⟨v, hv, hthrows⟩ := List.any_eq_true.mp hany
      rcases huncut with hslow | hnone
      · exact absurd (hslow.symm.trans hfast) Bool.false_ne_true
      · exact absurd ((hnone v (hmem v hv)).symm.trans hthrows) Bool.false_ne_true
    simp only [batchesFrom, ← hlevel, ← hready, if_neg hgoes, hrelax]
    have hlength : level.length = min (levelCap options) (others.length + 1) := by
      rw [hlevel, List.length_take, List.length_cons]
    refine ⟨⟨⟨?_, by omega, fun v hv => ?_⟩, hplan⟩, ⟨?_, ?_⟩, hgreedy⟩
    · exact (hpop.kahn.nodup.of_append_left).of_append_right
    · exact (hpop.available v).mpr (List.mem_append_left _ hv)
    · have := @levelCap_pos options
      intro hnil
      rw [hnil, List.length_nil] at hlength
      omega
    · -- a level that is not full empties the queue
      by_cases hfull : level.length = levelCap options
      · exact .inl hfull
      · have hempty : ready = [] := by
          rw [hready, List.drop_eq_nil_iff, List.length_cons]
          omega
        refine .inr fun v hv => ?_
        simpa [hempty] using (hpop.available v).mp hv

theorem batches_greedy (hg : g.WellFormed) (hvalid : g.validate = some .okStatus)
    (huncut : Uncut options throws g) :
    g.Schedule options (g.batches options throws) ∧
      Kahn.Greedy g.nodes.keys g.succ (levelCap options) [] (g.batches options throws) := by
  obtain ⟨order, hperm, horder⟩ := hg.order_of_validate hvalid
  obtain ⟨indegree, hbuild, hstart⟩ := Peeled.start hg
  simp only [batches, hbuild, hvalid, if_true]
  exact batchesFrom_greedy hg hperm horder huncut hstart (by simp)

/-- A run that no failure cuts short, inline or among any executor that accepts
every closure and runs it once. Without a limit it takes as many batches as a
longest chain has nodes, which no schedule can beat, and with a limit of `k` at
most `2 - 1/k` times as many as any schedule that keeps the limit. -/
theorem batches_near_optimal (edits : List Edit) (hvalid : (build edits).validate = some .okStatus)
    (inline : Bool) (options : GraphRunOptions) (throws : TaskId → Bool)
    (huncut : Uncut options throws (build edits)) :
    (∃ result, Yields throws ((build edits).runInternal inline options) result
      ((build edits).batches options throws)) ∧
    (build edits).Schedule options ((build edits).batches options throws) ∧
    (∀ chain, (build edits).Sequential chain →
      chain.length ≤ ((build edits).batches options throws).length) ∧
    (options.maxConcurrency = 0 → (build edits).nodes.size < 2 ^ 64 →
      (∃ chain, (build edits).Sequential chain ∧
        chain.length = ((build edits).batches options throws).length) ∧
      ∀ other, (build edits).Schedule options other →
        ((build edits).batches options throws).length ≤ other.length) ∧
    (0 < options.maxConcurrency → ∀ other, (build edits).Schedule options other →
      options.maxConcurrency * ((build edits).batches options throws).length ≤
        (2 * options.maxConcurrency - 1) * other.length) := by
  have hg := wellFormed_build edits
  have hkeys := OrderedMap.keys_nodup (build edits).nodes
  obtain ⟨hschedule, hgreedy⟩ := batches_greedy hg hvalid huncut
  refine ⟨⟨_, .runInternal hg hvalid inline options throws⟩, hschedule, fun chain hchain => ?_,
    fun hfree hsize => ?_, fun hlimit other hother => ?_⟩
  · exact Kahn.Plan.chain_le hschedule hchain (by simp)
  · have hcap : (build edits).nodes.keys.length ≤ levelCap options := by
      rw [OrderedMap.length_keys, levelCap, if_pos hfree]
      omega
    obtain ⟨chain, hchain, hlength⟩ := hgreedy.exists_chain hkeys hschedule hcap
    refine ⟨⟨chain, hchain, hlength⟩, fun other hother => ?_⟩
    rw [← hlength]
    exact Kahn.Plan.chain_le hother hchain (by simp)
  · have hcap : levelCap options = options.maxConcurrency := by
      rw [levelCap, if_neg (by omega)]
    have hnear := hgreedy.near_optimal hkeys hschedule hother
    rw [hcap] at hnear
    rwa [show 2 * options.maxConcurrency - 1 =
      options.maxConcurrency + (options.maxConcurrency - 1) by omega]

/-- Three nodes in a row and one beside them, two at a time. -/
theorem batches_near_optimal_four :
    let edits := List.replicate 4 (.addTask true {}) ++ [.addDependency 1 2, .addDependency 2 3]
    let options : GraphRunOptions := { failFast := false, maxConcurrency := 2 }
    (build edits).batches options (fun _ => false) = [[1, 4], [2], [3]] ∧
      ∀ other, (build edits).Schedule options other → 2 * 3 ≤ 3 * other.length := by
  intro edits options
  have hvalid : (build edits).validate = some .okStatus := by decide
  have hbatches : (build edits).batches options (fun _ => false) = [[1, 4], [2], [3]] := by decide
  refine ⟨hbatches, fun other hother => ?_⟩
  have hnear := (batches_near_optimal edits hvalid true options (fun _ => false) (.inl rfl)).2.2.2.2
    (by decide) other hother
  rw [hbatches] at hnear
  exact hnear

end SimpleTaskGraph

end Corekit.Task
