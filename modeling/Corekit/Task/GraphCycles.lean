import Corekit.Task.GraphComplete

/-! `Validate` decides whether the edges have a cycle, and the branches of the
graph that report a broken map are never taken. -/
namespace Corekit.Task
open Corekit.Api Corekit.Foundation

namespace SimpleTaskGraph

variable {g : SimpleTaskGraph}

/-- No chain of edges leads from a node back to itself. -/
def Acyclic (g : SimpleTaskGraph) : Prop := Kahn.Acyclic g.nodes.keys g.succ

def cycleStatus : Status :=
  ⟨.kInvalidArgument, "task graph contains cycle or unresolved dependency", .kTask⟩

theorem WellFormed.validate_eq (hg : g.WellFormed) :
    ∃ done indegree, g.Peeled done [] [] indegree ∧
      g.validate = some (if done.length ≠ g.nodes.size then cycleStatus else .okStatus) := by
  obtain ⟨indegree, hbuild, hstart⟩ := Peeled.start hg
  obtain ⟨done, indegree', hloop, hend⟩ :=
    @Peeled.validateLoop g hg g.nodes.size _ _ _ hstart (by simp)
  simp only [List.length_nil] at hloop
  refine ⟨done, indegree', hend, ?_⟩
  simp only [validate, hbuild, hloop, Option.map_some]
  rfl

theorem WellFormed.validate_of_acyclic (hg : g.WellFormed) (h : g.Acyclic) :
    g.validate = some .okStatus := by
  obtain ⟨done, indegree, hend, hvalidate⟩ := hg.validate_eq
  have hall : ∀ v ∈ g.nodes.keys, v ∈ done := hend.kahn.complete_of_acyclic h
  have hge : g.nodes.size ≤ done.length := by
    rw [← OrderedMap.length_keys]
    exact ((OrderedMap.keys_nodup _).subperm hall).length_le
  have hle := hend.kahn.length_le
  rw [OrderedMap.length_keys] at hle
  simp only [List.length_nil, Nat.add_zero] at hle
  rw [hvalidate, if_neg (by omega)]

theorem WellFormed.acyclic_of_validate (hg : g.WellFormed) (h : g.validate = some .okStatus) :
    g.Acyclic := by
  obtain ⟨order, hperm, horder⟩ := hg.order_of_validate h
  exact horder.acyclic hperm (OrderedMap.keys_nodup _)

theorem WellFormed.validate_of_cycle (hg : g.WellFormed) (h : ¬g.Acyclic) :
    g.validate = some cycleStatus := by
  obtain ⟨done, indegree, hend, hvalidate⟩ := hg.validate_eq
  rw [hvalidate]
  split_ifs with hlength
  · rfl
  · rw [if_neg hlength] at hvalidate
    exact absurd (hg.acyclic_of_validate hvalidate) h

/-- The error statuses that `RunInternal` hears from the executor. -/
def fromExecutor (heard : Status → Prop) : (o : GraphOp) → o.Res → Prop
  | .submitEx _ _ _, .error status => heard status
  | .waitBatch _, status => status.ok = false → heard status
  | _, _ => True

section Branches

variable {heard : Status → Prop}

theorem runInline_ensures {level : List TaskId} (hmem : ∀ v ∈ level, v ∈ g.nodes.keys)
    (stats : GraphRunStats) (levelFailed : Bool) :
    (g.runInline level stats levelFailed).Ensures (fromExecutor heard) fun value =>
      ∃ result, value = .ok result := by
  induction level generalizing stats levelFailed with
  | nil => exact ⟨_, rfl⟩
  | cons v rest ih =>
    obtain ⟨options, hfind⟩ := g.nodes.exists_find? (hmem v (by simp))
    have hrest := ih fun v hv => hmem v (by simp [hv])
    simp only [runInline, hfind]
    intro threw _
    cases threw with
    | true => exact hrest _ _
    | false => exact hrest _ _

theorem submitLevel_ensures {level : List TaskId} (hmem : ∀ v ∈ level, v ∈ g.nodes.keys)
    (slot : Nat) (ids : List TaskId) :
    (g.submitLevel slot level ids).Ensures (fromExecutor heard) fun value =>
      ∀ status, value = .error status → heard status := by
  induction level generalizing slot ids with
  | nil =>
    intro status h
    cases h
  | cons v rest ih =>
    obtain ⟨options, hfind⟩ := g.nodes.exists_find? (hmem v (by simp))
    simp only [submitLevel, hfind]
    intro answer hheard
    cases answer with
    | ok id => exact ih (fun v hv => hmem v (by simp [hv])) _ _
    | error status =>
      have hreturn : ∀ status', (.error status : Result (List TaskId)) = .error status' →
          heard status' := by
        rintro _ ⟨rfl⟩
        exact hheard
      simp only [Cmd.ret_bind]
      split_ifs
      · exact fun _ _ => hreturn
      · exact hreturn

theorem collect_ensures {post : GraphRunStats × Bool → Prop} (hpost : ∀ result, post result)
    (slots : List Nat) (stats : GraphRunStats) (levelFailed : Bool) :
    (collect slots stats levelFailed).Ensures (fromExecutor heard) post := by
  induction slots generalizing stats levelFailed with
  | nil => exact hpost _
  | cons slot rest ih =>
    intro failed _
    cases failed with
    | true => exact ih _ _
    | false => exact ih _ _

theorem runSubmitted_ensures {level : List TaskId} (hmem : ∀ v ∈ level, v ∈ g.nodes.keys)
    (stats : GraphRunStats) :
    (g.runSubmitted level stats).Ensures (fromExecutor heard) fun value =>
      ∀ status, value = .error status → heard status := by
  apply Cmd.Ensures.bind
  apply Cmd.Ensures.mono _ (submitLevel_ensures hmem 0 [])
  intro value hvalue
  cases value with
  | error status =>
    rintro _ ⟨rfl⟩
    exact hvalue status rfl
  | ok ids =>
    intro waitStatus hheard
    simp only [Cmd.ret_bind]
    split_ifs with hok
    · apply Cmd.Ensures.bind
      apply collect_ensures
      rintro result _ h
      cases h
    · rintro _ ⟨rfl⟩
      exact hheard (by simpa using hok)

theorem runLevel_ensures {level : List TaskId} (hmem : ∀ v ∈ level, v ∈ g.nodes.keys)
    (inline : Bool) (stats : GraphRunStats) :
    (if inline then g.runInline level stats false else g.runSubmitted level stats).Ensures
      (fromExecutor heard) fun value => ∀ status, value = .error status → heard status := by
  cases inline with
  | true =>
    apply Cmd.Ensures.mono _ (runInline_ensures hmem stats false)
    rintro _ ⟨result, rfl⟩ _ h
    cases h
  | false => exact runSubmitted_ensures hmem stats

/-- From a state between two levels the loop reports no status of its own. -/
theorem runLoop_ensures (hg : g.WellFormed) {order : List TaskId} (hperm : order.Perm g.nodes.keys)
    (horder : Kahn.Ordered g.nodes.keys g.succ order) (inline : Bool) (options : GraphRunOptions)
    {fuel : Nat} {done ready : List TaskId} {indegree : Indegree} (stats : GraphRunStats)
    (hpeeled : g.Peeled done [] ready indegree) (hfuel : g.nodes.size ≤ fuel + done.length) :
    (g.runLoop inline options fuel indegree ready stats done.length).Ensures (fromExecutor heard)
      fun value => ∃ result, value = some result ∧
        ∀ status, result = .error status → heard status := by
  revert stats
  apply Peeled.loop_induction hg hperm horder options _ _ hpeeled hfuel
  · intro fuel done indegree hdone stats
    rw [runLoop_empty (by rw [hdone.length_eq, OrderedMap.length_keys])]
    exact ⟨_, rfl, by simp⟩
  · rintro fuel done first others level ready indegree hlevel hready hpop
      ⟨indegree', ready', hrelax, -, ih⟩ stats
    simp only [runLoop, ← hlevel, ← hready]
    apply Cmd.Ensures.bind
    apply Cmd.Ensures.mono _ (runLevel_ensures hpop.unblocked.mem inline stats)
    intro value hvalue
    cases value with
    | error status =>
      refine ⟨_, rfl, ?_⟩
      rintro _ ⟨rfl⟩
      exact hvalue status rfl
    | ok result =>
      obtain ⟨stats, levelFailed⟩ := result
      by_cases hstop : levelFailed = true ∧ options.failFast = true
      · simp only [if_pos hstop]
        exact ⟨_, rfl, by simp⟩
      · simp only [if_neg hstop, hrelax]
        rw [← List.length_append]
        exact ih stats

theorem runInternal_ensures (hg : g.WellFormed) (inline : Bool) (options : GraphRunOptions) :
    (g.runInternal inline options).Ensures (fromExecutor heard) fun value =>
      ∃ result, value = some result ∧ ∀ status, result = .error status →
        heard status ∨ g.validate = some status ∧ status = cycleStatus := by
  by_cases hacyclic : g.Acyclic
  · have hvalid := hg.validate_of_acyclic hacyclic
    obtain ⟨order, hperm, horder⟩ := hg.order_of_validate hvalid
    obtain ⟨indegree, hbuild, hstart⟩ := Peeled.start hg
    simp only [runInternal, hvalid, Status.ok_okStatus, if_true, hbuild]
    apply Cmd.Ensures.mono _
      (runLoop_ensures hg hperm horder inline options { total := g.nodes.size } hstart (by simp))
    rintro _ ⟨result, rfl, herror⟩
    exact ⟨result, rfl, fun status h => .inl (herror status h)⟩
  · have hvalid := hg.validate_of_cycle hacyclic
    simp only [runInternal, hvalid]
    refine ⟨_, rfl, ?_⟩
    rintro _ ⟨rfl⟩
    exact .inr ⟨rfl, rfl⟩

end Branches

/-- Any graph that calls can build, failed and partly applied ones among them:
`Validate` returns and answers by the cycles of the edges, and an error of
`RunInternal` is that answer or one that it heard from the executor. -/
theorem validate_decides_acyclicity (edits : List Edit) :
    ∃ status, (build edits).validate = some status ∧
      (status = .okStatus ↔ (build edits).Acyclic) ∧
      (status ≠ .okStatus → status.code = .kInvalidArgument) ∧
      (∃ indegree, (build edits).buildIndegree = .ok indegree) ∧
      ∀ (inline : Bool) (options : GraphRunOptions) (heard : Status → Prop),
        ((build edits).runInternal inline options).Ensures (fromExecutor heard) fun value =>
          ∃ result, value = some result ∧ ∀ error, result = .error error →
            heard error ∨ error = status ∧ error.code = .kInvalidArgument := by
  have hg := wellFormed_build edits
  obtain ⟨indegree, hbuild, -⟩ := Peeled.start hg
  by_cases hacyclic : (build edits).Acyclic
  · have hvalid := hg.validate_of_acyclic hacyclic
    refine ⟨_, hvalid, by simp [hacyclic], by simp, ⟨indegree, hbuild⟩,
      fun inline options heard => ?_⟩
    apply Cmd.Ensures.mono _ (runInternal_ensures hg inline options)
    rintro _ ⟨result, rfl, herror⟩
    refine ⟨result, rfl, fun error h => (herror error h).imp_right ?_⟩
    rintro ⟨hstatus, rfl⟩
    rw [hvalid] at hstatus
    cases hstatus
  · have hvalid := hg.validate_of_cycle hacyclic
    refine ⟨_, hvalid, by simp [hacyclic, cycleStatus, Status.okStatus], fun _ => rfl,
      ⟨indegree, hbuild⟩, fun inline options heard => ?_⟩
    apply Cmd.Ensures.mono _ (runInternal_ensures hg inline options)
    rintro _ ⟨result, rfl, herror⟩
    refine ⟨result, rfl, fun error h => (herror error h).imp_right ?_⟩
    rintro ⟨-, rfl⟩
    exact ⟨rfl, rfl⟩

end SimpleTaskGraph

end Corekit.Task
