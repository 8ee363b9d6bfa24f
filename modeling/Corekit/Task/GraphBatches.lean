import Corekit.Task.GraphCycles
import Mathlib.Data.List.Forall2

/-! The batches in which `RunInternal` calls the functions. They depend on the
graph, on the options and on which functions throw, and neither on who calls the
functions nor on the order in which the closures of one batch are run. -/
namespace Corekit.Task
open Corekit.Api Corekit.Foundation

namespace SimpleTaskGraph

def batchesFrom (g : SimpleTaskGraph) (options : GraphRunOptions) (throws : TaskId → Bool) :
    Nat → Indegree → List TaskId → List (List TaskId)
  | _, _, [] => []
  | 0, _, _ :: _ => []
  | fuel + 1, indegree, first :: others =>
    let level := (first :: others).take (levelCap options)
    let ready := (first :: others).drop (levelCap options)
    if level.any throws ∧ options.failFast then [level]
    else
      match g.relaxLevel level indegree ready with
      | .error _ => [level]
      | .ok (indegree, ready) => level :: batchesFrom g options throws fuel indegree ready

def batches (g : SimpleTaskGraph) (options : GraphRunOptions) (throws : TaskId → Bool) :
    List (List TaskId) :=
  match g.buildIndegree with
  | .error _ => []
  | .ok indegree =>
    if g.validate = some .okStatus then
      g.batchesFrom options throws g.nodes.size indegree (initialReady indegree)
    else []

def RanIn (batches : List (List TaskId)) (calls : List TaskId) : Prop :=
  ∃ ran, List.Forall₂ List.Perm ran batches ∧ calls = ran.flatten

theorem RanIn.nil : RanIn [] [] := ⟨[], .nil, rfl⟩

theorem RanIn.cons {batch calls : List TaskId} {batches : List (List TaskId)} {rest : List TaskId}
    (hcalls : calls.Perm batch) (hrest : RanIn batches rest) :
    RanIn (batch :: batches) (calls ++ rest) := by
  obtain ⟨ran, hran, rfl⟩ := hrest
  exact ⟨calls :: ran, .cons hcalls hran, rfl⟩

theorem RanIn.refl (batches : List (List TaskId)) : RanIn batches batches.flatten :=
  ⟨batches, List.forall₂_same.mpr fun _ _ => .refl _, rfl⟩

theorem RanIn.perm {batches : List (List TaskId)} {calls : List TaskId} (h : RanIn batches calls) :
    calls.Perm batches.flatten := by
  obtain ⟨ran, hran, rfl⟩ := h
  exact List.Perm.flatten_congr hran

variable {g : SimpleTaskGraph} {k : Nat} {throws : TaskId → Bool} {s s' : Surroundings}

def Grows (s s' : Surroundings) : Prop := s.started <+: s'.started ∧ s.ended <+: s'.ended

theorem Grows.refl (s : Surroundings) : Grows s s := ⟨List.prefix_refl _, List.prefix_refl _⟩

theorem Grows.trans {s'' : Surroundings} (h : Grows s s') (h' : Grows s' s'') : Grows s s'' :=
  ⟨h.1.trans h'.1, h.2.trans h'.2⟩

theorem Grows.acts {refusals : Bool} {o : GraphOp} {r : o.Res} (h : Acts throws refusals o s r s') :
    Grows s s' := by
  cases h with
  | invoke => exact ⟨List.prefix_append _ _, List.prefix_append _ _⟩
  | accept => exact .refl _
  | refuse => exact .refl _
  | waited => exact .refl _
  | gaveUp => exact .refl _
  | failed => exact .refl _

theorem Grows.executes (h : Executes throws s s') : Grows s s' := by
  cases h with
  | start => exact ⟨List.prefix_append _ _, List.prefix_refl _⟩
  | finish => exact ⟨List.prefix_refl _, List.prefix_append _ _⟩

theorem Grows.level {done level : List TaskId} (hs : Settled g k done s)
    (hs' : Settled g k (done ++ level) s') (h : Grows s s') :
    (∃ calls, calls.Perm level ∧ s'.started = s.started ++ calls) ∧
      ∃ calls, calls.Perm level ∧ s'.ended = s.ended ++ calls := by
  obtain ⟨⟨started, hstarted⟩, ended, hended⟩ := h
  refine ⟨⟨started, ?_, hstarted.symm⟩, ended, ?_, hended.symm⟩
  · have hperm := hs'.perm.1
    rw [← hstarted] at hperm
    exact (List.perm_append_left_iff done).mp ((hs.perm.1.symm.append_right _).trans hperm)
  · have hperm := hs'.perm.2
    rw [← hended] at hperm
    exact (List.perm_append_left_iff done).mp ((hs.perm.2.symm.append_right _).trans hperm)

section Loop

variable {inline refusals : Bool} {options : GraphRunOptions}

/-- What a run leaves behind that goes through the given batches from `s`. -/
structure Through (g : SimpleTaskGraph) (options : GraphRunOptions) (throws : TaskId → Bool)
    (done : List TaskId) (batches : List (List TaskId)) (s s' : Surroundings) : Prop where
  settled : Settled g options.maxConcurrency (done ++ batches.flatten) s'
  started : ∃ calls, RanIn batches calls ∧ s'.started = s.started ++ calls
  ended : ∃ calls, RanIn batches calls ∧ s'.ended = s.ended ++ calls

theorem Through.nil {done : List TaskId} (hs : Settled g options.maxConcurrency done s) :
    Through g options throws done [] s s where
  settled := by simpa using hs
  started := ⟨[], .nil, by simp⟩
  ended := ⟨[], .nil, by simp⟩

theorem Through.cons {done level : List TaskId} {batches : List (List TaskId)}
    {s'' : Surroundings} (hs : Settled g options.maxConcurrency done s)
    (hs' : Settled g options.maxConcurrency (done ++ level) s') (hgrows : Grows s s')
    (h : Through g options throws (done ++ level) batches s' s'') :
    Through g options throws done (level :: batches) s s'' := by
  obtain ⟨⟨started, hstarted, hs₁⟩, ended, hended, hs₂⟩ := Grows.level hs hs' hgrows
  obtain ⟨calls, hcalls, hs₃⟩ := h.started
  obtain ⟨calls', hcalls', hs₄⟩ := h.ended
  refine ⟨by simpa using h.settled, ⟨started ++ calls, .cons hstarted hcalls, ?_⟩,
    ended ++ calls', .cons hended hcalls', ?_⟩
  · rw [hs₃, hs₁, List.append_assoc]
  · rw [hs₄, hs₂, List.append_assoc]

/-- The calls from `s` on begin those of a run through the batches. -/
def Begun (batches : List (List TaskId)) (s s' : Surroundings) : Prop :=
  ∃ calls, RanIn batches calls ∧ s'.started <+: s.started ++ calls

theorem Begun.level {done level : List TaskId} (hs : Settled g k done s)
    (hwithin : Within g k (done ++ level) s') (hgrows : Grows s s')
    (batches : List (List TaskId)) : Begun (level :: batches) s s' := by
  obtain ⟨calls, hcalls⟩ := hgrows.1
  have hle : (calls : Multiset TaskId) ≤ (level : Multiset TaskId) := by
    have hall := (Multiset.le_add_right _ _).trans hwithin.called
    rw [← hcalls, ← Multiset.coe_add, ← Multiset.coe_add,
      Multiset.coe_eq_coe.mpr hs.perm.1] at hall
    exact (add_le_add_iff_left _).mp hall
  -- what is missing of the level, and the batches that do not come
  obtain ⟨missing, hmissing⟩ := Multiset.le_iff_exists_add.mp hle
  induction missing using Quotient.inductionOn with
  | h missing =>
    have hperm : (calls ++ missing).Perm level := (Multiset.coe_eq_coe.mp hmissing).symm
    refine ⟨calls ++ missing ++ batches.flatten, .cons hperm (.refl batches), ?_⟩
    rw [← hcalls]
    simp only [List.append_assoc]
    exact ⟨missing ++ batches.flatten, by simp⟩

theorem Begun.cons {done level : List TaskId} {batches : List (List TaskId)} {s'' : Surroundings}
    (hs : Settled g k done s) (hs' : Settled g k (done ++ level) s') (hgrows : Grows s s')
    (h : Begun batches s' s'') : Begun (level :: batches) s s'' := by
  obtain ⟨⟨started, hstarted, hs₁⟩, -⟩ := Grows.level hs hs' hgrows
  obtain ⟨calls, hcalls, hprefix⟩ := h
  refine ⟨started ++ calls, .cons hstarted hcalls, ?_⟩
  rwa [← List.append_assoc, ← hs₁]

theorem runLevel_grows {done level : List TaskId} {stats : GraphRunStats}
    (hs : Settled g k done s) (hlevel : Unblocked g done level)
    (hk : 0 < k → level.length ≤ k) :
    (if inline then g.runInline level stats false else g.runSubmitted level stats).Holds
      (Acts throws refusals) (Executes throws) (Orderly g k) (fun value s' =>
        ((refusals = true ∧ (∃ status, value = .error status ∧ status.ok = false) ∧
            Within g k (done ++ level) s') ∨
          (value = .ok (stats.tally (level.map throws), level.any throws) ∧
            Settled g k (done ++ level) s')) ∧ Grows s s') s :=
  Cmd.Holds.frame (fun _ _ _ _ h hact => h.trans (.acts hact))
    (fun _ _ h hstep => h.trans (.executes hstep)) (Grows.refl s) (runLevel_holds hs hlevel hk)

theorem return_holds {α : Type} {done : List TaskId} {value : α} {post : α → Surroundings → Prop}
    (hs : Settled g k done s) (h : post value s) :
    (Cmd.ret value : GraphProgram α).Holds (Acts throws refusals) (Executes throws) (Orderly g k)
      post s := by
  have hstable : Cmd.Stable (Executes throws) (Orderly g k) (fun s' => s' = s) := by
    refine ⟨?_, ?_⟩
    · rintro _ s' rfl hstep
      exact absurd hstep (not_executes hs.quiet)
    · rintro _ rfl
      exact hs.orderly
  apply Cmd.Holds.ret hstable rfl
  rintro _ rfl
  exact h

/-- How the call comes back that goes through the given batches: the executor
has broken it off, or all of them have been called. -/
def Returns (g : SimpleTaskGraph) (options : GraphRunOptions) (throws : TaskId → Bool)
    (refusals : Bool) (done : List TaskId) (batches : List (List TaskId)) (s : Surroundings)
    (value : Option (Result GraphRunStats)) (s' : Surroundings) : Prop :=
  (refusals = true ∧ (∃ status, value = some (.error status) ∧ status.ok = false) ∧
    Begun batches s s') ∨
  (value = some (.ok (finishStats (({ total := g.nodes.size } : GraphRunStats).tally
      ((done ++ batches.flatten).map throws)))) ∧
    Through g options throws done batches s s')

theorem Returns.cons {done level : List TaskId} {batches : List (List TaskId)}
    {s'' : Surroundings} {value : Option (Result GraphRunStats)}
    (hs : Settled g options.maxConcurrency done s)
    (hs' : Settled g options.maxConcurrency (done ++ level) s') (hgrows : Grows s s')
    (h : Returns g options throws refusals (done ++ level) batches s' value s'') :
    Returns g options throws refusals done (level :: batches) s value s'' := by
  rcases h with ⟨allowed, hstatus, hbegun⟩ | ⟨rfl, hthrough⟩
  · exact .inl ⟨allowed, hstatus, .cons hs hs' hgrows hbegun⟩
  · exact .inr ⟨by simp, .cons hs hs' hgrows hthrough⟩

theorem runLoop_batches (hg : g.WellFormed) {order : List TaskId}
    (hperm : order.Perm g.nodes.keys) (horder : Kahn.Ordered g.nodes.keys g.succ order)
    {fuel : Nat} {done ready : List TaskId} {indegree : Indegree}
    (hs : Settled g options.maxConcurrency done s) (hpeeled : g.Peeled done [] ready indegree)
    (hfuel : g.nodes.size ≤ fuel + done.length) :
    (g.runLoop inline options fuel indegree ready
      (({ total := g.nodes.size } : GraphRunStats).tally (done.map throws)) done.length).Holds
      (Acts throws refusals) (Executes throws) (Orderly g options.maxConcurrency)
      (Returns g options throws refusals done (g.batchesFrom options throws fuel indegree ready) s)
      s := by
  revert s
  apply Peeled.loop_induction hg hperm horder options _ _ hpeeled hfuel
  · intro fuel done indegree hdone s hs
    rw [runLoop_empty (by rw [hdone.length_eq, OrderedMap.length_keys])]
    rw [batchesFrom]
    exact return_holds hs (.inr ⟨by simp, .nil hs⟩)
  · rintro fuel done first others level ready indegree hlevel hready hpop
      ⟨indegree', ready', hrelax, -, ih⟩ s hs
    simp only [runLoop, batchesFrom, ← hlevel, ← hready]
    apply Cmd.Holds.bind
    apply Cmd.Holds.mono _ (runLevel_grows hs hpop.unblocked
      (fun hk => hlevel ▸ length_level_le hk))
    rintro value s' - ⟨⟨allowed, ⟨status, rfl, error⟩, hwithin⟩ | ⟨rfl, hs'⟩, hgrows⟩
    · have hstable : Cmd.Stable (Executes throws) (Orderly g options.maxConcurrency) fun s' =>
          Within g options.maxConcurrency (done ++ level) s' ∧ Grows s s' :=
        ⟨fun _ _ h hstep =>
          ⟨(Within.stable _).keep _ _ h.1 hstep, h.2.trans (.executes hstep)⟩,
          fun _ h => h.1.orderly⟩
      apply Cmd.Holds.ret hstable ⟨hwithin, hgrows⟩
      rintro s' ⟨hwithin, hgrows⟩
      refine .inl ⟨allowed, ⟨status, rfl, error⟩, ?_⟩
      split_ifs
      · exact .level hs hwithin hgrows _
      · simp only [hrelax]
        exact .level hs hwithin hgrows _
    · rw [← GraphRunStats.tally_append, ← List.map_append]
      by_cases hstop : level.any throws = true ∧ options.failFast = true
      · simp only [if_pos hstop]
        exact return_holds hs' (.cons hs hs' hgrows (.inr ⟨by simp, .nil hs'⟩))
      · simp only [if_neg hstop, hrelax]
        rw [← List.length_append]
        exact Cmd.Holds.mono (fun _ _ _ h => .cons hs hs' hgrows h) (ih hs')

theorem runInternal_batches (hg : g.WellFormed) (hvalid : g.validate = some .okStatus) :
    (g.runInternal inline options).Holds (Acts throws refusals) (Executes throws)
      (Orderly g options.maxConcurrency)
      (Returns g options throws refusals [] (g.batches options throws) {}) {} := by
  obtain ⟨order, hperm, horder⟩ := hg.order_of_validate hvalid
  obtain ⟨indegree, hbuild, hstart⟩ := Peeled.start hg
  simp only [runInternal, batches, hvalid, Status.ok_okStatus, if_true, hbuild]
  exact runLoop_batches hg hperm horder (Settled.start g _) hstart (by simp)

end Loop

/-- Every run of the call comes to an end, with this result and these batches. -/
structure Yields (throws : TaskId → Bool) (call : GraphProgram (Option (Result GraphRunStats)))
    (result : Result GraphRunStats) (batches : List (List TaskId)) : Prop where
  finite : WellFounded fun y x : GraphProgram (Option (Result GraphRunStats)) × Surroundings =>
    Cmd.Move (Acts throws false) (Executes throws) x y
  continues : ∀ program s,
    Relation.ReflTransGen (Cmd.Move (Acts throws false) (Executes throws)) (call, {}) (program, s) →
    (∃ value, program = .ret value) ∨
      ∃ y, Cmd.Move (Acts throws false) (Executes throws) (program, s) y
  returns : ∀ value s,
    Relation.ReflTransGen (Cmd.Move (Acts throws false) (Executes throws))
      (call, {}) (.ret value, s) →
    value = some result ∧ RanIn batches s.started ∧ RanIn batches s.ended

theorem Yields.ret (throws : TaskId → Bool) (result : Result GraphRunStats) :
    Yields throws (.ret (some result)) result [] := by
  have hstart : ∀ s', ¬Executes throws {} s' := fun s' => not_executes (by simp)
  have hstay : ∀ y, Relation.ReflTransGen (Cmd.Move (Acts throws false) (Executes throws))
      ((.ret (some result) : GraphProgram (Option (Result GraphRunStats))), {}) y →
      y = (.ret (some result), {}) := by
    intro y hrun
    induction hrun with
    | refl => rfl
    | tail _ hstep ih =>
      subst ih
      cases hstep with
      | env h => exact absurd h (hstart _)
  refine ⟨Cmd.move_wellFounded executes_wellFounded, fun program s hrun => ?_,
    fun value s hrun => ?_⟩
  · cases hstay _ hrun
    exact .inl ⟨_, rfl⟩
  · cases hstay _ hrun
    exact ⟨rfl, .nil, .nil⟩

theorem Yields.runInternal (hg : g.WellFormed) (hvalid : g.validate = some .okStatus)
    (inline : Bool) (options : GraphRunOptions) (throws : TaskId → Bool) :
    Yields throws (g.runInternal inline options) (.ok (finishStats
        (({ total := g.nodes.size } : GraphRunStats).tally
          ((g.batches options throws).flatten.map throws)))) (g.batches options throws) := by
  refine ⟨Cmd.move_wellFounded executes_wellFounded, fun program s hrun => ?_,
    fun value s hrun => ?_⟩
  · cases program with
    | ret value => exact .inl ⟨value, rfl⟩
    | op o next => exact .inr (exists_move o next s)
  · have hholds := (runInternal_batches hg hvalid).reachable hrun
    obtain ⟨rfl, hthrough⟩ := (hholds s .refl).2.resolve_left fun h => Bool.false_ne_true h.1
    obtain ⟨started, hstarted, hs⟩ := hthrough.started
    obtain ⟨ended, hended, hs'⟩ := hthrough.ended
    refine ⟨rfl, ?_, ?_⟩
    · rw [hs]
      exact hstarted
    · rw [hs']
      exact hended

/-- `Run` and `RunWithExecutor` on any graph, whichever functions throw, among
any executor that accepts every closure and runs it once. -/
theorem run_agrees_with_runWithExecutor (edits : List Edit) (throws : TaskId → Bool) :
    ∃ result,
      Yields throws (build edits).run result
        ((build edits).batches { failFast := true, maxConcurrency := 0 } throws) ∧
      Yields throws
        ((build edits).runWithExecutor true { failFast := true, maxConcurrency := 0 }) result
        ((build edits).batches { failFast := true, maxConcurrency := 0 } throws) := by
  have hg := wellFormed_build edits
  by_cases hacyclic : (build edits).Acyclic
  · have hvalid := hg.validate_of_acyclic hacyclic
    exact ⟨_, .runInternal hg hvalid true _ throws, .runInternal hg hvalid false _ throws⟩
  · have hvalid := hg.validate_of_cycle hacyclic
    have hcall : ∀ inline options,
        (build edits).runInternal inline options = .ret (some (.error cycleStatus)) := by
      intro inline options
      simp only [runInternal, hvalid]
      rfl
    have hbatches : ∀ options, (build edits).batches options throws = [] := by
      intro options
      obtain ⟨indegree, hbuild, -⟩ := Peeled.start hg
      simp [batches, hbuild, hvalid, cycleStatus, Status.okStatus]
    refine ⟨.error cycleStatus, ?_, ?_⟩
    · rw [run, hcall, hbatches]
      exact .ret throws _
    · rw [runWithExecutor, if_pos rfl, hcall, hbatches]
      exact .ret throws _

end SimpleTaskGraph

end Corekit.Task
