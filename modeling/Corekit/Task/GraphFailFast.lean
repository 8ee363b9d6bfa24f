import Corekit.Task.GraphBatches

/-! A run with `fail_fast` in which some function throws: it ends with the batch
of the first failure, and what was not called by then is reported as canceled.
An executor that refuses a closure or gives up a wait breaks the run off before. -/
namespace Corekit.Task
open Corekit.Api Corekit.Foundation

namespace SimpleTaskGraph

variable {g : SimpleTaskGraph} {throws : TaskId → Bool} {refusals : Bool} {s s' : Surroundings}

section Cut

variable {options : GraphRunOptions}

/-- The batches of a run that is cut: the last one has a failure, those before
have none, and they have made the last one possible. -/
structure Cut (g : SimpleTaskGraph) (throws : TaskId → Bool) (done : List TaskId)
    (batches clean : List (List TaskId)) (last : List TaskId) : Prop where
  eq : batches = clean ++ [last]
  before : ∀ v ∈ clean.flatten, throws v = false
  failure : ∃ v ∈ last, throws v = true
  peeled : ∃ ready indegree, g.Peeled (done ++ clean.flatten) last ready indegree

theorem Cut.cons {done level last : List TaskId} {batches clean : List (List TaskId)}
    (h : Cut g throws (done ++ level) batches clean last)
    (hlevel : ∀ v ∈ level, throws v = false) :
    Cut g throws done (level :: batches) (level :: clean) last where
  eq := by rw [h.eq, List.cons_append]
  before := by
    intro v hv
    rcases List.mem_append.mp hv with hv | hv
    · exact hlevel v hv
    · exact h.before v hv
  failure := h.failure
  peeled := by simpa using h.peeled

theorem batchesFrom_cut (hg : g.WellFormed) {order : List TaskId}
    (hperm : order.Perm g.nodes.keys) (horder : Kahn.Ordered g.nodes.keys g.succ order)
    (hfast : options.failFast = true) (hthrows : ∃ v ∈ g.nodes.keys, throws v = true)
    {fuel : Nat} {done ready : List TaskId} {indegree : Indegree}
    (hpeeled : g.Peeled done [] ready indegree) (hclean : ∀ v ∈ done, throws v = false)
    (hfuel : g.nodes.size ≤ fuel + done.length) :
    ∃ clean last,
      Cut g throws done (g.batchesFrom options throws fuel indegree ready) clean last := by
  revert hclean
  apply Peeled.loop_induction hg hperm horder options _ _ hpeeled hfuel
  · intro fuel done indegree hdone hclean
    -- the function that is to throw has been called before
    obtain ⟨v, hv, hthrow⟩ := hthrows
    rw [hclean v (hdone.symm.subset hv)] at hthrow
    cases hthrow
  · rintro fuel done first others level ready indegree hlevel hready hpop
      ⟨indegree', ready', hrelax, -, ih⟩ hclean
    simp only [batchesFrom, ← hlevel, ← hready]
    by_cases hany : level.any throws = true
    · rw [if_pos ⟨hany, hfast⟩]
      exact ⟨[], level, rfl, by simp, List.any_eq_true.mp hany, ready, indegree,
        by simpa using hpop⟩
    · have hquiet : ∀ v ∈ level, throws v = false := by
        intro v hv
        by_contra hthrow
        exact hany (List.any_eq_true.mpr ⟨v, hv, by simpa using hthrow⟩)
      rw [if_neg fun h => hany h.1]
      simp only [hrelax]
      obtain ⟨clean, last, hcut⟩ := ih fun v hv =>
        (List.mem_append.mp hv).elim (hclean v) (hquiet v)
      exact ⟨level :: clean, last, hcut.cons hquiet⟩

theorem batches_cut (hg : g.WellFormed) (hvalid : g.validate = some .okStatus)
    (hfast : options.failFast = true) (hthrows : ∃ v ∈ g.nodes.keys, throws v = true) :
    ∃ clean last, Cut g throws [] (g.batches options throws) clean last := by
  obtain ⟨order, hperm, horder⟩ := hg.order_of_validate hvalid
  obtain ⟨indegree, hbuild, hstart⟩ := Peeled.start hg
  simp only [batches, hbuild, hvalid, if_true]
  exact batchesFrom_cut hg hperm horder hfast hthrows hstart (by simp) (by simp)

variable {clean : List (List TaskId)} {last : List TaskId} {batches : List (List TaskId)}

theorem Cut.ranIn (h : Cut g throws [] batches clean last) {calls : List TaskId}
    (hcalls : RanIn batches calls) :
    ∃ front back, front.Perm clean.flatten ∧ back.Perm last ∧ calls = front ++ back := by
  obtain ⟨ran, hran, rfl⟩ := hcalls
  rw [h.eq] at hran
  refine ⟨(ran.take clean.length).flatten, (ran.drop clean.length).flatten,
    .flatten_congr (List.forall₂_take_append _ _ _ hran), ?_, ?_⟩
  · simpa using List.Perm.flatten_congr (List.forall₂_drop_append _ _ _ hran)
  · rw [← List.flatten_append, List.take_append_drop]

theorem Cut.preds (h : Cut g throws [] batches clean last) {u v : TaskId}
    (hv : v ∈ clean.flatten ++ last) (hu : u ∈ g.nodes.keys) (huv : v ∈ g.succ u) :
    throws u = false := by
  obtain ⟨ready, indegree, hpeeled⟩ := h.peeled
  apply h.before u
  have hreached : v ∈ [] ++ clean.flatten ++ last ++ ready := by
    simp only [List.nil_append, List.mem_append] at hv ⊢
    exact .inl hv
  simpa using hpeeled.kahn.preds_done hreached hu huv

theorem Cut.calls_nodup (h : Cut g throws [] batches clean last) :
    (clean.flatten ++ last).Nodup := by
  obtain ⟨ready, indegree, hpeeled⟩ := h.peeled
  simpa using hpeeled.kahn.nodup.of_append_left

theorem Cut.calls_mem (h : Cut g throws [] batches clean last) {v : TaskId}
    (hv : v ∈ clean.flatten ++ last) : v ∈ g.nodes.keys := by
  obtain ⟨ready, indegree, hpeeled⟩ := h.peeled
  apply hpeeled.kahn.mem v
  simp only [List.nil_append, List.mem_append] at hv ⊢
  exact .inl hv

theorem length_add_countP_notMem {calls nodes : List TaskId} (hnodes : nodes.Nodup)
    (hnodup : calls.Nodup) (hmem : ∀ v ∈ calls, v ∈ nodes) :
    calls.length + nodes.countP (fun id => id ∉ calls) = nodes.length := by
  have hcalled : nodes.countP (fun id => id ∈ calls) = calls.length := by
    rw [List.countP_eq_length_filter]
    apply List.Perm.length_eq
    rw [List.perm_ext_iff_of_nodup (hnodes.filter _) hnodup]
    intro v
    simpa using hmem v
  rw [← hcalled, List.length_eq_countP_add_countP (fun id => decide (id ∈ calls))]
  simp

theorem subU64_of_le {a b : Nat} (ha : a < 2 ^ 64) (hb : b ≤ a) : subU64 a b = a - b := by
  unfold subU64
  omega

theorem finishStats_calls (hsize : g.nodes.size < 2 ^ 64) {calls : List TaskId}
    (hnodup : calls.Nodup) (hmem : ∀ v ∈ calls, v ∈ g.nodes.keys) :
    finishStats (({ total := g.nodes.size } : GraphRunStats).tally (calls.map throws)) =
      { total := g.nodes.size
        succeeded := calls.countP fun id => !throws id
        failed := calls.countP throws
        canceled := g.nodes.keys.countP fun id => id ∉ calls } := by
  obtain ⟨hfalse, htrue⟩ := @count_map_throws throws calls
  have hlength := length_add_countP_notMem (OrderedMap.keys_nodup g.nodes) hnodup hmem
  rw [OrderedMap.length_keys, List.length_eq_countP_add_countP throws] at hlength
  simp only [Bool.not_eq_true, ← Bool.not_eq_true', Bool.decide_eq_true] at hlength
  simp only [finishStats, GraphRunStats.tally, hfalse, htrue, Nat.zero_add]
  congr 1
  rw [subU64_of_le hsize (by omega), subU64_of_le (by omega) (by omega)]
  omega

end Cut

theorem Grows.run {x y : GraphProgram (Option (Result GraphRunStats)) × Surroundings}
    (h : Relation.ReflTransGen (Cmd.Move (Acts throws refusals) (Executes throws)) x y) :
    Grows x.2 y.2 := by
  induction h with
  | refl => exact .refl _
  | tail _ hstep ih =>
    cases hstep with
    | act hact => exact ih.trans (.acts hact)
    | env henv => exact ih.trans (.executes henv)

/-- Where a call waits for its predecessors, it waits for all it descends from. -/
theorem ancestor_returned (hended : ∀ v ∈ s.ended, v ∈ s.started)
    (hpreds : ∀ v ∈ s.started, ∀ u ∈ g.nodes.keys, v ∈ g.succ u → u ∈ s.ended ∧ throws u = false)
    {u v : TaskId} (hpath : Relation.TransGen (Kahn.Edge g.nodes.keys g.succ) u v)
    (hv : v ∈ s.started) : throws u = false := by
  induction hpath with
  | single hedge => exact (hpreds _ hv u hedge.1 hedge.2).2
  | tail _ hedge ih => exact ih (hended _ (hpreds _ hv _ hedge.1 hedge.2).1)

theorem prefix_of_mem {α : Type} {l front back : List α} {a : α} (h : l <+: front ++ back)
    (ha : a ∈ l) (hfront : a ∉ front) : front <+: l := by
  rcases List.prefix_or_prefix_of_prefix h (List.prefix_append front back) with hl | hl
  · exact absurd (hl.subset ha) hfront
  · exact hl

structure Reported (g : SimpleTaskGraph) (throws : TaskId → Bool) (s : Surroundings)
    (stats : GraphRunStats) : Prop where
  ended : s.started.Perm s.ended
  total : stats.total = g.nodes.size
  succeeded : stats.succeeded = s.ended.countP fun id => !throws id
  failed : stats.failed = s.ended.countP throws
  canceled : stats.canceled = g.nodes.keys.countP fun id => id ∉ s.started
  sum : stats.succeeded + stats.failed + stats.canceled = stats.total

/-- What holds wherever a run has got to that is cut after the batch `last`;
`program` is what is left of it. Only an executor that gives up a wait can leave
closures behind when the run returns; their `NodeCtx` is gone then. -/
structure CutSoundly (g : SimpleTaskGraph) (throws : TaskId → Bool) (refusals : Bool)
    (last : List TaskId)
    (program : GraphProgram (Option (Result GraphRunStats))) (s : Surroundings) : Prop where
  once : s.started.Nodup
  preds : ∀ v ∈ s.started, ∀ u ∈ g.nodes.keys, v ∈ g.succ u → u ∈ s.ended ∧ throws u = false
  descendants : ∀ u v, throws u = true →
    Relation.TransGen (Kahn.Edge g.nodes.keys g.succ) u v → v ∉ s.started
  /-- after a failure, only the batch of the failure goes on -/
  afterwards : ∀ f ∈ s.ended, throws f = true → f ∈ last ∧ ∀ program' s',
    Relation.ReflTransGen (Cmd.Move (Acts throws refusals) (Executes throws))
      (program, s) (program', s') → ∀ v ∈ s'.started, v ∈ s.started ∨ v ∈ last
  returned : ∀ value, program = .ret value →
    (∃ stats, value = some (.ok stats) ∧ Reported g throws s stats) ∨
      (refusals = true ∧ ∃ status, value = some (.error status) ∧ status.ok = false)

section Run

variable {inline : Bool} {options : GraphRunOptions} {clean : List (List TaskId)}
  {last : List TaskId} {program : GraphProgram (Option (Result GraphRunStats))}

theorem Orderly.mem_started {k : Nat} (h : Orderly g k s) {v : TaskId} (hv : v ∈ s.ended) :
    v ∈ s.started := by
  rw [← Multiset.mem_coe, h.flow]
  exact Multiset.mem_add.mpr (.inl hv)

theorem started_prefix (hg : g.WellFormed) (hvalid : g.validate = some .okStatus)
    (hcut : Cut g throws [] (g.batches options throws) clean last)
    (hrun : Relation.ReflTransGen (Cmd.Move (Acts throws refusals) (Executes throws))
      (g.runInternal inline options, {}) (program, s)) :
    ∃ front back, front.Perm clean.flatten ∧ back.Perm last ∧ s.started <+: front ++ back := by
  -- every run can be finished, and what it has called until now stays
  obtain ⟨value, final, hfinal⟩ : ∃ value final,
      Relation.ReflTransGen (Cmd.Move (Acts throws refusals) (Executes throws)) (program, s)
        (.ret value, final) :=
    Cmd.exists_return executes_wellFounded exists_move (program, s)
  have hend := (((runInternal_batches hg hvalid).reachable (hrun.trans hfinal)) final .refl).2
  have hbegun : ∃ calls, RanIn (g.batches options throws) calls ∧ final.started <+: calls := by
    rcases hend with ⟨-, -, calls, hcalls, hstarted⟩ | ⟨-, hthrough⟩
    · exact ⟨calls, hcalls, hstarted⟩
    · obtain ⟨calls, hcalls, hstarted⟩ := hthrough.started
      rw [hstarted]
      exact ⟨calls, hcalls, List.prefix_refl _⟩
  obtain ⟨calls, hcalls, hstarted⟩ := hbegun
  obtain ⟨front, back, hfront, hback, rfl⟩ := hcut.ranIn hcalls
  exact ⟨front, back, hfront, hback, (Grows.run hfinal).1.trans hstarted⟩

theorem mem_started (hg : g.WellFormed) (hvalid : g.validate = some .okStatus)
    (hcut : Cut g throws [] (g.batches options throws) clean last)
    (hrun : Relation.ReflTransGen (Cmd.Move (Acts throws refusals) (Executes throws))
      (g.runInternal inline options, {}) (program, s)) {v : TaskId} (hv : v ∈ s.started) :
    v ∈ clean.flatten ++ last := by
  obtain ⟨front, back, hfront, hback, hstarted⟩ := started_prefix hg hvalid hcut hrun
  exact (hfront.append hback).subset (hstarted.subset hv)

theorem started_after_failure (hg : g.WellFormed) (hvalid : g.validate = some .okStatus)
    (hcut : Cut g throws [] (g.batches options throws) clean last)
    (hrun : Relation.ReflTransGen (Cmd.Move (Acts throws refusals) (Executes throws))
      (g.runInternal inline options, {}) (program, s)) {f : TaskId} (hf : f ∈ s.started)
    (hthrow : throws f = true) {program' : GraphProgram (Option (Result GraphRunStats))}
    (hrun' : Relation.ReflTransGen (Cmd.Move (Acts throws refusals) (Executes throws))
      (program, s) (program', s')) {v : TaskId} (hv : v ∈ s'.started) :
    v ∈ s.started ∨ v ∈ last := by
  obtain ⟨front, back, hfront, hback, hstarted⟩ := started_prefix hg hvalid hcut (hrun.trans hrun')
  have hnot : f ∉ front := by
    intro hmem
    rw [hcut.before f (hfront.subset hmem)] at hthrow
    cases hthrow
  have hall : front <+: s.started :=
    prefix_of_mem ((Grows.run hrun').1.trans hstarted) hf hnot
  rcases List.mem_append.mp (hstarted.subset hv) with hv | hv
  · exact .inl (hall.subset hv)
  · exact .inr (hback.subset hv)

theorem Through.reported (hsize : g.nodes.size < 2 ^ 64)
    (hcut : Cut g throws [] (g.batches options throws) clean last)
    (hthrough : Through g options throws [] (g.batches options throws) {} s) :
    Reported g throws s (finishStats (({ total := g.nodes.size } : GraphRunStats).tally
      (([] ++ (g.batches options throws).flatten).map throws))) := by
  have hflatten : [] ++ (g.batches options throws).flatten = clean.flatten ++ last := by
    rw [hcut.eq]
    simp
  obtain ⟨hstarted, hended⟩ := Settled.perm hthrough.settled
  rw [hflatten] at hstarted hended
  have hlength := length_add_countP_notMem (OrderedMap.keys_nodup g.nodes) hcut.calls_nodup
    fun v hv => hcut.calls_mem hv
  rw [OrderedMap.length_keys, List.length_eq_countP_add_countP throws] at hlength
  simp only [Bool.not_eq_true, ← Bool.not_eq_true', Bool.decide_eq_true] at hlength
  rw [hflatten, finishStats_calls hsize hcut.calls_nodup fun v hv => hcut.calls_mem hv]
  refine ⟨hstarted.trans hended.symm, rfl, (hended.countP_eq _).symm, (hended.countP_eq _).symm,
    ?_, ?_⟩
  · apply List.countP_congr
    intro v _
    simp [hstarted.mem_iff]
  · dsimp only
    omega

theorem returned_stats (hg : g.WellFormed) (hvalid : g.validate = some .okStatus)
    (hsize : g.nodes.size < 2 ^ 64)
    (hcut : Cut g throws [] (g.batches options throws) clean last)
    {value : Option (Result GraphRunStats)}
    (hrun : Relation.ReflTransGen (Cmd.Move (Acts throws refusals) (Executes throws))
      (g.runInternal inline options, {}) (.ret value, s)) :
    (∃ stats, value = some (.ok stats) ∧ Reported g throws s stats) ∨
      (refusals = true ∧ ∃ status, value = some (.error status) ∧ status.ok = false) := by
  rcases (((runInternal_batches hg hvalid).reachable hrun) s .refl).2 with
    ⟨allowed, hstatus, -⟩ | ⟨rfl, hthrough⟩
  · exact .inr ⟨allowed, hstatus⟩
  · exact .inl ⟨_, rfl, hthrough.reported hsize hcut⟩

end Run

/-- A valid graph in which some function throws, run with `fail_fast` inline or
among an executor that may start and end what it has accepted at any time;
`refusals` says whether it may also refuse a closure or fail a wait. -/
theorem fail_fast_cuts_soundly (edits : List Edit)
    (hvalid : (build edits).validate = some .okStatus)
    (hsize : (build edits).nodes.size < 2 ^ 64) (inline : Bool) (maxConcurrency : Nat)
    (throws : TaskId → Bool) (refusals : Bool)
    (hthrows : ∃ id ∈ (build edits).nodes.keys, throws id = true) :
    (WellFounded fun y x : GraphProgram (Option (Result GraphRunStats)) × Surroundings =>
      Cmd.Move (Acts throws refusals) (Executes throws) x y) ∧
    ∃ clean last,
      (build edits).batches { failFast := true, maxConcurrency } throws = clean ++ [last] ∧
      (∀ v ∈ clean.flatten, throws v = false) ∧ (∃ v ∈ last, throws v = true) ∧
      ∀ program s, Relation.ReflTransGen (Cmd.Move (Acts throws refusals) (Executes throws))
          ((build edits).runInternal inline { failFast := true, maxConcurrency }, {})
          (program, s) →
        ((∃ value, program = .ret value) ∨
          ∃ y, Cmd.Move (Acts throws refusals) (Executes throws) (program, s) y) ∧
        CutSoundly (build edits) throws refusals last program s := by
  have hg := wellFormed_build edits
  obtain ⟨clean, last, hcut⟩ := @batches_cut _ throws
    { failFast := true, maxConcurrency } hg hvalid rfl hthrows
  refine ⟨Cmd.move_wellFounded executes_wellFounded, clean, last, hcut.eq, hcut.before,
    hcut.failure, fun program s hrun => ⟨?_, ?_⟩⟩
  · cases program with
    | ret value => exact .inl ⟨value, rfl⟩
    | op o next => exact .inr (exists_move o next s)
  · have horderly := ((runInternal_batches hg hvalid).reachable hrun).inv_now
    have hpreds : ∀ v ∈ s.started, ∀ u ∈ (build edits).nodes.keys, v ∈ (build edits).succ u →
        u ∈ s.ended ∧ throws u = false := fun v hv u hu huv =>
      ⟨horderly.preds_ended hv hu huv,
        hcut.preds (mem_started hg hvalid hcut hrun hv) hu huv⟩
    refine ⟨horderly.started_nodup, hpreds, fun u v hthrow hpath hv => ?_,
      fun f hf hthrow => ⟨?_, fun program' s' hrun' v hv => ?_⟩, ?_⟩
    · rw [ancestor_returned (fun v hv => Orderly.mem_started horderly hv) hpreds hpath hv] at hthrow
      cases hthrow
    · have hcalled := mem_started hg hvalid hcut hrun (Orderly.mem_started horderly hf)
      refine (List.mem_append.mp hcalled).resolve_left fun hmem => ?_
      rw [hcut.before f hmem] at hthrow
      cases hthrow
    · exact started_after_failure hg hvalid hcut hrun (Orderly.mem_started horderly hf) hthrow
        hrun' hv
    · rintro value rfl
      exact returned_stats hg hvalid hsize hcut hrun

/-- Two nodes in a row, the first of which throws: the second is canceled,
whatever the executor refuses. -/
theorem fail_fast_cuts_chain_of_two :
    (build [.addTask true {}, .addTask true {}, .addDependency 1 2]).validate = some .okStatus ∧
    ∃ clean last,
      (build [.addTask true {}, .addTask true {}, .addDependency 1 2]).batches {} (· == 1) =
        clean ++ [last] ∧
      (∀ v ∈ clean.flatten, (v == 1) = false) ∧ (∃ v ∈ last, (v == 1) = true) ∧
      ∀ program s, Relation.ReflTransGen (Cmd.Move (Acts (· == 1) true) (Executes (· == 1)))
          ((build [.addTask true {}, .addTask true {}, .addDependency 1 2]).runInternal false {}, {})
          (program, s) →
        ((∃ value, program = .ret value) ∨
          ∃ y, Cmd.Move (Acts (· == 1) true) (Executes (· == 1)) (program, s) y) ∧
        CutSoundly (build [.addTask true {}, .addTask true {}, .addDependency 1 2]) (· == 1) true
          last program s :=
  ⟨by decide +kernel, (fail_fast_cuts_soundly
    [.addTask true {}, .addTask true {}, .addDependency 1 2] (by decide +kernel)
    (by decide +kernel) false 0 (· == 1) true ⟨1, by decide +kernel, rfl⟩).2⟩

end SimpleTaskGraph

end Corekit.Task
