import Corekit.Task.GraphRun

/-! What `RunInternal` does with a level and with a whole graph that `Validate`
accepts: the functions are called once each, after their predecessors, and the
counters say how they ended. -/
namespace Corekit.Task
open Corekit.Api Corekit.Foundation

def GraphRunStats.tally (stats : GraphRunStats) (threw : List Bool) : GraphRunStats :=
  { stats with
    succeeded := stats.succeeded + threw.count false
    failed := stats.failed + threw.count true }

theorem GraphRunStats.tally_cons (stats : GraphRunStats) (b : Bool) (threw : List Bool) :
    stats.tally (b :: threw) =
      (if b then { stats with failed := stats.failed + 1 }
        else { stats with succeeded := stats.succeeded + 1 } : GraphRunStats).tally threw := by
  cases b <;> simp [tally] <;> omega

theorem GraphRunStats.tally_append (stats : GraphRunStats) (threw threw' : List Bool) :
    stats.tally (threw ++ threw') = (stats.tally threw).tally threw' := by
  simp [tally, Nat.add_assoc]

namespace SimpleTaskGraph

variable {g : SimpleTaskGraph} {k : Nat} {throws : TaskId → Bool} {refusals : Bool}
  {s : Surroundings}

theorem exists_node {id : TaskId} (h : id ∈ g.nodes.keys) :
    ∃ options, g.nodes.find? id = some options := g.nodes.exists_find? h

theorem runInline_holds {done level : List TaskId} {stats : GraphRunStats} {levelFailed : Bool}
    (hs : Settled g k done s) (hlevel : Unblocked g done level) :
    (g.runInline level stats levelFailed).Holds (Acts throws refusals) (Executes throws)
      (Orderly g k) (fun value s => value =
          .ok (stats.tally (level.map throws), levelFailed || level.any throws) ∧
        Settled g k (done ++ level) s) s := by
  induction level generalizing done stats levelFailed s with
  | nil =>
    apply Cmd.Holds.ret (Settled.stable done) hs
    intro s hs
    simpa [GraphRunStats.tally] using hs
  | cons v rest ih =>
    obtain ⟨options, hfind⟩ := exists_node (hlevel.mem v (by simp))
    simp only [runInline, hfind]
    apply Cmd.Holds.op (Settled.stable done) hs
    intro s threw s' hs hact
    cases hact
    have hnext := hs.invoke hlevel
    cases hthrow : throws v with
    | false =>
      apply Cmd.Holds.mono _ (ih hnext hlevel.tail)
      rintro value s - ⟨rfl, hs⟩
      simpa [GraphRunStats.tally_cons, hthrow] using hs
    | true =>
      apply Cmd.Holds.mono _ (ih hnext hlevel.tail)
      rintro value s - ⟨rfl, hs⟩
      simpa [GraphRunStats.tally_cons, hthrow] using hs

/-- Every submission of the level is accepted, or the run ends with the
executor's refusal and calls no other level. -/
theorem submitLevel_holds {done launched level ids : List TaskId}
    (hs : ∃ old fresh, Launched g k throws done launched ids old fresh s)
    (hlevel : Unblocked g done (launched ++ level))
    (hk : 0 < k → launched.length + level.length ≤ k) :
    (g.submitLevel launched.length level ids).Holds (Acts throws refusals) (Executes throws)
      (Orderly g k) (fun value s =>
        (refusals = true ∧ (∃ status, value = .error status ∧ status.ok = false) ∧
          Within g k (done ++ (launched ++ level)) s) ∨
        ∃ ids, value = .ok ids ∧
          ∃ old fresh, Launched g k throws done (launched ++ level) ids old fresh s) s := by
  induction level generalizing launched ids s with
  | nil =>
    apply Cmd.Holds.ret (Launched.stable done launched ids) hs
    intro s hs
    exact .inr ⟨ids, rfl, by simpa using hs⟩
  | cons v rest ih =>
    obtain ⟨options, hfind⟩ := exists_node (hlevel.mem v (by simp))
    simp only [submitLevel, hfind]
    apply Cmd.Holds.op (Launched.stable done launched ids) hs
    intro s answer s' hs hact
    obtain ⟨old, fresh, hs⟩ := hs
    cases hact with
    | accept _ _ _ _ id =>
      have hnext := @Launched.submit _ _ _ _ _ _ _ _ _ hs _ id _ hlevel (fun hpos => by
        have := hk hpos
        simp only [List.length_cons] at this
        omega)
      have hrest := ih ⟨_, _, hnext⟩ (by simpa using hlevel) (fun hpos => by
        have := hk hpos
        simp only [List.length_cons, List.length_append, List.length_nil] at this ⊢
        omega)
      simpa using hrest
    | refuse _ _ _ _ status allowed error =>
      have hwithin := hs.within (v :: rest) (Function.update s.flags launched.length false)
      have hreturn : ∀ s, Within g k (done ++ (launched ++ v :: rest)) s →
          (refusals = true ∧ (∃ status', (.error status : Result (List TaskId)) =
              .error status' ∧ status'.ok = false) ∧
            Within g k (done ++ (launched ++ v :: rest)) s) := fun s hs =>
        ⟨allowed, ⟨status, rfl, error⟩, hs⟩
      by_cases hids : ids ≠ []
      · simp only [Cmd.ret_bind, if_pos hids]
        apply Cmd.Holds.op (Within.stable _) hwithin
        intro s _ s' hs hact
        cases hact <;> exact Cmd.Holds.ret (Within.stable _) hs fun s hs => .inl (hreturn s hs)
      · simp only [Cmd.ret_bind, if_neg hids]
        exact Cmd.Holds.ret (Within.stable _) hwithin fun s hs => .inl (hreturn s hs)

/-- The loop over `ctx` reads flags that no longer change. -/
theorem collect_holds {assertion : Surroundings → Prop}
    (hstable : Cmd.Stable (Executes throws) (Orderly g k) assertion) (flags : Nat → Bool)
    {slots : List Nat} (hflags : ∀ s, assertion s → ∀ slot ∈ slots, s.flags slot = flags slot)
    {stats : GraphRunStats} {levelFailed : Bool} (hs : assertion s) :
    (collect slots stats levelFailed).Holds (Acts throws refusals) (Executes throws)
      (Orderly g k) (fun value s =>
        value = (stats.tally (slots.map flags), levelFailed || slots.any flags) ∧ assertion s)
      s := by
  induction slots generalizing stats levelFailed s with
  | nil =>
    apply Cmd.Holds.ret hstable hs
    intro s hs
    simpa [GraphRunStats.tally] using hs
  | cons slot rest ih =>
    have hrest : ∀ s, assertion s → ∀ slot ∈ rest, s.flags slot = flags slot :=
      fun s hs other hother => hflags s hs other (by simp [hother])
    simp only [collect]
    apply Cmd.Holds.op hstable hs
    intro s failed s' hs hact
    cases hact
    have hslot := hflags s hs slot (by simp)
    rw [hslot]
    cases hflag : flags slot with
    | false =>
      apply Cmd.Holds.mono _ (ih hrest hs)
      rintro value s - ⟨rfl, hs⟩
      simpa [GraphRunStats.tally_cons, hflag] using hs
    | true =>
      apply Cmd.Holds.mono _ (ih hrest hs)
      rintro value s - ⟨rfl, hs⟩
      simpa [GraphRunStats.tally_cons, hflag] using hs

/-- The flag that the slot of a level gets. -/
def flagAt (throws : TaskId → Bool) (level : List TaskId) (slot : Nat) : Bool :=
  (level[slot]?.map throws).getD false

theorem map_flagAt (level : List TaskId) :
    (List.range level.length).map (flagAt throws level) = level.map throws := by
  apply List.ext_getElem
  · simp
  · intro i hi hi'
    simp only [List.length_map] at hi'
    simp [flagAt, hi']

theorem any_flagAt (level : List TaskId) :
    (List.range level.length).any (flagAt throws level) = level.any throws := by
  have := congrArg (List.any · id) (@map_flagAt throws level)
  simpa [List.any_map] using this

theorem runSubmitted_holds {done level : List TaskId} {stats : GraphRunStats}
    (hs : Settled g k done s) (hlevel : Unblocked g done level)
    (hk : 0 < k → level.length ≤ k) :
    (g.runSubmitted level stats).Holds (Acts throws refusals) (Executes throws)
      (Orderly g k) (fun value s =>
        (refusals = true ∧ (∃ status, value = .error status ∧ status.ok = false) ∧
          Within g k (done ++ level) s) ∨
        (value = .ok (stats.tally (level.map throws), level.any throws) ∧
          Settled g k (done ++ level) s)) s := by
  unfold runSubmitted
  apply Cmd.Holds.bind
  apply Cmd.Holds.mono _ (submitLevel_holds ⟨_, _, hs.launched⟩ (by simpa using hlevel)
    (by simpa using hk))
  rintro value s - (⟨allowed, ⟨status, rfl, error⟩, hs⟩ | ⟨ids, rfl, hs⟩)
  · exact Cmd.Holds.ret (Within.stable _) hs fun s hs =>
      .inl ⟨allowed, ⟨status, rfl, error⟩, by simpa using hs⟩
  · apply Cmd.Holds.op (Launched.stable done _ ids) hs
    intro s status s' hs hact
    obtain ⟨old, fresh, hs⟩ := hs
    cases hact with
    | waited _ _ _ ok all =>
      obtain ⟨hsettled, hflags⟩ := hs.settled all
      have hstable : Cmd.Stable (Executes throws) (Orderly g k) fun s =>
          Settled g k (done ++ level) s ∧ ∀ slot ∈ List.range level.length,
            s.flags slot = flagAt throws level slot :=
        ⟨fun _ _ hs h => absurd h (not_executes hs.1.quiet), fun _ hs => hs.1.orderly⟩
      simp only [Cmd.ret_bind, ok, if_true]
      apply Cmd.Holds.bind
      apply Cmd.Holds.mono _ (collect_holds hstable (flagAt throws level) (fun s hs => hs.2)
        ⟨hsettled, ?_⟩)
      · rintro value s - ⟨rfl, hs⟩
        apply Cmd.Holds.ret (Settled.stable _) hs.1
        intro s hs
        rw [map_flagAt, any_flagAt, Bool.false_or]
        exact .inr ⟨rfl, hs⟩
      · intro slot hslot
        have hlt := List.mem_range.mp hslot
        rw [hflags slot (level.get ⟨slot, hlt⟩) (by simp)]
        simp [flagAt, hlt]
    | gaveUp _ _ _ allowed error =>
      simp only [Cmd.ret_bind, error, Bool.false_eq_true, if_false]
      exact Cmd.Holds.ret (Within.stable _) (hs.within [] s.flags) fun s hs =>
        .inl ⟨allowed, ⟨status, rfl, error⟩, by simpa using hs⟩

inductive Outcome (g : SimpleTaskGraph) (options : GraphRunOptions) (throws : TaskId → Bool)
    (refusals : Bool) : Option (Result GraphRunStats) → Surroundings → Prop where
  | refused (s : Surroundings) (status : Status) (allowed : refusals = true)
      (error : status.ok = false) : Outcome g options throws refusals (some (.error status)) s
  | complete (s : Surroundings) (done : List TaskId) (all : done.Perm g.nodes.keys)
      (settled : Settled g options.maxConcurrency done s) :
      Outcome g options throws refusals
        (some (.ok (finishStats (({ total := g.nodes.size } : GraphRunStats).tally
          (done.map throws))))) s
  | cut (s : Surroundings) (done level ready : List TaskId) (indegree : Indegree)
      (failFast : options.failFast = true) (peeled : g.Peeled done level ready indegree)
      (clean : ∀ v ∈ done, throws v = false) (dirty : level.any throws = true)
      (settled : Settled g options.maxConcurrency (done ++ level) s) :
      Outcome g options throws refusals
        (some (.ok (finishStats (({ total := g.nodes.size } : GraphRunStats).tally
          ((done ++ level).map throws))))) s

section Loop

variable {inline : Bool} {options : GraphRunOptions}

theorem length_level_le {ready : List TaskId} (h : 0 < options.maxConcurrency) :
    (ready.take (levelCap options)).length ≤ options.maxConcurrency := by
  rw [List.length_take, levelCap, if_neg (by omega)]
  exact Nat.min_le_left _ _

theorem levelCap_pos : 0 < levelCap options := by
  unfold levelCap
  split_ifs <;> omega

theorem Peeled.takeLevel {done others : List TaskId} {first : TaskId} {indegree : Indegree}
    (h : g.Peeled done [] (first :: others) indegree) :
    g.Peeled done ((first :: others).take (levelCap options))
        ((first :: others).drop (levelCap options)) indegree ∧
      0 < ((first :: others).take (levelCap options)).length := by
  have hsplit := List.take_append_drop (levelCap options) (first :: others)
  refine ⟨⟨h.keys, by simpa using (hsplit.symm ▸ h.kahn).pop _⟩, ?_⟩
  have := @levelCap_pos options
  rw [List.length_take, List.length_cons]
  omega

theorem Peeled.unblocked {done level ready : List TaskId} {indegree : Indegree}
    (h : g.Peeled done level ready indegree) : Unblocked g done level where
  nodup := h.kahn.nodup.of_append_left
  mem := fun v hv => h.kahn.mem v (by simp [hv])
  preds := fun v hv _ hu huv => h.kahn.preds_done (v := v) (by simp [hv]) hu huv

theorem runLevel_holds {done level : List TaskId} {stats : GraphRunStats}
    (hs : Settled g k done s) (hlevel : Unblocked g done level)
    (hk : 0 < k → level.length ≤ k) :
    (if inline then g.runInline level stats false else g.runSubmitted level stats).Holds
      (Acts throws refusals) (Executes throws) (Orderly g k) (fun value s =>
        (refusals = true ∧ (∃ status, value = .error status ∧ status.ok = false) ∧
          Within g k (done ++ level) s) ∨
        (value = .ok (stats.tally (level.map throws), level.any throws) ∧
          Settled g k (done ++ level) s)) s := by
  cases inline with
  | true =>
    apply Cmd.Holds.mono _ (runInline_holds hs hlevel)
    rintro value s - ⟨rfl, hs⟩
    exact .inr ⟨by simp, hs⟩
  | false => exact runSubmitted_holds hs hlevel hk

theorem Peeled.perm_keys {order done : List TaskId} {indegree : Indegree}
    (h : g.Peeled done [] [] indegree) (hperm : order.Perm g.nodes.keys)
    (horder : Kahn.Ordered g.nodes.keys g.succ order) : done.Perm g.nodes.keys := by
  have hnodup : done.Nodup := by simpa using h.kahn.nodup
  rw [List.perm_ext_iff_of_nodup hnodup (OrderedMap.keys_nodup _)]
  intro v
  constructor
  · exact fun hv => h.kahn.mem v (by simpa using hv)
  · intro hv
    exact h.kahn.complete (fun w hw => hperm.subset hw) horder v (hperm.symm.subset hv)

theorem runLoop_empty {processed : Nat} (h : processed = g.nodes.size) (fuel : Nat)
    (indegree : Indegree) (stats : GraphRunStats) :
    g.runLoop inline options fuel indegree [] stats processed =
      .ret (some (.ok (finishStats stats))) := by
  cases fuel <;> simp [runLoop, h]

theorem runLoop_empty_holds {done : List TaskId} (hs : Settled g options.maxConcurrency done s)
    (hperm : done.Perm g.nodes.keys) {fuel : Nat} {indegree : Indegree} :
    (g.runLoop inline options fuel indegree []
      (({ total := g.nodes.size } : GraphRunStats).tally (done.map throws)) done.length).Holds
      (Acts throws refusals) (Executes throws) (Orderly g options.maxConcurrency)
      (Outcome g options throws refusals) s := by
  rw [runLoop_empty (by rw [hperm.length_eq, OrderedMap.length_keys])]
  apply Cmd.Holds.ret (Settled.stable _) hs
  exact fun s hs => .complete s done hperm hs

/-- Induction along the main loop. The queue is empty and every node is done, or
a level is taken from it and what follows starts between two levels again;
`order` is what `Validate` has shown to exist. -/
theorem Peeled.loop_induction (hg : g.WellFormed) {order : List TaskId}
    (hperm : order.Perm g.nodes.keys) (horder : Kahn.Ordered g.nodes.keys g.succ order)
    (options : GraphRunOptions) {motive : Nat → List TaskId → List TaskId → Indegree → Prop}
    (hempty : ∀ fuel done indegree, done.Perm g.nodes.keys → motive fuel done [] indegree)
    (hlevel : ∀ fuel done first others level ready indegree,
      level = (first :: others).take (levelCap options) →
      ready = (first :: others).drop (levelCap options) →
      g.Peeled done level ready indegree →
      (∃ indegree' ready', g.relaxLevel level indegree ready = .ok (indegree', ready') ∧
        g.Peeled (done ++ level) [] ready' indegree' ∧
        motive fuel (done ++ level) ready' indegree') →
      motive (fuel + 1) done (first :: others) indegree)
    {fuel : Nat} {done ready : List TaskId} {indegree : Indegree}
    (h : g.Peeled done [] ready indegree) (hfuel : g.nodes.size ≤ fuel + done.length) :
    motive fuel done ready indegree := by
  -- the fuel bounds the nodes that are not done, and every level has one
  induction fuel generalizing done ready indegree with
  | zero =>
    cases ready with
    | nil => exact hempty _ _ _ (h.perm_keys hperm horder)
    | cons first others =>
      have hlength := h.kahn.length_le
      rw [OrderedMap.length_keys] at hlength
      simp only [List.length_nil, List.length_cons] at hlength
      omega
  | succ fuel ih =>
    cases ready with
    | nil => exact hempty _ _ _ (h.perm_keys hperm horder)
    | cons first others =>
      obtain ⟨hpop, hpos⟩ := @Peeled.takeLevel g options _ _ _ _ h
      obtain ⟨indegree', ready', hrelax, hnext⟩ := hpop.relaxLevel hg
      refine hlevel fuel done first others _ _ indegree rfl rfl hpop ⟨indegree', ready', hrelax,
        hnext, ih hnext ?_⟩
      rw [List.length_append]
      omega

theorem runLoop_holds (hg : g.WellFormed) {order : List TaskId} (hperm : order.Perm g.nodes.keys)
    (horder : Kahn.Ordered g.nodes.keys g.succ order) {fuel : Nat} {done ready : List TaskId}
    {indegree : Indegree} (hs : Settled g options.maxConcurrency done s)
    (hpeeled : g.Peeled done [] ready indegree)
    (hclean : options.failFast = true → ∀ v ∈ done, throws v = false)
    (hfuel : g.nodes.size ≤ fuel + done.length) :
    (g.runLoop inline options fuel indegree ready
      (({ total := g.nodes.size } : GraphRunStats).tally (done.map throws)) done.length).Holds
      (Acts throws refusals) (Executes throws) (Orderly g options.maxConcurrency)
      (Outcome g options throws refusals) s := by
  revert s hclean
  apply Peeled.loop_induction hg hperm horder options _ _ hpeeled hfuel
  · intro fuel done indegree hdone s hs _
    exact runLoop_empty_holds hs hdone
  · rintro fuel done first others level ready indegree hlevel hready hpop
      ⟨indegree', ready', hrelax, -, ih⟩ s hs hclean
    simp only [runLoop, ← hlevel, ← hready]
    apply Cmd.Holds.bind
    apply Cmd.Holds.mono _ (runLevel_holds hs hpop.unblocked
      (fun hpos => hlevel ▸ length_level_le hpos))
    rintro value s - (⟨allowed, ⟨status, rfl, error⟩, hs⟩ | ⟨rfl, hs⟩)
    · apply Cmd.Holds.ret (Within.stable _) hs
      exact fun s _ => .refused s status allowed error
    · rw [← GraphRunStats.tally_append, ← List.map_append]
      by_cases hstop : level.any throws = true ∧ options.failFast = true
      · simp only [if_pos hstop]
        apply Cmd.Holds.ret (Settled.stable _) hs
        exact fun s hs => .cut s done level ready indegree hstop.2 hpop (hclean hstop.2) hstop.1 hs
      · simp only [if_neg hstop, hrelax]
        rw [← List.length_append]
        apply ih hs
        intro hfast v hv
        rcases List.mem_append.mp hv with hv | hv
        · exact hclean hfast v hv
        · by_contra hthrows
          exact hstop ⟨List.any_eq_true.mpr ⟨v, hv, by simpa using hthrows⟩, hfast⟩

theorem runInternal_holds (hg : g.WellFormed) (hvalid : g.validate = some .okStatus) :
    (g.runInternal inline options).Holds (Acts throws refusals) (Executes throws)
      (Orderly g options.maxConcurrency) (Outcome g options throws refusals) {} := by
  obtain ⟨order, hperm, horder⟩ := hg.order_of_validate hvalid
  obtain ⟨indegree, hbuild, hstart⟩ := Peeled.start hg
  simp only [runInternal, hvalid, Status.ok_okStatus, if_true, hbuild]
  exact runLoop_holds hg hperm horder (Settled.start g _) hstart (by simp) (by simp)

end Loop

section Ending

theorem executes_wellFounded : WellFounded fun s' s => Executes throws s s' := by
  apply Subrelation.wf _ (measure fun s : Surroundings =>
    2 * (s.nodesIn .queued).card + (s.nodesIn .running).card).wf
  intro s' s h
  change 2 * (s'.nodesIn .queued).card + (s'.nodesIn .running).card <
    2 * (s.nodesIn .queued).card + (s.nodesIn .running).card
  rcases h.nodesIn with ⟨v, hqueued, hrunning, -⟩ | ⟨v, hqueued, hrunning, -⟩
  · rw [hqueued, hrunning, Multiset.card_add, Multiset.card_add, Multiset.card_singleton]
    omega
  · rw [hqueued, hrunning, Multiset.card_add, Multiset.card_singleton]
    omega

theorem exists_move {α : Type} (o : GraphOp) (next : o.Res → GraphProgram α) (s : Surroundings) :
    ∃ y, Cmd.Move (Acts throws refusals) (Executes throws) (.op o next, s) y := by
  cases o with
  | invoke node => exact ⟨_, .act (.invoke s node)⟩
  | submitEx slot node options => exact ⟨_, .act (.accept s slot node options 0)⟩
  | failed slot => exact ⟨_, .act (.failed s slot)⟩
  | waitBatch ids =>
    by_cases hall : ∀ c ∈ s.closures, c.id ∈ ids → c.phase = .ended
    · exact ⟨_, .act (.waited s ids .okStatus rfl hall)⟩
    · simp only [not_forall] at hall
      obtain ⟨c, hc, -, hphase⟩ := hall
      obtain ⟨i, hi⟩ := List.mem_iff_getElem?.mp hc
      cases hcase : c.phase with
      | queued => exact ⟨_, .env (.start s i c hi hcase)⟩
      | running => exact ⟨_, .env (.finish s i c hi hcase)⟩
      | ended => exact absurd hcase hphase

theorem subU64_cancel (a b : Nat) : subU64 (subU64 (a + b) a) b = 0 := by
  unfold subU64
  omega

theorem count_map_throws (done : List TaskId) :
    (done.map throws).count false = done.countP (fun id => !throws id) ∧
      (done.map throws).count true = done.countP throws := by
  simp only [List.count, List.countP_map]
  constructor
  · apply List.countP_congr
    simp
  · apply List.countP_congr
    simp

theorem finishStats_complete {done : List TaskId} (hperm : done.Perm g.nodes.keys) :
    finishStats (({ total := g.nodes.size } : GraphRunStats).tally (done.map throws)) =
      { total := g.nodes.size
        succeeded := g.nodes.keys.countP fun id => !throws id
        failed := g.nodes.keys.countP throws
        canceled := 0 } := by
  obtain ⟨hfalse, htrue⟩ := @count_map_throws throws done
  have hsize : g.nodes.size =
      g.nodes.keys.countP (fun id => !throws id) + g.nodes.keys.countP throws := by
    rw [← OrderedMap.length_keys, List.length_eq_countP_add_countP (p := throws), Nat.add_comm]
    simp
  simp only [finishStats, GraphRunStats.tally, hfalse, htrue, hperm.countP_eq, Nat.zero_add]
  rw [hsize, subU64_cancel]

end Ending

/-- Any run of `RunInternal` over a valid graph, among an executor that may start
and end what it has accepted at any time. `refusals` says whether the executor
may also refuse a closure or fail a wait; what is said then ends with the
return of `RunInternal`, after which its `NodeCtx` vector is gone. -/
theorem runInternal_respects_and_completes (edits : List Edit)
    (hvalid : (build edits).validate = some .okStatus) (inline : Bool) (options : GraphRunOptions)
    (throws : TaskId → Bool) (refusals : Bool)
    (hthrows : options.failFast = false ∨ ∀ id ∈ (build edits).nodes.keys, throws id = false) :
    (WellFounded fun y x : GraphProgram (Option (Result GraphRunStats)) × Surroundings =>
      Cmd.Move (Acts throws refusals) (Executes throws) x y) ∧
    ∀ program s, Relation.ReflTransGen (Cmd.Move (Acts throws refusals) (Executes throws))
        ((build edits).runInternal inline options, {}) (program, s) →
      ((∃ value, program = .ret value) ∨
        ∃ y, Cmd.Move (Acts throws refusals) (Executes throws) (program, s) y) ∧
      (refusals = false ∨ (∀ value, program ≠ .ret value) →
        s.started.Nodup ∧
        (∀ v ∈ s.started, ∀ u ∈ (build edits).nodes.keys, v ∈ (build edits).succ u →
          u ∈ s.ended) ∧
        (0 < options.maxConcurrency →
          s.started.length ≤ s.ended.length + options.maxConcurrency)) ∧
      (refusals = false → ∀ value, program = .ret value →
        s.started.Perm (build edits).nodes.keys ∧ s.ended.Perm (build edits).nodes.keys ∧
        value = some (.ok {
          total := (build edits).nodes.size
          succeeded := (build edits).nodes.keys.countP fun id => !throws id
          failed := (build edits).nodes.keys.countP throws
          canceled := 0 })) := by
  refine ⟨Cmd.move_wellFounded executes_wellFounded, fun program s hrun => ?_⟩
  have hholds := (runInternal_holds (wellFormed_build edits) hvalid).reachable hrun
  have horderly := hholds.inv_now
  refine ⟨?_, fun _ => ⟨horderly.started_nodup, fun v hv u hu huv =>
    horderly.preds_ended hv hu huv, horderly.started_le⟩, ?_⟩
  · cases program with
    | ret value => exact .inl ⟨value, rfl⟩
    | op o next => exact .inr (exists_move o next s)
  · rintro hrefusals value rfl
    cases (hholds s .refl).2 with
    | refused _ status allowed error => simp [hrefusals] at allowed
    | complete _ done all settled =>
      obtain ⟨hstarted, hended⟩ := Settled.perm settled
      exact ⟨hstarted.trans all, hended.trans all, by rw [finishStats_complete all]⟩
    | cut _ done level ready indegree failFast peeled clean dirty settled =>
      -- a level with a throwing function contradicts the hypothesis on `throws`
      rcases hthrows with hslow | hnone
      · simp [hslow] at failFast
      · obtain ⟨v, hv, hthrow⟩ := List.any_eq_true.mp dirty
        rw [hnone v (peeled.kahn.mem v (by simp [hv]))] at hthrow
        cases hthrow

/-- Two nodes in a row, one at a time, the first of which throws. -/
theorem runInternal_chain_of_two :
    (build [.addTask true {}, .addTask true {}, .addDependency 1 2]).validate = some .okStatus ∧
    ∀ value s, Relation.ReflTransGen (Cmd.Move (Acts (· == 1) false) (Executes (· == 1)))
        ((build [.addTask true {}, .addTask true {}, .addDependency 1 2]).runInternal false
          { failFast := false, maxConcurrency := 1 }, {}) (.ret value, s) →
      value = some (.ok { total := 2, succeeded := 1, failed := 1, canceled := 0 }) := by
  refine ⟨by decide +kernel, fun value s hrun => ?_⟩
  exact (((runInternal_respects_and_completes
    [.addTask true {}, .addTask true {}, .addDependency 1 2] (by decide +kernel) false
    { failFast := false, maxConcurrency := 1 } (· == 1) false (.inl rfl)).2 _ _ hrun).2.2
    rfl value rfl).2.2

/-- An executor that refuses the only closure: `RunInternal` returns the refusal
and the function is never called. -/
theorem runInternal_refused :
    (build [.addTask true {}]).validate = some .okStatus ∧
    (build [.addTask true {}]).nodes.keys = [1] ∧
    ∃ s, Relation.ReflTransGen (Cmd.Move (Acts (fun _ => false) true) (Executes fun _ => false))
        ((build [.addTask true {}]).runInternal false {}, {})
        (.ret (some (.error ⟨.kWouldBlock, "executor queue is full", .kTask⟩)), s) ∧
      s.started = [] := by
  refine ⟨by decide +kernel, by decide +kernel,
    { flags := Function.update (fun _ => false) 0 false }, .single ?_, rfl⟩
  have hact : Acts (fun _ => false) true (.submitEx 0 1 {}) {}
      (.error ⟨.kWouldBlock, "executor queue is full", .kTask⟩)
      { flags := Function.update (fun _ => false) 0 false } := .refuse {} 0 1 {} _ rfl rfl
  exact @Cmd.Move.act _ _ _ _ (Acts (fun _ => false) true) (Executes fun _ => false) _ _ _ _ _ hact

end SimpleTaskGraph

end Corekit.Task
