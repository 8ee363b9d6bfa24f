import Corekit.Task.GraphOnPool

/-! `RunWithExecutor` comes back: the workers and the client that runs the graph do
not go on forever by themselves, and they do not stop before it has returned. -/
namespace Corekit.Task
open Corekit.Api Corekit.Foundation

/-- How many positions of a call a client still has in front of it, at most. -/
def ClientPc.ahead (call : Call) : ClientPc → Nat
  | .ready =>
    match call with
    | .waitBatch (some ids) _ => 2 * ids.length + 1
    | _ => 3
  | .registering _ => 2
  | .enqueueing _ _ _ => 1
  | .undoing _ _ => 0
  | .finding _ rest _ => 2 * rest.length + 2
  | .blocked _ rest _ => 2 * rest.length + 1

theorem Goes.ahead {p : Pool} {pc pc' : ClientPc} {call : Call} (goes : Goes p pc call pc') :
    pc'.ahead call < pc.ahead call := by
  cases goes with
  | submitEx => simp [ClientPc.ahead]
  | wait => simp [ClientPc.ahead]
  | waitBatch => simp [ClientPc.ahead]; omega
  | found h => simp [ClientPc.ahead]
  | waited h => simp [ClientPc.ahead]; omega

def Client.ahead (client : Client) : Nat :=
  match client.program with
  | .ret _ => 0
  | .op call _ => client.pc.ahead call

namespace Machine

variable {m m' : Machine} {c : Nat}

theorem client_ahead {choice : Bool} (h : m.stepClient c choice = some m') :
    ((m'.clients c).program = (m.clients c).program ∧
      (m'.clients c).ahead < (m.clients c).ahead) ∨
    ∃ call next result, (m.clients c).program = .op call next ∧
      (m'.clients c).program = next result := by
  obtain ⟨call, next, hprogram, move⟩ := stepClient_cases h
  have hstays : ∀ {n : Machine} {pc : ClientPc}, n.clients = m.clients →
      pc.ahead call < (m.clients c).pc.ahead call →
      ((n.setPc c pc).clients c).program = (m.clients c).program ∧
        ((n.setPc c pc).clients c).ahead < (m.clients c).ahead := by
    intro n pc hclients hless
    constructor
    · simp [setPc, hclients]
    · simpa [setPc, Client.ahead, hclients, hprogram] using hless
  have hreturns : ∀ (n : Machine) (result : Answer),
      ∃ call' next' result', (m.clients c).program = .op call' next' ∧
        ((n.answer c call next result).clients c).program = next' result' :=
    fun n result => ⟨call, next, result, hprogram, by simp [answer]⟩
  cases move with
  | reply pool result quiet keyHolder replies => exact .inr (hreturns _ _)
  | submit hpc hcall => exact .inr (hreturns _ _)
  | accept options id state hpc ok => exact .inr (hreturns _ _)
  | undo id refused hpc => exact .inr (hreturns _ _)
  | goto pc goes => exact .inl (hstays rfl goes.ahead)
  | register options hpc => exact .inl (hstays rfl (by simp [hpc, ClientPc.ahead]))
  | refuse options id state hpc refused => exact .inl (hstays rfl (by simp [hpc, ClientPc.ahead]))

def Own (c : Nat) (m m' : Machine) : Prop :=
  (∃ i threw, m.stepWorker i threw = some m') ∨ ∃ choice, m.stepClient c choice = some m'

theorem own_wellFounded : WellFounded fun m' m : Machine => Own c m m' := by
  refine Cmd.wellFounded_of_program (fun m : Machine => (m.clients c).program)
    (fun m => ((m.clients c).ahead, m.work)) (Prod.lex Nat.lt_wfRel Nat.lt_wfRel).wf
    fun m m' hstep => ?_
  rcases hstep with ⟨i, threw, hstep⟩ | ⟨choice, hstep⟩
  · have hclients := (worker_frame hstep).1
    rw [hclients]
    exact .inl ⟨rfl, .right _ (worker_work hstep)⟩
  · rcases client_ahead hstep with ⟨hsame, hless⟩ | hreturned
    · exact .inl ⟨hsame, .left _ _ hless⟩
    · exact .inr hreturned

theorem client_moves {call : Call} {next : Answer → Program Unit} (hknown : m.Known)
    (htasks : m.pool.tasks = [])
    (hidle : ∀ (i : Nat) (worker : Worker), m.workers[i]? = some worker →
      worker = .idle ∨ worker = .exited)
    (hprogram : (m.clients c).program = .op call next) (hcall : call ≠ .waitAll)
    (hblocked : ∀ state rest timeoutMs, (m.clients c).pc = .blocked state rest timeoutMs →
      state + 1 ∈ m.admitted) (choice : Bool) : m.stepClient c choice ≠ none := by
  intro hnone
  simp only [stepClient, hprogram] at hnone
  cases hpc : (m.clients c).pc with
  | ready =>
    simp only [hpc] at hnone
    cases call with
    | waitAll => exact hcall rfl
    | submit hasFn => cases hasFn <;> cases hnone
    | submitEx hasFn options => cases hasFn <;> cases hnone
    | waitBatch ids timeoutMs => rcases ids with _ | _ | _ <;> cases hnone
    | _ => cases hnone
  | registering options => simp [hpc, continueCall] at hnone
  | undoing id refused => simp [hpc, continueCall] at hnone
  | enqueueing options id state =>
    simp only [hpc, continueCall] at hnone
    split_ifs at hnone
  | finding id others timeoutMs =>
    simp only [hpc, continueCall] at hnone
    split_ifs at hnone
    split at hnone <;> cases hnone
  | blocked state others timeoutMs =>
    have hdone := hknown.done_at_rest htasks hidle (hblocked state others timeoutMs hpc)
    simp [hpc, continueCall, hdone] at hnone

end Machine

namespace Hosted

variable {α : Type} {throws : TaskId → Bool} {refusals : Bool} {c : Nat} {rest : α → Program Unit}
  {h h' : Hosted α}

/-- A step of a worker, or of the client while the graph runs. -/
def Own (throws : TaskId → Bool) (c : Nat) (h h' : Hosted α) : Prop :=
  (∃ i threw, h.step throws c (.worker i threw) = some h') ∨
    ∃ choice o next, h.program = .op o next ∧ h.step throws c (.client c choice) = some h'

theorem machine_own (hown : Own throws c h h') : Machine.Own c h.machine h'.machine := by
  rcases hown with ⟨i, threw, hstep⟩ | ⟨choice, o, next, -, hstep⟩
  · obtain ⟨w, hw, rfl⟩ := Option.map_eq_some_iff.mp hstep
    obtain ⟨m, hm, rfl⟩ := Option.map_eq_some_iff.mp hw
    rw [machine, machine, advance_watch]
    exact .inl ⟨i, _, hm⟩
  · obtain ⟨w, hw, rfl⟩ := Option.map_eq_some_iff.mp hstep
    obtain ⟨m, hm, rfl⟩ := Option.map_eq_some_iff.mp hw
    rw [machine, machine, advance_watch]
    exact .inr ⟨_, hm⟩

theorem own_wellFounded : WellFounded fun h' h : Hosted α => Own throws c h h' :=
  Subrelation.wf (fun hown => machine_own hown)
    (InvImage.wf machine (@Machine.own_wellFounded c))

theorem Hosts.client_moves {o : GraphOp} {next : o.Res → GraphProgram α}
    (hh : h.Hosts refusals c rest) (hprogram : h.program = .op o next)
    (htasks : h.machine.pool.tasks = [])
    (hidle : ∀ (i : Nat) (worker : Worker), h.machine.workers[i]? = some worker →
      worker = .idle ∨ worker = .exited) (choice : Bool) :
    h.machine.stepClient c choice ≠ none := by
  have hprogram' := hh.call hprogram
  have hfits : (h.machine.clients c).pc.Fits o.call := hh.faithful.fitting c _ _ hprogram'
  refine Machine.client_moves hh.faithful.known htasks hidle hprogram' ?_ ?_ choice
  · cases o <;> simp [GraphOp.call]
  · intro state others timeoutMs hpc
    cases o with
    | waitBatch ids =>
      have hposition := hh.awaits.position ids _ hprogram'
      rw [hpc] at hposition
      obtain ⟨rfl, before, hids, -⟩ := hposition
      obtain ⟨pending, hcovers, hpending⟩ := hh.covered
      rw [hprogram] at hcovers
      exact hh.admitted (hpending (state + 1) (hcovers.1 ids rfl _ (by simp [hids])))
    | _ => simp [hpc, ClientPc.Fits, GraphOp.call] at hfits

theorem Hosts.returned_at_rest (hh : h.Hosts refusals c rest) (hsound : h.machine.Sound)
    (hstuck : ∀ h', ¬h.Own throws c h') : ∃ value, h.program = .ret value := by
  have hworkers : ∀ i, h.machine.stepWorker i false = none := by
    intro i
    by_contra hmoves
    obtain ⟨m, hm⟩ := Option.ne_none_iff_exists'.mp hmoves
    refine hstuck _ (.inl ⟨i, false, Option.map_eq_some_iff.mpr
      ⟨_, Option.map_eq_some_iff.mpr ⟨m, ?_, rfl⟩, rfl⟩⟩)
    simpa [resolve, Machine.step] using hm
  cases hprogram : h.program with
  | ret value => exact ⟨value, rfl⟩
  | op o next =>
    obtain ⟨m, hm⟩ := Option.ne_none_iff_exists'.mp
      (hh.client_moves hprogram (Machine.empty_of_stuck hsound hworkers)
        (fun _ _ hold => Machine.idle_of_stuck hsound.keyed hworkers hold) (h.reads throws false))
    refine absurd (.inr ⟨false, o, next, hprogram, Option.map_eq_some_iff.mpr
      ⟨_, Option.map_eq_some_iff.mpr ⟨m, ?_, rfl⟩, rfl⟩⟩) (hstuck _)
    simpa [resolve, Machine.step] using hm

theorem sound_step {label : Label} (hsound : h.machine.Sound)
    (hstep : h.step throws c label = some h') : h'.machine.Sound := by
  obtain ⟨w, hw, rfl⟩ := Option.map_eq_some_iff.mp hstep
  obtain ⟨m, hm, rfl⟩ := Option.map_eq_some_iff.mp hw
  rw [machine, advance_watch]
  exact hsound.step hm

end Hosted

namespace SimpleTaskGraph

/-- `RunWithExecutor` by client `c` of a thread pool, started in any state that the
pool gets into. Wherever the pool and its clients have got to meanwhile, refusals,
canceled closures and a stopping executor included: the workers and the client do
not go on forever by themselves, and where they can go on no more after fewer than
2^64 calls of `SubmitEx`, the call has returned; so they get it to its return
without any other client, unless they get to that call of `SubmitEx` first. -/
theorem runWithExecutor_returns (g : SimpleTaskGraph) (options : GraphRunOptions)
    (throws : TaskId → Bool) (poolOptions : ExecutorOptions) (hardwareConcurrency : Nat)
    (programs : Nat → Program Unit) {before : List Label} {w : Watch}
    (hbefore : runs Watch.step (Watch.start poolOptions hardwareConcurrency programs) before =
      some w)
    {c : Nat} {rest : Option (Result GraphRunStats) → Program Unit}
    (hready : (w.machine.clients c).pc = .ready)
    (hprogram : (w.machine.clients c).program =
      (GraphProgram.onExecutor (g.runWithExecutor true options)).bind rest) :
    (WellFounded fun h' h : Hosted (Option (Result GraphRunStats)) => h.Own throws c h') ∧
    ∀ labels h, runs (Hosted.step throws c) ⟨w, g.runWithExecutor true options, {}⟩ labels = some h →
      (h.machine.FirstLap → (∀ h', ¬h.Own throws c h') → ∃ value, h.program = .ret value) ∧
      ∃ h', Relation.ReflTransGen (Hosted.Own throws c) h h' ∧
        (h'.machine.FirstLap → ∃ value, h'.program = .ret value) := by
  have hwf : WellFounded fun h' h : Hosted (Option (Result GraphRunStats)) => h.Own throws c h' :=
    Hosted.own_wellFounded
  have hstart : w.machine.FirstLap →
      Hosted.Hosts true c rest ⟨w, g.runWithExecutor true options, {}⟩ := fun hlap =>
    .start (Watch.Faithful.of_run hbefore hlap) hready hprogram (g.runWithExecutor_covers options)
  have hsound : w.machine.Sound := Machine.Sound.of_run (Watch.runs_machine hbefore)
  have hkept : ∀ (h : Hosted (Option (Result GraphRunStats))) label h',
      (h.machine.FirstLap → h.Hosts true c rest) ∧ h.machine.Sound →
      h.step throws c label = some h' →
        (h'.machine.FirstLap → h'.Hosts true c rest) ∧ h'.machine.Sound := by
    rintro h label h' ⟨hhosts, hsafe⟩ hstep
    refine ⟨fun hlap => ?_, Hosted.sound_step hsafe hstep⟩
    have hbefore := hhosts (Hosted.firstLap_before hstep hlap)
    have hnext : Hosted.Refines throws true c rest h h' := hbefore.step (by simp) hlap hstep
    exact hnext.1
  have hown : ∀ h h' : Hosted (Option (Result GraphRunStats)),
      (h.machine.FirstLap → h.Hosts true c rest) ∧ h.machine.Sound → h.Own throws c h' →
        (h'.machine.FirstLap → h'.Hosts true c rest) ∧ h'.machine.Sound := by
    rintro h h' hh (⟨i, threw, hstep⟩ | ⟨choice, o, next, -, hstep⟩)
    · exact hkept h _ h' hh hstep
    · exact hkept h _ h' hh hstep
  refine ⟨hwf, fun labels h hrun => ?_⟩
  have hreached := runs_invariant hkept ⟨hstart, hsound⟩ hrun
  refine ⟨fun hlap => (hreached.1 hlap).returned_at_rest hreached.2, ?_⟩
  exact exists_final_of_wellFounded hwf hown
    (fun h hh hstuck hlap => (hh.1 hlap).returned_at_rest hh.2 hstuck) hreached

/-- The chain of two nodes, from its first call. -/
theorem runWithExecutor_returns_two :
    ∃ h, Relation.ReflTransGen (Hosted.Own (· == 2) 0) chainOnPool h ∧
      (h.machine.FirstLap → ∃ value, h.program = .ret value) :=
  ((runWithExecutor_returns (build [.addTask true {}, .addTask true {}, .addDependency 1 2]) {}
    (· == 2) { workerCount := 1 } 0 _ (runs_nil _) rfl
    (show (chainOnPool.machine.clients 0).program =
      (GraphProgram.onExecutor chainOnPool.program).bind fun _ => .ret () from rfl)).2
    [] chainOnPool (runs_nil _)).2

end SimpleTaskGraph

end Corekit.Task
