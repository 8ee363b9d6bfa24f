import Corekit.Task.GraphHosted

/-! Every step of a graph and its pool is a step of `RunInternal` among an executor
that runs what it accepts, refuses a closure or gives up a wait; the last two
only when its queue has no room or a look-up comes too late. -/
namespace Corekit.Task
open Corekit.Api Corekit.Foundation

namespace Machine

variable {m m' : Machine} {c : Nat}

theorem marked_mono {label : Label} (h : m.step label = some m') {id : TaskId}
    (hid : id ∈ m.history.marked) : id ∈ m'.history.marked := by
  cases label with
  | worker i threw =>
    obtain ⟨old, hold, move⟩ := stepWorker_cases h
    cases move with
    | stage entry stage next ended move quiet workers clients history =>
      rw [history]
      exact hid
    | mark entry stage next executed failed fn marks next_eq => exact List.mem_append_left _ hid
    | _ => exact hid
  | client d choice =>
    obtain ⟨call, next, -, move⟩ := stepClient_cases h
    cases move <;> exact hid
  | stop =>
    cases Option.some.inj h
    exact hid

theorem logged_mono {label : Label} {P : Call × Answer → Prop} (h : m.step label = some m')
    (hP : m.Logged P) : m'.Logged P := by
  obtain ⟨d, x, hx, hPx⟩ := hP
  have hadvanced : m.Advanced d (m.clients d).log (m.clients d).program := ⟨[], by simp, .nil _⟩
  obtain ⟨trace, hlog, -⟩ := hadvanced.step h
  refine ⟨d, x, ?_, hPx⟩
  rw [hlog]
  exact List.mem_append_left _ hx

/-- Inside `WaitBatch(ids, …, 0)` the ids before the position of the client are
marked done; inside a refused `SubmitEx` the status is an error. -/
structure Awaits (c : Nat) (m : Machine) : Prop where
  position : ∀ ids next, (m.clients c).program = .op (.waitBatch (some ids) 0) next →
    BatchPosition ids m.history.marked True (m.clients c).pc
  refused : ∀ id status, (m.clients c).pc = .undoing id status → status.ok = false

theorem Awaits.of_ready (h : (m.clients c).pc = .ready) : m.Awaits c := by
  constructor
  · intro ids next _
    rw [h]
    trivial
  · intro id status hpc
    rw [h] at hpc
    cases hpc

theorem Awaits.stepClient {choice : Bool} (hm : m.Awaits c) (hknown : m.Known)
    (h : m.stepClient c choice = some m') : m'.Awaits c := by
  obtain ⟨call, next, hprogram, move⟩ := stepClient_cases h
  have hanswer : ∀ {n : Machine} {result : Answer}, (n.answer c call next result).Awaits c :=
    .of_ready (by simp [answer])
  -- a call that goes on keeps its program
  have hstay : ∀ {n : Machine} {pc : ClientPc}, n.clients = m.clients →
      n.history.marked = m.history.marked →
      (∀ ids, call = .waitBatch (some ids) 0 → BatchPosition ids m.history.marked True pc) →
      (∀ id status, pc = .undoing id status → status.ok = false) → (n.setPc c pc).Awaits c := by
    intro n pc hclients hmarked hposition hrefused
    constructor
    · intro ids next' hprogram'
      simp only [setPc, Function.update_self, hclients, hprogram, Cmd.op.injEq] at hprogram' ⊢
      rw [hmarked]
      exact hposition ids hprogram'.1
    · intro id status hpc
      simp only [setPc, Function.update_self] at hpc
      exact hrefused id status hpc
  have hposition : ∀ ids, call = .waitBatch (some ids) 0 →
      BatchPosition ids m.history.marked True (m.clients c).pc := by
    rintro ids rfl
    exact hm.position ids next hprogram
  cases move with
  | reply pool result quiet keyHolder replies => exact hanswer
  | submit hpc hcall => exact hanswer
  | accept options id state hpc ok => exact hanswer
  | undo id refused hpc => exact hanswer
  | register options hpc =>
    refine hstay rfl rfl (fun ids hcall => ?_) (by simp)
    have := hposition ids hcall
    rw [hpc] at this
    exact this.elim
  | refuse options id state hpc refused =>
    refine hstay rfl rfl (fun ids hcall => ?_) ?_
    · have := hposition ids hcall
      rw [hpc] at this
      exact this.elim
    · rintro id' status heq
      cases heq
      exact refused
  | goto pc goes =>
    refine hstay rfl rfl (fun ids hcall => ?_) ?_
    · have hpos := hposition ids hcall
      generalize (m.clients c).pc = pc' at goes hpos
      cases goes with
      | submitEx => cases hcall
      | wait => cases hcall
      | waitBatch =>
        cases hcall
        exact ⟨rfl, [], rfl, by simp⟩
      | found hstate =>
        obtain ⟨hzero, before, hids, hmarked⟩ := hpos
        rw [hknown.table.address _ _ hstate] at hids
        exact ⟨hzero, before, hids, hmarked⟩
      | @waited state timeoutMs id rest _ hdone =>
        obtain ⟨hzero, before, hids, hmarked⟩ := hpos
        refine ⟨hzero, before ++ [state + 1], by rw [hids]; simp, fun _ other hother => ?_⟩
        rcases List.mem_append.mp hother with hother | hother
        · exact hmarked trivial other hother
        · cases List.mem_singleton.mp hother
          exact (hknown.table.flags state).mp hdone
    · rintro id status rfl
      generalize (m.clients c).pc = pc' at goes
      cases goes

theorem Awaits.step {label : Label} (hm : m.Awaits c) (hknown : m.Known)
    (h : m.step label = some m') : m'.Awaits c := by
  by_cases hother : ∀ choice, label ≠ .client c choice
  · have hclient := client_of_other h hother
    constructor
    · intro ids next hprogram
      rw [hclient] at hprogram ⊢
      exact (hm.position ids next hprogram).mono fun id => marked_mono h
    · rw [hclient]
      exact hm.refused
  · obtain ⟨choice, rfl⟩ : ∃ choice, label = .client c choice := by
      push Not at hother
      exact hother
    exact hm.stepClient hknown h

def HasRoom (m : Machine) : Prop :=
  m.pool.stopping = false ∧
    (m.pool.options.queueCapacity = 0 ∨ m.pool.tasks.length < m.pool.options.queueCapacity)

theorem HasRoom.enqueue_ok (h : m.HasRoom) (fn : Closure) (options : TaskSubmitOptions) :
    (m.enqueue fn options).1.ok = true := by
  obtain ⟨hopen, hroom⟩ := h
  have hfull : ¬(m.pool.options.queueCapacity > 0 ∧
      m.pool.tasks.length ≥ m.pool.options.queueCapacity) := by omega
  simp only [enqueue, Pool.enqueue, hopen, Bool.false_eq_true, if_false, if_neg hfull]
  rfl

end Machine

namespace Watch

variable {w : Watch} {m : Machine} {c : Nat}

theorem Faithful.place_unique (hw : w.Faithful) {x y : TaskEntry × Station} (hx : x ∈ w.places)
    (hy : y ∈ w.places) {id : TaskId} (hxid : x.1.fn.id? = some id)
    (hyid : y.1.fn.id? = some id) : x = y := by
  have hentry := hw.named.unique hw.known (mem_accepted_of_place hw.sound hx)
    (mem_accepted_of_place hw.sound hy) hxid hyid
  exact Multiset.inj_on_of_nodup_map hw.sound.tracks.nodup x hx y hy hentry

theorem mem_places_client {choice : Bool} (accepted : List TaskEntry)
    (h : w.machine.stepClient c choice = some m) {x : TaskEntry × Station} (hx : x ∈ w.places) :
    x ∈ places ⟨m, accepted, w.trail⟩ := by
  obtain ⟨-, -, hsame | ⟨entry, htasks, -⟩⟩ := client_tasks h
  · rw [places_same accepted h hsame]
    exact hx
  · rw [places_accept accepted h htasks]
    exact Multiset.mem_cons_of_mem hx

end Watch

namespace Hosted

variable {α : Type} {throws : TaskId → Bool} {refusals : Bool} {c : Nat} {rest : α → Program Unit}
  {h h' : Hosted α} {m' : Machine} {o : GraphOp} {next : o.Res → GraphProgram α}

/-- While the graph runs, the client is in the call that comes next, and its
closures are in place. -/
structure Hosts (refusals : Bool) (c : Nat) (rest : α → Program Unit) (h : Hosted α) : Prop where
  faithful : h.watch.Faithful
  awaits : h.machine.Awaits c
  runs : ∀ o next, h.program = .op o next →
    (h.machine.clients c).program = (GraphProgram.onExecutor h.program).bind rest
  unrefused : refusals = false → ∀ o next, h.program = .op o next →
    ∀ id status, (h.machine.clients c).pc ≠ .undoing id status
  placed : h.around.Placed h.watch.places
  covered : ∃ pending, Covers (fun _ _ => True) (GraphProgram.onExecutor h.program) pending ∧
    ∀ id ∈ pending, id ∈ h.around.closures.map GraphClosure.id

/-- No `TryCancel` of a closure of the graph has returned kOk. -/
def Spared (h : Hosted α) : Prop :=
  ∀ id ∈ h.around.closures.map GraphClosure.id, ¬h.machine.Logged (CancelOk id)

/-- While the graph runs, the executor has room for its closures, and its look-ups
find their task before it is forgotten. -/
def Serves (c : Nat) (h : Hosted α) (label : Label) : Prop :=
  ∀ choice o next, label = .client c choice → h.program = .op o next →
    (∀ options id state, (h.machine.clients c).pc = .enqueueing options id state →
      h.machine.HasRoom) ∧
    ∀ id rest timeoutMs, (h.machine.clients c).pc = .finding id rest timeoutMs →
      id ∉ h.machine.forgotten

theorem answerOf_same {m : Machine} (h : m'.clients c = m.clients c) : answerOf c m m' = none := by
  simp [answerOf, h]

theorem answerOf_setPc {m n : Machine} (hclients : n.clients = m.clients) (pc : ClientPc) :
    answerOf c m (n.setPc c pc) = none := by
  simp [answerOf, Machine.setPc, hclients]

theorem answerOf_answer {m n : Machine} (hclients : n.clients = m.clients) (call : Call)
    (next : Answer → Program Unit) (result : Answer) :
    answerOf c m (n.answer c call next result) = some result := by
  simp [answerOf, Machine.answer, hclients]

/-- What a step of the client does to the graph: its call goes on, or returns as an
executor may answer it. -/
inductive Turn (throws : TaskId → Bool) (refusals : Bool) (c : Nat) (rest : α → Program Unit)
    (h : Hosted α) (o : GraphOp) (next : o.Res → GraphProgram α) (m' : Machine) : Prop where
  | stays (answer : answerOf c h.machine m' = none)
      (program : (m'.clients c).program = (h.machine.clients c).program)
      (unrefused : refusals = false → ∀ id status, (m'.clients c).pc ≠ .undoing id status)
  | returns (result : Answer) (answer : answerOf c h.machine m' = some result)
      (program : (m'.clients c).program =
        (GraphProgram.onExecutor (next (o.read result))).bind rest)
      (ready : (m'.clients c).pc = .ready)
      (acts : h.Spared → Acts throws refusals o h.around (o.read result) (h.around.answered o result))
      (placed : ∀ accepted, (h.around.answered o result).Placed
        (Watch.places ⟨m', accepted, h.watch.trail⟩))

theorem Hosts.call (hh : h.Hosts refusals c rest) (hprogram : h.program = .op o next) :
    (h.machine.clients c).program =
      .op o.call fun result => (GraphProgram.onExecutor (next (o.read result))).bind rest := by
  rw [hh.runs o next hprogram, hprogram]
  rfl

theorem Hosts.turn_reads {choice : Bool} (hh : h.Hosts refusals c rest)
    (hprogram : h.program = .op o next) (hcall : o.call = .readFlag)
    (hclosures : ∀ result, (h.around.answered o result).closures = h.around.closures)
    (hacts : Acts throws refusals o h.around (o.read (.flag (h.reads throws choice)))
      (h.around.answered o (.flag (h.reads throws choice))))
    (hstep : h.machine.stepClient c (h.reads throws choice) = some m') :
    Turn throws refusals c rest h o next m' := by
  have hprogram' := hh.call hprogram
  have hfits : (h.machine.clients c).pc.Fits o.call := hh.faithful.fitting c _ _ hprogram'
  have hready : (h.machine.clients c).pc = .ready := by
    rw [hcall] at hfits
    cases hpc : (h.machine.clients c).pc with
    | ready => rfl
    | _ => simp [hpc, ClientPc.Fits] at hfits
  have hplaces : ∀ accepted, ∀ x ∈ h.watch.places,
      x ∈ Watch.places ⟨m', accepted, h.watch.trail⟩ :=
    fun accepted _ hx => Watch.mem_places_client accepted hstep hx
  simp only [Machine.stepClient, hprogram', hready, hcall, Machine.beginCall,
    Option.some.injEq] at hstep
  subst hstep
  refine .returns (.flag (h.reads throws choice)) (answerOf_answer rfl _ _ _) ?_ ?_
    (fun _ => hacts) fun accepted => hh.placed.same (hclosures _) (hplaces accepted)
  · simp [Machine.answer]
  · simp [Machine.answer]

theorem Hosts.admitted (hh : h.Hosts refusals c rest) {id : TaskId}
    (hid : id ∈ h.around.closures.map GraphClosure.id) : id ∈ h.machine.admitted := by
  obtain ⟨closure, hclosure, rfl⟩ := List.mem_map.mp hid
  obtain ⟨x, hx, hid, -⟩ := hh.placed.placed closure hclosure
  exact hh.faithful.named.admitted (Watch.mem_accepted_of_place hh.faithful.sound hx) hid

theorem Hosts.placed_accept (hh : h.Hosts refusals c rest) {id node slot : Nat} {entry : TaskEntry}
    {places : Multiset (TaskEntry × Station)}
    (hpending : (h.machine.clients c).pc.pendingId = some id) (hid : entry.fn.id? = some id)
    (hplaces : places = (entry, .queued) ::ₘ h.watch.places) {flags : Nat → Bool} :
    Surroundings.Placed { h.around with
      closures := h.around.closures ++ [⟨id, node, slot, .queued⟩], flags := flags } places := by
  constructor
  · rw [List.map_append, List.map_singleton, List.nodup_append]
    refine ⟨hh.placed.nodup, by simp, ?_⟩
    rintro a ha b hb rfl
    cases List.mem_singleton.mp hb
    exact (hh.faithful.known.ledger.pending c _ hpending).2 (hh.admitted ha)
  · rw [hplaces]
    intro closure hclosure
    rcases List.mem_append.mp hclosure with hclosure | hclosure
    · obtain ⟨x, hx, hfound⟩ := hh.placed.placed closure hclosure
      exact ⟨x, Multiset.mem_cons_of_mem hx, hfound⟩
    · cases List.mem_singleton.mp hclosure
      exact ⟨_, Multiset.mem_cons_self _ _, hid, rfl⟩

theorem Hosts.turn_submitEx {choice : Bool} {slot : Nat} {node : TaskId}
    {options : TaskSubmitOptions} {next : Result TaskId → GraphProgram α}
    (hh : h.Hosts refusals c rest) (hprogram : h.program = .op (.submitEx slot node options) next)
    (hserves : refusals = false → h.Serves c (.client c choice))
    (hstep : h.machine.stepClient c choice = some m') :
    Turn throws refusals c rest h (.submitEx slot node options) next m' := by
  have hprogram' := hh.call hprogram
  have hfits : (h.machine.clients c).pc.Fits (.submitEx true options) :=
    hh.faithful.fitting c _ _ hprogram'
  have hcopy := hstep
  simp only [Machine.stepClient, hprogram'] at hstep
  cases hpc : (h.machine.clients c).pc with
  | ready =>
    simp only [hpc, GraphOp.call, Machine.beginCall, Option.some.injEq] at hstep
    subst hstep
    exact .stays (answerOf_setPc rfl _) (by simp [Machine.setPc]) (by simp [Machine.setPc])
  | registering options' =>
    simp only [hpc, Machine.continueCall, Option.some.injEq] at hstep
    subst hstep
    exact .stays (answerOf_setPc rfl _) (by simp [Machine.setPc]) (by simp [Machine.setPc])
  | enqueueing options' id state =>
    simp only [hpc, Machine.continueCall] at hstep
    split_ifs at hstep with hok
    · cases Option.some.inj hstep
      obtain ⟨hbad, -⟩ | ⟨-, htasks⟩ := Watch.enqueue_tasks (m := h.machine)
        (.tracked id state options'.serialKey) options'
      · rw [hok] at hbad
        cases hbad
      · refine .returns (.task (.ok id)) (answerOf_answer rfl _ _ _) (by simp [Machine.answer])
          (by simp [Machine.answer]) (fun _ => .accept h.around slot node options id) ?_
        intro accepted
        refine hh.placed_accept ?_ rfl (Watch.places_accept accepted hcopy htasks)
        rw [hpc]
        rfl
    · cases Option.some.inj hstep
      refine .stays (answerOf_setPc rfl _) (by simp [Machine.setPc, Machine.enqueue])
        fun hrefusals => ?_
      have hroom := (hserves hrefusals choice _ _ rfl hprogram).1 options' id state hpc
      exact absurd (hroom.enqueue_ok _ _) hok
  | undoing id refused =>
    simp only [hpc, Machine.continueCall, Option.some.injEq] at hstep
    subst hstep
    have hallowed : refusals = true := by
      by_contra hfalse
      exact hh.unrefused (by simpa using hfalse) _ _ hprogram id refused hpc
    refine .returns (.task (.error refused)) (answerOf_answer rfl _ _ _) (by simp [Machine.answer])
      (by simp [Machine.answer])
      (fun _ => .refuse h.around slot node options refused hallowed (hh.awaits.refused id refused hpc))
      fun accepted => ?_
    exact hh.placed.same rfl fun x hx => Watch.mem_places_client accepted hcopy hx
  | finding id rest timeoutMs => simp [hpc, ClientPc.Fits] at hfits
  | blocked state rest timeoutMs => simp [hpc, ClientPc.Fits] at hfits

theorem Hosts.ended_of_marked (hh : h.Hosts refusals c rest) {closure : GraphClosure}
    (hclosure : closure ∈ h.around.closures) (hid : closure.id ∈ h.machine.history.marked) :
    closure.phase = .ended := by
  obtain ⟨x, hx, hxid, hphase⟩ := hh.placed.placed closure hclosure
  obtain ⟨entry, outcome, hplace, hentry⟩ := hh.faithful.over_of_marked hid
  cases hh.faithful.place_unique hx hplace hxid hentry
  exact hphase.symm

theorem Hosts.turn_waitBatch {choice : Bool} {ids : List TaskId} {next : Status → GraphProgram α}
    (hh : h.Hosts refusals c rest) (hprogram : h.program = .op (.waitBatch ids) next)
    (hserves : refusals = false → h.Serves c (.client c choice))
    (hstep : h.machine.stepClient c choice = some m') :
    Turn throws refusals c rest h (.waitBatch ids) next m' := by
  have hprogram' := hh.call hprogram
  have hids : ∀ id ∈ ids, id ∈ h.machine.admitted := by
    obtain ⟨pending, hcovers, hpending⟩ := hh.covered
    rw [hprogram] at hcovers
    exact fun id hid => hh.admitted (hpending id (hcovers.1 ids rfl id hid))
  have hfits : (h.machine.clients c).pc.Fits (.waitBatch (some ids) 0) :=
    hh.faithful.fitting c _ _ hprogram'
  have hposition := hh.awaits.position ids _ hprogram'
  have hplaces : ∀ accepted, h.around.Placed (Watch.places ⟨m', accepted, h.watch.trail⟩) :=
    fun accepted => hh.placed.same rfl fun x hx => Watch.mem_places_client accepted hstep hx
  have hreturns : ∀ {status : Status}, m' = h.machine.answer c (.waitBatch (some ids) 0)
      (fun result => (GraphProgram.onExecutor (next result.asStatus)).bind rest)
      (.status status) → Acts throws refusals (.waitBatch ids) h.around status h.around →
      Turn throws refusals c rest h (.waitBatch ids) next m' := by
    rintro status rfl hacts
    exact .returns (.status status) (answerOf_answer rfl _ _ _) (by simp [Machine.answer]; rfl)
      (by simp [Machine.answer]) (fun _ => hacts) hplaces
  have hstays : ∀ {pc : ClientPc}, m' = h.machine.setPc c pc → (∀ id status, pc ≠ .undoing id status) →
      Turn throws refusals c rest h (.waitBatch ids) next m' := by
    rintro pc rfl hpc
    exact .stays (answerOf_setPc rfl _) (by simp [Machine.setPc])
      fun _ => by simpa [Machine.setPc] using hpc
  simp only [Machine.stepClient, hprogram'] at hstep
  cases hpc : (h.machine.clients c).pc with
  | ready =>
    simp only [hpc, GraphOp.call] at hstep
    cases ids with
    | nil => exact hreturns (Option.some.inj hstep).symm (.waited h.around [] _ rfl (by simp))
    | cons id others => exact hstays (Option.some.inj hstep).symm (by simp)
  | finding id others timeoutMs =>
    rw [hpc] at hposition
    obtain ⟨rfl, before, hids', hmarked⟩ := hposition
    simp only [hpc, Machine.continueCall, ne_eq, not_true_eq_false, false_and, if_false] at hstep
    cases hstate : h.machine.pool.states id with
    | some state =>
      simp only [hstate, Option.some.injEq] at hstep
      exact hstays hstep.symm (by simp)
    | none =>
      simp only [hstate, Option.some.injEq] at hstep
      refine hreturns hstep.symm (.gaveUp h.around ids _ ?_ rfl)
      -- the look-up fails only for a task that was forgotten
      by_contra hfalse
      have hrefusals : refusals = false := by simpa using hfalse
      apply (hserves hrefusals choice _ _ rfl hprogram).2 id others 0 hpc
      exact (hh.faithful.known.table.present id (hids id (by simp [hids']))).mp hstate
  | blocked state others timeoutMs =>
    rw [hpc] at hposition
    obtain ⟨rfl, before, hids', hmarked⟩ := hposition
    simp only [hpc, Machine.continueCall] at hstep
    split_ifs at hstep with hdone hzero
    · cases others with
      | nil =>
        refine hreturns (Option.some.inj hstep).symm (.waited h.around ids _ rfl ?_)
        intro closure hclosure hid
        apply hh.ended_of_marked hclosure
        rw [hids'] at hid
        rcases List.mem_append.mp hid with hid | hid
        · exact hmarked trivial _ hid
        · rw [List.mem_singleton.mp hid]
          exact (hh.faithful.known.table.flags state).mp hdone
      | cons id others => exact hstays (Option.some.inj hstep).symm (by simp)
    · exact absurd rfl hzero.1
  | registering options => simp [hpc, ClientPc.Fits] at hfits
  | enqueueing options id state => simp [hpc, ClientPc.Fits] at hfits
  | undoing id refused => simp [hpc, ClientPc.Fits] at hfits

theorem Hosts.turn {choice : Bool} (hh : h.Hosts refusals c rest)
    (hprogram : h.program = .op o next)
    (hserves : refusals = false → h.Serves c (.client c choice))
    (hstep : h.machine.stepClient c (h.reads throws choice) = some m') :
    Turn throws refusals c rest h o next m' := by
  cases o with
  | invoke node =>
    refine hh.turn_reads hprogram rfl (fun _ => rfl) ?_ hstep
    have hreads : h.reads throws choice = throws node := by simp [reads, hprogram]
    rw [hreads]
    exact .invoke h.around node
  | failed slot =>
    refine hh.turn_reads hprogram rfl (fun _ => rfl) ?_ hstep
    have hreads : h.reads throws choice = h.around.flags slot := by simp [reads, hprogram]
    rw [hreads]
    exact .failed h.around slot
  | submitEx slot node options =>
    have hreads : h.reads throws choice = choice := by simp [reads, hprogram]
    rw [hreads] at hstep
    exact hh.turn_submitEx hprogram hserves hstep
  | waitBatch ids =>
    have hreads : h.reads throws choice = choice := by simp [reads, hprogram]
    rw [hreads] at hstep
    exact hh.turn_waitBatch hprogram hserves hstep

theorem advance_watch {w : Watch} {around : Surroundings} : (h.advance c w around).watch = w := by
  unfold advance
  split <;> rfl

theorem advance_none {w : Watch} {around : Surroundings}
    (h' : answerOf c h.machine w.machine = none) :
    h.advance c w around = ⟨w, h.program, around⟩ := by
  unfold advance
  rw [h']
  cases h.program <;> rfl

theorem advance_ret {w : Watch} {around : Surroundings} {value : α} (h' : h.program = .ret value) :
    h.advance c w around = ⟨w, .ret value, around⟩ := by
  unfold advance
  rw [h']

theorem advance_some {w : Watch} {around : Surroundings} {result : Answer}
    (hprogram : h.program = .op o next)
    (h' : answerOf c h.machine w.machine = some result) :
    h.advance c w around = ⟨w, next (o.read result), around.answered o result⟩ := by
  unfold advance
  rw [hprogram, h']

theorem Hosts.still (hh : h.Hosts refusals c rest) {w : Watch} {around : Surroundings}
    (hfaithful : w.Faithful) (hawaits : w.machine.Awaits c)
    (hclient : w.machine.clients c = h.machine.clients c) (hplaced : around.Placed w.places)
    (hids : around.closures.map GraphClosure.id = h.around.closures.map GraphClosure.id) :
    Hosts refusals c rest ⟨w, h.program, around⟩ where
  faithful := hfaithful
  awaits := hawaits
  runs := fun o next hprogram => by
    rw [show machine ⟨w, h.program, around⟩ = w.machine from rfl, hclient]
    exact hh.runs o next hprogram
  unrefused := fun hrefusals o next hprogram => by
    rw [show machine ⟨w, h.program, around⟩ = w.machine from rfl, hclient]
    exact hh.unrefused hrefusals o next hprogram
  placed := hplaced
  covered := by
    obtain ⟨pending, hcovers, hpending⟩ := hh.covered
    refine ⟨pending, hcovers, fun id hid => ?_⟩
    rw [hids]
    exact hpending id hid

theorem Hosts.worker {i : Nat} {threw : Bool} {w : Watch} (hh : h.Hosts refusals c rest)
    (hw : h.watch.step (.worker i threw) = some w) :
    ((h.machine.arrivals (.worker i threw)).foldl (·.arrive throws) h.around).Placed w.places ∧
    (h.Spared → Relation.ReflGen (Executes throws) h.around
      ((h.machine.arrivals (.worker i threw)).foldl (·.arrive throws) h.around)) := by
  obtain ⟨m, hm, rfl⟩ := Option.map_eq_some_iff.mp hw
  have hshift := Watch.worker_shift h.watch.accepted
    (h.watch.accepted ++ m.pool.tasks.drop h.machine.pool.tasks.length) h.watch.trail hm
  have hplaced := hh.placed
  have hunique := fun x hx y hy id => @Watch.Faithful.place_unique h.watch hh.faithful x y hx hy id
  have haccepted : ∀ x ∈ h.watch.places, x.1 ∈ h.watch.accepted :=
    fun x hx => Watch.mem_accepted_of_place hh.faithful.sound hx
  change Watch.WorkerShift _ _ h.watch.places _ _ at hshift
  generalize h.watch.places = before at hshift hplaced hunique haccepted
  generalize Watch.places _ = after at hshift ⊢
  generalize h.machine.arrivals (.worker i threw) = arrivals at hshift ⊢
  cases hshift with
  | stay same marked places =>
    rw [places]
    exact ⟨hplaced, fun _ => .refl⟩
  | move entry s s' others entryMove marked before_eq after_eq =>
    subst before_eq after_eq
    have hself : ∀ x ∈ (entry, s) ::ₘ others, ∀ id, entry.fn.id? = some id →
        x.1.fn.id? = some id → x = (entry, s) := fun x hx id hid hxid =>
      hunique x hx _ (Multiset.mem_cons_self _ _) id hxid hid
    refine ⟨hplaced.move hself entryMove, fun hspared => ?_⟩
    refine hplaced.executes hself (fun closure hclosure state serialKey hfn => ?_) entryMove
    have hentry := haccepted _ (Multiset.mem_cons_self (entry, s) others)
    rw [← Bool.not_eq_true, hh.faithful.canceled_iff hentry hfn]
    exact hspared closure.id (List.mem_map_of_mem hclosure)

/-- What a step must do for the graph: keep the client and the closures together,
and be a step that `RunInternal` expects. -/
def Refines (throws : TaskId → Bool) (refusals : Bool) (c : Nat) (rest : α → Program Unit)
    (h h' : Hosted α) : Prop :=
  Hosts refusals c rest h' ∧ (h.Spared →
    Relation.ReflGen (Cmd.Move (Acts throws refusals) (Executes throws)) (h.program, h.around)
      (h'.program, h'.around))

theorem Hosts.refines_still (hh : h.Hosts refusals c rest) {w : Watch} {around : Surroundings}
    (hfaithful : w.Faithful) (hawaits : w.machine.Awaits c)
    (hclient : w.machine.clients c = h.machine.clients c) (hplaced : around.Placed w.places)
    (hids : around.closures.map GraphClosure.id = h.around.closures.map GraphClosure.id)
    (hexecutes : h.Spared → Relation.ReflGen (Executes throws) h.around around) :
    Refines throws refusals c rest h (h.advance c w around) := by
  rw [advance_none (answerOf_same hclient)]
  refine ⟨hh.still hfaithful hawaits hclient hplaced hids, fun hspared => ?_⟩
  cases hexecutes hspared with
  | refl => exact .refl
  | single hstep => exact .single (.env hstep)

theorem Hosts.refines_client {choice : Bool} {w : Watch} (hh : h.Hosts refusals c rest)
    (hserves : refusals = false → h.Serves c (.client c choice)) (hlap : w.machine.FirstLap)
    (hw : h.watch.step (.client c (h.reads throws choice)) = some w) :
    Refines throws refusals c rest h (h.advance c w h.around) := by
  have hfaithful := hh.faithful.step hlap hw
  obtain ⟨m, hm, rfl⟩ := Option.map_eq_some_iff.mp hw
  have hawaits := hh.awaits.step hh.faithful.known hm
  simp only [Machine.arrivals, List.append_nil] at hfaithful ⊢
  have hplaced : ∀ accepted, h.around.Placed (Watch.places ⟨m, accepted, h.watch.trail⟩) :=
    fun accepted => hh.placed.same rfl fun x hx => Watch.mem_places_client accepted hm hx
  cases hprogram : h.program with
  | ret value =>
    rw [advance_ret hprogram]
    obtain ⟨pending, hcovers, hpending⟩ := hh.covered
    rw [hprogram] at hcovers
    refine ⟨⟨hfaithful, hawaits, by simp, by simp, hplaced _, pending, hcovers, hpending⟩, ?_⟩
    rw [hprogram]
    exact fun _ => .refl
  | op o next =>
    cases hh.turn hprogram hserves hm with
    | stays answer program unrefused =>
      rw [advance_none answer]
      refine ⟨⟨hfaithful, hawaits, ?_, ?_, hplaced _, hh.covered⟩, fun _ => .refl⟩
      · intro o next hprogram
        exact program.trans (hh.runs o next hprogram)
      · intro hrefusals o next _
        exact unrefused hrefusals
    | returns result answer program ready acts placed =>
      rw [advance_some hprogram answer]
      obtain ⟨pending, hcovers, hpending⟩ := hh.covered
      rw [hprogram] at hcovers
      refine ⟨⟨hfaithful, hawaits, fun _ _ _ => program, ?_, placed _, _, hcovers.2 result,
        fun id hid => Surroundings.mem_ids_answered hpending hid⟩, fun hspared => ?_⟩
      · intro _ _ _ _ id status hpc
        rw [show machine ⟨_, _, _⟩ = m from rfl, ready] at hpc
        cases hpc
      · rw [hprogram]
        exact .single (.act (acts hspared))

theorem Hosts.step {label : Label} (hh : h.Hosts refusals c rest)
    (hserves : refusals = false → h.Serves c label) (hlap : h'.machine.FirstLap)
    (hstep : h.step throws c label = some h') : Refines throws refusals c rest h h' := by
  obtain ⟨w, hw, rfl⟩ := Option.map_eq_some_iff.mp hstep
  rw [machine, advance_watch] at hlap
  have hfaithful := hh.faithful.step hlap hw
  have hawaits : w.machine.Awaits c := by
    obtain ⟨m, hm, rfl⟩ := Option.map_eq_some_iff.mp hw
    exact hh.awaits.step hh.faithful.known hm
  have hother : (∀ choice, h.resolve throws c label ≠ .client c choice) →
      w.machine.clients c = h.machine.clients c := by
    intro hne
    obtain ⟨m, hm, rfl⟩ := Option.map_eq_some_iff.mp hw
    exact Machine.client_of_other hm hne
  cases label with
  | worker i threw =>
    obtain ⟨hplaced, hexecutes⟩ := hh.worker hw
    exact hh.refines_still hfaithful hawaits (hother (by simp [resolve])) hplaced
      (Surroundings.ids_foldl_arrive _) hexecutes
  | stop =>
    refine hh.refines_still hfaithful hawaits (hother (by simp [resolve])) ?_ rfl fun _ => .refl
    obtain ⟨m, hm, rfl⟩ := Option.map_eq_some_iff.mp hw
    cases Option.some.inj hm
    simpa [resolve, Machine.arrivals, Watch.places] using hh.placed
  | client d choice =>
    by_cases hd : d = c
    · subst hd
      have hresolve : h.resolve throws d (.client d choice) = .client d (h.reads throws choice) := by
        simp [resolve]
      rw [hresolve] at hw ⊢
      exact hh.refines_client hserves hlap hw
    · have hne : ∀ choice', h.resolve throws c (.client d choice) ≠ .client c choice' := by
        simp [resolve, hd]
      refine hh.refines_still hfaithful hawaits (hother hne) ?_ rfl fun _ => .refl
      obtain ⟨m, hm, rfl⟩ := Option.map_eq_some_iff.mp hw
      simp only [resolve, Machine.arrivals, List.append_nil, List.foldl_nil]
      exact hh.placed.same rfl fun x hx => Watch.mem_places_client _ hm hx

theorem Spared.before {label : Label} (hstep : h.step throws c label = some h')
    (hspared : h'.Spared) : h.Spared := by
  obtain ⟨w, hw, rfl⟩ := Option.map_eq_some_iff.mp hstep
  obtain ⟨m, hm, rfl⟩ := Option.map_eq_some_iff.mp hw
  intro id hid hlogged
  rw [← Surroundings.ids_foldl_arrive (h.machine.arrivals (h.resolve throws c label))] at hid
  generalize List.foldl _ _ _ = around at hid hspared
  have hafter := Machine.logged_mono hm hlogged
  unfold advance at hspared
  split at hspared
  · exact hspared id (Surroundings.ids_answered _ _ hid) hafter
  · exact hspared id hid hafter

theorem firstLap_before {label : Label} (hstep : h.step throws c label = some h')
    (hlap : h'.machine.FirstLap) : h.machine.FirstLap := by
  obtain ⟨w, hw, rfl⟩ := Option.map_eq_some_iff.mp hstep
  rw [machine, advance_watch] at hlap
  exact Watch.firstLap_before _ _ _ hw hlap

/-- A run of the graph on the pool is a run among an executor as `RunInternal`
expects it. -/
theorem Hosts.run {labels : List Label} (hh : h.Hosts refusals c rest)
    (hserves : Meets (Hosted.step throws c) (fun h label => refusals = false → Serves c h label) h
      labels)
    (hrun : Foundation.runs (Hosted.step throws c) h labels = some h')
    (hlap : h'.machine.FirstLap) :
    Hosts refusals c rest h' ∧ (h'.Spared → Relation.ReflTransGen
      (Cmd.Move (Acts throws refusals) (Executes throws)) (h.program, h.around)
      (h'.program, h'.around)) := by
  have hsafe : ∀ (h : Hosted α) label h', (h.machine.FirstLap → h.Hosts refusals c rest) →
      h.step throws c label = some h' → h'.machine.FirstLap ∧ h'.Spared →
      h.machine.FirstLap ∧ h.Spared := fun _ _ _ _ hstep hend =>
    ⟨firstLap_before hstep hend.1, hend.2.before hstep⟩
  have hrefines : ∀ (h : Hosted α) label h', (h.machine.FirstLap → h.Hosts refusals c rest) →
      (refusals = false → Serves c h label) → h.step throws c label = some h' →
      (h'.machine.FirstLap → h'.Hosts refusals c rest) ∧
        (h'.machine.FirstLap ∧ h'.Spared →
          Relation.ReflGen (Cmd.Move (Acts throws refusals) (Executes throws))
            (h.program, h.around) (h'.program, h'.around)) := by
    intro h label h' hh hserves hstep
    have hboth := fun hlap : h'.machine.FirstLap =>
      (hh (firstLap_before hstep hlap)).step hserves hlap hstep
    exact ⟨fun hlap => (hboth hlap).1, fun hend => (hboth hend.1).2 (hend.2.before hstep)⟩
  obtain ⟨hlast, hmoves⟩ := runs_simulates hsafe hrefines (fun _ => hh) hserves hrun
  exact ⟨hlast hlap, fun hspared => (hmoves ⟨hlap, hspared⟩).2⟩

end Hosted

end Corekit.Task
