import Corekit.Task.ExactlyOnce
import Corekit.Task.Retention
import Corekit.Foundation.Journey

/-! The life of a task: accepted into the queue, taken by a worker, called or
skipped, ended, and finally its outcome is recorded. An observer writes down
the accepted entries and the arrivals of each entry; no code reads its notes. -/
namespace Corekit.Task
open Corekit.Api Corekit.Foundation

inductive Outcome where
  | returned
  | threw
  /-- canceled before its function was called -/
  | skipped
  deriving DecidableEq, Repr

def Outcome.of (threw : Bool) : Outcome := if threw then .threw else .returned

inductive Station where
  | queued
  /-- taken by a worker, its function not called yet -/
  | waiting
  /-- inside its function -/
  | running
  | ended (outcome : Outcome)
  /-- its outcome is recorded -/
  | recorded (outcome : Outcome)
  deriving DecidableEq, Repr

namespace Station

def isOver : Station → Bool
  | .recorded _ => true
  | _ => false

def path : Station → List Station
  | .queued => []
  | .waiting => []
  | .running => [.running]
  | .ended .skipped => [.ended .skipped]
  | .ended outcome => [.running, .ended outcome]
  | .recorded .skipped => [.ended .skipped, .recorded .skipped]
  | .recorded outcome => [.running, .ended outcome, .recorded outcome]

theorem path_ended {outcome : Outcome} (h : outcome ≠ .skipped) :
    path (.ended outcome) = path .running ++ [.ended outcome] := by
  cases outcome with
  | skipped => exact absurd rfl h
  | _ => rfl

theorem path_over (outcome : Outcome) :
    path (.recorded outcome) = path (.ended outcome) ++ [.recorded outcome] := by
  cases outcome <;> rfl

end Station

def Closure.id? : Closure → Option TaskId
  | .plain => none
  | .tracked id _ _ => some id

def Worker.place : Worker → Multiset (TaskEntry × Station)
  | .taken entry => {(entry, .waiting)}
  | .inside entry .locking => {(entry, .waiting)}
  | .inside entry .checking => {(entry, .waiting)}
  | .inside entry .running => {(entry, .running)}
  | .inside entry .skipping => {(entry, .ended .skipped)}
  | .inside entry (.recording threw) => {(entry, .ended (.of threw))}
  | _ => 0

@[simp] theorem Worker.place_idle : Worker.idle.place = 0 := rfl

@[simp] theorem Worker.place_taken (entry : TaskEntry) :
    (Worker.taken entry).place = {(entry, .waiting)} := rfl

def Worker.arrivals (p : Pool) (threw : Bool) : Worker → List (TaskEntry × Station)
  | .taken entry =>
    match entry.fn with
    | .plain => [(entry, .running)]
    | .tracked _ _ _ => []
  | .inside entry .checking =>
    match entry.fn with
    | .plain => []
    | .tracked _ state _ =>
      if (p.heap state).canceled then [(entry, .ended .skipped)] else [(entry, .running)]
  | .inside entry .running => [(entry, .ended (.of threw))]
  | .inside entry .skipping => [(entry, .recorded .skipped)]
  | .inside entry (.recording failed) => [(entry, .recorded (.of failed))]
  | _ => []

def Machine.arrivals (m : Machine) : Label → List (TaskEntry × Station)
  | .worker i threw =>
    match m.workers[i]? with
    | some worker => worker.arrivals m.pool threw
    | none => []
  | _ => []

/-- A machine under observation. -/
structure Watch where
  machine : Machine
  /-- the entries that `Enqueue` has accepted -/
  accepted : List TaskEntry := []
  trail : List (TaskEntry × Station) := []

namespace Watch

variable (w : Watch)

def step (label : Label) : Option Watch :=
  (w.machine.step label).map fun m =>
    ⟨m, w.accepted ++ m.pool.tasks.drop w.machine.pool.tasks.length,
      w.trail ++ w.machine.arrivals label⟩

def places : Multiset (TaskEntry × Station) :=
  ↑(w.machine.pool.tasks.map fun entry => (entry, Station.queued)) +
    slotSum (fun _ worker => worker.place) w.machine.workers +
    ↑(w.trail.filter fun x => x.2.isOver)

def Finished (entry : TaskEntry) : Prop := ∃ outcome, (entry, Station.recorded outcome) ∈ w.trail

end Watch

theorem Watch.runs_machine {w w' : Watch} {labels : List Label}
    (h : runs Watch.step w labels = some w') :
    runs Machine.step w.machine labels = some w'.machine := by
  induction labels generalizing w with
  | nil =>
    cases Option.some.inj h
    rfl
  | cons label rest ih =>
    obtain ⟨mid, hmid, hrest⟩ := runs_cons_some.mp h
    obtain ⟨m, hm, rfl⟩ := Option.map_eq_some_iff.mp hmid
    exact runs_cons_some.mpr ⟨m, hm, ih hrest⟩

theorem Watch.exists_run {w : Watch} {m : Machine} {labels : List Label}
    (h : runs Machine.step w.machine labels = some m) :
    ∃ w', runs Watch.step w labels = some w' ∧ w'.machine = m := by
  induction labels generalizing w with
  | nil =>
    cases Option.some.inj h
    exact ⟨w, rfl, rfl⟩
  | cons label rest ih =>
    obtain ⟨mid, hmid, hrest⟩ := runs_cons_some.mp h
    obtain ⟨w', hrun, hm⟩ := ih (w := ⟨mid, _, _⟩) hrest
    exact ⟨w', runs_cons_some.mpr ⟨_, Option.map_eq_some_iff.mpr ⟨mid, hmid, rfl⟩, hrun⟩, hm⟩

def Pool.table (p : Pool) :=
  (p.states, p.pendingIds, p.doneIds, p.nextTaskId, p.heapSize, p.maxRetainedStates)

def Pool.tally (p : Pool) :=
  (p.stats.submitted, p.stats.completed, p.stats.failed, p.stats.canceled)

def countUp (happened : Bool) (n : Nat) : Nat := if happened then (n + 1) % 2 ^ 64 else n

theorem countUp_mod (happened : Bool) (n : Nat) :
    countUp happened (n % 2 ^ 64) = (n + if happened then 1 else 0) % 2 ^ 64 := by
  cases happened with
  | false => rfl
  | true => exact Nat.mod_add_mod _ _ _

/-- Sections that change neither a task state nor what is counted. -/
structure Pool.SameBooks (p q : Pool) : Prop where
  heap : q.heap = p.heap
  table : q.table = p.table
  tally : q.tally = p.tally

theorem Pool.SameBooks.releaseKey (p : Pool) (serialKey : Nat) :
    p.SameBooks (Machine.releaseKey p serialKey) := by
  unfold Machine.releaseKey
  split <;> exact ⟨rfl, rfl, rfl⟩

/-- One entry goes from one station to the next: what that does to the pool, and
what the observer notes. -/
inductive EntryMove (p q : Pool) (entry : TaskEntry) :
    Station → Station → List (TaskEntry × Station) → Prop where
  | take (same : p.SameBooks q) : EntryMove p q entry .queued .waiting []
  | callPlain (fn : entry.fn = .plain) (same : p.SameBooks q) :
      EntryMove p q entry .waiting .running [(entry, .running)]
  | call {id state serialKey : Nat} (fn : entry.fn = .tracked id state serialKey)
      (canceled : (p.heap state).canceled = false)
      (heap : q.heap = Function.update p.heap state { p.heap state with started := true })
      (table : q.table = p.table) (tally : q.tally = p.tally) :
      EntryMove p q entry .waiting .running [(entry, .running)]
  | skip {id state serialKey : Nat} (fn : entry.fn = .tracked id state serialKey)
      (canceled : (p.heap state).canceled = true)
      (heap : q.heap = Function.update p.heap state { p.heap state with started := true })
      (table : q.table = p.table) (tally : q.tally = p.tally) :
      EntryMove p q entry .waiting (.ended .skipped) [(entry, .ended .skipped)]
  | finish (threw : Bool) (same : p.SameBooks q) :
      EntryMove p q entry .running (.ended (.of threw)) [(entry, .ended (.of threw))]
  | record (failed : Bool) (fn : entry.fn = .plain) (heap : q.heap = p.heap)
      (table : q.table = p.table)
      (tally : q.tally = (p.stats.submitted, countUp (!failed) p.stats.completed,
        countUp failed p.stats.failed, p.stats.canceled)) :
      EntryMove p q entry (.ended (.of failed)) (.recorded (.of failed)) [(entry, .recorded (.of failed))]
  | mark (outcome : Outcome) {id state serialKey : Nat}
      (fn : entry.fn = .tracked id state serialKey)
      (pool : q = p.markTaskDone id (outcome = .returned) (outcome = .threw)) :
      EntryMove p q entry (.ended outcome) (.recorded outcome) [(entry, .recorded outcome)]

theorem EntryMove.path {p q : Pool} {entry : TaskEntry} {s s' : Station}
    {arrivals : List (TaskEntry × Station)} (h : EntryMove p q entry s s' arrivals) :
    (arrivals = [] ∧ s'.path = s.path) ∨
      (arrivals = [(entry, s')] ∧ s'.path = s.path ++ [s']) := by
  cases h with
  | take same => exact .inl ⟨rfl, rfl⟩
  | finish threw same =>
    have hnot : Outcome.of threw ≠ .skipped := by cases threw <;> simp [Outcome.of]
    exact .inr ⟨rfl, Station.path_ended hnot⟩
  | record failed fn heap table tally => exact .inr ⟨rfl, Station.path_over _⟩
  | mark outcome fn pool => exact .inr ⟨rfl, Station.path_over _⟩
  | _ => exact .inr ⟨rfl, rfl⟩

namespace Watch

variable {w w' : Watch} {m m' : Machine} {i : Nat}

structure Sound (w : Watch) : Prop where
  tracks : Tracks Station.path w.places w.trail
  accepted : (w.accepted : Multiset TaskEntry) = w.places.map Prod.fst
  tickets : ∀ entry ∈ w.accepted, entry.ticket < w.machine.history.attempts

/-- One worker moves and leaves the queue alone: everything else stays where it
is, and only a recorded outcome stays in sight when the worker drops its entry. -/
theorem places_split {old : Worker} (hold : m.workers[i]? = some old) (accepted : List TaskEntry)
    (trail : List (TaskEntry × Station)) :
    ∃ rest, places ⟨m, accepted, trail⟩ = old.place + rest ∧
      ∀ (m' : Machine) (new : Worker) (accepted' : List TaskEntry)
        (arrivals : List (TaskEntry × Station)), m'.workers = m.workers.set i new →
        m'.pool.tasks = m.pool.tasks →
        places ⟨m', accepted', trail ++ arrivals⟩ =
          new.place + ↑(arrivals.filter fun x => x.2.isOver) + rest := by
  obtain ⟨others, hothers, hset⟩ := slotSum_split (fun _ worker => worker.place) hold
  refine ⟨↑(m.pool.tasks.map fun entry => (entry, Station.queued)) + others +
    ↑(trail.filter fun x => x.2.isOver), ?_, fun m' new accepted' arrivals hworkers htasks => ?_⟩
  · simp only [places, hothers]
    ac_rfl
  · simp only [places, hworkers, htasks, hset, List.filter_append, ← Multiset.coe_add]
    ac_rfl

def markedId (x : TaskEntry × Station) : Option TaskId :=
  if x.2.isOver then x.1.fn.id? else none

/-- What a worker step does to the places: nothing, or one entry moves. -/
inductive WorkerShift (m m' : Machine) (before after : Multiset (TaskEntry × Station)) :
    List (TaskEntry × Station) → Prop where
  | stay (same : m.pool.SameBooks m'.pool) (marked : m'.history.marked = m.history.marked)
      (places : after = before) : WorkerShift m m' before after []
  | move (entry : TaskEntry) (s s' : Station) (rest : Multiset (TaskEntry × Station))
      {arrivals : List (TaskEntry × Station)} (entryMove : EntryMove m.pool m'.pool entry s s' arrivals)
      (marked : m'.history.marked =
        m.history.marked ++ arrivals.filterMap markedId)
      (before_eq : before = (entry, s) ::ₘ rest) (after_eq : after = (entry, s') ::ₘ rest) :
      WorkerShift m m' before after arrivals

theorem shift_stay {old new : Worker} {accepted accepted' : List TaskEntry}
    {trail : List (TaskEntry × Station)} (hold : m.workers[i]? = some old)
    (hworkers : m'.workers = m.workers.set i new) (htasks : m'.pool.tasks = m.pool.tasks)
    (hplace : new.place = old.place) (hsame : m.pool.SameBooks m'.pool)
    (hmarked : m'.history.marked = m.history.marked) :
    WorkerShift m m' (places ⟨m, accepted, trail⟩) (places ⟨m', accepted', trail ++ []⟩) [] := by
  obtain ⟨rest, hbefore, hafter⟩ := places_split hold accepted trail
  refine .stay hsame hmarked ?_
  rw [hafter m' new accepted' [] hworkers htasks, hbefore, hplace]
  simp

theorem shift_move {old new : Worker} {accepted accepted' : List TaskEntry}
    {trail : List (TaskEntry × Station)} {entry : TaskEntry} {s s' : Station}
    (hold : m.workers[i]? = some old) (hworkers : m'.workers = m.workers.set i new)
    (htasks : m'.pool.tasks = m.pool.tasks) (hplace : old.place = {(entry, s)})
    (hnew : new.place = if s'.isOver then 0 else {(entry, s')})
    (hmove : EntryMove m.pool m'.pool entry s s' [(entry, s')])
    (hmarked : m'.history.marked =
      m.history.marked ++ if s'.isOver then entry.fn.id?.toList else []) :
    WorkerShift m m' (places ⟨m, accepted, trail⟩)
      (places ⟨m', accepted', trail ++ [(entry, s')]⟩) [(entry, s')] := by
  obtain ⟨rest, hbefore, hafter⟩ := places_split hold accepted trail
  refine .move entry s s' rest hmove ?_ (by rw [hbefore, hplace, Multiset.singleton_add]) ?_
  · rw [hmarked]
    cases hover : s'.isOver <;> cases hid : entry.fn.id? <;> simp [markedId, hover, hid]
  · rw [hafter m' new accepted' _ hworkers htasks, hnew]
    cases hover : s'.isOver <;> simp [hover]

theorem shift_take {accepted accepted' : List TaskEntry} {trail : List (TaskEntry × Station)}
    {entry : TaskEntry} {index : Nat} (hold : m.workers[i]? = some .idle)
    (hpicked : m.pool.tasks[index]? = some entry)
    (hworkers : m'.workers = m.workers.set i (.taken entry))
    (htasks : m'.pool.tasks = m.pool.tasks.eraseIdx index) (hsame : m.pool.SameBooks m'.pool)
    (hmarked : m'.history.marked = m.history.marked) :
    WorkerShift m m' (places ⟨m, accepted, trail⟩) (places ⟨m', accepted', trail ++ []⟩) [] := by
  obtain ⟨others, hothers, hset⟩ := slotSum_split (fun _ worker => worker.place) hold
  obtain ⟨hlt, rfl⟩ := List.getElem?_eq_some_iff.mp hpicked
  have hqueue : (↑(m.pool.tasks.map fun entry => (entry, Station.queued)) :
      Multiset (TaskEntry × Station)) = (m.pool.tasks[index], Station.queued) ::ₘ
        ↑((m.pool.tasks.eraseIdx index).map fun entry => (entry, Station.queued)) :=
    Multiset.coe_eq_coe.mpr ((List.getElem_cons_eraseIdx_perm hlt).map _).symm
  refine .move m.pool.tasks[index] .queued .waiting
    (↑((m.pool.tasks.eraseIdx index).map fun entry => (entry, Station.queued)) + others +
      ↑(trail.filter fun x => x.2.isOver)) (.take hsame) (by simpa using hmarked) ?_ ?_
  · simp only [places, hothers, hqueue, Worker.place_idle, zero_add, Multiset.cons_add]
  · simp only [places, hworkers, htasks, hset, Worker.place_taken, List.append_nil,
      ← Multiset.singleton_add]
    ac_rfl

theorem arrivals_worker {old : Worker} {threw : Bool} (hold : m.workers[i]? = some old) :
    m.arrivals (.worker i threw) = old.arrivals m.pool threw := by
  simp [Machine.arrivals, hold]

theorem worker_shift (accepted accepted' : List TaskEntry) (trail : List (TaskEntry × Station))
    {threw : Bool} (h : m.stepWorker i threw = some m') :
    WorkerShift m m' (places ⟨m, accepted, trail⟩)
      (places ⟨m', accepted', trail ++ m.arrivals (.worker i threw)⟩)
      (m.arrivals (.worker i threw)) := by
  obtain ⟨old, hold, hstep⟩ := Machine.stepWorker_exact h
  have hsame : m.pool.SameBooks m.pool := ⟨rfl, rfl, rfl⟩
  have hnil : m.history.marked = m.history.marked ++ [] := (List.append_nil _).symm
  rw [arrivals_worker hold]
  cases hstep with
  | exit empty stopping => exact shift_stay hold rfl rfl rfl hsame rfl
  | take entry picked => exact shift_take hold picked rfl rfl ⟨rfl, rfl, rfl⟩ rfl
  | invoke entry =>
    cases hfn : entry.fn with
    | plain =>
      have hworkers : (m.invoke i entry).workers = m.workers.set i (.inside entry .running) := by
        simp [Machine.invoke, Machine.setWorker, hfn]
      simp only [Worker.arrivals, hfn]
      exact shift_move hold hworkers rfl rfl rfl (.callPlain hfn hsame) hnil
    | tracked id state serialKey =>
      simp only [Worker.arrivals, hfn]
      refine shift_stay hold rfl rfl ?_ hsame rfl
      simp only [hfn]
      split_ifs <;> rfl
  | plainEnd entry fn => exact shift_move hold rfl rfl rfl rfl (.finish threw hsame) hnil
  | plainRecord entry failed fn =>
    refine shift_move hold rfl rfl rfl rfl (.record failed fn rfl rfl ?_) ?_
    · cases failed <;> rfl
    · rw [fn]
      exact hnil
  | lock entry fn => exact shift_stay hold rfl rfl rfl ⟨rfl, rfl, rfl⟩ rfl
  | skip entry fn canceled =>
    have harrivals : (Worker.inside entry .checking).arrivals m.pool threw =
        [(entry, .ended .skipped)] := by simp [Worker.arrivals, fn, canceled]
    rw [harrivals]
    exact shift_move hold rfl rfl rfl rfl (.skip fn canceled rfl rfl rfl) hnil
  | start entry fn canceled =>
    have harrivals : (Worker.inside entry .checking).arrivals m.pool threw =
        [(entry, .running)] := by simp [Worker.arrivals, fn, canceled]
    rw [harrivals]
    exact shift_move hold rfl rfl rfl rfl (.call fn canceled rfl rfl rfl) hnil
  | finish entry fn =>
    have hpool : ∀ serialKey,
        m.pool.SameBooks (if threw then Machine.releaseKey m.pool serialKey else m.pool) ∧
        (if threw then Machine.releaseKey m.pool serialKey else m.pool).tasks = m.pool.tasks := by
      intro serialKey
      split
      · exact ⟨.releaseKey _ _, (Pool.Quiet.releaseKey _ _).tasks⟩
      · exact ⟨hsame, rfl⟩
    exact shift_move hold rfl (hpool _).2 rfl rfl (.finish threw (hpool _).1) hnil
  | mark entry stage next fn verdict next_eq =>
    have hnext : next.place = 0 := by rcases next_eq with rfl | rfl <;> rfl
    cases stage with
    | skipping =>
      cases Option.some.inj verdict
      refine shift_move hold rfl (Pool.markTaskDone_tasks ..) rfl hnext (.mark .skipped fn rfl) ?_
      rw [fn]
      rfl
    | recording flag =>
      cases flag with
      | false =>
        cases Option.some.inj verdict
        refine shift_move hold rfl (Pool.markTaskDone_tasks ..) rfl hnext
          (.mark (.of false) fn rfl) ?_
        rw [fn]
        rfl
      | true =>
        cases Option.some.inj verdict
        refine shift_move hold rfl (Pool.markTaskDone_tasks ..) rfl hnext
          (.mark (.of true) fn rfl) ?_
        rw [fn]
        rfl
    | locking => cases verdict
    | checking => cases verdict
    | running => cases verdict
    | unlocking => cases verdict
  | unlock entry fn =>
    exact shift_stay hold rfl (Pool.Quiet.releaseKey _ _).tasks rfl (.releaseKey _ _) rfl
  | leave => exact shift_stay hold rfl rfl rfl ⟨rfl, rfl, rfl⟩ rfl

theorem tracks_worker (accepted : List TaskEntry) {trail : List (TaskEntry × Station)}
    {threw : Bool} (h : Tracks Station.path (places ⟨m, accepted, trail⟩) trail)
    (hstep : m.stepWorker i threw = some m') :
    Tracks Station.path (places ⟨m', accepted, trail ++ m.arrivals (.worker i threw)⟩)
        (trail ++ m.arrivals (.worker i threw)) ∧
      (places ⟨m', accepted, trail ++ m.arrivals (.worker i threw)⟩).map Prod.fst =
        (places ⟨m, accepted, trail⟩).map Prod.fst := by
  have hshift := worker_shift accepted accepted trail hstep
  generalize m.arrivals (.worker i threw) = arrivals at hshift ⊢
  cases hshift with
  | stay same marked places =>
    rw [places, List.append_nil]
    exact ⟨h, rfl⟩
  | move entry s s' rest entryMove marked before_eq after_eq =>
    rw [before_eq] at h
    rw [before_eq, after_eq]
    refine ⟨?_, by simp⟩
    rcases entryMove.path with ⟨rfl, hpath⟩ | ⟨rfl, hpath⟩
    · rw [List.append_nil]
      exact h.pass hpath
    · exact h.move hpath

theorem worker_tasks {threw : Bool} (h : m.stepWorker i threw = some m') :
    m'.pool.tasks.length ≤ m.pool.tasks.length := by
  obtain ⟨old, hold, move⟩ := Machine.stepWorker_cases h
  cases move with
  | take entry picked => exact List.length_eraseIdx_le ..
  | stage entry stage next ended move quiet workers clients history => rw [quiet.tasks]
  | mark entry stage next executed failed fn marks next_eq =>
    exact (congrArg List.length (Pool.markTaskDone_tasks ..)).le
  | _ => exact le_rfl

theorem enqueue_tasks (fn : Closure) (options : TaskSubmitOptions) :
    ((m.enqueue fn options).1.ok = false ∧ (m.enqueue fn options).2.pool.tasks = m.pool.tasks) ∨
      ((m.enqueue fn options).1.ok = true ∧ (m.enqueue fn options).2.pool.tasks =
        m.pool.tasks ++
          [⟨fn, options.priority, (m.pool.enqueueSeq + 1) % 2 ^ 64, m.history.attempts⟩]) := by
  cases hok : (m.enqueue fn options).1.ok with
  | false => exact .inl ⟨rfl, (Pool.enqueue_refuses hok).tasks⟩
  | true => exact .inr ⟨rfl, (Pool.enqueue_accepts hok).tasks⟩

theorem client_tasks {c : Nat} {choice : Bool} (h : m.stepClient c choice = some m') :
    m'.workers = m.workers ∧ m.history.attempts ≤ m'.history.attempts ∧
      (m'.pool.tasks = m.pool.tasks ∨ ∃ entry, m'.pool.tasks = m.pool.tasks ++ [entry] ∧
        entry.ticket = m.history.attempts ∧ m'.history.attempts = m.history.attempts + 1) := by
  have henqueue : ∀ (fn : Closure) (options : TaskSubmitOptions),
      (m.enqueue fn options).2.pool.tasks = m.pool.tasks ∨
        ∃ entry, (m.enqueue fn options).2.pool.tasks = m.pool.tasks ++ [entry] ∧
          entry.ticket = m.history.attempts ∧
          (m.enqueue fn options).2.history.attempts = m.history.attempts + 1 := by
    intro fn options
    rcases enqueue_tasks (m := m) fn options with ⟨-, htasks⟩ | ⟨-, htasks⟩
    · exact .inl htasks
    · exact .inr ⟨_, htasks, rfl, rfl⟩
  obtain ⟨call, next, -, move⟩ := Machine.stepClient_cases h
  cases move with
  | reply pool result quiet keyHolder replies => exact ⟨rfl, le_rfl, .inl quiet.tasks⟩
  | submit hpc hcall => exact ⟨rfl, Nat.le_succ _, henqueue _ _⟩
  | accept options id state hpc ok => exact ⟨rfl, Nat.le_succ _, henqueue _ _⟩
  | refuse options id state hpc refused => exact ⟨rfl, Nat.le_succ _, henqueue _ _⟩
  | goto pc goes => exact ⟨rfl, le_rfl, .inl rfl⟩
  | register options hpc => exact ⟨rfl, le_rfl, .inl rfl⟩
  | undo id refused hpc => exact ⟨rfl, le_rfl, .inl rfl⟩

theorem Sound.stepWorker {threw : Bool} (hw : w.Sound)
    (hstep : w.machine.stepWorker i threw = some m) :
    Sound ⟨m, w.accepted ++ m.pool.tasks.drop w.machine.pool.tasks.length,
      w.trail ++ w.machine.arrivals (.worker i threw)⟩ := by
  obtain ⟨htracks, hitems⟩ := tracks_worker w.accepted hw.tracks hstep
  have hdrop := List.drop_eq_nil_of_le (worker_tasks hstep)
  simp only [hdrop, List.append_nil]
  constructor
  · exact htracks
  · exact hw.accepted.trans hitems.symm
  · rw [(Machine.worker_accepted hstep).2]
    exact hw.tickets

theorem Sound.stepClient {c : Nat} {choice : Bool} (hw : w.Sound)
    (hstep : w.machine.stepClient c choice = some m) :
    Sound ⟨m, w.accepted ++ m.pool.tasks.drop w.machine.pool.tasks.length,
      w.trail ++ w.machine.arrivals (.client c choice)⟩ := by
  obtain ⟨hworkers, hattempts, hsame | ⟨entry, htasks, hticket, hnext⟩⟩ := client_tasks hstep
  · have hplaces : places ⟨m, w.accepted, w.trail⟩ = w.places := by
      simp only [places, hworkers, hsame]
    simp only [hsame, List.drop_length, List.append_nil, Machine.arrivals]
    constructor
    · exact hplaces ▸ hw.tracks
    · exact hplaces ▸ hw.accepted
    · exact fun entry hentry => lt_of_lt_of_le (hw.tickets entry hentry) hattempts
  · have hplaces : places ⟨m, w.accepted ++ [entry], w.trail⟩ =
        (entry, Station.queued) ::ₘ w.places := by
      simp only [places, hworkers, htasks, List.map_append, List.map_singleton,
        ← Multiset.coe_add, Multiset.coe_singleton, ← Multiset.singleton_add]
      ac_rfl
    have hnew : entry ∉ w.places.map Prod.fst := by
      rw [← hw.accepted, Multiset.mem_coe]
      intro hentry
      have hlt := hw.tickets entry hentry
      omega
    simp only [htasks, List.drop_left, List.append_nil, Machine.arrivals]
    constructor
    · rw [hplaces]
      exact hw.tracks.enter hnew rfl
    · rw [hplaces, Multiset.map_cons, ← hw.accepted, ← Multiset.coe_add, Multiset.coe_singleton,
        add_comm, Multiset.singleton_add]
    · intro other hother
      dsimp only at hother ⊢
      rcases List.mem_append.mp hother with hother | hother
      · exact lt_of_lt_of_le (hw.tickets other hother) hattempts
      · cases List.mem_singleton.mp hother
        omega

theorem Sound.step {label : Label} (hw : w.Sound) (h : w.step label = some w') : w'.Sound := by
  obtain ⟨m, hm, rfl⟩ := Option.map_eq_some_iff.mp h
  cases label with
  | worker i threw => exact hw.stepWorker hm
  | client c choice => exact hw.stepClient hm
  | stop =>
    cases Option.some.inj hm
    simp only [List.drop_length, List.append_nil, Machine.arrivals]
    exact ⟨hw.tracks, hw.accepted, hw.tickets⟩

def start (options : ExecutorOptions) (hardwareConcurrency : Nat)
    (programs : Nat → Program Unit) : Watch :=
  { machine := Machine.init options hardwareConcurrency programs }

theorem places_start (options : ExecutorOptions) (hardwareConcurrency : Nat)
    (programs : Nat → Program Unit) : (start options hardwareConcurrency programs).places = 0 := by
  have hslots : slotSum (fun _ worker => worker.place)
      (Machine.init options hardwareConcurrency programs).workers = 0 := by
    apply slotSum_eq_zero
    intro i worker hi
    obtain ⟨-, rfl⟩ := List.mem_replicate.mp (List.mem_of_getElem? hi)
    rfl
  simp only [places, start, hslots]
  rfl

theorem Sound.start (options : ExecutorOptions) (hardwareConcurrency : Nat)
    (programs : Nat → Program Unit) : (start options hardwareConcurrency programs).Sound := by
  have hplaces := places_start options hardwareConcurrency programs
  constructor
  · rw [hplaces]
    exact .empty
  · rw [hplaces]
    rfl
  · exact fun entry hentry => absurd hentry List.not_mem_nil

end Watch

end Corekit.Task
