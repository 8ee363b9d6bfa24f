import Corekit.Task.Lifecycle

/-! Tasks with one serial key. The mutex of a key is held from before the look at
`canceled` until the closure has recorded its outcome, or until its function has
thrown; so the functions of one key take turns, whichever workers call them. -/
namespace Corekit.Task
open Corekit.Api Corekit.Foundation

def Closure.serialKey : Closure → Nat
  | .plain => 0
  | .tracked _ _ serialKey => serialKey

namespace Machine

variable {m m' : Machine} {i : Nat}

/-- A worker that has passed the lock of its key is the holder of the mutex. -/
def Held (m : Machine) : Prop :=
  ∀ (i : Nat) (worker : Worker) (serialKey : Nat), m.workers[i]? = some worker →
    worker.key = some serialKey → m.pool.keyHolder serialKey = some i

theorem Held.set {old new : Worker} (hm : m.Held) (hold : m.workers[i]? = some old)
    (hworkers : m'.workers = m.workers.set i new)
    (hnew : ∀ serialKey, new.key = some serialKey → m'.pool.keyHolder serialKey = some i)
    (hothers : ∀ serialKey j, j ≠ i → m.pool.keyHolder serialKey = some j →
      m'.pool.keyHolder serialKey = some j) : m'.Held := by
  intro j worker serialKey hj hkey
  rw [hworkers] at hj
  by_cases hji : j = i
  · subst hji
    rw [List.getElem?_set_self (List.getElem?_eq_some_iff.mp hold).1] at hj
    cases Option.some.inj hj
    exact hnew serialKey hkey
  · rw [List.getElem?_set_ne (Ne.symm hji)] at hj
    exact hothers serialKey j hji (hm j worker serialKey hj hkey)

theorem Held.same {old new : Worker} (hm : m.Held) (hold : m.workers[i]? = some old)
    (hworkers : m'.workers = m.workers.set i new)
    (hkeys : m'.pool.keyHolder = m.pool.keyHolder)
    (hkey : ∀ serialKey, new.key = some serialKey → old.key = some serialKey) : m'.Held := by
  refine hm.set hold hworkers (fun serialKey hnew => ?_) fun serialKey j _ hj => ?_
  · rw [hkeys]
    exact hm i old serialKey hold (hkey serialKey hnew)
  · rw [hkeys]
    exact hj

theorem Held.release {old new : Worker} (hm : m.Held) (hold : m.workers[i]? = some old)
    (hworkers : m'.workers = m.workers.set i new) {released : Nat}
    (hkeys : m'.pool.keyHolder = (releaseKey m.pool released).keyHolder)
    (howned : released ≠ 0 → old.key = some released) (hnew : new.key = none) : m'.Held := by
  refine hm.set hold hworkers (fun serialKey hkey => ?_) fun serialKey j hji hj => ?_
  · rw [hnew] at hkey
    cases hkey
  · rw [hkeys, releaseKey]
    split
    · exact hj
    · next hzero =>
      have hother : serialKey ≠ released := by
        rintro rfl
        have hself := hm i old serialKey hold (howned hzero)
        exact hji (Option.some.inj (hj.symm.trans hself))
      simpa [hother] using hj

theorem keyHolder_of_lock {entry : TaskEntry} {id state serialKey : Nat} {threw : Bool}
    (hold : m.workers[i]? = some (.inside entry .locking))
    (hfn : entry.fn = .tracked id state serialKey) (h : m.stepWorker i threw = some m') :
    m.pool.keyHolder serialKey = none := by
  simp only [stepWorker, hold, hfn, stepTracked] at h
  split at h
  · cases h
  · next hfree => exact hfree

/-- A closure whose function has thrown leaves without unlocking. -/
theorem unlocking_of_mark {entry : TaskEntry} {id state serialKey : Nat} {threw : Bool}
    {stage : Stage} (hold : m.workers[i]? = some (.inside entry stage))
    (hfn : entry.fn = .tracked id state serialKey)
    (h : m.stepWorker i threw = some (m'.setWorker i (.inside entry .unlocking)))
    (hworkers : m'.workers = m.workers) : stage ≠ .recording true := by
  rintro rfl
  simp only [stepWorker, hold, hfn, stepTracked, Option.some.injEq] at h
  have hslot := congrArg (fun m : Machine => m.workers[i]?) h
  have hlt := (List.getElem?_eq_some_iff.mp hold).1
  simp [setWorker, markTaskDone, hworkers, hlt] at hslot

theorem key_tracked {entry : TaskEntry} {id state serialKey : Nat}
    (hfn : entry.fn = .tracked id state serialKey) (stage : Stage) :
    (Worker.inside entry stage).key =
      if serialKey = 0 ∨ stage = .locking ∨ stage = .recording true then none
      else some serialKey := by
  obtain ⟨fn, priority, seq, ticket⟩ := entry
  obtain rfl : fn = .tracked id state serialKey := hfn
  rfl

theorem key_plain {entry : TaskEntry} (hfn : entry.fn = .plain) (stage : Stage) :
    (Worker.inside entry stage).key = none := by
  obtain ⟨fn, priority, seq, ticket⟩ := entry
  obtain rfl : fn = .plain := hfn
  rfl

theorem Held.stepWorker {threw : Bool} (hm : m.Held) (h : m.stepWorker i threw = some m') :
    m'.Held := by
  obtain ⟨old, hold, hstep⟩ := stepWorker_exact h
  cases hstep with
  | exit empty stopping => exact hm.same hold rfl rfl (by simp [Worker.key])
  | take entry picked => exact hm.same hold rfl rfl (by simp [Worker.key])
  | invoke entry =>
    refine hm.same hold rfl rfl fun serialKey hkey => ?_
    cases hfn : entry.fn with
    | plain =>
      rw [hfn, key_plain hfn] at hkey
      cases hkey
    | tracked id state other =>
      rw [hfn, key_tracked hfn] at hkey
      by_cases hzero : other = 0 <;> simp [hzero] at hkey
  | plainEnd entry fn => exact hm.same hold rfl rfl (by simp [key_plain fn])
  | plainRecord entry failed fn => exact hm.same hold rfl rfl (by simp [Worker.key])
  | @lock entry id state locked fn =>
    have hfree := keyHolder_of_lock hold fn h
    refine hm.set hold rfl (fun serialKey hkey => ?_) fun serialKey j hji hj => ?_
    · rw [key_tracked fn] at hkey
      split at hkey
      · cases hkey
      · cases Option.some.inj hkey
        exact Function.update_self ..
    · have hother : serialKey ≠ locked := by
        rintro rfl
        rw [hfree] at hj
        cases hj
      exact (Function.update_of_ne hother ..).trans hj
  | skip entry fn canceled =>
    exact hm.same hold rfl rfl (by simp [key_tracked fn])
  | start entry fn canceled =>
    exact hm.same hold rfl rfl (by simp [key_tracked fn])
  | finish entry fn =>
    cases threw with
    | false => exact hm.same hold rfl rfl (by simp [key_tracked fn])
    | true =>
      refine hm.release hold rfl rfl (fun hzero => ?_) (by simp [key_tracked fn])
      simp [key_tracked fn, hzero]
  | mark entry stage next fn verdict next_eq =>
    refine hm.same hold rfl (by simp) fun serialKey hkey => ?_
    rcases next_eq with rfl | rfl
    · cases hkey
    · have hstage := unlocking_of_mark hold fn h rfl
      have hlocked : stage ≠ .locking := by
        rintro rfl
        cases verdict
      rw [key_tracked fn] at hkey ⊢
      split at hkey
      · cases hkey
      · next hpassed =>
        rw [← hkey, if_neg]
        exact fun hout => hpassed (hout.imp_right fun hout =>
          (hout.elim (absurd · hlocked) (absurd · hstage)))
  | unlock entry fn =>
    refine hm.release hold rfl rfl (fun hzero => ?_) rfl
    simp [key_tracked fn, hzero]
  | leave => exact hm.same hold rfl rfl (by simp [Worker.key])

theorem Held.of_eq (hm : m.Held) (hworkers : m'.workers = m.workers)
    (hkeys : m'.pool.keyHolder = m.pool.keyHolder) : m'.Held := by
  unfold Held
  rw [hworkers, hkeys]
  exact hm

theorem Held.stepClient {c : Nat} {choice : Bool} (hm : m.Held)
    (h : m.stepClient c choice = some m') : m'.Held := by
  obtain ⟨call, next, -, move⟩ := stepClient_cases h
  cases move with
  | reply pool result quiet keyHolder replies => exact hm.of_eq rfl keyHolder
  | goto pc goes => exact hm.of_eq rfl rfl
  | submit hpc hcall => exact hm.of_eq rfl Pool.enqueue_keyHolder
  | register options hpc => exact hm.of_eq rfl rfl
  | accept options id state hpc ok => exact hm.of_eq rfl Pool.enqueue_keyHolder
  | refuse options id state hpc refused => exact hm.of_eq rfl Pool.enqueue_keyHolder
  | undo id refused hpc => exact hm.of_eq rfl rfl

theorem Held.step {label : Label} (hm : m.Held) (h : m.step label = some m') : m'.Held := by
  cases label with
  | worker i threw => exact hm.stepWorker h
  | client c choice => exact hm.stepClient h
  | stop =>
    cases Option.some.inj h
    exact hm.of_eq rfl rfl

theorem Held.init (options : ExecutorOptions) (hardwareConcurrency : Nat)
    (programs : Nat → Program Unit) : (init options hardwareConcurrency programs).Held := by
  intro i worker serialKey hi hkey
  obtain ⟨-, rfl⟩ := List.mem_replicate.mp (List.mem_of_getElem? hi)
  cases hkey

theorem Held.unique (hm : m.Held) {j : Nat} {worker other : Worker} {serialKey : Nat}
    (hi : m.workers[i]? = some worker) (hj : m.workers[j]? = some other)
    (hkey : worker.key = some serialKey) (hother : other.key = some serialKey) : i = j :=
  Option.some.inj ((hm i worker serialKey hi hkey).symm.trans (hm j other serialKey hj hother))

theorem client_workers {c : Nat} {choice : Bool} (h : m.stepClient c choice = some m') :
    m'.workers = m.workers := by
  obtain ⟨call, next, -, move⟩ := stepClient_cases h
  cases move <;> rfl

end Machine

def Station.isCall : Station → Bool
  | .running => true
  | .ended .returned => true
  | .ended .threw => true
  | _ => false

def Worker.calling (serialKey : Nat) : Worker → Option TaskEntry
  | .inside entry .running => if entry.fn.serialKey = serialKey then some entry else none
  | _ => none

/-- Calls and returns in turn; the entry is the one whose function has not
returned yet. -/
inductive InTurn : List (TaskEntry × Station) → Option TaskEntry → Prop where
  | start : InTurn [] none
  | call {events : List (TaskEntry × Station)} (h : InTurn events none) (entry : TaskEntry) :
      InTurn (events ++ [(entry, .running)]) (some entry)
  | back {events : List (TaskEntry × Station)} {entry : TaskEntry} (h : InTurn events (some entry))
      (outcome : Outcome) : InTurn (events ++ [(entry, .ended outcome)]) none

def Machine.Calls (m : Machine) (serialKey : Nat) (entry : TaskEntry) : Prop :=
  ∃ (i : Nat) (worker : Worker), m.workers[i]? = some worker ∧
    worker.calling serialKey = some entry

def turnsOf (serialKey : Nat) (arrivals : List (TaskEntry × Station)) :
    List (TaskEntry × Station) :=
  arrivals.filter fun x => x.1.fn.serialKey = serialKey && x.2.isCall

theorem turnsOf_append (serialKey : Nat) (arrivals later : List (TaskEntry × Station)) :
    turnsOf serialKey (arrivals ++ later) = turnsOf serialKey arrivals ++ turnsOf serialKey later :=
  List.filter_append ..

namespace Machine

variable {m m' : Machine} {i : Nat} {serialKey : Nat} {entry : TaskEntry}

theorem calling_key {worker : Worker} (hzero : serialKey ≠ 0)
    (h : worker.calling serialKey = some entry) : worker.key = some serialKey := by
  cases worker with
  | inside other stage =>
    cases stage with
    | running =>
      obtain ⟨fn, priority, seq, ticket⟩ := other
      simp only [Worker.calling, Option.ite_none_right_eq_some] at h
      cases fn with
      | plain => exact absurd h.1.symm hzero
      | tracked id state key =>
        obtain rfl : key = serialKey := h.1
        simp [Worker.key, hzero]
    | _ => cases h
  | _ => cases h

theorem Calls.of_set {old new : Worker} (hold : m.workers[i]? = some old)
    (hworkers : m'.workers = m.workers.set i new)
    (hcalling : new.calling serialKey = old.calling serialKey) (entry : TaskEntry) :
    m'.Calls serialKey entry ↔ m.Calls serialKey entry := by
  have hself := List.getElem?_set_self (a := new) (List.getElem?_eq_some_iff.mp hold).1
  unfold Calls
  rw [hworkers]
  constructor
  · rintro ⟨j, worker, hj, hentry⟩
    by_cases hji : i = j
    · subst hji
      cases Option.some.inj (hself.symm.trans hj)
      exact ⟨i, old, hold, hcalling ▸ hentry⟩
    · exact ⟨j, worker, by rwa [List.getElem?_set_ne hji] at hj, hentry⟩
  · rintro ⟨j, worker, hj, hentry⟩
    by_cases hji : i = j
    · subst hji
      cases Option.some.inj (hold.symm.trans hj)
      exact ⟨i, new, hself, hcalling.trans hentry⟩
    · exact ⟨j, worker, by rwa [List.getElem?_set_ne hji], hentry⟩

theorem Held.calls (hm : m.Held) (hzero : serialKey ≠ 0) {worker : Worker}
    (hi : m.workers[i]? = some worker) (hkey : worker.key = some serialKey) :
    m.Calls serialKey entry ↔ worker.calling serialKey = some entry := by
  constructor
  · rintro ⟨j, other, hj, hentry⟩
    cases hm.unique hi hj hkey (calling_key hzero hentry)
    cases Option.some.inj (hi.symm.trans hj)
    exact hentry
  · exact fun h => ⟨i, worker, hi, h⟩

theorem Held.calls_of_set (hm : m.Held) (hzero : serialKey ≠ 0) {old new : Worker}
    (hold : m.workers[i]? = some old) (hkey : old.key = some serialKey)
    (hworkers : m'.workers = m.workers.set i new) :
    m'.Calls serialKey entry ↔ new.calling serialKey = some entry := by
  have hself := List.getElem?_set_self (a := new) (List.getElem?_eq_some_iff.mp hold).1
  unfold Calls
  rw [hworkers]
  constructor
  · rintro ⟨j, worker, hj, hentry⟩
    by_cases hji : i = j
    · subst hji
      cases Option.some.inj (hself.symm.trans hj)
      exact hentry
    · rw [List.getElem?_set_ne hji] at hj
      exact absurd (hm.unique hold hj hkey (calling_key hzero hentry)) hji
  · exact fun hentry => ⟨i, new, hself, hentry⟩

/-- What a worker step is to the functions of one key: nothing, a call or the end
of a call. -/
inductive Turn (serialKey : Nat) (old new : Worker) : List (TaskEntry × Station) → Prop where
  | none (calling : new.calling serialKey = old.calling serialKey) : Turn serialKey old new []
  | call (entry : TaskEntry) (key : old.key = some serialKey)
      (before : old.calling serialKey = .none) (after : new.calling serialKey = some entry) :
      Turn serialKey old new [(entry, .running)]
  | back (entry : TaskEntry) (outcome : Outcome) (key : old.key = some serialKey)
      (before : old.calling serialKey = some entry) (after : new.calling serialKey = .none) :
      Turn serialKey old new [(entry, .ended outcome)]

theorem Turn.quiet {old new : Worker} {arrivals : List (TaskEntry × Station)}
    (harrivals : turnsOf serialKey arrivals = [])
    (hcalling : new.calling serialKey = old.calling serialKey) :
    Turn serialKey old new (turnsOf serialKey arrivals) := by
  rw [harrivals]
  exact .none hcalling

theorem stepWorker_turn {threw : Bool} (hzero : serialKey ≠ 0)
    (h : m.stepWorker i threw = some m') :
    ∃ old new, m.workers[i]? = some old ∧ m'.workers = m.workers.set i new ∧
      Turn serialKey old new (turnsOf serialKey (old.arrivals m.pool threw)) := by
  obtain ⟨old, hold, hstep⟩ := stepWorker_exact h
  have hplain : ∀ {entry : TaskEntry}, entry.fn = .plain → entry.fn.serialKey ≠ serialKey := by
    intro entry hfn
    rw [hfn]
    exact hzero.symm
  cases hstep with
  | exit empty stopping => exact ⟨_, _, hold, rfl, .none rfl⟩
  | take entry picked => exact ⟨_, _, hold, rfl, .none rfl⟩
  | invoke entry =>
    refine ⟨_, _, hold, rfl, ?_⟩
    cases hfn : entry.fn with
    | plain =>
      have hkey := hplain hfn
      refine .quiet ?_ ?_
      · simp [turnsOf, Worker.arrivals, hfn, hzero.symm, Closure.serialKey]
      · simp [Worker.calling, hkey]
    | tracked id state key =>
      refine .quiet (by simp [turnsOf, Worker.arrivals, hfn]) ?_
      dsimp only
      split <;> rfl
  | plainEnd entry fn =>
    have hkey := hplain fn
    refine ⟨_, _, hold, rfl, .quiet ?_ ?_⟩
    · simp [turnsOf, Worker.arrivals, hkey]
    · simp [Worker.calling, hkey]
  | plainRecord entry failed fn =>
    exact ⟨_, _, hold, rfl, .quiet (by simp [turnsOf, Worker.arrivals, Station.isCall]) rfl⟩
  | lock entry fn => exact ⟨_, _, hold, rfl, .none rfl⟩
  | skip entry fn canceled =>
    refine ⟨_, _, hold, rfl, .quiet ?_ rfl⟩
    simp [turnsOf, Worker.arrivals, fn, canceled, Station.isCall]
  | @start entry id state key fn canceled =>
    refine ⟨_, _, hold, rfl, ?_⟩
    by_cases hkey : key = serialKey
    · subst hkey
      have harrivals : turnsOf key ((Worker.inside entry .checking).arrivals m.pool threw) =
          [(entry, .running)] := by
        simp [turnsOf, Worker.arrivals, fn, canceled, Station.isCall, Closure.serialKey]
      rw [harrivals]
      refine .call entry (by simp [key_tracked fn, hzero]) rfl ?_
      simp [Worker.calling, fn, Closure.serialKey]
    · refine .quiet ?_ ?_
      · simp [turnsOf, Worker.arrivals, fn, canceled, Closure.serialKey, hkey]
      · simp [Worker.calling, fn, Closure.serialKey, hkey]
  | @finish entry id state key fn =>
    refine ⟨_, _, hold, rfl, ?_⟩
    by_cases hkey : key = serialKey
    · subst hkey
      have harrivals : turnsOf key ((Worker.inside entry .running).arrivals m.pool threw) =
          [(entry, .ended (.of threw))] := by
        cases threw <;>
          simp [turnsOf, Worker.arrivals, fn, Station.isCall, Closure.serialKey, Outcome.of]
      rw [harrivals]
      refine .back entry _ (by simp [key_tracked fn, hzero]) ?_ rfl
      simp [Worker.calling, fn, Closure.serialKey]
    · refine .quiet ?_ ?_
      · simp [turnsOf, Worker.arrivals, fn, Closure.serialKey, hkey]
      · simp [Worker.calling, fn, Closure.serialKey, hkey]
  | mark entry stage next fn verdict next_eq =>
    refine ⟨_, _, hold, rfl, .quiet ?_ ?_⟩
    · cases stage <;> simp [turnsOf, Worker.arrivals, Station.isCall] <;> cases verdict
    · rcases next_eq with rfl | rfl <;> cases stage <;> first | rfl | cases verdict
  | unlock entry fn => exact ⟨_, _, hold, rfl, .none rfl⟩
  | leave => exact ⟨_, _, hold, rfl, .none rfl⟩

end Machine

namespace Watch

variable {w w' : Watch}

structure Serial (w : Watch) : Prop where
  held : w.machine.Held
  inTurn : ∀ serialKey, serialKey ≠ 0 → ∃ current, InTurn (turnsOf serialKey w.trail) current ∧
    ∀ entry, current = some entry ↔ w.machine.Calls serialKey entry

theorem Serial.start (options : ExecutorOptions) (hardwareConcurrency : Nat)
    (programs : Nat → Program Unit) : (start options hardwareConcurrency programs).Serial where
  held := .init options hardwareConcurrency programs
  inTurn serialKey hzero := by
    refine ⟨none, .start, fun entry => ⟨nofun, ?_⟩⟩
    rintro ⟨i, worker, hi, hentry⟩
    obtain ⟨-, rfl⟩ := List.mem_replicate.mp (List.mem_of_getElem? hi)
    cases hentry

theorem Serial.stepWorker {i : Nat} {threw : Bool} {m : Machine} (hw : w.Serial)
    (h : w.machine.stepWorker i threw = some m) (accepted : List TaskEntry) :
    Serial ⟨m, accepted, w.trail ++ w.machine.arrivals (.worker i threw)⟩ := by
  refine ⟨hw.held.stepWorker h, fun serialKey hzero => ?_⟩
  obtain ⟨old, new, hold, hworkers, hturn⟩ := Machine.stepWorker_turn hzero h
  obtain ⟨current, hevents, hcurrent⟩ := hw.inTurn serialKey hzero
  rw [arrivals_worker hold, turnsOf_append]
  generalize turnsOf serialKey (old.arrivals w.machine.pool threw) = arrivals at hturn ⊢
  cases hturn with
  | none calling =>
    refine ⟨current, by simpa using hevents, fun entry => ?_⟩
    exact (hcurrent entry).trans (Machine.Calls.of_set hold hworkers calling entry).symm
  | call entry key before after =>
    obtain rfl : current = none := by
      refine Option.eq_none_iff_forall_ne_some.mpr fun other hother => ?_
      have hcalling := (hw.held.calls hzero hold key).mp ((hcurrent other).mp hother)
      rw [before] at hcalling
      cases hcalling
    refine ⟨some entry, hevents.call entry, fun other => ?_⟩
    rw [hw.held.calls_of_set hzero hold key hworkers, after]
  | back entry outcome key before after =>
    obtain rfl : current = some entry :=
      (hcurrent entry).mpr ((hw.held.calls hzero hold key).mpr before)
    refine ⟨none, hevents.back outcome, fun other => ?_⟩
    rw [hw.held.calls_of_set hzero hold key hworkers, after]

theorem Serial.of_eq {m : Machine} (hw : w.Serial) (accepted : List TaskEntry)
    (hheld : m.Held) (hworkers : m.workers = w.machine.workers) :
    Serial ⟨m, accepted, w.trail ++ []⟩ := by
  refine ⟨hheld, fun serialKey hzero => ?_⟩
  obtain ⟨current, hevents, hcurrent⟩ := hw.inTurn serialKey hzero
  refine ⟨current, by simpa using hevents, fun entry => (hcurrent entry).trans ?_⟩
  simp only [Machine.Calls, hworkers]

theorem Serial.step {label : Label} (hw : w.Serial) (h : w.step label = some w') : w'.Serial := by
  obtain ⟨m, hm, rfl⟩ := Option.map_eq_some_iff.mp h
  cases label with
  | worker i threw => exact hw.stepWorker hm _
  | client c choice => exact hw.of_eq _ (hw.held.step hm) (Machine.client_workers hm)
  | stop =>
    cases Option.some.inj hm
    exact hw.of_eq _ (hw.held.of_eq rfl rfl) rfl

end Watch

/-- In every run of the executor, at most one worker is between the lock and the
unlock of a key, and the functions of the key are called one after the other: the
next call starts after the one before it has returned or thrown. -/
theorem serial_key_functions_take_turns (options : ExecutorOptions) (hardwareConcurrency : Nat)
    (programs : Nat → Program Unit) (labels : List Label) (w : Watch)
    (hrun : runs Watch.step (Watch.start options hardwareConcurrency programs) labels = some w)
    (serialKey : Nat) (hkey : serialKey ≠ 0) :
    (∀ (i j : Nat) (worker other : Worker), w.machine.workers[i]? = some worker →
      w.machine.workers[j]? = some other → worker.key = some serialKey →
      other.key = some serialKey → i = j) ∧
    ∃ current, InTurn (turnsOf serialKey w.trail) current ∧
      ∀ entry, current = some entry ↔ w.machine.Calls serialKey entry := by
  have hserial : w.Serial := runs_invariant (fun _ _ _ hw hstep => hw.step hstep)
    (.start options hardwareConcurrency programs) hrun
  refine ⟨fun i j worker other hi hj hworker hother => ?_, hserial.inTurn serialKey hkey⟩
  exact hserial.held.unique hi hj hworker hother

/-- Two tasks with key 7 on two workers: the second function is called after the
first has thrown, before its exception is recorded. -/
theorem serial_key_functions_take_turns_seven :
    ∃ w, runs Watch.step (Watch.start { workerCount := 2 } 0 fun _ =>
        .op (.submitEx true { serialKey := 7 }) fun _ =>
          .op (.submitEx true { serialKey := 7 }) fun _ => .ret ())
        (List.replicate 6 (.client 0 false) ++ List.replicate 4 (.worker 0 false) ++
          List.replicate 2 (.worker 1 false) ++ [.worker 0 true] ++
          List.replicate 2 (.worker 1 false)) = some w ∧
      (turnsOf 7 w.trail).map (fun x => (x.1.ticket, x.2)) =
        [(0, .running), (0, .ended .threw), (1, .running)] ∧
      ∃ current, InTurn (turnsOf 7 w.trail) current ∧
        ∀ entry, current = some entry ↔ w.machine.Calls 7 entry := by
  obtain ⟨w, hw, hturns⟩ := Option.map_eq_some_iff.mp (show (runs Watch.step
      (Watch.start { workerCount := 2 } 0 fun _ =>
        .op (.submitEx true { serialKey := 7 }) fun _ =>
          .op (.submitEx true { serialKey := 7 }) fun _ => .ret ())
      (List.replicate 6 (.client 0 false) ++ List.replicate 4 (.worker 0 false) ++
        List.replicate 2 (.worker 1 false) ++ [.worker 0 true] ++
        List.replicate 2 (.worker 1 false))).map
      (fun w => (turnsOf 7 w.trail).map fun x => (x.1.ticket, x.2)) =
        some [(0, .running), (0, .ended .threw), (1, .running)] by decide +kernel)
  exact ⟨w, hw, hturns,
    (serial_key_functions_take_turns _ _ _ _ w hw 7 (by decide)).2⟩

end Corekit.Task
