import Corekit.Task.Moves

/-! The order in which the workers take the tasks: which entry of the queue a
policy picks, and in what order the entries leave along a run. -/
namespace Corekit.Task
open Corekit.Api Corekit.Foundation

namespace Pool

/-- The entry is not served before one of this score and sequence number. -/
def After (bestScore bestSeq : Nat) (entry : TaskEntry) : Prop :=
  score entry.priority ≤ bestScore ∧ (score entry.priority = bestScore → bestSeq ≤ entry.seq)

theorem pickFrom_spec (best bestScore bestSeq : Nat) (rest : List TaskEntry) (i : Nat) :
    (pickFrom best bestScore bestSeq rest i = best ∧ ∀ e ∈ rest, After bestScore bestSeq e) ∨
      ∃ j entry, pickFrom best bestScore bestSeq rest i = i + j ∧ rest[j]? = some entry ∧
        (score entry.priority > bestScore ∨
          (score entry.priority = bestScore ∧ entry.seq < bestSeq)) ∧
        ∀ e ∈ rest, After (score entry.priority) entry.seq e := by
  induction rest generalizing best bestScore bestSeq i with
  | nil => exact .inl ⟨rfl, by simp⟩
  | cons first rest ih =>
    rw [pickFrom]
    split_ifs with hbetter
    · right
      rcases ih i (score first.priority) first.seq (i + 1) with ⟨hpick, hrest⟩ |
        ⟨j, entry, hpick, hentry, hbest, hrest⟩
      · refine ⟨0, first, hpick, rfl, hbetter, List.forall_mem_cons.mpr ⟨?_, hrest⟩⟩
        exact ⟨Nat.le_refl _, fun _ => Nat.le_refl _⟩
      · refine ⟨j + 1, entry, by omega, hentry, by omega, List.forall_mem_cons.mpr ⟨?_, hrest⟩⟩
        exact ⟨by omega, fun heq => by omega⟩
    · rcases ih best bestScore bestSeq (i + 1) with ⟨hpick, hrest⟩ |
        ⟨j, entry, hpick, hentry, hbest, hrest⟩
      · refine .inl ⟨hpick, List.forall_mem_cons.mpr ⟨?_, hrest⟩⟩
        exact ⟨by omega, fun heq => by omega⟩
      · refine .inr ⟨j + 1, entry, by omega, hentry, hbest, List.forall_mem_cons.mpr ⟨?_, hrest⟩⟩
        exact ⟨by omega, fun heq => by omega⟩

def Serves (p : Pool) (entry : TaskEntry) : Prop :=
  match p.options.policy with
  | .kFifo | .kFair => ∀ other ∈ p.tasks, entry.seq ≤ other.seq
  | .kPriority | .kHybridFairPriority =>
    ∀ other ∈ p.tasks, score other.priority ≤ score entry.priority ∧
      (other.priority = entry.priority → entry.seq ≤ other.seq)

def Rising (tasks : List TaskEntry) : Prop := tasks.Pairwise fun a b => a.seq < b.seq

theorem pickFrom_after {first entry : TaskEntry} {rest : List TaskEntry}
    (hpick : (first :: rest)[pickFrom 0 (score first.priority) first.seq rest 1]? = some entry) :
    ∀ other ∈ first :: rest, After (score entry.priority) entry.seq other := by
  rcases pickFrom_spec 0 (score first.priority) first.seq rest 1 with ⟨hindex, hrest⟩ |
    ⟨j, found, hindex, hfound, hbest, hrest⟩
  · rw [hindex] at hpick
    cases Option.some.inj hpick
    exact List.forall_mem_cons.mpr ⟨⟨Nat.le_refl _, fun _ => Nat.le_refl _⟩, hrest⟩
  · rw [hindex, Nat.add_comm, List.getElem?_cons_succ, hfound] at hpick
    cases Option.some.inj hpick
    exact List.forall_mem_cons.mpr ⟨⟨by omega, fun heq => by omega⟩, hrest⟩

theorem pickNextTaskIndexLocked_serves {p : Pool} {entry : TaskEntry} (hrising : Rising p.tasks)
    (hpick : p.tasks[p.pickNextTaskIndexLocked]? = some entry) : p.Serves entry := by
  rw [pickNextTaskIndexLocked] at hpick
  cases htasks : p.tasks with
  | nil => simp [htasks] at hpick
  | cons first rest =>
    simp only [htasks] at hpick hrising
    have hfront : first = entry → ∀ other ∈ p.tasks, entry.seq ≤ other.seq := by
      rintro rfl
      rw [htasks]
      refine List.forall_mem_cons.mpr ⟨Nat.le_refl _, fun other hother => ?_⟩
      exact Nat.le_of_lt ((List.pairwise_cons.mp hrising).1 other hother)
    have hscan : (first :: rest)[pickFrom 0 (score first.priority) first.seq rest 1]? = some entry →
        ∀ other ∈ p.tasks, score other.priority ≤ score entry.priority ∧
          (other.priority = entry.priority → entry.seq ≤ other.seq) := by
      intro hentry other hother
      obtain ⟨hscore, hseq⟩ := pickFrom_after hentry other (htasks ▸ hother)
      exact ⟨hscore, fun heq => hseq (congrArg score heq)⟩
    rw [Serves]
    cases hpolicy : p.options.policy with
    | kFifo | kFair =>
      simp only [hpolicy, true_or, or_true, if_true, List.getElem?_cons_zero] at hpick
      exact hfront (Option.some.inj hpick)
    | kPriority | kHybridFairPriority =>
      simp only [hpolicy, reduceCtorEq, or_self, if_false] at hpick
      exact hscan hpick

theorem Serves.first {p : Pool} {entry : TaskEntry} {before after : List TaskEntry}
    (h : p.Serves entry) (hrising : Rising p.tasks) (htasks : p.tasks = before ++ entry :: after) :
    ∀ other ∈ before, other.priority ≠ entry.priority := by
  intro other hother heq
  have hmem : other ∈ p.tasks := htasks ▸ List.mem_append_left _ hother
  have hle : entry.seq ≤ other.seq := by
    rw [Serves] at h
    split at h
    · exact h other hmem
    · exact h other hmem
    · exact (h other hmem).2 heq
    · exact (h other hmem).2 heq
  rw [htasks] at hrising
  have hlt := (List.pairwise_append.mp hrising).2.2 other hother entry List.mem_cons_self
  omega

end Pool

section Frames

variable (p : Pool) (id : TaskId) (executed failed : Bool) (serialKey : Nat)

theorem Pool.markTaskDone_enqueueSeq :
    (p.markTaskDone id executed failed).enqueueSeq = p.enqueueSeq := by
  unfold Pool.markTaskDone
  split
  · rfl
  · dsimp only
    split_ifs <;> rfl

theorem Pool.tryCancel_enqueueSeq : (p.tryCancel id).2.enqueueSeq = p.enqueueSeq := by
  unfold Pool.tryCancel
  split
  · rfl
  · split <;> rfl

theorem Machine.releaseKey_enqueueSeq :
    (Machine.releaseKey p serialKey).enqueueSeq = p.enqueueSeq := by
  unfold Machine.releaseKey
  split <;> rfl

end Frames

/-- The entry that a step takes out of the queue. -/
def Machine.picked (m : Machine) : Label → Option TaskEntry
  | .worker i _ =>
    match m.workers[i]? with
    | some .idle => m.pool.tasks[m.pool.pickNextTaskIndexLocked]?
    | _ => none
  | _ => none

/-- What one step does to the queue. -/
inductive QueueMove (m m' : Machine) : Label → Prop where
  | keep {label : Label} (picked : m.picked label = none)
      (tasks : m'.pool.tasks = m.pool.tasks) (seq : m'.pool.enqueueSeq = m.pool.enqueueSeq) :
      QueueMove m m' label
  | append {c : Nat} {choice : Bool} (entry : TaskEntry)
      (tasks : m'.pool.tasks = m.pool.tasks ++ [entry])
      (numbered : entry.seq = (m.pool.enqueueSeq + 1) % 2 ^ 64)
      (seq : m'.pool.enqueueSeq = entry.seq) : QueueMove m m' (.client c choice)
  | take {i : Nat} {threw : Bool} (entry : TaskEntry)
      (picked : m.picked (.worker i threw) = some entry)
      (found : m.pool.tasks[m.pool.pickNextTaskIndexLocked]? = some entry)
      (tasks : m'.pool.tasks = m.pool.tasks.eraseIdx m.pool.pickNextTaskIndexLocked)
      (seq : m'.pool.enqueueSeq = m.pool.enqueueSeq) : QueueMove m m' (.worker i threw)

namespace Machine

variable {m m' : Machine}

theorem enqueue_move (fn : Closure) (options : TaskSubmitOptions) :
    ((m.enqueue fn options).2.pool.tasks = m.pool.tasks ∧
      (m.enqueue fn options).2.pool.enqueueSeq = m.pool.enqueueSeq) ∨
    ∃ entry : TaskEntry, (m.enqueue fn options).2.pool.tasks = m.pool.tasks ++ [entry] ∧
      entry.seq = (m.pool.enqueueSeq + 1) % 2 ^ 64 ∧
      (m.enqueue fn options).2.pool.enqueueSeq = entry.seq := by
  unfold Machine.enqueue Pool.enqueue
  split_ifs
  · exact .inl ⟨rfl, rfl⟩
  · exact .inl ⟨rfl, rfl⟩
  · exact .inr ⟨_, rfl, rfl, rfl⟩

theorem queueMove_worker {i : Nat} {threw : Bool} (h : m.stepWorker i threw = some m') :
    QueueMove m m' (.worker i threw) := by
  obtain ⟨old, hold, move⟩ := stepWorker_exact h
  -- only a worker at the top of its loop looks at the queue
  have hkeep : old ≠ .idle → m'.pool.tasks = m.pool.tasks →
      m'.pool.enqueueSeq = m.pool.enqueueSeq → QueueMove m m' (.worker i threw) := by
    intro hbusy htasks hseq
    refine .keep ?_ htasks hseq
    cases old with
    | idle => exact absurd rfl hbusy
    | _ => simp only [picked, hold]
  cases move with
  | exit empty stopping => exact .keep (by simp [picked, hold, empty]) rfl rfl
  | take entry hpicked =>
    exact .take entry (by simp [picked, hold, hpicked]) hpicked rfl rfl
  | finish entry fn =>
    apply hkeep (by simp)
    · cases threw
      · rfl
      · exact (Pool.Quiet.releaseKey ..).tasks
    · cases threw
      · rfl
      · exact releaseKey_enqueueSeq ..
  | mark entry stage next fn verdict next_eq =>
    exact hkeep (by simp) (Pool.markTaskDone_tasks ..) (Pool.markTaskDone_enqueueSeq ..)
  | unlock entry fn =>
    exact hkeep (by simp) (Pool.Quiet.releaseKey ..).tasks (releaseKey_enqueueSeq ..)
  | _ => exact hkeep (by simp) rfl rfl

theorem queueMove_client {c : Nat} {choice : Bool} (h : m.stepClient c choice = some m') :
    QueueMove m m' (.client c choice) := by
  obtain ⟨call, next, -, move⟩ := stepClient_exact h
  have hkeep : m'.pool.tasks = m.pool.tasks → m'.pool.enqueueSeq = m.pool.enqueueSeq →
      QueueMove m m' (.client c choice) := .keep rfl
  have henqueue : ∀ fn options, m'.pool = (m.enqueue fn options).2.pool →
      QueueMove m m' (.client c choice) := by
    intro fn options hpool
    rcases enqueue_move (m := m) fn options with ⟨htasks, hseq⟩ | ⟨entry, htasks, hnumber, hseq⟩
    · exact hkeep (hpool ▸ htasks) (hpool ▸ hseq)
    · exact .append entry (hpool ▸ htasks) hnumber (hpool ▸ hseq)
  cases move with
  | cancel id hpc hcall =>
    exact hkeep (Pool.Quiet.tryCancel ..).tasks (Pool.tryCancel_enqueueSeq ..)
  | submit hpc hcall => exact henqueue _ _ rfl
  | accept options id state hpc ok => exact henqueue _ _ rfl
  | refuse options id state hpc refused => exact henqueue _ _ rfl
  | _ => exact hkeep rfl rfl

theorem queueMove {label : Label} (h : m.step label = some m') : QueueMove m m' label := by
  cases label with
  | worker i threw => exact queueMove_worker h
  | client c choice => exact queueMove_client h
  | stop =>
    cases Option.some.inj h
    exact .keep rfl rfl rfl

end Machine

/-- A machine with the entries that have come into its queue and those that a
worker has taken out, in this order. -/
structure Schedule where
  machine : Machine
  enqueued : List TaskEntry := []
  dequeued : List TaskEntry := []

namespace Schedule

variable (w : Schedule)

def step (label : Label) : Option Schedule :=
  (w.machine.step label).map fun m =>
    ⟨m, w.enqueued ++ m.pool.tasks.drop w.machine.pool.tasks.length,
      w.dequeued ++ (w.machine.picked label).toList⟩

def start (options : ExecutorOptions) (hardwareConcurrency : Nat)
    (programs : Nat → Program Unit) : Schedule :=
  ⟨.init options hardwareConcurrency programs, [], []⟩

def ofPriority (priority : TaskPriority) (entries : List TaskEntry) : List TaskEntry :=
  entries.filter fun entry => entry.priority = priority

structure InOrder : Prop where
  rising : Pool.Rising w.machine.pool.tasks
  numbered : ∀ entry ∈ w.machine.pool.tasks, entry.seq ≤ w.enqueued.length
  /-- in each priority, the entries leave as they came -/
  stable : ∀ priority, ofPriority priority w.enqueued =
    ofPriority priority w.dequeued ++ ofPriority priority w.machine.pool.tasks

structure Sound : Prop where
  counted : w.machine.pool.enqueueSeq = w.enqueued.length % 2 ^ 64
  inOrder : w.enqueued.length < 2 ^ 64 → w.InOrder

variable {w} {m : Machine}

theorem ofPriority_append (priority : TaskPriority) (left right : List TaskEntry) :
    ofPriority priority (left ++ right) = ofPriority priority left ++ ofPriority priority right :=
  List.filter_append ..

theorem InOrder.append {entry : TaskEntry} (h : w.InOrder)
    (htasks : m.pool.tasks = w.machine.pool.tasks ++ [entry])
    (hseq : entry.seq = w.enqueued.length + 1) :
    InOrder ⟨m, w.enqueued ++ [entry], w.dequeued⟩ := by
  constructor
  · dsimp only
    rw [htasks, Pool.Rising, List.pairwise_append]
    refine ⟨h.rising, List.pairwise_singleton .., ?_⟩
    intro old hold new hnew
    cases List.mem_singleton.mp hnew
    have := h.numbered old hold
    omega
  · dsimp only
    rw [htasks, List.length_append, List.length_singleton]
    intro other hother
    rcases List.mem_append.mp hother with hold | hnew
    · have := h.numbered other hold
      omega
    · cases List.mem_singleton.mp hnew
      omega
  · intro priority
    dsimp only
    rw [htasks, ofPriority_append, ofPriority_append, h.stable priority, List.append_assoc]

theorem ofPriority_take {entry : TaskEntry} {before : List TaskEntry} (after : List TaskEntry)
    (hfirst : ∀ other ∈ before, other.priority ≠ entry.priority) (priority : TaskPriority) :
    ofPriority priority (before ++ entry :: after) =
      ofPriority priority [entry] ++ ofPriority priority (before ++ after) := by
  rw [ofPriority_append, ofPriority_append, ← List.singleton_append, ofPriority_append]
  by_cases hpriority : entry.priority = priority
  · have hnone : ofPriority priority before = [] := by
      apply List.filter_eq_nil_iff.mpr
      intro other hother
      simpa [hpriority] using hfirst other hother
    rw [hnone, List.nil_append, List.nil_append]
  · have hnone : ofPriority priority [entry] = [] := by simp [ofPriority, hpriority]
    rw [hnone, List.nil_append, List.nil_append]

theorem split_at {entry : TaskEntry} {tasks : List TaskEntry} {i : Nat}
    (h : tasks[i]? = some entry) :
    ∃ before after, tasks = before ++ entry :: after ∧ tasks.eraseIdx i = before ++ after := by
  obtain ⟨hlt, hentry⟩ := List.getElem?_eq_some_iff.mp h
  refine ⟨tasks.take i, tasks.drop (i + 1), ?_, List.eraseIdx_eq_take_drop_succ ..⟩
  rw [← hentry, ← List.drop_eq_getElem_cons hlt, List.take_append_drop]

theorem InOrder.take {entry : TaskEntry} {i : Nat} (h : w.InOrder)
    (hpicked : w.machine.pool.tasks[i]? = some entry) (hserves : w.machine.pool.Serves entry)
    (htasks : m.pool.tasks = w.machine.pool.tasks.eraseIdx i) :
    InOrder ⟨m, w.enqueued, w.dequeued ++ [entry]⟩ := by
  obtain ⟨before, after, hsplit, herase⟩ := split_at hpicked
  have hsub : m.pool.tasks.Sublist w.machine.pool.tasks := htasks ▸ List.eraseIdx_sublist ..
  refine ⟨h.rising.sublist hsub, fun e he => h.numbered e (hsub.subset he), fun priority => ?_⟩
  have htake := ofPriority_take after (hserves.first h.rising hsplit) priority
  dsimp only
  rw [h.stable priority, htasks, herase, hsplit, htake, ofPriority_append priority w.dequeued,
    List.append_assoc]

theorem Sound.init (options : ExecutorOptions) (hardwareConcurrency : Nat)
    (programs : Nat → Program Unit) : (start options hardwareConcurrency programs).Sound :=
  ⟨rfl, fun _ => ⟨List.Pairwise.nil, by simp [start, Machine.init], fun _ => rfl⟩⟩

theorem Sound.step {w' : Schedule} {label : Label} (hw : w.Sound)
    (hstep : w.step label = some w') : w'.Sound := by
  obtain ⟨m, hm, rfl⟩ := Option.map_eq_some_iff.mp hstep
  cases Machine.queueMove hm with
  | keep picked tasks seq =>
    simp only [tasks, List.drop_length, List.append_nil, picked, Option.toList_none]
    refine ⟨by rw [← hw.counted, ← seq], fun hlt => ?_⟩
    obtain ⟨hrising, hnumbered, hstable⟩ := hw.inOrder hlt
    rw [← tasks] at hrising hnumbered hstable
    exact ⟨hrising, hnumbered, hstable⟩
  | append entry tasks numbered seq =>
    simp only [tasks, List.drop_left, Machine.picked, Option.toList_none, List.append_nil]
    have hcounted := hw.counted
    constructor
    · dsimp only
      rw [seq, numbered, hcounted, List.length_append, List.length_singleton, Nat.mod_add_mod]
    · intro hlt
      rw [List.length_append, List.length_singleton] at hlt
      refine (hw.inOrder (by omega)).append tasks ?_
      rw [numbered, hcounted, Nat.mod_add_mod, Nat.mod_eq_of_lt hlt]
  | take entry picked found tasks seq =>
    have hdrop : m.pool.tasks.drop w.machine.pool.tasks.length = [] := by
      apply List.drop_eq_nil_of_le
      rw [tasks]
      exact List.length_eraseIdx_le ..
    simp only [hdrop, List.append_nil, picked, Option.toList_some]
    refine ⟨seq.trans hw.counted, fun hlt => ?_⟩
    have horder := hw.inOrder hlt
    exact horder.take found (Pool.pickNextTaskIndexLocked_serves horder.rising found) tasks

theorem Sound.of_run {options : ExecutorOptions} {hardwareConcurrency : Nat}
    {programs : Nat → Program Unit} {labels : List Label}
    (h : runs Schedule.step (start options hardwareConcurrency programs) labels = some w) : w.Sound :=
  runs_invariant (fun _ _ _ hw hstep => hw.step hstep) (.init _ _ _) h

/-- The queue in every state, what each worker takes from it, and the order in
which the entries have left it. -/
theorem order_of_run {options : ExecutorOptions} {hardwareConcurrency : Nat}
    {programs : Nat → Program Unit} {labels : List Label}
    (hrun : runs Schedule.step (start options hardwareConcurrency programs) labels = some w)
    (hcount : w.enqueued.length < 2 ^ 64) :
    Pool.Rising w.machine.pool.tasks ∧
      (∀ label entry m, w.machine.picked label = some entry → w.machine.step label = some m →
        w.machine.pool.Serves entry ∧ ∃ before after,
          w.machine.pool.tasks = before ++ entry :: after ∧ m.pool.tasks = before ++ after) ∧
      ∀ priority, ofPriority priority w.enqueued =
        ofPriority priority w.dequeued ++ ofPriority priority w.machine.pool.tasks := by
  have horder := (Sound.of_run hrun).inOrder hcount
  refine ⟨horder.rising, fun label entry m hpicked hstep => ?_, horder.stable⟩
  cases Machine.queueMove hstep with
  | keep picked tasks seq => cases hpicked.symm.trans picked
  | append entry tasks numbered seq => cases hpicked
  | take found picked hfound tasks seq =>
    cases Option.some.inj (hpicked.symm.trans picked)
    rw [tasks]
    exact ⟨Pool.pickNextTaskIndexLocked_serves horder.rising hfound, split_at hfound⟩

/-- A task of low priority, then one of high priority. -/
theorem order_of_run_two :
    ∃ w, runs Schedule.step (start { workerCount := 1, policy := .kPriority } 1 fun _ =>
        .op (.submitEx true { priority := .kLow }) fun _ =>
          .op (.submitEx true { priority := .kHigh }) fun _ => .ret ())
        (List.replicate 6 (.client 0 false) ++ [.worker 0 false]) = some w ∧
      w.dequeued.map (·.priority) = [.kHigh] ∧
      ofPriority .kLow w.enqueued =
        ofPriority .kLow w.dequeued ++ ofPriority .kLow w.machine.pool.tasks := by
  obtain ⟨w, hrun, hvalue⟩ := Option.map_eq_some_iff.mp
    (show (runs Schedule.step (start { workerCount := 1, policy := .kPriority } 1 fun _ =>
        .op (.submitEx true { priority := .kLow }) fun _ =>
          .op (.submitEx true { priority := .kHigh }) fun _ => .ret ())
        (List.replicate 6 (.client 0 false) ++ [.worker 0 false])).map
          (fun w => (w.enqueued.length, w.dequeued.map (·.priority))) = some (2, [.kHigh]) by
      decide +kernel)
  obtain ⟨hcount, hdequeued⟩ := Prod.mk.inj hvalue
  have hlt : w.enqueued.length < 2 ^ 64 := by
    rw [hcount]
    decide
  exact ⟨w, hrun, hdequeued, (order_of_run hrun hlt).2.2 .kLow⟩

end Schedule

def submits : Nat → Program Unit
  | 0 => .ret ()
  | n + 1 => .op (.submit true) fun _ => submits n

namespace Machine

variable {m : Machine} {tasks : List TaskEntry} {n seq : Nat}

structure Waiting (m : Machine) (tasks : List TaskEntry) (n seq : Nat) : Prop where
  workers : m.workers = [.idle]
  tasks : m.pool.tasks = tasks
  program : (m.clients 0).program = submits n
  pc : (m.clients 0).pc = .ready
  stopping : m.pool.stopping = false
  queueCapacity : m.pool.options.queueCapacity = 0
  policy : m.pool.options.policy = .kHybridFairPriority
  seq : m.pool.enqueueSeq = seq % 2 ^ 64

theorem Waiting.submit (h : m.Waiting tasks (n + 1) seq) :
    ∃ m' ticket, m.step (.client 0 false) = some m' ∧
      m'.Waiting (tasks ++ [⟨.plain, .kNormal, (seq + 1) % 2 ^ 64, ticket⟩]) n (seq + 1) := by
  refine ⟨?m', m.history.attempts, ?hstep, ?_⟩
  case hstep =>
    simp only [step, stepClient, h.program, submits, h.pc, beginCall]
    rfl
  · have hseq := h.seq
    constructor
    case workers => exact h.workers
    all_goals
      simp [answer, Machine.enqueue, Pool.enqueue, h.stopping, h.queueCapacity, h.tasks, h.policy,
        hseq]

theorem Waiting.serve {entry : TaskEntry} (h : m.Waiting [entry] n seq) (hfn : entry.fn = .plain) :
    ∃ m', runs Machine.step m (List.replicate 5 (.worker 0 false)) = some m' ∧
      m'.Waiting [] n seq := by
  have hpick : m.pool.pickNextTaskIndexLocked = 0 := by
    simp [Pool.pickNextTaskIndexLocked, h.tasks, Pool.pickFrom]
  refine ⟨?m', ?hrun, ?_⟩
  case hrun =>
    simp only [List.replicate, runs, step, stepWorker, h.workers, takeTask, h.tasks, hpick,
      List.getElem?_cons_zero, Option.map_some, Option.bind_some, setWorker, List.set_cons_zero,
      invoke, hfn, stepPlain]
    rfl
  · exact ⟨rfl, rfl, h.program, h.pc, h.stopping, h.queueCapacity, h.policy, h.seq⟩

theorem Waiting.rounds (count : Nat) (h : m.Waiting [] (count + n) seq) :
    ∃ labels m', runs Machine.step m labels = some m' ∧ m'.Waiting [] n (seq + count) := by
  induction count generalizing m seq with
  | zero => exact ⟨[], m, rfl, by simpa using h⟩
  | succ count ih =>
    rw [Nat.add_right_comm] at h
    obtain ⟨m₁, ticket, hsubmit, hqueued⟩ := h.submit
    obtain ⟨m₂, hserve, hidle⟩ := hqueued.serve rfl
    obtain ⟨labels, m₃, hrest, hlast⟩ := ih hidle
    refine ⟨.client 0 false :: (List.replicate 5 (.worker 0 false) ++ labels), m₃, ?_, ?_⟩
    · exact runs_cons_some.mpr ⟨m₁, hsubmit, runs_append.mpr ⟨m₂, hserve, hrest⟩⟩
    · rwa [Nat.add_assoc, Nat.add_comm 1] at hlast

/-- The sequence number wraps between two entries of the queue, and the second is
taken before the first. -/
theorem wrapped_sequence :
    ∃ labels m first last,
      runs Machine.step (.init { workerCount := 1 } 1 fun _ => submits (2 ^ 64)) labels = some m ∧
      m.pool.tasks = [first, last] ∧ first.priority = last.priority ∧
      ¬ Pool.Rising m.pool.tasks ∧ m.picked (.worker 0 false) = some last := by
  have hstart : (Machine.init { workerCount := 1 } 1 fun _ => submits (2 ^ 64)).Waiting []
      (2 ^ 64 - 2 + 2) 0 := ⟨rfl, rfl, rfl, rfl, rfl, rfl, rfl, rfl⟩
  obtain ⟨labels, m, hrun, hidle⟩ := hstart.rounds (2 ^ 64 - 2)
  obtain ⟨m₁, ticket₁, hfirst, hqueued⟩ := hidle.submit
  obtain ⟨m₂, ticket₂, hlast, hboth⟩ := hqueued.submit
  refine ⟨labels ++ [.client 0 false, .client 0 false], m₂, _, _, ?_, hboth.tasks, rfl, ?_, ?_⟩
  · exact runs_append.mpr ⟨m, hrun, runs_cons_some.mpr ⟨m₁, hfirst,
      runs_cons_some.mpr ⟨m₂, hlast, rfl⟩⟩⟩
  · rw [hboth.tasks]
    simp [Pool.Rising]
  · simp [picked, hboth.workers, Pool.pickNextTaskIndexLocked, hboth.tasks, hboth.policy,
      Pool.pickFrom]

end Machine

end Corekit.Task
