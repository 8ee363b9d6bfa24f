import Corekit.Task.Outcome
import Corekit.Task.Rounds

/-! Cancellation and outcome: what `TryCancel`, `Wait` and `IsTaskSucceeded`
answer agrees with what the workers did, and the table of task states is the
disjoint union of the pending and the retained ids. -/
namespace Corekit.Task
open Corekit.Api Corekit.Foundation

/-- A `TryCancel` or a `Wait` of this id has returned kOk. -/
def CancelOk (id : TaskId) (x : Call × Answer) : Prop :=
  ∃ status : Status, x = (.tryCancel id, .status status) ∧ status.ok = true

def WaitOk (id : TaskId) (x : Call × Answer) : Prop :=
  ∃ timeoutMs, ∃ status : Status, x = (.wait id timeoutMs, .status status) ∧ status.ok = true

theorem Pool.pruneDone_le (limit : Nat) (heap : Nat → TaskState) (done : List TaskId)
    (states : TaskId → Option Nat) {id : TaskId} {state : Nat}
    (h : (pruneDone limit heap done states).2 id = some state) : states id = some state := by
  induction done generalizing states with
  | nil => exact h
  | cons old rest ih =>
    rw [pruneDone] at h
    split at h
    · have herased := ih _ h
      unfold eraseDone at herased
      cases hold : states old with
      | none => simpa only [hold] using herased
      | some found =>
        simp only [hold] at herased
        split_ifs at herased
        · by_cases heq : id = old
          · subst heq
            simp at herased
          · rwa [Function.update_of_ne heq] at herased
        · exact herased
    · exact h

theorem Pool.markTaskDone_le (p : Pool) (marked : TaskId) (executed failed : Bool) {id : TaskId}
    {state : Nat} (h : (p.markTaskDone marked executed failed).states id = some state) :
    p.states id = some state := by
  unfold markTaskDone at h
  split at h
  · exact h
  · dsimp only at h
    split_ifs at h <;> exact pruneDone_le _ _ _ _ h

theorem Pool.pruneDone_of_not_mem (limit : Nat) (heap : Nat → TaskState) (done : List TaskId)
    (states : TaskId → Option Nat) {id : TaskId} (h : id ∉ done) :
    (pruneDone limit heap done states).2 id = states id := by
  induction done generalizing states with
  | nil => rfl
  | cons old rest ih =>
    rw [pruneDone]
    split
    · rw [ih _ (List.not_mem_of_not_mem_cons h), eraseDone]
      cases hold : states old with
      | none => rfl
      | some found =>
        dsimp only
        split_ifs
        · exact Function.update_of_ne (List.ne_of_not_mem_cons h) ..
        · rfl
    · rfl

theorem Pool.markTaskDone_registry (p : Pool) (marked : TaskId) (executed failed : Bool)
    {id : TaskId} (hne : id ≠ marked) (hid : id ∉ p.doneIds) :
    (p.markTaskDone marked executed failed).states id = p.states id ∧
      (id ∈ (p.markTaskDone marked executed failed).pendingIds ↔ id ∈ p.pendingIds) := by
  unfold markTaskDone
  split
  · exact ⟨rfl, .rfl⟩
  · have hkept : ∀ heap, (pruneDone p.maxRetainedStates heap (p.doneIds ++ [marked]) p.states).2 id =
        p.states id := fun heap => pruneDone_of_not_mem _ _ _ _ (by simp [hid, hne])
    dsimp only
    split_ifs <;> exact ⟨hkept _, by simp [hne]⟩

theorem Pool.tryCancel_cases (p : Pool) (id : TaskId) :
    ((p.tryCancel id).1.ok = false ∧ (p.tryCancel id).2 = p) ∨
      ((p.tryCancel id).1.ok = true ∧ ∃ state, p.states id = some state ∧
        (p.heap state).started = false ∧ (p.heap state).done = false ∧
        (p.tryCancel id).2 = { p with
          heap := Function.update p.heap state { p.heap state with canceled := true }
          stats.canceled := (p.stats.canceled + 1) % 2 ^ 64 }) := by
  unfold Pool.tryCancel
  cases hstate : p.states id with
  | none => exact .inl ⟨rfl, rfl⟩
  | some state =>
    dsimp only
    split_ifs with hguard
    · exact .inl ⟨rfl, rfl⟩
    · simp only [not_or, Bool.not_eq_true] at hguard
      exact .inr ⟨rfl, state, rfl, hguard.1, hguard.2, rfl⟩

namespace Machine

variable {m m' : Machine} {i c : Nat}

def Logged (m : Machine) (P : Call × Answer → Prop) : Prop :=
  ∃ c, ∃ x ∈ (m.clients c).log, P x

theorem logged_same (P : Call × Answer → Prop) {client : Client}
    (hclients : m'.clients = Function.update m.clients c client)
    (hlog : client.log = (m.clients c).log) : m'.Logged P ↔ m.Logged P := by
  have hlogs : ∀ d, (m'.clients d).log = (m.clients d).log := by
    intro d
    rw [hclients]
    by_cases hd : d = c
    · subst hd
      rw [Function.update_self, hlog]
    · rw [Function.update_of_ne hd]
  simp only [Logged, hlogs]

theorem logged_answer (P : Call × Answer → Prop) {client : Client} {call : Call}
    {result : Answer} (hclients : m'.clients = Function.update m.clients c client)
    (hlog : client.log = (m.clients c).log ++ [(call, result)]) :
    m'.Logged P ↔ m.Logged P ∨ P (call, result) := by
  constructor
  · rintro ⟨d, x, hx, hP⟩
    rw [hclients] at hx
    by_cases hd : d = c
    · subst hd
      rw [Function.update_self, hlog] at hx
      rcases List.mem_append.mp hx with hx | hx
      · exact .inl ⟨d, x, hx, hP⟩
      · cases List.mem_singleton.mp hx
        exact .inr hP
    · rw [Function.update_of_ne hd] at hx
      exact .inl ⟨d, x, hx, hP⟩
  · rintro (⟨d, x, hx, hP⟩ | hP)
    · refine ⟨d, x, ?_, hP⟩
      rw [hclients]
      by_cases hd : d = c
      · subst hd
        rw [Function.update_self, hlog]
        exact List.mem_append_left _ hx
      · rw [Function.update_of_ne hd]
        exact hx
    · refine ⟨c, (call, result), ?_, hP⟩
      rw [hclients, Function.update_self, hlog]
      simp

theorem logged_worker {threw : Bool} (P : Call × Answer → Prop)
    (h : m.stepWorker i threw = some m') : m'.Logged P ↔ m.Logged P := by
  unfold Logged
  rw [(worker_frame h).1]

theorem worker_canceled {threw : Bool} (h : m.stepWorker i threw = some m') (state : Nat) :
    (m'.pool.heap state).canceled = (m.pool.heap state).canceled := by
  have hupdate : ∀ (heap : Nat → TaskState) (found : Nat) (flags : TaskState),
      flags.canceled = (heap found).canceled →
      (Function.update heap found flags state).canceled = (heap state).canceled := by
    intro heap found flags hflags
    by_cases heq : state = found
    · subst heq
      rw [Function.update_self, hflags]
    · rw [Function.update_of_ne heq]
  have hshift := Watch.worker_shift [] [] [] h
  generalize m.arrivals (.worker i threw) = arrivals at hshift
  cases hshift with
  | stay same marked places => rw [same.heap]
  | move entry s s' rest entryMove marked before_eq after_eq =>
    cases entryMove with
    | take same => rw [same.heap]
    | callPlain fn same => rw [same.heap]
    | call fn canceled heap table tally =>
      rw [heap]
      exact hupdate _ _ _ rfl
    | skip fn canceled heap table tally =>
      rw [heap]
      exact hupdate _ _ _ rfl
    | finish threw same => rw [same.heap]
    | record failed fn heap table tally => rw [heap]
    | mark outcome fn pool =>
      rename_i id state' serialKey
      rw [pool]
      cases hstate : m.pool.states id with
      | none => simp [Pool.markTaskDone, hstate]
      | some found =>
        rw [Pool.markTaskDone_heap _ _ hstate]
        exact hupdate _ _ _ rfl

theorem worker_states {threw : Bool} (h : m.stepWorker i threw = some m') {id : TaskId}
    {state : Nat} (hstate : m'.pool.states id = some state) :
    m.pool.states id = some state := by
  obtain ⟨old, hold, move⟩ := stepWorker_cases h
  cases move with
  | stage entry stage next ended move quiet workers clients history =>
    rwa [quiet.states] at hstate
  | mark entry stage next executed failed fn marks next_eq =>
    exact Pool.markTaskDone_le _ _ _ _ hstate
  | _ => exact hstate

structure Answered (m : Machine) : Prop where
  bound : ∀ id state, m.pool.states id = some state → state < m.pool.heapSize
  canceled : ∀ state < m.pool.heapSize,
    (m.pool.heap state).canceled = true ↔ m.Logged (CancelOk (state + 1))
  registered : ∀ id, m.Logged (CancelOk id) → id ≤ m.pool.heapSize
  waited : ∀ id, m.Logged (WaitOk id) → id ∈ m.history.marked

theorem Answered.stepWorker {threw : Bool} (hm : m.Answered)
    (h : m.stepWorker i threw = some m') : m'.Answered := by
  obtain ⟨-, -, hsize, -⟩ := worker_frame h
  constructor
  · rw [hsize]
    exact fun id state hstate => hm.bound id state (worker_states h hstate)
  · rw [hsize]
    intro state hlt
    rw [worker_canceled h, logged_worker _ h]
    exact hm.canceled state hlt
  · rw [hsize]
    exact fun id hid => hm.registered id ((logged_worker _ h).mp hid)
  · intro id hid
    have hmarked := hm.waited id ((logged_worker _ h).mp hid)
    have hshift := Watch.worker_shift [] [] [] h
    generalize m.arrivals (.worker i threw) = arrivals at hshift
    cases hshift with
    | stay same marked places => rwa [marked]
    | move entry s s' rest entryMove marked before_eq after_eq =>
      rw [marked]
      exact List.mem_append_left _ hmarked

theorem Answered.same (hm : m.Answered) (hstates : ∀ id state, m'.pool.states id = some state →
      m.pool.states id = some state) (hsize : m'.pool.heapSize = m.pool.heapSize)
    (hheap : m'.pool.heap = m.pool.heap) (hmarked : m'.history.marked = m.history.marked)
    (hcancel : ∀ id, m'.Logged (CancelOk id) ↔ m.Logged (CancelOk id))
    (hwait : ∀ id, m'.Logged (WaitOk id) → id ∈ m.history.marked) : m'.Answered := by
  constructor
  · rw [hsize]
    exact fun id state hstate => hm.bound id state (hstates id state hstate)
  · rw [hsize, hheap]
    exact fun state hlt => (hm.canceled state hlt).trans (hcancel _).symm
  · rw [hsize]
    exact fun id hid => hm.registered id ((hcancel id).mp hid)
  · rw [hmarked]
    exact hwait

theorem Answered.reply {client : Client} {call : Call} {result : Answer} (hm : m.Answered)
    (hclients : m'.clients = Function.update m.clients c client)
    (hlog : client.log = (m.clients c).log ++ [(call, result)])
    (hstates : ∀ id state, m'.pool.states id = some state → m.pool.states id = some state)
    (hsize : m'.pool.heapSize = m.pool.heapSize) (hheap : m'.pool.heap = m.pool.heap)
    (hmarked : m'.history.marked = m.history.marked) (hcall : ∀ id, call ≠ .tryCancel id)
    (hwait : ∀ id, WaitOk id (call, result) → id ∈ m.history.marked) : m'.Answered := by
  refine hm.same hstates hsize hheap hmarked (fun id => ?_) fun id hid => ?_
  · rw [logged_answer _ hclients hlog]
    refine or_iff_left ?_
    rintro ⟨status, heq, -⟩
    exact hcall id (congrArg Prod.fst heq)
  · rcases (logged_answer _ hclients hlog).mp hid with hid | hid
    · exact hm.waited id hid
    · exact hwait id hid

theorem enqueue_frame (fn : Closure) (options : TaskSubmitOptions) :
    (m.enqueue fn options).2.pool.states = m.pool.states ∧
      (m.enqueue fn options).2.pool.heapSize = m.pool.heapSize ∧
      (m.enqueue fn options).2.pool.heap = m.pool.heap ∧
      (m.enqueue fn options).2.pool.pendingIds = m.pool.pendingIds := by
  simp only [enqueue, Pool.enqueue]
  split_ifs <;> exact ⟨rfl, rfl, rfl, rfl⟩

theorem Answered.cancel {client : Client} {id : TaskId} (hm : m.Answered) (hknown : m.Known)
    (hclients : m'.clients = Function.update m.clients c client)
    (hlog : client.log = (m.clients c).log ++
      [(.tryCancel id, .status (m.pool.tryCancel id).1)])
    (hpool : m'.pool = (m.pool.tryCancel id).2)
    (hmarked : m'.history.marked = m.history.marked) : m'.Answered := by
  have hlogged : ∀ other, m'.Logged (CancelOk other) ↔
      m.Logged (CancelOk other) ∨ (other = id ∧ (m.pool.tryCancel id).1.ok = true) := by
    intro other
    rw [logged_answer _ hclients hlog]
    apply or_congr_right
    constructor
    · rintro ⟨status, heq, hok⟩
      cases heq
      exact ⟨rfl, hok⟩
    · rintro ⟨rfl, hok⟩
      exact ⟨_, rfl, hok⟩
  have hwaited : ∀ other, m'.Logged (WaitOk other) → other ∈ m'.history.marked := by
    intro other hother
    rw [hmarked]
    rcases (logged_answer _ hclients hlog).mp hother with hother | ⟨timeoutMs, status, heq, -⟩
    · exact hm.waited other hother
    · cases heq
  rcases Pool.tryCancel_cases m.pool id with ⟨hfailed, hsame⟩ | ⟨hok, state, hstate, -, -, hset⟩
  · rw [hsame] at hpool
    simp only [hfailed, Bool.false_eq_true, and_false, or_false] at hlogged
    refine ⟨?_, ?_, ?_, hwaited⟩ <;> rw [hpool]
    · exact hm.bound
    · exact fun state hlt => (hm.canceled state hlt).trans (hlogged _).symm
    · exact fun other hother => hm.registered other ((hlogged other).mp hother)
  · rw [hset] at hpool
    have haddress := hknown.table.address id state hstate
    have hlt := hm.bound id state hstate
    simp only [hok, and_true] at hlogged
    refine ⟨?_, ?_, ?_, hwaited⟩ <;> rw [hpool]
    · exact hm.bound
    · intro other hother
      dsimp only
      rw [hlogged, haddress]
      by_cases heq : other = state
      · subst heq
        simp
      · rw [Function.update_of_ne heq, hm.canceled other hother]
        refine (or_iff_left fun hsucc => heq ?_).symm
        exact Nat.succ.inj hsucc
    · intro other hother
      rcases (hlogged other).mp hother with hother | rfl
      · exact hm.registered other hother
      · rw [haddress]
        exact hlt

theorem Answered.register {client : Client} (hm : m.Answered)
    (hclients : m'.clients = Function.update m.clients c client)
    (hlog : client.log = (m.clients c).log) (hpool : m'.pool = m.pool.register.2)
    (hmarked : m'.history.marked = m.history.marked) : m'.Answered := by
  have hlogged := fun P => logged_same P hclients hlog
  constructor
  · intro id state hstate
    rw [hpool] at hstate ⊢
    simp only [Pool.register] at hstate ⊢
    by_cases heq : id = m.pool.nextTaskId
    · rw [heq, Function.update_self] at hstate
      cases Option.some.inj hstate
      exact Nat.lt_succ_self _
    · rw [Function.update_of_ne heq] at hstate
      exact Nat.lt_succ_of_lt (hm.bound id state hstate)
  · intro state hlt
    rw [hlogged, hpool]
    rw [hpool] at hlt
    simp only [Pool.register] at hlt ⊢
    by_cases heq : state = m.pool.heapSize
    · subst heq
      rw [Function.update_self]
      refine iff_of_false (by simp) fun hid => ?_
      exact Nat.not_succ_le_self _ (hm.registered _ hid)
    · rw [Function.update_of_ne heq]
      exact hm.canceled state (by omega)
  · intro id hid
    rw [hpool]
    exact Nat.le_succ_of_le (hm.registered id ((hlogged _).mp hid))
  · intro id hid
    rw [hmarked]
    exact hm.waited id ((hlogged _).mp hid)

def Looking (m : Machine) : Prop :=
  ∀ c id timeoutMs next state rest remain, (m.clients c).program = .op (.wait id timeoutMs) next →
    (m.clients c).pc = .blocked state rest remain → id = state + 1

theorem Looking.step {label : Label} (hm : m.Looking) (hknown : m.Known) (hfitting : m.Fitting)
    (h : m.step label = some m') : m'.Looking := by
  have hupdate : ∀ (c : Nat) (client : Client), m'.clients = Function.update m.clients c client →
      (∀ id timeoutMs next state rest remain, client.program = .op (.wait id timeoutMs) next →
        client.pc = .blocked state rest remain → id = state + 1) → m'.Looking := by
    intro c client hclients hclient d id timeoutMs next state rest remain hprogram hpc
    rw [hclients] at hprogram hpc
    by_cases hd : d = c
    · subst hd
      rw [Function.update_self] at hprogram hpc
      exact hclient id timeoutMs next state rest remain hprogram hpc
    · rw [Function.update_of_ne hd] at hprogram hpc
      exact hm d id timeoutMs next state rest remain hprogram hpc
  cases label with
  | worker i threw =>
    unfold Looking
    rw [(worker_frame h).1]
    exact hm
  | stop =>
    cases Option.some.inj h
    exact hm
  | client c choice =>
    obtain ⟨call, next, hprogram, move⟩ := stepClient_cases h
    cases move with
    | goto pc goes =>
      refine hupdate c _ rfl fun id timeoutMs next' state rest remain hprogram' hpc => ?_
      have hfits := hfitting c _ _ hprogram'
      rw [show pc = .blocked state rest remain from hpc] at goes
      generalize (m.clients c).pc = pc' at goes hfits
      cases goes with
      | found hstate =>
        obtain ⟨_, hcall, -⟩ | ⟨_, _, hcall⟩ := hfits <;> cases hcall
        exact hknown.table.address _ _ hstate
    | _ => exact hupdate c _ rfl fun _ _ _ _ _ _ _ hpc => by cases hpc

theorem marked_of_reply {call : Call} {next : Answer → Program Unit} {result : Answer}
    (hknown : m.Known) (hlooking : m.Looking) (hprogram : (m.clients c).program = .op call next)
    (hfits : (m.clients c).pc.Fits call)
    (direct : (m.clients c).pc = .ready →
      (∀ id, call ≠ .tryCancel id) ∧ ∀ id timeoutMs, call ≠ .wait id timeoutMs)
    (replies : Replies m.pool (m.clients c).pc call result) :
    (∀ id, call ≠ .tryCancel id) ∧
      ∀ id, WaitOk id (call, result) → id ∈ m.history.marked := by
  cases hpc : (m.clients c).pc with
  | ready =>
    refine ⟨(direct hpc).1, ?_⟩
    rintro id ⟨timeoutMs, status, heq, -⟩
    exact absurd (congrArg Prod.fst heq) ((direct hpc).2 id timeoutMs)
  | registering options =>
    rw [hpc] at replies
    cases replies
  | enqueueing options id state =>
    rw [hpc] at replies
    cases replies
  | undoing id refused =>
    rw [hpc] at replies
    cases replies
  | finding id rest timeoutMs =>
    rw [hpc] at replies hfits
    constructor
    · rintro other rfl
      rcases hfits with ⟨_, hcall, -⟩ | ⟨_, _, hcall⟩ <;> cases hcall
    · rintro other ⟨_, status, heq, hok⟩
      cases replies <;> cases heq <;> cases hok
  | blocked state rest timeoutMs =>
    rw [hpc] at replies hfits
    constructor
    · rintro other rfl
      rcases hfits with ⟨_, _, hcall, -⟩ | ⟨_, _, hcall⟩ <;> cases hcall
    · rintro other ⟨_, status, heq, hok⟩
      cases replies with
      | waited hdone =>
        cases heq
        rw [hlooking c _ _ _ _ _ _ hprogram hpc]
        exact (hknown.table.flags state).mp hdone
      | timeout htimeout =>
        cases heq
        cases hok

theorem Answered.stepClient {choice : Bool} (hm : m.Answered) (hknown : m.Known)
    (hfitting : m.Fitting) (hlooking : m.Looking) (h : m.stepClient c choice = some m') :
    m'.Answered := by
  obtain ⟨call, next, hprogram, hstep⟩ := stepClient_exact h
  have hfits := hfitting c call next hprogram
  have hwait : ∀ {result : Answer}, (∀ id timeoutMs, call ≠ .wait id timeoutMs) →
      ∀ id, WaitOk id (call, result) → id ∈ m.history.marked := by
    rintro result hcall id ⟨timeoutMs, status, heq, -⟩
    exact absurd (congrArg Prod.fst heq) (hcall id timeoutMs)
  cases hstep with
  | reply result direct replies =>
    obtain ⟨hcall, hmarked⟩ := marked_of_reply hknown hlooking hprogram hfits direct replies
    exact hm.reply rfl rfl (fun _ _ => id) rfl rfl rfl hcall hmarked
  | cancel id hpc hcall =>
    subst hcall
    exact hm.cancel hknown rfl rfl rfl rfl
  | reconfigure options hpc hcall =>
    subst hcall
    exact hm.reply rfl rfl (fun _ _ => id) rfl rfl rfl (by simp) (hwait (by simp))
  | goto pc goes =>
    have hlogged : ∀ P, (m.setPc c pc).Logged P ↔ m.Logged P :=
      fun P => logged_same (c := c) P rfl rfl
    exact hm.same (fun _ _ => id) rfl rfl rfl (fun _ => hlogged _)
      fun id hid => hm.waited id ((hlogged _).mp hid)
  | submit hpc hcall =>
    subst hcall
    obtain ⟨hstates, hsize, hheap, -⟩ := enqueue_frame (m := m) .plain {}
    exact hm.reply rfl rfl (fun _ _ hs => hstates ▸ hs) hsize hheap rfl (by simp)
      (hwait (by simp))
  | register options hpc => exact hm.register rfl rfl rfl rfl
  | accept options id state hpc ok =>
    rw [hpc] at hfits
    subst hfits
    obtain ⟨hstates, hsize, hheap, -⟩ :=
      enqueue_frame (m := m) (.tracked id state options.serialKey) options
    exact hm.reply rfl rfl (fun _ _ hs => hstates ▸ hs) hsize hheap rfl (by simp)
      (hwait (by simp))
  | refuse options id state hpc refused =>
    obtain ⟨hstates, hsize, hheap, -⟩ :=
      enqueue_frame (m := m) (.tracked id state options.serialKey) options
    have hlogged : ∀ P, ((m.enqueue (.tracked id state options.serialKey) options).2.setPc c
        (.undoing id (m.enqueue (.tracked id state options.serialKey) options).1)).Logged P ↔
          m.Logged P := fun P => logged_same (c := c) P rfl rfl
    exact hm.same (fun _ _ hs => hstates ▸ hs) hsize hheap rfl (fun _ => hlogged _)
      fun id hid => hm.waited id ((hlogged _).mp hid)
  | undo id refused hpc =>
    rw [hpc] at hfits
    obtain ⟨options, rfl⟩ := hfits
    refine hm.reply rfl rfl (fun other state hstate => ?_) rfl rfl rfl (by simp)
      (hwait (by simp))
    simp only [Pool.unregister, answer] at hstate
    by_cases heq : other = id
    · rw [heq, Function.update_self] at hstate
      cases hstate
    · rwa [Function.update_of_ne heq] at hstate

theorem Answered.step {label : Label} (hm : m.Answered) (hknown : m.Known)
    (hfitting : m.Fitting) (hlooking : m.Looking) (h : m.step label = some m') :
    m'.Answered := by
  cases label with
  | worker i threw => exact hm.stepWorker h
  | client c choice => exact hm.stepClient hknown hfitting hlooking h
  | stop =>
    cases Option.some.inj h
    exact ⟨hm.bound, hm.canceled, hm.registered, hm.waited⟩

/-- The pending ids are those of the table that are not marked done. -/
def Registry (m : Machine) : Prop :=
  ∀ id, id ∈ m.pool.pendingIds ↔ m.pool.states id ≠ none ∧ id ∉ m.history.marked

theorem Registry.same (hm : m.Registry) (hstates : m'.pool.states = m.pool.states)
    (hpending : m'.pool.pendingIds = m.pool.pendingIds)
    (hmarked : m'.history.marked = m.history.marked) : m'.Registry := by
  unfold Registry
  rw [hstates, hpending, hmarked]
  exact hm

theorem Table.mem_marked_of_doneIds (hm : m.Table) {id : TaskId} (h : id ∈ m.pool.doneIds) :
    id ∈ m.history.marked := by
  rw [hm.doneIds] at h
  exact List.mem_of_mem_drop h

theorem Registry.mark {id : TaskId} {executed failed : Bool} (hm : m.Registry) (hknown : m.Known)
    (hpool : m'.pool = m.pool.markTaskDone id executed failed)
    (hmarked : m'.history.marked = m.history.marked ++ [id]) : m'.Registry := by
  intro other
  rw [hpool, hmarked]
  by_cases heq : other = id
  · subst heq
    refine iff_of_false ?_ fun hmem => hmem.2 (by simp)
    unfold Pool.markTaskDone
    split
    next hnone => exact fun hmem => ((hm other).mp hmem).1 hnone
    next => dsimp only; split_ifs <;> simp
  · by_cases hdone : other ∈ m.pool.doneIds
    · have hother := hknown.table.mem_marked_of_doneIds hdone
      refine iff_of_false (fun hmem => ?_) fun hmem => hmem.2 (List.mem_append_left _ hother)
      refine ((hm other).mp ?_).2 hother
      unfold Pool.markTaskDone at hmem
      split at hmem
      · exact hmem
      · dsimp only at hmem
        split_ifs at hmem <;> exact List.mem_of_mem_filter hmem
    · obtain ⟨hstates, hpending⟩ :=
        Pool.markTaskDone_registry m.pool id executed failed heq hdone
      rw [hstates, hpending, hm other]
      simp [heq]

theorem Registry.stepWorker {threw : Bool} (hm : m.Registry) (hknown : m.Known)
    (h : m.stepWorker i threw = some m') : m'.Registry := by
  have hshift := Watch.worker_shift [] [] [] h
  generalize m.arrivals (.worker i threw) = arrivals at hshift
  have hsame : m'.pool.table = m.pool.table → m'.history.marked = m.history.marked →
      m'.Registry := by
    intro htable hmarked
    exact hm.same (congrArg Prod.fst htable) (congrArg (fun t => t.2.1) htable) hmarked
  cases hshift with
  | stay same marked places => exact hsame same.table marked
  | move entry s s' rest entryMove marked before_eq after_eq =>
    cases entryMove with
    | take same => exact hsame same.table (marked.trans (List.append_nil _))
    | callPlain fn same => exact hsame same.table (marked.trans (List.append_nil _))
    | call fn canceled heap table tally => exact hsame table (marked.trans (List.append_nil _))
    | skip fn canceled heap table tally => exact hsame table (marked.trans (List.append_nil _))
    | finish threw same => exact hsame same.table (marked.trans (List.append_nil _))
    | record failed fn heap table tally =>
      exact hsame table (by simpa [Watch.markedId, Station.isOver, fn, Closure.id?] using marked)
    | mark outcome fn pool =>
      refine hm.mark hknown pool ?_
      simpa [Watch.markedId, Station.isOver, fn, Closure.id?] using marked

theorem marked_registered (hknown : m.Known) {id : TaskId} (h : id ∈ m.history.marked) :
    id ≤ m.pool.heapSize :=
  hknown.ledger.registered id
    (Ledger.mem_admitted_of_ended (hknown.ledger.mem_ended_of_marked h))

theorem Registry.stepClient {choice : Bool} (hm : m.Registry) (hknown : m.Known)
    (hlap : m'.FirstLap) (h : m.stepClient c choice = some m') : m'.Registry := by
  obtain ⟨call, next, -, hstep⟩ := stepClient_exact h
  cases hstep with
  | reply result direct replies => exact hm.same rfl rfl rfl
  | cancel id hpc hcall =>
    have hpending : (m.pool.tryCancel id).2.pendingIds = m.pool.pendingIds := by
      rcases Pool.tryCancel_cases m.pool id with ⟨-, hpool⟩ | ⟨-, state, -, -, -, hpool⟩ <;>
        rw [hpool]
    exact hm.same (Pool.Quiet.tryCancel m.pool id).states hpending rfl
  | reconfigure options hpc hcall => exact hm.same rfl rfl rfl
  | goto pc goes => exact hm.same rfl rfl rfl
  | submit hpc hcall =>
    obtain ⟨hstates, -, -, hpending⟩ := enqueue_frame (m := m) .plain {}
    exact hm.same hstates hpending rfl
  | register options hpc =>
    intro other
    simp only [setPc, Pool.register, List.mem_cons]
    by_cases heq : other = m.pool.nextTaskId
    · rw [heq, Function.update_self]
      refine iff_of_true (.inl rfl) ⟨by simp, fun hmem => ?_⟩
      rw [hknown.ledger.toBooks.nextTaskId hlap] at hmem
      exact Nat.not_succ_le_self _ (marked_registered hknown hmem)
    · rw [Function.update_of_ne heq, ← hm other]
      exact or_iff_right heq
  | accept options id state hpc ok =>
    obtain ⟨hstates, -, -, hpending⟩ :=
      enqueue_frame (m := m) (.tracked id state options.serialKey) options
    exact hm.same hstates hpending rfl
  | refuse options id state hpc refused =>
    obtain ⟨hstates, -, -, hpending⟩ :=
      enqueue_frame (m := m) (.tracked id state options.serialKey) options
    exact hm.same hstates hpending rfl
  | undo id refused hpc =>
    intro other
    simp only [answer, Pool.unregister, List.mem_filter, decide_eq_true_eq]
    by_cases heq : other = id
    · rw [heq, Function.update_self]
      exact iff_of_false (fun hmem => hmem.2 rfl) fun hmem => hmem.1 rfl
    · rw [Function.update_of_ne heq, ← hm other]
      exact and_iff_left heq

theorem Registry.step {label : Label} (hm : m.Registry) (hknown : m.Known)
    (hlap : m'.FirstLap) (h : m.step label = some m') : m'.Registry := by
  cases label with
  | worker i threw => exact hm.stepWorker hknown h
  | client c choice => exact hm.stepClient hknown hlap h
  | stop =>
    cases Option.some.inj h
    exact hm

end Machine

namespace Watch

variable {w w' : Watch}

def arrivalsOf (w : Watch) (id : TaskId) (s : Station) : Nat :=
  w.trail.countP fun x => x.1.fn.id? = some id ∧ x.2 = s

def calls (w : Watch) (id : TaskId) : Nat := w.arrivalsOf id .running

def returns (w : Watch) (id : TaskId) : Nat := w.arrivalsOf id (.ended .returned)

theorem calls_mono {labels : List Label} (h : runs Watch.step w labels = some w') (id : TaskId) :
    w.calls id ≤ w'.calls id := by
  have hkept : ∀ (w₁ : Watch) (label : Label) (w₂ : Watch), w.calls id ≤ w₁.calls id →
      w₁.step label = some w₂ → w.calls id ≤ w₂.calls id := by
    intro w₁ label w₂ hle hstep
    obtain ⟨m, hm, rfl⟩ := Option.map_eq_some_iff.mp hstep
    refine hle.trans ?_
    simp only [calls, arrivalsOf, List.countP_append]
    exact Nat.le_add_right _ _
  exact runs_invariant hkept le_rfl h

structure Faithful (w : Watch) : Prop extends w.Reached where
  known : w.machine.Known
  looking : w.machine.Looking
  named : w.Named
  marks : w.Marks
  flagged : w.Flagged
  answered : w.machine.Answered
  registry : w.machine.Registry
  limit : w.machine.pool.maxRetainedStates = 65536

theorem Faithful.step {label : Label} (hw : w.Faithful) (hlap : w'.machine.FirstLap)
    (h : w.step label = some w') : w'.Faithful := by
  have hreached := hw.toReached.step h
  have hnamed := hw.named.step hw.books hlap h
  have hmarks := hw.marks.step h
  have hflagged := hw.flagged.step hw.sound hw.known hw.named hw.marks h
  obtain ⟨m, hm, rfl⟩ := Option.map_eq_some_iff.mp h
  exact ⟨hreached, hw.known.step hlap hm, hw.looking.step hw.known hw.fitting hm, hnamed, hmarks,
    hflagged, hw.answered.step hw.known hw.fitting hw.looking hm,
    hw.registry.step hw.known hlap hm, (Machine.step_window hm).1.trans hw.limit⟩

theorem firstLap_before (w : Watch) (label : Label) (w' : Watch) (h : w.step label = some w')
    (hlap : w'.machine.FirstLap) : w.machine.FirstLap := by
  obtain ⟨m, hm, rfl⟩ := Option.map_eq_some_iff.mp h
  exact Machine.FirstLap.before _ _ _ hm hlap

theorem Faithful.start (options : ExecutorOptions) (hardwareConcurrency : Nat)
    (programs : Nat → Program Unit) :
    (Watch.start options hardwareConcurrency programs).Faithful := by
  have hplaces := places_start options hardwareConcurrency programs
  have hlogged : ∀ P, ¬(Watch.start options hardwareConcurrency programs).machine.Logged P := by
    rintro P ⟨c, x, hx, -⟩
    cases hx
  constructor
  · exact Reached.of_run (runs_nil _)
  · exact ⟨.init _ _ _, .init _ _ _⟩
  · intro c id timeoutMs next state rest remain hprogram hpc
    cases hpc
  · refine ⟨?_, fun entry hentry => absurd hentry List.not_mem_nil, fun c options id state hpc => ?_⟩
    · exact (Machine.admitted_init options hardwareConcurrency programs).symm
    · cases hpc
  · rfl
  · intro x hx
    rw [hplaces] at hx
    exact absurd hx (Multiset.notMem_zero x)
  · refine ⟨fun id state hstate => ?_, fun state hlt => absurd hlt (Nat.not_lt_zero _), ?_, ?_⟩
    · cases hstate
    · exact fun id hid => absurd hid (hlogged _)
    · exact fun id hid => absurd hid (hlogged _)
  · exact fun id => iff_of_false List.not_mem_nil fun hid => hid.1 rfl
  · rfl

theorem Faithful.of_run {options : ExecutorOptions} {hardwareConcurrency : Nat}
    {programs : Nat → Program Unit} {labels : List Label}
    (h : runs Watch.step (Watch.start options hardwareConcurrency programs) labels = some w)
    (hlap : w.machine.FirstLap) : w.Faithful :=
  runs_invariant_below firstLap_before (fun _ _ _ hw hlap hstep => hw.step hlap hstep)
    (.start _ _ _) h hlap

theorem Faithful.mem_accepted (hw : w.Faithful) {x : TaskEntry × Station} (hx : x ∈ w.trail) :
    x.1 ∈ w.accepted := by
  rw [← Multiset.mem_coe, hw.sound.accepted]
  exact hw.sound.tracks.known x hx

theorem Faithful.exists_place (hw : w.Faithful) {entry : TaskEntry} (h : entry ∈ w.accepted) :
    ∃ s, (entry, s) ∈ w.places := by
  rw [← Multiset.mem_coe, hw.sound.accepted] at h
  obtain ⟨⟨_, s⟩, hx, rfl⟩ := Multiset.mem_map.mp h
  exact ⟨s, hx⟩

theorem Faithful.arrivalsOf_eq (hw : w.Faithful) {entry : TaskEntry} {s : Station}
    (hplace : (entry, s) ∈ w.places) {id : TaskId} (hid : entry.fn.id? = some id) (t : Station) :
    w.arrivalsOf id t = s.path.count t := by
  rw [← hw.sound.tracks.count hplace t, arrivalsOf, List.count]
  apply List.countP_congr
  intro x hx
  have hentry : entry ∈ w.accepted := mem_accepted_of_place hw.sound hplace
  rw [decide_eq_true_eq, beq_iff_eq]
  constructor
  · rintro ⟨hxid, rfl⟩
    exact Prod.ext (hw.named.unique hw.known (hw.mem_accepted hx) hentry hxid hid) rfl
  · rintro rfl
    exact ⟨hid, rfl⟩

theorem Faithful.arrivalsOf_eq_zero (hw : w.Faithful) {id : TaskId}
    (h : ∀ entry ∈ w.accepted, entry.fn.id? ≠ some id) (t : Station) : w.arrivalsOf id t = 0 := by
  rw [arrivalsOf, List.countP_eq_zero]
  intro x hx
  simp only [decide_eq_true_eq, not_and]
  exact fun hid => absurd hid (h x.1 (hw.mem_accepted hx))

theorem Faithful.canceled_iff (hw : w.Faithful) {entry : TaskEntry} (hentry : entry ∈ w.accepted)
    {id state serialKey : Nat} (hfn : entry.fn = .tracked id state serialKey) :
    (w.machine.pool.heap state).canceled = true ↔ w.machine.Logged (CancelOk id) := by
  rw [hw.named.address entry hentry id state serialKey hfn]
  exact hw.answered.canceled state (hw.named.state_lt hw.known hentry hfn)

theorem exists_tracked {entry : TaskEntry} {id : TaskId} (h : entry.fn.id? = some id) :
    ∃ state serialKey, entry.fn = .tracked id state serialKey := by
  cases hfn : entry.fn with
  | plain => simp [hfn, Closure.id?] at h
  | tracked other state serialKey =>
    rw [hfn] at h
    cases Option.some.inj h
    exact ⟨state, serialKey, rfl⟩

theorem Faithful.tracked_of_found (hw : w.Faithful) {entry : TaskEntry} {id : TaskId} {state : Nat}
    (hentry : entry ∈ w.accepted) (hid : entry.fn.id? = some id)
    (found : w.machine.pool.states id = some state) :
    id = state + 1 ∧ ∃ serialKey, entry.fn = .tracked id state serialKey := by
  obtain ⟨own, serialKey, hfn⟩ := exists_tracked hid
  have haddress := hw.known.table.address id state found
  have hown : own = state :=
    Nat.succ.inj ((hw.named.address entry hentry _ _ _ hfn).symm.trans haddress)
  exact ⟨haddress, serialKey, hown ▸ hfn⟩

theorem Faithful.calls_canceled (hw : w.Faithful) {id : TaskId}
    (h : w.machine.Logged (CancelOk id)) : w.calls id = 0 := by
  by_cases hsome : ∃ entry ∈ w.accepted, entry.fn.id? = some id
  · obtain ⟨entry, hentry, hid⟩ := hsome
    obtain ⟨state, serialKey, hfn⟩ := exists_tracked hid
    obtain ⟨s, hs⟩ := hw.exists_place hentry
    have hcanceled := (hw.canceled_iff hentry hfn).mpr h
    have hagrees := hw.flagged _ hs id state serialKey hfn
    rw [calls, hw.arrivalsOf_eq hs hid]
    cases s with
    | queued => rfl
    | waiting => rfl
    | running => exact absurd (hcanceled.symm.trans hagrees.2) (by decide)
    | ended outcome =>
      cases hagrees.2.mp hcanceled
      rfl
    | recorded outcome =>
      cases hagrees.2.1.mp hcanceled
      rfl
  · push Not at hsome
    exact hw.arrivalsOf_eq_zero hsome _

theorem Faithful.over_of_marked (hw : w.Faithful) {id : TaskId}
    (h : id ∈ w.machine.history.marked) :
    ∃ entry outcome, (entry, Station.recorded outcome) ∈ w.places ∧ entry.fn.id? = some id := by
  rw [hw.marks, List.mem_filterMap] at h
  obtain ⟨⟨entry, s⟩, hx, hid⟩ := h
  unfold markedId at hid
  split at hid
  next hover =>
    refine ⟨entry, ?_⟩
    cases s with
    | recorded outcome =>
      refine ⟨outcome, Multiset.mem_add.mpr (.inr ?_), hid⟩
      exact Multiset.mem_coe.mpr (List.mem_filter.mpr ⟨hx, rfl⟩)
    | _ => cases hover
  next => cases hid

theorem Faithful.calls_marked (hw : w.Faithful) {id : TaskId}
    (h : id ∈ w.machine.history.marked) (hcancel : ¬w.machine.Logged (CancelOk id)) :
    w.calls id = 1 := by
  obtain ⟨entry, outcome, hplace, hid⟩ := hw.over_of_marked h
  obtain ⟨state, serialKey, hfn⟩ := exists_tracked hid
  have hentry := mem_accepted_of_place hw.sound hplace
  have hagrees := hw.flagged _ hplace id state serialKey hfn
  have hran : outcome ≠ .skipped := fun hskipped =>
    hcancel ((hw.canceled_iff hentry hfn).mp (hagrees.2.1.mpr hskipped))
  rw [calls, hw.arrivalsOf_eq hplace hid]
  cases outcome with
  | skipped => exact absurd rfl hran
  | returned => rfl
  | threw => rfl

theorem Faithful.marked_nodup (hw : w.Faithful) : w.machine.history.marked.Nodup := by
  have hnodup := hw.known.ledger.nodup
  have hended := (Multiset.nodup_add.mp hnodup).2.1
  rw [hw.known.ledger.closing] at hended
  exact Multiset.coe_nodup.mp (Multiset.nodup_add.mp hended).2.1

/-- A task is forgotten only after the retention limit of others was marked. -/
theorem Faithful.forgotten_tail (hw : w.Faithful) {id : TaskId}
    (h : id ∈ w.machine.forgotten) :
    ∃ before after, w.machine.history.marked = before ++ id :: after ∧ (id :: after).Nodup ∧
      65536 ≤ after.length := by
  have hnodup := hw.marked_nodup
  unfold Machine.forgotten at h
  rw [hw.limit] at h
  obtain ⟨before, middle, hsplit⟩ := List.append_of_mem h
  have hwhole := List.take_append_drop (w.machine.history.marked.length - 65536)
    w.machine.history.marked
  rw [hsplit, List.append_assoc, List.cons_append] at hwhole
  refine ⟨before, _, hwhole.symm, ?_, ?_⟩
  · rw [← hwhole, List.nodup_append] at hnodup
    exact hnodup.2.1
  · have hlong : 0 < w.machine.history.marked.length - 65536 := by
      by_contra hshort
      rw [Nat.eq_zero_of_not_pos hshort, List.take_zero] at h
      cases h
    rw [List.length_append, List.length_drop]
    omega

theorem Faithful.isTaskSucceeded (hw : w.Faithful) {id : TaskId}
    (h : w.machine.Logged (WaitOk id)) :
    (w.machine.pool.isTaskSucceeded id =
        .error ⟨.kNotFound, "task id not found or result expired", .kTask⟩ ∧
      ∃ before after, w.machine.history.marked = before ++ id :: after ∧ (id :: after).Nodup ∧
        65536 ≤ after.length) ∨
    ∃ succeeded, w.machine.pool.isTaskSucceeded id = .ok succeeded ∧
      (succeeded = true ↔ w.calls id = 1 ∧ w.returns id = 1) := by
  have hmarked := hw.answered.waited id h
  obtain ⟨entry, outcome, hplace, hid⟩ := hw.over_of_marked hmarked
  have hentry := mem_accepted_of_place hw.sound hplace
  unfold Pool.isTaskSucceeded
  cases hstate : w.machine.pool.states id with
  | none =>
    have hforgot := (hw.known.table.present id (hw.named.admitted hentry hid)).mp hstate
    exact .inl ⟨rfl, hw.forgotten_tail hforgot⟩
  | some found =>
    obtain ⟨-, serialKey, hfn⟩ := hw.tracked_of_found hentry hid hstate
    refine .inr ⟨_, rfl, ?_⟩
    rw [(hw.flagged _ hplace id found serialKey hfn).2.2, calls, returns,
      hw.arrivalsOf_eq hplace hid, hw.arrivalsOf_eq hplace hid]
    cases outcome <;> decide

theorem Faithful.table (hw : w.Faithful) (id : TaskId) :
    (w.machine.pool.states id ≠ none ↔
      id ∈ w.machine.pool.pendingIds ∨ id ∈ w.machine.pool.doneIds) ∧
    ¬(id ∈ w.machine.pool.pendingIds ∧ id ∈ w.machine.pool.doneIds) := by
  have hpending := hw.registry id
  have hsplit := List.take_append_drop
    (w.machine.history.marked.length - w.machine.pool.maxRetainedStates) w.machine.history.marked
  have hdone : id ∈ w.machine.history.marked →
      (id ∈ w.machine.pool.doneIds ↔ w.machine.pool.states id ≠ none) := by
    intro hmarked
    have hpresent := hw.known.table.present id
      (Machine.Ledger.mem_admitted_of_ended (hw.known.ledger.mem_ended_of_marked hmarked))
    have hnodup := hw.marked_nodup
    rw [ne_eq, hpresent, Machine.forgotten, hw.known.table.doneIds]
    rw [← hsplit] at hmarked hnodup
    rw [List.nodup_append] at hnodup
    constructor
    · exact fun hdrop htake => hnodup.2.2 id htake id hdrop rfl
    · exact fun hnot => (List.mem_append.mp hmarked).resolve_left hnot
  constructor
  · by_cases hmarked : id ∈ w.machine.history.marked
    · rw [← hdone hmarked]
      refine (or_iff_right fun hmem => ?_).symm
      exact (hpending.mp hmem).2 hmarked
    · have hnot : id ∉ w.machine.pool.doneIds :=
        fun hmem => hmarked (hw.known.table.mem_marked_of_doneIds hmem)
      rw [or_iff_left hnot, hpending]
      exact (and_iff_left hmarked).symm
  · rintro ⟨hmem, hdoneId⟩
    exact (hpending.mp hmem).2 (hw.known.table.mem_marked_of_doneIds hdoneId)

theorem Faithful.doneIds (hw : w.Faithful) : w.machine.pool.doneIds.Nodup ∧
    w.machine.pool.doneIds.length ≤ w.machine.pool.maxRetainedStates := by
  rw [hw.known.table.doneIds]
  refine ⟨hw.marked_nodup.sublist (List.drop_sublist _ _), ?_⟩
  rw [List.length_drop]
  omega

theorem Faithful.refused (hw : w.Faithful) (hlap : w.machine.FirstLap)
    (options : TaskSubmitOptions) (ticket : Nat) :
    let p := w.machine.pool
    let q := (p.register.2.enqueue (.tracked p.nextTaskId p.heapSize options.serialKey) options
      ticket)
    q.1.ok = false → (q.2.unregister p.nextTaskId).states = p.states ∧
      (q.2.unregister p.nextTaskId).pendingIds = p.pendingIds := by
  intro p q hrefused
  have hnone : p.states p.nextTaskId = none := by
    cases hstate : p.states p.nextTaskId with
    | none => rfl
    | some state =>
      have hlt := hw.answered.bound _ _ hstate
      have haddress : (w.machine.pool.heapSize + 1) % 2 ^ 64 = state + 1 :=
        hw.books.lockstep.symm.trans (hw.known.table.address _ _ hstate)
      unfold Machine.FirstLap at hlap
      omega
  have hpending : p.nextTaskId ∉ p.pendingIds := fun hmem => ((hw.registry _).mp hmem).1 hnone
  have hq : q.2.states = p.register.2.states ∧ q.2.pendingIds = p.register.2.pendingIds := by
    simp only [q, Pool.enqueue]
    split_ifs <;> exact ⟨rfl, rfl⟩
  simp only [Pool.unregister, hq.1, hq.2, Pool.register]
  constructor
  · rw [Function.update_idem, ← hnone, Function.update_eq_self]
  · rw [List.filter_cons_of_neg (by simp), List.filter_eq_self]
    intro id hid
    simp only [decide_eq_true_eq]
    exact fun heq => hpending (heq ▸ hid)

theorem undo_frame {m m' : Machine} {c : Nat} {choice : Bool} {id : TaskId} {refused : Status}
    (hpc : (m.clients c).pc = .undoing id refused) (h : m.step (.client c choice) = some m') :
    m'.pool.states id = none ∧ id ∉ m'.pool.pendingIds ∧ ∀ other, other ≠ id →
      m'.pool.states other = m.pool.states other ∧
        (other ∈ m'.pool.pendingIds ↔ other ∈ m.pool.pendingIds) := by
  have hpool : m'.pool = m.pool.unregister id := by
    simp only [Machine.step, Machine.stepClient] at h
    split at h
    · cases h
    · simp only [hpc, Machine.continueCall] at h
      cases Option.some.inj h
      rfl
  rw [hpool]
  refine ⟨Function.update_self .., by simp [Pool.unregister], fun other hne => ?_⟩
  exact ⟨Function.update_of_ne hne .., by simp [Pool.unregister, hne]⟩

end Watch

/-- In every run with fewer than 2^64 calls of `SubmitEx`: a task whose `TryCancel`
returned kOk is never called; any other task has been called exactly once when it is
marked done; after a `Wait` that returned kOk, `IsTaskSucceeded` tells whether the
function returned, or finds the id no more because at least 65536 other tasks were
marked done since. The table of task states is at all times the disjoint union of
the pending and the retained ids, and a refused `SubmitEx` takes back what it
registered. -/
theorem outcomes_agree_with_what_ran (options : ExecutorOptions) (hardwareConcurrency : Nat)
    (programs : Nat → Program Unit) {labels : List Label} {w : Watch}
    (hrun : runs Watch.step (Watch.start options hardwareConcurrency programs) labels = some w)
    (hlap : w.machine.FirstLap) :
    (∀ id, w.machine.Logged (CancelOk id) → w.calls id = 0) ∧
    (∀ id ∈ w.machine.history.marked, ¬w.machine.Logged (CancelOk id) → w.calls id = 1) ∧
    (∀ id, w.machine.Logged (WaitOk id) →
      (w.machine.pool.isTaskSucceeded id =
          .error ⟨.kNotFound, "task id not found or result expired", .kTask⟩ ∧
        ∃ before after, w.machine.history.marked = before ++ id :: after ∧
          (id :: after).Nodup ∧ 65536 ≤ after.length) ∨
      ∃ succeeded, w.machine.pool.isTaskSucceeded id = .ok succeeded ∧
        (succeeded = true ↔ w.calls id = 1 ∧ w.returns id = 1)) ∧
    (∀ id, (w.machine.pool.states id ≠ none ↔
        id ∈ w.machine.pool.pendingIds ∨ id ∈ w.machine.pool.doneIds) ∧
      ¬(id ∈ w.machine.pool.pendingIds ∧ id ∈ w.machine.pool.doneIds)) ∧
    w.machine.pool.doneIds.Nodup ∧
    w.machine.pool.doneIds.length ≤ w.machine.pool.maxRetainedStates ∧
    (∀ (options : TaskSubmitOptions) (ticket : Nat),
      let p := w.machine.pool
      let q := p.register.2.enqueue (.tracked p.nextTaskId p.heapSize options.serialKey) options
        ticket
      q.1.ok = false → (q.2.unregister p.nextTaskId).states = p.states ∧
        (q.2.unregister p.nextTaskId).pendingIds = p.pendingIds) ∧
    (∀ c choice id refused m', (w.machine.clients c).pc = .undoing id refused →
      w.machine.step (.client c choice) = some m' →
      m'.pool.states id = none ∧ id ∉ m'.pool.pendingIds ∧ ∀ other, other ≠ id →
        m'.pool.states other = w.machine.pool.states other ∧
          (other ∈ m'.pool.pendingIds ↔ other ∈ w.machine.pool.pendingIds)) := by
  have hw := Watch.Faithful.of_run hrun hlap
  exact ⟨fun _ => hw.calls_canceled, fun _ => hw.calls_marked, fun _ => hw.isTaskSucceeded,
    hw.table, hw.doneIds.1, hw.doneIds.2, hw.refused hlap, fun _ _ _ _ _ => Watch.undo_frame⟩

def Answer.isOk : Answer → Bool
  | .status answered => answered.ok
  | _ => false

theorem CancelOk.of {id : TaskId} {x : Call × Answer} (hcall : x.1 = .tryCancel id)
    (hok : x.2.isOk = true) : CancelOk id x := by
  obtain ⟨call, result⟩ := x
  cases result with
  | status answered => exact ⟨answered, Prod.ext hcall rfl, hok⟩
  | _ => cases hok

theorem WaitOk.of {id : TaskId} {timeoutMs : Nat} {x : Call × Answer}
    (hcall : x.1 = .wait id timeoutMs) (hok : x.2.isOk = true) : WaitOk id x := by
  obtain ⟨call, result⟩ := x
  cases result with
  | status answered => exact ⟨timeoutMs, answered, Prod.ext hcall rfl, hok⟩
  | _ => cases hok

/-- Two tasks and one worker: the first is canceled before it starts, the client
waits for the second. -/
def cancelThenWait : Program Unit :=
  .op (.submitEx true {}) fun _ => .op (.submitEx true {}) fun _ =>
    .op (.tryCancel 1) fun _ => .op (.wait 2 0) fun _ => .ret ()

theorem outcomes_agree_with_what_ran_two :
    ∃ w, runs Watch.step (Watch.start { workerCount := 1 } 0 fun _ => cancelThenWait)
        (List.replicate 7 (.client 0 false) ++ List.replicate 11 (.worker 0 false) ++
          List.replicate 3 (.client 0 false)) = some w ∧
      w.calls 1 = 0 ∧ ∃ succeeded, w.machine.pool.isTaskSucceeded 2 = .ok succeeded ∧
        (succeeded = true ↔ w.calls 2 = 1 ∧ w.returns 2 = 1) := by
  obtain ⟨w, hw, hfinal⟩ := Option.map_eq_some_iff.mp (show (runs Watch.step
      (Watch.start { workerCount := 1 } 0 fun _ => cancelThenWait)
      (List.replicate 7 (.client 0 false) ++ List.replicate 11 (.worker 0 false) ++
        List.replicate 3 (.client 0 false))).map
      (fun w => (((w.machine.clients 0).log.map fun x => (x.1, x.2.isOk)).drop 2,
        w.machine.history.marked, w.machine.pool.heapSize)) =
        some ([(.tryCancel 1, true), (.wait 2 0, true)], [1, 2], 2) by decide +kernel)
  simp only [Prod.mk.injEq] at hfinal
  obtain ⟨hlog, hmarked, hsize⟩ := hfinal
  have hlap : w.machine.FirstLap := by
    unfold Machine.FirstLap
    omega
  have hmem : ∀ y ∈ [(Call.tryCancel 1, true), (Call.wait 2 0, true)],
      ∃ x ∈ (w.machine.clients 0).log, (x.1, x.2.isOk) = y := by
    intro y hy
    rw [← hlog] at hy
    exact List.mem_map.mp (List.mem_of_mem_drop hy)
  obtain ⟨x, hx, hxy⟩ := hmem (.tryCancel 1, true) (by simp)
  obtain ⟨y, hy, hyz⟩ := hmem (.wait 2 0, true) (by simp)
  simp only [Prod.mk.injEq] at hxy hyz
  obtain ⟨hcancel, -, hwait, -⟩ := outcomes_agree_with_what_ran _ _ _ hw hlap
  refine ⟨w, hw, hcancel 1 ⟨0, x, hx, .of hxy.1 hxy.2⟩, ?_⟩
  rcases hwait 2 ⟨0, y, hy, .of hyz.1 hyz.2⟩ with ⟨-, before, after, hsplit, -, hlong⟩ | hkept
  · have hlength := congrArg List.length hsplit
    rw [hmarked, List.length_append, List.length_cons] at hlength
    simp only [List.length_cons, List.length_nil] at hlength
    omega
  · exact hkept

theorem Watch.Faithful.calls_inside {w : Watch} (hw : w.Faithful) {i : Nat} {entry : TaskEntry}
    {id state serialKey : Nat} (hworker : w.machine.workers[i]? = some (.inside entry .running))
    (hfn : entry.fn = .tracked id state serialKey) : w.calls id = 1 := by
  obtain ⟨rest, hplaces, -⟩ := Watch.places_split hworker w.accepted w.trail
  have hplace : (entry, Station.running) ∈ w.places := by
    rw [show w.places = _ from hplaces]
    exact Multiset.mem_add.mpr (.inl (Multiset.mem_singleton_self _))
  rw [Watch.calls, hw.arrivalsOf_eq hplace (by rw [hfn]; rfl)]
  rfl

/-- Task 1 runs while 2^64 further ids are given out, the last of which is 1 again:
`TryCancel(1)` finds the state of the new task and returns kOk. -/
theorem canceled_id_was_called :
    ∃ (labels : List Label) (w : Watch), runs Watch.step
        (Watch.start { workerCount := 2 } 0 fun _ => submitThen (2 ^ 64)
          (.op (.submitEx true {}) fun _ => .op (.tryCancel 1) fun _ => .ret ())) labels =
        some w ∧
      w.machine.Logged (CancelOk 1) ∧ 0 < w.calls 1 := by
  obtain ⟨labels₁, m₁, hrun₁, hstart⟩ := Round.start
    (.op (.submitEx true {}) fun _ => .op (.tryCancel 1) fun _ => .ret ()) (2 ^ 64 - 1)
  rw [show 2 ^ 64 - 1 + 1 = 2 ^ 64 from rfl] at hrun₁
  obtain ⟨labels₂, m₂, hrun₂, hround⟩ := hstart.iterate
  have hnext : m₂.pool.nextTaskId = 1 := hround.nextTaskId
  obtain ⟨m₃, entry, hrun₃, -, -, hstate, hflags, hclient, -⟩ := Machine.submit_run
    hround.program hround.pc hround.stopping hround.capacity
  rw [hnext] at hstate hclient
  have hprogram : (m₃.clients 0).program = .op (.tryCancel 1) fun _ => .ret () := by rw [hclient]
  have hpc : (m₃.clients 0).pc = .ready := by rw [hclient]
  have hrun₄ : runs Machine.step m₃ [.client 0 false] =
      some ({ m₃ with pool := (m₃.pool.tryCancel 1).2 }.answer 0 (.tryCancel 1) (fun _ => .ret ())
        (.status (m₃.pool.tryCancel 1).1)) := by
    simp only [runs, Machine.step, Machine.stepClient, hprogram, hpc, Machine.beginCall,
      Option.bind_some]
  have hok : (m₃.pool.tryCancel 1).1 = .okStatus := by
    simp [Pool.tryCancel, hstate, hflags]
  -- the task was called when only one id had been given out
  obtain ⟨w₁, hw₁, rfl⟩ := Watch.exists_run (w := Watch.start { workerCount := 2 } 0 fun _ =>
    submitThen (2 ^ 64) (.op (.submitEx true {}) fun _ => .op (.tryCancel 1) fun _ => .ret ())) hrun₁
  obtain ⟨running, hworkers, hfn⟩ := hstart.workers
  have hlap : w₁.machine.FirstLap := by
    unfold Machine.FirstLap
    rw [hstart.heapSize]
    decide
  have hcalls := (Watch.Faithful.of_run hw₁ hlap).calls_inside (i := 0)
    (by rw [hworkers]; rfl) hfn
  obtain ⟨w, hw, hlast⟩ := Watch.exists_run
    (runs_append.mpr ⟨m₂, hrun₂, runs_append.mpr ⟨m₃, hrun₃, hrun₄⟩⟩)
  refine ⟨_, w, runs_append.mpr ⟨w₁, hw₁, hw⟩,
    ⟨0, (.tryCancel 1, .status .okStatus), ?_, .okStatus, rfl, rfl⟩, ?_⟩
  · rw [hlast]
    simp [Machine.answer, hok]
  · have hmono := Watch.calls_mono hw 1
    omega

end Corekit.Task
