import Corekit.Task.Moves
import Corekit.Foundation.Slots
import Mathlib.Data.Multiset.UnionInter

/-! Which tracked tasks the executor still knows. An id is admitted when
`Enqueue` accepts its closure; its state stays in `states_` until
`max_retained_states_` further tasks have been marked done. -/
namespace Corekit.Task
open Corekit.Api Corekit.Foundation

namespace Pool

theorem pruneDone_fst (limit : Nat) (heap : Nat → TaskState) (done : List TaskId)
    (states : TaskId → Option Nat) :
    (pruneDone limit heap done states).1 = done.drop (done.length - limit) := by
  induction done generalizing states with
  | nil => simp [pruneDone]
  | cons old rest ih =>
    simp only [pruneDone]
    split_ifs with h
    · rw [ih]
      simp only [List.length_cons] at h ⊢
      rw [Nat.sub_add_comm (by omega), List.drop_succ_cons]
    · rw [Nat.sub_eq_zero_of_le (by omega), List.drop_zero]

theorem eraseDone_eq {heap : Nat → TaskState} {states : TaskId → Option Nat} {old : TaskId}
    (hdone : ∀ state, states old = some state → (heap state).done = true) :
    eraseDone heap states old = Function.update states old none := by
  unfold eraseDone
  cases hstate : states old with
  | none => exact (Function.update_eq_self_iff.mpr hstate.symm).symm
  | some state => exact if_pos (hdone state hstate)

/-- The loop erases exactly the ids it pops, as all of them are done. -/
theorem pruneDone_snd (limit : Nat) (heap : Nat → TaskState) (done : List TaskId)
    (states : TaskId → Option Nat)
    (hdone : ∀ id ∈ done, ∀ state, states id = some state → (heap state).done = true)
    (id : TaskId) :
    (pruneDone limit heap done states).2 id =
      if id ∈ done.take (done.length - limit) then none else states id := by
  induction done generalizing states with
  | nil => simp [pruneDone]
  | cons old rest ih =>
    have hrest : ∀ other ∈ rest, ∀ state, eraseDone heap states old other = some state →
        (heap state).done = true := by
      intro other hother state hstate
      rw [eraseDone_eq (hdone old (by simp))] at hstate
      by_cases heq : other = old
      · simp [heq] at hstate
      · exact hdone other (by simp [hother]) state (by simpa [heq] using hstate)
    simp only [pruneDone]
    by_cases h : (old :: rest).length > limit
    · rw [if_pos h, ih _ hrest, eraseDone_eq (hdone old (by simp))]
      simp only [List.length_cons] at h
      have hlen : rest.length + 1 - limit = rest.length - limit + 1 := Nat.sub_add_comm (by omega)
      simp only [List.length_cons, hlen, List.take_succ_cons, List.mem_cons]
      by_cases heq : id = old
      · simp [heq]
      · simp [heq]
    · have hlen : (old :: rest).length - limit = 0 := Nat.sub_eq_zero_of_le (by omega)
      rw [if_neg h]
      simp only [hlen, List.take_zero, List.not_mem_nil, if_false]

section MarkTaskDone

variable {p : Pool} {id : TaskId} {state : Nat} (executed failed : Bool)
  (h : p.states id = some state)
include h

theorem markTaskDone_heap : (p.markTaskDone id executed failed).heap =
    Function.update p.heap state
      { p.heap state with done := true, succeeded := executed && !failed } := by
  simp only [markTaskDone, h]
  split_ifs <;> rfl

theorem markTaskDone_doneIds : (p.markTaskDone id executed failed).doneIds =
    (p.doneIds ++ [id]).drop ((p.doneIds ++ [id]).length - p.maxRetainedStates) := by
  rw [← pruneDone_fst]
  simp only [markTaskDone, h]
  split_ifs <;> rfl

theorem markTaskDone_states
    (hdone : ∀ other ∈ p.doneIds ++ [id], ∀ state', p.states other = some state' →
      ((p.markTaskDone id executed failed).heap state').done = true) (other : TaskId) :
    (p.markTaskDone id executed failed).states other =
      if other ∈ (p.doneIds ++ [id]).take ((p.doneIds ++ [id]).length - p.maxRetainedStates)
      then none else p.states other := by
  rw [← pruneDone_snd _ _ _ _ hdone, markTaskDone_heap executed failed h]
  simp only [markTaskDone, h]
  split_ifs <;> rfl

end MarkTaskDone

theorem markTaskDone_counters (p : Pool) (id : TaskId) (executed failed : Bool) :
    (p.markTaskDone id executed failed).nextTaskId = p.nextTaskId ∧
      (p.markTaskDone id executed failed).heapSize = p.heapSize ∧
      (p.markTaskDone id executed failed).maxRetainedStates = p.maxRetainedStates := by
  unfold markTaskDone
  split
  · exact ⟨rfl, rfl, rfl⟩
  · dsimp only
    split_ifs <;> exact ⟨rfl, rfl, rfl⟩

end Pool

def Closure.ids : Closure → Multiset TaskId
  | .plain => 0
  | .tracked id _ _ => {id}

/-- The tracked task of a worker that has not ended it yet. -/
def Worker.openIds : Worker → Multiset TaskId
  | .taken entry => entry.fn.ids
  | .inside entry .locking => entry.fn.ids
  | .inside entry .checking => entry.fn.ids
  | .inside entry .running => entry.fn.ids
  | _ => 0

/-- The tracked task of a worker that has ended it and not marked it yet. -/
def Worker.closingIds : Worker → Multiset TaskId
  | .inside entry .skipping => entry.fn.ids
  | .inside entry (.recording _) => entry.fn.ids
  | _ => 0

def ClientPc.pendingId : ClientPc → Option TaskId
  | .enqueueing _ id _ => some id
  | .undoing id _ => some id
  | _ => none

namespace Machine

def queuedIds (m : Machine) : Multiset TaskId := (m.pool.tasks.map (·.fn.ids)).sum

def openIds (m : Machine) : Multiset TaskId := slotSum (fun _ worker => worker.openIds) m.workers

def closingIds (m : Machine) : Multiset TaskId :=
  slotSum (fun _ worker => worker.closingIds) m.workers

def admitted (m : Machine) : Multiset TaskId :=
  m.queuedIds + m.openIds + (m.history.ended : Multiset TaskId)

/-- The tasks after which `max_retained_states_` others were marked done. -/
def forgotten (m : Machine) : List TaskId :=
  m.history.marked.take (m.history.marked.length - m.pool.maxRetainedStates)

def Returned (m : Machine) (id : TaskId) : Prop :=
  ∃ c call, (call, Answer.task (.ok id)) ∈ (m.clients c).log

/-- Fewer than 2^64 calls of `SubmitEx` have made a task state, so that no id has
been given out twice. -/
def FirstLap (m : Machine) : Prop := m.pool.heapSize < 2 ^ 64

/-- What holds of the ids also after they have come round. -/
structure Books (m : Machine) : Prop where
  lockstep : m.pool.nextTaskId = (m.pool.heapSize + 1) % 2 ^ 64
  closing : (m.history.ended : Multiset TaskId) = m.closingIds + (m.history.marked : Multiset TaskId)
  returned : ∀ id, m.Returned id → id ∈ m.admitted

structure Ledger (m : Machine) : Prop extends Books m where
  nodup : m.admitted.Nodup
  registered : ∀ id ∈ m.admitted, id ≤ m.pool.heapSize
  pending : ∀ c id, (m.clients c).pc.pendingId = some id →
    id ≤ m.pool.heapSize ∧ id ∉ m.admitted
  distinct : ∀ c d id, (m.clients c).pc.pendingId = some id →
    (m.clients d).pc.pendingId = some id → c = d

structure Table (m : Machine) : Prop where
  address : ∀ id state, m.pool.states id = some state → id = state + 1
  present : ∀ id ∈ m.admitted, m.pool.states id = none ↔ id ∈ m.forgotten
  doneIds : m.pool.doneIds =
    m.history.marked.drop (m.history.marked.length - m.pool.maxRetainedStates)
  flags : ∀ state, (m.pool.heap state).done = true ↔ state + 1 ∈ m.history.marked
  pending : ∀ c id, (m.clients c).pc.pendingId = some id → m.pool.states id ≠ none

theorem StageMove.ids {entry : TaskEntry} {stage : Stage} {next : Worker} {ended : List TaskId}
    (move : StageMove entry stage next ended) :
    (Worker.inside entry stage).openIds = next.openIds + (ended : Multiset TaskId) ∧
      next.closingIds = (Worker.inside entry stage).closingIds + (ended : Multiset TaskId) := by
  cases move with
  | plainEnd h => simp [Worker.openIds, Worker.closingIds, h, Closure.ids]
  | plainRecord h => simp [Worker.openIds, Worker.closingIds, h, Closure.ids]
  | lock h => simp [Worker.openIds, Worker.closingIds]
  | skip h => simp [Worker.openIds, Worker.closingIds, h, Closure.ids]
  | start h => simp [Worker.openIds, Worker.closingIds]
  | finish h => simp [Worker.openIds, Worker.closingIds, h, Closure.ids]
  | unlock h => simp [Worker.openIds, Worker.closingIds]

variable {m m' : Machine} {i c : Nat}

/-- One worker moves: what it no longer has open has ended, and what it no
longer has to close is marked. -/
theorem ids_set {old : Worker} (new : Worker) (ended marked : List TaskId) (hm : m.Books)
    (hold : m.workers[i]? = some old) (hworkers : m'.workers = m.workers.set i new)
    (hended : m'.history.ended = m.history.ended ++ ended)
    (hmarked : m'.history.marked = m.history.marked ++ marked)
    (hopen : m'.queuedIds + (new.openIds + (ended : Multiset TaskId)) = m.queuedIds + old.openIds)
    (hclosing : new.closingIds + (marked : Multiset TaskId) =
      old.closingIds + (ended : Multiset TaskId)) :
    m'.admitted = m.admitted ∧ (m'.history.ended : Multiset TaskId) =
      m'.closingIds + (m'.history.marked : Multiset TaskId) := by
  have hopenIds : m'.openIds + old.openIds = m.openIds + new.openIds := by
    unfold openIds
    rw [hworkers]
    exact slotSum_set (fun _ worker => worker.openIds) new hold
  have hclosingIds : m'.closingIds + old.closingIds = m.closingIds + new.closingIds := by
    unfold closingIds
    rw [hworkers]
    exact slotSum_set (fun _ worker => worker.closingIds) new hold
  constructor
  · apply add_right_cancel (b := old.openIds)
    unfold admitted
    rw [hended, ← Multiset.coe_add]
    calc m'.queuedIds + m'.openIds + (m.history.ended + ended) + old.openIds
        = m'.queuedIds + (m'.openIds + old.openIds) + m.history.ended + ended := by ac_rfl
      _ = m'.queuedIds + (new.openIds + ended) + m.openIds + m.history.ended := by
          rw [hopenIds]; ac_rfl
      _ = m.queuedIds + m.openIds + m.history.ended + old.openIds := by rw [hopen]; ac_rfl
  · apply add_right_cancel (b := old.closingIds)
    rw [hended, hmarked, ← Multiset.coe_add, ← Multiset.coe_add, hm.closing]
    calc m.closingIds + m.history.marked + ended + old.closingIds
        = m.closingIds + m.history.marked + (old.closingIds + ended) := by ac_rfl
      _ = (m.closingIds + new.closingIds) + m.history.marked + marked := by
          rw [← hclosing]; ac_rfl
      _ = m'.closingIds + (m.history.marked + marked) + old.closingIds := by
          rw [← hclosingIds]; ac_rfl

theorem queuedIds_eraseIdx {index : Nat} {entry : TaskEntry}
    (h : m.pool.tasks[index]? = some entry) :
    ((m.pool.tasks.eraseIdx index).map (·.fn.ids)).sum + entry.fn.ids = m.queuedIds := by
  obtain ⟨hlt, rfl⟩ := List.getElem?_eq_some_iff.mp h
  have hperm := (List.getElem_cons_eraseIdx_perm hlt).map fun entry => entry.fn.ids
  have hsum := hperm.sum_eq
  rw [List.map_cons, List.sum_cons, add_comm] at hsum
  exact hsum

theorem worker_ids {threw : Bool} (h : m.stepWorker i threw = some m') (hm : m.Books) :
    m'.admitted = m.admitted ∧ (m'.history.ended : Multiset TaskId) =
      m'.closingIds + (m'.history.marked : Multiset TaskId) := by
  obtain ⟨old, hold, move⟩ := stepWorker_cases h
  cases move with
  | exit empty stopping =>
    exact ids_set .exited [] [] hm hold rfl (List.append_nil _).symm (List.append_nil _).symm rfl rfl
  | take entry picked =>
    refine ids_set (.taken entry) [] [] hm hold rfl (List.append_nil _).symm
      (List.append_nil _).symm ?_ rfl
    have hqueue := queuedIds_eraseIdx picked
    simp only [Worker.openIds, Multiset.coe_nil, add_zero]
    exact hqueue
  | invoke entry =>
    refine ids_set _ [] [] hm hold rfl (List.append_nil _).symm (List.append_nil _).symm ?_ ?_
    · cases hfn : entry.fn with
      | plain => simp [Worker.openIds, hfn, invoke, queuedIds]
      | tracked id state serialKey =>
        by_cases hzero : serialKey = 0 <;>
          simp [Worker.openIds, hfn, invoke, queuedIds, hzero]
    · cases hfn : entry.fn with
      | plain => simp [Worker.closingIds]
      | tracked id state serialKey =>
        by_cases hzero : serialKey = 0 <;> simp [Worker.closingIds, hzero]
  | stage entry stage next ended move quiet workers clients history =>
    obtain ⟨hopen, hclosing⟩ := StageMove.ids move
    refine ids_set next ended [] hm hold workers (by rw [history]) (by rw [history]; simp) ?_
      (by simpa using hclosing)
    rw [hopen, queuedIds, quiet.tasks, queuedIds]
  | mark entry stage next executed failed fn marks next_eq =>
    rename_i id state serialKey
    refine ids_set next [] [id] hm hold rfl (List.append_nil _).symm rfl ?_ ?_
    · rcases next_eq with rfl | rfl <;> cases stage <;>
        simp_all [Worker.openIds, Stage.marks, queuedIds]
    · rcases next_eq with rfl | rfl <;> cases stage <;>
        simp_all [Worker.closingIds, Stage.marks, Closure.ids]
  | finish =>
    exact ids_set .idle [] [] hm hold rfl (List.append_nil _).symm (List.append_nil _).symm rfl rfl

theorem worker_frame {threw : Bool} (h : m.stepWorker i threw = some m') :
    m'.clients = m.clients ∧ m'.pool.nextTaskId = m.pool.nextTaskId ∧
      m'.pool.heapSize = m.pool.heapSize ∧
      m'.pool.maxRetainedStates = m.pool.maxRetainedStates := by
  obtain ⟨old, hold, move⟩ := stepWorker_cases h
  cases move with
  | stage entry stage next ended move quiet workers clients history =>
    exact ⟨clients, quiet.nextTaskId, quiet.heapSize, quiet.maxRetainedStates⟩
  | mark entry stage next executed failed fn marks next_eq =>
    exact ⟨rfl, Pool.markTaskDone_counters ..⟩
  | _ => exact ⟨rfl, rfl, rfl, rfl⟩

theorem Books.stepWorker {threw : Bool} (hm : m.Books) (h : m.stepWorker i threw = some m') :
    m'.Books := by
  obtain ⟨hadmitted, hclosing⟩ := worker_ids h hm
  obtain ⟨hclients, hnext, hsize, -⟩ := worker_frame h
  refine ⟨?_, hclosing, fun id hid => ?_⟩
  · rw [hnext, hsize]
    exact hm.lockstep
  · unfold Returned at hid
    rw [hclients] at hid
    rw [hadmitted]
    exact hm.returned id hid

theorem Books.client {client : Client} (hm : m.Books)
    (hclients : m'.clients = Function.update m.clients c client)
    (hworkers : m'.workers = m.workers) (hended : m'.history.ended = m.history.ended)
    (hmarked : m'.history.marked = m.history.marked)
    (hlockstep : m'.pool.nextTaskId = (m'.pool.heapSize + 1) % 2 ^ 64)
    (hadmitted : m.admitted ≤ m'.admitted)
    (hlog : ∀ call id, (call, Answer.task (.ok id)) ∈ client.log →
      (call, Answer.task (.ok id)) ∈ (m.clients c).log ∨ id ∈ m'.admitted) : m'.Books := by
  refine ⟨hlockstep, ?_, ?_⟩
  · unfold closingIds
    rw [hended, hmarked, hworkers]
    exact hm.closing
  · rintro id ⟨d, call, hmem⟩
    rw [hclients] at hmem
    by_cases heq : d = c
    · subst heq
      rw [Function.update_self] at hmem
      rcases hlog call id hmem with hold | hnew
      · exact Multiset.subset_of_le hadmitted (hm.returned id ⟨d, call, hold⟩)
      · exact hnew
    · rw [Function.update_of_ne heq] at hmem
      exact Multiset.subset_of_le hadmitted (hm.returned id ⟨d, call, hmem⟩)

theorem Books.nextTaskId (hm : m.Books) (h : m.pool.heapSize + 1 < 2 ^ 64) :
    m.pool.nextTaskId = m.pool.heapSize + 1 := by
  rw [hm.lockstep, Nat.mod_eq_of_lt h]

theorem Ledger.stepWorker {threw : Bool} (hm : m.Ledger) (h : m.stepWorker i threw = some m') :
    m'.Ledger := by
  have hadmitted := (worker_ids h hm.toBooks).1
  obtain ⟨hclients, -, hsize, -⟩ := worker_frame h
  refine ⟨hm.toBooks.stepWorker h, ?_, ?_, ?_, ?_⟩
  · rw [hadmitted]
    exact hm.nodup
  · rw [hadmitted, hsize]
    exact hm.registered
  · rw [hadmitted, hclients, hsize]
    exact hm.pending
  · rw [hclients]
    exact hm.distinct

theorem admitted_eq (hworkers : m'.workers = m.workers) (hqueued : m'.queuedIds = m.queuedIds)
    (hended : m'.history.ended = m.history.ended) : m'.admitted = m.admitted := by
  unfold admitted openIds
  rw [hworkers, hqueued, hended]

theorem queuedIds_eq (htasks : m'.pool.tasks = m.pool.tasks) : m'.queuedIds = m.queuedIds := by
  unfold queuedIds
  rw [htasks]

theorem Ledger.client {client : Client} (hm : m.Ledger) (hbooks : m'.Books)
    (hclients : m'.clients = Function.update m.clients c client)
    (hadmitted : m'.admitted = m.admitted) (hsize : m.pool.heapSize ≤ m'.pool.heapSize)
    (hpending : ∀ id, client.pc.pendingId = some id → (m.clients c).pc.pendingId = some id ∨
      (id = m.pool.heapSize + 1 ∧ id ≤ m'.pool.heapSize)) : m'.Ledger := by
  have hfresh : m.pool.heapSize + 1 ∉ m.admitted := fun hmem =>
    absurd (hm.registered _ hmem) (Nat.not_succ_le_self _)
  have hbefore : ∀ d id, (m'.clients d).pc.pendingId = some id →
      (m.clients d).pc.pendingId = some id ∨
        (d = c ∧ id = m.pool.heapSize + 1 ∧ id ≤ m'.pool.heapSize) := by
    intro d id hd
    rw [hclients] at hd
    by_cases heq : d = c
    · subst heq
      rw [Function.update_self] at hd
      rcases hpending id hd with hid | hid
      · exact .inl hid
      · exact .inr ⟨rfl, hid⟩
    · rw [Function.update_of_ne heq] at hd
      exact .inl hd
  refine ⟨hbooks, ?_, ?_, ?_, ?_⟩
  · rw [hadmitted]
    exact hm.nodup
  · rw [hadmitted]
    exact fun id hid => (hm.registered id hid).trans hsize
  · intro d id hd
    rw [hadmitted]
    rcases hbefore d id hd with hid | ⟨-, rfl, hlt⟩
    · exact ⟨(hm.pending d id hid).1.trans hsize, (hm.pending d id hid).2⟩
    · exact ⟨hlt, hfresh⟩
  · intro d e id hd he
    rcases hbefore d id hd with hd | ⟨rfl, hid, -⟩ <;>
      rcases hbefore e id he with he | ⟨rfl, hid', -⟩
    · exact hm.distinct d e id hd he
    · exact absurd (hm.pending d id hd).1 (hid' ▸ Nat.not_succ_le_self _)
    · exact absurd (hm.pending e id he).1 (hid ▸ Nat.not_succ_le_self _)
    · rfl

theorem Ledger.accept {client : Client} {id : TaskId} (hm : m.Ledger) (hbooks : m'.Books)
    (hclients : m'.clients = Function.update m.clients c client)
    (hadmitted : m'.admitted = id ::ₘ m.admitted) (hsize : m'.pool.heapSize = m.pool.heapSize)
    (hpending : (m.clients c).pc.pendingId = some id) (hpc : client.pc.pendingId = none) :
    m'.Ledger := by
  have hbefore : ∀ d other, (m'.clients d).pc.pendingId = some other →
      d ≠ c ∧ (m.clients d).pc.pendingId = some other := by
    intro d other hd
    rw [hclients] at hd
    by_cases heq : d = c
    · subst heq
      rw [Function.update_self, hpc] at hd
      cases hd
    · rw [Function.update_of_ne heq] at hd
      exact ⟨heq, hd⟩
  refine ⟨hbooks, ?_, ?_, ?_, ?_⟩
  · rw [hadmitted]
    exact Multiset.nodup_cons.mpr ⟨(hm.pending c id hpending).2, hm.nodup⟩
  · intro other hother
    rw [hadmitted, Multiset.mem_cons] at hother
    rw [hsize]
    rcases hother with rfl | hother
    · exact (hm.pending c other hpending).1
    · exact hm.registered other hother
  · intro d other hd
    obtain ⟨hne, hd⟩ := hbefore d other hd
    rw [hadmitted, hsize, Multiset.mem_cons, not_or]
    refine ⟨(hm.pending d other hd).1, ?_, (hm.pending d other hd).2⟩
    rintro rfl
    exact hne (hm.distinct d c other hd hpending)
  · intro d e other hd he
    exact hm.distinct d e other (hbefore d other hd).2 (hbefore e other he).2

theorem log_snoc {result : Answer} {call call' : Call} {id : TaskId}
    {log : List (Call × Answer)} (hresult : ∀ id, result ≠ .task (.ok id))
    (h : (call', Answer.task (.ok id)) ∈ log ++ [(call, result)]) :
    (call', Answer.task (.ok id)) ∈ log := by
  rcases List.mem_append.mp h with h | h
  · exact h
  · have hpair := List.mem_singleton.mp h
    exact absurd (congrArg Prod.snd hpair).symm (hresult id)

theorem Replies.noTask {p : Pool} {pc : ClientPc} {call : Call} {result : Answer}
    (h : Replies p pc call result) (id : TaskId) : result ≠ .task (.ok id) := by
  cases h with
  | atOnce noWait noTask => exact noTask id
  | _ => simp

theorem Goes.pendingId {p : Pool} {pc pc' : ClientPc} {call : Call} (h : Goes p pc call pc') :
    pc'.pendingId = none := by
  cases h <;> rfl

section Enqueue

variable {fn : Closure} {options : TaskSubmitOptions}

theorem enqueue_queuedIds_ok (h : (m.enqueue fn options).1.ok = true) :
    (m.enqueue fn options).2.queuedIds = m.queuedIds + fn.ids := by
  have htasks := (Pool.enqueue_accepts h).tasks
  unfold queuedIds
  simp only [enqueue]
  rw [htasks, List.map_append, List.sum_append, List.map_singleton, List.sum_singleton]

theorem enqueue_queuedIds_refused (h : (m.enqueue fn options).1.ok = false) :
    (m.enqueue fn options).2.queuedIds = m.queuedIds := by
  have htasks := (Pool.enqueue_refuses h).tasks
  unfold queuedIds
  simp only [enqueue]
  rw [htasks]

theorem enqueue_ids : (m.enqueue fn options).2.pool.nextTaskId = m.pool.nextTaskId ∧
    (m.enqueue fn options).2.pool.heapSize = m.pool.heapSize := by
  cases h : (m.enqueue fn options).1.ok with
  | true => exact ⟨(Pool.enqueue_accepts h).nextTaskId, (Pool.enqueue_accepts h).heapSize⟩
  | false => exact ⟨(Pool.enqueue_refuses h).nextTaskId, (Pool.enqueue_refuses h).heapSize⟩

theorem Books.enqueue (hm : m.Books) : (m.enqueue fn options).2.pool.nextTaskId =
    ((m.enqueue fn options).2.pool.heapSize + 1) % 2 ^ 64 := by
  rw [enqueue_ids.1, enqueue_ids.2]
  exact hm.lockstep

theorem enqueue_admitted_ok (h : (m.enqueue fn options).1.ok = true) :
    (m.enqueue fn options).2.admitted = m.admitted + fn.ids := by
  unfold admitted
  rw [enqueue_queuedIds_ok h]
  change m.queuedIds + fn.ids + m.openIds + (m.history.ended : Multiset TaskId) = _
  ac_rfl

theorem enqueue_admitted_refused (h : (m.enqueue fn options).1.ok = false) :
    (m.enqueue fn options).2.admitted = m.admitted :=
  admitted_eq rfl (enqueue_queuedIds_refused h) rfl

end Enqueue

theorem enqueue_plain_admitted :
    (m.enqueue .plain {}).2.admitted = m.admitted := by
  cases hok : (m.enqueue .plain {}).1.ok with
  | true => exact (enqueue_admitted_ok hok).trans (add_zero _)
  | false => exact enqueue_admitted_refused hok

theorem Books.stepClient {choice : Bool} (hm : m.Books) (h : m.stepClient c choice = some m') :
    m'.Books := by
  obtain ⟨call, next, -, move⟩ := stepClient_cases h
  cases move with
  | reply pool result quiet keyHolder replies =>
    have hadmitted : ({ m with pool := pool }.answer c call next result).admitted = m.admitted :=
      admitted_eq rfl (queuedIds_eq quiet.tasks) rfl
    refine hm.client rfl rfl rfl rfl ?_ hadmitted.ge
      fun _ _ hmem => .inl (log_snoc (Replies.noTask replies) hmem)
    change pool.nextTaskId = (pool.heapSize + 1) % 2 ^ 64
    rw [quiet.nextTaskId, quiet.heapSize]
    exact hm.lockstep
  | goto pc goes =>
    exact hm.client rfl rfl rfl rfl hm.lockstep le_rfl fun _ _ => .inl
  | submit hpc hcall =>
    exact hm.client rfl rfl rfl rfl hm.enqueue enqueue_plain_admitted.ge
      fun _ _ hmem => .inl (log_snoc (by simp) hmem)
  | register options hpc =>
    refine hm.client rfl rfl rfl rfl ?_ le_rfl fun _ _ => .inl
    change (m.pool.nextTaskId + 1) % 2 ^ 64 = (m.pool.heapSize + 1 + 1) % 2 ^ 64
    rw [hm.lockstep]
    exact Nat.mod_add_mod _ _ _
  | accept options id state hpc ok =>
    have hadmitted := enqueue_admitted_ok ok
    refine hm.client rfl rfl rfl rfl hm.enqueue (hadmitted.ge.trans' (Multiset.le_add_right _ _))
      fun call' other hmem => ?_
    rcases List.mem_append.mp hmem with hmem | hmem
    · exact .inl hmem
    · have hpair := List.mem_singleton.mp hmem
      simp only [Prod.mk.injEq, Answer.task.injEq, Except.ok.injEq] at hpair
      refine .inr (hadmitted.symm ▸ Multiset.mem_add.mpr (.inr ?_))
      exact Multiset.mem_singleton.mpr hpair.2
  | refuse options id state hpc refused =>
    exact hm.client rfl rfl rfl rfl hm.enqueue (enqueue_admitted_refused refused).ge
      fun _ _ => .inl
  | undo id refused hpc =>
    exact hm.client rfl rfl rfl rfl hm.lockstep le_rfl
      fun _ _ hmem => .inl (log_snoc (by simp) hmem)

theorem Books.step {label : Label} (hm : m.Books) (h : m.step label = some m') : m'.Books := by
  cases label with
  | worker i threw => exact hm.stepWorker h
  | client c choice => exact hm.stepClient h
  | stop =>
    cases Option.some.inj h
    exact ⟨hm.lockstep, hm.closing, hm.returned⟩

theorem heapSize_le {label : Label} (h : m.step label = some m') :
    m.pool.heapSize ≤ m'.pool.heapSize := by
  cases label with
  | worker i threw => exact (worker_frame h).2.2.1.ge
  | stop =>
    cases Option.some.inj h
    exact le_rfl
  | client c choice =>
    obtain ⟨call, next, -, move⟩ := stepClient_cases h
    cases move with
    | reply pool result quiet keyHolder replies => exact quiet.heapSize.ge
    | register options hpc => exact Nat.le_succ _
    | submit hpc hcall => exact enqueue_ids.2.ge
    | accept options id state hpc ok => exact enqueue_ids.2.ge
    | refuse options id state hpc refused => exact enqueue_ids.2.ge
    | _ => exact le_rfl

theorem FirstLap.before (m : Machine) (label : Label) (m' : Machine)
    (hstep : m.step label = some m') (h : m'.FirstLap) : m.FirstLap :=
  (heapSize_le hstep).trans_lt h

theorem FirstLap.start {labels : List Label} (h : m'.FirstLap)
    (hrun : runs Machine.step m labels = some m') : m.FirstLap := runs_below before hrun h

theorem Ledger.stepClient {choice : Bool} (hm : m.Ledger) (hlap : m'.FirstLap)
    (h : m.stepClient c choice = some m') : m'.Ledger := by
  have hbooks := hm.toBooks.stepClient h
  obtain ⟨call, next, -, move⟩ := stepClient_cases h
  cases move with
  | reply pool result quiet keyHolder replies =>
    exact hm.client hbooks rfl (admitted_eq rfl (queuedIds_eq quiet.tasks) rfl) quiet.heapSize.ge
      (by simp [ClientPc.pendingId])
  | goto pc goes => exact hm.client hbooks rfl rfl le_rfl (by simp [Goes.pendingId goes])
  | submit hpc hcall =>
    exact hm.client hbooks rfl enqueue_plain_admitted enqueue_ids.2.ge
      (by simp [ClientPc.pendingId])
  | register options hpc =>
    refine hm.client hbooks rfl rfl (Nat.le_succ _) fun id hid => ?_
    cases Option.some.inj hid
    rw [hm.toBooks.nextTaskId hlap]
    exact .inr ⟨rfl, le_rfl⟩
  | accept options id state hpc ok =>
    refine hm.accept hbooks rfl ?_ enqueue_ids.2 (by rw [hpc]; rfl) rfl
    rw [← Multiset.singleton_add, add_comm]
    exact enqueue_admitted_ok ok
  | refuse options id state hpc refused =>
    refine hm.client hbooks rfl (enqueue_admitted_refused refused) enqueue_ids.2.ge ?_
    intro other hother
    rw [hpc]
    exact .inl hother
  | undo id refused hpc => exact hm.client hbooks rfl rfl le_rfl (by simp [ClientPc.pendingId])

section Init

variable (options : ExecutorOptions) (hardwareConcurrency : Nat) (programs : Nat → Program Unit)

theorem slotSum_init (f : Worker → Multiset TaskId) (hf : f .idle = 0) :
    slotSum (fun _ worker => f worker)
      (Machine.init options hardwareConcurrency programs).workers = 0 := by
  apply slotSum_eq_zero
  intro i worker hi
  obtain ⟨-, rfl⟩ := List.mem_replicate.mp (List.mem_of_getElem? hi)
  exact hf

theorem admitted_init : (Machine.init options hardwareConcurrency programs).admitted = 0 := by
  unfold admitted openIds
  rw [slotSum_init _ _ _ Worker.openIds rfl]
  rfl

theorem Books.init : (Machine.init options hardwareConcurrency programs).Books := by
  refine ⟨rfl, ?_, ?_⟩
  · unfold closingIds
    rw [slotSum_init _ _ _ Worker.closingIds rfl]
    rfl
  · rintro id ⟨c, call, h⟩
    cases h

theorem Ledger.init : (Machine.init options hardwareConcurrency programs).Ledger := by
  have hadmitted := admitted_init options hardwareConcurrency programs
  refine ⟨.init _ _ _, by simp [hadmitted], by simp [hadmitted], ?_, ?_⟩
  · intro c id h
    cases h
  · intro c d id h
    cases h

theorem Table.init : (Machine.init options hardwareConcurrency programs).Table := by
  refine ⟨fun id state h => ?_, fun id hid => ?_, ?_, fun state => ?_, fun c id hc => ?_⟩
  · cases h
  · simp [admitted_init] at hid
  · simp [Machine.init]
  · simp [Machine.init]
  · cases hc

end Init

theorem Ledger.ended_disjoint (hm : m.Ledger) {id : TaskId} (h : id ∈ m.history.ended) :
    id ∉ m.queuedIds ∧ id ∉ m.openIds := by
  have hnd := hm.nodup
  unfold admitted at hnd
  have hdisj := (Multiset.nodup_add.mp hnd).2.2
  constructor
  · intro hq
    exact Multiset.disjoint_left.mp hdisj (Multiset.mem_add.mpr (.inl hq)) (Multiset.mem_coe.mpr h)
  · intro ho
    exact Multiset.disjoint_left.mp hdisj (Multiset.mem_add.mpr (.inr ho)) (Multiset.mem_coe.mpr h)

theorem Ledger.mem_ended_of_marked (hm : m.Ledger) {id : TaskId} (h : id ∈ m.history.marked) :
    id ∈ m.history.ended := by
  have : id ∈ (m.history.ended : Multiset TaskId) := by
    rw [hm.closing]
    exact Multiset.mem_add.mpr (.inr (Multiset.mem_coe.mpr h))
  exact Multiset.mem_coe.mp this

theorem Ledger.mem_admitted_of_ended {id : TaskId} (h : id ∈ m.history.ended) :
    id ∈ m.admitted := Multiset.mem_add.mpr (.inr (Multiset.mem_coe.mpr h))

theorem mem_marked_of_forgotten {id : TaskId} (h : id ∈ m.forgotten) : id ∈ m.history.marked :=
  List.mem_of_mem_take h

theorem Table.same (hm : m.Table) (hledger : m.Ledger)
    (hstates : m'.pool.states = m.pool.states) (hdoneIds : m'.pool.doneIds = m.pool.doneIds)
    (hlimit : m'.pool.maxRetainedStates = m.pool.maxRetainedStates)
    (hdone : ∀ state, (m'.pool.heap state).done = (m.pool.heap state).done)
    (hmarked : m'.history.marked = m.history.marked)
    (hadmitted : ∀ id ∈ m'.admitted, id ∈ m.admitted ∨
      ∃ c, (m.clients c).pc.pendingId = some id)
    (hpending : ∀ c id, (m'.clients c).pc.pendingId = some id →
      ∃ d, (m.clients d).pc.pendingId = some id) : m'.Table := by
  refine ⟨?_, fun id hid => ?_, ?_, ?_, fun c id hc => ?_⟩
  · rw [hstates]
    exact hm.address
  · unfold forgotten
    rw [hstates, hmarked, hlimit]
    rcases hadmitted id hid with hid | ⟨c, hc⟩
    · exact hm.present id hid
    · refine iff_of_false (hm.pending c id hc) fun hforgot => ?_
      have hended := hledger.mem_ended_of_marked (mem_marked_of_forgotten hforgot)
      exact (hledger.pending c id hc).2 (Ledger.mem_admitted_of_ended hended)
  · rw [hdoneIds, hmarked, hlimit]
    exact hm.doneIds
  · intro state
    rw [hdone, hmarked]
    exact hm.flags state
  · obtain ⟨d, hd⟩ := hpending c id hc
    rw [hstates]
    exact hm.pending d id hd

theorem Table.quiet (hm : m.Table) (hledger : m.Ledger) (quiet : m.pool.Quiet m'.pool)
    (hmarked : m'.history.marked = m.history.marked)
    (hadmitted : ∀ id ∈ m'.admitted, id ∈ m.admitted)
    (hpending : ∀ c id, (m'.clients c).pc.pendingId = some id →
      ∃ d, (m.clients d).pc.pendingId = some id) : m'.Table :=
  hm.same hledger quiet.states quiet.doneIds
    quiet.maxRetainedStates quiet.done hmarked (fun id hid => .inl (hadmitted id hid)) hpending

/-- Marking one more task shifts the retention window by one. -/
theorem drop_window (marked : List TaskId) (id : TaskId) (limit : Nat) :
    (marked.drop (marked.length - limit) ++ [id]).drop
        ((marked.drop (marked.length - limit) ++ [id]).length - limit) =
      (marked ++ [id]).drop ((marked ++ [id]).length - limit) := by
  rw [← List.drop_append_of_le_length (by omega), List.drop_drop]
  congr 1
  simp only [List.length_drop, List.length_append, List.length_singleton]
  omega

theorem mem_take_window (marked : List TaskId) (id other : TaskId) (limit : Nat) :
    other ∈ (marked ++ [id]).take ((marked ++ [id]).length - limit) ↔
      other ∈ marked.take (marked.length - limit) ∨
        other ∈ (marked.drop (marked.length - limit) ++ [id]).take
          ((marked.drop (marked.length - limit) ++ [id]).length - limit) := by
  have htake : (marked ++ [id]).take (marked.length - limit) =
      marked.take (marked.length - limit) := List.take_append_of_le_length (by omega)
  rw [← List.drop_append_of_le_length (by omega), ← List.mem_append, ← htake, ← List.take_add]
  simp only [List.length_drop, List.length_append, List.length_singleton]
  rw [show marked.length - limit + (marked.length + 1 - (marked.length - limit) - limit) =
    marked.length + 1 - limit by omega]

theorem Table.mem_marked_of_window (hm : m.Table) {id other : TaskId}
    (h : other ∈ m.pool.doneIds ++ [id]) : other ∈ m.history.marked ++ [id] := by
  rw [hm.doneIds] at h
  rcases List.mem_append.mp h with hmem | hmem
  · exact List.mem_append_left _ (List.mem_of_mem_drop hmem)
  · exact List.mem_append_right _ hmem

theorem Table.mark_flags (hm : m.Table) {id : TaskId} {state : Nat} (executed failed : Bool)
    (hstate : m.pool.states id = some state) (other : Nat) :
    ((m.pool.markTaskDone id executed failed).heap other).done = true ↔
      other + 1 ∈ m.history.marked ++ [id] := by
  rw [Pool.markTaskDone_heap executed failed hstate]
  by_cases heq : other = state
  · simp [heq, hm.address id state hstate]
  · have hne : other + 1 ≠ id := by
      rw [hm.address id state hstate]
      omega
    rw [Function.update_of_ne heq, hm.flags]
    simp [hne]

theorem Table.mark_states (hm : m.Table) {id : TaskId} {state : Nat} (executed failed : Bool)
    (hstate : m.pool.states id = some state) (other : TaskId) :
    (m.pool.markTaskDone id executed failed).states other =
      if other ∈ (m.pool.doneIds ++ [id]).take
          ((m.pool.doneIds ++ [id]).length - m.pool.maxRetainedStates)
      then none else m.pool.states other := by
  refine Pool.markTaskDone_states executed failed hstate (fun other hother state' hstate' => ?_) other
  rw [hm.mark_flags executed failed hstate, ← hm.address other state' hstate']
  exact hm.mem_marked_of_window hother

theorem Table.mark {id : TaskId} {executed failed : Bool} (hm : m.Table) (hledger : m.Ledger)
    (hid : id ∈ m.admitted) (hfirst : id ∉ m.history.marked)
    (hpool : m'.pool = m.pool.markTaskDone id executed failed) (hclients : m'.clients = m.clients)
    (hadmitted : m'.admitted = m.admitted)
    (hmarked : m'.history.marked = m.history.marked ++ [id]) : m'.Table := by
  obtain ⟨state, hstate⟩ : ∃ state, m.pool.states id = some state := by
    apply Option.ne_none_iff_exists'.mp
    intro hnone
    exact hfirst (mem_marked_of_forgotten ((hm.present id hid).mp hnone))
  have hlimit := (Pool.markTaskDone_counters m.pool id executed failed).2.2
  have hstates := hm.mark_states executed failed hstate
  have hkeep : ∀ other, other ∉ m.history.marked ++ [id] →
      (m.pool.markTaskDone id executed failed).states other = m.pool.states other := by
    intro other hother
    rw [hstates, if_neg]
    exact fun hmem => hother (hm.mem_marked_of_window (List.mem_of_mem_take hmem))
  refine ⟨?_, ?_, ?_, ?_, ?_⟩
  · intro other state' hother
    rw [hpool, hstates] at hother
    split_ifs at hother
    exact hm.address other state' hother
  · intro other hother
    rw [hadmitted] at hother
    have hwindow := mem_take_window m.history.marked id other m.pool.maxRetainedStates
    rw [← hm.doneIds] at hwindow
    have hbefore : m.pool.states other = none ↔
        other ∈ m.history.marked.take (m.history.marked.length - m.pool.maxRetainedStates) :=
      hm.present other hother
    unfold forgotten
    rw [hpool, hmarked, hlimit, hwindow, hstates, ← hbefore]
    split_ifs with hpopped
    · exact iff_of_true rfl (.inr hpopped)
    · exact (or_iff_left hpopped).symm
  · rw [hpool, hmarked, hlimit, Pool.markTaskDone_doneIds executed failed hstate, hm.doneIds]
    exact drop_window _ _ _
  · rw [hpool, hmarked]
    exact hm.mark_flags executed failed hstate
  · intro c other hc
    rw [hclients] at hc
    have hnot := (hledger.pending c other hc).2
    rw [hpool, hkeep]
    · exact hm.pending c other hc
    · intro hmem
      rcases List.mem_append.mp hmem with hmem | hmem
      · exact hnot (Ledger.mem_admitted_of_ended (hledger.mem_ended_of_marked hmem))
      · cases List.mem_singleton.mp hmem
        exact hnot hid

theorem Ledger.closing_fresh (hm : m.Ledger) {worker : Worker} {id : TaskId}
    (hold : m.workers[i]? = some worker) (hid : worker.closingIds = {id}) :
    id ∈ m.admitted ∧ id ∉ m.history.marked := by
  have hnd := hm.nodup
  unfold admitted at hnd
  have hended := (Multiset.nodup_add.mp hnd).2.1
  rw [hm.closing] at hended
  have hmem : id ∈ m.closingIds := mem_slotSum.mpr ⟨i, worker, hold, by simp [hid]⟩
  constructor
  · apply Ledger.mem_admitted_of_ended
    rw [← Multiset.mem_coe, hm.closing]
    exact Multiset.mem_add.mpr (.inl hmem)
  · intro hmarked
    exact Multiset.disjoint_left.mp (Multiset.nodup_add.mp hended).2.2 hmem
      (Multiset.mem_coe.mpr hmarked)

theorem Table.stepWorker {threw : Bool} (hm : m.Table) (hledger : m.Ledger)
    (h : m.stepWorker i threw = some m') : m'.Table := by
  have hadmitted := (worker_ids h hledger.toBooks).1
  obtain ⟨old, hold, move⟩ := stepWorker_cases h
  cases move with
  | stage entry stage next ended move quiet workers clients history =>
    refine hm.quiet hledger quiet (by rw [history]) (by simp [hadmitted]) fun c id hc => ?_
    rw [clients] at hc
    exact ⟨c, hc⟩
  | mark entry stage next executed failed fn marks next_eq =>
    rename_i id state serialKey
    have hclosing : (Worker.inside entry stage).closingIds = {id} := by
      cases stage <;> simp_all [Worker.closingIds, Stage.marks, Closure.ids]
    obtain ⟨hid, hfirst⟩ := hledger.closing_fresh hold hclosing
    exact hm.mark hledger hid hfirst rfl rfl hadmitted rfl
  | _ =>
    exact hm.same hledger rfl rfl rfl (fun _ => rfl) rfl
      (fun id hid => .inl (hadmitted ▸ hid)) fun c id hc => ⟨c, hc⟩

theorem pending_update {client : Client} (hclients : m'.clients = Function.update m.clients c client)
    (hpc : ∀ id, client.pc.pendingId = some id → (m.clients c).pc.pendingId = some id) :
    ∀ d id, (m'.clients d).pc.pendingId = some id →
      ∃ e, (m.clients e).pc.pendingId = some id := by
  intro d id hd
  refine ⟨d, ?_⟩
  rw [hclients] at hd
  by_cases heq : d = c
  · subst heq
    rw [Function.update_self] at hd
    exact hpc id hd
  · rw [Function.update_of_ne heq] at hd
    exact hd

theorem Table.register {options : TaskSubmitOptions} (hm : m.Table) (hledger : m.Ledger)
    (hnext : m.pool.nextTaskId = m.pool.heapSize + 1)
    (hpc : (m.clients c).pc = .registering options) :
    ({ m with pool := m.pool.register.2 }.setPc c
      (.enqueueing options m.pool.nextTaskId m.pool.heapSize)).Table := by
  have hfresh : m.pool.nextTaskId ∉ m.admitted := fun h =>
    absurd (hledger.registered _ h) (hnext ▸ Nat.not_succ_le_self _)
  refine ⟨fun id state hid => ?_, fun id hid => ?_, hm.doneIds, fun state => ?_,
    fun d id hd => ?_⟩
  · simp only [setPc, Pool.register] at hid
    by_cases heq : id = m.pool.nextTaskId
    · subst heq
      rw [Function.update_self] at hid
      cases Option.some.inj hid
      exact hnext
    · rw [Function.update_of_ne heq] at hid
      exact hm.address id state hid
  · have hne : id ≠ m.pool.nextTaskId := fun heq => hfresh (heq ▸ hid)
    have hbefore := hm.present id hid
    simp only [setPc, Pool.register, Function.update_of_ne hne]
    exact hbefore
  · simp only [setPc, Pool.register]
    by_cases heq : state = m.pool.heapSize
    · subst heq
      rw [Function.update_self]
      refine iff_of_false (by simp) fun hmarked => ?_
      rw [← hnext] at hmarked
      exact hfresh (Ledger.mem_admitted_of_ended (hledger.mem_ended_of_marked hmarked))
    · rw [Function.update_of_ne heq]
      exact hm.flags state
  · simp only [setPc, Pool.register] at hd ⊢
    by_cases heq : id = m.pool.nextTaskId
    · simp [heq]
    · rw [Function.update_of_ne heq]
      by_cases hdc : d = c
      · subst hdc
        rw [Function.update_self] at hd
        exact absurd (Option.some.inj hd).symm heq
      · rw [Function.update_of_ne hdc] at hd
        exact hm.pending d id hd

theorem Table.unregister {id : TaskId} {refused : Status} {call : Call}
    {next : Answer → Program Unit} {result : Answer} (hm : m.Table) (hledger : m.Ledger)
    (hpc : (m.clients c).pc = .undoing id refused) :
    ({ m with pool := m.pool.unregister id }.answer c call next result).Table := by
  have hpending : (m.clients c).pc.pendingId = some id := by
    rw [hpc]
    rfl
  refine ⟨fun other state hother => ?_, fun other hother => ?_, hm.doneIds, hm.flags,
    fun d other hd => ?_⟩
  · simp only [answer, Pool.unregister] at hother
    by_cases heq : other = id
    · subst heq
      rw [Function.update_self] at hother
      cases hother
    · rw [Function.update_of_ne heq] at hother
      exact hm.address other state hother
  · have hne : other ≠ id := by
      rintro rfl
      exact (hledger.pending c other hpending).2 hother
    have hbefore := hm.present other hother
    simp only [answer, Pool.unregister, Function.update_of_ne hne]
    exact hbefore
  · simp only [answer, Pool.unregister] at hd ⊢
    by_cases hdc : d = c
    · subst hdc
      rw [Function.update_self] at hd
      cases hd
    · rw [Function.update_of_ne hdc] at hd
      have hne : other ≠ id := by
        rintro rfl
        exact hdc (hledger.distinct d c other hd hpending)
      rw [Function.update_of_ne hne]
      exact hm.pending d other hd

theorem Table.enqueue {fn : Closure} {options : TaskSubmitOptions} (hm : m.Table)
    (hledger : m.Ledger) (hpool : m'.pool = (m.enqueue fn options).2.pool)
    (hmarked : m'.history.marked = m.history.marked)
    (hadmitted : ∀ id ∈ m'.admitted, id ∈ m.admitted ∨
      ∃ c, (m.clients c).pc.pendingId = some id)
    (hpending : ∀ c id, (m'.clients c).pc.pendingId = some id →
      ∃ d, (m.clients d).pc.pendingId = some id) : m'.Table := by
  cases hok : (m.enqueue fn options).1.ok with
  | true =>
    have haccepts := Pool.enqueue_accepts hok
    refine hm.same hledger ?_ ?_ ?_ (fun state => ?_) hmarked hadmitted hpending <;> rw [hpool]
    exacts [haccepts.states, haccepts.doneIds, haccepts.maxRetainedStates,
      congrArg (fun heap => (heap state).done) haccepts.heap]
  | false =>
    have hquiet := Pool.enqueue_refuses hok
    refine hm.same hledger ?_ ?_ ?_ (fun state => ?_) hmarked hadmitted hpending <;> rw [hpool]
    exacts [hquiet.states, hquiet.doneIds, hquiet.maxRetainedStates, hquiet.done state]

theorem enqueue_admitted {fn : Closure} {options : TaskSubmitOptions} {id : TaskId}
    (h : id ∈ (m.enqueue fn options).2.admitted) :
    id ∈ m.admitted ∨ id ∈ fn.ids := by
  unfold admitted at h ⊢
  cases hok : (m.enqueue fn options).1.ok with
  | true =>
    rw [enqueue_queuedIds_ok hok] at h
    simp only [Multiset.mem_add] at h ⊢
    rcases h with ((h | h) | h) | h
    · exact .inl (.inl (.inl h))
    · exact .inr h
    · exact .inl (.inl (.inr h))
    · exact .inl (.inr h)
  | false =>
    rw [enqueue_queuedIds_refused hok] at h
    exact .inl h

theorem Table.stepClient {choice : Bool} (hm : m.Table) (hledger : m.Ledger)
    (hlap : m'.FirstLap) (h : m.stepClient c choice = some m') : m'.Table := by
  obtain ⟨call, next, -, move⟩ := stepClient_cases h
  cases move with
  | reply pool result quiet keyHolder replies =>
    have hadmitted : ({ m with pool := pool }.answer c call next result).admitted = m.admitted :=
      admitted_eq rfl (queuedIds_eq quiet.tasks) rfl
    exact hm.quiet hledger quiet rfl (fun id hid => hadmitted ▸ hid)
      (pending_update rfl (by simp [ClientPc.pendingId]))
  | goto pc goes =>
    exact hm.quiet hledger (.refl _) rfl (fun _ => id)
      (pending_update rfl (by simp [Goes.pendingId goes]))
  | submit hpc hcall =>
    refine hm.enqueue hledger rfl rfl (fun id hid => ?_)
      (pending_update rfl (by simp [ClientPc.pendingId]))
    rcases enqueue_admitted hid with hid | hid
    · exact .inl hid
    · simp [Closure.ids] at hid
  | register options hpc => exact hm.register hledger (hledger.toBooks.nextTaskId hlap) hpc
  | accept options id state hpc ok =>
    refine hm.enqueue hledger rfl rfl (fun other hother => ?_)
      (pending_update rfl (by simp [ClientPc.pendingId]))
    rcases enqueue_admitted hother with hother | hother
    · exact .inl hother
    · cases Multiset.mem_singleton.mp hother
      exact .inr ⟨c, by rw [hpc]; rfl⟩
  | refuse options id state hpc refused =>
    refine hm.enqueue hledger rfl rfl (fun other hother => ?_)
      (pending_update rfl (by rw [hpc]; exact fun _ h => h))
    rcases enqueue_admitted hother with hother | hother
    · exact .inl hother
    · cases Multiset.mem_singleton.mp hother
      exact .inr ⟨c, by rw [hpc]; rfl⟩
  | undo id refused hpc => exact hm.unregister hledger hpc

/-- What the executor knows of its tracked tasks, on the first lap of the ids. -/
structure Known (m : Machine) : Prop where
  ledger : m.Ledger
  table : m.Table

theorem Known.step {label : Label} (hm : m.Known) (hlap : m'.FirstLap)
    (h : m.step label = some m') : m'.Known := by
  cases label with
  | worker i threw => exact ⟨hm.ledger.stepWorker h, hm.table.stepWorker hm.ledger h⟩
  | client c choice => exact ⟨hm.ledger.stepClient hlap h, hm.table.stepClient hm.ledger hlap h⟩
  | stop =>
    have hbooks := hm.ledger.toBooks.step h
    cases Option.some.inj h
    obtain ⟨hledger, htable⟩ := hm
    exact ⟨⟨hbooks, hledger.nodup, hledger.registered, hledger.pending, hledger.distinct⟩,
      ⟨htable.address, htable.present, htable.doneIds, htable.flags, htable.pending⟩⟩

theorem Known.of_run {options : ExecutorOptions} {hardwareConcurrency : Nat}
    {programs : Nat → Program Unit} {labels : List Label}
    (h : runs Machine.step (Machine.init options hardwareConcurrency programs) labels = some m)
    (hlap : m.FirstLap) : m.Known :=
  runs_invariant_below FirstLap.before (fun _ _ _ hm hlap hstep => hm.step hlap hstep)
    ⟨.init _ _ _, .init _ _ _⟩ h hlap

theorem Known.found (hm : m.Known) {id : TaskId} (hreturned : m.Returned id)
    (hkept : id ∉ m.forgotten) : m.pool.states id ≠ none := fun hnone =>
  hkept ((hm.table.present id (hm.ledger.returned id hreturned)).mp hnone)

theorem Known.ended_of_done (hm : m.Known) {state : Nat} (h : (m.pool.heap state).done = true) :
    state + 1 ∈ m.history.ended :=
  hm.ledger.mem_ended_of_marked ((hm.table.flags state).mp h)

theorem Known.done_at_rest (hm : m.Known) (htasks : m.pool.tasks = [])
    (hidle : ∀ (i : Nat) (worker : Worker), m.workers[i]? = some worker →
      worker = .idle ∨ worker = .exited) {state : Nat} (hadmitted : state + 1 ∈ m.admitted) :
    (m.pool.heap state).done = true := by
  have hnobody : ∀ f : Worker → Multiset TaskId, f .idle = 0 → f .exited = 0 →
      slotSum (fun _ worker => f worker) m.workers = 0 := by
    intro f hf hf'
    refine slotSum_eq_zero fun i worker hi => ?_
    rcases hidle i worker hi with rfl | rfl
    · exact hf
    · exact hf'
  have hended : state + 1 ∈ m.history.ended := by
    simpa [Machine.admitted, Machine.queuedIds, htasks, Machine.openIds,
      hnobody Worker.openIds rfl rfl] using hadmitted
  have hclosing := hm.ledger.closing
  rw [Machine.closingIds, hnobody Worker.closingIds rfl rfl, zero_add] at hclosing
  exact (hm.table.flags state).mpr (Multiset.mem_coe.mp (hclosing ▸ Multiset.mem_coe.mpr hended))

end Machine

end Corekit.Task
