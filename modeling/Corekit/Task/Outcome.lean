import Corekit.Task.Barrier
import Corekit.Task.BatchWait

/-! The flags of a task state agree with where its task is: `started`, `canceled`
and `succeeded` say what the workers did with it. -/
namespace Corekit.Task
open Corekit.Api Corekit.Foundation

theorem Closure.mem_ids {fn : Closure} {id : TaskId} : id ∈ fn.ids ↔ fn.id? = some id := by
  cases fn with
  | plain => simp [ids, id?]
  | tracked other state serialKey => simp [ids, id?, eq_comm]

namespace Watch

variable {w w' : Watch} {m : Machine} {i c : Nat}

/-- Which entry belongs to which id, and which task state. -/
structure Named (w : Watch) : Prop where
  ids : (w.accepted.map fun entry => entry.fn.ids).sum = w.machine.admitted
  address : ∀ entry ∈ w.accepted, ∀ id state serialKey,
    entry.fn = .tracked id state serialKey → id = state + 1
  enqueueing : ∀ c options id state,
    (w.machine.clients c).pc = .enqueueing options id state → id = state + 1

theorem Named.unique (hw : w.Named) (hknown : w.machine.Known) {entry entry' : TaskEntry}
    (hentry : entry ∈ w.accepted) (hentry' : entry' ∈ w.accepted) {id : TaskId}
    (hid : entry.fn.id? = some id) (hid' : entry'.fn.id? = some id) : entry = entry' := by
  have hnodup := hknown.ledger.nodup
  rw [← hw.ids] at hnodup
  exact owner_unique hnodup hentry hentry' (Closure.mem_ids.mpr hid) (Closure.mem_ids.mpr hid')

theorem Named.admitted (hw : w.Named) {entry : TaskEntry} (hentry : entry ∈ w.accepted)
    {id : TaskId} (hid : entry.fn.id? = some id) : id ∈ w.machine.admitted := by
  rw [← hw.ids]
  exact mem_owned.mpr ⟨entry, hentry, Closure.mem_ids.mpr hid⟩

theorem client_admits {choice : Bool} {m' : Machine} (h : m.stepClient c choice = some m') :
    (m'.pool.tasks = m.pool.tasks ∧ m'.admitted = m.admitted) ∨
      ∃ entry, m'.pool.tasks = m.pool.tasks ++ [entry] ∧
        m'.admitted = m.admitted + entry.fn.ids ∧
        (entry.fn = .plain ∨ ∃ options id state, (m.clients c).pc = .enqueueing options id state ∧
          entry.fn = .tracked id state options.serialKey) := by
  have henqueue : ∀ (fn : Closure) (options : TaskSubmitOptions),
      m'.workers = m.workers → m'.history.ended = m.history.ended →
      m'.pool = (m.enqueue fn options).2.pool →
      (fn = .plain ∨ ∃ options id state, (m.clients c).pc = .enqueueing options id state ∧
        fn = .tracked id state options.serialKey) →
      (m'.pool.tasks = m.pool.tasks ∧ m'.admitted = m.admitted) ∨
        ∃ entry, m'.pool.tasks = m.pool.tasks ++ [entry] ∧
          m'.admitted = m.admitted + entry.fn.ids ∧
          (entry.fn = .plain ∨ ∃ options id state,
            (m.clients c).pc = .enqueueing options id state ∧
            entry.fn = .tracked id state options.serialKey) := by
    intro fn options hworkers hended hpool hfn
    rcases enqueue_tasks (m := m) fn options with ⟨-, htasks⟩ | ⟨hok, htasks⟩ <;>
      rw [← hpool] at htasks
    · exact .inl ⟨htasks, Machine.admitted_eq hworkers (Machine.queuedIds_eq htasks) hended⟩
    · refine .inr ⟨_, htasks, ?_, hfn⟩
      have hqueued : m'.queuedIds = m.queuedIds + fn.ids := by
        unfold Machine.queuedIds
        rw [htasks, List.map_append, List.sum_append, List.map_singleton, List.sum_singleton]
      unfold Machine.admitted Machine.openIds
      rw [hqueued, hworkers, hended]
      ac_rfl
  have hquiet : m'.workers = m.workers → m'.history.ended = m.history.ended →
      m'.pool.tasks = m.pool.tasks → m'.pool.tasks = m.pool.tasks ∧ m'.admitted = m.admitted :=
    fun hworkers hended htasks =>
      ⟨htasks, Machine.admitted_eq hworkers (Machine.queuedIds_eq htasks) hended⟩
  obtain ⟨call, next, -, move⟩ := Machine.stepClient_cases h
  cases move with
  | reply pool result quiet keyHolder replies => exact .inl (hquiet rfl rfl quiet.tasks)
  | goto pc goes => exact .inl (hquiet rfl rfl rfl)
  | submit hpc hcall => exact henqueue .plain {} rfl rfl rfl (.inl rfl)
  | register options hpc => exact .inl (hquiet rfl rfl rfl)
  | accept options id state hpc ok =>
    exact henqueue _ options rfl rfl rfl (.inr ⟨options, id, state, hpc, rfl⟩)
  | refuse options id state hpc refused =>
    exact henqueue _ options rfl rfl rfl (.inr ⟨options, id, state, hpc, rfl⟩)
  | undo id refused hpc => exact .inl (hquiet rfl rfl rfl)

theorem client_enqueueing {choice : Bool} {m' : Machine} (hbooks : m.Books)
    (hlap : m'.FirstLap)
    (hm : ∀ c options id state, (m.clients c).pc = .enqueueing options id state → id = state + 1)
    (h : m.stepClient c choice = some m') :
    ∀ c options id state, (m'.clients c).pc = .enqueueing options id state → id = state + 1 := by
  have hupdate : ∀ client : Client, m'.clients = Function.update m.clients c client →
      (∀ options id state, client.pc = .enqueueing options id state → id = state + 1) →
      ∀ c options id state, (m'.clients c).pc = .enqueueing options id state → id = state + 1 := by
    intro client hclients hclient d options id state hd
    rw [hclients] at hd
    by_cases heq : d = c
    · subst heq
      rw [Function.update_self] at hd
      exact hclient options id state hd
    · rw [Function.update_of_ne heq] at hd
      exact hm d options id state hd
  obtain ⟨call, next, -, move⟩ := Machine.stepClient_cases h
  cases move with
  | reply pool result quiet keyHolder replies => exact hupdate _ rfl (by simp)
  | goto pc goes =>
    refine hupdate _ rfl fun options id state hpc => ?_
    have hnone := Machine.Goes.pendingId goes
    rw [show pc = .enqueueing options id state from hpc] at hnone
    cases hnone
  | submit hpc hcall => exact hupdate _ rfl (by simp)
  | register options hpc =>
    refine hupdate _ rfl fun options id state hpc => ?_
    cases hpc
    exact hbooks.nextTaskId hlap
  | accept options id state hpc ok => exact hupdate _ rfl (by simp)
  | refuse options id state hpc refused => exact hupdate _ rfl (by simp)
  | undo id refused hpc => exact hupdate _ rfl (by simp)

theorem Named.step {label : Label} (hw : w.Named) (hbooks : w.machine.Books)
    (hlap : w'.machine.FirstLap) (h : w.step label = some w') : w'.Named := by
  obtain ⟨m, hm, rfl⟩ := Option.map_eq_some_iff.mp h
  cases label with
  | worker i threw =>
    have hdrop := List.drop_eq_nil_of_le (worker_tasks hm)
    simp only [hdrop, List.append_nil]
    constructor
    · exact hw.ids.trans (Machine.worker_ids hm hbooks).1.symm
    · exact hw.address
    · dsimp only
      rw [(Machine.worker_frame hm).1]
      exact hw.enqueueing
  | client c choice =>
    have henqueueing := client_enqueueing hbooks hlap hw.enqueueing hm
    rcases client_admits hm with ⟨htasks, hadmitted⟩ | ⟨entry, htasks, hadmitted, hfn⟩
    · simp only [htasks, List.drop_length, List.append_nil]
      exact ⟨hw.ids.trans hadmitted.symm, hw.address, henqueueing⟩
    · simp only [htasks, List.drop_left]
      refine ⟨?_, ?_, henqueueing⟩
      · rw [List.map_append, List.sum_append, hw.ids, hadmitted, List.map_singleton,
          List.sum_singleton]
      · intro other hother id state serialKey hother_fn
        rcases List.mem_append.mp hother with hother | hother
        · exact hw.address other hother id state serialKey hother_fn
        · cases List.mem_singleton.mp hother
          rcases hfn with hplain | ⟨options, id', state', hpc, htracked⟩
          · cases hplain.symm.trans hother_fn
          · cases htracked.symm.trans hother_fn
            exact hw.enqueueing c options _ _ hpc
  | stop =>
    cases Option.some.inj hm
    simp only [List.drop_length, List.append_nil]
    exact ⟨hw.ids, hw.address, hw.enqueueing⟩

end Watch

/-- What the flags of a task state say about a task at a station. -/
def Station.Agrees (state : TaskState) : Station → Prop
  | .queued => True
  | .waiting => True
  | .running => state.started = true ∧ state.canceled = false
  | .ended outcome => state.started = true ∧ (state.canceled = true ↔ outcome = .skipped)
  | .recorded outcome => state.started = true ∧ (state.canceled = true ↔ outcome = .skipped) ∧
      (state.succeeded = true ↔ outcome = .returned)

/-- A task whose flags say that it may still be canceled has not been called. -/
theorem Station.Agrees.early {state : TaskState} {s : Station} (h : s.Agrees state)
    (hstarted : state.started = false) : s = .queued ∨ s = .waiting := by
  cases s with
  | queued => exact .inl rfl
  | waiting => exact .inr rfl
  | running => exact absurd (h.1.symm.trans hstarted) (by decide)
  | ended outcome => exact absurd (h.1.symm.trans hstarted) (by decide)
  | recorded outcome => exact absurd (h.1.symm.trans hstarted) (by decide)

namespace EntryMove

variable {p q : Pool} {entry : TaskEntry} {s s' : Station} {arrivals : List (TaskEntry × Station)}
  {id state serialKey : Nat}

theorem agrees (h : EntryMove p q entry s s' arrivals)
    (hfn : entry.fn = .tracked id state serialKey) (hstate : p.states id = some state)
    (hs : s.Agrees (p.heap state)) : s'.Agrees (q.heap state) := by
  cases h with
  | take same => trivial
  | callPlain fn same => cases hfn.symm.trans fn
  | call fn canceled heap table tally =>
    cases hfn.symm.trans fn
    rw [heap, Function.update_self]
    exact ⟨rfl, canceled⟩
  | skip fn canceled heap table tally =>
    cases hfn.symm.trans fn
    rw [heap, Function.update_self]
    exact ⟨rfl, by simpa using canceled⟩
  | finish threw same =>
    rw [same.heap]
    refine ⟨hs.1, ?_⟩
    rw [hs.2]
    cases threw <;> simp [Outcome.of]
  | record failed fn heap table tally => cases hfn.symm.trans fn
  | mark outcome fn pool =>
    cases hfn.symm.trans fn
    rw [pool, Pool.markTaskDone_heap _ _ hstate, Function.update_self]
    refine ⟨hs.1, hs.2, ?_⟩
    cases outcome <;> simp

theorem frame (h : EntryMove p q entry s s' arrivals)
    (haddress : ∀ id state, p.states id = some state → id = state + 1) {other : Nat}
    (hother : entry.fn.id? ≠ some (other + 1))
    (hentry : ∀ id state serialKey, entry.fn = .tracked id state serialKey → id = state + 1) :
    q.heap other = p.heap other := by
  have hne : ∀ {id state serialKey : Nat}, entry.fn = .tracked id state serialKey →
      other ≠ state := by
    rintro id state serialKey hfn rfl
    apply hother
    rw [hfn, Closure.id?, hentry _ _ _ hfn]
  cases h with
  | take same => rw [same.heap]
  | callPlain fn same => rw [same.heap]
  | call fn canceled heap table tally => rw [heap, Function.update_of_ne (hne fn)]
  | skip fn canceled heap table tally => rw [heap, Function.update_of_ne (hne fn)]
  | finish threw same => rw [same.heap]
  | record failed fn heap table tally => rw [heap]
  | mark outcome fn pool =>
    rename_i id state serialKey
    rw [pool]
    cases hstate : p.states id with
    | none => simp [Pool.markTaskDone, hstate]
    | some found =>
      rw [Pool.markTaskDone_heap _ _ hstate, Function.update_of_ne]
      have hfound : found = state :=
        Nat.succ.inj ((haddress id found hstate).symm.trans (hentry _ _ _ fn))
      rw [hfound]
      exact hne fn

end EntryMove

namespace Watch

variable {w w' : Watch} {m : Machine} {i c : Nat}

theorem mem_accepted_of_place (hw : w.Sound) {x : TaskEntry × Station} (hx : x ∈ w.places) :
    x.1 ∈ w.accepted := by
  rw [← Multiset.mem_coe, hw.accepted]
  exact Multiset.mem_map_of_mem Prod.fst hx

/-- The marked ids are those of the tracked entries that are over. -/
def Marks (w : Watch) : Prop := w.machine.history.marked = w.trail.filterMap markedId

def Flagged (w : Watch) : Prop :=
  ∀ x ∈ w.places, ∀ id state serialKey, x.1.fn = .tracked id state serialKey →
    x.2.Agrees (w.machine.pool.heap state)

theorem Marks.step {label : Label} (hw : w.Marks) (h : w.step label = some w') : w'.Marks := by
  obtain ⟨m, hm, rfl⟩ := Option.map_eq_some_iff.mp h
  unfold Marks at hw ⊢
  dsimp only
  rw [List.filterMap_append, ← hw]
  cases label with
  | worker i threw =>
    have hshift := worker_shift [] [] [] hm
    generalize w.machine.arrivals (.worker i threw) = arrivals at hshift ⊢
    cases hshift with
    | stay same marked places => simpa using marked
    | move entry s s' rest entryMove marked before_eq after_eq => exact marked
  | client c choice =>
    obtain ⟨call, next, -, move⟩ := Machine.stepClient_cases hm
    cases move <;> exact (List.append_nil _).symm
  | stop =>
    cases Option.some.inj hm
    exact (List.append_nil _).symm

theorem state_of_place (hsound : w.Sound) (hknown : w.machine.Known) (hnamed : w.Named)
    (hmarks : w.Marks) {x : TaskEntry × Station} (hx : x ∈ w.places) (hopen : x.2.isOver = false)
    {id state serialKey : Nat} (hfn : x.1.fn = .tracked id state serialKey) :
    w.machine.pool.states id = some state := by
  have haccepted := mem_accepted_of_place hsound hx
  have hid : x.1.fn.id? = some id := by rw [hfn]; rfl
  have hnot : id ∉ w.machine.history.marked := by
    intro hmarked
    rw [hmarks, List.mem_filterMap] at hmarked
    obtain ⟨y, hy, hyid⟩ := hmarked
    unfold markedId at hyid
    split at hyid
    · next hover =>
      have hyitem := hsound.tracks.known y hy
      rw [← hsound.accepted, Multiset.mem_coe] at hyitem
      have hsame := hnamed.unique hknown hyitem haccepted hyid hid
      -- the path to a station that is not over has no such stop
      have hstop : y.2 ∈ x.2.path := by
        rw [← hsound.tracks.follows x hx, mem_trailOf, ← hsame]
        exact hy
      revert hstop hover hopen
      rcases x with ⟨_, s⟩
      rcases y with ⟨_, t⟩
      rcases s with _ | _ | _ | (_ | _ | _) | _ <;> cases t <;>
        simp [Station.path, Station.isOver]
    · cases hyid
  cases hstate : w.machine.pool.states id with
  | none =>
    have hforgot := (hknown.table.present id (hnamed.admitted haccepted hid)).mp hstate
    exact absurd (Machine.mem_marked_of_forgotten hforgot) hnot
  | some found =>
    have hfound := hknown.table.address id found hstate
    rw [Nat.succ.inj (hfound.symm.trans (hnamed.address _ haccepted _ _ _ hfn))]

theorem Flagged.stepWorker {threw : Bool} {accepted : List TaskEntry} (hw : w.Flagged)
    (hsound : w.Sound) (hknown : w.machine.Known) (hnamed : w.Named) (hmarks : w.Marks)
    (h : w.machine.stepWorker i threw = some m) :
    Flagged ⟨m, accepted, w.trail ++ w.machine.arrivals (.worker i threw)⟩ := by
  have hshift := worker_shift w.accepted accepted w.trail h
  generalize w.machine.arrivals (.worker i threw) = arrivals at hshift ⊢
  intro x hx id state serialKey hfn
  cases hshift with
  | stay same marked places =>
    rw [places] at hx
    rw [same.heap]
    exact hw x hx id state serialKey hfn
  | move entry s s' rest entryMove marked before_eq after_eq =>
    have hitem : (entry, s) ∈ w.places := by
      rw [show w.places = _ from before_eq]
      exact Multiset.mem_cons_self _ _
    rw [after_eq] at hx
    rcases Multiset.mem_cons.mp hx with rfl | hx
    · have hopen : s.isOver = false := by cases entryMove <;> rfl
      exact entryMove.agrees hfn (state_of_place hsound hknown hnamed hmarks hitem hopen hfn)
        (hw _ hitem id state serialKey hfn)
    · have hother : x ∈ w.places := by
        rw [show w.places = _ from before_eq]
        exact Multiset.mem_cons_of_mem hx
      have hne : x.1 ≠ entry := by
        have htracks := hsound.tracks
        rw [show w.places = _ from before_eq] at htracks
        exact fun heq => htracks.not_mem_rest (heq ▸ Multiset.mem_map_of_mem Prod.fst hx)
      have haccepted := mem_accepted_of_place hsound hother
      have hentry := mem_accepted_of_place hsound hitem
      have hid : entry.fn.id? ≠ some (state + 1) := by
        intro heq
        apply hne
        refine hnamed.unique hknown haccepted hentry ?_ heq
        rw [hfn, Closure.id?, hnamed.address _ haccepted _ _ _ hfn]
      dsimp only
      rw [entryMove.frame hknown.table.address hid (hnamed.address entry hentry)]
      exact hw x hother id state serialKey hfn

theorem client_places {choice : Bool} {accepted : List TaskEntry}
    (h : w.machine.stepClient c choice = some m) {x : TaskEntry × Station}
    (hx : x ∈ places ⟨m, accepted, w.trail⟩) : x ∈ w.places ∨ x.2 = .queued := by
  obtain ⟨hworkers, -, htasks⟩ := client_tasks h
  simp only [places, hworkers, Multiset.mem_add, Multiset.mem_coe] at hx ⊢
  rcases hx with (hx | hx) | hx
  · obtain ⟨entry, -, rfl⟩ := List.mem_map.mp hx
    exact .inr rfl
  · exact .inl (.inl (.inr hx))
  · exact .inl (.inr hx)

theorem client_heap {choice : Bool} {m' : Machine} (h : m.stepClient c choice = some m')
    {state : Nat} (hstate : state < m.pool.heapSize) :
    m'.pool.heap state = m.pool.heap state ∨
      ((m.pool.heap state).started = false ∧
        m'.pool.heap state = { m.pool.heap state with canceled := true }) := by
  have henqueue : ∀ (fn : Closure) (options : TaskSubmitOptions),
      (m.enqueue fn options).2.pool.heap = m.pool.heap := by
    intro fn options
    simp only [Machine.enqueue, Pool.enqueue]
    split_ifs <;> rfl
  obtain ⟨call, next, -, hstep⟩ := Machine.stepClient_exact h
  cases hstep with
  | reply result direct replies => exact .inl rfl
  | cancel id hpc hcall =>
    simp only [Machine.answer, Pool.tryCancel]
    cases m.pool.states id with
    | none => exact .inl rfl
    | some found =>
      dsimp only
      split_ifs with hguard
      · exact .inl rfl
      · by_cases heq : state = found
        · subst heq
          simp only [not_or, Bool.not_eq_true] at hguard
          exact .inr ⟨hguard.1, Function.update_self ..⟩
        · exact .inl (Function.update_of_ne heq ..)
  | reconfigure options hpc hcall => exact .inl rfl
  | goto pc goes => exact .inl rfl
  | submit hpc hcall => exact .inl (congrFun (henqueue _ _) state)
  | register options hpc => exact .inl (Function.update_of_ne (Nat.ne_of_lt hstate) ..)
  | accept options id state hpc ok => exact .inl (congrFun (henqueue _ _) _)
  | refuse options id state hpc refused => exact .inl (congrFun (henqueue _ _) _)
  | undo id refused hpc => exact .inl rfl

theorem Named.state_lt (hw : w.Named) (hknown : w.machine.Known) {entry : TaskEntry}
    (hentry : entry ∈ w.accepted) {id state serialKey : Nat}
    (hfn : entry.fn = .tracked id state serialKey) : state < w.machine.pool.heapSize := by
  have hid := hw.admitted hentry (show entry.fn.id? = some id by rw [hfn]; rfl)
  have hle := hknown.ledger.registered id hid
  rwa [hw.address entry hentry _ _ _ hfn] at hle

theorem Flagged.step {label : Label} (hw : w.Flagged) (hsound : w.Sound)
    (hknown : w.machine.Known) (hnamed : w.Named) (hmarks : w.Marks)
    (h : w.step label = some w') : w'.Flagged := by
  obtain ⟨m, hm, rfl⟩ := Option.map_eq_some_iff.mp h
  cases label with
  | worker i threw => exact hw.stepWorker hsound hknown hnamed hmarks hm
  | client c choice =>
    intro x hx id state serialKey hfn
    simp only [Machine.arrivals, List.append_nil] at hx
    rcases client_places hm hx with hx | hqueued
    · have hlt := hnamed.state_lt hknown (mem_accepted_of_place hsound hx) hfn
      have hagrees := hw x hx id state serialKey hfn
      rcases client_heap hm hlt with hsame | ⟨hstarted, -⟩
      · rw [show (m.pool.heap state) = _ from hsame]
        exact hagrees
      · rcases hagrees.early hstarted with heq | heq <;> rw [heq] <;> trivial
    · rw [hqueued]
      trivial
  | stop =>
    cases Option.some.inj hm
    intro x hx
    simp only [Machine.arrivals, List.append_nil] at hx
    exact hw x hx

end Watch

end Corekit.Task
