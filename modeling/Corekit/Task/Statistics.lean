import Corekit.Task.Cancellation

/-! The statistics of the executor: every accepted task is counted once as
submitted, and once as completed, failed or canceled. `TryCancel` counts each of
its successes, so the count of canceled tasks is right as long as no task is
canceled twice and none before `Enqueue` has accepted it. -/
namespace Corekit.Task
open Corekit.Api Corekit.Foundation

theorem Pool.markTaskDone_tally {p : Pool} {id : TaskId} {state : Nat} (executed failed : Bool)
    (h : p.states id = some state) :
    (p.markTaskDone id executed failed).tally =
      if (p.heap state).canceled then p.tally
      else (p.stats.submitted, countUp (!failed && executed) p.stats.completed,
        countUp failed p.stats.failed, p.stats.canceled) := by
  simp only [markTaskDone, h, Function.update_self]
  split
  · rfl
  · cases failed <;> cases executed <;> rfl

/-- What a client step does to the queue, the flags and the counts. -/
inductive ClientShift (m : Machine) (c : Nat) (m' : Machine) : Prop where
  | quiet (tasks : m'.pool.tasks = m.pool.tasks) (tally : m'.pool.tally = m.pool.tally)
      (heap : ∀ state < m.pool.heapSize, m'.pool.heap state = m.pool.heap state)
      (pending : ∀ d state, (m'.clients d).pc.pendingId = some (state + 1) →
        (∃ e, (m.clients e).pc.pendingId = some (state + 1) ∧ state < m.pool.heapSize) ∨
          (m'.pool.heap state).canceled = false)
  | accept (entry : TaskEntry) (tasks : m'.pool.tasks = m.pool.tasks ++ [entry])
      (tally : m'.pool.tally = ((m.pool.stats.submitted + 1) % 2 ^ 64, m.pool.stats.completed,
        m.pool.stats.failed, m.pool.stats.canceled))
      (heap : m'.pool.heap = m.pool.heap)
      (fn : entry.fn = .plain ∨ ∃ options id state, (m.clients c).pc = .enqueueing options id state ∧
        entry.fn = .tracked id state options.serialKey)
      (pending : ∀ d id, (m'.clients d).pc.pendingId = some id →
        ∃ e, (m.clients e).pc.pendingId = some id)
  | cancel (id state : Nat) (next : Answer → Program Unit)
      (program : (m.clients c).program = .op (.tryCancel id) next)
      (ready : (m.clients c).pc = .ready) (found : m.pool.states id = some state)
      (started : (m.pool.heap state).started = false) (done : (m.pool.heap state).done = false)
      (tasks : m'.pool.tasks = m.pool.tasks)
      (tally : m'.pool.tally = (m.pool.stats.submitted, m.pool.stats.completed,
        m.pool.stats.failed, (m.pool.stats.canceled + 1) % 2 ^ 64))
      (heap : m'.pool.heap =
        Function.update m.pool.heap state { m.pool.heap state with canceled := true })
      (pending : ∀ d id, (m'.clients d).pc.pendingId = some id →
        ∃ e, (m.clients e).pc.pendingId = some id)

namespace Machine

variable {m m' : Machine} {c : Nat}

theorem shift_quiet {client : Client} (hknown : m.Known)
    (hclients : m'.clients = Function.update m.clients c client)
    (hpc : ∀ id, client.pc.pendingId = some id → (m.clients c).pc.pendingId = some id)
    (htasks : m'.pool.tasks = m.pool.tasks) (htally : m'.pool.tally = m.pool.tally)
    (hheap : m'.pool.heap = m.pool.heap) : ClientShift m c m' := by
  refine .quiet htasks htally (fun state _ => by rw [hheap]) fun d state hd => ?_
  obtain ⟨e, he⟩ := pending_update hclients hpc d (state + 1) hd
  exact .inl ⟨e, he, (hknown.ledger.pending e _ he).1⟩

theorem shift_enqueue {client : Client} {fn : Closure} {options : TaskSubmitOptions}
    (hknown : m.Known) (hclients : m'.clients = Function.update m.clients c client)
    (hpc : ∀ id, client.pc.pendingId = some id → (m.clients c).pc.pendingId = some id)
    (hpool : m'.pool = (m.enqueue fn options).2.pool)
    (hfn : fn = .plain ∨ ∃ options id state, (m.clients c).pc = .enqueueing options id state ∧
      fn = .tracked id state options.serialKey) : ClientShift m c m' := by
  have hpending := pending_update hclients hpc
  simp only [enqueue] at hpool
  unfold Pool.enqueue at hpool
  split_ifs at hpool
  · exact shift_quiet hknown hclients hpc (by rw [hpool]) (by rw [hpool]) (by rw [hpool])
  · exact shift_quiet hknown hclients hpc (by rw [hpool]) (by rw [hpool]; rfl) (by rw [hpool])
  · exact .accept _ (by rw [hpool]) (by rw [hpool]; rfl) (by rw [hpool]) hfn hpending

theorem client_shift {choice : Bool} (hknown : m.Known) (hlap : m'.FirstLap)
    (h : m.stepClient c choice = some m') : ClientShift m c m' := by
  obtain ⟨call, next, hprogram, hstep⟩ := stepClient_exact h
  cases hstep with
  | reply result direct replies => exact shift_quiet hknown rfl (by simp [ClientPc.pendingId]) rfl rfl rfl
  | cancel id hpc hcall =>
    subst hcall
    rcases Pool.tryCancel_cases m.pool id with
      ⟨-, hpool⟩ | ⟨-, state, hfound, hstarted, hdone, hpool⟩ <;> rw [hpool]
    · exact shift_quiet hknown rfl (by simp [ClientPc.pendingId]) rfl rfl rfl
    · exact .cancel id state next hprogram hpc hfound hstarted hdone rfl rfl rfl
        (pending_update rfl (by simp [ClientPc.pendingId]))
  | reconfigure options hpc hcall =>
    exact shift_quiet hknown rfl (by simp [ClientPc.pendingId]) rfl rfl rfl
  | goto pc goes =>
    exact shift_quiet hknown rfl (by simp [Goes.pendingId goes]) rfl rfl rfl
  | submit hpc hcall =>
    exact shift_enqueue hknown rfl (by simp [ClientPc.pendingId]) rfl (.inl rfl)
  | register options hpc =>
    refine .quiet rfl rfl (fun state hlt => Function.update_of_ne (Nat.ne_of_lt hlt) ..)
      fun d state hd => ?_
    by_cases heq : d = c
    · subst heq
      simp only [setPc, Function.update_self, ClientPc.pendingId, Option.some.injEq] at hd
      have hnext := hknown.ledger.nextTaskId hlap
      cases Nat.succ.inj (hnext.symm.trans hd)
      exact .inr (by simp [setPc, Pool.register])
    · simp only [setPc, Function.update_of_ne heq] at hd
      exact .inl ⟨d, hd, (hknown.ledger.pending d _ hd).1⟩
  | accept options id state hpc ok =>
    exact shift_enqueue hknown rfl (by simp [ClientPc.pendingId]) rfl
      (.inr ⟨options, id, state, hpc, rfl⟩)
  | refuse options id state hpc refused =>
    refine shift_enqueue hknown rfl ?_ rfl (.inr ⟨options, id, state, hpc, rfl⟩)
    rw [hpc]
    exact fun _ hid => hid
  | undo id refused hpc => exact shift_quiet hknown rfl (by simp [ClientPc.pendingId]) rfl rfl rfl

end Machine

/-- The flag that `TryCancel` sets. -/
def Pool.cancels (p : Pool) (entry : TaskEntry) : Bool :=
  match entry.fn with
  | .plain => false
  | .tracked _ state _ => (p.heap state).canceled

namespace Watch

variable {w w' : Watch} {m : Machine} {i c : Nat}

/-- The counts that no `TryCancel` disturbs. -/
structure Tallied (w : Watch) : Prop where
  submitted : w.machine.pool.stats.submitted = w.places.card % 2 ^ 64
  completed : w.machine.pool.stats.completed =
    w.places.countP (·.2 = .recorded .returned) % 2 ^ 64
  failed : w.machine.pool.stats.failed = w.places.countP (·.2 = .recorded .threw) % 2 ^ 64
  plain : ∀ x ∈ w.places, x.1.fn = .plain → x.2 ≠ .ended .skipped ∧ x.2 ≠ .recorded .skipped

theorem tally_eq {p q : Pool} (h : q.tally = p.tally) :
    q.stats.submitted = p.stats.submitted ∧ q.stats.completed = p.stats.completed ∧
      q.stats.failed = p.stats.failed ∧ q.stats.canceled = p.stats.canceled := by
  simp only [Pool.tally, Prod.mk.injEq] at h
  exact h

theorem Tallied.move {entry : TaskEntry} {s s' : Station} {rest : Multiset (TaskEntry × Station)}
    {accepted : List TaskEntry} {trail : List (TaskEntry × Station)} (hw : w.Tallied)
    (hbefore : w.places = (entry, s) ::ₘ rest)
    (hafter : places ⟨m, accepted, trail⟩ = (entry, s') ::ₘ rest)
    (hopen : s.isOver = false)
    (hsubmitted : m.pool.stats.submitted = w.machine.pool.stats.submitted)
    (hcompleted : m.pool.stats.completed =
      countUp (s' = .recorded .returned) w.machine.pool.stats.completed)
    (hfailed : m.pool.stats.failed =
      countUp (s' = .recorded .threw) w.machine.pool.stats.failed)
    (hplain : entry.fn = .plain → s' ≠ .ended .skipped ∧ s' ≠ .recorded .skipped) :
    Tallied ⟨m, accepted, trail⟩ := by
  have hnot : ∀ outcome, s ≠ .recorded outcome := by
    rintro outcome rfl
    cases hopen
  constructor
  · rw [hsubmitted, hw.submitted, hbefore, hafter, Multiset.card_cons, Multiset.card_cons]
  · rw [hcompleted, hw.completed, hbefore, hafter, Multiset.countP_cons, Multiset.countP_cons,
      if_neg (hnot _), add_zero, countUp_mod]
    simp only [decide_eq_true_eq]
  · rw [hfailed, hw.failed, hbefore, hafter, Multiset.countP_cons, Multiset.countP_cons,
      if_neg (hnot _), add_zero, countUp_mod]
    simp only [decide_eq_true_eq]
  · intro x hx hfn
    rw [hafter] at hx
    rcases Multiset.mem_cons.mp hx with rfl | hx
    · exact hplain hfn
    · exact hw.plain x (hbefore ▸ Multiset.mem_cons_of_mem hx) hfn

theorem Tallied.same {accepted : List TaskEntry} {trail : List (TaskEntry × Station)}
    (hw : w.Tallied) (hplaces : places ⟨m, accepted, trail⟩ = w.places)
    (htally : m.pool.tally = w.machine.pool.tally) : Tallied ⟨m, accepted, trail⟩ := by
  obtain ⟨hsubmitted, hcompleted, hfailed, -⟩ := tally_eq htally
  constructor
  · rw [hsubmitted, hw.submitted, hplaces]
  · rw [hcompleted, hw.completed, hplaces]
  · rw [hfailed, hw.failed, hplaces]
  · rw [hplaces]
    exact hw.plain

theorem Tallied.stepWorker {threw : Bool} {accepted : List TaskEntry} (hw : w.Tallied)
    (hfaithful : w.Faithful) (h : w.machine.stepWorker i threw = some m) :
    Tallied ⟨m, accepted, w.trail ++ w.machine.arrivals (.worker i threw)⟩ := by
  have hshift := worker_shift w.accepted accepted w.trail h
  generalize w.machine.arrivals (.worker i threw) = arrivals at hshift ⊢
  cases hshift with
  | stay same marked places => exact hw.same places same.tally
  | move entry s s' rest entryMove marked before_eq after_eq =>
    have hbefore : w.places = (entry, s) ::ₘ rest := before_eq
    have hitem : (entry, s) ∈ w.places := hbefore ▸ Multiset.mem_cons_self _ _
    have hopen : s.isOver = false := by cases entryMove <;> rfl
    cases entryMove with
    | take same =>
      obtain ⟨hsubmitted, hcompleted, hfailed, -⟩ := tally_eq same.tally
      exact hw.move hbefore after_eq hopen hsubmitted hcompleted hfailed (by simp)
    | callPlain fn same =>
      obtain ⟨hsubmitted, hcompleted, hfailed, -⟩ := tally_eq same.tally
      exact hw.move hbefore after_eq hopen hsubmitted hcompleted hfailed (by simp)
    | call fn canceled heap table tally =>
      obtain ⟨hsubmitted, hcompleted, hfailed, -⟩ := tally_eq tally
      exact hw.move hbefore after_eq hopen hsubmitted hcompleted hfailed (by simp)
    | skip fn canceled heap table tally =>
      obtain ⟨hsubmitted, hcompleted, hfailed, -⟩ := tally_eq tally
      exact hw.move hbefore after_eq hopen hsubmitted hcompleted hfailed (by simp [fn])
    | finish threw same =>
      obtain ⟨hsubmitted, hcompleted, hfailed, -⟩ := tally_eq same.tally
      refine hw.move hbefore after_eq hopen hsubmitted hcompleted hfailed fun _ => ?_
      cases threw <;> simp [Outcome.of]
    | record failed fn heap table tally =>
      simp only [Pool.tally, Prod.mk.injEq] at tally
      obtain ⟨hsubmitted, hcompleted, hfailed, -⟩ := tally
      refine hw.move hbefore after_eq hopen hsubmitted ?_ ?_ fun _ => ?_
      · rw [hcompleted]
        cases failed <;> rfl
      · rw [hfailed]
        cases failed <;> rfl
      · cases failed <;> simp [Outcome.of]
    | mark outcome fn pool =>
      -- a skipped task is a canceled one, and only that one is not counted here
      have hstate := state_of_place hfaithful.sound hfaithful.known hfaithful.named
        hfaithful.marks hitem hopen fn
      have hagrees := (hfaithful.flagged _ hitem _ _ _ fn).2
      have htally := Pool.markTaskDone_tally (outcome = .returned) (outcome = .threw) hstate
      rw [← pool] at htally
      have hcounts : m.pool.stats.submitted = w.machine.pool.stats.submitted ∧
          m.pool.stats.completed = countUp (Station.recorded outcome = .recorded .returned)
            w.machine.pool.stats.completed ∧
          m.pool.stats.failed = countUp (Station.recorded outcome = .recorded .threw)
            w.machine.pool.stats.failed := by
        cases outcome with
        | skipped =>
          rw [if_pos (hagrees.mpr rfl)] at htally
          obtain ⟨hsubmitted, hcompleted, hfailed, -⟩ := tally_eq htally
          exact ⟨hsubmitted, hcompleted, hfailed⟩
        | returned =>
          rw [if_neg fun hcanceled => by cases hagrees.mp hcanceled] at htally
          simp only [Pool.tally, Prod.mk.injEq] at htally
          exact ⟨htally.1, htally.2.1, htally.2.2.1⟩
        | threw =>
          rw [if_neg fun hcanceled => by cases hagrees.mp hcanceled] at htally
          simp only [Pool.tally, Prod.mk.injEq] at htally
          exact ⟨htally.1, htally.2.1, htally.2.2.1⟩
      exact hw.move hbefore after_eq hopen hcounts.1 hcounts.2.1 hcounts.2.2 (by simp [fn])

theorem places_same {choice : Bool} (accepted : List TaskEntry)
    (h : w.machine.stepClient c choice = some m)
    (htasks : m.pool.tasks = w.machine.pool.tasks) :
    places ⟨m, accepted, w.trail⟩ = w.places := by
  simp only [places, (client_tasks h).1, htasks]

theorem places_accept {choice : Bool} (accepted : List TaskEntry) {entry : TaskEntry}
    (h : w.machine.stepClient c choice = some m)
    (htasks : m.pool.tasks = w.machine.pool.tasks ++ [entry]) :
    places ⟨m, accepted, w.trail⟩ = (entry, .queued) ::ₘ w.places := by
  simp only [places, (client_tasks h).1, htasks, List.map_append, List.map_singleton,
    ← Multiset.coe_add, Multiset.coe_singleton, ← Multiset.singleton_add]
  ac_rfl

theorem Tallied.stepClient {choice : Bool} {accepted : List TaskEntry} (hw : w.Tallied)
    (hknown : w.machine.Known) (hlap : m.FirstLap)
    (h : w.machine.stepClient c choice = some m) : Tallied ⟨m, accepted, w.trail⟩ := by
  cases Machine.client_shift hknown hlap h with
  | quiet tasks tally heap pending => exact hw.same (places_same accepted h tasks) tally
  | accept entry tasks tally heap fn pending =>
    have hplaces := places_accept accepted h tasks
    simp only [Pool.tally, Prod.mk.injEq] at tally
    obtain ⟨hsubmitted, hcompleted, hfailed, -⟩ := tally
    constructor
    · rw [hsubmitted, hw.submitted, hplaces, Multiset.card_cons, Nat.mod_add_mod]
    · rw [hcompleted, hw.completed, hplaces, Multiset.countP_cons, if_neg (by simp), add_zero]
    · rw [hfailed, hw.failed, hplaces, Multiset.countP_cons, if_neg (by simp), add_zero]
    · intro x hx hfn
      rw [hplaces] at hx
      rcases Multiset.mem_cons.mp hx with rfl | hx
      · simp
      · exact hw.plain x hx hfn
  | cancel id state next program ready found started done tasks tally heap pending =>
    have hplaces := places_same accepted h tasks
    simp only [Pool.tally, Prod.mk.injEq] at tally
    obtain ⟨hsubmitted, hcompleted, hfailed, -⟩ := tally
    constructor
    · rw [hsubmitted, hw.submitted, hplaces]
    · rw [hcompleted, hw.completed, hplaces]
    · rw [hfailed, hw.failed, hplaces]
    · rw [hplaces]
      exact hw.plain

theorem Tallied.step {label : Label} (hw : w.Tallied) (hfaithful : w.Faithful)
    (hlap : w'.machine.FirstLap) (h : w.step label = some w') : w'.Tallied := by
  obtain ⟨m, hm, rfl⟩ := Option.map_eq_some_iff.mp h
  cases label with
  | worker i threw => exact hw.stepWorker hfaithful hm
  | client c choice =>
    simp only [Machine.arrivals, List.append_nil]
    exact hw.stepClient hfaithful.known hlap hm
  | stop =>
    cases Option.some.inj hm
    simp only [Machine.arrivals, List.append_nil]
    exact hw.same rfl rfl

def recorded (w : Watch) (entry : TaskEntry) : Bool :=
  w.trail.any fun x => x.1 = entry && x.2.isOver

def unsettled (w : Watch) : Nat :=
  w.accepted.countP fun entry => !w.machine.pool.cancels entry && !w.recorded entry

def Conserves (w : Watch) : Prop :=
  w.machine.pool.stats.submitted = w.machine.pool.stats.completed + w.machine.pool.stats.failed +
    w.machine.pool.stats.canceled + w.unsettled

/-- A `TryCancel` that would succeed is for an accepted task that is not canceled
yet. -/
def CancelsOnce (w : Watch) : Label → Prop
  | .client c _ => ∀ id next state, (w.machine.clients c).program = .op (.tryCancel id) next →
      (w.machine.clients c).pc = .ready → w.machine.pool.states id = some state →
      (w.machine.pool.heap state).started = false → (w.machine.pool.heap state).done = false →
      (w.machine.pool.heap state).canceled = false ∧
        ∃ entry ∈ w.accepted, entry.fn.id? = some id
  | _ => True

def cancelsOnce (w : Watch) : Label → Bool
  | .client c _ =>
    match (w.machine.clients c).program, (w.machine.clients c).pc with
    | .op (.tryCancel id) _, .ready =>
      (w.machine.pool.states id).all fun state =>
        (w.machine.pool.heap state).started || (w.machine.pool.heap state).done ||
          !(w.machine.pool.heap state).canceled &&
            w.accepted.any fun entry => entry.fn.id? = some id
    | _, _ => true
  | _ => true

theorem cancelsOnce_sound (w : Watch) (label : Label) (h : w.cancelsOnce label = true) :
    w.CancelsOnce label := by
  cases label with
  | worker i threw => trivial
  | stop => trivial
  | client c choice =>
    intro id next state hprogram hready hfound hstarted hdone
    simpa [cancelsOnce, hprogram, hready, hfound, hstarted, hdone] using h

structure CancelCounted (w : Watch) : Prop where
  canceled : w.machine.pool.stats.canceled = w.accepted.countP w.machine.pool.cancels % 2 ^ 64
  pending : ∀ c state, (w.machine.clients c).pc.pendingId = some (state + 1) →
    (w.machine.pool.heap state).canceled = false

theorem Faithful.accepted_nodup (hw : w.Faithful) : w.accepted.Nodup := by
  have hnodup := hw.sound.tracks.nodup
  rw [← hw.sound.accepted] at hnodup
  exact Multiset.coe_nodup.mp hnodup

theorem Faithful.recorded_iff (hw : w.Faithful) {x : TaskEntry × Station} (hx : x ∈ w.places) :
    w.recorded x.1 = x.2.isOver := by
  rw [recorded, Bool.eq_iff_iff, List.any_eq_true]
  constructor
  · rintro ⟨y, hy, hsame⟩
    simp only [Bool.and_eq_true, decide_eq_true_eq] at hsame
    have hstop : y.2 ∈ x.2.path := by
      rw [← hw.sound.tracks.follows x hx, mem_trailOf, ← hsame.1]
      exact hy
    have hover := hsame.2
    revert hstop hover
    rcases x with ⟨_, s⟩
    rcases y with ⟨_, t⟩
    rcases s with _ | _ | _ | (_ | _ | _) | _ <;> cases t <;> simp [Station.path, Station.isOver]
  · intro hover
    refine ⟨x, ?_, by simp [hover]⟩
    rw [← Prod.eta x, ← mem_trailOf, hw.sound.tracks.follows x hx]
    revert hover
    rcases x with ⟨_, s⟩
    rcases s with _ | _ | _ | _ | (_ | _ | _) <;> simp [Station.path, Station.isOver]

theorem Faithful.countP_accepted (hw : w.Faithful) (q : TaskEntry → Bool) :
    w.accepted.countP q = w.places.countP fun x => q x.1 = true := by
  have hcoe : (w.accepted : Multiset TaskEntry).countP (fun entry => q entry = true) =
      w.accepted.countP q := by simp [Multiset.coe_countP]
  rw [← hcoe, hw.sound.accepted, Multiset.countP_map, Multiset.countP_eq_card_filter]

theorem Faithful.one_bucket (hw : w.Faithful) (htallied : w.Tallied) {x : TaskEntry × Station}
    (hx : x ∈ w.places) :
    (if x.2 = .recorded .returned then 1 else 0) + (if x.2 = .recorded .threw then 1 else 0) +
      (if w.machine.pool.cancels x.1 = true then 1 else 0) +
      (if (!w.machine.pool.cancels x.1 && !w.recorded x.1) = true then 1 else 0) = 1 := by
  rw [hw.recorded_iff hx]
  obtain ⟨entry, s⟩ := x
  cases hfn : entry.fn with
  | plain =>
    have hplain := htallied.plain _ hx hfn
    have hcancels : w.machine.pool.cancels entry = false := by simp [Pool.cancels, hfn]
    rw [hcancels]
    rcases s with _ | _ | _ | _ | (_ | _ | _) <;> simp_all [Station.isOver]
  | tracked id state serialKey =>
    have hagrees := hw.flagged _ hx id state serialKey hfn
    have hcancels : w.machine.pool.cancels entry = (w.machine.pool.heap state).canceled := by
      simp [Pool.cancels, hfn]
    rw [hcancels]
    cases s with
    | recorded outcome =>
      have hflag := hagrees.2.1
      cases outcome <;> cases hcanceled : (w.machine.pool.heap state).canceled <;>
        simp_all [Station.isOver]
    | _ => cases (w.machine.pool.heap state).canceled <;> simp [Station.isOver]

theorem Faithful.card_places (hw : w.Faithful) : w.places.card = w.accepted.length := by
  rw [← Multiset.card_map Prod.fst, ← hw.sound.accepted, Multiset.coe_card]

theorem Tallied.exact (hw : w.Faithful) (htallied : w.Tallied)
    (hfew : w.accepted.length < 2 ^ 64) :
    w.machine.pool.stats.submitted = w.places.card ∧
      w.machine.pool.stats.completed = w.places.countP (·.2 = .recorded .returned) ∧
      w.machine.pool.stats.failed = w.places.countP (·.2 = .recorded .threw) := by
  rw [← hw.card_places] at hfew
  rw [htallied.submitted, htallied.completed, htallied.failed]
  exact ⟨Nat.mod_eq_of_lt hfew, Nat.mod_eq_of_lt ((Multiset.countP_le_card _ _).trans_lt hfew),
    Nat.mod_eq_of_lt ((Multiset.countP_le_card _ _).trans_lt hfew)⟩

theorem CancelCounted.exact (hcounted : w.CancelCounted) (hfew : w.accepted.length < 2 ^ 64) :
    w.machine.pool.stats.canceled = w.accepted.countP w.machine.pool.cancels := by
  rw [hcounted.canceled, Nat.mod_eq_of_lt (List.countP_le_length.trans_lt hfew)]

theorem Faithful.conserves (hw : w.Faithful) (htallied : w.Tallied)
    (hcounted : w.CancelCounted) (hfew : w.accepted.length < 2 ^ 64) : w.Conserves := by
  obtain ⟨hsubmitted, hcompleted, hfailed⟩ := htallied.exact hw hfew
  unfold Conserves unsettled
  rw [hsubmitted, hcompleted, hfailed, hcounted.exact hfew, hw.countP_accepted,
    hw.countP_accepted]
  exact card_eq_four_countP _ _ _ _ _ fun x hx => hw.one_bucket htallied hx

theorem Faithful.cancels_congr (hw : w.Faithful) {p : Pool}
    (h : ∀ state < w.machine.pool.heapSize,
      (p.heap state).canceled = (w.machine.pool.heap state).canceled) {entry : TaskEntry}
    (hentry : entry ∈ w.accepted) : p.cancels entry = w.machine.pool.cancels entry := by
  unfold Pool.cancels
  cases hfn : entry.fn with
  | plain => rfl
  | tracked id state serialKey => exact h state (hw.named.state_lt hw.known hentry hfn)

theorem CancelCounted.stepWorker {threw : Bool} {trail : List (TaskEntry × Station)}
    (hw : w.CancelCounted) (h : w.machine.stepWorker i threw = some m) :
    CancelCounted ⟨m, w.accepted, trail⟩ := by
  have hflags := Machine.worker_canceled h
  have hcancels : m.pool.cancels = w.machine.pool.cancels := by
    ext entry
    unfold Pool.cancels
    cases entry.fn with
    | plain => rfl
    | tracked id state serialKey => exact hflags state
  have hcount : m.pool.stats.canceled = w.machine.pool.stats.canceled := by
    have hshift := worker_shift [] [] [] h
    generalize w.machine.arrivals (.worker i threw) = arrivals at hshift
    cases hshift with
    | stay same marked places => exact (tally_eq same.tally).2.2.2
    | move entry s s' rest entryMove marked before_eq after_eq =>
      cases entryMove with
      | take same => exact (tally_eq same.tally).2.2.2
      | callPlain fn same => exact (tally_eq same.tally).2.2.2
      | call fn canceled heap table tally => exact (tally_eq tally).2.2.2
      | skip fn canceled heap table tally => exact (tally_eq tally).2.2.2
      | finish threw same => exact (tally_eq same.tally).2.2.2
      | record failed fn heap table tally =>
        simp only [Pool.tally, Prod.mk.injEq] at tally
        exact tally.2.2.2
      | mark outcome fn pool =>
        rw [pool]
        unfold Pool.markTaskDone
        split
        · rfl
        · dsimp only
          split_ifs <;> rfl
  constructor
  · dsimp only
    rw [hcount, hcancels]
    exact hw.canceled
  · intro c state hpending
    dsimp only at hpending ⊢
    rw [(Machine.worker_frame h).1] at hpending
    rw [hflags]
    exact hw.pending c state hpending

theorem Faithful.countP_cancel (hw : w.Faithful) {entry : TaskEntry} (hentry : entry ∈ w.accepted)
    {p : Pool} (hbefore : w.machine.pool.cancels entry = false) (hafter : p.cancels entry = true)
    (hothers : ∀ other ∈ w.accepted, other ≠ entry →
      p.cancels other = w.machine.pool.cancels other) :
    w.accepted.countP p.cancels = w.accepted.countP w.machine.pool.cancels + 1 := by
  have hperm := List.perm_cons_erase hentry
  have hrest : (w.accepted.erase entry).countP p.cancels =
      (w.accepted.erase entry).countP w.machine.pool.cancels := by
    apply List.countP_congr
    intro other hother
    have hmem := hw.accepted_nodup.mem_erase_iff.mp hother
    rw [hothers other hmem.2 hmem.1]
  rw [hperm.countP_eq, hperm.countP_eq, List.countP_cons, List.countP_cons, hafter, hbefore, hrest]
  simp

theorem Faithful.cancels_other {pool : Pool} {state : Nat} {flags : TaskState}
    (hfaithful : w.Faithful) (heap : pool.heap = Function.update w.machine.pool.heap state flags)
    {entry other : TaskEntry} (hentry : entry ∈ w.accepted) (hother : other ∈ w.accepted)
    (hid : entry.fn.id? = some (state + 1)) (hne : other ≠ entry) :
    pool.cancels other = w.machine.pool.cancels other := by
  unfold Pool.cancels
  cases hfn : other.fn with
  | plain => rfl
  | tracked id' state' serialKey =>
    dsimp only
    rw [heap, Function.update_of_ne]
    rintro rfl
    apply hne
    refine hfaithful.named.unique hfaithful.known hother hentry ?_ hid
    rw [hfn, Closure.id?, hfaithful.named.address other hother _ _ _ hfn]

theorem CancelCounted.cancels_new (hw : w.CancelCounted) (hfaithful : w.Faithful)
    {entry : TaskEntry} (fn : entry.fn = .plain ∨ ∃ options id state,
      (w.machine.clients c).pc = .enqueueing options id state ∧
        entry.fn = .tracked id state options.serialKey) :
    w.machine.pool.cancels entry = false := by
  rcases fn with hplain | ⟨options, id, state, hpc, htracked⟩
  · simp [Pool.cancels, hplain]
  · have hid := hfaithful.named.enqueueing c options id state hpc
    have hflag := hw.pending c state (by rw [hpc, hid]; rfl)
    simpa [Pool.cancels, htracked] using hflag

theorem CancelCounted.stepClient {choice : Bool} {trail : List (TaskEntry × Station)}
    (hw : w.CancelCounted) (hfaithful : w.Faithful) (honce : w.CancelsOnce (.client c choice))
    (hlap : m.FirstLap) (h : w.machine.stepClient c choice = some m) :
    CancelCounted ⟨m, w.accepted ++ m.pool.tasks.drop w.machine.pool.tasks.length, trail⟩ := by
  have hknown := hfaithful.known
  cases Machine.client_shift hknown hlap h with
  | quiet tasks tally heap pending =>
    have hcancels : ∀ entry ∈ w.accepted, m.pool.cancels entry = w.machine.pool.cancels entry :=
      fun entry => hfaithful.cancels_congr
        fun state hlt => congrArg TaskState.canceled (heap state hlt)
    simp only [tasks, List.drop_length, List.append_nil]
    constructor
    · dsimp only
      rw [(tally_eq tally).2.2.2, hw.canceled]
      exact congrArg (· % 2 ^ 64)
        (List.countP_congr fun entry hentry => by rw [hcancels entry hentry])
    · intro d state hd
      rcases pending d state hd with ⟨e, he, hlt⟩ | hfresh
      · dsimp only
        rw [heap state hlt]
        exact hw.pending e state he
      · exact hfresh
  | accept entry tasks tally heap fn pending =>
    have hnew := hw.cancels_new hfaithful fn
    have hsame : m.pool.cancels = w.machine.pool.cancels := by
      ext other
      simp only [Pool.cancels, heap]
    simp only [Pool.tally, Prod.mk.injEq] at tally
    simp only [tasks, List.drop_left]
    constructor
    · dsimp only
      rw [tally.2.2.2, hw.canceled, hsame, List.countP_append]
      simp [hnew]
    · intro d state hd
      obtain ⟨e, he⟩ := pending d (state + 1) hd
      dsimp only
      rw [heap]
      exact hw.pending e state he
  | cancel id state next program ready found started done tasks tally heap pending =>
    obtain ⟨hfirst, entry, hentry, hid⟩ := honce id next state program ready found started done
    obtain ⟨rfl, serialKey, hfn⟩ := hfaithful.tracked_of_found hentry hid found
    simp only [Pool.tally, Prod.mk.injEq] at tally
    simp only [tasks, List.drop_length, List.append_nil]
    constructor
    · dsimp only
      rw [tally.2.2.2, hw.canceled]
      rw [Nat.mod_add_mod]
      refine congrArg (· % 2 ^ 64)
        (hfaithful.countP_cancel hentry ?_ ?_ fun other hother hne => ?_).symm
      · simpa [Pool.cancels, hfn] using hfirst
      · simp [Pool.cancels, hfn, heap]
      · exact hfaithful.cancels_other heap hentry hother hid hne
    · intro d state' hd
      obtain ⟨e, he⟩ := pending d (state' + 1) hd
      dsimp only
      rw [heap, Function.update_of_ne]
      · exact hw.pending e state' he
      · rintro rfl
        exact (hknown.ledger.pending e _ he).2 (hfaithful.named.admitted hentry hid)

theorem CancelCounted.step {label : Label} (hw : w.CancelCounted) (hfaithful : w.Faithful)
    (honce : w.CancelsOnce label) (hlap : w'.machine.FirstLap) (h : w.step label = some w') :
    w'.CancelCounted := by
  obtain ⟨m, hm, rfl⟩ := Option.map_eq_some_iff.mp h
  cases label with
  | worker i threw =>
    have hdrop := List.drop_eq_nil_of_le (worker_tasks hm)
    simp only [hdrop, List.append_nil]
    exact hw.stepWorker hm
  | client c choice => exact hw.stepClient hfaithful honce hlap hm
  | stop =>
    cases Option.some.inj hm
    simp only [List.drop_length, List.append_nil]
    exact ⟨hw.canceled, hw.pending⟩

/-- Any other `TryCancel` that succeeds counts a task too many. -/
theorem Faithful.breaks {label : Label} (hw : w.Faithful) (hconserves : w.Conserves)
    (h : w.step label = some w') (hlabel : ¬w.CancelsOnce label) : ¬w'.Conserves := by
  obtain ⟨m, hm, rfl⟩ := Option.map_eq_some_iff.mp h
  cases label with
  | worker i threw => exact absurd trivial hlabel
  | stop => exact absurd trivial hlabel
  | client c choice =>
    simp only [CancelsOnce, not_forall] at hlabel
    obtain ⟨id, next, state, hprogram, hready, hfound, hstarted, hdone, hagain⟩ := hlabel
    have hpool : m.pool = { w.machine.pool with
        heap := Function.update w.machine.pool.heap state
          { w.machine.pool.heap state with canceled := true }
        stats.canceled := (w.machine.pool.stats.canceled + 1) % 2 ^ 64 } := by
      simp only [Machine.step, Machine.stepClient, hprogram, hready, Machine.beginCall,
        Option.some.injEq] at hm
      rw [← hm]
      simp [Machine.answer, Pool.tryCancel, hfound, hstarted, hdone]
    have hcancels : ∀ entry ∈ w.accepted, m.pool.cancels entry = w.machine.pool.cancels entry := by
      intro entry hentry
      unfold Pool.cancels
      cases hfn : entry.fn with
      | plain => rfl
      | tracked id' state' serialKey =>
        dsimp only
        rw [hpool]
        by_cases heq : state' = state
        · subst heq
          -- the task is accepted, so it was canceled before
          have hid : entry.fn.id? = some id := by
            rw [hfn, Closure.id?, hw.named.address entry hentry _ _ _ hfn,
              hw.known.table.address id state' hfound]
          have hflag : (w.machine.pool.heap state').canceled ≠ false :=
            fun hfirst => hagain ⟨hfirst, entry, hentry, hid⟩
          simpa using hflag
        · exact congrArg TaskState.canceled (Function.update_of_ne heq ..)
    have htasks : m.pool.tasks = w.machine.pool.tasks := by rw [hpool]
    have hunsettled : unsettled ⟨m, w.accepted, w.trail⟩ = w.unsettled := by
      apply List.countP_congr
      intro entry hentry
      simp only [hcancels entry hentry, recorded]
    simp only [Conserves, htasks, List.drop_length, List.append_nil, Machine.arrivals,
      hunsettled] at hconserves ⊢
    rw [hpool]
    dsimp only
    omega

theorem Faithful.over_iff (hw : w.Faithful) {x : TaskEntry × Station} (hx : x ∈ w.places)
    (outcome : Outcome) : (x.1, Station.recorded outcome) ∈ w.trail ↔ x.2 = .recorded outcome := by
  rw [← mem_trailOf, hw.sound.tracks.follows x hx]
  rcases x with ⟨_, s⟩
  rcases s with _ | _ | _ | (_ | _ | _) | (_ | _ | _) <;> cases outcome <;> simp [Station.path]

theorem Faithful.countP_over (hw : w.Faithful) (outcome : Outcome) :
    w.places.countP (·.2 = .recorded outcome) =
      w.accepted.countP fun entry => (entry, Station.recorded outcome) ∈ w.trail := by
  rw [hw.countP_accepted]
  apply Multiset.countP_congr rfl
  intro x hx
  rw [decide_eq_true_eq, hw.over_iff hx]

theorem Faithful.counted_once (hw : w.Faithful) (htallied : w.Tallied) {entry : TaskEntry}
    (hentry : entry ∈ w.accepted) (hrecorded : w.recorded entry = true) :
    [decide ((entry, Station.recorded .returned) ∈ w.trail),
      decide ((entry, Station.recorded .threw) ∈ w.trail),
      w.machine.pool.cancels entry].count true = 1 := by
  obtain ⟨s, hs⟩ := hw.exists_place hentry
  have hbucket := hw.one_bucket htallied hs
  have hreturned := hw.over_iff hs .returned
  have hthrew := hw.over_iff hs .threw
  simp only [hrecorded, Bool.not_true, Bool.and_false, Bool.false_eq_true, if_false,
    add_zero] at hbucket
  simp only [hreturned, hthrew, List.count_cons, List.count_nil, beq_true, decide_eq_true_eq]
  omega

theorem Tallied.of_run {options : ExecutorOptions} {hardwareConcurrency : Nat}
    {programs : Nat → Program Unit} {labels : List Label}
    (h : runs Watch.step (start options hardwareConcurrency programs) labels = some w)
    (hlap : w.machine.FirstLap) : w.Tallied := by
  have hplaces := places_start options hardwareConcurrency programs
  have hstep : ∀ (w : Watch) (label : Label) (w' : Watch), w.Faithful ∧ w.Tallied →
      w'.machine.FirstLap → w.step label = some w' → w'.Faithful ∧ w'.Tallied :=
    fun _ _ _ hw hlap hstep => ⟨hw.1.step hlap hstep, hw.2.step hw.1 hlap hstep⟩
  refine (runs_invariant_below firstLap_before hstep ⟨Faithful.start _ _ _, ?_⟩ h hlap).2
  constructor
  · rw [hplaces]; rfl
  · rw [hplaces]; rfl
  · rw [hplaces]; rfl
  · rw [hplaces]
    exact fun x hx => absurd hx (Multiset.notMem_zero x)

theorem CancelCounted.of_run {options : ExecutorOptions} {hardwareConcurrency : Nat}
    {programs : Nat → Program Unit} {labels : List Label}
    (honce : Meets Watch.step CancelsOnce (start options hardwareConcurrency programs) labels)
    (h : runs Watch.step (start options hardwareConcurrency programs) labels = some w)
    (hlap : w.machine.FirstLap) : w.CancelCounted := by
  have hstep : ∀ (w : Watch) (label : Label) (w' : Watch), w.Faithful ∧ w.CancelCounted →
      w.CancelsOnce label → w'.machine.FirstLap → w.step label = some w' →
      w'.Faithful ∧ w'.CancelCounted := fun _ _ _ hw hlabel hlap hstep =>
    ⟨hw.1.step hlap hstep, hw.2.step hw.1 hlabel hlap hstep⟩
  refine (runs_invariant_of_meets_below firstLap_before hstep
    ⟨Faithful.start _ _ _, rfl, fun c state hpending => ?_⟩ honce h hlap).2
  cases hpending

end Watch

/-- In every run with fewer than 2^64 submitted tasks whose successful calls of
`TryCancel` are each for an accepted task that is not canceled yet: the submitted
tasks are the completed, the failed, the canceled and the unsettled ones; each
counter is the number of accepted tasks of its kind, a task whose outcome is
recorded is of one kind only, and an idle executor has no unsettled task. Of the
steps that come next, exactly another kind of `TryCancel` breaks this. -/
theorem statistics_conserve_tasks (options : ExecutorOptions) (hardwareConcurrency : Nat)
    (programs : Nat → Program Unit) {labels : List Label} {w : Watch}
    (honce : Meets Watch.step Watch.CancelsOnce
      (Watch.start options hardwareConcurrency programs) labels)
    (hrun : runs Watch.step (Watch.start options hardwareConcurrency programs) labels = some w)
    (hlap : w.machine.FirstLap) (hfew : w.accepted.length < 2 ^ 64) :
    w.Conserves ∧
    (w.machine.pool.stats.submitted = w.accepted.length ∧
      w.machine.pool.stats.completed =
        w.accepted.countP (fun entry => (entry, Station.recorded .returned) ∈ w.trail) ∧
      w.machine.pool.stats.failed =
        w.accepted.countP (fun entry => (entry, Station.recorded .threw) ∈ w.trail) ∧
      w.machine.pool.stats.canceled = w.accepted.countP w.machine.pool.cancels) ∧
    (∀ entry ∈ w.accepted, w.recorded entry = true →
      [decide ((entry, Station.recorded .returned) ∈ w.trail),
        decide ((entry, Station.recorded .threw) ∈ w.trail),
        w.machine.pool.cancels entry].count true = 1) ∧
    (w.machine.pool.pendingTasks = 0 → w.machine.pool.activeWorkers = 0 →
      (∀ entry ∈ w.accepted, w.recorded entry = true) ∧
      w.machine.pool.stats.submitted = w.machine.pool.stats.completed +
        w.machine.pool.stats.failed + w.machine.pool.stats.canceled) ∧
    (∀ label w', w.step label = some w' → w'.machine.FirstLap →
      w'.accepted.length < 2 ^ 64 → (w'.Conserves ↔ w.CancelsOnce label)) := by
  have hw := Watch.Faithful.of_run hrun hlap
  have htallied := Watch.Tallied.of_run hrun hlap
  have hcounted := Watch.CancelCounted.of_run honce hrun hlap
  have hconserves := hw.conserves htallied hcounted hfew
  obtain ⟨hsubmitted, hcompleted, hfailed⟩ := htallied.exact hw hfew
  refine ⟨hconserves, ⟨?_, ?_, ?_, hcounted.exact hfew⟩, fun entry => hw.counted_once htallied,
    ?_, ?_⟩
  · rw [hsubmitted, hw.card_places]
  · rw [hcompleted, hw.countP_over]
  · rw [hfailed, hw.countP_over]
  · intro hpending hactive
    have hrecorded : ∀ entry ∈ w.accepted, w.recorded entry = true := by
      intro entry hentry
      obtain ⟨outcome, hover⟩ := hw.finished hpending hactive hentry
      exact List.any_eq_true.mpr ⟨_, hover, by simp [Station.isOver]⟩
    refine ⟨hrecorded, ?_⟩
    have hnone : w.unsettled = 0 := by
      rw [Watch.unsettled, List.countP_eq_zero]
      intro entry hentry
      simp [hrecorded entry hentry]
    rw [Watch.Conserves, hnone] at hconserves
    exact hconserves
  · intro label w' hstep hlap' hfew'
    constructor
    · intro hafter
      by_contra hlabel
      exact hw.breaks hconserves hstep hlabel hafter
    · intro hlabel
      exact (hw.step hlap' hstep).conserves (htallied.step hw hlap' hstep)
        (hcounted.step hw hlabel hlap' hstep) hfew'

def cancelOne : Program Unit :=
  .op (.submitEx true {}) fun _ => .op (.submitEx true {}) fun _ =>
    .op (.tryCancel 1) fun _ => .ret ()

theorem statistics_conserve_tasks_two :
    ∃ w, runs Watch.step (Watch.start { workerCount := 1 } 0 fun _ => cancelOne)
        (List.replicate 7 (.client 0 false) ++ List.replicate 11 (.worker 0 false)) = some w ∧
      w.accepted.length = 2 ∧
      w.machine.pool.stats.submitted = w.machine.pool.stats.completed +
        w.machine.pool.stats.failed + w.machine.pool.stats.canceled := by
  obtain ⟨w, hw, hfinal⟩ := Option.map_eq_some_iff.mp (show (runs Watch.step
      (Watch.start { workerCount := 1 } 0 fun _ => cancelOne)
      (List.replicate 7 (.client 0 false) ++ List.replicate 11 (.worker 0 false))).map
      (fun w => (w.accepted.length, w.machine.pool.pendingTasks,
        w.machine.pool.activeWorkers, w.machine.pool.heapSize)) = some (2, 0, 0, 2) by
          decide +kernel)
  simp only [Prod.mk.injEq] at hfinal
  obtain ⟨haccepted, hpending, hactive, hsize⟩ := hfinal
  have hlap : w.machine.FirstLap := by
    unfold Machine.FirstLap
    omega
  obtain ⟨-, -, -, hidle, -⟩ := statistics_conserve_tasks _ _ _
    (.of_checks Watch.cancelsOnce_sound (by decide +kernel)) hw hlap (by omega)
  exact ⟨w, hw, haccepted, (hidle hpending hactive).2⟩

/-- Two calls of `TryCancel` for one task before a worker takes it: both succeed
and both are counted. -/
theorem tryCancel_counts_twice :
    ¬∀ (options : ExecutorOptions) (hardwareConcurrency : Nat) (programs : Nat → Program Unit)
      (labels : List Label) (w : Watch),
      runs Watch.step (Watch.start options hardwareConcurrency programs) labels = some w →
      w.Conserves := by
  intro hall
  obtain ⟨w, hw, hfinal⟩ := Option.map_eq_some_iff.mp (show (runs Watch.step
      (Watch.start { workerCount := 1 } 0 fun _ => .op (.submitEx true {}) fun _ =>
        .op (.tryCancel 1) fun _ => .op (.tryCancel 1) fun _ => .ret ())
      (List.replicate 5 (.client 0 false))).map
      (fun w => (w.machine.pool.stats.submitted, w.machine.pool.stats.canceled)) =
        some (1, 2) by decide +kernel)
  simp only [Prod.mk.injEq] at hfinal
  have hconserves := hall _ _ _ _ _ hw
  rw [Watch.Conserves] at hconserves
  omega

end Corekit.Task
