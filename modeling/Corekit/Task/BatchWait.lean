import Corekit.Task.Retention

/-! What a returned `WaitBatch` means. The look-up of `Wait` fails for a task
that has left the retention window, and `WaitBatch` gives up at the first
failure; as long as every look-up is made in time, it waits for all its ids. -/
namespace Corekit.Task
open Corekit.Api Corekit.Foundation

inductive Follows : Program α → List (Call × Answer) → Program α → Prop where
  | nil (p : Program α) : Follows p [] p
  | cons {call : Call} {next : Answer → Program α} {result : Answer} {trace : List (Call × Answer)}
      {q : Program α} (h : Follows (next result) trace q) :
      Follows (.op call next) ((call, result) :: trace) q

theorem Follows.snoc {p : Program α} {trace : List (Call × Answer)} {call : Call}
    {next : Answer → Program α} (h : Follows p trace (.op call next)) (result : Answer) :
    Follows p (trace ++ [(call, result)]) (next result) := by
  generalize hq : (Cmd.op call next : Program α) = q at h
  induction h with
  | nil p =>
    subst hq
    exact .cons (.nil _)
  | cons h ih => exact .cons (ih hq)

namespace Machine

variable {m m' : Machine} {c : Nat}

theorem ended_mono {label : Label} (h : m.step label = some m') {id : TaskId}
    (hid : id ∈ m.history.ended) : id ∈ m'.history.ended := by
  cases label with
  | worker i threw =>
    obtain ⟨old, hold, move⟩ := stepWorker_cases h
    cases move with
    | stage entry stage next ended move quiet workers clients history =>
      rw [history]
      exact List.mem_append_left _ hid
    | _ => exact hid
  | client c choice =>
    obtain ⟨call, next, -, move⟩ := stepClient_cases h
    cases move <;> exact hid
  | stop =>
    cases Option.some.inj h
    exact hid

theorem client_of_other {label : Label} (h : m.step label = some m')
    (hne : ∀ choice, label ≠ .client c choice) : m'.clients c = m.clients c := by
  cases label with
  | worker i threw => rw [(worker_frame h).1]
  | client d choice =>
    have hdc : c ≠ d := by
      rintro rfl
      exact hne choice rfl
    obtain ⟨call, next, -, move⟩ := stepClient_cases h
    cases move <;> exact Function.update_of_ne hdc _ _
  | stop =>
    cases Option.some.inj h
    rfl

/-- The log of a client has grown along a program. -/
def Advanced (c : Nat) (log : List (Call × Answer)) (p : Program Unit) (m : Machine) : Prop :=
  ∃ trace, (m.clients c).log = log ++ trace ∧ Follows p trace (m.clients c).program

theorem Advanced.step {label : Label} {p : Program Unit} {log : List (Call × Answer)}
    (hm : m.Advanced c log p) (h : m.step label = some m') : m'.Advanced c log p := by
  obtain ⟨trace, hlog, hfollows⟩ := hm
  by_cases hother : ∀ choice, label ≠ .client c choice
  · unfold Advanced
    rw [client_of_other h hother]
    exact ⟨trace, hlog, hfollows⟩
  · obtain ⟨choice, rfl⟩ : ∃ choice, label = .client c choice := by
      push Not at hother
      exact hother
    obtain ⟨call, next, hprogram, move⟩ := stepClient_cases h
    have hanswer : ∀ {n : Machine} {result : Answer}, n.clients = m.clients →
        (n.answer c call next result).Advanced c log p := by
      intro n result hclients
      refine ⟨trace ++ [(call, result)], ?_, ?_⟩
      · simp [answer, hclients, hlog]
      · simp only [answer, Function.update_self]
        rw [hprogram] at hfollows
        exact hfollows.snoc result
    have hstay : ∀ {n : Machine} {pc : ClientPc}, n.clients = m.clients →
        (n.setPc c pc).Advanced c log p := by
      intro n pc hclients
      exact ⟨trace, by simp [setPc, hclients, hlog], by simpa [setPc, hclients] using hfollows⟩
    cases move with
    | reply pool result quiet keyHolder replies => exact hanswer rfl
    | goto pc goes => exact hstay rfl
    | submit hpc hcall => exact hanswer rfl
    | register options hpc => exact hstay rfl
    | accept options id state hpc ok => exact hanswer rfl
    | refuse options id state hpc refused => exact hstay rfl
    | undo id refused hpc => exact hanswer rfl

theorem Advanced.of_run {labels : List Label} (h : runs Machine.step m labels = some m') :
    m'.Advanced c (m.clients c).log (m.clients c).program :=
  runs_invariant (fun _ _ _ hn hstep => hn.step hstep) ⟨[], by simp, .nil _⟩ h

/-- Where a client is in a `WaitBatch(ids, …, 0)`: the ids before its position
have ended, provided the batch is `known`. -/
def BatchPosition (ids ended : List TaskId) (known : Prop) : ClientPc → Prop
  | .ready => True
  | .finding id rest timeoutMs => timeoutMs = 0 ∧ ∃ before, ids = before ++ id :: rest ∧
      (known → ∀ other ∈ before, other ∈ ended)
  | .blocked state rest timeoutMs => timeoutMs = 0 ∧ ∃ before, ids = before ++ (state + 1) :: rest ∧
      (known → ∀ other ∈ before, other ∈ ended)
  | _ => False

structure Waits (known : List (Call × Answer) → TaskId → Prop) (c : Nat) (m : Machine) : Prop where
  log : ∀ before ids result after,
    (m.clients c).log = before ++ (.waitBatch (some ids) 0, result) :: after →
    (∀ id ∈ ids, known before id) → ∀ id ∈ ids, id ∈ m.history.ended
  position : ∀ ids next, (m.clients c).program = .op (.waitBatch (some ids) 0) next →
    BatchPosition ids m.history.ended (∀ id ∈ ids, known (m.clients c).log id) (m.clients c).pc

/-- The client looks an id up before it is forgotten. -/
def InTime (c : Nat) (m : Machine) (label : Label) : Prop :=
  ∀ choice id rest timeoutMs, label = .client c choice →
    (m.clients c).pc = .finding id rest timeoutMs → id ∉ m.forgotten

variable {known : List (Call × Answer) → TaskId → Prop}

theorem BatchPosition.mono {ids ended ended' : List TaskId} {k : Prop} {pc : ClientPc}
    (hmono : ∀ id ∈ ended, id ∈ ended') (h : BatchPosition ids ended k pc) :
    BatchPosition ids ended' k pc := by
  cases pc with
  | ready => trivial
  | finding id rest timeoutMs =>
    obtain ⟨hzero, before, hids, hended⟩ := h
    exact ⟨hzero, before, hids, fun hk other hother => hmono other (hended hk other hother)⟩
  | blocked state rest timeoutMs =>
    obtain ⟨hzero, before, hids, hended⟩ := h
    exact ⟨hzero, before, hids, fun hk other hother => hmono other (hended hk other hother)⟩
  | registering options => exact h
  | enqueueing options id state => exact h
  | undoing id refused => exact h

theorem Waits.answer {call : Call} {next : Answer → Program Unit} {result : Answer} {n : Machine}
    (hm : m.Waits known c) (hclients : n.clients = m.clients)
    (hended : n.history.ended = m.history.ended)
    (hover : ∀ ids, call = .waitBatch (some ids) 0 → (∀ id ∈ ids, known (m.clients c).log id) →
      ∀ id ∈ ids, id ∈ m.history.ended) : (n.answer c call next result).Waits known c := by
  refine ⟨fun before ids result' after hlog hknown => ?_, fun ids next' hprogram => ?_⟩
  · simp only [Machine.answer, Function.update_self, hclients] at hlog
    simp only [Machine.answer, hended]
    rcases List.eq_nil_or_concat after with rfl | ⟨rest, last, rfl⟩
    · obtain ⟨hbefore, hentry⟩ := List.append_inj' hlog rfl
      simp only [List.cons.injEq, Prod.mk.injEq, and_true] at hentry
      exact hover ids hentry.1 (by rw [hbefore]; exact hknown)
    · rw [List.concat_eq_append, ← List.cons_append, ← List.append_assoc] at hlog
      exact hm.log before ids result' rest (List.append_inj' hlog rfl).1 hknown
  · simp only [Machine.answer, Function.update_self]
    trivial

theorem Waits.stay {call : Call} {next : Answer → Program Unit} {n : Machine} {pc : ClientPc}
    (hm : m.Waits known c) (hprogram : (m.clients c).program = .op call next)
    (hclients : n.clients = m.clients) (hended : n.history.ended = m.history.ended)
    (hpc : ∀ ids, call = .waitBatch (some ids) 0 → BatchPosition ids m.history.ended
      (∀ id ∈ ids, known (m.clients c).log id) pc) : (n.setPc c pc).Waits known c := by
  refine ⟨fun before ids result after hlog => ?_, fun ids next' hprogram' => ?_⟩
  · simp only [setPc, Function.update_self, hclients] at hlog
    simp only [setPc, hended]
    exact hm.log before ids result after hlog
  · simp only [setPc, Function.update_self, hclients, hprogram, Cmd.op.injEq] at hprogram' ⊢
    rw [hended]
    exact hpc ids hprogram'.1

theorem Waits.other {label : Label} (hm : m.Waits known c)
    (hother : ∀ choice, label ≠ .client c choice) (h : m.step label = some m') :
    m'.Waits known c := by
  have hclient := client_of_other h hother
  refine ⟨fun before ids result after hlog hk id hid => ?_, fun ids next hprogram => ?_⟩
  · rw [hclient] at hlog
    exact ended_mono h (hm.log before ids result after hlog hk id hid)
  · rw [hclient] at hprogram ⊢
    exact (hm.position ids next hprogram).mono fun id => ended_mono h

theorem Waits.client {choice : Bool} (hm : m.Waits known c) (hknown : m.Known)
    (hids : ∀ id, known (m.clients c).log id → m.Returned id)
    (hintime : m.InTime c (.client c choice)) (h : m.stepClient c choice = some m') :
    m'.Waits known c := by
  obtain ⟨call, next, hprogram, move⟩ := stepClient_cases h
  have hposition : ∀ ids, call = .waitBatch (some ids) 0 → BatchPosition ids m.history.ended
      (∀ id ∈ ids, known (m.clients c).log id) (m.clients c).pc := by
    rintro ids rfl
    exact hm.position ids next hprogram
  -- a client in the middle of a submission is in no batch
  have hsubmits : ∀ {pc}, (m.clients c).pc = pc → (∀ ids ended k, ¬BatchPosition ids ended k pc) →
      ∀ ids, call ≠ .waitBatch (some ids) 0 := by
    intro pc hpc hnot ids hcall
    exact hnot _ _ _ (hpc ▸ hposition ids hcall)
  cases move with
  | reply pool result quiet keyHolder replies =>
    refine hm.answer rfl rfl fun ids hcall hk => ?_
    have hpos := hposition ids hcall
    generalize hpc : (m.clients c).pc = pc at replies hpos
    cases replies with
    | atOnce noWait noTask => simp [noWait ids 0 hcall]
    | missing hnone =>
      -- the only way to give up early, excluded by the look-up in time
      obtain ⟨-, before, hids', -⟩ := hpos
      have hfound := hknown.found (hids _ (hk _ (by simp [hids'])))
        (hintime choice _ _ _ rfl hpc)
      exact absurd hnone hfound
    | batchTimeout hne => exact absurd hpos.1 hne
    | waited hdone =>
      obtain ⟨-, before, hids', hended⟩ := hpos
      intro id hid
      rw [hids'] at hid
      rcases List.mem_append.mp hid with hid | hid
      · exact hended hk id hid
      · cases List.mem_singleton.mp hid
        exact hknown.ended_of_done hdone
    | timeout hne => exact absurd hpos.1 hne
  | goto pc goes =>
    refine hm.stay hprogram rfl rfl fun ids hcall => ?_
    have hpos := hposition ids hcall
    generalize hpc : (m.clients c).pc = pc' at goes hpos
    cases goes with
    | submitEx => cases hcall
    | wait => cases hcall
    | waitBatch =>
      cases hcall
      exact ⟨rfl, [], rfl, by simp⟩
    | found hstate =>
      obtain ⟨hzero, before, hids', hended⟩ := hpos
      rw [hknown.table.address _ _ hstate] at hids'
      exact ⟨hzero, before, hids', hended⟩
    | @waited state timeoutMs id rest _ hdone =>
      obtain ⟨hzero, before, hids', hended⟩ := hpos
      refine ⟨hzero, before ++ [state + 1], by rw [hids']; simp, fun hk other hother => ?_⟩
      rcases List.mem_append.mp hother with hother | hother
      · exact hended hk other hother
      · cases List.mem_singleton.mp hother
        exact hknown.ended_of_done hdone
  | submit hpc hcall => exact hm.answer rfl rfl (by simp [hcall])
  | register options hpc =>
    exact hm.stay hprogram rfl rfl fun ids hcall => absurd hcall (hsubmits hpc (fun _ _ _ h => h) ids)
  | accept options id state hpc ok =>
    exact hm.answer rfl rfl fun ids hcall => absurd hcall (hsubmits hpc (fun _ _ _ h => h) ids)
  | refuse options id state hpc refused =>
    exact hm.stay hprogram rfl rfl fun ids hcall => absurd hcall (hsubmits hpc (fun _ _ _ h => h) ids)
  | undo id refused hpc =>
    exact hm.answer rfl rfl fun ids hcall => absurd hcall (hsubmits hpc (fun _ _ _ h => h) ids)

theorem Waits.step {label : Label} (hm : m.Waits known c) (hknown : m.Known)
    (hids : ∀ id, known (m.clients c).log id → m.Returned id) (hintime : m.InTime c label)
    (h : m.step label = some m') : m'.Waits known c := by
  by_cases hother : ∀ choice, label ≠ .client c choice
  · exact hm.other hother h
  · obtain ⟨choice, rfl⟩ : ∃ choice, label = .client c choice := by
      push Not at hother
      exact hother
    exact hm.client hknown hids hintime h

theorem returned_mono {label : Label} (h : m.step label = some m') {id : TaskId}
    (hid : m.Returned id) : m'.Returned id := by
  obtain ⟨d, call, hmem⟩ := hid
  have hadvanced : m.Advanced d (m.clients d).log (m.clients d).program := ⟨[], by simp, .nil _⟩
  obtain ⟨trace, hlog, -⟩ := hadvanced.step h
  refine ⟨d, call, ?_⟩
  rw [hlog]
  exact List.mem_append_left _ hmem

theorem Known.run {labels : List Label} (hm : m.Known)
    (h : runs Machine.step m labels = some m') (hlap : m'.FirstLap) : m'.Known :=
  runs_invariant_below FirstLap.before (fun _ _ _ hn hlap hstep => hn.step hlap hstep) hm h hlap

structure BatchRun (start : Machine) (c : Nat) (m : Machine) : Prop where
  known : m.Known
  mono : ∀ id, start.Returned id → m.Returned id
  waits : m.Waits (fun log id => log = (start.clients c).log ∧ start.Returned id) c

theorem BatchRun.step {start : Machine} {label : Label} (hm : BatchRun start c m)
    (hintime : m.InTime c label) (hlap : m'.FirstLap) (h : m.step label = some m') :
    BatchRun start c m' :=
  ⟨hm.known.step hlap h, fun id hid => returned_mono h (hm.mono id hid),
    hm.waits.step hm.known (fun id hid => hm.mono id hid.2) hintime h⟩

theorem batch_over {labels : List Label} {ids : List TaskId} {next : Answer → Program Unit}
    (hm : m.Known) (hcall : (m.clients c).program = .op (.waitBatch (some ids) 0) next)
    (hready : (m.clients c).pc = .ready) (hreturned : ∀ id ∈ ids, m.Returned id)
    (hrun : runs Machine.step m labels = some m') (hlap : m'.FirstLap)
    (hintime : Meets Machine.step (InTime c) m labels)
    (hreturns : (m.clients c).log.length < (m'.clients c).log.length) :
    ∀ id ∈ ids, id ∈ m'.history.ended := by
  have hstart : BatchRun m c m := by
    refine ⟨hm, fun _ => id, fun before ids' result after hlog hk id hid => ?_,
      fun ids' next' _ => ?_⟩
    · have := congrArg List.length ((hk id hid).1 ▸ hlog)
      simp at this
    · rw [hready]
      trivial
  have hfinal := runs_invariant_of_meets_below FirstLap.before
    (fun n label n' (hn : BatchRun m c n) hin hlap hstep => hn.step hin hlap hstep)
    hstart hintime hrun hlap
  obtain ⟨trace, hlog, hfollows⟩ := Advanced.of_run (c := c) hrun
  rw [hcall] at hfollows
  generalize (m'.clients c).program = program at hfollows
  cases hfollows with
  | nil =>
    rw [hlog] at hreturns
    simp at hreturns
  | cons hrest => exact hfinal.waits.log _ ids _ _ hlog fun id hid => ⟨rfl, hreturned id hid⟩

end Machine

namespace Machine

variable {m m' : Machine}

theorem step_window {label : Label} (h : m.step label = some m') :
    m'.pool.maxRetainedStates = m.pool.maxRetainedStates ∧
      m'.history.marked.length ≤ m.history.marked.length + 1 := by
  cases label with
  | worker i threw =>
    refine ⟨(worker_frame h).2.2.2, ?_⟩
    obtain ⟨old, hold, move⟩ := stepWorker_cases h
    cases move with
    | stage entry stage next ended move quiet workers clients history =>
      rw [history]
      exact Nat.le_succ _
    | mark entry stage next executed failed fn marks next_eq =>
      exact (List.length_append).le
    | _ => exact Nat.le_succ _
  | client c choice =>
    have henqueue : ∀ fn options, (m.enqueue fn options).2.pool.maxRetainedStates =
        m.pool.maxRetainedStates := by
      intro fn options
      cases hok : (m.enqueue fn options).1.ok with
      | true => exact (Pool.enqueue_accepts hok).maxRetainedStates
      | false => exact (Pool.enqueue_refuses hok).maxRetainedStates
    obtain ⟨call, next, -, move⟩ := stepClient_cases h
    cases move with
    | reply pool result quiet keyHolder replies => exact ⟨quiet.maxRetainedStates, Nat.le_succ _⟩
    | submit hpc hcall => exact ⟨henqueue _ _, Nat.le_succ _⟩
    | accept options id state hpc ok => exact ⟨henqueue _ _, Nat.le_succ _⟩
    | refuse options id state hpc refused => exact ⟨henqueue _ _, Nat.le_succ _⟩
    | _ => exact ⟨rfl, Nat.le_succ _⟩
  | stop =>
    cases Option.some.inj h
    exact ⟨rfl, Nat.le_succ _⟩

/-- Every look-up is in time while the window has room for the whole run. -/
theorem inTime_of_short {c : Nat} {labels : List Label}
    (h : m.history.marked.length + labels.length ≤ m.pool.maxRetainedStates) :
    Meets Machine.step (InTime c) m labels := by
  induction labels generalizing m with
  | nil => trivial
  | cons label rest ih =>
    simp only [List.length_cons] at h
    refine ⟨fun choice id rest' timeoutMs _ _ hid => ?_, fun m' hstep => ih ?_⟩
    · unfold forgotten at hid
      rw [Nat.sub_eq_zero_of_le (by omega), List.take_zero] at hid
      cases hid
    · obtain ⟨hlimit, hmarked⟩ := step_window hstep
      omega

end Machine

def unwaited (call : Call) (result : Answer) (pending : List TaskId) : List TaskId :=
  match call, result with
  | .waitBatch (some ids) 0, _ => pending.filter (· ∉ ids)
  | .submitEx _ _, .task (.ok id) => id :: pending
  | _, _ => pending

/-- Whatever the executor answers, `post` relates the value that the program
returns to the tasks it has submitted and not waited for. -/
def Covers (post : α → List TaskId → Prop) : Program α → List TaskId → Prop
  | .ret value, pending => post value pending
  | .op call next, pending =>
    (∀ ids, call = .waitBatch (some ids) 0 → ∀ id ∈ ids, id ∈ pending) ∧
      ∀ result, Covers post (next result) (unwaited call result pending)

theorem Covers.bind {post : β → List TaskId → Prop} {p : Program α} {f : α → Program β}
    {pending : List TaskId} (h : Covers (fun value => Covers post (f value)) p pending) :
    Covers post (p.bind f) pending := by
  induction p generalizing pending with
  | ret value => exact h
  | op call next ih => exact ⟨h.1, fun result => ih result (h.2 result)⟩

theorem Covers.mono {post post' : α → List TaskId → Prop} {p : Program α}
    {pending : List TaskId} (hpost : ∀ value pending, post value pending → post' value pending)
    (h : Covers post p pending) : Covers post' p pending := by
  induction p generalizing pending with
  | ret value => exact hpost value pending h
  | op call next ih => exact ⟨h.1, fun result => ih result (h.2 result)⟩

def submittedIds (trace : List (Call × Answer)) : List TaskId :=
  trace.filterMap fun
    | (.submitEx _ _, .task (.ok id)) => some id
    | _ => none

/-- Every batch of a log has ended whose ids were returned earlier in the log. -/
def Waited (log : List (Call × Answer)) (ended : List TaskId) : Prop :=
  ∀ before ids result after, log = before ++ (.waitBatch (some ids) 0, result) :: after →
    (∀ id ∈ ids, ∃ call, (call, Answer.task (.ok id)) ∈ before) → ∀ id ∈ ids, id ∈ ended

theorem mem_unwaited {call : Call} {result : Answer} {pending : List TaskId} {id : TaskId}
    (h : id ∈ pending ∨ id ∈ submittedIds [(call, result)]) :
    id ∈ unwaited call result pending ∨ ∃ ids, call = .waitBatch (some ids) 0 ∧ id ∈ ids := by
  unfold unwaited
  split
  · next ids =>
    rcases h with h | h
    · by_cases hid : id ∈ ids
      · exact .inr ⟨ids, rfl, hid⟩
      · exact .inl (by simp [h, hid])
    · simp [submittedIds] at h
  · next hasFn options other =>
    rcases h with h | h
    · exact .inl (by simp [h])
    · simp only [submittedIds, List.filterMap_cons, List.filterMap_nil, List.mem_singleton] at h
      exact .inl (by simp [h])
  · next hbatch hsubmit =>
    rcases h with h | h
    · exact .inl h
    · simp only [submittedIds, List.filterMap_cons, List.filterMap_nil] at h
      split at h
      · simp at h
      · next heq =>
        split at heq
        · next hasFn options other hpair =>
          cases hpair
          exact absurd rfl (hsubmit hasFn options other rfl)
        · cases heq

theorem known_of_unwaited {call : Call} {result : Answer} {pending : List TaskId} {id : TaskId}
    {log : List (Call × Answer)}
    (hpending : ∀ id ∈ pending, ∃ call, (call, Answer.task (.ok id)) ∈ log)
    (h : id ∈ unwaited call result pending) :
    ∃ call', (call', Answer.task (.ok id)) ∈ log ++ [(call, result)] := by
  unfold unwaited at h
  split at h
  · obtain ⟨call', hmem⟩ := hpending id (List.mem_filter.mp h).1
    exact ⟨call', List.mem_append_left _ hmem⟩
  · next hasFn options other =>
    rcases List.mem_cons.mp h with rfl | h
    · exact ⟨.submitEx hasFn options, by simp⟩
    · obtain ⟨call', hmem⟩ := hpending id h
      exact ⟨call', List.mem_append_left _ hmem⟩
  · obtain ⟨call', hmem⟩ := hpending id h
    exact ⟨call', List.mem_append_left _ hmem⟩

theorem Covers.ended {post : α → List TaskId → Prop} {p q : Program α}
    {trace log later : List (Call × Answer)} {pending ended : List TaskId} {value : α}
    (hcovers : Covers post p pending) (hfollows : Follows p trace q) (hq : q = .ret value)
    (hvalue : ∀ pending, post value pending → pending = [])
    (hwaited : Waited (log ++ (trace ++ later)) ended)
    (hpending : ∀ id ∈ pending, ∃ call, (call, Answer.task (.ok id)) ∈ log) :
    ∀ id, id ∈ pending ∨ id ∈ submittedIds trace → id ∈ ended := by
  induction hfollows generalizing log pending with
  | nil p =>
    subst hq
    intro id hid
    rw [hvalue pending hcovers] at hid
    simp [submittedIds] at hid
  | @cons call next result trace q h ih =>
    intro id hid
    have hrest := ih (hcovers.2 result) hq
      (by rw [List.append_assoc]; exact hwaited) fun id hid => known_of_unwaited hpending hid
    have hsplit : id ∈ pending ∨ id ∈ submittedIds [(call, result)] ∨ id ∈ submittedIds trace := by
      rcases hid with hid | hid
      · exact .inl hid
      · have happend : submittedIds ((call, result) :: trace) =
            submittedIds [(call, result)] ++ submittedIds trace :=
          List.filterMap_append (l := [(call, result)])
        rw [happend] at hid
        exact .inr (List.mem_append.mp hid)
    rcases or_assoc.mpr hsplit with hnow | hlater
    · rcases mem_unwaited hnow with hkept | ⟨ids, hcall, hmem⟩
      · exact hrest id (.inl hkept)
      · subst hcall
        exact hwaited log ids result (trace ++ later) rfl
          (fun other hother => hpending other (hcovers.1 ids rfl other hother)) id hmem
    · exact hrest id (.inr hlater)

namespace Machine

variable {m m' : Machine} {c : Nat}

structure ProgramRun (start : List (Call × Answer)) (c : Nat) (m : Machine) : Prop where
  known : m.Known
  waits : m.Waits (fun log id => ∃ later, log = start ++ later ∧
    ∃ call, (call, Answer.task (.ok id)) ∈ later) c

theorem ProgramRun.step {start : List (Call × Answer)} {label : Label}
    (hm : ProgramRun start c m) (hintime : m.InTime c label) (hlap : m'.FirstLap)
    (h : m.step label = some m') : ProgramRun start c m' := by
  refine ⟨hm.known.step hlap h, hm.waits.step hm.known (fun id hid => ?_) hintime h⟩
  obtain ⟨later, hlog, call, hmem⟩ := hid
  exact ⟨c, call, hlog ▸ List.mem_append_right _ hmem⟩

theorem ProgramRun.start (hm : m.Known) (hready : (m.clients c).pc = .ready) :
    ProgramRun (m.clients c).log c m := by
  refine ⟨hm, fun before ids result after hlog hk id hid => ?_, fun ids next _ => ?_⟩
  · obtain ⟨later, hbefore, -⟩ := hk id hid
    have hlength := congrArg List.length hlog
    rw [hbefore] at hlength
    simp only [List.length_append, List.length_cons] at hlength
    omega
  · rw [hready]
    trivial

/-- When the calls of a client from `m` on are those of a covering program up to
its return, the tasks of that program have ended. -/
theorem covered_over {post : α → List TaskId → Prop} {p : Program α} {value : α}
    {labels : List Label} {trace later : List (Call × Answer)} (hm : m.Known)
    (hready : (m.clients c).pc = .ready) (hcovers : Covers post p [])
    (hintime : Meets Machine.step (InTime c) m labels)
    (hrun : runs Machine.step m labels = some m') (hlap : m'.FirstLap)
    (hlog : (m'.clients c).log = (m.clients c).log ++ (trace ++ later))
    (hfollows : Follows p trace (.ret value))
    (hvalue : ∀ pending, post value pending → pending = []) :
    ∀ id ∈ submittedIds trace, id ∈ m'.history.ended := by
  have hfinal := runs_invariant_of_meets_below FirstLap.before
    (fun n label n' (hn : ProgramRun (m.clients c).log c n) hin hlap hstep =>
      hn.step hin hlap hstep)
    (.start hm hready) hintime hrun hlap
  have hwaited : Waited ([] ++ (trace ++ later)) m'.history.ended := by
    intro before ids result after hsplit hids
    refine hfinal.waits.log ((m.clients c).log ++ before) ids result after ?_ fun id hid => ?_
    · rw [hlog, List.append_assoc, ← hsplit, List.nil_append]
    · exact ⟨before, rfl, hids id hid⟩
  exact fun id hid => hcovers.ended hfollows rfl hvalue hwaited (by simp) id (.inr hid)

end Machine

end Corekit.Task
