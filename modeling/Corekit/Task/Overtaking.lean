import Corekit.Task.Scheduling
import Mathlib.Data.List.Nodup

/-! How long an entry of the queue waits. While an entry is in the queue, every
task that a worker takes stood ahead of it under the policy, so the number of
entries ahead counts the tasks that can still be taken before it. -/
namespace Corekit.Task
open Corekit.Api Corekit.Foundation

/-- The policy serves `other` before `entry`. -/
def Ahead (policy : ExecutorPolicy) (entry other : TaskEntry) : Prop :=
  match policy with
  | .kFifo | .kFair => other.seq < entry.seq
  | .kPriority | .kHybridFairPriority =>
    Pool.score entry.priority < Pool.score other.priority ∨
      (other.priority = entry.priority ∧ other.seq < entry.seq)

instance (policy : ExecutorPolicy) (entry other : TaskEntry) :
    Decidable (Ahead policy entry other) :=
  match policy with
  | .kFifo | .kFair => inferInstanceAs (Decidable (_ < _))
  | .kPriority | .kHybridFairPriority => inferInstanceAs (Decidable (_ ∨ _))

def aheadCount (policy : ExecutorPolicy) (entry : TaskEntry) (entries : List TaskEntry) : Nat :=
  entries.countP fun other => Ahead policy entry other

section Ahead

variable {policy : ExecutorPolicy} {entry other : TaskEntry} {p : Pool}

theorem score_injective {left right : TaskPriority} (h : Pool.score left = Pool.score right) :
    left = right := by
  cases left <;> cases right <;> simp [Pool.score] at h ⊢

theorem Ahead.higher (h : Ahead policy entry other) (hlater : entry.seq < other.seq) :
    (policy = .kPriority ∨ policy = .kHybridFairPriority) ∧
      Pool.score entry.priority < Pool.score other.priority := by
  cases policy with
  | kFifo | kFair => exact absurd h (Nat.lt_asymm hlater)
  | kPriority | kHybridFairPriority =>
    refine ⟨by simp, ?_⟩
    rcases h with hscore | ⟨-, hseq⟩
    · exact hscore
    · exact absurd hseq (Nat.lt_asymm hlater)

theorem Pool.Serves.ahead (h : p.Serves other) (hpolicy : p.options.policy = policy)
    (hentry : entry ∈ p.tasks) (hne : other.seq ≠ entry.seq) : Ahead policy entry other := by
  rw [Serves, hpolicy] at h
  cases policy with
  | kFifo | kFair => exact Nat.lt_of_le_of_ne (h entry hentry) hne
  | kPriority | kHybridFairPriority =>
    obtain ⟨hscore, hseq⟩ := h entry hentry
    rcases Nat.lt_or_eq_of_le hscore with hlt | heq
    · exact .inl hlt
    · have hsame := score_injective heq
      exact .inr ⟨hsame.symm, Nat.lt_of_le_of_ne (hseq hsame) hne⟩

theorem Pool.Serves.not_ahead (h : p.Serves entry) (hpolicy : p.options.policy = policy)
    (hother : other ∈ p.tasks) : ¬Ahead policy entry other := by
  rw [Serves, hpolicy] at h
  cases policy with
  | kFifo | kFair => exact Nat.not_lt.mpr (h other hother)
  | kPriority | kHybridFairPriority =>
    obtain ⟨hscore, hseq⟩ := h other hother
    rintro (hhigher | ⟨hsame, hearlier⟩)
    · omega
    · have := hseq hsame
      omega

end Ahead

namespace Pool

theorem Rising.eq_of_seq {tasks : List TaskEntry} {left right : TaskEntry} (h : Rising tasks)
    (hleft : left ∈ tasks) (hright : right ∈ tasks) (hseq : left.seq = right.seq) :
    left = right := by
  have hnodup : (tasks.map TaskEntry.seq).Nodup :=
    List.pairwise_map.mpr (h.imp fun hlt => Nat.ne_of_lt hlt)
  exact List.inj_on_of_nodup_map hnodup hleft hright hseq

end Pool

namespace Schedule

/-- What a stretch of a run does while an entry stays in the queue. -/
structure Passed (policy : ExecutorPolicy) (entry : TaskEntry) (w w' : Schedule)
    (arrived taken : List TaskEntry) : Prop where
  enqueued : w'.enqueued = w.enqueued ++ arrived
  dequeued : w'.dequeued = w.dequeued ++ taken
  ahead : ∀ other ∈ taken, Ahead policy entry other
  count : taken.length + aheadCount policy entry w'.machine.pool.tasks =
    aheadCount policy entry w.machine.pool.tasks + aheadCount policy entry arrived
  later : ∀ other ∈ arrived, entry.seq < other.seq

variable {policy : ExecutorPolicy} {entry : TaskEntry} {w mid w' : Schedule}

theorem Passed.refl (w : Schedule) : Passed policy entry w w [] [] :=
  ⟨by simp, by simp, by simp, by simp [aheadCount], by simp⟩

theorem Passed.trans {arrived arrived' taken taken' : List TaskEntry}
    (h : Passed policy entry w mid arrived taken)
    (h' : Passed policy entry mid w' arrived' taken') :
    Passed policy entry w w' (arrived ++ arrived') (taken ++ taken') := by
  refine ⟨?_, ?_, ?_, ?_, ?_⟩
  · rw [h'.enqueued, h.enqueued, List.append_assoc]
  · rw [h'.dequeued, h.dequeued, List.append_assoc]
  · exact List.forall_mem_append.mpr ⟨h.ahead, h'.ahead⟩
  · have hfirst := h.count
    have hsecond := h'.count
    simp only [aheadCount, List.countP_append, List.length_append] at hfirst hsecond ⊢
    omega
  · exact List.forall_mem_append.mpr ⟨h.later, h'.later⟩

theorem step_enqueued {label : Label} (h : w.step label = some w') :
    w.enqueued.length ≤ w'.enqueued.length := by
  obtain ⟨m, -, rfl⟩ := Option.map_eq_some_iff.mp h
  simp

theorem runs_enqueued {labels : List Label} (h : runs Schedule.step w labels = some w') :
    w.enqueued.length ≤ w'.enqueued.length := by
  induction labels generalizing w with
  | nil =>
    cases Option.some.inj h
    exact Nat.le_refl _
  | cons label rest ih =>
    obtain ⟨mid, hmid, hrest⟩ := runs_cons_some.mp h
    exact Nat.le_trans (step_enqueued hmid) (ih hrest)

theorem Sound.passed {label : Label} (hw : w.Sound) (hstep : w.step label = some w')
    (hcount : w'.enqueued.length < 2 ^ 64)
    (hpolicy : w.machine.pool.options.policy = policy) (hold : entry.seq ≤ w.enqueued.length)
    (hentry : entry ∈ w'.machine.pool.tasks) :
    entry ∈ w.machine.pool.tasks ∧ ∃ arrived taken, Passed policy entry w w' arrived taken := by
  have horder := hw.inOrder (Nat.lt_of_le_of_lt (step_enqueued hstep) hcount)
  obtain ⟨m, hm, rfl⟩ := Option.map_eq_some_iff.mp hstep
  dsimp only at hentry
  cases Machine.queueMove hm with
  | keep picked tasks seq =>
    rw [tasks] at hentry
    refine ⟨hentry, [], [], ?_, ?_, by simp, ?_, by simp⟩
    · simp [tasks]
    · simp [picked]
    · simp [tasks, aheadCount]
  | append new tasks numbered seq =>
    simp only [tasks, List.drop_left, List.length_append, List.length_singleton] at hcount
    have hnew : new.seq = w.enqueued.length + 1 := by
      rw [numbered, hw.counted, Nat.mod_add_mod, Nat.mod_eq_of_lt hcount]
    rw [tasks] at hentry
    have hbefore : entry ∈ w.machine.pool.tasks := by
      rcases List.mem_append.mp hentry with hbefore | hlast
      · exact hbefore
      · cases List.mem_singleton.mp hlast
        omega
    refine ⟨hbefore, [new], [], ?_, ?_, by simp, ?_, ?_⟩
    · simp [tasks]
    · simp [Machine.picked]
    · simp [tasks, aheadCount, List.countP_append]
    · rw [List.forall_mem_singleton]
      omega
  | take other picked found tasks seq =>
    obtain ⟨before, after, hsplit, herase⟩ := split_at found
    have hsub : m.pool.tasks.Sublist w.machine.pool.tasks := tasks ▸ List.eraseIdx_sublist ..
    have hserves := Pool.pickNextTaskIndexLocked_serves horder.rising found
    have hbefore := hsub.subset hentry
    -- the entry that leaves is not the one that stays
    have hne : other.seq ≠ entry.seq := by
      intro heq
      have hrising := horder.rising
      rw [hsplit] at hrising
      rw [tasks, herase] at hentry
      obtain ⟨-, hafter, hacross⟩ := List.pairwise_append.mp hrising
      rcases List.mem_append.mp hentry with hin | hin
      · have := hacross entry hin other List.mem_cons_self
        omega
      · have := (List.pairwise_cons.mp hafter).1 entry hin
        omega
    have hahead := hserves.ahead hpolicy hbefore hne
    refine ⟨hbefore, [], [other], ?_, ?_, ?_, ?_, by simp⟩
    · have hdrop : m.pool.tasks.drop w.machine.pool.tasks.length = [] :=
        List.drop_eq_nil_of_le hsub.length_le
      simp [hdrop]
    · simp [picked]
    · exact List.forall_mem_singleton.mpr hahead
    · simp only [aheadCount, tasks, herase]
      rw [hsplit]
      simp only [List.countP_append, List.countP_cons, decide_eq_true hahead, List.countP_nil,
        List.length_singleton, if_true]
      omega

theorem Sound.passed_run {labels : List Label} (hw : w.Sound)
    (hrun : runs Schedule.step w labels = some w') (hcount : w'.enqueued.length < 2 ^ 64)
    (hpolicy : Meets Schedule.step (fun w _ => w.machine.pool.options.policy = policy) w labels)
    (hold : entry.seq ≤ w.enqueued.length) (hentry : entry ∈ w'.machine.pool.tasks) :
    entry ∈ w.machine.pool.tasks ∧ ∃ arrived taken, Passed policy entry w w' arrived taken := by
  induction labels generalizing w with
  | nil =>
    cases Option.some.inj hrun
    exact ⟨hentry, [], [], .refl _⟩
  | cons label rest ih =>
    obtain ⟨mid, hmid, hrest⟩ := runs_cons_some.mp hrun
    obtain ⟨hin, arrived', taken', hlater⟩ := ih (hw.step hmid) hrest (hpolicy.2 mid hmid)
      (Nat.le_trans hold (step_enqueued hmid))
    obtain ⟨hin, arrived, taken, hnow⟩ := hw.passed hmid
      (Nat.lt_of_le_of_lt (runs_enqueued hrest) hcount) hpolicy.1 hold hin
    exact ⟨hin, _, _, hnow.trans hlater⟩

/-- Entries wait for those ahead of them. In every stretch of every run that keeps
to one policy and leaves an entry in the queue, the workers take only entries
that stand ahead of it; what they take and what is still ahead of it at the end
is what was ahead of it at the start and what came in ahead of it since. An entry
comes in ahead of one that is already there only under a policy with priorities,
and by a higher priority. The next task that a worker takes is the entry itself
exactly when nothing is ahead of it. -/
theorem waits_for_those_ahead {options : ExecutorOptions} {hardwareConcurrency : Nat}
    {programs : Nat → Program Unit} {first labels : List Label}
    (hfirst : runs Schedule.step (start options hardwareConcurrency programs) first = some w)
    (hrun : runs Schedule.step w labels = some w') (hcount : w'.enqueued.length < 2 ^ 64)
    (hpolicy : Meets Schedule.step (fun w _ => w.machine.pool.options.policy = policy) w labels)
    (hbefore : entry ∈ w.machine.pool.tasks) (hafter : entry ∈ w'.machine.pool.tasks) :
    (∃ arrived taken,
      w'.enqueued = w.enqueued ++ arrived ∧ w'.dequeued = w.dequeued ++ taken ∧
      (∀ other ∈ taken, Ahead policy entry other) ∧
      taken.length + aheadCount policy entry w'.machine.pool.tasks =
        aheadCount policy entry w.machine.pool.tasks + aheadCount policy entry arrived ∧
      ∀ other ∈ arrived, Ahead policy entry other →
        (policy = .kPriority ∨ policy = .kHybridFairPriority) ∧
          Pool.score entry.priority < Pool.score other.priority) ∧
    ∀ label other m, w'.machine.pool.options.policy = policy →
      w'.machine.picked label = some other → w'.machine.step label = some m →
      (other = entry ↔ aheadCount policy entry w'.machine.pool.tasks = 0) := by
  have hw := Sound.of_run hfirst
  have horder := hw.inOrder (Nat.lt_of_le_of_lt (runs_enqueued hrun) hcount)
  obtain ⟨-, arrived, taken, hpassed⟩ := hw.passed_run hrun hcount hpolicy
    (horder.numbered entry hbefore) hafter
  refine ⟨⟨arrived, taken, hpassed.enqueued, hpassed.dequeued, hpassed.ahead, hpassed.count,
    fun other hother hahead => hahead.higher (hpassed.later other hother)⟩, ?_⟩
  intro label other m hsame hpicked hstep
  have hrunAll := runs_append.mpr ⟨w, hfirst, hrun⟩
  have horder' := (Sound.of_run hrunAll).inOrder hcount
  cases Machine.queueMove hstep with
  | keep picked tasks seq => cases hpicked.symm.trans picked
  | append new tasks numbered seq => cases hpicked
  | take found picked hfound tasks seq =>
    cases Option.some.inj (hpicked.symm.trans picked)
    have hserves := Pool.pickNextTaskIndexLocked_serves horder'.rising hfound
    have hmem : other ∈ w'.machine.pool.tasks := List.mem_of_getElem? hfound
    rw [aheadCount, List.countP_eq_zero]
    constructor
    · rintro rfl rival hrival
      simpa using hserves.not_ahead hsame hrival
    · intro hnone
      by_contra hne
      have hseq : other.seq ≠ entry.seq := fun heq =>
        hne (horder'.rising.eq_of_seq hmem hafter heq)
      exact hnone other hmem (decide_eq_true (hserves.ahead hsame hafter hseq))

/-- A task of low priority waits; one of high priority comes in ahead of it and is
taken. -/
theorem waits_for_those_ahead_low :
    ∃ w w', runs Schedule.step (start { workerCount := 1, policy := .kPriority } 1 fun _ =>
        .op (.submitEx true { priority := .kLow }) fun _ =>
          .op (.submitEx true { priority := .kHigh }) fun _ => .ret ())
        (List.replicate 3 (.client 0 false)) = some w ∧
      runs Schedule.step w (List.replicate 3 (.client 0 false) ++ [.worker 0 false]) = some w' ∧
      ∃ arrived taken, w'.enqueued = w.enqueued ++ arrived ∧ w'.dequeued = w.dequeued ++ taken ∧
        taken.length = aheadCount .kPriority ⟨.tracked 1 0 0, .kLow, 1, 0⟩ arrived := by
  obtain ⟨w', hall, hw'⟩ := Option.map_eq_some_iff.mp
    (show (runs Schedule.step (start { workerCount := 1, policy := .kPriority } 1 fun _ =>
        .op (.submitEx true { priority := .kLow }) fun _ =>
          .op (.submitEx true { priority := .kHigh }) fun _ => .ret ())
        (List.replicate 3 (.client 0 false) ++
          (List.replicate 3 (.client 0 false) ++ [.worker 0 false]))).map
          (fun w => (w.machine.pool.tasks, w.enqueued.length)) =
        some ([⟨.tracked 1 0 0, .kLow, 1, 0⟩], 2) by decide +kernel)
  obtain ⟨w, hfirst, hrun⟩ := runs_append.mp hall
  have hw : w.machine.pool.tasks = [⟨.tracked 1 0 0, .kLow, 1, 0⟩] := by
    have htasks := congrArg (Option.map fun w : Schedule => w.machine.pool.tasks) hfirst
    exact Option.some.inj (htasks.symm.trans (by decide +kernel))
  obtain ⟨hqueue, hcount⟩ := Prod.mk.inj hw'
  have hpolicy : Meets Schedule.step (fun w _ => w.machine.pool.options.policy = .kPriority) w
      (List.replicate 3 (.client 0 false) ++ [.worker 0 false]) :=
    Meets.suffix (.of_decide (by decide +kernel)) hfirst
  obtain ⟨⟨arrived, taken, harrived, htaken, -, hbalance, -⟩, -⟩ :=
    waits_for_those_ahead hfirst hrun (by rw [hcount]; decide) hpolicy
      (show (⟨.tracked 1 0 0, .kLow, 1, 0⟩ : TaskEntry) ∈ w.machine.pool.tasks by simp [hw])
      (by simp [hqueue])
  refine ⟨w, w', hfirst, hrun, arrived, taken, harrived, htaken, ?_⟩
  rw [hw, hqueue] at hbalance
  simpa [aheadCount, Ahead] using hbalance

end Schedule

end Corekit.Task
