import Corekit.Task.GraphOrder
import Corekit.Foundation.Interference
import Corekit.Foundation.Slots
import Mathlib.Data.Multiset.UnionInter

/-! `RunInternal` among any executor that runs each closure it accepts once and
answers kOk to `WaitBatch` only when the listed closures have ended. The
executor may start and end closures at any time; whether it may also refuse a
closure or give up a wait is a parameter. -/
namespace Corekit.Task
open Corekit.Api Corekit.Foundation

inductive Phase where
  | queued
  | running
  | ended
  deriving DecidableEq, Repr

/-- A closure that the executor has accepted: it calls the function of `node`
and records an exception in the `NodeCtx` of `slot`. -/
structure GraphClosure where
  id : TaskId
  node : TaskId
  slot : Nat
  phase : Phase
  deriving DecidableEq, Repr

structure Surroundings where
  closures : List GraphClosure := []
  /-- the `failed` members of the `NodeCtx` vector -/
  flags : Nat → Bool := fun _ => false
  /-- the nodes whose function has started, and ended, in this order -/
  started : List TaskId := []
  ended : List TaskId := []

/-- The answers to `RunInternal`; `throws` says which functions throw. -/
inductive Acts (throws : TaskId → Bool) (refusals : Bool) :
    (o : GraphOp) → Surroundings → o.Res → Surroundings → Prop where
  | invoke (s : Surroundings) (node : TaskId) :
      Acts throws refusals (.invoke node) s (throws node)
        { s with started := s.started ++ [node], ended := s.ended ++ [node] }
  | accept (s : Surroundings) (slot : Nat) (node : TaskId) (options : TaskSubmitOptions)
      (id : TaskId) :
      Acts throws refusals (.submitEx slot node options) s (.ok id)
        { s with
          closures := s.closures ++ [⟨id, node, slot, .queued⟩]
          flags := Function.update s.flags slot false }
  | refuse (s : Surroundings) (slot : Nat) (node : TaskId) (options : TaskSubmitOptions)
      (status : Status) (allowed : refusals = true) (error : status.ok = false) :
      Acts throws refusals (.submitEx slot node options) s (.error status)
        { s with flags := Function.update s.flags slot false }
  | waited (s : Surroundings) (ids : List TaskId) (status : Status) (ok : status.ok = true)
      (all : ∀ c ∈ s.closures, c.id ∈ ids → c.phase = .ended) :
      Acts throws refusals (.waitBatch ids) s status s
  | gaveUp (s : Surroundings) (ids : List TaskId) (status : Status) (allowed : refusals = true)
      (error : status.ok = false) : Acts throws refusals (.waitBatch ids) s status s
  | failed (s : Surroundings) (slot : Nat) :
      Acts throws refusals (.failed slot) s (s.flags slot) s

/-- The executor starts a closure it has accepted, or a function ends. -/
inductive Executes (throws : TaskId → Bool) : Surroundings → Surroundings → Prop where
  | start (s : Surroundings) (i : Nat) (c : GraphClosure) (h : s.closures[i]? = some c)
      (queued : c.phase = .queued) :
      Executes throws s { s with
        closures := s.closures.set i { c with phase := .running }
        started := s.started ++ [c.node] }
  | finish (s : Surroundings) (i : Nat) (c : GraphClosure) (h : s.closures[i]? = some c)
      (running : c.phase = .running) :
      Executes throws s { s with
        closures := s.closures.set i { c with phase := .ended }
        flags := if throws c.node then Function.update s.flags c.slot true else s.flags
        ended := s.ended ++ [c.node] }

def GraphClosure.inPhase (phase : Phase) (c : GraphClosure) : Multiset TaskId :=
  if c.phase = phase then {c.node} else 0

def nodesOf (closures : List GraphClosure) (phase : Phase) : Multiset TaskId :=
  slotSum (fun _ c => c.inPhase phase) closures

def Surroundings.nodesIn (s : Surroundings) (phase : Phase) : Multiset TaskId :=
  nodesOf s.closures phase

theorem nodesOf_set {closures : List GraphClosure} {i : Nat} {c : GraphClosure}
    (h : closures[i]? = some c) (new : GraphClosure) (phase : Phase) :
    nodesOf (closures.set i new) phase + c.inPhase phase =
      nodesOf closures phase + new.inPhase phase :=
  slotSum_set (fun _ c => c.inPhase phase) new h

theorem nodesOf_snoc (closures : List GraphClosure) (c : GraphClosure) (phase : Phase) :
    nodesOf (closures ++ [c]) phase = nodesOf closures phase + c.inPhase phase := by
  simp [nodesOf, slotSum, List.mapIdx_append]

theorem nodesOf_eq_zero {closures : List GraphClosure} {phase : Phase}
    (h : ∀ c ∈ closures, c.phase ≠ phase) : nodesOf closures phase = 0 := by
  apply slotSum_eq_zero
  intro i c hi
  exact if_neg (h c (List.mem_of_getElem? hi))

/-- The safety of a run with at most `k` functions in flight (none is no bound). -/
structure Orderly (g : SimpleTaskGraph) (k : Nat) (s : Surroundings) : Prop where
  nodup : ((s.started : Multiset TaskId) + s.nodesIn .queued).Nodup
  preds : ∀ v ∈ (s.started : Multiset TaskId) + s.nodesIn .queued, ∀ u ∈ g.nodes.keys,
    v ∈ g.succ u → u ∈ s.ended
  flow : (s.started : Multiset TaskId) = (s.ended : Multiset TaskId) + s.nodesIn .running
  cap : 0 < k → (s.nodesIn .queued + s.nodesIn .running).card ≤ k

section Executor

variable {g : SimpleTaskGraph} {k : Nat} {throws : TaskId → Bool} {s s' : Surroundings}

theorem coe_snoc_add {α : Type} (l : List α) (a : α) :
    ((l ++ [a] : List α) : Multiset α) = (l : Multiset α) + {a} := by
  rw [← Multiset.coe_add]
  rfl

theorem Executes.nodesIn (h : Executes throws s s') :
    (∃ v, s.nodesIn .queued = s'.nodesIn .queued + {v} ∧
      s'.nodesIn .running = s.nodesIn .running + {v} ∧
      s'.started = s.started ++ [v] ∧ s'.ended = s.ended) ∨
    (∃ v, s'.nodesIn .queued = s.nodesIn .queued ∧
      s.nodesIn .running = s'.nodesIn .running + {v} ∧
      s'.started = s.started ∧ s'.ended = s.ended ++ [v]) := by
  cases h with
  | start i c hc queued =>
    have hq := nodesOf_set hc { c with phase := .running } .queued
    have hr := nodesOf_set hc { c with phase := .running } .running
    simp only [GraphClosure.inPhase, queued, if_true, reduceCtorEq, if_false, add_zero] at hq hr
    exact .inl ⟨c.node, hq.symm, hr, rfl, rfl⟩
  | finish i c hc running =>
    have hq := nodesOf_set hc { c with phase := .ended } .queued
    have hr := nodesOf_set hc { c with phase := .ended } .running
    simp only [GraphClosure.inPhase, running, if_true, reduceCtorEq, if_false, add_zero] at hq hr
    exact .inr ⟨c.node, hq, hr.symm, rfl, rfl⟩

theorem Executes.called (h : Executes throws s s') :
    (s'.started : Multiset TaskId) + s'.nodesIn .queued = s.started + s.nodesIn .queued := by
  rcases h.nodesIn with ⟨v, hqueued, -, hstarted, -⟩ | ⟨v, hqueued, -, hstarted, -⟩
  · rw [hstarted, hqueued, coe_snoc_add]
    ac_rfl
  · rw [hstarted, hqueued]

theorem Orderly.executes (hs : Orderly g k s) (h : Executes throws s s') : Orderly g k s' := by
  have hflow := hs.flow
  have hcap := hs.cap
  have hsame := h.called
  rcases h.nodesIn with ⟨v, hqueued, hrunning, hstarted, hended⟩ |
    ⟨v, hqueued, hrunning, hstarted, hended⟩
  · refine ⟨hsame ▸ hs.nodup, ?_, ?_, fun hk => ?_⟩
    · rw [hsame, hended]
      exact hs.preds
    · rw [hstarted, hrunning, hended, coe_snoc_add, hflow]
      ac_rfl
    · have := hcap hk
      rw [hqueued] at this
      rw [hrunning]
      simp only [Multiset.card_add, Multiset.card_singleton] at this ⊢
      omega
  · refine ⟨hsame ▸ hs.nodup, ?_, ?_, fun hk => ?_⟩
    · rw [hsame, hended]
      exact fun u hu w hw hwu => List.mem_append_left _ (hs.preds u hu w hw hwu)
    · rw [hstarted, hended, coe_snoc_add, hflow, hrunning]
      ac_rfl
    · have := hcap hk
      rw [hrunning] at this
      rw [hqueued]
      simp only [Multiset.card_add, Multiset.card_singleton] at this ⊢
      omega

theorem Orderly.stable : Cmd.Stable (Executes throws) (Orderly g k) (Orderly g k) :=
  ⟨fun _ _ hs h => hs.executes h, fun _ hs => hs⟩

theorem Orderly.started_nodup (h : Orderly g k s) : s.started.Nodup := by
  have := h.nodup
  rw [Multiset.nodup_add] at this
  exact Multiset.coe_nodup.mp this.1

theorem Orderly.preds_ended (h : Orderly g k s) {u v : TaskId} (hv : v ∈ s.started)
    (hu : u ∈ g.nodes.keys) (huv : v ∈ g.succ u) : u ∈ s.ended :=
  h.preds v (Multiset.mem_add.mpr (.inl (Multiset.mem_coe.mpr hv))) u hu huv

theorem Orderly.started_le (h : Orderly g k s) (hk : 0 < k) :
    s.started.length ≤ s.ended.length + k := by
  have hflow := congrArg Multiset.card h.flow
  have hcap := h.cap hk
  simp only [Multiset.card_add, Multiset.coe_card] at hflow hcap
  omega

structure Within (g : SimpleTaskGraph) (k : Nat) (calls : List TaskId) (s : Surroundings) :
    Prop where
  orderly : Orderly g k s
  called : (s.started : Multiset TaskId) + s.nodesIn .queued ≤ (calls : Multiset TaskId)

theorem Within.stable (calls : List TaskId) :
    Cmd.Stable (Executes throws) (Orderly g k) (Within g k calls) :=
  ⟨fun _ _ hs h => ⟨hs.orderly.executes h, h.called ▸ hs.called⟩, fun _ hs => hs.orderly⟩

/-- Between two levels: every closure has ended, and so have the nodes of
`done` and no other. -/
structure Settled (g : SimpleTaskGraph) (k : Nat) (done : List TaskId) (s : Surroundings) :
    Prop where
  orderly : Orderly g k s
  quiet : ∀ c ∈ s.closures, c.phase = .ended
  ended : (s.ended : Multiset TaskId) = (done : Multiset TaskId)

theorem not_executes (hquiet : ∀ c ∈ s.closures, c.phase = .ended) : ¬Executes throws s s' := by
  intro h
  cases h with
  | start i c hc queued =>
    rw [hquiet c (List.mem_of_getElem? hc)] at queued
    cases queued
  | finish i c hc running =>
    rw [hquiet c (List.mem_of_getElem? hc)] at running
    cases running

theorem Settled.stable (done : List TaskId) :
    Cmd.Stable (Executes throws) (Orderly g k) (Settled g k done) :=
  ⟨fun _ _ hs h => absurd h (not_executes hs.quiet), fun _ hs => hs.orderly⟩

theorem Settled.start (g : SimpleTaskGraph) (k : Nat) : Settled g k [] {} := by
  refine ⟨⟨?_, ?_, ?_, ?_⟩, ?_, ?_⟩ <;> simp [Surroundings.nodesIn, nodesOf, slotSum]

theorem Settled.nodesIn_eq_zero {done : List TaskId} (hs : Settled g k done s) {phase : Phase}
    (hne : phase ≠ .ended) : s.nodesIn phase = 0 :=
  nodesOf_eq_zero fun c hc heq => hne (heq ▸ hs.quiet c hc)

theorem Settled.perm {done : List TaskId} (h : Settled g k done s) :
    s.started.Perm done ∧ s.ended.Perm done := by
  have hended := Multiset.coe_eq_coe.mp h.ended
  refine ⟨?_, hended⟩
  have hflow := h.orderly.flow
  rw [h.nodesIn_eq_zero (by decide), add_zero] at hflow
  exact (Multiset.coe_eq_coe.mp hflow).trans hended

structure Unblocked (g : SimpleTaskGraph) (done level : List TaskId) : Prop where
  nodup : (done ++ level).Nodup
  mem : ∀ v ∈ level, v ∈ g.nodes.keys
  preds : ∀ v ∈ level, ∀ u ∈ g.nodes.keys, v ∈ g.succ u → u ∈ done

theorem Unblocked.tail {done level : List TaskId} {v : TaskId}
    (h : Unblocked g done (v :: level)) : Unblocked g (done ++ [v]) level := by
  refine ⟨by simpa using h.nodup, fun w hw => h.mem w (by simp [hw]), fun w hw u hu hwu => ?_⟩
  exact List.mem_append_left _ (h.preds w (by simp [hw]) u hu hwu)

theorem Settled.invoke {done level : List TaskId} {v : TaskId} (hs : Settled g k done s)
    (hv : Unblocked g done (v :: level)) :
    Settled g k (done ++ [v])
      { s with started := s.started ++ [v], ended := s.ended ++ [v] } := by
  have hqueued : s.nodesIn .queued = 0 := hs.nodesIn_eq_zero (by decide)
  have hrunning : s.nodesIn .running = 0 := hs.nodesIn_eq_zero (by decide)
  have hstarted : (s.started : Multiset TaskId) = (done : Multiset TaskId) := by
    rw [hs.orderly.flow, hrunning, add_zero, hs.ended]
  have hended' : ((s.ended ++ [v] : List TaskId) : Multiset TaskId) =
      ((done ++ [v] : List TaskId) : Multiset TaskId) := by
    rw [coe_snoc_add, hs.ended, coe_snoc_add]
  have hstarted' : ((s.started ++ [v] : List TaskId) : Multiset TaskId) =
      ((done ++ [v] : List TaskId) : Multiset TaskId) := by
    rw [coe_snoc_add, hstarted, coe_snoc_add]
  refine ⟨⟨?_, ?_, ?_, ?_⟩, hs.quiet, hended'⟩
  · change Multiset.Nodup (_ + s.nodesIn .queued)
    rw [hstarted', hqueued, add_zero, Multiset.coe_nodup]
    have := hv.nodup
    rw [show done ++ v :: level = done ++ [v] ++ level by simp] at this
    exact this.of_append_left
  · intro w hw u hu hwu
    change w ∈ _ + s.nodesIn .queued at hw
    rw [hstarted', hqueued, add_zero, Multiset.mem_coe] at hw
    rcases List.mem_append.mp hw with hw | hw
    · have hold : w ∈ (s.started : Multiset TaskId) + s.nodesIn .queued := by
        rw [hstarted]
        exact Multiset.mem_add.mpr (.inl hw)
      exact List.mem_append_left _ (hs.orderly.preds w hold u hu hwu)
    · cases List.mem_singleton.mp hw
      have hdone := hv.preds v (by simp) u hu hwu
      rw [← Multiset.mem_coe, ← hs.ended, Multiset.mem_coe] at hdone
      exact List.mem_append_left _ hdone
  · change _ = _ + s.nodesIn .running
    rw [hstarted', hended', hrunning, add_zero]
  · intro hk
    change Multiset.card (s.nodesIn .queued + s.nodesIn .running) ≤ k
    rw [hqueued, hrunning]
    simp

/-- In the middle of a level: the closures of `launched` are with the executor,
those of earlier levels have ended. -/
structure Launched (g : SimpleTaskGraph) (k : Nat) (throws : TaskId → Bool)
    (done launched ids : List TaskId) (old fresh : List GraphClosure) (s : Surroundings) :
    Prop where
  orderly : Orderly g k s
  closures : s.closures = old ++ fresh
  old_ended : ∀ c ∈ old, c.phase = .ended
  ids_eq : fresh.map GraphClosure.id = ids
  nodes_eq : fresh.map GraphClosure.node = launched
  slots_eq : fresh.map GraphClosure.slot = List.range fresh.length
  flags : ∀ c ∈ fresh, s.flags c.slot = (decide (c.phase = .ended) && throws c.node)
  pending : (s.started : Multiset TaskId) + s.nodesIn .queued =
    (done : Multiset TaskId) + (launched : Multiset TaskId)
  done_ended : ∀ v ∈ done, v ∈ s.ended

theorem Settled.launched {done : List TaskId} (hs : Settled g k done s) :
    Launched g k throws done [] [] s.closures [] s where
  orderly := hs.orderly
  closures := (List.append_nil _).symm
  old_ended := hs.quiet
  ids_eq := rfl
  nodes_eq := rfl
  slots_eq := rfl
  flags := by simp
  pending := by
    rw [hs.orderly.flow, hs.nodesIn_eq_zero (by decide), hs.nodesIn_eq_zero (by decide), hs.ended]
    simp
  done_ended := fun v hv => by rwa [← Multiset.mem_coe, hs.ended]

theorem map_set_phase {fresh : List GraphClosure} {i : Nat} {c : GraphClosure}
    (h : fresh[i]? = some c) (phase : Phase) {β : Type} (f : GraphClosure → β)
    (hf : ∀ phase, f { c with phase := phase } = f c) :
    (fresh.set i { c with phase := phase }).map f = fresh.map f := by
  have hlt : i < fresh.length := (List.getElem?_eq_some_iff.mp h).1
  apply List.ext_getElem?
  intro j
  rw [List.getElem?_map, List.getElem?_map, List.getElem?_set]
  split_ifs with hij
  · subst hij
    rw [h]
    simp [hf]
  · rfl

namespace Launched

variable {done launched ids : List TaskId} {old fresh : List GraphClosure}

theorem slot_at (h : Launched g k throws done launched ids old fresh s) {i : Nat}
    {c : GraphClosure} (hc : fresh[i]? = some c) : c.slot = i := by
  have hslot := congrArg (·[i]?) h.slots_eq
  have hi : i < fresh.length := (List.getElem?_eq_some_iff.mp hc).1
  simpa [hc, List.getElem?_range hi] using hslot

theorem index_fresh (h : Launched g k throws done launched ids old fresh s) {i : Nat}
    {c : GraphClosure} (hc : s.closures[i]? = some c) (hne : c.phase ≠ .ended) :
    old.length ≤ i ∧ fresh[i - old.length]? = some c := by
  rw [h.closures] at hc
  by_cases hi : i < old.length
  · rw [List.getElem?_append_left hi] at hc
    exact absurd (h.old_ended c (List.mem_of_getElem? hc)) hne
  · rw [List.getElem?_append_right (by omega)] at hc
    exact ⟨by omega, hc⟩

theorem executes (h : Launched g k throws done launched ids old fresh s)
    (hstep : Executes throws s s') :
    ∃ fresh', Launched g k throws done launched ids old fresh' s' := by
  have horderly := h.orderly.executes hstep
  have hpending := hstep.called
  have hended : ∀ v ∈ done, v ∈ s'.ended := by
    intro v hv
    have := h.done_ended v hv
    rcases hstep.nodesIn with ⟨w, -, -, -, hended⟩ | ⟨w, -, -, -, hended⟩
    · rwa [hended]
    · rw [hended]
      exact List.mem_append_left _ this
  cases hstep with
  | start i c hc queued =>
    obtain ⟨hi, hfresh⟩ := h.index_fresh hc (by simp [queued])
    refine ⟨fresh.set (i - old.length) { c with phase := .running }, horderly, ?_, h.old_ended,
      ?_, ?_, ?_, ?_, hpending.trans h.pending, hended⟩
    · simp only [h.closures, List.set_append_right i _ hi]
    · exact (map_set_phase hfresh _ _ fun _ => rfl).trans h.ids_eq
    · exact (map_set_phase hfresh _ _ fun _ => rfl).trans h.nodes_eq
    · rw [List.length_set]
      exact (map_set_phase hfresh _ _ fun _ => rfl).trans h.slots_eq
    · intro c' hc'
      rcases List.mem_or_eq_of_mem_set hc' with hmem | rfl
      · exact h.flags c' hmem
      · have := h.flags c (List.mem_of_getElem? hfresh)
        simpa [queued] using this
  | finish i c hc running =>
    obtain ⟨hi, hfresh⟩ := h.index_fresh hc (by simp [running])
    have hlt : i - old.length < fresh.length := (List.getElem?_eq_some_iff.mp hfresh).1
    refine ⟨fresh.set (i - old.length) { c with phase := .ended }, horderly, ?_, h.old_ended,
      ?_, ?_, ?_, ?_, hpending.trans h.pending, hended⟩
    · simp only [h.closures, List.set_append_right i _ hi]
    · exact (map_set_phase hfresh _ _ fun _ => rfl).trans h.ids_eq
    · exact (map_set_phase hfresh _ _ fun _ => rfl).trans h.nodes_eq
    · rw [List.length_set]
      exact (map_set_phase hfresh _ _ fun _ => rfl).trans h.slots_eq
    · -- only the slot of the closure that ended changes
      intro c' hc'
      obtain ⟨j, hj⟩ := List.mem_iff_getElem?.mp hc'
      rw [List.getElem?_set] at hj
      split_ifs at hj with hij
      · cases hj
        have := h.flags c (List.mem_of_getElem? hfresh)
        cases hthrow : throws c.node
        · simpa [running, hthrow] using this
        · simp
      · have hslot : c'.slot ≠ c.slot := by
          rw [h.slot_at hj, h.slot_at hfresh]
          exact fun heq => hij heq.symm
        rw [← h.flags c' (List.mem_of_getElem? hj)]
        split_ifs
        · exact Function.update_of_ne hslot _ _
        · rfl

theorem stable (done launched ids : List TaskId) : Cmd.Stable (Executes throws) (Orderly g k)
    fun s => ∃ old fresh, Launched g k throws done launched ids old fresh s where
  keep := fun _ _ ⟨old, _, h⟩ hstep =>
    have ⟨fresh', h'⟩ := h.executes hstep
    ⟨old, fresh', h'⟩
  sound := fun _ ⟨_, _, h⟩ => h.orderly

theorem within (h : Launched g k throws done launched ids old fresh s) (level : List TaskId)
    (flags : Nat → Bool) : Within g k (done ++ (launched ++ level)) { s with flags } where
  orderly := ⟨h.orderly.nodup, h.orderly.preds, h.orderly.flow, h.orderly.cap⟩
  called := by
    have hpending : (s.started : Multiset TaskId) + s.nodesIn .queued = _ := h.pending
    rw [← List.append_assoc, ← Multiset.coe_add, ← Multiset.coe_add, ← hpending]
    exact Multiset.le_add_right _ _

theorem length_fresh (h : Launched g k throws done launched ids old fresh s) :
    fresh.length = launched.length := by
  rw [← h.nodes_eq, List.length_map]

theorem card_le (h : Launched g k throws done launched ids old fresh s) (hdone : done.Nodup) :
    (s.nodesIn .queued + s.nodesIn .running).card ≤ launched.length := by
  have hlength : done.length ≤ s.ended.length :=
    (hdone.subperm h.done_ended).length_le
  have hpending := congrArg Multiset.card h.pending
  have hflow := congrArg Multiset.card h.orderly.flow
  simp only [Multiset.card_add, Multiset.coe_card] at hpending hflow ⊢
  omega

theorem submit (h : Launched g k throws done launched ids old fresh s) {v id : TaskId}
    {level : List TaskId} (hv : Unblocked g done (launched ++ v :: level))
    (hk : 0 < k → launched.length < k) :
    Launched g k throws done (launched ++ [v]) (ids ++ [id]) old
      (fresh ++ [⟨id, v, launched.length, .queued⟩])
      { s with
        closures := s.closures ++ [⟨id, v, launched.length, .queued⟩]
        flags := Function.update s.flags launched.length false } := by
  have hnodup : (done ++ (launched ++ [v])).Nodup := by
    have := hv.nodup
    rw [show done ++ (launched ++ v :: level) = done ++ (launched ++ [v]) ++ level by simp] at this
    exact this.of_append_left
  have hqueued := nodesOf_snoc s.closures ⟨id, v, launched.length, .queued⟩ .queued
  have hrunning := nodesOf_snoc s.closures ⟨id, v, launched.length, .queued⟩ .running
  simp only [GraphClosure.inPhase, if_true, reduceCtorEq, if_false, add_zero] at hqueued hrunning
  have hpending : (s.started : Multiset TaskId) +
      nodesOf (s.closures ++ [⟨id, v, launched.length, .queued⟩]) .queued =
      (done : Multiset TaskId) + ((launched ++ [v] : List TaskId) : Multiset TaskId) := by
    rw [hqueued, coe_snoc_add, ← add_assoc, ← add_assoc, ← h.pending]
    rfl
  refine ⟨⟨?_, ?_, ?_, fun hpos => ?_⟩, ?_, h.old_ended, ?_, ?_, ?_, ?_, hpending, h.done_ended⟩
  · change Multiset.Nodup (_ + nodesOf _ _)
    rwa [hpending, Multiset.coe_add, Multiset.coe_nodup]
  · intro w hw u hu hwu
    change w ∈ _ + nodesOf _ _ at hw
    rw [hqueued, ← add_assoc, Multiset.mem_add, Multiset.mem_singleton] at hw
    rcases hw with hw | rfl
    · exact h.orderly.preds w hw u hu hwu
    · exact h.done_ended u (hv.preds w (by simp) u hu hwu)
  · exact h.orderly.flow.trans (congrArg _ hrunning.symm)
  · have := h.card_le (hnodup.of_append_left)
    change Multiset.card (nodesOf _ _ + nodesOf _ _) ≤ k
    rw [hqueued, hrunning]
    have := hk hpos
    simp only [Surroundings.nodesIn, Multiset.card_add, Multiset.card_singleton] at *
    omega
  · simp only [h.closures, List.append_assoc]
  · simp [h.ids_eq]
  · simp [h.nodes_eq]
  · simp [h.slots_eq, h.length_fresh, List.range_succ]
  · intro c hc
    rcases List.mem_append.mp hc with hc | hc
    · obtain ⟨i, hi⟩ := List.mem_iff_getElem?.mp hc
      have hlt : i < fresh.length := (List.getElem?_eq_some_iff.mp hi).1
      have hslot : c.slot ≠ launched.length := by
        rw [h.slot_at hi, ← h.length_fresh]
        omega
      rw [← h.flags c hc]
      exact Function.update_of_ne hslot _ _
    · cases List.mem_singleton.mp hc
      simp

theorem settled (h : Launched g k throws done launched ids old fresh s)
    (hall : ∀ c ∈ s.closures, c.id ∈ ids → c.phase = .ended) :
    Settled g k (done ++ launched) s ∧
      ∀ j v, launched[j]? = some v → s.flags j = throws v := by
  have hfresh : ∀ c ∈ fresh, c.phase = .ended := by
    intro c hc
    apply hall c (by simp [h.closures, hc])
    rw [← h.ids_eq]
    exact List.mem_map_of_mem hc
  have hquiet : ∀ c ∈ s.closures, c.phase = .ended := by
    intro c hc
    rw [h.closures] at hc
    rcases List.mem_append.mp hc with hc | hc
    · exact h.old_ended c hc
    · exact hfresh c hc
  have hzero : ∀ phase, phase ≠ .ended → s.nodesIn phase = 0 := fun phase hne =>
    nodesOf_eq_zero fun c hc heq => hne (heq ▸ hquiet c hc)
  refine ⟨⟨h.orderly, hquiet, ?_⟩, fun j v hj => ?_⟩
  · have hflow := h.orderly.flow
    have hpending := h.pending
    rw [hzero .running (by decide), add_zero] at hflow
    rw [hzero .queued (by decide), add_zero, hflow] at hpending
    rw [hpending, Multiset.coe_add]
  · rw [← h.nodes_eq, List.getElem?_map, Option.map_eq_some_iff] at hj
    obtain ⟨c, hc, rfl⟩ := hj
    have hmem := List.mem_of_getElem? hc
    have := h.flags c hmem
    rw [h.slot_at hc, hfresh c hmem] at this
    simpa using this

end Launched

end Executor

end Corekit.Task
