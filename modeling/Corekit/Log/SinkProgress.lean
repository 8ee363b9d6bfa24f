import Corekit.Log.FormattedSink
import Corekit.Foundation.Wakeup

/-! The sink does not hang. Both of its condition variables hand something over:
`queue_cv_` lines from the senders to the worker, `queue_space_cv_` free places from
the worker to the senders that may not drop. A shutdown can start at any moment. -/
namespace Corekit.Log
open Corekit.Foundation

def SenderPc.isWaiting : SenderPc → Bool
  | .waiting _ => true
  | _ => false

def SenderPc.wantsPlace : SenderPc → Bool
  | .locking _ => true
  | .waiting _ => true
  | _ => false

def WorkerPc.isNotifying : WorkerPc → Bool
  | .notifying _ => true
  | _ => false

def WorkerPc.wantsLine : WorkerPc → Bool
  | .locking => true
  | .waiting => true
  | _ => false

namespace SinkWorld

variable {setup : SinkSetup} {w w' : SinkWorld}

/-- Every step, with its guard and the state it leaves. -/
inductive Move (setup : SinkSetup) (w : SinkWorld) : SinkLabel → SinkWorld → Prop where
  | ignore (i : Nat) (args : SendArgs) : Move setup w (.call i args) w
  | call (i : Nat) (args : SendArgs) (idle : w.senders[i]? = some .idle) :
      Move setup w (.call i args) { w with
        senders := w.senders.set i (.locking (args.formattedLine setup.mode))
        sent := w.sent ++ [args.formattedLine setup.mode] }
  | write (i : Nat) (line : Bytes) (inside : w.senders[i]? = some (.locking line))
      (sync : setup.asyncMode = false) :
      Move setup w (.sender i) { w with
        file := w.file ++ line ++ [newline]
        senders := w.senders.set i .idle }
  | drop (i : Nat) (line : Bytes) (inside : w.senders[i]? = some (.locking line))
      (async : setup.asyncMode = true) (full : setup.queueLimit ≤ w.queue.length) :
      Move setup w (.sender i) { w with
        droppedCount := (w.droppedCount + 1) % 2 ^ 64
        senders := w.senders.set i .idle
        dropped := w.dropped ++ [line] }
  | giveUp (i : Nat) (line : Bytes) (inside : w.senders[i]? = some (.locking line))
      (async : setup.asyncMode = true) (stopping : w.stopping = true) :
      Move setup w (.sender i) { w with senders := w.senders.set i .idle }
  | push (i : Nat) (line : Bytes) (inside : w.senders[i]? = some (.locking line))
      (async : setup.asyncMode = true) (room : w.queue.length < setup.queueLimit) :
      Move setup w (.sender i) (w.push i line)
  | park (i : Nat) (line : Bytes) (inside : w.senders[i]? = some (.locking line))
      (async : setup.asyncMode = true) (running : w.stopping = false)
      (full : setup.queueLimit ≤ w.queue.length) :
      Move setup w (.sender i) { w with senders := w.senders.set i (.waiting line) }
  | notify (i : Nat) (owes : w.senders[i]? = some .notifying) :
      Move setup w (.sender i) { w with
        senders := w.senders.set i .idle
        worker := w.worker.wake }
  | take (woken : Nat) (timestamp line : Bytes) (rest : List Bytes) (looks : w.worker = .locking)
      (queue : w.queue = line :: rest) :
      Move setup w (.worker woken timestamp) { w with queue := rest, worker := .notifying line }
  | retire (woken : Nat) (timestamp : Bytes) (looks : w.worker = .locking) (empty : w.queue = [])
      (stopping : w.stopping = true) :
      Move setup w (.worker woken timestamp) { w with worker := .leaving }
  | sleep (woken : Nat) (timestamp : Bytes) (looks : w.worker = .locking) (empty : w.queue = [])
      (running : w.stopping = false) :
      Move setup w (.worker woken timestamp) { w with worker := .waiting }
  | notifySender (woken : Nat) (timestamp line other : Bytes) (owes : w.worker = .notifying line)
      (sleeps : w.senders[woken]? = some (.waiting other)) :
      Move setup w (.worker woken timestamp) { w with
        senders := w.senders.set woken (.locking other)
        worker := .writing line }
  | notifyNobody (woken : Nat) (timestamp line : Bytes) (owes : w.worker = .notifying line)
      (nobody : ∀ pc ∈ w.senders, pc.isWaiting = false) :
      Move setup w (.worker woken timestamp) { w with worker := .writing line }
  | written (woken : Nat) (timestamp line : Bytes) (writes : w.worker = .writing line) :
      Move setup w (.worker woken timestamp) { w with
        file := w.file ++ line ++ [newline]
        worker := .locking }
  | exit (woken : Nat) (timestamp text : Bytes) (leaves : w.worker = .leaving) :
      Move setup w (.worker woken timestamp) { w with file := text, worker := .exited }
  | close (alive : w.destructor = .alive) (sync : setup.asyncMode = false) :
      Move setup w .destructor { w with destructor := .returned }
  | stop (alive : w.destructor = .alive) (async : setup.asyncMode = true) :
      Move setup w .destructor { w with stopping := true, destructor := .notifyingQueue }
  | notifyWorker (pc : w.destructor = .notifyingQueue) :
      Move setup w .destructor { w with worker := w.worker.wake, destructor := .notifyingSpace }
  | notifySenders (pc : w.destructor = .notifyingSpace) :
      Move setup w .destructor { w with
        senders := w.senders.map SenderPc.wake
        destructor := .joining }
  | join (pc : w.destructor = .joining) (exited : w.worker = .exited) :
      Move setup w .destructor { w with destructor := .returned }
  | wakeSender (i : Nat) (line : Bytes) (sleeps : w.senders[i]? = some (.waiting line)) :
      Move setup w (.wakeSender i) { w with senders := w.senders.set i (.locking line) }
  | wakeWorker (sleeps : w.worker = .waiting) :
      Move setup w .wakeWorker { w with worker := .locking }

theorem lockedSend_move {i : Nat} {line : Bytes} (hi : w.senders[i]? = some (.locking line)) :
    Move setup w (.sender i) (w.lockedSend setup i line) := by
  unfold lockedSend
  split_ifs with hsync hdrop hfull hgo hstop
  · exact .write i line hi (by simpa using hsync)
  · exact .drop i line hi (by simpa using hsync) hfull
  · exact .push i line hi (by simpa using hsync) (by omega)
  · exact .giveUp i line hi (by simpa using hsync) hstop
  · exact .push i line hi (by simpa using hsync) (hgo.resolve_left hstop)
  · obtain ⟨hrunning, hfull⟩ := not_or.mp hgo
    exact .park i line hi (by simpa using hsync) (by simpa using hrunning) (by omega)

theorem sender_move {i : Nat} (h : w.senderStep setup i = some w') :
    Move setup w (.sender i) w' := by
  unfold senderStep at h
  split at h
  · next line hi =>
    cases Option.some.inj h
    exact lockedSend_move hi
  · next hi =>
    cases Option.some.inj h
    exact .notify i hi
  · cases h

theorem worker_move {woken : Nat} {timestamp : Bytes} (h : w.workerStep woken timestamp = some w') :
    Move setup w (.worker woken timestamp) w' := by
  unfold workerStep at h
  cases hworker : w.worker with
  | locking =>
    simp only [hworker] at h
    split at h
    · next hgo =>
      split at h
      · next hqueue =>
        have hstop : w.stopping = true := hgo.resolve_right (not_not.mpr hqueue)
        rw [if_pos hstop] at h
        cases Option.some.inj h
        exact .retire woken timestamp hworker hqueue hstop
      · next line rest hqueue =>
        cases Option.some.inj h
        exact .take woken timestamp line rest hworker hqueue
    · next hno =>
      obtain ⟨hrunning, hempty⟩ := not_or.mp hno
      cases Option.some.inj h
      exact .sleep woken timestamp hworker (not_not.mp hempty) (by simpa using hrunning)
  | waiting => simp [hworker] at h
  | notifying line =>
    simp only [hworker, notifySpace] at h
    split at h
    · next other hwoken =>
      cases Option.some.inj h
      exact .notifySender woken timestamp line other hworker hwoken
    · split at h
      · next hnobody =>
        cases Option.some.inj h
        refine .notifyNobody woken timestamp line hworker fun pc hpc => ?_
        have hsame := List.all_eq_true.mp hnobody pc hpc
        cases pc with
        | waiting other => simp [SenderPc.wake] at hsame
        | _ => rfl
      · cases h
  | writing line =>
    simp only [hworker, Option.some.injEq] at h
    subst h
    exact .written woken timestamp line hworker
  | leaving =>
    simp only [hworker, Option.some.injEq] at h
    subst h
    exact .exit woken timestamp _ hworker
  | exited => simp [hworker] at h

theorem destructor_move (h : w.destructorStep setup = some w') :
    Move setup w .destructor w' := by
  unfold destructorStep at h
  cases hpc : w.destructor with
  | alive =>
    simp only [hpc] at h
    split at h
    · next hsync =>
      cases Option.some.inj h
      exact .close hpc (by simpa using hsync)
    · next hasync =>
      cases Option.some.inj h
      exact .stop hpc (by simpa using hasync)
  | notifyingQueue =>
    simp only [hpc, Option.some.injEq] at h
    subst h
    exact .notifyWorker hpc
  | notifyingSpace =>
    simp only [hpc, Option.some.injEq] at h
    subst h
    exact .notifySenders hpc
  | joining =>
    simp only [hpc] at h
    split at h
    · next hexited =>
      cases Option.some.inj h
      exact .join hpc hexited
    · cases h
  | returned => simp [hpc] at h

theorem step_move {label : SinkLabel} (h : w.step setup label = some w') :
    Move setup w label w' := by
  cases label with
  | call i args =>
    simp only [step] at h
    split at h
    · next hi =>
      split at h
      · cases Option.some.inj h
        exact .ignore i args
      · cases Option.some.inj h
        exact .call i args hi
    · cases h
  | sender i => exact sender_move h
  | worker woken timestamp => exact worker_move h
  | destructor => exact destructor_move h
  | wakeSender i =>
    simp only [step] at h
    split at h
    · next line hi =>
      cases Option.some.inj h
      exact .wakeSender i line hi
    · cases h
  | wakeWorker =>
    obtain ⟨hw, hs⟩ := Option.ite_none_right_eq_some.mp h
    cases Option.some.inj hs
    exact .wakeWorker hw

/-- `queue_cv_`: the senders bring lines, the worker takes them. -/
def queueSignals (w : SinkWorld) : Signals Unit where
  items := w.queue.length
  owed := (slotsWhere (· = .notifying) w.senders).card
  idle := if w.worker.wantsLine then {()} else ∅
  asleep := if w.worker = .waiting then {()} else ∅

def spaceSignals (setup : SinkSetup) (w : SinkWorld) : Signals Nat where
  items := setup.queueLimit - w.queue.length
  owed := w.worker.isNotifying.toNat
  idle := slotsWhere SenderPc.wantsPlace w.senders
  asleep := slotsWhere SenderPc.isWaiting w.senders

theorem queueSignals_awake (h : w.worker ≠ .waiting) : w.queueSignals.asleep = ∅ := if_neg h

theorem queueSignals_looks (h : w.worker = .locking) : () ∈ w.queueSignals.awake := by
  simp [Signals.awake, queueSignals, h, WorkerPc.wantsLine]

theorem Move.queue_step {label : SinkLabel} (h : Move setup w label w') :
    Signals.Step w.queueSignals w'.queueSignals := by
  have hquiet : ∀ {w' : SinkWorld}, w'.queue.length = w.queue.length →
      (slotsWhere (· = .notifying) w'.senders).card =
        (slotsWhere (· = .notifying) w.senders).card →
      w'.worker.wantsLine = w.worker.wantsLine →
      (w'.worker = .waiting ↔ w.worker = .waiting) →
      Signals.Step w.queueSignals w'.queueSignals := by
    intro w' hqueue hsenders hwants hwaits
    have hsame : w'.queueSignals = w.queueSignals := by
      simp only [queueSignals, hqueue, hsenders, hwants, hwaits]
    rw [hsame]
    exact .quiet
  have hset : ∀ {i : Nat} {old new : SenderPc}, w.senders[i]? = some old → old ≠ .notifying →
      new ≠ .notifying → (slotsWhere (· = .notifying) (w.senders.set i new)).card =
        (slotsWhere (· = .notifying) w.senders).card := by
    intro i old new hold hne hnew
    rw [slotsWhere_set_same hold (by simp [hne, hnew])]
  cases h with
  | ignore i args => exact .quiet
  | call i args idle => exact hquiet rfl (hset idle nofun nofun) rfl Iff.rfl
  | write i line inside sync => exact hquiet rfl (hset inside nofun nofun) rfl Iff.rfl
  | drop i line inside async full => exact hquiet rfl (hset inside nofun nofun) rfl Iff.rfl
  | giveUp i line inside async stopping =>
    exact hquiet rfl (hset inside nofun nofun) rfl Iff.rfl
  | push i line inside async room =>
    have hnot : i ∉ slotsWhere (· = SenderPc.notifying) w.senders := by simp [inside]
    have hcard : (slotsWhere (· = .notifying) (w.senders.set i .notifying)).card =
        (slotsWhere (· = .notifying) w.senders).card + 1 := by
      rw [slotsWhere_set_true inside rfl, Finset.card_insert_of_notMem hnot]
    have hnext : (w.push i line).queueSignals = { w.queueSignals with
        items := w.queueSignals.items + 1, owed := w.queueSignals.owed + 1 } :=
      Signals.ext List.length_append hcard rfl rfl
    rw [hnext]
    exact .produce
  | park i line inside async running full =>
    exact hquiet rfl (hset inside nofun nofun) rfl Iff.rfl
  | notify i owes =>
    have hmem : i ∈ slotsWhere (· = SenderPc.notifying) w.senders := by simp [owes]
    have hsenders : slotsWhere (· = .notifying) (w.senders.set i .idle) =
        (slotsWhere (· = .notifying) w.senders).erase i := slotsWhere_set_false _ _ rfl
    have hdue : w.queueSignals.owed =
        (slotsWhere (· = .notifying) (w.senders.set i .idle)).card + 1 := by
      rw [hsenders, Finset.card_erase_add_one hmem]
      rfl
    by_cases hworker : w.worker = .waiting
    · convert Signals.Step.notifyOne (s := w.queueSignals) () hdue (by simp [queueSignals, hworker])
        using 1
      refine Signals.ext rfl rfl ?_ ?_ <;>
        simp [queueSignals, hworker, WorkerPc.wake, WorkerPc.wantsLine]
    · convert Signals.Step.notifyNobody (s := w.queueSignals) hdue (queueSignals_awake hworker)
        using 1
      have hwake : w.worker.wake = w.worker := by
        cases hpc : w.worker <;> first | rfl | exact absurd hpc hworker
      refine Signals.ext rfl rfl ?_ ?_ <;> simp [queueSignals, hwake]
  | take woken timestamp line rest looks queue =>
    have hitems : w.queueSignals.items = rest.length + 1 := by simp [queueSignals, queue]
    convert Signals.Step.take (s := w.queueSignals) () hitems (queueSignals_looks looks) using 1
    refine Signals.ext rfl rfl ?_ ?_ <;> simp [queueSignals, looks, WorkerPc.wantsLine]
  | retire woken timestamp looks empty stopping =>
    convert Signals.Step.retire (s := w.queueSignals) () (by simp [queueSignals, empty])
      (queueSignals_looks looks) using 1
    refine Signals.ext rfl rfl ?_ ?_ <;> simp [queueSignals, looks, WorkerPc.wantsLine]
  | sleep woken timestamp looks empty running =>
    convert Signals.Step.sleep (s := w.queueSignals) () (by simp [queueSignals, empty])
      (queueSignals_looks looks) using 1
    refine Signals.ext rfl rfl ?_ ?_ <;> simp [queueSignals, looks, WorkerPc.wantsLine]
  | notifySender woken timestamp line other owes sleeps =>
    exact hquiet rfl (hset sleeps nofun nofun) (by simp [owes, WorkerPc.wantsLine]) (by simp [owes])
  | notifyNobody woken timestamp line owes nobody =>
    exact hquiet rfl rfl (by simp [owes, WorkerPc.wantsLine]) (by simp [owes])
  | written woken timestamp line writes =>
    have hbusy : () ∉ w.queueSignals.idle := by simp [queueSignals, writes, WorkerPc.wantsLine]
    convert Signals.Step.comeBack (s := w.queueSignals) () hbusy using 1
    refine Signals.ext rfl rfl ?_ ?_ <;> simp [queueSignals, writes, WorkerPc.wantsLine]
  | exit woken timestamp text leaves =>
    exact hquiet rfl rfl (by simp [leaves, WorkerPc.wantsLine]) (by simp [leaves])
  | close alive sync => exact hquiet rfl rfl rfl Iff.rfl
  | stop alive async => exact hquiet rfl rfl rfl Iff.rfl
  | notifyWorker pc =>
    convert Signals.Step.notifyAll (s := w.queueSignals) using 1
    refine Signals.ext rfl rfl ?_ ?_ <;>
      cases hpc : w.worker <;> simp [queueSignals, hpc, WorkerPc.wake, WorkerPc.wantsLine]
  | notifySenders pc =>
    refine hquiet rfl (congrArg Finset.card (slotsWhere_map _ fun pc => ?_)) rfl Iff.rfl
    cases pc <;> rfl
  | join pc exited => exact hquiet rfl rfl rfl Iff.rfl
  | wakeSender i line sleeps => exact hquiet rfl (hset sleeps nofun nofun) rfl Iff.rfl
  | wakeWorker sleeps =>
    convert Signals.Step.wake (s := w.queueSignals) () (by simp [queueSignals, sleeps]) using 1
    refine Signals.ext rfl rfl ?_ ?_ <;> simp [queueSignals, sleeps, WorkerPc.wantsLine]

theorem spaceSignals_looks {i : Nat} {line : Bytes} (h : w.senders[i]? = some (.locking line)) :
    i ∈ (w.spaceSignals setup).awake := by
  simp [Signals.awake, spaceSignals, h, SenderPc.wantsPlace, SenderPc.isWaiting]

theorem Move.space_step {label : SinkLabel} (h : Move setup w label w')
    (hasync : setup.asyncMode = true) (hbound : w.queue.length ≤ setup.queueLimit)
    (hrunning : w'.stopping = false) :
    Signals.Step (w.spaceSignals setup) (w'.spaceSignals setup) := by
  have hquiet : ∀ {w' : SinkWorld}, w'.queue.length = w.queue.length →
      w'.worker.isNotifying = w.worker.isNotifying →
      slotsWhere SenderPc.wantsPlace w'.senders = slotsWhere SenderPc.wantsPlace w.senders →
      slotsWhere SenderPc.isWaiting w'.senders = slotsWhere SenderPc.isWaiting w.senders →
      Signals.Step (w.spaceSignals setup) (w'.spaceSignals setup) := by
    intro w' hqueue hworker hwants hwaits
    have hsame : w'.spaceSignals setup = w.spaceSignals setup := by
      simp only [spaceSignals, hqueue, hworker, hwants, hwaits]
    rw [hsame]
    exact .quiet
  have hwake : w.worker.wake.isNotifying = w.worker.isNotifying := by cases w.worker <;> rfl
  cases h with
  | ignore i args => exact .quiet
  | call i args idle =>
    have hbusy : i ∉ (w.spaceSignals setup).idle := by simp [spaceSignals, idle, SenderPc.wantsPlace]
    convert Signals.Step.comeBack i hbusy using 1
    exact Signals.ext rfl rfl (slotsWhere_set_true idle rfl) (slotsWhere_set_same idle rfl)
  | write i line inside sync => simp [hasync] at sync
  | drop i line inside async full =>
    have hnone : (w.spaceSignals setup).items = 0 := Nat.sub_eq_zero_of_le full
    convert Signals.Step.retire i hnone (spaceSignals_looks inside) using 1
    exact Signals.ext rfl rfl (slotsWhere_set_false _ _ rfl) (slotsWhere_set_same inside rfl)
  | giveUp i line inside async stopping => simp [stopping] at hrunning
  | push i line inside async room =>
    have hitems : (w.spaceSignals setup).items = setup.queueLimit - (w.queue.length + 1) + 1 := by
      simp only [spaceSignals]
      omega
    convert Signals.Step.take i hitems (spaceSignals_looks inside) using 1
    refine Signals.ext ?_ rfl (slotsWhere_set_false _ _ rfl) (slotsWhere_set_same inside rfl)
    simp [spaceSignals, SinkWorld.push]
  | park i line inside async running full =>
    have hnone : (w.spaceSignals setup).items = 0 := Nat.sub_eq_zero_of_le full
    convert Signals.Step.sleep i hnone (spaceSignals_looks inside) using 1
    exact Signals.ext rfl rfl (slotsWhere_set_same inside rfl) (slotsWhere_set_true inside rfl)
  | notify i owes =>
    exact hquiet rfl hwake (slotsWhere_set_same owes rfl) (slotsWhere_set_same owes rfl)
  | take woken timestamp line rest looks queue =>
    convert Signals.Step.produce (s := w.spaceSignals setup) using 1
    refine Signals.ext ?_ ?_ rfl rfl
    · simp only [spaceSignals, queue, List.length_cons] at hbound ⊢
      omega
    · simp [spaceSignals, looks, WorkerPc.isNotifying]
  | retire woken timestamp looks empty stopping =>
    exact hquiet rfl (by simp [looks, WorkerPc.isNotifying]) rfl rfl
  | sleep woken timestamp looks empty running =>
    exact hquiet rfl (by simp [looks, WorkerPc.isNotifying]) rfl rfl
  | notifySender woken timestamp line other owes sleeps =>
    have hdue : (w.spaceSignals setup).owed = 0 + 1 := by
      simp [spaceSignals, owes, WorkerPc.isNotifying]
    have hsleeps : woken ∈ (w.spaceSignals setup).asleep := by
      simp [spaceSignals, sleeps, SenderPc.isWaiting]
    convert Signals.Step.notifyOne woken hdue hsleeps using 1
    exact Signals.ext rfl rfl (slotsWhere_set_same sleeps rfl) (slotsWhere_set_false _ _ rfl)
  | notifyNobody woken timestamp line owes nobody =>
    have hdue : (w.spaceSignals setup).owed = 0 + 1 := by
      simp [spaceSignals, owes, WorkerPc.isNotifying]
    have hnone : (w.spaceSignals setup).asleep = ∅ := by
      refine Finset.eq_empty_iff_forall_notMem.mpr fun i hi => ?_
      obtain ⟨pc, hpc, hwaits⟩ := mem_slotsWhere.mp hi
      rw [nobody pc (List.mem_of_getElem? hpc)] at hwaits
      cases hwaits
    convert Signals.Step.notifyNobody hdue hnone using 1
    rfl
  | written woken timestamp line writes =>
    exact hquiet rfl (by simp [writes, WorkerPc.isNotifying]) rfl rfl
  | exit woken timestamp text leaves =>
    exact hquiet rfl (by simp [leaves, WorkerPc.isNotifying]) rfl rfl
  | close alive sync => exact hquiet rfl rfl rfl rfl
  | stop alive async => cases hrunning
  | notifyWorker pc => exact hquiet rfl hwake rfl rfl
  | notifySenders pc =>
    convert Signals.Step.notifyAll (s := w.spaceSignals setup) using 1
    refine Signals.ext rfl rfl (slotsWhere_map _ fun pc => by cases pc <;> rfl) ?_
    refine Finset.eq_empty_iff_forall_notMem.mpr fun i hi => ?_
    obtain ⟨woken, hwoken, hwaits⟩ := mem_slotsWhere.mp hi
    obtain ⟨pc, -, rfl⟩ := List.mem_map.mp (List.mem_of_getElem? hwoken)
    cases pc <;> cases hwaits
  | join pc exited => exact hquiet rfl rfl rfl rfl
  | wakeSender i line sleeps =>
    have hsleeps : i ∈ (w.spaceSignals setup).asleep := by
      simp [spaceSignals, sleeps, SenderPc.isWaiting]
    convert Signals.Step.wake i hsleeps using 1
    exact Signals.ext rfl rfl (slotsWhere_set_same sleeps rfl) (slotsWhere_set_false _ _ rfl)
  | wakeWorker sleeps => exact hquiet rfl (by simp [sleeps, WorkerPc.isNotifying]) rfl rfl

structure Live (setup : SinkSetup) (w : SinkWorld) : Prop where
  bound : w.queue.length ≤ setup.queueLimit
  lines : w.queueSignals.Covered
  places : w.stopping = false → (w.spaceSignals setup).Covered
  /-- a shutdown wakes the worker and the senders before it joins -/
  workerUp : w.worker = .waiting → w.stopping = true → w.destructor = .notifyingQueue
  sendersUp : ∀ pc ∈ w.senders, pc.isWaiting = true → setup.asyncMode = true ∧
    (w.stopping = true → w.destructor = .notifyingQueue ∨ w.destructor = .notifyingSpace)
  left : w.worker = .leaving ∨ w.worker = .exited →
    w.stopping = true ∨ setup.asyncMode = false
  begun : w.stopping = true → w.destructor ≠ .alive
  ending : w.destructor ≠ .alive → w.destructor ≠ .returned → w.stopping = true
  working : setup.asyncMode = false → w.queue = [] ∧ w.worker = .exited

theorem mem_set {senders : List SenderPc} {i : Nat} {new pc : SenderPc}
    (h : pc ∈ senders.set i new) : pc = new ∨ pc ∈ senders :=
  (List.mem_or_eq_of_mem_set h).symm

theorem Live.init (threads : Nat) (file : Bytes) : Live setup (init setup threads file) where
  bound := Nat.zero_le _
  lines := by
    refine .of_all_awake (queueSignals_awake ?_)
    simp only [SinkWorld.init]
    split <;> nofun
  places _ := by
    refine .of_all_awake (Finset.eq_empty_iff_forall_notMem.mpr fun i hi => ?_)
    obtain ⟨pc, hpc, hwaits⟩ := mem_slotsWhere.mp hi
    rw [List.eq_of_mem_replicate (List.mem_of_getElem? hpc)] at hwaits
    cases hwaits
  workerUp _ hstop := by cases hstop
  sendersUp pc hpc hwaits := by
    rw [List.eq_of_mem_replicate hpc] at hwaits
    cases hwaits
  left hleft := by
    cases hasync : setup.asyncMode with
    | false => exact .inr rfl
    | true => simp [SinkWorld.init, hasync] at hleft
  begun hstop := by cases hstop
  ending halive := absurd rfl halive
  working hsync := ⟨rfl, by simp [SinkWorld.init, hsync]⟩

theorem wake_ne_waiting (pc : WorkerPc) : pc.wake ≠ .waiting := by
  cases pc <;> nofun

theorem wake_leaves {pc : WorkerPc} (h : pc.wake = .leaving ∨ pc.wake = .exited) :
    pc = .leaving ∨ pc = .exited := by
  cases pc with
  | leaving => exact .inl rfl
  | exited => exact .inr rfl
  | _ => rcases h with h | h <;> cases h

section Step

variable {label : SinkLabel} (hw : Live setup w) (h : Move setup w label w')
include hw h

theorem Live.step_bound : w'.queue.length ≤ setup.queueLimit := by
  have hbound := hw.bound
  cases h with
  | push i line inside async room =>
    simp only [SinkWorld.push, List.length_append, List.length_singleton]
    omega
  | take woken timestamp line rest looks queue =>
    simp only [queue, List.length_cons] at hbound ⊢
    omega
  | _ => exact hbound

theorem Live.step_workerUp (hwaits : w'.worker = .waiting) (hstop : w'.stopping = true) :
    w'.destructor = .notifyingQueue := by
  have hup := hw.workerUp
  cases h with
  | notify i owes => exact absurd hwaits (wake_ne_waiting _)
  | sleep woken timestamp looks empty running => simp [running] at hstop
  | close alive sync => exact absurd alive (hw.begun hstop)
  | stop alive async => rfl
  | notifyWorker pc => exact absurd hwaits (wake_ne_waiting _)
  | notifySenders pc => simp [hup hwaits hstop] at pc
  | join pc exited => simp [exited] at hwaits
  | take => cases hwaits
  | retire => cases hwaits
  | notifySender => cases hwaits
  | notifyNobody => cases hwaits
  | written => cases hwaits
  | exit => cases hwaits
  | wakeWorker => cases hwaits
  | _ => exact hup hwaits hstop

theorem Live.step_sendersUp (pc : SenderPc) (hpc : pc ∈ w'.senders) (hwaits : pc.isWaiting = true) :
    setup.asyncMode = true ∧ (w'.stopping = true →
      w'.destructor = .notifyingQueue ∨ w'.destructor = .notifyingSpace) := by
  have hup := hw.sendersUp
  have hset : ∀ {i : Nat} {new : SenderPc}, pc ∈ w.senders.set i new → new.isWaiting = false →
      pc ∈ w.senders := by
    intro i new hmem hnew
    rcases mem_set hmem with rfl | hmem
    · rw [hnew] at hwaits
      cases hwaits
    · exact hmem
  cases h with
  | call i args idle => exact hup pc (hset hpc rfl) hwaits
  | write i line inside sync => exact hup pc (hset hpc rfl) hwaits
  | drop i line inside async full => exact hup pc (hset hpc rfl) hwaits
  | giveUp i line inside async stopping => exact hup pc (hset hpc rfl) hwaits
  | push i line inside async room => exact hup pc (hset hpc rfl) hwaits
  | park i line inside async running full =>
    exact ⟨async, fun hstop => by simp [running] at hstop⟩
  | notify i owes => exact hup pc (hset hpc rfl) hwaits
  | notifySender woken timestamp line other owes sleeps => exact hup pc (hset hpc rfl) hwaits
  | close alive sync =>
    have := (hup pc hpc hwaits).1
    simp [sync] at this
  | stop alive async => exact ⟨async, fun _ => .inl rfl⟩
  | notifyWorker hpc' => exact ⟨(hup pc hpc hwaits).1, fun _ => .inr rfl⟩
  | notifySenders hpc' =>
    obtain ⟨old, -, rfl⟩ := List.mem_map.mp hpc
    cases old <;> cases hwaits
  | join hpc' exited =>
    obtain ⟨hasync, hstop⟩ := hup pc hpc hwaits
    have hstopping := hw.ending (by simp [hpc']) (by simp [hpc'])
    simpa [hpc'] using hstop hstopping
  | wakeSender i line sleeps => exact hup pc (hset hpc rfl) hwaits
  | _ => exact hup pc hpc hwaits

theorem Live.step_left (hleft : w'.worker = .leaving ∨ w'.worker = .exited) :
    w'.stopping = true ∨ setup.asyncMode = false := by
  have hold := hw.left
  cases h with
  | notify i owes => exact hold (wake_leaves hleft)
  | retire woken timestamp looks empty stopping => exact .inl stopping
  | exit woken timestamp text leaves => exact hold (.inl leaves)
  | stop alive async => exact .inl rfl
  | notifyWorker pc => exact hold (wake_leaves hleft)
  | take => rcases hleft with hleft | hleft <;> cases hleft
  | sleep => rcases hleft with hleft | hleft <;> cases hleft
  | notifySender => rcases hleft with hleft | hleft <;> cases hleft
  | notifyNobody => rcases hleft with hleft | hleft <;> cases hleft
  | written => rcases hleft with hleft | hleft <;> cases hleft
  | wakeWorker => rcases hleft with hleft | hleft <;> cases hleft
  | _ => exact hold hleft

theorem Live.step_working (hsync : setup.asyncMode = false) :
    w'.queue = [] ∧ w'.worker = .exited := by
  obtain ⟨hempty, hexited⟩ := hw.working hsync
  cases h with
  | push i line inside async room => simp [hsync] at async
  | notify i owes => exact ⟨hempty, by simp [hexited, WorkerPc.wake]⟩
  | notifyWorker pc => exact ⟨hempty, by simp [hexited, WorkerPc.wake]⟩
  | take woken timestamp line rest looks queue => simp [hexited] at looks
  | retire woken timestamp looks empty stopping => simp [hexited] at looks
  | sleep woken timestamp looks empty running => simp [hexited] at looks
  | notifySender woken timestamp line other owes sleeps => simp [hexited] at owes
  | notifyNobody woken timestamp line owes nobody => simp [hexited] at owes
  | written woken timestamp line writes => simp [hexited] at writes
  | exit woken timestamp text leaves => exact ⟨hempty, rfl⟩
  | wakeWorker sleeps => simp [hexited] at sleeps
  | _ => exact ⟨hempty, hexited⟩

theorem Live.step_shutdown :
    (w'.stopping = false → w.stopping = false) ∧ (w'.stopping = true → w'.destructor ≠ .alive) ∧
      (w'.destructor ≠ .alive → w'.destructor ≠ .returned → w'.stopping = true) := by
  have hbegun := hw.begun
  have hending := hw.ending
  cases h with
  | close alive sync => exact ⟨id, fun _ => nofun, fun _ hreturned => absurd rfl hreturned⟩
  | stop alive async => exact ⟨nofun, fun _ => nofun, fun _ _ => rfl⟩
  | notifyWorker pc =>
    exact ⟨id, fun _ => nofun, fun _ _ => hending (by simp [pc]) (by simp [pc])⟩
  | notifySenders pc =>
    exact ⟨id, fun _ => nofun, fun _ _ => hending (by simp [pc]) (by simp [pc])⟩
  | join pc exited => exact ⟨id, fun _ => nofun, fun _ hreturned => absurd rfl hreturned⟩
  | _ => exact ⟨id, hbegun, hending⟩

end Step

theorem Live.step {label : SinkLabel} (hw : Live setup w) (h : w.step setup label = some w') :
    Live setup w' := by
  have hmove := step_move h
  have hsendersUp := hw.step_sendersUp hmove
  obtain ⟨hrunning, hbegun, hending⟩ := hw.step_shutdown hmove
  refine ⟨hw.step_bound hmove, hmove.queue_step.covered hw.lines, fun hstop => ?_,
    hw.step_workerUp hmove, hsendersUp, hw.step_left hmove, hbegun, hending,
    hw.step_working hmove⟩
  cases hasync : setup.asyncMode with
  | true => exact (hmove.space_step hasync hw.bound hstop).covered (hw.places (hrunning hstop))
  | false =>
    refine .of_all_awake (Finset.eq_empty_iff_forall_notMem.mpr fun i hi => ?_)
    obtain ⟨pc, hpc, hwaits⟩ := mem_slotsWhere.mp hi
    have := (hsendersUp pc (List.mem_of_getElem? hpc) hwaits).1
    simp [hasync] at this

/-- No call of `send`, nor the worker, nor a shutdown that has begun can go on. -/
structure Rests (setup : SinkSetup) (w : SinkWorld) : Prop where
  senders : ∀ i, w.senderStep setup i = none
  worker : ∀ woken timestamp, w.workerStep woken timestamp = none
  destructor : w.destructor ≠ .alive → w.destructorStep setup = none

theorem Rests.sender (h : Rests setup w) {i : Nat} {pc : SenderPc} (hi : w.senders[i]? = some pc) :
    pc = .idle ∨ pc.isWaiting = true := by
  have hstep := h.senders i
  cases pc with
  | idle => exact .inl rfl
  | waiting line => exact .inr rfl
  | _ => simp [senderStep, hi] at hstep

theorem Rests.worker_at (h : Rests setup w) : w.worker = .waiting ∨ w.worker = .exited := by
  cases hworker : w.worker with
  | waiting => exact .inl rfl
  | exited => exact .inr rfl
  | locking =>
    have hstep := h.worker 0 []
    simp only [workerStep, hworker] at hstep
    split at hstep
    · split at hstep <;> cases hstep
    · cases hstep
  | notifying line =>
    -- somebody waits and can be picked, or nobody waits
    by_cases hsome : ∃ (i : Nat) (other : Bytes), w.senders[i]? = some (.waiting other)
    · obtain ⟨i, other, hi⟩ := hsome
      have hstep := h.worker i []
      simp [workerStep, hworker, notifySpace, hi] at hstep
    · have hstep := h.worker 0 []
      have hall : w.senders.all (fun pc => pc.wake = pc) = true := by
        refine List.all_eq_true.mpr fun pc hpc => ?_
        obtain ⟨i, hi⟩ := List.mem_iff_getElem?.mp hpc
        cases pc with
        | waiting other => exact absurd ⟨i, other, hi⟩ hsome
        | _ => simp [SenderPc.wake]
      simp only [workerStep, hworker, notifySpace, hall, if_true] at hstep
      split at hstep
      · next other hi => exact absurd ⟨0, other, hi⟩ hsome
      · cases hstep
  | writing line => simpa [workerStep, hworker] using h.worker 0 []
  | leaving => simpa [workerStep, hworker] using h.worker 0 []

theorem Rests.destructor_at (h : Rests setup w) :
    w.destructor = .alive ∨ (w.destructor = .joining ∧ w.worker ≠ .exited) ∨
      w.destructor = .returned := by
  have hstep := h.destructor
  cases hpc : w.destructor with
  | alive => exact .inl rfl
  | returned => exact .inr (.inr rfl)
  | joining =>
    refine .inr (.inl ⟨rfl, fun hexited => ?_⟩)
    simp [destructorStep, hpc, hexited] at hstep
  | _ => simp [destructorStep, hpc] at hstep

theorem Live.worker_asleep (hw : Live setup w) (h : Rests setup w)
    (hsleeps : w.worker = .waiting) : w.queue = [] ∧ w.stopping = false := by
  constructor
  · by_contra hne
    have hnone : slotsWhere (· = SenderPc.notifying) w.senders = ∅ := by
      refine Finset.eq_empty_iff_forall_notMem.mpr fun i hi => ?_
      obtain ⟨pc, hpc, hnotifying⟩ := mem_slotsWhere.mp hi
      rcases h.sender hpc with rfl | hwaits
      · cases hnotifying
      · rw [of_decide_eq_true hnotifying] at hwaits
        cases hwaits
    obtain ⟨x, hx⟩ := hw.lines.awake_of_item (by simp [queueSignals, hnone])
      ⟨(), by simp [queueSignals, hsleeps]⟩ (List.length_pos_iff.mpr hne)
    simp [Signals.awake, queueSignals, hsleeps] at hx
  · refine Bool.eq_false_iff.mpr fun hstop => ?_
    have hpc := hw.workerUp hsleeps hstop
    rcases h.destructor_at with hat | ⟨hat, -⟩ | hat <;> simp [hpc] at hat

theorem Live.no_sender_asleep (hw : Live setup w) (h : Rests setup w) {i : Nat} {pc : SenderPc}
    (hi : w.senders[i]? = some pc) : pc.isWaiting = false := by
  refine Bool.eq_false_iff.mpr fun hwaits => ?_
  obtain ⟨hasync, hup⟩ := hw.sendersUp pc (List.mem_of_getElem? hi) hwaits
  have hrunning : w.stopping = false := by
    refine Bool.eq_false_iff.mpr fun hstop => ?_
    rcases h.destructor_at with hat | ⟨hat, -⟩ | hat <;> simp [hat] at hup <;> simp [hup] at hstop
  have hworker : w.worker = .waiting := by
    refine h.worker_at.resolve_right fun hexited => ?_
    rcases hw.left (.inr hexited) with hstop | hsync
    · simp [hrunning] at hstop
    · simp [hasync] at hsync
  -- the queue is empty, so there is a place, and nobody but sleepers to take it
  have hempty := (hw.worker_asleep h hworker).1
  have hroom : 0 < (w.spaceSignals setup).items := by
    simp only [spaceSignals, hempty, SinkSetup.queueLimit, List.length_nil]
    omega
  obtain ⟨j, hj⟩ := (hw.places hrunning).awake_of_item
    (by simp [spaceSignals, hworker, WorkerPc.isNotifying])
    ⟨i, mem_slotsWhere.mpr ⟨pc, hi, hwaits⟩⟩ hroom
  obtain ⟨hwants, hawake⟩ := Finset.mem_sdiff.mp hj
  obtain ⟨other, hother, hplace⟩ := mem_slotsWhere.mp hwants
  rcases h.sender hother with rfl | hwaiting
  · cases hplace
  · exact hawake (mem_slotsWhere.mpr ⟨other, hother, hwaiting⟩)

theorem Live.at_rest (hw : Live setup w) (h : Rests setup w) :
    (∀ pc ∈ w.senders, pc = .idle) ∧
      ((w.destructor = .alive ∧ w.queue = [] ∧
        (setup.asyncMode = true → w.worker = .waiting)) ∨ w.destructor = .returned) := by
  constructor
  · intro pc hpc
    obtain ⟨i, hi⟩ := List.mem_iff_getElem?.mp hpc
    have hawake := hw.no_sender_asleep h hi
    refine (h.sender hi).resolve_right fun hwaits => ?_
    rw [hawake] at hwaits
    cases hwaits
  · rcases h.destructor_at with halive | ⟨hjoining, hworker⟩ | hreturned
    · refine .inl ⟨halive, ?_⟩
      have hrunning : w.stopping = false := Bool.eq_false_iff.mpr fun hstop =>
        hw.begun hstop halive
      rcases h.worker_at with hwaiting | hexited
      · exact ⟨(hw.worker_asleep h hwaiting).1, fun _ => hwaiting⟩
      · rcases hw.left (.inr hexited) with hstop | hsync
        · simp [hrunning] at hstop
        · exact ⟨(hw.working hsync).1, fun hasync => by simp [hsync] at hasync⟩
    · have hstop := hw.ending (by simp [hjoining]) (by simp [hjoining])
      have hwaiting := h.worker_at.resolve_right hworker
      have hrunning := (hw.worker_asleep h hwaiting).2
      simp [hrunning] at hstop
    · exact .inr hreturned

end SinkWorld

/-- A sender pays for the line it pushes, its notification, and one more look at the
queue each time a place is freed. -/
def SenderPc.weight : SenderPc → Nat
  | .idle => 0
  | .locking _ => 7
  | .waiting _ => 6
  | .notifying => 2

def WorkerPc.weight : WorkerPc → Nat
  | .locking => 2
  | .waiting => 1
  | .notifying _ => 5
  | .writing _ => 3
  | .leaving => 1
  | .exited => 0

def DestructorPc.weight (threads : Nat) : DestructorPc → Nat
  | .alive => threads + 5
  | .notifyingQueue => threads + 4
  | .notifyingSpace => threads + 2
  | .joining => 1
  | .returned => 0

def SinkLabel.isOwn : SinkLabel → Bool
  | .sender _ => true
  | .worker _ _ => true
  | .destructor => true
  | _ => false

theorem WorkerPc.weight_wake (pc : WorkerPc) : pc.wake.weight ≤ pc.weight + 1 := by
  cases pc <;> simp [WorkerPc.wake, WorkerPc.weight]

theorem SenderPc.weight_wake (pc : SenderPc) : pc.wake.weight ≤ pc.weight + 1 := by
  cases pc <;> simp [SenderPc.wake, SenderPc.weight]

namespace SinkWorld

variable {setup : SinkSetup} {w w' : SinkWorld}

/-- What the calls in progress, the worker and the shutdown still have to do. -/
def potential (w : SinkWorld) : Nat :=
  4 * w.queue.length + slotSum (fun _ pc => SenderPc.weight pc) w.senders + w.worker.weight +
    w.destructor.weight w.senders.length

theorem slotSum_wake (senders : List SenderPc) :
    slotSum (fun _ pc => SenderPc.weight pc) (senders.map SenderPc.wake) ≤
      slotSum (fun _ pc => SenderPc.weight pc) senders + senders.length := by
  induction senders with
  | nil => simp
  | cons pc rest ih =>
    have hpc := pc.weight_wake
    simp only [List.map_cons, slotSum_cons, List.length_cons]
    omega

theorem Move.potential_lt {label : SinkLabel} (h : Move setup w label w')
    (hown : label.isOwn = true) : w'.potential < w.potential := by
  have hset : ∀ {i : Nat} {old : SenderPc} (new : SenderPc), w.senders[i]? = some old →
      slotSum (fun _ pc => SenderPc.weight pc) (w.senders.set i new) + old.weight =
        slotSum (fun _ pc => SenderPc.weight pc) w.senders + new.weight :=
    fun new hold => slotSum_set _ new hold
  have hwake := w.worker.weight_wake
  cases h with
  | ignore i args => cases hown
  | call i args idle => cases hown
  | wakeSender i line sleeps => cases hown
  | wakeWorker sleeps => cases hown
  | write i line inside sync =>
    have := hset .idle inside
    simp only [potential, SenderPc.weight, List.length_set] at *
    omega
  | drop i line inside async full =>
    have := hset .idle inside
    simp only [potential, SenderPc.weight, List.length_set] at *
    omega
  | giveUp i line inside async stopping =>
    have := hset .idle inside
    simp only [potential, SenderPc.weight, List.length_set] at *
    omega
  | push i line inside async room =>
    have := hset .notifying inside
    simp only [potential, SinkWorld.push, SenderPc.weight, List.length_set, List.length_append,
      List.length_singleton] at *
    omega
  | park i line inside async running full =>
    have := hset (.waiting line) inside
    simp only [potential, SenderPc.weight, List.length_set] at *
    omega
  | notify i owes =>
    have := hset .idle owes
    simp only [potential, SenderPc.weight, List.length_set] at *
    omega
  | take woken timestamp line rest looks queue =>
    simp only [potential, looks, queue, WorkerPc.weight, List.length_cons]
    omega
  | retire woken timestamp looks empty stopping =>
    simp only [potential, looks, WorkerPc.weight]
    omega
  | sleep woken timestamp looks empty running =>
    simp only [potential, looks, WorkerPc.weight]
    omega
  | notifySender woken timestamp line other owes sleeps =>
    have := hset (.locking other) sleeps
    simp only [potential, owes, SenderPc.weight, WorkerPc.weight, List.length_set] at *
    omega
  | notifyNobody woken timestamp line owes nobody =>
    simp only [potential, owes, WorkerPc.weight]
    omega
  | written woken timestamp line writes =>
    simp only [potential, writes, WorkerPc.weight]
    omega
  | exit woken timestamp text leaves =>
    simp only [potential, leaves, WorkerPc.weight]
    omega
  | close alive sync =>
    simp only [potential, alive, DestructorPc.weight]
    omega
  | stop alive async =>
    simp only [potential, alive, DestructorPc.weight]
    omega
  | notifyWorker pc =>
    simp only [potential, pc, DestructorPc.weight]
    omega
  | notifySenders pc =>
    have := slotSum_wake w.senders
    simp only [potential, pc, DestructorPc.weight]
    omega
  | join pc exited =>
    simp only [potential, pc, DestructorPc.weight]
    omega

theorem Live.own_run {schedule : List SinkLabel} (hw : Live setup w)
    (hown : ∀ label ∈ schedule, label.isOwn = true)
    (hrun : runs (SinkWorld.step setup) w schedule = some w') :
    Live setup w' ∧ schedule.length + w'.potential ≤ w.potential := by
  induction schedule generalizing w with
  | nil =>
    cases Option.some.inj hrun
    exact ⟨hw, by simp⟩
  | cons label rest ih =>
    obtain ⟨mid, hstep, hrest⟩ := runs_cons_some.mp hrun
    have hless := (step_move hstep).potential_lt (hown label (by simp))
    obtain ⟨hlive, hbound⟩ := ih (hw.step hstep) (fun label hlabel => hown label (by simp [hlabel])) hrest
    refine ⟨hlive, ?_⟩
    simp only [List.length_cons]
    omega

end SinkWorld

/-- In every run of the sink, in every mode, with any number of sending threads, a
shutdown at any moment and wake-ups that nobody asked for: the threads by themselves
come to rest after a bounded number of steps. Then every call of `send` has returned,
and either no shutdown has begun, the queue is written and the worker sleeps, or the
destructor has returned. -/
theorem sink_never_hangs (setup : SinkSetup) (threads : Nat) (file : Bytes)
    {labels : List SinkLabel} {w : SinkWorld}
    (hrun : runs (SinkWorld.step setup) (SinkWorld.init setup threads file) labels = some w)
    {schedule : List SinkLabel} {final : SinkWorld}
    (hown : ∀ label ∈ schedule, label.isOwn = true)
    (hfinal : runs (SinkWorld.step setup) w schedule = some final) :
    schedule.length ≤ w.potential ∧
      (final.Rests setup → (∀ pc ∈ final.senders, pc = .idle) ∧
        ((final.destructor = .alive ∧ final.queue = [] ∧
          (setup.asyncMode = true → final.worker = .waiting)) ∨ final.destructor = .returned)) := by
  have hlive : w.Live setup :=
    runs_invariant (fun _ _ _ hw hstep => hw.step hstep) (.init threads file) hrun
  obtain ⟨hrested, hbound⟩ := hlive.own_run hown hfinal
  exact ⟨by omega, hrested.at_rest⟩

/-- Two senders and one place: the second one sleeps until the worker has freed it. -/
theorem sink_never_hangs_two :
    ∃ w final, runs (SinkWorld.step ⟨true, .kSimple, true, 1, false⟩)
        (SinkWorld.init ⟨true, .kSimple, true, 1, false⟩ 2 [])
        [.call 0 ⟨0, none, 0, none, []⟩, .sender 0, .call 1 ⟨0, none, 0, none, []⟩, .sender 1] =
          some w ∧
      runs (SinkWorld.step ⟨true, .kSimple, true, 1, false⟩) w
        [.worker 1 [], .worker 1 [], .sender 1, .sender 0, .worker 0 [], .sender 1, .worker 0 [],
          .worker 0 [], .worker 0 [], .worker 0 []] = some final ∧
      (w.senders.map SenderPc.isWaiting = [false, true] ∧ final.queue = [] ∧
        final.worker = .waiting) ∧ 10 ≤ w.potential := by
  obtain ⟨⟨w, final⟩, hpair, hfacts⟩ := Option.map_eq_some_iff.mp (show ((runs
      (SinkWorld.step ⟨true, .kSimple, true, 1, false⟩)
      (SinkWorld.init ⟨true, .kSimple, true, 1, false⟩ 2 [])
      [.call 0 ⟨0, none, 0, none, []⟩, .sender 0, .call 1 ⟨0, none, 0, none, []⟩, .sender 1]).bind
      fun w => (runs (SinkWorld.step ⟨true, .kSimple, true, 1, false⟩) w
        [.worker 1 [], .worker 1 [], .sender 1, .sender 0, .worker 0 [], .sender 1, .worker 0 [],
          .worker 0 [], .worker 0 [], .worker 0 []]).map fun final => (w, final)).map
      (fun x => (x.1.senders.map SenderPc.isWaiting, x.2.senders, x.2.queue, x.2.worker,
        x.2.destructor)) =
        some ([false, true], [.idle, .idle], [], .waiting, .alive) by decide +kernel)
  obtain ⟨w', hw, hrest⟩ := Option.bind_eq_some_iff.mp hpair
  obtain ⟨final', hfinal, heq⟩ := Option.map_eq_some_iff.mp hrest
  cases heq
  obtain ⟨hparked, hsenders, hqueue, hworker, halive⟩ : w.senders.map SenderPc.isWaiting =
      [false, true] ∧ final.senders = [.idle, .idle] ∧ final.queue = [] ∧
      final.worker = .waiting ∧ final.destructor = .alive := by simpa using hfacts
  have hrests : final.Rests ⟨true, .kSimple, true, 1, false⟩ := by
    refine ⟨fun i => ?_, fun woken timestamp => ?_, fun hdown => absurd halive hdown⟩
    · match i with
      | 0 => simp [SinkWorld.senderStep, hsenders]
      | 1 => simp [SinkWorld.senderStep, hsenders]
      | i + 2 => simp [SinkWorld.senderStep, hsenders]
    · simp [SinkWorld.workerStep, hworker]
  obtain ⟨hbound, hrested⟩ := sink_never_hangs _ _ _ hw (by decide) hfinal
  obtain ⟨-, ⟨-, hempty, hwaiting⟩ | hreturned⟩ := hrested hrests
  · exact ⟨w, final, hw, hfinal, ⟨hparked, hempty, hwaiting rfl⟩, hbound⟩
  · simp [halive] at hreturned

end Corekit.Log
