import Corekit.Log.FormattedSink

/-! The asynchronous sink writes the lines it accepted, in the order it accepted
them, and counts the others. Lines are followed from the call through the queue
and the hand of the worker into the file. -/
namespace Corekit.Log
open Corekit.Foundation

def linesText (lines : List Bytes) : Bytes := lines.flatMap fun line => line ++ [newline]

theorem linesText_snoc (lines : List Bytes) (line : Bytes) :
    linesText (lines ++ [line]) = linesText lines ++ line ++ [newline] := by
  simp [linesText]

def WorkerPc.inHand : WorkerPc → List Bytes
  | .notifying line => [line]
  | .writing line => [line]
  | _ => []

def SenderPc.pending : SenderPc → Multiset Bytes
  | .locking line => {line}
  | .waiting line => {line}
  | _ => 0

/-- The end of the file, once the worker has left its loop. -/
def noticeText (timestamp : Bytes) (droppedCount : Nat) : Bytes :=
  if droppedCount > 0 then dropNotice timestamp droppedCount else []

namespace SinkWorld

variable {setup : SinkSetup} {file : Bytes} {w w' : SinkWorld}

def pendingLines (w : SinkWorld) : Multiset Bytes :=
  slotSum (fun _ pc => SenderPc.pending pc) w.senders

structure Flow (setup : SinkSetup) (file : Bytes) (w : SinkWorld) : Prop where
  bound : w.queue.length ≤ setup.queueLimit
  order : ∃ written, w.accepted = written ++ w.worker.inHand ++ w.queue ∧
    ∃ notice, w.file = file ++ linesText written ++ notice ∧
      if w.worker = .exited then ∃ timestamp, notice = noticeText timestamp w.droppedCount
      else notice = []
  counted : (w.sent : Multiset Bytes) = w.accepted + w.dropped + w.pendingLines
  dropped : w.droppedCount = w.dropped.length % 2 ^ 64
  kept : setup.dropWhenFull = false → w.dropped = []

/-- How far the shutdown has come. -/
structure Shutdown (w : SinkWorld) : Prop where
  stopping : w.stopping = true ↔ w.destructor ≠ .alive
  quiet : w.destructor ≠ .alive → ∀ pc ∈ w.senders, pc = .idle
  drained : w.worker = .leaving ∨ w.worker = .exited → w.stopping = true ∧ w.queue = []
  awake : w.worker = .waiting → w.destructor = .alive ∨ w.destructor = .notifyingQueue
  joined : w.destructor = .returned → w.worker = .exited

theorem Shutdown.alive_of_busy (h : w.Shutdown) {i : Nat} {pc : SenderPc}
    (hi : w.senders[i]? = some pc) (hbusy : pc ≠ .idle) : w.destructor = .alive := by
  by_contra hdown
  exact hbusy (h.quiet hdown pc (List.mem_of_getElem? hi))

theorem Shutdown.running_of_alive (h : w.Shutdown) (halive : w.destructor = .alive) :
    w.stopping = false ∧ w.worker ≠ .leaving ∧ w.worker ≠ .exited := by
  have hno : w.stopping = false := by
    cases hstop : w.stopping with
    | false => rfl
    | true => exact absurd halive (h.stopping.mp hstop)
  refine ⟨hno, fun hleaving => ?_, fun hexited => ?_⟩
  · have := (h.drained (.inl hleaving)).1
    rw [hno] at this
    cases this
  · have := (h.drained (.inr hexited)).1
    rw [hno] at this
    cases this

theorem Shutdown.of_alive (halive : w.destructor = .alive) (hno : w.stopping = false)
    (hleaving : w.worker ≠ .leaving) (hexited : w.worker ≠ .exited) : w.Shutdown where
  stopping := by simp [hno, halive]
  quiet := fun hdown => absurd halive hdown
  drained := fun hdone => hdone.elim (absurd · hleaving) (absurd · hexited)
  awake := fun _ => .inl halive
  joined := fun hreturned => by
    rw [halive] at hreturned
    cases hreturned

theorem Flow.set_sender (h : Flow setup file w) {i : Nat} {old : SenderPc}
    (hi : w.senders[i]? = some old) (new : SenderPc) (hpending : new.pending = old.pending) :
    Flow setup file { w with senders := w.senders.set i new } where
  bound := h.bound
  order := h.order
  counted := by
    refine slotSum_balance _ hi h.counted ?_
    rw [hpending]
  dropped := h.dropped
  kept := h.kept

theorem Flow.set_worker (h : Flow setup file w) {pc : WorkerPc}
    (hhand : pc.inHand = w.worker.inHand) (hold : w.worker ≠ .exited) (hnew : pc ≠ .exited) :
    Flow setup file { w with worker := pc } where
  bound := h.bound
  order := by
    obtain ⟨written, haccepted, notice, hfile, hnotice⟩ := h.order
    rw [if_neg hold] at hnotice
    refine ⟨written, by rw [hhand]; exact haccepted, notice, hfile, ?_⟩
    rw [if_neg hnew]
    exact hnotice
  counted := h.counted
  dropped := h.dropped
  kept := h.kept

theorem Flow.push (h : Flow setup file w) {i : Nat} {line : Bytes}
    (hi : w.senders[i]? = some (.locking line)) (hroom : w.queue.length < setup.queueLimit) :
    Flow setup file (w.push i line) where
  bound := by
    change (w.queue ++ [line]).length ≤ _
    rw [List.length_append, List.length_singleton]
    omega
  order := by
    obtain ⟨written, haccepted, hfile⟩ := h.order
    refine ⟨written, ?_, hfile⟩
    change w.accepted ++ [line] = written ++ w.worker.inHand ++ (w.queue ++ [line])
    rw [haccepted, List.append_assoc _ w.queue]
  counted := by
    refine slotSum_balance _ hi h.counted ?_
    simp only [SinkWorld.push, SenderPc.pending, ← Multiset.coe_add, Multiset.coe_singleton]
    ac_rfl
  dropped := h.dropped
  kept := h.kept

theorem Flow.drop (h : Flow setup file w) {i : Nat} {line : Bytes}
    (hi : w.senders[i]? = some (.locking line)) (hdrop : setup.dropWhenFull = true)
    (hrunning : w.worker ≠ .exited) :
    Flow setup file { w with
      droppedCount := (w.droppedCount + 1) % 2 ^ 64
      senders := w.senders.set i .idle
      dropped := w.dropped ++ [line] } where
  bound := h.bound
  order := by
    obtain ⟨written, haccepted, notice, hfile, hnotice⟩ := h.order
    rw [if_neg hrunning] at hnotice
    refine ⟨written, haccepted, notice, hfile, ?_⟩
    rw [if_neg hrunning]
    exact hnotice
  counted := by
    refine slotSum_balance _ hi h.counted ?_
    simp only [SenderPc.pending, ← Multiset.coe_add, Multiset.coe_singleton]
    ac_rfl
  dropped := by
    dsimp only
    rw [h.dropped, List.length_append, List.length_singleton]
    omega
  kept := fun hkeep => by
    rw [hdrop] at hkeep
    cases hkeep

theorem Flow.lockedSend (h : Flow setup file w) (hshut : w.Shutdown)
    (hasync : setup.asyncMode = true) {i : Nat} {line : Bytes}
    (hi : w.senders[i]? = some (.locking line)) :
    Flow setup file (w.lockedSend setup i line) ∧ (w.lockedSend setup i line).Shutdown := by
  have halive := hshut.alive_of_busy hi (by simp)
  obtain ⟨hno, hleaving, hexited⟩ := hshut.running_of_alive halive
  unfold SinkWorld.lockedSend
  rw [if_neg (by simp [hasync])]
  split_ifs with hdrop hfull hroom hstop
  · exact ⟨h.drop hi hdrop hexited, .of_alive halive hno hleaving hexited⟩
  · exact ⟨h.push hi (by omega), .of_alive halive hno hleaving hexited⟩
  · rw [hno] at hstop
    cases hstop
  · exact ⟨h.push hi (hroom.resolve_left hstop), .of_alive halive hno hleaving hexited⟩
  · exact ⟨h.set_sender hi _ rfl, .of_alive halive hno hleaving hexited⟩

theorem wake_running {pc : WorkerPc} (hleaving : pc ≠ .leaving) (hexited : pc ≠ .exited) :
    pc.wake ≠ .leaving ∧ pc.wake ≠ .exited := by
  cases pc with
  | leaving => exact absurd rfl hleaving
  | exited => exact absurd rfl hexited
  | _ => simp [WorkerPc.wake]

theorem inHand_wake (pc : WorkerPc) : pc.wake.inHand = pc.inHand := by
  cases pc <;> rfl

theorem Flow.senderStep (h : Flow setup file w) (hshut : w.Shutdown)
    (hasync : setup.asyncMode = true) {i : Nat} (hstep : w.senderStep setup i = some w') :
    Flow setup file w' ∧ w'.Shutdown := by
  unfold SinkWorld.senderStep at hstep
  split at hstep
  · next line hi =>
    cases Option.some.inj hstep
    exact h.lockedSend hshut hasync hi
  · next hi =>
    cases Option.some.inj hstep
    have halive := hshut.alive_of_busy hi (by simp)
    obtain ⟨hno, hleaving, hexited⟩ := hshut.running_of_alive halive
    obtain ⟨hleaving', hexited'⟩ := wake_running hleaving hexited
    exact ⟨(h.set_sender hi .idle rfl).set_worker (inHand_wake _) hexited hexited',
      .of_alive halive hno hleaving' hexited'⟩
  · cases hstep

theorem Flow.wakeSender (h : Flow setup file w) (hshut : w.Shutdown) {i : Nat} {line : Bytes}
    (hi : w.senders[i]? = some (.waiting line)) :
    Flow setup file { w with senders := w.senders.set i (.locking line) } ∧
      Shutdown { w with senders := w.senders.set i (.locking line) } := by
  have halive := hshut.alive_of_busy hi (by simp)
  obtain ⟨hno, hleaving, hexited⟩ := hshut.running_of_alive halive
  exact ⟨h.set_sender hi _ rfl, .of_alive halive hno hleaving hexited⟩

theorem Shutdown.set_worker (h : w.Shutdown) {pc : WorkerPc} {queue : List Bytes} {text : Bytes}
    (hrunning : w.worker ≠ .exited) (hpc : pc ≠ .leaving ∧ pc ≠ .exited ∧ pc ≠ .waiting) :
    Shutdown { w with queue := queue, file := text, worker := pc } where
  stopping := h.stopping
  quiet := h.quiet
  drained := fun hdone => hdone.elim (absurd · hpc.1) (absurd · hpc.2.1)
  awake := fun hwaiting => absurd hwaiting hpc.2.2
  joined := fun hreturned => absurd (h.joined hreturned) hrunning

theorem Flow.workerLocking (h : Flow setup file w) (hshut : w.Shutdown)
    (hworker : w.worker = .locking) {woken : Nat} {timestamp : Bytes}
    (hstep : w.workerStep woken timestamp = some w') :
    Flow setup file w' ∧ w'.Shutdown := by
  have hexited : w.worker ≠ .exited := by simp [hworker]
  unfold SinkWorld.workerStep at hstep
  rw [hworker] at hstep
  dsimp only at hstep
  by_cases hready : w.stopping = true ∨ w.queue ≠ []
  · rw [if_pos hready] at hstep
    split at hstep
    · next hqueue =>
      cases Option.some.inj hstep
      have hstop : w.stopping = true := hready.resolve_right (by simp [hqueue])
      rw [if_pos hstop]
      refine ⟨h.set_worker (by simp [hworker, WorkerPc.inHand]) hexited (by simp), ?_⟩
      exact {
        stopping := hshut.stopping
        quiet := hshut.quiet
        drained := fun _ => ⟨hstop, hqueue⟩
        awake := fun hwaiting => by cases hwaiting
        joined := fun hreturned => absurd (hshut.joined hreturned) hexited }
    · next line rest hqueue =>
      cases Option.some.inj hstep
      refine ⟨?_, hshut.set_worker hexited (by simp)⟩
      obtain ⟨written, haccepted, notice, hfile, hnotice⟩ := h.order
      rw [if_neg hexited] at hnotice
      have hbound := h.bound
      rw [hqueue, List.length_cons] at hbound
      exact {
        bound := by dsimp only; omega
        order := by
          refine ⟨written, ?_, notice, hfile, by simpa using hnotice⟩
          rw [haccepted, hworker, hqueue]
          simp [WorkerPc.inHand]
        counted := h.counted
        dropped := h.dropped
        kept := h.kept }
  · rw [if_neg hready] at hstep
    cases Option.some.inj hstep
    have hno : w.stopping = false := by simpa using fun hstop => hready (.inl hstop)
    have halive : w.destructor = .alive := by
      by_contra hdown
      rw [hshut.stopping.mpr hdown] at hno
      cases hno
    exact ⟨h.set_worker (by simp [hworker, WorkerPc.inHand]) hexited (by simp),
      .of_alive halive hno (by simp) (by simp)⟩

theorem Flow.workerNotifying (h : Flow setup file w) (hshut : w.Shutdown) {line : Bytes}
    (hworker : w.worker = .notifying line) {woken : Nat} {timestamp : Bytes}
    (hstep : w.workerStep woken timestamp = some w') :
    Flow setup file w' ∧ w'.Shutdown := by
  have hexited : w.worker ≠ .exited := by simp [hworker]
  have hhand : (WorkerPc.writing line).inHand = w.worker.inHand := by rw [hworker]; rfl
  unfold SinkWorld.workerStep at hstep
  rw [hworker] at hstep
  obtain ⟨senders, hnotify, rfl⟩ := Option.map_eq_some_iff.mp hstep
  unfold SinkWorld.notifySpace at hnotify
  split at hnotify
  · next line' hi =>
    cases Option.some.inj hnotify
    obtain ⟨hflow, hshut'⟩ := h.wakeSender hshut hi
    exact ⟨hflow.set_worker hhand hexited (by simp), hshut'.set_worker hexited (by simp)⟩
  · split_ifs at hnotify
    cases Option.some.inj hnotify
    exact ⟨h.set_worker hhand hexited (by simp), hshut.set_worker hexited (by simp)⟩

theorem Flow.workerWriting (h : Flow setup file w) (hshut : w.Shutdown) {line : Bytes}
    (hworker : w.worker = .writing line) {woken : Nat} {timestamp : Bytes}
    (hstep : w.workerStep woken timestamp = some w') :
    Flow setup file w' ∧ w'.Shutdown := by
  have hexited : w.worker ≠ .exited := by simp [hworker]
  unfold SinkWorld.workerStep at hstep
  rw [hworker] at hstep
  cases Option.some.inj hstep
  refine ⟨?_, hshut.set_worker hexited (by simp)⟩
  obtain ⟨written, haccepted, notice, hfile, hnotice⟩ := h.order
  rw [if_neg hexited] at hnotice
  exact {
    bound := h.bound
    order := by
      refine ⟨written ++ [line], ?_, [], ?_, by simp⟩
      · rw [haccepted, hworker]
        simp [WorkerPc.inHand]
      · dsimp only
        rw [hfile, hnotice, linesText_snoc]
        simp
    counted := h.counted
    dropped := h.dropped
    kept := h.kept }

theorem Flow.workerLeaving (h : Flow setup file w) (hshut : w.Shutdown)
    (hworker : w.worker = .leaving) {woken : Nat} {timestamp : Bytes}
    (hstep : w.workerStep woken timestamp = some w') :
    Flow setup file w' ∧ w'.Shutdown := by
  have hexited : w.worker ≠ .exited := by simp [hworker]
  unfold SinkWorld.workerStep at hstep
  rw [hworker] at hstep
  cases Option.some.inj hstep
  obtain ⟨hstop, hqueue⟩ := hshut.drained (.inl hworker)
  obtain ⟨written, haccepted, notice, hfile, hnotice⟩ := h.order
  rw [if_neg hexited] at hnotice
  constructor
  · exact {
      bound := h.bound
      order := by
        refine ⟨written, ?_, noticeText timestamp w.droppedCount, ?_, ?_⟩
        · rw [haccepted, hworker]
          simp [WorkerPc.inHand]
        · dsimp only
          rw [hfile, hnotice, noticeText]
          split_ifs <;> simp
        · rw [if_pos rfl]
          exact ⟨timestamp, rfl⟩
      counted := h.counted
      dropped := h.dropped
      kept := h.kept }
  · exact {
      stopping := hshut.stopping
      quiet := hshut.quiet
      drained := fun _ => ⟨hstop, hqueue⟩
      awake := fun hwaiting => by cases hwaiting
      joined := fun _ => rfl }

theorem Flow.workerStep (h : Flow setup file w) (hshut : w.Shutdown) {woken : Nat}
    {timestamp : Bytes} (hstep : w.workerStep woken timestamp = some w') :
    Flow setup file w' ∧ w'.Shutdown := by
  cases hworker : w.worker with
  | locking => exact h.workerLocking hshut hworker hstep
  | waiting =>
    unfold SinkWorld.workerStep at hstep
    rw [hworker] at hstep
    cases hstep
  | notifying line => exact h.workerNotifying hshut hworker hstep
  | writing line => exact h.workerWriting hshut hworker hstep
  | leaving => exact h.workerLeaving hshut hworker hstep
  | exited =>
    unfold SinkWorld.workerStep at hstep
    rw [hworker] at hstep
    cases hstep

theorem wake_idle {senders : List SenderPc} (h : ∀ pc ∈ senders, pc = .idle) :
    senders.map SenderPc.wake = senders := by
  conv_rhs => rw [← List.map_id senders]
  refine List.map_congr_left fun pc hpc => ?_
  rw [h pc hpc]
  rfl

theorem Flow.beginShutdown (h : Flow setup file w) (hshut : w.Shutdown)
    (halive : w.destructor = .alive) (hidle : ∀ pc ∈ w.senders, pc = .idle) :
    Flow setup file { w with stopping := true, destructor := .notifyingQueue } ∧
      Shutdown { w with stopping := true, destructor := .notifyingQueue } := by
  obtain ⟨-, hleaving, hexited⟩ := hshut.running_of_alive halive
  refine ⟨⟨h.bound, h.order, h.counted, h.dropped, h.kept⟩, ?_⟩
  exact {
    stopping := by simp
    quiet := fun _ => hidle
    drained := fun hdone => hdone.elim (absurd · hleaving) (absurd · hexited)
    awake := fun _ => .inr rfl
    joined := fun hreturned => by cases hreturned }

theorem Flow.notifyQueue (h : Flow setup file w) (hshut : w.Shutdown)
    (hpc : w.destructor = .notifyingQueue) :
    Flow setup file { w with worker := w.worker.wake, destructor := .notifyingSpace } ∧
      Shutdown { w with worker := w.worker.wake, destructor := .notifyingSpace } := by
  have hwake : w.worker.wake = .exited ↔ w.worker = .exited := by
    cases w.worker <;> simp [WorkerPc.wake]
  have hleave : w.worker.wake = .leaving ↔ w.worker = .leaving := by
    cases w.worker <;> simp [WorkerPc.wake]
  have hwait : w.worker.wake ≠ .waiting := by
    cases w.worker <;> simp [WorkerPc.wake]
  have hdown : w.destructor ≠ .alive := by simp [hpc]
  constructor
  · exact {
      bound := h.bound
      order := by
        obtain ⟨written, haccepted, notice, hfile, hnotice⟩ := h.order
        refine ⟨written, by rw [inHand_wake]; exact haccepted, notice, hfile, ?_⟩
        simpa only [hwake] using hnotice
      counted := h.counted
      dropped := h.dropped
      kept := h.kept }
  · exact {
      stopping := by simp [hshut.stopping.mpr hdown]
      quiet := fun _ => hshut.quiet hdown
      drained := fun hdone => hshut.drained (hdone.imp hleave.mp hwake.mp)
      awake := fun hwaiting => absurd hwaiting hwait
      joined := fun hreturned => by cases hreturned }

theorem Flow.destructorStep (h : Flow setup file w) (hshut : w.Shutdown)
    (hasync : setup.asyncMode = true) (horderly : w.Orderly .destructor)
    (hstep : w.destructorStep setup = some w') : Flow setup file w' ∧ w'.Shutdown := by
  unfold SinkWorld.destructorStep at hstep
  cases hpc : w.destructor with
  | alive =>
    rw [hpc] at hstep
    rw [if_neg (by simp [hasync])] at hstep
    cases Option.some.inj hstep
    exact h.beginShutdown hshut hpc (horderly hpc)
  | notifyingQueue =>
    rw [hpc] at hstep
    cases Option.some.inj hstep
    exact h.notifyQueue hshut hpc
  | notifyingSpace =>
    rw [hpc] at hstep
    cases Option.some.inj hstep
    have hdown : w.destructor ≠ .alive := by simp [hpc]
    have hidle := hshut.quiet hdown
    rw [wake_idle hidle]
    refine ⟨⟨h.bound, h.order, h.counted, h.dropped, h.kept⟩, ?_⟩
    exact {
      stopping := by simp [hshut.stopping.mpr hdown]
      quiet := fun _ => hidle
      drained := hshut.drained
      awake := fun hwaiting => by
        have := hshut.awake hwaiting
        simp [hpc] at this
      joined := fun hreturned => by cases hreturned }
  | joining =>
    rw [hpc] at hstep
    have hdown : w.destructor ≠ .alive := by simp [hpc]
    dsimp only at hstep
    split_ifs at hstep with hexited
    cases Option.some.inj hstep
    refine ⟨⟨h.bound, h.order, h.counted, h.dropped, h.kept⟩, ?_⟩
    exact {
      stopping := by simp [hshut.stopping.mpr hdown]
      quiet := fun _ => hshut.quiet hdown
      drained := hshut.drained
      awake := fun hwaiting => by
        rw [hexited] at hwaiting
        cases hwaiting
      joined := fun _ => hexited }
  | returned =>
    rw [hpc] at hstep
    cases hstep

theorem Flow.step (h : Flow setup file w) (hshut : w.Shutdown) (hasync : setup.asyncMode = true)
    (hopen : setup.isOpen = true) {label : SinkLabel} (horderly : w.Orderly label)
    (hstep : w.step setup label = some w') : Flow setup file w' ∧ w'.Shutdown := by
  cases label with
  | call i args =>
    have halive : w.destructor = .alive := horderly
    obtain ⟨hno, hleaving, hexited⟩ := hshut.running_of_alive halive
    simp only [SinkWorld.step] at hstep
    split at hstep
    · next hi =>
      rw [if_neg (by simp [hopen])] at hstep
      cases Option.some.inj hstep
      refine ⟨⟨h.bound, h.order, ?_, h.dropped, h.kept⟩, .of_alive halive hno hleaving hexited⟩
      refine slotSum_balance _ hi h.counted ?_
      simp only [SenderPc.pending, ← Multiset.coe_add, Multiset.coe_singleton]
      ac_rfl
    · cases hstep
  | sender i => exact h.senderStep hshut hasync hstep
  | worker woken timestamp => exact h.workerStep hshut hstep
  | destructor => exact h.destructorStep hshut hasync horderly hstep
  | wakeSender i =>
    simp only [SinkWorld.step] at hstep
    split at hstep
    · next line hi =>
      cases Option.some.inj hstep
      exact h.wakeSender hshut hi
    · cases hstep
  | wakeWorker =>
    simp only [SinkWorld.step] at hstep
    split_ifs at hstep with hwaiting
    cases Option.some.inj hstep
    exact ⟨h.set_worker (by simp [hwaiting, WorkerPc.inHand]) (by simp [hwaiting]) (by simp),
      hshut.set_worker (by simp [hwaiting]) (by simp)⟩

theorem Flow.start (hasync : setup.asyncMode = true) (threads : Nat) :
    Flow setup file (init setup threads file) ∧ (init setup threads file).Shutdown := by
  have hworker : (init setup threads file).worker = .locking := if_pos hasync
  constructor
  · exact {
      bound := Nat.zero_le _
      order := by
        refine ⟨[], ?_, [], by simp [init, linesText], ?_⟩
        · rw [hworker]
          rfl
        · rw [hworker, if_neg (by simp)]
      counted := by
        have hnone : (init setup threads file).pendingLines = 0 := by
          refine slotSum_eq_zero fun i pc hi => ?_
          rw [List.eq_of_mem_replicate (List.mem_of_getElem? hi)]
          rfl
        rw [hnone]
        rfl
      dropped := rfl
      kept := fun _ => rfl }
  · exact .of_alive rfl rfl (by simp [hworker]) (by simp [hworker])

theorem Flow.of_run (hasync : setup.asyncMode = true) (hopen : setup.isOpen = true)
    {threads : Nat} {labels : List SinkLabel}
    (horderly : Meets (SinkWorld.step setup) Orderly (init setup threads file) labels)
    (hrun : runs (SinkWorld.step setup) (init setup threads file) labels = some w) :
    Flow setup file w ∧ w.Shutdown := by
  have hkeep : ∀ w label w', Flow setup file w ∧ w.Shutdown → w.Orderly label →
      SinkWorld.step setup w label = some w' → Flow setup file w' ∧ w'.Shutdown :=
    fun _ _ _ h horderly hstep => h.1.step h.2 hasync hopen horderly hstep
  exact runs_invariant_of_meets hkeep (Flow.start hasync threads) horderly hrun

def remaining (w : SinkWorld) : Nat :=
  3 * w.queue.length +
    (match w.worker with
      | .notifying _ => 4
      | .writing _ => 3
      | .locking => 2
      | .waiting => 2
      | .leaving => 1
      | .exited => 0) +
    (match w.destructor with
      | .alive => 4
      | .notifyingQueue => 3
      | .notifyingSpace => 2
      | .joining => 1
      | .returned => 0)

theorem Shutdown.worker_next (h : w.Shutdown) (hpc : w.destructor = .joining)
    (hexited : w.worker ≠ .exited) :
    ∃ w', w.workerStep 0 [] = some w' ∧ w'.destructor = .joining ∧
      w'.remaining < w.remaining := by
  have hdown : w.destructor ≠ .alive := by simp [hpc]
  have hstop := h.stopping.mpr hdown
  unfold SinkWorld.workerStep
  cases hworker : w.worker with
  | locking =>
    dsimp only
    rw [if_pos (.inl hstop)]
    cases hqueue : w.queue with
    | nil => exact ⟨_, rfl, hpc, by simp [remaining, hworker, hqueue, hstop]⟩
    | cons line rest =>
      refine ⟨_, rfl, hpc, ?_⟩
      simp only [remaining, hworker, hqueue, List.length_cons]
      omega
  | waiting =>
    have := h.awake hworker
    simp [hpc] at this
  | notifying line =>
    have hidle := h.quiet hdown
    have hnotify : w.notifySpace 0 = some w.senders := by
      unfold SinkWorld.notifySpace
      split
      · next line' hi => exact absurd (hidle _ (List.mem_of_getElem? hi)) (by simp)
      · refine if_pos (List.all_eq_true.mpr fun pc hpc => ?_)
        rw [hidle pc hpc]
        rfl
    rw [hnotify]
    exact ⟨_, rfl, hpc, by simp [remaining, hworker]⟩
  | writing line => exact ⟨_, rfl, hpc, by simp [remaining, hworker]⟩
  | leaving => exact ⟨_, rfl, hpc, by simp [remaining, hworker]⟩
  | exited => exact absurd hworker hexited

theorem Shutdown.next (h : w.Shutdown) (hdown : w.destructor ≠ .alive)
    (hrunning : w.destructor ≠ .returned) :
    ∃ label w', w.Orderly label ∧ w.step setup label = some w' ∧ w'.destructor ≠ .alive ∧
      w'.remaining < w.remaining := by
  have horderly : w.Orderly .destructor := fun halive => absurd halive hdown
  cases hpc : w.destructor with
  | alive => exact absurd hpc hdown
  | notifyingQueue =>
    refine ⟨.destructor, { w with worker := w.worker.wake, destructor := .notifyingSpace },
      horderly, ?_, by simp, ?_⟩
    · simp only [SinkWorld.step, SinkWorld.destructorStep, hpc]
    · cases hworker : w.worker <;> simp [remaining, WorkerPc.wake, hworker, hpc]
  | notifyingSpace =>
    refine ⟨.destructor, { w with senders := w.senders.map SenderPc.wake, destructor := .joining },
      horderly, ?_, by simp, by simp [remaining, hpc]⟩
    simp only [SinkWorld.step, SinkWorld.destructorStep, hpc]
  | joining =>
    by_cases hexited : w.worker = .exited
    · refine ⟨.destructor, { w with destructor := .returned }, horderly, ?_, by simp,
        by simp [remaining, hpc]⟩
      simp only [SinkWorld.step, SinkWorld.destructorStep, hpc, if_pos hexited]
    · obtain ⟨w', hstep, hpc', hless⟩ := h.worker_next hpc hexited
      exact ⟨.worker 0 [], w', trivial, hstep, by simp [hpc'], hless⟩
  | returned => exact absurd hpc hrunning

theorem Flow.returns (hasync : setup.asyncMode = true) (hopen : setup.isOpen = true)
    (h : Flow setup file w) (hshut : w.Shutdown) (hdown : w.destructor ≠ .alive) :
    ∃ labels w', Meets (SinkWorld.step setup) Orderly w labels ∧
      runs (SinkWorld.step setup) w labels = some w' ∧ w'.destructor = .returned := by
  induction hn : w.remaining using Nat.strong_induction_on generalizing w with
  | _ n ih =>
    by_cases hreturned : w.destructor = .returned
    · exact ⟨[], w, trivial, rfl, hreturned⟩
    · obtain ⟨label, w₁, horderly, hstep, hdown₁, hless⟩ := hshut.next hdown hreturned
      obtain ⟨h₁, hshut₁⟩ := h.step hshut hasync hopen horderly hstep
      obtain ⟨labels, w', hmeets, hrun, hreturned'⟩ :=
        ih w₁.remaining (hn ▸ hless) h₁ hshut₁ hdown₁ rfl
      refine ⟨label :: labels, w', ⟨horderly, ?_⟩, runs_cons_some.mpr ⟨w₁, hstep, hrun⟩,
        hreturned'⟩
      intro w₂ hstep₂
      cases Option.some.inj (hstep.symm.trans hstep₂)
      exact hmeets

/-- What stands in the file once the destructor has returned, and which calls it
accounts for. -/
structure Delivered (setup : SinkSetup) (file : Bytes) (w : SinkWorld) : Prop where
  file_eq : ∃ timestamp, w.file = file ++ linesText w.accepted ++
    noticeText timestamp w.droppedCount
  dropping : setup.dropWhenFull = true →
    (w.accepted ++ w.dropped).Perm w.sent ∧ w.droppedCount = w.dropped.length % 2 ^ 64
  keeping : setup.dropWhenFull = false → w.accepted.Perm w.sent ∧ w.droppedCount = 0

theorem Flow.delivered (h : Flow setup file w) (hshut : w.Shutdown)
    (hreturned : w.destructor = .returned) : Delivered setup file w := by
  have hexited := hshut.joined hreturned
  have hdown : w.destructor ≠ .alive := by simp [hreturned]
  have hnone : w.pendingLines = 0 := by
    refine slotSum_eq_zero fun i pc hi => ?_
    rw [hshut.quiet hdown pc (List.mem_of_getElem? hi)]
    rfl
  have hcounted := h.counted
  rw [hnone, add_zero, Multiset.coe_add] at hcounted
  have hperm := (Multiset.coe_eq_coe.mp hcounted).symm
  obtain ⟨written, haccepted, notice, hfile, hnotice⟩ := h.order
  have hhand : WorkerPc.exited.inHand = [] := rfl
  rw [hexited, (hshut.drained (.inr hexited)).2, hhand, List.append_nil, List.append_nil]
    at haccepted
  rw [if_pos hexited] at hnotice
  obtain ⟨timestamp, rfl⟩ := hnotice
  refine ⟨⟨timestamp, by rw [haccepted]; exact hfile⟩, fun _ => ⟨hperm, h.dropped⟩, fun hkeep => ?_⟩
  have hnil := h.kept hkeep
  rw [hnil, List.append_nil] at hperm
  exact ⟨hperm, by rw [h.dropped, hnil]; rfl⟩

end SinkWorld

/-- In every orderly run the queue is bounded, the destructor can return, and
once it has, the file accounts for every call. -/
theorem async_sink_delivers {setup : SinkSetup} (hasync : setup.asyncMode = true)
    (hopen : setup.isOpen = true) {threads : Nat} {file : Bytes} {labels : List SinkLabel}
    {w : SinkWorld}
    (horderly : Meets (SinkWorld.step setup) SinkWorld.Orderly
      (SinkWorld.init setup threads file) labels)
    (hrun : runs (SinkWorld.step setup) (SinkWorld.init setup threads file) labels = some w) :
    w.queue.length ≤ setup.queueLimit ∧
      (w.destructor = .returned → w.Delivered setup file) ∧
      (w.destructor ≠ .alive → ∃ more w', Meets (SinkWorld.step setup) SinkWorld.Orderly w more ∧
        runs (SinkWorld.step setup) w more = some w' ∧ w'.destructor = .returned) := by
  obtain ⟨hflow, hshut⟩ := SinkWorld.Flow.of_run hasync hopen horderly hrun
  exact ⟨hflow.bound, hflow.delivered hshut, hflow.returns hasync hopen hshut⟩

/-- A queue of one line that drops. -/
def narrowSetup : SinkSetup := ⟨true, .kSimple, true, 1, true⟩

def bareArgs : SendArgs := ⟨0, none, 0, none, []⟩

def bareLine : Bytes := bareArgs.formattedLine .kSimple

def pushCall : List SinkLabel := [.call 0 bareArgs, .sender 0, .sender 0]

def dropCall : List SinkLabel := [.call 0 bareArgs, .sender 0]

def shutDown : List SinkLabel :=
  List.replicate 3 .destructor ++ List.replicate 5 (.worker 0 []) ++ [.destructor]

theorem async_sink_delivers_one :
    ∃ w, runs (SinkWorld.step narrowSetup) (SinkWorld.init narrowSetup 1 [])
        (pushCall ++ dropCall ++ shutDown) = some w ∧
      (w.accepted = [bareLine] ∧ w.sent = [bareLine, bareLine]) ∧
      w.Delivered narrowSetup [] := by
  have horderly : Meets (SinkWorld.step narrowSetup) SinkWorld.Orderly
      (SinkWorld.init narrowSetup 1 []) (pushCall ++ dropCall ++ shutDown) :=
    .of_decide (by decide +kernel)
  obtain ⟨w, hrun, hw⟩ := Option.map_eq_some_iff.mp (show (runs (SinkWorld.step narrowSetup)
      (SinkWorld.init narrowSetup 1 []) (pushCall ++ dropCall ++ shutDown)).map (fun w =>
        decide (w.accepted = [bareLine] ∧ w.sent = [bareLine, bareLine] ∧
          w.destructor = .returned)) = some true by decide +kernel)
  obtain ⟨haccepted, hsent, hreturned⟩ := of_decide_eq_true hw
  exact ⟨w, hrun, ⟨haccepted, hsent⟩,
    (async_sink_delivers rfl rfl horderly hrun).2.1 hreturned⟩

def fullSink (n : Nat) : SinkWorld where
  queue := [bareLine]
  droppedCount := n % 2 ^ 64
  file := []
  senders := [.idle]
  worker := .locking
  sent := bareLine :: List.replicate n bareLine
  accepted := [bareLine]
  dropped := List.replicate n bareLine

theorem fullSink_drop (n : Nat) :
    runs (SinkWorld.step narrowSetup) (fullSink n) dropCall = some (fullSink (n + 1)) := by
  have hcount : (n % 2 ^ 64 + 1) % 2 ^ 64 = (n + 1) % 2 ^ 64 := by omega
  have hrun : runs (SinkWorld.step narrowSetup) (fullSink n) dropCall =
      some { fullSink n with
        droppedCount := (n % 2 ^ 64 + 1) % 2 ^ 64
        sent := bareLine :: List.replicate n bareLine ++ [bareLine]
        dropped := List.replicate n bareLine ++ [bareLine] } := rfl
  rw [hrun, hcount, List.cons_append, ← List.replicate_succ']
  rfl

theorem fullSink_drops (n : Nat) :
    Meets (SinkWorld.step narrowSetup) SinkWorld.Orderly (fullSink 0)
        (List.replicate n dropCall).flatten ∧
      runs (SinkWorld.step narrowSetup) (fullSink 0) (List.replicate n dropCall).flatten =
        some (fullSink n) := by
  induction n with
  | zero => exact ⟨trivial, rfl⟩
  | succ n ih =>
    rw [List.replicate_succ', List.flatten_append, List.flatten_singleton]
    refine ⟨ih.1.append fun mid hmid => ?_, runs_append.mpr ⟨_, ih.2, fullSink_drop n⟩⟩
    cases Option.some.inj (ih.2.symm.trans hmid)
    exact ⟨rfl, fun _ _ => ⟨trivial, fun _ _ => trivial⟩⟩

theorem fullSink_shutDown (n : Nat) :
    Meets (SinkWorld.step narrowSetup) SinkWorld.Orderly (fullSink n) shutDown ∧
      ∃ w, runs (SinkWorld.step narrowSetup) (fullSink n) shutDown = some w ∧
        w.destructor = .returned ∧ w.accepted = [bareLine] ∧ w.droppedCount = n % 2 ^ 64 ∧
        w.sent = bareLine :: List.replicate n bareLine :=
  ⟨.of_decide rfl, _, rfl, rfl, rfl, rfl, rfl⟩

/-- After `2 ^ 64` dropped lines the counter is back at zero. -/
theorem dropped_count_wraps :
    ∃ w, Meets (SinkWorld.step narrowSetup) SinkWorld.Orderly (SinkWorld.init narrowSetup 1 [])
        (pushCall ++ (List.replicate (2 ^ 64) dropCall).flatten ++ shutDown) ∧
      runs (SinkWorld.step narrowSetup) (SinkWorld.init narrowSetup 1 [])
        (pushCall ++ (List.replicate (2 ^ 64) dropCall).flatten ++ shutDown) = some w ∧
      w.destructor = .returned ∧ w.accepted.length + w.droppedCount ≠ w.sent.length := by
  have hfirst : runs (SinkWorld.step narrowSetup) (SinkWorld.init narrowSetup 1 []) pushCall =
      some (fullSink 0) := rfl
  obtain ⟨hdropMeets, hdropRun⟩ := fullSink_drops (2 ^ 64)
  obtain ⟨hdownMeets, w, hdownRun, hreturned, haccepted, hcount, hsent⟩ :=
    fullSink_shutDown (2 ^ 64)
  have hmid : runs (SinkWorld.step narrowSetup) (SinkWorld.init narrowSetup 1 [])
      (pushCall ++ (List.replicate (2 ^ 64) dropCall).flatten) = some (fullSink (2 ^ 64)) :=
    runs_append.mpr ⟨_, hfirst, hdropRun⟩
  refine ⟨w, ?_, runs_append.mpr ⟨_, hmid, hdownRun⟩, hreturned, ?_⟩
  · refine Meets.append (Meets.append (.of_decide (by decide +kernel)) ?_) ?_
    · intro mid hrun
      cases Option.some.inj (hfirst.symm.trans hrun)
      exact hdropMeets
    · intro mid hrun
      cases Option.some.inj (hmid.symm.trans hrun)
      exact hdownMeets
  · have hlength : w.sent.length = 2 ^ 64 + 1 := by
      rw [hsent, List.length_cons, List.length_replicate]
    rw [haccepted, hcount, hlength, List.length_singleton]
    omega

end Corekit.Log
