import Corekit.Concurrent.LockFreeQueue

/-! What the size counter of the lock-free queue tells. Each call is ahead of or
behind the counter by what it still owes; a call that returns owes nothing. -/
namespace Corekit.Concurrent
open Corekit.Api Corekit.Foundation

variable {T : Type}

def QueueOutcome.Reports : QueueOutcome T → Nat → Prop
  | .pushed _ (some count), entered => count = entered
  | _, _ => True

/-- From here on the command pays what it owes, whatever the queue answers, as
long as no dequeue throws and no enqueue throws after an earlier one of the call. -/
def Settles : QueueCmd T → Int → Nat → Prop
  | .ret (.returned outcome), owed, entered => owed = 0 ∧ outcome.Reports entered
  | .ret .clearing, owed, entered => owed = 0 ∧ entered = 0
  | .op .construct next, owed, entered => ∀ answer, Settles (next answer) owed entered
  | .op (.tryEnqueue _) next, owed, entered =>
    Settles (next (some true)) (owed + 1) (entered + 1) ∧
      Settles (next (some false)) owed entered ∧
      (entered = 0 → Settles (next none) owed entered)
  | .op .tryDequeue next, owed, entered =>
    (∀ value, Settles (next (some (some value))) (owed - 1) entered) ∧
      Settles (next (some none)) owed entered
  | .op (.tryDequeueBulk _) next, owed, entered =>
    ∀ values, Settles (next (some values)) (owed - values.length) entered
  | .op (.fetchAdd count) next, owed, entered =>
    (count : Int) ≤ owed ∧ Settles (next ()) (owed - count) entered
  | .op (.fetchSub count) next, owed, entered => Settles (next ()) (owed + count) entered
  | .op (.copyOut _) next, owed, entered => ∀ answer, Settles (next answer) owed entered

section Programs

theorem enqueueOne_settles (value : T) : Settles (enqueueOne value) 0 0 := by
  simp [enqueueOne, Settles, QueueOutcome.Reports]

theorem addDone_settles {done : Nat} {outcome : QueueOutcome T}
    (h : outcome.Reports done) : Settles (addDone done (.ret (.returned outcome))) done done := by
  unfold addDone
  split
  · simp [Settles, h]
  · simp only [Settles, h, and_true]
    omega

/-- The loop is at `done` elements, all of them enqueued and none counted. -/
theorem tryPushBatchLoop_settles {pushed : Option Nat} (hpushed : ∀ n ∈ pushed, n = 0)
    (values : List T) (done : Nat) :
    Settles (tryPushBatchLoop pushed values done) done done := by
  have hreports (status : Status) :
      (QueueOutcome.pushed status (pushed.map fun _ => done) : QueueOutcome T).Reports done := by
    cases pushed <;> simp [QueueOutcome.Reports]
  induction values generalizing done with
  | nil => exact addDone_settles (hreports _)
  | cons value rest ih =>
    refine ⟨?_, addDone_settles (hreports _), fun hdone => ?_⟩
    · have hnext := ih (done + 1) fun status => by cases pushed <;> simp [QueueOutcome.Reports]
      push_cast at hnext
      exact hnext
    · subst hdone
      refine ⟨rfl, ?_⟩
      cases pushed with
      | none => trivial
      | some count => exact hpushed count rfl

theorem tryPushBatch_settles (values : Option (List T)) (count : Nat) (pushed : Option Nat) :
    Settles (tryPushBatch values count pushed) 0 0 := by
  unfold tryPushBatch
  split
  · refine ⟨rfl, ?_⟩
    cases pushed <;> simp [QueueOutcome.Reports]
  · exact tryPushBatchLoop_settles (by simp) _ 0

theorem clearRound_settles : Settles (clearRound : QueueCmd T) 0 0 := by
  simp [clearRound, Settles, QueueOutcome.Reports]

theorem tryPop_settles : Settles (tryPop : QueueCmd T) 0 0 := by
  rintro (_ | _)
  · exact ⟨rfl, trivial⟩
  · refine ⟨fun value => ?_, rfl, trivial⟩
    rintro (_ | _)
    · exact ⟨rfl, trivial⟩
    · exact ⟨rfl, trivial⟩

theorem tryPopBatch_settles (outValues : Bool) (capacity : Nat) (popped : Option Nat) :
    Settles (tryPopBatch outValues capacity popped : QueueCmd T) 0 0 := by
  unfold tryPopBatch
  split
  · exact ⟨rfl, trivial⟩
  · rintro (_ | ⟨value, rest⟩)
    · exact ⟨rfl, trivial⟩
    · refine ⟨?_, trivial⟩
      simp only [List.length_cons]
      omega

theorem QueueCall.program_settles (call : QueueCall T) : Settles call.program 0 0 := by
  cases call with
  | tryPush value => exact enqueueOne_settles value
  | tryPushMove value => exact enqueueOne_settles value
  | tryPushBatch values count pushed => exact tryPushBatch_settles values count pushed
  | tryPop => exact tryPop_settles
  | tryPopBatch outValues capacity popped => exact tryPopBatch_settles outValues capacity popped
  | clear =>
    rintro (_ | _)
    · exact ⟨rfl, trivial⟩
    · exact clearRound_settles

end Programs

theorem takeOut_length {picks : List Nat} {queue taken rest : List T}
    (h : takeOut picks queue = some (taken, rest)) :
    taken.length = picks.length ∧ rest.length + taken.length = queue.length := by
  induction picks generalizing queue taken rest with
  | nil =>
    cases h
    simp
  | cons pick picks ih =>
    obtain ⟨value, hvalue, h⟩ := Option.bind_eq_some_iff.mp h
    obtain ⟨⟨taken', rest'⟩, htake, heq⟩ := Option.map_eq_some_iff.mp h
    cases heq
    obtain ⟨hpicks, hrest⟩ := ih htake
    have hbound := (List.getElem?_eq_some_iff.mp hvalue).1
    have herase := List.length_eraseIdx_of_lt hbound
    simp only [List.length_cons]
    omega

/-- Where an operation keeps the counter right: an enqueue throws only as the
first of its call, a dequeue does not throw, and a subtraction leaves the counter
enough for the elements that are in the queue or held by other consumers. -/
def QueueWorld.allows (w : QueueWorld T) (r : QueueRunning T) (choice : QueueChoice) : Bool :=
  match r.program, choice with
  | .op (.tryEnqueue _) _, .throws _ => r.entered = 0
  | .op .tryDequeue _, .throws _ => false
  | .op (.tryDequeueBulk _) _, .throws _ => false
  | .op (.fetchSub count) _, _ => w.uncounted + count ≤ w.shared.queue.length + w.unsubtracted
  | _, _ => true

structure Fair (w : QueueWorld T) (r : QueueRunning T) (after : QueueShared T)
    (next : QueueCmd T) : Prop where
  settles : Settles next (r.moved w.shared after next).owed (r.moved w.shared after next).entered
  held : after.queue.length + (-(r.moved w.shared after next).owed).toNat ≤
    w.shared.queue.length + (-r.owed).toNat +
      (after.queue.length - w.shared.queue.length)
  fits : after.queue.length < maxElements
  nonneg : 0 ≤ after.size

namespace Fair

variable {w : QueueWorld T} {r : QueueRunning T} {next : QueueCmd T}

theorem same (hfits : w.shared.queue.length < maxElements) (hnonneg : 0 ≤ w.shared.size)
    (h : Settles next r.owed r.entered) : Fair w r w.shared next where
  settles := by simpa [QueueRunning.moved] using h
  held := by simp [QueueRunning.moved]
  fits := hfits
  nonneg := hnonneg

theorem enqueue {value : T} (hfits : w.shared.queue.length + 1 < maxElements)
    (hnonneg : 0 ≤ w.shared.size) (h : Settles next (r.owed + 1) (r.entered + 1)) :
    Fair w r { w.shared with queue := w.shared.queue ++ [value] } next where
  settles := by
    have howed : r.owed + ((w.shared.queue.length + 1 : Nat) - w.shared.size -
        (w.shared.queue.length - w.shared.size)) = r.owed + 1 := by
      omega
    simpa [QueueRunning.moved, QueueShared.lead, howed] using h
  held := by
    simp only [QueueRunning.moved, QueueShared.lead, List.length_append, List.length_singleton]
    omega
  fits := by simpa using hfits
  nonneg := hnonneg

theorem taken {rest : List T} {count : Nat} (hfits : w.shared.queue.length < maxElements)
    (hnonneg : 0 ≤ w.shared.size) (hcount : rest.length + count = w.shared.queue.length)
    (h : Settles next (r.owed - count) r.entered) :
    Fair w r { w.shared with queue := rest } next where
  settles := by
    have howed : r.owed + ((rest.length : Int) - w.shared.size -
        (w.shared.queue.length - w.shared.size)) = r.owed - count := by
      omega
    have hentered : r.entered + (rest.length - w.shared.queue.length) = r.entered := by omega
    simpa only [QueueRunning.moved, QueueShared.lead, howed, hentered] using h
  held := by
    simp only [QueueRunning.moved, QueueShared.lead]
    omega
  fits := by
    change rest.length < maxElements
    omega
  nonneg := hnonneg

theorem recount {size : Int} (hfits : w.shared.queue.length < maxElements) (hnonneg : 0 ≤ size)
    (hheld : (-(r.owed - (size - w.shared.size))).toNat ≤ (-r.owed).toNat)
    (h : Settles next (r.owed - (size - w.shared.size)) r.entered) :
    Fair w r { w.shared with size := size } next where
  settles := by
    have howed : r.owed + ((w.shared.queue.length : Int) - size -
        (w.shared.queue.length - w.shared.size)) = r.owed - (size - w.shared.size) := by
      omega
    simpa only [QueueRunning.moved, QueueShared.lead, howed, Nat.sub_self, Nat.add_zero] using h
  held := by
    simp only [QueueRunning.moved, QueueShared.lead]
    omega
  fits := hfits
  nonneg := hnonneg

end Fair

theorem QueueShared.perform_fair {w : QueueWorld T} {r : QueueRunning T} {o : QueueOp T}
    {next : o.Res → QueueCmd T} {choice : QueueChoice} {answer : o.Res} {after : QueueShared T}
    (hfits : w.shared.queue.length < maxElements) (hnonneg : 0 ≤ w.shared.size)
    (hlead : w.shared.lead = w.uncounted - w.unsubtracted)
    (hprogram : r.program = .op o next) (hsettles : Settles r.program r.owed r.entered)
    (hallows : w.allows r choice = true)
    (h : w.shared.perform o choice = some (answer, after)) : Fair w r after (next answer) := by
  rw [hprogram] at hsettles
  simp only [QueueWorld.allows, hprogram] at hallows
  cases o with
  | construct =>
    rcases choice with (_ | _) | _ | (_ | _) <;> cases h
    · exact .same hfits hnonneg (hsettles _)
    · exact .same hfits hnonneg (hsettles _)
  | tryEnqueue value =>
    rcases choice with (_ | _) | _ | (_ | _)
    · obtain ⟨hroom, heq⟩ := Option.ite_none_right_eq_some.mp h
      cases heq
      exact .enqueue hroom hnonneg hsettles.1
    · cases h
    · cases h
      exact .same hfits hnonneg hsettles.2.1
    · cases h
      exact .same hfits hnonneg (hsettles.2.2 (of_decide_eq_true hallows))
    · cases h
  | tryDequeue =>
    rcases choice with (_ | ⟨pick, _ | _⟩) | _ | _
    · cases h
    · obtain ⟨⟨taken, rest⟩, htake, heq⟩ := Option.map_eq_some_iff.mp h
      cases heq
      obtain ⟨hone, hrest⟩ := takeOut_length htake
      obtain ⟨value, rfl⟩ := List.length_eq_one_iff.mp hone
      exact .taken hfits hnonneg hrest (hsettles.1 value)
    · cases h
    · cases h
      exact .same hfits hnonneg hsettles.2
    · cases hallows
  | tryDequeueBulk capacity =>
    rcases choice with picks | _ | _
    · obtain ⟨_, h⟩ := Option.ite_none_right_eq_some.mp h
      obtain ⟨⟨taken, rest⟩, htake, heq⟩ := Option.map_eq_some_iff.mp h
      cases heq
      exact .taken hfits hnonneg (takeOut_length htake).2 (hsettles taken)
    · cases h
    · cases hallows
  | fetchAdd count =>
    rcases choice with (_ | _) | _ | _ <;> cases h
    have hmove : w.shared.size + count - w.shared.size = count := by omega
    refine .recount hfits (by omega) ?_ ?_
    · rw [hmove]
      have := hsettles.1
      omega
    · rw [hmove]
      exact hsettles.2
  | fetchSub count =>
    rcases choice with (_ | _) | _ | _ <;> cases h
    have hmove : w.shared.size - count - w.shared.size = -count := by omega
    have hcovered := of_decide_eq_true hallows
    refine .recount hfits ?_ ?_ ?_
    · simp only [lead] at hlead
      omega
    · rw [hmove]
      omega
    · rw [hmove, sub_neg_eq_add]
      exact hsettles
  | copyOut value =>
    rcases choice with (_ | _) | _ | (_ | _) <;> cases h
    · exact .same hfits hnonneg (hsettles _)
    · exact .same hfits hnonneg (hsettles _)

theorem slotSum_owedOf (threads : List (Option (QueueRunning T))) :
    slotSum (fun _ slot => owedOf slot) threads =
      (slotSum (fun _ slot => (owedOf slot).toNat) threads : Nat) -
        (slotSum (fun _ slot => (-owedOf slot).toNat) threads : Nat) := by
  induction threads with
  | nil => rfl
  | cons slot rest ih =>
    rw [slotSum_cons, slotSum_cons, slotSum_cons, ih]
    omega

structure QueueInv (w : QueueWorld T) : Prop where
  lead : w.shared.lead = slotSum (fun _ slot => owedOf slot) w.threads
  held : w.shared.queue.length + w.unsubtracted ≤ w.enqueued
  fits : w.shared.queue.length < maxElements
  nonneg : 0 ≤ w.shared.size
  settles : ∀ (i : Nat) slot, w.threads[i]? = some slot →
    ∀ r : QueueRunning T, slot = some r → Settles r.program r.owed r.entered
  reports : ∀ ret ∈ w.returned, ret.outcome.Reports ret.entered

namespace QueueWorld

variable {w w' : QueueWorld T}

def keepsCount (w : QueueWorld T) : QueueLabel T → Bool
  | .call _ _ => true
  | .step thread choice =>
    match w.threads[thread]? with
    | some (some r) => w.allows r choice
    | _ => true

theorem start_inv (count : Nat) : QueueInv (start count : QueueWorld T) := by
  have hnone : ∀ (i : Nat) (slot : Option (QueueRunning T)),
      (List.replicate count none)[i]? = some slot → slot = none := by
    intro i slot h
    exact List.eq_of_mem_replicate (List.mem_of_getElem? h)
  refine ⟨?_, ?_, by simp [start, maxElements], le_refl _, fun i slot h r hr => ?_, by simp [start]⟩
  · symm
    apply slotSum_eq_zero
    intro i slot h
    rw [hnone i slot h]
    rfl
  · change 0 + slotSum _ (List.replicate count none) ≤ 0
    rw [Nat.zero_add, slotSum_eq_zero]
    intro i slot h
    rw [hnone i slot h]
    rfl
  · rw [hnone i slot h] at hr
    cases hr

theorem inv_move {thread enqueued : Nat} {old new : Option (QueueRunning T)}
    {after : QueueShared T} {returned : List (QueueReturn T)} (hinv : QueueInv w)
    (hold : w.threads[thread]? = some old)
    (hlead : after.lead + owedOf old = w.shared.lead + owedOf new)
    (hheld : after.queue.length + (-owedOf new).toNat + w.enqueued ≤
      w.shared.queue.length + (-owedOf old).toNat + enqueued)
    (hfits : after.queue.length < maxElements) (hnonneg : 0 ≤ after.size)
    (hsettles : ∀ r : QueueRunning T, new = some r → Settles r.program r.owed r.entered)
    (hreports : ∀ ret ∈ returned, ret.outcome.Reports ret.entered) :
    QueueInv { shared := after, threads := w.threads.set thread new, enqueued, returned } := by
  refine ⟨?_, ?_, hfits, hnonneg, forall_slots_set hinv.settles hsettles, hreports⟩
  · have hset := slotSum_set (fun _ slot => owedOf slot) new hold
    have hbefore := hinv.lead
    change after.lead = slotSum (fun _ slot => owedOf slot) (w.threads.set thread new)
    omega
  · have hset := slotSum_set (fun _ slot => (-owedOf slot).toNat) new hold
    have hbefore := hinv.held
    simp only [unsubtracted] at hbefore ⊢
    omega

theorem advance_inv {thread : Nat} {r : QueueRunning T} {choice : QueueChoice}
    (hinv : QueueInv w) (hslot : w.threads[thread]? = some (some r))
    (hallows : w.allows r choice = true) (h : w.advance thread r choice = some w') :
    QueueInv w' := by
  have hsettles := hinv.settles thread _ hslot r rfl
  unfold advance at h
  split at h
  · next outcome hprogram =>
    cases h
    rw [hprogram] at hsettles
    have howed : owedOf (some r) = 0 := hsettles.1
    refine inv_move hinv hslot ?_ ?_ hinv.fits hinv.nonneg (by simp) fun ret hret => ?_
    · simp only [howed]
      rfl
    · simp only [howed]
      exact le_refl _
    · rcases List.mem_append.mp hret with hret | hret
      · exact hinv.reports ret hret
      · cases List.mem_singleton.mp hret
        exact hsettles.2
  · next hprogram =>
    cases h
    rw [hprogram] at hsettles
    refine inv_move hinv hslot rfl (le_refl _) hinv.fits hinv.nonneg ?_ hinv.reports
    rintro _ ⟨rfl⟩
    rw [hsettles.1, hsettles.2]
    exact clearRound_settles
  · next o next hprogram =>
    obtain ⟨⟨answer, after⟩, hperform, rfl⟩ := Option.map_eq_some_iff.mp h
    have hfair := QueueShared.perform_fair hinv.fits hinv.nonneg
      (hinv.lead.trans (slotSum_owedOf w.threads)) hprogram hsettles hallows hperform
    have hheld := hfair.held
    refine inv_move hinv hslot ?_ ?_ hfair.fits hfair.nonneg ?_ hinv.reports
    · change after.lead + r.owed = w.shared.lead + (r.owed + (after.lead - w.shared.lead))
      omega
    · change after.queue.length + (-(r.moved w.shared after (next answer)).owed).toNat +
        w.enqueued ≤ w.shared.queue.length + (-r.owed).toNat + _
      omega
    · rintro _ ⟨rfl⟩
      exact hfair.settles

theorem step_inv {label : QueueLabel T} (hinv : QueueInv w) (hkeeps : w.keepsCount label = true)
    (h : w.step label = some w') : QueueInv w' := by
  cases label with
  | call thread call =>
    simp only [step] at h
    split at h
    · next hslot =>
      cases h
      refine inv_move hinv hslot rfl (le_refl _) hinv.fits hinv.nonneg ?_ hinv.reports
      rintro _ ⟨rfl⟩
      exact call.program_settles
    · cases h
  | step thread choice =>
    simp only [step] at h
    split at h
    · next r hslot =>
      refine advance_inv hinv hslot ?_ h
      simpa only [keepsCount, hslot] using hkeeps
    · cases h

end QueueWorld

structure CountsRight (w : QueueWorld T) : Prop where
  bounded : w.approxSize ≤ w.enqueued
  exact : w.Quiescent → w.approxSize = w.shared.queue.length
  empty : w.Quiescent → (w.isEmpty = true ↔ w.shared.queue = [])
  pushed : ∀ ret ∈ w.returned, ∀ count, ret.reported = some count → count = ret.entered

theorem QueueInv.countsRight {w : QueueWorld T} (hinv : QueueInv w) : CountsRight w := by
  have hsize : w.shared.size.toNat ≤ w.enqueued := by
    have hlead := hinv.lead.trans (slotSum_owedOf w.threads)
    have hheld := hinv.held
    simp only [QueueShared.lead, QueueWorld.unsubtracted] at hlead hheld
    omega
  have hexact : w.Quiescent → w.approxSize = w.shared.queue.length := by
    intro hquiet
    have hzero : slotSum (fun _ slot => owedOf slot) w.threads = 0 := by
      apply slotSum_eq_zero
      intro i slot hslot
      rw [Option.isNone_iff_eq_none.mp (hquiet slot (List.mem_of_getElem? hslot))]
      rfl
    have hlead := hinv.lead
    have hfits := hinv.fits
    rw [hzero, QueueShared.lead] at hlead
    simp only [QueueWorld.approxSize, maxElements] at hfits ⊢
    omega
  refine ⟨?_, hexact, fun hquiet => ?_, fun ret hret count hpushed => ?_⟩
  · have hnonneg := hinv.nonneg
    simp only [QueueWorld.approxSize]
    omega
  · rw [QueueWorld.isEmpty, hexact hquiet, decide_eq_true_eq, List.length_eq_zero_iff]
  · have hreports := hinv.reports ret hret
    unfold QueueReturn.reported at hpushed
    split at hpushed
    · next houtcome =>
      rw [houtcome, hpushed] at hreports
      exact hreports
    · cases hpushed

/-- Every state of a run the steps of which keep the counter right. -/
theorem queue_size_never_lies (count : Nat) (labels : List (QueueLabel T)) (w : QueueWorld T)
    (hmeets : Meets QueueWorld.step (fun w label => w.keepsCount label = true)
      (QueueWorld.start count) labels)
    (hrun : runs QueueWorld.step (QueueWorld.start count) labels = some w) : CountsRight w :=
  (runs_invariant_of_meets (fun _ _ _ hinv hkeeps hstep => QueueWorld.step_inv hinv hkeeps hstep)
    (QueueWorld.start_inv count) hmeets hrun).countsRight

def orderlyRun : List (QueueLabel Nat) :=
  [.call 0 (.tryPushBatch (some [5, 6]) 2 (some 0)), .step 0 (.goes []), .step 0 (.goes []),
    .step 0 (.goes []), .step 0 (.goes []), .call 1 .tryPop, .step 1 (.goes []),
    .step 1 (.goes [0]), .step 1 (.goes []), .step 1 (.goes []), .step 1 (.goes [])]

theorem queue_size_never_lies_orderly :
    ∃ w, runs QueueWorld.step (QueueWorld.start 2) orderlyRun = some w ∧
      w.shared.queue = [6] ∧ w.approxSize = 1 ∧ CountsRight w := by
  obtain ⟨w, hrun, hw⟩ := Option.map_eq_some_iff.mp
    (show (runs QueueWorld.step (QueueWorld.start 2) orderlyRun).map
      (fun w => (w.shared.queue, w.approxSize)) = some ([6], 1) by decide +kernel)
  exact ⟨w, hrun, congrArg Prod.fst hw, congrArg Prod.snd hw,
    queue_size_never_lies 2 orderlyRun w (.of_checks (fun _ _ h => h) (by decide +kernel)) hrun⟩

/-- A batch of two of which the second element throws when it is copied. -/
def brokenBatch : List (QueueLabel Nat) :=
  [.call 0 (.tryPushBatch (some [5, 6]) 2 (some 7)), .step 0 (.goes []), .step 0 (.throws []),
    .step 0 (.goes [])]

/-- A consumer takes the element before the producer has counted it. -/
def overtakenPush : List (QueueLabel Nat) :=
  [.call 0 (.tryPush 5), .step 0 (.goes []), .call 1 .tryPop, .step 1 (.goes []),
    .step 1 (.goes [0]), .step 1 (.goes [])]

/-- The batch reports that it enqueued nothing, and the queue holds its first
element and says that it is empty; the overtaken push leaves a size of 2^64 - 1. -/
theorem broken_batch_and_overtaken_push_miscount :
    (∃ w, runs QueueWorld.step (QueueWorld.start 2) brokenBatch = some w ∧ w.Quiescent ∧
      w.shared.queue = [5] ∧ w.approxSize = 0 ∧ w.isEmpty = true ∧
      (w.returned.map fun ret => (ret.reported, ret.entered)) = [(some 0, 1)] ∧
      ¬ CountsRight w) ∧
    (∃ w, runs QueueWorld.step (QueueWorld.start 2) overtakenPush = some w ∧
      w.enqueued = 1 ∧ w.approxSize = 2 ^ 64 - 1 ∧ ¬ CountsRight w) := by
  constructor
  · obtain ⟨w, hrun, hw⟩ := Option.map_eq_some_iff.mp
      (show (runs QueueWorld.step (QueueWorld.start 2) brokenBatch).map
        (fun w => decide ((∀ slot ∈ w.threads, slot.isNone = true) ∧ w.shared.queue = [5] ∧
          w.approxSize = 0 ∧ w.isEmpty = true ∧
          (w.returned.map fun ret => (ret.reported, ret.entered)) = [(some 0, 1)])) =
        some true by decide +kernel)
    obtain ⟨hquiet, hqueue, hsize, hempty, hreturned⟩ := of_decide_eq_true hw
    refine ⟨w, hrun, hquiet, hqueue, hsize, hempty, hreturned, fun hright => ?_⟩
    have hexact := hright.exact hquiet
    rw [hqueue, hsize] at hexact
    cases hexact
  · obtain ⟨w, hrun, hw⟩ := Option.map_eq_some_iff.mp
      (show (runs QueueWorld.step (QueueWorld.start 2) overtakenPush).map
        (fun w => (w.enqueued, w.approxSize)) = some (1, 2 ^ 64 - 1) by decide +kernel)
    have henqueued : w.enqueued = 1 := congrArg Prod.fst hw
    have hsize : w.approxSize = 2 ^ 64 - 1 := congrArg Prod.snd hw
    refine ⟨w, hrun, henqueued, hsize, fun hright => ?_⟩
    have hbounded := hright.bounded
    rw [henqueued, hsize] at hbounded
    exact absurd hbounded (by decide)

end Corekit.Concurrent
