import Corekit.Task.GraphProgress
import Corekit.Task.ParallelRange

/-! `ParallelFor` on the thread pool itself, among whatever other clients do
meanwhile. What it has submitted is read off the calls that its client has made. -/
namespace Corekit.Task
open Corekit.Api Corekit.Foundation

theorem submittedIds_snoc (log : List (Call × Answer)) (x : Call × Answer) :
    submittedIds (log ++ [x]) = submittedIds log ++ submittedIds [x] := List.filterMap_append

theorem submittedIds_of_noTask {call : Call} {result : Answer}
    (h : ∀ id, result ≠ .task (.ok id)) : submittedIds [(call, result)] = [] := by
  rw [submittedIds, List.filterMap_cons]
  split
  · rfl
  · next hsome =>
    split at hsome
    · next heq =>
      cases heq
      exact absurd rfl (h _)
    · cases hsome

theorem mem_of_submittedIds {log : List (Call × Answer)} {id : TaskId}
    (h : id ∈ submittedIds log) : ∃ call, (call, Answer.task (.ok id)) ∈ log := by
  obtain ⟨x, hx, hid⟩ := List.mem_filterMap.mp h
  split at hid
  · cases Option.some.inj hid
    exact ⟨_, hx⟩
  · cases hid

/-- A call that returned as `SubmitEx` and `WaitBatch` return: a refusal is an
error, and a batch without a timeout ends with kOk when its ids are marked done. -/
def ReturnsWell (marked : List TaskId) : Call × Answer → Prop
  | (.submitEx true _, .task (.error status)) => status.ok = false
  | (.waitBatch (some ids) 0, .status status) => status.ok = true → ∀ id ∈ ids, id ∈ marked
  | _ => True

theorem ReturnsWell.mono {marked marked' : List TaskId} {x : Call × Answer}
    (hmono : ∀ id ∈ marked, id ∈ marked') (h : ReturnsWell marked x) : ReturnsWell marked' x := by
  unfold ReturnsWell at h ⊢
  split
  · exact h
  · exact fun hok id hid => hmono id (h hok id hid)
  · trivial

namespace Machine

variable {m m' : Machine} {c : Nat}

/-- The log of a client: no id twice, and every call has returned well. -/
structure Receipts (c : Nat) (m : Machine) : Prop where
  awaits : m.Awaits c
  fresh : (submittedIds (m.clients c).log).Nodup
  returned : ∀ x ∈ (m.clients c).log, ReturnsWell m.history.marked x

theorem Receipts.start (hready : (m.clients c).pc = .ready) (hlog : (m.clients c).log = []) :
    m.Receipts c where
  awaits := .of_ready hready
  fresh := by
    rw [hlog]
    exact List.nodup_nil
  returned := by
    rw [hlog]
    exact fun x hx => absurd hx List.not_mem_nil

theorem Receipts.snoc {n : Machine} {call : Call} {next : Answer → Program Unit} {result : Answer}
    (hm : m.Receipts c) (hclients : n.clients = m.clients)
    (hmarked : n.history.marked = m.history.marked)
    (hawaits : (n.answer c call next result).Awaits c)
    (hid : ∀ id ∈ submittedIds [(call, result)], id ∉ submittedIds (m.clients c).log)
    (hreturns : ReturnsWell m.history.marked (call, result)) :
    (n.answer c call next result).Receipts c := by
  have hlog : ((n.answer c call next result).clients c).log =
      (m.clients c).log ++ [(call, result)] := by simp [answer, hclients]
  refine ⟨hawaits, ?_, ?_⟩
  · rw [hlog, submittedIds_snoc, List.nodup_append]
    refine ⟨hm.fresh, ?_, fun a ha b hb heq => hid b hb (heq ▸ ha)⟩
    rw [submittedIds, List.filterMap_cons]
    split <;> simp
  · rw [hlog]
    intro x hx
    simp only [answer, hmarked]
    rcases List.mem_append.mp hx with hx | hx
    · exact hm.returned x hx
    · rw [List.mem_singleton.mp hx]
      exact hreturns

theorem returnsWell_of_reply {call : Call} {next : Answer → Program Unit} {result : Answer}
    {choice : Bool} (hm : m.Receipts c) (hknown : m.Known)
    (hprogram : (m.clients c).program = .op call next)
    (hstep : m.stepClient c choice = some m')
    (hreply : (m'.clients c).log = (m.clients c).log ++ [(call, result)])
    (replies : Replies m.pool (m.clients c).pc call result) :
    ReturnsWell m.history.marked (call, result) := by
  unfold ReturnsWell
  split
  · next options status heq =>
    cases heq
    -- a submission with a function does not return at once
    generalize hpc : (m.clients c).pc = pc at replies
    cases replies with
    | atOnce noWait noTask =>
      simp only [stepClient, hprogram, hpc, beginCall, Option.some.injEq] at hstep
      subst hstep
      simp [setPc] at hreply
  · next ids status heq =>
    cases heq
    intro hok
    have hposition := hm.awaits.position ids next hprogram
    generalize (m.clients c).pc = pc at replies hposition
    cases replies with
    | atOnce noWait noTask => simp [noWait ids 0 rfl]
    | missing h => cases hok
    | batchTimeout h => cases hok
    | timeout h => cases hok
    | waited hdone =>
      obtain ⟨-, before, hids, hmarked⟩ := hposition
      intro id hid
      rw [hids] at hid
      rcases List.mem_append.mp hid with hid | hid
      · exact hmarked trivial id hid
      · rw [List.mem_singleton.mp hid]
        exact (hknown.table.flags _).mp hdone
  · trivial

theorem Receipts.client {choice : Bool} (hm : m.Receipts c) (hknown : m.Known)
    (h : m.stepClient c choice = some m') (hawaits : m'.Awaits c) : m'.Receipts c := by
  have hstep := h
  obtain ⟨call, next, hprogram, move⟩ := stepClient_cases h
  have hnone : ∀ {result : Answer}, (∀ id, result ≠ .task (.ok id)) →
      ∀ id ∈ submittedIds [(call, result)], id ∉ submittedIds (m.clients c).log := by
    intro result hresult id hid
    rw [submittedIds_of_noTask hresult] at hid
    exact absurd hid List.not_mem_nil
  have hstay : ∀ {n : Machine} {pc : ClientPc}, n.clients = m.clients →
      n.history.marked = m.history.marked → (n.setPc c pc).Awaits c →
        (n.setPc c pc).Receipts c := by
    intro n pc hclients hmarked hawaits
    have hlog : ((n.setPc c pc).clients c).log = (m.clients c).log := by simp [setPc, hclients]
    refine ⟨hawaits, hlog ▸ hm.fresh, ?_⟩
    rw [hlog]
    simpa only [setPc, hmarked] using hm.returned
  cases move with
  | reply pool result quiet keyHolder replies =>
    refine hm.snoc rfl rfl hawaits (hnone (Replies.noTask replies)) ?_
    exact returnsWell_of_reply hm hknown hprogram hstep (by simp [answer]) replies
  | goto pc goes => exact hstay rfl rfl hawaits
  | submit hpc hcall =>
    subst hcall
    exact hm.snoc rfl rfl hawaits (hnone (by simp)) trivial
  | register options hpc => exact hstay rfl rfl hawaits
  | refuse options id state hpc refused => exact hstay rfl rfl hawaits
  | accept options id state hpc ok =>
    refine hm.snoc rfl rfl hawaits (fun other hother hold => ?_) ?_
    · have hfresh := (hknown.ledger.pending c id (by rw [hpc]; rfl)).2
      obtain ⟨call', hmem⟩ := mem_of_submittedIds hother
      cases List.mem_singleton.mp hmem
      obtain ⟨call', hmem⟩ := mem_of_submittedIds hold
      exact hfresh (hknown.ledger.returned id ⟨c, call', hmem⟩)
    · unfold ReturnsWell
      split
      · next heq => cases heq
      · next heq => cases heq
      · trivial
  | undo id refused hpc =>
    refine hm.snoc rfl rfl hawaits (hnone (by simp)) ?_
    have hrefused := hm.awaits.refused id refused hpc
    unfold ReturnsWell
    split
    · next heq =>
      cases heq
      exact hrefused
    · next heq => cases heq
    · trivial

theorem Receipts.step {label : Label} (hm : m.Receipts c) (hknown : m.Known)
    (h : m.step label = some m') : m'.Receipts c := by
  have hawaits := hm.awaits.step hknown h
  by_cases hother : ∀ choice, label ≠ .client c choice
  · have hclient := client_of_other h hother
    refine ⟨hawaits, hclient ▸ hm.fresh, ?_⟩
    rw [hclient]
    exact fun x hx => (hm.returned x hx).mono fun id => marked_mono h
  · obtain ⟨choice, rfl⟩ : ∃ choice, label = .client c choice := by
      push Not at hother
      exact hother
    exact hm.client hknown h hawaits

end Machine

theorem Watch.receipts_of_run {options : ExecutorOptions} {hardwareConcurrency : Nat}
    {programs : Nat → Program Unit} {labels : List Label} {w : Watch}
    (h : runs Watch.step (Watch.start options hardwareConcurrency programs) labels = some w)
    (hlap : w.machine.FirstLap) (c : Nat) : w.machine.Receipts c := by
  have hkept : ∀ (w : Watch) label w', w.Faithful ∧ w.machine.Receipts c →
      w'.machine.FirstLap → w.step label = some w' → w'.Faithful ∧ w'.machine.Receipts c := by
    rintro w label w' ⟨hw, hreceipts⟩ hlap hstep
    have hfaithful := hw.step hlap hstep
    obtain ⟨m, hm, rfl⟩ := Option.map_eq_some_iff.mp hstep
    exact ⟨hfaithful, hreceipts.step hw.known hm⟩
  exact (runs_invariant_below firstLap_before hkept ⟨.start _ _ _, .start rfl rfl⟩ h hlap).2

def ChunkOp.taken : ChunkOp → Answer → List (TaskId × Nat × Nat)
  | .submitEx chunkBegin chunkEnd, .task (.ok id) => [(id, chunkBegin, chunkEnd)]
  | _, _ => []

/-- What the calls of a log have made of `ParallelFor`: what is left of it, and the
chunks it has submitted. -/
def ChunkProgram.replay {α : Type} :
    ChunkProgram α → List (Call × Answer) → ChunkProgram α × List (TaskId × Nat × Nat)
  | .op o next, x :: log =>
    let later := replay (next (o.read x.2)) log
    (later.1, o.taken x.2 ++ later.2)
  | p, _ => (p, [])

section Replay

variable {α : Type} {rest : α → Program Unit} {q : Program Unit} {log : List (Call × Answer)}

theorem Follows.chunk {o : ChunkOp} {next : o.Res → ChunkProgram α} {x : Call × Answer}
    (h : Follows ((ChunkProgram.onExecutor (.op o next)).bind rest) (x :: log) q) :
    x.1 = o.call ∧ Follows ((ChunkProgram.onExecutor (next (o.read x.2))).bind rest) log q := by
  cases h with
  | cons htail => exact ⟨rfl, htail⟩

theorem ChunkOp.taken_ids {o : ChunkOp} {x : Call × Answer} (hcall : x.1 = o.call) :
    (o.taken x.2).map Prod.fst = submittedIds [x] := by
  obtain ⟨call, result⟩ := x
  cases hcall
  cases o with
  | submitEx chunkBegin chunkEnd =>
    rcases result with _ | (_ | _) | _ | _ | _ <;> rfl
  | waitBatch ids => rfl

theorem ChunkProgram.replay_tasks {p : ChunkProgram α}
    (h : Follows ((ChunkProgram.onExecutor p).bind rest) log q) :
    ((ChunkProgram.replay p log).2.map Prod.fst).Sublist (submittedIds log) := by
  induction log generalizing p with
  | nil => cases p <;> exact List.nil_sublist _
  | cons x log ih =>
    cases p with
    | ret value => exact List.nil_sublist _
    | op o next =>
      obtain ⟨hcall, htail⟩ := h.chunk
      have hsplit : submittedIds (x :: log) = submittedIds [x] ++ submittedIds log :=
        List.filterMap_append (l := [x])
      rw [replay, hsplit, List.map_append, ChunkOp.taken_ids hcall]
      exact (ih htail).append_left _

/-- Until it has returned, the client is in `ParallelFor`. -/
theorem ChunkProgram.replay_rest {p : ChunkProgram α}
    (h : Follows ((ChunkProgram.onExecutor p).bind rest) log q) :
    (∃ value, (ChunkProgram.replay p log).1 = .ret value) ∨
      q = (ChunkProgram.onExecutor (ChunkProgram.replay p log).1).bind rest := by
  induction log generalizing p with
  | nil =>
    have hsame : q = (ChunkProgram.onExecutor p).bind rest := by
      generalize (ChunkProgram.onExecutor p).bind rest = first at h
      cases h
      rfl
    cases p <;> exact .inr hsame
  | cons x log ih =>
    cases p with
    | ret value => exact .inl ⟨value, rfl⟩
    | op o next => exact ih h.chunk.2

/-- What a log has made of the loop from its `k`-th chunk on: it has submitted
chunk after chunk, waits for no other tasks, and ends with kOk only after the last
chunk, when the tasks of all of them are marked done. -/
structure LoopRan (start stop grain last : Nat) (marked : List TaskId) (k fuel : Nat)
    (ids : List TaskId) (ran : ChunkProgram (Option Status) × List (TaskId × Nat × Nat)) :
    Prop where
  chunks : ∃ n, k + n ≤ last ∧
    firstChunks start stop grain k ++ ran.2.map Prod.snd = firstChunks start stop grain (k + n) ∧
    ∀ status, ran.1 = .ret (some status) → status.ok = true → k + n = last
  marked : ∀ status, ran.1 = .ret (some status) → status.ok = true →
    ∀ id ∈ ids ++ ran.2.map Prod.fst, id ∈ marked
  waits : ∀ batch next, ran.1 = .op (.waitBatch batch) next →
    ∀ id ∈ batch, id ∈ ids ++ ran.2.map Prod.fst
  ends : last - k < fuel → ran.1 ≠ .ret none

section Loop

variable {start stop grain last k fuel : Nat} {ids marked : List TaskId}

theorem LoopRan.stops {p : ChunkProgram (Option Status)} (hk : k ≤ last)
    (hlast : ∀ status, p = .ret (some status) → status.ok = true →
      k = last ∧ ∀ id ∈ ids, id ∈ marked)
    (hwaits : ∀ batch next, p = .op (.waitBatch batch) next → batch = ids)
    (hends : last - k < fuel → p ≠ .ret none) :
    LoopRan start stop grain last marked k fuel ids (p, []) where
  chunks := ⟨0, hk, List.append_nil _, fun status hp hok => (hlast status hp hok).1⟩
  marked := fun status hp hok id hid => by
    rw [List.map_nil, List.append_nil] at hid
    exact (hlast status hp hok).2 id hid
  waits := fun batch next hp id hid => by
    rw [List.map_nil, List.append_nil, ← hwaits batch next hp]
    exact hid
  ends := hends

theorem LoopRan.fails {status : Status} (hk : k ≤ last) (hstatus : status.ok = false) :
    LoopRan start stop grain last marked k fuel ids (.ret (some status), []) := by
  refine .stops hk (fun other hp hok => ?_) (by simp) (by simp)
  cases Option.some.inj (Cmd.ret.inj hp)
  cases hstatus.symm.trans hok

theorem LoopRan.calls {o : ChunkOp} {next : o.Res → ChunkProgram (Option Status)} (hk : k ≤ last)
    (hwaits : ∀ batch, o = .waitBatch batch → batch = ids) :
    LoopRan start stop grain last marked k fuel ids (.op o next, []) := by
  refine .stops hk (by simp) (fun batch next' hp => ?_) (by simp)
  cases hp
  exact hwaits batch rfl

theorem LoopRan.next {id : TaskId} (hk : k < last)
    {ran : ChunkProgram (Option Status) × List (TaskId × Nat × Nat)}
    (h : LoopRan start stop grain last marked (k + 1) fuel (ids ++ [id]) ran) :
    LoopRan start stop grain last marked k (fuel + 1) ids
      (ran.1, (id, start + k * grain, min (start + (k + 1) * grain) stop) :: ran.2) := by
  obtain ⟨⟨n, hn, hchunks, hall⟩, hmarked, hwaits, hends⟩ := h
  have hids : ids ++ ((id, start + k * grain, min (start + (k + 1) * grain) stop) :: ran.2).map
      Prod.fst = ids ++ [id] ++ ran.2.map Prod.fst := by
    rw [List.map_cons, ← List.singleton_append, List.append_assoc]
  constructor
  · refine ⟨n + 1, by omega, ?_, fun status hp hok => by rw [← hall status hp hok]; omega⟩
    rw [firstChunks_succ, List.append_assoc, List.singleton_append] at hchunks
    rw [show k + (n + 1) = k + 1 + n by omega, ← hchunks]
    rfl
  · rw [hids]
    exact hmarked
  · rw [hids]
    exact hwaits
  · exact fun hfuel => hends (by omega)

theorem LoopRan.refused {status : Status} (hk : k ≤ last) (hstatus : status.ok = false) :
    LoopRan start stop grain last marked k fuel ids (ChunkProgram.replay
      (if ids ≠ [] then .op (.waitBatch ids) fun _ => .ret (some status)
        else .ret (some status)) log) := by
  split_ifs
  · cases log with
    | nil => exact .calls hk (by simp)
    | cons x log => exact .fails hk hstatus
  · exact .fails hk hstatus

theorem LoopRan.waited {rest : Option Status → Program Unit} (hk : k = last)
    (hfollows : Follows ((ChunkProgram.onExecutor (.op (.waitBatch ids) fun status =>
      .ret (some status))).bind rest) log q)
    (hwell : ∀ x ∈ log, ReturnsWell marked x) :
    LoopRan start stop grain last marked k fuel ids (ChunkProgram.replay
      (.op (.waitBatch ids) fun status => .ret (some status)) log) := by
  cases log with
  | nil => exact .calls hk.le (by simp)
  | cons x log =>
    obtain ⟨hcall, -⟩ := hfollows.chunk
    obtain ⟨call, result⟩ := x
    cases hcall
    have hhead := hwell _ (List.mem_cons_self ..)
    refine .stops hk.le (fun status hp hok => ⟨hk, ?_⟩) (by simp [ChunkProgram.replay])
      (by simp [ChunkProgram.replay])
    cases Option.some.inj (Cmd.ret.inj hp)
    cases result with
    | status status => exact hhead hok
    | _ => cases hok

theorem parallelForLoop_replay {rest : Option Status → Program Unit}
    (hbelow : ∀ j < last, start + j * grain < stop) (hend : ¬start + last * grain < stop)
    (hfit : start + last * grain < 2 ^ 64) (hk : k ≤ last)
    (hfollows : Follows ((ChunkProgram.onExecutor
      (parallelForLoop stop grain fuel (start + k * grain) ids)).bind rest) log q)
    (hwell : ∀ x ∈ log, ReturnsWell marked x) :
    LoopRan start stop grain last marked k fuel ids (ChunkProgram.replay
      (parallelForLoop stop grain fuel (start + k * grain) ids) log) := by
  induction fuel generalizing k ids log with
  | zero => exact .stops hk (by simp [parallelForLoop]) (by simp [parallelForLoop]) (by simp)
  | succ fuel ih =>
    rw [parallelForLoop] at hfollows ⊢
    by_cases hlt : start + k * grain < stop
    · have hklast : k < last := by
        refine Nat.lt_of_le_of_ne hk fun heq => hend ?_
        rw [← heq]
        exact hlt
      have hnext : (start + k * grain + grain) % 2 ^ 64 = start + (k + 1) * grain := by
        have hle := Nat.mul_le_mul_right grain hklast
        rw [Nat.succ_mul] at hle
        rw [Nat.succ_mul, ← Nat.add_assoc]
        exact Nat.mod_eq_of_lt (by omega)
      rw [if_pos hlt, hnext] at hfollows ⊢
      cases log with
      | nil => exact .calls hk (by simp)
      | cons x log =>
        obtain ⟨hcall, htail⟩ := hfollows.chunk
        obtain ⟨call, result⟩ := x
        cases hcall
        have hhead := hwell _ (List.mem_cons_self ..)
        have hlater : ∀ x ∈ log, ReturnsWell marked x := fun x hx =>
          hwell x (List.mem_cons_of_mem _ hx)
        rcases result with _ | (status | id) | _ | _ | _
        · exact .refused hk rfl
        · exact .refused hk hhead
        · exact (ih hklast htail hlater).next hklast
        · exact .refused hk rfl
        · exact .refused hk rfl
        · exact .refused hk rfl
    · have hlast : k = last :=
        le_antisymm hk (Nat.le_of_not_lt fun hkl => hlt (hbelow k hkl))
      rw [if_neg hlt] at hfollows ⊢
      split_ifs at hfollows ⊢ with hids
      · exact .stops hk (fun status hp hok => ⟨hlast, by simp [hids]⟩) (by simp) (by simp)
      · exact .waited hlast hfollows hwell

end Loop

end Replay

namespace Watch

variable {w : Watch}

def passes (w : Watch) (s : Station) : List (TaskId × Nat × Nat) → Nat → Nat
  | [], _ => 0
  | x :: chunks, i => w.arrivalsOf x.1 s * (chunkIndices x.2).count i + w.passes s chunks i

theorem count_invokedIndices_cons (x : Nat × Nat) (chunks : List (Nat × Nat)) (i : Nat) :
    (invokedIndices (x :: chunks)).count i =
      (chunkIndices x).count i + (invokedIndices chunks).count i := by
  rw [invokedIndices, List.flatMap_cons, List.count_append]
  rfl

theorem Faithful.calls_le_one (hw : w.Faithful) (id : TaskId) : w.calls id ≤ 1 := by
  by_cases hsome : ∃ entry ∈ w.accepted, entry.fn.id? = some id
  · obtain ⟨entry, hentry, hid⟩ := hsome
    obtain ⟨s, hs⟩ := hw.exists_place hentry
    rw [calls, hw.arrivalsOf_eq hs hid]
    rcases s with _ | _ | _ | outcome | outcome <;> try cases outcome
    all_goals decide
  · push Not at hsome
    exact (hw.arrivalsOf_eq_zero hsome _).trans_le (Nat.zero_le 1)

theorem Faithful.ends_marked (hw : w.Faithful) {id : TaskId} (h : id ∈ w.machine.history.marked) :
    w.arrivalsOf id (.ended .returned) + w.arrivalsOf id (.ended .threw) = w.calls id := by
  obtain ⟨entry, outcome, hplace, hid⟩ := hw.over_of_marked h
  rw [calls, hw.arrivalsOf_eq hplace hid, hw.arrivalsOf_eq hplace hid, hw.arrivalsOf_eq hplace hid]
  cases outcome <;> rfl

variable {chunks : List (TaskId × Nat × Nat)}

theorem Faithful.passes_le (hw : w.Faithful) (i : Nat) :
    w.passes .running chunks i ≤ (invokedIndices (chunks.map Prod.snd)).count i := by
  induction chunks with
  | nil => exact Nat.zero_le _
  | cons x chunks ih =>
    rw [passes, List.map_cons, count_invokedIndices_cons]
    have hcalls := Nat.mul_le_mul_right ((chunkIndices x.2).count i) (hw.calls_le_one x.1)
    rw [Nat.one_mul] at hcalls
    exact Nat.add_le_add hcalls ih

theorem Faithful.passes_eq (hw : w.Faithful)
    (hmarked : ∀ x ∈ chunks, x.1 ∈ w.machine.history.marked)
    (hspared : ∀ x ∈ chunks, ¬w.machine.Logged (CancelOk x.1)) (i : Nat) :
    w.passes .running chunks i = (invokedIndices (chunks.map Prod.snd)).count i := by
  induction chunks with
  | nil => rfl
  | cons x chunks ih =>
    have hcalls : w.arrivalsOf x.1 .running = 1 :=
      hw.calls_marked (hmarked x (List.mem_cons_self ..)) (hspared x (List.mem_cons_self ..))
    rw [passes, List.map_cons, count_invokedIndices_cons, hcalls, Nat.one_mul,
      ih (fun y hy => hmarked y (List.mem_cons_of_mem _ hy))
        fun y hy => hspared y (List.mem_cons_of_mem _ hy)]

theorem Faithful.passes_ended (hw : w.Faithful)
    (hmarked : ∀ x ∈ chunks, x.1 ∈ w.machine.history.marked) (i : Nat) :
    w.passes (.ended .returned) chunks i + w.passes (.ended .threw) chunks i =
      w.passes .running chunks i := by
  induction chunks with
  | nil => rfl
  | cons x chunks ih =>
    have hends := hw.ends_marked (hmarked x (List.mem_cons_self ..))
    rw [passes, passes, passes, ← calls, ← hends, Nat.add_mul,
      ← ih fun y hy => hmarked y (List.mem_cons_of_mem _ hy)]
    omega

end Watch

structure RangeRan (start stop grain fuel : Nat) (marked : List TaskId)
    (ran : ChunkProgram (Option Status) × List (TaskId × Nat × Nat)) : Prop where
  once : ∀ i, (invokedIndices (ran.2.map Prod.snd)).count i ≤ if start ≤ i ∧ i < stop then 1 else 0
  whole : ∀ status, ran.1 = .ret (some status) → status.ok = true →
    (∀ x ∈ ran.2, x.1 ∈ marked) ∧
    ∀ i, (invokedIndices (ran.2.map Prod.snd)).count i = if start ≤ i ∧ i < stop then 1 else 0
  waits : ∀ batch next, ran.1 = .op (.waitBatch batch) next → ∀ id ∈ batch, id ∈ ran.2.map Prod.fst
  ends : (stop - start - 1) / max grain 1 + 1 < fuel → ran.1 ≠ .ret none

theorem parallelFor_replay {start stop grain fuel : Nat} {rest : Option Status → Program Unit}
    {q : Program Unit} {log : List (Call × Answer)} {marked : List TaskId} (hle : start ≤ stop)
    (hends : EndsInRange start stop grain)
    (hfollows : Follows ((parallelFor fuel true start stop grain).onExecutor.bind rest) log q)
    (hwell : ∀ x ∈ log, ReturnsWell marked x) :
    RangeRan start stop grain fuel marked
      (ChunkProgram.replay (parallelFor fuel true start stop grain) log) := by
  rcases Nat.lt_or_eq_of_le hle with hlt | rfl
  · have hpos : 0 < max grain 1 := by omega
    have hfit := hends.resolve_left (Nat.ne_of_lt hlt)
    have hbelow : ∀ j < (stop - start - 1) / max grain 1 + 1, start + j * max grain 1 < stop :=
      fun j hj => (below_iff hlt hpos j).mp (by omega)
    have hend : ¬start + ((stop - start - 1) / max grain 1 + 1) * max grain 1 < stop := by
      rw [← below_iff hlt hpos]
      omega
    rw [parallelFor_eq_loop hlt] at hfollows ⊢
    have hstart : start = start + 0 * max grain 1 := by omega
    rw [hstart] at hfollows
    have hran := parallelForLoop_replay hbelow hend hfit (Nat.zero_le _) hfollows hwell
    rw [← hstart] at hran
    obtain ⟨⟨n, hn, hchunks, hall⟩, hmarked, hwaits, hfuel⟩ := hran
    rw [Nat.zero_add] at hn hchunks
    have hcount := count_firstChunks (k := n) fun j hj => hbelow j (by omega)
    rw [← hchunks, firstChunks, List.range_zero, List.map_nil, List.nil_append] at hcount
    refine ⟨fun i => ?_, fun status hstatus hok => ⟨fun x hx => ?_, fun i => ?_⟩, hwaits, hfuel⟩
    · rw [hcount]
      split_ifs <;> omega
    · exact hmarked status hstatus hok x.1 (List.mem_map_of_mem hx)
    · have hlast := hall status hstatus hok
      rw [Nat.zero_add] at hlast
      rw [hcount, hlast, min_eq_right (Nat.le_of_not_lt hend)]
  · have hsame : parallelFor fuel true start start grain = .ret (some .okStatus) := by
      rw [parallelFor, if_neg (by simp), if_neg (by omega), if_pos rfl]
    rw [hsame]
    refine ⟨fun i => Nat.zero_le _, fun status _ _ => ⟨fun x hx => absurd hx List.not_mem_nil, ?_⟩,
      by simp [ChunkProgram.replay], by simp [ChunkProgram.replay]⟩
    intro i
    rw [if_neg (by omega)]
    rfl

namespace Watch

variable {w w' : Watch} {c : Nat}

def Own (c : Nat) (w w' : Watch) : Prop :=
  (∃ i threw, w.step (.worker i threw) = some w') ∨ ∃ choice, w.step (.client c choice) = some w'

theorem machine_own (hown : w.Own c w') : Machine.Own c w.machine w'.machine := by
  rcases hown with ⟨i, threw, hstep⟩ | ⟨choice, hstep⟩
  · obtain ⟨m, hm, rfl⟩ := Option.map_eq_some_iff.mp hstep
    exact .inl ⟨i, threw, hm⟩
  · obtain ⟨m, hm, rfl⟩ := Option.map_eq_some_iff.mp hstep
    exact .inr ⟨choice, hm⟩

theorem own_wellFounded : WellFounded fun w' w : Watch => w.Own c w' :=
  Subrelation.wf (fun hown => machine_own hown)
    (InvImage.wf machine (@Machine.own_wellFounded c))

end Watch

/-- What the calls of client `c` between two states have made of its `ParallelFor`. -/
def ChunkProgram.ranBetween {α : Type} (p : ChunkProgram α) (c : Nat) (w w' : Watch) :
    ChunkProgram α × List (TaskId × Nat × Nat) :=
  ChunkProgram.replay p ((w'.machine.clients c).log.drop (w.machine.clients c).log.length)

section OnPool

variable {poolOptions : ExecutorOptions} {hardwareConcurrency : Nat} {programs : Nat → Program Unit}
  {before labels : List Label} {w w' : Watch} {c fuel start stop grain : Nat}
  {rest : Option Status → Program Unit}

theorem calls_between {α : Type} {p : ChunkProgram α} {rest : α → Program Unit}
    (hbefore : runs Watch.step (Watch.start poolOptions hardwareConcurrency programs) before =
      some w)
    (hprogram : (w.machine.clients c).program = p.onExecutor.bind rest)
    (hrun : runs Watch.step w labels = some w') (hlap : w'.machine.FirstLap) :
    ∃ log, p.ranBetween c w w' = ChunkProgram.replay p log ∧
      Follows (p.onExecutor.bind rest) log (w'.machine.clients c).program ∧
      (∀ x ∈ log, ReturnsWell w'.machine.history.marked x) ∧
      (submittedIds log).Nodup ∧ ∀ id ∈ submittedIds log, id ∈ w'.machine.admitted := by
  have hall := runs_append.mpr ⟨w, hbefore, hrun⟩
  have hreceipts := Watch.receipts_of_run hall hlap c
  obtain ⟨log, hlog, hfollows⟩ := Machine.Advanced.of_run (c := c) (Watch.runs_machine hrun)
  rw [hprogram] at hfollows
  have hfresh := hreceipts.fresh
  rw [hlog, submittedIds, List.filterMap_append] at hfresh
  refine ⟨log, ?_, hfollows, fun x hx => ?_, ?_, fun id hid => ?_⟩
  · rw [ChunkProgram.ranBetween, hlog, List.drop_left]
  · exact hreceipts.returned x (hlog ▸ List.mem_append_right _ hx)
  · exact hfresh.sublist (List.sublist_append_right _ _)
  · obtain ⟨call, hcall⟩ := mem_of_submittedIds hid
    exact (Watch.Faithful.of_run hall hlap).known.ledger.returned id
      ⟨c, call, hlog ▸ List.mem_append_right _ hcall⟩

/-- `ParallelFor` by client `c` of a thread pool, started in any state that the pool
gets into, among whatever other clients do, with fewer than 2^64 calls of `SubmitEx`
in all. Its chunks are tasks of their own, and at any time closures with an index of
the range have been called once at most, and none with another index. When it has
returned kOk, all its tasks are done, and unless one was canceled, exactly one closure
with each index was called and has returned or thrown. -/
theorem parallelFor_on_thread_pool
    (hbefore : runs Watch.step (Watch.start poolOptions hardwareConcurrency programs) before =
      some w)
    (hle : start ≤ stop) (hends : EndsInRange start stop grain)
    (hprogram : (w.machine.clients c).program =
      (parallelFor fuel true start stop grain).onExecutor.bind rest)
    (hrun : runs Watch.step w labels = some w') (hlap : w'.machine.FirstLap) :
    let ran := (parallelFor fuel true start stop grain).ranBetween c w w'
    (ran.2.map Prod.fst).Nodup ∧
    (∀ i, w'.passes .running ran.2 i ≤ if start ≤ i ∧ i < stop then 1 else 0) ∧
    ∀ status, ran.1 = .ret (some status) → status.ok = true →
      (∀ x ∈ ran.2, x.1 ∈ w'.machine.history.marked) ∧
      ((∀ x ∈ ran.2, ¬w'.machine.Logged (CancelOk x.1)) → ∀ i,
        w'.passes .running ran.2 i = (if start ≤ i ∧ i < stop then 1 else 0) ∧
        w'.passes (.ended .returned) ran.2 i + w'.passes (.ended .threw) ran.2 i =
          w'.passes .running ran.2 i) := by
  have hfaithful := Watch.Faithful.of_run (runs_append.mpr ⟨w, hbefore, hrun⟩) hlap
  obtain ⟨log, hreplay, hfollows, hwell, hfresh, -⟩ := calls_between hbefore hprogram hrun hlap
  rw [hreplay]
  have hran := parallelFor_replay hle hends hfollows hwell
  refine ⟨hfresh.sublist (ChunkProgram.replay_tasks hfollows),
    fun i => (hfaithful.passes_le i).trans (hran.once i), fun status hstatus hok => ?_⟩
  obtain ⟨hmarked, hexact⟩ := hran.whole status hstatus hok
  exact ⟨hmarked, fun hspared i => ⟨(hfaithful.passes_eq hmarked hspared i).trans (hexact i),
    hfaithful.passes_ended hmarked i⟩⟩

theorem parallelFor_returned_at_rest
    (hbefore : runs Watch.step (Watch.start poolOptions hardwareConcurrency programs) before =
      some w)
    (hle : start ≤ stop) (hends : EndsInRange start stop grain)
    (hfuel : (stop - start - 1) / max grain 1 + 1 < fuel)
    (hprogram : (w.machine.clients c).program =
      (parallelFor fuel true start stop grain).onExecutor.bind rest)
    (hrun : runs Watch.step w labels = some w') (hlap : w'.machine.FirstLap)
    (hstuck : ∀ w'', ¬w'.Own c w'') :
    ∃ status, ((parallelFor fuel true start stop grain).ranBetween c w w').1 =
      .ret (some status) := by
  have hall := runs_append.mpr ⟨w, hbefore, hrun⟩
  have hfaithful := Watch.Faithful.of_run hall hlap
  have hsound : w'.machine.Sound := Machine.Sound.of_run (Watch.runs_machine hall)
  have hposition := (Watch.receipts_of_run hall hlap c).awaits.position
  obtain ⟨log, hreplay, hfollows, hwell, -, hadmitted⟩ :=
    calls_between hbefore hprogram hrun hlap
  rw [hreplay]
  have hran := parallelFor_replay hle hends hfollows hwell
  have htasks := ChunkProgram.replay_tasks hfollows
  have hrest := ChunkProgram.replay_rest hfollows
  generalize ChunkProgram.replay (parallelFor fuel true start stop grain) log = ran at *
  obtain ⟨left, chunks⟩ := ran
  cases left with
  | ret value =>
    cases value with
    | none => exact absurd rfl (hran.ends hfuel)
    | some status => exact ⟨status, rfl⟩
  | op o next =>
    have hcurrent := hrest.resolve_left (by simp)
    have hfits := hfaithful.fitting c _ _ hcurrent
    have hworkers : ∀ i, w'.machine.stepWorker i false = none := by
      intro i
      by_contra hmoves
      obtain ⟨m, hm⟩ := Option.ne_none_iff_exists'.mp hmoves
      exact hstuck _ (.inl ⟨i, false, Option.map_eq_some_iff.mpr ⟨m, hm, rfl⟩⟩)
    refine absurd ?_ (Machine.client_moves hfaithful.known (Machine.empty_of_stuck hsound hworkers)
      (fun _ _ hold => Machine.idle_of_stuck hsound.keyed hworkers hold) hcurrent ?_ ?_ false)
    · by_contra hmoves
      obtain ⟨m, hm⟩ := Option.ne_none_iff_exists'.mp hmoves
      exact hstuck _ (.inr ⟨false, Option.map_eq_some_iff.mpr ⟨m, hm, rfl⟩⟩)
    · cases o <;> simp [ChunkOp.call]
    · intro state others timeoutMs hpc
      cases o with
      | submitEx chunkBegin chunkEnd => simp [hpc, ClientPc.Fits, ChunkOp.call] at hfits
      | waitBatch batch =>
        -- a batch is over tasks that the executor has accepted
        have hwaits := hposition batch _ hcurrent
        rw [hpc] at hwaits
        obtain ⟨-, passed, hbatch, -⟩ := hwaits
        exact hadmitted _ (htasks.subset (hran.waits batch next rfl _ (by simp [hbatch])))

/-- `ParallelFor` by client `c` comes back. Wherever the pool and its clients have got
to meanwhile, refusals, canceled chunks and a stopping executor included: the workers
and the client do not go on forever by themselves, and where they can go on no more
after fewer than 2^64 calls of `SubmitEx`, it has returned a status; so they get it
there without any other client, unless they get to that call of `SubmitEx` first. -/
theorem parallelFor_returns
    (hbefore : runs Watch.step (Watch.start poolOptions hardwareConcurrency programs) before =
      some w)
    (hle : start ≤ stop) (hends : EndsInRange start stop grain)
    (hfuel : (stop - start - 1) / max grain 1 + 1 < fuel)
    (hprogram : (w.machine.clients c).program =
      (parallelFor fuel true start stop grain).onExecutor.bind rest) :
    (WellFounded fun w' w : Watch => w.Own c w') ∧
    ∀ labels w', runs Watch.step w labels = some w' →
      (w'.machine.FirstLap → (∀ w'', ¬w'.Own c w'') → ∃ status,
        ((parallelFor fuel true start stop grain).ranBetween c w w').1 = .ret (some status)) ∧
      ∃ w'', Relation.ReflTransGen (Watch.Own c) w' w'' ∧ (w''.machine.FirstLap → ∃ status,
        ((parallelFor fuel true start stop grain).ranBetween c w w'').1 = .ret (some status)) := by
  have hatrest := fun labels w' (hrun : runs Watch.step w labels = some w') =>
    parallelFor_returned_at_rest hbefore hle hends hfuel hprogram hrun
  have hkept : ∀ w₁ w₂ : Watch, (∃ labels, runs Watch.step w labels = some w₁) → w₁.Own c w₂ →
      ∃ labels, runs Watch.step w labels = some w₂ := by
    rintro w₁ w₂ ⟨labels, hrun⟩ (⟨i, threw, hstep⟩ | ⟨choice, hstep⟩)
    · exact ⟨_, runs_snoc.mpr ⟨w₁, hrun, hstep⟩⟩
    · exact ⟨_, runs_snoc.mpr ⟨w₁, hrun, hstep⟩⟩
  refine ⟨Watch.own_wellFounded, fun labels w' hrun => ⟨hatrest labels w' hrun, ?_⟩⟩
  exact exists_final_of_wellFounded Watch.own_wellFounded hkept (fun w₁ hreached hstuck hlap =>
    hatrest hreached.choose w₁ hreached.choose_spec hlap hstuck) ⟨labels, hrun⟩

end OnPool

/-- Three indices in two chunks, on one worker; client 1 has a task of its own. -/
def rangeOnPool : Watch :=
  Watch.start { workerCount := 1 } 0 fun c =>
    if c = 0 then (parallelFor 3 true 0 3 2).onExecutor.bind fun _ => .ret ()
    else .op (.submit true) fun _ => .ret ()

def rangeLabels : List Label :=
  [.client 1 false] ++ List.replicate 6 (.client 0 false) ++ List.replicate 17 (.worker 0 false) ++
    List.replicate 5 (.client 0 false)

def returnedOk : ChunkProgram (Option Status) → Bool
  | .ret (some status) => status.ok
  | _ => false

theorem exists_of_returnedOk {p : ChunkProgram (Option Status)} (h : returnedOk p = true) :
    ∃ status, p = .ret (some status) ∧ status.ok = true := by
  rcases p with (_ | status) | _
  · cases h
  · exact ⟨status, rfl, h⟩
  · cases h

theorem rangeOnPool_program : (rangeOnPool.machine.clients 0).program =
    (parallelFor 3 true 0 3 2).onExecutor.bind fun _ => .ret () := rfl

theorem parallelFor_on_thread_pool_three :
    ∃ w, runs Watch.step rangeOnPool rangeLabels = some w ∧ ∀ i,
      w.passes .running ((parallelFor 3 true 0 3 2).ranBetween 0 rangeOnPool w).2 i =
        if 0 ≤ i ∧ i < 3 then 1 else 0 := by
  obtain ⟨w, hrun, hfinal⟩ := Option.map_eq_some_iff.mp (show
      (runs Watch.step rangeOnPool rangeLabels).map (fun w =>
        let ran := (parallelFor 3 true 0 3 2).ranBetween 0 rangeOnPool w
        (ran.2.all fun x => w.calls x.1 == 1, returnedOk ran.1, w.machine.pool.heapSize)) =
          some (true, true, 2) by decide +kernel)
  simp only [Prod.mk.injEq, List.all_eq_true, beq_iff_eq] at hfinal
  obtain ⟨hcalls, hreturned, hsize⟩ := hfinal
  have hlap : w.machine.FirstLap := by
    unfold Machine.FirstLap
    omega
  have hspared := fun x hx hcanceled => Nat.one_ne_zero
    ((hcalls x hx).symm.trans ((Watch.Faithful.of_run hrun hlap).calls_canceled hcanceled))
  obtain ⟨-, -, hall⟩ := parallelFor_on_thread_pool (runs_nil rangeOnPool)
    (show 0 ≤ 3 by decide) (show EndsInRange 0 3 2 by decide) rangeOnPool_program hrun hlap
  obtain ⟨status, hstatus, hok⟩ := exists_of_returnedOk hreturned
  exact ⟨w, hrun, fun i => ((hall status hstatus hok).2 hspared i).1⟩

/-- The same range, from its first call. -/
theorem parallelFor_returns_three :
    ∃ w, Relation.ReflTransGen (Watch.Own 0) rangeOnPool w ∧ (w.machine.FirstLap → ∃ status,
      ((parallelFor 3 true 0 3 2).ranBetween 0 rangeOnPool w).1 = .ret (some status)) :=
  ((parallelFor_returns (runs_nil rangeOnPool) (show 0 ≤ 3 by decide)
    (show EndsInRange 0 3 2 by decide) (by decide) rangeOnPool_program).2
    [] rangeOnPool (runs_nil _)).2

end Corekit.Task
