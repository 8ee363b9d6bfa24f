import Corekit.Task.BatchWait

/-! `ParallelFor` as a program over what it asks of the executor it belongs to.
All of its arithmetic is on `size_t`. -/
namespace Corekit.Task
open Corekit.Api Corekit.Foundation

/-- The closure of a chunk calls the function on `[chunkBegin, chunkEnd)`. -/
inductive ChunkOp where
  | submitEx (chunkBegin chunkEnd : Nat)
  | waitBatch (ids : List TaskId)
  deriving DecidableEq, Repr

abbrev ChunkOp.Res : ChunkOp → Type
  | .submitEx _ _ => Result TaskId
  | .waitBatch _ => Status

abbrev ChunkProgram (α : Type) := Cmd ChunkOp ChunkOp.Res α

/-- The loop over the chunks; `none` where the fuel is used up. -/
def parallelForLoop (stop grain : Nat) : Nat → Nat → List TaskId → ChunkProgram (Option Status)
  | 0, _, _ => .ret none
  | fuel + 1, chunkBegin, ids =>
    if chunkBegin < stop then
      let chunkEnd := min ((chunkBegin + grain) % 2 ^ 64) stop
      .op (.submitEx chunkBegin chunkEnd) fun
        | .ok id => parallelForLoop stop grain fuel ((chunkBegin + grain) % 2 ^ 64) (ids ++ [id])
        | .error status =>
          if ids ≠ [] then .op (.waitBatch ids) fun _ => .ret (some status)
          else .ret (some status)
    else if ids = [] then .ret (some .okStatus)
    else .op (.waitBatch ids) fun status => .ret (some status)

def parallelFor (fuel : Nat) (hasFn : Bool) (start stop grain : Nat) :
    ChunkProgram (Option Status) :=
  if ¬hasFn then .ret (some ⟨.kInvalidArgument, "fn is empty", .kTask⟩)
  else if stop < start then .ret (some ⟨.kInvalidArgument, "end must be >= begin", .kTask⟩)
  else if start = stop then .ret (some .okStatus)
  else parallelForLoop stop (if grain = 0 then 1 else grain) fuel start []

def Answer.asTask : Answer → Result TaskId
  | .task result => result
  | _ => .error ⟨.kInternalError, "", .kTask⟩

def Answer.asStatus : Answer → Status
  | .status result => result
  | _ => ⟨.kInternalError, "", .kTask⟩

def Answer.asFlag : Answer → Bool
  | .flag value => value
  | _ => false

def ChunkOp.call : ChunkOp → Call
  | .submitEx _ _ => .submitEx true {}
  | .waitBatch ids => .waitBatch (some ids) 0

def ChunkOp.read : (o : ChunkOp) → Answer → o.Res
  | .submitEx _ _ => Answer.asTask
  | .waitBatch _ => Answer.asStatus

/-- `ParallelFor` as the calls of a client. -/
def ChunkProgram.onExecutor (p : ChunkProgram α) : Program α := p.embed ChunkOp.call ChunkOp.read

theorem Covers.submitEx {post : α → List TaskId → Prop} {options : TaskSubmitOptions}
    {next : Answer → Program α} {pending : List TaskId}
    (hok : ∀ result id, result.asTask = .ok id → Covers post (next result) (id :: pending))
    (herror : ∀ result status, result.asTask = .error status → Covers post (next result) pending) :
    Covers post (.op (.submitEx true options) next) pending := by
  refine ⟨fun ids heq => by simp at heq, fun result => ?_⟩
  cases result with
  | task answer =>
    cases answer with
    | ok id => exact hok _ id rfl
    | error status => exact herror _ status rfl
  | _ => exact herror _ _ rfl

theorem Covers.waitBatch {post : α → List TaskId → Prop} {next : Answer → Program α}
    {ids pending : List TaskId} (hids : ∀ id, id ∈ ids ↔ id ∈ pending)
    (hnext : ∀ result, Covers post (next result) []) :
    Covers post (.op (.waitBatch (some ids) 0) next) pending := by
  refine ⟨fun ids' heq id hid => ?_, fun result => ?_⟩
  · cases heq
    exact (hids id).mp hid
  · have hnone : unwaited (.waitBatch (some ids) 0) result pending = [] := by
      simpa [unwaited] using fun id hid => (hids id).mpr hid
    rw [hnone]
    exact hnext result

theorem pending_nil {ids pending : List TaskId} (hids : ∀ id, id ∈ ids ↔ id ∈ pending)
    (h : ids = []) : pending = [] := by
  subst h
  exact List.eq_nil_iff_forall_not_mem.mpr fun id hid => absurd ((hids id).mpr hid) (by simp)

theorem mem_snoc_iff {ids pending : List TaskId} (hids : ∀ id, id ∈ ids ↔ id ∈ pending)
    (taskId id : TaskId) : id ∈ ids ++ [taskId] ↔ id ∈ taskId :: pending := by
  simp [hids, or_comm]

theorem parallelForLoop_covers (stop grain fuel chunkBegin : Nat) {ids pending : List TaskId}
    (hids : ∀ id, id ∈ ids ↔ id ∈ pending) :
    Covers (fun value pending => value.isSome → pending = [])
      (parallelForLoop stop grain fuel chunkBegin ids).onExecutor pending := by
  induction fuel generalizing chunkBegin ids pending with
  | zero => simp [parallelForLoop, ChunkProgram.onExecutor, Cmd.embed, Covers]
  | succ fuel ih =>
    simp only [parallelForLoop]
    by_cases hlt : chunkBegin < stop
    · rw [if_pos hlt]
      apply Covers.submitEx
      · intro result id hresult
        simp only [ChunkOp.read, hresult]
        exact ih _ (mem_snoc_iff hids id)
      · intro result status hresult
        simp only [ChunkOp.read, hresult]
        by_cases hnil : ids = []
        · rw [if_neg (not_not.mpr hnil)]
          exact fun _ => pending_nil hids hnil
        · rw [if_pos hnil]
          exact Covers.waitBatch hids fun _ _ => rfl
    · rw [if_neg hlt]
      by_cases hnil : ids = []
      · rw [if_pos hnil]
        exact fun _ => pending_nil hids hnil
      · rw [if_neg hnil]
        exact Covers.waitBatch hids fun _ _ => rfl

theorem parallelFor_covers (fuel : Nat) (hasFn : Bool) (start stop grain : Nat) :
    Covers (fun value pending => value.isSome → pending = [])
      (parallelFor fuel hasFn start stop grain).onExecutor [] := by
  unfold parallelFor
  by_cases hfn : ¬hasFn
  · rw [if_pos hfn]
    exact fun _ => rfl
  rw [if_neg hfn]
  by_cases horder : stop < start
  · rw [if_pos horder]
    exact fun _ => rfl
  rw [if_neg horder]
  by_cases hsame : start = stop
  · rw [if_pos hsame]
    exact fun _ => rfl
  rw [if_neg hsame]
  exact parallelForLoop_covers _ _ _ _ fun _ => Iff.rfl

end Corekit.Task
