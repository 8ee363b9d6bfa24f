import Corekit.Task.Executor
import Corekit.Foundation.Command
import Corekit.Foundation.OrderedMap
import Mathlib.Data.Nat.Basic

/-! `SimpleTaskGraph`: the two maps, the operations that build them, `Validate`
and `RunInternal`. The function of a node is known by the id of the node.
`RunInternal` is a program over what it asks of its surroundings, so that it can
be run inline, by any executor, or by the thread pool. A loop that has used up
its fuel has not returned; that is `none`. -/
namespace Corekit.Task
open Corekit.Api Corekit.Foundation

structure GraphTaskOptions where
  priority : TaskPriority := .kNormal
  deriving DecidableEq, Repr

structure GraphRunOptions where
  failFast : Bool := true
  maxConcurrency : Nat := 0
  deriving DecidableEq, Repr

structure GraphRunStats where
  total : Nat := 0
  succeeded : Nat := 0
  failed : Nat := 0
  canceled : Nat := 0
  deriving DecidableEq, Repr

structure SimpleTaskGraph where
  nodes : OrderedMap TaskId GraphTaskOptions := .empty
  edges : OrderedMap TaskId (OrderedMap TaskId Unit) := .empty
  nextId : TaskId := 1

abbrev Indegree := OrderedMap TaskId Nat

/-- What `RunInternal` asks: to call the function of a node itself, to hand the
closure of a node with its `NodeCtx` slot to the executor, to wait for a batch,
and to look at the `failed` flag of a slot. -/
inductive GraphOp where
  | invoke (node : TaskId)
  | submitEx (slot : Nat) (node : TaskId) (options : TaskSubmitOptions)
  | waitBatch (ids : List TaskId)
  | failed (slot : Nat)
  deriving DecidableEq, Repr

/-- `invoke` and `failed` answer whether the function threw. -/
abbrev GraphOp.Res : GraphOp → Type
  | .invoke _ => Bool
  | .submitEx _ _ _ => Result TaskId
  | .waitBatch _ => Status
  | .failed _ => Bool

abbrev GraphProgram (α : Type) := Cmd GraphOp GraphOp.Res α

namespace GraphOp

def callInvoke (node : TaskId) : GraphProgram Bool := .op (.invoke node) .ret

def callSubmitEx (slot : Nat) (node : TaskId) (options : TaskSubmitOptions) :
    GraphProgram (Result TaskId) := .op (.submitEx slot node options) .ret

def callWaitBatch (ids : List TaskId) : GraphProgram Status := .op (.waitBatch ids) .ret

def readFailed (slot : Nat) : GraphProgram Bool := .op (.failed slot) .ret

end GraphOp

def subU64 (a b : Nat) : Nat := (a % 2 ^ 64 + (2 ^ 64 - b % 2 ^ 64)) % 2 ^ 64

namespace SimpleTaskGraph

variable (g : SimpleTaskGraph)

def addTask (hasFn : Bool) (options : GraphTaskOptions) : Result TaskId × SimpleTaskGraph :=
  if hasFn then
    let id := g.nextId
    (.ok id, {
      nodes := g.nodes.insert id options
      edges := match g.edges.find? id with
        | some _ => g.edges
        | none => g.edges.insert id .empty
      nextId := id + 1 })
  else (.error ⟨.kInvalidArgument, "fn is null", .kTask⟩, g)

def addDependency (beforeTaskId afterTaskId : TaskId) : Status × SimpleTaskGraph :=
  if beforeTaskId = afterTaskId then
    (⟨.kInvalidArgument, "self dependency is not allowed", .kTask⟩, g)
  else if g.nodes.find? beforeTaskId = none ∨ g.nodes.find? afterTaskId = none then
    (⟨.kNotFound, "task id not found", .kTask⟩, g)
  else
    let out := (g.edges.find? beforeTaskId).getD .empty
    (.okStatus, { g with edges := g.edges.insert beforeTaskId (out.insert afterTaskId ()) })

/-- The loop of `AddDependencies`: the edges before a failure stay. -/
def addDependenciesFrom (afterTaskId : TaskId) :
    SimpleTaskGraph → List TaskId → Status × SimpleTaskGraph
  | g, [] => (.okStatus, g)
  | g, beforeTaskId :: rest =>
    let result := g.addDependency beforeTaskId afterTaskId
    if result.1.ok then addDependenciesFrom afterTaskId result.2 rest else result

/-- `none` is a null pointer with a positive count. -/
def addDependencies (afterTaskId : TaskId) : Option (List TaskId) → Status × SimpleTaskGraph
  | none => (⟨.kInvalidArgument, "before_task_ids is null", .kTask⟩, g)
  | some beforeTaskIds => addDependenciesFrom afterTaskId g beforeTaskIds

def clear : Status × SimpleTaskGraph := (.okStatus, {})

def countTargets : List TaskId → Indegree → Result Indegree
  | [], indegree => .ok indegree
  | dst :: rest, indegree =>
    match indegree.find? dst with
    | none => .error ⟨.kInternalError, "edge references missing node", .kTask⟩
    | some d => countTargets rest (indegree.insert dst (d + 1))

def countEdges : List (TaskId × OrderedMap TaskId Unit) → Indegree → Result Indegree
  | [], indegree => .ok indegree
  | (_, out) :: rest, indegree =>
    match countTargets out.keys indegree with
    | .error status => .error status
    | .ok indegree => countEdges rest indegree

def buildIndegree : Result Indegree :=
  countEdges g.edges.entries (g.nodes.keys.foldl (fun indegree id => indegree.insert id 0) .empty)

/-- The ids that start out ready, in the order of the map. -/
def initialReady (indegree : Indegree) : List TaskId :=
  (indegree.entries.filter fun entry => entry.2 = 0).map Prod.fst

def relax : List TaskId → Indegree → List TaskId → Result (Indegree × List TaskId)
  | [], indegree, ready => .ok (indegree, ready)
  | dst :: rest, indegree, ready =>
    match indegree.find? dst with
    | none => .error ⟨.kInternalError, "indegree missing for destination node", .kTask⟩
    | some d =>
      let d := if d > 0 then d - 1 else d
      relax rest (indegree.insert dst d) (if d = 0 then ready ++ [dst] else ready)

def relaxNode (id : TaskId) (indegree : Indegree) (ready : List TaskId) :
    Result (Indegree × List TaskId) :=
  match g.edges.find? id with
  | none => .ok (indegree, ready)
  | some out => relax out.keys indegree ready

def validateLoop : Nat → Indegree → List TaskId → Nat → Option (Result Nat)
  | _, _, [], processed => some (.ok processed)
  | 0, _, _ :: _, _ => none
  | fuel + 1, indegree, id :: ready, processed =>
    match g.relaxNode id indegree ready with
    | .error status => some (.error status)
    | .ok (indegree, ready) => validateLoop fuel indegree ready (processed + 1)

def validate : Option Status :=
  match g.buildIndegree with
  | .error status => some status
  | .ok indegree =>
    (g.validateLoop g.nodes.size indegree (initialReady indegree) 0).map fun
      | .error status => status
      | .ok processed =>
        if processed ≠ g.nodes.size then
          ⟨.kInvalidArgument, "task graph contains cycle or unresolved dependency", .kTask⟩
        else .okStatus

/-- The inline branch over one level: the functions are called in order. -/
def runInline : List TaskId → GraphRunStats → Bool →
    GraphProgram (Result (GraphRunStats × Bool))
  | [], stats, levelFailed => return .ok (stats, levelFailed)
  | id :: rest, stats, levelFailed =>
    match g.nodes.find? id with
    | none => return .error ⟨.kInternalError, "node missing during execution", .kTask⟩
    | some _ => do
      let threw ← GraphOp.callInvoke id
      if threw then runInline rest { stats with failed := stats.failed + 1 } true
      else runInline rest { stats with succeeded := stats.succeeded + 1 } levelFailed

/-- The submissions of one level; a refusal waits for what was submitted. -/
def submitLevel : Nat → List TaskId → List TaskId → GraphProgram (Result (List TaskId))
  | _, [], ids => return .ok ids
  | slot, id :: rest, ids =>
    match g.nodes.find? id with
    | none => return .error ⟨.kInternalError, "node missing during execution", .kTask⟩
    | some options => do
      let sub ← GraphOp.callSubmitEx slot id { priority := options.priority }
      match sub with
      | .ok taskId => submitLevel (slot + 1) rest (ids ++ [taskId])
      | .error status =>
        if ids ≠ [] then
          let _ ← GraphOp.callWaitBatch ids
          return .error status
        else return .error status

/-- The loop over `ctx` after the wait. -/
def collect : List Nat → GraphRunStats → Bool → GraphProgram (GraphRunStats × Bool)
  | [], stats, levelFailed => return (stats, levelFailed)
  | slot :: rest, stats, levelFailed => do
    let failed ← GraphOp.readFailed slot
    if failed then collect rest { stats with failed := stats.failed + 1 } true
    else collect rest { stats with succeeded := stats.succeeded + 1 } levelFailed

def runSubmitted (level : List TaskId) (stats : GraphRunStats) :
    GraphProgram (Result (GraphRunStats × Bool)) := do
  match ← g.submitLevel 0 level [] with
  | .error status => return .error status
  | .ok ids =>
    let waitStatus ← GraphOp.callWaitBatch ids
    if waitStatus.ok then
      let result ← collect (List.range level.length) stats false
      return .ok result
    else return .error waitStatus

def relaxLevel : List TaskId → Indegree → List TaskId → Result (Indegree × List TaskId)
  | [], indegree, ready => .ok (indegree, ready)
  | id :: rest, indegree, ready =>
    match g.relaxNode id indegree ready with
    | .error status => .error status
    | .ok (indegree, ready) => relaxLevel rest indegree ready

def levelCap (options : GraphRunOptions) : Nat :=
  if options.maxConcurrency = 0 then 2 ^ 64 - 1 else options.maxConcurrency

def finishStats (stats : GraphRunStats) : GraphRunStats :=
  { stats with canceled := subU64 (subU64 stats.total stats.succeeded) stats.failed }

/-- The main loop; `inline` is a null executor. -/
def runLoop (inline : Bool) (options : GraphRunOptions) :
    Nat → Indegree → List TaskId → GraphRunStats → Nat →
      GraphProgram (Option (Result GraphRunStats))
  | _, _, [], stats, processed =>
    if processed ≠ g.nodes.size then
      return some (.error
        ⟨.kInvalidArgument, "task graph contains cycle or unresolved dependency", .kTask⟩)
    else return some (.ok (finishStats stats))
  | 0, _, _ :: _, _, _ => return none
  | fuel + 1, indegree, first :: others, stats, processed => do
    let level := (first :: others).take (levelCap options)
    let ready := (first :: others).drop (levelCap options)
    match ← (if inline then g.runInline level stats false else g.runSubmitted level stats) with
    | .error status => return some (.error status)
    | .ok (stats, levelFailed) =>
      if levelFailed ∧ options.failFast then return some (.ok (finishStats stats))
      else
        match g.relaxLevel level indegree ready with
        | .error status => return some (.error status)
        | .ok (indegree, ready) =>
          runLoop inline options fuel indegree ready stats (processed + level.length)

def runInternal (inline : Bool) (options : GraphRunOptions) :
    GraphProgram (Option (Result GraphRunStats)) :=
  match g.validate with
  | none => return none
  | some status =>
    if status.ok then
      match g.buildIndegree with
      | .error status => return some (.error status)
      | .ok indegree =>
        g.runLoop inline options g.nodes.size indegree (initialReady indegree)
          { total := g.nodes.size } 0
    else return some (.error status)

def run : GraphProgram (Option (Result GraphRunStats)) :=
  g.runInternal true { failFast := true, maxConcurrency := 0 }

/-- `executor` tells an executor from a null pointer. -/
def runWithExecutor (executor : Bool) (options : GraphRunOptions) :
    GraphProgram (Option (Result GraphRunStats)) :=
  if executor then g.runInternal false options
  else return some (.error
    ⟨.kInvalidArgument, "executor is null; use Run() for synchronous execution", .kTask⟩)

end SimpleTaskGraph

end Corekit.Task
