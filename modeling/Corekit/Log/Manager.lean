import Corekit.Api.Status
import Corekit.Foundation.Transition
import Corekit.Log.Directories

/-! `GlogLogManager`: the process-wide state behind it and the calls that change
it. Calls hold `GlobalMutex`, so they follow one another. -/
namespace Corekit.Log
open Corekit.Api Corekit.Foundation

/-- A `FormattedSink`: what it was built from, and which object it is. -/
structure Sink where
  filePath : Text
  json : Bool
  asyncMode : Bool
  queueSize : Int
  dropWhenFull : Bool
  serial : Nat
  deriving DecidableEq, Repr

structure Flags where
  logDir : Text := []
  logtostderr : Bool := false
  alsologtostderr : Bool := false
  colorlogtostderr : Bool := false
  logPrefix : Bool := true
  minloglevel : Int := 0
  stderrthreshold : Int := 2
  v : Int := 0
  maxLogSize : Int := 1800
  logbufsecs : Int := 30
  stopLoggingIfFullDisk : Bool := false
  deriving DecidableEq, Repr

structure LogState where
  options : LoggingOptions := {}
  sessionDir : Text := []
  baseDir : Text := []
  sink : Option Sink := none
  initialized : Bool := false
  failureHandlerInstalled : Bool := false
  flags : Flags := {}
  /-- the name that glog was started with, while it runs -/
  glog : Option Text := none
  sinksBuilt : Nat := 0
  deriving DecidableEq, Repr

namespace LogState

variable (s : LogState)

/-- A session directory is made for the first configuration with this directory. -/
def needsSession (options : LoggingOptions) : Bool :=
  s.sessionDir = [] || s.baseDir ≠ options.logDir

/-- The first half of `ApplyOptions`: the directory to write to, `none` when it
returns false. The directories are recorded as it goes. -/
def prepareDirectory (options : LoggingOptions) : SysCmd (Option Text × LogState) :=
  if options.logDir = [] then pure (some [], { s with sessionDir := [], baseDir := [] })
  else if options.sessionSubdir then
    if s.needsSession options then do
      let target := joinPath options.logDir (← timestampDir)
      if ← createDirectories target then
        let s := { s with sessionDir := target, baseDir := options.logDir }
        if ← createDirectories target then pure (some target, s) else pure (none, s)
      else pure (none, s)
    else do
      if ← createDirectories s.sessionDir then pure (some s.sessionDir, s) else pure (none, s)
  else do
    let s := { s with sessionDir := [], baseDir := options.logDir }
    if ← createDirectories options.logDir then pure (some options.logDir, s) else pure (none, s)

def buildSink (options : LoggingOptions) (outputDir : Text) (serial : Nat) : Option Sink :=
  if (options.simpleFormat ∨ options.jsonFormat) ∧ outputDir ≠ [] then
    some
      { filePath := joinPath outputDir
          (if options.jsonFormat then Text.of "app.jsonl" else Text.of "app.log")
        json := options.jsonFormat
        asyncMode := options.asyncSink
        queueSize := max 1 options.asyncQueueSize
        dropWhenFull := options.asyncDropWhenFull
        serial := serial }
  else none

/-- The flags that the options ask for; glog writes the prefix unless a sink does. -/
def flagsFor (options : LoggingOptions) (sink : Option Sink) : Flags :=
  { logDir := []
    logtostderr := if options.logDir = [] then true else options.logtostderr
    alsologtostderr := false
    colorlogtostderr := true
    logPrefix := sink.isNone
    minloglevel := options.minLogLevel
    stderrthreshold := 2
    v := 0
    maxLogSize := max 0 options.maxLogSizeMb
    logbufsecs := 30
    stopLoggingIfFullDisk := options.stopLoggingIfFullDisk }

/-- The second half of `ApplyOptions`, which cannot fail. The old sink is removed
before the new one is built. -/
def install (options : LoggingOptions) (outputDir : Text) : LogState :=
  let sink := buildSink options outputDir s.sinksBuilt
  { s with
    options := options
    sink := sink
    failureHandlerInstalled := true
    flags := flagsFor options sink
    sinksBuilt := if sink.isSome then s.sinksBuilt + 1 else s.sinksBuilt }

def applyOptions (options : LoggingOptions) : SysCmd (Bool × LogState) := do
  match ← s.prepareDirectory options with
  | (none, s) => pure (false, s)
  | (some outputDir, s) => pure (true, s.install options outputDir)

end LogState

/-- An empty path stands for the default options. -/
def loadFromFile (path : Text) : SysCmd Parsed :=
  if path = [] then pure {}
  else do
    match ← readFile path with
    | none => pure { success := false }
    | some input => pure (parseConfig input)

def parseFailure (path : Text) : Status :=
  ⟨.kInternalError, "failed to parse config: " ++ String.ofList path, .kCore⟩

def applyFailure : Status := ⟨.kInternalError, "failed to apply logging options", .kCore⟩

namespace LogState

variable (s : LogState)

/-- glog writes to stderr until the options are applied. -/
def startGlog (appName : Text) : LogState :=
  { s with
    flags.logtostderr := true
    glog := some (if baseName appName = [] then Text.of "corekit" else baseName appName) }

/-- What `Shutdown` and a failed `Init` take back. -/
def stop : LogState := { s with sink := none, sessionDir := [], baseDir := [], glog := none }

def init (appName configPath : Text) : SysCmd (Status × LogState) :=
  if appName = [] then pure (⟨.kInvalidArgument, "app_name is empty", .kCore⟩, s)
  else if s.initialized then pure (.okStatus, s)
  else do
    let s := s.startGlog appName
    let parsed ← loadFromFile configPath
    if parsed.success then
      match ← s.applyOptions parsed.options with
      | (true, s) => pure (.okStatus, { s with initialized := true })
      | (false, s) => pure (applyFailure, s.stop)
    else pure (parseFailure configPath, { s with glog := none })

def reload (configPath : Text) : SysCmd (Status × LogState) :=
  if configPath = [] then pure (⟨.kInvalidArgument, "config_path is empty", .kCore⟩, s)
  else if s.initialized = false then pure (⟨.kNotInitialized, "not initialized", .kCore⟩, s)
  else do
    let parsed ← loadFromFile configPath
    if parsed.success then
      match ← s.applyOptions parsed.options with
      | (true, s) => pure (.okStatus, s)
      | (false, s) => pure (applyFailure, s)
    else pure (parseFailure configPath, s)

def shutdown : Status × LogState :=
  if s.initialized = false then (.okStatus, s)
  else (.okStatus, { s.stop with initialized := false })

end LogState

namespace LogState

structure SameConfiguration (s s' : LogState) : Prop where
  options : s'.options = s.options
  sessionDir : s'.sessionDir = s.sessionDir
  baseDir : s'.baseDir = s.baseDir
  sink : s'.sink = s.sink
  flags : s'.flags = s.flags

variable {Disk : Type} (handler : Handler SysOp SysOp.Res Disk)

/-- The options get as far as recording another directory, and then a directory
cannot be made: a flat directory that differs from the recorded ones, or a new
session directory that is gone again when it is asked for a second time. -/
def spoilsDirectory (s : LogState) (options : LoggingOptions) (disk : Disk) : Bool :=
  if options.logDir = [] then false
  else if options.sessionSubdir then
    let stamp := timestampDir.run handler disk
    let target := joinPath options.logDir stamp.1
    let first := (createDirectories target).run handler stamp.2
    s.needsSession options && first.1 && !((createDirectories target).run handler first.2).1
  else
    (s.sessionDir ≠ [] || s.baseDir ≠ options.logDir) &&
      !((createDirectories options.logDir).run handler disk).1

/-- The file is read and its options spoil the directory. -/
def spoils (s : LogState) (configPath : Text) (disk : Disk) : Bool :=
  let loaded := (loadFromFile configPath).run handler disk
  configPath ≠ [] && s.initialized && loaded.1.success &&
    s.spoilsDirectory handler loaded.1.options loaded.2

variable {handler} {s : LogState} {options : LoggingOptions} {disk : Disk}

theorem run_created {path : Text} {done : LogState} :
    Cmd.run handler (do if ← createDirectories path then pure (some path, done) else pure (none, done))
        disk =
      let created := (createDirectories path).run handler disk
      (((if created.1 then some path else none), done), created.2) := by
  simp only [Cmd.bind_eq_bind, Cmd.run_bind]
  split <;> rfl

theorem prepareDirectory_run :
    ((s.prepareDirectory options).run handler disk).1 =
      if options.logDir = [] then (some [], { s with sessionDir := [], baseDir := [] })
      else if options.sessionSubdir then
        if s.needsSession options then
          let stamp := timestampDir.run handler disk
          let target := joinPath options.logDir stamp.1
          let first := (createDirectories target).run handler stamp.2
          if first.1 then
            (if ((createDirectories target).run handler first.2).1 then some target else none,
              { s with sessionDir := target, baseDir := options.logDir })
          else (none, s)
        else
          (if ((createDirectories s.sessionDir).run handler disk).1 then some s.sessionDir else none, s)
      else
        (if ((createDirectories options.logDir).run handler disk).1 then some options.logDir else none,
          { s with sessionDir := [], baseDir := options.logDir }) := by
  unfold prepareDirectory
  split
  · rfl
  · split
    · split
      · simp only [Cmd.bind_eq_bind, Cmd.run_bind]
        split
        · exact congrArg Prod.fst run_created
        · rfl
      · exact congrArg Prod.fst run_created
    · exact congrArg Prod.fst run_created

/-- A failure changes nothing unless it spoils the directory. -/
theorem prepareDirectory_keeps (hspoils : s.spoilsDirectory handler options disk = false)
    (hfail : ((s.prepareDirectory options).run handler disk).1.1 = none) :
    ((s.prepareDirectory options).run handler disk).1.2 = s := by
  rw [prepareDirectory_run] at hfail ⊢
  unfold spoilsDirectory at hspoils
  split at hfail
  · cases hfail
  · next hdir =>
    rw [if_neg hdir] at hspoils ⊢
    split at hfail
    · next hsubdir =>
      rw [if_pos hsubdir] at hspoils ⊢
      split at hfail
      · next hneeds =>
        rw [if_pos hneeds]
        simp only at hfail hspoils ⊢
        split at hfail
        · next hfirst =>
          -- the second call found the directory, so there was no failure
          simp only [hneeds, hfirst, Bool.true_and, Bool.not_eq_eq_eq_not, Bool.not_false] at hspoils
          rw [hspoils] at hfail
          cases hfail
        · next hfirst => rw [if_neg hfirst]
      · next hneeds => rw [if_neg hneeds]
    · next hsubdir =>
      rw [if_neg hsubdir] at hspoils ⊢
      have hcreated : ((createDirectories options.logDir).run handler disk).1 = false := by
        simpa using hfail
      have hsame : s.sessionDir = [] ∧ s.baseDir = options.logDir := by simpa [hcreated] using hspoils
      rw [← hsame.1, ← hsame.2]

theorem prepareDirectory_spoils (hspoils : s.spoilsDirectory handler options disk = true) :
    ((s.prepareDirectory options).run handler disk).1.1 = none ∧
      ¬(((s.prepareDirectory options).run handler disk).1.2.sessionDir = s.sessionDir ∧
        ((s.prepareDirectory options).run handler disk).1.2.baseDir = s.baseDir) := by
  rw [prepareDirectory_run]
  unfold spoilsDirectory at hspoils
  split at hspoils
  · cases hspoils
  · next hdir =>
    rw [if_neg hdir]
    split at hspoils
    · next hsubdir =>
      simp only [Bool.and_eq_true, Bool.not_eq_true'] at hspoils
      obtain ⟨⟨hneeds, hfirst⟩, hsecond⟩ := hspoils
      rw [if_pos hsubdir, if_pos hneeds]
      simp only [hfirst, hsecond, if_true]
      refine ⟨rfl, ?_⟩
      rintro ⟨hsession, hbase⟩
      have htarget := ne_nil_of_created hfirst
      simp only [needsSession, Bool.or_eq_true, decide_eq_true_eq] at hneeds
      rcases hneeds with hempty | hother
      · exact htarget (hsession.trans hempty)
      · exact hother hbase.symm
    · next hsubdir =>
      simp only [Bool.and_eq_true, Bool.not_eq_true', Bool.or_eq_true, decide_eq_true_eq] at hspoils
      obtain ⟨hdiffers, hcreated⟩ := hspoils
      rw [if_neg hsubdir]
      simp only [hcreated]
      refine ⟨rfl, ?_⟩
      rintro ⟨hsession, hbase⟩
      rcases hdiffers with hsession' | hbase'
      · exact hsession' hsession.symm
      · exact hbase' hbase.symm

/-- On a disk of our own only a flat directory can be spoiled. -/
theorem session_spoils_nothing (hstat : ∀ path disk, ((stat path).run handler disk).2 = disk)
    (hsubdir : options.sessionSubdir = true) : s.spoilsDirectory handler options disk = false := by
  unfold spoilsDirectory
  rw [if_pos hsubdir]
  split
  · rfl
  · simp only [Bool.and_eq_false_iff, Bool.not_eq_eq_eq_not]
    by_cases hfirst : ((createDirectories (joinPath options.logDir
        (timestampDir.run handler disk).1)).run handler (timestampDir.run handler disk).2).1 = true
    · exact .inr (createDirectories_again hstat hfirst)
    · exact .inl (.inr (by simpa using hfirst))

theorem applyOptions_run :
    ((s.applyOptions options).run handler disk).1 =
      match ((s.prepareDirectory options).run handler disk).1 with
      | (none, s) => (false, s)
      | (some outputDir, s) => (true, s.install options outputDir) := by
  unfold applyOptions
  rw [Cmd.bind_eq_bind, Cmd.run_bind]
  rcases hprepare : ((s.prepareDirectory options).run handler disk).1 with ⟨_ | dir, s'⟩ <;> rfl

variable {configPath : Text} {parsed : Parsed} {disk' : Disk}

theorem reload_run (hpath : configPath ≠ []) (hinit : s.initialized = true)
    (hload : (loadFromFile configPath).run handler disk = (parsed, disk')) :
    ((s.reload configPath).run handler disk).1 =
      if parsed.success then
        match ((s.prepareDirectory parsed.options).run handler disk').1 with
        | (none, s) => (applyFailure, s)
        | (some outputDir, s) => (.okStatus, s.install parsed.options outputDir)
      else (parseFailure configPath, s) := by
  unfold reload
  rw [if_neg hpath, if_neg (by simp [hinit]), Cmd.bind_eq_bind, Cmd.run_bind, hload]
  simp only
  split
  · have happly := @applyOptions_run _ handler s parsed.options disk'
    rw [Cmd.bind_eq_bind, Cmd.run_bind]
    rcases hprepare : ((s.prepareDirectory parsed.options).run handler disk').1 with ⟨_ | dir, s'⟩
    all_goals
      rw [hprepare] at happly
      rw [happly]
      rfl
  · rfl

theorem reload_keeps (hspoils : s.spoils handler configPath disk = false)
    (hfail : ((s.reload configPath).run handler disk).1.1.ok = false) :
    ((s.reload configPath).run handler disk).1.2 = s := by
  by_cases hpath : configPath = []
  · simp [reload, hpath]
  by_cases hinit : s.initialized = true
  · obtain ⟨parsed, disk', hload⟩ : ∃ parsed disk',
        (loadFromFile configPath).run handler disk = (parsed, disk') := ⟨_, _, rfl⟩
    rw [reload_run hpath hinit hload] at hfail ⊢
    simp only [spoils, hload] at hspoils
    split at hfail
    · next hsuccess =>
      rw [if_pos hsuccess]
      have hdirectory : s.spoilsDirectory handler parsed.options disk' = false := by
        simpa [hpath, hinit, hsuccess] using hspoils
      have hkeeps := prepareDirectory_keeps hdirectory
      rcases hprepare : ((s.prepareDirectory parsed.options).run handler disk').1 with ⟨_ | dir, s'⟩
      · rw [hprepare] at hkeeps
        exact hkeeps rfl
      · rw [hprepare] at hfail
        cases hfail
    · next hsuccess => rw [if_neg hsuccess]
  · simp [reload, hpath, hinit]

theorem reload_spoils (hspoils : s.spoils handler configPath disk = true) :
    ((s.reload configPath).run handler disk).1.1.ok = false ∧
      ¬s.SameConfiguration ((s.reload configPath).run handler disk).1.2 := by
  obtain ⟨parsed, disk', hload⟩ : ∃ parsed disk',
      (loadFromFile configPath).run handler disk = (parsed, disk') := ⟨_, _, rfl⟩
  simp only [spoils, hload, Bool.and_eq_true, decide_eq_true_eq] at hspoils
  obtain ⟨⟨⟨hpath, hinit⟩, hsuccess⟩, hdirectory⟩ := hspoils
  obtain ⟨hnone, hchanged⟩ := prepareDirectory_spoils hdirectory
  rw [reload_run hpath hinit hload, if_pos hsuccess]
  rcases hprepare : ((s.prepareDirectory parsed.options).run handler disk').1 with ⟨_ | dir, s'⟩
  · rw [hprepare] at hchanged
    exact ⟨rfl, fun hsame => hchanged ⟨hsame.sessionDir, hsame.baseDir⟩⟩
  · rw [hprepare] at hnone
    cases hnone

end LogState

/-- For every state, every file and every answer of the system: a `Reload` that
fails leaves the configuration as it was, and any later `Reload` does what it would
have done, exactly when it does not spoil the directory. -/
theorem failed_reload_changes_nothing {Disk : Type} (handler : Handler SysOp SysOp.Res Disk)
    (s : LogState) (configPath : Text) (disk : Disk) :
    (((s.reload configPath).run handler disk).1.1.ok = false →
      s.SameConfiguration ((s.reload configPath).run handler disk).1.2 ∧
        ∀ later disk', (((s.reload configPath).run handler disk).1.2.reload later).run handler disk' =
          (s.reload later).run handler disk') ↔
      s.spoils handler configPath disk = false := by
  constructor
  · intro h
    by_contra hspoils
    obtain ⟨hfail, hchanged⟩ := LogState.reload_spoils (eq_true_of_ne_false hspoils)
    exact hchanged (h hfail).1
  · intro hspoils hfail
    rw [LogState.reload_keeps hspoils hfail]
    exact ⟨⟨rfl, rfl, rfl, rfl, rfl⟩, fun _ _ => rfl⟩

/-- A disk that only this process uses; some directories may not be made, and a
second passes between two looks at the clock. -/
structure OwnDisk where
  files : List (Text × Text)
  directories : List Text
  denied : List Text
  clock : Nat

namespace OwnDisk

def handler : Handler SysOp SysOp.Res OwnDisk
  | .stat path, disk => (decide (path ∈ disk.directories), disk)
  | .mkdir path, disk =>
    if path ∈ disk.directories then (MkdirAnswer.present, disk)
    else if path ∈ disk.denied then (MkdirAnswer.refused, disk)
    else (MkdirAnswer.done, { disk with directories := path :: disk.directories })
  | .read path, disk => ((disk.files.find? fun file => file.1 = path).map Prod.snd, disk)
  | .localTime, disk => (⟨2026, 2, 13, 10, 0, disk.clock⟩, { disk with clock := disk.clock + 1 })

/-- One configuration with a session directory, and one with a flat directory that
may not be made. -/
def lockedFlatDir : OwnDisk where
  files := [(Text.of "app.conf", Text.of "log_dir = logs"),
    (Text.of "flat.conf", Text.of "log_dir = /locked\nsession_subdir = off")]
  directories := []
  denied := [Text.of "/locked"]
  clock := 0

end OwnDisk

/-- A failed `Reload` clears the session directory, and the next `Reload` of the
first configuration starts another session instead of going on with the old one. -/
theorem failed_reload_loses_session :
    let started := ((({} : LogState).init (Text.of "app") (Text.of "app.conf")).run
      OwnDisk.handler .lockedFlatDir)
    let failed := (started.1.2.reload (Text.of "flat.conf")).run OwnDisk.handler started.2
    let again := (failed.1.2.reload (Text.of "app.conf")).run OwnDisk.handler failed.2
    let undisturbed := (started.1.2.reload (Text.of "app.conf")).run OwnDisk.handler failed.2
    started.1.1 = .okStatus ∧ failed.1.1 = applyFailure ∧
      started.1.2.sessionDir = Text.of "logs/20260213-100000" ∧
      failed.1.2.sessionDir = [] ∧ failed.1.2.baseDir = Text.of "/locked" ∧
      again.1.2.sessionDir = Text.of "logs/20260213-100001" ∧
      undisturbed.1.2.sessionDir = Text.of "logs/20260213-100000" := by
  decide +kernel

end Corekit.Log
