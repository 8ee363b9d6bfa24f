import Corekit.Log.Manager

/-! Runs of `Init`, `Reload` and `Shutdown`. As long as no `Reload` spoils the
directory, the options that `CurrentOptions` reports are the ones in effect: the
directories, the sink and the flags are those they ask for. -/
namespace Corekit.Log
open Corekit.Api Corekit.Foundation

inductive LogCall where
  | init (appName configPath : Text)
  | reload (configPath : Text)
  | shutdown

structure LogWorld (Disk : Type) where
  state : LogState
  disk : Disk

namespace LogWorld

variable {Disk : Type} (handler : Handler SysOp SysOp.Res Disk)

def step (w : LogWorld Disk) : LogCall → Option (LogWorld Disk)
  | .init appName configPath =>
    let done := (w.state.init appName configPath).run handler w.disk
    some ⟨done.1.2, done.2⟩
  | .reload configPath =>
    let done := (w.state.reload configPath).run handler w.disk
    some ⟨done.1.2, done.2⟩
  | .shutdown => some { w with state := w.state.shutdown.2 }

end LogWorld

namespace LogState

def outputDir (s : LogState) : Text := if s.sessionDir = [] then s.baseDir else s.sessionDir

structure InEffect (s : LogState) : Prop where
  base : s.baseDir = s.options.logDir
  session : s.sessionDir = [] ↔ s.options.logDir = [] ∨ s.options.sessionSubdir = false
  sink : ∃ serial, s.sink = buildSink s.options s.outputDir serial
  flags : s.flags = flagsFor s.options s.sink

/-- Nothing is recorded before `Init` has succeeded and after `Shutdown`. -/
structure Clear (s : LogState) : Prop where
  base : s.baseDir = []
  session : s.sessionDir = []
  sink : s.sink = none

/-- The invariant of the runs. -/
structure Consistent (s : LogState) : Prop where
  running : s.initialized = true → s.InEffect
  stopped : s.initialized = false → s.Clear

variable {Disk : Type} {handler : Handler SysOp SysOp.Res Disk} {s s' : LogState}
  {options : LoggingOptions} {disk : Disk} {dir : Text}

theorem prepareDirectory_some
    (h : ((s.prepareDirectory options).run handler disk).1 = (some dir, s')) :
    s'.baseDir = options.logDir ∧
      (s'.sessionDir = [] ↔ options.logDir = [] ∨ options.sessionSubdir = false) ∧
      s'.outputDir = dir := by
  rw [prepareDirectory_run] at h
  by_cases hdir : options.logDir = []
  · rw [if_pos hdir] at h
    cases h
    exact ⟨hdir.symm, by simp [hdir], rfl⟩
  rw [if_neg hdir] at h
  by_cases hsubdir : options.sessionSubdir = true
  · rw [if_pos hsubdir] at h
    by_cases hneeds : s.needsSession options = true
    · rw [if_pos hneeds] at h
      simp only at h
      split at h
      · next hfirst =>
        have htarget := ne_nil_of_created hfirst
        obtain ⟨hsecond, rfl⟩ := Prod.mk.inj h
        obtain ⟨-, ⟨⟩⟩ := Option.ite_none_right_eq_some.mp hsecond
        exact ⟨rfl, by simp [htarget, hdir, hsubdir], by simp [outputDir, htarget]⟩
      · cases h
    · rw [if_neg hneeds] at h
      obtain ⟨hcreated, rfl⟩ := Prod.mk.inj h
      obtain ⟨-, ⟨⟩⟩ := Option.ite_none_right_eq_some.mp hcreated
      have hrecorded : s.sessionDir ≠ [] ∧ s.baseDir = options.logDir := by
        simpa [needsSession] using hneeds
      exact ⟨hrecorded.2, by simp [hrecorded.1, hdir, hsubdir], by simp [outputDir, hrecorded.1]⟩
  · rw [if_neg hsubdir] at h
    obtain ⟨hcreated, rfl⟩ := Prod.mk.inj h
    obtain ⟨-, ⟨⟩⟩ := Option.ite_none_right_eq_some.mp hcreated
    exact ⟨rfl, by simp [hsubdir], by simp [outputDir]⟩

theorem install_inEffect
    (h : ((s.prepareDirectory options).run handler disk).1 = (some dir, s')) :
    (s'.install options dir).InEffect := by
  obtain ⟨hbase, hsession, rfl⟩ := prepareDirectory_some h
  exact ⟨hbase, hsession, ⟨s'.sinksBuilt, rfl⟩, rfl⟩

theorem prepareDirectory_initialized :
    ((s.prepareDirectory options).run handler disk).1.2.initialized = s.initialized := by
  rw [prepareDirectory_run]
  split
  · rfl
  · split
    · split
      · simp only
        split <;> rfl
      · rfl
    · rfl

variable {appName configPath : Text} {parsed : Parsed} {disk' : Disk}

theorem init_run (happ : appName ≠ []) (hinit : s.initialized = false)
    (hload : (loadFromFile configPath).run handler disk = (parsed, disk')) :
    ((s.init appName configPath).run handler disk).1 =
      if parsed.success then
        match (((s.startGlog appName).prepareDirectory parsed.options).run handler disk').1 with
        | (none, s) => (applyFailure, s.stop)
        | (some dir, s) => (.okStatus, { s.install parsed.options dir with initialized := true })
      else (parseFailure configPath, { s.startGlog appName with glog := none }) := by
  unfold init
  rw [if_neg happ, if_neg (by simp [hinit]), Cmd.bind_eq_bind, Cmd.run_bind, hload]
  simp only
  split
  · have happly := @applyOptions_run _ handler (s.startGlog appName) parsed.options disk'
    rw [Cmd.bind_eq_bind, Cmd.run_bind]
    rcases hprepare : (((s.startGlog appName).prepareDirectory parsed.options).run handler
      disk').1 with ⟨_ | dir, s'⟩
    all_goals
      rw [hprepare] at happly
      rw [happly]
      rfl
  · rfl

theorem Clear.consistent (h : s.Clear) (hinit : s.initialized = false) : s.Consistent :=
  ⟨fun hrunning => absurd (hinit.symm.trans hrunning) Bool.false_ne_true, fun _ => h⟩

theorem InEffect.consistent (h : s.InEffect) (hinit : s.initialized = true) : s.Consistent :=
  ⟨fun _ => h, fun hstopped => absurd (hstopped.symm.trans hinit) Bool.false_ne_true⟩

theorem Consistent.init (h : s.Consistent) :
    ((s.init appName configPath).run handler disk).1.2.Consistent := by
  by_cases happ : appName = []
  · simpa [LogState.init, happ] using h
  by_cases hinit : s.initialized = true
  · simpa [LogState.init, happ, hinit] using h
  have hnot : s.initialized = false := by simpa using hinit
  have hclear := h.stopped hnot
  obtain ⟨parsed, disk', hload⟩ : ∃ parsed disk',
      (loadFromFile configPath).run handler disk = (parsed, disk') := ⟨_, _, rfl⟩
  have hinitialized := @prepareDirectory_initialized _ handler (s.startGlog appName) parsed.options disk'
  rw [init_run happ hnot hload]
  split
  · rcases hprepare : (((s.startGlog appName).prepareDirectory parsed.options).run handler
      disk').1 with ⟨_ | dir, s'⟩
    · rw [hprepare] at hinitialized
      exact Clear.consistent ⟨rfl, rfl, rfl⟩ (hinitialized.trans hnot)
    · obtain ⟨hbase, hsession, hsink, hflags⟩ := install_inEffect hprepare
      exact InEffect.consistent ⟨hbase, hsession, hsink, hflags⟩ rfl
  · exact Clear.consistent ⟨hclear.base, hclear.session, hclear.sink⟩ hnot

theorem Consistent.reload (h : s.Consistent) (hspoils : s.spoils handler configPath disk = false) :
    ((s.reload configPath).run handler disk).1.2.Consistent := by
  cases hstatus : ((s.reload configPath).run handler disk).1.1.ok with
  | false => rwa [reload_keeps hspoils hstatus]
  | true =>
    by_cases hpath : configPath = []
    · simp [LogState.reload, hpath, Status.ok] at hstatus
    by_cases hinit : s.initialized = true
    · obtain ⟨parsed, disk', hload⟩ : ∃ parsed disk',
          (loadFromFile configPath).run handler disk = (parsed, disk') := ⟨_, _, rfl⟩
      have hinitialized := @prepareDirectory_initialized _ handler s parsed.options disk'
      rw [reload_run hpath hinit hload] at hstatus ⊢
      split at hstatus
      · next hsuccess =>
        rw [if_pos hsuccess]
        rcases hprepare : ((s.prepareDirectory parsed.options).run handler disk').1 with ⟨_ | dir, s'⟩
        · rw [hprepare] at hstatus
          cases hstatus
        · rw [hprepare] at hinitialized
          exact (install_inEffect hprepare).consistent (hinitialized.trans hinit)
      · cases hstatus
    · simp [LogState.reload, hpath, hinit, Status.ok] at hstatus

theorem Consistent.shutdown (h : s.Consistent) : s.shutdown.2.Consistent := by
  unfold LogState.shutdown
  split
  · exact h
  · exact Clear.consistent ⟨rfl, rfl, rfl⟩ rfl

end LogState

end Corekit.Log
