import Corekit.Foundation.Command
import Corekit.Log.Config

/-! Paths and directories. The log code reaches the operating system by four
operations; what they answer is up to the handler that runs the program, so
another process may do anything to the disk between two of them. -/
namespace Corekit.Log
open Corekit.Foundation

structure Tm where
  year : Nat
  mon : Nat
  mday : Nat
  hour : Nat
  min : Nat
  sec : Nat
  deriving DecidableEq, Repr

inductive MkdirAnswer where
  | done
  /-- `EEXIST` -/
  | present
  /-- any other `errno` -/
  | refused
  deriving DecidableEq, Repr

inductive SysOp where
  /-- is there a directory -/
  | stat (path : Text)
  | mkdir (path : Text)
  /-- the contents, `none` if the file cannot be opened -/
  | read (path : Text)
  | localTime

def SysOp.Res : SysOp → Type
  | .stat _ => Bool
  | .mkdir _ => MkdirAnswer
  | .read _ => Option Text
  | .localTime => Tm

abbrev SysCmd := Cmd SysOp SysOp.Res

def stat (path : Text) : SysCmd Bool := Cmd.perform (SysOp.stat path)
def mkdir (path : Text) : SysCmd MkdirAnswer := Cmd.perform (SysOp.mkdir path)
def readFile (path : Text) : SysCmd (Option Text) := Cmd.perform (SysOp.read path)
def localTime : SysCmd Tm := Cmd.perform SysOp.localTime

def isPathSeparator (c : Char) : Bool := c = '/' || c = '\\'

def baseName (path : Text) : Text :=
  let stem := path.reverse.dropWhile isPathSeparator
  (stem.takeWhile fun c => !isPathSeparator c).reverse

def joinPath (left right : Text) : Text :=
  if left = [] then right
  else if right = [] then left
  else if left.getLast?.any isPathSeparator then left ++ right
  else left ++ '/' :: right

def pad (width value : Nat) : Text :=
  let digits := Nat.toDigits 10 value
  List.replicate (width - digits.length) '0' ++ digits

def timestampDir : SysCmd Text := do
  let tm ← localTime
  pure (pad 4 tm.year ++ pad 2 tm.mon ++ pad 2 tm.mday ++ '-' :: pad 2 tm.hour ++ pad 2 tm.min ++
    pad 2 tm.sec)

def directoryExists (path : Text) : SysCmd Bool :=
  if path = [] then pure false else stat path

def pathParts : Text → List Text
  | [] => [[]]
  | c :: rest =>
    if isPathSeparator c then [] :: pathParts rest
    else
      match pathParts rest with
      | [] => [[c]]
      | part :: parts => (c :: part) :: parts

/-- The loop of `CreateDirectories`; `false` as soon as a part cannot be made. -/
def makeParts (current : Text) : List Text → SysCmd Bool
  | [] => pure true
  | part :: rest =>
    if part = [] then makeParts current rest
    else do
      let current := if current = [] then part else joinPath current part
      if ← directoryExists current then makeParts current rest
      else
        match ← mkdir current with
        | .refused => pure false
        | _ => makeParts current rest

/-- A path that starts with a separator starts at the root. -/
def makePath : Text → SysCmd Bool
  | [] => makeParts [] (pathParts [])
  | c :: rest =>
    if isPathSeparator c then makeParts ['/'] (pathParts rest)
    else makeParts [] (pathParts (c :: rest))

def createDirectories (path : Text) : SysCmd Bool :=
  if path = [] then pure false
  else do
    if ← directoryExists path then pure true
    else if ← makePath path then directoryExists path
    else pure false

section Runs

variable {Disk : Type} {handler : Handler SysOp SysOp.Res Disk} {path : Text} {disk : Disk}

theorem createDirectories_run (hpath : path ≠ []) :
    (createDirectories path).run handler disk =
      let seen := (stat path).run handler disk
      let made := (makePath path).run handler seen.2
      if seen.1 then (true, seen.2)
      else if made.1 then (stat path).run handler made.2
      else (false, made.2) := by
  have hexists : directoryExists path = stat path := if_neg hpath
  simp only [createDirectories, if_neg hpath, hexists, Cmd.bind_eq_bind, Cmd.run_bind]
  split
  · rfl
  · rw [Cmd.run_bind]
    split <;> rfl

theorem ne_nil_of_created (h : ((createDirectories path).run handler disk).1 = true) :
    path ≠ [] := by
  rintro rfl
  cases h

/-- The last thing that a success has seen is that the directory is there. -/
theorem createDirectories_true (h : ((createDirectories path).run handler disk).1 = true) :
    ∃ before, (stat path).run handler before =
      (true, ((createDirectories path).run handler disk).2) := by
  have hpath := ne_nil_of_created h
  rw [createDirectories_run hpath] at h ⊢
  simp only at h ⊢
  split at h
  · next hseen =>
    rw [if_pos hseen]
    exact ⟨disk, Prod.ext hseen rfl⟩
  · next hseen =>
    rw [if_neg hseen]
    split at h
    · next hmade =>
      rw [if_pos hmade]
      exact ⟨_, Prod.ext h rfl⟩
    · cases h

/-- On a disk that `stat` leaves alone and nobody else touches, a directory that was
made once is there when it is asked for again. -/
theorem createDirectories_again (hstat : ∀ path disk, ((stat path).run handler disk).2 = disk)
    (h : ((createDirectories path).run handler disk).1 = true) :
    ((createDirectories path).run handler ((createDirectories path).run handler disk).2).1 = true := by
  obtain ⟨before, hbefore⟩ := createDirectories_true h
  have hsame : before = ((createDirectories path).run handler disk).2 := by
    rw [← hstat path before, hbefore]
  have hseen : ((stat path).run handler before).1 = true := congrArg Prod.fst hbefore
  rw [← hsame, createDirectories_run (ne_nil_of_created h)]
  simp only [hseen, if_true]

end Runs

end Corekit.Log
