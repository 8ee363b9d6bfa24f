import Mathlib.Data.List.Basic
import Mathlib.Algebra.Group.Int.Defs

/-! The configuration file of the log manager: `key = value` lines. A
`std::string` is the list of its bytes, each as a character. -/
namespace Corekit.Log

abbrev Text := List Char

def Text.of (literal : String) : Text := literal.toList

structure LoggingOptions where
  logDir : Text := []
  sessionSubdir : Bool := true
  simpleFormat : Bool := false
  jsonFormat : Bool := false
  asyncSink : Bool := false
  asyncQueueSize : Int := 8192
  asyncDropWhenFull : Bool := true
  logtostderr : Bool := false
  minLogLevel : Int := 0
  maxLogSizeMb : Int := 1800
  stopLoggingIfFullDisk : Bool := false
  deriving DecidableEq, Repr

def isBlank (c : Char) : Bool := c = ' ' || c = '\t' || c = '\r' || c = '\n'

def trim (s : Text) : Text := ((s.dropWhile isBlank).reverse.dropWhile isBlank).reverse

/-- `std::tolower` in the C locale. -/
def toLower (s : Text) : Text := s.map Char.toLower

def parseBool (value : Text) : Option Bool :=
  let v := toLower (trim value)
  if v = Text.of "1" ∨ v = Text.of "true" ∨ v = Text.of "yes" ∨ v = Text.of "on" then some true
  else if v = Text.of "0" ∨ v = Text.of "false" ∨ v = Text.of "no" ∨ v = Text.of "off" then some false
  else none

def digitsValue (digits : Text) : Nat :=
  digits.foldl (fun value c => 10 * value + (c.toNat - '0'.toNat)) 0

def isSpace (c : Char) : Bool := isBlank c || c = '\x0b' || c = '\x0c'

def fitsInt (value : Int) : Bool := -2 ^ 31 ≤ value ∧ value < 2 ^ 31

def splitSign : Text → Bool × Text
  | '-' :: rest => (true, rest)
  | '+' :: rest => (false, rest)
  | s => (false, s)

/-- `std::stoi`: blanks, a sign, and as many digits as there are; what follows is
ignored. `none` is an exception. -/
def stoi (s : Text) : Option Int :=
  let signed := splitSign (s.dropWhile isSpace)
  let digits := signed.2.takeWhile Char.isDigit
  let value : Int := if signed.1 then -(digitsValue digits : Int) else digitsValue digits
  if digits = [] then none else if fitsInt value then some value else none

def parseInt (value : Text) : Option Int := stoi (trim value)

def levelFromText (value : Text) : Int :=
  let v := toLower (trim value)
  if v = Text.of "info" then 0
  else if v = Text.of "warning" ∨ v = Text.of "warn" then 1
  else if v = Text.of "error" then 2
  else if v = Text.of "fatal" then 3
  else (parseInt v).getD 0

/-- The text before the first `#` or `//`. -/
def beforeComment : Text → Text
  | [] => []
  | '#' :: _ => []
  | '/' :: '/' :: _ => []
  | c :: rest => c :: beforeComment rest

def cutComment (v : Text) : Text := if beforeComment v = v then v else trim (beforeComment v)

inductive ConfigKey where
  | logDir
  | sessionSubdir
  | simpleFormat
  | jsonFormat
  | asyncSink
  | asyncQueueSize
  | asyncDropWhenFull
  | logtostderr
  | minLogLevel
  | maxLogSize
  | stopLoggingIfFullDisk
  deriving DecidableEq, Repr

def ConfigKey.ofText (key : Text) : Option ConfigKey :=
  if key = Text.of "log_dir" then some .logDir
  else if key = Text.of "session_subdir" then some .sessionSubdir
  else if key = Text.of "simple_format" then some .simpleFormat
  else if key = Text.of "json_format" then some .jsonFormat
  else if key = Text.of "async_sink" then some .asyncSink
  else if key = Text.of "async_queue_size" then some .asyncQueueSize
  else if key = Text.of "async_drop_when_full" then some .asyncDropWhenFull
  else if key = Text.of "logtostderr" then some .logtostderr
  else if key = Text.of "minloglevel" then some .minLogLevel
  else if key = Text.of "max_log_size" then some .maxLogSize
  else if key = Text.of "stop_logging_if_full_disk" then some .stopLoggingIfFullDisk
  else none

/-- What the value of a key makes of the options; `none` if it cannot be read. -/
def ConfigKey.assign (options : LoggingOptions) (value : Text) : ConfigKey → Option LoggingOptions
  | .logDir => some { options with logDir := value }
  | .sessionSubdir => (parseBool value).map fun v => { options with sessionSubdir := v }
  | .simpleFormat => (parseBool value).map fun v => { options with simpleFormat := v }
  | .jsonFormat => (parseBool value).map fun v => { options with jsonFormat := v }
  | .asyncSink => (parseBool value).map fun v => { options with asyncSink := v }
  | .asyncQueueSize =>
    ((parseInt value).filter fun v => v > 0).map fun v => { options with asyncQueueSize := v }
  | .asyncDropWhenFull => (parseBool value).map fun v => { options with asyncDropWhenFull := v }
  | .logtostderr => (parseBool value).map fun v => { options with logtostderr := v }
  | .minLogLevel => some { options with minLogLevel := levelFromText value }
  | .maxLogSize => (parseInt value).map fun v => { options with maxLogSizeMb := v }
  | .stopLoggingIfFullDisk =>
    (parseBool value).map fun v => { options with stopLoggingIfFullDisk := v }

/-- The options so far, and whether every value was readable. -/
structure Parsed where
  options : LoggingOptions := {}
  success : Bool := true
  deriving DecidableEq, Repr

def Parsed.setting (p : Parsed) (key value : Text) : Parsed :=
  match ConfigKey.ofText key with
  | none => p
  | some key =>
    match key.assign p.options value with
    | some options => { p with options := options }
    | none => { p with success := false }

def Parsed.line (p : Parsed) (line : Text) : Parsed :=
  let trimmed := trim line
  if trimmed = [] ∨ trimmed.head? = some '#' ∨ trimmed.take 2 = ['/', '/'] then p
  else
    match trimmed.findIdx? fun c => c = '=' || c = ':' with
    | none => p
    | some sep =>
      p.setting (toLower (trim (trimmed.take sep))) (cutComment (trim (trimmed.drop (sep + 1))))

/-- The text after the last newline is a line of its own unless it is empty, and an
empty line says nothing. -/
def parseConfig (input : Text) : Parsed :=
  (input.splitOn '\n').foldl Parsed.line {}

/-- The integers are values of an `int`, and the queue has room. -/
structure LoggingOptions.WellFormed (options : LoggingOptions) : Prop where
  queueSize : 0 < options.asyncQueueSize
  queueFits : fitsInt options.asyncQueueSize = true
  levelFits : fitsInt options.minLogLevel = true
  sizeFits : fitsInt options.maxLogSizeMb = true

theorem fitsInt_of_stoi {s : Text} {value : Int} (h : stoi s = some value) : fitsInt value = true := by
  unfold stoi at h
  simp only [Option.ite_none_left_eq_some, Option.ite_none_right_eq_some, Option.some.injEq] at h
  obtain ⟨-, hfits, rfl⟩ := h
  exact hfits

theorem fitsInt_levelFromText (value : Text) : fitsInt (levelFromText value) = true := by
  have hparsed : fitsInt ((parseInt (toLower (trim value))).getD 0) = true := by
    cases h : parseInt (toLower (trim value)) with
    | none => rfl
    | some level => exact fitsInt_of_stoi h
  unfold levelFromText
  simp only
  split
  · rfl
  · split
    · rfl
    · split
      · rfl
      · split
        · rfl
        · exact hparsed

theorem ConfigKey.assign_wellFormed {key : ConfigKey} {options options' : LoggingOptions}
    {value : Text} (h : options.WellFormed) (hassign : key.assign options value = some options') :
    options'.WellFormed := by
  obtain ⟨hpos, hqueue, hlevel, hsize⟩ := h
  cases key with
  | logDir =>
    cases hassign
    exact ⟨hpos, hqueue, hlevel, hsize⟩
  | minLogLevel =>
    cases hassign
    exact ⟨hpos, hqueue, fitsInt_levelFromText value, hsize⟩
  | asyncQueueSize =>
    obtain ⟨size, hread, rfl⟩ := Option.map_eq_some_iff.mp hassign
    obtain ⟨hparse, hsize'⟩ := Option.filter_eq_some_iff.mp hread
    exact ⟨of_decide_eq_true hsize', fitsInt_of_stoi hparse, hlevel, hsize⟩
  | maxLogSize =>
    obtain ⟨size, hread, rfl⟩ := Option.map_eq_some_iff.mp hassign
    exact ⟨hpos, hqueue, hlevel, fitsInt_of_stoi hread⟩
  | _ =>
    obtain ⟨flag, -, rfl⟩ := Option.map_eq_some_iff.mp hassign
    exact ⟨hpos, hqueue, hlevel, hsize⟩

theorem Parsed.line_wellFormed {p : Parsed} (h : p.options.WellFormed) (line : Text) :
    (p.line line).options.WellFormed := by
  unfold Parsed.line
  simp only
  split
  · exact h
  · split
    · exact h
    · unfold Parsed.setting
      split
      · exact h
      · split
        · next options hassign => exact ConfigKey.assign_wellFormed h hassign
        · exact h

/-- Whatever the file says, the options fit the code's types. -/
theorem parseConfig_wellFormed (input : Text) : (parseConfig input).options.WellFormed := by
  have hfold (lines : List Text) (p : Parsed) (h : p.options.WellFormed) :
      (lines.foldl Parsed.line p).options.WellFormed := by
    induction lines generalizing p with
    | nil => exact h
    | cons line rest ih => exact ih (p.line line) (Parsed.line_wellFormed h line)
  exact hfold _ {} ⟨by decide, rfl, rfl, rfl⟩

end Corekit.Log
