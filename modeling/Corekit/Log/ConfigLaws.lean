import Corekit.Log.Config
import Mathlib.Data.List.TakeWhile

/-! What a configuration text says: the settings of its lines, and for every key
the last one that can be read. Everything else about the text does not matter. -/
namespace Corekit.Log

inductive Setting where
  | text (value : Text)
  | flag (value : Bool)
  | number (value : Int)

namespace ConfigKey

def get (options : LoggingOptions) : ConfigKey → Setting
  | .logDir => .text options.logDir
  | .sessionSubdir => .flag options.sessionSubdir
  | .simpleFormat => .flag options.simpleFormat
  | .jsonFormat => .flag options.jsonFormat
  | .asyncSink => .flag options.asyncSink
  | .asyncQueueSize => .number options.asyncQueueSize
  | .asyncDropWhenFull => .flag options.asyncDropWhenFull
  | .logtostderr => .flag options.logtostderr
  | .minLogLevel => .number options.minLogLevel
  | .maxLogSize => .number options.maxLogSizeMb
  | .stopLoggingIfFullDisk => .flag options.stopLoggingIfFullDisk

/-- What the value of a line is for its key; `none` where it is malformed. -/
def read (value : Text) : ConfigKey → Option Setting
  | .logDir => some (.text value)
  | .minLogLevel => some (.number (levelFromText value))
  | .maxLogSize => (parseInt value).map .number
  | .asyncQueueSize => ((parseInt value).filter fun v => v > 0).map .number
  | _ => (parseBool value).map .flag

variable {key : ConfigKey} {options options' : LoggingOptions} {value : Text}

theorem assign_eq_none : key.assign options value = none ↔ key.read value = none := by
  cases key <;> simp [assign, read]

theorem get_assign (h : key.assign options value = some options') (other : ConfigKey) :
    some (other.get options') = if other = key then key.read value else some (other.get options) := by
  cases key with
  | logDir | minLogLevel =>
    cases h
    cases other <;> rfl
  | _ =>
    obtain ⟨v, hv, rfl⟩ := Option.map_eq_some_iff.mp h
    simp only [read, hv]
    cases other <;> rfl

theorem ext_get (h : ∀ key : ConfigKey, key.get options = key.get options') : options = options' := by
  obtain ⟨_, _, _, _, _, _, _, _, _, _, _⟩ := options
  obtain ⟨_, _, _, _, _, _, _, _, _, _, _⟩ := options'
  simp only [LoggingOptions.mk.injEq]
  refine ⟨?_, ?_, ?_, ?_, ?_, ?_, ?_, ?_, ?_, ?_, ?_⟩
  · exact Setting.text.inj (h .logDir)
  · exact Setting.flag.inj (h .sessionSubdir)
  · exact Setting.flag.inj (h .simpleFormat)
  · exact Setting.flag.inj (h .jsonFormat)
  · exact Setting.flag.inj (h .asyncSink)
  · exact Setting.number.inj (h .asyncQueueSize)
  · exact Setting.flag.inj (h .asyncDropWhenFull)
  · exact Setting.flag.inj (h .logtostderr)
  · exact Setting.number.inj (h .minLogLevel)
  · exact Setting.number.inj (h .maxLogSize)
  · exact Setting.flag.inj (h .stopLoggingIfFullDisk)

def name : ConfigKey → Text
  | .logDir => Text.of "log_dir"
  | .sessionSubdir => Text.of "session_subdir"
  | .simpleFormat => Text.of "simple_format"
  | .jsonFormat => Text.of "json_format"
  | .asyncSink => Text.of "async_sink"
  | .asyncQueueSize => Text.of "async_queue_size"
  | .asyncDropWhenFull => Text.of "async_drop_when_full"
  | .logtostderr => Text.of "logtostderr"
  | .minLogLevel => Text.of "minloglevel"
  | .maxLogSize => Text.of "max_log_size"
  | .stopLoggingIfFullDisk => Text.of "stop_logging_if_full_disk"

theorem ite_some {p : Prop} [Decidable p] {other : Option ConfigKey} {found : ConfigKey}
    (h : (if p then some found else other) = some key) : (p ∧ found = key) ∨ other = some key := by
  by_cases hp : p
  · rw [if_pos hp] at h
    exact .inl ⟨hp, Option.some.inj h⟩
  · rw [if_neg hp] at h
    exact .inr h

theorem eq_name {text : Text} (h : ofText text = some key) : text = key.name := by
  unfold ofText at h
  iterate 11
    obtain ⟨htext, rfl⟩ | h := ite_some h
    · exact htext
  cases h

end ConfigKey

def splitLine (line : Text) : Option (Text × Text) :=
  let trimmed := trim line
  if trimmed = [] ∨ trimmed.head? = some '#' ∨ trimmed.take 2 = ['/', '/'] then none
  else
    (trimmed.findIdx? fun c => c = '=' || c = ':').map fun sep =>
      (toLower (trim (trimmed.take sep)), trim (trimmed.drop (sep + 1)))

def assignment (line : Text) : Option (ConfigKey × Text) :=
  (splitLine line).bind fun (key, value) =>
    (ConfigKey.ofText key).map fun key => (key, cutComment value)

def Parsed.apply (p : Parsed) (setting : ConfigKey × Text) : Parsed :=
  match setting.1.assign p.options setting.2 with
  | some options => { p with options := options }
  | none => { p with success := false }

theorem Parsed.line_eq (p : Parsed) (line : Text) :
    p.line line = (assignment line).elim p p.apply := by
  unfold Parsed.line assignment splitLine
  simp only
  split
  · rfl
  · cases (trim line).findIdx? fun c => c = '=' || c = ':' with
    | none => rfl
    | some sep =>
      simp only [Option.map_some, Option.bind_some, Parsed.setting]
      cases ConfigKey.ofText (toLower (trim ((trim line).take sep))) <;> rfl

section Fold

variable (p : Parsed) (settings : List (ConfigKey × Text)) (key : ConfigKey)

def valuesOf : List Setting :=
  settings.filterMap fun setting => if setting.1 = key then key.read setting.2 else none

def allReadable : Bool := settings.all fun setting => (setting.1.read setting.2).isSome

theorem Parsed.apply_success (setting : ConfigKey × Text) :
    (p.apply setting).success = (p.success && (setting.1.read setting.2).isSome) := by
  unfold Parsed.apply
  cases hassign : setting.1.assign p.options setting.2 with
  | none =>
    rw [ConfigKey.assign_eq_none.mp hassign]
    exact (Bool.and_false _).symm
  | some options =>
    have hread : setting.1.read setting.2 ≠ none := by
      intro hnone
      cases hassign.symm.trans (ConfigKey.assign_eq_none.mpr hnone)
    rw [Option.isSome_iff_ne_none.mpr hread]
    exact (Bool.and_true _).symm

theorem Parsed.apply_get (setting : ConfigKey × Text) :
    key.get (p.apply setting).options =
      (if setting.1 = key then key.read setting.2 else none).getD (key.get p.options) := by
  unfold Parsed.apply
  cases hassign : setting.1.assign p.options setting.2 with
  | none =>
    have hread := ConfigKey.assign_eq_none.mp hassign
    by_cases hkey : setting.1 = key
    · rw [if_pos hkey, ← hkey, hread]
      rfl
    · rw [if_neg hkey]
      rfl
  | some options =>
    have hget := ConfigKey.get_assign hassign key
    by_cases hkey : setting.1 = key
    · rw [if_pos hkey.symm, hkey] at hget
      rw [if_pos hkey, ← hget]
      rfl
    · rw [if_neg fun h => hkey h.symm] at hget
      rw [if_neg hkey]
      exact Option.some.inj hget

theorem foldl_apply_success :
    (settings.foldl Parsed.apply p).success = (p.success && allReadable settings) := by
  induction settings generalizing p with
  | nil => exact (Bool.and_true _).symm
  | cons setting rest ih =>
    rw [List.foldl_cons, ih, Parsed.apply_success, allReadable, allReadable, List.all_cons,
      Bool.and_assoc]

theorem foldl_apply_get :
    key.get (settings.foldl Parsed.apply p).options =
      (valuesOf settings key).getLast?.getD (key.get p.options) := by
  induction settings generalizing p with
  | nil => rfl
  | cons setting rest ih =>
    rw [List.foldl_cons, ih, Parsed.apply_get, valuesOf, valuesOf, List.filterMap_cons]
    cases if setting.1 = key then key.read setting.2 else none with
    | none => rfl
    | some value =>
      dsimp only
      rw [List.getLast?_cons]
      cases (List.filterMap _ rest).getLast? <;> rfl

end Fold

def settingsOf (lines : List Text) : List (ConfigKey × Text) := lines.filterMap assignment

theorem foldl_line (p : Parsed) (lines : List Text) :
    lines.foldl Parsed.line p = (settingsOf lines).foldl Parsed.apply p := by
  induction lines generalizing p with
  | nil => rfl
  | cons line rest ih =>
    rw [List.foldl_cons, ih, Parsed.line_eq, settingsOf, settingsOf, List.filterMap_cons]
    cases assignment line <;> rfl

/-- Two sequences of settings that no key and no check can tell apart. -/
theorem foldl_apply_congr {settings settings' : List (ConfigKey × Text)}
    (hvalues : ∀ key, valuesOf settings key = valuesOf settings' key)
    (hreadable : allReadable settings = allReadable settings') (p : Parsed) :
    settings.foldl Parsed.apply p = settings'.foldl Parsed.apply p := by
  have hsuccess : (settings.foldl Parsed.apply p).success =
      (settings'.foldl Parsed.apply p).success := by
    rw [foldl_apply_success, foldl_apply_success, hreadable]
  have hoptions : (settings.foldl Parsed.apply p).options =
      (settings'.foldl Parsed.apply p).options := by
    apply ConfigKey.ext_get
    intro key
    rw [foldl_apply_get, foldl_apply_get, hvalues key]
  generalize settings.foldl Parsed.apply p = q at hsuccess hoptions
  generalize settings'.foldl Parsed.apply p = q' at hsuccess hoptions
  cases q
  cases q'
  cases hsuccess
  cases hoptions
  rfl

section Trim

def Blank (s : Text) : Prop := ∀ c ∈ s, isBlank c = true

/-- Neither the first nor the last character is blank. -/
structure Bare (s : Text) : Prop where
  head : ∀ c ∈ s.head?, isBlank c = false
  last : ∀ c ∈ s.getLast?, isBlank c = false

theorem dropWhile_blank {left right : Text} (hleft : Blank left)
    (hright : ∀ c ∈ right.head?, isBlank c = false) :
    (left ++ right).dropWhile isBlank = right := by
  induction left with
  | nil =>
    cases right with
    | nil => rfl
    | cons c rest =>
      rw [List.nil_append, List.dropWhile_cons_of_neg]
      rw [hright c rfl]
      exact Bool.false_ne_true
  | cons c rest ih =>
    obtain ⟨hc, hrest⟩ := List.forall_mem_cons.mp hleft
    rw [List.cons_append, List.dropWhile_cons_of_pos hc, ih hrest]

theorem blank_reverse {s : Text} (h : Blank s) : Blank s.reverse :=
  fun c hc => h c (List.mem_reverse.mp hc)

theorem trim_of_bare {left core right : Text} (hleft : Blank left) (hcore : Bare core)
    (hright : Blank right) : trim (left ++ (core ++ right)) = core := by
  cases core with
  | nil =>
    have hall : (left ++ right).dropWhile isBlank = [] :=
      List.dropWhile_eq_nil_iff.mpr (List.forall_mem_append.mpr ⟨hleft, hright⟩)
    rw [trim, List.nil_append, hall]
    rfl
  | cons c rest =>
    have hhead : ((c :: rest) ++ right).head? = some c := rfl
    rw [trim, dropWhile_blank hleft (by rw [hhead]; exact hcore.head), List.reverse_append,
      dropWhile_blank (blank_reverse hright), List.reverse_reverse]
    rw [List.head?_reverse]
    exact hcore.last

theorem head_dropWhile_blank (s : Text) :
    ∀ c ∈ (s.dropWhile isBlank).head?, isBlank c = false := by
  intro c hc
  have hnot := List.head?_dropWhile_not isBlank s
  rw [Option.mem_def.mp hc] at hnot
  exact hnot

theorem trim_split (s : Text) :
    ∃ left right, s = left ++ (trim s ++ right) ∧ Blank left ∧ Bare (trim s) ∧ Blank right := by
  have hback : trim s ++ ((s.dropWhile isBlank).reverse.takeWhile isBlank).reverse =
      s.dropWhile isBlank := by
    rw [trim, ← List.reverse_append, List.takeWhile_append_dropWhile, List.reverse_reverse]
  refine ⟨s.takeWhile isBlank, ((s.dropWhile isBlank).reverse.takeWhile isBlank).reverse, ?_,
    fun c hc => List.mem_takeWhile_imp hc, ⟨?_, ?_⟩,
    fun c hc => List.mem_takeWhile_imp (List.mem_reverse.mp hc)⟩
  · rw [hback, List.takeWhile_append_dropWhile]
  · intro c hc
    apply head_dropWhile_blank s
    rw [← hback, List.head?_append, Option.mem_def.mp hc]
    rfl
  · intro c hc
    rw [trim, List.getLast?_reverse] at hc
    exact head_dropWhile_blank _ c hc

end Trim

section Comments

variable {v blanks comment : Text}

def IsComment (comment : Text) : Prop :=
  comment.head? = some '#' ∨ comment.take 2 = ['/', '/']

theorem beforeComment_cons {c : Char} {rest : Text} (hhash : c ≠ '#')
    (hslash : ¬ (c = '/' ∧ rest.head? = some '/')) :
    beforeComment (c :: rest) = c :: beforeComment rest := by
  rw [beforeComment]
  · exact hhash
  · rintro rest' rfl rfl
    exact hslash ⟨rfl, rfl⟩

theorem beforeComment_eq_cons {c : Char} {rest : Text}
    (h : beforeComment (c :: rest) = c :: rest) :
    c ≠ '#' ∧ ¬ (c = '/' ∧ rest.head? = some '/') ∧ beforeComment rest = rest := by
  have hhash : c ≠ '#' := by
    rintro rfl
    cases h
  have hslash : ¬ (c = '/' ∧ rest.head? = some '/') := by
    rintro ⟨rfl, hhead⟩
    obtain ⟨tail, rfl⟩ := List.head?_eq_some_iff.mp hhead
    cases h
  rw [beforeComment_cons hhash hslash] at h
  exact ⟨hhash, hslash, (List.cons.inj h).2⟩

theorem beforeComment_of_clean (hhash : '#' ∉ v) (hslash : ¬ ['/', '/'] <:+: v) :
    beforeComment v = v := by
  induction v with
  | nil => rfl
  | cons c rest ih =>
    rw [List.mem_cons, not_or] at hhash
    have hrest : ¬ ['/', '/'] <:+: rest := fun h => hslash (h.trans (List.infix_cons_iff.mpr (.inr List.infix_rfl)))
    rw [beforeComment_cons (Ne.symm hhash.1), ih hhash.2 hrest]
    rintro ⟨rfl, hhead⟩
    obtain ⟨tail, rfl⟩ := List.head?_eq_some_iff.mp hhead
    exact hslash ⟨[], tail, rfl⟩

theorem beforeComment_comment (h : IsComment comment) : beforeComment comment = [] := by
  rcases h with hhash | hslash
  · obtain ⟨rest, rfl⟩ := List.head?_eq_some_iff.mp hhash
    rfl
  · obtain ⟨rest, rfl⟩ : ∃ rest, comment = '/' :: '/' :: rest :=
      ⟨comment.drop 2, by rw [← List.take_append_drop 2 comment, hslash]; rfl⟩
    rfl

theorem beforeComment_append (hv : beforeComment v = v) (hblanks : Blank blanks)
    (hne : blanks ≠ []) (hcomment : IsComment comment) :
    beforeComment (v ++ (blanks ++ comment)) = v ++ blanks := by
  induction v with
  | nil =>
    rw [List.nil_append, List.nil_append]
    clear hne
    induction blanks with
    | nil => exact beforeComment_comment hcomment
    | cons c rest ih =>
      obtain ⟨hc, hrest⟩ := List.forall_mem_cons.mp hblanks
      rw [List.cons_append, beforeComment_cons, ih hrest]
      · rintro rfl
        cases hc
      · rintro ⟨rfl, -⟩
        cases hc
  | cons c rest ih =>
    obtain ⟨hhash, hslash, hrest⟩ := beforeComment_eq_cons hv
    rw [List.cons_append, beforeComment_cons hhash, ih hrest]
    · rfl
    · rintro ⟨rfl, hhead⟩
      cases rest with
      | nil =>
        obtain ⟨b, rest, rfl⟩ := List.exists_cons_of_ne_nil hne
        cases Option.some.inj hhead
        cases hblanks '/' List.mem_cons_self
      | cons d rest => exact hslash ⟨rfl, hhead⟩

theorem IsComment.exists_cons (h : IsComment comment) :
    ∃ c rest, comment = c :: rest ∧ isBlank c = false := by
  rcases h with hhash | hslash
  · obtain ⟨rest, rfl⟩ := List.head?_eq_some_iff.mp hhash
    exact ⟨'#', rest, rfl, rfl⟩
  · cases comment with
    | nil => cases hslash
    | cons c rest => exact ⟨c, rest, rfl, by rw [(List.cons.inj hslash).1]; rfl⟩

theorem IsComment.trim (h : IsComment comment) :
    ∃ right, comment = trim comment ++ right ∧ Blank right ∧ Bare (trim comment) ∧
      IsComment (trim comment) := by
  obtain ⟨left, right, hsplit, hleft, hbare, hright⟩ := trim_split comment
  obtain ⟨c, rest, hcons, hc⟩ := h.exists_cons
  have hnil : left = [] := by
    cases left with
    | nil => rfl
    | cons b left =>
      rw [hcons] at hsplit
      have hblank := hleft b List.mem_cons_self
      rw [← (List.cons.inj hsplit).1, hc] at hblank
      cases hblank
  rw [hnil, List.nil_append] at hsplit
  refine ⟨right, hsplit, hright, hbare, ?_⟩
  generalize Log.trim comment = core at hsplit
  cases core with
  | nil =>
    have hblank := hright c (by rw [List.nil_append] at hsplit; rw [← hsplit, hcons]; simp)
    rw [hc] at hblank
    cases hblank
  | cons d core =>
    rw [hsplit] at h
    rcases h with hhash | hslash
    · exact .inl hhash
    · cases core with
      | cons e core => exact .inr hslash
      | nil =>
        cases right with
        | nil => cases hslash
        | cons b right =>
          have hb : b = '/' := (List.cons.inj (List.cons.inj hslash).2).1
          have hblank := hright b List.mem_cons_self
          rw [hb] at hblank
          cases hblank

theorem Bare.append {core : Text} (hv : Bare v) (hne : v ≠ []) (hcore : Bare core)
    (hcoreNe : core ≠ []) (between : Text) : Bare (v ++ (between ++ core)) := by
  obtain ⟨c, rest, rfl⟩ := List.exists_cons_of_ne_nil hne
  refine ⟨hv.head, ?_⟩
  rw [List.getLast?_append_of_ne_nil _ (List.append_ne_nil_of_right_ne_nil _ hcoreNe),
    List.getLast?_append_of_ne_nil _ hcoreNe]
  exact hcore.last

theorem cutComment_trim {u : Text} (hclean : beforeComment (trim u) = trim u)
    (hblanks : Blank blanks) (hne : blanks ≠ []) (hcomment : IsComment comment) :
    cutComment (trim (u ++ (blanks ++ comment))) = cutComment (trim u) := by
  obtain ⟨right, hsplit, hright, hbare, hmark⟩ := hcomment.trim
  obtain ⟨left, between, hu, hleft, hvalue, hbetween⟩ := trim_split u
  have hcoreNe : trim comment ≠ [] := by
    obtain ⟨c, rest, hcons, -⟩ := hmark.exists_cons
    rw [hcons]
    exact List.cons_ne_nil _ _
  generalize trim comment = core at *
  generalize trim u = v at *
  have hkeep : cutComment v = v := by rw [cutComment, if_pos hclean]
  rw [hkeep]
  by_cases hv : v = []
  · -- no value: all that is left is the comment
    subst hv
    have htrim : trim (u ++ (blanks ++ comment)) = core := by
      rw [hsplit, ← List.append_assoc]
      refine trim_of_bare ?_ hbare hright
      rw [hu]
      exact List.forall_mem_append.mpr ⟨List.forall_mem_append.mpr ⟨hleft, hbetween⟩, hblanks⟩
    rw [htrim, cutComment, beforeComment_comment hmark, if_neg (Ne.symm hcoreNe)]
    rfl
  · have hgap : Blank (between ++ blanks) := List.forall_mem_append.mpr ⟨hbetween, hblanks⟩
    have hgapNe : between ++ blanks ≠ [] := List.append_ne_nil_of_right_ne_nil _ hne
    have htrim : trim (u ++ (blanks ++ comment)) = v ++ ((between ++ blanks) ++ core) := by
      have hall : u ++ (blanks ++ comment) =
          left ++ ((v ++ ((between ++ blanks) ++ core)) ++ right) := by
        rw [hu, hsplit]
        simp only [List.append_assoc]
      rw [hall]
      exact trim_of_bare hleft (hvalue.append hv hbare hcoreNe _) hright
    have hbefore := beforeComment_append hclean hgap hgapNe hmark
    rw [htrim, cutComment, hbefore, if_neg]
    · have hnil : Blank [] := List.forall_mem_nil _
      exact trim_of_bare hnil hvalue hgap
    · intro hsame
      exact hcoreNe (List.self_eq_append_right.mp (List.append_cancel_left hsame))

end Comments

section Lines

variable {line : Text}

/-- The lines that say nothing. -/
inductive Ignored (line : Text) : Prop where
  | blank (h : trim line = [])
  | hash (h : (trim line).head? = some '#')
  | slashes (h : (trim line).take 2 = ['/', '/'])
  | noSeparator (h : ∀ c ∈ line, c ≠ '=' ∧ c ≠ ':')
  | unknownKey {key value : Text} (h : splitLine line = some (key, value))
      (unknown : ConfigKey.ofText key = none)

theorem mem_of_mem_trim {c : Char} (h : c ∈ trim line) : c ∈ line := by
  obtain ⟨left, right, hsplit, -⟩ := trim_split line
  rw [hsplit]
  exact List.mem_append_right _ (List.mem_append_left _ h)

theorem Ignored.assignment (h : Ignored line) : assignment line = none := by
  cases h with
  | blank h => simp [Log.assignment, splitLine, h]
  | hash h => simp [Log.assignment, splitLine, h]
  | slashes h => simp [Log.assignment, splitLine, h]
  | noSeparator h =>
    have hnone : (trim line).findIdx? (fun c => c = '=' || c = ':') = none := by
      rw [List.findIdx?_eq_none_iff]
      intro c hc
      obtain ⟨heq, hcolon⟩ := h c (mem_of_mem_trim hc)
      simp [heq, hcolon]
    simp [Log.assignment, splitLine, hnone]
  | unknownKey h unknown => simp [Log.assignment, h, unknown]

theorem splitLine_some {key value : Text} (h : splitLine line = some (key, value)) :
    ∃ sep, ¬ (trim line = [] ∨ (trim line).head? = some '#' ∨ (trim line).take 2 = ['/', '/']) ∧
      (trim line).findIdx? (fun c => c = '=' || c = ':') = some sep ∧
      key = toLower (trim ((trim line).take sep)) ∧ value = trim ((trim line).drop (sep + 1)) := by
  rw [splitLine] at h
  split_ifs at h with hskip
  obtain ⟨sep, hsep, hpair⟩ := Option.map_eq_some_iff.mp h
  cases hpair
  exact ⟨sep, hskip, hsep, rfl, rfl⟩

theorem not_skipped_append {t : Text} {sep : Nat}
    (hskip : ¬ (t = [] ∨ t.head? = some '#' ∨ t.take 2 = ['/', '/']))
    (hsep : t.findIdx? (fun c => c = '=' || c = ':') = some sep) (tail : Text) :
    ¬ (t ++ tail = [] ∨ (t ++ tail).head? = some '#' ∨ (t ++ tail).take 2 = ['/', '/']) := by
  obtain ⟨hne, hhash, hslash⟩ := not_or.mp hskip |>.imp_right not_or.mp
  match t, hne with
  | [c], _ =>
    have hc : c = '=' ∨ c = ':' := by
      by_contra hnot
      simp [not_or.mp hnot] at hsep
    rintro (h | h | h)
    · cases h
    · exact hhash h
    · have hfirst := (List.cons.inj h).1
      rcases hc with rfl | rfl <;> cases hfirst
  | c :: d :: rest, _ =>
    rintro (h | h | h)
    · cases h
    · exact hhash h
    · exact hslash h

theorem assignment_comment {key value comment : Text} (hline : splitLine line = some (key, value))
    (hclean : beforeComment value = value) (hcomment : IsComment comment) :
    assignment (line ++ ' ' :: comment) = assignment line := by
  obtain ⟨sep, hskip, hsep, hkey, hvalue⟩ := splitLine_some hline
  obtain ⟨left, right, hsplit, hleft, hbare, hright⟩ := trim_split line
  obtain ⟨rest, hrest, hblankRest, hbareComment, hmark⟩ := hcomment.trim
  have hcoreNe : trim comment ≠ [] := by
    obtain ⟨c, tail, hcons, -⟩ := hmark.exists_cons
    rw [hcons]
    exact List.cons_ne_nil _ _
  have hgap : Blank (right ++ [' ']) :=
    List.forall_mem_append.mpr ⟨hright, List.forall_mem_singleton.mpr rfl⟩
  have htrim : trim (line ++ ' ' :: comment) = trim line ++ ((right ++ [' ']) ++ trim comment) := by
    have hall : line ++ ' ' :: comment =
        left ++ ((trim line ++ ((right ++ [' ']) ++ trim comment)) ++ rest) := by
      nth_rewrite 1 [hsplit, hrest]
      simp only [List.append_assoc, List.cons_append, List.nil_append]
    rw [hall]
    exact trim_of_bare hleft (hbare.append (not_or.mp hskip).1 hbareComment hcoreNe _) hblankRest
  have hlt : sep < (trim line).length := (List.findIdx?_eq_some_iff_getElem.mp hsep).1
  have hsplit' : splitLine (line ++ ' ' :: comment) = some (key,
      trim ((trim line).drop (sep + 1) ++ ((right ++ [' ']) ++ trim comment))) := by
    rw [splitLine, htrim, if_neg (not_skipped_append hskip hsep _), List.findIdx?_append, hsep, Option.some_or,
      Option.map_some, List.take_append_of_le_length (Nat.le_of_lt hlt),
      List.drop_append_of_le_length hlt, hkey]
  rw [assignment, assignment, hsplit', hline, Option.bind_some, Option.bind_some]
  dsimp only
  rw [hvalue, cutComment_trim (hvalue ▸ hclean) hgap (by simp) hmark]

end Lines

def joinLines (lines : List Text) : Text := ['\n'].intercalate lines

theorem parseConfig_joinLines {lines : List Text} (h : ∀ line ∈ lines, '\n' ∉ line) :
    parseConfig (joinLines lines) = (settingsOf lines).foldl Parsed.apply {} := by
  rw [parseConfig, foldl_line]
  cases lines with
  | nil => rfl
  | cons line rest => rw [joinLines, List.splitOn_intercalate _ h (List.cons_ne_nil _ _)]

theorem valuesOf_append (left right : List (ConfigKey × Text)) (key : ConfigKey) :
    valuesOf (left ++ right) key = valuesOf left key ++ valuesOf right key :=
  List.filterMap_append ..

theorem foldl_apply_swap {a b : ConfigKey × Text} (hkeys : a.1 ≠ b.1)
    (before after : List (ConfigKey × Text)) (p : Parsed) :
    (before ++ a :: b :: after).foldl Parsed.apply p =
      (before ++ b :: a :: after).foldl Parsed.apply p := by
  apply foldl_apply_congr
  · intro key
    rw [valuesOf_append, valuesOf_append]
    congr 1
    by_cases ha : a.1 = key
    · have hb : b.1 ≠ key := fun hb => hkeys (ha.trans hb.symm)
      simp [valuesOf, List.filterMap_cons, hb]
    · simp [valuesOf, List.filterMap_cons, ha]
  · simp only [allReadable, List.all_append, List.all_cons]
    congr 1
    exact Bool.and_left_comm ..

def lineKey (line : Text) : Option Text := (splitLine line).map Prod.fst

theorem settingsOf_append (left right : List Text) :
    settingsOf (left ++ right) = settingsOf left ++ settingsOf right :=
  List.filterMap_append ..

theorem lineKey_of_assignment {line : Text} {setting : ConfigKey × Text}
    (h : assignment line = some setting) : lineKey line = some setting.1.name := by
  obtain ⟨⟨key, value⟩, hsplit, hmap⟩ := Option.bind_eq_some_iff.mp h
  obtain ⟨found, hfound, rfl⟩ := Option.map_eq_some_iff.mp hmap
  rw [lineKey, hsplit, Option.map_some]
  exact congrArg some (ConfigKey.eq_name hfound)

theorem foldl_swap_lines {a b : Text} (hkeys : lineKey a ≠ lineKey b) (before after : List Text) :
    (settingsOf (before ++ a :: b :: after)).foldl Parsed.apply {} =
      (settingsOf (before ++ b :: a :: after)).foldl Parsed.apply {} := by
  rw [settingsOf_append, settingsOf_append]
  cases ha : assignment a with
  | none => simp only [settingsOf, List.filterMap_cons, ha]
  | some first =>
    cases hb : assignment b with
    | none => simp only [settingsOf, List.filterMap_cons, ha, hb]
    | some second =>
      have hdiffer : first.1 ≠ second.1 := by
        intro hsame
        rw [lineKey_of_assignment ha, lineKey_of_assignment hb, hsame] at hkeys
        exact hkeys rfl
      simp only [settingsOf, List.filterMap_cons, ha, hb]
      exact foldl_apply_swap hdiffer _ _ _

theorem allReadable_eq_false {lines : List Text} :
    allReadable (settingsOf lines) = false ↔
      ∃ line ∈ lines, ∃ key value, assignment line = some (key, value) ∧ key.read value = none := by
  rw [allReadable, List.all_eq_false]
  constructor
  · rintro ⟨⟨key, value⟩, hmem, hread⟩
    obtain ⟨line, hline, hassign⟩ := List.mem_filterMap.mp hmem
    exact ⟨line, hline, key, value, hassign, by simpa using hread⟩
  · rintro ⟨line, hline, key, value, hassign, hread⟩
    exact ⟨(key, value), List.mem_filterMap.mpr ⟨line, hline, hassign⟩, by simp [hread]⟩

/-- The parser depends only on the settings that its lines make. -/
theorem parseConfig_depends_on_settings :
    (∀ before after line, (∀ l ∈ before ++ line :: after, '\n' ∉ l) → Ignored line →
      parseConfig (joinLines (before ++ line :: after)) = parseConfig (joinLines (before ++ after))) ∧
    (∀ before after a b, (∀ l ∈ before ++ a :: b :: after, '\n' ∉ l) → lineKey a ≠ lineKey b →
      parseConfig (joinLines (before ++ a :: b :: after)) =
        parseConfig (joinLines (before ++ b :: a :: after))) ∧
    (∀ before after line comment key value,
      (∀ l ∈ before ++ line :: after, '\n' ∉ l) → '\n' ∉ comment → IsComment comment →
      splitLine line = some (key, value) → '#' ∉ value → ¬ ['/', '/'] <:+: value →
      parseConfig (joinLines (before ++ (line ++ ' ' :: comment) :: after)) =
        parseConfig (joinLines (before ++ line :: after))) ∧
    (∀ input (key : ConfigKey), key.get (parseConfig input).options =
      (valuesOf (settingsOf (input.splitOn '\n')) key).getLast?.getD (key.get {})) ∧
    ∀ input, (parseConfig input).success = false ↔
      ∃ line ∈ input.splitOn '\n', ∃ key value, assignment line = some (key, value) ∧
        key.read value = none := by
  refine ⟨?_, ?_, ?_, ?_, ?_⟩
  · intro before after line hlines hignored
    have hrest : ∀ l ∈ before ++ after, '\n' ∉ l := by
      intro l hl
      apply hlines
      simp only [List.mem_append, List.mem_cons] at hl ⊢
      exact hl.imp_right .inr
    rw [parseConfig_joinLines hlines, parseConfig_joinLines hrest, settingsOf_append,
      settingsOf_append]
    simp only [settingsOf, List.filterMap_cons, hignored.assignment]
  · intro before after a b hlines hkeys
    have hswapped : ∀ l ∈ before ++ b :: a :: after, '\n' ∉ l := by
      intro l hl
      apply hlines
      simp only [List.mem_append, List.mem_cons] at hl ⊢
      tauto
    rw [parseConfig_joinLines hlines, parseConfig_joinLines hswapped]
    exact foldl_swap_lines hkeys before after
  · intro before after line comment key value hlines hbreak hcomment hsplit hhash hslash
    have hlong : ∀ l ∈ before ++ (line ++ ' ' :: comment) :: after, '\n' ∉ l := by
      rw [List.forall_mem_append, List.forall_mem_cons] at hlines ⊢
      refine ⟨hlines.1, ?_, hlines.2.2⟩
      simp only [List.mem_append, List.mem_cons, not_or]
      exact ⟨hlines.2.1, by decide, hbreak⟩
    have hsame := assignment_comment hsplit (beforeComment_of_clean hhash hslash) hcomment
    rw [parseConfig_joinLines hlong, parseConfig_joinLines hlines, settingsOf_append,
      settingsOf_append]
    simp only [settingsOf, List.filterMap_cons, hsame]
  · intro input key
    rw [parseConfig, foldl_line, foldl_apply_get]
  · intro input
    rw [parseConfig, foldl_line, foldl_apply_success, Bool.true_and, allReadable_eq_false]

/-- A comment line, two keys in either order, a comment behind a value. -/
theorem parseConfig_depends_on_settings_small :
    parseConfig (joinLines [Text.of "# on", Text.of "log_dir=a"]) =
      parseConfig (joinLines [Text.of "log_dir=a"]) ∧
    parseConfig (joinLines [Text.of "log_dir=a", Text.of "JSON_format : on"]) =
      parseConfig (joinLines [Text.of "JSON_format : on", Text.of "log_dir=a"]) ∧
    parseConfig (joinLines [Text.of "log_dir=a/ // on"]) =
      parseConfig (joinLines [Text.of "log_dir=a/"]) := by
  obtain ⟨hignored, hswap, hcomment, -⟩ := parseConfig_depends_on_settings
  refine ⟨?_, ?_, ?_⟩
  · exact hignored [] [Text.of "log_dir=a"] (Text.of "# on") (by decide) (.hash (by decide))
  · exact hswap [] [] (Text.of "log_dir=a") (Text.of "JSON_format : on") (by decide) (by decide)
  · exact hcomment [] [] (Text.of "log_dir=a/") (Text.of "// on") (Text.of "log_dir")
      (Text.of "a/") (by decide) (by decide) (.inr (by decide)) (by decide) (by decide) (by decide)

end Corekit.Log
