import Corekit.Foundation.JsonText
import Corekit.Log.FormattedSink
import Mathlib.Data.Bool.AllAny

/-! The lines of the JSON mode, read back: `JsonEscape` against the reader of JSON
strings, and `FormatLine` against the reader of objects. -/
namespace Corekit.Log
open Corekit.Foundation Corekit.Foundation.JsonText

/-- The fields of `std::tm` that `TimestampPrefix` prints. -/
structure LocalTime where
  year : Int
  month : Int
  day : Int
  hour : Int
  minute : Int
  second : Int

def zeroPadded (width : Nat) (value : Int) : Bytes :=
  let digits := Bytes.of (toString value.natAbs)
  if value < 0 then 45 :: (List.replicate (width - 1 - digits.length) 48 ++ digits)
  else List.replicate (width - digits.length) 48 ++ digits

/-- `month` counts from zero and `year` from 1900. The buffer has 64 bytes. -/
def timestampPrefix (tm : LocalTime) (ns : Int) : Bytes :=
  (zeroPadded 4 (tm.year + 1900) ++ zeroPadded 2 (tm.month + 1) ++ zeroPadded 2 tm.day ++
    Bytes.of " " ++ zeroPadded 2 tm.hour ++ Bytes.of ":" ++ zeroPadded 2 tm.minute ++
    Bytes.of ":" ++ zeroPadded 2 tm.second ++ Bytes.of "." ++ zeroPadded 9 ns).take 63

def Plain (c : UInt8) : Prop := 0x20 ≤ c ∧ c ≠ quote ∧ c ≠ backslash

instance : DecidablePred Plain := fun _ => inferInstanceAs (Decidable (_ ∧ _ ∧ _))

theorem plain_digit : ∀ k < 58, 48 ≤ k → Plain (UInt8.ofNat k) := by decide

theorem plain_digits (n : Nat) : ∀ c ∈ Bytes.of (toString n), Plain c := by
  intro c hc
  obtain ⟨digit, hdigit, rfl⟩ := List.mem_map.mp hc
  rw [Nat.toString_eq_repr, Nat.toList_repr] at hdigit
  have hrange := Nat.isDigit_of_mem_toDigits (by decide) (by decide) hdigit
  rw [Char.isDigit, Bool.and_eq_true, decide_eq_true_eq, decide_eq_true_eq] at hrange
  exact plain_digit _ (Nat.lt_succ_of_le (UInt32.le_iff_toNat_le.mp hrange.2))
    (UInt32.le_iff_toNat_le.mp hrange.1)

theorem plain_append {left right : Bytes} (hleft : ∀ c ∈ left, Plain c)
    (hright : ∀ c ∈ right, Plain c) : ∀ c ∈ left ++ right, Plain c :=
  fun c hc => (List.mem_append.mp hc).elim (hleft c) (hright c)

theorem plain_zeroPadded (width : Nat) (value : Int) : ∀ c ∈ zeroPadded width value, Plain c := by
  have hpad : ∀ count, ∀ c ∈ List.replicate count 48 ++ Bytes.of (toString value.natAbs),
      Plain c := by
    intro count
    refine plain_append (fun c hc => ?_) (plain_digits _)
    rw [List.eq_of_mem_replicate hc]
    decide
  rw [zeroPadded]
  split
  · exact List.forall_mem_cons.mpr ⟨by decide, hpad _⟩
  · exact hpad _

theorem plain_timestampPrefix (tm : LocalTime) (ns : Int) :
    ∀ c ∈ timestampPrefix tm ns, Plain c := by
  have hpadded := plain_zeroPadded
  have hspace : ∀ c ∈ Bytes.of " ", Plain c := List.all_iff_forall_prop.mp (by decide)
  have hcolon : ∀ c ∈ Bytes.of ":", Plain c := List.all_iff_forall_prop.mp (by decide)
  have hdot : ∀ c ∈ Bytes.of ".", Plain c := List.all_iff_forall_prop.mp (by decide)
  intro c hc
  have hc := List.mem_of_mem_take hc
  simp only [List.mem_append] at hc
  rcases hc with ((((((((((h | h) | h) | h) | h) | h) | h) | h) | h) | h) | h)
  all_goals first
    | exact hpadded _ _ c h
    | exact hspace c h
    | exact hcolon c h
    | exact hdot c h

theorem plain_levelChar (severity : Int) : Plain (levelChar severity) := by
  have hlevels : ∀ k < 4, Plain ((Bytes.of "IWEF").getD k 0) := by decide
  apply hlevels
  rw [clampInt]
  split_ifs <;> omega

theorem hexValue_hexDigit : ∀ digit < 16, hexValue (hexDigit digit) = some digit := by decide

theorem readHex4_control {c : UInt8} (tail : Bytes) :
    readHex4 (48 :: 48 :: hexDigit (c.toNat / 16) :: hexDigit (c.toNat % 16) :: tail) =
      some (c.toNat, tail) := by
  have hlt := c.toNat_lt
  have hzero : hexValue 48 = some 0 := by decide
  rw [readHex4, hzero, hexValue_hexDigit _ (by omega), hexValue_hexDigit _ (by omega)]
  have hsplit : ((0 * 16 + 0) * 16 + c.toNat / 16) * 16 + c.toNat % 16 = c.toNat := by omega
  simp only [Option.bind_eq_bind, Option.bind_some, hsplit]
  rfl

theorem jsonEscapeByte_stands (c : UInt8) :
    Stands (jsonEscapeByte c) [c] ∧ Chars (jsonEscapeByte c) ∧ jsonEscapeByte c ≠ [] := by
  have hshort : ∀ {d value : UInt8}, shortEscape d = some value →
      Stands [backslash, d] [value] ∧ Chars [backslash, d] ∧ [backslash, d] ≠ [] :=
    fun h => ⟨.short h, .short h .nil, List.cons_ne_nil _ _⟩
  rw [jsonEscapeByte]
  split_ifs with h92 h34 h10 h13 h9 hcontrol
  · subst h92
    exact hshort (by decide)
  · subst h34
    exact hshort (by decide)
  · subst h10
    exact hshort (by decide)
  · subst h13
    exact hshort (by decide)
  · subst h9
    exact hshort (by decide)
  · have hlt : c.toNat < 0x20 := UInt8.lt_iff_toNat_lt.mp hcontrol
    have hchars : Bytes.of "\\u00" = [backslash, 117, 48, 48] := by decide
    rw [hchars]
    refine ⟨?_, ?_, List.cons_ne_nil _ _⟩
    · have hstands := Stands.unicode (readHex4_control (c := c)) (by omega)
      rwa [UInt8.ofNat_toNat] at hstands
    · refine .unicode ?_ .nil
      have hhigh := hexValue_hexDigit (c.toNat / 16) (by omega)
      have hlow := hexValue_hexDigit (c.toNat % 16) (by omega)
      have hzero : (hexValue 48).isSome := by decide
      simp only [List.forall_mem_cons, hhigh, hlow, hzero, Option.isSome_some, true_and]
      simp
  · have hle : 0x20 ≤ c := UInt8.not_lt.mp hcontrol
    exact ⟨.plain hle h34 h92, .plain hle h34 h92 .nil, List.cons_ne_nil _ _⟩

theorem jsonEscape_readsAs (s : Bytes) : ReadsAs (jsonEscape s) s :=
  .flatMap fun c _ => ⟨(jsonEscapeByte_stands c).1, (jsonEscapeByte_stands c).2.2⟩

theorem jsonEscape_chars (s : Bytes) : Chars (jsonEscape s) :=
  chars_flatMap (fun c => (jsonEscapeByte_stands c).2.1) s

/-- The members of a line, as they were before they were written. -/
def lineMembers (timestamp : Bytes) (severity : Int) (location msg : Bytes) :
    List (Bytes × Bytes) :=
  [(Bytes.of "ts", timestamp), (Bytes.of "level", [levelChar severity])] ++
    (if location = [] then [] else [(Bytes.of "source", location)]) ++ [(Bytes.of "message", msg)]

theorem formatLine_eq (timestamp : Bytes) (severity : Int) (location msg : Bytes) :
    formatLine .kJson timestamp severity location msg =
      123 :: writeMember (Bytes.of "ts") timestamp (44 :: writeMember (Bytes.of "level")
        [levelChar severity] (44 ::
          if location = [] then writeMember (Bytes.of "message") (jsonEscape msg) [125]
          else writeMember (Bytes.of "source") (jsonEscape location)
            (44 :: writeMember (Bytes.of "message") (jsonEscape msg) [125]))) := by
  have hts : Bytes.of "\x7b\"ts\":\"" = 123 :: quote :: (Bytes.of "ts" ++ [quote, 58, quote]) := by
    decide
  have hlevel : Bytes.of "\",\"level\":\"" =
      quote :: 44 :: quote :: (Bytes.of "level" ++ [quote, 58, quote]) := by decide
  have hsource : Bytes.of ",\"source\":\"" =
      44 :: quote :: (Bytes.of "source" ++ [quote, 58, quote]) := by decide
  have hmessage : Bytes.of ",\"message\":\"" =
      44 :: quote :: (Bytes.of "message" ++ [quote, 58, quote]) := by decide
  have hquote : Bytes.of "\"" = [quote] := by decide
  have hend : Bytes.of "\"\x7d" = [quote, 125] := by decide
  rw [formatLine, hts, hlevel, hsource, hmessage, hquote, hend]
  by_cases hlocation : location = []
  · simp only [hlocation, ↓reduceIte, writeMember, List.append_assoc, List.cons_append,
      List.nil_append]
  · simp only [hlocation, ↓reduceIte, writeMember, List.append_assoc, List.cons_append,
      List.nil_append]

theorem readMembers_formatLine (tm : LocalTime) (ns severity : Int) (location msg : Bytes)
    (fuel : Nat) :
    readMembers (fuel + 4) (writeMember (Bytes.of "ts") (timestampPrefix tm ns)
      (44 :: writeMember (Bytes.of "level") [levelChar severity] (44 ::
        if location = [] then writeMember (Bytes.of "message") (jsonEscape msg) [125]
        else writeMember (Bytes.of "source") (jsonEscape location)
          (44 :: writeMember (Bytes.of "message") (jsonEscape msg) [125])))) =
      some (lineMembers (timestampPrefix tm ns) severity location msg, []) := by
  have hname : ∀ {name : Bytes}, (name.all fun c => Plain c) → ReadsAs name name :=
    fun h => .plain (List.all_iff_forall_prop.mp h)
  have hts : ReadsAs (Bytes.of "ts") (Bytes.of "ts") := hname (by decide)
  have hlevel : ReadsAs (Bytes.of "level") (Bytes.of "level") := hname (by decide)
  have hsource : ReadsAs (Bytes.of "source") (Bytes.of "source") := hname (by decide)
  have hmessage : ReadsAs (Bytes.of "message") (Bytes.of "message") := hname (by decide)
  have hstamp := ReadsAs.plain (plain_timestampPrefix tm ns)
  have hchar : ReadsAs [levelChar severity] [levelChar severity] :=
    .plain (List.forall_mem_singleton.mpr (plain_levelChar severity))
  have hlast : ∀ fuel, readMembers (fuel + 1)
      (writeMember (Bytes.of "message") (jsonEscape msg) [125]) =
        some ([(Bytes.of "message", msg)], []) :=
    fun _ => readMembers_last (readMember_write hmessage (jsonEscape_readsAs msg) _)
  rw [lineMembers]
  refine readMembers_more (readMember_write hts hstamp _)
    (readMembers_more (readMember_write hlevel hchar _) ?_)
  by_cases hlocation : location = []
  · rw [if_pos hlocation, if_pos hlocation]
    exact hlast _
  · rw [if_neg hlocation, if_neg hlocation]
    exact readMembers_more (readMember_write hsource (jsonEscape_readsAs location) _) (hlast _)

theorem readObject_formatLine (tm : LocalTime) (ns severity : Int) (location msg : Bytes) :
    readObject (formatLine .kJson (timestampPrefix tm ns) severity location msg) =
      some (lineMembers (timestampPrefix tm ns) severity location msg) := by
  rw [formatLine_eq]
  exact readObject_write (readMembers_formatLine tm ns severity location msg)

theorem formatLine_control (tm : LocalTime) (ns severity : Int) (location msg : Bytes) :
    ∀ c ∈ formatLine .kJson (timestampPrefix tm ns) severity location msg, 0x20 ≤ c := by
  have hliteral : ∀ {text : Bytes}, (text.all fun c => 0x20 ≤ c) → ∀ c ∈ text, 0x20 ≤ c :=
    List.all_iff_forall_prop.mp
  have hstamp : ∀ c ∈ timestampPrefix tm ns, 0x20 ≤ c :=
    fun c hc => (plain_timestampPrefix tm ns c hc).1
  have hlevel : ∀ c ∈ [levelChar severity], 0x20 ≤ c :=
    List.forall_mem_singleton.mpr (plain_levelChar severity).1
  have hsource : ∀ c ∈ (if location = [] then []
      else Bytes.of ",\"source\":\"" ++ jsonEscape location ++ Bytes.of "\""), 0x20 ≤ c := by
    split
    · exact List.forall_mem_nil _
    · rw [List.forall_mem_append, List.forall_mem_append]
      exact ⟨⟨hliteral (by decide), (jsonEscape_chars location).control⟩, hliteral (by decide)⟩
  rw [formatLine]
  simp only [List.forall_mem_append]
  exact ⟨⟨⟨⟨⟨⟨⟨⟨hliteral (by decide), hstamp⟩, hliteral (by decide)⟩, hlevel⟩,
    hliteral (by decide)⟩, hsource⟩, hliteral (by decide)⟩, (jsonEscape_chars msg).control⟩,
    hliteral (by decide)⟩

theorem lookup_lineMembers (timestamp : Bytes) (severity : Int) (location msg : Bytes) :
    ((lineMembers timestamp severity location msg).lookup (Bytes.of "source")).getD [] = location ∧
      (lineMembers timestamp severity location msg).lookup (Bytes.of "message") = some msg := by
  have hsource : ∀ name ∈ ["ts", "level", "message"], (Bytes.of "source" == Bytes.of name) = false := by
    decide
  have hmessage : ∀ name ∈ ["ts", "level", "source"],
      (Bytes.of "message" == Bytes.of name) = false := by decide
  simp only [List.forall_mem_cons] at hsource hmessage
  by_cases hlocation : location = []
  · simp [lineMembers, hlocation, List.lookup_cons, hsource, hmessage]
  · simp [lineMembers, hlocation, List.lookup_cons, hsource, hmessage]

/-- `JsonEscape` is undone by reading, and a line of the JSON mode gives back what
it was made of. -/
theorem json_reads_back :
    (∀ s, unescape (jsonEscape s) = some s) ∧ Function.Injective jsonEscape ∧
    (∀ s, Chars (jsonEscape s) ∧ ∀ c ∈ jsonEscape s, 0x20 ≤ c) ∧
    ∀ (tm : LocalTime) (ns severity : Int) (location msg : Bytes),
      newline ∉ formatLine .kJson (timestampPrefix tm ns) severity location msg ∧
      ∃ members,
        readObject (formatLine .kJson (timestampPrefix tm ns) severity location msg) = some members ∧
        (members.lookup (Bytes.of "source")).getD [] = location ∧
        members.lookup (Bytes.of "message") = some msg := by
  have hunescape : ∀ s, unescape (jsonEscape s) = some s := fun s => (jsonEscape_readsAs s).unescape
  refine ⟨hunescape, ?_, fun s => ⟨jsonEscape_chars s, (jsonEscape_chars s).control⟩, ?_⟩
  · intro s s' hsame
    have hread := hunescape s
    rw [hsame, hunescape s'] at hread
    exact (Option.some.inj hread).symm
  · intro tm ns severity location msg
    refine ⟨?_, _, readObject_formatLine tm ns severity location msg, lookup_lineMembers ..⟩
    intro hmem
    exact absurd (formatLine_control tm ns severity location msg _ hmem) (by decide)

end Corekit.Log
