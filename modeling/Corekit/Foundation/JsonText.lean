import Mathlib.Data.List.Basic

/-! JSON text as bytes: what may stand inside of a string, and a reader of
strings and of objects whose members are strings. Bytes above the control
characters pass unchanged, whatever character they are part of. -/
namespace Corekit.Foundation.JsonText

def quote : UInt8 := 34
def backslash : UInt8 := 92

def hexValue (c : UInt8) : Option Nat :=
  if 48 ≤ c ∧ c ≤ 57 then some (c.toNat - 48)
  else if 97 ≤ c ∧ c ≤ 102 then some (c.toNat - 87)
  else if 65 ≤ c ∧ c ≤ 70 then some (c.toNat - 55)
  else none

def shortEscape (c : UInt8) : Option UInt8 :=
  if c = quote then some quote
  else if c = backslash then some backslash
  else if c = 47 then some 47
  else if c = 98 then some 8
  else if c = 102 then some 12
  else if c = 110 then some 10
  else if c = 114 then some 13
  else if c = 116 then some 9
  else none

/-- What stands between the quotes of a string: plain bytes and whole escapes. -/
inductive Chars : List UInt8 → Prop where
  | nil : Chars []
  | plain {c : UInt8} {rest : List UInt8} (control : 0x20 ≤ c) (hquote : c ≠ quote)
      (hbackslash : c ≠ backslash) (h : Chars rest) : Chars (c :: rest)
  | short {c value : UInt8} {rest : List UInt8} (escape : shortEscape c = some value)
      (h : Chars rest) : Chars (backslash :: c :: rest)
  | unicode {a b c d : UInt8} {rest : List UInt8}
      (digits : ∀ x ∈ [a, b, c, d], (hexValue x).isSome) (h : Chars rest) :
      Chars (backslash :: 117 :: a :: b :: c :: d :: rest)

theorem Chars.append {left right : List UInt8} (hleft : Chars left) (hright : Chars right) :
    Chars (left ++ right) := by
  induction hleft with
  | nil => exact hright
  | plain control hquote hbackslash _ ih => exact .plain control hquote hbackslash ih
  | short escape _ ih => exact .short escape ih
  | unicode digits _ ih => exact .unicode digits ih

def readHex4 : List UInt8 → Option (Nat × List UInt8)
  | a :: b :: c :: d :: rest => do
    let a ← hexValue a
    let b ← hexValue b
    let c ← hexValue c
    let d ← hexValue d
    return (((a * 16 + b) * 16 + c) * 16 + d, rest)
  | _ => none

def utf8 (point : Nat) : List UInt8 :=
  if point < 0x80 then [.ofNat point]
  else if point < 0x800 then [.ofNat (0xC0 + point / 64), .ofNat (0x80 + point % 64)]
  else if point < 0x10000 then
    [.ofNat (0xE0 + point / 4096), .ofNat (0x80 + point / 64 % 64), .ofNat (0x80 + point % 64)]
  else
    [.ofNat (0xF0 + point / 262144), .ofNat (0x80 + point / 4096 % 64),
      .ofNat (0x80 + point / 64 % 64), .ofNat (0x80 + point % 64)]

/-- Behind a `\u`: one unit, or two that are the halves of a surrogate pair. -/
def readUnicode (input : List UInt8) : Option (List UInt8 × List UInt8) := do
  let (unit, rest) ← readHex4 input
  if 0xD800 ≤ unit ∧ unit < 0xDC00 then
    match rest with
    | first :: second :: rest =>
      if first = backslash ∧ second = 117 then
        let (low, rest) ← readHex4 rest
        if 0xDC00 ≤ low ∧ low < 0xE000 then
          return (utf8 (0x10000 + (unit - 0xD800) * 0x400 + (low - 0xDC00)), rest)
        else none
      else none
    | _ => none
  else if 0xDC00 ≤ unit ∧ unit < 0xE000 then none
  else return (utf8 unit, rest)

def readEscape : List UInt8 → Option (List UInt8 × List UInt8)
  | [] => none
  | c :: rest =>
    match shortEscape c with
    | some value => some ([value], rest)
    | none => if c = 117 then readUnicode rest else none

def readString : Nat → List UInt8 → Option (List UInt8 × List UInt8)
  | 0, _ => none
  | _ + 1, [] => none
  | fuel + 1, c :: rest =>
    if c = quote then some ([], rest)
    else if c = backslash then do
      let (value, rest) ← readEscape rest
      let (text, rest) ← readString fuel rest
      return (value ++ text, rest)
    else if c < 0x20 then none
    else do
      let (text, rest) ← readString fuel rest
      return (c :: text, rest)

def unescape (chars : List UInt8) : Option (List UInt8) := do
  let (text, rest) ← readString (chars.length + 1) (chars ++ [quote])
  if rest = [] then return text else none

def skipSpace (input : List UInt8) : List UInt8 :=
  input.dropWhile fun c => c = 0x20 ∨ c = 0x09 ∨ c = 0x0A ∨ c = 0x0D

def expect (c : UInt8) (input : List UInt8) : Option (List UInt8) :=
  match skipSpace input with
  | [] => none
  | first :: rest => if first = c then some rest else none

def readMember (input : List UInt8) : Option ((List UInt8 × List UInt8) × List UInt8) := do
  let rest ← expect quote input
  let (name, rest) ← readString rest.length rest
  let rest ← expect 58 rest
  let rest ← expect quote rest
  let (value, rest) ← readString rest.length rest
  return ((name, value), rest)

def readMembers : Nat → List UInt8 → Option (List (List UInt8 × List UInt8) × List UInt8)
  | 0, _ => none
  | fuel + 1, input => do
    let (member, rest) ← readMember input
    match expect 44 rest with
    | some rest =>
      let (members, rest) ← readMembers fuel rest
      return (member :: members, rest)
    | none =>
      let rest ← expect 125 rest
      return ([member], rest)

def readObject (input : List UInt8) : Option (List (List UInt8 × List UInt8)) := do
  let rest ← expect 123 input
  match expect 125 rest with
  | some rest => if skipSpace rest = [] then return [] else none
  | none =>
    let (members, rest) ← readMembers input.length rest
    if skipSpace rest = [] then return members else none

/-- Characters that the reader takes in one turn for this text. -/
def Stands (chars text : List UInt8) : Prop :=
  ∀ fuel tail, readString (fuel + 1) (chars ++ tail) =
    (readString fuel tail).map fun r => (text ++ r.1, r.2)

theorem Stands.plain {c : UInt8} (control : 0x20 ≤ c) (hquote : c ≠ quote)
    (hbackslash : c ≠ backslash) : Stands [c] [c] := by
  intro fuel tail
  have hnot : ¬ c < 0x20 := UInt8.not_lt.mpr control
  rw [List.singleton_append, readString, if_neg hquote, if_neg hbackslash, if_neg hnot]
  cases readString fuel tail <;> rfl

theorem Stands.escape {chars text : List UInt8}
    (h : ∀ tail, readEscape (chars ++ tail) = some (text, tail)) :
    Stands (backslash :: chars) text := by
  intro fuel tail
  rw [List.cons_append, readString, if_neg (by decide), if_pos rfl, h]
  simp only [Option.bind_eq_bind, Option.bind_some]
  cases readString fuel tail <;> rfl

theorem Stands.short {c value : UInt8} (h : shortEscape c = some value) :
    Stands [backslash, c] [value] := by
  apply Stands.escape
  intro tail
  simp only [List.singleton_append, readEscape, h]

theorem Stands.unicode {a b c d : UInt8} {point : Nat}
    (hdigits : ∀ tail, readHex4 (a :: b :: c :: d :: tail) = some (point, tail))
    (hpoint : point < 0x80) :
    Stands [backslash, 117, a, b, c, d] [.ofNat point] := by
  apply Stands.escape
  intro tail
  have hunicode : readUnicode (a :: b :: c :: d :: tail) = some ([.ofNat point], tail) := by
    rw [readUnicode, hdigits]
    simp only [Option.bind_eq_bind, Option.bind_some]
    rw [if_neg (by omega), if_neg (by omega), utf8, if_pos hpoint]
    rfl
  exact hunicode

def ReadsAs (chars text : List UInt8) : Prop :=
  ∀ rest fuel, chars.length < fuel → readString fuel (chars ++ quote :: rest) = some (text, rest)

theorem ReadsAs.flatMap {encode : UInt8 → List UInt8} {text : List UInt8}
    (hencode : ∀ c ∈ text, Stands (encode c) [c] ∧ encode c ≠ []) :
    ReadsAs (text.flatMap encode) text := by
  intro rest fuel hfuel
  induction text generalizing fuel with
  | nil =>
    obtain ⟨fuel, rfl⟩ := Nat.exists_eq_succ_of_ne_zero (Nat.ne_of_gt hfuel)
    rfl
  | cons c text ih =>
    obtain ⟨⟨hc, hne⟩, htext⟩ := List.forall_mem_cons.mp hencode
    obtain ⟨fuel, rfl⟩ := Nat.exists_eq_succ_of_ne_zero (Nat.ne_of_gt (Nat.zero_lt_of_lt hfuel))
    have hpos := List.length_pos_of_ne_nil hne
    rw [List.flatMap_cons, List.length_append] at hfuel
    rw [List.flatMap_cons, List.append_assoc, hc, ih htext fuel (by omega)]
    rfl

theorem ReadsAs.plain {text : List UInt8}
    (h : ∀ c ∈ text, 0x20 ≤ c ∧ c ≠ quote ∧ c ≠ backslash) : ReadsAs text text := by
  have hself : text.flatMap (fun c => [c]) = text := by simp
  rw [← hself]
  nth_rewrite 2 [hself]
  refine .flatMap fun c hc => ⟨?_, List.cons_ne_nil _ _⟩
  obtain ⟨control, hquote, hbackslash⟩ := h c hc
  exact .plain control hquote hbackslash

theorem ReadsAs.unescape {chars text : List UInt8} (h : ReadsAs chars text) :
    unescape chars = some text := by
  rw [JsonText.unescape, h [] _ (Nat.lt_succ_self _)]
  rfl

theorem chars_flatMap {encode : UInt8 → List UInt8} (hencode : ∀ c, Chars (encode c))
    (text : List UInt8) : Chars (text.flatMap encode) := by
  induction text with
  | nil => exact .nil
  | cons c text ih =>
    rw [List.flatMap_cons]
    exact (hencode c).append ih

theorem hexValue_control {c : UInt8} (h : (hexValue c).isSome) : 0x20 ≤ c := by
  rw [hexValue] at h
  split_ifs at h with hdigit hlower hupper
  · exact UInt8.le_trans (by decide) hdigit.1
  · exact UInt8.le_trans (by decide) hlower.1
  · exact UInt8.le_trans (by decide) hupper.1
  · cases h

theorem shortEscape_control {c value : UInt8} (h : shortEscape c = some value) : 0x20 ≤ c := by
  rw [shortEscape] at h
  split_ifs at h <;> subst_vars <;> decide

theorem Chars.control {chars : List UInt8} (h : Chars chars) : ∀ c ∈ chars, 0x20 ≤ c := by
  induction h with
  | nil => simp
  | plain control hquote hbackslash _ ih => exact List.forall_mem_cons.mpr ⟨control, ih⟩
  | short escape _ ih =>
    refine List.forall_mem_cons.mpr ⟨by decide, List.forall_mem_cons.mpr ⟨?_, ih⟩⟩
    exact shortEscape_control escape
  | @unicode a b c d rest digits _ ih =>
    have hdigits : ∀ x ∈ [a, b, c, d] ++ rest, 0x20 ≤ x := by
      intro x hx
      rcases List.mem_append.mp hx with hdigit | hrest
      · exact hexValue_control (digits x hdigit)
      · exact ih x hrest
    exact List.forall_mem_cons.mpr ⟨by decide, List.forall_mem_cons.mpr ⟨by decide, hdigits⟩⟩

theorem skipSpace_cons {c : UInt8} (hspace : 0x20 < c) (rest : List UInt8) :
    skipSpace (c :: rest) = c :: rest := by
  have hnot : ¬ (c = 0x20 ∨ c = 0x09 ∨ c = 0x0A ∨ c = 0x0D) := by
    rintro (rfl | rfl | rfl | rfl) <;> exact absurd hspace (by decide)
  rw [skipSpace, List.dropWhile_cons_of_neg (by simpa using hnot)]

theorem expect_cons {c : UInt8} (hspace : 0x20 < c) (rest : List UInt8) :
    expect c (c :: rest) = some rest := by
  simp only [expect, skipSpace_cons hspace, ↓reduceIte]

theorem expect_other {c first : UInt8} (hspace : 0x20 < first) (hother : first ≠ c)
    (rest : List UInt8) : expect c (first :: rest) = none := by
  simp only [expect, skipSpace_cons hspace, hother, ↓reduceIte]

def writeMember (name value rest : List UInt8) : List UInt8 :=
  quote :: (name ++ quote :: 58 :: quote :: (value ++ quote :: rest))

theorem readMember_write {nameChars name valueChars value : List UInt8}
    (hname : ReadsAs nameChars name) (hvalue : ReadsAs valueChars value) (rest : List UInt8) :
    readMember (writeMember nameChars valueChars rest) = some ((name, value), rest) := by
  rw [readMember, writeMember, expect_cons (by decide)]
  simp only [Option.bind_eq_bind, Option.bind_some]
  rw [hname _ _ (by rw [List.length_append, List.length_cons]; omega)]
  simp only [Option.bind_some]
  rw [expect_cons (by decide)]
  simp only [Option.bind_some]
  rw [expect_cons (by decide)]
  simp only [Option.bind_some]
  rw [hvalue _ _ (by rw [List.length_append, List.length_cons]; omega)]
  rfl

theorem readMembers_last {fuel : Nat} {input rest : List UInt8} {member : List UInt8 × List UInt8}
    (h : readMember input = some (member, 125 :: rest)) :
    readMembers (fuel + 1) input = some ([member], rest) := by
  rw [readMembers, h]
  simp only [Option.bind_eq_bind, Option.bind_some]
  rw [expect_other (by decide) (by decide)]
  dsimp only
  rw [expect_cons (by decide)]
  rfl

theorem readMembers_more {fuel : Nat} {input rest rest' : List UInt8}
    {member : List UInt8 × List UInt8} {members : List (List UInt8 × List UInt8)}
    (h : readMember input = some (member, 44 :: rest))
    (hmore : readMembers fuel rest = some (members, rest')) :
    readMembers (fuel + 1) input = some (member :: members, rest') := by
  rw [readMembers, h]
  simp only [Option.bind_eq_bind, Option.bind_some]
  rw [expect_cons (by decide)]
  dsimp only
  rw [hmore]
  rfl

/-- An object is longer than four bytes, and one member takes one round. -/
theorem readObject_write {name text rest : List UInt8}
    {members : List (List UInt8 × List UInt8)}
    (h : ∀ fuel, readMembers (fuel + 4) (writeMember name text rest) = some (members, [])) :
    readObject (123 :: writeMember name text rest) = some members := by
  obtain ⟨fuel, hfuel⟩ : ∃ fuel, (123 :: writeMember name text rest).length = fuel + 4 :=
    ⟨name.length + text.length + rest.length + 2, by simp [writeMember]; omega⟩
  rw [readObject, expect_cons (by decide), hfuel]
  simp only [Option.bind_eq_bind, Option.bind_some]
  rw [writeMember, expect_other (by decide) (by decide), ← writeMember]
  dsimp only
  rw [h]
  rfl

end Corekit.Foundation.JsonText
