import Corekit.Api.Status
import Mathlib.Data.List.AList

/-! The mutex-guarded map. Every call holds `mu_` from end to end, so a call is
one function of the table. What can throw is answered from outside. -/
namespace Corekit.Concurrent
open Corekit.Api

variable {K V : Type} [DecidableEq K]

abbrev MapType (K V : Type) := AList fun _ : K => V

/-- Where the hash table puts a new element among the others. -/
structure Layout (K V : Type) where
  arrange : MapType K V → MapType K V
  perm : ∀ map, (arrange map).entries.Perm map.entries

inductive Thrown where
  | badAlloc
  | other
  deriving DecidableEq, Repr

/-- What fails during one call: `create` stands for the allocation of the node
and the construction of its key and default value, `assign` for the assignment
of the value, with what a throwing one leaves in the element. -/
structure Faults (V : Type) where
  create : Option Thrown := none
  assign : Option (Thrown × V) := none

def mapStatus (code : StatusCode) (message : String) : Status := ⟨code, message, .kConcurrent⟩

def caught (message : String) : Thrown → Status
  | .badAlloc => mapStatus .kInternalError "map allocation failed"
  | .other => mapStatus .kInternalError message

section Writes

variable [Inhabited V] (layout : Layout K V) (faults : Faults V)

def subscript (map : MapType K V) (key : K) : Except Thrown (MapType K V) :=
  if key ∈ map then .ok map
  else match faults.create with
    | some thrown => .error thrown
    | none => .ok (layout.arrange (map.insert key default))

def assign (map : MapType K V) (key : K) (value : V) : Option Thrown × MapType K V :=
  match faults.assign with
  | some (thrown, left) => (some thrown, map.replace key left)
  | none => (none, map.replace key value)

def subscriptAssign (map : MapType K V) (key : K) (value : V) : Option Thrown × MapType K V :=
  match subscript layout faults map key with
  | .error thrown => (some thrown, map)
  | .ok map => assign faults map key value

def upsert (map : MapType K V) (key : K) (value : V) : Status × MapType K V :=
  match subscriptAssign layout faults map key value with
  | (some thrown, map) => (caught "map upsert failed" thrown, map)
  | (none, map) => (.okStatus, map)

/-- `inserted` is the variable of the caller, `none` for a null pointer. -/
def insertOrAssign (map : MapType K V) (key : K) (value : V) (inserted : Option Bool) :
    Status × Option Bool × MapType K V :=
  if key ∈ map then
    match assign faults map key value with
    | (some thrown, map) => (caught "map insert-or-assign failed" thrown, inserted, map)
    | (none, map) => (.okStatus, inserted.map fun _ => false, map)
  else
    match subscriptAssign layout faults map key value with
    | (some thrown, map) => (caught "map insert-or-assign failed" thrown, inserted, map)
    | (none, map) => (.okStatus, inserted.map fun _ => true, map)

def insertIfAbsent (map : MapType K V) (key : K) (value : V) : Status × MapType K V :=
  if key ∈ map then (mapStatus .kWouldBlock "key already exists", map)
  else
    match subscriptAssign layout faults map key value with
    | (some thrown, map) => (caught "map insert failed" thrown, map)
    | (none, map) => (.okStatus, map)

end Writes

section Reads

variable (map : MapType K V)

def find (key : K) : Result V :=
  match map.lookup key with
  | none => .error (mapStatus .kNotFound "key not found")
  | some value => .ok value

def tryGet (key : K) (out : Option V) : Status × Option V :=
  match out with
  | none => (mapStatus .kInvalidArgument "out is null", none)
  | some kept =>
    match map.lookup key with
    | none => (mapStatus .kNotFound "key not found", some kept)
    | some value => (.okStatus, some value)

def contains (key : K) : Bool := key ∈ map

/-- `fault` is the number of keys that are in the vector when something throws. -/
def snapshotKeys (keys : Option (List K)) (fault : Option (Nat × Thrown)) :
    Status × Option (List K) :=
  match keys, fault with
  | none, _ => (mapStatus .kInvalidArgument "keys is null", none)
  | some _, none => (.okStatus, some map.keys)
  | some _, some (count, .badAlloc) =>
    (mapStatus .kInternalError "snapshot allocation failed", some (map.keys.take count))
  | some _, some (count, .other) =>
    (mapStatus .kInternalError "snapshot failed", some (map.keys.take count))

def approxSize : Nat := map.entries.length

end Reads

section Replace

variable {map : MapType K V} {key : K}

theorem mem_of_lookup {old : V} (h : map.lookup key = some old) : key ∈ map :=
  AList.lookup_isSome.mp (by rw [h]; rfl)

theorem replace_self {old : V} (h : map.lookup key = some old) : map.replace key old = map :=
  AList.ext (List.kreplace_self map.nodupKeys (AList.mem_lookup_iff.mp h))

theorem lookup_replace (value : V) (h : key ∈ map) :
    (map.replace key value).lookup key = some value := by
  obtain ⟨entries, hnodup⟩ := map
  change key ∈ entries.keys at h
  change (entries.kreplace key value).dlookup key = some value
  clear hnodup
  induction entries with
  | nil => cases h
  | cons entry rest ih =>
    obtain ⟨k, v⟩ := entry
    by_cases hk : key = k
    · subst hk
      simp [List.kreplace]
    · have hrest : key ∈ rest.keys := (List.mem_cons.mp h).resolve_left hk
      have hskip : (⟨k, v⟩ :: rest : List (Sigma fun _ : K => V)).kreplace key value =
          ⟨k, v⟩ :: rest.kreplace key value := by
        simp [List.kreplace, hk]
      rw [hskip, List.dlookup_cons_ne _ _ hk]
      exact ih hrest

end Replace

inductive MapWrite where
  | upsert
  | insertOrAssign (inserted : Option Bool)
  | insertIfAbsent
  deriving DecidableEq, Repr

section Failure

variable [Inhabited V] (layout : Layout K V) (faults : Faults V)

def MapWrite.call (map : MapType K V) (key : K) (value : V) : MapWrite → Status × MapType K V
  | .upsert => Concurrent.upsert layout faults map key value
  | .insertOrAssign inserted =>
    ((Concurrent.insertOrAssign layout faults map key value inserted).1,
      (Concurrent.insertOrAssign layout faults map key value inserted).2.2)
  | .insertIfAbsent => Concurrent.insertIfAbsent layout faults map key value

/-- No call of a reader, and no later `InsertIfAbsent`, tells two tables apart. -/
structure SameAnswers (before after : MapType K V) : Prop where
  find : ∀ key, find after key = find before key
  contains : ∀ key, contains after key = contains before key
  tryGet : ∀ key out, tryGet after key out = tryGet before key out
  snapshotKeys : ∀ keys fault, snapshotKeys after keys fault = snapshotKeys before keys fault
  approxSize : approxSize after = approxSize before
  insertIfAbsent : ∀ layout faults key value,
    (insertIfAbsent layout faults after key value).1 =
      (insertIfAbsent layout faults before key value).1

theorem SameAnswers.refl (map : MapType K V) : SameAnswers map map :=
  ⟨fun _ => rfl, fun _ => rfl, fun _ _ => rfl, fun _ _ => rfl, rfl, fun _ _ _ _ => rfl⟩

/-- Where nothing is left half done: the assignment does not throw; or the key
is absent and its element cannot be created either; or the key is present and
either nothing is assigned to it or the assignment restores what it found. -/
def MapWrite.Whole (faults : Faults V) (map : MapType K V) (key : K) (write : MapWrite) : Prop :=
  match faults.assign, map.lookup key with
  | none, _ => True
  | some _, none => faults.create ≠ none
  | some (_, left), some old => write = .insertIfAbsent ∨ left = old

@[simp] theorem caught_ok (message : String) (thrown : Thrown) :
    (caught message thrown).ok = false := by
  cases thrown <;> rfl

variable {map : MapType K V} {key : K} (value : V)

theorem subscriptAssign_absent (h : key ∉ map) :
    subscriptAssign layout faults map key value =
      match faults.create with
      | some thrown => (some thrown, map)
      | none => assign faults (layout.arrange (map.insert key default)) key value := by
  rw [subscriptAssign, subscript, if_neg h]
  cases faults.create <;> rfl

theorem subscriptAssign_present (h : key ∈ map) :
    subscriptAssign layout faults map key value = assign faults map key value := by
  rw [subscriptAssign, subscript, if_pos h]

/-- A throwing assignment to a new element leaves the element behind. -/
theorem mem_assign_arrange (map : MapType K V) (key : K) (value : V) :
    key ∈ (assign faults (layout.arrange (map.insert key default)) key value).2 := by
  have hmem : key ∈ layout.arrange (map.insert key default) :=
    (AList.mem_of_perm (layout.perm _)).mpr ((AList.mem_insert _).mpr (.inl rfl))
  unfold assign
  split
  · exact AList.mem_replace.mpr hmem
  · exact AList.mem_replace.mpr hmem

namespace MapWrite

theorem call_absent (h : key ∉ map) (write : MapWrite) :
    (write.call layout faults map key value).2 =
        (subscriptAssign layout faults map key value).2 ∧
      (write.call layout faults map key value).1.ok =
        (subscriptAssign layout faults map key value).1.isNone := by
  cases write with
  | upsert =>
    rw [call, Concurrent.upsert]
    rcases subscriptAssign layout faults map key value with ⟨_ | thrown, after⟩ <;> simp
  | insertOrAssign inserted =>
    rw [call, Concurrent.insertOrAssign, if_neg h]
    rcases subscriptAssign layout faults map key value with ⟨_ | thrown, after⟩ <;> simp
  | insertIfAbsent =>
    rw [call, Concurrent.insertIfAbsent, if_neg h]
    rcases subscriptAssign layout faults map key value with ⟨_ | thrown, after⟩ <;> simp

theorem call_present (h : key ∈ map) {write : MapWrite} (hwrite : write ≠ .insertIfAbsent) :
    (write.call layout faults map key value).2 = (assign faults map key value).2 ∧
      (write.call layout faults map key value).1.ok = (assign faults map key value).1.isNone := by
  cases write with
  | upsert =>
    rw [call, Concurrent.upsert, subscriptAssign_present layout faults value h]
    rcases assign faults map key value with ⟨_ | thrown, after⟩ <;> simp
  | insertOrAssign inserted =>
    rw [call, Concurrent.insertOrAssign, if_pos h]
    rcases assign faults map key value with ⟨_ | thrown, after⟩ <;> simp
  | insertIfAbsent => exact absurd rfl hwrite

theorem call_insertIfAbsent_present (h : key ∈ map) :
    MapWrite.insertIfAbsent.call layout faults map key value =
      (mapStatus .kWouldBlock "key already exists", map) := by
  rw [call, Concurrent.insertIfAbsent, if_pos h]

theorem failed_write_absent (h : key ∉ map) (write : MapWrite) :
    ((write.call layout faults map key value).1.ok = false →
        SameAnswers map (write.call layout faults map key value).2) ↔
      faults.assign = none ∨ faults.create ≠ none := by
  obtain ⟨hafter, hok⟩ := call_absent layout faults value h write
  rw [hafter, hok, subscriptAssign_absent layout faults value h]
  cases hcreate : faults.create with
  | some thrown => simp [SameAnswers.refl]
  | none =>
    cases hassign : faults.assign with
    | none => simp [assign, hassign]
    | some fault =>
      have hmem := mem_assign_arrange layout faults map key value
      simp only [ne_eq, not_true_eq_false, or_false, reduceCtorEq, iff_false]
      intro hsame
      have hnow := (hsame (by simp [assign, hassign])).contains key
      simp [contains, hmem, h] at hnow

theorem failed_write_present {old : V} (hlookup : map.lookup key = some old) {write : MapWrite}
    (hwrite : write ≠ .insertIfAbsent) :
    ((write.call layout faults map key value).1.ok = false →
        SameAnswers map (write.call layout faults map key value).2) ↔
      ∀ thrown left, faults.assign = some (thrown, left) → left = old := by
  have hpresent : key ∈ map := mem_of_lookup hlookup
  obtain ⟨hafter, hok⟩ := call_present layout faults value hpresent hwrite
  rw [hafter, hok]
  cases hassign : faults.assign with
  | none => simp [assign, hassign]
  | some fault =>
    obtain ⟨thrown, left⟩ := fault
    simp only [assign, hassign, Option.isNone_some, forall_const]
    constructor
    · intro hsame _ _ heq
      cases heq
      have hnow := hsame.find key
      simpa [find, hlookup, lookup_replace left hpresent] using hnow
    · intro hleft
      rw [hleft thrown left rfl, replace_self hlookup]
      exact SameAnswers.refl map

/-- A write that fails goes unnoticed exactly where nothing is left half done. -/
theorem failed_write_is_no_op_iff_whole (layout : Layout K V) (faults : Faults V)
    (map : MapType K V) (key : K) (value : V) (write : MapWrite) :
    ((write.call layout faults map key value).1.ok = false →
        SameAnswers map (write.call layout faults map key value).2) ↔
      write.Whole faults map key := by
  cases hlookup : map.lookup key with
  | none =>
    rw [failed_write_absent layout faults value (AList.lookup_eq_none.mp hlookup)]
    simp only [Whole, hlookup]
    cases faults.assign <;> simp
  | some old =>
    by_cases hwrite : write = .insertIfAbsent
    · subst hwrite
      rw [call_insertIfAbsent_present layout faults value (mem_of_lookup hlookup)]
      simp only [SameAnswers.refl, implies_true, true_iff, Whole, hlookup]
      cases faults.assign <;> simp
    · rw [failed_write_present layout faults value hlookup hwrite]
      simp only [Whole, hlookup, hwrite, false_or]
      rcases faults.assign with _ | ⟨thrown, left⟩ <;> simp

/-- A value whose copy runs out of memory after its element was created, as it is too
long for the element's own buffer: the call reports a failure, the key is there, and
it cannot be inserted any more. -/
theorem failed_insert_leaves_default :
    ∃ (layout : Layout Nat String) (faults : Faults String) (after : MapType Nat String),
      MapWrite.insertIfAbsent.call layout faults ∅ 7 "forty characters of a value on the heap!" =
          (mapStatus .kInternalError "map allocation failed", after) ∧
        ¬ SameAnswers ∅ after ∧ contains (∅ : MapType Nat String) 7 = false ∧
        contains after 7 = true ∧ find after 7 = .ok "" ∧
        (MapWrite.insertIfAbsent.call layout ⟨none, none⟩ after 7
            "forty characters of a value on the heap!").1 =
          mapStatus .kWouldBlock "key already exists" := by
  refine ⟨⟨id, fun _ => .refl _⟩, ⟨none, some (.badAlloc, "")⟩,
    (∅ : MapType Nat String).insert 7 "", rfl, fun hsame => ?_, rfl, rfl, rfl, rfl⟩
  exact absurd (hsame.contains 7) (by decide)

end MapWrite

end Failure

end Corekit.Concurrent
