import Corekit.Api.Status
import Corekit.Foundation.Transition
import Mathlib.Data.Finset.Basic
import Mathlib.Data.Finset.Dedup
import Mathlib.Data.List.Perm.Subperm

/-! `BasicObjectPoolImpl`. An object is its address and `NULL` is 0. Every
insertion into a container allocates through `GlobalStlAllocator` and may throw;
it then leaves its container as it was. Which insertions throw, what the global
allocator answers and whether a constructor returns are arguments. -/
namespace Corekit.Memory
open Corekit.Api Corekit.Foundation

/-- What is decided outside the pool while one object is added: the answer of
`GlobalAllocator::Allocate`, whether `T()` returns, and for each of the four
insertions whether it returns. -/
structure Attempt where
  memory : Option Nat
  constructs : Bool := true
  allPushes : Bool := true
  allSetInserts : Bool := true
  freePushes : Bool := true
  freeSetInserts : Bool := true

/-- `objects` are the constructed objects of this pool, which the global
allocator does not hand out again; no code of the pool reads it. -/
structure ObjectPool where
  maxCached : Nat
  all : List Nat := []
  free : List Nat := []
  allSet : Finset Nat := ∅
  freeSet : Finset Nat := ∅
  objects : List Nat := []

namespace ObjectPool

variable (p : ObjectPool)

/-- `none` when the allocator would answer with memory that is in use. -/
def createOne (attempt : Attempt) : Option (Result Nat × ObjectPool) :=
  let ptr := attempt.memory.getD 0
  if ptr = 0 then some (.error ⟨.kInternalError, "pool allocate failed", .kMemory⟩, p)
  else if ptr ∈ p.objects then none
  else if attempt.constructs then some (.ok ptr, { p with objects := ptr :: p.objects })
  else some (.error ⟨.kInternalError, "pool object construction failed", .kMemory⟩, p)

def destroyOne (obj : Nat) : ObjectPool :=
  if obj = 0 then p else { p with objects := p.objects.erase obj }

def eraseFromAll (ptr : Nat) : ObjectPool :=
  { p with allSet := p.allSet.erase ptr, all := p.all.erase ptr }

/-- `all_.push_back` and `all_set_.insert`; false when one of them throws. -/
def enterAll (ptr : Nat) (attempt : Attempt) : Bool × ObjectPool :=
  if !attempt.allPushes then (false, p)
  else
    let p := { p with all := p.all ++ [ptr] }
    if !attempt.allSetInserts then (false, p)
    else (true, { p with allSet := insert ptr p.allSet })

def enterFree (ptr : Nat) (pushes inserts : Bool) : Bool × ObjectPool :=
  if !pushes then (false, p)
  else
    let p := { p with free := p.free ++ [ptr] }
    if !inserts then (false, p)
    else (true, { p with freeSet := insert ptr p.freeSet })

/-- The insertions of `Reserve`. -/
def enterBoth (ptr : Nat) (attempt : Attempt) : Bool × ObjectPool :=
  match p.enterAll ptr attempt with
  | (false, p) => (false, p)
  | (true, p) => p.enterFree ptr attempt.freePushes attempt.freeSetInserts

/-- The handler of `Reserve`. -/
def undoReserve (ptr : Nat) : ObjectPool :=
  let p := p.eraseFromAll ptr
  { p with freeSet := p.freeSet.erase ptr, free := p.free.erase ptr }.destroyOne ptr

def reserve (p : ObjectPool) : Nat → (Nat → Attempt) → Option (Status × ObjectPool)
  | 0, _ => some (.okStatus, p)
  | count + 1, attempts =>
    match p.createOne (attempts 0) with
    | none => none
    | some (.error status, p) => some (status, p)
    | some (.ok ptr, p) =>
      match p.enterBoth ptr (attempts 0) with
      | (false, p) =>
        some (⟨.kInternalError, "pool bookkeeping failed in Reserve", .kMemory⟩, p.undoReserve ptr)
      | (true, p) => p.reserve count fun i => attempts (i + 1)

def acquire (attempt : Attempt) : Option (Result Nat × ObjectPool) :=
  match p.free.getLast? with
  | some obj => some (.ok obj, { p with free := p.free.dropLast, freeSet := p.freeSet.erase obj })
  | none =>
    match p.createOne attempt with
    | none => none
    | some (.error status, p) => some (.error status, p)
    | some (.ok ptr, p) =>
      match p.enterAll ptr attempt with
      | (false, p) =>
        some (.error ⟨.kInternalError, "pool bookkeeping failed in Acquire", .kMemory⟩,
          (p.eraseFromAll ptr).destroyOne ptr)
      | (true, p) => some (.ok ptr, p)

/-- `ReleaseObject` as it is written: the handler of the two insertions undoes
nothing. -/
def releaseObject (obj : Nat) (pushes inserts : Bool) : Status × ObjectPool :=
  if obj = 0 then (⟨.kInvalidArgument, "obj is null", .kMemory⟩, p)
  else if obj ∉ p.allSet then
    (⟨.kInvalidArgument, "object does not belong to this pool", .kMemory⟩, p)
  else if obj ∈ p.freeSet then (⟨.kInvalidArgument, "object already released", .kMemory⟩, p)
  else if p.free.length ≥ p.maxCached then (.okStatus, (p.eraseFromAll obj).destroyOne obj)
  else
    match p.enterFree obj pushes inserts with
    | (false, p) =>
      (⟨.kInternalError, "pool bookkeeping failed in ReleaseObject", .kMemory⟩, p)
    | (true, p) => (.okStatus, p)

def dropFree (ptr : Nat) : ObjectPool :=
  ({ p with free := p.free.dropLast, freeSet := p.freeSet.erase ptr }.eraseFromAll ptr).destroyOne
    ptr

/-- The loop of `Trim`, with at least as much fuel as there are free objects. -/
def trimLoop (keepFree : Nat) : Nat → ObjectPool → ObjectPool
  | 0, p => p
  | fuel + 1, p =>
    if p.free.length > keepFree then
      match p.free.getLast? with
      | some ptr => trimLoop keepFree fuel (p.dropFree ptr)
      | none => p
    else p

def trim (keepFree : Nat) : Status × ObjectPool := (.okStatus, trimLoop keepFree p.free.length p)

def clear : Status × ObjectPool :=
  if p.free.length ≠ p.all.length then
    (⟨.kWouldBlock, "cannot clear pool while objects are still acquired", .kMemory⟩, p)
  else
    let p := p.all.foldl destroyOne p
    (.okStatus, { p with all := [], free := [], allSet := ∅, freeSet := ∅ })

structure Consistent : Prop where
  all_nodup : p.all.Nodup
  free_nodup : p.free.Nodup
  allSet_eq : p.allSet = p.all.toFinset
  freeSet_eq : p.freeSet = p.free.toFinset
  free_subset : p.free ⊆ p.all

def Acquired (obj : Nat) : Prop := obj ∈ p.all ∧ obj ∉ p.free

structure Sound : Prop extends p.Consistent where
  objects : ∀ obj ∈ p.all, obj ∈ p.objects ∧ obj ≠ 0

variable {p} {p' : ObjectPool} {ptr : Nat} {attempt : Attempt}

theorem createOne_cases {result : Result Nat} (h : p.createOne attempt = some (result, p')) :
    (∃ status, result = .error status ∧ p' = p) ∨
      (result = .ok (attempt.memory.getD 0) ∧ attempt.memory.getD 0 ≠ 0 ∧
        attempt.memory.getD 0 ∉ p.objects ∧
        p' = { p with objects := attempt.memory.getD 0 :: p.objects }) := by
  unfold createOne at h
  dsimp only at h
  split_ifs at h with hnull hused hconstructs
  · cases h
    exact .inl ⟨_, rfl, rfl⟩
  · cases h
    exact .inr ⟨rfl, hnull, hused, rfl⟩
  · cases h
    exact .inl ⟨_, rfl, rfl⟩

theorem enterAll_true (h : (p.enterAll ptr attempt).1 = true) :
    (p.enterAll ptr attempt).2 =
      { p with all := p.all ++ [ptr], allSet := insert ptr p.allSet } := by
  cases attempt with
  | mk memory constructs allPushes allSetInserts _ _ =>
    cases allPushes <;> cases allSetInserts <;> simp_all [enterAll]

theorem enterFree_true {pushes inserts : Bool} (h : (p.enterFree ptr pushes inserts).1 = true) :
    (p.enterFree ptr pushes inserts).2 =
      { p with free := p.free ++ [ptr], freeSet := insert ptr p.freeSet } := by
  cases pushes <;> cases inserts <;> simp_all [enterFree]

structure Unknown (p : ObjectPool) (ptr : Nat) : Prop where
  all : ptr ∉ p.all
  free : ptr ∉ p.free
  allSet : ptr ∉ p.allSet
  freeSet : ptr ∉ p.freeSet

theorem Sound.unknown (hp : p.Sound) (h : ptr ∉ p.objects) : p.Unknown ptr := by
  have hall : ptr ∉ p.all := fun hmem => h (hp.objects ptr hmem).1
  have hfree : ptr ∉ p.free := fun hmem => hall (hp.free_subset hmem)
  constructor
  · exact hall
  · exact hfree
  · simpa [hp.allSet_eq] using hall
  · simpa [hp.freeSet_eq] using hfree

theorem erase_snoc {l : List Nat} (h : ptr ∉ l) : (l ++ [ptr]).erase ptr = l := by
  rw [List.erase_append_right _ h]
  simp

theorem enterAll_undo (hunknown : p.Unknown ptr) (hnull : ptr ≠ 0)
    (h : ({ p with objects := ptr :: p.objects }.enterAll ptr attempt).1 = false) :
    ((({ p with objects := ptr :: p.objects }.enterAll ptr attempt).2.eraseFromAll ptr).destroyOne
      ptr) = p := by
  have hall := List.erase_of_not_mem hunknown.all
  have hset := Finset.erase_eq_of_notMem hunknown.allSet
  have hsnoc := erase_snoc hunknown.all
  cases attempt with
  | mk memory constructs allPushes allSetInserts _ _ =>
    cases allPushes <;> cases allSetInserts <;>
      simp [enterAll, eraseFromAll, destroyOne, hnull, hall, hset, hsnoc] at h ⊢

theorem enterBoth_undo (hunknown : p.Unknown ptr) (hnull : ptr ≠ 0)
    (h : ({ p with objects := ptr :: p.objects }.enterBoth ptr attempt).1 = false) :
    ({ p with objects := ptr :: p.objects }.enterBoth ptr attempt).2.undoReserve ptr = p := by
  have hall := List.erase_of_not_mem hunknown.all
  have hfree := List.erase_of_not_mem hunknown.free
  have hset := Finset.erase_eq_of_notMem hunknown.allSet
  have hfreeSet := Finset.erase_eq_of_notMem hunknown.freeSet
  have hsnoc := erase_snoc hunknown.all
  have hfreeSnoc := erase_snoc hunknown.free
  have hinsert := Finset.erase_insert hunknown.allSet
  cases attempt with
  | mk memory constructs allPushes allSetInserts freePushes freeSetInserts =>
    cases allPushes <;> cases allSetInserts <;> cases freePushes <;> cases freeSetInserts <;>
      simp [enterBoth, enterAll, enterFree, undoReserve, eraseFromAll, destroyOne, hnull, hall,
        hfree, hset, hfreeSet, hsnoc, hfreeSnoc, hinsert] at h ⊢

structure Keeps (p p' : ObjectPool) : Prop where
  sound : p'.Sound
  acquired : ∀ obj, p'.Acquired obj ↔ p.Acquired obj

theorem Keeps.refl (hp : p.Sound) : p.Keeps p := ⟨hp, fun _ => .rfl⟩

theorem Keeps.trans {p'' : ObjectPool} (h : p.Keeps p') (h' : p'.Keeps p'') : p.Keeps p'' :=
  ⟨h'.sound, fun obj => (h'.acquired obj).trans (h.acquired obj)⟩

theorem nodup_snoc {l : List Nat} (h : ptr ∉ l) (hl : l.Nodup) : (l ++ [ptr]).Nodup := by
  simpa using hl.concat h

theorem toFinset_snoc (l : List Nat) : (l ++ [ptr]).toFinset = insert ptr l.toFinset := by
  ext obj
  rw [List.mem_toFinset, List.mem_append, List.mem_singleton, Finset.mem_insert, List.mem_toFinset,
    or_comm]

theorem Sound.addAll (hp : p.Sound) (hnew : ptr ∉ p.objects) (hnull : ptr ≠ 0) :
    { p with
      all := p.all ++ [ptr]
      allSet := insert ptr p.allSet
      objects := ptr :: p.objects : ObjectPool }.Sound := by
  constructor
  · constructor
    · exact nodup_snoc (hp.unknown hnew).all hp.all_nodup
    · exact hp.free_nodup
    · change insert ptr p.allSet = (p.all ++ [ptr]).toFinset
      rw [hp.allSet_eq, toFinset_snoc]
    · exact hp.freeSet_eq
    · exact fun obj hobj => List.mem_append_left _ (hp.free_subset hobj)
  · intro obj hobj
    simp only [List.mem_append, List.mem_singleton] at hobj
    obtain hobj | rfl := hobj
    · exact ⟨List.mem_cons_of_mem _ (hp.objects obj hobj).1, (hp.objects obj hobj).2⟩
    · exact ⟨List.mem_cons_self, hnull⟩

theorem acquired_addAll (hfree : ptr ∉ p.free) (objects : List Nat) (allSet : Finset Nat)
    (obj : Nat) :
    { p with all := p.all ++ [ptr], allSet := allSet, objects := objects : ObjectPool }.Acquired
      obj ↔ p.Acquired obj ∨ obj = ptr := by
  simp only [Acquired, List.mem_append, List.mem_singleton]
  constructor
  · rintro ⟨hall | rfl, hobj⟩
    · exact .inl ⟨hall, hobj⟩
    · exact .inr rfl
  · rintro (⟨hall, hobj⟩ | rfl)
    · exact ⟨.inl hall, hobj⟩
    · exact ⟨.inr rfl, hfree⟩

theorem Sound.addFree (hp : p.Sound) (hacquired : p.Acquired ptr) :
    { p with
      free := p.free ++ [ptr]
      freeSet := insert ptr p.freeSet : ObjectPool }.Sound := by
  constructor
  · constructor
    · exact hp.all_nodup
    · exact nodup_snoc hacquired.2 hp.free_nodup
    · exact hp.allSet_eq
    · change insert ptr p.freeSet = (p.free ++ [ptr]).toFinset
      rw [hp.freeSet_eq, toFinset_snoc]
    · intro obj hobj
      simp only [List.mem_append, List.mem_singleton] at hobj
      obtain hobj | rfl := hobj
      · exact hp.free_subset hobj
      · exact hacquired.1
  · exact hp.objects

theorem acquired_addFree (freeSet : Finset Nat) (obj : Nat) :
    { p with free := p.free ++ [ptr], freeSet := freeSet : ObjectPool }.Acquired obj ↔
      p.Acquired obj ∧ obj ≠ ptr := by
  simp [Acquired, and_assoc]

theorem enterBoth_true (h : (p.enterBoth ptr attempt).1 = true) :
    (p.enterBoth ptr attempt).2 =
      { p with
        all := p.all ++ [ptr]
        free := p.free ++ [ptr]
        allSet := insert ptr p.allSet
        freeSet := insert ptr p.freeSet } := by
  cases attempt with
  | mk memory constructs allPushes allSetInserts freePushes freeSetInserts =>
    cases allPushes <;> cases allSetInserts <;> cases freePushes <;> cases freeSetInserts <;>
      simp [enterBoth, enterAll, enterFree] at h ⊢

theorem Sound.enterBoth (hp : p.Sound) (hnew : ptr ∉ p.objects) (hnull : ptr ≠ 0)
    (h : ({ p with objects := ptr :: p.objects }.enterBoth ptr attempt).1 = true) :
    p.Keeps ({ p with objects := ptr :: p.objects }.enterBoth ptr attempt).2 := by
  have hunknown := hp.unknown hnew
  have hadded := acquired_addAll hunknown.free (ptr :: p.objects) (insert ptr p.allSet)
  rw [enterBoth_true h]
  constructor
  · exact (hp.addAll hnew hnull).addFree ((hadded ptr).mpr (.inr rfl))
  · intro obj
    rw [acquired_addFree (p := { p with
      all := p.all ++ [ptr]
      allSet := insert ptr p.allSet
      objects := ptr :: p.objects }), hadded]
    constructor
    · rintro ⟨hobj | rfl, hne⟩
      · exact hobj
      · exact absurd rfl hne
    · intro hobj
      exact ⟨.inl hobj, fun heq => hunknown.all (heq ▸ hobj.1)⟩

theorem Sound.reserve {count : Nat} {attempts : Nat → Attempt} {status : Status} (hp : p.Sound)
    (h : p.reserve count attempts = some (status, p')) : p.Keeps p' := by
  induction count generalizing p attempts with
  | zero =>
    cases h
    exact .refl hp
  | succ count ih =>
    unfold ObjectPool.reserve at h
    cases hcreate : p.createOne (attempts 0) with
    | none => simp [hcreate] at h
    | some created =>
      obtain ⟨result, q⟩ := created
      obtain ⟨error, rfl, rfl⟩ | ⟨rfl, hnull, hnew, rfl⟩ := createOne_cases hcreate
      · simp only [hcreate] at h
        cases h
        exact .refl hp
      · simp only [hcreate] at h
        split at h
        next q hq =>
          cases h
          have hundo := enterBoth_undo (hp.unknown hnew) hnull (congrArg Prod.fst hq)
          rw [hq] at hundo
          rw [hundo]
          exact .refl hp
        next q hq =>
          have hkeeps := hp.enterBoth hnew hnull (congrArg Prod.fst hq)
          rw [hq] at hkeeps
          exact hkeeps.trans (ih hkeeps.sound h)

theorem Sound.popFree {rest : List Nat} (hp : p.Sound) (hfree : p.free = rest ++ [ptr]) :
    { p with free := p.free.dropLast, freeSet := p.freeSet.erase ptr : ObjectPool }.Sound := by
  have hnodup := hp.free_nodup
  rw [hfree] at hnodup
  have hrest := List.nodup_append.mp hnodup
  have hptr : ptr ∉ rest := fun hmem => hrest.2.2 ptr hmem ptr (List.mem_singleton_self _) rfl
  constructor
  · constructor
    · exact hp.all_nodup
    · simpa [hfree] using hrest.1
    · exact hp.allSet_eq
    · ext obj
      simp only [hp.freeSet_eq, hfree, List.dropLast_concat, Finset.mem_erase,
        List.mem_toFinset, List.mem_append, List.mem_singleton]
      constructor
      · rintro ⟨hne, hobj | heq⟩
        · exact hobj
        · exact absurd heq hne
      · exact fun hobj => ⟨fun heq => hptr (heq ▸ hobj), .inl hobj⟩
    · intro obj hobj
      apply hp.free_subset
      simp only [hfree, List.dropLast_concat] at hobj ⊢
      exact List.mem_append_left _ hobj
  · exact hp.objects

theorem acquired_popFree {rest : List Nat} (hp : p.Sound) (hfree : p.free = rest ++ [ptr])
    (freeSet : Finset Nat) (obj : Nat) :
    { p with free := p.free.dropLast, freeSet := freeSet : ObjectPool }.Acquired obj ↔
      p.Acquired obj ∨ obj = ptr := by
  have hnodup := hp.free_nodup
  rw [hfree] at hnodup
  have hrest := List.nodup_append.mp hnodup
  have hptr : ptr ∉ rest := fun hmem => hrest.2.2 ptr hmem ptr (List.mem_singleton_self _) rfl
  have hall : ptr ∈ p.all := hp.free_subset (by simp [hfree])
  simp only [Acquired, hfree, List.dropLast_concat, List.mem_append, List.mem_singleton]
  constructor
  · rintro ⟨hobj, hnot⟩
    by_cases heq : obj = ptr
    · exact .inr heq
    · exact .inl ⟨hobj, fun hmem => hmem.elim hnot heq⟩
  · rintro (⟨hobj, hnot⟩ | rfl)
    · exact ⟨hobj, fun hmem => hnot (.inl hmem)⟩
    · exact ⟨hall, hptr⟩

theorem Sound.dropAll (hp : p.Sound) (hacquired : p.Acquired ptr) :
    ((p.eraseFromAll ptr).destroyOne ptr).Sound := by
  have hnull := (hp.objects ptr hacquired.1).2
  simp only [destroyOne, eraseFromAll, if_neg hnull]
  constructor
  · constructor
    · exact hp.all_nodup.erase ptr
    · exact hp.free_nodup
    · ext obj
      simp [hp.allSet_eq, hp.all_nodup.mem_erase_iff]
    · exact hp.freeSet_eq
    · intro obj hobj
      have hne : obj ≠ ptr := fun heq => hacquired.2 (heq ▸ hobj)
      exact (List.mem_erase_of_ne hne).mpr (hp.free_subset hobj)
  · intro obj hobj
    have hmem := hp.all_nodup.mem_erase_iff.mp hobj
    have hobject := hp.objects obj hmem.2
    exact ⟨(List.mem_erase_of_ne hmem.1).mpr hobject.1, hobject.2⟩

theorem acquired_dropAll (hp : p.Sound) (obj : Nat) :
    ((p.eraseFromAll ptr).destroyOne ptr).Acquired obj ↔ p.Acquired obj ∧ obj ≠ ptr := by
  unfold destroyOne eraseFromAll
  split <;> simp only [Acquired, hp.all_nodup.mem_erase_iff] <;> tauto

theorem Sound.acquire {result : Result Nat} (hp : p.Sound)
    (h : p.acquire attempt = some (result, p')) :
    (∃ status, result = .error status ∧ p' = p) ∨
      ∃ obj, result = .ok obj ∧ ¬p.Acquired obj ∧ p'.Sound ∧
        ∀ other, p'.Acquired other ↔ p.Acquired other ∨ other = obj := by
  unfold ObjectPool.acquire at h
  cases hlast : p.free.getLast? with
  | some obj =>
    simp only [hlast] at h
    cases h
    obtain ⟨rest, hfree⟩ := List.getLast?_eq_some_iff.mp hlast
    refine .inr ⟨obj, rfl, ?_, hp.popFree hfree, acquired_popFree hp hfree _⟩
    exact fun hobj => hobj.2 (by simp [hfree])
  | none =>
    simp only [hlast] at h
    cases hcreate : p.createOne attempt with
    | none => simp [hcreate] at h
    | some created =>
      obtain ⟨result, q⟩ := created
      obtain ⟨error, rfl, rfl⟩ | ⟨rfl, hnull, hnew, rfl⟩ := createOne_cases hcreate
      · simp only [hcreate] at h
        cases h
        exact .inl ⟨error, rfl, rfl⟩
      · simp only [hcreate] at h
        have hunknown := hp.unknown hnew
        split at h
        next q hq =>
          cases h
          have hundo := enterAll_undo hunknown hnull (congrArg Prod.fst hq)
          rw [hq] at hundo
          exact .inl ⟨_, rfl, hundo⟩
        next q hq =>
          cases h
          have hentered := enterAll_true (congrArg Prod.fst hq)
          rw [hq] at hentered
          subst hentered
          exact .inr ⟨_, rfl, fun hobj => hunknown.all hobj.1, hp.addAll hnew hnull,
            acquired_addAll hunknown.free _ _⟩

/-- The call of `ReleaseObject` reaches its two insertions, and the second one
throws after the first has succeeded. -/
def Strands (p : ObjectPool) (obj : Nat) (pushes inserts : Bool) : Prop :=
  obj ≠ 0 ∧ obj ∈ p.allSet ∧ obj ∉ p.freeSet ∧ p.free.length < p.maxCached ∧
    pushes = true ∧ inserts = false

instance (obj : Nat) (pushes inserts : Bool) : Decidable (p.Strands obj pushes inserts) :=
  inferInstanceAs (Decidable (_ ∧ _))

theorem Sound.releaseObject {pushes inserts : Bool} (hp : p.Sound)
    (h : ¬p.Strands ptr pushes inserts) :
    ((p.releaseObject ptr pushes inserts).1.ok = false ∧
        (p.releaseObject ptr pushes inserts).2 = p) ∨
      ((p.releaseObject ptr pushes inserts).1.ok = true ∧ p.Acquired ptr ∧
        (p.releaseObject ptr pushes inserts).2.Sound ∧
        ∀ other, (p.releaseObject ptr pushes inserts).2.Acquired other ↔
          p.Acquired other ∧ other ≠ ptr) := by
  unfold ObjectPool.releaseObject
  by_cases hnull : ptr = 0
  · simp [hnull, Status.ok]
  by_cases hall : ptr ∉ p.allSet
  · simp [hnull, hall, Status.ok]
  by_cases hfree : ptr ∈ p.freeSet
  · simp [hnull, hall, hfree, Status.ok]
  have hacquired : p.Acquired ptr := by
    rw [hp.allSet_eq] at hall
    rw [hp.freeSet_eq] at hfree
    exact ⟨by simpa using hall, by simpa using hfree⟩
  rw [if_neg hnull, if_neg hall, if_neg hfree]
  split
  · exact .inr ⟨rfl, hacquired, hp.dropAll hacquired, acquired_dropAll hp⟩
  next hroom =>
    split
    next q hq =>
      -- the first insertion throws, or both succeed
      have hpushes : pushes = false := by
        cases pushes <;> cases inserts
        · rfl
        · rfl
        · exact absurd ⟨hnull, not_not.mp hall, hfree, Nat.lt_of_not_le hroom, rfl, rfl⟩ h
        · simp [enterFree] at hq
      subst hpushes
      cases hq
      exact .inl ⟨rfl, rfl⟩
    next q hq =>
      have hentered := enterFree_true (congrArg Prod.fst hq)
      rw [hq] at hentered
      subst hentered
      exact .inr ⟨rfl, hacquired, hp.addFree hacquired, acquired_addFree _⟩

/-- Such a call answers with an error and leaves the object in `free_` only. -/
theorem releaseObject_strands {pushes inserts : Bool} (h : p.Strands ptr pushes inserts) :
    p.releaseObject ptr pushes inserts =
      (⟨.kInternalError, "pool bookkeeping failed in ReleaseObject", .kMemory⟩,
        { p with free := p.free ++ [ptr] }) := by
  obtain ⟨hnull, hall, hfree, hroom, rfl, rfl⟩ := h
  simp [releaseObject, hnull, hall, hfree, Nat.not_le.mpr hroom, enterFree]

theorem Strands.inconsistent {pushes inserts : Bool} (h : p.Strands ptr pushes inserts) :
    ¬(p.releaseObject ptr pushes inserts).2.Consistent := by
  rw [releaseObject_strands h]
  intro hconsistent
  have hset := hconsistent.freeSet_eq
  apply h.2.2.1
  rw [hset]
  simp

theorem Sound.dropFree {rest : List Nat} (hp : p.Sound) (hfree : p.free = rest ++ [ptr]) :
    p.Keeps (p.dropFree ptr) := by
  have hpopped := hp.popFree hfree
  have hacquired := acquired_popFree hp hfree (p.freeSet.erase ptr)
  constructor
  · exact hpopped.dropAll ((hacquired ptr).mpr (.inr rfl))
  · intro obj
    unfold ObjectPool.dropFree
    rw [acquired_dropAll hpopped, hacquired]
    constructor
    · rintro ⟨hobj | heq, hne⟩
      · exact hobj
      · exact absurd heq hne
    · intro hobj
      exact ⟨.inl hobj, fun heq => hobj.2 (by simp [heq, hfree])⟩

theorem Sound.trimLoop (keepFree fuel : Nat) (hp : p.Sound) :
    p.Keeps (ObjectPool.trimLoop keepFree fuel p) := by
  induction fuel generalizing p with
  | zero => exact .refl hp
  | succ fuel ih =>
    unfold ObjectPool.trimLoop
    split
    · cases hlast : p.free.getLast? with
      | none => exact .refl hp
      | some ptr =>
        obtain ⟨rest, hfree⟩ := List.getLast?_eq_some_iff.mp hlast
        have hdropped := hp.dropFree hfree
        exact hdropped.trans (ih hdropped.sound)
    · exact .refl hp

theorem dropFree_length : (p.dropFree ptr).free.length = p.free.length - 1 := by
  unfold dropFree destroyOne eraseFromAll
  split <;> simp

/-- The fuel of `Trim` is enough: its loop ends by its own condition. -/
theorem trimLoop_length (keepFree fuel : Nat) (h : p.free.length ≤ keepFree + fuel) :
    (ObjectPool.trimLoop keepFree fuel p).free.length ≤ keepFree := by
  induction fuel generalizing p with
  | zero => exact h
  | succ fuel ih =>
    unfold ObjectPool.trimLoop
    split
    next hlong =>
      cases hlast : p.free.getLast? with
      | none =>
        rw [List.getLast?_eq_none_iff] at hlast
        simp [hlast]
      | some ptr =>
        apply ih
        rw [dropFree_length]
        omega
    next hshort => exact Nat.le_of_not_lt hshort

theorem Sound.clear (hp : p.Sound) :
    p.Keeps p.clear.2 ∧ (p.clear.1.ok = true → ∀ obj, ¬p.Acquired obj) := by
  unfold ObjectPool.clear
  split
  · exact ⟨.refl hp, by simp [Status.ok]⟩
  next hlength =>
    have hperm : p.free.Perm p.all :=
      (hp.free_nodup.subperm hp.free_subset).perm_of_length_le (by omega)
    have hnone : ∀ obj, ¬p.Acquired obj := fun obj hobj => hobj.2 (hperm.mem_iff.mpr hobj.1)
    refine ⟨⟨?_, ?_⟩, fun _ => hnone⟩
    · exact ⟨⟨.nil, .nil, rfl, rfl, fun _ h => h⟩, by simp⟩
    · intro obj
      constructor
      · exact fun hobj => absurd hobj.1 List.not_mem_nil
      · exact fun hobj => absurd hobj (hnone obj)

end ObjectPool

inductive ObjectPoolCall where
  | reserve (count : Nat) (attempts : Nat → Attempt)
  | acquire (attempt : Attempt)
  | releaseObject (obj : Nat) (pushes inserts : Bool)
  | trim (keepFree : Nat)
  | clear

inductive ObjectPoolReply where
  | status (status : Status)
  | object (result : Result Nat)
  deriving DecidableEq

def ObjectPoolReply.ok : ObjectPoolReply → Bool
  | .status st => st.ok
  | .object (.ok _) => true
  | .object (.error _) => false

def ObjectPoolCall.Strands (p : ObjectPool) : ObjectPoolCall → Prop
  | .releaseObject obj pushes inserts => p.Strands obj pushes inserts
  | _ => False

def ObjectPool.perform (p : ObjectPool) : ObjectPoolCall → Option (ObjectPoolReply × ObjectPool)
  | .reserve count attempts => (p.reserve count attempts).map fun r => (.status r.1, r.2)
  | .acquire attempt => (p.acquire attempt).map fun r => (.object r.1, r.2)
  | .releaseObject obj pushes inserts =>
    some (.status (p.releaseObject obj pushes inserts).1, (p.releaseObject obj pushes inserts).2)
  | .trim keepFree => some (.status (p.trim keepFree).1, (p.trim keepFree).2)
  | .clear => some (.status p.clear.1, p.clear.2)

/-- A pool and the objects that its callers have: those `Acquire` returned and
`ReleaseObject` has not accepted since. -/
structure ObjectPoolWorld where
  pool : ObjectPool
  held : List Nat := []

def ObjectPoolCall.handOver (held : List Nat) : ObjectPoolCall → ObjectPoolReply → List Nat
  | .acquire _, .object (.ok obj) => obj :: held
  | .releaseObject obj _ _, reply => if reply.ok then held.erase obj else held
  | _, _ => held

def ObjectPoolWorld.step (w : ObjectPoolWorld) (call : ObjectPoolCall) : Option ObjectPoolWorld :=
  (w.pool.perform call).map fun r => ⟨r.2, call.handOver w.held r.1⟩

def ObjectPoolWorld.start (maxCached : Nat) : ObjectPoolWorld := ⟨{ maxCached := maxCached }, []⟩

structure ObjectPoolWorld.Sound (w : ObjectPoolWorld) : Prop where
  pool : w.pool.Sound
  held_nodup : w.held.Nodup
  held_iff : ∀ obj, obj ∈ w.held ↔ w.pool.Acquired obj

namespace ObjectPoolWorld

variable {w : ObjectPoolWorld} {call : ObjectPoolCall} {reply : ObjectPoolReply} {p : ObjectPool}

theorem Sound.start (maxCached : Nat) : (ObjectPoolWorld.start maxCached).Sound := by
  constructor
  · exact ⟨⟨.nil, .nil, rfl, rfl, fun _ h => h⟩, by simp [ObjectPoolWorld.start]⟩
  · exact .nil
  · simp [ObjectPoolWorld.start, ObjectPool.Acquired]

theorem Sound.keep (hw : w.Sound) (hkeeps : w.pool.Keeps p) : Sound ⟨p, w.held⟩ := by
  constructor
  · exact hkeeps.sound
  · exact hw.held_nodup
  · exact fun obj => (hw.held_iff obj).trans (hkeeps.acquired obj).symm

theorem Sound.perform (hw : w.Sound) (hcall : ¬call.Strands w.pool)
    (h : w.pool.perform call = some (reply, p)) :
    Sound ⟨p, call.handOver w.held reply⟩ ∧
      (reply.ok = false → call.handOver w.held reply = w.held) := by
  have hpool := hw.pool
  cases call with
  | reserve count attempts =>
    obtain ⟨⟨status, q⟩, hq, heq⟩ := Option.map_eq_some_iff.mp h
    cases heq
    exact ⟨hw.keep (hpool.reserve hq), fun _ => rfl⟩
  | acquire attempt =>
    obtain ⟨⟨result, q⟩, hq, heq⟩ := Option.map_eq_some_iff.mp h
    cases heq
    obtain ⟨status, rfl, rfl⟩ | ⟨obj, rfl, hfresh, hsound, hacquired⟩ := hpool.acquire hq
    · exact ⟨hw.keep (.refl hpool), fun _ => rfl⟩
    · refine ⟨⟨hsound, ?_, fun other => ?_⟩, fun hfailed => by cases hfailed⟩
      · exact List.nodup_cons.mpr ⟨fun hmem => hfresh ((hw.held_iff obj).mp hmem), hw.held_nodup⟩
      · simp [ObjectPoolCall.handOver, hacquired, hw.held_iff, or_comm]
  | releaseObject obj pushes inserts =>
    cases h
    obtain ⟨hfailed, hsame⟩ | ⟨hok, hobj, hsound, hacquired⟩ := hpool.releaseObject hcall
    · simp only [ObjectPoolCall.handOver, ObjectPoolReply.ok, hfailed, hsame]
      exact ⟨hw.keep (.refl hpool), fun _ => rfl⟩
    · simp only [ObjectPoolCall.handOver, ObjectPoolReply.ok, hok, if_true]
      refine ⟨⟨hsound, hw.held_nodup.erase obj, fun other => ?_⟩, fun hfailed => by cases hfailed⟩
      rw [hw.held_nodup.mem_erase_iff, hacquired, hw.held_iff, and_comm]
  | trim keepFree =>
    cases h
    exact ⟨hw.keep (hpool.trimLoop keepFree _), fun _ => rfl⟩
  | clear =>
    cases h
    exact ⟨hw.keep hpool.clear.1, fun _ => rfl⟩

theorem Sound.step {w' : ObjectPoolWorld} (hw : w.Sound) (hcall : ¬call.Strands w.pool)
    (h : w.step call = some w') : w'.Sound := by
  obtain ⟨⟨reply, p⟩, hp, rfl⟩ := Option.map_eq_some_iff.mp h
  exact (hw.perform hcall hp).1

theorem Sound.acquire_fresh {obj : Nat} (hw : w.Sound)
    (h : w.pool.perform call = some (.object (.ok obj), p)) : obj ∉ w.held := by
  have hpool := hw.pool
  cases call with
  | acquire attempt =>
    obtain ⟨⟨result, q⟩, hq, heq⟩ := Option.map_eq_some_iff.mp h
    cases heq
    obtain ⟨status, hstatus, -⟩ | ⟨obj', heq, hfresh, -⟩ := hpool.acquire hq
    · cases hstatus
    · cases heq
      exact fun hmem => hfresh ((hw.held_iff obj).mp hmem)
  | reserve count attempts =>
    obtain ⟨⟨status, q⟩, -, heq⟩ := Option.map_eq_some_iff.mp h
    cases heq
  | releaseObject obj pushes inserts => cases h
  | trim keepFree => cases h
  | clear => cases h

theorem Sound.release_held {obj : Nat} {pushes inserts : Bool} (hw : w.Sound)
    (h : (w.pool.releaseObject obj pushes inserts).1.ok = true) : obj ∈ w.held := by
  rw [hw.held_iff]
  by_cases hstrands : w.pool.Strands obj pushes inserts
  · rw [ObjectPool.releaseObject_strands hstrands] at h
    cases h
  · obtain ⟨hfailed, -⟩ | ⟨-, hobj, -⟩ := hw.pool.releaseObject hstrands
    · rw [h] at hfailed
      cases hfailed
    · exact hobj

/-- In every run in which no `ReleaseObject` strands its object, the four
containers agree and hold what the callers do not have; of the calls that come
next, exactly a stranding one breaks the agreement. -/
theorem object_pool_consistent (maxCached : Nat) (calls : List ObjectPoolCall)
    (w : ObjectPoolWorld)
    (hcalls : Meets ObjectPoolWorld.step (fun w call => ¬call.Strands w.pool)
      (ObjectPoolWorld.start maxCached) calls)
    (hrun : runs ObjectPoolWorld.step (ObjectPoolWorld.start maxCached) calls = some w) :
    w.pool.Consistent ∧ (∀ obj, obj ∈ w.held ↔ w.pool.Acquired obj) ∧
      ∀ call reply p, w.pool.perform call = some (reply, p) →
        (p.Consistent ↔ ¬call.Strands w.pool) ∧
        (∀ obj, reply = .object (.ok obj) → obj ∉ w.held) ∧
        (∀ obj pushes inserts, call = .releaseObject obj pushes inserts → reply.ok = true →
          obj ∈ w.held) ∧
        (¬call.Strands w.pool → reply.ok = false →
          ∀ obj, p.Acquired obj ↔ w.pool.Acquired obj) := by
  have hw : w.Sound := runs_invariant_of_meets (fun w call w' hw hcall h => hw.step hcall h)
    (Sound.start maxCached) hcalls hrun
  refine ⟨hw.pool.toConsistent, hw.held_iff, fun call reply p h => ⟨?_, ?_, ?_, ?_⟩⟩
  · constructor
    · intro hconsistent hstrands
      cases call with
      | releaseObject obj pushes inserts =>
        cases h
        exact hstrands.inconsistent hconsistent
      | _ => exact hstrands
    · exact fun hcall => (hw.perform hcall h).1.pool.toConsistent
  · rintro obj rfl
    exact hw.acquire_fresh h
  · rintro obj pushes inserts rfl hok
    cases h
    exact hw.release_held hok
  · intro hcall hfailed obj
    have hnext := hw.perform hcall h
    rw [hnext.2 hfailed] at hnext
    exact (hnext.1.held_iff obj).symm.trans (hw.held_iff obj)

/-- `Reserve` adds one object and fails on the second; the caller takes the
object and cannot give it back while `free_` does not grow. -/
def failingCalls : List ObjectPoolCall :=
  [.reserve 2 fun i => { memory := some (8 * i + 8), freeSetInserts := i = 0 },
    .acquire { memory := none }, .releaseObject 8 false true]

theorem object_pool_consistent_failing :
    ∃ w, runs ObjectPoolWorld.step (ObjectPoolWorld.start 4) failingCalls = some w ∧
      w.held = [8] ∧ w.pool.all = [8] ∧ w.pool.Consistent := by
  obtain ⟨w, hrun, hheld, hall⟩ : ∃ w,
      runs ObjectPoolWorld.step (ObjectPoolWorld.start 4) failingCalls = some w ∧
        w.held = [8] ∧ w.pool.all = [8] := ⟨_, rfl, rfl, rfl⟩
  refine ⟨w, hrun, hheld, hall, (object_pool_consistent 4 failingCalls w ?_ hrun).1⟩
  refine ⟨id, fun w₁ h₁ => ⟨id, fun w₂ h₂ => ⟨?_, fun _ _ => trivial⟩⟩⟩
  exact fun hstrands => Bool.false_ne_true hstrands.2.2.2.2.1

/-- A caller keeps the object that the pool refused to take back; the next
`Acquire` hands out the same object. -/
theorem acquire_hands_out_twice :
    ∃ w, runs ObjectPoolWorld.step (ObjectPoolWorld.start 4)
        [.acquire { memory := some 8 }, .releaseObject 8 true false] = some w ∧
      ¬w.pool.Consistent ∧ 8 ∈ w.held ∧
      (w.pool.perform (.acquire { memory := none })).map Prod.fst = some (.object (.ok 8)) := by
  refine ⟨_, rfl, fun hconsistent => ?_, by decide, rfl⟩
  have hset := hconsistent.freeSet_eq
  revert hset
  decide

end ObjectPoolWorld

end Corekit.Memory
