import Corekit.Api.Json
import Corekit.Foundation.Transition
import Corekit.Memory.SlabPool

/-! `SystemPool`: the configuration that waits for the first use, the pool once
it is there, and the function-static string in which `ConfigureFromFile` keeps
a name. The name of a pool is a pointer: what it reads as is decided when it is
read. -/
namespace Corekit.Memory
open Corekit.Api Corekit.Foundation

inductive NamePtr where
  | null
  /-- a literal, or storage of the calling code -/
  | text (chars : String)
  /-- what `pool_name.c_str()` returned -/
  | poolName (address : Nat)
  deriving DecidableEq

/-- The members that the pool itself reads, and the others. -/
structure SystemPoolConfig extends PoolConfig where
  name : NamePtr := .text "default"
  maxCachedBlocks : UInt64 := 64
  threadSafe : Bool := true
  deriving DecidableEq

/-- A `std::string` object: where its characters are, and what they are. -/
structure StaticString where
  address : Nat := 0
  chars : String := ""

def cText (chars : String) : String :=
  String.ofList (chars.toList.takeWhile fun c => c ≠ Char.ofNat 0)

/-- `none`: the string has moved its characters, and the pointer dangles. -/
def StaticString.read (storage : StaticString) (address : Nat) : Option String :=
  if address = storage.address then some (cText storage.chars) else none

namespace NamePtr

def read (storage : StaticString) : NamePtr → Option String
  | .null => none
  | .text chars => some (cText chars)
  | .poolName address => storage.read address

/-- No call hands out a pointer into `pool_name` as long as `Configure` accepts
one, so callers have none to pass. -/
def fromCaller : NamePtr → Bool
  | .poolName _ => false
  | _ => true

end NamePtr

structure PoolStats where
  allocCount : Nat
  freeCount : Nat
  bytesInUse : Nat
  bytesPeak : Nat
  bytesLimit : Nat
  blockCount : Nat
  slabHits : Nat
  slabMisses : Nat
  deriving DecidableEq

def SlabPoolImpl.poolStats (pool : SlabPoolImpl) : PoolStats where
  allocCount := pool.stats.allocCount
  freeCount := pool.stats.freeCount
  bytesInUse := pool.stats.bytesInUse
  bytesPeak := pool.stats.bytesPeak
  bytesLimit := pool.config.maxBytes.toNat
  blockCount := pool.blockCount
  slabHits := pool.stats.slabHits
  slabMisses := pool.stats.slabMisses

/-- The pool with the whole configuration it was initialised with. -/
structure PoolInstance where
  config : SystemPoolConfig
  state : PoolState

def PoolInstance.create (config : SystemPoolConfig) : PoolInstance :=
  ⟨config, (({} : PoolState).init config.toPoolConfig).2⟩

structure SystemPool where
  pendingConfig : SystemPoolConfig := {}
  configApplied : Bool := false
  poolInstance : Option PoolInstance := none
  poolName : StaticString := {}

section Sections

variable (ps : Json) (field : String)

def textMember? : Option String :=
  match ps.member? field with
  | some (.string text) => some text
  | _ => none

def sizeMember (default : UInt64) : UInt64 :=
  match ps.member? field with
  | some (.unsigned value) => .ofNat value
  | _ => default

def flagMember (default : Bool) : Bool :=
  match ps.member? field with
  | some (.boolean value) => value
  | _ => default

end Sections

def poolSection (root : Json) : Option Json :=
  match root.member? "pool" with
  | some ps => some ps
  | none =>
    match root.member? "memory" with
    | some memory => if memory.isObject then memory.member? "pool" else none
    | none => none

/-- The members of the section other than the name. -/
def readLimits (ps : Json) (cfg : SystemPoolConfig) : SystemPoolConfig :=
  { cfg with
    blockSize := sizeMember ps "block_size" cfg.blockSize
    maxBytes := sizeMember ps "max_bytes" cfg.maxBytes
    maxCachedBlocks := sizeMember ps "max_cached_blocks" cfg.maxCachedBlocks
    enableGuardBytes := flagMember ps "enable_guard_bytes" cfg.enableGuardBytes
    threadSafe := flagMember ps "thread_safe" cfg.threadSafe }

namespace SystemPool

variable (s : SystemPool)

def ensurePoolLocked : PoolInstance × SystemPool :=
  match s.poolInstance with
  | some inst => (inst, s)
  | none =>
    let cfg := if s.configApplied then s.pendingConfig
      else { s.pendingConfig with name := .text "system" }
    let inst := PoolInstance.create cfg
    (inst, { s with pendingConfig := cfg, configApplied := true, poolInstance := some inst })

def configure (config : SystemPoolConfig) : Status × SystemPool :=
  if s.poolInstance.isSome then
    (⟨.kAlreadyInitialized, "system pool already initialized; configure before first use", .kCore⟩, s)
  else (.okStatus, { s with pendingConfig := config, configApplied := true })

/-- The assignment to `pool_name`; `home` is where the string keeps the new
characters, the old place or another one. -/
def storeName (ps : Json) (home : Nat) : NamePtr × SystemPool :=
  match textMember? ps "name" with
  | some text => (.poolName home, { s with poolName := ⟨home, text⟩ })
  | none => (.text "system", s)

def configureFromFile (file : Result Json) (home : Nat) : Status × SystemPool :=
  match file with
  | .error status => (status, s)
  | .ok root =>
    if root.isObject = false then
      (⟨.kInvalidArgument, "root JSON must be object", .kCore⟩, s)
    else
      match (poolSection root).filter Json.isObject with
      | none => s.configure { name := .text "system" }
      | some ps =>
        -- the name is stored before `Configure` says whether it is wanted
        let (name, s) := s.storeName ps home
        s.configure (readLimits ps { name := name })

end SystemPool

inductive PoolConfigCall where
  | configure (config : SystemPoolConfig)
  | configureFromFile (file : Result Json) (home : Nat)

/-- The calls of `SystemPool`, and those made through the pointer that
`Instance` returns. -/
inductive SystemPoolAction where
  | config (call : PoolConfigCall)
  | getInstance
  | currentStats
  | shrink (addresses : Nat → List Nat)
  | alloc (size : Nat) (answer : Answer)
  | free (ptr : Nat)

namespace SystemPool

def submit (s : SystemPool) : PoolConfigCall → Status × SystemPool
  | .configure config => s.configure config
  | .configureFromFile file home => s.configureFromFile file home

/-- A call of the pool that leaves it in another state. -/
def onPool (s : SystemPool) (f : PoolState → Option PoolState) : Option SystemPool :=
  let (inst, s) := s.ensurePoolLocked
  (f inst.state).map fun state => { s with poolInstance := some { inst with state := state } }

def step (s : SystemPool) : SystemPoolAction → Option SystemPool
  | .config (.configure config) =>
    if config.name.fromCaller then some (s.configure config).2 else none
  | .config call => some (s.submit call).2
  | .getInstance => some s.ensurePoolLocked.2
  | .currentStats => some s.ensurePoolLocked.2
  | .shrink addresses => s.onPool fun state => state.shrink addresses
  | .alloc size answer => s.onPool fun state => (state.alloc size answer).map Prod.snd
  | .free ptr => s.onPool fun state => some (state.free ptr)

/-- What the calling code can see of the pool: through `Instance`, which makes
one of the pending configuration if there is none. -/
structure Seen where
  /-- the text behind `Instance()->Name()` -/
  name : Option String
  stats : PoolStats
  config : SystemPoolConfig
  deriving DecidableEq

def target (s : SystemPool) : SystemPoolConfig := s.ensurePoolLocked.1.config

def seen (s : SystemPool) : Seen :=
  ⟨s.target.name.read s.poolName, s.ensurePoolLocked.1.state.pool.poolStats, s.target⟩

def Invisible (s : SystemPool) : SystemPoolAction → Prop
  | .config call => (s.submit call).1.code ≠ .kOk → (s.submit call).2.seen = s.seen
  | _ => True

end SystemPool

def fileName (root : Json) : Option String :=
  ((poolSection root).filter Json.isObject).bind fun ps => textMember? ps "name"

def PoolConfigCall.stores : PoolConfigCall → Option StaticString
  | .configureFromFile (.ok root) home => (fileName root).map fun text => ⟨home, text⟩
  | _ => none

namespace SystemPool

/-- The call is no file with a name in it while the name of the pool is the one
that a file gave it, unless it reads the same and stays where it is. -/
def KeepsName (s : SystemPool) (a : SystemPoolAction) : Prop :=
  ∀ call inst address storage, a = .config call → s.poolInstance = some inst →
    inst.config.name = .poolName address → call.stores = some storage →
    storage.address = s.poolName.address ∧ cText storage.chars = cText s.poolName.chars

def stored (s : SystemPool) (call : PoolConfigCall) : SystemPool :=
  { s with poolName := call.stores.getD s.poolName }

section Calls

variable {s s' : SystemPool} {inst : PoolInstance} {call : PoolConfigCall}

theorem ensurePoolLocked_live (h : s.poolInstance = some inst) : s.ensurePoolLocked = (inst, s) := by
  simp only [ensurePoolLocked, h]

theorem configure_live (h : s.poolInstance = some inst) (config : SystemPoolConfig) :
    s.configure config = (⟨.kAlreadyInitialized,
      "system pool already initialized; configure before first use", .kCore⟩, s) := by
  simp only [configure, h, Option.isSome_some, if_true]

theorem configure_pending (h : s.poolInstance = none) (config : SystemPoolConfig) :
    s.configure config = (.okStatus, { s with pendingConfig := config, configApplied := true }) := by
  simp [configure, h]

theorem fileName_of_isObject {root : Json} (h : root.isObject = false) : fileName root = none := by
  cases root with
  | object members => cases h
  | string text => rfl
  | boolean value => rfl
  | unsigned value => rfl
  | other => rfl

theorem configureFromFile_object {root : Json} (h : root.isObject = true) (home : Nat) :
    ∃ cfg, s.configureFromFile (.ok root) home =
        (s.stored (.configureFromFile (.ok root) home)).configure cfg ∧
      cfg.name = if (fileName root).isSome then .poolName home else .text "system" := by
  rcases hps : (poolSection root).filter Json.isObject with - | ps
  · refine ⟨{ name := .text "system" }, ?_, ?_⟩ <;>
      simp [configureFromFile, h, hps, stored, PoolConfigCall.stores, fileName]
  · rcases hname : textMember? ps "name" with - | text
    · refine ⟨readLimits ps { name := .text "system" }, ?_, ?_⟩
      · simp [configureFromFile, h, hps, storeName, hname, stored, PoolConfigCall.stores, fileName]
      · simp [fileName, hps, hname, readLimits]
    · refine ⟨readLimits ps { name := .poolName home }, ?_, ?_⟩
      · simp [configureFromFile, h, hps, storeName, hname, stored, PoolConfigCall.stores, fileName]
      · simp [fileName, hps, hname, readLimits]

/-- A live pool refuses every configuration, but not before a name is stored. -/
theorem submit_live (h : s.poolInstance = some inst) (call : PoolConfigCall) :
    (s.submit call).2 = s.stored call ∧
      (call.stores.isSome → (s.submit call).1.code ≠ .kOk) := by
  match call with
  | .configure config => simp [submit, configure_live h, stored, PoolConfigCall.stores]
  | .configureFromFile (.error status) home =>
    simp [submit, configureFromFile, stored, PoolConfigCall.stores]
  | .configureFromFile (.ok root) home =>
    rcases hroot : root.isObject with - | -
    · simp [submit, configureFromFile, hroot, stored, PoolConfigCall.stores,
        fileName_of_isObject hroot]
    · obtain ⟨cfg, hcall, -⟩ := configureFromFile_object (s := s) hroot home
      have hlive : (s.stored (.configureFromFile (.ok root) home)).poolInstance = some inst := h
      rw [submit, hcall, configure_live hlive]
      exact ⟨rfl, fun _ => StatusCode.noConfusion⟩

theorem submit_pending (h : s.poolInstance = none) (call : PoolConfigCall) :
    (s.submit call).2 = s ∨
      (s.submit call).1 = .okStatus ∧ ∃ cfg, (s.submit call).2 =
          { s.stored call with pendingConfig := cfg, configApplied := true } ∧
        (call = .configure cfg ∨
          ∀ address, cfg.name = .poolName address → ∃ text, call.stores = some ⟨address, text⟩) := by
  match call with
  | .configure config =>
    rw [submit, configure_pending h]
    exact .inr ⟨rfl, config, rfl, .inl rfl⟩
  | .configureFromFile (.error status) home => exact .inl rfl
  | .configureFromFile (.ok root) home =>
    rcases hroot : root.isObject with - | -
    · exact .inl (by simp [submit, configureFromFile, hroot])
    · obtain ⟨cfg, hcall, hname⟩ := configureFromFile_object (s := s) hroot home
      have hnone : (s.stored (.configureFromFile (.ok root) home)).poolInstance = none := h
      rw [submit, hcall, configure_pending hnone]
      refine .inr ⟨rfl, cfg, rfl, .inr fun address haddress => ?_⟩
      rw [hname] at haddress
      rcases hfile : fileName root with - | text
      · simp [hfile] at haddress
      · obtain rfl : home = address := by simpa [hfile] using haddress
        exact ⟨text, by simp [PoolConfigCall.stores, hfile]⟩

theorem seen_live (h : s.poolInstance = some inst) :
    s.seen = ⟨inst.config.name.read s.poolName, inst.state.pool.poolStats, inst.config⟩ := by
  simp only [seen, target, ensurePoolLocked_live h]

/-- If the name of the pool points into `pool_name`, it points to where the
characters are now. -/
def InPlace (s : SystemPool) : Prop :=
  ∀ address, s.target.name = .poolName address → address = s.poolName.address

theorem InPlace.live (h : s.InPlace) (hlive : s.poolInstance = some inst) {address : Nat}
    (hname : inst.config.name = .poolName address) : address = s.poolName.address := by
  refine h address ?_
  rwa [target, ensurePoolLocked_live hlive]

theorem stored_seen (hlive : s.poolInstance = some inst) (hkeeps : s.KeepsName (.config call)) :
    (s.stored call).seen = s.seen := by
  have hstored : (s.stored call).poolInstance = some inst := hlive
  rw [seen_live hstored, seen_live hlive]
  rcases hstores : call.stores with - | storage
  · simp only [stored, hstores, Option.getD_none]
  · rcases hname : inst.config.name with - | chars | address
    · rfl
    · rfl
    · obtain ⟨haddress, hchars⟩ := hkeeps call inst address storage rfl hlive hname hstores
      simp only [stored, hstores, Option.getD_some, NamePtr.read, StaticString.read, haddress,
        hchars]

/-- For a refused call there is one way to be seen: through the name. -/
theorem InPlace.invisible_iff (h : s.InPlace) (a : SystemPoolAction) :
    s.Invisible a ↔ s.KeepsName a := by
  cases a with
  | config call =>
    rcases hpool : s.poolInstance with - | inst
    · refine iff_of_true (fun hrefused => ?_) fun _ _ _ _ _ hlive => by simp [hpool] at hlive
      rcases submit_pending hpool call with hsame | ⟨hok, -⟩
      · rw [hsame]
      · rw [hok] at hrefused
        exact absurd rfl hrefused
    · obtain ⟨hstate, hrefused⟩ := submit_live hpool call
      have hlive : (s.stored call).poolInstance = some inst := hpool
      constructor
      · rintro hinv call' inst' address storage hcall hinst hname hstores
        cases hcall
        cases hpool.symm.trans hinst
        have hseen := hinv (hrefused (by simp [hstores]))
        rw [hstate, seen_live hlive, seen_live hpool, hname] at hseen
        have hread := congrArg Seen.name hseen
        simp only [stored, hstores, Option.getD_some, NamePtr.read, StaticString.read,
          h.live hpool hname, if_true] at hread
        split at hread
        · next heq => exact ⟨heq.symm, Option.some.inj hread⟩
        · cases hread
      · intro hkeeps _
        rw [hstate, stored_seen hpool hkeeps]
  | _ => exact iff_of_true trivial fun _ _ _ _ hcall => nomatch hcall

structure Creates (s s' : SystemPool) : Prop where
  live : ∃ inst, s'.poolInstance = some inst ∧ inst.config = s.target
  poolName : s'.poolName = s.poolName

theorem creates_ensurePoolLocked (s : SystemPool) : s.Creates s.ensurePoolLocked.2 := by
  rcases h : s.poolInstance with - | inst
  · exact ⟨⟨s.ensurePoolLocked.1, by simp only [ensurePoolLocked, h], rfl⟩, by
      simp only [ensurePoolLocked, h]⟩
  · rw [ensurePoolLocked_live h]
    exact ⟨⟨inst, h, by rw [target, ensurePoolLocked_live h]⟩, rfl⟩

theorem creates_onPool {f : PoolState → Option PoolState} (h : s.onPool f = some s') :
    s.Creates s' := by
  obtain ⟨state, -, rfl⟩ := Option.map_eq_some_iff.mp h
  exact ⟨⟨_, rfl, rfl⟩, (creates_ensurePoolLocked s).poolName⟩

theorem step_cases {a : SystemPoolAction} (h : s.step a = some s') :
    (∃ call, a = .config call ∧ s' = (s.submit call).2 ∧
      ∀ config, call = .configure config → config.name.fromCaller = true) ∨ s.Creates s' := by
  match a with
  | .config (.configure config) =>
    obtain ⟨hcaller, hs⟩ := Option.ite_none_right_eq_some.mp h
    refine .inl ⟨_, rfl, (Option.some.inj hs).symm, fun config' hcall => ?_⟩
    cases hcall
    exact hcaller
  | .config (.configureFromFile file home) => exact .inl ⟨_, rfl, (Option.some.inj h).symm, nofun⟩
  | .getInstance => exact .inr (Option.some.inj h ▸ creates_ensurePoolLocked s)
  | .currentStats => exact .inr (Option.some.inj h ▸ creates_ensurePoolLocked s)
  | .shrink addresses | .alloc size answer | .free ptr =>
    simp only [step] at h
    exact .inr (creates_onPool h)

theorem InPlace.submit (h : s.InPlace) {call : PoolConfigCall} (hkeeps : s.KeepsName (.config call))
    (hcaller : ∀ config, call = .configure config → config.name.fromCaller = true) :
    (s.submit call).2.InPlace := by
  intro address hname
  rcases hpool : s.poolInstance with - | inst
  · rcases submit_pending hpool call with hsame | ⟨-, cfg, hstate, hcfg⟩
    · rw [hsame] at hname ⊢
      exact h address hname
    · rw [hstate] at hname ⊢
      have hcfgName : cfg.name = .poolName address := by
        simpa [target, ensurePoolLocked, stored, hpool, PoolInstance.create] using hname
      rcases hcfg with hdirect | hfile
      · have hfrom := hcaller cfg hdirect
        rw [hcfgName] at hfrom
        cases hfrom
      · obtain ⟨text, hstores⟩ := hfile address hcfgName
        simp [stored, hstores]
  · obtain ⟨hstate, -⟩ := submit_live hpool call
    have hlive : (s.stored call).poolInstance = some inst := hpool
    rw [hstate] at hname ⊢
    rw [target, ensurePoolLocked_live hlive] at hname
    rcases hstores : call.stores with - | storage
    · simpa only [stored, hstores, Option.getD_none] using h.live hpool hname
    · have haddress := (hkeeps call inst address storage rfl hpool hname hstores).1
      simpa only [stored, hstores, Option.getD_some, haddress] using h.live hpool hname

theorem InPlace.step (h : s.InPlace) {a : SystemPoolAction} (hkeeps : s.KeepsName a)
    (hstep : s.step a = some s') : s'.InPlace := by
  rcases step_cases hstep with ⟨call, rfl, rfl, hcaller⟩ | ⟨⟨inst, hlive, hconfig⟩, hstorage⟩
  · exact h.submit hkeeps hcaller
  · intro address hname
    rw [target, ensurePoolLocked_live hlive, hconfig] at hname
    rw [hstorage]
    exact h address hname

theorem inPlace_start : ({} : SystemPool).InPlace := nofun

end Calls

/-- In every run the refused configurations are invisible if and only if none
of them is a file that writes over the name of the live pool. -/
theorem refused_configurations_invisible_iff (calls : List SystemPoolAction) :
    Meets step Invisible {} calls ↔ Meets step KeepsName {} calls :=
  Meets.congr (fun _ a h => h.invisible_iff a)
    (fun _ a _ h hinv hstep => h.step ((h.invisible_iff a).mp hinv) hstep) inPlace_start

/-- The name of the live pool came from a first file; a second one is refused,
and the pool is called otherwise. -/
theorem refused_file_renames_pool :
    ∃ s, runs step {} [.config (.configureFromFile
          (.ok (.object [("pool", .object [("name", .string "a")])])) 1), .getInstance] = some s ∧
      s.seen.name = some "a" ∧
      (s.submit (.configureFromFile
        (.ok (.object [("pool", .object [("name", .string "b")])])) 1)).1.code =
          .kAlreadyInitialized ∧
      (s.submit (.configureFromFile
        (.ok (.object [("pool", .object [("name", .string "b")])])) 1)).2.seen.name = some "b" :=
  ⟨_, rfl, by decide +kernel, by decide +kernel, by decide +kernel⟩

section Fixed

variable {s s' : SystemPool} {name : Option String} {config : SystemPoolConfig}

structure Made (name : Option String) (config : SystemPoolConfig) (s : SystemPool) : Prop where
  live : s.poolInstance.isSome
  inPlace : s.InPlace
  name_eq : s.seen.name = name
  target_eq : s.target = config

theorem Made.step (h : s.Made name config) {a : SystemPoolAction} (hkeeps : s.KeepsName a)
    (hstep : s.step a = some s') : s'.Made name config := by
  have hplace := h.inPlace.step hkeeps hstep
  rcases step_cases hstep with ⟨call, rfl, rfl, -⟩ | ⟨⟨inst, hlive, hconfig⟩, hstorage⟩
  · obtain ⟨inst, hlive⟩ := Option.isSome_iff_exists.mp h.live
    have hstate := (submit_live hlive call).1
    have hseen := stored_seen hlive hkeeps
    rw [← hstate] at hseen
    refine ⟨?_, hplace, ?_, ?_⟩
    · rw [hstate]
      exact h.live
    · rw [hseen, h.name_eq]
    · exact (congrArg Seen.config hseen).trans h.target_eq
  · have htarget : s'.target = s.target := by rw [target, ensurePoolLocked_live hlive, hconfig]
    refine ⟨by simp [hlive], hplace, ?_, htarget.trans h.target_eq⟩
    rw [← h.name_eq]
    simp only [seen, htarget, hstorage]

/-- As long as no name is written over, the pool keeps from its making on the
name and the configuration it was made with. -/
theorem name_kept_from_creation {before after : List SystemPoolAction}
    (hkeeps : Meets SystemPool.step KeepsName {} before)
    (hbefore : runs SystemPool.step {} before = some s) (hlive : s.poolInstance.isSome)
    (hkeeps' : Meets SystemPool.step KeepsName s after)
    (hafter : runs SystemPool.step s after = some s') :
    s'.seen.name = s.seen.name ∧ s'.target = s.target := by
  have hplace : s.InPlace :=
    runs_invariant_of_meets (fun _ _ _ h hkeeps => h.step hkeeps) inPlace_start hkeeps hbefore
  have hmade : s'.Made s.seen.name s.target :=
    runs_invariant_of_meets (fun _ _ _ h hkeeps => h.step hkeeps) ⟨hlive, hplace, rfl, rfl⟩
      hkeeps' hafter
  exact ⟨hmade.name_eq, hmade.target_eq⟩

end Fixed

end SystemPool

end Corekit.Memory
