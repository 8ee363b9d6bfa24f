import Corekit.Memory.SlabGrowth
import Corekit.Foundation.Transition

/-! Whole histories of one pool. The live list is what the callers hold: every
pointer they were given and have not freed. Callers free only those, and write
only into the bytes they asked for; memory that the underlying allocator has not
handed out may change at any time. -/
namespace Corekit.Memory
open Corekit.Foundation Allocation

structure PoolWorld where
  state : PoolState := {}
  live : List Allocation := []

inductive PoolAction where
  | init (config : PoolConfig)
  | allocAligned (size alignment : Nat) (answer : Answer)
  | free (ptr : Nat)
  | shrink (addresses : Nat → List Nat)
  | store (address : Nat) (byte : UInt8)

namespace PoolWorld

def start (parentStats : Option AtomicStats) : PoolWorld := { state := { parentStats := parentStats } }

def Writable (w : PoolWorld) (address : Nat) : Prop :=
  (∃ x ∈ w.live, Extent.Contains ⟨x.ptr, x.size⟩ address) ∨
    ∀ extent ∈ w.state.heap.outstanding, ¬extent.Contains address

instance (w : PoolWorld) (address : Nat) : Decidable (w.Writable address) :=
  inferInstanceAs (Decidable (_ ∨ _))

def step (w : PoolWorld) : PoolAction → Option PoolWorld
  | .init config => some { w with state := (w.state.init config).2 }
  | .allocAligned size alignment answer =>
    (w.state.allocAligned size alignment answer).map fun
      | (none, state) => { w with state := state }
      | (some ptr, state) => ⟨state, ⟨headerFromUser ptr, size⟩ :: w.live⟩
  | .free ptr =>
    if ptr = 0 then some { w with state := w.state.free ptr }
    else (w.live.find? fun x => x.ptr = ptr).map fun x => ⟨w.state.free ptr, w.live.erase x⟩
  | .shrink addresses => (w.state.shrink addresses).map fun state => { w with state := state }
  | .store address byte =>
    if w.Writable address then
      some { w with state := { w.state with heap := { w.state.heap with
        memory := w.state.heap.memory.write address [byte] } } }
    else none

def Sound (w : PoolWorld) : Prop := w.state.Sound w.live

def NoLiveSlab (w : PoolWorld) : Prop := ∀ x ∈ w.live, kNumSizeClasses ≤ x.classIdx

end PoolWorld

/-- The size of an allocation leaves room for header and guard. -/
def PoolAction.SizeFits : PoolAction → Prop
  | .allocAligned size _ _ => sizeofSlabHeader + size + kGuardSize < 2 ^ 64
  | _ => True

/-- `Shrink` is called only when no slab is live. -/
def ShrinksIdle (w : PoolWorld) (a : PoolAction) : Prop :=
  a.SizeFits ∧ ∀ addresses, a = .shrink addresses → w.NoLiveSlab

namespace PoolWorld

variable {w w' : PoolWorld}

theorem sound_of_empty {s : PoolState} (hblocks : ∀ c, s.pool.blocks c = [])
    (hfree : ∀ c < kNumSizeClasses, s.pool.freeLists c = []) (hlarge : s.pool.largeAllocs = [])
    (houtstanding : s.heap.outstanding = []) : s.Sound [] := by
  have hall : s.pool.allBlocks = [] := by
    rw [SlabPoolImpl.allBlocks, List.flatMap_eq_nil_iff]
    exact fun c _ => hblocks c
  refine ⟨⟨?_, ?_, ?_, ?_, ?_, ?_, ?_, ?_, ?_, ?_, ?_⟩, ?_, ?_⟩
  case refine_4 =>
    intro c hc
    simp [SlabPoolImpl.slabs, hblocks, hfree c hc, headersIn]
  all_goals simp [hblocks, hall, hlarge, houtstanding, larges]

theorem start_sound (parentStats : Option AtomicStats) :
    (start parentStats).Sound :=
  sound_of_empty (fun _ => rfl) (fun _ _ => rfl) rfl rfl

theorem init_sound (h : w.Sound) (config : PoolConfig) :
    (w.state.init config).2.Sound w.live := by
  unfold PoolState.init
  cases hinited : w.state.pool.inited with
  | true => simpa [Sound] using h
  | false =>
    obtain ⟨hlive, hblocks⟩ := h.layout.unready hinited
    have hall : w.state.pool.allBlocks = [] := by
      rw [SlabPoolImpl.allBlocks, List.flatMap_eq_nil_iff]
      exact fun c _ => hblocks c
    rw [hlive]
    apply sound_of_empty
    · exact hblocks
    · intro c hc
      have hpartition := h.layout.partition c hc
      simpa [SlabPoolImpl.slabs, hblocks, hlive, headersIn] using hpartition
    · have hlarge := h.layout.large
      simpa [hlive, larges] using hlarge
    · have hheld := h.layout.held
      simpa [hlive, larges, hall] using hheld

/-- The byte belongs to the header of a slab or of a live allocation. -/
def HeaderByte (w : PoolWorld) (address : Nat) : Prop :=
  (∃ c < kNumSizeClasses, ∃ slab ∈ w.state.pool.slabs c,
    Extent.Contains ⟨slab, sizeofSlabHeader⟩ address) ∨
  ∃ x ∈ w.live, Extent.Contains ⟨x.header, sizeofSlabHeader⟩ address

instance (w : PoolWorld) (address : Nat) : Decidable (w.HeaderByte address) :=
  inferInstanceAs (Decidable (_ ∨ _))

theorem write_sound (h : w.Sound) {address : Nat} (hbyte : ¬w.HeaderByte address) (byte : UInt8) :
    PoolState.Sound { w.state with heap := { w.state.heap with
      memory := w.state.heap.memory.write address [byte] } } w.live := by
  have hout := Mem.SameOutside.writeByte w.state.heap.memory address byte
  refine ⟨h.layout, h.headers.frame hout (fun c hc block hb slab hs => ?_) fun x hx => ?_⟩
  · refine (SlabHeader.keep hout (Extent.disjoint_byte fun hin => hbyte (.inl ?_))).2.2.2
    exact ⟨c, hc, slab, mem_slabs.mpr ⟨block, hb, hs⟩, hin⟩
  · exact Extent.disjoint_byte fun hin => hbyte (.inr ⟨x, hx, hin⟩)

theorem Writable.not_headerByte (h : w.Sound) {address : Nat} (hw : w.Writable address) :
    ¬w.HeaderByte address := by
  rcases hw with ⟨x, hx, huser⟩ | houtside
  · have hin := (Layout.user_within_extent x w.state.pool.config.enableGuardBytes).contains huser
    -- the byte lies behind the header of its own allocation
    have hself : ¬Extent.Contains ⟨x.header, sizeofSlabHeader⟩ address :=
      fun hheader => absurd hheader.2 (Nat.not_lt.mpr huser.1)
    rintro (⟨c, hc, slab, hslab, hheader⟩ | ⟨y, hy, hheader⟩)
    · obtain ⟨block, hb, hs⟩ := mem_slabs.mp hslab
      by_cases heq : x.header = slab
      · exact hself (heq ▸ hheader)
      · exact Extent.not_contains_of_disjoint
          (h.layout.extent_disjoint_slab hx hc hb hs fun _ => heq) hin
          ((Layout.header_within_slab _ _ _).contains hheader)
    · by_cases hxy : x = y
      · exact hself (hxy ▸ hheader)
      · exact Extent.not_contains_of_disjoint (h.layout.live_disjoint hx hy hxy) hin
          ((Layout.header_within_extent y _).contains hheader)
  · rintro (⟨c, hc, slab, hslab, hheader⟩ | ⟨y, hy, hheader⟩)
    · obtain ⟨block, hb, hs⟩ := mem_slabs.mp hslab
      exact houtside _ (h.layout.extent_mem (mem_allBlocks.mpr ⟨c, hc, hb⟩))
        (((Layout.header_within_slab _ _ _).trans (h.layout.slab_within hc hb hs)).contains hheader)
    · obtain ⟨extent, hmem, hwithin⟩ := h.layout.header_in_extent hy
      exact houtside extent hmem (hwithin.contains hheader)

theorem NoLiveSlab.headersIn (h : w.NoLiveSlab) (c : Nat) (hc : c < kNumSizeClasses) :
    headersIn w.live c = [] := by
  rw [List.eq_nil_iff_forall_not_mem]
  intro hdr hmem
  obtain ⟨x, hx, hclass, -⟩ := mem_headersIn.mp hmem
  have := h x hx
  omega

theorem step_sound (h : w.Sound) {a : PoolAction} (hidle : ShrinksIdle w a)
    (hstep : w.step a = some w') : w'.Sound := by
  cases a with
  | init config =>
    cases hstep
    exact init_sound h config
  | allocAligned size alignment answer =>
    obtain ⟨⟨result, state⟩, hcall, hnext⟩ := Option.map_eq_some_iff.mp hstep
    rcases h.allocAligned hidle.1 hcall with ⟨rfl, rfl⟩ | ⟨hdr, rfl, hsound⟩
    · cases hnext
      exact h
    · cases hnext
      simpa [Sound, headerFromUser, userFromHeader] using hsound
  | free ptr =>
    simp only [step] at hstep
    split_ifs at hstep with hnull
    · cases hstep
      simpa [PoolState.free, hnull] using h
    · obtain ⟨x, hfind, hnext⟩ := Option.map_eq_some_iff.mp hstep
      have hx := List.mem_of_find?_eq_some hfind
      have hptr : x.ptr = ptr := by simpa using List.find?_some hfind
      cases hnext
      rw [← hptr]
      exact (h.perm (List.perm_cons_erase hx)).free
  | shrink addresses =>
    obtain ⟨state, hcall, hnext⟩ := Option.map_eq_some_iff.mp hstep
    cases hnext
    exact (h.shrink (hidle.2 addresses rfl).headersIn hcall).1
  | store address byte =>
    simp only [step] at hstep
    split_ifs at hstep with hw
    cases hstep
    exact write_sound h (hw.not_headerByte h) byte

theorem runs_sound {parentStats : Option AtomicStats} {actions : List PoolAction}
    (hmeets : Meets step ShrinksIdle (start parentStats) actions)
    (hrun : runs step (start parentStats) actions = some w) : w.Sound :=
  runs_invariant_of_meets (fun _ _ _ h hidle hstep => step_sound h hidle hstep)
    (start_sound parentStats) hmeets hrun

theorem meets_of_plain {actions : List PoolAction}
    (hplain : ∀ a ∈ actions, a.SizeFits ∧ ∀ addresses, a ≠ .shrink addresses) (w : PoolWorld) :
    Meets step ShrinksIdle w actions := by
  induction actions generalizing w with
  | nil => trivial
  | cons a rest ih =>
    obtain ⟨hsize, hshrink⟩ := hplain a (by simp)
    exact ⟨⟨hsize, fun addresses heq => absurd heq (hshrink addresses)⟩,
      fun w' _ => ih (fun b hb => hplain b (by simp [hb])) w'⟩

end PoolWorld

/-- Any history of allocations and frees, under any configuration. -/
theorem slab_pool_never_overlaps (parentStats : Option AtomicStats) (actions : List PoolAction)
    (hplain : ∀ a ∈ actions, a.SizeFits ∧ ∀ addresses, a ≠ .shrink addresses) (w : PoolWorld)
    (hrun : runs PoolWorld.step (PoolWorld.start parentStats) actions = some w) :
    (w.live.Pairwise fun x y => (x.extent w.state.pool.config.enableGuardBytes).Disjoint
      (y.extent w.state.pool.config.enableGuardBytes)) ∧
    (∀ x ∈ w.live,
      (∃ block ∈ w.state.pool.allBlocks,
        (x.extent w.state.pool.config.enableGuardBytes).Within block.extent) ∨
      (x.header ∈ w.state.pool.largeAllocs ∧
        x.extent w.state.pool.config.enableGuardBytes ∈ w.state.heap.outstanding)) ∧
    (∀ c < kNumSizeClasses, (w.state.pool.slabs c).Nodup ∧
      (w.state.pool.slabs c).Perm (w.state.pool.freeLists c ++ headersIn w.live c)) ∧
    (∀ c < kNumSizeClasses, ∀ block ∈ w.state.pool.blocks c,
      block.usedCount = (headersIn w.live c).countP fun hdr => hdr ∈ block.slabs) ∧
    (w.state.heap.outstanding.map Extent.base).Nodup ∧
    (w.state.heap.outstanding.map Extent.base).Perm
      (w.state.pool.allBlocks.map Block.base ++ w.state.pool.largeAllocs) := by
  have h := PoolWorld.runs_sound (PoolWorld.meets_of_plain hplain _) hrun
  refine ⟨?_, ?_, ?_, h.layout.used, ?_, ?_⟩
  · exact h.layout.live_nodup.pairwise_of_forall_ne fun x hx y hy hne =>
      h.layout.live_disjoint hx hy hne
  · intro x hx
    by_cases hclass : x.classIdx < kNumSizeClasses
    · obtain ⟨block, hb, hs⟩ := mem_slabs.mp (h.layout.mem_slabs_of_live hx hclass)
      exact .inl ⟨block, mem_allBlocks.mpr ⟨_, hclass, hb⟩,
        (Layout.extent_within_slab _ hclass).trans (h.layout.slab_within hclass hb hs)⟩
    · have hlarge : x ∈ larges w.live := mem_larges.mpr ⟨hx, Nat.not_lt.mp hclass⟩
      exact .inr ⟨h.layout.large.mem_iff.mpr (List.mem_map_of_mem hlarge),
        h.layout.large_mem hlarge⟩
  · exact fun c hc => ⟨h.layout.slabs_nodup hc, h.layout.partition c hc⟩
  · apply List.pairwise_map.mpr
    apply h.layout.apart.imp_of_mem
    intro left right hleft hright hdisj heq
    have hlen := (h.layout.room left hleft).2.1
    have hlen' := (h.layout.room right hright).2.1
    unfold Extent.Disjoint at hdisj
    omega
  · have hbases := h.layout.held.map Extent.base
    rw [List.map_append, List.map_map, List.map_map] at hbases
    exact hbases.trans (h.layout.large.symm.append_left _)

/-- Two slabs of one block and a large allocation; the first slab is freed and
handed out again. -/
theorem slab_pool_never_overlaps_reuse :
    ∃ w, runs PoolWorld.step (PoolWorld.start none)
        [.init { blockSize := 64 }, .allocAligned 8 8 ⟨some 4096, 100⟩,
          .allocAligned 8 8 ⟨none, 0⟩, .allocAligned 5000 8 ⟨some 8192, 0⟩, .free 4120,
          .allocAligned 5 8 ⟨none, 0⟩] = some w ∧
      w.live = [⟨4096, 5⟩, ⟨8192, 5000⟩, ⟨4128, 8⟩] ∧
      (w.live.Pairwise fun x y => (x.extent w.state.pool.config.enableGuardBytes).Disjoint
        (y.extent w.state.pool.config.enableGuardBytes)) := by
  obtain ⟨w, hrun, hlive⟩ := Option.map_eq_some_iff.mp
    (show (runs PoolWorld.step (PoolWorld.start none)
        [.init { blockSize := 64 }, .allocAligned 8 8 ⟨some 4096, 100⟩,
          .allocAligned 8 8 ⟨none, 0⟩, .allocAligned 5000 8 ⟨some 8192, 0⟩, .free 4120,
          .allocAligned 5 8 ⟨none, 0⟩]).map PoolWorld.live =
        some [⟨4096, 5⟩, ⟨8192, 5000⟩, ⟨4128, 8⟩] by decide +kernel)
  refine ⟨w, hrun, hlive, ?_⟩
  exact (slab_pool_never_overlaps none _ (by simp [PoolAction.SizeFits, sizeofSlabHeader, kGuardSize])
    w hrun).1

/-- Histories in which `Shrink` is called only while no slab is live. -/
theorem shrink_keeps_ownership (parentStats : Option AtomicStats) (actions : List PoolAction)
    (hmeets : Meets PoolWorld.step ShrinksIdle (PoolWorld.start parentStats) actions)
    (w : PoolWorld)
    (hrun : runs PoolWorld.step (PoolWorld.start parentStats) actions = some w) :
    (∀ c < kNumSizeClasses, ∀ slab ∈ w.state.pool.freeLists c ++ headersIn w.live c,
      ∃ block ∈ w.state.pool.blocks c, slab ∈ block.slabs ∧
        SlabHeader.blockOwner w.state.heap.memory slab = block.address) ∧
    (w.state.pool.allBlocks.map Block.address).Nodup ∧
    (∀ c < kNumSizeClasses, ∀ block ∈ w.state.pool.blocks c,
      block.usedCount = (headersIn w.live c).countP fun hdr => hdr ∈ block.slabs) ∧
    (w.live = [] → ∀ addresses state, w.state.shrink addresses = some state →
      state.pool.blockCount = 0) := by
  have h := PoolWorld.runs_sound hmeets hrun
  refine ⟨?_, h.layout.addresses, h.layout.used, ?_⟩
  · intro c hc slab hslab
    obtain ⟨block, hb, hs⟩ := mem_slabs.mp ((h.layout.partition c hc).mem_iff.mpr hslab)
    exact ⟨block, hb, hs, h.headers.owner c hc block hb slab hs⟩
  · intro hempty addresses state hcall
    apply (h.shrink _ hcall).2.1
    intro c hc
    rw [hempty]
    rfl

/-- A slab is allocated and freed, and the idle block is given back. -/
theorem shrink_keeps_ownership_freed :
    ∃ w, runs PoolWorld.step (PoolWorld.start none)
        [.init { blockSize := 64 }, .allocAligned 8 8 ⟨some 4096, 100⟩, .free 4120] = some w ∧
      w.live = [] ∧ w.state.pool.blockCount = 1 ∧
      ∃ state, w.state.shrink (fun _ => []) = some state ∧ state.pool.blockCount = 0 := by
  obtain ⟨w, hrun, hw⟩ := Option.map_eq_some_iff.mp
    (show (runs PoolWorld.step (PoolWorld.start none)
        [.init { blockSize := 64 }, .allocAligned 8 8 ⟨some 4096, 100⟩, .free 4120]).map
          (fun w => (w.live, w.state.pool.blockCount, (w.state.shrink fun _ => []).isSome)) =
        some ([], 1, true) by decide +kernel)
  simp only [Prod.mk.injEq] at hw
  obtain ⟨state, hshrink⟩ := Option.isSome_iff_exists.mp hw.2.2
  refine ⟨w, hrun, hw.1, hw.2.1, state, hshrink, ?_⟩
  refine (shrink_keeps_ownership none _ ?_ w hrun).2.2.2 hw.1 _ state hshrink
  apply PoolWorld.meets_of_plain
  simp [PoolAction.SizeFits, sizeofSlabHeader, kGuardSize]

/-- A slab that lives across a `Shrink`: its block moves to a new Block object,
and the header still names the one that is gone. -/
theorem shrink_strands_owner :
    ∃ w, runs PoolWorld.step (PoolWorld.start none)
        [.init { blockSize := 64 }, .allocAligned 8 8 ⟨some 4096, 100⟩,
          .shrink fun c => if c = 0 then [200] else []] = some w ∧
      w.live = [⟨4096, 8⟩] ∧ SlabHeader.blockOwner w.state.heap.memory 4096 = 100 ∧
      ¬∃ block ∈ w.state.pool.allBlocks, block.address = 100 := by
  obtain ⟨w, hrun, hw⟩ := Option.map_eq_some_iff.mp
    (show (runs PoolWorld.step (PoolWorld.start none)
        [.init { blockSize := 64 }, .allocAligned 8 8 ⟨some 4096, 100⟩,
          .shrink fun c => if c = 0 then [200] else []]).map
          (fun w => (w.live, SlabHeader.blockOwner w.state.heap.memory 4096,
            w.state.pool.allBlocks.map Block.address)) =
        some ([⟨4096, 8⟩], 100, [200]) by decide +kernel)
  simp only [Prod.mk.injEq] at hw
  refine ⟨w, hrun, hw.1, hw.2.1, ?_⟩
  rintro ⟨block, hb, haddress⟩
  have hmem := List.mem_map_of_mem (f := Block.address) hb
  rw [hw.2.2, haddress] at hmem
  simp at hmem

end Corekit.Memory
