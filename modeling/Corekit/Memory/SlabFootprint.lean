import Corekit.Memory.SlabRuns
import Mathlib.Algebra.Order.Floor.Div

/-! How much memory a pool takes from the underlying allocator. A block is added
to a size class only when every slab of the class is in use, so the number of
blocks follows from the peak of the slabs in use, not from the history behind
it. -/
namespace Corekit.Memory
open Corekit.Foundation Allocation

def PoolWorld.slabsInUse (w : PoolWorld) (c : Nat) : Nat := (headersIn w.live c).length

def SlabPoolImpl.slabsPerBlock (pool : SlabPoolImpl) (c : Nat) : Nat :=
  pool.config.blockSize.toNat / pool.slabSize c

/-- A pool and, for each class, the most slabs that were in use since the last
`Shrink`. -/
structure PeakWorld where
  world : PoolWorld
  peak : Nat → Nat := fun _ => 0

namespace PeakWorld

def step (p : PeakWorld) (a : PoolAction) : Option PeakWorld :=
  (p.world.step a).map fun w =>
    { world := w
      peak := fun c =>
        match a with
        | .shrink _ => w.slabsInUse c
        | _ => max (p.peak c) (w.slabsInUse c) }

def start (parentStats : Option AtomicStats) : PeakWorld := { world := .start parentStats }

end PeakWorld

/-- Groups of `per` units, of which `inUse` are in use and `peak` have been at
once: there is room for the peak, and not a group more than it needs. -/
structure Tight (per groups inUse peak : Nat) : Prop where
  current : inUse ≤ peak
  room : peak ≤ groups * per
  least : groups = 0 ∨ (groups - 1) * per < peak

namespace Tight

variable {per groups inUse peak : Nat}

theorem empty (per : Nat) : Tight per 0 0 0 := ⟨le_rfl, Nat.zero_le _, .inl rfl⟩

theorem take (h : Tight per groups inUse peak) (hfree : inUse < groups * per) :
    Tight per groups (inUse + 1) (max peak (inUse + 1)) := by
  obtain ⟨hcurrent, hroom, hleast⟩ := h
  exact ⟨by omega, by omega, hleast.imp_right fun hlt => by omega⟩

theorem grow (h : Tight per groups inUse peak) (hper : 0 < per) (hfull : inUse = groups * per) :
    Tight per (groups + 1) (inUse + 1) (max peak (inUse + 1)) := by
  obtain ⟨hcurrent, hroom, -⟩ := h
  refine ⟨by omega, ?_, .inr ?_⟩
  · rw [Nat.succ_mul]
    omega
  · rw [Nat.add_sub_cancel]
    omega

theorem give (h : Tight per groups inUse peak) {fewer : Nat} (hle : fewer ≤ inUse) :
    Tight per groups fewer (max peak fewer) := by
  obtain ⟨hcurrent, hroom, hleast⟩ := h
  rw [max_eq_left (by omega)]
  exact ⟨by omega, hroom, hleast⟩

end Tight

theorem headersIn_cons_length (hdr size : Nat) (live : List Allocation) (c : Nat) :
    (headersIn (⟨hdr, size⟩ :: live) c).length =
      (headersIn live c).length + if sizeClassIndex size = c then 1 else 0 := by
  by_cases h : sizeClassIndex size = c <;> simp [headersIn, classIdx, h]

namespace Layout

variable {pool : SlabPoolImpl} {outstanding : List Extent} {live : List Allocation} {c : Nat}

theorem slabs_length (h : Layout pool outstanding live) (hc : c < kNumSizeClasses) :
    (pool.slabs c).length = (pool.blocks c).length * pool.slabsPerBlock c := by
  rw [SlabPoolImpl.slabs, List.length_flatMap]
  have heach : (pool.blocks c).map (fun block => block.slabs.length) =
      (pool.blocks c).map fun _ => pool.slabsPerBlock c := by
    refine List.map_congr_left fun block hb => ?_
    simp only [Block.slabs, Extent.cells, List.length_map, List.length_range]
    exact (h.shape c hc block hb).2.2.1
  rw [heach, List.map_const', List.sum_replicate, smul_eq_mul]

theorem free_add_inUse (h : Layout pool outstanding live) (hc : c < kNumSizeClasses) :
    (pool.freeLists c).length + (headersIn live c).length =
      (pool.blocks c).length * pool.slabsPerBlock c := by
  rw [← h.slabs_length hc, (h.partition c hc).length_eq, List.length_append]

end Layout

namespace PoolState

variable (s : PoolState)

theorem popSlab_blocks_length (classIdx size slot c : Nat) :
    ((s.popSlab classIdx size slot).pool.blocks c).length = (s.pool.blocks c).length := by
  rw [Sound.popSlab_pool]
  split
  · simp [SlabPoolImpl.updateUsed]
  · rfl

theorem popSlab_config (classIdx size slot : Nat) :
    (s.popSlab classIdx size slot).pool.config = s.pool.config := by
  rw [Sound.popSlab_pool]
  split <;> rfl

theorem free_blocks_length (ptr c : Nat) :
    ((s.free ptr).pool.blocks c).length = (s.pool.blocks c).length ∧
      (s.free ptr).pool.config = s.pool.config := by
  have hslab : ∀ hdr, ((s.freeToSlab hdr).pool.blocks c).length = (s.pool.blocks c).length ∧
      (s.freeToSlab hdr).pool.config = s.pool.config := by
    intro hdr
    simp only [freeToSlab]
    split_ifs <;> simp [SlabPoolImpl.updateUsed]
  simp only [free]
  split_ifs
  · exact ⟨rfl, rfl⟩
  · exact ⟨rfl, rfl⟩
  · exact ⟨rfl, rfl⟩
  · exact hslab _

end PoolState

structure PeakWorld.Sound (p : PeakWorld) : Prop where
  world : p.world.Sound
  tight : ∀ c < kNumSizeClasses, Tight (p.world.state.pool.slabsPerBlock c)
    (p.world.state.pool.blocks c).length (p.world.slabsInUse c) (p.peak c)

namespace PeakWorld.Sound

variable {p : PeakWorld} {w : PoolWorld} {c : Nat}

theorem keep (h : p.Sound) (hc : c < kNumSizeClasses)
    (hconfig : w.state.pool.config = p.world.state.pool.config)
    (hblocks : (w.state.pool.blocks c).length = (p.world.state.pool.blocks c).length)
    (hfewer : w.slabsInUse c ≤ p.world.slabsInUse c) :
    Tight (w.state.pool.slabsPerBlock c) (w.state.pool.blocks c).length (w.slabsInUse c)
      (max (p.peak c) (w.slabsInUse c)) := by
  have hper : w.state.pool.slabsPerBlock c = p.world.state.pool.slabsPerBlock c := by
    simp only [SlabPoolImpl.slabsPerBlock, SlabPoolImpl.slabSize, hconfig]
  rw [hper, hblocks]
  exact (h.tight c hc).give hfewer

theorem init (h : p.Sound) (config : PoolConfig) (hc : c < kNumSizeClasses) :
    Tight ((p.world.state.init config).2.pool.slabsPerBlock c)
      ((p.world.state.init config).2.pool.blocks c).length (p.world.slabsInUse c)
      (max (p.peak c) (p.world.slabsInUse c)) := by
  unfold PoolState.init
  split
  · exact (h.tight c hc).give le_rfl
  · next hunready =>
    obtain ⟨hlive, hblocks⟩ := h.world.layout.unready (by simpa using hunready)
    have hinUse : p.world.slabsInUse c = 0 := by
      simp [PoolWorld.slabsInUse, headersIn, hlive]
    have hpeak : p.peak c = 0 := by
      have hroom := (h.tight c hc).room
      rw [hblocks, List.length_nil, Nat.zero_mul] at hroom
      exact Nat.le_zero.mp hroom
    simp only [hblocks, hinUse, hpeak, List.length_nil, max_self]
    exact .empty _

/-- Whichever way the header comes, the class of the request gains a slab in use. -/
theorem obtain (h : p.Sound) {size hdr : Nat} {mid : PoolState}
    (hobtains : p.world.state.Obtains size hdr mid) (hc : c < kNumSizeClasses) :
    Tight ((mid.recordAlloc size).pool.slabsPerBlock c)
      ((mid.recordAlloc size).pool.blocks c).length
      (PoolWorld.slabsInUse ⟨mid.recordAlloc size, ⟨hdr, size⟩ :: p.world.live⟩ c)
      (max (p.peak c)
        (PoolWorld.slabsInUse ⟨mid.recordAlloc size, ⟨hdr, size⟩ :: p.world.live⟩ c)) := by
  have htight := h.tight c hc
  have hslabs := h.world.layout.free_add_inUse hc
  simp only [PoolWorld.slabsInUse, headersIn_cons_length] at htight hslabs ⊢
  cases hobtains with
  | recycle hclass hslot =>
    have hper : ((p.world.state.popSlab (sizeClassIndex size) size hdr).recordAlloc
        size).pool.slabsPerBlock c = p.world.state.pool.slabsPerBlock c := by
      simp only [SlabPoolImpl.slabsPerBlock, SlabPoolImpl.slabSize, PoolState.recordAlloc,
        PoolState.popSlab_config]
    rw [hper]
    simp only [PoolState.recordAlloc, PoolState.popSlab_blocks_length]
    by_cases heq : sizeClassIndex size = c
    · have hfree : 0 < (p.world.state.pool.freeLists c).length :=
        heq ▸ List.length_pos_of_mem (List.mem_of_getLast? hslot)
      rw [if_pos heq]
      exact htight.take (by omega)
    · rw [if_neg heq, Nat.add_zero]
      exact htight.give le_rfl
  | carve hclass hempty hcount hgrants haddress =>
    by_cases heq : sizeClassIndex size = c
    · subst heq
      rw [hempty, List.length_nil, Nat.zero_add] at hslabs
      rw [if_pos rfl]
      simp only [PoolState.recordAlloc, PoolState.carveBlock, Function.update_self,
        List.length_append, List.length_singleton]
      exact htight.grow (Nat.pos_of_ne_zero hcount) hslabs
    · rw [if_neg heq, Nat.add_zero]
      simp only [PoolState.recordAlloc, PoolState.carveBlock, Function.update_of_ne (Ne.symm heq)]
      exact htight.give le_rfl
  | large hclass hgrants =>
    have hne : sizeClassIndex size ≠ c := by omega
    rw [if_neg hne]
    exact htight.give le_rfl

theorem step (h : p.Sound) {a : PoolAction} {p' : PeakWorld} (hidle : ShrinksIdle p.world a)
    (hstep : p.step a = some p') : p'.Sound := by
  obtain ⟨w, hmove, rfl⟩ := Option.map_eq_some_iff.mp hstep
  refine ⟨PoolWorld.step_sound h.world hidle hmove, fun c hc => ?_⟩
  cases a with
  | init config =>
    cases hmove
    exact h.init config hc
  | allocAligned size alignment answer =>
    obtain ⟨⟨result, state⟩, hcall, hnext⟩ := Option.map_eq_some_iff.mp hmove
    rcases PoolState.allocAligned_cases hcall with ⟨rfl, rfl, -⟩ |
      ⟨hdr, mid, -, hobtains, rfl, rfl, -⟩
    · cases hnext
      exact h.keep hc rfl rfl le_rfl
    · have hheader : headerFromUser (userFromHeader hdr) = hdr := Nat.add_sub_cancel _ _
      simp only [hheader] at hnext
      cases hnext
      exact h.obtain hobtains hc
  | free ptr =>
    simp only [PoolWorld.step] at hmove
    have hblocks := p.world.state.free_blocks_length ptr c
    split_ifs at hmove with hnull
    · cases hmove
      exact h.keep hc hblocks.2 hblocks.1 le_rfl
    · obtain ⟨x, hfind, hnext⟩ := Option.map_eq_some_iff.mp hmove
      cases hnext
      refine h.keep hc hblocks.2 hblocks.1 ?_
      exact ((List.erase_sublist.filter _).map _).length_le
  | shrink addresses =>
    obtain ⟨state, hcall, hnext⟩ := Option.map_eq_some_iff.mp hmove
    cases hnext
    have hnone := (hidle.2 addresses rfl).headersIn
    obtain ⟨-, hcount, -, -⟩ := h.world.shrink hnone hcall
    have hall : state.pool.allBlocks = [] := List.length_eq_zero_iff.mp hcount
    rw [SlabPoolImpl.allBlocks, List.flatMap_eq_nil_iff] at hall
    simp only [PoolWorld.slabsInUse, hnone c hc, hall c (List.mem_range.mpr hc), List.length_nil]
    exact .empty _
  | store address byte =>
    simp only [PoolWorld.step] at hmove
    split_ifs at hmove
    cases hmove
    exact h.keep hc rfl rfl le_rfl

theorem meets_world {actions : List PoolAction} {p : PeakWorld}
    (h : Meets PoolWorld.step ShrinksIdle p.world actions) :
    Meets PeakWorld.step (fun p => ShrinksIdle p.world) p actions := by
  induction actions generalizing p with
  | nil => trivial
  | cons a rest ih =>
    refine ⟨h.1, fun p' hstep => ih ?_⟩
    obtain ⟨w, hmove, rfl⟩ := Option.map_eq_some_iff.mp hstep
    exact h.2 w hmove

theorem of_run {parentStats : Option AtomicStats} {actions : List PoolAction}
    (hmeets : Meets PoolWorld.step ShrinksIdle (.start parentStats) actions)
    (hrun : runs PeakWorld.step (.start parentStats) actions = some p) : p.Sound := by
  have hstart : (PeakWorld.start parentStats).Sound :=
    ⟨PoolWorld.start_sound parentStats, fun c _ => Tight.empty _⟩
  exact runs_invariant_of_meets (fun _ _ _ h hidle hstep => h.step hidle hstep) hstart
    (meets_world hmeets) hrun

end PeakWorld.Sound

end Corekit.Memory
