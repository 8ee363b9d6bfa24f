import Corekit.Memory.PoolFrames
import Corekit.Memory.SlabAlignment

/-! The guard bytes behind an allocation, from the call that writes them to the
`Free` that looks at them. `WriteGuard` fills what the size class leaves of the
slab, at most `kGuardSize` bytes, and nothing behind a large allocation;
`ValidateGuard` always looks at `kGuardSize` bytes. -/
namespace Corekit.Memory
open Corekit.Foundation Allocation

/-- The bytes that `WriteGuard` fills. -/
def guardLen (size : Nat) : Nat :=
  if sizeClassIndex size < kNumSizeClasses then
    min (classBytes (sizeClassIndex size) - size) kGuardSize
  else 0

theorem guardLen_le (size : Nat) : guardLen size ≤ kGuardSize := by
  unfold guardLen
  split <;> omega

def Allocation.guardBytes (mem : Mem) (x : Allocation) : List UInt8 :=
  mem.read (x.ptr + x.size) kGuardSize

namespace PoolState

/-- What `Free` finds when it validates the guard; `none` if it does not. -/
def freeCheck (s : PoolState) (ptr : Nat) : Option Bool :=
  let hdr := headerFromUser ptr
  if ptr = 0 ∨ s.pool.inited = false ∨ SlabHeader.magic s.heap.memory hdr ≠ kSlabMagic ∨
      SlabHeader.flags s.heap.memory hdr &&& 1 = 0 then none
  else some (validateGuard s.heap.memory ptr (SlabHeader.userSize s.heap.memory hdr))

/-- The header of an allocation that gets memory as it is: a slab of the free
list or a large block. A new block is filled with zeros first. -/
def usedPlace (s : PoolState) (size : Nat) (answer : Answer) : Option Nat :=
  if sizeClassIndex size < kNumSizeClasses then (s.pool.freeLists (sizeClassIndex size)).getLast?
  else answer.raw

/-- `WriteGuard` fills the whole guard, or the bytes that it leaves out hold the
pattern already. -/
def GuardComplete (s : PoolState) (size : Nat) (answer : Answer) : Prop :=
  guardLen size = kGuardSize ∨ ∃ hdr ∈ s.usedPlace size answer,
    s.heap.memory.read (userFromHeader hdr + size + guardLen size) (kGuardSize - guardLen size) =
      List.replicate (kGuardSize - guardLen size) kGuardPattern

end PoolState

section Flags

variable {mem mem' : Mem} {hdr : Nat}

theorem SlabHeader.flags_keep {addr len : Nat} (h : Mem.SameOutside addr len mem mem')
    (hdisj : Extent.Disjoint ⟨hdr, sizeofSlabHeader⟩ ⟨addr, len⟩) :
    SlabHeader.flags mem' hdr = SlabHeader.flags mem hdr := by
  unfold Extent.Disjoint sizeofSlabHeader at hdisj
  simp only at hdisj
  exact h.loadLE_eq (by omega)

theorem SlabHeader.flags_stamp (mem : Mem) (hdr classIdx : Nat) (guards : Bool) (size : Nat) :
    SlabHeader.flags (SlabHeader.stamp mem hdr classIdx guards size) hdr =
      if guards then 1 else 0 := by
  unfold SlabHeader.stamp SlabHeader.setFlags SlabHeader.setUserSize SlabHeader.flags
  rw [loadLE_storeLE_of_disjoint, Mem.loadLE_storeLE]
  · split <;> decide
  · simp [Extent.Disjoint]

theorem SlabHeader.flags_setBlockOwner (mem : Mem) (hdr value : Nat) :
    SlabHeader.flags (SlabHeader.setBlockOwner mem hdr value) hdr = SlabHeader.flags mem hdr :=
  loadLE_storeLE_of_disjoint _ _ (by simp [Extent.Disjoint])

theorem populate_first {block : Block} {is : List Nat} (his : ∀ i ∈ is, 0 < i) (mem : Mem)
    (freeList : List Nat) {address : Nat} (haddress : address < block.base + block.slabSize) :
    (PoolState.populate block is (mem, freeList)).1 address = mem address := by
  induction is generalizing mem freeList with
  | nil => rfl
  | cons i rest ih =>
    have hle : block.slabSize ≤ i * block.slabSize :=
      Nat.le_mul_of_pos_left _ (his i (by simp))
    rw [PoolState.populate, ih fun j hj => his j (by simp [hj])]
    exact SlabHeader.setBlockOwner_sameOutside _ _ _ address (.inl (by omega))

end Flags

namespace PoolState

variable {s s' : PoolState} {size hdr : Nat} {answer : Answer}

inductive Beneath (s : PoolState) (size hdr : Nat) (mem : Mem) : Prop
  | used (hslot : sizeClassIndex size < kNumSizeClasses →
        (s.pool.freeLists (sizeClassIndex size)).getLast? = some hdr)
      (hmem : ∀ address, userFromHeader hdr ≤ address → mem address = s.heap.memory address)
  | zeroed (hc : sizeClassIndex size < kNumSizeClasses)
      (hempty : s.pool.freeLists (sizeClassIndex size) = [])
      (hmem : ∀ address, userFromHeader hdr ≤ address →
        address < hdr + s.pool.slabSize (sizeClassIndex size) → mem address = 0)

theorem carveBlock_guarded (s : PoolState) (hguards : s.pool.config.enableGuardBytes = true)
    (c size : Nat) (block : Block) (hslab : block.slabSize ≤ block.totalBytes) :
    ∃ mem, (s.carveBlock c size block).heap.memory = mem.fill (userFromHeader block.base + size)
        (min (classBytes c - size) kGuardSize) kGuardPattern ∧
      SlabHeader.flags mem block.base = 1 ∧
      ∀ address, userFromHeader block.base ≤ address → address < block.base + block.slabSize →
        mem address = 0 := by
  have hbehind : ∀ i ∈ List.range' 1 (block.slabCount - 1), 0 < i :=
    fun i hi => (List.mem_range'_1.mp hi).1
  refine ⟨SlabHeader.setBlockOwner (SlabHeader.stamp
    (populate block (List.range' 1 (block.slabCount - 1))
      (s.heap.memory.fill block.base block.totalBytes 0, s.pool.freeLists c)).1
    block.base c true size) block.base block.address, ?_, ?_, fun address hlow hhigh => ?_⟩
  · simp only [carveBlock, hguards, if_true, writeGuard]
  · rw [SlabHeader.flags_setBlockOwner, SlabHeader.flags_stamp, if_pos rfl]
  · rw [SlabHeader.setBlockOwner_sameOutside _ _ _ address (.inr hlow),
      SlabHeader.stamp_sameOutside _ _ _ _ _ address (.inr hlow), populate_first hbehind _ _ hhigh]
    exact if_pos ⟨(Nat.le_add_right _ _).trans hlow, hhigh.trans_le (Nat.add_le_add_left hslab _)⟩

/-- Every way to a header ends with the guard, over a header with its flag. -/
theorem Obtains.guarded (h : s.Obtains size hdr s')
    (hguards : s.pool.config.enableGuardBytes = true) :
    ∃ mem, s'.heap.memory = mem.fill (userFromHeader hdr + size) (guardLen size) kGuardPattern ∧
      SlabHeader.flags mem hdr = 1 ∧ s.Beneath size hdr mem := by
  cases h with
  | recycle hc hslot =>
    refine ⟨SlabHeader.stamp s.heap.memory hdr (sizeClassIndex size) true size, ?_, ?_,
      .used (fun _ => hslot) fun address hle => ?_⟩
    · simp only [popSlab, hguards, if_true, writeGuard, guardLen, if_pos hc]
    · exact SlabHeader.flags_stamp _ _ _ _ _
    · exact SlabHeader.stamp_sameOutside _ _ _ _ _ address (.inr hle)
  | carve hc hempty hcount hgrants haddress =>
    obtain ⟨mem, hmem, hflags, hzero⟩ := carveBlock_guarded
      { s with heap := { s.heap with
        outstanding := ⟨hdr, s.pool.config.blockSize.toNat⟩ :: s.heap.outstanding } } hguards
      (sizeClassIndex size) size ⟨_, hdr, s.pool.config.blockSize.toNat,
        s.pool.slabSize (sizeClassIndex size), _, 1⟩ (Nat.div_ne_zero_iff.mp hcount).2
    exact ⟨mem, by rw [hmem, guardLen, if_pos hc], hflags, .zeroed hc hempty hzero⟩
  | large hc hgrants =>
    refine ⟨SlabHeader.setBlockOwner (SlabHeader.stamp s.heap.memory hdr kLargeClass true size)
      hdr 0, ?_, ?_, .used (fun hlt => absurd hlt (Nat.not_lt.mpr hc)) fun address hle => ?_⟩
    · simp only [largeMem, hguards, if_true, writeGuard, Nat.sub_self, Nat.zero_min, guardLen,
        if_neg (Nat.not_lt.mpr hc)]
    · rw [SlabHeader.flags_setBlockOwner, SlabHeader.flags_stamp, if_pos rfl]
    · exact (SlabHeader.setBlockOwner_sameOutside _ _ _ address (.inr hle)).trans
        (SlabHeader.stamp_sameOutside _ _ _ _ _ address (.inr hle))

theorem Obtains.guardBytes_iff (h : s.Obtains size hdr s')
    (hguards : s.pool.config.enableGuardBytes = true)
    (hraw : kNumSizeClasses ≤ sizeClassIndex size → answer.raw = some hdr) :
    guardBytes s'.heap.memory ⟨hdr, size⟩ = List.replicate kGuardSize kGuardPattern ↔
      s.GuardComplete size answer := by
  obtain ⟨mem, hmem, -, hbeneath⟩ := h.guarded hguards
  have hle := guardLen_le size
  have hsplit : List.replicate kGuardSize kGuardPattern =
      List.replicate (guardLen size) kGuardPattern ++
        List.replicate (kGuardSize - guardLen size) kGuardPattern := by
    rw [List.replicate_append_replicate, Nat.add_sub_cancel' hle]
  have hread : guardBytes s'.heap.memory ⟨hdr, size⟩ =
      List.replicate (guardLen size) kGuardPattern ++
        mem.read (userFromHeader hdr + size + guardLen size) (kGuardSize - guardLen size) := by
    rw [hmem]
    exact Mem.read_fill _ _ _ hle
  rw [hread, hsplit, List.append_cancel_left_eq]
  cases hbeneath with
  | used hslot hused =>
    have hplace : s.usedPlace size answer = some hdr := by
      unfold usedPlace
      split
      · next hc => exact hslot hc
      · next hc => exact hraw (Nat.not_lt.mp hc)
    rw [Mem.read_congr fun address hlow _ => hused address (by omega)]
    constructor
    · exact fun hsame => .inr ⟨hdr, hplace, hsame⟩
    · rintro (hfull | ⟨hdr', hplace', hsame⟩)
      · simp [hfull]
      · cases hplace.symm.trans hplace'
        exact hsame
  | zeroed hc hempty hzero =>
    have hslab : size ≤ classBytes (sizeClassIndex size) := size_le_classBytes hc
    have hend : userFromHeader hdr + size + guardLen size + (kGuardSize - guardLen size) ≤
        hdr + s.pool.slabSize (sizeClassIndex size) := by
      simp only [SlabPoolImpl.slabSize, hguards, if_true, userFromHeader]
      omega
    have hplace : s.usedPlace size answer = none := by
      rw [usedPlace, if_pos hc, hempty, List.getLast?_nil]
    rw [Mem.read_eq_replicate fun address hlow hhigh => hzero address (by omega) (by omega),
      List.replicate_inj]
    constructor
    · rintro ⟨-, hnone | hsame⟩
      · exact .inl (by omega)
      · exact absurd hsame (by decide)
    · rintro (hfull | ⟨hdr', hplace', -⟩)
      · exact ⟨rfl, .inl (by omega)⟩
      · rw [hplace] at hplace'
        cases hplace'

end PoolState

namespace PoolState.Sound

variable {s s' : PoolState} {live : List Allocation} {size hdr : Nat}

theorem obtains_keeps (h : s.Sound live)
    (hsize : sizeofSlabHeader + size + kGuardSize < 2 ^ 64) (hobtains : s.Obtains size hdr s') :
    ∃ changed : Extent,
      Mem.SameOutside changed.base changed.len s.heap.memory s'.heap.memory ∧
        ∀ x ∈ live, (x.extent s.pool.config.enableGuardBytes).Disjoint changed := by
  have hgranted : ∀ {len raw : Nat}, s.heap.Grants len raw → ∀ x ∈ live,
      (x.extent s.pool.config.enableGuardBytes).Disjoint ⟨raw, len⟩ := by
    intro len raw hgrants x hx
    obtain ⟨extent, hmem, hwithin⟩ := h.layout.live_in_extent hx
    exact (hgrants.2.2 extent hmem).mono hwithin (Extent.Within.refl _)
  cases hobtains with
  | recycle hc hslot =>
    have hfree := List.mem_of_getLast? hslot
    obtain ⟨block, hb, hs⟩ := mem_slabs.mp (h.layout.mem_slabs_of_free hc hfree)
    have hstamped := (popSlab_bytes s hdr (hc.trans (by decide)) (size_le_classBytes hc)
      (by omega)).1
    refine ⟨⟨hdr, s.pool.slabSize (sizeClassIndex size)⟩, hstamped.outside, fun x hx => ?_⟩
    apply h.layout.extent_disjoint_slab hx hc hb hs
    intro hclass heq
    exact h.layout.free_notMem_live hc hfree (mem_headersIn.mpr ⟨x, hx, hclass, heq⟩)
  | carve hc hempty hcount hgrants haddress =>
    refine ⟨⟨hdr, s.pool.config.blockSize.toNat⟩, ?_, hgranted hgrants⟩
    apply Stamped.outside
    exact (carveBlock_bytes _ rfl (Nat.div_mul_le_self _ _) (Nat.pos_of_ne_zero hcount)
      haddress.2.1 (hc.trans (by decide)) (size_le_classBytes hc) (by omega)).1
  | large hc hgrants =>
    have hstamped := largeMem_bytes s hdr (by omega : size < 2 ^ 64)
    rw [← largeTotal_eq _ hdr hsize] at hstamped
    exact ⟨_, hstamped.outside, hgranted hgrants⟩

theorem free_keeps {x : Allocation} (h : s.Sound live) (hx : x ∈ live) :
    Mem.SameOutside x.header sizeofSlabHeader s.heap.memory (s.free x.ptr).heap.memory ∧
      (s.free x.ptr).pool.config = s.pool.config := by
  rw [free_eq (h.headers.live x hx) (h.inited_of_live hx)]
  by_cases hclass : x.classIdx < kNumSizeClasses
  · rw [if_pos hclass]
    obtain ⟨hconfig, -, -, -, -, hbytes⟩ := s.freeToSlab_frame x.header
    exact ⟨hbytes, hconfig⟩
  · rw [if_neg hclass]
    exact ⟨SlabHeader.setMagic_sameOutside _ _ _, rfl⟩

end PoolState.Sound

inductive UserAction where
  | call (action : PoolAction)
  | overrun (address : Nat) (byte : UInt8)

namespace PoolWorld

/-- An overrun may hit anything but a header, guards and free slabs included. -/
def userStep (w : PoolWorld) : UserAction → Option PoolWorld
  | .call action => w.step action
  | .overrun address byte =>
    if w.HeaderByte address then none
    else some { w with state := { w.state with heap := { w.state.heap with
      memory := w.state.heap.memory.write address [byte] } } }

def Orderly (w : PoolWorld) : UserAction → Prop
  | .call action => ShrinksIdle w action
  | .overrun _ _ => True

variable {w w' : PoolWorld} {x : Allocation}

theorem userStep_sound (h : w.Sound) {a : UserAction} (horderly : w.Orderly a)
    (hstep : w.userStep a = some w') : w'.Sound := by
  cases a with
  | call action => exact step_sound h horderly hstep
  | overrun address byte =>
    obtain ⟨hbyte, hs⟩ := Option.ite_none_left_eq_some.mp hstep
    cases hs
    exact write_sound h hbyte byte

theorem step_keeps (h : w.Sound) {a : PoolAction} (hidle : ShrinksIdle w a) (hx : x ∈ w.live)
    (hfree : a ≠ .free x.ptr) (hstep : w.step a = some w') :
    x ∈ w'.live ∧ w'.state.pool.config = w.state.pool.config ∧
      ∀ address, (x.extent w.state.pool.config.enableGuardBytes).Contains address →
        ¬Extent.Contains ⟨x.ptr, x.size⟩ address →
        w'.state.heap.memory address = w.state.heap.memory address := by
  cases a with
  | init config =>
    cases hstep
    have hinited : w.state.pool.inited = true := h.inited_of_live hx
    have hsame : (w.state.init config).2 = w.state := by simp [PoolState.init, hinited]
    rw [hsame]
    exact ⟨hx, rfl, fun _ _ _ => rfl⟩
  | allocAligned size alignment answer =>
    obtain ⟨⟨result, state⟩, hcall, hnext⟩ := Option.map_eq_some_iff.mp hstep
    rcases PoolState.allocAligned_cases hcall with
      ⟨rfl, rfl, -⟩ | ⟨hdr, mid, -, hobtains, rfl, rfl, -⟩
    · cases hnext
      exact ⟨hx, rfl, fun _ _ _ => rfl⟩
    · cases hnext
      obtain ⟨changed, hout, hapart⟩ := h.obtains_keeps hidle.1 hobtains
      exact ⟨List.mem_cons_of_mem _ hx, hobtains.frame.1, fun address hin _ =>
        hout.apply_of_disjoint (hapart x hx) hin⟩
  | free ptr =>
    simp only [step] at hstep
    split_ifs at hstep with hnull
    · cases hstep
      have hsame : w.state.free ptr = w.state := by simp [PoolState.free, hnull]
      rw [hsame]
      exact ⟨hx, rfl, fun _ _ _ => rfl⟩
    · obtain ⟨y, hfind, hnext⟩ := Option.map_eq_some_iff.mp hstep
      have hy := List.mem_of_find?_eq_some hfind
      have hptr : y.ptr = ptr := by simpa using List.find?_some hfind
      have hne : x ≠ y := fun heq => hfree (by rw [heq, hptr])
      cases hnext
      subst hptr
      obtain ⟨hout, hconfig⟩ := PoolState.Sound.free_keeps h hy
      refine ⟨(List.mem_erase_of_ne hne).mpr hx, hconfig, fun address hin _ => ?_⟩
      exact hout.apply_of_disjoint ((h.layout.live_disjoint hx hy hne).mono (Extent.Within.refl _)
        (Layout.header_within_extent y _)) hin
  | shrink addresses =>
    obtain ⟨state, hcall, hnext⟩ := Option.map_eq_some_iff.mp hstep
    cases hnext
    obtain ⟨-, -, hmem, hconfig⟩ := h.shrink (hidle.2 addresses rfl).headersIn hcall
    exact ⟨hx, hconfig, fun _ _ _ => by rw [hmem]⟩
  | store address byte =>
    obtain ⟨hw, hs⟩ := Option.ite_none_right_eq_some.mp hstep
    cases hs
    refine ⟨hx, rfl, fun other hin hnot => ?_⟩
    have hne : other ≠ address := by
      rintro rfl
      rcases hw with ⟨y, hy, huser⟩ | houtside
      · by_cases hxy : x = y
        · exact hnot (hxy ▸ huser)
        · exact Extent.not_contains_of_disjoint (h.layout.live_disjoint hx hy hxy) hin
            (Extent.Within.contains (Layout.user_within_extent y _) huser)
      · obtain ⟨extent, hmem, hwithin⟩ := h.layout.live_in_extent hx
        exact houtside extent hmem (hwithin.contains hin)
    exact Mem.SameOutside.writeByte _ address byte other (by omega)

structure Watched (x : Allocation) (w : PoolWorld) : Prop where
  sound : w.Sound
  live : x ∈ w.live
  guards : w.state.pool.config.enableGuardBytes = true
  flags : SlabHeader.flags w.state.heap.memory x.header = 1

def Spares (x : Allocation) (actions : List UserAction) : Prop :=
  ∀ address byte, .overrun address byte ∈ actions →
    ¬Extent.Contains ⟨x.ptr + x.size, kGuardSize⟩ address

theorem validateGuard_iff (mem : Mem) (x : Allocation) :
    validateGuard mem x.ptr x.size = true ↔
      guardBytes mem x = List.replicate kGuardSize kGuardPattern :=
  decide_eq_true_iff

namespace Watched

theorem freeCheck (h : w.Watched x) :
    w.state.freeCheck x.ptr = some (validateGuard w.state.heap.memory x.ptr x.size) := by
  obtain ⟨hmagic, -, hsize⟩ := h.sound.headers.live x h.live
  have hheader : headerFromUser x.ptr = x.header := Nat.add_sub_cancel _ _
  have hinited : w.state.pool.inited = true := h.sound.inited_of_live h.live
  have hptr : x.ptr ≠ 0 := Nat.ne_of_gt (Nat.lt_of_lt_of_le (by decide) (Nat.le_add_left _ _))
  simp [PoolState.freeCheck, hheader, hmagic, hsize, hinited, hptr, h.flags]

theorem step (h : w.Watched x) {a : UserAction} (horderly : w.Orderly a)
    (hfree : a ≠ .call (.free x.ptr)) (hstep : w.userStep a = some w') :
    w'.Watched x ∧ (Spares x [a] →
      guardBytes w'.state.heap.memory x = guardBytes w.state.heap.memory x) := by
  have hsound := userStep_sound h.sound horderly hstep
  cases a with
  | call action =>
    obtain ⟨hlive, hconfig, hkeep⟩ := step_keeps h.sound horderly h.live
      (fun heq => hfree (by rw [heq])) hstep
    have hbytes : ∀ address, x.header ≤ address →
        address < x.ptr ∨ x.ptr + x.size ≤ address → address < x.ptr + x.size + kGuardSize →
        w'.state.heap.memory address = w.state.heap.memory address := by
      intro address hlow hoff hhigh
      have hptr : x.ptr = x.header + sizeofSlabHeader := rfl
      refine hkeep address ⟨hlow, ?_⟩ fun huser => ?_
      · simp only [extent, h.guards, if_true]
        omega
      · simp only [Extent.Contains] at huser
        omega
    refine ⟨⟨hsound, hlive, hconfig ▸ h.guards, ?_⟩, fun _ => ?_⟩
    · rw [← h.flags]
      refine Mem.loadLE_congr fun address hlow hhigh => hbytes address (by omega) (.inl ?_) ?_ <;>
        simp only [ptr, userFromHeader, sizeofSlabHeader] <;> omega
    · refine Mem.read_congr fun address hlow hhigh => hbytes address ?_ (.inr hlow) hhigh
      have hptr : x.header ≤ x.ptr := Nat.le_add_right _ _
      omega
  | overrun address byte =>
    obtain ⟨hbyte, hs⟩ := Option.ite_none_left_eq_some.mp hstep
    cases hs
    have hout := Mem.SameOutside.writeByte w.state.heap.memory address byte
    refine ⟨⟨hsound, h.live, h.guards, ?_⟩, fun hspares => ?_⟩
    · rw [← h.flags]
      apply SlabHeader.flags_keep hout
      exact Extent.disjoint_byte fun hin => hbyte (.inr ⟨x, h.live, hin⟩)
    · exact hout.read_eq (Extent.disjoint_byte (hspares address byte (by simp)))

theorem run (h : w.Watched x) {actions : List UserAction}
    (hmeets : Meets userStep Orderly w actions) (hfree : .call (.free x.ptr) ∉ actions)
    (hrun : runs userStep w actions = some w') :
    w'.Watched x ∧ (Spares x actions →
      guardBytes w'.state.heap.memory x = guardBytes w.state.heap.memory x) := by
  induction actions generalizing w with
  | nil =>
    cases hrun
    exact ⟨h, fun _ => rfl⟩
  | cons a rest ih =>
    obtain ⟨mid, hmid, hrest⟩ := runs_cons_some.mp hrun
    obtain ⟨hwatched, hkeep⟩ := h.step hmeets.1 (fun heq => hfree (by simp [heq])) hmid
    obtain ⟨hwatched', hkeep'⟩ := ih hwatched (hmeets.2 mid hmid)
      (fun hmem => hfree (List.mem_cons_of_mem _ hmem)) hrest
    refine ⟨hwatched', fun hspares => ?_⟩
    rw [hkeep' fun address byte hmem => hspares address byte (List.mem_cons_of_mem _ hmem),
      hkeep fun address byte hmem => hspares address byte (by simp_all)]

end Watched

/-- From here to the `Free`, whatever is written: the check passes exactly when
the guard is as it is now, and it passes if nobody writes into the guard. -/
def GuardAgrees (w : PoolWorld) (x : Allocation) : Prop :=
  ∀ after w', Meets userStep Orderly w after → .call (.free x.ptr) ∉ after →
    runs userStep w after = some w' →
    ∃ found, w'.state.freeCheck x.ptr = some found ∧
      (found = true ↔
        guardBytes w'.state.heap.memory x = guardBytes w.state.heap.memory x) ∧
      (Spares x after → found = true)

theorem Watched.agrees_iff (h : w.Watched x) : w.GuardAgrees x ↔
    guardBytes w.state.heap.memory x = List.replicate kGuardSize kGuardPattern := by
  constructor
  · intro hagrees
    obtain ⟨found, hcheck, hiff, -⟩ := hagrees [] w trivial (by simp) rfl
    rw [h.freeCheck] at hcheck
    obtain rfl := Option.some.inj hcheck
    exact (validateGuard_iff _ x).mp (hiff.mpr rfl)
  · intro hwhole after w' hmeets hfree hrun
    obtain ⟨hwatched, hkeep⟩ := h.run hmeets hfree hrun
    have hiff := validateGuard_iff w'.state.heap.memory x
    refine ⟨_, hwatched.freeCheck, ?_, fun hspares => ?_⟩
    · rw [hiff, hwhole]
    · rw [hiff, hkeep hspares, hwhole]

theorem runs_userSound {parentStats : Option AtomicStats} {actions : List UserAction}
    (hmeets : Meets userStep Orderly (start parentStats) actions)
    (hrun : runs userStep (start parentStats) actions = some w) : w.Sound :=
  runs_invariant_of_meets (fun _ _ _ h horderly hstep => userStep_sound h horderly hstep)
    (start_sound parentStats) hmeets hrun

theorem watched_of_alloc (h : w.Sound) (hguards : w.state.pool.config.enableGuardBytes = true)
    {size alignment : Nat} (hsize : sizeofSlabHeader + size + kGuardSize < 2 ^ 64)
    {answer : Answer} {ptr : Nat} {state : PoolState}
    (hcall : w.state.allocAligned size alignment answer = some (some ptr, state)) :
    Watched ⟨headerFromUser ptr, size⟩ ⟨state, ⟨headerFromUser ptr, size⟩ :: w.live⟩ ∧
      (guardBytes state.heap.memory ⟨headerFromUser ptr, size⟩ =
          List.replicate kGuardSize kGuardPattern ↔ w.state.GuardComplete size answer) := by
  have hsound : PoolWorld.Sound ⟨state, ⟨headerFromUser ptr, size⟩ :: w.live⟩ :=
    step_sound h (a := .allocAligned size alignment answer) ⟨hsize, nofun⟩
      (by simp only [PoolWorld.step, hcall, Option.map_some])
  rcases PoolState.allocAligned_cases hcall with
    ⟨hnone, -⟩ | ⟨hdr, mid, -, hobtains, hptr, rfl, horigin⟩
  · cases hnone
  obtain rfl := Option.some.inj hptr
  have hheader : headerFromUser (userFromHeader hdr) = hdr := Nat.add_sub_cancel _ _
  rw [hheader] at hsound ⊢
  obtain ⟨mem, hmem, hflags, -⟩ := hobtains.guarded hguards
  refine ⟨⟨hsound, List.mem_cons_self, ?_, ?_⟩, hobtains.guardBytes_iff hguards fun hc => ?_⟩
  · exact hobtains.recorded.config ▸ hguards
  · -- the guard lies behind the header
    change SlabHeader.flags mid.heap.memory hdr = 1
    rw [hmem, ← hflags]
    refine SlabHeader.flags_keep (Mem.SameOutside.fill _ (Extent.Within.refl _) _) (.inl ?_)
    exact Nat.le_add_right _ _
  · rcases horigin with ⟨hlt, -⟩ | hraw
    · exact absurd hlt (Nat.not_lt.mpr hc)
    · exact hraw

end PoolWorld

/-- After any history, the guard of a new allocation is checked for what it is
if and only if the allocation left a whole guard. -/
theorem guard_check_agrees_iff {parentStats : Option AtomicStats} {before : List UserAction}
    {w : PoolWorld}
    (hmeets : Meets PoolWorld.userStep PoolWorld.Orderly (PoolWorld.start parentStats) before)
    (hrun : runs PoolWorld.userStep (PoolWorld.start parentStats) before = some w)
    (hguards : w.state.pool.config.enableGuardBytes = true) {size alignment : Nat}
    (hsize : sizeofSlabHeader + size + kGuardSize < 2 ^ 64) {answer : Answer} {ptr : Nat}
    {state : PoolState}
    (hcall : w.state.allocAligned size alignment answer = some (some ptr, state)) :
    PoolWorld.GuardAgrees ⟨state, ⟨headerFromUser ptr, size⟩ :: w.live⟩
        ⟨headerFromUser ptr, size⟩ ↔ w.state.GuardComplete size answer := by
  obtain ⟨hwatched, hwhole⟩ :=
    PoolWorld.watched_of_alloc (PoolWorld.runs_userSound hmeets hrun) hguards hsize hcall
  exact hwatched.agrees_iff.trans hwhole

/-- 20 bytes in a slab for 32 leave room for the whole guard. -/
theorem guard_check_agrees_slack :
    ∃ w state, runs PoolWorld.userStep (PoolWorld.start none)
        [.call (.init { blockSize := 64, enableGuardBytes := true })] = some w ∧
      w.state.allocAligned 20 8 ⟨some 4096, 100⟩ = some (some 4120, state) ∧
      PoolWorld.GuardAgrees ⟨state, [⟨4096, 20⟩]⟩ ⟨4096, 20⟩ := by
  obtain ⟨w, hrun, hcall⟩ := Option.map_eq_some_iff.mp
    (show (runs PoolWorld.userStep (PoolWorld.start none)
        [.call (.init { blockSize := 64, enableGuardBytes := true })]).map (fun w =>
          ((w.state.allocAligned 20 8 ⟨some 4096, 100⟩).map Prod.fst, w.live,
            w.state.pool.config.enableGuardBytes)) =
        some (some (some 4120), [], true) by decide +kernel)
  obtain ⟨hfirst, hrest⟩ := Prod.mk.inj hcall
  obtain ⟨hlive, hguards⟩ := Prod.mk.inj hrest
  obtain ⟨⟨ptr, state⟩, hstate, hptr⟩ := Option.map_eq_some_iff.mp hfirst
  obtain rfl : ptr = some 4120 := hptr
  have hmeets : Meets PoolWorld.userStep PoolWorld.Orderly (PoolWorld.start none)
      [.call (.init { blockSize := 64, enableGuardBytes := true })] :=
    ⟨⟨trivial, nofun⟩, fun _ _ => trivial⟩
  have hagrees := (guard_check_agrees_iff hmeets hrun hguards (by decide) hstate).mpr
    (.inl (by decide))
  rw [hlive] at hagrees
  exact ⟨w, state, hrun, hstate, hagrees⟩

/-- Nobody has written anything, and both checks fail: 8 bytes fill their class,
and a large allocation gets no guard at all. -/
theorem untouched_guards_fail :
    ∃ w, runs PoolWorld.userStep (PoolWorld.start none)
        [.call (.init { blockSize := 40, enableGuardBytes := true }),
          .call (.allocAligned 8 8 ⟨some 4096, 100⟩),
          .call (.allocAligned 5000 8 ⟨some 8192, 0⟩)] = some w ∧
      w.state.freeCheck 4120 = some false ∧ w.state.freeCheck 8216 = some false := by
  obtain ⟨w, hrun, hchecks⟩ := Option.map_eq_some_iff.mp
    (show (runs PoolWorld.userStep (PoolWorld.start none)
        [.call (.init { blockSize := 40, enableGuardBytes := true }),
          .call (.allocAligned 8 8 ⟨some 4096, 100⟩),
          .call (.allocAligned 5000 8 ⟨some 8192, 0⟩)]).map
          (fun w => (w.state.freeCheck 4120, w.state.freeCheck 8216)) =
        some (some false, some false) by decide +kernel)
  exact ⟨w, hrun, Prod.mk.inj hchecks⟩

end Corekit.Memory
