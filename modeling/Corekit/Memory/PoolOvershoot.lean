import Corekit.Foundation.Admission
import Corekit.Memory.PoolThreadSafety

/-! The limit of a pool that threads share. `AllocAligned` compares with the bytes
in use and adds its own later, so threads that pass the comparison together go
over the limit together. `Free` gives the memory back first and subtracts later. -/
namespace Corekit.Memory
open Corekit.Foundation Allocation

namespace PoolPc

/-- The bytes that have passed the comparison and are not in `bytes_in_use`. -/
def promised : PoolPc → Nat
  | .taking size _ => size
  | .listing x | .counting x | .adding x => x.size
  | _ => 0

/-- The bytes that `bytes_in_use` has on behalf of this call. -/
def counted : PoolPc → Nat
  | .loadingPeak x _ | .raisingPeak x _ _ | .addingParent x | .releasing x => x.size
  | .countingFree size | .loadingInUse size | .lowering size _ => size
  | _ => 0

def raises : PoolPc → Option Nat
  | .loadingPeak _ inUse => some inUse
  | .raisingPeak _ inUse peak => if peak < inUse then some inUse else none
  | _ => none

/-- What is asked for is at most `bound`, and what may become the peak at most `top`. -/
def Fits (bound top : Nat) : PoolPc → Prop
  | .checking size _ => size ≤ bound
  | .loadingPeak _ inUse | .raisingPeak _ inUse _ => inUse ≤ top
  | _ => True

theorem raises_or_le (x : Allocation) (inUse peak : Nat) :
    inUse ∈ (raisingPeak x inUse peak).raises ∨ inUse ≤ peak := by
  simp only [raises, Option.mem_def, Option.ite_none_right_eq_some, and_true]
  exact Nat.lt_or_ge peak inUse

end PoolPc

def PoolLabel.AtMost (bound : Nat) : PoolLabel → Prop
  | .call _ (.allocAligned size _) => size ≤ bound
  | _ => True

instance (bound : Nat) : DecidablePred (PoolLabel.AtMost bound)
  | .call _ (.allocAligned size _) => inferInstanceAs (Decidable (size ≤ bound))
  | .call _ (.free _) | .step .. | .shrink _ | .store .. | .parent _ =>
    inferInstanceAs (Decidable True)

namespace PoolThreads

variable {w w' : PoolThreads} {bound top i : Nat} {old new : PoolPc} {x : Allocation}

def limit (w : PoolThreads) : Nat := w.state.pool.config.maxBytes.toNat

def bytesInUse (w : PoolThreads) : Nat := w.state.pool.stats.bytesInUse

def bytesPeak (w : PoolThreads) : Nat := w.state.pool.stats.bytesPeak

def liveBytes (w : PoolThreads) : Nat := (w.live.map Allocation.size).sum

/-- The peak is at least the bytes in use, or a call will raise it. -/
def PeakCovered (w : PoolThreads) : Prop :=
  w.bytesInUse ≤ w.bytesPeak ∨
    ∃ pc ∈ w.threads, ∃ value ∈ pc.raises, w.bytesInUse ≤ value

structure Limited (bound top : Nat) (w : PoolThreads) : Prop where
  limited : 0 < w.limit
  top_eq : w.threads.length * w.limit = top
  small : top + bound < 2 ^ 64
  fits : ∀ (i : Nat) pc, w.threads[i]? = some pc → pc.Fits bound top
  bytes : w.bytesInUse = w.liveBytes + (w.threads.map PoolPc.counted).sum
  admission : Admission.Bounded w.limit w.bytesInUse (w.threads.map PoolPc.promised)
  ceiling : w.bytesPeak ≤ top
  peak : w.PeakCovered

/-- The rule for the peak, when the counter does not grow and the peak does not fall. -/
theorem PeakCovered.move (h : w.PeakCovered) (hold : w.threads[i]? = some old)
    (hthreads : w'.threads = w.threads.set i new) (hbytes : w'.bytesInUse ≤ w.bytesInUse)
    (hpeak : w.bytesPeak ≤ w'.bytesPeak)
    (hraises : ∀ value ∈ old.raises, value ∈ new.raises ∨ value ≤ w'.bytesPeak) :
    w'.PeakCovered := by
  have hi : i < w.threads.length := (List.getElem?_eq_some_iff.mp hold).1
  rcases h with hle | ⟨pc, hpc, value, hvalue, hle⟩
  · exact .inl (hbytes.trans (hle.trans hpeak))
  · obtain ⟨j, hj⟩ := List.mem_iff_getElem?.mp hpc
    by_cases hij : i = j
    · subst hij
      cases hold.symm.trans hj
      rcases hraises value hvalue with hnew | hcovered
      · exact .inr ⟨new, hthreads ▸ List.mem_set hi new, value, hnew, hbytes.trans hle⟩
      · exact .inl (hbytes.trans (hle.trans hcovered))
    · refine .inr ⟨pc, ?_, value, hvalue, hbytes.trans hle⟩
      rw [hthreads]
      exact List.mem_of_getElem? ((List.getElem?_set_ne hij).trans hj)

namespace Limited

theorem move (h : w.Limited bound top) (hold : w.threads[i]? = some old)
    (hthreads : w'.threads = w.threads.set i new)
    (hconfig : w'.state.pool.config = w.state.pool.config)
    (hfits : new.Fits bound top)
    (hbytes : w'.bytesInUse + (w.liveBytes + old.counted) =
      w.bytesInUse + (w'.liveBytes + new.counted))
    (hadmission : Admission.Bounded w.limit w'.bytesInUse
      ((w.threads.map PoolPc.promised).set i new.promised))
    (hceiling : w'.bytesPeak ≤ top) (hpeak : w'.PeakCovered) :
    w'.Limited bound top := by
  have hlimit : w'.limit = w.limit := congrArg (fun config => config.maxBytes.toNat) hconfig
  have hlength : w'.threads.length = w.threads.length := by rw [hthreads, List.length_set]
  have hat : (w.threads.map PoolPc.counted)[i]? = some old.counted := by
    rw [List.getElem?_map, hold]
    rfl
  have hcounted := Admission.sum_set hat new.counted
  refine ⟨hlimit ▸ h.limited, by rw [hlength, hlimit, h.top_eq], h.small,
    hthreads ▸ forall_slots_set h.fits hfits, ?_, ?_, hceiling, hpeak⟩
  · have hold' := h.bytes
    rw [hthreads, List.map_set]
    omega
  · rw [hlimit, hthreads, List.map_set]
    exact hadmission

theorem promised_at (hold : w.threads[i]? = some old) :
    (w.threads.map PoolPc.promised)[i]? = some old.promised := by
  rw [List.getElem?_map, hold]
  rfl

theorem quiet (h : w.Limited bound top) (hold : w.threads[i]? = some old)
    (hthreads : w'.threads = w.threads.set i new)
    (hconfig : w'.state.pool.config = w.state.pool.config)
    (hfits : new.Fits bound top)
    (hinUse : w'.bytesInUse = w.bytesInUse) (hpeak : w'.bytesPeak = w.bytesPeak)
    (hlive : w'.liveBytes + new.counted = w.liveBytes + old.counted)
    (hpromised : new.promised ≤ old.promised)
    (hraises : ∀ value ∈ old.raises, value ∈ new.raises ∨ value ≤ w.bytesPeak) :
    w'.Limited bound top := by
  refine h.move hold hthreads hconfig hfits (by omega) ?_ (hpeak ▸ h.ceiling) ?_
  · exact h.admission.settle (promised_at hold) hpromised (by omega)
  · exact h.peak.move hold hthreads hinUse.le hpeak.ge (hpeak ▸ hraises)

theorem passes (h : w.Limited bound top) {size alignment : Nat}
    (hold : w.threads[i]? = some (.checking size alignment))
    (hpass : ¬w.limit < (w.bytesInUse + size) % 2 ^ 64) :
    (w.goto i (.taking size alignment)).Limited bound top := by
  have hsize : size ≤ bound := h.fits i _ hold
  have htaken := h.admission.taken_le
  rw [List.length_map, h.top_eq] at htaken
  have hsmall := h.small
  rw [Nat.mod_eq_of_lt (by omega)] at hpass
  refine h.move hold rfl rfl trivial rfl ?_ h.ceiling ?_
  · exact h.admission.admit (promised_at hold) (Nat.not_lt.mp hpass)
  · exact h.peak.move hold rfl le_rfl le_rfl (by simp [PoolPc.raises])

theorem taking (h : w.Limited bound top) {size alignment : Nat} {answer : Answer} {spurious : Bool}
    (hold : w.threads[i]? = some (.taking size alignment))
    (hstep : w.advance i answer spurious (.taking size alignment) = some w') :
    w'.Limited bound top := by
  have htaken {hdr : Nat} {mid : PoolState} {pc : PoolPc} (hobtains : w.state.Obtains size hdr mid)
      (hfits : pc.Fits bound top) (hcounted : pc.counted = 0)
      (hpromised : pc.promised = size) : ({ w with state := mid }.goto i pc).Limited bound top := by
    obtain ⟨hconfig, -, -, -, hinUse, hpeak, -⟩ := hobtains.frame
    refine h.quiet hold rfl hconfig hfits hinUse hpeak ?_ hpromised.le (by simp [PoolPc.raises])
    rw [hcounted]
    rfl
  simp only [advance] at hstep
  split at hstep
  · next hc =>
    obtain ⟨⟨result, state⟩, hcall, hnext⟩ := Option.map_eq_some_iff.mp hstep
    rcases PoolState.allocFromSlab_cases hc hcall with ⟨rfl, rfl, -⟩ | ⟨hdr, rfl, hobtains, -⟩
    · cases hnext
      exact h.quiet hold rfl rfl trivial rfl rfl rfl (Nat.zero_le _) (by simp [PoolPc.raises])
    · cases hnext
      exact htaken hobtains trivial rfl rfl
  · next hc =>
    obtain ⟨⟨result, state⟩, hcall, hnext⟩ := Option.map_eq_some_iff.mp hstep
    rcases PoolState.Keeps.takeLarge_cases (Nat.not_lt.mp hc) hcall with
      ⟨rfl, rfl⟩ | ⟨raw, rfl, hobtains⟩
    · cases hnext
      exact h.quiet hold rfl rfl trivial rfl rfl rfl (Nat.zero_le _) (by simp [PoolPc.raises])
    · cases hnext
      obtain ⟨hconfig, -, -, -, hinUse, hpeak, -⟩ := hobtains.frame
      exact h.quiet hold rfl hconfig trivial hinUse hpeak rfl le_rfl (by simp [PoolPc.raises])

theorem adding (h : w.Limited bound top) (hold : w.threads[i]? = some (.adding x)) :
    ((w.withStats (w.state.pool.stats.addInUse x.size)).goto i
      (.loadingPeak x (w.state.pool.stats.addInUse x.size).bytesInUse)).Limited bound top := by
  have hroom : w.bytesInUse + x.size ≤ top := by
    have hle := h.admission.add_le (List.mem_of_getElem? (promised_at hold))
    rwa [List.length_map, h.top_eq] at hle
  have hsmall := h.small
  have hadd : (w.state.pool.stats.addInUse x.size).bytesInUse = w.bytesInUse + x.size :=
    Nat.mod_eq_of_lt (by change w.bytesInUse + x.size < 2 ^ 64; omega)
  have hi : i < w.threads.length := (List.getElem?_eq_some_iff.mp hold).1
  refine h.move hold rfl rfl (hadd.le.trans hroom) ?_ ?_ h.ceiling ?_
  · change (w.state.pool.stats.addInUse x.size).bytesInUse + (w.liveBytes + 0) =
      w.bytesInUse + (w.liveBytes + x.size)
    omega
  · exact h.admission.settle (promised_at hold) (Nat.zero_le _) hadd.le
  · exact .inr ⟨_, List.mem_set hi _, _, rfl, le_rfl⟩

theorem recorded (h : w.Limited bound top) {inUse peak : Nat} {stats : AtomicStats}
    (hold : w.threads[i]? = some (.raisingPeak x inUse peak))
    (hinUse : stats.bytesInUse = w.bytesInUse) (hpeak : w.bytesPeak ≤ stats.bytesPeak)
    (htop : stats.bytesPeak ≤ top)
    (hraised : peak < inUse → inUse ≤ stats.bytesPeak) :
    ((w.withStats stats).recorded i x).Limited bound top := by
  have hraises : ∀ value ∈ (PoolPc.raisingPeak x inUse peak).raises, value ≤ stats.bytesPeak := by
    intro value hvalue
    simp only [PoolPc.raises, Option.mem_def, Option.ite_none_right_eq_some,
      Option.some.injEq] at hvalue
    exact hvalue.2 ▸ hraised hvalue.1
  unfold PoolThreads.recorded
  split
  · refine h.move hold rfl rfl trivial ?_ ?_ htop ?_
    · change stats.bytesInUse + _ = w.bytesInUse + _
      rw [hinUse]
      rfl
    · exact h.admission.settle (promised_at hold) le_rfl (Nat.add_le_add_right hinUse.le _)
    · exact h.peak.move hold rfl hinUse.le hpeak fun value hvalue => .inr (hraises value hvalue)
  · refine h.move hold rfl rfl trivial ?_ ?_ htop ?_
    · change stats.bytesInUse + (w.liveBytes + x.size) =
        w.bytesInUse + (((x :: w.live).map Allocation.size).sum + 0)
      rw [hinUse, List.map_cons, List.sum_cons, liveBytes]
      omega
    · exact h.admission.settle (promised_at hold) le_rfl (Nat.add_le_add_right hinUse.le _)
    · exact h.peak.move hold rfl hinUse.le hpeak fun value hvalue => .inr (hraises value hvalue)

/-- What a `Free` is about to subtract is still in the counter. -/
theorem lowering_le (h : w.Limited bound top) {size cur : Nat}
    (hmem : PoolPc.lowering size cur ∈ w.threads) : size ≤ w.bytesInUse := by
  have hcounted : size ∈ w.threads.map PoolPc.counted := List.mem_map.mpr ⟨_, hmem, rfl⟩
  rw [h.bytes]
  exact (List.single_le_sum (by simp) _ hcounted).trans (Nat.le_add_left _ _)

theorem lowering (h : w.Limited bound top) {size : Nat} {pc : PoolPc}
    (hold : w.threads[i]? = some (.lowering size w.bytesInUse)) (hcounted : pc.counted = 0)
    (hpromised : pc.promised = 0) (hfits : pc.Fits bound top) :
    ((w.withStats (w.state.pool.stats.subInUse size)).goto i pc).Limited bound top := by
  have hle := h.lowering_le (List.mem_of_getElem? hold)
  have hsub : (w.state.pool.stats.subInUse size).bytesInUse = w.bytesInUse - size := by
    change (if w.bytesInUse > size then w.bytesInUse - size else 0) = _
    split <;> omega
  refine h.move hold rfl rfl hfits ?_ ?_ h.ceiling ?_
  · change (w.state.pool.stats.subInUse size).bytesInUse + (w.liveBytes + size) =
      w.bytesInUse + (w.liveBytes + pc.counted)
    omega
  · refine h.admission.settle (promised_at hold) (hpromised.le.trans (Nat.zero_le _)) ?_
    change (w.state.pool.stats.subInUse size).bytesInUse + _ ≤ _
    omega
  · refine h.peak.move hold rfl ?_ le_rfl (by simp [PoolPc.raises])
    exact hsub.le.trans (Nat.sub_le _ _)

theorem releasing (h : w.Limited bound top) (hshared : w.Shared) {answer : Answer} {spurious : Bool}
    (hold : w.threads[i]? = some (.releasing x))
    (hstep : w.advance i answer spurious (.releasing x) = some w') : w'.Limited bound top := by
  have hx : x ∈ (w.allocations : Multiset Allocation) := by
    rw [allocations_perm (threads_perm hold)]
    exact Multiset.mem_add.mpr (.inl (Multiset.mem_singleton_self x))
  obtain ⟨hmagic, -, hsize⟩ := hshared.keeps.header hx
  have hheader : headerFromUser x.ptr = x.header := Nat.add_sub_cancel _ _
  simp only [advance, hheader, hmagic, hsize, ne_eq, not_true_eq_false, if_false] at hstep
  cases hstep
  split
  · exact h.quiet hold rfl rfl trivial rfl rfl rfl le_rfl (by simp [PoolPc.raises])
  · obtain ⟨hconfig, -, hstats, -⟩ := w.state.freeToSlab_frame x.header
    exact h.quiet hold rfl hconfig trivial (congrArg AtomicStats.bytesInUse hstats)
      (congrArg AtomicStats.bytesPeak hstats) rfl le_rfl (by simp [PoolPc.raises])

theorem enter (h : w.Limited bound top) {call : PoolCall} (hbound : (PoolLabel.call i call).AtMost bound)
    (hold : w.threads[i]? = some .idle) (hstep : w.enter i call = some w') : w'.Limited bound top := by
  cases call with
  | allocAligned size alignment =>
    simp only [PoolThreads.enter] at hstep
    split_ifs at hstep with hrefused hlimit
    · cases hstep
      exact h
    · cases hstep
      exact h.quiet hold rfl rfl hbound rfl rfl rfl le_rfl (by simp [PoolPc.raises])
    · exact absurd h.limited hlimit
  | free ptr =>
    simp only [PoolThreads.enter] at hstep
    split_ifs at hstep with hnull
    · cases hstep
      exact h
    · obtain ⟨x, hfind, hnext⟩ := Option.map_eq_some_iff.mp hstep
      cases hnext
      have hperm := List.perm_cons_erase (List.mem_of_find?_eq_some hfind)
      have hsum := (hperm.map Allocation.size).sum_eq
      rw [List.map_cons, List.sum_cons] at hsum
      refine h.quiet hold rfl rfl trivial rfl rfl ?_ le_rfl (by simp [PoolPc.raises])
      change ((w.live.erase x).map Allocation.size).sum + x.size = (w.live.map _).sum + 0
      omega

theorem advance (h : w.Limited bound top) (hshared : w.Shared) {answer : Answer} {spurious : Bool}
    {pc : PoolPc} (hold : w.threads[i]? = some pc)
    (hstep : w.advance i answer spurious pc = some w') : w'.Limited bound top := by
  have hfits := h.fits i _ hold
  cases pc with
  | idle => cases hstep
  | checking size alignment =>
    simp only [PoolThreads.advance] at hstep
    split_ifs at hstep with hover
    · cases hstep
      exact h.quiet hold rfl rfl trivial rfl rfl rfl le_rfl (by simp [PoolPc.raises])
    · cases hstep
      exact h.passes hold hover
  | taking size alignment => exact h.taking hold hstep
  | adding x =>
    cases hstep
    exact h.adding hold
  | loadingPeak x inUse =>
    cases hstep
    refine h.quiet hold rfl rfl hfits rfl rfl rfl le_rfl fun value hvalue => ?_
    cases Option.some.inj hvalue
    exact PoolPc.raises_or_le _ _ _
  | raisingPeak x inUse peak =>
    simp only [PoolThreads.advance] at hstep
    split_ifs at hstep with hlarger hsame
    · cases hstep
      exact h.recorded hold rfl (hsame.1.le.trans hlarger.le) hfits fun _ => le_rfl
    · cases hstep
      refine h.quiet hold rfl rfl hfits rfl rfl rfl le_rfl fun value hvalue => ?_
      have hvalue : value = inUse := by simpa [PoolPc.raises, hlarger, eq_comm] using hvalue
      subst hvalue
      exact PoolPc.raises_or_le _ _ _
    · cases hstep
      have hsame : w.bytesPeak ≤ w.state.pool.stats.bytesPeak := le_rfl
      exact h.recorded hold rfl hsame h.ceiling fun hless => absurd hless hlarger
  | addingParent x =>
    cases hstep
    refine h.quiet hold rfl rfl trivial rfl rfl ?_ le_rfl (by simp [PoolPc.raises])
    change ((x :: w.live).map Allocation.size).sum + 0 = (w.live.map Allocation.size).sum + x.size
    rw [List.map_cons, List.sum_cons]
    omega
  | releasing x => exact h.releasing hshared hold hstep
  | lowering size cur =>
    simp only [PoolThreads.advance] at hstep
    split_ifs at hstep with hsame hparent
    · cases hstep
      obtain ⟨rfl, -⟩ := hsame
      exact h.lowering hold rfl rfl trivial
    · cases hstep
      obtain ⟨rfl, -⟩ := hsame
      exact h.lowering hold rfl rfl trivial
    · cases hstep
      exact h.quiet hold rfl rfl trivial rfl rfl rfl le_rfl (by simp [PoolPc.raises])
  | loadingParent size =>
    obtain ⟨stats, -, rfl⟩ := Option.map_eq_some_iff.mp hstep
    exact h.quiet hold rfl rfl trivial rfl rfl rfl le_rfl (by simp [PoolPc.raises])
  | loweringParent size pcur =>
    obtain ⟨stats, -, hnext⟩ := Option.map_eq_some_iff.mp hstep
    split_ifs at hnext <;>
    · cases hnext
      exact h.quiet hold rfl rfl trivial rfl rfl rfl le_rfl (by simp [PoolPc.raises])
  | listing x | counting x | countingFree size | loadingInUse size =>
    cases hstep
    exact h.quiet hold rfl rfl trivial rfl rfl rfl le_rfl (by simp [PoolPc.raises])

theorem of_frame (h : w.Limited bound top) (hthreads : w'.threads = w.threads) (hlive : w'.live = w.live)
    (hconfig : w'.state.pool.config = w.state.pool.config)
    (hstats : w'.state.pool.stats = w.state.pool.stats) : w'.Limited bound top := by
  obtain ⟨state, live, threads⟩ := w'
  cases hthreads
  cases hlive
  have hlimit : limit ⟨state, w.live, w.threads⟩ = w.limit :=
    congrArg (fun config => config.maxBytes.toNat) hconfig
  have hinUse : bytesInUse ⟨state, w.live, w.threads⟩ = w.bytesInUse :=
    congrArg AtomicStats.bytesInUse hstats
  have hpeak : bytesPeak ⟨state, w.live, w.threads⟩ = w.bytesPeak :=
    congrArg AtomicStats.bytesPeak hstats
  refine ⟨hlimit ▸ h.limited, hlimit ▸ h.top_eq, h.small, h.fits, hinUse ▸ h.bytes, ?_,
    hpeak.le.trans h.ceiling, ?_⟩
  · rw [hlimit, hinUse]
    exact h.admission
  · unfold PeakCovered
    rw [hinUse, hpeak]
    exact h.peak

theorem step (h : w.Limited bound top) (hshared : w.Shared) {label : PoolLabel}
    (hbound : label.AtMost bound) (hstep : w.step label = some w') : w'.Limited bound top := by
  cases label with
  | call thread call =>
    simp only [PoolThreads.step, Option.ite_none_right_eq_some] at hstep
    exact h.enter hbound hstep.1 hstep.2
  | step thread answer spurious =>
    obtain ⟨pc, hpc, hadvance⟩ := Option.bind_eq_some_iff.mp hstep
    exact h.advance hshared hpc hadvance
  | shrink addresses =>
    obtain ⟨state, hcall, hnext⟩ := Option.map_eq_some_iff.mp hstep
    cases hnext
    obtain ⟨hconfig, -, hstats⟩ := PoolState.shrinkFrom_frame hcall
    exact h.of_frame rfl rfl hconfig hstats
  | store address byte =>
    simp only [PoolThreads.step] at hstep
    split_ifs at hstep
    cases hstep
    exact h.of_frame rfl rfl rfl rfl
  | parent stats =>
    cases hstep
    exact h.of_frame rfl rfl rfl rfl

theorem start {config : PoolConfig} {parentStats : Option AtomicStats} {count : Nat}
    (hlimit : 0 < config.maxBytes.toNat)
    (hbound : count * config.maxBytes.toNat + bound < 2 ^ 64) :
    (PoolThreads.start config parentStats count).Limited bound
      (count * config.maxBytes.toNat) where
  limited := hlimit
  top_eq := congrArg (· * config.maxBytes.toNat) List.length_replicate
  small := hbound
  fits := by
    intro i pc hpc
    cases List.eq_of_mem_replicate (List.mem_of_getElem? hpc)
    trivial
  bytes := by
    change 0 = 0 + ((List.replicate count PoolPc.idle).map PoolPc.counted).sum
    rw [List.map_replicate, List.sum_replicate, Nat.zero_add]
    exact (Nat.mul_zero count).symm
  admission := by
    change Admission.Bounded _ 0 ((List.replicate count PoolPc.idle).map PoolPc.promised)
    rw [List.map_replicate]
    exact .start _ count
  ceiling := Nat.zero_le _
  peak := .inl le_rfl

theorem of_run {config : PoolConfig} {parentStats : Option AtomicStats} {count : Nat}
    {labels : List PoolLabel} (hlimit : 0 < config.maxBytes.toNat)
    (hbound : count * config.maxBytes.toNat + bound < 2 ^ 64)
    (hmeets : Meets PoolThreads.step (fun w label => w.Orderly label ∧ label.AtMost bound)
      (.start config parentStats count) labels)
    (hrun : runs PoolThreads.step (.start config parentStats count) labels = some w) :
    w.Limited bound (count * config.maxBytes.toNat) := by
  have hstep (w : PoolThreads) (label : PoolLabel) (w' : PoolThreads)
      (h : w.Shared ∧ w.Limited bound (count * config.maxBytes.toNat))
      (hlabel : w.Orderly label ∧ label.AtMost bound) (hstep : w.step label = some w') :
      w'.Shared ∧ w'.Limited bound (count * config.maxBytes.toNat) :=
    ⟨h.1.step hlabel.1 hstep, h.2.step h.1 hlabel.2 hstep⟩
  exact (runs_invariant_of_meets hstep ⟨.start config parentStats count, .start hlimit hbound⟩
    hmeets hrun).2

end Limited

end PoolThreads

/-- Any number of threads that share a pool with a limit, whose requests are small
enough for the comparison not to wrap. The bytes in use are never above the limits
of all threads together, and callers hold no more than that; with one thread this
is the limit itself. The loop of `Free` subtracts what it has to and never stops at
zero before. While no call is in progress the bytes in use are exactly what callers
hold, and the peak is not below them. -/
theorem limit_overshoot_is_bounded (config : PoolConfig) (parentStats : Option AtomicStats)
    (count bound : Nat) (labels : List PoolLabel) (hlimit : 0 < config.maxBytes.toNat)
    (hbound : count * config.maxBytes.toNat + bound < 2 ^ 64)
    (hmeets : Meets PoolThreads.step (fun w label => w.Orderly label ∧ label.AtMost bound)
      (.start config parentStats count) labels)
    (w : PoolThreads)
    (hrun : runs PoolThreads.step (.start config parentStats count) labels = some w) :
    w.liveBytes ≤ w.bytesInUse ∧ w.bytesInUse ≤ count * config.maxBytes.toNat ∧
    w.bytesPeak ≤ count * config.maxBytes.toNat ∧
    (∀ size cur, PoolPc.lowering size cur ∈ w.threads → size ≤ w.bytesInUse) ∧
    (w.Quiescent → w.bytesInUse = w.liveBytes ∧ w.liveBytes ≤ w.bytesPeak) := by
  have h := PoolThreads.Limited.of_run hlimit hbound hmeets hrun
  have htaken := h.admission.taken_le
  rw [List.length_map, h.top_eq] at htaken
  refine ⟨h.bytes ▸ Nat.le_add_right _ _, htaken, h.ceiling, fun _ _ => h.lowering_le,
    fun hquiescent => ?_⟩
  have hcounted : (w.threads.map PoolPc.counted).sum = 0 := by
    refine List.sum_eq_zero fun bytes hmem => ?_
    obtain ⟨pc, hpc, rfl⟩ := List.mem_map.mp hmem
    rw [hquiescent pc hpc]
    rfl
  have hexact : w.bytesInUse = w.liveBytes := by rw [h.bytes, hcounted, Nat.add_zero]
  refine ⟨hexact, hexact ▸ ?_⟩
  rcases h.peak with hle | ⟨pc, hpc, value, hvalue, -⟩
  · exact hle
  · rw [hquiescent pc hpc] at hvalue
    cases hvalue

/-- Two threads pass a limit of 8 bytes together and both get their 8 bytes. -/
theorem limit_overshoot_is_bounded_two :
    ∃ w, runs PoolThreads.step (.start { blockSize := 64, maxBytes := 8 } none 2)
        [.call 0 (.allocAligned 8 8), .call 1 (.allocAligned 8 8), .step 0 ⟨none, 0⟩ false,
          .step 1 ⟨none, 0⟩ false, .step 0 ⟨some 4096, 100⟩ false, .step 1 ⟨none, 0⟩ false,
          .step 0 ⟨none, 0⟩ false, .step 1 ⟨none, 0⟩ false, .step 0 ⟨none, 0⟩ false,
          .step 1 ⟨none, 0⟩ false, .step 0 ⟨none, 0⟩ false, .step 1 ⟨none, 0⟩ false,
          .step 0 ⟨none, 0⟩ false, .step 1 ⟨none, 0⟩ true, .step 1 ⟨none, 0⟩ false] = some w ∧
      w.Quiescent ∧ w.liveBytes = 16 ∧ w.bytesInUse = 16 ∧ w.bytesPeak ≤ 16 := by
  obtain ⟨w, hrun, hw⟩ := Option.map_eq_some_iff.mp
    (show (runs PoolThreads.step (.start { blockSize := 64, maxBytes := 8 } none 2)
        [.call 0 (.allocAligned 8 8), .call 1 (.allocAligned 8 8), .step 0 ⟨none, 0⟩ false,
          .step 1 ⟨none, 0⟩ false, .step 0 ⟨some 4096, 100⟩ false, .step 1 ⟨none, 0⟩ false,
          .step 0 ⟨none, 0⟩ false, .step 1 ⟨none, 0⟩ false, .step 0 ⟨none, 0⟩ false,
          .step 1 ⟨none, 0⟩ false, .step 0 ⟨none, 0⟩ false, .step 1 ⟨none, 0⟩ false,
          .step 0 ⟨none, 0⟩ false, .step 1 ⟨none, 0⟩ true, .step 1 ⟨none, 0⟩ false]).map
        (fun w => decide (w.Quiescent ∧ w.liveBytes = 16)) = some true by decide +kernel)
  obtain ⟨hquiescent, hlive⟩ := of_decide_eq_true hw
  obtain ⟨-, -, hpeak, -, hexact⟩ := limit_overshoot_is_bounded { blockSize := 64, maxBytes := 8 } none
    2 8 _ (by decide) (by decide) (.of_decide (by decide +kernel)) w hrun
  exact ⟨w, hrun, hquiescent, hlive, (hexact hquiescent).1.trans hlive, hpeak⟩

end Corekit.Memory
