import Corekit.Task.ParallelFor

/-! The chunks of `ParallelFor` on an executor that takes all of them. The loop
adds `grain` modulo `2 ^ 64`; where the sum that should end it wraps, the loop
goes on from a lower index. -/
namespace Corekit.Task
open Corekit.Api Corekit.Foundation

/-- Every `SubmitEx` is accepted; `ids` and `waited` are the other answers. The
state is the list of chunks submitted. -/
def acceptAll (ids : Nat → TaskId) (waited : List TaskId → Status) :
    Handler ChunkOp ChunkOp.Res (List (Nat × Nat))
  | .submitEx chunkBegin chunkEnd, chunks =>
    (.ok (ids chunks.length), chunks ++ [(chunkBegin, chunkEnd)])
  | .waitBatch taken, chunks => (waited taken, chunks)

def chunkIndices (chunk : Nat × Nat) : List Nat := List.range' chunk.1 (chunk.2 - chunk.1)

def invokedIndices (chunks : List (Nat × Nat)) : List Nat := chunks.flatMap chunkIndices

/-- The function is called once for each index of the range and for no other, by
chunks of no more than `grain` elements. -/
structure Partitions (start stop grain : Nat) (chunks : List (Nat × Nat)) : Prop where
  small : ∀ chunk ∈ chunks, chunk.2 - chunk.1 ≤ max grain 1
  once : ∀ i, (invokedIndices chunks).count i = if start ≤ i ∧ i < stop then 1 else 0

theorem count_chunkIndices (chunk : Nat × Nat) (i : Nat) :
    (chunkIndices chunk).count i = if chunk.1 ≤ i ∧ i < chunk.2 then 1 else 0 := by
  have hmem : i ∈ chunkIndices chunk ↔ chunk.1 ≤ i ∧ i < chunk.2 := by
    rw [chunkIndices, List.mem_range'_1]
    omega
  split_ifs with hin
  · exact List.count_eq_one_of_mem List.nodup_range' (hmem.mpr hin)
  · exact List.count_eq_zero_of_not_mem fun hi => hin (hmem.mp hi)

theorem count_invokedIndices_append (left right : List (Nat × Nat)) (i : Nat) :
    (invokedIndices (left ++ right)).count i =
      (invokedIndices left).count i + (invokedIndices right).count i := by
  rw [invokedIndices, List.flatMap_append, List.count_append]
  rfl

/-- The first `k` chunks, where no sum wraps. -/
def firstChunks (start stop grain k : Nat) : List (Nat × Nat) :=
  (List.range k).map fun j => (start + j * grain, min (start + (j + 1) * grain) stop)

theorem firstChunks_succ (start stop grain k : Nat) :
    firstChunks start stop grain (k + 1) = firstChunks start stop grain k ++
      [(start + k * grain, min (start + (k + 1) * grain) stop)] := by
  rw [firstChunks, List.range_succ, List.map_append]
  rfl

theorem count_firstChunks {start stop grain k : Nat}
    (hbelow : ∀ j < k, start + j * grain < stop) (i : Nat) :
    (invokedIndices (firstChunks start stop grain k)).count i =
      if start ≤ i ∧ i < min (start + k * grain) stop then 1 else 0 := by
  induction k with
  | zero =>
    rw [if_neg (by omega)]
    rfl
  | succ k ih =>
    have hk := hbelow k (Nat.lt_succ_self k)
    have hstep : start + (k + 1) * grain = start + k * grain + grain := by
      rw [Nat.succ_mul, Nat.add_assoc]
    rw [firstChunks_succ, count_invokedIndices_append, ih fun j hj => hbelow j (by omega)]
    simp only [invokedIndices, List.flatMap_singleton, count_chunkIndices]
    rw [hstep]
    split_ifs <;> omega

section Loop

variable {stop grain fuel c : Nat} {ids : Nat → TaskId} {waited : List TaskId → Status}
  {taken : List TaskId} {chunks final : List (Nat × Nat)} {status : Status}

theorem parallelForLoop_chunk (h : c < stop) :
    (parallelForLoop stop grain (fuel + 1) c taken).run (acceptAll ids waited) chunks =
      (parallelForLoop stop grain fuel ((c + grain) % 2 ^ 64) (taken ++ [ids chunks.length])).run
        (acceptAll ids waited) (chunks ++ [(c, min ((c + grain) % 2 ^ 64) stop)]) := by
  rw [parallelForLoop, if_pos h]
  rfl

theorem parallelForLoop_done (h : ¬ c < stop) :
    ∃ status, (parallelForLoop stop grain (fuel + 1) c taken).run (acceptAll ids waited) chunks =
      (some status, chunks) := by
  rw [parallelForLoop, if_neg h]
  by_cases hnil : taken = []
  · rw [if_pos hnil]
    exact ⟨_, rfl⟩
  · rw [if_neg hnil]
    exact ⟨_, rfl⟩

theorem parallelForLoop_mono (more : Nat)
    (h : (parallelForLoop stop grain fuel c taken).run (acceptAll ids waited) chunks =
      (some status, final)) :
    (parallelForLoop stop grain (fuel + more) c taken).run (acceptAll ids waited) chunks =
      (some status, final) := by
  induction fuel generalizing c taken chunks with
  | zero => cases h
  | succ fuel ih =>
    rw [Nat.succ_add]
    by_cases hc : c < stop
    · rw [parallelForLoop_chunk hc] at h ⊢
      exact ih h
    · rw [parallelForLoop, if_neg hc] at h ⊢
      exact h

theorem parallelForLoop_first {start k : Nat} (hbelow : ∀ j < k, start + j * grain < stop)
    (hfit : start + k * grain < 2 ^ 64) :
    ∃ taken', (parallelForLoop stop grain (fuel + k) start taken).run (acceptAll ids waited)
        chunks =
      (parallelForLoop stop grain fuel (start + k * grain) taken').run (acceptAll ids waited)
        (chunks ++ firstChunks start stop grain k) := by
  induction k generalizing fuel with
  | zero =>
    refine ⟨taken, ?_⟩
    rw [Nat.zero_mul, firstChunks, List.range_zero, List.map_nil, List.append_nil]
    rfl
  | succ k ih =>
    have hstep : start + (k + 1) * grain = start + k * grain + grain := by
      rw [Nat.succ_mul, Nat.add_assoc]
    obtain ⟨taken', hrun⟩ := @ih (fuel + 1) (fun j hj => hbelow j (by omega)) (by omega)
    refine ⟨taken' ++ [ids (chunks ++ firstChunks start stop grain k).length], ?_⟩
    rw [show fuel + (k + 1) = fuel + 1 + k by omega, hrun,
      parallelForLoop_chunk (hbelow k (Nat.lt_succ_self k)), ← hstep, Nat.mod_eq_of_lt hfit,
      firstChunks_succ, List.append_assoc]

theorem parallelForLoop_grows
    (h : (parallelForLoop stop grain fuel c taken).run (acceptAll ids waited) chunks =
      (some status, final)) : ∃ later, final = chunks ++ later := by
  induction fuel generalizing c taken chunks with
  | zero => cases h
  | succ fuel ih =>
    by_cases hc : c < stop
    · rw [parallelForLoop_chunk hc] at h
      obtain ⟨later, rfl⟩ := ih h
      exact ⟨_, List.append_assoc _ _ _⟩
    · obtain ⟨status', hdone⟩ := @parallelForLoop_done stop grain fuel c ids waited taken chunks hc
      cases hdone.symm.trans h
      exact ⟨[], (List.append_nil _).symm⟩

/-- From any index of the loop, some chunk that starts there or below it is not
empty: sums that wrap only lead further down. -/
theorem parallelForLoop_lower (hpos : 0 < grain) (hgrain : grain < 2 ^ 64) (hc : c < stop)
    (hstop : stop < 2 ^ 64)
    (h : (parallelForLoop stop grain fuel c taken).run (acceptAll ids waited) chunks =
      (some status, final)) :
    ∃ low later, low ≤ c ∧ final = chunks ++ later ∧ low ∈ invokedIndices later := by
  induction fuel generalizing c taken chunks with
  | zero => cases h
  | succ fuel ih =>
    rw [parallelForLoop_chunk hc] at h
    by_cases hfit : c + grain < 2 ^ 64
    · obtain ⟨later, rfl⟩ := parallelForLoop_grows h
      refine ⟨c, _, le_refl c, List.append_assoc _ _ _, ?_⟩
      rw [Nat.mod_eq_of_lt hfit, invokedIndices, List.singleton_append, List.flatMap_cons,
        List.mem_append, chunkIndices, List.mem_range'_1]
      left
      dsimp only
      omega
    · have hwrap : (c + grain) % 2 ^ 64 = c + grain - 2 ^ 64 := by omega
      rw [hwrap] at h
      obtain ⟨low, later, hlow, rfl, hmem⟩ := ih (by omega) h
      refine ⟨low, _, by omega, List.append_assoc _ _ _, ?_⟩
      rw [invokedIndices, List.flatMap_append, List.mem_append]
      exact .inr hmem

end Loop

/-- A chunk that starts at `start` and the ones that follow it reach the end of
the range without a sum that wraps. -/
def EndsInRange (start stop grain : Nat) : Prop :=
  start = stop ∨ start + ((stop - start - 1) / max grain 1 + 1) * max grain 1 < 2 ^ 64

instance (start stop grain : Nat) : Decidable (EndsInRange start stop grain) :=
  inferInstanceAs (Decidable (_ ∨ _))

theorem below_iff {start stop grain : Nat} (hlt : start < stop) (hpos : 0 < grain) (j : Nat) :
    j ≤ (stop - start - 1) / grain ↔ start + j * grain < stop := by
  rw [Nat.le_div_iff_mul_le hpos]
  omega

theorem parallelFor_eq_loop {start stop : Nat} (hlt : start < stop) (fuel grain : Nat) :
    parallelFor fuel true start stop grain = parallelForLoop stop (max grain 1) fuel start [] := by
  have hgrain : (if grain = 0 then 1 else grain) = max grain 1 := by split_ifs <;> omega
  rw [parallelFor, if_neg (by simp), if_neg (by omega), if_neg (by omega), hgrain]

theorem firstChunks_partition {start stop grain : Nat} (hlt : start < stop) :
    Partitions start stop grain (firstChunks start stop (max grain 1)
      ((stop - start - 1) / max grain 1 + 1)) := by
  have hpos : 0 < max grain 1 := by omega
  have hend : ¬ start + ((stop - start - 1) / max grain 1 + 1) * max grain 1 < stop := by
    rw [← below_iff hlt hpos]
    omega
  constructor
  · intro chunk hchunk
    obtain ⟨j, -, rfl⟩ := List.mem_map.mp hchunk
    have hstep : start + (j + 1) * max grain 1 = start + j * max grain 1 + max grain 1 := by
      rw [Nat.succ_mul, Nat.add_assoc]
    dsimp only
    omega
  · intro i
    rw [count_firstChunks fun j hj => (below_iff hlt hpos j).mp (by omega), min_eq_right (by omega)]

/-- Where the last sum wraps, the chunks call the function for an index outside
the range, or for an index of the range once more. -/
theorem parallelForLoop_wraps {ids : Nat → TaskId} {waited : List TaskId → Status}
    {start stop grain fuel : Nat} {status : Status} {chunks : List (Nat × Nat)}
    (hlt : start < stop) (hstop : stop < 2 ^ 64) (hgrain : max grain 1 < 2 ^ 64)
    (hwraps : ¬ EndsInRange start stop grain)
    (hrun : (parallelForLoop stop (max grain 1) fuel start []).run (acceptAll ids waited) [] =
      (some status, chunks)) : ¬ Partitions start stop grain chunks := by
  intro hpartition
  have hpos : 0 < max grain 1 := by omega
  have hlast := (below_iff hlt hpos _).mp (le_refl ((stop - start - 1) / max grain 1))
  have hbelow : ∀ j < (stop - start - 1) / max grain 1, start + j * max grain 1 < stop :=
    fun j hj => (below_iff hlt hpos j).mp (by omega)
  have hwrap := not_lt.mp (not_or.mp hwraps).2
  rw [Nat.succ_mul, ← Nat.add_assoc] at hwrap
  generalize hk : (stop - start - 1) / max grain 1 = k at hlast hbelow hwrap
  -- the first pass, up to the chunk whose end wraps
  obtain ⟨taken, hfirst⟩ := @parallelForLoop_first stop (max grain 1) (fuel + 1) ids waited [] []
    start k hbelow (by omega)
  have hlong := parallelForLoop_mono (1 + k) hrun
  rw [show fuel + (1 + k) = fuel + 1 + k by omega, hfirst, parallelForLoop_chunk hlast] at hlong
  have hmod : (start + k * max grain 1 + max grain 1) % 2 ^ 64 =
      start + k * max grain 1 + max grain 1 - 2 ^ 64 := by omega
  rw [hmod] at hlong
  obtain ⟨low, later, hlow, rfl, hmem⟩ :=
    parallelForLoop_lower hpos hgrain (by omega) hstop hlong
  have honce := hpartition.once low
  rw [count_invokedIndices_append, count_invokedIndices_append, count_invokedIndices_append,
    count_firstChunks hbelow] at honce
  have hagain := List.count_pos_iff.mpr hmem
  split_ifs at honce <;> omega

/-- The loop ends with a partition of its range exactly when the sum that ends
it does not wrap. -/
theorem parallelFor_partitions_iff (ids : Nat → TaskId) (waited : List TaskId → Status)
    {start stop grain : Nat} (hle : start ≤ stop) (hstop : stop < 2 ^ 64)
    (hgrain : grain < 2 ^ 64) :
    (∃ fuel status chunks, (parallelFor fuel true start stop grain).run (acceptAll ids waited) [] =
      (some status, chunks) ∧ Partitions start stop grain chunks) ↔
    EndsInRange start stop grain := by
  rcases Nat.lt_or_eq_of_le hle with hlt | rfl
  · simp only [parallelFor_eq_loop hlt]
    constructor
    · rintro ⟨fuel, status, chunks, hrun, hpartition⟩
      by_contra hwraps
      exact parallelForLoop_wraps hlt hstop (by omega) hwraps hrun hpartition
    · rintro (rfl | hfit)
      · exact absurd hlt (Nat.lt_irrefl start)
      have hpos : 0 < max grain 1 := by omega
      have hbelow : ∀ j < (stop - start - 1) / max grain 1 + 1, start + j * max grain 1 < stop :=
        fun j hj => (below_iff hlt hpos j).mp (by omega)
      obtain ⟨taken, hfirst⟩ := @parallelForLoop_first stop (max grain 1) 1 ids waited [] [] start
        _ hbelow hfit
      obtain ⟨status, hdone⟩ := @parallelForLoop_done stop (max grain 1) 0
        (start + ((stop - start - 1) / max grain 1 + 1) * max grain 1) ids waited taken
        ([] ++ firstChunks start stop (max grain 1) ((stop - start - 1) / max grain 1 + 1))
        (by rw [← below_iff hlt hpos]; omega)
      exact ⟨_, status, _, hfirst.trans hdone, firstChunks_partition hlt⟩
  · refine ⟨fun _ => .inl rfl, fun _ => ⟨0, .okStatus, [], ?_, by simp, fun i => ?_⟩⟩
    · rw [parallelFor, if_neg (by simp), if_neg (by omega), if_pos rfl]
      rfl
    · rw [if_neg (by omega)]
      rfl

theorem parallelFor_partitions_hundred :
    EndsInRange 1 101 8 ∧ ∃ fuel status chunks,
      (parallelFor fuel true 1 101 8).run (acceptAll id fun _ => .okStatus) [] =
        (some status, chunks) ∧ Partitions 1 101 8 chunks :=
  ⟨by decide, (parallelFor_partitions_iff id (fun _ => .okStatus) (by decide) (by decide)
    (by decide)).mpr (by decide)⟩

/-- The largest grain, to have one chunk: the first chunk comes out empty and the
second one starts at zero, below the range. -/
theorem parallelFor_one_chunk_wraps :
    (parallelFor 3 true 1 2 (2 ^ 64 - 1)).run (acceptAll id fun _ => .okStatus) [] =
        (some .okStatus, [(1, 0), (0, 2)]) ∧
      invokedIndices [(1, 0), (0, 2)] = [0, 1] ∧
      ¬ ∃ fuel status chunks,
        (parallelFor fuel true 1 2 (2 ^ 64 - 1)).run (acceptAll id fun _ => .okStatus) [] =
          (some status, chunks) ∧ Partitions 1 2 (2 ^ 64 - 1) chunks := by
  refine ⟨by rfl, by decide, ?_⟩
  rintro ⟨fuel, status, chunks, hrun, hpartition⟩
  rw [parallelFor_eq_loop (by decide)] at hrun
  exact parallelForLoop_wraps (by decide) (by decide) (by decide) (by decide) hrun hpartition

end Corekit.Task
