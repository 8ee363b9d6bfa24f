import Mathlib.Data.List.Count
import Mathlib.Data.List.Nodup
import Mathlib.Data.List.Perm.Subperm
import Mathlib.Data.List.Induction
import Mathlib.Data.Fintype.Card
import Mathlib.Data.Fintype.EquivFin
import Mathlib.Data.Fintype.Sets
import Mathlib.Logic.Relation

/-! Peeling a directed graph from its sources. The nodes that have been reached
are split into the processed ones, those taken out of the queue and not yet
processed, and the queue itself; each node carries the number of its
unprocessed predecessors. -/
namespace Corekit.Foundation.Kahn

variable {α : Type} [DecidableEq α] (nodes : List α) (succ : α → List α)

def missing (done : List α) (v : α) : Nat := nodes.countP fun u => u ∉ done ∧ v ∈ succ u

def Ordered (order : List α) : Prop :=
  ∀ before v after, order = before ++ v :: after → ∀ u ∈ nodes, v ∈ succ u → u ∈ before

def Edge (u v : α) : Prop := u ∈ nodes ∧ v ∈ succ u

def Acyclic : Prop := ∀ v, ¬Relation.TransGen (Edge nodes succ) v v

structure Inv (done inflight ready : List α) (indegree : α → Nat) : Prop where
  nodup : (done ++ inflight ++ ready).Nodup
  mem : ∀ v ∈ done ++ inflight ++ ready, v ∈ nodes
  indegree : ∀ v ∈ nodes, indegree v = missing nodes succ done v
  reached : ∀ v ∈ nodes, v ∈ done ++ inflight ++ ready ↔ missing nodes succ done v = 0
  ordered : Ordered nodes succ done

variable {nodes succ}

theorem missing_eq_zero {done : List α} {v : α} :
    missing nodes succ done v = 0 ↔ ∀ u ∈ nodes, v ∈ succ u → u ∈ done := by
  simp only [missing, List.countP_eq_zero, decide_eq_true_eq, not_and]
  constructor
  · intro h u hu hv
    by_contra hnot
    exact h u hu hnot hv
  · intro h u hu hnot hv
    exact hnot (h u hu hv)

theorem missing_snoc (hnodes : nodes.Nodup) {done : List α} {u : α} (hu : u ∈ nodes)
    (hnot : u ∉ done) (v : α) :
    missing nodes succ done v =
      missing nodes succ (done ++ [u]) v + if v ∈ succ u then 1 else 0 := by
  unfold missing
  induction nodes with
  | nil => cases hu
  | cons first rest ih =>
    obtain ⟨hfirst, hrest⟩ := List.nodup_cons.mp hnodes
    rw [List.countP_cons, List.countP_cons]
    rcases List.mem_cons.mp hu with rfl | hmem
    · have hsame : rest.countP (fun w => decide (w ∉ done ∧ v ∈ succ w)) =
          rest.countP fun w => decide (w ∉ done ++ [u] ∧ v ∈ succ w) := by
        apply List.countP_congr
        intro w hw
        have hne : w ≠ u := fun heq => hfirst (heq ▸ hw)
        simp [hne]
      rw [hsame]
      by_cases hv : v ∈ succ u
      · simp [hnot, hv]
      · simp [hv]
    · have hne : first ≠ u := fun heq => hfirst (heq ▸ hmem)
      rw [ih hrest hmem]
      simp [hne]
      omega

namespace Inv

variable {done inflight ready : List α} {indegree : α → Nat}

theorem start (hready : ready.Nodup)
    (hindegree : ∀ v ∈ nodes, indegree v = missing nodes succ [] v)
    (hmem : ∀ v, v ∈ ready ↔ v ∈ nodes ∧ indegree v = 0) :
    Inv nodes succ [] [] ready indegree := by
  refine ⟨by simpa using hready, ?_, hindegree, ?_, ?_⟩
  · intro v hv
    exact ((hmem v).mp (by simpa using hv)).1
  · intro v hv
    rw [← hindegree v hv]
    simp [hmem, hv]
  · intro before v after h
    simp at h

theorem pop (level : List α) (h : Inv nodes succ done inflight (level ++ ready) indegree) :
    Inv nodes succ done (inflight ++ level) ready indegree := by
  have heq : done ++ (inflight ++ level) ++ ready = done ++ inflight ++ (level ++ ready) := by simp
  exact ⟨heq ▸ h.nodup, heq ▸ h.mem, h.indegree, heq ▸ h.reached, h.ordered⟩

theorem preds_done (h : Inv nodes succ done inflight ready indegree) {u v : α}
    (hv : v ∈ done ++ inflight ++ ready) (hu : u ∈ nodes) (huv : v ∈ succ u) : u ∈ done :=
  missing_eq_zero.mp ((h.reached v (h.mem v hv)).mp hv) u hu huv

theorem succ_waits (h : Inv nodes succ done inflight ready indegree) {u v : α}
    (hu : u ∈ inflight) (hv : v ∈ nodes) (huv : v ∈ succ u) : 0 < indegree v := by
  rw [h.indegree v hv, Nat.pos_iff_ne_zero]
  intro hzero
  have hreach : u ∈ done ++ inflight ++ ready := by simp [hu]
  have hdone := missing_eq_zero.mp hzero u (h.mem u hreach) huv
  have hnd := h.nodup
  rw [List.append_assoc, List.nodup_append] at hnd
  exact hnd.2.2 u hdone u (by simp [hu]) rfl

/-- Processing a node in flight: its successors lose one predecessor, and those
that had one left join the queue. -/
theorem process (hnodes : nodes.Nodup) {u : α} {indegree' : α → Nat}
    (h : Inv nodes succ done (u :: inflight) ready indegree)
    (hsucc : (succ u).Nodup) (hmem : ∀ v ∈ succ u, v ∈ nodes)
    (hindegree : ∀ v ∈ nodes, indegree' v = if v ∈ succ u then indegree v - 1 else indegree v) :
    Inv nodes succ (done ++ [u]) inflight (ready ++ (succ u).filter (indegree · = 1))
      indegree' := by
  have hu : u ∈ done ++ u :: inflight ++ ready := by simp
  have hnot : u ∉ done := by
    have hnd := h.nodup
    rw [List.append_assoc, List.nodup_append] at hnd
    exact fun hdone => hnd.2.2 u hdone u (by simp) rfl
  have hmissing : ∀ v, missing nodes succ done v =
      missing nodes succ (done ++ [u]) v + if v ∈ succ u then 1 else 0 :=
    missing_snoc hnodes (h.mem u hu) hnot
  have hpos : ∀ v ∈ succ u, 0 < indegree v := fun v hv =>
    h.succ_waits (List.mem_cons_self) (hmem v hv) hv
  have hone : ∀ v ∈ succ u, indegree v = 1 ↔ missing nodes succ (done ++ [u]) v = 0 := by
    intro v hv
    have := hmissing v
    rw [h.indegree v (hmem v hv)]
    simp only [hv, if_true] at this
    omega
  have heq : done ++ [u] ++ inflight ++ (ready ++ (succ u).filter (indegree · = 1)) =
      (done ++ u :: inflight ++ ready) ++ (succ u).filter (indegree · = 1) := by simp
  refine ⟨?_, ?_, ?_, ?_, ?_⟩
  · rw [heq, List.nodup_append]
    refine ⟨h.nodup, hsucc.filter _, fun v hv w hw hvw => ?_⟩
    subst hvw
    obtain ⟨hv', hfilter⟩ := List.mem_filter.mp hw
    have hzero := (h.reached v (hmem v hv')).mp hv
    rw [← h.indegree v (hmem v hv')] at hzero
    simp [hzero] at hfilter
  · intro v hv
    rw [heq] at hv
    rcases List.mem_append.mp hv with hv | hv
    · exact h.mem v hv
    · exact hmem v (List.mem_filter.mp hv).1
  · intro v hv
    have := hmissing v
    rw [hindegree v hv, h.indegree v hv]
    split_ifs with huv
    · simp only [huv, if_true] at this
      omega
    · simp only [huv, if_false] at this
      omega
  · intro v hv
    rw [heq, List.mem_append, h.reached v hv, List.mem_filter, decide_eq_true_eq]
    have := hmissing v
    by_cases huv : v ∈ succ u
    · rw [hone v huv]
      simp only [huv, if_true] at this
      constructor
      · rintro (hzero | ⟨-, hzero⟩)
        · omega
        · exact hzero
      · exact fun hzero => .inr ⟨huv, hzero⟩
    · simp only [huv, if_false, Nat.add_zero] at this
      simp [huv, this]
  · intro before v after hsplit w hw hvw
    rcases List.eq_nil_or_concat after with rfl | ⟨rest, last, rfl⟩
    · obtain ⟨rfl, hlast⟩ := List.append_inj' hsplit rfl
      cases List.singleton_inj.mp hlast
      exact h.preds_done hu hw hvw
    · rw [List.concat_eq_append, ← List.cons_append, ← List.append_assoc] at hsplit
      exact h.ordered before v rest (List.append_inj' hsplit rfl).1 w hw hvw

theorem length_le (h : Inv nodes succ done inflight ready indegree) :
    done.length + inflight.length + ready.length ≤ nodes.length := by
  have := (h.nodup.subperm h.mem).length_le
  simpa [Nat.add_assoc] using this

/-- Once the queue has run dry, everything that some order reaches is processed. -/
theorem complete (h : Inv nodes succ done [] [] indegree) {order : List α}
    (hmem : ∀ v ∈ order, v ∈ nodes) (horder : Ordered nodes succ order) :
    ∀ v ∈ order, v ∈ done := by
  induction order using List.reverseRecOn with
  | nil => simp
  | append_singleton before last ih =>
    have hbefore : ∀ v ∈ before, v ∈ done := by
      apply ih (fun v hv => hmem v (by simp [hv]))
      intro front v back hsplit u hu huv
      exact horder front v (back ++ [last]) (by simp [hsplit]) u hu huv
    intro v hv
    rcases List.mem_append.mp hv with hv | hv
    · exact hbefore v hv
    · cases List.mem_singleton.mp hv
      have hzero : missing nodes succ done last = 0 := by
        apply missing_eq_zero.mpr
        intro u hu huv
        exact hbefore u (horder before last [] rfl u hu huv)
      simpa using (h.reached last (hmem last (by simp))).mpr hzero

theorem complete_of_acyclic (h : Inv nodes succ done [] [] indegree)
    (hacyclic : Acyclic nodes succ) : ∀ v ∈ nodes, v ∈ done := by
  let path : {v // v ∈ nodes} → {v // v ∈ nodes} → Prop :=
    fun u v => Relation.TransGen (Edge nodes succ) u.1 v.1
  have : IsTrans _ path := ⟨fun _ _ _ huv hvw => huv.trans hvw⟩
  have : Std.Irrefl path := ⟨fun v hv => hacyclic v.1 hv⟩
  have hwf : WellFounded path := Finite.wellFounded_of_trans_of_irrefl path
  intro v hv
  induction hnode : (⟨v, hv⟩ : {v // v ∈ nodes}) using hwf.induction generalizing v with
  | _ node ih =>
    subst hnode
    have hzero : missing nodes succ done v = 0 := by
      apply missing_eq_zero.mpr
      intro u hu huv
      exact ih ⟨u, hu⟩ (.single ⟨hu, huv⟩) u hu rfl
    simpa using (h.reached v hv).mpr hzero

end Inv

section Cycles

variable {order : List α}

omit [DecidableEq α] in
theorem Ordered.path (horder : Ordered nodes succ order) {u v : α}
    (hpath : Relation.TransGen (Edge nodes succ) u v) {before after : List α}
    (hsplit : order = before ++ v :: after) : u ∈ before := by
  induction hpath generalizing before after with
  | single hedge => exact horder before _ after hsplit u hedge.1 hedge.2
  | @tail w v _ hedge ih =>
    have hw : w ∈ before := horder before v after hsplit w hedge.1 hedge.2
    obtain ⟨front, back, rfl⟩ := List.append_of_mem hw
    have hu : u ∈ front := @ih front (back ++ v :: after) (by simp [hsplit])
    exact List.mem_append_left _ hu

omit [DecidableEq α] in
theorem Ordered.acyclic (horder : Ordered nodes succ order) (hperm : order.Perm nodes)
    (hnodup : nodes.Nodup) : Acyclic nodes succ := by
  intro v hcycle
  have hv : v ∈ order := by
    obtain ⟨w, hedge, -⟩ := Relation.TransGen.head'_iff.mp hcycle
    exact hperm.symm.subset hedge.1
  obtain ⟨before, after, hsplit⟩ := List.append_of_mem hv
  have hbefore : v ∈ before := horder.path hcycle hsplit
  have hdup : (before ++ v :: after).Nodup := hsplit ▸ hperm.symm.nodup hnodup
  exact (List.nodup_append.mp hdup).2.2 v hbefore v (by simp) rfl

end Cycles

end Corekit.Foundation.Kahn
