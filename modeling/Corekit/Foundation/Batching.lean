import Corekit.Foundation.Kahn
import Mathlib.Data.List.Chain

/-! Running a directed graph in batches. Nodes of one batch run side by side, so
no plan has fewer batches than a chain has nodes, and none gets through more
nodes than its batches hold. A plan that leaves an available node out only where
the batch is full is not far above these bounds. -/
namespace Corekit.Foundation.Kahn

variable {α : Type} (nodes : List α) (succ : α → List α)

structure Chained (chain : List α) : Prop where
  mem : ∀ v ∈ chain, v ∈ nodes
  linked : chain.IsChain (Edge nodes succ)

structure Available (done : List α) (v : α) : Prop where
  mem : v ∈ nodes
  fresh : v ∉ done
  preds : ∀ u ∈ nodes, v ∈ succ u → u ∈ done

/-- Batches of at most `cap` available nodes, until every node is done. -/
def Plan (cap : Nat) : List α → List (List α) → Prop
  | done, [] => ∀ v ∈ nodes, v ∈ done
  | done, batch :: rest =>
    (batch.Nodup ∧ batch.length ≤ cap ∧ ∀ v ∈ batch, Available nodes succ done v) ∧
      Plan cap (done ++ batch) rest

/-- No batch is empty, and one that is not full leaves no available node out. -/
def Greedy (cap : Nat) : List α → List (List α) → Prop
  | _, [] => True
  | done, batch :: rest =>
    (batch ≠ [] ∧ (batch.length = cap ∨ ∀ v, Available nodes succ done v → v ∈ batch)) ∧
      Greedy cap (done ++ batch) rest

variable {nodes succ} {cap : Nat} {done : List α} {plan : List (List α)}

theorem Chained.nil : Chained nodes succ [] := ⟨by simp, .nil⟩

theorem Chained.tail {v : α} {rest : List α} (h : Chained nodes succ (v :: rest)) :
    Chained nodes succ rest :=
  ⟨fun w hw => h.mem w (List.mem_cons_of_mem v hw), h.linked.tail⟩

theorem exists_pred {v : α} (hmem : v ∈ nodes) (hfresh : v ∉ done)
    (h : ¬Available nodes succ done v) : ∃ u ∈ nodes, v ∈ succ u ∧ u ∉ done := by
  by_contra hnone
  refine h ⟨hmem, hfresh, fun u hu huv => ?_⟩
  by_contra hnot
  exact hnone ⟨u, hu, huv, hnot⟩

theorem Chained.not_available {v : α} {rest : List α} (h : Chained nodes succ (v :: rest))
    (hfresh : ∀ w ∈ v :: rest, w ∉ done) : ∀ w ∈ rest, ¬Available nodes succ done w := by
  induction rest generalizing v with
  | nil => simp
  | cons next rest ih =>
    intro w hw havailable
    rcases List.mem_cons.mp hw with rfl | hw
    · obtain ⟨hedge, -⟩ := List.isChain_cons_cons.mp h.linked
      exact hfresh v List.mem_cons_self (havailable.preds v hedge.1 hedge.2)
    · exact ih h.tail (fun x hx => hfresh x (List.mem_cons_of_mem v hx)) w hw havailable

theorem Plan.chain_le (hplan : Plan nodes succ cap done plan) {chain : List α}
    (hchain : Chained nodes succ chain) (hfresh : ∀ v ∈ chain, v ∉ done) :
    chain.length ≤ plan.length := by
  induction plan generalizing done chain with
  | nil =>
    cases chain with
    | nil => exact Nat.le_refl 0
    | cons v rest => exact absurd (hplan v (hchain.mem v (by simp))) (hfresh v (by simp))
  | cons batch rest ih =>
    cases chain with
    | nil => exact Nat.zero_le _
    | cons v chain =>
      obtain ⟨⟨-, -, hbatch⟩, hrest⟩ := hplan
      apply Nat.succ_le_succ
      refine ih hrest hchain.tail fun w hw hdone => ?_
      rcases List.mem_append.mp hdone with hdone | hnow
      · exact hfresh w (by simp [hw]) hdone
      · exact hchain.not_available hfresh w hw (hbatch w hnow)

theorem Plan.covers (hplan : Plan nodes succ cap done plan) :
    ∀ v ∈ nodes, v ∈ done ++ plan.flatten := by
  induction plan generalizing done with
  | nil =>
    intro v hv
    exact List.mem_append_left _ (hplan v hv)
  | cons batch rest ih => simpa using ih hplan.2

theorem Plan.perm (hnodes : nodes.Nodup) (hplan : Plan nodes succ cap done plan)
    (hdone : done.Nodup) (hmem : ∀ v ∈ done, v ∈ nodes) :
    (done ++ plan.flatten).Perm nodes := by
  induction plan generalizing done with
  | nil =>
    rw [List.flatten_nil, List.append_nil, List.perm_ext_iff_of_nodup hdone hnodes]
    exact fun v => ⟨hmem v, hplan v⟩
  | cons batch rest ih =>
    obtain ⟨⟨hnodup, -, hbatch⟩, hrest⟩ := hplan
    rw [List.flatten_cons, ← List.append_assoc]
    apply ih hrest
    · refine List.nodup_append.mpr ⟨hdone, hnodup, fun v hv w hw heq => ?_⟩
      exact (hbatch w hw).fresh (heq ▸ hv)
    · intro v hv
      rcases List.mem_append.mp hv with hv | hv
      · exact hmem v hv
      · exact (hbatch v hv).mem

theorem Plan.flatten_le (hplan : Plan nodes succ cap done plan) :
    plan.flatten.length ≤ cap * plan.length := by
  induction plan generalizing done with
  | nil => simp
  | cons batch rest ih =>
    obtain ⟨⟨-, hlength, -⟩, hrest⟩ := hplan
    have := ih hrest
    rw [List.flatten_cons, List.length_append, List.length_cons, Nat.mul_succ]
    omega

/-- The batches that leave an available node out are full; the others are no more
than the nodes of some chain. -/
theorem Greedy.split (hplan : Plan nodes succ cap done plan)
    (hgreedy : Greedy nodes succ cap done plan) :
    ∃ full tight chain, plan.length = full + tight ∧
      cap * full + tight ≤ plan.flatten.length ∧
      (0 < full → cap < plan.flatten.length) ∧
      Chained nodes succ chain ∧ (∀ v ∈ chain, v ∉ done) ∧ tight ≤ chain.length := by
  induction plan generalizing done with
  | nil => exact ⟨0, 0, [], rfl, by simp, by simp, .nil, by simp, by simp⟩
  | cons batch rest ih =>
    obtain ⟨⟨hnodup, -, hbatch⟩, hrest⟩ := hplan
    obtain ⟨⟨hne, hfull⟩, hgreedy⟩ := hgreedy
    obtain ⟨full, tight, chain, hlength, hnodes, hmore, hchain, hfresh, htight⟩ := ih hrest hgreedy
    have hpos := List.length_pos_iff.mpr hne
    have hkept : ∀ v ∈ chain, v ∉ done := fun v hv hdone =>
      hfresh v hv (List.mem_append_left _ hdone)
    simp only [List.length_cons, List.flatten_cons, List.length_append]
    by_cases hall : ∀ v, Available nodes succ done v → v ∈ batch
    · -- the first node of the chain was not available, so the chain can be extended
      have hlonger : ∃ longer, Chained nodes succ longer ∧ (∀ v ∈ longer, v ∉ done) ∧
          tight + 1 ≤ longer.length := by
        cases chain with
        | nil =>
          obtain ⟨v, hv⟩ := List.exists_mem_of_ne_nil batch hne
          refine ⟨[v], ⟨by simpa using (hbatch v hv).mem, .singleton v⟩,
            by simpa using (hbatch v hv).fresh, ?_⟩
          simpa using htight
        | cons v chain =>
          have hblocked : ¬Available nodes succ done v := fun havailable =>
            hfresh v (by simp) (List.mem_append_right _ (hall v havailable))
          obtain ⟨u, hu, huv, hnot⟩ :=
            exists_pred (hchain.mem v (by simp)) (hkept v (by simp)) hblocked
          refine ⟨u :: v :: chain, ⟨?_, ?_⟩, ?_, by simpa using htight⟩
          · intro w hw
            rcases List.mem_cons.mp hw with rfl | hw
            · exact hu
            · exact hchain.mem w hw
          · exact List.isChain_cons_cons.mpr ⟨⟨hu, huv⟩, hchain.linked⟩
          · intro w hw
            rcases List.mem_cons.mp hw with rfl | hw
            · exact hnot
            · exact hkept w hw
      obtain ⟨longer, hlinked, hoff, hlong⟩ := hlonger
      exact ⟨full, tight + 1, longer, by omega, by omega, fun h => by have := hmore h; omega,
        hlinked, hoff, hlong⟩
    · have hcap : batch.length = cap := hfull.resolve_right hall
      obtain ⟨v, havailable, hout⟩ : ∃ v, Available nodes succ done v ∧ v ∉ batch := by
        by_contra hnone
        exact hall fun v hv => by_contra fun hout => hnone ⟨v, hv, hout⟩
      -- what is left out now comes later
      have hleft : 0 < rest.flatten.length := by
        by_contra hempty
        have hnil : rest.flatten = [] := List.length_eq_zero_iff.mp (by omega)
        have hcovered := hrest.covers v havailable.mem
        rw [hnil, List.append_nil] at hcovered
        rcases List.mem_append.mp hcovered with hv | hv
        · exact havailable.fresh hv
        · exact hout hv
      refine ⟨full + 1, tight, chain, by omega, ?_, fun _ => by omega, hchain, hkept, htight⟩
      rw [Nat.mul_succ]
      omega

theorem Plan.length_flatten (hnodes : nodes.Nodup) (hplan : Plan nodes succ cap [] plan) :
    plan.flatten.length = nodes.length := by
  simpa using (hplan.perm hnodes .nil (by simp)).length_eq

/-- Where one batch has room for all nodes, a longest chain is as long as a greedy plan. -/
theorem Greedy.exists_chain (hnodes : nodes.Nodup) (hplan : Plan nodes succ cap [] plan)
    (hgreedy : Greedy nodes succ cap [] plan) (hcap : nodes.length ≤ cap) :
    ∃ chain, Chained nodes succ chain ∧ chain.length = plan.length := by
  obtain ⟨full, tight, chain, hlength, -, hmore, hchain, hfresh, htight⟩ := hgreedy.split hplan
  have hnone : full = 0 := by
    by_contra hsome
    have := hmore (Nat.pos_of_ne_zero hsome)
    rw [hplan.length_flatten hnodes] at this
    omega
  have := hplan.chain_le hchain hfresh
  exact ⟨chain, hchain, by omega⟩

/-- A greedy plan has less than twice as many batches as any other plan. -/
theorem Greedy.near_optimal (hnodes : nodes.Nodup) (hplan : Plan nodes succ cap [] plan)
    (hgreedy : Greedy nodes succ cap [] plan) {other : List (List α)}
    (hother : Plan nodes succ cap [] other) :
    cap * plan.length ≤ (cap + (cap - 1)) * other.length := by
  obtain ⟨full, tight, chain, hlength, hcount, -, hchain, hfresh, htight⟩ := hgreedy.split hplan
  have hroom : plan.flatten.length ≤ cap * other.length := by
    rw [hplan.length_flatten hnodes, ← hother.length_flatten hnodes]
    exact hother.flatten_le
  have hchains : (cap - 1) * tight ≤ (cap - 1) * other.length :=
    Nat.mul_le_mul_left _ (htight.trans (hother.chain_le hchain hfresh))
  have htight : cap * tight ≤ tight + (cap - 1) * tight := by
    have : cap * tight ≤ (1 + (cap - 1)) * tight := Nat.mul_le_mul_right _ (by omega)
    rwa [Nat.add_mul, Nat.one_mul] at this
  calc cap * plan.length = cap * full + cap * tight := by rw [hlength, Nat.mul_add]
    _ ≤ cap * full + tight + (cap - 1) * tight := by omega
    _ ≤ cap * other.length + (cap - 1) * other.length := by omega
    _ = (cap + (cap - 1)) * other.length := (Nat.add_mul ..).symm

end Corekit.Foundation.Kahn
