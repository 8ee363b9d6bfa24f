import Corekit.Task.Graph
import Corekit.Foundation.Kahn
import Mathlib.Tactic.Common

/-! The order in which `Validate` and `RunInternal` reach the nodes: both peel
the graph from its sources. -/
namespace Corekit.Task
open Corekit.Api Corekit.Foundation

namespace SimpleTaskGraph

variable {g : SimpleTaskGraph}

section Keys

theorem countTargets_keys {targets : List TaskId} {indegree indegree' : Indegree}
    (h : countTargets targets indegree = .ok indegree') : indegree'.keys = indegree.keys := by
  induction targets generalizing indegree with
  | nil =>
    cases h
    rfl
  | cons dst rest ih =>
    simp only [countTargets] at h
    cases hfind : indegree.find? dst with
    | none => simp [hfind] at h
    | some d =>
      simp only [hfind] at h
      rw [ih h, indegree.keys_insert_of_mem _ (indegree.mem_keys_of_find? hfind)]

theorem countEdges_keys {edges : List (TaskId × OrderedMap TaskId Unit)}
    {indegree indegree' : Indegree} (h : countEdges edges indegree = .ok indegree') :
    indegree'.keys = indegree.keys := by
  induction edges generalizing indegree with
  | nil =>
    cases h
    rfl
  | cons entry rest ih =>
    simp only [countEdges] at h
    cases hcount : countTargets entry.2.keys indegree with
    | error status => simp [hcount] at h
    | ok middle =>
      simp only [hcount] at h
      rw [ih h, countTargets_keys hcount]

theorem zeros_find? (ids : List TaskId) (id : TaskId) (start : Indegree) :
    (ids.foldl (fun indegree id => indegree.insert id 0) start).find? id =
      if id ∈ ids then some 0 else start.find? id := by
  induction ids generalizing start with
  | nil => simp
  | cons first rest ih =>
    rw [List.foldl_cons, ih, OrderedMap.find?_insert]
    by_cases hrest : id ∈ rest
    · simp [hrest]
    · by_cases hfirst : id = first
      · simp [hfirst]
      · simp [hrest, hfirst]

theorem mem_buildIndegree_keys {indegree : Indegree} (h : g.buildIndegree = .ok indegree)
    {id : TaskId} : id ∈ indegree.keys ↔ id ∈ g.nodes.keys := by
  rw [countEdges_keys h, ← not_iff_not, ← OrderedMap.find?_eq_none_iff, zeros_find?]
  by_cases hid : id ∈ g.nodes.keys
  · simp [hid]
  · simp [hid]

theorem relax_keys {targets ready ready' : List TaskId} {indegree indegree' : Indegree}
    (h : relax targets indegree ready = .ok (indegree', ready')) :
    indegree'.keys = indegree.keys ∧ ∀ id ∈ ready', id ∈ ready ∨ id ∈ indegree.keys := by
  induction targets generalizing indegree ready with
  | nil =>
    cases h
    exact ⟨rfl, fun id hid => .inl hid⟩
  | cons dst rest ih =>
    simp only [relax] at h
    cases hfind : indegree.find? dst with
    | none => simp [hfind] at h
    | some d =>
      have hmem := indegree.mem_keys_of_find? hfind
      simp only [hfind] at h
      obtain ⟨hkeys, hready⟩ := ih h
      rw [indegree.keys_insert_of_mem _ hmem] at hkeys hready
      refine ⟨hkeys, fun id hid => ?_⟩
      rcases hready id hid with hid | hid
      · by_cases hzero : (if d > 0 then d - 1 else d) = 0
        · rw [if_pos hzero] at hid
          rcases List.mem_append.mp hid with hid | hid
          · exact .inl hid
          · cases List.mem_singleton.mp hid
            exact .inr hmem
        · rw [if_neg hzero] at hid
          exact .inl hid
      · exact .inr hid

theorem relaxNode_keys {id : TaskId} {ready ready' : List TaskId} {indegree indegree' : Indegree}
    (h : g.relaxNode id indegree ready = .ok (indegree', ready')) :
    indegree'.keys = indegree.keys ∧ ∀ id ∈ ready', id ∈ ready ∨ id ∈ indegree.keys := by
  unfold relaxNode at h
  cases hedges : g.edges.find? id with
  | none =>
    simp only [hedges, Except.ok.injEq, Prod.mk.injEq] at h
    obtain ⟨rfl, rfl⟩ := h
    exact ⟨rfl, fun id hid => .inl hid⟩
  | some out =>
    simp only [hedges] at h
    exact relax_keys h

theorem relaxLevel_keys {level ready ready' : List TaskId} {indegree indegree' : Indegree}
    (h : g.relaxLevel level indegree ready = .ok (indegree', ready')) :
    indegree'.keys = indegree.keys ∧ ∀ id ∈ ready', id ∈ ready ∨ id ∈ indegree.keys := by
  induction level generalizing indegree ready with
  | nil =>
    cases h
    exact ⟨rfl, fun id hid => .inl hid⟩
  | cons first rest ih =>
    simp only [relaxLevel] at h
    cases hnode : g.relaxNode first indegree ready with
    | error status => simp [hnode] at h
    | ok result =>
      simp only [hnode] at h
      obtain ⟨hkeys, hready⟩ := relaxNode_keys hnode
      obtain ⟨hkeys', hready'⟩ := ih h
      refine ⟨hkeys'.trans hkeys, fun id hid => ?_⟩
      rcases hready' id hid with hid | hid
      · exact hready id hid
      · exact .inr (hkeys ▸ hid)

theorem mem_keys_of_initialReady {indegree : Indegree} {id : TaskId}
    (h : id ∈ initialReady indegree) : id ∈ indegree.keys := by
  obtain ⟨entry, hentry, rfl⟩ := List.mem_map.mp h
  exact List.mem_map_of_mem (List.mem_filter.mp hentry).1

end Keys

/-- Edges run between nodes, and every id has been given out. -/
structure WellFormed (g : SimpleTaskGraph) : Prop where
  sources : ∀ id ∈ g.edges.keys, id ∈ g.nodes.keys
  targets : ∀ id out, g.edges.find? id = some out → ∀ dst ∈ out.keys, dst ∈ g.nodes.keys
  fresh : ∀ id ∈ g.nodes.keys, id < g.nextId

section Built

theorem wellFormed_empty : WellFormed {} := ⟨by simp, by simp, by simp⟩

theorem WellFormed.addTask (hg : g.WellFormed) (hasFn : Bool) (options : GraphTaskOptions) :
    (g.addTask hasFn options).2.WellFormed := by
  unfold SimpleTaskGraph.addTask
  cases hasFn with
  | false => exact hg
  | true =>
    have hnone : g.edges.find? g.nextId = none := by
      rw [OrderedMap.find?_eq_none_iff]
      exact fun hmem => absurd (hg.fresh _ (hg.sources _ hmem)) (lt_irrefl _)
    simp only [if_true, hnone]
    refine ⟨fun id hid => ?_, fun id out hout dst hdst => ?_, fun id hid => ?_⟩
    · rw [OrderedMap.mem_keys_insert] at hid ⊢
      exact hid.imp_right (hg.sources id)
    · rw [OrderedMap.mem_keys_insert]
      rw [OrderedMap.find?_insert] at hout
      split_ifs at hout
      · cases Option.some.inj hout
        cases hdst
      · exact .inr (hg.targets id out hout dst hdst)
    · rcases (OrderedMap.mem_keys_insert _).mp hid with rfl | hid
      · exact Nat.lt_succ_self _
      · exact Nat.lt_succ_of_lt (hg.fresh id hid)

theorem WellFormed.addDependency (hg : g.WellFormed) (beforeTaskId afterTaskId : TaskId) :
    (g.addDependency beforeTaskId afterTaskId).2.WellFormed := by
  unfold SimpleTaskGraph.addDependency
  split_ifs with hself hmissing
  · exact hg
  · exact hg
  · push Not at hmissing
    obtain ⟨hbefore, hafter⟩ := hmissing
    rw [ne_eq, OrderedMap.find?_eq_none_iff, not_not] at hbefore hafter
    refine ⟨fun id hid => ?_, fun id out hout dst hdst => ?_, hg.fresh⟩
    · rcases (OrderedMap.mem_keys_insert _).mp hid with rfl | hid
      · exact hbefore
      · exact hg.sources id hid
    · dsimp only at hout
      rw [OrderedMap.find?_insert] at hout
      split_ifs at hout with heq
      · cases Option.some.inj hout
        rcases (OrderedMap.mem_keys_insert _).mp hdst with rfl | hdst
        · exact hafter
        · cases hfind : g.edges.find? beforeTaskId with
          | none => simp [hfind] at hdst
          | some old =>
            rw [hfind] at hdst
            exact hg.targets _ old hfind dst hdst
      · exact hg.targets id out hout dst hdst

theorem WellFormed.addDependenciesFrom (afterTaskId : TaskId) (ids : List TaskId)
    (hg : g.WellFormed) : (SimpleTaskGraph.addDependenciesFrom afterTaskId g ids).2.WellFormed := by
  induction ids generalizing g with
  | nil => exact hg
  | cons id rest ih =>
    simp only [SimpleTaskGraph.addDependenciesFrom]
    split_ifs
    · exact ih (hg.addDependency id afterTaskId)
    · exact hg.addDependency id afterTaskId

/-- A call that changes the graph. -/
inductive Edit where
  | addTask (hasFn : Bool) (options : GraphTaskOptions)
  | addDependency (beforeTaskId afterTaskId : TaskId)
  | addDependencies (afterTaskId : TaskId) (beforeTaskIds : Option (List TaskId))
  | clear

def edit (g : SimpleTaskGraph) : Edit → SimpleTaskGraph
  | .addTask hasFn options => (g.addTask hasFn options).2
  | .addDependency beforeTaskId afterTaskId => (g.addDependency beforeTaskId afterTaskId).2
  | .addDependencies afterTaskId beforeTaskIds => (g.addDependencies afterTaskId beforeTaskIds).2
  | .clear => clear.2

def build (edits : List Edit) : SimpleTaskGraph := edits.foldl edit {}

theorem wellFormed_edit (hg : g.WellFormed) (e : Edit) : (g.edit e).WellFormed := by
  cases e with
  | addTask hasFn options => exact hg.addTask hasFn options
  | addDependency beforeTaskId afterTaskId => exact hg.addDependency beforeTaskId afterTaskId
  | addDependencies afterTaskId beforeTaskIds =>
    cases beforeTaskIds with
    | none => exact hg
    | some ids => exact hg.addDependenciesFrom afterTaskId ids
  | clear => exact wellFormed_empty

theorem wellFormed_build (edits : List Edit) : (build edits).WellFormed := by
  unfold build
  have hall : ∀ g : SimpleTaskGraph, g.WellFormed → (edits.foldl edit g).WellFormed := by
    induction edits with
    | nil => exact fun g hg => hg
    | cons e rest ih => exact fun g hg => ih _ (wellFormed_edit hg e)
  exact hall {} wellFormed_empty

end Built

def succ (g : SimpleTaskGraph) (id : TaskId) : List TaskId :=
  match g.edges.find? id with
  | none => []
  | some out => out.keys

def indegreeOf (indegree : Indegree) (id : TaskId) : Nat := (indegree.find? id).getD 0

section Counting

theorem succ_nodup (id : TaskId) : (g.succ id).Nodup := by
  unfold succ
  split
  · exact List.nodup_nil
  · exact OrderedMap.keys_nodup _

theorem WellFormed.mem_of_succ (hg : g.WellFormed) {id dst : TaskId} (h : dst ∈ g.succ id) :
    dst ∈ g.nodes.keys := by
  unfold succ at h
  split at h
  · cases h
  · next out hout => exact hg.targets id out hout dst h

theorem indegreeOf_insert (indegree : Indegree) (k id : TaskId) (v : Nat) :
    indegreeOf (indegree.insert k v) id = if id = k then v else indegreeOf indegree id := by
  unfold indegreeOf
  rw [OrderedMap.find?_insert]
  split_ifs <;> rfl

theorem countTargets_ok {targets : List TaskId} {indegree : Indegree}
    (h : ∀ dst ∈ targets, dst ∈ indegree.keys) :
    ∃ indegree', countTargets targets indegree = .ok indegree' ∧
      ∀ id, indegreeOf indegree' id = indegreeOf indegree id + targets.count id := by
  induction targets generalizing indegree with
  | nil => exact ⟨indegree, rfl, by simp⟩
  | cons dst rest ih =>
    obtain ⟨d, hd⟩ := indegree.exists_find? (h dst (by simp))
    have hkeys := indegree.keys_insert_of_mem (d + 1) (h dst (by simp))
    obtain ⟨indegree', hok, hcount⟩ := @ih (indegree.insert dst (d + 1)) (by
      intro other hother
      rw [hkeys]
      exact h other (by simp [hother]))
    refine ⟨indegree', by simp [countTargets, hd, hok], fun id => ?_⟩
    rw [hcount, indegreeOf_insert, List.count_cons]
    by_cases heq : id = dst
    · subst heq
      simp [indegreeOf, hd]
      omega
    · simp [heq, Ne.symm heq]

theorem countEdges_ok {edges : List (TaskId × OrderedMap TaskId Unit)} {indegree : Indegree}
    (h : ∀ entry ∈ edges, ∀ dst ∈ entry.2.keys, dst ∈ indegree.keys) :
    ∃ indegree', countEdges edges indegree = .ok indegree' ∧
      ∀ id, indegreeOf indegree' id =
        indegreeOf indegree id + edges.countP fun entry => id ∈ entry.2.keys := by
  induction edges generalizing indegree with
  | nil => exact ⟨indegree, rfl, by simp⟩
  | cons entry rest ih =>
    obtain ⟨source, out⟩ := entry
    obtain ⟨middle, hmiddle, hcount⟩ := countTargets_ok (h (source, out) (by simp))
    obtain ⟨indegree', hok, hcount'⟩ := @ih middle (by
      intro entry hentry dst hdst
      rw [countTargets_keys hmiddle]
      exact h entry (by simp [hentry]) dst hdst)
    refine ⟨indegree', by simp [countEdges, hmiddle, hok], fun id => ?_⟩
    rw [hcount', hcount, List.countP_cons, List.Nodup.count (OrderedMap.keys_nodup out)]
    simp only [decide_eq_true_eq]
    omega

theorem WellFormed.countP_edges (hg : g.WellFormed) (id : TaskId) :
    (g.edges.entries.countP fun entry => id ∈ entry.2.keys) =
      Kahn.missing g.nodes.keys g.succ [] id := by
  have hentries : (g.edges.entries.countP fun entry => id ∈ entry.2.keys) =
      g.edges.keys.countP fun source => id ∈ g.succ source := by
    rw [OrderedMap.keys, List.countP_map]
    apply List.countP_congr
    intro entry hentry
    have hfind := g.edges.find?_of_mem hentry
    simp [succ, hfind]
  rw [hentries, Kahn.missing, List.countP_eq_length_filter, List.countP_eq_length_filter]
  apply List.Perm.length_eq
  rw [List.perm_ext_iff_of_nodup ((OrderedMap.keys_nodup _).filter _)
    ((OrderedMap.keys_nodup _).filter _)]
  intro source
  simp only [List.mem_filter, List.not_mem_nil, not_false_eq_true, true_and]
  constructor
  · rintro ⟨hmem, hsucc⟩
    exact ⟨hg.sources source hmem, hsucc⟩
  · rintro ⟨-, hsucc⟩
    refine ⟨?_, hsucc⟩
    by_contra hnot
    rw [← OrderedMap.find?_eq_none_iff] at hnot
    simp [succ, hnot] at hsucc

theorem WellFormed.buildIndegree_ok (hg : g.WellFormed) :
    ∃ indegree, g.buildIndegree = .ok indegree ∧
      ∀ id ∈ g.nodes.keys, indegreeOf indegree id = Kahn.missing g.nodes.keys g.succ [] id := by
  have hzeros := zeros_find? g.nodes.keys
  obtain ⟨indegree, hok, hcount⟩ := @countEdges_ok g.edges.entries
    (g.nodes.keys.foldl (fun indegree id => indegree.insert id 0) .empty) (by
      intro entry hentry dst hdst
      have hdst' := hg.targets entry.1 entry.2 (g.edges.find?_of_mem hentry) dst hdst
      by_contra hnot
      rw [← OrderedMap.find?_eq_none_iff, hzeros, if_pos hdst'] at hnot
      cases hnot)
  refine ⟨indegree, hok, fun id hid => ?_⟩
  rw [hcount, hg.countP_edges, indegreeOf, hzeros, if_pos hid]
  exact Nat.zero_add _

end Counting

section Peeling

theorem relax_ok {targets ready : List TaskId} {indegree : Indegree} (hnodup : targets.Nodup)
    (hmem : ∀ dst ∈ targets, dst ∈ indegree.keys)
    (hpos : ∀ dst ∈ targets, 0 < indegreeOf indegree dst) :
    ∃ indegree', relax targets indegree ready =
        .ok (indegree', ready ++ targets.filter (indegreeOf indegree · = 1)) ∧
      ∀ id, indegreeOf indegree' id =
        if id ∈ targets then indegreeOf indegree id - 1 else indegreeOf indegree id := by
  induction targets generalizing indegree ready with
  | nil => exact ⟨indegree, by simp [relax], by simp⟩
  | cons dst rest ih =>
    obtain ⟨hdst, hrest⟩ := List.nodup_cons.mp hnodup
    obtain ⟨d, hd⟩ := indegree.exists_find? (hmem dst (by simp))
    have hvalue : indegreeOf indegree dst = d := by simp [indegreeOf, hd]
    have hd0 : 0 < d := hvalue ▸ hpos dst (by simp)
    have hkeys := indegree.keys_insert_of_mem (d - 1) (hmem dst (by simp))
    have hother : ∀ other ∈ rest,
        indegreeOf (indegree.insert dst (d - 1)) other = indegreeOf indegree other := by
      intro other hother
      have hne : other ≠ dst := fun heq => hdst (heq ▸ hother)
      rw [indegreeOf_insert, if_neg hne]
    obtain ⟨indegree', hok, hvalues⟩ := @ih
      (if d - 1 = 0 then ready ++ [dst] else ready) (indegree.insert dst (d - 1)) hrest
      (fun other hmem' => by rw [hkeys]; exact hmem other (by simp [hmem']))
      (fun other hmem' => by rw [hother other hmem']; exact hpos other (by simp [hmem']))
    refine ⟨indegree', ?_, fun id => ?_⟩
    · have hfilter : rest.filter (fun other =>
          indegreeOf (indegree.insert dst (d - 1)) other = 1) =
          rest.filter fun other => indegreeOf indegree other = 1 :=
        List.filter_congr fun other hmem' => by rw [hother other hmem']
      simp only [relax, hd, if_pos hd0]
      rw [hok, hfilter, List.filter_cons, hvalue]
      by_cases hone : d = 1
      · simp [hone]
      · simp [hone, show ¬d - 1 = 0 by omega]
    · rw [hvalues, indegreeOf_insert]
      by_cases heq : id = dst
      · subst heq
        simp [hdst, hvalue]
      · simp [heq]

/-- What the loops of `Validate` and `RunInternal` keep. -/
structure Peeled (g : SimpleTaskGraph) (done inflight ready : List TaskId) (indegree : Indegree) :
    Prop where
  keys : ∀ id ∈ g.nodes.keys, id ∈ indegree.keys
  kahn : Kahn.Inv g.nodes.keys g.succ done inflight ready (indegreeOf indegree)

theorem Peeled.relaxNode (hg : g.WellFormed) {done inflight ready : List TaskId}
    {indegree : Indegree} {id : TaskId} (h : g.Peeled done (id :: inflight) ready indegree) :
    ∃ indegree' ready', g.relaxNode id indegree ready = .ok (indegree', ready') ∧
      g.Peeled (done ++ [id]) inflight ready' indegree' := by
  have hpos : ∀ dst ∈ g.succ id, 0 < indegreeOf indegree dst := fun dst hdst =>
    h.kahn.succ_waits (List.mem_cons_self) (hg.mem_of_succ hdst) hdst
  obtain ⟨indegree', hok, hvalues⟩ := @relax_ok (g.succ id) ready indegree (succ_nodup id)
    (fun dst hdst => h.keys dst (hg.mem_of_succ hdst)) hpos
  have hnode : g.relaxNode id indegree ready =
      .ok (indegree', ready ++ (g.succ id).filter (indegreeOf indegree · = 1)) := by
    rw [← hok]
    unfold SimpleTaskGraph.relaxNode succ
    cases g.edges.find? id <;> rfl
  refine ⟨indegree', _, hnode, ?_, ?_⟩
  · rw [(relaxNode_keys hnode).1]
    exact h.keys
  · exact h.kahn.process (OrderedMap.keys_nodup _) (succ_nodup id)
      (fun dst hdst => hg.mem_of_succ hdst) fun v _ => hvalues v

theorem Peeled.relaxLevel (hg : g.WellFormed) {level done ready : List TaskId}
    {indegree : Indegree} (h : g.Peeled done level ready indegree) :
    ∃ indegree' ready', g.relaxLevel level indegree ready = .ok (indegree', ready') ∧
      g.Peeled (done ++ level) [] ready' indegree' := by
  induction level generalizing done ready indegree with
  | nil => exact ⟨indegree, ready, rfl, by simpa using h⟩
  | cons id rest ih =>
    obtain ⟨indegree', ready', hok, hnext⟩ := h.relaxNode hg
    obtain ⟨indegree'', ready'', hok', hlast⟩ := ih hnext
    refine ⟨indegree'', ready'', by simp [SimpleTaskGraph.relaxLevel, hok, hok'], ?_⟩
    simpa using hlast

theorem Peeled.start (hg : g.WellFormed) :
    ∃ indegree, g.buildIndegree = .ok indegree ∧
      g.Peeled [] [] (initialReady indegree) indegree := by
  obtain ⟨indegree, hok, hvalues⟩ := hg.buildIndegree_ok
  refine ⟨indegree, hok, fun id hid => (mem_buildIndegree_keys hok).mpr hid, ?_⟩
  apply Kahn.Inv.start
  · exact ((OrderedMap.keys_nodup indegree).sublist
      (List.Sublist.map Prod.fst List.filter_sublist))
  · exact hvalues
  · intro id
    constructor
    · intro hid
      obtain ⟨entry, hentry, rfl⟩ := List.mem_map.mp hid
      obtain ⟨hmem, hzero⟩ := List.mem_filter.mp hentry
      have hfind := indegree.find?_of_mem hmem
      refine ⟨(mem_buildIndegree_keys hok).mp (indegree.mem_keys_of_find? hfind), ?_⟩
      simpa [indegreeOf, hfind] using hzero
    · rintro ⟨hid, hzero⟩
      obtain ⟨d, hd⟩ := indegree.exists_find? ((mem_buildIndegree_keys hok).mpr hid)
      rw [indegreeOf, hd] at hzero
      refine List.mem_map.mpr ⟨(id, d), List.mem_filter.mpr ⟨indegree.mem_of_find? hd, ?_⟩, rfl⟩
      simpa using hzero

theorem Peeled.validateLoop (hg : g.WellFormed) {fuel : Nat} {done ready : List TaskId}
    {indegree : Indegree} (h : g.Peeled done [] ready indegree)
    (hfuel : g.nodes.size ≤ fuel + done.length) :
    ∃ done' indegree', g.validateLoop fuel indegree ready done.length = some (.ok done'.length) ∧
      g.Peeled done' [] [] indegree' := by
  induction fuel generalizing done ready indegree with
  | zero =>
    cases ready with
    | nil => exact ⟨done, indegree, rfl, h⟩
    | cons id rest =>
      have hlength := h.kahn.length_le
      rw [OrderedMap.length_keys] at hlength
      simp only [List.length_nil, List.length_cons] at hlength
      omega
  | succ fuel ih =>
    cases ready with
    | nil => exact ⟨done, indegree, rfl, h⟩
    | cons id rest =>
      have hpop : g.Peeled done [id] rest indegree := ⟨h.keys, h.kahn.pop [id]⟩
      obtain ⟨indegree', ready', hok, hnext⟩ := hpop.relaxNode hg
      obtain ⟨done', indegree'', hloop, hend⟩ := ih hnext (by simp; omega)
      refine ⟨done', indegree'', ?_, hend⟩
      rw [List.length_append, List.length_singleton] at hloop
      simp only [SimpleTaskGraph.validateLoop, hok, hloop]

theorem WellFormed.order_of_validate (hg : g.WellFormed) (h : g.validate = some .okStatus) :
    ∃ order, order.Perm g.nodes.keys ∧ Kahn.Ordered g.nodes.keys g.succ order := by
  obtain ⟨indegree, hbuild, hstart⟩ := Peeled.start hg
  obtain ⟨order, indegree', hloop, hend⟩ :=
    @Peeled.validateLoop g hg g.nodes.size _ _ _ hstart (by simp)
  simp only [List.length_nil] at hloop
  simp only [validate, hbuild, hloop, Option.map_some, Option.some.injEq] at h
  have hlength : order.length = g.nodes.size := by
    by_contra hne
    rw [if_pos hne] at h
    cases h
  refine ⟨order, ?_, hend.kahn.ordered⟩
  have hnodup : order.Nodup := by simpa using hend.kahn.nodup
  have hsub := hnodup.subperm fun v hv => hend.kahn.mem v (by simpa using hv)
  exact hsub.perm_of_length_le (by rw [OrderedMap.length_keys, hlength])

end Peeling

end SimpleTaskGraph

end Corekit.Task
