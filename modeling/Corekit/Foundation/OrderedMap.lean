import Mathlib.Order.Defs.LinearOrder
import Mathlib.Data.List.Nodup
import Mathlib.Data.List.Basic
import Mathlib.Order.Lattice

/-! An ordered associative container: a list of entries with strictly
increasing keys, which is the order of iteration. -/
namespace Corekit.Foundation

structure OrderedMap (κ ν : Type) [LinearOrder κ] where
  entries : List (κ × ν)
  sorted : entries.Pairwise fun a b => a.1 < b.1

namespace OrderedMap

variable {κ ν : Type} [LinearOrder κ]

def empty : OrderedMap κ ν := ⟨[], List.Pairwise.nil⟩

def insertEntry (k : κ) (v : ν) : List (κ × ν) → List (κ × ν)
  | [] => [(k, v)]
  | (k', v') :: rest =>
    if k < k' then (k, v) :: (k', v') :: rest
    else if k = k' then (k, v) :: rest
    else (k', v') :: insertEntry k v rest

theorem mem_insertEntry_keys {k k' : κ} {v : ν} {entries : List (κ × ν)} :
    k' ∈ (insertEntry k v entries).map Prod.fst ↔ k' = k ∨ k' ∈ entries.map Prod.fst := by
  induction entries with
  | nil => simp [insertEntry]
  | cons entry rest ih =>
    obtain ⟨key, value⟩ := entry
    simp only [insertEntry]
    split_ifs with hlt heq
    · simp
    · subst heq
      simp
    · simp only [List.map_cons, List.mem_cons, ih]
      tauto

theorem insertEntry_sorted (k : κ) (v : ν) {entries : List (κ × ν)}
    (h : entries.Pairwise fun a b => a.1 < b.1) :
    (insertEntry k v entries).Pairwise fun a b => a.1 < b.1 := by
  induction entries with
  | nil => simp [insertEntry]
  | cons entry rest ih =>
    obtain ⟨key, value⟩ := entry
    obtain ⟨hhead, hrest⟩ := List.pairwise_cons.mp h
    simp only [insertEntry]
    split_ifs with hlt heq
    · refine List.pairwise_cons.mpr ⟨fun e he => ?_, h⟩
      rcases List.mem_cons.mp he with rfl | he
      · exact hlt
      · exact lt_trans hlt (hhead e he)
    · subst heq
      exact List.pairwise_cons.mpr ⟨hhead, hrest⟩
    · refine List.pairwise_cons.mpr ⟨fun e he => ?_, ih hrest⟩
      rcases mem_insertEntry_keys.mp (List.mem_map_of_mem he) with hk | hk
      · rw [hk]
        exact lt_of_le_of_ne (not_lt.mp hlt) (Ne.symm heq)
      · obtain ⟨e', he', hkey⟩ := List.mem_map.mp hk
        rw [← hkey]
        exact hhead e' he'

def insert (m : OrderedMap κ ν) (k : κ) (v : ν) : OrderedMap κ ν :=
  ⟨insertEntry k v m.entries, insertEntry_sorted k v m.sorted⟩

def find? (m : OrderedMap κ ν) (k : κ) : Option ν :=
  (m.entries.find? fun entry => entry.1 = k).map Prod.snd

def keys (m : OrderedMap κ ν) : List κ := m.entries.map Prod.fst

def size (m : OrderedMap κ ν) : Nat := m.entries.length

variable (m : OrderedMap κ ν)

@[simp] theorem find?_empty (k : κ) : (empty : OrderedMap κ ν).find? k = none := rfl

@[simp] theorem keys_empty : (empty : OrderedMap κ ν).keys = [] := rfl

theorem length_keys : m.keys.length = m.size := List.length_map _

theorem keys_nodup : m.keys.Nodup :=
  List.pairwise_map.mpr (m.sorted.imp fun h => ne_of_lt h)

theorem mem_keys_insert {k k' : κ} {v : ν} :
    k' ∈ (m.insert k v).keys ↔ k' = k ∨ k' ∈ m.keys := mem_insertEntry_keys

theorem find?_insert (k k' : κ) (v : ν) :
    (m.insert k v).find? k' = if k' = k then some v else m.find? k' := by
  obtain ⟨entries, hsorted⟩ := m
  simp only [find?, insert]
  clear hsorted
  induction entries with
  | nil =>
    by_cases h : k' = k
    · simp [insertEntry, h]
    · simp [insertEntry, h, Ne.symm h]
  | cons entry rest ih =>
    obtain ⟨key, value⟩ := entry
    by_cases hk : k' = k
    · subst hk
      simp only [insertEntry]
      split_ifs with hlt heq
      · simp
      · simp
      · rw [List.find?_cons_of_neg (by simpa using Ne.symm heq), ih, if_pos rfl]
    · rw [if_neg hk] at ih ⊢
      simp only [insertEntry]
      split_ifs with hlt heq
      · rw [List.find?_cons_of_neg (by simpa using Ne.symm hk)]
      · subst heq
        rw [List.find?_cons_of_neg (by simpa using Ne.symm hk),
          List.find?_cons_of_neg (by simpa using Ne.symm hk)]
      · by_cases hkey : key = k'
        · simp [hkey]
        · rw [List.find?_cons_of_neg (by simpa using hkey), ih,
            List.find?_cons_of_neg (by simpa using hkey)]

theorem find?_eq_none_iff {k : κ} : m.find? k = none ↔ k ∉ m.keys := by
  simp only [find?, keys, Option.map_eq_none_iff, List.find?_eq_none, List.mem_map, not_exists,
    not_and, decide_eq_true_eq]

theorem mem_keys_of_find? {k : κ} {v : ν} (h : m.find? k = some v) : k ∈ m.keys := by
  by_contra hk
  rw [m.find?_eq_none_iff.mpr hk] at h
  cases h

theorem exists_find? {k : κ} (h : k ∈ m.keys) : ∃ v, m.find? k = some v := by
  apply Option.ne_none_iff_exists'.mp
  intro hnone
  exact m.find?_eq_none_iff.mp hnone h

theorem find?_of_mem {k : κ} {v : ν} (h : (k, v) ∈ m.entries) : m.find? k = some v := by
  obtain ⟨entries, hsorted⟩ := m
  simp only [find?] at h ⊢
  induction entries with
  | nil => cases h
  | cons entry rest ih =>
    obtain ⟨hhead, hrest⟩ := List.pairwise_cons.mp hsorted
    rcases List.mem_cons.mp h with rfl | h
    · simp
    · have hne : entry.1 ≠ k := ne_of_lt (hhead _ h)
      rw [List.find?_cons_of_neg (by simpa using hne)]
      exact ih hrest h

theorem mem_of_find? {k : κ} {v : ν} (h : m.find? k = some v) : (k, v) ∈ m.entries := by
  obtain ⟨⟨k', v'⟩, hfind, rfl⟩ := Option.map_eq_some_iff.mp h
  have hkey : k' = k := by simpa using List.find?_some hfind
  exact hkey ▸ List.mem_of_find?_eq_some hfind

theorem keys_insert_of_mem {k : κ} (v : ν) (h : k ∈ m.keys) : (m.insert k v).keys = m.keys := by
  obtain ⟨entries, hsorted⟩ := m
  simp only [keys, insert] at h ⊢
  induction entries with
  | nil => cases h
  | cons entry rest ih =>
    obtain ⟨key, value⟩ := entry
    obtain ⟨hhead, hrest⟩ := List.pairwise_cons.mp hsorted
    simp only [insertEntry]
    split_ifs with hlt heq
    · rcases List.mem_cons.mp h with rfl | h
      · exact absurd hlt (lt_irrefl _)
      · obtain ⟨e, he, rfl⟩ := List.mem_map.mp h
        exact absurd hlt (not_lt_of_gt (hhead e he))
    · simp [heq]
    · rw [List.map_cons, List.map_cons, ih hrest ((List.mem_cons.mp h).resolve_left heq)]

end OrderedMap

end Corekit.Foundation
