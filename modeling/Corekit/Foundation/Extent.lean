import Corekit.Foundation.ByteMemory
import Mathlib.Data.List.Nodup
import Mathlib.Order.Interval.Finset.Nat
import Mathlib.Data.List.Pairwise
import Mathlib.Data.List.Perm.Basic

/-! Ranges of addresses, and a range cut into equal cells. -/
namespace Corekit.Foundation

structure Extent where
  base : Nat
  len : Nat
  deriving DecidableEq, Repr

namespace Extent

def Disjoint (left right : Extent) : Prop :=
  left.base + left.len ≤ right.base ∨ right.base + right.len ≤ left.base

def Within (inner outer : Extent) : Prop :=
  outer.base ≤ inner.base ∧ inner.base + inner.len ≤ outer.base + outer.len

def Contains (extent : Extent) (addr : Nat) : Prop :=
  extent.base ≤ addr ∧ addr < extent.base + extent.len

instance (left right : Extent) : Decidable (left.Disjoint right) :=
  inferInstanceAs (Decidable (_ ∨ _))

instance (inner outer : Extent) : Decidable (inner.Within outer) :=
  inferInstanceAs (Decidable (_ ∧ _))

instance (extent : Extent) (addr : Nat) : Decidable (extent.Contains addr) :=
  inferInstanceAs (Decidable (_ ∧ _))

variable {left right inner outer middle : Extent}

theorem Disjoint.symm (h : left.Disjoint right) : right.Disjoint left := Or.symm h

theorem disjoint_of_pairwise {α : Type} {f : α → Extent} {l : List α}
    (h : (l.map f).Pairwise Disjoint) {a b : α} (ha : a ∈ l) (hb : b ∈ l) (hne : a ≠ b) :
    (f a).Disjoint (f b) := by
  have hsymm : Std.Symm fun a b : α => (f a).Disjoint (f b) := ⟨fun _ _ h => h.symm⟩
  exact (List.pairwise_map.mp h).forall ha hb hne

theorem Within.refl (extent : Extent) : extent.Within extent := ⟨Nat.le_refl _, Nat.le_refl _⟩

theorem within_of_le (base : Nat) {len len' : Nat} (h : len ≤ len') :
    Within ⟨base, len⟩ ⟨base, len'⟩ := ⟨Nat.le_refl _, Nat.add_le_add_left h _⟩

theorem Within.trans (h : inner.Within middle) (h' : middle.Within outer) :
    inner.Within outer := ⟨h'.1.trans h.1, h.2.trans h'.2⟩

theorem Disjoint.mono {left' right' : Extent} (h : left.Disjoint right) (hleft : left'.Within left)
    (hright : right'.Within right) : left'.Disjoint right' := by
  unfold Disjoint Within at *
  omega

theorem Within.contains (h : inner.Within outer) {addr : Nat} (hin : inner.Contains addr) :
    outer.Contains addr := by
  unfold Within at h
  unfold Contains at *
  omega

theorem disjoint_byte {addr : Nat} (h : ¬left.Contains addr) : left.Disjoint ⟨addr, 1⟩ := by
  unfold Contains at h
  unfold Disjoint
  simp only
  omega

theorem not_contains_of_disjoint (h : left.Disjoint right) {addr : Nat}
    (hleft : left.Contains addr) : ¬right.Contains addr := by
  unfold Disjoint at h
  unfold Contains at *
  omega

theorem perm_cons_eraseP {α : Type} {p : α → Bool} {l : List α} {a : α} (ha : a ∈ l)
    (hp : p a = true) (honly : ∀ b ∈ l, p b = true → b = a) : l.Perm (a :: l.eraseP p) := by
  obtain ⟨b, left, right, -, hb, hl, herase⟩ := List.exists_of_eraseP ha hp
  have hba : b = a := honly b (by simp [hl]) hb
  rw [herase, hl, hba]
  exact List.perm_middle

theorem perm_eraseP_base {l : List Extent} (hapart : l.Pairwise Disjoint)
    (hpos : ∀ extent ∈ l, 0 < extent.len) {extent : Extent} (hmem : extent ∈ l) :
    l.Perm (extent :: l.eraseP fun other => other.base = extent.base) := by
  apply perm_cons_eraseP hmem (by simp)
  intro other hother hbase
  by_contra hne
  have hdisj := @disjoint_of_pairwise _ id _ (by simpa using hapart) _ _ hother hmem hne
  have hlen := hpos extent hmem
  have hlen' := hpos other hother
  unfold Disjoint at hdisj
  simp only [id_eq] at hdisj
  simp only [decide_eq_true_eq] at hbase
  omega

def cover : List Extent → Finset Nat
  | [] => ∅
  | extent :: rest => Finset.Ico extent.base (extent.base + extent.len) ∪ cover rest

theorem mem_cover {l : List Extent} {addr : Nat} :
    addr ∈ cover l ↔ ∃ extent ∈ l, extent.Contains addr := by
  induction l with
  | nil => simp [cover]
  | cons extent rest ih => simp [cover, ih, Contains]

theorem sum_len_le {l : List Extent} (hapart : l.Pairwise Disjoint) {bound : Nat}
    (hroom : ∀ extent ∈ l, extent.base + extent.len ≤ bound) : (l.map len).sum ≤ bound := by
  have hcard : (cover l).card = (l.map len).sum := by
    induction l with
    | nil => rfl
    | cons extent rest ih =>
      obtain ⟨hfirst, hrest⟩ := List.pairwise_cons.mp hapart
      have hdisj : ∀ addr ∈ Finset.Ico extent.base (extent.base + extent.len),
          addr ∉ cover rest := by
        intro addr haddr hmem
        obtain ⟨other, hother, hcontains⟩ := mem_cover.mp hmem
        have hapart := hfirst other hother
        unfold Contains at hcontains
        unfold Disjoint at hapart
        rw [Finset.mem_Ico] at haddr
        omega
      rw [cover, Finset.card_union_of_disjoint (Finset.disjoint_left.mpr hdisj), Nat.card_Ico,
        ih hrest fun other hother => hroom other (List.mem_cons_of_mem _ hother)]
      simp
  have hsub : cover l ⊆ Finset.range bound := by
    intro addr haddr
    obtain ⟨extent, hmem, -, hhigh⟩ := mem_cover.mp haddr
    exact Finset.mem_range.mpr (hhigh.trans_le (hroom extent hmem))
  have hle := Finset.card_le_card hsub
  rwa [hcard, Finset.card_range] at hle

def cells (base size count : Nat) : List Nat :=
  (List.range count).map fun i => base + i * size

section Cells

variable {base size count a b : Nat}

theorem mem_cells : a ∈ cells base size count ↔ ∃ i < count, a = base + i * size := by
  simp only [cells, List.mem_map, List.mem_range]
  constructor
  · rintro ⟨i, hi, rfl⟩
    exact ⟨i, hi, rfl⟩
  · rintro ⟨i, hi, rfl⟩
    exact ⟨i, hi, rfl⟩

theorem cells_nodup (hsize : 0 < size) : (cells base size count).Nodup := by
  apply List.Nodup.map _ List.nodup_range
  intro i j h
  exact Nat.eq_of_mul_eq_mul_right hsize (Nat.add_left_cancel h)

theorem cell_within (ha : a ∈ cells base size count) :
    Within ⟨a, size⟩ ⟨base, count * size⟩ := by
  obtain ⟨i, hi, rfl⟩ := mem_cells.mp ha
  have hle : (i + 1) * size ≤ count * size := Nat.mul_le_mul_right size hi
  rw [Nat.succ_mul] at hle
  refine ⟨Nat.le_add_right _ _, ?_⟩
  change base + i * size + size ≤ base + count * size
  omega

theorem cells_disjoint (ha : a ∈ cells base size count) (hb : b ∈ cells base size count)
    (hne : a ≠ b) : Disjoint ⟨a, size⟩ ⟨b, size⟩ := by
  obtain ⟨i, hi, rfl⟩ := mem_cells.mp ha
  obtain ⟨j, hj, rfl⟩ := mem_cells.mp hb
  rcases Nat.lt_trichotomy i j with hij | rfl | hij
  · have hle : (i + 1) * size ≤ j * size := Nat.mul_le_mul_right size hij
    rw [Nat.succ_mul] at hle
    left
    change base + i * size + size ≤ base + j * size
    omega
  · exact absurd rfl hne
  · have hle : (j + 1) * size ≤ i * size := Nat.mul_le_mul_right size hij
    rw [Nat.succ_mul] at hle
    right
    change base + j * size + size ≤ base + i * size
    omega

theorem cells_succ : cells base size (count + 1) =
    base :: (List.range' 1 count).map fun i => base + i * size := by
  unfold cells
  rw [List.range_eq_range', List.range'_succ]
  simp

end Cells

end Extent

namespace Mem

def fill (mem : Mem) (addr len : Nat) (byte : UInt8) : Mem :=
  fun x => if addr ≤ x ∧ x < addr + len then byte else mem x

theorem read_fill (mem : Mem) (addr : Nat) {len count : Nat} (byte : UInt8) (h : len ≤ count) :
    (mem.fill addr len byte).read addr count =
      List.replicate len byte ++ mem.read (addr + len) (count - len) := by
  obtain ⟨rest, rfl⟩ := Nat.exists_eq_add_of_le h
  rw [read_add, Nat.add_sub_cancel_left]
  congr 1
  · exact read_eq_replicate fun x hlow hhigh => if_pos ⟨hlow, hhigh⟩
  · exact read_congr fun x hlow _ => if_neg fun hin => absurd hin.2 (Nat.not_lt.mpr hlow)

namespace SameOutside

variable {addr len : Nat} {old new : Mem}

theorem mono {addr' len' : Nat} (h : SameOutside addr len old new)
    (hwithin : Extent.Within ⟨addr, len⟩ ⟨addr', len'⟩) : SameOutside addr' len' old new := by
  intro x hx
  obtain ⟨hlow, hhigh⟩ := hwithin
  apply h
  simp only at hlow hhigh
  omega

theorem fill {at' count : Nat} (byte : UInt8)
    (hwithin : Extent.Within ⟨at', count⟩ ⟨addr, len⟩) (mem : Mem) :
    SameOutside addr len mem (mem.fill at' count byte) := by
  intro x hx
  obtain ⟨hlow, hhigh⟩ := hwithin
  simp only at hlow hhigh
  unfold Mem.fill
  rw [if_neg (by omega)]

theorem storeLE {at' width : Nat} (value : Nat)
    (hwithin : Extent.Within ⟨at', width⟩ ⟨addr, len⟩) (mem : Mem) :
    SameOutside addr len mem (mem.storeLE width at' value) := by
  obtain ⟨hlow, hhigh⟩ := hwithin
  exact write hlow (by simpa using hhigh) mem

theorem apply_of_disjoint {extent : Extent} (h : SameOutside addr len old new)
    (hdisj : extent.Disjoint ⟨addr, len⟩) {x : Nat} (hx : extent.Contains x) : new x = old x := by
  unfold Extent.Disjoint at hdisj
  unfold Extent.Contains at hx
  simp only at hdisj
  exact h x (by omega)

theorem loadLE_of_disjoint {at' width : Nat} (h : SameOutside addr len old new)
    (hdisj : Extent.Disjoint ⟨at', width⟩ ⟨addr, len⟩) :
    new.loadLE width at' = old.loadLE width at' := h.loadLE_eq hdisj

end SameOutside

def SameExcept (extents : List Extent) (old new : Mem) : Prop :=
  ∀ x, (∀ extent ∈ extents, ¬extent.Contains x) → new x = old x

theorem SameOutside.sameExcept {addr len : Nat} {old new : Mem}
    (h : SameOutside addr len old new) {extents : List Extent} {extent : Extent}
    (hmem : extent ∈ extents) (hwithin : Extent.Within ⟨addr, len⟩ extent) :
    SameExcept extents old new := by
  intro x hx
  have hnot := hx extent hmem
  obtain ⟨hlow, hhigh⟩ := hwithin
  unfold Extent.Contains at hnot
  apply h
  simp only at hlow hhigh
  omega

theorem SameExcept.loadLE_eq {extents : List Extent} {old new : Mem}
    (h : SameExcept extents old new) {at' width : Nat}
    (hdisj : ∀ extent ∈ extents, Extent.Disjoint ⟨at', width⟩ extent) :
    new.loadLE width at' = old.loadLE width at' := by
  apply loadLE_congr
  intro x hlow hhigh
  apply h
  rintro extent hmem ⟨hin, hout⟩
  have hapart := hdisj extent hmem
  unfold Extent.Disjoint at hapart
  simp only at hapart
  omega

end Mem

end Corekit.Foundation
