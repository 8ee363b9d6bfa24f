import Mathlib.Data.List.Basic
import Mathlib.Tactic.NormNum
import Mathlib.Tactic.Ring

/-! Flat byte memories. A memory is a total map from addresses to bytes, with
block reads, block writes and little-endian words. Frame facts go through
`SameOutside`: a block may have changed, nothing else did. -/
namespace Corekit.Foundation

abbrev Mem := Nat → UInt8

namespace Mem

def read (mem : Mem) (addr len : Nat) : List UInt8 :=
  (List.range len).map fun i => mem (addr + i)

def write (mem : Mem) (addr : Nat) (bytes : List UInt8) : Mem :=
  fun x => if addr ≤ x then (bytes[x - addr]?).getD (mem x) else mem x

@[simp] theorem read_length (mem : Mem) (addr len : Nat) :
    (mem.read addr len).length = len := by
  simp [read]

@[simp] theorem read_zero (mem : Mem) (addr : Nat) : mem.read addr 0 = [] := rfl

@[simp] theorem write_nil (mem : Mem) (addr : Nat) : mem.write addr [] = mem := by
  funext x
  simp [write]

theorem write_apply_lt (mem : Mem) {addr x : Nat} (bytes : List UInt8)
    (h : x < addr) : mem.write addr bytes x = mem x := by
  unfold write
  rw [if_neg (by omega)]

theorem write_apply_ge (mem : Mem) {addr x : Nat} (bytes : List UInt8)
    (h : addr + bytes.length ≤ x) : mem.write addr bytes x = mem x := by
  unfold write
  split
  · rw [List.getElem?_eq_none (by omega), Option.getD_none]
  · rfl

theorem write_apply_of_lt (mem : Mem) {addr i : Nat} (bytes : List UInt8)
    (h : i < bytes.length) : mem.write addr bytes (addr + i) = bytes[i] := by
  unfold write
  rw [if_pos (by omega), Nat.add_sub_cancel_left, List.getElem?_eq_getElem h,
    Option.getD_some]

theorem read_congr {left right : Mem} {addr len : Nat}
    (h : ∀ x, addr ≤ x → x < addr + len → left x = right x) :
    left.read addr len = right.read addr len := by
  unfold read
  apply List.map_congr_left
  intro i hi
  have hlt : i < len := List.mem_range.mp hi
  exact h (addr + i) (by omega) (by omega)

theorem read_add (mem : Mem) (addr left right : Nat) :
    mem.read addr (left + right) = mem.read addr left ++ mem.read (addr + left) right := by
  simp [read, List.range_add, Nat.add_assoc]

theorem read_eq_replicate {mem : Mem} {addr len : Nat} {byte : UInt8}
    (h : ∀ x, addr ≤ x → x < addr + len → mem x = byte) :
    mem.read addr len = List.replicate len byte := by
  rw [@read_congr mem (fun _ => byte) addr len h]
  simp [read]

@[simp] theorem read_write_same (mem : Mem) (addr : Nat) (bytes : List UInt8) :
    (mem.write addr bytes).read addr bytes.length = bytes := by
  apply List.ext_getElem (by simp)
  intro i hi hi'
  simp only [read, List.getElem_map, List.getElem_range]
  exact mem.write_apply_of_lt bytes hi'

end Mem

def leBytes : Nat → Nat → List UInt8
  | 0, _ => []
  | width + 1, value => UInt8.ofNat value :: leBytes width (value / 256)

def leValue : List UInt8 → Nat
  | [] => 0
  | byte :: rest => byte.toNat + 256 * leValue rest

@[simp] theorem leBytes_length (width value : Nat) :
    (leBytes width value).length = width := by
  induction width generalizing value with
  | zero => rfl
  | succ width ih => simp [leBytes, ih]

theorem leValue_leBytes (width value : Nat) :
    leValue (leBytes width value) = value % 256 ^ width := by
  induction width generalizing value with
  | zero => simp [leBytes, leValue, Nat.mod_one]
  | succ width ih =>
    rw [leBytes, leValue, ih, pow_succ' 256 width, Nat.mod_mul, UInt8.toNat_ofNat']

theorem leValue_leBytes_of_lt {width value : Nat} (h : value < 256 ^ width) :
    leValue (leBytes width value) = value := by
  rw [leValue_leBytes, Nat.mod_eq_of_lt h]

namespace Mem

def loadLE (mem : Mem) (width addr : Nat) : Nat :=
  leValue (mem.read addr width)

def storeLE (mem : Mem) (width addr value : Nat) : Mem :=
  mem.write addr (leBytes width value)

theorem loadLE_storeLE {width value : Nat} (mem : Mem) (addr : Nat)
    (h : value < 256 ^ width) :
    (mem.storeLE width addr value).loadLE width addr = value := by
  unfold loadLE storeLE
  have hread := mem.read_write_same addr (leBytes width value)
  rw [leBytes_length] at hread
  rw [hread, leValue_leBytes_of_lt h]

@[simp] theorem storeLE_eq_write (mem : Mem) (width addr value : Nat) :
    mem.storeLE width addr value = mem.write addr (leBytes width value) := rfl

theorem loadLE_congr {left right : Mem} {addr width : Nat}
    (h : ∀ x, addr ≤ x → x < addr + width → left x = right x) :
    left.loadLE width addr = right.loadLE width addr := by
  unfold loadLE
  rw [read_congr h]

def SameOutside (addr len : Nat) (old new : Mem) : Prop :=
  ∀ x, x < addr ∨ addr + len ≤ x → new x = old x

namespace SameOutside

variable {addr len : Nat} {old mid new : Mem}

theorem refl (mem : Mem) : SameOutside addr len mem mem := fun _ _ => rfl

theorem trans (h : SameOutside addr len old mid) (h' : SameOutside addr len mid new) :
    SameOutside addr len old new :=
  fun x hx => (h' x hx).trans (h x hx)

theorem write {at' : Nat} {bytes : List UInt8} (hlow : addr ≤ at')
    (hhigh : at' + bytes.length ≤ addr + len) (mem : Mem) :
    SameOutside addr len mem (mem.write at' bytes) := by
  intro x hx
  rcases hx with hx | hx
  · exact mem.write_apply_lt bytes (by omega)
  · exact mem.write_apply_ge bytes (by omega)

theorem writeByte (mem : Mem) (addr : Nat) (byte : UInt8) :
    SameOutside addr 1 mem (mem.write addr [byte]) :=
  write (Nat.le_refl _) (by simp) mem

theorem read_eq {at' count : Nat} (h : SameOutside addr len old new)
    (hdisj : at' + count ≤ addr ∨ addr + len ≤ at') :
    new.read at' count = old.read at' count :=
  read_congr fun x hlow hhigh => h x (by omega)

theorem loadLE_eq {at' width : Nat} (h : SameOutside addr len old new)
    (hdisj : at' + width ≤ addr ∨ addr + len ≤ at') :
    new.loadLE width at' = old.loadLE width at' :=
  loadLE_congr fun x hlow hhigh => h x (by omega)

end SameOutside

end Mem

end Corekit.Foundation
