import Std.Data.TreeMap

/-!
# The data memory

A number of cells, addressed from 0, each of which holds a word. All cells are zero at first, and
only those that were written are kept, so a large memory costs no more than a small one.

* `Memory.get_set`: what a cell holds after a write
-/

namespace MiniC

/-- A machine word. -/
abbrev Word := Int64

/-- A memory: how many cells it has, and the words of those that were written. -/
structure Memory where
  size : Nat
  written : Std.TreeMap Nat Word

namespace Memory

/-- The number of cells from which on no memory can be had, `2 ^ 60`: a word takes eight bytes, and
the bytes of a memory are counted by a signed 64-bit number. -/
def sizeLimit : Nat := 1152921504606846976

/-- A memory whose cells are zero. -/
def zeros (size : Nat) : Memory :=
  ⟨size, ∅⟩

/-- The word of a cell. -/
def get (m : Memory) (address : Nat) : Word :=
  m.written.getD address 0

/-- Gives a cell a word. -/
def set (m : Memory) (address : Nat) (w : Word) : Memory :=
  { m with written := m.written.insert address w }

/-- The cells that are not zero, by address. -/
def nonzero (m : Memory) : List (Nat × Word) :=
  m.written.toList.filter fun (_, w) => w ≠ 0

@[simp]
theorem get_zeros (size address : Nat) : (zeros size).get address = 0 := by
  simp [zeros, get]

theorem get_set (m : Memory) (a b : Nat) (w : Word) :
    (m.set a w).get b = if a = b then w else m.get b := by
  simp [get, set, Std.TreeMap.getD_insert]

@[simp]
theorem size_zeros (size : Nat) : (zeros size).size = size :=
  rfl

@[simp]
theorem size_set (m : Memory) (address : Nat) (w : Word) : (m.set address w).size = m.size :=
  rfl

end Memory

end MiniC
