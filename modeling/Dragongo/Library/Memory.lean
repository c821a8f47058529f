import Mathlib.Algebra.Order.Ring.Nat
import Mathlib.Data.List.Basic
import Mathlib.Data.Set.Lattice
import Mathlib.Order.CompletePartialOrder

/-!
# Memory with modular addresses

A memory gives each address a cell.  A region is a number of cells from an address on, and
may go around the end of the address space.
-/

namespace Memory

variable {w : ℕ} {β : Type*}

/-- The addresses of `n` cells from `a` on. -/
def region (a : BitVec w) (n : ℕ) : Set (BitVec w) := {b | (b - a).toNat < n}

def read (m : BitVec w → β) (a : BitVec w) (n : ℕ) : List β :=
  (List.range n).map fun i => m (a + BitVec.ofNat w i)

def write (m : BitVec w → β) (a : BitVec w) (cells : List β) : BitVec w → β :=
  fun b => (cells[(b - a).toNat]?).getD (m b)

section Region

variable {a b : BitVec w} {k n size : ℕ}

theorem mem_region : b ∈ region a n ↔ (b - a).toNat < n := Iff.rfl

theorem add_sub_self (a b : BitVec w) : a + b - a = b := by
  rw [BitVec.add_comm, BitVec.add_sub_cancel]

theorem add_mem_region {i : ℕ} (h : i < n) : a + BitVec.ofNat w i ∈ region a n := by
  rw [mem_region, add_sub_self, BitVec.toNat_ofNat]
  exact Nat.lt_of_le_of_lt (Nat.mod_le _ _) h

theorem exists_of_mem_region (h : b ∈ region a n) : ∃ i < n, b = a + BitVec.ofNat w i := by
  refine ⟨(b - a).toNat, h, ?_⟩
  rw [BitVec.ofNat_toNat, BitVec.setWidth_eq, BitVec.add_comm, BitVec.sub_add_cancel]

/-- A part of a region is inside it. -/
theorem region_add_subset (h : k + n ≤ size) :
    region (a + BitVec.ofNat w k) n ⊆ region a size := by
  intro b hb
  obtain ⟨i, hi, rfl⟩ := exists_of_mem_region hb
  rw [BitVec.add_assoc, ← BitVec.ofNat_add]
  exact add_mem_region (Nat.lt_of_lt_of_le (Nat.add_lt_add_left hi k) h)

theorem sub_toNat_of_lt {i : ℕ} (h : i < 2 ^ w) : (a + BitVec.ofNat w i - a).toNat = i := by
  rw [add_sub_self, BitVec.toNat_ofNat, Nat.mod_eq_of_lt h]

/-- Two parts of a region that are apart in it have no address in common. -/
theorem disjoint_region_add {k' n' : ℕ} (h : k + n ≤ k') (h' : k' + n' ≤ 2 ^ w) :
    Disjoint (region (a + BitVec.ofNat w k) n) (region (a + BitVec.ofNat w k') n') := by
  rw [Set.disjoint_left]
  intro b hb hb'
  obtain ⟨i, hi, rfl⟩ := exists_of_mem_region hb
  obtain ⟨j, hj, heq⟩ := exists_of_mem_region hb'
  rw [BitVec.add_assoc, BitVec.add_assoc, ← BitVec.ofNat_add, ← BitVec.ofNat_add] at heq
  have hij : (a + BitVec.ofNat w (k + i) - a).toNat = (a + BitVec.ofNat w (k' + j) - a).toNat := by
    rw [heq]
  rw [sub_toNat_of_lt (by omega), sub_toNat_of_lt (by omega)] at hij
  omega

end Region

section Read

variable {m m' : BitVec w → β} {a : BitVec w} {k n size : ℕ}

@[simp] theorem length_read : (read m a n).length = n := by simp [read]

theorem getElem?_read {i : ℕ} (h : i < n) :
    (read m a n)[i]? = some (m (a + BitVec.ofNat w i)) := by
  simp [read, h]

theorem read_congr (h : ∀ b ∈ region a n, m b = m' b) : read m a n = read m' a n := by
  refine List.map_congr_left fun i hi => h _ (add_mem_region ?_)
  simpa using hi

/-- The contents of a part are a part of the contents. -/
theorem read_add (h : k + n ≤ size) :
    read m (a + BitVec.ofNat w k) n = ((read m a size).drop k).take n := by
  apply List.ext_getElem?
  intro i
  by_cases hi : i < n
  · rw [getElem?_read hi, List.getElem?_take_of_lt hi, List.getElem?_drop,
      getElem?_read (by omega), BitVec.add_assoc, ← BitVec.ofNat_add]
  · rw [List.getElem?_eq_none (by simpa using hi), List.getElem?_eq_none]
    simp
    omega

end Read

section Write

variable {m : BitVec w → β} {a b : BitVec w} {cells : List β} {n : ℕ}

theorem write_of_notMem (h : b ∉ region a cells.length) : write m a cells b = m b := by
  rw [mem_region, Nat.not_lt] at h
  rw [write, List.getElem?_eq_none h, Option.getD_none]

theorem write_add {i : ℕ} (h : i < cells.length) (hsize : cells.length ≤ 2 ^ w) :
    some (write m a cells (a + BitVec.ofNat w i)) = cells[i]? := by
  rw [write, sub_toNat_of_lt (Nat.lt_of_lt_of_le h hsize), List.getElem?_eq_getElem h]
  rfl

theorem read_write (hsize : cells.length ≤ 2 ^ w) :
    read (write m a cells) a cells.length = cells := by
  apply List.ext_getElem?
  intro i
  by_cases hi : i < cells.length
  · rw [getElem?_read hi, write_add hi hsize]
  · rw [List.getElem?_eq_none (by simpa using hi), List.getElem?_eq_none (by omega)]

theorem read_write_of_disjoint (h : Disjoint (region b n) (region a cells.length)) :
    read (write m a cells) b n = read m b n :=
  read_congr fun _ hc => write_of_notMem (Set.disjoint_left.mp h hc)

end Write

end Memory
