import Mathlib.Tactic.Ring

/-!
# Numbers stored with the low byte first

The number that the first bytes of a memory make, and the bytes of a number.  A shorter read
gives the low bits of a longer one.
-/

namespace LittleEndian

/-- The number in the `k` bytes from the first one on, where `byte i` is the `i`-th. -/
def read (byte : ℕ → BitVec 8) : ℕ → ℕ
  | 0 => 0
  | k + 1 => read byte k + (byte k).toNat * 256 ^ k

variable {byte : ℕ → BitVec 8}

theorem read_lt (k : ℕ) : read byte k < 256 ^ k := by
  induction k with
  | zero => exact Nat.one_pos
  | succ k ih =>
    have hb : (byte k).toNat ≤ 255 := Nat.le_of_lt_succ (byte k).isLt
    calc
      read byte k + (byte k).toNat * 256 ^ k < 256 ^ k + 255 * 256 ^ k :=
        Nat.add_lt_add_of_lt_of_le ih (Nat.mul_le_mul_right _ hb)
      _ = 256 ^ (k + 1) := by ring

theorem read_mod_of_le {j k : ℕ} (h : j ≤ k) : read byte k % 256 ^ j = read byte j := by
  induction k, h using Nat.le_induction with
  | base => exact Nat.mod_eq_of_lt (read_lt j)
  | succ k hjk ih =>
    obtain ⟨d, rfl⟩ := Nat.exists_eq_add_of_le hjk
    have : (byte (j + d)).toNat * 256 ^ (j + d) =
        256 ^ j * ((byte (j + d)).toNat * 256 ^ d) := by ring
    rw [read, this, Nat.add_mul_mod_self_left, ih]

/-- A read of enough bytes for `n` bits, cut to `n` bits, does not depend on how many
bytes there were. -/
theorem read_mod_two_pow {n j k : ℕ} (hj : n ≤ 8 * j) (hjk : j ≤ k) :
    read byte k % 2 ^ n = read byte j % 2 ^ n := by
  have hdvd : 2 ^ n ∣ 256 ^ j := by
    rw [show 256 = 2 ^ 8 from rfl, ← pow_mul]
    exact pow_dvd_pow 2 hj
  rw [← read_mod_of_le hjk, Nat.mod_mod_of_dvd _ hdvd]

theorem testBit_read {k i : ℕ} (h : i < 8 * k) :
    (read byte k).testBit i = (byte (i / 8)).getLsbD (i % 8) := by
  induction k with
  | zero => omega
  | succ k ih =>
    have hpow : 256 ^ k = 2 ^ (8 * k) := by rw [pow_mul]; rfl
    have hlt : read byte k < 2 ^ (8 * k) := hpow ▸ read_lt k
    rw [read, hpow, Nat.add_comm, Nat.mul_comm, Nat.testBit_two_pow_mul_add _ hlt]
    split_ifs with hi
    · exact ih hi
    · have hdiv : i / 8 = k := by omega
      have hmod : i % 8 = i - 8 * k := by omega
      rw [hdiv, hmod]
      rfl

/-- The low `k` bytes of a number. -/
def bytes (k n : ℕ) : List (BitVec 8) := (List.range k).map fun i => BitVec.ofNat 8 (n / 256 ^ i)

@[simp] theorem length_bytes (k n : ℕ) : (bytes k n).length = k := by simp [bytes]

theorem read_of_bytes {k n : ℕ} (h : ∀ i < k, byte i = BitVec.ofNat 8 (n / 256 ^ i)) :
    read byte k = n % 256 ^ k := by
  induction k with
  | zero => exact (Nat.mod_one n).symm
  | succ k ih =>
    have hlow : read byte k = n % 256 ^ k := ih fun i hi => h i (Nat.lt_succ_of_lt hi)
    have hsplit : n % 256 ^ (k + 1) = n % 256 ^ k + 256 ^ k * (n / 256 ^ k % 256) :=
      Nat.mod_pow_succ
    rw [read, hlow, h k (Nat.lt_succ_self k), BitVec.toNat_ofNat, hsplit, Nat.mul_comm]

/-- The number that a list of bytes makes. -/
def ofBytes (bs : List (BitVec 8)) : ℕ := read (fun i => bs.getD i 0) bs.length

@[simp] theorem ofBytes_bytes (k n : ℕ) : ofBytes (bytes k n) = n % 256 ^ k := by
  rw [ofBytes, length_bytes]
  refine read_of_bytes fun i hi => ?_
  simp [bytes, hi]

/-- A byte of the number. -/
theorem ofNat_read_div {i k : ℕ} (h : i < k) : BitVec.ofNat 8 (read byte k / 256 ^ i) = byte i := by
  apply BitVec.eq_of_toNat_eq
  have hpow : 256 ^ (i + 1) = 256 ^ i * 256 := pow_succ 256 i
  rw [BitVec.toNat_ofNat, ← Nat.mod_mul_right_div_self, ← hpow, read_mod_of_le h, read,
    Nat.add_mul_div_right _ _ (Nat.pow_pos (by decide)), Nat.div_eq_of_lt (read_lt i),
    Nat.zero_add]

@[simp] theorem bytes_ofBytes (bs : List (BitVec 8)) : bytes bs.length (ofBytes bs) = bs := by
  apply List.ext_getElem (length_bytes ..)
  intro i _ hi
  simp only [bytes, List.getElem_map, List.getElem_range]
  rw [ofBytes, ofNat_read_div hi, List.getD_eq_getElem?_getD, List.getElem?_eq_getElem hi]
  rfl

end LittleEndian
