import Mathlib.Data.List.Basic

/-!
# Unsigned LEB128

A codec writes a 64-bit number as a self-delimiting run of bytes.  `Codec` asks
only for what a reader relies on: decoding in front of any further bytes gives
back the number and the number of bytes it took.  `uleb128` is the usual code of
seven bits a byte, lowest group first.
-/

namespace ULEB128

/-- An encoder and a decoder of 64-bit numbers that undo each other in front of
any further bytes. -/
structure Codec where
  encode : UInt64 → List UInt8
  decode : List UInt8 → UInt64 × ℕ
  decode_encode : ∀ v rest, decode (encode v ++ rest) = (v, (encode v).length)

namespace Codec

variable (c : Codec)

@[simp] theorem decode_encode_self (v : UInt64) :
    c.decode (c.encode v) = (v, (c.encode v).length) := by
  simpa using c.decode_encode v []

/-- A self-delimiting code of more than one number has no empty word. -/
theorem encode_ne_nil (v : UInt64) : c.encode v ≠ [] := by
  intro h
  have h1 : ∀ w, c.decode (c.encode w) = (v, 0) := by
    intro w
    simpa [h] using c.decode_encode v (c.encode w)
  have h0 : v = 0 := congrArg Prod.fst ((h1 0).symm.trans (c.decode_encode_self 0))
  have h2 : v = 1 := congrArg Prod.fst ((h1 1).symm.trans (c.decode_encode_self 1))
  exact absurd (h0.symm.trans h2) (by decide)

theorem encode_length_pos (v : UInt64) : 0 < (c.encode v).length :=
  List.length_pos_iff.mpr (c.encode_ne_nil v)

end Codec

/-- `n` in groups of seven bits, all but the last with the high bit set. -/
def groups (n : ℕ) : List UInt8 :=
  if n < 128 then [UInt8.ofNat n] else UInt8.ofNat (n % 128 + 128) :: groups (n / 128)
termination_by n
decreasing_by omega

theorem groups_of_lt {n : ℕ} (h : n < 128) : groups n = [UInt8.ofNat n] := by
  rw [groups, if_pos h]

/-- The number at the front of the bytes and the number of bytes it took. -/
def ungroup : List UInt8 → ℕ × ℕ
  | [] => (0, 0)
  | b :: rest =>
    if b.toNat < 128 then (b.toNat, 1)
    else (b.toNat - 128 + 128 * (ungroup rest).1, (ungroup rest).2 + 1)

theorem ungroup_groups (n : ℕ) (rest : List UInt8) :
    ungroup (groups n ++ rest) = (n, (groups n).length) := by
  induction n using Nat.strongRecOn with
  | ind n ih =>
    rw [groups]
    split_ifs with h
    · simp [ungroup, Nat.mod_eq_of_lt (by omega : n < 256), h]
    · have hb : (UInt8.ofNat (n % 128 + 128)).toNat = n % 128 + 128 := by
        simp [Nat.mod_eq_of_lt (by omega : n % 128 + 128 < 256)]
      simp only [List.cons_append, ungroup, hb, ih (n / 128) (by omega), List.length_cons,
        if_neg (by omega : ¬n % 128 + 128 < 128)]
      rw [Prod.mk.injEq]
      exact ⟨by omega, rfl⟩

def uleb128 : Codec where
  encode v := groups v.toNat
  decode bytes := (UInt64.ofNat (ungroup bytes).1, (ungroup bytes).2)
  decode_encode v rest := by simp [ungroup_groups]

end ULEB128
