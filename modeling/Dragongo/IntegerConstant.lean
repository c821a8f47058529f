import Dragongo.Evaluation

/-!
# Integer constants

`integer_constant_expression` gets the number from the frontend as an `mpz_t`.  It is put
into a 64-bit word first, its magnitude and its sign apart.
-/

namespace Dragongo

/-- The types that `checked_convert_mpz_to_int` is used at. -/
inductive WideInt
  | int64
  | uint64
deriving DecidableEq, Repr

namespace WideInt

/-- The number that a word holds. -/
def value : WideInt → BitVec 64 → ℤ
  | int64, w => w.toInt
  | uint64, w => w.toNat

/-- `-rval`.  Signed, it has a result for every word but the least, where the program gets
`overflow`, whatever the compiler makes of it. -/
def neg : WideInt → BitVec 64 → BitVec 64 → BitVec 64
  | int64, overflow, w => if w = BitVec.intMin 64 then overflow else -w
  | uint64, _, w => -w

end WideInt

/-- `mpz_sizeinbase` with base 2: the digits of the magnitude, one for zero. -/
def mpzSizeinbase (v : ℤ) : ℕ := v.natAbs.log2 + 1

/-- The words of the magnitude, the least significant one first, with zeros after those
that `mpz_export` writes. -/
def mpzExport (v : ℤ) (i : ℕ) : BitVec 64 := BitVec.ofNat 64 (v.natAbs / 2 ^ (64 * i))

def checkedConvertMpzToInt (wideint : WideInt) (overflow : BitVec 64) (v : ℤ) :
    Option (BitVec 64) :=
  let numbits := 64
  let count := (mpzSizeinbase v + numbits - 1) / numbits
  -- frontend should have insured this already
  if count ≤ 2 then
    let receive := mpzExport v
    -- frontend should have insured this already
    if receive 1 = 0 then
      let rval := receive 0
      some (if v < 0 then wideint.neg overflow rval else rval)
    else none
  else none

/-- `ConstantInt::isValueValidForType`, for a signed or an unsigned word. -/
def isValueValidForType : WideInt → ℕ → ℤ → Bool
  | .uint64, bits, val => if bits = 1 then val = 0 ∨ val = 1 else 64 ≤ bits ∨ val < 2 ^ bits
  | .int64, bits, val =>
    if bits = 1 then val = 0 ∨ val = 1 ∨ val = -1
    else 64 ≤ bits ∨ -2 ^ (bits - 1) ≤ val ∧ val < 2 ^ (bits - 1)

/-- The word that the number goes through. -/
def wideIntOf (isUnsigned : Bool) : WideInt := if isUnsigned then .uint64 else .int64

def integerConstantExpression (overflow : BitVec 64) (btype : Btype) (v : ℤ) :
    Option Bexpression :=
  match btype with
  | .integer isUnsigned bits => do
    let word ← checkedConvertMpzToInt (wideIntOf isUnsigned) overflow v
    let val := (wideIntOf isUnsigned).value word
    if isValueValidForType (wideIntOf isUnsigned) bits val then
      some (.expr btype (.constantInt bits val) {})
    else none
  | _ => none

namespace Bexpression

/-- The expression is a constant that a program reads as `v`. -/
def IsNumber (e : Bexpression) (isUnsigned : Bool) (bits : ℕ) (v : ℤ) : Prop :=
  ∃ x : BitVec bits, (∀ env : Env, e.value.bind env.eval = some (.int bits x)) ∧
    (if isUnsigned then (x.toNat : ℤ) else x.toInt) = v

theorem isNumber_constantInt {bt : Btype} {bits : ℕ} {n v : ℤ} {vc : VarContext}
    {isUnsigned : Bool} : (expr bt (.constantInt bits n) vc).IsNumber isUnsigned bits v ↔
      (if isUnsigned then ((BitVec.ofInt bits n).toNat : ℤ)
        else (BitVec.ofInt bits n).toInt) = v := by
  constructor
  · intro ⟨x, heval, hx⟩
    have h := heval (Env.const (.pointer 0))
    simp only [value, Option.bind_some, Env.eval, Option.some.injEq, Datum.int.injEq] at h
    rw [eq_of_heq h.2]
    exact hx
  · intro h
    exact ⟨_, fun _ => rfl, h⟩

end Bexpression

/-! ## The word -/

theorem mpzSizeinbase_le_iff {v : ℤ} {k : ℕ} (hk : 0 < k) :
    mpzSizeinbase v ≤ k ↔ v.natAbs < 2 ^ k := by
  unfold mpzSizeinbase
  by_cases hv : v.natAbs = 0
  · simp only [hv, Nat.log2_zero, Nat.two_pow_pos, iff_true]
    exact hk
  · rw [Nat.succ_le_iff, Nat.log2_lt hv]

theorem mpzExport_eq_zero_iff {v : ℤ} (hv : v.natAbs < 2 ^ 128) :
    mpzExport v 1 = 0 ↔ v.natAbs < 2 ^ 64 := by
  have hquot : v.natAbs / 2 ^ 64 < 2 ^ 64 := by omega
  rw [mpzExport, ← BitVec.toNat_inj, BitVec.toNat_ofNat, Nat.mod_eq_of_lt hquot]
  simp only [BitVec.ofNat_eq_ofNat, BitVec.toNat_ofNat, Nat.zero_mod]
  omega

/-- The number is taken if and only if its magnitude fits a word. -/
theorem checkedConvertMpzToInt_eq (wideint : WideInt) (overflow : BitVec 64) (v : ℤ) :
    checkedConvertMpzToInt wideint overflow v =
      if v.natAbs < 2 ^ 64 then
        some (if v < 0 then wideint.neg overflow (.ofNat 64 v.natAbs) else .ofNat 64 v.natAbs)
      else none := by
  have hcount : (mpzSizeinbase v + 64 - 1) / 64 ≤ 2 ↔ v.natAbs < 2 ^ 128 := by
    rw [← mpzSizeinbase_le_iff (by decide)]
    omega
  have hword : mpzExport v 0 = .ofNat 64 v.natAbs := by
    simp only [mpzExport, Nat.mul_zero, Nat.pow_zero, Nat.div_one]
  unfold checkedConvertMpzToInt
  by_cases hv : v.natAbs < 2 ^ 128
  · simp only [hcount, hv, if_true, mpzExport_eq_zero_iff hv, hword]
  · have hlarge : ¬ v.natAbs < 2 ^ 64 := by omega
    simp only [hcount, hv, hlarge, if_false]

theorem toInt_ofNat_64 {n : ℕ} (hn : n < 2 ^ 64) :
    (BitVec.ofNat 64 n).toInt = if n < 2 ^ 63 then (n : ℤ) else n - 2 ^ 64 := by
  rw [BitVec.toInt_eq_toNat_cond, BitVec.toNat_ofNat, Nat.mod_eq_of_lt hn]
  split <;> split <;> omega

theorem toInt_neg_ofNat_64 {n : ℕ} (hn : n < 2 ^ 64) (hpos : 0 < n) :
    (-BitVec.ofNat 64 n).toInt = if n ≤ 2 ^ 63 then -(n : ℤ) else 2 ^ 64 - n := by
  rw [BitVec.toInt_eq_toNat_cond, BitVec.toNat_neg, BitVec.toNat_ofNat, Nat.mod_eq_of_lt hn]
  have hmod : (2 ^ 64 - n) % 2 ^ 64 = 2 ^ 64 - n := Nat.mod_eq_of_lt (by omega)
  rw [hmod]
  split <;> split <;> omega

theorem ofNat_eq_intMin_iff {n : ℕ} (hn : n < 2 ^ 64) :
    BitVec.ofNat 64 n = BitVec.intMin 64 ↔ n = 2 ^ 63 := by
  rw [← BitVec.toNat_inj, BitVec.toNat_ofNat, Nat.mod_eq_of_lt hn]
  simp [BitVec.toNat_intMin]

/-- The number that the word holds. -/
def wordValue (wideint : WideInt) (overflow : BitVec 64) (v : ℤ) : ℤ :=
  match wideint with
  | .int64 =>
    if v = -2 ^ 63 then overflow.toInt
    else if v < -2 ^ 63 then v + 2 ^ 64
    else if v < 2 ^ 63 then v
    else v - 2 ^ 64
  | .uint64 => if v < 0 then v + 2 ^ 64 else v

theorem checkedConvertMpzToInt_value (wideint : WideInt) (overflow : BitVec 64) (v : ℤ) :
    (checkedConvertMpzToInt wideint overflow v).map wideint.value =
      if -2 ^ 64 < v ∧ v < 2 ^ 64 then some (wordValue wideint overflow v) else none := by
  rw [checkedConvertMpzToInt_eq]
  by_cases hv : v.natAbs < 2 ^ 64
  · have hrange : -2 ^ 64 < v ∧ v < 2 ^ 64 := by omega
    rw [if_pos hv, if_pos hrange, Option.map_some, Option.some.injEq]
    cases wideint with
    | int64 =>
      simp only [WideInt.value, WideInt.neg, wordValue, ofNat_eq_intMin_iff hv]
      by_cases hneg : v < 0
      · by_cases hmin : v = -2 ^ 63
        · rw [if_pos hneg, if_pos (by omega), if_pos hmin]
        · rw [if_pos hneg, if_neg (by omega), if_neg hmin, toInt_neg_ofNat_64 hv (by omega)]
          split <;> split <;> omega
      · rw [if_neg hneg, if_neg (by omega), if_neg (by omega), toInt_ofNat_64 hv]
        split <;> omega
    | uint64 =>
      simp only [WideInt.value, WideInt.neg, wordValue]
      by_cases hneg : v < 0
      · rw [if_pos hneg, if_pos hneg, BitVec.toNat_neg, BitVec.toNat_ofNat, Nat.mod_eq_of_lt hv,
          Nat.mod_eq_of_lt (by omega)]
        omega
      · rw [if_neg hneg, if_neg hneg, BitVec.toNat_ofNat, Nat.mod_eq_of_lt hv]
        omega
  · have hrange : ¬ (-2 ^ 64 < v ∧ v < 2 ^ 64) := by omega
    rw [if_neg hv, if_neg hrange, Option.map_none]

theorem wordValue_range (wideint : WideInt) (overflow : BitVec 64) {v : ℤ}
    (hv : -2 ^ 64 < v ∧ v < 2 ^ 64) :
    match wideint with
    | .int64 => -2 ^ 63 ≤ wordValue wideint overflow v ∧ wordValue wideint overflow v < 2 ^ 63
    | .uint64 => 0 ≤ wordValue wideint overflow v ∧ wordValue wideint overflow v < 2 ^ 64 := by
  cases wideint with
  | int64 =>
    have hle := BitVec.le_toInt overflow
    have hlt := BitVec.toInt_lt (x := overflow)
    simp only [wordValue]
    norm_num at hle hlt ⊢
    split <;> omega
  | uint64 =>
    simp only [wordValue]
    split <;> omega

/-! ## The constant -/

theorem toNat_ofInt_of_valid {bits : ℕ} {n : ℤ} (hn : 0 ≤ n ∧ n < 2 ^ 64)
    (h : isValueValidForType .uint64 bits n) : ((BitVec.ofInt bits n).toNat : ℤ) = n := by
  have hlt : n < 2 ^ bits := by
    by_cases h1 : bits = 1
    · simp only [isValueValidForType, h1, if_true, decide_eq_true_eq] at h
      subst h1
      omega
    · simp only [isValueValidForType, h1, if_false, decide_eq_true_eq] at h
      rcases h with h64 | hlt
      · calc n < 2 ^ 64 := hn.2
          _ ≤ 2 ^ bits := pow_le_pow_right₀ (by decide) h64
      · exact hlt
  rw [BitVec.toNat_ofInt]
  push_cast
  rw [Int.emod_eq_of_lt hn.1 hlt]
  exact Int.toNat_of_nonneg hn.1

theorem toInt_ofInt_of_valid {bits : ℕ} {n : ℤ} (hbits : 1 ≤ bits)
    (hn : -2 ^ 63 ≤ n ∧ n < 2 ^ 63) (h : isValueValidForType .int64 bits n) :
    (BitVec.ofInt bits n).toInt = if bits = 1 ∧ n = 1 then -1 else n := by
  by_cases h1 : bits = 1
  · simp only [isValueValidForType, h1, if_true, decide_eq_true_eq] at h
    subst h1
    rcases h with rfl | rfl | rfl <;> rfl
  · rw [if_neg fun h => h1 h.1]
    simp only [isValueValidForType, h1, if_false, decide_eq_true_eq] at h
    have hrange : -2 ^ (bits - 1) ≤ n ∧ n < 2 ^ (bits - 1) := by
      rcases h with h64 | hrange
      · have hle : (2 : ℤ) ^ 63 ≤ 2 ^ (bits - 1) := pow_le_pow_right₀ (by decide) (by omega)
        omega
      · exact hrange
    exact BitVec.toInt_ofInt_eq_self hbits hrange.1 hrange.2

theorem integerConstantExpression_eq (overflow : BitVec 64) (isUnsigned : Bool) (bits : ℕ) (v : ℤ) :
    integerConstantExpression overflow (.integer isUnsigned bits) v =
      let n := wordValue (wideIntOf isUnsigned) overflow v
      if (-2 ^ 64 < v ∧ v < 2 ^ 64) ∧ isValueValidForType (wideIntOf isUnsigned) bits n then
        some (.expr (.integer isUnsigned bits) (.constantInt bits n) {})
      else none := by
  have h := checkedConvertMpzToInt_value (wideIntOf isUnsigned) overflow v
  unfold integerConstantExpression
  cases hw : checkedConvertMpzToInt (wideIntOf isUnsigned) overflow v with
  | none =>
    rw [hw, Option.map_none] at h
    have hv : ¬ (-2 ^ 64 < v ∧ v < 2 ^ 64) := fun hv => by simp only [if_pos hv] at h; cases h
    simp only [Option.bind_eq_bind, hw, Option.bind_none, hv, false_and, if_false]
  | some w =>
    rw [hw, Option.map_some] at h
    have hv : -2 ^ 64 < v ∧ v < 2 ^ 64 := by
      by_contra hv
      rw [if_neg hv] at h
      cases h
    rw [if_pos hv, Option.some.injEq] at h
    simp only [Option.bind_eq_bind, hw, Option.bind_some, h, hv, true_and, and_self]

theorem forall_integerConstantExpression_iff {overflow : BitVec 64} {isUnsigned : Bool}
    {bits : ℕ} {v : ℤ} {P : Bexpression → Prop} :
    (∀ e, integerConstantExpression overflow (.integer isUnsigned bits) v = some e → P e) ↔
      (-2 ^ 64 < v ∧ v < 2 ^ 64 →
        isValueValidForType (wideIntOf isUnsigned) bits
          (wordValue (wideIntOf isUnsigned) overflow v) →
        P (.expr (.integer isUnsigned bits)
          (.constantInt bits (wordValue (wideIntOf isUnsigned) overflow v)) {})) := by
  rw [integerConstantExpression_eq]
  constructor
  · intro h hv hvalid
    exact h _ (if_pos ⟨hv, hvalid⟩)
  · intro h e he
    dsimp only at he
    split at he
    · rename_i hc
      cases he
      exact h hc.1 hc.2
    · cases he

/-- The numbers that a signed type of `bits` bits keeps, or refuses. -/
def SignedExact (overflow : BitVec 64) (bits : ℕ) (v : ℤ) : Prop :=
  (bits = 1 → v ≠ 1) ∧
  (v = -2 ^ 63 → overflow = BitVec.intMin 64 ∨ ¬ isValueValidForType .int64 bits overflow.toInt) ∧
  (2 ^ 63 ≤ v → v < 2 ^ 64 → ¬ isValueValidForType .int64 bits (v - 2 ^ 64)) ∧
  (-2 ^ 64 < v → v < -2 ^ 63 → ¬ isValueValidForType .int64 bits (v + 2 ^ 64))

/-- The numbers that an unsigned type of `bits` bits keeps, or refuses. -/
def UnsignedExact (bits : ℕ) (v : ℤ) : Prop :=
  -2 ^ 64 < v → v < 0 → ¬ isValueValidForType .uint64 bits (v + 2 ^ 64)

theorem unsigned_exact_iff (overflow : BitVec 64) (bits : ℕ) (v : ℤ) :
    (∀ e, integerConstantExpression overflow (.integer true bits) v = some e →
      e.IsNumber true bits v) ↔ UnsignedExact bits v := by
  rw [forall_integerConstantExpression_iff]
  unfold UnsignedExact
  simp only [wideIntOf, if_true, Bexpression.isNumber_constantInt]
  constructor
  · intro h hlow hneg hvalid
    have hword : wordValue .uint64 overflow v = v + 2 ^ 64 := if_pos hneg
    have hv : -2 ^ 64 < v ∧ v < 2 ^ 64 := by omega
    rw [hword] at h
    have hn := h hv hvalid
    rw [toNat_ofInt_of_valid (by omega) hvalid] at hn
    omega
  · intro h hv hvalid
    rw [toNat_ofInt_of_valid (wordValue_range .uint64 overflow hv) hvalid]
    by_cases hneg : v < 0
    · have hword : wordValue .uint64 overflow v = v + 2 ^ 64 := if_pos hneg
      rw [hword] at hvalid
      exact absurd hvalid (h hv.1 hneg)
    · exact if_neg hneg

theorem signed_exact_iff (overflow : BitVec 64) {bits : ℕ} (hbits : 1 ≤ bits) (v : ℤ) :
    (∀ e, integerConstantExpression overflow (.integer false bits) v = some e →
      e.IsNumber false bits v) ↔ SignedExact overflow bits v := by
  rw [forall_integerConstantExpression_iff]
  simp only [wideIntOf, Bool.false_eq_true, if_false, Bexpression.isNumber_constantInt]
  have hkept : ∀ hv : -2 ^ 64 < v ∧ v < 2 ^ 64,
      isValueValidForType .int64 bits (wordValue .int64 overflow v) →
      ((BitVec.ofInt bits (wordValue .int64 overflow v)).toInt = v ↔
        wordValue .int64 overflow v = v ∧ ¬ (bits = 1 ∧ v = 1)) := by
    intro hv hvalid
    rw [toInt_ofInt_of_valid hbits (wordValue_range .int64 overflow hv) hvalid]
    have hrange := wordValue_range .int64 overflow hv
    dsimp only at hrange
    have hminus : v = -1 → wordValue .int64 overflow v = -1 := by
      rintro rfl
      rfl
    generalize wordValue .int64 overflow v = n at hrange hminus ⊢
    split <;> omega
  have hmin : overflow = BitVec.intMin 64 ↔ overflow.toInt = -2 ^ 63 := by
    rw [← BitVec.toInt_inj]
    rfl
  have hone : isValueValidForType .int64 1 1 := rfl
  constructor
  · intro h
    refine ⟨?_, ?_, ?_, ?_⟩
    · rintro rfl rfl
      have hword : wordValue .int64 overflow 1 = 1 := rfl
      rw [hword] at h hkept
      exact ((hkept (by decide) hone).mp (h (by decide) hone)).2 ⟨rfl, rfl⟩
    · intro hv
      have hword : wordValue .int64 overflow v = overflow.toInt := if_pos hv
      rw [hword] at h hkept
      by_cases hvalid : isValueValidForType .int64 bits overflow.toInt
      · left
        rw [hmin, ← hv]
        exact ((hkept (by omega) hvalid).mp (h (by omega) hvalid)).1
      · exact .inr hvalid
    · intro hlow hhigh hvalid
      have hword : wordValue .int64 overflow v = v - 2 ^ 64 := by
        rw [wordValue, if_neg (by omega), if_neg (by omega), if_neg (by omega)]
      rw [hword] at h hkept
      have hn := ((hkept (by omega) hvalid).mp (h (by omega) hvalid)).1
      omega
    · intro hlow hhigh hvalid
      have hword : wordValue .int64 overflow v = v + 2 ^ 64 := by
        rw [wordValue, if_neg (by omega), if_pos (by omega)]
      rw [hword] at h hkept
      have hn := ((hkept (by omega) hvalid).mp (h (by omega) hvalid)).1
      omega
  · intro ⟨hbit, hleast, hhigh, hlow⟩ hv hvalid
    refine (hkept hv hvalid).mpr ⟨?_, fun hb => hbit hb.1 hb.2⟩
    simp only [wordValue] at hvalid ⊢
    split
    · rename_i hvmin
      rw [if_pos hvmin] at hvalid
      rcases hleast hvmin with ho | ho
      · rw [hmin.mp ho, hvmin]
      · exact absurd hvalid ho
    · rename_i hvmin
      rw [if_neg hvmin] at hvalid
      split
      · rename_i hneg
        rw [if_pos hneg] at hvalid
        exact absurd hvalid (hlow hv.1 hneg)
      · rename_i hneg
        rw [if_neg hneg] at hvalid
        split
        · rfl
        · rename_i hpos
          rw [if_neg hpos] at hvalid
          exact absurd hvalid (hhigh (by omega) hv.2)

theorem int64_exact_iff (overflow : BitVec 64) (v : ℤ) :
    (∀ w, checkedConvertMpzToInt .int64 overflow v = some w → w.toInt = v) ↔
      v ≤ -2 ^ 64 ∨ 2 ^ 64 ≤ v ∨ -2 ^ 63 < v ∧ v < 2 ^ 63 ∨
        v = -2 ^ 63 ∧ overflow = BitVec.intMin 64 := by
  have h := checkedConvertMpzToInt_value .int64 overflow v
  have hmin : overflow = BitVec.intMin 64 ↔ overflow.toInt = -2 ^ 63 := by
    rw [← BitVec.toInt_inj]
    rfl
  rw [hmin]
  simp only [wordValue] at h
  cases hw : checkedConvertMpzToInt .int64 overflow v with
  | none =>
    have hv : ¬ (-2 ^ 64 < v ∧ v < 2 ^ 64) := fun hv => by
      rw [hw, if_pos hv] at h
      cases h
    simp only [reduceCtorEq, false_implies, implies_true, true_iff]
    omega
  | some w =>
    have hv : -2 ^ 64 < v ∧ v < 2 ^ 64 := by
      by_contra hv
      rw [hw, if_neg hv] at h
      cases h
    rw [hw, if_pos hv, Option.map_some, Option.some.injEq] at h
    simp only [Option.some.injEq, forall_eq']
    change WideInt.int64.value w = v ↔ _
    rw [h]
    split <;> omega

theorem uint64_exact_iff (overflow : BitVec 64) (v : ℤ) :
    (∀ w, checkedConvertMpzToInt .uint64 overflow v = some w → (w.toNat : ℤ) = v) ↔
      v ≤ -2 ^ 64 ∨ 0 ≤ v := by
  have h := checkedConvertMpzToInt_value .uint64 overflow v
  simp only [wordValue] at h
  cases hw : checkedConvertMpzToInt .uint64 overflow v with
  | none =>
    have hv : ¬ (-2 ^ 64 < v ∧ v < 2 ^ 64) := fun hv => by
      rw [hw, if_pos hv] at h
      cases h
    simp only [reduceCtorEq, false_implies, implies_true, true_iff]
    omega
  | some w =>
    have hv : -2 ^ 64 < v ∧ v < 2 ^ 64 := by
      by_contra hv
      rw [hw, if_neg hv] at h
      cases h
    rw [hw, if_pos hv, Option.map_some, Option.some.injEq] at h
    simp only [Option.some.injEq, forall_eq']
    change WideInt.uint64.value w = v ↔ _
    rw [h]
    split <;> omega

/-- The numbers that reach the program as they are, or are refused. -/
theorem integer_constant_exact_iff (overflow : BitVec 64) (v : ℤ) {bits : ℕ} (hbits : 1 ≤ bits) :
    ((∀ w, checkedConvertMpzToInt .int64 overflow v = some w → w.toInt = v) ↔
      v ≤ -2 ^ 64 ∨ 2 ^ 64 ≤ v ∨ -2 ^ 63 < v ∧ v < 2 ^ 63 ∨
        v = -2 ^ 63 ∧ overflow = BitVec.intMin 64) ∧
    ((∀ w, checkedConvertMpzToInt .uint64 overflow v = some w → (w.toNat : ℤ) = v) ↔
      v ≤ -2 ^ 64 ∨ 0 ≤ v) ∧
    ((∀ e, integerConstantExpression overflow (.integer false bits) v = some e →
      e.IsNumber false bits v) ↔ SignedExact overflow bits v) ∧
    ((∀ e, integerConstantExpression overflow (.integer true bits) v = some e →
      e.IsNumber true bits v) ↔ UnsignedExact bits v) :=
  ⟨int64_exact_iff overflow v, uint64_exact_iff overflow v, signed_exact_iff overflow hbits v,
    unsigned_exact_iff overflow bits v⟩

theorem seven_exact : SignedExact (BitVec.intMin 64) 8 7 ∧ UnsignedExact 8 7 := by
  have h := integer_constant_exact_iff (BitVec.intMin 64) 7 (show 1 ≤ 8 by decide)
  constructor
  · apply h.2.2.1.mp
    intro e he
    rw [integerConstantExpression_eq] at he
    cases he
    exact Bexpression.isNumber_constantInt.mpr rfl
  · apply h.2.2.2.mp
    intro e he
    rw [integerConstantExpression_eq] at he
    cases he
    exact Bexpression.isNumber_constantInt.mpr rfl

/-- Minus one becomes the greatest unsigned word and 2^63 the least signed one. -/
theorem not_integer_constant_exact :
    ¬ (∀ (overflow : BitVec 64) (v : ℤ) (w : BitVec 64),
      checkedConvertMpzToInt .int64 overflow v = some w → w.toInt = v) ∧
    ¬ (∀ (overflow : BitVec 64) (v : ℤ) (w : BitVec 64),
      checkedConvertMpzToInt .uint64 overflow v = some w → (w.toNat : ℤ) = v) ∧
    ¬ (∀ (overflow : BitVec 64) (isUnsigned : Bool) (bits : ℕ) (v : ℤ) (e : Bexpression), 1 ≤ bits →
      integerConstantExpression overflow (.integer isUnsigned bits) v = some e →
      e.IsNumber isUnsigned bits v) := by
  have hneg : checkedConvertMpzToInt .uint64 0 (-1) = some (BitVec.allOnes 64) := by
    rw [checkedConvertMpzToInt_eq]
    decide
  have hhigh : checkedConvertMpzToInt .int64 0 (2 ^ 63) = some (BitVec.intMin 64) := by
    rw [checkedConvertMpzToInt_eq]
    decide
  refine ⟨fun h => ?_, fun h => ?_, fun h => ?_⟩
  · have hn := h 0 (2 ^ 63) _ hhigh
    revert hn
    decide
  · have hn := h 0 (-1) _ hneg
    revert hn
    decide
  · have hword : integerConstantExpression 0 (.integer true 64) (-1) =
        some (.expr (.integer true 64) (.constantInt 64 (2 ^ 64 - 1)) {}) := by
      rw [integerConstantExpression_eq]
      rfl
    have hn := Bexpression.isNumber_constantInt.mp (h 0 true 64 (-1) _ (by decide) hword)
    revert hn
    decide

end Dragongo
