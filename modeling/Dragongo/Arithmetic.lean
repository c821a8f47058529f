import Dragongo.Comparison

/-!
# Arithmetic

`binary_expression` on an operator that is not a comparison makes one instruction, or folds two
constants; the unary operators that are not NOT do so with a constant.
-/

namespace Dragongo
open LType Varexpr_context

/-- The operators that are no comparisons.  The last four are not handled. -/
inductive ArithmeticOp
  | OPERATOR_PLUS
  | OPERATOR_MINUS
  | OPERATOR_MULT
  | OPERATOR_DIV
  | OPERATOR_MOD
  | OPERATOR_OROR
  | OPERATOR_ANDAND
  | OPERATOR_AND
  | OPERATOR_XOR
  | OPERATOR_OR
  | OPERATOR_LSHIFT
  | OPERATOR_RSHIFT
  | OPERATOR_BITCLEAR
deriving DecidableEq, Repr

open ArithmeticOp

inductive Opcode
  | Add
  | Sub
  | Mul
  | UDiv
  | SDiv
  | URem
  | SRem
  | And
  | Or
  | Xor
  | FAdd
  | FSub
  | FMul
  | FDiv
deriving DecidableEq, Repr

open Opcode

def ArithmeticOp.opcode (op : ArithmeticOp) (isFloat isUnsigned : Bool) : Option Opcode :=
  match op with
  | OPERATOR_MINUS => some (if isFloat then FSub else Sub)
  | OPERATOR_PLUS => some (if isFloat then FAdd else Add)
  | OPERATOR_MULT => some (if isFloat then FMul else Mul)
  | OPERATOR_MOD => if isFloat then none else some (if isUnsigned then URem else SRem)
  | OPERATOR_DIV => some (if isFloat then FDiv else if isUnsigned then UDiv else SDiv)
  | OPERATOR_OROR => if isFloat then none else some Or
  | OPERATOR_ANDAND | OPERATOR_AND => if isFloat then none else some And
  | OPERATOR_XOR => if isFloat then none else some Xor
  | OPERATOR_OR | OPERATOR_LSHIFT | OPERATOR_RSHIFT | OPERATOR_BITCLEAR => none

/-- What a builder makes for an operator: an instruction, or a constant that it folds. -/
structure Emitted where
  id : ℕ
  folded : Bool
  opcode : Opcode
  left : Value
  right : Value

def Emitted.value (i : Emitted) : Value :=
  if i.folded then .constant i.id i.left.type else .instruction i.id i.left.type

/-- Two constants are folded. -/
def emit (n : ℕ) (opcode : Opcode) (left right : Value) : Emitted :=
  ⟨n, left.isConstant && right.isConstant, opcode, left, right⟩

section Expressions

variable (c : CircularTypes)

/-- `binary_expression` of an operator that is not a comparison.  There are no such instructions
on pointers. -/
def binaryExpression (op : ArithmeticOp) (left right : Bexpression) (n : ℕ) :
    Option (Bexpression × Emitted) := do
  let left ← resolveVarExpr c left
  let right ← resolveVarExpr c right
  let lv ← left.value
  let rv ← right.value
  let (lv, rv) := convertForBinary lv rv
  guard (lv.type = rv.type)
  let isUnsigned ← comparedUnsigned left.btype.isUnsigned right.btype.isUnsigned
  guard (lv.type.isIntegerTy ∨ lv.type.isFloatingPoint)
  let opcode ← op.opcode lv.type.isFloatingPoint isUnsigned
  let i := emit n opcode lv rv
  some (.expr left.btype i.value {}, i)

/-- `unary_expression` of the operator MINUS. -/
def minusExpression (expr : Bexpression) (n : ℕ) : Option (Bexpression × Emitted) := do
  let expr ← resolveVarExpr c expr
  binaryExpression c OPERATOR_MINUS (.expr expr.btype (.null expr.btype.type) {}) expr n

/-- `unary_expression` of the operator XOR. -/
def complementExpression (expr : Bexpression) (n : ℕ) : Option (Bexpression × Emitted) := do
  let expr ← resolveVarExpr c expr
  match expr.btype.type with
  | int bits =>
    let v ← expr.value
    let i := emit n Xor v (.constantInt bits (-1))
    some (.expr expr.btype i.value {}, i)
  | _ => none

end Expressions

/-! ## What instructions give -/

/-- A division by zero, or one whose quotient does not fit, has no result. -/
def Opcode.apply {n : ℕ} (x y : BitVec n) : Opcode → Option (BitVec n)
  | Add => some (x + y)
  | Sub => some (x - y)
  | Mul => some (x * y)
  | UDiv => if y = 0 then none else some (x / y)
  | SDiv => if y = 0 ∨ x = .intMin n ∧ y = -1 then none else some (x.sdiv y)
  | URem => if y = 0 then none else some (x % y)
  | SRem => if y = 0 ∨ x = .intMin n ∧ y = -1 then none else some (x.srem y)
  | And => some (x &&& y)
  | Or => some (x ||| y)
  | Xor => some (x ^^^ y)
  | FAdd | FSub | FMul | FDiv => none

/-- Floating point operators round, and are left out. -/
def Opcode.run (opcode : Opcode) : Datum → Datum → Option Datum
  | .int n x, .int m y =>
    if h : m = n then (opcode.apply x (y.cast h)).map (.int n) else none
  | _, _ => none

/-! ## Go's operators -/

/-- The types of operands: an integer type, or the boolean type. -/
inductive Kind
  | integer (isUnsigned : Bool) (bits : ℕ)
  | boolean
deriving DecidableEq, Repr

namespace Kind

def btype : Kind → Btype
  | integer u n => .integer u n
  | boolean => boolType

def bits : Kind → ℕ
  | integer _ n => n
  | boolean => 8

def isUnsigned : Kind → Bool
  | integer u _ => u
  | boolean => true

/-- Go's values. -/
abbrev Carrier : Kind → Type
  | integer .. => ℤ
  | boolean => Bool

/-- The bits of a value.  A boolean is a byte that is zero or one. -/
def Represents : (k : Kind) → BitVec k.bits → k.Carrier → Prop
  | integer u _, x, a => integerValue u x = a
  | boolean, x, a => x = if a then 1 else 0

end Kind

namespace ArithmeticOp

/-- The operators that Go has on the type, of those that are handled. -/
def appliesTo : ArithmeticOp → Kind → Bool
  | OPERATOR_PLUS, .integer .. | OPERATOR_MINUS, .integer .. | OPERATOR_MULT, .integer ..
  | OPERATOR_DIV, .integer .. | OPERATOR_MOD, .integer .. | OPERATOR_AND, .integer ..
  | OPERATOR_XOR, .integer .. => true
  | OPERATOR_OROR, .boolean | OPERATOR_ANDAND, .boolean => true
  | _, _ => false

/-- Go's operators on integers wrap around, and division truncates toward zero. -/
def integers (u : Bool) (n : ℕ) (a b : ℤ) : ArithmeticOp → Option ℤ
  | OPERATOR_PLUS => some (wrap u n (a + b))
  | OPERATOR_MINUS => some (wrap u n (a - b))
  | OPERATOR_MULT => some (wrap u n (a * b))
  | OPERATOR_DIV => if b = 0 then none else some (wrap u n (a.tdiv b))
  | OPERATOR_MOD => if b = 0 then none else some (a.tmod b)
  | OPERATOR_AND => some (integerValue u (BitVec.ofInt n a &&& BitVec.ofInt n b))
  | OPERATOR_XOR => some (integerValue u (BitVec.ofInt n a ^^^ BitVec.ofInt n b))
  | _ => none

/-- Both operands have been evaluated. -/
def booleans (a b : Bool) : ArithmeticOp → Option Bool
  | OPERATOR_OROR => some (a || b)
  | OPERATOR_ANDAND => some (a && b)
  | _ => none

/-- The value of an operation; a division by zero panics. -/
def go (op : ArithmeticOp) : (k : Kind) → k.Carrier → k.Carrier → Option k.Carrier
  | .integer u n, a, b => op.integers u n a b
  | .boolean, a, b => op.booleans a b

/-- A division whose quotient does not fit the type. -/
def overflows (op : ArithmeticOp) : (k : Kind) → k.Carrier → k.Carrier → Bool
  | .integer u n, a, b => (op = OPERATOR_DIV || op = OPERATOR_MOD) &&
    (b != 0 && wrap u n (a.tdiv b) != a.tdiv b)
  | .boolean, _, _ => false

end ArithmeticOp

/-! ## Operators and instructions -/

section Operators

variable {n : ℕ}

theorem ofInt_integerValue (u : Bool) (x : BitVec n) : BitVec.ofInt n (integerValue u x) = x := by
  cases u with
  | false => exact BitVec.ofInt_toInt
  | true => exact (BitVec.ofInt_natCast n x.toNat).trans (BitVec.ofNat_toNat n x |>.trans (by simp))

theorem wrap_integerValue (u : Bool) (x : BitVec n) :
    wrap u n (integerValue u x) = integerValue u x := by
  rw [← integerValue_ofInt, ofInt_integerValue]

theorem integerValue_eq_zero (u : Bool) (y : BitVec n) : integerValue u y = 0 ↔ y = 0 := by
  have hzero : integerValue u (0 : BitVec n) = 0 := by
    cases u <;> simp [integerValue]
  rw [← hzero, integerValue_inj]

theorem integerValue_add (u : Bool) (x y : BitVec n) :
    integerValue u (x + y) = wrap u n (integerValue u x + integerValue u y) := by
  rw [← integerValue_ofInt, BitVec.ofInt_add, ofInt_integerValue, ofInt_integerValue]

theorem integerValue_mul (u : Bool) (x y : BitVec n) :
    integerValue u (x * y) = wrap u n (integerValue u x * integerValue u y) := by
  rw [← integerValue_ofInt, BitVec.ofInt_mul, ofInt_integerValue, ofInt_integerValue]

theorem integerValue_sub (u : Bool) (x y : BitVec n) :
    integerValue u (x - y) = wrap u n (integerValue u x - integerValue u y) := by
  rw [← integerValue_ofInt, Int.sub_eq_add_neg, BitVec.ofInt_add, BitVec.ofInt_neg,
    ofInt_integerValue, ofInt_integerValue, BitVec.sub_eq_add_neg]

/-- An unsigned quotient always fits. -/
theorem integerValue_udiv (x y : BitVec n) :
    integerValue true (x / y) = (integerValue true x).tdiv (integerValue true y) := by
  simp only [integerValue, if_true, BitVec.toNat_udiv, Int.natCast_ediv]
  exact (Int.tdiv_eq_ediv_of_nonneg (Int.natCast_nonneg _)).symm

theorem integerValue_umod (x y : BitVec n) :
    integerValue true (x % y) = (integerValue true x).tmod (integerValue true y) := by
  simp only [integerValue, if_true, BitVec.toNat_umod, Int.natCast_emod]
  exact (Int.tmod_eq_emod_of_nonneg (Int.natCast_nonneg _)).symm

/-- The one signed quotient that does not fit. -/
theorem tdiv_fits_iff {x y : BitVec n} (hy : y ≠ 0) :
    wrap false n (x.toInt.tdiv y.toInt) = x.toInt.tdiv y.toInt ↔ ¬(x = .intMin n ∧ y = -1) := by
  have hn : 0 < n := by
    rcases Nat.eq_zero_or_pos n with rfl | hn
    · exact absurd (BitVec.of_length_zero) hy
    · exact hn
  constructor
  · rintro h ⟨rfl, rfl⟩
    have hone : (-1 : BitVec n).toInt = -1 := by
      have heq : (-1 : BitVec n) = BitVec.allOnes n := BitVec.neg_one_eq_allOnes
      rw [heq, BitVec.toInt_allOnes, if_pos hn]
    rw [hone, BitVec.toInt_intMin_of_pos hn, Int.tdiv_neg, Int.neg_tdiv, Int.tdiv_one,
      neg_neg] at h
    have hlt : wrap false n (2 ^ (n - 1)) < 2 ^ (n - 1) := by
      rw [← integerValue_ofInt]
      exact BitVec.toInt_lt
    exact absurd h (Int.ne_of_lt hlt)
  · intro h
    have hdiv : (x.sdiv y).toInt = x.toInt.tdiv y.toInt :=
      BitVec.toInt_sdiv_of_ne_or_ne x y (not_and_or.mp h)
    rw [← hdiv]
    exact wrap_integerValue false (x.sdiv y)

theorem fits_iff (u : Bool) {x y : BitVec n} (hy : y ≠ 0) :
    wrap u n ((integerValue u x).tdiv (integerValue u y)) =
        (integerValue u x).tdiv (integerValue u y) ↔
      ¬(u = false ∧ x = .intMin n ∧ y = -1) := by
  cases u with
  | false => simpa [integerValue] using tdiv_fits_iff (x := x) hy
  | true =>
    rw [← integerValue_udiv]
    simpa using wrap_integerValue true (x / y)

/-- A division, where `q` is what the instruction gives and `r` is Go's result. -/
theorem division_correct (u : Bool) {x y q : BitVec n} {z : Option (BitVec n)} {r : ℤ}
    (hz : z = if y = 0 ∨ u = false ∧ x = .intMin n ∧ y = -1 then none else some q)
    (hq : y ≠ 0 → ¬(u = false ∧ x = .intMin n ∧ y = -1) → integerValue u q = r) :
    Option.Rel (Kind.integer u n).Represents z
      (if integerValue u y != 0 && wrap u n ((integerValue u x).tdiv (integerValue u y)) !=
          (integerValue u x).tdiv (integerValue u y) then none
        else if integerValue u y = 0 then none else some r) := by
  rw [hz]
  by_cases hy : y = 0
  · have hb := (integerValue_eq_zero u y).mpr hy
    rw [if_pos (Or.inl hy), if_neg (by simp [hb]), if_pos hb]
    exact .none
  · have hb : integerValue u y ≠ 0 := fun hb => hy ((integerValue_eq_zero u y).mp hb)
    by_cases hover : u = false ∧ x = .intMin n ∧ y = -1
    · have hwrap : ¬_ = _ := fun h => (fits_iff u (x := x) hy).mp h hover
      rw [if_pos (Or.inr hover), if_pos (by simp [hb, hwrap])]
      exact .none
    · have hwrap := (fits_iff u (x := x) hy).mpr hover
      rw [if_neg (not_or.mpr ⟨hy, hover⟩), if_neg (by simp [hwrap]), if_neg hb]
      exact .some (hq hy hover)

theorem apply_div (u : Bool) (x y : BitVec n) :
    (if u then UDiv else SDiv).apply x y =
      if y = 0 ∨ u = false ∧ x = .intMin n ∧ y = -1 then none
      else some (if u then x / y else x.sdiv y) := by
  cases u <;> simp [Opcode.apply]

theorem apply_rem (u : Bool) (x y : BitVec n) :
    (if u then URem else SRem).apply x y =
      if y = 0 ∨ u = false ∧ x = .intMin n ∧ y = -1 then none
      else some (if u then x % y else x.srem y) := by
  cases u <;> simp [Opcode.apply]

end Operators

/-- The instruction of an operator computes Go's operation, unless a quotient does not fit. -/
theorem opcode_correct {op : ArithmeticOp} {k : Kind} (h : op.appliesTo k) :
    ∃ o, op.opcode false k.isUnsigned = some o ∧
      ∀ {x y : BitVec k.bits} {a b : k.Carrier}, k.Represents x a → k.Represents y b →
        Option.Rel k.Represents (o.apply x y)
          (if op.overflows k a b then none else op.go k a b) := by
  cases k with
  | boolean =>
    cases op with
    | OPERATOR_OROR | OPERATOR_ANDAND =>
      refine ⟨_, rfl, ?_⟩
      rintro _ _ a b rfl rfl
      cases a <;> cases b <;> exact .some rfl
    | _ => cases h
  | integer u n =>
    cases op with
    | OPERATOR_PLUS =>
      refine ⟨_, rfl, ?_⟩
      rintro x y _ _ rfl rfl
      exact .some (integerValue_add u x y)
    | OPERATOR_MINUS =>
      refine ⟨_, rfl, ?_⟩
      rintro x y _ _ rfl rfl
      exact .some (integerValue_sub u x y)
    | OPERATOR_MULT =>
      refine ⟨_, rfl, ?_⟩
      rintro x y _ _ rfl rfl
      exact .some (integerValue_mul u x y)
    | OPERATOR_AND =>
      refine ⟨_, rfl, ?_⟩
      rintro (x : BitVec n) (y : BitVec n) _ _ rfl rfl
      exact .some (congrArg₂ (fun x y => integerValue u (x &&& y)) (ofInt_integerValue u x)
        (ofInt_integerValue u y)).symm
    | OPERATOR_XOR =>
      refine ⟨_, rfl, ?_⟩
      rintro (x : BitVec n) (y : BitVec n) _ _ rfl rfl
      exact .some (congrArg₂ (fun x y => integerValue u (x ^^^ y)) (ofInt_integerValue u x)
        (ofInt_integerValue u y)).symm
    | OPERATOR_DIV =>
      refine ⟨_, rfl, ?_⟩
      rintro (x : BitVec n) (y : BitVec n) _ _ rfl rfl
      refine division_correct u (apply_div u x y) fun hy hover => ?_
      refine Eq.trans ?_ ((fits_iff u hy).mpr hover).symm
      cases u with
      | false => exact BitVec.toInt_sdiv_of_ne_or_ne x y (not_and_or.mp fun h => hover ⟨rfl, h⟩)
      | true => exact integerValue_udiv x y
    | OPERATOR_MOD =>
      refine ⟨_, rfl, ?_⟩
      rintro (x : BitVec n) (y : BitVec n) _ _ rfl rfl
      refine division_correct u (apply_rem u x y) fun _ _ => ?_
      cases u with
      | false => exact BitVec.toInt_srem x y
      | true => exact integerValue_umod x y
    | _ => cases h

end Dragongo
