import Dragongo.PendingConversion

/-!
# Comparisons

`binary_expression` on a comparison operator makes one compare instruction, whose bit is
widened to Go's boolean type; the unary NOT compares with zero, flips the bit and widens it
again.
-/

namespace Dragongo
open LType CastOp Predicate Varexpr_context

inductive CompareOp
  | OPERATOR_EQEQ
  | OPERATOR_NOTEQ
  | OPERATOR_LT
  | OPERATOR_LE
  | OPERATOR_GT
  | OPERATOR_GE
deriving DecidableEq, Repr

open CompareOp

/-- `isFloatingPointTy`, which holds of the 128-bit format too. -/
def LType.isFloatingPoint (t : LType) : Bool := t.isFloatingPointTy || t == fp128

def compareOpToPred (op : CompareOp) (typ : LType) (isUnsigned : Bool) : Predicate :=
  if typ.isFloatingPoint then
    match op with
    | OPERATOR_EQEQ => FCMP_OEQ
    | OPERATOR_NOTEQ => FCMP_ONE
    | OPERATOR_LT => FCMP_OLT
    | OPERATOR_LE => FCMP_OLE
    | OPERATOR_GT => FCMP_OGT
    | OPERATOR_GE => FCMP_OGE
  else
    match op with
    | OPERATOR_EQEQ => ICMP_EQ
    | OPERATOR_NOTEQ => ICMP_NE
    | OPERATOR_LT => if isUnsigned then ICMP_ULT else ICMP_SLT
    | OPERATOR_LE => if isUnsigned then ICMP_ULE else ICMP_SLE
    | OPERATOR_GT => if isUnsigned then ICMP_UGT else ICMP_SGT
    | OPERATOR_GE => if isUnsigned then ICMP_UGE else ICMP_SGE

/-- `isa<ConstantPointerNull>`. -/
def Value.isPointerNull : Value → Bool
  | null (ptr _) => true
  | _ => false

/-- A nil operand gets the type of the other one. -/
def convertForBinary (left right : Value) : Value × Value :=
  if left.type = right.type then (left, right)
  else if left.isPointerNull ∧ right.type.isPointerTy then (.bitcast left right.type, right)
  else if right.isPointerNull ∧ left.type.isPointerTy then (left, .bitcast right left.type)
  else (left, right)

def boolType : Btype := .integer true 8

def isBooleanType : Btype → Bool
  | .integer true 8 => true
  | _ => false

section Expressions

variable (c : CircularTypes)

/-- `resolveVarContext` in an rvalue context, of any expression. -/
def resolveVarExpr : Bexpression → Option Bexpression
  | .expr bt v vc => (resolveVarContext c bt v vc VE_rvalue).map Resolved.toExpr
  | e => some e

/-- The signedness of a comparison; both or none of the operands are integers, and of one
signedness. -/
def comparedUnsigned : Option Bool → Option Bool → Option Bool
  | none, none => some false
  | some u, some u' => if u = u' then some u else none
  | _, _ => none

/-- `binary_expression` of a comparison operator. -/
def compareExpression (op : CompareOp) (left right : Bexpression) : Option Bexpression := do
  let left ← resolveVarExpr c left
  let right ← resolveVarExpr c right
  let lv ← left.value
  let rv ← right.value
  let (lv, rv) := convertForBinary lv rv
  guard (lv.type = rv.type)
  let isUnsigned ← comparedUnsigned left.btype.isUnsigned right.btype.isUnsigned
  let pred := compareOpToPred op lv.type isUnsigned
  convertExpression boolType false (.expr (.aux (int 1)) (.cmp pred lv rv) {})

/-- `unary_expression` of the operator NOT. -/
def notExpression (expr : Bexpression) : Option Bexpression := do
  let expr ← resolveVarExpr c expr
  guard (isBooleanType expr.btype)
  let v ← expr.value
  let cmp := Value.cmp ICMP_NE v (.null expr.btype.type)
  convertExpression boolType false (.expr (.aux (int 1)) (.xor cmp (.constantInt 1 1)) {})

end Expressions

/-! ## Go's comparisons -/

/-- What a comparison operator means on ordered values. -/
def CompareOp.holds {α : Type} [LinearOrder α] (op : CompareOp) (x y : α) : Bool :=
  match op with
  | OPERATOR_EQEQ => x = y
  | OPERATOR_NOTEQ => x ≠ y
  | OPERATOR_LT => x < y
  | OPERATOR_LE => x ≤ y
  | OPERATOR_GT => y < x
  | OPERATOR_GE => y ≤ x

/-- Two values of one comparable type. -/
inductive Operands
  | integers (isUnsigned : Bool) (bits : ℕ) (x y : BitVec bits)
  | pointers (a b : BitVec 64)
  | floats (width : FloatWidth) (x y : FloatValue)

namespace Operands

/-- Go's comparison.  Pointers have no order, and NaN is equal to nothing and not ordered. -/
def goCompare (op : CompareOp) : Operands → Option Bool
  | integers u _ x y => some (op.holds (integerValue u x) (integerValue u y))
  | pointers a b =>
    if op = OPERATOR_EQEQ ∨ op = OPERATOR_NOTEQ then some (op.holds a.toNat b.toNat) else none
  | floats _ (.number x) (.number y) => some (op.holds x y)
  | floats .. => some (op = OPERATOR_NOTEQ)

def hasNaN : Operands → Bool
  | floats _ x y => x = .nan || y = .nan
  | _ => false

end Operands

/-- The expressions have these values once they are resolved. -/
inductive AreOperands (c : CircularTypes) (env : Env) (left right : Bexpression) : Operands → Prop
  | integers {u : Bool} {n : ℕ} {x y : BitVec n} {l r : Value}
    (hl : resolveVarExpr c left = some (.expr (.integer u n) l {}))
    (hr : resolveVarExpr c right = some (.expr (.integer u n) r {}))
    (htl : l.type = int n) (htr : r.type = int n)
    (hx : env.eval l = some (.int n x)) (hy : env.eval r = some (.int n y)) :
    AreOperands c env left right (.integers u n x y)
  | pointers {bl br : Btype} {a b : BitVec 64} {l r : Value}
    (hl : resolveVarExpr c left = some (.expr bl l {}))
    (hr : resolveVarExpr c right = some (.expr br r {}))
    (hbl : bl.isUnsigned = none) (hbr : br.isUnsigned = none)
    (htl : l.type.isPointerTy) (htr : r.type.isPointerTy)
    (ht : l.type = r.type ∨ l.isPointerNull ∨ r.isPointerNull)
    (hx : env.eval l = some (.pointer a)) (hy : env.eval r = some (.pointer b)) :
    AreOperands c env left right (.pointers a b)
  | floats {w : FloatWidth} {x y : FloatValue} {l r : Value}
    (hl : resolveVarExpr c left = some (.expr (.float w) l {}))
    (hr : resolveVarExpr c right = some (.expr (.float w) r {}))
    (htl : l.type = w.type) (htr : r.type = w.type)
    (hx : env.eval l = some (.float x)) (hy : env.eval r = some (.float y)) :
    AreOperands c env left right (.floats w x y)

/-- The result is a Go boolean with this value. -/
def IsBool (env : Env) (result : Option Bexpression) (b : Bool) : Prop :=
  ∃ r w, result = some r ∧ r.value = some w ∧ env.eval w = some (.int 8 (if b then 1 else 0))

/-- Each comparison gives a boolean, which is Go's where Go has one, `!=` gives the
negation of `==`, and NOT negates what a comparison gives. -/
structure ComparesAsGo (c : CircularTypes) (env : Env) (left right : Bexpression)
    (operands : Operands) : Prop where
  compare : ∀ op, ∃ b, IsBool env (compareExpression c op left right) b ∧
    ∀ g, operands.goCompare op = some g → b = g
  noteq : ∃ b, IsBool env (compareExpression c OPERATOR_EQEQ left right) b ∧
    IsBool env (compareExpression c OPERATOR_NOTEQ left right) !b
  not : ∀ op r, compareExpression c op left right = some r →
    ∃ b, IsBool env (some r) b ∧ IsBool env (notExpression c r) !b

/-! ## What the code computes -/

/-- The bit of the compare instruction: addresses are ordered as signed numbers, and a
comparison with NaN is false. -/
def Operands.compared (op : CompareOp) : Operands → Bool
  | integers u _ x y => op.holds (integerValue u x) (integerValue u y)
  | pointers a b => op.holds a.toInt b.toInt
  | floats _ (.number x) (.number y) => op.holds x y
  | floats .. => false

section Predicates

variable {n : ℕ}

/-- The predicate of an operator compares the numbers that the type reads. -/
theorem icmp_compareOpToPred {t : LType} (ht : t.isFloatingPoint = false) (op : CompareOp)
    (u : Bool) (x y : BitVec n) :
    (compareOpToPred op t u).icmp x y = some (op.holds (integerValue u x) (integerValue u y)) := by
  have heq : (x == y) = decide (integerValue u x = integerValue u y) := by
    rw [Bool.eq_iff_iff, beq_iff_eq, decide_eq_true_iff, integerValue_inj]
  unfold compareOpToPred
  rw [if_neg (by simp [ht])]
  cases op with
  | OPERATOR_EQEQ => exact congrArg some heq
  | OPERATOR_NOTEQ =>
    refine congrArg some ?_
    rw [bne, heq]
    exact (decide_not ..).symm
  | OPERATOR_LT | OPERATOR_LE | OPERATOR_GT | OPERATOR_GE =>
    cases u <;> simp [Predicate.icmp, CompareOp.holds, integerValue, BitVec.ult, BitVec.ule,
      BitVec.slt, BitVec.sle]

theorem fcmp_compareOpToPred {t : LType} (ht : t.isFloatingPoint) (op : CompareOp) (u : Bool)
    (x y : WithBot (WithTop ℚ)) :
    (compareOpToPred op t u).fcmp (.number x) (.number y) = some (op.holds x y) := by
  unfold compareOpToPred
  rw [if_pos ht]
  cases op <;> rfl

theorem fcmp_nan {t : LType} (ht : t.isFloatingPoint) (op : CompareOp) (u : Bool)
    {x y : FloatValue} (h : x = .nan ∨ y = .nan) :
    (compareOpToPred op t u).fcmp x y = some false := by
  unfold compareOpToPred
  rw [if_pos ht]
  rcases h with rfl | rfl
  · cases op <;> rfl
  · cases x <;> cases op <;> rfl

end Predicates

section Results

variable {c : CircularTypes} {env : Env} {left right : Bexpression}

theorem convertExpression_bool (w : Value) (hw : w.type = int 1) :
    convertExpression boolType false (.expr (.aux (int 1)) w {}) =
      some (.expr boolType (.cast ZExt w (int 8)) {}) := by
  have hne : ¬(false = true ∨ boolType.type = w.type) := by
    rw [hw]
    exact not_or.mpr ⟨nofun, nofun⟩
  refine convertExpression_of_cast hne rfl ?_
  rw [convertValue_integer hw (by decide)]
  rfl

theorem eval_widened {w : Value} {b : Bool} (hw : env.eval w = some (.int 1 (BitVec.ofBool b))) :
    env.eval (.cast ZExt w (int 8)) = some (.int 8 (if b then 1 else 0)) := by
  simp only [Env.eval, hw, Option.bind_some]
  cases b <;> rfl

theorem compareExpression_eq {bl br : Btype} {l r l' r' : Value} {u : Bool}
    (hl : resolveVarExpr c left = some (.expr bl l {}))
    (hr : resolveVarExpr c right = some (.expr br r {}))
    (hconv : convertForBinary l r = (l', r')) (ht : l'.type = r'.type)
    (hu : comparedUnsigned bl.isUnsigned br.isUnsigned = some u) (op : CompareOp) :
    compareExpression c op left right = some (.expr boolType
      (.cast ZExt (.cmp (compareOpToPred op l'.type u) l' r') (int 8)) {}) := by
  simp [compareExpression, hl, hr, Bexpression.value, Bexpression.btype, hconv, ht, hu, guard]
  exact convertExpression_bool _ rfl

theorem convertForBinary_of_eq {l r : Value} (h : l.type = r.type) :
    convertForBinary l r = (l, r) := if_pos h

/-- A pointer and nil, or two pointers of one type, are compared as addresses. -/
theorem convertForBinary_pointers {l r : Value} {a b : BitVec 64} (htl : l.type.isPointerTy)
    (htr : r.type.isPointerTy) (ht : l.type = r.type ∨ l.isPointerNull ∨ r.isPointerNull)
    (hx : env.eval l = some (.pointer a)) (hy : env.eval r = some (.pointer b)) :
    ∃ l' r', convertForBinary l r = (l', r') ∧ l'.type = r'.type ∧ l'.type.isPointerTy ∧
      env.eval l' = some (.pointer a) ∧ env.eval r' = some (.pointer b) := by
  have hcast : ∀ {v : Value} {t : LType} {x : BitVec 64}, t.isPointerTy →
      env.eval v = some (.pointer x) → env.eval (.bitcast v t) = some (.pointer x) := by
    intro v t x htp hv
    cases t with
    | ptr t => exact Env.eval_bitcast hv t
    | _ => cases htp
  by_cases heq : l.type = r.type
  · exact ⟨l, r, convertForBinary_of_eq heq, heq, htl, hx, hy⟩
  · unfold convertForBinary
    rw [if_neg heq]
    by_cases hnl : l.isPointerNull
    · exact ⟨_, _, if_pos ⟨hnl, htr⟩, rfl, htr, hcast htr hx, hy⟩
    · have hnr : r.isPointerNull := by
        rcases ht with ht | ht | ht
        · exact absurd ht heq
        · exact absurd ht hnl
        · exact ht
      rw [if_neg fun h => hnl h.1]
      exact ⟨_, _, if_pos ⟨hnr, htl⟩, rfl, htl, hx, hcast htl hy⟩

theorem isFloatingPoint_type (w : FloatWidth) : w.type.isFloatingPoint := by
  cases w <;> rfl

/-- Each comparison of operands is a compare instruction whose bit is widened. -/
theorem AreOperands.compared {operands : Operands} (h : AreOperands c env left right operands) :
    ∃ w : CompareOp → Value, ∀ op,
      compareExpression c op left right =
          some (.expr boolType (.cast ZExt (w op) (int 8)) {}) ∧
        env.eval (w op) = some (.int 1 (BitVec.ofBool (operands.compared op))) := by
  cases h with
  | @integers u n x y l r hl hr htl htr hx hy =>
    have ht : l.type = r.type := htl.trans htr.symm
    have hu : comparedUnsigned (some u) (some u) = some u := if_pos rfl
    refine ⟨_, fun op => ⟨compareExpression_eq hl hr (convertForBinary_of_eq ht) ht hu op, ?_⟩⟩
    have hf : l.type.isFloatingPoint = false := by rw [htl]; rfl
    simp [Env.eval, hx, hy, Predicate.apply, icmp_compareOpToPred hf, Operands.compared]
  | @pointers bl br a b l r hl hr hbl hbr htl htr ht hx hy =>
    obtain ⟨l', r', hconv, htype, hptr, hx', hy'⟩ := convertForBinary_pointers htl htr ht hx hy
    have hu : comparedUnsigned bl.isUnsigned br.isUnsigned = some false := by rw [hbl, hbr]; rfl
    refine ⟨_, fun op => ⟨compareExpression_eq hl hr hconv htype hu op, ?_⟩⟩
    have hf : l'.type.isFloatingPoint = false := by
      cases hp : l'.type with
      | ptr t => rfl
      | _ => rw [hp] at hptr; cases hptr
    simp [Env.eval, hx', hy', Predicate.apply, icmp_compareOpToPred hf, Operands.compared,
      integerValue]
  | @floats w x y l r hl hr htl htr hx hy =>
    have ht : l.type = r.type := htl.trans htr.symm
    refine ⟨_, fun op => ⟨compareExpression_eq hl hr (convertForBinary_of_eq ht) ht rfl op, ?_⟩⟩
    have hf : l.type.isFloatingPoint := htl ▸ isFloatingPoint_type w
    cases x with
    | nan => simp [Env.eval, hx, hy, Predicate.apply, fcmp_nan hf, Operands.compared]
    | number p =>
      cases y with
      | nan => simp [Env.eval, hx, hy, Predicate.apply, fcmp_nan hf, Operands.compared]
      | number q =>
        simp [Env.eval, hx, hy, Predicate.apply, fcmp_compareOpToPred hf, Operands.compared]

/-- NOT gives the negation of a bit that was widened. -/
theorem notExpression_isBool {w : Value} {b : Bool}
    (hw : env.eval w = some (.int 1 (BitVec.ofBool b))) :
    IsBool env (notExpression c (.expr boolType (.cast ZExt w (int 8)) {})) !b := by
  let flipped : Value :=
    .xor (.cmp ICMP_NE (.cast ZExt w (int 8)) (.null (int 8))) (.constantInt 1 1)
  have hnot : notExpression c (.expr boolType (.cast ZExt w (int 8)) {}) =
      some (.expr boolType (.cast ZExt flipped (int 8)) {}) :=
    convertExpression_bool flipped rfl
  have hflip : env.eval flipped = some (.int 1 (BitVec.ofBool !b)) := by
    simp only [flipped, Env.eval, hw, Option.bind_some]
    cases b <;> rfl
  exact ⟨_, _, hnot, rfl, eval_widened hflip⟩

/-- A result is what the code computes. -/
theorem isBool_iff {w : Value} {b b' : Bool}
    (hw : env.eval w = some (.int 1 (BitVec.ofBool b))) :
    IsBool env (some (.expr boolType (.cast ZExt w (int 8)) {})) b' ↔ b' = b := by
  constructor
  · rintro ⟨r, w', hr, hw', hb⟩
    cases hr
    cases hw'
    rw [eval_widened hw] at hb
    cases b <;> cases b' <;> simp at hb ⊢
  · rintro rfl
    exact ⟨_, _, rfl, rfl, eval_widened hw⟩

theorem compared_of_goCompare {operands : Operands} (hnan : operands.hasNaN = false)
    {op : CompareOp} {g : Bool} (hg : operands.goCompare op = some g) :
    operands.compared op = g := by
  cases operands with
  | integers u n x y => exact Option.some.inj hg
  | pointers a b =>
    have hne : a.toInt = b.toInt ↔ a.toNat = b.toNat :=
      ⟨fun h => congrArg BitVec.toNat (BitVec.eq_of_toInt_eq h),
        fun h => congrArg BitVec.toInt (BitVec.eq_of_toNat_eq h)⟩
    simp only [Operands.goCompare] at hg
    split_ifs at hg with hop
    rw [← Option.some.inj hg, Operands.compared]
    rcases hop with rfl | rfl
    · exact decide_eq_decide.mpr hne
    · exact decide_eq_decide.mpr (not_congr hne)
  | floats w x y =>
    simp only [Operands.hasNaN, Bool.or_eq_false_iff, decide_eq_false_iff_not] at hnan
    cases x with
    | nan => exact absurd rfl hnan.1
    | number p =>
      cases y with
      | nan => exact absurd rfl hnan.2
      | number q => exact Option.some.inj hg

theorem compared_of_hasNaN {operands : Operands} (hnan : operands.hasNaN) (op : CompareOp) :
    operands.compared op = false := by
  cases operands with
  | integers u n x y => cases hnan
  | pointers a b => cases hnan
  | floats w x y =>
    cases x with
    | nan => rfl
    | number p =>
      cases y with
      | nan => rfl
      | number q => cases hnan

theorem compared_noteq {operands : Operands} (hnan : operands.hasNaN = false) :
    operands.compared OPERATOR_NOTEQ = !operands.compared OPERATOR_EQEQ := by
  cases operands with
  | integers u n x y => exact decide_not ..
  | pointers a b => exact decide_not ..
  | floats w x y =>
    cases x with
    | nan => cases hnan
    | number p =>
      cases y with
      | nan => cases hnan
      | number q => exact decide_not ..

/-- Comparisons are Go's, and are negated as they should be, exactly when no operand is
NaN. -/
theorem comparesAsGo_iff {operands : Operands} (h : AreOperands c env left right operands) :
    ComparesAsGo c env left right operands ↔ operands.hasNaN = false := by
  obtain ⟨w, hw⟩ := h.compared
  constructor
  · intro hgo
    obtain ⟨b, heq, hne⟩ := hgo.noteq
    rw [(hw _).1, isBool_iff (hw _).2] at heq hne
    by_contra hnan
    have hnan : operands.hasNaN := by simpa using hnan
    rw [heq, compared_of_hasNaN hnan, compared_of_hasNaN hnan] at hne
    cases hne
  · intro hnan
    constructor
    · intro op
      rw [(hw op).1]
      exact ⟨_, (isBool_iff (hw op).2).mpr rfl, fun g hg => compared_of_goCompare hnan hg⟩
    · rw [(hw _).1, (hw OPERATOR_NOTEQ).1]
      exact ⟨_, (isBool_iff (hw _).2).mpr rfl, (isBool_iff (hw _).2).mpr
        (compared_noteq hnan).symm⟩
    · intro op r hr
      rw [(hw op).1] at hr
      cases hr
      exact ⟨_, (isBool_iff (hw op).2).mpr rfl, notExpression_isBool (hw op).2⟩

end Results

/-- Two `float64` arguments. -/
def floatArguments (x y : FloatValue) : Env := ⟨fun _ => 0, fun
  | .argument 0 _ => some (.float x)
  | .argument 1 _ => some (.float y)
  | _ => none⟩

theorem floatArguments_areOperands (x y : FloatValue) :
    AreOperands noCircularPointers.toCircularTypes (floatArguments x y)
      (.expr (.float .f64) (.argument 0 double) {}) (.expr (.float .f64) (.argument 1 double) {})
      (.floats .f64 x y) :=
  .floats rfl rfl rfl rfl rfl rfl

theorem infinity_comparesAsGo :
    ComparesAsGo noCircularPointers.toCircularTypes (floatArguments (.number ⊥) (.number ⊥))
      (.expr (.float .f64) (.argument 0 double) {}) (.expr (.float .f64) (.argument 1 double) {})
      (.floats .f64 (.number ⊥) (.number ⊥)) :=
  (comparesAsGo_iff (floatArguments_areOperands _ _)).mpr rfl

/-- `NaN != NaN` is false, as `NaN == NaN` is. -/
theorem nan_not_comparesAsGo :
    ¬ComparesAsGo noCircularPointers.toCircularTypes (floatArguments .nan .nan)
      (.expr (.float .f64) (.argument 0 double) {}) (.expr (.float .f64) (.argument 1 double) {})
      (.floats .f64 .nan .nan) := by
  intro h
  obtain ⟨b, heq, hne⟩ := h.noteq
  obtain ⟨r, w, hr, hw, hb⟩ := heq
  obtain ⟨r', w', hr', hw', hb'⟩ := hne
  cases hr
  cases hw
  cases hr'
  cases hw'
  cases b
  · cases hb'
  · cases hb

end Dragongo
