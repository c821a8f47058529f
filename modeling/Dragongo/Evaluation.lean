import Dragongo.Bexpression
import Dragongo.Library.LittleEndian
import Mathlib.Order.WithBot
import Mathlib.Data.Rat.Cast.Order

/-!
# What values are when the code runs

A symbolic value is evaluated over a memory and the values that are known already: the
addresses of variables, the arguments, and what earlier instructions gave.  A poison value
and an instruction that its operands do not allow have no value.
-/

namespace Dragongo
open LType CastOp Predicate

/-- A number, an infinity, or not a number. -/
inductive FloatValue
  | nan
  | number (x : WithBot (WithTop ℚ))
deriving DecidableEq

/-- The value of an IEEE format with these widths of exponent and fraction. -/
def FloatValue.decode (exponentBits fractionBits x : ℕ) : FloatValue :=
  let fraction := x % 2 ^ fractionBits
  let exponent := x / 2 ^ fractionBits % 2 ^ exponentBits
  let negative := x / 2 ^ (fractionBits + exponentBits) % 2 = 1
  if exponent = 2 ^ exponentBits - 1 then
    if fraction ≠ 0 then nan else if negative then number ⊥ else number ((⊤ : WithTop ℚ))
  else
    let mantissa : ℚ := if exponent = 0 then fraction else 2 ^ fractionBits + fraction
    let scale : ℤ := max exponent 1 - (2 ^ (exponentBits - 1) - 1) - fractionBits
    number (((if negative then -1 else 1) * mantissa * 2 ^ scale : ℚ) : WithTop ℚ)

/-- The integer part of a number: truncation toward zero. -/
def integerPart (q : ℚ) : ℤ := q.num.tdiv q.den

/-- What a value is; other values than these are the bytes that they occupy. -/
inductive Datum
  | int (bits : ℕ) (x : BitVec bits)
  | pointer (address : BitVec 64)
  | float (x : FloatValue)
  | bytes (contents : List (BitVec 8))
deriving DecidableEq

/-! ## Casts and comparisons -/

/-- The result of a cast.  A cast to a floating point type rounds, and is left out. -/
def CastOp.apply : CastOp → Datum → LType → Option Datum
  | PtrToInt, .pointer a, int m => some (.int m (a.setWidth m))
  | IntToPtr, .int _ x, ptr _ => some (.pointer (x.setWidth 64))
  | BitCast, .pointer a, ptr _ => some (.pointer a)
  | ZExt, .int n x, int m => if n < m then some (.int m (x.setWidth m)) else none
  | SExt, .int n x, int m => if n < m then some (.int m (x.signExtend m)) else none
  | Trunc, .int n x, int m => if m < n then some (.int m (x.setWidth m)) else none
  | FPToUI, .float (.number ((q : ℚ) : WithTop ℚ)), int m =>
    -- poison when the integer part does not fit
    if 0 ≤ integerPart q ∧ integerPart q < 2 ^ m then
      some (.int m (BitVec.ofInt m (integerPart q)))
    else none
  | _, _, _ => none

/-- `icmp` of two integers of one width, or of two addresses. -/
def Predicate.icmp {n : ℕ} (x y : BitVec n) : Predicate → Option Bool
  | ICMP_EQ => some (x == y)
  | ICMP_NE => some (x != y)
  | ICMP_ULT => some (x.ult y)
  | ICMP_SLT => some (x.slt y)
  | ICMP_ULE => some (x.ule y)
  | ICMP_SLE => some (x.sle y)
  | ICMP_UGT => some (y.ult x)
  | ICMP_SGT => some (y.slt x)
  | ICMP_UGE => some (y.ule x)
  | ICMP_SGE => some (y.sle x)
  | _ => none

/-- `fcmp`; the predicates that the backend uses are ordered, false if an operand is not a
number. -/
def Predicate.fcmp : FloatValue → FloatValue → Predicate → Option Bool
  | .number x, .number y, FCMP_OEQ => some (x = y)
  | .number x, .number y, FCMP_ONE => some (x ≠ y)
  | .number x, .number y, FCMP_OLT => some (x < y)
  | .number x, .number y, FCMP_OLE => some (x ≤ y)
  | .number x, .number y, FCMP_OGT => some (y < x)
  | .number x, .number y, FCMP_OGE => some (y ≤ x)
  | .number _, .number _, _ => none
  | _, _, pred =>
    if pred ∈ [FCMP_OEQ, FCMP_ONE, FCMP_OLT, FCMP_OLE, FCMP_OGT, FCMP_OGE] then some false
    else none

def Predicate.apply (pred : Predicate) : Datum → Datum → Option Datum
  | .int n x, .int m y =>
    if h : m = n then (pred.icmp x (y.cast h)).map fun b => .int 1 (BitVec.ofBool b) else none
  | .pointer a, .pointer b => (pred.icmp a b).map fun b => .int 1 (BitVec.ofBool b)
  | .float x, .float y => (pred.fcmp x y).map fun b => .int 1 (BitVec.ofBool b)
  | _, _ => none

def Datum.xor : Datum → Datum → Option Datum
  | .int n x, .int m y => if h : m = n then some (.int n (x ^^^ y.cast h)) else none
  | _, _ => none

def Datum.null : LType → Option Datum
  | .int n => some (.int n 0)
  | .ptr _ => some (.pointer 0)
  | .float | .double | .fp128 => some (.float (.number ((0 : ℚ) : WithTop ℚ)))
  | t => t.allocSize.map fun k => .bytes (List.replicate k 0)

/-! ## Memory -/

structure Env where
  memory : BitVec 64 → BitVec 8
  known : Value → Option Datum

/-- Empty memory, where each value that is known is `d`. -/
def Env.const (d : Datum) : Env := ⟨fun _ => 0, fun _ => some d⟩

/-- The number of bytes that a load of a value reads. -/
def loadSize : LType → ℕ
  | int n => (n + 7) / 8
  | t => (t.allocSize).getD 0

namespace Env

variable (env : Env)

def byte (a : BitVec 64) (i : ℕ) : BitVec 8 := env.memory (a + BitVec.ofNat 64 i)

def load (t : LType) (a : BitVec 64) : Option Datum :=
  let x := LittleEndian.read (env.byte a) (loadSize t)
  match t with
  | int n => some (.int n (BitVec.ofNat n x))
  | ptr _ => some (.pointer (BitVec.ofNat 64 x))
  | float => some (.float (.decode 8 23 x))
  | double => some (.float (.decode 11 52 x))
  | fp128 => some (.float (.decode 15 112 x))
  | t => t.allocSize.map fun k => .bytes ((List.range k).map (env.byte a))

/-- The meaning of a value.  A load that has not run reads the memory as it is now. -/
@[grind =]
def eval : Value → Option Datum
  | .null t => Datum.null t
  | .constantInt bits n => some (.int bits (BitVec.ofInt bits n))
  | .load a =>
    match env.known (.load a), eval a with
    | some d, _ => some d
    | none, some (.pointer x) => env.load a.type.pointeeType x
    | none, _ => none
  | .bitcast v t => (eval v).bind fun d => BitCast.apply d t
  | .zext v t => (eval v).bind fun d => ZExt.apply d t
  | .cast op v t => (eval v).bind fun d => op.apply d t
  | .cmp pred l r => (eval l).bind fun x => (eval r).bind fun y => pred.apply x y
  | .xor l r => (eval l).bind fun x => (eval r).bind fun y => x.xor y
  | v => env.known v

/-- The addresses of the bytes that the loads of a value read, those that have not run. -/
@[grind =]
def reads : Value → List (BitVec 64)
  | .load a =>
    match env.known (.load a), env.eval a with
    | none, some (.pointer x) =>
      reads a ++ (List.range (loadSize a.type.pointeeType)).map fun i => x + BitVec.ofNat 64 i
    | _, _ => []
  | .bitcast v _ | .zext v _ | .cast _ v _ => reads v
  | .cmp _ l r | .xor l r => reads l ++ reads r
  | _ => []

variable {env : Env}

/-- No load through the address, or through a cast of it, has run. -/
structure Unread (env : Env) (v : Value) : Prop where
  load : env.known (.load v) = none
  load_bitcast : ∀ t, env.known (.load (.bitcast v t)) = none

theorem eval_load {v : Value} {x : BitVec 64} (hv : env.eval v = some (.pointer x))
    (h : env.known (.load v) = none) : env.eval (.load v) = env.load v.type.pointeeType x := by
  simp only [eval, h, hv]

theorem eval_load_of_known {v : Value} {d : Datum} (h : env.known (.load v) = some d) :
    env.eval (.load v) = some d := by
  simp only [eval, h]

theorem eval_load_eq_none {v : Value} (hv : ∀ x, env.eval v ≠ some (.pointer x))
    (h : env.known (.load v) = none) : env.eval (.load v) = none := by
  simp only [eval, h]

theorem reads_load {v : Value} {x : BitVec 64} (hv : env.eval v = some (.pointer x))
    (h : env.known (.load v) = none) : env.reads (.load v) = env.reads v ++
      (List.range (loadSize v.type.pointeeType)).map fun i => x + BitVec.ofNat 64 i := by
  simp only [reads, h, hv]

theorem eval_bitcast {v : Value} {x : BitVec 64} (hv : env.eval v = some (.pointer x))
    (t : LType) : env.eval (.bitcast v (ptr t)) = some (.pointer x) := by
  simp only [eval, hv, Option.bind_some, CastOp.apply]

theorem load_eq_none {t : LType} {a : BitVec 64} (h : env.load t a = none) (env' : Env)
    (b : BitVec 64) : env'.load t b = none := by
  cases t with
  | int | ptr | float | double | fp128 => cases h
  | _ => simpa [load] using h

/-! ## Later contents of memory -/

/-- What comes after the computation of `v`: its loads have run, and the memory may hold
anything. -/
noncomputable def after (env : Env) (v : Value) (memory : BitVec 64 → BitVec 8) : Env where
  memory := memory
  known w :=
    match w with
    | .load a => if sizeOf a < sizeOf v then env.eval (.load a) else none
    | w => env.known w

variable {v : Value} {memory : BitVec 64 → BitVec 8}

theorem unread_after : (env.after v memory).Unread v where
  load := if_neg (lt_irrefl _)
  load_bitcast t := if_neg (by simp only [Value.bitcast.sizeOf_spec]; omega)

theorem eval_after : ∀ {w : Value}, sizeOf w ≤ sizeOf v →
    (env.after v memory).eval w = env.eval w
  | .load a, h => by
    have hlt : sizeOf a < sizeOf v := by
      simp only [Value.load.sizeOf_spec] at h
      omega
    have hknown : (env.after v memory).known (.load a) = env.eval (.load a) := if_pos hlt
    have ha := eval_after (w := a) (Nat.le_of_lt hlt)
    cases hl : env.eval (.load a) with
    | some d => exact eval_load_of_known (hknown.trans hl)
    | none =>
      -- the load has no value in either memory
      have hk : env.known (.load a) = none := by
        cases hk : env.known (.load a) with
        | none => rfl
        | some d => cases hl.symm.trans (eval_load_of_known hk)
      by_cases hx : ∃ x, env.eval a = some (.pointer x)
      · obtain ⟨x, hx⟩ := hx
        rw [eval_load (ha.trans hx) (hknown.trans hl)]
        rw [eval_load hx hk] at hl
        exact load_eq_none hl _ x
      · rw [not_exists] at hx
        exact eval_load_eq_none (fun x => ha ▸ hx x) (hknown.trans hl)
  | .bitcast w t, h | .zext w t, h | .cast _ w t, h => by
    simp only [eval]
    rw [eval_after (w := w) (by simp at h; omega)]
  | .cmp _ l r, h | .xor l r, h => by
    simp only [eval]
    rw [eval_after (w := l) (by simp at h; omega), eval_after (w := r) (by simp at h; omega)]
  | .null _, _ | .constantInt .., _ | .alloca .., _ | .argument .., _ | .globalVariable .., _
  | .constantVariable _, _ | .temporary .., _ | .undef _, _ | .constant .., _
  | .constantComposite .., _ | .instruction .., _ | .field .., _ | .element .., _ => rfl

end Env

end Dragongo
