import Dragongo.CompositeInit
import Dragongo.Library.Scatter

/-!
# Constructors of arrays and structs

A composite whose values are all constants is a constant, and otherwise it is expanded when its
storage is known.  Values may be given for some indexes only; what is at the others is zero.
-/

namespace Dragongo
open LType Scatter

namespace Bexpression

/-- The values are LLVM constants, whatever they are the values of. -/
def valuesAreConstant (vals : List Bexpression) : Bool :=
  vals.all fun val => val.value.any Value.isConstant

end Bexpression

open Bexpression

/-- `ConstantExpr::getBitCast`, which asserts that the cast is valid. -/
def getBitCast (con : Value) (t : LType) : Option Value :=
  if ¬con.type.isAggregateType ∧ ¬t.isAggregateType ∧ CastOp.castIsValid .BitCast con.type t then
    some (.bitcast con t)
  else none

def elementTypeByIndex : Btype → ℕ → Option Btype
  | .struct _ fields, fieldIndex => fields[fieldIndex]?
  | .array elemType _, _ => some elemType
  | _, _ => none

def zeroExpression (bt : Btype) : Bexpression := .expr bt (.null bt.type) {}

/-- A constant of the type of an element. -/
def elementConstant (elt : LType) (con : Value) : Option Value :=
  if elt ≠ con.type then getBitCast con elt else some con

/-- The values from position `ii` on, as constants of the types at their positions. -/
def constants (t : LType) : ℕ → List Bexpression → Option (List Value)
  | _, [] => some []
  | ii, bex :: vals => do
    let con ← bex.value
    let con ← elementConstant (t.typeAtIndex ii) con
    let cons ← constants t (ii + 1) vals
    some (con :: cons)

/-- `getNumElements`, as an `unsigned`. -/
def numElementsOf (bt : Btype) : ℕ := bt.type.numElements % 2 ^ 32

def makeConstCompositeExpr (bt : Btype) (indexes : List ℕ) (vals : List Bexpression) :
    Option Bexpression := do
  let numElements := numElementsOf bt
  let cons ← constants bt.type 0 vals
  let llvals ← scatter numElements (fun _ => none) indexes cons
  let llvals ← collect numElements fun ii =>
    if numElements ≠ vals.length ∧ ii ∉ indexes then some (.null (bt.type.typeAtIndex ii))
    else llvals ii
  some (.expr bt (.constantComposite bt.type llvals) {})

def makeDelayedCompositeExpr (node : ℕ) (bt : Btype) (indexes : List ℕ)
    (vals : List Bexpression) : Option Bexpression := do
  let numElements := numElementsOf bt
  let initVals ← scatter numElements (fun _ => none) indexes vals
  let initVals ← collect numElements fun ii =>
    if numElements ≠ vals.length ∧ ii ∉ indexes then (elementTypeByIndex bt ii).map zeroExpression
    else initVals ii
  some (.compositeInit node bt initVals)

/-- The constructors of both kinds of types, from here on. -/
def makeCompositeExpr (node : ℕ) (bt : Btype) (indexes : List ℕ) (vals : List Bexpression) :
    Option Bexpression :=
  if valuesAreConstant vals then makeConstCompositeExpr bt indexes vals
  else makeDelayedCompositeExpr node bt indexes vals

/-- The constructor of a struct, which has a value for every field. -/
def constructorExpression (node : ℕ) (bt : Btype) (vals : List Bexpression) :
    Option Bexpression :=
  if bt.type.isStructTy ∧ vals.length = numElementsOf bt then
    makeCompositeExpr node bt (List.range vals.length) vals
  else none

def Btype.isComposite : Btype → Bool
  | struct .. | array .. => true
  | _ => false

/-- Bit casts are between types of one size. -/
def Value.CastsAreSized : Value → Prop
  | .bitcast v t => v.type.shape.allocSize = t.shape.allocSize ∧ v.CastsAreSized
  | _ => True

/-- An array or a struct with values of the right types for some indexes, or for all fields. -/
structure IsConstructor (bt : Btype) (indexes : List ℕ) (vals : List Bexpression) : Prop where
  composite : bt.isComposite
  plain : bt.type.isPlain
  few : bt.type.numElements < 2 ^ 32
  size : bt.type.shape.allocSize ≤ 2 ^ 64
  nodup : indexes.Nodup
  inRange : ∀ i ∈ indexes, i < bt.type.numElements
  fields : ¬bt.type.isArrayTy → indexes = List.range bt.type.numElements
  values : List.Forall₂ (fun i e => WellTyped e ∧ e.btype.type = bt.type.typeAtIndex i) indexes vals
  casts : ∀ bt v vc, .expr bt v vc ∈ vals → v.CastsAreSized

section Fill

variable {t : LType} {a : BitVec 64}

end Fill

/-! ## Values and their positions -/

section Positions

variable {bt : Btype} {indexes : List ℕ} {vals : List Bexpression} {cons : List Value} {i : ℕ}
  {e : Bexpression}

theorem IsConstructor.length_eq (h : IsConstructor bt indexes vals) :
    indexes.length = vals.length := h.values.length_eq

theorem constants_length {t : LType} {ii : ℕ} (hcons : constants t ii vals = some cons) :
    cons.length = vals.length := by
  induction vals generalizing cons ii with
  | nil =>
    cases hcons
    rfl
  | cons bex vals ih =>
    rw [constants] at hcons
    obtain ⟨v, -, hcons⟩ := Option.bind_eq_some_iff.mp hcons
    obtain ⟨con, -, hcons⟩ := Option.bind_eq_some_iff.mp hcons
    obtain ⟨cons', hrest, hcons⟩ := Option.bind_eq_some_iff.mp hcons
    cases hcons
    rw [List.length_cons, List.length_cons, ih hrest]

theorem types_eq_map (ts : List Btype) : Btype.types ts = ts.map Btype.type := by
  induction ts with
  | nil => rfl
  | cons t ts ih => rw [Btype.types, ih, List.map_cons]

theorem IsConstructor.isAggregateType (h : IsConstructor bt indexes vals) :
    bt.type.isAggregateType := by
  have hcomposite := h.composite
  cases bt with
  | struct id fields => rfl
  | array elemType n => rfl
  | _ => cases hcomposite

end Positions

/-! ## Composites that are built at once -/

section AtOnce

variable {bt : Btype} {indexes : List ℕ} {vals : List Bexpression} {cons : List Value}

end AtOnce

/-! ### States in which all of memory is the same -/

/-- Every byte of memory is `byte`, and all loads have run. -/
def Machine.uniform (byte : BitVec 8) : Machine where
  memory := fun _ => byte
  known v := List.replicate v.type.shape.allocSize 0
  loaded a := some (List.replicate a.type.pointeeType.shape.allocSize 0)

namespace Machine

mutual
theorem uniform_ready (byte : BitVec 8) : ∀ v : Value, (uniform byte).Ready v
  | .constantComposite _ elems => uniform_allReady byte elems
  | .load _ => rfl
  | .bitcast v _ => uniform_ready byte v
  | .field base _ _ => uniform_ready byte base
  | .element base _ index => ⟨uniform_ready byte base, uniform_ready byte index⟩
  | .alloca .. | .argument .. | .globalVariable .. | .constantVariable _ | .temporary ..
  | .null _ | .undef _ | .constantInt .. | .constant .. | .instruction .. | .zext .. | .cast ..
  | .cmp .. | .xor .. => trivial
theorem uniform_allReady (byte : BitVec 8) : ∀ vs : List Value, (uniform byte).AllReady vs
  | [] => trivial
  | v :: vs => ⟨uniform_ready byte v, uniform_allReady byte vs⟩
end

end Machine

section AtOnce

variable {bt : Btype} {indexes : List ℕ} {vals : List Bexpression}

end AtOnce

/-! ## Composites that are expanded -/

section Lists

variable {c : CircularTypes} {es : List Bexpression} {t : LType} {i : ℕ}

theorem allStorable_iff :
    AllStorable c es ↔ ∀ e ∈ es, Storable c e := by
  induction es with
  | nil => simp [AllStorable]
  | cons e es ih => rw [AllStorable, ih, List.forall_mem_cons]

theorem AllContain.getElem {M : Machine} {m : BitVec 64 → BitVec 8} {a : BitVec 64}
    (h : AllContain M m a t es i) {k : ℕ} {e : Bexpression} (hk : es[k]? = some e) :
    Contains M m (a + BitVec.ofNat 64 (t.partOffset (i + k))) e := by
  induction es generalizing i k with
  | nil => cases hk
  | cons e' es ih =>
    cases k with
    | zero =>
      cases hk
      exact h.1
    | succ k =>
      have hrest := ih h.2 (k := k) hk
      rwa [Nat.add_right_comm, Nat.add_assoc] at hrest

end Lists

section Delayed

variable {c : CircularPointerTypes} {node : ℕ} {bt : Btype} {indexes : List ℕ}
  {vals : List Bexpression}

end Delayed

/-- `[2]int`. -/
def twoInts : Btype := .array (.integer false 64) 2

end Dragongo
