import Dragongo.EightByte

/-!
# Backend expressions

An expression has a backend type and an LLVM value.  Two kinds are resolved only when
their context is known: a reference to a variable or a part of one, whose value is still
the address, and a composite that has no storage yet.  LLVM values are symbolic: a value
says how it was made.  A failed assertion is `none`.
-/

namespace Dragongo
open LType

namespace LType

def isAggregateType (t : LType) : Bool := t.isStructTy || t.isArrayTy

def isIntegerTy : LType → Bool
  | int _ => true
  | _ => false

def isFunctionTy : LType → Bool
  | func .. => true
  | _ => false

/-- `getElementType` of a pointer. -/
def pointeeType : LType → LType
  | ptr t => t
  | _ => void

/-- `getTypeAtIndex` of a struct or an array. -/
def typeAtIndex : LType → ℕ → LType
  | array elem _, _ => elem
  | struct _ fields, i => fields.getD i void
  | _, _ => void

def numElements : LType → ℕ
  | array _ n => n
  | struct _ fields => fields.length
  | _ => 0

end LType

/-- The casts that the backend emits. -/
inductive CastOp
  | PtrToInt
  | IntToPtr
  | BitCast
  | ZExt
  | SExt
  | Trunc
  | FPToUI
  | UIToFP
  | SIToFP
  | FPTrunc
  | FPExt
deriving DecidableEq, Repr

/-- The predicates of integer and of floating point comparisons. -/
inductive Predicate
  | ICMP_EQ
  | ICMP_NE
  | ICMP_ULT
  | ICMP_SLT
  | ICMP_ULE
  | ICMP_SLE
  | ICMP_UGT
  | ICMP_SGT
  | ICMP_UGE
  | ICMP_SGE
  | FCMP_OEQ
  | FCMP_ONE
  | FCMP_OLT
  | FCMP_OLE
  | FCMP_OGT
  | FCMP_OGE
deriving DecidableEq, Repr

/-- An LLVM value.  A `constantVariable` is the private module variable that
`genVarForConstant` makes for its initializer; a `temporary` is the local variable that a
composite, named by its node, is built in. -/
inductive Value
  | alloca (id : ℕ) (type : LType)
  | argument (index : ℕ) (type : LType)
  | globalVariable (id : ℕ) (type : LType)
  | constantVariable (initializer : Value)
  | temporary (node : ℕ) (type : LType)
  | null (type : LType)
  | undef (type : LType)
  | constantInt (bits : ℕ) (n : ℤ)
  | constant (id : ℕ) (type : LType)
  | constantComposite (type : LType) (elems : List Value)
  | instruction (id : ℕ) (type : LType)
  | field (base : Value) (type : LType) (index : ℕ)
  | element (base : Value) (type : LType) (index : Value)
  | load (address : Value)
  | bitcast (value : Value) (type : LType)
  | zext (value : Value) (type : LType)
  | cast (op : CastOp) (value : Value) (type : LType)
  | cmp (pred : Predicate) (left right : Value)
  | xor (left right : Value)
deriving Repr

namespace Value

/-- The type of a value; storage of type `T` is a value of type `ptr T`. -/
def type : Value → LType
  | alloca _ t => ptr t
  | argument _ t => t
  | globalVariable _ t => ptr t
  | constantVariable v => ptr v.type
  | temporary _ t => ptr t
  | null t => t
  | undef t => t
  | constantInt bits _ => int bits
  | constant _ t => t
  | constantComposite t _ => t
  | instruction _ t => t
  | field _ t i => ptr (t.typeAtIndex i)
  | element _ t _ => ptr (t.typeAtIndex 0)
  | load a => a.type.pointeeType
  | bitcast _ t => t
  | zext _ t => t
  | cast _ _ t => t
  | cmp .. => int 1
  | xor left _ => left.type

/-- `isa<Constant>`: the builders fold casts and field addresses of constants. -/
def isConstant : Value → Bool
  | globalVariable .. | constantVariable _ | null _ | undef _ | constantInt .. | constant ..
  | constantComposite .. => true
  | field base _ _ => base.isConstant
  | element base _ index => base.isConstant && index.isConstant
  | bitcast v _ => v.isConstant
  | zext v _ | cast _ v _ => v.isConstant
  | cmp _ left right | xor left right => left.isConstant && right.isConstant
  | _ => false

/-- The value of a variable that `makeModuleVar` recorded in `valueVarMap_`. -/
def isModuleVar : Value → Bool
  | globalVariable .. | constantVariable _ => true
  | _ => false

/-- A null constant of the type that `nil_pointer_expression` gives it. -/
def isNilPointer : Value → Bool
  | null (ptr (int 64)) => true
  | _ => false

end Value

/-- Whether an address that is still to be loaded from, or handed out, is the value. -/
structure VarContext where
  addrLevel : ℕ := 0
  lvalue : Bool := false
  pending : Bool := false
deriving DecidableEq, Repr

inductive Varexpr_context
  | VE_rvalue
  | VE_lvalue
deriving DecidableEq, Repr

open Varexpr_context

/-- An expression with a value, or a composite whose storage is not known yet. -/
inductive Bexpression
  | expr (btype : Btype) (value : Value) (varContext : VarContext)
  | compositeInit (node : ℕ) (btype : Btype) (elems : List Bexpression)
deriving Repr

namespace Bexpression

def btype : Bexpression → Btype
  | expr bt _ _ => bt
  | compositeInit _ bt _ => bt

def value : Bexpression → Option Value
  | expr _ v _ => some v
  | compositeInit .. => none

/-- Composite values need to be referred to by address. -/
def varContextDisp (e : Bexpression) : Varexpr_context :=
  if e.btype.type.isAggregateType then VE_lvalue else VE_rvalue

end Bexpression

/-- What the type manager has recorded about circular pointer types. -/
structure CircularTypes where
  loadConversion : Btype → Option Btype
  isCircularPointerType : LType → Bool
  isPointerTy : ∀ {bt t : Btype}, loadConversion bt = some t → t.type.isPointerTy

/-- An address that is read through, with the expression whose contents are read, and the
number of bytes if they are copied. -/
structure Access where
  address : Value
  source : Bexpression
  copied : Option ℕ := none
deriving Repr

/-- A resolved expression, with what was read to resolve it. -/
structure Resolved where
  btype : Btype
  value : Value
  accesses : List Access
deriving Repr

/-! ## Pointer types that an assignment converts between -/

namespace LType

def isPtrToIfaceStructType : LType → Bool
  | ptr (struct _ [t0, t1]) => t0.isPointerTy && (t1.isPointerTy || t1 == int 64)
  | _ => false

def isFuncDescriptorType : LType → Bool
  | struct _ [t] => t == int 64 || t.isFunctionTy || t.pointeeType.isFunctionTy
  | _ => false

def isPtrToFuncDescriptorType : LType → Bool
  | ptr t => t.isFuncDescriptorType
  | _ => false

def isPtrToFuncType (t : LType) : Bool := t.pointeeType.isFunctionTy

def isPtrToVoidType (t : LType) : Bool := t == ptr (int 8)

def isPtrToArrayOf : LType → LType → Bool
  | ptr (array elem _), t => elem == t
  | _, _ => false

end LType

section Resolve

variable (c : CircularTypes)

/-- Whether values of one type are cast when they are assigned to another. -/
def areConverted (srcType dstToType : LType) : Bool :=
  srcType.isPtrToFuncDescriptorType &&
      (dstToType.isPtrToFuncDescriptorType || c.isCircularPointerType dstToType) ||
    srcType.isPtrToFuncType && (dstToType.isPtrToVoidType || dstToType.isPtrToFuncDescriptorType) ||
    dstToType.isPtrToVoidType && srcType.isPtrToIfaceStructType ||
    dstToType.isPointerTy && srcType.isPtrToArrayOf dstToType.pointeeType ||
    dstToType.isPtrToVoidType && srcType.isPointerTy

def convertForAssignment (srcType : LType) (v : Value) (dstToType : LType) : Value :=
  if dstToType = srcType then v
  else if areConverted c srcType dstToType || v.isNilPointer then .bitcast v dstToType
  else v

/-- The address that a load of a circular pointer type goes through: `convert_expression`
to a pointer to `tctyp`, or to a pointer to that while a reference is pending. -/
def circularSpace (bt : Btype) (v : Value) (vc : VarContext) (tctyp : Btype) : Value :=
  let toType := ptr tctyp.type
  if toType = v.type then v
  else if vc.pending ∧ v.type = ptr bt.type then .bitcast v (ptr toType)
  else .bitcast v toType

def loadFromExpr (bt : Btype) (v : Value) (vc : VarContext) (loadType : Btype) : Resolved :=
  match c.loadConversion bt with
  | none => ⟨loadType, .load v, [{ address := v, source := .expr bt v vc }]⟩
  | some tctyp =>
    let space := circularSpace bt v vc tctyp
    ⟨tctyp, .load space, [{ address := v, source := .expr bt v vc },
      { address := space, source := .expr bt v vc }]⟩

def resolveVarContext (bt : Btype) (v : Value) (vc : VarContext) (ctx : Varexpr_context) :
    Option Resolved :=
  if vc.pending then
    if vc.addrLevel = 0 ∨ vc.addrLevel = 1 then
      if vc.addrLevel = 1 ∨ vc.lvalue ∨ ctx = VE_lvalue then
        if vc.addrLevel = 0 ∨ bt.type.isPointerTy then some ⟨bt, v, []⟩ else none
      else some (loadFromExpr c bt v vc bt)
    else none
  else some ⟨bt, v, []⟩

/-- The variable that holds a constant: the module variable that the constant is, or a
new one, whose initializer must have its type. -/
def genVarForConstant (v : Value) (bt : Btype) : Option Value :=
  if v.isModuleVar then some v
  else if v.type = bt.type then some (.constantVariable v)
  else none

/-- The address of an aggregate; a constant is put into a variable first. -/
def spillConstant (v : Value) (bt : Btype) : Option Value :=
  if v.isConstant then genVarForConstant v bt else some v

/-- The check and the accesses of a store of a resolved value into a location of type
`ptr dstType`: a scalar is stored, an aggregate is copied from memory. -/
def genStore (src : Bexpression) (r : Resolved) (dstType : LType) : Option (List Access) :=
  if r.value.type = void then some r.accesses
  else if r.btype.type.isAggregateType then do
    let v ← spillConstant r.value r.btype
    let sz ← r.btype.type.allocSize
    if v.type.isPointerTy then some (r.accesses ++ [⟨v, src, some sz⟩]) else none
  else
    let v := if r.value.type.isPointerTy then convertForAssignment c r.btype.type r.value dstType
      else r.value
    if v.type = dstType then some r.accesses else none

mutual
/-- `resolve`; a composite is built in a temporary first. -/
def resolve : Bexpression → Varexpr_context → Option Resolved
  | .expr bt v vc, ctx => resolveVarContext c bt v vc ctx
  | .compositeInit node bt elems, ctx =>
    if bt.type.isAggregateType ∧ elems.length = bt.type.numElements then do
      let accs ← storeElems elems bt.type 0
      let r ← resolveVarContext c bt (.temporary node bt.type) { pending := true } ctx
      some { r with accesses := accs ++ r.accesses }
    else none
/-- Store the elements from index `i` on, each into its place in the temporary. -/
def storeElems : List Bexpression → LType → ℕ → Option (List Access)
  | [], _, _ => some []
  | e :: es, t, i => do
    let r ← resolve e e.varContextDisp
    let accs ← genStore c e r (t.typeAtIndex i)
    let rest ← storeElems es t (i + 1)
    some (accs ++ rest)
end

end Resolve

end Dragongo
