import Dragongo.RegisterRule
import Dragongo.Bexpression

/-!
# Calls and function entry

The caller pushes the hidden result pointer, the static chain and the values of the
arguments; the callee walks over its LLVM arguments in `abiSetup`.  Both count slots for
themselves, and both arrive at the offsets that the oracle assigned.
-/

namespace Dragongo
open LType Varexpr_context CABIParamDisp

/-! ## The caller -/

/-- The values pushed so far, and what has been read through. -/
structure GenCallState where
  llargs : List Value := []
  accesses : List Access := []
deriving Repr

namespace GenCallState

def push (state : GenCallState) (vs : List Value) (accs : List Access) : GenCallState :=
  ⟨state.llargs ++ vs, state.accesses ++ accs⟩

end GenCallState

/-- Whether the result travels through memory on the caller's side. -/
def needSretTemp (returnInfo : CABIParamInfo) (resultType : Btype) : Option Bool :=
  match returnInfo.disp with
  | ignore => some false
  | indirect => some true
  | direct => do
    let t ← returnInfo.abiType
    some (t.isAggregateType || resultType.type.isAggregateType)

/-- The static chain, or an undefined pointer in its place. -/
def chainArg (oracle : CABIOracle) (chainVal : Option Value) : Option (List Value) :=
  match oracle.chainInfo.disp with
  | ignore => some []
  | direct => some [chainVal.getD (.undef llvmPtrType)]
  | indirect => none

/-- The temporary for the result, if one is needed, and the first values pushed. -/
def genCallProlog (oracle : CABIOracle) (resultType : Btype) (sretTemp : ℕ)
    (chainVal : Option Value) : Option (Option Value × GenCallState) := do
  let needed ← needSretTemp oracle.returnInfo resultType
  let temp := Value.alloca sretTemp resultType.type
  let hidden := if oracle.returnInfo.disp = indirect then [temp] else []
  let chain ← chainArg oracle chainVal
  some (if needed then some temp else none, GenCallState.push {} (hidden ++ chain) [])

section Marshalling

variable (c : CircularTypes)

/-- The address or the constant that stands for an argument passed in memory. -/
def indirectValue : Bexpression → Option (Value × List Access)
  | .expr _ v _ => some (v, [])
  | .compositeInit node bt elems =>
    (resolve c (.compositeInit node bt elems) VE_lvalue).map fun r => (r.value, r.accesses)

/-- An argument passed in memory: its address. -/
def marshallIndirect (arg : Bexpression) : Option GenCallState := do
  let p ← indirectValue c arg
  let v ← spillConstant p.1 arg.btype
  if v.type.isPointerTy then some ⟨[v], p.2⟩ else none

/-- `CreateZExt`, which leaves a value of the right type alone. -/
def createZExt (v : Value) (t : LType) : Option Value :=
  if v.type = t then some v
  else match v.type, t with
    | int bits, int bits' => if bits < bits' then some (.zext v t) else none
    | _, _ => none

/-- A resolved scalar as the type of its parameter. -/
def convertScalar (paramType : Btype) (r : Resolved) : Value :=
  if r.value.type.isPointerTy ∧ r.value.type ≠ paramType.type then
    convertForAssignment c r.btype.type r.value paramType.type
  else r.value

/-- Zero- or sign-extension, which are both done by `CreateZExt`. -/
def extendScalar (info : CABIParamInfo) (abiType : LType) (v : Value) : Option Value :=
  if abiType.isIntegerTy ∧ (info.attr = .zext ∨ info.attr = .sext) then createZExt v abiType
  else some v

/-- One slot, from a resolved scalar. -/
def marshallScalar (info : CABIParamInfo) (paramType : Btype) (r : Resolved) :
    Option GenCallState := do
  let abiType ← info.abiType
  let v ← extendScalar info abiType (convertScalar c paramType r)
  some ⟨[v], r.accesses⟩

/-- One slot, loaded through the address of a small struct or array. -/
def marshallOneSlot (info : CABIParamInfo) (arg : Bexpression) (r : Resolved) :
    Option GenCallState := do
  let abiType ← info.abiType
  let cast := Value.bitcast r.value (ptr abiType)
  some ⟨[.load cast], r.accesses ++ [⟨r.value, arg, none⟩, ⟨cast, arg, none⟩]⟩

/-- Two slots, loaded through the address of a struct. -/
def marshallTwoSlots (info : CABIParamInfo) (arg : Bexpression) (r : Resolved) :
    Option GenCallState := do
  let llst ← info.computeABIStructType
  let v ← spillConstant r.value r.btype
  let cast := Value.bitcast v (ptr llst)
  let field0 := Value.field cast llst 0
  let field1 := Value.field cast llst 1
  some ⟨[.load field0, .load field1],
    r.accesses ++ [⟨v, arg, none⟩, ⟨cast, arg, none⟩, ⟨field0, arg, none⟩, ⟨field1, arg, none⟩]⟩

/-- The context in which an argument that is not passed in memory is resolved. -/
def argContext (info : CABIParamInfo) (arg : Bexpression) : Varexpr_context :=
  if info.abiTypes.length = 2 then VE_lvalue else arg.varContextDisp

/-- A resolved argument that is passed in one or two slots. -/
def marshallDirect (info : CABIParamInfo) (paramType : Btype) (arg : Bexpression)
    (r : Resolved) : Option GenCallState :=
  match info.abiTypes with
  | [_] =>
    if argContext info arg = VE_lvalue then marshallOneSlot info arg r
    else marshallScalar c info paramType r
  | [_, _] => if info.attr = .none then marshallTwoSlots info arg r else none
  | _ => none

/-- What one argument pushes. -/
def marshallArg (info : CABIParamInfo) (paramType : Btype) (arg : Bexpression) :
    Option GenCallState :=
  if info.attr = .nest then some {}
  else if info.disp = indirect then marshallIndirect c arg
  else do
    let r ← resolve c arg (argContext info arg)
    if info.disp = ignore then some ⟨[], r.accesses⟩ else marshallDirect c info paramType arg r

/-- The loop over the arguments. -/
def genCallMarshallArgs : List CABIParamInfo → List Btype → List Bexpression → GenCallState →
    Option GenCallState
  | info :: infos, paramType :: paramTypes, arg :: args, state => do
    let pushed ← marshallArg c info paramType arg
    genCallMarshallArgs infos paramTypes args (state.push pushed.llargs pushed.accesses)
  | _, _, [], state => some state
  | _, _, _, _ => none

/-- The static chain, converted to an untyped pointer. -/
def chainValue (v : Value) : Value := if v.type = llvmPtrType then v else .bitcast v llvmPtrType

/-- The values that `call_expression` pushes. -/
def callArgs (oracle : CABIOracle) (paramTypes : List Btype) (resultType : Btype) (sretTemp : ℕ)
    (chain : Option Value) (args : List Bexpression) : Option GenCallState := do
  let p ← genCallProlog oracle resultType sretTemp (chain.map chainValue)
  genCallMarshallArgs c oracle.paramInfos paramTypes args p.2

end Marshalling

/-! ## The callee -/

/-- Where the callee finds a parameter: in storage of its own, or behind an argument. -/
inductive ParamValue
  | spill (type : LType)
  | argument (index : ℕ)
deriving Repr

/-- What `abiSetup` decides: the argument that points to the result's memory, the static
chain, and for each parameter the running index and the storage. -/
structure ABISetup where
  rtnValueMem : Option ℕ
  chainVal : ℕ
  params : List (ℕ × ParamValue)
deriving Repr

/-- One parameter, at index `argIdx` of `count` arguments: its storage and the number of
arguments it takes. -/
def abiSetupParam (count : ℕ) (info : CABIParamInfo) (paramType : Btype) (argIdx : ℕ) :
    Option (ParamValue × ℕ) :=
  match info.disp with
  | ignore => some (.spill paramType.type, 0)
  | indirect =>
    if argIdx < count ∧ info.numArgSlots = 1 then some (.argument argIdx, 1) else none
  | direct =>
    if info.attr = .sext ∨ info.attr = .zext then
      if argIdx < count then some (.spill paramType.type, info.numArgSlots) else none
    else if info.attr = .none then some (.spill paramType.type, info.numArgSlots)
    else none

def abiSetupParams (count : ℕ) : List CABIParamInfo → List Btype → ℕ →
    Option (List (ℕ × ParamValue))
  | info :: infos, paramType :: paramTypes, argIdx => do
    let p ← abiSetupParam count info paramType argIdx
    let ps ← abiSetupParams count infos paramTypes (argIdx + p.2)
    some ((argIdx, p.1) :: ps)
  | _, [], _ => some []
  | [], _, _ => none

def LType.params : LType → List LType
  | func _ ts => ts
  | _ => []

def abiSetup (oracle : CABIOracle) (paramTypes : List Btype) : Option ABISetup :=
  let count := oracle.fcnTypeForABI.params.length
  let hidden := oracle.returnInfo.disp = indirect
  let argIdx := if hidden then 1 else 0
  if argIdx < count ∧ oracle.chainInfo.disp = direct then do
    let ps ← abiSetupParams count oracle.paramInfos paramTypes (argIdx + 1)
    some ⟨if hidden then some 0 else none, argIdx, ps⟩
  else none

end Dragongo
