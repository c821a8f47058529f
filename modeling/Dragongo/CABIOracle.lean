import Dragongo.EightByte

/-!
# The C ABI oracle

How each parameter and the result of a function travel, and the LLVM function type
that follows from it.  The register counts are the `unsigned` of the source, so a
count below zero would show as a huge one.
-/

namespace Dragongo
open LType TypDisp

inductive CABIParamDisp
  | direct
  | ignore
  | indirect
deriving DecidableEq, Repr

/-- How one parameter, or the result, is passed.  `sigOffset` is the index of its first
slot in the LLVM signature, or -1. -/
structure CABIParamInfo where
  abiTypes : List LType
  disp : CABIParamDisp
  attr : CABIParamAttr
  sigOffset : ℤ
deriving Repr

namespace CABIParamInfo

def numArgSlots (info : CABIParamInfo) : ℕ := info.abiTypes.length

/-- The type of the single slot, which is asserted to be the only one. -/
def abiType (info : CABIParamInfo) : Option LType :=
  match info.abiTypes with
  | [t] => some t
  | _ => none

def computeABIStructType (info : CABIParamInfo) : Option LType :=
  match info.abiTypes with
  | [t] => if t.isStructTy then some t else none
  | [t0, t1] => some (makeLLVMTwoElementStructType t0 t1)
  | _ => none

end CABIParamInfo

/-- The registers and signature slots left over by the parameters classified so far. -/
structure ABIState where
  availIntRegs : UInt32
  availSSERegs : UInt32
  argCount : ℕ
deriving DecidableEq, Repr

namespace ABIState

def new : ABIState := ⟨6, 8, 0⟩

def takeReg (regs : UInt32) : UInt32 := if regs ≠ 0 then regs - 1 else regs

def addDirectIntArg (s : ABIState) : ABIState :=
  { s with availIntRegs := takeReg s.availIntRegs, argCount := s.argCount + 1 }

def addDirectSSEArg (s : ABIState) : ABIState :=
  { s with availSSERegs := takeReg s.availSSERegs, argCount := s.argCount + 1 }

def addIndirectArg (s : ABIState) : ABIState := { s with argCount := s.argCount + 1 }

def addIndirectReturn (s : ABIState) : ABIState :=
  { s with availIntRegs := takeReg s.availIntRegs, argCount := s.argCount + 1 }

def addChainArg (s : ABIState) : ABIState := { s with argCount := s.argCount + 1 }

/-- A directly passed region takes a slot, and a register of its class if one is left. -/
def addDirectArg (s : ABIState) (ebr : EightByteRegion) : ABIState :=
  if ebr.getRegionTypDisp = flavSSE then s.addDirectSSEArg else s.addDirectIntArg

end ABIState

def llvmPtrType : LType := .ptr (.int 8)

def classifyArgType (t : LType) : Option CABIParamDisp := do
  let sz ← t.allocSize
  some (if sz = 0 then .ignore else if sz ≤ 16 then .direct else .indirect)

def LType.isVoidTy : LType → Bool
  | void => true
  | _ => false

def classifyResultType (rtyp : LType) : Option CABIParamDisp :=
  if rtyp.isVoidTy then some .ignore else classifyArgType rtyp

def directReturn : List EightByteRegion → Option CABIParamInfo
  | [ebr] => do
    let t ← ebr.abiDirectType
    some ⟨[t], .direct, ebr.attr, -1⟩
  | [ebr0, ebr1] => do
    let t0 ← ebr0.abiDirectType
    let t1 ← ebr1.abiDirectType
    some ⟨[makeLLVMTwoElementStructType t0 t1], .direct, .none, -1⟩
  | _ => none

def analyzeABIReturn (resultType : Btype) (state : ABIState) :
    Option (CABIParamInfo × ABIState) := do
  match ← classifyResultType resultType.type with
  | .ignore => some (⟨[void], .ignore, .none, -1⟩, state)
  | .indirect =>
    some (⟨[ptr resultType.type], .indirect, .structReturn, 0⟩, state.addIndirectReturn)
  | .direct =>
    let ebrs ← eightByteInfo resultType
    let info ← directReturn ebrs
    some (info, state)

theorem classifyArgType_some {t : LType} {disp : CABIParamDisp}
    (h : classifyArgType t = some disp) :
    t.isSized ∧ disp = if t.shape.allocSize = 0 then .ignore
      else if t.shape.allocSize ≤ 16 then .direct else .indirect := by
  unfold classifyArgType LType.allocSize at h
  split_ifs at h with hs
  · exact ⟨hs, (Option.some.inj h).symm⟩
  · contradiction

theorem directReturn_some {ebrs : List EightByteRegion} {info : CABIParamInfo}
    (h : directReturn ebrs = some info) :
    info.disp = .direct ∧ info.sigOffset = -1 ∧ ∃ t, info.abiTypes = [t] := by
  match ebrs with
  | [ebr] =>
    obtain ⟨t, -, h⟩ := Option.bind_eq_some_iff.mp h
    obtain rfl := Option.some.inj h
    exact ⟨rfl, rfl, t, rfl⟩
  | [ebr0, ebr1] =>
    obtain ⟨t0, -, h⟩ := Option.bind_eq_some_iff.mp h
    obtain ⟨t1, -, h⟩ := Option.bind_eq_some_iff.mp h
    obtain rfl := Option.some.inj h
    exact ⟨rfl, rfl, _, rfl⟩

/-- The result is either returned through a hidden pointer, which takes an integer
register, or takes nothing. -/
theorem analyzeABIReturn_cases {bt : Btype} {state state' : ABIState} {info : CABIParamInfo}
    (h : analyzeABIReturn bt state = some (info, state')) :
    (¬bt.type.isVoidTy ∧ 16 < bt.type.shape.allocSize ∧ state' = state.addIndirectReturn ∧
        info = ⟨[ptr bt.type], .indirect, .structReturn, 0⟩) ∨
      ((bt.type.isVoidTy ∨ bt.type.shape.allocSize ≤ 16) ∧ state' = state ∧
        info.disp ≠ .indirect ∧ info.sigOffset = -1 ∧ ∃ t, info.abiTypes = [t]) := by
  unfold analyzeABIReturn at h
  obtain ⟨disp, hdisp, h⟩ := Option.bind_eq_some_iff.mp h
  unfold classifyResultType at hdisp
  have hsize : (disp = .indirect ∧ ¬bt.type.isVoidTy ∧ 16 < bt.type.shape.allocSize) ∨
      disp ≠ .indirect ∧ (bt.type.isVoidTy ∨ bt.type.shape.allocSize ≤ 16) := by
    split_ifs at hdisp with hvoid
    · obtain rfl := Option.some.inj hdisp
      exact .inr ⟨by decide, .inl hvoid⟩
    · obtain ⟨-, rfl⟩ := classifyArgType_some hdisp
      split_ifs with h0 h16
      · exact .inr ⟨by decide, .inr (by omega)⟩
      · exact .inr ⟨by decide, .inr h16⟩
      · exact .inl ⟨rfl, hvoid, by omega⟩
  cases disp with
  | indirect =>
    obtain ⟨rfl, rfl⟩ := Prod.mk.inj (Option.some.inj h)
    have hsize := hsize.resolve_right fun hne => hne.1 rfl
    exact .inl ⟨hsize.2.1, hsize.2.2, rfl, rfl⟩
  | ignore =>
    obtain ⟨rfl, rfl⟩ := Prod.mk.inj (Option.some.inj h)
    have hsize := hsize.resolve_left fun heq => by cases heq.1
    exact .inr ⟨hsize.2, rfl, by decide, rfl, void, rfl⟩
  | direct =>
    obtain ⟨ebrs, -, h⟩ := Option.bind_eq_some_iff.mp h
    obtain ⟨info', hinfo, h⟩ := Option.bind_eq_some_iff.mp h
    obtain ⟨rfl, rfl⟩ := Prod.mk.inj (Option.some.inj h)
    obtain ⟨hd, hoff, ht⟩ := directReturn_some hinfo
    have hsize := hsize.resolve_left fun heq => by cases heq.1
    exact .inr ⟨hsize.2, rfl, by rw [hd]; decide, hoff, ht⟩

def canPassDirectly (regsInt regsSSE : ℕ) (state : ABIState) : Bool :=
  regsInt + regsSSE == 1 ||
    (regsInt ≤ state.availIntRegs.toNat && regsSSE ≤ state.availSSERegs.toNat)

/-- The auxiliary types that the assertion on entry keeps out of parameters. -/
def auxParamAllowed : Btype → Bool
  | .aux (.struct ..) | .aux (.structRef _) | .aux (.array ..) | .aux .twoFloatVec
  | .aux (.int 8) | .aux (.int 16) => false
  | _ => true

/-- The attribute of a parameter whose regions may name it at most once. -/
def regionAttr : List EightByteRegion → CABIParamAttr → Option CABIParamAttr
  | [], attr => some attr
  | ebr :: ebrs, attr =>
    if ebr.attr ≠ .none then
      if attr = .none ∨ attr = ebr.attr then regionAttr ebrs ebr.attr else none
    else regionAttr ebrs attr

/-- A value of at most 16 bytes, given its regions: in registers if they are left. -/
def passEightBytes (ptyp : LType) (ebrs : List EightByteRegion) (state : ABIState) :
    Option (CABIParamInfo × ABIState) :=
  let regs := getRegisterRequirements ebrs
  if canPassDirectly regs.1 regs.2 state then do
    let abiTypes ← ebrs.mapM (·.abiDirectType)
    let attr ← regionAttr ebrs .none
    some (⟨abiTypes, .direct, attr, state.argCount⟩, ebrs.foldl ABIState.addDirectArg state)
  else some (⟨[ptr ptyp], .indirect, .byVal, state.argCount⟩, state.addIndirectArg)

def analyzeABIParam (paramType : Btype) (state : ABIState) :
    Option (CABIParamInfo × ABIState) :=
  let ptyp := paramType.type
  if auxParamAllowed paramType then do
    match ← classifyArgType ptyp with
    | .ignore => some (⟨[void], .ignore, .none, -1⟩, state)
    | .indirect => some (⟨[ptr ptyp], .indirect, .byVal, state.argCount⟩, state.addIndirectArg)
    | .direct =>
      let ebrs ← eightByteInfo paramType
      passEightBytes ptyp ebrs state
  else none

/-- The loop over the parameters. -/
def analyzeABIParams : List Btype → ABIState → Option (List CABIParamInfo × ABIState)
  | [], state => some ([], state)
  | t :: ts, state => do
    let r ← analyzeABIParam t state
    let rs ← analyzeABIParams ts r.2
    some (r.1 :: rs.1, rs.2)

structure CABIOracle where
  returnInfo : CABIParamInfo
  chainInfo : CABIParamInfo
  paramInfos : List CABIParamInfo
  fcnTypeForABI : LType
deriving Repr

/-- The parameter types of the LLVM function: one for each slot of what is not ignored. -/
def slotTypes (infos : List CABIParamInfo) : List LType :=
  (infos.filter fun info => info.disp ≠ .ignore).flatMap (·.abiTypes)

/-- A builtin: every value is passed and returned as it is, without a static chain. -/
def analyzeRaw (paramTypes : List Btype) (resultType : Btype) : CABIOracle where
  returnInfo := ⟨[resultType.type], .direct, .none, -1⟩
  chainInfo := ⟨[llvmPtrType], .ignore, .nest, -1⟩
  paramInfos := paramTypes.zipIdx.map fun p => ⟨[p.1.type], .direct, .none, p.2⟩
  fcnTypeForABI := .func resultType.type (paramTypes.map Btype.type)

def chainParm (state : ABIState) : CABIParamInfo := ⟨[llvmPtrType], .direct, .nest, state.argCount⟩

/-- The LLVM function type made of the decisions. -/
def cookedType (rinfo : CABIParamInfo) (infos : List CABIParamInfo) : Option LType := do
  let rt ← rinfo.abiType
  if rinfo.disp = .indirect then some (.func void (rt :: slotTypes infos))
  else some (.func rt (slotTypes infos))

theorem cookedType_some {rinfo : CABIParamInfo} {t : LType} (ht : rinfo.abiTypes = [t])
    (infos : List CABIParamInfo) : ∃ ft, cookedType rinfo infos = some ft := by
  simp only [cookedType, CABIParamInfo.abiType, ht, Option.bind_eq_bind, Option.bind_some]
  split_ifs
  · exact ⟨_, rfl⟩
  · exact ⟨_, rfl⟩

def analyze (paramTypes : List Btype) (resultType : Btype) (followsCabi : Bool) :
    Option CABIOracle :=
  if followsCabi then do
    let (rinfo, state) ← analyzeABIReturn resultType .new
    let (infos, _) ← analyzeABIParams paramTypes state.addChainArg
    let ft ← cookedType rinfo (chainParm state :: infos)
    some ⟨rinfo, chainParm state, infos, ft⟩
  else some (analyzeRaw paramTypes resultType)

def isFuncReturningVoid : LType → Bool
  | .func void _ => true
  | _ => false

/-- `TypeManager::makeLLVMFunctionType`, which asserts that a result of size zero is
returned as void. -/
def makeLLVMFunctionType (paramTypes : List Btype) (rbtype : Btype) (followsCabi : Bool) :
    Option LType := do
  let oracle ← analyze paramTypes rbtype followsCabi
  if !rbtype.type.isSized || rbtype.type.shape.bits != 0 ||
      isFuncReturningVoid oracle.fcnTypeForABI then some oracle.fcnTypeForABI
  else none

end Dragongo
