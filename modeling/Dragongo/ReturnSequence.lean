import Dragongo.ReferenceChains
import Dragongo.ReturnedTypes

/-!
# Returning a result

The return statement resolves its values, makes one value of several, and hands that over in a
register, through a load of another type or in the memory of the caller.  The caller takes it
from there, and decides for itself whether it needs memory for it.
-/

namespace Dragongo
open Layout LType Varexpr_context CABIParamDisp Bexpression

/-! ## The callee -/

/-- The expression that is returned once it is resolved, with the expression it was made from. -/
structure ToRet where
  btype : Btype
  value : Value
  source : Bexpression
  accesses : List Access
deriving Repr

/-- What the return instruction has as its operand, or what was copied before it. -/
inductive Handover
  | nothing
  | copied (bytes : ℕ)
  | value (v : Value)
  | loaded (type : LType)
deriving Repr

structure Returned where
  handover : Handover
  source : Bexpression
  accesses : List Access
deriving Repr

/-- The type through which a result that is in memory is loaded. -/
def CABIParamInfo.llrt (returnInfo : CABIParamInfo) (abiType : LType) : Option LType :=
  if abiType.isAggregateType then returnInfo.computeABIStructType else some abiType

/-- `Bfunction::genReturnSequence`. -/
def genReturnSequence (returnInfo : CABIParamInfo) (resultType : Btype) (toRet : ToRet) :
    Option Returned :=
  if returnInfo.disp = ignore ∨ resultType.type = void then
    some ⟨.nothing, toRet.source, toRet.accesses⟩
  else if returnInfo.disp = indirect then do
    let sz ← resultType.type.allocSize
    if toRet.value.type.isPointerTy then
      some ⟨.copied sz, toRet.source,
        toRet.accesses ++ [⟨toRet.value, toRet.source, some sz⟩]⟩
    else none
  else do
    let abiType ← returnInfo.abiType
    if ¬abiType.isAggregateType ∧ ¬toRet.btype.type.isAggregateType then
      some ⟨.value toRet.value, toRet.source, toRet.accesses⟩
    else do
      let llrt ← returnInfo.llrt abiType
      if toRet.value.type.isPointerTy then
        let bitcast := Value.bitcast toRet.value (ptr llrt)
        some ⟨.loaded llrt, toRet.source, toRet.accesses ++
          [⟨toRet.value, toRet.source, none⟩, ⟨bitcast, toRet.source, none⟩]⟩
      else none

def Resolved.expression (r : Resolved) : Bexpression := .expr r.btype r.value {}

section Callee

variable (c : CircularTypes)

/-- The fields of a temporary, from field `i` on, from values that are resolved. -/
def storeResolved : List (Bexpression × Resolved) → LType → ℕ → Option (List Access)
  | [], _, _ => some []
  | (e, r) :: rs, t, i => do
    let accs ← genStore c e r (t.typeAtIndex i)
    let rest ← storeResolved rs t (i + 1)
    some (accs ++ rest)

/-- Several values are a struct: a constant, whose address is returned then, or a temporary. -/
def returnSeveral (node : ℕ) (resultType : Btype) (vals : List Bexpression)
    (resolvedVals : List Resolved) : Option ToRet := do
  match ← constructorExpression node resultType (resolvedVals.map Resolved.expression) with
  | .compositeInit node bt _ => do
    let accs ← storeResolved c (vals.zip resolvedVals) bt.type 0
    some ⟨bt, .temporary node bt.type, .compositeInit node bt vals, accs⟩
  | .expr bt v vc =>
    let accs := resolvedVals.flatMap (·.accesses)
    if v.isConstant then do
      let cv ← genVarForConstant v bt
      match ← addressExpression (varExpression bt cv VE_rvalue) with
      | .expr bt' v' _ => some ⟨bt', v', .expr bt v vc, accs⟩
      | .compositeInit .. => none
    else some ⟨bt, v, .expr bt v vc, accs⟩

/-- The first half of `return_statement`. -/
def toReturn (node : ℕ) (resultType : Btype) (vals : List Bexpression) : Option ToRet := do
  let resolvedVals ← vals.mapM fun val => resolve c val val.varContextDisp
  match vals, resolvedVals with
  | [], _ => some ⟨voidType, .undef void, .expr voidType (.undef void) {}, []⟩
  | [val], [r] => some ⟨r.btype, r.value, val, r.accesses⟩
  | _, _ => returnSeveral c node resultType vals resolvedVals

def returnStatement (node : ℕ) (returnInfo : CABIParamInfo) (resultType : Btype)
    (vals : List Bexpression) : Option Returned := do
  let toRet ← toReturn c node resultType vals
  genReturnSequence returnInfo resultType toRet

end Callee

/-! ## The caller -/

/-- The expression for a call, and the type through which what it returns is stored. -/
structure CallResult where
  expr : Bexpression
  stored : Option LType
deriving Repr

/-- `genCallEpilog`, and the value that the expression for the call was made with. -/
def genCallEpilog (returnInfo : CABIParamInfo) (resultType : Btype) (sretTemp : Option Value)
    (call : Value) : Option CallResult := do
  if ← needSretTemp returnInfo resultType then do
    let temp ← sretTemp
    let expr := Bexpression.expr resultType temp { pending := true }
    if returnInfo.disp = direct then do
      let rt ← if returnInfo.abiTypes.length = 1 then returnInfo.abiType
        else returnInfo.computeABIStructType
      if call.type = rt then some ⟨expr, some rt⟩ else none
    else some ⟨expr, none⟩
  else some ⟨.expr resultType (sretTemp.getD call) {}, none⟩

def LType.returnType : LType → LType
  | func result _ => result
  | t => t

/-! ## Agreement -/

namespace Handover

/-- The type of the return instruction. -/
def type : Handover → LType
  | nothing | copied _ => void
  | value v => v.type
  | loaded t => t

/-- The result goes through memory on the side of the caller. -/
def inMemory : Handover → Bool
  | nothing | value _ => false
  | copied _ | loaded _ => true

/-- The type through which the caller has to store what it gets. -/
def stored : Handover → Option LType
  | loaded t => some t
  | _ => none

/-- The bytes of the result that arrive. -/
def spans : Handover → List Span
  | nothing => []
  | copied n => [⟨0, n⟩]
  | value v => movedSpans v.type
  | loaded t => movedSpans t

/-- The end of the memory that is accessed on each side. -/
def reach : Handover → ℕ
  | nothing | value _ => 0
  | copied n => n
  | loaded t => t.shape.storeSize

theorem loaded_ne_copied (t : LType) (n : ℕ) : loaded t ≠ copied n := by
  intro h
  cases h

theorem loaded_ne_value (t : LType) (v : Value) : loaded t ≠ value v := by
  intro h
  cases h

end Handover

/-- The LLVM value is the value of the expression, and not the address of a place. -/
def IsValue : Bexpression → Value → Prop
  | .expr _ v vc, w => ¬(vc.pending ∧ vc.addrLevel = 0) ∧ w = v
  | .compositeInit .., _ => False

/-- The expression has the values that are returned, in this order. -/
inductive HasResults : Bexpression → List Bexpression → Prop
  | none (e : Bexpression) : HasResults e []
  | one (e : Bexpression) : HasResults e [e]
  | composite (node : ℕ) (bt : Btype) (vals : List Bexpression) :
    HasResults (.compositeInit node bt vals) vals
  | constant (bt : Btype) (vals : List Bexpression) (cons : List Value)
    (h : List.Forall₂ IsValue vals cons) :
    HasResults (.expr bt (.constantComposite bt.type cons) {}) vals

/-- The result that the caller sees: the contents of its temporary, or the value of the call. -/
def takenFrom (rt : Btype) (temp : Option Value) (callValue : Value) : Bexpression :=
  match temp with
  | some v => .expr rt v { pending := true }
  | none => .expr rt callValue {}

/-- What the callee returns is what the caller takes. -/
structure Agree (c : CircularTypes) (rt : Btype) (fcnType : LType) (vals : List Bexpression)
    (ret : Returned) (temp : Option Value) (state : GenCallState) (callValue : Value)
    (call : CallResult) : Prop where
  reads : ∀ a ∈ ret.accesses, a.Reads
  results : HasResults ret.source vals
  value : ∀ v, ret.handover = .value v →
    ∃ r, resolve c ret.source VE_rvalue = some r ∧ r.value = v ∧ v.type = rt.type
  type : ret.handover.type = fcnType.returnType
  needed : temp.isSome = ret.handover.inMemory
  hidden : ∀ n, ret.handover = .copied n → state.llargs.head? = temp
  stored : call.stored = ret.handover.stored
  expr : call.expr = takenFrom rt temp callValue
  arrives : Arrives rt.type ret.handover.spans
  inside : ret.handover.reach ≤ rt.type.shape.allocSize

/-- Every call gets what the return statement returns. -/
def Returns (c : CircularTypes) (node : ℕ) (oracle : CABIOracle) (rt : Btype)
    (vals : List Bexpression) : Prop :=
  ∃ ret, returnStatement c node oracle.returnInfo rt vals = some ret ∧
    ∀ (sretTemp callId : ℕ) (chain : Option Value), ∃ temp state call,
      genCallProlog oracle rt sretTemp chain = some (temp, state) ∧
        genCallEpilog oracle.returnInfo rt temp
          (.instruction callId oracle.fcnTypeForABI.returnType) = some call ∧
        Agree c rt oracle.fcnTypeForABI vals ret temp state
          (.instruction callId oracle.fcnTypeForABI.returnType) call

/-- The values that a function can return: none, one, or one for each field of a struct. -/
def AreResults (rt : Btype) : List Bexpression → Prop
  | [] => rt = voidType
  | [e] => isGoType rt ∧ WellTyped e ∧ e.btype.type = rt.type
  | vals => (∃ id fields, rt = .struct id fields) ∧ isGoType rt ∧
    vals.length = rt.type.numElements ∧ AreWellTyped vals rt.type 0

/-! ## When they agree -/

section Conditions

variable (c : CircularTypes)

/-- A reference to a scalar is loaded, and as its own type. -/
def LoadsAsIs (bt : Btype) (vc : VarContext) : Prop :=
  vc.pending → vc.addrLevel = 0 →
    ¬vc.lvalue ∧ ∀ t, c.loadConversion bt = some t → t.type = bt.type ∨ ptr t.type = bt.type

/-- One value: an aggregate is a reference or a composite, and no constant. -/
def ReturnableAlone : Bexpression → Prop
  | .compositeInit node bt elems => Storable c (.compositeInit node bt elems)
  | .expr bt _ vc =>
    if bt.type.isAggregateType then bt.type.shape.allocSize = 0 ∨ vc.pending
    else LoadsAsIs c bt vc

/-- The value is a constant, and no reference that is loaded from. -/
def StaysConstant : Bexpression → Prop
  | .expr bt v vc => v.isConstant ∧
    (vc.pending → vc.addrLevel = 0 → vc.lvalue ∨ bt.type.isAggregateType)
  | .compositeInit .. => False

/-- Several values: constants are no references, and not returned in one register. -/
def ReturnableTogether (rt : Btype) (vals : List Bexpression) : Prop :=
  vals.length < 2 ^ 32 ∧
    ((∀ e ∈ vals, StaysConstant e) ∧ (∀ e ∈ vals, ¬IsReference e) ∧
        (rt.type.shape.allocSize = 0 ∨ 8 < rt.type.shape.allocSize) ∨
      (¬∀ e ∈ vals, StaysConstant e) ∧ ∀ e ∈ vals, Storable c e)

def Returnable (rt : Btype) : List Bexpression → Prop
  | [] => True
  | [e] => ReturnableAlone c e
  | vals => ReturnableTogether c rt vals

end Conditions

/-! ## The caller's side -/

section Caller

variable {oracle : CABIOracle} {rt : Btype}

/-- A call has a temporary or not, and stores what it gets through the type or not. -/
def CallerTakes (oracle : CABIOracle) (rt : Btype) (inMemory : Bool) (stored : Option LType) :
    Prop :=
  ∀ (sretTemp callId : ℕ) (chain : Option Value), ∃ temp state call,
    genCallProlog oracle rt sretTemp chain = some (temp, state) ∧
      genCallEpilog oracle.returnInfo rt temp
        (.instruction callId oracle.fcnTypeForABI.returnType) = some call ∧
      temp.isSome = inMemory ∧ (oracle.returnInfo.disp = indirect → state.llargs.head? = temp) ∧
      call.stored = stored ∧
      call.expr = takenFrom rt temp (.instruction callId oracle.fcnTypeForABI.returnType)

theorem genCallProlog_eq (hchain : oracle.chainInfo.disp = direct) {needed : Bool}
    (hneeded : needSretTemp oracle.returnInfo rt = some needed) (sretTemp : ℕ)
    (chain : Option Value) : genCallProlog oracle rt sretTemp chain =
      some (if needed then some (.alloca sretTemp rt.type) else none,
        ⟨(if oracle.returnInfo.disp = indirect then [.alloca sretTemp rt.type] else []) ++
          [chain.getD (.undef llvmPtrType)], []⟩) := by
  simp [genCallProlog, hneeded, chainArg, hchain, GenCallState.push]

/-- Without a temporary the value of the call is the result. -/
theorem callerTakes_value (hchain : oracle.chainInfo.disp = direct)
    (hdisp : oracle.returnInfo.disp ≠ indirect)
    (hneeded : needSretTemp oracle.returnInfo rt = some false) :
    CallerTakes oracle rt false none := by
  intro sretTemp callId chain
  refine ⟨none, _, ⟨.expr rt (.instruction callId oracle.fcnTypeForABI.returnType) {}, none⟩,
    genCallProlog_eq hchain hneeded sretTemp chain, ?_, rfl, fun h => absurd h hdisp, rfl, rfl⟩
  simp [genCallEpilog, hneeded]

/-- The callee is given the temporary. -/
theorem callerTakes_hidden (hchain : oracle.chainInfo.disp = direct)
    (hdisp : oracle.returnInfo.disp = indirect) : CallerTakes oracle rt true none := by
  intro sretTemp callId chain
  have hneeded : needSretTemp oracle.returnInfo rt = some true := by simp [needSretTemp, hdisp]
  refine ⟨some (.alloca sretTemp rt.type), _,
    ⟨.expr rt (.alloca sretTemp rt.type) { pending := true }, none⟩,
    genCallProlog_eq hchain hneeded sretTemp chain, ?_, rfl, fun _ => ?_, rfl, rfl⟩
  · simp [genCallEpilog, hneeded, hdisp]
  · rw [if_pos hdisp]
    rfl

/-- The value of the call is stored into the temporary. -/
theorem callerTakes_stored (hchain : oracle.chainInfo.disp = direct)
    (hdisp : oracle.returnInfo.disp = direct) {t : LType}
    (habi : oracle.returnInfo.abiTypes = [t]) (hagg : rt.type.isAggregateType)
    (htype : oracle.fcnTypeForABI.returnType = t) : CallerTakes oracle rt true (some t) := by
  intro sretTemp callId chain
  have habiType : oracle.returnInfo.abiType = some t := by rw [CABIParamInfo.abiType, habi]
  have hneeded : needSretTemp oracle.returnInfo rt = some true := by
    simp [needSretTemp, hdisp, habiType, hagg]
  refine ⟨some (.alloca sretTemp rt.type), _,
    ⟨.expr rt (.alloca sretTemp rt.type) { pending := true }, some t⟩,
    genCallProlog_eq hchain hneeded sretTemp chain, ?_, rfl, fun h => ?_, rfl, rfl⟩
  · simp [genCallEpilog, hneeded, hdisp, habi, habiType, Value.type, htype]
  · rw [hdisp] at h
    cases h

end Caller

/-! ## One result, made already -/

section Deliver

variable {c : CircularTypes} {oracle : CABIOracle} {rt : Btype} {vals : List Bexpression}
  {toRet : ToRet}

/-- What is to be returned is handed over. -/
def Delivers (c : CircularTypes) (oracle : CABIOracle) (rt : Btype) (vals : List Bexpression)
    (toRet : ToRet) : Prop :=
  ∃ ret, genReturnSequence oracle.returnInfo rt toRet = some ret ∧
    ∀ (sretTemp callId : ℕ) (chain : Option Value), ∃ temp state call,
      genCallProlog oracle rt sretTemp chain = some (temp, state) ∧
        genCallEpilog oracle.returnInfo rt temp
          (.instruction callId oracle.fcnTypeForABI.returnType) = some call ∧
        Agree c rt oracle.fcnTypeForABI vals ret temp state
          (.instruction callId oracle.fcnTypeForABI.returnType) call

theorem returns_iff_delivers {node : ℕ} : Returns c node oracle rt vals ↔
    ∃ toRet, toReturn c node rt vals = some toRet ∧ Delivers c oracle rt vals toRet := by
  unfold Returns returnStatement Delivers
  constructor
  · rintro ⟨ret, h, hcalls⟩
    obtain ⟨toRet, hto, h⟩ := Option.bind_eq_some_iff.mp h
    exact ⟨toRet, hto, ret, h, hcalls⟩
  · rintro ⟨toRet, hto, ret, h, hcalls⟩
    exact ⟨ret, by rw [hto]; exact h, hcalls⟩

/-- The part of the agreement that does not depend on the caller. -/
structure Handed (c : CircularTypes) (rt : Btype) (fcnType : LType) (vals : List Bexpression)
    (ret : Returned) : Prop where
  reads : ∀ a ∈ ret.accesses, a.Reads
  results : HasResults ret.source vals
  value : ∀ v, ret.handover = .value v →
    ∃ r, resolve c ret.source VE_rvalue = some r ∧ r.value = v ∧ v.type = rt.type
  type : ret.handover.type = fcnType.returnType
  arrives : Arrives rt.type ret.handover.spans
  inside : ret.handover.reach ≤ rt.type.shape.allocSize

theorem delivers_iff_handed {ret : Returned} {inMemory : Bool} {stored : Option LType}
    (hcaller : CallerTakes oracle rt inMemory stored)
    (hret : genReturnSequence oracle.returnInfo rt toRet = some ret)
    (hmem : ret.handover.inMemory = inMemory) (hstored : ret.handover.stored = stored)
    (hcopied : ∀ n, ret.handover = .copied n → oracle.returnInfo.disp = indirect) :
    Delivers c oracle rt vals toRet ↔ Handed c rt oracle.fcnTypeForABI vals ret := by
  constructor
  · rintro ⟨ret', hret', hcalls⟩
    cases hret.symm.trans hret'
    obtain ⟨temp, state, call, -, -, h⟩ := hcalls 0 0 none
    exact ⟨h.reads, h.results, h.value, h.type, h.arrives, h.inside⟩
  · intro h
    refine ⟨ret, hret, fun sretTemp callId chain => ?_⟩
    obtain ⟨temp, state, call, hprolog, hepilog, hneeded, hhidden, hst, hexpr⟩ :=
      hcaller sretTemp callId chain
    exact ⟨temp, state, call, hprolog, hepilog,
      { reads := h.reads
        results := h.results
        value := h.value
        type := h.type
        needed := hneeded.trans hmem.symm
        hidden := fun n hn => hhidden (hcopied n hn)
        stored := hst.trans hstored.symm
        expr := hexpr
        arrives := h.arrives
        inside := h.inside }⟩

theorem not_delivers (h : genReturnSequence oracle.returnInfo rt toRet = none) :
    ¬Delivers c oracle rt vals toRet := by
  rintro ⟨ret, hret, -⟩
  cases h.symm.trans hret

end Deliver

section Kinds

variable {c : CircularTypes} {oracle : CABIOracle} {rt : Btype} {vals : List Bexpression}
  {toRet : ToRet}

theorem arrives_self (t : LType) : Arrives t (movedSpans t) :=
  arrives_of_inside fun l hl => ⟨l.span, List.mem_map_of_mem hl, Nat.le_refl _, Nat.le_refl _⟩

/-- A Go type without a size has no scalars. -/
theorem arrives_nothing (hgo : isGoResult rt) (h0 : rt.type.shape.allocSize = 0) :
    Arrives rt.type [] := by
  intro src dst l hl i hi hi'
  rcases hgo with hgo | rfl
  · obtain ⟨hpos, hle⟩ := leaf_stop_le (isGoType_isPlain rt hgo) hl
    omega
  · cases List.mem_singleton.mp hl
    exact absurd hi' (Nat.not_lt_zero i)

theorem delivers_ignored (hgo : isGoResult rt) (hchain : oracle.chainInfo.disp = direct)
    (h0 : rt.type.shape.allocSize = 0) (hinfo : oracle.returnInfo = ⟨[void], ignore, .none, -1⟩)
    (htype : oracle.fcnTypeForABI.returnType = void) :
    Delivers c oracle rt vals toRet ↔
      (∀ a ∈ toRet.accesses, a.Reads) ∧ HasResults toRet.source vals := by
  have hneeded : needSretTemp oracle.returnInfo rt = some false := by rw [hinfo]; rfl
  have hdisp : oracle.returnInfo.disp = ignore := by rw [hinfo]
  have hret : genReturnSequence oracle.returnInfo rt toRet =
      some ⟨.nothing, toRet.source, toRet.accesses⟩ := if_pos (.inl hdisp)
  rw [delivers_iff_handed (callerTakes_value hchain (by rw [hdisp]; decide) hneeded) hret rfl rfl
    nofun]
  constructor
  · intro h
    exact ⟨h.reads, h.results⟩
  · rintro ⟨hreads, hresults⟩
    exact ⟨hreads, hresults, nofun, htype.symm, arrives_nothing hgo h0, Nat.zero_le _⟩

theorem isGoResult_ne_void (hgo : isGoResult rt) (h0 : rt.type.shape.allocSize ≠ 0) :
    isGoType rt ∧ rt.type ≠ void := by
  rcases hgo with hgo | rfl
  · exact ⟨hgo, isPlain_ne_void (isGoType_isPlain rt hgo)⟩
  · exact absurd rfl h0

/-- An aggregate is handed over just if its address is that of memory that holds the result. -/
theorem delivers_hidden (hgo : isGoResult rt) (hchain : oracle.chainInfo.disp = direct)
    (h16 : 16 < rt.type.shape.allocSize)
    (hinfo : oracle.returnInfo = ⟨[ptr rt.type], indirect, .structReturn, 0⟩)
    (htype : oracle.fcnTypeForABI.returnType = void)
    (hsource : toRet.source.btype.type = rt.type) :
    Delivers c oracle rt vals toRet ↔ (∀ a ∈ toRet.accesses, a.Reads) ∧
      HasResults toRet.source vals ∧ Denotes toRet.value toRet.source := by
  obtain ⟨hgo', hvoid⟩ := isGoResult_ne_void hgo (Nat.ne_of_gt (Nat.zero_lt_of_lt h16))
  have hplain := isGoType_isPlain rt hgo'
  have hdisp : oracle.returnInfo.disp = indirect := by rw [hinfo]
  have hseq : genReturnSequence oracle.returnInfo rt toRet =
      if toRet.value.type.isPointerTy then
        some ⟨.copied rt.type.shape.allocSize, toRet.source, toRet.accesses ++
          [⟨toRet.value, toRet.source, some rt.type.shape.allocSize⟩]⟩ else none := by
    simp [genReturnSequence, hdisp, hvoid, allocSize_of_isPlain hplain]
  by_cases hptr : toRet.value.type.isPointerTy
  · rw [if_pos hptr] at hseq
    rw [delivers_iff_handed (callerTakes_hidden hchain hdisp) hseq rfl rfl fun _ _ => hdisp]
    constructor
    · intro h
      have hlast := h.reads ⟨toRet.value, toRet.source, some rt.type.shape.allocSize⟩ (by simp)
      exact ⟨fun a ha => h.reads a (List.mem_append_left _ ha), h.results, hlast.denotes⟩
    · rintro ⟨hreads, hresults, hden⟩
      refine ⟨fun a ha => ?_, hresults, nofun, htype.symm, ?_, Nat.le_refl _⟩
      · rcases List.mem_append.mp ha with ha | ha
        · exact hreads a ha
        · rw [List.mem_singleton.mp ha]
          exact ⟨hden, fun n hn => by rw [hsource]; exact (Option.some.inj hn).symm⟩
      · refine arrives_of_inside fun l hl => ⟨_, List.mem_singleton_self _, Nat.zero_le _, ?_⟩
        have hle := (leaf_stop_le hplain hl).2
        simpa [Span.stop] using hle
  · rw [if_neg hptr] at hseq
    exact iff_of_false (not_delivers hseq) fun h => hptr h.2.2.isPointerTy

theorem delivers_loaded (hgo : isGoResult rt) (hchain : oracle.chainInfo.disp = direct)
    {t : LType} {attr : CABIParamAttr} (hagg : rt.type.isAggregateType)
    (h1 : 1 ≤ rt.type.shape.allocSize) (htravels : TravelsAs rt t)
    (hstruct : t.isAggregateType → t.isStructTy)
    (hinfo : oracle.returnInfo = ⟨[t], direct, attr, -1⟩)
    (htype : oracle.fcnTypeForABI.returnType = t)
    (hto : toRet.btype.type.isAggregateType ∨ t.isAggregateType) :
    Delivers c oracle rt vals toRet ↔ ((∀ a ∈ toRet.accesses, a.Reads) ∧
      HasResults toRet.source vals ∧ Denotes toRet.value toRet.source) ∧ ResultTravels rt := by
  obtain ⟨hgo', hvoid⟩ := isGoResult_ne_void hgo (Nat.ne_of_gt h1)
  have hdisp : oracle.returnInfo.disp = direct := by rw [hinfo]
  have habi : oracle.returnInfo.abiTypes = [t] := by rw [hinfo]
  have habiType : oracle.returnInfo.abiType = some t := by rw [CABIParamInfo.abiType, habi]
  have hllrt : oracle.returnInfo.llrt t = some t := by
    unfold CABIParamInfo.llrt
    split_ifs with h
    · rw [CABIParamInfo.computeABIStructType, habi]
      exact if_pos (hstruct h)
    · rfl
  have hnot : ¬(¬t.isAggregateType ∧ ¬toRet.btype.type.isAggregateType) := by
    rintro ⟨ht, hbt⟩
    exact hto.elim hbt ht
  have hseq : genReturnSequence oracle.returnInfo rt toRet =
      if toRet.value.type.isPointerTy then
        some ⟨.loaded t, toRet.source, toRet.accesses ++
          [⟨toRet.value, toRet.source, none⟩,
            ⟨.bitcast toRet.value (ptr t), toRet.source, none⟩]⟩ else none := by
    rw [genReturnSequence, if_neg (by rw [hdisp]; simp [hvoid]), if_neg (by rw [hdisp]; decide),
      habiType, Option.bind_eq_bind, Option.bind_some, if_neg hnot, hllrt]
    rfl
  by_cases hptr : toRet.value.type.isPointerTy
  · rw [if_pos hptr] at hseq
    rw [delivers_iff_handed (callerTakes_stored hchain hdisp habi hagg htype) hseq rfl rfl
      fun n h => absurd h (Handover.loaded_ne_copied t n), ← htravels.arrives_iff]
    constructor
    · intro h
      have haddr := h.reads ⟨toRet.value, toRet.source, none⟩ (by simp)
      exact ⟨⟨fun a ha => h.reads a (List.mem_append_left _ ha), h.results, haddr.denotes⟩,
        h.inside, h.arrives⟩
    · rintro ⟨⟨hreads, hresults, hden⟩, hinside, harrives⟩
      refine ⟨fun a ha => ?_, hresults, fun v h => absurd h (Handover.loaded_ne_value t v),
        htype.symm, harrives, hinside⟩
      rcases List.mem_append.mp ha with ha | ha
      · exact hreads a ha
      · simp only [List.mem_cons, List.not_mem_nil, or_false] at ha
        rcases ha with rfl | rfl
        · exact hden.reads
        · exact (hden.bitcast t).reads
  · rw [if_neg hptr] at hseq
    exact iff_of_false (not_delivers hseq) fun h => hptr h.1.2.2.isPointerTy

/-- Without memory on either side the value is returned as it is. -/
theorem genReturnSequence_value (hvoid : rt.type ≠ void) {t : LType} {attr : CABIParamAttr}
    (hinfo : oracle.returnInfo = ⟨[t], direct, attr, -1⟩) (ht : ¬t.isAggregateType)
    (hto : ¬toRet.btype.type.isAggregateType) :
    genReturnSequence oracle.returnInfo rt toRet =
      some ⟨.value toRet.value, toRet.source, toRet.accesses⟩ := by
  have hdisp : oracle.returnInfo.disp = direct := by rw [hinfo]
  have habiType : oracle.returnInfo.abiType = some t := by rw [hinfo]; rfl
  rw [genReturnSequence, if_neg (by rw [hdisp]; simp [hvoid]), if_neg (by rw [hdisp]; decide),
    habiType, Option.bind_eq_bind, Option.bind_some, if_pos ⟨ht, hto⟩]

theorem delivers_value (hgo : isGoType rt) (hchain : oracle.chainInfo.disp = direct)
    {attr : CABIParamAttr} (hagg : ¬rt.type.isAggregateType)
    (hinfo : oracle.returnInfo = ⟨[rt.type], direct, attr, -1⟩)
    (htype : oracle.fcnTypeForABI.returnType = rt.type)
    (hto : ¬toRet.btype.type.isAggregateType) :
    Delivers c oracle rt vals toRet ↔ (∀ a ∈ toRet.accesses, a.Reads) ∧
      HasResults toRet.source vals ∧ toRet.value.type = rt.type ∧
        ∃ r, resolve c toRet.source VE_rvalue = some r ∧ r.value = toRet.value := by
  have hvoid := isPlain_ne_void (isGoType_isPlain rt hgo)
  have hdisp : oracle.returnInfo.disp = direct := by rw [hinfo]
  have hneeded : needSretTemp oracle.returnInfo rt = some false := by
    have habiType : oracle.returnInfo.abiType = some rt.type := by rw [hinfo]; rfl
    simp [needSretTemp, hdisp, habiType, hagg]
  rw [delivers_iff_handed (callerTakes_value hchain (by rw [hdisp]; decide) hneeded)
    (genReturnSequence_value hvoid hinfo hagg hto) rfl rfl nofun]
  constructor
  · intro h
    obtain ⟨r, hr, hv, htype'⟩ := h.value _ rfl
    exact ⟨h.reads, h.results, htype', r, hr, hv⟩
  · rintro ⟨hreads, hresults, hv, r, hr, hrv⟩
    refine ⟨hreads, hresults, fun v h => ?_, hv.trans htype.symm, ?_, Nat.zero_le _⟩
    · cases h
      exact ⟨r, hr, hrv, hv⟩
    · show Arrives rt.type (movedSpans toRet.value.type)
      rw [hv]
      exact arrives_self rt.type

/-- What the oracle says about the result. -/
structure Answers (oracle : CABIOracle) (rt : Btype) : Prop where
  chain : oracle.chainInfo.disp = direct
  returned : ReturnedAs rt oracle.returnInfo
  type : ∀ t, oracle.returnInfo.abiTypes = [t] → oracle.fcnTypeForABI.returnType =
    if oracle.returnInfo.disp = indirect then void else t

theorem answers_of_analyze (hgo : isGoResult rt) {paramTypes : List Btype}
    (h : analyze paramTypes rt true = some oracle) : Answers oracle rt := by
  obtain ⟨-, hidden, hnum⟩ := CABIOracle.numbered_of_analyze h
  obtain ⟨⟨rinfo, s0⟩, hret, h⟩ := Option.bind_eq_some_iff.mp h
  obtain ⟨⟨infos, s1⟩, -, h⟩ := Option.bind_eq_some_iff.mp h
  obtain ⟨ft, hft, h⟩ := Option.bind_eq_some_iff.mp h
  cases h
  refine ⟨hnum.chainDisp, returnedAs_of_analyze hgo hret, fun t ht => ?_⟩
  have habiType : rinfo.abiType = some t := by rw [CABIParamInfo.abiType, ht]
  rw [cookedType, habiType, Option.bind_eq_bind, Option.bind_some] at hft
  split_ifs at hft with hdisp
  · cases hft
    exact (if_pos hdisp).symm
  · cases hft
    exact (if_neg hdisp).symm

/-- An aggregate that is not empty has to be in memory. -/
theorem delivers_aggregate (hgo : isGoResult rt) (ho : Answers oracle rt)
    (hagg : rt.type.isAggregateType) (hto : toRet.btype.type.isAggregateType)
    (hsource : toRet.source.btype.type = rt.type) :
    Delivers c oracle rt vals toRet ↔ ((∀ a ∈ toRet.accesses, a.Reads) ∧
      HasResults toRet.source vals ∧
        (rt.type.shape.allocSize = 0 ∨ Denotes toRet.value toRet.source)) ∧
      ResultTravels rt := by
  generalize hinfo : oracle.returnInfo = info at ho
  have htype := ho.type
  have hret := ho.returned
  rw [hinfo] at htype hret
  cases hret with
  | ignored h0 =>
    rw [delivers_ignored hgo ho.chain h0 hinfo (htype void rfl)]
    have htravels : ResultTravels rt := .inl (h0 ▸ Nat.zero_le 8)
    simp [h0, htravels]
  | inMemory _ h16 =>
    rw [delivers_hidden hgo ho.chain h16 hinfo (htype _ rfl) hsource]
    have htravels : ResultTravels rt := .inr (.inl h16)
    have h0 : rt.type.shape.allocSize ≠ 0 := Nat.ne_of_gt (Nat.zero_lt_of_lt h16)
    simp [h0, htravels]
  | scalar attr hscalar => exact absurd hagg hscalar
  | aggregate t attr _ h1 h16 htravels hstruct =>
    rw [delivers_loaded hgo ho.chain hagg h1 htravels hstruct hinfo (htype t rfl) (.inl hto)]
    have h0 : rt.type.shape.allocSize ≠ 0 := Nat.ne_of_gt h1
    simp [h0]

end Kinds

/-! ## One value -/

section One

variable {c : CircularTypes} {oracle : CABIOracle} {rt : Btype} {node : ℕ}

theorem returns_one_iff {e : Bexpression} : Returns c node oracle rt [e] ↔
    ∃ r, resolve c e e.varContextDisp = some r ∧
      Delivers c oracle rt [e] ⟨r.btype, r.value, e, r.accesses⟩ := by
  rw [returns_iff_delivers]
  cases h : resolve c e e.varContextDisp with
  | none => simp [toReturn, h]
  | some r => simp [toReturn, h]

theorem not_denotes_value {bt : Btype} {v : Value} (hv : v.type = bt.type)
    (hagg : bt.type.isAggregateType) (e : Bexpression) : ¬Denotes v e := by
  intro h
  have hptr := h.isPointerTy
  rw [hv] at hptr
  exact not_isPointerTy_of_isAggregateType _ hagg hptr

/-- An aggregate is returned just if it is one in memory. -/
theorem returns_aggregate (hgo : isGoResult rt) (ho : Answers oracle rt)
    (hagg : rt.type.isAggregateType) {e : Bexpression} (hw : WellTyped e)
    (htype : e.btype.type = rt.type) (hplain : rt.type.isPlain) :
    Returns c node oracle rt [e] ↔ ResultTravels rt ∧ ReturnableAlone c e := by
  rw [returns_one_iff]
  cases e with
  | expr bt v vc =>
    have hbt : bt.type = rt.type := htype
    have hbagg : bt.type.isAggregateType := by rwa [hbt]
    have hctx : (Bexpression.expr bt v vc).varContextDisp = VE_lvalue := if_pos hbagg
    have hval := aggregate_value hw hbagg
    have hden : Denotes v (.expr bt v vc) ↔ vc.pending := by
      split_ifs at hval with hp
      · exact iff_of_true hval.2 hp
      · exact iff_of_false (not_denotes_value hval hbagg _) hp
    rw [hctx, resolve_aggregate hw hbagg, ReturnableAlone, if_pos hbagg, ← hden, hbt]
    have hdeliver : Delivers c oracle rt [.expr bt v vc] ⟨bt, v, .expr bt v vc, []⟩ ↔ _ :=
      delivers_aggregate hgo ho hagg hbagg hbt
    simp [hdeliver, HasResults.one, and_comm]
  | compositeInit node' bt elems =>
    have hbt : bt.type = rt.type := htype
    have hbagg : bt.type.isAggregateType := hw.1
    have hctx : (Bexpression.compositeInit node' bt elems).varContextDisp = VE_lvalue :=
      if_pos hbagg
    have hlen : elems.length = bt.type.numElements := hw.2.1
    have hden := Denotes.composite node' bt elems
    have hdeliver (accs : List Access) : Delivers c oracle rt [.compositeInit node' bt elems]
        ⟨bt, .temporary node' bt.type, .compositeInit node' bt elems, accs⟩ ↔ _ :=
      delivers_aggregate hgo ho hagg hbagg hbt
    rw [hctx, ReturnableAlone, Storable,
      ← allStored_iff c elems bt.type 0 hw.2.2 (hbt ▸ hplain) (by omega)]
    constructor
    · rintro ⟨r, hr, h⟩
      obtain ⟨accs, hstore, rfl⟩ := resolve_composite_some c hw hr
      obtain ⟨⟨hreads, -⟩, htravels⟩ := (hdeliver accs).mp h
      exact ⟨htravels, accs, hstore, hreads⟩
    · rintro ⟨htravels, hstored⟩
      obtain ⟨r, hr, hr', hreads⟩ := (resolve_composite c hw).mpr hstored
      refine ⟨r, hr, ?_⟩
      rw [hr']
      exact (hdeliver r.accesses).mpr ⟨⟨hreads, .one _, .inr hden⟩, htravels⟩

/-- A reference is loaded, unless its address is wanted; any other value is handed out. -/
theorem resolve_expr {bt : Btype} {v : Value} {vc : VarContext} (hw : WellTyped (.expr bt v vc))
    (ctx : Varexpr_context) : resolve c (.expr bt v vc) ctx =
      if vc.pending ∧ vc.addrLevel = 0 ∧ ¬(vc.lvalue ∨ ctx = VE_lvalue) then
        some (loadFromExpr c bt v vc bt)
      else some ⟨bt, v, []⟩ := by
  simp only [resolve, resolveVarContext, WellTyped] at hw ⊢
  by_cases hp : vc.pending
  · rw [if_pos hp] at hw ⊢
    rcases hw with ⟨h0, -⟩ | ⟨h1, -, hptr⟩
    · by_cases hkept : vc.lvalue ∨ ctx = VE_lvalue
      · rw [if_pos (.inl h0), if_pos (.inr hkept), if_pos (.inl h0), if_neg fun h => h.2.2 hkept]
      · have hcond : ¬(vc.addrLevel = 1 ∨ vc.lvalue ∨ ctx = VE_lvalue) := by simpa [h0] using hkept
        rw [if_pos (.inl h0), if_neg hcond, if_pos ⟨hp, h0, hkept⟩]
    · simp [h1, hptr]
  · rw [if_neg hp, if_neg fun h => hp h.1]

/-- A scalar that is resolved has its own type unless it is left as an address, or loaded as
another type. -/
theorem resolve_type_iff {bt : Btype} {v : Value} {vc : VarContext}
    (hw : WellTyped (.expr bt v vc)) {r : Resolved}
    (h : resolve c (.expr bt v vc) VE_rvalue = some r) :
    r.value.type = bt.type ↔ LoadsAsIs c bt vc := by
  rw [resolve_expr hw] at h
  unfold LoadsAsIs
  by_cases href : vc.pending ∧ vc.addrLevel = 0
  · by_cases hl : vc.lvalue
    · rw [if_neg fun h => h.2.2 (.inl hl)] at h
      cases h
      simp [reference_type hw href.1 href.2, ptr_ne, href, hl]
    · rw [if_pos ⟨href.1, href.2, by simp [hl]⟩] at h
      cases h
      rw [loadFromExpr_type hw href.1 href.2]
      cases c.loadConversion bt with
      | none => simp [hl]
      | some t => by_cases ht : t.type = bt.type <;> simp [ht, hl, href]
  · rw [if_neg fun h => href ⟨h.1, h.2.1⟩] at h
    cases h
    exact iff_of_true (value_type hw fun hp h0 => href ⟨hp, h0⟩) fun hp h0 => absurd ⟨hp, h0⟩ href

/-- A scalar is returned as it is just if it is loaded as its own type. -/
theorem returns_scalar (hgo : isGoType rt) (ho : Answers oracle rt)
    (hagg : ¬rt.type.isAggregateType) {e : Bexpression} (hw : WellTyped e)
    (htype : e.btype.type = rt.type) :
    Returns c node oracle rt [e] ↔ ResultTravels rt ∧ ReturnableAlone c e := by
  cases e with
  | compositeInit node' bt elems =>
    rw [← htype] at hagg
    exact absurd hw.1 hagg
  | expr bt v vc =>
    have hbt : bt.type = rt.type := htype
    have hbagg : ¬bt.type.isAggregateType := by rwa [hbt]
    have hvoid : bt.type ≠ void := hbt ▸ isPlain_ne_void (isGoType_isPlain rt hgo)
    have hctx : (Bexpression.expr bt v vc).varContextDisp = VE_rvalue := if_neg hbagg
    obtain ⟨r, hr, hreads, -, hragg, -⟩ := resolve_scalar (c := c) hw hbagg hvoid
    generalize hinfo : oracle.returnInfo = info at ho
    have hfcn := ho.type
    have hret := ho.returned
    rw [hinfo] at hfcn hret
    cases hret with
    | scalar attr _ _ h8 =>
      have hdeliver : Delivers c oracle rt [.expr bt v vc]
          ⟨r.btype, r.value, .expr bt v vc, r.accesses⟩ ↔ _ :=
        delivers_value hgo ho.chain hagg hinfo (hfcn rt.type rfl) hragg
      have htravels : ResultTravels rt := .inl h8
      rw [returns_one_iff, hctx, hr, ReturnableAlone, if_neg hbagg, ← resolve_type_iff hw hr, hbt,
        and_iff_right htravels]
      constructor
      · rintro ⟨r', hr', h⟩
        cases hr'
        exact (hdeliver.mp h).2.2.1
      · intro h
        exact ⟨r, rfl, hdeliver.mpr ⟨hreads, .one _, h, r, hr, rfl⟩⟩
    | ignored h0 =>
      rcases go_result_cases hgo with ⟨-, h⟩ | ⟨elem, rfl⟩ | h
      · exact absurd h hagg
      · exact absurd rfl hagg
      · exact absurd h0 (allocSize_of_isPlainScalar h).1.ne'
    | inMemory h => exact absurd h hagg
    | aggregate t attr h => exact absurd h hagg

theorem returns_one (hgo : isGoType rt) (ho : Answers oracle rt) {e : Bexpression}
    (hw : WellTyped e) (htype : e.btype.type = rt.type) :
    Returns c node oracle rt [e] ↔ ResultTravels rt ∧ ReturnableAlone c e := by
  by_cases hagg : rt.type.isAggregateType
  · exact returns_aggregate (.inl hgo) ho hagg hw htype (isGoType_isPlain rt hgo)
  · exact returns_scalar hgo ho hagg hw htype

end One

/-! ## Several values -/

section Together

variable {c : CircularTypes} {oracle : CABIOracle} {rt : Btype} {node : ℕ}

theorem varContextDisp_eq_lvalue (e : Bexpression) :
    e.varContextDisp = VE_lvalue ↔ e.btype.type.isAggregateType := by
  unfold Bexpression.varContextDisp
  split_ifs with h <;> simp [h]

/-- Elements are resolved and stored one after the other, or all resolved first. -/
theorem storeElems_eq (es : List Bexpression) (t : LType) (i : ℕ) :
    storeElems c es t i = (es.mapM fun e => resolve c e e.varContextDisp).bind fun rs =>
      storeResolved c (es.zip rs) t i := by
  induction es generalizing i with
  | nil => rfl
  | cons e es ih =>
    rw [storeElems, ih, List.mapM_cons]
    cases resolve c e e.varContextDisp with
    | none => rfl
    | some r =>
      cases hrest : es.mapM fun e => resolve c e e.varContextDisp with
      | none => simp
      | some rs => rfl

theorem constructorExpression_struct (node : ℕ) (hstruct : rt.type.isStructTy)
    (es : List Bexpression) (hlen : es.length = rt.type.numElements) : constructorExpression node rt es =
      if es.length < 2 ^ 32 then
        if valuesAreConstant es then
          (constants rt.type 0 es).map fun cons => .expr rt (.constantComposite rt.type cons) {}
        else some (.compositeInit node rt es)
      else none := by
  unfold constructorExpression numElementsOf
  rw [← hlen]
  by_cases hfew : es.length < 2 ^ 32
  · have hmod : es.length % 2 ^ 32 = es.length := Nat.mod_eq_of_lt hfew
    have hscatter {α : Type} (vs : List α) (h : vs.length = es.length) :
        Scatter.scatter es.length (fun _ => none) (List.range es.length) vs =
          some fun i => vs[i]? := by
      rw [Scatter.scatter_eq (by simp [h]) List.nodup_range fun i hi => List.mem_range.mp hi]
      simp [← h, Scatter.valueAt_range]
    rw [hmod, if_pos ⟨hstruct, rfl⟩, if_pos hfew, makeCompositeExpr]
    by_cases hconst : valuesAreConstant es
    · rw [if_pos hconst, if_pos hconst, makeConstCompositeExpr, numElementsOf, ← hlen, hmod]
      cases hcons : constants rt.type 0 es with
      | none => rfl
      | some cons =>
        have hlen' := constants_length hcons
        have hcollect := Scatter.collect_getElem? cons
        rw [hlen'] at hcollect
        simp only [Option.bind_eq_bind, Option.bind_some, hscatter cons hlen', ne_eq,
          not_true_eq_false, false_and, if_false, hcollect]
        rfl
    · rw [if_neg hconst, if_neg hconst, makeDelayedCompositeExpr, numElementsOf, ← hlen, hmod]
      simp only [Option.bind_eq_bind, Option.bind_some, hscatter es rfl, ne_eq,
        not_true_eq_false, false_and, if_false, Scatter.collect_getElem? es]
  · rw [if_neg hfew]
    apply if_neg
    rintro ⟨-, h⟩
    exact hfew (h ▸ Nat.mod_lt _ (by decide))

/-- What is resolved is a constant just if the value is one and is not loaded from. -/
theorem isConstant_resolved {e : Bexpression} (hw : WellTyped e) {r : Resolved}
    (h : resolve c e e.varContextDisp = some r) :
    r.value.isConstant ↔ StaysConstant e := by
  cases e with
  | compositeInit node' bt elems =>
    have hctx : (Bexpression.compositeInit node' bt elems).varContextDisp = VE_lvalue :=
      if_pos hw.1
    rw [hctx] at h
    obtain ⟨accs, -, rfl⟩ := resolve_composite_some c hw h
    exact iff_of_false Bool.false_ne_true id
  | expr bt v vc =>
    have hctx := varContextDisp_eq_lvalue (.expr bt v vc)
    rw [resolve_expr hw] at h
    split_ifs at h with hload
    · cases h
      refine iff_of_false ?_ fun h => ?_
      · unfold loadFromExpr
        cases c.loadConversion bt <;> exact Bool.false_ne_true
      · exact hload.2.2 ((h.2 hload.1 hload.2.1).imp_right hctx.mpr)
    · cases h
      refine (and_iff_left fun hp h0 => ?_).symm
      by_contra hkept
      exact hload ⟨hp, h0, fun h => hkept (h.imp_right hctx.mp)⟩

/-- A value that stays a constant is handed out as it is. -/
theorem resolve_constant {e : Bexpression} (hw : WellTyped e) (hconst : StaysConstant e) :
    ∃ bt v vc, e = .expr bt v vc ∧ resolve c e e.varContextDisp = some ⟨bt, v, []⟩ := by
  cases e with
  | compositeInit => exact hconst.elim
  | expr bt v vc =>
    refine ⟨bt, v, vc, rfl, ?_⟩
    rw [resolve_expr hw]
    exact if_neg fun h =>
      h.2.2 ((hconst.2 h.1 h.2.1).imp_right (varContextDisp_eq_lvalue (.expr bt v vc)).mpr)

theorem areWellTyped_mem {es : List Bexpression} {t : LType} {i : ℕ} (h : AreWellTyped es t i) :
    ∀ e ∈ es, WellTyped e := by
  induction es generalizing i with
  | nil => exact nofun
  | cons e es ih =>
    rw [AreWellTyped] at h
    exact List.forall_mem_cons.mpr ⟨h.1, ih h.2.2⟩

theorem valuesAreConstant_resolved {vals : List Bexpression} (hw : ∀ e ∈ vals, WellTyped e)
    {rs : List Resolved} (h : vals.mapM (fun e => resolve c e e.varContextDisp) = some rs) :
    rs.length = vals.length ∧
      (valuesAreConstant (rs.map Resolved.expression) ↔ ∀ e ∈ vals, StaysConstant e) := by
  induction vals generalizing rs with
  | nil =>
    cases h
    simp [valuesAreConstant]
  | cons e vals ih =>
    rw [List.mapM_cons] at h
    obtain ⟨r, hr, h⟩ := Option.bind_eq_some_iff.mp h
    obtain ⟨rs', hrs, h⟩ := Option.bind_eq_some_iff.mp h
    cases h
    obtain ⟨hlen, hiff⟩ := ih (fun e' h' => hw e' (List.mem_cons_of_mem e h')) hrs
    refine ⟨by simp [hlen], ?_⟩
    rw [List.forall_mem_cons, ← hiff, ← isConstant_resolved (hw e List.mem_cons_self) hr]
    simp [valuesAreConstant, Resolved.expression, Bexpression.value]

/-- Values that stay constants are resolved to themselves, and nothing is read for that. -/
theorem resolve_constants {vals : List Bexpression} (hw : ∀ e ∈ vals, WellTyped e)
    (hconst : ∀ e ∈ vals, StaysConstant e) :
    ∃ rs, vals.mapM (fun e => resolve c e e.varContextDisp) = some rs ∧
      rs.flatMap (·.accesses) = [] ∧
      ∀ t i, constants t i (rs.map Resolved.expression) = constants t i vals := by
  induction vals with
  | nil => exact ⟨[], rfl, rfl, fun t i => rfl⟩
  | cons e vals ih =>
    rw [List.forall_mem_cons] at hw hconst
    obtain ⟨bt, v, vc, rfl, hr⟩ := resolve_constant (c := c) hw.1 hconst.1
    obtain ⟨rs, hrs, haccs, hcons⟩ := ih hw.2 hconst.2
    refine ⟨⟨bt, v, []⟩ :: rs, by simp [List.mapM_cons, hr, hrs], by simp [haccs], fun t i => ?_⟩
    rw [List.map_cons, constants, constants, hcons]
    rfl

/-- A constant for a field is the value of its expression just if that is no reference. -/
theorem elementConstant_isValue {e : Bexpression} (hw : WellTyped e) (hconst : StaysConstant e) :
    (∃ con, (e.value.bind fun v => elementConstant e.btype.type v) = some con ∧ IsValue e con) ↔
      ¬IsReference e := by
  cases e with
  | compositeInit => exact hconst.elim
  | expr bt v vc =>
    constructor
    · rintro ⟨con, -, hvalue⟩
      exact hvalue.1
    · intro href
      have htype := value_type hw fun hp h0 => href ⟨hp, h0⟩
      refine ⟨v, ?_, href, rfl⟩
      show elementConstant bt.type v = some v
      rw [elementConstant, htype]
      exact if_neg (not_not_intro rfl)

theorem constants_isValue {vals : List Bexpression} {t : LType} {i : ℕ}
    (hw : AreWellTyped vals t i) (hconst : ∀ e ∈ vals, StaysConstant e) :
    (∃ cons, constants t i vals = some cons ∧ List.Forall₂ IsValue vals cons) ↔
      ∀ e ∈ vals, ¬IsReference e := by
  induction vals generalizing i with
  | nil => exact iff_of_true ⟨[], rfl, .nil⟩ nofun
  | cons e vals ih =>
    rw [AreWellTyped] at hw
    rw [List.forall_mem_cons] at hconst ⊢
    rw [← elementConstant_isValue hw.1 hconst.1, ← ih hw.2.2 hconst.2, hw.2.1, constants]
    constructor
    · rintro ⟨cons, h, hvalues⟩
      obtain ⟨v, hv, h⟩ := Option.bind_eq_some_iff.mp h
      obtain ⟨con, hcon, h⟩ := Option.bind_eq_some_iff.mp h
      obtain ⟨cons', hcons, h⟩ := Option.bind_eq_some_iff.mp h
      cases h
      rw [List.forall₂_cons] at hvalues
      exact ⟨⟨con, by rw [hv]; exact hcon, hvalues.1⟩, cons', hcons, hvalues.2⟩
    · rintro ⟨⟨con, hcon, hvalue⟩, cons, hcons, hvalues⟩
      obtain ⟨v, hv, hcon⟩ := Option.bind_eq_some_iff.mp hcon
      exact ⟨con :: cons, by simp [hv, hcon, hcons], .cons hvalue hvalues⟩

theorem hasResults_constant {bt : Btype} {cons : List Value} {e e' : Bexpression}
    {vals : List Bexpression} :
    HasResults (.expr bt (.constantComposite bt.type cons) {}) (e :: e' :: vals) ↔
      List.Forall₂ IsValue (e :: e' :: vals) cons := by
  constructor
  · intro h
    cases h
    assumption
  · exact HasResults.constant bt (e :: e' :: vals) cons

/-- A constant for several values is in a variable, whose address is returned: not as the
constant if that fits in one register. -/
theorem delivers_constant {id : Option ℕ} {fields : List Btype} (hrt : rt = .struct id fields)
    (hgo : isGoType rt) (ho : Answers oracle rt) (vals : List Bexpression) (cons : List Value) :
    Delivers c oracle rt vals ⟨.pointer rt.type, .constantVariable (.constantComposite rt.type cons),
        .expr rt (.constantComposite rt.type cons) {}, []⟩ ↔
      HasResults (.expr rt (.constantComposite rt.type cons) {}) vals ∧
        (rt.type.shape.allocSize = 0 ∨ 8 < rt.type.shape.allocSize) ∧ ResultTravels rt := by
  have hagg : rt.type.isAggregateType := by rw [hrt]; rfl
  have hden : Denotes (.constantVariable (.constantComposite rt.type cons))
      (.expr rt (.constantComposite rt.type cons) {}) := .constant Bool.false_ne_true rfl
  generalize hinfo : oracle.returnInfo = info at ho
  have htype := ho.type
  have hret := ho.returned
  rw [hinfo] at htype hret
  cases hret with
  | ignored h0 =>
    rw [delivers_ignored (.inl hgo) ho.chain h0 hinfo (htype void rfl)]
    simp [h0, ResultTravels]
  | inMemory _ h16 =>
    rw [delivers_hidden (.inl hgo) ho.chain h16 hinfo (htype _ rfl) rfl]
    have h8 : 8 < rt.type.shape.allocSize := by omega
    simp [h8, h16, hden, ResultTravels]
  | scalar attr hscalar => exact absurd hagg hscalar
  | aggregate t attr _ h1 h16 htravels hstruct hwide =>
    have hwide := hwide ⟨id, fields, hrt⟩
    by_cases ht : t.isAggregateType
    · rw [delivers_loaded (.inl hgo) ho.chain hagg h1 htravels hstruct hinfo (htype t rfl) (.inr ht)]
      simp [hwide.mp ht, hden]
    · -- the address itself is returned, where one register with the fields is expected
      have hseq : genReturnSequence oracle.returnInfo rt ⟨.pointer rt.type,
          .constantVariable (.constantComposite rt.type cons),
          .expr rt (.constantComposite rt.type cons) {}, []⟩ = _ :=
        genReturnSequence_value (isPlain_ne_void (isGoType_isPlain rt hgo)) hinfo ht
          Bool.false_ne_true
      have h8 : ¬8 < rt.type.shape.allocSize := fun h => ht (hwide.mpr h)
      refine iff_of_false ?_ fun h => h.2.1.elim (Nat.ne_of_gt h1) h8
      rintro ⟨ret, hret, hcalls⟩
      cases hseq.symm.trans hret
      obtain ⟨temp, state, call, -, -, hagree⟩ := hcalls 0 0 none
      have hptr : ptr rt.type = t := hagree.type.trans (htype t rfl)
      cases htravels with
      | itself => exact ht hagg
      | one hreg =>
        rw [← hptr] at hreg
        exact Bool.false_ne_true hreg
      | two => exact ht rfl

section Several

variable {id : Option ℕ} {fields : List Btype} {e e' : Bexpression} {vals : List Bexpression}

theorem toReturn_several : toReturn c node rt (e :: e' :: vals) =
    ((e :: e' :: vals).mapM fun e => resolve c e e.varContextDisp).bind
      (returnSeveral c node rt (e :: e' :: vals)) := by
  rw [toReturn]
  rfl

/-- A constant is put into a variable, and the address of that is the value. -/
theorem constantToReturn (hstruct : rt.type.isStructTy) (cons : List Value) (source : Bexpression) (accs : List Access) :
    ((genVarForConstant (.constantComposite rt.type cons) rt).bind fun cv =>
      (addressExpression (varExpression rt cv VE_rvalue)).bind fun
        | .expr bt' v' _ => some (⟨bt', v', source, accs⟩ : ToRet)
        | .compositeInit .. => none) =
      some ⟨.pointer rt.type, .constantVariable (.constantComposite rt.type cons), source, accs⟩ := by
  have hvar : genVarForConstant (.constantComposite rt.type cons) rt =
      some (.constantVariable (.constantComposite rt.type cons)) := if_pos rfl
  have haddress : addressExpression (varExpression rt
      (.constantVariable (.constantComposite rt.type cons)) VE_rvalue) =
        some (.expr (.pointer rt.type) (.constantVariable (.constantComposite rt.type cons))
          { pending := true, lvalue := false, addrLevel := 1 }) := by
    have hbyte : rt.type ≠ int 8 := by
      intro h
      rw [h] at hstruct
      cases hstruct
    simp [hbyte, addressExpression, varExpression, Value.isConstantArray, Value.type, stringType,
      Value.isConstant, genVarForConstant, Value.isModuleVar]
  rw [hvar, Option.bind_some, haddress]
  rfl

theorem returnSeveral_constant (hstruct : rt.type.isStructTy) {vals : List Bexpression} {rs : List Resolved}
    (hmade : constructorExpression node rt (rs.map Resolved.expression) =
      (constants rt.type 0 vals).map fun cons => .expr rt (.constantComposite rt.type cons) {}) :
    returnSeveral c node rt vals rs = (constants rt.type 0 vals).map fun cons =>
      ⟨.pointer rt.type, .constantVariable (.constantComposite rt.type cons),
        .expr rt (.constantComposite rt.type cons) {}, rs.flatMap (·.accesses)⟩ := by
  rw [returnSeveral, hmade]
  cases constants rt.type 0 vals with
  | none => rfl
  | some cons => exact constantToReturn hstruct cons _ _

theorem returnSeveral_temporary {vals es : List Bexpression} {rs : List Resolved}
    (hmade : constructorExpression node rt (rs.map Resolved.expression) =
      some (.compositeInit node rt es)) :
    returnSeveral c node rt vals rs = (storeResolved c (vals.zip rs) rt.type 0).map fun accs =>
      ⟨rt, .temporary node rt.type, .compositeInit node rt vals, accs⟩ := by
  rw [returnSeveral, hmade, Option.map_eq_bind]
  rfl

/-- Constants are returned through a variable that holds a struct of them. -/
theorem returns_constants (hrt : rt = .struct id fields) (hgo : isGoType rt)
    (ho : Answers oracle rt) (hlen : (e :: e' :: vals).length = rt.type.numElements)
    (hw : AreWellTyped (e :: e' :: vals) rt.type 0) (hfew : (e :: e' :: vals).length < 2 ^ 32)
    (hconst : ∀ e'' ∈ e :: e' :: vals, StaysConstant e'') :
    Returns c node oracle rt (e :: e' :: vals) ↔
      (∀ e'' ∈ e :: e' :: vals, ¬IsReference e'') ∧
        (rt.type.shape.allocSize = 0 ∨ 8 < rt.type.shape.allocSize) ∧ ResultTravels rt := by
  have hagg : rt.type.isStructTy := by rw [hrt]; rfl
  obtain ⟨rs, hrs, haccs, hcons⟩ := resolve_constants (c := c) (areWellTyped_mem hw) hconst
  obtain ⟨hlen', hvalues⟩ := valuesAreConstant_resolved (areWellTyped_mem hw) hrs
  have hmade := constructorExpression_struct node hagg (rs.map Resolved.expression)
    (by rw [List.length_map, hlen', hlen])
  rw [if_pos (by rwa [List.length_map, hlen']), if_pos (hvalues.mpr hconst), hcons] at hmade
  rw [returns_iff_delivers, toReturn_several, hrs, Option.bind_some,
    returnSeveral_constant hagg hmade, haccs, ← constants_isValue hw hconst]
  have hto := delivers_constant (c := c) hrt hgo ho (e :: e' :: vals)
  simp only [hasResults_constant] at hto
  constructor
  · rintro ⟨toRet, h, hdeliver⟩
    obtain ⟨cons, hcons', rfl⟩ := Option.map_eq_some_iff.mp h
    obtain ⟨hall, h8, htravels⟩ := (hto cons).mp hdeliver
    exact ⟨⟨cons, hcons', hall⟩, h8, htravels⟩
  · rintro ⟨⟨cons, hcons', hall⟩, h8, htravels⟩
    exact ⟨_, by rw [hcons']; rfl, (hto cons).mpr ⟨hall, h8, htravels⟩⟩

/-- Values that are not all constants are stored into a temporary. -/
theorem returns_temporary (hrt : rt = .struct id fields) (hgo : isGoType rt)
    (ho : Answers oracle rt) (hlen : (e :: e' :: vals).length = rt.type.numElements)
    (hw : AreWellTyped (e :: e' :: vals) rt.type 0) (hfew : (e :: e' :: vals).length < 2 ^ 32)
    (hconst : ¬∀ e'' ∈ e :: e' :: vals, StaysConstant e'') :
    Returns c node oracle rt (e :: e' :: vals) ↔
      (∀ e'' ∈ e :: e' :: vals, Storable c e'') ∧ ResultTravels rt := by
  have hstruct : rt.type.isStructTy := by rw [hrt]; rfl
  have hagg : rt.type.isAggregateType := by rw [hrt]; rfl
  have hplain := isGoType_isPlain rt hgo
  have hto (accs : List Access) : Delivers c oracle rt (e :: e' :: vals)
      ⟨rt, .temporary node rt.type, .compositeInit node rt (e :: e' :: vals), accs⟩ ↔ _ :=
    delivers_aggregate (.inl hgo) ho hagg hagg rfl
  have hden := Denotes.composite node rt (e :: e' :: vals)
  have hmade {rs : List Resolved}
      (hrs : (e :: e' :: vals).mapM (fun e => resolve c e e.varContextDisp) = some rs) :
      returnSeveral c node rt (e :: e' :: vals) rs =
        (storeResolved c ((e :: e' :: vals).zip rs) rt.type 0).map fun accs =>
          ⟨rt, .temporary node rt.type, .compositeInit node rt (e :: e' :: vals), accs⟩ := by
    obtain ⟨hlen', hvalues⟩ := valuesAreConstant_resolved (areWellTyped_mem hw) hrs
    have hmade := constructorExpression_struct node hstruct (rs.map Resolved.expression)
      (by rw [List.length_map, hlen', hlen])
    rw [if_pos (by rwa [List.length_map, hlen']), if_neg fun h => hconst (hvalues.mp h)] at hmade
    exact returnSeveral_temporary hmade
  rw [← allStorable_iff, ← allStored_iff c _ rt.type 0 hw hplain (by omega), AllStored,
    storeElems_eq, returns_iff_delivers, toReturn_several]
  constructor
  · rintro ⟨toRet, h, hdeliver⟩
    obtain ⟨rs, hrs, h⟩ := Option.bind_eq_some_iff.mp h
    rw [hmade hrs] at h
    obtain ⟨accs, hstore, rfl⟩ := Option.map_eq_some_iff.mp h
    obtain ⟨⟨hreads, -⟩, htravels⟩ := (hto accs).mp hdeliver
    exact ⟨⟨accs, by rw [hrs]; exact hstore, hreads⟩, htravels⟩
  · rintro ⟨⟨accs, h, hreads⟩, htravels⟩
    obtain ⟨rs, hrs, hstore⟩ := Option.bind_eq_some_iff.mp h
    refine ⟨_, ?_, (hto accs).mpr ⟨⟨hreads, .composite .., .inr hden⟩, htravels⟩⟩
    rw [hrs, Option.bind_some, hmade hrs, hstore]
    rfl

theorem not_returns_many (hrt : rt = .struct id fields)
    (hlen : (e :: e' :: vals).length = rt.type.numElements)
    (hw : AreWellTyped (e :: e' :: vals) rt.type 0)
    (hmany : ¬(e :: e' :: vals).length < 2 ^ 32) : ¬Returns c node oracle rt (e :: e' :: vals) := by
  have hstruct : rt.type.isStructTy := by rw [hrt]; rfl
  rw [returns_iff_delivers, toReturn_several]
  rintro ⟨toRet, h, -⟩
  obtain ⟨rs, hrs, h⟩ := Option.bind_eq_some_iff.mp h
  obtain ⟨hlen', -⟩ := valuesAreConstant_resolved (areWellTyped_mem hw) hrs
  have hmade := constructorExpression_struct node hstruct (rs.map Resolved.expression)
    (by rw [List.length_map, hlen', hlen])
  rw [if_neg (by rwa [List.length_map, hlen'])] at hmade
  rw [returnSeveral, hmade] at h
  cases h

end Several

/-- Several values, whether or not they are constants. -/
theorem returns_several {id : Option ℕ} {fields : List Btype} {e e' : Bexpression}
    {vals : List Bexpression} (hrt : rt = .struct id fields) (hgo : isGoType rt)
    (ho : Answers oracle rt) (hlen : (e :: e' :: vals).length = rt.type.numElements)
    (hw : AreWellTyped (e :: e' :: vals) rt.type 0) :
    Returns c node oracle rt (e :: e' :: vals) ↔
      ResultTravels rt ∧ ReturnableTogether c rt (e :: e' :: vals) := by
  by_cases hfew : (e :: e' :: vals).length < 2 ^ 32
  · by_cases hconst : ∀ e'' ∈ e :: e' :: vals, StaysConstant e''
    · rw [returns_constants hrt hgo ho hlen hw hfew hconst, ReturnableTogether]
      tauto
    · rw [returns_temporary hrt hgo ho hlen hw hfew hconst, ReturnableTogether]
      tauto
  · refine iff_of_false (not_returns_many hrt hlen hw hfew) ?_
    rintro ⟨-, h, -⟩
    exact hfew h

theorem returns_void (ho : Answers oracle voidType) : Returns c node oracle voidType [] := by
  generalize hinfo : oracle.returnInfo = info at ho
  have htype := ho.type
  have hret := ho.returned
  rw [hinfo] at htype hret
  rw [returns_iff_delivers]
  cases hret with
  | ignored h0 =>
    refine ⟨_, rfl, ?_⟩
    rw [delivers_ignored (.inr rfl) ho.chain h0 hinfo (htype void rfl)]
    exact ⟨nofun, .none _⟩
  | inMemory h => exact absurd h Bool.false_ne_true
  | scalar attr _ h1 => cases h1
  | aggregate t attr h => exact absurd h Bool.false_ne_true

/-- What the callee returns is what every caller takes, just if the chunks of the result are
where its fields are and its values can be handed over. -/
theorem returns_iff (node : ℕ) {paramTypes : List Btype} (hgo : isGoResult rt)
    (horacle : analyze paramTypes rt true = some oracle) {vals : List Bexpression}
    (hvals : AreResults rt vals) :
    Returns c node oracle rt vals ↔ ResultTravels rt ∧ Returnable c rt vals := by
  have ho := answers_of_analyze hgo horacle
  cases vals with
  | nil =>
    obtain rfl : rt = voidType := hvals
    exact iff_of_true (returns_void ho) ⟨.inl (by decide), trivial⟩
  | cons e vals =>
    cases vals with
    | nil =>
      obtain ⟨hgo', hw, htype⟩ := hvals
      exact returns_one hgo' ho hw htype
    | cons e' vals =>
      obtain ⟨⟨id, fields, hrt⟩, hgo', hlen, hw⟩ := hvals
      exact returns_several hrt hgo' ho hlen hw

/-- `func() (int64, int64)`. -/
def pairResult : Btype := .struct none [.integer false 64, .integer false 64]

def pairOracle : CABIOracle where
  returnInfo := ⟨[struct none [int 64, int 64]], direct, .none, -1⟩
  chainInfo := ⟨[llvmPtrType], direct, .nest, 0⟩
  paramInfos := []
  fcnTypeForABI := .func (struct none [int 64, int 64]) [llvmPtrType]

/-- A local variable and a constant. -/
def pairValues : List Bexpression :=
  [.expr (.integer false 64) (.alloca 1 (int 64)) { pending := true },
    .expr (.integer false 64) (.constant 0 (int 64)) {}]

theorem returns_pair : Returns noCircularTypes 2 pairOracle pairResult pairValues := by
  have hvals : AreResults pairResult pairValues :=
    ⟨⟨none, _, rfl⟩, rfl, rfl, .inl ⟨rfl, rfl⟩, rfl, rfl, rfl, trivial⟩
  have horacle : analyze [] pairResult true = some pairOracle := rfl
  refine (returns_iff 2 (.inl rfl) horacle hvals).mpr
    ⟨.inr (.inr ⟨by decide, ?_⟩), by decide, .inr ⟨?_, ?_⟩⟩
  · show ¬SecondChunkMoves pairResult.type
    unfold SecondChunkMoves
    decide
  · intro h
    exact Bool.false_ne_true (h _ List.mem_cons_self).1
  · refine List.forall_mem_cons.mpr ⟨?_, List.forall_mem_singleton.mpr nofun⟩
    exact fun _ _ => ⟨Bool.false_ne_true, nofun⟩

/-- `func() [3]int32`: sixteen bytes are loaded from a variable of twelve. -/
example : ¬ResultTravels (.array (.integer false 32) 3) := by
  rintro (h | h | ⟨h, -⟩) <;> exact absurd h (by decide)

end Together

end Dragongo
