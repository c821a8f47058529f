import Dragongo.Storing

/-!
# Assignments of values

Scalars are stored and aggregates are copied from an address.  Here is when an assignment whose
right side is not a composite without storage leaves in the destination what the right side is.
-/

namespace Dragongo
open LType Varexpr_context

/-! ## What is asked of an assignment -/

/-- A store, if it is one, of a whole object of the type. -/
def Inst.StoresAll (t : LType) : Inst → Prop
  | .store (.value dst _) => dst.type = ptr t
  | .store (.copy dst _ size _) => dst.type = ptr t ∧ size = t.shape.allocSize
  | _ => True

namespace Machine

/-- The address of the destination. -/
def place (M : Machine) : Bexpression → BitVec 64
  | .expr _ v _ => M.address v
  | .compositeInit node bt _ => M.address (.temporary node bt.type)

mutual
/-- The constant aggregates of an expression are in the variables that hold them. -/
def HoldsConstants (M : Machine) : Bexpression → Prop
  | .expr bt v vc => ¬vc.pending → v.isConstant → bt.type.isAggregateType →
    M.contents bt.type (M.address (.constantVariable v)) = M.bytes v
  | .compositeInit _ _ elems => AllHoldConstants M elems
def AllHoldConstants (M : Machine) : List Bexpression → Prop
  | [] => True
  | e :: es => HoldsConstants M e ∧ AllHoldConstants M es
end

mutual
/-- What an expression reads: the contents that it refers to, and the addresses on the way. -/
def uses (M : Machine) : Bexpression → Set (BitVec 64)
  | .expr bt v vc => M.reads v ∪
    match (Bexpression.expr bt v vc).storage with
    | some a => Memory.region (M.address a) bt.type.shape.allocSize
    | none => ∅
  | .compositeInit _ _ elems => allUses M elems
def allUses (M : Machine) : List Bexpression → Set (BitVec 64)
  | [] => ∅
  | e :: es => uses M e ∪ allUses M es
end

/-- A state before the assignment of `e` to the place `a`: no load of it has run, its value has as
many bytes as its type, and an aggregate lies at the same place or apart from it. -/
structure Before (M : Machine) (a : BitVec 64) (e : Bexpression) : Prop where
  fresh : ∀ v, M.loaded v = none
  sized : (M.means e).length = e.btype.type.shape.allocSize
  constants : M.HoldsConstants e
  apart : e.btype.type.isAggregateType → ∀ v, e.storage = some v →
    CanCopy a (M.address v) e.btype.type.shape.allocSize

/-- An aggregate that is copied to the place `a` lies, like that, where a copy promises. -/
def CopiesAligned (M : Machine) (a : BitVec 64) : Bexpression → Prop
  | .expr bt v vc => v.type ≠ void → bt.type.isAggregateType →
    ∀ s, (Bexpression.expr bt v vc).storage = some s →
      AreAligned bt.type.prefAlign a (M.address s)
  | .compositeInit .. => True

end Machine

section Conditions

variable (c : CircularTypes)

/-- A value that may be assigned to a variable of type `t`: of that type, or a pointer that the
backend casts to it. -/
inductive Assignable (t : LType) : Bexpression → Prop
  | same {e : Bexpression} (h : e.btype.type = t) : Assignable t e
  | converted {e : Bexpression} (ht : t.isPointerTy) (h : areConverted c e.btype.type t) :
    Assignable t e
  | nil {bt : Btype} {v : Value} {vc : VarContext} (ht : t.isPointerTy) (hvc : ¬vc.pending)
    (hv : v.isNilPointer) : Assignable t (.expr bt v vc)

/-- The result of a call, if it has no bytes. -/
def IsVoidCall : Bexpression → Prop
  | .expr bt v vc => ¬vc.pending ∧ v.type = void ∧ bt.type.shape.allocSize = 0
  | .compositeInit .. => False

/-- The two sides of an assignment, as the frontend builds them. -/
structure IsAssignment (lhs rhs : Bexpression) : Prop where
  left : WellTyped lhs
  plain : lhs.btype.type.isPlain
  right : WellTyped rhs ∨ IsVoidCall rhs
  rvalue : IsRvalue rhs
  assignable : Assignable c lhs.btype.type rhs

/-- The expression is still the address of a variable or of a part of one. -/
def IsReference : Bexpression → Prop
  | .expr _ _ vc => vc.pending ∧ vc.addrLevel = 0
  | .compositeInit .. => False

/-- What the right side can be for a destination of type `t`.  An aggregate is a constant or a
reference, not to a part of a module variable; a scalar is not loaded as a pointer of another
type, unless it is cast then. -/
def Fetchable (t : LType) : Bexpression → Prop
  | .expr bt v vc =>
    v.type = void ∨
      if bt.type.isAggregateType then Addressable v vc
      else vc.pending → vc.addrLevel = 0 → bt.type = t →
        ∀ t', c.loadConversion bt = some t' → t'.type = bt.type ∨ ptr t'.type = bt.type
  | .compositeInit .. => False

/-- The assignment is lowered to code that leaves in the destination what the right side means,
and everything else as it was, when it runs in the state `M`. -/
def Assigns (lhs rhs : Bexpression) (M : Machine) : Prop :=
  ∃ code, assignmentStatement c lhs rhs = some code ∧ (∀ n, code.RunsInOrder n) ∧
    (∀ i ∈ code.insts, i.StoresAll lhs.btype.type) ∧ ∃ M', M.run code.insts = some M' ∧
      M'.memory = Memory.write M.memory (M.place lhs) (M.means rhs)

end Conditions

/-! ## Both sides -/

section Sides

variable {c : CircularTypes} {bt : Btype} {v d : Value} {vc : VarContext} {t : LType}

/-- The address of the left side is its value. -/
theorem resolveVarContext_lvalue (hw : WellTyped (.expr bt v vc)) :
    resolveVarContext c bt v vc VE_lvalue = some ⟨bt, v, []⟩ := by
  rw [WellTyped] at hw
  unfold resolveVarContext
  by_cases hp : vc.pending
  · rw [if_pos hp] at hw ⊢
    rcases hw with ⟨h0, -⟩ | ⟨h1, -, hptr⟩
    · simp [h0]
    · simp [h1, hptr]
  · rw [if_neg hp]

theorem assignmentStatement_expr {lt : Btype} {lc : VarContext} (hw : WellTyped (.expr lt d lc))
    (hd : d.type.isPointerTy) : assignmentStatement c (.expr lt d lc) (.expr bt v vc) =
      (resolve c (.expr bt v vc) (Bexpression.expr bt v vc).varContextDisp).bind fun r =>
        (genStoreValue c bt d r.value).map fun st =>
          .node [d.code, r.value.code] [.store st] := by
  rw [assignmentStatement, resolveVarContext_lvalue hw]
  simp only [Option.bind_eq_bind, Option.bind_some, storeInto_eq]
  rw [if_pos hd]
  cases resolve c (.expr bt v vc) (Bexpression.expr bt v vc).varContextDisp with
  | none => rfl
  | some r =>
    simp only [Option.bind_some, Bexpression.btype]
    cases genStoreValue c bt d r.value <;> rfl

/-- Only pointers are cast. -/
theorem isPointerTy_of_areConverted {s : LType} (h : areConverted c s t) : s.isPointerTy := by
  cases s with
  | ptr s => rfl
  | _ => simp [areConverted, isPtrToFuncDescriptorType, isPtrToFuncType, pointeeType,
      isFunctionTy, isPtrToIfaceStructType, isPtrToArrayOf, isPointerTy] at h

mutual
/-- The code of a value only loads. -/
theorem code_loads : ∀ (v : Value), ∀ i ∈ v.code.insts, ∃ a, i = .load a
  | .constantComposite _ elems => by
    simp only [Value.code, Code.insts, List.append_nil]
    exact codes_load elems
  | .load a => by
    simp only [Value.code, Code.insts, Code.allInsts, List.append_nil, List.mem_append,
      List.mem_singleton]
    rintro i (hi | rfl)
    · exact code_loads a i hi
    · exact ⟨a, rfl⟩
  | .bitcast v _ | .field v _ _ => by
    simp only [Value.code, Code.insts, Code.allInsts, List.append_nil]
    exact code_loads v
  | .element base _ index => by
    simp only [Value.code, Code.insts, Code.allInsts, List.append_nil, List.mem_append]
    rintro i (hi | hi)
    · exact code_loads base i hi
    · exact code_loads index i hi
  | .alloca .. | .argument .. | .globalVariable .. | .constantVariable _ | .temporary ..
  | .null _ | .undef _ | .constantInt .. | .constant .. | .instruction .. | .zext .. | .cast ..
  | .cmp .. | .xor .. => by simp [Value.code, Code.insts, Code.allInsts]
theorem codes_load : ∀ (vs : List Value), ∀ i ∈ Code.allInsts (Value.codes vs), ∃ a, i = .load a
  | [] => by simp [Value.codes, Code.allInsts]
  | v :: vs => by
    simp only [Value.codes, Code.allInsts, List.mem_append]
    rintro i (hi | hi)
    · exact code_loads v i hi
    · exact codes_load vs i hi
end

/-- The code of an assignment is that of both sides, and then the store. -/
theorem storesAll_assignment {s : Stored} : (∀ i ∈ (Code.node [d.code, v.code] [.store s]).insts,
    i.StoresAll t) ↔ (Inst.store s).StoresAll t := by
  simp only [Code.insts, Code.allInsts, List.append_nil, List.mem_append, List.mem_singleton]
  refine ⟨fun h => h _ (.inr rfl), fun h i hi => ?_⟩
  rcases hi with (hi | hi) | rfl
  · obtain ⟨a, rfl⟩ := code_loads d i hi
    exact trivial
  · obtain ⟨a, rfl⟩ := code_loads v i hi
    exact trivial
  · exact h

/-- Both sides are computed before the store. -/
theorem run_assignment {M : Machine} (hfresh : ∀ a, M.loaded a = none) (d v : Value) (s : Stored) :
    ∃ M₁, M.Later M₁ ∅ ∧ M.run (Code.node [d.code, v.code] [.store s]).insts = M₁.exec (.store s) := by
  obtain ⟨M₁, hrun, hlater, -⟩ :=
    (Machine.Later.refl hfresh ∅).run_code d (Set.disjoint_empty _)
  obtain ⟨M₂, hrun', hlater', -⟩ := hlater.run_code v (Set.disjoint_empty _)
  refine ⟨M₂, hlater', ?_⟩
  rw [Code.insts, Machine.run_append, run_cons hrun (run_only hrun'), Option.bind_some,
    Machine.run_singleton]

end Sides

/-! ## The store -/

section Cases

variable {c : CircularPointerTypes} {lt bt : Btype} {d v : Value} {lc vc : VarContext} {M : Machine}

/-- The right side is resolved, and its store leaves what it means in the destination. -/
def StoresRight (c : CircularTypes) (lt : Btype) (d : Value) (e : Bexpression) (M : Machine) :
    Prop :=
  ∃ r st, resolve c e e.varContextDisp = some r ∧
    genStoreValue c e.btype d r.value = some st ∧ (Inst.store st).StoresAll lt.type ∧
      ∀ M₁ : Machine, M.Later M₁ ∅ → ∃ M', M₁.exec (.store st) = some M' ∧
        M'.memory = Memory.write M.memory (M.address d) (M.means e)

theorem assigns_of_storesRight {c : CircularTypes} (hw : WellTyped (.expr lt d lc))
    (hd : d.type.isPointerTy) (hM : M.Before (M.address d) (.expr bt v vc))
    (h : StoresRight c lt d (.expr bt v vc) M) : Assigns c (.expr lt d lc) (.expr bt v vc) M := by
  obtain ⟨r, st, hr, hst, hall, hrun⟩ := h
  refine ⟨.node [d.code, r.value.code] [.store st], ?_, Code.runsInOrder _,
    storesAll_assignment.mpr hall, ?_⟩
  · rw [assignmentStatement_expr hw hd, hr, Option.bind_some]
    rw [Bexpression.btype] at hst
    rw [hst]
    rfl
  · obtain ⟨M₁, hlater, heq⟩ := run_assignment hM.fresh d r.value st
    rw [heq]
    exact hrun M₁ hlater

/-- An assignment that is lowered consists of the code of both sides and a store. -/
theorem store_of_assigns {c : CircularTypes} (hw : WellTyped (.expr lt d lc))
    (hM : M.Before (M.address d) (.expr bt v vc))
    (h : Assigns c (.expr lt d lc) (.expr bt v vc) M) : d.type.isPointerTy ∧ ∃ r st M₁,
      resolve c (.expr bt v vc) (Bexpression.expr bt v vc).varContextDisp = some r ∧
        genStoreValue c bt d r.value = some st ∧ (Inst.store st).StoresAll lt.type ∧
          M.Later M₁ ∅ ∧ (M₁.exec (.store st)).isSome := by
  obtain ⟨code, hcode, -, hall, M', hrun, -⟩ := h
  by_cases hd : d.type.isPointerTy
  · rw [assignmentStatement_expr hw hd] at hcode
    obtain ⟨r, hr, hcode⟩ := Option.bind_eq_some_iff.mp hcode
    obtain ⟨st, hst, rfl⟩ := Option.map_eq_some_iff.mp hcode
    obtain ⟨M₁, hlater, heq⟩ := run_assignment hM.fresh d r.value st
    exact ⟨hd, r, st, M₁, hr, hst, storesAll_assignment.mp hall, hlater,
      Option.isSome_of_eq_some (heq.symm.trans hrun)⟩
  · rw [assignmentStatement, resolveVarContext_lvalue hw] at hcode
    simp only [Option.bind_eq_bind, Option.bind_some] at hcode
    rw [if_neg hd] at hcode
    cases hcode

theorem memory_of_later {M M₁ : Machine} (h : M.Later M₁ ∅) : M₁.memory = M.memory :=
  funext fun b => h.memory b (Set.notMem_empty b)

theorem address_of_later {M M₁ : Machine} (h : M.Later M₁ ∅) (a : Value) :
    M₁.address a = M.address a := by
  rw [Machine.address, Machine.address, h.bytes_eq a (Set.disjoint_empty _)]

/-- A value that is not to be loaded from is resolved to itself. -/
theorem resolve_value {c : CircularTypes} {ctx : Varexpr_context} (hp : ¬vc.pending) :
    resolve c (.expr bt v vc) ctx = some ⟨bt, v, []⟩ := by
  rw [resolve, resolveVarContext, if_neg hp]

theorem storesRight_void {c : CircularTypes} (hM : M.Before (M.address d) (.expr bt v vc))
    (h : IsVoidCall (.expr bt v vc)) : StoresRight c lt d (.expr bt v vc) M := by
  obtain ⟨hp, hv, hsize⟩ := h
  refine ⟨_, .undef, resolve_value hp, if_pos hv, trivial, fun M₁ hlater => ⟨M₁, rfl, ?_⟩⟩
  have hnil : M.means (.expr bt v vc) = [] := by
    apply List.eq_nil_of_length_eq_zero
    rw [hM.sized]
    exact hsize
  rw [hnil, memory_of_later hlater]
  rfl

/-- An aggregate is copied from where it is: a constant from its variable. -/
theorem source_spec (hw : WellTyped (.expr bt v vc)) (hagg : bt.type.isAggregateType)
    (haddr : Addressable v vc) : ∃ src, spillConstant v bt = some src ∧ src.type.isPointerTy ∧
      (src = v ∨ src = .constantVariable v) ∧ (Bexpression.expr bt v vc).storage = some src ∧
      ∀ M : Machine, M.HoldsConstants (.expr bt v vc) →
        M.contents bt.type (M.address src) = M.means (.expr bt v vc) := by
  obtain ⟨src, hsrc, hptr⟩ := (spillConstant_iff hw hagg).mpr haddr
  refine ⟨src, hsrc, hptr, ?_⟩
  rw [spillConstant_eq hw hagg hsrc hptr, Bexpression.storage]
  by_cases hp : vc.pending
  · have h0 := pending_aggregate hw hagg hp
    rw [if_pos hp, if_pos hp, if_pos h0]
    refine ⟨.inl rfl, rfl, fun M _ => ?_⟩
    rw [Machine.means, if_pos ⟨hp, h0⟩]
  · have hconst : v.isConstant := by simpa [Addressable, hp] using haddr
    rw [if_neg hp, if_neg hp, if_pos hagg]
    refine ⟨.inr rfl, rfl, fun M hM => ?_⟩
    rw [Machine.means, if_neg fun h => hp h.1]
    exact hM hp hconst hagg

theorem storesRight_aggregate {c : CircularTypes} (hw : WellTyped (.expr bt v vc))
    (hagg : bt.type.isAggregateType) (hplain : bt.type.isPlain) (hd : d.type = ptr lt.type)
    (hT : bt.type = lt.type) (haddr : Addressable v vc)
    (hM : M.Before (M.address d) (.expr bt v vc))
    (hcopies : M.CopiesAligned (M.address d) (.expr bt v vc)) :
    StoresRight c lt d (.expr bt v vc) M := by
  obtain ⟨src, hsrc, hptr, -, hstorage, hcontents⟩ := source_spec hw hagg haddr
  have hctx : (Bexpression.expr bt v vc).varContextDisp = VE_lvalue := if_pos hagg
  refine ⟨⟨bt, v, []⟩, .copy d src bt.type.shape.allocSize bt.type.prefAlign, ?_, ?_,
    ⟨hd, hT ▸ rfl⟩, fun M₁ hlater => ?_⟩
  · rw [hctx, resolve_aggregate hw hagg]
  · rw [Bexpression.btype, genStoreValue, if_neg (aggregate_value_ne_void hw hplain), if_pos hagg,
      hsrc, allocSize_of_isPlain hplain, Option.bind_eq_bind, Option.bind_some,
      Option.bind_eq_bind, Option.bind_some, if_pos hptr]
  · have hmeans : Memory.read M.memory (M.address src) bt.type.shape.allocSize =
        M.means (.expr bt v vc) := hcontents M hM.constants
    have hmem : M₁.memory = M.memory := memory_of_later hlater
    refine ⟨M₁.write (M.address d) (M.means (.expr bt v vc)), ?_, ?_⟩
    · have hcopy : CanCopy (M.address d) (M.address src) bt.type.shape.allocSize :=
        hM.apart hagg src hstorage
      have haligned := hcopies (aggregate_value_ne_void hw hplain) hagg src hstorage
      rw [Machine.exec, address_of_later hlater, address_of_later hlater,
        if_pos ⟨hcopy, haligned⟩, hmem, hmeans]
    · rw [Machine.write, hmem]

theorem allocSize_of_isPointerTy : ∀ {t : LType}, t.isPointerTy → t.shape.allocSize = 8
  | ptr _, _ => by
    rw [shape]
    decide

/-- A scalar is stored as it is, or cast to a pointer of the type of the destination. -/
theorem genStoreValue_scalar {c : CircularTypes} {w : Value} (hagg : ¬bt.type.isAggregateType)
    (hw : w.type ≠ void) (hd : d.type = ptr lt.type) (hsame : bt.type = lt.type → w.type = lt.type)
    (hcast : bt.type ≠ lt.type → w.type.isPointerTy ∧
      (areConverted c bt.type lt.type || w.isNilPointer)) :
    ∃ u, genStoreValue c bt d w = some (.value d u) ∧ ∀ M : Machine, M.bytes u = M.bytes w := by
  have hdst : d.type.pointeeType = lt.type := by rw [hd]; rfl
  unfold genStoreValue
  rw [if_neg hw, if_neg hagg, hdst]
  by_cases hT : bt.type = lt.type
  · have hconv : (if w.type.isPointerTy then convertForAssignment c bt.type w lt.type else w) = w := by
      rw [convertForAssignment, if_pos hT.symm, ite_self]
    refine ⟨w, ?_, fun _ => rfl⟩
    rw [hconv]
    exact if_pos (hsame hT)
  · obtain ⟨hptr, hcast⟩ := hcast hT
    refine ⟨.bitcast w lt.type, ?_, fun _ => rfl⟩
    rw [if_pos hptr, convertForAssignment, if_neg (Ne.symm hT), if_pos hcast]
    exact if_pos rfl

/-- Whatever a load is redirected to, it reads the bytes that the reference is to. -/
theorem loadFromExpr_load (hw : WellTyped (.expr bt v vc)) (hp : vc.pending)
    (h0 : vc.addrLevel = 0) : ∃ space,
      (loadFromExpr c.toCircularTypes bt v vc bt).value = .load space ∧
      (∀ M : Machine, M.bytes space = M.bytes v ∧ M.reads space = M.reads v) ∧
      space.type.pointeeType.shape.allocSize = bt.type.shape.allocSize := by
  have hv := reference_type hw hp h0
  have hsize : v.type.pointeeType.shape.allocSize = bt.type.shape.allocSize := by
    rw [hv]
    rfl
  unfold loadFromExpr
  cases hconv : c.loadConversion bt with
  | none => exact ⟨v, rfl, fun _ => ⟨rfl, rfl⟩, hsize⟩
  | some t =>
    refine ⟨circularSpace bt v vc t, rfl, ?_⟩
    by_cases ht : t.type = bt.type
    · have hspace : circularSpace bt v vc t = v := by
        rw [circularSpace, ht]
        exact if_pos hv.symm
      rw [hspace]
      exact ⟨fun _ => ⟨rfl, rfl⟩, hsize⟩
    · have hspace : circularSpace bt v vc t = .bitcast v (ptr (ptr t.type)) := by
        simp [circularSpace, hv, ht, hp]
      rw [hspace]
      refine ⟨fun _ => ⟨rfl, rfl⟩, ?_⟩
      rw [allocSize_of_isPointerTy (c.isPointerTy_of_loadConversion hconv)]
      exact allocSize_of_isPointerTy rfl

/-- It reads what the reference means. -/
theorem bytes_loadFromExpr {M : Machine} (hfresh : ∀ a, M.loaded a = none)
    (hw : WellTyped (.expr bt v vc)) (hp : vc.pending) (h0 : vc.addrLevel = 0) :
    M.bytes (loadFromExpr c.toCircularTypes bt v vc bt).value = M.means (.expr bt v vc) := by
  obtain ⟨space, hvalue, hspace, hsize⟩ := loadFromExpr_load (c := c) hw hp h0
  rw [hvalue, Machine.bytes_load_of_fresh (hfresh space), Machine.means, if_pos ⟨hp, h0⟩,
    Machine.contents, Machine.contents, hsize, Machine.address, Machine.address, (hspace M).1]

/-- The type that a load gives. -/
theorem loadFromExpr_type {c : CircularTypes} (hw : WellTyped (.expr bt v vc)) (hp : vc.pending)
    (h0 : vc.addrLevel = 0) : (loadFromExpr c bt v vc bt).value.type =
      match c.loadConversion bt with
      | none => bt.type
      | some t => if t.type = bt.type then bt.type else ptr t.type := by
  have hv := reference_type hw hp h0
  unfold loadFromExpr
  cases hconv : c.loadConversion bt with
  | none =>
    change v.type.pointeeType = bt.type
    rw [hv]
    rfl
  | some t =>
    change (circularSpace bt v vc t).type.pointeeType = _
    rw [circularSpace_type hp hv]
    by_cases ht : t.type = bt.type
    · simp [ht, pointeeType]
    · simp [ht, pointeeType]

/-- A resolved scalar, and whether it has the type of the expression. -/
theorem resolve_scalar_value (hw : WellTyped (.expr bt v vc)) (hvoid : bt.type ≠ void)
    (hrv : IsRvalue (.expr bt v vc)) :
    ∃ r, resolve c.toCircularTypes (.expr bt v vc) VE_rvalue = some r ∧ r.value.type ≠ void ∧
      (bt.type.isPointerTy → r.value.type.isPointerTy) ∧
      (¬vc.pending → r.value = v) ∧
      (r.value.type = bt.type ↔ (vc.pending → vc.addrLevel = 0 → ∀ t',
        c.loadConversion bt = some t' → t'.type = bt.type ∨ ptr t'.type = bt.type)) ∧
      (∀ M : Machine, (∀ a, M.loaded a = none) → M.bytes r.value = M.means (.expr bt v vc)) ∧
        ∀ M : Machine, M.reads r.value ⊆ M.uses (.expr bt v vc) := by
  by_cases hl : vc.pending ∧ vc.addrLevel = 0
  · obtain ⟨hp, h0⟩ := hl
    have hlv : ¬vc.lvalue := hrv hp h0
    have hr : resolve c.toCircularTypes (.expr bt v vc) VE_rvalue =
        some (loadFromExpr c.toCircularTypes bt v vc bt) := by
      simp [resolve, resolveVarContext, hp, h0, hlv]
    have htype := loadFromExpr_type (c := c.toCircularTypes) hw hp h0
    refine ⟨_, hr, ?_, ?_, fun h => absurd hp h, ?_, fun M hM => bytes_loadFromExpr hM hw hp h0,
      fun M => ?_⟩
    · rw [htype]
      split
      · exact hvoid
      · split_ifs
        · exact hvoid
        · exact LType.noConfusion
    · intro hptr
      rw [htype]
      split
      · exact hptr
      · split_ifs
        · exact hptr
        · rfl
    · rw [htype]
      cases hconv : c.loadConversion bt with
      | none => simp
      | some t =>
        by_cases ht : t.type = bt.type
        · simp [ht]
        · simp [hp, h0, ht]
    · obtain ⟨space, hvalue, hspace, hsize⟩ := loadFromExpr_load (c := c) hw hp h0
      rw [hvalue, Machine.reads, hsize, Machine.address, (hspace M).1, (hspace M).2, Machine.uses,
        Bexpression.storage, if_pos hp, if_pos h0]
      rfl
  · have hv : v.type = bt.type := value_type hw fun hp h0 => hl ⟨hp, h0⟩
    have hr : resolve c.toCircularTypes (.expr bt v vc) VE_rvalue = some ⟨bt, v, []⟩ := by
      by_cases hp : vc.pending
      · have hpend := isResolvable_of_wellTyped hw hp
        rcases hpend with h0 | ⟨h1, hptr⟩
        · exact absurd ⟨hp, h0⟩ hl
        · simp [resolve, resolveVarContext, hp, h1, hptr]
      · exact resolve_value hp
    refine ⟨_, hr, hv ▸ hvoid, fun h => hv ▸ h, fun _ => rfl, ?_, fun M _ => ?_, fun M => ?_⟩
    · exact iff_of_true hv fun hp h0 => absurd ⟨hp, h0⟩ hl
    · rw [Machine.means, if_neg hl]
    · rw [Machine.uses]
      exact Set.subset_union_left

/-- What is assigned with another type is a pointer that is cast. -/
theorem Assignable.cases {c : CircularTypes} {t : LType} (h : Assignable c t (.expr bt v vc))
    (hv : ¬vc.pending → v.type = bt.type) : bt.type = t ∨
      t.isPointerTy ∧ bt.type.isPointerTy ∧ (areConverted c bt.type t ∨ ¬vc.pending ∧
        v.isNilPointer) := by
  cases h with
  | same h => exact .inl h
  | converted ht h => exact .inr ⟨ht, isPointerTy_of_areConverted h, .inl h⟩
  | nil ht hvc hnil =>
    refine .inr ⟨ht, ?_, .inr ⟨hvc, hnil⟩⟩
    rw [← hv hvc]
    unfold Value.isNilPointer at hnil
    split at hnil
    · rfl
    · cases hnil

theorem Assignable.isPlain {c : CircularTypes} {t : LType} (h : Assignable c t (.expr bt v vc))
    (hv : ¬vc.pending → v.type = bt.type) (ht : t.isPlain) : bt.type.isPlain := by
  rcases h.cases hv with rfl | ⟨-, hptr, -⟩
  · exact ht
  · cases hbt : bt.type with
    | ptr s => rfl
    | _ =>
      rw [hbt] at hptr
      cases hptr

theorem storesRight_scalar (hw : WellTyped (.expr bt v vc)) (hagg : ¬bt.type.isAggregateType)
    (hvoid : bt.type ≠ void) (hrv : IsRvalue (.expr bt v vc)) (hd : d.type = ptr lt.type)
    (hassign : Assignable c.toCircularTypes lt.type (.expr bt v vc))
    (hfetch : Fetchable c.toCircularTypes lt.type (.expr bt v vc)) (hv : v.type ≠ void)
    (hM : M.Before (M.address d) (.expr bt v vc)) :
    StoresRight c.toCircularTypes lt d (.expr bt v vc) M := by
  obtain ⟨r, hr, hne, hptr, hval, htype, hbytes, -⟩ := resolve_scalar_value hw hvoid hrv
  have hctx : (Bexpression.expr bt v vc).varContextDisp = VE_rvalue := if_neg hagg
  have hcond := hfetch.resolve_left hv
  rw [if_neg hagg] at hcond
  have hcases := hassign.cases fun hp => value_type hw fun hp' _ => hp hp'
  obtain ⟨u, hst, hu⟩ := genStoreValue_scalar (c := c.toCircularTypes) hagg hne hd
    (fun hT => by
      rw [← hT]
      exact htype.mpr fun hp h0 => hcond hp h0 hT)
    (fun hT => by
      obtain ⟨-, hbptr, hcast⟩ := hcases.resolve_left hT
      refine ⟨hptr hbptr, ?_⟩
      rcases hcast with hcast | ⟨hp, hnil⟩
      · simp [hcast]
      · simp [hval hp, hnil])
  refine ⟨r, .value d u, hctx ▸ hr, hst, hd, fun M₁ hlater => ?_⟩
  have hmem : M₁.memory = M.memory := memory_of_later hlater
  have heq : M₁.bytes u = M.means (.expr bt v vc) := by
    rw [hu, hlater.bytes_eq _ (Set.disjoint_empty _), hbytes M hM.fresh]
  refine ⟨M₁.write (M.address d) (M.means (.expr bt v vc)), ?_, ?_⟩
  · rw [Machine.exec, address_of_later hlater, heq]
  · rw [Machine.write, hmem]

/-- What has been stored completely could be fetched. -/
theorem fetchable_of_store {r : Resolved} {st : Stored} {M₁ : Machine} (hw : WellTyped (.expr bt v vc))
    (hplain : bt.type.isPlain) (hrv : IsRvalue (.expr bt v vc))
    (hassign : Assignable c.toCircularTypes lt.type (.expr bt v vc))
    (hr : resolve c.toCircularTypes (.expr bt v vc)
      (Bexpression.expr bt v vc).varContextDisp = some r)
    (hst : genStoreValue c.toCircularTypes bt d r.value = some st)
    (hall : (Inst.store st).StoresAll lt.type) (hlater : M.Later M₁ ∅)
    (hexec : (M₁.exec (.store st)).isSome) :
    d.type = ptr lt.type ∧ Fetchable c.toCircularTypes lt.type (.expr bt v vc) ∧
      M.CopiesAligned (M.address d) (.expr bt v vc) := by
  have hcases := hassign.cases fun hp => value_type hw fun hp' _ => hp hp'
  unfold genStoreValue at hst
  by_cases hagg : bt.type.isAggregateType
  · have hctx : (Bexpression.expr bt v vc).varContextDisp = VE_lvalue := if_pos hagg
    rw [hctx, resolve_aggregate hw hagg] at hr
    cases hr
    have hT : bt.type = lt.type := hcases.resolve_right fun h =>
      not_isPointerTy_of_isAggregateType _ hagg h.2.1
    rw [if_neg (aggregate_value_ne_void hw hplain), if_pos hagg,
      allocSize_of_isPlain hplain] at hst
    obtain ⟨src, hsrc, hst⟩ := Option.bind_eq_some_iff.mp hst
    rw [Option.bind_eq_bind, Option.bind_some] at hst
    split_ifs at hst with hptr
    cases hst
    have haddr := (spillConstant_iff hw hagg).mp ⟨src, hsrc, hptr⟩
    refine ⟨hall.1, .inr ?_, fun _ _ s hs => ?_⟩
    · rwa [if_pos hagg]
    · obtain ⟨src', hsrc', -, -, hstorage, -⟩ := source_spec hw hagg haddr
      cases hsrc.symm.trans hsrc'
      cases hstorage.symm.trans hs
      rw [Machine.exec, address_of_later hlater, address_of_later hlater] at hexec
      split_ifs at hexec with hcopy
      · exact hcopy.2
      · cases hexec
  · have hctx : (Bexpression.expr bt v vc).varContextDisp = VE_rvalue := if_neg hagg
    obtain ⟨r', hr', hne, -, -, htype, -, -⟩ :=
      resolve_scalar_value (c := c) hw (isPlain_ne_void hplain) hrv
    rw [hctx, hr'] at hr
    cases hr
    rw [if_neg hne, if_neg hagg] at hst
    simp only [Option.ite_none_right_eq_some] at hst
    obtain ⟨hu, hst⟩ := hst
    cases hst
    have hd : d.type = ptr lt.type := hall
    refine ⟨hd, .inr ?_, fun _ hagg' => absurd hagg' hagg⟩
    rw [if_neg hagg]
    intro hp h0 hT
    refine htype.mp ?_ hp h0
    rw [hd, pointeeType, convertForAssignment, if_pos hT.symm, ite_self] at hu
    rw [hu, hT]

/-- An assignment leaves in the destination what its right side means exactly when the left side
is a reference, the right side can be fetched, and what is copied lies where a copy promises. -/
theorem assigns_iff {lhs : Bexpression} (h : IsAssignment c.toCircularTypes lhs (.expr bt v vc))
    (hM : M.Before (M.place lhs) (.expr bt v vc)) :
    Assigns c.toCircularTypes lhs (.expr bt v vc) M ↔
      IsReference lhs ∧ Fetchable c.toCircularTypes lhs.btype.type (.expr bt v vc) ∧
        M.CopiesAligned (M.place lhs) (.expr bt v vc) := by
  cases lhs with
  | compositeInit =>
    refine iff_of_false ?_ fun h => h.1
    rintro ⟨code, hcode, -⟩
    cases hcode
  | expr lt d lc =>
    have hplain : ¬IsVoidCall (.expr bt v vc) → WellTyped (.expr bt v vc) ∧ bt.type.isPlain := by
      intro hvoid
      have hw := h.right.resolve_right hvoid
      exact ⟨hw, h.assignable.isPlain (fun hp => value_type hw fun hp' _ => hp hp') h.plain⟩
    constructor
    · intro hassigns
      obtain ⟨hd, r, st, M₁, hr, hst, hall, hlater, hexec⟩ := store_of_assigns h.left hM hassigns
      have hne : d.type ≠ lt.type → IsReference (.expr lt d lc) := by
        intro hne
        by_contra href
        exact hne (value_type h.left fun hp h0 => href ⟨hp, h0⟩)
      by_cases hvoid : IsVoidCall (.expr bt v vc)
      · -- a type without bytes is no pointer
        refine ⟨hne fun hT => ?_, .inl hvoid.2.1, fun hv => absurd hvoid.2.1 hv⟩
        obtain ⟨-, hv, hsize⟩ := hvoid
        have hnot : ¬bt.type.isPointerTy := fun hptr => by
          rw [allocSize_of_isPointerTy hptr] at hsize
          cases hsize
        cases h.assignable with
        | same hbt =>
          rw [hT, ← show bt.type = lt.type from hbt] at hd
          exact hnot hd
        | converted _ hconv => exact hnot (isPointerTy_of_areConverted hconv)
        | nil _ _ hnil =>
          unfold Value.isNilPointer at hnil
          split at hnil
          · cases hv
          · cases hnil
      · obtain ⟨hw, hp⟩ := hplain hvoid
        obtain ⟨hdst, hfetch⟩ :=
          fetchable_of_store hw hp h.rvalue h.assignable hr hst hall hlater hexec
        exact ⟨hne fun hT => ptr_ne _ (hdst.symm.trans hT), hfetch⟩
    · rintro ⟨href, hfetch, hcopies⟩
      have hd : d.type = ptr lt.type := reference_type h.left href.1 href.2
      refine assigns_of_storesRight h.left (by rw [hd]; rfl) hM ?_
      by_cases hvoid : IsVoidCall (.expr bt v vc)
      · exact storesRight_void hM hvoid
      · obtain ⟨hw, hp⟩ := hplain hvoid
        have hv : v.type ≠ void := aggregate_value_ne_void hw hp
        by_cases hagg : bt.type.isAggregateType
        · have hcases := h.assignable.cases fun hp => value_type hw fun hp' _ => hp hp'
          have hT : bt.type = lt.type := hcases.resolve_right fun h =>
            not_isPointerTy_of_isAggregateType _ hagg h.2.1
          have hcond := hfetch.resolve_left hv
          rw [if_pos hagg] at hcond
          exact storesRight_aggregate hw hagg hp hd hT hcond hM hcopies
        · exact storesRight_scalar hw hagg (isPlain_ne_void hp) h.rvalue hd h.assignable hfetch hv
            hM

end Cases

/-- `struct { int64; int64 }`. -/
def pairType : Btype := .struct none [.integer false 64, .integer false 64]

/-- A local variable on the left side. -/
def pairVariable : Bexpression :=
  .expr pairType (.alloca 0 pairType.type) { pending := true, lvalue := true }

theorem isAssignment_to_pairVariable {v : Value} (hv : v.type = ptr pairType.type) :
    IsAssignment noCircularPointers.toCircularTypes pairVariable
      (.expr pairType v { pending := true }) where
  left := Or.inl ⟨rfl, rfl⟩
  plain := by decide
  right := Or.inl (Or.inl ⟨rfl, hv⟩)
  rvalue := fun _ _ => Bool.false_ne_true
  assignable := .same rfl

/-- Module variables are at address 64, and all others at 0. -/
def twoPlaces : Machine where
  memory := fun _ => 0
  known v := Bytes.ofAddress (if v.isModuleVar then 64 else 0)
  loaded := fun _ => none

theorem address_pairVariable : twoPlaces.place pairVariable = 0 := Bytes.toAddress_ofAddress 0

theorem before_pair {v : Value} (hv : twoPlaces.address v = 64) :
    twoPlaces.Before (twoPlaces.place pairVariable) (.expr pairType v { pending := true }) where
  fresh _ := rfl
  sized := Memory.length_read
  constants hp := absurd rfl hp
  apart _ s hs := by
    cases hs
    have hcopy : CanCopy 0 64 pairType.type.shape.allocSize := by decide
    rw [hv, address_pairVariable]
    exact hcopy

end Dragongo
