import Dragongo.Assignment
import Dragongo.ResolvedNodes

/-!
# Assignments that are checked

The nodes of an assignment, up to the check that they form a tree.
-/

namespace Dragongo
open LType Varexpr_context

/-- The expression in the context that its node has. -/
def Bexpression.inContext (e : Bexpression) (vc : VarContext) : Bexpression :=
  match e with
  | .expr bt v _ => .expr bt v vc
  | .compositeInit node bt elems => .compositeInit node bt elems

/-- The stores of a node itself. -/
def Code.stores : Code → List Stored
  | .node _ own => own.filterMap fun
    | .store st => some st
    | .load _ => none

namespace Backend

/-- What the builder gives back of some instructions. -/
def lastValue (is : List InstRef) : NodeValue := (is.getLast?.map .instruction).getD (.other 0)

section Statement

variable (ir : IRBuilder) (c : CircularTypes) (be : Backend)

/-- `assignment_statement` of expressions that are no composites.  The right side is seen as its
node is once the left one has been resolved. -/
def assignmentStatement (lhs rhs : Side) : Option (Code × BnodeRef × Backend) := do
  let (lhs2, be) ← be.resolve ir c lhs VE_lvalue
  let k ← be.node rhs.node
  let src := rhs.expr.inContext k.varContext
  let code ← Dragongo.assignmentStatement c lhs.expr src
  let (rhs2, be) ← be.resolve ir c ⟨src, rhs.node⟩ src.varContextDisp
  let val ← Dragongo.resolve c src src.varContextDisp
  let (is, be) := be.emit (code.stores.flatMap ir.store)
  let (st, be) ← be.mkStore (ir.types val.btype) (lastValue is) is lhs2 rhs2
  let be ← be.enforceTreeIntegrity st
  some (code, st, be)

end Statement

/-! ## What is made -/

section Made
variable {be be' : Backend} {ir : IRBuilder} {c : CircularTypes} {lt bt : Btype}
  {d v : Value} {lc vc : VarContext} {x y dst src : BnodeRef} {rest used : List BnodeRef}
  {ctx : Varexpr_context}

/-- A store of new instructions, in its statement. -/
theorem emitStore_grows (typ : ℕ) (val : NodeValue) (is : List Instruction)
    (ho : be.Operands (dst :: src :: rest)) (hdst : be.exprAt dst) (hsrc : be.exprAt src) :
    ∃ st be', (be.emit is).2.mkStore typ val (be.emit is).1 dst src = some (st, be') ∧
      Grows be be' (dst :: src :: rest) (st :: rest) (be.emit is).1 (is.length + 2) := by
  have hgrows := (emit_unchanged be is (dst :: src :: rest)).grows ho
  have hmem : ∀ i ∈ (be.emit is).1, be.insts.length ≤ i ∧ i < be.insts.length + is.length :=
    fun i hi => List.mem_range'_1.mp hi
  have hnew : ∀ i ∈ (be.emit is).1, i ∉ (dst :: src :: rest).flatMap (be.emit is).2.code := by
    intro i hi hcode
    have hcode' := hgrows.code.mem_iff.mp hcode
    rw [List.append_nil] at hcode'
    exact absurd (ho.code_lt hcode') (Nat.not_lt.mpr (hmem i hi).1)
  obtain ⟨st, be', hmake, -, hgrows', -⟩ := mkStore_grows typ val VE_lvalue [] hgrows.operands hdst
    hsrc List.nodup_range' (fun i hi => (hmem i hi).2.trans_eq List.length_append.symm) hnew
  refine ⟨st, be', hmake, ?_⟩
  have hboth := hgrows.trans hgrows'
  rwa [List.nil_append, Nat.zero_add, List.length_range'] at hboth

theorem IsNode.live (h : be.IsNode ⟨.expr bt v vc, y⟩) (hkeeps : Retains be be' ctx used)
    (hinsts : be.insts.length ≤ be'.insts.length) : ∃ k, be'.node y = some k ∧
      be'.IsNode ⟨.expr bt v k.varContext, y⟩ ∧ (y ∉ used → k.varContext = vc) := by
  obtain ⟨n, hn, hexpr, hvc, hvalue⟩ := h
  rcases hkeeps y n hn with hn' | ⟨hused, -, hn'⟩
  · exact ⟨n, hn', ⟨n, hn', hexpr, rfl, fun i hi => (hvalue i hi).trans_le hinsts⟩, fun _ => hvc⟩
  · exact ⟨_, hn', ⟨_, hn', hexpr, rfl, fun i hi => (hvalue i hi).trans_le hinsts⟩,
      fun hnot => absurd hused hnot⟩

theorem exists_of_resolve {e : Bexpression} {r : BnodeRef × Backend}
    (h : be.resolve ir c ⟨e, x⟩ ctx = some r) : ∃ bt v vc, e = .expr bt v vc := by
  cases e with
  | expr bt v vc => exact ⟨bt, v, vc, rfl⟩
  | compositeInit =>
    obtain ⟨k, -, h⟩ := Option.bind_eq_some_iff.mp h
    cases h

/-- A reference that is resolved to its address is resolved for all of its uses. -/
theorem resolve_lvalue_used (h : be.resolve ir c ⟨.expr bt v vc, x⟩ VE_lvalue = some (y, be'))
    (hnode : be.IsNode ⟨.expr bt v vc, x⟩) {k : Bnode} (hk : be'.node x = some k) :
    ¬k.varContext.pending := by
  obtain ⟨n, hn, hexpr, rfl, -⟩ := hnode
  have hout : handsOutAddress n.varContext VE_lvalue := by simp [handsOutAddress]
  have hn' : (be.emit (instsOfResolve ir c (.expr bt v n.varContext) VE_lvalue)).2.node x = some n :=
    hn
  simp only [resolve, resolveAt, hn', Option.bind_eq_bind, Option.bind_some] at h
  by_cases hpending : n.varContext.pending
  · rw [if_pos hpending, if_pos hout] at h
    obtain ⟨be₁, hreset, h⟩ := Option.map_eq_some_iff.mp h
    obtain rfl := (Prod.mk.inj h).2
    simp only [resetVarExprContext, hn', Option.bind_eq_bind, Option.bind_some] at hreset
    rw [if_pos ⟨hexpr, hpending⟩] at hreset
    obtain rfl := Option.some.inj hreset
    rw [node_update_self, hn'] at hk
    obtain rfl := Option.some.inj hk
    exact Bool.false_ne_true
  · rw [if_neg hpending] at h
    obtain rfl := (Prod.mk.inj (Option.some.inj h)).2
    obtain rfl := Option.some.inj (hn'.symm.trans hk)
    exact hpending

/-- Over two expressions an assignment can be made. -/
theorem assignment_grows (ir : IRBuilder) (c : CircularTypes) (ho : be.Operands [x, y])
    (hl : be.IsNode ⟨.expr lt d lc, x⟩) (hr : be.IsNode ⟨.expr bt v vc, y⟩) :
    ∃ lhs2 be₁ k rhs2 be₂,
      be.resolve ir c ⟨.expr lt d lc, x⟩ VE_lvalue = some (lhs2, be₁) ∧ be₁.node y = some k ∧
      (x ≠ y → k.varContext = vc) ∧
      be₁.resolve ir c ⟨.expr bt v k.varContext, y⟩
        (Bexpression.expr bt v k.varContext).varContextDisp = some (rhs2, be₂) ∧
      ∀ typ val (is : List Instruction), is.length ≤ 3 → ∃ st be₃ new,
        (be₂.emit is).2.mkStore typ val (be₂.emit is).1 lhs2 rhs2 = some (st, be₃) ∧
          Grows be be₃ [x, y] [st] new 13 := by
  obtain ⟨lhs2, be₁, hlhs, hexpr, hgrows, hkeeps⟩ := resolve_grows ir c ho (hl.stands VE_lvalue)
  obtain ⟨k, hk, hnode, hvc⟩ := hr.live hkeeps hgrows.insts
  have hswap := hgrows.trans (grows_perm hgrows.operands (List.Perm.swap y lhs2 []))
  obtain ⟨rhs2, be₂, hrhs, hexpr', hgrows', hkeeps'⟩ := resolve_grows ir c hswap.operands
    (hnode.stands (Bexpression.expr bt v k.varContext).varContextDisp)
  have hback := (hswap.trans hgrows').trans
    (grows_perm hgrows'.operands (List.Perm.swap lhs2 rhs2 []))
  refine ⟨lhs2, be₁, k, rhs2, be₂, hlhs, hk, fun hne => hvc fun hmem => ?_, hrhs,
    fun typ val is his => ?_⟩
  · exact hne (List.mem_singleton.mp hmem).symm
  · obtain ⟨st, be₃, hmake, hgrows''⟩ := emitStore_grows typ val is hback.operands
      (hkeeps'.exprAt hexpr) hexpr'
    exact ⟨st, be₃, _, hmake, (hback.trans hgrows'').mono (by omega)⟩

end Made
end Backend

/-! ## A node on both sides -/

section Itself
variable {c : CircularTypes} {bt : Btype} {v : Value} {vc vc' : VarContext} {lhs : Bexpression}
  {code : Code}

/-- An assignment that is lowered resolves its right side, and has one store. -/
theorem store_of_assignmentStatement
    (h : assignmentStatement c lhs (.expr bt v vc) = some code) : ∃ r st,
      resolve c (.expr bt v vc) (Bexpression.expr bt v vc).varContextDisp = some r ∧
        code.stores = [st] := by
  cases lhs with
  | compositeInit => cases h
  | expr lt d lc =>
    obtain ⟨lhs2, -, h⟩ := Option.bind_eq_some_iff.mp h
    dsimp only at h
    split_ifs at h
    obtain ⟨r, hr, h⟩ := Option.bind_eq_some_iff.mp h
    obtain ⟨st, -, h⟩ := Option.bind_eq_some_iff.mp h
    obtain rfl := Option.some.inj h
    exact ⟨r, st, hr, rfl⟩

/-- An aggregate is copied from its address, whether or not that has been resolved before. -/
theorem assignmentStatement_used (hw : WellTyped (.expr bt v vc)) (hagg : bt.type.isAggregateType)
    (hp : ¬vc'.pending) : assignmentStatement c lhs (.expr bt v vc') =
      assignmentStatement c lhs (.expr bt v vc) := by
  cases lhs with
  | compositeInit => rfl
  | expr lt d lc =>
    have hctx (vc : VarContext) : (Bexpression.expr bt v vc).varContextDisp = VE_lvalue :=
      if_pos hagg
    simp only [assignmentStatement, storeInto_eq, hctx, resolve_value hp, resolve_aggregate hw hagg,
      Bexpression.btype]

/-- A scalar variable whose address has been resolved is not assigned to itself. -/
theorem not_stores_itself (hw : WellTyped (.expr bt v vc)) (hagg : ¬bt.type.isAggregateType)
    (hp : ¬vc'.pending) (h : assignmentStatement c (.expr bt v vc) (.expr bt v vc') = some code)
    (hall : ∀ i ∈ code.insts, i.StoresAll bt.type) : False := by
  by_cases hv : v.type.isPointerTy
  case neg =>
    rw [assignmentStatement, resolveVarContext_lvalue hw] at h
    simp only [Option.bind_eq_bind, Option.bind_some] at h
    rw [if_neg hv] at h
    cases h
  rw [assignmentStatement_expr hw hv, resolve_value hp, Option.bind_some] at h
  obtain ⟨st, hst, rfl⟩ := Option.map_eq_some_iff.mp h
  have hstore : (Inst.store st).StoresAll bt.type := storesAll_assignment.mp hall
  have hvoid : v.type ≠ void := fun hvoid => by
    rw [hvoid] at hv
    cases hv
  rw [genStoreValue, if_neg hvoid, if_neg hagg, if_pos hv] at hst
  dsimp only at hst
  split_ifs at hst with htype
  obtain rfl := Option.some.inj hst
  have hptr : v.type = ptr bt.type := hstore
  have hsame : convertForAssignment c bt.type v v.type.pointeeType = v := by
    rw [hptr]
    exact if_pos rfl
  rw [hsame, hptr] at htype
  exact ptr_ne _ htype

end Itself

/-! ## What the statement does -/

section Statement
variable {c : CircularPointerTypes} {lhs : Bexpression} {bt : Btype} {v : Value} {vc : VarContext}
  {M : Machine} {be : Backend} {x y : BnodeRef}

/-- The statement is made and passes its check, and its code leaves in the destination what the
right side means, and everything else as it was. -/
def StatementAssigns (ir : IRBuilder) (c : CircularTypes) (be : Backend) (lhs rhs : Side)
    (M : Machine) : Prop :=
  ∃ code st be', be.assignmentStatement ir c lhs rhs = some (code, st, be') ∧
    (∀ n, code.RunsInOrder n) ∧ (∀ i ∈ code.insts, i.StoresAll lhs.expr.btype.type) ∧
    ∃ M', M.run code.insts = some M' ∧
      M'.memory = Memory.write M.memory (M.place lhs.expr) (M.means rhs.expr)

/-- The code of the right side, as its node is once the left one has been resolved. -/
theorem assignmentStatement_live (ir : IRBuilder) {be' : Backend} {lhs2 : BnodeRef} {k : Bnode}
    (hw : WellTyped lhs) (hl : be.IsNode ⟨lhs, x⟩) (hsame : x = y → lhs = .expr bt v vc)
    (hlhs : be.resolve ir c.toCircularTypes ⟨lhs, x⟩ VE_lvalue = some (lhs2, be'))
    (hk : be'.node y = some k) (hvc : x ≠ y → k.varContext = vc)
    (hagg : x = y → bt.type.isAggregateType) :
    assignmentStatement c.toCircularTypes lhs (.expr bt v k.varContext) =
      assignmentStatement c.toCircularTypes lhs (.expr bt v vc) := by
  by_cases hxy : x = y
  · subst hxy
    obtain rfl := hsame rfl
    exact assignmentStatement_used hw (hagg rfl) (Backend.resolve_lvalue_used hlhs hl hk)
  · rw [hvc hxy]

theorem statementAssigns_of_checkable (ir : IRBuilder)
    (h : IsAssignment c.toCircularTypes lhs (.expr bt v vc)) (ho : be.Operands [x, y])
    (hl : be.IsNode ⟨lhs, x⟩) (hr : be.IsNode ⟨.expr bt v vc, y⟩)
    (hsame : x = y → lhs = .expr bt v vc) (hagg : x = y → bt.type.isAggregateType)
    (hassigns : Assigns c.toCircularTypes lhs (.expr bt v vc) M) (hcheck : be.Checkable [x, y]) :
    StatementAssigns ir c.toCircularTypes be ⟨lhs, x⟩ ⟨.expr bt v vc, y⟩ M := by
  obtain ⟨code, hcode, hrest⟩ := hassigns
  obtain ⟨lt, d, lc, rfl⟩ : ∃ lt d lc, lhs = .expr lt d lc := by
    cases lhs with
    | expr lt d lc => exact ⟨lt, d, lc, rfl⟩
    | compositeInit => cases hcode
  obtain ⟨lhs2, be₁, k, rhs2, be₂, hlhs, hk, hvc, hrhs, hmade⟩ :=
    Backend.assignment_grows ir c.toCircularTypes ho hl hr
  rw [← assignmentStatement_live ir h.left hl hsame hlhs hk hvc hagg] at hcode
  obtain ⟨val, st, hval, hstores⟩ := store_of_assignmentStatement hcode
  have hlength : (code.stores.flatMap ir.store).length ≤ 3 := by
    rw [hstores, List.flatMap_singleton]
    exact ir.length_store st
  obtain ⟨es, be₃, new, hmake, hgrows⟩ := hmade (ir.types val.btype)
    (Backend.lastValue (be₂.emit (code.stores.flatMap ir.store)).1) _ hlength
  obtain ⟨be₄, henforce⟩ :=
    Backend.enforce_isSome hgrows.operands (hgrows.checkable.mpr hcheck)
  refine ⟨code, es, be₄, ?_, hrest⟩
  have hsrc : (Bexpression.expr bt v vc).inContext k.varContext = .expr bt v k.varContext := rfl
  simp only [Backend.assignmentStatement, hlhs, hk, hsrc, hcode, hrhs, hval, hmake, henforce,
    Option.bind_eq_bind, Option.bind_some]

/-- The check sees no more of the two sides than there is room for in its counters. -/
theorem checkable_of_statementAssigns (ir : IRBuilder) (ho : be.Operands [x, y])
    (hw : WellTyped lhs) (hl : be.IsNode ⟨lhs, x⟩) (hr : be.IsNode ⟨.expr bt v vc, y⟩)
    (hsame : x = y → lhs = .expr bt v vc)
    (h : StatementAssigns ir c.toCircularTypes be ⟨lhs, x⟩ ⟨.expr bt v vc, y⟩ M) :
    (x = y → bt.type.isAggregateType) ∧ Assigns c.toCircularTypes lhs (.expr bt v vc) M ∧
      (be.AreCounted [x, y] 13 → be.Checkable [x, y]) := by
  obtain ⟨code, es, be₄, hmake, hruns, hall, hrest⟩ := h
  obtain ⟨_, hresolve, -⟩ := Option.bind_eq_some_iff.mp hmake
  obtain ⟨lt, d, lc, rfl⟩ := Backend.exists_of_resolve hresolve
  obtain ⟨lhs2, be₁, k, rhs2, be₂, hlhs, hk, hvc, hrhs, hmade⟩ :=
    Backend.assignment_grows ir c.toCircularTypes ho hl hr
  have hsrc : (Bexpression.expr bt v vc).inContext k.varContext = .expr bt v k.varContext := rfl
  simp only [Backend.assignmentStatement, hlhs, hk, hsrc, hrhs, Option.bind_eq_bind,
    Option.bind_some, Option.bind_eq_some_iff] at hmake
  obtain ⟨code', hcode, val, hval, ⟨es', be₃⟩, hstore, be₄', henforce, hmake⟩ := hmake
  cases hmake
  have hagg : x = y → bt.type.isAggregateType := by
    rintro rfl
    cases hsame rfl
    by_contra hagg
    exact not_stores_itself hw hagg (Backend.resolve_lvalue_used hlhs hl hk) hcode hall
  refine ⟨hagg, ⟨code, ?_, hruns, hall, hrest⟩, fun hcounted => ?_⟩
  · rw [← assignmentStatement_live ir hw hl hsame hlhs hk hvc hagg]
    exact hcode
  · obtain ⟨-, st, -, hstores⟩ := store_of_assignmentStatement hcode
    have hlength : (code.stores.flatMap ir.store).length ≤ 3 := by
      rw [hstores, List.flatMap_singleton]
      exact ir.length_store st
    obtain ⟨es', be₃', new, hmake', hgrows⟩ := hmade (ir.types val.btype)
      (Backend.lastValue (be₂.emit (code.stores.flatMap ir.store)).1) _ hlength
    obtain ⟨rfl, rfl⟩ := Prod.mk.inj (Option.some.inj (hstore.symm.trans hmake'))
    exact hgrows.checkable.mp (Backend.enforce_checkable hgrows.operands
      (hgrows.counted 0 (by rwa [Nat.zero_add])) henforce)

/-- What is asked of both sides and of their nodes: the left side is a reference, the right side can
be fetched, what is copied lies where a copy promises, a node that is on both sides is that of an
aggregate, and the check finds nothing in two places but what the repair clones. -/
structure CanAssign (c : CircularTypes) (be : Backend) (lhs rhs : Side) (M : Machine) : Prop where
  reference : IsReference lhs.expr
  fetchable : Fetchable c lhs.expr.btype.type rhs.expr
  aligned : M.CopiesAligned (M.place lhs.expr) rhs.expr
  aggregate : lhs.node = rhs.node → rhs.expr.btype.type.isAggregateType
  checkable : be.Checkable [lhs.node, rhs.node]

/-- An assignment is made and leaves in the destination what its right side means if this can be
done, and in no other case unless a counter of the check comes round. -/
theorem statement_assigns_iff (ir : IRBuilder)
    (h : IsAssignment c.toCircularTypes lhs (.expr bt v vc))
    (hM : M.Before (M.place lhs) (.expr bt v vc)) (ho : be.Operands [x, y])
    (hl : be.IsNode ⟨lhs, x⟩) (hr : be.IsNode ⟨.expr bt v vc, y⟩)
    (hsame : x = y → lhs = .expr bt v vc) :
    (CanAssign c.toCircularTypes be ⟨lhs, x⟩ ⟨.expr bt v vc, y⟩ M →
      StatementAssigns ir c.toCircularTypes be ⟨lhs, x⟩ ⟨.expr bt v vc, y⟩ M) ∧
    (be.AreCounted [x, y] 13 →
      StatementAssigns ir c.toCircularTypes be ⟨lhs, x⟩ ⟨.expr bt v vc, y⟩ M →
        CanAssign c.toCircularTypes be ⟨lhs, x⟩ ⟨.expr bt v vc, y⟩ M) := by
  refine ⟨fun hcan => ?_, fun hcounted hassigns => ?_⟩
  · exact statementAssigns_of_checkable ir h ho hl hr hsame hcan.aggregate
      ((assigns_iff h hM).mpr ⟨hcan.reference, hcan.fetchable, hcan.aligned⟩) hcan.checkable
  · obtain ⟨hagg, hvalue, hcheck⟩ := checkable_of_statementAssigns ir ho h.left hl hr hsame hassigns
    obtain ⟨href, hfetch, haligned⟩ := (assigns_iff h hM).mp hvalue
    exact ⟨href, hfetch, haligned, hagg, hcheck hcounted⟩

end Statement

/-! ## Two variables -/

/-- The instructions as they are without folding. -/
def plainBuilder : IRBuilder where
  types _ := 0
  cast _ _ := ⟨false, 0, []⟩
  load _ := ⟨false, 1, []⟩
  store
    | .undef => []
    | .value .. => [⟨false, 2, []⟩]
    | .copy .. => [⟨false, 0, []⟩, ⟨false, 0, []⟩, ⟨false, 3, []⟩]
  part _ := [⟨false, 4, []⟩]
  alloca _ := ⟨true, 0, []⟩
  length_store st := by cases st <;> simp
  length_part _ := Nat.le_refl 1

/-- References to a local variable, on the left side, and to a global one and a field of it. -/
def threeReferences : List NodeOp :=
  [.make (.mkVar (.instruction 0) 0), .setVarExprPending 0 true 0,
    .make (.mkVar (.other 0) 0), .setVarExprPending 1 false 0,
    .make (.mkStructField 0 (.other 1) 1)]

theorem threeReferences_run (bt : Btype) (w : Value) : ∃ be,
    (Backend.new id [⟨true, 0, []⟩]).run threeReferences = some be ∧
      (∀ x < 3, be.Operands [0, x]) ∧ be.IsNode ⟨pairVariable, 0⟩ ∧
      be.IsNode ⟨.expr bt w { pending := true }, 1⟩ ∧
      be.IsNode ⟨.expr bt w { pending := true }, 2⟩ ∧ be.Checkable [0, 1] := by
  have hmade : ((Backend.new id [⟨true, 0, []⟩]).run threeReferences).map (fun be =>
      (be.MadeInOrder, (List.range be.allocated).all fun k =>
        (be.node k).all fun n => n.isExpr && decide (n.kids.length ≤ 2 ^ 32))) =
      some (true, true) := by decide
  have hstate : ((Backend.new id [⟨true, 0, []⟩]).run threeReferences).map (fun be =>
      (be.insts.length, be.node 0, be.node 1, be.node 2)) = some (1,
        some { Bnode.expr .var [] (some (.instruction 0)) 0 [] with
          id := 0, varContext := { pending := true, lvalue := true } },
        some { Bnode.expr .var [] (some (.other 0)) 0 [] with
          id := 1, varContext := { pending := true } },
        some { Bnode.expr .structField [1] (some (.other 1)) 0 [] with
          id := 2, varContext := { pending := true } }) := by decide
  have hmalloc : ((Backend.new id [⟨true, 0, []⟩]).run threeReferences).map (·.malloc) = some id :=
    rfl
  obtain ⟨be, hrun, hmade⟩ := Option.map_eq_some_iff.mp hmade
  rw [hrun, Option.map_some, Option.some.injEq] at hmalloc hstate
  simp only [Prod.mk.injEq] at hmade hstate
  obtain ⟨hinsts, hlocal, hglobal, hfield⟩ := hstate
  have hlive : ∀ x < 3, (be.node x).isSome := by
    intro x hx
    interval_cases x
    · rw [hlocal]; rfl
    · rw [hglobal]; rfl
    · rw [hfield]; rfl
  refine ⟨be, hrun, fun x hx => Backend.operands_of_made hrun hmalloc hmade.1 hmade.2
      (fun r hr => ?_) (List.mem_cons_self ..), ⟨_, hlocal, rfl, rfl, fun i hi => ?_⟩,
    ⟨_, hglobal, rfl, rfl, fun i hi => ?_⟩, ⟨_, hfield, rfl, rfl, fun i hi => ?_⟩,
    Backend.AreLeaves.checkable (fun r hr => ?_) (by decide)⟩
  · rcases List.mem_pair.mp hr with rfl | rfl
    · exact hlive 0 (by decide)
    · exact hlive r hx
  · cases hi
    rw [hinsts]
    exact Nat.one_pos
  · cases hi
  · cases hi
  · rcases List.mem_pair.mp hr with rfl | rfl
    · exact ⟨_, hlocal, rfl, rfl⟩
    · exact ⟨_, hglobal, rfl, rfl⟩

/-- `x = g`, where `g` is a global variable. -/
theorem pair_statement : ∃ be, (Backend.new id [⟨true, 0, []⟩]).run threeReferences = some be ∧
    StatementAssigns plainBuilder noCircularPointers.toCircularTypes be ⟨pairVariable, 0⟩
      ⟨.expr pairType (.globalVariable 0 pairType.type) { pending := true }, 1⟩ twoPlaces := by
  have hv : twoPlaces.address (.globalVariable 0 pairType.type) = 64 := Bytes.toAddress_ofAddress 64
  obtain ⟨be, hrun, ho, hl, hr, -, hcheck⟩ :=
    threeReferences_run pairType (.globalVariable 0 pairType.type)
  refine ⟨be, hrun, (statement_assigns_iff plainBuilder (isAssignment_to_pairVariable rfl)
    (before_pair hv) (ho 1 (by decide)) hl hr fun h => absurd h (by decide)).1
      ⟨⟨rfl, rfl⟩, Or.inr fun _ => rfl, fun _ _ s hs => ?_, fun _ => rfl, hcheck⟩⟩
  cases hs
  rw [hv, address_pairVariable]
  decide

/-- `struct { pair }`. -/
def pairHolder : Btype := .struct none [pairType]

/-- The field of a global variable of that type. -/
def globalField : Bexpression :=
  .expr pairType (.field (.globalVariable 0 pairHolder.type) pairHolder.type 0) { pending := true }

/-- `x = g.f`, where `f` is a struct: the address of a field of a global variable is a constant,
and not one that a variable of the type of the field can be initialized with. -/
theorem not_assigns_global_field :
    IsAssignment noCircularPointers.toCircularTypes pairVariable globalField ∧
      twoPlaces.Before (twoPlaces.place pairVariable) globalField ∧
      ∃ be, (Backend.new id [⟨true, 0, []⟩]).run threeReferences = some be ∧
        be.Operands [0, 2] ∧ be.IsNode ⟨pairVariable, 0⟩ ∧ be.IsNode ⟨globalField, 2⟩ ∧
        ¬StatementAssigns plainBuilder noCircularPointers.toCircularTypes be ⟨pairVariable, 0⟩
          ⟨globalField, 2⟩ twoPlaces := by
  have hv : twoPlaces.address (.field (.globalVariable 0 pairHolder.type) pairHolder.type 0) =
      64 := by decide
  have hassignment : IsAssignment noCircularPointers.toCircularTypes pairVariable globalField :=
    isAssignment_to_pairVariable rfl
  obtain ⟨be, hrun, ho, hl, -, hr, -⟩ := threeReferences_run pairType
    (.field (.globalVariable 0 pairHolder.type) pairHolder.type 0)
  refine ⟨hassignment, before_pair hv, be, hrun, ho 2 (by decide), hl, hr, fun hassigns => ?_⟩
  obtain ⟨-, ⟨code, hcode, -⟩, -⟩ := checkable_of_statementAssigns plainBuilder (ho 2 (by decide))
    hassignment.left hl hr (fun h => absurd h (by decide)) hassigns
  cases hcode

end Dragongo
