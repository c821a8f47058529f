import Dragongo.Comparison
import Dragongo.ExpressionCode
import Dragongo.Marshalling
import Dragongo.SharedResolution

/-!
# Conditional expressions

`conditional_expression` captures the values of its arms in one temporary, by the
initialization of it in one block and an assignment in the other, and reads it back.
-/

namespace Dragongo
open LType CastOp Varexpr_context

/-! ## What an expression means -/

/-- Where the contents of an expression are, if they are not a value: those of a constant
aggregate are in the variable that holds it. -/
def Bexpression.storage : Bexpression → Option Value
  | .expr bt v vc =>
    if vc.pending then if vc.addrLevel = 0 then some v else none
    else if bt.type.isAggregateType then some (.constantVariable v)
    else none
  | .compositeInit node bt _ => some (.temporary node bt.type)

namespace Env

/-- The contents of memory at the address that a value is. -/
def contents (env : Env) (t : LType) (a : Value) : Option Datum :=
  match env.eval a with
  | some (.pointer x) => env.load t x
  | _ => none

/-- What an expression means. -/
def means (env : Env) (e : Bexpression) : Option Datum :=
  match e.storage with
  | some a => env.contents e.btype.type a
  | none => e.value.bind env.eval

end Env

/-! ## Stores -/

/-- What `genStore` makes: nothing for a value of type void, a store, or a copy. -/
inductive Stored
  | undef
  | value (dst v : Value)
  | copy (dst src : Value) (size algn : ℕ)

/-- Both addresses of a copy are multiples of the alignment that it promises. -/
def AreAligned (algn : ℕ) (a b : BitVec 64) : Prop := algn ∣ a.toNat ∧ algn ∣ b.toNat

namespace Stored

/-- A copy is of all bytes of the type. -/
def IsWhole (t : LType) : Stored → Prop
  | copy _ _ size _ => size = t.shape.allocSize
  | _ => True

/-- What a copy promises is true of the addresses in a state. -/
def IsAligned (env : Env) : Stored → Prop
  | copy dst src _ algn => ∀ a x, env.eval dst = some (.pointer a) →
    env.eval src = some (.pointer x) → AreAligned algn a x
  | _ => True

/-- A state before the store and one after it, where nothing has been loaded from its
destination yet. -/
def Effect (env env' : Env) : Stored → Prop
  | undef => True
  | value dst v => env'.Unread dst ∧
    ∃ a, env'.eval dst = some (.pointer a) ∧ env'.load v.type a = env.eval v
  | copy dst src size _ => env'.Unread dst ∧ ∃ a x, env'.eval dst = some (.pointer a) ∧
    env.eval src = some (.pointer x) ∧ ∀ i < size, env'.byte a i = env.byte x i

end Stored

section Store

variable (c : CircularTypes)

/-- `genStore` of an expression that has been resolved before, into a variable. -/
def storeInto (dst : Value) (srcExpr : Bexpression) : Option Stored := do
  let r ← resolve c srcExpr srcExpr.varContextDisp
  let srcType := srcExpr.btype.type
  let dstType := dst.type.pointeeType
  if r.value.type = void then some .undef
  else if srcType.isAggregateType then do
    let src ← spillConstant r.value srcExpr.btype
    let sz ← srcType.allocSize
    if src.type.isPointerTy then some (.copy dst src sz srcType.prefAlign) else none
  else
    let v := if r.value.type.isPointerTy then convertForAssignment c srcType r.value dstType
      else r.value
    if v.type = dstType then some (.value dst v) else none

end Store

/-! ## Operands -/

/-- An expression with the tree that computes it. -/
structure Operand where
  expr : Bexpression
  tree : BnodeTree

/-- A node with one new instruction on top of a tree. -/
def withInst (tree : BnodeTree) (i : InstRef) : BnodeTree :=
  .expr [tree] (some (.instruction i)) [i]

/-- A load that is redirected to another pointer type needs a cast of the address. -/
def castsAddress (c : CircularTypes) (bt : Btype) (v : Value) (vc : VarContext) : Bool :=
  match c.loadConversion bt with
  | none => false
  | some t => decide ((circularSpace bt v vc t).type ≠ v.type) && !v.isConstant

/-- The instruction that the cast is, from number `n` on, unless the builder folds it. -/
def castInsts (c : CircularTypes) (bt : Btype) (v : Value) (vc : VarContext) (n : InstRef) :
    List InstRef :=
  if castsAddress c bt v vc then [n] else []

/-- The value of the cast; one to the type that is there gives the value back. -/
def castValue (c : CircularTypes) (bt : Btype) (v : Value) (vc : VarContext) (t : Btype)
    (value : Option NodeValue) (n : InstRef) : NodeValue :=
  if castsAddress c bt v vc then .instruction n
  else if (circularSpace bt v vc t).type = v.type then value.getD (.other n)
  else .other n

/-- The address that a load goes through. -/
def castTree (c : CircularTypes) (bt : Btype) (v : Value) (vc : VarContext) (tree : BnodeTree)
    (n : InstRef) : BnodeTree :=
  match c.loadConversion bt with
  | none => tree
  | some t =>
    if ptr t.type = v.type then tree
    else .expr [tree] (some (castValue c bt v vc t tree.value n)) (castInsts c bt v vc n)

/-- `resolve` in an rvalue context, with the instructions that are made for it, from number `n`
on.  The stores that build a composite are left out. -/
def resolveOperand (c : CircularTypes) (o : Operand) (n : InstRef) :
    Option (Operand × List InstRef) := do
  let r ← resolve c o.expr VE_rvalue
  match o.expr with
  | .expr bt v vc =>
    if vc.pending ∧ handsOutAddress vc VE_rvalue = false then
      let casts := castInsts c bt v vc n
      let i := n + casts.length
      some (⟨r.toExpr, withInst (castTree c bt v vc o.tree n) i⟩, casts ++ [i])
    else some (⟨r.toExpr, o.tree⟩, [])
  | .compositeInit .. => some (⟨r.toExpr, o.tree⟩, [])

/-! ## The conditional -/

/-- The value that is branched on, with its meaning, the tree that computes it, and the
instructions that were made for it. -/
structure Test where
  cval : NodeValue
  value : Value
  tree : BnodeTree
  insts : List InstRef

/-- The conversion of a condition to a bit by `if_statement`; a constant is folded. -/
def convertCondition (cond : Operand) (n : InstRef) : Option Test := do
  let conv ← convertExpression (.aux (int 1)) false cond.expr
  let v ← cond.expr.value
  let w ← conv.value
  if v.type = int 1 then
    let cval ← cond.tree.value
    some ⟨cval, w, cond.tree, []⟩
  else if w.isConstant then some ⟨.other n, w, .expr [cond.tree] (some (.other n)) [], []⟩
  else some ⟨.instruction n, w, withInst cond.tree n, [n]⟩

/-- The variable that the arms are captured in, with its alloca. -/
structure Temporary where
  btype : Btype
  id : InstRef

namespace Temporary

def value (t : Temporary) : Value := .alloca t.id t.btype.type

def tree (t : Temporary) : BnodeTree := .expr [] (some (.instruction t.id)) []

end Temporary

/-- The statement of an arm, with the instructions that were made for it, and the store that
captures its value. -/
structure Arm where
  stmt : BnodeTree
  insts : List InstRef
  stored : Option Stored

/-- The node of an assignment to the temporary. -/
def assignTree (temp : Temporary) (src : BnodeTree) (n : InstRef) : Stored → BnodeTree
  | .undef => .expr [temp.tree, src] (some (.other n)) []
  | _ => .expr [temp.tree, src] (some (.instruction n)) [n]

def assignInsts (n : InstRef) : Stored → List InstRef
  | .undef => []
  | _ => [n]

/-- The statement of an arm: `init_statement` of the temporary or an assignment to it, or the
expression alone if there is nothing to capture. -/
def captureArm (c : CircularTypes) (temp : Option Temporary) (arm : Operand)
    (insts : List InstRef) (n : InstRef) : Option Arm :=
  match temp with
  | none => some ⟨.exprStmt arm.tree, insts, none⟩
  | some t =>
    if arm.expr.btype = voidType then some ⟨.exprStmt arm.tree, insts, none⟩
    else do
      guard (arm.expr.btype = t.btype)
      let st ← storeInto c t.value arm.expr
      some ⟨.exprStmt (assignTree t arm.tree n st), insts ++ assignInsts n st, some st⟩

/-- The type of the temporary: that of the first arm that is not void. -/
def capturedType (btype : Option Btype) (thenType : Btype) (elseType : Option Btype) :
    Option Btype :=
  if btype = none then none
  else if thenType ≠ voidType then some thenType
  else elseType.filter (· ≠ voidType)

/-- The result, which has no LLVM value if it is void, and what it was made from. -/
structure Conditional where
  tree : BnodeTree
  expr : Option Bexpression
  test : Test
  thenArm : Arm
  elseArm : Option Arm

/-- The if statement, and after it a reference to the temporary. -/
def compound (temp : Option Temporary) (test : Test) (thenArm : Arm) (elseArm : Option Arm) :
    Conditional :=
  let ifStmt := BnodeTree.ifStmt test.tree (.block [] [thenArm.stmt])
    (.block [] (elseArm.map Arm.stmt).toList)
  match temp with
  | none => ⟨.expr [ifStmt, .expr [] none []] none [], none, test, thenArm, elseArm⟩
  | some t =>
    ⟨.expr [ifStmt, t.tree] (some (.instruction t.id)) [],
      some (.expr t.btype t.value { pending := true }), test, thenArm, elseArm⟩

/-- `conditional_expression`; without a type, or an else arm, nothing is captured from it. -/
def conditionalExpression (c : CircularTypes) (btype : Option Btype)
    (condition thenExpr : Operand) (elseExpr : Option Operand) (n : InstRef) :
    Option Conditional := do
  let (cond, condInsts) ← resolveOperand c condition n
  let (thn, thenInsts) ← resolveOperand c thenExpr (n + 2)
  let els ← match elseExpr with
    | none => some none
    | some e => (resolveOperand c e (n + 4)).map some
  let temp := (capturedType btype thn.expr.btype (els.map fun e => e.1.expr.btype)).map
    fun bt => Temporary.mk bt (n + 6)
  let thenArm ← captureArm c temp thn thenInsts (n + 7)
  let elseArm ← match els with
    | none => some none
    | some (e, insts) => (captureArm c temp e insts (n + 8)).map some
  let test ← convertCondition cond (n + 9)
  some (compound temp { test with insts := condInsts ++ test.insts } thenArm elseArm)

/-! ## Choosing an arm -/

/-- Nothing has been loaded through the address that an expression is, if it is one. -/
def Env.UnreadIn (env : Env) : Bexpression → Prop
  | .expr _ v _ => env.Unread v
  | .compositeInit .. => True

/-- The bit that is branched on is that of the condition. -/
def Test.Tests (test : Test) (cond : Bexpression) : Prop :=
  ∀ (env : Env) (x : BitVec 8), env.UnreadIn cond → env.means cond = some (.int 8 x) →
    env.eval test.value = some (.int 1 (x.setWidth 1))

/-- A result resolved in either context is the value, or the address of memory that holds it. -/
structure Denotation (c : CircularTypes) (result : Bexpression) (env : Env) (d : Datum) : Prop where
  rvalue : ∃ r, resolve c result VE_rvalue = some r ∧ env.eval r.value = some d
  lvalue : ∃ r a, resolve c result VE_lvalue = some r ∧ env.eval r.value = some (.pointer a) ∧
    env.load result.btype.type a = some d

/-- After its store, which is defined before it, the result denotes what the arm means there. -/
def Arm.Gives (c : CircularTypes) (env : Env) (arm : Arm) (e result : Bexpression) : Prop :=
  ∃ st, arm.stored = some st ∧ st.IsWhole e.btype.type ∧ st.IsAligned env ∧
    ∀ env' d, env.UnreadIn e → st.Effect env env' → env.means e = some d →
      Denotation c result env' d

/-- Wherever the code is put, the condition is evaluated, then one of the arms.  What is branched
on, here and in the operands, must not be a call that an invoke takes the place of. -/
def Conditional.Runs (r : Conditional) (cond thn els : BnodeTree) (elseArm : Arm) : Prop :=
  ∀ kept fn (s : GenBlocks) (b : BlockRef) is, s.blocks[(b : ℕ)]? = some is →
    s.getTerminator b = false → (∀ v ∈ r.tree.tests, GenBlocks.Lasts fn s v) →
      ∃ s' b', GenBlocks.walkWith kept fn s (some b) r.tree = some (some b', s') ∧
        ∀ truth, GenBlocks.Lowers truth s b (cond.execute truth ++ r.test.insts ++
          if truth r.test.cval then thn.execute truth ++ r.thenArm.insts
          else els.execute truth ++ elseArm.insts) s' b'

/-- A conditional of two arms is built, with instructions of its own from number `n` on, and
its value is that of the arm that the condition chooses.  `env` is a state before the store of an
arm. -/
def ChoosesArm (c : CircularTypes) (env : Env) (btype : Btype) (cond thn els : Operand)
    (n : InstRef) : Prop :=
  ∃ r elseArm result, conditionalExpression c (some btype) cond thn (some els) n = some r ∧
    r.elseArm = some elseArm ∧ r.expr = some result ∧
    r.test.Tests cond.expr ∧ r.Runs cond.tree thn.tree els.tree elseArm ∧
    r.thenArm.Gives c env thn.expr result ∧ elseArm.Gives c env els.expr result ∧
    (r.test.insts ++ r.thenArm.insts ++ elseArm.insts).Nodup ∧
    ∀ i ∈ r.test.insts ++ r.thenArm.insts ++ elseArm.insts, n ≤ i

/-- An operand of a backend type, whose code control does not leave. -/
structure Operand.HasType (o : Operand) (bt : Btype) : Prop where
  btype : o.expr.btype = bt
  wellTyped : WellTyped o.expr
  isCode : o.tree.isCode

section Conditions

variable (c : CircularTypes)

/-- A reference to a variable is to be loaded from. -/
def IsRvalue : Bexpression → Prop
  | .expr _ _ vc => vc.pending → vc.addrLevel = 0 → ¬vc.lvalue
  | .compositeInit .. => True

/-- The value of the expression can be captured.  An aggregate must be a constant, or a
reference that is not to be loaded from; a scalar must be loaded as a type that is its own. -/
def Capturable : Bexpression → Prop
  | .expr bt v vc =>
    if bt.type.isAggregateType then
      (vc.pending → vc.lvalue) ∧ Addressable v vc
    else
      vc.pending → vc.addrLevel = 0 →
        ¬vc.lvalue ∧ ∀ t, c.loadConversion bt = some t → t.type = bt.type
  | .compositeInit .. => False

/-- An aggregate that is captured, and the variable with the number `id` that it is captured in,
lie where a copy of the type promises that they do. -/
def CapturesAligned (env : Env) (id : InstRef) (e : Bexpression) : Prop :=
  e.btype.type.isAggregateType → ∀ s a x, e.storage = some s →
    env.eval (.alloca id e.btype.type) = some (.pointer a) → env.eval s = some (.pointer x) →
      AreAligned e.btype.type.prefAlign a x

/-- The expression is loaded, and as a type that is another one for the backend. -/
def IsRedirected : Bexpression → Prop
  | .expr bt _ vc =>
    vc.pending ∧ vc.addrLevel = 0 ∧ ¬vc.lvalue ∧ ∃ t, c.loadConversion bt = some t ∧ t ≠ bt
  | .compositeInit .. => False

end Conditions

/-! ## Resolving an operand -/

/-- The expression that an operand is resolved to. -/
def resolvedExpr (c : CircularTypes) (bt : Btype) (v : Value) (vc : VarContext) : Bexpression :=
  if vc.pending ∧ handsOutAddress vc VE_rvalue = false then (loadFromExpr c bt v vc bt).toExpr
  else .expr bt v {}

section Resolve

variable {c : CircularPointerTypes} {bt : Btype} {v : Value} {vc : VarContext}

theorem isResolvable_of_wellTyped (hw : WellTyped (.expr bt v vc)) (hp : vc.pending) :
    vc.IsResolvable bt := by
  rw [WellTyped, if_pos hp] at hw
  exact hw.imp And.left fun h => ⟨h.1, h.2.2⟩

/-- Whatever is loaded from is the address of a variable. -/
theorem loads_iff (hw : WellTyped (.expr bt v vc)) :
    vc.pending ∧ handsOutAddress vc VE_rvalue = false ↔
      vc.pending ∧ vc.addrLevel = 0 ∧ ¬vc.lvalue := by
  refine and_congr_right fun hp => ?_
  have hr := isResolvable_of_wellTyped hw hp
  rcases hr with h0 | ⟨h1, -⟩
  · simp [handsOutAddress, h0]
  · simp [handsOutAddress, h1]

theorem withInst_isCode {tree : BnodeTree} (h : tree.isCode) (i : InstRef) :
    (withInst tree i).isCode := by
  simp [withInst, BnodeTree.isCode, BnodeTree.areCode, h]

theorem execute_withInst (truth : NodeValue → Bool) (tree : BnodeTree) (i : InstRef) :
    (withInst tree i).execute truth = tree.execute truth ++ [i] := by
  simp [withInst, BnodeTree.execute, BnodeTree.executeAll]

theorem castInsts_eq_nil {c : CircularTypes} {n : InstRef}
    (h : ∀ t, c.loadConversion bt = some t → ptr t.type = v.type) : castInsts c bt v vc n = [] := by
  refine if_neg ?_
  unfold castsAddress
  cases hconv : c.loadConversion bt with
  | none => exact Bool.false_ne_true
  | some t =>
    have hspace : circularSpace bt v vc t = v := by
      rw [circularSpace]
      exact if_pos (h t hconv)
    simp [hspace]

theorem castTree_isCode {c : CircularTypes} {tree : BnodeTree} (h : tree.isCode) (n : InstRef) :
    (castTree c bt v vc tree n).isCode := by
  unfold castTree
  split
  · exact h
  · split_ifs
    · exact h
    · simp [BnodeTree.isCode, BnodeTree.areCode, h]

theorem execute_castTree {c : CircularTypes} (truth : NodeValue → Bool) (tree : BnodeTree)
    (n : InstRef) : (castTree c bt v vc tree n).execute truth =
      tree.execute truth ++ castInsts c bt v vc n := by
  unfold castTree
  split
  · next hconv =>
    have hnone : castInsts c bt v vc n = [] := castInsts_eq_nil fun t ht => by
      rw [hconv] at ht
      cases ht
    rw [hnone, List.append_nil]
  · next t hconv =>
    split_ifs with hsame
    · have hnone : castInsts c bt v vc n = [] := castInsts_eq_nil fun t' ht => by
        rw [hconv] at ht
        exact Option.some.inj ht ▸ hsame
      rw [hnone, List.append_nil]
    · simp [BnodeTree.execute, BnodeTree.executeAll]

/-- An operand is resolved by at most two more instructions. -/
theorem resolveOperand_spec (hw : WellTyped (.expr bt v vc)) {tree : BnodeTree}
    (hcode : tree.isCode) (n : InstRef) : ∃ o insts,
      resolveOperand c.toCircularTypes ⟨.expr bt v vc, tree⟩ n = some (o, insts) ∧
      o.expr = resolvedExpr c.toCircularTypes bt v vc ∧ o.tree.isCode ∧
      (∀ truth, o.tree.execute truth = tree.execute truth ++ insts) ∧
      insts.Sublist [n, n + 1] := by
  by_cases hl : vc.pending ∧ handsOutAddress vc VE_rvalue = false
  · have hres : resolve c.toCircularTypes (.expr bt v vc) VE_rvalue =
        some (loadFromExpr c.toCircularTypes bt v vc bt) := by
      rw [resolve]
      exact resolveVarContext_of_load hl.1 (isResolvable_of_wellTyped hw hl.1) hl.2
    refine ⟨⟨(loadFromExpr c.toCircularTypes bt v vc bt).toExpr,
      withInst (castTree c.toCircularTypes bt v vc tree n)
        (n + (castInsts c.toCircularTypes bt v vc n).length)⟩,
      castInsts c.toCircularTypes bt v vc n ++ [n + (castInsts c.toCircularTypes bt v vc n).length],
      ?_, ?_,
      withInst_isCode (castTree_isCode hcode n) _, fun truth => ?_, ?_⟩
    · simp only [resolveOperand, hres, Option.bind_eq_bind, Option.bind_some]
      rw [if_pos hl]
    · rw [resolvedExpr, if_pos hl]
    · rw [execute_withInst, execute_castTree, List.append_assoc]
    · unfold castInsts
      split_ifs
      · exact List.Sublist.refl _
      · exact List.singleton_sublist.mpr List.mem_cons_self
  · have hres : resolve c.toCircularTypes (.expr bt v vc) VE_rvalue = some ⟨bt, v, []⟩ := by
      rw [resolve]
      by_cases hp : vc.pending
      · refine resolveVarContext_of_handsOut hp (isResolvable_of_wellTyped hw hp) ?_
        simpa [hp] using hl
      · rw [resolveVarContext, if_neg hp]
    refine ⟨⟨.expr bt v {}, tree⟩, _, ?_, ?_, hcode, fun truth => (List.append_nil _).symm,
      List.nil_sublist _⟩
    · simp only [resolveOperand, hres, Option.bind_eq_bind, Option.bind_some]
      rw [if_neg hl]
      rfl
    · rw [resolvedExpr, if_neg hl]

end Resolve

/-! ## Capturing a value -/

section Capture

variable {c : CircularPointerTypes} {bt : Btype} {v dst : Value} {vc : VarContext} {st : Stored}
  {env env' : Env} {d : Datum}

theorem storeInto_scalar (hagg : ¬bt.type.isAggregateType) (hv : v.type ≠ void)
    (hdst : dst.type = ptr bt.type) : storeInto c.toCircularTypes dst (.expr bt v {}) =
      if v.type = bt.type then some (.value dst v) else none := by
  have hconv : convertForAssignment c.toCircularTypes bt.type v bt.type = v := if_pos rfl
  simp [storeInto, resolve, resolveVarContext, Bexpression.btype, hagg, hv, hdst, pointeeType,
    hconv]

theorem storeInto_aggregate (hagg : bt.type.isAggregateType) (hv : v.type ≠ void)
    (hplain : bt.type.isPlain) : storeInto c.toCircularTypes dst (.expr bt v {}) =
      (spillConstant v bt).bind fun src => if src.type.isPointerTy then
        some (.copy dst src bt.type.shape.allocSize bt.type.prefAlign) else none := by
  simp [storeInto, resolve, resolveVarContext, Bexpression.btype, hagg, hv,
    allocSize_of_isPlain hplain]

/-- An aggregate that has been loaded is no address to copy from. -/
theorem storeInto_load (hagg : bt.type.isAggregateType) (hplain : bt.type.isPlain)
    (hv : v.type = ptr bt.type) :
    storeInto c.toCircularTypes dst (.expr bt (.load v) {}) = none := by
  have htype : (Value.load v).type = bt.type := by
    rw [Value.type, hv]
    rfl
  rw [storeInto_aggregate hagg (htype ▸ isPlain_ne_void hplain) hplain]
  simp [spillConstant, Value.isConstant, htype, not_isPointerTy_of_isAggregateType _ hagg]

theorem loadConversion_aggregate (hagg : bt.type.isAggregateType) : c.loadConversion bt = none := by
  cases h : c.loadConversion bt with
  | none => rfl
  | some t =>
    exact absurd (c.isPointerTy_of_loadConversion h) (not_isPointerTy_of_isAggregateType _ hagg)

theorem loadFromExpr_of_none (h : c.loadConversion bt = none) :
    (loadFromExpr c.toCircularTypes bt v vc bt).toExpr = .expr bt (.load v) {} := by
  rw [loadFromExpr, h]
  rfl

theorem loadFromExpr_of_some {t : Btype} (h : c.loadConversion bt = some t) :
    (loadFromExpr c.toCircularTypes bt v vc bt).toExpr =
      .expr t (.load (circularSpace bt v vc t)) {} := by
  rw [loadFromExpr, h]
  rfl

/-- The address that a redirected load goes through has the type for it, or is a pointer to
that. -/
theorem circularSpace_type (hp : vc.pending) (hv : v.type = ptr bt.type) (t : Btype) :
    (circularSpace bt v vc t).type = ptr (if t.type = bt.type then t.type else ptr t.type) := by
  unfold circularSpace
  by_cases ht : t.type = bt.type
  · simp [ht, hv]
  · simp [ht, hv, hp, Value.type]

/-! ## Which values can be captured -/

theorem reference_type (hw : WellTyped (.expr bt v vc)) (hp : vc.pending) (h0 : vc.addrLevel = 0) :
    v.type = ptr bt.type := by
  rw [WellTyped, if_pos hp, h0] at hw
  simpa using hw

theorem value_type (hw : WellTyped (.expr bt v vc)) (h : vc.pending → vc.addrLevel ≠ 0) :
    v.type = bt.type := by
  rw [WellTyped] at hw
  by_cases hp : vc.pending
  · rw [if_pos hp] at hw
    exact (hw.resolve_left fun h0 => h hp h0.1).2.1
  · rwa [if_neg hp] at hw

theorem pending_aggregate (hw : WellTyped (.expr bt v vc)) (hagg : bt.type.isAggregateType)
    (hp : vc.pending) : vc.addrLevel = 0 := by
  have hvalue := aggregate_value hw hagg
  rw [if_pos hp] at hvalue
  exact hvalue.1

theorem aggregate_value_ne_void (hw : WellTyped (.expr bt v vc)) (hplain : bt.type.isPlain) :
    v.type ≠ void := by
  by_cases h0 : vc.pending ∧ vc.addrLevel = 0
  · rw [reference_type hw h0.1 h0.2]
    exact LType.noConfusion
  · rw [value_type hw fun hp h => h0 ⟨hp, h⟩]
    exact isPlain_ne_void hplain

/-- A constant is copied from its variable, and what has an address from there. -/
theorem spillConstant_eq (hw : WellTyped (.expr bt v vc)) (hagg : bt.type.isAggregateType)
    {src : Value} (hsrc : spillConstant v bt = some src) (hptr : src.type.isPointerTy) :
    src = if vc.pending then v else .constantVariable v := by
  have hne : ∀ {t}, v.type = ptr t → v.type ≠ bt.type := by
    intro t hv htype
    rw [← htype, hv] at hagg
    exact Bool.false_ne_true hagg
  have haddr : Addressable v vc := (spillConstant_iff hw hagg).mp ⟨src, hsrc, hptr⟩
  unfold spillConstant genVarForConstant at hsrc
  by_cases hp : vc.pending
  · have hv := hne (reference_type hw hp (pending_aggregate hw hagg hp))
    rw [if_pos hp]
    split_ifs at hsrc <;> cases hsrc <;> rfl
  · have hv := value_type hw fun h => absurd h hp
    have hconst : v.isConstant := by simpa [Addressable, hp] using haddr
    have hmod : ¬v.isModuleVar := by
      intro hmod
      cases v <;> first | exact hne rfl hv | cases hmod
    rw [if_neg hp]
    rw [if_pos hconst, if_neg hmod, if_pos hv] at hsrc
    exact (Option.some.inj hsrc).symm

/-- Without a load it is the constant, or the address, that is copied from. -/
theorem capture_aggregate (hw : WellTyped (.expr bt v vc)) (hplain : bt.type.isPlain)
    (hagg : bt.type.isAggregateType) (hc : Capturable c.toCircularTypes (.expr bt v vc)) :
    ∃ src, storeInto c.toCircularTypes dst (resolvedExpr c.toCircularTypes bt v vc) =
        some (.copy dst src bt.type.shape.allocSize bt.type.prefAlign) ∧
      (Bexpression.expr bt v vc).storage = some src ∧
        ∀ env : Env, env.means (.expr bt v vc) = env.contents bt.type src := by
  rw [Capturable, if_pos hagg] at hc
  obtain ⟨hlv, haddr⟩ := hc
  have hl : ¬(vc.pending ∧ handsOutAddress vc VE_rvalue = false) :=
    fun hl => ((loads_iff hw).mp hl).2.2 (hlv hl.1)
  obtain ⟨src, hsrc, hptr⟩ := (spillConstant_iff hw hagg).mpr haddr
  have hstorage : (Bexpression.expr bt v vc).storage = some src := by
    rw [spillConstant_eq hw hagg hsrc hptr, Bexpression.storage]
    by_cases hp : vc.pending
    · rw [if_pos hp, if_pos hp, if_pos (pending_aggregate hw hagg hp)]
    · rw [if_neg hp, if_neg hp, if_pos hagg]
  refine ⟨src, ?_, hstorage, fun env => ?_⟩
  · rw [resolvedExpr, if_neg hl,
      storeInto_aggregate hagg (aggregate_value_ne_void hw hplain) hplain, hsrc,
      Option.bind_some, if_pos hptr]
  · rw [Env.means, hstorage]
    rfl

theorem capturable_of_aggregate (hw : WellTyped (.expr bt v vc)) (hplain : bt.type.isPlain)
    (hagg : bt.type.isAggregateType)
    (hst : storeInto c.toCircularTypes dst (resolvedExpr c.toCircularTypes bt v vc) = some st) :
    Capturable c.toCircularTypes (.expr bt v vc) := by
  rw [Capturable, if_pos hagg]
  by_cases hl : vc.pending ∧ handsOutAddress vc VE_rvalue = false
  · obtain ⟨hp, h0, -⟩ := (loads_iff hw).mp hl
    rw [resolvedExpr, if_pos hl, loadFromExpr_of_none (loadConversion_aggregate hagg),
      storeInto_load hagg hplain (reference_type hw hp h0)] at hst
    cases hst
  · rw [resolvedExpr, if_neg hl,
      storeInto_aggregate hagg (aggregate_value_ne_void hw hplain) hplain] at hst
    obtain ⟨a, ha, hst⟩ := Option.bind_eq_some_iff.mp hst
    split_ifs at hst with hptr
    cases hst
    refine ⟨fun hp => ?_, (spillConstant_iff hw hagg).mp ⟨a, ha, hptr⟩⟩
    by_contra hlv
    exact hl ((loads_iff hw).mpr ⟨hp, pending_aggregate hw hagg hp, hlv⟩)

/-- A load that is redirected, but not to another LLVM type, is one through the reference. -/
theorem resolvedExpr_of_loads (hw : WellTyped (.expr bt v vc)) (hp : vc.pending)
    (h0 : vc.addrLevel = 0) (hlv : ¬vc.lvalue)
    (hconv : ∀ t, c.loadConversion bt = some t → t.type = bt.type) :
    resolvedExpr c.toCircularTypes bt v vc =
      .expr ((c.loadConversion bt).getD bt) (.load v) {} := by
  rw [resolvedExpr, if_pos ((loads_iff hw).mpr ⟨hp, h0, hlv⟩)]
  cases h : c.loadConversion bt with
  | none => exact loadFromExpr_of_none h
  | some t =>
    have hspace : circularSpace bt v vc t = v := by
      rw [circularSpace, hconv t h]
      exact if_pos (reference_type hw hp h0).symm
    rw [loadFromExpr_of_some h, hspace, Option.getD_some]

/-- A scalar that can be captured is resolved to a value of its type. -/
theorem resolved_scalar (hw : WellTyped (.expr bt v vc)) (hagg : ¬bt.type.isAggregateType)
    (hc : Capturable c.toCircularTypes (.expr bt v vc)) :
    ∃ R w, resolvedExpr c.toCircularTypes bt v vc = .expr R w {} ∧ R.type = bt.type ∧
      w.type = bt.type ∧ ∀ env : Env, env.Unread v → ∀ d, env.means (.expr bt v vc) = some d →
        env.eval w = some d := by
  rw [Capturable, if_neg hagg] at hc
  by_cases h0 : vc.pending ∧ vc.addrLevel = 0
  · obtain ⟨hlv, hconv⟩ := hc h0.1 h0.2
    have hv := reference_type hw h0.1 h0.2
    have htype : (Value.load v).type = bt.type := by
      rw [Value.type, hv]
      rfl
    have hbt : ((c.loadConversion bt).getD bt).type = bt.type := by
      cases h : c.loadConversion bt with
      | none => rfl
      | some t => exact hconv t h
    refine ⟨_, _, resolvedExpr_of_loads hw h0.1 h0.2 hlv hconv, hbt, htype, fun env hun d hd => ?_⟩
    simp only [Env.means, Bexpression.storage, if_pos h0.1, if_pos h0.2, Env.contents] at hd
    split at hd
    · rename_i x hx
      rw [Env.eval_load hx hun.load, ← hd, hv]
      rfl
    · cases hd
  · have hl : ¬(vc.pending ∧ handsOutAddress vc VE_rvalue = false) := by
      intro hl
      obtain ⟨hp, h, -⟩ := (loads_iff hw).mp hl
      exact h0 ⟨hp, h⟩
    refine ⟨bt, v, if_neg hl, rfl, value_type hw fun hp h => h0 ⟨hp, h⟩, fun env _ d hd => ?_⟩
    have hstorage : (Bexpression.expr bt v vc).storage = none := by
      rw [Bexpression.storage]
      split_ifs with hp h
      · exact absurd ⟨hp, h⟩ h0
      · rfl
      · rfl
    rw [Env.means, hstorage] at hd
    exact hd

theorem capturable_of_scalar (hw : WellTyped (.expr bt v vc)) (hagg : ¬bt.type.isAggregateType)
    (hdst : dst.type = ptr (resolvedExpr c.toCircularTypes bt v vc).btype.type)
    (hst : storeInto c.toCircularTypes dst (resolvedExpr c.toCircularTypes bt v vc) = some st) :
    Capturable c.toCircularTypes (.expr bt v vc) := by
  rw [Capturable, if_neg hagg]
  intro hp h0
  have hv := reference_type hw hp h0
  by_cases hl : vc.pending ∧ handsOutAddress vc VE_rvalue = false
  · refine ⟨((loads_iff hw).mp hl).2.2, fun t hconv => ?_⟩
    by_contra ht
    have htype : (Value.load (circularSpace bt v vc t)).type = ptr t.type := by
      rw [Value.type, circularSpace_type hp hv, if_neg ht]
      rfl
    have htagg : ¬t.type.isAggregateType := fun h =>
      not_isPointerTy_of_isAggregateType _ h (c.isPointerTy hconv)
    rw [resolvedExpr, if_pos hl, loadFromExpr_of_some hconv] at hdst hst
    rw [storeInto_scalar htagg (by rw [htype]; exact LType.noConfusion) hdst, htype,
      if_neg (ptr_ne _)] at hst
    cases hst
  · -- the address is handed out, and is no value of the type
    rw [resolvedExpr, if_neg hl] at hdst hst
    rw [storeInto_scalar hagg (by rw [hv]; exact LType.noConfusion) hdst, hv,
      if_neg (ptr_ne _)] at hst
    cases hst

/-- A composite is built in a temporary, and loaded from it. -/
theorem resolveOperand_composite {node : ℕ} {elems : List Bexpression} {tree : BnodeTree}
    {n : InstRef} {o : Operand} {insts : List InstRef} (hagg : bt.type.isAggregateType)
    (h : resolveOperand c.toCircularTypes ⟨.compositeInit node bt elems, tree⟩ n =
      some (o, insts)) :
    o.expr = .expr bt (.load (.temporary node bt.type)) {} := by
  obtain ⟨r, hr, h⟩ := Option.bind_eq_some_iff.mp h
  have hr' : r.toExpr = .expr bt (.load (.temporary node bt.type)) {} := by
    simp only [resolve] at hr
    split_ifs at hr
    obtain ⟨accs, -, hr⟩ := Option.bind_eq_some_iff.mp hr
    obtain ⟨r', hr', hr⟩ := Option.bind_eq_some_iff.mp hr
    rw [resolveVarContext_of_load rfl (Or.inl rfl) rfl] at hr'
    cases hr'
    cases hr
    exact loadFromExpr_of_none (loadConversion_aggregate hagg)
  cases h
  exact hr'

/-- What is stored could be captured. -/
theorem capturable_of_storeInto {o o' : Operand} {n : InstRef} {insts : List InstRef}
    (hw : WellTyped o.expr) (hplain : o.expr.btype.type.isPlain) (hcode : o.tree.isCode)
    (h : resolveOperand c.toCircularTypes o n = some (o', insts))
    (hdst : dst.type = ptr o'.expr.btype.type)
    (hst : storeInto c.toCircularTypes dst o'.expr = some st) :
    Capturable c.toCircularTypes o.expr := by
  obtain ⟨e, tree⟩ := o
  cases e with
  | expr bt v vc =>
    obtain ⟨o'', insts', h', hexpr, -⟩ := @resolveOperand_spec c bt v vc hw tree hcode n
    cases h'.symm.trans h
    rw [hexpr] at hdst hst
    by_cases hagg : bt.type.isAggregateType
    · exact capturable_of_aggregate hw hplain hagg hst
    · exact capturable_of_scalar hw hagg hdst hst
  | compositeInit node bt elems =>
    rw [WellTyped] at hw
    rw [resolveOperand_composite hw.1 h, storeInto_load hw.1 hplain rfl] at hst
    cases hst

end Capture

/-! ## Reading the temporary -/

section Result

variable {c : CircularPointerTypes} {bt : Btype} {v : Value} {vc : VarContext} {t : Temporary}
  {env env' : Env} {a : BitVec 64} {d : Datum}

theorem denotation_of_temporary (hun : env.Unread t.value)
    (ha : env.eval t.value = some (.pointer a)) (hd : env.load t.btype.type a = some d) :
    Denotation c.toCircularTypes (.expr t.btype t.value { pending := true }) env d := by
  refine ⟨⟨_, resolveVarContext_of_load rfl (Or.inl rfl) rfl, ?_⟩,
    ⟨_, a, resolveVarContext_of_handsOut rfl (Or.inl rfl) rfl, ha, hd⟩⟩
  unfold loadFromExpr
  cases hconv : c.loadConversion t.btype with
  | none =>
    rw [← hd]
    exact Env.eval_load ha hun.load
  | some t' =>
    change env.eval (.load (circularSpace t.btype t.value { pending := true } t')) = some d
    rw [← hd]
    by_cases ht : t'.type = t.btype.type
    · have hspace : circularSpace t.btype t.value { pending := true } t' = t.value := by
        rw [circularSpace, ht]
        exact if_pos rfl
      rw [hspace]
      exact Env.eval_load ha hun.load
    · -- an address is loaded as one of another type
      have hspace : circularSpace t.btype t.value { pending := true } t' =
          .bitcast t.value (ptr (ptr t'.type)) := by
        simp [circularSpace, Temporary.value, Value.type, ht]
      have hptr := c.isPointerTy_of_loadConversion hconv
      have hload : env.load t.btype.type a = env.load (ptr t'.type) a := by
        cases h : t.btype.type with
        | ptr _ => rfl
        | _ =>
          rw [h] at hptr
          cases hptr
      rw [hspace, hload]
      exact Env.eval_load (Env.eval_bitcast ha _) (hun.load_bitcast _)

theorem Env.load_aggregate {env : Env} {t : LType} (h : t.isAggregateType) (a : BitVec 64) :
    env.load t a = t.allocSize.map fun k => .bytes ((List.range k).map (env.byte a)) := by
  cases t with
  | int | ptr | float | double | fp128 => cases h
  | _ => rfl

/-- All bytes of an aggregate have been copied. -/
theorem load_of_copied {t : LType} {x : BitVec 64} (hagg : t.isAggregateType)
    (h : ∀ i < t.shape.allocSize, env'.byte a i = env.byte x i) :
    env'.load t a = env.load t x := by
  rw [Env.load_aggregate hagg, Env.load_aggregate hagg]
  unfold allocSize
  by_cases hs : t.isSized
  · rw [if_pos hs, Option.map_some, Option.map_some]
    refine congrArg (fun l => some (Datum.bytes l)) (List.map_congr_left fun i hi => ?_)
    exact h i (List.mem_range.mp hi)
  · rw [if_neg hs]
    rfl

/-- The store of a value that can be captured: it is defined in the states where what is copied
lies right, and after it the temporary holds the value. -/
theorem storeInto_gives (hw : WellTyped (.expr bt v vc)) (hplain : bt.type.isPlain)
    (hc : Capturable c.toCircularTypes (.expr bt v vc))
    (ht : t.btype = (resolvedExpr c.toCircularTypes bt v vc).btype) :
    ∃ st, storeInto c.toCircularTypes t.value (resolvedExpr c.toCircularTypes bt v vc) = some st ∧
      st ≠ .undef ∧ st.IsWhole bt.type ∧
      (∀ env, st.IsAligned env ↔ CapturesAligned env t.id (.expr bt v vc)) ∧
      ∀ env env' d, env.Unread v → st.Effect env env' → env.means (.expr bt v vc) = some d →
        Denotation c.toCircularTypes (.expr t.btype t.value { pending := true }) env' d := by
  by_cases hagg : bt.type.isAggregateType
  · obtain ⟨src, hst, hstorage, hmeans⟩ := @capture_aggregate c bt v t.value vc hw hplain hagg hc
    have hbt : t.btype = bt := by
      rw [ht, resolvedExpr]
      split_ifs
      · rw [loadFromExpr_of_none (loadConversion_aggregate hagg)]
        rfl
      · rfl
    refine ⟨_, hst, Stored.noConfusion, rfl, fun env => ?_, fun env env' d _ heff hd => ?_⟩
    · have hvalue : t.value = .alloca t.id bt.type := by rw [Temporary.value, hbt]
      rw [Stored.IsAligned, hvalue]
      constructor
      · intro h _ s a x hs ha hx
        cases hstorage.symm.trans hs
        exact h a x ha hx
      · exact fun h a x ha hx => h hagg src a x hstorage ha hx
    obtain ⟨hun, a, x, ha, hx, hbytes⟩ := heff
    refine denotation_of_temporary hun ha ?_
    rw [hmeans, Env.contents, hx] at hd
    rw [hbt, load_of_copied hagg hbytes]
    exact hd
  · obtain ⟨R, w, hres, hR, hw', hmeans⟩ := resolved_scalar hw hagg hc
    have htR : t.btype = R := by
      rw [ht, hres]
      rfl
    have hdst : t.value.type = ptr R.type := congrArg (fun bt : Btype => ptr bt.type) htR
    refine ⟨.value t.value w, ?_, Stored.noConfusion, trivial,
      fun env => iff_of_true trivial fun h => absurd h hagg, fun env env' d hun heff hd => ?_⟩
    · rw [hres, storeInto_scalar (hR ▸ hagg) (hw' ▸ isPlain_ne_void hplain) hdst,
        if_pos (hw'.trans hR.symm)]
    · obtain ⟨hun', a, ha, hload⟩ := heff
      refine denotation_of_temporary hun' ha ?_
      rw [htR, hR, ← hw', hload]
      exact hmeans env hun d hd

theorem resolvedExpr_ne_void (hplain : bt.type.isPlain) :
    (resolvedExpr c.toCircularTypes bt v vc).btype ≠ voidType := by
  intro hvoid
  have htype := congrArg Btype.type hvoid
  rw [resolvedExpr] at htype
  split_ifs at htype
  · cases hconv : c.loadConversion bt with
    | none =>
      rw [loadFromExpr_of_none hconv] at htype
      exact isPlain_ne_void hplain htype
    | some t' =>
      have hptr := c.isPointerTy hconv
      rw [loadFromExpr_of_some hconv] at htype
      rw [show t'.type = void from htype] at hptr
      exact Bool.false_ne_true hptr
  · exact isPlain_ne_void hplain htype

end Result

/-! ## The condition -/

section Condition

variable {c : CircularPointerTypes} {v : Value} {vc : VarContext} {tree : BnodeTree} {n : InstRef}

theorem capturable_bool :
    Capturable c.toCircularTypes (.expr boolType v vc) ↔ IsRvalue (.expr boolType v vc) := by
  have hagg : ¬boolType.type.isAggregateType := Bool.false_ne_true
  rw [Capturable, if_neg hagg, IsRvalue]
  refine forall_congr' fun _ => forall_congr' fun _ => and_iff_left fun t h => ?_
  cases (c.loadConversion_integer true 8).symm.trans h

/-- A byte is truncated to its low bit. -/
theorem convertExpression_byte {w : Value} (hw : w.type = int 8) :
    convertExpression (.aux (int 1)) false (.expr boolType w {}) =
      some (.expr (.aux (int 1)) (.cast Trunc w (int 1)) {}) := by
  have hne : ¬(false ∨ (Btype.aux (int 1)).type = w.type) := by
    rw [hw]
    simp [Btype.type]
  rw [convertExpression_eq hne]
  simp [convertTarget, convertToType, convertValue, Btype.type, hw, isFunctionTy, isPointerTy]

theorem convertExpression_address {w : Value} (hw : w.type = ptr (int 8)) :
    convertExpression (.aux (int 1)) false (.expr boolType w {}) = none := by
  have hne : ¬(false ∨ (Btype.aux (int 1)).type = w.type) := by
    rw [hw]
    simp [Btype.type]
  rw [convertExpression_eq hne]
  simp [convertTarget, convertToType, convertValue, Btype.type, hw, isFunctionTy, isPointerTy]

theorem convertCondition_spec (hw : WellTyped (.expr boolType v vc))
    (hc : IsRvalue (.expr boolType v vc)) (hcode : tree.isCode) : ∃ test,
      convertCondition ⟨resolvedExpr c.toCircularTypes boolType v vc, tree⟩ n = some test ∧
      test.tree.isCode ∧ test.tree.value = some test.cval ∧
      (∀ truth, test.tree.execute truth = tree.execute truth ++ test.insts) ∧
      test.insts.Sublist [n] ∧ test.Tests (.expr boolType v vc) := by
  obtain ⟨R, w, hres, -, hw', hmeans⟩ := resolved_scalar hw Bool.false_ne_true
    (capturable_bool (c := c) |>.mpr hc)
  have hR : R = boolType := by
    have hbt := congrArg Bexpression.btype hres
    rw [resolvedExpr] at hbt
    split_ifs at hbt
    · have hconv : c.loadConversion boolType = none := c.loadConversion_integer true 8
      rw [loadFromExpr_of_none hconv] at hbt
      exact hbt.symm
    · exact hbt.symm
  subst hR
  have htests : ∀ (env : Env) (x : BitVec 8), env.Unread v →
      env.means (.expr boolType v vc) = some (.int 8 x) →
        env.eval (.cast Trunc w (int 1)) = some (.int 1 (x.setWidth 1)) := by
    intro env x hun hx
    simp only [Env.eval, hmeans env hun _ hx, Option.bind_some, CastOp.apply]
    exact if_pos (by decide)
  have hne : ¬w.type = int 1 := by
    rw [hw']
    simp [boolType, Btype.type]
  rw [hres]
  simp only [convertCondition, convertExpression_byte hw', Bexpression.value,
    Option.bind_eq_bind, Option.bind_some]
  rw [if_neg hne]
  by_cases hconst : (Value.cast Trunc w (int 1)).isConstant
  · rw [if_pos hconst]
    refine ⟨_, rfl, ?_, rfl, fun truth => ?_, List.nil_sublist _, htests⟩
    · simp [BnodeTree.isCode, BnodeTree.areCode, hcode]
    · simp [BnodeTree.execute, BnodeTree.executeAll]
  · rw [if_neg hconst]
    exact ⟨_, rfl, withInst_isCode hcode n, rfl, fun truth => execute_withInst truth tree n,
      List.Sublist.refl _, htests⟩

theorem isRvalue_of_convertCondition {test : Test} (hw : WellTyped (.expr boolType v vc))
    (h : convertCondition ⟨resolvedExpr c.toCircularTypes boolType v vc, tree⟩ n = some test) :
    IsRvalue (.expr boolType v vc) := by
  intro hp h0 hlv
  have hl : ¬(vc.pending ∧ handsOutAddress vc VE_rvalue = false) :=
    fun hl => ((loads_iff hw).mp hl).2.2 hlv
  rw [resolvedExpr, if_neg hl] at h
  simp only [convertCondition, convertExpression_address (reference_type hw hp h0)] at h
  cases h

end Condition

/-! ## The conditional -/

section Conditional

variable {c : CircularPointerTypes} {env : Env} {T : Btype} {cond thn els : Operand} {n : InstRef}

theorem captureArm_spec {t : Temporary} {o : Operand} {insts : List InstRef} {st : Stored}
    (hvoid : o.expr.btype ≠ voidType) (hbt : o.expr.btype = t.btype)
    (hst : storeInto c.toCircularTypes t.value o.expr = some st) (hne : st ≠ .undef)
    (hcode : o.tree.isCode) : ∃ arm,
      captureArm c.toCircularTypes (some t) o insts n = some arm ∧ arm.stored = some st ∧
      arm.insts = insts ++ [n] ∧ arm.stmt.isCode ∧
      ∀ truth, arm.stmt.execute truth = o.tree.execute truth ++ [n] := by
  refine ⟨⟨.exprStmt (assignTree t o.tree n st), insts ++ assignInsts n st, some st⟩, ?_, rfl, ?_⟩
  · simp only [captureArm, if_neg hvoid, hst, Option.bind_eq_bind, Option.bind_some]
    rw [hbt]
    simp [guard]
  · cases st with
    | undef => exact absurd rfl hne
    | _ =>
      simp [assignTree, assignInsts, Temporary.tree, BnodeTree.isCode, BnodeTree.areCode, hcode,
        BnodeTree.execute, BnodeTree.executeAll]

theorem compound_runs {t : Temporary} {test : Test} {thenArm elseArm : Arm}
    {condTree thenTree elseTree : BnodeTree} (hcode : test.tree.isCode)
    (hval : test.tree.value = some test.cval)
    (htest : ∀ truth, test.tree.execute truth = condTree.execute truth ++ test.insts)
    (hthenCode : thenArm.stmt.isCode)
    (hthen : ∀ truth, thenArm.stmt.execute truth = thenTree.execute truth ++ thenArm.insts)
    (helseCode : elseArm.stmt.isCode)
    (helse : ∀ truth, elseArm.stmt.execute truth = elseTree.execute truth ++ elseArm.insts) :
    (compound (some t) test thenArm (some elseArm)).Runs condTree thenTree elseTree elseArm := by
  intro kept fn s b is his hopen htests
  have htree : (compound (some t) test thenArm (some elseArm)).tree.isCode := by
    simp [compound, Temporary.tree, BnodeTree.isCode, BnodeTree.areCode, hcode, hval, hthenCode,
      helseCode]
  obtain ⟨s', b', hwalk, -, hlow⟩ := GenBlocks.lowered_of_isCode _ htree his hopen htests
  refine ⟨s', b', hwalk, fun truth => ?_⟩
  have hexec := hlow truth
  simp only [compound, Temporary.tree, BnodeTree.execute, BnodeTree.executeAll, hval,
    Option.map_some, Option.toList_some, Option.any_some, htest, hthen, helse,
    List.append_nil] at hexec
  exact hexec

/-- The instructions of the three parts are different ones. -/
theorem insts_fresh {a b d e : List ℕ} {n : ℕ} (ha : a.Sublist [n, n + 1])
    (hb : b.Sublist [n + 9]) (hd : d.Sublist [n + 2, n + 2 + 1])
    (he : e.Sublist [n + 4, n + 4 + 1]) :
    ((a ++ b) ++ (d ++ [n + 7]) ++ (e ++ [n + 8])).Nodup ∧
      ∀ i ∈ (a ++ b) ++ (d ++ [n + 7]) ++ (e ++ [n + 8]), n ≤ i := by
  have hsub :=
    ((ha.append hb).append (hd.append (.refl [n + 7]))).append (he.append (.refl [n + 8]))
  refine ⟨hsub.nodup ?_, fun i hi => ?_⟩
  · simp
    omega
  · have hmem := hsub.subset hi
    simp only [List.mem_append, List.mem_cons, List.not_mem_nil, or_false] at hmem
    rcases hmem with ((hmem | hmem) | hmem) | hmem
    all_goals omega

/-- The backend type of a resolved expression. -/
theorem resolvedExpr_btype {bt : Btype} {v : Value} {vc : VarContext}
    (hw : WellTyped (.expr bt v vc)) :
    (IsRedirected c.toCircularTypes (.expr bt v vc) →
      c.loadConversion bt = some (resolvedExpr c.toCircularTypes bt v vc).btype ∧
        (resolvedExpr c.toCircularTypes bt v vc).btype ≠ bt) ∧
    (¬IsRedirected c.toCircularTypes (.expr bt v vc) →
      (resolvedExpr c.toCircularTypes bt v vc).btype = bt) := by
  unfold resolvedExpr IsRedirected
  by_cases hl : vc.pending ∧ handsOutAddress vc VE_rvalue = false
  · obtain ⟨hp, h0, hlv⟩ := (loads_iff hw).mp hl
    rw [if_pos hl]
    cases hconv : c.loadConversion bt with
    | none =>
      rw [loadFromExpr_of_none hconv]
      refine ⟨fun h => ?_, fun _ => rfl⟩
      obtain ⟨-, -, -, t', ht', -⟩ := h
      cases hconv.symm.trans ht'
    | some t =>
      rw [loadFromExpr_of_some hconv]
      constructor
      · rintro ⟨-, -, -, t', ht', hne⟩
        cases hconv.symm.trans ht'
        exact ⟨rfl, hne⟩
      · intro h
        by_contra hne
        exact h ⟨hp, h0, hlv, t, hconv, hne⟩
  · rw [if_neg hl]
    exact ⟨fun h => absurd ((loads_iff hw).mpr ⟨h.1, h.2.1, h.2.2.1⟩) hl, fun _ => rfl⟩

theorem resolvedExpr_btype_eq_iff {bt : Btype} {v v' : Value} {vc vc' : VarContext}
    (hw : WellTyped (.expr bt v vc)) (hw' : WellTyped (.expr bt v' vc')) :
    (resolvedExpr c.toCircularTypes bt v' vc').btype =
        (resolvedExpr c.toCircularTypes bt v vc).btype ↔
      (IsRedirected c.toCircularTypes (.expr bt v vc) ↔
        IsRedirected c.toCircularTypes (.expr bt v' vc')) := by
  have h := @resolvedExpr_btype c bt v vc hw
  have h' := @resolvedExpr_btype c bt v' vc' hw'
  by_cases hr : IsRedirected c.toCircularTypes (.expr bt v vc)
  · by_cases hr' : IsRedirected c.toCircularTypes (.expr bt v' vc')
    · refine iff_of_true ?_ (iff_of_true hr hr')
      exact Option.some.inj ((h'.1 hr').1.symm.trans (h.1 hr).1)
    · simp only [hr, hr', h'.2 hr', iff_false, not_true_eq_false]
      exact (h.1 hr).2.symm
  · by_cases hr' : IsRedirected c.toCircularTypes (.expr bt v' vc')
    · simp only [hr, hr', h.2 hr, iff_true]
      exact iff_of_false (h'.1 hr').2 id
    · rw [h.2 hr, h'.2 hr']
      exact iff_of_true rfl (iff_of_false hr hr')

theorem capturedType_of_ne_void {thenType : Btype} (h : thenType ≠ voidType)
    (elseType : Option Btype) : capturedType (some T) thenType elseType = some thenType := by
  simp [capturedType, h]

theorem choosesArm_of_capturable {w v v' : Value} {wc vc vc' : VarContext}
    {condTree thenTree elseTree : BnodeTree} (n : InstRef) (hT : T.type.isPlain)
    (hwc : WellTyped (.expr boolType w wc)) (hkc : condTree.isCode)
    (hwt : WellTyped (.expr T v vc)) (hkt : thenTree.isCode)
    (hwe : WellTyped (.expr T v' vc')) (hke : elseTree.isCode)
    (hrc : IsRvalue (.expr boolType w wc))
    (hct : Capturable c.toCircularTypes (.expr T v vc))
    (hce : Capturable c.toCircularTypes (.expr T v' vc'))
    (hred : IsRedirected c.toCircularTypes (.expr T v vc) ↔
      IsRedirected c.toCircularTypes (.expr T v' vc'))
    (hat : CapturesAligned env (n + 6) (.expr T v vc))
    (hae : CapturesAligned env (n + 6) (.expr T v' vc')) :
    ChoosesArm c.toCircularTypes env T ⟨.expr boolType w wc, condTree⟩ ⟨.expr T v vc, thenTree⟩
      ⟨.expr T v' vc', elseTree⟩ n := by
  -- the operands
  obtain ⟨oc, ic, hoc, hec, hcc, hxc, hsc⟩ := @resolveOperand_spec c _ _ _ hwc _ hkc n
  obtain ⟨ot, it, hot, het, hcodet, hxt, hst⟩ := @resolveOperand_spec c _ _ _ hwt _ hkt (n + 2)
  obtain ⟨oe, ie, hoe, hee, hcodee, hxe, hse⟩ := @resolveOperand_spec c _ _ _ hwe _ hke (n + 4)
  have hbe : oe.expr.btype = ot.expr.btype := by
    rw [hee, het]
    exact (resolvedExpr_btype_eq_iff hwt hwe).mpr hred
  have hvoid : ot.expr.btype ≠ voidType := het ▸ resolvedExpr_ne_void hT
  -- the arms, and then the condition
  let t : Temporary := ⟨ot.expr.btype, n + 6⟩
  obtain ⟨stT, hstT, hneT, hwholeT, halignT, hgiveT⟩ :=
    storeInto_gives (t := t) hwt hT hct (by rw [← het])
  obtain ⟨stF, hstF, hneF, hwholeF, halignF, hgiveF⟩ :=
    storeInto_gives (t := t) hwe hT hce (by rw [← hee, hbe])
  obtain ⟨armT, harmT, hstoredT, hinstsT, hcodeT, hexecT⟩ :=
    @captureArm_spec c (n + 7) t ot it stT hvoid rfl (het ▸ hstT) hneT hcodet
  obtain ⟨armF, harmF, hstoredF, hinstsF, hcodeF, hexecF⟩ :=
    @captureArm_spec c (n + 8) t oe ie stF (hbe ▸ hvoid) hbe (hee ▸ hstF) hneF hcodee
  obtain ⟨test, htest, hcodeC, hval, hexecC, hinstsC, htests⟩ :=
    @convertCondition_spec c _ _ oc.tree (n + 9) hwc hrc hcc
  have hnodup := insts_fresh hsc hinstsC hst hse
  refine ⟨compound (some t) { test with insts := ic ++ test.insts } armT (some armF), armF, _, ?_,
    rfl, rfl, htests, compound_runs hcodeC hval (fun truth => ?_) hcodeT (fun truth => ?_) hcodeF
      (fun truth => ?_), ⟨stT, hstoredT, hwholeT, (halignT env).mpr hat, hgiveT env⟩,
    ⟨stF, hstoredF, hwholeF, (halignF env).mpr hae, hgiveF env⟩, ?_⟩
  · have htest' : convertCondition oc (n + 9) = some test := by
      rw [← htest, ← hec]
    simp only [conditionalExpression, hoc, hot, hoe, capturedType_of_ne_void hvoid, htest',
      Option.bind_eq_bind, Option.bind_some, Option.map_some]
    rw [harmT, Option.bind_some, harmF, Option.map_some, Option.bind_some]
  · rw [hexecC, hxc, List.append_assoc]
  · rw [hexecT, hxt, hinstsT, List.append_assoc]
  · rw [hexecF, hxe, hinstsF, List.append_assoc]
  · rw [← hinstsT, ← hinstsF] at hnodup
    exact hnodup

theorem captureArm_stored {c : CircularTypes} {temp : Option Temporary} {o : Operand}
    {insts : List InstRef} {arm : Arm} {st : Stored} (h : captureArm c temp o insts n = some arm)
    (hst : arm.stored = some st) :
    ∃ t, temp = some t ∧ o.expr.btype = t.btype ∧ storeInto c t.value o.expr = some st := by
  cases temp with
  | none =>
    cases h
    cases hst
  | some t =>
    simp only [captureArm] at h
    by_cases hvoid : o.expr.btype = voidType
    · rw [if_pos hvoid] at h
      cases h
      cases hst
    · rw [if_neg hvoid] at h
      simp only [Option.bind_eq_bind, Option.bind_eq_some_iff, Option.guard_eq_some'] at h
      obtain ⟨-, hbt, st', hst', h⟩ := h
      cases h
      cases hst
      exact ⟨t, rfl, hbt, hst'⟩

section Compound

variable (temp : Option Temporary) (test : Test) (thenArm : Arm) (elseArm : Option Arm)

theorem compound_thenArm : (compound temp test thenArm elseArm).thenArm = thenArm := by
  cases temp <;> rfl

theorem compound_elseArm : (compound temp test thenArm elseArm).elseArm = elseArm := by
  cases temp <;> rfl

end Compound

/-- The condition of a conditional that has been built was a value. -/
theorem isRvalue_of_test {o : Operand} {insts : List InstRef} {m : InstRef} {test : Test}
    (hcond : cond.HasType boolType)
    (h : resolveOperand c.toCircularTypes cond n = some (o, insts))
    (htest : convertCondition o m = some test) : IsRvalue cond.expr := by
  obtain ⟨e, tree⟩ := cond
  obtain ⟨hbt, hw, hcode⟩ := hcond
  cases e with
  | compositeInit => exact trivial
  | expr bt v vc =>
    cases hbt
    obtain ⟨o', insts', h', hexpr, -⟩ := @resolveOperand_spec c _ v vc hw tree hcode n
    cases h'.symm.trans h
    have ho : o = ⟨resolvedExpr c.toCircularTypes boolType v vc, o.tree⟩ :=
      congrArg (Operand.mk · o.tree) hexpr
    rw [ho] at htest
    exact isRvalue_of_convertCondition hw htest

theorem resolved_of_capturable {o o' : Operand} {insts : List InstRef} (hw : o.HasType T)
    (hc : Capturable c.toCircularTypes o.expr)
    (h : resolveOperand c.toCircularTypes o n = some (o', insts)) :
    ∃ v vc, o.expr = .expr T v vc ∧ o'.expr = resolvedExpr c.toCircularTypes T v vc := by
  obtain ⟨e, tree⟩ := o
  obtain ⟨hbt, hw, hcode⟩ := hw
  cases e with
  | compositeInit => exact hc.elim
  | expr bt v vc =>
    cases hbt
    obtain ⟨o'', insts', h', hexpr, -⟩ := @resolveOperand_spec c _ v vc hw tree hcode n
    cases h'.symm.trans h
    exact ⟨v, vc, rfl, hexpr⟩

/-- A copy that is defined is one between places that lie right. -/
theorem capturesAligned_of_storeInto {v : Value} {vc : VarContext} {t : Temporary} {st : Stored}
    (hw : WellTyped (.expr T v vc)) (hT : T.type.isPlain)
    (hc : Capturable c.toCircularTypes (.expr T v vc))
    (ht : (resolvedExpr c.toCircularTypes T v vc).btype = t.btype)
    (hst : storeInto c.toCircularTypes t.value (resolvedExpr c.toCircularTypes T v vc) = some st)
    (ha : st.IsAligned env) : CapturesAligned env t.id (.expr T v vc) := by
  obtain ⟨st', hst', -, -, haligned, -⟩ := storeInto_gives hw hT hc ht.symm
  cases hst.symm.trans hst'
  exact (haligned env).mp ha

theorem capturable_of_choosesArm (hT : T.type.isPlain) (hcond : cond.HasType boolType)
    (hthn : thn.HasType T) (hels : els.HasType T)
    (h : ChoosesArm c.toCircularTypes env T cond thn els n) :
    IsRvalue cond.expr ∧
      (Capturable c.toCircularTypes thn.expr ∧ CapturesAligned env (n + 6) thn.expr) ∧
      (Capturable c.toCircularTypes els.expr ∧ CapturesAligned env (n + 6) els.expr) ∧
        (IsRedirected c.toCircularTypes thn.expr ↔ IsRedirected c.toCircularTypes els.expr) := by
  obtain ⟨r, armF, result, hr, helse, -, -, -, ⟨stT, hstT, -, haT, -⟩, ⟨stF, hstF, -, haF, -⟩,
    -⟩ := h
  simp only [conditionalExpression, Option.bind_eq_bind, Option.bind_eq_some_iff,
    Option.map_eq_some_iff] at hr
  obtain ⟨⟨oc, ic⟩, hoc, ⟨ot, it⟩, hot, _, ⟨⟨oe, ie⟩, hoe, rfl⟩, armT, harmT, hr⟩ := hr
  simp only [Option.bind_eq_some_iff, Option.map_eq_some_iff] at hr
  obtain ⟨_, ⟨armF', harmF, rfl⟩, test, htest, hr⟩ := hr
  cases hr
  rw [compound_thenArm] at hstT
  rw [compound_elseArm] at helse
  cases helse
  obtain ⟨t, ht, hbtT, hstoreT⟩ := captureArm_stored harmT hstT
  obtain ⟨_, ht', hbtF, hstoreF⟩ := captureArm_stored harmF hstF
  cases ht.symm.trans ht'
  obtain ⟨bt, -, rfl⟩ := Option.map_eq_some_iff.mp ht
  have hplain : ∀ {o : Operand}, o.HasType T → o.expr.btype.type.isPlain :=
    fun ho => ho.btype ▸ hT
  have hdst : ∀ {o : Operand}, o.expr.btype = bt →
      (Temporary.mk bt (n + 6)).value.type = ptr o.expr.btype.type := fun ho => ho ▸ rfl
  have hct := capturable_of_storeInto hthn.wellTyped (hplain hthn) hthn.isCode hot (hdst hbtT)
    hstoreT
  have hce := capturable_of_storeInto hels.wellTyped (hplain hels) hels.isCode hoe (hdst hbtF)
    hstoreF
  obtain ⟨v, vc, hethn, hexprT⟩ := resolved_of_capturable hthn hct hot
  obtain ⟨v', vc', heels, hexprF⟩ := resolved_of_capturable hels hce hoe
  have hwT := hthn.wellTyped
  have hwF := hels.wellTyped
  rw [hethn] at hwT hct ⊢
  rw [heels] at hwF hce ⊢
  rw [hexprT] at hstoreT hbtT
  rw [hexprF] at hstoreF hbtF
  refine ⟨isRvalue_of_test hcond hoc htest,
    ⟨hct, capturesAligned_of_storeInto hwT hT hct hbtT hstoreT haT⟩,
    ⟨hce, capturesAligned_of_storeInto hwF hT hce hbtF hstoreF haF⟩, ?_⟩
  exact (resolvedExpr_btype_eq_iff hwT hwF).mp (hbtF.trans hbtT.symm)

/-- A conditional is built, evaluates its condition and the chosen arm, and denotes that arm's
value exactly when the condition is a value, both arms can be captured, and lie where they can be
copied from, and both or none of them are loaded as another backend type. -/
theorem choosesArm_iff (env : Env) (n : InstRef) (hT : T.type.isPlain)
    (hcond : cond.HasType boolType) (hthn : thn.HasType T) (hels : els.HasType T) :
    ChoosesArm c.toCircularTypes env T cond thn els n ↔
      IsRvalue cond.expr ∧
      (Capturable c.toCircularTypes thn.expr ∧ CapturesAligned env (n + 6) thn.expr) ∧
      (Capturable c.toCircularTypes els.expr ∧ CapturesAligned env (n + 6) els.expr) ∧
        (IsRedirected c.toCircularTypes thn.expr ↔ IsRedirected c.toCircularTypes els.expr) := by
  refine ⟨capturable_of_choosesArm hT hcond hthn hels,
    fun ⟨hrc, ⟨hct, hat⟩, ⟨hce, hae⟩, hred⟩ => ?_⟩
  obtain ⟨e, condTree⟩ := cond
  obtain ⟨eT, thenTree⟩ := thn
  obtain ⟨eF, elseTree⟩ := els
  obtain ⟨hbc, hwc, hkc⟩ := hcond
  obtain ⟨hbt, hwt, hkt⟩ := hthn
  obtain ⟨hbe, hwe, hke⟩ := hels
  cases e with
  | compositeInit node bt elems =>
    cases hbc
    exact absurd hwc.1 Bool.false_ne_true
  | expr bc w wc =>
    cases eT with
    | compositeInit => exact hct.elim
    | expr bt v vc =>
      cases eF with
      | compositeInit => exact hce.elim
      | expr be v' vc' =>
        cases hbc
        cases hbt
        cases hbe
        exact choosesArm_of_capturable n hT hwc hkc hwt hkt hwe hke hrc hct hce hred hat hae

end Conditional

/-- A reference to a local variable, which is to be loaded from. -/
def localVariable (id : InstRef) (bt : Btype) : Operand where
  expr := .expr bt (.alloca id bt.type) { pending := true }
  tree := .expr [] (some (.instruction id)) []

theorem localVariable_hasType (id : InstRef) (bt : Btype) : (localVariable id bt).HasType bt :=
  ⟨rfl, Or.inl ⟨rfl, rfl⟩, rfl⟩

def seven : Operand where
  expr := .expr (.integer false 64) (.constantInt 64 7) {}
  tree := .expr [] (some (.other 0)) []

theorem seven_hasType : seven.HasType (.integer false 64) := ⟨rfl, rfl, rfl⟩

end Dragongo
