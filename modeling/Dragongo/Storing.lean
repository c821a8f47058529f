import Dragongo.Machine

/-!
# Assignments and the expansion of composites

The instructions that an assignment becomes, in the tree that they are put into.  A composite
is expanded by a store for each element, straight into the memory that it is for; a composite
inside it is built in a temporary first.
-/

namespace Dragongo
open LType Varexpr_context

/-! ## The code of an expression -/

/-- The loads and stores of a tree of expressions; those of the children come first. -/
inductive Code
  | node (kids : List Code) (own : List Inst)

namespace Code

mutual
/-- The instructions in the order in which `walkExpr` visits them. -/
def insts : Code → List Inst
  | node kids own => allInsts kids ++ own
def allInsts : List Code → List Inst
  | [] => []
  | k :: ks => insts k ++ allInsts ks
end

mutual
/-- The tree, with the instructions numbered from `n` on; no value of it is asked for. -/
def tree : Code → ℕ → BnodeTree
  | node kids own, n =>
    .expr (trees kids n) none (List.range' (n + (allInsts kids).length) own.length)
def trees : List Code → ℕ → List BnodeTree
  | [], _ => []
  | k :: ks, n => tree k n :: trees ks (n + (insts k).length)
end

mutual
theorem tree_isCode : ∀ (k : Code) (n : ℕ), (k.tree n).isCode
  | node kids _, n => by
    rw [tree, BnodeTree.isCode]
    exact trees_areCode kids n
theorem trees_areCode : ∀ (ks : List Code) (n : ℕ), BnodeTree.areCode (trees ks n)
  | [], _ => rfl
  | k :: ks, n => by
    rw [trees, BnodeTree.areCode, tree_isCode k n, trees_areCode ks]
    rfl
end

mutual
/-- No conditional is in the tree. -/
theorem tree_tests : ∀ (k : Code) (n : ℕ), (k.tree n).tests = []
  | node kids _, n => by
    rw [tree, BnodeTree.tests]
    exact trees_tests kids n
theorem trees_tests : ∀ (ks : List Code) (n : ℕ), BnodeTree.testsAll (trees ks n) = []
  | [], _ => rfl
  | k :: ks, n => by
    rw [trees, BnodeTree.testsAll, tree_tests k n, trees_tests ks]
    rfl
end

mutual
theorem execute_tree (truth : NodeValue → Bool) : ∀ (k : Code) (n : ℕ),
    (k.tree n).execute truth = List.range' n k.insts.length
  | node kids own, n => by
    rw [tree, BnodeTree.execute, executeAll_trees truth kids n, insts, List.length_append,
      ← List.range'_append_1]
theorem executeAll_trees (truth : NodeValue → Bool) : ∀ (ks : List Code) (n : ℕ),
    BnodeTree.executeAll truth (trees ks n) = List.range' n (allInsts ks).length
  | [], _ => rfl
  | k :: ks, n => by
    rw [trees, BnodeTree.executeAll, execute_tree truth k n, executeAll_trees truth ks, allInsts,
      List.length_append, ← List.range'_append_1]
end

end Code

mutual
/-- The loads that a value is made of, each in the tree under what uses it. -/
def Value.code : Value → Code
  | .constantComposite _ elems => .node (Value.codes elems) []
  | .load a => .node [Value.code a] [.load a]
  | .bitcast v _ => .node [Value.code v] []
  | .field base _ _ => .node [Value.code base] []
  | .element base _ index => .node [Value.code base, Value.code index] []
  | _ => .node [] []
def Value.codes : List Value → List Code
  | [] => []
  | v :: vs => Value.code v :: Value.codes vs
end

/-! ## Stores -/

/-- The address of a field or an element of the type at an address. -/
def LType.partAddress (t : LType) (storage : Value) (i : ℕ) : Value :=
  if t.isArrayTy then .element storage t (.constantInt 32 i) else .field storage t i

section Backend

variable (c : CircularTypes)

/-- The store of a value, without the code that computes it. -/
def genStoreValue (srcType : Btype) (dst v : Value) : Option Stored :=
  if v.type = void then some .undef
  else if srcType.type.isAggregateType then do
    let src ← spillConstant v srcType
    let sz ← srcType.type.allocSize
    if src.type.isPointerTy then some (.copy dst src sz srcType.type.prefAlign) else none
  else
    let v := if v.type.isPointerTy then
      convertForAssignment c srcType.type v dst.type.pointeeType else v
    if v.type = dst.type.pointeeType then some (.value dst v) else none

theorem storeInto_eq (dst : Value) (e : Bexpression) : storeInto c dst e =
    (resolve c e e.varContextDisp).bind fun r => genStoreValue c e.btype dst r.value := rfl

/-- What an expression has been resolved to, with its code. -/
structure Built where
  btype : Btype
  value : Value
  code : Code

mutual
/-- `resolve`, for an element in the context of its own type. -/
def resolveElement : Bexpression → Option Built
  | .expr bt v vc =>
    (resolveVarContext c bt v vc (Bexpression.expr bt v vc).varContextDisp).map fun r =>
      ⟨r.btype, r.value, r.value.code⟩
  | .compositeInit node bt elems =>
    if bt.type.isAggregateType ∧ elems.length = bt.type.numElements then
      (genInit elems bt.type (.temporary node bt.type) 0).map fun init =>
        ⟨bt, .temporary node bt.type, .node init.1 (init.2.map .store)⟩
    else none
/-- `genArrayInit` and `genStructInit`: the trees of the elements from index `i` on, and the
stores of them, which come after all the trees. -/
def genInit : List Bexpression → LType → Value → ℕ → Option (List Code × List Stored)
  | [], _, _, _ => some ([], [])
  | e :: es, t, storage, i => do
    let r ← resolveElement e
    let st ← genStoreValue c r.btype (t.partAddress storage i) r.value
    let (kids, stores) ← genInit es t storage (i + 1)
    some (r.code :: kids, st :: stores)
end

/-- `resolveCompositeInit` into storage that is given. -/
def resolveCompositeInit (bt : Btype) (elems : List Bexpression) (storage : Value) :
    Option Code :=
  if bt.type.isAggregateType ∧ elems.length = bt.type.numElements then
    (genInit c elems bt.type storage 0).map fun init => .node init.1 (init.2.map .store)
  else none

/-- `assignment_statement`; a composite that has no storage yet is expanded into the
destination. -/
def assignmentStatement (lhs rhs : Bexpression) : Option Code :=
  match lhs with
  | .compositeInit .. => none
  | .expr bt v vc => do
    let lhs2 ← resolveVarContext c bt v vc VE_lvalue
    match rhs with
    | .compositeInit _ bt elems => do
      let code ← resolveCompositeInit c bt elems lhs2.value
      some (.node [lhs2.value.code, code] [])
    | .expr .. =>
      if v.type.isPointerTy then do
        let r ← resolve c rhs rhs.varContextDisp
        let st ← storeInto c lhs2.value rhs
        some (.node [lhs2.value.code, r.value.code] [.store st])
      else none

end Backend

/-! ## Running the code of a value -/

theorem run_node {M M₁ M₂ : Machine} {kids : List Code} {own : List Inst}
    (hkids : M.run (Code.allInsts kids) = some M₁) (hown : M₁.run own = some M₂) :
    M.run (Code.node kids own).insts = some M₂ := by
  rw [Code.insts, Machine.run_append, hkids]
  exact hown

theorem run_cons {M M₁ M₂ : Machine} {k : Code} {ks : List Code}
    (hk : M.run k.insts = some M₁) (hks : M₁.run (Code.allInsts ks) = some M₂) :
    M.run (Code.allInsts (k :: ks)) = some M₂ := by
  rw [Code.allInsts, Machine.run_append, hk]
  exact hks

theorem run_only {M M₁ : Machine} {k : Code} (hk : M.run k.insts = some M₁) :
    M.run (Code.allInsts [k]) = some M₁ := run_cons hk rfl

namespace Machine

variable {M₀ M : Machine} {W : Set (BitVec 64)}

/-- The code of a value runs its loads, and writes nothing. -/
def Computes (M₀ M : Machine) (W : Set (BitVec 64)) (is : List Inst) (ready : Machine → Prop) :
    Prop :=
  ∃ M', M.run is = some M' ∧ M₀.Later M' W ∧ M.Frame M' ∅ ∧ ready M'

mutual
theorem Later.run_code : ∀ (v : Value) {M : Machine}, M₀.Later M W → Disjoint (M₀.reads v) W →
    M₀.Computes M W v.code.insts fun M' => M'.Ready v
  | .constantComposite t elems, _, h, hd => by
    obtain ⟨M₁, hrun, hlater, hframe, hready⟩ := h.run_codes elems (by simpa [reads] using hd)
    exact ⟨M₁, run_node hrun rfl, hlater, hframe, hready⟩
  | .load a, _, h, hd => by
    have hd' := hd
    rw [reads, Set.disjoint_union_left] at hd'
    obtain ⟨M₁, hrun, hlater, hframe, -⟩ := h.run_code a hd'.1
    obtain ⟨M₂, hexec, hlater', hframe', hready⟩ := hlater.exec_load hd
    refine ⟨M₂, run_node (run_only hrun) ?_, hlater', hframe.trans hframe', hready⟩
    rw [run, hexec]
    rfl
  | .bitcast v t, _, h, hd => by
    obtain ⟨M₁, hrun, hlater, hframe, hready⟩ := h.run_code v (by simpa [reads] using hd)
    exact ⟨M₁, run_node (run_only hrun) rfl, hlater, hframe, hready⟩
  | .field base t i, _, h, hd => by
    obtain ⟨M₁, hrun, hlater, hframe, hready⟩ := h.run_code base (by simpa [reads] using hd)
    exact ⟨M₁, run_node (run_only hrun) rfl, hlater, hframe, hready⟩
  | .element base t index, _, h, hd => by
    rw [reads, Set.disjoint_union_left] at hd
    obtain ⟨M₁, hrun, hlater, hframe, hready⟩ := h.run_code base hd.1
    obtain ⟨M₂, hrun', hlater', hframe', hready'⟩ := hlater.run_code index hd.2
    exact ⟨M₂, run_node (run_cons hrun (run_only hrun')) rfl, hlater', hframe.trans hframe',
      (hframe'.bytes_eq base hready).2, hready'⟩
  | .alloca .., M, h, _ | .argument .., M, h, _ | .globalVariable .., M, h, _
  | .constantVariable _, M, h, _ | .temporary .., M, h, _ | .null _, M, h, _ | .undef _, M, h, _
  | .constantInt .., M, h, _ | .constant .., M, h, _ | .instruction .., M, h, _
  | .zext .., M, h, _ | .cast .., M, h, _ | .cmp .., M, h, _ | .xor .., M, h, _ =>
    ⟨M, run_node rfl rfl, h, .refl M ∅, trivial⟩
theorem Later.run_codes : ∀ (vs : List Value) {M : Machine}, M₀.Later M W →
    Disjoint (M₀.allReads vs) W →
    M₀.Computes M W (Code.allInsts (Value.codes vs)) fun M' => M'.AllReady vs
  | [], M, h, _ => ⟨M, rfl, h, .refl M ∅, trivial⟩
  | v :: vs, _, h, hd => by
    rw [allReads, Set.disjoint_union_left] at hd
    obtain ⟨M₁, hrun, hlater, hframe, hready⟩ := h.run_code v hd.1
    obtain ⟨M₂, hrun', hlater', hframe', hready'⟩ := hlater.run_codes vs hd.2
    exact ⟨M₂, run_cons hrun hrun', hlater', hframe.trans hframe',
      (hframe'.bytes_eq v hready).2, hready'⟩
end

end Machine

/-! ## Where the code is put -/

/-- Wherever the statement is put, its instructions, numbered from `n` on, run in order. -/
def Code.RunsInOrder (k : Code) (n : ℕ) : Prop :=
  ∀ kept fn (s : GenBlocks) (b : BlockRef) is, s.blocks[(b : ℕ)]? = some is →
    s.getTerminator b = false →
      ∃ s' b', GenBlocks.walkWith kept fn s (some b) (.exprStmt (k.tree n)) = some (some b', s') ∧
        ∀ truth, GenBlocks.Lowers truth s b (List.range' n k.insts.length) s' b'

theorem Code.runsInOrder (k : Code) (n : ℕ) : k.RunsInOrder n := by
  intro kept fn s b is his hopen
  have hcode : (BnodeTree.exprStmt (k.tree n)).isCode := k.tree_isCode n
  have htests : (BnodeTree.exprStmt (k.tree n)).tests = [] := k.tree_tests n
  obtain ⟨s', b', hwalk, -, hlow⟩ := GenBlocks.lowered_of_isCode _ hcode his hopen fun v hv =>
    absurd (htests ▸ hv) List.not_mem_nil
  refine ⟨s', b', hwalk, fun truth => ?_⟩
  rw [← execute_tree truth k n]
  exact hlow truth

end Dragongo
