import Dragongo.DebugVars

/-!
# Code with and without debug metadata

The walk declares the variables of a block while it puts instructions into blocks.  What it
declares has no influence on the code.
-/

namespace Dragongo

namespace GenBlocks

/-- Without what is there for debug metadata only. -/
def stripDebug (s : GenBlocks) : GenBlocks :=
  { s with createDebugMetaData := false, declared := [], decls := [] }

section Steps

variable (fn : Instructions) (s : GenBlocks) (b : BlockRef) (cur : Option BlockRef)

theorem stripDebug_mkLLVMBlocks (n : ℕ) :
    s.stripDebug.mkLLVMBlocks n = (s.mkLLVMBlocks n).stripDebug := by
  induction n generalizing s with
  | zero => rfl
  | succ n ih => exact ih s.mkLLVMBlock.2

theorem stripDebug_push (i : BlockInst) : s.stripDebug.push b i = (s.push b i).stripDebug := rfl

theorem stripDebug_branchTo (target : BlockRef) :
    s.stripDebug.branchTo cur target = (s.branchTo cur target).stripDebug := by
  unfold branchTo
  cases cur with
  | none => rfl
  | some b =>
    have hend : s.stripDebug.getTerminator b = s.getTerminator b := rfl
    dsimp only
    rw [hend]
    split_ifs <;> rfl

theorem stripDebug_leave (target : BlockRef) :
    s.stripDebug.leave cur target = (s.leave cur target).stripDebug := by
  cases cur <;> rfl

theorem stripDebug_landAt (pad target : BlockRef) :
    s.stripDebug.landAt pad target = (s.landAt pad target).stripDebug := rfl

theorem stripDebug_setPads (pads : List BlockRef) :
    s.stripDebug.setPads pads = (s.setPads pads).stripDebug := rfl

theorem stripDebug_setFinally (fin : Option BlockRef) :
    s.stripDebug.setFinally fin = (s.setFinally fin).stripDebug := rfl

theorem stripDebug_getBlockForLabel (lab : LabelId) :
    s.stripDebug.getBlockForLabel lab =
      ((s.getBlockForLabel lab).1, (s.getBlockForLabel lab).2.stripDebug) := by
  have hlabels : s.stripDebug.labelmap = s.labelmap := rfl
  unfold getBlockForLabel
  rw [hlabels]
  cases s.labelmap lab <;> rfl

theorem stripDebug_createBranch (target : BlockRef) :
    s.stripDebug.createBranch cur target = (s.createBranch cur target).map stripDebug := by
  cases cur <;> rfl

theorem stripDebug_discard (i : InstRef) :
    s.stripDebug.discard fn i = (s.discard fn i).map stripDebug := by
  have hbranch : s.stripDebug.branchesOn i = s.branchesOn i := rfl
  have hdiscarded : s.stripDebug.discarded = s.discarded := rfl
  unfold discard
  rw [hbranch, hdiscarded]
  split_ifs <;> rfl

theorem stripDebug_destroyOwn (own : List InstRef) :
    s.stripDebug.destroyOwn fn own = (s.destroyOwn fn own).map stripDebug := by
  have hbranch : ∀ i, s.stripDebug.branchesOn i = s.branchesOn i := fun _ => rfl
  have hdiscarded : s.stripDebug.discarded = s.discarded := rfl
  unfold destroyOwn
  simp only [hbranch, hdiscarded]
  split_ifs <;> rfl

theorem stripDebug_processVars (vars : List Bvariable) :
    (s.processVars vars).stripDebug = s.stripDebug := by
  induction vars generalizing s with
  | nil => rfl
  | cons v vars ih =>
    unfold processVars
    split_ifs
    · exact ih s
    · rw [ih]
      unfold insertVarDecl
      cases v.initializer <;> rfl

/-- Declarations leave no trace. -/
theorem stripDebug_endLexicalBlock (vars : List Bvariable) :
    (s.endLexicalBlock vars).stripDebug = s.stripDebug := by
  unfold endLexicalBlock
  split_ifs
  · exact stripDebug_processVars s vars
  · rfl

end Steps

/-- The same on both sides of a step that may fail. -/
theorem bind_map_eq {α β γ δ : Type} {e : α → β} {e' : γ → δ} {f : β → Option δ}
    {g : α → Option γ} (h : ∀ a, f (e a) = (g a).map e') (x : Option α) :
    (x.map e).bind f = (x.bind g).map e' := by
  cases x with
  | none => rfl
  | some a => exact h a

theorem stripDebug_destroy (fn : Instructions) (s : GenBlocks) (re : BnodeTree) (ri : InstRef) :
    s.stripDebug.destroy fn re ri = (s.destroy fn re ri).map stripDebug := by
  unfold destroy
  generalize (BnodeTree.returnStmt re ri).ownInsts = owns
  induction owns generalizing s with
  | nil => rfl
  | cons own below ih =>
    rw [List.foldlM_cons, List.foldlM_cons, stripDebug_destroyOwn]
    exact bind_map_eq ih _

/-! ## The walk -/

/-- A place in the walk without the debug metadata. -/
def stripAt (p : Option BlockRef × GenBlocks) : Option BlockRef × GenBlocks :=
  (p.1, p.2.stripDebug)

theorem stripDebug_addInst (fn : Instructions) (s : GenBlocks) (cur : Option BlockRef)
    (i : InstRef) : s.stripDebug.addInst fn cur i = (s.addInst fn cur i).map stripAt := by
  have hpads : s.stripDebug.padBlockStack = s.padBlockStack := rfl
  unfold addInst
  rw [hpads, stripDebug_discard]
  cases cur with
  | none => cases s.discard fn i <;> rfl
  | some b =>
    cases s.padBlockStack with
    | nil => rfl
    | cons pad pads =>
      dsimp only
      split_ifs <;> rfl

theorem stripDebug_addInsts (fn : Instructions) (s : GenBlocks) (cur : Option BlockRef)
    (insts : List InstRef) :
    s.stripDebug.addInsts fn cur insts = (s.addInsts fn cur insts).map stripAt := by
  induction insts generalizing s cur with
  | nil => rfl
  | cons i insts ih =>
    rw [addInsts, addInsts, stripDebug_addInst]
    exact bind_map_eq (fun p => ih p.2 p.1) _

theorem stripDebug_addReturn (fn : Instructions) (s : GenBlocks) (cur : Option BlockRef)
    (ri : InstRef) : s.stripDebug.addReturn fn cur ri = (s.addReturn fn cur ri).map stripDebug := by
  cases cur with
  | none => exact stripDebug_discard fn s ri
  | some b => rfl

section Walk

variable (kept : Walk) (fn : Instructions)

/-- The walk of a kept return does the same with and without debug metadata. -/
def KeptStrips : Prop :=
  ∀ s cur n, kept (stripDebug s) cur n = (kept s cur n).map stripAt

def Strips (n : BnodeTree) : Prop :=
  ∀ s cur, walkWith kept fn (stripDebug s) cur n = (walkWith kept fn s cur n).map stripAt

def AllStrip (ns : List BnodeTree) : Prop :=
  ∀ s cur, walkAllWith kept fn (stripDebug s) cur ns = (walkAllWith kept fn s cur ns).map stripAt

def CasesStrip (stmts : List BnodeTree) : Prop :=
  ∀ s b epilog, walkCasesWith kept fn (stripDebug s) b epilog stmts =
    (walkCasesWith kept fn s b epilog stmts).map stripDebug

variable {kept fn}

theorem strips_expr {kids : List BnodeTree} (value : Option NodeValue) (insts : List InstRef)
    (h : AllStrip kept fn kids) : Strips kept fn (.expr kids value insts) := by
  intro s cur
  rw [walkWith, walkWith, h s cur]
  exact bind_map_eq (fun p => stripDebug_addInsts fn p.2 p.1 insts) _

theorem strips_block (vars : List Bvariable) {stmts : List BnodeTree}
    (h : AllStrip kept fn stmts) : Strips kept fn (.block vars stmts) := by
  intro s cur
  rw [walkWith, walkWith, h s cur]
  refine bind_map_eq (fun p => ?_) _
  have hend : p.2.stripDebug.endLexicalBlock vars = p.2.stripDebug := if_neg Bool.false_ne_true
  simp [stripAt, hend, stripDebug_endLexicalBlock]

theorem strips_if {cond trueBlock falseBlock : BnodeTree} (hc : Strips kept fn cond)
    (ht : Strips kept fn trueBlock) (hf : Strips kept fn falseBlock) :
    Strips kept fn (.ifStmt cond trueBlock falseBlock) := by
  intro s cur
  rw [walkWith, walkWith, hc s cur]
  refine bind_map_eq (fun p => ?_) _
  have hlen : p.2.stripDebug.blocks.length = p.2.blocks.length := rfl
  have hvalue : p.2.stripDebug.valueOf cond = p.2.valueOf cond := rfl
  simp only [stripAt, hlen, hvalue, stripDebug_mkLLVMBlocks, stripDebug_push]
  cases p.2.valueOf cond with
  | none => rfl
  | some cval =>
    cases p.1 with
    | none => rfl
    | some b =>
      simp only [Option.bind_eq_bind, Option.bind_some, ht _ _]
      refine bind_map_eq (fun q => ?_) _
      simp only [stripAt, stripDebug_branchTo, hf _ _]
      refine bind_map_eq (fun r => ?_) _
      simp only [stripAt, stripDebug_branchTo, Option.map_some]

theorem strips_switch {swvalue : BnodeTree} (vals : List (List ℤ)) {stmts : List BnodeTree}
    (hsw : Strips kept fn swvalue) (hs : CasesStrip kept fn stmts) :
    Strips kept fn (.switchStmt swvalue vals stmts) := by
  intro s cur
  rw [walkWith, walkWith, hsw s cur]
  by_cases hn : stmts.length = vals.length
  · simp only [hn, guard, if_true, Option.bind_eq_bind]
    refine bind_map_eq (fun p => ?_) _
    have hlen : p.2.stripDebug.blocks.length = p.2.blocks.length := rfl
    simp only [stripAt, hlen, stripDebug_mkLLVMBlocks]
    cases defaultBlock p.2.blocks.length (p.2.blocks.length + vals.length) vals with
    | none => rfl
    | some defBB =>
      simp only [Option.bind_some, hs _ _ _]
      refine bind_map_eq (fun s' => ?_) _
      have hvalue : s'.stripDebug.valueOf swvalue = s'.valueOf swvalue := rfl
      rw [hvalue]
      cases s'.valueOf swvalue with
      | none => rfl
      | some v => cases p.1 <;> rfl
  · simp only [hn, guard, if_false]
    rfl

theorem strips_goto (label : LabelId) : Strips kept fn (.gotoStmt label) := by
  intro s cur
  simp only [walkWith, stripDebug_getBlockForLabel, stripDebug_branchTo]
  rfl

theorem strips_label (label : LabelId) : Strips kept fn (.labelStmt label) := by
  intro s cur
  simp only [walkWith, stripDebug_getBlockForLabel, stripDebug_leave]
  rfl

theorem strips_return {re : BnodeTree} (ri : InstRef) (h : Strips kept fn re) :
    Strips kept fn (.returnStmt re ri) := by
  intro s cur
  have hfin : s.stripDebug.finallyBlock = s.finallyBlock := rfl
  have hcached : s.stripDebug.cachedReturn = s.cachedReturn := rfl
  rw [walkWith, walkWith, hfin, hcached]
  cases s.finallyBlock with
  | some fin =>
    have hbranch : ∀ s' : GenBlocks, ((s'.stripDebug.createBranch cur fin).bind fun s =>
        some ((none : Option BlockRef), s)) =
          ((s'.createBranch cur fin).bind fun s => some (none, s)).map stripAt := by
      intro s'
      rw [stripDebug_createBranch]
      refine bind_map_eq (fun _ => ?_) _
      rfl
    cases s.cachedReturn with
    | none => exact hbranch (s.setCached (some (re, ri)))
    | some c =>
      simp only [Option.bind_eq_bind, stripDebug_destroy]
      exact bind_map_eq hbranch _
  | none =>
    simp only [Option.bind_eq_bind, h s cur]
    refine bind_map_eq (fun p => ?_) _
    simp only [stripAt, stripDebug_addReturn]
    refine bind_map_eq (fun s' => ?_) _
    rw [apply_ite (Option.map stripAt)]
    rfl

theorem strips_defer {undefer defer : BnodeTree} (hu : Strips kept fn undefer)
    (hd : Strips kept fn defer) : Strips kept fn (.deferStmt undefer defer) := by
  intro s cur
  have hlen : s.stripDebug.blocks.length = s.blocks.length := rfl
  have hpads : s.stripDebug.padBlockStack = s.padBlockStack := rfl
  rw [walkWith, walkWith]
  simp only [hlen, hpads, stripDebug_mkLLVMBlocks, stripDebug_leave, stripDebug_setPads, hu _ _]
  refine bind_map_eq (fun p => ?_) _
  simp only [stripAt, stripDebug_setPads, stripDebug_landAt, hd _ _]
  refine bind_map_eq (fun q => ?_) _
  rw [apply_ite (Option.map stripAt)]
  rfl

theorem strips_excep {body onexception finally_ : BnodeTree} (hasFinally : Bool)
    (hk : KeptStrips kept) (hb : Strips kept fn body) (ho : Strips kept fn onexception)
    (hf : Strips kept fn finally_) :
    Strips kept fn (.excepStmt body onexception hasFinally finally_) := by
  intro s cur
  have hlen : s.stripDebug.blocks.length = s.blocks.length := rfl
  have hpads : s.stripDebug.padBlockStack = s.padBlockStack := rfl
  have hcached : s.stripDebug.cachedReturn = s.cachedReturn := rfl
  rw [walkWith, walkWith, hlen, hpads, hcached]
  by_cases hg : s.padBlockStack = [] ∧ s.cachedReturn.isNone
  · simp only [guard, if_pos hg, Option.bind_eq_bind, stripDebug_mkLLVMBlocks, stripDebug_setPads,
      stripDebug_setFinally, hb _ _]
    refine bind_map_eq (fun p => ?_) _
    have hlen' : p.2.stripDebug.blocks.length = p.2.blocks.length := rfl
    simp only [stripAt, hlen', stripDebug_leave, stripDebug_mkLLVMBlocks, stripDebug_landAt,
      stripDebug_setPads, ho _ _]
    refine bind_map_eq (fun q => ?_) _
    simp only [stripAt, stripDebug_leave, stripDebug_landAt, stripDebug_setPads,
      stripDebug_setFinally, hf _ _]
    cases hasFinally with
    | false => rfl
    | true =>
      refine bind_map_eq (fun r => ?_) _
      have hcached' : r.2.stripDebug.cachedReturn = r.2.cachedReturn := rfl
      simp only [stripAt, hcached']
      cases r.2.cachedReturn with
      | none => rfl
      | some ret =>
        simp only [hk _ _ _]
        refine bind_map_eq (fun t => ?_) _
        simp only [stripAt, stripDebug_addReturn]
        refine bind_map_eq (fun s' => ?_) _
        rw [apply_ite (Option.map stripAt)]
        rfl
  · simp only [guard, if_neg hg]
    rfl

mutual
theorem strips (hk : KeptStrips kept) : ∀ n : BnodeTree, Strips kept fn n
  | .expr kids value insts => strips_expr value insts (allStrip hk kids)
  | .exprStmt e => by
    intro s cur
    rw [walkWith, walkWith]
    exact strips hk e s cur
  | .block vars stmts => strips_block vars (allStrip hk stmts)
  | .ifStmt cond trueBlock falseBlock =>
    strips_if (strips hk cond) (strips hk trueBlock) (strips hk falseBlock)
  | .switchStmt swvalue vals stmts => strips_switch vals (strips hk swvalue) (casesStrip hk stmts)
  | .gotoStmt label => strips_goto label
  | .labelStmt label => strips_label label
  | .returnStmt re ri => strips_return ri (strips hk re)
  | .deferStmt undefer defer => strips_defer (strips hk undefer) (strips hk defer)
  | .excepStmt body onexception hasFinally finally_ =>
    strips_excep hasFinally hk (strips hk body) (strips hk onexception) (strips hk finally_)
theorem allStrip (hk : KeptStrips kept) : ∀ ns : List BnodeTree, AllStrip kept fn ns
  | [] => fun _ _ => by
    rw [walkAllWith, walkAllWith]
    rfl
  | n :: ns => by
    intro s cur
    rw [walkAllWith, walkAllWith, strips hk n s cur]
    exact bind_map_eq (fun p => allStrip hk ns p.2 p.1) _
theorem casesStrip (hk : KeptStrips kept) : ∀ stmts : List BnodeTree, CasesStrip kept fn stmts
  | [] => fun _ _ _ => by
    rw [walkCasesWith, walkCasesWith]
    rfl
  | st :: stmts => by
    intro s b epilog
    rw [walkCasesWith, walkCasesWith, strips hk st s (some b)]
    refine bind_map_eq (fun p => ?_) _
    simp only [stripAt, stripDebug_branchTo]
    exact casesStrip hk stmts _ _ _
end

end Walk

theorem walk_strips (fn : Instructions) (s : GenBlocks) (cur : Option BlockRef) (n : BnodeTree) :
    walk fn s.stripDebug cur n = (walk fn s cur n).map stripAt :=
  strips (fun s cur n => strips (fun _ _ _ => rfl) n s cur) n s cur

/-! ## Whole functions -/

/-- `function_set_body`, with debug metadata or without it. -/
def setBody (debug : Bool) (f : Bfunction) (fn : Instructions) (code : BnodeTree) :
    Option GenBlocks := do
  let (block, s) ← walk fn (new debug (f.genProlog.map .inst)) (some 0) code
  let s ← s.finishFunction f
  match block with
  | none => some s
  | some b => some (s.fixupEpilogBlock b)

theorem functionSetBody_eq : functionSetBody = setBody true := rfl

theorem stripDebug_finishFunction (f : Bfunction) (s : GenBlocks) :
    s.stripDebug.finishFunction f = (s.finishFunction f).map stripDebug := by
  have hblocks : s.stripDebug.blocks = s.blocks := rfl
  unfold finishFunction
  rw [hblocks]
  cases s.blocks[0]? with
  | none => rfl
  | some entry =>
    simp only [Option.bind_eq_bind, Option.bind_some]
    cases f.fixupProlog entry with
    | none => rfl
    | some params =>
      simp only [Option.bind_some, Option.map_some]
      have hoff : s.stripDebug.createDebugMetaData = false := rfl
      rw [hoff, if_neg Bool.false_ne_true]
      split_ifs
      · rw [endFunction, stripDebug_processVars]
        rfl
      · rfl

theorem stripDebug_fixupEpilogBlock (s : GenBlocks) (b : BlockRef) :
    s.stripDebug.fixupEpilogBlock b = (s.fixupEpilogBlock b).stripDebug := by
  have hend : s.stripDebug.getTerminator b = s.getTerminator b := rfl
  unfold fixupEpilogBlock
  rw [hend]
  split_ifs <;> rfl

/-- Debug metadata does not change the code of a function: whether it is asked for or not, the
walk completes for the same trees, and leaves the same. -/
theorem setBody_stripDebug (debug : Bool) (f : Bfunction) (fn : Instructions) (code : BnodeTree) :
    setBody false f fn code = (setBody debug f fn code).map stripDebug := by
  have hnew : new false (f.genProlog.map .inst) =
      (new debug (f.genProlog.map .inst)).stripDebug := rfl
  unfold setBody
  rw [hnew, walk_strips]
  refine bind_map_eq (fun p => ?_) _
  simp only [stripAt, stripDebug_finishFunction]
  refine bind_map_eq (fun s => ?_) _
  cases p.1 with
  | none => rfl
  | some b => simp only [stripDebug_fixupEpilogBlock, Option.map_some]

end GenBlocks

end Dragongo
