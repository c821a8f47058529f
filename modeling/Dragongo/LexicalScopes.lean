import Dragongo.DebugVars

/-!
# Scopes for debugging

`DIBuildHelper` keeps a stack of scopes.  A block with variables of the program pushes its own
when it begins and pops it when it ends, and then its variables are declared in it.  Variables
that are still left when the function ends are declared in the function's scope.
-/

namespace Dragongo

/-- A node, by the way to it from the code of the function.  The last step comes first. -/
abbrev NodePath := List ℕ

/-- A lexical block is created for a node, and inside of another scope. -/
inductive DIScope
  | compileUnit
  | subprogram
  | lexicalBlock (parent : DIScope) (block : NodePath)
deriving DecidableEq, Repr

inductive DILocalVariable
  | auto (scope : DIScope) (v : Bvariable)
  | parameter (scope : DIScope) (p : Bparam) (argIdx : ℕ)
deriving DecidableEq, Repr

namespace DILocalVariable

def isAuto (v : Bvariable) : DILocalVariable → Bool
  | auto _ w => w = v
  | parameter .. => false

def isParameter : DILocalVariable → Bool
  | auto .. => false
  | parameter .. => true

end DILocalVariable

/-- The top of the stack comes first. -/
structure DIBuildHelper where
  diScopeStack : List DIScope
  declared : List Bvariable
  localVars : List DILocalVariable
deriving DecidableEq, Repr

/-- Whether a block has user-visible variables. -/
def interestingBlock (vars : List Bvariable) : Bool := vars.any fun v => !v.isTemporary

/-- What the walk of a block calls when it begins and when it ends. -/
inductive Hook
  | beginLexicalBlock (block : NodePath) (vars : List Bvariable)
  | endLexicalBlock (block : NodePath) (vars : List Bvariable)
deriving DecidableEq, Repr

namespace DIBuildHelper

/-- The constructor pushes the scope of the module. -/
def new : DIBuildHelper := ⟨[.compileUnit], [], []⟩

def pushDIScope (h : DIBuildHelper) (scope : DIScope) : DIBuildHelper :=
  { h with diScopeStack := scope :: h.diScopeStack }

def currentDIScope (h : DIBuildHelper) : Option DIScope := h.diScopeStack.head?

def popDIScope (h : DIBuildHelper) : Option (DIScope × DIBuildHelper) :=
  match h.diScopeStack with
  | [] => none
  | scope :: scopes => some (scope, { h with diScopeStack := scopes })

def beginFunction (h : DIBuildHelper) : DIBuildHelper := h.pushDIScope .subprogram

/-- `createAutoVariable` and what is remembered of it. -/
def declareAuto (h : DIBuildHelper) (scope : DIScope) (v : Bvariable) : DIBuildHelper :=
  { h with declared := v :: h.declared, localVars := h.localVars ++ [.auto scope v] }

def processVarsInBlock (h : DIBuildHelper) (scope : DIScope) : List Bvariable → DIBuildHelper
  | [] => h
  | v :: vars =>
    if v.isTemporary ∨ v ∈ h.declared then h.processVarsInBlock scope vars
    else (h.declareAuto scope v).processVarsInBlock scope vars

/-- The top block is the code of the function, and has no scope of its own. -/
def beginLexicalBlock (h : DIBuildHelper) (block : NodePath) (vars : List Bvariable) :
    Option DIBuildHelper :=
  if !interestingBlock vars || block = [] then some h
  else h.currentDIScope.map fun scope => h.pushDIScope (.lexicalBlock scope block)

def endLexicalBlock (h : DIBuildHelper) (block : NodePath) (vars : List Bvariable) :
    Option DIBuildHelper :=
  if !interestingBlock vars then some h
  else if block = [] then h.currentDIScope.map fun scope => h.processVarsInBlock scope vars
  else h.popDIScope.map fun (scope, h) => h.processVarsInBlock scope vars

def step (h : DIBuildHelper) : Hook → Option DIBuildHelper
  | .beginLexicalBlock block vars => h.beginLexicalBlock block vars
  | .endLexicalBlock block vars => h.endLexicalBlock block vars

def run (h : DIBuildHelper) (hooks : List Hook) : Option DIBuildHelper := hooks.foldlM step h

/-- `createParameterVariable` of all parameters. -/
def declareParameters (h : DIBuildHelper) (scope : DIScope) (params : List Bparam) :
    DIBuildHelper :=
  { h with
    localVars := h.localVars ++ params.zipIdx.map fun p => .parameter scope p.1 (p.2 + 1) }

/-- The scope has to be that of the function. -/
def endFunction (h : DIBuildHelper) (f : Bfunction) : Option DIBuildHelper := do
  let fscope ← h.currentDIScope
  guard (fscope = .subprogram)
  let h := (h.declareParameters fscope f.params).processVarsInBlock fscope f.localVariables
  let (_, h) ← h.popDIScope
  some h

end DIBuildHelper

/-! ## The walk -/

namespace BnodeTree

mutual
/-- The expressions of the return statements, in order. -/
def returnsAt (p : NodePath) : BnodeTree → List (NodePath × BnodeTree)
  | expr kids _ _ => returnsAtAll p 0 kids
  | exprStmt e => e.returnsAt (0 :: p)
  | block _ stmts => returnsAtAll p 0 stmts
  | ifStmt cond trueBlock falseBlock =>
    cond.returnsAt (0 :: p) ++ trueBlock.returnsAt (1 :: p) ++ falseBlock.returnsAt (2 :: p)
  | switchStmt swvalue _ stmts => swvalue.returnsAt (0 :: p) ++ returnsAtAll p 1 stmts
  | gotoStmt _ | labelStmt _ => []
  | returnStmt re _ => [(0 :: p, re)]
  | deferStmt undefer defer => undefer.returnsAt (0 :: p) ++ defer.returnsAt (1 :: p)
  | excepStmt body onexception _ finally_ =>
    body.returnsAt (0 :: p) ++ onexception.returnsAt (1 :: p) ++ finally_.returnsAt (2 :: p)
def returnsAtAll (p : NodePath) (k : ℕ) : List BnodeTree → List (NodePath × BnodeTree)
  | [] => []
  | n :: ns => n.returnsAt (k :: p) ++ returnsAtAll p (k + 1) ns
end

end BnodeTree

/-- The walk of a return that has been kept for the end of a finally part. -/
def keptReturnHooks (kept : NodePath → BnodeTree → List Hook) :
    Option (NodePath × BnodeTree) → List Hook
  | none => []
  | some (p, re) => kept p re

mutual
/-- The calls of the walk, where `fin` says that a return goes to a finally part, and `kept`
gives the calls for a return's expression that comes after one.  The expressions of the other
returns to it are deleted. -/
def hooksWith (kept : NodePath → BnodeTree → List Hook) (fin : Bool) (p : NodePath) :
    BnodeTree → List Hook
  | .expr kids _ _ => hooksAllWith kept fin p 0 kids
  | .exprStmt e => hooksWith kept fin (0 :: p) e
  | .block vars stmts =>
    .beginLexicalBlock p vars :: (hooksAllWith kept fin p 0 stmts ++ [.endLexicalBlock p vars])
  | .ifStmt cond trueBlock falseBlock =>
    hooksWith kept fin (0 :: p) cond ++ hooksWith kept fin (1 :: p) trueBlock ++
      hooksWith kept fin (2 :: p) falseBlock
  | .switchStmt swvalue _ stmts =>
    hooksWith kept fin (0 :: p) swvalue ++ hooksAllWith kept fin p 1 stmts
  | .gotoStmt _ | .labelStmt _ => []
  | .returnStmt re _ => if fin then [] else hooksWith kept fin (0 :: p) re
  | .deferStmt undefer defer =>
    hooksWith kept fin (0 :: p) undefer ++ hooksWith kept fin (1 :: p) defer
  | .excepStmt body onexception hasFinally finally_ =>
    hooksWith kept hasFinally (0 :: p) body ++ hooksWith kept hasFinally (1 :: p) onexception ++
      if hasFinally then
        hooksWith kept false (2 :: p) finally_ ++
          keptReturnHooks kept (body.returnsAt (0 :: p) ++ onexception.returnsAt (1 :: p)).head?
      else []
def hooksAllWith (kept : NodePath → BnodeTree → List Hook) (fin : Bool) (p : NodePath) (k : ℕ) :
    List BnodeTree → List Hook
  | [] => []
  | n :: ns => hooksWith kept fin (k :: p) n ++ hooksAllWith kept fin p (k + 1) ns
end

def keptHooks : NodePath → BnodeTree → List Hook := hooksWith (fun _ _ => []) false

/-- The calls of the walk of a function's code. -/
def hooks (code : BnodeTree) : List Hook := hooksWith keptHooks false [] code

/-! ## The blocks of the source -/

structure ScopedBlock where
  vars : List Bvariable
  scope : DIScope
deriving DecidableEq, Repr

/-- The scope of a block that is inside of another one.  Without variables of the program it is
the same, and the top block's is that of the function. -/
def blockScope (scope : DIScope) (p : NodePath) (vars : List Bvariable) : DIScope :=
  if interestingBlock vars ∧ p ≠ [] then .lexicalBlock scope p else scope

mutual
/-- The blocks with the scopes that their nesting gives them. -/
def scopedBlocks (scope : DIScope) (p : NodePath) : BnodeTree → List ScopedBlock
  | .expr kids _ _ => scopedBlocksAll scope p 0 kids
  | .exprStmt e => scopedBlocks scope (0 :: p) e
  | .block vars stmts =>
    ⟨vars, blockScope scope p vars⟩ :: scopedBlocksAll (blockScope scope p vars) p 0 stmts
  | .ifStmt cond trueBlock falseBlock =>
    scopedBlocks scope (0 :: p) cond ++ scopedBlocks scope (1 :: p) trueBlock ++
      scopedBlocks scope (2 :: p) falseBlock
  | .switchStmt swvalue _ stmts =>
    scopedBlocks scope (0 :: p) swvalue ++ scopedBlocksAll scope p 1 stmts
  | .gotoStmt _ | .labelStmt _ => []
  | .returnStmt re _ => scopedBlocks scope (0 :: p) re
  | .deferStmt undefer defer =>
    scopedBlocks scope (0 :: p) undefer ++ scopedBlocks scope (1 :: p) defer
  | .excepStmt body onexception hasFinally finally_ =>
    scopedBlocks scope (0 :: p) body ++ scopedBlocks scope (1 :: p) onexception ++
      if hasFinally then scopedBlocks scope (2 :: p) finally_ else []
def scopedBlocksAll (scope : DIScope) (p : NodePath) (k : ℕ) : List BnodeTree → List ScopedBlock
  | [] => []
  | n :: ns => scopedBlocks scope (k :: p) n ++ scopedBlocksAll scope p (k + 1) ns
end

namespace BnodeTree

mutual
/-- The variables of the blocks, block by block. -/
def blockVars : BnodeTree → List (List Bvariable)
  | expr kids _ _ => blockVarsAll kids
  | exprStmt e => e.blockVars
  | block vars stmts => vars :: blockVarsAll stmts
  | ifStmt cond trueBlock falseBlock =>
    cond.blockVars ++ trueBlock.blockVars ++ falseBlock.blockVars
  | switchStmt swvalue _ stmts => swvalue.blockVars ++ blockVarsAll stmts
  | gotoStmt _ | labelStmt _ => []
  | returnStmt re _ => re.blockVars
  | deferStmt undefer defer => undefer.blockVars ++ defer.blockVars
  | excepStmt body onexception _ finally_ =>
    body.blockVars ++ onexception.blockVars ++ finally_.blockVars
def blockVarsAll : List BnodeTree → List (List Bvariable)
  | [] => []
  | n :: ns => n.blockVars ++ blockVarsAll ns
end

mutual
/-- A return to a finally part has no block with variables of the program in its expression, and
no exception statement is inside of one that has such returns. -/
def plainReturns (fin : Bool) : BnodeTree → Bool
  | expr kids _ _ => plainReturnsAll fin kids
  | exprStmt e => e.plainReturns fin
  | block _ stmts => plainReturnsAll fin stmts
  | ifStmt cond trueBlock falseBlock =>
    cond.plainReturns fin && trueBlock.plainReturns fin && falseBlock.plainReturns fin
  | switchStmt swvalue _ stmts => swvalue.plainReturns fin && plainReturnsAll fin stmts
  | gotoStmt _ | labelStmt _ => true
  | returnStmt re _ =>
    if fin then re.blockVars.all (!interestingBlock ·) else re.plainReturns fin
  | deferStmt undefer defer => undefer.plainReturns fin && defer.plainReturns fin
  | excepStmt body onexception hasFinally finally_ =>
    !fin && (body.plainReturns hasFinally && onexception.plainReturns hasFinally &&
      finally_.plainReturns false)
def plainReturnsAll (fin : Bool) : List BnodeTree → Bool
  | [] => true
  | n :: ns => n.plainReturns fin && plainReturnsAll fin ns
end

end BnodeTree

/-! ## What is declared -/

/-- The variables that are declared after some more of them. -/
def declareVars (declared : List Bvariable) : List Bvariable → List Bvariable
  | [] => declared
  | v :: vars =>
    if v.isTemporary ∨ v ∈ declared then declareVars declared vars
    else declareVars (v :: declared) vars

theorem Effects.processVars_declared (a : Effects) (vars : List Bvariable) :
    (a.processVars vars).declared = declareVars a.declared vars := by
  induction vars generalizing a with
  | nil => rfl
  | cons v vars ih =>
    rw [processVars, declareVars]
    split_ifs
    · exact ih a
    · rw [insertVarDecl_eq]
      exact ih _

namespace DIBuildHelper

variable (h : DIBuildHelper) {v : Bvariable}

def declarationsOf (v : Bvariable) : List DILocalVariable := h.localVars.filter (·.isAuto v)

/-- The variables of several blocks, each in its scope. -/
def processAll (blocks : List ScopedBlock) : DIBuildHelper :=
  blocks.foldl (fun h b => h.processVarsInBlock b.scope b.vars) h

theorem processVarsInBlock_stack (scope : DIScope) (vars : List Bvariable) :
    (h.processVarsInBlock scope vars).diScopeStack = h.diScopeStack := by
  induction vars generalizing h with
  | nil => rfl
  | cons v vars ih =>
    rw [processVarsInBlock]
    split_ifs
    · exact ih h
    · exact ih _

/-- The stack does not matter to the variables of a block. -/
theorem processVarsInBlock_withStack (scope : DIScope) (vars : List Bvariable)
    (scopes : List DIScope) :
    { h with diScopeStack := scopes }.processVarsInBlock scope vars =
      { h.processVarsInBlock scope vars with diScopeStack := scopes } := by
  induction vars generalizing h with
  | nil => rfl
  | cons v vars ih =>
    rw [processVarsInBlock, processVarsInBlock]
    split_ifs
    · exact ih h
    · exact ih (h.declareAuto scope v)

theorem processVarsInBlock_declared (scope : DIScope) (vars : List Bvariable) :
    (h.processVarsInBlock scope vars).declared = declareVars h.declared vars := by
  induction vars generalizing h with
  | nil => rfl
  | cons v vars ih =>
    rw [processVarsInBlock, declareVars]
    split_ifs
    · exact ih h
    · exact ih (h.declareAuto scope v)

theorem mem_processVarsInBlock_declared (scope : DIScope) (vars : List Bvariable) :
    v ∈ (h.processVarsInBlock scope vars).declared ↔
      v ∈ h.declared ∨ ¬v.isTemporary ∧ v ∈ vars := by
  let a : Effects := ⟨fun _ => false, fun _ => false, h.declared, []⟩
  rw [processVarsInBlock_declared, ← Effects.processVars_declared a,
    Effects.mem_processVars_declared]

/-- A variable that has been declared is not declared again. -/
theorem declarationsOf_of_declared (scope : DIScope) (vars : List Bvariable)
    (hv : v ∈ h.declared) :
    (h.processVarsInBlock scope vars).declarationsOf v = h.declarationsOf v := by
  induction vars generalizing h with
  | nil => rfl
  | cons w vars ih =>
    rw [processVarsInBlock]
    split_ifs with hw
    · exact ih h hv
    · rw [ih _ (.tail _ hv)]
      have hne : w ≠ v := fun hwv => hw (Or.inr (hwv ▸ hv))
      simp [declarationsOf, declareAuto, DILocalVariable.isAuto, hne]

theorem declarationsOf_of_notMem (scope : DIScope) (vars : List Bvariable) (hv : v ∉ vars) :
    (h.processVarsInBlock scope vars).declarationsOf v = h.declarationsOf v := by
  induction vars generalizing h with
  | nil => rfl
  | cons w vars ih =>
    obtain ⟨hne, hv⟩ := not_or.mp (List.mem_cons.not.mp hv)
    rw [processVarsInBlock]
    split_ifs
    · exact ih h hv
    · rw [ih _ hv]
      simp [declarationsOf, declareAuto, DILocalVariable.isAuto, Ne.symm hne]

theorem declarationsOf_of_mem (scope : DIScope) (vars : List Bvariable) (hv : v ∉ h.declared)
    (ht : ¬v.isTemporary) (hmem : v ∈ vars) :
    (h.processVarsInBlock scope vars).declarationsOf v =
      h.declarationsOf v ++ [.auto scope v] := by
  induction vars generalizing h with
  | nil => cases hmem
  | cons w vars ih =>
    rw [processVarsInBlock]
    by_cases hwv : w = v
    · subst hwv
      rw [if_neg (not_or.mpr ⟨ht, hv⟩), declarationsOf_of_declared _ _ _ List.mem_cons_self]
      simp [declarationsOf, declareAuto, DILocalVariable.isAuto]
    · have hmem : v ∈ vars := (List.mem_cons.mp hmem).resolve_left (Ne.symm hwv)
      split_ifs with hw
      · exact ih h hv hmem
      · have hv' : v ∉ (h.declareAuto scope w).declared := by
          simp [declareAuto, hv, Ne.symm hwv]
        rw [ih _ hv' hmem]
        simp [declarationsOf, declareAuto, DILocalVariable.isAuto, hwv]

/-! ### Several blocks -/

variable (blocks : List ScopedBlock)

theorem processAll_append (blocks' : List ScopedBlock) :
    h.processAll (blocks ++ blocks') = (h.processAll blocks).processAll blocks' :=
  List.foldl_append

theorem processAll_stack : (h.processAll blocks).diScopeStack = h.diScopeStack := by
  induction blocks generalizing h with
  | nil => rfl
  | cons b blocks ih => exact (ih _).trans (h.processVarsInBlock_stack b.scope b.vars)

theorem mem_processAll_declared : v ∈ (h.processAll blocks).declared ↔
    v ∈ h.declared ∨ ¬v.isTemporary ∧ ∃ b ∈ blocks, v ∈ b.vars := by
  induction blocks generalizing h with
  | nil => simp [processAll]
  | cons b blocks ih =>
    have hcons : h.processAll (b :: blocks) =
        (h.processVarsInBlock b.scope b.vars).processAll blocks := rfl
    rw [hcons, ih, mem_processVarsInBlock_declared, List.exists_mem_cons_iff, or_assoc,
      and_or_left]

theorem processAll_declarationsOf_of_declared (hv : v ∈ h.declared) :
    (h.processAll blocks).declarationsOf v = h.declarationsOf v := by
  induction blocks generalizing h with
  | nil => rfl
  | cons b blocks ih =>
    refine (ih _ ?_).trans (h.declarationsOf_of_declared b.scope b.vars hv)
    exact (h.mem_processVarsInBlock_declared b.scope b.vars).mpr (Or.inl hv)

theorem processAll_declarationsOf_of_notMem (hv : ∀ b ∈ blocks, v ∉ b.vars) :
    (h.processAll blocks).declarationsOf v = h.declarationsOf v := by
  induction blocks generalizing h with
  | nil => rfl
  | cons b blocks ih =>
    refine (ih _ fun b' hb' => hv b' (.tail _ hb')).trans ?_
    exact h.declarationsOf_of_notMem b.scope b.vars (hv b (.head _))

/-- The first block of a variable is the one that it is declared in. -/
theorem processAll_declarationsOf_of_mem (hv : v ∉ h.declared) (ht : ¬v.isTemporary)
    (hmem : ∃ b ∈ blocks, v ∈ b.vars) :
    ∃ b ∈ blocks, v ∈ b.vars ∧
      (h.processAll blocks).declarationsOf v = h.declarationsOf v ++ [.auto b.scope v] := by
  induction blocks generalizing h with
  | nil => simp at hmem
  | cons b blocks ih =>
    by_cases hb : v ∈ b.vars
    · refine ⟨b, .head _, hb, ?_⟩
      refine (processAll_declarationsOf_of_declared _ blocks ?_).trans
        (h.declarationsOf_of_mem b.scope b.vars hv ht hb)
      exact (h.mem_processVarsInBlock_declared b.scope b.vars).mpr (Or.inr ⟨ht, hb⟩)
    · have hlater : ∃ b ∈ blocks, v ∈ b.vars :=
        ((List.exists_mem_cons_iff ..).mp hmem).resolve_left hb
      have hv' : v ∉ (h.processVarsInBlock b.scope b.vars).declared := fun hmem' =>
        ((h.mem_processVarsInBlock_declared b.scope b.vars).mp hmem').elim hv fun hmem' =>
          hb hmem'.2
      obtain ⟨b', hb', hmem', heq⟩ := ih _ hv' hlater
      refine ⟨b', .tail _ hb', hmem', heq.trans ?_⟩
      rw [h.declarationsOf_of_notMem b.scope b.vars hb]

/-! ### Runs -/

theorem run_nil : h.run [] = some h := rfl

theorem run_append (hooks hooks' : List Hook) :
    h.run (hooks ++ hooks') = (h.run hooks).bind fun h => h.run hooks' := by
  rw [run, List.foldlM_append]
  rfl

end DIBuildHelper

/-! ## What the walk declares -/

/-- The calls leave the stack as it was, and declare the variables of some blocks.  Where returns
to finally parts are plain, these are the blocks of the source. -/
def Declares (hooks : List Hook) (scope : DIScope) (vars : List (List Bvariable)) (plain : Bool)
    (blocks : List ScopedBlock) : Prop :=
  ∃ ended : List ScopedBlock,
    (∀ h : DIBuildHelper, h.currentDIScope = some scope →
      h.run hooks = some (h.processAll ended)) ∧
    (∀ b ∈ ended, b.vars ∈ vars) ∧
    (plain → ∀ b, interestingBlock b.vars → (b ∈ ended ↔ b ∈ blocks))

namespace Declares

variable {hooks hooks' : List Hook} {scope : DIScope} {vars vars' : List (List Bvariable)}
  {plain plain' : Bool} {blocks blocks' : List ScopedBlock}

theorem nil (scope : DIScope) : Declares [] scope [] true [] :=
  ⟨[], fun _ _ => rfl, by simp, by simp⟩

theorem append (hd : Declares hooks scope vars plain blocks)
    (hd' : Declares hooks' scope vars' plain' blocks') :
    Declares (hooks ++ hooks') scope (vars ++ vars') (plain && plain') (blocks ++ blocks') := by
  obtain ⟨ended, hrun, hvars, hblocks⟩ := hd
  obtain ⟨ended', hrun', hvars', hblocks'⟩ := hd'
  refine ⟨ended ++ ended', fun h hscope => ?_, fun b hb => ?_, fun hplain b hb => ?_⟩
  · rw [DIBuildHelper.run_append, hrun h hscope, Option.bind_some, hrun',
      DIBuildHelper.processAll_append]
    rw [DIBuildHelper.currentDIScope, DIBuildHelper.processAll_stack]
    exact hscope
  · rcases List.mem_append.mp hb with hb | hb
    · exact List.mem_append_left _ (hvars b hb)
    · exact List.mem_append_right _ (hvars' b hb)
  · obtain ⟨hp, hp'⟩ := Bool.and_eq_true_iff.mp hplain
    rw [List.mem_append, List.mem_append, hblocks hp b hb, hblocks' hp' b hb]

/-- Hooks that call nothing, where there is nothing to declare. -/
theorem skip (hblocks : plain → ∀ b ∈ blocks, ¬interestingBlock b.vars) :
    Declares [] scope vars plain blocks := by
  refine ⟨[], fun _ _ => rfl, by simp, fun hplain b hb => ?_⟩
  simpa using fun hmem => hblocks hplain b hmem hb

theorem mono (hd : Declares hooks scope vars plain blocks) (hvars : ∀ x ∈ vars, x ∈ vars')
    (hplain : plain' → plain)
    (hblocks : plain' → ∀ b, interestingBlock b.vars → (b ∈ blocks ↔ b ∈ blocks')) :
    Declares hooks scope vars' plain' blocks' := by
  obtain ⟨ended, hrun, hended, hsame⟩ := hd
  refine ⟨ended, hrun, fun b hb => hvars _ (hended b hb), fun hp b hb => ?_⟩
  exact (hsame (hplain hp) b hb).trans (hblocks hp b hb)

section Block

variable {p : NodePath} {own : List Bvariable} (h : DIBuildHelper)

theorem processVarsInBlock_of_not_interesting (howns : ¬interestingBlock own) :
    h.processVarsInBlock scope own = h := by
  induction own with
  | nil => rfl
  | cons v own ih =>
    obtain ⟨hv, hown⟩ : v.isTemporary ∧ ¬interestingBlock own := by
      simpa [interestingBlock] using howns
    rw [DIBuildHelper.processVarsInBlock, if_pos (Or.inl hv), ih hown]

theorem processAll_withStack (ended : List ScopedBlock) (scopes : List DIScope) :
    { h with diScopeStack := scopes }.processAll ended =
      { h.processAll ended with diScopeStack := scopes } := by
  induction ended generalizing h with
  | nil => rfl
  | cons b ended ih =>
    have hcons : ∀ h : DIBuildHelper, h.processAll (b :: ended) =
        (h.processVarsInBlock b.scope b.vars).processAll ended := fun _ => rfl
    rw [hcons, hcons, DIBuildHelper.processVarsInBlock_withStack, ih]

theorem run_block : h.run (.beginLexicalBlock p own :: (hooks ++ [.endLexicalBlock p own])) =
    ((h.beginLexicalBlock p own).bind fun h => h.run hooks).bind fun h =>
      h.endLexicalBlock p own := by
  have hone : ∀ hook : Hook, ∀ h : DIBuildHelper, h.run [hook] = h.step hook := fun hook h => by
    simp [DIBuildHelper.run]
  rw [← List.singleton_append, ← List.append_assoc, DIBuildHelper.run_append,
    DIBuildHelper.run_append, hone]
  simp only [hone]
  rfl

theorem beginLexicalBlock_skip (hskip : ¬(interestingBlock own ∧ p ≠ [])) :
    h.beginLexicalBlock p own = some h := by
  rw [DIBuildHelper.beginLexicalBlock, if_pos]
  rw [Bool.or_eq_true, Bool.not_eq_true', decide_eq_true_eq]
  by_cases hown : interestingBlock own = true
  · exact Or.inr (Decidable.not_not.mp fun hp => hskip ⟨hown, hp⟩)
  · exact Or.inl (Bool.eq_false_iff.mpr hown)

theorem beginLexicalBlock_push (hscope : h.currentDIScope = some scope)
    (hpush : interestingBlock own ∧ p ≠ []) :
    h.beginLexicalBlock p own = some (h.pushDIScope (.lexicalBlock scope p)) := by
  rw [DIBuildHelper.beginLexicalBlock, if_neg (by simp [hpush.1, hpush.2]), hscope]
  rfl

/-- Without a scope of its own a block is declared in the one that is there. -/
theorem endLexicalBlock_skip (hscope : h.currentDIScope = some scope)
    (hskip : ¬(interestingBlock own ∧ p ≠ [])) :
    h.endLexicalBlock p own = some (h.processVarsInBlock scope own) := by
  rw [DIBuildHelper.endLexicalBlock]
  by_cases hown : interestingBlock own = true
  · rw [if_neg (by simp [hown]), if_pos (Decidable.not_not.mp fun hp => hskip ⟨hown, hp⟩), hscope]
    rfl
  · rw [if_pos (by simpa using hown), processVarsInBlock_of_not_interesting h hown]

/-- What was pushed is popped. -/
theorem endLexicalBlock_pop (hpush : interestingBlock own ∧ p ≠ []) {inner : DIScope}
    {scopes : List DIScope} :
    { h with diScopeStack := inner :: scopes }.endLexicalBlock p own =
      some ({ h with diScopeStack := scopes }.processVarsInBlock inner own) := by
  rw [DIBuildHelper.endLexicalBlock, if_neg (by simp [hpush.1]), if_neg hpush.2]
  rfl

/-- Between the two calls of a block its own scope is on top. -/
theorem block (hd : Declares hooks (blockScope scope p own) vars plain blocks) :
    Declares (.beginLexicalBlock p own :: (hooks ++ [.endLexicalBlock p own])) scope
      (own :: vars) plain (⟨own, blockScope scope p own⟩ :: blocks) := by
  obtain ⟨ended, hrun, hvars, hblocks⟩ := hd
  refine ⟨ended ++ [⟨own, blockScope scope p own⟩], fun h hscope => ?_, fun b hb => ?_,
    fun hplain b hb => ?_⟩
  · rw [run_block, DIBuildHelper.processAll_append]
    by_cases hpush : interestingBlock own ∧ p ≠ []
    · rw [blockScope, if_pos hpush] at hrun ⊢
      rw [beginLexicalBlock_push h hscope hpush, Option.bind_some, hrun _ rfl, Option.bind_some,
        DIBuildHelper.pushDIScope, processAll_withStack, endLexicalBlock_pop _ hpush,
        ← h.processAll_stack ended]
      rfl
    · rw [blockScope, if_neg hpush] at hrun ⊢
      have hscope' : (h.processAll ended).currentDIScope = some scope := by
        rw [DIBuildHelper.currentDIScope, DIBuildHelper.processAll_stack]
        exact hscope
      rw [beginLexicalBlock_skip h hpush, Option.bind_some, hrun h hscope, Option.bind_some,
        endLexicalBlock_skip _ hscope' hpush]
      rfl
  · rcases List.mem_append.mp hb with hb | hb
    · exact List.mem_cons_of_mem _ (hvars b hb)
    · rw [List.mem_singleton.mp hb]
      exact List.mem_cons_self
  · rw [List.mem_append, List.mem_singleton, List.mem_cons, hblocks hplain b hb, or_comm]

end Block

end Declares

/-! ## The blocks of a statement -/

namespace BnodeTree

mutual
theorem scopedBlocks_vars (scope : DIScope) (p : NodePath) :
    ∀ n : BnodeTree, ∀ b ∈ scopedBlocks scope p n, b.vars ∈ n.blockVars
  | expr kids _ _ => scopedBlocksAll_vars scope p 0 kids
  | exprStmt e => scopedBlocks_vars scope (0 :: p) e
  | block vars stmts => by
    intro b hb
    rw [blockVars, List.mem_cons]
    rcases List.mem_cons.mp hb with rfl | hb
    · exact Or.inl rfl
    · exact Or.inr (scopedBlocksAll_vars _ p 0 stmts b hb)
  | ifStmt cond trueBlock falseBlock => by
    intro b hb
    simp only [scopedBlocks, List.mem_append] at hb
    simp only [blockVars, List.mem_append]
    exact hb.imp (Or.imp (scopedBlocks_vars _ _ cond b) (scopedBlocks_vars _ _ trueBlock b))
      (scopedBlocks_vars _ _ falseBlock b)
  | switchStmt swvalue _ stmts => by
    intro b hb
    simp only [scopedBlocks, List.mem_append] at hb
    simp only [blockVars, List.mem_append]
    exact hb.imp (scopedBlocks_vars _ _ swvalue b) (scopedBlocksAll_vars _ p 1 stmts b)
  | gotoStmt _ => nofun
  | labelStmt _ => nofun
  | returnStmt re _ => scopedBlocks_vars scope (0 :: p) re
  | deferStmt undefer defer => by
    intro b hb
    simp only [scopedBlocks, List.mem_append] at hb
    simp only [blockVars, List.mem_append]
    exact hb.imp (scopedBlocks_vars _ _ undefer b) (scopedBlocks_vars _ _ defer b)
  | excepStmt body onexception hasFinally finally_ => by
    intro b hb
    simp only [scopedBlocks, List.mem_append, List.mem_ite_nil_right] at hb
    simp only [blockVars, List.mem_append]
    exact hb.imp (Or.imp (scopedBlocks_vars _ _ body b) (scopedBlocks_vars _ _ onexception b))
      fun hb => scopedBlocks_vars _ _ finally_ b hb.2
theorem scopedBlocksAll_vars (scope : DIScope) (p : NodePath) (k : ℕ) :
    ∀ ns : List BnodeTree, ∀ b ∈ scopedBlocksAll scope p k ns, b.vars ∈ blockVarsAll ns
  | [] => nofun
  | n :: ns => by
    intro b hb
    simp only [scopedBlocksAll, List.mem_append] at hb
    simp only [blockVarsAll, List.mem_append]
    exact hb.imp (scopedBlocks_vars _ _ n b) (scopedBlocksAll_vars _ p (k + 1) ns b)
end

/-- The expression of a return is a part of the statement.  As one to a finally part it has no
variables of the program. -/
def ReturnsPlain (vars : List (List Bvariable)) (plain : Bool) (rs : List (NodePath × BnodeTree)) :
    Prop :=
  ∀ r ∈ rs, ∀ x ∈ r.2.blockVars, x ∈ vars ∧ (plain → ¬interestingBlock x)

theorem ReturnsPlain.append {vars vars' : List (List Bvariable)} {plain plain' : Bool}
    {rs rs' : List (NodePath × BnodeTree)} (h : ReturnsPlain vars plain rs)
    (h' : ReturnsPlain vars' plain' rs') :
    ReturnsPlain (vars ++ vars') (plain && plain') (rs ++ rs') := by
  intro r hr x hx
  rcases List.mem_append.mp hr with hr | hr
  · obtain ⟨hmem, hplain⟩ := h r hr x hx
    exact ⟨List.mem_append_left _ hmem, fun hp => hplain (Bool.and_eq_true_iff.mp hp).1⟩
  · obtain ⟨hmem, hplain⟩ := h' r hr x hx
    exact ⟨List.mem_append_right _ hmem, fun hp => hplain (Bool.and_eq_true_iff.mp hp).2⟩

mutual
theorem returnsPlain (p : NodePath) :
    ∀ n : BnodeTree, ReturnsPlain n.blockVars (n.plainReturns true) (n.returnsAt p)
  | expr kids _ _ => returnsPlainAll p 0 kids
  | exprStmt e => returnsPlain (0 :: p) e
  | block vars stmts => fun r hr x hx =>
    (returnsPlainAll p 0 stmts r hr x hx).imp_left (List.mem_cons_of_mem vars)
  | ifStmt cond trueBlock falseBlock =>
    ((returnsPlain _ cond).append (returnsPlain _ trueBlock)).append (returnsPlain _ falseBlock)
  | switchStmt swvalue _ stmts => (returnsPlain _ swvalue).append (returnsPlainAll p 1 stmts)
  | gotoStmt _ => nofun
  | labelStmt _ => nofun
  | returnStmt re _ => by
    intro r hr x hx
    cases List.mem_singleton.mp hr
    refine ⟨hx, fun hplain => ?_⟩
    simpa using List.all_eq_true.mp hplain x hx
  | deferStmt undefer defer => (returnsPlain _ undefer).append (returnsPlain _ defer)
  | excepStmt body onexception _ finally_ => by
    intro r hr x hx
    refine ⟨?_, fun hplain => nomatch hplain⟩
    simp only [returnsAt, List.mem_append] at hr
    simp only [blockVars, List.mem_append]
    exact hr.imp (Or.imp (fun hr => (returnsPlain _ body r hr x hx).1)
      fun hr => (returnsPlain _ onexception r hr x hx).1)
      fun hr => (returnsPlain _ finally_ r hr x hx).1
theorem returnsPlainAll (p : NodePath) (k : ℕ) : ∀ ns : List BnodeTree,
    ReturnsPlain (blockVarsAll ns) (plainReturnsAll true ns) (returnsAtAll p k ns)
  | [] => nofun
  | n :: ns => (returnsPlain _ n).append (returnsPlainAll p (k + 1) ns)
end

end BnodeTree

/-! ## The run of a statement -/

namespace Declares
open BnodeTree

variable {kept : NodePath → BnodeTree → List Hook} {scope : DIScope}

/-- The return that comes after a finally part has nothing to declare. -/
theorem keptReturn {vars : List (List Bvariable)} {plain : Bool}
    {rs : List (NodePath × BnodeTree)}
    (hk : ∀ p re, Declares (kept p re) scope re.blockVars false [])
    (hrs : ReturnsPlain vars plain rs) :
    Declares (keptReturnHooks kept rs.head?) scope vars plain [] := by
  cases hhead : rs.head? with
  | none => exact skip fun _ => nofun
  | some r =>
    have hr : r ∈ rs := List.mem_of_head? hhead
    obtain ⟨ended, hrun, hended, -⟩ := hk r.1 r.2
    refine ⟨ended, hrun, fun b hb => (hrs r hr _ (hended b hb)).1, fun hplain b hb => ?_⟩
    simpa using fun hmem => (hrs r hr _ (hended b hmem)).2 hplain hb

mutual
theorem of_hooks (hk : ∀ scope p re, Declares (kept p re) scope re.blockVars false [])
    (fin : Bool) (p : NodePath) (scope : DIScope) : ∀ n : BnodeTree,
    Declares (hooksWith kept fin p n) scope n.blockVars (n.plainReturns fin)
      (scopedBlocks scope p n)
  | .expr kids _ _ => of_hooksAll hk fin p 0 scope kids
  | .exprStmt e => of_hooks hk fin (0 :: p) scope e
  | .block vars stmts => (of_hooksAll hk fin p 0 (blockScope scope p vars) stmts).block
  | .ifStmt cond trueBlock falseBlock =>
    ((of_hooks hk fin _ scope cond).append (of_hooks hk fin _ scope trueBlock)).append
      (of_hooks hk fin _ scope falseBlock)
  | .switchStmt swvalue _ stmts =>
    (of_hooks hk fin _ scope swvalue).append (of_hooksAll hk fin p 1 scope stmts)
  | .gotoStmt _ => .nil scope
  | .labelStmt _ => .nil scope
  | .returnStmt re _ => by
    cases fin with
    | false => exact of_hooks hk false _ scope re
    | true =>
      refine skip fun hplain b hb => ?_
      simpa using List.all_eq_true.mp hplain b.vars (scopedBlocks_vars _ _ re b hb)
  | .deferStmt undefer defer =>
    (of_hooks hk fin _ scope undefer).append (of_hooks hk fin _ scope defer)
  | .excepStmt body onexception hasFinally finally_ => by
    have hbody := of_hooks hk hasFinally (0 :: p) scope body
    have hcatch := of_hooks hk hasFinally (1 :: p) scope onexception
    cases hasFinally with
    | false =>
      refine ((hbody.append hcatch).append (.nil scope)).mono (fun x hx => ?_) (fun hplain => ?_)
        fun _ b _ => Iff.rfl
      · rw [List.append_nil] at hx
        exact List.mem_append_left _ hx
      · simp only [plainReturns, Bool.and_eq_true] at hplain
        simpa using hplain.2.1
    | true =>
      have hkept := keptReturn (hk scope)
        ((returnsPlain (0 :: p) body).append (returnsPlain (1 :: p) onexception))
      have hfin := of_hooks hk false (2 :: p) scope finally_
      refine ((hbody.append hcatch).append (hfin.append hkept)).mono (fun x hx => ?_)
        (fun hplain => ?_) fun _ b _ => ?_
      · simp only [List.mem_append] at hx
        simp only [blockVars, List.mem_append]
        tauto
      · simp only [plainReturns, Bool.and_eq_true] at hplain
        simp [hplain.2.1, hplain.2.2]
      · rw [List.append_nil]
        rfl
theorem of_hooksAll (hk : ∀ scope p re, Declares (kept p re) scope re.blockVars false [])
    (fin : Bool) (p : NodePath) (k : ℕ) (scope : DIScope) : ∀ ns : List BnodeTree,
    Declares (hooksAllWith kept fin p k ns) scope (blockVarsAll ns) (plainReturnsAll fin ns)
      (scopedBlocksAll scope p k ns)
  | [] => .nil scope
  | n :: ns => (of_hooks hk fin _ scope n).append (of_hooksAll hk fin p (k + 1) scope ns)
end

end Declares

end Dragongo
