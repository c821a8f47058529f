import Mathlib.Data.Int.Notation
import Dragongo.Bnode

/-!
# Lowering statements to basic blocks

`GenBlocks` walks a tree of expressions and statements, puts its instructions into the basic
blocks of a function and makes the transfers of control between them.
-/

namespace Dragongo

abbrev LabelId := ℕ

abbrev BlockRef := ℕ

/-- A local variable.  `initializer` is the instruction recorded for it, if there is one. -/
structure Bvariable where
  id : ℕ
  isTemporary : Bool
  initializer : Option InstRef
deriving DecidableEq, Repr

/-- A node with all that is below it.  The instruction of a return statement comes last in its
expression, and a statement without an else part or a finally part has an empty block there. -/
inductive BnodeTree
  | expr (kids : List BnodeTree) (value : Option NodeValue) (insts : List InstRef)
  | exprStmt (e : BnodeTree)
  | block (vars : List Bvariable) (stmts : List BnodeTree)
  | ifStmt (cond trueBlock falseBlock : BnodeTree)
  | switchStmt (swvalue : BnodeTree) (vals : List (List ℤ)) (stmts : List BnodeTree)
  | gotoStmt (label : LabelId)
  | labelStmt (label : LabelId)
  | returnStmt (re : BnodeTree) (ri : InstRef)
  | deferStmt (undefer defer : BnodeTree)
  | excepStmt (body onexception : BnodeTree) (hasFinally : Bool) (finally_ : BnodeTree)

namespace BnodeTree

def value : BnodeTree → Option NodeValue
  | expr _ value _ => value
  | _ => none

end BnodeTree

/-- What is put into a basic block.  `fixup` is the return of a zero value that closes the last
one. -/
inductive BlockInst
  | inst (i : InstRef)
  | ret (i : InstRef)
  | fixup
  | invoke (call : InstRef) (cont pad : BlockRef)
  | landingPad
  | br (target : BlockRef)
  | condBr (cond : NodeValue) (t f : BlockRef)
  | switch (value : NodeValue) (default_ : BlockRef) (cases : List (ℤ × BlockRef))
deriving DecidableEq, Repr

namespace BlockInst

def isTerminator : BlockInst → Bool
  | inst _ | landingPad => false
  | _ => true

/-- The value that a transfer of control depends on. -/
def condition : BlockInst → Option NodeValue
  | condBr cond .. => some cond
  | switch value .. => some value
  | _ => none

end BlockInst

/-- The instructions of a function before they are put into blocks: which have another one as
an operand, and which are calls of anything but an intrinsic. -/
structure Instructions where
  users : InstRef → List InstRef
  mayThrow : InstRef → Bool

/-- A debug declaration of a variable: whether the instruction it is inserted after is one in a
block and not the end of it. -/
structure VarDecl where
  var : ℕ
  holds : Bool
deriving DecidableEq, Repr

structure GenBlocks where
  blocks : List (List BlockInst)
  labelmap : LabelId → Option BlockRef
  padBlockStack : List BlockRef
  finallyBlock : Option BlockRef
  cachedReturn : Option (BnodeTree × InstRef)
  discarded : List InstRef
  rewritten : List InstRef
  createDebugMetaData : Bool
  declared : List Bvariable
  decls : List VarDecl

namespace GenBlocks

/-- The entry block has the prolog in it. -/
def new (createDebugMetaData : Bool) (prolog : List BlockInst) : GenBlocks where
  createDebugMetaData := createDebugMetaData
  declared := []
  decls := []
  blocks := [prolog]
  labelmap := fun _ => none
  padBlockStack := []
  finallyBlock := none
  cachedReturn := none
  discarded := []
  rewritten := []

/-! ## Blocks -/

def mkLLVMBlock (s : GenBlocks) : BlockRef × GenBlocks :=
  (s.blocks.length, { s with blocks := s.blocks ++ [[]] })

/-- Several blocks in a row. -/
def mkLLVMBlocks (s : GenBlocks) : ℕ → GenBlocks
  | 0 => s
  | n + 1 => s.mkLLVMBlock.2.mkLLVMBlocks n

/-- Append to a block. -/
def push (s : GenBlocks) (b : BlockRef) (i : BlockInst) : GenBlocks :=
  { s with blocks := s.blocks.modify b (· ++ [i]) }

def getTerminator (s : GenBlocks) (b : BlockRef) : Bool :=
  s.blocks[b]?.any fun insts => insts.getLast?.any BlockInst.isTerminator

def getBlockForLabel (s : GenBlocks) (lab : LabelId) : BlockRef × GenBlocks :=
  match s.labelmap lab with
  | some bb => (bb, s)
  | none =>
    let (bb, s) := s.mkLLVMBlock
    (bb, { s with labelmap := fun l => if l = lab then some bb else s.labelmap l })

/-- A branch to the block at the end of the one where control is, if it can still leave that. -/
def branchTo (s : GenBlocks) (succ : Option BlockRef) (target : BlockRef) : GenBlocks :=
  match succ with
  | none => s
  | some b => if s.getTerminator b then s else s.push b (.br target)

/-- `BranchInst::Create` at the end of the block where control is, if it is anywhere. -/
def leave (s : GenBlocks) (cur : Option BlockRef) (target : BlockRef) : GenBlocks :=
  match cur with
  | none => s
  | some b => s.push b (.br target)

/-- A landing pad, from which control goes to a block. -/
def landAt (s : GenBlocks) (pad target : BlockRef) : GenBlocks :=
  (s.push pad .landingPad).push pad (.br target)

def setPads (s : GenBlocks) (pads : List BlockRef) : GenBlocks := { s with padBlockStack := pads }

def setFinally (s : GenBlocks) (fin : Option BlockRef) : GenBlocks := { s with finallyBlock := fin }

def setCached (s : GenBlocks) (rst : Option (BnodeTree × InstRef)) : GenBlocks :=
  { s with cachedReturn := rst }

/-! ## Instructions -/

/-- Some branch or switch depends on the instruction. -/
def branchesOn (s : GenBlocks) (i : InstRef) : Bool :=
  s.blocks.any fun insts => insts.any fun bi => decide (bi.condition = some (.instruction i))

/-- `delete` of an instruction that is in no block: nothing may use it any more. -/
def discard (fn : Instructions) (s : GenBlocks) (i : InstRef) : Option GenBlocks :=
  if i ∈ s.discarded ∨ s.branchesOn i ∨ ¬∀ u ∈ fn.users i, u ∈ s.discarded then none
  else some { s with discarded := i :: s.discarded }

/-- The instruction has been deleted: nothing comes to it, or an invoke has replaced it. -/
def deleted (s : GenBlocks) : NodeValue → Bool
  | .instruction i => decide (i ∈ s.discarded ∨ i ∈ s.rewritten)
  | _ => false

/-- `value()` of an expression that has been walked, which may be gone. -/
def valueOf (s : GenBlocks) (e : BnodeTree) : Option NodeValue :=
  e.value.filter fun v => !s.deleted v

theorem value_of_valueOf {s : GenBlocks} {e : BnodeTree} {v : NodeValue}
    (h : s.valueOf e = some v) : e.value = some v := (Option.filter_eq_some_iff.mp h).1

/-- A call in a block with a landing pad is replaced by an invoke, after which control is in a
new block. -/
def rewriteToMayThrowCall (s : GenBlocks) (call : InstRef) (b pad : BlockRef) :
    BlockRef × GenBlocks :=
  let (contbb, s) := s.mkLLVMBlock
  (contbb, { s.push b (.invoke call contbb pad) with rewritten := call :: s.rewritten })

/-! ## Debug declarations -/

/-- An instruction of a block, which no terminator is among `inst`. -/
def placed (s : GenBlocks) (i : InstRef) : Bool :=
  s.blocks.any fun insts => decide (BlockInst.inst i ∈ insts)

/-- `insertVarDecl` of a local variable.  One that has no initializer is declared after its
alloca. -/
def insertVarDecl (s : GenBlocks) (v : Bvariable) : GenBlocks :=
  match v.initializer with
  | none => s
  | some i => { s with decls := s.decls ++ [⟨v.id, s.placed i && i ∉ s.discarded⟩] }

/-- `processVarsInBLock`. -/
def processVars (s : GenBlocks) : List Bvariable → GenBlocks
  | [] => s
  | v :: vars =>
    if v.isTemporary ∨ v ∈ s.declared then s.processVars vars
    else (insertVarDecl { s with declared := v :: s.declared } v).processVars vars

def endLexicalBlock (s : GenBlocks) (vars : List Bvariable) : GenBlocks :=
  if s.createDebugMetaData then s.processVars vars else s

/-! ## Putting instructions into blocks -/

/-- `postProcessInst`, and then the instruction is put into the block. -/
def addInst (fn : Instructions) (s : GenBlocks) (cur : Option BlockRef) (i : InstRef) :
    Option (Option BlockRef × GenBlocks) :=
  match cur with
  | none => (s.discard fn i).map fun s => (none, s)
  | some b =>
    match s.padBlockStack with
    | pad :: _ =>
      if fn.mayThrow i then
        let (contbb, s) := s.rewriteToMayThrowCall i b pad
        some (some contbb, s)
      else some (some b, s.push b (.inst i))
    | [] => some (some b, s.push b (.inst i))

def addInsts (fn : Instructions) (s : GenBlocks) (cur : Option BlockRef) :
    List InstRef → Option (Option BlockRef × GenBlocks)
  | [] => some (cur, s)
  | i :: insts => do
    let (cur, s) ← s.addInst fn cur i
    s.addInsts fn cur insts

/-- The return instruction, which comes last in the expression. -/
def addReturn (fn : Instructions) (s : GenBlocks) (cur : Option BlockRef) (ri : InstRef) :
    Option GenBlocks :=
  match cur with
  | none => s.discard fn ri
  | some b => some (s.push b (.ret ri))

/-- The case values with their blocks. -/
def caseTargets (first : BlockRef) (vals : List (List ℤ)) : List (ℤ × BlockRef) :=
  (vals.zipIdx first).flatMap fun c => c.1.map fun v => (v, c.2)

/-- `assert(! defBB)`: no second default. -/
def defaultBlock (first epilog : BlockRef) (vals : List (List ℤ)) : Option BlockRef :=
  match (vals.zipIdx first).filter fun c => c.1.isEmpty with
  | [] => some epilog
  | [c] => some c.2
  | _ => none

end GenBlocks

/-! ## Deleting an expression -/

mutual

/-- `Bnode::destroy` of the instructions: those of a node are deleted together, and then those
of its children. -/
@[grind =]
def BnodeTree.ownInsts : BnodeTree → List (List InstRef)
  | .expr kids _ insts => insts :: ownInstsAll kids
  | .exprStmt e => e.ownInsts
  | .block _ stmts => ownInstsAll stmts
  | .ifStmt cond trueBlock falseBlock =>
    cond.ownInsts ++ trueBlock.ownInsts ++ falseBlock.ownInsts
  | .switchStmt swvalue _ stmts => swvalue.ownInsts ++ ownInstsAll stmts
  | .gotoStmt _ | .labelStmt _ => []
  | .returnStmt re ri =>
    match re.ownInsts with
    | [] => [[ri]]
    | own :: below => (own ++ [ri]) :: below
  | .deferStmt undefer defer => undefer.ownInsts ++ defer.ownInsts
  | .excepStmt body onexception _ finally_ =>
    body.ownInsts ++ onexception.ownInsts ++ finally_.ownInsts

@[grind =]
def ownInstsAll : List BnodeTree → List (List InstRef)
  | [] => []
  | n :: ns => n.ownInsts ++ ownInstsAll ns

end

namespace GenBlocks

/-- The references of these instructions to each other have been dropped. -/
def destroyOwn (fn : Instructions) (s : GenBlocks) (own : List InstRef) : Option GenBlocks :=
  if ∃ i ∈ own, i ∈ s.discarded ∨ s.branchesOn i ∨ ¬∀ u ∈ fn.users i, u ∈ s.discarded ∨ u ∈ own
  then none
  else some { s with discarded := own.reverse ++ s.discarded }

def destroy (fn : Instructions) (s : GenBlocks) (re : BnodeTree) (ri : InstRef) :
    Option GenBlocks :=
  (BnodeTree.returnStmt re ri).ownInsts.foldlM (fun s own => s.destroyOwn fn own) s

/-- `BranchInst::Create` at the end of a block, which has to be there. -/
def createBranch (s : GenBlocks) (cur : Option BlockRef) (target : BlockRef) : Option GenBlocks :=
  cur.map fun b => s.push b (.br target)

/-! ## The walk -/

/-- From a state and the block where control is, if it is anywhere. -/
abbrev Walk := GenBlocks → Option BlockRef → BnodeTree → Option (Option BlockRef × GenBlocks)

mutual

/-- `walk`, where `kept` walks the expression of a return that comes after a finally part. -/
def walkWith (kept : Walk) (fn : Instructions) (s : GenBlocks) : Option BlockRef → BnodeTree →
    Option (Option BlockRef × GenBlocks)
  | cur, .expr kids _ insts => do
    let (cur, s) ← walkAllWith kept fn s cur kids
    s.addInsts fn cur insts
  | cur, .exprStmt e => walkWith kept fn s cur e
  | cur, .block vars stmts => do
    let (cur, s) ← walkAllWith kept fn s cur stmts
    some (cur, s.endLexicalBlock vars)
  | cur, .ifStmt cond trueBlock falseBlock => do
    let (cur, s) ← walkWith kept fn s cur cond
    let tblock := s.blocks.length
    let ft := tblock + 1
    let fblock := tblock + 2
    let cval ← s.valueOf cond
    let b ← cur
    let s := (s.mkLLVMBlocks 3).push b (.condBr cval tblock fblock)
    let (tsucc, s) ← walkWith kept fn s (some tblock) trueBlock
    let (fsucc, s) ← walkWith kept fn (s.branchTo tsucc ft) (some fblock) falseBlock
    some (some ft, s.branchTo fsucc ft)
  | cur, .switchStmt swvalue vals stmts => do
    -- there is a body for each case
    guard (stmts.length = vals.length)
    let (cur, s) ← walkWith kept fn s cur swvalue
    let first := s.blocks.length
    let epilog := first + vals.length
    let defBB ← defaultBlock first epilog vals
    let s ← walkCasesWith kept fn (s.mkLLVMBlocks (vals.length + 1)) first epilog stmts
    let v ← s.valueOf swvalue
    let b ← cur
    some (some epilog, s.push b (.switch v defBB (caseTargets first vals)))
  | cur, .gotoStmt label =>
    let (lbb, s) := s.getBlockForLabel label
    some (none, s.branchTo cur lbb)
  | cur, .labelStmt label =>
    let (lbb, s) := s.getBlockForLabel label
    some (some lbb, s.leave cur lbb)
  | cur, .returnStmt re ri => do
    match s.finallyBlock with
    | some fin =>
      let s ← match s.cachedReturn with
        | none => some (s.setCached (some (re, ri)))
        | some _ => s.destroy fn re ri
      let s ← s.createBranch cur fin
      some (none, s)
    | none =>
      let (bb, s) ← walkWith kept fn s cur re
      let s ← s.addReturn fn bb ri
      if cur = bb then some (none, s) else none
  | cur, .deferStmt undefer defer => do
    let finbb := s.blocks.length
    let padbb := finbb + 1
    let catchbb := finbb + 2
    let pads := s.padBlockStack
    let s := ((s.mkLLVMBlocks 3).leave cur finbb).setPads (padbb :: pads)
    let (contbb, s) ← walkWith kept fn s (some finbb) undefer
    let s := (s.setPads pads).landAt padbb catchbb
    let (bb, s) ← walkWith kept fn s (some catchbb) defer
    if bb = some catchbb then some (contbb, s.push catchbb (.br finbb)) else none
  | cur, .excepStmt body onexception hasFinally finally_ => do
    let padbb := s.blocks.length
    let contbb := padbb + 1
    -- an exception statement is not inside another one
    guard (s.padBlockStack = [] ∧ s.cachedReturn.isNone)
    let fin := if hasFinally then some contbb else none
    let s := ((s.mkLLVMBlocks 2).setPads [padbb]).setFinally fin
    let (cur, s) ← walkWith kept fn s cur body
    let catchbb := s.blocks.length
    let catchpadbb := catchbb + 1
    let s := (((s.leave cur contbb).mkLLVMBlocks 2).landAt padbb catchbb).setPads [catchpadbb]
    let (bb, s) ← walkWith kept fn s (some catchbb) onexception
    let s := (((s.leave bb contbb).setPads []).setFinally none).landAt catchpadbb contbb
    if hasFinally then do
      let (cur, s) ← walkWith kept fn s (some contbb) finally_
      match s.cachedReturn with
      | none => some (cur, s)
      | some (re, ri) =>
        -- the return that was kept comes after the finally part
        let (bb, s) ← kept s cur re
        let s ← s.addReturn fn bb ri
        if cur = bb then some (cur, s.setCached none) else none
    else some (some contbb, s)

def walkAllWith (kept : Walk) (fn : Instructions) (s : GenBlocks) : Option BlockRef →
    List BnodeTree → Option (Option BlockRef × GenBlocks)
  | cur, [] => some (cur, s)
  | cur, n :: ns => do
    let (cur, s) ← walkWith kept fn s cur n
    walkAllWith kept fn s cur ns

/-- The bodies of the cases.  Where the walk of a body ends does not matter. -/
def walkCasesWith (kept : Walk) (fn : Instructions) (s : GenBlocks) (b epilog : BlockRef) :
    List BnodeTree → Option GenBlocks
  | [] => some s
  | st :: stmts => do
    let (_, s) ← walkWith kept fn s (some b) st
    walkCasesWith kept fn (s.branchTo (some b) epilog) (b + 1) epilog stmts

end

/-- An exception statement has no place in a kept return, where another one is not over. -/
def walkKept (fn : Instructions) : Walk := walkWith (fun _ _ _ => none) fn

def walk (fn : Instructions) : Walk := walkWith (walkKept fn) fn

/-- The last block gets a return of a zero value if it does not end in a transfer of control. -/
def fixupEpilogBlock (s : GenBlocks) (epilog : BlockRef) : GenBlocks :=
  if s.getTerminator epilog then s else s.push epilog .fixup

/-- The walk of a function's code from its entry block on. -/
def gen (fn : Instructions) (prolog : List BlockInst) (code : BnodeTree) : Option GenBlocks := do
  let (block, s) ← walk fn (new false prolog) (some 0) code
  match block with
  | none => some s
  | some b => some (s.fixupEpilogBlock b)

end GenBlocks
end Dragongo
