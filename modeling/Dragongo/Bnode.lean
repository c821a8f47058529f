import Mathlib.Data.List.Basic
import Mathlib.Data.Option.Basic
import Mathlib.Tactic.SplitIfs
import Dragongo.Bexpression

/-!
# The nodes of expressions and statements

The builder archives each node it makes, and its integrity visitor records for a child which
slot of which parent holds it.  Memory comes from an allocator that may give out the address of
a freed node again.
-/

namespace Dragongo

abbrev BnodeRef := ℕ

abbrev InstRef := ℕ

inductive NodeFlavor
  | error
  | const
  | var
  | fcnAddress
  | conversion
  | deref
  | address
  | unaryOp
  | structField
  | binaryOp
  | compound
  | arrayIndex
  | composite
  | call
  | emptyStmt
  | labelStmt
  | gotoStmt
  | exprStmt
  | returnStmt
  | deferStmt
  | ifStmt
  | excepStmt
  | blockStmt
  | switchStmt
deriving DecidableEq, Repr

theorem mapM_some_forall {α β : Type} (g : α → Option β) (P : β → Prop) (l : List α) :
    (∃ l', l.mapM g = some l' ∧ ∀ y ∈ l', P y) ↔ ∀ x ∈ l, ∃ y, g x = some y ∧ P y := by
  induction l with
  | nil => simp
  | cons x l ih =>
    rw [List.forall_mem_cons, ← ih]
    simp only [List.mapM_cons, Option.bind_eq_bind, Option.pure_def, Option.bind_eq_some_iff,
      Option.some.injEq]
    constructor
    · rintro ⟨l', ⟨y, hy, ys, hys, rfl⟩, hall⟩
      exact ⟨⟨y, hy, hall y List.mem_cons_self⟩, ys, hys, fun z hz => hall z (.tail _ hz)⟩
    · rintro ⟨⟨y, hy, hP⟩, ys, hys, hall⟩
      exact ⟨y :: ys, ⟨y, hy, ys, hys, rfl⟩, List.forall_mem_cons.mpr ⟨hP, hall⟩⟩

def NodeFlavor.isStmt : NodeFlavor → Bool
  | emptyStmt | labelStmt | gotoStmt | exprStmt | returnStmt | deferStmt | ifStmt | excepStmt
  | blockStmt | switchStmt => true
  | _ => false

/-- An LLVM value: an instruction, or something that is there before any of them is executed. -/
inductive NodeValue
  | instruction (inst : InstRef)
  | other (v : ℕ)
deriving DecidableEq, Repr

/-- An LLVM instruction; `opcode` stands for what it does with its operands. -/
structure Instruction where
  isAlloca : Bool
  opcode : ℕ
  operands : List NodeValue
deriving DecidableEq, Repr

/-- A node.  Statements have no value, no type and no instructions. -/
structure Bnode where
  flavor : NodeFlavor
  kids : List BnodeRef
  value : Option NodeValue
  btype : ℕ
  instructions : List InstRef
  id : UInt32
  varContext : VarContext := {}
deriving DecidableEq, Repr

namespace Bnode

def isExpr (n : Bnode) : Bool := !n.flavor.isStmt

/-- The constructor of an expression, which has no id until it is archived. -/
def expr (flavor : NodeFlavor) (kids : List BnodeRef) (value : Option NodeValue) (btype : ℕ)
    (instructions : List InstRef) : Bnode :=
  { flavor, kids, value, btype, instructions, id := 0xfeedface }

def stmt (flavor : NodeFlavor) (kids : List BnodeRef) : Bnode :=
  { flavor, kids, value := none, btype := 0, instructions := [], id := 0xfeedface }

end Bnode

inductive CkTreeVarDisp
  | checkVarExprs
  | ignoreVarExprs
deriving DecidableEq, Repr

inductive CkTreeRepairDisp
  | repairSharing
  | dontRepairSharing
deriving DecidableEq, Repr

structure TreeIntegCtl where
  varDisp : CkTreeVarDisp
  repairDisp : CkTreeRepairDisp
deriving DecidableEq, Repr

/-- What the visitor has seen.  `sharing` has the latest entry last.  The counters are 32 bits
wide. -/
structure IntegrityVisitor where
  control : TreeIntegCtl
  iparent : InstRef → Option (BnodeRef × ℕ)
  nparent : BnodeRef → Option (BnodeRef × ℕ)
  sharing : List (BnodeRef × BnodeRef × ℕ)
  instShareCount : UInt32
  stmtShareCount : UInt32
  exprShareCount : UInt32

def IntegrityVisitor.new (control : TreeIntegCtl) : IntegrityVisitor :=
  ⟨control, fun _ => none, fun _ => none, [], 0, 0, 0⟩

/-- The node builder with the constants that the backend keeps for the module.  `malloc k` is
the address that the `k`-th allocation gives. -/
structure Backend where
  malloc : ℕ → BnodeRef
  allocated : ℕ
  node : BnodeRef → Option Bnode
  insts : List Instruction
  earchive : List (Option BnodeRef)
  sarchive : List BnodeRef
  valueExprmap : List ((NodeValue × ℕ) × BnodeRef)
  integrityVisitor : IntegrityVisitor

namespace Backend

def new (malloc : ℕ → BnodeRef) (insts : List Instruction) : Backend where
  malloc := malloc
  allocated := 0
  node := fun _ => none
  insts := insts
  earchive := []
  sarchive := []
  valueExprmap := []
  integrityVisitor := .new ⟨.ignoreVarExprs, .dontRepairSharing⟩

/-! ## Memory -/

/-- Live memory is not given out. -/
def alloc (be : Backend) (n : Bnode) : Option (BnodeRef × Backend) :=
  if (be.node (be.malloc be.allocated)).isSome then none
  else some (be.malloc be.allocated, { be with
    allocated := be.allocated + 1
    node := fun x => if x = be.malloc be.allocated then some n else be.node x })

def update (be : Backend) (x : BnodeRef) (f : Bnode → Bnode) : Backend :=
  { be with node := fun y => if y = x then (be.node x).map f else be.node y }

def delete (be : Backend) (x : BnodeRef) : Backend :=
  { be with node := fun y => if y = x then none else be.node y }

section Memory
variable (be : Backend) {x y : BnodeRef} {f : Bnode → Bnode}

theorem node_update_self : (be.update x f).node x = (be.node x).map f := if_pos rfl

theorem node_update_ne (h : y ≠ x) : (be.update x f).node y = be.node y := if_neg h

theorem node_delete_self : (be.delete x).node x = none := if_pos rfl

theorem node_delete_ne (h : y ≠ x) : (be.delete x).node y = be.node y := if_neg h

end Memory

/-! ## The parents of a node -/

/-- `be_->moduleScopeValue`. -/
def moduleScopeValue (be : Backend) (val : Option NodeValue) (btype : ℕ) : Bool :=
  match val with
  | none => false
  | some v => be.valueExprmap.any fun e => decide (e.1 = (v, btype))

def varExprOrConvVar (be : Backend) (n : Bnode) : Option Bool :=
  match n.flavor with
  | .var => some true
  | .conversion => do
    let kid ← n.kids[0]?
    let kid ← be.node kid
    some (decide (kid.flavor = .var))
  | _ => some false

def shouldBeTracked (be : Backend) (ctl : TreeIntegCtl) (child : BnodeRef) : Option Bool := do
  let n ← be.node child
  if n.isExpr && be.moduleScopeValue n.value n.btype then some false
  else if ctl.varDisp = .ignoreVarExprs then (be.varExprOrConvVar n).map (!·)
  else some true

def unsetParent (be : Backend) (iv : IntegrityVisitor) (child parent : BnodeRef) (slot : ℕ) :
    Option IntegrityVisitor := do
  if ← be.shouldBeTracked iv.control child then
    if iv.nparent child = some (parent, slot) then
      some { iv with nparent := fun x => if x = child then none else iv.nparent x }
    else none
  else some iv

def setParent (be : Backend) (iv : IntegrityVisitor) (child parent : BnodeRef) (slot : ℕ) :
    Option IntegrityVisitor := do
  if ← be.shouldBeTracked iv.control child then
    let n ← be.node child
    let recorded := fun x => if x = child then some (parent, slot) else iv.nparent x
    match iv.nparent child with
    | none => some { iv with nparent := recorded }
    | some prev =>
      if prev = (parent, slot) then some iv
      else some { iv with
        nparent := recorded
        sharing := iv.sharing ++ [(child, parent, slot)]
        stmtShareCount := iv.stmtShareCount + if n.flavor.isStmt then 1 else 0
        exprShareCount := iv.exprShareCount + if n.flavor.isStmt then 0 else 1 }
  else some iv

def setInstParent (iv : IntegrityVisitor) (inst : InstRef) (exprParent : BnodeRef) (slot : ℕ) :
    IntegrityVisitor :=
  match iv.iparent inst with
  | none => { iv with iparent := fun i => if i = inst then some (exprParent, slot) else iv.iparent i }
  | some prev =>
    if prev = (exprParent, slot) then iv
    else { iv with instShareCount := iv.instShareCount + 1 }

/-! ## Making nodes -/

/-- The loop over the children has a 32-bit index, which is less than the number of children for
ever if that does not fit. -/
def setParents (be : Backend) (iv : IntegrityVisitor) (parent : BnodeRef) (kids : List BnodeRef) :
    Option IntegrityVisitor :=
  if kids.length < 2 ^ 32 then
    kids.zipIdx.foldlM (fun iv kid => be.setParent iv kid.1 parent kid.2) iv
  else none

def checkTreeInteg (be : Backend) (x : BnodeRef) : Option Backend := do
  let n ← be.node x
  let iv ← be.setParents be.integrityVisitor x n.kids
  some { be with integrityVisitor := iv }

/-- The id of a node is its index in the archive of its kind, cut to 32 bits. -/
def archived (be : Backend) (x : BnodeRef) (n : Bnode) : Backend :=
  if n.isExpr then
    { be.update x fun n => { n with id := .ofNat be.earchive.length } with
      earchive := be.earchive ++ [some x] }
  else
    { be.update x fun n => { n with id := .ofNat be.sarchive.length } with
      sarchive := be.sarchive ++ [x] }

def archive (be : Backend) (x : BnodeRef) : Option Backend := do
  let n ← be.node x
  (be.archived x n).checkTreeInteg x

/-- The instruction that is the value, unless it comes from one of the children. -/
def appendInstIfNeeded (be : Backend) (kids : List BnodeRef) (val : NodeValue) :
    Option (List InstRef) :=
  match val with
  | .instruction inst => do
    let kids ← kids.mapM be.node
    some (if kids.any fun n => n.isExpr && decide (n.value = some val) then [] else [inst])
  | .other _ => some []

end Backend

/-- The nodes that the builder makes; an argument that no child, value or instruction comes from
is left out. -/
inductive Making
  | mkError (errortype : ℕ)
  | mkConst (btype : ℕ) (value : NodeValue)
  | mkVoidValue (btype : ℕ)
  | mkVar (value : NodeValue) (btype : ℕ)
  | mkBinaryOp (typ : ℕ) (val : Option NodeValue) (left right : BnodeRef)
  | mkBinaryOpWith (typ : ℕ) (val : Option NodeValue) (left right : BnodeRef)
    (instructions : List InstRef)
  | mkUnaryOp (typ : ℕ) (val : NodeValue) (src : BnodeRef)
  | mkConversion (typ : ℕ) (val : NodeValue) (src : BnodeRef)
  | mkAddress (typ : ℕ) (val : NodeValue) (src : BnodeRef)
  | mkFcnAddress (typ : ℕ) (val : NodeValue)
  | mkDeref (typ : ℕ) (val : NodeValue) (src : BnodeRef)
  | mkComposite (btype : ℕ) (value : Option NodeValue) (vals : List BnodeRef)
    (instructions : List InstRef)
  | mkStructField (typ : ℕ) (val : NodeValue) (structval : BnodeRef)
  | mkArrayIndex (typ : ℕ) (val : NodeValue) (arval index : BnodeRef)
  | mkCompound (st expr : BnodeRef)
  | mkCall (btype : ℕ) (val : NodeValue) (args : List BnodeRef) (instructions : List InstRef)
  | mkExprStmt (expr : BnodeRef)
  | mkReturn (returnVal : BnodeRef)
  | mkLabelDefStmt
  | mkGotoStmt
  | mkIfStmt (cond trueBlock falseBlock : BnodeRef)
  | mkDeferStmt (undefer defer : BnodeRef)
  | mkExcepStmt (body onexception finally_ : BnodeRef)
  | mkSwitchStmt (swvalue : BnodeRef) (vals : List (List BnodeRef)) (stmts : List BnodeRef)
  | mkBlock
deriving DecidableEq, Repr

namespace Backend

/-- The instructions of a call: its value is one of them, or comes from a temporary. -/
def callInstructions (be : Backend) (val : NodeValue) (instructions : List InstRef) :
    Option (List InstRef) :=
  match val with
  | .instruction inst => do
    let i ← be.insts[inst]?
    some (if inst ∈ instructions ∨ i.isAlloca then instructions else instructions ++ [inst])
  | .other _ => none

/-- A reference that is pending in the source expression is pending in the node. -/
def pendingFrom (be : Backend) (src : BnodeRef) (n : Bnode) : Option Bnode :=
  (be.node src).map fun s =>
    if s.varContext.pending then { n with varContext := s.varContext } else n

/-- The node before it is archived. -/
def construct (be : Backend) : Making → Option Bnode
  | .mkError errortype => some (.expr .error [] none errortype [])
  | .mkConst btype value => some (.expr .const [] (some value) btype [])
  | .mkVoidValue btype => some (.expr .const [] none btype [])
  | .mkVar value btype => some (.expr .var [] (some value) btype [])
  | .mkBinaryOp typ none left right => some (.expr .binaryOp [left, right] none typ [])
  | .mkBinaryOp typ (some val) left right =>
    (be.appendInstIfNeeded [left, right] val).map (.expr .binaryOp [left, right] (some val) typ)
  | .mkBinaryOpWith typ val left right instructions =>
    some (.expr .binaryOp [left, right] val typ instructions)
  | .mkUnaryOp typ val src => do
    be.pendingFrom src (.expr .unaryOp [src] (some val) typ (← be.appendInstIfNeeded [src] val))
  | .mkConversion typ val src => do
    be.pendingFrom src (.expr .conversion [src] (some val) typ (← be.appendInstIfNeeded [src] val))
  | .mkAddress typ val src => some (.expr .address [src] (some val) typ [])
  | .mkFcnAddress typ val => some (.expr .fcnAddress [] (some val) typ [])
  | .mkDeref typ val src => some (.expr .deref [src] (some val) typ [])
  | .mkComposite btype value vals instructions =>
    some (.expr .composite vals value btype instructions)
  | .mkStructField typ val structval => do
    be.pendingFrom structval
      (.expr .structField [structval] (some val) typ (← be.appendInstIfNeeded [structval] val))
  | .mkArrayIndex typ val arval index => do
    be.pendingFrom arval (.expr .arrayIndex [arval, index] (some val) typ
      (← be.appendInstIfNeeded [arval, index] val))
  | .mkCompound st expr => do
    let n ← be.node expr
    be.pendingFrom expr (.expr .compound [st, expr] n.value n.btype [])
  | .mkCall btype val args instructions =>
    (be.callInstructions val instructions).map (.expr .call args (some val) btype)
  | .mkExprStmt expr => some (.stmt .exprStmt [expr])
  | .mkReturn returnVal => some (.stmt .returnStmt [returnVal])
  | .mkLabelDefStmt => some (.stmt .labelStmt [])
  | .mkGotoStmt => some (.stmt .gotoStmt [])
  | .mkIfStmt cond trueBlock falseBlock => some (.stmt .ifStmt [cond, trueBlock, falseBlock])
  | .mkDeferStmt undefer defer => some (.stmt .deferStmt [undefer, defer])
  | .mkExcepStmt body onexception finally_ =>
    some (.stmt .excepStmt [body, onexception, finally_])
  | .mkSwitchStmt swvalue vals stmts =>
    some (.stmt .switchStmt (swvalue :: vals.flatten ++ stmts))
  | .mkBlock => some (.stmt .blockStmt [])

/-- The children are live nodes. -/
def make (be : Backend) (m : Making) : Option (BnodeRef × Backend) := do
  let n ← be.construct m
  let _ ← n.kids.mapM be.node
  let (x, be) ← be.alloc n
  let be ← be.archive x
  some (x, be)

/-- The empty block that an if statement without an else part gets is not archived. -/
def newBlock (be : Backend) : Option (BnodeRef × Backend) := be.alloc (.stmt .blockStmt [])

def addStatementToBlock (be : Backend) (block st : BnodeRef) : Option Backend := do
  let n ← be.node block
  let _ ← be.node st
  if n.flavor = .blockStmt then some (be.update block fun n => { n with kids := n.kids ++ [st] })
  else none

def appendInstruction (be : Backend) (x : BnodeRef) (inst : InstRef) : Option Backend := do
  let n ← be.node x
  if n.isExpr then some (be.update x fun n => { n with instructions := n.instructions ++ [inst] })
  else none

/-- `assert(!pending_)`. -/
def setVarExprPending (be : Backend) (x : BnodeRef) (lvalue : Bool) (addrLevel : ℕ) :
    Option Backend := do
  let n ← be.node x
  if n.isExpr ∧ ¬n.varContext.pending then
    some (be.update x fun n => { n with varContext := { addrLevel, lvalue, pending := true } })
  else none

/-! ## Freeing and replacing nodes -/

def freeExpr (be : Backend) (x : BnodeRef) : Option Backend := do
  let n ← be.node x
  if n.isExpr ∧ n.id.toNat < be.earchive.length then
    let earchive := be.earchive.set n.id.toNat none
    let earchive := if n.id.toNat = earchive.length - 1 then earchive.dropLast else earchive
    some ({ be with earchive }.delete x)
  else none

def makeGlobalExpression (be : Backend) (x : BnodeRef) (val : NodeValue) (btype : ℕ) :
    Option (BnodeRef × Backend) :=
  match val with
  | .instruction _ => none
  | .other _ =>
    match be.valueExprmap.find? fun e => decide (e.1 = (val, btype)) with
    | some e => (be.freeExpr x).map fun be => (e.2, be)
    | none => some (x, { be with valueExprmap := ((val, btype), x) :: be.valueExprmap })

/-- The children of a composite that has no storage yet, which is then freed.  The index of the
loop is as wide as that of `checkTreeInteg`. -/
def extractChildenAndDestroy (be : Backend) (x : BnodeRef) : Option (List BnodeRef × Backend) := do
  let n ← be.node x
  if n.value = none ∧ n.instructions = [] ∧ n.kids.length < 2 ^ 32 then
    let iv ← n.kids.zipIdx.foldlM (fun iv kid => be.unsetParent iv kid.1 x kid.2)
      be.integrityVisitor
    let kids ← n.kids.mapM be.node
    if kids.all Bnode.isExpr then
      let be ← { be with integrityVisitor := iv }.freeExpr x
      some (n.kids, be)
    else none
  else none

/-! ## Clones -/

/-- The instructions of a node are copied, with the operands that `vm` renames. -/
def cloneInstructions (be : Backend) (vm : NodeValue → Option NodeValue) :
    List InstRef → Option (List InstRef × Backend)
  | [] => some ([], be)
  | inst :: insts => do
    let i ← be.insts[inst]?
    let icl := { i with operands := i.operands.map fun v => (vm v).getD v }
    let (icls, be') ← { be with insts := be.insts ++ [icl] }.cloneInstructions vm insts
    some (be.insts.length :: icls, be')

/-- The value of a clone is what it copied, and an instruction there is one of the original. -/
def setNewv (be : Backend) (res : BnodeRef) (n : Bnode) : Option Backend :=
  match n.instructions.filter fun inst => decide (n.value = some (.instruction inst)) with
  | [] => some be
  | [newv] => some (be.update res fun r => { r with value := some (.instruction newv) })
  | _ => none

/-- The copy of an expression starts without a pending reference. -/
def cloneSub (be : Backend) (vm : NodeValue → Option NodeValue) : ℕ → BnodeRef →
    Option (BnodeRef × Backend)
  | 0, _ => none
  | fuel + 1, x => do
    let n ← be.node x
    if n.isExpr then
      let (newChildren, be) ← n.kids.foldlM (fun (newChildren, be) c => do
        let (clc, be) ← cloneSub be (fun _ => none) fuel c
        some (newChildren ++ [clc], be)) ([], be)
      let (res, be) ← be.alloc (.expr n.flavor [] n.value n.btype [])
      let be ← be.archive res
      let be := be.update res fun r => { r with kids := newChildren }
      let (icls, be) ← be.cloneInstructions vm n.instructions
      let be := be.update res fun r => { r with instructions := icls }
      let be ← be.setNewv res n
      some (res, be)
    else none

/-- No path through the live nodes is longer than the number of allocations. -/
def cloneSubtree (be : Backend) (x : BnodeRef) : Option (BnodeRef × Backend) :=
  be.cloneSub (fun _ => none) (be.allocated + 1) x

def replaceChild (be : Backend) (x : BnodeRef) (idx : ℕ) (newchild : BnodeRef) : Option Backend := do
  let n ← be.node x
  if idx < n.kids.length then
    some (be.update x fun n => { n with kids := n.kids.set idx newchild })
  else none

/-! ## The walk of a tree -/

def acceptable : NodeFlavor → Bool
  | .const | .var | .conversion | .deref | .structField => true
  | _ => false

/-- The children that have not been seen yet, with everything seen then. -/
def pushChildren (visited workList kids : List BnodeRef) : List BnodeRef × List BnodeRef :=
  kids.foldl (fun (visited, workList) c =>
    if c ∈ visited then (visited, workList) else (c :: visited, c :: workList)) (visited, workList)

/-- The work list of `repairableSubTree`, its back first. -/
def repairableFrom (be : Backend) : ℕ → List BnodeRef → List BnodeRef → Option Bool
  | _, _, [] => some true
  | 0, _, _ :: _ => none
  | fuel + 1, visited, x :: workList => do
    let n ← be.node x
    if acceptable n.flavor then
      let kids ← n.kids.mapM be.node
      if kids.all Bnode.isExpr then
        let (visited, workList) := pushChildren visited workList n.kids
        be.repairableFrom fuel visited workList
      else none
    else some false

/-- Each node gets on the work list once. -/
def repairableSubTree (be : Backend) (root : BnodeRef) : Option Bool :=
  be.repairableFrom (be.allocated + 1) [root] [root]

/-- A child is not looked at again. -/
def repairable (be : Backend) (visited : List BnodeRef) (child : BnodeRef) : Option Bool :=
  if child ∈ visited then some true else be.repairableSubTree child

/-- `repair`, from some of the `sharing` on. -/
def repair (be : Backend) : List BnodeRef → List (BnodeRef × BnodeRef × ℕ) → Option (Bool × Backend)
  | _, [] => some (true, be)
  | visited, (child, parent, slot) :: sharing => do
    let n ← be.node child
    if n.isExpr then
      if ← be.repairable visited child then
        let (childClone, be) ← be.cloneSubtree child
        let be ← be.replaceChild parent slot childClone
        be.repair (child :: visited) sharing
      else some (false, be)
    else none

/-- The slots of a walk over a vector.  They are recorded as 32-bit numbers. -/
def slots {α : Type} (l : List α) : List (α × ℕ) := l.zipIdx.map fun a => (a.1, a.2 % 2 ^ 32)

def visit (be : Backend) : ℕ → IntegrityVisitor → BnodeRef → Option IntegrityVisitor
  | 0, _, _ => none
  | fuel + 1, iv, x => do
    let n ← be.node x
    let iv ← (slots n.kids).foldlM (fun iv kid => do
      let iv ← visit be fuel iv kid.1
      be.setParent iv kid.1 x kid.2) iv
    some ((slots n.instructions).foldl (fun iv inst => setInstParent iv inst.1 x inst.2) iv)

/-- A walk that does not come to an end has met a cycle.  A counter that has come round to zero is
taken for one that nothing was counted with. -/
def examine (be : Backend) (control : TreeIntegCtl) (x : BnodeRef) : Option (Bool × Backend) := do
  let iv ← be.visit (be.allocated + 1) (.new control) x
  if iv.instShareCount ≠ 0 ∨ iv.stmtShareCount ≠ 0 then some (false, be)
  else if iv.exprShareCount = 0 then some (true, be)
  else if control.repairDisp ≠ .repairSharing then some (false, be)
  else be.repair [] iv.sharing

/-- With integrity checks on. -/
def enforceTreeIntegrity (be : Backend) (x : BnodeRef) : Option Backend := do
  let (res, be) ← be.examine ⟨.ignoreVarExprs, .repairSharing⟩ x
  if res then some be else none

end Backend
end Dragongo
