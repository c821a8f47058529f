import Dragongo.BlockEvents
import Dragongo.Library.Simulation

/-!
# What statements mean

The instructions of a function change the state of a program, whatever that is, and some calls
of it end with an exception.  With this given, a statement means what it does to a state from
one of its entries on, and how control leaves it; blocks mean the steps that control takes
through them.  A return to a finally part is carried along with the state, and comes after that
part.
-/

namespace Dragongo

/-- A return: its expression, and the instruction at the end of that. -/
abbrev Return := BnodeTree × InstRef

/-- What the instructions of a function do.  `throws` says which of them end with an exception,
`truth` which branch is taken, and `select` which case of a switch.  The caller sees what a return
instruction leaves behind, or the return of a zero value at the end of the function. -/
structure Meaning (fn : Instructions) (σ : Type) where
  exec : InstRef → σ → σ
  throws : InstRef → σ → Bool
  truth : NodeValue → σ → Bool
  select : NodeValue → σ → ℤ
  returned : InstRef → σ → σ
  ended : σ → σ
  mayThrow_of_throws : ∀ i st, throws i st → fn.mayThrow i

/-- How control leaves a statement.  To `retry` is to begin a defer statement again, and to
`leave` to return to a finally part. -/
inductive Outcome (σ : Type)
  | done (st : σ)
  | goto (label : LabelId) (st : σ)
  | retry (d : ℕ) (st : σ)
  | leave (st : σ)
  | ret (st : σ)
  | threw (st : σ)

namespace Outcome

variable {σ : Type}

/-- What comes next, if control is at the end. -/
def andThen (o : Outcome σ) (f : σ → Outcome σ) : Outcome σ :=
  match o with
  | done st => f st
  | o => o

/-- What is done about an exception. -/
def handle (o : Outcome σ) (f : σ → Outcome σ) : Outcome σ :=
  match o with
  | threw st => f st
  | o => o

@[simp] theorem done_andThen (st : σ) (f : σ → Outcome σ) : (done st).andThen f = f st := rfl

theorem andThen_done (o : Outcome σ) : o.andThen done = o := by
  cases o <;> rfl

end Outcome

/-- Where control comes into a statement.  Defer statements are numbered in order. -/
inductive EntryPoint
  | start
  | label (l : LabelId)
  | retry (d : ℕ)
deriving DecidableEq, Repr

namespace BnodeTree

mutual
/-- The labels that are defined. -/
def labels : BnodeTree → List LabelId
  | expr kids _ _ => labelsAll kids
  | exprStmt e => e.labels
  | block _ stmts => labelsAll stmts
  | ifStmt cond trueBlock falseBlock => cond.labels ++ trueBlock.labels ++ falseBlock.labels
  | switchStmt swvalue _ stmts => swvalue.labels ++ labelsAll stmts
  | labelStmt label => [label]
  | gotoStmt _ | returnStmt .. => []
  | deferStmt undefer defer => undefer.labels ++ defer.labels
  | excepStmt body onexception _ finally_ => body.labels ++ onexception.labels ++ finally_.labels
def labelsAll : List BnodeTree → List LabelId
  | [] => []
  | n :: ns => n.labels ++ labelsAll ns
end

mutual
/-- The labels that control is sent to. -/
def gotos : BnodeTree → List LabelId
  | expr kids _ _ => gotosAll kids
  | exprStmt e => e.gotos
  | block _ stmts => gotosAll stmts
  | ifStmt cond trueBlock falseBlock => cond.gotos ++ trueBlock.gotos ++ falseBlock.gotos
  | switchStmt swvalue _ stmts => swvalue.gotos ++ gotosAll stmts
  | gotoStmt label => [label]
  | labelStmt _ | returnStmt .. => []
  | deferStmt undefer defer => undefer.gotos ++ defer.gotos
  | excepStmt body onexception _ finally_ => body.gotos ++ onexception.gotos ++ finally_.gotos
def gotosAll : List BnodeTree → List LabelId
  | [] => []
  | n :: ns => n.gotos ++ gotosAll ns
end

mutual
/-- The number of defer statements. -/
def defers : BnodeTree → ℕ
  | expr kids _ _ => defersAll kids
  | exprStmt e => e.defers
  | block _ stmts => defersAll stmts
  | ifStmt cond trueBlock falseBlock => cond.defers + trueBlock.defers + falseBlock.defers
  | switchStmt swvalue _ stmts => swvalue.defers + defersAll stmts
  | gotoStmt _ | labelStmt _ | returnStmt .. => 0
  | deferStmt undefer defer => 1 + undefer.defers + defer.defers
  | excepStmt body onexception _ finally_ => body.defers + onexception.defers + finally_.defers
def defersAll : List BnodeTree → ℕ
  | [] => 0
  | n :: ns => n.defers + defersAll ns
end

/-- The returns to the finally part of an exception statement. -/
def returnsToFinally (body onexception : BnodeTree) (hasFinally : Bool) : List Return :=
  if hasFinally then body.returns ++ onexception.returns else []

mutual
/-- All of them.  They are at the end of the code, in no statement but blocks. -/
def finallyReturns : BnodeTree → List Return
  | block _ stmts => finallyReturnsAll stmts
  | excepStmt body onexception hasFinally _ => returnsToFinally body onexception hasFinally
  | _ => []
def finallyReturnsAll : List BnodeTree → List Return
  | [] => []
  | n :: ns => n.finallyReturns ++ finallyReturnsAll ns
end

mutual
/-- Control stays in the block where it is, where `pad` says that calls have a landing pad. -/
def stays (fn : Instructions) (pad : Bool) : BnodeTree → Bool
  | expr kids _ insts => staysAll fn pad kids && insts.all fun i => !(pad && fn.mayThrow i)
  | exprStmt e => e.stays fn pad
  | block _ stmts => staysAll fn pad stmts
  | _ => false
def staysAll (fn : Instructions) (pad : Bool) : List BnodeTree → Bool
  | [] => true
  | n :: ns => n.stays fn pad && staysAll fn pad ns
end

mutual
/-- What the lowering takes for granted.  Control does not come to the end of a case, or is in
the case's own block there; the expression of a return has no transfers of control in it; a
finally part that is not there has no entries; and nothing comes after an exception statement
that keeps a return for the end of its finally part. -/
def isRegular (fn : Instructions) (pad last : Bool) : BnodeTree → Bool
  | expr kids _ _ => areRegular fn pad false kids
  | exprStmt e => e.isRegular fn pad false
  | block _ stmts => areRegular fn pad last stmts
  | ifStmt cond trueBlock falseBlock => cond.isRegular fn pad false &&
    trueBlock.isRegular fn pad false && falseBlock.isRegular fn pad false
  | switchStmt swvalue _ stmts => swvalue.isRegular fn pad false && casesRegular fn pad stmts
  | gotoStmt _ | labelStmt _ => true
  | returnStmt re _ => re.isCode
  | deferStmt undefer defer => undefer.isRegular fn true false && defer.isRegular fn pad false
  | excepStmt body onexception hasFinally finally_ => body.isRegular fn true false &&
    onexception.isRegular fn true false && finally_.isRegular fn false false &&
      (hasFinally || finally_.isCode) &&
        (last || !hasFinally || (body.returns ++ onexception.returns).isEmpty)
def areRegular (fn : Instructions) (pad last : Bool) : List BnodeTree → Bool
  | [] => true
  | n :: ns => n.isRegular fn pad (last && ns.isEmpty) && areRegular fn pad last ns
def casesRegular (fn : Instructions) (pad : Bool) : List BnodeTree → Bool
  | [] => true
  | st :: stmts => st.isRegular fn pad false && (!st.ends true || st.stays fn pad) &&
    casesRegular fn pad stmts
end

/-- A function's code whose labels are defined once, and all those that control is sent to. -/
structure WellFormed (fn : Instructions) (code : BnodeTree) : Prop where
  labels : code.labels.Nodup
  gotos : code.gotos ⊆ code.labels
  regular : code.isRegular fn false true

end BnodeTree

/-- The entry is the start, or one of these. -/
def EntryPoint.within (ls : List LabelId) (lo hi : ℕ) : EntryPoint → Bool
  | start => true
  | label l => decide (l ∈ ls)
  | retry d => decide (lo ≤ d ∧ d < hi)

namespace EntryPoint

variable {ls : List LabelId} {lo hi : ℕ}

@[simp] theorem within_start : start.within ls lo hi = true := rfl

@[simp] theorem within_label {l : LabelId} : (label l).within ls lo hi = true ↔ l ∈ ls :=
  decide_eq_true_iff

@[simp] theorem within_retry {d : ℕ} : (retry d).within ls lo hi = true ↔ lo ≤ d ∧ d < hi :=
  decide_eq_true_iff

end EntryPoint

/-- The entry is into a statement before which there are `d` defer statements. -/
def EntryPoint.into (d : ℕ) (n : BnodeTree) : EntryPoint → Bool := within n.labels d (d + n.defers)

/-- The case of a switch, or else the default if there is one. -/
def caseOf (vals : List (List ℤ)) (v : ℤ) : Option ℕ :=
  (vals.findIdx? fun c => decide (v ∈ c)).or (vals.findIdx? List.isEmpty)

namespace Meaning

variable {fn : Instructions} {σ : Type} (M : Meaning fn σ)

def runInsts : List InstRef → σ → Outcome σ
  | [], st => .done st
  | i :: insts, st =>
    if M.throws i st then .threw (M.exec i st) else runInsts insts (M.exec i st)

mutual
/-- The expression of a return. -/
def runCode : BnodeTree → σ → Outcome σ
  | .expr kids _ insts, st => (runCodes kids st).andThen (M.runInsts insts)
  | .exprStmt e, st => runCode e st
  | .block _ stmts, st => runCodes stmts st
  | .ifStmt cond trueBlock falseBlock, st => (runCode cond st).andThen fun st =>
    if cond.value.any (M.truth · st) then runCode trueBlock st else runCode falseBlock st
  | _, st => .done st
def runCodes : List BnodeTree → σ → Outcome σ
  | [], st => .done st
  | n :: ns, st => (runCode n st).andThen (runCodes ns)
end

/-- A return, and its expression before it. -/
def runReturn (r : Return) (st : σ) : Outcome σ :=
  (M.runCode r.1 st).andThen fun st => .ret (M.returned r.2 st)

/-- A return that was kept comes after the finally part. -/
def runKept : Option Return → σ → Outcome σ
  | none, st => .done st
  | some r, st => M.runReturn r st

end Meaning

/-- What is done about the returns to a finally part: at such a return, where control comes to the
finally part of a statement with these returns in another way, and after that part. -/
structure FinallyReturns (σ : Type) where
  keep : Return → σ → σ
  fall : List Return → σ → σ
  after : List Return → σ → Outcome σ

namespace Meaning

variable {fn : Instructions} {σ : Type} (M : Meaning fn σ) (R : FinallyReturns σ)

/-- The code for an exception has been run: whatever happened in it, it is over. -/
def caught (fall : σ → σ) (finish : σ → Outcome σ) : Outcome σ → Outcome σ
  | .done st | .threw st => finish (fall st)
  | .leave st => finish st
  | o => o

/-- The deferred calls have been run: the defer statement begins again. -/
def again (d : ℕ) (o : Outcome σ) : Outcome σ := o.andThen (.retry d)

mutual
/-- A statement, from one of its entries on.  `fin` says that a return is one to a finally
part, and `d` is the number of the first defer statement. -/
def run (fin : Bool) (d : ℕ) : BnodeTree → EntryPoint → σ → Outcome σ
  | .expr kids _ insts, x, st => (runAll fin d kids x st).andThen (M.runInsts insts)
  | .exprStmt e, x, st => run fin d e x st
  | .block _ stmts, x, st => runAll fin d stmts x st
  | .ifStmt cond trueBlock falseBlock, x, st =>
    if x.into d cond then (run fin d cond x st).andThen fun st =>
      if cond.value.any (M.truth · st) then run fin (d + cond.defers) trueBlock .start st
      else run fin (d + cond.defers + trueBlock.defers) falseBlock .start st
    else if x.into (d + cond.defers) trueBlock then run fin (d + cond.defers) trueBlock x st
    else run fin (d + cond.defers + trueBlock.defers) falseBlock x st
  | .switchStmt swvalue vals stmts, x, st =>
    if x.into d swvalue then (run fin d swvalue x st).andThen fun st =>
      match swvalue.value.bind fun v => caseOf vals (M.select v st) with
      | none => .done st
      | some k => runNth fin (d + swvalue.defers) stmts k st
    else runCase fin (d + swvalue.defers) stmts x st
  | .gotoStmt label, _, st => .goto label st
  | .labelStmt _, _, st => .done st
  | .returnStmt re ri, _, st =>
    if fin then .leave (R.keep (re, ri) st) else M.runReturn (re, ri) st
  | .deferStmt undefer defer, x, st =>
    if x = .retry d ∨ x.into (d + 1) undefer then
      (run fin (d + 1) undefer (if x = .retry d then .start else x) st).handle fun st =>
        again d (run fin (d + 1 + undefer.defers) defer .start st)
    else again d (run fin (d + 1 + undefer.defers) defer x st)
  | .excepStmt body onexception hasFinally finally_, x, st =>
    let returns := BnodeTree.returnsToFinally body onexception hasFinally
    let onexc := run hasFinally (d + body.defers) onexception
    let fin' := run false (d + body.defers + onexception.defers) finally_
    let finish := fun st => if hasFinally then (fin' .start st).andThen (R.after returns)
      else .done st
    if x.into d body then
      caught (R.fall returns) finish ((run hasFinally d body x st).handle (onexc .start))
    else if x.into (d + body.defers) onexception then caught (R.fall returns) finish (onexc x st)
    else (fin' x st).andThen (R.after returns)
def runAll (fin : Bool) (d : ℕ) : List BnodeTree → EntryPoint → σ → Outcome σ
  | [], _, st => .done st
  | n :: ns, x, st =>
    if x.into d n then (run fin d n x st).andThen (runAll fin (d + n.defers) ns .start)
    else runAll fin (d + n.defers) ns x st
/-- One case of a switch. -/
def runNth (fin : Bool) (d : ℕ) : List BnodeTree → ℕ → σ → Outcome σ
  | [], _, st => .done st
  | n :: _, 0, st => run fin d n .start st
  | n :: ns, k + 1, st => runNth fin (d + n.defers) ns k st
/-- The case of a switch that an entry is into. -/
def runCase (fin : Bool) (d : ℕ) : List BnodeTree → EntryPoint → σ → Outcome σ
  | [], _, st => .done st
  | n :: ns, x, st => if x.into d n then run fin d n x st else runCase fin (d + n.defers) ns x st
end

end Meaning

/-! ## Returns to a finally part -/

namespace Meaning

variable {fn : Instructions} {σ : Type} (M : Meaning fn σ)

/-- The same instructions, beside the return that is to come after a finally part. -/
def carrying : Meaning fn (σ × Option Return) where
  exec i st := (M.exec i st.1, st.2)
  throws i st := M.throws i st.1
  truth v st := M.truth v st.1
  select v st := M.select v st.1
  returned ri st := (M.returned ri st.1, st.2)
  ended st := (M.ended st.1, st.2)
  mayThrow_of_throws i st h := M.mayThrow_of_throws i st.1 h

/-- Each return is taken after the finally part that it was to. -/
def ownReturns : FinallyReturns (σ × Option Return) where
  keep r st := (st.1, some r)
  fall returns st := if returns.isEmpty then st else (st.1, none)
  after returns st := if returns.isEmpty then .done st else M.carrying.runKept st.2 st

/-- One return is taken after the finally part for all. -/
def movedReturns : FinallyReturns σ where
  keep _ st := st
  fall _ st := st
  after returns := M.runKept returns.head?

end Meaning

/-! ## Whole functions -/

/-- How a run of a function ends: with a return, or with an exception that nothing in it
catches. -/
inductive Exit (σ : Type)
  | returned (st : σ)
  | unwound (st : σ)
deriving DecidableEq, Repr

def Exit.map {σ τ : Type} (f : σ → τ) : Exit σ → Exit τ
  | returned st => returned (f st)
  | unwound st => unwound (f st)

namespace Meaning

variable {fn : Instructions} {σ : Type} (M : Meaning fn σ)

/-- How a function goes on: from another entry, or not at all. -/
def proceed : Outcome σ → (EntryPoint × σ) ⊕ Exit σ
  | .done st | .leave st => .inr (.returned (M.ended st))
  | .goto l st => .inl (.label l, st)
  | .retry d st => .inl (.retry d, st)
  | .ret st => .inr (.returned st)
  | .threw st => .inr (.unwound st)

/-- A function's code, from an entry to the next one. -/
def codeStep (R : FinallyReturns σ) (code : BnodeTree) (p : EntryPoint × σ) :
    Option ((EntryPoint × σ) ⊕ Exit σ) :=
  if p.1.into 0 code then some (M.proceed (M.run R false 0 code p.1 p.2)) else none

/-- What a function's statements mean. -/
def statementStep (code : BnodeTree) (p : EntryPoint × σ × Option Return) :
    Option ((EntryPoint × σ × Option Return) ⊕ Exit σ) :=
  (M.carrying.codeStep M.ownReturns code p).map (Sum.map id (Exit.map Prod.fst))

/-- In a block, after that many of its instructions. -/
abbrev Point (σ : Type) := BlockRef × ℕ × σ

/-- One instruction of a block.  The return that closes the last block ends the function. -/
def stepInst (b : BlockRef) (k : ℕ) (st : σ) : BlockInst → Point σ ⊕ Exit σ
  | .inst i => if M.throws i st then .inr (.unwound (M.exec i st)) else .inl (b, k + 1, M.exec i st)
  | .ret ri => .inr (.returned (M.returned ri st))
  | .fixup => .inr (.returned (M.ended st))
  | .invoke call cont pad => .inl (if M.throws call st then pad else cont, 0, M.exec call st)
  | .landingPad => .inl (b, k + 1, st)
  | .br target => .inl (target, 0, st)
  | .condBr cond t f => .inl (if M.truth cond st then t else f, 0, st)
  | .switch value default_ cases =>
    .inl (((cases.find? fun c => decide (c.1 = M.select value st)).map Prod.snd).getD default_, 0,
      st)

/-- The step of a function's blocks.  There is none at the end of a block that is left open. -/
def blockStep (blocks : List (List BlockInst)) : Point σ → Option (Point σ ⊕ Exit σ)
  | (b, k, st) => do
    let insts ← blocks[b]?
    let i ← insts[k]?
    some (M.stepInst b k st i)

end Meaning

end Dragongo
