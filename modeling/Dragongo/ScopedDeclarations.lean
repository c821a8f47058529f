import Dragongo.LexicalScopes

/-!
# The scopes of variables

What a function's code declares for debugging, and in which scopes.
-/

namespace Dragongo

/-! ## The walk of the code -/

def Event.declares : Event → Option (List Bvariable)
  | declare vars => some vars
  | _ => none

def Hook.ends : Hook → Option (List Bvariable)
  | endLexicalBlock _ vars => some vars
  | beginLexicalBlock .. => none

/-- The calls declare what the walk does. -/
def Matches (hooks : List Hook) (es : List Event) : Prop :=
  hooks.filterMap Hook.ends = es.filterMap Event.declares

theorem Matches.append {hooks hooks' : List Hook} {es es' : List Event} (h : Matches hooks es)
    (h' : Matches hooks' es') : Matches (hooks ++ hooks') (es ++ es') := by
  rw [Matches, List.filterMap_append, List.filterMap_append, h, h']

theorem Matches.silent {hooks : List Hook} {es es' : List Event} (h : Matches hooks es)
    (hes : es'.filterMap Event.declares = []) : Matches hooks (es ++ es') := by
  rw [Matches, List.filterMap_append, hes, List.append_nil, h]

theorem instEvents_silent (fn : Instructions) (c : Ctx) (insts : List InstRef) :
    (instEvents fn c insts).filterMap Event.declares = [] := by
  rw [List.filterMap_eq_nil_iff]
  intro e he
  obtain ⟨i, -, he⟩ := List.mem_flatMap.mp he
  split_ifs at he
  · cases he
  · cases List.mem_singleton.mp he
    rfl
  · cases List.mem_singleton.mp he
    rfl

theorem returnEvents_silent (live : Bool) (ri : InstRef) :
    (returnEvents live ri).filterMap Event.declares = [] := by
  cases live <;> rfl

mutual
theorem BnodeTree.returnsAt_snd (p : NodePath) :
    ∀ n : BnodeTree, (n.returnsAt p).map Prod.snd = n.returns.map Prod.fst
  | .expr kids _ _ => returnsAtAll_snd p 0 kids
  | .exprStmt e => returnsAt_snd (0 :: p) e
  | .block _ stmts => returnsAtAll_snd p 0 stmts
  | .ifStmt cond trueBlock falseBlock => by
    simp only [returnsAt, returns, List.map_append, returnsAt_snd]
  | .switchStmt swvalue _ stmts => by
    simp only [returnsAt, returns, List.map_append, returnsAt_snd, returnsAtAll_snd]
  | .gotoStmt _ => rfl
  | .labelStmt _ => rfl
  | .returnStmt _ _ => rfl
  | .deferStmt undefer defer => by
    simp only [returnsAt, returns, List.map_append, returnsAt_snd]
  | .excepStmt body onexception _ finally_ => by
    simp only [returnsAt, returns, List.map_append, returnsAt_snd]
theorem BnodeTree.returnsAtAll_snd (p : NodePath) (k : ℕ) : ∀ ns : List BnodeTree,
    (returnsAtAll p k ns).map Prod.snd = (returnsAll ns).map Prod.fst
  | [] => rfl
  | n :: ns => by
    simp only [returnsAtAll, returnsAll, List.map_append, returnsAt_snd, returnsAtAll_snd]
end

section Match

variable {keptH : NodePath → BnodeTree → List Hook} {keptE : Ctx → BnodeTree → List Event}
  (fn : Instructions)

theorem keptReturn_matches (hk : ∀ p re c, c.fin = false → Matches (keptH p re) (keptE c re))
    {rs : List (NodePath × BnodeTree)} {rs' : List (BnodeTree × InstRef)}
    (hrs : rs.map Prod.snd = rs'.map Prod.fst) (live : Bool) :
    Matches (keptReturnHooks keptH rs.head?) (Dragongo.keptReturn keptE live rs'.head?) := by
  cases rs with
  | nil =>
    rw [List.map_nil, eq_comm, List.map_eq_nil_iff] at hrs
    subst hrs
    rfl
  | cons r rs =>
    cases rs' with
    | nil => cases hrs
    | cons r' rs' =>
      have hr : r.2 = r'.1 := (List.cons.inj hrs).1
      have hmatch := (hk r.1 r.2 (.top live true) rfl).silent (returnEvents_silent live r'.2)
      rw [hr] at hmatch
      simpa only [List.head?_cons, keptReturnHooks, Dragongo.keptReturn, hr] using hmatch

mutual
theorem hooks_match (hk : ∀ p re c, c.fin = false → Matches (keptH p re) (keptE c re)) (c : Ctx)
    (p : NodePath) : ∀ n : BnodeTree,
    Matches (hooksWith keptH c.fin p n) (eventsWith keptE fn c n)
  | .expr kids _ _ => (hooksAll_match hk c p 0 kids).silent (instEvents_silent fn _ _)
  | .exprStmt e => hooks_match hk c (0 :: p) e
  | .block vars stmts => by
    have hstmts := hooksAll_match hk c p 0 stmts
    have hend : Matches [.endLexicalBlock p vars] [.declare vars] := rfl
    exact hstmts.append hend
  | .ifStmt cond trueBlock falseBlock =>
    ((hooks_match hk c _ cond).append
      (hooks_match hk (c.after cond).jump _ trueBlock)).append
        (hooks_match hk ((c.after cond).jump.after trueBlock).jump _ falseBlock)
  | .switchStmt swvalue _ stmts =>
    (hooks_match hk c _ swvalue).append (hooksCases_match hk (c.after swvalue).jump p 1 stmts)
  | .gotoStmt _ => rfl
  | .labelStmt _ => rfl
  | .returnStmt re ri => by
    have hre := hooks_match hk c (0 :: p) re
    rw [hooksWith, eventsWith]
    cases hfin : c.fin with
    | false =>
      rw [hfin] at hre
      exact hre.silent (returnEvents_silent _ ri)
    | true =>
      rw [if_pos rfl, if_pos rfl]
      split_ifs
      · have hnone : ∀ l : List InstRef, (l.map Event.drop).filterMap Event.declares = [] := by
          intro l
          rw [List.filterMap_map, List.filterMap_eq_nil_iff]
          exact fun _ _ => rfl
        exact (hnone _).symm
      · rfl
  | .deferStmt undefer defer =>
    (hooks_match hk { c.jump with pad := true } _ undefer).append
      (hooks_match hk (c.jump.after undefer).jump _ defer)
  | .excepStmt body onexception hasFinally finally_ => by
    have hbody := hooks_match hk (.excep c.live hasFinally) (0 :: p) body
    have hcatch := hooks_match hk ((Ctx.excep c.live hasFinally).after body).jump (1 :: p)
      onexception
    refine (hbody.append hcatch).append ?_
    cases hasFinally with
    | false => rfl
    | true =>
      refine (hooks_match hk (.top true _) (2 :: p) finally_).append
        (keptReturn_matches hk ?_ _)
      rw [List.map_append, List.map_append, BnodeTree.returnsAt_snd, BnodeTree.returnsAt_snd]
theorem hooksAll_match (hk : ∀ p re c, c.fin = false → Matches (keptH p re) (keptE c re))
    (c : Ctx) (p : NodePath) (k : ℕ) : ∀ ns : List BnodeTree,
    Matches (hooksAllWith keptH c.fin p k ns) (eventsAllWith keptE fn c ns)
  | [] => rfl
  | n :: ns => (hooks_match hk c _ n).append (hooksAll_match hk (c.after n) p (k + 1) ns)
theorem hooksCases_match (hk : ∀ p re c, c.fin = false → Matches (keptH p re) (keptE c re))
    (c : Ctx) (p : NodePath) (k : ℕ) : ∀ ns : List BnodeTree,
    Matches (hooksAllWith keptH c.fin p k ns) (eventsCasesWith keptE fn c ns)
  | [] => rfl
  | n :: ns =>
    (hooks_match hk c _ n).append (hooksCases_match hk (c.after n).jump p (k + 1) ns)
end

/-- The calls of a function's code declare what its walk declares. -/
theorem hooks_matches (code : BnodeTree) : Matches (hooks code) (events fn code) := by
  refine hooks_match fn (fun p re c hc => ?_) (.top true false) [] code
  have hnone : ∀ (p : NodePath) (re : BnodeTree) (c : Ctx), c.fin = false →
      Matches ((fun _ _ => []) p re) ((fun _ _ => []) c re) := fun _ _ _ _ => rfl
  have hre := hooks_match fn hnone c p re
  rw [hc] at hre
  exact hre

end Match

/-- The variables that a run has declared. -/
theorem Effects.run_declared (a : Effects) (es : List Event) :
    (a.run es).declared = (es.filterMap Event.declares).foldl declareVars a.declared := by
  induction es generalizing a with
  | nil => rfl
  | cons e es ih =>
    rw [run_cons, ih]
    cases e with
    | place i => rfl
    | drop i => rfl
    | declare vars =>
      rw [step, processVars_declared]
      rfl

namespace DIBuildHelper

variable {h h' : DIBuildHelper}

theorem declareVars_of_not_interesting (declared : List Bvariable) {vars : List Bvariable}
    (hvars : ¬interestingBlock vars) : declareVars declared vars = declared := by
  let h : DIBuildHelper := ⟨[], declared, []⟩
  have hsame : h.processVarsInBlock .subprogram vars = h :=
    Declares.processVarsInBlock_of_not_interesting h hvars
  exact (h.processVarsInBlock_declared .subprogram vars).symm.trans (congrArg (·.declared) hsame)

theorem step_declared {hook : Hook} (hs : h.step hook = some h') :
    h'.declared = hook.ends.elim h.declared (declareVars h.declared) := by
  cases hook with
  | beginLexicalBlock block vars =>
    rw [step, beginLexicalBlock] at hs
    split_ifs at hs
    · cases hs
      rfl
    · obtain ⟨scope, -, rfl⟩ := Option.map_eq_some_iff.mp hs
      rfl
  | endLexicalBlock block vars =>
    rw [step, endLexicalBlock] at hs
    split_ifs at hs with hvars
    · cases hs
      exact (declareVars_of_not_interesting h.declared (by simpa using hvars)).symm
    · obtain ⟨scope, -, rfl⟩ := Option.map_eq_some_iff.mp hs
      exact h.processVarsInBlock_declared scope vars
    · obtain ⟨⟨scope, h₁⟩, hpop, rfl⟩ := Option.map_eq_some_iff.mp hs
      have hdeclared : h₁.declared = h.declared := by
        rw [popDIScope] at hpop
        split at hpop
        · cases hpop
        · cases hpop
          rfl
      exact (h₁.processVarsInBlock_declared scope vars).trans (by rw [hdeclared]; rfl)

theorem run_declared {hooks : List Hook} (hrun : h.run hooks = some h') :
    h'.declared = (hooks.filterMap Hook.ends).foldl declareVars h.declared := by
  induction hooks generalizing h with
  | nil =>
    cases hrun
    rfl
  | cons hook hooks ih =>
    obtain ⟨h₁, hs, hrun⟩ := Option.bind_eq_some_iff.mp hrun
    rw [ih hrun, step_declared hs]
    cases hends : hook.ends with
    | none => rw [List.filterMap_cons_none hends]; rfl
    | some vars => rw [List.filterMap_cons_some hends]; rfl

/-! ## The end of the function -/

theorem endFunction_eq (f : Bfunction)
    (hstack : h.diScopeStack = [.subprogram, .compileUnit]) :
    h.endFunction f = some
      { (h.declareParameters .subprogram f.params).processVarsInBlock .subprogram
          f.localVariables with diScopeStack := [.compileUnit] } := by
  have hstack' : ((h.declareParameters .subprogram f.params).processVarsInBlock .subprogram
      f.localVariables).diScopeStack = [.subprogram, .compileUnit] :=
    (processVarsInBlock_stack ..).trans hstack
  simp only [endFunction, currentDIScope, hstack, List.head?_cons, Option.bind_eq_bind,
    Option.bind_some, guard_true, popDIScope, hstack', Option.pure_def]

theorem declareParameters_declarationsOf (scope : DIScope) (params : List Bparam)
    (v : Bvariable) :
    (h.declareParameters scope params).declarationsOf v = h.declarationsOf v := by
  rw [declarationsOf, declareParameters, List.filter_append, declarationsOf]
  have hnone : (params.zipIdx.map fun p => DILocalVariable.parameter scope p.1 (p.2 + 1)).filter
      (·.isAuto v) = [] := by
    rw [List.filter_eq_nil_iff]
    intro d hd
    obtain ⟨p, -, rfl⟩ := List.mem_map.mp hd
    exact Bool.false_ne_true
  rw [hnone, List.append_nil]

theorem processVarsInBlock_parameters (h : DIBuildHelper) (scope : DIScope)
    (vars : List Bvariable) : (h.processVarsInBlock scope vars).localVars.filter (·.isParameter) =
      h.localVars.filter (·.isParameter) := by
  induction vars generalizing h with
  | nil => rfl
  | cons v vars ih =>
    rw [processVarsInBlock]
    split_ifs
    · exact ih h
    · rw [ih, declareAuto, List.filter_append]
      exact List.append_nil _

theorem processAll_parameters (h : DIBuildHelper) (blocks : List ScopedBlock) :
    (h.processAll blocks).localVars.filter (·.isParameter) =
      h.localVars.filter (·.isParameter) := by
  induction blocks generalizing h with
  | nil => rfl
  | cons b blocks ih => exact (ih _).trans (h.processVarsInBlock_parameters b.scope b.vars)

end DIBuildHelper

/-- The blocks of a function's code with their scopes. -/
def BnodeTree.scopes (code : BnodeTree) : List ScopedBlock := scopedBlocks .subprogram [] code

/-- The walk of a block leaves the stack as it was. -/
def RestoresStack (kept : NodePath → BnodeTree → List Hook) : Prop :=
  ∀ (fin : Bool) (p : NodePath) (vars : List Bvariable) (stmts : List BnodeTree)
    (h : DIBuildHelper), h.diScopeStack ≠ [] →
      ∃ h', h.run (hooksWith kept fin p (.block vars stmts)) = some h' ∧
        h'.diScopeStack = h.diScopeStack

/-- What is declared when the code has been walked, and what when the function has ended. -/
structure DeclaredOnce (f : Bfunction) (code : BnodeTree) (h h' : DIBuildHelper) : Prop where
  stack : h.diScopeStack = DIBuildHelper.new.beginFunction.diScopeStack
  inBlock : ∀ b ∈ code.scopes, ∀ v ∈ b.vars, ¬v.isTemporary →
    (∀ b' ∈ code.scopes, v ∈ b'.vars → b' = b) →
      h.declarationsOf v = [.auto b.scope v] ∧ h'.declarationsOf v = [.auto b.scope v]
  once : ∀ v : Bvariable, ¬v.isTemporary →
    (∃ b ∈ code.scopes, v ∈ b.vars) ∨ v ∈ f.localVariables → (h'.declarationsOf v).length = 1
  left : ∀ v ∈ f.localVariables, ¬v.isTemporary → (∀ b ∈ code.scopes, v ∉ b.vars) →
    h'.declarationsOf v = [.auto .subprogram v]
  parameters : h'.localVars.filter (·.isParameter) =
    f.params.zipIdx.map fun p => .parameter .subprogram p.1 (p.2 + 1)

/-- Processing the code of a function for debugging, on which its walk agrees. -/
def ScopesHold (f : Bfunction) (code : BnodeTree) (s : GenBlocks) : Prop :=
  RestoresStack keptHooks ∧ RestoresStack (fun _ _ => []) ∧
    ∃ h h', DIBuildHelper.new.beginFunction.run (hooks code) = some h ∧
      h.endFunction f = some h' ∧ h'.declared = s.declared ∧ DeclaredOnce f code h h'

theorem Declares.restoresStack {kept : NodePath → BnodeTree → List Hook}
    (hk : ∀ scope p re, Declares (kept p re) scope re.blockVars false []) :
    RestoresStack kept := by
  intro fin p vars stmts h hstack
  obtain ⟨scope, scopes, hcons⟩ := List.exists_cons_of_ne_nil hstack
  obtain ⟨ended, hrun, -, -⟩ := of_hooks hk fin p scope (.block vars stmts)
  have hscope : h.currentDIScope = some scope := by
    rw [DIBuildHelper.currentDIScope, hcons]
    rfl
  exact ⟨_, hrun h hscope, h.processAll_stack ended⟩

theorem Declares.kept (scope : DIScope) (p : NodePath) (re : BnodeTree) :
    Declares (keptHooks p re) scope re.blockVars false [] :=
  (of_hooks (fun _ _ _ => skip nofun) false p scope re).mono (fun _ hx => hx) nofun nofun

namespace GenBlocks

/-- The variables that are declared when the function is over. -/
theorem functionSetBody_declared {f : Bfunction} {fn : Instructions} {code : BnodeTree}
    {s : GenBlocks} (hs : functionSetBody f fn code = some s) :
    s.declared = declareVars (((events fn code).filterMap Event.declares).foldl declareVars [])
      f.localVariables := by
  obtain ⟨⟨block, s₁⟩, hwalk, hs⟩ := Option.bind_eq_some_iff.mp hs
  obtain ⟨s₂, hfinish, hs⟩ := Option.bind_eq_some_iff.mp hs
  have hepilog : s.declared = s₂.declared := by
    cases block with
    | none =>
      cases hs
      rfl
    | some b =>
      cases hs
      unfold fixupEpilogBlock
      split_ifs <;> rfl
  obtain ⟨entry, -, hfinish⟩ := Option.bind_eq_some_iff.mp hfinish
  obtain ⟨params, -, hfinish⟩ := Option.bind_eq_some_iff.mp hfinish
  rw [if_pos (walked_code hwalk).valid.debug] at hfinish
  cases hfinish
  have heffects := congrArg Effects.declared (walked_code hwalk).effects
  rw [Effects.run_declared] at heffects
  let s₂ : GenBlocks := { s₁ with
    decls := s₁.decls ++ params.map fun p => ⟨p.1, s₁.standing p.2⟩ }
  have hlocals := congrArg Effects.declared (effects_processVars s₂ f.localVariables).1
  rw [Effects.processVars_declared] at hlocals
  rw [hepilog]
  exact hlocals.trans (congrArg (declareVars · f.localVariables) heffects)

end GenBlocks

section Once
open DIBuildHelper

variable (f : Bfunction) {code : BnodeTree} {ended : List ScopedBlock}

theorem interesting_of_mem {v : Bvariable} {vars : List Bvariable} (ht : ¬v.isTemporary)
    (hv : v ∈ vars) : interestingBlock vars := by
  rw [interestingBlock, List.any_eq_true]
  exact ⟨v, hv, by simpa using ht⟩

theorem declaredOnce
    (hended : ∀ b, interestingBlock b.vars → (b ∈ ended ↔ b ∈ code.scopes)) :
    DeclaredOnce f code (new.beginFunction.processAll ended)
      { ((new.beginFunction.processAll ended).declareParameters .subprogram
          f.params).processVarsInBlock .subprogram f.localVariables with
        diScopeStack := [.compileUnit] } := by
  let h := new.beginFunction.processAll ended
  let p := h.declareParameters .subprogram f.params
  have hdeclared : ∀ v : Bvariable, v ∈ h.declared ↔
      ¬v.isTemporary ∧ ∃ b ∈ code.scopes, v ∈ b.vars := by
    intro v
    have hnew : v ∉ new.beginFunction.declared := List.not_mem_nil
    rw [mem_processAll_declared, or_iff_right hnew]
    refine and_congr_right fun ht => exists_congr fun b => ?_
    exact and_congr_left fun hv => hended b (interesting_of_mem ht hv)
  -- a variable of a block has its declaration before the function ends
  have hblock : ∀ v : Bvariable, ¬v.isTemporary → (∃ b ∈ code.scopes, v ∈ b.vars) →
      ∃ b ∈ code.scopes, v ∈ b.vars ∧ h.declarationsOf v = [.auto b.scope v] ∧
        (p.processVarsInBlock .subprogram f.localVariables).declarationsOf v =
          [.auto b.scope v] := by
    intro v ht hex
    have hmem : ∃ b ∈ ended, v ∈ b.vars := by
      obtain ⟨b, hb, hv⟩ := hex
      exact ⟨b, (hended b (interesting_of_mem ht hv)).mpr hb, hv⟩
    obtain ⟨b, hb, hv, heq⟩ :=
      processAll_declarationsOf_of_mem new.beginFunction ended List.not_mem_nil ht hmem
    have hscopes := (hended b (interesting_of_mem ht hv)).mp hb
    have hdone : v ∈ p.declared := (hdeclared v).mpr ⟨ht, hex⟩
    refine ⟨b, hscopes, hv, heq, ?_⟩
    rw [declarationsOf_of_declared p .subprogram f.localVariables hdone,
      declareParameters_declarationsOf]
    exact heq
  have hleft : ∀ v ∈ f.localVariables, ¬v.isTemporary → (∀ b ∈ code.scopes, v ∉ b.vars) →
      (p.processVarsInBlock .subprogram f.localVariables).declarationsOf v =
        [.auto .subprogram v] := by
    intro v hv ht hnone
    have hnew : v ∉ p.declared := fun hmem =>
      ((hdeclared v).mp hmem).2.elim fun b hb => hnone b hb.1 hb.2
    have hempty : h.declarationsOf v = [] := by
      refine processAll_declarationsOf_of_notMem new.beginFunction ended fun b hb hvb => ?_
      exact hnone b ((hended b (interesting_of_mem ht hvb)).mp hb) hvb
    rw [declarationsOf_of_mem p .subprogram f.localVariables hnew ht hv,
      declareParameters_declarationsOf, hempty]
    rfl
  refine ⟨processAll_stack .., fun b hb v hv ht honly => ?_, fun v ht hv => ?_, hleft, ?_⟩
  · obtain ⟨b', hb', hv', heq, heq'⟩ := hblock v ht ⟨b, hb, hv⟩
    rw [← honly b' hb' hv']
    exact ⟨heq, heq'⟩
  · by_cases hex : ∃ b ∈ code.scopes, v ∈ b.vars
    · obtain ⟨b, -, -, -, heq⟩ := hblock v ht hex
      exact congrArg List.length heq
    · have heq := hleft v (hv.resolve_left hex) ht fun b hb hvb => hex ⟨b, hb, hvb⟩
      exact congrArg List.length heq
  · refine (processVarsInBlock_parameters p .subprogram f.localVariables).trans ?_
    have hnone : h.localVars.filter (·.isParameter) = [] := processAll_parameters _ ended
    refine (List.filter_append ..).trans ?_
    rw [hnone, List.nil_append, List.filter_eq_self]
    intro d hd
    obtain ⟨q, -, rfl⟩ := List.mem_map.mp hd
    rfl

end Once

open DIBuildHelper in
/-- Every variable of a block is declared once, in the scope that the nesting gives the block,
and every other one at the end of the function, if no return to a finally part has variables of
the program in its expression. -/
theorem scopes_hold (f : Bfunction) (fn : Instructions) (code : BnodeTree) (s : GenBlocks)
    (hs : GenBlocks.functionSetBody f fn code = some s) (hplain : code.plainReturns false) :
    ScopesHold f code s := by
  refine ⟨Declares.restoresStack .kept, Declares.restoresStack fun _ _ _ => .skip nofun, ?_⟩
  obtain ⟨ended, hrun, -, hended⟩ := Declares.of_hooks .kept false [] .subprogram code
  let start := new.beginFunction
  have hwalk : start.run (hooks code) = some (start.processAll ended) := hrun start rfl
  have hstack : (start.processAll ended).diScopeStack = [.subprogram, .compileUnit] :=
    start.processAll_stack ended
  refine ⟨_, _, hwalk, endFunction_eq f hstack, ?_, ?_⟩
  · rw [GenBlocks.functionSetBody_declared hs, ← hooks_matches fn code]
    refine (processVarsInBlock_declared _ .subprogram f.localVariables).trans ?_
    exact congrArg (declareVars · f.localVariables) (run_declared hwalk)
  · exact declaredOnce f fun b hb => hended hplain b hb

/-- Two variables, and a temporary one. -/
def outerVar : Bvariable := ⟨0, false, none⟩

def innerVar : Bvariable := ⟨1, false, none⟩

def tempVar : Bvariable := ⟨2, true, none⟩

/-- A variable in a block of its own, inside of one for a temporary. -/
def nestedBlocks : BnodeTree :=
  .block [outerVar] [.block [tempVar] [.block [innerVar] []], .returnStmt (.expr [] none []) 1]

theorem nestedBlocks_hold : ∃ s, ScopesHold ⟨[.indirect 3], none, [0], [outerVar, innerVar, tempVar]⟩
    nestedBlocks s :=
  ⟨_, scopes_hold _ ⟨fun _ => [], fun _ => false⟩ nestedBlocks _ rfl (by decide)⟩

/-- A return from a block with a variable to a finally part, with another block in its
expression. -/
def movedBlock : BnodeTree :=
  .block [] [.excepStmt
    (.block [outerVar] [.returnStmt (.expr [.block [innerVar] []] none []) 1])
    (.block [] []) true (.block [] [])]

/-- The expression is walked after the finally part, where the block that it was in is over. -/
theorem not_scopes_hold : ¬∀ (f : Bfunction) (fn : Instructions) (code : BnodeTree)
    (s : GenBlocks), GenBlocks.functionSetBody f fn code = some s → ScopesHold f code s := by
  intro hall
  obtain ⟨-, -, h, h', hrun, -, -, honce⟩ := hall ⟨[], none, [0], [outerVar, innerVar]⟩
    ⟨fun _ => [], fun _ => false⟩ movedBlock _ rfl
  have hinner := (honce.inBlock ⟨[innerVar], .lexicalBlock (.lexicalBlock .subprogram [0, 0])
    [0, 0, 0, 0, 0]⟩ (by decide) innerVar (.head _) (by decide) (by decide)).1
  cases hrun
  revert hinner
  decide

end Dragongo
