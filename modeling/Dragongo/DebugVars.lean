import Dragongo.BlockEvents

/-!
# Where variables are declared for debugging

Each variable is declared after the instruction recorded as its initializer: a local variable
when its block ends, a parameter when the function does.
-/

namespace Dragongo

namespace Effects

variable (a : Effects) {i : InstRef} {v : Bvariable}

/-- Variables that are declared now have their initializers in blocks. -/
def InPlace (vars : List Bvariable) : Prop :=
  ∀ v ∈ vars, ¬v.isTemporary → v ∉ a.declared → ∀ i, v.initializer = some i →
    a.placed i ∧ ¬a.dropped i

theorem insertVarDecl_eq (v : Bvariable) :
    a.insertVarDecl v = { a with decls := (a.insertVarDecl v).decls } := by
  unfold insertVarDecl
  split <;> rfl

theorem insertVarDecl_holds (v : Bvariable) : (∀ d ∈ (a.insertVarDecl v).decls, d.holds) ↔
    (∀ d ∈ a.decls, d.holds) ∧ ∀ i, v.initializer = some i → a.placed i ∧ ¬a.dropped i := by
  unfold insertVarDecl
  cases v.initializer with
  | none => simp
  | some i => simp [or_imp, forall_and]

theorem processVars_eq (vars : List Bvariable) : a.processVars vars =
    { a with declared := (a.processVars vars).declared, decls := (a.processVars vars).decls } := by
  induction vars generalizing a with
  | nil => rfl
  | cons v vars ih =>
    unfold processVars
    split_ifs
    · exact ih a
    · rw [ih, insertVarDecl_eq]

theorem mem_processVars_declared (vars : List Bvariable) :
    v ∈ (a.processVars vars).declared ↔ v ∈ a.declared ∨ ¬v.isTemporary ∧ v ∈ vars := by
  induction vars generalizing a with
  | nil => simp [processVars]
  | cons w vars ih =>
    unfold processVars
    split_ifs with hw
    · rw [ih, List.mem_cons]
      constructor
      · rintro (h | ⟨ht, h⟩)
        · exact Or.inl h
        · exact Or.inr ⟨ht, Or.inr h⟩
      · rintro (h | ⟨ht, rfl | h⟩)
        · exact Or.inl h
        · exact Or.inl (hw.resolve_left ht)
        · exact Or.inr ⟨ht, h⟩
    · rw [ih, insertVarDecl_eq, List.mem_cons, List.mem_cons]
      have hwt : ¬w.isTemporary := fun ht => hw (Or.inl ht)
      constructor
      · rintro ((rfl | h) | ⟨ht, h⟩)
        · exact Or.inr ⟨hwt, Or.inl rfl⟩
        · exact Or.inl h
        · exact Or.inr ⟨ht, Or.inr h⟩
      · rintro (h | ⟨ht, rfl | h⟩)
        · exact Or.inl (Or.inr h)
        · exact Or.inl (Or.inl rfl)
        · exact Or.inr ⟨ht, h⟩

theorem processVars_holds (vars : List Bvariable) : (∀ d ∈ (a.processVars vars).decls, d.holds) ↔
    (∀ d ∈ a.decls, d.holds) ∧ a.InPlace vars := by
  induction vars generalizing a with
  | nil => simp [processVars, InPlace]
  | cons w vars ih =>
    unfold processVars
    split_ifs with hw
    · rw [ih]
      refine and_congr_right fun _ => ⟨fun h v hv ht hd => ?_, fun h v hv => h v (.tail _ hv)⟩
      rcases List.mem_cons.mp hv with rfl | hv
      · exact absurd hw (not_or.mpr ⟨ht, hd⟩)
      · exact h v hv ht hd
    · obtain ⟨hwt, hwd⟩ := not_or.mp hw
      rw [ih, insertVarDecl_holds, and_assoc]
      refine and_congr_right fun _ => ?_
      rw [insertVarDecl_eq]
      constructor
      · rintro ⟨hfirst, hlater⟩ v hv ht hd
        by_cases hvw : v = w
        · exact hvw ▸ hfirst
        · refine hlater v ((List.mem_cons.mp hv).resolve_left hvw) ht fun hmem => ?_
          exact hd ((List.mem_cons.mp hmem).resolve_left hvw)
      · refine fun h => ⟨h w List.mem_cons_self hwt hwd, fun v hv ht hd => ?_⟩
        exact h v (.tail _ hv) ht fun hmem => hd (.tail _ hmem)

/-! ## Runs -/

variable (es : List Event)

theorem run_cons (e : Event) : a.run (e :: es) = (a.step e).run es := rfl

theorem run_placed : (a.run es).placed i ↔ a.placed i ∨ .place i ∈ es := by
  induction es generalizing a with
  | nil => simp [run_nil]
  | cons e es ih =>
    rw [run_cons, ih, List.mem_cons, ← or_assoc]
    refine or_congr_left ?_
    cases e with
    | place j => simp [step]
    | drop j => simp [step]
    | declare vars =>
      rw [step, processVars_eq]
      simp

theorem run_dropped : (a.run es).dropped i ↔ a.dropped i ∨ .drop i ∈ es := by
  induction es generalizing a with
  | nil => simp [run_nil]
  | cons e es ih =>
    rw [run_cons, ih, List.mem_cons, ← or_assoc]
    refine or_congr_left ?_
    cases e with
    | place j => simp [step]
    | drop j => simp [step]
    | declare vars =>
      rw [step, processVars_eq]
      simp

theorem mem_run_declared : v ∈ (a.run es).declared ↔
    v ∈ a.declared ∨ ¬v.isTemporary ∧ ∃ vars, .declare vars ∈ es ∧ v ∈ vars := by
  induction es generalizing a with
  | nil => simp [run_nil]
  | cons e es ih =>
    rw [run_cons, ih]
    cases e with
    | place j => simp [step]
    | drop j => simp [step]
    | declare vars =>
      simp only [step, mem_processVars_declared, List.mem_cons, Event.declare.injEq]
      constructor
      · rintro ((h | ⟨ht, h⟩) | ⟨ht, vars', hmem, h⟩)
        · exact Or.inl h
        · exact Or.inr ⟨ht, vars, Or.inl rfl, h⟩
        · exact Or.inr ⟨ht, vars', Or.inr hmem, h⟩
      · rintro (h | ⟨ht, vars', rfl | hmem, h⟩)
        · exact Or.inl (Or.inl h)
        · exact Or.inl (Or.inr ⟨ht, h⟩)
        · exact Or.inr ⟨ht, vars', hmem, h⟩

/-- What the declarations of a run ask of the state that each is made in. -/
theorem run_holds : (∀ d ∈ (a.run es).decls, d.holds) ↔ (∀ d ∈ a.decls, d.holds) ∧
    ∀ pre vars post, es = pre ++ .declare vars :: post → (a.run pre).InPlace vars := by
  induction es generalizing a with
  | nil => simp [run_nil]
  | cons e es ih =>
    have hstep : (∀ d ∈ (a.step e).decls, d.holds) ↔
        (∀ d ∈ a.decls, d.holds) ∧ ∀ vars, e = .declare vars → a.InPlace vars := by
      cases e with
      | place j => simp [step]
      | drop j => simp [step]
      | declare vars => simp [step, processVars_holds]
    rw [run_cons, ih, hstep, and_assoc]
    refine and_congr_right fun _ => ⟨?_, fun h => ⟨?_, ?_⟩⟩
    · rintro ⟨hnow, hlater⟩ pre vars post hsplit
      cases pre with
      | nil => exact hnow vars (List.cons.inj hsplit).1
      | cons e' pre =>
        obtain ⟨rfl, hes⟩ := List.cons.inj hsplit
        exact hlater pre vars post hes
    · rintro vars rfl
      exact h [] vars es rfl
    · rintro pre vars post rfl
      exact h (e :: pre) vars post rfl

end Effects

/-! ## What the entry block begins with -/

/-- What a statement puts first into the block that it is walked from. -/
inductive Opening
  | nothing
  | inst (i : InstRef)
  | transfer
deriving DecidableEq, Repr

namespace Opening

def orElse : Opening → Opening → Opening
  | nothing, o => o
  | o, _ => o

def instruction : Opening → Option InstRef
  | inst i => some i
  | _ => none

end Opening

/-- The first of some instructions, which is an invoke if it is a call with a landing pad. -/
def instsOpen (fn : Instructions) (pad : Bool) : List InstRef → Opening
  | [] => .nothing
  | i :: _ => if pad ∧ fn.mayThrow i then .transfer else .inst i

mutual
def BnodeTree.opens (fn : Instructions) (pad fin : Bool) : BnodeTree → Opening
  | .expr kids _ insts => (opensAll fn pad fin kids).orElse (instsOpen fn pad insts)
  | .exprStmt e => e.opens fn pad fin
  | .block _ stmts => opensAll fn pad fin stmts
  | .ifStmt cond _ _ => (cond.opens fn pad fin).orElse .transfer
  | .switchStmt swvalue _ _ => (swvalue.opens fn pad fin).orElse .transfer
  | .gotoStmt _ | .labelStmt _ | .deferStmt .. => .transfer
  | .returnStmt re _ => if fin then .transfer else (re.opens fn pad fin).orElse .transfer
  | .excepStmt body _ hasFinally _ => (body.opens fn true hasFinally).orElse .transfer
def opensAll (fn : Instructions) (pad fin : Bool) : List BnodeTree → Opening
  | [] => .nothing
  | n :: ns => (n.opens fn pad fin).orElse (opensAll fn pad fin ns)
end

namespace GenBlocks

def front (s : GenBlocks) : Option BlockInst := s.blocks[0]?.bind List.head?

/-- The entry block, from which control has not gone if nothing is in it. -/
def Opened (s : GenBlocks) (cur : Option BlockRef) : Opening → Prop
  | .nothing => cur = some 0 ∧ s.blocks[0]? = some []
  | .inst i => s.front = some (.inst i)
  | .transfer => ∃ bi, s.front = some bi ∧ bi.isTerminator

section Opened

variable {s s' : GenBlocks} {cur cur' : Option BlockRef} {o : Opening} {bi : BlockInst}

theorem Extends.front (h : Extends s.blocks s'.blocks) (hf : s.front = some bi) :
    s'.front = some bi := by
  obtain ⟨is, his, hhead⟩ := Option.bind_eq_some_iff.mp hf
  obtain ⟨is', his', t, rfl⟩ := h 0 is his
  unfold GenBlocks.front
  rw [his', Option.bind_some, List.head?_append, hhead, Option.some_or]

/-- What has been put into the entry block stays the first of it. -/
theorem Opened.mono (h : Extends s.blocks s'.blocks) (ho : s.Opened cur o) (hne : o ≠ .nothing) :
    s'.Opened cur' o := by
  cases o with
  | nothing => exact absurd rfl hne
  | inst i => exact h.front ho
  | transfer =>
    obtain ⟨bi, hf, ht⟩ := ho
    exact ⟨bi, h.front hf, ht⟩

theorem front_push (h : s.blocks[0]? = some []) (bi : BlockInst) :
    (s.push 0 bi).front = some bi := by
  have hself : (s.push 0 bi).blocks[0]? = some ([] ++ [bi]) := push_self s h
  unfold front
  rw [hself]
  rfl

/-- Two parts in a row. -/
theorem Opened.orElse {o' : Opening} (ho : s.Opened cur o) (hgrown : Extends s.blocks s'.blocks)
    (hnext : cur = some 0 → s.blocks[0]? = some [] → s'.Opened cur' o') :
    s'.Opened cur' (o.orElse o') := by
  cases o with
  | nothing => exact hnext ho.1 ho.2
  | inst i => exact ho.mono hgrown nofun
  | transfer => exact ho.mono hgrown nofun

end Opened

/-! ## The walk from an empty entry block -/

section Opens

variable (kept : Walk) (fn : Instructions) (keptEvents : Ctx → BnodeTree → List Event)

/-- What comes first in the entry block, when a statement is walked from there. -/
def Opens (n : BnodeTree) : Prop :=
  ∀ ⦃s : GenBlocks⦄ ⦃cur' : Option BlockRef⦄ ⦃s' : GenBlocks⦄,
    walkWith kept fn s (some 0) n = some (cur', s') → Valid s (some 0) → s.FinInPad →
      s.blocks[0]? = some [] →
        s'.Opened cur' (n.opens fn (!s.rest.pads.isEmpty) s.rest.fin.isSome)

def AllOpen (ns : List BnodeTree) : Prop :=
  ∀ ⦃s : GenBlocks⦄ ⦃cur' : Option BlockRef⦄ ⦃s' : GenBlocks⦄,
    walkAllWith kept fn s (some 0) ns = some (cur', s') → Valid s (some 0) → s.FinInPad →
      s.blocks[0]? = some [] →
        s'.Opened cur' (opensAll fn (!s.rest.pads.isEmpty) s.rest.fin.isSome ns)

variable {kept fn keptEvents}

theorem mkLLVMBlocks_zero {s : GenBlocks} {is : List BlockInst} (h : s.blocks[0]? = some is)
    (n : ℕ) : (s.mkLLVMBlocks n).blocks[0]? = some is := by
  obtain ⟨hlt, -⟩ := List.getElem?_eq_some_iff.mp h
  rw [mkLLVMBlocks_blocks, List.getElem?_append_left hlt, h]

/-- A transfer of control out of the entry block, when nothing else is there. -/
theorem opened_transfer {s s' : GenBlocks} {cur' : Option BlockRef} {bi : BlockInst}
    (hempty : s.blocks[0]? = some []) (ht : bi.isTerminator)
    (hgrown : Extends (s.push 0 bi).blocks s'.blocks) : s'.Opened cur' .transfer :=
  ⟨bi, hgrown.front (front_push hempty bi), ht⟩

theorem opened_inst {s s' : GenBlocks} {cur' : Option BlockRef} {i : InstRef}
    (hempty : s.blocks[0]? = some []) (hgrown : Extends (s.push 0 (.inst i)).blocks s'.blocks) :
    s'.Opened cur' (.inst i) :=
  hgrown.front (front_push hempty _)

theorem addInsts_opened {s s' : GenBlocks} {cur' : Option BlockRef} {insts : List InstRef}
    (hadd : s.addInsts fn (some 0) insts = some (cur', s')) (hvalid : Valid s (some 0))
    (hempty : s.blocks[0]? = some []) :
    s'.Opened cur' (instsOpen fn (!s.rest.pads.isEmpty) insts) := by
  cases insts with
  | nil =>
    cases hadd
    exact ⟨rfl, hempty⟩
  | cons i insts =>
    rw [GenBlocks.addInsts] at hadd
    obtain ⟨⟨cur₁, s₁⟩, hi, hadd⟩ := Option.bind_eq_some_iff.mp hadd
    obtain ⟨hw, -, -⟩ := (Walked.refl hvalid).addInst hi
    obtain ⟨hw', -, -⟩ := (Walked.refl hw.valid).addInsts hadd
    -- the first instruction decides
    unfold GenBlocks.addInst at hi
    cases hpads : s.padBlockStack with
    | nil =>
      rw [hpads] at hi
      cases hi
      have hopen : instsOpen fn (!s.rest.pads.isEmpty) (i :: insts) = .inst i := by
        simp [instsOpen, GenBlocks.rest, hpads]
      rw [hopen]
      exact opened_inst hempty hw'.grown
    | cons pad pads =>
      rw [hpads] at hi
      dsimp only at hi
      by_cases hthrow : fn.mayThrow i
      · rw [if_pos hthrow] at hi
        cases hi
        have hopen : instsOpen fn (!s.rest.pads.isEmpty) (i :: insts) = .transfer := by
          simp [instsOpen, GenBlocks.rest, hpads, hthrow]
        rw [hopen]
        have hnew : s.mkLLVMBlock.2.blocks[0]? = some [] := mkLLVMBlocks_zero hempty 1
        exact opened_transfer hnew rfl hw'.grown
      · rw [if_neg hthrow] at hi
        cases hi
        have hopen : instsOpen fn (!s.rest.pads.isEmpty) (i :: insts) = .inst i := by
          simp [instsOpen, hthrow]
        rw [hopen]
        exact opened_inst hempty hw'.grown

theorem opens_expr {kids : List BnodeTree} (value : Option NodeValue) (insts : List InstRef)
    (h : AllFollow kept fn keptEvents kids) (ho : AllOpen kept fn kids) :
    Opens kept fn (.expr kids value insts) := by
  intro s cur' s' hwalk hvalid hfin hempty
  rw [walkWith] at hwalk
  obtain ⟨⟨cur₁, s₁⟩, hkids, hinsts⟩ := Option.bind_eq_some_iff.mp hwalk
  have hdoes := h hkids hvalid hfin
  obtain ⟨hw, -, -⟩ := (Walked.refl hdoes.walked.valid).addInsts hinsts
  rw [BnodeTree.opens]
  refine (ho hkids hvalid hfin hempty).orElse hw.grown fun hcur hempty₁ => ?_
  have hopen := addInsts_opened (hcur ▸ hinsts) (hcur ▸ hdoes.walked.valid) hempty₁
  rw [hdoes.rest] at hopen
  exact hopen

theorem opens_block (vars : List Bvariable) {stmts : List BnodeTree}
    (ho : AllOpen kept fn stmts) : Opens kept fn (.block vars stmts) := by
  intro s cur' s' hwalk hvalid hfin hempty
  rw [walkWith] at hwalk
  obtain ⟨⟨cur₁, s₁⟩, hstmts, hwalk⟩ := Option.bind_eq_some_iff.mp hwalk
  cases hwalk
  have hopen := ho hstmts hvalid hfin hempty
  rw [BnodeTree.opens]
  unfold Opened front at hopen ⊢
  rwa [endLexicalBlock_blocks]

theorem allOpen_cons {n : BnodeTree} {ns : List BnodeTree} (h : Follows kept fn keptEvents n)
    (hs : AllFollow kept fn keptEvents ns) (ho : Opens kept fn n) (hos : AllOpen kept fn ns) :
    AllOpen kept fn (n :: ns) := by
  intro s cur' s' hwalk hvalid hfin hempty
  rw [walkAllWith] at hwalk
  obtain ⟨⟨cur₁, s₁⟩, hn, hns⟩ := Option.bind_eq_some_iff.mp hwalk
  have hdoes := h hn hvalid hfin
  have hfin₁ := hfin.of_rest hdoes.rest
  have hdoes' := hs hns hdoes.walked.valid hfin₁
  rw [opensAll]
  refine (ho hn hvalid hfin hempty).orElse hdoes'.walked.grown fun hcur hempty₁ => ?_
  have hopen := hos (hcur ▸ hns) (hcur ▸ hdoes.walked.valid) hfin₁ hempty₁
  rw [hdoes.rest] at hopen
  exact hopen

theorem opens_if {cond trueBlock falseBlock : BnodeTree} (hc : Follows kept fn keptEvents cond)
    (ht : Follows kept fn keptEvents trueBlock) (hf : Follows kept fn keptEvents falseBlock)
    (ho : Opens kept fn cond) : Opens kept fn (.ifStmt cond trueBlock falseBlock) := by
  intro s cur' s' hwalk hvalid hfin hempty
  simp only [walkWith, Option.bind_eq_bind, Option.bind_eq_some_iff] at hwalk
  obtain ⟨⟨cur₁, s₁⟩, hcond, cval, -, b, rfl, ⟨tsucc, s₂⟩, htrue, ⟨fsucc, s₃⟩, hfalse, hwalk⟩ :=
    hwalk
  cases hwalk
  dsimp only at htrue hfalse
  have hcd := hc hcond hvalid hfin
  have hbr : Walked s (some 0) _ (s₁.openIf b cval) (some b) :=
    (hcd.walked.mkLLVMBlocks 3).push fun _ hj => nomatch hj
  have hrest : (s₁.openIf b cval).rest = s.rest.keep cond.returns := by
    rw [openIf, rest_push, rest_mkLLVMBlocks, hcd.rest]
  obtain ⟨hw, -⟩ := arms_walked ht hf hbr.valid (hfin.of_rest hrest) hcd.walked.valid.pos
    (Nat.le_of_eq openIf_length.symm) htrue hfalse
  rw [BnodeTree.opens]
  refine (ho hcond hvalid hfin hempty).orElse (openIf_extends.trans hw.grown) fun hcur hempty₁ => ?_
  cases hcur
  exact opened_transfer (mkLLVMBlocks_zero hempty₁ 3) rfl hw.grown

theorem opens_switch {swvalue : BnodeTree} {vals : List (List ℤ)} {stmts : List BnodeTree}
    (hsw : Follows kept fn keptEvents swvalue) (hs : CasesFollow kept fn keptEvents stmts)
    (ho : Opens kept fn swvalue) : Opens kept fn (.switchStmt swvalue vals stmts) := by
  intro s cur' s' hwalk hvalid hfin hempty
  simp only [walkWith, Option.bind_eq_bind, Option.bind_eq_some_iff, Option.guard_eq_some'] at hwalk
  obtain ⟨-, hlen, ⟨cur₁, s₁⟩, hsw', defBB, -, s₂, hcases, v, -, b, rfl, hwalk⟩ := hwalk
  cases hwalk
  dsimp only at hcases
  have hdoes := hsw hsw' hvalid hfin
  have hblocks : Walked s₁ (some b) [] (s₁.mkLLVMBlocks (vals.length + 1)) (some b) :=
    (Walked.refl hdoes.walked.valid).mkLLVMBlocks _
  have hrest : (s₁.mkLLVMBlocks (vals.length + 1)).rest = s.rest.keep swvalue.returns :=
    (rest_mkLLVMBlocks _ _).trans hdoes.rest
  have hlen₁ := s₁.length_mkLLVMBlocks (vals.length + 1)
  obtain ⟨hw, -⟩ := hs hcases hblocks.stop.valid (hfin.of_rest hrest) hdoes.walked.valid.pos (by
    rw [hlen₁, hlen]
    exact Nat.add_le_add_left (Nat.le_succ _) _)
  have hgrown := (hblocks.grown.trans hw.grown).trans
    (s₂.push_extends b (.switch v defBB (caseTargets s₁.blocks.length vals)))
  rw [BnodeTree.opens]
  refine (ho hsw' hvalid hfin hempty).orElse hgrown fun hcur hempty₁ => ?_
  cases hcur
  -- the bodies of the cases leave the entry block alone
  have hempty₂ : s₂.blocks[0]? = some [] :=
    (hw.entry (Option.some_ne_none 0).symm).1.trans (mkLLVMBlocks_zero hempty₁ _)
  exact opened_transfer hempty₂ rfl (.refl _)

theorem getBlockForLabel_zero {s : GenBlocks} {is : List BlockInst} (h : s.blocks[0]? = some is)
    (lab : LabelId) : (s.getBlockForLabel lab).2.blocks[0]? = some is := by
  unfold getBlockForLabel
  cases s.labelmap lab with
  | some bb => exact h
  | none => exact mkLLVMBlocks_zero h 1

theorem opens_goto (label : LabelId) : Opens kept fn (.gotoStmt label) := by
  intro s cur' s' hwalk hvalid hfin hempty
  have hempty₁ := getBlockForLabel_zero hempty label
  rw [walkWith] at hwalk
  generalize s.getBlockForLabel label = p at hwalk hempty₁
  cases hwalk
  have hbr : p.2.branchTo (some 0) p.1 = p.2.push 0 (.br p.1) := by
    simp [branchTo, getTerminator, hempty₁]
  rw [hbr]
  exact opened_transfer hempty₁ rfl (.refl _)

theorem opens_label (label : LabelId) : Opens kept fn (.labelStmt label) := by
  intro s cur' s' hwalk hvalid hfin hempty
  have hempty₁ := getBlockForLabel_zero hempty label
  rw [walkWith] at hwalk
  generalize s.getBlockForLabel label = p at hwalk hempty₁
  cases hwalk
  exact opened_transfer hempty₁ rfl (.refl _)

theorem opens_return {re : BnodeTree} (ri : InstRef) (h : Follows kept fn keptEvents re)
    (ho : Opens kept fn re) : Opens kept fn (.returnStmt re ri) := by
  intro s cur' s' hwalk hvalid hfin hempty
  rw [walkWith] at hwalk
  rw [BnodeTree.opens]
  cases hf : s.finallyBlock with
  | some fin =>
    rw [if_pos (show s.rest.fin.isSome from congrArg Option.isSome hf)]
    cases hc : s.cachedReturn with
    | none =>
      simp only [hf, hc, Option.bind_eq_bind, Option.bind_some, Option.bind_eq_some_iff] at hwalk
      obtain ⟨s₁, hbr, hwalk⟩ := hwalk
      cases hwalk
      cases hbr
      exact opened_transfer (s := s.setCached _) hempty rfl (.refl _)
    | some c =>
      simp only [hf, hc, Option.bind_eq_bind, Option.bind_eq_some_iff] at hwalk
      obtain ⟨s₁, hdestroy, s₂, hbr, hwalk⟩ := hwalk
      cases hwalk
      cases hbr
      have hempty₁ : s₁.blocks[0]? = some [] := by
        rw [destroy_eq hdestroy]
        exact hempty
      exact opened_transfer hempty₁ rfl (.refl _)
  | none =>
    rw [if_neg (show ¬s.rest.fin.isSome by simp [GenBlocks.rest, hf])]
    simp only [hf, Option.bind_eq_bind, Option.bind_eq_some_iff] at hwalk
    obtain ⟨⟨bb, s₁⟩, hre, s₂, hadd, hwalk⟩ := hwalk
    split_ifs at hwalk with hbb
    cases hwalk
    have hdoes := h hre hvalid hfin
    obtain ⟨hw, -⟩ := (Walked.refl hdoes.walked.valid).addReturn hadd
    refine (ho hre hvalid hfin hempty).orElse hw.grown fun hcur hempty₁ => ?_
    cases hcur
    cases hadd
    exact opened_transfer hempty₁ rfl (.refl _)

theorem opens_defer {undefer defer : BnodeTree} (hu : Follows kept fn keptEvents undefer)
    (hd : Follows kept fn keptEvents defer) : Opens kept fn (.deferStmt undefer defer) := by
  intro s cur' s' hwalk hvalid hfin hempty
  simp only [walkWith, Option.bind_eq_bind, Option.bind_eq_some_iff] at hwalk
  obtain ⟨⟨contbb, s₁⟩, hundefer, ⟨bb, s₂⟩, hdefer, hwalk⟩ := hwalk
  split_ifs at hwalk with hbb
  cases hwalk
  dsimp only at hdefer hbb
  subst hbb
  have hleave := ((Walked.refl hvalid).mkLLVMBlocks 3).leave s.blocks.length
  have hrest : ((s.mkLLVMBlocks 3).leave (some 0) s.blocks.length).rest = s.rest := by
    rw [rest_leave, rest_mkLLVMBlocks]
  have hlen : ((s.mkLLVMBlocks 3).leave (some 0) s.blocks.length).blocks.length =
      s.blocks.length + 3 := by
    rw [length_leave, length_mkLLVMBlocks]
  obtain ⟨hw, -, -⟩ := defer_walked hu hd hleave.valid
    (hfin.of_rest (hrest.trans (Rest.keep_nil _).symm)) hvalid.pos (Nat.le_of_eq hlen.symm)
    (congrArg Rest.pads hrest) hundefer hdefer
  exact opened_transfer (mkLLVMBlocks_zero hempty 3) rfl hw.grown

theorem opens_excep {body onexception finally_ : BnodeTree} (hasFinally : Bool)
    (hk : KeptFollows kept keptEvents) (hb : Follows kept fn keptEvents body)
    (hon : Follows kept fn keptEvents onexception) (hf : Follows kept fn keptEvents finally_)
    (ho : Opens kept fn body) :
    Opens kept fn (.excepStmt body onexception hasFinally finally_) := by
  intro s cur' s' hwalk hvalid hfin hempty
  rw [walkWith] at hwalk
  simp only [Option.bind_eq_bind, Option.bind_eq_some_iff, Option.guard_eq_some'] at hwalk
  obtain ⟨-, ⟨hpads, hcached⟩, ⟨cur₁, s₁⟩, hbody, ⟨bb, s₂⟩, hon', hwalk⟩ := hwalk
  rw [Option.isNone_iff_eq_none] at hcached
  dsimp only at hon' hwalk
  have hisSome := isSome_finally hasFinally (s.blocks.length + 1)
  generalize (if hasFinally then some (s.blocks.length + 1) else none) = fin at hbody hisSome
  have hin := hvalid.excep fin
  have hrest := s.rest_excep fin
  rw [hcached] at hrest
  have hbd := hb hbody hin.valid (s.finInPad_excep fin)
  have hlen₁ : s.blocks.length + 2 ≤ s₁.blocks.length :=
    Nat.le_trans (Nat.le_of_eq (s.length_mkLLVMBlocks 2).symm) hbd.walked.grown.length_le
  have hleave : Walked s₁ cur₁ _ (s₁.leave cur₁ (s.blocks.length + 1)) cur₁ :=
    (Walked.refl hbd.walked.valid).leave _
  have hrest₁ : (s₁.leave cur₁ (s.blocks.length + 1)).rest =
      (⟨[s.blocks.length], fin, none⟩ : Rest).keep body.returns := by
    rw [rest_leave, hbd.rest, hrest]
  obtain ⟨hw, -, -⟩ := handler_walked hk hon hf hleave.valid hvalid.pos hlen₁
    (length_leave ..) hisSome hrest₁ hon' hwalk
  have hopen := ho hbody hin.valid (s.finInPad_excep fin) (mkLLVMBlocks_zero hempty 2)
  rw [hrest] at hopen
  dsimp only [List.isEmpty_cons, Bool.not_false] at hopen
  rw [hisSome] at hopen
  rw [BnodeTree.opens]
  refine hopen.orElse (hleave.grown.trans hw.grown) fun hcur hempty₁ => ?_
  cases hcur
  exact opened_transfer hempty₁ rfl hw.grown

mutual
theorem opens (hk : KeptFollows kept keptEvents) : ∀ n : BnodeTree, Opens kept fn n
  | .expr kids value insts => opens_expr value insts (allFollow hk kids) (allOpen hk kids)
  | .exprStmt e => by
    intro s cur' s' hwalk hvalid hfin hempty
    rw [walkWith] at hwalk
    rw [BnodeTree.opens]
    exact opens hk e hwalk hvalid hfin hempty
  | .block vars stmts => opens_block vars (allOpen hk stmts)
  | .ifStmt cond trueBlock falseBlock =>
    opens_if (follows hk cond) (follows hk trueBlock) (follows hk falseBlock) (opens hk cond)
  | .switchStmt swvalue _ stmts =>
    opens_switch (follows hk swvalue) (casesFollow hk stmts) (opens hk swvalue)
  | .gotoStmt label => opens_goto label
  | .labelStmt label => opens_label label
  | .returnStmt re ri => opens_return ri (follows hk re) (opens hk re)
  | .deferStmt undefer defer => opens_defer (follows hk undefer) (follows hk defer)
  | .excepStmt body onexception hasFinally finally_ =>
    opens_excep hasFinally hk (follows hk body) (follows hk onexception) (follows hk finally_)
      (opens hk body)
theorem allOpen (hk : KeptFollows kept keptEvents) : ∀ ns : List BnodeTree, AllOpen kept fn ns
  | [] => by
    intro s cur' s' hwalk hvalid hfin hempty
    rw [walkAllWith] at hwalk
    cases hwalk
    exact ⟨rfl, hempty⟩
  | n :: ns => allOpen_cons (follows hk n) (allFollow hk ns) (opens hk n) (allOpen hk ns)
end

end Opens

end GenBlocks

/-! ## Functions -/

/-- The instructions that put an argument on the stack, which comes in one register or in two. -/
inductive ArgSpill
  | one (bitcast : Option InstRef) (store : InstRef)
  | two (bitcast field0 store0 field1 store1 : InstRef)
deriving DecidableEq, Repr

namespace ArgSpill

def insts : ArgSpill → List InstRef
  | one bitcast store => bitcast.toList ++ [store]
  | two bitcast field0 store0 field1 store1 => [bitcast, field0, store0, field1, store1]

/-- The store of the last part. -/
def initializer : ArgSpill → InstRef
  | one _ store => store
  | two _ _ _ _ store1 => store1

theorem initializer_mem (p : ArgSpill) : p.initializer ∈ p.insts := by
  cases p <;> simp [initializer, insts]

end ArgSpill

/-- A parameter: one of no size, one that arrives in memory, or one in registers. -/
inductive Bparam
  | ignore (v : ℕ) (alloca : InstRef)
  | indirect (v : ℕ)
  | direct (v : ℕ) (alloca : InstRef) (spill : ArgSpill)
deriving DecidableEq, Repr

namespace Bparam

def var : Bparam → ℕ
  | ignore v _ | indirect v | direct v _ _ => v

/-- The stack slots that `abiSetup` makes. -/
def allocas : Bparam → List InstRef
  | ignore _ alloca | direct _ alloca _ => [alloca]
  | indirect _ => []

def spill : Bparam → Option ArgSpill
  | direct _ _ spill => some spill
  | _ => none

end Bparam

/-- `allocas` are those of the static chain, of the local variables and of temporaries, and
`chain` is the spill of the static chain if a variable was made for it. -/
structure Bfunction where
  params : List Bparam
  chain : Option ArgSpill
  allocas : List InstRef
  localVariables : List Bvariable
deriving DecidableEq, Repr

namespace Bfunction

variable (f : Bfunction)

/-- What is put into the entry block. -/
def genProlog : List InstRef :=
  f.params.flatMap Bparam.allocas ++ f.allocas ++
    (f.chain.toList ++ f.params.filterMap Bparam.spill).flatMap ArgSpill.insts

/-- The initializer of a parameter after the prolog. -/
def prologInitializer (p : Bparam) : Option InstRef :=
  (p.spill.map ArgSpill.initializer).or f.genProlog.head?

/-- The parameters and their initializers.  `assert(! entry->empty())` for one that has none. -/
def fixupProlog (entry : List BlockInst) : Option (List (ℕ × BlockInst)) :=
  f.params.mapM fun p => (((f.prologInitializer p).map .inst).or entry.head?).map (p.var, ·)

end Bfunction

namespace GenBlocks

/-- What `insertVarDecl` asks of the instruction: it is in a block, and not the end of it. -/
def standing (s : GenBlocks) : BlockInst → Bool
  | .inst i => s.placed i && i ∉ s.discarded
  | bi => !bi.isTerminator

/-- First the parameters are declared, and then the local variables that are not yet. -/
def endFunction (s : GenBlocks) (params : List (ℕ × BlockInst)) (vars : List Bvariable) :
    GenBlocks :=
  processVars { s with decls := s.decls ++ params.map fun p => ⟨p.1, s.standing p.2⟩ } vars

def finishFunction (f : Bfunction) (s : GenBlocks) : Option GenBlocks := do
  let entry ← s.blocks[0]?
  let params ← f.fixupProlog entry
  some (if s.createDebugMetaData then s.endFunction params f.localVariables else s)

/-- With debug metadata. -/
def functionSetBody (f : Bfunction) (fn : Instructions) (code : BnodeTree) : Option GenBlocks := do
  let (block, s) ← walk fn (new true (f.genProlog.map .inst)) (some 0) code
  let s ← s.finishFunction f
  match block with
  | none => some s
  | some b => some (s.fixupEpilogBlock b)

end GenBlocks

namespace Bfunction

variable (f : Bfunction) (fn : Instructions) (code : BnodeTree)

/-- Each variable is declared for the first time where its initializer is in a block and has not
been deleted. -/
def DeclaredInPlace : Prop :=
  ∀ pre vars post, events fn code ++ [.declare f.localVariables] = pre ++ .declare vars :: post →
    ∀ v ∈ vars, ¬v.isTemporary → (∀ vars', .declare vars' ∈ pre → v ∉ vars') →
      ∀ i, v.initializer = some i → (i ∈ f.genProlog ∨ .place i ∈ pre) ∧ .drop i ∉ pre

/-- Each parameter has an instruction of the prolog to be declared after.  If nothing is in the
prolog, the code begins with one. -/
def ParamsInPlace : Prop :=
  ∀ p ∈ f.params, ∃ i,
    (f.prologInitializer p).or (code.opens fn false false).instruction = some i ∧
      .drop i ∉ events fn code

end Bfunction

/-! ## The declarations of a function -/

namespace GenBlocks

theorem kept_follows (fn : Instructions) : KeptFollows (walkKept fn) (keptEvents fn) := by
  have hnone : KeptFollows (fun _ _ _ => none) (fun _ _ => []) := by
    intro re s cur cur' s' hwalk
    cases hwalk
  exact fun re _ _ _ _ hwalk hvalid hfin => follows hnone re hwalk hvalid hfin

theorem valid_new (prolog : List BlockInst) : Valid (new true prolog) (some 0) where
  debug := rfl
  pos := Nat.one_pos
  labels _ _ h := nomatch h
  cursor b hb := by
    cases hb
    exact Nat.one_pos

section Completed

variable {f : Bfunction} {fn : Instructions} {code : BnodeTree} {block : Option BlockRef}
  {s : GenBlocks}

theorem walked_code {prolog : List BlockInst}
    (h : walk fn (new true prolog) (some 0) code = some (block, s)) :
    Walked (new true prolog) (some 0) (events fn code) s block :=
  (follows (kept_follows fn) code h (valid_new prolog) fun hfin => nomatch hfin).walked

theorem opened_code (h : walk fn (new true []) (some 0) code = some (block, s)) :
    s.Opened block (code.opens fn false false) :=
  opens (kept_follows fn) code h (valid_new []) (fun hfin => nomatch hfin) rfl

theorem new_placed (prolog : List InstRef) (i : InstRef) :
    (new true (prolog.map .inst)).placed i ↔ i ∈ prolog := by
  simp [new, placed]

theorem placed_code {prolog : List InstRef} {i : InstRef}
    (h : walk fn (new true (prolog.map .inst)) (some 0) code = some (block, s)) :
    s.placed i ↔ i ∈ prolog ∨ .place i ∈ events fn code := by
  have hplaced : s.placed i ↔ s.effects.placed i := Iff.rfl
  rw [hplaced, (walked_code h).effects, Effects.run_placed, ← new_placed]
  rfl

theorem discarded_code {prolog : List BlockInst} {i : InstRef}
    (h : walk fn (new true prolog) (some 0) code = some (block, s)) :
    i ∈ s.discarded ↔ .drop i ∈ events fn code := by
  have hdropped : i ∈ s.discarded ↔ s.effects.dropped i := decide_eq_true_iff.symm
  rw [hdropped, (walked_code h).effects, Effects.run_dropped]
  simp [GenBlocks.effects, new]

theorem prologInitializer_mem {p : Bparam} {i : InstRef} (hp : p ∈ f.params)
    (hi : f.prologInitializer p = some i) : i ∈ f.genProlog := by
  rcases Option.or_eq_some_iff.mp hi with hspill | ⟨-, hhead⟩
  · obtain ⟨spill, hsome, rfl⟩ := Option.map_eq_some_iff.mp hspill
    refine List.mem_append_right _ (List.mem_flatMap.mpr ⟨spill, ?_, spill.initializer_mem⟩)
    exact List.mem_append_right _ (List.mem_filterMap.mpr ⟨p, hp, hsome⟩)
  · exact List.mem_of_mem_head? hhead

/-- A parameter is declared in a block exactly where its initializer is known to be. -/
theorem param_stands (h : walk fn (new true (f.genProlog.map .inst)) (some 0) code =
    some (block, s)) {entry : List BlockInst} (hentry : s.blocks[0]? = some entry) {p : Bparam}
    (hp : p ∈ f.params) :
    (∃ bi, ((f.prologInitializer p).map .inst).or entry.head? = some bi ∧ s.standing bi) ↔
      ∃ i, (f.prologInitializer p).or (code.opens fn false false).instruction = some i ∧
        .drop i ∉ events fn code := by
  cases hinit : f.prologInitializer p with
  | some i =>
    have hplaced : s.placed i := (placed_code h).mpr (Or.inl (prologInitializer_mem hp hinit))
    simp [standing, hplaced, discarded_code h]
  | none =>
    -- nothing is in the prolog
    have hprolog : f.genProlog = [] := List.head?_eq_none_iff.mp (Option.or_eq_none_iff.mp hinit).2
    rw [hprolog] at h
    have hfront : s.front = entry.head? := by
      unfold front
      rw [hentry]
      rfl
    have hopen := opened_code h
    rw [Option.map_none, Option.none_or, Option.none_or, ← hfront]
    cases ho : code.opens fn false false with
    | nothing =>
      rw [ho] at hopen
      have hnone : s.front = none := by
        unfold front
        rw [hopen.2]
        rfl
      simp [hnone, Opening.instruction]
    | transfer =>
      rw [ho] at hopen
      obtain ⟨bi, hbi, ht⟩ := hopen
      rw [hbi]
      constructor
      · rintro ⟨bi', hbi', hstand⟩
        cases hbi'
        cases bi with
        | inst | landingPad => cases ht
        | _ => cases hstand
      · rintro ⟨i, hi, -⟩
        cases hi
    | inst i =>
      rw [ho] at hopen
      have hmem : BlockInst.inst i ∈ entry := List.mem_of_mem_head? (hfront ▸ hopen)
      have hplaced : s.placed i := (placed_iff s).mpr ⟨0, entry, hentry, hmem⟩
      have hi : s.front = some (.inst i) := hopen
      rw [hi]
      simp [standing, hplaced, Opening.instruction, discarded_code h]

theorem endFunction_holds (params : List (ℕ × BlockInst)) (vars : List Bvariable) :
    (∀ d ∈ (s.endFunction params vars).decls, d.holds) ↔
      (∀ p ∈ params, s.standing p.2) ∧ ∀ d ∈ (s.effects.processVars vars).decls, d.holds := by
  unfold endFunction
  generalize hdecls : params.map (fun p => VarDecl.mk p.1 (s.standing p.2)) = new
  have heff := (effects_processVars { s with decls := s.decls ++ new } vars).1
  have hall := Effects.processVars_holds { s.effects with decls := s.decls ++ new } vars
  have hplace : Effects.InPlace { s.effects with decls := s.decls ++ new } vars ↔
      s.effects.InPlace vars := Iff.rfl
  have hnew : (∀ d ∈ new, d.holds) ↔ ∀ p ∈ params, s.standing p.2 := by
    rw [← hdecls, List.forall_mem_map]
  have hdeclsEq := congrArg Effects.decls heff
  rw [hplace] at hall
  rw [Effects.processVars_holds, ← and_assoc, ← hnew]
  refine (Iff.of_eq ?_).trans (hall.trans (and_congr_left fun _ => ?_))
  · exact congrArg (fun ds : List VarDecl => ∀ d ∈ ds, d.holds) hdeclsEq
  · simp only [List.mem_append, or_imp, forall_and]
    exact and_comm

theorem finishFunction_holds (f : Bfunction) {entry : List BlockInst}
    (hentry : s.blocks[0]? = some entry) (hdebug : s.createDebugMetaData) :
    (∃ s', s.finishFunction f = some s' ∧ ∀ d ∈ s'.decls, d.holds) ↔
      (∀ p ∈ f.params, ∃ bi, ((f.prologInitializer p).map .inst).or entry.head? = some bi ∧
        s.standing bi) ∧ ∀ d ∈ (s.effects.processVars f.localVariables).decls, d.holds := by
  have hparams := mapM_some_forall (fun p : Bparam =>
    (((f.prologInitializer p).map .inst).or entry.head?).map (p.var, ·))
      (fun y : ℕ × BlockInst => s.standing y.2 = true) f.params
  have hone : ∀ p : Bparam, (∃ y : ℕ × BlockInst,
      (((f.prologInitializer p).map .inst).or entry.head?).map (p.var, ·) = some y ∧
        s.standing y.2) ↔
      ∃ bi, ((f.prologInitializer p).map .inst).or entry.head? = some bi ∧ s.standing bi := by
    intro p
    simp only [Option.map_eq_some_iff]
    constructor
    · rintro ⟨_, ⟨bi, hbi, rfl⟩, hstand⟩
      exact ⟨bi, hbi, hstand⟩
    · rintro ⟨bi, hbi, hstand⟩
      exact ⟨(p.var, bi), ⟨bi, hbi, rfl⟩, hstand⟩
  simp only [hone] at hparams
  rw [← hparams]
  simp only [finishFunction, hentry, hdebug, if_true, Option.bind_eq_bind, Option.bind_some,
    Option.bind_eq_some_iff, Option.some.injEq]
  constructor
  · rintro ⟨_, ⟨params, hfix, rfl⟩, hall⟩
    obtain ⟨hstand, hlocals⟩ := (endFunction_holds params f.localVariables).mp hall
    exact ⟨⟨params, hfix, hstand⟩, hlocals⟩
  · rintro ⟨⟨params, hfix, hstand⟩, hlocals⟩
    have hall := (endFunction_holds params f.localVariables).mpr ⟨hstand, hlocals⟩
    exact ⟨_, ⟨params, hfix, rfl⟩, hall⟩

/-- The declarations of local variables, in the blocks and at the end. -/
theorem locals_hold (h : walk fn (new true (f.genProlog.map .inst)) (some 0) code =
    some (block, s)) :
    (∀ d ∈ (s.effects.processVars f.localVariables).decls, d.holds) ↔
      f.DeclaredInPlace fn code := by
  have hrun : s.effects.processVars f.localVariables =
      (new true (f.genProlog.map .inst)).effects.run
        (events fn code ++ [.declare f.localVariables]) := by
    rw [Effects.run_append, ← (walked_code h).effects]
    rfl
  have hnone : ∀ d ∈ (new true (f.genProlog.map .inst)).effects.decls, d.holds :=
    fun d hd => nomatch hd
  rw [hrun, Effects.run_holds, and_iff_right hnone]
  have hplaced : ∀ (pre : List Event) (i : InstRef),
      ((new true (f.genProlog.map .inst)).effects.run pre).placed i ↔
        i ∈ f.genProlog ∨ .place i ∈ pre := by
    intro pre i
    rw [Effects.run_placed, ← new_placed]
    rfl
  have hdropped : ∀ (pre : List Event) (i : InstRef),
      ((new true (f.genProlog.map .inst)).effects.run pre).dropped i ↔ .drop i ∈ pre := by
    intro pre i
    rw [Effects.run_dropped]
    simp [GenBlocks.effects, new]
  have hdeclared : ∀ (pre : List Event) (v : Bvariable),
      v ∈ ((new true (f.genProlog.map .inst)).effects.run pre).declared ↔
        ¬v.isTemporary ∧ ∃ vars, .declare vars ∈ pre ∧ v ∈ vars := by
    intro pre v
    rw [Effects.mem_run_declared]
    simp [GenBlocks.effects, new]
  unfold Effects.InPlace Bfunction.DeclaredInPlace
  simp only [hplaced, hdropped, hdeclared]
  refine forall_congr' fun pre => forall_congr' fun vars => forall_congr' fun post =>
    forall_congr' fun _ => forall_congr' fun v => forall_congr' fun _ => forall_congr' fun ht =>
      imp_congr_left ?_
  simp [ht]

end Completed

/-- Every declaration that is inserted stands after its variable's initializer exactly where the
initializers are in place. -/
theorem declarations_hold_iff (f : Bfunction) (fn : Instructions) (code : BnodeTree)
    (h : (walk fn (new true (f.genProlog.map .inst)) (some 0) code).isSome) :
    (∃ s, functionSetBody f fn code = some s ∧ ∀ d ∈ s.decls, d.holds) ↔
      f.ParamsInPlace fn code ∧ f.DeclaredInPlace fn code := by
  obtain ⟨⟨block, s⟩, h⟩ := Option.isSome_iff_exists.mp h
  have hvalid := (walked_code h).valid
  obtain ⟨entry, hentry⟩ : ∃ entry, s.blocks[0]? = some entry :=
    ⟨_, List.getElem?_eq_getElem hvalid.pos⟩
  have hfinish : (∃ s', functionSetBody f fn code = some s' ∧ ∀ d ∈ s'.decls, d.holds) ↔
      ∃ s', s.finishFunction f = some s' ∧ ∀ d ∈ s'.decls, d.holds := by
    simp only [functionSetBody, h, Option.bind_eq_bind, Option.bind_some, Option.bind_eq_some_iff]
    cases block with
    | none => simp
    | some b =>
      have hepilog : ∀ s' : GenBlocks, (s'.fixupEpilogBlock b).decls = s'.decls := by
        intro s'
        unfold fixupEpilogBlock
        split_ifs <;> rfl
      simp only [Option.some.injEq]
      constructor
      · rintro ⟨_, ⟨s', hs', rfl⟩, hall⟩
        exact ⟨s', hs', hepilog s' ▸ hall⟩
      · rintro ⟨s', hs', hall⟩
        exact ⟨_, ⟨s', hs', rfl⟩, (hepilog s').symm ▸ hall⟩
  rw [hfinish, finishFunction_holds f hentry hvalid.debug, locals_hold h]
  refine and_congr_left fun _ => ?_
  exact forall_congr' fun p => forall_congr' fun hp => param_stands h hentry hp

/-- `x` is declared, and `2` stores its first value. -/
def storesTwo : Bvariable := ⟨0, false, some 2⟩

/-- The variable is initialized, and then the function returns.  A parameter is in memory. -/
theorem storesTwo_inPlace :
    (Bfunction.mk [.indirect 1] none [0] []).ParamsInPlace ⟨fun _ => [], fun _ => false⟩
        (.block [storesTwo] [.exprStmt (.expr [] none [2]), .returnStmt (.expr [] none []) 1]) ∧
      (Bfunction.mk [.indirect 1] none [0] []).DeclaredInPlace ⟨fun _ => [], fun _ => false⟩
        (.block [storesTwo] [.exprStmt (.expr [] none [2]), .returnStmt (.expr [] none []) 1]) :=
  (declarations_hold_iff _ _ _ rfl).mp ⟨_, rfl, by decide⟩

/-- The variable is initialized after a return, where its store is deleted. -/
theorem not_declarations_hold : ¬∀ (f : Bfunction) (fn : Instructions) (code : BnodeTree),
    (walk fn (new true (f.genProlog.map .inst)) (some 0) code).isSome →
      ∃ s, functionSetBody f fn code = some s ∧ ∀ d ∈ s.decls, d.holds := by
  intro h
  obtain ⟨s, hs, hall⟩ := h ⟨[], none, [0], []⟩ ⟨fun _ => [], fun _ => false⟩
    (.block [storesTwo] [.returnStmt (.expr [] none []) 1, .exprStmt (.expr [] none [2])]) rfl
  cases hs
  exact Bool.false_ne_true (hall ⟨0, false⟩ (.head _))

end GenBlocks

end Dragongo
