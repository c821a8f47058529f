import Mathlib.Algebra.Order.Group.Multiset
import Mathlib.Tactic.Abel
import Dragongo.DebugMetadata

/-!
# Where the instructions go

Each instruction of a function is put into one block or is deleted, and not both: none is lost,
and none is put anywhere twice.
-/

namespace Dragongo

/-- The instruction of the code that something in a block is, or replaces. -/
def BlockInst.origin : BlockInst → Option InstRef
  | inst i | ret i | invoke i _ _ => some i
  | _ => none

namespace BnodeTree

mutual
/-- No statement that is without a finally part has instructions in the place of one. -/
def isWhole : BnodeTree → Bool
  | expr kids _ _ => areWhole kids
  | exprStmt e => e.isWhole
  | block _ stmts => areWhole stmts
  | ifStmt cond trueBlock falseBlock => cond.isWhole && trueBlock.isWhole && falseBlock.isWhole
  | switchStmt swvalue _ stmts => swvalue.isWhole && areWhole stmts
  | gotoStmt _ | labelStmt _ => true
  | returnStmt re _ => re.isWhole
  | deferStmt undefer defer => undefer.isWhole && defer.isWhole
  | excepStmt body onexception hasFinally finally_ => body.isWhole && onexception.isWhole &&
    finally_.isWhole && (hasFinally || finally_.ownInsts.flatten.isEmpty)
def areWhole : List BnodeTree → Bool
  | [] => true
  | n :: ns => n.isWhole && areWhole ns
end

/-- All instructions of a tree. -/
def given (n : BnodeTree) : Multiset InstRef := n.ownInsts.flatten

def givenAll (ns : List BnodeTree) : Multiset InstRef := (ownInstsAll ns).flatten

section Given

variable (kids stmts : List BnodeTree) (re cond : BnodeTree) (ri : InstRef)

theorem given_expr (value : Option NodeValue) (insts : List InstRef) :
    (expr kids value insts).given = givenAll kids + insts := by
  rw [given, ownInsts, List.flatten_cons, ← Multiset.coe_add, add_comm]
  rfl

theorem given_block (vars : List Bvariable) : (block vars stmts).given = givenAll stmts := by
  rw [given, ownInsts]
  rfl

theorem given_if (trueBlock falseBlock : BnodeTree) : (ifStmt cond trueBlock falseBlock).given =
    cond.given + trueBlock.given + falseBlock.given := by
  rw [given, ownInsts, List.flatten_append, List.flatten_append]
  rfl

theorem given_switch (vals : List (List ℤ)) :
    (switchStmt cond vals stmts).given = cond.given + givenAll stmts := by
  rw [given, ownInsts, List.flatten_append]
  rfl

theorem given_return : (returnStmt re ri).given = re.given + {ri} := by
  rw [given, given, ownInsts]
  cases re.ownInsts with
  | nil => rfl
  | cons own below =>
    simp only [List.flatten_cons, ← Multiset.coe_add, Multiset.coe_singleton]
    abel

theorem given_defer (undefer defer : BnodeTree) :
    (deferStmt undefer defer).given = undefer.given + defer.given := by
  rw [given, ownInsts, List.flatten_append]
  rfl

theorem given_excep (body onexception finally_ : BnodeTree) (hasFinally : Bool) :
    (excepStmt body onexception hasFinally finally_).given =
      body.given + onexception.given + finally_.given := by
  rw [given, ownInsts, List.flatten_append, List.flatten_append]
  rfl

theorem givenAll_cons (n : BnodeTree) : givenAll (n :: kids) = n.given + givenAll kids := by
  rw [givenAll, ownInstsAll, List.flatten_append]
  rfl

end Given

mutual
/-- The expression of a return in such a tree is one, too. -/
theorem isWhole_of_mem_returns : ∀ {n re : BnodeTree} {ri : InstRef}, n.isWhole →
    (re, ri) ∈ n.returns → re.isWhole
  | .expr kids _ _, _, _, h, hmem => by
    rw [isWhole] at h
    rw [returns] at hmem
    exact areWhole_of_mem_returns h hmem
  | .exprStmt e, _, _, h, hmem => by
    rw [isWhole] at h
    rw [returns] at hmem
    exact isWhole_of_mem_returns h hmem
  | .block _ stmts, _, _, h, hmem => by
    rw [isWhole] at h
    rw [returns] at hmem
    exact areWhole_of_mem_returns h hmem
  | .ifStmt cond trueBlock falseBlock, _, _, h, hmem => by
    simp only [isWhole, Bool.and_eq_true] at h
    simp only [returns, List.mem_append] at hmem
    rcases hmem with (hmem | hmem) | hmem
    · exact isWhole_of_mem_returns h.1.1 hmem
    · exact isWhole_of_mem_returns h.1.2 hmem
    · exact isWhole_of_mem_returns h.2 hmem
  | .switchStmt swvalue _ stmts, _, _, h, hmem => by
    simp only [isWhole, Bool.and_eq_true] at h
    simp only [returns, List.mem_append] at hmem
    rcases hmem with hmem | hmem
    · exact isWhole_of_mem_returns h.1 hmem
    · exact areWhole_of_mem_returns h.2 hmem
  | .gotoStmt _, _, _, _, hmem | .labelStmt _, _, _, _, hmem => by
    rw [returns] at hmem
    cases hmem
  | .returnStmt re _, _, _, h, hmem => by
    rw [isWhole] at h
    rw [returns, List.mem_singleton] at hmem
    cases hmem
    exact h
  | .deferStmt undefer defer, _, _, h, hmem => by
    simp only [isWhole, Bool.and_eq_true] at h
    simp only [returns, List.mem_append] at hmem
    rcases hmem with hmem | hmem
    · exact isWhole_of_mem_returns h.1 hmem
    · exact isWhole_of_mem_returns h.2 hmem
  | .excepStmt body onexception _ finally_, _, _, h, hmem => by
    simp only [isWhole, Bool.and_eq_true] at h
    simp only [returns, List.mem_append] at hmem
    rcases hmem with (hmem | hmem) | hmem
    · exact isWhole_of_mem_returns h.1.1.1 hmem
    · exact isWhole_of_mem_returns h.1.1.2 hmem
    · exact isWhole_of_mem_returns h.1.2 hmem
theorem areWhole_of_mem_returns : ∀ {ns : List BnodeTree} {re : BnodeTree} {ri : InstRef},
    areWhole ns → (re, ri) ∈ returnsAll ns → re.isWhole
  | [], _, _, _, hmem => by
    rw [returnsAll] at hmem
    cases hmem
  | n :: ns, _, _, h, hmem => by
    rw [areWhole, Bool.and_eq_true] at h
    rw [returnsAll, List.mem_append] at hmem
    rcases hmem with hmem | hmem
    · exact isWhole_of_mem_returns h.1 hmem
    · exact areWhole_of_mem_returns h.2 hmem
end

end BnodeTree

namespace GenBlocks

/-! ## What the walk holds -/

/-- The instructions that are in blocks. -/
def placedInsts (s : GenBlocks) : List InstRef := s.blocks.flatten.filterMap BlockInst.origin

/-- The instructions of a return that is kept for later. -/
def keptInsts : Option (BnodeTree × InstRef) → Multiset InstRef
  | none => 0
  | some (re, ri) => (BnodeTree.returnStmt re ri).given

/-- The instructions that the walk has been given: in blocks, deleted, or of a return that is
kept. -/
def held (s : GenBlocks) : Multiset InstRef :=
  s.placedInsts + s.discarded + keptInsts s.cachedReturn

theorem flatten_modify_append {α : Type} (x : α) : ∀ {l : List (List α)} {b : ℕ}, b < l.length →
    (l.modify b (· ++ [x])).flatten.Perm (l.flatten ++ [x])
  | xs :: l, 0, _ => by
    rw [List.modify_zero_cons, List.flatten_cons, List.flatten_cons, List.append_assoc,
      List.append_assoc]
    exact List.perm_append_comm.append_left xs
  | xs :: l, b + 1, h => by
    rw [List.modify_succ_cons, List.flatten_cons, List.flatten_cons, List.append_assoc]
    exact (flatten_modify_append x (Nat.lt_of_succ_lt_succ h)).append_left xs

section Held

variable {s s' : GenBlocks} {b : BlockRef} {bi : BlockInst} {i : InstRef} {fn : Instructions}

theorem placedInsts_push (hb : b < s.blocks.length) :
    (s.push b bi).placedInsts.Perm (s.placedInsts ++ bi.origin.toList) := by
  have hperm := (flatten_modify_append bi hb).filterMap BlockInst.origin
  rw [List.filterMap_append] at hperm
  refine hperm.trans (List.Perm.of_eq ?_)
  cases h : bi.origin <;> simp [placedInsts, h]

theorem held_push_inst (hb : b < s.blocks.length) (h : bi.origin = some i) :
    (s.push b bi).held = s.held + {i} := by
  have hperm : (s.push b bi).placedInsts.Perm _ := placedInsts_push hb
  rw [h] at hperm
  have hplaced : ((s.push b bi).placedInsts : Multiset InstRef) = s.placedInsts + {i} :=
    Multiset.coe_eq_coe.mpr hperm
  unfold held
  rw [hplaced]
  change _ + {i} + (s.discarded : Multiset InstRef) + keptInsts s.cachedReturn = _
  abel

theorem ne_inst_of_origin (h : bi.origin = none) (j : InstRef) : bi ≠ .inst j := by
  rintro rfl
  cases h

/-- Transfers of control are new. -/
theorem held_push (h : bi.origin = none) : (s.push b bi).held = s.held := by
  have hplaced : ((s.push b bi).placedInsts : Multiset InstRef) = s.placedInsts := by
    by_cases hb : b < s.blocks.length
    · have hperm : (s.push b bi).placedInsts.Perm _ := placedInsts_push hb
      rw [h, Option.toList_none, List.append_nil] at hperm
      exact Multiset.coe_eq_coe.mpr hperm
    · have hsame : s.blocks.modify b (· ++ [bi]) = s.blocks :=
        List.modify_eq_self (Nat.le_of_not_lt hb)
      rw [placedInsts, GenBlocks.push, hsame]
      rfl
  unfold held
  rw [hplaced]
  rfl

variable (s)

theorem held_mkLLVMBlocks (n : ℕ) : (s.mkLLVMBlocks n).held = s.held := by
  have hplaced : (s.mkLLVMBlocks n).placedInsts = s.placedInsts := by
    rw [placedInsts, mkLLVMBlocks_blocks, List.flatten_append]
    simp [placedInsts]
  unfold held
  rw [hplaced, mkLLVMBlocks_eq]

theorem held_branchTo (cur : Option BlockRef) (target : BlockRef) :
    (s.branchTo cur target).held = s.held := by
  unfold GenBlocks.branchTo
  cases cur with
  | none => rfl
  | some b =>
    dsimp only
    split_ifs
    · rfl
    · exact held_push rfl

theorem held_leave (cur : Option BlockRef) (target : BlockRef) :
    (s.leave cur target).held = s.held := by
  cases cur with
  | none => rfl
  | some b => exact held_push rfl

theorem held_landAt (pad target : BlockRef) : (s.landAt pad target).held = s.held :=
  (held_push rfl).trans (held_push rfl)

theorem held_getBlockForLabel (lab : LabelId) : (s.getBlockForLabel lab).2.held = s.held := by
  unfold GenBlocks.getBlockForLabel
  cases s.labelmap lab with
  | none => exact held_mkLLVMBlocks s 1
  | some bb => rfl

theorem held_processVars (vars : List Bvariable) : (s.processVars vars).held = s.held := by
  induction vars generalizing s with
  | nil => rfl
  | cons v vars ih =>
    unfold processVars
    split_ifs
    · exact ih s
    · rw [ih]
      unfold insertVarDecl
      cases v.initializer <;> rfl

theorem held_endLexicalBlock (vars : List Bvariable) : (s.endLexicalBlock vars).held = s.held := by
  unfold endLexicalBlock
  split_ifs
  · exact held_processVars s vars
  · rfl

variable {s}

theorem held_createBranch {cur : Option BlockRef} {target : BlockRef}
    (h : s.createBranch cur target = some s') : s'.held = s.held := by
  obtain ⟨b, -, rfl⟩ := Option.map_eq_some_iff.mp h
  exact held_push rfl

theorem held_discarded (is : List InstRef) :
    held { s with discarded := is ++ s.discarded } = s.held + is := by
  unfold held
  rw [← Multiset.coe_add]
  change (s.placedInsts : Multiset InstRef) + _ + keptInsts s.cachedReturn = _
  abel

theorem held_discard (h : s.discard fn i = some s') : s'.held = s.held + {i} := by
  unfold discard at h
  split_ifs at h
  cases h
  exact held_discarded [i]

theorem held_destroy {re : BnodeTree} {ri : InstRef} (h : s.destroy fn re ri = some s') :
    s'.held = s.held + (BnodeTree.returnStmt re ri).given := by
  unfold destroy at h
  rw [BnodeTree.given]
  generalize (BnodeTree.returnStmt re ri).ownInsts = owns at h ⊢
  induction owns generalizing s with
  | nil =>
    cases h
    exact (add_zero _).symm
  | cons own below ih =>
    rw [List.foldlM_cons] at h
    obtain ⟨s₁, hown, h⟩ := Option.bind_eq_some_iff.mp h
    have hheld : s₁.held = s.held + own := by
      unfold destroyOwn at hown
      split_ifs at hown
      cases hown
      rw [held_discarded, Multiset.coe_reverse]
    rw [ih h, hheld, List.flatten_cons, ← Multiset.coe_add, add_assoc]

/-- A return is kept. -/
theorem held_keep {re : BnodeTree} {ri : InstRef} (h : s.cachedReturn = none) :
    (s.setCached (some (re, ri))).held = s.held + (BnodeTree.returnStmt re ri).given := by
  unfold held
  rw [h]
  change _ = _ + 0 + _
  rw [add_zero]
  rfl

/-- A kept return has been placed. -/
theorem held_release : (s.setCached none).held + keptInsts s.cachedReturn = s.held := by
  unfold held
  change _ + 0 + _ = _
  rw [add_zero]
  rfl

theorem held_addReturn {cur : Option BlockRef} {ri : InstRef}
    (hcur : ∀ b, cur = some b → b < s.blocks.length) (h : s.addReturn fn cur ri = some s') :
    s'.held = s.held + {ri} := by
  cases cur with
  | none => exact held_discard h
  | some b =>
    cases h
    exact held_push_inst (hcur b rfl) rfl

theorem held_addInst {cur cur' : Option BlockRef} (hcur : ∀ b, cur = some b → b < s.blocks.length)
    (h : s.addInst fn cur i = some (cur', s')) : s'.held = s.held + {i} := by
  unfold addInst at h
  cases cur with
  | none =>
    obtain ⟨s₁, hd, h⟩ := Option.map_eq_some_iff.mp h
    cases h
    exact held_discard hd
  | some b =>
    have hb := hcur b rfl
    have hinst : (s.push b (.inst i)).held = s.held + {i} := held_push_inst hb rfl
    have hinvoke : ∀ c pad, (s.mkLLVMBlock.2.push b (.invoke i c pad)).held = s.held + {i} := by
      intro c pad
      have hb' : b < s.mkLLVMBlock.2.blocks.length :=
        Nat.lt_of_lt_of_le hb (length_mkLLVMBlocks s 1 ▸ Nat.le_succ _)
      rw [held_push_inst hb' rfl]
      exact congrArg (· + {i}) (held_mkLLVMBlocks s 1)
    dsimp only at h
    cases hpads : s.padBlockStack with
    | nil =>
      rw [hpads] at h
      cases h
      exact hinst
    | cons pad pads =>
      rw [hpads] at h
      dsimp only at h
      split_ifs at h <;> cases h
      · exact hinvoke _ _
      · exact hinst

theorem held_addInsts {insts : List InstRef} {cur cur' : Option BlockRef} (hvalid : Valid s cur)
    (h : s.addInsts fn cur insts = some (cur', s')) : s'.held = s.held + insts := by
  induction insts generalizing s cur with
  | nil =>
    cases h
    exact (add_zero _).symm
  | cons i insts ih =>
    rw [addInsts] at h
    obtain ⟨⟨cur₁, s₁⟩, hi, h⟩ := Option.bind_eq_some_iff.mp h
    have hvalid₁ := ((Walked.refl hvalid).addInst hi).1.valid
    rw [ih hvalid₁ h, held_addInst hvalid.cursor hi, ← Multiset.cons_coe, add_assoc,
      Multiset.singleton_add]

end Held

/-! ## Statements -/

section Statements

variable (kept : Walk) (fn : Instructions)

/-- The walk of a kept return adds its expression to what is held. -/
def KeptConserves : Prop :=
  ∀ ⦃re : BnodeTree⦄ ⦃s : GenBlocks⦄ ⦃cur cur' : Option BlockRef⦄ ⦃s' : GenBlocks⦄, re.isWhole →
    kept s cur re = some (cur', s') → Valid s cur → s.FinInPad → s'.held = s.held + re.given

/-- The walk of a statement adds the instructions of the statement to what is held. -/
def Conserves (n : BnodeTree) : Prop :=
  ∀ ⦃s : GenBlocks⦄ ⦃cur cur' : Option BlockRef⦄ ⦃s' : GenBlocks⦄, n.isWhole →
    walkWith kept fn s cur n = some (cur', s') → Valid s cur → s.FinInPad →
      s'.held = s.held + n.given

def AllConserve (ns : List BnodeTree) : Prop :=
  ∀ ⦃s : GenBlocks⦄ ⦃cur cur' : Option BlockRef⦄ ⦃s' : GenBlocks⦄, BnodeTree.areWhole ns →
    walkAllWith kept fn s cur ns = some (cur', s') → Valid s cur → s.FinInPad →
      s'.held = s.held + BnodeTree.givenAll ns

/-- The bodies of a switch are walked from blocks of their own. -/
def CasesConserve (stmts : List BnodeTree) : Prop :=
  ∀ ⦃s s' : GenBlocks⦄ ⦃b epilog : BlockRef⦄, BnodeTree.areWhole stmts →
    walkCasesWith kept fn s b epilog stmts = some s' → Valid s none → s.FinInPad →
      (0 : ℕ) < b → b + stmts.length ≤ s.blocks.length →
        s'.held = s.held + BnodeTree.givenAll stmts

variable {kept fn} {keptEvents : Ctx → BnodeTree → List Event}

theorem conserves_expr {kids : List BnodeTree} (value : Option NodeValue) (insts : List InstRef)
    (hfollow : AllFollow kept fn keptEvents kids) (h : AllConserve kept fn kids) :
    Conserves kept fn (.expr kids value insts) := by
  intro s cur cur' s' hwhole hwalk hvalid hfin
  rw [BnodeTree.isWhole] at hwhole
  rw [walkWith] at hwalk
  obtain ⟨⟨cur₁, s₁⟩, hkids, hinsts⟩ := Option.bind_eq_some_iff.mp hwalk
  have hdoes := hfollow hkids hvalid hfin
  rw [held_addInsts hdoes.walked.valid hinsts, h hwhole hkids hvalid hfin, BnodeTree.given_expr,
    add_assoc]

theorem conserves_block (vars : List Bvariable) {stmts : List BnodeTree}
    (h : AllConserve kept fn stmts) : Conserves kept fn (.block vars stmts) := by
  intro s cur cur' s' hwhole hwalk hvalid hfin
  rw [BnodeTree.isWhole] at hwhole
  rw [walkWith] at hwalk
  obtain ⟨⟨cur₁, s₁⟩, hstmts, hwalk⟩ := Option.bind_eq_some_iff.mp hwalk
  cases hwalk
  rw [held_endLexicalBlock, h hwhole hstmts hvalid hfin, BnodeTree.given_block]

theorem allConserve_cons {n : BnodeTree} {ns : List BnodeTree}
    (hfollow : Follows kept fn keptEvents n) (h : Conserves kept fn n)
    (hs : AllConserve kept fn ns) : AllConserve kept fn (n :: ns) := by
  intro s cur cur' s' hwhole hwalk hvalid hfin
  rw [BnodeTree.areWhole, Bool.and_eq_true] at hwhole
  rw [walkAllWith] at hwalk
  obtain ⟨⟨cur₁, s₁⟩, hn, hns⟩ := Option.bind_eq_some_iff.mp hwalk
  have hdoes := hfollow hn hvalid hfin
  rw [hs hwhole.2 hns hdoes.walked.valid (hfin.of_rest hdoes.rest), h hwhole.1 hn hvalid hfin,
    BnodeTree.givenAll_cons, add_assoc]

theorem conserves_goto (label : LabelId) : Conserves kept fn (.gotoStmt label) := by
  intro s cur cur' s' _ hwalk _ _
  have hheld := held_getBlockForLabel s label
  rw [walkWith] at hwalk
  generalize s.getBlockForLabel label = p at hwalk hheld
  cases hwalk
  rw [held_branchTo, hheld]
  exact (add_zero _).symm

theorem conserves_label (label : LabelId) : Conserves kept fn (.labelStmt label) := by
  intro s cur cur' s' _ hwalk _ _
  have hheld := held_getBlockForLabel s label
  rw [walkWith] at hwalk
  generalize s.getBlockForLabel label = p at hwalk hheld
  cases hwalk
  rw [held_leave, hheld]
  exact (add_zero _).symm

theorem conserves_if {cond trueBlock falseBlock : BnodeTree}
    (hcf : Follows kept fn keptEvents cond) (htf : Follows kept fn keptEvents trueBlock)
    (hc : Conserves kept fn cond) (ht : Conserves kept fn trueBlock)
    (hf : Conserves kept fn falseBlock) :
    Conserves kept fn (.ifStmt cond trueBlock falseBlock) := by
  intro s cur cur' s' hwhole hwalk hvalid hfin
  simp only [BnodeTree.isWhole, Bool.and_eq_true] at hwhole
  simp only [walkWith, Option.bind_eq_bind, Option.bind_eq_some_iff] at hwalk
  obtain ⟨⟨cur₁, s₁⟩, hcond, cval, -, b, rfl, ⟨tsucc, s₂⟩, htrue, ⟨fsucc, s₃⟩, hfalse, hwalk⟩ :=
    hwalk
  cases hwalk
  change walkWith kept fn (s₁.openIf b cval) _ _ = _ at htrue
  dsimp only at hfalse
  have hcd := hcf hcond hvalid hfin
  have hopen : (s₁.openIf b cval).held = s₁.held :=
    (held_push rfl).trans (held_mkLLVMBlocks s₁ 3)
  have hrest : (s₁.openIf b cval).rest = s.rest.keep cond.returns := by
    rw [openIf, rest_push, rest_mkLLVMBlocks, hcd.rest]
  have hlen : (s₁.openIf b cval).blocks.length = s₁.blocks.length + 3 := openIf_length
  have hbr : Walked s cur _ (s₁.openIf b cval) (some s₁.blocks.length) :=
    ((hcd.walked.mkLLVMBlocks 3).push (ne_inst_of_origin rfl)).jump hcd.walked.valid.pos
      (hlen ▸ Nat.lt_add_of_pos_right (Nat.succ_pos 2))
  have htd := htf htrue hbr.valid (hfin.of_rest hrest)
  have hft := (htd.walked.branchTo (s₁.blocks.length + 1)).jump (b := s₁.blocks.length + 2)
    (Nat.succ_pos _) (by
      rw [length_branchTo]
      exact Nat.lt_of_lt_of_le (Nat.lt_of_lt_of_eq (Nat.lt_succ_self _) hlen.symm)
        htd.walked.grown.length_le)
  have hfin₂ : (s₂.branchTo tsucc (s₁.blocks.length + 1)).FinInPad :=
    (hfin.of_rest hrest).of_rest ((rest_branchTo _ _ _).trans htd.rest)
  rw [held_branchTo, hf hwhole.2 hfalse hft.valid hfin₂, held_branchTo,
    ht hwhole.1.2 htrue hbr.valid (hfin.of_rest hrest), hopen, hc hwhole.1.1 hcond hvalid hfin,
    BnodeTree.given_if]
  abel

theorem casesConserve_cons {st : BnodeTree} {stmts : List BnodeTree}
    (hfollow : Follows kept fn keptEvents st) (h : Conserves kept fn st)
    (hs : CasesConserve kept fn stmts) : CasesConserve kept fn (st :: stmts) := by
  intro s s' b epilog hwhole hwalk hvalid hfin h0 hlen
  rw [BnodeTree.areWhole, Bool.and_eq_true] at hwhole
  rw [walkCasesWith] at hwalk
  obtain ⟨⟨cur₁, s₁⟩, hst, hwalk⟩ := Option.bind_eq_some_iff.mp hwalk
  rw [List.length_cons] at hlen
  have hb : (b : ℕ) < s.blocks.length := Nat.lt_of_lt_of_le
    (Nat.lt_add_of_pos_right (Nat.succ_pos _)) hlen
  have hin := (Walked.refl hvalid).jump h0 hb
  have hdoes := hfollow hst hin.valid hfin
  have hb₁ : (b : ℕ) < s₁.blocks.length := Nat.lt_of_lt_of_le hb hdoes.walked.grown.length_le
  have hout : Walked s none _ (s₁.branchTo (some b) epilog) none :=
    ((hin.trans hdoes.walked).stop.jump h0 hb₁).branchTo epilog |>.stop
  have hlen₁ : b + 1 + stmts.length ≤ (s₁.branchTo (some b) epilog).blocks.length := by
    rw [length_branchTo, Nat.add_assoc, Nat.add_comm 1]
    exact Nat.le_trans hlen hdoes.walked.grown.length_le
  have hfin₁ : (s₁.branchTo (some b) epilog).FinInPad :=
    hfin.of_rest ((rest_branchTo _ _ _).trans hdoes.rest)
  rw [hs hwhole.2 hwalk hout.valid hfin₁ (Nat.succ_pos b) hlen₁, held_branchTo,
    h hwhole.1 hst hin.valid hfin, BnodeTree.givenAll_cons, add_assoc]

theorem conserves_switch {swvalue : BnodeTree} {vals : List (List ℤ)} {stmts : List BnodeTree}
    (hfollow : Follows kept fn keptEvents swvalue) (h : Conserves kept fn swvalue)
    (hs : CasesConserve kept fn stmts) : Conserves kept fn (.switchStmt swvalue vals stmts) := by
  intro s cur cur' s' hwhole hwalk hvalid hfin
  rw [BnodeTree.isWhole, Bool.and_eq_true] at hwhole
  simp only [walkWith, Option.bind_eq_bind, Option.bind_eq_some_iff, Option.guard_eq_some'] at hwalk
  obtain ⟨-, hlen, ⟨cur₁, s₁⟩, hsw, defBB, -, s₂, hcases, v, -, b, rfl, hwalk⟩ := hwalk
  cases hwalk
  dsimp only at hcases
  have hdoes := hfollow hsw hvalid hfin
  have hblocks : Walked s cur _ (s₁.mkLLVMBlocks (vals.length + 1)) (some b) :=
    hdoes.walked.mkLLVMBlocks _
  have hfin₁ : (s₁.mkLLVMBlocks (vals.length + 1)).FinInPad :=
    hfin.of_rest ((rest_mkLLVMBlocks _ _).trans hdoes.rest)
  have hlen₁ : s₁.blocks.length + stmts.length ≤
      (s₁.mkLLVMBlocks (vals.length + 1)).blocks.length := by
    rw [length_mkLLVMBlocks, hlen]
    exact Nat.add_le_add_left (Nat.le_succ _) _
  have hswitch : ∀ cases, (s₂.push b (.switch v defBB cases)).held = s₂.held :=
    fun _ => held_push rfl
  rw [hswitch, hs hwhole.2 hcases hblocks.stop.valid hfin₁ hdoes.walked.valid.pos hlen₁,
    held_mkLLVMBlocks, h hwhole.1 hsw hvalid hfin, BnodeTree.given_switch, add_assoc]

theorem conserves_return {re : BnodeTree} (ri : InstRef) (hfollow : Follows kept fn keptEvents re)
    (h : Conserves kept fn re) : Conserves kept fn (.returnStmt re ri) := by
  intro s cur cur' s' hwhole hwalk hvalid hfin
  rw [BnodeTree.isWhole] at hwhole
  rw [walkWith] at hwalk
  cases hf : s.finallyBlock with
  | some fin =>
    cases hc : s.cachedReturn with
    | none =>
      simp only [hf, hc, Option.bind_eq_bind, Option.bind_some, Option.bind_eq_some_iff] at hwalk
      obtain ⟨s₂, hbr, hwalk⟩ := hwalk
      cases hwalk
      rw [held_createBranch hbr, held_keep hc]
    | some c =>
      simp only [hf, hc, Option.bind_eq_bind, Option.bind_eq_some_iff] at hwalk
      obtain ⟨s₁, hdestroy, s₂, hbr, hwalk⟩ := hwalk
      cases hwalk
      rw [held_createBranch hbr, held_destroy hdestroy]
  | none =>
    simp only [hf, Option.bind_eq_bind, Option.bind_eq_some_iff] at hwalk
    obtain ⟨⟨bb, s₁⟩, hre, s₂, hadd, hwalk⟩ := hwalk
    split_ifs at hwalk with hbb
    cases hwalk
    have hdoes := hfollow hre hvalid hfin
    rw [held_addReturn hdoes.walked.valid.cursor hadd, h hwhole hre hvalid hfin,
      BnodeTree.given_return, add_assoc]

theorem conserves_defer {undefer defer : BnodeTree} (huf : Follows kept fn keptEvents undefer)
    (hu : Conserves kept fn undefer) (hd : Conserves kept fn defer) :
    Conserves kept fn (.deferStmt undefer defer) := by
  intro s cur cur' s' hwhole hwalk hvalid hfin
  rw [BnodeTree.isWhole, Bool.and_eq_true] at hwhole
  simp only [walkWith, Option.bind_eq_bind, Option.bind_eq_some_iff] at hwalk
  obtain ⟨⟨contbb, s₁⟩, hundefer, ⟨bb, s₂⟩, hdefer, hwalk⟩ := hwalk
  split_ifs at hwalk with hbb
  cases hwalk
  dsimp only at hdefer hbb
  have hlen : ((s.mkLLVMBlocks 3).leave cur s.blocks.length).blocks.length =
      s.blocks.length + 3 := by
    rw [length_leave, length_mkLLVMBlocks]
  have hrest : ((s.mkLLVMBlocks 3).leave cur s.blocks.length).rest = s.rest := by
    rw [rest_leave, rest_mkLLVMBlocks]
  have hin : Walked s cur [] (((s.mkLLVMBlocks 3).leave cur s.blocks.length).setPads
      ((s.blocks.length + 1) :: s.padBlockStack)) (some s.blocks.length) :=
    ((((Walked.refl hvalid).mkLLVMBlocks 3).leave _).jump hvalid.pos
      (hlen ▸ Nat.lt_add_of_pos_right (Nat.succ_pos 2))).congr rfl rfl rfl rfl
  have hud := huf hundefer hin.valid fun _ => List.cons_ne_nil _ _
  have hlen₁ : s.blocks.length + 3 ≤ s₁.blocks.length :=
    hlen ▸ hud.walked.grown.length_le
  have hpop : Walked s cur _ (s₁.setPads s.padBlockStack) contbb :=
    (hin.trans hud.walked).congr rfl rfl rfl rfl
  have hland : Walked s cur _ ((s₁.setPads s.padBlockStack).landAt (s.blocks.length + 1)
      (s.blocks.length + 2)) contbb :=
    hpop.landAt (Nat.succ_pos _) (Nat.lt_of_succ_le (Nat.le_trans (Nat.le_succ _) hlen₁))
  have hcatch := hland.jump (b := s.blocks.length + 2) (Nat.succ_pos _) (by
    rw [length_landAt]
    exact hlen₁)
  have hfin₁ : ((s₁.setPads s.padBlockStack).landAt (s.blocks.length + 1)
      (s.blocks.length + 2)).FinInPad := by
    have hrest₁ : ((s₁.setPads s.padBlockStack).landAt (s.blocks.length + 1)
        (s.blocks.length + 2)).rest = s.rest.keep undefer.returns := by
      rw [rest_landAt, rest_setPads, hud.rest, rest_setPads, hrest]
      rfl
    exact hfin.of_rest hrest₁
  subst hbb
  have hundefer' : s₁.held = s.held + undefer.given := by
    rw [hu hwhole.1 hundefer hin.valid fun _ => List.cons_ne_nil _ _]
    change ((s.mkLLVMBlocks 3).leave cur s.blocks.length).held + _ = _
    rw [held_leave, held_mkLLVMBlocks]
  have hpush : (s₂.push (s.blocks.length + 2) (.br s.blocks.length)).held = s₂.held :=
    held_push rfl
  rw [hpush, hd hwhole.2 hdefer hcatch.valid hfin₁, held_landAt]
  change s₁.held + _ = _
  rw [hundefer', BnodeTree.given_defer, add_assoc]

/-! ### Exceptions -/

/-- Where the code for an exception is walked from. -/
theorem valid_catch {s : GenBlocks} {cur : Option BlockRef} {padbb catchbb : BlockRef}
    (hvalid : Valid s cur) (h0 : (0 : ℕ) < padbb) (hle : padbb + 2 ≤ catchbb)
    (hlen : s.blocks.length = catchbb) :
    Valid (((s.mkLLVMBlocks 2).landAt padbb catchbb).setPads [catchbb + 1]) (some catchbb) := by
  have hlen₁ : (s.mkLLVMBlocks 2).blocks.length = catchbb + 2 := by
    rw [length_mkLLVMBlocks, hlen]
  have hland : Walked s cur [] ((s.mkLLVMBlocks 2).landAt padbb catchbb) cur :=
    ((Walked.refl hvalid).mkLLVMBlocks 2).landAt h0 (hlen₁ ▸ Nat.lt_of_succ_le
      (Nat.le_trans (Nat.le_succ _) (Nat.le_trans hle (Nat.le_add_right _ 2))))
  have hpush : Walked s cur []
      (((s.mkLLVMBlocks 2).landAt padbb catchbb).setPads [catchbb + 1]) cur :=
    hland.congr rfl rfl rfl rfl
  have hcatch := hpush.jump (b := catchbb) (Nat.lt_of_lt_of_le h0 (Nat.le_of_add_right_le hle)) (by
    rw [setPads, length_landAt, hlen₁]
    exact Nat.lt_add_of_pos_right (Nat.succ_pos 1))
  exact hcatch.valid

/-- The finally part, and after it the return that has been kept. -/
theorem finally_conserves {s s₁ s' : GenBlocks} {cur₁ cur' : Option BlockRef} {contbb : BlockRef}
    {finally_ : BnodeTree} {ret : Option (BnodeTree × InstRef)} (hk : KeptFollows kept keptEvents)
    (hkc : KeptConserves kept) (hff : Follows kept fn keptEvents finally_)
    (hf : Conserves kept fn finally_) (hwhole : finally_.isWhole)
    (hret : ∀ re ri, ret = some (re, ri) → re.isWhole) (hvalid : Valid s (some contbb))
    (hrest : s.rest = ⟨[], none, ret⟩)
    (hfinally : walkWith kept fn s (some contbb) finally_ = some (cur₁, s₁))
    (hwalk : (match s₁.cachedReturn with
      | none => some (cur₁, s₁)
      | some (re, ri) => do
        let (bb, s) ← kept s₁ cur₁ re
        let s ← s.addReturn fn bb ri
        if cur₁ = bb then some (cur₁, s.setCached none) else none) = some (cur', s')) :
    s'.held = s.held + finally_.given := by
  have hfin : s.FinInPad := by
    unfold FinInPad
    rw [hrest]
    exact fun h => absurd h Bool.false_ne_true
  have hfd := hff hfinally hvalid hfin
  have hrest₁ : s₁.rest = ⟨[], none, ret⟩ := by
    rw [hfd.rest, hrest]
    rfl
  have hcached : s₁.cachedReturn = ret := congrArg Rest.cached hrest₁
  rw [hcached] at hwalk
  cases hr : ret with
  | none =>
    rw [hr] at hwalk
    cases hwalk
    exact hf hwhole hfinally hvalid hfin
  | some r =>
    obtain ⟨re, ri⟩ := r
    rw [hr] at hwalk
    simp only [Option.bind_eq_bind, Option.bind_eq_some_iff] at hwalk
    obtain ⟨⟨bb, s₃⟩, hre, s₄, hadd, hwalk⟩ := hwalk
    split_ifs at hwalk with hbb
    cases hwalk
    dsimp only at hadd hbb
    subst hbb
    have hkd := hk hre hfd.walked.valid (hfin.of_rest hfd.rest)
    have hkept := hkc (hret re ri hr) hre hfd.walked.valid (hfin.of_rest hfd.rest)
    have hadded := held_addReturn hkd.walked.valid.cursor hadd
    have hcached₄ : s₄.cachedReturn = some (re, ri) := by
      have hrest₄ : s₄.rest = s₁.rest := by
        rw [(hkd.walked.addReturn hadd).2, hkd.rest, hrest₁]
        rfl
      exact (congrArg Rest.cached (hrest₄.trans hrest₁)).trans hr
    have hrelease := held_release (s := s₄)
    rw [hcached₄, hadded, hkept, add_assoc, ← BnodeTree.given_return, keptInsts] at hrelease
    rw [add_right_cancel hrelease, hf hwhole hfinally hvalid hfin]

theorem conserves_excep {body onexception finally_ : BnodeTree} (hasFinally : Bool)
    (hk : KeptFollows kept keptEvents) (hkc : KeptConserves kept)
    (hbf : Follows kept fn keptEvents body) (hof : Follows kept fn keptEvents onexception)
    (hff : Follows kept fn keptEvents finally_) (hb : Conserves kept fn body)
    (ho : Conserves kept fn onexception) (hf : Conserves kept fn finally_) :
    Conserves kept fn (.excepStmt body onexception hasFinally finally_) := by
  intro s cur cur' s' hwhole hwalk hvalid hfin
  simp only [BnodeTree.isWhole, Bool.and_eq_true, Bool.or_eq_true] at hwhole
  obtain ⟨⟨⟨hwb, hwo⟩, hwf⟩, habsent⟩ := hwhole
  rw [walkWith] at hwalk
  simp only [Option.bind_eq_bind, Option.bind_eq_some_iff, Option.guard_eq_some'] at hwalk
  obtain ⟨-, ⟨-, hcached⟩, ⟨cur₁, s₁⟩, hbody, ⟨bb, s₂⟩, hon, hwalk⟩ := hwalk
  rw [Option.isNone_iff_eq_none] at hcached
  dsimp only at hon hwalk
  have hisSome := isSome_finally hasFinally (s.blocks.length + 1)
  generalize (if hasFinally then some (s.blocks.length + 1) else none) = fin at hbody hisSome
  have hin := hvalid.excep fin
  have hrest := s.rest_excep fin
  rw [hcached] at hrest
  have hbd := hbf hbody hin.valid (s.finInPad_excep fin)
  have hlen₁ : s.blocks.length + 2 ≤ s₁.blocks.length :=
    Nat.le_trans (Nat.le_of_eq (s.length_mkLLVMBlocks 2).symm) hbd.walked.grown.length_le
  have hleave : Walked s cur _ (s₁.leave cur₁ (s.blocks.length + 1)) cur₁ :=
    (hin.trans hbd.walked).leave _
  have hlen₂ := length_leave s₁ cur₁ (s.blocks.length + 1)
  have hrest₁ : (s₁.leave cur₁ (s.blocks.length + 1)).rest =
      (⟨[s.blocks.length], fin, none⟩ : Rest).keep body.returns := by
    rw [rest_leave, hbd.rest, hrest]
  have hvalid₁ := valid_catch hleave.valid hvalid.pos hlen₁ hlen₂
  obtain ⟨hcatch, hrest₂⟩ := catch_walked hof hleave.valid hvalid.pos hlen₁ hlen₂
    (congrArg Rest.pads hrest₁) hon
  -- what is held after the body, and after the code for an exception
  have hheld₁ : s₁.held = s.held + body.given := by
    rw [hb hwb hbody hin.valid (s.finInPad_excep fin)]
    change (s.mkLLVMBlocks 2).held + _ = _
    rw [held_mkLLVMBlocks]
  have hheld₂ : s₂.held = s.held + body.given + onexception.given := by
    rw [ho hwo hon hvalid₁ fun _ => List.cons_ne_nil _ _, ← hheld₁]
    change (((s₁.leave cur₁ _).mkLLVMBlocks 2).landAt _ _).held + _ = _
    rw [held_landAt, held_mkLLVMBlocks, held_leave]
  have hheld₃ : ((((s₂.leave bb (s.blocks.length + 1)).setPads []).setFinally none).landAt
      (s₁.blocks.length + 1) (s.blocks.length + 1)).held =
        s.held + body.given + onexception.given := by
    rw [held_landAt]
    change (s₂.leave bb _).held = _
    rw [held_leave, hheld₂]
  rw [BnodeTree.given_excep]
  cases hasFinally with
  | false =>
    cases hwalk
    have hnone : finally_.given = 0 := by
      rw [BnodeTree.given, List.isEmpty_iff.mp (habsent.resolve_left Bool.false_ne_true)]
      rfl
    rw [hheld₃, hnone, add_zero, add_assoc]
  | true =>
    rw [if_pos rfl] at hwalk
    obtain ⟨⟨cur₂, s₃⟩, hfinally, hwalk⟩ := Option.bind_eq_some_iff.mp hwalk
    rw [hrest₁, Rest.keep_append] at hrest₂
    have hret : ∀ re ri, ((⟨[s.blocks.length], fin, none⟩ : Rest).keep
        (body.returns ++ onexception.returns)).cached = some (re, ri) → re.isWhole := by
      intro re ri hkeep
      have hmem : (re, ri) ∈ body.returns ++ onexception.returns := by
        rw [Rest.keep, if_pos hisSome, Option.none_or] at hkeep
        exact List.mem_of_mem_head? hkeep
      rcases List.mem_append.mp hmem with hmem | hmem
      · exact BnodeTree.isWhole_of_mem_returns hwb hmem
      · exact BnodeTree.isWhole_of_mem_returns hwo hmem
    rw [finally_conserves hk hkc hff hf hwf hret hcatch.valid hrest₂ hfinally hwalk, hheld₃]
    abel

mutual
theorem conserves (hk : KeptFollows kept keptEvents) (hkc : KeptConserves kept) :
    ∀ n : BnodeTree, Conserves kept fn n
  | .expr kids value insts => conserves_expr value insts (allFollow hk kids)
    (allConserve hk hkc kids)
  | .exprStmt e => by
    intro s cur cur' s' hwhole hwalk hvalid hfin
    rw [BnodeTree.isWhole] at hwhole
    rw [walkWith] at hwalk
    exact conserves hk hkc e hwhole hwalk hvalid hfin
  | .block vars stmts => conserves_block vars (allConserve hk hkc stmts)
  | .ifStmt cond trueBlock falseBlock => conserves_if (follows hk cond) (follows hk trueBlock)
    (conserves hk hkc cond) (conserves hk hkc trueBlock) (conserves hk hkc falseBlock)
  | .switchStmt swvalue _ stmts => conserves_switch (follows hk swvalue)
    (conserves hk hkc swvalue) (casesConserve hk hkc stmts)
  | .gotoStmt label => conserves_goto label
  | .labelStmt label => conserves_label label
  | .returnStmt re ri => conserves_return ri (follows hk re) (conserves hk hkc re)
  | .deferStmt undefer defer => conserves_defer (follows hk undefer) (conserves hk hkc undefer)
    (conserves hk hkc defer)
  | .excepStmt body onexception hasFinally finally_ => conserves_excep hasFinally hk hkc
    (follows hk body) (follows hk onexception) (follows hk finally_) (conserves hk hkc body)
    (conserves hk hkc onexception) (conserves hk hkc finally_)
theorem allConserve (hk : KeptFollows kept keptEvents) (hkc : KeptConserves kept) :
    ∀ ns : List BnodeTree, AllConserve kept fn ns
  | [] => by
    intro s cur cur' s' _ hwalk _ _
    rw [walkAllWith] at hwalk
    cases hwalk
    exact (add_zero _).symm
  | n :: ns => allConserve_cons (follows hk n) (conserves hk hkc n) (allConserve hk hkc ns)
theorem casesConserve (hk : KeptFollows kept keptEvents) (hkc : KeptConserves kept) :
    ∀ stmts : List BnodeTree, CasesConserve kept fn stmts
  | [] => by
    intro s s' b epilog _ hwalk _ _ _ _
    rw [walkCasesWith] at hwalk
    cases hwalk
    exact (add_zero _).symm
  | st :: stmts => casesConserve_cons (follows hk st) (conserves hk hkc st)
    (casesConserve hk hkc stmts)
end

end Statements

/-! ## Functions -/

theorem walk_conserves (fn : Instructions) (n : BnodeTree) : Conserves (walkKept fn) fn n := by
  have hnone : KeptConserves fun _ _ _ => none := by
    intro re s cur cur' s' _ hwalk
    cases hwalk
  have hnoneFollows : KeptFollows (fun _ _ _ => none) fun _ _ => [] := by
    intro re s cur cur' s' hwalk
    cases hwalk
  have hkept : KeptConserves (walkKept fn) := by
    intro re s cur cur' s' hwhole hwalk hvalid hfin
    exact conserves hnoneFollows hnone re hwhole hwalk hvalid hfin
  exact conserves (kept_follows fn) hkept n

theorem held_new (debug : Bool) (prolog : List InstRef) :
    (new debug (prolog.map .inst)).held = prolog := by
  have hplaced : (new debug (prolog.map .inst)).placedInsts = prolog := by
    simp [placedInsts, new, List.filterMap_map, Function.comp_def, BlockInst.origin]
  unfold held
  rw [hplaced]
  change (prolog : Multiset InstRef) + 0 + 0 = _
  rw [add_zero, add_zero]

theorem held_finishFunction {f : Bfunction} {s s' : GenBlocks} (h : s.finishFunction f = some s') :
    s'.held = s.held := by
  unfold finishFunction at h
  simp only [Option.bind_eq_bind, Option.bind_eq_some_iff] at h
  obtain ⟨entry, -, params, -, h⟩ := h
  cases h
  split_ifs
  · exact held_processVars _ _
  · rfl

theorem cachedReturn_finishFunction {f : Bfunction} {s s' : GenBlocks}
    (h : s.finishFunction f = some s') : s'.cachedReturn = s.cachedReturn := by
  have hstrip := stripDebug_finishFunction f s
  rw [h] at hstrip
  unfold finishFunction at hstrip
  simp only [Option.bind_eq_bind, Option.bind_eq_some_iff, Option.map_some] at hstrip
  obtain ⟨entry, -, params, -, hstrip⟩ := hstrip
  exact (congrArg cachedReturn (Option.some.inj hstrip)).symm

theorem held_of_cachedReturn {s : GenBlocks} (h : s.cachedReturn = none) :
    s.held = (s.placedInsts ++ s.discarded : List InstRef) := by
  unfold held
  rw [h, ← Multiset.coe_add]
  exact add_zero _

/-- With debug metadata. -/
theorem functionSetBody_held {f : Bfunction} {fn : Instructions} {code : BnodeTree}
    {s : GenBlocks} (hwhole : code.isWhole) (hs : functionSetBody f fn code = some s) :
    s.held = f.genProlog + code.given ∧ s.cachedReturn = none := by
  unfold functionSetBody at hs
  simp only [Option.bind_eq_bind, Option.bind_eq_some_iff] at hs
  obtain ⟨⟨block, s₁⟩, hwalk, s₂, hfinish, hs⟩ := hs
  have hfin : (new true (f.genProlog.map .inst)).FinInPad := fun h => absurd h Bool.false_ne_true
  have hdoes := follows (kept_follows fn) code hwalk (valid_new _) hfin
  have hheld : s₂.held = f.genProlog + code.given := by
    rw [held_finishFunction hfinish, walk_conserves fn code hwhole hwalk (valid_new _) hfin,
      held_new]
  have hcached : s₂.cachedReturn = none := by
    rw [cachedReturn_finishFunction hfinish]
    exact congrArg Rest.cached hdoes.rest
  cases block with
  | none =>
    cases hs
    exact ⟨hheld, hcached⟩
  | some b =>
    cases hs
    unfold fixupEpilogBlock
    split_ifs
    · exact ⟨hheld, hcached⟩
    · exact ⟨(held_push rfl).trans hheld, hcached⟩

/-- Each instruction of the prolog and of the code is put into one block or deleted, as often as
it is there: none is lost, and none is put anywhere twice. -/
theorem setBody_conserves {debug : Bool} {f : Bfunction} {fn : Instructions} {code : BnodeTree}
    {s : GenBlocks} (hwhole : code.isWhole) (hs : setBody debug f fn code = some s) :
    (s.placedInsts ++ s.discarded).Perm (f.genProlog ++ code.ownInsts.flatten) := by
  have hoff := setBody_stripDebug debug f fn code
  rw [hs, setBody_stripDebug true f fn code, Option.map_some] at hoff
  obtain ⟨t, ht, hstrip⟩ := Option.map_eq_some_iff.mp hoff
  obtain ⟨hheld, hcached⟩ := functionSetBody_held hwhole ht
  rw [held_of_cachedReturn hcached] at hheld
  have hblocks : t.blocks = s.blocks := congrArg (fun s => s.blocks) hstrip
  have hdiscarded : t.discarded = s.discarded := congrArg (fun s => s.discarded) hstrip
  rw [placedInsts, hblocks, hdiscarded] at hheld
  exact Multiset.coe_eq_coe.mp hheld

/-- A call that may throw, and two returns to a finally part: the first one is kept, and the
instructions of the second one are deleted. -/
theorem setBody_conserves_finally :
    let f : Bfunction := ⟨[.direct 0 1 (.one none 2)], none, [3], []⟩
    let code : BnodeTree := .excepStmt
      (.block [] [.exprStmt (.expr [] none [4]), .ifStmt (.expr [] (some (.instruction 5)) [5])
        (.returnStmt (.expr [] none [6]) 7) (.returnStmt (.expr [] none [8]) 9)])
      (.exprStmt (.expr [] none [10])) true (.exprStmt (.expr [] none [11]))
    ∃ s, setBody true f ⟨fun _ => [], fun i => i == 4⟩ code = some s ∧
      (s.placedInsts ++ s.discarded).Perm ([1, 3, 2] ++ [4, 5, 6, 7, 8, 9, 10, 11]) := by
  intro f code
  obtain ⟨s, hs⟩ : ∃ s, setBody true f ⟨fun _ => [], fun i => i == 4⟩ code = some s := ⟨_, rfl⟩
  exact ⟨s, hs, setBody_conserves (by decide) hs⟩

end GenBlocks

end Dragongo
