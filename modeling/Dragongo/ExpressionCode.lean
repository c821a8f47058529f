import Dragongo.GenBlocks
import Dragongo.Library.Run

/-!
# The code of expressions

An expression may have conditionals inside it, but control does not leave it.  The blocks
that it is lowered to run the instructions of the tree in order, those of one arm of each
conditional, and control is at the end of an open block then.
-/

namespace Dragongo

namespace BnodeTree

mutual
/-- No transfer of control in the tree but those of conditionals. -/
def isCode : BnodeTree → Bool
  | expr kids _ _ => areCode kids
  | exprStmt e => isCode e
  | block _ stmts => areCode stmts
  | ifStmt cond trueBlock falseBlock =>
    cond.value.isSome && isCode cond && isCode trueBlock && isCode falseBlock
  | _ => false
def areCode : List BnodeTree → Bool
  | [] => true
  | n :: ns => isCode n && areCode ns
end

mutual
/-- The values that the conditionals depend on. -/
def tests : BnodeTree → List NodeValue
  | expr kids _ _ => testsAll kids
  | exprStmt e => tests e
  | block _ stmts => testsAll stmts
  | ifStmt cond trueBlock falseBlock =>
    tests cond ++ cond.value.toList ++ tests trueBlock ++ tests falseBlock
  | _ => []
def testsAll : List BnodeTree → List NodeValue
  | [] => []
  | n :: ns => tests n ++ testsAll ns
end

mutual
/-- The instructions that run, where `truth` says which conditions hold. -/
def execute (truth : NodeValue → Bool) : BnodeTree → List InstRef
  | expr kids _ insts => executeAll truth kids ++ insts
  | exprStmt e => execute truth e
  | block _ stmts => executeAll truth stmts
  | ifStmt cond trueBlock falseBlock =>
    execute truth cond ++
      if cond.value.any truth then execute truth trueBlock else execute truth falseBlock
  | _ => []
def executeAll (truth : NodeValue → Bool) : List BnodeTree → List InstRef
  | [] => []
  | n :: ns => execute truth n ++ executeAll truth ns
end

end BnodeTree

namespace GenBlocks

/-- Where control is: in a block, after that many of its instructions. -/
abbrev Position := BlockRef × ℕ

/-- The next instruction runs, or control goes to the start of a block.  No call throws. -/
def next (blocks : List (List BlockInst)) (truth : NodeValue → Bool) (p : Position) :
    Option (List InstRef × Position) := do
  let insts ← blocks[(p.1 : ℕ)]?
  match insts[p.2]? with
  | some (.inst i) => some ([i], p.1, p.2 + 1)
  | some (.invoke call cont _) => some ([call], cont, 0)
  | some (.br target) => some ([], target, 0)
  | some (.condBr cond t f) => some ([], if truth cond then t else f, 0)
  | _ => none

/-- Blocks have been added, and added to. -/
def Extends (bs bs' : List (List BlockInst)) : Prop :=
  ∀ (b : ℕ) (is : List BlockInst), bs[b]? = some is → ∃ is', bs'[b]? = some is' ∧ is <+: is'

theorem Extends.refl (bs : List (List BlockInst)) : Extends bs bs :=
  fun _ is h => ⟨is, h, is.prefix_refl⟩

theorem Extends.trans {bs bs' bs'' : List (List BlockInst)} (h : Extends bs bs')
    (h' : Extends bs' bs'') : Extends bs bs'' := by
  intro b is his
  obtain ⟨is', his', hp⟩ := h b is his
  obtain ⟨is'', his'', hp'⟩ := h' b is' his'
  exact ⟨is'', his'', hp.trans hp'⟩

/-- An instruction that is in a block stays at its place. -/
theorem next_of_extends {bs bs' : List (List BlockInst)} {b : ℕ} {is : List BlockInst}
    {i : BlockInst} (h : Extends bs bs') (hb : bs[b]? = some (is ++ [i])) :
    ∃ is', bs'[b]? = some is' ∧ is'[is.length]? = some i := by
  obtain ⟨is', his', ⟨more, rfl⟩⟩ := h b _ hb
  refine ⟨_, his', ?_⟩
  simp

/-! ## Adding to blocks -/

section Blocks

variable (s : GenBlocks) {b c : BlockRef} {i : BlockInst} {is : List BlockInst}

theorem push_self (h : s.blocks[(b : ℕ)]? = some is) :
    (s.push b i).blocks[(b : ℕ)]? = some (is ++ [i]) := by
  rw [push, List.getElem?_modify_eq, h]
  rfl

theorem push_ne (h : c ≠ b) : (s.push b i).blocks[(c : ℕ)]? = s.blocks[(c : ℕ)]? :=
  List.getElem?_modify_ne _ _ (Ne.symm h)

theorem length_push : (s.push b i).blocks.length = s.blocks.length := List.length_modify ..

theorem push_extends (b : BlockRef) (i : BlockInst) : Extends s.blocks (s.push b i).blocks := by
  intro c is his
  by_cases hc : c = b
  · subst hc
    exact ⟨_, s.push_self his, List.prefix_append ..⟩
  · exact ⟨is, (s.push_ne hc).trans his, is.prefix_refl⟩

theorem mkLLVMBlocks_blocks (n : ℕ) :
    (s.mkLLVMBlocks n).blocks = s.blocks ++ List.replicate n [] := by
  induction n generalizing s with
  | zero => exact (List.append_nil _).symm
  | succ n ih =>
    refine (ih s.mkLLVMBlock.2).trans ?_
    rw [mkLLVMBlock, List.append_assoc, List.replicate_succ]
    rfl

theorem getTerminator_of_last (h : s.blocks[(b : ℕ)]? = some (is ++ [i])) :
    s.getTerminator b = i.isTerminator := by
  simp [getTerminator, h]

theorem getTerminator_of_nil (h : s.blocks[(b : ℕ)]? = some []) : s.getTerminator b = false := by
  simp [getTerminator, h]

end Blocks

/-! ## Lowered code -/

/-- Between two states of the lowering, control goes from the end of block `b` to the end of
block `b'`, with these instructions run on the way. -/
structure Lowers (truth : NodeValue → Bool) (s : GenBlocks) (b : BlockRef) (out : List InstRef)
    (s' : GenBlocks) (b' : BlockRef) : Prop where
  length : s.blocks.length ≤ s'.blocks.length
  kept : ∀ c : ℕ, c < s.blocks.length → c ≠ b → s'.blocks[c]? = s.blocks[c]?
  current : b' = b ∨ s.blocks.length ≤ b'
  isOpen : s'.getTerminator b' = false
  extended : Extends s.blocks s'.blocks
  runs : ∃ is is', s.blocks[(b : ℕ)]? = some is ∧ s'.blocks[(b' : ℕ)]? = some is' ∧
    ∀ bs, Extends s'.blocks bs → Runs (next bs truth) (b, is.length) out (b', is'.length)

section Lowers

variable {truth : NodeValue → Bool} {s s' s'' : GenBlocks} {b b' b'' : BlockRef}
  {out out' : List InstRef}

theorem Lowers.refl {is : List BlockInst} (h : s.blocks[(b : ℕ)]? = some is)
    (hopen : s.getTerminator b = false) : Lowers truth s b [] s b where
  length := Nat.le_refl _
  kept := fun _ _ _ => rfl
  current := Or.inl rfl
  isOpen := hopen
  extended := .refl _
  runs := ⟨is, is, h, h, fun _ _ => .refl _⟩

theorem Lowers.trans (h : Lowers truth s b out s' b') (h' : Lowers truth s' b' out' s'' b'') :
    Lowers truth s b (out ++ out') s'' b'' where
  length := Nat.le_trans h.length h'.length
  kept := by
    intro c hc hne
    have hne' : c ≠ b' := by
      rcases h.current with rfl | hle
      · exact hne
      · exact Nat.ne_of_lt (Nat.lt_of_lt_of_le hc hle)
    rw [h'.kept c (Nat.lt_of_lt_of_le hc h.length) hne', h.kept c hc hne]
  current := by
    rcases h'.current with rfl | hle
    · exact h.current
    · exact Or.inr (Nat.le_trans h.length hle)
  isOpen := h'.isOpen
  extended := h.extended.trans h'.extended
  runs := by
    obtain ⟨is, is₁, his, his₁, hrun⟩ := h.runs
    obtain ⟨is₁', is', his₁', his', hrun'⟩ := h'.runs
    cases his₁.symm.trans his₁'
    exact ⟨is, is', his, his', fun bs hbs => (hrun bs (h'.extended.trans hbs)).trans (hrun' bs hbs)⟩

/-- An instruction at the end of the block. -/
theorem lowers_push (i : InstRef) {is : List BlockInst} (h : s.blocks[(b : ℕ)]? = some is) :
    Lowers truth s b [i] (s.push b (.inst i)) b where
  length := Nat.le_of_eq s.length_push.symm
  kept := fun _ _ hne => s.push_ne hne
  current := Or.inl rfl
  isOpen := getTerminator_of_last _ (s.push_self h)
  extended := s.push_extends b _
  runs := by
    refine ⟨is, is ++ [.inst i], h, s.push_self h, fun bs hbs => ?_⟩
    obtain ⟨is', his', hi⟩ := next_of_extends hbs (s.push_self h)
    refine Runs.single ?_
    simp [next, his', hi]

/-- The blocks change only in what has been noted besides them. -/
theorem Lowers.of_blocks_eq (h : Lowers truth s b out s' b') (heq : s''.blocks = s'.blocks) :
    Lowers truth s b out s'' b' where
  length := heq ▸ h.length
  kept := heq ▸ h.kept
  current := h.current
  isOpen := by
    have hopen := h.isOpen
    unfold getTerminator at hopen ⊢
    rwa [heq]
  extended := heq ▸ h.extended
  runs := heq ▸ h.runs

theorem Lowers.open_end (h : Lowers truth s b out s' b') :
    ∃ is, s'.blocks[(b' : ℕ)]? = some is ∧ s'.getTerminator b' = false := by
  obtain ⟨is, is', -, his', -⟩ := h.runs
  exact ⟨is', his', h.isOpen⟩

end Lowers

/-! ## Instructions -/

section Insts

variable {s s' : GenBlocks} {b : BlockRef} {is : List BlockInst}

/-- A value that no walk from an open block deletes: it is no call that an invoke may replace. -/
structure Lasts (fn : Instructions) (s : GenBlocks) (v : NodeValue) : Prop where
  kept : s.deleted v = false
  noCall : ∀ i, v = .instruction i → ¬fn.mayThrow i

theorem Lasts.congr {fn : Instructions} {v : NodeValue} (h : Lasts fn s v)
    (hdiscarded : s'.discarded = s.discarded) (hrewritten : s'.rewritten = s.rewritten) :
    Lasts fn s' v := by
  refine ⟨?_, h.noCall⟩
  rw [← h.kept]
  unfold deleted
  rw [hdiscarded, hrewritten]

theorem Lasts.valueOf {fn : Instructions} {v : NodeValue} {e : BnodeTree} (h : Lasts fn s v)
    (hv : e.value = some v) : s.valueOf e = some v := by
  rw [GenBlocks.valueOf, hv, Option.filter_some, h.kept]
  rfl

theorem Lasts.rewriteToMayThrowCall {fn : Instructions} {v : NodeValue} {i : InstRef}
    (h : Lasts fn s v) (hcall : fn.mayThrow i) (b pad : BlockRef) :
    Lasts fn (s.rewriteToMayThrowCall i b pad).2 v := by
  refine ⟨?_, h.noCall⟩
  have hkept := h.kept
  cases v with
  | other v => rfl
  | instruction j =>
    have hne : j ≠ i := fun heq => h.noCall j rfl (heq ▸ hcall)
    have hrewritten : (s.rewriteToMayThrowCall i b pad).2.rewritten = i :: s.rewritten := rfl
    have hdiscarded : (s.rewriteToMayThrowCall i b pad).2.discarded = s.discarded := rfl
    unfold deleted at hkept ⊢
    rw [hrewritten, hdiscarded, decide_eq_false_iff_not, List.mem_cons]
    rw [decide_eq_false_iff_not] at hkept
    exact fun hj => hkept (hj.imp_right fun hj => hj.resolve_left hne)

/-- A call with a landing pad goes on in a new block. -/
theorem rewriteToMayThrowCall_lowers (truth : NodeValue → Bool) (call : InstRef) (pad : BlockRef)
    (h : s.blocks[(b : ℕ)]? = some is) :
    Lowers truth s b [call] (s.rewriteToMayThrowCall call b pad).2 s.blocks.length := by
  have hb : (b : ℕ) < s.blocks.length := (List.getElem?_eq_some_iff.mp h).1
  have hold : ∀ c : ℕ, c < s.blocks.length → s.mkLLVMBlock.2.blocks[c]? = s.blocks[c]? :=
    fun c hc => List.getElem?_append_left hc
  have hself := s.mkLLVMBlock.2.push_self (i := .invoke call s.blocks.length pad)
    ((hold b hb).trans h)
  have hne : s.blocks.length ≠ b := Nat.ne_of_gt hb
  have hcont : (s.rewriteToMayThrowCall call b pad).2.blocks[s.blocks.length]? = some [] :=
    (s.mkLLVMBlock.2.push_ne hne).trans List.getElem?_concat_length
  refine ⟨?_, ?_, Or.inr (Nat.le_refl _), getTerminator_of_nil _ hcont, ?_, ?_⟩
  · refine Nat.le_trans ?_ (Nat.le_of_eq s.mkLLVMBlock.2.length_push.symm)
    simp [mkLLVMBlock]
  · exact fun c hc hcb => (s.mkLLVMBlock.2.push_ne hcb).trans (hold c hc)
  · refine Extends.trans ?_ (s.mkLLVMBlock.2.push_extends b _)
    exact fun c is hc => ⟨is, (hold c (List.getElem?_eq_some_iff.mp hc).1).trans hc, is.prefix_refl⟩
  · refine ⟨is, [], h, hcont, fun bs hbs => ?_⟩
    obtain ⟨is', his', hi⟩ := next_of_extends hbs hself
    refine Runs.single ?_
    simp [next, his', hi]

theorem addInst_lowers (fn : Instructions) (i : InstRef) (h : s.blocks[(b : ℕ)]? = some is) :
    ∃ s' b', s.addInst fn (some b) i = some (some b', s') ∧
      (∀ v, Lasts fn s v → Lasts fn s' v) ∧ ∀ truth, Lowers truth s b [i] s' b' := by
  unfold addInst
  cases hpads : s.padBlockStack with
  | nil => exact ⟨_, b, rfl, fun _ hv => hv.congr rfl rfl, fun _ => lowers_push i h⟩
  | cons pad pads =>
    by_cases hthrow : fn.mayThrow i
    · exact ⟨_, _, if_pos hthrow, fun _ hv => hv.rewriteToMayThrowCall hthrow b pad,
        fun truth => rewriteToMayThrowCall_lowers truth i pad h⟩
    · exact ⟨_, b, if_neg hthrow, fun _ hv => hv.congr rfl rfl, fun _ => lowers_push i h⟩

theorem addInsts_lowers (fn : Instructions) (insts : List InstRef)
    (h : s.blocks[(b : ℕ)]? = some is) (hopen : s.getTerminator b = false) :
    ∃ s' b', s.addInsts fn (some b) insts = some (some b', s') ∧
      (∀ v, Lasts fn s v → Lasts fn s' v) ∧ ∀ truth, Lowers truth s b insts s' b' := by
  induction insts generalizing s b is with
  | nil => exact ⟨s, b, rfl, fun _ hv => hv, fun _ => .refl h hopen⟩
  | cons i insts ih =>
    obtain ⟨s₁, b₁, hstep, hlast, hlow⟩ := addInst_lowers fn i h
    obtain ⟨is₁, his₁, hopen₁⟩ := (hlow fun _ => true).open_end
    obtain ⟨s', b', hrest, hlast', hlow'⟩ := ih his₁ hopen₁
    refine ⟨s', b', ?_, fun v hv => hlast' v (hlast v hv),
      fun truth => (hlow truth).trans (hlow' truth)⟩
    rw [addInsts, hstep]
    exact hrest

end Insts

/-! ## Conditionals -/

section Conditional

variable {truth : NodeValue → Bool} {s s₃ s₅ : GenBlocks} {b tsucc fsucc : BlockRef}
  {is : List BlockInst} {cval : NodeValue} {outT outF : List InstRef}

/-- The three blocks of a conditional, and the branch to the first or the last of them. -/
def openIf (s : GenBlocks) (b : BlockRef) (cval : NodeValue) : GenBlocks :=
  (s.mkLLVMBlocks 3).push b (.condBr cval s.blocks.length (s.blocks.length + 2))

theorem openIf_length : (s.openIf b cval).blocks.length = s.blocks.length + 3 := by
  rw [openIf, length_push, mkLLVMBlocks_blocks, List.length_append, List.length_replicate]

theorem openIf_old {c : ℕ} (hc : c < s.blocks.length) (hne : c ≠ b) :
    (s.openIf b cval).blocks[c]? = s.blocks[c]? := by
  rw [openIf, push_ne _ hne, mkLLVMBlocks_blocks, List.getElem?_append_left hc]

theorem openIf_new {k : ℕ} (hk : k < 3) (hb : (b : ℕ) < s.blocks.length) :
    (s.openIf b cval).blocks[s.blocks.length + k]? = some [] := by
  have hne : s.blocks.length + k ≠ b := by
    apply Nat.ne_of_gt
    exact Nat.lt_of_lt_of_le hb (Nat.le_add_right _ _)
  rw [openIf, push_ne _ hne, mkLLVMBlocks_blocks, List.getElem?_append_right (Nat.le_add_right _ _),
    Nat.add_sub_cancel_left, List.getElem?_replicate_of_lt hk]

theorem openIf_self (h : s.blocks[(b : ℕ)]? = some is) : (s.openIf b cval).blocks[(b : ℕ)]? =
    some (is ++ [.condBr cval s.blocks.length (s.blocks.length + 2)]) := by
  refine push_self _ ?_
  rw [mkLLVMBlocks_blocks, List.getElem?_append_left (List.getElem?_eq_some_iff.mp h).1, h]

theorem openIf_extends : Extends s.blocks (s.openIf b cval).blocks := by
  refine Extends.trans (fun c is hc => ⟨is, ?_, is.prefix_refl⟩) (push_extends _ b _)
  rw [mkLLVMBlocks_blocks, List.getElem?_append_left (List.getElem?_eq_some_iff.mp hc).1, hc]

theorem branchTo_of_open {target : BlockRef} (h : s.getTerminator b = false) :
    s.branchTo (some b) target = s.push b (.br target) := if_neg (by simp [h])

/-- A branch at the end of the block where lowered code ends. -/
theorem Lowers.runs_branch {b₀ : BlockRef} {out : List InstRef} {s₀ : GenBlocks}
    {target : BlockRef} (h : Lowers truth s₀ b₀ out s b) (h₀ : s₀.blocks[(b₀ : ℕ)]? = some [])
    {bs : List (List BlockInst)} (hbs : Extends (s.push b (.br target)).blocks bs) :
    Runs (next bs truth) (b₀, 0) out (target, 0) := by
  obtain ⟨is₀, is, his₀, his, hrun⟩ := h.runs
  cases h₀.symm.trans his₀
  obtain ⟨is', his', hi⟩ := next_of_extends hbs (s.push_self his)
  have hbr : Runs (next bs truth) (b, is.length) [] (target, 0) := by
    refine Runs.single ?_
    simp [next, his', hi]
  rw [← List.append_nil out]
  exact (hrun bs ((s.push_extends b _).trans hbs)).trans hbr

/-- The arms of a conditional join in the block between them. -/
theorem lowers_if (h : s.blocks[(b : ℕ)]? = some is)
    (hT : Lowers truth (s.openIf b cval) s.blocks.length outT s₃ tsucc)
    (hF : Lowers truth (s₃.push tsucc (.br (s.blocks.length + 1))) (s.blocks.length + 2) outF
      s₅ fsucc) :
    Lowers truth s b (if truth cval then outT else outF)
      (s₅.push fsucc (.br (s.blocks.length + 1))) (s.blocks.length + 1) := by
  have hb : (b : ℕ) < s.blocks.length := (List.getElem?_eq_some_iff.mp h).1
  have hlen₃ : s.blocks.length + 3 ≤ s₃.blocks.length := openIf_length ▸ hT.length
  have hlen₄ := s₃.length_push (b := tsucc) (i := .br (s.blocks.length + 1))
  have hlen₅ := hF.length
  have ht : tsucc = s.blocks.length ∨ s.blocks.length + 3 ≤ tsucc := openIf_length ▸ hT.current
  have hf : fsucc = s.blocks.length + 2 ∨ s₃.blocks.length ≤ fsucc := hlen₄ ▸ hF.current
  -- what both arms leave as it was
  have hkept : ∀ c : ℕ, c < s.blocks.length + 3 → c ≠ s.blocks.length →
      c ≠ s.blocks.length + 2 →
      (s₅.push fsucc (.br (s.blocks.length + 1))).blocks[c]? = (s.openIf b cval).blocks[c]? := by
    intro c hc hct hcf
    have hc₃ : c < s₃.blocks.length := Nat.lt_of_lt_of_le hc hlen₃
    have hnt : c ≠ tsucc := by
      rcases ht with rfl | hle
      · exact hct
      · exact Nat.ne_of_lt (Nat.lt_of_lt_of_le hc hle)
    have hnf : c ≠ fsucc := by
      rcases hf with rfl | hle
      · exact hcf
      · exact Nat.ne_of_lt (Nat.lt_of_lt_of_le hc₃ hle)
    rw [push_ne _ hnf, hF.kept c (hlen₄ ▸ hc₃) hcf, push_ne _ hnt,
      hT.kept c (openIf_length ▸ hc) hct]
  have hjoin : (s₅.push fsucc (.br (s.blocks.length + 1))).blocks[s.blocks.length + 1]? =
      some [] := by
    rw [hkept _ (by omega) (by omega) (by omega), openIf_new (by decide) hb]
  have hext : Extends (s.openIf b cval).blocks
      (s₅.push fsucc (.br (s.blocks.length + 1))).blocks :=
    ((hT.extended.trans (s₃.push_extends _ _)).trans hF.extended).trans (s₅.push_extends _ _)
  refine ⟨?_, ?_, Or.inr (Nat.le_succ _), getTerminator_of_nil _ hjoin,
    openIf_extends.trans hext, is, [], h, hjoin, fun bs hbs => ?_⟩
  · rw [length_push]
    omega
  · intro c hc hne
    rw [hkept c (by omega) (by omega) (by omega), openIf_old hc hne]
  · obtain ⟨is', his', hi⟩ := next_of_extends (hext.trans hbs) (openIf_self h)
    have hbranch : Runs (next bs truth) (b, is.length) []
        (if truth cval then s.blocks.length else s.blocks.length + 2, 0) := by
      refine Runs.single ?_
      simp [next, his', hi]
    have hmid : Extends (s₃.push tsucc (.br (s.blocks.length + 1))).blocks bs :=
      (hF.extended.trans (s₅.push_extends _ _)).trans hbs
    by_cases hc : truth cval
    · rw [if_pos hc] at hbranch ⊢
      have hrun := hT.runs_branch (openIf_new (k := 0) (by decide) hb) hmid
      simpa using hbranch.trans hrun
    · rw [if_neg hc] at hbranch ⊢
      have hne : s.blocks.length + 2 ≠ tsucc := by
        rcases ht with rfl | hle
        · omega
        · omega
      have hopen : (s₃.push tsucc (.br (s.blocks.length + 1))).blocks[s.blocks.length + 2]? =
          some [] := by
        rw [push_ne _ hne, hT.kept _ (by rw [openIf_length]; omega) (by omega),
          openIf_new (by decide) hb]
      simpa using hbranch.trans (hF.runs_branch hopen hbs)

end Conditional

/-! ## The walk -/

section Walk

variable (kept : Walk) (fn : Instructions)

/-- The walk of `n` from an open block ends in an open block if the values that its conditionals
depend on last, and in between the code that it has put into the blocks runs the instructions of
`n`. -/
def Lowered (n : BnodeTree) : Prop :=
  ∀ ⦃s : GenBlocks⦄ ⦃b : BlockRef⦄ ⦃is : List BlockInst⦄, s.blocks[(b : ℕ)]? = some is →
    s.getTerminator b = false → (∀ v ∈ n.tests, Lasts fn s v) →
      ∃ s' b', walkWith kept fn s (some b) n = some (some b', s') ∧
        (∀ v, Lasts fn s v → Lasts fn s' v) ∧ ∀ truth, Lowers truth s b (n.execute truth) s' b'

def AllLowered (ns : List BnodeTree) : Prop :=
  ∀ ⦃s : GenBlocks⦄ ⦃b : BlockRef⦄ ⦃is : List BlockInst⦄, s.blocks[(b : ℕ)]? = some is →
    s.getTerminator b = false → (∀ v ∈ BnodeTree.testsAll ns, Lasts fn s v) →
      ∃ s' b', walkAllWith kept fn s (some b) ns = some (some b', s') ∧
        (∀ v, Lasts fn s v → Lasts fn s' v) ∧
        ∀ truth, Lowers truth s b (BnodeTree.executeAll truth ns) s' b'

variable {kept fn}

theorem lowered_expr {kids : List BnodeTree} (value : Option NodeValue) (insts : List InstRef)
    (h : AllLowered kept fn kids) : Lowered kept fn (.expr kids value insts) := by
  intro s b is his hopen htests
  rw [BnodeTree.tests] at htests
  obtain ⟨s₁, b₁, hkids, hlast, hlow⟩ := h his hopen htests
  obtain ⟨is₁, his₁, hopen₁⟩ := (hlow fun _ => true).open_end
  obtain ⟨s', b', hinsts, hlast', hlow'⟩ := addInsts_lowers fn insts his₁ hopen₁
  refine ⟨s', b', ?_, fun v hv => hlast' v (hlast v hv),
    fun truth => (hlow truth).trans (hlow' truth)⟩
  rw [walkWith, hkids]
  exact hinsts

theorem processVars_kept (s : GenBlocks) (vars : List Bvariable) :
    (s.processVars vars).blocks = s.blocks ∧ (s.processVars vars).discarded = s.discarded ∧
      (s.processVars vars).rewritten = s.rewritten := by
  induction vars generalizing s with
  | nil => exact ⟨rfl, rfl, rfl⟩
  | cons v vars ih =>
    unfold processVars
    split_ifs
    · exact ih s
    · obtain ⟨hblocks, hdiscarded, hrewritten⟩ :=
        ih (insertVarDecl { s with declared := v :: s.declared } v)
      rw [hblocks, hdiscarded, hrewritten]
      unfold insertVarDecl
      cases v.initializer <;> exact ⟨rfl, rfl, rfl⟩

/-- The end of a block changes nothing that a walk depends on. -/
theorem endLexicalBlock_kept (s : GenBlocks) (vars : List Bvariable) :
    (s.endLexicalBlock vars).blocks = s.blocks ∧
      (s.endLexicalBlock vars).discarded = s.discarded ∧
        (s.endLexicalBlock vars).rewritten = s.rewritten := by
  unfold endLexicalBlock
  split_ifs
  · exact processVars_kept s vars
  · exact ⟨rfl, rfl, rfl⟩

theorem endLexicalBlock_blocks (s : GenBlocks) (vars : List Bvariable) :
    (s.endLexicalBlock vars).blocks = s.blocks := (endLexicalBlock_kept s vars).1

theorem lowered_block (vars : List Bvariable) {stmts : List BnodeTree}
    (h : AllLowered kept fn stmts) : Lowered kept fn (.block vars stmts) := by
  intro s b is his hopen htests
  rw [BnodeTree.tests] at htests
  obtain ⟨s', b', hstmts, hlast, hlow⟩ := h his hopen htests
  obtain ⟨hblocks, hdiscarded, hrewritten⟩ := endLexicalBlock_kept s' vars
  refine ⟨s'.endLexicalBlock vars, b', ?_, fun v hv => (hlast v hv).congr hdiscarded hrewritten,
    fun truth => ?_⟩
  · rw [walkWith, hstmts]
    rfl
  · exact (hlow truth).of_blocks_eq hblocks

theorem Lasts.openIf {s : GenBlocks} {v cval : NodeValue} {b : BlockRef} (h : Lasts fn s v) :
    Lasts fn (s.openIf b cval) v := h.congr rfl rfl

theorem Lasts.push {s : GenBlocks} {v : NodeValue} {b : BlockRef} {i : BlockInst}
    (h : Lasts fn s v) : Lasts fn (s.push b i) v := h.congr rfl rfl

theorem lowered_if {cond trueBlock falseBlock : BnodeTree} {cval : NodeValue}
    (hcval : cond.value = some cval) (hc : Lowered kept fn cond)
    (ht : Lowered kept fn trueBlock) (hf : Lowered kept fn falseBlock) :
    Lowered kept fn (.ifStmt cond trueBlock falseBlock) := by
  intro s b is his hopen htests
  simp only [BnodeTree.tests, hcval, Option.toList_some, List.mem_append, List.mem_singleton,
    or_assoc] at htests
  obtain ⟨s₁, b₁, hcond, hlast, hlow⟩ := hc his hopen fun v hv => htests v (.inl hv)
  obtain ⟨is₁, his₁, -⟩ := (hlow fun _ => true).open_end
  have hb₁ : (b₁ : ℕ) < s₁.blocks.length := (List.getElem?_eq_some_iff.mp his₁).1
  have hvalue := (hlast cval (htests cval (.inr (.inl rfl)))).valueOf hcval
  have htb : (s₁.openIf b₁ cval).blocks[s₁.blocks.length]? = some [] :=
    openIf_new (k := 0) (by decide) hb₁
  obtain ⟨s₃, tsucc, htrue, hlastT, hlowT⟩ := ht htb (getTerminator_of_nil _ htb) fun v hv =>
    (hlast v (htests v (.inr (.inr (.inl hv))))).openIf
  obtain ⟨is₃, his₃, hopen₃⟩ := (hlowT fun _ => true).open_end
  -- the block of the other arm has not been touched
  have hfb : (s₃.push tsucc (.br (s₁.blocks.length + 1))).blocks[s₁.blocks.length + 2]? =
      some [] := by
    have hcur := (hlowT fun _ => true).current
    have hkept := (hlowT fun _ => true).kept (s₁.blocks.length + 2)
    rw [openIf_length] at hcur hkept
    have hne : s₁.blocks.length + 2 ≠ tsucc := by
      rcases hcur with rfl | hle
      · omega
      · exact Nat.ne_of_lt hle
    rw [push_ne _ hne, hkept (by omega) (by omega)]
    exact openIf_new (by decide) hb₁
  obtain ⟨s₅, fsucc, hfalse, hlastF, hlowF⟩ := hf hfb (getTerminator_of_nil _ hfb) fun v hv =>
    (hlastT v (hlast v (htests v (.inr (.inr (.inr hv))))).openIf).push
  obtain ⟨is₅, his₅, hopen₅⟩ := (hlowF fun _ => true).open_end
  refine ⟨s₅.push fsucc (.br (s₁.blocks.length + 1)), s₁.blocks.length + 1, ?_,
    fun v hv => (hlastF v (hlastT v (hlast v hv).openIf).push).push, fun truth => ?_⟩
  · simp only [walkWith, hcond, hvalue, Option.bind_eq_bind, Option.bind_some]
    rw [← openIf, htrue, Option.bind_some, branchTo_of_open hopen₃, hfalse, Option.bind_some,
      branchTo_of_open hopen₅]
  · have hif := lowers_if his₁ (hlowT truth) (hlowF truth)
    rw [BnodeTree.execute, hcval]
    refine (hlow truth).trans ?_
    simpa using hif

mutual
theorem lowered_of_isCode : ∀ n : BnodeTree, n.isCode → Lowered kept fn n
  | .expr kids value insts, h => by
    rw [BnodeTree.isCode] at h
    exact lowered_expr value insts (allLowered_of_areCode kids h)
  | .exprStmt e, h => by
    rw [BnodeTree.isCode] at h
    intro s b is his hopen htests
    rw [BnodeTree.tests] at htests
    simp only [walkWith, BnodeTree.execute]
    exact lowered_of_isCode e h his hopen htests
  | .block vars stmts, h => by
    rw [BnodeTree.isCode] at h
    exact lowered_block vars (allLowered_of_areCode stmts h)
  | .ifStmt cond trueBlock falseBlock, h => by
    simp only [BnodeTree.isCode, Bool.and_eq_true] at h
    obtain ⟨⟨⟨hval, hc⟩, ht⟩, hf⟩ := h
    obtain ⟨cval, hcval⟩ := Option.isSome_iff_exists.mp hval
    exact lowered_if hcval (lowered_of_isCode cond hc) (lowered_of_isCode trueBlock ht)
      (lowered_of_isCode falseBlock hf)
theorem allLowered_of_areCode : ∀ ns : List BnodeTree, BnodeTree.areCode ns → AllLowered kept fn ns
  | [], _ => fun s b _ his hopen _ =>
    ⟨s, b, by rw [walkAllWith], fun _ hv => hv, fun _ => .refl his hopen⟩
  | n :: ns, h => by
    rw [BnodeTree.areCode, Bool.and_eq_true] at h
    intro s b is his hopen htests
    simp only [BnodeTree.testsAll, List.mem_append] at htests
    obtain ⟨s₁, b₁, hstep, hlast, hlow⟩ := lowered_of_isCode n h.1 his hopen fun v hv =>
      htests v (.inl hv)
    obtain ⟨is₁, his₁, hopen₁⟩ := (hlow fun _ => true).open_end
    obtain ⟨s', b', hrest, hlast', hlow'⟩ := allLowered_of_areCode ns h.2 his₁ hopen₁ fun v hv =>
      hlast v (htests v (.inr hv))
    refine ⟨s', b', ?_, fun v hv => hlast' v (hlast v hv), fun truth => ?_⟩
    · rw [walkAllWith, hstep]
      exact hrest
    · rw [BnodeTree.executeAll]
      exact (hlow truth).trans (hlow' truth)
end

end Walk

end GenBlocks
end Dragongo
