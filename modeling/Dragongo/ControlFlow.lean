import Dragongo.WalkFrames

/-!
# The blocks of a function do what its statements mean

Where a statement means that control leaves it in some way, the blocks that it is lowered to
take control there: to the end of the block where the walk of the statement has ended, to the
block of a label, to a landing pad, or out of the function.
-/

namespace Dragongo

open Simulation

namespace GenBlocks

/-- The blocks of a function when they are complete, the one of each label, and the one where
each defer statement begins. -/
structure Target where
  blocks : List (List BlockInst)
  label : LabelId → BlockRef
  retry : ℕ → BlockRef

/-- What the walk has made so far is in the complete function. -/
structure Completes (s : GenBlocks) (t : Target) : Prop where
  blocks : Extends s.blocks t.blocks
  labels : ∀ ⦃l : LabelId⦄ ⦃b : BlockRef⦄, s.labelmap l = some b → t.label l = b

/-- The defer statements with these numbers begin in these blocks. -/
def Target.Agrees (t : Target) (r : ℕ → BlockRef) (lo hi : ℕ) : Prop :=
  ∀ d, lo ≤ d → d < hi → t.retry d = r d

theorem Target.Agrees.of_ite {t : Target} {r r' : ℕ → BlockRef} {lo mid hi : ℕ}
    (h : t.Agrees (fun d => if d < mid then r d else r' d) lo hi) (hlo : lo ≤ mid)
    (hhi : mid ≤ hi) : t.Agrees r lo mid ∧ t.Agrees r' mid hi := by
  refine ⟨fun d hd hdm => ?_, fun d hd hdh => ?_⟩
  · exact (h d hd (Nat.lt_of_lt_of_le hdm hhi)).trans (if_pos hdm)
  · exact (h d (Nat.le_trans hlo hd) hdh).trans (if_neg (Nat.not_lt_of_le hd))

/-- Where control comes into a statement that is walked from `cur` on. -/
def Target.At (t : Target) (s : GenBlocks) (cur : Option BlockRef) (p : BlockRef × ℕ) :
    EntryPoint → Prop
  | .start => ∃ is, cur = some p.1 ∧ s.blocks[p.1]? = some is ∧ p.2 = is.length
  | .label l => p = (t.label l, 0)
  | .retry d => p = (t.retry d, 0)

variable {fn : Instructions} {σ : Type}

/-- An exception goes to the innermost landing pad. -/
def unwind (st : σ) : List BlockRef → Meaning.Point σ ⊕ Exit σ
  | [] => .inr (.unwound st)
  | pad :: _ => .inl (pad, 0, st)

/-- The complete function takes control where a statement with this outcome is left. -/
def Lands (t : Target) (M : Meaning fn σ) (pads : List BlockRef) (fin : Option BlockRef)
    (s' : GenBlocks) (cur' : Option BlockRef) (p : Meaning.Point σ) : Outcome σ → Prop
  | .done st => ∃ b is, cur' = some b ∧ s'.blocks[b]? = some is ∧
    Reaches (M.blockStep t.blocks) p (.inl (b, is.length, st))
  | .goto l st => Advances (M.blockStep t.blocks) p (.inl (t.label l, 0, st))
  | .retry d st => Advances (M.blockStep t.blocks) p (.inl (t.retry d, 0, st))
  | .leave st => ∃ b, fin = some b ∧ Advances (M.blockStep t.blocks) p (.inl (b, 0, st))
  | .ret st => Advances (M.blockStep t.blocks) p (.inr (.returned st))
  | .threw st => Advances (M.blockStep t.blocks) p (unwind st pads)

section Lands

variable {t : Target} {M : Meaning fn σ} {pads : List BlockRef} {fin : Option BlockRef}
  {s s₁ s' : GenBlocks} {cur cur₁ cur' : Option BlockRef} {p q : Meaning.Point σ} {b : BlockRef}
  {is : List BlockInst} {bi : BlockInst}

theorem Lands.of_reaches {o : Outcome σ} (h : Reaches (M.blockStep t.blocks) p (.inl q))
    (h' : Lands t M pads fin s' cur' q o) : Lands t M pads fin s' cur' p o := by
  cases o with
  | done st =>
    obtain ⟨b, is, hcur, his, hrest⟩ := h'
    exact ⟨b, is, hcur, his, h.trans hrest⟩
  | leave st =>
    obtain ⟨b, hfin, hrest⟩ := h'
    exact ⟨b, hfin, h.advances hrest⟩
  | goto l st =>
    rw [Lands] at h' ⊢
    exact h.advances h'
  | retry d st =>
    rw [Lands] at h' ⊢
    exact h.advances h'
  | ret st =>
    rw [Lands] at h' ⊢
    exact h.advances h'
  | threw st =>
    rw [Lands] at h' ⊢
    exact h.advances h'

/-- What comes next starts where control is at the end. -/
theorem Lands.andThen {o : Outcome σ} {f : σ → Outcome σ} (h : Lands t M pads fin s₁ cur₁ p o)
    (h' : ∀ st b is, cur₁ = some b → s₁.blocks[b]? = some is →
      Lands t M pads fin s' cur' (b, is.length, st) (f st)) :
    Lands t M pads fin s' cur' p (o.andThen f) := by
  cases o with
  | done st =>
    obtain ⟨b, is, hcur, his, hreach⟩ := h
    exact (h' st b is hcur his).of_reaches hreach
  | leave st => exact h
  | goto l st => exact h
  | retry d st => exact h
  | ret st => exact h
  | threw st => exact h

/-- The step at the last instruction that the walk has put into a block. -/
theorem Completes.step (h : Completes s t) (M : Meaning fn σ) (st : σ)
    (hb : s.blocks[b]? = some (is ++ [bi])) :
    M.blockStep t.blocks (b, is.length, st) = some (M.stepInst b is.length st bi) := by
  obtain ⟨is', his', hi⟩ := next_of_extends h.blocks hb
  simp [Meaning.blockStep, his', hi]

theorem Framed.completes {ls : List LabelId} (h : Framed ls s cur s' cur') (hc : Completes s' t) :
    Completes s t := ⟨h.grown.trans hc.blocks, fun _ _ hl => hc.labels (h.labels hl)⟩

end Lands

/-! ## Translated statements -/

/-- What a statement means is what the complete function does, from each of its entries on.  The
defer statements in it are those with numbers from `lo` to `hi`. -/
structure Translated (fn : Instructions) (ls : List LabelId) (lo hi : ℕ)
    (F : ∀ {σ : Type}, Meaning fn σ → EntryPoint → σ → Outcome σ) (s : GenBlocks)
    (cur : Option BlockRef) (s' : GenBlocks) (cur' : Option BlockRef) : Prop where
  framed : Framed ls s cur s' cur'
  runs : ∃ r : ℕ → BlockRef, ∀ ⦃t : Target⦄, Completes s' t → t.Agrees r lo hi →
    ∀ ⦃σ : Type⦄ (M : Meaning fn σ) (x : EntryPoint) (p : BlockRef × ℕ) (st : σ),
      x.within ls lo hi → t.At s cur p x →
        Lands t M s.padBlockStack s.finallyBlock s' cur' (p.1, p.2, st) (F M x st)

section Translated

variable {s s₁ s' : GenBlocks} {cur cur₁ cur' : Option BlockRef} {ls ls' : List LabelId}
  {lo mid hi : ℕ} {F G : ∀ {σ : Type}, Meaning fn σ → EntryPoint → σ → Outcome σ}

theorem within_append {x : EntryPoint} (h : x.within (ls ++ ls') lo hi) :
    x.within ls lo mid ∨ x.within ls' mid hi := by
  cases x with
  | start => exact Or.inl rfl
  | label l =>
    rw [EntryPoint.within_label, List.mem_append] at h
    exact h.imp EntryPoint.within_label.mpr EntryPoint.within_label.mpr
  | retry d =>
    rw [EntryPoint.within_retry] at h ⊢
    rw [EntryPoint.within_retry]
    omega

/-- An entry that is not the start does not depend on where the walk is. -/
theorem Target.At.elsewhere {t : Target} {p : BlockRef × ℕ} {x : EntryPoint}
    (h : t.At s cur p x) (hx : x ≠ .start) : t.At s₁ cur₁ p x := by
  cases x with
  | start => exact absurd rfl hx
  | label l => exact h
  | retry d => exact h

theorem Translated.congr (h : Translated fn ls lo hi F s cur s' cur')
    (heq : ∀ {σ : Type} (M : Meaning fn σ) (x : EntryPoint) (st : σ), x.within ls lo hi →
      G M x st = F M x st) : Translated fn ls lo hi G s cur s' cur' := by
  obtain ⟨hframed, r, hr⟩ := h
  refine ⟨hframed, r, fun t ht hretry σ M x p st hx hat => ?_⟩
  rw [heq M x st hx]
  exact hr ht hretry M x p st hx hat

theorem Translated.andThen (h : Translated fn ls lo mid F s cur s₁ cur₁)
    (h' : Translated fn ls' mid hi G s₁ cur₁ s' cur')
    (hpads : s₁.padBlockStack = s.padBlockStack) (hfin : s₁.finallyBlock = s.finallyBlock)
    (hlo : lo ≤ mid) (hhi : mid ≤ hi) :
    Translated fn (ls ++ ls') lo hi (fun M x st =>
      if x.within ls lo mid then (F M x st).andThen (G M .start) else G M x st) s cur s' cur' := by
  obtain ⟨hframed, r, hr⟩ := h
  obtain ⟨hframed', r', hr'⟩ := h'
  rw [hpads, hfin] at hr'
  refine ⟨hframed.trans hframed', fun d => if d < mid then r d else r' d, ?_⟩
  intro t ht hretry σ M x p st hx hat
  obtain ⟨hretry₁, hretry₂⟩ := hretry.of_ite hlo hhi
  by_cases hx₁ : x.within ls lo mid
  · rw [if_pos hx₁]
    refine (hr (hframed'.completes ht) hretry₁ M x p st hx₁ hat).andThen fun st b is hcur his => ?_
    exact hr' ht hretry₂ M .start (b, is.length) st rfl ⟨is, hcur, his, rfl⟩
  · rw [if_neg hx₁]
    have hne : x ≠ .start := by
      rintro rfl
      exact hx₁ rfl
    exact hr' ht hretry₂ M x p st ((within_append hx).resolve_left hx₁)
      (hat.elsewhere hne)

end Translated

/-! ## Instructions -/

section Insts

variable {s s₁ s' : GenBlocks} {cur cur' : Option BlockRef} {b : BlockRef} {d : ℕ}

/-- One instruction. -/
def runInst (i : InstRef) {σ : Type} (M : Meaning fn σ) (_ : EntryPoint) (st : σ) : Outcome σ :=
  if M.throws i st then .threw (M.exec i st) else .done (M.exec i st)

theorem start_of_within_nil {x : EntryPoint} (h : x.within [] d d) : x = .start := by
  cases x with
  | start => rfl
  | label l => simp at h
  | retry k =>
    rw [EntryPoint.within_retry] at h
    omega

/-- Code that has no entry but the start does nothing where control is not. -/
theorem translated_dead {F : ∀ {σ : Type}, Meaning fn σ → EntryPoint → σ → Outcome σ}
    (h : Framed [] s none s' cur') : Translated fn [] d d F s none s' cur' := by
  refine ⟨h, fun _ => 0, fun t _ _ σ M x p st hx hat => ?_⟩
  cases start_of_within_nil hx
  obtain ⟨is, hcur, -⟩ := hat
  cases hcur

/-- Code that has no entry but the start. -/
theorem translated_live {F : ∀ {σ : Type}, Meaning fn σ → EntryPoint → σ → Outcome σ}
    (h : Framed [] s (some b) s' cur')
    (hrun : ∀ ⦃t : Target⦄, Completes s' t → ∀ ⦃σ : Type⦄ (M : Meaning fn σ) (st : σ)
      (is : List BlockInst), s.blocks[b]? = some is →
        Lands t M s.padBlockStack s.finallyBlock s' cur' (b, is.length, st) (F M .start st)) :
    Translated fn [] d d F s (some b) s' cur' := by
  refine ⟨h, fun _ => 0, fun t ht _ σ M x p st hx hat => ?_⟩
  cases start_of_within_nil hx
  obtain ⟨is, hcur, his, hk⟩ := hat
  cases hcur
  rw [hk]
  exact hrun ht M st is his

theorem addInst_push {i : InstRef} (hlab : s.Labelled)
    (hthrows : ∀ {σ : Type} (M : Meaning fn σ) (st : σ), M.throws i st → s.padBlockStack = []) :
    Translated fn [] d d (runInst i) s (some b) (s.push b (.inst i)) (some b) := by
  refine translated_live ((Framed.refl hlab).push _) fun t ht σ M st is his => ?_
  have hstep := ht.step M st (s.push_self his)
  rw [runInst, Meaning.stepInst] at *
  by_cases hthrow : M.throws i st
  · rw [if_pos hthrow] at hstep ⊢
    rw [Lands, hthrows M st hthrow]
    exact .single hstep
  · rw [if_neg hthrow] at hstep ⊢
    refine ⟨b, is ++ [.inst i], rfl, s.push_self his, ?_⟩
    rw [List.length_append, List.length_singleton]
    exact .next hstep (.refl _)

theorem addInst_translated {i : InstRef} (hlab : s.Labelled) (hlive : s.Live cur)
    (h : s.addInst fn cur i = some (cur', s')) :
    Translated fn [] d d (runInst i) s cur s' cur' ∧ s'.Live cur' ∧ s'.rest = s.rest ∧
      cur'.isSome = cur.isSome := by
  unfold addInst at h
  cases cur with
  | none =>
    obtain ⟨s₁, hd, h⟩ := Option.map_eq_some_iff.mp h
    cases h
    have hrest := rest_discard hd
    unfold discard at hd
    split_ifs at hd
    cases hd
    exact ⟨translated_dead ((Framed.refl hlab).congr rfl rfl), live_none _, hrest, rfl⟩
  | some b =>
    obtain ⟨is, his, -⟩ := hlive b rfl
    have hpushed : (s.push b (.inst i)).Live (some b) := by
      intro c hc
      cases hc
      exact ⟨_, s.push_self his, getTerminator_of_last _ (s.push_self his)⟩
    cases hpads : s.padBlockStack with
    | nil =>
      simp only [hpads] at h
      cases h
      exact ⟨addInst_push hlab fun _ _ _ => hpads, hpushed, rfl, rfl⟩
    | cons pad pads =>
      simp only [hpads] at h
      by_cases hmay : fn.mayThrow i
      · rw [if_pos hmay] at h
        cases h
        -- the call is the end of its block, and control goes on in a new one
        have hlt : b < s.blocks.length := (List.getElem?_eq_some_iff.mp his).1
        have hold : (s.mkLLVMBlocks 1).blocks[b]? = some is := by
          rw [mkLLVMBlocks_old s 1 hlt, his]
        have hnew : ((s.mkLLVMBlocks 1).push b (.invoke i s.blocks.length pad)).blocks[
            s.blocks.length]? = some [] := by
          rw [push_ne _ (Nat.ne_of_gt hlt)]
          exact mkLLVMBlocks_new s Nat.one_pos
        have hclose : Framed [] s (some b)
            ((s.mkLLVMBlocks 1).push b (.invoke i s.blocks.length pad)) none :=
          ((Framed.refl hlab).mkLLVMBlocks 1).close hold rfl
        have hmove := hclose.moveTo (b := s.blocks.length) (Nat.le_refl _)
          (plain_mkLLVMBlocks hlab 1 0)
        refine ⟨translated_live (hmove.congr rfl rfl) fun t ht σ M st is' his' => ?_, ?_, rfl, rfl⟩
        · cases his.symm.trans his'
          have hstep := ht.step M st (push_self (s.mkLLVMBlocks 1) hold)
          rw [Meaning.stepInst] at hstep
          rw [runInst]
          by_cases hthrow : M.throws i st
          · rw [if_pos hthrow] at hstep ⊢
            rw [Lands, hpads]
            exact .single hstep
          · rw [if_neg hthrow] at hstep ⊢
            exact ⟨s.blocks.length, [], rfl, hnew, .next hstep (.refl _)⟩
        · exact live_of_nil (s := (s.rewriteToMayThrowCall i b pad).2) hnew
      · rw [if_neg hmay] at h
        cases h
        refine ⟨addInst_push hlab fun M st hthrow => ?_, hpushed, rfl, rfl⟩
        exact absurd (M.mayThrow_of_throws i st hthrow) hmay

theorem addInsts_translated {insts : List InstRef} (hlab : s.Labelled) (hlive : s.Live cur)
    (h : s.addInsts fn cur insts = some (cur', s')) :
    Translated fn [] d d (fun M _ st => M.runInsts insts st) s cur s' cur' ∧
      s'.Live cur' ∧ s'.rest = s.rest ∧ cur'.isSome = cur.isSome := by
  induction insts generalizing s cur with
  | nil =>
    cases h
    refine ⟨?_, hlive, rfl, rfl⟩
    cases cur' with
    | none => exact translated_dead (Framed.refl hlab)
    | some b =>
      refine translated_live (Framed.refl hlab) fun t _ σ M st is his => ?_
      exact ⟨b, is, rfl, his, .refl _⟩
  | cons i insts ih =>
    rw [addInsts] at h
    obtain ⟨⟨cur₁, s₁⟩, hi, h⟩ := Option.bind_eq_some_iff.mp h
    obtain ⟨hfirst, hlive₁, hrest₁, hsome₁⟩ := addInst_translated (d := d) hlab hlive hi
    obtain ⟨hmore, hlive', hrest', hsome'⟩ := ih hfirst.framed.labelled hlive₁ h
    refine ⟨?_, hlive', hrest'.trans hrest₁, hsome'.trans hsome₁⟩
    refine (hfirst.andThen hmore (congrArg Rest.pads hrest₁) (congrArg Rest.fin hrest₁)
      (Nat.le_refl d) (Nat.le_refl d)).congr fun M x st hx => ?_
    cases start_of_within_nil hx
    rw [Meaning.runInsts, if_pos (show EntryPoint.within [] d d .start = true from rfl), runInst]
    split_ifs <;> rfl

end Insts

/-! ## Statements -/

/-- What holds before the walk of statements that define these labels. -/
structure Ready (ls : List LabelId) (s : GenBlocks) (cur : Option BlockRef) : Prop where
  labelled : s.Labelled
  live : s.Live cur
  waiting : Waiting ls s cur
  nodup : ls.Nodup
  finInPad : s.FinInPad

/-- What holds after the walk of statements.  Nothing has to come after those that are `last`. -/
structure Stops (last : Bool) (returns : List (BnodeTree × InstRef)) (ends : Bool)
    (s s' : GenBlocks) (cur' : Option BlockRef) : Prop where
  live : last = false → s'.Live cur'
  rest : s'.rest = s.rest.keep returns
  ends : cur'.isSome = ends

section Ready

variable {s s₁ : GenBlocks} {cur cur₁ : Option BlockRef} {ls ls' : List LabelId}

theorem Ready.first (h : Ready (ls ++ ls') s cur) : Ready ls s cur where
  labelled := h.labelled
  live := h.live
  waiting := fun l hl => h.waiting l (List.mem_append_left _ hl)
  nodup := List.Nodup.of_append_left h.nodup
  finInPad := h.finInPad

theorem Ready.after (h : Ready (ls ++ ls') s cur) (hf : Framed ls s cur s₁ cur₁)
    (hlive : s₁.Live cur₁) (hfin : s₁.FinInPad) : Ready ls' s₁ cur₁ where
  labelled := hf.labelled
  live := hlive
  waiting := by
    refine hf.waiting h.labelled (fun l hl => h.waiting l (List.mem_append_right _ hl)) ?_
    exact List.disjoint_of_nodup_append h.nodup
  nodup := List.Nodup.of_append_right h.nodup
  finInPad := hfin

theorem Ready.step (h : Ready ls s cur) (hf : Framed [] s cur s₁ cur₁) (hlive : s₁.Live cur₁)
    (hfin : s₁.FinInPad) : Ready ls s₁ cur₁ :=
  Ready.after (show Ready ([] ++ ls) s cur from h) hf hlive hfin

theorem Ready.stop (h : Ready ls s cur) : Ready ls s none where
  labelled := h.labelled
  live := live_none s
  waiting := fun l hl b hb => ⟨(h.waiting l hl b hb).1, fun hn => Option.some_ne_none b hn.symm⟩
  nodup := h.nodup
  finInPad := h.finInPad

/-- Control is in an empty block then. -/
theorem Ready.moveTo {b : BlockRef} (h : Ready ls s none) (hb : s.Reserved none b) :
    Ready ls s (some b) where
  labelled := h.labelled
  live := live_of_nil hb.empty
  waiting := by
    intro l hl c hc
    refine ⟨(h.waiting l hl c hc).1, fun hbc => ?_⟩
    cases hbc
    exact hb.plain l hc
  nodup := h.nodup
  finInPad := h.finInPad

/-- Control has left the block where it was. -/
theorem Ready.branchTo (h : Ready ls s cur) (target : BlockRef) :
    Ready ls (s.branchTo cur target) none := by
  refine h.step ((Framed.refl h.labelled).branchTo h.live target) (live_none _) ?_
  exact h.finInPad.of_rest ((rest_branchTo _ _ _).trans (Rest.keep_nil _).symm)

end Ready

section Statements

variable (kept : Walk) (fn : Instructions)

/-- The blocks that a statement is lowered to do what it means. -/
def Simulated (n : BnodeTree) : Prop :=
  ∀ ⦃s s' : GenBlocks⦄ ⦃cur cur' : Option BlockRef⦄ (d : ℕ) (last : Bool),
    Ready n.labels s cur → n.isRegular fn (!s.padBlockStack.isEmpty) last →
      walkWith kept fn s cur n = some (cur', s') →
        Translated fn n.labels d (d + n.defers)
            (fun M => M.run M.movedReturns s.finallyBlock.isSome d n) s cur s' cur' ∧
          Stops last n.returns (n.ends cur.isSome) s s' cur'

def AllSimulated (ns : List BnodeTree) : Prop :=
  ∀ ⦃s s' : GenBlocks⦄ ⦃cur cur' : Option BlockRef⦄ (d : ℕ) (last : Bool),
    Ready (BnodeTree.labelsAll ns) s cur →
      BnodeTree.areRegular fn (!s.padBlockStack.isEmpty) last ns →
        walkAllWith kept fn s cur ns = some (cur', s') →
          Translated fn (BnodeTree.labelsAll ns) d (d + BnodeTree.defersAll ns)
              (fun M => M.runAll M.movedReturns s.finallyBlock.isSome d ns) s cur s' cur' ∧
            Stops last (BnodeTree.returnsAll ns) (BnodeTree.endsAll cur.isSome ns) s s' cur'

variable {kept fn}

theorem Stops.pads {last ends : Bool} {returns : List (BnodeTree × InstRef)} {s s' : GenBlocks}
    {cur' : Option BlockRef} (h : Stops last returns ends s s' cur') :
    s'.padBlockStack = s.padBlockStack := congrArg Rest.pads h.rest

theorem Stops.fin {last ends : Bool} {returns : List (BnodeTree × InstRef)} {s s' : GenBlocks}
    {cur' : Option BlockRef} (h : Stops last returns ends s s' cur') :
    s'.finallyBlock = s.finallyBlock := congrArg Rest.fin h.rest

theorem simulated_expr {kids : List BnodeTree} (value : Option NodeValue) (insts : List InstRef)
    (h : AllSimulated kept fn kids) : Simulated kept fn (.expr kids value insts) := by
  intro s s' cur cur' d last hready hregular hwalk
  rw [walkWith] at hwalk
  obtain ⟨⟨cur₁, s₁⟩, hkids, hinsts⟩ := Option.bind_eq_some_iff.mp hwalk
  rw [BnodeTree.isRegular] at hregular
  rw [BnodeTree.labels] at hready ⊢
  obtain ⟨hcode, hstops⟩ := h d false hready hregular hkids
  obtain ⟨hcode', hlive, hrest, hsome⟩ := addInsts_translated
    (d := d + BnodeTree.defersAll kids) hcode.framed.labelled (hstops.live rfl) hinsts
  have hboth := hcode.andThen hcode' hstops.pads hstops.fin (Nat.le_add_right _ _)
    (Nat.le_refl _)
  rw [List.append_nil] at hboth
  rw [BnodeTree.defers, BnodeTree.returns, BnodeTree.ends]
  refine ⟨hboth.congr fun M x st hx => ?_, ?_⟩
  · rw [Meaning.run, if_pos hx]
  · exact ⟨fun _ => hlive, hrest.trans hstops.rest, hsome.trans hstops.ends⟩

theorem simulated_block (vars : List Bvariable) {stmts : List BnodeTree}
    (h : AllSimulated kept fn stmts) : Simulated kept fn (.block vars stmts) := by
  intro s s' cur cur' d last hready hregular hwalk
  rw [walkWith] at hwalk
  obtain ⟨⟨cur₁, s₁⟩, hstmts, hwalk⟩ := Option.bind_eq_some_iff.mp hwalk
  cases hwalk
  rw [BnodeTree.isRegular] at hregular
  rw [BnodeTree.labels] at hready ⊢
  obtain ⟨hcode, hstops⟩ := h d last hready hregular hstmts
  have hblocks := endLexicalBlock_blocks s₁ vars
  have hlabels : (s₁.endLexicalBlock vars).labelmap = s₁.labelmap := by
    unfold endLexicalBlock
    split_ifs
    · exact (effects_processVars s₁ vars).2.1
    · rfl
  rw [BnodeTree.defers, BnodeTree.returns, BnodeTree.ends]
  obtain ⟨hframed, r, hr⟩ := hcode
  refine ⟨⟨hframed.congr hblocks hlabels, r, fun t ht hretry σ M x p st hx hat => ?_⟩, ?_⟩
  · have hlands := hr ⟨hblocks ▸ ht.blocks, hlabels ▸ ht.labels⟩ hretry M x p st hx hat
    rw [Meaning.run]
    unfold Lands at hlands ⊢
    rw [hblocks]
    exact hlands
  · refine ⟨fun hlast => ?_, (rest_endLexicalBlock s₁ vars).trans hstops.rest, hstops.ends⟩
    exact (hstops.live hlast).congr fun b _ => congrArg (·[b]?) hblocks

theorem allSimulated_nil : AllSimulated kept fn [] := by
  intro s s' cur cur' d last hready hregular hwalk
  rw [walkAllWith] at hwalk
  cases hwalk
  refine ⟨?_, fun _ => hready.live, (Rest.keep_nil _).symm, rfl⟩
  rw [BnodeTree.labelsAll, BnodeTree.defersAll]
  cases cur with
  | none => exact translated_dead (Framed.refl hready.labelled)
  | some b =>
    refine translated_live (Framed.refl hready.labelled) fun t _ σ M st is his => ?_
    rw [Meaning.runAll]
    exact ⟨b, is, rfl, his, .refl _⟩

theorem allSimulated_cons {n : BnodeTree} {ns : List BnodeTree} (h : Simulated kept fn n)
    (hs : AllSimulated kept fn ns) : AllSimulated kept fn (n :: ns) := by
  intro s s' cur cur' d last hready hregular hwalk
  rw [walkAllWith] at hwalk
  obtain ⟨⟨cur₁, s₁⟩, hn, hns⟩ := Option.bind_eq_some_iff.mp hwalk
  simp only [BnodeTree.areRegular, Bool.and_eq_true] at hregular
  rw [BnodeTree.labelsAll] at hready ⊢
  rw [BnodeTree.defersAll, BnodeTree.returnsAll, BnodeTree.endsAll, ← Nat.add_assoc]
  obtain ⟨hcode, hstops⟩ := h d _ hready.first hregular.1 hn
  cases ns with
  | nil =>
    -- control need not be in an open block after the last statement
    simp only [walkAllWith] at hns
    cases hns
    rw [BnodeTree.labelsAll, BnodeTree.defersAll, BnodeTree.returnsAll, BnodeTree.endsAll,
      List.append_nil, List.append_nil]
    rw [List.isEmpty_nil, Bool.and_true] at hstops
    refine ⟨hcode.congr fun M x st hx => ?_, hstops⟩
    have hnil : M.runAll M.movedReturns s.finallyBlock.isSome (d + n.defers) [] .start = .done := by
      funext st
      rw [Meaning.runAll]
    rw [Meaning.runAll, EntryPoint.into, if_pos hx, hnil, Outcome.andThen_done]
  | cons m ms =>
    rw [List.isEmpty_cons, Bool.and_false] at hstops
    have hready' := hready.after hcode.framed (hstops.live rfl)
      (hready.finInPad.of_rest hstops.rest)
    obtain ⟨hcode', hstops'⟩ := hs (d + n.defers) last hready'
      (by rw [hstops.pads]; exact hregular.2) hns
    rw [hstops.fin] at hcode'
    refine ⟨(hcode.andThen hcode' hstops.pads hstops.fin (Nat.le_add_right _ _)
      (Nat.le_add_right _ _)).congr fun M x st _ => ?_, hstops'.live, ?_, ?_⟩
    · rw [Meaning.runAll]
      rfl
    · rw [hstops'.rest, hstops.rest, Rest.keep_append]
    · rw [hstops'.ends, hstops.ends]

theorem simulated_goto (label : LabelId) : Simulated kept fn (.gotoStmt label) := by
  intro s s' cur cur' d last hready hregular hwalk
  obtain ⟨hframed, hlab, hold⟩ := (Framed.refl hready.labelled).getBlockForLabel hready.live label
  have hrest := rest_getBlockForLabel s label
  rw [walkWith] at hwalk
  generalize s.getBlockForLabel label = p at hwalk hframed hlab hold hrest
  cases hwalk
  have hlive : p.2.Live cur := hready.live.congr fun b hb => hold b (hready.live.lt hb)
  have hbranch := hframed.branchTo hlive p.1
  refine ⟨?_, fun _ => live_none _, ?_, rfl⟩
  · rw [BnodeTree.labels, BnodeTree.defers]
    cases cur with
    | none => exact translated_dead hbranch
    | some b =>
      refine translated_live hbranch fun t ht σ M st is his => ?_
      rw [branchTo_of_live hlive] at ht
      rw [Meaning.run, Lands, ht.labels hlab]
      exact .single (ht.step M st (push_self p.2 ((hold b (hready.live.lt rfl)).trans his)))
  · rw [rest_branchTo, hrest, BnodeTree.returns, Rest.keep_nil]

theorem simulated_label (label : LabelId) : Simulated kept fn (.labelStmt label) := by
  intro s s' cur cur' d last hready hregular hwalk
  obtain ⟨hframed, hlab, hold⟩ := (Framed.refl hready.labelled).getBlockForLabel hready.live label
  have hrest := rest_getBlockForLabel s label
  rw [walkWith] at hwalk
  generalize s.getBlockForLabel label = p at hwalk hframed hlab hold hrest
  have hlive : p.2.Live cur := hready.live.congr fun b hb => hold b (hready.live.lt hb)
  cases hwalk
  rw [leave_eq_branchTo hlive]
  have hbranch := hframed.branchTo hlive p.1
  rw [BnodeTree.labels] at hready
  have hlab' : (p.2.branchTo cur p.1).labelmap label = some p.1 := by
    rw [labelmap_branchTo]
    exact hlab
  have hempty : (p.2.branchTo cur p.1).blocks[p.1]? = some [] :=
    (hbranch.waiting hready.labelled hready.waiting (List.disjoint_nil_left _) label
      (List.mem_singleton_self label) p.1 hlab').1
  refine ⟨⟨hbranch.define hlab', fun _ => 0, fun t ht _ σ M x q st hx hat => ?_⟩, ?_, ?_, rfl⟩
  · rw [Meaning.run]
    refine ⟨p.1, [], rfl, hempty, ?_⟩
    cases x with
    | start =>
      obtain ⟨is, hcur, his, hk⟩ := hat
      cases hcur
      rw [branchTo_of_live hlive] at ht
      rw [hk]
      have hstep := ht.step M st
        (push_self p.2 ((hold q.1 (hready.live.lt rfl)).trans his))
      exact .next hstep (.refl _)
    | label l =>
      rw [EntryPoint.within_label, BnodeTree.labels, List.mem_singleton] at hx
      subst hx
      cases hat
      rw [ht.labels hlab']
      exact .refl _
    | retry k =>
      rw [EntryPoint.within_retry, BnodeTree.defers] at hx
      omega
  · exact fun _ => live_of_nil hempty
  · rw [rest_branchTo, hrest, BnodeTree.returns, Rest.keep_nil]

/-! ### Returns -/

mutual
theorem labels_of_isCode : ∀ n : BnodeTree, n.isCode → n.labels = [] ∧ n.defers = 0
  | .expr kids _ _, h => by
    rw [BnodeTree.isCode] at h
    rw [BnodeTree.labels, BnodeTree.defers]
    exact labels_of_areCode kids h
  | .exprStmt e, h => by
    rw [BnodeTree.isCode] at h
    rw [BnodeTree.labels, BnodeTree.defers]
    exact labels_of_isCode e h
  | .block _ stmts, h => by
    rw [BnodeTree.isCode] at h
    rw [BnodeTree.labels, BnodeTree.defers]
    exact labels_of_areCode stmts h
  | .ifStmt cond trueBlock falseBlock, h => by
    simp only [BnodeTree.isCode, Bool.and_eq_true] at h
    rw [BnodeTree.labels, BnodeTree.defers]
    simp [labels_of_isCode cond h.1.1.2, labels_of_isCode trueBlock h.1.2,
      labels_of_isCode falseBlock h.2]
theorem labels_of_areCode : ∀ ns : List BnodeTree, BnodeTree.areCode ns →
    BnodeTree.labelsAll ns = [] ∧ BnodeTree.defersAll ns = 0
  | [], _ => ⟨rfl, rfl⟩
  | n :: ns, h => by
    rw [BnodeTree.areCode, Bool.and_eq_true] at h
    rw [BnodeTree.labelsAll, BnodeTree.defersAll]
    simp [labels_of_isCode n h.1, labels_of_areCode ns h.2]
end

mutual
theorem isRegular_of_isCode (pad : Bool) :
    ∀ (n : BnodeTree) (last : Bool), n.isCode → n.isRegular fn pad last
  | .expr kids _ _, last, h => by
    rw [BnodeTree.isCode] at h
    rw [BnodeTree.isRegular]
    exact areRegular_of_areCode pad kids false h
  | .exprStmt e, last, h => by
    rw [BnodeTree.isCode] at h
    rw [BnodeTree.isRegular]
    exact isRegular_of_isCode pad e false h
  | .block _ stmts, last, h => by
    rw [BnodeTree.isCode] at h
    rw [BnodeTree.isRegular]
    exact areRegular_of_areCode pad stmts last h
  | .ifStmt cond trueBlock falseBlock, last, h => by
    simp only [BnodeTree.isCode, Bool.and_eq_true] at h
    simp only [BnodeTree.isRegular, Bool.and_eq_true]
    exact ⟨⟨isRegular_of_isCode pad cond false h.1.1.2,
      isRegular_of_isCode pad trueBlock false h.1.2⟩, isRegular_of_isCode pad falseBlock false h.2⟩
theorem areRegular_of_areCode (pad : Bool) :
    ∀ (ns : List BnodeTree) (last : Bool), BnodeTree.areCode ns →
      BnodeTree.areRegular fn pad last ns
  | [], _, _ => rfl
  | n :: ns, last, h => by
    rw [BnodeTree.areCode, Bool.and_eq_true] at h
    rw [BnodeTree.areRegular, Bool.and_eq_true]
    exact ⟨isRegular_of_isCode pad n _ h.1, areRegular_of_areCode pad ns last h.2⟩
end

mutual
/-- The expression of a return runs from its start to its end. -/
theorem run_of_isCode (M : Meaning fn σ) (fin : Bool) :
    ∀ (n : BnodeTree) (d : ℕ) (st : σ), n.isCode → M.run M.movedReturns fin d n .start st = M.runCode n st
  | .expr kids _ insts, d, st, h => by
    rw [BnodeTree.isCode] at h
    rw [Meaning.run, Meaning.runCode, runAll_of_areCode M fin kids d st h]
  | .exprStmt e, d, st, h => by
    rw [BnodeTree.isCode] at h
    rw [Meaning.run, Meaning.runCode, run_of_isCode M fin e d st h]
  | .block _ stmts, d, st, h => by
    rw [BnodeTree.isCode] at h
    rw [Meaning.run, Meaning.runCode, runAll_of_areCode M fin stmts d st h]
  | .ifStmt cond trueBlock falseBlock, d, st, h => by
    simp only [BnodeTree.isCode, Bool.and_eq_true] at h
    rw [Meaning.run, Meaning.runCode, if_pos (show EntryPoint.into d cond .start = true from rfl),
      run_of_isCode M fin cond d st h.1.1.2]
    congr 1
    funext st
    rw [run_of_isCode M fin trueBlock _ st h.1.2, run_of_isCode M fin falseBlock _ st h.2]
theorem runAll_of_areCode (M : Meaning fn σ) (fin : Bool) :
    ∀ (ns : List BnodeTree) (d : ℕ) (st : σ), BnodeTree.areCode ns →
      M.runAll M.movedReturns fin d ns .start st = M.runCodes ns st
  | [], _, _, _ => by rw [Meaning.runAll, Meaning.runCodes]
  | n :: ns, d, st, h => by
    rw [BnodeTree.areCode, Bool.and_eq_true] at h
    rw [Meaning.runAll, Meaning.runCodes, if_pos (show EntryPoint.into d n .start = true from rfl),
      run_of_isCode M fin n d st h.1]
    congr 1
    funext st
    exact runAll_of_areCode M fin ns _ st h.2
end

/-- A return to a finally part goes to the block of that. -/
theorem leave_translated {s s₁ s' : GenBlocks} {cur : Option BlockRef} {fin : BlockRef} {d : ℕ}
    (hlab : s.Labelled) (hlive : s.Live cur) (hfin : s.finallyBlock = some fin)
    (hblocks : s₁.blocks = s.blocks) (hlabels : s₁.labelmap = s.labelmap)
    (h : s₁.createBranch cur fin = some s') :
    Translated fn [] d d (fun _ _ st => .leave st) s cur s' none := by
  obtain ⟨b, rfl, rfl⟩ := Option.map_eq_some_iff.mp h
  obtain ⟨is, his, -⟩ := hlive b rfl
  have hb : s₁.blocks[b]? = some is := by rw [hblocks, his]
  have hframed : Framed [] s (some b) s₁ (some b) := (Framed.refl hlab).congr hblocks hlabels
  refine translated_live (hframed.close hb rfl) fun t ht σ M st is' his' => ?_
  cases his.symm.trans his'
  exact ⟨fin, hfin, .single (ht.step M st (push_self s₁ hb))⟩

/-- The return instruction, where control is at the end of the expression. -/
theorem addReturn_translated {s s' : GenBlocks} {cur : Option BlockRef} {ri : InstRef} {d : ℕ}
    (hlab : s.Labelled) (hlive : s.Live cur) (h : s.addReturn fn cur ri = some s') :
    Translated fn [] d d (fun M _ st => .ret (M.returned ri st)) s cur s' none ∧ s'.rest = s.rest := by
  cases cur with
  | none =>
    have hd : s.discard fn ri = some s' := h
    have hrest := rest_discard hd
    unfold discard at hd
    split_ifs at hd
    cases hd
    exact ⟨translated_dead ((Framed.refl hlab).congr rfl rfl), hrest⟩
  | some b =>
    cases h
    obtain ⟨is, his, -⟩ := hlive b rfl
    refine ⟨translated_live ((Framed.refl hlab).close his rfl) fun t ht σ M st is' his' => ?_, rfl⟩
    cases his.symm.trans his'
    exact .single (ht.step M st (push_self s his))

/-- A return that is not one to a finally part, with its expression. -/
theorem return_translated {re : BnodeTree} {ri : InstRef} {s s₁ s' : GenBlocks}
    {cur bb : Option BlockRef} {d : ℕ} (h : Simulated kept fn re) (hcode : re.isCode)
    (hready : Ready [] s cur) (hre : walkWith kept fn s cur re = some (bb, s₁))
    (hadd : s₁.addReturn fn bb ri = some s') :
    Translated fn [] d d (fun M _ st => M.runReturn (re, ri) st) s cur s' none ∧
      s'.rest = s.rest.keep re.returns := by
  obtain ⟨hlabels, hdefers⟩ := labels_of_isCode re hcode
  obtain ⟨hval, hstops⟩ := h d false (hlabels.symm ▸ hready) (isRegular_of_isCode _ re false hcode)
    hre
  obtain ⟨hret, hrest⟩ := addReturn_translated (d := d) hval.framed.labelled (hstops.live rfl) hadd
  rw [hlabels, hdefers] at hval
  refine ⟨(hval.andThen hret hstops.pads hstops.fin (Nat.le_refl d) (Nat.le_refl d)).congr
    fun M x st hx => ?_, hrest.trans hstops.rest⟩
  cases start_of_within_nil hx
  rw [if_pos (show EntryPoint.within [] d (d + 0) .start = true from rfl),
    run_of_isCode M _ re d st hcode, Meaning.runReturn]

theorem simulated_return {re : BnodeTree} (ri : InstRef) (h : Simulated kept fn re) :
    Simulated kept fn (.returnStmt re ri) := by
  intro s s' cur cur' d last hready hregular hwalk
  rw [walkWith] at hwalk
  rw [BnodeTree.labels] at hready ⊢
  rw [BnodeTree.isRegular] at hregular
  rw [BnodeTree.defers, BnodeTree.returns]
  cases hf : s.finallyBlock with
  | some fin =>
    have hrun : ∀ {σ : Type} (M : Meaning fn σ) (x : EntryPoint) (st : σ),
        M.run M.movedReturns (some fin).isSome d (.returnStmt re ri) x st = .leave st := by
      intro σ M x st
      rw [Meaning.run]
      rfl
    cases hc : s.cachedReturn with
    | none =>
      simp only [hf, hc, Option.bind_eq_bind, Option.bind_some, Option.bind_eq_some_iff] at hwalk
      obtain ⟨s₂, hbr, hwalk⟩ := hwalk
      cases hwalk
      refine ⟨?_, fun _ => live_none _, ?_, rfl⟩
      · refine (leave_translated hready.labelled hready.live hf ?_ ?_ hbr).congr
          fun M x st _ => hrun M x st
        · rfl
        · rfl
      · rw [rest_createBranch hbr]
        simp [Rest.keep, GenBlocks.rest, setCached, hf, hc]
    | some c =>
      simp only [hf, hc, Option.bind_eq_bind, Option.bind_eq_some_iff] at hwalk
      obtain ⟨s₁, hdestroy, s₂, hbr, hwalk⟩ := hwalk
      cases hwalk
      have heq := destroy_eq hdestroy
      refine ⟨?_, fun _ => live_none _, ?_, rfl⟩
      · refine (leave_translated hready.labelled hready.live hf ?_ ?_ hbr).congr
          fun M x st _ => hrun M x st
        · rw [heq]
        · rw [heq]
      · rw [rest_createBranch hbr, rest_destroy hdestroy]
        simp [Rest.keep, GenBlocks.rest, hf, hc]
  | none =>
    simp only [hf, Option.bind_eq_bind, Option.bind_eq_some_iff] at hwalk
    obtain ⟨⟨bb, s₁⟩, hre, s₂, hadd, hwalk⟩ := hwalk
    split_ifs at hwalk with hbb
    cases hwalk
    obtain ⟨hcode, hrest⟩ := return_translated (d := d) h hregular hready hre hadd
    have hkeep : ∀ rets, s.rest.keep rets = s.rest := by
      intro rets
      simp [Rest.keep, GenBlocks.rest, hf]
    refine ⟨hcode.congr fun M x st _ => ?_, fun _ => live_none _, ?_, rfl⟩
    · rw [Meaning.run]
      rfl
    · rw [hrest, hkeep, hkeep]

/-! ### Conditionals -/

/-- Control comes to the start of another block from the end of a statement. -/
theorem Lands.branchTo {t : Target} {M : Meaning fn σ} {pads : List BlockRef}
    {fin : Option BlockRef} {s s' : GenBlocks} {cur : Option BlockRef} {target : BlockRef}
    {p : Meaning.Point σ} {o : Outcome σ} (h : Lands t M pads fin s cur p o) (hlive : s.Live cur)
    (ht : Completes (s.branchTo cur target) t) (hs : s'.blocks[target]? = some []) :
    Lands t M pads fin s' (some target) p o := by
  cases o with
  | done st =>
    obtain ⟨b, is, rfl, his, hreach⟩ := h
    rw [branchTo_of_live hlive] at ht
    refine ⟨target, [], rfl, hs, hreach.trans ?_⟩
    exact .next (ht.step M st (push_self s his)) (.refl _)
  | leave st => exact h
  | goto l st => exact h
  | retry d st => exact h
  | ret st => exact h
  | threw st => exact h

theorem add_ne_add (first : BlockRef) {j k : ℕ} (h : j ≠ k) : first + j ≠ first + k :=
  fun heq => h (Nat.add_left_cancel heq)

/-- Both arms of a conditional go on in the block between them. -/
theorem arms_translated {s s₃ s₅ : GenBlocks} {b : BlockRef} {tsucc fsucc : Option BlockRef}
    {cval : NodeValue} {lt lf : List LabelId} {lo mid hi : ℕ}
    {FT FF : ∀ {σ : Type}, Meaning fn σ → EntryPoint → σ → Outcome σ} (hlab : s.Labelled)
    (hlive : s.Live (some b))
    (hT : Translated fn lt lo mid FT (s.openIf b cval) (some s.blocks.length) s₃ tsucc)
    (hTlive : s₃.Live tsucc)
    (hF : Translated fn lf mid hi FF (s₃.branchTo tsucc (s.blocks.length + 1))
      (some (s.blocks.length + 2)) s₅ fsucc)
    (hFlive : s₅.Live fsucc) (hpads : s₃.padBlockStack = s.padBlockStack)
    (hfin : s₃.finallyBlock = s.finallyBlock) (hlo : lo ≤ mid) (hhi : mid ≤ hi) :
    Translated fn (lt ++ lf) lo hi (fun M x st =>
        if x = .start then if M.truth cval st then FT M .start st else FF M .start st
        else if x.within lt lo mid then FT M x st else FF M x st) s (some b)
        (s₅.branchTo fsucc (s.blocks.length + 1)) (some (s.blocks.length + 1)) ∧
      (s₅.branchTo fsucc (s.blocks.length + 1)).Live (some (s.blocks.length + 1)) := by
  obtain ⟨is, his, -⟩ := hlive b rfl
  have hlt : b < s.blocks.length := hlive.lt rfl
  have hopen : Framed [] s (some b) (s.openIf b cval) none :=
    ((Framed.refl hlab).mkLLVMBlocks 3).close ((mkLLVMBlocks_old s 3 hlt).trans his) rfl
  have hnew : ∀ k < 3, (s.openIf b cval).Reserved none (s.blocks.length + k) := fun k hk =>
    ⟨openIf_new hk hlt, plain_mkLLVMBlocks hlab 3 k, fun h => Option.some_ne_none _ h.symm⟩
  have hin := hopen.moveTo (b := s.blocks.length) (Nat.le_refl _) (hnew 0 (by decide)).plain
  have hft₃ := hT.framed.reserved ((hnew 1 (by decide)).moveTo
    (add_ne_add s.blocks.length (j := 0) (by decide)))
  have hfb₃ := hT.framed.reserved ((hnew 2 (by decide)).moveTo
    (add_ne_add s.blocks.length (j := 0) (by decide)))
  have hmid := ((hin.trans hT.framed).branchTo hTlive (s.blocks.length + 1)).moveTo
    (b := s.blocks.length + 2) (Nat.le_add_right _ _) (hfb₃.branchTo _).plain
  have hft₅ := hF.framed.reserved ((hft₃.branchTo (s.blocks.length + 1)).moveTo
    (add_ne_add s.blocks.length (by decide)))
  have hout := ((hmid.trans hF.framed).branchTo hFlive (s.blocks.length + 1)).moveTo
    (b := s.blocks.length + 1) (Nat.le_add_right _ _) (hft₅.branchTo _).plain
  have hjoin := (hft₅.branchTo (s.blocks.length + 1)).empty
  refine ⟨⟨hout, ?_⟩, live_of_nil hjoin⟩
  obtain ⟨r, hr⟩ := hT.runs
  obtain ⟨r', hr'⟩ := hF.runs
  refine ⟨fun d => if d < mid then r d else r' d, fun t ht hretry σ M x p st hx hat => ?_⟩
  obtain ⟨hretry₁, hretry₂⟩ := hretry.of_ite hlo hhi
  have hTend : Framed [] s₃ tsucc (s₃.branchTo tsucc (s.blocks.length + 1)) none :=
    (Framed.refl hT.framed.labelled).branchTo hTlive _
  have hFend : Framed [] s₅ fsucc (s₅.branchTo fsucc (s.blocks.length + 1)) none :=
    (Framed.refl hF.framed.labelled).branchTo hFlive _
  have ht₅ := hFend.completes ht
  have ht₄ := hF.framed.completes ht₅
  have ht₃ := hTend.completes ht₄
  have hrest₄ := rest_branchTo s₃ tsucc (s.blocks.length + 1)
  have hpads₄ : (s₃.branchTo tsucc (s.blocks.length + 1)).padBlockStack = s.padBlockStack :=
    (congrArg Rest.pads hrest₄).trans hpads
  have hfin₄ : (s₃.branchTo tsucc (s.blocks.length + 1)).finallyBlock = s.finallyBlock :=
    (congrArg Rest.fin hrest₄).trans hfin
  rw [hpads₄, hfin₄] at hr'
  -- each arm, from any entry of it
  have htrue : ∀ x p st, x.within lt lo mid → t.At (s.openIf b cval) (some s.blocks.length) p x →
      Lands t M s.padBlockStack s.finallyBlock (s₅.branchTo fsucc (s.blocks.length + 1))
        (some (s.blocks.length + 1)) (p.1, p.2, st) (FT M x st) := fun x p st hx hat =>
    (hr ht₃ hretry₁ M x p st hx hat).branchTo hTlive ht₄ hjoin
  have hfalse : ∀ x p st, x.within lf mid hi →
      t.At (s₃.branchTo tsucc (s.blocks.length + 1)) (some (s.blocks.length + 2)) p x →
      Lands t M s.padBlockStack s.finallyBlock (s₅.branchTo fsucc (s.blocks.length + 1))
        (some (s.blocks.length + 1)) (p.1, p.2, st) (FF M x st) := fun x p st hx hat =>
    (hr' ht₅ hretry₂ M x p st hx hat).branchTo hFlive ht hjoin
  by_cases hstart : x = .start
  · subst hstart
    obtain ⟨is', hcur, his', hk⟩ := hat
    cases hcur
    cases his.symm.trans his'
    have hstep := (hT.framed.completes ht₃).step M st (openIf_self his)
    rw [if_pos rfl, hk]
    refine Lands.of_reaches (.next hstep (.refl _)) ?_
    by_cases hc : M.truth cval st
    · rw [if_pos hc, if_pos hc]
      exact htrue .start (s.blocks.length, 0) st rfl ⟨[], rfl, (hnew 0 (by decide)).empty, rfl⟩
    · rw [if_neg hc, if_neg hc]
      exact hfalse .start (s.blocks.length + 2, 0) st rfl
        ⟨[], rfl, (hfb₃.branchTo _).empty, rfl⟩
  · rw [if_neg hstart]
    by_cases hx₁ : x.within lt lo mid
    · rw [if_pos hx₁]
      exact htrue x p st hx₁ (hat.elsewhere hstart)
    · rw [if_neg hx₁]
      exact hfalse x p st ((within_append hx).resolve_left hx₁) (hat.elsewhere hstart)

theorem simulated_if {cond trueBlock falseBlock : BnodeTree} (hc : Simulated kept fn cond)
    (ht : Simulated kept fn trueBlock) (hf : Simulated kept fn falseBlock) :
    Simulated kept fn (.ifStmt cond trueBlock falseBlock) := by
  intro s s' cur cur' d last hready hregular hwalk
  simp only [walkWith, Option.bind_eq_bind, Option.bind_eq_some_iff] at hwalk
  obtain ⟨⟨cur₁, s₁⟩, hcond, cval, hcval, b, rfl, ⟨tsucc, s₃⟩, htrue, ⟨fsucc, s₅⟩, hfalse, hwalk⟩ :=
    hwalk
  cases hwalk
  dsimp only at htrue hfalse ⊢
  simp only [BnodeTree.isRegular, Bool.and_eq_true] at hregular
  rw [BnodeTree.labels, List.append_assoc] at hready ⊢
  obtain ⟨hcode, hstops⟩ := hc d false hready.first hregular.1.1 hcond
  have hready₁ := hready.after hcode.framed (hstops.live rfl)
    (hready.finInPad.of_rest hstops.rest)
  obtain ⟨is, his, -⟩ := hready₁.live b rfl
  have hlt : b < s₁.blocks.length := hready₁.live.lt rfl
  -- the arms are walked from blocks of their own
  have hopen : Framed [] s₁ (some b) (s₁.openIf b cval) none :=
    ((Framed.refl hready₁.labelled).mkLLVMBlocks 3).close
      ((mkLLVMBlocks_old s₁ 3 hlt).trans his) rfl
  have hnew : ∀ k < 3, (s₁.openIf b cval).Reserved none (s₁.blocks.length + k) := fun k hk =>
    ⟨openIf_new hk hlt, plain_mkLLVMBlocks hready₁.labelled 3 k,
      fun h => Option.some_ne_none _ h.symm⟩
  have hrestT : (s₁.openIf b cval).rest = s.rest.keep cond.returns := by
    rw [openIf, rest_push, rest_mkLLVMBlocks, hstops.rest]
  have hin := hopen.moveTo (b := s₁.blocks.length) (Nat.le_refl _) (hnew 0 (by decide)).plain
  have hreadyT : Ready (trueBlock.labels ++ falseBlock.labels) (s₁.openIf b cval)
      (some s₁.blocks.length) :=
    hready₁.step hin (live_of_nil (hnew 0 (by decide)).empty)
      (hready.finInPad.of_rest hrestT)
  obtain ⟨hcodeT, hstopsT⟩ := ht (d + cond.defers) false hreadyT.first
    (by rw [show (s₁.openIf b cval).padBlockStack = s.padBlockStack from congrArg Rest.pads hrestT]
        exact hregular.1.2) htrue
  have hliveT := hstopsT.live rfl
  have hfb := (hcodeT.framed.reserved ((hnew 2 (by decide)).moveTo
    (add_ne_add s₁.blocks.length (j := 0) (by decide)))).branchTo (s₁.blocks.length + 1)
  have hrestF : (s₃.branchTo tsucc (s₁.blocks.length + 1)).rest =
      s.rest.keep (cond.returns ++ trueBlock.returns) := by
    rw [rest_branchTo, hstopsT.rest, hrestT, Rest.keep_append]
  have hreadyF : Ready falseBlock.labels (s₃.branchTo tsucc (s₁.blocks.length + 1))
      (some (s₁.blocks.length + 2)) :=
    hready₁.after (((hin.trans hcodeT.framed).branchTo hliveT _).moveTo (Nat.le_add_right _ _)
      hfb.plain) (live_of_nil hfb.empty) (hready.finInPad.of_rest hrestF)
  obtain ⟨hcodeF, hstopsF⟩ := hf (d + cond.defers + trueBlock.defers) false hreadyF
    (by rw [show (s₃.branchTo tsucc (s₁.blocks.length + 1)).padBlockStack = s.padBlockStack from
          congrArg Rest.pads hrestF]
        exact hregular.2) hfalse
  have hfinT : (s₁.openIf b cval).finallyBlock = s.finallyBlock := congrArg Rest.fin hrestT
  have hfinF : (s₃.branchTo tsucc (s₁.blocks.length + 1)).finallyBlock = s.finallyBlock :=
    congrArg Rest.fin hrestF
  rw [hfinT] at hcodeT
  rw [hfinF] at hcodeF
  have hrest₃ : s₃.rest = s₁.rest.keep trueBlock.returns := by
    rw [hstopsT.rest, hrestT, hstops.rest]
  obtain ⟨harms, hlive'⟩ := arms_translated hready₁.labelled hready₁.live hcodeT hliveT hcodeF
    (hstopsF.live rfl) (congrArg Rest.pads hrest₃) (congrArg Rest.fin hrest₃)
    (Nat.le_add_right _ _) (Nat.le_add_right _ _)
  rw [BnodeTree.defers, BnodeTree.returns, ← Nat.add_assoc, ← Nat.add_assoc]
  refine ⟨(hcode.andThen harms hstops.pads hstops.fin (Nat.le_add_right _ _)
    (by omega)).congr fun M x st hx => ?_, fun _ => hlive', ?_, rfl⟩
  · rw [Meaning.run, value_of_valueOf hcval, EntryPoint.into, EntryPoint.into]
    by_cases hx₁ : x.within cond.labels d (d + cond.defers)
    · rw [if_pos hx₁, if_pos hx₁]
      rfl
    · have hne : x ≠ .start := by
        rintro rfl
        exact hx₁ rfl
      rw [if_neg hx₁, if_neg hx₁, if_neg hne]
  · rw [rest_branchTo, hstopsF.rest, hrestF, Rest.keep_append]

end Statements

end GenBlocks

end Dragongo
