import Dragongo.ExpressionCode

/-!
# What becomes of instructions and variables

The walk of a statement puts some instructions into blocks, deletes others, and declares the
variables of the blocks in it.  Which, and in which order, can be read off the statement.
-/

namespace Dragongo

namespace BnodeTree

mutual
/-- Whether control is still somewhere after the statement. -/
def ends (live : Bool) : BnodeTree → Bool
  | expr kids _ _ => endsAll live kids
  | exprStmt e => e.ends live
  | block _ stmts => endsAll live stmts
  | ifStmt .. | switchStmt .. | labelStmt _ => true
  | gotoStmt _ | returnStmt .. => false
  | deferStmt undefer _ => undefer.ends true
  | excepStmt _ _ hasFinally finally_ => !hasFinally || finally_.ends true
def endsAll (live : Bool) : List BnodeTree → Bool
  | [] => live
  | n :: ns => endsAll (n.ends live) ns
end

mutual
/-- The return statements, in order. -/
def returns : BnodeTree → List (BnodeTree × InstRef)
  | expr kids _ _ => returnsAll kids
  | exprStmt e => e.returns
  | block _ stmts => returnsAll stmts
  | ifStmt cond trueBlock falseBlock => cond.returns ++ trueBlock.returns ++ falseBlock.returns
  | switchStmt swvalue _ stmts => swvalue.returns ++ returnsAll stmts
  | gotoStmt _ | labelStmt _ => []
  | returnStmt re ri => [(re, ri)]
  | deferStmt undefer defer => undefer.returns ++ defer.returns
  | excepStmt body onexception _ finally_ =>
    body.returns ++ onexception.returns ++ finally_.returns
def returnsAll : List BnodeTree → List (BnodeTree × InstRef)
  | [] => []
  | n :: ns => n.returns ++ returnsAll ns
end

end BnodeTree

inductive Event
  | place (i : InstRef)
  | drop (i : InstRef)
  | declare (vars : List Bvariable)
deriving DecidableEq, Repr

/-- Where a statement is: whether control is anywhere, whether a call has a landing pad,
whether a return is one to a finally part, and whether such a return has been kept. -/
structure Ctx where
  live : Bool
  pad : Bool
  fin : Bool
  taken : Bool
deriving DecidableEq, Repr

namespace Ctx

def after (c : Ctx) (n : BnodeTree) : Ctx :=
  { c with live := n.ends c.live, taken := c.taken || c.fin && !n.returns.isEmpty }

def afterAll (c : Ctx) (ns : List BnodeTree) : Ctx :=
  { c with live := BnodeTree.endsAll c.live ns,
           taken := c.taken || c.fin && !(BnodeTree.returnsAll ns).isEmpty }

/-- Another block, where control is. -/
def jump (c : Ctx) : Ctx := { c with live := true }

/-- The body of an exception statement. -/
def excep (live hasFinally : Bool) : Ctx := ⟨live, true, hasFinally, false⟩

/-- Outside of the body of an exception statement. -/
def top (live taken : Bool) : Ctx := ⟨live, false, false, taken⟩

end Ctx

/-- An instruction is placed or deleted, and a call with a landing pad is neither. -/
def instEvents (fn : Instructions) (c : Ctx) (insts : List InstRef) : List Event :=
  insts.flatMap fun i =>
    if c.live then if c.pad ∧ fn.mayThrow i then [] else [.place i] else [.drop i]

/-- A return that is not kept for later. -/
def returnEvents (live : Bool) (ri : InstRef) : List Event := if live then [] else [.drop ri]

/-- The events of a return that has been kept for the end of a finally part. -/
def keptReturn (kept : Ctx → BnodeTree → List Event) (live : Bool) :
    Option (BnodeTree × InstRef) → List Event
  | none => []
  | some (re, ri) => kept (.top live true) re ++ returnEvents live ri

mutual
/-- The events of the walk, where `kept` gives those of a return's expression that comes after
a finally part. -/
def eventsWith (kept : Ctx → BnodeTree → List Event) (fn : Instructions) (c : Ctx) :
    BnodeTree → List Event
  | .expr kids _ insts => eventsAllWith kept fn c kids ++ instEvents fn (c.afterAll kids) insts
  | .exprStmt e => eventsWith kept fn c e
  | .block vars stmts => eventsAllWith kept fn c stmts ++ [.declare vars]
  | .ifStmt cond trueBlock falseBlock =>
    eventsWith kept fn c cond ++ eventsWith kept fn (c.after cond).jump trueBlock ++
      eventsWith kept fn ((c.after cond).jump.after trueBlock).jump falseBlock
  | .switchStmt swvalue _ stmts =>
    eventsWith kept fn c swvalue ++ eventsCasesWith kept fn (c.after swvalue).jump stmts
  | .gotoStmt _ | .labelStmt _ => []
  | .returnStmt re ri =>
    if c.fin then
      if c.taken then (BnodeTree.returnStmt re ri).ownInsts.flatten.map .drop else []
    else eventsWith kept fn c re ++ returnEvents (re.ends c.live) ri
  | .deferStmt undefer defer =>
    eventsWith kept fn { c.jump with pad := true } undefer ++
      eventsWith kept fn (c.jump.after undefer).jump defer
  | .excepStmt body onexception hasFinally finally_ =>
    eventsWith kept fn (.excep c.live hasFinally) body ++
      eventsWith kept fn ((Ctx.excep c.live hasFinally).after body).jump onexception ++
        if hasFinally then
          eventsWith kept fn (.top true (body.returns ++ onexception.returns).head?.isSome)
              finally_ ++
            keptReturn kept (finally_.ends true) (body.returns ++ onexception.returns).head?
        else []
def eventsAllWith (kept : Ctx → BnodeTree → List Event) (fn : Instructions) (c : Ctx) :
    List BnodeTree → List Event
  | [] => []
  | n :: ns => eventsWith kept fn c n ++ eventsAllWith kept fn (c.after n) ns
def eventsCasesWith (kept : Ctx → BnodeTree → List Event) (fn : Instructions) (c : Ctx) :
    List BnodeTree → List Event
  | [] => []
  | st :: stmts => eventsWith kept fn c st ++ eventsCasesWith kept fn (c.after st).jump stmts
end

def keptEvents (fn : Instructions) : Ctx → BnodeTree → List Event :=
  eventsWith (fun _ _ => []) fn

/-- The events of the walk of a function's code. -/
def events (fn : Instructions) (code : BnodeTree) : List Event :=
  eventsWith (keptEvents fn) fn (.top true false) code

/-! ## What the events leave -/

/-- The part of the state that the events are about. -/
structure Effects where
  placed : InstRef → Bool
  dropped : InstRef → Bool
  declared : List Bvariable
  decls : List VarDecl

namespace Effects

def insertVarDecl (a : Effects) (v : Bvariable) : Effects :=
  match v.initializer with
  | none => a
  | some i => { a with decls := a.decls ++ [⟨v.id, a.placed i && !a.dropped i⟩] }

def processVars (a : Effects) : List Bvariable → Effects
  | [] => a
  | v :: vars =>
    if v.isTemporary ∨ v ∈ a.declared then a.processVars vars
    else (insertVarDecl { a with declared := v :: a.declared } v).processVars vars

def step (a : Effects) : Event → Effects
  | .place i => { a with placed := fun j => a.placed j || j == i }
  | .drop i => { a with dropped := fun j => a.dropped j || j == i }
  | .declare vars => a.processVars vars

def run (a : Effects) (es : List Event) : Effects := es.foldl step a

theorem run_nil (a : Effects) : a.run [] = a := rfl

theorem run_append (a : Effects) (es es' : List Event) : a.run (es ++ es') = (a.run es).run es' :=
  List.foldl_append

theorem run_drops (a : Effects) (own : List InstRef) :
    a.run (own.map .drop) = { a with dropped := fun j => a.dropped j || decide (j ∈ own) } := by
  induction own generalizing a with
  | nil => simp [run]
  | cons i own ih =>
    have hstep : a.run ((i :: own).map .drop) = (a.step (.drop i)).run (own.map .drop) := rfl
    rw [hstep, ih]
    simp only [step, List.mem_cons, Bool.decide_or, ← Bool.or_assoc, Effects.mk.injEq, true_and,
      and_self, and_true]
    funext j
    rw [beq_eq_decide]

end Effects

namespace GenBlocks

def effects (s : GenBlocks) : Effects where
  placed := s.placed
  dropped i := decide (i ∈ s.discarded)
  declared := s.declared
  decls := s.decls

/-! ## Where instructions are -/

section Placed

variable (s : GenBlocks) {b : BlockRef} {i : BlockInst} {j : InstRef}

theorem placed_iff : s.placed j ↔ ∃ (c : ℕ) (is : List BlockInst), s.blocks[c]? = some is ∧
    BlockInst.inst j ∈ is := by
  simp only [placed, List.any_eq_true, decide_eq_true_eq, List.mem_iff_getElem?]
  constructor
  · rintro ⟨is, ⟨c, hc⟩, hmem⟩
    exact ⟨c, is, hc, hmem⟩
  · rintro ⟨c, is, hc, hmem⟩
    exact ⟨is, ⟨c, hc⟩, hmem⟩

theorem placed_push (hb : (b : ℕ) < s.blocks.length) :
    (s.push b i).placed j = (s.placed j || decide (i = .inst j)) := by
  rw [Bool.eq_iff_iff, Bool.or_eq_true, decide_eq_true_eq, placed_iff, placed_iff]
  obtain ⟨is, his⟩ : ∃ is, s.blocks[(b : ℕ)]? = some is := ⟨_, List.getElem?_eq_getElem hb⟩
  constructor
  · rintro ⟨c, is', hc, hmem⟩
    by_cases hcb : c = b
    · subst hcb
      rw [push_self s his] at hc
      cases hc
      rcases List.mem_append.mp hmem with hmem | hmem
      · exact Or.inl ⟨c, is, his, hmem⟩
      · exact Or.inr (List.mem_singleton.mp hmem).symm
    · rw [push_ne s hcb] at hc
      exact Or.inl ⟨c, is', hc, hmem⟩
  · rintro (⟨c, is', hc, hmem⟩ | hi)
    · obtain ⟨is'', hc', hp⟩ := s.push_extends b i c is' hc
      exact ⟨c, is'', hc', hp.subset hmem⟩
    · exact ⟨b, _, push_self s his, List.mem_append_right _ (List.mem_singleton.mpr hi.symm)⟩

theorem placed_mkLLVMBlocks (n : ℕ) : (s.mkLLVMBlocks n).placed j = s.placed j := by
  simp only [placed, mkLLVMBlocks_blocks, List.any_append, List.any_replicate]
  simp

end Placed

theorem Extends.length_le {bs bs' : List (List BlockInst)} (h : Extends bs bs') :
    bs.length ≤ bs'.length := by
  by_contra hlt
  have hlt : bs'.length < bs.length := Nat.lt_of_not_le hlt
  obtain ⟨is', his', -⟩ := h _ _ (List.getElem?_eq_getElem hlt)
  rw [List.getElem?_eq_none (Nat.le_refl _)] at his'
  cases his'

theorem length_branchTo (s : GenBlocks) (cur : Option BlockRef) (target : BlockRef) :
    (s.branchTo cur target).blocks.length = s.blocks.length := by
  unfold branchTo
  cases cur with
  | none => rfl
  | some b =>
    dsimp only
    split_ifs
    · rfl
    · exact length_push s

theorem length_leave (s : GenBlocks) (cur : Option BlockRef) (target : BlockRef) :
    (s.leave cur target).blocks.length = s.blocks.length := by
  cases cur with
  | none => rfl
  | some b => exact length_push s

theorem length_landAt (s : GenBlocks) (pad target : BlockRef) :
    (s.landAt pad target).blocks.length = s.blocks.length := by
  rw [landAt, length_push, length_push]

theorem length_mkLLVMBlocks (s : GenBlocks) (n : ℕ) :
    (s.mkLLVMBlocks n).blocks.length = s.blocks.length + n := by
  rw [mkLLVMBlocks_blocks, List.length_append, List.length_replicate]

/-! ## What a part of the walk does -/

/-- The walk is at the end of this block, or nowhere. -/
structure Valid (s : GenBlocks) (cur : Option BlockRef) : Prop where
  debug : s.createDebugMetaData
  pos : 0 < s.blocks.length
  labels : ∀ l b, s.labelmap l = some b → 0 < b ∧ b < s.blocks.length
  cursor : ∀ b, cur = some b → b < s.blocks.length

/-- From one state of the walk to another one, with these events in between.  The entry block
is left alone when control is somewhere else. -/
structure Walked (s : GenBlocks) (cur : Option BlockRef) (es : List Event) (s' : GenBlocks)
    (cur' : Option BlockRef) : Prop where
  effects : s'.effects = s.effects.run es
  valid : Valid s' cur'
  grown : Extends s.blocks s'.blocks
  entry : cur ≠ some 0 → s'.blocks[0]? = s.blocks[0]? ∧ cur' ≠ some 0

section Walked

variable {s s' s'' : GenBlocks} {cur cur' cur'' : Option BlockRef} {es es' : List Event}
  {b : BlockRef} {bi : BlockInst} {i : InstRef}

theorem Walked.refl (h : Valid s cur) : Walked s cur [] s cur :=
  ⟨rfl, h, .refl _, fun hne => ⟨rfl, hne⟩⟩

theorem Walked.trans (h : Walked s cur es s' cur') (h' : Walked s' cur' es' s'' cur'') :
    Walked s cur (es ++ es') s'' cur'' where
  effects := by
    rw [h'.effects, h.effects, Effects.run_append]
  valid := h'.valid
  grown := h.grown.trans h'.grown
  entry := by
    intro hne
    obtain ⟨hblock, hne'⟩ := h.entry hne
    obtain ⟨hblock', hne''⟩ := h'.entry hne'
    exact ⟨hblock'.trans hblock, hne''⟩

/-- Other parts of the state do not matter. -/
theorem Walked.congr (h : Walked s cur es s' cur') (hblocks : s''.blocks = s'.blocks)
    (heffects : s''.effects = s'.effects) (hlabels : s''.labelmap = s'.labelmap)
    (hdebug : s''.createDebugMetaData = s'.createDebugMetaData) : Walked s cur es s'' cur' where
  effects := heffects.trans h.effects
  valid := ⟨hdebug ▸ h.valid.debug, hblocks ▸ h.valid.pos, hblocks ▸ hlabels ▸ h.valid.labels,
    hblocks ▸ h.valid.cursor⟩
  grown := hblocks ▸ h.grown
  entry := hblocks ▸ h.entry

theorem Walked.stop (h : Walked s cur es s' cur') : Walked s cur es s' none where
  effects := h.effects
  valid := ⟨h.valid.debug, h.valid.pos, h.valid.labels, fun _ hb => nomatch hb⟩
  grown := h.grown
  entry hne := ⟨(h.entry hne).1, fun h0 => nomatch h0⟩

theorem Walked.jump (h : Walked s cur es s' cur') (h0 : (0 : ℕ) < b)
    (hb : (b : ℕ) < s'.blocks.length) : Walked s cur es s' (some b) where
  effects := h.effects
  valid := by
    refine ⟨h.valid.debug, h.valid.pos, h.valid.labels, fun b' hb' => ?_⟩
    cases hb'
    exact hb
  grown := h.grown
  entry := by
    refine fun hne => ⟨(h.entry hne).1, fun hb' => ?_⟩
    cases hb'
    exact lt_irrefl _ h0

theorem effects_push (hb : (b : ℕ) < s.blocks.length) (hbi : ∀ j, bi ≠ .inst j) :
    (s.push b bi).effects = s.effects := by
  have hplaced : (s.push b bi).placed = s.placed := by
    funext j
    rw [placed_push s hb, decide_eq_false (hbi j), Bool.or_false]
  unfold effects
  rw [hplaced]
  rfl

theorem Valid.push (h : Valid s cur) (b : BlockRef) (bi : BlockInst) : Valid (s.push b bi) cur := by
  have hlen := s.length_push (b := b) (i := bi)
  refine ⟨h.debug, hlen ▸ h.pos, fun l c hl => ?_, hlen ▸ h.cursor⟩
  rw [hlen]
  exact h.labels l c hl

/-- A transfer of control, or a landing pad, in another block than the entry block. -/
theorem Walked.pushAt (h : Walked s cur es s' cur') (h0 : (0 : ℕ) < b)
    (hb : (b : ℕ) < s'.blocks.length) (hbi : ∀ j, bi ≠ .inst j) :
    Walked s cur es (s'.push b bi) cur' where
  effects := (effects_push hb hbi).trans h.effects
  valid := h.valid.push b bi
  grown := h.grown.trans (s'.push_extends b bi)
  entry := by
    intro hne
    rw [push_ne s' (Nat.ne_of_lt h0)]
    exact h.entry hne

/-- A transfer of control at the end of the block where control is. -/
theorem Walked.push (h : Walked s cur es s' (some b)) (hbi : ∀ j, bi ≠ .inst j) :
    Walked s cur es (s'.push b bi) (some b) where
  effects := (effects_push (h.valid.cursor b rfl) hbi).trans h.effects
  valid := h.valid.push b bi
  grown := h.grown.trans (s'.push_extends b bi)
  entry := by
    intro hne
    obtain ⟨hblock, hne'⟩ := h.entry hne
    have hb0 : (0 : ℕ) ≠ b := fun h0 => hne' (congrArg some h0.symm)
    rw [push_ne s' hb0]
    exact ⟨hblock, hne'⟩

/-- Back to where control was before other blocks were walked. -/
theorem Walked.resume (h : Walked s cur es s' cur') {cur₁ cur₂ : Option BlockRef}
    (h' : Walked s' cur₁ es' s'' cur₂) (hne : cur₁ ≠ some 0) :
    Walked s cur (es ++ es') s'' cur' where
  effects := by
    rw [h'.effects, h.effects, Effects.run_append]
  valid := ⟨h'.valid.debug, h'.valid.pos, h'.valid.labels, fun b hb =>
    Nat.lt_of_lt_of_le (h.valid.cursor b hb) h'.grown.length_le⟩
  grown := h.grown.trans h'.grown
  entry := fun hcur => ⟨(h'.entry hne).1.trans (h.entry hcur).1, (h.entry hcur).2⟩

theorem Walked.pushInst (h : Walked s cur es s' (some b)) (i : InstRef) :
    Walked s cur (es ++ [.place i]) (s'.push b (.inst i)) (some b) where
  effects := by
    have hplaced : (s'.push b (.inst i)).placed = fun j => s'.placed j || j == i := by
      funext j
      rw [placed_push s' (h.valid.cursor b rfl), beq_eq_decide]
      simp only [BlockInst.inst.injEq, eq_comm]
    rw [Effects.run_append, ← h.effects]
    unfold GenBlocks.effects
    rw [hplaced]
    rfl
  valid := h.valid.push b _
  grown := h.grown.trans (s'.push_extends b _)
  entry := by
    intro hne
    obtain ⟨hblock, hne'⟩ := h.entry hne
    have hb0 : (0 : ℕ) ≠ b := fun h0 => hne' (congrArg some h0.symm)
    rw [push_ne s' hb0]
    exact ⟨hblock, hne'⟩

theorem mkLLVMBlocks_eq (s : GenBlocks) (n : ℕ) :
    s.mkLLVMBlocks n = { s with blocks := (s.mkLLVMBlocks n).blocks } := by
  induction n generalizing s with
  | zero => rfl
  | succ n ih => exact ih s.mkLLVMBlock.2

theorem Walked.mkLLVMBlocks (h : Walked s cur es s' cur') (n : ℕ) :
    Walked s cur es (s'.mkLLVMBlocks n) cur' := by
  have hlen : s'.blocks.length ≤ (s'.mkLLVMBlocks n).blocks.length := by
    rw [mkLLVMBlocks_blocks, List.length_append]
    exact Nat.le_add_right _ _
  have hold : ∀ c : ℕ, c < s'.blocks.length →
      (s'.mkLLVMBlocks n).blocks[c]? = s'.blocks[c]? := by
    intro c hc
    rw [mkLLVMBlocks_blocks, List.getElem?_append_left hc]
  refine ⟨?_, ⟨?_, Nat.lt_of_lt_of_le h.valid.pos hlen, fun l c hl => ?_, fun c hc => ?_⟩, ?_, ?_⟩
  · have hplaced : (s'.mkLLVMBlocks n).placed = s'.placed := by
      funext j
      exact s'.placed_mkLLVMBlocks n
    rw [← h.effects]
    unfold GenBlocks.effects
    rw [hplaced, mkLLVMBlocks_eq]
  · rw [mkLLVMBlocks_eq]
    exact h.valid.debug
  · rw [mkLLVMBlocks_eq] at hl
    exact (h.valid.labels l c hl).imp_right fun hc => Nat.lt_of_lt_of_le hc hlen
  · exact Nat.lt_of_lt_of_le (h.valid.cursor c hc) hlen
  · refine h.grown.trans fun c is hc => ⟨is, ?_, is.prefix_refl⟩
    rw [hold c (List.getElem?_eq_some_iff.mp hc).1, hc]
  · rw [hold 0 h.valid.pos]
    exact h.entry

theorem Walked.mkLLVMBlock (h : Walked s cur es s' cur') :
    Walked s cur es s'.mkLLVMBlock.2 cur' := h.mkLLVMBlocks 1

theorem Walked.branchTo (h : Walked s cur es s' cur') (target : BlockRef) :
    Walked s cur es (s'.branchTo cur' target) cur' := by
  unfold GenBlocks.branchTo
  cases cur' with
  | none => exact h
  | some b =>
    dsimp only
    split_ifs
    · exact h
    · exact h.push fun _ hj => nomatch hj

theorem Walked.leave (h : Walked s cur es s' cur') (target : BlockRef) :
    Walked s cur es (s'.leave cur' target) cur' := by
  cases cur' with
  | none => exact h
  | some b => exact h.push fun _ hj => nomatch hj

theorem Walked.landAt {pad target : BlockRef} (h : Walked s cur es s' cur') (h0 : (0 : ℕ) < pad)
    (hpad : (pad : ℕ) < s'.blocks.length) : Walked s cur es (s'.landAt pad target) cur' := by
  have hland : Walked s cur es (s'.push pad .landingPad) cur' :=
    h.pushAt h0 hpad fun _ hj => nomatch hj
  exact hland.pushAt h0 (by rwa [length_push]) fun _ hj => nomatch hj

theorem Walked.getBlockForLabel (h : Walked s cur es s' cur') (lab : LabelId) :
    Walked s cur es (s'.getBlockForLabel lab).2 cur' ∧
      (0 : ℕ) < (s'.getBlockForLabel lab).1 ∧
        (s'.getBlockForLabel lab).1 < (s'.getBlockForLabel lab).2.blocks.length := by
  unfold GenBlocks.getBlockForLabel
  cases hl : s'.labelmap lab with
  | some bb => exact ⟨h, h.valid.labels lab bb hl⟩
  | none =>
    have hw := h.mkLLVMBlock
    have hlen : s'.mkLLVMBlock.2.blocks.length = s'.blocks.length + 1 := by
      simp [GenBlocks.mkLLVMBlock]
    have hnew : s'.blocks.length < s'.mkLLVMBlock.2.blocks.length :=
      hlen ▸ Nat.lt_succ_self _
    refine ⟨⟨hw.effects, ⟨hw.valid.debug, hw.valid.pos, fun l b hb => ?_, hw.valid.cursor⟩,
      hw.grown, hw.entry⟩, h.valid.pos, hnew⟩
    dsimp only at hb
    split_ifs at hb
    · cases hb
      exact ⟨h.valid.pos, hnew⟩
    · exact hw.valid.labels l b hb

theorem Walked.discard {fn : Instructions} (h : Walked s cur es s' cur')
    (hd : s'.discard fn i = some s'') : Walked s cur (es ++ [.drop i]) s'' cur' := by
  unfold GenBlocks.discard at hd
  split_ifs at hd
  cases hd
  refine ⟨?_, ⟨h.valid.debug, h.valid.pos, h.valid.labels, h.valid.cursor⟩, h.grown, h.entry⟩
  rw [Effects.run_append, ← h.effects]
  simp only [GenBlocks.effects, Effects.run, List.foldl_cons, List.foldl_nil, Effects.step,
    Effects.mk.injEq, and_true, List.mem_cons, Bool.decide_or]
  refine ⟨rfl, ?_⟩
  funext j
  rw [Bool.or_comm, beq_eq_decide]

theorem Walked.destroyOwn {fn : Instructions} {own : List InstRef} (h : Walked s cur es s' cur')
    (hd : s'.destroyOwn fn own = some s'') :
    Walked s cur (es ++ own.map .drop) s'' cur' := by
  unfold GenBlocks.destroyOwn at hd
  split_ifs at hd
  cases hd
  refine ⟨?_, ⟨h.valid.debug, h.valid.pos, h.valid.labels, h.valid.cursor⟩, h.grown, h.entry⟩
  rw [Effects.run_append, ← h.effects, Effects.run_drops]
  simp only [GenBlocks.effects, Effects.mk.injEq, and_true, List.mem_append, List.mem_reverse,
    Bool.decide_or]
  refine ⟨rfl, ?_⟩
  funext j
  rw [Bool.or_comm]

theorem Walked.destroy {fn : Instructions} {re : BnodeTree} {ri : InstRef}
    (h : Walked s cur es s' cur') (hd : s'.destroy fn re ri = some s'') :
    Walked s cur (es ++ (BnodeTree.returnStmt re ri).ownInsts.flatten.map .drop) s'' cur' := by
  unfold GenBlocks.destroy at hd
  generalize (BnodeTree.returnStmt re ri).ownInsts = owns at hd ⊢
  induction owns generalizing s' es with
  | nil =>
    cases hd
    simpa using h
  | cons own below ih =>
    rw [List.foldlM_cons] at hd
    obtain ⟨s₁, hown, hd⟩ := Option.bind_eq_some_iff.mp hd
    have hrest := ih (h.destroyOwn hown) hd
    rwa [List.append_assoc, ← List.map_append, ← List.flatten_cons] at hrest

theorem effects_processVars (s : GenBlocks) (vars : List Bvariable) :
    (s.processVars vars).effects = s.effects.processVars vars ∧
      (s.processVars vars).labelmap = s.labelmap ∧
        (s.processVars vars).createDebugMetaData = s.createDebugMetaData := by
  induction vars generalizing s with
  | nil => exact ⟨rfl, rfl, rfl⟩
  | cons v vars ih =>
    unfold processVars Effects.processVars
    by_cases hv : v.isTemporary ∨ v ∈ s.declared
    · have hv' : v.isTemporary ∨ v ∈ s.effects.declared := hv
      rw [if_pos hv, if_pos hv']
      exact ih s
    · have hv' : ¬(v.isTemporary ∨ v ∈ s.effects.declared) := hv
      rw [if_neg hv, if_neg hv']
      obtain ⟨heff, hlabels, hdebug⟩ := ih (insertVarDecl { s with declared := v :: s.declared } v)
      rw [heff, hlabels, hdebug]
      unfold insertVarDecl Effects.insertVarDecl
      cases v.initializer with
      | none => exact ⟨rfl, rfl, rfl⟩
      | some i =>
        refine ⟨?_, rfl, rfl⟩
        simp only [GenBlocks.effects, decide_not]
        rfl

theorem Walked.endLexicalBlock (h : Walked s cur es s' cur') (vars : List Bvariable) :
    Walked s cur (es ++ [.declare vars]) (s'.endLexicalBlock vars) cur' := by
  have hblocks := endLexicalBlock_blocks s' vars
  obtain ⟨heff, hlabels, hdebug⟩ := effects_processVars s' vars
  have heq : s'.endLexicalBlock vars = s'.processVars vars := if_pos h.valid.debug
  rw [heq] at hblocks ⊢
  refine ⟨?_, ⟨hdebug ▸ h.valid.debug, hblocks ▸ h.valid.pos, hblocks ▸ hlabels ▸ h.valid.labels,
    hblocks ▸ h.valid.cursor⟩, hblocks ▸ h.grown, hblocks ▸ h.entry⟩
  rw [heff, Effects.run_append, ← h.effects]
  rfl

end Walked

/-! ## Exceptions and returns -/

/-- The part of the state that is about exceptions, and returns to a finally part. -/
structure Rest where
  pads : List BlockRef
  fin : Option BlockRef
  cached : Option (BnodeTree × InstRef)

def rest (s : GenBlocks) : Rest := ⟨s.padBlockStack, s.finallyBlock, s.cachedReturn⟩

namespace Rest

/-- The first of some returns to a finally part is kept. -/
def keep (r : Rest) (returns : List (BnodeTree × InstRef)) : Rest :=
  { r with cached := if r.fin.isSome then r.cached.or returns.head? else r.cached }

def ctx (r : Rest) (live : Bool) : Ctx := ⟨live, !r.pads.isEmpty, r.fin.isSome, r.cached.isSome⟩

variable (r : Rest) (live : Bool)

theorem keep_nil : r.keep [] = r := by
  unfold keep
  split_ifs <;> simp

theorem keep_append (returns returns' : List (BnodeTree × InstRef)) :
    (r.keep returns).keep returns' = r.keep (returns ++ returns') := by
  unfold keep
  split_ifs <;> simp [List.head?_append, Option.or_assoc]

theorem ctx_after (n : BnodeTree) :
    (r.ctx live).after n = (r.keep n.returns).ctx (n.ends live) := by
  unfold ctx Ctx.after keep
  by_cases hfin : r.fin.isSome
  · cases n.returns <;> simp [hfin]
  · simp [hfin]

theorem ctx_afterAll (ns : List BnodeTree) : (r.ctx live).afterAll ns =
    (r.keep (BnodeTree.returnsAll ns)).ctx (BnodeTree.endsAll live ns) := by
  unfold ctx Ctx.afterAll keep
  by_cases hfin : r.fin.isSome
  · cases BnodeTree.returnsAll ns <;> simp [hfin]
  · simp [hfin]

theorem ctx_jump : (r.ctx live).jump = r.ctx true := rfl

end Rest

section Rest

variable (s : GenBlocks)

theorem rest_push (b : BlockRef) (i : BlockInst) : (s.push b i).rest = s.rest := rfl

theorem rest_mkLLVMBlocks (n : ℕ) : (s.mkLLVMBlocks n).rest = s.rest := by
  rw [mkLLVMBlocks_eq]
  rfl

theorem rest_leave (cur : Option BlockRef) (target : BlockRef) :
    (s.leave cur target).rest = s.rest := by
  cases cur <;> rfl

theorem rest_setPads (pads : List BlockRef) :
    (s.setPads pads).rest = { s.rest with pads := pads } := rfl

theorem rest_setFinally (fin : Option BlockRef) :
    (s.setFinally fin).rest = { s.rest with fin := fin } := rfl

theorem rest_landAt (pad target : BlockRef) : (s.landAt pad target).rest = s.rest := rfl

theorem rest_branchTo (cur : Option BlockRef) (target : BlockRef) :
    (s.branchTo cur target).rest = s.rest := by
  unfold branchTo
  cases cur with
  | none => rfl
  | some b =>
    dsimp only
    split_ifs <;> rfl

theorem rest_getBlockForLabel (lab : LabelId) : (s.getBlockForLabel lab).2.rest = s.rest := by
  unfold getBlockForLabel
  cases s.labelmap lab <;> rfl

theorem rest_endLexicalBlock (vars : List Bvariable) :
    (s.endLexicalBlock vars).rest = s.rest := by
  have hprocess : ∀ s : GenBlocks, (s.processVars vars).rest = s.rest := by
    induction vars with
    | nil => exact fun _ => rfl
    | cons v vars ih =>
      intro s
      unfold processVars insertVarDecl
      split_ifs
      · exact ih s
      · rw [ih]
        split <;> rfl
  unfold endLexicalBlock
  split_ifs
  · exact hprocess s
  · rfl

variable {s} {s' : GenBlocks} {fn : Instructions}

theorem rest_discard {i : InstRef} (h : s.discard fn i = some s') : s'.rest = s.rest := by
  unfold discard at h
  split_ifs at h
  cases h
  rfl

theorem destroy_eq {re : BnodeTree} {ri : InstRef} (h : s.destroy fn re ri = some s') :
    s' = { s with discarded := s'.discarded } := by
  unfold destroy at h
  generalize (BnodeTree.returnStmt re ri).ownInsts = owns at h
  induction owns generalizing s with
  | nil =>
    cases h
    rfl
  | cons own below ih =>
    rw [List.foldlM_cons] at h
    obtain ⟨s₁, hown, h⟩ := Option.bind_eq_some_iff.mp h
    unfold destroyOwn at hown
    split_ifs at hown
    cases hown
    have hbelow := ih h
    exact hbelow

theorem rest_destroy {re : BnodeTree} {ri : InstRef} (h : s.destroy fn re ri = some s') :
    s'.rest = s.rest := by
  rw [destroy_eq h]
  rfl

end Rest

/-! ## The walk of a statement -/

/-- The walk of a statement, or of several. -/
structure Does (s : GenBlocks) (cur : Option BlockRef) (es : List Event) (s' : GenBlocks)
    (cur' : Option BlockRef) (live : Bool) (returns : List (BnodeTree × InstRef)) : Prop where
  walked : Walked s cur es s' cur'
  live : cur'.isSome = live
  rest : s'.rest = s.rest.keep returns

/-- A return to a finally part is in code with a landing pad. -/
def FinInPad (s : GenBlocks) : Prop := s.rest.fin.isSome → s.rest.pads ≠ []

section Insts

variable {s s₁ s' : GenBlocks} {cur cur₁ cur' : Option BlockRef} {es : List Event}
  {fn : Instructions}

theorem Walked.addInst {i : InstRef} (h : Walked s cur es s₁ cur₁)
    (hadd : s₁.addInst fn cur₁ i = some (cur', s')) :
    Walked s cur (es ++ instEvents fn (s₁.rest.ctx cur₁.isSome) [i]) s' cur' ∧
      cur'.isSome = cur₁.isSome ∧ s'.rest = s₁.rest := by
  unfold GenBlocks.addInst at hadd
  cases cur₁ with
  | none =>
    obtain ⟨s₂, hd, hadd⟩ := Option.map_eq_some_iff.mp hadd
    cases hadd
    exact ⟨h.discard hd, rfl, rest_discard hd⟩
  | some b =>
    dsimp only at hadd
    cases hpads : s₁.padBlockStack with
    | nil =>
      rw [hpads] at hadd
      cases hadd
      have hevents : instEvents fn (s₁.rest.ctx true) [i] = [.place i] := by
        simp [instEvents, Rest.ctx, GenBlocks.rest, hpads]
      exact ⟨hevents ▸ h.pushInst i, rfl, rfl⟩
    | cons pad pads =>
      rw [hpads] at hadd
      dsimp only at hadd
      by_cases hthrow : fn.mayThrow i
      · rw [if_pos hthrow] at hadd
        cases hadd
        have hevents : instEvents fn (s₁.rest.ctx true) [i] = [] := by
          simp [instEvents, Rest.ctx, GenBlocks.rest, hpads, hthrow]
        have hcall : Walked s cur es
            (s₁.mkLLVMBlock.2.push b (.invoke i s₁.blocks.length pad)) (some b) :=
          h.mkLLVMBlock.push fun _ hj => nomatch hj
        have hnew : s₁.blocks.length <
            (s₁.mkLLVMBlock.2.push b (.invoke i s₁.blocks.length pad)).blocks.length := by
          rw [length_push]
          simp [GenBlocks.mkLLVMBlock]
        refine ⟨?_, rfl, rfl⟩
        rw [Option.isSome_some, hevents, List.append_nil]
        exact (hcall.jump h.valid.pos hnew).congr rfl rfl rfl rfl
      · rw [if_neg hthrow] at hadd
        cases hadd
        have hevents : instEvents fn (s₁.rest.ctx true) [i] = [.place i] := by
          simp [instEvents, Rest.ctx, hthrow]
        exact ⟨hevents ▸ h.pushInst i, rfl, rfl⟩

theorem Walked.addInsts {insts : List InstRef} (h : Walked s cur es s₁ cur₁)
    (hadd : s₁.addInsts fn cur₁ insts = some (cur', s')) :
    Walked s cur (es ++ instEvents fn (s₁.rest.ctx cur₁.isSome) insts) s' cur' ∧
      cur'.isSome = cur₁.isSome ∧ s'.rest = s₁.rest := by
  induction insts generalizing s₁ cur₁ es with
  | nil =>
    cases hadd
    exact ⟨by simpa [instEvents] using h, rfl, rfl⟩
  | cons i insts ih =>
    rw [GenBlocks.addInsts] at hadd
    obtain ⟨⟨cur₂, s₂⟩, hi, hadd⟩ := Option.bind_eq_some_iff.mp hadd
    obtain ⟨hw, hlive, hrest⟩ := h.addInst hi
    obtain ⟨hw', hlive', hrest'⟩ := ih hw hadd
    refine ⟨?_, hlive'.trans hlive, hrest'.trans hrest⟩
    rw [hlive, hrest, List.append_assoc] at hw'
    simpa [instEvents] using hw'

end Insts

/-! ## Statements -/

section Statements

variable (kept : Walk) (fn : Instructions) (keptEvents : Ctx → BnodeTree → List Event)

/-- The events of a statement are what its walk does. -/
def Follows (n : BnodeTree) : Prop :=
  ∀ ⦃s : GenBlocks⦄ ⦃cur cur' : Option BlockRef⦄ ⦃s' : GenBlocks⦄,
    walkWith kept fn s cur n = some (cur', s') → Valid s cur → s.FinInPad →
      Does s cur (eventsWith keptEvents fn (s.rest.ctx cur.isSome) n) s' cur'
        (n.ends cur.isSome) n.returns

def AllFollow (ns : List BnodeTree) : Prop :=
  ∀ ⦃s : GenBlocks⦄ ⦃cur cur' : Option BlockRef⦄ ⦃s' : GenBlocks⦄,
    walkAllWith kept fn s cur ns = some (cur', s') → Valid s cur → s.FinInPad →
      Does s cur (eventsAllWith keptEvents fn (s.rest.ctx cur.isSome) ns) s' cur'
        (BnodeTree.endsAll cur.isSome ns) (BnodeTree.returnsAll ns)

variable {kept fn keptEvents}

theorem follows_expr {kids : List BnodeTree} (value : Option NodeValue) (insts : List InstRef)
    (h : AllFollow kept fn keptEvents kids) :
    Follows kept fn keptEvents (.expr kids value insts) := by
  intro s cur cur' s' hwalk hvalid hfin
  rw [walkWith] at hwalk
  obtain ⟨⟨cur₁, s₁⟩, hkids, hinsts⟩ := Option.bind_eq_some_iff.mp hwalk
  have hdoes := h hkids hvalid hfin
  obtain ⟨hw, hlive, hrest⟩ := hdoes.walked.addInsts hinsts
  refine ⟨?_, hlive.trans hdoes.live, hrest.trans hdoes.rest⟩
  rw [eventsWith, Rest.ctx_afterAll, ← hdoes.rest, ← hdoes.live]
  exact hw

theorem follows_block (vars : List Bvariable) {stmts : List BnodeTree}
    (h : AllFollow kept fn keptEvents stmts) : Follows kept fn keptEvents (.block vars stmts) := by
  intro s cur cur' s' hwalk hvalid hfin
  rw [walkWith] at hwalk
  obtain ⟨⟨cur₁, s₁⟩, hstmts, hwalk⟩ := Option.bind_eq_some_iff.mp hwalk
  cases hwalk
  have hdoes := h hstmts hvalid hfin
  refine ⟨?_, hdoes.live, (rest_endLexicalBlock s₁ vars).trans hdoes.rest⟩
  rw [eventsWith]
  exact hdoes.walked.endLexicalBlock vars

theorem allFollow_cons {n : BnodeTree} {ns : List BnodeTree} (h : Follows kept fn keptEvents n)
    (hs : AllFollow kept fn keptEvents ns) : AllFollow kept fn keptEvents (n :: ns) := by
  intro s cur cur' s' hwalk hvalid hfin
  rw [walkAllWith] at hwalk
  obtain ⟨⟨cur₁, s₁⟩, hn, hns⟩ := Option.bind_eq_some_iff.mp hwalk
  have hdoes := h hn hvalid hfin
  have hfin₁ : s₁.FinInPad := by
    unfold FinInPad
    rw [hdoes.rest]
    exact hfin
  have hdoes' := hs hns hdoes.walked.valid hfin₁
  rw [hdoes.rest, hdoes.live, ← Rest.ctx_after] at hdoes'
  refine ⟨?_, hdoes'.live, ?_⟩
  · rw [eventsAllWith]
    exact hdoes.walked.trans hdoes'.walked
  · rw [hdoes'.rest, hdoes.rest, Rest.keep_append, BnodeTree.returnsAll]

theorem FinInPad.of_rest {s s' : GenBlocks} {returns : List (BnodeTree × InstRef)}
    (h : s.FinInPad) (hrest : s'.rest = s.rest.keep returns) : s'.FinInPad := by
  unfold FinInPad
  rw [hrest]
  exact h

theorem follows_goto (label : LabelId) : Follows kept fn keptEvents (.gotoStmt label) := by
  intro s cur cur' s' hwalk hvalid hfin
  obtain ⟨hw, -, -⟩ := (Walked.refl hvalid).getBlockForLabel label
  have hrest := rest_getBlockForLabel s label
  rw [walkWith] at hwalk
  generalize s.getBlockForLabel label = p at hwalk hw hrest
  cases hwalk
  refine ⟨(hw.branchTo _).stop, rfl, ?_⟩
  rw [rest_branchTo, hrest, BnodeTree.returns, Rest.keep_nil]

theorem follows_label (label : LabelId) : Follows kept fn keptEvents (.labelStmt label) := by
  intro s cur cur' s' hwalk hvalid hfin
  obtain ⟨hw, hpos, hlt⟩ := (Walked.refl hvalid).getBlockForLabel label
  have hrest := rest_getBlockForLabel s label
  rw [walkWith] at hwalk
  generalize s.getBlockForLabel label = p at hwalk hw hpos hlt hrest
  cases hwalk
  refine ⟨(hw.leave p.1).jump hpos (by rwa [length_leave]), rfl, ?_⟩
  rw [rest_leave, hrest, BnodeTree.returns, Rest.keep_nil]

/-- The two arms are walked from blocks of their own, and after them control is in a third one. -/
theorem arms_walked {s s₁ s₂ : GenBlocks} {b first : BlockRef} {tsucc fsucc : Option BlockRef}
    {trueBlock falseBlock : BnodeTree} (ht : Follows kept fn keptEvents trueBlock)
    (hf : Follows kept fn keptEvents falseBlock) (hvalid : Valid s (some b)) (hfin : s.FinInPad)
    (h0 : (0 : ℕ) < first) (hlen : first + 3 ≤ s.blocks.length)
    (htrue : walkWith kept fn s (some first) trueBlock = some (tsucc, s₁))
    (hfalse : walkWith kept fn (s₁.branchTo tsucc (first + 1)) (some (first + 2)) falseBlock =
      some (fsucc, s₂)) :
    Walked s (some b) (eventsWith keptEvents fn (s.rest.ctx true) trueBlock ++
        eventsWith keptEvents fn ((s.rest.ctx true).after trueBlock).jump falseBlock)
        (s₂.branchTo fsucc (first + 1)) (some (first + 1)) ∧
      (s₂.branchTo fsucc (first + 1)).rest =
        s.rest.keep (trueBlock.returns ++ falseBlock.returns) := by
  have hin := (Walked.refl hvalid).jump (b := first) h0
    (Nat.lt_of_lt_of_le (Nat.lt_add_of_pos_right (Nat.succ_pos 2)) hlen)
  have htd := ht htrue hin.valid hfin
  have hlenT : first + 3 ≤ s₁.blocks.length := Nat.le_trans hlen htd.walked.grown.length_le
  have hft := (htd.walked.branchTo (first + 1)).jump (b := first + 2) (Nat.succ_pos _) (by
    rw [length_branchTo]
    exact hlenT)
  have hrest : (s₁.branchTo tsucc (first + 1)).rest = s.rest.keep trueBlock.returns :=
    (rest_branchTo _ _ _).trans htd.rest
  have hfd := hf hfalse hft.valid (hfin.of_rest hrest)
  have hlenF : s₁.blocks.length ≤ s₂.blocks.length :=
    length_branchTo s₁ tsucc _ ▸ hfd.walked.grown.length_le
  have hjoin := (hfd.walked.branchTo (first + 1)).jump (b := first + 1) (Nat.succ_pos _) (by
    rw [length_branchTo]
    exact Nat.lt_of_succ_le (Nat.le_trans (Nat.le_of_succ_le hlenT) hlenF))
  refine ⟨?_, ?_⟩
  · have hall := (hin.trans hft).trans hjoin
    rw [hrest] at hall
    rw [Rest.ctx_after, Rest.ctx_jump]
    exact hall
  · rw [rest_branchTo, hfd.rest, hrest, Rest.keep_append]

theorem follows_if {cond trueBlock falseBlock : BnodeTree} (hc : Follows kept fn keptEvents cond)
    (ht : Follows kept fn keptEvents trueBlock) (hf : Follows kept fn keptEvents falseBlock) :
    Follows kept fn keptEvents (.ifStmt cond trueBlock falseBlock) := by
  intro s cur cur' s' hwalk hvalid hfin
  simp only [walkWith, Option.bind_eq_bind, Option.bind_eq_some_iff] at hwalk
  obtain ⟨⟨cur₁, s₁⟩, hcond, cval, -, b, rfl, ⟨tsucc, s₂⟩, htrue, ⟨fsucc, s₃⟩, hfalse, hwalk⟩ :=
    hwalk
  cases hwalk
  dsimp only at htrue hfalse
  have hcd := hc hcond hvalid hfin
  have hbr : Walked s cur _ (s₁.openIf b cval) (some b) :=
    (hcd.walked.mkLLVMBlocks 3).push fun _ hj => nomatch hj
  have hrest : (s₁.openIf b cval).rest = s.rest.keep cond.returns := by
    rw [openIf, rest_push, rest_mkLLVMBlocks, hcd.rest]
  obtain ⟨hw, hrest'⟩ := arms_walked ht hf hbr.valid (hfin.of_rest hrest) hcd.walked.valid.pos
    (Nat.le_of_eq openIf_length.symm) htrue hfalse
  refine ⟨?_, rfl, ?_⟩
  · have hall := hbr.trans hw
    rw [hrest, ← List.append_assoc] at hall
    rw [eventsWith, Rest.ctx_after, Rest.ctx_jump]
    exact hall
  · rw [hrest', hrest, Rest.keep_append, BnodeTree.returns, List.append_assoc]

variable (kept fn keptEvents) in
/-- Each body of a switch is walked from the block of its case. -/
def CasesFollow (stmts : List BnodeTree) : Prop :=
  ∀ ⦃s s' : GenBlocks⦄ ⦃b epilog : BlockRef⦄,
    walkCasesWith kept fn s b epilog stmts = some s' → Valid s none → s.FinInPad →
      (0 : ℕ) < b → b + stmts.length ≤ s.blocks.length →
        Walked s none (eventsCasesWith keptEvents fn (s.rest.ctx true) stmts) s' none ∧
          s'.rest = s.rest.keep (BnodeTree.returnsAll stmts)

theorem casesFollow_cons {st : BnodeTree} {stmts : List BnodeTree}
    (h : Follows kept fn keptEvents st) (hs : CasesFollow kept fn keptEvents stmts) :
    CasesFollow kept fn keptEvents (st :: stmts) := by
  intro s s' b epilog hwalk hvalid hfin h0 hlen
  rw [walkCasesWith] at hwalk
  obtain ⟨⟨cur₁, s₁⟩, hst, hwalk⟩ := Option.bind_eq_some_iff.mp hwalk
  rw [List.length_cons] at hlen
  have hb : (b : ℕ) < s.blocks.length := Nat.lt_of_lt_of_le
    (Nat.lt_add_of_pos_right (Nat.succ_pos _)) hlen
  have hin := (Walked.refl hvalid).jump h0 hb
  have hdoes := h hst hin.valid hfin
  have hb₁ : (b : ℕ) < s₁.blocks.length := Nat.lt_of_lt_of_le hb hdoes.walked.grown.length_le
  have hout : Walked s none _ (s₁.branchTo (some b) epilog) none :=
    ((hin.trans hdoes.walked).stop.jump h0 hb₁).branchTo epilog |>.stop
  have hrest : (s₁.branchTo (some b) epilog).rest = s.rest.keep st.returns :=
    (rest_branchTo _ _ _).trans hdoes.rest
  have hlen₁ : b + 1 + stmts.length ≤ (s₁.branchTo (some b) epilog).blocks.length := by
    rw [length_branchTo, Nat.add_assoc, Nat.add_comm 1]
    exact Nat.le_trans hlen hdoes.walked.grown.length_le
  obtain ⟨hw, hrest'⟩ := hs hwalk hout.valid (hfin.of_rest hrest) (Nat.succ_pos b) hlen₁
  rw [hrest] at hw hrest'
  refine ⟨?_, ?_⟩
  · rw [eventsCasesWith, Rest.ctx_after, Rest.ctx_jump]
    exact hout.trans hw
  · rw [hrest', Rest.keep_append, BnodeTree.returnsAll]

theorem follows_switch {swvalue : BnodeTree} {vals : List (List ℤ)} {stmts : List BnodeTree}
    (hsw : Follows kept fn keptEvents swvalue) (hs : CasesFollow kept fn keptEvents stmts) :
    Follows kept fn keptEvents (.switchStmt swvalue vals stmts) := by
  intro s cur cur' s' hwalk hvalid hfin
  simp only [walkWith, Option.bind_eq_bind, Option.bind_eq_some_iff, Option.guard_eq_some'] at hwalk
  obtain ⟨-, hlen, ⟨cur₁, s₁⟩, hsw', defBB, -, s₂, hcases, v, -, b, rfl, hwalk⟩ := hwalk
  cases hwalk
  dsimp only at hcases
  have hdoes := hsw hsw' hvalid hfin
  have hblocks : Walked s cur _ (s₁.mkLLVMBlocks (vals.length + 1)) (some b) :=
    hdoes.walked.mkLLVMBlocks _
  have hrest : (s₁.mkLLVMBlocks (vals.length + 1)).rest = s.rest.keep swvalue.returns :=
    (rest_mkLLVMBlocks _ _).trans hdoes.rest
  have hlen₁ := s₁.length_mkLLVMBlocks (vals.length + 1)
  obtain ⟨hw, hrest'⟩ := hs hcases hblocks.stop.valid (hfin.of_rest hrest)
    hdoes.walked.valid.pos (by
      rw [hlen₁, hlen]
      exact Nat.add_le_add_left (Nat.le_succ _) _)
  have hsw : Walked s cur _ (s₂.push b (.switch v defBB (caseTargets s₁.blocks.length vals)))
      (some b) :=
    (hblocks.resume hw (Option.some_ne_none 0).symm).push fun _ hj => nomatch hj
  have hepilog : s₁.blocks.length + vals.length <
      (s₂.push b (.switch v defBB (caseTargets s₁.blocks.length vals))).blocks.length := by
    have hgrown := hw.grown.length_le
    rw [hlen₁] at hgrown
    rw [length_push]
    exact hgrown
  have hall := hsw.jump (Nat.add_pos_left hdoes.walked.valid.pos _) hepilog
  refine ⟨?_, rfl, ?_⟩
  · rw [hrest] at hall
    rw [eventsWith, Rest.ctx_after, Rest.ctx_jump]
    exact hall
  · rw [rest_push, hrest', hrest, Rest.keep_append, BnodeTree.returns]

theorem rest_createBranch {s s' : GenBlocks} {cur : Option BlockRef} {target : BlockRef}
    (h : s.createBranch cur target = some s') : s'.rest = s.rest := by
  obtain ⟨b, -, rfl⟩ := Option.map_eq_some_iff.mp h
  rfl

theorem Walked.createBranch {s s₁ s' : GenBlocks} {cur cur₁ : Option BlockRef} {es : List Event}
    {target : BlockRef} (h : Walked s cur es s₁ cur₁)
    (hbr : s₁.createBranch cur₁ target = some s') : Walked s cur es s' none := by
  obtain ⟨b, rfl, rfl⟩ := Option.map_eq_some_iff.mp hbr
  have hpush : Walked s cur es (s₁.push b (.br target)) (some b) := h.push fun _ hj => nomatch hj
  exact hpush.stop

/-- A return instruction is put into a block, or deleted. -/
theorem Walked.addReturn {s s₁ s' : GenBlocks} {cur cur₁ : Option BlockRef} {es : List Event}
    {ri : InstRef} (h : Walked s cur es s₁ cur₁) (hadd : s₁.addReturn fn cur₁ ri = some s') :
    Walked s cur (es ++ returnEvents cur₁.isSome ri) s' cur₁ ∧ s'.rest = s₁.rest := by
  cases cur₁ with
  | none => exact ⟨h.discard hadd, rest_discard hadd⟩
  | some b =>
    cases hadd
    have hpush : Walked s cur es (s₁.push b (.ret ri)) (some b) := h.push fun _ hj => nomatch hj
    exact ⟨by simpa [returnEvents] using hpush, rfl⟩

theorem follows_return {re : BnodeTree} (ri : InstRef) (h : Follows kept fn keptEvents re) :
    Follows kept fn keptEvents (.returnStmt re ri) := by
  intro s cur cur' s' hwalk hvalid hfin
  rw [walkWith] at hwalk
  rw [eventsWith, BnodeTree.returns]
  cases hf : s.finallyBlock with
  | some fin =>
    have hctx : (s.rest.ctx cur.isSome).fin = true := by
      simp [Rest.ctx, GenBlocks.rest, hf]
    rw [if_pos hctx]
    cases hc : s.cachedReturn with
    | none =>
      simp only [hf, hc, Option.bind_eq_bind, Option.bind_some, Option.bind_eq_some_iff] at hwalk
      obtain ⟨s₂, hbr, hwalk⟩ := hwalk
      cases hwalk
      have htaken : (s.rest.ctx cur.isSome).taken = false := by
        simp [Rest.ctx, GenBlocks.rest, hc]
      refine ⟨?_, rfl, ?_⟩
      · rw [htaken]
        refine Walked.createBranch ?_ hbr
        exact (Walked.refl hvalid).congr rfl rfl rfl rfl
      · rw [rest_createBranch hbr]
        simp [Rest.keep, GenBlocks.rest, setCached, hf, hc]
    | some c =>
      simp only [hf, hc, Option.bind_eq_bind, Option.bind_eq_some_iff] at hwalk
      obtain ⟨s₁, hdestroy, s₂, hbr, hwalk⟩ := hwalk
      cases hwalk
      have htaken : (s.rest.ctx cur.isSome).taken = true := by
        simp [Rest.ctx, GenBlocks.rest, hc]
      refine ⟨?_, rfl, ?_⟩
      · rw [if_pos htaken]
        exact ((Walked.refl hvalid).destroy hdestroy).createBranch hbr
      · rw [rest_createBranch hbr, rest_destroy hdestroy]
        simp [Rest.keep, GenBlocks.rest, hf, hc]
  | none =>
    simp only [hf, Option.bind_eq_bind, Option.bind_eq_some_iff] at hwalk
    obtain ⟨⟨bb, s₁⟩, hre, s₂, hadd, hwalk⟩ := hwalk
    split_ifs at hwalk with hbb
    cases hwalk
    have hdoes := h hre hvalid hfin
    obtain ⟨hw, hrest⟩ := hdoes.walked.addReturn hadd
    have hctx : ¬(s.rest.ctx cur.isSome).fin = true := by
      simp [Rest.ctx, GenBlocks.rest, hf]
    have hkeep : ∀ rets, s.rest.keep rets = s.rest := by
      intro rets
      simp [Rest.keep, GenBlocks.rest, hf]
    refine ⟨?_, rfl, ?_⟩
    · rw [if_neg hctx, show (s.rest.ctx cur.isSome).live = cur.isSome from rfl, ← hdoes.live]
      exact hw.stop
    · rw [hrest, hdoes.rest, hkeep, hkeep]

/-- The deferred calls have a landing pad, which the other calls come after. -/
theorem defer_walked {s s₁ s₂ : GenBlocks} {cur contbb : Option BlockRef} {finbb : BlockRef}
    {pads : List BlockRef} {undefer defer : BnodeTree} (hu : Follows kept fn keptEvents undefer)
    (hd : Follows kept fn keptEvents defer) (hvalid : Valid s cur) (hfin : s.FinInPad)
    (h0 : (0 : ℕ) < finbb) (hlen : finbb + 3 ≤ s.blocks.length) (hpads : s.padBlockStack = pads)
    (hundefer : walkWith kept fn (s.setPads ((finbb + 1) :: pads)) (some finbb) undefer =
      some (contbb, s₁))
    (hdefer : walkWith kept fn ((s₁.setPads pads).landAt (finbb + 1) (finbb + 2))
      (some (finbb + 2)) defer = some (some (finbb + 2), s₂)) :
    Walked s cur (eventsWith keptEvents fn { s.rest.ctx true with pad := true } undefer ++
        eventsWith keptEvents fn ((s.rest.ctx true).after undefer).jump defer)
        (s₂.push (finbb + 2) (.br finbb)) contbb ∧ contbb.isSome = undefer.ends true ∧
      (s₂.push (finbb + 2) (.br finbb)).rest = s.rest.keep (undefer.returns ++ defer.returns) := by
  have hin : Walked s cur [] (s.setPads ((finbb + 1) :: pads)) (some finbb) :=
    ((Walked.refl hvalid).jump h0 (Nat.lt_of_lt_of_le (Nat.lt_add_of_pos_right (Nat.succ_pos 2))
      hlen)).congr rfl rfl rfl rfl
  have hud := hu hundefer hin.valid fun _ => List.cons_ne_nil _ _
  have hlen₁ : finbb + 3 ≤ s₁.blocks.length := Nat.le_trans hlen hud.walked.grown.length_le
  -- the other calls, after the landing pad
  have hpop : Walked s cur _ (s₁.setPads pads) contbb :=
    (hin.trans hud.walked).congr rfl rfl rfl rfl
  have hland : Walked s cur _ ((s₁.setPads pads).landAt (finbb + 1) (finbb + 2)) contbb :=
    hpop.landAt (Nat.succ_pos _) (Nat.lt_of_succ_le (Nat.le_trans (Nat.le_succ _) hlen₁))
  have hrest : ((s₁.setPads pads).landAt (finbb + 1) (finbb + 2)).rest =
      s.rest.keep undefer.returns := by
    rw [rest_landAt, rest_setPads, hud.rest, ← hpads]
    rfl
  have hcatch := hland.jump (b := finbb + 2) (Nat.succ_pos _) (by
    rw [length_landAt]
    exact hlen₁)
  have hdd := hd hdefer hcatch.valid (hfin.of_rest hrest)
  have hlen₂ : finbb + 2 < s₂.blocks.length := by
    have hgrown := hdd.walked.grown.length_le
    rw [length_landAt] at hgrown
    exact Nat.lt_of_lt_of_le hlen₁ hgrown
  have hne : some (finbb + 2) ≠ some 0 := fun hz => Nat.succ_ne_zero _ (Option.some.inj hz)
  refine ⟨?_, hud.live, ?_⟩
  · have hall : Walked s cur _ (s₂.push (finbb + 2) (.br finbb)) contbb :=
      (hland.resume hdd.walked hne).pushAt (Nat.succ_pos _) hlen₂ fun _ hj => nomatch hj
    rw [hrest] at hall
    rw [Rest.ctx_after, Rest.ctx_jump]
    exact hall
  · rw [rest_push, hdd.rest, hrest, Rest.keep_append]

theorem follows_defer {undefer defer : BnodeTree} (hu : Follows kept fn keptEvents undefer)
    (hd : Follows kept fn keptEvents defer) :
    Follows kept fn keptEvents (.deferStmt undefer defer) := by
  intro s cur cur' s' hwalk hvalid hfin
  simp only [walkWith, Option.bind_eq_bind, Option.bind_eq_some_iff] at hwalk
  obtain ⟨⟨contbb, s₁⟩, hundefer, ⟨bb, s₂⟩, hdefer, hwalk⟩ := hwalk
  split_ifs at hwalk with hbb
  cases hwalk
  dsimp only at hdefer hbb
  subst hbb
  have hleave : Walked s cur [] ((s.mkLLVMBlocks 3).leave cur s.blocks.length) cur :=
    ((Walked.refl hvalid).mkLLVMBlocks 3).leave _
  have hrest : ((s.mkLLVMBlocks 3).leave cur s.blocks.length).rest = s.rest := by
    rw [rest_leave, rest_mkLLVMBlocks]
  have hlen : ((s.mkLLVMBlocks 3).leave cur s.blocks.length).blocks.length =
      s.blocks.length + 3 := by
    rw [length_leave, length_mkLLVMBlocks]
  obtain ⟨hw, hlive, hrest'⟩ := defer_walked hu hd hleave.valid
    (hfin.of_rest (hrest.trans (Rest.keep_nil _).symm)) hvalid.pos (Nat.le_of_eq hlen.symm)
    (congrArg Rest.pads hrest) hundefer hdefer
  rw [hrest] at hw hrest'
  refine ⟨?_, hlive, hrest'⟩
  rw [eventsWith, Rest.ctx_jump]
  exact hleave.trans hw

/-! ### Exceptions -/

section Excep

variable (s : GenBlocks) (fin : Option BlockRef)

theorem rest_excep : (((s.mkLLVMBlocks 2).setPads [s.blocks.length]).setFinally fin).rest =
    ⟨[s.blocks.length], fin, s.cachedReturn⟩ := by
  rw [rest_setFinally, rest_setPads, rest_mkLLVMBlocks]
  rfl

theorem finInPad_excep :
    (((s.mkLLVMBlocks 2).setPads [s.blocks.length]).setFinally fin).FinInPad := by
  intro _
  rw [rest_excep]
  exact List.cons_ne_nil _ _

variable {s} in
theorem Valid.excep {cur : Option BlockRef} (h : Valid s cur) :
    Walked s cur [] (((s.mkLLVMBlocks 2).setPads [s.blocks.length]).setFinally fin) cur :=
  ((Walked.refl h).mkLLVMBlocks 2).congr rfl rfl rfl rfl

theorem isSome_finally (hasFinally : Bool) (b : BlockRef) :
    (if hasFinally then some b else none).isSome = hasFinally := by
  cases hasFinally <;> rfl

end Excep

variable (kept keptEvents) in
/-- What is known of the walk of a return's expression after a finally part. -/
def KeptFollows : Prop :=
  ∀ ⦃re : BnodeTree⦄ ⦃s : GenBlocks⦄ ⦃cur cur' : Option BlockRef⦄ ⦃s' : GenBlocks⦄,
    kept s cur re = some (cur', s') → Valid s cur → s.FinInPad →
      Does s cur (keptEvents (s.rest.ctx cur.isSome) re) s' cur' (re.ends cur.isSome) re.returns

/-- The finally part, and after it the return that has been kept. -/
theorem finally_walked {s s' : GenBlocks} {cur cur' : Option BlockRef} {es : List Event}
    {contbb : BlockRef} {finally_ : BnodeTree} {ret : Option (BnodeTree × InstRef)}
    (hk : KeptFollows kept keptEvents) (hf : Follows kept fn keptEvents finally_)
    (hw : Walked s cur es s' (some contbb)) (hrest : s'.rest = ⟨[], none, ret⟩)
    {s₁ : GenBlocks} {cur₁ : Option BlockRef}
    (hfinally : walkWith kept fn s' (some contbb) finally_ = some (cur₁, s₁))
    {s₂ : GenBlocks} (hwalk : (match s₁.cachedReturn with
      | none => some (cur₁, s₁)
      | some (re, ri) => do
        let (bb, s) ← kept s₁ cur₁ re
        let s ← s.addReturn fn bb ri
        if cur₁ = bb then some (cur₁, s.setCached none) else none) = some (cur', s₂)) :
    Walked s cur (es ++ (eventsWith keptEvents fn (.top true ret.isSome) finally_ ++
        keptReturn keptEvents (finally_.ends true) ret)) s₂ cur' ∧
      cur'.isSome = finally_.ends true ∧ s₂.rest = ⟨[], none, none⟩ := by
  have hfin : s'.FinInPad := by
    unfold FinInPad
    rw [hrest]
    exact fun h => nomatch h
  have hfd := hf hfinally hw.valid hfin
  have hrest₁ : s₁.rest = ⟨[], none, ret⟩ := by
    rw [hfd.rest, hrest]
    rfl
  have hcached : s₁.cachedReturn = ret := congrArg Rest.cached hrest₁
  have hctx : s'.rest.ctx true = .top true ret.isSome := by
    rw [hrest]
    rfl
  have hplain := hw.trans hfd.walked
  rw [Option.isSome_some, hctx] at hplain
  rw [hcached] at hwalk
  cases ret with
  | none =>
    cases hwalk
    refine ⟨?_, hfd.live, hrest₁⟩
    rw [keptReturn, List.append_nil]
    exact hplain
  | some ret =>
    obtain ⟨re, ri⟩ := ret
    simp only [Option.bind_eq_bind, Option.bind_eq_some_iff] at hwalk
    obtain ⟨⟨bb, s₃⟩, hre, s₄, hadd, hwalk⟩ := hwalk
    split_ifs at hwalk with hbb
    cases hwalk
    dsimp only at hadd hbb
    subst hbb
    have hkd := hk hre hfd.walked.valid (hfin.of_rest hfd.rest)
    obtain ⟨hret, hrest₃⟩ := hkd.walked.addReturn hadd
    have hlive : cur'.isSome = finally_.ends true := hfd.live
    have hctx₁ : s₁.rest.ctx cur'.isSome = .top (finally_.ends true) true := by
      rw [hrest₁, hfd.live]
      rfl
    refine ⟨?_, hlive, ?_⟩
    · have hall := hplain.trans hret
      rw [hctx₁, hlive, List.append_assoc] at hall
      exact hall.congr rfl rfl rfl rfl
    · have hrest₄ : s₄.rest = ⟨[], none, some (re, ri)⟩ := by
        rw [hrest₃, hkd.rest, hrest₁]
        rfl
      have hset : (s₄.setCached none).rest = { s₄.rest with cached := none } := rfl
      rw [hset, hrest₄]

/-- The code for an exception has a landing pad itself, and both parts go on after it. -/
theorem catch_walked {s s₁ : GenBlocks} {cur bb : Option BlockRef} {padbb catchbb : BlockRef}
    {onexception : BnodeTree} (ho : Follows kept fn keptEvents onexception)
    (hvalid : Valid s cur) (h0 : (0 : ℕ) < padbb) (hle : padbb + 2 ≤ catchbb)
    (hlen : s.blocks.length = catchbb) (hpads : s.padBlockStack = [padbb])
    (hon : walkWith kept fn (((s.mkLLVMBlocks 2).landAt padbb catchbb).setPads [catchbb + 1])
      (some catchbb) onexception = some (bb, s₁)) :
    Walked s cur (eventsWith keptEvents fn (s.rest.ctx true) onexception)
        ((((s₁.leave bb (padbb + 1)).setPads []).setFinally none).landAt (catchbb + 1) (padbb + 1))
        (some (padbb + 1)) ∧
      ((((s₁.leave bb (padbb + 1)).setPads []).setFinally none).landAt (catchbb + 1)
        (padbb + 1)).rest = ⟨[], none, (s.rest.keep onexception.returns).cached⟩ := by
  have hlen₁ : (s.mkLLVMBlocks 2).blocks.length = catchbb + 2 := by
    rw [length_mkLLVMBlocks, hlen]
  have hland : Walked s cur [] ((s.mkLLVMBlocks 2).landAt padbb catchbb) cur :=
    ((Walked.refl hvalid).mkLLVMBlocks 2).landAt h0 (hlen₁ ▸ Nat.lt_of_succ_le
      (Nat.le_trans (Nat.le_succ _) (Nat.le_trans hle (Nat.le_add_right _ 2))))
  have hpush : Walked s cur []
      (((s.mkLLVMBlocks 2).landAt padbb catchbb).setPads [catchbb + 1]) cur :=
    hland.congr rfl rfl rfl rfl
  have hcatch := hpush.jump (b := catchbb) (Nat.lt_of_lt_of_le h0 (Nat.le_of_add_right_le hle)) (by
    rw [setPads, length_landAt, hlen₁]
    exact Nat.lt_add_of_pos_right (Nat.succ_pos 1))
  have hrest : (((s.mkLLVMBlocks 2).landAt padbb catchbb).setPads [catchbb + 1]).rest =
      { s.rest with pads := [catchbb + 1] } := by
    rw [rest_setPads, rest_landAt, rest_mkLLVMBlocks]
  have hod := ho hon hcatch.valid fun _ => by
    rw [hrest]
    exact List.cons_ne_nil _ _
  have hlen₂ : catchbb + 2 ≤ s₁.blocks.length := by
    have hgrown := hod.walked.grown.length_le
    rw [setPads, length_landAt, hlen₁] at hgrown
    exact hgrown
  -- the continuation, with the landing pad of this code
  have hleave : Walked s cur _ (((s₁.leave bb (padbb + 1)).setPads []).setFinally none) bb :=
    ((hcatch.trans hod.walked).leave _).congr rfl rfl rfl rfl
  have hland₁ : Walked s cur _ ((((s₁.leave bb (padbb + 1)).setPads []).setFinally none).landAt
      (catchbb + 1) (padbb + 1)) bb :=
    hleave.landAt (Nat.succ_pos _) (by
      rw [setFinally, setPads, length_leave]
      exact hlen₂)
  have hcont := hland₁.jump (b := padbb + 1) (Nat.succ_pos _) (by
    rw [length_landAt, setFinally, setPads, length_leave]
    exact Nat.lt_of_lt_of_le (Nat.lt_of_succ_le hle) (Nat.le_of_add_right_le hlen₂))
  refine ⟨?_, ?_⟩
  · have hctx : (((s.mkLLVMBlocks 2).landAt padbb catchbb).setPads [catchbb + 1]).rest.ctx true =
        s.rest.ctx true := by
      rw [hrest]
      simp [Rest.ctx, GenBlocks.rest, hpads]
    rw [Option.isSome_some, hctx] at hcont
    exact hcont
  · rw [rest_landAt, rest_setFinally, rest_setPads, rest_leave, hod.rest, hrest]
    rfl

/-- All that comes after the body of an exception statement. -/
theorem handler_walked {s s₁ s' : GenBlocks} {cur bb cur' : Option BlockRef}
    {padbb catchbb : BlockRef} {onexception finally_ : BnodeTree} {hasFinally : Bool}
    {fin : Option BlockRef} {rets : List (BnodeTree × InstRef)} (hk : KeptFollows kept keptEvents)
    (ho : Follows kept fn keptEvents onexception) (hf : Follows kept fn keptEvents finally_)
    (hvalid : Valid s cur) (h0 : (0 : ℕ) < padbb) (hle : padbb + 2 ≤ catchbb)
    (hlen : s.blocks.length = catchbb) (hfin : fin.isSome = hasFinally)
    (hrest : s.rest = (⟨[padbb], fin, none⟩ : Rest).keep rets)
    (hon : walkWith kept fn (((s.mkLLVMBlocks 2).landAt padbb catchbb).setPads [catchbb + 1])
      (some catchbb) onexception = some (bb, s₁))
    (hwalk : (if hasFinally then do
        let (cur, s) ← walkWith kept fn ((((s₁.leave bb (padbb + 1)).setPads []).setFinally
          none).landAt (catchbb + 1) (padbb + 1)) (some (padbb + 1)) finally_
        match s.cachedReturn with
        | none => some (cur, s)
        | some (re, ri) =>
          let (bb, s) ← kept s cur re
          let s ← s.addReturn fn bb ri
          if cur = bb then some (cur, s.setCached none) else none
      else some (some (padbb + 1), (((s₁.leave bb (padbb + 1)).setPads []).setFinally none).landAt
        (catchbb + 1) (padbb + 1))) = some (cur', s')) :
    Walked s cur (eventsWith keptEvents fn (s.rest.ctx true) onexception ++
        if hasFinally then
          eventsWith keptEvents fn (.top true (rets ++ onexception.returns).head?.isSome)
              finally_ ++
            keptReturn keptEvents (finally_.ends true) (rets ++ onexception.returns).head?
        else []) s' cur' ∧
      cur'.isSome = (!hasFinally || finally_.ends true) ∧ s'.rest = ⟨[], none, none⟩ := by
  have hpads : s.padBlockStack = [padbb] := congrArg Rest.pads hrest
  obtain ⟨hcatch, hrest₁⟩ := catch_walked ho hvalid h0 hle hlen hpads hon
  have hcached : ((⟨[padbb], fin, none⟩ : Rest).keep (rets ++ onexception.returns)).cached =
      if hasFinally then (rets ++ onexception.returns).head? else none := by
    simp [Rest.keep, hfin]
  rw [hrest, Rest.keep_append, hcached] at hrest₁
  cases hasFinally with
  | false =>
    cases hwalk
    refine ⟨?_, rfl, hrest₁⟩
    rw [if_neg Bool.false_ne_true, List.append_nil]
    exact hcatch
  | true =>
    rw [if_pos rfl] at hwalk ⊢
    obtain ⟨⟨cur₁, s₂⟩, hfinally, hwalk⟩ := Option.bind_eq_some_iff.mp hwalk
    exact finally_walked hk hf hcatch hrest₁ hfinally hwalk

theorem follows_excep {body onexception finally_ : BnodeTree} (hasFinally : Bool)
    (hk : KeptFollows kept keptEvents) (hb : Follows kept fn keptEvents body)
    (ho : Follows kept fn keptEvents onexception) (hf : Follows kept fn keptEvents finally_) :
    Follows kept fn keptEvents (.excepStmt body onexception hasFinally finally_) := by
  intro s cur cur' s' hwalk hvalid hfin
  rw [walkWith] at hwalk
  simp only [Option.bind_eq_bind, Option.bind_eq_some_iff, Option.guard_eq_some'] at hwalk
  obtain ⟨-, ⟨hpads, hcached⟩, ⟨cur₁, s₁⟩, hbody, ⟨bb, s₂⟩, hon, hwalk⟩ := hwalk
  rw [Option.isNone_iff_eq_none] at hcached
  dsimp only at hon hwalk
  have hnofin : s.finallyBlock = none := by
    by_contra hsome
    exact hfin (Option.isSome_iff_ne_none.mpr hsome) hpads
  have hisSome := isSome_finally hasFinally (s.blocks.length + 1)
  generalize (if hasFinally then some (s.blocks.length + 1) else none) = fin at hbody hisSome
  have hin := hvalid.excep fin
  have hrest := s.rest_excep fin
  rw [hcached] at hrest
  have hbd := hb hbody hin.valid (s.finInPad_excep fin)
  have hlen₁ : s.blocks.length + 2 ≤ s₁.blocks.length :=
    Nat.le_trans (Nat.le_of_eq (s.length_mkLLVMBlocks 2).symm) hbd.walked.grown.length_le
  have hctx : (⟨[s.blocks.length], fin, none⟩ : Rest).ctx cur.isSome =
      .excep cur.isSome hasFinally := by
    simp [Rest.ctx, Ctx.excep, hisSome]
  have hleave : Walked s cur _ (s₁.leave cur₁ (s.blocks.length + 1)) cur₁ :=
    (hin.trans hbd.walked).leave _
  have hrest₁ : (s₁.leave cur₁ (s.blocks.length + 1)).rest =
      (⟨[s.blocks.length], fin, none⟩ : Rest).keep body.returns := by
    rw [rest_leave, hbd.rest, hrest]
  obtain ⟨hw, hlive, hrest₂⟩ := handler_walked hk ho hf hleave.valid hvalid.pos hlen₁
    (length_leave ..) hisSome hrest₁ hon hwalk
  refine ⟨?_, hlive, ?_⟩
  · have hall := hleave.trans hw
    rw [hrest, hctx, hrest₁, ← Rest.ctx_jump _ (body.ends cur.isSome), ← Rest.ctx_after, hctx,
      List.nil_append, ← List.append_assoc] at hall
    rw [eventsWith]
    exact hall
  · rw [hrest₂]
    simp [Rest.keep, GenBlocks.rest, hnofin, hpads, hcached]

mutual
theorem follows (hk : KeptFollows kept keptEvents) : ∀ n : BnodeTree, Follows kept fn keptEvents n
  | .expr kids value insts => follows_expr value insts (allFollow hk kids)
  | .exprStmt e => by
    intro s cur cur' s' hwalk hvalid hfin
    simp only [walkWith] at hwalk
    simp only [eventsWith, BnodeTree.ends, BnodeTree.returns]
    exact follows hk e hwalk hvalid hfin
  | .block vars stmts => follows_block vars (allFollow hk stmts)
  | .ifStmt cond trueBlock falseBlock =>
    follows_if (follows hk cond) (follows hk trueBlock) (follows hk falseBlock)
  | .switchStmt swvalue _ stmts => follows_switch (follows hk swvalue) (casesFollow hk stmts)
  | .gotoStmt label => follows_goto label
  | .labelStmt label => follows_label label
  | .returnStmt re ri => follows_return ri (follows hk re)
  | .deferStmt undefer defer => follows_defer (follows hk undefer) (follows hk defer)
  | .excepStmt body onexception hasFinally finally_ =>
    follows_excep hasFinally hk (follows hk body) (follows hk onexception) (follows hk finally_)
theorem allFollow (hk : KeptFollows kept keptEvents) :
    ∀ ns : List BnodeTree, AllFollow kept fn keptEvents ns
  | [] => by
    intro s cur cur' s' hwalk hvalid hfin
    rw [walkAllWith] at hwalk
    cases hwalk
    exact ⟨Walked.refl hvalid, rfl, (Rest.keep_nil _).symm⟩
  | n :: ns => allFollow_cons (follows hk n) (allFollow hk ns)
theorem casesFollow (hk : KeptFollows kept keptEvents) :
    ∀ stmts : List BnodeTree, CasesFollow kept fn keptEvents stmts
  | [] => by
    intro s s' b epilog hwalk hvalid hfin h0 hlen
    rw [walkCasesWith] at hwalk
    cases hwalk
    exact ⟨Walked.refl hvalid, (Rest.keep_nil _).symm⟩
  | st :: stmts => casesFollow_cons (follows hk st) (casesFollow hk stmts)
end

end Statements

end GenBlocks

end Dragongo
