import Dragongo.ExceptionLowering
import Dragongo.ReturnsToFinally

/-!
# The blocks of whole functions

A function's blocks end with the same results as its statements, and control never comes to the
end of a block that has no transfer of control there.
-/

namespace Dragongo

open Simulation

/-! ## Where control is sent -/

namespace Outcome

variable {σ : Type} {gs gs' : List LabelId} {lo hi lo' hi' : ℕ} {o : Outcome σ}
  {f : σ → Outcome σ}

/-- Control is sent to one of these labels, or to one of these defer statements, if it is sent
anywhere. -/
def Sends (gs : List LabelId) (lo hi : ℕ) : Outcome σ → Prop
  | goto l _ => l ∈ gs
  | retry d _ => lo ≤ d ∧ d < hi
  | _ => True

theorem Sends.mono (h : o.Sends gs lo hi) (hgs : gs ⊆ gs') (hlo : lo' ≤ lo) (hhi : hi ≤ hi') :
    o.Sends gs' lo' hi' := by
  cases o with
  | goto l st => exact hgs h
  | retry d st => exact ⟨Nat.le_trans hlo h.1, Nat.lt_of_lt_of_le h.2 hhi⟩
  | done st => trivial
  | leave st => trivial
  | ret st => trivial
  | threw st => trivial

theorem Sends.andThen (h : o.Sends gs lo hi) (hf : ∀ st, (f st).Sends gs lo hi) :
    (o.andThen f).Sends gs lo hi := by
  cases o with
  | done st => exact hf st
  | goto l st => exact h
  | retry d st => exact h
  | leave st => trivial
  | ret st => trivial
  | threw st => trivial

theorem Sends.handle (h : o.Sends gs lo hi) (hf : ∀ st, (f st).Sends gs lo hi) :
    (o.handle f).Sends gs lo hi := by
  cases o with
  | threw st => exact hf st
  | goto l st => exact h
  | retry d st => exact h
  | done st => trivial
  | leave st => trivial
  | ret st => trivial

theorem Sends.caught {fall : σ → σ} (h : o.Sends gs lo hi) (hf : ∀ st, (f st).Sends gs lo hi) :
    (Meaning.caught fall f o).Sends gs lo hi := by
  cases o with
  | done st => exact hf (fall st)
  | leave st => exact hf st
  | threw st => exact hf (fall st)
  | goto l st => exact h
  | retry d st => exact h
  | ret st => trivial

end Outcome

namespace Meaning

variable {fn : Instructions} {σ : Type} (M : Meaning fn σ) {lo hi : ℕ}

theorem sends_runInsts (gs : List LabelId) (insts : List InstRef) (st : σ) :
    (M.runInsts insts st).Sends gs lo hi := by
  induction insts generalizing st with
  | nil => trivial
  | cons i insts ih =>
    rw [runInsts]
    split_ifs
    · trivial
    · exact ih _

mutual
theorem sends_runCode (gs : List LabelId) :
    ∀ (n : BnodeTree) (st : σ), (M.runCode n st).Sends gs lo hi
  | .expr kids _ insts, st => by
    rw [runCode]
    exact (sends_runCodes gs kids st).andThen (M.sends_runInsts gs insts)
  | .exprStmt e, st => by
    rw [runCode]
    exact sends_runCode gs e st
  | .block _ stmts, st => by
    rw [runCode]
    exact sends_runCodes gs stmts st
  | .ifStmt cond trueBlock falseBlock, st => by
    rw [runCode]
    refine (sends_runCode gs cond st).andThen fun st => ?_
    split_ifs
    · exact sends_runCode gs trueBlock st
    · exact sends_runCode gs falseBlock st
  | .switchStmt .., _ | .gotoStmt _, _ | .labelStmt _, _ | .returnStmt .., _ | .deferStmt .., _
  | .excepStmt .., _ => by
    simp only [runCode]
    trivial
theorem sends_runCodes (gs : List LabelId) :
    ∀ (ns : List BnodeTree) (st : σ), (M.runCodes ns st).Sends gs lo hi
  | [], st => by
    rw [runCodes]
    trivial
  | n :: ns, st => by
    rw [runCodes]
    exact (sends_runCode gs n st).andThen (sends_runCodes gs ns)
end

theorem sends_runReturn (gs : List LabelId) (r : Return) (st : σ) :
    (M.runReturn r st).Sends gs lo hi := (M.sends_runCode gs r.1 st).andThen fun _ => trivial

theorem sends_runKept (gs : List LabelId) (ret : Option Return) (st : σ) :
    (M.runKept ret st).Sends gs lo hi := by
  cases ret with
  | none => trivial
  | some r => exact M.sends_runReturn gs r st

variable {R : FinallyReturns σ}

mutual
/-- Control is sent to the labels that a statement names, and to its own defer statements. -/
theorem sends_run (hR : ∀ gs lo hi returns st, (R.after returns st).Sends gs lo hi)
    (fin : Bool) : ∀ (n : BnodeTree) (d : ℕ) (x : EntryPoint) (st : σ),
    (M.run R fin d n x st).Sends n.gotos d (d + n.defers)
  | .expr kids _ insts, d, x, st => by
    rw [run, BnodeTree.gotos, BnodeTree.defers]
    exact (sends_runAll hR fin kids d x st).andThen (M.sends_runInsts _ insts)
  | .exprStmt e, d, x, st => by
    rw [run, BnodeTree.gotos, BnodeTree.defers]
    exact sends_run hR fin e d x st
  | .block _ stmts, d, x, st => by
    rw [run, BnodeTree.gotos, BnodeTree.defers]
    exact sends_runAll hR fin stmts d x st
  | .ifStmt cond trueBlock falseBlock, d, x, st => by
    rw [run, BnodeTree.gotos, BnodeTree.defers]
    have htrue : ∀ x st, (M.run R fin (d + cond.defers) trueBlock x st).Sends
        (cond.gotos ++ trueBlock.gotos ++ falseBlock.gotos) d
        (d + (cond.defers + trueBlock.defers + falseBlock.defers)) := fun x st =>
      (sends_run hR fin trueBlock _ x st).mono (by simp) (by omega) (by omega)
    have hfalse : ∀ x st, (M.run R fin (d + cond.defers + trueBlock.defers) falseBlock x st).Sends
        (cond.gotos ++ trueBlock.gotos ++ falseBlock.gotos) d
        (d + (cond.defers + trueBlock.defers + falseBlock.defers)) := fun x st =>
      (sends_run hR fin falseBlock _ x st).mono (by simp) (by omega) (by omega)
    split_ifs
    · refine ((sends_run hR fin cond d x st).mono (by simp) (by omega) (by omega)).andThen fun st => ?_
      split_ifs
      · exact htrue _ st
      · exact hfalse _ st
    · exact htrue x st
    · exact hfalse x st
  | .switchStmt swvalue vals stmts, d, x, st => by
    rw [run, BnodeTree.gotos, BnodeTree.defers]
    split_ifs
    · refine ((sends_run hR fin swvalue d x st).mono (by simp) (by omega) (by omega)).andThen
        fun st => ?_
      cases swvalue.value.bind fun v => caseOf vals (M.select v st) with
      | none => trivial
      | some k =>
        exact (sends_runNth hR fin stmts _ k st).mono (by simp) (by omega) (by omega)
    · exact (sends_runCase hR fin stmts _ x st).mono (by simp) (by omega) (by omega)
  | .gotoStmt label, d, x, st => by
    rw [run, BnodeTree.gotos]
    exact List.mem_singleton_self label
  | .labelStmt _, d, x, st => by
    rw [run]
    trivial
  | .returnStmt re ri, d, x, st => by
    rw [run]
    split_ifs
    · trivial
    · exact M.sends_runReturn _ (re, ri) st
  | .deferStmt undefer defer, d, x, st => by
    rw [run, BnodeTree.gotos, BnodeTree.defers]
    have hagain : ∀ x st, (again d (M.run R fin (d + 1 + undefer.defers) defer x st)).Sends
        (undefer.gotos ++ defer.gotos) d (d + (1 + undefer.defers + defer.defers)) := by
      intro x st
      refine ((sends_run hR fin defer _ x st).mono (by simp) (by omega) (by omega)).andThen
        fun st => ⟨Nat.le_refl d, by omega⟩
    by_cases hx : x = .retry d ∨ x.into (d + 1) undefer
    · rw [if_pos hx]
      exact ((sends_run hR fin undefer _ _ st).mono (by simp) (by omega) (by omega)).handle
        (hagain .start)
    · rw [if_neg hx]
      exact hagain x st
  | .excepStmt body onexception hasFinally finally_, d, x, st => by
    rw [run, BnodeTree.gotos, BnodeTree.defers]
    have honexc : ∀ x st, (M.run R hasFinally (d + body.defers) onexception x st).Sends
        (body.gotos ++ onexception.gotos ++ finally_.gotos) d
        (d + (body.defers + onexception.defers + finally_.defers)) := fun x st =>
      (sends_run hR hasFinally onexception _ x st).mono (by simp) (by omega) (by omega)
    have hfinally : ∀ x st, ((M.run R false (d + body.defers + onexception.defers) finally_ x
        st).andThen (R.after (BnodeTree.returnsToFinally body onexception hasFinally))).Sends
        (body.gotos ++ onexception.gotos ++ finally_.gotos) d
        (d + (body.defers + onexception.defers + finally_.defers)) := fun x st =>
      ((sends_run hR false finally_ _ x st).mono (by simp) (by omega) (by omega)).andThen
        (hR _ _ _ _)
    have hfinish : ∀ st, (if hasFinally then
        (M.run R false (d + body.defers + onexception.defers) finally_ .start st).andThen
          (R.after (BnodeTree.returnsToFinally body onexception hasFinally)) else .done st).Sends
        (body.gotos ++ onexception.gotos ++ finally_.gotos) d
        (d + (body.defers + onexception.defers + finally_.defers)) := by
      intro st
      split_ifs
      · exact hfinally .start st
      · trivial
    by_cases hbody : x.into d body
    · rw [if_pos hbody]
      exact (((sends_run hR hasFinally body d x st).mono (by simp) (by omega) (by omega)).handle
        (honexc .start)).caught hfinish
    · rw [if_neg hbody]
      by_cases honexception : x.into (d + body.defers) onexception
      · rw [if_pos honexception]
        exact (honexc x st).caught hfinish
      · rw [if_neg honexception]
        exact hfinally x st
theorem sends_runAll (hR : ∀ gs lo hi returns st, (R.after returns st).Sends gs lo hi)
    (fin : Bool) : ∀ (ns : List BnodeTree) (d : ℕ) (x : EntryPoint) (st : σ),
    (M.runAll R fin d ns x st).Sends (BnodeTree.gotosAll ns) d (d + BnodeTree.defersAll ns)
  | [], d, x, st => by
    rw [runAll]
    trivial
  | n :: ns, d, x, st => by
    rw [runAll, BnodeTree.gotosAll, BnodeTree.defersAll]
    have hmore : ∀ x st, (M.runAll R fin (d + n.defers) ns x st).Sends
        (n.gotos ++ BnodeTree.gotosAll ns) d (d + (n.defers + BnodeTree.defersAll ns)) :=
      fun x st => (sends_runAll hR fin ns _ x st).mono (by simp) (by omega) (by omega)
    split_ifs
    · exact ((sends_run hR fin n d x st).mono (by simp) (by omega) (by omega)).andThen (hmore .start)
    · exact hmore x st
theorem sends_runNth (hR : ∀ gs lo hi returns st, (R.after returns st).Sends gs lo hi)
    (fin : Bool) : ∀ (ns : List BnodeTree) (d k : ℕ) (st : σ),
    (M.runNth R fin d ns k st).Sends (BnodeTree.gotosAll ns) d (d + BnodeTree.defersAll ns)
  | [], d, k, st => by
    rw [runNth]
    trivial
  | n :: ns, d, 0, st => by
    rw [runNth, BnodeTree.gotosAll, BnodeTree.defersAll]
    exact (sends_run hR fin n d .start st).mono (by simp) (by omega) (by omega)
  | n :: ns, d, k + 1, st => by
    rw [runNth, BnodeTree.gotosAll, BnodeTree.defersAll]
    exact (sends_runNth hR fin ns _ k st).mono (by simp) (by omega) (by omega)
theorem sends_runCase (hR : ∀ gs lo hi returns st, (R.after returns st).Sends gs lo hi)
    (fin : Bool) : ∀ (ns : List BnodeTree) (d : ℕ) (x : EntryPoint) (st : σ),
    (M.runCase R fin d ns x st).Sends (BnodeTree.gotosAll ns) d (d + BnodeTree.defersAll ns)
  | [], d, x, st => by
    rw [runCase]
    trivial
  | n :: ns, d, x, st => by
    rw [runCase, BnodeTree.gotosAll, BnodeTree.defersAll]
    split_ifs
    · exact (sends_run hR fin n d x st).mono (by simp) (by omega) (by omega)
    · exact (sends_runCase hR fin ns _ x st).mono (by simp) (by omega) (by omega)
end

theorem sends_moved (gs : List LabelId) (lo hi : ℕ) (returns : List Return) (st : σ) :
    (M.movedReturns.after returns st).Sends gs lo hi := M.sends_runKept gs returns.head? st

/-! ## Blocks that are open -/

/-- Control has not just passed a transfer of control. -/
def StillOpen (blocks : List (List BlockInst)) (q : Point σ) : Prop :=
  ∀ k, q.2.1 = k + 1 → ∃ is i, blocks[q.1]? = some is ∧ is[k]? = some i ∧ i.isTerminator = false

theorem stillOpen_blockStep {blocks : List (List BlockInst)} {p q : Point σ}
    (h : M.blockStep blocks p = some (.inl q)) : StillOpen blocks q := by
  obtain ⟨b, k, st⟩ := p
  simp only [blockStep, Option.bind_eq_bind, Option.bind_eq_some_iff, Option.some.injEq] at h
  obtain ⟨is, his, i, hi, h⟩ := h
  intro k' hk'
  cases i with
  | inst i =>
    rw [stepInst] at h
    split_ifs at h
    cases h
    cases hk'
    exact ⟨is, _, his, hi, rfl⟩
  | landingPad =>
    cases h
    cases hk'
    exact ⟨is, _, his, hi, rfl⟩
  | _ =>
    cases h
    try cases hk'

theorem stillOpen_of_reaches {blocks : List (List BlockInst)} {p q : Point σ}
    (hp : StillOpen blocks p) (h : Reaches (M.blockStep blocks) p (.inl q)) :
    StillOpen blocks q := by
  generalize hq : (Sum.inl q : Point σ ⊕ Exit σ) = o at h
  induction h with
  | refl p =>
    cases hq
    exact hp
  | stop hstep => cases hq
  | next hstep _ ih => exact ih (M.stillOpen_blockStep hstep) hq

end Meaning

namespace GenBlocks

open Meaning

section Epilog

variable {s : GenBlocks} {b : BlockRef} {is : List BlockInst}

theorem fixupEpilogBlock_extends (s : GenBlocks) (b : BlockRef) :
    Extends s.blocks (s.fixupEpilogBlock b).blocks := by
  unfold fixupEpilogBlock
  split_ifs
  · exact .refl _
  · exact s.push_extends b .fixup

theorem fixupEpilogBlock_of_open (hb : s.blocks[b]? = some is) (hopen : s.getTerminator b = false) :
    (s.fixupEpilogBlock b).blocks[b]? = some (is ++ [.fixup]) := by
  rw [fixupEpilogBlock, if_neg (by simp [hopen])]
  exact push_self s hb

/-- Where control comes to the end of a block, the block is open. -/
theorem open_of_stillOpen {blocks : List (List BlockInst)} {σ : Type} {st : σ}
    (hext : Extends s.blocks blocks) (hb : s.blocks[b]? = some is)
    (h : StillOpen blocks (b, is.length, st)) : s.getTerminator b = false := by
  cases hlast : is.getLast? with
  | none =>
    rw [List.getLast?_eq_none_iff] at hlast
    exact getTerminator_of_nil s (hlast ▸ hb)
  | some i =>
    obtain ⟨is', rfl⟩ := List.getLast?_eq_some_iff.mp hlast
    obtain ⟨js, j, hjs, hj, hopen⟩ := h is'.length (by simp)
    obtain ⟨js', hjs', hi⟩ := next_of_extends hext hb
    cases hjs.symm.trans hjs'
    cases hj.symm.trans hi
    rw [getTerminator_of_last s hb, hopen]

end Epilog

variable {fn : Instructions} {σ : Type} {code : BnodeTree} {prolog : List InstRef}

theorem stillOpen_prolog {blocks : List (List BlockInst)}
    (hext : Extends [prolog.map BlockInst.inst] blocks) (st : σ) :
    StillOpen blocks (0, prolog.length, st) := by
  intro k hk
  obtain ⟨is, his, rest, rfl⟩ := hext 0 _ rfl
  have hlt : k < prolog.length := Nat.lt_of_lt_of_eq (Nat.lt_succ_self k) hk.symm
  refine ⟨_, .inst prolog[k], his, ?_, rfl⟩
  rw [List.getElem?_append_left (by rwa [List.length_map]), List.getElem?_map,
    List.getElem?_eq_getElem hlt]
  rfl

/-- The walk of a function's code begins at the end of the prolog. -/
theorem ready_new (h : code.labels.Nodup) :
    Ready code.labels (new false (prolog.map .inst)) (some 0) where
  labelled := by
    constructor
    · intro l b hl
      cases hl
    · intro l l' b hl
      cases hl
  live := by
    intro b hb
    cases hb
    have hpass := stillOpen_prolog (Extends.refl [prolog.map BlockInst.inst]) ()
    rw [← List.length_map BlockInst.inst] at hpass
    exact ⟨prolog.map .inst, rfl, open_of_stillOpen (.refl _) rfl hpass⟩
  waiting := by
    intro l _ b hl
    cases hl
  nodup := h
  finInPad := by
    intro hfin
    cases hfin

/-- Each run of the code from one entry to the next one is what the blocks do. -/
theorem gen_simulates (h : code.WellFormed fn) {s : GenBlocks}
    (hgen : gen fn (prolog.map .inst) code = some s) (M : Meaning fn σ) :
    ∃ R, Simulates (M.codeStep M.movedReturns code) (M.blockStep s.blocks) R ∧
      ∀ st, R (.start, st) (0, prolog.length, st) := by
  obtain ⟨⟨block, s₁⟩, hwalk, hgen⟩ := Option.bind_eq_some_iff.mp hgen
  obtain ⟨⟨hframed, r, hr⟩, -⟩ := walk_simulated code 0 true (ready_new h.labels) h.regular hwalk
  have hext : Extends s₁.blocks s.blocks := by
    cases block with
    | none =>
      cases hgen
      exact .refl _
    | some b =>
      cases hgen
      exact s₁.fixupEpilogBlock_extends b
  let t : Target := ⟨s.blocks, fun l => (s₁.labelmap l).getD 0, r⟩
  have ht : Completes s₁ t := by
    refine ⟨hext, fun l b hl => ?_⟩
    change (s₁.labelmap l).getD 0 = b
    rw [hl]
    rfl
  have hprolog : Extends [prolog.map BlockInst.inst] s.blocks := hframed.grown.trans hext
  refine ⟨fun e q => e.2 = q.2.2 ∧ e.1.into 0 code ∧
    t.At (new false (prolog.map .inst)) (some 0) (q.1, q.2.1) e.1, ?_, fun st => ?_⟩
  · rintro ⟨x, st⟩ ⟨b, k, st'⟩ ⟨rfl, hx, hat⟩
    dsimp only at hx hat ⊢
    have hlands : Lands t M [] none s₁ block (b, k, st) (M.run M.movedReturns false 0 code x st) :=
      hr ht (fun _ _ _ => rfl) M x (b, k) st hx hat
    have hsends := M.sends_run M.sends_moved false code 0 x st
    have hstart : StillOpen s.blocks (b, k, st) := by
      cases x with
      | start =>
        obtain ⟨is, hb, his, hk⟩ := hat
        cases hb
        cases his
        rw [List.length_map] at hk
        dsimp only at hk
        rw [hk]
        exact stillOpen_prolog hprolog st
      | label l =>
        cases hat
        intro k hk
        cases hk
      | retry d =>
        cases hat
        intro k hk
        cases hk
    cases ho : M.run M.movedReturns false 0 code x st with
    | done st₁ =>
      rw [ho] at hlands
      obtain ⟨b₁, is, rfl, his, hreach⟩ := hlands
      cases hgen
      have hopen := open_of_stillOpen hext his (M.stillOpen_of_reaches hstart hreach)
      have hlast := fixupEpilogBlock_of_open his hopen
      refine Or.inr ⟨.returned (M.ended st₁), by rw [codeStep, if_pos hx, ho, proceed], hreach.trans (.stop ?_)⟩
      simp [blockStep, hlast, stepInst, t]
    | goto l st₁ =>
      rw [ho] at hlands hsends
      refine Or.inl ⟨(.label l, st₁), (t.label l, 0, st₁), by rw [codeStep, if_pos hx, ho, proceed],
        ⟨rfl, ?_, rfl⟩, hlands⟩
      exact EntryPoint.within_label.mpr (h.gotos hsends)
    | retry d st₁ =>
      rw [ho] at hlands hsends
      refine Or.inl ⟨(.retry d, st₁), (t.retry d, 0, st₁), by rw [codeStep, if_pos hx, ho, proceed],
        ⟨rfl, ?_, rfl⟩, hlands⟩
      exact EntryPoint.within_retry.mpr hsends
    | leave st₁ =>
      rw [ho] at hlands
      obtain ⟨fin, hfin, -⟩ := hlands
      cases hfin
    | ret st₁ =>
      rw [ho] at hlands
      exact Or.inr ⟨.returned st₁, by rw [codeStep, if_pos hx, ho, proceed], hlands⟩
    | threw st₁ =>
      rw [ho] at hlands
      exact Or.inr ⟨.unwound st₁, by rw [codeStep, if_pos hx, ho, proceed], hlands⟩
  · exact ⟨rfl, rfl, prolog.map .inst, rfl, rfl, by rw [List.length_map]⟩

end GenBlocks

/-! ## The end of a function -/

namespace Meaning

open Outcome

variable {fn : Instructions} {σ : Type} {M : Meaning fn σ} {code : BnodeTree} {st : σ}

variable (M) in
/-- Where control comes to the end of the code by itself, a return to a finally part that has been
moved there does what the end of the function does. -/
def EndsAlike (code : BnodeTree) (st : σ) : Prop :=
  ∀ x st₁ st₂, Reaches (M.statementStep code) (.start, st, none) (.inl (x, st₁)) →
    M.carrying.run M.ownReturns false 0 code x st₁ = .done st₂ →
      ∀ r ∈ code.finallyReturns, M.runReturn r st₂.1 = .ret (M.ended st₂.1)

/-- The same entry and state, where the return beside the state is one to a finally part. -/
structure SameEntry (M : Meaning fn σ) (code : BnodeTree) (st : σ)
    (e : EntryPoint × σ × Option Return) (e' : EntryPoint × σ) : Prop where
  entry : e.1 = e'.1
  state : e.2.1 = e'.2
  into : e.1.into 0 code
  mem : ∀ r, e.2.2 = some r → r ∈ code.finallyReturns
  reached : Reaches (M.statementStep code) (.start, st, none) (.inl e)

/-- It does not matter which of the returns to a finally part is taken after that part. -/
theorem moved_simulates (hregular : code.isRegular fn false true) (hgotos : code.gotos ⊆ code.labels)
    (hsame : M.ReturnsAlike code) (hend : M.EndsAlike code st) :
    Simulates (M.statementStep code) (M.codeStep M.movedReturns code) (SameEntry M code st) := by
  intro ⟨x, st₁, p⟩ ⟨x', st₁'⟩ ⟨hentry, hstate, hx, hp, hreach⟩
  dsimp only at hentry hstate hx hp
  subst hentry hstate
  have hmoves := moves_run hsame hp code false 0 x st₁ hregular (List.Subset.refl _)
  have hsends := M.sends_run M.sends_moved false code 0 x st₁
  generalize ho : M.carrying.run M.ownReturns false 0 code x (st₁, p) = o at hmoves
  generalize ho' : M.run M.movedReturns false 0 code x st₁ = o' at hmoves hsends
  have hown : M.statementStep code (x, st₁, p) =
      some ((M.carrying.proceed o).map id (Exit.map Prod.fst)) := by
    rw [statementStep, codeStep, if_pos hx, ho]
    rfl
  have hmoved : Advances (M.codeStep M.movedReturns code) (x, st₁) (M.proceed o') := by
    refine .single ?_
    rw [codeStep, if_pos hx, ho']
  cases hmoves with
  | ended hr st₂ =>
    rw [hend x (st₁, p) st₂ hreach ho _ hr] at hmoved
    exact .inr ⟨_, hown, hmoved⟩
  | same hp' hcarries =>
    cases hcarries with
    | done st₂ => exact .inr ⟨_, hown, hmoved⟩
    | ret st₂ => exact .inr ⟨_, hown, hmoved⟩
    | threw st₂ => exact .inr ⟨_, hown, hmoved⟩
    | leave hr st₂ => exact absurd hr List.not_mem_nil
    | goto l st₂ =>
      refine .inl ⟨_, _, hown, ⟨rfl, rfl, ?_, hp', hreach.trans (.next hown (.refl _))⟩, hmoved⟩
      exact EntryPoint.within_label.mpr (hgotos hsends)
    | retry d st₂ =>
      refine .inl ⟨_, _, hown, ⟨rfl, rfl, ?_, hp', hreach.trans (.next hown (.refl _))⟩, hmoved⟩
      exact EntryPoint.within_retry.mpr hsends

end Meaning

namespace GenBlocks

open Meaning

variable {fn : Instructions} {σ : Type} {code : BnodeTree} {prolog : List InstRef}

/-- The blocks of a function end with the results that its statements mean, and no block is left
open where control comes to the end of it. -/
theorem gen_correct (h : code.WellFormed fn) {s : GenBlocks}
    (hgen : gen fn (prolog.map .inst) code = some s) (M : Meaning fn σ) (st : σ)
    (hsame : M.ReturnsAlike code) (hend : M.EndsAlike code st) :
    (∀ r, Reaches (M.statementStep code) (.start, st, none) (.inr r) ↔
        Reaches (M.blockStep s.blocks) (0, prolog.length, st) (.inr r)) ∧
      ∀ q, Reaches (M.blockStep s.blocks) (0, prolog.length, st) (.inl q) →
        (M.blockStep s.blocks q).isSome := by
  obtain ⟨R, hsim, hstart⟩ := gen_simulates h hgen M
  have hmoved := moved_simulates h.regular h.gotos hsame hend
  have hentry : SameEntry M code st (.start, st, none) (.start, st) :=
    ⟨rfl, rfl, rfl, fun r hr => absurd hr.symm (Option.some_ne_none r), .refl _⟩
  refine ⟨fun r => ?_, fun q => hsim.not_stuck (hstart st)⟩
  rw [hmoved.ends_iff hentry r, hsim.ends_iff (hstart st) r]

/-- A loop whose call may throw, in an exception statement with a finally part and two returns. -/
theorem gen_correct_loop :
    let fn : Instructions := ⟨fun _ => [], fun i => i == 2⟩
    let code : BnodeTree := .block [] [.excepStmt
      (.block [] [.labelStmt 0, .ifStmt (.expr [] (some (.instruction 1)) [1])
        (.block [] [.exprStmt (.expr [] none [2]), .gotoStmt 0])
        (.returnStmt (.expr [] none [4]) 5)])
      (.block [] [.exprStmt (.expr [] none [3]), .returnStmt (.expr [] none [7]) 8]) true
      (.exprStmt (.expr [] none [6]))]
    let M : Meaning fn ℕ := ⟨fun i n => if i = 2 then n - 1 else n, fun i n => i == 2 && n == 5,
      fun _ n => n != 0, fun _ _ => 0, fun _ n => n, id, fun _ _ h => (Bool.and_eq_true_iff.mp h).1⟩
    ∃ s, gen fn [] code = some s ∧
      Reaches (M.blockStep s.blocks) (0, 0, 2) (.inr (.returned 0)) ∧
      Reaches (M.blockStep s.blocks) (0, 0, 6) (.inr (.returned 4)) := by
  intro fn code M
  have hwell : code.WellFormed fn := ⟨by decide, by decide, by decide⟩
  have hreturns : ∀ r ∈ code.finallyReturns, ∀ n, M.runReturn r n = .ret n := by
    intro r hr n
    rcases List.mem_pair.mp hr with rfl | rfl <;> rfl
  have hsame : M.ReturnsAlike code := by
    intro r hr r' hr' n
    rw [hreturns r hr, hreturns r' hr']
  have hend : ∀ n, M.EndsAlike code n := fun _ _ _ st _ _ r hr => hreturns r hr st.1
  obtain ⟨s, hs⟩ : ∃ s, gen fn ([].map .inst) code = some s := ⟨_, rfl⟩
  refine ⟨s, hs, ((gen_correct hwell hs M 2 hsame (hend 2)).1 _).mp ?_,
    ((gen_correct hwell hs M 6 hsame (hend 6)).1 _).mp ?_⟩
  · exact .next rfl (.next rfl (.stop rfl))
  · exact .next rfl (.stop rfl)

end GenBlocks
end Dragongo
