import Dragongo.StatementMeaning

/-!
# Returns to a finally part

Each return to a finally part comes after that part.  If all of them mean the same there, as those
do that load one variable, then any one of them can be taken for the others.
-/

namespace Dragongo

/-! ## Carrying a return along -/

namespace Outcome

variable {σ : Type} {p : Option Return} {returns returns' : List Return}
  {o : Outcome (σ × Option Return)} {o' : Outcome σ}

/-- The same outcome with and without a return beside the state.  A return to a finally part puts
itself there, and is one of these. -/
inductive Carries (p : Option Return) (returns : List Return) :
    Outcome (σ × Option Return) → Outcome σ → Prop
  | done (st : σ) : Carries p returns (.done (st, p)) (.done st)
  | goto (l : LabelId) (st : σ) : Carries p returns (.goto l (st, p)) (.goto l st)
  | retry (d : ℕ) (st : σ) : Carries p returns (.retry d (st, p)) (.retry d st)
  | leave {r : Return} (hr : r ∈ returns) (st : σ) :
    Carries p returns (.leave (st, some r)) (.leave st)
  | ret (st : σ) : Carries p returns (.ret (st, p)) (.ret st)
  | threw (st : σ) : Carries p returns (.threw (st, p)) (.threw st)

theorem Carries.mono (h : Carries p returns o o') (hsub : returns ⊆ returns') :
    Carries p returns' o o' := by
  cases h with
  | done st => exact .done st
  | goto l st => exact .goto l st
  | retry d st => exact .retry d st
  | leave hr st => exact .leave (hsub hr) st
  | ret st => exact .ret st
  | threw st => exact .threw st

theorem Carries.andThen {f : σ × Option Return → Outcome (σ × Option Return)} {f' : σ → Outcome σ}
    (h : Carries p returns o o') (hf : ∀ st, Carries p returns (f (st, p)) (f' st)) :
    Carries p returns (o.andThen f) (o'.andThen f') := by
  cases h with
  | done st => exact hf st
  | goto l st => exact .goto l st
  | retry d st => exact .retry d st
  | leave hr st => exact .leave hr st
  | ret st => exact .ret st
  | threw st => exact .threw st

theorem Carries.handle {f : σ × Option Return → Outcome (σ × Option Return)} {f' : σ → Outcome σ}
    (h : Carries p returns o o') (hf : ∀ st, Carries p returns (f (st, p)) (f' st)) :
    Carries p returns (o.handle f) (o'.handle f') := by
  cases h with
  | done st => exact .done st
  | goto l st => exact .goto l st
  | retry d st => exact .retry d st
  | leave hr st => exact .leave hr st
  | ret st => exact .ret st
  | threw st => exact hf st

/-- Without returns to a finally part that part is next. -/
theorem Carries.caught {fall : σ × Option Return → σ × Option Return}
    {finish : σ × Option Return → Outcome (σ × Option Return)} {finish' : σ → Outcome σ}
    (h : Carries p [] o o') (hfall : ∀ st, fall (st, p) = (st, p))
    (hf : ∀ st, Carries p returns (finish (st, p)) (finish' st)) :
    Carries p returns (Meaning.caught fall finish o) (Meaning.caught id finish' o') := by
  cases h with
  | done st =>
    rw [Meaning.caught, hfall]
    exact hf st
  | goto l st => exact .goto l st
  | retry d st => exact .retry d st
  | leave hr st => exact absurd hr List.not_mem_nil
  | ret st => exact .ret st
  | threw st =>
    rw [Meaning.caught, hfall]
    exact hf st

end Outcome

namespace Meaning

open Outcome

variable {fn : Instructions} {σ : Type} (M : Meaning fn σ) {pad : Bool} {returns : List Return}

theorem carries_runInsts (insts : List InstRef) (st : σ) (p : Option Return) :
    Carries p returns (M.carrying.runInsts insts (st, p)) (M.runInsts insts st) := by
  induction insts generalizing st with
  | nil => exact .done st
  | cons i insts ih =>
    have hthrows : M.carrying.throws i (st, p) = M.throws i st := rfl
    rw [runInsts, runInsts, hthrows]
    split_ifs
    · exact .threw (M.exec i st)
    · exact ih (M.exec i st)

mutual
theorem carries_runCode : ∀ (n : BnodeTree) (st : σ) (p : Option Return),
    Carries p returns (M.carrying.runCode n (st, p)) (M.runCode n st)
  | .expr kids _ insts, st, p => by
    rw [runCode, runCode]
    exact (carries_runCodes kids st p).andThen fun st => M.carries_runInsts insts st p
  | .exprStmt e, st, p => by
    rw [runCode, runCode]
    exact carries_runCode e st p
  | .block _ stmts, st, p => by
    rw [runCode, runCode]
    exact carries_runCodes stmts st p
  | .ifStmt cond trueBlock falseBlock, st, p => by
    rw [runCode, runCode]
    refine (carries_runCode cond st p).andThen fun st => ?_
    have htruth : ∀ v, M.carrying.truth v (st, p) = M.truth v st := fun _ => rfl
    simp only [htruth]
    split_ifs
    · exact carries_runCode trueBlock st p
    · exact carries_runCode falseBlock st p
  | .switchStmt .., st, p | .gotoStmt _, st, p | .labelStmt _, st, p | .returnStmt .., st, p
  | .deferStmt .., st, p | .excepStmt .., st, p => by
    simp only [runCode]
    exact .done st
theorem carries_runCodes : ∀ (ns : List BnodeTree) (st : σ) (p : Option Return),
    Carries p returns (M.carrying.runCodes ns (st, p)) (M.runCodes ns st)
  | [], st, p => by
    rw [runCodes, runCodes]
    exact .done st
  | n :: ns, st, p => by
    rw [runCodes, runCodes]
    exact (carries_runCode n st p).andThen fun st => carries_runCodes ns st p
end

theorem carries_runReturn (r : Return) (st : σ) (p : Option Return) :
    Carries p returns (M.carrying.runReturn r (st, p)) (M.runReturn r st) :=
  (M.carries_runCode r.1 st p).andThen fun st => .ret (M.returned r.2 st)

/-! ## Statements that others come after -/

theorem fall_nil (st : σ × Option Return) : M.ownReturns.fall [] st = st := rfl

theorem after_nil (st : σ × Option Return) : M.ownReturns.after [] st = .done st := rfl

theorem returnsToFinally_eq_nil {body onexception : BnodeTree} {hasFinally : Bool}
    (h : (!hasFinally || (body.returns ++ onexception.returns).isEmpty) = true) :
    BnodeTree.returnsToFinally body onexception hasFinally = [] := by
  cases hasFinally with
  | false => rfl
  | true => exact List.isEmpty_iff.mp h

theorem returns_subset_finally {body onexception : BnodeTree} {hasFinally : Bool}
    (h : hasFinally) : body.returns ⊆ BnodeTree.returnsToFinally body onexception hasFinally ∧
      onexception.returns ⊆ BnodeTree.returnsToFinally body onexception hasFinally := by
  rw [BnodeTree.returnsToFinally, if_pos h]
  exact ⟨List.subset_append_left _ _, List.subset_append_right _ _⟩

mutual
/-- A statement that others may come after does the same whichever return is taken after a finally
part. -/
theorem carries_run (returns : List Return) (fin : Bool) (p : Option Return) : ∀ (n : BnodeTree)
    (pad : Bool) (d : ℕ) (x : EntryPoint) (st : σ), n.isRegular fn pad false →
      (fin → n.returns ⊆ returns) →
        Carries p returns (M.carrying.run M.ownReturns fin d n x (st, p))
          (M.run M.movedReturns fin d n x st)
  | .expr kids _ insts, pad, d, x, st, h, hfin => by
    rw [run, run]
    exact (carries_runAll returns fin p kids pad d x st h hfin).andThen fun st =>
      M.carries_runInsts insts st p
  | .exprStmt e, pad, d, x, st, h, hfin => by
    rw [run, run]
    exact carries_run returns fin p e pad d x st h hfin
  | .block _ stmts, pad, d, x, st, h, hfin => by
    rw [run, run]
    exact carries_runAll returns fin p stmts pad d x st h hfin
  | .ifStmt cond trueBlock falseBlock, pad, d, x, st, h, hfin => by
    simp only [BnodeTree.isRegular, Bool.and_eq_true] at h
    simp only [BnodeTree.returns, List.append_subset] at hfin
    have htruth : ∀ v st, M.carrying.truth v (st, p) = M.truth v st := fun _ _ => rfl
    have htrue := fun x st => carries_run returns fin p trueBlock pad (d + cond.defers) x st h.1.2
      fun hf => (hfin hf).1.2
    have hfalse := fun x st => carries_run returns fin p falseBlock pad
      (d + cond.defers + trueBlock.defers) x st h.2 fun hf => (hfin hf).2
    rw [run, run]
    split_ifs
    · refine (carries_run returns fin p cond pad d x st h.1.1 fun hf => (hfin hf).1.1).andThen
        fun st => ?_
      simp only [htruth]
      split_ifs
      · exact htrue .start st
      · exact hfalse .start st
    · exact htrue x st
    · exact hfalse x st
  | .switchStmt swvalue vals stmts, pad, d, x, st, h, hfin => by
    simp only [BnodeTree.isRegular, Bool.and_eq_true] at h
    simp only [BnodeTree.returns, List.append_subset] at hfin
    have hselect : ∀ v st, M.carrying.select v (st, p) = M.select v st := fun _ _ => rfl
    rw [run, run]
    split_ifs
    · refine (carries_run returns fin p swvalue pad d x st h.1 fun hf => (hfin hf).1).andThen
        fun st => ?_
      simp only [hselect]
      cases swvalue.value.bind fun v => caseOf vals (M.select v st) with
      | none => exact .done st
      | some k => exact carries_runNth returns fin p stmts pad _ k st h.2 fun hf => (hfin hf).2
    · exact carries_runCase returns fin p stmts pad _ x st h.2 fun hf => (hfin hf).2
  | .gotoStmt label, pad, d, x, st, h, hfin => by
    rw [run, run]
    exact .goto label st
  | .labelStmt _, pad, d, x, st, h, hfin => by
    rw [run, run]
    exact .done st
  | .returnStmt re ri, pad, d, x, st, h, hfin => by
    rw [run, run]
    by_cases hf : fin
    · rw [if_pos hf, if_pos hf]
      exact .leave (hfin hf (List.mem_singleton_self _)) st
    · rw [if_neg hf, if_neg hf]
      exact M.carries_runReturn (re, ri) st p
  | .deferStmt undefer defer, pad, d, x, st, h, hfin => by
    simp only [BnodeTree.isRegular, Bool.and_eq_true] at h
    simp only [BnodeTree.returns, List.append_subset] at hfin
    have hagain : ∀ x st, Carries p returns
        (again d (M.carrying.run M.ownReturns fin (d + 1 + undefer.defers) defer x (st, p)))
        (again d (M.run M.movedReturns fin (d + 1 + undefer.defers) defer x st)) := fun x st =>
      (carries_run returns fin p defer pad _ x st h.2 fun hf => (hfin hf).2).andThen fun st =>
        .retry d st
    rw [run, run]
    split_ifs
    · exact (carries_run returns fin p undefer true (d + 1) _ st h.1 fun hf =>
        (hfin hf).1).handle (hagain .start)
    · exact (carries_run returns fin p undefer true (d + 1) _ st h.1 fun hf =>
        (hfin hf).1).handle (hagain .start)
    · exact hagain x st
  | .excepStmt body onexception hasFinally finally_, pad, d, x, st, h, hfin => by
    simp only [BnodeTree.isRegular, Bool.and_eq_true, Bool.false_or] at h
    obtain ⟨⟨⟨⟨hbody, honexc⟩, hfinally⟩, -⟩, hempty⟩ := h
    have hnil := returnsToFinally_eq_nil hempty
    have hnone : hasFinally → body.returns ⊆ [] ∧ onexception.returns ⊆ [] := by
      intro hf
      rw [← hnil]
      exact returns_subset_finally hf
    have hon := fun x st => carries_run [] hasFinally p onexception true (d + body.defers) x st
      honexc fun hf => (hnone hf).2
    have hafter : ∀ x st, Carries p returns
        ((M.carrying.run M.ownReturns false (d + body.defers + onexception.defers) finally_ x
          (st, p)).andThen (M.ownReturns.after []))
        ((M.run M.movedReturns false (d + body.defers + onexception.defers) finally_ x st).andThen
          (M.movedReturns.after [])) := fun x st =>
      (carries_run returns false p finally_ false _ x st hfinally
        fun hf => absurd hf Bool.false_ne_true).andThen fun st => by
          rw [after_nil]
          exact .done st
    have hfinish : ∀ st, Carries p returns
        (if hasFinally then (M.carrying.run M.ownReturns false
            (d + body.defers + onexception.defers) finally_ .start (st, p)).andThen
              (M.ownReturns.after []) else .done (st, p))
        (if hasFinally then (M.run M.movedReturns false (d + body.defers + onexception.defers)
            finally_ .start st).andThen (M.movedReturns.after []) else .done st) := by
      intro st
      split_ifs
      · exact hafter .start st
      · exact .done st
    rw [run, run, hnil]
    by_cases hx : x.into d body
    · rw [if_pos hx, if_pos hx]
      exact ((carries_run [] hasFinally p body true d x st hbody fun hf =>
        (hnone hf).1).handle (hon .start)).caught (fun st => M.fall_nil (st, p)) hfinish
    · rw [if_neg hx, if_neg hx]
      by_cases hx' : x.into (d + body.defers) onexception
      · rw [if_pos hx', if_pos hx']
        exact (hon x st).caught (fun st => M.fall_nil (st, p)) hfinish
      · rw [if_neg hx', if_neg hx']
        exact hafter x st
theorem carries_runAll (returns : List Return) (fin : Bool) (p : Option Return) :
    ∀ (ns : List BnodeTree) (pad : Bool) (d : ℕ) (x : EntryPoint) (st : σ),
      BnodeTree.areRegular fn pad false ns → (fin → BnodeTree.returnsAll ns ⊆ returns) →
        Carries p returns (M.carrying.runAll M.ownReturns fin d ns x (st, p))
          (M.runAll M.movedReturns fin d ns x st)
  | [], pad, d, x, st, h, hfin => by
    rw [runAll, runAll]
    exact .done st
  | n :: ns, pad, d, x, st, h, hfin => by
    simp only [BnodeTree.areRegular, Bool.and_eq_true, Bool.false_and] at h
    simp only [BnodeTree.returnsAll, List.append_subset] at hfin
    have hrest := fun x st => carries_runAll returns fin p ns pad (d + n.defers) x st h.2
      fun hf => (hfin hf).2
    rw [runAll, runAll]
    split_ifs
    · exact (carries_run returns fin p n pad d x st h.1 fun hf => (hfin hf).1).andThen
        (hrest .start)
    · exact hrest x st
theorem carries_runNth (returns : List Return) (fin : Bool) (p : Option Return) :
    ∀ (ns : List BnodeTree) (pad : Bool) (d k : ℕ) (st : σ),
      BnodeTree.casesRegular fn pad ns → (fin → BnodeTree.returnsAll ns ⊆ returns) →
        Carries p returns (M.carrying.runNth M.ownReturns fin d ns k (st, p))
          (M.runNth M.movedReturns fin d ns k st)
  | [], pad, d, k, st, h, hfin => by
    rw [runNth, runNth]
    exact .done st
  | n :: ns, pad, d, k, st, h, hfin => by
    simp only [BnodeTree.casesRegular, Bool.and_eq_true] at h
    simp only [BnodeTree.returnsAll, List.append_subset] at hfin
    cases k with
    | zero =>
      rw [runNth, runNth]
      exact carries_run returns fin p n pad d .start st h.1.1 fun hf => (hfin hf).1
    | succ k =>
      rw [runNth, runNth]
      exact carries_runNth returns fin p ns pad _ k st h.2 fun hf => (hfin hf).2
theorem carries_runCase (returns : List Return) (fin : Bool) (p : Option Return) :
    ∀ (ns : List BnodeTree) (pad : Bool) (d : ℕ) (x : EntryPoint) (st : σ),
      BnodeTree.casesRegular fn pad ns → (fin → BnodeTree.returnsAll ns ⊆ returns) →
        Carries p returns (M.carrying.runCase M.ownReturns fin d ns x (st, p))
          (M.runCase M.movedReturns fin d ns x st)
  | [], pad, d, x, st, h, hfin => by
    rw [runCase, runCase]
    exact .done st
  | n :: ns, pad, d, x, st, h, hfin => by
    simp only [BnodeTree.casesRegular, Bool.and_eq_true] at h
    simp only [BnodeTree.returnsAll, List.append_subset] at hfin
    rw [runCase, runCase]
    split_ifs
    · exact carries_run returns fin p n pad d x st h.1.1 fun hf => (hfin hf).1
    · exact carries_runCase returns fin p ns pad _ x st h.2 fun hf => (hfin hf).2
end

theorem carries_run_direct (n : BnodeTree) (pad : Bool) (d : ℕ) (x : EntryPoint) (st : σ)
    (p : Option Return) (h : n.isRegular fn pad false) :
    Carries p [] (M.carrying.run M.ownReturns false d n x (st, p))
      (M.run M.movedReturns false d n x st) :=
  M.carries_run [] false p n pad d x st h fun hf => absurd hf Bool.false_ne_true

end Meaning

/-! ## The end of the code -/

namespace Outcome

variable {fn : Instructions} {σ : Type}

/-- The same outcome where one return is taken for all, or that return in place of the end. -/
inductive Moves (M : Meaning fn σ) (returns : List Return) :
    Outcome (σ × Option Return) → Outcome σ → Prop
  | same {p : Option Return} {o : Outcome (σ × Option Return)} {o' : Outcome σ}
    (hp : ∀ r, p = some r → r ∈ returns) (h : Carries p [] o o') : Moves M returns o o'
  | ended {r : Return} (hr : r ∈ returns) (st : σ × Option Return) :
    Moves M returns (.done st) (M.runReturn r st.1)

end Outcome

namespace Meaning

open Outcome

variable {fn : Instructions} {σ : Type} (M : Meaning fn σ)

/-- The returns to a finally part mean the same, as those do that load one variable. -/
def ReturnsAlike (code : BnodeTree) : Prop :=
  ∀ r ∈ code.finallyReturns, ∀ r' ∈ code.finallyReturns, ∀ st, M.runReturn r st = M.runReturn r' st

section Moves

variable {M} {returns : List Return}

/-- What comes after the finally part. -/
theorem moves_after {rets : List Return} {p : Option Return} {o : Outcome (σ × Option Return)}
    {o' : Outcome σ}
    (hsame : ∀ r ∈ returns, ∀ r' ∈ returns, ∀ st, M.runReturn r st = M.runReturn r' st)
    (hrets : rets ⊆ returns) (hp : ∀ r, p = some r → r ∈ returns) (h : Carries p [] o o') :
    Moves M returns (o.andThen (M.ownReturns.after rets))
      (o'.andThen (M.movedReturns.after rets)) := by
  cases rets with
  | nil => exact .same hp (h.andThen fun st => .done st)
  | cons r₀ rets =>
    have hr₀ : r₀ ∈ returns := hrets List.mem_cons_self
    cases h with
    | done st =>
      cases p with
      | none => exact .ended hr₀ (st, none)
      | some r =>
        refine .same hp ?_
        have hmoved : (Outcome.done st).andThen (M.movedReturns.after (r₀ :: rets)) =
            M.runReturn r st := hsame r₀ hr₀ r (hp r rfl) st
        rw [hmoved]
        exact M.carries_runReturn r st (some r)
    | goto l st => exact .same hp (.goto l st)
    | retry d st => exact .same hp (.retry d st)
    | leave hr st => exact absurd hr List.not_mem_nil
    | ret st => exact .same hp (.ret st)
    | threw st => exact .same hp (.threw st)

/-- The finally part and what comes after it, in whatever way control comes to it. -/
theorem moves_caught {rets : List Return} {p : Option Return} {o : Outcome (σ × Option Return)}
    {o' : Outcome σ} {f : σ × Option Return → Outcome (σ × Option Return)} {f' : σ → Outcome σ}
    (hsame : ∀ r ∈ returns, ∀ r' ∈ returns, ∀ st, M.runReturn r st = M.runReturn r' st)
    (hrets : rets ⊆ returns) (hp : ∀ r, p = some r → r ∈ returns) (h : Carries p rets o o')
    (hf : ∀ p st, Carries p [] (f (st, p)) (f' st)) :
    Moves M returns
      (caught (M.ownReturns.fall rets) (fun st => (f st).andThen (M.ownReturns.after rets)) o)
      (caught id (fun st => (f' st).andThen (M.movedReturns.after rets)) o') := by
  have hfall : ∀ st, ∃ q, M.ownReturns.fall rets (st, p) = (st, q) ∧
      ∀ r, q = some r → r ∈ returns := by
    intro st
    cases rets with
    | nil => exact ⟨p, rfl, hp⟩
    | cons r₀ rets => exact ⟨none, rfl, fun r hr => absurd hr.symm (Option.some_ne_none r)⟩
  cases h with
  | done st =>
    obtain ⟨q, hq, hmem⟩ := hfall st
    rw [caught, hq]
    exact moves_after hsame hrets hmem (hf q st)
  | threw st =>
    obtain ⟨q, hq, hmem⟩ := hfall st
    rw [caught, hq]
    exact moves_after hsame hrets hmem (hf q st)
  | @leave r hr st =>
    refine moves_after hsame hrets (fun r' heq => ?_) (hf (some r) st)
    rw [← Option.some.inj heq]
    exact hrets hr
  | goto l st => exact .same hp (.goto l st)
  | retry d st => exact .same hp (.retry d st)
  | ret st => exact .same hp (.ret st)

/-- What comes after a statement that others come after. -/
theorem moves_andThen {p : Option Return} {o : Outcome (σ × Option Return)} {o' : Outcome σ}
    {f : σ × Option Return → Outcome (σ × Option Return)} {f' : σ → Outcome σ}
    (hp : ∀ r, p = some r → r ∈ returns) (h : Carries p [] o o')
    (hf : ∀ st, Moves M returns (f (st, p)) (f' st)) :
    Moves M returns (o.andThen f) (o'.andThen f') := by
  cases h with
  | done st => exact hf st
  | goto l st => exact .same hp (.goto l st)
  | retry d st => exact .same hp (.retry d st)
  | leave hr st => exact absurd hr List.not_mem_nil
  | ret st => exact .same hp (.ret st)
  | threw st => exact .same hp (.threw st)

theorem runAll_nil {τ : Type} (M : Meaning fn τ) (R : FinallyReturns τ) (fin : Bool) (d : ℕ)
    (x : EntryPoint) : M.runAll R fin d [] x = .done := by
  funext st
  rw [runAll]

theorem runAll_cons {τ : Type} (M : Meaning fn τ) (R : FinallyReturns τ) (fin : Bool) (d : ℕ)
    (n : BnodeTree) (ns : List BnodeTree) (x : EntryPoint) (st : τ) :
    M.runAll R fin d (n :: ns) x st =
      if x.into d n then (M.run R fin d n x st).andThen (M.runAll R fin (d + n.defers) ns .start)
      else M.runAll R fin (d + n.defers) ns x st := by
  rw [runAll]

mutual
/-- The code of a function does the same if one return is taken for all, up to the end of it. -/
theorem moves_run (hsame : ∀ r ∈ returns, ∀ r' ∈ returns, ∀ st,
      M.runReturn r st = M.runReturn r' st) {p : Option Return}
    (hp : ∀ r, p = some r → r ∈ returns) : ∀ (n : BnodeTree) (pad : Bool) (d : ℕ) (x : EntryPoint)
    (st : σ), n.isRegular fn pad true → n.finallyReturns ⊆ returns →
      Moves M returns (M.carrying.run M.ownReturns false d n x (st, p))
        (M.run M.movedReturns false d n x st)
  | .block _ stmts, pad, d, x, st, h, hrets => by
    rw [run, run]
    exact moves_runAll hsame hp stmts pad d x st h hrets
  | .excepStmt body onexception hasFinally finally_, pad, d, x, st, h, hrets => by
    simp only [BnodeTree.isRegular, Bool.and_eq_true] at h
    obtain ⟨⟨⟨⟨hbody, honexc⟩, hfinally⟩, -⟩, -⟩ := h
    have hon := fun x st => M.carries_run (BnodeTree.returnsToFinally body onexception hasFinally)
      hasFinally p onexception true (d + body.defers) x st honexc fun hf =>
        (returns_subset_finally hf).2
    have hfin := fun x p st => M.carries_run_direct finally_ false
      (d + body.defers + onexception.defers) x st p hfinally
    have hboth := fun st => (M.carries_run
      (BnodeTree.returnsToFinally body onexception hasFinally) hasFinally p body true d x st hbody
        fun hf => (returns_subset_finally hf).1).handle (hon .start)
    -- the finally part comes next, if there is one
    have hcaught : ∀ o o',
        Carries p (BnodeTree.returnsToFinally body onexception hasFinally) o o' →
        Moves M returns
          (caught (M.ownReturns.fall (BnodeTree.returnsToFinally body onexception hasFinally))
            (fun st => if hasFinally then (M.carrying.run M.ownReturns false
                (d + body.defers + onexception.defers) finally_ .start st).andThen
              (M.ownReturns.after (BnodeTree.returnsToFinally body onexception hasFinally))
              else .done st) o)
          (caught id (fun st => if hasFinally then (M.run M.movedReturns false
                (d + body.defers + onexception.defers) finally_ .start st).andThen
              (M.movedReturns.after (BnodeTree.returnsToFinally body onexception hasFinally))
              else .done st) o') := by
      intro o o' ho
      cases hasFinally with
      | false => exact .same hp (ho.caught (fun st => M.fall_nil (st, p)) fun st => .done st)
      | true => exact moves_caught hsame hrets hp ho fun p st => hfin .start p st
    rw [run, run]
    by_cases hx : x.into d body
    · rw [if_pos hx, if_pos hx]
      exact hcaught _ _ (hboth st)
    · rw [if_neg hx, if_neg hx]
      by_cases hx' : x.into (d + body.defers) onexception
      · rw [if_pos hx', if_pos hx']
        exact hcaught _ _ (hon x st)
      · rw [if_neg hx', if_neg hx']
        exact moves_after hsame hrets hp (hfin x p st)
  | .expr kids value insts, pad, d, x, st, h, _ => .same hp
    (M.carries_run_direct (.expr kids value insts) pad d x st p h)
  | .exprStmt e, pad, d, x, st, h, _ => .same hp
    (M.carries_run_direct (.exprStmt e) pad d x st p h)
  | .ifStmt cond trueBlock falseBlock, pad, d, x, st, h, _ => .same hp
    (M.carries_run_direct (.ifStmt cond trueBlock falseBlock) pad d x st p h)
  | .switchStmt swvalue vals stmts, pad, d, x, st, h, _ => .same hp
    (M.carries_run_direct (.switchStmt swvalue vals stmts) pad d x st p h)
  | .gotoStmt label, pad, d, x, st, h, _ => .same hp
    (M.carries_run_direct (.gotoStmt label) pad d x st p h)
  | .labelStmt label, pad, d, x, st, h, _ => .same hp
    (M.carries_run_direct (.labelStmt label) pad d x st p h)
  | .returnStmt re ri, pad, d, x, st, h, _ => .same hp
    (M.carries_run_direct (.returnStmt re ri) pad d x st p h)
  | .deferStmt undefer defer, pad, d, x, st, h, _ => .same hp
    (M.carries_run_direct (.deferStmt undefer defer) pad d x st p h)
theorem moves_runAll (hsame : ∀ r ∈ returns, ∀ r' ∈ returns, ∀ st,
      M.runReturn r st = M.runReturn r' st) {p : Option Return}
    (hp : ∀ r, p = some r → r ∈ returns) : ∀ (ns : List BnodeTree) (pad : Bool) (d : ℕ)
    (x : EntryPoint) (st : σ), BnodeTree.areRegular fn pad true ns →
      BnodeTree.finallyReturnsAll ns ⊆ returns →
        Moves M returns (M.carrying.runAll M.ownReturns false d ns x (st, p))
          (M.runAll M.movedReturns false d ns x st)
  | [], pad, d, x, st, _, _ => by
    rw [runAll, runAll]
    exact .same hp (.done st)
  | [n], pad, d, x, st, h, hrets => by
    simp only [BnodeTree.areRegular, List.isEmpty_nil, Bool.and_true] at h
    rw [BnodeTree.finallyReturnsAll, BnodeTree.finallyReturnsAll, List.append_nil] at hrets
    rw [runAll_cons, runAll_cons, runAll_nil, runAll_nil, runAll_nil, runAll_nil, andThen_done,
      andThen_done]
    split_ifs
    · exact moves_run hsame hp n pad d x st h hrets
    · exact .same hp (.done st)
  | n :: m :: ns, pad, d, x, st, h, hrets => by
    rw [BnodeTree.areRegular, List.isEmpty_cons, Bool.and_false, Bool.and_eq_true] at h
    rw [BnodeTree.finallyReturnsAll, List.append_subset] at hrets
    have hrest := fun x st => moves_runAll hsame hp (m :: ns) pad (d + n.defers) x st h.2 hrets.2
    rw [runAll_cons, runAll_cons M]
    split_ifs
    · exact moves_andThen hp (M.carries_run_direct n pad d x st p h.1) (hrest .start)
    · exact hrest x st
end

end Moves

end Meaning
end Dragongo
