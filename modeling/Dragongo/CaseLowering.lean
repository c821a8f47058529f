import Dragongo.ControlFlow

/-!
# Switch statements do what they mean

The body of each case is walked from a block of its own, and the branch to what comes after
the switch is put at the end of that block.
-/

namespace Dragongo

open Simulation

namespace GenBlocks

/-! ## The case that is taken -/

section Cases

variable {first epilog : BlockRef} {vals : List (List ℤ)}

theorem zipIdx_find? (p : List ℤ → Bool) (first : ℕ) (vals : List (List ℤ)) :
    ((vals.zipIdx first).find? fun c => p c.1).map Prod.snd =
      (vals.findIdx? p).map (first + ·) := by
  induction vals generalizing first with
  | nil => rfl
  | cons vs vals ih =>
    rw [List.zipIdx_cons, List.find?_cons, List.findIdx?_cons]
    by_cases hp : p vs
    · simp [hp]
    · simp only [hp, Bool.false_eq_true, if_false, ih, Option.map_map]
      congr 1
      funext k
      simp [Nat.add_assoc, Nat.add_comm 1]

theorem caseTargets_find? (v : ℤ) (first : ℕ) (vals : List (List ℤ)) :
    ((caseTargets first vals).find? fun c => decide (c.1 = v)).map Prod.snd =
      (vals.findIdx? fun c => decide (v ∈ c)).map (first + ·) := by
  induction vals generalizing first with
  | nil => rfl
  | cons vs vals ih =>
    have hcons : caseTargets first (vs :: vals) =
        vs.map (fun w => (w, first)) ++ caseTargets (first + 1) vals := rfl
    rw [hcons, List.find?_append, List.find?_map, List.findIdx?_cons]
    by_cases hv : v ∈ vs
    · obtain ⟨w, hw⟩ : ∃ w, vs.find? ((fun c : ℤ × BlockRef => decide (c.1 = v)) ∘
          fun w => (w, first)) = some w := by
        rw [← Option.isSome_iff_exists, List.find?_isSome]
        exact ⟨v, hv, decide_eq_true rfl⟩
      rw [hw, if_pos (decide_eq_true hv)]
      rfl
    · have hnone : vs.find? ((fun c : ℤ × BlockRef => decide (c.1 = v)) ∘
          fun w => (w, first)) = none := by
        rw [List.find?_eq_none]
        intro w hw heq
        exact hv (of_decide_eq_true heq ▸ hw)
      rw [hnone, if_neg (by simpa using hv), Option.map_none, Option.none_or, ih]
      cases vals.findIdx? fun c => decide (v ∈ c) with
      | none => rfl
      | some k => simp [Nat.add_assoc, Nat.add_comm 1]

theorem defaultBlock_eq {defBB : BlockRef} (h : defaultBlock first epilog vals = some defBB) :
    defBB = ((vals.findIdx? List.isEmpty).map (first + ·)).getD epilog := by
  rw [← zipIdx_find?, ← List.head?_filter]
  unfold defaultBlock at h
  split at h
  · next hnil =>
    cases h
    rw [hnil]
    rfl
  · next c hone =>
    cases h
    rw [hone]
    rfl
  · cases h

/-- A switch goes to the block of its case, and without one to what comes after it. -/
theorem switch_target {defBB : BlockRef} (h : defaultBlock first epilog vals = some defBB)
    (v : ℤ) : (((caseTargets first vals).find? fun c => decide (c.1 = v)).map Prod.snd).getD defBB =
      ((caseOf vals v).map (first + ·)).getD epilog := by
  rw [caseTargets_find?, defaultBlock_eq h, caseOf]
  cases vals.findIdx? fun c => decide (v ∈ c) <;> simp

theorem caseOf_lt {v : ℤ} {k : ℕ} (h : caseOf vals v = some k) : k < vals.length := by
  rw [caseOf, Option.or_eq_some_iff] at h
  rcases h with h | ⟨-, h⟩
  · exact (List.findIdx?_eq_some_iff_getElem.mp h).1
  · exact (List.findIdx?_eq_some_iff_getElem.mp h).1

end Cases

/-! ## The bodies -/

section Bodies

variable {kept : Walk} {fn : Instructions}

theorem addInsts_stays {s s' : GenBlocks} {b : BlockRef} {cur' : Option BlockRef}
    {insts : List InstRef}
    (h : insts.all fun i => !(!s.padBlockStack.isEmpty && fn.mayThrow i))
    (hadd : s.addInsts fn (some b) insts = some (cur', s')) :
    cur' = some b ∧ s'.padBlockStack = s.padBlockStack := by
  induction insts generalizing s with
  | nil =>
    cases hadd
    exact ⟨rfl, rfl⟩
  | cons i insts ih =>
    rw [List.all_cons, Bool.and_eq_true] at h
    have hi : s.addInst fn (some b) i = some (some b, s.push b (.inst i)) := by
      unfold addInst
      cases hpads : s.padBlockStack with
      | nil => rfl
      | cons pad pads =>
        rw [hpads] at h
        have hmay : fn.mayThrow i = false := by simpa using h.1
        exact if_neg (by simp [hmay])
    rw [addInsts, hi] at hadd
    have hrest : (s.push b (.inst i)).addInsts fn (some b) insts = some (cur', s') := hadd
    exact ih (s := s.push b (.inst i)) h.2 hrest

theorem padBlockStack_endLexicalBlock (s : GenBlocks) (vars : List Bvariable) :
    (s.endLexicalBlock vars).padBlockStack = s.padBlockStack :=
  congrArg Rest.pads (rest_endLexicalBlock s vars)

mutual
theorem walk_stays {s s' : GenBlocks} {b : BlockRef} {cur' : Option BlockRef} :
    ∀ n : BnodeTree, n.stays fn (!s.padBlockStack.isEmpty) →
      walkWith kept fn s (some b) n = some (cur', s') →
        cur' = some b ∧ s'.padBlockStack = s.padBlockStack
  | .expr kids _ insts, h, hwalk => by
    rw [BnodeTree.stays, Bool.and_eq_true] at h
    rw [walkWith] at hwalk
    obtain ⟨⟨cur₁, s₁⟩, hkids, hwalk⟩ := Option.bind_eq_some_iff.mp hwalk
    obtain ⟨rfl, hpads⟩ := walkAll_stays kids h.1 hkids
    obtain ⟨hcur, hpads'⟩ := addInsts_stays (hpads.symm ▸ h.2) hwalk
    exact ⟨hcur, hpads'.trans hpads⟩
  | .exprStmt e, h, hwalk => by
    simp only [BnodeTree.stays] at h
    simp only [walkWith] at hwalk
    exact walk_stays e h hwalk
  | .block vars stmts, h, hwalk => by
    rw [BnodeTree.stays] at h
    rw [walkWith] at hwalk
    obtain ⟨⟨cur₁, s₁⟩, hstmts, hwalk⟩ := Option.bind_eq_some_iff.mp hwalk
    cases hwalk
    obtain ⟨hcur, hpads⟩ := walkAll_stays stmts h hstmts
    exact ⟨hcur, (padBlockStack_endLexicalBlock s₁ vars).trans hpads⟩
theorem walkAll_stays {s s' : GenBlocks} {b : BlockRef} {cur' : Option BlockRef} :
    ∀ ns : List BnodeTree, BnodeTree.staysAll fn (!s.padBlockStack.isEmpty) ns →
      walkAllWith kept fn s (some b) ns = some (cur', s') →
        cur' = some b ∧ s'.padBlockStack = s.padBlockStack
  | [], _, hwalk => by
    rw [walkAllWith] at hwalk
    cases hwalk
    exact ⟨rfl, rfl⟩
  | n :: ns, h, hwalk => by
    rw [BnodeTree.staysAll, Bool.and_eq_true] at h
    rw [walkAllWith] at hwalk
    obtain ⟨⟨cur₁, s₁⟩, hn, hwalk⟩ := Option.bind_eq_some_iff.mp hwalk
    obtain ⟨rfl, hpads⟩ := walk_stays n h.1 hn
    obtain ⟨hcur, hpads'⟩ := walkAll_stays ns (hpads.symm ▸ h.2) hwalk
    exact ⟨hcur, hpads'.trans hpads⟩
end

/-- What the bodies of the cases do, each from the block of its case on.  All go on in the block
after the switch. -/
structure CasesTranslated (fn : Instructions) (d : ℕ) (stmts : List BnodeTree) (s s' : GenBlocks)
    (c epilog : BlockRef) : Prop where
  framed : ∀ ⦃ls : List LabelId⦄ ⦃s₀ : GenBlocks⦄ ⦃cur₀ : Option BlockRef⦄,
    Framed ls s₀ cur₀ s none → s₀.blocks.length ≤ c →
      Framed (ls ++ BnodeTree.labelsAll stmts) s₀ cur₀ s' none
  completes : ∀ ⦃t : Target⦄, Completes s' t → Completes s t
  reserved : s'.Reserved none epilog
  rest : s'.rest = s.rest.keep (BnodeTree.returnsAll stmts)
  runs : ∃ r : ℕ → BlockRef, ∀ ⦃t : Target⦄ ⦃s'' : GenBlocks⦄, Completes s' t →
    t.Agrees r d (d + BnodeTree.defersAll stmts) → s''.blocks[epilog]? = some [] →
      ∀ ⦃σ : Type⦄ (M : Meaning fn σ) (st : σ),
        (∀ k < stmts.length, Lands t M s.padBlockStack s.finallyBlock s'' (some epilog)
          (c + k, 0, st) (M.runNth M.movedReturns s.finallyBlock.isSome d stmts k st)) ∧
        ∀ x p, x ≠ .start →
          x.within (BnodeTree.labelsAll stmts) d (d + BnodeTree.defersAll stmts) →
            t.At s none p x → Lands t M s.padBlockStack s.finallyBlock s'' (some epilog)
              (p.1, p.2, st) (M.runCase M.movedReturns s.finallyBlock.isSome d stmts x st)

variable (kept fn) in
def CasesSimulated (stmts : List BnodeTree) : Prop :=
  ∀ ⦃s s' : GenBlocks⦄ ⦃c epilog : BlockRef⦄ (d : ℕ), Ready (BnodeTree.labelsAll stmts) s none →
    BnodeTree.casesRegular fn (!s.padBlockStack.isEmpty) stmts →
      (∀ k < stmts.length, s.Reserved none (c + k)) → s.Reserved none epilog →
        c + stmts.length ≤ epilog → walkCasesWith kept fn s c epilog stmts = some s' →
          CasesTranslated fn d stmts s s' c epilog

theorem casesSimulated_nil : CasesSimulated kept fn [] := by
  intro s s' c epilog d hready _ _ hepilog _ hwalk
  rw [walkCasesWith] at hwalk
  cases hwalk
  refine ⟨fun ls s₀ cur₀ h _ => ?_, fun _ ht => ht, hepilog, (Rest.keep_nil _).symm, fun _ => 0,
    fun t s'' _ _ _ σ M st => ⟨fun k hk => ?_, fun x p hx hin _ => ?_⟩⟩
  · rwa [BnodeTree.labelsAll, List.append_nil]
  · exact absurd hk (Nat.not_lt_zero k)
  · rw [BnodeTree.labelsAll, BnodeTree.defersAll] at hin
    exact absurd (start_of_within_nil hin) hx

/-- A body ends in the block of its case, or nowhere. -/
theorem body_branches {st : BnodeTree} {s s₁ : GenBlocks} {c epilog : BlockRef}
    {cur₁ : Option BlockRef}
    (hregular : !st.ends true || st.stays fn (!s.padBlockStack.isEmpty)) (hc : s.Reserved none c)
    (hframed : Framed st.labels s (some c) s₁ cur₁) (hends : cur₁.isSome = st.ends true)
    (hst : walkWith kept fn s (some c) st = some (cur₁, s₁)) :
    s₁.branchTo (some c) epilog = s₁.branchTo cur₁ epilog := by
  rw [Bool.or_eq_true, Bool.not_eq_true'] at hregular
  rcases hregular with hnone | hstays
  · rw [hnone, Option.isSome_eq_false_iff, Option.isNone_iff_eq_none] at hends
    subst hends
    have hterm : s₁.getTerminator c = true :=
      hframed.left rfl hc.lt hc.plain fun h => Option.some_ne_none c h.symm
    exact if_pos hterm
  · rw [(walk_stays st hstays hst).1]

theorem casesSimulated_cons {st : BnodeTree} {stmts : List BnodeTree}
    (h : Simulated kept fn st) (hs : CasesSimulated kept fn stmts) :
    CasesSimulated kept fn (st :: stmts) := by
  intro s s' c epilog d hready hregular hcases hepilog hle hwalk
  rw [walkCasesWith] at hwalk
  obtain ⟨⟨cur₁, s₁⟩, hst, hwalk⟩ := Option.bind_eq_some_iff.mp hwalk
  simp only [BnodeTree.casesRegular, Bool.and_eq_true] at hregular
  rw [BnodeTree.labelsAll] at hready
  rw [List.length_cons] at hcases hle
  have hc : s.Reserved none c := hcases 0 (Nat.succ_pos _)
  have hready₁ := hready.moveTo hc
  obtain ⟨hcode, hstops⟩ := h d false hready₁.first hregular.1.1 hst
  have hlive := hstops.live rfl
  have hbranch : s₁.branchTo (some c) epilog = s₁.branchTo cur₁ epilog :=
    body_branches hregular.1.2 hc hcode.framed hstops.ends hst
  dsimp only at hwalk
  rw [hbranch] at hwalk
  have hrest₁ : (s₁.branchTo cur₁ epilog).rest = s.rest.keep st.returns := by
    rw [rest_branchTo, hstops.rest]
  have hpads₁ : (s₁.branchTo cur₁ epilog).padBlockStack = s.padBlockStack :=
    congrArg Rest.pads hrest₁
  have hfin₁ : (s₁.branchTo cur₁ epilog).finallyBlock = s.finallyBlock :=
    congrArg Rest.fin hrest₁
  have hready₂ : Ready (BnodeTree.labelsAll stmts) (s₁.branchTo cur₁ epilog) none :=
    (hready₁.after hcode.framed hlive (hready.finInPad.of_rest hstops.rest)).branchTo epilog
  have hother : ∀ b, s.Reserved none b → c ≠ b → (s₁.branchTo cur₁ epilog).Reserved none b :=
    fun b hb hne => (hcode.framed.reserved (hb.moveTo hne)).branchTo epilog
  have hne : c ≠ epilog := Nat.ne_of_lt (Nat.lt_of_lt_of_le (Nat.lt_add_of_pos_right
    (Nat.succ_pos _)) hle)
  have hmore := hs (d + st.defers) hready₂ (hpads₁.symm ▸ hregular.2)
    (fun k hk => by
      rw [Nat.add_assoc, Nat.add_comm 1]
      exact hother _ (hcases (k + 1) (Nat.succ_lt_succ hk))
        (add_ne_add c (j := 0) (Nat.succ_ne_zero k).symm))
    (hother _ hepilog hne) (by rwa [Nat.add_assoc, Nat.add_comm 1]) hwalk
  have hend : Framed [] s₁ cur₁ (s₁.branchTo cur₁ epilog) none :=
    (Framed.refl hcode.framed.labelled).branchTo hlive epilog
  refine ⟨fun ls s₀ cur₀ hin hle₀ => ?_, fun t ht => ?_, hmore.reserved, ?_, ?_⟩
  · have hbody := ((hin.moveTo hle₀ hc.plain).trans hcode.framed).branchTo hlive epilog
    rw [BnodeTree.labelsAll, ← List.append_assoc]
    exact hmore.framed hbody (Nat.le_succ_of_le hle₀)
  · exact hcode.framed.completes (hend.completes (hmore.completes ht))
  · rw [hmore.rest, hrest₁, Rest.keep_append, BnodeTree.returnsAll]
  · obtain ⟨r, hr⟩ := hcode.runs
    obtain ⟨r', hr'⟩ := hmore.runs
    rw [hpads₁, hfin₁] at hr'
    refine ⟨fun k => if k < d + st.defers then r k else r' k,
      fun t s'' ht hretry hs'' σ M st' => ?_⟩
    rw [BnodeTree.defersAll, ← Nat.add_assoc] at hretry ⊢
    obtain ⟨hretry₁, hretry₂⟩ := hretry.of_ite (Nat.le_add_right _ _) (Nat.le_add_right _ _)
    have ht₂ := hmore.completes ht
    have hbody : ∀ x p, x.within st.labels d (d + st.defers) → t.At s (some c) p x →
        Lands t M s.padBlockStack s.finallyBlock s'' (some epilog) (p.1, p.2, st')
          (M.run M.movedReturns s.finallyBlock.isSome d st x st') := fun x p hx hat =>
      (hr (hend.completes ht₂) hretry₁ M x p st' hx hat).branchTo hlive ht₂ hs''
    obtain ⟨hnth, hcase⟩ := hr' ht hretry₂ hs'' M st'
    refine ⟨fun k hk => ?_, fun x p hx hin hat => ?_⟩
    · cases k with
      | zero =>
        rw [Meaning.runNth]
        exact hbody .start (c, 0) rfl ⟨[], rfl, hc.empty, rfl⟩
      | succ k =>
        rw [Meaning.runNth, Nat.add_comm k, ← Nat.add_assoc]
        exact hnth k (Nat.lt_of_succ_lt_succ hk)
    · rw [BnodeTree.labelsAll] at hin
      rw [Meaning.runCase, EntryPoint.into]
      by_cases hx₁ : x.within st.labels d (d + st.defers)
      · rw [if_pos hx₁]
        exact hbody x p hx₁ (hat.elsewhere hx)
      · rw [if_neg hx₁]
        exact hcase x p hx ((within_append hin).resolve_left hx₁) (hat.elsewhere hx)

/-! ## The switch -/

theorem simulated_switch {swvalue : BnodeTree} {vals : List (List ℤ)} {stmts : List BnodeTree}
    (hsw : Simulated kept fn swvalue) (hs : CasesSimulated kept fn stmts) :
    Simulated kept fn (.switchStmt swvalue vals stmts) := by
  intro s s' cur cur' d last hready hregular hwalk
  simp only [walkWith, Option.bind_eq_bind, Option.bind_eq_some_iff, Option.guard_eq_some'] at hwalk
  obtain ⟨-, hlen, ⟨cur₁, s₁⟩, hvalue, defBB, hdef, s₃, hcases, v, hv, b, rfl, hwalk⟩ := hwalk
  cases hwalk
  dsimp only at hcases hdef ⊢
  simp only [BnodeTree.isRegular, Bool.and_eq_true] at hregular
  rw [BnodeTree.labels] at hready ⊢
  obtain ⟨hcode, hstops⟩ := hsw d false hready.first hregular.1 hvalue
  have hready₁ := hready.after hcode.framed (hstops.live rfl)
    (hready.finInPad.of_rest hstops.rest)
  have hb₁ : b < s₁.blocks.length := hready₁.live.lt rfl
  have hblocks : Framed [] s₁ none (s₁.mkLLVMBlocks (vals.length + 1)) none :=
    (Framed.refl hready₁.labelled).mkLLVMBlocks _
  have hrest₂ : (s₁.mkLLVMBlocks (vals.length + 1)).rest = s.rest.keep swvalue.returns := by
    rw [rest_mkLLVMBlocks, hstops.rest]
  have hpads₂ : (s₁.mkLLVMBlocks (vals.length + 1)).padBlockStack = s.padBlockStack :=
    congrArg Rest.pads hrest₂
  have hfin₂ : (s₁.mkLLVMBlocks (vals.length + 1)).finallyBlock = s.finallyBlock :=
    congrArg Rest.fin hrest₂
  have hnew : ∀ k < vals.length + 1,
      (s₁.mkLLVMBlocks (vals.length + 1)).Reserved none (s₁.blocks.length + k) := fun k hk =>
    ⟨mkLLVMBlocks_new s₁ hk, plain_mkLLVMBlocks hready₁.labelled _ k,
      fun h => Option.some_ne_none _ h.symm⟩
  have hbodies := hs (d + swvalue.defers)
    (hready₁.stop.step hblocks (live_none _) (hready.finInPad.of_rest hrest₂))
    (hpads₂.symm ▸ hregular.2) (fun k hk => hnew k (Nat.lt_succ_of_lt (hlen ▸ hk)))
    (hnew _ (Nat.lt_succ_self _)) (by rw [hlen]) hcases
  -- the block that the switch is put into has been left alone
  have haside := (hbodies.framed hblocks (Nat.le_refl _)).aside hb₁
  rw [List.nil_append] at haside
  obtain ⟨is, his, -⟩ := hready₁.live b rfl
  have his₃ : s₃.blocks[b]? = some is := by
    rw [(hbodies.framed hblocks (Nat.le_refl _)).kept hb₁ (fun hn => Option.some_ne_none b hn.symm)
      fun l hl hlab => (hready₁.waiting l hl b hlab).2 rfl, his]
  have hne : b ≠ s₁.blocks.length + vals.length :=
    Nat.ne_of_lt (Nat.lt_of_lt_of_le hb₁ (Nat.le_add_right _ _))
  have hepilog := hbodies.reserved.push hne (.switch v defBB (caseTargets s₁.blocks.length vals))
  have hclose : Framed (BnodeTree.labelsAll stmts) s₁ (some b)
      (s₃.push b (.switch v defBB (caseTargets s₁.blocks.length vals))) none :=
    haside.close his₃ rfl
  have hout := hclose.moveTo (Nat.le_add_right s₁.blocks.length vals.length) hepilog.plain
  obtain ⟨r, hr⟩ := hbodies.runs
  rw [hpads₂, hfin₂] at hr
  have hswitch : Translated fn (BnodeTree.labelsAll stmts) (d + swvalue.defers)
      (d + swvalue.defers + BnodeTree.defersAll stmts) (fun M x st =>
        if x = .start then (caseOf vals (M.select v st)).elim (.done st) fun k =>
          M.runNth M.movedReturns s.finallyBlock.isSome (d + swvalue.defers) stmts k st
        else M.runCase M.movedReturns s.finallyBlock.isSome (d + swvalue.defers) stmts x st) s₁ (some b)
      (s₃.push b (.switch v defBB (caseTargets s₁.blocks.length vals)))
      (some (s₁.blocks.length + vals.length)) := by
    refine ⟨hout, r, fun t ht hretry σ M x p st hx hat => ?_⟩
    have ht₃ : Completes s₃ t := ⟨(s₃.push_extends _ _).trans ht.blocks, ht.labels⟩
    rw [hstops.pads, hstops.fin]
    obtain ⟨hnth, hcase⟩ := hr ht₃ hretry hepilog.empty M st
    by_cases hstart : x = .start
    · subst hstart
      obtain ⟨is', hcur, his', hk⟩ := hat
      cases hcur
      cases his.symm.trans his'
      have hstep := ht.step M st (push_self s₃ his₃)
      rw [Meaning.stepInst, switch_target hdef] at hstep
      rw [if_pos rfl, hk]
      refine Lands.of_reaches (.next hstep (.refl _)) ?_
      cases hc : caseOf vals (M.select v st) with
      | none => exact ⟨_, [], rfl, hepilog.empty, .refl _⟩
      | some k => exact hnth k (hlen ▸ caseOf_lt hc)
    · rw [if_neg hstart]
      exact hcase x p hstart hx (hat.elsewhere hstart)
  rw [BnodeTree.defers, BnodeTree.returns, ← Nat.add_assoc]
  refine ⟨(hcode.andThen hswitch hstops.pads hstops.fin (Nat.le_add_right _ _)
    (Nat.le_add_right _ _)).congr fun M x st hx => ?_, fun _ => live_of_nil hepilog.empty, ?_, rfl⟩
  · rw [Meaning.run, value_of_valueOf hv, EntryPoint.into]
    by_cases hx₁ : x.within swvalue.labels d (d + swvalue.defers)
    · rw [if_pos hx₁, if_pos hx₁]
      congr 1
      funext st
      rw [if_pos rfl, Option.bind_some]
      cases caseOf vals (M.select v st) <;> rfl
    · have hne : x ≠ .start := by
        rintro rfl
        exact hx₁ rfl
      rw [if_neg hx₁, if_neg hx₁, if_neg hne]
  · rw [rest_push, hbodies.rest, hrest₂, Rest.keep_append]

end Bodies

end GenBlocks

end Dragongo
