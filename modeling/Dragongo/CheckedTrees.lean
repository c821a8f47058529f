import Dragongo.OperandTrees

/-!
# Trees that are checked once they are made

A statement is made over operands that are there already, and the check with repair goes over it.
It passes exactly if the repair clones what is in two places.  Where the operands have each of
their instructions in one place, the repair changes nothing of what they are.
-/

namespace Dragongo
namespace Backend
open Relation Acyclic

/-! ## What the check finds -/

section Check
variable {be be' : Backend} {x c : BnodeRef} {roots : List BnodeRef}

/-- Where each instruction is in one place, the check meets none again. -/
theorem instsMetAgain_eq_zero (ha : be.Allocated) (hg : be.Graph x)
    (halone : Alone (be.InstHeld [x])) : be.instsMetAgain x = 0 := by
  have hinst : Alone (be.InstAt x) := fun a b ha hb =>
    halone a b ⟨under_singleton.mpr ha.1, ha.2⟩ ⟨under_singleton.mpr hb.1, hb.2⟩
  exact (foldl_noteInst_eq_zero _).mpr ((alone_congr (mem_instsWalked_iff ha hg)).mpr hinst.cut)

/-- What the check meets again is in two places. -/
theorem heldTwice_of_metAgain (ha : be.Allocated) (hg : be.Graph x) {a : Place}
    (hmem : a ∈ metAgain (be.walked enforceCtl x)) :
    be.HeldTwice [x] a.1 ∧ be.shouldBeTracked enforceCtl a.1 = some true := by
  obtain ⟨l₁, l₂, hl, b, hb, hchild, hne⟩ := (mem_metAgain _).mp hmem
  have hawalked : a ∈ be.walked enforceCtl x := mem_of_mem_metAgain hmem
  have hbwalked : b ∈ be.walked enforceCtl x := by
    rw [hl]
    exact List.mem_append_left _ hb
  obtain ⟨j, ⟨hreach, htracked, n, hn, hj⟩, hja⟩ := (mem_walked_iff ha hg a).mp hawalked
  obtain ⟨k, ⟨hreach', -, m, hm, hk⟩, hkb⟩ := (mem_walked_iff ha hg b).mp hbwalked
  refine ⟨.inr (.inr ⟨(a.2.1, j), (b.2.1, k), fun heq => ?_, ⟨⟨x, List.mem_singleton_self x, hreach⟩,
    n, hn, hj⟩, ⟨x, List.mem_singleton_self x, hreach'⟩, m, hm, hchild ▸ hk⟩), htracked⟩
  obtain ⟨hparent, hslot⟩ := Prod.mk.inj heq
  refine hne (Prod.ext hchild (Prod.ext hparent.symm ?_))
  rw [← hja, ← hkb, hslot]

/-- A check that passes has put clones into slots that held what can be cloned, and was in two
places. -/
theorem enforce_repairing (ha : be.Allocated) (hfresh : be.Fresh) (hg : be.BuiltGraph x)
    (h : be.enforceTreeIntegrity x = some be') :
    2 ^ 32 ∣ be.instsMetAgain x ∧ 2 ^ 32 ∣ be.stmtsMetAgain enforceCtl x ∧
    (2 ^ 32 ∣ be.exprsMetAgain enforceCtl x ∨
      ∀ a ∈ metAgain (be.walked enforceCtl x), be.Repairs a.1) ∧
    ∃ replaced, Repairing be be' x replaced ∧ ∀ q, replaced q →
      ∃ c, (c, q) ∈ metAgain (be.walked enforceCtl x) ∧ be.Repairs c := by
  obtain ⟨⟨res, be₁⟩, hexamine, h⟩ := Option.bind_eq_some_iff.mp h
  replace h : (if res then some be₁ else none) = some be' := h
  split_ifs at h with hres
  obtain rfl := Option.some.inj h
  subst hres
  obtain ⟨hfails, hgoes⟩ := examine_repair ha hfresh hg .ignoreVarExprs
  by_cases hinst : 2 ^ 32 ∣ be.instsMetAgain x ∧ 2 ^ 32 ∣ be.stmtsMetAgain enforceCtl x
  case neg =>
    rw [hfails hinst] at hexamine
    cases hexamine
  obtain ⟨hzero, hrepair⟩ := hgoes hinst.1 hinst.2
  refine ⟨hinst.1, hinst.2, ?_⟩
  by_cases hexpr : 2 ^ 32 ∣ be.exprsMetAgain enforceCtl x
  · rw [hzero hexpr] at hexamine
    obtain ⟨-, rfl⟩ := Prod.mk.inj (Option.some.inj hexamine)
    exact ⟨.inl hexpr, _, .refl hg.toGraph, fun _ h => h.elim⟩
  · have houtcome := hrepair hexpr
    rw [hexamine] at houtcome
    cases houtcome with
    | repaired hall h =>
      refine ⟨.inr hall, _, h, fun q hq => ?_⟩
      rcases hq with hfalse | ⟨c, hc⟩
      · exact hfalse.elim
      · exact ⟨c, hc, hall _ hc⟩

/-- Where what is shared can be cloned, the check passes. -/
theorem enforce_isSome (h : be.Operands [x]) (hc : be.Checkable [x]) :
    ∃ be', be.enforceTreeIntegrity x = some be' := by
  have hg := h.built x (List.mem_singleton_self x)
  have hall : ∀ a ∈ metAgain (be.walked enforceCtl x), be.Repairs a.1 := by
    intro a hmem
    obtain ⟨htwice, htracked⟩ := heldTwice_of_metAgain h.allocated hg.toGraph hmem
    exact hc.nodes _ htwice htracked
  have hstmts : be.stmtsMetAgain enforceCtl x = 0 := by
    refine List.countP_eq_zero.mpr fun a hmem hstmt => ?_
    have hlive := (hg.records h.allocated a hmem).reach
    have hexpr := (hall a hmem).1.exprAt (hg.live _ hlive)
    obtain ⟨n, hn⟩ := Option.isSome_iff_exists.mp (hg.live _ hlive)
    rw [Backend.exprAt, hn] at hexpr
    rw [stmtAt, hn] at hstmt
    simp only [Option.any_some, Bnode.isExpr] at hexpr hstmt
    rw [hstmt] at hexpr
    cases hexpr
  obtain ⟨-, hgoes⟩ := examine_repair h.allocated h.fresh hg .ignoreVarExprs
  obtain ⟨hzero, hrepair⟩ := hgoes (by
      rw [instsMetAgain_eq_zero h.allocated hg.toGraph hc.insts]
      exact Nat.dvd_zero _)
    (by rw [show be.stmtsMetAgain ⟨.ignoreVarExprs, .repairSharing⟩ x = 0 from hstmts]
        exact Nat.dvd_zero _)
  have hpass : ∃ be', be.examine enforceCtl x = some (true, be') := by
    by_cases hexpr : 2 ^ 32 ∣ be.exprsMetAgain enforceCtl x
    · exact ⟨be, hzero hexpr⟩
    · have houtcome := hrepair hexpr
      change Outcome be be x _ _ (be.examine enforceCtl x) at houtcome
      generalize be.examine enforceCtl x = res at houtcome
      cases houtcome with
      | @repaired be' _ _ => exact ⟨be', rfl⟩
      | @failed be' done rest b hsplit _ _ hb _ _ =>
        refine (hb (hall b ?_).1).elim
        change b ∈ metAgain (be.walked ⟨.ignoreVarExprs, .repairSharing⟩ x)
        rw [hsplit]
        exact List.mem_append_right _ (List.mem_cons_self ..)
      | @crashed done rest b hsplit _ _ hnot =>
        refine (hnot (hall b ?_)).elim
        change b ∈ metAgain (be.walked ⟨.ignoreVarExprs, .repairSharing⟩ x)
        rw [hsplit]
        exact List.mem_append_right _ (List.mem_cons_self ..)
  obtain ⟨be', hexamine⟩ := hpass
  refine ⟨be', ?_⟩
  rw [enforceTreeIntegrity]
  change (be.examine enforceCtl x).bind _ = _
  rw [hexamine]
  rfl

/-! ## What a check that passes says -/

theorem foldl_noteInst_le (l : List (InstRef × BnodeRef × ℕ))
    (seen : (InstRef → Option (BnodeRef × ℕ)) × ℕ) : (l.foldl noteInst seen).2 ≤ seen.2 + l.length := by
  induction l generalizing seen with
  | nil => exact Nat.le_refl _
  | cons a l ih =>
    refine (ih _).trans ?_
    have hone : (noteInst seen a).2 ≤ seen.2 + 1 := by
      unfold noteInst
      dsimp only
      split_ifs <;> omega
    rw [List.length_cons]
    omega

/-- The nodes below a root whose walk is counted have slots that are recorded as they are. -/
theorem AreCounted.slots (h : be.AreCounted [x] 0) (hg : be.Graph x) {y : BnodeRef} {n : Bnode}
    (hy : ReflTransGen be.Child x y) (hn : be.node y = some n) :
    n.kids.length < 2 ^ 32 ∧ n.instructions.length < 2 ^ 32 := by
  have hfew : ∀ fuel, be.stepsWithin fuel x < 2 ^ 32 := fun fuel => by
    have hlt := h fuel
    rwa [List.map_singleton, List.sum_singleton, Nat.add_zero] at hlt
  have hlt := AreCounted.reach hfew hy 2
  rw [stepsWithin_succ hn] at hlt
  have hle : (n.kids.map (be.stepsWithin 1)).length ≤ (n.kids.map (be.stepsWithin 1)).sum := by
    refine List.length_le_sum_of_one_le _ fun k hk => ?_
    obtain ⟨d, hd, rfl⟩ := List.mem_map.mp hk
    obtain ⟨m, hm⟩ := Option.isSome_iff_exists.mp (hg.live d (hy.tail ⟨n, hn, hd⟩))
    rw [stepsWithin_succ hm]
    exact Nat.le_add_left ..
  rw [List.length_map] at hle
  omega

/-- A check that passes, and whose counters cannot come round, has found nothing that must not be
cloned. -/
theorem enforce_checkable (ho : be.Operands [x]) (hcounted : be.AreCounted [x] 0)
    (h : be.enforceTreeIntegrity x = some be') : be.Checkable [x] := by
  have hg := ho.built x (List.mem_singleton_self x)
  have hfew : ∀ fuel, be.stepsWithin fuel x < 2 ^ 32 := fun fuel => by
    have hlt := hcounted fuel
    rwa [List.map_singleton, List.sum_singleton, Nat.add_zero] at hlt
  obtain ⟨hinsts, hstmts, hexprs, -⟩ := enforce_repairing ho.allocated ho.fresh hg h
  have hwalked : (be.walked enforceCtl x).length < 2 ^ 32 := by
    unfold walked
    cases hplaces : be.places enforceCtl (be.allocated + 1) x with
    | none => exact Nat.two_pow_pos 32
    | some l => exact (length_places hplaces).trans (hfew _)
  have hmet := (length_metAgain_le _).trans_lt hwalked
  have hzero : be.stmtsMetAgain enforceCtl x = 0 :=
    Nat.eq_zero_of_dvd_of_lt hstmts (List.countP_le_length.trans_lt hmet)
  have hrepairs : ∀ a ∈ metAgain (be.walked enforceCtl x), be.Repairs a.1 := by
    rcases hexprs with hdvd | hall
    · intro a hmem
      have hnone : be.exprsMetAgain enforceCtl x = 0 :=
        Nat.eq_zero_of_dvd_of_lt hdvd (List.countP_le_length.trans_lt hmet)
      have hnostmt := List.countP_eq_zero.mp hzero a hmem
      have hnoexpr := List.countP_eq_zero.mp hnone a hmem
      obtain ⟨n, hn⟩ := Option.isSome_iff_exists.mp
        (hg.live _ (hg.records ho.allocated a hmem).reach)
      rw [stmtAt, hn] at hnostmt
      rw [Backend.exprAt, hn] at hnoexpr
      simp [Bnode.isExpr] at hnostmt hnoexpr
      rw [hnostmt] at hnoexpr
      cases hnoexpr
    · exact hall
  refine ⟨fun c htwice htracked => ?_, fun a b ha hb hab => ?_⟩
  · -- a slot below the root is recorded as it is
    have hplaces : ∀ q, be.HeldAt [x] c q → (c, q) ∈ be.walked enforceCtl x := by
      intro q hq
      obtain ⟨hunder, n, hn, hi⟩ := hq
      have hreach := under_singleton.mp hunder
      have hlt := (List.getElem?_eq_some_iff.mp hi).1.trans (hcounted.slots hg.toGraph hreach hn).1
      exact (mem_walked_iff ho.allocated hg.toGraph _).mpr
        ⟨q.2, ⟨hreach, htracked, n, hn, hi⟩, Nat.mod_eq_of_lt hlt⟩
    rcases htwice with hcount | ⟨hmem, q, hunder, n, hn, hi⟩ | ⟨q, q', hne, hq, hq'⟩
    · have hle := List.count_le_length (a := c) (l := [x])
      rw [List.length_singleton] at hle
      omega
    · obtain rfl := List.mem_singleton.mp hmem
      exact (hg.acyclic c .refl
        (TransGen.tail' (under_singleton.mp hunder) ⟨n, hn, List.mem_of_getElem? hi⟩)).elim
    · rcases mem_metAgain_of_ne (hplaces q hq) (hplaces q' hq') rfl fun heq =>
        hne (Prod.mk.inj heq).2 with hmem | hmem
      · exact hrepairs _ hmem
      · exact hrepairs _ hmem
  · have hlength : (be.instsWalked x).length < 2 ^ 32 := by
      unfold instsWalked
      cases hplaces : be.instPlaces (be.allocated + 1) x with
      | none => exact Nat.two_pow_pos 32
      | some l =>
        have hle : (be.codeWithin (be.allocated + 1) x).length ≤ be.stepsWithin _ x :=
          length_codeWithin (be.allocated + 1) x
        rw [← instPlaces_code hplaces, List.length_map] at hle
        exact hle.trans_lt (hfew _)
    have hnone : be.instsMetAgain x = 0 := by
      refine Nat.eq_zero_of_dvd_of_lt hinsts ((foldl_noteInst_le _ _).trans_lt ?_)
      rwa [Nat.zero_add]
    have hwalkedAt : ∀ a, be.InstHeld [x] a → a ∈ be.instsWalked x := by
      intro a ha
      obtain ⟨hunder, n, hn, hi⟩ := ha
      have hreach := under_singleton.mp hunder
      have hlt := (List.getElem?_eq_some_iff.mp hi).1.trans (hcounted.slots hg.toGraph hreach hn).2
      exact (mem_instsWalked_iff ho.allocated hg.toGraph _).mpr
        ⟨a.2.2, ⟨hreach, n, hn, hi⟩, Nat.mod_eq_of_lt hlt⟩
    exact (foldl_noteInst_eq_zero _).mp hnone a b (hwalkedAt a ha) (hwalkedAt b hb) hab

end Check

/-! ## After the check -/

/-- The operands are what they were, and share as much of what must not be cloned. -/
structure Checked (be be' : Backend) (roots : List BnodeRef) : Prop where
  operands : be'.Operands roots
  same : ∀ r ∈ roots, Same be be' r r
  heldTwice : ∀ c, be'.HeldTwice roots c → be.HeldTwice roots c
  checkable : be'.Checkable roots ↔ be.Checkable roots
  insts : be.insts.length ≤ be'.insts.length
  frame : ∀ y n, be.node y = some n → ¬be.Under roots y →
    be'.node y = some n ∧ ¬be'.Under roots y

section Checked
variable {be be' : Backend} {x c y z : BnodeRef} {roots : List BnodeRef}
  {replaced : BnodeRef × ℕ → Prop} {q : BnodeRef × ℕ}

/-- A slot that is there after the repair and holds an old node was there before. -/
theorem Repairing.slot_old (h : Repairing be be' x replaced) (hg : be.Graph x) {n' : Bnode} {i : ℕ}
    (hn' : be'.node y = some n') (hi : n'.kids[i]? = some c) (hc : (be.node c).isSome) :
    ∃ n, be.node y = some n ∧ n.kids[i]? = some c := by
  by_cases hy : ReflTransGen be.Child x y
  · exact (h.slot hg (.inl hy) hn' hi hc).2.2
  · cases hn : be.node y with
    | none =>
      rw [(h.kids y n' hn' hn c (List.mem_of_getElem? hi)).1] at hc
      cases hc
    | some n =>
      obtain rfl := Option.some.inj ((h.frame y n hn hy).symm.trans hn')
      exact ⟨n, rfl, hi⟩

theorem Repairing.under_old (h : Repairing be be' x replaced) (hg : be.Graph x)
    (hy : be'.Under roots y) (hlive : (be.node y).isSome) : be.Under roots y := by
  obtain ⟨r, hr, hry⟩ := hy
  refine ⟨r, hr, ?_⟩
  induction hry with
  | refl => exact .refl
  | tail _ hchild ih =>
    obtain ⟨n', hn', hmem⟩ := hchild
    obtain ⟨i, hi⟩ := List.getElem?_of_mem hmem
    obtain ⟨n, hn, hi⟩ := h.slot_old hg hn' hi hlive
    exact (ih (by rw [hn]; rfl)).tail ⟨n, hn, List.mem_of_getElem? hi⟩

theorem Repairing.heldAt_old (h : Repairing be be' x replaced) (hg : be.Graph x)
    (hq : be'.HeldAt roots c q) (hc : (be.node c).isSome) : be.HeldAt roots c q := by
  obtain ⟨hunder, n', hn', hi⟩ := hq
  obtain ⟨n, hn, hi⟩ := h.slot_old hg hn' hi hc
  exact ⟨h.under_old hg hunder (by rw [hn]; rfl), n, hn, hi⟩

/-- A slot that holds a clone is one of those that hold a clone alone. -/
theorem Repairing.cloneIn (h : Repairing be be' x replaced) (ho : be.Operands roots)
    (hg : be.Graph x) (hq : be'.HeldAt roots c q) (hc : be.node c = none) :
    CloneIn be be' x (c, q) := by
  obtain ⟨hunder, n', hn', hi⟩ := hq
  refine ⟨?_, hc, n', hn', hi⟩
  by_contra hnot
  rw [not_or] at hnot
  obtain ⟨n, hn⟩ := Option.ne_none_iff_exists'.mp hnot.2
  obtain rfl := Option.some.inj ((h.frame _ n hn hnot.1).symm.trans hn')
  have hlive := ho.live ((h.under_old hg hunder (by rw [hn]; rfl)).reach
    (.single ⟨n, hn, List.mem_of_getElem? hi⟩))
  rw [hc] at hlive
  cases hlive

theorem Repairing.heldTwice (h : Repairing be be' x replaced) (ho : be.Operands roots)
    (hg : be.Graph x) (hc : be'.HeldTwice roots c) : be.HeldTwice roots c := by
  cases hnode : be.node c with
  | some n =>
    have hlive : (be.node c).isSome := by rw [hnode]; rfl
    rcases hc with hcount | ⟨hmem, q, hq⟩ | ⟨q, q', hne, hq, hq'⟩
    · exact .inl hcount
    · exact .inr (.inl ⟨hmem, q, h.heldAt_old hg hq hlive⟩)
    · exact .inr (.inr ⟨q, q', hne, h.heldAt_old hg hq hlive, h.heldAt_old hg hq' hlive⟩)
  | none =>
    have hroot : c ∉ roots := fun hmem => by
      have hlive := ho.live ⟨c, hmem, .refl⟩
      rw [hnode] at hlive
      cases hlive
    rcases hc with hcount | ⟨hmem, -⟩ | ⟨q, q', hne, hq, hq'⟩
    · rw [List.count_eq_zero_of_not_mem hroot] at hcount
      omega
    · exact (hroot hmem).elim
    · have heq := h.place _ _ (h.cloneIn ho hg hq hnode) (h.cloneIn ho hg hq' hnode) rfl
      exact (hne (Prod.mk.inj heq).2).elim

/-- What a slot holds stays there, if it must not be cloned. -/
theorem Repairing.slot_stays (h : Repairing be be' x replaced)
    (hrepairs : ∀ y i n z, replaced (y, i) → be.node y = some n → n.kids[i]? = some z →
      be.Repairs z) {n : Bnode} {i : ℕ} (hn : be.node y = some n)
    (hi : n.kids[i]? = some z) (hz : ¬be.Repairable z) :
    ∃ n', be'.node y = some n' ∧ n'.kids[i]? = some z := by
  by_cases hy : ReflTransGen be.Child x y
  · exact h.slot_of_kept hy hn hi fun hrep => hz (hrepairs y i n z hrep hn hi).1
  · exact ⟨n, h.frame y n hn hy, hi⟩

theorem Repairable.down (h : be.Repairable y) (hz : ReflTransGen be.Child y z) : be.Repairable z :=
  fun w n hw => h w n (hz.trans hw)

theorem Repairing.under_stays (h : Repairing be be' x replaced)
    (hrepairs : ∀ y i n z, replaced (y, i) → be.node y = some n → n.kids[i]? = some z →
      be.Repairs z) (hy : be.Under roots y) (hyc : ReflTransGen be.Child y c)
    (hc : ¬be.Repairable c) : be'.Under roots y := by
  obtain ⟨r, hr, hry⟩ := hy
  refine ⟨r, hr, ?_⟩
  induction hry with
  | refl => exact .refl
  | tail _ hchild ih =>
    obtain ⟨n, hn, hmem⟩ := hchild
    obtain ⟨i, hi⟩ := List.getElem?_of_mem hmem
    obtain ⟨n', hn', hi'⟩ := h.slot_stays hrepairs hn hi fun hz => hc (hz.down hyc)
    exact (ih (hyc.head ⟨n, hn, hmem⟩)).tail ⟨n', hn', List.mem_of_getElem? hi'⟩

theorem Repairing.heldTwice_stays (h : Repairing be be' x replaced)
    (hrepairs : ∀ y i n z, replaced (y, i) → be.node y = some n → n.kids[i]? = some z →
      be.Repairs z) (htwice : be.HeldTwice roots c) (hc : ¬be.Repairable c) :
    be'.HeldTwice roots c := by
  have hstay : ∀ q, be.HeldAt roots c q → be'.HeldAt roots c q := by
    intro q ⟨hunder, n, hn, hi⟩
    refine ⟨h.under_stays hrepairs hunder (.single ⟨n, hn, List.mem_of_getElem? hi⟩) hc, ?_⟩
    exact h.slot_stays hrepairs hn hi hc
  rcases htwice with hcount | ⟨hmem, q, hq⟩ | ⟨q, q', hne, hq, hq'⟩
  · exact .inl hcount
  · exact .inr (.inl ⟨hmem, q, hstay q hq⟩)
  · exact .inr (.inr ⟨q, q', hne, hstay q hq, hstay q' hq'⟩)

/-- Clones of nodes without instructions are the same as what they are made of. -/
theorem Alike.same {c' : BnodeRef} (h : Alike be be' c c') (ha : be.Allocated) (hg : be.Graph c)
    (hnil : be.code c = []) : Same be be' c c' := by
  induction h with
  | @node c c' n n' hn hn' hlike _ ih =>
    rw [code_eq ha hg hn, List.append_eq_nil_iff] at hnil
    have hinsts : n'.instructions = [] := by
      rw [← List.length_eq_zero_iff, hlike.insts, hnil.2, List.length_nil]
    refine .node hn hn' ⟨hlike.flavor, hlike.btype, hlike.value hnil.2, hinsts.trans hnil.2.symm,
      hlike.kids⟩ fun i d d' hd hd' => ?_
    have hmem := List.mem_of_getElem? hd
    exact ih i d d' hd hd' (hg.down (.single ⟨n, hn, hmem⟩))
      (List.flatMap_eq_nil_iff.mp hnil.1 d hmem)

/-- Whatever is under the roots is as it was before the repair. -/
theorem Repairing.same (h : Repairing be be' x replaced) (ho : be.Operands roots)
    (hnil : ∀ y i n z, replaced (y, i) → be.node y = some n → n.kids[i]? = some z →
      be.code z = []) (hy : be.Under roots y) : Same be be' y y := by
  obtain ⟨S, hcard, hbelow⟩ := (ho.under hy).below ho.allocated
  refine Below.induction (P := fun _ y => be.Under roots y → Same be be' y y) ?_ hbelow hcard hy
  intro _ y ih hy
  obtain ⟨n, hn⟩ := Option.isSome_iff_exists.mp (ho.live hy)
  have hdown : ∀ {i d}, n.kids[i]? = some d → be.Child y d := fun hi =>
    ⟨n, hn, List.mem_of_getElem? hi⟩
  by_cases hreach : ReflTransGen be.Child x y
  · obtain ⟨kids, hkids, hlength, hslots⟩ := h.old y n hreach hn
    refine .node hn hkids ⟨rfl, rfl, rfl, rfl, hlength⟩ fun i d d' hi hi' => ?_
    have hd := hdown hi
    rcases hslots i d d' hi hi' with ⟨rfl, -⟩ | ⟨hrep, -, halike⟩
    · exact ih d' hd (hy.reach (.single hd))
    · exact halike.same ho.allocated (ho.under (hy.reach (.single hd))).toGraph
        (hnil y i n d hrep hn hi)
  · refine .node hn (h.frame y n hn hreach) ⟨rfl, rfl, rfl, rfl, rfl⟩ fun i d d' hi hi' => ?_
    obtain rfl := Option.some.inj (hi.symm.trans hi')
    exact ih d (hdown hi) (hy.reach (.single (hdown hi)))

theorem HeldTwice.valueOnce (ho : be.Operands roots) (honce : (roots.flatMap be.code).Nodup)
    (hc : be.HeldTwice roots c) : be.ValueOnce c := by
  intro y n i hy hn _
  have hnone : n.instructions = [] := by
    rw [List.eq_nil_iff_forall_not_mem]
    intro j hj
    have hmemy : j ∈ be.code y := by
      rw [code_eq ho.allocated (ho.under (hc.under.reach hy)).toGraph hn]
      exact List.mem_append_right _ hj
    have hmemc := mem_code_of_reach ho.allocated (ho.under hc.under).toGraph hy hmemy
    rw [hc.code_eq_nil ho honce] at hmemc
    cases hmemc
  rw [hnone]
  exact Nat.zero_le _

theorem Same.flatMap_code (h : ∀ r ∈ roots, Same be be' r r) (ho : be.Operands roots)
    (ho' : be'.Operands roots) : roots.flatMap be'.code = roots.flatMap be.code :=
  List.flatMap_congr fun r hr => (h r hr).code_of_operands ho ho' hr

/-- A check that passes leaves the operands as they were. -/
theorem enforce_checked (ho : be.Operands roots) (hx : x ∈ roots)
    (honce : (roots.flatMap be.code).Nodup) (h : be.enforceTreeIntegrity x = some be') :
    Checked be be' roots := by
  have hg := ho.built x hx
  obtain ⟨-, -, -, replaced, hrepairing, hreplaced⟩ := enforce_repairing ho.allocated ho.fresh hg h
  have hallocates : Allocates be be' := by
    obtain ⟨⟨res, be₁⟩, hexamine, h⟩ := Option.bind_eq_some_iff.mp h
    replace h : (if res then some be₁ else none) = some be' := h
    split_ifs at h
    exact Option.some.inj h ▸ examine_allocates hexamine
  -- what has been replaced is what the check met again
  have hslot : ∀ y i n z, replaced (y, i) → be.node y = some n → n.kids[i]? = some z →
      be.Repairs z ∧ be.HeldTwice roots z := by
    intro y i n z hrep hn hi
    obtain ⟨d, hmem, hrepairs⟩ := hreplaced _ hrep
    have hrecord := hg.records ho.allocated _ hmem
    obtain ⟨-, m, hm, hd⟩ := hrecord.parent (hrepairs.1.exprAt (hg.live _ hrecord.reach))
    obtain rfl := Option.some.inj (hn.symm.trans hm)
    obtain rfl := Option.some.inj (hi.symm.trans hd)
    exact ⟨hrepairs, (heldTwice_of_metAgain ho.allocated hg.toGraph hmem).1.mono hx⟩
  have hsame : ∀ y, be.Under roots y → Same be be' y y := fun y =>
    hrepairing.same ho fun y i n z hrep hn hi =>
      (hslot y i n z hrep hn hi).2.code_eq_nil ho honce
  have hrepairs : ∀ y i n z, replaced (y, i) → be.node y = some n → n.kids[i]? = some z →
      be.Repairs z := fun y i n z hrep hn hi => (hslot y i n z hrep hn hi).1
  have hroots : ∀ r ∈ roots, Same be be' r r := fun r hr => hsame r ⟨r, hr, .refl⟩
  have ho' : be'.Operands roots := ⟨hallocates.allocated_of ho.allocated,
    hallocates.fresh ho.fresh, fun r hr =>
      (hroots r hr).builtGraph ho.allocated (ho.built r hr) hrepairing.length⟩
  have htracked : ∀ c, be.HeldTwice roots c →
      be'.shouldBeTracked enforceCtl c = be.shouldBeTracked enforceCtl c := fun c hc =>
    (hsame c hc.under).tracked hrepairing.exprmap _
  refine ⟨ho', hroots, fun c => hrepairing.heldTwice ho hg.toGraph, ⟨fun hc => ?_, fun hc => ?_⟩,
    hrepairing.length, fun y n hn hout => ?_⟩
  · refine ⟨fun c htwice htrack => ?_, instHeld_alone ho honce⟩
    by_contra hnot
    have hnot' : ¬be.Repairable c := fun hrep => hnot ⟨hrep, htwice.valueOnce ho honce⟩
    have htwice' := hrepairing.heldTwice_stays hrepairs htwice hnot'
    exact hnot ((hsame c htwice.under).repairs_iff.mp
      (hc.nodes c htwice' ((htracked c htwice).trans htrack)))
  · refine ⟨fun c htwice htrack => ?_, instHeld_alone ho' ?_⟩
    · have htwice' := hrepairing.heldTwice ho hg.toGraph htwice
      exact (hsame c htwice'.under).repairs
        (hc.nodes c htwice' ((htracked c htwice').symm.trans htrack))
    · rw [Same.flatMap_code hroots ho ho']
      exact honce
  · exact ⟨hrepairing.frame y n hn fun hreach => hout ⟨x, hx, hreach⟩,
      fun hunder => hout (hrepairing.under_old hg.toGraph hunder (by rw [hn]; rfl))⟩

end Checked
end Backend
end Dragongo
