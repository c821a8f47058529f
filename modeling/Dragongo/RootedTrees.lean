import Dragongo.ResolvedNodes

/-!
# Nodes that are the roots of trees

Steps of the builder that make larger trees of some trees.
-/

namespace Dragongo

namespace BnodeTree

mutual
/-- All instructions of code, in the order of the walk. -/
def instructions : BnodeTree → List InstRef
  | expr kids _ insts => allInstructions kids ++ insts
  | exprStmt e => instructions e
  | block _ stmts => allInstructions stmts
  | ifStmt cond trueBlock falseBlock =>
    instructions cond ++ (instructions trueBlock ++ instructions falseBlock)
  | _ => []
def allInstructions : List BnodeTree → List InstRef
  | [] => []
  | n :: ns => instructions n ++ allInstructions ns
end

def isExpr : BnodeTree → Bool
  | expr .. => true
  | _ => false

end BnodeTree

namespace Backend
open Varexpr_context

/-! ## The code of a tree -/

section Code
variable {be : Backend} {x : BnodeRef} {t : BnodeTree}

theorem IsStmt.code {flavor : NodeFlavor} {ks : List BnodeRef} (h : be.IsStmt x flavor ks)
    (ha : be.Allocated) (hg : be.Graph x) : be.code x = ks.flatMap be.code := by
  obtain ⟨n, hn, -, hinsts, rfl⟩ := h
  rw [code_eq ha hg hn, hinsts, List.append_nil]

theorem IsStmt.child {flavor : NodeFlavor} {ks : List BnodeRef} (h : be.IsStmt x flavor ks)
    {k : BnodeRef} (hk : k ∈ ks) : be.Child x k := by
  obtain ⟨n, hn, -, -, rfl⟩ := h
  exact ⟨n, hn, hk⟩

mutual
/-- A tree has the instructions of its nodes. -/
theorem Unfolds.code (ha : be.Allocated) : ∀ (t : BnodeTree) {x : BnodeRef}, be.Graph x →
    be.Unfolds t x → be.code x = t.instructions
  | .expr kids value insts, x, hg, h => by
    obtain ⟨n, hn, -, -, hinsts, hkids⟩ := h
    rw [code_eq ha hg hn, hinsts, BnodeTree.instructions, AllUnfold.code ha kids (fun k hk =>
      hg.down (.single ⟨n, hn, hk⟩)) hkids]
  | .exprStmt e, x, hg, h => by
    obtain ⟨k, hstmt, hk⟩ := h
    have hgk := hg.down (.single (hstmt.child (List.mem_singleton_self k)))
    rw [hstmt.code ha hg, List.flatMap_singleton, Unfolds.code ha e hgk hk,
      BnodeTree.instructions]
  | .block _ stmts, x, hg, h => by
    obtain ⟨ks, hstmt, hks⟩ := h
    rw [hstmt.code ha hg, BnodeTree.instructions, AllUnfold.code ha stmts (fun k hk =>
      hg.down (.single (hstmt.child hk))) hks]
  | .ifStmt cond t f, x, hg, h => by
    obtain ⟨k, kt, kf, hstmt, hk, ht, hf⟩ := h
    have hdown : ∀ c ∈ [k, kt, kf], be.Graph c := fun c hc => hg.down (.single (hstmt.child hc))
    rw [hstmt.code ha hg, BnodeTree.instructions, List.flatMap_cons, List.flatMap_cons,
      List.flatMap_singleton, Unfolds.code ha cond (hdown k (by simp)) hk,
      Unfolds.code ha t (hdown kt (by simp)) ht, Unfolds.code ha f (hdown kf (by simp)) hf]
  | .switchStmt .., _, _, h => h.elim
  | .gotoStmt _, _, _, h => h.elim
  | .labelStmt _, _, _, h => h.elim
  | .returnStmt .., _, _, h => h.elim
  | .deferStmt .., _, _, h => h.elim
  | .excepStmt .., _, _, h => h.elim
theorem AllUnfold.code (ha : be.Allocated) : ∀ (ts : List BnodeTree) {xs : List BnodeRef},
    (∀ x ∈ xs, be.Graph x) → be.AllUnfold ts xs →
      xs.flatMap be.code = BnodeTree.allInstructions ts
  | [], xs, _, h => by
    obtain rfl : xs = [] := h
    rfl
  | t :: ts, xs, hg, h => by
    obtain ⟨x, rest, rfl, hx, hrest⟩ := h
    rw [List.flatMap_cons, BnodeTree.allInstructions,
      Unfolds.code ha t (hg x (List.mem_cons_self ..)) hx,
      AllUnfold.code ha ts (fun y hy => hg y (List.mem_cons_of_mem _ hy)) hrest]
end

/-- The tree of an expression is one. -/
theorem Unfolds.isExpr (h : be.Unfolds t x) : t.isExpr = be.exprAt x := by
  have hstmt : ∀ {f : NodeFlavor} {ks : List BnodeRef}, be.IsStmt x f ks → f.isStmt = true →
      be.exprAt x = false := by
    rintro f ks ⟨n, hn, rfl, -⟩ hf
    rw [exprAt, hn]
    simpa [Bnode.isExpr] using hf
  cases t with
  | expr kids value insts =>
    obtain ⟨n, hn, hexpr, -⟩ := h
    rw [exprAt, hn]
    exact hexpr.symm
  | exprStmt e =>
    obtain ⟨k, hexprStmt, -⟩ := h
    exact (hstmt hexprStmt rfl).symm
  | block vars stmts =>
    obtain ⟨ks, hblock, -⟩ := h
    exact (hstmt hblock rfl).symm
  | ifStmt cond t f =>
    obtain ⟨k, kt, kf, hifStmt, -⟩ := h
    exact (hstmt hifStmt rfl).symm
  | _ => exact h.elim

end Code

/-! ## Steps from some trees to others -/

/-- Trees with their roots, which the builder has made. -/
structure Ready (be : Backend) (ts : List (BnodeTree × BnodeRef)) : Prop where
  operands : be.Operands (ts.map Prod.snd)
  unfolds : ∀ p ∈ ts, be.Unfolds p.1 p.2

/-- The trees `ts'` have been made of `ts`, by at most `m` nodes and instructions. -/
structure Builds (be be' : Backend) (ts ts' : List (BnodeTree × BnodeRef)) (m : ℕ) : Prop
    extends be'.Ready ts' where
  checkable : be'.Checkable (ts'.map Prod.snd) ↔ be.Checkable (ts.map Prod.snd)
  heldTwice : ∀ c, be'.HeldTwice (ts'.map Prod.snd) c → be.HeldTwice (ts.map Prod.snd) c
  counted : ∀ k, be.AreCounted (ts.map Prod.snd) (k + m) → be'.AreCounted (ts'.map Prod.snd) k
  insts : be.insts.length ≤ be'.insts.length

section Builds
variable {be be' be'' : Backend} {ts ts' ts'' : List (BnodeTree × BnodeRef)} {m m' : ℕ}
  {new : List InstRef}

theorem Ready.code (h : be.Ready ts) :
    (ts.map Prod.snd).flatMap be.code = ts.flatMap (·.1.instructions) := by
  rw [List.flatMap_map]
  refine List.flatMap_congr fun p hp => ?_
  exact Unfolds.code h.operands.allocated p.1
    (h.operands.built p.2 (List.mem_map_of_mem hp)).toGraph (h.unfolds p hp)

theorem Ready.perm (h : be.Ready ts) (hperm : ts.Perm ts') : be.Ready ts' :=
  ⟨h.operands.perm (hperm.map _), fun p hp => h.unfolds p (hperm.mem_iff.mpr hp)⟩

theorem Builds.trans (h : Builds be be' ts ts' m) (h' : Builds be' be'' ts' ts'' m') :
    Builds be be'' ts ts'' (m + m') where
  toReady := h'.toReady
  checkable := h'.checkable.trans h.checkable
  heldTwice c hc := h.heldTwice c (h'.heldTwice c hc)
  counted k hk := h'.counted k (h.counted (k + m') (by rwa [Nat.add_assoc, Nat.add_comm m']))
  insts := h.insts.trans h'.insts

theorem Grows.builds (h : Grows be be' (ts.map Prod.snd) (ts'.map Prod.snd) new m)
    (hu : ∀ p ∈ ts', be'.Unfolds p.1 p.2) : Builds be be' ts ts' m :=
  ⟨⟨h.operands, hu⟩, h.checkable, h.heldTwice, h.counted, h.insts⟩

theorem builds_perm (h : be.Ready ts) (hperm : ts.Perm ts') : Builds be be ts ts' 0 :=
  (grows_perm h.operands (hperm.map _)).builds (h.perm hperm).unfolds

theorem Builds.mono (h : Builds be be' ts ts' m) (hm : m ≤ m') : Builds be be' ts ts' m' :=
  { h with counted := fun k hk => h.counted k fun fuel =>
      (Nat.add_le_add_left (Nat.add_le_add_left hm k) _).trans_lt (hk fuel) }

/-- A check that passes leaves the trees as they are. -/
theorem enforce_builds {x : BnodeRef} (h : be.Ready ts) (hx : x ∈ ts.map Prod.snd)
    (honce : (ts.flatMap (·.1.instructions)).Nodup)
    (hpasses : be.enforceTreeIntegrity x = some be') : Builds be be' ts ts 0 := by
  have hchecked := enforce_checked h.operands hx (h.code ▸ honce) hpasses
  exact (hchecked.grows h.operands).builds fun p hp =>
    (hchecked.same p.2 (List.mem_map_of_mem hp)).unfolds (h.unfolds p hp)

/-- It passes over one of them if it passes over all. -/
theorem Ready.enforce_isSome {x : BnodeRef} (h : be.Ready ts) (hx : x ∈ ts.map Prod.snd)
    (hcheck : be.Checkable (ts.map Prod.snd)) : ∃ be', be.enforceTreeIntegrity x = some be' := by
  refine Backend.enforce_isSome ⟨h.operands.allocated, h.operands.fresh, fun r hr => ?_⟩
    (hcheck.single hx)
  rw [List.mem_singleton.mp hr]
  exact h.operands.built x hx

end Builds
/-! ## Single steps -/

section Steps
variable {be be' : Backend} {ks rest ts : List (BnodeTree × BnodeRef)} {n : Bnode} {x y : BnodeRef}
  {t d s : BnodeTree} {ir : IRBuilder} {c : CircularTypes} {e : Side} {ctx : Varexpr_context}
  {i : InstRef}

theorem allUnfold_of_ready (h : ∀ p ∈ ks, be.Unfolds p.1 p.2) :
    be.AllUnfold (ks.map Prod.fst) (ks.map Prod.snd) := by
  induction ks with
  | nil => rfl
  | cons p ks ih => exact ⟨p.2, ks.map Prod.snd, rfl, h p (List.mem_cons_self ..),
      ih fun q hq => h q (List.mem_cons_of_mem _ hq)⟩

/-- A node over some of the trees. -/
theorem make_builds (ks rest : List (BnodeTree × BnodeRef)) {m : Making}
    (h : be.Ready (ks ++ rest)) (hm : be.construct m = some n) (hkids : n.kids = ks.map Prod.snd)
    (hover : be.Over n (rest.map Prod.snd))
    (ht : ∀ (be' : Backend) (x : BnodeRef) (id : UInt32), be'.node x = some { n with id } →
      be'.AllUnfold (ks.map Prod.fst) n.kids → be'.Unfolds t x) : ∃ x be' id,
      be.make m = some (x, be') ∧ be'.insts = be.insts ∧ be'.node x = some { n with id } ∧
      Builds be be' (ks ++ rest) ((t, x) :: rest) (n.instructions.length + 1) := by
  have hnodes : (ks ++ rest).map Prod.snd = n.kids ++ rest.map Prod.snd := by
    rw [List.map_append, hkids]
  obtain ⟨x, be', id, hmake, hdead, hsets, hinsts, hgrows⟩ :=
    make_grows (hnodes ▸ h.operands) hm hover
  have hretains : Retains be be' VE_lvalue [] := .of_sets hsets hdead
  have hold : ∀ p ∈ ks ++ rest, be'.Unfolds p.1 p.2 := fun p hp => hretains.unfolds (h.unfolds p hp)
  refine ⟨x, be', id, hmake, hinsts, hsets.node, Grows.builds (hnodes ▸ hgrows) fun p hp => ?_⟩
  rcases List.mem_cons.mp hp with rfl | hp
  · refine ht be' x id hsets.node ?_
    rw [hkids]
    exact allUnfold_of_ready fun p hp => hold p (List.mem_append_left _ hp)
  · exact hold p (List.mem_append_right _ hp)

/-- A context is no part of a tree. -/
theorem context_builds (h : be.Ready ts) (x : BnodeRef) (vc : Bnode → VarContext) :
    Builds be (be.update x fun n => { n with varContext := vc n }) ts ts 0 := by
  refine ((context_unchanged be x vc _).grows h.operands).builds fun p hp => ?_
  have hfollows : Follows be (be.update x fun n => { n with varContext := vc n }) Eq := by
    intro y y' n hy hn
    subst hy
    by_cases hyx : y = x
    · subst hyx
      refine ⟨{ n with varContext := vc n }, ?_, ⟨rfl, rfl, rfl, rfl, rfl⟩, List.forall₂_refl _⟩
      rw [node_update_self, hn]
      rfl
    · exact ⟨n, (node_update_ne be hyx).trans hn, ⟨rfl, rfl, rfl, rfl, rfl⟩, List.forall₂_refl _⟩
  exact hfollows.unfolds p.1 rfl (h.unfolds p hp)

theorem over_of_no_kids (hflavor : n.flavor ≠ .conversion) (hkids : n.kids = [])
    (hinsts : n.instructions = []) (rest : List BnodeRef) : be.Over n rest where
  source h := absurd h hflavor
  executed i hi := by
    rw [hinsts] at hi
    cases hi
  exprKids _ c hc := by
    rw [hkids] at hc
    cases hc
  slots := by
    rw [hkids]
    exact Nat.two_pow_pos 32
  nodup := by
    rw [hinsts]
    exact List.nodup_nil
  new i hi := by
    rw [hinsts] at hi
    cases hi

/-- The tree of a variable. -/
def varTree (val : NodeValue) : BnodeTree := .expr [] (some val) []

theorem mkVar_builds (h : be.Ready ts) (val : NodeValue) (typ : ℕ) : ∃ x be' id,
    be.make (.mkVar val typ) = some (x, be') ∧ be'.insts = be.insts ∧
      be'.node x = some { Bnode.expr .var [] (some val) typ [] with id } ∧
      Builds be be' ts ((varTree val, x) :: ts) 1 :=
  make_builds [] ts h rfl rfl (over_of_no_kids NodeFlavor.noConfusion rfl rfl _)
    fun _ _ _ hx hkids => ⟨_, hx, rfl, rfl, rfl, hkids⟩

theorem newBlock_sets (hfresh : be.Fresh) : ∃ b be', be.newBlock = some (b, be') ∧
    be.node b = none ∧ be'.insts = be.insts ∧ Sets be be' b (.stmt .blockStmt []) := by
  have hdead := (hfresh be.allocated (Nat.le_refl _)).1
  have halloc : be.newBlock = some (be.malloc be.allocated, { be with
      allocated := be.allocated + 1
      node := fun x => if x = be.malloc be.allocated then some (.stmt .blockStmt [])
        else be.node x }) := by
    rw [newBlock, alloc, if_neg (by simp [hdead])]
  exact ⟨_, _, halloc, hdead, rfl, if_pos rfl, fun y hy => if_neg hy, rfl, Nat.le_refl _,
    alloc_allocates halloc⟩

/-- An empty block, which nothing holds. -/
theorem newBlock_builds (h : be.Ready ts) (vars : List Bvariable) : ∃ b be',
    be.newBlock = some (b, be') ∧ be'.insts = be.insts ∧
      Builds be be' ts ((.block vars [], b) :: ts) 1 ∧ ¬be'.HeldTwice (b :: ts.map Prod.snd) b := by
  obtain ⟨b, be', hblock, hdead, hinsts, hsets⟩ := newBlock_sets h.operands.fresh
  have hout := h.operands.not_under hdead
  have hretains : Retains be be' VE_lvalue [] := .of_sets hsets hdead
  have hgrows := hsets.grows (n := .stmt .blockStmt []) h.operands hout
    (over_of_no_kids NodeFlavor.noConfusion rfl rfl _)
  refine ⟨b, be', hblock, hinsts, Grows.builds hgrows fun p hp => ?_, fun htwice => ?_⟩
  · rcases List.mem_cons.mp hp with rfl | hp
    · exact ⟨[], ⟨_, hsets.node, rfl, rfl, rfl⟩, rfl⟩
    · exact hretains.unfolds (h.unfolds p hp)
  · have hu := hsets.unchanged hout
    have hout' : ¬be'.Under (ts.map Prod.snd) b := fun hunder =>
      hout ((hu.under_iff h.operands).mp hunder)
    exact hout' ((heldTwice_open hsets.node hout').mp htwice).under

/-- What is among the roots once is not below the others. -/
theorem not_under_of_once {b : BnodeRef} {roots : List BnodeRef}
    (h : ¬be.HeldTwice (b :: roots) b) : ¬be.Under roots b := by
  rintro ⟨r, hr, hreach⟩
  rcases Relation.ReflTransGen.cases_tail hreach with rfl | ⟨p, hp, n, hn, hmem⟩
  · refine h (.inl ?_)
    rw [List.count_cons_self]
    exact Nat.succ_le_succ (List.count_pos_iff.mpr hr)
  · obtain ⟨i, hi⟩ := List.getElem?_of_mem hmem
    exact h (.inr (.inl ⟨List.mem_cons_self .., (p, i), ⟨r, List.mem_cons_of_mem _ hr, hp⟩, n, hn,
      hi⟩))

/-- A root without anything in it is taken away. -/
theorem drop_grows {b : BnodeRef} {roots : List BnodeRef} (ho : be.Operands (b :: roots))
    (hn : be.node b = some n) (hkids : n.kids = []) (hinsts : n.instructions = [])
    (hout : ¬be.Under roots b) : Grows be be (b :: roots) roots [] 0 where
  operands := by
    have hopened := ho.opened hn
    rwa [hkids] at hopened
  checkable := by
    have hopen : be.Checkable (b :: roots) ↔ be.Checkable (n.kids ++ roots) :=
      checkable_open hn (by rwa [hkids]) (hinsts ▸ List.nodup_nil) fun a ha => by
        rw [hinsts] at ha
        cases ha
    rw [hopen, hkids]
    rfl
  heldTwice c hc := by
    rw [heldTwice_open hn (by rwa [hkids]), hkids]
    exact hc
  code := by
    have hcode := code_eq ho.allocated (ho.built b (List.mem_cons_self ..)).toGraph hn
    rw [List.flatMap_cons, hcode, hkids, hinsts, List.append_nil]
    exact List.Perm.refl _
  counted k hk fuel := by
    have hlt := hk fuel
    rw [List.map_cons, List.sum_cons] at hlt
    omega
  insts := Nat.le_refl _

/-- A block that nothing holds gets its only statement. -/
theorem addStatementToBlock_builds {b st : BnodeRef} {vars : List Bvariable}
    (h : be.Ready ((s, st) :: (.block vars [], b) :: rest))
    (honce : ¬be.HeldTwice (st :: b :: rest.map Prod.snd) b) : ∃ be',
    be.addStatementToBlock b st = some be' ∧ be'.insts = be.insts ∧
      Builds be be' ((s, st) :: (.block vars [], b) :: rest) ((.block vars [s], b) :: rest) 1 := by
  obtain ⟨ks, ⟨n, hn, hflavor, hinsts, rfl⟩, hnone⟩ :=
    h.unfolds (.block vars [], b) (List.mem_cons_of_mem _ (List.mem_cons_self ..))
  have hkids : n.kids = [] := hnone
  have hswap := grows_perm h.operands (List.Perm.swap b st (rest.map Prod.snd))
  have hout : ¬be.Under (st :: rest.map Prod.snd) b := by
    refine not_under_of_once ?_
    rwa [heldTwice_perm (List.Perm.swap st b _)]
  have hdrop := drop_grows hswap.operands hn hkids hinsts hout
  obtain ⟨m, hm⟩ := Option.isSome_iff_exists.mp (h.operands.live ⟨st, List.mem_cons_self .., .refl⟩)
  have hadd : be.addStatementToBlock b st =
      some (be.update b fun n => { n with kids := n.kids ++ [st] }) := by
    simp only [addStatementToBlock, hn, hm, Option.bind_eq_bind, Option.bind_some]
    exact if_pos hflavor
  have hsets : Sets be (be.update b fun n => { n with kids := n.kids ++ [st] }) b
      { n with kids := [st] } :=
    ⟨by rw [node_update_self, hn, Option.map_some, hkids, List.nil_append],
      fun y hy => node_update_ne be hy, rfl, Nat.le_refl _, update_allocates be b _⟩
  have hgrows := hsets.grows (n := { n with kids := [st] }) hdrop.operands hout
    (over_of_nil (by rw [hflavor]; exact Bool.false_ne_true) (Nat.one_lt_two_pow (by decide))
      hinsts)
  have hlength : n.instructions.length + 1 = 1 := by rw [hinsts]; rfl
  have hu := hsets.unchanged hout
  have hold : ∀ p ∈ (s, st) :: rest, Unfolds _ p.1 p.2 := fun p hp =>
    Same.unfolds (hu.same hdrop.operands ⟨p.2, List.mem_map_of_mem hp, .refl⟩)
      (h.unfolds p (by
        rcases List.mem_cons.mp hp with rfl | hp
        · exact List.mem_cons_self ..
        · exact List.mem_cons_of_mem _ (List.mem_cons_of_mem _ hp)))
  refine ⟨_, hadd, rfl, Grows.builds (hlength ▸ (hswap.trans hdrop).trans hgrows) fun p hp => ?_⟩
  rcases List.mem_cons.mp hp with rfl | hp
  · exact ⟨[st], ⟨_, hsets.node, hflavor, hinsts, rfl⟩, st, [], rfl,
      hold (s, st) (List.mem_cons_self ..), rfl⟩
  · exact hold p (List.mem_cons_of_mem _ hp)

/-- An expression is resolved, with instructions that no tree has. -/
theorem resolveAt_builds (ir : IRBuilder) (c : CircularTypes)
    (h : be.Ready ((t, e.node) :: rest)) (hs : be.Stands ctx e)
    (hn : ∀ j ∈ newInsts c e.expr ctx i, j < be.insts.length)
    (hnew : ∀ j ∈ ((t, e.node) :: rest).flatMap (·.1.instructions), j < i)
    (hvalue : ∀ k, be.node e.node = some k → k.value ≠ some (.instruction i)) : ∃ x be',
      be.resolveAt ir c e ctx i = some (x, be') ∧ be'.exprAt x ∧ be'.insts = be.insts ∧
      Retains be be' ctx [e.node] ∧
      Builds be be' ((t, e.node) :: rest) ((resolvedTree c e.expr ctx t i, x) :: rest) 4 := by
  have hnew' : ∀ j ≥ i, j ∉ (e.node :: rest.map Prod.snd).flatMap be.code := by
    intro j hj hmem
    have hmem' := h.code ▸ hmem
    exact absurd (hnew j hmem') (Nat.not_lt.mpr hj)
  obtain ⟨x, be', hresolve, hexpr, hinsts, hgrows, hretains, htree⟩ :=
    resolveAt_grows ir c h.operands hs hn hnew' hvalue
  refine ⟨x, be', hresolve, hexpr, hinsts, hretains, Grows.builds hgrows fun p hp => ?_⟩
  rcases List.mem_cons.mp hp with rfl | hp
  · exact htree t (h.unfolds (t, e.node) (List.mem_cons_self ..))
  · exact hretains.unfolds (h.unfolds p (List.mem_cons_of_mem _ hp))

/-- A store with new instructions, in its statement. -/
theorem mkStore_builds {is : List InstRef} (h : be.Ready ((d, x) :: (s, y) :: rest)) (typ : ℕ)
    (val : NodeValue) (hx : be.exprAt x) (hy : be.exprAt y) (hnodup : is.Nodup)
    (hlt : ∀ j ∈ is, j < be.insts.length)
    (hnew : ∀ j ∈ is, j ∉ ((d, x) :: (s, y) :: rest).flatMap (·.1.instructions)) : ∃ st be',
      be.mkStore typ val is x y = some (st, be') ∧ be'.insts = be.insts ∧
      Builds be be' ((d, x) :: (s, y) :: rest) ((storeTree val is d s, st) :: rest)
        (is.length + 2) := by
  obtain ⟨st, be', hstore, hinsts, hgrows, hretains, htree⟩ := mkStore_grows typ val VE_lvalue []
    h.operands hx hy hnodup hlt fun j hj hmem => hnew j hj (h.code ▸ hmem)
  refine ⟨st, be', hstore, hinsts, Grows.builds hgrows fun p hp => ?_⟩
  rcases List.mem_cons.mp hp with rfl | hp
  · exact htree d s (h.unfolds _ (List.mem_cons_self ..))
      (h.unfolds _ (List.mem_cons_of_mem _ (List.mem_cons_self ..)))
  · exact hretains.unfolds (h.unfolds p (List.mem_cons_of_mem _ (List.mem_cons_of_mem _ hp)))

end Steps
end Backend
end Dragongo
