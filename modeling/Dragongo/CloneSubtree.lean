import Dragongo.SharingCheck

/-!
# Clones of expression trees

When the tree that `cloneSubtree` returns is a copy of the original in its own right.
-/

namespace Dragongo
namespace Backend
open Relation Acyclic

/-- A tree of expressions that have each of their instructions once. -/
structure ExprTree (be : Backend) (x : BnodeRef) : Prop extends be.Graph x where
  expr : ∀ y n, ReflTransGen be.Child x y → be.node y = some n → n.isExpr
  nodup : ∀ y n, ReflTransGen be.Child x y → be.node y = some n → n.instructions.Nodup
  valid : ∀ y n, ReflTransGen be.Child x y → be.node y = some n →
    ∀ i ∈ n.instructions, i < be.insts.length

/-- Below the node the value of a node is at most once among its instructions. -/
def ValueOnce (be : Backend) (x : BnodeRef) : Prop :=
  ∀ y n i, ReflTransGen be.Child x y → be.node y = some n → n.value = some (.instruction i) →
    n.instructions.count i ≤ 1

/-- A tree that `cloneSubtree` gets through. -/
structure CopyTree (be : Backend) (x : BnodeRef) : Prop extends be.Graph x where
  expr : ∀ y n, ReflTransGen be.Child x y → be.node y = some n → n.isExpr
  once : be.ValueOnce x
  valid : ∀ y n, ReflTransGen be.Child x y → be.node y = some n →
    ∀ i ∈ n.instructions, i < be.insts.length

theorem ExprTree.copyTree {be : Backend} {x : BnodeRef} (h : be.ExprTree x) : be.CopyTree x :=
  ⟨h.toGraph, h.expr, fun y n i hy hn _ => List.nodup_iff_count_le_one.mp (h.nodup y n hy hn) i,
    h.valid⟩

/-- Allocations to come give new addresses as long as nothing is freed. -/
def Fresh (be : Backend) : Prop :=
  ∀ k, be.allocated ≤ k → be.node (be.malloc k) = none ∧
    ∀ k', be.allocated ≤ k' → be.malloc k = be.malloc k' → k = k'

/-! ## What is left as it is -/

/-- Nodes and instructions have been added, and all others are as they were. -/
structure Adds (be be' : Backend) : Prop where
  malloc : be'.malloc = be.malloc
  allocated : be.allocated ≤ be'.allocated
  kept : ∀ y, (be.node y).isSome → be'.node y = be.node y
  new : ∀ y, (be'.node y).isSome → (be.node y).isSome ∨
    ∃ k, be.allocated ≤ k ∧ k < be'.allocated ∧ be.malloc k = y
  insts : be.insts <+: be'.insts

section Adds
variable {be be' be'' : Backend} {x : BnodeRef}

theorem Adds.refl (be : Backend) : Adds be be :=
  ⟨rfl, Nat.le_refl _, fun _ _ => rfl, fun _ => .inl, List.prefix_refl _⟩

theorem Adds.trans (h : Adds be be') (h' : Adds be' be'') : Adds be be'' where
  malloc := h'.malloc.trans h.malloc
  allocated := h.allocated.trans h'.allocated
  kept := by
    intro y hy
    rw [h'.kept y (by rwa [h.kept y hy]), h.kept y hy]
  new := by
    intro y hy
    rcases h'.new y hy with hy | ⟨k, hk, hk', hy⟩
    · rcases h.new y hy with hy | ⟨k, hk, hk', hy⟩
      · exact .inl hy
      · exact .inr ⟨k, hk, hk'.trans_le h'.allocated, hy⟩
    · exact .inr ⟨k, h.allocated.trans hk, hk', h.malloc ▸ hy⟩
  insts := h.insts.trans h'.insts

theorem Adds.node (h : Adds be be') {n : Bnode} (hn : be.node x = some n) :
    be'.node x = some n := by
  rw [h.kept x (by rw [hn]; rfl), hn]

theorem Adds.inst (h : Adds be be') {i : InstRef} {inst : Instruction}
    (hi : be.insts[i]? = some inst) :
    be'.insts[i]? = some inst := by
  obtain ⟨more, hmore⟩ := h.insts
  rw [← hmore, List.getElem?_append_left (List.getElem?_eq_some_iff.mp hi).1, hi]

/-- The next allocation is of an address that is not in use. -/
theorem Adds.next (h : Adds be be') (hfresh : be.Fresh) :
    be'.node (be'.malloc be'.allocated) = none := by
  rw [← Option.not_isSome_iff_eq_none, h.malloc]
  intro hlive
  obtain ⟨hdead, hinj⟩ := hfresh be'.allocated h.allocated
  rcases h.new _ hlive with hold | ⟨k, hk, hk', hy⟩
  · rw [hdead] at hold
    cases hold
  · exact hk'.ne (hinj k hk hy.symm).symm

/-- A change of a node that is new. -/
theorem Adds.update (h : Adds be be') (hx : be.node x = none) (f : Bnode → Bnode) :
    Adds be (be'.update x f) := by
  have hne : ∀ y, (be.node y).isSome → y ≠ x := by
    rintro y hy rfl
    rw [hx] at hy
    cases hy
  refine ⟨h.malloc, h.allocated, fun y hy => ?_, fun y hy => ?_, h.insts⟩
  · rw [node_update_ne be' (hne y hy), h.kept y hy]
  · apply h.new
    by_cases hyx : y = x
    · rwa [hyx, node_update_self, Option.isSome_map, ← hyx] at hy
    · rwa [node_update_ne be' hyx] at hy

theorem alloc_adds (n : Bnode) (hnext : be.node (be.malloc be.allocated) = none) :
    ∃ be', be.alloc n = some (be.malloc be.allocated, be') ∧ Adds be be' ∧
      be'.node (be.malloc be.allocated) = some n ∧ be'.insts = be.insts := by
  refine ⟨_, if_neg (by rw [hnext]; exact Bool.false_ne_true), ⟨rfl, Nat.le_succ _, ?_, ?_, ?_⟩,
    if_pos rfl, rfl⟩
  · intro y hy
    refine if_neg ?_
    rintro rfl
    rw [hnext] at hy
    cases hy
  · intro y hy
    replace hy : (if y = be.malloc be.allocated then some n else be.node y).isSome := hy
    split_ifs at hy with hnew
    · exact .inr ⟨be.allocated, Nat.le_refl _, Nat.lt_succ_self _, hnew.symm⟩
    · exact .inl hy
  · exact List.prefix_refl _

theorem checkTreeInteg_leaf {n : Bnode} (hn : be.node x = some n) (hkids : n.kids = []) :
    be.checkTreeInteg x = some be := by
  rw [checkTreeInteg, hn, Option.bind_eq_bind, Option.bind_some, hkids]
  rfl

/-- A node without children only gets its id. -/
theorem archive_leaf {n : Bnode} (hn : be.node x = some n) (hkids : n.kids = []) :
    be.archive x = some (be.archived x n) := by
  obtain ⟨id, hnode, -⟩ := be.node_archived x n
  rw [archive, hn, Option.bind_eq_bind, Option.bind_some]
  refine checkTreeInteg_leaf (n := { n with id }) ?_ hkids
  rw [hnode, node_update_self, hn]
  rfl

theorem Adds.archived (h : Adds be be') (hx : be.node x = none) (n : Bnode) :
    Adds be (be'.archived x n) := by
  unfold Backend.archived
  split_ifs
  · have hupdate := h.update hx fun n => { n with id := .ofNat be'.earchive.length }
    exact ⟨hupdate.malloc, hupdate.allocated, hupdate.kept, hupdate.new, hupdate.insts⟩
  · have hupdate := h.update hx fun n => { n with id := .ofNat be'.sarchive.length }
    exact ⟨hupdate.malloc, hupdate.allocated, hupdate.kept, hupdate.new, hupdate.insts⟩

end Adds

/-! ## What a clone is -/

/-- One node of the clone: the instructions are copies with the same operands, the value is that
of the original, and no reference is pending. -/
structure CopiedNode (be be' : Backend) (n n' : Bnode) : Prop where
  flavor : n'.flavor = n.flavor
  btype : n'.btype = n.btype
  value : n'.value = n.value
  context : n'.varContext = {}
  kids : n'.kids.length = n.kids.length
  instructions : n'.instructions.length = n.instructions.length
  insts : ∀ (k : ℕ) (i i' : InstRef), n.instructions[k]? = some i → n'.instructions[k]? = some i' →
    be.insts.length ≤ i' ∧ ∃ inst, be.insts[i]? = some inst ∧ be'.insts[i']? = some inst

/-- The tree under `x'` in `be'` has been made from the tree under `x` in `be`. -/
inductive Cloned (be be' : Backend) : BnodeRef → BnodeRef → Prop
  | node {x x' : BnodeRef} {n n' : Bnode} (hn : be.node x = some n) (hn' : be'.node x' = some n')
      (hnew : be.node x' = none) (hcopy : CopiedNode be be' n n')
      (hkids : ∀ (i : ℕ) (c c' : BnodeRef), n.kids[i]? = some c → n'.kids[i]? = some c' →
        Cloned be be' c c') :
      Cloned be be' x x'

section Clone
variable {be be' be'' : Backend} {x : BnodeRef}

theorem Cloned.mono {x' : BnodeRef} (h : Cloned be be' x x') (hadds : Adds be' be'') :
    Cloned be be'' x x' := by
  induction h with
  | node hn hn' hnew hcopy hkids ih =>
    refine .node hn (hadds.node hn') hnew { hcopy with insts := fun k i i' hi hi' => ?_ } ih
    obtain ⟨hlt, inst, hinst, hinst'⟩ := hcopy.insts k i i' hi hi'
    exact ⟨hlt, inst, hinst, hadds.inst hinst'⟩

/-- Instructions are copied as they are: nothing is renamed. -/
theorem cloneInstructions_copies (insts : List InstRef) (hvalid : ∀ i ∈ insts, i < be.insts.length) :
    ∃ icls be', be.cloneInstructions (fun _ => none) insts = some (icls, be') ∧
      be' = { be with insts := be'.insts } ∧ be.insts <+: be'.insts ∧ icls.length = insts.length ∧
      ∀ (k : ℕ) (i i' : InstRef), insts[k]? = some i → icls[k]? = some i' → be.insts.length ≤ i' ∧
        ∃ inst, be.insts[i]? = some inst ∧ be'.insts[i']? = some inst := by
  induction insts generalizing be with
  | nil =>
    exact ⟨[], be, rfl, rfl, List.prefix_refl _, rfl, fun k i i' hi => nomatch hi⟩
  | cons a insts ih =>
    have ha : a < be.insts.length := hvalid a (List.mem_cons_self ..)
    have hcopy : { be.insts[a] with operands := be.insts[a].operands.map fun v =>
        ((none : Option NodeValue)).getD v } = be.insts[a] := by
      rw [show (fun v : NodeValue => (none : Option NodeValue).getD v) = id from rfl, List.map_id]
    obtain ⟨icls, be', hrest, hbe', hprefix, hlength, hcopies⟩ :=
      @ih { be with insts := be.insts ++ [be.insts[a]] } fun i hi => by
        rw [List.length_append]
        exact Nat.lt_add_right 1 (hvalid i (List.mem_cons_of_mem _ hi))
    refine ⟨be.insts.length :: icls, be', ?_, hbe', (List.prefix_append ..).trans hprefix,
      by rw [List.length_cons, List.length_cons, hlength], fun k i i' hi hi' => ?_⟩
    · rw [cloneInstructions, List.getElem?_eq_getElem ha, Option.bind_eq_bind, Option.bind_some]
      dsimp only
      rw [hcopy, hrest]
      rfl
    · have hold : ∀ {j : InstRef} {inst : Instruction}, be.insts[j]? = some inst →
          (be.insts ++ [be.insts[a]])[j]? = some inst := fun hj => by
        rw [List.getElem?_append_left (List.getElem?_eq_some_iff.mp hj).1, hj]
      cases k with
      | zero =>
        obtain rfl := Option.some.inj hi
        obtain rfl := Option.some.inj hi'
        refine ⟨Nat.le_refl _, be.insts[a], List.getElem?_eq_getElem ha, ?_⟩
        obtain ⟨more, hmore⟩ := hprefix
        rw [← hmore, List.getElem?_append_left (by simp), List.getElem?_concat_length]
      | succ k =>
        obtain ⟨hlt, inst, hinst, hinst'⟩ := hcopies k i i' hi hi'
        dsimp only at hlt hinst
        rw [List.length_append] at hlt
        have hi : i < be.insts.length := hvalid i (List.mem_cons_of_mem _ (List.mem_of_getElem? hi))
        refine ⟨by omega, inst, ?_, hinst'⟩
        rwa [List.getElem?_append_left hi] at hinst

theorem setNewv_same {res : BnodeRef} {n r : Bnode}
    (honce : ∀ i, n.value = some (.instruction i) → n.instructions.count i ≤ 1)
    (hr : be.node res = some r) (hvalue : r.value = n.value) : ∃ be',
      be.setNewv res n = some be' ∧ be'.node res = some r ∧
      (be' = be ∨ ∃ f, be' = be.update res f) := by
  unfold setNewv
  have hself : ∀ newv, n.value = some (.instruction newv) →
      (be.update res fun r => { r with value := some (.instruction newv) }).node res = some r := by
    intro newv hnewv
    rw [node_update_self, hr, Option.map_some, ← hnewv, ← hvalue]
  cases hfilter : n.instructions.filter fun inst => decide (n.value = some (.instruction inst)) with
  | nil => exact ⟨be, rfl, hr, .inl rfl⟩
  | cons newv others =>
    have hmem : ∀ i ∈ newv :: others, n.value = some (.instruction i) := by
      intro i hi
      rw [← hfilter] at hi
      exact of_decide_eq_true (List.mem_filter.mp hi).2
    have hnewv : n.value = some (.instruction newv) := hmem newv (List.mem_cons_self ..)
    cases others with
    | nil => exact ⟨_, rfl, hself newv hnewv, .inr ⟨_, rfl⟩⟩
    | cons newv' others =>
      -- the value would be there twice
      have hsame : newv = newv' := by
        have hnewv' := hmem newv' (List.mem_cons_of_mem _ (List.mem_cons_self ..))
        rw [hnewv, Option.some.injEq, NodeValue.instruction.injEq] at hnewv'
        exact hnewv'
      have htwice : (newv :: newv' :: others).count newv ≤ n.instructions.count newv :=
        hfilter ▸ List.filter_sublist.count_le newv
      rw [← hsame, List.count_cons_self, List.count_cons_self] at htwice
      have honce := honce newv hnewv
      omega

/-- The children are cloned one after the other. -/
theorem cloneKids_cloned {fuel : ℕ} {y : BnodeRef}
    (ih : ∀ c, be.Child y c → ∀ be', Adds be be' → ∃ c' be'',
      be'.cloneSub (fun _ => none) fuel c = some (c', be'') ∧ Adds be' be'' ∧ Cloned be be'' c c') :
    ∀ kids : List BnodeRef, (∀ c ∈ kids, be.Child y c) → ∀ be', Adds be be' → ∀ done, ∃ clones be'',
      (kids.foldlM (fun (newChildren, be) c => do
        let (clc, be) ← cloneSub be (fun _ => none) fuel c
        some (newChildren ++ [clc], be)) (done, be')) = some (done ++ clones, be'') ∧
      Adds be' be'' ∧ clones.length = kids.length ∧
      ∀ (i : ℕ) (c c' : BnodeRef), kids[i]? = some c → clones[i]? = some c' → Cloned be be'' c c'
  | [], _, be', _, done => by
    refine ⟨[], be', ?_, .refl be', rfl, fun i c c' hi => nomatch hi⟩
    rw [List.append_nil]
    rfl
  | c :: kids, hkids, be', hadds, done => by
    obtain ⟨c', be₁, hclone, hadds₁, hcloned⟩ := ih c (hkids c (List.mem_cons_self ..)) be' hadds
    obtain ⟨clones, be₂, hrest, hadds₂, hlength, hclones⟩ := cloneKids_cloned ih kids
      (fun c hc => hkids c (List.mem_cons_of_mem _ hc)) be₁ (hadds.trans hadds₁) (done ++ [c'])
    refine ⟨c' :: clones, be₂, ?_, hadds₁.trans hadds₂, by rw [List.length_cons, hlength]; rfl,
      fun i d d' hi hi' => ?_⟩
    · rw [List.append_assoc, List.singleton_append] at hrest
      rw [List.foldlM_cons, Option.bind_eq_bind]
      dsimp only
      rw [hclone, Option.bind_eq_bind, Option.bind_some, Option.bind_some]
      exact hrest
    · cases i with
      | zero =>
        obtain rfl := Option.some.inj hi
        obtain rfl := Option.some.inj hi'
        exact hcloned.mono hadds₂
      | succ i => exact hclones i d d' hi hi'

/-- The copy of a node, when its children have been cloned. -/
theorem cloneNode_copies {n : Bnode} (newChildren : List BnodeRef)
    (hnext : be.node (be.malloc be.allocated) = none) 
    (honce : ∀ i, n.value = some (.instruction i) → n.instructions.count i ≤ 1)
    (hvalid : ∀ i ∈ n.instructions, i < be.insts.length)
    (hlength : newChildren.length = n.kids.length) : ∃ x' be' n',
      (do
        let (res, be) ← be.alloc (.expr n.flavor [] n.value n.btype [])
        let be ← be.archive res
        let be := be.update res fun r => { r with kids := newChildren }
        let (icls, be) ← be.cloneInstructions (fun _ => none) n.instructions
        let be := be.update res fun r => { r with instructions := icls }
        let be ← be.setNewv res n
        some (res, be)) = some (x', be') ∧
      be.node x' = none ∧ Adds be be' ∧ be'.node x' = some n' ∧ n'.kids = newChildren ∧
      CopiedNode be be' n n' := by
  generalize hres : be.malloc be.allocated = res at hnext
  obtain ⟨be₁, halloc, hadds₁, hleaf, hinsts₁⟩ :=
    alloc_adds (.expr n.flavor [] n.value n.btype []) (hres ▸ hnext)
  rw [hres] at halloc hleaf
  have hadds₂ : Adds be (be₁.archived res (.expr n.flavor [] n.value n.btype [])) :=
    hadds₁.archived hnext _
  obtain ⟨id, hnode₂, -⟩ := be₁.node_archived res (.expr n.flavor [] n.value n.btype [])
  have harchive := archive_leaf hleaf rfl
  generalize be₁.archived res (.expr n.flavor [] n.value n.btype []) = be₂ at harchive hadds₂ hnode₂
  have hadds₃ : Adds be (be₂.update res fun r => { r with kids := newChildren }) :=
    hadds₂.update hnext _
  have hnode₃ : (be₂.update res fun r => { r with kids := newChildren }).node res =
      some { Bnode.expr n.flavor newChildren n.value n.btype [] with id } := by
    rw [node_update_self, hnode₂, node_update_self, hleaf]
    rfl
  generalize hbe₃ : be₂.update res (fun r => { r with kids := newChildren }) = be₃ at hadds₃ hnode₃
  have hvalid₃ : ∀ i ∈ n.instructions, i < be₃.insts.length := fun i hi =>
    (hvalid i hi).trans_le hadds₃.insts.length_le
  obtain ⟨icls, be₄, hclone, hbe₄, hprefix, hicls, hcopies⟩ :=
    cloneInstructions_copies n.instructions hvalid₃
  have hnode₄ : be₄.node = be₃.node := by rw [hbe₄]
  have hadds₄ : Adds be be₄ := by
    refine hadds₃.trans ⟨by rw [hbe₄], by rw [hbe₄], fun y _ => by rw [hnode₄], ?_, hprefix⟩
    intro y hy
    exact .inl (by rwa [hnode₄] at hy)
  have hadds₅ := hadds₄.update hnext fun r => { r with instructions := icls }
  have hnode₅ : (be₄.update res fun r => { r with instructions := icls }).node res =
      some { Bnode.expr n.flavor newChildren n.value n.btype icls with id } := by
    rw [node_update_self, hnode₄, hnode₃]
    rfl
  obtain ⟨be₆, hnewv, hnode₆, hsame⟩ := setNewv_same honce hnode₅ rfl
  refine ⟨res, be₆, _, ?_, hnext, ?_, hnode₆, rfl, ?_⟩
  · rw [halloc]
    simp only [Option.bind_eq_bind, Option.bind_some, harchive, hbe₃, hclone, hnewv]
  · rcases hsame with rfl | ⟨f, rfl⟩
    · exact hadds₅
    · exact hadds₅.update hnext f
  · refine ⟨rfl, rfl, rfl, rfl, hlength, hicls, fun k i i' hi hi' => ?_⟩
    obtain ⟨hlt, inst, hinst, hinst'⟩ := hcopies k i i' hi hi'
    have hiold : i < be.insts.length := hvalid i (List.mem_of_getElem? hi)
    refine ⟨hadds₃.insts.length_le.trans hlt, inst, ?_, ?_⟩
    · obtain ⟨more, hmore⟩ := hadds₃.insts
      rwa [← hmore, List.getElem?_append_left hiold] at hinst
    · rcases hsame with rfl | ⟨f, rfl⟩
      · exact hinst'
      · exact hinst'

/-- A tree is cloned, and all that was there stays as it was. -/
theorem cloneSubtree_cloned (ha : be.Allocated) (hfresh : be.Fresh) (ht : be.CopyTree x) :
    ∃ x' be', be.cloneSubtree x = some (x', be') ∧ Adds be be' ∧ Cloned be be' x x' := by
  obtain ⟨S, hcard, hbelow⟩ := ht.toGraph.below ha
  have hall : ReflTransGen be.Child x x → ∀ be', Adds be be' → ∃ x' be'',
      be'.cloneSub (fun _ => none) (be.allocated + 1) x = some (x', be'') ∧ Adds be' be'' ∧
        Cloned be be'' x x' := by
    refine Below.induction (P := fun fuel y => ReflTransGen be.Child x y → ∀ be', Adds be be' →
      ∃ y' be'', be'.cloneSub (fun _ => none) fuel y = some (y', be'') ∧ Adds be' be'' ∧
        Cloned be be'' y y') ?_ hbelow (Nat.le_succ_of_le hcard)
    intro fuel y ih hy be' hadds
    obtain ⟨n, hn⟩ := Option.isSome_iff_exists.mp (ht.live y hy)
    obtain ⟨clones, be₁, hkids, hadds₁, hlength, hclones⟩ := cloneKids_cloned
      (fun c hc => ih c hc (hy.tail hc)) n.kids (fun c hc => ⟨n, hn, hc⟩) be' hadds []
    have hall₁ : Adds be be₁ := hadds.trans hadds₁
    have hvalid₁ : ∀ i ∈ n.instructions, i < be₁.insts.length := fun i hi =>
      (ht.valid y n hy hn i hi).trans_le hall₁.insts.length_le
    obtain ⟨y', be₂, n', hnode, hnew, hadds₂, hn', hkids', hcopy⟩ :=
      cloneNode_copies clones (hall₁.next hfresh) (fun i hi => ht.once y n i hy hn hi) hvalid₁ hlength
    refine ⟨y', be₂, ?_, hadds₁.trans hadds₂, .node hn hn' ?_ ?_ fun i c c' hi hi' => ?_⟩
    · rw [cloneSub, hadds.node hn, Option.bind_eq_bind, Option.bind_some,
        if_pos (ht.expr y n hy hn), hkids]
      exact hnode
    · rw [← Option.not_isSome_iff_eq_none] at hnew ⊢
      exact fun hlive => hnew (by rwa [hall₁.kept _ hlive])
    · refine { hcopy with insts := fun k i i' hi hi' => ?_ }
      obtain ⟨hlt, inst, hinst, hinst'⟩ := hcopy.insts k i i' hi hi'
      have hiold : i < be.insts.length := ht.valid y n hy hn i (List.mem_of_getElem? hi)
      refine ⟨hall₁.insts.length_le.trans hlt, inst, ?_, hinst'⟩
      obtain ⟨more, hmore⟩ := hall₁.insts
      rwa [← hmore, List.getElem?_append_left hiold] at hinst
    · rw [hkids'] at hi'
      exact (hclones i c c' hi hi').mono hadds₂
  exact hall .refl be (.refl be)

end Clone

/-! ## When a clone is right -/

/-- Two nodes in the same place of their trees. -/
inductive Parallel (be be' : Backend) (x x' : BnodeRef) : BnodeRef → BnodeRef → Prop
  | root : Parallel be be' x x' x x'
  | kid {y y' : BnodeRef} {n n' : Bnode} {i : ℕ} {c c' : BnodeRef}
      (h : Parallel be be' x x' y y') (hn : be.node y = some n) (hn' : be'.node y' = some n')
      (hi : n.kids[i]? = some c) (hi' : n'.kids[i]? = some c') : Parallel be be' x x' c c'

/-- An instruction of the original tree, and the one in the same place of the other. -/
def InstClone (be be' : Backend) (x x' : BnodeRef) (i i' : InstRef) : Prop :=
  ∃ (y y' : BnodeRef) (n n' : Bnode) (k : ℕ), Parallel be be' x x' y y' ∧ be.node y = some n ∧
    be'.node y' = some n' ∧ n.instructions[k]? = some i ∧ n'.instructions[k]? = some i'

/-- Some expression of the tree has the instruction. -/
def InstIn (be : Backend) (x : BnodeRef) (i : InstRef) : Prop := ∃ p k, be.InstAt x (i, p, k)

/-- What a value is in the clone: an instruction of the tree has its clone there, and another value
is itself. -/
def ValueClone (be be' : Backend) (x x' : BnodeRef) (v v' : NodeValue) : Prop :=
  (∃ i i', v = .instruction i ∧ v' = .instruction i' ∧ be.InstClone be' x x' i i') ∨
    v' = v ∧ ∀ i, v = .instruction i → ¬be.InstIn x i

/-- A tree of the same shape that has nothing in common with the original. -/
structure IsClone (be be' : Backend) (x x' : BnodeRef) : Prop where
  shape : ∀ y y', Parallel be be' x x' y y' → ∃ n n', be.node y = some n ∧ be'.node y' = some n' ∧
    n'.flavor = n.flavor ∧ n'.btype = n.btype ∧ n'.kids.length = n.kids.length ∧
    n'.instructions.length = n.instructions.length
  context : ∀ y y' n n', Parallel be be' x x' y y' → be.node y = some n → be'.node y' = some n' →
    n'.varContext.pending = n.varContext.pending ∧
      (n.varContext.pending → n'.varContext = n.varContext)
  nodes : ∀ y y', Parallel be be' x x' y y' → be.node y' = none
  insts : ∀ i i', be.InstClone be' x x' i i' → be.insts[i']? = none
  operands : ∀ i i', be.InstClone be' x x' i i' → ∃ inst inst', be.insts[i]? = some inst ∧
    be'.insts[i']? = some inst' ∧ inst'.isAlloca = inst.isAlloca ∧ inst'.opcode = inst.opcode ∧
    List.Forall₂ (be.ValueClone be' x x') inst.operands inst'.operands
  value : ∀ y y' n n', Parallel be be' x x' y y' → be.node y = some n → be'.node y' = some n' →
    Option.Rel (be.ValueClone be' x x') n.value n'.value

/-- No reference is pending in the tree, and no instruction of it is the value of a node or an
operand of an instruction there. -/
def Clonable (be : Backend) (x : BnodeRef) : Prop :=
  ∀ y n, ReflTransGen be.Child x y → be.node y = some n → ¬n.varContext.pending ∧
    (∀ i, n.value = some (.instruction i) → ¬be.InstIn x i) ∧
    ∀ j ∈ n.instructions, ∀ inst, be.insts[j]? = some inst →
      ∀ i, .instruction i ∈ inst.operands → ¬be.InstIn x i

section IsClone
variable {be be' : Backend} {x x' : BnodeRef}

theorem Cloned.parallel (h : Cloned be be' x x') {y y' : BnodeRef}
    (hy : Parallel be be' x x' y y') : Cloned be be' y y' := by
  induction hy with
  | root => exact h
  | kid _ hn hn' hi hi' ih =>
    cases ih with
    | node hm hm' _ _ hkids =>
      obtain rfl := Option.some.inj (hn.symm.trans hm)
      obtain rfl := Option.some.inj (hn'.symm.trans hm')
      exact hkids _ _ _ hi hi'

theorem Parallel.reach {y y' : BnodeRef} (h : Parallel be be' x x' y y') :
    ReflTransGen be.Child x y := by
  induction h with
  | root => exact .refl
  | kid _ hn _ hi _ ih => exact ih.tail ⟨_, hn, List.mem_of_getElem? hi⟩

/-- Each node of the original has one in the same place of the clone. -/
theorem Cloned.exists_parallel (h : Cloned be be' x x') {y : BnodeRef}
    (hy : ReflTransGen be.Child x y) : ∃ y', Parallel be be' x x' y y' := by
  induction hy with
  | refl => exact ⟨x', .root⟩
  | tail _ hchild ih =>
    obtain ⟨y', hparallel⟩ := ih
    obtain ⟨n, hn, hc⟩ := hchild
    cases h.parallel hparallel with
    | node hm hm' _ hcopy _ =>
      obtain rfl := Option.some.inj (hn.symm.trans hm)
      obtain ⟨i, hi⟩ := List.getElem?_of_mem hc
      have hlt := (List.getElem?_eq_some_iff.mp hi).1
      rw [← hcopy.kids] at hlt
      exact ⟨_, .kid hparallel hn hm' hi (List.getElem?_eq_getElem hlt)⟩

/-- An instruction of the clone is new and copies the one in the same place. -/
theorem Cloned.instClone (h : Cloned be be' x x') {i i' : InstRef}
    (hi : be.InstClone be' x x' i i') : be.insts.length ≤ i' ∧
      ∃ inst, be.insts[i]? = some inst ∧ be'.insts[i']? = some inst := by
  obtain ⟨y, y', n, n', k, hparallel, hn, hn', hk, hk'⟩ := hi
  cases h.parallel hparallel with
  | node hm hm' _ hcopy _ =>
    obtain rfl := Option.some.inj (hn.symm.trans hm)
    obtain rfl := Option.some.inj (hn'.symm.trans hm')
    exact hcopy.insts k i i' hk hk'

/-- A value that is the same in the clone is right only outside the tree. -/
theorem Cloned.valueClone_self_iff (h : Cloned be be' x x') (v : NodeValue) :
    be.ValueClone be' x x' v v ↔ ∀ i, v = .instruction i → ¬be.InstIn x i := by
  constructor
  · rintro (⟨i, i', rfl, heq, hclone⟩ | ⟨-, hout⟩)
    · obtain rfl := NodeValue.instruction.inj heq
      obtain ⟨hle, inst, hinst, -⟩ := h.instClone hclone
      exact (Nat.not_lt_of_ge hle (List.getElem?_eq_some_iff.mp hinst).1).elim
    · exact hout
  · exact fun hout => .inr ⟨rfl, hout⟩

theorem Cloned.isClone_iff (h : Cloned be be' x x') : be.IsClone be' x x' ↔ be.Clonable x := by
  constructor
  · intro hclone y n hy hn
    obtain ⟨y', hparallel⟩ := h.exists_parallel hy
    cases h.parallel hparallel with
    | @node _ _ m m' hm hm' _ hcopy _ =>
      obtain rfl := Option.some.inj (hn.symm.trans hm)
      refine ⟨fun hpending => ?_, fun i hi => ?_, fun j hj inst hinst i hi => ?_⟩
      · have hcontext := (hclone.context y y' n m' hparallel hn hm').1
        rw [hcopy.context, hpending] at hcontext
        cases hcontext
      · have hvalue := hclone.value y y' n m' hparallel hn hm'
        rw [hcopy.value, hi] at hvalue
        cases hvalue with
        | some hself => exact (h.valueClone_self_iff _).mp hself i rfl
      · obtain ⟨k, hk⟩ := List.getElem?_of_mem hj
        have hlt := (List.getElem?_eq_some_iff.mp hk).1
        rw [← hcopy.instructions] at hlt
        have hj' : be.InstClone be' x x' j m'.instructions[k] :=
          ⟨y, y', n, m', k, hparallel, hn, hm', hk, List.getElem?_eq_getElem hlt⟩
        obtain ⟨-, inst₁, hinst₁, hinst₁'⟩ := h.instClone hj'
        obtain ⟨inst₂, inst₂', hinst₂, hinst₂', -, -, hoperands⟩ := hclone.operands j _ hj'
        obtain rfl := Option.some.inj (hinst.symm.trans hinst₁)
        obtain rfl := Option.some.inj (hinst.symm.trans hinst₂)
        obtain rfl := Option.some.inj (hinst₁'.symm.trans hinst₂')
        exact (h.valueClone_self_iff _).mp (List.forall₂_same.mp hoperands _ hi) i rfl
  · intro hclonable
    refine ⟨fun y y' hparallel => ?_, fun y y' n n' hparallel hn hn' => ?_, fun y y' hparallel => ?_,
      fun i i' hi => ?_, fun i i' hi => ?_, fun y y' n n' hparallel hn hn' => ?_⟩
    · cases h.parallel hparallel with
      | node hm hm' _ hcopy _ =>
        exact ⟨_, _, hm, hm', hcopy.flavor, hcopy.btype, hcopy.kids, hcopy.instructions⟩
    · cases h.parallel hparallel with
      | node hm hm' _ hcopy _ =>
        obtain rfl := Option.some.inj (hn.symm.trans hm)
        obtain rfl := Option.some.inj (hn'.symm.trans hm')
        have hnone := (hclonable y n hparallel.reach hn).1
        rw [hcopy.context]
        exact ⟨((Bool.not_eq_true _).mp hnone).symm, fun hpending => (hnone hpending).elim⟩
    · cases h.parallel hparallel with
      | node _ _ hnew _ _ => exact hnew
    · exact List.getElem?_eq_none (h.instClone hi).1
    · obtain ⟨-, inst, hinst, hinst'⟩ := h.instClone hi
      obtain ⟨y, y', n, n', k, hparallel, hn, hn', hk, hk'⟩ := hi
      refine ⟨inst, inst, hinst, hinst', rfl, rfl, List.forall₂_same.mpr fun v hv => ?_⟩
      rw [h.valueClone_self_iff]
      rintro j rfl
      exact (hclonable y n hparallel.reach hn).2.2 i (List.mem_of_getElem? hk) inst hinst j hv
    · cases h.parallel hparallel with
      | node hm hm' _ hcopy _ =>
        obtain rfl := Option.some.inj (hn.symm.trans hm)
        obtain rfl := Option.some.inj (hn'.symm.trans hm')
        rw [hcopy.value]
        cases hvalue : n.value with
        | none => exact .none
        | some v =>
          refine .some ((h.valueClone_self_iff v).mpr ?_)
          rintro i rfl
          exact (hclonable y n hparallel.reach hn).2.1 i hvalue

/-- A tree is always cloned, and the clone is right exactly if the tree is clonable. -/
theorem cloneSubtree_isClone_iff (ha : be.Allocated) (hfresh : be.Fresh) (ht : be.ExprTree x) :
    ∃ x' be', be.cloneSubtree x = some (x', be') ∧ (be.IsClone be' x x' ↔ be.Clonable x) := by
  obtain ⟨x', be', hclone, -, hcloned⟩ := cloneSubtree_cloned ha hfresh ht.copyTree
  exact ⟨x', be', hclone, hcloned.isClone_iff⟩

end IsClone

/-! ## A load -/

/-- A variable is loaded. -/
def loadOnce : List NodeOp :=
  [.make (.mkVar (.other 0) 0), .make (.mkDeref 0 (.instruction 0) 0), .appendInstruction 1 0]

theorem loadOnce_tree : ∃ be, (new id [⟨false, 0, [.other 0]⟩]).run loadOnce = some be ∧
    be.Allocated ∧ be.Fresh ∧ be.ExprTree 1 ∧ ∃ n, be.node 1 = some n ∧
      n.value = some (.instruction 0) ∧ n.instructions = [0] := by
  have hsome : ((new id [⟨false, 0, [.other 0]⟩]).run loadOnce).isSome := by decide
  obtain ⟨be, hrun⟩ := Option.isSome_iff_exists.mp hsome
  have hnodes : ((new id [⟨false, 0, [.other 0]⟩]).run loadOnce).map (fun be =>
      (be.allocated, be.insts.length, be.node 0, be.node 1)) = some (2, 1,
        some ⟨.var, [], some (.other 0), 0, [], 0, {}⟩,
        some ⟨.deref, [0], some (.instruction 0), 0, [0], 1, {}⟩) := by decide
  have hmalloc : ((new id [⟨false, 0, [.other 0]⟩]).run loadOnce).map (·.malloc) = some id := rfl
  rw [hrun, Option.map_some, Option.some.injEq] at hnodes hmalloc
  simp only [Prod.mk.injEq] at hnodes
  obtain ⟨hallocated, hinsts, h₀, h₁⟩ := hnodes
  have ha : be.Allocated := run_allocated hrun
  have hlive : ∀ y, (be.node y).isSome → y = 0 ∨ y = 1 := by
    intro y hy
    obtain ⟨k, hk, rfl⟩ := ha y hy
    rw [hallocated] at hk
    rw [hmalloc]
    match k, hk with
    | 0, _ => exact .inl rfl
    | 1, _ => exact .inr rfl
  have hmade : ∀ y n, be.node y = some n → (∀ c ∈ n.kids, c < y ∧ (be.node c).isSome) ∧
      (n.flavor = .conversion → n.kids ≠ []) ∧ n.isExpr ∧ n.instructions.Nodup ∧
      ∀ i ∈ n.instructions, i < be.insts.length := by
    intro y n hn
    rw [hinsts]
    rcases hlive y (by rw [hn]; rfl) with rfl | rfl
    · obtain rfl := Option.some.inj (h₀.symm.trans hn)
      simp [Bnode.isExpr, NodeFlavor.isStmt]
    · obtain rfl := Option.some.inj (h₁.symm.trans hn)
      simp [Bnode.isExpr, NodeFlavor.isStmt, h₀]
  have hgraph : be.Graph 1 :=
    graph_of_lt (fun y n hn => ⟨(hmade y n hn).1, (hmade y n hn).2.1⟩) (by rw [h₁]; rfl)
  refine ⟨be, hrun, ha, fun k hk => ⟨?_, fun k' _ heq => ?_⟩,
    ⟨hgraph, fun y n _ hn => (hmade y n hn).2.2.1, fun y n _ hn => (hmade y n hn).2.2.2.1,
      fun y n _ hn => (hmade y n hn).2.2.2.2⟩, _, h₁, rfl, rfl⟩
  · rw [← Option.not_isSome_iff_eq_none, hmalloc]
    intro hk'
    rw [id] at hk'
    rcases hlive k hk' with rfl | rfl <;> omega
  · rwa [hmalloc] at heq

theorem loadOnce_isClone_iff : ∃ be, (new id [⟨false, 0, [.other 0]⟩]).run loadOnce = some be ∧
    ∃ x' be', be.cloneSubtree 1 = some (x', be') ∧ (be.IsClone be' 1 x' ↔ be.Clonable 1) := by
  obtain ⟨be, hrun, ha, hfresh, ht, -⟩ := loadOnce_tree
  exact ⟨be, hrun, cloneSubtree_isClone_iff ha hfresh ht⟩

/-- The value of the clone is the load of the original. -/
theorem loadOnce_not_isClone : ¬∀ (malloc : ℕ → BnodeRef) (insts : List Instruction)
    (ops : List NodeOp) (be : Backend) (x : BnodeRef), (new malloc insts).run ops = some be →
    be.Fresh → be.ExprTree x → ∃ x' be', be.cloneSubtree x = some (x', be') ∧
      be.IsClone be' x x' := by
  intro hall
  obtain ⟨be, hrun, ha, hfresh, ht, n, hn, hvalue, hinsts⟩ := loadOnce_tree
  obtain ⟨x', be', hclone, hright⟩ := hall _ _ _ be 1 hrun hfresh ht
  obtain ⟨x₁, be₁, hclone₁, -, hcloned⟩ := cloneSubtree_cloned ha hfresh ht.copyTree
  obtain ⟨rfl, rfl⟩ := Prod.mk.inj (Option.some.inj (hclone.symm.trans hclone₁))
  have hclonable := hcloned.isClone_iff.mp hright
  exact (hclonable 1 n .refl hn).2.1 0 hvalue ⟨1, 0, .refl, n, hn, by rw [hinsts]; rfl⟩

end Backend
end Dragongo
