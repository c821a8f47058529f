import Dragongo.CloneSubtree

/-!
# The nodes that a clone adds

A clone is made of nodes that are each in one place, with instructions that no other node has.
-/

namespace Dragongo
namespace Backend
open Relation Acyclic

/-! ## Trees of the same shape -/

/-- What a clone has in common with the node that it was made of. -/
structure LikeNode (n n' : Bnode) : Prop where
  flavor : n'.flavor = n.flavor
  btype : n'.btype = n.btype
  kids : n'.kids.length = n.kids.length
  insts : n'.instructions.length = n.instructions.length
  value : n.instructions = [] → n'.value = n.value

/-- The walk below `x` in `be` meets the same nodes as the walk below `x'` in `be'`, apart from what
their instructions are called. -/
inductive Alike (be be' : Backend) : BnodeRef → BnodeRef → Prop
  | node {x x' : BnodeRef} {n n' : Bnode} (hn : be.node x = some n) (hn' : be'.node x' = some n')
      (hlike : LikeNode n n')
      (hkids : ∀ (i : ℕ) (c c' : BnodeRef), n.kids[i]? = some c → n'.kids[i]? = some c' →
        Alike be be' c c') : Alike be be' x x'

/-- Every node under a node is there, the conversions having a source. -/
def Sound (be : Backend) (x : BnodeRef) : Prop :=
  ∀ y, ReflTransGen be.Child x y → ∃ n, be.node y = some n ∧ (n.flavor = .conversion → n.kids ≠ [])

section LikeNode
variable {n n' n'' : Bnode}

theorem LikeNode.trans (h : LikeNode n n') (h' : LikeNode n' n'') : LikeNode n n'' where
  flavor := h'.flavor.trans h.flavor
  btype := h'.btype.trans h.btype
  kids := h'.kids.trans h.kids
  insts := h'.insts.trans h.insts
  value hnil := by
    have hnil' : n'.instructions = [] := by
      rw [← List.length_eq_zero_iff, h.insts, hnil, List.length_nil]
    rw [h'.value hnil', h.value hnil]

theorem LikeNode.symm (h : LikeNode n n') : LikeNode n' n where
  flavor := h.flavor.symm
  btype := h.btype.symm
  kids := h.kids.symm
  insts := h.insts.symm
  value hnil := by
    refine (h.value ?_).symm
    rw [← List.length_eq_zero_iff, ← h.insts, hnil, List.length_nil]

end LikeNode

section Alike
variable {be be' be'' : Backend} {x x' x'' : BnodeRef}

theorem Alike.mono (h : Alike be be' x x')
    (hkept : ∀ y n, be'.node y = some n → be''.node y = some n) : Alike be be'' x x' := by
  induction h with
  | node hn hn' hlike _ ih => exact .node hn (hkept _ _ hn') hlike ih

theorem Alike.trans (h : Alike be be' x x') :
    ∀ {x''}, Alike be' be'' x' x'' → Alike be be'' x x'' := by
  induction h with
  | node hn hn' hlike hkids ih =>
    intro x'' h'
    cases h' with
    | node hm hm' hlike' hkids' =>
      obtain rfl := Option.some.inj (hn'.symm.trans hm)
      refine .node hn hm' (hlike.trans hlike') ?_
      intro i c c'' hi hi''
      have hlt := (List.getElem?_eq_some_iff.mp hi).1
      rw [← hlike.kids] at hlt
      exact ih i c _ hi (List.getElem?_eq_getElem hlt)
        (hkids' i _ c'' (List.getElem?_eq_getElem hlt) hi'')

theorem Alike.exists_node (h : Alike be be' x x') : ∃ n n', be.node x = some n ∧
    be'.node x' = some n' ∧ LikeNode n n' := by
  cases h with
  | node hn hn' hlike _ => exact ⟨_, _, hn, hn', hlike⟩

theorem Sound.child (h : be.Sound x) {y : BnodeRef} (hy : be.Child x y) : be.Sound y :=
  fun z hz => h z (hz.head hy)

/-- What is there stays below the node as it is. -/
theorem reach_of_kept (h : be.Sound x) (hkept : ∀ y n, be.node y = some n → be'.node y = some n)
    {y : BnodeRef} (hy : ReflTransGen be'.Child x y) : ReflTransGen be.Child x y := by
  induction hy with
  | refl => exact .refl
  | @tail y z _ hchild ih =>
    obtain ⟨n, hn, hz⟩ := hchild
    obtain ⟨m, hm, -⟩ := h y ih
    obtain rfl := Option.some.inj (hn.symm.trans (hkept y m hm))
    exact ih.tail ⟨n, hm, hz⟩

theorem Sound.mono (h : be.Sound x) (hkept : ∀ y n, be.node y = some n → be'.node y = some n) :
    be'.Sound x := by
  intro y hy
  obtain ⟨n, hn, hsource⟩ := h y (reach_of_kept h hkept hy)
  exact ⟨n, hkept y n hn, hsource⟩

/-- The original of a clone was there before. -/
theorem Alike.back (h : Alike be' be'' x x') (hsound : be.Sound x)
    (hkept : ∀ y n, be.node y = some n → be'.node y = some n) : Alike be be'' x x' := by
  induction h with
  | node hn hn' hlike hkids ih =>
    obtain ⟨m, hm, -⟩ := hsound _ .refl
    obtain rfl := Option.some.inj (hn.symm.trans (hkept _ m hm))
    exact .node hm hn' hlike fun i c c' hi hi' =>
      ih i c c' hi hi' (hsound.child ⟨_, hm, List.mem_of_getElem? hi⟩)

end Alike

/-! ## New nodes -/

/-- A slot of a new node. -/
def NewKid (be be' : Backend) (a : Place) : Prop :=
  ∃ n, be'.node a.2.1 = some n ∧ be.node a.2.1 = none ∧ n.kids[a.2.2]? = some a.1

/-- An instruction of a new node. -/
def NewInst (be be' : Backend) (a : InstRef × BnodeRef × ℕ) : Prop :=
  ∃ n, be'.node a.2.1 = some n ∧ be.node a.2.1 = none ∧ n.instructions[a.2.2]? = some a.1

/-- What holds of the nodes that have been added. -/
structure NewNodes (be be' : Backend) : Prop where
  exprmap : be'.valueExprmap = be.valueExprmap
  length : be.insts.length ≤ be'.insts.length
  kids : ∀ y n, be'.node y = some n → be.node y = none →
    ∀ c ∈ n.kids, be.node c = none ∧ (be'.node c).isSome
  source : ∀ y n, be'.node y = some n → be.node y = none → n.flavor = .conversion → n.kids ≠ []
  insts : ∀ y n, be'.node y = some n → be.node y = none →
    ∀ i ∈ n.instructions, be.insts.length ≤ i ∧ i < be'.insts.length
  acc : ∀ y, be.node y = none → (be'.node y).isSome → Acc (fun c p => be'.Child p c) y
  inst : Alone (NewInst be be')

/-- Nodes have been added that are each in one place, apart from `roots`, which are in none. -/
structure Grown (be be' : Backend) (roots : List BnodeRef) : Prop extends NewNodes be be' where
  kept : ∀ y n, be.node y = some n → be'.node y = some n
  place : Alone (NewKid be be')
  root : ∀ r ∈ roots, be.node r = none ∧ (be'.node r).isSome ∧ ∀ p i, ¬NewKid be be' (r, p, i)
  nodup : roots.Nodup

section Grown
variable {be be' be'' : Backend} {rs rs' : List BnodeRef}

/-- Below a new node all is new, and stays below it. -/
theorem NewNodes.acc_of_kept (h : NewNodes be be')
    (hkept : ∀ y n, be'.node y = some n → be.node y = none → be''.node y = some n) {y : BnodeRef}
    (hnew : be.node y = none) (hlive : (be'.node y).isSome) :
    Acc (fun c p => be''.Child p c) y := by
  have hacc := h.acc y hnew hlive
  induction hacc with
  | intro y _ ih =>
    refine .intro y fun c ⟨m, hm, hc⟩ => ?_
    obtain ⟨k, hk⟩ := Option.isSome_iff_exists.mp hlive
    obtain rfl := Option.some.inj ((hkept y k hk hnew).symm.trans hm)
    have hkid := h.kids y k hk hnew c hc
    exact ih c ⟨k, hk, hc⟩ hkid.1 hkid.2

theorem Grown.refl (be : Backend) : Grown be be [] where
  exprmap := rfl
  length := Nat.le_refl _
  kids y n hn hnew := nomatch hn.symm.trans hnew
  source y n hn hnew := nomatch hn.symm.trans hnew
  insts y n hn hnew := nomatch hn.symm.trans hnew
  acc y hnew hlive := by
    rw [hnew] at hlive
    cases hlive
  inst := fun _ _ ⟨_, hn, hnew, _⟩ => nomatch hn.symm.trans hnew
  kept _ _ hn := hn
  place := fun _ _ ⟨_, hn, hnew, _⟩ => nomatch hn.symm.trans hnew
  root r hr := nomatch hr
  nodup := List.nodup_nil

theorem Grown.live (h : Grown be be' rs) {y : BnodeRef} (hy : (be.node y).isSome) :
    (be'.node y).isSome := by
  obtain ⟨n, hn⟩ := Option.isSome_iff_exists.mp hy
  rw [h.kept y n hn]
  rfl

theorem Grown.dead (h : Grown be be' rs) {y : BnodeRef} (hy : be'.node y = none) :
    be.node y = none := by
  rw [← Option.not_isSome_iff_eq_none] at hy ⊢
  exact fun hlive => hy (h.live hlive)

/-- A node was as it is now, or was not there. -/
theorem Grown.before (h : Grown be be' rs) {y : BnodeRef} {n : Bnode} (hn : be'.node y = some n) :
    be.node y = some n ∨ be.node y = none := by
  cases hy : be.node y with
  | none => exact .inr rfl
  | some m => exact .inl (by rw [← Option.some.inj ((h.kept y m hy).symm.trans hn)])

theorem Grown.newKid_cases (h : Grown be be' rs) (h' : Grown be' be'' rs') {a : Place}
    (ha : NewKid be be'' a) : NewKid be be' a ∧ (be'.node a.1).isSome ∨
      NewKid be' be'' a ∧ be'.node a.1 = none := by
  obtain ⟨n, hn, hnew, hi⟩ := ha
  rcases h'.before hn with hn' | hnew'
  · exact .inl ⟨⟨n, hn', hnew, hi⟩, (h.kids _ n hn' hnew _ (List.mem_of_getElem? hi)).2⟩
  · exact .inr ⟨⟨n, hn, hnew', hi⟩, (h'.kids _ n hn hnew' _ (List.mem_of_getElem? hi)).1⟩

theorem Grown.trans (h : Grown be be' rs) (h' : Grown be' be'' rs') :
    Grown be be'' (rs ++ rs') where
  exprmap := h'.exprmap.trans h.exprmap
  length := h.length.trans h'.length
  kept y n hn := h'.kept y n (h.kept y n hn)
  kids y n hn hnew c hc := by
    rcases h'.before hn with hn' | hnew'
    · have hkid := h.kids y n hn' hnew c hc
      exact ⟨hkid.1, h'.live hkid.2⟩
    · have hkid := h'.kids y n hn hnew' c hc
      exact ⟨h.dead hkid.1, hkid.2⟩
  source y n hn hnew := by
    rcases h'.before hn with hn' | hnew'
    · exact h.source y n hn' hnew
    · exact h'.source y n hn hnew'
  insts y n hn hnew i hi := by
    rcases h'.before hn with hn' | hnew'
    · have hinst := h.insts y n hn' hnew i hi
      exact ⟨hinst.1, hinst.2.trans_le h'.length⟩
    · have hinst := h'.insts y n hn hnew' i hi
      exact ⟨h.length.trans hinst.1, hinst.2⟩
  acc y hnew hlive := by
    cases hy : be'.node y with
    | none => exact h'.acc y hy hlive
    | some m => exact h.acc_of_kept (fun y n hn _ => h'.kept y n hn) hnew (by rw [hy]; rfl)
  inst a b ha hb hab := by
    obtain ⟨n, hn, hnew, hi⟩ := ha
    obtain ⟨m, hm, hnew₂, hj⟩ := hb
    rcases h'.before hn with hn' | hn' <;> rcases h'.before hm with hm' | hm'
    · exact h.inst a b ⟨n, hn', hnew, hi⟩ ⟨m, hm', hnew₂, hj⟩ hab
    · have hlt := (h.insts _ n hn' hnew _ (List.mem_of_getElem? hi)).2
      have hle := (h'.insts _ m hm hm' _ (List.mem_of_getElem? hj)).1
      rw [hab] at hlt
      exact (Nat.not_lt_of_ge hle hlt).elim
    · have hlt := (h.insts _ m hm' hnew₂ _ (List.mem_of_getElem? hj)).2
      have hle := (h'.insts _ n hn hn' _ (List.mem_of_getElem? hi)).1
      rw [hab] at hle
      exact (Nat.not_lt_of_ge hle hlt).elim
    · exact h'.inst a b ⟨n, hn, hn', hi⟩ ⟨m, hm, hm', hj⟩ hab
  place a b ha hb hab := by
    rcases h.newKid_cases h' ha with ⟨ha, hla⟩ | ⟨ha, hla⟩ <;>
      rcases h.newKid_cases h' hb with ⟨hb, hlb⟩ | ⟨hb, hlb⟩
    · exact h.place a b ha hb hab
    · rw [hab, hlb] at hla
      cases hla
    · rw [← hab, hla] at hlb
      cases hlb
    · exact h'.place a b ha hb hab
  root r hr := by
    rcases List.mem_append.mp hr with hr | hr
    · obtain ⟨hnew, hlive, hnone⟩ := h.root r hr
      refine ⟨hnew, h'.live hlive, fun p i hkid => ?_⟩
      rcases h.newKid_cases h' hkid with ⟨hkid, -⟩ | ⟨-, hdead⟩
      · exact hnone p i hkid
      · rw [hdead] at hlive
        cases hlive
    · obtain ⟨hnew, hlive, hnone⟩ := h'.root r hr
      refine ⟨h.dead hnew, hlive, fun p i hkid => ?_⟩
      rcases h.newKid_cases h' hkid with ⟨-, hlive⟩ | ⟨hkid, -⟩
      · rw [hnew] at hlive
        cases hlive
      · exact hnone p i hkid
  nodup := by
    refine List.nodup_append.mpr ⟨h.nodup, h'.nodup, fun r hr r' hr' => ?_⟩
    rintro rfl
    have hlive := (h.root r hr).2.1
    rw [(h'.root r hr').1] at hlive
    cases hlive

end Grown

/-! ## Cloning -/

section Clone
variable {be be' : Backend}

theorem cloneInstructions_fresh {vm : NodeValue → Option NodeValue} {insts icls : List InstRef}
    (h : be.cloneInstructions vm insts = some (icls, be')) : be'.node = be.node ∧
      be'.valueExprmap = be.valueExprmap ∧ be'.insts.length = be.insts.length + insts.length ∧
      icls = List.range' be.insts.length insts.length := by
  induction insts generalizing be icls with
  | nil =>
    obtain ⟨rfl, rfl⟩ := Prod.mk.inj (Option.some.inj h)
    exact ⟨rfl, rfl, rfl, rfl⟩
  | cons inst insts ih =>
    obtain ⟨i, -, h⟩ := Option.bind_eq_some_iff.mp h
    obtain ⟨⟨icls', be₁⟩, hrest, h⟩ := Option.bind_eq_some_iff.mp h
    obtain ⟨rfl, rfl⟩ := Prod.mk.inj (Option.some.inj h)
    obtain ⟨hnode, hexprmap, hlength, hicls⟩ := ih hrest
    refine ⟨hnode, hexprmap, ?_, ?_⟩
    · rw [hlength, List.length_append, List.length_singleton, List.length_cons]
      omega
    · rw [hicls, List.length_append, List.length_singleton, List.length_cons]
      rfl

/-- The changes that are made to the new node itself. -/
def AddsNode (be be' : Backend) (x : BnodeRef) (n : Bnode) : Prop :=
  (∀ y, be'.node y = if y = x then some n else be.node y) ∧
    be'.valueExprmap = be.valueExprmap ∧ be.insts.length ≤ be'.insts.length

theorem AddsNode.update {x : BnodeRef} {n : Bnode} (h : AddsNode be be' x n) (f : Bnode → Bnode) :
    AddsNode be (be'.update x f) x (f n) := by
  refine ⟨fun y => ?_, h.2⟩
  by_cases hyx : y = x
  · rw [hyx, node_update_self, h.1, if_pos rfl, if_pos rfl]
    rfl
  · rw [node_update_ne be' hyx, h.1, if_neg hyx, if_neg hyx]

theorem setNewv_addsNode {x : BnodeRef} {n r : Bnode} {be'' : Backend} (h : AddsNode be be' x r)
    (hnewv : be'.setNewv x n = some be'') :
    ∃ value, AddsNode be be'' x { r with value } ∧ be''.insts = be'.insts ∧
      (n.instructions = [] → value = r.value) := by
  unfold setNewv at hnewv
  split at hnewv
  · obtain rfl := Option.some.inj hnewv
    exact ⟨r.value, h, rfl, fun _ => rfl⟩
  · next newv hone =>
    obtain rfl := Option.some.inj hnewv
    refine ⟨_, h.update _, rfl, fun hnil => ?_⟩
    rw [hnil] at hone
    cases hone
  · cases hnewv

/-- The copy of a node, when its children have been cloned. -/
theorem cloneNode_addsNode {vm : NodeValue → Option NodeValue} {n : Bnode}
    {newChildren : List BnodeRef} {x' : BnodeRef}
    (h : (do
      let (res, be) ← be.alloc (.expr n.flavor [] n.value n.btype [])
      let be ← be.archive res
      let be := be.update res fun r => { r with kids := newChildren }
      let (icls, be) ← be.cloneInstructions vm n.instructions
      let be := be.update res fun r => { r with instructions := icls }
      let be ← be.setNewv res n
      some (res, be)) = some (x', be')) :
    ∃ n', be.node x' = none ∧ AddsNode be be' x' n' ∧ n'.flavor = n.flavor ∧
      n'.btype = n.btype ∧ n'.kids = newChildren ∧
      n'.instructions.length = n.instructions.length ∧
      (n.instructions = [] → n'.value = n.value) ∧ n'.instructions.Nodup ∧
      ∀ i ∈ n'.instructions, be.insts.length ≤ i ∧ i < be'.insts.length := by
  obtain ⟨⟨res, be₁⟩, halloc, h⟩ := Option.bind_eq_some_iff.mp h
  obtain ⟨be₂, harchive, h⟩ := Option.bind_eq_some_iff.mp h
  obtain ⟨⟨icls, be₃⟩, hinsts, h⟩ := Option.bind_eq_some_iff.mp h
  obtain ⟨be₄, hnewv, h⟩ := Option.bind_eq_some_iff.mp h
  obtain ⟨rfl, rfl⟩ := Prod.mk.inj (Option.some.inj h)
  unfold alloc at halloc
  split_ifs at halloc with hlive
  obtain ⟨rfl, rfl⟩ := Prod.mk.inj (Option.some.inj halloc)
  rw [Option.not_isSome_iff_eq_none] at hlive
  generalize be.malloc be.allocated = x at *
  set be₁ : Backend := { be with
    allocated := be.allocated + 1
    node := fun y => if y = x then some (.expr n.flavor [] n.value n.btype []) else be.node y }
  have h₁ : AddsNode be be₁ x (.expr n.flavor [] n.value n.btype []) :=
    ⟨fun _ => rfl, rfl, Nat.le_refl _⟩
  have hleaf : be₁.node x = some (.expr n.flavor [] n.value n.btype []) := if_pos rfl
  rw [archive_leaf hleaf rfl] at harchive
  obtain rfl := Option.some.inj harchive
  have h₂ : ∃ id, AddsNode be (be₁.archived x (.expr n.flavor [] n.value n.btype [])) x
      { Bnode.expr n.flavor [] n.value n.btype [] with id } := by
    unfold archived
    split_ifs
    · exact ⟨_, h₁.update _⟩
    · exact ⟨_, h₁.update _⟩
  obtain ⟨id, h₂⟩ := h₂
  have h₃ := h₂.update fun r => { r with kids := newChildren }
  obtain ⟨hnode, hexprmap, hlength, rfl⟩ := cloneInstructions_fresh hinsts
  have h₄ : AddsNode be be₃ x { Bnode.expr n.flavor [] n.value n.btype [] with
      id, kids := newChildren } := by
    refine ⟨fun y => by rw [hnode, h₃.1], hexprmap.trans h₃.2.1, h₃.2.2.trans ?_⟩
    rw [hlength]
    exact Nat.le_add_right ..
  obtain ⟨value, h₅, hinsts₅, hvalue⟩ := setNewv_addsNode (h₄.update fun r => { r with
    instructions := List.range' _ n.instructions.length }) hnewv
  refine ⟨_, hlive, h₅, rfl, rfl, rfl, List.length_range', hvalue, List.nodup_range', fun i hi => ?_⟩
  have hmem := List.mem_range'_1.mp hi
  rw [hinsts₅]
  change _ ∧ i < be₃.insts.length
  rw [hlength]
  exact ⟨h₃.2.2.trans hmem.1, hmem.2⟩

/-- One more node over the nodes that have been added. -/
theorem Grown.addNode {be₁ : Backend} {x : BnodeRef} {n : Bnode} {rs : List BnodeRef}
    (h : Grown be be₁ rs) (hdead : be₁.node x = none) (hadds : AddsNode be₁ be' x n)
    (hkids : n.kids = rs) (hsource : n.flavor = .conversion → n.kids ≠ [])
    (hnodup : n.instructions.Nodup)
    (hinsts : ∀ i ∈ n.instructions, be₁.insts.length ≤ i ∧ i < be'.insts.length) :
    Grown be be' [x] := by
  obtain ⟨hnode, hexprmap, hlength⟩ := hadds
  have hx : be'.node x = some n := by rw [hnode, if_pos rfl]
  have hold : ∀ y m, be₁.node y = some m → be'.node y = some m := by
    intro y m hm
    rw [hnode, if_neg, hm]
    rintro rfl
    rw [hdead] at hm
    cases hm
  have hcases : ∀ y m, be'.node y = some m → y = x ∧ m = n ∨ be₁.node y = some m := by
    intro y m hm
    rw [hnode] at hm
    split_ifs at hm with hy
    · exact .inl ⟨hy, (Option.some.inj hm).symm⟩
    · exact .inr hm
  have hlive : ∀ y, (be₁.node y).isSome → (be'.node y).isSome := by
    intro y hy
    obtain ⟨m, hm⟩ := Option.isSome_iff_exists.mp hy
    rw [hold y m hm]
    rfl
  have hacc : ∀ y, be.node y = none → (be₁.node y).isSome → Acc (fun c p => be'.Child p c) y :=
    fun y hnew hy => h.acc_of_kept (fun y m hm _ => hold y m hm) hnew hy
  have hplace : ∀ a, NewKid be be' a → a.2.1 = x ∧ rs[a.2.2]? = some a.1 ∨ NewKid be be₁ a := by
    intro a ⟨m, hm, hnew, hi⟩
    rcases hcases _ m hm with ⟨hax, rfl⟩ | hm
    · exact .inl ⟨hax, hkids ▸ hi⟩
    · exact .inr ⟨m, hm, hnew, hi⟩
  refine ⟨⟨hexprmap.trans h.exprmap, h.length.trans hlength, ?_, ?_, ?_, ?_, ?_⟩, ?_, ?_, ?_, ?_⟩
  · intro y m hm hnew c hc
    rcases hcases y m hm with ⟨rfl, rfl⟩ | hm
    · have hroot := h.root c (hkids ▸ hc)
      exact ⟨hroot.1, hlive c hroot.2.1⟩
    · have hkid := h.kids y m hm hnew c hc
      exact ⟨hkid.1, hlive c hkid.2⟩
  · intro y m hm hnew
    rcases hcases y m hm with ⟨rfl, rfl⟩ | hm
    · exact hsource
    · exact h.source y m hm hnew
  · intro y m hm hnew i hi
    rcases hcases y m hm with ⟨rfl, rfl⟩ | hm
    · exact ⟨h.length.trans (hinsts i hi).1, (hinsts i hi).2⟩
    · have hinst := h.insts y m hm hnew i hi
      exact ⟨hinst.1, hinst.2.trans_le hlength⟩
  · intro y hnew hy
    by_cases hyx : y = x
    · subst hyx
      refine .intro y fun c ⟨m, hm, hc⟩ => ?_
      obtain rfl := Option.some.inj (hx.symm.trans hm)
      have hroot := h.root c (hkids ▸ hc)
      exact hacc c hroot.1 hroot.2.1
    · rw [hnode, if_neg hyx] at hy
      exact hacc y hnew hy
  · intro a b ⟨m, hm, hnew, hi⟩ ⟨k, hk, hnew', hj⟩ hab
    rcases hcases _ m hm with ⟨hax, rfl⟩ | hm' <;> rcases hcases _ k hk with ⟨hbx, rfl⟩ | hk'
    · have hlt := (List.getElem?_eq_some_iff.mp hi).1
      have hindex := (List.getElem?_inj hlt hnodup).mp (hi.trans (hab ▸ hj.symm))
      exact Prod.ext hab (Prod.ext (hax.trans hbx.symm) hindex)
    · have hle := (hinsts _ (List.mem_of_getElem? hi)).1
      have hlt := (h.insts _ k hk' hnew' _ (List.mem_of_getElem? hj)).2
      rw [hab] at hle
      exact (Nat.not_lt_of_ge hle hlt).elim
    · have hle := (hinsts _ (List.mem_of_getElem? hj)).1
      have hlt := (h.insts _ m hm' hnew _ (List.mem_of_getElem? hi)).2
      rw [hab] at hlt
      exact (Nat.not_lt_of_ge hle hlt).elim
    · exact h.inst a b ⟨m, hm', hnew, hi⟩ ⟨k, hk', hnew', hj⟩ hab
  · exact fun y m hm => hold y m (h.kept y m hm)
  · intro a b ha hb hab
    rcases hplace a ha with ⟨hax, hi⟩ | ha <;> rcases hplace b hb with ⟨hbx, hj⟩ | hb
    · have hlt := (List.getElem?_eq_some_iff.mp hi).1
      have hindex := (List.getElem?_inj hlt h.nodup).mp (hi.trans (hab ▸ hj.symm))
      exact Prod.ext hab (Prod.ext (hax.trans hbx.symm) hindex)
    · exact ((h.root _ (List.mem_of_getElem? (hab ▸ hi))).2.2 _ _ hb).elim
    · exact ((h.root _ (List.mem_of_getElem? (hab ▸ hj))).2.2 _ _ ha).elim
    · exact h.place a b ha hb hab
  · intro r hr
    obtain rfl := List.mem_singleton.mp hr
    refine ⟨h.dead hdead, by rw [hx]; rfl, fun p i hkid => ?_⟩
    have hlive : (be₁.node r).isSome := by
      rcases hplace _ hkid with ⟨-, hi⟩ | ⟨m, hm, hnew, hi⟩
      · exact (h.root _ (List.mem_of_getElem? hi)).2.1
      · exact (h.kids _ m hm hnew _ (List.mem_of_getElem? hi)).2
    rw [hdead] at hlive
    cases hlive
  · exact List.nodup_singleton x

/-- The children are cloned one after the other. -/
theorem cloneKids_grown {vm : NodeValue → Option NodeValue} {fuel : ℕ}
    (ih : ∀ {be be' : Backend} {x res : BnodeRef}, be.Sound x →
      be.cloneSub vm fuel x = some (res, be') → Grown be be' [res] ∧ Alike be be' x res) :
    ∀ (kids : List BnodeRef) {be₁ : Backend} {done clones : List BnodeRef}, Grown be be₁ done →
      (∀ c ∈ kids, be.Sound c) →
      kids.foldlM (fun (newChildren, be) c => do
        let (clc, be) ← cloneSub be vm fuel c
        some (newChildren ++ [clc], be)) (done, be₁) = some (clones, be') →
      Grown be be' clones ∧ (∀ y n, be₁.node y = some n → be'.node y = some n) ∧
        ∃ more, clones = done ++ more ∧ List.Forall₂ (Alike be be') kids more
  | [], be₁, done, clones, hgrown, _, h => by
    obtain ⟨rfl, rfl⟩ := Prod.mk.inj (Option.some.inj h)
    exact ⟨hgrown, fun _ _ hn => hn, [], (List.append_nil _).symm, .nil⟩
  | c :: kids, be₁, done, clones, hgrown, hsound, h => by
    rw [List.foldlM_cons] at h
    obtain ⟨⟨done', be₂⟩, hstep, h⟩ := Option.bind_eq_some_iff.mp h
    obtain ⟨⟨clc, be₂'⟩, hclone, hstep⟩ := Option.bind_eq_some_iff.mp hstep
    obtain ⟨rfl, rfl⟩ := Prod.mk.inj (Option.some.inj hstep)
    have hc := hsound c (List.mem_cons_self ..)
    obtain ⟨hgrown₂, halike⟩ := ih (hc.mono hgrown.kept) hclone
    obtain ⟨hgrown', hkept, more, rfl, hmore⟩ := cloneKids_grown ih kids (hgrown.trans hgrown₂)
      (fun c hc => hsound c (List.mem_cons_of_mem _ hc)) h
    refine ⟨hgrown', fun y n hn => hkept y n (hgrown₂.kept y n hn), clc :: more,
      List.append_assoc .., .cons ?_ hmore⟩
    exact (halike.back hc hgrown.kept).mono hkept

/-- A clone is a tree of its own of the same shape. -/
theorem cloneSub_grown {vm : NodeValue → Option NodeValue} {fuel : ℕ} {x res : BnodeRef}
    (hsound : be.Sound x) (h : be.cloneSub vm fuel x = some (res, be')) :
    Grown be be' [res] ∧ Alike be be' x res := by
  induction fuel generalizing be be' vm x res with
  | zero => cases h
  | succ fuel ih =>
    obtain ⟨n, hn, h⟩ := Option.bind_eq_some_iff.mp h
    split_ifs at h
    obtain ⟨⟨newChildren, be₁⟩, hchildren, h⟩ := Option.bind_eq_some_iff.mp h
    obtain ⟨hgrown, -, more, hclones, hmore⟩ := cloneKids_grown ih n.kids (.refl be)
      (fun c hc => hsound.child ⟨n, hn, hc⟩) hchildren
    rw [List.nil_append] at hclones
    subst hclones
    have hlength := hmore.length_eq
    obtain ⟨n', hdead, hadds, hflavor, hbtype, hkids, hcount, hvalue, hnodup, hinsts⟩ :=
      cloneNode_addsNode h
    obtain ⟨m, hm, hsource⟩ := hsound x .refl
    obtain rfl := Option.some.inj (hn.symm.trans hm)
    have hgrown' : Grown be be' [res] := by
      refine hgrown.addNode hdead hadds hkids (fun hconv => ?_) hnodup hinsts
      rw [hkids, ← List.length_pos_iff, ← hlength, List.length_pos_iff]
      exact hsource (hflavor.symm.trans hconv)
    refine ⟨hgrown', .node hn (by rw [hadds.1, if_pos rfl])
      ⟨hflavor, hbtype, by rw [hkids, hlength], hcount, hvalue⟩ ?_⟩
    intro i c c' hi hi'
    rw [hkids] at hi'
    have halike := List.forall₂_iff_get.mp hmore
    obtain ⟨hlt, rfl⟩ := List.getElem?_eq_some_iff.mp hi
    obtain ⟨hlt', rfl⟩ := List.getElem?_eq_some_iff.mp hi'
    refine (halike.2 i hlt hlt').mono fun y k hk => ?_
    rw [hadds.1, if_neg, hk]
    rintro rfl
    rw [hdead] at hk
    cases hk

theorem valueOnce_of_setNewv {res : BnodeRef} {n : Bnode} (h : be.setNewv res n = some be')
    {i : InstRef} (hi : n.value = some (.instruction i)) : n.instructions.count i ≤ 1 := by
  have hfilter : (n.instructions.filter fun inst => decide (n.value = some (.instruction inst))) =
      n.instructions.filter (· == i) := by
    refine List.filter_congr fun inst _ => ?_
    rw [Bool.eq_iff_iff, decide_eq_true_iff, beq_iff_eq, hi, Option.some.injEq,
      NodeValue.instruction.injEq]
    exact eq_comm
  unfold setNewv at h
  rw [hfilter] at h
  rw [List.count_eq_length_filter]
  split at h
  · next hnil => rw [hnil]; exact Nat.zero_le 1
  · next hone => rw [hone]; exact Nat.le_refl 1
  · cases h

/-- A tree that has been cloned has the value of a node once. -/
theorem cloneSub_valueOnce {vm : NodeValue → Option NodeValue} {fuel : ℕ} {x res : BnodeRef}
    (hsound : be.Sound x) (h : be.cloneSub vm fuel x = some (res, be')) : be.ValueOnce x := by
  induction fuel generalizing be be' vm x res with
  | zero => cases h
  | succ fuel ih =>
    obtain ⟨n, hn, h⟩ := Option.bind_eq_some_iff.mp h
    split_ifs at h
    obtain ⟨⟨newChildren, be₁⟩, hchildren, h⟩ := Option.bind_eq_some_iff.mp h
    obtain ⟨⟨res', be₂⟩, -, h⟩ := Option.bind_eq_some_iff.mp h
    obtain ⟨be₃, -, h⟩ := Option.bind_eq_some_iff.mp h
    obtain ⟨⟨icls, be₄⟩, -, h⟩ := Option.bind_eq_some_iff.mp h
    obtain ⟨be₅, hnewv, -⟩ := Option.bind_eq_some_iff.mp h
    have hkids : ∀ (l : List BnodeRef) (s s' : List BnodeRef × Backend),
        (∀ y n, be.node y = some n → s.2.node y = some n) → (∀ c ∈ l, be.Sound c) →
        (l.foldlM (fun (newChildren, be) c => do
          let (clc, be) ← cloneSub be (fun _ => none) fuel c
          some (newChildren ++ [clc], be)) s) = some s' → ∀ c ∈ l, be.ValueOnce c := by
      intro l
      induction l with
      | nil => exact fun _ _ _ _ _ c hc => nomatch hc
      | cons c l ihl =>
        intro s s' hkept hsounds h d hd
        rw [List.foldlM_cons] at h
        obtain ⟨s₁, hstep, h⟩ := Option.bind_eq_some_iff.mp h
        obtain ⟨⟨clc, be₀⟩, hclone, hstep⟩ := Option.bind_eq_some_iff.mp hstep
        obtain rfl := Option.some.inj hstep
        have hc := hsounds c (List.mem_cons_self ..)
        have hkept₁ := (cloneSub_grown (hc.mono hkept) hclone).1.kept
        rcases List.mem_cons.mp hd with rfl | hd
        · intro y m i hy hm hi
          refine ih (hc.mono hkept) hclone y m i ?_ (hkept y m hm) hi
          exact ReflTransGen.mono (fun p q ⟨k, hk, hq⟩ => ⟨k, hkept p k hk, hq⟩) _ _ hy
        · exact ihl _ s' (fun y m hm => hkept₁ y m (hkept y m hm))
            (fun c hc => hsounds c (List.mem_cons_of_mem _ hc)) h d hd
    have hall := hkids n.kids ([], be) _ (fun _ _ hm => hm)
      (fun c hc => hsound.child ⟨n, hn, hc⟩) hchildren
    intro y m i hy hm hi
    rcases ReflTransGen.cases_head hy with rfl | ⟨c, ⟨k, hk, hc⟩, hy⟩
    · obtain rfl := Option.some.inj (hn.symm.trans hm)
      exact valueOnce_of_setNewv hnewv hi
    · obtain rfl := Option.some.inj (hn.symm.trans hk)
      exact hall c hc y m i hy hm hi

end Clone
end Backend
end Dragongo
