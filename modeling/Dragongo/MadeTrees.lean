import Dragongo.CheckedTrees

/-!
# Trees that grow

Steps of the builder from some operands to others: a node that is made over some of them, and
changes that leave them as they are.
-/

namespace Dragongo
namespace Backend
open Relation

/-! ## One step after the other -/

/-- Everything that is among the operands afterwards comes from those before, but for the
instructions `new` of at most `m` nodes and instructions. -/
structure Grows (be be' : Backend) (roots roots' : List BnodeRef) (new : List InstRef) (m : ℕ) :
    Prop where
  operands : be'.Operands roots'
  checkable : be'.Checkable roots' ↔ be.Checkable roots
  heldTwice : ∀ c, be'.HeldTwice roots' c → be.HeldTwice roots c
  code : (roots'.flatMap be'.code).Perm (roots.flatMap be.code ++ new)
  counted : ∀ k, be.AreCounted roots (k + m) → be'.AreCounted roots' k
  insts : be.insts.length ≤ be'.insts.length

section Grows
variable {be be' be'' : Backend} {roots roots' roots'' : List BnodeRef} {new new' : List InstRef}
  {m m' : ℕ}

theorem Grows.trans (h : Grows be be' roots roots' new m) (h' : Grows be' be'' roots' roots'' new' m') :
    Grows be be'' roots roots'' (new ++ new') (m + m') where
  operands := h'.operands
  checkable := h'.checkable.trans h.checkable
  heldTwice c hc := h.heldTwice c (h'.heldTwice c hc)
  code := by
    rw [← List.append_assoc]
    exact h'.code.trans (h.code.append_right new')
  counted k hk := h'.counted k (h.counted (k + m') (by rwa [Nat.add_assoc, Nat.add_comm m'] ))
  insts := h.insts.trans h'.insts

theorem Grows.mono (h : Grows be be' roots roots' new m) (hm : m ≤ m') :
    Grows be be' roots roots' new m' :=
  { h with counted := fun k hk => h.counted k fun fuel =>
      (Nat.add_le_add_left (Nat.add_le_add_left hm k) _).trans_lt (hk fuel) }

theorem grows_perm (ho : be.Operands roots) (h : roots.Perm roots') :
    Grows be be roots roots' [] 0 where
  operands := ho.perm h
  checkable := (checkable_perm h).symm
  heldTwice c hc := by rwa [heldTwice_perm h]
  code := by
    rw [List.append_nil]
    exact (h.symm.flatMap_right _)
  counted _ hk := hk.perm h
  insts := Nat.le_refl _

theorem Unchanged.grows (h : Unchanged be be' roots) (ho : be.Operands roots) :
    Grows be be' roots roots [] 0 where
  operands := h.operands ho
  checkable := h.checkable ho
  heldTwice _ := (h.heldTwice_iff ho).mp
  code := by
    rw [List.append_nil, Same.flatMap_code (fun r hr => h.same ho ⟨r, hr, .refl⟩) ho (h.operands ho)]
  counted _ hk := hk.congr fun r hr => h.same ho ⟨r, hr, .refl⟩
  insts := h.insts

theorem Checked.grows (h : Checked be be' roots) (ho : be.Operands roots) :
    Grows be be' roots roots [] 0 where
  operands := h.operands
  checkable := h.checkable
  heldTwice := h.heldTwice
  code := by rw [List.append_nil, Same.flatMap_code h.same ho h.operands]
  counted _ hk := hk.congr h.same
  insts := h.insts

/-- The instructions of the operands are there. -/
theorem Operands.code_lt (ho : be.Operands roots) {i : InstRef} (hi : i ∈ roots.flatMap be.code) :
    i < be.insts.length := by
  obtain ⟨r, hr, hi⟩ := List.mem_flatMap.mp hi
  obtain ⟨y, n, hy, hn, hi⟩ := exists_of_mem_code ho.allocated (ho.built r hr).toGraph hi
  exact (ho.built r hr).executed y n hy hn i hi

end Grows

/-! ## A node over operands -/

/-- A node has been set, and everything else is as it was. -/
structure Sets (be be' : Backend) (x : BnodeRef) (n : Bnode) : Prop where
  node : be'.node x = some n
  other : ∀ y ≠ x, be'.node y = be.node y
  exprmap : be'.valueExprmap = be.valueExprmap
  insts : be.insts.length ≤ be'.insts.length
  allocates : Allocates be be'

section Sets
variable {be be' be'' : Backend} {x : BnodeRef} {n : Bnode} {roots rest : List BnodeRef}

theorem Sets.update (h : Sets be be' x n) (f : Bnode → Bnode) : Sets be (be'.update x f) x (f n) where
  node := by
    rw [node_update_self, h.node]
    rfl
  other y hy := (node_update_ne be' hy).trans (h.other y hy)
  exprmap := h.exprmap
  insts := h.insts
  allocates := h.allocates.trans (update_allocates be' x f)

/-- Operands that the node is not among are as they were. -/
theorem Sets.unchanged (h : Sets be be' x n) (hout : ¬be.Under roots x) : Unchanged be be' roots where
  node y m hy hm := by
    refine ⟨m, ?_, ⟨rfl, rfl, rfl, rfl, rfl⟩, rfl⟩
    rwa [h.other y fun hyx => hout (hyx ▸ hy)]
  exprmap := h.exprmap
  insts := h.insts
  allocates := h.allocates

theorem Operands.not_under (ho : be.Operands roots) (hx : be.node x = none) :
    ¬be.Under roots x := by
  intro hunder
  have hlive := ho.live hunder
  rw [hx] at hlive
  cases hlive

/-- A node that may be put over operands, with instructions that they do not have. -/
structure Over (be : Backend) (n : Bnode) (rest : List BnodeRef) : Prop where
  source : n.flavor = .conversion → n.kids ≠ []
  executed : ∀ i ∈ n.instructions, i < be.insts.length
  exprKids : acceptable n.flavor → ∀ c ∈ n.kids, be.exprAt c
  slots : n.kids.length < 2 ^ 32
  nodup : n.instructions.Nodup
  new : ∀ i ∈ n.instructions, i ∉ (n.kids ++ rest).flatMap be.code

theorem over_of_nil {n : Bnode} (hflavor : ¬acceptable n.flavor) (hslots : n.kids.length < 2 ^ 32)
    (hnil : n.instructions = []) : be.Over n rest where
  source h := absurd (by rw [h]; rfl) hflavor
  executed i hi := by
    rw [hnil] at hi
    cases hi
  exprKids h := absurd h hflavor
  slots := hslots
  nodup := by
    rw [hnil]
    exact List.nodup_nil
  new i hi := by
    rw [hnil] at hi
    cases hi

/-- A node over some of the operands takes their place. -/
theorem Sets.grows (h : Sets be be' x n) (ho : be.Operands (n.kids ++ rest))
    (hout : ¬be.Under (n.kids ++ rest) x) (hover : be.Over n rest) :
    Grows be be' (n.kids ++ rest) (x :: rest) n.instructions (n.instructions.length + 1) := by
  have hu := h.unchanged hout
  have ho' := hu.operands ho
  have hout' : ¬be'.Under (n.kids ++ rest) x := fun hx => hout ((hu.under_iff ho).mp hx)
  have hfits : be'.Fits n := ⟨hover.source, fun i hi => (hover.executed i hi).trans_le h.insts,
    fun hacceptable c hc => by
      rw [(hu.same ho ⟨c, List.mem_append_left _ hc, .refl⟩).exprAt]
      exact hover.exprKids hacceptable c hc, hover.slots.le⟩
  have hopen := operands_open ho' h.node hout' hfits
  have hcode := Same.flatMap_code (fun r hr => hu.same ho ⟨r, hr, .refl⟩) ho ho'
  have halone : ∀ a, a.1 ∈ n.instructions → ¬be'.InstHeld (n.kids ++ rest) a := by
    intro a ha hheld
    obtain ⟨k, r, hk, hr, -⟩ := hheld.mem_code ho'
    refine hover.new a.1 ha ?_
    rw [← hcode]
    exact List.mem_flatMap.mpr ⟨r, List.mem_of_getElem? hk, hr⟩
  refine ⟨hopen, ?_, fun c hc => ?_, ?_, fun k hk => ?_, h.insts⟩
  · rw [checkable_open h.node hout' hover.nodup halone, hu.checkable ho]
  · exact (hu.heldTwice_iff ho).mp ((heldTwice_open h.node hout').mp hc)
  · rw [← hcode, List.flatMap_cons, List.flatMap_append,
      code_eq ho'.allocated (hopen.built x (List.mem_cons_self ..)).toGraph h.node]
    rw [List.append_assoc, List.append_assoc]
    exact List.perm_append_comm.append_left _
  · exact (hk.congr fun r hr => hu.same ho ⟨r, hr, .refl⟩).open h.node

end Sets
/-! ## Nodes that are made -/

section Make
variable {be be' : Backend} {x : BnodeRef} {n : Bnode} {m : Making} {rest : List BnodeRef}

theorem make_same (h : be.make m = some (x, be')) :
    be'.valueExprmap = be.valueExprmap ∧ be'.insts = be.insts := by
  obtain ⟨n, -, h⟩ := Option.bind_eq_some_iff.mp h
  obtain ⟨-, -, h⟩ := Option.bind_eq_some_iff.mp h
  obtain ⟨⟨y, be₁⟩, halloc, h⟩ := Option.bind_eq_some_iff.mp h
  obtain ⟨be₂, harchive, h⟩ := Option.bind_eq_some_iff.mp h
  obtain ⟨-, rfl⟩ := Prod.mk.inj (Option.some.inj h)
  unfold alloc at halloc
  split_ifs at halloc
  obtain ⟨-, rfl⟩ := Prod.mk.inj (Option.some.inj halloc)
  obtain ⟨m', -, harchive⟩ := Option.bind_eq_some_iff.mp harchive
  unfold checkTreeInteg at harchive
  obtain ⟨k, -, harchive⟩ := Option.bind_eq_some_iff.mp harchive
  obtain ⟨iv, -, harchive⟩ := Option.bind_eq_some_iff.mp harchive
  obtain rfl := Option.some.inj harchive
  unfold archived
  split_ifs <;> exact ⟨rfl, rfl⟩

/-- The node that is made has an id. -/
theorem make_sets (h : be.make m = some (x, be')) : ∃ n id, be.construct m = some n ∧
    be.node x = none ∧ Sets be be' x { n with id } ∧ be'.insts = be.insts := by
  obtain ⟨n, id, hn, hdead, hnode, hother, -⟩ := make_node h
  obtain ⟨hmap, hinsts⟩ := make_same h
  exact ⟨n, id, hn, hdead, ⟨hnode, hother, hmap, hinsts ▸ Nat.le_refl _, make_allocates h⟩, hinsts⟩

/-- Over operands a node can be made. -/
theorem make_grows (ho : be.Operands (n.kids ++ rest)) (hm : be.construct m = some n)
    (hover : be.Over n rest) : ∃ x be' id, be.make m = some (x, be') ∧ be.node x = none ∧
      Sets be be' x { n with id } ∧ be'.insts = be.insts ∧
      Grows be be' (n.kids ++ rest) (x :: rest) n.instructions (n.instructions.length + 1) := by
  obtain ⟨⟨x, be'⟩, hmake⟩ := make_isSome hm (ho.fresh _ (Nat.le_refl _)).1 (fun kid hkid =>
    (ho.built kid (List.mem_append_left _ hkid)).toGraph.present .refl) hover.slots
  obtain ⟨n', id, hn', hdead, hsets, hinsts⟩ := make_sets hmake
  obtain rfl := Option.some.inj (hm.symm.trans hn')
  have hover' : be.Over { n with id } rest := ⟨hover.source, hover.executed, hover.exprKids,
    hover.slots, hover.nodup, hover.new⟩
  exact ⟨x, be', id, hmake, hdead, hsets, hinsts,
    Sets.grows (n := { n with id }) hsets ho (ho.not_under hdead) hover'⟩

end Make
/-! ## Roots without children -/

section Leaves
variable {be : Backend} {roots : List BnodeRef} {y : BnodeRef}

def AreLeaves (be : Backend) (roots : List BnodeRef) : Prop :=
  ∀ x ∈ roots, ∃ n, be.node x = some n ∧ n.kids = [] ∧ n.instructions = []

theorem AreLeaves.mem (h : be.AreLeaves roots) (hy : be.Under roots y) : y ∈ roots := by
  obtain ⟨r, hr, hreach⟩ := hy
  rcases ReflTransGen.cases_head hreach with rfl | ⟨z, ⟨n, hn, hz⟩, -⟩
  · exact hr
  · obtain ⟨m, hm, hkids, -⟩ := h r hr
    obtain rfl := Option.some.inj (hn.symm.trans hm)
    rw [hkids] at hz
    cases hz

theorem AreLeaves.checkable (h : be.AreLeaves roots) (hnodup : roots.Nodup) :
    be.Checkable roots := by
  have hheld : ∀ c q, ¬be.HeldAt roots c q := by
    rintro c q ⟨hunder, n, hn, hi⟩
    obtain ⟨m, hm, hkids, -⟩ := h q.1 (h.mem hunder)
    obtain rfl := Option.some.inj (hn.symm.trans hm)
    rw [hkids] at hi
    cases hi
  refine ⟨fun c hc => ?_, fun a b ha => ?_⟩
  · rcases hc with hcount | ⟨-, q, hq⟩ | ⟨q, -, -, hq, -⟩
    · have hle := List.nodup_iff_count_le_one.mp hnodup c
      omega
    · exact absurd hq (hheld c q)
    · exact absurd hq (hheld c q)
  · obtain ⟨hunder, n, hn, hi⟩ := ha
    obtain ⟨m, hm, -, hinsts⟩ := h a.2.1 (h.mem hunder)
    obtain rfl := Option.some.inj (hn.symm.trans hm)
    rw [hinsts] at hi
    cases hi

/-- Roots that a run has made of expressions. -/
theorem operands_of_made {insts : List Instruction} {ops : List NodeOp}
    (hrun : (new id insts).run ops = some be) (hmalloc : be.malloc = id) (hmade : be.MadeInOrder)
    (hnodes : (List.range be.allocated).all fun k => (be.node k).all fun n =>
      n.isExpr && decide (n.kids.length ≤ 2 ^ 32))
    (hlive : ∀ r ∈ roots, (be.node r).isSome) (hy : y ∈ roots) : be.Operands roots := by
  have hbuilt := fun r hr => builtGraph_of_made hrun hmalloc hmade (hlive r hr) hnodes
  exact ⟨(hbuilt y hy).1, (hbuilt y hy).2.1, fun r hr => (hbuilt r hr).2.2⟩

end Leaves
end Backend
end Dragongo
