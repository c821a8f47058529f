import Dragongo.CheckedAssignment
import Dragongo.ExprArchive
import Dragongo.SelfAssignment

/-!
# The nodes of composites that get storage

A composite that has no storage yet is taken apart when it gets some.  Its node is destroyed, and
its elements are resolved one after the other and put under a new node.
-/

namespace Dragongo
open LType Varexpr_context

namespace Backend

/-! ## Resolving a composite -/

section Definitions

variable (ir : IRBuilder) (c : CircularTypes)

/-- The instructions of the stores into the parts of some storage, from index `i` on. -/
def initInsts (t : LType) (storage : Value) : ℕ → List Stored → List Instruction
  | _, [] => []
  | i, st :: sts => ir.part (t.partAddress storage i) ++ ir.store st ++ initInsts t storage (i + 1) sts

/-- The new node of a composite, over the values that have been stored. -/
def mkComposite (be : Backend) (bt : Btype) (storage : Value) (value : Option NodeValue)
    (init : List Code × List Stored) (vals : List BnodeRef) : Option (Code × BnodeRef × Backend) := do
  let (is, be) := be.emit (initInsts ir bt.type storage 0 init.2)
  let (x, be) ← be.make (.mkComposite (ir.types bt) value vals is)
  some (.node init.1 (init.2.map .store), x, be)

mutual
/-- `resolve` of an element, in the context of its own type, as its node is by then.  A composite
gets a temporary. -/
def resolveElement : Backend → Bexpression → BnodeRef → Option (Built × BnodeRef × Backend)
  | be, .expr bt v _, x => do
    let k ← be.node x
    let e := Bexpression.expr bt v k.varContext
    let r ← Dragongo.resolveElement c e
    let (x, be) ← be.resolve ir c ⟨e, x⟩ e.varContextDisp
    some (r, x, be)
  | be, .compositeInit node bt elems, x =>
    if bt.type.isAggregateType ∧ elems.length = bt.type.numElements then do
      let temp := NodeValue.instruction be.insts.length
      let be := (be.emit [ir.alloca bt]).2
      let (kids, be) ← be.extractChildenAndDestroy x
      let (init, vals, be) ← genInit be elems kids bt.type (.temporary node bt.type) 0
      let (code, x, be) ← be.mkComposite ir bt (.temporary node bt.type) (some temp) init vals
      let be ← be.setVarExprPending x false 0
      some (⟨bt, .temporary node bt.type, code⟩, x, be)
    else none
/-- `genArrayInit` and `genStructInit`: the elements from index `i` on, and their nodes. -/
def genInit : Backend → List Bexpression → List BnodeRef → LType → Value → ℕ →
    Option ((List Code × List Stored) × List BnodeRef × Backend)
  | be, [], [], _, _, _ => some (([], []), [], be)
  | be, e :: es, x :: xs, t, storage, i => do
    let (r, x, be) ← resolveElement be e x
    let st ← genStoreValue c r.btype (t.partAddress storage i) r.value
    let (init, vals, be) ← genInit be es xs t storage (i + 1)
    some ((r.code :: init.1, st :: init.2), x :: vals, be)
  | _, _, _, _, _, _ => none
end

/-- `resolveCompositeInit` into storage that is given, which is the value of a node. -/
def resolveCompositeInit (be : Backend) (bt : Btype) (elems : List Bexpression) (x : BnodeRef)
    (storage : Value) (value : Option NodeValue) : Option (Code × BnodeRef × Backend) :=
  if bt.type.isAggregateType ∧ elems.length = bt.type.numElements then do
    let (kids, be) ← be.extractChildenAndDestroy x
    let (init, vals, be) ← be.genInit ir c elems kids bt.type storage 0
    be.mkComposite ir bt storage value init vals
  else none

/-- `assignment_statement` of a composite that has no storage yet. -/
def assignComposite (be : Backend) (lhs : Side) (bt : Btype) (elems : List Bexpression)
    (x : BnodeRef) : Option (Code × BnodeRef × Backend) := do
  let lhs2 ← Dragongo.resolve c lhs.expr VE_lvalue
  let (y, be) ← be.resolve ir c lhs VE_lvalue
  let k ← be.node y
  let (code, x, be) ← be.resolveCompositeInit ir c bt elems x lhs2.value k.value
  let (stexp, be) ← be.make (.mkBinaryOp (ir.types voidType) k.value y x)
  let (st, be) ← be.make (.mkExprStmt stexp)
  let be ← be.enforceTreeIntegrity st
  some (.node [lhs2.value.code, code] [], st, be)

end Definitions

/-! ## Records of children -/

section Records
variable {be be' : Backend} {iv iv' : IntegrityVisitor} {c p x z : BnodeRef} {i : ℕ}

theorem setParent_table (h : be.setParent iv c p i = some iv') (z : BnodeRef) :
    iv'.nparent z = iv.nparent z ∨
      z = c ∧ be.shouldBeTracked iv.control z = some true ∧ iv'.nparent z = some (p, i) := by
  obtain ⟨-, -, tracked, htracked, hnote⟩ := setParent_some h
  have hentry := congrFun (congrArg Prod.fst hnote) z
  cases tracked with
  | false => exact .inl hentry
  | true =>
    have hnoted : iv'.nparent z = if z = c then some (p, i) else iv.nparent z := hentry
    by_cases hz : z = c
    · rw [if_pos hz] at hnoted
      exact .inr ⟨hz, hz ▸ htracked, hnoted⟩
    · rw [if_neg hz] at hnoted
      exact .inl hnoted

/-- What is recorded anew is a slot of the parent, for a child that is tracked. -/
theorem setParents_table : ∀ (kids : List (BnodeRef × ℕ)) {iv : IntegrityVisitor},
    kids.foldlM (fun iv kid => be.setParent iv kid.1 p kid.2) iv = some iv' →
    iv'.control = iv.control ∧ ∀ z, iv'.nparent z = iv.nparent z ∨
      be.shouldBeTracked iv.control z = some true ∧
        ∃ i, (z, i) ∈ kids ∧ iv'.nparent z = some (p, i)
  | [], iv, h => by
    obtain rfl := Option.some.inj h
    exact ⟨rfl, fun _ => .inl rfl⟩
  | kid :: kids, iv, h => by
    rw [List.foldlM_cons] at h
    obtain ⟨iv₁, hset, h⟩ := Option.bind_eq_some_iff.mp h
    have hcontrol := (setParent_some hset).1
    obtain ⟨hcontrol', htable⟩ := setParents_table kids h
    refine ⟨hcontrol'.trans hcontrol, fun z => ?_⟩
    rw [hcontrol] at htable
    rcases htable z with hz | ⟨htracked, j, hmem, hz⟩
    · rcases setParent_table hset z with hz' | ⟨rfl, htracked, hz'⟩
      · exact .inl (hz.trans hz')
      · exact .inr ⟨htracked, kid.2, List.mem_cons_self .., hz.trans hz'⟩
    · exact .inr ⟨htracked, j, List.mem_cons_of_mem _ hmem, hz⟩

/-- Making a node records slots of it alone. -/
theorem make_table {m : Making} (h : be.make m = some (x, be')) : ∃ n, be.construct m = some n ∧
    be'.integrityVisitor.control = be.integrityVisitor.control ∧
    ∀ z, be'.table z = be.table z ∨ z ∈ n.kids ∧
      be'.shouldBeTracked be.integrityVisitor.control z = some true ∧
        ∃ i, be'.table z = some (x, i) := by
  obtain ⟨n, hn, h⟩ := Option.bind_eq_some_iff.mp h
  obtain ⟨-, -, h⟩ := Option.bind_eq_some_iff.mp h
  obtain ⟨⟨y, be₁⟩, halloc, h⟩ := Option.bind_eq_some_iff.mp h
  obtain ⟨be₂, harchive, h⟩ := Option.bind_eq_some_iff.mp h
  obtain ⟨rfl, rfl⟩ := Prod.mk.inj (Option.some.inj h)
  have hvisitor : be₁.integrityVisitor = be.integrityVisitor := by
    unfold alloc at halloc
    split_ifs at halloc
    obtain ⟨-, rfl⟩ := Prod.mk.inj (Option.some.inj halloc)
    rfl
  have hnode := (alloc_some halloc).2.1
  have harchived : (be₁.archived y n).integrityVisitor = be.integrityVisitor := by
    unfold archived
    split_ifs <;> exact hvisitor
  obtain ⟨id, hid, -⟩ := be₁.node_archived y n
  rw [archive, hnode, Option.bind_eq_bind, Option.bind_some] at harchive
  obtain ⟨k, hk, harchive⟩ := Option.bind_eq_some_iff.mp harchive
  obtain ⟨iv, hiv, harchive⟩ := Option.bind_eq_some_iff.mp harchive
  obtain rfl := Option.some.inj harchive
  rw [hid, node_update_self, hnode] at hk
  obtain rfl := Option.some.inj hk
  obtain ⟨-, hiv⟩ := Option.ite_none_right_eq_some.mp hiv
  rw [harchived] at hiv
  obtain ⟨hcontrol, htable⟩ := setParents_table _ hiv
  refine ⟨n, hn, hcontrol, fun z => ?_⟩
  rcases htable z with hz | ⟨htracked, i, hmem, hz⟩
  · exact .inl hz
  · exact .inr ⟨(List.mem_zipIdx hmem).2.2 ▸ List.getElem_mem _, htracked, i, hz⟩

/-- The children that are tracked were recorded in their slots, and are recorded no more. -/
theorem unsetParents_table : ∀ (kids : List (BnodeRef × ℕ)) {iv : IntegrityVisitor},
    kids.foldlM (fun iv kid => be.unsetParent iv kid.1 x kid.2) iv = some iv' →
    iv'.control = iv.control ∧
    (∀ kid ∈ kids, ∃ tracked, be.shouldBeTracked iv.control kid.1 = some tracked ∧
      (tracked = true → iv.nparent kid.1 = some (x, kid.2))) ∧
    ∀ z, iv'.nparent z = iv.nparent z ∨ iv'.nparent z = none ∧ ∃ i, iv.nparent z = some (x, i)
  | [], iv, h => by
    obtain rfl := Option.some.inj h
    exact ⟨rfl, fun kid hkid => absurd hkid List.not_mem_nil, fun _ => .inl rfl⟩
  | kid :: kids, iv, h => by
    rw [List.foldlM_cons] at h
    obtain ⟨iv₁, hunset, h⟩ := Option.bind_eq_some_iff.mp h
    obtain ⟨hcontrol, hkids, htable⟩ := unsetParents_table kids h
    obtain ⟨tracked, htracked, hunset⟩ := Option.bind_eq_some_iff.mp hunset
    cases tracked with
    | false =>
      obtain rfl := Option.some.inj hunset
      refine ⟨hcontrol, fun kid' hkid' => ?_, htable⟩
      rcases List.mem_cons.mp hkid' with rfl | hkid'
      · exact ⟨false, htracked, fun h => absurd h Bool.false_ne_true⟩
      · exact hkids kid' hkid'
    | true =>
      replace hunset : (if iv.nparent kid.1 = some (x, kid.2) then some { iv with
        nparent := fun y => if y = kid.1 then none else iv.nparent y } else none) =
          some iv₁ := hunset
      split_ifs at hunset with hrecorded
      obtain rfl := Option.some.inj hunset
      refine ⟨hcontrol, fun kid' hkid' => ?_, fun z => ?_⟩
      · rcases List.mem_cons.mp hkid' with rfl | hkid'
        · exact ⟨true, htracked, fun _ => hrecorded⟩
        · obtain ⟨tracked, htracked', hentry⟩ := hkids kid' hkid'
          refine ⟨tracked, htracked', fun ht => ?_⟩
          have hgone : (if kid'.1 = kid.1 then none else iv.nparent kid'.1) = some (x, kid'.2) :=
            hentry ht
          split_ifs at hgone
          exact hgone
      · by_cases hz : z = kid.1
        · have hnone : (if z = kid.1 then none else iv.nparent z) = none := if_pos hz
          rcases htable z with hz' | ⟨hz', i, hi⟩
          · exact .inr ⟨hz'.trans hnone, kid.2, hz ▸ hrecorded⟩
          · cases hnone.symm.trans hi
        · have hsame : (if z = kid.1 then none else iv.nparent z) = iv.nparent z := if_neg hz
          exact (htable z).imp (·.trans hsame) fun hz' => ⟨hz'.1, hz'.2.imp fun i hi =>
            hsame.symm.trans hi⟩

/-- While the children are recorded in their slots, all records are taken back. -/
theorem unsetParents_isSome : ∀ (kids : List (BnodeRef × ℕ)) (iv : IntegrityVisitor),
    kids.Nodup → (∀ kid ∈ kids, ∃ tracked, be.shouldBeTracked iv.control kid.1 = some tracked ∧
      (tracked = true → iv.nparent kid.1 = some (x, kid.2))) →
    ∃ iv', kids.foldlM (fun iv kid => be.unsetParent iv kid.1 x kid.2) iv = some iv'
  | [], iv, _, _ => ⟨iv, rfl⟩
  | kid :: kids, iv, hnodup, h => by
    obtain ⟨hnot, hnodup⟩ := List.nodup_cons.mp hnodup
    obtain ⟨tracked, htracked, hentry⟩ := h kid List.mem_cons_self
    rw [List.foldlM_cons, unsetParent, htracked]
    cases tracked with
    | false =>
      exact unsetParents_isSome kids iv hnodup fun kid' hkid' => h kid' (List.mem_cons_of_mem _ hkid')
    | true =>
      simp only [Option.bind_eq_bind, Option.bind_some, if_true, if_pos (hentry rfl)]
      refine unsetParents_isSome kids _ hnodup fun kid' hkid' => ?_
      obtain ⟨tracked', htracked', hentry'⟩ := h kid' (List.mem_cons_of_mem _ hkid')
      refine ⟨tracked', htracked', fun ht => (if_neg fun hsame => ?_).trans (hentry' ht)⟩
      -- it would be recorded in two slots
      have hslots : some (x, kid.2) = some (x, kid'.2) := by
        rw [← hentry rfl, ← hentry' ht, hsame]
      have hkid : kid' = kid := Prod.ext hsame (Prod.mk.inj (Option.some.inj hslots)).2.symm
      exact hnot (hkid ▸ hkid')

end Records

/-! ## Taking a composite apart -/

/-- An archive that is not too long is right. -/
def ArchiveFits (be : Backend) : Prop := be.earchive.length ≤ 2 ^ 32 → be.Archived

/-- The composite is destroyed, and with it the records of its children, which were its slots. -/
structure Extracts (be be' : Backend) (x : BnodeRef) (n : Bnode) : Prop where
  node : be.node x = some n
  isExpr : n.isExpr
  value : n.value = none
  insts : n.instructions = []
  slots : n.kids.length < 2 ^ 32
  exprKids : ∀ k ∈ n.kids, be.exprAt k
  recorded : ∀ i k, n.kids[i]? = some k → ∃ tracked,
    be.shouldBeTracked be.integrityVisitor.control k = some tracked ∧
      (tracked = true → be.table k = some (x, i))
  deleted : be'.node = (be.delete x).node
  exprmap : be'.valueExprmap = be.valueExprmap
  sameInsts : be'.insts = be.insts
  control : be'.integrityVisitor.control = be.integrityVisitor.control
  table : ∀ z, be'.table z = be.table z ∨ be'.table z = none ∧ ∃ i, be.table z = some (x, i)
  allocates : Allocates be be'
  fits : be.ArchiveFits → be'.ArchiveFits

section Extract
variable {be be' : Backend} {x : BnodeRef} {n : Bnode} {kids : List BnodeRef}

theorem ArchiveFits.id_lt (h : be.ArchiveFits) (hn : be.node x = some n) (hexpr : n.isExpr) :
    n.id.toNat < be.earchive.length := by
  by_cases hlength : be.earchive.length ≤ 2 ^ 32
  · have hslot := (h hlength x n.id.toNat).mpr (exprId_of_node hn hexpr)
    exact (List.getElem?_eq_some_iff.mp hslot).1
  · exact n.id.toNat_lt.trans (Nat.lt_of_not_le hlength)

theorem freeExpr_archiveFits (hfits : be.ArchiveFits) (h : be.freeExpr x = some be') :
    be'.ArchiveFits := fun hlength => freeExpr_archived (hfits (freeExpr_fits h hlength)) h

theorem extract_some (h : be.extractChildenAndDestroy x = some (kids, be')) :
    ∃ n, kids = n.kids ∧ Extracts be be' x n := by
  obtain ⟨n, hn, h⟩ := Option.bind_eq_some_iff.mp h
  split_ifs at h with hpending
  obtain ⟨iv, hunset, h⟩ := Option.bind_eq_some_iff.mp h
  obtain ⟨nodes, hnodes, h⟩ := Option.bind_eq_some_iff.mp h
  split_ifs at h with hexprs
  obtain ⟨be₁, hfree, h⟩ := Option.bind_eq_some_iff.mp h
  obtain ⟨rfl, rfl⟩ := Prod.mk.inj (Option.some.inj h)
  obtain ⟨hcontrol, hrecorded, htable⟩ := unsetParents_table _ hunset
  have hisExpr : n.isExpr := by
    obtain ⟨m, hm, hfree⟩ := Option.bind_eq_some_iff.mp hfree
    obtain rfl := Option.some.inj (hn.symm.trans hm)
    exact (Option.ite_none_right_eq_some.mp hfree).1.1
  have hfields : be₁.valueExprmap = be.valueExprmap ∧ be₁.insts = be.insts ∧
      be₁.integrityVisitor = iv := by
    obtain ⟨m, -, hfree⟩ := Option.bind_eq_some_iff.mp hfree
    split_ifs at hfree
    obtain rfl := Option.some.inj hfree
    exact ⟨rfl, rfl, rfl⟩
  obtain ⟨hexprmap, hinsts, hvisitor⟩ := hfields
  refine ⟨n, rfl, hn, hisExpr, hpending.1, hpending.2.1, hpending.2.2, fun k hk => ?_,
    fun i k hk => ?_, (freeExpr_some hfree).2, hexprmap, hinsts, hvisitor ▸ hcontrol, fun z => ?_,
    ?_, fun hfits => ?_⟩
  · obtain ⟨m, hm, hexpr⟩ := (mapM_some_forall be.node (Bnode.isExpr ·) n.kids).mp
      ⟨nodes, hnodes, List.all_eq_true.mp hexprs⟩ k hk
    rw [exprAt, hm]
    exact hexpr
  · exact hrecorded (k, i) (List.mk_mem_zipIdx_iff_getElem?.mpr hk)
  · rw [Backend.table, hvisitor]
    exact htable z
  · have hallocates := freeExpr_allocates hfree
    exact ⟨hallocates.malloc, hallocates.allocated, hallocates.live⟩
  · have hsame : { be with integrityVisitor := iv }.ArchiveFits := hfits
    exact freeExpr_archiveFits hsame hfree

end Extract

/-! ## On the way -/

/-- A node is resolved in the context of its type. -/
def contextOf (bt : Btype) : Varexpr_context :=
  if bt.type.isAggregateType then VE_lvalue else VE_rvalue

/-- Nodes are made, and destroyed, and contexts of others are used up. -/
structure Evolves (types : BnodeRef → Btype) (be be' : Backend) : Prop where
  allocates : Allocates be be'
  insts : be.insts.length ≤ be'.insts.length
  exprmap : be'.valueExprmap = be.valueExprmap
  control : be'.integrityVisitor.control = be.integrityVisitor.control
  fits : be.ArchiveFits → be'.ArchiveFits
  nodes : ∀ z n n', be.node z = some n → be'.node z = some n' → n' = n ∨
    handsOutAddress n.varContext (contextOf (types z)) ∧
      n' = { n with varContext := n.varContext.reset }

/-- While composites are taken apart, a record is gone, or the slot of a new node, or what it was,
and stays what it was as long as the node is there. -/
structure Expands (types : BnodeRef → Btype) (be be' : Backend) : Prop
    extends Evolves types be be' where
  table : ∀ z, be'.table z = be.table z ∨ be'.table z = none ∨
    ∃ k i, be.allocated ≤ k ∧ be'.table z = some (be.malloc k, i)
  kept : ∀ z y i, (be.node z).isSome → (be.node y).isSome → (be'.node y).isSome →
    be.table z = some (y, i) → be'.table z = some (y, i)

/-- A node whose record, if there was one, was that of a node that has been destroyed. -/
def Detached (be be' : Backend) (z : BnodeRef) : Prop :=
  (be.node z).isSome → be.Graph z ∧
    (be.shouldBeTracked be.integrityVisitor.control z = some true →
      ∃ y i, be.table z = some (y, i) ∧ (be.node y).isSome ∧ be'.node y = none)

section Expands
variable {types : BnodeRef → Btype} {be be₁ be₂ : Backend} {x y z w : BnodeRef} {n n' : Bnode}

theorem Evolves.sameNode (h : Evolves types be be₁) (hn : be.node z = some n)
    (hn' : be₁.node z = some n') : SameNode n n' ∧ n'.kids = n.kids := by
  rcases h.nodes z n n' hn hn' with rfl | ⟨-, rfl⟩
  · exact ⟨⟨rfl, rfl, rfl, rfl, rfl⟩, rfl⟩
  · exact ⟨⟨rfl, rfl, rfl, rfl, rfl⟩, rfl⟩

/-- Whether a node is tracked does not change while there is an answer. -/
theorem Evolves.tracked (h : Evolves types be be₁) (hg : be.Graph z) {ctl : TreeIntegCtl}
    {tracked : Bool} (ht : be₁.shouldBeTracked ctl z = some tracked) :
    be.shouldBeTracked ctl z = some tracked := by
  obtain ⟨n, hn⟩ := Option.isSome_iff_exists.mp (hg.live z .refl)
  obtain ⟨n', hn', ht⟩ := Option.bind_eq_some_iff.mp ht
  obtain ⟨hsame, hkids⟩ := h.sameNode hn hn'
  have hscope : be₁.moduleScopeValue n'.value n'.btype = be.moduleScopeValue n.value n.btype := by
    unfold moduleScopeValue
    rw [h.exprmap, hsame.value, hsame.btype]
  have hvar : ∀ b, be₁.varExprOrConvVar n' = some b → be.varExprOrConvVar n = some b := by
    intro b hb
    unfold varExprOrConvVar at hb ⊢
    rw [hsame.flavor, hkids] at hb
    split at hb
    · exact hb
    · obtain ⟨d, hd, hb⟩ := Option.bind_eq_some_iff.mp hb
      obtain ⟨k', hk', hb⟩ := Option.bind_eq_some_iff.mp hb
      obtain ⟨k, hk⟩ := Option.isSome_iff_exists.mp
        (hg.live d (.single ⟨n, hn, List.mem_of_getElem? hd⟩))
      rw [(h.sameNode hk hk').1.flavor] at hb
      simp only [hd, hk, Option.bind_eq_bind, Option.bind_some]
      exact hb
    · exact hb
  rw [shouldBeTracked, hn, Option.bind_eq_bind, Option.bind_some]
  rw [hscope, Bnode.isExpr, hsame.flavor] at ht
  change (if (Bnode.isExpr n && _) = true then _ else _ : Option Bool) = _ at ht
  split_ifs at ht ⊢
  · exact ht
  · obtain ⟨b, hb, rfl⟩ := Option.map_eq_some_iff.mp ht
    rw [hvar b hb]
    rfl
  · exact ht

theorem Expands.refl (types : BnodeRef → Btype) (be : Backend) : Expands types be be where
  allocates := .refl be
  insts := Nat.le_refl _
  exprmap := rfl
  control := rfl
  fits := id
  nodes _ _ _ hn hn' := .inl (Option.some.inj (hn'.symm.trans hn))
  table _ := .inl rfl
  kept _ _ _ _ _ _ := id

theorem Expands.emit (h : Expands types be be₁) (is : List Instruction) :
    Expands types be (be₁.emit is).2 where
  allocates := ⟨h.allocates.malloc, h.allocates.allocated, h.allocates.live⟩
  insts := h.insts.trans (emit_unchanged be₁ is []).insts
  exprmap := h.exprmap
  control := h.control
  fits hfits := h.fits hfits
  nodes := h.nodes
  table := h.table
  kept := h.kept

/-- What is live after an allocation and was not before is new. -/
theorem Allocates.new (h : Allocates be be₁) (h' : Allocates be₁ be₂) (hdead : be₁.node w = none)
    (hlive : (be₂.node w).isSome) : ∃ k, be.allocated ≤ k ∧ w = be.malloc k := by
  rcases h'.live w hlive with hlive | ⟨k, hk, -, hw⟩
  · rw [hdead] at hlive
    cases hlive
  · exact ⟨k, h.allocated.trans hk, by rw [← hw, h.malloc]⟩

theorem make_archiveFits {m : Making} (hfits : be₁.ArchiveFits)
    (hmake : be₁.make m = some (w, be₂)) : be₂.ArchiveFits := by
  obtain ⟨n, y, be₀, halloc, harchive⟩ := make_archive hmake
  intro hlength
  have hpushes := (archive_pushes halloc harchive).1
  exact archive_archived (hfits (hpushes.length_le.trans hlength)) halloc harchive hlength

/-- A new node over nodes whose parents have been destroyed. -/
theorem Expands.make (hfresh : be.Fresh) (h : Expands types be be₁) {m : Making}
    (hmake : be₁.make m = some (w, be₂))
    (hkids : ∀ n, be₁.construct m = some n → ∀ k ∈ n.kids, Detached be be₁ k) :
    Expands types be be₂ ∧ be.node w = none := by
  obtain ⟨n, id, hn, hdead, hnode, hother, -⟩ := make_node hmake
  obtain ⟨n', hn', hcontrol, htable⟩ := make_table hmake
  obtain rfl := Option.some.inj (hn.symm.trans hn')
  obtain ⟨hexprmap, hinsts⟩ := make_same hmake
  have hallocates := make_allocates hmake
  obtain ⟨k, hk, rfl⟩ := h.allocates.new hallocates hdead (by rw [hnode]; rfl)
  have hnew := (hfresh k hk).1
  have hold : ∀ z, (be.node z).isSome → be₂.node z = be₁.node z := by
    intro z hz
    refine hother z fun hzw => ?_
    rw [hzw, hnew] at hz
    cases hz
  have hevolves : Evolves types be be₂ := by
    refine ⟨h.allocates.trans hallocates, h.insts.trans_eq (congrArg _ hinsts.symm),
      hexprmap.trans h.exprmap, hcontrol.trans h.control,
      fun hfits => make_archiveFits (h.fits hfits) hmake, fun z m m' hm hm' => ?_⟩
    rw [hold z (by rw [hm]; rfl)] at hm'
    exact h.nodes z m m' hm hm'
  refine ⟨⟨hevolves, fun z => ?_, fun z y i hz hy hy' hentry => ?_⟩, hnew⟩
  · rcases htable z with hz | ⟨-, -, i, hi⟩
    · rw [hz]
      exact h.table z
    · exact .inr (.inr ⟨k, i, hk, hi⟩)
  · rw [hold y hy] at hy'
    have hentry' := h.kept z y i hz hy hy' hentry
    rcases htable z with hz' | ⟨hmem, htracked, -⟩
    · exact hz'.trans hentry'
    · -- the record of a child of the new node has been taken back
      obtain ⟨hg, hgone⟩ := hkids n hn z hmem hz
      obtain ⟨y', i', hrecord, -, hdead'⟩ := hgone (hevolves.tracked hg (h.control ▸ htracked))
      obtain ⟨rfl, -⟩ := Prod.mk.inj (Option.some.inj (hentry.symm.trans hrecord))
      rw [hdead'] at hy'
      cases hy'

theorem live_update {f : Bnode → Bnode} (x y : BnodeRef) :
    ((be₁.update x f).node y).isSome = (be₁.node y).isSome := by
  by_cases hy : y = x
  · rw [hy, node_update_self, Option.isSome_map]
  · rw [node_update_ne _ hy]

/-- A change of a node that leaves its id. -/
theorem Expands.update (h : Expands types be be₁) {f : Bnode → Bnode}
    (hf : ∀ n, (f n).isExpr = n.isExpr ∧ (n.isExpr → (f n).id = n.id))
    (hx : ∀ n k, be.node x = some n → be₁.node x = some k → f k = n ∨
      handsOutAddress n.varContext (contextOf (types x)) ∧
        f k = { n with varContext := n.varContext.reset }) :
    Expands types be (be₁.update x f) where
  allocates := h.allocates.trans (update_allocates be₁ x f)
  insts := h.insts
  exprmap := h.exprmap
  control := h.control
  fits hfits hlength := (update_sameExprs hf).archived (h.fits hfits hlength)
  nodes z n n' hn hn' := by
    by_cases hz : z = x
    · subst hz
      rw [node_update_self] at hn'
      obtain ⟨k, hk, rfl⟩ := Option.map_eq_some_iff.mp hn'
      exact hx n k hn hk
    · rw [node_update_ne _ hz] at hn'
      exact h.nodes z n n' hn hn'
  table := h.table
  kept z y i hz hy hy' := h.kept z y i hz hy (live_update x y ▸ hy')

theorem Expands.reset (h : Expands types be be₁) (hn : be₁.node x = some n)
    (hout : handsOutAddress n.varContext (contextOf (types x))) :
    Expands types be (be₁.update x fun k => { k with varContext := k.varContext.reset }) := by
  refine h.update (fun _ => ⟨rfl, fun _ => rfl⟩) fun m k hm hk => .inr ?_
  obtain rfl := Option.some.inj (hn.symm.trans hk)
  rcases h.nodes x m n hm hn with rfl | ⟨hout', rfl⟩
  · exact ⟨hout, rfl⟩
  · exact ⟨hout', rfl⟩

/-- Taking a composite apart takes back the records of its children alone. -/
theorem Expands.extract (h : Expands types be be₁) (hextract : Extracts be₁ be₂ x n) :
    Expands types be be₂ where
  allocates := h.allocates.trans hextract.allocates
  insts := h.insts.trans_eq (congrArg _ hextract.sameInsts.symm)
  exprmap := hextract.exprmap.trans h.exprmap
  control := hextract.control.trans h.control
  fits hfits := hextract.fits (h.fits hfits)
  nodes z m m' hm hm' := by
    rw [hextract.deleted] at hm'
    by_cases hz : z = x
    · rw [hz, node_delete_self] at hm'
      cases hm'
    · rw [node_delete_ne _ hz] at hm'
      exact h.nodes z m m' hm hm'
  table z := by
    rcases hextract.table z with hz | ⟨hz, -⟩
    · rw [hz]
      exact h.table z
    · exact .inr (.inl hz)
  kept z y i hz hy hy' hentry := by
    rw [hextract.deleted] at hy'
    by_cases hyx : y = x
    · rw [hyx, node_delete_self] at hy'
      cases hy'
    · rw [node_delete_ne _ hyx] at hy'
      have hentry' := h.kept z y i hz hy hy' hentry
      rcases hextract.table z with hz' | ⟨-, j, hj⟩
      · exact hz'.trans hentry'
      · exact absurd (Prod.mk.inj (Option.some.inj (hentry'.symm.trans hj))).1 hyx

/-- What is dead stays dead. -/
theorem Evolves.dead (hfresh : be.Fresh) (h : Evolves types be be₁) (h' : Allocates be₁ be₂)
    (hy : (be.node y).isSome) (hdead : be₁.node y = none) : be₂.node y = none := by
  by_contra hlive
  obtain ⟨k, hk, rfl⟩ := h.allocates.new h' hdead (Option.isSome_iff_ne_none.mpr hlive)
  rw [(hfresh k hk).1] at hy
  cases hy

theorem Detached.mono (hd : Detached be be₁ z) (hfresh : be.Fresh) (h : Evolves types be be₁)
    (h' : Allocates be₁ be₂) : Detached be be₂ z := by
  intro hz
  obtain ⟨hg, hgone⟩ := hd hz
  refine ⟨hg, fun htracked => ?_⟩
  obtain ⟨y, i, hentry, hy, hdead⟩ := hgone htracked
  exact ⟨y, i, hentry, hy, h.dead hfresh h' hy hdead⟩

theorem detached_of_new (hz : be.node z = none) : Detached be be₁ z := fun hlive => by
  rw [hz] at hlive
  cases hlive

end Expands

end Backend
end Dragongo
