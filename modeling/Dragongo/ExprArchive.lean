import Dragongo.CloneSubtree
import Dragongo.Library.Slots

/-!
# The archive of expressions

The id of an expression is its index in the archive of the builder, whatever has been made,
cloned and freed, so that the destructor of the builder deletes each expression once, as long as
the indexes of the archive fit the 32 bits of an id.
-/

namespace Dragongo
namespace Backend

/-- The id of a live expression. -/
def exprId (be : Backend) (x : BnodeRef) : Option ℕ :=
  (be.node x).bind fun n => if n.isExpr then some n.id.toNat else none

/-- Live expressions are in the slots of their ids, and nothing is in any other slot. -/
def Archived (be : Backend) : Prop := Slots.Matches be.earchive be.exprId

/-- The expressions that the destructor deletes; none may be deleted twice. -/
def deleteExprs (be : Backend) (slots : List (Option BnodeRef)) : Option Backend :=
  slots.foldlM (fun be slot =>
    match slot with
    | none => some be
    | some x => if (be.node x).isSome then some (be.delete x) else none) be

section Same

variable {be be' be'' : Backend} {x : BnodeRef} {n : Bnode}

/-- The live expressions, their ids and the archive are as before. -/
structure SameExprs (be be' : Backend) : Prop where
  earchive : be'.earchive = be.earchive
  exprId : be'.exprId = be.exprId

theorem SameExprs.archived (h : SameExprs be be') (ha : be.Archived) : be'.Archived := by
  rw [Archived, h.earchive, h.exprId]
  exact ha

theorem SameExprs.trans (h : SameExprs be be') (h' : SameExprs be' be'') : SameExprs be be'' :=
  ⟨h'.earchive.trans h.earchive, h'.exprId.trans h.exprId⟩

theorem sameExprs_of_node (harchive : be'.earchive = be.earchive) (hnode : be'.node = be.node) :
    SameExprs be be' :=
  ⟨harchive, funext fun y => by rw [exprId, exprId, hnode]⟩

/-- A change that is not to the id, or to a statement. -/
theorem update_sameExprs {f : Bnode → Bnode}
    (hf : ∀ n, (f n).isExpr = n.isExpr ∧ (n.isExpr → (f n).id = n.id)) :
    SameExprs be (be.update x f) := by
  refine ⟨rfl, funext fun y => ?_⟩
  by_cases hy : y = x
  · subst hy
    rw [exprId, exprId, node_update_self]
    cases be.node y with
    | none => rfl
    | some n =>
      rw [Option.map_some, Option.bind_some, Option.bind_some, (hf n).1]
      split_ifs with hexpr
      · rw [(hf n).2 hexpr]
      · rfl
  · rw [exprId, exprId, node_update_ne be hy]

theorem checkTreeInteg_sameExprs (h : be.checkTreeInteg x = some be') : SameExprs be be' := by
  obtain ⟨n, -, h⟩ := Option.bind_eq_some_iff.mp h
  obtain ⟨iv, -, h⟩ := Option.bind_eq_some_iff.mp h
  obtain rfl := Option.some.inj h
  exact sameExprs_of_node rfl rfl

end Same

/-! ## New expressions -/

section New

variable {be be₁ be' : Backend} {x : BnodeRef} {n : Bnode}

theorem alloc_eq (h : be.alloc n = some (x, be₁)) : be.node x = none ∧
    be₁.earchive = be.earchive ∧ be₁.node = Function.update be.node x (some n) := by
  unfold alloc at h
  split_ifs at h with hlive
  obtain ⟨rfl, rfl⟩ := Prod.mk.inj (Option.some.inj h)
  refine ⟨by simpa using hlive, rfl, funext fun y => ?_⟩
  rw [Function.update_apply]

/-- The archive only gets more expressions. -/
def Pushes (be be' : Backend) : Prop :=
  ∃ xs : List BnodeRef, be'.earchive = be.earchive ++ xs.map some

theorem pushes_of_eq (h : be'.earchive = be.earchive) : Pushes be be' :=
  ⟨[], by rw [h, List.map_nil, List.append_nil]⟩

theorem Pushes.trans (h : Pushes be be₁) (h' : Pushes be₁ be') : Pushes be be' := by
  obtain ⟨xs, hxs⟩ := h
  obtain ⟨ys, hys⟩ := h'
  exact ⟨xs ++ ys, by rw [hys, hxs, List.map_append, List.append_assoc]⟩

theorem Pushes.length_le (h : Pushes be be') : be.earchive.length ≤ be'.earchive.length := by
  obtain ⟨xs, hxs⟩ := h
  rw [hxs, List.length_append]
  exact Nat.le_add_right ..

theorem SameExprs.pushes (h : SameExprs be be') : Pushes be be' := pushes_of_eq h.earchive

theorem archive_pushes (halloc : be.alloc n = some (x, be₁)) (h : be₁.archive x = some be') :
    Pushes be be' ∧ (n.isExpr → be.earchive.length < be'.earchive.length) := by
  obtain ⟨-, hearchive, hnode⟩ := alloc_eq halloc
  rw [archive, hnode, Function.update_self, Option.bind_eq_bind, Option.bind_some] at h
  rw [Pushes, (checkTreeInteg_sameExprs h).earchive]
  unfold archived
  split_ifs with hexpr
  · refine ⟨⟨[x], congrArg (· ++ [some x]) hearchive⟩, fun _ => ?_⟩
    change be.earchive.length < (be₁.earchive ++ [some x]).length
    rw [hearchive, List.length_append, List.length_singleton]
    exact Nat.lt_succ_self _
  · exact ⟨⟨[], hearchive.trans (List.append_nil _).symm⟩, fun h => (hexpr h).elim⟩

/-- A new expression gets the slot at the end, if the id has room for it; a new statement gets
none. -/
theorem archive_archived (ha : be.Archived) (halloc : be.alloc n = some (x, be₁))
    (h : be₁.archive x = some be') (hfits : be'.earchive.length ≤ 2 ^ 32) : be'.Archived := by
  have hlength := (archive_pushes halloc h).2
  obtain ⟨hdead, hearchive, hnode⟩ := alloc_eq halloc
  have hx : be₁.node x = some n := by rw [hnode, Function.update_self]
  rw [archive, hx, Option.bind_eq_bind, Option.bind_some] at h
  refine (checkTreeInteg_sameExprs h).archived ?_
  have hid : be.exprId x = none := by rw [exprId, hdead, Option.bind_none]
  have hother (y : BnodeRef) (hy : y ≠ x) : be₁.node y = be.node y := by
    rw [hnode, Function.update_of_ne hy]
  unfold archived
  by_cases hexpr : n.isExpr
  · rw [if_pos hexpr]
    have hids : (be₁.update x fun n => { n with id := .ofNat be₁.earchive.length }).exprId =
        Function.update be.exprId x (some be.earchive.length) := by
      have hfit : (UInt32.ofNat be.earchive.length).toNat = be.earchive.length :=
        Nat.mod_eq_of_lt ((hlength hexpr).trans_le hfits)
      funext y
      by_cases hy : y = x
      · subst hy
        rw [Function.update_self, exprId, node_update_self, hx, hearchive]
        exact (if_pos hexpr).trans (congrArg some hfit)
      · rw [Function.update_of_ne hy, exprId, exprId, node_update_ne _ hy, hother y hy]
    have hpush := ha.push hid
    rw [← hids, ← hearchive] at hpush
    exact hpush
  · rw [if_neg hexpr]
    have hids : (be₁.update x fun n => { n with id := .ofNat be₁.sarchive.length }).exprId =
        be.exprId := by
      funext y
      by_cases hy : y = x
      · subst hy
        rw [hid, exprId, node_update_self, hx]
        exact if_neg hexpr
      · rw [exprId, exprId, node_update_ne _ hy, hother y hy]
    have hsame : Slots.Matches be₁.earchive
        (be₁.update x fun n => { n with id := .ofNat be₁.sarchive.length }).exprId := by
      rw [hids, hearchive]
      exact ha
    exact hsame

theorem make_archive {m : Making} (h : be.make m = some (x, be')) :
    ∃ n y be₁, be.alloc n = some (y, be₁) ∧ be₁.archive y = some be' := by
  obtain ⟨n, -, h⟩ := Option.bind_eq_some_iff.mp h
  obtain ⟨-, -, h⟩ := Option.bind_eq_some_iff.mp h
  obtain ⟨⟨x', be₁⟩, halloc, h⟩ := Option.bind_eq_some_iff.mp h
  obtain ⟨be₂, harchive, h⟩ := Option.bind_eq_some_iff.mp h
  obtain ⟨-, rfl⟩ := Prod.mk.inj (Option.some.inj h)
  exact ⟨n, x', be₁, halloc, harchive⟩

theorem newBlock_archived (ha : be.Archived) (h : be.newBlock = some (x, be')) : be'.Archived := by
  obtain ⟨hdead, hearchive, hnode⟩ := alloc_eq h
  refine SameExprs.archived ⟨hearchive, funext fun y => ?_⟩ ha
  rw [exprId, exprId, hnode]
  by_cases hy : y = x
  · subst hy
    rw [Function.update_self, hdead]
    rfl
  · rw [Function.update_of_ne hy]

/-! ## Freed expressions -/

theorem freeExpr_archived (ha : be.Archived) (h : be.freeExpr x = some be') : be'.Archived := by
  obtain ⟨n, hn, h⟩ := Option.bind_eq_some_iff.mp h
  split_ifs at h with hexpr
  obtain rfl := Option.some.inj h
  have hid : be.exprId x = some n.id.toNat := by
    rw [exprId, hn, Option.bind_some, if_pos hexpr.1]
  have hids : (be.delete x).exprId = Function.update be.exprId x none := by
    funext y
    by_cases hy : y = x
    · subst hy
      rw [Function.update_self, exprId, node_delete_self, Option.bind_none]
    · rw [Function.update_of_ne hy, exprId, exprId, node_delete_ne _ hy]
  have hfree := ha.free hid
  rw [← hids] at hfree
  exact hfree

theorem makeGlobalExpression_archived (ha : be.Archived) {val : NodeValue} {btype : ℕ}
    {r : BnodeRef} (h : be.makeGlobalExpression x val btype = some (r, be')) : be'.Archived := by
  cases val with
  | instruction inst => cases h
  | other v =>
    rw [makeGlobalExpression] at h
    split at h
    · obtain ⟨be₁, hfree, h⟩ := Option.map_eq_some_iff.mp h
      obtain ⟨-, rfl⟩ := Prod.mk.inj h
      exact freeExpr_archived ha hfree
    · obtain ⟨-, rfl⟩ := Prod.mk.inj (Option.some.inj h)
      exact (sameExprs_of_node rfl rfl : SameExprs be _).archived ha

theorem extractChildenAndDestroy_archived (ha : be.Archived) {kids : List BnodeRef}
    (h : be.extractChildenAndDestroy x = some (kids, be')) : be'.Archived := by
  obtain ⟨n, -, h⟩ := Option.bind_eq_some_iff.mp h
  split_ifs at h
  obtain ⟨iv, -, h⟩ := Option.bind_eq_some_iff.mp h
  obtain ⟨nodes, -, h⟩ := Option.bind_eq_some_iff.mp h
  split_ifs at h
  obtain ⟨be₁, hfree, h⟩ := Option.bind_eq_some_iff.mp h
  obtain ⟨-, rfl⟩ := Prod.mk.inj (Option.some.inj h)
  have hsame : { be with integrityVisitor := iv }.Archived := ha
  exact freeExpr_archived hsame hfree

/-! ## Clones -/

theorem cloneInstructions_sameExprs {vm : NodeValue → Option NodeValue} {insts icls : List InstRef}
    (h : be.cloneInstructions vm insts = some (icls, be')) : SameExprs be be' := by
  induction insts generalizing be icls with
  | nil =>
    obtain ⟨-, rfl⟩ := Prod.mk.inj (Option.some.inj h)
    exact ⟨rfl, rfl⟩
  | cons inst insts ih =>
    obtain ⟨i, -, h⟩ := Option.bind_eq_some_iff.mp h
    obtain ⟨⟨icls', be₁⟩, hrest, h⟩ := Option.bind_eq_some_iff.mp h
    obtain ⟨-, rfl⟩ := Prod.mk.inj (Option.some.inj h)
    have hsame := ih hrest
    exact ⟨hsame.earchive, hsame.exprId⟩

theorem setNewv_sameExprs (h : be.setNewv x n = some be') : SameExprs be be' := by
  unfold setNewv at h
  split at h
  · obtain rfl := Option.some.inj h
    exact ⟨rfl, rfl⟩
  · obtain rfl := Option.some.inj h
    exact update_sameExprs fun _ => ⟨rfl, fun _ => rfl⟩
  · cases h

/-- The node of a clone gets its children and instructions when it is archived. -/
theorem cloneNode_archive {vm : NodeValue → Option NodeValue} {newChildren : List BnodeRef}
    {res : BnodeRef}
    (h : (do
      let (res, be) ← be.alloc (.expr n.flavor [] n.value n.btype [])
      let be ← be.archive res
      let be := be.update res fun r => { r with kids := newChildren }
      let (icls, be) ← be.cloneInstructions vm n.instructions
      let be := be.update res fun r => { r with instructions := icls }
      let be ← be.setNewv res n
      some (res, be)) = some (res, be')) : ∃ m be₁ be₂, be.alloc m = some (res, be₁) ∧
    be₁.archive res = some be₂ ∧ SameExprs be₂ be' := by
  obtain ⟨⟨res', be₁⟩, halloc, h⟩ := Option.bind_eq_some_iff.mp h
  obtain ⟨be₂, harchive, h⟩ := Option.bind_eq_some_iff.mp h
  obtain ⟨⟨icls, be₃⟩, hinsts, h⟩ := Option.bind_eq_some_iff.mp h
  obtain ⟨be₄, hnewv, h⟩ := Option.bind_eq_some_iff.mp h
  obtain ⟨rfl, rfl⟩ := Prod.mk.inj (Option.some.inj h)
  have hkids : SameExprs be₂ (be₂.update res' fun r => { r with kids := newChildren }) :=
    update_sameExprs fun _ => ⟨rfl, fun _ => rfl⟩
  have hcopied : SameExprs be₃ (be₃.update res' fun r => { r with instructions := icls }) :=
    update_sameExprs fun _ => ⟨rfl, fun _ => rfl⟩
  exact ⟨_, be₁, be₂, halloc, harchive, (hkids.trans (cloneInstructions_sameExprs hinsts)).trans
    (hcopied.trans (setNewv_sameExprs hnewv))⟩

/-- The children are cloned one after the other. -/
theorem foldlM_pushes {step : List BnodeRef × Backend → BnodeRef → Option (List BnodeRef × Backend)}
    (hstep : ∀ s c s', step s c = some s' →
      Pushes s.2 s'.2 ∧ (s.2.Archived → s'.2.earchive.length ≤ 2 ^ 32 → s'.2.Archived))
    {l : List BnodeRef} {s s' : List BnodeRef × Backend} (h : l.foldlM step s = some s') :
    Pushes s.2 s'.2 ∧ (s.2.Archived → s'.2.earchive.length ≤ 2 ^ 32 → s'.2.Archived) := by
  induction l generalizing s with
  | nil =>
    obtain rfl := Option.some.inj h
    exact ⟨pushes_of_eq rfl, fun ha _ => ha⟩
  | cons c l ih =>
    rw [List.foldlM_cons] at h
    obtain ⟨s₁, hfirst, h⟩ := Option.bind_eq_some_iff.mp h
    obtain ⟨hpushes, harchived⟩ := hstep s c s₁ hfirst
    obtain ⟨hpushes', harchived'⟩ := ih h
    exact ⟨hpushes.trans hpushes', fun ha hfits =>
      harchived' (harchived ha (hpushes'.length_le.trans hfits)) hfits⟩

/-- A clone is archived after those of its children, at an index of its own. -/
theorem cloneSub_pushes {vm : NodeValue → Option NodeValue} {fuel : ℕ} {res : BnodeRef}
    (h : be.cloneSub vm fuel x = some (res, be')) :
    Pushes be be' ∧ (be.Archived → be'.earchive.length ≤ 2 ^ 32 → be'.Archived) := by
  induction fuel generalizing be be' vm x res with
  | zero => cases h
  | succ fuel ih =>
    obtain ⟨n, -, h⟩ := Option.bind_eq_some_iff.mp h
    split_ifs at h with hexpr
    obtain ⟨⟨newChildren, be₁⟩, hchildren, h⟩ := Option.bind_eq_some_iff.mp h
    obtain ⟨m, be₂, be₃, halloc, harchive, hsame⟩ := cloneNode_archive h
    have hlast : Pushes be₁ be' := (archive_pushes halloc harchive).1.trans hsame.pushes
    obtain ⟨hpushes, harchived⟩ := foldlM_pushes (fun s c s' hstep => by
      obtain ⟨⟨clc, be₀⟩, hclone, hstep⟩ := Option.bind_eq_some_iff.mp hstep
      obtain rfl := Option.some.inj hstep
      exact ih hclone) hchildren
    refine ⟨hpushes.trans hlast, fun ha hfits => hsame.archived ?_⟩
    rw [hsame.earchive] at hfits
    have hfits₁ := (archive_pushes halloc harchive).1.length_le.trans hfits
    exact archive_archived (harchived ha hfits₁) halloc harchive hfits

theorem repair_pushes {visited : List BnodeRef} {sharing : List Place} {res : Bool}
    (h : be.repair visited sharing = some (res, be')) :
    Pushes be be' ∧ (be.Archived → be'.earchive.length ≤ 2 ^ 32 → be'.Archived) := by
  induction sharing generalizing be visited with
  | nil =>
    obtain ⟨-, rfl⟩ := Prod.mk.inj (Option.some.inj h)
    exact ⟨pushes_of_eq rfl, fun ha _ => ha⟩
  | cons place sharing ih =>
    obtain ⟨child, parent, slot⟩ := place
    obtain ⟨n, -, h⟩ := Option.bind_eq_some_iff.mp h
    split_ifs at h
    obtain ⟨ok, -, h⟩ := Option.bind_eq_some_iff.mp h
    cases ok with
    | false =>
      obtain ⟨-, rfl⟩ := Prod.mk.inj (Option.some.inj h)
      exact ⟨pushes_of_eq rfl, fun ha _ => ha⟩
    | true =>
      obtain ⟨⟨childClone, be₁⟩, hclone, h⟩ := Option.bind_eq_some_iff.mp h
      obtain ⟨be₂, hreplace, h⟩ := Option.bind_eq_some_iff.mp h
      obtain ⟨-, -, -, rfl⟩ := replaceChild_some hreplace
      have hreplaced : SameExprs be₁
          (be₁.update parent fun n => { n with kids := n.kids.set slot childClone }) :=
        update_sameExprs fun _ => ⟨rfl, fun _ => rfl⟩
      obtain ⟨hpushes, harchived⟩ := cloneSub_pushes hclone
      obtain ⟨hpushes', harchived'⟩ := ih h
      have hrest := hreplaced.pushes.trans hpushes'
      exact ⟨hpushes.trans hrest, fun ha hfits =>
        harchived' (hreplaced.archived (harchived ha (hrest.length_le.trans hfits))) hfits⟩

theorem enforceTreeIntegrity_pushes (h : be.enforceTreeIntegrity x = some be') :
    Pushes be be' ∧ (be.Archived → be'.earchive.length ≤ 2 ^ 32 → be'.Archived) := by
  obtain ⟨⟨res, be₁⟩, hexamine, h⟩ := Option.bind_eq_some_iff.mp h
  obtain ⟨-, h⟩ := Option.ite_none_right_eq_some.mp h
  obtain rfl := Option.some.inj h
  obtain ⟨iv, -, hexamine⟩ := Option.bind_eq_some_iff.mp hexamine
  split_ifs at hexamine
  case neg => exact repair_pushes hexamine
  all_goals
    obtain ⟨-, rfl⟩ := Prod.mk.inj (Option.some.inj hexamine)
    exact ⟨pushes_of_eq rfl, fun ha _ => ha⟩

end New

/-! ## Runs -/

section Run

variable {be be' : Backend} {ops : List NodeOp}

/-- Slots that no id reaches are not emptied. -/
def Full (be : Backend) : Prop :=
  ∀ i, 2 ^ 32 ≤ i → i < be.earchive.length → ∃ x, be.earchive[i]? = some (some x)

theorem Pushes.full (h : Pushes be be') (hfull : be.Full) : be'.Full := by
  obtain ⟨xs, hxs⟩ := h
  intro i hi hlt
  rw [hxs] at hlt ⊢
  by_cases hold : i < be.earchive.length
  · rw [List.getElem?_append_left hold]
    exact hfull i hi hold
  · rw [List.getElem?_append_right (Nat.not_lt.mp hold), List.getElem?_map]
    rw [List.length_append, List.length_map] at hlt
    have hx : i - be.earchive.length < xs.length := by omega
    exact ⟨xs[i - be.earchive.length], by rw [List.getElem?_eq_getElem hx]; rfl⟩

theorem freeExpr_full {x : BnodeRef} (h : be.freeExpr x = some be') (hfull : be.Full) :
    be'.Full := by
  obtain ⟨n, -, h⟩ := Option.bind_eq_some_iff.mp h
  split_ifs at h
  obtain rfl := Option.some.inj h
  have hid := n.id.toNat_lt
  have hearchive : ∀ earchive : List (Option BnodeRef),
      earchive = Slots.free be.earchive n.id.toNat → ∀ i, 2 ^ 32 ≤ i → i < earchive.length →
        ∃ x, earchive[i]? = some (some x) := by
    rintro - rfl i hi hlt
    have hlt' : i < be.earchive.length := by
      unfold Slots.free at hlt
      split_ifs at hlt
      · rw [List.length_dropLast, List.length_set] at hlt
        omega
      · rwa [List.length_set] at hlt
    obtain ⟨y, hy⟩ := hfull i hi hlt'
    refine ⟨y, (Slots.free_getElem? ..).mpr ?_⟩
    rw [List.getElem?_set_ne (by omega), hy]
  exact hearchive _ rfl

/-- An archive that is longer than the ids reach is not made shorter. -/
theorem freeExpr_fits {x : BnodeRef} (h : be.freeExpr x = some be')
    (hfits : be'.earchive.length ≤ 2 ^ 32) : be.earchive.length ≤ 2 ^ 32 := by
  obtain ⟨n, -, h⟩ := Option.bind_eq_some_iff.mp h
  split_ifs at h
  obtain rfl := Option.some.inj h
  have hid := n.id.toNat_lt
  change (Slots.free be.earchive n.id.toNat).length ≤ 2 ^ 32 at hfits
  unfold Slots.free at hfits
  split_ifs at hfits with hlast
  · rw [List.length_set] at hlast
    omega
  · rwa [List.length_set] at hfits

/-- The archive stays right as long as its indexes fit, and full beyond. -/
structure Keeps (be be' : Backend) : Prop where
  fits : be'.earchive.length ≤ 2 ^ 32 → be.earchive.length ≤ 2 ^ 32
  archived : be.Archived → be'.earchive.length ≤ 2 ^ 32 → be'.Archived
  full : be.Full → be'.Full

theorem SameExprs.keeps (h : SameExprs be be') : Keeps be be' :=
  ⟨h.pushes.length_le.trans, fun ha _ => h.archived ha, h.pushes.full⟩

theorem freeExpr_keeps {x : BnodeRef} (h : be.freeExpr x = some be') : Keeps be be' :=
  ⟨freeExpr_fits h, fun ha _ => freeExpr_archived ha h, freeExpr_full h⟩

theorem apply_keeps {op : NodeOp} (h : be.apply op = some be') : Keeps be be' := by
  have hset {x : BnodeRef} {f : Bnode → Bnode}
      (hf : ∀ n, (f n).isExpr = n.isExpr ∧ (n.isExpr → (f n).id = n.id)) :
      Keeps be (be.update x f) := (update_sameExprs hf).keeps
  cases op with
  | make m =>
    obtain ⟨⟨x, be₁⟩, hmake, rfl⟩ := Option.map_eq_some_iff.mp h
    obtain ⟨n, y, be₀, halloc, harchive⟩ := make_archive hmake
    have hpushes := (archive_pushes halloc harchive).1
    exact ⟨hpushes.length_le.trans, fun ha => archive_archived ha halloc harchive, hpushes.full⟩
  | newBlock =>
    obtain ⟨⟨x, be₁⟩, halloc, rfl⟩ := Option.map_eq_some_iff.mp h
    have hpushes := pushes_of_eq (alloc_eq halloc).2.1
    exact ⟨hpushes.length_le.trans, fun ha _ => newBlock_archived ha halloc, hpushes.full⟩
  | addStatementToBlock block st =>
    obtain ⟨n, -, h⟩ := Option.bind_eq_some_iff.mp h
    obtain ⟨-, -, h⟩ := Option.bind_eq_some_iff.mp h
    split_ifs at h
    obtain rfl := Option.some.inj h
    exact hset fun _ => ⟨rfl, fun _ => rfl⟩
  | appendInstruction x inst =>
    obtain ⟨n, -, h⟩ := Option.bind_eq_some_iff.mp h
    split_ifs at h
    obtain rfl := Option.some.inj h
    exact hset fun _ => ⟨rfl, fun _ => rfl⟩
  | setVarExprPending x lvalue addrLevel =>
    obtain ⟨n, -, h⟩ := Option.bind_eq_some_iff.mp h
    split_ifs at h
    obtain rfl := Option.some.inj h
    exact hset fun _ => ⟨rfl, fun _ => rfl⟩
  | enforceTreeIntegrity x =>
    obtain ⟨hpushes, harchived⟩ := enforceTreeIntegrity_pushes h
    exact ⟨hpushes.length_le.trans, harchived, hpushes.full⟩
  | freeExpr x => exact freeExpr_keeps h
  | makeGlobalExpression x val btype =>
    obtain ⟨⟨r, be₁⟩, hglobal, rfl⟩ := Option.map_eq_some_iff.mp h
    cases val with
    | instruction inst => cases hglobal
    | other v =>
      rw [makeGlobalExpression] at hglobal
      split at hglobal
      · obtain ⟨be₂, hfree, hglobal⟩ := Option.map_eq_some_iff.mp hglobal
        obtain ⟨-, rfl⟩ := Prod.mk.inj hglobal
        exact freeExpr_keeps hfree
      · obtain ⟨-, rfl⟩ := Prod.mk.inj (Option.some.inj hglobal)
        exact SameExprs.keeps ⟨rfl, rfl⟩
  | cloneSubtree x =>
    obtain ⟨⟨res, be₁⟩, hclone, rfl⟩ := Option.map_eq_some_iff.mp h
    obtain ⟨hpushes, harchived⟩ := cloneSub_pushes hclone
    exact ⟨hpushes.length_le.trans, harchived, hpushes.full⟩
  | extractChildenAndDestroy x =>
    obtain ⟨⟨kids, be₁⟩, hextract, rfl⟩ := Option.map_eq_some_iff.mp h
    obtain ⟨n, -, hextract⟩ := Option.bind_eq_some_iff.mp hextract
    split_ifs at hextract
    obtain ⟨iv, -, hextract⟩ := Option.bind_eq_some_iff.mp hextract
    obtain ⟨nodes, -, hextract⟩ := Option.bind_eq_some_iff.mp hextract
    split_ifs at hextract
    obtain ⟨be₂, hfree, hextract⟩ := Option.bind_eq_some_iff.mp hextract
    obtain ⟨-, rfl⟩ := Prod.mk.inj (Option.some.inj hextract)
    have hfree := freeExpr_keeps hfree
    exact ⟨hfree.fits, hfree.archived, hfree.full⟩

theorem run_full {malloc : ℕ → BnodeRef} {insts : List Instruction}
    (h : (new malloc insts).run ops = some be) : be.Full := by
  induction ops using List.reverseRecOn generalizing be with
  | nil =>
    obtain rfl := Option.some.inj h
    exact fun i _ hi => nomatch hi
  | append_singleton ops op ih =>
    obtain ⟨be₁, hrun, happly⟩ := run_concat_some h
    exact (apply_keeps happly).full (ih hrun)

/-- The archive is right as long as its indexes fit. -/
theorem run_archived {malloc : ℕ → BnodeRef} {insts : List Instruction}
    (h : (new malloc insts).run ops = some be) (hfits : be.earchive.length ≤ 2 ^ 32) :
    be.Archived := by
  induction ops using List.reverseRecOn generalizing be with
  | nil =>
    obtain rfl := Option.some.inj h
    exact Slots.matches_nil
  | append_singleton ops op ih =>
    obtain ⟨be₁, hrun, happly⟩ := run_concat_some h
    have hkeeps := apply_keeps happly
    exact hkeeps.archived (ih hrun (hkeeps.fits hfits)) hfits

/-- Beyond the ids no slot is that of an expression, so nothing may be there. -/
theorem Archived.length_le (ha : be.Archived) (hfull : be.Full) :
    be.earchive.length ≤ 2 ^ 32 := by
  by_contra hlong
  obtain ⟨x, hx⟩ := hfull (2 ^ 32) (Nat.le_refl _) (Nat.lt_of_not_le hlong)
  obtain ⟨n, -, hid⟩ := Option.bind_eq_some_iff.mp ((ha x (2 ^ 32)).mp hx)
  obtain ⟨-, hid⟩ := Option.ite_none_right_eq_some.mp hid
  exact n.id.toNat_lt.ne (Option.some.inj hid)

/-- Nodes that differ are all deleted. -/
theorem deleteExprs_some : ∀ {slots : List (Option BnodeRef)} (be : Backend),
    (slots.filterMap id).Nodup → (∀ x, some x ∈ slots → (be.node x).isSome) →
      ∃ be', be.deleteExprs slots = some be' ∧
        ∀ x, be'.node x = if some x ∈ slots then none else be.node x
  | [], be, _, _ => ⟨be, rfl, fun _ => rfl⟩
  | none :: slots, be, hnodup, hlive => by
    have hnodup' : (slots.filterMap id).Nodup := hnodup
    obtain ⟨be', hdelete, hnode⟩ := deleteExprs_some be hnodup' fun x hx =>
      hlive x (List.mem_cons_of_mem _ hx)
    refine ⟨be', hdelete, fun x => ?_⟩
    rw [hnode x]
    simp
  | some x :: slots, be, hnodup, hlive => by
    have hnodup' := List.nodup_cons.mp hnodup
    have hx : some x ∉ slots := fun hmem =>
      hnodup'.1 (List.mem_filterMap.mpr ⟨some x, hmem, rfl⟩)
    obtain ⟨be', hdelete, hnode⟩ := deleteExprs_some (be.delete x) hnodup'.2 fun y hy => by
      have hy' : y ≠ x := by
        rintro rfl
        exact hx hy
      rw [node_delete_ne be hy']
      exact hlive y (List.mem_cons_of_mem _ hy)
    refine ⟨be', ?_, fun y => ?_⟩
    · rw [deleteExprs, List.foldlM_cons]
      simp only [if_pos (hlive x List.mem_cons_self), Option.bind_eq_bind, Option.bind_some]
      exact hdelete
    · rw [hnode y]
      by_cases hy : y = x
      · subst hy
        rw [if_neg hx, node_delete_self, if_pos List.mem_cons_self]
      · rw [node_delete_ne be hy]
        simp [hy]

/-- Every live expression is archived at its id alone, nothing else is archived, and the destructor
deletes the live expressions, each of them once. -/
structure DeletesOnce (be : Backend) : Prop where
  archived : ∀ x n, be.node x = some n → n.isExpr →
    ∀ i : ℕ, be.earchive[i]? = some (some x) ↔ i = n.id.toNat
  live : ∀ (x : BnodeRef) (i : ℕ), be.earchive[i]? = some (some x) →
    ∃ n, be.node x = some n ∧ n.isExpr
  deleted : ∃ be', be.deleteExprs be.earchive = some be' ∧
    ∀ x, be'.node x = (be.node x).bind fun n => if n.isExpr then none else some n

theorem exprId_eq_some {x : BnodeRef} {i : ℕ} (hi : be.exprId x = some i) :
    ∃ n, be.node x = some n ∧ n.isExpr ∧ n.id.toNat = i := by
  obtain ⟨n, hn, hi⟩ := Option.bind_eq_some_iff.mp hi
  obtain ⟨hexpr, hi⟩ := Option.ite_none_right_eq_some.mp hi
  exact ⟨n, hn, hexpr, Option.some.inj hi⟩

theorem exprId_of_node {x : BnodeRef} {n : Bnode} (hn : be.node x = some n) (he : n.isExpr) :
    be.exprId x = some n.id.toNat := by
  rw [exprId, hn, Option.bind_some, if_pos he]

theorem Archived.deletesOnce (ha : be.Archived) : be.DeletesOnce where
  archived := by
    intro x n hn he i
    rw [ha x i, exprId_of_node hn he, Option.some.injEq]
    exact eq_comm
  live := by
    intro x i hi
    obtain ⟨n, hn, he, -⟩ := exprId_eq_some ((ha x i).mp hi)
    exact ⟨n, hn, he⟩
  deleted := by
    obtain ⟨be', hdelete, hnode⟩ := deleteExprs_some be ha.nodup fun x hx => by
      obtain ⟨i, hi⟩ := ha.mem_iff.mp hx
      obtain ⟨n, hn, -⟩ := exprId_eq_some hi
      rw [hn]
      rfl
    refine ⟨be', hdelete, fun x => ?_⟩
    rw [hnode x]
    cases hn : be.node x with
    | none => simp
    | some n =>
      rw [Option.bind_some]
      by_cases he : n.isExpr
      · rw [if_pos he, if_pos (ha.mem_iff.mpr ⟨n.id.toNat, exprId_of_node hn he⟩)]
      · rw [if_neg he, if_neg]
        intro hmem
        obtain ⟨i, hi⟩ := ha.mem_iff.mp hmem
        obtain ⟨m, hm, hme, -⟩ := exprId_eq_some hi
        obtain rfl := Option.some.inj (hn.symm.trans hm)
        exact he hme

theorem DeletesOnce.isArchived (h : be.DeletesOnce) : be.Archived := by
  intro x i
  constructor
  · intro hi
    obtain ⟨n, hn, he⟩ := h.live x i hi
    rw [exprId_of_node hn he, (h.archived x n hn he i).mp hi]
  · intro hi
    obtain ⟨n, hn, he, hid⟩ := exprId_eq_some hi
    exact (h.archived x n hn he i).mpr hid.symm

/-- The destructor deletes each live expression once in every state of a run exactly if the archive
never has more than `2 ^ 32` entries. -/
theorem run_deletesOnce_iff {malloc : ℕ → BnodeRef} {insts : List Instruction}
    {ops : List NodeOp} :
    (∀ pre be, pre <+: ops → (new malloc insts).run pre = some be → be.DeletesOnce) ↔
      ∀ pre be, pre <+: ops → (new malloc insts).run pre = some be →
        be.earchive.length ≤ 2 ^ 32 := by
  constructor
  · intro hall pre be hpre hrun
    exact (hall pre be hpre hrun).isArchived.length_le (run_full hrun)
  · intro hfits pre be hpre hrun
    exact (run_archived hrun (hfits pre be hpre hrun)).deletesOnce

end Run

/-! ## An archive that is too long -/

/-- A leaf is made at the next address and gets the next slot. -/
theorem make_leaf {be : Backend} (hfree : be.node (be.malloc be.allocated) = none) (btype : ℕ) :
    ∃ be', be.apply (.make (.mkVoidValue btype)) = some be' ∧
      be'.allocated = be.allocated + 1 ∧ be'.malloc = be.malloc ∧
      be'.earchive.length = be.earchive.length + 1 := by
  obtain ⟨be₁, halloc⟩ : ∃ be₁, be.alloc (.expr .const [] none btype []) =
      some (be.malloc be.allocated, be₁) := ⟨_, if_neg (by rw [hfree]; exact Bool.false_ne_true)⟩
  obtain ⟨-, hearchive, hnode⟩ := alloc_eq halloc
  have hleaf : be₁.node (be.malloc be.allocated) = some (.expr .const [] none btype []) := by
    rw [hnode, Function.update_self]
  have hmake : be.make (.mkVoidValue btype) = some (be.malloc be.allocated,
      be₁.archived (be.malloc be.allocated) (.expr .const [] none btype [])) := by
    have hkids : (Bnode.expr .const [] none btype []).kids.mapM be.node = some [] := rfl
    simp only [make, construct, Option.bind_eq_bind, Option.bind_some, hkids, halloc,
      archive_leaf hleaf rfl]
  have hcounts : be₁.allocated = be.allocated + 1 ∧ be₁.malloc = be.malloc := by
    unfold alloc at halloc
    split_ifs at halloc
    obtain ⟨-, rfl⟩ := Prod.mk.inj (Option.some.inj halloc)
    exact ⟨rfl, rfl⟩
  refine ⟨be₁.archived (be.malloc be.allocated) (.expr .const [] none btype []), ?_, hcounts.1,
    hcounts.2, ?_⟩
  · rw [apply, hmake]
    rfl
  change (be₁.earchive ++ [_]).length = _
  rw [hearchive, List.length_append, List.length_singleton]

theorem voidValues_run (k : ℕ) : ∃ be,
    (new id []).run (List.replicate k (.make (.mkVoidValue 0))) = some be ∧ be.allocated = k ∧
      be.malloc = id ∧ be.earchive.length = k := by
  induction k with
  | zero => exact ⟨_, rfl, rfl, rfl, rfl⟩
  | succ k ih =>
    obtain ⟨be, hrun, hallocated, hmalloc, hlength⟩ := ih
    have hfree : be.node (be.malloc be.allocated) = none := by
      rw [hallocated, hmalloc, ← Option.not_isSome_iff_eq_none]
      intro hlive
      obtain ⟨j, hj, heq⟩ := run_allocated hrun _ hlive
      rw [hallocated] at hj
      rw [hmalloc] at heq
      exact hj.ne heq
    obtain ⟨be', happly, hallocated', hmalloc', hlength'⟩ := make_leaf hfree 0
    refine ⟨be', ?_, by rw [hallocated', hallocated], hmalloc'.trans hmalloc,
      by rw [hlength', hlength]⟩
    rw [List.replicate_succ', run_append, hrun, Option.bind_some]
    exact congrArg (Option.bind · some) happly

/-- The expression at position `2 ^ 32` has the id 0. -/
theorem not_deletesOnce : ¬∀ (malloc : ℕ → BnodeRef) (insts : List Instruction)
    (ops : List NodeOp) (be : Backend), (new malloc insts).run ops = some be →
    be.DeletesOnce := by
  intro hall
  obtain ⟨be, hrun, -, -, hlength⟩ := voidValues_run (2 ^ 32 + 1)
  have hle := (hall _ _ _ be hrun).isArchived.length_le (run_full hrun)
  omega

end Backend
end Dragongo
