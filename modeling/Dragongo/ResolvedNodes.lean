import Dragongo.Conditional
import Dragongo.MadeTrees

/-!
# The nodes of resolved expressions

What resolving an expression makes over its node: nothing, or a load of it, through a cast of the
address if the load is redirected.
-/

namespace Dragongo
open LType Varexpr_context

/-- What the builder of LLVM gives on the way: the instructions that it makes, of which a store has
at most two casts before it, and the address of a part may be a constant, and the numbers of
types. -/
structure IRBuilder where
  types : Btype → ℕ
  cast : Value → LType → Instruction
  load : Value → Instruction
  store : Stored → List Instruction
  part : Value → List Instruction
  alloca : Btype → Instruction
  length_store : ∀ st, (store st).length ≤ 3
  length_part : ∀ v, (part v).length ≤ 1

/-- An expression and its node. -/
structure Side where
  expr : Bexpression
  node : BnodeRef

namespace Backend

def resetVarExprContext (be : Backend) (x : BnodeRef) : Option Backend := do
  let n ← be.node x
  if n.isExpr ∧ n.varContext.pending then
    some (be.update x fun n => { n with varContext := n.varContext.reset })
  else none

/-- New instructions, in no node yet. -/
def emit (be : Backend) (is : List Instruction) : List InstRef × Backend :=
  (List.range' be.insts.length is.length, { be with insts := be.insts ++ is })

section Nodes

variable (ir : IRBuilder) (c : CircularTypes) (be : Backend)

/-- `convert_expression` of the address that a redirected load goes through.  The cast is the
instruction `n`, unless the builder folds it. -/
def convertAddress (bt : Btype) (v : Value) (vc : VarContext) (t : Btype) (x : BnodeRef)
    (n : InstRef) : Option (BnodeRef × Backend) :=
  if ptr t.type = v.type then some (x, be)
  else do
    let k ← be.node x
    be.make (.mkConversion (ir.types (.pointer t.type)) (castValue c bt v vc t k.value n) x)

/-- The load is the instruction `n`. -/
def mkLoad (typ : ℕ) (x : BnodeRef) (n : InstRef) : Option (BnodeRef × Backend) := do
  let (rval, be) ← be.make (.mkDeref typ (.instruction n) x)
  let be ← be.appendInstruction rval n
  some (rval, be)

/-- `loadFromExpr`; the instructions are those from `n` on. -/
def loadFromExpr (bt : Btype) (v : Value) (vc : VarContext) (x : BnodeRef) (n : InstRef) :
    Option (BnodeRef × Backend) :=
  match c.loadConversion bt with
  | none => be.mkLoad (ir.types bt) x n
  | some t => do
    let (space, be) ← be.convertAddress ir c bt v vc t x n
    be.mkLoad (ir.types t) space (n + (castInsts c bt v vc n).length)

/-- The instructions of `loadFromExpr`. -/
def instsOfLoad (bt : Btype) (v : Value) (vc : VarContext) : List Instruction :=
  match c.loadConversion bt with
  | none => [ir.load v]
  | some t =>
    let space := circularSpace bt v vc t
    if castsAddress c bt v vc then [ir.cast v space.type, ir.load space] else [ir.load space]

/-- `resolve` of an expression that is no composite; the instructions are those from `n` on. -/
def resolveAt (e : Side) (ctx : Varexpr_context) (n : InstRef) : Option (BnodeRef × Backend) := do
  let k ← be.node e.node
  match e.expr with
  | .expr bt v vc =>
    if k.varContext.pending then
      if handsOutAddress vc ctx then (be.resetVarExprContext e.node).map fun be => (e.node, be)
      else be.loadFromExpr ir c bt v vc e.node n
    else some (e.node, be)
  | .compositeInit .. => none

/-- The instructions of `resolve`. -/
def instsOfResolve (e : Bexpression) (ctx : Varexpr_context) : List Instruction :=
  match e with
  | .expr bt v vc => if vc.pending ∧ handsOutAddress vc ctx = false then instsOfLoad ir c bt v vc
    else []
  | .compositeInit .. => []

def resolve (e : Side) (ctx : Varexpr_context) : Option (BnodeRef × Backend) :=
  (be.emit (instsOfResolve ir c e.expr ctx)).2.resolveAt ir c e ctx be.insts.length

/-- The store in a statement, with its instructions and what the builder gives back of them. -/
def mkStore (typ : ℕ) (val : NodeValue) (is : List InstRef) (dst src : BnodeRef) :
    Option (BnodeRef × Backend) := do
  let (stexp, be) ← be.make (.mkBinaryOpWith typ (some val) dst src is)
  be.make (.mkExprStmt stexp)

end Nodes

/-- The node is that of the expression, whose value is there. -/
def IsNode (be : Backend) (e : Side) : Prop :=
  match e.expr with
  | .expr _ _ vc => ∃ n, be.node e.node = some n ∧ n.isExpr ∧ n.varContext = vc ∧
    ∀ i, n.value = some (.instruction i) → i < be.insts.length
  | .compositeInit .. => ∃ n, be.node e.node = some n ∧ n.flavor = .composite

/-- The same of an expression that is no composite, after another use of the node may have been
resolved. -/
def Stands (be : Backend) (ctx : Varexpr_context) (e : Side) : Prop :=
  match e.expr with
  | .expr _ _ vc => ∃ n, be.node e.node = some n ∧ n.isExpr ∧
    (n.varContext = vc ∨ ¬n.varContext.pending ∧ handsOutAddress vc ctx) ∧
    ∀ i, n.value = some (.instruction i) → i < be.insts.length
  | .compositeInit .. => False

theorem IsNode.stands {be : Backend} {bt : Btype} {v : Value} {vc : VarContext} {x : BnodeRef}
    (h : be.IsNode ⟨.expr bt v vc, x⟩) (ctx : Varexpr_context) :
    be.Stands ctx ⟨.expr bt v vc, x⟩ := by
  obtain ⟨n, hn, hisExpr, hvc, hvalue⟩ := h
  exact ⟨n, hn, hisExpr, .inl hvc, hvalue⟩

/-! ## The tree of a node -/

/-- A statement, which has no instructions itself. -/
def IsStmt (be : Backend) (x : BnodeRef) (flavor : NodeFlavor) (kids : List BnodeRef) : Prop :=
  ∃ n, be.node x = some n ∧ n.flavor = flavor ∧ n.instructions = [] ∧ n.kids = kids

mutual
/-- The node is the root of the tree.  The variables of a block are in no node. -/
def Unfolds (be : Backend) : BnodeTree → BnodeRef → Prop
  | .expr kids value insts, x => ∃ n, be.node x = some n ∧ n.isExpr ∧ n.value = value ∧
    n.instructions = insts ∧ AllUnfold be kids n.kids
  | .exprStmt e, x => ∃ k, be.IsStmt x .exprStmt [k] ∧ Unfolds be e k
  | .block _ stmts, x => ∃ ks, be.IsStmt x .blockStmt ks ∧ AllUnfold be stmts ks
  | .ifStmt cond trueBlock falseBlock, x => ∃ k t f, be.IsStmt x .ifStmt [k, t, f] ∧
    Unfolds be cond k ∧ Unfolds be trueBlock t ∧ Unfolds be falseBlock f
  | _, _ => False
def AllUnfold (be : Backend) : List BnodeTree → List BnodeRef → Prop
  | [], xs => xs = []
  | t :: ts, xs => ∃ x rest, xs = x :: rest ∧ Unfolds be t x ∧ AllUnfold be ts rest
end

/-- What `r` relates is alike in the two backends, with all that is below it. -/
def Follows (be be' : Backend) (r : BnodeRef → BnodeRef → Prop) : Prop :=
  ∀ x x' n, r x x' → be.node x = some n → ∃ n', be'.node x' = some n' ∧ SameNode n n' ∧
    List.Forall₂ r n.kids n'.kids

section Follows
variable {be be' : Backend} {r : BnodeRef → BnodeRef → Prop}

theorem Follows.isStmt (h : Follows be be' r) {x x' : BnodeRef} {flavor : NodeFlavor}
    {ks : List BnodeRef} (hx : r x x') (hs : be.IsStmt x flavor ks) :
    ∃ ks', be'.IsStmt x' flavor ks' ∧ List.Forall₂ r ks ks' := by
  obtain ⟨n, hn, hflavor, hinsts, rfl⟩ := hs
  obtain ⟨n', hn', hsame, hkids⟩ := h x x' n hx hn
  exact ⟨n'.kids, ⟨n', hn', hsame.flavor.trans hflavor, hsame.insts.trans hinsts, rfl⟩, hkids⟩

mutual
theorem Follows.unfolds (h : Follows be be' r) : ∀ (t : BnodeTree) {x x' : BnodeRef}, r x x' →
    be.Unfolds t x → be'.Unfolds t x'
  | .expr kids value insts, x, x', hx, ht => by
    obtain ⟨n, hn, hexpr, hvalue, hinsts, hkids⟩ := ht
    obtain ⟨n', hn', hsame, hrest⟩ := h x x' n hx hn
    refine ⟨n', hn', ?_, hsame.value.trans hvalue, hsame.insts.trans hinsts,
      h.allUnfold kids hrest hkids⟩
    rwa [Bnode.isExpr, hsame.flavor]
  | .exprStmt e, x, x', hx, ht => by
    obtain ⟨k, hstmt, hk⟩ := ht
    obtain ⟨ks, hstmt', hks⟩ := h.isStmt hx hstmt
    obtain ⟨k', m, hk', hnil, rfl⟩ := List.forall₂_cons_left_iff.mp hks
    cases hnil
    exact ⟨k', hstmt', h.unfolds e hk' hk⟩
  | .block _ stmts, x, x', hx, ht => by
    obtain ⟨ks, hstmt, hks⟩ := ht
    obtain ⟨ks', hstmt', hrest⟩ := h.isStmt hx hstmt
    exact ⟨ks', hstmt', h.allUnfold stmts hrest hks⟩
  | .ifStmt cond t f, x, x', hx, ht => by
    obtain ⟨k, kt, kf, hstmt, hk, ht, hf⟩ := ht
    obtain ⟨ks, hstmt', hks⟩ := h.isStmt hx hstmt
    obtain ⟨k', m, hk', hrest, rfl⟩ := List.forall₂_cons_left_iff.mp hks
    obtain ⟨t', m', ht', hrest', rfl⟩ := List.forall₂_cons_left_iff.mp hrest
    obtain ⟨f', m'', hf', hnil, rfl⟩ := List.forall₂_cons_left_iff.mp hrest'
    cases hnil
    exact ⟨k', t', f', hstmt', h.unfolds cond hk' hk, h.unfolds t ht' ht, h.unfolds f hf' hf⟩
  | .switchStmt .., _, _, _, ht => ht.elim
  | .gotoStmt _, _, _, _, ht => ht.elim
  | .labelStmt _, _, _, _, ht => ht.elim
  | .returnStmt .., _, _, _, ht => ht.elim
  | .deferStmt .., _, _, _, ht => ht.elim
  | .excepStmt .., _, _, _, ht => ht.elim
theorem Follows.allUnfold (h : Follows be be' r) : ∀ (ts : List BnodeTree) {xs xs' : List BnodeRef},
    List.Forall₂ r xs xs' → be.AllUnfold ts xs → be'.AllUnfold ts xs'
  | [], xs, xs', hxs, hts => by
    obtain rfl : xs = [] := hts
    cases hxs
    rfl
  | t :: ts, xs, xs', hxs, hts => by
    obtain ⟨x, rest, rfl, hx, hrest⟩ := hts
    obtain ⟨x', rest', hx', hrest', rfl⟩ := List.forall₂_cons_left_iff.mp hxs
    exact ⟨x', rest', rfl, h.unfolds t hx' hx, h.allUnfold ts hrest' hrest⟩
end

theorem same_follows : Follows be be' (Same be be') := by
  intro x x' n hx hn
  obtain ⟨m, n', hm, hn', hsame⟩ := hx.exists_node
  obtain rfl := Option.some.inj (hn.symm.trans hm)
  exact ⟨n', hn', hsame, hx.forall₂ hn hn'⟩

theorem Same.unfolds {x x' : BnodeRef} {t : BnodeTree} (h : Same be be' x x')
    (ht : be.Unfolds t x) : be'.Unfolds t x' :=
  same_follows.unfolds t h ht

/-- The value of an expression is that of its tree. -/
theorem Unfolds.value {x : BnodeRef} {n : Bnode} {t : BnodeTree} (h : be.Unfolds t x)
    (hn : be.node x = some n) (hexpr : n.isExpr) : t.value = n.value := by
  have hstmt : ∀ {f : NodeFlavor} {ks : List BnodeRef}, be.IsStmt x f ks → f.isStmt = false := by
    rintro f ks ⟨m, hm, rfl, -⟩
    obtain rfl := Option.some.inj (hn.symm.trans hm)
    simpa [Bnode.isExpr] using hexpr
  cases t with
  | expr kids value insts =>
    obtain ⟨m, hm, -, hvalue, -⟩ := h
    obtain rfl := Option.some.inj (hn.symm.trans hm)
    exact hvalue.symm
  | exprStmt e =>
    obtain ⟨k, hexprStmt, -⟩ := h
    cases hstmt hexprStmt
  | block vars stmts =>
    obtain ⟨ks, hblock, -⟩ := h
    cases hstmt hblock
  | ifStmt cond t f =>
    obtain ⟨k, kt, kf, hifStmt, -⟩ := h
    cases hstmt hifStmt
  | _ => exact h.elim

end Follows

/-! ## Nodes that stay -/

/-- A change that leaves all nodes as they are, but for contexts of `used` that are used up. -/
def Retains (be be' : Backend) (ctx : Varexpr_context) (used : List BnodeRef) : Prop :=
  ∀ x n, be.node x = some n → be'.node x = some n ∨ x ∈ used ∧
    handsOutAddress n.varContext ctx ∧ be'.node x = some { n with varContext := n.varContext.reset }

section Retains
variable {be be' be'' : Backend} {ctx : Varexpr_context} {used used' : List BnodeRef} {x : BnodeRef}

theorem Retains.of_sets {n : Bnode} (h : Sets be be' x n) (hdead : be.node x = none) :
    Retains be be' ctx used := by
  intro y m hy
  refine .inl ((h.other y fun hyx => ?_).trans hy)
  rw [hyx, hdead] at hy
  cases hy

theorem Retains.mono (h : Retains be be' ctx used) (hused : used ⊆ used') : Retains be be' ctx used' :=
  fun x n hn => (h x n hn).imp_right fun hx => ⟨hused hx.1, hx.2⟩

theorem Retains.follows (h : Retains be be' ctx used) : Follows be be' Eq := by
  intro y y' n hy hn
  subst hy
  have hrefl : List.Forall₂ Eq n.kids n.kids := List.forall₂_refl _
  rcases h y n hn with hn' | ⟨-, -, hn'⟩
  · exact ⟨n, hn', ⟨rfl, rfl, rfl, rfl, rfl⟩, hrefl⟩
  · exact ⟨_, hn', ⟨rfl, rfl, rfl, rfl, rfl⟩, hrefl⟩

theorem Retains.unfolds {t : BnodeTree} (h : Retains be be' ctx used) (ht : be.Unfolds t x) :
    be'.Unfolds t x :=
  h.follows.unfolds t rfl ht

theorem Retains.exprAt (h : Retains be be' ctx used) (hx : be.exprAt x) : be'.exprAt x := by
  cases hn : be.node x with
  | none =>
    rw [Backend.exprAt, hn] at hx
    exact absurd hx Bool.false_ne_true
  | some n =>
    rw [Backend.exprAt, hn] at hx
    rcases h x n hn with hn' | ⟨-, -, hn'⟩ <;> rw [Backend.exprAt, hn'] <;> exact hx

theorem Retains.trans (h : Retains be be' ctx used) (h' : Retains be' be'' ctx used) :
    Retains be be'' ctx used := by
  intro y n hn
  rcases h y n hn with hn' | ⟨hused, hout, hn'⟩
  · exact h' y n hn'
  · refine .inr ⟨hused, hout, ?_⟩
    rcases h' y _ hn' with hn'' | ⟨-, -, hn''⟩
    · exact hn''
    · exact hn''

theorem Retains.stands {e : Side} (h : Retains be be' ctx used)
    (hinsts : be.insts.length ≤ be'.insts.length) (he : be.Stands ctx e) : be'.Stands ctx e := by
  unfold Stands at he ⊢
  cases hexpr : e.expr with
  | compositeInit node bt elems =>
    rw [hexpr] at he
    exact he
  | expr bt v vc =>
    rw [hexpr] at he
    obtain ⟨n, hn, hisExpr, hvc, hvalue⟩ := he
    rcases h e.node n hn with hn' | ⟨-, hout, hn'⟩
    · exact ⟨n, hn', hisExpr, hvc, fun i hi => (hvalue i hi).trans_le hinsts⟩
    · refine ⟨_, hn', hisExpr, .inr ⟨Bool.false_ne_true, ?_⟩,
        fun i hi => (hvalue i hi).trans_le hinsts⟩
      rcases hvc with rfl | ⟨-, hvc⟩
      · exact hout
      · exact hvc

end Retains

/-! ## Changes that no operand sees -/

section Unseen
variable {be be' : Backend} {x y : BnodeRef} {roots : List BnodeRef}

theorem emit_unchanged (be : Backend) (is : List Instruction) (roots : List BnodeRef) :
    Unchanged be (be.emit is).2 roots where
  node _ n _ hn := ⟨n, hn, ⟨rfl, rfl, rfl, rfl, rfl⟩, rfl⟩
  exprmap := rfl
  insts := by
    change be.insts.length ≤ (be.insts ++ is).length
    rw [List.length_append]
    exact Nat.le_add_right ..
  allocates := ⟨rfl, Nat.le_refl _, fun _ => .inl⟩

/-- A change of the context of an expression. -/
theorem context_unchanged (be : Backend) (x : BnodeRef) (vc : Bnode → VarContext)
    (roots : List BnodeRef) :
    Unchanged be (be.update x fun n => { n with varContext := vc n }) roots where
  node y n _ hn := by
    by_cases hyx : y = x
    · subst hyx
      refine ⟨{ n with varContext := vc n }, ?_, ⟨rfl, rfl, rfl, rfl, rfl⟩, rfl⟩
      rw [node_update_self, hn]
      rfl
    · exact ⟨n, (node_update_ne be hyx).trans hn, ⟨rfl, rfl, rfl, rfl, rfl⟩, rfl⟩
  exprmap := rfl
  insts := Nat.le_refl _
  allocates := update_allocates be x _

end Unseen

/-! ## Loads -/

section Loads
variable {be be' : Backend} {ir : IRBuilder} {c : CircularTypes} {bt t : Btype} {v : Value}
  {vc : VarContext} {x : BnodeRef} {rest : List BnodeRef} {n : InstRef}
  {ctx : Varexpr_context} {used : List BnodeRef}

/-- A node with the instruction `n`, if it has any. -/
theorem over_one {m : Bnode} (hflavor : m.flavor ≠ .conversion ∨ m.kids ≠ [])
    (hexpr : ∀ c ∈ m.kids, be.exprAt c) (hslots : m.kids.length < 2 ^ 32)
    (hinsts : m.instructions.Sublist [n]) (hn : n < be.insts.length)
    (hnew : n ∉ (m.kids ++ rest).flatMap be.code) : be.Over m rest where
  source h := hflavor.resolve_left fun hne => hne h
  executed i hi := by
    rw [List.mem_singleton.mp (hinsts.subset hi)]
    exact hn
  exprKids _ := hexpr
  slots := hslots
  nodup := (List.nodup_singleton n).sublist hinsts
  new i hi := by
    rw [List.mem_singleton.mp (hinsts.subset hi)]
    exact hnew

/-- The node of a load. -/
def loadNode (typ : ℕ) (x : BnodeRef) (n : InstRef) (id : UInt32) : Bnode :=
  { Bnode.expr .deref [x] (some (.instruction n)) typ [n] with id }

theorem mkLoad_grows (typ : ℕ) (ho : be.Operands (x :: rest)) (hexpr : be.exprAt x)
    (hn : n < be.insts.length) (hnew : n ∉ (x :: rest).flatMap be.code) : ∃ d be' id,
      be.mkLoad typ x n = some (d, be') ∧ be.node d = none ∧ be'.insts = be.insts ∧
      Sets be be' d (loadNode typ x n id) ∧ Grows be be' (x :: rest) (d :: rest) [n] 2 := by
  have hkids : ∀ c ∈ [x], be.exprAt c := fun c hc => List.mem_singleton.mp hc ▸ hexpr
  have hover (is : List InstRef) (id : UInt32) (his : is.Sublist [n]) :
      be.Over { Bnode.expr .deref [x] (some (.instruction n)) typ is with id } rest :=
    over_one (.inl NodeFlavor.noConfusion) hkids (Nat.one_lt_two_pow (by decide)) his hn hnew
  obtain ⟨d, be₁, id, hmake, hdead, hsets, hinsts, -⟩ := make_grows (m := .mkDeref typ _ x) ho rfl
    (hover [] 0xfeedface (List.nil_sublist _))
  have hsets' : Sets be (be₁.update d fun r => { r with instructions := r.instructions ++ [n] }) d
      (loadNode typ x n id) := hsets.update _
  refine ⟨d, be₁.update d fun r => { r with instructions := r.instructions ++ [n] }, id, ?_, hdead,
    hinsts, hsets', ?_⟩
  · rw [mkLoad, hmake, Option.bind_eq_bind, Option.bind_some]
    simp only [appendInstruction, hsets.node, Option.bind_eq_bind, Option.bind_some]
    rfl
  · exact hsets'.grows ho (ho.not_under hdead) (hover [n] id (List.Sublist.refl _))

theorem castInsts_sublist : (castInsts c bt v vc n).Sublist [n] := by
  unfold castInsts
  split_ifs
  · exact List.Sublist.refl _
  · exact List.nil_sublist _

/-- The node of a conversion over an expression. -/
structure IsConversion (m : Bnode) (x : BnodeRef) (val : NodeValue) (is : List InstRef) : Prop where
  flavor : m.flavor = .conversion
  kids : m.kids = [x]
  value : m.value = some val
  insts : m.instructions = is

theorem IsConversion.isExpr {m : Bnode} {val : NodeValue} {is : List InstRef}
    (h : IsConversion m x val is) : m.isExpr := by
  rw [Bnode.isExpr, h.flavor]
  rfl

theorem construct_mkConversion (typ : ℕ) {k : Bnode} (hk : be.node x = some k) (hexpr : k.isExpr)
    (val : NodeValue) : ∃ m, be.construct (.mkConversion typ val x) = some m ∧
      IsConversion m x val (match val with
        | .instruction i => if k.value = some val then [] else [i]
        | .other _ => []) := by
  have happend : be.appendInstIfNeeded [x] val = some (match val with
      | .instruction i => if k.value = some val then [] else [i]
      | .other _ => []) := by
    cases val with
    | other w => rfl
    | instruction i => simp [appendInstIfNeeded, hk, hexpr]
  simp only [construct, happend, pendingFrom, hk, Option.bind_eq_bind, Option.bind_some,
    Option.map_some]
  split_ifs <;> exact ⟨_, rfl, rfl, rfl, rfl, rfl⟩

/-- The cast is the instruction `n`, or there is none. -/
theorem convertAddress_grows (ir : IRBuilder) (v : Value) (vc : VarContext) (ctx : Varexpr_context)
    (used : List BnodeRef) (ho : be.Operands (x :: rest)) (hexpr : be.exprAt x)
    (hn : n < be.insts.length) (hnew : n ∉ (x :: rest).flatMap be.code)
    (hvalue : ∀ k, be.node x = some k → k.value ≠ some (.instruction n))
    (hconv : c.loadConversion bt = some t) : ∃ space be',
      be.convertAddress ir c bt v vc t x n = some (space, be') ∧ be'.exprAt space ∧
      be'.insts = be.insts ∧
      Grows be be' (x :: rest) (space :: rest) (castInsts c bt v vc n) 2 ∧
      Retains be be' ctx used ∧
      ∀ tree, be.Unfolds tree x → be'.Unfolds (castTree c bt v vc tree n) space := by
  obtain ⟨k, hk⟩ := Option.isSome_iff_exists.mp (ho.live ⟨x, List.mem_cons_self .., .refl⟩)
  rw [exprAt, hk] at hexpr
  have hkexpr : k.isExpr := hexpr
  unfold convertAddress
  by_cases hsame : ptr t.type = v.type
  · have hnone : castInsts c bt v vc n = [] := castInsts_eq_nil fun t' ht => by
      rw [hconv] at ht
      exact Option.some.inj ht ▸ hsame
    rw [if_pos hsame, hnone]
    refine ⟨x, be, rfl, ?_, rfl, ?_, fun _ _ => .inl, fun tree ht => ?_⟩
    · rw [exprAt, hk]
      exact hkexpr
    · exact (grows_perm ho (List.Perm.refl _)).mono (Nat.zero_le 2)
    · simpa only [castTree, hconv, if_pos hsame] using ht
  · rw [if_neg hsame, hk, Option.bind_eq_bind, Option.bind_some]
    generalize hval : castValue c bt v vc t k.value n = val
    obtain ⟨m, hm, hconversion⟩ :=
      construct_mkConversion (ir.types (.pointer t.type)) hk hkexpr val
    have hcast : m.instructions = castInsts c bt v vc n := by
      rw [hconversion.insts, castInsts]
      unfold castValue at hval
      by_cases hcasts : castsAddress c bt v vc
      · rw [if_pos hcasts] at hval ⊢
        subst hval
        exact if_neg (hvalue k hk)
      · rw [if_neg hcasts] at hval ⊢
        -- a value that is given back is that of the source
        cases val with
        | other w => rfl
        | instruction i =>
          refine if_pos ?_
          split_ifs at hval
          cases hkv : k.value with
          | none =>
            rw [hkv] at hval
            cases hval
          | some w =>
            rw [hkv] at hval
            exact congrArg some hval
    have hkids : m.kids = [x] := hconversion.kids
    have hover : be.Over m rest := by
      refine over_one (.inr ?_) (fun d hd => ?_) ?_ (hcast ▸ castInsts_sublist) hn ?_
      · rw [hkids]
        exact List.cons_ne_nil _ _
      · rw [hkids, List.mem_singleton] at hd
        rw [hd, exprAt, hk]
        exact hkexpr
      · rw [hkids]
        exact Nat.one_lt_two_pow (by decide)
      · rw [hkids]
        exact hnew
    have ho' : be.Operands (m.kids ++ rest) := by
      rw [hkids]
      exact ho
    obtain ⟨space, be', id, hmake, hdead, hsets, hinsts, hgrows⟩ := make_grows ho' hm hover
    rw [hkids, hcast] at hgrows
    have hkeeps : Retains be be' ctx used := Retains.of_sets hsets hdead
    refine ⟨space, be', hmake, ?_, hinsts, hgrows.mono ?_, hkeeps, fun tree ht => ?_⟩
    · rw [exprAt, hsets.node]
      exact hconversion.isExpr
    · have hlength := (hcast ▸ castInsts_sublist : m.instructions.Sublist [n]).length_le
      rw [hcast, List.length_singleton] at hlength
      omega
    · have htree : castTree c bt v vc tree n = .expr [tree] (some val) (castInsts c bt v vc n) := by
        rw [← hval, ← ht.value hk hkexpr]
        simp only [castTree, hconv, if_neg hsame]
      rw [htree]
      exact ⟨_, hsets.node, hconversion.isExpr, hconversion.value, hcast, x, [], hkids,
        hkeeps.unfolds ht, rfl⟩

/-- A load of an expression whose address is a value from before. -/
theorem loadFromExpr_grows (ir : IRBuilder) (ctx : Varexpr_context) (used : List BnodeRef)
    (ho : be.Operands (x :: rest)) (hexpr : be.exprAt x)
    (hn : n + (castInsts c bt v vc n).length < be.insts.length)
    (hnew : ∀ i ≥ n, i ∉ (x :: rest).flatMap be.code)
    (hvalue : ∀ k, be.node x = some k → k.value ≠ some (.instruction n)) : ∃ d be',
      be.loadFromExpr ir c bt v vc x n = some (d, be') ∧ be'.exprAt d ∧ be'.insts = be.insts ∧
      Grows be be' (x :: rest) (d :: rest)
        (castInsts c bt v vc n ++ [n + (castInsts c bt v vc n).length]) 4 ∧
      Retains be be' ctx used ∧ ∀ tree, be.Unfolds tree x → be'.Unfolds
        (withInst (castTree c bt v vc tree n) (n + (castInsts c bt v vc n).length)) d := by
  -- the load of an address that has been converted
  have hload (typ : ℕ) {be₁ : Backend} {space : BnodeRef} {m : ℕ} (hm : m ≤ 2)
      (hexpr : be₁.exprAt space) (hinsts : be₁.insts = be.insts)
      (hgrows : Grows be be₁ (x :: rest) (space :: rest) (castInsts c bt v vc n) m)
      (hkeeps : Retains be be₁ ctx used)
      (htree : ∀ tree, be.Unfolds tree x → be₁.Unfolds (castTree c bt v vc tree n) space) :
      ∃ d be', be₁.mkLoad typ space (n + (castInsts c bt v vc n).length) = some (d, be') ∧
        be'.exprAt d ∧ be'.insts = be.insts ∧
        Grows be be' (x :: rest) (d :: rest)
          (castInsts c bt v vc n ++ [n + (castInsts c bt v vc n).length]) 4 ∧
        Retains be be' ctx used ∧ ∀ tree, be.Unfolds tree x → be'.Unfolds
          (withInst (castTree c bt v vc tree n) (n + (castInsts c bt v vc n).length)) d := by
    have hnew' : n + (castInsts c bt v vc n).length ∉ (space :: rest).flatMap be₁.code := by
      intro hmem
      rcases List.mem_append.mp (hgrows.code.mem_iff.mp hmem) with hmem | hmem
      · exact hnew _ (Nat.le_add_right ..) hmem
      · have hlength := List.length_pos_of_mem hmem
        have hsame := List.mem_singleton.mp (castInsts_sublist.subset hmem)
        exact (Nat.lt_add_of_pos_right hlength).ne' hsame
    obtain ⟨d, be', id, hmake, hdead, hinsts', hsets, hgrows'⟩ := mkLoad_grows typ
      hgrows.operands hexpr (hinsts ▸ hn) hnew'
    have hkeeps' : Retains be₁ be' ctx used := Retains.of_sets hsets hdead
    refine ⟨d, be', hmake, ?_, hinsts'.trans hinsts, (hgrows.trans hgrows').mono (by omega),
      hkeeps.trans hkeeps', fun tree ht => ?_⟩
    · rw [exprAt, hsets.node]
      rfl
    · exact ⟨_, hsets.node, rfl, rfl, rfl, space, [], rfl, hkeeps'.unfolds (htree tree ht), rfl⟩
  unfold loadFromExpr
  cases hconv : c.loadConversion bt with
  | none =>
    have hnone : castInsts c bt v vc n = [] := castInsts_eq_nil fun t' ht => by
      rw [hconv] at ht
      cases ht
    have hload' := hload (ir.types bt) (Nat.zero_le 2) hexpr rfl
      (hnone ▸ grows_perm ho (List.Perm.refl _)) (fun _ _ => .inl) fun tree ht => by
        simpa only [castTree, hconv] using ht
    simpa only [hnone, List.length_nil, Nat.add_zero] using hload'
  | some t =>
    obtain ⟨space, be₁, hspace, hexpr₁, hinsts₁, hgrows₁, hkeeps₁, htree₁⟩ :=
      convertAddress_grows ir v vc ctx used ho hexpr
        ((Nat.le_add_right ..).trans_lt hn) (hnew n (Nat.le_refl _)) hvalue hconv
    simp only [hspace, Option.bind_eq_bind, Option.bind_some]
    exact hload (ir.types t) (Nat.le_refl 2) hexpr₁ hinsts₁ hgrows₁ hkeeps₁ htree₁

end Loads

/-! ## Resolving -/

section Resolving
variable {be : Backend} {ir : IRBuilder} {c : CircularTypes} {e : Side} {ctx : Varexpr_context}
  {rest : List BnodeRef} {n : InstRef}

/-- The instructions that an expression is resolved with, from number `n` on. -/
def newInsts (c : CircularTypes) (e : Bexpression) (ctx : Varexpr_context) (n : InstRef) :
    List InstRef :=
  match e with
  | .expr bt v vc =>
    if vc.pending ∧ handsOutAddress vc ctx = false then
      castInsts c bt v vc n ++ [n + (castInsts c bt v vc n).length]
    else []
  | .compositeInit .. => []

/-- What comes of the tree of an expression. -/
def resolvedTree (c : CircularTypes) (e : Bexpression) (ctx : Varexpr_context) (tree : BnodeTree)
    (n : InstRef) : BnodeTree :=
  match e with
  | .expr bt v vc =>
    if vc.pending ∧ handsOutAddress vc ctx = false then
      withInst (castTree c bt v vc tree n) (n + (castInsts c bt v vc n).length)
    else tree
  | .compositeInit .. => tree

theorem length_instsOfResolve (ir : IRBuilder) (n : InstRef) :
    (instsOfResolve ir c e.expr ctx).length = (newInsts c e.expr ctx n).length := by
  unfold instsOfResolve newInsts
  cases e.expr with
  | compositeInit => rfl
  | expr bt v vc =>
    change (if _ then _ else _ : List Instruction).length = (if _ then _ else _ : List InstRef).length
    split_ifs
    · unfold instsOfLoad castInsts castsAddress
      cases c.loadConversion bt with
      | none => rfl
      | some t =>
        simp only
        split_ifs <;> rfl
    · rfl

/-- An expression is resolved with the instructions that it takes. -/
theorem resolveAt_grows (ir : IRBuilder) (c : CircularTypes)
    (ho : be.Operands (e.node :: rest)) (hs : be.Stands ctx e)
    (hn : ∀ i ∈ newInsts c e.expr ctx n, i < be.insts.length)
    (hnew : ∀ i ≥ n, i ∉ (e.node :: rest).flatMap be.code)
    (hvalue : ∀ k, be.node e.node = some k → k.value ≠ some (.instruction n)) : ∃ x be',
      be.resolveAt ir c e ctx n = some (x, be') ∧ be'.exprAt x ∧ be'.insts = be.insts ∧
      Grows be be' (e.node :: rest) (x :: rest) (newInsts c e.expr ctx n) 4 ∧
      Retains be be' ctx [e.node] ∧
      ∀ tree, be.Unfolds tree e.node → be'.Unfolds (resolvedTree c e.expr ctx tree n) x := by
  unfold Stands at hs
  unfold resolveAt newInsts resolvedTree
  unfold newInsts at hn
  cases hexpr : e.expr with
  | compositeInit =>
    rw [hexpr] at hs
    exact hs.elim
  | expr bt v vc =>
    rw [hexpr] at hs hn
    obtain ⟨k, hk, hkexpr, hvc, -⟩ := hs
    have hexprAt : be.exprAt e.node := by
      rw [exprAt, hk]
      exact hkexpr
    have hsame : Grows be be (e.node :: rest) (e.node :: rest) [] 4 :=
      (grows_perm ho (List.Perm.refl _)).mono (Nat.zero_le 4)
    simp only [hk, Option.bind_eq_bind, Option.bind_some]
    by_cases hpending : k.varContext.pending
    · rw [if_pos hpending]
      obtain rfl : k.varContext = vc := hvc.resolve_right fun h => h.1 hpending
      cases hout : handsOutAddress k.varContext ctx with
      | true =>
        rw [if_pos rfl, if_neg fun h => Bool.noConfusion h.2]
        have hu := context_unchanged be e.node (fun m => m.varContext.reset) (e.node :: rest)
        have hnode := node_update_self be (x := e.node)
          (f := fun m => { m with varContext := m.varContext.reset })
        rw [hk] at hnode
        have hkeeps : Retains be (be.update e.node fun m =>
            { m with varContext := m.varContext.reset }) ctx [e.node] := by
          intro y m hy
          by_cases hyx : y = e.node
          · subst hyx
            obtain rfl := Option.some.inj (hk.symm.trans hy)
            exact .inr ⟨List.mem_singleton_self _, hout, hnode⟩
          · exact .inl ((node_update_ne be hyx).trans hy)
        refine ⟨e.node, be.update e.node fun m => { m with varContext := m.varContext.reset },
          ?_, ?_, rfl, (hu.grows ho).mono (Nat.zero_le 4), hkeeps,
          fun tree ht => ?_⟩
        · simp only [resetVarExprContext, hk, Option.bind_eq_bind, Option.bind_some]
          rw [if_pos ⟨hkexpr, hpending⟩]
          rfl
        · rw [exprAt, hnode]
          exact hkexpr
        · rw [if_neg fun h => Bool.noConfusion h.2]
          exact hkeeps.unfolds ht
      | false =>
        have hload : k.varContext.pending ∧ false = false := ⟨hpending, rfl⟩
        change ∀ i ∈ (if k.varContext.pending ∧ _ = false then _ else _ : List InstRef), _ at hn
        rw [hout, if_pos hload] at hn
        rw [if_neg Bool.false_ne_true, if_pos hload]
        obtain ⟨d, be', hload', hd, hinsts, hgrows, hkeeps, htree⟩ := loadFromExpr_grows ir ctx
          [e.node] ho hexprAt
          (hn _ (List.mem_append_right _ (List.mem_singleton_self _))) hnew hvalue
        refine ⟨d, be', hload', hd, hinsts, hgrows, hkeeps, fun tree ht => ?_⟩
        rw [if_pos hload]
        exact htree tree ht
    · rw [if_neg hpending]
      have hnone : ¬(vc.pending ∧ handsOutAddress vc ctx = false) := by
        rintro ⟨hp, hout⟩
        rcases hvc with rfl | ⟨-, hout'⟩
        · exact hpending hp
        · exact Bool.noConfusion (hout.symm.trans hout')
      rw [if_neg hnone]
      refine ⟨e.node, be, rfl, hexprAt, rfl, hsame, fun _ _ => .inl, fun tree ht => ?_⟩
      rwa [if_neg hnone]

theorem newInsts_eq (n : InstRef) :
    newInsts c e.expr ctx n = List.range' n (newInsts c e.expr ctx n).length := by
  unfold newInsts
  cases e.expr with
  | compositeInit => rfl
  | expr bt v vc =>
    change (if _ then _ else _ : List InstRef) = List.range' n (if _ then _ else _ : List _).length
    split_ifs
    · unfold castInsts
      split_ifs <;> rfl
    · rfl

theorem mem_newInsts {i : InstRef} (hi : i ∈ newInsts c e.expr ctx n) :
    n ≤ i ∧ i < n + (newInsts c e.expr ctx n).length := by
  rw [newInsts_eq, List.mem_range'_1] at hi
  exact hi

theorem Stands.value_lt (hs : be.Stands ctx e) {k : Bnode} (hk : be.node e.node = some k)
    {i : InstRef} (hi : k.value = some (.instruction i)) : i < be.insts.length := by
  unfold Stands at hs
  cases hexpr : e.expr with
  | compositeInit =>
    rw [hexpr] at hs
    exact hs.elim
  | expr bt v vc =>
    rw [hexpr] at hs
    obtain ⟨m, hm, -, -, hvalue⟩ := hs
    obtain rfl := Option.some.inj (hk.symm.trans hm)
    exact hvalue i hi

/-- `resolve` makes its instructions and takes them. -/
theorem resolve_grows (ir : IRBuilder) (c : CircularTypes) (ho : be.Operands (e.node :: rest))
    (hs : be.Stands ctx e) : ∃ x be', be.resolve ir c e ctx = some (x, be') ∧ be'.exprAt x ∧
      Grows be be' (e.node :: rest) (x :: rest) (newInsts c e.expr ctx be.insts.length) 4 ∧
      Retains be be' ctx [e.node] := by
  have hgrows := (emit_unchanged be (instsOfResolve ir c e.expr ctx) (e.node :: rest)).grows ho
  have hkeeps : Retains be (be.emit (instsOfResolve ir c e.expr ctx)).2 ctx [e.node] :=
    fun _ _ => .inl
  have hlength : (be.emit (instsOfResolve ir c e.expr ctx)).2.insts.length =
      be.insts.length + (newInsts c e.expr ctx be.insts.length).length := by
    rw [← length_instsOfResolve ir]
    exact List.length_append
  have hnew : ∀ i ≥ be.insts.length,
      i ∉ (e.node :: rest).flatMap (be.emit (instsOfResolve ir c e.expr ctx)).2.code := by
    intro i hi hmem
    have hmem' := hgrows.code.mem_iff.mp hmem
    rw [List.append_nil] at hmem'
    exact absurd (ho.code_lt hmem') (Nat.not_lt.mpr hi)
  obtain ⟨x, be', hresolve, hx, -, hgrows', hkeeps', -⟩ := resolveAt_grows ir c
    hgrows.operands (hkeeps.stands hgrows.insts hs) (fun i hi => hlength ▸ (mem_newInsts hi).2) hnew
    fun k hk hval => absurd (hs.value_lt hk hval) (Nat.lt_irrefl _)
  exact ⟨x, be', hresolve, hx, hgrows.trans hgrows', hkeeps.trans hkeeps'⟩

end Resolving

/-! ## Statements of a store -/

section Store
variable {be : Backend} {dst src : BnodeRef} {rest : List BnodeRef} {is : List InstRef}

/-- The node of a store, in its statement. -/
def storeTree (val : NodeValue) (is : List InstRef) (dst src : BnodeTree) : BnodeTree :=
  .exprStmt (.expr [dst, src] (some val) is)

theorem mkStore_grows (typ : ℕ) (val : NodeValue) (ctx : Varexpr_context) (used : List BnodeRef)
    (ho : be.Operands (dst :: src :: rest)) (hdst : be.exprAt dst) (hsrc : be.exprAt src)
    (hnodup : is.Nodup) (hlt : ∀ i ∈ is, i < be.insts.length)
    (hnew : ∀ i ∈ is, i ∉ (dst :: src :: rest).flatMap be.code) : ∃ x be',
      be.mkStore typ val is dst src = some (x, be') ∧ be'.insts = be.insts ∧
      Grows be be' (dst :: src :: rest) (x :: rest) is (is.length + 2) ∧
      Retains be be' ctx used ∧
      ∀ d s, be.Unfolds d dst → be.Unfolds s src → be'.Unfolds (storeTree val is d s) x := by
  have hover : be.Over (.expr .binaryOp [dst, src] (some val) typ is) rest := by
    refine ⟨NodeFlavor.noConfusion, hlt, fun _ k hk => ?_, (by norm_num [Bnode.expr]),
      hnodup, hnew⟩
    rcases List.mem_pair.mp hk with rfl | rfl
    · exact hdst
    · exact hsrc
  obtain ⟨stexp, be₁, id, hmake, hdead, hsets, hinsts, hgrows⟩ :=
    make_grows (m := .mkBinaryOpWith typ (some val) dst src is) ho rfl hover
  obtain ⟨x, be', id', hmake', hdead', hsets', hinsts', hgrows'⟩ :=
    make_grows (m := .mkExprStmt stexp) (n := .stmt .exprStmt [stexp]) hgrows.operands rfl
      (over_of_nil Bool.false_ne_true (Nat.one_lt_two_pow (by decide)) rfl)
  have hkeeps : Retains be be₁ ctx used := .of_sets hsets hdead
  have hkeeps' : Retains be₁ be' ctx used := .of_sets hsets' hdead'
  refine ⟨x, be', ?_, hinsts'.trans hinsts, ?_, hkeeps.trans hkeeps', fun d s hd hs => ?_⟩
  · rw [mkStore, hmake, Option.bind_eq_bind, Option.bind_some]
    exact hmake'
  · have hboth := hgrows.trans hgrows'
    rwa [show (Bnode.stmt .exprStmt [stexp]).instructions = [] from rfl, List.append_nil] at hboth
  · have hstexp : be₁.Unfolds (.expr [d, s] (some val) is) stexp :=
      ⟨_, hsets.node, rfl, rfl, rfl, dst, [src], rfl, hkeeps.unfolds hd, src, [], rfl,
        hkeeps.unfolds hs, rfl⟩
    exact ⟨stexp, ⟨_, hsets'.node, rfl, rfl, rfl⟩, hkeeps'.unfolds hstexp⟩

end Store
end Backend
end Dragongo
