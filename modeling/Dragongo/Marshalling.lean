import Dragongo.SignatureSlots

/-!
# What a call pushes

An argument may be the address of a variable, a constant, a loaded value or a composite
without storage.  Here is which of them reach the call as values of the types that the
LLVM signature has, through memory that holds them.
-/

namespace Dragongo
open LType Varexpr_context CABIParamDisp

/-- The value is a pointer to memory that holds the contents of the expression, or to a
part of it, possibly under another type. -/
inductive Denotes : Value → Bexpression → Prop
  | reference {bt : Btype} {v : Value} {vc : VarContext} (hvc : vc.pending) (h0 : vc.addrLevel = 0)
    (hv : v.type = ptr bt.type) : Denotes v (.expr bt v vc)
  | constant {bt : Btype} {v : Value} {vc : VarContext} (hvc : ¬vc.pending) (hv : v.isConstant) :
    Denotes (.constantVariable v) (.expr bt v vc)
  | composite (node : ℕ) (bt : Btype) (elems : List Bexpression) :
    Denotes (.temporary node bt.type) (.compositeInit node bt elems)
  | bitcast {v : Value} {e : Bexpression} (t : LType) (h : Denotes v e) :
    Denotes (.bitcast v (ptr t)) e
  | field {v : Value} {e : Bexpression} (t : LType) (i : ℕ) (h : Denotes v e) :
    Denotes (.field v t i) e

theorem Denotes.isPointerTy {v : Value} {e : Bexpression} (h : Denotes v e) :
    v.type.isPointerTy := by
  cases h with
  | reference _ _ hv => rw [hv]; rfl
  | _ => rfl

/-- The address denotes memory that holds the source, and a copy is of all of it. -/
structure Access.Reads (a : Access) : Prop where
  denotes : Denotes a.address a.source
  copied : ∀ n, a.copied = some n → n = a.source.btype.type.shape.allocSize

theorem Denotes.reads {v : Value} {e : Bexpression} (h : Denotes v e) :
    Access.Reads ⟨v, e, none⟩ := ⟨h, nofun⟩

mutual
/-- A value has the type of the expression, and an address points to it. -/
def WellTyped : Bexpression → Prop
  | .expr bt v vc =>
    if vc.pending then
      vc.addrLevel = 0 ∧ v.type = ptr bt.type ∨
        vc.addrLevel = 1 ∧ v.type = bt.type ∧ bt.type.isPointerTy
    else v.type = bt.type
  | .compositeInit _ bt elems =>
    bt.type.isAggregateType ∧ elems.length = bt.type.numElements ∧ AreWellTyped elems bt.type 0
/-- The elements from index `i` on have the types of the parts of `t`. -/
def AreWellTyped : List Bexpression → LType → ℕ → Prop
  | [], _, _ => True
  | e :: es, t, i => WellTyped e ∧ e.btype.type = t.typeAtIndex i ∧ AreWellTyped es t (i + 1)
end

section Conditions

variable (c : CircularTypes)

/-- A load of the type, which the type manager may have redirected to the next type of a
loop of pointers, still gives the type or is converted to it. -/
def LoadKeepsType (bt : Btype) : Prop :=
  ∀ t, c.loadConversion bt = some t →
    t.type = bt.type ∨ ptr t.type = bt.type ∨ areConverted c t.type bt.type

/-- A reference to a scalar variable is loaded, and as its own type. -/
def Loadable (bt : Btype) (vc : VarContext) : Prop :=
  vc.pending → vc.addrLevel = 0 → ¬vc.lvalue ∧ LoadKeepsType c bt

/-- An aggregate has an address, or is a constant that can be given one: it is neither a
loaded value nor a part of a module variable. -/
def Addressable (v : Value) (vc : VarContext) : Prop :=
  if vc.pending then v.isConstant → v.isModuleVar else v.isConstant

mutual
/-- The expression can be stored into memory. -/
def Storable : Bexpression → Prop
  | .expr bt v vc => if bt.type.isAggregateType then Addressable v vc else Loadable c bt vc
  | .compositeInit _ _ elems => AllStorable elems
def AllStorable : List Bexpression → Prop
  | [] => True
  | e :: es => Storable e ∧ AllStorable es
end

/-- The argument gets through the marshalling for its parameter. -/
def Passable (info : CABIParamInfo) : Bexpression → Prop
  | .compositeInit node bt elems => Storable c (.compositeInit node bt elems)
  | .expr bt v vc =>
    match info.disp with
    | ignore => True
    | indirect => Storable c (.expr bt v vc)
    | direct =>
      if bt.type.isAggregateType ∧ info.numArgSlots = 1 then vc.pending = true
      else Storable c (.expr bt v vc)

end Conditions

/-! ## Resolving -/

theorem not_isPointerTy_of_isAggregateType : ∀ t : LType, t.isAggregateType → ¬t.isPointerTy
  | struct .., _ | structRef _, _ | array .., _ => Bool.false_ne_true

section Convert

variable (c : CircularTypes) (srcType dst : LType) (v : Value)

/-- An assigned scalar ends up with the type of its destination if it has it already, or is
a pointer that is cast. -/
theorem convertForAssignment_type :
    (if v.type.isPointerTy then convertForAssignment c srcType v dst else v).type = dst ↔
      v.type = dst ∨ v.type.isPointerTy ∧ dst ≠ srcType ∧
        (areConverted c srcType dst || v.isNilPointer) := by
  unfold convertForAssignment
  split_ifs with hptr hsrc hconv
  · simp [hsrc]
  · simp [hptr, hsrc, hconv, Value.type]
  · simp [hconv]
  · simp [hptr]

theorem convertScalar_type (paramType : Btype) (r : Resolved) :
    (convertScalar c paramType r).type = paramType.type ↔
      (if r.value.type.isPointerTy then
        convertForAssignment c r.btype.type r.value paramType.type else r.value).type =
          paramType.type := by
  rw [convertForAssignment_type]
  unfold convertScalar
  by_cases hv : r.value.type = paramType.type
  · simp [hv]
  · have htype := convertForAssignment_type c r.btype.type paramType.type r.value
    by_cases hptr : r.value.type.isPointerTy
    · rw [if_pos hptr] at htype
      rw [if_pos ⟨hptr, hv⟩, htype]
    · simp [hptr]

end Convert

section Resolve

variable {c : CircularTypes} {bt : Btype} {v : Value} {vc : VarContext}

/-- The value of an aggregate is its address while a reference is pending. -/
theorem aggregate_value (hw : WellTyped (.expr bt v vc)) (hagg : bt.type.isAggregateType) :
    if vc.pending then vc.addrLevel = 0 ∧ Denotes v (.expr bt v vc) else v.type = bt.type := by
  simp only [WellTyped] at hw
  split_ifs at hw ⊢ with hp
  · rcases hw with ⟨h0, hv⟩ | ⟨-, -, hptr⟩
    · exact ⟨h0, .reference hp h0 hv⟩
    · exact absurd hptr (not_isPointerTy_of_isAggregateType _ hagg)
  · exact hw

theorem resolve_aggregate (hw : WellTyped (.expr bt v vc)) (hagg : bt.type.isAggregateType) :
    resolve c (.expr bt v vc) VE_lvalue = some ⟨bt, v, []⟩ := by
  have hv := aggregate_value hw hagg
  simp only [resolve, resolveVarContext]
  by_cases hp : vc.pending
  · rw [if_pos hp] at hv ⊢
    simp [hv.1]
  · rw [if_neg hp]

/-- A constant aggregate is spilled, and a reference to a whole module variable is kept. -/
theorem spillConstant_some (hw : WellTyped (.expr bt v vc)) (hagg : bt.type.isAggregateType)
    {a : Value} (h : spillConstant v bt = some a) (hptr : a.type.isPointerTy) :
    a.type = ptr bt.type ∧ Denotes a (.expr bt v vc) := by
  have hv := aggregate_value hw hagg
  unfold spillConstant genVarForConstant at h
  by_cases hp : vc.pending
  · rw [if_pos hp] at hv
    have hvtype : v.type = ptr bt.type := by
      simp only [WellTyped, if_pos hp] at hw
      refine hw.elim And.right fun h1 => ?_
      rw [hv.1] at h1
      exact absurd h1.1 Nat.zero_ne_one
    split_ifs at h with _ _ htype
    · obtain rfl := Option.some.inj h
      exact ⟨hvtype, hv.2⟩
    · exact absurd (hvtype.symm.trans htype) (ptr_ne _)
    · obtain rfl := Option.some.inj h
      exact ⟨hvtype, hv.2⟩
  · rw [if_neg hp] at hv
    have hnot : ¬v.type.isPointerTy := by
      rw [hv]
      exact not_isPointerTy_of_isAggregateType _ hagg
    split_ifs at h with hc
    · obtain rfl := Option.some.inj h
      exact absurd hptr hnot
    · obtain rfl := Option.some.inj h
      exact ⟨congrArg ptr hv, .constant hp hc⟩
    · obtain rfl := Option.some.inj h
      exact absurd hptr hnot

theorem spillConstant_iff (hw : WellTyped (.expr bt v vc)) (hagg : bt.type.isAggregateType) :
    (∃ a, spillConstant v bt = some a ∧ a.type.isPointerTy) ↔ Addressable v vc := by
  have hv := aggregate_value hw hagg
  unfold spillConstant genVarForConstant Addressable
  by_cases hp : vc.pending
  · rw [if_pos hp] at hv ⊢
    have hptr := hv.2.isPointerTy
    have hne : v.type ≠ bt.type := by
      intro h
      rw [← h] at hagg
      exact not_isPointerTy_of_isAggregateType _ hagg hptr
    by_cases hc : v.isConstant <;> by_cases hm : v.isModuleVar <;> simp [hc, hm, hne, hptr]
  · rw [if_neg hp] at hv ⊢
    have hptr : ¬v.type.isPointerTy := by
      rw [hv]
      exact not_isPointerTy_of_isAggregateType _ hagg
    have hm : ¬v.isModuleVar := by
      cases v <;> simp [Value.isModuleVar, Value.type, isPointerTy] at hptr ⊢
    by_cases hc : v.isConstant
    · simp only [hc, hm, hv, if_true, iff_true]
      exact ⟨_, rfl, rfl⟩
    · simp [hc, hptr]

/-- A load of a reference keeps its type, or is converted to it, unless it is redirected. -/
theorem loadFromExpr_spec (hp : vc.pending) (h0 : vc.addrLevel = 0) (hv : v.type = ptr bt.type)
    (hagg : ¬bt.type.isAggregateType) (hvoid : bt.type ≠ void) :
    (∀ a ∈ (loadFromExpr c bt v vc bt).accesses, a.Reads) ∧
      (loadFromExpr c bt v vc bt).value.type ≠ void ∧
      ¬(loadFromExpr c bt v vc bt).btype.type.isAggregateType ∧
      ((loadFromExpr c bt v vc bt).value.type = bt.type ∨
        (loadFromExpr c bt v vc bt).value.type.isPointerTy) ∧
      ((if (loadFromExpr c bt v vc bt).value.type.isPointerTy then
        convertForAssignment c (loadFromExpr c bt v vc bt).btype.type
          (loadFromExpr c bt v vc bt).value bt.type
        else (loadFromExpr c bt v vc bt).value).type = bt.type ↔ LoadKeepsType c bt) := by
  have href : Denotes v (.expr bt v vc) := .reference hp h0 hv
  rw [convertForAssignment_type]
  unfold loadFromExpr LoadKeepsType
  cases hconv : c.loadConversion bt with
  | none => simp [Value.type, hv, pointeeType, href.reads, hvoid, hagg]
  | some t =>
    have hptr := c.isPointerTy hconv
    have htagg : ¬t.type.isAggregateType := fun h =>
      not_isPointerTy_of_isAggregateType _ h hptr
    by_cases ht : t.type = bt.type
    · simp [circularSpace, ht, hv, Value.type, pointeeType, href.reads, hvoid, hagg]
    · have hspace : circularSpace bt v vc t = .bitcast v (ptr (ptr t.type)) := by
        simp [circularSpace, hv, ht, hp]
      simp only [hspace, Value.type, pointeeType, isPointerTy, Value.isNilPointer, Bool.or_false]
      refine ⟨?_, by simp, htagg, .inr trivial, ?_⟩
      · simp only [List.mem_cons, List.not_mem_nil, or_false, forall_eq_or_imp, forall_eq]
        exact ⟨href.reads, (href.bitcast _).reads⟩
      · simp [ht, Ne.symm ht]

/-- A scalar is resolved to a value that can be assigned to its own type, or not. -/
theorem resolve_scalar (hw : WellTyped (.expr bt v vc)) (hagg : ¬bt.type.isAggregateType)
    (hvoid : bt.type ≠ void) :
    ∃ r, resolve c (.expr bt v vc) VE_rvalue = some r ∧ (∀ a ∈ r.accesses, a.Reads) ∧
      r.value.type ≠ void ∧ ¬r.btype.type.isAggregateType ∧
      (r.value.type = bt.type ∨ r.value.type.isPointerTy) ∧
      ((if r.value.type.isPointerTy then convertForAssignment c r.btype.type r.value bt.type
        else r.value).type = bt.type ↔ Loadable c bt vc) := by
  simp only [resolve, resolveVarContext, WellTyped] at hw ⊢
  by_cases hp : vc.pending
  · rw [if_pos hp] at hw ⊢
    rcases hw with ⟨h0, hv⟩ | ⟨h1, hv, hptr⟩
    · by_cases hl : vc.lvalue
      · refine ⟨⟨bt, v, []⟩, by simp [h0, hl], by simp, by simp [hv], hagg,
          .inr (by rw [hv]; rfl), ?_⟩
        rw [convertForAssignment_type]
        simp [hv, ptr_ne, Loadable, hp, h0, hl]
      · obtain ⟨haccs, hv', hagg', hor, htype⟩ := loadFromExpr_spec (c := c) hp h0 hv hagg hvoid
        refine ⟨loadFromExpr c bt v vc bt, by simp [h0, hl], haccs, hv', hagg', hor, ?_⟩
        rw [htype]
        simp [Loadable, hp, h0, hl]
    · refine ⟨⟨bt, v, []⟩, by simp [h1, hptr], by simp, by rwa [hv], hagg, .inl hv, ?_⟩
      rw [convertForAssignment_type]
      simp [hv, Loadable, h1]
  · rw [if_neg hp] at hw ⊢
    refine ⟨⟨bt, v, []⟩, rfl, by simp, by rwa [hw], hagg, .inl hw, ?_⟩
    rw [convertForAssignment_type]
    simp [hw, Loadable, hp]

end Resolve

/-! ## Composites -/

section Composite

variable (c : CircularTypes)

/-- An element is stored into memory of its type, reading only memory that holds it. -/
def Stores (e : Bexpression) : Prop :=
  ∃ r accs, resolve c e e.varContextDisp = some r ∧ genStore c e r e.btype.type = some accs ∧
    ∀ a ∈ accs, a.Reads

def AllStored (es : List Bexpression) (t : LType) (i : ℕ) : Prop :=
  ∃ accs, storeElems c es t i = some accs ∧ ∀ a ∈ accs, a.Reads

theorem isPlain_ne_void {t : LType} (h : t.isPlain) : t ≠ void := by
  rintro rfl
  cases h

theorem isPlain_getD {ts : List LType} (h : arePlain ts) {i : ℕ} (hi : i < ts.length) :
    (ts.getD i void).isPlain := by
  induction ts generalizing i with
  | nil => simp at hi
  | cons t ts ih =>
    simp only [arePlain, Bool.and_eq_true] at h
    cases i with
    | zero => exact h.1
    | succ i => exact ih h.2 (Nat.lt_of_succ_lt_succ hi)

theorem isPlain_typeAtIndex : ∀ {t : LType} {i : ℕ}, t.isPlain → i < t.numElements →
    (t.typeAtIndex i).isPlain
  | array _ _, _, h, _ => h
  | struct _ _, _, h, hi => isPlain_getD h hi

/-- A composite is built in its temporary. -/
theorem resolve_composite_some {node : ℕ} {bt : Btype} {elems : List Bexpression} {r : Resolved}
    (hw : WellTyped (.compositeInit node bt elems))
    (h : resolve c (.compositeInit node bt elems) VE_lvalue = some r) :
    ∃ accs, storeElems c elems bt.type 0 = some accs ∧ r = ⟨bt, .temporary node bt.type, accs⟩ := by
  simp only [WellTyped] at hw
  simp only [resolve, if_pos (And.intro hw.1 hw.2.1)] at h
  obtain ⟨accs, hstore, h⟩ := Option.bind_eq_some_iff.mp h
  refine ⟨accs, hstore, ?_⟩
  simpa [resolveVarContext] using h.symm

theorem resolve_composite {node : ℕ} {bt : Btype} {elems : List Bexpression}
    (hw : WellTyped (.compositeInit node bt elems)) :
    (∃ r, resolve c (.compositeInit node bt elems) VE_lvalue = some r ∧
        r = ⟨bt, .temporary node bt.type, r.accesses⟩ ∧ ∀ a ∈ r.accesses, a.Reads) ↔
      AllStored c elems bt.type 0 := by
  constructor
  · rintro ⟨r, hr, -, haccs⟩
    obtain ⟨accs, hstore, rfl⟩ := resolve_composite_some c hw hr
    exact ⟨accs, hstore, haccs⟩
  · rintro ⟨accs, hstore, haccs⟩
    simp only [WellTyped] at hw
    refine ⟨⟨bt, .temporary node bt.type, accs⟩, ?_, rfl, haccs⟩
    simp [resolve, resolveVarContext, hw.1, hw.2.1, hstore]

/-- An aggregate is copied from its address. -/
theorem genStore_aggregate {e : Bexpression} {bt : Btype} {v : Value} (accs : List Access)
    (htype : e.btype = bt) (hplain : bt.type.isPlain) (hagg : bt.type.isAggregateType)
    (hv : v.type ≠ void) (t : LType) :
    (∃ accs', genStore c e ⟨bt, v, accs⟩ t = some accs' ∧ ∀ a ∈ accs', a.Reads) ↔
      (∃ a, spillConstant v bt = some a ∧ a.type.isPointerTy ∧ Denotes a e) ∧
        ∀ a ∈ accs, a.Reads := by
  unfold genStore
  rw [if_neg hv, if_pos hagg, allocSize_of_isPlain hplain]
  constructor
  · rintro ⟨accs', h, haccs⟩
    obtain ⟨a, ha, h⟩ := Option.bind_eq_some_iff.mp h
    rw [Option.bind_eq_bind, Option.bind_some] at h
    split_ifs at h with hptr
    obtain rfl := Option.some.inj h
    have hlast := haccs ⟨a, e, some bt.type.shape.allocSize⟩ (by simp)
    exact ⟨⟨a, ha, hptr, hlast.denotes⟩, fun x hx => haccs x (by simp [hx])⟩
  · rintro ⟨⟨a, ha, hptr, hden⟩, haccs⟩
    refine ⟨accs ++ [⟨a, e, some bt.type.shape.allocSize⟩], by simp [ha, hptr], ?_⟩
    intro x hx
    rcases List.mem_append.mp hx with hx | hx
    · exact haccs x hx
    · rw [List.mem_singleton.mp hx]
      exact ⟨hden, fun n hn => htype ▸ (Option.some.inj hn).symm⟩

theorem genStore_scalar {e : Bexpression} {r : Resolved} (hv : r.value.type ≠ void)
    (hagg : ¬r.btype.type.isAggregateType) (t : LType) :
    genStore c e r t = if (if r.value.type.isPointerTy then
        convertForAssignment c r.btype.type r.value t else r.value).type = t then
      some r.accesses else none := by
  unfold genStore
  rw [if_neg hv, if_neg hagg]

theorem stores_expr {bt : Btype} {v : Value} {vc : VarContext} (hw : WellTyped (.expr bt v vc))
    (hplain : bt.type.isPlain) :
    Stores c (.expr bt v vc) ↔ Storable c (.expr bt v vc) := by
  have hvoid := isPlain_ne_void hplain
  by_cases hagg : bt.type.isAggregateType
  · have hctx : (Bexpression.expr bt v vc).varContextDisp = VE_lvalue := if_pos hagg
    have hv : v.type ≠ void := by
      have hval := aggregate_value hw hagg
      split_ifs at hval
      · intro h
        have hptr := hval.2.isPointerTy
        rw [h] at hptr
        cases hptr
      · rwa [hval]
    have hstore := genStore_aggregate c (e := .expr bt v vc) [] rfl hplain hagg hv bt.type
    have hspill : (∃ a, spillConstant v bt = some a ∧ a.type.isPointerTy ∧
        Denotes a (.expr bt v vc)) ↔ Addressable v vc := by
      rw [← spillConstant_iff hw hagg]
      exact ⟨fun ⟨a, ha, hptr, _⟩ => ⟨a, ha, hptr⟩,
        fun ⟨a, ha, hptr⟩ => ⟨a, ha, hptr, (spillConstant_some hw hagg ha hptr).2⟩⟩
    rw [Stores, hctx, resolve_aggregate hw hagg, Storable, if_pos hagg, ← hspill]
    simpa [Bexpression.btype] using hstore
  · have hctx : (Bexpression.expr bt v vc).varContextDisp = VE_rvalue := if_neg hagg
    obtain ⟨r, hr, haccs, hv, hragg, -, htype⟩ := resolve_scalar (c := c) hw hagg hvoid
    rw [Stores, hctx, hr, Storable, if_neg hagg, ← htype]
    have hstore := genStore_scalar c (e := .expr bt v vc) hv hragg bt.type
    constructor
    · rintro ⟨r', accs, hr', h, -⟩
      obtain rfl := Option.some.inj hr'
      by_contra hne
      rw [Bexpression.btype, hstore, if_neg hne] at h
      cases h
    · intro h
      exact ⟨r, r.accesses, rfl, hstore.trans (if_pos h), haccs⟩

mutual
theorem stores_iff : ∀ e : Bexpression, WellTyped e → e.btype.type.isPlain →
    (Stores c e ↔ Storable c e)
  | .expr bt v vc, hw, hplain => stores_expr c hw hplain
  | .compositeInit node bt elems, hw, hplain => by
    have helems : AreWellTyped elems bt.type 0 := hw.2.2
    have hlen : elems.length = bt.type.numElements := hw.2.1
    have hctx : (Bexpression.compositeInit node bt elems).varContextDisp = VE_lvalue :=
      if_pos hw.1
    rw [Stores, hctx, Storable, ← allStored_iff elems bt.type 0 helems hplain (by omega),
      ← resolve_composite c hw, Bexpression.btype]
    have hstore (accs : List Access) := genStore_aggregate c
      (e := .compositeInit node bt elems) (v := .temporary node bt.type) accs rfl hplain hw.1
      (by simp [Value.type]) bt.type
    have hspill : spillConstant (.temporary node bt.type) bt = some (.temporary node bt.type) := rfl
    constructor
    · rintro ⟨r, accs, hr, h, haccs⟩
      obtain ⟨accs', -, rfl⟩ := resolve_composite_some c hw hr
      have hall := (hstore accs').mp ⟨accs, h, haccs⟩
      exact ⟨_, hr, rfl, hall.2⟩
    · rintro ⟨r, hr, hr', haccs⟩
      rw [hr'] at hr
      obtain ⟨accs, h, haccs⟩ := (hstore r.accesses).mpr
        ⟨⟨_, hspill, rfl, .composite node bt elems⟩, haccs⟩
      exact ⟨_, accs, hr, h, haccs⟩
theorem allStored_iff : ∀ (es : List Bexpression) (t : LType) (i : ℕ), AreWellTyped es t i →
    t.isPlain → i + es.length ≤ t.numElements → (AllStored c es t i ↔ AllStorable c es)
  | [], _, _, _, _, _ => by simp [AllStored, storeElems, AllStorable]
  | e :: es, t, i, hw, hplain, hlen => by
    simp only [AreWellTyped] at hw
    simp only [List.length_cons] at hlen
    have helem : e.btype.type.isPlain := by
      rw [hw.2.1]
      exact isPlain_typeAtIndex hplain (by omega)
    have he := stores_iff e hw.1 helem
    have hes := allStored_iff es t (i + 1) hw.2.2 hplain (by omega)
    rw [AllStorable, ← he, ← hes, AllStored, storeElems, ← hw.2.1]
    constructor
    · rintro ⟨accs, h, haccs⟩
      obtain ⟨r, hr, h⟩ := Option.bind_eq_some_iff.mp h
      obtain ⟨accs1, h1, h⟩ := Option.bind_eq_some_iff.mp h
      obtain ⟨accs2, h2, h⟩ := Option.bind_eq_some_iff.mp h
      obtain rfl := Option.some.inj h
      exact ⟨⟨r, accs1, hr, h1, fun a ha => haccs a (List.mem_append_left _ ha)⟩,
        accs2, h2, fun a ha => haccs a (List.mem_append_right _ ha)⟩
    · rintro ⟨⟨r, accs1, hr, h1, haccs1⟩, accs2, h2, haccs2⟩
      refine ⟨accs1 ++ accs2, by simp [hr, h1, h2], fun a ha => ?_⟩
      exact (List.mem_append.mp ha).elim (haccs1 a) (haccs2 a)
end

end Composite

/-! ## How a Go type is passed -/

/-- What the oracle decides about a parameter of a Go type. -/
inductive PassedAs (t : LType) : CABIParamInfo → Prop
  | ignored (sigOffset : ℤ) (hagg : t.isAggregateType) :
    PassedAs t ⟨[void], ignore, .none, sigOffset⟩
  | inMemory (sigOffset : ℤ) (hagg : t.isAggregateType) :
    PassedAs t ⟨[ptr t], indirect, .byVal, sigOffset⟩
  | scalar (attr : CABIParamAttr) (sigOffset : ℤ) (hattr : attr ≠ .nest)
    (hagg : ¬t.isAggregateType) : PassedAs t ⟨[t], direct, attr, sigOffset⟩
  | oneSlot (abiType : LType) (sigOffset : ℤ) (hagg : t.isAggregateType) :
    PassedAs t ⟨[abiType], direct, .none, sigOffset⟩
  | twoSlots (t0 t1 : LType) (sigOffset : ℤ) (hagg : t.isAggregateType) :
    PassedAs t ⟨[t0, t1], direct, .none, sigOffset⟩

/-- A Go type that a parameter can have is a scalar, unless it is a struct or an array. -/
theorem isPlainScalar_of_go : ∀ {bt : Btype}, isGoType bt → auxParamAllowed bt →
    (∀ id fields, bt ≠ .struct id fields) → (∀ t n, bt ≠ .array t n) → bt.type.isPlainScalar
  | .integer _ _, h, _, _, _ => h
  | .float .f32, _, _, _, _ | .float .f64, _, _, _, _ | .pointer _, _, _, _, _ => rfl
  | .aux t, h, haux, _, _ => by
    cases t <;> first | rfl | exact absurd h Bool.false_ne_true | exact absurd haux Bool.false_ne_true
  | .struct id fields, _, _, hstruct, _ => absurd rfl (hstruct id fields)
  | .array t n, _, _, _, harray => absurd rfl (harray t n)

theorem not_isAggregateType_of_isPlainScalar : ∀ t : LType, t.isPlainScalar → ¬t.isAggregateType
  | int _, _ | float, _ | double, _ | ptr _, _ => Bool.false_ne_true

theorem allocSize_of_isPlainScalar {t : LType} (h : t.isPlainScalar) :
    0 < t.shape.allocSize ∧ t.shape.allocSize ≤ 8 := by
  have hs := scalar_of_isPlainScalar t h
  have hsize := hs.size
  rw [hs.alloc]
  omega

/-- A Go type is a struct or an array, or a scalar of at most eight bytes. -/
theorem go_cases {bt : Btype} (hgo : isGoType bt) (haux : auxParamAllowed bt) :
    ((∃ id fields, bt = .struct id fields) ∨ ∃ t n, bt = .array t n) ∧ bt.type.isAggregateType ∨
      ¬bt.type.isAggregateType ∧ 0 < bt.type.shape.allocSize ∧ bt.type.shape.allocSize ≤ 8 := by
  by_cases hstruct : ∃ id fields, bt = .struct id fields
  · obtain ⟨id, fields, rfl⟩ := hstruct
    exact .inl ⟨.inl ⟨id, fields, rfl⟩, rfl⟩
  by_cases harray : ∃ t n, bt = .array t n
  · obtain ⟨t, n, rfl⟩ := harray
    exact .inl ⟨.inr ⟨t, n, rfl⟩, rfl⟩
  have hscalar := isPlainScalar_of_go hgo haux (fun id fields h => hstruct ⟨id, fields, h⟩)
    (fun t n h => harray ⟨t, n, h⟩)
  exact .inr ⟨not_isAggregateType_of_isPlainScalar _ hscalar, allocSize_of_isPlainScalar hscalar⟩

/-- One region needs one register. -/
theorem canPassDirectly_singleton (ebr : EightByteRegion) (s : ABIState) :
    canPassDirectly (getRegisterRequirements [ebr]).1 (getRegisterRequirements [ebr]).2 s := by
  unfold canPassDirectly getRegisterRequirements
  by_cases hd : ebr.getRegionTypDisp = TypDisp.flavSSE <;> simp [hd]

theorem passEightBytes_passed {bt : Btype} (hgo : isGoType bt) (haux : auxParamAllowed bt)
    (h1 : 1 ≤ bt.type.shape.allocSize) (h16 : bt.type.shape.allocSize ≤ 16)
    {ebrs : List EightByteRegion} (hebrs : eightByteInfo bt = some ebrs) {s s' : ABIState}
    {info : CABIParamInfo} (h : passEightBytes bt.type ebrs s = some (info, s')) :
    PassedAs bt.type info := by
  obtain ⟨ebrs', hebrs', hlen⟩ :=
    eightByteInfo_of_fits hgo h1 h16 (fits_of_eightByteInfo hgo h1 h16 hebrs)
  obtain rfl : ebrs = ebrs' := Option.some.inj (hebrs.symm.trans hebrs')
  obtain ⟨ts, hts, htslen⟩ := eightByteInfo_types hebrs
  simp only [passEightBytes, hts, Option.bind_eq_bind, Option.bind_some] at h
  cases eightByteInfo_some hebrs with
  | composite hbt hnone =>
    have hagg : bt.type.isAggregateType := by
      rcases hbt with ⟨id, fields, rfl⟩ | ⟨t, n, rfl⟩ <;> rfl
    rw [regionAttr_none hnone] at h
    split_ifs at h
    · obtain ⟨rfl, -⟩ := Prod.mk.inj (Option.some.inj h)
      rw [← htslen] at hlen
      rcases hlen with hlen | hlen
      · obtain ⟨t, rfl⟩ := List.length_eq_one_iff.mp hlen
        exact .oneSlot t _ hagg
      · obtain ⟨t0, t1, rfl⟩ := List.length_eq_two.mp hlen
        exact .twoSlots t0 t1 _ hagg
    · obtain ⟨rfl, -⟩ := Prod.mk.inj (Option.some.inj h)
      exact .inMemory _ hagg
  | scalar hstruct harray attr hattr hebrs' =>
    subst hebrs'
    have hagg := not_isAggregateType_of_isPlainScalar _
      (isPlainScalar_of_go hgo haux hstruct harray)
    have hattr' : attr ≠ .nest := by
      rcases scalarAttr_some hattr with rfl | rfl | rfl <;> decide
    have hregion (r : EightByteRegion) (hr : r.attr = attr) :
        regionAttr [r] .none = some attr := by
      by_cases ha : attr = .none <;> simp [regionAttr, hr, ha]
    rw [if_pos (canPassDirectly_singleton _ _), hregion _ rfl] at h
    obtain ⟨rfl, -⟩ := Prod.mk.inj (Option.some.inj h)
    obtain rfl : ts = [bt.type] := by simpa using hts.symm
    exact .scalar attr _ hattr' hagg

theorem passedAs_of_analyze {bt : Btype} (hgo : isGoType bt) {s s' : ABIState}
    {info : CABIParamInfo} (h : analyzeABIParam bt s = some (info, s')) :
    PassedAs bt.type info := by
  unfold analyzeABIParam at h
  split_ifs at h with haux
  obtain ⟨disp, hdisp, h⟩ := Option.bind_eq_some_iff.mp h
  obtain ⟨-, hdisp⟩ := classifyArgType_some hdisp
  have hcases := go_cases hgo haux
  split_ifs at hdisp with h0 h16
  · subst hdisp
    obtain ⟨rfl, -⟩ := Prod.mk.inj (Option.some.inj h)
    exact .ignored _ (hcases.elim And.right fun hs => absurd h0 hs.2.1.ne')
  · subst hdisp
    obtain ⟨ebrs, hebrs, h⟩ := Option.bind_eq_some_iff.mp h
    exact passEightBytes_passed hgo haux (Nat.pos_of_ne_zero h0) h16 hebrs h
  · subst hdisp
    obtain ⟨rfl, -⟩ := Prod.mk.inj (Option.some.inj h)
    exact .inMemory _ (hcases.elim And.right fun hs => absurd (hs.2.2.trans (by decide)) h16)

/-! ## Arguments -/

section Argument

variable (c : CircularTypes)

/-- The LLVM types of the slots of a parameter. -/
def CABIParamInfo.slotTypes (info : CABIParamInfo) : List LType :=
  if info.disp = ignore then [] else info.abiTypes

theorem extendScalar_iff (info : CABIParamInfo) (t : LType) (v : Value)
    (hv : v.type = t ∨ v.type.isPointerTy) :
    (∃ v', extendScalar info t v = some v' ∧ v'.type = t) ↔ v.type = t := by
  unfold extendScalar createZExt
  constructor
  · rintro ⟨v', h, hv'⟩
    rcases hv with hv | hv
    · exact hv
    · cases ht : v.type <;> rw [ht] at hv <;> try cases hv
      split_ifs at h with hext heq
      · exact ht.symm.trans heq
      · simp [ht] at h
      · obtain rfl := Option.some.inj h
        exact ht ▸ hv'
  · intro h
    refine ⟨v, ?_, h⟩
    simp [h]

/-- What is pushed has the given types and was read from memory that holds the argument. -/
def Passes (pushed : Option GenCallState) (ts : List LType) : Prop :=
  ∃ state, pushed = some state ∧ state.llargs.map Value.type = ts ∧
    ∀ a ∈ state.accesses, a.Reads

theorem passes_some {vs : List Value} {accs : List Access} {ts : List LType} :
    Passes (some ⟨vs, accs⟩) ts ↔ vs.map Value.type = ts ∧ ∀ a ∈ accs, a.Reads := by
  constructor
  · rintro ⟨state, h, hts, haccs⟩
    obtain rfl := Option.some.inj h
    exact ⟨hts, haccs⟩
  · rintro ⟨hts, haccs⟩
    exact ⟨_, rfl, hts, haccs⟩

section Aggregate

variable {c} {bt : Btype} {v : Value} {vc : VarContext}

/-- A composite passes once it can be built, whatever is then done with its temporary. -/
theorem composite_passes {node : ℕ} {elems : List Bexpression}
    (hw : WellTyped (.compositeInit node bt elems)) (hplain : bt.type.isPlain)
    (f : Resolved → Option GenCallState) (vs : List Value) (extra : List Access)
    (hf : ∀ accs, f ⟨bt, .temporary node bt.type, accs⟩ = some ⟨vs, accs ++ extra⟩)
    (hextra : ∀ a ∈ extra, a.Reads) :
    Passes ((resolve c (.compositeInit node bt elems) VE_lvalue).bind f) (vs.map Value.type) ↔
      Storable c (.compositeInit node bt elems) := by
  have hlen : elems.length = bt.type.numElements := hw.2.1
  rw [Storable, ← allStored_iff c elems bt.type 0 hw.2.2 hplain (by omega)]
  constructor
  · rintro ⟨state, h, -, haccs⟩
    obtain ⟨r, hr, h⟩ := Option.bind_eq_some_iff.mp h
    obtain ⟨accs, hstore, rfl⟩ := resolve_composite_some c hw hr
    rw [hf] at h
    obtain rfl := Option.some.inj h
    exact ⟨accs, hstore, fun a ha => haccs a (List.mem_append_left _ ha)⟩
  · intro h
    obtain ⟨r, hr, hr', haccs⟩ := (resolve_composite c hw).mpr h
    rw [hr, Option.bind_some, hr', hf, passes_some]
    exact ⟨rfl, fun a ha => (List.mem_append.mp ha).elim (haccs a) (hextra a)⟩

/-- A constant or an address goes to memory; its pointer is what is pushed. -/
theorem inMemory_passes (hw : WellTyped (.expr bt v vc)) (hagg : bt.type.isAggregateType) :
    Passes (marshallIndirect c (.expr bt v vc)) [ptr bt.type] ↔ Addressable v vc := by
  rw [← spillConstant_iff hw hagg]
  simp only [marshallIndirect, indirectValue, Bexpression.btype, Option.bind_eq_bind,
    Option.bind_some]
  constructor
  · rintro ⟨state, h, -, -⟩
    obtain ⟨a, ha, h⟩ := Option.bind_eq_some_iff.mp h
    split_ifs at h with hptr
    exact ⟨a, ha, hptr⟩
  · rintro ⟨a, ha, hptr⟩
    rw [ha, Option.bind_some, if_pos hptr, passes_some]
    exact ⟨by simp [(spillConstant_some hw hagg ha hptr).1], by simp⟩

theorem oneSlot_passes (hw : WellTyped (.expr bt v vc)) (hagg : bt.type.isAggregateType)
    (abiType : LType) (sigOffset : ℤ) :
    Passes (marshallOneSlot ⟨[abiType], direct, .none, sigOffset⟩ (.expr bt v vc) ⟨bt, v, []⟩)
      [abiType] ↔ vc.pending := by
  have hv := aggregate_value hw hagg
  simp only [marshallOneSlot, CABIParamInfo.abiType, Option.bind_eq_bind, Option.bind_some,
    passes_some]
  constructor
  · rintro ⟨-, haccs⟩
    have hptr : v.type.isPointerTy := (haccs ⟨v, .expr bt v vc, none⟩ (by simp)).denotes.isPointerTy
    by_contra hp
    rw [if_neg hp] at hv
    rw [hv] at hptr
    exact not_isPointerTy_of_isAggregateType _ hagg hptr
  · intro hp
    rw [if_pos hp] at hv
    refine ⟨by simp [Value.type, pointeeType], ?_⟩
    simp only [List.nil_append, List.mem_cons, List.not_mem_nil, or_false, forall_eq_or_imp,
      forall_eq]
    exact ⟨hv.2.reads, (hv.2.bitcast _).reads⟩

/-- The addresses that two slots are loaded through. -/
theorem denotes_fields {a : Value} {e : Bexpression} (h : Denotes a e) (llst : LType) :
    ∀ x ∈ [Access.mk a e none, ⟨.bitcast a (ptr llst), e, none⟩,
      ⟨.field (.bitcast a (ptr llst)) llst 0, e, none⟩,
      ⟨.field (.bitcast a (ptr llst)) llst 1, e, none⟩], x.Reads := by
  have hcast := h.bitcast llst
  simp only [List.mem_cons, List.not_mem_nil, or_false, forall_eq_or_imp, forall_eq]
  exact ⟨h.reads, hcast.reads, (hcast.field _ _).reads, (hcast.field _ _).reads⟩

theorem twoSlots_passes (hw : WellTyped (.expr bt v vc)) (hagg : bt.type.isAggregateType)
    (t0 t1 : LType) (sigOffset : ℤ) :
    Passes (marshallTwoSlots ⟨[t0, t1], direct, .none, sigOffset⟩ (.expr bt v vc) ⟨bt, v, []⟩)
      [t0, t1] ↔ Addressable v vc := by
  rw [← spillConstant_iff hw hagg]
  simp only [marshallTwoSlots, CABIParamInfo.computeABIStructType, Option.bind_eq_bind,
    Option.bind_some]
  constructor
  · rintro ⟨state, h, -, haccs⟩
    obtain ⟨a, ha, h⟩ := Option.bind_eq_some_iff.mp h
    obtain rfl := Option.some.inj h
    exact ⟨a, ha, (haccs ⟨a, .expr bt v vc, none⟩ (by simp)).denotes.isPointerTy⟩
  · rintro ⟨a, ha, hptr⟩
    have hden := (spillConstant_some hw hagg ha hptr).2
    rw [ha, Option.bind_some, passes_some]
    exact ⟨by simp [Value.type, pointeeType, typeAtIndex, makeLLVMTwoElementStructType],
      denotes_fields hden _⟩

theorem scalar_passes (hw : WellTyped (.expr bt v vc)) {paramType : Btype}
    (htype : bt.type = paramType.type) (hagg : ¬bt.type.isAggregateType)
    (hplain : bt.type.isPlain) (attr : CABIParamAttr) (sigOffset : ℤ) :
    Passes ((resolve c (.expr bt v vc) VE_rvalue).bind
      (marshallScalar c ⟨[paramType.type], direct, attr, sigOffset⟩ paramType)) [paramType.type] ↔
      Loadable c bt vc := by
  obtain ⟨r, hr, haccs, -, -, hor, hassign⟩ :=
    resolve_scalar (c := c) hw hagg (isPlain_ne_void hplain)
  rw [htype] at hassign hor
  rw [← hassign, ← convertScalar_type c paramType r, hr, Option.bind_some]
  have hconv : (convertScalar c paramType r).type = paramType.type ∨
      (convertScalar c paramType r).type.isPointerTy := by
    unfold convertScalar convertForAssignment
    split_ifs with h
    · exact .inr h.1
    · exact .inl rfl
    · exact .inr h.1
    · exact hor
  rw [← extendScalar_iff ⟨[paramType.type], direct, attr, sigOffset⟩ _ _ hconv]
  simp only [marshallScalar, CABIParamInfo.abiType, Option.bind_eq_bind, Option.bind_some]
  constructor
  · rintro ⟨state, h, hts, -⟩
    obtain ⟨v', hv', h⟩ := Option.bind_eq_some_iff.mp h
    obtain rfl := Option.some.inj h
    exact ⟨v', hv', by simpa using hts⟩
  · rintro ⟨v', hv', ht⟩
    rw [hv', Option.bind_some, passes_some]
    exact ⟨by simp [ht], haccs⟩

end Aggregate

variable {c} {bt : Btype} {info : CABIParamInfo}

/-- An argument passes for its parameter under exactly the stated condition. -/
theorem argPasses_iff (hinfo : PassedAs bt.type info) {arg : Bexpression} (hw : WellTyped arg)
    (htype : arg.btype.type = bt.type) (hplain : bt.type.isPlain) :
    Passes (marshallArg c info bt arg) info.slotTypes ↔ Passable c info arg := by
  rw [← htype] at hinfo hplain
  have hagg (h : arg.btype.type.isAggregateType) : arg.varContextDisp = VE_lvalue := if_pos h
  cases hinfo with
  | ignored sigOffset h =>
    have hmarshall : marshallArg c ⟨[void], ignore, .none, sigOffset⟩ bt arg =
        (resolve c arg VE_lvalue).bind fun r => some ⟨[], r.accesses⟩ := by
      rw [← hagg h]
      rfl
    rw [hmarshall]
    cases arg with
    | expr bt' v vc =>
      rw [resolve_aggregate hw h]
      exact iff_of_true (passes_some.mpr ⟨rfl, by simp⟩) trivial
    | compositeInit node bt' elems =>
      exact composite_passes hw hplain _ [] [] (by simp) (by simp)
  | inMemory sigOffset h =>
    show Passes (marshallIndirect c arg) [ptr arg.btype.type] ↔ _
    cases arg with
    | expr bt' v vc =>
      simp only [Passable, Storable, Bexpression.btype] at h ⊢
      rw [if_pos h]
      exact inMemory_passes hw h
    | compositeInit node bt' elems =>
      have hmarshall : marshallIndirect c (.compositeInit node bt' elems) =
          (resolve c (.compositeInit node bt' elems) VE_lvalue).bind fun r =>
            (spillConstant r.value bt').bind fun v =>
              if v.type.isPointerTy then some ⟨[v], r.accesses⟩ else none := by
        simp only [marshallIndirect, indirectValue, Bexpression.btype, Option.bind_eq_bind,
          Option.bind_map]
        rfl
      rw [hmarshall]
      exact composite_passes hw hplain _ [.temporary node bt'.type] []
        (by intro accs; simp [spillConstant, Value.isConstant, Value.type, isPointerTy]) (by simp)
  | scalar attr sigOffset hattr h =>
    cases arg with
    | compositeInit node bt' elems => exact absurd hw.1 h
    | expr bt' v vc =>
      have hctx : argContext ⟨[bt'.type], direct, attr, sigOffset⟩ (.expr bt' v vc) = VE_rvalue :=
        if_neg h
      have hmarshall : marshallArg c ⟨[bt'.type], direct, attr, sigOffset⟩ bt (.expr bt' v vc) =
          (resolve c (.expr bt' v vc) VE_rvalue).bind
            (marshallScalar c ⟨[bt'.type], direct, attr, sigOffset⟩ bt) := by
        simp only [marshallArg, if_neg hattr, hctx, marshallDirect]
        rfl
      have hpass : Passable c ⟨[bt'.type], direct, attr, sigOffset⟩ (.expr bt' v vc) ↔
          Loadable c bt' vc := by
        simp only [Bexpression.btype] at h
        simp [Passable, Storable, h]
      have hscalar := scalar_passes (c := c) hw htype h hplain attr sigOffset
      rw [← htype] at hscalar
      rw [Bexpression.btype, hmarshall, hpass]
      exact hscalar
  | oneSlot abiType sigOffset h =>
    have hctx : argContext ⟨[abiType], direct, .none, sigOffset⟩ arg = VE_lvalue := if_pos h
    have hmarshall : marshallArg c ⟨[abiType], direct, .none, sigOffset⟩ bt arg =
        (resolve c arg VE_lvalue).bind
          (marshallOneSlot ⟨[abiType], direct, .none, sigOffset⟩ arg) := by
      simp only [marshallArg, hctx, marshallDirect]
      rfl
    rw [hmarshall]
    cases arg with
    | expr bt' v vc =>
      rw [resolve_aggregate hw h, Option.bind_some]
      simp only [Bexpression.btype] at h
      have hpass : Passable c ⟨[abiType], direct, .none, sigOffset⟩ (.expr bt' v vc) ↔
          vc.pending := by
        simp [Passable, h, CABIParamInfo.numArgSlots]
      rw [hpass]
      exact oneSlot_passes hw h abiType sigOffset
    | compositeInit node bt' elems =>
      have hden := Denotes.composite node bt' elems
      apply composite_passes hw hplain _ [.load (.bitcast (.temporary node bt'.type) (ptr abiType))]
        [⟨.temporary node bt'.type, .compositeInit node bt' elems, none⟩,
          ⟨.bitcast (.temporary node bt'.type) (ptr abiType), .compositeInit node bt' elems, none⟩]
      · intro accs
        rfl
      · simp only [List.mem_cons, List.not_mem_nil, or_false, forall_eq_or_imp, forall_eq]
        exact ⟨hden.reads, (hden.bitcast _).reads⟩
  | twoSlots t0 t1 sigOffset h =>
    have hmarshall : marshallArg c ⟨[t0, t1], direct, .none, sigOffset⟩ bt arg =
        (resolve c arg VE_lvalue).bind
          (marshallTwoSlots ⟨[t0, t1], direct, .none, sigOffset⟩ arg) := rfl
    rw [hmarshall]
    cases arg with
    | expr bt' v vc =>
      rw [resolve_aggregate hw h, Option.bind_some]
      simp only [Bexpression.btype] at h
      have hpass : Passable c ⟨[t0, t1], direct, .none, sigOffset⟩ (.expr bt' v vc) ↔
          Addressable v vc := by
        simp [Passable, Storable, h, CABIParamInfo.numArgSlots]
      rw [hpass]
      exact twoSlots_passes hw h t0 t1 sigOffset
    | compositeInit node bt' elems =>
      let llst := makeLLVMTwoElementStructType t0 t1
      let cast := Value.bitcast (.temporary node bt'.type) (ptr llst)
      apply composite_passes hw hplain _ [.load (.field cast llst 0), .load (.field cast llst 1)]
        _ _ (denotes_fields (.composite node bt' elems) llst)
      intro accs
      rfl

/-! ## Calls -/

theorem slotTypes_cons (info : CABIParamInfo) (infos : List CABIParamInfo) :
    slotTypes (info :: infos) = info.slotTypes ++ slotTypes infos := by
  by_cases hd : info.disp = ignore <;> simp [slotTypes, CABIParamInfo.slotTypes, hd]

theorem length_infoSlotTypes (info : CABIParamInfo) :
    info.slotTypes.length = info.slotCount := by
  unfold CABIParamInfo.slotTypes CABIParamInfo.slotCount
  split_ifs <;> rfl

/-- Typed arguments for the parameters. -/
def ArgsMatch (args : List Bexpression) (paramTypes : List Btype) : Prop :=
  List.Forall₂ (fun arg bt => WellTyped arg ∧ arg.btype.type = bt.type) args paramTypes

/-- What was pushed before stays. -/
theorem genCallMarshallArgs_extends {infos : List CABIParamInfo} {paramTypes : List Btype}
    {args : List Bexpression} {state state' : GenCallState}
    (h : genCallMarshallArgs c infos paramTypes args state = some state') :
    ∃ vs accs, state' = ⟨state.llargs ++ vs, state.accesses ++ accs⟩ := by
  induction args generalizing infos paramTypes state with
  | nil =>
    have hstate : genCallMarshallArgs c infos paramTypes [] state = some state := by
      cases infos <;> cases paramTypes <;> rfl
    rw [hstate] at h
    obtain rfl := Option.some.inj h
    exact ⟨[], [], by simp⟩
  | cons arg args ih =>
    match infos, paramTypes, h with
    | info :: infos, paramType :: paramTypes, h =>
      obtain ⟨pushed, -, h⟩ := Option.bind_eq_some_iff.mp h
      obtain ⟨vs, accs, rfl⟩ := ih h
      exact ⟨pushed.llargs ++ vs, pushed.accesses ++ accs, by simp [GenCallState.push]⟩
    | [], _, h => cases h
    | _ :: _, [], h => cases h

theorem genCallMarshallArgs_passes {infos : List CABIParamInfo} {paramTypes : List Btype}
    (hinfos : List.Forall₂ (fun info bt => PassedAs bt.type info) infos paramTypes)
    {argCount : ℕ} (hplaced : AllPlaced infos argCount) {args : List Bexpression}
    (hargs : ArgsMatch args paramTypes) (hplain : ∀ bt ∈ paramTypes, bt.type.isPlain)
    (vs : List Value) (accs : List Access) (ts : List LType) (hts : vs.map Value.type = ts)
    (haccs : ∀ a ∈ accs, a.Reads) :
    Passes (genCallMarshallArgs c infos paramTypes args ⟨vs, accs⟩) (ts ++ slotTypes infos) ↔
      List.Forall₂ (Passable c) infos args := by
  induction hinfos generalizing args argCount vs accs ts with
  | nil =>
    cases hargs
    refine iff_of_true (passes_some.mpr ⟨?_, haccs⟩) .nil
    simp [hts, slotTypes]
  | @cons info bt infos paramTypes hinfo _ ih =>
    obtain ⟨arg, args, ⟨hw, htype⟩, hrest, rfl⟩ := List.forall₂_cons_right_iff.mp hargs
    have hplainbt := hplain bt List.mem_cons_self
    have hplains := fun b hb => hplain b (List.mem_cons_of_mem _ hb)
    have harg := argPasses_iff (c := c) hinfo hw htype hplainbt
    rw [List.forall₂_cons, ← harg, slotTypes_cons, ← List.append_assoc]
    constructor
    · rintro ⟨state, h, htypes, hdenotes⟩
      obtain ⟨pushed, hpushed, h⟩ := Option.bind_eq_some_iff.mp h
      have hlen : pushed.llargs.length = info.slotTypes.length := by
        rw [marshallArg_length c hplaced.1 hpushed, length_infoSlotTypes]
      obtain ⟨vs', accs', rfl⟩ := genCallMarshallArgs_extends h
      -- the values pushed for this argument stand where its slots are
      have hpush : pushed.llargs.map Value.type = info.slotTypes := by
        simp only [GenCallState.push, List.map_append, hts] at htypes
        have hsplit := (List.append_inj htypes (by simp [hlen])).1
        exact List.append_cancel_left hsplit
      have hdenotes' : ∀ a ∈ pushed.accesses, a.Reads := fun a ha =>
        hdenotes a (by simp [GenCallState.push, ha])
      refine ⟨⟨pushed, hpushed, hpush, hdenotes'⟩, ?_⟩
      refine (ih hplaced.2 hrest hplains (vs ++ pushed.llargs) (accs ++ pushed.accesses) _
        ?_ ?_).mp ⟨_, h, htypes, hdenotes⟩
      · simp [hts, hpush]
      · exact fun a ha => (List.mem_append.mp ha).elim (haccs a) (hdenotes' a)
    · rintro ⟨⟨pushed, hpushed, hpush, hdenotes⟩, hall⟩
      have hrest' := (ih hplaced.2 hrest hplains (vs ++ pushed.llargs)
        (accs ++ pushed.accesses) (ts ++ info.slotTypes) (by simp [hts, hpush])
        fun a ha => (List.mem_append.mp ha).elim (haccs a) (hdenotes a)).mpr hall
      obtain ⟨state, h, htypes, hden⟩ := hrest'
      exact ⟨state, by simp [genCallMarshallArgs, hpushed, GenCallState.push, h], htypes, hden⟩

end Argument

theorem passedAs_of_analyzeABIParams {paramTypes : List Btype}
    (hgo : ∀ bt ∈ paramTypes, isGoType bt) {s s' : ABIState} {infos : List CABIParamInfo}
    (h : analyzeABIParams paramTypes s = some (infos, s')) :
    List.Forall₂ (fun info bt => PassedAs bt.type info) infos paramTypes := by
  induction paramTypes generalizing s infos with
  | nil =>
    obtain ⟨rfl, rfl⟩ := Prod.mk.inj (Option.some.inj h)
    exact .nil
  | cons bt bts ih =>
    obtain ⟨⟨info, s1⟩, hinfo, h⟩ := Option.bind_eq_some_iff.mp h
    obtain ⟨⟨infos', s2⟩, hinfos, h⟩ := Option.bind_eq_some_iff.mp h
    obtain ⟨rfl, rfl⟩ := Prod.mk.inj (Option.some.inj h)
    exact .cons (passedAs_of_analyze (hgo bt List.mem_cons_self) hinfo)
      (ih (fun b hb => hgo b (List.mem_cons_of_mem _ hb)) hinfos)

/-- The parameters of the LLVM function are the hidden pointer, the chain and the slots. -/
theorem params_of_analyze {paramTypes : List Btype} {resultType : Btype} {oracle : CABIOracle}
    (h : analyze paramTypes resultType true = some oracle) :
    oracle.fcnTypeForABI.params = (if oracle.returnInfo.disp = indirect then
        [ptr resultType.type] else []) ++ llvmPtrType :: slotTypes oracle.paramInfos ∧
      ∃ s s', analyzeABIParams paramTypes s = some (oracle.paramInfos, s') := by
  obtain ⟨⟨rinfo, s0⟩, hret, h⟩ := Option.bind_eq_some_iff.mp h
  obtain ⟨⟨infos, s1⟩, hinfos, h⟩ := Option.bind_eq_some_iff.mp h
  obtain ⟨ft, hft, h⟩ := Option.bind_eq_some_iff.mp h
  obtain rfl := Option.some.inj h
  refine ⟨?_, _, _, hinfos⟩
  have hslots : slotTypes (chainParm s0 :: infos) = llvmPtrType :: slotTypes infos :=
    slotTypes_cons _ _
  obtain ⟨rt, hrt, hft⟩ := Option.bind_eq_some_iff.mp hft
  rcases analyzeABIReturn_cases hret with ⟨-, -, rfl, rfl⟩ | ⟨-, rfl, hdisp, -, -⟩
  · rw [if_pos rfl] at hft
    obtain rfl := Option.some.inj hft
    obtain rfl := Option.some.inj hrt
    simp [LType.params, hslots]
  · rw [if_neg hdisp] at hft
    obtain rfl := Option.some.inj hft
    simp [LType.params, hslots, hdisp]

theorem chainValue_type (chain : Option Value) :
    ((chain.map chainValue).getD (.undef llvmPtrType)).type = llvmPtrType := by
  cases chain with
  | none => rfl
  | some v =>
    simp only [Option.map_some, Option.getD_some, chainValue]
    split_ifs with h
    · exact h
    · rfl

/-- A call pushes values of exactly the types that the LLVM function has, reading only
memory that holds the arguments, when every argument is passable for its parameter. -/
theorem callArgs_passes_iff (c : CircularTypes) {paramTypes : List Btype} {resultType : Btype}
    {oracle : CABIOracle} {args : List Bexpression} (hgo : ∀ bt ∈ paramTypes, isGoType bt)
    (horacle : analyze paramTypes resultType true = some oracle)
    (hargs : ArgsMatch args paramTypes) (sretTemp : ℕ) (chain : Option Value) :
    Passes (callArgs c oracle paramTypes resultType sretTemp chain args)
        oracle.fcnTypeForABI.params ↔
      List.Forall₂ (Passable c) oracle.paramInfos args := by
  obtain ⟨hparams, s, s', hinfos⟩ := params_of_analyze horacle
  obtain ⟨-, hidden, hnum⟩ := CABIOracle.numbered_of_analyze horacle
  obtain ⟨temp, hprolog, -⟩ := hnum.prolog resultType sretTemp (chain.map chainValue)
  have hplain : ∀ bt ∈ paramTypes, bt.type.isPlain := fun bt hbt =>
    isGoType_isPlain bt (hgo bt hbt)
  have htypes : ((if oracle.returnInfo.disp = indirect then
      [Value.alloca sretTemp resultType.type] else []) ++
        [(chain.map chainValue).getD (.undef llvmPtrType)]).map Value.type =
      (if oracle.returnInfo.disp = indirect then [ptr resultType.type] else []) ++
        [llvmPtrType] := by
    rw [List.map_append, List.map_singleton, chainValue_type]
    split_ifs <;> rfl
  rw [← genCallMarshallArgs_passes (passedAs_of_analyzeABIParams hgo hinfos) hnum.params hargs
    hplain _ [] _ htypes (by simp)]
  simp only [callArgs, hprolog, Option.bind_eq_bind, Option.bind_some]
  rw [hparams, List.append_assoc, List.singleton_append]

theorem isPointerTy_of_none {t : Btype} (h : none = some t) : t.type.isPointerTy :=
  absurd h (Option.some_ne_none t).symm

/-- A program without circular pointer types. -/
def noCircularTypes : CircularTypes := ⟨fun _ => none, fun _ => false, isPointerTy_of_none⟩

/-- `func(struct { int64; float64 }, [20]uint32, uint8)`. -/
def mixedParams : List Btype :=
  [.struct none [.integer false 64, .float .f64], .array (.integer true 32) 20, .integer true 8]

def mixedOracle : CABIOracle where
  returnInfo := ⟨[void], ignore, .none, -1⟩
  chainInfo := ⟨[llvmPtrType], direct, .nest, 0⟩
  paramInfos := [⟨[int 64, double], direct, .none, 1⟩,
    ⟨[ptr (array (int 32) 20)], indirect, .byVal, 3⟩, ⟨[int 8], direct, .zext, 4⟩]
  fcnTypeForABI := .func void
    [llvmPtrType, int 64, double, ptr (array (int 32) 20), int 8]

/-- A constant pair, a local array and a local integer. -/
def mixedArgs : List Bexpression :=
  [.expr (.struct none [.integer false 64, .float .f64])
      (.constant 0 (.struct none [int 64, double])) {},
    .expr (.array (.integer true 32) 20) (.alloca 1 (array (int 32) 20)) { pending := true },
    .expr (.integer true 8) (.alloca 2 (int 8)) { pending := true }]

theorem callArgs_passes_mixed :
    Passes (callArgs noCircularTypes mixedOracle mixedParams voidType 0 none mixedArgs)
      mixedOracle.fcnTypeForABI.params := by
  have hargs : ArgsMatch mixedArgs mixedParams := by
    refine .cons ⟨rfl, rfl⟩ (.cons ⟨.inl ⟨rfl, rfl⟩, rfl⟩ (.cons ⟨.inl ⟨rfl, rfl⟩, rfl⟩ .nil))
  refine (callArgs_passes_iff noCircularTypes (by decide) rfl hargs 0 none).mpr ?_
  refine .cons rfl (.cons (fun h => absurd h Bool.false_ne_true) (.cons (fun _ _ => ?_) .nil))
  exact ⟨Bool.false_ne_true, nofun⟩

/-- `func(struct { int32; int32 })`, called with a constant: it is cast to a pointer. -/
def smallOracle : CABIOracle where
  returnInfo := ⟨[void], ignore, .none, -1⟩
  chainInfo := ⟨[llvmPtrType], direct, .nest, 0⟩
  paramInfos := [⟨[int 64], direct, .none, 1⟩]
  fcnTypeForABI := .func void [llvmPtrType, int 64]

def smallConstant : Bexpression :=
  .expr (.struct none [.integer false 32, .integer false 32])
    (.constant 0 (.struct none [int 32, int 32])) {}

theorem not_callArgs_passes_constant :
    analyze [smallConstant.btype] voidType true = some smallOracle ∧
      ArgsMatch [smallConstant] [smallConstant.btype] ∧
      ¬Passes (callArgs noCircularTypes smallOracle [smallConstant.btype] voidType 0 none
        [smallConstant]) smallOracle.fcnTypeForABI.params := by
  refine ⟨rfl, .cons ⟨rfl, rfl⟩ .nil, ?_⟩
  rintro ⟨state, h, -, haccs⟩
  obtain rfl := Option.some.inj h
  have hden := haccs ⟨.constant 0 (.struct none [int 32, int 32]), smallConstant, none⟩
    (List.mem_cons_self ..)
  cases hden.denotes with
  | reference hvc => cases hvc

end Dragongo
