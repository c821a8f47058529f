import Dragongo.Constructors

/-!
# Chains of references

A variable, a field or an element of what a chain names, and what a pointer that a chain names
points to.  The value that is built for a chain is the address of its place until the context is
known, and taking the address of the place takes no code.
-/

namespace Dragongo
open LType Varexpr_context

/-! ## The constructors of the backend -/

namespace Value

def isConstantArray : Value → Bool
  | constantComposite t _ => t.isArrayTy
  | _ => false

end Value

def varExpression (bt : Btype) (v : Value) (in_lvalue_pos : Varexpr_context) : Bexpression :=
  .expr bt v { pending := true, lvalue := in_lvalue_pos = VE_lvalue, addrLevel := 0 }

/-- A context is passed on only while it is pending. -/
def VarContext.handedOn (vc : VarContext) : VarContext := if vc.pending then vc else {}

def structFieldExpression (bstruct : Bexpression) (index : ℕ) : Option Bexpression :=
  match bstruct with
  | .expr bt v vc =>
    if bt.type.isStructTy ∧ v.type = ptr bt.type ∧ index < bt.type.numElements then
      (elementTypeByIndex bt index).map fun bft =>
        .expr bft (.field v bt.type index) vc.handedOn
    else none
  | .compositeInit .. => none

/-- `LLVM`'s type of C strings. -/
def stringType : LType := ptr (int 8)

/-- The address operator; what is a pointer in LLVM already is not touched.  Circular pointer
types are left out. -/
def addressExpression (bexpr : Bexpression) : Option Bexpression :=
  match bexpr with
  | .expr bt v vc =>
    if v.isConstantArray then some bexpr
    else if v.type = stringType ∧ v.isConstant then some bexpr
    else do
      let val ← if v.isConstant then genVarForConstant v bt else some v
      some (.expr (.pointer bt.type) val
        { pending := true, lvalue := vc.lvalue, addrLevel := vc.addrLevel + 1 })
  | .compositeInit .. => none

section Backend

variable (c : CircularTypes)

def arrayIndexExpression (barray index : Bexpression) : Option Bexpression :=
  match barray, index with
  | .expr bt v vc, .expr ibt iv ivc => do
    let index ← resolveVarContext c ibt iv ivc VE_rvalue
    if bt.type.isArrayTy ∧ v.type = ptr bt.type then
      (elementTypeByIndex bt 0).map fun bet =>
        .expr bet (.element v bt.type index.value) vc.handedOn
    else none
  | _, _ => none

/-- A pointer is loaded and is the address then, or the address operator is undone. -/
def indirectExpression (btype : Btype) (expr : Bexpression) : Option Bexpression :=
  match expr with
  | .expr bt v vc =>
    if ¬bt.type.isPointerTy then none
    else if vc.pending ∧ vc.addrLevel ≠ 0 then
      some (.expr btype v { pending := true, lvalue := vc.lvalue, addrLevel := vc.addrLevel - 1 })
    else if v.type.isPointerTy then
      let rval := loadFromExpr c bt v vc btype
      some (.expr rval.btype rval.value vc.handedOn)
    else none
  | .compositeInit .. => none

end Backend

/-! ## Chains -/

/-- References that start at a variable, and the constants that are indexes. -/
inductive Chain
  | var (bt : Btype) (v : Value)
  | constant (isUnsigned : Bool) (bits : ℕ) (n : ℤ)
  | field (base : Chain) (i : ℕ)
  | index (base i : Chain)
  | address (base : Chain)
  | indirect (bt : Btype) (base : Chain)

namespace Chain

def type : Chain → Btype
  | var bt _ => bt
  | constant isUnsigned bits _ => .integer isUnsigned bits
  | field base i => (elementTypeByIndex base.type i).getD (.aux void)
  | index base _ => (elementTypeByIndex base.type 0).getD (.aux void)
  | address base => .pointer base.type.type
  | indirect bt _ => bt

/-- What the chain names has an address. -/
def IsPlace : Chain → Prop
  | constant .. | address _ => False
  | _ => True

/-- The chain, and the chains in it. -/
def parts : Chain → List Chain
  | ch@(var ..) | ch@(constant ..) => [ch]
  | ch@(field base _) | ch@(address base) | ch@(indirect _ base) => ch :: base.parts
  | ch@(index base i) => ch :: (base.parts ++ i.parts)

/-- The expression that is built, with the variable at its root in an lvalue position or not. -/
def build (c : CircularTypes) : Chain → Varexpr_context → Option Bexpression
  | var bt v, pos => some (varExpression bt v pos)
  | constant isUnsigned bits n, _ =>
    some (.expr (.integer isUnsigned bits) (.constantInt bits n) {})
  | field base i, pos => (base.build c pos).bind fun bstruct => structFieldExpression bstruct i
  | index base i, pos => do
    let barray ← base.build c pos
    let index ← i.build c VE_rvalue
    arrayIndexExpression c barray index
  | address base, pos => (base.build c pos).bind addressExpression
  | indirect bt base, pos => (base.build c pos).bind (indirectExpression c bt)

end Chain

/-- The value of a local variable, a parameter or a global variable. -/
def Value.IsVariable : Value → Prop
  | .alloca .. | .argument .. | .globalVariable .. => True
  | _ => False

/-- An integer type of whole bytes. -/
def Btype.IsIndexType : Btype → Prop
  | .integer _ bits => bits ∈ [8, 16, 32, 64]
  | _ => False

/-- The number that the bytes of an integer are. -/
def Btype.number : Btype → Bytes → ℤ
  | .integer true _, bs => LittleEndian.ofBytes bs
  | _, bs => bs.toIndex

namespace Chain

/-- Fields are selected of structs, elements of arrays, and both are parts of places; addresses
are taken of places. -/
def WellTyped : Chain → Prop
  | var bt v => v.IsVariable ∧ v.type = ptr bt.type
  | constant isUnsigned bits _ => (Btype.integer isUnsigned bits).IsIndexType
  | field base i => base.WellTyped ∧ base.IsPlace ∧
    ∃ id fields, base.type = .struct id fields ∧ i < fields.length
  | index base i => (base.WellTyped ∧ base.IsPlace ∧ ∃ elem n, base.type = .array elem n) ∧
    i.WellTyped ∧ i.type.IsIndexType
  | address base => base.WellTyped ∧ base.IsPlace
  | indirect bt base => base.WellTyped ∧ base.type.type = ptr bt.type

/-! ## What a chain means -/

/-- The address of the place that a chain names, and its contents; the value of what is no
place. -/
def meaning (M : Machine) : Chain → BitVec 64 × Bytes
  | var bt v => place bt (M.address v)
  | constant _ bits n => (0, M.bytes (.constantInt bits n))
  | field base i => place (field base i).type
    ((base.meaning M).1 + BitVec.ofNat 64 (base.type.type.partOffset i))
  | index base i => place (index base i).type ((base.meaning M).1 +
    BitVec.ofInt 64 (i.type.number (i.meaning M).2 * base.type.type.partSize 0))
  | address base => (0, Bytes.ofAddress (base.meaning M).1)
  | indirect bt base => place bt (base.meaning M).2.toAddress
where
  /-- A place of a type, with what is there. -/
  place (bt : Btype) (a : BitVec 64) : BitVec 64 × Bytes := (a, M.contents bt.type a)

/-- The chain is built and resolved, and its code runs and gives `P`. -/
def Gives (c : CircularTypes) (M : Machine) (ch : Chain) (pos ctx : Varexpr_context)
    (P : Machine → Value → Prop) : Prop :=
  ∃ e r M', ch.build c pos = some e ∧ resolve c e ctx = some r ∧
    (∀ n, r.value.code.RunsInOrder n) ∧ M.run r.value.code.insts = some M' ∧
      M'.memory = M.memory ∧ P M' r.value

/-- In an lvalue context a chain that names a place is its address, and in an rvalue context a
chain is the contents, or the value. -/
structure Denotes (c : CircularTypes) (M : Machine) (ch : Chain) : Prop where
  lvalue : ch.IsPlace → ∀ pos, ch.Gives c M pos VE_lvalue fun M' v => M'.address v = (ch.meaning M).1
  rvalue : ch.Gives c M VE_rvalue VE_rvalue fun M' v => M'.bytes v = (ch.meaning M).2

/-! ## When it is right -/

/-- A global variable, or its address. -/
def IsGlobal : Chain → Prop
  | var _ v => v.isModuleVar
  | address base | indirect _ (address base) => base.IsGlobal
  | _ => False

/-- A global variable or a fixed part of one, or the address of that. -/
def IsInGlobal : Chain → Prop
  | var _ v => v.isModuleVar
  | field base _ | index base (constant ..) => base.IsInGlobal
  | address base | indirect _ (address base) => base.IsInGlobal
  | _ => False

/-- The address operator is applied to no part of a global variable whose place is a constant,
and to no global variable whose address has the type of C strings; an index is the number that it
is when its type is taken for one with a sign. -/
def Fits (M : Machine) : Chain → Prop
  | address base => base.IsInGlobal → base.IsGlobal ∧ base.type.type ≠ int 8
  | index base i =>
    BitVec.ofInt 64 ((i.meaning M).2.toIndex * base.type.type.partSize 0) =
      BitVec.ofInt 64 (i.type.number (i.meaning M).2 * base.type.type.partSize 0)
  | _ => True

/-! ## What is built -/

/-- The value in an rvalue context: a place is loaded from. -/
def loaded (ch : Chain) (v : Value) : Value :=
  match ch with
  | constant .. | address _ => v
  | _ => .load v

def value : Chain → Value
  | var _ v => v
  | constant _ bits n => .constantInt bits n
  | field base i => .field base.value base.type.type i
  | index base i => .element base.value base.type.type (i.loaded i.value)
  | address base => base.value
  | indirect _ base => base.loaded base.value

def context (pos : Varexpr_context) : Chain → VarContext
  | constant .. => {}
  | address _ => { pending := true, lvalue := pos = VE_lvalue, addrLevel := 1 }
  | _ => { pending := true, lvalue := pos = VE_lvalue, addrLevel := 0 }

section Built

variable {c : CircularTypes} {M : Machine} {ch base i : Chain} {pos : Varexpr_context}

theorem mem_parts_self (ch : Chain) : ch ∈ ch.parts := by
  cases ch <;> exact List.mem_cons_self

theorem loaded_place (h : ch.IsPlace) (v : Value) : ch.loaded v = .load v := by
  cases ch with
  | constant | address => cases h
  | _ => rfl

theorem context_place (h : ch.IsPlace) (pos : Varexpr_context) :
    ch.context pos = { pending := true, lvalue := pos = VE_lvalue, addrLevel := 0 } := by
  cases ch with
  | constant | address => cases h
  | _ => rfl

/-- A place is a pointer to it, and what is no place has its own type. -/
theorem type_value (h : ch.WellTyped) : (ch.IsPlace → ch.value.type = ptr ch.type.type) ∧
    (ch.loaded ch.value).type = ch.type.type := by
  induction ch with
  | var bt v => exact ⟨fun _ => h.2, congrArg pointeeType h.2⟩
  | constant isUnsigned bits n => exact ⟨fun hp => hp.elim, rfl⟩
  | field base i ih =>
    obtain ⟨-, -, id, fields, hbase, hi⟩ := h
    have htype : (field base i).value.type = ptr (field base i).type.type := by
      rw [value, type, Value.type, hbase, elementTypeByIndex, List.getElem?_eq_getElem hi,
        Btype.type, typeAtIndex, types_eq_map, List.getD_eq_getElem?_getD, List.getElem?_map,
        List.getElem?_eq_getElem hi]
      rfl
    exact ⟨fun _ => htype, congrArg pointeeType htype⟩
  | index base i ihb ihi =>
    obtain ⟨⟨-, -, elem, n, hbase⟩, -, -⟩ := h
    have htype : (index base i).value.type = ptr (index base i).type.type := by
      rw [value, type, Value.type, hbase]
      rfl
    exact ⟨fun _ => htype, congrArg pointeeType htype⟩
  | address base ih => exact ⟨fun hp => hp.elim, (ih h.1).1 h.2⟩
  | indirect bt base ih =>
    have htype : (indirect bt base).value.type = ptr (indirect bt base).type.type :=
      (ih h.1).2.trans h.2
    exact ⟨fun _ => htype, congrArg pointeeType htype⟩

theorem isConstant_isVariable {v : Value} (h : v.IsVariable) :
    v.isConstant = v.isModuleVar := by
  cases v with
  | alloca | argument | globalVariable => rfl
  | _ => cases h

/-- Addresses of global variables and of fixed parts of them are constants. -/
theorem isConstant_value (h : ch.WellTyped) (hc : ∀ isUnsigned bits n,
      ch ≠ constant isUnsigned bits n) :
    (ch.value.isConstant ↔ ch.IsInGlobal) ∧ (ch.value.isModuleVar ↔ ch.IsGlobal) := by
  have hplace : ∀ {ch : Chain}, ch.IsPlace → ∀ isUnsigned bits n,
      ch ≠ constant isUnsigned bits n := by
    rintro _ hp isUnsigned bits n rfl
    exact hp
  induction ch with
  | var bt v => exact ⟨by rw [value, isConstant_isVariable h.1]; rfl, Iff.rfl⟩
  | constant isUnsigned bits n => exact absurd rfl (hc isUnsigned bits n)
  | field base i ih =>
    exact ⟨(ih h.1 (hplace h.2.1)).1, iff_of_false Bool.false_ne_true id⟩
  | index base i ihb ihi =>
    obtain ⟨⟨hb, hbp, -⟩, hi, hitype⟩ := h
    refine ⟨?_, iff_of_false Bool.false_ne_true id⟩
    rw [value, Value.isConstant, Bool.and_eq_true, (ihb hb (hplace hbp)).1]
    cases i with
    | constant => exact and_iff_left rfl
    | address => exact hitype.elim
    | _ => exact iff_of_false (fun h => Bool.false_ne_true h.2) id
  | address base ih => exact ih h.1 (hplace h.2)
  | indirect bt base ih =>
    cases base with
    | constant => exact absurd h.2 LType.noConfusion
    | address base => exact ih h.1 fun _ _ _ => Chain.noConfusion
    | _ => exact ⟨iff_of_false Bool.false_ne_true id, iff_of_false Bool.false_ne_true id⟩

/-- The expression that is built for a chain. -/
def built (ch : Chain) (pos : Varexpr_context) : Bexpression :=
  .expr ch.type ch.value (ch.context pos)

theorem resolve_lvalue (hp : ch.IsPlace) (pos : Varexpr_context) :
    resolve c (ch.built pos) VE_lvalue = some ⟨ch.type, ch.value, []⟩ := by
  rw [built, resolve, context_place hp]
  simp [resolveVarContext]

theorem resolve_rvalue (hc : ∀ bt, c.loadConversion bt = none) (ch : Chain) :
    ∃ r, resolve c (ch.built VE_rvalue) VE_rvalue = some r ∧ r.value = ch.loaded ch.value := by
  by_cases hp : ch.IsPlace
  · rw [built, resolve, context_place hp, loaded_place hp]
    refine ⟨loadFromExpr c ch.type ch.value { pending := true } ch.type,
      by simp [resolveVarContext], ?_⟩
    rw [loadFromExpr, hc]
  · cases ch with
    | constant => exact ⟨_, rfl, rfl⟩
    | address base => exact ⟨_, rfl, rfl⟩
    | _ => exact absurd trivial hp

theorem structFieldExpression_built {i : ℕ} (h : (field base i).WellTyped) :
    structFieldExpression (base.built pos) i = some ((field base i).built pos) := by
  obtain ⟨hb, hp, id, fields, hbase, hi⟩ := h
  have hlt : i < base.type.type.numElements := by
    rw [hbase, Btype.type, types_eq_map, numElements, List.length_map]
    exact hi
  have hstruct : base.type.type.isStructTy := by rw [hbase]; rfl
  have hfield : elementTypeByIndex base.type i = some (field base i).type := by
    rw [type, hbase, elementTypeByIndex, List.getElem?_eq_getElem hi]
    rfl
  rw [built, structFieldExpression, if_pos ⟨hstruct, (type_value hb).1 hp, hlt⟩, hfield,
    context_place hp]
  rfl

theorem arrayIndexExpression_built (hc : ∀ bt, c.loadConversion bt = none)
    (h : (index base i).WellTyped) :
    arrayIndexExpression c (base.built pos) (i.built VE_rvalue) =
      some ((index base i).built pos) := by
  obtain ⟨⟨hb, hp, elem, n, hbase⟩, -, -⟩ := h
  obtain ⟨r, hr, hvalue⟩ := resolve_rvalue (c := c) hc i
  have harray : base.type.type.isArrayTy := by rw [hbase]; rfl
  have helem : elementTypeByIndex base.type 0 = some (index base i).type := by
    rw [type, hbase]
    rfl
  rw [built, resolve] at hr
  rw [built, built, arrayIndexExpression, hr, Option.bind_eq_bind, Option.bind_some,
    if_pos ⟨harray, (type_value hb).1 hp⟩, helem, hvalue, context_place hp]
  rfl

theorem not_isConstantArray (h : ch.WellTyped) (hp : ch.IsPlace) : ¬ch.value.isConstantArray := by
  have htype := (type_value h).1 hp
  intro harray
  cases hv : ch.value with
  | constantComposite t elems =>
    rw [hv] at htype harray
    cases (congrArg isArrayTy htype).symm.trans harray
  | _ =>
    rw [hv] at harray
    cases harray

theorem ne_constant (hp : ch.IsPlace) (isUnsigned : Bool) (bits : ℕ) (n : ℤ) :
    ch ≠ constant isUnsigned bits n := by
  rintro rfl
  exact hp

theorem addressExpression_built (h : base.WellTyped) (hp : base.IsPlace)
    (hf : (address base).Fits M) :
    addressExpression (base.built pos) = some ((address base).built pos) := by
  obtain ⟨hconst, hvar⟩ := isConstant_value h (ne_constant hp)
  have htype := (type_value h).1 hp
  rw [built, addressExpression, if_neg (not_isConstantArray h hp), context_place hp]
  by_cases hv : base.value.isConstant
  · obtain ⟨hglobal, hne⟩ := hf (hconst.mp hv)
    have hstring : ¬(base.value.type = stringType ∧ base.value.isConstant) := by
      rintro ⟨hs, -⟩
      exact hne (LType.ptr.inj (htype.symm.trans hs))
    rw [if_neg hstring, if_pos hv, genVarForConstant, if_pos (hvar.mpr hglobal)]
    rfl
  · rw [if_neg fun hs => hv hs.2, if_neg hv]
    rfl

/-- Otherwise it fails, or gives what it is applied to. -/
theorem type_of_not_fits (h : base.WellTyped) (hp : base.IsPlace) (hf : ¬(address base).Fits M)
    {e : Bexpression} (he : addressExpression (base.built pos) = some e) :
    e = base.built pos ∧ base.type.type = int 8 := by
  obtain ⟨hconst, hvar⟩ := isConstant_value h (ne_constant hp)
  have htype := (type_value h).1 hp
  rw [Fits, Classical.not_imp, not_and, not_not] at hf
  obtain ⟨hin, hglobal⟩ := hf
  have hv := hconst.mpr hin
  rw [built, addressExpression, if_neg (not_isConstantArray h hp)] at he
  by_cases hs : base.type.type = int 8
  · rw [if_pos ⟨by rw [htype, hs]; rfl, hv⟩] at he
    exact ⟨(Option.some.inj he).symm, hs⟩
  · have hstring : ¬(base.value.type = stringType ∧ base.value.isConstant) := by
      rintro ⟨hs', -⟩
      exact hs (LType.ptr.inj (htype.symm.trans hs'))
    have hnot : ¬base.value.isModuleVar := fun hm => hs (hglobal (hvar.mp hm))
    rw [if_neg hstring, if_pos hv, genVarForConstant, if_neg hnot, htype,
      if_neg (ptr_ne _)] at he
    cases he

theorem indirectExpression_built (hc : ∀ bt, c.loadConversion bt = none) {bt : Btype}
    (h : (indirect bt base).WellTyped) :
    indirectExpression c bt (base.built pos) = some ((indirect bt base).built pos) := by
  have hptr : base.type.type.isPointerTy := by rw [h.2]; rfl
  rw [built, indirectExpression, if_neg (not_not.mpr hptr)]
  by_cases hp : base.IsPlace
  · have hv : base.value.type.isPointerTy := by rw [(type_value h.1).1 hp]; rfl
    rw [context_place hp, if_neg (fun h0 => h0.2 rfl), if_pos hv, loadFromExpr, hc]
    rw [built, value, loaded_place hp]
    rfl
  · cases base with
    | constant => exact absurd h.2 LType.noConfusion
    | address base => rfl
    | _ => exact absurd trivial hp

theorem build_eq (hc : ∀ bt, c.loadConversion bt = none) (h : ch.WellTyped)
    (hf : ∀ s ∈ ch.parts, s.Fits M) : ∀ pos, ch.build c pos = some (ch.built pos) := by
  induction ch with
  | var bt v => exact fun pos => rfl
  | constant => exact fun pos => rfl
  | field base i ih =>
    intro pos
    rw [build, ih h.1 (List.forall_mem_cons.mp hf).2 pos]
    exact structFieldExpression_built h
  | index base i ihb ihi =>
    intro pos
    obtain ⟨hfb, hfi⟩ := List.forall_mem_append.mp (List.forall_mem_cons.mp hf).2
    rw [build, ihb h.1.1 hfb pos, ihi h.2.1 hfi VE_rvalue]
    exact arrayIndexExpression_built hc h
  | address base ih =>
    intro pos
    obtain ⟨hfits, hfb⟩ := List.forall_mem_cons.mp hf
    rw [build, ih h.1 hfb pos, Option.bind_some, addressExpression_built h.1 h.2 hfits]
  | indirect bt base ih =>
    intro pos
    rw [build, ih h.1 (List.forall_mem_cons.mp hf).2 pos]
    exact indirectExpression_built hc h

/-! ## The value and the meaning -/

theorem meaning_place (hp : ch.IsPlace) :
    (ch.meaning M).2 = M.contents ch.type.type (ch.meaning M).1 := by
  cases ch with
  | constant | address => cases hp
  | _ => rfl

/-- The value of a place is its address, and that of a chain what the chain means. -/
structure Valued (M : Machine) (ch : Chain) : Prop where
  place : ch.IsPlace → M.address ch.value = (ch.meaning M).1 ∧ (M.bytes ch.value).length = 8
  bytes : M.bytes (ch.loaded ch.value) = (ch.meaning M).2

theorem valued_of_place (hfresh : ∀ a, M.loaded a = none) (h : ch.WellTyped) (hp : ch.IsPlace)
    (ha : M.address ch.value = (ch.meaning M).1) (hlen : (M.bytes ch.value).length = 8) :
    ch.Valued M where
  place _ := ⟨ha, hlen⟩
  bytes := by
    rw [loaded_place hp, Machine.bytes_load_of_fresh (hfresh _), (type_value h).1 hp, ha,
      meaning_place hp]
    rfl

theorem ofAddress_toAddress {bs : Bytes} (h : bs.length = 8) :
    Bytes.ofAddress (Bytes.toAddress bs) = bs := by
  have hlt : LittleEndian.ofBytes bs < 2 ^ 64 := by
    have hread := @LittleEndian.read_lt (fun i => bs.getD i 0) bs.length
    rw [h] at hread
    rw [LittleEndian.ofBytes, h]
    exact hread
  rw [Bytes.ofAddress, Bytes.toAddress, BitVec.toNat_ofNat, Nat.mod_eq_of_lt hlt, ← h]
  exact LittleEndian.bytes_ofBytes bs

theorem length_ofAddress (a : BitVec 64) : (Bytes.ofAddress a).length = 8 :=
  LittleEndian.length_bytes 8 a.toNat

theorem valued_field {i : ℕ} (hfresh : ∀ a, M.loaded a = none) (h : (field base i).WellTyped)
    (hb : base.Valued M) : (field base i).Valued M := by
  refine valued_of_place hfresh h trivial ?_ ?_
  · rw [value, Machine.address, Machine.bytes, Bytes.toAddress_ofAddress]
    exact congrArg (· + _) (hb.place h.2.1).1
  · rw [value, Machine.bytes]
    exact length_ofAddress _

/-- The address of an element, with the index taken for a number with a sign. -/
theorem address_index (h : (index base i).WellTyped) (hb : base.Valued M) (hi : i.Valued M) :
    M.address (index base i).value = (base.meaning M).1 +
      BitVec.ofInt 64 ((i.meaning M).2.toIndex * base.type.type.partSize 0) := by
  rw [value, Machine.address, Machine.bytes, Bytes.toAddress_ofAddress, hi.bytes]
  exact congrArg (· + _) (hb.place h.1.2.1).1

theorem valued_index (hfresh : ∀ a, M.loaded a = none) (h : (index base i).WellTyped)
    (hb : base.Valued M) (hi : i.Valued M) (hf : (index base i).Fits M) :
    (index base i).Valued M := by
  refine valued_of_place hfresh h trivial ?_ ?_
  · rw [address_index h hb hi, show BitVec.ofInt 64 _ = _ from hf]
    rfl
  · rw [value, Machine.bytes]
    exact length_ofAddress _

theorem valued_address (h : (address base).WellTyped) (hb : base.Valued M) :
    (address base).Valued M where
  place hp := hp.elim
  bytes := by
    obtain ⟨ha, hlen⟩ := hb.place h.2
    rw [meaning, ← ha]
    exact (ofAddress_toAddress hlen).symm

theorem valued_indirect {bt : Btype} (hfresh : ∀ a, M.loaded a = none)
    (h : (indirect bt base).WellTyped) (hb : base.Valued M) : (indirect bt base).Valued M := by
  refine valued_of_place hfresh h trivial ?_ ?_
  · rw [value, Machine.address, hb.bytes]
    rfl
  · rw [value, hb.bytes]
    by_cases hp : base.IsPlace
    · rw [meaning_place hp, h.2, Machine.contents, Memory.length_read]
      exact allocSize_of_isPointerTy rfl
    · cases base with
      | constant => exact absurd h.2 LType.noConfusion
      | address base => exact length_ofAddress _
      | _ => exact absurd trivial hp

theorem valued (hfresh : ∀ a, M.loaded a = none) (h : ch.WellTyped)
    (hr : ∀ bt v, var bt v ∈ ch.parts → (M.bytes v).length = 8)
    (hf : ∀ s ∈ ch.parts, s.Fits M) : ch.Valued M := by
  induction ch with
  | var bt v => exact valued_of_place hfresh h trivial rfl (hr bt v List.mem_cons_self)
  | constant => exact ⟨fun hp => hp.elim, rfl⟩
  | field base i ih =>
    exact valued_field hfresh h (ih h.1 (fun bt v hv => hr bt v (List.mem_cons_of_mem _ hv))
      (List.forall_mem_cons.mp hf).2)
  | index base i ihb ihi =>
    obtain ⟨hfits, hparts⟩ := List.forall_mem_cons.mp hf
    obtain ⟨hfb, hfi⟩ := List.forall_mem_append.mp hparts
    refine valued_index hfresh h (ihb h.1.1 (fun bt v hv => hr bt v ?_) hfb)
      (ihi h.2.1 (fun bt v hv => hr bt v ?_) hfi) hfits
    · exact List.mem_cons_of_mem _ (List.mem_append_left _ hv)
    · exact List.mem_cons_of_mem _ (List.mem_append_right _ hv)
  | address base ih =>
    exact valued_address h (ih h.1 (fun bt v hv => hr bt v (List.mem_cons_of_mem _ hv))
      (List.forall_mem_cons.mp hf).2)
  | indirect bt base ih =>
    exact valued_indirect hfresh h (ih h.1 (fun bt v hv => hr bt v (List.mem_cons_of_mem _ hv))
      (List.forall_mem_cons.mp hf).2)

/-! ## Chains that are right -/

/-- The code of a value runs, and leaves memory and the value as they are. -/
theorem run_value (hfresh : ∀ a, M.loaded a = none) (v : Value) :
    ∃ M', M.run v.code.insts = some M' ∧ M'.memory = M.memory ∧ M'.bytes v = M.bytes v := by
  obtain ⟨M', hrun, hlater, -, -⟩ :=
    (Machine.Later.refl hfresh ∅).run_code v (Set.disjoint_empty _)
  exact ⟨M', hrun, memory_of_later hlater, hlater.bytes_eq v (Set.disjoint_empty _)⟩

theorem gives_of {ctx : Varexpr_context} {e : Bexpression} {r : Resolved}
    {P : Machine → Value → Prop} (hfresh : ∀ a, M.loaded a = none) (he : ch.build c pos = some e)
    (hr : resolve c e ctx = some r) (hP : ∀ M', M'.bytes r.value = M.bytes r.value → P M' r.value) :
    ch.Gives c M pos ctx P := by
  obtain ⟨M', hrun, hmem, hbytes⟩ := run_value hfresh r.value
  exact ⟨e, r, M', he, hr, Code.runsInOrder _, hrun, hmem, hP M' hbytes⟩

theorem Gives.elim {ctx : Varexpr_context} {P : Machine → Value → Prop}
    (h : ch.Gives c M pos ctx P) (hfresh : ∀ a, M.loaded a = none) :
    ∃ e r M', ch.build c pos = some e ∧ resolve c e ctx = some r ∧
      M'.bytes r.value = M.bytes r.value ∧ P M' r.value := by
  obtain ⟨e, r, M', he, hr, -, hrun, -, hP⟩ := h
  obtain ⟨M'', hrun', -, hbytes⟩ := run_value hfresh r.value
  cases hrun.symm.trans hrun'
  exact ⟨e, r, M', he, hr, hbytes, hP⟩

/-- What a chain is evaluated in: no load has run, addresses of variables have 8 bytes, and there
are no circular pointer types. -/
structure Evaluable (c : CircularTypes) (M : Machine) (ch : Chain) : Prop where
  noCircular : ∀ bt, c.loadConversion bt = none
  fresh : ∀ a, M.loaded a = none
  rooted : ∀ bt v, var bt v ∈ ch.parts → (M.bytes v).length = 8

theorem denotes_of_fits (hM : ch.Evaluable c M) (h : ch.WellTyped)
    (hf : ∀ s ∈ ch.parts, s.Fits M) : ch.Denotes c M := by
  have hv := valued hM.fresh h hM.rooted hf
  have hbuild := build_eq hM.noCircular h hf
  constructor
  · intro hp pos
    refine gives_of hM.fresh (hbuild pos) (resolve_lvalue hp pos) fun M' hbytes => ?_
    rw [Machine.address, hbytes]
    exact (hv.place hp).1
  · obtain ⟨r, hr, hvalue⟩ := resolve_rvalue hM.noCircular ch
    refine gives_of hM.fresh (hbuild VE_rvalue) hr fun M' hbytes => ?_
    rw [hbytes, hvalue]
    exact hv.bytes

/-- The parts of a well-typed chain are well typed. -/
theorem wellTyped_parts (h : ch.WellTyped) : ∀ s ∈ ch.parts, s.WellTyped := by
  induction ch with
  | var | constant => exact List.forall_mem_singleton.mpr h
  | field base i ih | address base ih | indirect bt base ih =>
    exact List.forall_mem_cons.mpr ⟨h, ih h.1⟩
  | index base i ihb ihi =>
    exact List.forall_mem_cons.mpr
      ⟨h, List.forall_mem_append.mpr ⟨ihb h.1.1, ihi h.2.1⟩⟩

theorem parts_subset : ∀ s ∈ ch.parts, s.parts ⊆ ch.parts := by
  induction ch with
  | var | constant => exact List.forall_mem_singleton.mpr (List.Subset.refl _)
  | field base i ih | address base ih | indirect bt base ih =>
    refine List.forall_mem_cons.mpr ⟨List.Subset.refl _, fun s hs => ?_⟩
    exact List.Subset.trans (ih s hs) (List.subset_cons_self _ _)
  | index base i ihb ihi =>
    refine List.forall_mem_cons.mpr ⟨List.Subset.refl _, List.forall_mem_append.mpr ⟨?_, ?_⟩⟩
    · intro s hs
      exact List.Subset.trans (ihb s hs)
        (List.subset_cons_of_subset _ (List.subset_append_left _ _))
    · intro s hs
      exact List.Subset.trans (ihi s hs)
        (List.subset_cons_of_subset _ (List.subset_append_right _ _))

theorem Evaluable.part {s : Chain} (hM : ch.Evaluable c M) (hs : s ∈ ch.parts) :
    s.Evaluable c M :=
  { hM with rooted := fun bt v hv => hM.rooted bt v (parts_subset s hs hv) }

/-- The address operator fits where what it builds is the address. -/
theorem fits_address (hM : (address base).Evaluable c M) (h : (address base).WellTyped)
    (hb : ∀ s ∈ base.parts, s.Fits M) (hd : (address base).Denotes c M) :
    (address base).Fits M := by
  by_contra hf
  obtain ⟨e, r, M', he, hr, hbytes, hv⟩ := hd.rvalue.elim hM.fresh
  rw [build, build_eq hM.noCircular h.1 hb VE_rvalue] at he
  obtain ⟨rfl, htype⟩ := type_of_not_fits h.1 h.2 hf he
  -- what is loaded is a byte, and not an address
  obtain ⟨r', hr', hvalue⟩ := resolve_rvalue (c := c) hM.noCircular base
  cases hr.symm.trans hr'
  rw [hbytes, hvalue, loaded_place h.2, Machine.bytes_load_of_fresh (hM.fresh _),
    (type_value h.1).1 h.2, pointeeType, htype] at hv
  have hlen := congrArg List.length hv
  rw [Machine.contents, Memory.length_read] at hlen
  exact absurd (hlen.trans (length_ofAddress _)) (by decide)

theorem fits_index (hM : (index base i).Evaluable c M) (h : (index base i).WellTyped)
    (hb : ∀ s ∈ base.parts, s.Fits M) (hi : ∀ s ∈ i.parts, s.Fits M)
    (hd : (index base i).Denotes c M) : (index base i).Fits M := by
  have hbuild : (index base i).build c VE_rvalue = some ((index base i).built VE_rvalue) := by
    rw [build, build_eq hM.noCircular h.1.1 hb, build_eq hM.noCircular h.2.1 hi]
    exact arrayIndexExpression_built hM.noCircular h
  have hvb : base.Valued M := valued hM.fresh h.1.1
    (fun bt v hv => hM.rooted bt v (List.mem_cons_of_mem _ (List.mem_append_left _ hv))) hb
  have hvi : i.Valued M := valued hM.fresh h.2.1
    (fun bt v hv => hM.rooted bt v (List.mem_cons_of_mem _ (List.mem_append_right _ hv))) hi
  obtain ⟨e, r, M', he, hr, hbytes, ha⟩ := (hd.lvalue trivial VE_rvalue).elim hM.fresh
  cases hbuild.symm.trans he
  have hplace : (index base i).IsPlace := trivial
  cases (resolve_lvalue (c := c) hplace VE_rvalue).symm.trans hr
  have haddr : M.address (index base i).value = ((index base i).meaning M).1 := by
    rw [← ha, Machine.address, Machine.address, hbytes]
  rw [address_index h hvb hvi] at haddr
  exact (BitVec.add_right_inj _).mp haddr

/-- A chain and all chains in it denote what they mean just if they fit. -/
theorem denotes_iff (hM : ch.Evaluable c M) (h : ch.WellTyped) :
    (∀ s ∈ ch.parts, s.Denotes c M) ↔ ∀ s ∈ ch.parts, s.Fits M := by
  constructor
  · intro hd
    induction ch with
    | var | constant => exact List.forall_mem_singleton.mpr trivial
    | field base i ih | indirect bt base ih =>
      refine List.forall_mem_cons.mpr ⟨trivial, ?_⟩
      exact ih (hM.part (List.mem_cons_of_mem _ base.mem_parts_self)) h.1
        (List.forall_mem_cons.mp hd).2
    | index base i ihb ihi =>
      obtain ⟨htop, hparts⟩ := List.forall_mem_cons.mp hd
      obtain ⟨hdb, hdi⟩ := List.forall_mem_append.mp hparts
      have hb := ihb (hM.part (List.mem_cons_of_mem _
        (List.mem_append_left _ base.mem_parts_self))) h.1.1 hdb
      have hi := ihi (hM.part (List.mem_cons_of_mem _
        (List.mem_append_right _ i.mem_parts_self))) h.2.1 hdi
      exact List.forall_mem_cons.mpr
        ⟨fits_index hM h hb hi htop, List.forall_mem_append.mpr ⟨hb, hi⟩⟩
    | address base ih =>
      obtain ⟨htop, hparts⟩ := List.forall_mem_cons.mp hd
      have hb := ih (hM.part (List.mem_cons_of_mem _ base.mem_parts_self)) h.1 hparts
      exact List.forall_mem_cons.mpr ⟨fits_address hM h hb htop, hb⟩
  · intro hf s hs
    exact denotes_of_fits (hM.part hs) (wellTyped_parts h s hs)
      fun s' hs' => hf s' (parts_subset s hs hs')

end Built

/-- `&(*p)[1]`, where `p` is a local variable that points to a `[2]int`. -/
def elementOfPointer : Chain :=
  address (index (indirect twoInts (var (.pointer twoInts.type) (.alloca 0 (.ptr twoInts.type))))
    (constant false 64 1))

/-- Zeros, and all variables at address 0. -/
def allZeros : Machine where
  memory _ := 0
  known _ := List.replicate 8 0
  loaded _ := none

theorem evaluable_allZeros {ch : Chain} (h : ch.WellTyped) :
    ch.Evaluable noCircularPointers.toCircularTypes allZeros where
  noCircular _ := rfl
  fresh _ := rfl
  rooted bt v hv := by
    have hvar : v.IsVariable := (wellTyped_parts h _ hv).1
    cases v with
    | alloca | argument | globalVariable => rfl
    | _ => cases hvar

theorem elementOfPointer_denotes :
    elementOfPointer.Denotes noCircularPointers.toCircularTypes allZeros := by
  have hbits : (Btype.integer false 64).IsIndexType :=
    List.mem_cons_of_mem _ (List.mem_cons_of_mem _ (List.mem_cons_of_mem _ (.head _)))
  have h : elementOfPointer.WellTyped :=
    ⟨⟨⟨⟨⟨trivial, rfl⟩, rfl⟩, trivial, _, _, rfl⟩, hbits, hbits⟩, trivial⟩
  refine (denotes_iff (evaluable_allZeros h) h).mpr ?_ _ elementOfPointer.mem_parts_self
  exact List.forall_mem_cons.mpr ⟨fun hin => hin.elim, List.forall_mem_cons.mpr ⟨rfl,
    List.forall_mem_cons.mpr ⟨trivial, List.forall_mem_cons.mpr ⟨trivial,
      List.forall_mem_singleton.mpr trivial⟩⟩⟩⟩

/-- `&g`, where `g` is a global variable of type `uint8`. -/
def addressOfByte : Chain := address (var (.integer true 8) (.globalVariable 0 (.int 8)))

/-- The address operator gives the variable itself, and a load from it. -/
theorem not_denotes_addressOfByte :
    (addressOfByte.WellTyped ∧
      addressOfByte.Evaluable noCircularPointers.toCircularTypes allZeros) ∧
      ¬addressOfByte.Denotes noCircularPointers.toCircularTypes allZeros := by
  have h : addressOfByte.WellTyped := ⟨⟨trivial, rfl⟩, trivial⟩
  have hM := evaluable_allZeros h
  refine ⟨⟨h, hM⟩, fun hd => ?_⟩
  exact (fits_address hM h (List.forall_mem_singleton.mpr trivial) hd rfl).2 rfl

end Chain
end Dragongo
