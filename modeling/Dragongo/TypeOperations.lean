import Dragongo.Bexpression
import Dragongo.TypeManager

/-!
# The operations of the type manager

The rest of what the frontend can ask the type manager for, and the runs made of it.
-/

namespace Dragongo
open LType

namespace LType

/-- The identified struct that a pointer or an array leads to. -/
def base : LType → Option ℕ
  | ptr pointee => base pointee
  | array elem _ => base elem
  | structRef id => some id
  | _ => none

mutual
/-- The type with other types in the place of the identified structs it holds by value. -/
def mapRefs (f : ℕ → LType) : LType → LType
  | structRef id => f id
  | array elem n => .array (mapRefs f elem) n
  | struct id fields => .struct id (mapRefsAll f fields)
  | t => t
def mapRefsAll (f : ℕ → LType) : List LType → List LType
  | [] => []
  | t :: ts => mapRefs f t :: mapRefsAll f ts
end

mutual
/-- The type with the bodies of identified structs kept apart. -/
def asReference : LType → LType
  | ptr pointee => .ptr (asReference pointee)
  | array elem n => .array (asReference elem) n
  | struct (some id) _ => .structRef id
  | struct none fields => .struct none (asReferences fields)
  | func result params => .func (asReference result) (asReferences params)
  | t => t
def asReferences : List LType → List LType
  | [] => []
  | t :: ts => asReference t :: asReferences ts
end

end LType

namespace BtypeKind

/-- The types that a type is made of. -/
def components : BtypeKind → List BtypeRef
  | pointer t => t.toList
  | array e _ => e.toList
  | struct fields => fields.map (·.btype)
  | function receiverType paramTypes resultTypes resultType _ =>
    receiverType.toList ++ paramTypes ++ resultTypes ++ [resultType]
  | _ => []

/-- Those that `addPlaceholderRefs` looks at. -/
def waitsFor : BtypeKind → List BtypeRef
  | function .. => []
  | k => k.components

/-- Whether no component is missing. -/
def isComplete : BtypeKind → Bool
  | pointer t => t.isSome
  | array e n => e.isSome && n.isSome
  | _ => true

/-- The switch of `Btype::clone`.  The constructors of a pointer and of an array read the flag
of their component, which may be missing, and a float is copied as a mere `Btype`. -/
def clone : BtypeKind → Option BtypeKind
  | pointer none | array none _ => none
  | float _ => some (float none)
  | k => some k

end BtypeKind

def BtypeObject.clone (o : BtypeObject) : Option BtypeObject :=
  o.kind.clone.map fun kind => { o with kind }

section Clone

theorem BtypeKind.clone_eq_some {k k' : BtypeKind} (h : k.clone = some k') :
    k'.flavor = k.flavor ∧ k'.components = k.components ∧ k'.waitsFor = k.waitsFor ∧
      k'.clone = some k' := by
  cases k with
  | float => cases h; exact ⟨rfl, rfl, rfl, rfl⟩
  | pointer t =>
    cases t with
    | none => cases h
    | some => cases h; exact ⟨rfl, rfl, rfl, rfl⟩
  | array e n =>
    cases e with
    | none => cases h
    | some => cases h; exact ⟨rfl, rfl, rfl, rfl⟩
  | _ => cases h; exact ⟨rfl, rfl, rfl, rfl⟩

theorem BtypeObject.clone_eq_some {o copy : BtypeObject} (h : o.clone = some copy) :
    copy.name = o.name ∧ copy.type = o.type ∧ copy.isPlaceholder = o.isPlaceholder ∧
      o.kind.clone = some copy.kind := by
  obtain ⟨k, hk, rfl⟩ := Option.map_eq_some_iff.mp h
  exact ⟨rfl, rfl, rfl, hk⟩

end Clone

namespace TypeManager

/-! ## LLVM types with the bodies of their structs -/

def expandWithin (bodies : ℕ → Option (List LType)) : ℕ → LType → LType
  | 0, t => t
  | fuel + 1, t => t.mapRefs fun id =>
      match bodies id with
      | some ts => .struct (some id) (ts.map (expandWithin bodies fuel))
      | none => .structRef id

def expand (tm : TypeManager) (t : LType) : LType := expandWithin tm.bodies tm.nextOpaque t

/-- What the C ABI oracle sees of an object.  It asks for the sizes of the types that the
object holds by value, so that one that is not resolved fails an assertion. -/
def toBtypeWithin (tm : TypeManager) : ℕ → BtypeRef → Option Btype
  | 0, _ => none
  | fuel + 1, x =>
    match tm.obj x with
    | none => none
    | some o =>
      if o.isPlaceholder then none
      else match o.kind, o.type with
        | .aux, t => some (.aux t)
        | .integer isUnsigned bits, _ => some (.integer isUnsigned bits)
        | .float _, .float => some (.float .f32)
        | .float _, .double => some (.float .f64)
        | .float _, _ => some (.float .f128)
        | .pointer _, .ptr t => some (.pointer t)
        | .array (some e) (some n), _ => (toBtypeWithin tm fuel e).map fun e => .array e n
        | .struct fields, .structRef id =>
          (fields.mapM fun f => toBtypeWithin tm fuel f.btype).map (.struct (some id))
        | .struct fields, _ => (fields.mapM fun f => toBtypeWithin tm fuel f.btype).map (.struct none)
        | .function .., t => some (.function t)
        | _, _ => none

def toBtype (tm : TypeManager) (x : BtypeRef) : Option Btype :=
  tm.toBtypeWithin (tm.heap.length + 1) x

/-- Without the C ABI the types are taken as they are. -/
def makeLLVMFunctionType (tm : TypeManager) (paramTypes : List BtypeRef) (rbtype : BtypeRef)
    (followsCabi : Bool) : Option LType :=
  if followsCabi then do
    let ps ← paramTypes.mapM tm.toBtype
    let r ← tm.toBtype rbtype
    let t ← Dragongo.makeLLVMFunctionType ps r true
    some t.asReference
  else do
    let ps ← paramTypes.mapM tm.typeOf
    let t ← tm.typeOf rbtype
    if (tm.expand t).sizeInBits = some 0 then none else some (.func t ps)

/-! ## Making types -/

/-- Stores a new object in the hash table. -/
def install (tm : TypeManager) (o : BtypeObject) : Option (BtypeRef × TypeManager) := do
  let tm' ← (tm.alloc o).2.insertAnon (tm.alloc o).1
  some ((tm.alloc o).1, tm')

def makeLLVMFloatType (bits : ℕ) : Option LType :=
  if bits = 32 then some .float else if bits = 64 then some .double
  else if bits = 128 then some .fp128 else none

def floatType (tm : TypeManager) (bits : ℕ) : Option (BtypeRef × TypeManager) := do
  let llft ← makeLLVMFloatType bits
  tm.commonAnon ⟨"", llft, false, .float (some bits)⟩ fun tm =>
    tm.install ⟨"", llft, false, .float (some bits)⟩

/-- LLVM has no complex types. -/
def complexType (tm : TypeManager) (bits : ℕ) : Option (BtypeRef × TypeManager) :=
  if bits = 64 then some (tm.makeAuxType (makeLLVMTwoElementStructType .float .float))
  else if bits = 128 then some (tm.makeAuxType (makeLLVMTwoElementStructType .double .double))
  else none

def makeAuxTypes (tm : TypeManager) : List LType → List BtypeRef × TypeManager
  | [] => ([], tm)
  | t :: ts =>
    let (x, tm) := tm.makeAuxType t
    let (xs, tm) := makeAuxTypes tm ts
    (x :: xs, tm)

/-- The type of a builtin, for which nothing but an LLVM type is known. -/
def makeAuxFcnType (tm : TypeManager) (result : LType) (params : List LType) :
    BtypeRef × TypeManager :=
  match tm.auxTypeMap.find? (·.1 = .func result params) with
  | some e => (e.2, tm)
  | none =>
    let (rbtype, tm) := tm.makeAuxType result
    let (ps, tm) := tm.makeAuxTypes params
    let results := if result.isVoidTy then [] else [rbtype]
    let (rval, tm) :=
      tm.alloc ⟨"", .func result params, false, .function none ps results rbtype false⟩
    (rval, { tm with auxTypeMap := (.func result params, rval) :: tm.auxTypeMap })

/-- Has a type wait for those of the given types that are not resolved. -/
def waitFor (tm : TypeManager) (btype : BtypeRef) (components : List BtypeRef) : TypeManager :=
  (components.filter tm.isUnresolvedPlaceholder).foldl (fun tm c => tm.addRef c btype) tm

def withFlag (tm : TypeManager) (o : BtypeObject) (parts : List BtypeRef) : BtypeObject :=
  { o with isPlaceholder := parts.any tm.isUnresolvedPlaceholder }

/-- Stores a new object in the hash table, flagged if it has to wait. -/
def installWaiting (tm : TypeManager) (o : BtypeObject) (parts : List BtypeRef) :
    Option (BtypeRef × TypeManager) :=
  let (rval, tm') := tm.alloc (tm.withFlag o parts)
  (tm'.waitFor rval parts).insertAnon rval |>.map fun tm' => (rval, tm')

/-- The object that `arrayType` looks up. -/
def arrayCandidate (elem : BtypeObject) (elemType : BtypeRef) (asize : ℕ) : BtypeObject :=
  ⟨"", .array elem.type asize, elem.isPlaceholder, .array (some elemType) (some asize)⟩

/-- The constructor of `BArrayType` copies the placeholder flag of the element type, like
that of `BPointerType`.  No length is the error expression. -/
def arrayType (tm : TypeManager) (elemType : BtypeRef) (length : Option ℕ) :
    Option (BtypeRef × TypeManager) :=
  match length with
  | none => some (tm.errorType, tm)
  | some asize =>
    if elemType = tm.errorType then some (tm.errorType, tm)
    else do
      let elem ← tm.obj elemType
      let cand := arrayCandidate elem elemType asize
      tm.commonAnon cand fun tm => tm.installWaiting cand [elemType]

def sanitizeField (tm : TypeManager) (btype : BtypeRef) : Option (BtypeRef × TypeManager) := do
  let t ← tm.typeOf btype
  if t.isFunctionTy then tm.pointerType btype else some (btype, tm)

/-- A field of function type becomes a pointer to it. -/
def sanitizeFields (tm : TypeManager) :
    List BtypedIdentifier → Option (List BtypedIdentifier × TypeManager)
  | [] => some ([], tm)
  | f :: fs => do
    let r ← tm.sanitizeField f.btype
    let rs ← r.2.sanitizeFields fs
    some ({ f with btype := r.1 } :: rs.1, rs.2)

/-- A struct with a field that is not resolved is an opaque struct for the time being, and
no other type equals it. -/
def structType (tm : TypeManager) (rawfields : List BtypedIdentifier) :
    Option (BtypeRef × TypeManager) :=
  if rawfields.any (·.btype = tm.errorType) then some (tm.errorType, tm)
  else (tm.sanitizeFields rawfields).bind fun r =>
    if rawfields.any fun f => tm.isUnresolvedPlaceholder f.btype then
      let (llst, tm') := r.2.makeOpaqueLlvmType
      tm'.installWaiting ⟨"", llst, false, .struct r.1⟩ (r.1.map (·.btype))
    else do
      let elems ← r.1.mapM fun f => r.2.typeOf f.btype
      let cand : BtypeObject := ⟨"", .struct none elems, false, .struct r.1⟩
      r.2.commonAnon cand fun tm => tm.install cand

/-- The type of the results of a function: void, the only one, or a struct of them. -/
def resultType (tm : TypeManager) (results : List BtypeRef) (resultStruct : Option BtypeRef) :
    Option (BtypeRef × TypeManager) :=
  match results with
  | [] => some (tm.makeAuxType .void)
  | [r] => some (r, tm)
  | _ => resultStruct.map fun r => (r, tm)

/-- The types that a function type may wait for. -/
def functionParts (receiver : Option BtypeRef) (parameters results : List BtypeRef)
    (resultStruct : Option BtypeRef) : List BtypeRef :=
  resultStruct.toList ++ receiver.toList ++ (receiver.toList ++ parameters) ++ results

def functionType (tm : TypeManager) (receiver : Option BtypeRef)
    (parameters results : List BtypeRef) (resultStruct : Option BtypeRef) (followsCabi : Bool) :
    Option (BtypeRef × TypeManager) :=
  let paramTypes := receiver.toList ++ parameters
  let parts := functionParts receiver parameters results resultStruct
  if tm.errorType ∈ parts then some (tm.errorType, tm)
  else (tm.resultType results resultStruct).bind fun r => do
    let llft ← r.2.makeLLVMFunctionType paramTypes r.1 followsCabi
    let cand : BtypeObject :=
      ⟨"", llft, false, .function receiver paramTypes results r.1 followsCabi⟩
    r.2.commonAnon cand fun tm =>
      if parts.any tm.isUnresolvedPlaceholder && followsCabi then none
      else tm.installWaiting cand parts

def placeholderStructType (tm : TypeManager) (name : String) : BtypeRef × TypeManager :=
  let (opaqueType, tm) := tm.makeOpaqueLlvmType
  let (pst, tm) := tm.alloc ⟨name, opaqueType, true, .struct []⟩
  (pst, { tm with placeholders := pst :: tm.placeholders })

def placeholderArrayType (tm : TypeManager) (name : String) : BtypeRef × TypeManager :=
  let (opaqueType, tm) := tm.makeOpaqueLlvmType
  let (pat, tm) := tm.alloc ⟨name, opaqueType, true, .array none none⟩
  (pat, { tm with placeholders := pat :: tm.placeholders })

def namedType (tm : TypeManager) (name : String) (btype : BtypeRef) :
    Option (BtypeRef × TypeManager) := do
  let o ← tm.obj btype
  let copy ← o.clone
  let (rval, tm) := tm.alloc { copy with name }
  let tm := tm.waitFor rval copy.kind.waitsFor
  some (rval, { tm with
    namedTypes := rval :: tm.namedTypes
    revNames := fun x => if x = btype then some rval else tm.revNames x })

/-- A marker for a type that points to itself, which opens a loop; the next one may be
opened when it has been closed. -/
def circularPointerType (tm : TypeManager) (placeholder : BtypeRef) :
    Option (BtypeRef × TypeManager) :=
  if placeholder = tm.errorType then some (tm.errorType, tm)
  else match tm.circularPointerTypeMap placeholder with
    | some marker => some (marker, tm)
    | none =>
      let (opaqueType, tm) := tm.makeOpaqueLlvmType
      let (rval, tm) := tm.makeAuxType (ptr opaqueType)
      if tm.circularPointerLoop = [] then
        some (rval, { tm with
          circularPointerTypes := ptr opaqueType :: tm.circularPointerTypes
          circularPointerTypeMap := fun x =>
            if x = placeholder then some rval else tm.circularPointerTypeMap x
          circularPointerLoop := [(placeholder, rval)] })
      else none

/-! ## Setting placeholders -/

/-- Both setters that follow assert this of the placeholder. -/
def isSettable (tm : TypeManager) (placeholder : BtypeRef) (flavor : TyFlavor) : Option Unit := do
  let o ← tm.obj placeholder
  let found ← tm.findAnon placeholder
  if found = none ∧ placeholder ∈ tm.placeholders ∧ o.kind.flavor = flavor then some () else none

/-- The fields of a placeholder are known: either it waits for them, or its body is set. -/
def setFields (tm : TypeManager) (placeholder : BtypeRef) (fields : List BtypedIdentifier) :
    Option TypeManager := do
  let _ ← tm.isSettable placeholder .structT
  let tm := tm.update placeholder fun o => { o with kind := .struct fields }
  if fields.any fun f => tm.isUnresolvedPlaceholder f.btype then
    some (tm.waitFor placeholder (fields.map (·.btype)))
  else (tm.setBody placeholder fields).bind fun tm => tm.postProcessResolvedPlaceholder placeholder

/-- With a field of error type the source returns `errorType_`, which as a `bool` is true. -/
def setPlaceholderStructType (tm : TypeManager) (placeholder : BtypeRef)
    (rawfields : List BtypedIdentifier) : Option (Bool × TypeManager) :=
  if placeholder = tm.errorType then some (false, tm)
  else if rawfields.any (·.btype = tm.errorType) then some (true, tm)
  else (tm.sanitizeFields rawfields).bind fun r =>
    (r.2.setFields placeholder r.1).map fun tm => (true, tm)

def updatePlaceholderUnderlyingType (tm : TypeManager) (pht newtyp : BtypeRef) :
    Option TypeManager := do
  let o ← tm.obj pht
  let new ← tm.obj newtyp
  let found ← tm.findAnon pht
  if pht ∈ tm.placeholders ∧ found = none ∧ o.isPlaceholder then
    let tm := tm.update pht fun o => { o with type := new.type }
    if new.isPlaceholder then some tm
    else (tm.update pht fun o => { o with isPlaceholder := false }).postProcessResolvedPlaceholder pht
  else none

/-- The element type and the length are recorded; an element type that is flagged flags the
placeholder. -/
def setElemType (tm : TypeManager) (placeholder elementBtype : BtypeRef) (asize : ℕ) :
    TypeManager :=
  let flag := tm.isPlaceholder elementBtype
  tm.update placeholder fun o =>
    { o with isPlaceholder := o.isPlaceholder || flag, kind := .array (some elementBtype) (some asize) }

def setPlaceholderArrayType (tm : TypeManager) (placeholder elementBtype : BtypeRef)
    (length : Option ℕ) : Option (Bool × TypeManager) :=
  match length with
  | none => some (false, tm)
  | some asize =>
    if placeholder = tm.errorType ∨ elementBtype = tm.errorType then some (false, tm)
    else do
      let _ ← tm.isSettable placeholder .arrayT
      let tm := tm.setElemType placeholder elementBtype asize
      let isplace := tm.isUnresolvedPlaceholder elementBtype
      let tm := tm.waitFor placeholder [elementBtype]
      let t ← tm.typeOf elementBtype
      let (atype, tm) := tm.makeAuxType (.array t asize)
      let tm := tm.update atype fun o => { o with isPlaceholder := isplace }
      let tm ← tm.updatePlaceholderUnderlyingType placeholder atype
      some (true, tm)

end TypeManager

/-! ## Runs -/

/-- A call of the type manager. -/
inductive TypeOp
  | voidType
  | integerType (isUnsigned : Bool) (bits : ℕ)
  | floatType (bits : ℕ)
  | complexType (bits : ℕ)
  | pointerType (toType : BtypeRef)
  | arrayType (elemType : BtypeRef) (length : Option ℕ)
  | structType (fields : List BtypedIdentifier)
  | functionType (receiver : Option BtypeRef) (parameters results : List BtypeRef)
      (resultStruct : Option BtypeRef) (followsCabi : Bool)
  | makeAuxFcnType (result : LType) (params : List LType)
  | placeholderPointerType (name : String)
  | placeholderStructType (name : String)
  | placeholderArrayType (name : String)
  | setPlaceholderPointerType (placeholder toType : BtypeRef)
  | setPlaceholderStructType (placeholder : BtypeRef) (fields : List BtypedIdentifier)
  | setPlaceholderArrayType (placeholder elementBtype : BtypeRef) (length : Option ℕ)
  | namedType (name : String) (btype : BtypeRef)
  | circularPointerType (placeholder : BtypeRef)
deriving Repr

namespace TypeOp

/-- The types that a call is passed. -/
def operands : TypeOp → List BtypeRef
  | pointerType toType => [toType]
  | arrayType elemType _ => [elemType]
  | structType fields => fields.map (·.btype)
  | functionType receiver parameters results resultStruct _ =>
    receiver.toList ++ parameters ++ results ++ resultStruct.toList
  | setPlaceholderPointerType placeholder toType => [placeholder, toType]
  | setPlaceholderStructType placeholder fields => placeholder :: fields.map (·.btype)
  | setPlaceholderArrayType placeholder elementBtype _ => [placeholder, elementBtype]
  | namedType _ btype => [btype]
  | circularPointerType placeholder => [placeholder]
  | _ => []

def llvmTypes : TypeOp → List LType
  | makeAuxFcnType result params => result :: params
  | _ => []

end TypeOp

namespace TypeManager

def call (tm : TypeManager) : TypeOp → Option TypeManager
  | .voidType => some (tm.makeAuxType .void).2
  | .integerType isUnsigned bits => (tm.integerType isUnsigned bits).map (·.2)
  | .floatType bits => (tm.floatType bits).map (·.2)
  | .complexType bits => (tm.complexType bits).map (·.2)
  | .pointerType toType => (tm.pointerType toType).map (·.2)
  | .arrayType elemType length => (tm.arrayType elemType length).map (·.2)
  | .structType fields => (tm.structType fields).map (·.2)
  | .functionType receiver parameters results resultStruct followsCabi =>
    (tm.functionType receiver parameters results resultStruct followsCabi).map (·.2)
  | .makeAuxFcnType result params => some (tm.makeAuxFcnType result params).2
  | .placeholderPointerType name => some (tm.placeholderPointerType name).2
  | .placeholderStructType name => some (tm.placeholderStructType name).2
  | .placeholderArrayType name => some (tm.placeholderArrayType name).2
  | .setPlaceholderPointerType p toType => (tm.setPlaceholderPointerType p toType).map (·.2)
  | .setPlaceholderStructType p fields => (tm.setPlaceholderStructType p fields).map (·.2)
  | .setPlaceholderArrayType p elem length => (tm.setPlaceholderArrayType p elem length).map (·.2)
  | .namedType name btype => (tm.namedType name btype).map (·.2)
  | .circularPointerType p => (tm.circularPointerType p).map (·.2)

/-- The identified struct that the LLVM type leads to, if any, has been made. -/
def knows (tm : TypeManager) (t : LType) : Prop := ∀ id ∈ t.base, id < tm.nextOpaque

instance (tm : TypeManager) (t : LType) : Decidable (tm.knows t) :=
  inferInstanceAs (Decidable (∀ id ∈ t.base, id < tm.nextOpaque))

/-- The state after a call whose arguments are types of the manager and of LLVM. -/
def apply (tm : TypeManager) (op : TypeOp) : Option TypeManager :=
  if (∀ x ∈ op.operands, x < tm.heap.length) ∧ ∀ t ∈ op.llvmTypes, tm.knows t then tm.call op
  else none

/-- The state after a list of calls. -/
def run (tm : TypeManager) (ops : List TypeOp) : Option TypeManager := ops.foldlM apply tm

/-- Some calls, made one after the other by a new manager, lead to this state. -/
def Reachable (tm : TypeManager) : Prop :=
  ∃ address start ops, new address = some start ∧ start.run ops = some tm

/-! ## Setting placeholders with an error -/

/-- A call that sets a placeholder.  The error expression as a length is `none`. -/
inductive SetPlaceholder
  | pointer (placeholder toType : BtypeRef)
  | struct (placeholder : BtypeRef) (fields : List BtypedIdentifier)
  | array (placeholder elementBtype : BtypeRef) (length : Option ℕ)
deriving Repr

/-- What the call returns, and the state after it. -/
def set (tm : TypeManager) : SetPlaceholder → Option (Bool × TypeManager)
  | .pointer p toType => tm.setPlaceholderPointerType p toType
  | .struct p fields => tm.setPlaceholderStructType p fields
  | .array p elementBtype length => tm.setPlaceholderArrayType p elementBtype length

/-- The placeholder or one of the parts is an error. -/
def PassesError (tm : TypeManager) : SetPlaceholder → Prop
  | .pointer p toType => p = tm.errorType ∨ toType = tm.errorType
  | .struct p fields => p = tm.errorType ∨ ∃ f ∈ fields, f.btype = tm.errorType
  | .array p elementBtype length =>
    p = tm.errorType ∨ elementBtype = tm.errorType ∨ length = none

/-- A struct is set, whose placeholder is not an error. -/
def SetsStruct (tm : TypeManager) : SetPlaceholder → Prop
  | .struct p _ => p ≠ tm.errorType
  | _ => False

section Errors
variable {tm : TypeManager} {c : SetPlaceholder}

/-- The result of a call with an error is whether a struct is set, and the state stays. -/
theorem set_of_passesError (h : tm.PassesError c) :
    ∃ b, tm.set c = some (b, tm) ∧ (b = true ↔ tm.SetsStruct c) := by
  cases c with
  | pointer p toType => exact ⟨false, if_pos h, by simp [SetsStruct]⟩
  | struct p fields =>
    by_cases hp : p = tm.errorType
    · exact ⟨false, if_pos hp, by simp [SetsStruct, hp]⟩
    · have hfield : fields.any (·.btype = tm.errorType) := by simpa using h.resolve_left hp
      refine ⟨true, ?_, by simp [SetsStruct, hp]⟩
      change tm.setPlaceholderStructType p fields = _
      rw [setPlaceholderStructType, if_neg hp, if_pos hfield]
  | array p elementBtype length =>
    refine ⟨false, ?_, by simp [SetsStruct]⟩
    cases length with
    | none => rfl
    | some n =>
      refine if_pos ?_
      rcases h with hp | helem | hlength
      · exact .inl hp
      · exact .inr helem
      · cases hlength

/-- A call with an error never changes the state, and it returns false unless the error is a field
of a struct whose placeholder is in order. -/
theorem set_eq_false_iff (h : tm.PassesError c) :
    (∃ b, tm.set c = some (b, tm)) ∧ (tm.set c = some (false, tm) ↔ ¬tm.SetsStruct c) := by
  obtain ⟨b, hset, hb⟩ := set_of_passesError h
  refine ⟨⟨b, hset⟩, ?_⟩
  rw [hset, ← hb]
  simp

theorem newManager_set_eq_false_iff :
    (∃ b, (newManager id).set (.pointer 2 0) = some (b, newManager id)) ∧
      ((newManager id).set (.pointer 2 0) = some (false, newManager id) ↔
        ¬(newManager id).SetsStruct (.pointer 2 0)) :=
  set_eq_false_iff (.inr rfl)

/-- A placeholder for a struct whose only field has the error type. -/
theorem errorField_set_eq_true : ¬∀ (tm : TypeManager) (c : SetPlaceholder), tm.Reachable →
    tm.PassesError c → tm.set c = some (false, tm) := by
  intro hall
  have hrun : ((newManager id).run [.placeholderStructType "S"]).bind
      (fun tm => (tm.set (.struct 3 [⟨"f", tm.errorType, 0⟩])).map (·.1)) = some true := by decide
  obtain ⟨tm, htm, hset⟩ := Option.bind_eq_some_iff.mp hrun
  have herror : tm.PassesError (.struct 3 [⟨"f", tm.errorType, 0⟩]) :=
    .inr ⟨_, List.mem_singleton_self _, rfl⟩
  rw [hall tm _ ⟨id, _, _, new_eq id, htm⟩ herror] at hset
  cases hset

end Errors

end TypeManager
end Dragongo
