import Dragongo.CABIOracle
import Mathlib.Data.List.Sort

/-!
# The type manager

The objects of class `Btype` as the type manager allocates and updates them, with its
hash table of anonymous types and its record of which types wait for which placeholder.
Here an identified LLVM struct is always a `structRef`, and its body is kept apart.
-/

namespace Dragongo
open LType

/-- A `Btype *`: the index of the object among all that have been allocated. -/
abbrev BtypeRef := ℕ

structure BtypedIdentifier where
  name : String
  btype : BtypeRef
  location : UInt32
deriving DecidableEq, Repr

inductive TyFlavor
  | arrayT
  | floatT
  | functionT
  | integerT
  | pointerT
  | structT
  | auxT
deriving DecidableEq, Repr

/-- What each subclass of `Btype` adds.  A placeholder that has not been set has no
component yet, and a float may be an object of `Btype` itself, which has no width. -/
inductive BtypeKind
  | aux
  | integer (isUnsigned : Bool) (bits : ℕ)
  | float (bits : Option ℕ)
  | pointer (toType : Option BtypeRef)
  | array (elemType : Option BtypeRef) (nelSize : Option ℕ)
  | struct (fields : List BtypedIdentifier)
  | function (receiverType : Option BtypeRef) (paramTypes resultTypes : List BtypeRef)
      (resultType : BtypeRef) (followsCabi : Bool)
deriving DecidableEq, Repr

def BtypeKind.flavor : BtypeKind → TyFlavor
  | aux => .auxT
  | integer .. => .integerT
  | float _ => .floatT
  | pointer _ => .pointerT
  | array .. => .arrayT
  | struct _ => .structT
  | function .. => .functionT

structure BtypeObject where
  name : String
  type : LType
  isPlaceholder : Bool
  kind : BtypeKind
deriving DecidableEq, Repr

namespace BtypeObject

/-- What `Btype::hash` looks at. -/
def key (o : BtypeObject) : TyFlavor × String × LType := (o.kind.flavor, o.name, o.type)

/-- A struct never counts: LLVM has opaque structs. -/
def isUnresolvedPlaceholder (o : BtypeObject) : Bool :=
  match o.kind with
  | .struct _ => false
  | _ => o.isPlaceholder

end BtypeObject

/-! ## Structural equality

`none` is a comparison that never returns, or that reads a null pointer. -/

def andAlso : Option Bool → Option Bool → Option Bool
  | some true, q => q
  | p, _ => p

section Equal
variable (equal : BtypeRef → BtypeRef → Option Bool)

/-- Components that may be null on one side, but not on both. -/
def equalComponent : Option BtypeRef → Option BtypeRef → Option Bool
  | some x, some y => equal x y
  | none, none => none
  | _, _ => some false

def equalReceiver : Option BtypeRef → Option BtypeRef → Option Bool
  | some x, some y => equal x y
  | none, none => some true
  | _, _ => some false

def equalFields : List BtypedIdentifier → List BtypedIdentifier → Option Bool
  | f :: fs, g :: gs =>
    andAlso (equal f.btype g.btype)
      (if f.name = g.name ∧ f.location = g.location then equalFields fs gs else some false)
  | _, _ => some true

def equalParams : List BtypeRef → List BtypeRef → Option Bool
  | x :: xs, y :: ys => andAlso (equal x y) (equalParams xs ys)
  | _, _ => some true

/-- The part of `Btype::equal` for two types of one flavor. -/
def equalKind : BtypeKind → BtypeKind → Option Bool
  | .aux, .aux => some true
  | .float _, .float _ => some true
  | .integer u _, .integer u' _ => some (u == u')
  | .pointer s, .pointer t => equalComponent equal s t
  | .array s m, .array t n =>
    if s.isSome ≠ t.isSome then some false
    else match m, n with
      | some m, some n => if m = n then equalComponent equal s t else some false
      | _, _ => none
  | .struct fs, .struct gs =>
    if fs.length = gs.length then equalFields equal fs gs else some false
  | .function r ps _ t c, .function r' ps' _ t' c' =>
    andAlso (equalReceiver equal r r') (andAlso (equal t t')
      (if ps.length = ps'.length then
        andAlso (equalParams equal ps ps') (some (c == c'))
      else some false))
  | _, _ => some false

end Equal

/-- `Btype::equal`.  The recursion runs over pairs of objects, so if it goes deeper than
there are pairs, one of them has come back and it never ends. -/
def equalWithin (heap : List BtypeObject) : ℕ → BtypeRef → BtypeRef → Option Bool
  | 0, _, _ => none
  | fuel + 1, x, y =>
    if x = y then some true
    else match heap[x]?, heap[y]? with
      | some a, some b =>
        if a.key = b.key ∧ a.isPlaceholder = b.isPlaceholder then
          equalKind (equalWithin heap fuel) a.kind b.kind
        else some false
      | _, _ => none

def equal (heap : List BtypeObject) (x y : BtypeRef) : Option Bool :=
  equalWithin heap (heap.length * heap.length + 1) x y

/-! ## The manager -/

/-- The state of the manager.  An entry of `anonTypes` keeps the key it was hashed
under.  A set of pointers, such as the values of `placeholderRefs`, is kept in the
order of the addresses that the allocator gave the objects. -/
structure TypeManager where
  heap : List BtypeObject
  address : BtypeRef → ℕ
  bodies : ℕ → Option (List LType)
  nextOpaque : ℕ
  errorType : BtypeRef
  anonTypes : List (BtypeRef × (TyFlavor × String × LType))
  auxTypeMap : List (LType × BtypeRef)
  placeholders : List BtypeRef
  duplicates : List BtypeRef
  placeholderRefs : BtypeRef → List BtypeRef
  namedTypes : List BtypeRef
  revNames : BtypeRef → Option BtypeRef
  circularPointerTypes : List LType
  circularPointerTypeMap : BtypeRef → Option BtypeRef
  circularPointerLoop : List (BtypeRef × BtypeRef)
  circularConversionLoadMap : BtypeRef → Option BtypeRef
  circularConversionAddrMap : BtypeRef → Option BtypeRef

namespace TypeManager

def obj (tm : TypeManager) (x : BtypeRef) : Option BtypeObject := tm.heap[x]?

def typeOf (tm : TypeManager) (x : BtypeRef) : Option LType := (tm.obj x).map (·.type)

def isPlaceholder (tm : TypeManager) (x : BtypeRef) : Bool :=
  (tm.obj x).any (·.isPlaceholder)

def isUnresolvedPlaceholder (tm : TypeManager) (x : BtypeRef) : Bool :=
  (tm.obj x).any (·.isUnresolvedPlaceholder)

def update (tm : TypeManager) (x : BtypeRef) (f : BtypeObject → BtypeObject) : TypeManager :=
  { tm with heap := tm.heap.modify x f }

/-- `new Btype`, with the pointer to it. -/
def alloc (tm : TypeManager) (o : BtypeObject) : BtypeRef × TypeManager :=
  (tm.heap.length, { tm with heap := tm.heap ++ [o] })

def addRef (tm : TypeManager) (btype refType : BtypeRef) : TypeManager :=
  { tm with placeholderRefs := fun x =>
      if x = btype then
        if refType ∈ tm.placeholderRefs x then tm.placeholderRefs x
        else (tm.placeholderRefs x).orderedInsert (fun a b => tm.address a ≤ tm.address b) refType
      else tm.placeholderRefs x }

/-- `anonTypes_.find`: the first entry hashed under the key of `x` that equals it. -/
def findEntry (heap : List BtypeObject) (x : BtypeRef) (key : TyFlavor × String × LType) :
    List (BtypeRef × (TyFlavor × String × LType)) → Option (Option BtypeRef)
  | [] => some none
  | e :: es =>
    if e.2 = key then
      match equal heap x e.1 with
      | none => none
      | some true => some (some e.1)
      | some false => findEntry heap x key es
    else findEntry heap x key es

def findAnon (tm : TypeManager) (x : BtypeRef) : Option (Option BtypeRef) := do
  let o ← tm.obj x
  findEntry tm.heap x o.key tm.anonTypes

/-- `anonTypes_.insert`, which does nothing if an equal type is there. -/
def insertAnon (tm : TypeManager) (x : BtypeRef) : Option TypeManager := do
  let o ← tm.obj x
  match ← tm.findAnon x with
  | some _ => some tm
  | none => some { tm with anonTypes := (x, o.key) :: tm.anonTypes }

def removeAnonType (tm : TypeManager) (typ : BtypeRef) : Option (Bool × TypeManager) := do
  match ← tm.findAnon typ with
  | some e => some (true, { tm with anonTypes := tm.anonTypes.filter (·.1 ≠ e) })
  | none => some (false, tm)

def reinstallAnonType (tm : TypeManager) (typ : BtypeRef) : Option TypeManager := do
  match ← tm.findAnon typ with
  | some _ => some { tm with duplicates := typ :: tm.duplicates }
  | none => tm.insertAnon typ

/-! ## Making types -/

def makeAuxType (tm : TypeManager) (lt : LType) : BtypeRef × TypeManager :=
  match tm.auxTypeMap.find? (·.1 = lt) with
  | some e => (e.2, tm)
  | none =>
    let (rval, tm) := tm.alloc ⟨"", lt, false, .aux⟩
    (rval, { tm with auxTypeMap := (lt, rval) :: tm.auxTypeMap })

/-- Looks a candidate up and installs a new object if there is none like it. -/
def commonAnon (tm : TypeManager) (cand : BtypeObject)
    (install : TypeManager → Option (BtypeRef × TypeManager)) :
    Option (BtypeRef × TypeManager) := do
  match ← (tm.alloc cand).2.findAnon (tm.alloc cand).1 with
  | some existing => some (existing, tm)
  | none => install tm

def integerType (tm : TypeManager) (isUnsigned : Bool) (bits : ℕ) :
    Option (BtypeRef × TypeManager) :=
  let cand : BtypeObject := ⟨"", .int bits, false, .integer isUnsigned bits⟩
  tm.commonAnon cand fun tm => do
    let (rval, tm) := tm.alloc cand
    let tm ← tm.insertAnon rval
    some (rval, tm)

def makeOpaqueLlvmType (tm : TypeManager) : LType × TypeManager :=
  (.structRef tm.nextOpaque, { tm with nextOpaque := tm.nextOpaque + 1 })

/-- `addPlaceholderRefs` for a type with one component. -/
def addPlaceholderRef (tm : TypeManager) (btype component : BtypeRef) : Bool × TypeManager :=
  if tm.isUnresolvedPlaceholder component then (true, tm.addRef component btype) else (false, tm)

/-- The constructor of `BPointerType` copies the placeholder flag of the target, and
`addPlaceholderRefs` then decides the flag of the object that is kept. -/
def pointerType (tm : TypeManager) (toType : BtypeRef) : Option (BtypeRef × TypeManager) :=
  if toType = tm.errorType then some (tm.errorType, tm)
  else do
    let target ← tm.obj toType
    let llpt := ptr (if target.type.isVoidTy then .int 8 else target.type)
    let cand : BtypeObject := ⟨"", llpt, target.isPlaceholder, .pointer (some toType)⟩
    tm.commonAnon cand fun tm => do
      let (rval, tm) := tm.alloc cand
      let (flag, tm) := tm.addPlaceholderRef rval toType
      let tm ← (tm.update rval fun o => { o with isPlaceholder := flag }).insertAnon rval
      some (rval, tm)

def placeholderPointerType (tm : TypeManager) (name : String) : BtypeRef × TypeManager :=
  let (opaqueType, tm) := tm.makeOpaqueLlvmType
  let (ppt, tm) := tm.alloc ⟨name, ptr opaqueType, true, .pointer none⟩
  (ppt, { tm with placeholders := ppt :: tm.placeholders })

/-- The constructor makes the error type and the types of bytes and of strings. -/
def new (address : BtypeRef → ℕ) : Option TypeManager := do
  let tm : TypeManager := ⟨[], address, fun _ => none, 0, 0, [], [], [], [], fun _ => [], [],
    fun _ => none, [], fun _ => none, [], fun _ => none, fun _ => none⟩
  let (errorLlvmType, tm) := tm.makeOpaqueLlvmType
  let (errorType, tm) := tm.makeAuxType errorLlvmType
  let (byteType, tm) ← { tm with errorType }.integerType true 8
  let (_, tm) ← tm.pointerType byteType
  some tm

/-- A new manager, whose third type is the string type. -/
def newManager (address : BtypeRef → ℕ) : TypeManager where
  heap := [⟨"", .structRef 0, false, .aux⟩, ⟨"", .int 8, false, .integer true 8⟩,
    ⟨"", ptr (.int 8), false, .pointer (some 1)⟩]
  address := address
  bodies := fun _ => none
  nextOpaque := 1
  errorType := 0
  anonTypes := [(2, (.pointerT, "", ptr (.int 8))), (1, (.integerT, "", .int 8))]
  auxTypeMap := [(.structRef 0, 0)]
  placeholders := []
  duplicates := []
  placeholderRefs := fun _ => []
  namedTypes := []
  revNames := fun _ => none
  circularPointerTypes := []
  circularPointerTypeMap := fun _ => none
  circularPointerLoop := []
  circularConversionLoadMap := fun _ => none
  circularConversionAddrMap := fun _ => none

theorem new_eq (address : BtypeRef → ℕ) : new address = some (newManager address) := rfl

/-! ## Resolving placeholders -/

/-- Gives a type that waited its LLVM type, under a new hash if it was hashed. -/
def concretize (tm : TypeManager) (x : BtypeRef) (t : LType) : Option TypeManager := do
  let (wasHashed, tm) ← tm.removeAnonType x
  let tm := tm.update x fun o => { o with type := t, isPlaceholder := false }
  if wasHashed then tm.reinstallAnonType x else some tm

def postProcessResolvedPointerPlaceholder (tm : TypeManager) (bpt btype : BtypeRef) :
    Option TypeManager := do
  let t ← tm.typeOf btype
  tm.concretize bpt (ptr t)

def postProcessResolvedArrayPlaceholder (tm : TypeManager) (bat btype : BtypeRef)
    (nelSize : Option ℕ) : Option TypeManager := do
  let asize ← nelSize
  let t ← tm.typeOf btype
  tm.concretize bat (.array t asize)

/-- `StructType::setBody`, which asserts that the struct is still opaque, for the LLVM
type of a struct placeholder that is thereby resolved. -/
def setBody (tm : TypeManager) (bst : BtypeRef) (fields : List BtypedIdentifier) :
    Option TypeManager := do
  let elems ← fields.mapM fun f => tm.typeOf f.btype
  match ← tm.typeOf bst with
  | .structRef id =>
    if tm.bodies id = none then
      let tm := tm.update bst fun o => { o with isPlaceholder := false }
      some { tm with bodies := fun n => if n = id then some elems else tm.bodies n }
    else none
  | _ => none

/-- The struct keeps its identity, so it need not be hashed again. -/
def postProcessResolvedStructPlaceholder (tm : TypeManager) (bst btype : BtypeRef)
    (fields : List BtypedIdentifier) : Option TypeManager :=
  if fields.any fun f => f.btype ≠ btype && tm.isUnresolvedPlaceholder f.btype then some tm
  else tm.setBody bst fields

/-- A function type over placeholders is asserted not to follow the C ABI. -/
def postProcessResolvedFunctionPlaceholder (tm : TypeManager) (bft : BtypeRef)
    (paramTypes : List BtypeRef) (resultType : BtypeRef) (followsCabi : Bool) :
    Option TypeManager :=
  if followsCabi then none
  else do
    let ps ← paramTypes.mapM tm.typeOf
    let t ← tm.typeOf resultType
    tm.concretize bft (.func t ps)

/-- What `refType`, which waits for `btype`, does once that is resolved. -/
def postProcessReference (tm : TypeManager) (refType btype : BtypeRef) :
    Option TypeManager := do
  let o ← tm.obj refType
  match o.kind with
  | .pointer _ => tm.postProcessResolvedPointerPlaceholder refType btype
  | .array _ nelSize => tm.postProcessResolvedArrayPlaceholder refType btype nelSize
  | .struct fields => tm.postProcessResolvedStructPlaceholder refType btype fields
  | .function _ paramTypes _ resultType followsCabi =>
    tm.postProcessResolvedFunctionPlaceholder refType paramTypes resultType followsCabi
  | _ => none

/-- Every level of the recursion has resolved one more object. -/
def postProcessWithin : ℕ → TypeManager → BtypeRef → Option TypeManager
  | 0, _, _ => none
  | fuel + 1, tm, btype =>
    (tm.placeholderRefs btype).foldlM (fun tm refType =>
      if tm.isPlaceholder refType then
        (tm.postProcessReference refType btype).bind fun tm =>
          if tm.isPlaceholder refType then some tm else postProcessWithin fuel tm refType
      else some tm) tm

def postProcessResolvedPlaceholder (tm : TypeManager) (btype : BtypeRef) : Option TypeManager :=
  postProcessWithin (tm.heap.length + 1) tm btype

/-- The last part of `setPlaceholderPointerType`, which closes a loop of circular
pointer types. -/
def closeCircularLoop (tm : TypeManager) (placeholder toType : BtypeRef) : TypeManager :=
  match tm.circularPointerLoop with
  | [] => tm
  | first :: rest =>
    if toType = first.2 then
      let ad := rest.headD first
      let loadConvTT := (rest.getLastD first).2
      { tm with
        circularPointerLoop := []
        circularConversionLoadMap := fun x =>
          if x = toType ∨ x = placeholder then some loadConvTT
          else tm.circularConversionLoadMap x
        circularConversionAddrMap := fun x =>
          if x = ad.1 ∨ x = ad.2 then some toType else tm.circularConversionAddrMap x }
    else { tm with circularPointerLoop := first :: rest ++ [(placeholder, toType)] }

/-- The new target is recorded and its LLVM type copied; then either the references are
followed, or the placeholder waits for the target to be resolved. -/
def redirect (tm : TypeManager) (placeholder toType : BtypeRef) (t : LType) :
    Option TypeManager :=
  let tm := tm.update placeholder fun o => { o with type := t, kind := .pointer (some toType) }
  if tm.isUnresolvedPlaceholder toType then some (tm.addRef toType placeholder)
  else (tm.update placeholder fun o => { o with isPlaceholder := false }).postProcessResolvedPlaceholder
    placeholder

def setPlaceholderPointerType (tm : TypeManager) (placeholder toType : BtypeRef) :
    Option (Bool × TypeManager) :=
  if placeholder = tm.errorType ∨ toType = tm.errorType then some (false, tm)
  else do
    let t ← tm.typeOf toType
    let o ← tm.obj placeholder
    let found ← tm.findAnon placeholder
    if t.isPointerTy ∧ found = none ∧ placeholder ∈ tm.placeholders ∧
        o.kind.flavor = .pointerT then
      (tm.redirect placeholder toType t).bind fun tm =>
        some (true, tm.closeCircularLoop placeholder toType)
    else none

end TypeManager
end Dragongo
