import Dragongo.TypeSize

/-!
# Strings and debug types

`typToString` names a type, and `buildDIType` describes it to a debugger.  Both walk the graph
of the types, which may be cyclic.  Where a type was declared is left out of its description.
-/

namespace Dragongo
open LType

namespace TypeManager

/-! ## Strings -/

/-- The strings of the types that were reached so far. -/
abbrev StringMap := List (BtypeRef × String)

def StringMap.insert (smap : StringMap) (x : BtypeRef) (s : String) : StringMap :=
  (x, s) :: smap.filter (·.1 ≠ x)

/-- Some types, one after the other. -/
def strings (string : BtypeRef → StringMap → Except Stop (String × StringMap)) :
    List BtypeRef → StringMap → Except Stop (List String × StringMap)
  | [], smap => .ok ([], smap)
  | x :: xs, smap => do
    let (s, smap) ← string x smap
    let (ss, smap) ← strings string xs smap
    .ok (s :: ss, smap)

section Strings
variable (tm : TypeManager) (print : LType → String)

/-- The name that a type has, or that was given to it. -/
def nameOf (typ : BtypeRef) : Option (Except Stop String) :=
  if typ ∈ tm.namedTypes then some ((Stop.unless (tm.obj typ)).map (·.name))
  else (tm.revNames typ).map fun named => (Stop.unless (tm.obj named)).map (·.name)

/-- The switch of `typToStringRec`.  Only the entry for a struct is there before its parts are
visited. -/
def kindString (string : BtypeRef → StringMap → Except Stop (String × StringMap)) (typ : BtypeRef)
    (o : BtypeObject) (smap : StringMap) : Except Stop (String × StringMap) :=
  match o.kind with
  | .aux => .ok (if o.type.isVoidTy then "void" else print o.type, smap)
  | .float bits => do
    let bits ← Stop.unless bits
    .ok ("float" ++ toString bits, smap)
  | .integer isUnsigned bits =>
    .ok ((if isUnsigned then "u" else "") ++ "int" ++ toString bits, smap)
  | .pointer toType => do
    let toType ← Stop.unless toType
    let (s, smap) ← string toType smap
    .ok ("*" ++ s, smap)
  | .struct fields => do
    let temp := "$struct$" ++ toString smap.length
    let (ss, smap) ← strings string (fields.map (·.btype)) (smap.insert typ temp)
    .ok ("struct\x7b" ++ ",".intercalate ss ++ "\x7d", smap)
  | .function receiverType paramTypes _ resultType _ => do
    let (ss, smap) ← strings string (receiverType.toList ++ paramTypes) smap
    let (s, smap) ← string resultType smap
    .ok ("func(" ++ ",".intercalate ss ++ ")" ++ s, smap)
  | .array elemType nelSize => do
    let n ← Stop.unless nelSize
    let elemType ← Stop.unless elemType
    let (s, smap) ← string elemType smap
    .ok ("[" ++ toString n ++ "]" ++ s, smap)

def typToStringRec : ℕ → BtypeRef → StringMap → Except Stop (String × StringMap)
  | 0, _, _ => .error .outOfFuel
  | fuel + 1, typ, smap =>
    match tm.nameOf typ with
    | some name => name.map fun s => (s, smap)
    | none =>
      match smap.lookup typ with
      | some s => .ok (s, smap)
      | none => do
        let o ← Stop.unless (tm.obj typ)
        let (s, smap) ← kindString print (typToStringRec fuel) typ o smap
        .ok (s, smap.insert typ s)

def typToString (fuel : ℕ) (typ : BtypeRef) : Except Stop String :=
  (tm.typToStringRec print fuel typ []).map (·.1)

end Strings
end TypeManager

/-! ## Debug types -/

inductive Encoding
  | none
  | float
  | signed
  | unsigned
deriving DecidableEq, Repr

/-- The nodes that LLVM is asked for.  Sizes and alignments are as they were passed; the size of
a basic type is missing if it was read behind the end of an object.  A temporary stands for the
node that is still being made for a type. -/
inductive DIType
  | basic (name : String) (sizeInBits : Option ℕ) (encoding : Encoding)
  | pointer (pointee : DIType) (sizeInBits : ℕ)
  | array (size align : ℕ) (elem : DIType) (count : ℕ)
  | member (name : String) (sizeInBits alignInBits offsetInBits : ℕ) (type : DIType)
  | struct (name : String) (sizeInBits alignInBits : ℕ) (members : List DIType)
  | subroutine (types : List DIType)
  | temporary (typ : BtypeRef) (name : String)
deriving Repr

namespace TypeManager

abbrev TypeCache := BtypeRef → Option DIType

def TypeCache.insert (cache : TypeCache) (x : BtypeRef) (d : DIType) : TypeCache :=
  fun y => if y = x then some d else cache y

section Build
variable (tm : TypeManager) (print : LType → String)

/-- Debug types of some types, one after the other. -/
def buildAll (build : BtypeRef → TypeCache → Except Stop (DIType × TypeCache)) :
    List BtypeRef → TypeCache → Except Stop (List DIType × TypeCache)
  | [], cache => .ok ([], cache)
  | x :: xs, cache => do
    let (d, cache) ← build x cache
    let (ds, cache) ← buildAll build xs cache
    .ok (d :: ds, cache)

def buildMembers (fuel : ℕ) (build : BtypeRef → TypeCache → Except Stop (DIType × TypeCache))
    (bst : BtypeRef) : ℕ → List BtypedIdentifier → TypeCache →
      Except Stop (List DIType × TypeCache)
  | _, [], cache => .ok ([], cache)
  | fidx, field :: fields, cache => do
    let (fieldType, cache) ← build field.btype cache
    let memberBits ← tm.typeSize fuel field.btype
    let memberAlign ← tm.typeFieldAlignment field.btype
    let memberOffset ← tm.typeFieldOffset bst fidx
    let (members, cache) ← buildMembers fuel build bst (fidx + 1) fields cache
    .ok (.member field.name memberBits (memberAlign % 2 ^ 32).toNat memberOffset fieldType ::
      members, cache)

def pointerSizeInBits : ℕ := 64

def buildCircularPointerDIType (fuel : ℕ)
    (build : BtypeRef → TypeCache → Except Stop (DIType × TypeCache)) (typ : BtypeRef)
    (cache : TypeCache) : Except Stop (DIType × TypeCache) := do
  let typ := (tm.revNames typ).getD typ
  let name ← tm.typToString print fuel typ
  let toType ← Stop.unless (tm.circularConversionLoadMap typ)
  let (toDIType, cache) ← build toType (cache.insert typ (.temporary typ name))
  let result := DIType.pointer toDIType pointerSizeInBits
  .ok (result, cache.insert typ result)

/-- The fields are those of the named copy, if there is one, and it is the copy that is cached. -/
def buildStructDIType (fuel : ℕ)
    (build : BtypeRef → TypeCache → Except Stop (DIType × TypeCache)) (bst : BtypeRef)
    (cache : TypeCache) : Except Stop (DIType × TypeCache) := do
  let bst := (tm.revNames bst).getD bst
  let o ← Stop.unless (tm.obj bst)
  match o.kind with
  | .struct fields => do
    let name ← tm.typToString print fuel bst
    let (members, cache) ←
      tm.buildMembers fuel build bst 0 fields (cache.insert bst (.temporary bst name))
    let sizeInBits ← Stop.unless (tm.expand o.type).sizeInBits
    let alignInBits ← tm.getPrefTypeAlignment o.type
    let dist := DIType.struct name sizeInBits alignInBits members
    .ok (dist, cache.insert bst dist)
  | _ => .error .aborts

/-- The switch of `buildDIType`. -/
def buildKind (fuel : ℕ) (build : BtypeRef → TypeCache → Except Stop (DIType × TypeCache))
    (typ : BtypeRef) (o : BtypeObject) (cache : TypeCache) : Except Stop (DIType × TypeCache) :=
  match o.kind with
  | .aux =>
    if o.type.isVoidTy then .ok (.basic "void" (some 0) .none, cache)
    else match tm.revNames typ with
      | some named => build named cache
      | none =>
        if o.type ∈ tm.circularPointerTypes then
          tm.buildCircularPointerDIType print fuel build typ cache
        else .error .aborts
  | .float bits => do
    let name ← tm.typToString print fuel typ
    .ok (.basic name bits .float, cache)
  | .integer isUnsigned bits => do
    let name ← tm.typToString print fuel typ
    .ok (.basic name (some bits) (if isUnsigned then .unsigned else .signed), cache)
  | .pointer toType => do
    let toType ← Stop.unless toType
    let (toDI, cache) ← build toType cache
    .ok (.pointer toDI pointerSizeInBits, cache)
  | .array elemType nelSize => do
    let elemType ← Stop.unless elemType
    let (elemDI, cache) ← build elemType cache
    let arSize ← Stop.unless nelSize
    let elem ← Stop.unless (tm.obj elemType)
    let arAlign ← tm.getPrefTypeAlignment elem.type
    .ok (.array arSize arAlign elemDI arSize, cache)
  | .struct _ => tm.buildStructDIType print fuel build typ cache
  | .function receiverType paramTypes _ resultType _ => do
    let (types, cache) ← buildAll build (resultType :: receiverType.toList ++ paramTypes) cache
    .ok (.subroutine types, cache)

def buildDIType : ℕ → BtypeRef → TypeCache → Except Stop (DIType × TypeCache)
  | 0, _, _ => .error .outOfFuel
  | fuel + 1, typ, cache =>
    match cache typ with
    | some d => .ok (d, cache)
    | none => do
      let o ← Stop.unless (tm.obj typ)
      tm.buildKind print fuel (buildDIType fuel) typ o cache

end Build
end TypeManager
end Dragongo
