import Dragongo.Btype

/-!
# Eightbytes

The AMD64 classification of a value that is passed in registers: the value is cut
into one or two eightbyte regions, and each region is given a register class and
an LLVM type to travel as.  A failed assertion is `none`, and so is a loop that
never ends.  Offsets stay within the 16 bytes of the value, so the `unsigned`
arithmetic on them is exact.
-/

namespace Dragongo
open LType

/-- `typeSize`: the bytes of data in an object, where a one-bit integer takes one.
The bit count is truncated to 32 bits. -/
def typeSize (t : LType) : Option ℕ := do
  let bits ← t.sizeInBits
  let bits := bits % 2 ^ 32
  if bits = 1 then some 1 else if bits % 8 = 0 then some (bits / 8) else none

inductive TypDisp
  | flavSSE
  | flavInt
  | flavEmpty
deriving DecidableEq, Repr

open TypDisp

def dispMeet (d1 d2 : TypDisp) : TypDisp :=
  if d1 = d2 then d1
  else if d1 = flavEmpty then d2
  else if d2 = flavEmpty then d1
  else if d1 = flavSSE ∧ d2 = flavSSE then flavSSE
  else flavInt

mutual
def getTypDisp : LType → TypDisp
  | float => flavSSE
  | double => flavSSE
  | array elem _ => getTypDisp elem
  | struct _ fields => getFieldsDisp fields flavEmpty
  | structRef _ => flavEmpty
  | _ => flavInt
def getFieldsDisp : List LType → TypDisp → TypDisp
  | [], disp => disp
  | t :: ts, disp => getFieldsDisp ts (dispMeet (getTypDisp t) disp)
end

inductive CABIParamAttr
  | none
  | structReturn
  | byVal
  | nest
  | zext
  | sext
deriving DecidableEq, Repr

structure EightByteRegion where
  types : List LType := []
  offsets : List ℕ := []
  abiDirectType : Option LType := none
  attr : CABIParamAttr := .none
deriving Repr

namespace EightByteRegion

def getRegionTypDisp (ebr : EightByteRegion) : TypDisp :=
  ebr.types.foldl (fun disp t => dispMeet (getTypDisp t) disp) flavEmpty

def push (ebr : EightByteRegion) (t : LType) (offset : ℕ) : EightByteRegion :=
  { ebr with types := ebr.types ++ [t], offsets := ebr.offsets ++ [offset] }

end EightByteRegion

/-- Push an element on the last region, or on a fresh one. -/
def pushElement (ebrs : List EightByteRegion) (fresh : Bool) (t : LType) (offset : ℕ) :
    List EightByteRegion :=
  if fresh then ebrs ++ [EightByteRegion.push {} t offset]
  else ebrs.dropLast ++ (ebrs.getLast?.map fun cur8 => cur8.push t offset).toList

mutual
/-- The scalars of a type and their offsets.  The loop over the elements of an array
counts in 32 bits and never reaches a larger length. -/
def addLeafTypes : Btype → ℕ → Option (List (Btype × ℕ))
  | .struct id fields, offset => do
    let foffs ← (Btype.struct id fields).type.elementOffsets
    addFieldLeafTypes fields foffs offset
  | .array elemType nelSize, offset =>
    if nelSize < 2 ^ 32 then do
      let elems ← (List.range nelSize).mapM fun elidx => do
        let sz ← elemType.type.allocSize
        addLeafTypes elemType (offset + elidx * sz)
      some elems.flatten
    else none
  | .aux _, _ => none
  | .function _, _ => none
  | .integer isUnsigned bits, offset => some [(.integer isUnsigned bits, offset)]
  | .float width, offset => some [(.float width, offset)]
  | .pointer pointee, offset => some [(.pointer pointee, offset)]
def addFieldLeafTypes : List Btype → List ℕ → ℕ → Option (List (Btype × ℕ))
  | bt :: fields, foff :: foffs, offset => do
    let leaves ← addLeafTypes bt (offset + foff)
    let rest ← addFieldLeafTypes fields foffs offset
    some (leaves ++ rest)
  | _, _, _ => some []
end

def explodeStruct (bst : Btype) : Option (List EightByteRegion) := do
  let sz ← bst.type.allocSize
  if sz ≤ 16 then
    let leafTypes ← addLeafTypes bst 0
    some <| leafTypes.foldl (fun ebrs leaf =>
      pushElement ebrs (ebrs.isEmpty || (8 ≤ leaf.2 && ebrs.length == 1)) leaf.1.type leaf.2) []
  else none

/-- One step of the loop in `explodeArray`: a new region starts at offset 8 or later
while the sum of the offsets seen so far, `curOffset`, is below 8. -/
def explodeStep (t : LType) (elSize : ℕ) (acc : List EightByteRegion × ℕ) (elidx : ℕ) :
    List EightByteRegion × ℕ :=
  let offset := elidx * elSize
  (pushElement acc.1 (acc.1.isEmpty || (8 ≤ offset && acc.2 < 8)) t offset, acc.2 + offset)

def explodeArray (elemType : Btype) (nelSize : ℕ) : Option (List EightByteRegion) := do
  let sz ← (Btype.array elemType nelSize).type.allocSize
  if sz ≤ 16 then
    let elSize ← typeSize elemType.type
    if nelSize < 2 ^ 32 then
      some ((List.range nelSize).foldl (explodeStep elemType.type elSize) ([], 0)).1
    else none
  else none

/-- A small integer says how it is extended to 32 bits. -/
def scalarAttr : Btype → Option CABIParamAttr
  | .integer isUnsigned bits => do
    let bytes ← typeSize (.int bits)
    some (if bytes < 4 then (if isUnsigned then .zext else .sext) else .none)
  | _ => some .none

def incorporateScalar (bt : Btype) : Option (List EightByteRegion) := do
  let sz ← bt.type.allocSize
  if sz ≤ 8 then
    let attr ← scalarAttr bt
    some [{ types := [bt.type], offsets := [0], abiDirectType := some bt.type, attr := attr }]
  else none

def llvmArbitraryIntegerType (bytes : ℕ) : Option LType :=
  if bytes ≠ 0 ∧ bytes ≤ 8 then some (.int (bytes * 8)) else none

/-- The type a region travels as. -/
def determineABIType (ebr : EightByteRegion) : Option LType :=
  match ebr.abiDirectType with
  | some t => some t
  | none =>
    if ebr.getRegionTypDisp = flavSSE then
      match ebr.types with
      | [_, _] => some twoFloatVec
      | [double] => some double
      | [float] => some float
      | _ => none
    else do
      let lastOffset ← ebr.offsets.getLast?
      let firstOffset ← ebr.offsets.head?
      let lastType ← ebr.types.getLast?
      let sz ← typeSize lastType
      llvmArbitraryIntegerType (lastOffset - firstOffset + sz)

def EightByteRegion.withType (ebr : EightByteRegion) (t : LType) : EightByteRegion :=
  { ebr with abiDirectType := some t }

def determineABITypes (ebrs : List EightByteRegion) : Option (List EightByteRegion) :=
  ebrs.mapM fun ebr => (determineABIType ebr).map ebr.withType

def explode (bt : Btype) : Option (List EightByteRegion) :=
  match bt with
  | .struct _ _ => explodeStruct bt
  | .array elemType nelSize => explodeArray elemType nelSize
  | _ => incorporateScalar bt

def eightByteInfo (bt : Btype) : Option (List EightByteRegion) := do
  let ebrs ← explode bt
  if ebrs.length ≤ 2 then determineABITypes ebrs else none

/-- The integer and the SSE registers the regions need. -/
def getRegisterRequirements (ebrs : List EightByteRegion) : ℕ × ℕ :=
  (ebrs.countP fun ebr => ebr.getRegionTypDisp ≠ flavSSE,
    ebrs.countP fun ebr => ebr.getRegionTypDisp = flavSSE)

def makeLLVMTwoElementStructType (f1 f2 : LType) : LType := .struct none [f1, f2]

end Dragongo
