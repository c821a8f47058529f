import Dragongo.TypeOperations

/-!
# Sizes, alignments and offsets of backend types

What the frontend and the debug information ask the type manager about the layout of a type,
also of one that is not resolved yet.
-/

namespace Dragongo
open Layout LType

/-- Why a call has no result: the recursion is deeper than the fuel, or an assertion fails or a
null pointer is read. -/
inductive Stop
  | outOfFuel
  | aborts
deriving DecidableEq, Repr

/-- What has to be there, or the call aborts. -/
def Stop.unless {α : Type} : Option α → Except Stop α
  | some a => .ok a
  | none => .error .aborts

namespace TypeManager
variable (tm : TypeManager)

def isSized (t : LType) : Bool := (tm.expand t).isSized

/-! ## The size of a type -/

/-- What the proxy of an unresolved type has been found to be. -/
abbrev ProxyMap := BtypeRef → Option LType

def ProxyMap.insert (pmap : ProxyMap) (x : BtypeRef) (t : LType) : ProxyMap :=
  fun y => if y = x then some t else pmap y

/-- The proxies of the fields of a struct, one after the other. -/
def proxies (proxy : BtypeRef → ProxyMap → Except Stop (LType × ProxyMap)) :
    List BtypeRef → ProxyMap → Except Stop (List LType × ProxyMap)
  | [], pmap => .ok ([], pmap)
  | x :: xs, pmap => do
    let (t, pmap) ← proxy x pmap
    let (ts, pmap) ← proxies proxy xs pmap
    .ok (t :: ts, pmap)

def llvmPtrType : LType := .ptr (.int 8)

def placeholderProxyType : ℕ → BtypeRef → ProxyMap → Except Stop (LType × ProxyMap)
  | 0, _, _ => .error .outOfFuel
  | fuel + 1, typ, pmap => do
    let o ← Stop.unless (tm.obj typ)
    if tm.isSized o.type then .ok (o.type, pmap)
    else match pmap typ with
      | some t => .ok (t, pmap)
      | none =>
        match o.kind with
        | .array elt nelSize => do
          let elt ← Stop.unless elt
          let (elprox, pmap) ← placeholderProxyType fuel elt pmap
          let n ← Stop.unless nelSize
          .ok (.array elprox n, pmap.insert typ (.array elprox n))
        | .struct fields => do
          let (elems, pmap) ←
            proxies (placeholderProxyType fuel) (fields.map (·.btype)) pmap
          .ok (.struct none elems, pmap.insert typ (.struct none elems))
        -- All pointers have one size, and a function type stands for a pointer to it.
        | .pointer _ | .function .. => .ok (llvmPtrType, pmap)
        | .aux | .integer .. | .float _ => .error .aborts

def getTypeAllocSize (t : LType) : Except Stop ℕ := Stop.unless (tm.expand t).allocSize

def typeSize (fuel : ℕ) (btype : BtypeRef) : Except Stop ℕ :=
  if btype = tm.errorType then .ok 1
  else do
    let o ← Stop.unless (tm.obj btype)
    if tm.isSized o.type then tm.getTypeAllocSize o.type
    else do
      let (toget, _) ← tm.placeholderProxyType fuel btype fun _ => none
      tm.getTypeAllocSize toget

/-! ## Alignments and offsets -/

def getPrefTypeAlignment (t : LType) : Except Stop ℕ :=
  if tm.isSized t then .ok (tm.expand t).prefAlign else .error .aborts

/-- The offset of the type behind a single bit, in a struct made for the purpose. -/
def typeFieldAlignment (btype : BtypeRef) : Except Stop ℤ := do
  let o ← Stop.unless (tm.obj btype)
  if !tm.isSized o.type || btype = tm.errorType then .ok (-1)
  else do
    let offsets ← Stop.unless (tm.expand (.struct none [.int 1, o.type])).elementOffsets
    let uoff ← Stop.unless offsets[1]?
    let talign ← tm.getPrefTypeAlignment o.type
    .ok (min uoff talign : ℕ)

def typeFieldOffset (btype : BtypeRef) (index : ℕ) : Except Stop ℕ :=
  if btype = tm.errorType then .ok 0
  else do
    let o ← Stop.unless (tm.obj btype)
    let offsets ← Stop.unless (tm.expand o.type).elementOffsets
    Stop.unless offsets[index]?

end TypeManager
end Dragongo
