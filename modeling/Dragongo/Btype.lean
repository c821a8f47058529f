import Dragongo.LLVMType

/-!
# Backend types

`Btype` wraps an LLVM type and records what the frontend asked for.  Here are the
finished types, without placeholders; the LLVM type of a struct or an array is the
one made from its parts.
-/

namespace Dragongo
open Layout LType

inductive FloatWidth
  | f32
  | f64
  | f128
deriving DecidableEq, Repr

def FloatWidth.type : FloatWidth → LType
  | f32 => .float
  | f64 => .double
  | f128 => .fp128

/-- The constructor is the flavor.  A pointer and a function keep the LLVM type they
were given; a struct that began as a placeholder has an identified LLVM struct. -/
inductive Btype
  | aux (type : LType)
  | integer (isUnsigned : Bool) (bits : ℕ)
  | float (width : FloatWidth)
  | pointer (pointee : LType)
  | struct (id : Option ℕ) (fields : List Btype)
  | array (elemType : Btype) (nelSize : ℕ)
  | function (type : LType)
deriving Repr

namespace Btype

mutual
def type : Btype → LType
  | aux t => t
  | integer _ bits => .int bits
  | float width => width.type
  | pointer pointee => .ptr pointee
  | struct id fields => .struct id (types fields)
  | array elemType nelSize => .array (type elemType) nelSize
  | function t => t
def types : List Btype → List LType
  | [] => []
  | t :: ts => type t :: types ts
end

mutual
def beq : Btype → Btype → Bool
  | aux t, aux t' | pointer t, pointer t' | function t, function t' => t == t'
  | integer u bits, integer u' bits' => u == u' && bits == bits'
  | float width, float width' => width == width'
  | struct id ts, struct id' ts' => id == id' && beqs ts ts'
  | array t n, array t' n' => n == n' && beq t t'
  | _, _ => false
def beqs : List Btype → List Btype → Bool
  | [], [] => true
  | t :: ts, t' :: ts' => beq t t' && beqs ts ts'
  | _, _ => false
end

mutual
theorem beq_iff : ∀ t t' : Btype, beq t t' = true ↔ t = t'
  | t, t' => by
    cases t with
    | array t n => cases t' <;> simp [beq, beq_iff t, and_comm]
    | struct id ts => cases t' <;> simp [beq, beqs_iff ts]
    | _ => cases t' <;> simp [beq]
theorem beqs_iff : ∀ ts ts' : List Btype, beqs ts ts' = true ↔ ts = ts'
  | [], ts' => by cases ts' <;> simp [beqs]
  | t :: ts, ts' => by cases ts' <;> simp [beqs, beq_iff t, beqs_iff ts]
end

instance : DecidableEq Btype := fun t t' => decidable_of_iff _ (beq_iff t t')

mutual
/-- Integers of 8 to 64 bits, 32- and 64-bit floats, pointers, and structs and arrays
of these. -/
def isPlain : Btype → Bool
  | integer _ bits => bits == 8 || bits == 16 || bits == 32 || bits == 64
  | float width => width != .f128
  | pointer _ => true
  | struct _ fields => arePlain fields
  | array elemType _ => isPlain elemType
  | _ => false
def arePlain : List Btype → Bool
  | [] => true
  | t :: ts => isPlain t && arePlain ts
end

mutual
/-- The parts of the type that hold data can be enumerated: there is no auxiliary or
function type among them, and no array of them has 2^32 or more elements. -/
def isWalkable : Btype → Bool
  | struct _ fields => areWalkable fields
  | array elemType nelSize => nelSize == 0 || (nelSize < 2 ^ 32 && isWalkable elemType)
  | aux _ | function _ => false
  | _ => true
def areWalkable : List Btype → Bool
  | [] => true
  | t :: ts => isWalkable t && areWalkable ts
end

mutual
theorem type_isPlain : ∀ t : Btype, t.isPlain → t.type.isPlain
  | integer _ _, h => h
  | float width, h => by cases width <;> simp_all [isPlain, type, FloatWidth.type, LType.isPlain]
  | pointer _, _ => rfl
  | struct _ fields, h => types_arePlain fields h
  | array elemType _, h => type_isPlain elemType h
theorem types_arePlain : ∀ ts : List Btype, arePlain ts → LType.arePlain (types ts)
  | [], _ => rfl
  | t :: ts, h => by
    simp only [arePlain, types, LType.arePlain, Bool.and_eq_true] at h ⊢
    exact ⟨type_isPlain t h.1, types_arePlain ts h.2⟩
end

end Btype
end Dragongo
