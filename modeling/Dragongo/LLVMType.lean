import Dragongo.Library.Layout

/-!
# LLVM types and their layout

The LLVM types the backend builds, with the sizes and alignments that LLVM gives
them under the data layout `e-m:e-i64:64-f80:128-n8:16:32:64-S128`.  An identified
struct carries its body, except behind a pointer or while no body is set.
-/

namespace Dragongo
open Layout

inductive LType
  | void
  | int (bits : ℕ)
  | float
  | double
  | fp128
  | twoFloatVec
  | ptr (pointee : LType)
  | array (elem : LType) (n : ℕ)
  | struct (id : Option ℕ) (fields : List LType)
  | structRef (id : ℕ)
  | func (result : LType) (params : List LType)
deriving Repr

namespace LType

mutual
def beq : LType → LType → Bool
  | void, void => true
  | int bits, int bits' => bits == bits'
  | float, float => true
  | double, double => true
  | fp128, fp128 => true
  | twoFloatVec, twoFloatVec => true
  | ptr t, ptr t' => beq t t'
  | array t n, array t' n' => n == n' && beq t t'
  | struct id ts, struct id' ts' => id == id' && beqs ts ts'
  | structRef id, structRef id' => id == id'
  | func t ts, func t' ts' => beq t t' && beqs ts ts'
  | _, _ => false
def beqs : List LType → List LType → Bool
  | [], [] => true
  | t :: ts, t' :: ts' => beq t t' && beqs ts ts'
  | _, _ => false
end

mutual
theorem beq_iff : ∀ t t' : LType, beq t t' = true ↔ t = t'
  | t, t' => by
    cases t with
    | ptr t => cases t' <;> simp [beq, beq_iff t]
    | array t n => cases t' <;> simp [beq, beq_iff t, and_comm]
    | struct id ts => cases t' <;> simp [beq, beqs_iff ts]
    | func t ts => cases t' <;> simp [beq, beq_iff t, beqs_iff ts]
    | _ => cases t' <;> simp [beq]
theorem beqs_iff : ∀ ts ts' : List LType, beqs ts ts' = true ↔ ts = ts'
  | [], ts' => by cases ts' <;> simp [beqs]
  | t :: ts, ts' => by cases ts' <;> simp [beqs, beq_iff t, beqs_iff ts]
end

instance : DecidableEq LType := fun t t' => decidable_of_iff _ (beq_iff t t')

theorem ptr_ne (t : LType) : ptr t ≠ t := by
  intro h
  have hsize := congrArg sizeOf h
  simp at hsize

def isStructTy : LType → Bool
  | struct .. | structRef _ => true
  | _ => false

def isArrayTy : LType → Bool
  | array .. => true
  | _ => false

def isPointerTy : LType → Bool
  | ptr _ => true
  | _ => false

def isFloatingPointTy : LType → Bool
  | float | double => true
  | _ => false

/-- The alignment of the narrowest listed integer type that is wide enough, or of
the widest one. -/
def intAlign (bits : ℕ) : ℕ :=
  if bits ≤ 8 then 1 else if bits ≤ 16 then 2 else if bits ≤ 32 then 4 else 8

theorem intAlign_pos (bits : ℕ) : 0 < intAlign bits := by
  unfold intAlign
  split_ifs <;> omega

mutual
def shape : LType → Shape
  | void => ⟨0, 1, Nat.one_pos⟩
  | int bits => ⟨bits, intAlign bits, intAlign_pos bits⟩
  | float => ⟨32, 4, by decide⟩
  | double => ⟨64, 8, by decide⟩
  | fp128 => ⟨128, 16, by decide⟩
  | twoFloatVec => ⟨64, 8, by decide⟩
  | ptr _ => ⟨64, 8, by decide⟩
  | array elem n => Shape.array (shape elem) n
  | struct _ fields => Shape.record (shapes fields)
  | structRef _ => ⟨0, 1, Nat.one_pos⟩
  | func _ _ => ⟨0, 1, Nat.one_pos⟩
def shapes : List LType → List Shape
  | [] => []
  | t :: ts => shape t :: shapes ts
end

mutual
/-- Whether LLVM can tell the size of the type. -/
def isSized : LType → Bool
  | void => false
  | array elem _ => isSized elem
  | struct _ fields => areSized fields
  | structRef _ => false
  | func _ _ => false
  | _ => true
def areSized : List LType → Bool
  | [] => true
  | t :: ts => isSized t && areSized ts
end

/-- `getTypeSizeInBits`, which asserts that the type is sized. -/
def sizeInBits (t : LType) : Option ℕ := if t.isSized then some t.shape.bits else none

/-- `getTypeAllocSize`, likewise. -/
def allocSize (t : LType) : Option ℕ := if t.isSized then some t.shape.allocSize else none

/-- `getPrefTypeAlignment`: an aggregate of the data layout prefers 8 bytes. -/
def prefAlign : LType → ℕ
  | array elem _ => prefAlign elem
  | struct id fields => max 8 (struct id fields).shape.align
  | t => t.shape.align

/-- The member offsets of `getStructLayout`. -/
def elementOffsets : LType → Option (List ℕ)
  | struct _ fields => if areSized fields then some (offsets 0 (shapes fields)) else none
  | _ => none

/-! ## Leaves -/

/-- A scalar part of a type and its offset in bytes. -/
structure Leaf where
  type : LType
  offset : ℕ
deriving Repr

def Leaf.span (l : Leaf) : Span := ⟨l.offset, l.type.shape.storeSize⟩

def Leaf.shift (k : ℕ) (l : Leaf) : Leaf := ⟨l.type, k + l.offset⟩

mutual
/-- The scalars of an object of the type at `base`, in order. -/
def leaves : LType → ℕ → List Leaf
  | array elem n, base =>
    (List.range n).flatMap fun i => leaves elem (base + i * (shape elem).allocSize)
  | struct _ fields, base => fieldLeaves fields base 0
  | void, base => [⟨void, base⟩]
  | int bits, base => [⟨int bits, base⟩]
  | float, base => [⟨float, base⟩]
  | double, base => [⟨double, base⟩]
  | fp128, base => [⟨fp128, base⟩]
  | twoFloatVec, base => [⟨twoFloatVec, base⟩]
  | ptr pointee, base => [⟨ptr pointee, base⟩]
  | structRef id, base => [⟨structRef id, base⟩]
  | func result params, base => [⟨func result params, base⟩]
def fieldLeaves : List LType → ℕ → ℕ → List Leaf
  | [], _, _ => []
  | t :: ts, base, pos =>
    leaves t (base + alignTo pos (shape t).align) ++
      fieldLeaves ts base (alignTo pos (shape t).align + (shape t).allocSize)
end

mutual
theorem leaves_add (k : ℕ) : ∀ (t : LType) (base : ℕ),
    leaves t (k + base) = (leaves t base).map (Leaf.shift k)
  | array elem n, base => by
    simp only [leaves, List.map_flatMap, Nat.add_assoc]
    congr 1
    funext i
    exact leaves_add k elem _
  | struct _ fields, base => by
    simp only [leaves]
    exact fieldLeaves_add k fields base 0
  | void, _ | int _, _ | float, _ | double, _ | fp128, _ | twoFloatVec, _ | ptr _, _
  | structRef _, _ | func _ _, _ => by simp [leaves, Leaf.shift]
theorem fieldLeaves_add (k : ℕ) : ∀ (ts : List LType) (base pos : ℕ),
    fieldLeaves ts (k + base) pos = (fieldLeaves ts base pos).map (Leaf.shift k)
  | [], _, _ => by simp [fieldLeaves]
  | t :: ts, base, pos => by
    simp only [fieldLeaves, List.map_append, Nat.add_assoc]
    rw [leaves_add k t, fieldLeaves_add k ts]
end

/-! ## Types made of naturally aligned scalars -/

mutual
/-- Integers of 8 to 64 bits, floats, pointers, and what structs and arrays make of them. -/
def isPlain : LType → Bool
  | int bits => bits == 8 || bits == 16 || bits == 32 || bits == 64
  | float | double | ptr _ => true
  | array elem _ => isPlain elem
  | struct _ fields => arePlain fields
  | _ => false
def arePlain : List LType → Bool
  | [] => true
  | t :: ts => isPlain t && arePlain ts
end

def isPlainScalar : LType → Bool
  | int bits => bits == 8 || bits == 16 || bits == 32 || bits == 64
  | float | double | ptr _ => true
  | _ => false

mutual
theorem isSized_of_isPlain : ∀ t : LType, t.isPlain → t.isSized
  | array elem _, h => isSized_of_isPlain elem h
  | struct _ fields, h => areSized_of_arePlain fields h
  | int _, _ | float, _ | double, _ | ptr _, _ => rfl
theorem areSized_of_arePlain : ∀ ts : List LType, arePlain ts → areSized ts
  | [], _ => rfl
  | t :: ts, h => by
    simp only [arePlain, areSized, Bool.and_eq_true] at h ⊢
    exact ⟨isSized_of_isPlain t h.1, areSized_of_arePlain ts h.2⟩
end

theorem allocSize_of_isPlain {t : LType} (h : t.isPlain) : t.allocSize = some t.shape.allocSize :=
  if_pos (isSized_of_isPlain t h)

/-- The size of a scalar is a power of two, its alignment, and its distance in an array. -/
structure Scalar (t : LType) : Prop where
  size : t.shape.storeSize = 1 ∨ t.shape.storeSize = 2 ∨ t.shape.storeSize = 4 ∨
    t.shape.storeSize = 8
  align : t.shape.align = t.shape.storeSize
  alloc : t.shape.allocSize = t.shape.storeSize

theorem scalar_int {bits : ℕ} (h : (int bits).isPlain) : Scalar (int bits) := by
  simp only [isPlain, Bool.or_eq_true, beq_iff_eq] at h
  rcases h with ((rfl | rfl) | rfl) | rfl <;> exact ⟨by decide, by decide, by decide⟩

theorem scalar_float : Scalar float := ⟨by decide, by decide, by decide⟩

theorem scalar_double : Scalar double := ⟨by decide, by decide, by decide⟩

theorem scalar_ptr (t : LType) : Scalar (ptr t) := by
  constructor <;> simp [shape, Shape.storeSize, Shape.allocSize, alignTo]

theorem scalar_of_isPlainScalar : ∀ t : LType, t.isPlainScalar → Scalar t
  | int _, h => scalar_int h
  | float, _ => scalar_float
  | double, _ => scalar_double
  | ptr t, _ => scalar_ptr t

theorem Scalar.chain {t : LType} (ht : Scalar t) {base : ℕ} (hbase : t.shape.align ∣ base) :
    Chain 8 base [⟨base, t.shape.storeSize⟩] (base + t.shape.allocSize) := by
  rw [ht.align] at hbase
  rw [ht.alloc]
  refine ⟨Nat.le_refl _, le_alignTo (by decide) _, ⟨?_, hbase, ?_⟩, Chain.nil (by decide) _⟩
  · rcases ht.size with h | h | h | h <;> simp only [h] <;> decide
  · rcases ht.size with h | h | h | h <;> simp only [h] <;> decide

theorem Scalar.align_dvd {t : LType} (ht : Scalar t) : t.shape.align ∣ 8 := by
  rw [ht.align]
  rcases ht.size with h | h | h | h <;> rw [h] <;> decide

mutual
theorem align_dvd : ∀ t : LType, t.isPlain → t.shape.align ∣ 8
  | array elem _, h => align_dvd elem h
  | struct _ fields, h => maxAlign_dvd (aligns_dvd fields h)
  | int _, h => (scalar_int h).align_dvd
  | float, _ => scalar_float.align_dvd
  | double, _ => scalar_double.align_dvd
  | ptr t, _ => (scalar_ptr t).align_dvd
theorem aligns_dvd : ∀ ts : List LType, arePlain ts → ∀ s ∈ shapes ts, s.align ∣ 8
  | [], _, s, hs => by simp [shapes] at hs
  | t :: ts, h, s, hs => by
    simp only [arePlain, Bool.and_eq_true] at h
    rcases List.mem_cons.mp hs with rfl | hs
    · exact align_dvd t h.1
    · exact aligns_dvd ts h.2 s hs
end

mutual
theorem leaves_isPlainScalar : ∀ (t : LType) (base : ℕ), t.isPlain →
    ∀ l ∈ leaves t base, l.type.isPlainScalar
  | array elem n, base, h, l, hl => by
    obtain ⟨i, -, hi⟩ := List.mem_flatMap.mp hl
    exact leaves_isPlainScalar elem _ h l hi
  | struct _ fields, base, h, l, hl => fieldLeaves_isPlainScalar fields base 0 h l hl
  | int _, _, h, l, hl => by
    obtain rfl := List.mem_singleton.mp hl
    exact h
  | float, _, _, l, hl | double, _, _, l, hl | ptr _, _, _, l, hl => by
    obtain rfl := List.mem_singleton.mp hl
    rfl
theorem fieldLeaves_isPlainScalar : ∀ (ts : List LType) (base pos : ℕ), arePlain ts →
    ∀ l ∈ fieldLeaves ts base pos, l.type.isPlainScalar
  | [], _, _, _, l, hl => by simp [fieldLeaves] at hl
  | t :: ts, base, pos, h, l, hl => by
    simp only [arePlain, Bool.and_eq_true] at h
    rcases List.mem_append.mp hl with hl | hl
    · exact leaves_isPlainScalar t _ h.1 l hl
    · exact fieldLeaves_isPlainScalar ts _ _ h.2 l hl
end

mutual
/-- The leaves of an aligned object fill it up to alignment gaps. -/
theorem leaves_chain : ∀ (t : LType) (base : ℕ), t.isPlain → t.shape.align ∣ base →
    Chain 8 base ((t.leaves base).map Leaf.span) (base + t.shape.allocSize)
  | array elem n, base, h, hbase => by
    simp only [leaves, shape, Shape.allocSize_array]
    induction n with
    | zero => simpa using Chain.nil (by decide) base
    | succ n ih =>
      have hdvd : elem.shape.align ∣ base + n * elem.shape.allocSize :=
        Nat.dvd_add hbase ((Shape.align_dvd_allocSize _).mul_left n)
      have hlast := leaves_chain elem _ h hdvd
      rw [List.range_succ, List.flatMap_append, List.map_append, Nat.add_mul, Nat.one_mul,
        ← Nat.add_assoc]
      apply Chain.append (by decide) (ih h hbase)
      simpa using hlast
  | struct id fields, base, h, hbase => by
    have hpad := Chain.padding (maxAlign_pos (shapes fields)) (by decide : 0 < 8)
      (align_dvd (struct id fields) h) (base + endPos 0 (shapes fields))
    rw [alignTo_add (maxAlign_pos _) hbase] at hpad
    simp only [leaves, shape, Shape.allocSize_record]
    have hfields := fieldLeaves_chain fields base 0 h fun s hs =>
      (dvd_maxAlign (k := 3) (aligns_dvd fields h) hs).trans hbase
    simpa using hfields.append (by decide) hpad
  | int _, _, h, hbase => (scalar_int h).chain hbase
  | float, _, _, hbase => scalar_float.chain hbase
  | double, _, _, hbase => scalar_double.chain hbase
  | ptr t, _, _, hbase => (scalar_ptr t).chain hbase
theorem fieldLeaves_chain : ∀ (ts : List LType) (base pos : ℕ), arePlain ts →
    (∀ s ∈ shapes ts, s.align ∣ base) →
    Chain 8 (base + pos) ((fieldLeaves ts base pos).map Leaf.span)
      (base + endPos pos (shapes ts))
  | [], base, pos, _, _ => by simpa [fieldLeaves, shapes, endPos] using Chain.nil (by decide) _
  | t :: ts, base, pos, h, hbase => by
    simp only [arePlain, Bool.and_eq_true] at h
    have ht : t.shape.align ∣ base := hbase _ List.mem_cons_self
    have hgap := Chain.padding t.shape.align_pos (by decide : 0 < 8) (align_dvd t h.1) (base + pos)
    rw [alignTo_add t.shape.align_pos ht] at hgap
    have hhead := leaves_chain t (base + alignTo pos t.shape.align) h.1
      (Nat.dvd_add ht (dvd_alignTo _ _))
    have htail := fieldLeaves_chain ts base (alignTo pos t.shape.align + t.shape.allocSize) h.2
      fun s hs => hbase s (List.mem_cons_of_mem _ hs)
    simp only [fieldLeaves, shapes, endPos, List.map_append]
    rw [← Nat.add_assoc] at htail
    exact (hgap.append (by decide) hhead).append (by decide) htail
end

end LType
end Dragongo
