import Dragongo.EightByteStruct
import Mathlib.Tactic.IntervalCases

/-!
# Arrays in registers

An array is cut into regions element by element, and its elements are not flattened.
Both this and the running sum that decides where the second region starts differ
from the treatment of a struct; here is when the outcome is the same.
-/

namespace Dragongo
open Layout LType TypDisp

/-- The regions agree in number, class, ABI type and register requirements. -/
def SameClassification (a b : List EightByteRegion) : Prop :=
  a.length = b.length ∧ a.map (·.getRegionTypDisp) = b.map (·.getRegionTypDisp) ∧
    a.map (·.abiDirectType) = b.map (·.abiDirectType) ∧
    getRegisterRequirements a = getRegisterRequirements b

theorem sameClassification_of {a b : List EightByteRegion}
    (hdisp : a.map (·.getRegionTypDisp) = b.map (·.getRegionTypDisp))
    (htype : a.map (·.abiDirectType) = b.map (·.abiDirectType)) : SameClassification a b := by
  have hreq : ∀ c : List EightByteRegion, getRegisterRequirements c =
      ((c.map (·.getRegionTypDisp)).countP fun d => d ≠ flavSSE,
        (c.map (·.getRegionTypDisp)).countP fun d => d = flavSSE) := by
    intro c
    simp only [getRegisterRequirements, List.countP_map]
    rfl
  refine ⟨?_, hdisp, htype, by rw [hreq a, hreq b, hdisp]⟩
  simpa using congrArg List.length hdisp

/-- The array is classified as the struct whose only field it is. -/
def ClassifiedAsStruct (elemType : Btype) (n : ℕ) : Prop :=
  ∃ a b, eightByteInfo (.array elemType n) = some a ∧
    eightByteInfo (.struct none [.array elemType n]) = some b ∧ SameClassification a b

/-! ## The regions of an array -/

/-- The element ranges that `explodeArray` makes regions of, as first index and count. -/
def pieces (s n : ℕ) : List (ℕ × ℕ) :=
  if (s = 4 ∨ s = 5) ∧ 3 ≤ n then [(0, 2), (2, n - 2)]
  else if s = 8 ∧ n = 2 then [(0, 1), (1, 1)]
  else [(0, n)]

/-- A region of elements of one type. -/
def block (t : LType) (offsets : List ℕ) : EightByteRegion where
  types := List.replicate offsets.length t
  offsets := offsets

def strideOffsets (s i k : ℕ) : List ℕ := (List.range k).map fun j => (i + j) * s

/-- The same loop over offsets alone. -/
def offsetStep (s : ℕ) (acc : List (List ℕ) × ℕ) (elidx : ℕ) : List (List ℕ) × ℕ :=
  (if acc.1.isEmpty || (8 ≤ elidx * s && acc.2 < 8) then acc.1 ++ [[elidx * s]]
    else acc.1.dropLast ++ (acc.1.getLast?.map fun os => os ++ [elidx * s]).toList,
    acc.2 + elidx * s)

theorem push_block (t : LType) (os : List ℕ) (o : ℕ) :
    (block t os).push t o = block t (os ++ [o]) := by
  simp [block, EightByteRegion.push, List.replicate_succ']

theorem explodeStep_block (t : LType) (s : ℕ) (acc : List (List ℕ) × ℕ) (i : ℕ) :
    explodeStep t s (acc.1.map (block t), acc.2) i =
      ((offsetStep s acc i).1.map (block t), (offsetStep s acc i).2) := by
  simp only [explodeStep, offsetStep, pushElement, List.isEmpty_map]
  split_ifs
  · simp [block, EightByteRegion.push]
  · rw [List.map_append, List.map_dropLast, List.getLast?_map]
    cases acc.1.getLast? <;> simp [push_block]

theorem foldl_explodeStep (t : LType) (s : ℕ) (acc : List (List ℕ) × ℕ) (is : List ℕ) :
    is.foldl (explodeStep t s) (acc.1.map (block t), acc.2) =
      ((is.foldl (offsetStep s) acc).1.map (block t), (is.foldl (offsetStep s) acc).2) := by
  induction is generalizing acc with
  | nil => rfl
  | cons i is ih => rw [List.foldl_cons, explodeStep_block, ih, List.foldl_cons]

theorem foldl_offsetStep : ∀ s ≤ 16, ∀ n ≤ 16, 0 < s ∧ 0 < n ∧ s * n ≤ 16 →
    ((List.range n).foldl (offsetStep s) ([], 0)).1 =
      (pieces s n).map fun p => strideOffsets s p.1 p.2 := by
  decide

theorem bits_of_isPlain (t : LType) (h : t.isPlain) :
    t.shape.bits = 8 * t.shape.allocSize := by
  cases t with
  | array elem n =>
    simp only [shape, Shape.allocSize_array]
    rfl
  | struct id fields =>
    simp only [shape, Shape.allocSize_record]
    rfl
  | int bits =>
    simp only [isPlain, Bool.or_eq_true, beq_iff_eq] at h
    rcases h with ((rfl | rfl) | rfl) | rfl <;> decide
  | float | double => decide
  | ptr t => simp [shape, Shape.allocSize, Shape.storeSize, alignTo]
  | _ => cases h

theorem typeSize_of_isPlain {t : LType} (h : t.isPlain) (h16 : t.shape.allocSize ≤ 16) :
    typeSize t = some t.shape.allocSize := by
  have hbits := bits_of_isPlain t h
  have hmod : t.shape.bits % 2 ^ 32 = 8 * t.shape.allocSize := by omega
  simp only [typeSize, sizeInBits, isSized_of_isPlain t h, if_true, Option.bind_eq_bind,
    Option.bind_some, hmod]
  rw [if_neg (by omega), if_pos (by omega), Nat.mul_div_cancel_left _ (by decide)]

section Array

variable {T : Btype} {n : ℕ} (hplain : T.type.isPlain) (h1 : 1 ≤ T.type.shape.allocSize * n)
  (h16 : T.type.shape.allocSize * n ≤ 16)

include h1

theorem elem_pos : 0 < T.type.shape.allocSize ∧ 0 < n := by
  constructor <;> apply Nat.pos_of_ne_zero <;> intro h0 <;> simp [h0] at h1

include hplain h16

theorem explodeArray_eq : explodeArray T n = some ((pieces T.type.shape.allocSize n).map fun p =>
    block T.type (strideOffsets T.type.shape.allocSize p.1 p.2)) := by
  obtain ⟨hs, hn⟩ := elem_pos h1
  have hs16 : T.type.shape.allocSize ≤ 16 := (Nat.le_mul_of_pos_right _ hn).trans h16
  have hn16 : n ≤ 16 := (Nat.le_mul_of_pos_left _ hs).trans h16
  have hloop := foldl_explodeStep T.type T.type.shape.allocSize ([], 0) (List.range n)
  have hsz : (Btype.array T n).type.allocSize = some (n * T.type.shape.allocSize) := by
    simp [Btype.type, allocSize, isSized, isSized_of_isPlain _ hplain, shape]
  simp only [explodeArray, hsz, Option.bind_eq_bind, Option.bind_some,
    typeSize_of_isPlain hplain hs16]
  rw [if_pos (by rwa [Nat.mul_comm]), if_pos (by omega)]
  refine congrArg some ((congrArg Prod.fst hloop).trans ?_)
  rw [foldl_offsetStep _ hs16 n hn16 ⟨hs, hn, h16⟩, List.map_map]
  rfl

end Array

/-! ## The type of a region of equal elements -/

theorem block_disp (t : LType) {os : List ℕ} (hos : os ≠ []) :
    (block t os).getRegionTypDisp = getTypDisp t := by
  obtain ⟨o, os, rfl⟩ := List.exists_cons_of_ne_nil hos
  unfold EightByteRegion.getRegionTypDisp block
  rw [List.length_cons, List.replicate_succ, List.foldl_cons]
  have hmeet : dispMeet (getTypDisp t) flavEmpty = getTypDisp t := by
    cases getTypDisp t <;> decide
  have hself : dispMeet (getTypDisp t) (getTypDisp t) = getTypDisp t := by
    cases getTypDisp t <;> decide
  rw [hmeet]
  induction os.length with
  | zero => rfl
  | succ k ih => rw [List.replicate_succ, List.foldl_cons, hself, ih]

theorem block_int {t : LType} {s : ℕ} (i k : ℕ) (hdisp : getTypDisp t ≠ flavSSE)
    (hsz : typeSize t = some s) :
    determineABIType (block t (strideOffsets s i (k + 1))) =
      llvmArbitraryIntegerType ((k + 1) * s) := by
  have hne : strideOffsets s i (k + 1) ≠ [] := by simp [strideOffsets]
  have hfirst : (strideOffsets s i (k + 1)).head? = some (i * s) := by
    simp [strideOffsets, List.range_succ_eq_map]
  have hlast : (strideOffsets s i (k + 1)).getLast? = some ((i + k) * s) := by
    simp [strideOffsets, List.range_succ]
  have htype : (block t (strideOffsets s i (k + 1))).types.getLast? = some t := by
    simp [block, strideOffsets, List.replicate_succ']
  have hdisp' : (block t (strideOffsets s i (k + 1))).getRegionTypDisp ≠ flavSSE := by
    rwa [block_disp t hne]
  have hwidth : (i + k) * s - i * s + s = (k + 1) * s := by
    rw [← Nat.sub_mul, Nat.add_sub_cancel_left, Nat.add_mul, Nat.one_mul]
  simp only [determineABIType, hdisp', if_false, htype, Option.bind_eq_bind]
  simp only [block, hfirst, hlast, Option.bind_some, hsz, hwidth]

theorem block_sse_two {t : LType} (o o' : ℕ) (hdisp : getTypDisp t = flavSSE) :
    determineABIType (block t [o, o']) = some twoFloatVec := by
  have h : (block t [o, o']).getRegionTypDisp = flavSSE := (block_disp t (by simp)).trans hdisp
  simp only [determineABIType, h, if_true]
  rfl

/-- Elements of class SSE are typed only in pairs, or alone if they are scalars. -/
theorem block_sse_cases {t t' : LType} {os : List ℕ} (hos : os ≠ [])
    (hdisp : getTypDisp t = flavSSE) (h : determineABIType (block t os) = some t') :
    os.length = 2 ∨ os.length = 1 ∧ t.isFloatingPointTy := by
  have hd : (block t os).getRegionTypDisp = flavSSE := (block_disp t hos).trans hdisp
  match os with
  | [o] =>
    right
    refine ⟨rfl, ?_⟩
    have htypes : (block t [o]).types = [t] := rfl
    have hnone : (block t [o]).abiDirectType = none := rfl
    simp only [determineABIType, hd, if_true, htypes, hnone] at h
    cases t <;> first | rfl | cases h
  | [o, o'] => exact .inl rfl
  | o :: o' :: o'' :: os =>
    have htypes : (block t (o :: o' :: o'' :: os)).types =
        t :: t :: t :: List.replicate os.length t := rfl
    have hnone : (block t (o :: o' :: o'' :: os)).abiDirectType = none := rfl
    simp only [determineABIType, hd, if_true, htypes, hnone] at h
    cases h

/-! ## The leaves of an array -/

theorem leaves_array_add (t : LType) (k m b : ℕ) :
    leaves (array t (k + m)) b =
      leaves (array t k) b ++ leaves (array t m) (b + k * t.shape.allocSize) := by
  simp only [leaves, List.range_add, List.flatMap_append, List.flatMap_map, Nat.add_mul,
    Nat.add_assoc]

theorem mem_leaves_array {t : LType} {k b : ℕ} {l : Leaf} (h : l ∈ leaves (array t k) b) :
    ∃ i < k, ∃ l' ∈ leaves t 0, l = l'.shift (b + i * t.shape.allocSize) := by
  obtain ⟨i, hi, hl⟩ := List.mem_flatMap.mp h
  have hadd := leaves_add (b + i * t.shape.allocSize) t 0
  rw [Nat.add_zero] at hadd
  rw [hadd] at hl
  obtain ⟨l', hl', rfl⟩ := List.mem_map.mp hl
  exact ⟨i, List.mem_range.mp hi, l', hl', rfl⟩

theorem shift_mem_leaves_array {t : LType} {k i : ℕ} (b : ℕ) {l : Leaf} (hi : i < k)
    (hl : l ∈ leaves t 0) : l.shift (b + i * t.shape.allocSize) ∈ leaves (array t k) b := by
  apply List.mem_flatMap.mpr
  refine ⟨i, List.mem_range.mpr hi, ?_⟩
  have hadd := leaves_add (b + i * t.shape.allocSize) t 0
  rw [Nat.add_zero] at hadd
  rw [hadd]
  exact List.mem_map_of_mem hl

theorem shift_stop (l : Leaf) (k : ℕ) : (l.shift k).span.stop = k + l.span.stop :=
  Nat.add_assoc _ _ _

mutual
/-- A type with an integer or pointer leaf is of class INTEGER. -/
theorem getTypDisp_of_leaf : ∀ (t : LType) (b : ℕ), t.isPlain → ∀ l ∈ leaves t b,
    ¬l.type.isFloatingPointTy → getTypDisp t = flavInt
  | array elem n, b, h, l, hl, hf => by
    obtain ⟨i, -, hl⟩ := List.mem_flatMap.mp hl
    exact getTypDisp_of_leaf elem _ h l hl hf
  | .struct _ fields, b, h, l, hl, hf => getFieldsDisp_of_leaf fields b 0 flavEmpty h l hl hf
  | int _, _, _, _, _, _ | ptr _, _, _, _, _, _ => rfl
  | float, _, _, l, hl, hf | double, _, _, l, hl, hf => by
    rw [List.mem_singleton.mp hl] at hf
    exact absurd rfl hf
theorem getFieldsDisp_of_leaf : ∀ (ts : List LType) (b pos : ℕ) (d : TypDisp), arePlain ts →
    ∀ l ∈ fieldLeaves ts b pos, ¬l.type.isFloatingPointTy → getFieldsDisp ts d = flavInt
  | [], _, _, _, _, l, hl, _ => by simp [fieldLeaves] at hl
  | t :: ts, b, pos, d, h, l, hl, hf => by
    simp only [arePlain, Bool.and_eq_true] at h
    rcases List.mem_append.mp hl with hl | hl
    · have hint := getTypDisp_of_leaf t _ h.1 l hl hf
      rw [getFieldsDisp, hint, show dispMeet flavInt d = flavInt by cases d <;> decide]
      exact getFieldsDisp_int ts
    · exact getFieldsDisp_of_leaf ts _ _ _ h.2 l hl hf
theorem getFieldsDisp_int : ∀ ts : List LType, getFieldsDisp ts flavInt = flavInt
  | [] => rfl
  | t :: ts => by
    rw [getFieldsDisp, show dispMeet (getTypDisp t) flavInt = flavInt by
      cases getTypDisp t <;> decide]
    exact getFieldsDisp_int ts
end

mutual
theorem leaf_size_dvd_align : ∀ (t : LType) (b : ℕ), t.isPlain → ∀ l ∈ leaves t b,
    l.type.shape.storeSize ∣ t.shape.align
  | array elem n, b, h, l, hl => by
    obtain ⟨i, -, hl⟩ := List.mem_flatMap.mp hl
    exact leaf_size_dvd_align elem _ h l hl
  | .struct _ fields, b, h, l, hl => by
    obtain ⟨s, hs, hdvd⟩ := leaf_size_dvd_aligns fields b 0 h l hl
    exact hdvd.trans (dvd_maxAlign (k := 3) (aligns_dvd fields h) hs)
  | int _, _, h, l, hl => by
    rw [List.mem_singleton.mp hl]
    exact dvd_of_eq (scalar_int h).align.symm
  | float, _, _, l, hl => by
    rw [List.mem_singleton.mp hl]
    exact dvd_of_eq scalar_float.align.symm
  | double, _, _, l, hl => by
    rw [List.mem_singleton.mp hl]
    exact dvd_of_eq scalar_double.align.symm
  | ptr t, _, _, l, hl => by
    rw [List.mem_singleton.mp hl]
    exact dvd_of_eq (scalar_ptr t).align.symm
theorem leaf_size_dvd_aligns : ∀ (ts : List LType) (b pos : ℕ), arePlain ts →
    ∀ l ∈ fieldLeaves ts b pos, ∃ s ∈ shapes ts, l.type.shape.storeSize ∣ s.align
  | [], _, _, _, l, hl => by simp [fieldLeaves] at hl
  | t :: ts, b, pos, h, l, hl => by
    simp only [arePlain, Bool.and_eq_true] at h
    rcases List.mem_append.mp hl with hl | hl
    · exact ⟨t.shape, List.mem_cons_self, leaf_size_dvd_align t _ h.1 l hl⟩
    · obtain ⟨s, hs, hdvd⟩ := leaf_size_dvd_aligns ts _ _ h.2 l hl
      exact ⟨s, List.mem_cons_of_mem _ hs, hdvd⟩
end

/-! ## The array inside a struct -/

theorem leaves_wrapped (t : LType) : leaves (.struct none [t]) 0 = leaves t 0 := by
  simp [leaves, fieldLeaves, alignTo_zero t.shape.align_pos]

theorem allocSize_wrapped (t : LType) :
    (LType.struct none [t]).shape.allocSize = t.shape.allocSize := by
  have hmax : max t.shape.align 1 = t.shape.align := Nat.max_eq_left t.shape.align_pos
  simp only [shape, shapes, Shape.allocSize_record, endPos, maxAlign, hmax,
    alignTo_zero t.shape.align_pos, Nat.zero_add]
  exact alignTo_of_dvd t.shape.align_pos (Shape.align_dvd_allocSize _)

section Wrapped

variable {T : Btype} {n : ℕ} (hplain : T.type.isPlain)

theorem array_chain (hplain : T.type.isPlain) (k : ℕ) {b : ℕ} (hb : 8 ∣ b) :
    Chain 8 b ((leaves (array T.type k) b).map Leaf.span) (b + k * T.type.shape.allocSize) := by
  have h : (array T.type k).isPlain := hplain
  have hc := leaves_chain (array T.type k) b h ((align_dvd _ h).trans hb)
  rwa [shape, Shape.allocSize_array] at hc

include hplain

theorem explodeStruct_wrapped (h16 : n * T.type.shape.allocSize ≤ 16) :
    explodeStruct (.struct none [.array T n]) =
      if (Btype.array T n).isWalkable then
        some ((leaves (array T.type n) 0).foldl pushLeaf [])
      else none := by
  have hsized : (Btype.struct none [.array T n]).type.isSized :=
    isSized_of_isPlain _ (by
      simpa [Btype.type, Btype.types, LType.isPlain, LType.arePlain] using hplain)
  have halloc : (Btype.struct none [.array T n]).type.shape.allocSize =
      n * T.type.shape.allocSize := by
    rw [show (Btype.struct none [.array T n]).type = .struct none [array T.type n] from rfl,
      allocSize_wrapped, shape, Shape.allocSize_array]
  rw [explodeStruct_eq hsized (halloc.trans_le h16),
    show (Btype.struct none [.array T n]).type = .struct none [array T.type n] from rfl,
    leaves_wrapped]
  simp [Btype.isWalkable, Btype.areWalkable]

theorem eightByteInfo_wrapped_one (hw : (Btype.array T n).isWalkable)
    (h1 : 1 ≤ n * T.type.shape.allocSize) (h8 : n * T.type.shape.allocSize ≤ 8) :
    eightByteInfo (.struct none [.array T n]) =
      determineABITypes [region (leaves (array T.type n) 0)] := by
  have hc := array_chain hplain n (Nat.dvd_zero 8)
  rw [Nat.zero_add] at hc
  simp only [eightByteInfo, explode, explodeStruct_wrapped hplain (h8.trans (by decide)), hw, if_true,
    Option.bind_eq_bind, Option.bind_some, foldl_first hc h1 h8]
  rfl

theorem eightByteInfo_wrapped_two {k m : ℕ} (hw : (Btype.array T (k + m)).isWalkable)
    (hk : k * T.type.shape.allocSize = 8) (hm : 0 < m * T.type.shape.allocSize)
    (h16 : (k + m) * T.type.shape.allocSize ≤ 16) :
    eightByteInfo (.struct none [.array T (k + m)]) =
      determineABITypes [region (leaves (array T.type k) 0), region (leaves (array T.type m) 8)] := by
  have hy := array_chain hplain k (Nat.dvd_zero 8)
  have hz := array_chain hplain m (Nat.dvd_refl 8)
  rw [Nat.zero_add, hk] at hy
  have hleaves := leaves_array_add T.type k m 0
  rw [Nat.zero_add, hk] at hleaves
  simp only [eightByteInfo, explode, explodeStruct_wrapped hplain h16, hw, if_true, Option.bind_eq_bind,
    Option.bind_some, hleaves, foldl_both hy hz (by omega)]
  rfl

/-- A region of copies that each have an integer or pointer leaf is typed by the end of the
last leaf. -/
theorem region_array_int {k b : ℕ} (hb : 8 ∣ b) (hk : 0 < k * T.type.shape.allocSize)
    (h8 : k * T.type.shape.allocSize ≤ 8)
    (hf : ∃ l ∈ leaves T.type 0, ¬l.type.isFloatingPointTy) :
    (region (leaves (array T.type k) b)).getRegionTypDisp = flavInt ∧
      ∃ l, determineABIType (region (leaves (array T.type k) b)) =
          some (int ((l.span.stop - b) * 8)) ∧
        (leaves (array T.type k) b).getLast? = some l := by
  have hscalar := leaves_isPlainScalar (array T.type k) b (hplain)
  have hc := array_chain hplain k hb
  obtain ⟨l0, hl0, hnf⟩ := hf
  have hmem := shift_mem_leaves_array b (Nat.pos_of_mul_pos_right hk) hl0
  have hint : (region (leaves (array T.type k) b)).getRegionTypDisp = flavInt := by
    rw [region_disp (List.ne_nil_of_mem hmem) hscalar]
    apply if_neg
    intro hall
    have hfp := List.all_eq_true.mp hall _ hmem
    exact hnf hfp
  refine ⟨hint, ?_⟩
  exact determineABIType_int hscalar (by rw [hint]; decide) hc hb (by omega) (by omega)

end Wrapped

/-! ## Agreement -/

/-- The conditions under which cutting by elements comes out as cutting by leaves does. -/
def CutsAlike (T : Btype) (n : ℕ) : Prop :=
  T.isWalkable ∧
    (getTypDisp T.type = flavSSE ∧
        (T.type.isFloatingPointTy ∨ T.type.shape.allocSize = 4 ∧ (n = 2 ∨ n = 4)) ∨
      (∃ l ∈ T.type.leaves 0, ¬l.type.isFloatingPointTy) ∧
        (∃ l ∈ T.type.leaves 0, l.span.stop = T.type.shape.allocSize) ∧
        (T.type.shape.allocSize * n ≤ 8 ∨ T.type.shape.allocSize = 4 ∨
          T.type.shape.allocSize = 8))

theorem pieces_cases {s n : ℕ} (h : s * n ≤ 16) :
    pieces s n = [(0, n)] ∧ ¬(s = 4 ∧ 3 ≤ n) ∧ ¬(s = 8 ∧ n = 2) ∨
      ∃ k m, n = k + 1 + (m + 1) ∧ pieces s n = [(0, k + 1), (k + 1, m + 1)] ∧
        (s = 8 ∧ k = 0 ∧ m = 0 ∨ s = 4 ∧ k = 1 ∧ m ≤ 1 ∨ s = 5 ∧ k = 1 ∧ m = 0) := by
  unfold pieces
  split_ifs with h45 h8
  · right
    refine ⟨1, n - 3, by omega, by simp; omega, ?_⟩
    rcases h45.1 with rfl | rfl <;> omega
  · obtain ⟨rfl, rfl⟩ := h8
    exact .inr ⟨0, 0, rfl, rfl, .inl ⟨rfl, rfl, rfl⟩⟩
  · left
    refine ⟨rfl, ?_, h8⟩
    rintro ⟨rfl, h3⟩
    exact h45 ⟨.inl rfl, h3⟩

theorem determineABITypes_cons_some {ebr : EightByteRegion} {ebrs r : List EightByteRegion}
    (h : determineABITypes (ebr :: ebrs) = some r) :
    ∃ t rs, determineABIType ebr = some t ∧ determineABITypes ebrs = some rs ∧
      r = ebr.withType t :: rs := by
  unfold determineABITypes at h ⊢
  simp only [List.mapM_cons, Option.bind_eq_bind, Option.pure_def] at h
  obtain ⟨x, hx, h⟩ := Option.bind_eq_some_iff.mp h
  obtain ⟨rs, hrs, h⟩ := Option.bind_eq_some_iff.mp h
  obtain ⟨t, ht, rfl⟩ := Option.map_eq_some_iff.mp hx
  exact ⟨t, rs, ht, hrs, (Option.some.inj h).symm⟩

section Agreement

variable {T : Btype} {n : ℕ}

/-- The last leaf of an array ends it exactly when the elements have no tail padding. -/
theorem last_stop_iff (hplain : T.type.isPlain) {k b : ℕ} (hb : 8 ∣ b) (hk : 0 < k) {l : Leaf}
    (hl : (leaves (array T.type k) b).getLast? = some l) :
    l.span.stop = b + k * T.type.shape.allocSize ↔
      ∃ l' ∈ T.type.leaves 0, l'.span.stop = T.type.shape.allocSize := by
  have hc := array_chain hplain k hb
  have helem := leaves_chain T.type 0 hplain (Nat.dvd_zero _)
  rw [Nat.zero_add] at helem
  constructor
  · intro hstop
    obtain ⟨i, hi, l', hl', rfl⟩ := mem_leaves_array (List.mem_of_getLast? hl)
    have hle := (leaf_pos helem hl').2.2
    have hmul : (i + 1) * T.type.shape.allocSize ≤ k * T.type.shape.allocSize :=
      Nat.mul_le_mul_right _ hi
    rw [Nat.add_mul, Nat.one_mul] at hmul
    rw [shift_stop] at hstop
    exact ⟨l', hl', by omega⟩
  · rintro ⟨l', hl', hstop'⟩
    obtain ⟨j, rfl⟩ := Nat.exists_eq_add_of_lt hk
    have hmem := shift_mem_leaves_array b (show j < 0 + j + 1 by omega) hl'
    have hle := chain_last hc hl _ hmem
    have hge := (leaf_pos hc (List.mem_of_getLast? hl)).2.2
    rw [shift_stop, hstop'] at hle
    rw [Nat.add_mul, Nat.one_mul] at hge ⊢
    rw [Nat.zero_add] at hge ⊢
    omega

/-- Element-wise and leaf-wise regions over the same whole elements agree. -/
theorem region_agrees (hplain : T.type.isPlain) (hsz : T.type.shape.allocSize ≤ 16)
    {i k b : ℕ} (hb : 8 ∣ b) (hk : 0 < (k + 1) * T.type.shape.allocSize)
    (h8 : (k + 1) * T.type.shape.allocSize ≤ 8)
    (hf : ∃ l ∈ leaves T.type 0, ¬l.type.isFloatingPointTy)
    (hfull : ∃ l ∈ leaves T.type 0, l.span.stop = T.type.shape.allocSize) :
    ∃ t, determineABIType (block T.type (strideOffsets T.type.shape.allocSize i (k + 1))) =
        some t ∧
      determineABIType (region (leaves (array T.type (k + 1)) b)) = some t ∧
      (block T.type (strideOffsets T.type.shape.allocSize i (k + 1))).getRegionTypDisp =
        (region (leaves (array T.type (k + 1)) b)).getRegionTypDisp := by
  obtain ⟨l0, hl0, hnf⟩ := hf
  have hint := getTypDisp_of_leaf T.type 0 hplain l0 hl0 hnf
  obtain ⟨hdisp, l, ht, hl⟩ := region_array_int hplain hb hk h8 ⟨l0, hl0, hnf⟩
  have hstop := (last_stop_iff hplain hb (Nat.succ_pos k) hl).mpr hfull
  refine ⟨_, ?_, ht, ?_⟩
  · rw [block_int i k (by rw [hint]; decide) (typeSize_of_isPlain hplain hsz),
      llvmArbitraryIntegerType, if_pos ⟨hk.ne', h8⟩, hstop, Nat.add_sub_cancel_left]
  · rw [hdisp, block_disp _ (by simp [strideOffsets]), hint]

theorem leaves_of_sse_four (hplain : T.type.isPlain) (hdisp : getTypDisp T.type = flavSSE)
    (h4 : T.type.shape.allocSize = 4) : T.type.leaves 0 = [⟨float, 0⟩] := by
  have hc := leaves_chain T.type 0 hplain (Nat.dvd_zero _)
  have hfp : ∀ l ∈ T.type.leaves 0, l.type.isFloatingPointTy := by
    intro l hl
    by_contra hnf
    rw [getTypDisp_of_leaf T.type 0 hplain l hl hnf] at hdisp
    contradiction
  rw [h4, Nat.zero_add] at hc
  obtain ⟨l, rest, hls, hl⟩ := chain_first hc (Nat.dvd_zero 8) (by decide)
  rw [hls] at hc hfp
  have hsize := float_size l.type (hfp l List.mem_cons_self)
  have hl4 := (leaf_pos hc List.mem_cons_self).2.2
  simp only [Leaf.span, Span.stop] at hl4
  have hrest : rest = [] := by
    cases rest with
    | nil => rfl
    | cons l' rest =>
      have hl' := leaf_pos hc (List.mem_cons_of_mem _ List.mem_cons_self)
      have hnext : l.offset + l.type.shape.storeSize ≤ l'.offset := hc.2.2.2.1
      simp only [Leaf.span, Span.stop] at hl'
      omega
  rw [hls, hrest]
  obtain ⟨lt, lo⟩ := l
  rcases hsize with ⟨rfl, -⟩ | ⟨-, h8⟩
  · rw [show lo = 0 from hl]
  · simp only at hl4 h8
    omega

section Size

variable (hplain : T.type.isPlain) (h1 : 1 ≤ T.type.shape.allocSize * n)
  (h16 : T.type.shape.allocSize * n ≤ 16)

include hplain h1 h16

theorem eightByteInfo_array : eightByteInfo (.array T n) =
    determineABITypes ((pieces T.type.shape.allocSize n).map fun p =>
      block T.type (strideOffsets T.type.shape.allocSize p.1 p.2)) := by
  simp only [eightByteInfo, explode, explodeArray_eq hplain h1 h16, Option.bind_eq_bind, Option.bind_some]
  rcases pieces_cases h16 with ⟨h, -⟩ | ⟨k, m, -, h, -⟩ <;> rw [h] <;> rfl

omit hplain in
theorem isWalkable_array (hw : T.isWalkable) : (Btype.array T n).isWalkable := by
  have hn : n ≤ 16 := (Nat.le_mul_of_pos_left _ (elem_pos h1).1).trans h16
  simp only [Btype.isWalkable, hw, Bool.and_true, Bool.or_eq_true, decide_eq_true_eq]
  right
  omega

/-- With integer or pointer leaves and no tail padding, every region that is small enough
agrees. -/
theorem classifiedAsStruct_int (hw : T.isWalkable)
    (hf : ∃ l ∈ T.type.leaves 0, ¬l.type.isFloatingPointTy)
    (hfull : ∃ l ∈ T.type.leaves 0, l.span.stop = T.type.shape.allocSize)
    (hfit : T.type.shape.allocSize * n ≤ 8 ∨ T.type.shape.allocSize = 4 ∨
      T.type.shape.allocSize = 8) : ClassifiedAsStruct T n := by
  obtain ⟨hs, hn⟩ := elem_pos h1
  have hs16 : T.type.shape.allocSize ≤ 16 := (Nat.le_mul_of_pos_right _ hn).trans h16
  have hwalk := isWalkable_array h1 h16 hw
  have hinfo := eightByteInfo_array hplain h1 h16
  rcases pieces_cases h16 with ⟨hp, h4, h8⟩ | ⟨k, m, rfl, hp, hcases⟩
  · obtain ⟨k, rfl⟩ := Nat.exists_eq_add_of_lt hn
    rw [Nat.zero_add] at *
    have hle : (k + 1) * T.type.shape.allocSize ≤ 8 := by
      rw [Nat.mul_comm]
      rcases hfit with h | h | h <;> first | exact h | (rw [h] at h16 h4 h8 ⊢; omega)
    have hpos : 1 ≤ (k + 1) * T.type.shape.allocSize := by rwa [Nat.mul_comm]
    obtain ⟨t, ht, ht', hd⟩ := region_agrees (i := 0) hplain hs16 (Nat.dvd_zero 8) hpos hle hf hfull
    rw [hp] at hinfo
    refine ⟨_, _, hinfo.trans (determineABITypes_cons ht rfl),
      (eightByteInfo_wrapped_one hplain hwalk hpos hle).trans (determineABITypes_cons ht' rfl), ?_⟩
    apply sameClassification_of
    · exact congrArg (fun d => [d]) hd
    · rfl
  · have hk8 : (k + 1) * T.type.shape.allocSize = 8 := by
      rcases hcases with ⟨h, rfl, rfl⟩ | ⟨h, rfl, -⟩ | ⟨h, rfl, rfl⟩
      · rw [h]
      · rw [h]
      · rw [h] at hfit
        omega
    have hm8 : (m + 1) * T.type.shape.allocSize ≤ 8 := by
      rw [Nat.mul_comm, Nat.add_mul, hk8] at h16
      omega
    have hmpos := Nat.mul_pos (Nat.succ_pos m) hs
    obtain ⟨t, ht, ht', hd⟩ := region_agrees (i := 0) hplain hs16 (Nat.dvd_zero 8)
      (by omega) hk8.le hf hfull
    obtain ⟨u, hu, hu', he⟩ := region_agrees (i := k + 1) hplain hs16 (Nat.dvd_refl 8)
      hmpos hm8 hf hfull
    rw [hp] at hinfo
    refine ⟨_, _, hinfo.trans (determineABITypes_cons ht (determineABITypes_cons hu rfl)),
      (eightByteInfo_wrapped_two hplain hwalk hk8 hmpos (by rwa [Nat.mul_comm])).trans
        (determineABITypes_cons ht' (determineABITypes_cons hu' rfl)), ?_⟩
    apply sameClassification_of
    · exact congrArg₂ (fun d e => [d, e]) hd he
    · rfl

/-- A composite of one float travels in pairs as the vector of two floats. -/
theorem classifiedAsStruct_sse (hw : T.isWalkable) (hdisp : getTypDisp T.type = flavSSE)
    (h4 : T.type.shape.allocSize = 4) (hn : n = 2 ∨ n = 4) : ClassifiedAsStruct T n := by
  have hwalk := isWalkable_array h1 h16 hw
  have hinfo := eightByteInfo_array hplain h1 h16
  have hpair : ∀ b, leaves (array T.type 2) b = [⟨float, b⟩, ⟨float, b + 4⟩] := by
    intro b
    have hadd := fun k => leaves_add k T.type 0
    simp only [Nat.add_zero, leaves_of_sse_four hplain hdisp h4] at hadd
    simp [leaves, List.range_succ, h4, hadd, Leaf.shift]
  have hblock : ∀ i, determineABIType (block T.type (strideOffsets 4 i 2)) = some twoFloatVec :=
    fun i => block_sse_two _ _ hdisp
  have hclass : ∀ i, (block T.type (strideOffsets 4 i 2)).getRegionTypDisp = flavSSE :=
    fun i => (block_disp T.type (by simp [strideOffsets])).trans hdisp
  rw [h4] at hinfo
  rcases hn with rfl | rfl
  · have hone := eightByteInfo_wrapped_one hplain hwalk (by omega) (by omega)
    rw [hpair] at hone
    refine ⟨_, _, hinfo.trans (determineABITypes_cons (hblock 0) rfl), hone.trans rfl, ?_⟩
    apply sameClassification_of
    · exact congrArg (fun d => [d]) (hclass 0)
    · rfl
  · have htwo := eightByteInfo_wrapped_two (k := 2) (m := 2) hplain hwalk (by omega) (by omega)
      (by omega)
    rw [hpair, hpair] at htwo
    refine ⟨_, _, hinfo.trans (determineABITypes_cons (hblock 0)
      (determineABITypes_cons (hblock 2) rfl)), htwo.trans rfl, ?_⟩
    apply sameClassification_of
    · exact congrArg₂ (fun d e => [d, e]) (hclass 0) (hclass 2)
    · rfl

end Size

/-- Arrays of plain floating point numbers agree. -/
theorem classifiedAsStruct_fp (hplain : T.isPlain) (hfp : T.type.isFloatingPointTy)
    (h1 : 1 ≤ T.type.shape.allocSize * n) (h16 : T.type.shape.allocSize * n ≤ 16) :
    ClassifiedAsStruct T n := by
  match T with
  | .float .f32 =>
    have hn : n ≤ 4 := Nat.le_of_mul_le_mul_left h16 (by decide)
    interval_cases n
    · contradiction
    all_goals exact ⟨_, _, rfl, rfl, rfl, rfl, rfl, rfl⟩
  | .float .f64 =>
    have hn : n ≤ 2 := Nat.le_of_mul_le_mul_left h16 (by decide)
    interval_cases n
    · contradiction
    all_goals exact ⟨_, _, rfl, rfl, rfl, rfl, rfl, rfl⟩

/-! ## Disagreement -/

theorem isWalkable_of_classified (hplain : T.type.isPlain) (hn : 0 < n)
    (h16 : n * T.type.shape.allocSize ≤ 16) (h : ClassifiedAsStruct T n) : T.isWalkable := by
  obtain ⟨a, b, -, hb, -⟩ := h
  by_contra hw
  have hwalk : ¬(Btype.array T n).isWalkable := by
    simp [Btype.isWalkable, hw, hn.ne']
  simp only [eightByteInfo, explode, explodeStruct_wrapped hplain h16, hwalk] at hb
  contradiction

theorem four_dvd_of_sse (hplain : T.type.isPlain) (hdisp : getTypDisp T.type = flavSSE)
    (hs : 0 < T.type.shape.allocSize) : 4 ∣ T.type.shape.allocSize := by
  have hc := leaves_chain T.type 0 hplain (Nat.dvd_zero _)
  rw [Nat.zero_add] at hc
  obtain ⟨l, rest, hls, -⟩ := chain_first hc (Nat.dvd_zero 8) hs
  have hl : l ∈ T.type.leaves 0 := by rw [hls]; exact List.mem_cons_self
  have hfp : l.type.isFloatingPointTy := by
    by_contra hnf
    rw [getTypDisp_of_leaf T.type 0 hplain l hl hnf] at hdisp
    contradiction
  apply Nat.dvd_trans ?_ ((leaf_size_dvd_align T.type 0 hplain l hl).trans
    (Shape.align_dvd_allocSize _))
  rcases float_size l.type hfp with ⟨-, h⟩ | ⟨-, h⟩
  · rw [h]
  · rw [h]
    decide

/-- Elements of class SSE need to come in pairs, or to be scalars. -/
theorem cuts_of_sse (hplain : T.type.isPlain) (hdisp : getTypDisp T.type = flavSSE)
    (h1 : 1 ≤ T.type.shape.allocSize * n) (h16 : T.type.shape.allocSize * n ≤ 16)
    {a : List EightByteRegion} (ha : eightByteInfo (.array T n) = some a) :
    T.type.isFloatingPointTy ∨ T.type.shape.allocSize = 4 ∧ (n = 2 ∨ n = 4) := by
  obtain ⟨hs, hn⟩ := elem_pos h1
  obtain ⟨q, hq⟩ := four_dvd_of_sse hplain hdisp hs
  rw [eightByteInfo_array hplain h1 h16] at ha
  rcases pieces_cases h16 with ⟨hp, h4, h8⟩ | ⟨k, m, rfl, hp, hcases⟩
  · rw [hp] at ha
    obtain ⟨t, -, ht, -⟩ := determineABITypes_cons_some ha
    rcases block_sse_cases (by simp [strideOffsets]; omega) hdisp ht with hlen | ⟨-, hfp⟩
    · right
      obtain rfl : n = 2 := by simpa [strideOffsets] using hlen
      omega
    · exact .inl hfp
  · rw [hp] at ha
    obtain ⟨t, rs, ht, hrs, -⟩ := determineABITypes_cons_some ha
    obtain ⟨t', -, ht', -⟩ := determineABITypes_cons_some hrs
    rcases block_sse_cases (by simp [strideOffsets]) hdisp ht with hlen | ⟨-, hfp⟩
    · rcases block_sse_cases (by simp [strideOffsets]) hdisp ht' with hlen' | ⟨-, hfp⟩
      · have hk : k + 1 = 2 := by simpa [strideOffsets] using hlen
        have hm : m + 1 = 2 := by simpa [strideOffsets] using hlen'
        omega
      · exact .inl hfp
    · exact .inl hfp

/-- A first region that agrees, and is not of class SSE, has an integer or pointer leaf and
no padding at its end. -/
theorem first_region (hplain : T.type.isPlain) (hdisp : getTypDisp T.type ≠ flavSSE)
    (hs16 : T.type.shape.allocSize ≤ 16) {k : ℕ} (hk : 0 < (k + 1) * T.type.shape.allocSize)
    {t : LType} (ht : determineABIType
      (block T.type (strideOffsets T.type.shape.allocSize 0 (k + 1))) = some t)
    (hagree : (k + 1) * T.type.shape.allocSize ≤ 8 →
      determineABIType (region (leaves (array T.type (k + 1)) 0)) = some t ∧
      (region (leaves (array T.type (k + 1)) 0)).getRegionTypDisp = getTypDisp T.type) :
    (k + 1) * T.type.shape.allocSize ≤ 8 ∧
      (∃ l ∈ T.type.leaves 0, ¬l.type.isFloatingPointTy) ∧
      ∃ l ∈ T.type.leaves 0, l.span.stop = T.type.shape.allocSize := by
  rw [block_int 0 k hdisp (typeSize_of_isPlain hplain hs16), llvmArbitraryIntegerType] at ht
  split_ifs at ht with h8
  obtain ⟨ht', hd⟩ := hagree h8.2
  have hc := array_chain hplain (k + 1) (Nat.dvd_zero 8)
  have hscalar := leaves_isPlainScalar (array T.type (k + 1)) 0 hplain
  obtain ⟨l0, rest, hls, -⟩ := chain_first hc (Nat.dvd_zero 8) (by omega)
  have hnf : ∃ l ∈ T.type.leaves 0, ¬l.type.isFloatingPointTy := by
    rw [region_disp (by simp [hls]) hscalar] at hd
    split_ifs at hd with hall
    · exact absurd hd.symm hdisp
    · obtain ⟨l, hl, hlf⟩ : ∃ l ∈ leaves (array T.type (k + 1)) 0,
          ¬l.type.isFloatingPointTy := by simpa using hall
      obtain ⟨i, -, l', hl', rfl⟩ := mem_leaves_array hl
      exact ⟨l', hl', hlf⟩
  obtain ⟨-, l, hty, hl⟩ := region_array_int hplain (Nat.dvd_zero 8) hk h8.2 hnf
  refine ⟨h8.2, hnf, (last_stop_iff hplain (Nat.dvd_zero 8) (show 0 < k + 1 by omega) hl).mp ?_⟩
  have hint : (l.span.stop - 0) * 8 = (k + 1) * T.type.shape.allocSize * 8 := by
    have := Option.some.inj ((hty.symm.trans ht').trans ht.symm)
    injection this
  omega

theorem cuts_of_int (hplain : T.type.isPlain) (hdisp : getTypDisp T.type ≠ flavSSE)
    (h1 : 1 ≤ T.type.shape.allocSize * n) (h16 : T.type.shape.allocSize * n ≤ 16)
    (h : ClassifiedAsStruct T n) :
    (∃ l ∈ T.type.leaves 0, ¬l.type.isFloatingPointTy) ∧
      (∃ l ∈ T.type.leaves 0, l.span.stop = T.type.shape.allocSize) ∧
      (T.type.shape.allocSize * n ≤ 8 ∨ T.type.shape.allocSize = 4 ∨
        T.type.shape.allocSize = 8) := by
  obtain ⟨hs, hn⟩ := elem_pos h1
  have hs16 : T.type.shape.allocSize ≤ 16 := (Nat.le_mul_of_pos_right _ hn).trans h16
  have hw := isWalkable_of_classified hplain hn (by rwa [Nat.mul_comm]) h
  have hwalk := isWalkable_array h1 h16 hw
  obtain ⟨a, b, ha, hb, -, hclass, htypes, -⟩ := h
  rw [eightByteInfo_array hplain h1 h16] at ha
  rcases pieces_cases h16 with ⟨hp, -, -⟩ | ⟨k, m, rfl, hp, hcases⟩
  · obtain ⟨k, rfl⟩ := Nat.exists_eq_add_of_lt hn
    rw [Nat.zero_add] at *
    rw [hp] at ha
    obtain ⟨t, rs, ht, -, rfl⟩ := determineABITypes_cons_some ha
    have hpos : 1 ≤ (k + 1) * T.type.shape.allocSize := by rwa [Nat.mul_comm]
    obtain ⟨h8, hnf, hfull⟩ := first_region hplain hdisp hs16 hpos ht (by
      intro h8
      rw [eightByteInfo_wrapped_one hplain hwalk hpos h8] at hb
      obtain ⟨t', rs', ht', -, rfl⟩ := determineABITypes_cons_some hb
      have htt := (List.cons.inj htypes).1
      have hdd := (List.cons.inj hclass).1
      refine ⟨ht'.trans htt.symm, hdd.symm.trans ?_⟩
      exact block_disp T.type (by simp [strideOffsets]))
    exact ⟨hnf, hfull, .inl (by rwa [Nat.mul_comm])⟩
  · rw [hp] at ha
    obtain ⟨t, rs, ht, -, rfl⟩ := determineABITypes_cons_some ha
    have hmpos := Nat.mul_pos (Nat.succ_pos m) hs
    have hkpos := Nat.mul_pos (Nat.succ_pos k) hs
    have hk8 : (k + 1) * T.type.shape.allocSize ≤ 8 → (k + 1) * T.type.shape.allocSize = 8 := by
      rcases hcases with ⟨h, rfl, rfl⟩ | ⟨h, rfl, -⟩ | ⟨h, rfl, rfl⟩ <;> rw [h] <;> omega
    obtain ⟨h8, hnf, hfull⟩ := first_region hplain hdisp hs16 hkpos ht (by
      intro h8
      rw [eightByteInfo_wrapped_two hplain hwalk (hk8 h8) hmpos (by rwa [Nat.mul_comm])] at hb
      obtain ⟨t', rs', ht', -, rfl⟩ := determineABITypes_cons_some hb
      have htt := (List.cons.inj htypes).1
      have hdd := (List.cons.inj hclass).1
      refine ⟨ht'.trans htt.symm, hdd.symm.trans ?_⟩
      exact block_disp T.type (by simp [strideOffsets]))
    refine ⟨hnf, hfull, .inr ?_⟩
    rcases hcases with ⟨h, -⟩ | ⟨h, -⟩ | ⟨h, rfl, rfl⟩
    · exact .inr h
    · exact .inl h
    · rw [h] at h8
      omega

/-- An array is classified as the struct around it exactly when both cuts are alike. -/
theorem classifiedAsStruct_iff (hplain : T.isPlain) (h1 : 1 ≤ T.type.shape.allocSize * n)
    (h16 : T.type.shape.allocSize * n ≤ 16) : ClassifiedAsStruct T n ↔ CutsAlike T n := by
  have htplain := Btype.type_isPlain T hplain
  constructor
  · intro h
    have hn := (elem_pos h1).2
    refine ⟨isWalkable_of_classified htplain hn (by rwa [Nat.mul_comm]) h, ?_⟩
    by_cases hdisp : getTypDisp T.type = flavSSE
    · obtain ⟨a, b, ha, -⟩ := h
      exact .inl ⟨hdisp, cuts_of_sse htplain hdisp h1 h16 ha⟩
    · exact .inr (cuts_of_int htplain hdisp h1 h16 h)
  · rintro ⟨hw, ⟨hdisp, hfp | ⟨h4, hn⟩⟩ | ⟨hnf, hfull, hfit⟩⟩
    · exact classifiedAsStruct_fp hplain hfp h1 h16
    · exact classifiedAsStruct_sse htplain h1 h16 hw hdisp h4 hn
    · exact classifiedAsStruct_int htplain h1 h16 hw hnf hfull hfit

/-- `[2]struct { int16; int16 }` is. -/
theorem classifiedAsStruct_pairs :
    ClassifiedAsStruct (.struct none [.integer false 16, .integer false 16]) 2 :=
  (classifiedAsStruct_iff (by decide) (by decide) (by decide)).mpr
    ⟨by decide, .inr ⟨by decide, by decide, by decide⟩⟩

/-- `[6]uint16`, which the comment on `explodeArray` shows cut at byte 8, is not: it stays
one region of 12 bytes. -/
theorem not_classifiedAsStruct_six :
    (Btype.integer true 16).isPlain ∧ 1 ≤ (Btype.integer true 16).type.shape.allocSize * 6 ∧
      (Btype.integer true 16).type.shape.allocSize * 6 ≤ 16 ∧
      ¬ClassifiedAsStruct (.integer true 16) 6 := by
  refine ⟨by decide, by decide, by decide, ?_⟩
  rintro ⟨a, b, ha, -⟩
  have hnone : (eightByteInfo (.array (.integer true 16) 6)).isNone := by decide
  rw [ha] at hnone
  contradiction

end Agreement

end Dragongo
