import Dragongo.ABIStructLayout
import Dragongo.CABIOracle
import Dragongo.EightByteArray
import Dragongo.RegisterRule

/-!
# Which function types can be built

The types a Go program gives rise to include auxiliary ones: complex numbers and the
markers of circular pointers.  Here is exactly when the oracle gets through a list of
parameters and a result of such types without a failed assertion.
-/

namespace Dragongo
open LType TypDisp

/-- `TypeManager::complexType`, with the LLVM type of one half. -/
def complexType (elemTy : LType) : Btype := .aux (makeLLVMTwoElementStructType elemTy elemTy)

def isGoAux : LType → Bool
  | .struct none [float, float] | .struct none [double, double] | ptr (structRef _) => true
  | _ => false

mutual
/-- The types of values in a Go program. -/
def isGoType : Btype → Bool
  | .integer _ bits => bits == 8 || bits == 16 || bits == 32 || bits == 64
  | .float width => width != .f128
  | .pointer _ => true
  | .aux t => isGoAux t
  | .struct _ fields => areGoTypes fields
  | .array elemType _ => isGoType elemType
  | .function _ => false
def areGoTypes : List Btype → Bool
  | [] => true
  | t :: ts => isGoType t && areGoTypes ts
end

theorem isGoAux_isPlain : ∀ t : LType, isGoAux t → t.isPlain
  | .struct none [float, float], _ | .struct none [double, double], _ => by decide
  | ptr (structRef _), _ => rfl

mutual
theorem isGoType_isPlain : ∀ bt : Btype, isGoType bt → bt.type.isPlain
  | .integer _ _, h => h
  | .float .f32, _ | .float .f64, _ | .pointer _, _ => rfl
  | .aux t, h => isGoAux_isPlain t h
  | .struct _ fields, h => areGoTypes_arePlain fields h
  | .array elemType _, h => isGoType_isPlain elemType h
theorem areGoTypes_arePlain : ∀ bts : List Btype, areGoTypes bts → arePlain (Btype.types bts)
  | [], _ => rfl
  | t :: ts, h => by
    simp only [areGoTypes, Btype.types, arePlain, Bool.and_eq_true] at h ⊢
    exact ⟨isGoType_isPlain t h.1, areGoTypes_arePlain ts h.2⟩
end

/-- Regions of whole elements can be typed. -/
def ElementsFit (t : LType) (n : ℕ) : Prop :=
  getTypDisp t = flavSSE ∧ (t.isFloatingPointTy ∨ t.shape.allocSize = 4 ∧ (n = 2 ∨ n = 4)) ∨
    getTypDisp t ≠ flavSSE ∧
      (t.shape.allocSize * n ≤ 8 ∨ t.shape.allocSize = 4 ∨ t.shape.allocSize = 8)

/-- A type of 1 to 16 bytes can be cut into eightbytes. -/
def EightBytesFit : Btype → Prop
  | .struct id fields => (Btype.struct id fields).isWalkable
  | .array elemType n => ElementsFit elemType.type n
  | bt => bt.type.shape.allocSize ≤ 8

/-- Nothing is cut when nothing is passed, or when it is passed in memory. -/
def Fits (bt : Btype) : Prop :=
  bt.type.shape.allocSize = 0 ∨ 16 < bt.type.shape.allocSize ∨ EightBytesFit bt

instance (t : LType) (n : ℕ) : Decidable (ElementsFit t n) := inferInstanceAs (Decidable (_ ∨ _))

instance : ∀ bt : Btype, Decidable (EightBytesFit bt)
  | .struct id fields => inferInstanceAs (Decidable ((Btype.struct id fields).isWalkable = true))
  | .array elemType n => inferInstanceAs (Decidable (ElementsFit elemType.type n))
  | .integer .. | .float _ | .pointer _ | .aux _ | .function _ =>
    inferInstanceAs (Decidable (_ ≤ 8))

instance (bt : Btype) : Decidable (Fits bt) := inferInstanceAs (Decidable (_ ∨ _))

/-! ## Cutting -/

def NoAttr (ebrs : List EightByteRegion) : Prop := ∀ e ∈ ebrs, e.attr = .none

/-- What holds of the empty region and stays when an element is pushed on one holds of all. -/
theorem pushElement_forall {P : EightByteRegion → Prop} (h0 : P {})
    (hpush : ∀ ebr t o, P ebr → P (ebr.push t o)) {ebrs : List EightByteRegion}
    (h : ∀ ebr ∈ ebrs, P ebr) (fresh : Bool) (t : LType) (o : ℕ) :
    ∀ ebr ∈ pushElement ebrs fresh t o, P ebr := by
  intro ebr hebr
  unfold pushElement at hebr
  split_ifs at hebr
  · rcases List.mem_append.mp hebr with hebr | hebr
    · exact h ebr hebr
    · rw [List.mem_singleton.mp hebr]
      exact hpush _ t o h0
  · rcases List.mem_append.mp hebr with hebr | hebr
    · exact h ebr ((List.dropLast_sublist ebrs).subset hebr)
    · obtain ⟨cur8, hcur8, rfl⟩ := Option.map_eq_some_iff.mp (Option.mem_toList.mp hebr)
      exact hpush cur8 t o (h cur8 (List.mem_of_getLast? hcur8))

section Explode

variable {P : EightByteRegion → Prop} (h0 : P {}) (hpush : ∀ ebr t o, P ebr → P (ebr.push t o))
  {ebrs : List EightByteRegion}

include h0 hpush

theorem explodeStruct_forall {bst : Btype} (h : explodeStruct bst = some ebrs) :
    ∀ ebr ∈ ebrs, P ebr := by
  obtain ⟨sz, -, h⟩ := Option.bind_eq_some_iff.mp h
  split_ifs at h
  obtain ⟨leafTypes, -, h⟩ := Option.bind_eq_some_iff.mp h
  obtain rfl := Option.some.inj h
  refine List.foldlRecOn (motive := fun acc => ∀ ebr ∈ acc, P ebr) leafTypes _ (by simp) ?_
  intro acc hacc leaf _
  exact pushElement_forall h0 hpush hacc _ _ _

theorem explodeArray_forall {elemType : Btype} {n : ℕ} (h : explodeArray elemType n = some ebrs) :
    ∀ ebr ∈ ebrs, P ebr := by
  obtain ⟨sz, -, h⟩ := Option.bind_eq_some_iff.mp h
  split_ifs at h
  · obtain ⟨elSize, -, h⟩ := Option.bind_eq_some_iff.mp h
    obtain rfl := Option.some.inj h
    refine List.foldlRecOn (motive := fun acc : List EightByteRegion × ℕ => ∀ ebr ∈ acc.1, P ebr)
      (List.range n) _ (by simp) ?_
    intro acc hacc i _
    exact pushElement_forall h0 hpush hacc _ _ _
  · obtain ⟨elSize, -, h⟩ := Option.bind_eq_some_iff.mp h
    contradiction

end Explode

theorem explodeStruct_noAttr {bst : Btype} {ebrs : List EightByteRegion}
    (h : explodeStruct bst = some ebrs) : NoAttr ebrs :=
  explodeStruct_forall (P := fun ebr => ebr.attr = .none) rfl (fun _ _ _ h => h) h

theorem explodeArray_noAttr {elemType : Btype} {n : ℕ} {ebrs : List EightByteRegion}
    (h : explodeArray elemType n = some ebrs) : NoAttr ebrs :=
  explodeArray_forall (P := fun ebr => ebr.attr = .none) rfl (fun _ _ _ h => h) h

theorem incorporateScalar_length {bt : Btype} {ebrs : List EightByteRegion}
    (h : incorporateScalar bt = some ebrs) : ebrs.length = 1 := by
  obtain ⟨sz, -, h⟩ := Option.bind_eq_some_iff.mp h
  split_ifs at h
  obtain ⟨attr, -, h⟩ := Option.bind_eq_some_iff.mp h
  obtain rfl := Option.some.inj h
  rfl

/-- Only a scalar, which is one region, has an attribute. -/
theorem explode_attr {bt : Btype} {ebrs : List EightByteRegion} (h : explode bt = some ebrs) :
    ebrs.length = 1 ∨ NoAttr ebrs := by
  cases bt with
  | struct => exact .inr (explodeStruct_noAttr h)
  | array => exact .inr (explodeArray_noAttr h)
  | _ => exact .inl (incorporateScalar_length h)

theorem determineABITypes_attr {ebrs rs : List EightByteRegion}
    (h : determineABITypes ebrs = some rs) :
    rs.map (·.attr) = ebrs.map (·.attr) := by
  induction ebrs generalizing rs with
  | nil =>
    obtain rfl := Option.some.inj h
    rfl
  | cons ebr ebrs ih =>
    obtain ⟨t, rs', -, hrs', rfl⟩ := determineABITypes_cons_some h
    simp only [List.map_cons, ih hrs']
    rfl

theorem regionAttr_none {ebrs : List EightByteRegion} (h : NoAttr ebrs)
    (attr : CABIParamAttr) : regionAttr ebrs attr = some attr := by
  induction ebrs with
  | nil => rfl
  | cons ebr ebrs ih =>
    rw [regionAttr, if_neg (not_not.mpr (h ebr List.mem_cons_self))]
    exact ih fun e he => h e (List.mem_cons_of_mem _ he)

/-- The regions of one value never disagree about the attribute. -/
theorem regionAttr_isSome {bt : Btype} {ebrs : List EightByteRegion}
    (h : eightByteInfo bt = some ebrs) : (regionAttr ebrs .none).isSome := by
  obtain ⟨rs, hrs, h⟩ := Option.bind_eq_some_iff.mp h
  split_ifs at h
  have hattr := determineABITypes_attr h
  rcases explode_attr hrs with hlen | hnone
  · have hlen' : ebrs.length = 1 := by
      simpa [hlen] using congrArg List.length hattr
    obtain ⟨ebr, rfl⟩ := List.length_eq_one_iff.mp hlen'
    by_cases ha : ebr.attr = .none <;> simp [regionAttr, ha]
  · have hnone' : NoAttr ebrs := by
      intro e he
      have hmem : e.attr ∈ rs.map (·.attr) := hattr ▸ List.mem_map_of_mem he
      obtain ⟨e', he', heq⟩ := List.mem_map.mp hmem
      exact heq.symm.trans (hnone e' he')
    rw [regionAttr_none hnone']
    rfl

/-! ## Arrays -/

theorem block_sse_some {t : LType} {os : List ℕ} (hdisp : getTypDisp t = flavSSE)
    (hlen : os.length = 2 ∨ os.length = 1 ∧ t.isFloatingPointTy) :
    ∃ t', determineABIType (block t os) = some t' := by
  rcases hlen with hlen | ⟨hlen, hfp⟩
  · obtain ⟨o, o', rfl⟩ := List.length_eq_two.mp hlen
    exact ⟨_, block_sse_two o o' hdisp⟩
  · obtain ⟨o, rfl⟩ := List.length_eq_one_iff.mp hlen
    rcases float_size t hfp with ⟨rfl, -⟩ | ⟨rfl, -⟩
    · exact ⟨float, rfl⟩
    · exact ⟨double, rfl⟩

@[simp] theorem strideOffsets_length (s i k : ℕ) : (strideOffsets s i k).length = k := by
  simp [strideOffsets]

section Array

variable {T : Btype} {n : ℕ} (hplain : T.type.isPlain)
  (h1 : 1 ≤ T.type.shape.allocSize * n) (h16 : T.type.shape.allocSize * n ≤ 16)

include hplain h1 h16

theorem block_fits {i k : ℕ}
    (hsmall : (k + 1) * T.type.shape.allocSize ≤ 8)
    (hpair : getTypDisp T.type = flavSSE → k = 1 ∨ k = 0 ∧ T.type.isFloatingPointTy) :
    ∃ t, determineABIType (block T.type (strideOffsets T.type.shape.allocSize i (k + 1))) =
      some t := by
  obtain ⟨hs, hn⟩ := elem_pos h1
  have hs16 : T.type.shape.allocSize ≤ 16 := (Nat.le_mul_of_pos_right _ hn).trans h16
  by_cases hdisp : getTypDisp T.type = flavSSE
  · apply block_sse_some hdisp
    simpa using hpair hdisp
  · rw [block_int i k hdisp (typeSize_of_isPlain hplain hs16), llvmArbitraryIntegerType]
    exact ⟨_, if_pos ⟨(Nat.mul_pos (Nat.succ_pos k) hs).ne', hsmall⟩⟩

/-- The pieces of a fitting array are small, and of class SSE only as pairs or scalars. -/
theorem eightByteInfo_array_of_fits (hfit : ElementsFit T.type n) :
    ∃ ebrs, eightByteInfo (.array T n) = some ebrs ∧ (ebrs.length = 1 ∨ ebrs.length = 2) := by
  obtain ⟨hs, hn⟩ := elem_pos h1
  have hinfo := eightByteInfo_array hplain h1 h16
  have hfp : T.type.isFloatingPointTy →
      T.type.shape.allocSize = 4 ∨ T.type.shape.allocSize = 8 := by
    intro hfp
    rcases float_size T.type hfp with ⟨h, -⟩ | ⟨h, -⟩
    · exact .inl (h ▸ rfl)
    · exact .inr (h ▸ rfl)
  unfold ElementsFit at hfit
  rcases pieces_cases h16 with ⟨hp, h4, h8⟩ | ⟨k, m, rfl, hp, hcases⟩
  · obtain ⟨k, rfl⟩ := Nat.exists_eq_add_of_lt hn
    rw [Nat.zero_add] at *
    have hsmall : (k + 1) * T.type.shape.allocSize ≤ 8 ∧
        (getTypDisp T.type = flavSSE → k = 1 ∨ k = 0 ∧ T.type.isFloatingPointTy) := by
      rcases hfit with ⟨hd, hfp' | ⟨hs4, hn2⟩⟩ | ⟨hd, hfit⟩
      · rcases hfp hfp' with hs4 | hs8
        · rw [hs4] at h4 ⊢
          have hk : k = 1 ∨ k = 0 := by omega
          exact ⟨by omega, fun _ => hk.imp_right fun hk => ⟨hk, hfp'⟩⟩
        · rw [hs8] at h16 h8 ⊢
          have hk : k = 1 ∨ k = 0 := by omega
          exact ⟨by omega, fun _ => hk.imp_right fun hk => ⟨hk, hfp'⟩⟩
      · rw [hs4] at h4 ⊢
        exact ⟨by omega, fun _ => .inl (by omega)⟩
      · refine ⟨?_, fun hd' => absurd hd' hd⟩
        rw [Nat.mul_comm]
        rcases hfit with h | h | h
        · exact h
        · rw [h] at h4 ⊢
          omega
        · rw [h] at h8 h16 ⊢
          omega
    obtain ⟨t, ht⟩ := block_fits hplain h1 h16 hsmall.1 hsmall.2 (i := 0)
    rw [hp] at hinfo
    exact ⟨_, hinfo.trans (determineABITypes_cons ht rfl), .inl rfl⟩
  · have hsmall : (k + 1) * T.type.shape.allocSize ≤ 8 ∧ (m + 1) * T.type.shape.allocSize ≤ 8 ∧
        (getTypDisp T.type = flavSSE → (k = 1 ∨ k = 0 ∧ T.type.isFloatingPointTy) ∧
          (m = 1 ∨ m = 0 ∧ T.type.isFloatingPointTy)) := by
      rcases hcases with ⟨hs8, rfl, rfl⟩ | ⟨hs4, rfl, hm⟩ | ⟨hs5, rfl, rfl⟩
      · rw [hs8] at hfit ⊢
        refine ⟨by decide, by decide, fun hd => ?_⟩
        have : T.type.isFloatingPointTy := by
          rcases hfit with ⟨-, h | h⟩ | ⟨hd', -⟩
          · exact h
          · omega
          · exact absurd hd hd'
        exact ⟨.inr ⟨rfl, this⟩, .inr ⟨rfl, this⟩⟩
      · rw [hs4] at hfit ⊢
        refine ⟨by decide, by omega, fun hd => ⟨.inl rfl, ?_⟩⟩
        rcases hfit with ⟨-, h | h⟩ | ⟨hd', -⟩
        · by_cases hm1 : m = 1
          · exact .inl hm1
          · exact .inr ⟨by omega, h⟩
        · left
          omega
        · exact absurd hd hd'
      · rw [hs5] at hfit hfp
        rcases hfit with ⟨-, h | h⟩ | ⟨-, h⟩
        · have := hfp h
          omega
        · omega
        · omega
    obtain ⟨t, ht⟩ := block_fits hplain h1 h16 hsmall.1 (fun hd => (hsmall.2.2 hd).1)
      (i := 0)
    obtain ⟨t', ht'⟩ := block_fits hplain h1 h16 hsmall.2.1 (fun hd => (hsmall.2.2 hd).2)
      (i := k + 1)
    rw [hp] at hinfo
    exact ⟨_, hinfo.trans (determineABITypes_cons ht (determineABITypes_cons ht' rfl)), .inr rfl⟩

theorem fits_of_eightByteInfo_array {ebrs : List EightByteRegion}
    (h : eightByteInfo (.array T n) = some ebrs) : ElementsFit T.type n := by
  obtain ⟨hs, hn⟩ := elem_pos h1
  have hs16 : T.type.shape.allocSize ≤ 16 := (Nat.le_mul_of_pos_right _ hn).trans h16
  by_cases hdisp : getTypDisp T.type = flavSSE
  · exact .inl ⟨hdisp, cuts_of_sse hplain hdisp h1 h16 h⟩
  · refine .inr ⟨hdisp, ?_⟩
    have hsz := typeSize_of_isPlain hplain hs16
    rw [eightByteInfo_array hplain h1 h16] at h
    rcases pieces_cases h16 with ⟨hp, -, -⟩ | ⟨k, m, rfl, hp, hcases⟩
    · obtain ⟨k, rfl⟩ := Nat.exists_eq_add_of_lt hn
      rw [Nat.zero_add] at *
      rw [hp] at h
      obtain ⟨t, -, ht, -⟩ := determineABITypes_cons_some h
      rw [block_int 0 k hdisp hsz, llvmArbitraryIntegerType] at ht
      split_ifs at ht with h8
      rw [Nat.mul_comm]
      exact .inl h8.2
    · rw [hp] at h
      obtain ⟨t, -, ht, -⟩ := determineABITypes_cons_some h
      rw [block_int 0 k hdisp hsz, llvmArbitraryIntegerType] at ht
      split_ifs at ht with h8
      rcases hcases with ⟨hs8, -⟩ | ⟨hs4, -⟩ | ⟨hs5, rfl, -⟩
      · exact .inr (.inr hs8)
      · exact .inr (.inl hs4)
      · rw [hs5] at h8
        omega

end Array

/-! ## Any type -/

theorem scalarAttr_of_go : ∀ bt : Btype, isGoType bt → ∃ attr, scalarAttr bt = some attr
  | .integer _ bits, hgo => by
    have hsz := typeSize_scalar (int bits) hgo
    simp [scalarAttr, hsz]
  | .float _, _ | .pointer _, _ | .aux _, _ | .struct _ _, _ | .array _ _, _ => ⟨_, rfl⟩

section Go

variable {bt : Btype} (hgo : isGoType bt)

include hgo

theorem allocSize_of_go : bt.type.allocSize = some bt.type.shape.allocSize :=
  if_pos (isSized_of_isPlain _ (isGoType_isPlain bt hgo))

theorem eightByteInfo_scalar_of_le (hexplode : explode bt = incorporateScalar bt)
    (h8 : bt.type.shape.allocSize ≤ 8) :
    ∃ ebrs, eightByteInfo bt = some ebrs ∧ (ebrs.length = 1 ∨ ebrs.length = 2) := by
  obtain ⟨attr, hattr⟩ := scalarAttr_of_go bt hgo
  simp only [eightByteInfo, hexplode, incorporateScalar, allocSize_of_go hgo, hattr,
    Option.bind_eq_bind, Option.bind_some, if_pos h8]
  exact ⟨_, determineABITypes_cons (t := bt.type) rfl rfl, .inl rfl⟩

theorem le_of_eightByteInfo_scalar (hexplode : explode bt = incorporateScalar bt)
    {ebrs : List EightByteRegion} (h : eightByteInfo bt = some ebrs) :
    bt.type.shape.allocSize ≤ 8 := by
  obtain ⟨rs, hrs, -⟩ := Option.bind_eq_some_iff.mp h
  rw [hexplode] at hrs
  obtain ⟨sz, hsz, hrs⟩ := Option.bind_eq_some_iff.mp hrs
  split_ifs at hrs with h8
  rw [allocSize_of_go hgo] at hsz
  rwa [Option.some.inj hsz]

variable (h1 : 1 ≤ bt.type.shape.allocSize) (h16 : bt.type.shape.allocSize ≤ 16)

include h1 h16

/-- A fitting type of 1 to 16 bytes is cut into one or two regions. -/
theorem eightByteInfo_of_fits (hfit : EightBytesFit bt) :
    ∃ ebrs, eightByteInfo bt = some ebrs ∧ (ebrs.length = 1 ∨ ebrs.length = 2) := by
  have hplain := isGoType_isPlain bt hgo
  match bt with
  | .struct id fields =>
    obtain ⟨ebrs, ts, h, hchunks⟩ := eightByteInfo_struct hplain hfit h1 h16
    exact ⟨ebrs, h, hchunks.length⟩
  | .array T n =>
    rw [Btype.type, shape, Layout.Shape.allocSize_array, Nat.mul_comm] at h1 h16
    exact eightByteInfo_array_of_fits hplain h1 h16 hfit
  | .integer .. | .float _ | .pointer _ | .aux _ => exact eightByteInfo_scalar_of_le hgo rfl hfit

theorem fits_of_eightByteInfo {ebrs : List EightByteRegion} (h : eightByteInfo bt = some ebrs) :
    EightBytesFit bt := by
  have hplain := isGoType_isPlain bt hgo
  match bt with
  | .struct id fields =>
    by_contra hw
    rw [eightByteInfo_struct_none (isSized_of_isPlain _ hplain) h16 hw] at h
    contradiction
  | .array T n =>
    rw [Btype.type, shape, Layout.Shape.allocSize_array, Nat.mul_comm] at h1 h16
    exact fits_of_eightByteInfo_array hplain h1 h16 h
  | .integer .. | .float _ | .pointer _ | .aux _ => exact le_of_eightByteInfo_scalar hgo rfl h

end Go

/-! ## Parameters and results -/

theorem passEightBytes_isSome {bt : Btype} {ebrs : List EightByteRegion}
    (h : eightByteInfo bt = some ebrs) (s : ABIState) :
    (passEightBytes bt.type ebrs s).isSome := by
  obtain ⟨ts, hts, -⟩ := eightByteInfo_types h
  obtain ⟨attr, hattr⟩ := Option.isSome_iff_exists.mp (regionAttr_isSome h)
  simp only [passEightBytes, hts, hattr, Option.bind_eq_bind, Option.bind_some]
  split_ifs <;> rfl

theorem directReturn_isSome {bt : Btype} {ebrs : List EightByteRegion}
    (h : eightByteInfo bt = some ebrs) (hlen : ebrs.length = 1 ∨ ebrs.length = 2) :
    (directReturn ebrs).isSome := by
  obtain ⟨ts, hts, -⟩ := eightByteInfo_types h
  rcases hlen with hlen | hlen
  · obtain ⟨ebr, rfl⟩ := List.length_eq_one_iff.mp hlen
    rw [List.mapM_cons] at hts
    obtain ⟨t, ht, -⟩ := Option.bind_eq_some_iff.mp hts
    simp [directReturn, ht]
  · obtain ⟨ebr, ebr', rfl⟩ := List.length_eq_two.mp hlen
    rw [List.mapM_cons, List.mapM_cons] at hts
    obtain ⟨t, ht, hts⟩ := Option.bind_eq_some_iff.mp hts
    obtain ⟨ts', hts', -⟩ := Option.bind_eq_some_iff.mp hts
    obtain ⟨t', ht', -⟩ := Option.bind_eq_some_iff.mp hts'
    simp [directReturn, ht, ht']

theorem classifyArgType_of_go {bt : Btype} (hgo : isGoType bt) :
    classifyArgType bt.type = some (if bt.type.shape.allocSize = 0 then .ignore
      else if bt.type.shape.allocSize ≤ 16 then .direct else .indirect) := by
  simp [classifyArgType, allocSize_of_go hgo]

theorem analyzeABIParam_isSome_iff {bt : Btype} (hgo : isGoType bt) (s : ABIState) :
    (analyzeABIParam bt s).isSome ↔ auxParamAllowed bt ∧ Fits bt := by
  unfold analyzeABIParam Fits
  by_cases haux : auxParamAllowed bt
  · simp only [haux, if_true, classifyArgType_of_go hgo, Option.bind_eq_bind, Option.bind_some,
      true_and]
    by_cases h0 : bt.type.shape.allocSize = 0
    · simp [h0]
    by_cases h16 : bt.type.shape.allocSize ≤ 16
    · rw [if_neg h0, if_pos h16]
      have h1 := Nat.pos_of_ne_zero h0
      constructor
      · intro h
        obtain ⟨r, hr⟩ := Option.isSome_iff_exists.mp h
        obtain ⟨ebrs, hebrs, -⟩ := Option.bind_eq_some_iff.mp hr
        exact .inr (.inr (fits_of_eightByteInfo hgo h1 h16 hebrs))
      · intro hfit
        have hfit := (hfit.resolve_left h0).resolve_left (Nat.not_lt.mpr h16)
        obtain ⟨ebrs, hebrs, -⟩ := eightByteInfo_of_fits hgo h1 h16 hfit
        simpa [hebrs] using passEightBytes_isSome hebrs s
    · simp [h0, h16, Nat.lt_of_not_le h16]
  · simp [haux]

theorem analyzeABIParams_isSome_iff {bts : List Btype} (hgo : ∀ bt ∈ bts, isGoType bt)
    (s : ABIState) :
    (analyzeABIParams bts s).isSome ↔ ∀ bt ∈ bts, auxParamAllowed bt ∧ Fits bt := by
  induction bts generalizing s with
  | nil => simp [analyzeABIParams]
  | cons bt bts ih =>
    have hbt := analyzeABIParam_isSome_iff (hgo bt List.mem_cons_self) s
    have hbts := ih fun b hb => hgo b (List.mem_cons_of_mem _ hb)
    rw [List.forall_mem_cons, ← hbt]
    unfold analyzeABIParams
    cases analyzeABIParam bt s with
    | none => simp
    | some r =>
      rw [← hbts r.2]
      cases h : analyzeABIParams bts r.2 <;> simp [h]

theorem classifyResultType_of_go {bt : Btype} (hgo : isGoType bt) :
    classifyResultType bt.type = some (if bt.type.shape.allocSize = 0 then .ignore
      else if bt.type.shape.allocSize ≤ 16 then .direct else .indirect) := by
  have hvoid : bt.type.isVoidTy = false := by
    have hs := isSized_of_isPlain _ (isGoType_isPlain bt hgo)
    cases h : bt.type <;> first | rfl | (rw [h] at hs; contradiction)
  rw [classifyResultType, hvoid, if_neg Bool.false_ne_true, classifyArgType_of_go hgo]

theorem analyzeABIReturn_isSome_iff {bt : Btype} (hgo : isGoType bt) (s : ABIState) :
    (analyzeABIReturn bt s).isSome ↔ Fits bt := by
  unfold analyzeABIReturn Fits
  simp only [classifyResultType_of_go hgo, Option.bind_eq_bind, Option.bind_some]
  by_cases h0 : bt.type.shape.allocSize = 0
  · simp [h0]
  by_cases h16 : bt.type.shape.allocSize ≤ 16
  · rw [if_neg h0, if_pos h16]
    have h1 := Nat.pos_of_ne_zero h0
    constructor
    · intro h
      obtain ⟨r, hr⟩ := Option.isSome_iff_exists.mp h
      obtain ⟨ebrs, hebrs, -⟩ := Option.bind_eq_some_iff.mp hr
      exact .inr (.inr (fits_of_eightByteInfo hgo h1 h16 hebrs))
    · intro hfit
      have hfit := (hfit.resolve_left h0).resolve_left (Nat.not_lt.mpr h16)
      obtain ⟨ebrs, hebrs, hlen⟩ := eightByteInfo_of_fits hgo h1 h16 hfit
      obtain ⟨info, hinfo⟩ := Option.isSome_iff_exists.mp (directReturn_isSome hebrs hlen)
      simp [hebrs, hinfo]
  · simp [h0, h16, Nat.lt_of_not_le h16]

/-! ## Function types -/

def voidType : Btype := .aux void

/-- The results of functions: a Go type, or none. -/
def isGoResult (bt : Btype) : Prop := isGoType bt ∨ bt = voidType

def ResultFits (bt : Btype) : Prop := bt.type.isVoidTy ∨ Fits bt

theorem analyzeABIReturn_isSome_iff_resultFits {bt : Btype} (hgo : isGoResult bt) (s : ABIState) :
    (analyzeABIReturn bt s).isSome ↔ ResultFits bt := by
  rcases hgo with hgo | rfl
  · rw [analyzeABIReturn_isSome_iff hgo]
    have hs := isSized_of_isPlain _ (isGoType_isPlain bt hgo)
    constructor
    · exact .inr
    · rintro (hv | hfit)
      · cases h : bt.type <;> rw [h] at hv hs <;> contradiction
      · exact hfit
  · exact iff_of_true rfl (.inl rfl)

/-- A result of size zero is ignored, so the function returns void. -/
theorem analyze_returns_void {paramTypes : List Btype} {rbtype : Btype} {oracle : CABIOracle}
    (h : analyze paramTypes rbtype true = some oracle) (hs : rbtype.type.isSized)
    (h0 : rbtype.type.shape.bits = 0) : isFuncReturningVoid oracle.fcnTypeForABI := by
  have halloc : rbtype.type.shape.allocSize = 0 := by
    unfold Layout.Shape.allocSize Layout.Shape.storeSize
    rw [h0]
    exact Layout.alignTo_zero rbtype.type.shape.align_pos
  simp only [analyze, if_true] at h
  obtain ⟨⟨rinfo, state⟩, hret, h⟩ := Option.bind_eq_some_iff.mp h
  obtain ⟨⟨infos, state'⟩, -, h⟩ := Option.bind_eq_some_iff.mp h
  obtain ⟨ft, hft, h⟩ := Option.bind_eq_some_iff.mp h
  obtain rfl := Option.some.inj h
  have hclass : classifyResultType rbtype.type = some .ignore := by
    simp [classifyResultType, classifyArgType, LType.allocSize, hs, halloc]
  simp only [analyzeABIReturn, hclass, Option.bind_eq_bind, Option.bind_some] at hret
  obtain ⟨rfl, -⟩ := Prod.mk.inj (Option.some.inj hret)
  simp only [cookedType, CABIParamInfo.abiType, Option.bind_eq_bind, Option.bind_some] at hft
  obtain rfl := Option.some.inj hft
  rfl

theorem analyze_isSome_iff (paramTypes : List Btype) (rbtype : Btype) :
    (analyze paramTypes rbtype true).isSome ↔
      ∃ rinfo state, analyzeABIReturn rbtype .new = some (rinfo, state) ∧
        (analyzeABIParams paramTypes state.addChainArg).isSome := by
  simp only [analyze, if_true]
  constructor
  · intro h
    obtain ⟨oracle, h⟩ := Option.isSome_iff_exists.mp h
    obtain ⟨⟨rinfo, state⟩, hret, h⟩ := Option.bind_eq_some_iff.mp h
    obtain ⟨r, hparams, h⟩ := Option.bind_eq_some_iff.mp h
    exact ⟨rinfo, state, hret, by rw [hparams]; rfl⟩
  · rintro ⟨rinfo, state, hret, hparams⟩
    obtain ⟨⟨infos, state'⟩, hparams⟩ := Option.isSome_iff_exists.mp hparams
    obtain ⟨-, t, ht⟩ := analyzeABIReturn_holds hret
    obtain ⟨ft, hft⟩ := cookedType_some ht (chainParm state :: infos)
    simp [hret, hparams, hft]

theorem makeLLVMFunctionType_isSome_eq (paramTypes : List Btype) (rbtype : Btype) :
    (makeLLVMFunctionType paramTypes rbtype true).isSome =
      (analyze paramTypes rbtype true).isSome := by
  unfold makeLLVMFunctionType
  cases h : analyze paramTypes rbtype true with
  | none => rfl
  | some oracle =>
    simp only [Option.bind_eq_bind, Option.bind_some]
    apply (congrArg Option.isSome (if_pos ?_)).trans rfl
    by_cases hs : rbtype.type.isSized
    · by_cases h0 : rbtype.type.shape.bits = 0
      · simp [analyze_returns_void h hs h0]
      · simp [h0]
    · simp [hs]

/-- The function type is built exactly when no parameter is a complex number and every
parameter and the result fit. -/
theorem makeLLVMFunctionType_isSome_iff (paramTypes : List Btype) (rbtype : Btype)
    (hparams : ∀ bt ∈ paramTypes, isGoType bt) (hresult : isGoResult rbtype) :
    (makeLLVMFunctionType paramTypes rbtype true).isSome ↔
      (∀ bt ∈ paramTypes, auxParamAllowed bt ∧ Fits bt) ∧ ResultFits rbtype := by
  rw [makeLLVMFunctionType_isSome_eq, analyze_isSome_iff,
    ← analyzeABIReturn_isSome_iff_resultFits hresult .new]
  constructor
  · rintro ⟨rinfo, state, hret, hinfos⟩
    exact ⟨(analyzeABIParams_isSome_iff hparams _).mp hinfos, by rw [hret]; rfl⟩
  · rintro ⟨hfits, hret⟩
    obtain ⟨⟨rinfo, state⟩, hret⟩ := Option.isSome_iff_exists.mp hret
    exact ⟨rinfo, state, hret, (analyzeABIParams_isSome_iff hparams _).mpr hfits⟩

/-- `func(struct { float64; int32 }, [2]uint32) uint8`. -/
theorem makeLLVMFunctionType_pair : (makeLLVMFunctionType
    [.struct none [.float .f64, .integer false 32], .array (.integer true 32) 2]
    (.integer true 8) true).isSome :=
  (makeLLVMFunctionType_isSome_iff _ _ (by decide) (.inl (by decide))).mpr
    ⟨by decide, .inr (by decide)⟩

/-- `func(x complex64)`: the assertion on auxiliary parameters fails. -/
theorem not_makeLLVMFunctionType_complex :
    isGoType (complexType float) ∧ isGoResult voidType ∧
      ¬(makeLLVMFunctionType [complexType float] voidType true).isSome :=
  ⟨by decide, .inr rfl, by decide⟩

end Dragongo
