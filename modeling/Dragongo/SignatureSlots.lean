import Dragongo.ABICompletes
import Dragongo.CallLowering

/-!
# Slots of the LLVM signature

The slots that the oracle assigns, the values that a call pushes and the arguments that a
callee picks up are numbered alike.
-/

namespace Dragongo
open LType CABIParamDisp CABIParamAttr

namespace CABIParamInfo

/-- The number of LLVM parameters that this one takes. -/
def slotCount (info : CABIParamInfo) : ℕ := if info.disp = ignore then 0 else info.numArgSlots

/-- The LLVM parameters that this one takes, from `sigOffset` on. -/
def slots (info : CABIParamInfo) : List ℕ := List.range' info.sigOffset.toNat info.slotCount

theorem slotCount_of_ne {info : CABIParamInfo} (h : info.disp ≠ ignore) :
    info.slotCount = info.numArgSlots := if_neg h

theorem slotCount_ignore {info : CABIParamInfo} (h : info.disp = ignore) :
    info.slotCount = 0 := if_pos h

/-- What the oracle decides about a parameter whose first slot would be `argCount`. -/
structure Placed (info : CABIParamInfo) (argCount : ℕ) : Prop where
  offset : info.disp ≠ ignore → info.sigOffset = argCount
  attr : info.attr ≠ nest
  indirect : info.disp = .indirect → info.numArgSlots = 1
  direct : info.disp = .direct →
    info.attr = .none ∨ (info.attr = .sext ∨ info.attr = .zext) ∧ info.numArgSlots = 1

theorem Placed.slots {info : CABIParamInfo} {argCount : ℕ} (h : info.Placed argCount) :
    info.slots = List.range' argCount info.slotCount := by
  by_cases hd : info.disp = ignore
  · simp only [CABIParamInfo.slots, slotCount_ignore hd, List.range'_zero]
  · simp only [CABIParamInfo.slots, h.offset hd, Int.toNat_natCast]

end CABIParamInfo

open CABIParamInfo

theorem length_slotTypes (infos : List CABIParamInfo) :
    (slotTypes infos).length = (infos.map slotCount).sum := by
  induction infos with
  | nil => rfl
  | cons info infos ih =>
    simp only [List.map_cons, List.sum_cons, ← ih]
    by_cases hd : info.disp = ignore
    · simp [slotTypes, hd, slotCount]
    · simp [slotTypes, hd, slotCount, numArgSlots]

/-! ## The oracle -/

theorem scalarAttr_some {bt : Btype} {attr : CABIParamAttr} (h : scalarAttr bt = some attr) :
    attr = .none ∨ attr = .sext ∨ attr = .zext := by
  cases bt with
  | integer isUnsigned bits =>
    obtain ⟨bytes, -, h⟩ := Option.bind_eq_some_iff.mp h
    obtain rfl := Option.some.inj h
    cases isUnsigned <;> by_cases hb : bytes < 4 <;> simp [hb]
  | _ => exact .inl (Option.some.inj h).symm

/-- What a value is cut into: regions without attributes for a struct or an array, and one
region, which travels as it is, for a scalar. -/
inductive CutInto (bt : Btype) (ebrs : List EightByteRegion) : Prop
  | composite (hbt : (∃ id fields, bt = .struct id fields) ∨ ∃ t n, bt = .array t n)
    (hnone : NoAttr ebrs)
  | scalar (hstruct : ∀ id fields, bt ≠ .struct id fields) (harray : ∀ t n, bt ≠ .array t n)
    (attr : CABIParamAttr) (hattr : scalarAttr bt = some attr)
    (hebrs : ebrs =
      [{ types := [bt.type], offsets := [0], abiDirectType := some bt.type, attr }])

theorem incorporateScalar_some {bt : Btype} {ebrs : List EightByteRegion}
    (h : incorporateScalar bt = some ebrs) (hstruct : ∀ id fields, bt ≠ .struct id fields)
    (harray : ∀ t n, bt ≠ .array t n) : CutInto bt ebrs := by
  obtain ⟨sz, -, h⟩ := Option.bind_eq_some_iff.mp h
  split_ifs at h
  obtain ⟨attr, hattr, h⟩ := Option.bind_eq_some_iff.mp h
  exact .scalar hstruct harray attr hattr (Option.some.inj h).symm

theorem explode_some {bt : Btype} {ebrs : List EightByteRegion} (h : explode bt = some ebrs) :
    CutInto bt ebrs := by
  cases bt with
  | struct id fields => exact .composite (.inl ⟨id, fields, rfl⟩) (explodeStruct_noAttr h)
  | array t n => exact .composite (.inr ⟨t, n, rfl⟩) (explodeArray_noAttr h)
  | _ => exact incorporateScalar_some h (by simp) (by simp)

theorem eightByteInfo_some {bt : Btype} {ebrs : List EightByteRegion}
    (h : eightByteInfo bt = some ebrs) : CutInto bt ebrs := by
  obtain ⟨rs, hrs, h⟩ := Option.bind_eq_some_iff.mp h
  split_ifs at h
  cases explode_some hrs with
  | composite hbt hnone =>
    refine .composite hbt fun ebr hebr => ?_
    have hmem : ebr.attr ∈ rs.map (·.attr) :=
      determineABITypes_attr h ▸ List.mem_map_of_mem hebr
    obtain ⟨r, hr, heq⟩ := List.mem_map.mp hmem
    exact heq.symm.trans (hnone r hr)
  | scalar hstruct harray attr hattr hrs' =>
    subst hrs'
    exact .scalar hstruct harray attr hattr (Option.some.inj h).symm

theorem regionAttr_some {ebrs : List EightByteRegion} {attr result : CABIParamAttr}
    (h : regionAttr ebrs attr = some result) :
    result = attr ∨ ∃ ebr ∈ ebrs, ebr.attr = result := by
  induction ebrs generalizing attr with
  | nil => exact .inl (Option.some.inj h).symm
  | cons ebr ebrs ih =>
    unfold regionAttr at h
    split_ifs at h with hne heq
    · rcases ih h with rfl | ⟨e, he, rfl⟩
      · exact .inr ⟨ebr, List.mem_cons_self, rfl⟩
      · exact .inr ⟨e, List.mem_cons_of_mem _ he, rfl⟩
    · rcases ih h with rfl | ⟨e, he, rfl⟩
      · exact .inl rfl
      · exact .inr ⟨e, List.mem_cons_of_mem _ he, rfl⟩

/-- One parameter gets the next free slot, and as many slots as it has types. -/
theorem analyzeABIParam_placed {bt : Btype} {s s' : ABIState} {info : CABIParamInfo}
    (h : analyzeABIParam bt s = some (info, s')) :
    info.Placed s.argCount ∧ s'.argCount = s.argCount + info.slotCount := by
  unfold analyzeABIParam at h
  split_ifs at h
  obtain ⟨disp, -, h⟩ := Option.bind_eq_some_iff.mp h
  cases disp with
  | ignore =>
    obtain ⟨rfl, rfl⟩ := Prod.mk.inj (Option.some.inj h)
    exact ⟨⟨by simp, by simp, by simp, by simp⟩, rfl⟩
  | indirect =>
    obtain ⟨rfl, rfl⟩ := Prod.mk.inj (Option.some.inj h)
    exact ⟨⟨by simp, by simp, by simp [numArgSlots], by simp⟩, rfl⟩
  | direct =>
    obtain ⟨ebrs, hebrs, h⟩ := Option.bind_eq_some_iff.mp h
    simp only [passEightBytes] at h
    split_ifs at h
    · obtain ⟨ts, hts, h⟩ := Option.bind_eq_some_iff.mp h
      obtain ⟨attr, hattr, h⟩ := Option.bind_eq_some_iff.mp h
      obtain ⟨rfl, rfl⟩ := Prod.mk.inj (Option.some.inj h)
      have hlen : ts.length = ebrs.length := by
        obtain ⟨ts', hts', hlen⟩ := eightByteInfo_types hebrs
        rw [hts] at hts'
        rwa [Option.some.inj hts']
      have hattr' : attr = .none ∨ (attr = .sext ∨ attr = .zext) ∧ ts.length = 1 := by
        rcases regionAttr_some hattr with rfl | ⟨ebr, hebr, rfl⟩
        · exact .inl rfl
        · cases eightByteInfo_some hebrs with
          | composite _ hnone => exact .inl (hnone ebr hebr)
          | scalar _ _ a ha hebrs' =>
            subst hebrs'
            rw [List.mem_singleton.mp hebr, hlen]
            exact (scalarAttr_some ha).imp_right fun h => ⟨h, rfl⟩
      refine ⟨⟨fun _ => rfl, ?_, by simp, fun _ => hattr'⟩, ?_⟩
      · rintro rfl
        simp at hattr'
      · rw [(s.foldl_addDirectArg ebrs).2.2, slotCount_of_ne (by simp), numArgSlots, hlen]
    · obtain ⟨rfl, rfl⟩ := Prod.mk.inj (Option.some.inj h)
      exact ⟨⟨by simp, by simp, by simp [numArgSlots], by simp⟩, rfl⟩

/-- A list of parameters takes the slots from `argCount` on, without gaps. -/
def AllPlaced : List CABIParamInfo → ℕ → Prop
  | [], _ => True
  | info :: infos, argCount => info.Placed argCount ∧ AllPlaced infos (argCount + info.slotCount)

theorem analyzeABIParams_placed {ts : List Btype} {s s' : ABIState} {infos : List CABIParamInfo}
    (h : analyzeABIParams ts s = some (infos, s')) :
    infos.length = ts.length ∧ AllPlaced infos s.argCount := by
  induction ts generalizing s infos with
  | nil =>
    obtain ⟨rfl, rfl⟩ := Prod.mk.inj (Option.some.inj h)
    exact ⟨rfl, trivial⟩
  | cons t ts ih =>
    obtain ⟨⟨info, s1⟩, hinfo, h⟩ := Option.bind_eq_some_iff.mp h
    obtain ⟨⟨infos', s2⟩, hinfos, h⟩ := Option.bind_eq_some_iff.mp h
    obtain ⟨rfl, rfl⟩ := Prod.mk.inj (Option.some.inj h)
    obtain ⟨hplaced, hcount⟩ := analyzeABIParam_placed hinfo
    obtain ⟨hlen, hall⟩ := ih hinfos
    rw [hcount] at hall
    exact ⟨congrArg Nat.succ hlen, hplaced, hall⟩

namespace AllPlaced

theorem slots {infos : List CABIParamInfo} {argCount : ℕ} (h : AllPlaced infos argCount) :
    infos.flatMap CABIParamInfo.slots = List.range' argCount (slotTypes infos).length := by
  rw [length_slotTypes]
  induction infos generalizing argCount with
  | nil => rfl
  | cons info infos ih =>
    rw [List.flatMap_cons, h.1.slots, ih h.2, List.map_cons, List.sum_cons]
    exact List.range'_append_1

theorem get {infos : List CABIParamInfo} {argCount : ℕ} (h : AllPlaced infos argCount) {k : ℕ}
    {info : CABIParamInfo} (hk : infos[k]? = some info) :
    info.Placed (argCount + (slotTypes (infos.take k)).length) := by
  rw [length_slotTypes]
  induction infos generalizing argCount k with
  | nil => cases hk
  | cons info' infos ih =>
    cases k with
    | zero =>
      obtain rfl := Option.some.inj hk
      exact h.1
    | succ k =>
      have hplaced := ih h.2 hk
      rwa [Nat.add_assoc, ← List.sum_cons, ← List.map_cons] at hplaced

end AllPlaced

/-! ## The caller -/

section Marshalling

variable (c : CircularTypes)

theorem marshallIndirect_length {arg : Bexpression} {pushed : GenCallState}
    (h : marshallIndirect c arg = some pushed) : pushed.llargs.length = 1 := by
  unfold marshallIndirect at h
  obtain ⟨p, -, h⟩ := Option.bind_eq_some_iff.mp h
  obtain ⟨v, -, h⟩ := Option.bind_eq_some_iff.mp h
  split_ifs at h
  obtain rfl := Option.some.inj h
  rfl

theorem marshallDirect_length {info : CABIParamInfo} {paramType : Btype} {arg : Bexpression}
    {r : Resolved} {pushed : GenCallState}
    (h : marshallDirect c info paramType arg r = some pushed) :
    pushed.llargs.length = info.numArgSlots := by
  unfold marshallDirect at h
  match hts : info.abiTypes with
  | [t] =>
    simp only [hts] at h
    rw [numArgSlots, hts]
    split_ifs at h
    · obtain ⟨abiType, -, h⟩ := Option.bind_eq_some_iff.mp h
      obtain rfl := Option.some.inj h
      rfl
    · obtain ⟨abiType, -, h⟩ := Option.bind_eq_some_iff.mp h
      obtain ⟨v, -, h⟩ := Option.bind_eq_some_iff.mp h
      obtain rfl := Option.some.inj h
      rfl
  | [t0, t1] =>
    simp only [hts] at h
    rw [numArgSlots, hts]
    split_ifs at h
    obtain ⟨llst, -, h⟩ := Option.bind_eq_some_iff.mp h
    obtain ⟨v, -, h⟩ := Option.bind_eq_some_iff.mp h
    obtain rfl := Option.some.inj h
    rfl
  | [] => simp [hts] at h
  | _ :: _ :: _ :: _ => simp [hts] at h

/-- An argument pushes as many values as its parameter has slots. -/
theorem marshallArg_length {info : CABIParamInfo} {argCount : ℕ} (hinfo : info.Placed argCount)
    {paramType : Btype} {arg : Bexpression} {pushed : GenCallState}
    (h : marshallArg c info paramType arg = some pushed) :
    pushed.llargs.length = info.slotCount := by
  unfold marshallArg at h
  rw [if_neg hinfo.attr] at h
  split_ifs at h with hindirect hignore
  · rw [slotCount_of_ne (by simp [hindirect]), hinfo.indirect hindirect]
    exact marshallIndirect_length c h
  · obtain ⟨r, -, h⟩ := Option.bind_eq_some_iff.mp h
    obtain rfl := Option.some.inj h
    exact (slotCount_ignore hignore).symm
  · obtain ⟨r, -, h⟩ := Option.bind_eq_some_iff.mp h
    rw [slotCount_of_ne hignore]
    exact marshallDirect_length c h

theorem genCallMarshallArgs_length {infos : List CABIParamInfo} {argCount : ℕ}
    (hinfos : AllPlaced infos argCount) {paramTypes : List Btype} {args : List Bexpression}
    {state state' : GenCallState}
    (h : genCallMarshallArgs c infos paramTypes args state = some state') :
    state'.llargs.length = state.llargs.length + (slotTypes (infos.take args.length)).length := by
  induction args generalizing infos argCount paramTypes state with
  | nil =>
    have hstate : genCallMarshallArgs c infos paramTypes [] state = some state := by
      cases infos <;> cases paramTypes <;> rfl
    rw [hstate] at h
    obtain rfl := Option.some.inj h
    simp [slotTypes]
  | cons arg args ih =>
    match infos, paramTypes, h with
    | info :: infos, paramType :: paramTypes, h =>
      obtain ⟨pushed, hpushed, h⟩ := Option.bind_eq_some_iff.mp h
      have hrest := ih hinfos.2 h
      have hpush := marshallArg_length c hinfos.1 hpushed
      simp only [length_slotTypes, List.length_cons, List.take_succ_cons, List.map_cons,
        List.sum_cons, GenCallState.push, List.length_append] at hrest ⊢
      omega
    | [], _, h => cases h
    | _ :: _, [], h => cases h

end Marshalling

/-! ## The callee -/

theorem abiSetupParam_some {count : ℕ} {info : CABIParamInfo} {argIdx : ℕ}
    (hinfo : info.Placed argIdx) (hcount : argIdx + info.slotCount ≤ count) (paramType : Btype) :
    ∃ v, abiSetupParam count info paramType argIdx = some (v, info.slotCount) := by
  unfold abiSetupParam
  cases hd : info.disp with
  | ignore => exact ⟨_, by rw [slotCount_ignore hd]⟩
  | indirect =>
    rw [slotCount_of_ne (by simp [hd])] at hcount ⊢
    have hslots := hinfo.indirect hd
    refine ⟨.argument argIdx, ?_⟩
    show (if _ then _ else _) = _
    rw [if_pos ⟨by omega, hslots⟩, hslots]
  | direct =>
    rw [slotCount_of_ne (by simp [hd])] at hcount ⊢
    rcases hinfo.direct hd with hattr | ⟨hattr, hslots⟩
    · exact ⟨.spill paramType.type, by simp [hattr]⟩
    · refine ⟨.spill paramType.type, ?_⟩
      show (if _ then _ else _) = _
      rw [if_pos hattr, if_pos (by omega)]

/-- The running index reaches each parameter at its own slot. -/
theorem abiSetupParams_some {count : ℕ} {infos : List CABIParamInfo} {argIdx : ℕ}
    (hinfos : AllPlaced infos argIdx) (hcount : argIdx + (slotTypes infos).length ≤ count)
    {paramTypes : List Btype} (hlen : infos.length = paramTypes.length) :
    ∃ ps, abiSetupParams count infos paramTypes argIdx = some ps ∧ ps.length = infos.length ∧
      ∀ k p, ps[k]? = some p → p.1 = argIdx + (slotTypes (infos.take k)).length := by
  induction infos generalizing argIdx paramTypes with
  | nil =>
    obtain rfl := List.length_eq_zero_iff.mp hlen.symm
    exact ⟨[], rfl, rfl, by simp⟩
  | cons info infos ih =>
    match paramTypes, hlen with
    | paramType :: paramTypes, hlen =>
      simp only [length_slotTypes, List.map_cons, List.sum_cons] at hcount ih
      obtain ⟨v, hv⟩ := abiSetupParam_some hinfos.1 (by omega : argIdx + info.slotCount ≤ count)
        paramType
      obtain ⟨ps, hps, hpslen, hidx⟩ := ih hinfos.2 (by omega) (Nat.succ.inj hlen)
      refine ⟨(argIdx, v) :: ps, ?_, congrArg Nat.succ hpslen, ?_⟩
      · simp [abiSetupParams, hv, hps]
      · intro k p hk
        cases k with
        | zero =>
          obtain rfl := Option.some.inj hk
          simp [slotTypes]
        | succ k =>
          rw [hidx k p hk, length_slotTypes, List.take_succ_cons, List.map_cons, List.sum_cons,
            Nat.add_assoc]

/-! ## All three agree -/

namespace CABIOracle

/-- The slot of the hidden result pointer, which is there if the return is indirect. -/
def hiddenSlots (oracle : CABIOracle) : List ℕ :=
  if oracle.returnInfo.disp = indirect then [oracle.returnInfo.sigOffset.toNat] else []

theorem length_hiddenSlots (oracle : CABIOracle) :
    oracle.hiddenSlots.length = if oracle.returnInfo.disp = indirect then 1 else 0 := by
  unfold hiddenSlots
  split_ifs <;> rfl

theorem hiddenSlots_of_ne {oracle : CABIOracle} (h : oracle.returnInfo.disp ≠ indirect) :
    oracle.hiddenSlots = [] := if_neg h

/-- The slots of everything that is passed, in the order of the signature. -/
def slots (oracle : CABIOracle) : List ℕ :=
  oracle.hiddenSlots ++ oracle.chainInfo.slots ++ oracle.paramInfos.flatMap CABIParamInfo.slots

/-- The caller pushes the result's memory, the chain and each argument at their offsets. -/
def CallerAgrees (oracle : CABIOracle) (paramTypes : List Btype) (resultType : Btype) : Prop :=
  ∀ (c : CircularTypes) (sretTemp : ℕ) (chainVal : Option Value) (args : List Bexpression),
    args.length = paramTypes.length → ∃ temp state,
      genCallProlog oracle resultType sretTemp chainVal = some (temp, state) ∧
      state.llargs.length = oracle.hiddenSlots.length + 1 ∧
      (∀ i ∈ oracle.hiddenSlots, temp.isSome ∧ state.llargs[i]? = temp) ∧
      oracle.chainInfo.sigOffset = oracle.hiddenSlots.length ∧
      (∀ k info paramType arg, oracle.paramInfos[k]? = some info → paramTypes[k]? = some paramType →
        args[k]? = some arg → ∀ before pushed,
        genCallMarshallArgs c oracle.paramInfos paramTypes (args.take k) state = some before →
        marshallArg c info paramType arg = some pushed →
        pushed.llargs.length = info.slotCount ∧
          (info.disp ≠ ignore → info.sigOffset = before.llargs.length)) ∧
      ∀ after, genCallMarshallArgs c oracle.paramInfos paramTypes args state = some after →
        after.llargs.length = oracle.fcnTypeForABI.params.length

/-- The callee finds the result's memory, the chain and each parameter at their offsets. -/
def CalleeAgrees (oracle : CABIOracle) (paramTypes : List Btype) : Prop :=
  ∃ setup, abiSetup oracle paramTypes = some setup ∧
    setup.rtnValueMem.toList = oracle.hiddenSlots ∧
    oracle.chainInfo.sigOffset = setup.chainVal ∧
    setup.params.length = paramTypes.length ∧
    ∀ (k : ℕ) (info : CABIParamInfo) (p : ℕ × ParamValue), oracle.paramInfos[k]? = some info →
      setup.params[k]? = some p → info.disp ≠ ignore → info.sigOffset = p.1

/-- The slots are numbered from 0 on without gaps or overlaps, up to the last parameter of
the LLVM function type, and the caller and the callee both use them. -/
structure SlotsAgree (oracle : CABIOracle) (paramTypes : List Btype) (resultType : Btype) :
    Prop where
  length : oracle.paramInfos.length = paramTypes.length
  cover : oracle.slots = List.range oracle.fcnTypeForABI.params.length
  caller : oracle.CallerAgrees paramTypes resultType
  callee : oracle.CalleeAgrees paramTypes

/-- An oracle whose slots follow on: the hidden pointer, the chain, the parameters. -/
structure Numbered (oracle : CABIOracle) (hidden : ℕ) : Prop where
  hiddenSlots : oracle.hiddenSlots = List.range hidden
  chainDisp : oracle.chainInfo.disp = direct
  chainOffset : oracle.chainInfo.sigOffset = hidden
  chainSlots : oracle.chainInfo.numArgSlots = 1
  params : AllPlaced oracle.paramInfos (hidden + 1)
  count : oracle.fcnTypeForABI.params.length = hidden + 1 + (slotTypes oracle.paramInfos).length
  abiType : ∃ t, oracle.returnInfo.abiTypes = [t]

theorem numbered_of_analyze {paramTypes : List Btype} {resultType : Btype} {oracle : CABIOracle}
    (h : analyze paramTypes resultType true = some oracle) :
    oracle.paramInfos.length = paramTypes.length ∧ ∃ hidden, oracle.Numbered hidden := by
  obtain ⟨⟨rinfo, s0⟩, hret, h⟩ := Option.bind_eq_some_iff.mp h
  obtain ⟨⟨infos, s1⟩, hinfos, h⟩ := Option.bind_eq_some_iff.mp h
  obtain ⟨ft, hft, h⟩ := Option.bind_eq_some_iff.mp h
  obtain rfl := Option.some.inj h
  obtain ⟨hlen, hplaced⟩ := analyzeABIParams_placed hinfos
  refine ⟨hlen, s0.argCount, ?_⟩
  have hslots : (slotTypes (chainParm s0 :: infos)).length = 1 + (slotTypes infos).length := by
    rw [length_slotTypes, length_slotTypes, List.map_cons, List.sum_cons]
    rfl
  obtain ⟨rt, hrt, hft⟩ := Option.bind_eq_some_iff.mp hft
  rcases analyzeABIReturn_cases hret with ⟨-, -, rfl, rfl⟩ | ⟨-, rfl, hdisp, -, ht⟩
  · rw [if_pos rfl] at hft
    obtain rfl := Option.some.inj hft
    refine ⟨rfl, rfl, rfl, rfl, hplaced, ?_, _, rfl⟩
    simp only [LType.params, List.length_cons, hslots]
    simp only [ABIState.addIndirectReturn, ABIState.new]
    omega
  · rw [if_neg hdisp] at hft
    obtain rfl := Option.some.inj hft
    refine ⟨if_neg hdisp, rfl, rfl, rfl, hplaced, ?_, ht⟩
    simp only [LType.params, hslots]
    simp only [ABIState.new, Nat.zero_add]

namespace Numbered

variable {oracle : CABIOracle} {hidden : ℕ} (h : oracle.Numbered hidden)

include h

theorem hidden_eq : hidden = if oracle.returnInfo.disp = indirect then 1 else 0 := by
  rw [← oracle.length_hiddenSlots, h.hiddenSlots, List.length_range]

theorem cover : oracle.slots = List.range oracle.fcnTypeForABI.params.length := by
  have hchain : oracle.chainInfo.slots = List.range' hidden 1 := by
    rw [CABIParamInfo.slots, slotCount_of_ne (by simp [h.chainDisp]), h.chainSlots, h.chainOffset]
    rfl
  have happend (m n : ℕ) : List.range' 0 m ++ List.range' m n = List.range' 0 (m + n) := by
    have := List.range'_append_1 (s := 0) (m := m) (n := n)
    rwa [Nat.zero_add] at this
  rw [slots, h.hiddenSlots, hchain, h.params.slots, h.count, List.range_eq_range',
    List.range_eq_range', happend, happend]

/-- The prolog pushes the result's memory, if the return is indirect, and the chain. -/
theorem prolog (resultType : Btype) (sretTemp : ℕ) (chainVal : Option Value) :
    ∃ temp, genCallProlog oracle resultType sretTemp chainVal =
        some (temp, ⟨(if oracle.returnInfo.disp = indirect then
          [.alloca sretTemp resultType.type] else []) ++
            [chainVal.getD (.undef llvmPtrType)], []⟩) ∧
      (oracle.returnInfo.disp = indirect → temp = some (.alloca sretTemp resultType.type)) := by
  obtain ⟨t, ht⟩ := h.abiType
  have habi : oracle.returnInfo.abiType = some t := by simp [CABIParamInfo.abiType, ht]
  have hchain : chainArg oracle chainVal = some [chainVal.getD (.undef llvmPtrType)] := by
    simp [chainArg, h.chainDisp]
  obtain ⟨needed, hneeded, htemp⟩ : ∃ needed,
      needSretTemp oracle.returnInfo resultType = some needed ∧
        (oracle.returnInfo.disp = indirect → needed = true) := by
    unfold needSretTemp
    cases hdisp : oracle.returnInfo.disp with
    | direct => exact ⟨_, by simp only [habi]; rfl, by simp⟩
    | ignore => exact ⟨false, rfl, by simp⟩
    | indirect => exact ⟨true, rfl, fun _ => rfl⟩
  refine ⟨if needed then some (.alloca sretTemp resultType.type) else none, ?_, ?_⟩
  · simp only [genCallProlog, hneeded, hchain, Option.bind_eq_bind, Option.bind_some]
    rfl
  · intro hd
    rw [htemp hd, if_pos rfl]

theorem caller {paramTypes : List Btype} (hlen : oracle.paramInfos.length = paramTypes.length)
    (resultType : Btype) : oracle.CallerAgrees paramTypes resultType := by
  intro c sretTemp chainVal args hargs
  obtain ⟨temp, hprolog, htemp⟩ := h.prolog resultType sretTemp chainVal
  have hhidden : oracle.hiddenSlots.length = hidden := by rw [h.hiddenSlots, List.length_range]
  refine ⟨temp, _, hprolog, ?_⟩
  generalize hstate' : GenCallState.mk _ _ = state
  have hstate : state.llargs.length = hidden + 1 := by
    rw [← hstate', h.hidden_eq]
    split_ifs <;> rfl
  refine ⟨hhidden.symm ▸ hstate, ?_, ?_, ?_, ?_⟩
  · intro i hi
    by_cases hd : oracle.returnInfo.disp = indirect
    · rw [h.hiddenSlots, h.hidden_eq, if_pos hd] at hi
      obtain rfl : i = 0 := by simpa using hi
      simp [← hstate', hd, htemp hd]
    · simp [hiddenSlots_of_ne hd] at hi
  · rw [h.chainOffset, hhidden]
  · intro k info paramType arg hinfo _ harg before pushed hbefore hpushed
    have hplaced := h.params.get hinfo
    refine ⟨marshallArg_length c hplaced hpushed, fun hd => ?_⟩
    have hk : k ≤ args.length := by
      obtain ⟨hk, -⟩ := List.getElem?_eq_some_iff.mp harg
      exact hk.le
    rw [hplaced.offset hd, genCallMarshallArgs_length c h.params hbefore, hstate,
      List.length_take, Nat.min_eq_left hk]
  · intro after hafter
    rw [genCallMarshallArgs_length c h.params hafter, hstate, h.count, hargs, ← hlen,
      List.take_length]

theorem callee {paramTypes : List Btype} (hlen : oracle.paramInfos.length = paramTypes.length) :
    oracle.CalleeAgrees paramTypes := by
  obtain ⟨ps, hps, hpslen, hidx⟩ := abiSetupParams_some h.params h.count.ge hlen
  refine ⟨⟨if oracle.returnInfo.disp = indirect then some 0 else none, hidden, ps⟩, ?_, ?_,
    h.chainOffset, hpslen.trans hlen, ?_⟩
  · unfold abiSetup
    simp only [← h.hidden_eq]
    rw [if_pos ⟨by rw [h.count]; omega, h.chainDisp⟩, hps]
    rfl
  · rw [h.hiddenSlots, h.hidden_eq]
    split_ifs <;> rfl
  · intro k info p hinfo hp hd
    rw [(h.params.get hinfo).offset hd, hidx k p hp]

end Numbered
end CABIOracle

/-- The three walks over the signature agree whenever the analysis completes. -/
theorem slotsAgree_of_analyze {paramTypes : List Btype} {resultType : Btype}
    {oracle : CABIOracle} (h : analyze paramTypes resultType true = some oracle) :
    oracle.SlotsAgree paramTypes resultType := by
  obtain ⟨hlen, hidden, hnum⟩ := CABIOracle.numbered_of_analyze h
  exact ⟨hlen, hnum.cover, hnum.caller hlen resultType, hnum.callee hlen⟩

/-- An empty struct, a pair in two registers, a large array in memory and a small integer,
with the result in memory. -/
theorem slotsAgree_mixed : ∃ oracle,
    analyze [.struct none [], .struct none [.integer false 64, .float .f64],
      .array (.integer true 32) 20, .integer true 8] (.array (.integer false 64) 3) true =
        some oracle ∧
      oracle.SlotsAgree [.struct none [], .struct none [.integer false 64, .float .f64],
        .array (.integer true 32) 20, .integer true 8] (.array (.integer false 64) 3) := by
  obtain ⟨oracle, h⟩ := Option.isSome_iff_exists.mp
    (show (analyze [.struct none [], .struct none [.integer false 64, .float .f64],
      .array (.integer true 32) 20, .integer true 8] (.array (.integer false 64) 3) true).isSome
      by decide)
  exact ⟨oracle, h, slotsAgree_of_analyze h⟩

end Dragongo
