import Dragongo.CABIOracle
import Dragongo.Library.AMD64

/-!
# The oracle follows the AMD64 rule

The oracle threads two saturating counters through the parameters; the rule counts
what the earlier arguments asked for.
-/

namespace Dragongo
open LType TypDisp AMD64

/-- The class of a parameter type, when the oracle's classification of it completes. -/
def argClass (bt : Btype) : Option ArgClass :=
  if auxParamAllowed bt then do
    match ← classifyArgType bt.type with
    | .ignore => some .empty
    | .indirect => some .large
    | .direct =>
      let ebrs ← eightByteInfo bt
      let _ ← regionAttr ebrs .none
      let regs := getRegisterRequirements ebrs
      some (.eightbytes regs.1 regs.2)
  else none

def CABIParamInfo.passing (info : CABIParamInfo) : Passing :=
  match info.disp with
  | .ignore => .ignored
  | .indirect => .memory
  | .direct => .registers

/-! ## Regions have their types -/

theorem mapM_withType {ebrs rs : List EightByteRegion} (h : determineABITypes ebrs = some rs) :
    ∃ ts, rs.mapM (·.abiDirectType) = some ts ∧ ts.length = rs.length := by
  induction ebrs generalizing rs with
  | nil =>
    obtain rfl := Option.some.inj h
    exact ⟨[], rfl, rfl⟩
  | cons ebr ebrs ih =>
    unfold determineABITypes at h
    simp only [List.mapM_cons, Option.bind_eq_bind, Option.pure_def] at h
    obtain ⟨x, hx, h⟩ := Option.bind_eq_some_iff.mp h
    obtain ⟨xs, hxs, h⟩ := Option.bind_eq_some_iff.mp h
    obtain ⟨t, ht, rfl⟩ := Option.map_eq_some_iff.mp hx
    obtain rfl := Option.some.inj h
    obtain ⟨ts, hts, hlen⟩ := ih hxs
    refine ⟨t :: ts, ?_, congrArg Nat.succ hlen⟩
    simp [List.mapM_cons, EightByteRegion.withType, hts]

theorem eightByteInfo_types {bt : Btype} {ebrs : List EightByteRegion}
    (h : eightByteInfo bt = some ebrs) :
    ∃ ts, ebrs.mapM (·.abiDirectType) = some ts ∧ ts.length = ebrs.length := by
  unfold eightByteInfo at h
  obtain ⟨rs, -, h⟩ := Option.bind_eq_some_iff.mp h
  split_ifs at h
  exact mapM_withType h

/-! ## The counters -/

namespace ABIState

theorem takeReg_toNat (regs : UInt32) : (takeReg regs).toNat = regs.toNat - 1 := by
  unfold takeReg
  split_ifs with h
  · apply UInt32.toNat_sub_of_le
    rw [UInt32.le_iff_toNat_le]
    apply Nat.one_le_iff_ne_zero.mpr
    intro h0
    exact h (UInt32.toNat_inj.mp h0)
  · rw [not_ne_iff.mp h]
    rfl

@[simp] theorem addDirectArg_argCount (s : ABIState) (ebr : EightByteRegion) :
    (s.addDirectArg ebr).argCount = s.argCount + 1 := by
  unfold addDirectArg
  split_ifs <;> rfl

/-- The regions of one value take a register each, as long as there are any. -/
theorem foldl_addDirectArg (ebrs : List EightByteRegion) (s : ABIState) :
    (ebrs.foldl addDirectArg s).availIntRegs.toNat =
        s.availIntRegs.toNat - (getRegisterRequirements ebrs).1 ∧
      (ebrs.foldl addDirectArg s).availSSERegs.toNat =
        s.availSSERegs.toNat - (getRegisterRequirements ebrs).2 ∧
      (ebrs.foldl addDirectArg s).argCount = s.argCount + ebrs.length := by
  induction ebrs generalizing s with
  | nil => exact ⟨rfl, rfl, rfl⟩
  | cons ebr ebrs ih =>
    obtain ⟨hint, hsse, hcount⟩ := ih (s.addDirectArg ebr)
    rw [List.foldl_cons, hint, hsse, hcount, addDirectArg_argCount]
    simp only [getRegisterRequirements, List.countP_cons, List.length_cons]
    by_cases hd : ebr.getRegionTypDisp = flavSSE
    · simp only [addDirectArg, hd, if_true, addDirectSSEArg, takeReg_toNat]
      exact ⟨by simp, by simp; omega, by omega⟩
    · simp only [addDirectArg, hd, if_false, addDirectIntArg, takeReg_toNat]
      exact ⟨by simp [hd]; omega, by simp, by omega⟩

/-- The counters hold what the rule says is left. -/
structure Holds (s : ABIState) (hidden : ℕ) (prior : List (ArgClass × Passing)) : Prop where
  int : s.availIntRegs.toNat = leftInt hidden prior
  sse : s.availSSERegs.toNat = leftSSE prior

end ABIState

/-- One parameter is placed by the rule, and the counters are kept. -/
theorem analyzeABIParam_follows {bt : Btype} {c : ArgClass} (hc : argClass bt = some c)
    {s : ABIState} {hidden : ℕ} {prior : List (ArgClass × Passing)} (hs : s.Holds hidden prior) :
    ∃ info s', analyzeABIParam bt s = some (info, s') ∧
      info.passing = c.place (leftInt hidden prior) (leftSSE prior) ∧
      s'.Holds hidden (prior ++ [(c, info.passing)]) := by
  unfold argClass at hc
  split_ifs at hc with haux
  obtain ⟨disp, hdisp, hc⟩ := Option.bind_eq_some_iff.mp hc
  simp only [analyzeABIParam, haux, if_true, hdisp, Option.bind_eq_bind, Option.bind_some]
  cases disp with
  | ignore =>
    obtain rfl := Option.some.inj hc
    refine ⟨_, _, rfl, rfl, ?_, ?_⟩
    · rw [leftInt_snoc, hs.int]
      rfl
    · rw [leftSSE_snoc, hs.sse]
      rfl
  | indirect =>
    obtain rfl := Option.some.inj hc
    refine ⟨_, _, rfl, rfl, ?_, ?_⟩
    · rw [leftInt_snoc, ← hs.int]
      rfl
    · rw [leftSSE_snoc, ← hs.sse]
      rfl
  | direct =>
    obtain ⟨ebrs, hebrs, hc⟩ := Option.bind_eq_some_iff.mp hc
    obtain ⟨attr, hattr, hc⟩ := Option.bind_eq_some_iff.mp hc
    obtain rfl := Option.some.inj hc
    obtain ⟨ts, hts, -⟩ := eightByteInfo_types hebrs
    obtain ⟨hint, hsse, -⟩ := s.foldl_addDirectArg ebrs
    simp only [hebrs, Option.bind_some, passEightBytes, hts, hattr, Option.bind_eq_bind]
    have hcan : canPassDirectly (getRegisterRequirements ebrs).1 (getRegisterRequirements ebrs).2 s
        = decide ((getRegisterRequirements ebrs).1 + (getRegisterRequirements ebrs).2 = 1 ∨
          (getRegisterRequirements ebrs).1 ≤ leftInt hidden prior ∧
            (getRegisterRequirements ebrs).2 ≤ leftSSE prior) := by
      simp [canPassDirectly, ← hs.int, ← hs.sse, Bool.beq_eq_decide_eq]
    by_cases hfit : (getRegisterRequirements ebrs).1 + (getRegisterRequirements ebrs).2 = 1 ∨
        (getRegisterRequirements ebrs).1 ≤ leftInt hidden prior ∧
          (getRegisterRequirements ebrs).2 ≤ leftSSE prior
    · rw [hcan, decide_eq_true hfit, if_pos rfl]
      refine ⟨_, _, rfl, (if_pos hfit).symm, ?_, ?_⟩
      · rw [leftInt_snoc, hint, hs.int]
        rfl
      · rw [leftSSE_snoc, hsse, hs.sse]
        rfl
    · rw [hcan, decide_eq_false hfit, if_neg Bool.false_ne_true]
      refine ⟨_, _, rfl, (if_neg hfit).symm, ?_, ?_⟩
      · rw [leftInt_snoc, ← hs.int]
        rfl
      · rw [leftSSE_snoc, ← hs.sse]
        rfl

/-! ## All the parameters -/

theorem analyzeABIParams_append (xs ys : List Btype) (s : ABIState) :
    analyzeABIParams (xs ++ ys) s = (analyzeABIParams xs s).bind fun r =>
      (analyzeABIParams ys r.2).map fun rs => (r.1 ++ rs.1, rs.2) := by
  induction xs generalizing s with
  | nil => simp [analyzeABIParams]
  | cons x xs ih =>
    simp only [List.cons_append, analyzeABIParams, Option.bind_eq_bind, ih]
    cases analyzeABIParam x s with
    | none => rfl
    | some r =>
      simp only [Option.bind_some]
      cases analyzeABIParams xs r.2 with
      | none => rfl
      | some rs =>
        simp only [Option.bind_some]
        cases analyzeABIParams ys rs.2 <;> rfl

/-- The classes of the parameters with where they went. -/
def placed (classes : List ArgClass) (infos : List CABIParamInfo) : List (ArgClass × Passing) :=
  classes.zip (infos.map CABIParamInfo.passing)

theorem analyzeABIParams_follows {ts : List Btype} {classes : List ArgClass}
    (hcs : ts.map argClass = classes.map some) {s : ABIState} {hidden : ℕ}
    {prior : List (ArgClass × Passing)} (hs : s.Holds hidden prior)
    (hprior : Follows hidden prior) :
    ∃ infos s', analyzeABIParams ts s = some (infos, s') ∧ infos.length = ts.length ∧
      Follows hidden (prior ++ placed classes infos) ∧
      s'.Holds hidden (prior ++ placed classes infos) := by
  induction ts generalizing classes s prior with
  | nil =>
    obtain rfl := List.map_eq_nil_iff.mp hcs.symm
    refine ⟨[], s, rfl, rfl, ?_⟩
    simpa [placed] using And.intro hprior hs
  | cons t ts ih =>
    obtain ⟨c, classes, rfl, hc, hcs⟩ := List.map_eq_cons_iff.mp hcs.symm
    obtain ⟨info, s', hinfo, hplace, hs'⟩ := analyzeABIParam_follows hc.symm hs
    obtain ⟨infos, s'', hinfos, hlen, hfollows, hs''⟩ := ih hcs.symm hs' (hprior.snoc hplace)
    refine ⟨info :: infos, s'', ?_, congrArg Nat.succ hlen, ?_⟩
    · simp [analyzeABIParams, hinfo, hinfos]
    · simp only [List.append_assoc, List.singleton_append] at hfollows hs''
      exact ⟨hfollows, hs''⟩

/-- A result larger than 16 bytes is returned through a hidden pointer. -/
def hiddenPointers (resultType : LType) : ℕ :=
  if resultType.isVoidTy then 0 else if 16 < resultType.shape.allocSize then 1 else 0

theorem analyzeABIReturn_holds {bt : Btype} {rinfo : CABIParamInfo} {s : ABIState}
    (h : analyzeABIReturn bt .new = some (rinfo, s)) :
    s.addChainArg.Holds (hiddenPointers bt.type) [] ∧ ∃ t, rinfo.abiTypes = [t] := by
  unfold hiddenPointers
  rcases analyzeABIReturn_cases h with ⟨hv, h16, rfl, rfl⟩ | ⟨hv, rfl, -, -, ht⟩
  · rw [if_neg hv, if_pos h16]
    exact ⟨⟨by decide, by decide⟩, _, rfl⟩
  · refine ⟨?_, ht⟩
    rcases hv with hv | h16
    · rw [if_pos hv]
      exact ⟨by decide, by decide⟩
    · rw [if_neg (Nat.not_lt.mpr h16), ite_self]
      exact ⟨by decide, by decide⟩

/-- The counters as they stand before parameter `k` is classified. -/
def stateBefore (paramTypes : List Btype) (resultType : Btype) (k : ℕ) : Option ABIState := do
  let (_, state) ← analyzeABIReturn resultType .new
  let (_, state) ← analyzeABIParams (paramTypes.take k) state.addChainArg
  some state

/-- Every parameter is placed by the AMD64 rule, and before each parameter the counters
are the registers that the rule has left. -/
def FollowsRule (paramTypes : List Btype) (resultType : Btype) : Prop :=
  ∃ oracle classes, analyze paramTypes resultType true = some oracle ∧
    paramTypes.map argClass = classes.map some ∧
    oracle.paramInfos.length = paramTypes.length ∧
    Follows (hiddenPointers resultType.type) (placed classes oracle.paramInfos) ∧
    ∀ k ≤ paramTypes.length, ∃ s, stateBefore paramTypes resultType k = some s ∧
      s.Holds (hiddenPointers resultType.type) ((placed classes oracle.paramInfos).take k)

/-- The oracle follows the rule whenever it can classify every type. -/
theorem analyze_follows_rule (paramTypes : List Btype) (resultType : Btype)
    (hparams : ∀ t ∈ paramTypes, (argClass t).isSome)
    (hresult : (analyzeABIReturn resultType .new).isSome) :
    FollowsRule paramTypes resultType := by
  obtain ⟨⟨rinfo, s0⟩, hret⟩ := Option.isSome_iff_exists.mp hresult
  obtain ⟨hs0, t, ht⟩ := analyzeABIReturn_holds hret
  obtain ⟨classes, hclasses⟩ : ∃ classes : List ArgClass,
      paramTypes.map argClass = classes.map some := by
    refine ⟨paramTypes.map fun t => (argClass t).getD .empty, ?_⟩
    rw [List.map_map]
    apply List.map_congr_left
    intro t ht
    obtain ⟨c, hc⟩ := Option.isSome_iff_exists.mp (hparams t ht)
    simp [hc]
  obtain ⟨infos, s', hinfos, hlen, hfollows, -⟩ :=
    analyzeABIParams_follows hclasses hs0 follows_nil
  obtain ⟨ft, hft⟩ := cookedType_some ht (chainParm s0 :: infos)
  refine ⟨⟨rinfo, chainParm s0, infos, ft⟩, classes, ?_, hclasses, hlen, hfollows, ?_⟩
  · simp [analyze, hret, hinfos, hft]
  · intro k hk
    -- the first `k` parameters are analyzed alike when the others follow
    have hcs : (paramTypes.take k).map argClass = (classes.take k).map some := by
      rw [List.map_take, hclasses, List.map_take]
    obtain ⟨infos', s'', hinfos', hlen', -, hs''⟩ :=
      analyzeABIParams_follows hcs hs0 follows_nil
    have happend := analyzeABIParams_append (paramTypes.take k) (paramTypes.drop k) s0.addChainArg
    rw [List.take_append_drop, hinfos, hinfos', Option.bind_some] at happend
    obtain ⟨rest, -, hrest⟩ := Option.map_eq_some_iff.mp happend.symm
    have hsplit : infos = infos' ++ rest.1 := (Prod.mk.inj hrest).1.symm
    refine ⟨s'', ?_, ?_⟩
    · simp [stateBefore, hret, hinfos']
    · have hk' : k = infos'.length := by
        rw [hlen', List.length_take, Nat.min_eq_left hk]
      have htake : infos.take k = infos' := by
        rw [hsplit, hk', List.take_left]
      rw [List.nil_append] at hs''
      simp only [placed, List.zip, List.take_zipWith, ← List.map_take, htake]
      exact hs''

/-- Three structs of two integer eightbytes, of which the third finds one register left, and
a pointer that takes it; the result is returned through memory. -/
theorem follows_rule_spill :
    FollowsRule (List.replicate 3 (.struct none [.integer false 64, .integer false 64]) ++
      [.pointer (.int 8)]) (.array (.integer false 64) 3) :=
  analyze_follows_rule _ _ (by decide) (by decide)

end Dragongo
