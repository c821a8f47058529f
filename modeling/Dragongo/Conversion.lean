import Dragongo.Evaluation

/-!
# Conversions

`convert_expression` picks a cast by the LLVM types of the value and of the target.  Here
are the casts that are valid, the conversions that compute what Go's conversion does, and
the conversions of a reference that commute with the load from it.
-/

namespace Dragongo
open LType CastOp Varexpr_context

/-- `castToBIntegerType()->isUnsigned()`, for the types that the cast is not null of. -/
def Btype.isUnsigned : Btype → Option Bool
  | .integer isUnsigned _ => some isUnsigned
  | _ => none

/-- `CreateBitCast`, which gives back a value that has the type. -/
def createBitCast (v : Value) (t : LType) : Value := if v.type = t then v else .bitcast v t

section Convert

variable (type btype : Btype) (v : Value) (vc : VarContext)

/-- The value of LLVM type `toType` that the casts make, for a target and a source of these
backend types. -/
def convertValue (toType : LType) : Option Value :=
  if v.type.isPointerTy ∧ toType = int 64 then some (.cast PtrToInt v toType)
  -- only the type of the value is looked at
  else if v.type = int 64 then some (.cast IntToPtr v toType)
  else if v.type.isPointerTy ∧ toType.isPointerTy then some (createBitCast v toType)
  else
    match v.type, toType with
    | int valbits, int tobits =>
      if tobits > valbits then
        type.isUnsigned.map fun u => .cast (if u then ZExt else SExt) v toType
      else some (.cast Trunc v toType)
    | float, int _ => type.isUnsigned.map fun _ => .cast FPToUI v toType
    | int _, float => btype.isUnsigned.map fun u => .cast (if u then UIToFP else SIToFP) v toType
    | _, _ => none

/-- A cast to a function type is one to a pointer to it. -/
def convertTarget : Btype :=
  if type.type.isFunctionTy then .pointer type.type else type

/-- The LLVM type to cast to: that of a pointer to the target while a reference is pending. -/
def convertToType : LType :=
  if vc.pending ∧ v.type = ptr btype.type then ptr type.type else type.type

/-- `convert_expression`; `same` says that the target is the very object that the type of
the expression is.  A conversion of a pending reference is pending. -/
def convertExpression (same : Bool) : Bexpression → Option Bexpression
  | .compositeInit node bt elems => if same then some (.compositeInit node bt elems) else none
  | .expr bt v vc =>
    if same ∨ type.type = v.type then some (.expr bt v vc)
    else
      let target := convertTarget type
      (convertValue target bt v (convertToType target bt v vc)).map fun conv =>
        .expr target conv (if vc.pending then vc else {})

variable {type btype v vc} {same : Bool}

theorem convertExpression_of_same (h : same ∨ type.type = v.type) :
    convertExpression type same (.expr btype v vc) = some (.expr btype v vc) := if_pos h

theorem convertExpression_eq (h : ¬(same ∨ type.type = v.type)) :
    convertExpression type same (.expr btype v vc) =
      (convertValue (convertTarget type) btype v
        (convertToType (convertTarget type) btype v vc)).map fun conv =>
          .expr (convertTarget type) conv (if vc.pending then vc else {}) := if_neg h

end Convert

/-! ## Valid casts -/

/-- `CastInst::castIsValid`. -/
def CastOp.castIsValid : CastOp → LType → LType → Bool
  | PtrToInt, src, dst => src.isPointerTy && dst.isIntegerTy
  | IntToPtr, src, dst => src.isIntegerTy && dst.isPointerTy
  | BitCast, src, dst =>
    if src.isPointerTy || dst.isPointerTy then src.isPointerTy && dst.isPointerTy
    else src.sizeInBits == dst.sizeInBits && src.isSized
  | ZExt, int n, int m | SExt, int n, int m => n < m
  | Trunc, int n, int m => m < n
  | FPToUI, src, dst => src.isFloatingPointTy && dst.isIntegerTy
  | UIToFP, src, dst | SIToFP, src, dst => src.isIntegerTy && dst.isFloatingPointTy
  | FPTrunc, src, dst => src == double && dst == float
  | FPExt, src, dst => src == float && dst == double
  | _, _, _ => false

/-- The cast that a value is. -/
def Value.asCast : Value → Option (CastOp × Value × LType)
  | bitcast v t => some (BitCast, v, t)
  | zext v t => some (ZExt, v, t)
  | cast op v t => some (op, v, t)
  | _ => none

/-- Whatever a conversion gives, the cast of the value in it is valid. -/
def ConvertsValidly (same : Bool) (type : Btype) (e : Bexpression) : Prop :=
  ∀ r v w op t, convertExpression type same e = some r → e.value = some v → r.value = some w →
    w.asCast = some (op, v, t) → op.castIsValid v.type t

theorem Value.asCast_ne_self {v : Value} {op : CastOp} {t : LType} :
    v.asCast ≠ some (op, v, t) := by
  intro h
  have hlt : ∀ {w : Value}, v.asCast = some (op, w, t) → sizeOf w < sizeOf v := by
    intro w hw
    cases v <;> simp only [asCast, reduceCtorEq, Option.some.injEq, Prod.mk.injEq] at hw
    all_goals
      obtain ⟨rfl, rfl, rfl⟩ := hw
      simp
      try omega
  exact lt_irrefl _ (hlt h)

section Valid

variable {type btype : Btype} {v w : Value} {toType t : LType} {op : CastOp}

theorem createBitCast_castIsValid (hv : v.type.isPointerTy) (ht : toType.isPointerTy)
    (hw : (createBitCast v toType).asCast = some (op, v, t)) : op.castIsValid v.type t := by
  unfold createBitCast at hw
  split_ifs at hw with heq
  · exact absurd hw Value.asCast_ne_self
  · cases hw
    simp only [castIsValid, hv, ht, Bool.or_self, if_true, Bool.and_self]

/-- Every branch but one looks at both types. -/
theorem convertValue_castIsValid (h : convertValue type btype v toType = some w)
    (hne : v.type.isIntegerTy → toType ≠ v.type) (hint : v.type = int 64 → toType.isPointerTy)
    (hw : w.asCast = some (op, v, t)) : op.castIsValid v.type t := by
  unfold convertValue at h
  split_ifs at h with hpti hitp hptr
  · cases h
    cases hw
    rw [hpti.2]
    simp only [castIsValid, hpti.1, isIntegerTy, Bool.and_self]
  · cases h
    cases hw
    simp only [castIsValid, hint hitp, hitp, isIntegerTy, Bool.and_self]
  · cases h
    exact createBitCast_castIsValid hptr.1 hptr.2 hw
  · split at h
    · next valbits tobits hval =>
      split_ifs at h with hwider
      · obtain ⟨u, -, rfl⟩ := Option.map_eq_some_iff.mp h
        cases hw
        cases u <;> simpa [castIsValid, hval] using hwider
      · cases h
        cases hw
        have hbits : tobits ≠ valbits := fun heq => hne (hval ▸ rfl) (heq ▸ hval.symm)
        simp only [castIsValid, hval, decide_eq_true_eq]
        omega
    · next tobits hval =>
      obtain ⟨u, -, rfl⟩ := Option.map_eq_some_iff.mp h
      cases hw
      rw [hval]
      rfl
    · next valbits hval =>
      obtain ⟨u, -, rfl⟩ := Option.map_eq_some_iff.mp h
      cases hw
      cases u <;> rw [hval] <;> rfl
    · cases h

/-- A pointer-sized integer becomes a pointer, whatever the target is. -/
theorem convertValue_pointerSized (hv : v.type = int 64) :
    convertValue type btype v toType = some (.cast IntToPtr v toType) := by
  unfold convertValue
  rw [if_neg (by simp [hv, isPointerTy]), if_pos hv]

end Valid

section Target

variable {type btype : Btype} {v : Value} {vc : VarContext}

theorem convertToType_of_isIntegerTy (hv : v.type.isIntegerTy) :
    convertToType type btype v vc = type.type := by
  refine if_neg fun h => ?_
  rw [h.2] at hv
  cases hv

theorem convertTarget_isPointerTy_iff (type : Btype) :
    (convertTarget type).type.isPointerTy ↔ type.type.isPointerTy ∨ type.type.isFunctionTy := by
  unfold convertTarget
  split_ifs with h
  · simp [Btype.type, isPointerTy, h]
  · simp [h]

/-- The target of a conversion of an integer that does not have its type. -/
theorem convertToType_ne (hv : v.type.isIntegerTy) (hne : type.type ≠ v.type) :
    convertToType (convertTarget type) btype v vc ≠ v.type := by
  rw [convertToType_of_isIntegerTy hv, convertTarget]
  split_ifs
  · intro h
    rw [← h] at hv
    cases hv
  · exact hne

end Target

/-- The casts are valid unless a pointer-sized integer is converted to another type that is
not a pointer or a function. -/
theorem convertsValidly_iff (same : Bool) (type : Btype) (e : Bexpression) :
    ConvertsValidly same type e ↔ ∀ v, e.value = some v → v.type = int 64 →
      same ∨ type.type = int 64 ∨ type.type.isPointerTy ∨ type.type.isFunctionTy := by
  cases e with
  | compositeInit node bt elems =>
    exact ⟨fun _ v hv => (nomatch hv), fun _ r v w op t _ hv => (nomatch hv)⟩
  | expr bt v vc =>
    constructor
    · intro h v' hv' hint
      cases hv'
      by_contra! hcon
      obtain ⟨hsame, hne, hptr, hfun⟩ := hcon
      have hid : ¬(same ∨ type.type = v.type) := not_or.mpr ⟨hsame, hint ▸ hne⟩
      have hvalid := h _ v _ _ _ (by
        rw [convertExpression_eq hid, convertValue_pointerSized hint, Option.map_some]) rfl rfl rfl
      rw [convertToType_of_isIntegerTy (hint ▸ rfl)] at hvalid
      simp only [castIsValid, Bool.and_eq_true] at hvalid
      rcases (convertTarget_isPointerTy_iff type).mp hvalid.2 with hp | hf
      · exact hptr hp
      · exact hfun hf
    · intro h r v' w op t hr hv' hw hcast
      cases hv'
      by_cases hid : same ∨ type.type = v.type
      · rw [convertExpression_of_same hid] at hr
        cases hr
        cases hw
        exact absurd hcast Value.asCast_ne_self
      · rw [convertExpression_eq hid] at hr
        obtain ⟨conv, hconv, rfl⟩ := Option.map_eq_some_iff.mp hr
        cases hw
        rw [not_or] at hid
        refine convertValue_castIsValid hconv (fun hi => convertToType_ne hi hid.2) ?_ hcast
        intro hint
        rw [convertToType_of_isIntegerTy (hint ▸ rfl), convertTarget_isPointerTy_iff]
        rcases h v rfl hint with hsame | htype | hptr
        · exact absurd hsame hid.1
        · exact absurd (htype.trans hint.symm) hid.2
        · exact hptr

/-- An `int64` converted to `int32`. -/
theorem narrowed_int64_not_convertsValidly : ¬ConvertsValidly false (.integer false 32)
    (.expr (.integer false 64) (.argument 0 (int 64)) {}) := by
  intro h
  have := h _ (.argument 0 (int 64)) _ _ _ rfl rfl rfl rfl
  cases this

/-! ## Numeric conversions -/

/-- The number that an integer type reads in its bits. -/
def integerValue (isUnsigned : Bool) {n : ℕ} (x : BitVec n) : ℤ :=
  if isUnsigned then x.toNat else x.toInt

/-- The number that a conversion to an integer type makes of `k`. -/
def wrap (isUnsigned : Bool) (m : ℕ) (k : ℤ) : ℤ :=
  if isUnsigned then k % (2 ^ m : ℕ) else k.bmod (2 ^ m)

theorem setWidth_eq_ofInt {n : ℕ} (x : BitVec n) (m : ℕ) :
    x.setWidth m = BitVec.ofInt m x.toNat := by
  apply BitVec.eq_of_toNat_eq
  rw [BitVec.toNat_ofInt, BitVec.toNat_setWidth, ← Int.natCast_emod, Int.toNat_natCast]

theorem integerValue_ofInt (u : Bool) (m : ℕ) (k : ℤ) :
    integerValue u (BitVec.ofInt m k) = wrap u m k := by
  cases u with
  | false => exact BitVec.toInt_ofInt k
  | true =>
    have hpos : ((2 ^ m : ℕ) : ℤ) ≠ 0 := Int.natCast_ne_zero.mpr (Nat.two_pow_pos m).ne'
    simp only [integerValue, wrap, if_true, BitVec.toNat_ofInt]
    exact Int.toNat_of_nonneg (Int.emod_nonneg k hpos)

theorem integerValue_inj {u : Bool} {m : ℕ} {x y : BitVec m} :
    integerValue u x = integerValue u y ↔ x = y := by
  refine ⟨fun h => ?_, fun h => h ▸ rfl⟩
  cases u with
  | false => exact BitVec.eq_of_toInt_eq h
  | true => exact BitVec.eq_of_toNat_eq (Int.ofNat.inj h)

/-- Extension by the sign rule of a type is conversion of the number that it reads. -/
theorem extend_eq_ofInt (u : Bool) {n : ℕ} (x : BitVec n) (m : ℕ) :
    (if u then x.setWidth m else x.signExtend m) = BitVec.ofInt m (integerValue u x) := by
  cases u with
  | false => rfl
  | true => exact setWidth_eq_ofInt x m

theorem trunc_eq_ofInt (u : Bool) {n m : ℕ} (x : BitVec n) (h : m ≤ n) :
    x.setWidth m = BitVec.ofInt m (integerValue u x) := by
  rw [← extend_eq_ofInt]
  cases u with
  | false => exact (BitVec.signExtend_eq_setWidth_of_le x h).symm
  | true => rfl

theorem setWidth_eq_signExtend_iff {n m : ℕ} (x : BitVec n) (h : n < m) :
    x.setWidth m = x.signExtend m ↔ x.msb = false := by
  refine ⟨fun heq => ?_, fun hmsb => (BitVec.signExtend_eq_setWidth_of_msb_false hmsb).symm⟩
  -- the first bit that is added tells them apart
  have hbit := congrArg (fun y => y.getLsbD n) heq
  simp only [BitVec.getLsbD_setWidth, BitVec.getLsbD_signExtend, h, decide_true, Bool.true_and,
    lt_irrefl, if_false, BitVec.getLsbD_of_ge x n le_rfl] at hbit
  exact hbit.symm

/-- The two sign rules give the same only if they are one, or the sign bit is clear. -/
theorem extend_eq_iff {u u' : Bool} {n m : ℕ} (x : BitVec n) (h : n < m) :
    BitVec.ofInt m (integerValue u x) = BitVec.ofInt m (integerValue u' x) ↔
      u' = u ∨ x.msb = false := by
  simp only [← extend_eq_ofInt]
  cases u <;> cases u' <;> simp [setWidth_eq_signExtend_iff x h, @eq_comm _ (x.signExtend m)]

/-- An integer of some type, or a 32-bit float that is a number. -/
inductive Numeric
  | integer (isUnsigned : Bool) (bits : ℕ) (x : BitVec bits)
  | float32 (q : ℚ)

namespace Numeric

def btype : Numeric → Btype
  | integer u n _ => .integer u n
  | float32 _ => .float .f32

def datum : Numeric → Datum
  | integer _ n x => .int n x
  | float32 q => .float (.number (q : WithTop ℚ))

/-- Go's conversion to an integer type. -/
def toInteger (isUnsigned : Bool) (m : ℕ) : Numeric → ℤ
  | integer u _ x => wrap isUnsigned m (integerValue u x)
  | float32 q => integerPart q

/-- The integer part of a float is a number of the integer type. -/
def Fits (isUnsigned : Bool) (m : ℕ) : Numeric → Prop
  | integer .. => True
  | float32 q =>
    if isUnsigned then 0 ≤ integerPart q ∧ integerPart q < 2 ^ m
    else -2 ^ m ≤ 2 * integerPart q ∧ 2 * integerPart q < 2 ^ m

/-- The sign rule of the target is that of the source, or the sign does not matter; and
the integer is not one that a pointer is made of. -/
def SignAgrees (isUnsigned : Bool) (m : ℕ) : Numeric → Prop
  | integer u n x => (m ≤ n ∨ u = isUnsigned ∨ x.msb = false) ∧ (n = 64 → m = 64)
  | float32 q => 0 ≤ integerPart q

end Numeric

/-- The conversion of a value to an integer type computes what Go's conversion does. -/
def ComputesConversion (env : Env) (same isUnsigned : Bool) (m : ℕ) (s : Numeric) (v : Value)
    (vc : VarContext) : Prop :=
  ∃ r w y, convertExpression (.integer isUnsigned m) same (.expr s.btype v vc) = some r ∧
    r.value = some w ∧ env.eval w = some (.int m y) ∧
    integerValue isUnsigned y = s.toInteger isUnsigned m

section Numeric

variable {env : Env} {same u : Bool} {m n : ℕ} {s : Numeric} {v w : Value} {vc : VarContext}

/-- A conversion to an integer type that goes through a cast. -/
theorem convertExpression_of_cast {bt : Btype} (hne : ¬(same ∨ (Btype.integer u m).type = v.type))
    (hvc : vc.pending = false) (hconv : convertValue (.integer u m) bt v (int m) = some w) :
    convertExpression (.integer u m) same (.expr bt v vc) = some (.expr (.integer u m) w {}) := by
  have hto : convertToType (.integer u m) bt v vc = int m := if_neg (by simp [hvc])
  rw [convertExpression_eq hne]
  simp [convertTarget, Btype.type, isFunctionTy, hto, hconv, hvc]

theorem computesConversion_iff_of_eq {r : Bexpression}
    (hr : convertExpression (.integer u m) same (.expr s.btype v vc) = some r)
    (hw : r.value = some w) : ComputesConversion env same u m s v vc ↔
      ∃ y, env.eval w = some (.int m y) ∧ integerValue u y = s.toInteger u m := by
  constructor
  · rintro ⟨r', w', y, hr', hw', hy⟩
    cases hr.symm.trans hr'
    cases hw.symm.trans hw'
    exact ⟨y, hy⟩
  · rintro ⟨y, hy⟩
    exact ⟨r, w, y, hr, hw, hy⟩

/-! ### Integers -/

/-- The value of a conversion of a resolved integer of `n` bits. -/
def convertedInteger (u : Bool) (n m : ℕ) (v : Value) : Value :=
  if m = n then v
  else if n = 64 then .cast IntToPtr v (int m)
  else .cast (if n < m then if u then ZExt else SExt else Trunc) v (int m)

/-- The bits that it has, unless a pointer is made of it. -/
def convertedBits (u : Bool) (m : ℕ) {n : ℕ} (x : BitVec n) : BitVec m :=
  if n < m then BitVec.ofInt m (integerValue u x) else x.setWidth m

theorem convertValue_integer {bt : Btype} (hv : v.type = int n) (hmn : m ≠ n) :
    convertValue (.integer u m) bt v (int m) = some (convertedInteger u n m v) := by
  rw [convertedInteger, if_neg hmn]
  by_cases h64 : n = 64
  · rw [if_pos h64, convertValue_pointerSized (h64 ▸ hv)]
  · have hnp : ¬(v.type.isPointerTy ∧ int m = int 64) := by simp [hv, isPointerTy]
    have hnb : ¬(v.type.isPointerTy ∧ (int m).isPointerTy) := by simp [isPointerTy]
    have hn64 : ¬v.type = int 64 := by simpa [hv] using h64
    unfold convertValue
    rw [if_neg h64, if_neg hnp, if_neg hn64, if_neg hnb]
    simp only [hv, gt_iff_lt, Btype.isUnsigned, Option.map_some]
    split_ifs <;> rfl

theorem convertExpression_integer {uS : Bool} (hv : v.type = int n) (hvc : vc.pending = false)
    (hsame : same → Btype.integer u m = .integer uS n) :
    ∃ r, convertExpression (.integer u m) same (.expr (.integer uS n) v vc) = some r ∧
      r.value = some (convertedInteger u n m v) := by
  by_cases hmn : m = n
  · subst hmn
    exact ⟨_, convertExpression_of_same (Or.inr hv.symm), congrArg some (if_pos rfl).symm⟩
  · have hne : ¬(same ∨ (Btype.integer u m).type = v.type) := by
      rintro (hs | ht)
      · cases hsame hs
        exact hmn rfl
      · rw [hv] at ht
        cases ht
        exact hmn rfl
    exact ⟨_, convertExpression_of_cast hne hvc (convertValue_integer hv hmn), rfl⟩

theorem apply_extend (x : BitVec n) (h : n < m) :
    (if u then ZExt else SExt).apply (.int n x) (int m) =
      some (.int m (BitVec.ofInt m (integerValue u x))) := by
  rw [← extend_eq_ofInt]
  cases u with
  | false => exact if_pos h
  | true => exact if_pos h

theorem eval_convertedInteger {x : BitVec n} (hv : env.eval v = some (.int n x))
    (h64 : n = 64 → m = 64) :
    env.eval (convertedInteger u n m v) = some (.int m (convertedBits u m x)) := by
  by_cases hmn : m = n
  · subst hmn
    rw [convertedInteger, if_pos rfl, convertedBits, if_neg (lt_irrefl m), BitVec.setWidth_eq, hv]
  · have hn64 : n ≠ 64 := fun h => hmn ((h64 h).trans h.symm)
    rw [convertedInteger, if_neg hmn, if_neg hn64, convertedBits]
    simp only [Env.eval, hv, Option.bind_some]
    by_cases hlt : n < m
    · rw [if_pos hlt, if_pos hlt]
      exact apply_extend x hlt
    · rw [if_neg hlt, if_neg hlt]
      exact if_pos (by omega)

theorem eval_convertedInteger_pointerSized {x : BitVec n} (hv : env.eval v = some (.int n x))
    (h64 : n = 64) (hm : m ≠ 64) : env.eval (convertedInteger u n m v) = none := by
  rw [convertedInteger, if_neg (h64 ▸ hm), if_pos h64]
  simp only [Env.eval, hv, Option.bind_some, CastOp.apply]

theorem convertedBits_eq_iff {uS : Bool} (x : BitVec n) :
    convertedBits u m x = BitVec.ofInt m (integerValue uS x) ↔
      m ≤ n ∨ uS = u ∨ x.msb = false := by
  unfold convertedBits
  split_ifs with hlt
  · rw [extend_eq_iff x hlt]
    simp only [Nat.not_le.mpr hlt, false_or]
  · have hle : m ≤ n := Nat.not_lt.mp hlt
    exact iff_of_true (trunc_eq_ofInt uS x hle) (Or.inl hle)

theorem computesConversion_integer_iff {uS : Bool} {x : BitVec n}
    (hv : v.type = int n) (hvc : vc.pending = false)
    (hsame : same → Btype.integer u m = .integer uS n) (heval : env.eval v = some (.int n x)) :
    ComputesConversion env same u m (.integer uS n x) v vc ↔
      (m ≤ n ∨ uS = u ∨ x.msb = false) ∧ (n = 64 → m = 64) := by
  obtain ⟨r, hr, hw⟩ := convertExpression_integer hv hvc hsame
  rw [computesConversion_iff_of_eq (s := .integer uS n x) hr hw]
  by_cases h64 : n = 64 → m = 64
  · rw [eval_convertedInteger heval h64, ← convertedBits_eq_iff]
    simp only [Option.some.injEq, Datum.int.injEq, heq_eq_eq, true_and, exists_eq_left',
      Numeric.toInteger, ← integerValue_ofInt, integerValue_inj]
    exact (and_iff_left h64).symm
  · have hn : n = 64 ∧ m ≠ 64 := Classical.not_imp.mp h64
    rw [eval_convertedInteger_pointerSized heval hn.1 hn.2]
    exact iff_of_false (fun ⟨y, hy, _⟩ => nomatch hy) fun h => h64 h.2

/-! ### Floats -/

theorem wrap_integerPart {q : ℚ} (h : (Numeric.float32 q).Fits u m) :
    wrap u m (integerPart q) = integerPart q := by
  cases u with
  | false =>
    obtain ⟨hlow, hhigh⟩ : -2 ^ m ≤ 2 * integerPart q ∧ 2 * integerPart q < 2 ^ m := h
    refine Int.bmod_eq_of_le_mul_two ?_ ?_
    · push_cast; omega
    · push_cast; omega
  | true =>
    obtain ⟨hlow, hhigh⟩ : 0 ≤ integerPart q ∧ integerPart q < 2 ^ m := h
    exact Int.emod_eq_of_lt hlow (by push_cast; exact hhigh)

theorem computesConversion_float_iff {q : ℚ} (hv : v.type = float) (hvc : vc.pending = false)
    (hsame : same → Btype.integer u m = .float .f32)
    (heval : env.eval v = some (.float (.number (q : WithTop ℚ))))
    (hfits : (Numeric.float32 q).Fits u m) :
    ComputesConversion env same u m (.float32 q) v vc ↔ 0 ≤ integerPart q := by
  have hne : ¬(same ∨ (Btype.integer u m).type = v.type) := by
    rintro (hs | ht)
    · cases hsame hs
    · rw [hv] at ht
      cases ht
  have hconv : convertValue (.integer u m) (.float .f32) v (int m) =
      some (.cast FPToUI v (int m)) := by
    unfold convertValue
    rw [if_neg (by simp [hv, isPointerTy]), if_neg (by simp [hv]), if_neg (by simp [isPointerTy])]
    simp only [hv, Btype.isUnsigned, Option.map_some]
  have htop : 0 ≤ integerPart q → integerPart q < 2 ^ m := by
    intro h0
    cases u with
    | false =>
      have : 2 * integerPart q < 2 ^ m := hfits.2
      omega
    | true => exact hfits.2
  have hwrap : (Numeric.float32 q).toInteger u m = wrap u m (integerPart q) :=
    (wrap_integerPart hfits).symm
  have hr := convertExpression_of_cast hne hvc hconv
  rw [computesConversion_iff_of_eq (s := .float32 q) hr rfl, hwrap]
  constructor
  · rintro ⟨y, hy, -⟩
    simp [Env.eval, heval, CastOp.apply] at hy
    exact hy.1.1
  · intro h0
    refine ⟨BitVec.ofInt m (integerPart q), ?_, integerValue_ofInt u m _⟩
    simp only [Env.eval, heval, Option.bind_some]
    exact if_pos ⟨h0, htop h0⟩

/-- A resolved integer, or a 32-bit float whose integer part is in the range of the target,
is converted as Go does exactly when the sign rules agree. -/
theorem computesConversion_iff (hv : v.type = s.btype.type) (hvc : vc.pending = false)
    (hsame : same → Btype.integer u m = s.btype) (heval : env.eval v = some s.datum)
    (hfits : s.Fits u m) : ComputesConversion env same u m s v vc ↔ s.SignAgrees u m := by
  cases s with
  | integer uS n x => exact computesConversion_integer_iff hv hvc hsame heval
  | float32 q => exact computesConversion_float_iff hv hvc hsame heval hfits

/-- A small `int8` becomes a `uint16`, and a negative one does not. -/
theorem int8_computesConversion :
    ComputesConversion (.const (.int 8 5)) false true 16 (.integer false 8 5)
      (.argument 0 (int 8)) {} :=
  (computesConversion_iff rfl rfl (fun h : false = true => nomatch h) rfl (by trivial)).mpr
    ⟨Or.inr (Or.inr rfl), nofun⟩

theorem int8_minus_one_not_computesConversion :
    ¬ComputesConversion (.const (.int 8 (-1))) false true 16 (.integer false 8 (-1))
      (.argument 0 (int 8)) {} := by
  intro h
  have := (computesConversion_integer_iff rfl rfl (fun h : false = true => nomatch h) rfl).mp h
  revert this
  decide

end Numeric

end Dragongo
