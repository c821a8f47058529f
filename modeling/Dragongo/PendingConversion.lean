import Dragongo.Conversion

/-!
# Conversions of references

A reference to a variable may be converted before it is loaded from: its address is cast,
and the load that comes later takes its width from the target.  The other order loads the
variable and converts what is loaded.
-/

namespace Dragongo
open LType CastOp Varexpr_context

/-- Only pointer types are recorded with a type to load them as: the placeholder of a
circular pointer and the type that completes it. -/
structure CircularPointerTypes extends CircularTypes where
  isPointerTy_of_loadConversion : ∀ {bt t : Btype}, loadConversion bt = some t → bt.type.isPointerTy

theorem CircularPointerTypes.loadConversion_integer (c : CircularPointerTypes) (u : Bool) (n : ℕ) :
    c.loadConversion (.integer u n) = none := by
  cases h : c.loadConversion (.integer u n) with
  | none => rfl
  | some t => cases c.isPointerTy_of_loadConversion h

/-- The expression that `resolve` gives; its context is not pending. -/
def Resolved.toExpr (r : Resolved) : Bexpression := .expr r.btype r.value {}

section Orders

variable (c : CircularTypes) (same : Bool) (type : Btype) (e : Bexpression)

def convertThenResolve : Option Bexpression := do
  let conv ← convertExpression type same e
  let r ← resolve c conv VE_rvalue
  some r.toExpr

def resolveThenConvert : Option Bexpression := do
  let r ← resolve c e VE_rvalue
  convertExpression type same r.toExpr

end Orders

/-- The addresses of `k` bytes. -/
def addresses (a : BitVec 64) (k : ℕ) : List (BitVec 64) :=
  (List.range k).map fun i => a + BitVec.ofNat 64 i

/-- Whatever the memory holds, the two orders give one value for a variable of `n` bits at
address `v`, and the first one reads the bytes of the variable. -/
def ConvertsAlike (c : CircularTypes) (same : Bool) (type : Btype) (e : Bexpression) (v : Value)
    (n : ℕ) : Prop :=
  ∀ env a, Env.eval env v = some (.pointer a) → env.Unread v → ∃ r r' w w' d,
    convertThenResolve c same type e = some r ∧ resolveThenConvert c same type e = some r' ∧
    r.value = some w ∧ r'.value = some w' ∧ env.eval w = some d ∧ env.eval w' = some d ∧
    env.reads w = env.reads v ++ addresses a ((n + 7) / 8)

section Pending

variable {c : CircularPointerTypes} {same uS u : Bool} {n m : ℕ} {v : Value} {vc : VarContext}
  {env : Env} {a : BitVec 64}

theorem createBitCast_type (v : Value) (t : LType) : (createBitCast v t).type = t := by
  unfold createBitCast
  split_ifs with h
  · exact h
  · rfl

theorem eval_createBitCast (ha : env.eval v = some (.pointer a)) (t : LType) :
    env.eval (createBitCast v (ptr t)) = some (.pointer a) := by
  unfold createBitCast
  split_ifs
  · exact ha
  · exact Env.eval_bitcast ha t

theorem reads_createBitCast (v : Value) (t : LType) :
    env.reads (createBitCast v t) = env.reads v := by
  unfold createBitCast
  split_ifs <;> rfl

theorem known_createBitCast (h : env.Unread v) (t : LType) :
    env.known (.load (createBitCast v t)) = none := by
  unfold createBitCast
  split_ifs
  · exact h.load
  · exact h.load_bitcast t

/-- A load through a cast of an address has the type of the cast. -/
theorem eval_load_createBitCast (ha : env.eval v = some (.pointer a)) (h : env.Unread v)
    (t : LType) : env.eval (.load (createBitCast v (ptr t))) = env.load t a := by
  rw [Env.eval_load (eval_createBitCast ha t) (known_createBitCast h _), createBitCast_type]
  rfl

theorem reads_load_createBitCast (ha : env.eval v = some (.pointer a)) (h : env.Unread v)
    (t : LType) : env.reads (.load (createBitCast v (ptr t))) =
      env.reads v ++ addresses a (loadSize t) := by
  rw [Env.reads_load (eval_createBitCast ha t) (known_createBitCast h _), reads_createBitCast,
    createBitCast_type]
  rfl

/-! ## The two orders -/

/-- The address of a pending integer is cast. -/
theorem convertExpression_pending (hv : v.type = ptr (int n)) (hp : vc.pending)
    (hsame : same → Btype.integer u m = .integer uS n) :
    convertExpression (.integer u m) same (.expr (.integer uS n) v vc) =
      some (.expr (.integer u m) (createBitCast v (ptr (int m))) vc) := by
  by_cases hs : same ∨ (Btype.integer u m).type = v.type
  · have hb : Btype.integer u m = .integer uS n := by
      rcases hs with hs | ht
      · exact hsame hs
      · rw [hv] at ht
        cases ht
    rw [convertExpression_of_same hs, hb]
    cases hb
    rw [createBitCast, if_pos hv]
  · have hto : convertToType (.integer u m) (.integer uS n) v vc = ptr (int m) :=
      if_pos ⟨hp, hv⟩
    rw [convertExpression_eq hs]
    simp [convertTarget, Btype.type, isFunctionTy, hto, hp, convertValue, hv, isPointerTy]

/-- A reference that is to be loaded from. -/
theorem resolve_pending (hp : vc.pending) (h0 : vc.addrLevel = 0) (hl : vc.lvalue = false)
    (u : Bool) (n : ℕ) (w : Value) :
    (resolve c.toCircularTypes (.expr (.integer u n) w vc) VE_rvalue).map Resolved.toExpr =
      some (.expr (.integer u n) (.load w) {}) := by
  simp [resolve, resolveVarContext, hp, h0, hl, loadFromExpr, c.loadConversion_integer,
    Resolved.toExpr]

/-- Where the reference is not an address to load from, it stays one, or nothing comes of
it. -/
theorem resolve_of_not_load (hp : vc.pending) (h : ¬(vc.addrLevel = 0 ∧ vc.lvalue = false))
    (u : Bool) (n : ℕ) (w : Value) :
    (resolve c.toCircularTypes (.expr (.integer u n) w vc) VE_rvalue).map Resolved.toExpr =
      if vc.addrLevel = 0 then some (.expr (.integer u n) w {}) else none := by
  by_cases h0 : vc.addrLevel = 0
  · have hl : vc.lvalue = true := by simpa [h0] using h
    simp [resolve, resolveVarContext, hp, h0, hl, Resolved.toExpr]
  · simp [resolve, resolveVarContext, hp, h0, Btype.type, isPointerTy]
    exact fun h1 h1' => absurd h1 h1'

theorem convertThenResolve_eq (hv : v.type = ptr (int n)) (hp : vc.pending)
    (hsame : same → Btype.integer u m = .integer uS n) :
    convertThenResolve c.toCircularTypes same (.integer u m) (.expr (.integer uS n) v vc) =
      (resolve c.toCircularTypes (.expr (.integer u m) (createBitCast v (ptr (int m))) vc)
        VE_rvalue).map Resolved.toExpr := by
  rw [convertThenResolve, convertExpression_pending hv hp hsame]
  exact (Option.map_eq_bind ..).symm

theorem resolveThenConvert_eq (type : Btype) (e : Bexpression) :
    resolveThenConvert c.toCircularTypes same type e =
      ((resolve c.toCircularTypes e VE_rvalue).map Resolved.toExpr).bind
        (convertExpression type same) := by
  unfold resolveThenConvert
  cases resolve c.toCircularTypes e VE_rvalue <;> rfl

/-! ## The values that are read -/

/-- The integer of `n` bits at an address. -/
def Env.readInt (env : Env) (a : BitVec 64) (n : ℕ) : BitVec n :=
  BitVec.ofNat n (LittleEndian.read (env.byte a) ((n + 7) / 8))

/-- A narrower load gives the low bits of a wider one. -/
theorem readInt_of_le (h : m ≤ n) : env.readInt a m = convertedBits u m (env.readInt a n) := by
  rw [convertedBits, if_neg (Nat.not_lt.mpr h)]
  apply BitVec.eq_of_toNat_eq
  simp only [Env.readInt, BitVec.toNat_ofNat, BitVec.toNat_setWidth,
    Nat.mod_mod_of_dvd _ (pow_dvd_pow 2 h)]
  exact (LittleEndian.read_mod_two_pow (by omega) (by omega)).symm

theorem getLsbD_readInt {i : ℕ} (h : i < n) :
    (env.readInt a n).getLsbD i = (env.byte a (i / 8)).getLsbD (i % 8) := by
  rw [Env.readInt, BitVec.getLsbD_ofNat, LittleEndian.testBit_read (by omega)]
  simp only [h, decide_true, Bool.true_and]

/-- A memory in which bit `n` of a number is set and bit `n - 1` is not. -/
def alternating (n : ℕ) (_ : BitVec 64) : BitVec 8 := if n % 2 = 0 then 0x55 else 0xaa

theorem getLsbD_alternating (i : ℕ) (b : BitVec 64) :
    (alternating n b).getLsbD (i % 8) = decide (i % 2 = n % 2) := by
  have hi : i % 2 = i % 8 % 2 := by omega
  rw [hi]
  have heven : ∀ j < 8, (0x55 : BitVec 8).getLsbD j = decide (j % 2 = 0) := by decide
  have hodd : ∀ j < 8, (0xaa : BitVec 8).getLsbD j = decide (j % 2 = 1) := by decide
  have hlt : i % 8 < 8 := Nat.mod_lt _ (by decide)
  unfold alternating
  rcases Nat.mod_two_eq_zero_or_one n with h | h
  · rw [h]
    exact heven _ hlt
  · rw [h]
    exact hodd _ hlt

/-- A wider load takes in a bit that is not in the variable. -/
theorem readInt_ne_of_lt (h : n < m) (hn : 0 < n) (hmem : env.memory = alternating n) :
    env.readInt a m ≠ convertedBits u m (env.readInt a n) := by
  have hbit : ∀ {k i : ℕ}, i < k → (env.readInt a k).getLsbD i = decide (i % 2 = n % 2) := by
    intro k i hi
    rw [getLsbD_readInt hi, Env.byte, hmem, getLsbD_alternating]
  have hmsb : (env.readInt a n).msb = false := by
    rw [BitVec.msb_eq_getLsbD_last, hbit (by omega)]
    exact decide_eq_false (by omega)
  intro heq
  have hset : (env.readInt a m).getLsbD n = true := by
    rw [hbit h]
    exact decide_eq_true rfl
  have hclear : (convertedBits u m (env.readInt a n)).getLsbD n = false := by
    rw [convertedBits, if_pos h, ← extend_eq_ofInt]
    cases u with
    | false => simp [BitVec.getLsbD_signExtend, hmsb]
    | true => simp [BitVec.getLsbD_setWidth]
  rw [heq, hclear] at hset
  cases hset

/-! ## When the orders agree -/

theorem addresses_inj {j k : ℕ} : addresses a j = addresses a k ↔ j = k := by
  refine ⟨fun h => ?_, fun h => h ▸ rfl⟩
  simpa [addresses] using congrArg List.length h

/-- The value that the reference's conversion gives, and what it reads. -/
theorem eval_converted_reference (ha : env.eval v = some (.pointer a)) (h : env.Unread v) :
    env.eval (.load (createBitCast v (ptr (int m)))) = some (.int m (env.readInt a m)) ∧
      env.reads (.load (createBitCast v (ptr (int m)))) =
        env.reads v ++ addresses a ((m + 7) / 8) :=
  ⟨eval_load_createBitCast ha h _, reads_load_createBitCast ha h _⟩

theorem eval_load_reference (hv : v.type = ptr (int n)) (ha : env.eval v = some (.pointer a))
    (h : env.Unread v) : env.eval (.load v) = some (.int n (env.readInt a n)) := by
  rw [Env.eval_load ha h.load, hv]
  rfl

theorem convertsAlike_iff_of_load (hv : v.type = ptr (int n)) (hp : vc.pending)
    (hload : vc.addrLevel = 0 ∧ vc.lvalue = false)
    (hsame : same → Btype.integer u m = .integer uS n) :
    ConvertsAlike c.toCircularTypes same (.integer u m) (.expr (.integer uS n) v vc) v n ↔
      ∀ env a, Env.eval env v = some (.pointer a) → env.Unread v →
        ((n = 64 → m = 64) ∧ env.readInt a m = convertedBits u m (env.readInt a n)) ∧
          (m + 7) / 8 = (n + 7) / 8 := by
  have hfirst : convertThenResolve c.toCircularTypes same (.integer u m)
      (.expr (.integer uS n) v vc) =
        some (.expr (.integer u m) (.load (createBitCast v (ptr (int m)))) {}) := by
    rw [convertThenResolve_eq hv hp hsame, resolve_pending hp hload.1 hload.2]
  have htype : (Value.load v).type = int n := congrArg pointeeType hv
  have hvc : ({} : VarContext).pending = false := rfl
  obtain ⟨r', hr', hw'⟩ := convertExpression_integer htype hvc hsame
  have hsecond : resolveThenConvert c.toCircularTypes same (.integer u m)
      (.expr (.integer uS n) v vc) = some r' := by
    rw [resolveThenConvert_eq, resolve_pending hp hload.1 hload.2]
    exact hr'
  refine forall₂_congr fun env a => forall₂_congr fun ha h => ?_
  obtain ⟨heval, hreads⟩ := eval_converted_reference (m := m) ha h
  have hv' := eval_load_reference hv ha h
  constructor
  · rintro ⟨r, r'', w, w'', d, hr, hr'', hw, hw'', hd, hd'', hbytes⟩
    cases hfirst.symm.trans hr
    cases hw
    cases hsecond.symm.trans hr''
    cases hw'.symm.trans hw''
    rw [hreads, List.append_cancel_left_eq, addresses_inj] at hbytes
    refine ⟨?_, hbytes⟩
    by_cases h64 : n = 64 → m = 64
    · rw [heval] at hd
      rw [eval_convertedInteger hv' h64, ← hd] at hd''
      simp only [Option.some.injEq, Datum.int.injEq, heq_eq_eq, true_and] at hd''
      exact ⟨h64, hd''.symm⟩
    · have hn : n = 64 ∧ m ≠ 64 := Classical.not_imp.mp h64
      rw [eval_convertedInteger_pointerSized hv' hn.1 hn.2] at hd''
      cases hd''
  · rintro ⟨⟨h64, hbits⟩, hbytes⟩
    refine ⟨_, r', _, _, _, hfirst, hsecond, rfl, hw', heval, ?_, hbytes ▸ hreads⟩
    rw [eval_convertedInteger hv' h64, hbits]

/-- Converting a reference to an integer variable commutes with the load exactly when the
reference is one to load from, the target is not wider, takes up as many bytes, and is of
pointer size if the variable is. -/
theorem convertsAlike_iff (hv : v.type = ptr (int n)) (hp : vc.pending) (hn : 0 < n)
    (hsame : same → Btype.integer u m = .integer uS n)
    (haddr : ∃ env a, Env.eval env v = some (.pointer a)) :
    ConvertsAlike c.toCircularTypes same (.integer u m) (.expr (.integer uS n) v vc) v n ↔
      (vc.addrLevel = 0 ∧ vc.lvalue = false) ∧ m ≤ n ∧ (m + 7) / 8 = (n + 7) / 8 ∧
        (n = 64 → m = 64) := by
  obtain ⟨env₀, a, ha₀⟩ := haddr
  -- any contents of memory can come after the address is computed
  have hafter : ∀ memory, (env₀.after v memory).eval v = some (.pointer a) := fun memory =>
    (Env.eval_after le_rfl).trans ha₀
  by_cases hload : vc.addrLevel = 0 ∧ vc.lvalue = false
  · rw [convertsAlike_iff_of_load hv hp hload hsame]
    constructor
    · intro h
      obtain ⟨⟨h64, hbits⟩, hbytes⟩ := h _ a (hafter (alternating n)) Env.unread_after
      refine ⟨hload, Nat.not_lt.mp fun hlt => ?_, hbytes, h64⟩
      exact readInt_ne_of_lt hlt hn rfl hbits
    · rintro ⟨-, hle, hbytes, h64⟩ env a - -
      exact ⟨⟨h64, readInt_of_le hle⟩, hbytes⟩
  · refine iff_of_false (fun h => ?_) fun h => hload h.1
    obtain ⟨r, -, w, -, -, hr, -, hw, -, -, -, hbytes⟩ :=
      h _ a (hafter env₀.memory) Env.unread_after
    rw [convertThenResolve_eq hv hp hsame, resolve_of_not_load hp hload] at hr
    split_ifs at hr
    cases hr
    cases hw
    -- an address is handed out, and nothing is read
    have hlen := congrArg List.length hbytes
    rw [reads_createBitCast, List.length_append] at hlen
    simp only [addresses, List.length_map, List.length_range] at hlen
    omega

end Pending

/-- Circular pointers are left out. -/
def noCircularPointers : CircularPointerTypes :=
  ⟨⟨fun _ => none, fun _ => false, nofun⟩, nofun⟩

/-- The address of the only variable is 0, and byte 2 of the memory is 1. -/
def lowMemory : Env := ⟨fun b => if b = 2 then 1 else 0, fun
  | .alloca .. => some (.pointer 0)
  | _ => none⟩

theorem int16_convertsAlike : ConvertsAlike noCircularPointers.toCircularTypes false
    (.integer true 16) (.expr (.integer false 16) (.alloca 0 (int 16)) ⟨0, false, true⟩)
    (.alloca 0 (int 16)) 16 :=
  (convertsAlike_iff rfl rfl (by decide) (fun h : false = true => nomatch h)
    ⟨lowMemory, 0, rfl⟩).mpr ⟨⟨rfl, rfl⟩, le_rfl, rfl, by decide⟩

/-- An `int16` variable converted to `int32` takes two bytes after it. -/
theorem widened_int16_not_convertsAlike : ¬ConvertsAlike noCircularPointers.toCircularTypes false
    (.integer false 32) (.expr (.integer false 16) (.alloca 0 (int 16)) ⟨0, false, true⟩)
    (.alloca 0 (int 16)) 16 := by
  intro h
  obtain ⟨r, r', w, w', d, hr, hr', hw, hw', hd, hd', hbytes⟩ :=
    h lowMemory 0 rfl ⟨rfl, fun _ => rfl⟩
  cases hr
  cases hw
  cases hr'
  cases hw'
  have hfirst : some (Datum.int 32 65536) = some d := hd
  have hsecond : some (Datum.int 32 0) = some d := hd'
  exact absurd (hfirst.trans hsecond.symm) (by decide)

end Dragongo
