import Dragongo.Arithmetic

/-!
# Trees of operators

An expression is made from its operands on, and its instructions come after theirs.  Running
them computes what the expression means in Go.
-/

namespace Dragongo
open LType CastOp Predicate CompareOp ArithmeticOp Opcode

/-- An expression of operators.  An operand comes with its value in Go. -/
inductive GoExpr : Kind → Type
  | operand {k : Kind} (e : Bexpression) (a : k.Carrier) : GoExpr k
  | binary {k : Kind} (op : ArithmeticOp) (left right : GoExpr k) : GoExpr k
  | minus {u : Bool} {n : ℕ} (e : GoExpr (.integer u n)) : GoExpr (.integer u n)
  | complement {u : Bool} {n : ℕ} (e : GoExpr (.integer u n)) : GoExpr (.integer u n)
  | compare {u : Bool} {n : ℕ} (op : CompareOp) (left right : GoExpr (.integer u n)) :
    GoExpr .boolean
  | not (e : GoExpr .boolean) : GoExpr .boolean

namespace GoExpr

/-- The calls of the backend, from instruction number `n` on: the expression, what is made for
it, and the next number. -/
@[grind =]
def build (c : CircularTypes) : {k : Kind} → GoExpr k → ℕ → Option (Bexpression × List Emitted × ℕ)
  | _, operand e _, n => some (e, [], n)
  | _, binary op left right, n => do
    let (l, code, n) ← build c left n
    let (r, code', n) ← build c right n
    let (e, i) ← binaryExpression c op l r n
    some (e, code ++ code' ++ [i], n + 1)
  | _, minus e, n => do
    let (e, code, n) ← build c e n
    let (e, i) ← minusExpression c e n
    some (e, code ++ [i], n + 1)
  | _, complement e, n => do
    let (e, code, n) ← build c e n
    let (e, i) ← complementExpression c e n
    some (e, code ++ [i], n + 1)
  | _, compare op left right, n => do
    let (l, code, n) ← build c left n
    let (r, code', n) ← build c right n
    let e ← compareExpression c op l r
    some (e, code ++ code', n)
  | _, not e, n => do
    let (e, code, n) ← build c e n
    let e ← notExpression c e
    some (e, code, n)

/-! ## What an expression means -/

/-- The value in Go, unless a division by zero panics. -/
@[grind =]
def goValue : {k : Kind} → GoExpr k → Option k.Carrier
  | _, operand _ a => some a
  | k, binary op left right => do op.go k (← goValue left) (← goValue right)
  | _, minus (u := u) (n := n) e => (goValue e).map fun a => wrap u n (-a)
  | _, complement (u := u) (n := n) e => (goValue e).map fun a => wrap u n (-a - 1)
  | _, compare op left right => do some (op.holds (← goValue left) (← goValue right))
  | _, not e => (goValue e).map fun a => !a

/-- Some division has a quotient that does not fit. -/
@[grind =]
def overflows : {k : Kind} → GoExpr k → Bool
  | _, operand .. => false
  | k, binary op left right => overflows left || overflows right ||
    (goValue left).any fun a => (goValue right).any fun b => op.overflows k a b
  | _, minus e => overflows e
  | _, complement e => overflows e
  | _, compare _ left right => overflows left || overflows right
  | _, not e => overflows e

/-- All operators are handled, and Go has them on the types of their operands. -/
def isHandled : {k : Kind} → GoExpr k → Bool
  | _, operand .. => true
  | k, binary op left right => op.appliesTo k && isHandled left && isHandled right
  | _, minus e => isHandled e
  | _, complement e => isHandled e
  | _, compare _ left right => isHandled left && isHandled right
  | _, not e => isHandled e

end GoExpr

/-! ## Running the instructions -/

namespace Value

/-- The number of an instruction or a constant. -/
def resultId : Value → Option ℕ
  | instruction id _ | constant id _ => some id
  | _ => none

/-- The instructions and constants that a value is computed from. -/
def results : Value → List ℕ
  | instruction id _ | constant id _ => [id]
  | load a => a.results
  | bitcast v _ | zext v _ | cast _ v _ => v.results
  | cmp _ l r | xor l r => l.results ++ r.results
  | _ => []

end Value

namespace Env

/-- An instruction has given its result. -/
def define (env : Env) (id : ℕ) (d : Datum) : Env :=
  { env with known := fun w => if w.resultId = some id then some d else env.known w }

def runEmitted (env : Env) (i : Emitted) : Option Env := do
  let d ← i.opcode.run (← env.eval i.left) (← env.eval i.right)
  some (env.define i.id d)

def runAll (env : Env) : List Emitted → Option Env
  | [] => some env
  | i :: code => do runAll (← env.runEmitted i) code

theorem known_define_of_ne {env : Env} {i : ℕ} {d : Datum} {v : Value}
    (h : v.resultId ≠ some i) : (env.define i d).known v = env.known v := if_neg h

/-- A value that is computed from other instructions stays as it is. -/
theorem eval_define {env : Env} {i : ℕ} {d : Datum} : ∀ {v : Value}, i ∉ v.results →
    (env.define i d).eval v = env.eval v
  | .instruction id t, h | .constant id t, h =>
    known_define_of_ne fun heq => h (List.mem_singleton.mpr (Option.some.inj heq).symm)
  | .load a, h => by
    have hload : (env.define i d).known (.load a) = env.known (.load a) :=
      known_define_of_ne (Option.some_ne_none i).symm
    have ha : (env.define i d).eval a = env.eval a := eval_define h
    simp only [eval, hload, ha]
    rfl
  | .bitcast v t, h | .zext v t, h | .cast _ v t, h => by
    have hv : (env.define i d).eval v = env.eval v := eval_define h
    simp only [eval, hv]
  | .cmp _ l r, h | .xor l r, h => by
    have hl : (env.define i d).eval l = env.eval l :=
      eval_define fun hmem => h (List.mem_append_left _ hmem)
    have hr : (env.define i d).eval r = env.eval r :=
      eval_define fun hmem => h (List.mem_append_right _ hmem)
    simp only [eval, hl, hr]
  | .null _, _ | .constantInt .., _ => rfl
  | .alloca .., _ | .argument .., _ | .globalVariable .., _ | .constantVariable _, _
  | .temporary .., _ | .undef _, _ | .constantComposite .., _ | .field .., _ | .element .., _ =>
    known_define_of_ne (Option.some_ne_none i).symm

theorem runAll_append (env : Env) (code code' : List Emitted) :
    env.runAll (code ++ code') = (env.runAll code).bind fun env => env.runAll code' := by
  induction code generalizing env with
  | nil => rfl
  | cons i code ih =>
    rw [List.cons_append, runAll, runAll, Option.bind_eq_bind, Option.bind_assoc]
    exact congrArg _ (funext ih)

/-- Values that are computed from instructions before number `n` are the same. -/
def AgreesBelow (n : ℕ) (env env' : Env) : Prop :=
  ∀ v : Value, (∀ i ∈ v.results, i < n) → env'.eval v = env.eval v

variable {n m : ℕ} {env env₁ env₂ : Env}

theorem AgreesBelow.refl (n : ℕ) (env : Env) : AgreesBelow n env env := fun _ _ => rfl

theorem AgreesBelow.trans (h : AgreesBelow n env env₁) (h' : AgreesBelow m env₁ env₂)
    (hle : n ≤ m) : AgreesBelow n env env₂ := by
  intro v hv
  rw [h' v fun i hi => Nat.lt_of_lt_of_le (hv i hi) hle, h v hv]

theorem agreesBelow_define {d : Datum} : AgreesBelow n env (env.define n d) :=
  fun _ hv => eval_define fun hmem => Nat.lt_irrefl n (hv n hmem)

end Env

/-! ## One node -/

/-- The datum is this value. -/
def Kind.IsValue (k : Kind) (d : Datum) (a : k.Carrier) : Prop :=
  ∃ x : BitVec k.bits, d = .int k.bits x ∧ k.Represents x a

/-- An expression of the type whose value is computed from instructions before number `n`. -/
structure Resolves (c : CircularTypes) (k : Kind) (n : ℕ) (e : Bexpression) (v : Value) : Prop where
  resolve : resolveVarExpr c e = some (.expr k.btype v {})
  type : v.type = int k.bits
  fresh : ∀ i ∈ v.results, i < n

/-- An operand with its value. -/
def IsOperand (c : CircularTypes) (env : Env) (k : Kind) (n : ℕ) (e : Bexpression)
    (a : k.Carrier) : Prop :=
  ∃ v d, Resolves c k n e v ∧ env.eval v = some d ∧ k.IsValue d a

/-- From instruction number `n` on the code computes this value, or it has no result. -/
def RunsTo (k : Kind) (env : Env) (n : ℕ) (code : List Emitted) (v : Value) :
    Option k.Carrier → Prop
  | none => env.runAll code = none
  | some a => ∃ env' d, env.runAll code = some env' ∧ env.AgreesBelow n env' ∧
    env'.eval v = some d ∧ k.IsValue d a

section Nodes

variable {c : CircularTypes} {k : Kind} {n m : ℕ} {env : Env} {e e' : Bexpression} {v w : Value}

theorem Kind.isUnsigned_btype (k : Kind) : k.btype.isUnsigned = some k.isUnsigned := by
  cases k <;> rfl

theorem resolves_expr (htype : v.type = int k.bits) (hfresh : ∀ i ∈ v.results, i < n) :
    Resolves c k n (.expr k.btype v {}) v := ⟨rfl, htype, hfresh⟩

theorem Resolves.mono (h : Resolves c k n e v) (hle : n ≤ m) : Resolves c k m e v :=
  ⟨h.resolve, h.type, fun i hi => Nat.lt_of_lt_of_le (h.fresh i hi) hle⟩

theorem emit_resolves {o : Opcode} (htype : v.type = int k.bits) :
    Resolves c k (n + 1) (.expr k.btype (emit n o v w).value {}) (emit n o v w).value := by
  refine resolves_expr ?_ ?_
  · unfold Emitted.value
    split_ifs <;> exact htype
  · unfold Emitted.value
    split_ifs <;>
    · intro i hi
      rw [List.mem_singleton.mp hi]
      exact Nat.lt_succ_self n

theorem binaryExpression_eq {op : ArithmeticOp} {o : Opcode} (he : Resolves c k n e v)
    (he' : Resolves c k n e' w) (hop : op.opcode false k.isUnsigned = some o) :
    binaryExpression c op e e' n =
      some (.expr k.btype (emit n o v w).value {}, emit n o v w) := by
  have hint : w.type.isIntegerTy := he'.type ▸ rfl
  have hfloat : w.type.isFloatingPoint = false := he'.type ▸ rfl
  have hu : comparedUnsigned k.btype.isUnsigned k.btype.isUnsigned = some k.isUnsigned := by
    rw [k.isUnsigned_btype]
    exact if_pos rfl
  simp [binaryExpression, he.resolve, he'.resolve, Bexpression.value, Bexpression.btype,
    convertForBinary_of_eq (he.type.trans he'.type.symm), he.type.trans he'.type.symm, hu, hint,
    hfloat, hop, guard]

theorem minusExpression_eq {u : Bool} {bits : ℕ} (he : Resolves c (.integer u bits) n e v) :
    minusExpression c e n = some (.expr (.integer u bits) (emit n Sub (.null (int bits)) v).value {},
      emit n Sub (.null (int bits)) v) := by
  have hzero : Resolves c (.integer u bits) n (.expr (.integer u bits) (.null (int bits)) {})
      (.null (int bits)) := resolves_expr rfl fun _ hi => absurd hi List.not_mem_nil
  have hop : OPERATOR_MINUS.opcode false u = some Opcode.Sub := rfl
  have hsub := binaryExpression_eq hzero (resolves_expr he.type he.fresh) hop
  rw [minusExpression, he.resolve]
  exact hsub

theorem complementExpression_eq {u : Bool} {bits : ℕ} (he : Resolves c (.integer u bits) n e v) :
    complementExpression c e n =
      some (.expr (.integer u bits) (emit n Xor v (.constantInt bits (-1))).value {},
        emit n Xor v (.constantInt bits (-1))) := by
  rw [complementExpression, he.resolve]
  rfl

theorem compareExpression_resolves {u : Bool} {bits : ℕ} (op : CompareOp)
    (he : Resolves c (.integer u bits) n e v) (he' : Resolves c (.integer u bits) n e' w) :
    ∃ r b, compareExpression c op e e' = some r ∧ Resolves c .boolean n r b ∧
      ∀ env : Env, ∀ {x y : BitVec bits}, env.eval v = some (.int bits x) →
        env.eval w = some (.int bits y) → env.eval b =
          some (.int 8 (if op.holds (integerValue u x) (integerValue u y) then 1 else 0)) := by
  have htype : v.type = w.type := he.type.trans he'.type.symm
  have hu : comparedUnsigned (some u) (some u) = some u := if_pos rfl
  refine ⟨_, _, compareExpression_eq he.resolve he'.resolve (convertForBinary_of_eq htype) htype
    hu op, resolves_expr rfl ?_, ?_⟩
  · intro i hi
    rcases List.mem_append.mp hi with hi | hi
    · exact he.fresh i hi
    · exact he'.fresh i hi
  · intro env x y hx hy
    have hfloat : v.type.isFloatingPoint = false := he.type ▸ rfl
    apply eval_widened
    simp [Env.eval, hx, hy, Predicate.apply, icmp_compareOpToPred hfloat]

theorem notExpression_resolves (he : Resolves c .boolean n e v) :
    ∃ r b, notExpression c e = some r ∧ Resolves c .boolean n r b ∧
      ∀ env : Env, ∀ a : Bool, env.eval v = some (.int 8 (if a then 1 else 0)) →
        env.eval b = some (.int 8 (if !a then 1 else 0)) := by
  let flipped : Value := .xor (.cmp ICMP_NE v (.null (int 8))) (.constantInt 1 1)
  have hnot : notExpression c e = some (.expr boolType (.cast ZExt flipped (int 8)) {}) := by
    rw [notExpression, he.resolve]
    exact convertExpression_bool flipped rfl
  refine ⟨_, _, hnot, resolves_expr rfl ?_, ?_⟩
  · intro i hi
    exact he.fresh i (by simpa [Value.results, flipped] using hi)
  · intro env a ha
    apply eval_widened
    simp only [flipped, Env.eval, ha, Option.bind_some]
    cases a <;> rfl

theorem runAll_emit {o : Opcode} {bits : ℕ} {x y : BitVec bits}
    (hx : env.eval v = some (.int bits x)) (hy : env.eval w = some (.int bits y)) :
    env.runAll [emit n o v w] = (o.apply x y).map fun z => env.define n (.int bits z) := by
  have hrun : env.runEmitted (emit n o v w) =
      ((o.apply x y).map (.int bits)).bind fun d => some (env.define n d) := by
    simp [Env.runEmitted, emit, hx, hy, Opcode.run]
  rw [Env.runAll, hrun]
  cases o.apply x y <;> rfl

/-- The instruction of a node, after its operands have been computed. -/
theorem runsTo_emit {o : Opcode} {x y : BitVec k.bits} {r : Option k.Carrier}
    (hx : env.eval v = some (.int k.bits x)) (hy : env.eval w = some (.int k.bits y))
    (hr : Option.Rel k.Represents (o.apply x y) r) :
    RunsTo k env n [emit n o v w] (emit n o v w).value r := by
  have hrun := runAll_emit (n := n) (o := o) hx hy
  generalize o.apply x y = z at hrun hr
  cases hr with
  | none => exact hrun
  | @some z a hz =>
    refine ⟨_, .int k.bits z, hrun, Env.agreesBelow_define, ?_, z, rfl, hz⟩
    unfold Emitted.value
    split_ifs <;> exact if_pos rfl

/-- Code after other code. -/
theorem RunsTo.bind {k' : Kind} {code code' : List Emitted} {r : Option k.Carrier}
    {f : k.Carrier → Option k'.Carrier} (h : RunsTo k env n code v r) (hle : n ≤ m)
    (h' : ∀ a env' d, env.AgreesBelow n env' → env'.eval v = some d → k.IsValue d a →
      RunsTo k' env' m code' w (f a)) : RunsTo k' env n (code ++ code') w (r.bind f) := by
  cases r with
  | none =>
    change env.runAll (code ++ code') = none
    rw [Env.runAll_append, show env.runAll code = none from h]
    rfl
  | some a =>
    obtain ⟨env', d, hrun, hagree, hv, hd⟩ := h
    have hnext := h' a env' d hagree hv hd
    rw [Option.bind_some]
    cases hr : f a with
    | none =>
      rw [hr] at hnext
      change env.runAll (code ++ code') = none
      rw [Env.runAll_append, hrun]
      exact hnext
    | some b =>
      rw [hr] at hnext
      obtain ⟨env'', d', hrun', hagree', hw, hd'⟩ := hnext
      refine ⟨env'', d', ?_, hagree.trans hagree' hle, hw, hd'⟩
      rw [Env.runAll_append, hrun]
      exact hrun'

end Nodes

/-! ## Trees -/

namespace GoExpr

/-- The value in Go, if no quotient fails to fit. -/
def checked {k : Kind} (t : GoExpr k) : Option k.Carrier := if t.overflows then none else t.goValue

theorem checked_binary {k : Kind} (op : ArithmeticOp) (left right : GoExpr k) :
    (binary op left right).checked = left.checked.bind fun a => right.checked.bind fun b =>
      if op.overflows k a b then none else op.go k a b := by
  unfold checked
  rw [overflows, goValue]
  cases left.overflows <;> cases right.overflows <;> cases left.goValue <;>
    cases right.goValue <;> simp

theorem checked_compare {u : Bool} {n : ℕ} (op : CompareOp)
    (left right : GoExpr (.integer u n)) : (compare op left right).checked =
      left.checked.bind fun a => right.checked.bind fun b => some (op.holds a b) := by
  unfold checked
  rw [overflows, goValue]
  cases left.overflows <;> cases right.overflows <;> cases left.goValue <;>
    cases right.goValue <;> simp

theorem checked_minus {u : Bool} {n : ℕ} (e : GoExpr (.integer u n)) :
    e.minus.checked = e.checked.bind fun a => some (wrap u n (-a)) := by
  unfold checked
  rw [overflows, goValue]
  cases e.overflows <;> cases e.goValue <;> rfl

theorem checked_complement {u : Bool} {n : ℕ} (e : GoExpr (.integer u n)) :
    e.complement.checked = e.checked.bind fun a => some (wrap u n (-a - 1)) := by
  unfold checked
  rw [overflows, goValue]
  cases e.overflows <;> cases e.goValue <;> rfl

theorem checked_not (e : GoExpr .boolean) :
    e.not.checked = e.checked.bind fun a => some !a := by
  unfold checked
  rw [overflows, goValue]
  cases e.overflows <;> cases e.goValue <;> rfl

/-- The operands have their values before instruction number `n`. -/
def Ready (c : CircularTypes) (env : Env) (n : ℕ) : {k : Kind} → GoExpr k → Prop
  | k, operand e a => IsOperand c env k n e a
  | _, binary _ left right => left.Ready c env n ∧ right.Ready c env n
  | _, minus e => e.Ready c env n
  | _, complement e => e.Ready c env n
  | _, compare _ left right => left.Ready c env n ∧ right.Ready c env n
  | _, not e => e.Ready c env n

section Build

variable {c : CircularTypes} {n m : ℕ} {env env' : Env}

/-- Instructions that come in between leave the operands alone. -/
theorem Ready.later {k : Kind} {t : GoExpr k} (h : t.Ready c env n)
    (hagree : env.AgreesBelow n env') (hle : n ≤ m) : t.Ready c env' m := by
  induction t with
  | operand e a =>
    obtain ⟨v, d, hv, hd, hvalue⟩ := h
    exact ⟨v, d, hv.mono hle, (hagree v hv.fresh).trans hd, hvalue⟩
  | binary op left right ihl ihr => exact ⟨ihl h.1, ihr h.2⟩
  | compare op left right ihl ihr => exact ⟨ihl h.1, ihr h.2⟩
  | minus e ih => exact ih h
  | complement e ih => exact ih h
  | not e ih => exact ih h

/-- What the calls of the backend make of a tree: code that computes its value. -/
def Built (c : CircularTypes) {k : Kind} (t : GoExpr k) (n : ℕ) : Prop :=
  ∃ e code m v, t.build c n = some (e, code, m) ∧ n ≤ m ∧ Resolves c k m e v ∧
    ∀ env, t.Ready c env n → RunsTo k env n code v t.checked

theorem operand_built {k : Kind} {e : Bexpression} {a : k.Carrier}
    (h : IsOperand c env k n e a) : Built c (operand e a) n := by
  obtain ⟨v, -, hv, -, -⟩ := h
  refine ⟨e, [], n, v, rfl, Nat.le_refl n, hv, fun env hready => ?_⟩
  obtain ⟨v', d, hv', hd, hvalue⟩ := hready
  cases hv.resolve.symm.trans hv'.resolve
  exact ⟨env, d, rfl, .refl n env, hd, hvalue⟩

/-- A node with two operands, where the right one is built after the left one. -/
theorem two_built {k j : Kind} {left right : GoExpr k}
    (hl : Built c left n) (hr : ∀ m, n ≤ m → Built c right m) :
    ∃ e e' code code' m₁ m₂ v w, left.build c n = some (e, code, m₁) ∧
      right.build c m₁ = some (e', code', m₂) ∧ n ≤ m₂ ∧ Resolves c k m₂ e v ∧
        Resolves c k m₂ e' w ∧ ∀ (f : k.Carrier → k.Carrier → Option j.Carrier) (z : Value)
          (own : List Emitted) (env : Env), left.Ready c env n → right.Ready c env n →
            (∀ a b env' (x y : BitVec k.bits), env'.eval v = some (.int k.bits x) →
              env'.eval w = some (.int k.bits y) → k.Represents x a → k.Represents y b →
                RunsTo j env' m₂ own z (f a b)) →
            RunsTo j env n (code ++ code' ++ own) z
              (left.checked.bind fun a => right.checked.bind fun b => f a b) := by
  obtain ⟨e, code, m₁, v, hbuild, hle, hv, hruns⟩ := hl
  obtain ⟨e', code', m₂, w, hbuild', hle', hw, hruns'⟩ := hr m₁ hle
  refine ⟨e, e', code, code', m₁, m₂, v, w, hbuild, hbuild', Nat.le_trans hle hle', hv.mono hle',
    hw, fun f z own env hready hready' hnode => ?_⟩
  rw [List.append_assoc]
  refine (hruns env hready).bind hle ?_
  rintro a env₁ _ hagree hx ⟨x, rfl, hxa⟩
  refine (hruns' env₁ (hready'.later hagree hle)).bind hle' ?_
  rintro b env₂ _ hagree' hy ⟨y, rfl, hyb⟩
  exact hnode a b env₂ x y ((hagree' v hv.fresh).trans hx) hy hxa hyb

/-- A node with one operand. -/
theorem one_built {k j : Kind} {t : GoExpr k} (h : Built c t n) :
    ∃ e code m v, t.build c n = some (e, code, m) ∧ n ≤ m ∧ Resolves c k m e v ∧
      ∀ (f : k.Carrier → Option j.Carrier) (z : Value) (own : List Emitted) (env : Env),
        t.Ready c env n → (∀ a env' (x : BitVec k.bits), env'.eval v = some (.int k.bits x) →
          k.Represents x a → RunsTo j env' m own z (f a)) →
            RunsTo j env n (code ++ own) z (t.checked.bind f) := by
  obtain ⟨e, code, m, v, hbuild, hle, hv, hruns⟩ := h
  refine ⟨e, code, m, v, hbuild, hle, hv, fun f z own env hready hnode => ?_⟩
  refine (hruns env hready).bind hle ?_
  rintro a env₁ _ hagree hx ⟨x, rfl, hxa⟩
  exact hnode a env₁ x hx hxa

theorem binary_built {k : Kind} {op : ArithmeticOp} {left right : GoExpr k}
    (hop : op.appliesTo k) (hl : Built c left n) (hr : ∀ m, n ≤ m → Built c right m) :
    Built c (binary op left right) n := by
  obtain ⟨o, hopcode, hcorrect⟩ := opcode_correct hop
  obtain ⟨e, e', code, code', m₁, m₂, v, w, hbuild, hbuild', hle, hv, hw, hruns⟩ :=
    two_built (j := k) hl hr
  refine ⟨_, code ++ code' ++ [emit m₂ o v w], m₂ + 1, _, ?_, Nat.le_succ_of_le hle,
    emit_resolves (o := o) (w := w) hv.type, fun env hready => ?_⟩
  · simp only [build, hbuild, hbuild', binaryExpression_eq hv hw hopcode, Option.bind_eq_bind,
      Option.bind_some]
  · rw [checked_binary]
    exact hruns _ _ _ env hready.1 hready.2 fun a b env' x y hx hy hxa hyb =>
      runsTo_emit hx hy (hcorrect hxa hyb)

theorem minus_built {u : Bool} {bits : ℕ} {t : GoExpr (.integer u bits)} (h : Built c t n) :
    Built c t.minus n := by
  obtain ⟨e, code, m, v, hbuild, hle, hv, hruns⟩ := one_built (j := .integer u bits) h
  refine ⟨_, code ++ [emit m Sub (.null (int bits)) v], m + 1, _, ?_, Nat.le_succ_of_le hle,
    emit_resolves (k := .integer u bits) (v := .null (int bits)) (o := Sub) (w := v) rfl,
    fun env hready => ?_⟩
  · simp only [build, hbuild, minusExpression_eq hv, Option.bind_eq_bind, Option.bind_some]
    rfl
  · rw [checked_minus]
    refine hruns _ _ _ env hready fun a env' (x : BitVec bits) hx hxa => ?_
    have hzero : env'.eval (.null (int bits)) = some (.int bits 0) := rfl
    have hvalue : integerValue u (0 - x) = wrap u bits (-a) := by
      rw [integerValue_sub, (integerValue_eq_zero u 0).mpr rfl, zero_sub]
      exact congrArg (fun b => wrap u bits (-b)) hxa
    exact runsTo_emit (k := .integer u bits) hzero hx (.some hvalue)

theorem complement_built {u : Bool} {bits : ℕ} {t : GoExpr (.integer u bits)} (h : Built c t n) :
    Built c t.complement n := by
  obtain ⟨e, code, m, v, hbuild, hle, hv, hruns⟩ := one_built (j := .integer u bits) h
  refine ⟨_, code ++ [emit m Xor v (.constantInt bits (-1))], m + 1, _, ?_,
    Nat.le_succ_of_le hle, emit_resolves (o := Xor) (w := .constantInt bits (-1)) hv.type,
    fun env hready => ?_⟩
  · simp only [build, hbuild, complementExpression_eq hv, Option.bind_eq_bind, Option.bind_some]
    rfl
  · rw [checked_complement]
    refine hruns _ _ _ env hready fun a env' (x : BitVec bits) hx hxa => ?_
    have hones : env'.eval (.constantInt bits (-1)) = some (.int bits (.ofInt bits (-1))) := rfl
    have hvalue : integerValue u (x ^^^ BitVec.ofInt bits (-1)) = wrap u bits (-a - 1) := by
      have hnot : x ^^^ BitVec.ofInt bits (-1) = BitVec.ofInt bits (-a - 1) := by
        have hxa' : x = BitVec.ofInt bits a := by
          rw [← (show integerValue u x = a from hxa), ofInt_integerValue]
        have hallOnes : BitVec.ofInt bits (-1) = BitVec.allOnes bits := by
          rw [BitVec.ofInt_neg, ← BitVec.neg_one_eq_allOnes]
          rfl
        rw [hallOnes, BitVec.xor_allOnes, BitVec.not_eq_neg_add, Int.sub_eq_add_neg,
          BitVec.ofInt_add, BitVec.ofInt_neg, ← hxa', BitVec.ofInt_neg, BitVec.sub_eq_add_neg]
        rfl
      rw [hnot, integerValue_ofInt]
    exact runsTo_emit (k := .integer u bits) hx hones (.some hvalue)

theorem compare_built {u : Bool} {bits : ℕ} {op : CompareOp} {left right : GoExpr (.integer u bits)}
    (hl : Built c left n) (hr : ∀ m, n ≤ m → Built c right m) :
    Built c (compare op left right) n := by
  obtain ⟨e, e', code, code', m₁, m₂, v, w, hbuild, hbuild', hle, hv, hw, hruns⟩ :=
    two_built (j := .boolean) hl hr
  obtain ⟨r, b, hcompare, hb, heval⟩ := compareExpression_resolves op hv hw
  refine ⟨r, code ++ code' ++ [], m₂, b, ?_, hle, hb, fun env hready => ?_⟩
  · simp only [build, hbuild, hbuild', hcompare, Option.bind_eq_bind, Option.bind_some,
      List.append_nil]
  · rw [checked_compare]
    refine hruns _ _ _ env hready.1 hready.2 ?_
    rintro _ _ env' (x : BitVec bits) (y : BitVec bits) hx hy rfl rfl
    exact ⟨env', _, rfl, .refl m₂ env', heval env' hx hy, _, rfl, rfl⟩

theorem not_built {t : GoExpr .boolean} (h : Built c t n) : Built c t.not n := by
  obtain ⟨e, code, m, v, hbuild, hle, hv, hruns⟩ := one_built (j := .boolean) h
  obtain ⟨r, b, hnot, hb, heval⟩ := notExpression_resolves hv
  refine ⟨r, code ++ [], m, b, ?_, hle, hb, fun env hready => ?_⟩
  · simp only [build, hbuild, hnot, Option.bind_eq_bind, Option.bind_some, List.append_nil]
  · rw [checked_not]
    refine hruns _ _ _ env hready ?_
    rintro a env' x hx rfl
    exact ⟨env', _, rfl, .refl m env', heval env' a hx, _, rfl, rfl⟩

theorem built {k : Kind} {t : GoExpr k} (hhandled : t.isHandled) (h : t.Ready c env n) :
    Built c t n := by
  induction t generalizing n with
  | operand e a => exact operand_built h
  | binary op left right ihl ihr =>
    simp only [isHandled, Bool.and_eq_true] at hhandled
    exact binary_built hhandled.1.1 (ihl hhandled.1.2 h.1) fun m hm =>
      ihr hhandled.2 (Ready.later h.2 (.refl n env) hm)
  | minus e ih => exact minus_built (ih hhandled h)
  | complement e ih => exact complement_built (ih hhandled h)
  | compare op left right ihl ihr =>
    simp only [isHandled, Bool.and_eq_true] at hhandled
    exact compare_built (ihl hhandled.1 h.1) fun m hm =>
      ihr hhandled.2 (Ready.later h.2 (.refl n env) hm)
  | not e ih => exact not_built (ih hhandled h)

/-- The value that the code computes. -/
def computes (c : CircularTypes) (env : Env) (n : ℕ) {k : Kind} (t : GoExpr k) : Option Datum := do
  let (e, code, _) ← t.build c n
  let env ← env.runAll code
  let e ← resolveVarExpr c e
  env.eval (← e.value)

/-- The code of a tree is made, and computes what the tree means in Go; it has no result exactly
where a division by zero panics, and where a quotient does not fit its type. -/
theorem computes_goValue {k : Kind} {t : GoExpr k} (hhandled : t.isHandled)
    (h : t.Ready c env n) : (t.build c n).isSome ∧
      Option.Rel k.IsValue (t.computes c env n) (if t.overflows then none else t.goValue) := by
  obtain ⟨e, code, m, v, hbuild, -, hv, hruns⟩ := built hhandled h
  have hrun := hruns env h
  have hcomputes : t.computes c env n = (env.runAll code).bind fun env => env.eval v := by
    simp only [computes, hbuild, hv.resolve, Option.bind_eq_bind, Option.bind_some,
      Bexpression.value]
  refine ⟨by rw [hbuild]; rfl, ?_⟩
  rw [hcomputes]
  change Option.Rel k.IsValue _ t.checked
  cases hchecked : t.checked with
  | none =>
    rw [hchecked] at hrun
    rw [show env.runAll code = none from hrun]
    exact .none
  | some a =>
    rw [hchecked] at hrun
    obtain ⟨env', d, hall, -, hd, hvalue⟩ := hrun
    rw [hall, Option.bind_some, hd]
    exact .some hvalue

end Build

/-- Two `int32` arguments. -/
def intArguments (x y : ℤ) : Env := ⟨fun _ => 0, fun
  | .argument 0 _ => some (.int 32 (.ofInt 32 x))
  | .argument 1 _ => some (.int 32 (.ofInt 32 y))
  | _ => none⟩

/-- `!(7 / -2 < -7)`. -/
theorem computes_goValue_quotient :
    let seven : GoExpr (.integer false 32) :=
      .operand (.expr (.integer false 32) (.argument 0 (int 32)) {}) (7 : ℤ)
    let two : GoExpr (.integer false 32) :=
      .operand (.expr (.integer false 32) (.argument 1 (int 32)) {}) (-2 : ℤ)
    Option.Rel Kind.boolean.IsValue ((not (.compare OPERATOR_LT (.binary OPERATOR_DIV seven two)
      seven.minus)).computes noCircularPointers.toCircularTypes (intArguments 7 (-2)) 0)
        (some true) := by
  intro seven two
  have hseven : seven.Ready noCircularPointers.toCircularTypes (intArguments 7 (-2)) 0 :=
    ⟨_, _, ⟨rfl, rfl, fun _ hi => absurd hi List.not_mem_nil⟩, rfl, _, rfl, rfl⟩
  have htwo : two.Ready noCircularPointers.toCircularTypes (intArguments 7 (-2)) 0 :=
    ⟨_, _, ⟨rfl, rfl, fun _ hi => absurd hi List.not_mem_nil⟩, rfl, _, rfl, rfl⟩
  exact (computes_goValue (t := not (.compare OPERATOR_LT (.binary OPERATOR_DIV seven two)
    seven.minus)) rfl ⟨⟨hseven, htwo⟩, hseven⟩).2

end GoExpr

end Dragongo
