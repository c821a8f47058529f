import Mathlib.Algebra.Order.Ring.Nat
import Mathlib.Data.List.Basic
import Mathlib.Algebra.BigOperators.Group.List.Basic
import Mathlib.Tactic.Common

/-!
# The AMD64 argument-passing rule

Six integer and eight SSE registers serve the arguments from left to right.  An
argument of one eightbyte never needs memory of its own accord; one of two
eightbytes goes to registers as a whole or not at all, and in the second case takes
none.
-/

namespace AMD64

/-- What the rule looks at: how many eightbytes of each class the argument has. -/
inductive ArgClass
  | empty
  | large
  | eightbytes (int sse : ℕ)
deriving DecidableEq, Repr

inductive Passing
  | ignored
  | memory
  | registers
deriving DecidableEq, Repr

/-- Where an argument goes when `leftInt` and `leftSSE` registers are left. -/
def ArgClass.place (c : ArgClass) (leftInt leftSSE : ℕ) : Passing :=
  match c with
  | empty => .ignored
  | large => .memory
  | eightbytes int sse =>
    if int + sse = 1 ∨ int ≤ leftInt ∧ sse ≤ leftSSE then .registers else .memory

/-- The integer registers an argument asks for, once it is placed. -/
def intDemand : ArgClass × Passing → ℕ
  | (.eightbytes int _, .registers) => int
  | _ => 0

def sseDemand : ArgClass × Passing → ℕ
  | (.eightbytes _ sse, .registers) => sse
  | _ => 0

/-- The integer registers left after `prior` and `hidden` pointers. -/
def leftInt (hidden : ℕ) (prior : List (ArgClass × Passing)) : ℕ :=
  6 - (hidden + (prior.map intDemand).sum)

def leftSSE (prior : List (ArgClass × Passing)) : ℕ := 8 - (prior.map sseDemand).sum

/-- Every argument is placed by the rule, with the registers the earlier ones left. -/
def Follows (hidden : ℕ) (args : List (ArgClass × Passing)) : Prop :=
  ∀ (k : ℕ) (c : ArgClass) (p : Passing), args[k]? = some (c, p) →
    p = c.place (leftInt hidden (args.take k)) (leftSSE (args.take k))

variable {hidden : ℕ} {args : List (ArgClass × Passing)}

theorem follows_nil : Follows hidden [] := by simp [Follows]

theorem Follows.snoc (h : Follows hidden args) {c : ArgClass} {p : Passing}
    (hp : p = c.place (leftInt hidden args) (leftSSE args)) :
    Follows hidden (args ++ [(c, p)]) := by
  intro k c' p' hk
  by_cases hlt : k < args.length
  · rw [List.getElem?_append_left hlt] at hk
    rw [List.take_append_of_le_length hlt.le]
    exact h k c' p' hk
  · have hk' : k = args.length := by
      have := (List.getElem?_eq_some_iff.mp hk).1
      simp only [List.length_append, List.length_singleton] at this
      omega
    subst hk'
    rw [List.getElem?_append_right (Nat.le_refl _), Nat.sub_self] at hk
    obtain ⟨rfl, rfl⟩ := Prod.mk.inj (Option.some.inj hk)
    rwa [List.take_left]

theorem leftInt_snoc (x : ArgClass × Passing) :
    leftInt hidden (args ++ [x]) = leftInt hidden args - intDemand x := by
  simp only [leftInt, List.map_append, List.sum_append, List.map_singleton, List.sum_singleton]
  omega

theorem leftSSE_snoc (x : ArgClass × Passing) :
    leftSSE (args ++ [x]) = leftSSE args - sseDemand x := by
  simp only [leftSSE, List.map_append, List.sum_append, List.map_singleton, List.sum_singleton]
  omega

end AMD64
