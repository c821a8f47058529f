import Mathlib.Data.List.Basic

/-!
# Binary search for the first element past a predicate

`lowerBound p xs` is the half-open bisection of `std::lower_bound`: `p x` says
that `x` lies strictly before the sought position.  Its contract needs the list
to be partitioned by `p`; without that the returned position is unspecified.
-/

namespace LowerBound

variable {α : Type*}

/-- One run of the bisection over the window of `len` elements at `first`. -/
def search (p : α → Bool) (xs : List α) : ℕ → ℕ → ℕ → ℕ
  | 0, first, _ => first
  | fuel + 1, first, len =>
    if len = 0 then first
    else match xs[first + len / 2]? with
      | some x =>
        if p x then search p xs fuel (first + len / 2 + 1) (len - len / 2 - 1)
        else search p xs fuel first (len / 2)
      | none => first

def lowerBound (p : α → Bool) (xs : List α) : ℕ :=
  search p xs (xs.length + 1) 0 xs.length

/-- Every element before the partition point satisfies `p`, none after it does. -/
def Partitioned (p : α → Bool) (xs : List α) : Prop := xs.Pairwise fun a b => p b → p a

theorem Partitioned.of_le {p : α → Bool} {xs : List α} (h : Partitioned p xs)
    {i j : ℕ} {a b : α} (hij : i ≤ j) (ha : xs[i]? = some a) (hb : xs[j]? = some b)
    (hp : p b) : p a := by
  obtain ⟨hi, rfl⟩ := List.getElem?_eq_some_iff.mp ha
  obtain ⟨hj, rfl⟩ := List.getElem?_eq_some_iff.mp hb
  rcases Nat.lt_or_eq_of_le hij with hlt | rfl
  · exact List.pairwise_iff_getElem.mp h i j hi hj hlt hp
  · exact hp

/-- `n` splits `xs` into the elements satisfying `p` and the ones that do not. -/
def IsSplit (p : α → Bool) (xs : List α) (n : ℕ) : Prop :=
  n ≤ xs.length ∧ (∀ i x, i < n → xs[i]? = some x → p x) ∧
    ∀ i x, n ≤ i → xs[i]? = some x → ¬p x

theorem search_isSplit {p : α → Bool} {xs : List α} (h : Partitioned p xs) :
    ∀ fuel first len, len < fuel → first + len ≤ xs.length →
      (∀ i x, i < first → xs[i]? = some x → p x) →
      (∀ i x, first + len ≤ i → xs[i]? = some x → ¬p x) →
      IsSplit p xs (search p xs fuel first len) := by
  intro fuel
  induction fuel with
  | zero => intro first len hlen; omega
  | succ fuel ih =>
    intro first len hlen hle hbelow habove
    unfold search
    split_ifs with h0
    · subst h0
      exact ⟨by omega, hbelow, habove⟩
    have hmid : first + len / 2 < xs.length := by omega
    rw [List.getElem?_eq_getElem hmid]
    dsimp only
    have hx := List.getElem?_eq_getElem hmid
    split_ifs with hp
    · refine ih _ _ (by omega) (by omega) ?_ ?_
      · intro i x hi hix
        exact h.of_le (by omega) hix hx hp
      · intro i x hi hix
        exact habove i x (by omega) hix
    · refine ih _ _ (by omega) (by omega) hbelow ?_
      intro i x hi hix hpx
      exact hp (h.of_le hi hx hix hpx)

theorem lowerBound_isSplit {p : α → Bool} {xs : List α} (h : Partitioned p xs) :
    IsSplit p xs (lowerBound p xs) := by
  refine search_isSplit h _ _ _ (by omega) (by omega) (by omega) ?_
  intro i x hi hix
  rw [List.getElem?_eq_none (by omega)] at hix
  contradiction

/-- The element at the bound is the first one that fails `p`. -/
theorem getElem?_lowerBound {p : α → Bool} {xs : List α} (h : Partitioned p xs) :
    xs[lowerBound p xs]? = xs.find? fun x => !p x := by
  obtain ⟨hle, hlt, hge⟩ := lowerBound_isSplit h
  rcases Nat.lt_or_eq_of_le hle with hn | hn
  · symm
    rw [List.getElem?_eq_getElem hn, List.find?_eq_some_iff_getElem]
    refine ⟨by simpa using hge _ _ (Nat.le_refl _) (List.getElem?_eq_getElem hn), _, hn, rfl, ?_⟩
    intro j hj
    simpa using hlt j _ hj (List.getElem?_eq_getElem (Nat.lt_trans hj hn))
  · rw [hn, List.getElem?_eq_none (Nat.le_refl _), eq_comm, List.find?_eq_none]
    intro x hx
    obtain ⟨i, hi, rfl⟩ := List.getElem_of_mem hx
    simpa using hlt i _ (by omega) (List.getElem?_eq_getElem hi)

end LowerBound
