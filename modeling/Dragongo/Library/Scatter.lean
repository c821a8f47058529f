import Mathlib.Data.Finset.Card
import Mathlib.Data.Finset.Range
import Mathlib.Data.List.Basic

/-!
# Values put into slots by index

A list of values is written into numbered slots, each value into the slot of its index.  When
no index occurs twice, every slot holds the value of its own index, and the slots that no index
names are as they were.
-/

namespace Scatter

variable {α β : Type*}

/-- Each value goes into the slot of its index, if there are that many. -/
def scatter (n : ℕ) : (ℕ → Option α) → List ℕ → List α → Option (ℕ → Option α)
  | slots, [], _ => some slots
  | _, _ :: _, [] => none
  | slots, i :: is, v :: vs =>
    if i < n then scatter n (Function.update slots i (some v)) is vs else none

/-- The value that has an index. -/
def valueAt : List ℕ → List α → ℕ → Option α
  | j :: js, v :: vs, i => if i = j then some v else valueAt js vs i
  | _, _, _ => none

section ValueAt

variable {is : List ℕ} {vs : List α} {i n : ℕ} {v : α}

theorem mem_of_valueAt (h : valueAt is vs i = some v) : i ∈ is ∧ v ∈ vs := by
  induction is generalizing vs with
  | nil => cases h
  | cons j js ih =>
    cases vs with
    | nil => cases h
    | cons w ws =>
      rw [valueAt] at h
      split_ifs at h with hij
      · cases h
        exact ⟨hij ▸ List.mem_cons_self, List.mem_cons_self⟩
      · exact (ih h).imp (List.mem_cons_of_mem j) (List.mem_cons_of_mem w)

theorem valueAt_eq_none (h : i ∉ is) : valueAt is vs i = none := by
  cases hv : valueAt is vs i with
  | none => rfl
  | some v => exact absurd (mem_of_valueAt hv).1 h

end ValueAt

/-- Different indexes in range: every slot gets the value of its index. -/
theorem scatter_eq {n : ℕ} {is : List ℕ} {vs : List α} (hlen : is.length = vs.length)
    (hnodup : is.Nodup) (hrange : ∀ i ∈ is, i < n) (slots : ℕ → Option α) :
    scatter n slots is vs = some fun i => (valueAt is vs i).or (slots i) := by
  induction is generalizing vs slots with
  | nil => rfl
  | cons j js ih =>
    cases vs with
    | nil => cases hlen
    | cons v vs =>
      rw [List.nodup_cons] at hnodup
      rw [scatter, if_pos (hrange j List.mem_cons_self), ih (Nat.succ.inj hlen) hnodup.2
        fun i hi => hrange i (List.mem_cons_of_mem j hi)]
      congr 1
      funext i
      rw [valueAt]
      by_cases hij : i = j
      · subst hij
        rw [valueAt_eq_none hnodup.1, if_pos rfl, Function.update_self]
        rfl
      · rw [if_neg hij, Function.update_of_ne hij]

/-- The contents of the slots, if all of them have some. -/
def collect (n : ℕ) (slots : ℕ → Option α) : Option (List α) := (List.range n).mapM slots

theorem mapM_eq_some {f : ℕ → Option α} {g : ℕ → α} {l : List ℕ} (h : ∀ i ∈ l, f i = some (g i)) :
    l.mapM f = some (l.map g) := by
  induction l with
  | nil => rfl
  | cons i l ih =>
    rw [List.mapM_cons, h i List.mem_cons_self, ih fun j hj => h j (List.mem_cons_of_mem i hj)]
    rfl

theorem collect_eq {n : ℕ} {slots : ℕ → Option α} {g : ℕ → α}
    (h : ∀ i < n, slots i = some (g i)) : collect n slots = some ((List.range n).map g) :=
  mapM_eq_some fun i hi => h i (List.mem_range.mp hi)

/-- The values in their order have their positions as indexes. -/
theorem valueAt_range' (vs : List α) (k i : ℕ) :
    valueAt (List.range' k vs.length) vs (k + i) = vs[i]? := by
  induction vs generalizing k i with
  | nil => rfl
  | cons v vs ih =>
    rw [List.length_cons, List.range'_succ, valueAt]
    cases i with
    | zero => exact if_pos rfl
    | succ i =>
      rw [if_neg (by omega), List.getElem?_cons_succ, ← ih (k + 1) i, Nat.add_right_comm,
        Nat.add_assoc]

theorem valueAt_range (vs : List α) (i : ℕ) : valueAt (List.range vs.length) vs i = vs[i]? := by
  rw [List.range_eq_range', ← valueAt_range' vs 0 i, Nat.zero_add]

/-- Slots that were filled in order give the list back. -/
theorem collect_getElem? (vs : List α) : collect vs.length (fun i => vs[i]?) = some vs := by
  cases vs with
  | nil => rfl
  | cons v vs =>
    have hget : ∀ i < (v :: vs).length, (v :: vs)[i]? = some ((v :: vs).getD i v) := by
      intro i hi
      rw [List.getD_eq_getElem?_getD, List.getElem?_eq_getElem hi]
      rfl
    rw [collect_eq hget]
    congr 1
    apply List.ext_getElem
    · simp
    · intro i hi hi'
      simp [List.getElem?_eq_getElem hi']

end Scatter
