import Mathlib.Data.Finset.Card
import Mathlib.Logic.Relation

/-!
# Recursion over a finite acyclic relation

A walk down an acyclic relation takes at most as many steps as there are elements below its
start, so a recursion that is given that much fuel does not run out of it.
-/

namespace Dragongo.Acyclic
open Relation

universe u
variable {α : Type u} {r : α → α → Prop} {x y : α} {S : Finset α}

/-- All that is below `x` is in `S`, and nothing there is below itself. -/
structure Below (r : α → α → Prop) (x : α) (S : Finset α) : Prop where
  inside : ∀ y, ReflTransGen r x y → y ∈ S
  acyclic : ∀ y, ReflTransGen r x y → ¬TransGen r y y

theorem Below.mem (h : Below r x S) : x ∈ S := h.inside x .refl

theorem Below.down (h : Below r x S) (hy : ReflTransGen r x y) : Below r y S :=
  ⟨fun z hz => h.inside z (hy.trans hz), fun z hz => h.acyclic z (hy.trans hz)⟩

/-- Below a successor the element itself does not come again. -/
theorem Below.step [DecidableEq α] (h : Below r x S) (hy : r x y) : Below r y (S.erase x) where
  inside := by
    intro z hz
    have hxz : ReflTransGen r x z := hz.head hy
    refine Finset.mem_erase.mpr ⟨?_, h.inside z hxz⟩
    rintro rfl
    exact h.acyclic z .refl (TransGen.head' hy hz)
  acyclic := fun z hz => h.acyclic z (hz.head hy)

/-- Induction along the walk: as much fuel as there are elements is enough. -/
theorem Below.induction [DecidableEq α] {P : ℕ → α → Prop}
    (step : ∀ fuel x, (∀ y, r x y → P fuel y) → P (fuel + 1) x) (h : Below r x S) {fuel : ℕ}
    (hfuel : S.card ≤ fuel) : P fuel x := by
  induction fuel generalizing S x with
  | zero =>
    have hempty : S = ∅ := Finset.card_eq_zero.mp (Nat.le_zero.mp hfuel)
    exact (Finset.notMem_empty x (hempty ▸ h.mem)).elim
  | succ fuel ih =>
    apply step
    intro y hy
    apply ih (h.step hy)
    have hcard := Finset.card_erase_add_one h.mem
    omega

end Dragongo.Acyclic
