import Mathlib.Order.Nat

/-!
# Simulation of deterministic machines

A step of a machine goes on to another state or ends with a result, and in some states there
is none.  A machine that takes at least one step for each step of another one ends with the
same results.
-/

namespace Simulation

variable {σ τ ρ : Type*}

/-- After any number of steps. -/
inductive Reaches (m : σ → Option (σ ⊕ ρ)) : σ → σ ⊕ ρ → Prop
  | refl (s : σ) : Reaches m s (.inl s)
  | stop {s : σ} {r : ρ} (h : m s = some (.inr r)) : Reaches m s (.inr r)
  | next {s s' : σ} {p : σ ⊕ ρ} (h : m s = some (.inl s')) (rest : Reaches m s' p) :
    Reaches m s p

/-- After one step or more. -/
def Advances (m : σ → Option (σ ⊕ ρ)) (s : σ) : σ ⊕ ρ → Prop
  | .inl t => ∃ s', m s = some (.inl s') ∧ Reaches m s' (.inl t)
  | .inr r => Reaches m s (.inr r)

section Machine

variable {m : σ → Option (σ ⊕ ρ)} {s s' : σ} {p : σ ⊕ ρ} {r : ρ}

theorem Reaches.trans (h : Reaches m s (.inl s')) (h' : Reaches m s' p) : Reaches m s p := by
  generalize hq : (Sum.inl s' : σ ⊕ ρ) = q at h
  induction h with
  | refl s =>
    cases hq
    exact h'
  | stop hstep => cases hq
  | next hstep _ ih => exact .next hstep (ih hq)

theorem Advances.single (h : m s = some p) : Advances m s p := by
  cases p with
  | inl t => exact ⟨t, h, .refl t⟩
  | inr r => exact .stop h

theorem Advances.reaches (h : Advances m s p) : Reaches m s p := by
  cases p with
  | inl t =>
    obtain ⟨s₁, hstep, hrest⟩ := h
    exact .next hstep hrest
  | inr r => exact h

/-- A first step. -/
theorem Advances.next (h : m s = some (.inl s')) (h' : Reaches m s' p) : Advances m s p := by
  cases p with
  | inl t => exact ⟨s', h, h'⟩
  | inr r => exact .next h h'

theorem Reaches.advances (h : Reaches m s (.inl s')) (h' : Advances m s' p) : Advances m s p := by
  generalize hq : (Sum.inl s' : σ ⊕ ρ) = q at h
  cases h with
  | refl s =>
    cases hq
    exact h'
  | stop hstep => cases hq
  | next hstep hrest =>
    subst hq
    exact .next hstep (hrest.trans h'.reaches)

/-! ## Counting steps -/

/-- The result comes after that many steps that go on. -/
def EndsIn (m : σ → Option (σ ⊕ ρ)) (r : ρ) : ℕ → σ → Prop
  | 0, s => m s = some (.inr r)
  | n + 1, s => ∃ s', m s = some (.inl s') ∧ EndsIn m r n s'

theorem Reaches.endsIn (h : Reaches m s (.inr r)) : ∃ n, EndsIn m r n s := by
  generalize hq : (Sum.inr r : σ ⊕ ρ) = q at h
  induction h with
  | refl s => cases hq
  | stop hstep =>
    cases hq
    exact ⟨0, hstep⟩
  | next hstep _ ih =>
    obtain ⟨n, hn⟩ := ih hq
    exact ⟨n + 1, _, hstep, hn⟩

/-- What is left of a run after a part of it. -/
theorem EndsIn.after {n : ℕ} (h : EndsIn m r n s) (h' : Reaches m s (.inl s')) :
    ∃ k ≤ n, EndsIn m r k s' := by
  generalize hq : (Sum.inl s' : σ ⊕ ρ) = q at h'
  induction h' generalizing n with
  | refl s =>
    cases hq
    exact ⟨n, Nat.le_refl n, h⟩
  | stop hstep => cases hq
  | next hstep _ ih =>
    cases n with
    | zero => cases hstep.symm.trans h
    | succ n =>
      obtain ⟨s₁, hstep', hrest⟩ := h
      cases hstep.symm.trans hstep'
      obtain ⟨k, hk, hends⟩ := ih hrest hq
      exact ⟨k, Nat.le_succ_of_le hk, hends⟩

theorem EndsIn.after_advance {n : ℕ} (h : EndsIn m r n s) (h' : Advances m s (.inl s')) :
    ∃ k < n, EndsIn m r k s' := by
  obtain ⟨s₁, hstep, hrest⟩ := h'
  cases n with
  | zero => cases hstep.symm.trans h
  | succ n =>
    obtain ⟨s₂, hstep', hends⟩ := h
    cases hstep.symm.trans hstep'
    obtain ⟨k, hk, hends'⟩ := hends.after hrest
    exact ⟨k, Nat.lt_succ_of_le hk, hends'⟩

/-- A run ends with one result only. -/
theorem EndsIn.result_eq {n k : ℕ} {r' : ρ} (h : EndsIn m r n s) (h' : EndsIn m r' k s) :
    r = r' := by
  induction n generalizing s k with
  | zero =>
    cases k with
    | zero =>
      cases h.symm.trans h'
      rfl
    | succ k =>
      obtain ⟨s₁, hstep, -⟩ := h'
      cases h.symm.trans hstep
  | succ n ih =>
    obtain ⟨s₁, hstep, hrest⟩ := h
    cases k with
    | zero => cases hstep.symm.trans h'
    | succ k =>
      obtain ⟨s₂, hstep', hrest'⟩ := h'
      cases hstep.symm.trans hstep'
      exact ih hrest hrest'

end Machine

/-! ## Simulation -/

/-- Each step of the first machine is at least one step of the second one. -/
def Simulates (m : σ → Option (σ ⊕ ρ)) (m' : τ → Option (τ ⊕ ρ)) (R : σ → τ → Prop) : Prop :=
  ∀ ⦃s : σ⦄ ⦃t : τ⦄, R s t → (∃ s' t', m s = some (.inl s') ∧ R s' t' ∧ Advances m' t (.inl t')) ∨
    ∃ r, m s = some (.inr r) ∧ Advances m' t (.inr r)

namespace Simulates

variable {m : σ → Option (σ ⊕ ρ)} {m' : τ → Option (τ ⊕ ρ)} {R : σ → τ → Prop}

theorem ends (h : Simulates m m' R) {s : σ} {t : τ} {r : ρ} (hr : R s t)
    (hends : Reaches m s (.inr r)) : Reaches m' t (.inr r) := by
  generalize hq : (Sum.inr r : σ ⊕ ρ) = q at hends
  induction hends generalizing t with
  | refl s => cases hq
  | stop hstep =>
    cases hq
    rcases h hr with ⟨s', t', hstep', -, -⟩ | ⟨r', hstep', hadv⟩
    · cases hstep.symm.trans hstep'
    · cases hstep.symm.trans hstep'
      exact hadv.reaches
  | next hstep _ ih =>
    rcases h hr with ⟨s', t', hstep', hr', hadv⟩ | ⟨r', hstep', -⟩
    · cases hstep.symm.trans hstep'
      exact hadv.reaches.trans (ih hr' hq)
    · cases hstep.symm.trans hstep'

theorem ends_of_endsIn (h : Simulates m m' R) {s : σ} {t : τ} {r : ρ} (hr : R s t) {n : ℕ}
    (hends : EndsIn m' r n t) : Reaches m s (.inr r) := by
  induction n using Nat.strongRecOn generalizing s t with
  | ind n ih =>
    rcases h hr with ⟨s', t', hstep, hr', hadv⟩ | ⟨r', hstep, hadv⟩
    · obtain ⟨k, hk, hrest⟩ := hends.after_advance hadv
      exact .next hstep (ih k hk hr' hrest)
    · obtain ⟨k, hk⟩ := Reaches.endsIn hadv
      rw [hends.result_eq hk]
      exact .stop hstep

/-- The two machines end with the same results. -/
theorem ends_iff (h : Simulates m m' R) {s : σ} {t : τ} (hr : R s t) (r : ρ) :
    Reaches m s (.inr r) ↔ Reaches m' t (.inr r) := by
  constructor
  · exact h.ends hr
  · intro hends
    obtain ⟨n, hn⟩ := hends.endsIn
    exact h.ends_of_endsIn hr hn

/-! ### States without a step -/

/-- To be without a step is a result as well. -/
def orStuck (m : σ → Option (σ ⊕ ρ)) (s : σ) : Option (σ ⊕ Option ρ) :=
  some ((m s).elim (.inr none) (Sum.map id some))

theorem orStuck_of_some {s : σ} {p : σ ⊕ ρ} (h : m s = some p) :
    orStuck m s = some (p.map id some) := by
  rw [orStuck, h]
  rfl

theorem reaches_orStuck {s : σ} {p : σ ⊕ ρ} (h : Reaches m s p) :
    Reaches (orStuck m) s (p.map id some) := by
  induction h with
  | refl s => exact .refl s
  | stop hstep => exact .stop (orStuck_of_some hstep)
  | next hstep _ ih => exact .next (orStuck_of_some hstep) ih

theorem advances_orStuck {s : σ} {p : σ ⊕ ρ} (h : Advances m s p) :
    Advances (orStuck m) s (p.map id some) := by
  cases p with
  | inl t =>
    obtain ⟨s₁, hstep, hrest⟩ := h
    exact ⟨s₁, orStuck_of_some hstep, reaches_orStuck hrest⟩
  | inr r => exact reaches_orStuck h

theorem toOrStuck (h : Simulates m m' R) : Simulates (orStuck m) (orStuck m') R := by
  intro s t hr
  rcases h hr with ⟨s', t', hstep, hr', hadv⟩ | ⟨r, hstep, hadv⟩
  · exact Or.inl ⟨s', t', orStuck_of_some hstep, hr', advances_orStuck hadv⟩
  · exact Or.inr ⟨some r, orStuck_of_some hstep, advances_orStuck hadv⟩

theorem not_stuck_source (h : Simulates m m' R) {s : σ} {t : τ} (hr : R s t) :
    ¬Reaches (orStuck m) s (.inr none) := by
  intro hstuck
  generalize hq : (Sum.inr none : σ ⊕ Option ρ) = q at hstuck
  induction hstuck generalizing t with
  | refl s => cases hq
  | stop hstep =>
    cases hq
    rcases h hr with ⟨s', t', hm, -, -⟩ | ⟨r, hm, -⟩
    · cases hstep.symm.trans (orStuck_of_some hm)
    · cases hstep.symm.trans (orStuck_of_some hm)
  | next hstep _ ih =>
    rcases h hr with ⟨s', t', hm, hr', -⟩ | ⟨r, hm, -⟩
    · cases hstep.symm.trans (orStuck_of_some hm)
      exact ih hr' hq
    · cases hstep.symm.trans (orStuck_of_some hm)

/-- No state that the second machine comes to is without a step. -/
theorem not_stuck (h : Simulates m m' R) {s : σ} {t t₁ : τ} (hr : R s t)
    (hreach : Reaches m' t (.inl t₁)) : (m' t₁).isSome := by
  by_contra hnone
  have hstuck : orStuck m' t₁ = some (.inr none) := by
    rw [Option.not_isSome_iff_eq_none] at hnone
    rw [orStuck, hnone]
    rfl
  have hends : Reaches (orStuck m') t (.inr none) := (reaches_orStuck hreach).trans (.stop hstuck)
  exact h.not_stuck_source hr ((h.toOrStuck.ends_iff hr none).mpr hends)

end Simulates
end Simulation
