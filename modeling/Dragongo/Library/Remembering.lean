import Dragongo.Library.Acyclic

/-!
# Recursion that remembers

A recursion over a finite relation may be cyclic and still return, if it remembers some of the
elements it has been at and does not go on from these.  It returns from what it reaches if this
is all right and has no loop of which nothing is remembered by an element of the loop; and only
then, if what is entered first in the place of an element stands for it.
-/

namespace Dragongo.Remembering
open Relation Acyclic

universe u
variable {α : Type u} {r marks : α → α → Prop} {S : Finset α}

/-- In a set of elements none of which is remembered by another of the set, nothing leads back to
itself. -/
def Unlooped (r marks : α → α → Prop) : Prop :=
  ∀ C : Set α, (∀ x ∈ C, ∀ m ∈ C, ¬marks x m) →
    ∀ x, ¬TransGen (fun a b => a ∈ C ∧ b ∈ C ∧ r a b) x x

/-- One of every two elements in a row remembers itself. -/
theorem Unlooped.of_marked (h : ∀ x y, r x y → marks x x ∨ marks y y) : Unlooped r marks := by
  intro C hC x hx
  obtain ⟨y, hxy, -⟩ := TransGen.head'_iff.mp hx
  rcases h x y hxy.2.2 with hmark | hmark
  · exact hC x hxy.1 x hxy.1 hmark
  · exact hC y hxy.2.1 y hxy.2.1 hmark

open Classical in
/-- How many elements are not remembered yet. -/
noncomputable def unseen (S : Finset α) (seen : Set α) : ℕ := (S.filter (· ∉ seen)).card

theorem unseen_mono {seen seen' : Set α} (h : seen ⊆ seen') : unseen S seen' ≤ unseen S seen := by
  classical
  apply Finset.card_le_card
  intro x hx
  rw [Finset.mem_filter] at hx ⊢
  exact ⟨hx.1, fun hseen => hx.2 (h hseen)⟩

theorem unseen_lt {seen seen' : Set α} (h : seen ⊆ seen') {m : α} (hm : m ∈ S) (hnew : m ∉ seen)
    (hm' : m ∈ seen') : unseen S seen' < unseen S seen := by
  classical
  apply Finset.card_lt_card
  refine ⟨fun x hx => ?_, fun hsub => ?_⟩
  · rw [Finset.mem_filter] at hx ⊢
    exact ⟨hx.1, fun hseen => hx.2 (h hseen)⟩
  · have hin := hsub (Finset.mem_filter.mpr ⟨hm, hnew⟩)
    exact (Finset.mem_filter.mp hin).2 hm'

theorem mem_of_unseen_eq {seen seen' : Set α} (h : seen ⊆ seen')
    (heq : unseen S seen' = unseen S seen) {m : α} (hm : m ∈ S) (hm' : m ∈ seen') : m ∈ seen := by
  by_contra hnew
  exact (unseen_lt h hm hnew hm').ne heq

theorem unseen_le (S : Finset α) (seen : Set α) : unseen S seen ≤ S.card := by
  classical
  exact Finset.card_filter_le ..

/-- What has to be shown of a call `P fuel x seen`, where `seen` is what is remembered: it ends at
once if `x` is, and otherwise if the calls it makes do, for which more is remembered. -/
structure Recursion (P : ℕ → α → Set α → Prop) (r marks : α → α → Prop) (S : Finset α) : Prop where
  source : ∀ x y, r x y → x ∈ S
  marked : ∀ x m, marks x m → m ∈ S
  known : ∀ fuel x seen, x ∈ seen → P (fuel + 1) x seen
  step : ∀ fuel x seen, x ∉ seen →
    (∀ y, r x y → ∀ seen', seen ⊆ seen' → (∀ m, marks x m → m ∈ seen') → P fuel y seen') →
    P (fuel + 1) x seen

variable {P : ℕ → α → Set α → Prop}

/-- The elements that can be gone on from without anything new being remembered. -/
def Stale (marks : α → α → Prop) (seen : Set α) : Set α :=
  {x | x ∉ seen ∧ ∀ m, marks x m → m ∈ seen}

/-- Enough fuel for the calls with `k` elements that are not remembered. -/
def enough (n k : ℕ) : ℕ := (k + 1) * (n + 2)

theorem enough_succ (n k : ℕ) : enough n (k + 1) = enough n k + (n + 2) := Nat.succ_mul ..

/-- A call ends at once if nothing can be gone on to. -/
theorem Recursion.ends_outside (h : Recursion P r marks S) {x : α} (hx : x ∉ S) {fuel : ℕ}
    {seen : Set α} (hfuel : 0 < fuel) : P fuel x seen := by
  obtain ⟨fuel, rfl⟩ := Nat.exists_eq_succ_of_ne_zero hfuel.ne'
  by_cases hknown : x ∈ seen
  · exact h.known fuel x seen hknown
  · exact h.step fuel x seen hknown fun y hy => (hx (h.source x y hy)).elim

/-- A call that remembers something new leaves less to remember. -/
theorem Recursion.ends_fresh (h : Recursion P r marks S) {seen : Set α} {k n : ℕ}
    (ih : ∀ seen', unseen S seen' < k → ∀ x fuel, n ≤ fuel → P fuel x seen')
    (hseen : unseen S seen ≤ k) {x : α} (hx : x ∉ Stale marks seen) {fuel : ℕ}
    (hfuel : n + 1 ≤ fuel) : P fuel x seen := by
  obtain ⟨fuel, rfl⟩ : ∃ f, fuel = f + 1 := ⟨fuel - 1, by omega⟩
  by_cases hknown : x ∈ seen
  · exact h.known fuel x seen hknown
  apply h.step fuel x seen hknown
  intro y _ seen' hsub hmarks
  obtain ⟨m, hm, hnew⟩ : ∃ m, marks x m ∧ m ∉ seen := by
    by_contra hall
    push Not at hall
    exact hx ⟨hknown, hall⟩
  have hlt := unseen_lt hsub (h.marked x m hm) hnew (hmarks m hm)
  exact ih seen' (by omega) y fuel (by omega)

/-- As long as nothing new is remembered, the calls go down an acyclic relation. -/
theorem Recursion.ends_stale (h : Recursion P r marks S) (hloop : Unlooped r marks)
    {seen : Set α} {n : ℕ}
    (ih : ∀ seen', unseen S seen' < unseen S seen → ∀ x fuel, n ≤ fuel → P fuel x seen') {x : α}
    (hx : x ∈ Stale marks seen) (hxS : x ∈ S) {fuel : ℕ} (hfuel : S.card + (n + 1) ≤ fuel) :
    P fuel x seen := by
  classical
  let D : Set α := {y | y ∈ Stale marks seen ∧ y ∈ S}
  have hacyclic : ∀ y, ¬TransGen (fun a b => a ∈ D ∧ b ∈ D ∧ r a b) y y :=
    hloop D fun y hy m hm hmark => hm.1.1 (hy.1.2 m hmark)
  have hbelow : Below (fun a b => a ∈ D ∧ b ∈ D ∧ r a b) x S := by
    refine ⟨fun y hy => ?_, fun y _ => hacyclic y⟩
    rcases hy.cases_tail with rfl | ⟨z, -, hz⟩
    · exact hxS
    · exact hz.2.1.2
  have hall : ∀ seen', seen ⊆ seen' → ∀ fuel, S.card + (n + 1) ≤ fuel → P fuel x seen' := by
    apply Below.induction (P := fun m y => ∀ seen', seen ⊆ seen' → ∀ fuel, m + (n + 1) ≤ fuel →
      P fuel y seen') _ hbelow le_rfl
    intro m y hchildren seen' hsub fuel hfuel
    obtain ⟨fuel, rfl⟩ : ∃ f, fuel = f + 1 := ⟨fuel - 1, by omega⟩
    by_cases hknown : y ∈ seen'
    · exact h.known fuel y seen' hknown
    apply h.step fuel y seen' hknown
    intro z hz seen'' hsub' hmarks
    have hsub'' := hsub.trans hsub'
    rcases (unseen_mono (S := S) hsub'').lt_or_eq with hlt | heq
    · exact ih seen'' hlt z fuel (by omega)
    by_cases hzS : z ∈ S
    · by_cases hzD : z ∈ Stale marks seen
      · have hyS := h.source y z hz
        have hyD : y ∈ Stale marks seen := ⟨fun hy => hknown (hsub hy), fun m hm =>
          mem_of_unseen_eq hsub'' heq (h.marked y m hm) (hmarks m hm)⟩
        exact hchildren z ⟨⟨hyD, hyS⟩, ⟨hzD, hzS⟩, hz⟩ seen'' hsub'' fuel (by omega)
      · have hzfresh : z ∉ Stale marks seen'' := fun hstale =>
          hzD ⟨fun hz => hstale.1 (hsub'' hz), fun m hm =>
            mem_of_unseen_eq hsub'' heq (h.marked z m hm) (hstale.2 m hm)⟩
        exact h.ends_fresh (fun seen₃ hlt => ih seen₃ (heq ▸ hlt)) le_rfl hzfresh (by omega)
    · exact h.ends_outside hzS (by omega)
  exact hall seen (subset_refl _) fuel hfuel

theorem Recursion.ends_of_unseen (h : Recursion P r marks S) (hloop : Unlooped r marks) (k : ℕ) :
    ∀ seen, unseen S seen ≤ k → ∀ x fuel, enough S.card k ≤ fuel → P fuel x seen := by
  induction k with
  | zero =>
    intro seen hseen x fuel hfuel
    have hnone : ∀ seen', unseen S seen' < unseen S seen → ∀ x fuel, 0 ≤ fuel →
        P fuel x seen' := fun seen' hlt => absurd hlt (by omega)
    rw [enough] at hfuel
    by_cases hxS : x ∈ S
    · by_cases hx : x ∈ Stale marks seen
      · exact h.ends_stale hloop hnone hx hxS (by omega)
      · exact h.ends_fresh hnone le_rfl hx (by omega)
    · exact h.ends_outside hxS (by omega)
  | succ k ih =>
    intro seen hseen x fuel hfuel
    have hless : ∀ seen', unseen S seen' < unseen S seen → ∀ x fuel, enough S.card k ≤ fuel →
        P fuel x seen' := fun seen' hlt => ih seen' (by omega)
    rw [enough_succ] at hfuel
    by_cases hxS : x ∈ S
    · by_cases hx : x ∈ Stale marks seen
      · exact h.ends_stale hloop hless hx hxS (by omega)
      · exact h.ends_fresh hless le_rfl hx (by omega)
    · exact h.ends_outside hxS (by omega)

/-- Without a loop that is never remembered, some fuel is enough for every call. -/
theorem Recursion.ends (h : Recursion P r marks S) (hloop : Unlooped r marks) (x : α)
    (seen : Set α) {fuel : ℕ} (hfuel : enough S.card S.card ≤ fuel) : P fuel x seen :=
  h.ends_of_unseen hloop S.card seen (unseen_le S seen) x fuel hfuel

/-! ## What a walk needs -/

/-- Nothing is gone on from that has been seen. -/
def Beyond (r : α → α → Prop) (seen : Set α) (x y : α) : Prop := x ∉ seen ∧ r x y

/-- What is reached from `x` is all right, and has no loop of which nothing is remembered. -/
structure Walkable (r marks : α → α → Prop) (ok : α → Prop) (seen : Set α) (x : α) : Prop where
  ok : ∀ y, ReflTransGen (Beyond r seen) x y → y ∉ seen → ok y
  unlooped : Unlooped (fun a b => ReflTransGen (Beyond r seen) x a ∧ Beyond r seen a b) marks

/-- Nothing is reached from where there is nowhere to go on to. -/
theorem Walkable.of_leaf {ok : α → Prop} {seen : Set α} {x : α} (hok : ok x)
    (hnone : ∀ y, ¬r x y) : Walkable r marks ok seen x := by
  have hreach : ∀ y, ReflTransGen (Beyond r seen) x y → y = x := by
    intro y hy
    rcases ReflTransGen.cases_head hy with rfl | ⟨z, hz, -⟩
    · rfl
    · exact (hnone z hz.2).elim
  refine ⟨fun y hy _ => hreach y hy ▸ hok, fun C _ y hy => ?_⟩
  obtain ⟨z, ⟨-, -, hxy, hz⟩, -⟩ := TransGen.head'_iff.mp hy
  exact hnone z (hreach y hxy ▸ hz.2)

/-- What has to be shown of the calls of a walk before which `seen` is remembered: one that is
made where nothing is wrong returns if the calls it makes do. -/
structure Walk (P : ℕ → α → Set α → Prop) (r marks : α → α → Prop) (ok : α → Prop)
    (S : Finset α) (seen : Set α) : Prop where
  source : ∀ x y, r x y → x ∈ S
  marked : ∀ x m, marks x m → m ∈ S
  known : ∀ fuel x seen', x ∈ seen' → x ∈ seen ∨ ok x → P (fuel + 1) x seen'
  step : ∀ fuel x seen, x ∉ seen → ok x →
    (∀ y, r x y → ∀ seen', seen ⊆ seen' → (∀ m, marks x m → m ∈ seen') → P fuel y seen') →
    P (fuel + 1) x seen

section Walk

variable {ok : α → Prop} {seen : Set α} {x : α}

/-- On what is reached the walk is a recursion. -/
theorem Walk.recursion (h : Walk P r marks ok S seen) (hw : Walkable r marks ok seen x) :
    Recursion (fun fuel y seen' => seen ⊆ seen' → ReflTransGen (Beyond r seen) x y →
        P fuel y seen')
      (fun a b => ReflTransGen (Beyond r seen) x a ∧ Beyond r seen a b) marks S where
  source := fun a b hab => h.source a b hab.2.2
  marked := h.marked
  known := fun fuel y seen' hy _ hreach =>
    h.known fuel y seen' hy (or_iff_not_imp_left.mpr fun hnew => hw.ok y hreach hnew)
  step := by
    intro fuel y seen' hy hcalls hsub hreach
    have hnew : y ∉ seen := fun hseen => hy (hsub hseen)
    apply h.step fuel y seen' hy (hw.ok y hreach hnew)
    intro z hz seen'' hsub' hmarks
    exact hcalls z ⟨hreach, hnew, hz⟩ seen'' hsub' hmarks (hsub.trans hsub')
      (hreach.tail ⟨hnew, hz⟩)

theorem Walk.returns (h : Walk P r marks ok S seen) (hw : Walkable r marks ok seen x) {fuel : ℕ}
    (hfuel : enough S.card S.card ≤ fuel) : P fuel x seen :=
  (h.recursion hw).ends hw.unlooped x seen hfuel (subset_refl _) .refl

end Walk

/-! ## What a walk that has returned was at -/

/-- Calls one after the other; `Q y seen seen'` is a call at `y` that has returned, before which
`seen` was remembered, and `seen'` after it. -/
inductive Calls (Q : α → Set α → Set α → Prop) : List α → Set α → Set α → Prop
  | nil (seen : Set α) : Calls Q [] seen seen
  | cons {y : α} {ys : List α} {seen seen₁ seen' : Set α} (first : Q y seen seen₁)
    (rest : Calls Q ys seen₁ seen') : Calls Q (y :: ys) seen seen'

theorem Calls.append {Q : α → Set α → Set α → Prop} {xs ys : List α} {seen seen₁ seen' : Set α}
    (h : Calls Q xs seen seen₁) (h' : Calls Q ys seen₁ seen') : Calls Q (xs ++ ys) seen seen' := by
  induction h with
  | nil => exact h'
  | cons first _ ih => exact .cons first (ih h')

/-- A call at `x` that has returned has made these calls, and it has entered nothing but `x` and
what `x` marks. -/
structure Follows (Q : α → Set α → Set α → Prop) (r marks : α → α → Prop) (x : α)
    (seen first last seen' : Set α) (ys : List α) : Prop where
  kept : seen ⊆ first
  entered : ∀ m ∈ first, m ∈ seen ∨ marks x m
  calls : Calls Q ys first last
  all : ∀ y, y ∈ ys ↔ r x y
  keeps : last ⊆ seen'
  enters : ∀ m ∈ seen', m ∈ last ∨ m = x ∨ marks x m

/-- A call that has returned knew where it was, or all was right there and it has gone on. -/
def Leaves (Q : α → Set α → Set α → Prop) (r marks : α → α → Prop) (ok : α → Prop) (x : α)
    (seen seen' : Set α) : Prop :=
  (x ∈ seen ∧ seen' = seen) ∨
  (x ∉ seen ∧ ok x ∧ ∃ first last ys, Follows Q r marks x seen first last seen' ys)

/-- What has to be shown of the calls of a walk that have returned. -/
structure Trace (Q : ℕ → α → Set α → Set α → Prop) (r marks : α → α → Prop) (ok : α → Prop) :
    Prop where
  zero : ∀ x seen seen', ¬Q 0 x seen seen'
  succ : ∀ fuel x seen seen', Q (fuel + 1) x seen seen' →
    Leaves (Q fuel) r marks ok x seen seen'

/-- Where there is nowhere to go on to, nothing is entered. -/
theorem Leaves.of_leaf {Q : α → Set α → Set α → Prop} {ok : α → Prop} {x : α} {seen : Set α}
    (hok : ok x) (hnone : ∀ y, ¬r x y) : Leaves Q r marks ok x seen seen := by
  by_cases hx : x ∈ seen
  · exact .inl ⟨hx, rfl⟩
  · refine .inr ⟨hx, hok, seen, seen, [], subset_refl _, fun _ hm => .inl hm, .nil _, ?_,
      subset_refl _, fun _ hm => .inl hm⟩
    exact fun y => iff_of_false List.not_mem_nil (hnone y)

/-- What is remembered after calls that have gone on from `E`. -/
def Cover (marks : α → α → Prop) (seen E : Set α) : Set α :=
  seen ∪ {m | ∃ z ∈ E, m = z ∨ marks z m}

theorem Cover.trans {seen seen₁ E E' : Set α} (h : seen₁ ⊆ Cover marks seen E) :
    Cover marks seen₁ E' ⊆ Cover marks seen (E ∪ E') := by
  rintro m (hm | ⟨z, hz, hm⟩)
  · exact (h hm).imp_right fun ⟨z, hz, hm⟩ => ⟨z, .inl hz, hm⟩
  · exact .inr ⟨z, .inr hz, hm⟩

theorem Cover.mono {seen E E' : Set α} (h : E ⊆ E') : Cover marks seen E ⊆ Cover marks seen E' :=
  fun _ hm => hm.imp_right fun ⟨z, hz, hm⟩ => ⟨z, h hz, hm⟩

section Trace

variable {Q : ℕ → α → Set α → Set α → Prop} {ok : α → Prop}

/-- `E` is what the calls have gone on from, all of it in `D`; `C` is where they have not been. -/
structure Expands (r marks : α → α → Prop) (ok : α → Prop) (C D seen seen' E : Set α) : Prop where
  mono : seen ⊆ seen'
  covered : seen' ⊆ Cover marks seen E
  inside : E ⊆ D
  ok : ∀ z ∈ E, ok z
  avoids : ∀ z ∈ E, z ∉ C
  calls : ∀ z ∈ E, ∀ y, r z y → y ∈ Cover marks seen E

variable {C D : Set α}

/-- Nothing leads out of `D` but through what has been seen, and out of `C` there is no way but
into `C`; what is marked is not in `C`. -/
structure Trap (r marks : α → α → Prop) (ok : α → Prop) (seen C D : Set α) : Prop where
  closed : ∀ x ∈ D, x ∉ seen → ∀ y, r x y → y ∈ D
  next : ∀ x ∈ C, ∃ y ∈ C, r x y
  unmarked : ∀ x ∈ D, ok x → ∀ m ∈ C, ¬marks x m

theorem Trap.mono {seen seen' : Set α} (h : Trap r marks ok seen C D) (hsub : seen ⊆ seen') :
    Trap r marks ok seen' C D :=
  ⟨fun x hx hnew => h.closed x hx fun hseen => hnew (hsub hseen), h.next, h.unmarked⟩

theorem Expands.disjoint {seen seen' E : Set α} (ht : Trap r marks ok seen C D)
    (h : Expands r marks ok C D seen seen' E) (hseen : ∀ c ∈ C, c ∉ seen) :
    ∀ c ∈ C, c ∉ seen' := by
  intro c hc hmem
  rcases h.covered hmem with hold | ⟨z, hz, rfl | hmark⟩
  · exact hseen c hc hold
  · exact h.avoids c hz hc
  · exact ht.unmarked z (h.inside hz) (h.ok z hz) c hc hmark

/-- Calls that return, one after the other. -/
theorem Calls.expands {Q : α → Set α → Set α → Prop} {ys : List α} {seen seen' : Set α}
    (h : Calls Q ys seen seen')
    (hcall : ∀ y seen seen', Trap r marks ok seen C D → (∀ c ∈ C, c ∉ seen) → y ∈ D →
      Q y seen seen' → ∃ E, Expands r marks ok C D seen seen' E ∧ y ∈ Cover marks seen E ∧ y ∉ C)
    (ht : Trap r marks ok seen C D) (hseen : ∀ c ∈ C, c ∉ seen) (hys : ∀ y ∈ ys, y ∈ D) :
    ∃ E, Expands r marks ok C D seen seen' E ∧ (∀ y ∈ ys, y ∈ Cover marks seen E) ∧
      ∀ y ∈ ys, y ∉ C := by
  induction h with
  | nil seen =>
    refine ⟨∅, ⟨subset_refl _, Set.subset_union_left, Set.empty_subset _, ?_, ?_, ?_⟩, ?_, ?_⟩
    all_goals exact fun _ h => absurd h (by simp)
  | @cons y ys seen seen₁ seen' hfirst _ ih =>
    obtain ⟨E, hE, hy, hyC⟩ := hcall y seen seen₁ ht hseen (hys y (List.mem_cons_self ..)) hfirst
    obtain ⟨E', hE', hys', hysC⟩ := ih (ht.mono hE.mono) (hE.disjoint ht hseen)
      fun z hz => hys z (List.mem_cons_of_mem _ hz)
    have hleft : Cover marks seen E ⊆ Cover marks seen (E ∪ E') := Cover.mono Set.subset_union_left
    have hright : Cover marks seen₁ E' ⊆ Cover marks seen (E ∪ E') := Cover.trans hE.covered
    refine ⟨E ∪ E', ⟨hE.mono.trans hE'.mono, hE'.covered.trans hright,
      Set.union_subset hE.inside hE'.inside, fun z hz => hz.elim (hE.ok z) (hE'.ok z),
      fun z hz => hz.elim (hE.avoids z) (hE'.avoids z), ?_⟩, ?_, ?_⟩
    · intro z hz w hw
      exact hz.elim (fun hz => hleft (hE.calls z hz w hw)) fun hz => hright (hE'.calls z hz w hw)
    · exact List.forall_mem_cons.mpr ⟨hleft hy, fun z hz => hright (hys' z hz)⟩
    · exact List.forall_mem_cons.mpr ⟨hyC, hysC⟩

/-- A call that returns has gone on from all it is to go on from, and has not been in a trap. -/
theorem Trace.expands (h : Trace Q r marks ok) : ∀ fuel x seen seen', Trap r marks ok seen C D →
    (∀ c ∈ C, c ∉ seen) → x ∈ D → Q fuel x seen seen' →
      ∃ E, Expands r marks ok C D seen seen' E ∧ x ∈ Cover marks seen E ∧ x ∉ C := by
  intro fuel
  induction fuel with
  | zero => exact fun x seen seen' _ _ _ hq => (h.zero x seen seen' hq).elim
  | succ fuel ih =>
    intro x seen seen' ht hseen hx hq
    rcases h.succ fuel x seen seen' hq with ⟨hknown, rfl⟩ |
      ⟨hnew, hok, first, last, ys, hfirst, hentered, hcalls, hys, hlast, hafter⟩
    · refine ⟨∅, ⟨subset_refl _, Set.subset_union_left, Set.empty_subset _, ?_, ?_, ?_⟩,
        .inl hknown, fun hc => hseen x hc hknown⟩
      all_goals exact fun _ h => absurd h (by simp)
    · have hfirstC : ∀ c ∈ C, c ∉ first := fun c hc hmem =>
        (hentered c hmem).elim (hseen c hc) (ht.unmarked x hx hok c hc)
      obtain ⟨E, hE, hcover, hysC⟩ := hcalls.expands ih (ht.mono hfirst) hfirstC fun y hy =>
        ht.closed x hx hnew y ((hys y).mp hy)
      have hxC : x ∉ C := by
        intro hc
        obtain ⟨y, hyC, hy⟩ := ht.next x hc
        exact hysC y ((hys y).mpr hy) hyC
      -- what was entered first is marked by `x`
      have hsub : Cover marks first E ⊆ Cover marks seen (insert x E) := by
        rintro m (hm | ⟨z, hz, hm⟩)
        · exact (hentered m hm).imp id fun hmark => ⟨x, Set.mem_insert .., .inr hmark⟩
        · exact .inr ⟨z, Set.mem_insert_of_mem x hz, hm⟩
      refine ⟨insert x E, ⟨(hfirst.trans hE.mono).trans hlast, ?_,
        Set.insert_subset hx hE.inside, ?_, ?_, ?_⟩, .inr ⟨x, Set.mem_insert .., .inl rfl⟩, hxC⟩
      · intro m hm
        rcases hafter m hm with hm | hm
        · exact hsub (hE.covered hm)
        · exact .inr ⟨x, Set.mem_insert .., hm⟩
      · exact fun z hz => hz.elim (fun hz => hz ▸ hok) (hE.ok z)
      · exact fun z hz => hz.elim (fun hz => hz ▸ hxC) (hE.avoids z)
      · rintro z (rfl | hz) y hy
        · exact hsub (hcover y ((hys y).mpr hy))
        · exact hsub (hE.calls z hz y hy)

/-- What is marked stands for what marks it: it marks itself, and no more than the other is asked
for there. -/
structure StandsFor (r marks : α → α → Prop) (ok : α → Prop) (x m : α) : Prop where
  marks : marks m m
  ok : ok m
  calls : ∀ y, r m y → r x y

/-- A call that returns has reached nothing that is not all right, and no loop of which nothing is
remembered. -/
theorem Trace.walkable (h : Trace Q r marks ok) {fuel : ℕ} {x : α} {seen seen' : Set α}
    (hstands : ∀ y m, ReflTransGen (Beyond r seen) x y → ok y → marks y m →
      StandsFor r marks ok y m)
    (hq : Q fuel x seen seen') : Walkable r marks ok seen x := by
  let D : Set α := {y | ReflTransGen (Beyond r seen) x y}
  have hclosed : ∀ y ∈ D, y ∉ seen → ∀ z, r y z → z ∈ D := fun y hy hnew z hz =>
    ReflTransGen.tail hy ⟨hnew, hz⟩
  -- whatever is reached has been gone on from, or something that stands for it
  have hreached : ∀ {C E : Set α}, Expands r marks ok C D seen seen' E → x ∈ Cover marks seen E →
      ∀ y ∈ D, y ∈ Cover marks seen E := by
    intro C E hE hx y hy
    induction hy with
    | refl => exact hx
    | tail _ hstep ih =>
      rcases ih with hseen | ⟨w, hw, rfl | hmark⟩
      · exact (hstep.1 hseen).elim
      · exact hE.calls _ hw _ hstep.2
      · exact hE.calls w hw _ ((hstands w _ (hE.inside hw) (hE.ok w hw) hmark).calls _ hstep.2)
  constructor
  · obtain ⟨E, hE, hx, -⟩ := h.expands (C := ∅) fuel x seen seen'
      ⟨hclosed, fun _ hc => hc.elim, fun _ _ _ _ hc => hc.elim⟩ (fun _ hc => hc.elim) .refl hq
    intro y hy hnew
    rcases hreached hE hx y hy with hseen | ⟨w, hw, rfl | hmark⟩
    · exact (hnew hseen).elim
    · exact hE.ok y hw
    · exact (hstands w y (hE.inside hw) (hE.ok w hw) hmark).ok
  · intro C hC y hloop
    let rel : α → α → Prop := fun a b => a ∈ C ∧ b ∈ C ∧ a ∈ D ∧ Beyond r seen a b
    let T : Set α := {c | TransGen rel c c}
    have hhead : ∀ c ∈ T, ∃ d ∈ T, rel c d := by
      intro c hc
      obtain ⟨d, hd, hback⟩ := TransGen.head'_iff.mp hc
      exact ⟨d, TransGen.tail' hback hd, hd⟩
    have hnew : ∀ c ∈ T, c ∉ seen := by
      intro c hc
      obtain ⟨d, -, hd⟩ := hhead c hc
      exact hd.2.2.2.1
    have hunmarked : ∀ z ∈ D, ok z → ∀ m ∈ T, ¬marks z m := by
      intro z hz hok m hm hmark
      obtain ⟨d, -, hd⟩ := hhead m hm
      exact hC m hd.1 m hd.1 (hstands z m hz hok hmark).marks
    have htrap : Trap r marks ok seen T D := by
      refine ⟨hclosed, fun c hc => ?_, hunmarked⟩
      obtain ⟨d, hdT, hd⟩ := hhead c hc
      exact ⟨d, hdT, hd.2.2.2.2⟩
    obtain ⟨E, hE, hx, -⟩ := h.expands fuel x seen seen' htrap hnew .refl hq
    obtain ⟨d, -, hd⟩ := hhead y hloop
    rcases hreached hE hx y hd.2.2.1 with hseen | ⟨w, hw, rfl | hmark⟩
    · exact hnew y hloop hseen
    · exact hE.avoids y hw hloop
    · exact hunmarked w (hE.inside hw) (hE.ok w hw) y hloop hmark

end Trace

end Dragongo.Remembering
