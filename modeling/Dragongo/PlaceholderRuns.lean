import Dragongo.PlaceholderCreation
import Dragongo.TypeOperations
import Mathlib.Data.Finset.Card

/-!
# Placeholder pointers from the first call to the last

When the graph of the types has no cycle the comparisons behind the hash table end, so
the calls that set the placeholders complete; then the LLVM types are the intended ones
just if the calls came in the order of the dependencies.
-/

namespace Dragongo
open LType

namespace TypeManager

/-! ## Comparisons end -/

/-- The components of every type are there, and of lower rank. -/
structure Ranked (tm : TypeManager) (rank : BtypeRef → ℕ) : Prop where
  component : ∀ x o, tm.obj x = some o → ∀ y ∈ o.kind.components,
    y < tm.heap.length ∧ rank y < rank x
  complete : ∀ x o, tm.obj x = some o → o.kind.isComplete ∨ tm.IsUnset x
  distinct : ∀ p q, tm.IsUnset p → tm.IsUnset q → tm.typeOf p = tm.typeOf q → p = q
  bounded : ∀ x < tm.heap.length, rank x < tm.heap.length

/-- The number of types below a type is a rank that the size of the heap bounds. -/
def countBelow (n : ℕ) (rank : BtypeRef → ℕ) (x : BtypeRef) : ℕ :=
  ((Finset.range n).filter fun y => rank y < rank x).card

theorem countBelow_lt {n : ℕ} {rank : BtypeRef → ℕ} {x y : BtypeRef} (hy : y < n)
    (h : rank y < rank x) : countBelow n rank y < countBelow n rank x := by
  apply Finset.card_lt_card
  rw [Finset.ssubset_iff_of_subset]
  · exact ⟨y, by simp [hy, h], by simp⟩
  · intro z hz
    simp only [Finset.mem_filter, Finset.mem_range] at hz ⊢
    exact ⟨hz.1, hz.2.trans h⟩

theorem countBelow_lt_self {n : ℕ} {rank : BtypeRef → ℕ} {x : BtypeRef} (hx : x < n) :
    countBelow n rank x < n := by
  calc countBelow n rank x
      < (Finset.range n).card := by
        apply Finset.card_lt_card
        rw [Finset.ssubset_iff_of_subset (Finset.filter_subset _ _)]
        exact ⟨x, by simp [hx], by simp⟩
    _ = n := Finset.card_range n

section Ends
variable {eq : BtypeRef → BtypeRef → Option Bool}

theorem andAlso_isSome {p q : Option Bool} (hp : p.isSome) (hq : q.isSome) :
    (andAlso p q).isSome := by
  match p with
  | some true => exact hq
  | some false => rfl

theorem equalFields_isSome : ∀ {fs gs : List BtypedIdentifier},
    (∀ f ∈ fs, ∀ g ∈ gs, (eq f.btype g.btype).isSome) → (equalFields eq fs gs).isSome
  | [], _, _ => by simp [equalFields]
  | _ :: _, [], _ => rfl
  | f :: fs, g :: gs, h => by
    rw [equalFields]
    apply andAlso_isSome
    · exact h f (by simp) g (by simp)
    · split_ifs
      · exact equalFields_isSome fun f' hf g' hg => h f' (by simp [hf]) g' (by simp [hg])
      · rfl

theorem equalParams_isSome : ∀ {xs ys : List BtypeRef},
    (∀ x ∈ xs, ∀ y ∈ ys, (eq x y).isSome) → (equalParams eq xs ys).isSome
  | [], _, _ => by simp [equalParams]
  | _ :: _, [], _ => rfl
  | x :: xs, y :: ys, h => by
    rw [equalParams]
    apply andAlso_isSome
    · exact h x (by simp) y (by simp)
    · exact equalParams_isSome fun x' hx y' hy => h x' (by simp [hx]) y' (by simp [hy])

theorem equalReceiver_isSome {r r' : Option BtypeRef}
    (h : ∀ x ∈ r, ∀ y ∈ r', (eq x y).isSome) : (equalReceiver eq r r').isSome := by
  cases r with
  | none => cases r' <;> rfl
  | some x =>
    cases r' with
    | none => rfl
    | some y => exact h x rfl y rfl

theorem equalComponent_isSome {s t : Option BtypeRef} (hne : s.isSome ∨ t.isSome)
    (h : ∀ x ∈ s, ∀ y ∈ t, (eq x y).isSome) : (equalComponent eq s t).isSome := by
  cases s with
  | none =>
    cases t with
    | none => simp at hne
    | some y => rfl
  | some x =>
    cases t with
    | none => rfl
    | some y => exact h x rfl y rfl

/-- One level of the comparison ends if the comparisons of the components do. -/
theorem equalKind_isSome {k k' : BtypeKind}
    (hpointer : ∀ t t', k = .pointer t → k' = .pointer t' → t.isSome ∨ t'.isSome)
    (harray : ∀ e n, k = .array e n ∨ k' = .array e n → e.isSome ∧ n.isSome)
    (h : ∀ x ∈ k.components, ∀ y ∈ k'.components, (eq x y).isSome) :
    (equalKind eq k k').isSome := by
  cases k with
  | pointer t =>
    cases k' with
    | pointer t' =>
      apply equalComponent_isSome (hpointer t t' rfl rfl)
      intro x hx y hy
      exact h x (by simp_all [BtypeKind.components]) y (by simp_all [BtypeKind.components])
    | _ => rfl
  | array e n =>
    cases k' with
    | array e' n' =>
      obtain ⟨he, hn⟩ := harray e n (.inl rfl)
      obtain ⟨he', hn'⟩ := harray e' n' (.inr rfl)
      obtain ⟨e, rfl⟩ := Option.isSome_iff_exists.mp he
      obtain ⟨n, rfl⟩ := Option.isSome_iff_exists.mp hn
      obtain ⟨e', rfl⟩ := Option.isSome_iff_exists.mp he'
      obtain ⟨n', rfl⟩ := Option.isSome_iff_exists.mp hn'
      simp only [equalKind, Option.isSome_some, ne_eq, not_true_eq_false, if_false]
      split_ifs
      · exact h e (by simp [BtypeKind.components]) e' (by simp [BtypeKind.components])
      · rfl
    | _ => rfl
  | struct fields =>
    cases k' with
    | struct fields' =>
      rw [equalKind]
      split_ifs
      · apply equalFields_isSome
        intro f hf g hg
        exact h f.btype (List.mem_map_of_mem hf) g.btype (List.mem_map_of_mem hg)
      · rfl
    | _ => rfl
  | function r ps rs t c =>
    cases k' with
    | function r' ps' rs' t' c' =>
      rw [equalKind]
      apply andAlso_isSome
      · apply equalReceiver_isSome
        intro x hx y hy
        exact h x (by simp_all [BtypeKind.components]) y (by simp_all [BtypeKind.components])
      · apply andAlso_isSome
        · exact h t (by simp [BtypeKind.components]) t' (by simp [BtypeKind.components])
        · split_ifs
          · apply andAlso_isSome
            · apply equalParams_isSome
              intro x hx y hy
              exact h x (by simp [BtypeKind.components, hx]) y (by simp [BtypeKind.components, hy])
            · rfl
          · rfl
    | _ => rfl
  | _ => cases k' <;> rfl

end Ends

section Complete
variable {tm tm' : TypeManager} {rank : BtypeRef → ℕ}

theorem Ranked.equalWithin_isSome (h : tm.Ranked rank) (fuel : ℕ) : ∀ {x y : BtypeRef},
    x < tm.heap.length → y < tm.heap.length → rank x < fuel →
    (equalWithin tm.heap fuel x y).isSome := by
  induction fuel with
  | zero => exact fun _ _ h => (Nat.not_lt_zero _ h).elim
  | succ fuel ih =>
    intro x y hx hy hrank
    by_cases hxy : x = y
    · rw [equalWithin, if_pos hxy]
      rfl
    obtain ⟨a, ha⟩ := Option.isSome_iff_exists.mp ((obj_isSome_iff tm x).mpr hx)
    obtain ⟨b, hb⟩ := Option.isSome_iff_exists.mp ((obj_isSome_iff tm y).mpr hy)
    rw [equalWithin_ne hxy ha hb]
    split_ifs with hkey
    · have hcomplete : ∀ z o, tm.obj z = some o → ∀ t, o.kind = .pointer t → t.isSome ∨
          tm.IsUnset z := by
        intro z o ho t hk
        have := h.complete z o ho
        rwa [hk] at this
      apply equalKind_isSome
      · intro t t' hk hk'
        rcases hcomplete x a ha t hk with ht | hux
        · exact .inl ht
        rcases hcomplete y b hb t' hk' with ht | huy
        · exact .inr ht
        -- two unset placeholders have different LLVM types
        apply (hxy (h.distinct x y hux huy _)).elim
        rw [typeOf, typeOf, ha, hb]
        exact congrArg some (Prod.mk.inj (Prod.mk.inj hkey.1).2).2
      · have harray : ∀ z o, tm.obj z = some o → ∀ e n, o.kind = .array e n →
            e.isSome ∧ n.isSome := by
          intro z o ho e n hk
          rcases h.complete z o ho with hc | ⟨-, o', ho', -, hk'⟩
          · rw [hk] at hc
            simpa [BtypeKind.isComplete] using hc
          · rw [Option.some.inj (ho.symm.trans ho'), hk'] at hk
            cases hk
        rintro e n (hk | hk)
        · exact harray x a ha e n hk
        · exact harray y b hb e n hk
      · intro z hz w hw
        obtain ⟨hzlt, hzr⟩ := h.component x a ha z hz
        exact ih hzlt (h.component y b hb w hw).1 (Nat.lt_of_lt_of_le hzr (Nat.le_of_lt_succ hrank))
    · rfl

theorem Ranked.equal_isSome (h : tm.Ranked rank) {x y : BtypeRef} (hx : x < tm.heap.length)
    (hy : y < tm.heap.length) : (equal tm.heap x y).isSome := by
  apply h.equalWithin_isSome _ hx hy
  calc rank x < tm.heap.length := h.bounded x hx
    _ ≤ tm.heap.length * tm.heap.length := Nat.le_mul_self _
    _ < tm.heap.length * tm.heap.length + 1 := Nat.lt_succ_self _

/-- The hash table holds types of the heap only. -/
def EntriesExist (tm : TypeManager) : Prop := ∀ e ∈ tm.anonTypes, e.1 < tm.heap.length

theorem Ranked.findAnon_isSome (h : tm.Ranked rank) (hentries : tm.EntriesExist) {x : BtypeRef}
    (hx : x < tm.heap.length) : (tm.findAnon x).isSome := by
  obtain ⟨o, ho⟩ := Option.isSome_iff_exists.mp ((obj_isSome_iff tm x).mpr hx)
  rw [findAnon, ho, Option.bind_eq_bind, Option.bind_some]
  unfold EntriesExist at hentries
  generalize tm.anonTypes = es at hentries
  induction es with
  | nil => rfl
  | cons e es ih =>
    have hrest := ih fun e' he' => hentries e' (by simp [he'])
    rw [findEntry]
    split_ifs
    · have := h.equal_isSome hx (hentries e (by simp))
      split
      · next heq =>
        rw [heq] at this
        contradiction
      · rfl
      · exact hrest
    · exact hrest

/-- Ranks stay when types are given other LLVM types, but for the unset placeholders. -/
theorem Ranked.of_same (h : tm.Ranked rank) (hlength : tm'.heap.length = tm.heap.length)
    (hkinds : ∀ x, (tm'.obj x).map (·.kind) = (tm.obj x).map (·.kind))
    (hunset : ∀ x, tm'.IsUnset x ↔ tm.IsUnset x)
    (htypes : ∀ x, tm.IsUnset x → tm'.typeOf x = tm.typeOf x) : tm'.Ranked rank := by
  have hkind : ∀ x o', tm'.obj x = some o' → ∃ o, tm.obj x = some o ∧ o.kind = o'.kind := by
    intro x o' ho'
    have := hkinds x
    rw [ho', Option.map_some] at this
    exact Option.map_eq_some_iff.mp this.symm
  constructor
  · intro x o' ho' y hy
    obtain ⟨o, ho, hk⟩ := hkind x o' ho'
    rw [hlength]
    exact h.component x o ho y (hk ▸ hy)
  · intro x o' ho'
    obtain ⟨o, ho, hk⟩ := hkind x o' ho'
    rw [← hk, hunset]
    exact h.complete x o ho
  · intro p q hp hq heq
    rw [hunset] at hp hq
    rw [htypes p hp, htypes q hq] at heq
    exact h.distinct p q hp hq heq
  · rw [hlength]
    exact h.bounded

theorem Rehashed.ranked (h : Rehashed tm tm') (hr : tm.Ranked rank) : tm'.Ranked rank := by
  rw [h.eq]
  exact hr.of_same rfl (fun _ => rfl) (fun _ => Iff.rfl) fun _ _ => rfl

theorem Ranked.removeAnonType_isSome (h : tm.Ranked rank) (hentries : tm.EntriesExist)
    {x : BtypeRef} (hx : x < tm.heap.length) : (tm.removeAnonType x).isSome := by
  obtain ⟨r, hr⟩ := Option.isSome_iff_exists.mp (h.findAnon_isSome hentries hx)
  rw [removeAnonType, hr]
  cases r <;> rfl

theorem Ranked.reinstallAnonType_isSome (h : tm.Ranked rank) (hentries : tm.EntriesExist)
    {x : BtypeRef} (hx : x < tm.heap.length) : (tm.reinstallAnonType x).isSome := by
  obtain ⟨r, hr⟩ := Option.isSome_iff_exists.mp (h.findAnon_isSome hentries hx)
  obtain ⟨o, ho⟩ := Option.isSome_iff_exists.mp ((obj_isSome_iff tm x).mpr hx)
  rw [reinstallAnonType, hr, Option.bind_eq_bind, Option.bind_some]
  cases r with
  | some y => rfl
  | none =>
    rw [insertAnon, ho, Option.bind_eq_bind, Option.bind_some, hr]
    rfl

/-- A type that points to something has its LLVM type changed without failing. -/
theorem Ranked.concretize_isSome (h : tm.Ranked rank) (hentries : tm.EntriesExist)
    {x y : BtypeRef} {o : BtypeObject} (ho : tm.obj x = some o) (hk : o.kind = .pointer (some y))
    (t : LType) : (tm.concretize x t).isSome := by
  have hx : x < tm.heap.length := (obj_isSome_iff tm x).mp (ho ▸ rfl)
  obtain ⟨⟨wasHashed, tm₁⟩, hremove⟩ :=
    Option.isSome_iff_exists.mp (h.removeAnonType_isSome hentries hx)
  obtain ⟨hrehash, hsub⟩ := removeAnonType_spec hremove
  rw [concretize, hremove, Option.bind_eq_bind, Option.bind_some]
  dsimp only
  split_ifs
  · have hobj : ∀ z, tm₁.obj z = tm.obj z := by
      intro z
      rw [hrehash.eq]
      rfl
    have hlength : tm₁.heap.length = tm.heap.length := by rw [hrehash.eq]
    have hnot : ¬tm₁.IsUnset x := by
      rintro ⟨-, o', ho', -, hk'⟩
      rw [hobj] at ho'
      rw [← Option.some.inj (ho.symm.trans ho'), hk] at hk'
      cases hk'
    have hother : ∀ z, z ≠ x → (tm₁.update x fun o =>
        { o with type := t, isPlaceholder := false }).obj z = tm₁.obj z :=
      fun z hz => obj_update_ne _ hz.symm _
    refine Ranked.reinstallAnonType_isSome (?_ : Ranked _ rank) ?_ ?_
    · apply (hrehash.ranked h).of_same (length_update ..)
      · intro z
        by_cases hz : z = x
        · rw [hz, obj_update_self, Option.map_map]
          rfl
        · rw [hother z hz]
      · intro z
        by_cases hz : z = x
        · rw [hz]
          apply iff_of_false _ hnot
          rintro ⟨-, o', ho', hp, -⟩
          rw [obj_update_self, hobj, ho] at ho'
          rw [← Option.some.inj ho'] at hp
          cases hp
        · rw [IsUnset, hother z hz]
          exact Iff.rfl
      · intro z hz
        rw [typeOf, hother z fun heq => hnot (heq ▸ hz), typeOf]
    · intro e he
      rw [length_update, hlength]
      exact hentries e (hsub e he)
    · rw [length_update, hlength]
      exact hx
  · rfl

theorem Advances.isUnset_obj (ha : Advances tm tm') {x : BtypeRef} (hx : tm.IsUnset x) :
    tm'.obj x = tm.obj x := by
  apply ha.kept x
  by_contra hn
  push Not at hn
  obtain ⟨o, y, t, ho, hk, -⟩ := ha.resolved x hn.1 (by simpa using hn.2)
  have hnone := hx.toType
  rw [toType_of_obj ho hk] at hnone
  cases hnone

theorem Advances.ranked (ha : Advances tm tm') (h : tm.Ranked rank) : tm'.Ranked rank := by
  have hplaceholders : tm'.placeholders = tm.placeholders := by rw [ha.rest]
  apply h.of_same ha.length
  · intro x
    by_cases hor : ¬tm.isPlaceholder x ∨ tm'.isPlaceholder x
    · rw [ha.kept x hor]
    · push Not at hor
      obtain ⟨o, y, t, ho, -, -, -, ho'⟩ := ha.resolved x hor.1 (by simpa using hor.2)
      rw [ho, ho']
      rfl
  · intro x
    constructor
    · intro hx
      have hflag := isPlaceholder_of_unresolved hx.unresolved
      rw [IsUnset, ← ha.kept x (.inr hflag), ← hplaceholders]
      exact hx
    · intro hx
      rw [IsUnset, ha.isUnset_obj hx, hplaceholders]
      exact hx
  · intro x hx
    rw [typeOf, ha.isUnset_obj hx, typeOf]

theorem Advances.entriesExist (ha : Advances tm tm') (h : tm.EntriesExist) :
    tm'.EntriesExist := by
  intro e he
  rw [ha.length]
  rcases ha.entries e he with he | ⟨-, hflag⟩
  · exact h e he
  · obtain ⟨o, ho, -⟩ := isPlaceholder_iff.mp hflag
    exact (obj_isSome_iff tm e.1).mp (ho ▸ rfl)

/-- What waits for a type ranks above it, so the recursion ends. -/
theorem postProcessWithin_isSome (fuel : ℕ) : ∀ {tm : TypeManager} {b : BtypeRef},
    tm.Ranked rank → tm.Linked → tm.EntriesExist → ¬tm.isPlaceholder b → b < tm.heap.length →
    tm.heap.length ≤ rank b + fuel → (postProcessWithin fuel tm b).isSome := by
  induction fuel with
  | zero =>
    intro tm b h _ _ _ hb hfuel
    exact (Nat.not_lt_of_le hfuel (h.bounded b hb)).elim
  | succ fuel ih =>
    intro tm b h hl hentries hnot hb hfuel
    rw [postProcessWithin]
    generalize hrefs : tm.placeholderRefs b = l
    have hsub : ∀ x ∈ l, x ∈ tm.placeholderRefs b := fun x hx => hrefs ▸ hx
    clear hrefs
    induction l generalizing tm with
    | nil => rfl
    | cons r l ihl =>
      rw [List.foldlM_cons]
      have hfirst : ∃ tm₁, (if tm.isPlaceholder r then
          (tm.postProcessReference r b).bind fun tm =>
            if tm.isPlaceholder r then some tm else postProcessWithin fuel tm r
          else some tm) = some tm₁ ∧ Advances tm tm₁ := by
        split_ifs with hr
        · obtain ⟨o, ho, hk⟩ := hl b r (hsub r (by simp)) hr
          have hrank : rank b < rank r := (h.component r o ho b (by simp [hk, BtypeKind.components])).2
          obtain ⟨ob, hob⟩ := Option.isSome_iff_exists.mp ((obj_isSome_iff tm b).mpr hb)
          obtain ⟨tm₂, href⟩ : ∃ tm₂, tm.postProcessReference r b = some tm₂ := by
            apply Option.isSome_iff_exists.mp
            rw [postProcessReference, ho, Option.bind_eq_bind, Option.bind_some, hk]
            dsimp only
            rw [postProcessResolvedPointerPlaceholder, typeOf, hob]
            exact h.concretize_isSome hentries ho hk _
          obtain ⟨ha, hnot', -⟩ := postProcessReference_spec hl hnot (hsub r (by simp)) hr href
          rw [href, Option.bind_some, if_neg hnot']
          have hlength := ha.length
          obtain ⟨tm₃, hrec⟩ := Option.isSome_iff_exists.mp (ih (ha.ranked h) (ha.linked hl)
            (ha.entriesExist hentries) hnot'
            (hlength ▸ (obj_isSome_iff tm r).mp (ho ▸ rfl))
            (by rw [hlength]; exact hfuel.trans (by omega)))
          exact ⟨tm₃, hrec, ha.trans (postProcessWithin_spec fuel (ha.linked hl) hnot' hrec).1⟩
        · exact ⟨tm, rfl, .refl tm⟩
      obtain ⟨tm₁, heq, ha⟩ := hfirst
      rw [heq]
      exact ihl (ha.ranked h) (ha.linked hl) (ha.entriesExist hentries)
        (ha.not_isPlaceholder hnot) (ha.length ▸ hb) (ha.length ▸ hfuel)
        fun x hx => ha.refs ▸ hsub x (by simp [hx])

/-- An unset placeholder is not in the hash table, nor is anything that equals it. -/
theorem Sound.findAnon_unset (h : tm.Sound) {p : BtypeRef} (hp : tm.IsUnset p) :
    tm.findAnon p = some none := by
  obtain ⟨-, o, ho, hflag, hk⟩ := hp
  rw [findAnon, ho, Option.bind_eq_bind, Option.bind_some]
  have hentries := h.entries
  generalize tm.anonTypes = es at hentries
  induction es with
  | nil => rfl
  | cons e es ih =>
    have hrest := ih fun e' he' => hentries e' (by simp [he'])
    rw [findEntry]
    split_ifs
    · obtain ⟨oe, hoe, hne⟩ := hentries e (by simp)
      have hpe : p ≠ e.1 := by
        intro heq
        rw [← heq, ho] at hoe
        rw [← Option.some.inj hoe] at hne
        exact hne hflag hk
      have hfalse : equal tm.heap p e.1 = some false := by
        rw [equal, equalWithin_ne hpe ho hoe]
        split_ifs with hkey
        · obtain ⟨t, hkt⟩ := pointer_of_flavor (k := oe.kind) (by
            rw [← (Prod.mk.inj hkey.1).1, hk]
            rfl)
          cases t with
          | none => exact (hne (hkey.2 ▸ hflag) hkt).elim
          | some s => rw [hk, hkt]; rfl
        · rfl
      rw [hfalse]
      exact hrest
    · exact hrest

theorem Redirected.isUnset {p target : BtypeRef} {t : LType} (hr : Redirected tm tm' p target t)
    {x : BtypeRef} : tm'.IsUnset x ↔ tm.IsUnset x ∧ x ≠ p := by
  constructor
  · intro hx
    have hne : x ≠ p := by
      rintro rfl
      have hnone := hx.toType
      rw [hr.toType, if_pos rfl] at hnone
      cases hnone
    have hsame := hr.still hne hx.unresolved
    refine ⟨?_, hne⟩
    rw [IsUnset, ← hsame, ← hr.placeholders]
    exact hx
  · rintro ⟨hx, hne⟩
    have hu : tm'.isUnresolvedPlaceholder x := by
      by_contra hn
      obtain ⟨y, t', hy, -⟩ := hr.pointsTo hne hx.unresolved hn
      rw [hx.toType] at hy
      cases hy
    rw [IsUnset, hr.still hne hu, hr.placeholders]
    exact hx

/-- Ranks stay when an unset placeholder is given a lower target. -/
theorem Ranked.of_redirect (h : tm.Ranked rank) {p target : BtypeRef}
    (htarget : target < tm.heap.length) (hrank : rank target < rank p)
    (hlength : tm'.heap.length = tm.heap.length)
    (hkind : ∀ x, x ≠ p → (tm'.obj x).map (·.kind) = (tm.obj x).map (·.kind))
    (hp : (tm'.obj p).map (·.kind) = some (.pointer (some target)))
    (hunset : ∀ x, tm'.IsUnset x ↔ tm.IsUnset x ∧ x ≠ p)
    (htypes : ∀ x, tm'.IsUnset x → tm'.typeOf x = tm.typeOf x) : tm'.Ranked rank := by
  have hold : ∀ x o', x ≠ p → tm'.obj x = some o' → ∃ o, tm.obj x = some o ∧ o.kind = o'.kind := by
    intro x o' hx ho'
    have := hkind x hx
    rw [ho', Option.map_some] at this
    exact Option.map_eq_some_iff.mp this.symm
  constructor
  · intro x o' ho' y hy
    rw [hlength]
    by_cases hx : x = p
    · rw [hx] at ho'
      rw [ho', Option.map_some, Option.some.injEq] at hp
      rw [hp] at hy
      obtain rfl : y = target := by simpa [BtypeKind.components] using hy
      exact ⟨htarget, hx ▸ hrank⟩
    · obtain ⟨o, ho, hk⟩ := hold x o' hx ho'
      exact h.component x o ho y (hk ▸ hy)
  · intro x o' ho'
    by_cases hx : x = p
    · rw [hx] at ho'
      rw [ho', Option.map_some, Option.some.injEq] at hp
      rw [hp]
      exact .inl rfl
    · obtain ⟨o, ho, hk⟩ := hold x o' hx ho'
      rw [← hk, hunset]
      rcases h.complete x o ho with hc | hun
      · exact .inl hc
      · exact .inr ⟨hun, hx⟩
  · intro a b ha hb heq
    rw [htypes a ha, htypes b hb] at heq
    exact h.distinct a b ((hunset a).mp ha).1 ((hunset b).mp hb).1 heq
  · rw [hlength]
    exact h.bounded

theorem Redirected.ranked {p target : BtypeRef} {t : LType} (hr : Redirected tm tm' p target t)
    (h : tm.Ranked rank) (htarget : target < tm.heap.length) (hrank : rank target < rank p) :
    tm'.Ranked rank := by
  apply h.of_redirect htarget hrank hr.length
  · intro x hx
    by_cases hor : ¬tm.isPlaceholder x ∨ tm'.isPlaceholder x
    · rw [hr.kept x hx hor]
    · push Not at hor
      obtain ⟨o, y, t, ho, -, -, -, hnew⟩ := hr.resolved x hx hor.1 (by simpa using hor.2)
      rw [ho, hnew]
      rfl
  · obtain ⟨o, -, ho⟩ := hr.placeholder
    rw [ho]
    rfl
  · exact fun x => hr.isUnset
  · intro x hx
    rw [typeOf, hr.still (hr.isUnset.mp hx).2 hx.unresolved, typeOf]

theorem Ranked.afterRetarget (h : tm.Ranked rank) {p target : BtypeRef} {t : LType}
    (hp : tm.IsUnset p) (htarget : target < tm.heap.length) (hrank : rank target < rank p) :
    (tm.retargetResolved p target t).Ranked rank := by
  obtain ⟨o, ho, -⟩ := hp.2
  have hself : (tm.retargetResolved p target t).obj p = _ := retargetResolved_self ho
  apply h.of_redirect htarget hrank retargetResolved_length
  · intro x hx
    rw [retargetResolved_ne hx]
  · rw [hself]
    rfl
  · intro x
    by_cases hx : x = p
    · apply iff_of_false
      · rintro ⟨-, o', ho', hflag, -⟩
        rw [hx, hself] at ho'
        rw [← Option.some.inj ho'] at hflag
        cases hflag
      · exact fun hn => hn.2 hx
    · rw [IsUnset, retargetResolved_ne hx]
      exact (and_iff_left hx).symm
  · intro x hx
    by_cases hxp : x = p
    · obtain ⟨-, o', ho', hflag, -⟩ := hx
      rw [hxp, hself] at ho'
      rw [← Option.some.inj ho'] at hflag
      cases hflag
    · rw [typeOf, retargetResolved_ne hxp, typeOf]

theorem Sound.entriesExist (h : tm.Sound) : tm.EntriesExist := by
  intro e he
  obtain ⟨o, ho, -⟩ := h.entries e he
  exact (obj_isSome_iff tm e.1).mp (ho ▸ rfl)

/-- A call that sets an unset placeholder to a lower pointer completes. -/
theorem Ranked.setPlaceholderPointerType_isSome (h : tm.Ranked rank) (hs : tm.Sound)
    {p target : BtypeRef} {t : LType} (hp : tm.IsUnset p) (ht : tm.typeOf target = some t)
    (hptr : t.isPointerTy) (hrank : rank target < rank p) :
    (tm.setPlaceholderPointerType p target).isSome := by
  have htarget : target ≠ tm.errorType := by
    rintro rfl
    obtain ⟨o, ho, -, hn⟩ := hs.error
    rw [typeOf, ho, Option.map_some] at ht
    rw [Option.some.inj ht] at hn
    exact hn hptr
  obtain ⟨o, ho, hflag, hk⟩ := hp.2
  have hlt : p < tm.heap.length := (obj_isSome_iff tm p).mp (ho ▸ rfl)
  obtain ⟨ot, hot, -⟩ := Option.map_eq_some_iff.mp ht
  have hredirect : (tm.redirect p target t).isSome := by
    unfold redirect
    dsimp only
    rw [← retarget, retarget_unresolved hp, ← retargetResolved]
    split_ifs with hwait
    · rfl
    · apply postProcessWithin_isSome
      · exact h.afterRetarget hp ((obj_isSome_iff tm target).mp (hot ▸ rfl)) hrank
      · exact hs.retargetResolved_linked hp
      · intro e he
        rw [retargetResolved_length]
        exact hs.entriesExist e he
      · exact hp.retargetResolved
      · rw [retargetResolved_length]
        exact hlt
      · rw [retargetResolved_length]
        exact (Nat.le_succ _).trans (Nat.le_add_left _ _)
  rw [setPlaceholderPointerType, if_neg (by simp [hp.ne_errorType hs, htarget]), ht, ho,
    hs.findAnon_unset hp]
  obtain ⟨tm₁, htm₁⟩ := Option.isSome_iff_exists.mp hredirect
  simp [hptr, hp.1, hk, BtypeKind.flavor, htm₁]

end Complete

/-! ## The whole run -/

section Whole
variable {base tm tm' : TypeManager} {assign : BtypeRef → BtypeRef}

/-- No type is, through its components and the assignment, a part of itself. -/
structure AcyclicTypes (tm : TypeManager) (assign : BtypeRef → BtypeRef) : Prop where
  complete : ∀ x o, tm.obj x = some o → o.kind.isComplete ∨ tm.IsUnset x
  ranked : ∃ rank : BtypeRef → ℕ,
    (∀ x o, tm.obj x = some o → ∀ y ∈ o.kind.components,
      y < tm.heap.length ∧ rank y < rank x) ∧
    ∀ p, tm.IsUnset p → rank (assign p) < rank p

theorem PointerTargets.lt (h : base.PointerTargets assign) {p : BtypeRef} (hp : base.IsUnset p) :
    assign p < base.heap.length := by
  obtain ⟨t, ht, -⟩ := h p hp
  obtain ⟨o, ho, -⟩ := Option.map_eq_some_iff.mp ht
  exact (obj_isSome_iff base _).mp (ho ▸ rfl)

theorem AcyclicTypes.exists_ranked (h : base.AcyclicTypes assign) (hbase : base.Creating)
    (htargets : base.PointerTargets assign) : ∃ rank, base.Ranked rank ∧
      ∀ p, base.IsUnset p → rank (assign p) < rank p := by
  obtain ⟨rank, hcomponent, hassign⟩ := h.ranked
  refine ⟨countBelow base.heap.length rank, ⟨?_, h.complete, hbase.distinct, ?_⟩, ?_⟩
  · intro x o ho y hy
    obtain ⟨hlt, hrank⟩ := hcomponent x o ho y hy
    exact ⟨hlt, countBelow_lt hlt hrank⟩
  · exact fun x hx => countBelow_lt_self hx
  · exact fun p hp => countBelow_lt (htargets.lt hp) (hassign p hp)

theorem Ran.completes {rank : BtypeRef → ℕ} (htargets : base.PointerTargets assign)
    (hrank : ∀ p, base.IsUnset p → rank (assign p) < rank p) {ps : List BtypeRef} :
    ∀ {before late : List BtypeRef} {tm : TypeManager}, Ran base assign before late tm →
      tm.Ranked rank → (∀ p ∈ ps, base.IsUnset p ∧ p ∉ before) → ps.Nodup →
      (setPlaceholders assign tm ps).isSome := by
  induction ps with
  | nil => exact fun _ _ _ _ => rfl
  | cons p ps ih =>
    intro before late tm h hr hps hnodup
    obtain ⟨hp, hnew⟩ := hps p (by simp)
    obtain ⟨hpps, hnodup⟩ := List.nodup_cons.mp hnodup
    obtain ⟨t, ht, hptr⟩ := h.target_type htargets hp
    obtain ⟨⟨b, tm₁⟩, hcall⟩ := Option.isSome_iff_exists.mp
      (hr.setPlaceholderPointerType_isSome h.sound (h.isUnset hp hnew) ht hptr (hrank p hp))
    have hspec := setPlaceholderPointerType_spec h.sound (h.isUnset hp hnew) ht hptr hcall
    rw [setPlaceholders, hcall]
    apply ih (h.step hp hnew ht hptr hspec)
      (hspec.ranked hr (h.length ▸ htargets.lt hp) (hrank p hp)) _ hnodup
    intro q hq
    refine ⟨(hps q (by simp [hq])).1, fun hmem => ?_⟩
    rcases List.mem_cons.mp hmem with rfl | hmem
    · exact hpps hq
    · exact (hps q (by simp [hq])).2 hmem

/-- If no order is to matter, no placeholder may be set to a type that waits. -/
theorem inOrder_of_every_order (hbase : base.Prepared) {calls : List BtypeRef}
    (hall : ∀ p, p ∈ calls ↔ base.IsUnset p) :
    (∀ ps, ps.Perm calls → base.InOrder assign [] ps) ↔
      ∀ p, base.IsUnset p → ¬base.isUnresolvedPlaceholder (assign p) := by
  constructor
  · intro h p hp hu
    -- set `p` before anything else
    obtain ⟨q, hq⟩ := hbase.restsOn _ hu
    have := h _ (List.perm_cons_erase ((hall p).mpr hp)).symm
    exact List.not_mem_nil (this.1 q hq)
  · intro h ps hperm
    have hunset : ∀ p ∈ ps, base.IsUnset p := fun p hp => (hall p).mp (hperm.mem_iff.mp hp)
    clear hperm
    generalize ([] : List BtypeRef) = before
    induction ps generalizing before with
    | nil => trivial
    | cons p ps ih =>
      refine ⟨fun q hq => ?_, ih (fun r hr => hunset r (by simp [hr])) _⟩
      cases hq with
      | self hun => exact (h p (hunset p (by simp)) hun.unresolved).elim
      | pointer hu _ _ => exact (h p (hunset p (by simp)) hu).elim

/-- The LLVM types that placeholder pointers and the pointers to them end up with, for
any order of the calls. -/
theorem setPlaceholders_intended_iff {start : TypeManager} (hstart : start.Settled)
    {ops : List Creation} (hcreate : start.create ops = some base)
    (htargets : base.PointerTargets assign) (hacyclic : base.AcyclicAssignment assign)
    {calls : List BtypeRef} (hnodup : calls.Nodup) (hall : ∀ p, p ∈ calls ↔ base.IsUnset p) :
    (∀ tm', setPlaceholders assign base calls = some tm' →
      (base.EndsAsIntended assign tm' ↔ base.InOrder assign [] calls)) ∧
    (base.AcyclicTypes assign → ∃ tm', setPlaceholders assign base calls = some tm') ∧
    ((∀ ps, ps.Perm calls → base.InOrder assign [] ps) ↔
      ∀ p, base.IsUnset p → ¬base.isUnresolvedPlaceholder (assign p)) := by
  have hbase := hstart.creating.create hcreate
  refine ⟨?_, ?_, inOrder_of_every_order hbase.toPrepared hall⟩
  · intro tm' hrun
    exact endsAsIntended_iff_inOrder hbase.toPrepared hacyclic htargets hnodup hall hrun
  · intro htypes
    obtain ⟨rank, hranked, hassign⟩ := htypes.exists_ranked hbase htargets
    exact Option.isSome_iff_exists.mp ((Ran.refl hbase.toSound).completes htargets hassign hranked
      (fun p hp => ⟨(hall p).mp hp, by simp⟩) hnodup)

end Whole

/-! ## Two placeholders, one set to the other -/

theorem settled_new (address : BtypeRef → ℕ) : (newManager address).Settled where
  resolved := by
    rintro (_ | _ | _ | x) hx
    · cases hx
    · cases hx
    · cases hx
    · cases hx
  refs := fun _ _ hx => nomatch hx
  error := ⟨_, rfl, Bool.false_ne_true, Bool.false_ne_true⟩
  entries := by
    intro e he
    have he' : e.1 = 2 ∨ e.1 = 1 := by
      rcases List.mem_cons.mp he with rfl | he
      · exact .inl rfl
      rcases List.mem_cons.mp he with rfl | he
      · exact .inr rfl
      · cases he
    rcases he' with he' | he'
    · exact he' ▸ Nat.lt_add_one 2
    · exact he' ▸ Nat.one_lt_succ_succ 1

/-- With two placeholders, `p` at 3 and `q` at 4. -/
def twoPlaceholders : TypeManager :=
  { newManager id with
    heap := (newManager id).heap ++ [⟨"p", ptr (.structRef 1), true, .pointer none⟩,
      ⟨"q", ptr (.structRef 2), true, .pointer none⟩]
    nextOpaque := 3
    placeholders := [4, 3] }

theorem create_eq : (newManager id).create [.placeholder "p", .placeholder "q"] =
    some twoPlaceholders := rfl

/-- `q` is to be the string type, and `p` the same as `q`. -/
def pToQ (x : BtypeRef) : BtypeRef := if x = 3 then 4 else 2

theorem twoPlaceholders_unset (p : BtypeRef) : p ∈ [4, 3] ↔ twoPlaceholders.IsUnset p := by
  constructor
  · intro hp
    have hp' : p = 4 ∨ p = 3 := by simpa using hp
    rcases hp' with rfl | rfl
    · exact ⟨hp, _, rfl, rfl, rfl⟩
    · exact ⟨hp, _, rfl, rfl, rfl⟩
  · exact fun h => h.1

theorem twoPlaceholders_restsOn {q : BtypeRef} :
    ¬twoPlaceholders.RestsOn 2 q ∧ (twoPlaceholders.RestsOn 4 q → q = 4) := by
  constructor
  · intro h
    cases h with
    | self hun => exact absurd ((twoPlaceholders_unset 2).mpr hun) (by decide)
    | pointer hu _ _ => cases hu
  · intro h
    cases h with
    | self _ => rfl
    | pointer _ hy _ => cases hy

/-- Setting `q` first gives both the LLVM type of a string. -/
theorem twoPlaceholders_inOrder :
    ∃ tm', setPlaceholders pToQ twoPlaceholders [4, 3] = some tm' ∧
      twoPlaceholders.EndsAsIntended pToQ tm' := by
  have hunset : ∀ p, twoPlaceholders.IsUnset p → p = 4 ∨ p = 3 :=
    fun p hp => by simpa using (twoPlaceholders_unset p).mpr hp
  obtain ⟨tm', hrun⟩ := Option.isSome_iff_exists.mp
    (show (setPlaceholders pToQ twoPlaceholders [4, 3]).isSome by decide)
  refine ⟨tm', hrun, ?_⟩
  apply ((setPlaceholders_intended_iff (settled_new id) create_eq ?_ ?_ (by decide)
    twoPlaceholders_unset).1 tm' hrun).mpr
  · exact ⟨fun q hq => (twoPlaceholders_restsOn.1 hq).elim,
      fun q hq => List.mem_singleton.mpr (twoPlaceholders_restsOn.2 hq), trivial⟩
  · intro p hp
    rcases hunset p hp with rfl | rfl
    · exact ⟨_, rfl, rfl⟩
    · exact ⟨_, rfl, rfl⟩
  · refine ⟨fun x => if x = 3 then 1 else 0, fun p hp q hq => ?_⟩
    rcases hunset p hp with rfl | rfl
    · exact (twoPlaceholders_restsOn.1 hq).elim
    · rw [twoPlaceholders_restsOn.2 hq]
      decide

/-- Setting `p` first gives it one pointer more than `q`. -/
theorem setPlaceholders_not_same_type :
    ((setPlaceholders pToQ twoPlaceholders [4, 3]).bind (·.typeOf 3) = some (ptr (.int 8)) ∧
      (setPlaceholders pToQ twoPlaceholders [4, 3]).bind (·.typeOf 4) = some (ptr (.int 8))) ∧
    (setPlaceholders pToQ twoPlaceholders [3, 4]).bind (·.typeOf 3) = some (ptr (ptr (.int 8))) ∧
      (setPlaceholders pToQ twoPlaceholders [3, 4]).bind (·.typeOf 4) = some (ptr (.int 8)) :=
  ⟨⟨by decide, by decide⟩, by decide, by decide⟩

end TypeManager
end Dragongo
