import Dragongo.TypeManager

/-!
# What resolving a placeholder does

One call of `postProcessResolvedPlaceholder` in a manager whose waiting types are all
pointers: what was resolved stays as it was, what gets resolved points to the LLVM type
of its target, and nothing that waited for something newly resolved is left waiting.
-/

namespace Dragongo
open LType

namespace TypeManager

/-! ## Reading the heap after an update -/

theorem obj_update (tm : TypeManager) (x y : BtypeRef) (f : BtypeObject → BtypeObject) :
    (tm.update x f).obj y = if x = y then (tm.obj y).map f else tm.obj y := by
  unfold obj update
  rw [List.getElem?_modify]
  split_ifs
  · rfl
  · simp

theorem obj_update_self (tm : TypeManager) (x : BtypeRef) (f : BtypeObject → BtypeObject) :
    (tm.update x f).obj x = (tm.obj x).map f := by
  rw [obj_update, if_pos rfl]

theorem obj_update_ne (tm : TypeManager) {x y : BtypeRef} (h : x ≠ y)
    (f : BtypeObject → BtypeObject) : (tm.update x f).obj y = tm.obj y := by
  rw [obj_update, if_neg h]

theorem length_update (tm : TypeManager) (x : BtypeRef) (f : BtypeObject → BtypeObject) :
    (tm.update x f).heap.length = tm.heap.length := List.length_modify ..

theorem obj_isSome_iff (tm : TypeManager) (x : BtypeRef) :
    (tm.obj x).isSome ↔ x < tm.heap.length := by
  simp [obj]

theorem mem_addRef {tm : TypeManager} {b r x y : BtypeRef} :
    y ∈ (tm.addRef b r).placeholderRefs x ↔ y ∈ tm.placeholderRefs x ∨ (x = b ∧ y = r) := by
  simp only [addRef]
  by_cases hx : x = b
  · by_cases hr : r ∈ tm.placeholderRefs x
    · rw [if_pos hx, if_pos hr]
      constructor
      · exact Or.inl
      · rintro (h | ⟨-, rfl⟩)
        · exact h
        · exact hr
    · rw [if_pos hx, if_neg hr, List.mem_orderedInsert]
      tauto
  · rw [if_neg hx]
    tauto

theorem isPlaceholder_iff {tm : TypeManager} {x : BtypeRef} :
    tm.isPlaceholder x ↔ ∃ o, tm.obj x = some o ∧ o.isPlaceholder := by
  simp [isPlaceholder, Option.any_eq_true]

theorem isUnresolvedPlaceholder_iff {tm : TypeManager} {x : BtypeRef} :
    tm.isUnresolvedPlaceholder x ↔ ∃ o, tm.obj x = some o ∧ o.isUnresolvedPlaceholder := by
  simp [isUnresolvedPlaceholder, Option.any_eq_true]

/-! ## The hash table -/

/-- Only the hash table and the list of duplicates have changed. -/
structure Rehashed (tm tm' : TypeManager) : Prop where
  eq : tm' = { tm with anonTypes := tm'.anonTypes, duplicates := tm'.duplicates }

theorem removeAnonType_spec {tm tm' : TypeManager} {x : BtypeRef} {b : Bool}
    (h : tm.removeAnonType x = some (b, tm')) :
    Rehashed tm tm' ∧ ∀ e ∈ tm'.anonTypes, e ∈ tm.anonTypes := by
  obtain ⟨r, -, h⟩ := Option.bind_eq_some_iff.mp h
  cases r with
  | none =>
    obtain ⟨-, rfl⟩ := Prod.mk.inj (Option.some.inj h)
    exact ⟨⟨rfl⟩, fun e he => he⟩
  | some y =>
    obtain ⟨-, rfl⟩ := Prod.mk.inj (Option.some.inj h)
    exact ⟨⟨rfl⟩, fun e he => (List.mem_filter.mp he).1⟩

theorem insertAnon_spec {tm tm' : TypeManager} {x : BtypeRef} (h : tm.insertAnon x = some tm') :
    Rehashed tm tm' ∧ ∀ e ∈ tm'.anonTypes, e ∈ tm.anonTypes ∨
      e.1 = x ∧ ∃ o, tm'.obj x = some o ∧ e.2 = o.key := by
  obtain ⟨o, ho, h⟩ := Option.bind_eq_some_iff.mp h
  obtain ⟨r, -, h⟩ := Option.bind_eq_some_iff.mp h
  cases r with
  | none =>
    obtain rfl := Option.some.inj h
    refine ⟨⟨rfl⟩, fun e he => ?_⟩
    rcases List.mem_cons.mp he with rfl | he
    · exact .inr ⟨rfl, o, ho, rfl⟩
    · exact .inl he
  | some y =>
    obtain rfl := Option.some.inj h
    exact ⟨⟨rfl⟩, fun e he => .inl he⟩

theorem reinstallAnonType_spec {tm tm' : TypeManager} {x : BtypeRef}
    (h : tm.reinstallAnonType x = some tm') :
    Rehashed tm tm' ∧ ∀ e ∈ tm'.anonTypes, e ∈ tm.anonTypes ∨
      e.1 = x ∧ ∃ o, tm'.obj x = some o ∧ e.2 = o.key := by
  obtain ⟨r, -, h⟩ := Option.bind_eq_some_iff.mp h
  cases r with
  | none => exact insertAnon_spec h
  | some y =>
    obtain rfl := Option.some.inj h
    exact ⟨⟨rfl⟩, fun e he => .inl he⟩

theorem concretize_spec {tm tm' : TypeManager} {x : BtypeRef} {t : LType}
    (h : tm.concretize x t = some tm') :
    Rehashed (tm.update x fun o => { o with type := t, isPlaceholder := false }) tm' ∧
      ∀ e ∈ tm'.anonTypes, e ∈ tm.anonTypes ∨
        e.1 = x ∧ ∃ o, tm'.obj x = some o ∧ e.2 = o.key := by
  obtain ⟨⟨wasHashed, tm₁⟩, hremove, h⟩ := Option.bind_eq_some_iff.mp h
  obtain ⟨hrehash, hentries⟩ := removeAnonType_spec hremove
  have hupdate : Rehashed (tm.update x fun o => { o with type := t, isPlaceholder := false })
      (tm₁.update x fun o => { o with type := t, isPlaceholder := false }) := by
    constructor
    rw [hrehash.eq]
    rfl
  dsimp only at h
  split_ifs at h
  · obtain ⟨hrehash', hentries'⟩ := reinstallAnonType_spec h
    constructor
    · constructor
      rw [hrehash'.eq, hupdate.eq]
    · intro e he
      rcases hentries' e he with he | he
      · exact .inl (hentries e he)
      · exact .inr he
  · obtain rfl := Option.some.inj h
    exact ⟨hupdate, fun e he => .inl (hentries e he)⟩

/-! ## The cascade -/

/-- Every type that waits for `y` is a pointer to it. -/
def Linked (tm : TypeManager) : Prop :=
  ∀ y, ∀ x ∈ tm.placeholderRefs y, tm.isPlaceholder x →
    ∃ o, tm.obj x = some o ∧ o.kind = .pointer (some y)

/-- Some pointers have been resolved, each to a pointer to the LLVM type of its target;
everything else is as before. -/
structure Advances (tm tm' : TypeManager) : Prop where
  rest : tm' = { tm with
    heap := tm'.heap, anonTypes := tm'.anonTypes, duplicates := tm'.duplicates }
  length : tm'.heap.length = tm.heap.length
  kept : ∀ x, (¬tm.isPlaceholder x ∨ tm'.isPlaceholder x) → tm'.obj x = tm.obj x
  resolved : ∀ x, tm.isPlaceholder x → ¬tm'.isPlaceholder x → ∃ o y t, tm.obj x = some o ∧
    o.kind = .pointer (some y) ∧ ¬tm'.isPlaceholder y ∧ tm'.typeOf y = some t ∧
    tm'.obj x = some { o with type := ptr t, isPlaceholder := false }
  entries : ∀ e ∈ tm'.anonTypes, e ∈ tm.anonTypes ∨ ¬tm'.isPlaceholder e.1 ∧ tm.isPlaceholder e.1

namespace Advances
variable {tm tm₁ tm₂ : TypeManager}

theorem refl (tm : TypeManager) : Advances tm tm where
  rest := rfl
  length := rfl
  kept := fun _ _ => rfl
  resolved := fun _ h h' => (h' h).elim
  entries := fun _ he => .inl he

theorem refs (h : Advances tm tm₁) : tm₁.placeholderRefs = tm.placeholderRefs := by
  rw [h.rest]

theorem isPlaceholder (h : Advances tm tm₁) {x : BtypeRef} (hx : tm₁.isPlaceholder x) :
    tm.isPlaceholder x := by
  by_contra hn
  apply hn
  rw [isPlaceholder_iff, ← h.kept x (.inl hn), ← isPlaceholder_iff]
  exact hx

theorem not_isPlaceholder (h : Advances tm tm₁) {x : BtypeRef} (hx : ¬tm.isPlaceholder x) :
    ¬tm₁.isPlaceholder x := fun hx' => hx (h.isPlaceholder hx')

theorem trans (h : Advances tm tm₁) (h' : Advances tm₁ tm₂) : Advances tm tm₂ where
  rest := by rw [h'.rest, h.rest]
  length := h'.length.trans h.length
  kept := by
    rintro x (hx | hx)
    · rw [h'.kept x (.inl (h.not_isPlaceholder hx)), h.kept x (.inl hx)]
    · rw [h'.kept x (.inr hx), h.kept x (.inr (h'.isPlaceholder hx))]
  resolved := by
    intro x hx hx₂
    by_cases hx₁ : tm₁.isPlaceholder x
    · obtain ⟨o, y, t, ho, hrest⟩ := h'.resolved x hx₁ hx₂
      exact ⟨o, y, t, (h.kept x (.inr hx₁)).symm.trans ho, hrest⟩
    · -- resolved in the first half, so nothing about it or its target changes any more
      obtain ⟨o, y, t, ho, hk, hy, ht, ho'⟩ := h.resolved x hx hx₁
      have hsame : tm₂.obj y = tm₁.obj y := h'.kept y (.inl hy)
      refine ⟨o, y, t, ho, hk, h'.not_isPlaceholder hy, ?_, ?_⟩
      · rw [typeOf, hsame]
        exact ht
      · rw [h'.kept x (.inl hx₁)]
        exact ho'
  entries := by
    intro e he
    rcases h'.entries e he with he | ⟨he₂, he₁⟩
    · rcases h.entries e he with he | ⟨he₁, he₀⟩
      · exact .inl he
      · exact .inr ⟨h'.not_isPlaceholder he₁, he₀⟩
    · exact .inr ⟨he₂, h.isPlaceholder he₁⟩

theorem linked (h : Advances tm tm₁) (hl : tm.Linked) : tm₁.Linked := by
  intro y x hx hp
  rw [h.refs] at hx
  obtain ⟨o, ho, hk⟩ := hl y x hx (h.isPlaceholder hp)
  exact ⟨o, (h.kept x (.inr hp)).trans ho, hk⟩

end Advances

/-- Nothing waits for what `tm'` has resolved and `tm` had not. -/
def Drained (tm tm' : TypeManager) : Prop :=
  ∀ y, tm.isPlaceholder y → ¬tm'.isPlaceholder y →
    ∀ x ∈ tm.placeholderRefs y, ¬tm'.isPlaceholder x

theorem Drained.trans {tm tm₁ tm₂ : TypeManager} (h : Drained tm tm₁) (h' : Drained tm₁ tm₂)
    (ha : Advances tm tm₁) (ha' : Advances tm₁ tm₂) : Drained tm tm₂ := by
  intro y hy hy₂ x hx
  by_cases hy₁ : tm₁.isPlaceholder y
  · exact h' y hy₁ hy₂ x (ha.refs ▸ hx)
  · exact ha'.not_isPlaceholder (h y hy hy₁ x hx)

/-- Resolving one pointer that waits for `b`. -/
theorem postProcessReference_spec {tm tm' : TypeManager} {x b : BtypeRef} (hl : tm.Linked)
    (hb : ¬tm.isPlaceholder b) (hx : x ∈ tm.placeholderRefs b) (hp : tm.isPlaceholder x)
    (h : tm.postProcessReference x b = some tm') :
    Advances tm tm' ∧ ¬tm'.isPlaceholder x ∧
      ∀ y, y ≠ x → tm'.isPlaceholder y = tm.isPlaceholder y := by
  obtain ⟨o, ho, hk⟩ := hl b x hx hp
  rw [postProcessReference, ho, Option.bind_eq_bind, Option.bind_some, hk] at h
  obtain ⟨t, ht, h⟩ := Option.bind_eq_some_iff.mp h
  obtain ⟨hrehash, hentries⟩ := concretize_spec h
  have hbx : b ≠ x := fun heq => hb (heq ▸ hp)
  have hobj : ∀ y, tm'.obj y =
      (tm.update x fun o => { o with type := ptr t, isPlaceholder := false }).obj y := by
    intro y
    rw [hrehash.eq]
    rfl
  have hself : tm'.obj x = some { o with type := ptr t, isPlaceholder := false } := by
    rw [hobj, obj_update_self, ho]
    rfl
  have hother : ∀ y, y ≠ x → tm'.obj y = tm.obj y := by
    intro y hy
    rw [hobj, obj_update_ne _ hy.symm]
  have hnot : ¬tm'.isPlaceholder x := by simp [isPlaceholder, hself]
  refine ⟨⟨?_, ?_, ?_, ?_, ?_⟩, hnot, ?_⟩
  · rw [hrehash.eq]
    rfl
  · rw [hrehash.eq]
    exact length_update ..
  · rintro y (hy | hy)
    · exact hother y fun heq => hy (heq ▸ hp)
    · exact hother y fun heq => hnot (heq ▸ hy)
  · intro y hy hy'
    by_cases hyx : y = x
    · subst hyx
      refine ⟨o, b, t, ho, hk, ?_, ?_, hself⟩
      · rw [isPlaceholder, hother b hbx]
        exact hb
      · rw [typeOf, hother b hbx]
        exact ht
    · rw [isPlaceholder, hother y hyx] at hy'
      exact (hy' hy).elim
  · intro e he
    rcases hentries e he with he | ⟨he, -⟩
    · exact .inl he
    · rw [he]
      exact .inr ⟨hnot, hp⟩
  · intro y hy
    rw [isPlaceholder, hother y hy, isPlaceholder]

/-- The recursion goes down the references; `l` is what is left of those of `b`. -/
theorem postProcessWithin_spec (fuel : ℕ) : ∀ {tm tm' : TypeManager} {b : BtypeRef},
    tm.Linked → ¬tm.isPlaceholder b → postProcessWithin fuel tm b = some tm' →
    Advances tm tm' ∧ Drained tm tm' ∧ ∀ x ∈ tm.placeholderRefs b, ¬tm'.isPlaceholder x := by
  induction fuel with
  | zero => exact fun _ _ h => nomatch h
  | succ fuel ih =>
    intro tm tm' b hl hb h
    rw [postProcessWithin] at h
    generalize hrefs : tm.placeholderRefs b = l at h ⊢
    have hsub : ∀ x ∈ l, x ∈ tm.placeholderRefs b := fun x hx => hrefs ▸ hx
    clear hrefs
    induction l generalizing tm with
    | nil =>
      obtain rfl := Option.some.inj h
      exact ⟨.refl _, fun y hy hy' => (hy' hy).elim, fun x hx => nomatch hx⟩
    | cons r l ihl =>
      rw [List.foldlM_cons] at h
      obtain ⟨tm₁, hstep, h⟩ := Option.bind_eq_some_iff.mp h
      have hfirst : Advances tm tm₁ ∧ Drained tm tm₁ ∧ ¬tm₁.isPlaceholder r := by
        split_ifs at hstep with hr
        · obtain ⟨tm₂, href, hstep⟩ := Option.bind_eq_some_iff.mp hstep
          obtain ⟨ha, hnot, hsame⟩ :=
            postProcessReference_spec hl hb (hsub r (by simp)) hr href
          rw [if_neg hnot] at hstep
          obtain ⟨ha', hd, hrefs⟩ := ih (ha.linked hl) hnot hstep
          refine ⟨ha.trans ha', ?_, ha'.not_isPlaceholder hnot⟩
          intro y hy hy₁ x hx
          by_cases hyr : y = r
          · rw [← ha.refs, hyr] at hx
            exact hrefs x hx
          · have hy₂ : tm₂.isPlaceholder y := by rw [hsame y hyr]; exact hy
            exact hd y hy₂ hy₁ x (ha.refs ▸ hx)
        · obtain rfl := Option.some.inj hstep
          exact ⟨.refl _, fun y hy hy' => (hy' hy).elim, hr⟩
      obtain ⟨ha, hd, hr⟩ := hfirst
      obtain ⟨ha', hd', hl'⟩ := ihl (ha.linked hl) (ha.not_isPlaceholder hb) h
        fun x hx => ha.refs ▸ hsub x (by simp [hx])
      refine ⟨ha.trans ha', hd.trans hd' ha ha', fun x hx => ?_⟩
      rcases List.mem_cons.mp hx with rfl | hx
      · exact ha'.not_isPlaceholder hr
      · exact hl' x hx

end TypeManager
end Dragongo
