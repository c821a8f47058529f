import Dragongo.TypeCalls

/-!
# What a resolution leaves as it was

The cascade behind a placeholder that is set touches only types that were flagged, and
these only by giving them an LLVM type and taking the flag away.  So every reachable
heap is regular.
-/

namespace Dragongo
open LType

namespace TypeManager
open Relation

/-- Some flagged types have been given LLVM types. -/
structure Settles (tm tm' : TypeManager) : Prop where
  rest : tm' = { tm with
    heap := tm'.heap, bodies := tm'.bodies, anonTypes := tm'.anonTypes, duplicates := tm'.duplicates }
  length : tm'.heap.length = tm.heap.length
  object : ∀ x o, tm.obj x = some o → tm'.obj x = some o ∨ o.isPlaceholder ∧
    o.kind.flavor ≠ .auxT ∧ ∃ t, tm'.obj x = some { o with type := t, isPlaceholder := false } ∧
      (o.kind.flavor = .structT → t = o.type)
  waited : ∀ x, (∀ y, x ∉ tm.placeholderRefs y) → tm'.obj x = tm.obj x
  bodies : ∀ id ts, tm.bodies id = some ts → tm'.bodies id = some ts
  entries : ∀ e ∈ tm'.anonTypes, e ∈ tm.anonTypes ∨
    ∃ o, tm'.obj e.1 = some o ∧ ¬o.isPlaceholder ∧ e.2 = o.key
  known : (∀ x t, tm.typeOf x = some t → tm.knows t) → ∀ x t, tm'.typeOf x = some t → tm'.knows t

namespace Settles
variable {tm tm₁ tm₂ : TypeManager}

theorem refl (tm : TypeManager) : Settles tm tm :=
  ⟨rfl, rfl, fun _ _ ho => .inl ho, fun _ _ => rfl, fun _ _ h => h, fun _ he => .inl he, fun h => h⟩

theorem trans (h : Settles tm tm₁) (h' : Settles tm₁ tm₂) : Settles tm tm₂ where
  rest := by rw [h'.rest, h.rest]
  length := h'.length.trans h.length
  object := by
    intro x o ho
    rcases h.object x o ho with ho₁ | ⟨hp, haux, t, ho₁, hs⟩
    · exact h'.object x o ho₁
    · -- no longer flagged, so it stays as it is
      rcases h'.object x _ ho₁ with ho₂ | ⟨hp', -⟩
      · exact .inr ⟨hp, haux, t, ho₂, hs⟩
      · exact (Bool.false_ne_true hp').elim
  waited := by
    intro x hx
    rw [h'.waited x, h.waited x hx]
    rw [h.rest]
    exact hx
  bodies := fun id ts hid => h'.bodies id ts (h.bodies id ts hid)
  entries := by
    intro e he
    rcases h'.entries e he with he | hnew
    · rcases h.entries e he with he | ⟨o, ho, hp, hkey⟩
      · exact .inl he
      · exact .inr ⟨o, (h'.object e.1 o ho).resolve_right fun h => hp h.1, hp, hkey⟩
    · exact .inr hnew
  known := fun hk => h'.known (h.known hk)

theorem errorType (h : Settles tm tm₁) : tm₁.errorType = tm.errorType := by rw [h.rest]

theorem placeholderRefs (h : Settles tm tm₁) : tm₁.placeholderRefs = tm.placeholderRefs := by
  rw [h.rest]

theorem placeholders (h : Settles tm tm₁) : tm₁.placeholders = tm.placeholders := by rw [h.rest]

/-- A type that is not flagged is as it was. -/
theorem kept (h : Settles tm tm₁) {x : BtypeRef} {o : BtypeObject} (ho : tm.obj x = some o)
    (hp : ¬o.isPlaceholder) : tm₁.obj x = some o :=
  (h.object x o ho).resolve_right fun h => hp h.1

theorem obj_back (h : Settles tm tm₁) {x : BtypeRef} {o : BtypeObject} (ho : tm₁.obj x = some o) :
    ∃ o', tm.obj x = some o' ∧ o.kind = o'.kind ∧ o.name = o'.name ∧ (o.isPlaceholder → o = o') ∧
      (o'.kind.flavor = .structT → o.type = o'.type) := by
  obtain ⟨o', ho'⟩ := Option.isSome_iff_exists.mp ((obj_isSome_iff tm x).mpr (h.length ▸ obj_lt ho))
  refine ⟨o', ho', ?_⟩
  rcases h.object x o' ho' with h₁ | ⟨-, -, t, h₁, hs⟩
  · obtain rfl := Option.some.inj (ho.symm.trans h₁)
    exact ⟨rfl, rfl, fun _ => rfl, fun _ => rfl⟩
  · obtain rfl := Option.some.inj (ho.symm.trans h₁)
    exact ⟨rfl, rfl, fun hp => (Bool.false_ne_true hp).elim, hs⟩

theorem regular (h : Settles tm tm₁) (hr : tm.Regular) : tm₁.Regular where
  closed := by
    intro x o ho y hy
    obtain ⟨o', ho', hk, -⟩ := h.obj_back ho
    rw [h.length]
    exact hr.closed x o' ho' y (hk ▸ hy)
  structTy := by
    intro x o ho hk
    obtain ⟨o', ho', hkind, -, -, ht⟩ := h.obj_back ho
    rw [hkind] at hk
    rw [ht hk]
    exact hr.structTy x o' ho' hk
  known := h.known hr.known
  entries := by
    intro e he
    rw [h.length]
    rcases h.entries e he with he | ⟨o, ho, -⟩
    · exact hr.entries e he
    · exact h.length ▸ obj_lt ho
  error := by
    rw [h.errorType, h.rest]
    exact hr.error
  auxTypes := by
    intro e he
    have haux : tm₁.auxTypeMap = tm.auxTypeMap := by rw [h.rest]
    obtain ⟨o, ho, ht, hk⟩ := hr.auxTypes e (haux ▸ he)
    refine ⟨o, ?_, ht, hk⟩
    rcases hk with hk | ⟨-, hp, -⟩
    · exact (h.object e.2 o ho).resolve_right fun h => h.2.1 (by rw [hk]; rfl)
    · exact h.kept ho hp

end Settles

/-! ## The cascade -/

section Cascade
variable {tm tm' : TypeManager}

theorem concretize_settles {x y : BtypeRef} {o : BtypeObject} {t : LType} (ho : tm.obj x = some o)
    (hx : x ∈ tm.placeholderRefs y)
    (hp : o.isPlaceholder) (haux : o.kind.flavor ≠ .auxT) (hs : o.kind.flavor ≠ .structT)
    (hk : (∀ x t, tm.typeOf x = some t → tm.knows t) → tm.knows t)
    (h : tm.concretize x t = some tm') : Settles tm tm' := by
  obtain ⟨hrehash, hentries⟩ := concretize_spec h
  have hobj : ∀ y, tm'.obj y =
      (tm.update x fun o => { o with type := t, isPlaceholder := false }).obj y := by
    intro y
    rw [hrehash.eq]
    rfl
  refine ⟨?_, ?_, ?_, ?_, ?_, ?_, ?_⟩
  · rw [hrehash.eq]
    rfl
  · rw [hrehash.eq]
    exact length_update ..
  · intro y oy hy
    by_cases hxy : x = y
    · subst hxy
      obtain rfl := Option.some.inj (ho.symm.trans hy)
      refine .inr ⟨hp, haux, t, ?_, fun h => (hs h).elim⟩
      rw [hobj, obj_update_self, hy]
      rfl
    · rw [hobj, obj_update_ne _ hxy]
      exact .inl hy
  · intro z hz
    rw [hobj, obj_update_ne]
    rintro rfl
    exact hz y hx
  · intro id ts hid
    rw [hrehash.eq]
    exact hid
  · intro e he
    rcases hentries e he with he | ⟨hx, ox, hox, hkey⟩
    · exact .inl he
    · refine .inr ⟨ox, hx ▸ hox, ?_, hkey⟩
      rw [hobj, obj_update_self, ho] at hox
      obtain rfl := Option.some.inj hox
      exact Bool.false_ne_true
  · intro hknown y ty hy
    have hnext : tm'.nextOpaque = tm.nextOpaque := by
      rw [hrehash.eq]
      rfl
    apply knows_mono _ hnext.ge
    rw [typeOf, hobj] at hy
    by_cases hxy : x = y
    · subst hxy
      rw [obj_update_self, ho] at hy
      obtain rfl := Option.some.inj hy
      exact hk hknown
    · rw [obj_update_ne _ hxy] at hy
      exact hknown y ty hy

theorem setBody_some {x : BtypeRef} {fields : List BtypedIdentifier}
    (h : tm.setBody x fields = some tm') : ∃ elems id,
      (fields.mapM fun f => tm.typeOf f.btype) = some elems ∧ tm.typeOf x = some (.structRef id) ∧
      tm.bodies id = none ∧ tm' = { tm.update x fun o => { o with isPlaceholder := false } with
        bodies := fun n => if n = id then some elems else tm.bodies n } := by
  obtain ⟨elems, helems, h⟩ := Option.bind_eq_some_iff.mp h
  obtain ⟨t, ht, h⟩ := Option.bind_eq_some_iff.mp h
  cases t with
  | structRef id =>
    dsimp only at h
    split_ifs at h with hbody
    obtain rfl := Option.some.inj h
    exact ⟨elems, id, helems, ht, hbody, rfl⟩
  | _ => cases h

theorem setBody_settles {x y : BtypeRef} {o : BtypeObject} {fields : List BtypedIdentifier}
    (ho : tm.obj x = some o) (hx : x ∈ tm.placeholderRefs y) (hp : o.isPlaceholder)
    (hs : o.kind.flavor = .structT) (h : tm.setBody x fields = some tm') : Settles tm tm' := by
  obtain ⟨elems, id, -, -, hbody, rfl⟩ := setBody_some h
  refine ⟨rfl, length_update .., ?_, ?_, ?_, fun e he => .inl he, ?_⟩
  · intro y oy hy
    by_cases hxy : x = y
    · subst hxy
      obtain rfl := Option.some.inj (ho.symm.trans hy)
      refine .inr ⟨hp, by rw [hs]; exact TyFlavor.noConfusion, o.type, ?_, fun _ => rfl⟩
      exact (obj_update_self tm x _).trans (by rw [ho]; rfl)
    · exact .inl ((obj_update_ne tm hxy _).trans hy)
  · intro z hz
    apply obj_update_ne tm
    rintro rfl
    exact hz y hx
  · intro n ts hn
    dsimp only
    by_cases hid : n = id
    · rw [hid, hbody] at hn
      cases hn
    · rw [if_neg hid]
      exact hn
  · intro hknown y ty hy
    have hold : tm.typeOf y = some ty := by
      rw [← hy, typeOf, typeOf]
      by_cases hxy : x = y
      · subst hxy
        exact ((congrArg _ (obj_update_self tm x _)).trans (by rw [Option.map_map]; rfl)).symm
      · exact (congrArg _ (obj_update_ne tm hxy _)).symm
    exact hknown y ty hold

theorem postProcessReference_settles {x b : BtypeRef} (hx : x ∈ tm.placeholderRefs b)
    (hp : tm.isPlaceholder x)
    (h : tm.postProcessReference x b = some tm') : Settles tm tm' := by
  obtain ⟨o, ho, hflag⟩ := isPlaceholder_iff.mp hp
  rw [postProcessReference, ho, Option.bind_eq_bind, Option.bind_some] at h
  have htarget : ∀ t u, tm.typeOf b = some t → u.base = t.base →
      (∀ x t, tm.typeOf x = some t → tm.knows t) → tm.knows u :=
    fun t u ht hu hk id hid => hk b t ht id (hu ▸ hid)
  cases hk : o.kind with
  | pointer s =>
    rw [hk] at h
    obtain ⟨t, ht, h⟩ := Option.bind_eq_some_iff.mp h
    exact concretize_settles ho hx hflag (by rw [hk]; exact TyFlavor.noConfusion)
      (by rw [hk]; exact TyFlavor.noConfusion) (htarget t (ptr t) ht rfl) h
  | array e n =>
    rw [hk] at h
    obtain ⟨asize, -, h⟩ := Option.bind_eq_some_iff.mp h
    obtain ⟨t, ht, h⟩ := Option.bind_eq_some_iff.mp h
    exact concretize_settles ho hx hflag (by rw [hk]; exact TyFlavor.noConfusion)
      (by rw [hk]; exact TyFlavor.noConfusion) (htarget t (.array t asize) ht rfl) h
  | struct fields =>
    rw [hk] at h
    dsimp only [postProcessResolvedStructPlaceholder] at h
    split_ifs at h
    · obtain rfl := Option.some.inj h
      exact .refl _
    · exact setBody_settles ho hx hflag (by rw [hk]; rfl) h
  | function r ps rs t c =>
    rw [hk] at h
    dsimp only [postProcessResolvedFunctionPlaceholder] at h
    split_ifs at h
    obtain ⟨pts, -, h⟩ := Option.bind_eq_some_iff.mp h
    obtain ⟨rt, -, h⟩ := Option.bind_eq_some_iff.mp h
    exact concretize_settles (t := .func rt pts) ho hx hflag (by rw [hk]; exact TyFlavor.noConfusion)
      (by rw [hk]; exact TyFlavor.noConfusion) (fun _ _ hid => absurd hid (Option.some_ne_none _).symm) h
  | _ =>
    rw [hk] at h
    cases h

theorem postProcessWithin_settles (fuel : ℕ) : ∀ {tm tm' : TypeManager} {b : BtypeRef},
    postProcessWithin fuel tm b = some tm' → Settles tm tm' := by
  induction fuel with
  | zero => exact fun h => nomatch h
  | succ fuel ih =>
    intro tm tm' b h
    rw [postProcessWithin] at h
    -- `l` is what is left of the references of `b`
    have hall : ∀ l : List BtypeRef, (∀ r ∈ l, r ∈ tm.placeholderRefs b) →
        ∀ tm₀, tm₀.placeholderRefs = tm.placeholderRefs →
        (l.foldlM (fun tm refType =>
          if tm.isPlaceholder refType then
            (tm.postProcessReference refType b).bind fun tm =>
              if tm.isPlaceholder refType then some tm else postProcessWithin fuel tm refType
          else some tm) tm₀) = some tm' → Settles tm₀ tm' := by
      intro l
      induction l with
      | nil =>
        intro _ tm₀ _ h
        obtain rfl := Option.some.inj h
        exact .refl _
      | cons r l ihl =>
        intro hl tm₀ hrefs h
        rw [List.foldlM_cons] at h
        obtain ⟨tm₁, hstep, h⟩ := Option.bind_eq_some_iff.mp h
        have hmem : r ∈ tm₀.placeholderRefs b := hrefs ▸ hl r (List.mem_cons_self ..)
        have hsettles : Settles tm₀ tm₁ := by
          split_ifs at hstep with hr
          · obtain ⟨tm₂, href, hstep⟩ := Option.bind_eq_some_iff.mp hstep
            have hfirst := postProcessReference_settles hmem hr href
            split_ifs at hstep
            · obtain rfl := Option.some.inj hstep
              exact hfirst
            · exact hfirst.trans (ih hstep)
          · obtain rfl := Option.some.inj hstep
            exact .refl _
        have hrest : ∀ r' ∈ l, r' ∈ tm.placeholderRefs b := fun r' hr' =>
          hl r' (List.mem_cons_of_mem _ hr')
        exact hsettles.trans (ihl hrest tm₁ (hsettles.placeholderRefs.trans hrefs) h)
    exact hall _ (fun _ hr => hr) tm rfl h

theorem postProcessResolvedPlaceholder_settles {b : BtypeRef}
    (h : tm.postProcessResolvedPlaceholder b = some tm') : Settles tm tm' :=
  postProcessWithin_settles _ h

end Cascade

/-! ## Setting a placeholder -/

section Set
variable {tm tm' : TypeManager}

theorem typeOf_of_obj {x : BtypeRef} {o : BtypeObject} (ho : tm.obj x = some o) :
    tm.typeOf x = some o.type := by
  rw [typeOf, ho]
  rfl

theorem Regular.component_lt (h : tm.Regular) {x y : BtypeRef} {o : BtypeObject}
    (ho : tm.obj x = some o) (hy : y ∈ o.kind.components) : y < tm.heap.length :=
  h.closed x o ho y hy

/-- One object may change as long as it keeps its flavor and its components are there. -/
theorem Regular.update (h : tm.Regular) {x : BtypeRef} {o : BtypeObject}
    {f : BtypeObject → BtypeObject} (ho : tm.obj x = some o)
    (hflavor : (f o).kind.flavor = o.kind.flavor)
    (hcomponents : ∀ y ∈ (f o).kind.components, y < tm.heap.length)
    (hstruct : o.kind.flavor = .structT → (f o).type = o.type)
    (hknown : tm.knows (f o).type)
    (haux : o.kind = .aux → (f o).kind = .aux ∧ (f o).type = o.type)
    (hfunction : o.kind.flavor = .functionT → f o = o) : (tm.update x f).Regular := by
  have hself : (tm.update x f).obj x = some (f o) := by
    rw [obj_update_self, ho]
    rfl
  have hback : ∀ y oy, (tm.update x f).obj y = some oy → ∃ oy', tm.obj y = some oy' ∧
      oy.kind.flavor = oy'.kind.flavor ∧ (x = y ∧ oy = f o ∨ x ≠ y ∧ oy = oy') := by
    intro y oy hy
    by_cases hxy : x = y
    · subst hxy
      obtain rfl := Option.some.inj (hself.symm.trans hy)
      exact ⟨o, ho, hflavor, .inl ⟨rfl, rfl⟩⟩
    · rw [obj_update_ne _ hxy] at hy
      exact ⟨oy, hy, rfl, .inr ⟨hxy, rfl⟩⟩
  refine ⟨?_, ?_, ?_, ?_, ?_, h.error⟩
  · intro y oy hy z hz
    rw [length_update]
    rcases hback y oy hy with ⟨oy', hy', -, ⟨rfl, rfl⟩ | ⟨-, rfl⟩⟩
    · exact hcomponents z hz
    · exact h.closed y oy hy' z hz
  · intro y oy hy hk
    rcases hback y oy hy with ⟨oy', hy', hfl, ⟨rfl, rfl⟩ | ⟨-, rfl⟩⟩
    · obtain rfl := Option.some.inj (ho.symm.trans hy')
      rw [hstruct (hfl ▸ hk)]
      exact h.structTy x o ho (hfl ▸ hk)
    · exact h.structTy y oy hy' hk
  · intro y t ht
    obtain ⟨oy, hy, rfl⟩ := Option.map_eq_some_iff.mp ht
    rcases hback y oy hy with ⟨oy', hy', -, ⟨rfl, rfl⟩ | ⟨-, rfl⟩⟩
    · exact hknown
    · exact h.known y oy.type (typeOf_of_obj hy')
  · intro e he
    rw [length_update]
    exact h.entries e he
  · intro e he
    obtain ⟨oe, hoe, ht, hk⟩ := h.auxTypes e he
    by_cases hxe : x = e.2
    · subst hxe
      obtain rfl := Option.some.inj (ho.symm.trans hoe)
      refine ⟨f o, hself, ?_⟩
      rcases hk with hk | ⟨hk, hp, hf⟩
      · exact ⟨(haux hk).2.trans ht, .inl (haux hk).1⟩
      · rw [hfunction hk]
        exact ⟨ht, .inr ⟨hk, hp, hf⟩⟩
    · exact ⟨oe, (obj_update_ne tm hxe f).trans hoe, ht, hk⟩

theorem setPlaceholderPointerType_some {p x : BtypeRef} {b : Bool}
    (h : tm.setPlaceholderPointerType p x = some (b, tm')) :
    ((p = tm.errorType ∨ x = tm.errorType) ∧ tm' = tm) ∨
      ∃ t o tm₁, p ≠ tm.errorType ∧ x ≠ tm.errorType ∧ b = true ∧ tm.typeOf x = some t ∧
        t.isPointerTy ∧ tm.obj p = some o ∧ o.kind.flavor = .pointerT ∧
        tm.findAnon p = some none ∧ p ∈ tm.placeholders ∧ tm.redirect p x t = some tm₁ ∧
        tm' = tm₁.closeCircularLoop p x := by
  rw [setPlaceholderPointerType] at h
  by_cases herr : p = tm.errorType ∨ x = tm.errorType
  · rw [if_pos herr] at h
    obtain ⟨-, rfl⟩ := Prod.mk.inj (Option.some.inj h)
    exact .inl ⟨herr, rfl⟩
  rw [if_neg herr] at h
  obtain ⟨t, ht, h⟩ := Option.bind_eq_some_iff.mp h
  obtain ⟨o, ho, h⟩ := Option.bind_eq_some_iff.mp h
  obtain ⟨found, hfound, h⟩ := Option.bind_eq_some_iff.mp h
  split_ifs at h with hassert
  obtain ⟨tm₁, hredirect, h⟩ := Option.bind_eq_some_iff.mp h
  obtain ⟨rfl, rfl⟩ := Prod.mk.inj (Option.some.inj h)
  obtain ⟨hptr, rfl, hmem, hflavor⟩ := hassert
  exact .inr ⟨t, o, tm₁, fun h => herr (.inl h), fun h => herr (.inr h), rfl, ht, hptr, ho,
    hflavor, hfound, hmem, hredirect, rfl⟩

theorem Regular.setPointer (h : tm.Regular) {p x : BtypeRef} {b : Bool}
    (hcall : tm.setPlaceholderPointerType p x = some (b, tm')) : tm'.Regular := by
  rcases setPlaceholderPointerType_some hcall with
    ⟨-, rfl⟩ | ⟨t, o, tm₁, -, -, -, ht, hptr, ho, hflavor, -, -, hredirect, rfl⟩
  · exact h
  have hupdated : (tm.update p fun o => { o with type := t, kind := .pointer (some x) }).Regular := by
    apply h.update ho
    · exact hflavor.symm
    · intro y hy
      rw [List.mem_singleton.mp hy]
      exact typeOf_lt ht
    · intro hs
      rw [hflavor] at hs
      cases hs
    · exact h.known x t ht
    · intro hk
      rw [hk] at hflavor
      cases hflavor
    · intro hk
      rw [hflavor] at hk
      cases hk
  have hset : tm₁.Regular := by
    rw [redirect] at hredirect
    split_ifs at hredirect
    · obtain rfl := Option.some.inj hredirect
      exact ⟨hupdated.closed, hupdated.structTy, hupdated.known,
        hupdated.entries, hupdated.auxTypes, hupdated.error⟩
    · apply (postProcessResolvedPlaceholder_settles hredirect).regular
      have hself : (tm.update p fun o => { o with type := t, kind := .pointer (some x) }).obj p =
          some { o with type := t, kind := .pointer (some x) } := by
        rw [obj_update_self, ho]
        rfl
      apply hupdated.update hself rfl
      · exact fun y hy => hupdated.component_lt hself hy
      · exact fun hk => nomatch hk
      · exact h.known x t ht
      · exact fun hk => nomatch hk
      · exact fun hk => nomatch hk
  rw [closeCircularLoop_eq]
  exact ⟨hset.closed, hset.structTy, hset.known, hset.entries, hset.auxTypes, hset.error⟩

theorem Regular.waitFor (h : tm.Regular) (x : BtypeRef) (cs : List BtypeRef) :
    (tm.waitFor x cs).Regular := by
  rw [waitFor_eq]
  exact ⟨h.closed, h.structTy, h.known, h.entries, h.auxTypes, h.error⟩

theorem isSettable_some {p : BtypeRef} {flavor : TyFlavor} {u : Unit}
    (h : tm.isSettable p flavor = some u) : ∃ o, tm.obj p = some o ∧ o.kind.flavor = flavor ∧
      tm.findAnon p = some none ∧ p ∈ tm.placeholders := by
  obtain ⟨o, ho, h⟩ := Option.bind_eq_some_iff.mp h
  obtain ⟨found, hfound, h⟩ := Option.bind_eq_some_iff.mp h
  split_ifs at h with hassert
  obtain ⟨rfl, hmem, hflavor⟩ := hassert
  exact ⟨o, ho, hflavor, hfound, hmem⟩

/-- The body of a struct may be set once more only if the first time it was flagged. -/
theorem setFields_some {p : BtypeRef} {fields : List BtypedIdentifier}
    (h : tm.setFields p fields = some tm') : ∃ o, tm.obj p = some o ∧ o.kind.flavor = .structT ∧
      tm.findAnon p = some none ∧ p ∈ tm.placeholders ∧
      let tm₁ := tm.update p fun o => { o with kind := .struct fields }
      if fields.any fun f => tm₁.isUnresolvedPlaceholder f.btype then
        tm' = tm₁.waitFor p (fields.map (·.btype))
      else ∃ tm₂, tm₁.setBody p fields = some tm₂ ∧ tm₂.postProcessResolvedPlaceholder p = some tm' := by
  obtain ⟨_, hset, h⟩ := Option.bind_eq_some_iff.mp h
  obtain ⟨o, ho, hflavor, hfound, hmem⟩ := isSettable_some hset
  refine ⟨o, ho, hflavor, hfound, hmem, ?_⟩
  dsimp only at h ⊢
  split_ifs at h ⊢
  · exact (Option.some.inj h).symm
  · exact Option.bind_eq_some_iff.mp h

theorem Regular.setFields (h : tm.Regular) {p : BtypeRef} {fields : List BtypedIdentifier}
    (hlt : ∀ f ∈ fields, f.btype < tm.heap.length) (hcall : tm.setFields p fields = some tm') :
    tm'.Regular := by
  obtain ⟨o, ho, hflavor, -, -, hcall⟩ := setFields_some hcall
  have hupdated : (tm.update p fun o => { o with kind := .struct fields }).Regular := by
    apply h.update ho
    · exact hflavor.symm
    · intro y hy
      obtain ⟨f, hf, rfl⟩ := List.mem_map.mp hy
      exact hlt f hf
    · exact fun _ => rfl
    · exact h.known p o.type (typeOf_of_obj ho)
    · intro hk
      rw [hk] at hflavor
      cases hflavor
    · intro hk
      rw [hflavor] at hk
      cases hk
  dsimp only at hcall
  split_ifs at hcall
  · rw [hcall]
    exact hupdated.waitFor ..
  · obtain ⟨tm₂, hbody, hcall⟩ := hcall
    apply (postProcessResolvedPlaceholder_settles hcall).regular
    obtain ⟨elems, id, -, -, -, rfl⟩ := setBody_some hbody
    have hself : (tm.update p fun o => { o with kind := .struct fields }).obj p =
        some { o with kind := .struct fields } := by
      rw [obj_update_self, ho]
      rfl
    have hbare := hupdated.update (f := fun o => { o with isPlaceholder := false }) hself rfl
      (fun y hy => hupdated.component_lt hself hy) (fun _ => rfl)
      (h.known p o.type (typeOf_of_obj ho)) (fun hk => nomatch hk) (fun hk => nomatch hk)
    exact ⟨hbare.closed, hbare.structTy, hbare.known, hbare.entries,
      hbare.auxTypes, hbare.error⟩

theorem update_update_self (x : BtypeRef) (f g : BtypeObject → BtypeObject) :
    (tm.update x f).update x g = tm.update x (g ∘ f) := by
  rw [TypeManager.update, TypeManager.update, TypeManager.update]
  rw [List.modify_modify_eq]

theorem update_comm {x y : BtypeRef} (h : x ≠ y) (f g : BtypeObject → BtypeObject) :
    (tm.update x f).update y g = (tm.update y g).update x f := by
  rw [TypeManager.update, TypeManager.update, TypeManager.update, TypeManager.update]
  rw [List.modify_modify_ne _ _ _ h]

theorem update_congr {x : BtypeRef} {f g : BtypeObject → BtypeObject}
    (h : ∀ o, tm.obj x = some o → f o = g o) : tm.update x f = tm.update x g := by
  have hheap : tm.heap.modify x f = tm.heap.modify x g := by
    apply List.ext_getElem?
    intro i
    rw [List.getElem?_modify, List.getElem?_modify]
    by_cases hi : x = i
    · subst hi
      cases ho : tm.heap[x]? with
      | none => rfl
      | some o => simp [h o ho]
    · simp [hi]
  rw [TypeManager.update, TypeManager.update, hheap]

theorem waitFor_singleton (x y : BtypeRef) :
    tm.waitFor x [y] = if tm.isUnresolvedPlaceholder y then tm.addRef y x else tm := by
  rw [TypeManager.waitFor, List.filter_singleton]
  cases tm.isUnresolvedPlaceholder y with
  | true => rfl
  | false => rfl

theorem updatePlaceholderUnderlyingType_some {p a : BtypeRef}
    (h : tm.updatePlaceholderUnderlyingType p a = some tm') : ∃ o new, tm.obj p = some o ∧
      tm.obj a = some new ∧ o.isPlaceholder ∧
      if new.isPlaceholder then tm' = tm.update p fun o => { o with type := new.type }
      else (tm.update p fun o =>
        { o with type := new.type, isPlaceholder := false }).postProcessResolvedPlaceholder p =
          some tm' := by
  obtain ⟨o, ho, h⟩ := Option.bind_eq_some_iff.mp h
  obtain ⟨new, hnew, h⟩ := Option.bind_eq_some_iff.mp h
  obtain ⟨found, -, h⟩ := Option.bind_eq_some_iff.mp h
  by_cases hassert : p ∈ tm.placeholders ∧ found = none ∧ o.isPlaceholder
  · rw [if_pos hassert] at h
    refine ⟨o, new, ho, hnew, hassert.2.2, ?_⟩
    by_cases hp : new.isPlaceholder
    · rw [if_pos hp] at h ⊢
      exact (Option.some.inj h).symm
    · rw [if_neg hp] at h ⊢
      rw [update_update_self] at h
      exact h
  · rw [if_neg hassert] at h
    cases h

/-- What a placeholder of an array is in the end. -/
def asArray (t : LType) (flag : Bool) (e : BtypeRef) (asize : ℕ) (o : BtypeObject) :
    BtypeObject :=
  { o with type := .array t asize, isPlaceholder := flag, kind := .array (some e) (some asize) }

/-- The auxiliary type of an array is never its placeholder. -/
theorem Regular.auxArray (h : tm.Regular) {p atype : BtypeRef} {asize : ℕ} {t : LType}
    {o : BtypeObject} (hatype : (.array t asize, atype) ∈ tm.auxTypeMap) (ho : tm.obj p = some o)
    (hflavor : o.kind.flavor = .arrayT) :
    ∃ oa, tm.obj atype = some oa ∧ oa.kind = .aux ∧ oa.type = .array t asize ∧ atype ≠ p := by
  obtain ⟨oa, hoa, hta, hka⟩ := h.auxTypes _ hatype
  have haux : oa.kind = .aux := by
    rcases hka with hka | ⟨-, -, hf⟩
    · exact hka
    · cases hf
  refine ⟨oa, hoa, haux, hta, fun heq => ?_⟩
  obtain rfl := Option.some.inj (ho.symm.trans ((congrArg tm.obj heq).symm.trans hoa))
  rw [haux] at hflavor
  cases hflavor

/-- A placeholder of an array either waits for its elements or is resolved. -/
theorem setElements_some (h : tm.Regular) {p e atype : BtypeRef} {asize : ℕ} {t : LType}
    (hatype : (.array t asize, atype) ∈ tm.auxTypeMap)
    (hcall : tm.setElements p e asize atype = some tm') : ∃ o, tm.obj p = some o ∧
      o.kind.flavor = .arrayT ∧ tm.findAnon p = some none ∧ p ∈ tm.placeholders ∧
      (o.isPlaceholder || tm.isPlaceholder e) ∧
      let flag := tm.isUnresolvedPlaceholder e
      let tm₁ := (tm.update atype fun o => { o with isPlaceholder := flag }).update p
        (asArray t flag e asize)
      if flag then tm' = tm₁.addRef e p else tm₁.postProcessResolvedPlaceholder p = some tm' := by
  obtain ⟨_, hset, hcall⟩ := Option.bind_eq_some_iff.mp hcall
  obtain ⟨o, ho, hflavor, hfound, hmem⟩ := isSettable_some hset
  obtain ⟨oa, hoa, -, hta, hne⟩ := h.auxArray hatype ho hflavor
  let f := fun o : BtypeObject => { o with
    isPlaceholder := o.isPlaceholder || tm.isPlaceholder e
    kind := .array (some e) (some asize) }
  have hp₁ : (tm.update p f).obj p = some (f o) := by
    rw [obj_update_self, ho]
    rfl
  have hflag : (tm.update p f).isUnresolvedPlaceholder e = tm.isUnresolvedPlaceholder e := by
    by_cases hpe : p = e
    · subst hpe
      rw [unresolved_eq_of_ne_struct hp₁ TyFlavor.noConfusion,
        unresolved_eq_of_ne_struct ho (by rw [hflavor]; exact TyFlavor.noConfusion)]
      simp only [f, isPlaceholder, ho, Option.any_some, Bool.or_self]
    · rw [isUnresolvedPlaceholder, obj_update_ne _ hpe, isUnresolvedPlaceholder]
  change (((tm.update p f).waitFor p [e]).update atype fun o => { o with
    isPlaceholder := (tm.update p f).isUnresolvedPlaceholder e }).updatePlaceholderUnderlyingType
      p atype = _ at hcall
  rw [waitFor_singleton, hflag] at hcall
  obtain ⟨o₁, new, ho₁, hnew, hassert, hcall⟩ := updatePlaceholderUnderlyingType_some hcall
  have hwaited : ∀ x, (if tm.isUnresolvedPlaceholder e then (tm.update p f).addRef e p
      else tm.update p f).obj x = (tm.update p f).obj x := by
    intro x
    split_ifs
    · rfl
    · rfl
  rw [obj_update_ne _ hne, hwaited, hp₁] at ho₁
  obtain rfl := Option.some.inj ho₁
  rw [obj_update_self, hwaited, obj_update_ne _ (Ne.symm hne), hoa] at hnew
  obtain rfl := Option.some.inj hnew
  refine ⟨o, ho, hflavor, hfound, hmem, hassert, ?_⟩
  dsimp only at hcall ⊢
  have hmerge : ∀ (flag : Bool) (g : BtypeObject → BtypeObject),
      (∀ o', tm.obj p = some o' → g (f o') = asArray t flag e asize o') →
      ((tm.update p f).update atype fun o => { o with isPlaceholder := flag }).update p g =
        (tm.update atype fun o => { o with isPlaceholder := flag }).update p
          (asArray t flag e asize) := by
    intro flag g hg
    rw [← update_comm hne, update_update_self]
    apply update_congr
    intro o' ho'
    rw [obj_update_ne _ hne] at ho'
    exact hg o' ho'
  by_cases hu : tm.isUnresolvedPlaceholder e
  · simp only [hu, if_true] at hcall ⊢
    rw [← hmerge true fun o => { o with type := oa.type }]
    · exact hcall
    · intro o' ho'
      obtain rfl := Option.some.inj (ho.symm.trans ho')
      have hfo : (o.isPlaceholder || tm.isPlaceholder e) = true := hassert
      change BtypeObject.mk o.name oa.type (o.isPlaceholder || tm.isPlaceholder e) _ = _
      rw [hfo, hta]
      rfl
  · simp only [hu] at hcall ⊢
    rw [← hmerge false fun o => { o with type := oa.type, isPlaceholder := false }]
    · exact hcall
    · intro o' _
      rw [hta]
      rfl

theorem Regular.setElements (h : tm.Regular) {p e atype : BtypeRef} {asize : ℕ} {t : LType}
    (ht : tm.typeOf e = some t) (hatype : (.array t asize, atype) ∈ tm.auxTypeMap)
    (hcall : tm.setElements p e asize atype = some tm') : tm'.Regular := by
  obtain ⟨o, ho, hflavor, -, -, -, hcall⟩ := setElements_some h hatype hcall
  obtain ⟨oa, hoa, haux, -, hne⟩ := h.auxArray hatype ho hflavor
  have hmarked : ∀ flag, (tm.update atype fun o => { o with isPlaceholder := flag }).Regular := by
    intro flag
    apply h.update hoa rfl
    · exact fun y hy => h.component_lt hoa hy
    · exact fun _ => rfl
    · exact h.known atype oa.type (typeOf_of_obj hoa)
    · exact fun hk => ⟨hk, rfl⟩
    · intro hk
      rw [haux] at hk
      cases hk
  have hset : ((tm.update atype fun o =>
      { o with isPlaceholder := tm.isUnresolvedPlaceholder e }).update p
        (asArray t (tm.isUnresolvedPlaceholder e) e asize)).Regular := by
    apply (hmarked (tm.isUnresolvedPlaceholder e)).update ((obj_update_ne tm hne _).trans ho)
    · exact hflavor.symm
    · intro y hy
      rw [List.mem_singleton.mp hy, length_update]
      exact typeOf_lt ht
    · intro hk
      rw [hflavor] at hk
      cases hk
    · exact h.known e t ht
    · intro hk
      rw [hk] at hflavor
      cases hflavor
    · intro hk
      rw [hflavor] at hk
      cases hk
  dsimp only at hcall
  split_ifs at hcall
  · rw [hcall]
    exact ⟨hset.closed, hset.structTy, hset.known, hset.entries, hset.auxTypes, hset.error⟩
  · exact (postProcessResolvedPlaceholder_settles hcall).regular hset

end Set

/-! ## Runs -/

section Runs
variable {tm tm' : TypeManager}

theorem Step.regular (h : tm.Regular) {a : Action} (hstep : Step tm a tm') : tm'.Regular := by
  cases hstep with
  | make horigin => exact h.make horigin
  | openLoop =>
    exact ⟨h.closed, h.structTy, h.known, h.entries, h.auxTypes, h.error⟩
  | setPointer hcall => exact h.setPointer hcall
  | setFields hlt hcall => exact h.setFields hlt hcall
  | setElements ht hatype hcall => exact h.setElements ht hatype hcall

theorem apply_steps (h : tm.Regular) {op : TypeOp} (happly : tm.apply op = some tm') :
    ∃ tm₁, ReflTransGen Prepares tm tm₁ ∧ (tm' = tm₁ ∨ ∃ a, op.Does a ∧ Step tm₁ a tm') := by
  rw [TypeManager.apply] at happly
  split_ifs at happly with hargs
  exact call_steps h hargs.1 hargs.2 happly

theorem Regular.apply (h : tm.Regular) {op : TypeOp} (happly : tm.apply op = some tm') :
    tm'.Regular := by
  obtain ⟨tm₁, hpath, rfl | ⟨a, -, hstep⟩⟩ := apply_steps h happly
  · exact h.prepared hpath
  · exact hstep.regular (h.prepared hpath)

theorem regular_new {address : BtypeRef → ℕ} (hnew : new address = some tm) : tm.Regular := by
  obtain rfl := Option.some.inj ((new_eq address).symm.trans hnew)
  refine ⟨?_, ?_, ?_, ?_, ?_, ?_⟩
  · intro x o ho y hy
    match x, ho with
    | 0, ho =>
      obtain rfl := Option.some.inj ho
      cases hy
    | 1, ho =>
      obtain rfl := Option.some.inj ho
      cases hy
    | 2, ho =>
      obtain rfl := Option.some.inj ho
      rw [List.mem_singleton.mp hy]
      exact Nat.one_lt_succ_succ 1
  · intro x o ho hk
    match x, ho with
    | 0, ho =>
      obtain rfl := Option.some.inj ho
      cases hk
    | 1, ho =>
      obtain rfl := Option.some.inj ho
      cases hk
    | 2, ho =>
      obtain rfl := Option.some.inj ho
      cases hk
  · intro x t ht id hid
    obtain ⟨o, ho, rfl⟩ := Option.map_eq_some_iff.mp ht
    match x, ho with
    | 0, ho =>
      obtain rfl := Option.some.inj ho
      obtain rfl := Option.some.inj hid
      exact Nat.zero_lt_one
    | 1, ho =>
      obtain rfl := Option.some.inj ho
      cases hid
    | 2, ho =>
      obtain rfl := Option.some.inj ho
      cases hid
  · intro e he
    simp only [newManager, List.mem_cons, List.not_mem_nil, or_false] at he
    rcases he with rfl | rfl
    · exact Nat.lt_succ_self 2
    · exact Nat.one_lt_succ_succ 1
  · intro e he
    obtain rfl := List.mem_singleton.mp he
    exact ⟨_, rfl, rfl, .inl rfl⟩
  · exact List.mem_singleton_self _

/-- What holds of a new manager and is kept by preparations and steps holds of every state that
can be reached. -/
theorem Reachable.induction {P : TypeManager → Prop} (h : tm.Reachable)
    (hnew : ∀ address tm, new address = some tm → P tm)
    (hprepares : ∀ tm tm', tm.Regular → P tm → Prepares tm tm' → P tm')
    (hstep : ∀ tm a tm', tm.Regular → P tm → Step tm a tm' → P tm') : P tm := by
  obtain ⟨address, start, ops, hstart, hrun⟩ := h
  have hboth : start.Regular ∧ P start := ⟨regular_new hstart, hnew address start hstart⟩
  have hall : ∀ (ops : List TypeOp) (start : TypeManager), start.Regular ∧ P start →
      start.run ops = some tm → tm.Regular ∧ P tm := by
    intro ops
    induction ops with
    | nil =>
      intro start hboth hrun
      obtain rfl := Option.some.inj hrun
      exact hboth
    | cons op ops ih =>
      intro start hboth hrun
      obtain ⟨tm₁, happly, hrun⟩ := Option.bind_eq_some_iff.mp hrun
      refine ih tm₁ ⟨hboth.1.apply happly, ?_⟩ hrun
      obtain ⟨tm₂, hpath, hlast⟩ := apply_steps hboth.1 happly
      have hprepared : tm₂.Regular ∧ P tm₂ := by
        clear happly hlast
        induction hpath with
        | refl => exact hboth
        | tail _ hstep ih => exact ⟨ih.1.prepares hstep, hprepares _ _ ih.1 ih.2 hstep⟩
      rcases hlast with rfl | ⟨a, -, hlast⟩
      · exact hprepared.2
      · exact hstep _ a _ hprepared.1 hprepared.2 hlast
  exact (hall ops start hboth hrun).2

theorem Reachable.regular (h : tm.Reachable) : tm.Regular := by
  apply h.induction
  · exact fun _ _ => regular_new
  · exact fun _ _ h _ => h.prepares
  · exact fun _ _ _ h _ => Step.regular h

end Runs

/-! ## What waits -/

/-- Whatever waits has its components, so that it could be copied. -/
def WaitersComplete (tm : TypeManager) : Prop :=
  ∀ x y, x ∈ tm.placeholderRefs y → ∃ o, tm.obj x = some o ∧ o.kind.clone.isSome

section Waiters
variable {tm tm' : TypeManager}

theorem Candidate.clone_isSome {cand : BtypeObject} {parts : List BtypeRef}
    (hc : Candidate tm cand parts) : cand.kind.clone.isSome := by
  cases hc with
  | _ => rfl

theorem Origin.clone_isSome {opaques : ℕ} {o : BtypeObject} {parts : List BtypeRef} {c : Container}
    (ho : Origin tm opaques o parts c) (hparts : parts ≠ []) : o.kind.clone.isSome := by
  cases ho with
  | anon hc _ _ => exact hc.clone_isSome
  | opaqueStruct => rfl
  | @named x o' copy _ _ hcopy =>
    obtain ⟨-, -, -, hkind⟩ := BtypeObject.clone_eq_some hcopy
    exact Option.isSome_iff_exists.mpr ⟨_, (BtypeKind.clone_eq_some hkind).2.2.2⟩
  | _ => exact (hparts rfl).elim

theorem WaitersComplete.make (h : tm.WaitersComplete) (hr : tm.Regular) {opaques : ℕ}
    {o : BtypeObject} {parts : List BtypeRef} {c : Container} (ho : Origin tm opaques o parts c) :
    (tm.make opaques o parts c).WaitersComplete := by
  have g := tm.make_grown opaques o parts c
  intro x y hx
  rcases (mem_make_refs (ho.parts_lt hr)).mp hx with hx | ⟨rfl, hy, -⟩
  · obtain ⟨ox, hox, hcomplete⟩ := h x y hx
    exact ⟨ox, (g.obj_old (obj_lt hox)).trans hox, hcomplete⟩
  · exact ⟨o, g.obj_new, ho.clone_isSome (List.ne_nil_of_mem hy)⟩

theorem WaitersComplete.settles (h : tm.WaitersComplete) (hs : Settles tm tm') :
    tm'.WaitersComplete := by
  intro x y hx
  obtain ⟨o, ho, hcomplete⟩ := h x y (hs.placeholderRefs ▸ hx)
  rcases hs.object x o ho with ho' | ⟨-, -, t, ho', -⟩
  · exact ⟨o, ho', hcomplete⟩
  · exact ⟨_, ho', hcomplete⟩

/-- An object may change as long as its components stay, or are given to it. -/
theorem WaitersComplete.update (h : tm.WaitersComplete) {x : BtypeRef}
    {f : BtypeObject → BtypeObject}
    (hf : ∀ o, tm.obj x = some o → o.kind.clone.isSome → (f o).kind.clone.isSome) :
    (tm.update x f).WaitersComplete := by
  intro z y hz
  obtain ⟨o, ho, hcomplete⟩ := h z y hz
  by_cases hxz : x = z
  · subst hxz
    refine ⟨f o, ?_, hf o ho hcomplete⟩
    rw [obj_update_self, ho]
    rfl
  · exact ⟨o, (obj_update_ne tm hxz f).trans ho, hcomplete⟩

theorem WaitersComplete.waitFor (h : tm.WaitersComplete) {x : BtypeRef} {o : BtypeObject}
    (ho : tm.obj x = some o) (hcomplete : o.kind.clone.isSome) (cs : List BtypeRef) :
    (tm.waitFor x cs).WaitersComplete := by
  intro z y hz
  have hobj : ∀ w, (tm.waitFor x cs).obj w = tm.obj w := by
    intro w
    rw [waitFor_eq]
    rfl
  rcases mem_waitFor.mp hz with hz | ⟨rfl, -, -⟩
  · rw [hobj]
    exact h z y hz
  · exact ⟨o, (hobj z).trans ho, hcomplete⟩

theorem Step.waitersComplete (h : tm.WaitersComplete) (hr : tm.Regular) {a : Action}
    (hstep : Step tm a tm') : tm'.WaitersComplete := by
  cases hstep with
  | make ho => exact h.make hr ho
  | openLoop => exact h
  | @setPointer p x _ hcall =>
    rcases setPlaceholderPointerType_some hcall with
      ⟨-, rfl⟩ | ⟨t, o, tm₁, -, -, -, -, -, ho, -, -, -, hredirect, rfl⟩
    · exact h
    have hupdated := h.update (x := p) (f := fun o => { o with type := t, kind := .pointer (some x) })
      fun _ _ _ => rfl
    rw [closeCircularLoop_eq]
    have hset : tm₁.WaitersComplete := by
      rw [redirect] at hredirect
      split_ifs at hredirect with hu
      · obtain rfl := Option.some.inj hredirect
        have hwait := hupdated.waitFor (x := p) (o := { o with type := t, kind := .pointer (some x) })
          (by rw [obj_update_self, ho]; rfl) rfl [x]
        rw [waitFor_singleton, if_pos hu] at hwait
        exact hwait
      · have hbare := hupdated.update (x := p) (f := fun o => { o with isPlaceholder := false })
          fun _ _ hc => hc
        exact hbare.settles (postProcessResolvedPlaceholder_settles hredirect)
    exact hset
  | @setFields p fields _ _ hcall =>
    obtain ⟨o, ho, -, -, -, hcall⟩ := setFields_some hcall
    have hupdated := h.update (x := p) (f := fun o => { o with kind := .struct fields })
      fun _ _ _ => rfl
    dsimp only at hcall
    split_ifs at hcall
    · rw [hcall]
      exact hupdated.waitFor (o := { o with kind := .struct fields })
        (by rw [obj_update_self, ho]; rfl) rfl _
    · obtain ⟨tm₂, hbody, hcall⟩ := hcall
      obtain ⟨elems, id, -, -, -, rfl⟩ := setBody_some hbody
      have hbare := hupdated.update (x := p) (f := fun o => { o with isPlaceholder := false })
        fun _ _ hc => hc
      apply WaitersComplete.settles _ (postProcessResolvedPlaceholder_settles hcall)
      exact hbare
  | @setElements p e atype t asize _ _ hatype hcall =>
    obtain ⟨o, ho, hflavor, -, -, -, hcall⟩ := setElements_some hr hatype hcall
    obtain ⟨oa, hoa, -, -, hne⟩ := hr.auxArray hatype ho hflavor
    have hmarked := h.update (x := atype)
      (f := fun o => { o with isPlaceholder := tm.isUnresolvedPlaceholder e }) fun _ _ hc => hc
    have hset := hmarked.update (x := p) (f := asArray t (tm.isUnresolvedPlaceholder e) e asize)
      fun _ _ _ => rfl
    dsimp only at hcall
    split_ifs at hcall with hu
    · rw [hcall]
      intro z y hz
      rcases mem_addRef.mp hz with hz | ⟨-, rfl⟩
      · exact hset z y hz
      · refine ⟨asArray t (tm.isUnresolvedPlaceholder e) e asize o, ?_, rfl⟩
        exact (obj_update_self ..).trans (by rw [obj_update_ne _ hne, ho]; rfl)
    · exact hset.settles (postProcessResolvedPlaceholder_settles hcall)

theorem Prepares.waitersComplete (h : tm.WaitersComplete) (hr : tm.Regular)
    (hp : Prepares tm tm') : tm'.WaitersComplete := by
  cases hp with
  | make ho _ => exact h.make hr ho
  | opaqueType => exact h

theorem Reachable.waitersComplete (h : tm.Reachable) : tm.WaitersComplete := by
  apply h.induction
  · intro address tm hnew
    obtain rfl := Option.some.inj ((new_eq address).symm.trans hnew)
    exact fun _ _ hx => nomatch hx
  · exact fun _ _ hr h hp => hp.waitersComplete h hr
  · exact fun _ _ _ hr h hstep => hstep.waitersComplete h hr

end Waiters

end TypeManager
end Dragongo
