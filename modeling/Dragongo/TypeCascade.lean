import Dragongo.TypeResolution

/-!
# One type after the other

The cascade behind a placeholder that is set is a path of settlements, in each of which one
type that waited is looked at again and may be given its LLVM type.
-/

namespace Dragongo
open LType

namespace TypeManager
open Relation

/-- A type that waits for another is looked at again. -/
def Settling (tm tm' : TypeManager) : Prop :=
  ∃ r b, r ∈ tm.placeholderRefs b ∧ tm.isPlaceholder r ∧ tm.postProcessReference r b = some tm'

section Path
variable {tm tm' : TypeManager} {b : BtypeRef}

theorem settles_of_path (h : ReflTransGen Settling tm tm') : Settles tm tm' := by
  induction h with
  | refl => exact .refl _
  | tail _ hstep ih =>
    obtain ⟨r, b, hr, hp, hstep⟩ := hstep
    exact ih.trans (postProcessReference_settles hr hp hstep)

theorem postProcessWithin_path (fuel : ℕ) : ∀ {tm tm' : TypeManager} {b : BtypeRef},
    postProcessWithin fuel tm b = some tm' → ReflTransGen Settling tm tm' := by
  induction fuel with
  | zero => exact fun h => nomatch h
  | succ fuel ih =>
    intro tm tm' b h
    rw [postProcessWithin] at h
    -- `l` is what is left of the references of `b`
    have hall : ∀ l : List BtypeRef, (∀ r ∈ l, r ∈ tm.placeholderRefs b) →
        ∀ tm₀, tm₀.placeholderRefs = tm.placeholderRefs →
        (l.foldlM (fun tm refType =>
          if tm.isPlaceholder refType then
            (tm.postProcessReference refType b).bind fun tm =>
              if tm.isPlaceholder refType then some tm else postProcessWithin fuel tm refType
          else some tm) tm₀) = some tm' → ReflTransGen Settling tm₀ tm' := by
      intro l
      induction l with
      | nil =>
        intro _ tm₀ _ h
        obtain rfl := Option.some.inj h
        exact .refl
      | cons r l ihl =>
        intro hl tm₀ hrefs h
        rw [List.foldlM_cons] at h
        obtain ⟨tm₁, hstep, h⟩ := Option.bind_eq_some_iff.mp h
        have hmem : r ∈ tm₀.placeholderRefs b := hrefs ▸ hl r (List.mem_cons_self ..)
        have hpath : ReflTransGen Settling tm₀ tm₁ := by
          split_ifs at hstep with hr
          · obtain ⟨tm₂, href, hstep⟩ := Option.bind_eq_some_iff.mp hstep
            have hfirst : Settling tm₀ tm₂ := ⟨r, b, hmem, hr, href⟩
            split_ifs at hstep
            · obtain rfl := Option.some.inj hstep
              exact .single hfirst
            · exact .head hfirst (ih hstep)
          · obtain rfl := Option.some.inj hstep
            exact .refl
        have hrefs₁ := (settles_of_path hpath).placeholderRefs.trans hrefs
        exact hpath.trans (ihl (fun r' hr' => hl r' (List.mem_cons_of_mem _ hr')) tm₁ hrefs₁ h)
    exact hall _ (fun _ hr => hr) tm rfl h

theorem postProcessResolvedPlaceholder_path (h : tm.postProcessResolvedPlaceholder b = some tm') :
    ReflTransGen Settling tm tm' := postProcessWithin_path _ h

end Path

/-! ## What one settlement does -/

/-- The LLVM type that a type is given once `b`, for which it waited, is resolved. -/
def settledType (tm : TypeManager) (b : BtypeRef) : BtypeKind → Option LType
  | .pointer _ => (tm.typeOf b).map ptr
  | .array _ nelSize => nelSize.bind fun n => (tm.typeOf b).map fun t => .array t n
  | .function _ paramTypes _ resultType _ =>
    (paramTypes.mapM tm.typeOf).bind fun ps => (tm.typeOf resultType).map fun t => .func t ps
  | _ => none

section Settlement
variable {tm tm' : TypeManager} {r b : BtypeRef}

theorem concretize_obj {x : BtypeRef} {t : LType} (h : tm.concretize x t = some tm') (y : BtypeRef) :
    tm'.obj y = (tm.update x fun o => { o with type := t, isPlaceholder := false }).obj y := by
  rw [(concretize_spec h).1.eq]
  rfl

/-- All but a struct are given the LLVM type that goes with their components; a struct gets its
body, unless another field is not resolved. -/
theorem postProcessReference_cases (h : tm.postProcessReference r b = some tm') :
    ∃ o, tm.obj r = some o ∧
      ((o.kind.flavor ≠ .structT ∧ ∃ t, tm.settledType b o.kind = some t ∧
          tm.concretize r t = some tm') ∨
        ∃ fields, o.kind = .struct fields ∧
          if fields.any fun f => f.btype ≠ b && tm.isUnresolvedPlaceholder f.btype then tm' = tm
          else tm.setBody r fields = some tm') := by
  obtain ⟨o, ho, h⟩ := Option.bind_eq_some_iff.mp h
  refine ⟨o, ho, ?_⟩
  cases hk : o.kind with
  | pointer s =>
    rw [hk] at h
    obtain ⟨t, ht, h⟩ := Option.bind_eq_some_iff.mp h
    exact .inl ⟨TyFlavor.noConfusion, ptr t, by rw [settledType, ht]; rfl, h⟩
  | array e n =>
    rw [hk] at h
    obtain ⟨asize, hn, h⟩ := Option.bind_eq_some_iff.mp h
    obtain ⟨t, ht, h⟩ := Option.bind_eq_some_iff.mp h
    exact .inl ⟨TyFlavor.noConfusion, .array t asize, by rw [settledType, ht, hn]; rfl, h⟩
  | struct fields =>
    rw [hk] at h
    refine .inr ⟨fields, rfl, ?_⟩
    dsimp only [postProcessResolvedStructPlaceholder] at h
    split_ifs at h ⊢
    · exact (Option.some.inj h).symm
    · exact h
  | function r ps rs t c =>
    rw [hk] at h
    dsimp only [postProcessResolvedFunctionPlaceholder] at h
    split_ifs at h
    obtain ⟨pts, hps, h⟩ := Option.bind_eq_some_iff.mp h
    obtain ⟨rt, hrt, h⟩ := Option.bind_eq_some_iff.mp h
    exact .inl ⟨TyFlavor.noConfusion, .func rt pts, by rw [settledType, hps, hrt]; rfl, h⟩
  | _ =>
    rw [hk] at h
    cases h

end Settlement

/-! ## What holds of every type -/

/-- Each object is as it should be. -/
def Everywhere (Q : BtypeObject → Prop) (tm : TypeManager) : Prop := ∀ x o, tm.obj x = some o → Q o

section Everywhere
variable {Q : BtypeObject → Prop} {tm tm' : TypeManager}

theorem Everywhere.update (h : tm.Everywhere Q) {x : BtypeRef} {f : BtypeObject → BtypeObject}
    (hf : ∀ o, tm.obj x = some o → Q o → Q (f o)) : (tm.update x f).Everywhere Q := by
  intro y o ho
  by_cases hxy : x = y
  · subst hxy
    rw [obj_update_self] at ho
    obtain ⟨o', ho', rfl⟩ := Option.map_eq_some_iff.mp ho
    exact hf o' ho' (h x o' ho')
  · rw [obj_update_ne _ hxy] at ho
    exact h y o ho

theorem Everywhere.congr (h : tm.Everywhere Q) (hobj : ∀ x, tm'.obj x = tm.obj x) :
    tm'.Everywhere Q := fun x o ho => h x o (hobj x ▸ ho)

theorem Everywhere.make (h : tm.Everywhere Q) {opaques : ℕ} {o : BtypeObject}
    {parts : List BtypeRef} {c : Container} (ho : Q o) : (tm.make opaques o parts c).Everywhere Q := by
  intro x ox hx
  rcases (tm.make_grown opaques o parts c).cases hx with ⟨-, rfl⟩ | ⟨-, hx⟩
  · exact ho
  · exact h x ox hx

/-- The length in the LLVM type of an array is the one that was recorded. -/
def ArrayTyped (o : BtypeObject) : Prop :=
  ∀ e n, o.kind = .array e (some n) → ∃ t, o.type = .array t n

theorem arrayTyped_of_flavor {o : BtypeObject} (h : o.kind.flavor ≠ .arrayT) : ArrayTyped o := by
  intro e n hk
  rw [hk] at h
  exact (h rfl).elim

theorem Candidate.arrayTyped {cand : BtypeObject} {parts : List BtypeRef}
    (hc : Candidate tm cand parts) : ArrayTyped cand := by
  cases hc with
  | array =>
    intro e n hk
    cases hk
    exact ⟨_, rfl⟩
  | _ => exact arrayTyped_of_flavor TyFlavor.noConfusion

theorem Origin.arrayTyped (h : tm.Everywhere ArrayTyped) {opaques : ℕ} {o : BtypeObject}
    {parts : List BtypeRef} {c : Container} (ho : Origin tm opaques o parts c) : ArrayTyped o := by
  cases ho with
  | anon hc _ _ => exact hc.arrayTyped
  | placeholderArray => exact fun e n hk => nomatch hk
  | @named x o' copy name ho' hcopy =>
    obtain ⟨-, htype, -, hkind⟩ := BtypeObject.clone_eq_some hcopy
    intro e n hk
    have hk' : o'.kind = .array e (some n) := by
      cases hk' : o'.kind with
      | array e' n' =>
        cases e' with
        | none =>
          rw [hk'] at hkind
          cases hkind
        | some e' =>
          rw [hk'] at hkind
          exact (Option.some.inj hkind).trans hk
      | _ =>
        have hflavor := (BtypeKind.clone_eq_some hkind).1
        rw [hk', show copy.kind = _ from hk] at hflavor
        cases hflavor
    obtain ⟨t, ht⟩ := h x o' ho' e n hk'
    exact ⟨t, htype.trans ht⟩
  | _ => exact arrayTyped_of_flavor TyFlavor.noConfusion

theorem arrayTyped_of_path (h : tm.Everywhere ArrayTyped) (hpath : ReflTransGen Settling tm tm') :
    tm'.Everywhere ArrayTyped := by
  induction hpath with
  | refl => exact h
  | @tail tm₁ tm₂ _ hstep ih =>
    obtain ⟨r, b, -, -, hstep⟩ := hstep
    obtain ⟨o, ho, ⟨hs, t, ht, hconc⟩ | ⟨fields, hk, hbody⟩⟩ := postProcessReference_cases hstep
    · have hset := ih.update (x := r) (f := fun o => { o with type := t, isPlaceholder := false }) (by
        intro o' ho' _ e n hk
        obtain rfl := Option.some.inj (ho.symm.trans ho')
        rw [show o.kind = _ from hk] at ht
        obtain ⟨te, -, rfl⟩ := Option.map_eq_some_iff.mp ht
        exact ⟨te, rfl⟩)
      exact hset.congr (concretize_obj hconc)
    · split_ifs at hbody
      · exact hbody ▸ ih
      · obtain ⟨elems, id, -, -, -, rfl⟩ := setBody_some hbody
        exact ih.update (f := fun o => { o with isPlaceholder := false }) fun _ _ hq => hq

theorem Step.arrayTyped (h : tm.Everywhere ArrayTyped) (hr : tm.Regular) {a : Action}
    (hstep : Step tm a tm') : tm'.Everywhere ArrayTyped := by
  cases hstep with
  | make ho => exact h.make (ho.arrayTyped h)
  | openLoop => exact h
  | @setPointer p x _ hcall =>
    rcases setPlaceholderPointerType_some hcall with
      ⟨-, rfl⟩ | ⟨t, o, tm₁, -, -, -, -, -, -, -, -, -, hredirect, rfl⟩
    · exact h
    have hupdated := h.update (x := p) (f := fun o => { o with type := t, kind := .pointer (some x) })
      fun _ _ _ => arrayTyped_of_flavor TyFlavor.noConfusion
    rw [redirect] at hredirect
    rw [closeCircularLoop_eq]
    split_ifs at hredirect with hu
    · obtain rfl := Option.some.inj hredirect
      exact hupdated
    · have hset := arrayTyped_of_path (hupdated.update (x := p)
        (f := fun o => { o with isPlaceholder := false }) fun _ _ hq => hq)
        (postProcessResolvedPlaceholder_path hredirect)
      exact hset
  | @setFields p fields _ _ hcall =>
    obtain ⟨o, ho, -, -, -, hcall⟩ := setFields_some hcall
    have hupdated := h.update (x := p) (f := fun o => { o with kind := .struct fields })
      fun _ _ _ => arrayTyped_of_flavor TyFlavor.noConfusion
    dsimp only at hcall
    split_ifs at hcall
    · rw [hcall, waitFor_eq]
      exact hupdated
    · obtain ⟨tm₂, hbody, hcall⟩ := hcall
      obtain ⟨elems, id, -, -, -, rfl⟩ := setBody_some hbody
      apply arrayTyped_of_path _ (postProcessResolvedPlaceholder_path hcall)
      exact hupdated.update (f := fun o => { o with isPlaceholder := false }) fun _ _ hq => hq
  | @setElements p e atype t asize _ _ hatype hcall =>
    obtain ⟨o, ho, hflavor, -, -, -, hcall⟩ := setElements_some hr hatype hcall
    have hset := (h.update (x := atype)
      (f := fun o => { o with isPlaceholder := tm.isUnresolvedPlaceholder e })
      fun _ _ hq => hq).update (x := p) (f := asArray t (tm.isUnresolvedPlaceholder e) e asize)
      fun _ _ _ _ _ hk => by
        cases hk
        exact ⟨t, rfl⟩
    dsimp only at hcall
    split_ifs at hcall with hu
    · rw [hcall]
      exact hset
    · exact arrayTyped_of_path hset (postProcessResolvedPlaceholder_path hcall)

theorem Reachable.arrayTyped (h : tm.Reachable) : tm.Everywhere ArrayTyped := by
  apply h.induction
  · intro address tm hnew
    obtain rfl := Option.some.inj ((new_eq address).symm.trans hnew)
    intro x o ho e n hk
    match x, ho with
    | 0, ho | 1, ho | 2, ho =>
      cases ho
      cases hk
  · intro _ tm' hr h hp
    cases hp with
    | make ho _ => exact h.make (ho.arrayTyped h)
    | opaqueType => exact h
  · exact fun _ _ _ hr h hstep => hstep.arrayTyped h hr

end Everywhere

/-! ## What becomes of components -/

def kindOf (tm : TypeManager) (x : BtypeRef) : Option BtypeKind := (tm.obj x).map (·.kind)

section Kinds
variable {tm tm' : TypeManager} {x : BtypeRef}

theorem Settles.kindOf (h : Settles tm tm') : tm'.kindOf x = tm.kindOf x := by
  unfold TypeManager.kindOf
  cases ho : tm'.obj x with
  | none =>
    have hlt : ¬x < tm.heap.length := by
      rw [← h.length, ← obj_isSome_iff, ho]
      exact Bool.false_ne_true
    rw [← obj_isSome_iff, Option.not_isSome_iff_eq_none] at hlt
    rw [hlt]
  | some o =>
    obtain ⟨o', ho', hk, -⟩ := h.obj_back ho
    rw [ho']
    exact congrArg some hk

theorem kindOf_update_ne {y : BtypeRef} (hxy : y ≠ x) (f : BtypeObject → BtypeObject) :
    (tm.update y f).kindOf x = tm.kindOf x := by
  rw [kindOf, obj_update_ne _ hxy, kindOf]

theorem kindOf_update_of_kind {y : BtypeRef} {f : BtypeObject → BtypeObject}
    (hf : ∀ o, (f o).kind = o.kind) : (tm.update y f).kindOf x = tm.kindOf x := by
  by_cases hxy : y = x
  · subst hxy
    have hkind : (fun o => (f o).kind) = fun o : BtypeObject => o.kind := funext hf
    rw [kindOf, obj_update_self, Option.map_map, kindOf]
    exact congrFun (congrArg Option.map hkind) (tm.obj y)
  · exact kindOf_update_ne hxy f

theorem Settles.kindOf_of_update {y : BtypeRef} {f : BtypeObject → BtypeObject}
    (h : Settles (tm.update y f) tm') (hxy : y ≠ x) : tm'.kindOf x = tm.kindOf x :=
  h.kindOf.trans (kindOf_update_ne hxy f)

/-- Only a placeholder gets other components than it had. -/
theorem Step.kindOf (hr : tm.Regular) {a : Action} (hstep : Step tm a tm')
    (hx : x < tm.heap.length) (hp : x ∉ tm.placeholders) : tm'.kindOf x = tm.kindOf x := by
  cases hstep with
  | @make opaques o parts c =>
    rw [TypeManager.kindOf, (tm.make_grown opaques o parts c).obj_old hx, TypeManager.kindOf]
  | openLoop => rfl
  | @setPointer p t _ hcall =>
    rcases setPlaceholderPointerType_some hcall with
      ⟨-, rfl⟩ | ⟨t, o, tm₁, -, -, -, -, -, -, -, -, hmem, hredirect, rfl⟩
    · rfl
    have hpx : p ≠ x := fun h => hp (h ▸ hmem)
    rw [closeCircularLoop_eq]
    change tm₁.kindOf x = _
    rw [redirect] at hredirect
    split_ifs at hredirect with hu
    · obtain rfl := Option.some.inj hredirect
      exact kindOf_update_ne hpx _
    · rw [(postProcessResolvedPlaceholder_settles hredirect).kindOf_of_update hpx,
        kindOf_update_ne hpx]
  | @setFields p fields _ _ hcall =>
    obtain ⟨o, ho, -, -, hmem, hcall⟩ := setFields_some hcall
    have hpx : p ≠ x := fun h => hp (h ▸ hmem)
    dsimp only at hcall
    split_ifs at hcall
    · rw [hcall, waitFor_eq]
      exact kindOf_update_ne hpx _
    · obtain ⟨tm₂, hbody, hcall⟩ := hcall
      obtain ⟨elems, id, -, -, -, rfl⟩ := setBody_some hbody
      rw [(postProcessResolvedPlaceholder_settles hcall).kindOf]
      exact (kindOf_update_ne hpx _).trans (kindOf_update_ne hpx _)
  | @setElements p e atype t asize _ _ hatype hcall =>
    obtain ⟨o, ho, hflavor, -, hmem, -, hcall⟩ := setElements_some hr hatype hcall
    have hpx : p ≠ x := fun h => hp (h ▸ hmem)
    have hset : ((tm.update atype fun o =>
        { o with isPlaceholder := tm.isUnresolvedPlaceholder e }).update p
          (asArray t (tm.isUnresolvedPlaceholder e) e asize)).kindOf x = tm.kindOf x :=
      (kindOf_update_ne hpx _).trans (kindOf_update_of_kind fun _ => rfl)
    dsimp only at hcall
    split_ifs at hcall with hu
    · rw [hcall]
      exact hset
    · rw [(postProcessResolvedPlaceholder_settles hcall).kindOf]
      exact hset

def flavorOf (tm : TypeManager) (x : BtypeRef) : Option TyFlavor :=
  (tm.kindOf x).map BtypeKind.flavor

theorem flavorOf_update {y : BtypeRef} {f : BtypeObject → BtypeObject}
    (hf : ∀ o, tm.obj y = some o → (f o).kind.flavor = o.kind.flavor) :
    (tm.update y f).flavorOf x = tm.flavorOf x := by
  by_cases hyx : y = x
  · subst hyx
    unfold flavorOf TypeManager.kindOf
    rw [obj_update_self]
    cases ho : tm.obj y with
    | none => rfl
    | some o => exact congrArg some (hf o ho)
  · rw [flavorOf, kindOf_update_ne hyx, flavorOf]

/-- No type becomes one of another flavor. -/
theorem Step.flavorOf (hr : tm.Regular) {a : Action} (hstep : Step tm a tm')
    (hx : x < tm.heap.length) : tm'.flavorOf x = tm.flavorOf x := by
  cases hstep with
  | @make opaques o parts c =>
    unfold TypeManager.flavorOf TypeManager.kindOf
    rw [(tm.make_grown opaques o parts c).obj_old hx]
  | openLoop => rfl
  | @setPointer p to' _ hcall =>
    rcases setPlaceholderPointerType_some hcall with
      ⟨-, rfl⟩ | ⟨t, o, tm₁, -, -, -, -, -, ho, hflavor, -, -, hredirect, rfl⟩
    · rfl
    have hupdated : (tm.update p fun o =>
        { o with type := t, kind := .pointer (some to') }).flavorOf x = tm.flavorOf x := by
      apply flavorOf_update
      intro o' ho'
      obtain rfl := Option.some.inj (ho.symm.trans ho')
      exact hflavor.symm
    rw [closeCircularLoop_eq]
    change tm₁.flavorOf x = _
    rw [redirect] at hredirect
    split_ifs at hredirect with hu
    · obtain rfl := Option.some.inj hredirect
      exact hupdated
    · have hs := postProcessResolvedPlaceholder_settles hredirect
      calc tm₁.flavorOf x = _ := congrArg (Option.map BtypeKind.flavor) hs.kindOf
        _ = _ := flavorOf_update fun _ _ => rfl
        _ = tm.flavorOf x := hupdated
  | @setFields p fields _ _ hcall =>
    obtain ⟨o, ho, hflavor, -, -, hcall⟩ := setFields_some hcall
    have hupdated : (tm.update p fun o => { o with kind := .struct fields }).flavorOf x =
        tm.flavorOf x := by
      apply flavorOf_update
      intro o' ho'
      obtain rfl := Option.some.inj (ho.symm.trans ho')
      exact hflavor.symm
    dsimp only at hcall
    split_ifs at hcall
    · rw [hcall, waitFor_eq]
      exact hupdated
    · obtain ⟨tm₂, hbody, hcall⟩ := hcall
      obtain ⟨elems, id, -, -, -, rfl⟩ := setBody_some hbody
      have hs := postProcessResolvedPlaceholder_settles hcall
      calc tm'.flavorOf x = _ := congrArg (Option.map BtypeKind.flavor) hs.kindOf
        _ = ((tm.update p fun o => { o with kind := .struct fields }).update p fun o =>
            { o with isPlaceholder := false }).flavorOf x := rfl
        _ = _ := flavorOf_update fun _ _ => rfl
        _ = tm.flavorOf x := hupdated
  | @setElements p e atype te asize _ _ hatype hcall =>
    obtain ⟨o, ho, hflavor, -, -, -, hcall⟩ := setElements_some hr hatype hcall
    obtain ⟨oa, hoa, -, -, hne⟩ := hr.auxArray hatype ho hflavor
    have hset : ((tm.update atype fun o =>
        { o with isPlaceholder := tm.isUnresolvedPlaceholder e }).update p
          (asArray te (tm.isUnresolvedPlaceholder e) e asize)).flavorOf x = tm.flavorOf x := by
      refine (flavorOf_update fun o' ho' => ?_).trans (flavorOf_update fun _ _ => rfl)
      rw [obj_update_ne _ hne] at ho'
      obtain rfl := Option.some.inj (ho.symm.trans ho')
      exact hflavor.symm
    dsimp only at hcall
    split_ifs at hcall with hu
    · rw [hcall]
      exact hset
    · have hs := postProcessResolvedPlaceholder_settles hcall
      calc tm'.flavorOf x = _ := congrArg (Option.map BtypeKind.flavor) hs.kindOf
        _ = tm.flavorOf x := hset

/-- An object is a struct with this LLVM type. -/
def IsStruct (tm : TypeManager) (x : BtypeRef) (t : LType) : Prop :=
  ∃ o, tm.obj x = some o ∧ o.kind.flavor = .structT ∧ o.type = t

theorem IsStruct.settles {t : LType} (hx : tm.IsStruct x t) (h : Settles tm tm') :
    tm'.IsStruct x t := by
  obtain ⟨o, ho, hk, ht⟩ := hx
  rcases h.object x o ho with ho' | ⟨-, -, t', ho', hs⟩
  · exact ⟨o, ho', hk, ht⟩
  · exact ⟨_, ho', hk, (hs hk).trans ht⟩

theorem IsStruct.update {t : LType} (hx : tm.IsStruct x t) {y : BtypeRef}
    {f : BtypeObject → BtypeObject} (hf : ∀ o, tm.obj y = some o → o.kind.flavor = .structT →
      (f o).kind.flavor = .structT ∧ (f o).type = o.type) : (tm.update y f).IsStruct x t := by
  obtain ⟨o, ho, hk, ht⟩ := hx
  by_cases hyx : y = x
  · subst hyx
    obtain ⟨hk', ht'⟩ := hf o ho hk
    exact ⟨f o, by rw [obj_update_self, ho]; rfl, hk', ht'.trans ht⟩
  · exact ⟨o, (obj_update_ne tm hyx f).trans ho, hk, ht⟩

/-- A struct keeps the LLVM type it was made with. -/
theorem Step.isStruct (hr : tm.Regular) {a : Action} (hstep : Step tm a tm') {t : LType}
    (hx : tm.IsStruct x t) : tm'.IsStruct x t := by
  cases hstep with
  | @make opaques o parts c =>
    obtain ⟨ox, hox, hk, ht⟩ := hx
    exact ⟨ox, ((tm.make_grown opaques o parts c).obj_old (obj_lt hox)).trans hox, hk, ht⟩
  | openLoop => exact hx
  | @setPointer p to' _ hcall =>
    rcases setPlaceholderPointerType_some hcall with
      ⟨-, rfl⟩ | ⟨t', o, tm₁, -, -, -, -, -, ho, hflavor, -, -, hredirect, rfl⟩
    · exact hx
    have hupdated := hx.update (y := p)
      (f := fun o => { o with type := t', kind := .pointer (some to') }) fun o' ho' hk => by
        obtain rfl := Option.some.inj (ho.symm.trans ho')
        rw [hflavor] at hk
        cases hk
    rw [closeCircularLoop_eq]
    change tm₁.IsStruct x t
    rw [redirect] at hredirect
    split_ifs at hredirect with hu
    · obtain rfl := Option.some.inj hredirect
      exact hupdated
    · exact (hupdated.update (f := fun o => { o with isPlaceholder := false })
        fun _ _ hk => ⟨hk, rfl⟩).settles (postProcessResolvedPlaceholder_settles hredirect)
  | @setFields p fields _ _ hcall =>
    obtain ⟨o, ho, -, -, -, hcall⟩ := setFields_some hcall
    have hupdated := hx.update (y := p) (f := fun o => { o with kind := .struct fields })
      fun _ _ _ => ⟨rfl, rfl⟩
    dsimp only at hcall
    split_ifs at hcall
    · rw [hcall, waitFor_eq]
      exact hupdated
    · obtain ⟨tm₂, hbody, hcall⟩ := hcall
      obtain ⟨elems, id, -, -, -, rfl⟩ := setBody_some hbody
      apply IsStruct.settles _ (postProcessResolvedPlaceholder_settles hcall)
      exact hupdated.update (f := fun o => { o with isPlaceholder := false }) fun _ _ hk => ⟨hk, rfl⟩
  | @setElements p e atype te asize _ _ hatype hcall =>
    obtain ⟨o, ho, hflavor, -, -, -, hcall⟩ := setElements_some hr hatype hcall
    obtain ⟨oa, hoa, -, -, hne⟩ := hr.auxArray hatype ho hflavor
    have hset := (hx.update (y := atype)
      (f := fun o => { o with isPlaceholder := tm.isUnresolvedPlaceholder e })
      fun _ _ hk => ⟨hk, rfl⟩).update (y := p)
      (f := asArray te (tm.isUnresolvedPlaceholder e) e asize) fun o' ho' hk => by
        rw [obj_update_ne _ hne] at ho'
        obtain rfl := Option.some.inj (ho.symm.trans ho')
        rw [hflavor] at hk
        cases hk
    dsimp only at hcall
    split_ifs at hcall with hu
    · rw [hcall]
      exact hset
    · exact hset.settles (postProcessResolvedPlaceholder_settles hcall)

/-- Placeholders come about as new objects only. -/
theorem Step.placeholders_cases (hr : tm.Regular) {a : Action} (hstep : Step tm a tm') :
    tm'.placeholders = tm.placeholders ∨
      tm'.placeholders = tm.heap.length :: tm.placeholders ∧
        tm'.heap.length = tm.heap.length + 1 := by
  cases hstep with
  | @make opaques o parts c =>
    rw [make_placeholders]
    split_ifs
    · exact .inr ⟨rfl, make_length ..⟩
    · exact .inl rfl
  | openLoop => exact .inl rfl
  | @setPointer p t _ hcall =>
    apply Or.inl
    rcases setPlaceholderPointerType_some hcall with
      ⟨-, rfl⟩ | ⟨t, o, tm₁, -, -, -, -, -, -, -, -, -, hredirect, rfl⟩
    · rfl
    rw [closeCircularLoop_eq]
    change tm₁.placeholders = _
    rw [redirect] at hredirect
    split_ifs at hredirect with hu
    · obtain rfl := Option.some.inj hredirect
      rfl
    · exact (postProcessResolvedPlaceholder_settles hredirect).placeholders
  | @setFields p fields _ _ hcall =>
    apply Or.inl
    obtain ⟨o, ho, -, -, hmem, hcall⟩ := setFields_some hcall
    dsimp only at hcall
    split_ifs at hcall
    · rw [hcall, waitFor_eq]
      rfl
    · obtain ⟨tm₂, hbody, hcall⟩ := hcall
      obtain ⟨elems, id, -, -, -, rfl⟩ := setBody_some hbody
      exact (postProcessResolvedPlaceholder_settles hcall).placeholders
  | @setElements p e atype t asize _ _ hatype hcall =>
    apply Or.inl
    obtain ⟨o, ho, hflavor, -, hmem, -, hcall⟩ := setElements_some hr hatype hcall
    dsimp only at hcall
    split_ifs at hcall with hu
    · rw [hcall]
      rfl
    · exact (postProcessResolvedPlaceholder_settles hcall).placeholders

end Kinds

end TypeManager
end Dragongo
