import Dragongo.TypeSteps

/-!
# The calls as steps

Each call of the type manager prepares some pointer and auxiliary types and then takes
one step.  The regularity of the heap that this rests on is an invariant of the steps.
-/

namespace Dragongo
open LType

namespace TypeManager
open Relation

/-! ## Regular heaps -/

/-- Components are objects, a struct has an LLVM struct, and no LLVM type leads to a struct
that has yet to be made. -/
structure Regular (tm : TypeManager) : Prop where
  closed : Closed tm.heap
  structTy : ∀ x o, tm.obj x = some o → o.kind.flavor = .structT → o.type.isStructTy
  known : ∀ x t, tm.typeOf x = some t → tm.knows t
  entries : ∀ e ∈ tm.anonTypes, e.1 < tm.heap.length
  auxTypes : ∀ e ∈ tm.auxTypeMap, ∃ o, tm.obj e.2 = some o ∧ o.type = e.1 ∧
    (o.kind = .aux ∨ o.kind.flavor = .functionT ∧ ¬o.isPlaceholder ∧ e.1.isFunctionTy)
  error : (.structRef 0, tm.errorType) ∈ tm.auxTypeMap

section Make
variable {tm tm' : TypeManager} {o : BtypeObject} {parts : List BtypeRef} {opaques : ℕ}
  {c : Container}

theorem obj_lt {x : BtypeRef} (h : tm.obj x = some o) : x < tm.heap.length :=
  (obj_isSome_iff tm x).mp (h ▸ rfl)

theorem typeOf_lt {x : BtypeRef} {t : LType} (h : tm.typeOf x = some t) : x < tm.heap.length := by
  obtain ⟨o, ho, -⟩ := Option.map_eq_some_iff.mp h
  exact obj_lt ho

theorem Regular.auxTypes_lt (h : tm.Regular) {e : LType × BtypeRef} (he : e ∈ tm.auxTypeMap) :
    e.2 < tm.heap.length := by
  obtain ⟨o, ho, -⟩ := h.auxTypes e he
  exact obj_lt ho

theorem mapM_mem {α β : Type} {f : α → Option β} : ∀ {xs : List α} {ys : List β},
    xs.mapM f = some ys → ∀ x ∈ xs, ∃ y, f x = some y
  | [], _, _, x, hx => nomatch hx
  | a :: as, ys, h, x, hx => by
    rw [List.mapM_cons] at h
    obtain ⟨b, hb, h⟩ := Option.bind_eq_some_iff.mp h
    obtain ⟨bs, hbs, -⟩ := Option.bind_eq_some_iff.mp h
    rcases List.mem_cons.mp hx with rfl | hx
    · exact ⟨b, hb⟩
    · exact mapM_mem hbs x hx

theorem unresolved_eq_of_ne_struct {x : BtypeRef} (ho : tm.obj x = some o)
    (hk : o.kind.flavor ≠ .structT) : tm.isUnresolvedPlaceholder x = o.isPlaceholder := by
  rw [isUnresolvedPlaceholder, ho, Option.any_some]
  cases hkind : o.kind with
  | struct fields => exact (hk (by rw [hkind]; rfl)).elim
  | _ => simp only [BtypeObject.isUnresolvedPlaceholder, hkind]

theorem unresolved_eq_of_struct {x : BtypeRef} (ho : tm.obj x = some o)
    (hk : o.kind.flavor = .structT) : tm.isUnresolvedPlaceholder x = false := by
  rw [isUnresolvedPlaceholder, ho, Option.any_some]
  cases hkind : o.kind with
  | struct fields => simp only [BtypeObject.isUnresolvedPlaceholder, hkind]
  | _ => rw [hkind] at hk; cases hk

/-- The components of a candidate are there. -/
theorem Candidate.components_lt (h : tm.Regular) {cand : BtypeObject}
    (hc : Candidate tm cand parts) : ∀ y ∈ cand.kind.components, y < tm.heap.length := by
  cases hc with
  | integer => exact fun y hy => nomatch hy
  | float => exact fun y hy => nomatch hy
  | pointer ho =>
    intro y hy
    rw [List.mem_singleton.mp hy]
    exact obj_lt ho
  | array _ ho =>
    intro y hy
    rw [List.mem_singleton.mp hy]
    exact obj_lt ho
  | struct helems _ =>
    intro y hy
    obtain ⟨f, hf, rfl⟩ := List.mem_map.mp hy
    obtain ⟨t, ht⟩ := mapM_mem helems f hf
    exact typeOf_lt ht
  | function hparts hr _ _ =>
    intro y hy
    simp only [BtypeKind.components, List.mem_append, List.mem_singleton] at hy
    simp only [functionParts, List.mem_append] at hparts
    rcases hy with ((hy | hy) | hy) | rfl
    · exact hparts y (by tauto)
    · exact hparts y (by tauto)
    · exact hparts y (by tauto)
    · rcases hr with ⟨-, e, he, -, rfl⟩ | hr | ⟨-, hr⟩
      · exact h.auxTypes_lt he
      · exact hparts _ (by simp [hr])
      · exact hparts _ (by simp [hr])

theorem Candidate.parts_lt {cand : BtypeObject} (hc : Candidate tm cand parts) :
    ∀ y ∈ parts, y < tm.heap.length := by
  cases hc with
  | integer => exact fun y hy => nomatch hy
  | float => exact fun y hy => nomatch hy
  | pointer ho =>
    intro y hy
    rw [List.mem_singleton.mp hy]
    exact obj_lt ho
  | array _ ho =>
    intro y hy
    rw [List.mem_singleton.mp hy]
    exact obj_lt ho
  | struct => exact fun y hy => nomatch hy
  | function hparts => exact hparts

theorem Origin.components_lt (h : tm.Regular) (ho : Origin tm opaques o parts c) :
    ∀ y ∈ o.kind.components, y < tm.heap.length := by
  cases ho with
  | anon hc _ _ => exact hc.components_lt h
  | opaqueStruct hparts hlt _ _ =>
    intro y hy
    exact hlt y (hparts ▸ hy)
  | aux => exact fun y hy => absurd hy List.not_mem_nil
  | auxFunction _ haux =>
    intro y hy
    obtain ⟨e, he, rfl⟩ := haux y (by simpa [BtypeKind.components] using hy)
    exact h.auxTypes_lt he
  | placeholderPointer => exact fun y hy => absurd hy List.not_mem_nil
  | placeholderStruct => exact fun y hy => absurd hy List.not_mem_nil
  | placeholderArray => exact fun y hy => absurd hy List.not_mem_nil
  | @named x o' copy _ hx hcopy =>
    rw [(BtypeKind.clone_eq_some (BtypeObject.clone_eq_some hcopy).2.2.2).2.1]
    exact h.closed x o' hx

theorem waitsFor_subset (k : BtypeKind) : ∀ y ∈ k.waitsFor, y ∈ k.components := by
  intro y hy
  cases k with
  | function => exact nomatch hy
  | _ => exact hy

theorem Origin.parts_lt (h : tm.Regular) (ho : Origin tm opaques o parts c) :
    ∀ y ∈ parts, y < tm.heap.length := by
  cases ho with
  | anon hc _ _ => exact hc.parts_lt
  | opaqueStruct _ hlt _ _ => exact hlt
  | @named x o' copy _ hx hcopy =>
    rw [(BtypeKind.clone_eq_some (BtypeObject.clone_eq_some hcopy).2.2.2).2.2.1]
    exact fun y hy => h.closed x o' hx y (waitsFor_subset _ y hy)
  | _ => exact fun y hy => nomatch hy

theorem Origin.structTy (h : tm.Regular) (ho : Origin tm opaques o parts c)
    (hk : o.kind.flavor = .structT) : o.type.isStructTy := by
  cases ho with
  | anon hc _ _ =>
    cases hc with
    | struct => rfl
    | _ => cases hk
  | opaqueStruct => rfl
  | placeholderStruct => rfl
  | @named x o' copy _ hx hcopy =>
    obtain ⟨-, htype, -, hkind⟩ := BtypeObject.clone_eq_some hcopy
    rw [htype]
    exact h.structTy x o' hx ((BtypeKind.clone_eq_some hkind).1.symm.trans hk)
  | _ => cases hk

theorem knows_mono {t : LType} (h : tm.knows t) (hle : tm.nextOpaque ≤ tm'.nextOpaque) :
    tm'.knows t := fun id hid => lt_of_lt_of_le (h id hid) hle

theorem isFunctionTy_asReference {t : LType} (h : t.isFunctionTy) : t.asReference.isFunctionTy := by
  cases t with
  | func => rfl
  | _ => cases h

theorem cookedType_isFunctionTy {rinfo : CABIParamInfo} {infos : List CABIParamInfo} {t : LType}
    (h : cookedType rinfo infos = some t) : t.isFunctionTy := by
  obtain ⟨rt, -, h⟩ := Option.bind_eq_some_iff.mp h
  split_ifs at h
  · obtain rfl := Option.some.inj h
    rfl
  · obtain rfl := Option.some.inj h
    rfl

/-- A function type has a function as its LLVM type, whether or not it follows the C ABI. -/
theorem makeLLVMFunctionType_isFunctionTy {ps : List BtypeRef} {r : BtypeRef} {followsCabi : Bool}
    {t : LType} (h : tm.makeLLVMFunctionType ps r followsCabi = some t) : t.isFunctionTy := by
  rw [makeLLVMFunctionType] at h
  split_ifs at h
  · obtain ⟨bs, -, h⟩ := Option.bind_eq_some_iff.mp h
    obtain ⟨b, -, h⟩ := Option.bind_eq_some_iff.mp h
    obtain ⟨ft, hft, h⟩ := Option.bind_eq_some_iff.mp h
    obtain rfl := Option.some.inj h
    apply isFunctionTy_asReference
    obtain ⟨oracle, horacle, hft⟩ := Option.bind_eq_some_iff.mp hft
    split_ifs at hft
    obtain rfl := Option.some.inj hft
    rw [analyze, if_pos rfl] at horacle
    obtain ⟨rs, -, horacle⟩ := Option.bind_eq_some_iff.mp horacle
    obtain ⟨is, -, horacle⟩ := Option.bind_eq_some_iff.mp horacle
    obtain ⟨ft, hcooked, horacle⟩ := Option.bind_eq_some_iff.mp horacle
    obtain rfl := Option.some.inj horacle
    exact cookedType_isFunctionTy hcooked
  · obtain ⟨ts, -, h⟩ := Option.bind_eq_some_iff.mp h
    obtain ⟨t', -, h⟩ := Option.bind_eq_some_iff.mp h
    split_ifs at h
    obtain rfl := Option.some.inj h
    rfl

theorem base_of_isFunctionTy {t : LType} (h : t.isFunctionTy) : t.base = none := by
  cases t with
  | func => rfl
  | _ => cases h

/-- The LLVM type of a new object leads to a struct that was there or has just been made. -/
theorem Origin.knows (h : tm.Regular) (ho : Origin tm opaques o parts c) :
    ∀ id ∈ o.type.base, id < tm.nextOpaque + opaques := by
  intro id hid
  cases ho with
  | anon hc _ _ =>
    cases hc with
    | integer => cases hid
    | @float _ bits hf =>
      rw [makeLLVMFloatType] at hf
      split_ifs at hf
      all_goals
        obtain rfl := Option.some.inj hf
        cases hid
    | @pointer x target hx =>
      have ht : tm.typeOf x = some target.type := by rw [typeOf, hx]; rfl
      apply h.known x _ ht id
      simp only [withFlag, pointerCandidate, LType.base] at hid
      split_ifs at hid
      · cases hid
      · exact hid
    | @array x elem _ hx =>
      have ht : tm.typeOf x = some elem.type := by rw [typeOf, hx]; rfl
      exact h.known x _ ht id hid
    | struct => cases hid
    | function _ _ hft _ =>
      rw [withFlag, base_of_isFunctionTy (makeLLVMFunctionType_isFunctionTy hft)] at hid
      cases hid
  | aux _ hknown => exact hknown id hid
  | auxFunction => cases hid
  | @named x ox copy _ hx hcopy =>
    rw [(BtypeObject.clone_eq_some hcopy).2.1] at hid
    exact h.known x ox.type (by rw [typeOf, hx]; rfl) id hid
  | _ =>
    obtain rfl := Option.some.inj hid
    exact Nat.lt_succ_self _

theorem make_entries {e : BtypeRef × (TyFlavor × String × LType)}
    (he : e ∈ (tm.make opaques o parts c).anonTypes) :
    e ∈ tm.anonTypes ∨ e = (tm.heap.length, o.key) := by
  unfold make at he
  rw [waitFor_eq] at he
  cases c with
  | anonTypes => exact (List.mem_cons.mp he).symm
  | _ => exact .inl he

theorem make_auxTypes {e : LType × BtypeRef} (he : e ∈ (tm.make opaques o parts c).auxTypeMap) :
    e ∈ tm.auxTypeMap ∨ c = .auxTypeMap ∧ e = (o.type, tm.heap.length) := by
  unfold make at he
  rw [waitFor_eq] at he
  cases c with
  | auxTypeMap => exact (List.mem_cons.mp he).symm.imp_right fun h => ⟨rfl, h⟩
  | _ => exact .inl he

theorem make_auxTypes_subset (e : LType × BtypeRef) (he : e ∈ tm.auxTypeMap) :
    e ∈ (tm.make opaques o parts c).auxTypeMap := by
  unfold make
  rw [waitFor_eq]
  cases c with
  | auxTypeMap => exact List.mem_cons_of_mem _ he
  | _ => exact he

/-- What goes into the map of auxiliary types. -/
theorem Origin.aux_or_function (ho : Origin tm opaques o parts .auxTypeMap) :
    o.kind = .aux ∨ o.kind.flavor = .functionT ∧ ¬o.isPlaceholder ∧ o.type.isFunctionTy := by
  generalize hc : Container.auxTypeMap = c at ho
  cases ho with
  | @anon _ _ found => cases found <;> cases hc
  | @opaqueStruct _ _ found => cases found <;> cases hc
  | aux => exact .inl rfl
  | auxFunction => exact .inr ⟨rfl, Bool.false_ne_true, rfl⟩
  | _ => cases hc

theorem Regular.make (h : tm.Regular) (ho : Origin tm opaques o parts c) :
    (tm.make opaques o parts c).Regular := by
  have g := tm.make_grown opaques o parts c
  refine ⟨?_, ?_, ?_, ?_, ?_, ?_⟩
  · intro x o' hx y hy
    rw [g.length]
    rcases g.cases hx with ⟨-, rfl⟩ | ⟨-, hx⟩
    · exact Nat.lt_succ_of_lt (ho.components_lt h y hy)
    · exact Nat.lt_succ_of_lt (h.closed x o' hx y hy)
  · intro x o' hx hk
    rcases g.cases hx with ⟨-, rfl⟩ | ⟨-, hx⟩
    · exact ho.structTy h hk
    · exact h.structTy x o' hx hk
  · intro x t hx id hid
    rw [make_nextOpaque]
    obtain ⟨o', hobj, rfl⟩ := Option.map_eq_some_iff.mp hx
    rcases g.cases hobj with ⟨-, rfl⟩ | ⟨-, hold⟩
    · exact ho.knows h id hid
    · exact Nat.lt_add_right _ (h.known x o'.type (by rw [typeOf, hold]; rfl) id hid)
  · intro e he
    rw [g.length]
    rcases make_entries he with he | rfl
    · exact Nat.lt_succ_of_lt (h.entries e he)
    · exact Nat.lt_succ_self _
  · intro e he
    rcases make_auxTypes he with he | ⟨rfl, rfl⟩
    · rw [g.obj_old (h.auxTypes_lt he)]
      exact h.auxTypes e he
    · exact ⟨o, g.obj_new, rfl, ho.aux_or_function⟩
  · rw [g.errorType]
    exact make_auxTypes_subset _ h.error

theorem Regular.prepares (h : tm.Regular) (hp : Prepares tm tm') : tm'.Regular := by
  cases hp with
  | make ho _ => exact h.make ho
  | opaqueType =>
    exact ⟨h.closed, h.structTy,
      fun x t hx => knows_mono (h.known x t hx) (Nat.le_succ _), h.entries, h.auxTypes, h.error⟩

theorem Regular.prepared (h : tm.Regular) (hp : ReflTransGen Prepares tm tm') : tm'.Regular := by
  induction hp with
  | refl => exact h
  | tail _ hstep ih => exact ih.prepares hstep

end Make

/-! ## Lookups -/

section Calls
variable {tm tm' : TypeManager} {r : BtypeRef}

theorem lookup_some (h : tm.Regular) {cand : BtypeObject} (hl : tm.lookup cand = some (some r)) :
    ∃ b, tm.obj r = some b ∧ b.key = cand.key ∧ b.isPlaceholder = cand.isPlaceholder := by
  rw [findAnon_alloc] at hl
  obtain ⟨hmem, heq⟩ := findEntry_some hl
  have hlt : r < tm.heap.length := h.entries _ hmem
  rcases equalWithin_eq_true heq with hr | ⟨a, b, ha, hb, hkey, hflag, -⟩
  · exact (Nat.lt_irrefl _ (hr ▸ hlt)).elim
  · rw [List.getElem?_concat_length] at ha
    rw [List.getElem?_append_left hlt] at hb
    obtain rfl := Option.some.inj ha
    exact ⟨b, hb, hkey.symm, hflag.symm⟩

/-- A pointer waits if its target does, whether it was there or is new. -/
theorem pointerType_spec (h : tm.Regular) {x : BtypeRef} {target : BtypeObject}
    (ht : tm.obj x = some target) (hk : target.kind.flavor ≠ .structT) (hx : x ≠ tm.errorType)
    (hcall : tm.pointerType x = some (r, tm')) :
    ReflTransGen Prepares tm tm' ∧ r < tm'.heap.length ∧
      tm'.isUnresolvedPlaceholder r = tm.isUnresolvedPlaceholder x := by
  have hflag := unresolved_eq_of_ne_struct ht hk
  rcases pointerType_cases hcall with ⟨herr, -, -⟩ | ⟨target', -, ht', hcall⟩
  · exact (hx herr).elim
  obtain rfl := Option.some.inj (ht.symm.trans ht')
  rcases hcall with ⟨hfound, rfl⟩ | ⟨found, rfl, rfl, horigin⟩
  · obtain ⟨b, hb, hkey, hbflag⟩ := lookup_some h hfound
    refine ⟨.refl, obj_lt hb, ?_⟩
    rw [unresolved_eq_of_ne_struct hb, hbflag, hflag]
    · rfl
    · rw [(Prod.mk.inj hkey).1]
      exact TyFlavor.noConfusion
  · have g := tm.make_grown 0 (tm.withFlag (pointerCandidate target x) [x]) [x] (.ofLookup found)
    refine ⟨.single (.make horigin TyFlavor.noConfusion), ?_, ?_⟩
    · rw [g.length]
      exact Nat.lt_succ_self _
    · rw [unresolved_eq_of_ne_struct g.obj_new TyFlavor.noConfusion]
      exact Bool.or_false _

theorem Regular.ne_struct_of_isFunctionTy (h : tm.Regular) {x : BtypeRef} {o : BtypeObject}
    (ho : tm.obj x = some o) (hf : o.type.isFunctionTy) : o.kind.flavor ≠ .structT := by
  intro hk
  have hs := h.structTy x o ho hk
  cases ht : o.type with
  | func => rw [ht] at hs; cases hs
  | _ => rw [ht] at hf; cases hf

theorem sanitizeField_spec (h : tm.Regular) {x y : BtypeRef} (hx : x ≠ tm.errorType)
    (hs : tm.sanitizeField x = some (y, tm')) :
    ReflTransGen Prepares tm tm' ∧ y < tm'.heap.length ∧
      tm'.isUnresolvedPlaceholder y = tm.isUnresolvedPlaceholder x := by
  obtain ⟨t, ht, hs⟩ := Option.bind_eq_some_iff.mp hs
  obtain ⟨o, ho, rfl⟩ := Option.map_eq_some_iff.mp ht
  split_ifs at hs with hf
  · exact pointerType_spec h ho (h.ne_struct_of_isFunctionTy ho hf) hx hs
  · obtain ⟨rfl, rfl⟩ := Prod.mk.inj (Option.some.inj hs)
    exact ⟨.refl, obj_lt ho, rfl⟩

/-- The fields are there, and one of them waits if one of the raw fields does. -/
theorem sanitizeFields_spec {fs fs' : List BtypedIdentifier} (h : tm.Regular)
    (hfs : ∀ f ∈ fs, f.btype < tm.heap.length ∧ f.btype ≠ tm.errorType)
    (hs : tm.sanitizeFields fs = some (fs', tm')) :
    ReflTransGen Prepares tm tm' ∧ (∀ f ∈ fs', f.btype < tm'.heap.length) ∧
      (fs'.any fun f => tm'.isUnresolvedPlaceholder f.btype) =
        fs.any fun f => tm.isUnresolvedPlaceholder f.btype := by
  induction fs generalizing tm fs' with
  | nil =>
    obtain ⟨rfl, rfl⟩ := Prod.mk.inj (Option.some.inj hs)
    exact ⟨.refl, fun f hf => (List.not_mem_nil hf).elim, rfl⟩
  | cons f fs ih =>
    obtain ⟨⟨y, tm₁⟩, hfirst, hs⟩ := Option.bind_eq_some_iff.mp hs
    obtain ⟨⟨rest, tm₂⟩, hrest, hs⟩ := Option.bind_eq_some_iff.mp hs
    obtain ⟨rfl, rfl⟩ := Prod.mk.inj (Option.some.inj hs)
    obtain ⟨hpath, hlt, hflag⟩ := sanitizeField_spec h (hfs f (by simp)).2 hfirst
    have hext := Prepares.extends_of_path hpath
    have hfs₁ : ∀ g ∈ fs, g.btype < tm₁.heap.length ∧ g.btype ≠ tm₁.errorType := by
      intro g hg
      rw [hext.errorType]
      exact ⟨lt_of_lt_of_le (hfs g (by simp [hg])).1 hext.length_le, (hfs g (by simp [hg])).2⟩
    obtain ⟨hpath', hlt', hflag'⟩ := ih (h.prepared hpath) hfs₁ hrest
    have hext' := Prepares.extends_of_path hpath'
    have hold : (fs.any fun g => tm₁.isUnresolvedPlaceholder g.btype) =
        fs.any fun g => tm.isUnresolvedPlaceholder g.btype := by
      rw [Bool.eq_iff_iff, List.any_eq_true, List.any_eq_true]
      apply exists_congr
      intro g
      apply and_congr_right
      intro hg
      rw [hext.isUnresolvedPlaceholder (hfs g (by simp [hg])).1]
    refine ⟨hpath.trans hpath', ?_, ?_⟩
    · intro g hg
      rcases List.mem_cons.mp hg with rfl | hg
      · exact lt_of_lt_of_le hlt hext'.length_le
      · exact hlt' g hg
    · rw [List.any_cons, List.any_cons, hflag', hold, hext'.isUnresolvedPlaceholder hlt, hflag]

theorem makeAuxType_prepared {t : LType} (ht : tm.knows t) :
    ReflTransGen Prepares tm (tm.makeAuxType t).2 := by
  rcases tm.makeAuxType_cases t with ⟨e, -, -, hcall⟩ | ⟨hnew, hcall⟩
  · rw [hcall]
  · rw [hcall]
    exact .single (.make (.aux hnew ht) TyFlavor.noConfusion)

theorem make_auxTypes_mem (o : BtypeObject) (parts : List BtypeRef) (opaques : ℕ) :
    (tm.make opaques o parts .auxTypeMap).auxTypeMap = (o.type, tm.heap.length) :: tm.auxTypeMap := by
  unfold make
  rw [waitFor_eq]
  rfl

/-- An auxiliary type is in the map afterwards, with what was there before. -/
theorem makeAuxType_mem (t : LType) :
    (t, (tm.makeAuxType t).1) ∈ (tm.makeAuxType t).2.auxTypeMap ∧
      ∀ e ∈ tm.auxTypeMap, e ∈ (tm.makeAuxType t).2.auxTypeMap := by
  rcases tm.makeAuxType_cases t with ⟨e, he, rfl, hcall⟩ | ⟨-, hcall⟩
  · rw [hcall]
    exact ⟨he, fun _ h => h⟩
  · rw [hcall, make_auxTypes_mem]
    exact ⟨List.mem_cons_self .., fun _ h => List.mem_cons_of_mem _ h⟩

theorem makeAuxType_nextOpaque (t : LType) : (tm.makeAuxType t).2.nextOpaque = tm.nextOpaque := by
  rcases tm.makeAuxType_cases t with ⟨e, -, -, hcall⟩ | ⟨-, hcall⟩
  · rw [hcall]
  · rw [hcall]
    rfl

theorem makeAuxTypes_prepared {ts : List LType} (hts : ∀ t ∈ ts, tm.knows t) :
    ReflTransGen Prepares tm (tm.makeAuxTypes ts).2 ∧
      (∀ x ∈ (tm.makeAuxTypes ts).1, ∃ e ∈ (tm.makeAuxTypes ts).2.auxTypeMap, e.2 = x) ∧
      ∀ e ∈ tm.auxTypeMap, e ∈ (tm.makeAuxTypes ts).2.auxTypeMap := by
  induction ts generalizing tm with
  | nil => exact ⟨.refl, fun x hx => (List.not_mem_nil hx).elim, fun _ h => h⟩
  | cons t ts ih =>
    have hts' : ∀ t' ∈ ts, (tm.makeAuxType t).2.knows t' := fun t' ht' =>
      knows_mono (hts t' (by simp [ht'])) (tm.makeAuxType_nextOpaque t).ge
    obtain ⟨hpath, hmem, hold⟩ := ih hts'
    obtain ⟨hnew, hold'⟩ := tm.makeAuxType_mem t
    refine ⟨(makeAuxType_prepared (hts t (by simp))).trans hpath, ?_, fun e he => hold e (hold' e he)⟩
    intro x hx
    rcases List.mem_cons.mp hx with rfl | hx
    · exact ⟨_, hold _ hnew, rfl⟩
    · exact hmem x hx

/-! ## Calls -/

theorem common_prepared {cand : BtypeObject} {parts : List BtypeRef}
    (hcand : Candidate tm cand parts) (hk : cand.kind.flavor ≠ .functionT)
    (hcall : tm.commonAnon cand (fun tm => tm.installWaiting cand parts) = some (r, tm')) :
    ReflTransGen Prepares tm tm' := by
  rcases common_cases hcand hcall with ⟨-, rfl⟩ | ⟨found, -, rfl, horigin⟩
  · exact .refl
  · exact .single (.make horigin hk)

theorem integerType_eq (isUnsigned : Bool) (bits : ℕ) : tm.integerType isUnsigned bits =
    tm.commonAnon ⟨"", .int bits, false, .integer isUnsigned bits⟩ fun tm =>
      tm.installWaiting ⟨"", .int bits, false, .integer isUnsigned bits⟩ [] := by
  apply commonAnon_congr
  rw [← install_eq rfl]
  rfl

theorem structType_prepared (h : tm.Regular) {fields : List BtypedIdentifier}
    (hlt : ∀ f ∈ fields, f.btype < tm.heap.length) (hcall : tm.structType fields = some (r, tm')) :
    ReflTransGen Prepares tm tm' := by
  by_cases herr : fields.any (·.btype = tm.errorType)
  · rw [structType, if_pos herr] at hcall
    obtain ⟨-, rfl⟩ := Prod.mk.inj (Option.some.inj hcall)
    exact .refl
  rw [structType, if_neg herr] at hcall
  obtain ⟨⟨fs, tm₁⟩, hs, hcall⟩ := Option.bind_eq_some_iff.mp hcall
  have hfs : ∀ f ∈ fields, f.btype < tm.heap.length ∧ f.btype ≠ tm.errorType := by
    intro f hf
    refine ⟨hlt f hf, fun heq => herr ?_⟩
    rw [List.any_eq_true]
    exact ⟨f, hf, decide_eq_true heq⟩
  obtain ⟨hpath, hlt₁, hflag⟩ := sanitizeFields_spec h hfs hs
  refine hpath.trans ?_
  by_cases hplace : fields.any fun f => tm.isUnresolvedPlaceholder f.btype
  · rw [if_pos hplace] at hcall
    obtain ⟨-, found, hfound, rfl⟩ := installWaiting_some hcall
    have hparts : (fs.map (·.btype)).any tm₁.isUnresolvedPlaceholder := by
      rw [List.any_map]
      exact hflag.trans hplace
    have hparts_lt : ∀ y ∈ fs.map (·.btype), y < tm₁.heap.length := by
      intro y hy
      obtain ⟨f, hf, rfl⟩ := List.mem_map.mp hy
      exact hlt₁ f hf
    have horigin := Origin.opaqueStruct rfl hparts_lt hparts hfound
    exact .single (.make horigin TyFlavor.noConfusion)
  · rw [if_neg hplace] at hcall
    obtain ⟨elems, helems, hcall⟩ := Option.bind_eq_some_iff.mp hcall
    have hcand : Candidate tm₁ ⟨"", .struct none elems, false, .struct fs⟩ [] := by
      apply Candidate.struct helems
      intro f hf hu
      apply hplace
      rw [← hflag, List.any_eq_true]
      exact ⟨f, hf, hu⟩
    apply common_prepared hcand TyFlavor.noConfusion (r := r)
    rw [← hcall]
    exact commonAnon_congr (install_eq rfl).symm

theorem functionType_steps {receiver resultStruct : Option BtypeRef}
    {parameters results : List BtypeRef} {followsCabi : Bool}
    (hlt : ∀ x ∈ receiver.toList ++ parameters ++ results ++ resultStruct.toList,
      x < tm.heap.length)
    (hcall : tm.functionType receiver parameters results resultStruct followsCabi = some (r, tm')) :
    ∃ tm₁, ReflTransGen Prepares tm tm₁ ∧ (tm' = tm₁ ∨ ∃ o,
      o.name = "" ∧
      Step tm₁ (.make o (functionParts receiver parameters results resultStruct)) tm') := by
  rw [functionType] at hcall
  have hparts : ∀ y ∈ functionParts receiver parameters results resultStruct,
      y < tm.heap.length := by
    intro y hy
    apply hlt
    simp only [functionParts, List.mem_append] at hy ⊢
    tauto
  generalize hp : functionParts receiver parameters results resultStruct = parts at hcall hparts ⊢
  by_cases herr : tm.errorType ∈ parts
  · rw [if_pos herr] at hcall
    obtain ⟨-, rfl⟩ := Prod.mk.inj (Option.some.inj hcall)
    exact ⟨tm, .refl, .inl rfl⟩
  rw [if_neg herr] at hcall
  obtain ⟨⟨rbtype, tm₁⟩, hresult, hcall⟩ := Option.bind_eq_some_iff.mp hcall
  have hpath : ReflTransGen Prepares tm tm₁ ∧ (results = [] ∧
      (∃ e ∈ tm₁.auxTypeMap, e.1 = .void ∧ e.2 = rbtype) ∨ results = [rbtype] ∨
        2 ≤ results.length ∧ resultStruct = some rbtype) := by
    cases results with
    | nil =>
      have hcall := Option.some.inj hresult
      obtain ⟨hnew, -⟩ := tm.makeAuxType_mem .void
      have hprep := tm.makeAuxType_prepared (t := .void) fun _ hid =>
        absurd hid (Option.some_ne_none _).symm
      rw [hcall] at hnew hprep
      exact ⟨hprep, .inl ⟨rfl, _, hnew, rfl, rfl⟩⟩
    | cons x results =>
      cases results with
      | nil =>
        obtain ⟨rfl, rfl⟩ := Prod.mk.inj (Option.some.inj hresult)
        exact ⟨.refl, .inr (.inl rfl)⟩
      | cons x' results =>
        obtain ⟨y, hy, hresult⟩ := Option.map_eq_some_iff.mp hresult
        obtain ⟨rfl, rfl⟩ := Prod.mk.inj hresult
        exact ⟨.refl, .inr (.inr ⟨by simp, hy⟩)⟩
  obtain ⟨hpath, hrbtype⟩ := hpath
  refine ⟨tm₁, hpath, ?_⟩
  have hle := (Prepares.extends_of_path hpath).length_le
  obtain ⟨llft, hllft, hcall⟩ := Option.bind_eq_some_iff.mp hcall
  rcases commonAnon_cases hcall with ⟨-, rfl⟩ | ⟨hnone, hcall⟩
  · exact .inl rfl
  · dsimp only at hcall
    split_ifs at hcall with hcabi
    obtain ⟨-, found, hfound, rfl⟩ := installWaiting_some hcall
    subst hp
    have hcand := Candidate.function (fun y hy => lt_of_lt_of_le (hparts y hy) hle) hrbtype hllft
      hcabi
    exact .inr ⟨_, rfl, .make (.anon hcand hnone hfound)⟩

theorem func_notMem_params (t : LType) (ts : List LType) : LType.func t ts ∉ t :: ts := by
  intro h
  rcases List.mem_cons.mp h with h | h
  · have := congrArg sizeOf h
    simp at this
    omega
  · have := List.sizeOf_lt_of_mem h
    simp at this

theorem makeAuxType_types (t : LType) :
    ∀ e ∈ (tm.makeAuxType t).2.auxTypeMap, e ∈ tm.auxTypeMap ∨ e.1 = t := by
  intro e he
  rcases tm.makeAuxType_cases t with ⟨_, -, -, hcall⟩ | ⟨-, hcall⟩
  · rw [hcall] at he
    exact .inl he
  · rw [hcall, make_auxTypes_mem] at he
    rcases List.mem_cons.mp he with rfl | he
    · exact .inr rfl
    · exact .inl he

theorem makeAuxTypes_types (ts : List LType) :
    ∀ e ∈ (tm.makeAuxTypes ts).2.auxTypeMap, e ∈ tm.auxTypeMap ∨ e.1 ∈ ts := by
  induction ts generalizing tm with
  | nil => exact fun e he => .inl he
  | cons t ts ih =>
    intro e he
    rcases @ih (tm.makeAuxType t).2 e he with he | he
    · rcases makeAuxType_types t e he with he | rfl
      · exact .inl he
      · exact .inr (List.mem_cons_self ..)
    · exact .inr (List.mem_cons_of_mem _ he)

theorem makeAuxFcnType_steps {result : LType} {params : List LType}
    (hknown : ∀ t ∈ result :: params, tm.knows t) :
    ∃ tm₁, ReflTransGen Prepares tm tm₁ ∧ ((tm.makeAuxFcnType result params).2 = tm₁ ∨
      ∃ o parts, Step tm₁ (.make o parts) (tm.makeAuxFcnType result params).2) := by
  unfold makeAuxFcnType
  cases hfind : tm.auxTypeMap.find? (fun e => decide (e.1 = .func result params)) with
  | some e => exact ⟨tm, .refl, .inl rfl⟩
  | none =>
    have hparams : ∀ t ∈ params, (tm.makeAuxType result).2.knows t := fun t ht =>
      knows_mono (hknown t (by simp [ht])) (tm.makeAuxType_nextOpaque result).ge
    obtain ⟨hpath, hps, hold⟩ := makeAuxTypes_prepared hparams
    obtain ⟨hr, -⟩ := tm.makeAuxType_mem result
    let tm₂ := ((tm.makeAuxType result).2.makeAuxTypes params).2
    have hr' : ∃ e ∈ tm₂.auxTypeMap, e.2 = (tm.makeAuxType result).1 := ⟨_, hold _ hr, rfl⟩
    have horigin : Origin tm₂ 0 ⟨"", .func result params, false, .function none
        ((tm.makeAuxType result).2.makeAuxTypes params).1
        (if result.isVoidTy then [] else [(tm.makeAuxType result).1]) (tm.makeAuxType result).1
        false⟩ [] .auxTypeMap := by
      apply Origin.auxFunction
      · intro e he heq
        rcases makeAuxTypes_types params e he with he | he
        · rcases makeAuxType_types result e he with he | he
          · have := List.find?_eq_none.mp hfind e he
            simp [heq] at this
          · exact func_notMem_params result params (heq ▸ he ▸ List.mem_cons_self ..)
        · exact func_notMem_params result params (heq ▸ List.mem_cons_of_mem _ he)
      · intro y hy
        simp only [List.mem_append, List.mem_singleton] at hy
        rcases hy with (hy | hy) | rfl
        · exact hps y hy
        · split_ifs at hy
          · exact (List.not_mem_nil hy).elim
          · rw [List.mem_singleton.mp hy]
            exact hr'
        · exact hr'
    exact ⟨tm₂, (makeAuxType_prepared (hknown result (by simp))).trans hpath,
      .inr ⟨_, [], .make horigin⟩⟩

theorem equal_agree (h : tm.Regular) (hext : Extends tm tm') {x y : BtypeRef} {b : Bool}
    (hx : x < tm.heap.length) (hy : y < tm.heap.length) (heq : equal tm.heap x y = some b) :
    equal tm'.heap x y = some b := by
  apply equalWithin_mono tm'.heap (Nat.succ_le_succ (Nat.mul_le_mul hext.length_le hext.length_le))
  rw [equalWithin_agree h.closed (fun z hz => hext.obj hz) _ hx hy]
  exact heq

theorem findEntry_agree (h : tm.Regular) (hext : Extends tm tm') {x : BtypeRef}
    {key : TyFlavor × String × LType} {found : Option BtypeRef} (hx : x < tm.heap.length) :
    ∀ {es : List (BtypeRef × (TyFlavor × String × LType))}, (∀ e ∈ es, e.1 < tm.heap.length) →
      findEntry tm.heap x key es = some found → findEntry tm'.heap x key es = some found
  | [], _, hfind => hfind
  | e :: es, hes, hfind => by
    have hrest : ∀ e' ∈ es, e'.1 < tm.heap.length := fun e' he' => hes e' (by simp [he'])
    rw [findEntry] at hfind ⊢
    split_ifs at hfind ⊢ with hkey
    · cases heq : equal tm.heap x e.1 with
      | none =>
        rw [heq] at hfind
        cases hfind
      | some b =>
        rw [heq] at hfind
        rw [equal_agree h hext hx (hes e (by simp)) heq]
        cases b with
        | true => exact hfind
        | false => exact findEntry_agree h hext hx hrest hfind
    · exact findEntry_agree h hext hx hrest hfind

/-- A lookup that succeeds gives the same answer when there are more objects. -/
theorem findAnon_agree (h : tm.Regular) (hext : Extends tm tm')
    (hentries : tm'.anonTypes = tm.anonTypes) {x : BtypeRef} {found : Option BtypeRef}
    (hfind : tm.findAnon x = some found) : tm'.findAnon x = some found := by
  obtain ⟨o, ho, hfind⟩ := Option.bind_eq_some_iff.mp hfind
  rw [findAnon, hext.obj (obj_lt ho), ho, hentries]
  exact findEntry_agree h hext (obj_lt ho) h.entries hfind

theorem isSettable_agree (h : tm.Regular) (hext : Extends tm tm')
    (hentries : tm'.anonTypes = tm.anonTypes) (hplaceholders : tm'.placeholders = tm.placeholders)
    {x : BtypeRef} {flavor : TyFlavor} (hset : tm.isSettable x flavor = some ()) :
    tm'.isSettable x flavor = some () := by
  obtain ⟨o, ho, hset⟩ := Option.bind_eq_some_iff.mp hset
  obtain ⟨found, hfind, hset⟩ := Option.bind_eq_some_iff.mp hset
  rw [isSettable, hext.obj (obj_lt ho), ho]
  change ((tm'.findAnon x).bind fun found => if found = none ∧ x ∈ tm'.placeholders ∧
    o.kind.flavor = flavor then some () else none) = some ()
  rw [findAnon_agree h hext hentries hfind, hplaceholders]
  exact hset

theorem makeAuxType_agree (t : LType) : (tm.makeAuxType t).2.anonTypes = tm.anonTypes ∧
    (tm.makeAuxType t).2.placeholders = tm.placeholders := by
  rcases tm.makeAuxType_cases t with ⟨_, -, -, hcall⟩ | ⟨-, hcall⟩
  · rw [hcall]
    exact ⟨rfl, rfl⟩
  · rw [hcall]
    exact ⟨rfl, rfl⟩

theorem modify_append_of_lt (l l' : List BtypeObject) {x : ℕ} (hx : x < l.length)
    (f : BtypeObject → BtypeObject) : (l ++ l').modify x f = l.modify x f ++ l' := by
  apply List.ext_getElem?
  intro i
  rw [List.getElem?_modify]
  by_cases hi : i < l.length
  · rw [List.getElem?_append_left hi, List.getElem?_append_left (by simpa using hi),
      List.getElem?_modify]
  · have hxi : ¬x = i := by omega
    rw [List.getElem?_append_right (by omega), List.getElem?_append_right (by simpa using hi),
      List.length_modify]
    simp only [if_neg hxi]
    exact Option.map_id' ..

/-- It makes no difference whether the auxiliary type is made before or after the element
type has been recorded. -/
theorem setElemType_makeAuxType {p e : BtypeRef} {asize : ℕ} {t : LType}
    (hp : p < tm.heap.length) (he : e < tm.heap.length) :
    ((tm.setElemType p e asize).waitFor p [e]).makeAuxType t =
      ((tm.makeAuxType t).1, ((tm.makeAuxType t).2.setElemType p e asize).waitFor p [e]) := by
  have haux : ((tm.setElemType p e asize).waitFor p [e]).auxTypeMap = tm.auxTypeMap := by
    rw [waitFor_eq]
    rfl
  rcases tm.makeAuxType_cases t with ⟨a, ha, hat, hcall⟩ | ⟨hnew, hcall⟩
  · rcases ((tm.setElemType p e asize).waitFor p [e]).makeAuxType_cases t with
      ⟨a', -, -, hcall'⟩ | ⟨hnew, -⟩
    · rw [hcall]
      unfold makeAuxType at hcall ⊢
      rw [haux]
      cases hfind : tm.auxTypeMap.find? (fun e => decide (e.1 = t)) with
      | none => exact absurd (List.find?_eq_none.mp hfind a ha) (by simp [hat])
      | some b =>
        rw [hfind] at hcall
        exact Prod.ext (Prod.mk.inj hcall).1 rfl
    · exact (hnew a (haux ▸ ha) hat).elim
  · have hfind : tm.auxTypeMap.find? (fun e => decide (e.1 = t)) = none := by
      rw [List.find?_eq_none]
      intro a ha
      simpa using hnew a ha
    have hflag : ({ tm with
        heap := tm.heap ++ [⟨"", t, false, .aux⟩]
        auxTypeMap := (t, tm.heap.length) :: tm.auxTypeMap } : TypeManager).isPlaceholder e =
        tm.isPlaceholder e := by
      rw [isPlaceholder, isPlaceholder]
      apply congrArg
      exact List.getElem?_append_left he
    have hsame : (({ tm with
        heap := tm.heap ++ [⟨"", t, false, .aux⟩]
        auxTypeMap := (t, tm.heap.length) :: tm.auxTypeMap } : TypeManager).setElemType p e
          asize).isUnresolvedPlaceholder e = (tm.setElemType p e asize).isUnresolvedPlaceholder e := by
      rw [isUnresolvedPlaceholder, isUnresolvedPlaceholder]
      apply congrArg
      simp only [setElemType, update, obj, hflag]
      rw [modify_append_of_lt _ _ hp, List.getElem?_append_left (by simpa using he)]
    unfold makeAuxType
    rw [haux, hfind]
    unfold waitFor
    simp only [alloc, List.filter_singleton]
    rw [hsame]
    cases (tm.setElemType p e asize).isUnresolvedPlaceholder e with
    | true => simp [setElemType, update, addRef, hflag, modify_append_of_lt _ _ hp]
    | false => simp [setElemType, update, hflag, modify_append_of_lt _ _ hp]

theorem setPlaceholderArrayType_steps (h : tm.Regular) {p e : BtypeRef} {length : Option ℕ} {b : Bool}
    (hp : p < tm.heap.length) (he : e < tm.heap.length)
    (hcall : tm.setPlaceholderArrayType p e length = some (b, tm')) :
    ∃ tm₁, ReflTransGen Prepares tm tm₁ ∧ (tm' = tm₁ ∨ ∃ asize, length = some asize ∧
      Step tm₁ (.setElements p e asize) tm') := by
  cases length with
  | none =>
    obtain ⟨-, rfl⟩ := Prod.mk.inj (Option.some.inj hcall)
    exact ⟨tm, .refl, .inl rfl⟩
  | some asize =>
    rw [setPlaceholderArrayType] at hcall
    by_cases herr : p = tm.errorType ∨ e = tm.errorType
    · rw [if_pos herr] at hcall
      obtain ⟨-, rfl⟩ := Prod.mk.inj (Option.some.inj hcall)
      exact ⟨tm, .refl, .inl rfl⟩
    rw [if_neg herr] at hcall
    obtain ⟨_, hset, hcall⟩ := Option.bind_eq_some_iff.mp hcall
    obtain ⟨t, ht, hcall⟩ := Option.bind_eq_some_iff.mp hcall
    obtain ⟨tm₂, hupdate, hcall⟩ := Option.bind_eq_some_iff.mp hcall
    obtain ⟨-, rfl⟩ := Prod.mk.inj (Option.some.inj hcall)
    have ht : tm.typeOf e = some t := by
      rw [waitFor_eq] at ht
      have hold : (tm.setElemType p e asize).typeOf e = some t := ht
      rw [typeOf, setElemType, obj_update] at hold
      split_ifs at hold
      · rwa [Option.map_map] at hold
      · exact hold
    have hknown : tm.knows (.array t asize) := h.known e t ht
    have hpath := makeAuxType_prepared hknown
    have hext := Prepares.extends_of_path hpath
    refine ⟨_, hpath, .inr ⟨asize, rfl, .setElements ((hext.typeOf he).trans ht)
      (tm.makeAuxType_mem (.array t asize)).1 ?_⟩⟩
    change ((((tm.setElemType p e asize).waitFor p [e]).makeAuxType (.array t asize)).2.update
      (((tm.setElemType p e asize).waitFor p [e]).makeAuxType (.array t asize)).1 fun o =>
        { o with isPlaceholder := (tm.setElemType p e asize).isUnresolvedPlaceholder e
          }).updatePlaceholderUnderlyingType p
            (((tm.setElemType p e asize).waitFor p [e]).makeAuxType (.array t asize)).1 = _ at hupdate
    rw [setElemType_makeAuxType hp he] at hupdate
    have hset' := isSettable_agree h hext (tm.makeAuxType_agree (.array t asize)).1
      (tm.makeAuxType_agree (.array t asize)).2 hset
    have hflag : ((tm.makeAuxType (.array t asize)).2.setElemType p e asize).isUnresolvedPlaceholder e =
        (tm.setElemType p e asize).isUnresolvedPlaceholder e := by
      have hobj : (tm.makeAuxType (.array t asize)).2.obj e = tm.obj e := hext.obj he
      have hplace : (tm.makeAuxType (.array t asize)).2.isPlaceholder e = tm.isPlaceholder e := by
        rw [isPlaceholder, hobj, isPlaceholder]
      simp only [isUnresolvedPlaceholder, setElemType, obj_update, hobj, hplace]
    rw [setElements, hset']
    simp only [Option.bind_eq_bind, Option.bind_some]
    rw [hflag]
    exact hupdate

theorem circularPointerType_steps {p : BtypeRef}
    (hcall : tm.circularPointerType p = some (r, tm')) :
    ∃ tm₁, ReflTransGen Prepares tm tm₁ ∧ (tm' = tm₁ ∨ Step tm₁ (.openLoop p r) tm') := by
  rw [circularPointerType] at hcall
  split_ifs at hcall with herr
  · obtain ⟨-, rfl⟩ := Prod.mk.inj (Option.some.inj hcall)
    exact ⟨tm, .refl, .inl rfl⟩
  cases hmap : tm.circularPointerTypeMap p with
  | some marker =>
    rw [hmap] at hcall
    obtain ⟨-, rfl⟩ := Prod.mk.inj (Option.some.inj hcall)
    exact ⟨tm, .refl, .inl rfl⟩
  | none =>
    rw [hmap] at hcall
    by_cases hloop : ({ tm with nextOpaque := tm.nextOpaque + 1 } : TypeManager).makeAuxType
        (ptr (.structRef tm.nextOpaque)) |>.2.circularPointerLoop = []
    swap
    · cases (if_neg hloop).symm.trans hcall
    replace hcall := (if_pos hloop).symm.trans hcall
    obtain ⟨hr, rfl⟩ := Prod.mk.inj (Option.some.inj hcall)
    let tm₀ : TypeManager := { tm with nextOpaque := tm.nextOpaque + 1 }
    have hknown : tm₀.knows (ptr (.structRef tm.nextOpaque)) := by
      intro id hid
      obtain rfl := Option.some.inj hid
      exact Nat.lt_succ_self _
    have hmap' : (tm₀.makeAuxType (ptr (.structRef tm.nextOpaque))).2.circularPointerTypeMap p =
        none := by
      rcases tm₀.makeAuxType_cases (ptr (.structRef tm.nextOpaque)) with ⟨_, -, -, hcall⟩ | ⟨-, hcall⟩
      · rw [hcall]
        exact hmap
      · rw [hcall]
        exact hmap
    have hmem := (tm₀.makeAuxType_mem (ptr (.structRef tm.nextOpaque))).1
    rw [← hr]
    exact ⟨_, (ReflTransGen.single .opaqueType).trans (makeAuxType_prepared hknown),
      .inr (.openLoop hloop hmap' hmem)⟩

/-- Every call comes down to preparations and at most one step of its own. -/
theorem call_steps (h : tm.Regular) {op : TypeOp} (hop : ∀ x ∈ op.operands, x < tm.heap.length)
    (hknown : ∀ t ∈ op.llvmTypes, tm.knows t) (hcall : tm.call op = some tm') :
    ∃ tm₁, ReflTransGen Prepares tm tm₁ ∧ (tm' = tm₁ ∨ ∃ a, op.Does a ∧ Step tm₁ a tm') := by
  cases op with
  | voidType =>
    obtain rfl := Option.some.inj hcall
    exact ⟨_, makeAuxType_prepared (t := .void) fun _ hid => (nomatch hid), .inl rfl⟩
  | integerType isUnsigned bits =>
    obtain ⟨⟨r, _⟩, hmade, rfl⟩ := Option.map_eq_some_iff.mp hcall
    rw [integerType_eq] at hmade
    exact ⟨_, common_prepared (.integer isUnsigned bits) TyFlavor.noConfusion hmade, .inl rfl⟩
  | floatType bits =>
    obtain ⟨⟨r, _⟩, hmade, rfl⟩ := Option.map_eq_some_iff.mp hcall
    obtain ⟨llft, hllft, hmade⟩ := Option.bind_eq_some_iff.mp hmade
    refine ⟨_, common_prepared (r := r) (.float hllft) TyFlavor.noConfusion ?_, .inl rfl⟩
    rw [← hmade]
    exact commonAnon_congr (install_eq rfl).symm
  | complexType bits =>
    obtain ⟨made, hmade, rfl⟩ := Option.map_eq_some_iff.mp hcall
    rw [complexType] at hmade
    split_ifs at hmade
    · obtain rfl := Option.some.inj hmade
      exact ⟨_, makeAuxType_prepared (t := makeLLVMTwoElementStructType .float .float)
        fun _ hid => (nomatch hid), .inl rfl⟩
    · obtain rfl := Option.some.inj hmade
      exact ⟨_, makeAuxType_prepared (t := makeLLVMTwoElementStructType .double .double)
        fun _ hid => (nomatch hid), .inl rfl⟩
  | pointerType x =>
    obtain ⟨⟨r, _⟩, hmade, rfl⟩ := Option.map_eq_some_iff.mp hcall
    rcases pointerType_cases hmade with ⟨-, -, rfl⟩ | ⟨target, -, -, ⟨-, rfl⟩ | ⟨found, -, rfl, horigin⟩⟩
    · exact ⟨_, .refl, .inl rfl⟩
    · exact ⟨_, .refl, .inl rfl⟩
    · exact ⟨_, .single (.make horigin TyFlavor.noConfusion), .inl rfl⟩
  | arrayType x length =>
    obtain ⟨⟨r, _⟩, hmade, rfl⟩ := Option.map_eq_some_iff.mp hcall
    rcases arrayType_cases hmade with ⟨-, rfl⟩ |
      ⟨elem, asize, -, -, -, ⟨-, rfl⟩ | ⟨found, -, rfl, horigin⟩⟩
    · exact ⟨_, .refl, .inl rfl⟩
    · exact ⟨_, .refl, .inl rfl⟩
    · exact ⟨_, .single (.make horigin TyFlavor.noConfusion), .inl rfl⟩
  | structType fields =>
    obtain ⟨⟨r, _⟩, hmade, rfl⟩ := Option.map_eq_some_iff.mp hcall
    exact ⟨_, structType_prepared h (fun f hf => hop _ (List.mem_map_of_mem hf)) hmade, .inl rfl⟩
  | functionType receiver parameters results resultStruct followsCabi =>
    obtain ⟨⟨r, _⟩, hmade, rfl⟩ := Option.map_eq_some_iff.mp hcall
    obtain ⟨tm₁, hpath, hstep⟩ := functionType_steps hop hmade
    exact ⟨tm₁, hpath, hstep.imp_right fun ⟨o, hname, hstep⟩ => ⟨.make o _, ⟨rfl, hname⟩, hstep⟩⟩
  | makeAuxFcnType result params =>
    obtain rfl := Option.some.inj hcall
    obtain ⟨tm₁, hpath, hstep⟩ := makeAuxFcnType_steps hknown
    exact ⟨tm₁, hpath, hstep.imp_right fun ⟨o, parts, hstep⟩ => ⟨.make o parts, trivial, hstep⟩⟩
  | placeholderPointerType name =>
    obtain rfl := Option.some.inj hcall
    exact ⟨_, .single (.make (.placeholderPointer name) TyFlavor.noConfusion), .inl rfl⟩
  | placeholderStructType name =>
    obtain rfl := Option.some.inj hcall
    exact ⟨_, .single (.make (.placeholderStruct name) TyFlavor.noConfusion), .inl rfl⟩
  | placeholderArrayType name =>
    obtain rfl := Option.some.inj hcall
    exact ⟨_, .single (.make (.placeholderArray name) TyFlavor.noConfusion), .inl rfl⟩
  | setPlaceholderPointerType p t =>
    obtain ⟨⟨b, _⟩, hmade, rfl⟩ := Option.map_eq_some_iff.mp hcall
    refine ⟨tm, .refl, ?_⟩
    by_cases herr : p = tm.errorType ∨ t = tm.errorType
    · rw [setPlaceholderPointerType, if_pos herr] at hmade
      obtain ⟨-, rfl⟩ := Prod.mk.inj (Option.some.inj hmade)
      exact .inl rfl
    · have hb : b = true := by
        rw [setPlaceholderPointerType, if_neg herr] at hmade
        obtain ⟨_, -, hmade⟩ := Option.bind_eq_some_iff.mp hmade
        obtain ⟨_, -, hmade⟩ := Option.bind_eq_some_iff.mp hmade
        obtain ⟨_, -, hmade⟩ := Option.bind_eq_some_iff.mp hmade
        split_ifs at hmade
        obtain ⟨_, -, hmade⟩ := Option.bind_eq_some_iff.mp hmade
        exact (Prod.mk.inj (Option.some.inj hmade)).1.symm
      exact .inr ⟨_, rfl, .setPointer (hb ▸ hmade)⟩
  | setPlaceholderStructType p fields =>
    obtain ⟨⟨b, _⟩, hmade, rfl⟩ := Option.map_eq_some_iff.mp hcall
    rw [setPlaceholderStructType] at hmade
    split_ifs at hmade with herr hfields
    · obtain ⟨-, rfl⟩ := Prod.mk.inj (Option.some.inj hmade)
      exact ⟨tm, .refl, .inl rfl⟩
    · obtain ⟨-, rfl⟩ := Prod.mk.inj (Option.some.inj hmade)
      exact ⟨tm, .refl, .inl rfl⟩
    obtain ⟨⟨fs, tm₁⟩, hs, hmade⟩ := Option.bind_eq_some_iff.mp hmade
    obtain ⟨_, hset, heq⟩ := Option.map_eq_some_iff.mp hmade
    obtain ⟨-, rfl⟩ := Prod.mk.inj heq
    have hfs : ∀ f ∈ fields, f.btype < tm.heap.length ∧ f.btype ≠ tm.errorType := by
      intro f hf
      refine ⟨hop _ (List.mem_cons_of_mem _ (List.mem_map_of_mem hf)), fun heq => hfields ?_⟩
      rw [List.any_eq_true]
      exact ⟨f, hf, decide_eq_true heq⟩
    obtain ⟨hpath, hlt, -⟩ := sanitizeFields_spec h hfs hs
    exact ⟨tm₁, hpath, .inr ⟨.setFields p fs, rfl, .setFields hlt hset⟩⟩
  | setPlaceholderArrayType p e length =>
    obtain ⟨⟨b, _⟩, hmade, rfl⟩ := Option.map_eq_some_iff.mp hcall
    obtain ⟨tm₁, hpath, hstep⟩ := setPlaceholderArrayType_steps h (hop p (by simp [TypeOp.operands]))
      (hop e (by simp [TypeOp.operands])) hmade
    refine ⟨tm₁, hpath, ?_⟩
    rcases hstep with rfl | ⟨asize, hlen, hstep⟩
    · exact .inl rfl
    · exact .inr ⟨.setElements p e asize, ⟨rfl, rfl, hlen⟩, hstep⟩
  | namedType name x =>
    obtain ⟨⟨r, _⟩, hmade, rfl⟩ := Option.map_eq_some_iff.mp hcall
    obtain ⟨o, ho, hmade⟩ := Option.bind_eq_some_iff.mp hmade
    obtain ⟨copy, hcopy, hmade⟩ := Option.bind_eq_some_iff.mp hmade
    obtain ⟨-, rfl⟩ := Prod.mk.inj (Option.some.inj hmade)
    exact ⟨tm, .refl, .inr ⟨.make { copy with name } copy.kind.waitsFor, rfl,
      .make (.named name ho hcopy)⟩⟩
  | circularPointerType p =>
    obtain ⟨⟨r, _⟩, hmade, rfl⟩ := Option.map_eq_some_iff.mp hcall
    obtain ⟨tm₁, hpath, hstep⟩ := circularPointerType_steps hmade
    exact ⟨tm₁, hpath, hstep.imp_right fun hstep => ⟨.openLoop p r, rfl, hstep⟩⟩

end Calls

end TypeManager
end Dragongo
