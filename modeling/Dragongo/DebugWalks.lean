import Dragongo.TypeWalks

/-!
# Walks that build debug types

`buildDIType` remembers structs and markers of circular pointers alone, and a struct that has a
name under its named copy.
-/

namespace Dragongo
open Layout LType

namespace TypeManager
open Relation Remembering

/-- `buildDIType` goes on from a struct to the fields of its copy, if it has one, from another
type to its parts, and from a marker of a circular pointer to what that is converted to. -/
inductive Visits (tm : TypeManager) : BtypeRef → BtypeRef → Prop
  | part {x y : BtypeRef} {k : BtypeKind} : tm.kindOf x = some k → k.flavor ≠ .structT →
      y ∈ spelledParts k → Visits tm x y
  | field {x y : BtypeRef} {fields : List BtypedIdentifier} : tm.flavorOf x = some .structT →
      tm.kindOf ((tm.revNames x).getD x) = some (.struct fields) → y ∈ fields.map (·.btype) →
      Visits tm x y
  | name {x n : BtypeRef} {o : BtypeObject} : tm.obj x = some o → o.kind = .aux →
      o.type.isVoidTy = false → tm.revNames x = some n → Visits tm x n
  | target {x y : BtypeRef} {o : BtypeObject} : tm.obj x = some o → o.kind = .aux →
      o.type.isVoidTy = false → tm.revNames x = none → o.type ∈ tm.circularPointerTypes →
      tm.circularConversionLoadMap x = some y → Visits tm x y

/-- What is entered in the cache before the calls are made. -/
inductive VisitedFirst (tm : TypeManager) : BtypeRef → BtypeRef → Prop
  | struct {x : BtypeRef} : tm.flavorOf x = some .structT →
      VisitedFirst tm x ((tm.revNames x).getD x)
  | circular {x : BtypeRef} {o : BtypeObject} : tm.obj x = some o → o.kind = .aux →
      o.type.isVoidTy = false → tm.revNames x = none → o.type ∈ tm.circularPointerTypes →
      VisitedFirst tm x x

/-- What `buildStructDIType` asks for: a struct with a layout, a string for it, and fields that
have sizes. -/
def HasMembers (tm : TypeManager) (bst : BtypeRef) : Prop :=
  ∃ o fields, tm.obj bst = some o ∧ o.kind = .struct fields ∧ tm.CanSpell bst ∧
    tm.isSized o.type ∧ ∀ i field, fields[i]? = some field → tm.CanSize field.btype ∧
      (tm.obj field.btype).isSome ∧ Answers (tm.typeFieldOffset bst i)

/-- What `buildDIType` asks for of a type of its kind. -/
def IsDescribable (tm : TypeManager) (x : BtypeRef) (o : BtypeObject) : Prop :=
  match o.kind with
  | .aux => o.type.isVoidTy ∨ (tm.revNames x).isSome ∨ o.type ∈ tm.circularPointerTypes ∧
      tm.CanSpell x ∧ (tm.circularConversionLoadMap x).isSome
  | .float _ | .integer .. => tm.CanSpell x
  | .pointer toType => toType.isSome
  | .array elemType nelSize => nelSize.isSome ∧
      ∃ e elem, elemType = some e ∧ tm.obj e = some elem ∧ tm.isSized elem.type
  | .struct _ => tm.HasMembers ((tm.revNames x).getD x)
  | .function .. => True

def Describable (tm : TypeManager) (x : BtypeRef) : Prop :=
  ∃ o, tm.obj x = some o ∧ tm.IsDescribable x o

def TypeCache.keys (cache : TypeCache) : Set BtypeRef := {x | (cache x).isSome}

def CanBuild (tm : TypeManager) (cache : TypeCache) (x : BtypeRef) : Prop :=
  Walkable tm.Visits tm.VisitedFirst tm.Describable cache.keys x

/-- No copy that the walk comes to has been named again. -/
def NamedOnce (tm : TypeManager) (cache : TypeCache) (x : BtypeRef) : Prop :=
  ∀ y n, ReflTransGen (Beyond tm.Visits cache.keys) x y → tm.flavorOf y = some .structT →
    tm.revNames y = some n → tm.revNames n = none

section Debug
variable {tm : TypeManager} {print : LType → String} {x : BtypeRef} {seen : Set BtypeRef}
  {build : BtypeRef → TypeCache → Except Stop (DIType × TypeCache)} {fuel : ℕ}

theorem TypeCache.mem_keys_insert (cache : TypeCache) (x : BtypeRef) (d : DIType) (y : BtypeRef) :
    y ∈ (cache.insert x d).keys ↔ y = x ∨ y ∈ cache.keys := by
  change ((cache.insert x d) y).isSome ↔ y = x ∨ (cache y).isSome
  unfold TypeCache.insert
  by_cases hyx : y = x <;> simp [hyx]

theorem TypeCache.keys_subset_insert (x : BtypeRef) (d : DIType) (cache : TypeCache) :
    cache.keys ⊆ (cache.insert x d).keys :=
  fun y hy => (cache.mem_keys_insert x d y).mpr (.inr hy)

/-! ## Sizes and alignments of members -/

theorem answers_getPrefTypeAlignment_iff (t : LType) :
    Answers (tm.getPrefTypeAlignment t) ↔ tm.isSized t := by
  unfold getPrefTypeAlignment
  by_cases ht : tm.isSized t
  · rw [if_pos ht]
    exact iff_of_true (.ok _) ht
  · rw [if_neg ht]
    refine iff_of_false ?_ ht
    rintro ⟨a, ha⟩
    cases ha

theorem sizeInBits_isSome_iff (t : LType) : (tm.expand t).sizeInBits.isSome ↔ tm.isSized t := by
  unfold sizeInBits isSized
  by_cases ht : (tm.expand t).isSized <;> simp [ht]

theorem typeFieldAlignment_answers (hx : (tm.obj x).isSome) :
    Answers (tm.typeFieldAlignment x) := by
  obtain ⟨o, ho⟩ := Option.isSome_iff_exists.mp hx
  unfold typeFieldAlignment
  rw [ho, Stop.unless_some_bind]
  by_cases hskip : !tm.isSized o.type || x = tm.errorType
  · rw [if_pos hskip]
    exact .ok _
  · rw [if_neg hskip]
    have hsized : tm.isSized o.type := by simp_all
    obtain ⟨talign, htalign⟩ := (answers_getPrefTypeAlignment_iff o.type).mpr hsized
    have hoffsets : (tm.expand (.struct none [.int 1, o.type])).elementOffsets =
        some (offsets 0 [(tm.expand (.int 1)).shape, (tm.expand o.type).shape]) := by
      have hbit : (tm.expand (.int 1)).isSized := by
        unfold expand
        cases tm.nextOpaque <;> rfl
      have hboth : areSized [tm.expand (.int 1), tm.expand o.type] := by
        rw [areSized_iff]
        simpa using ⟨hbit, hsized⟩
      rw [expand, expandWithin_pair]
      exact if_pos hboth
    rw [hoffsets, Stop.unless_some_bind]
    change Answers (tm.getPrefTypeAlignment o.type >>= fun talign => _)
    rw [htalign]
    exact .ok _

/-! ## Walks that return -/

/-- What follows once `x` has been entered, and is replaced in the end. -/
theorem Retains.entering {α : Type} {call : TypeCache → Except Stop (α × TypeCache)} (x : BtypeRef)
    (temp : DIType) (h : Retains TypeCache.keys call (insert x seen)) :
    Retains TypeCache.keys (fun cache => call (cache.insert x temp)) seen := by
  intro cache hcache
  have hentered : insert x seen ⊆ (cache.insert x temp).keys := by
    intro y hy
    rw [TypeCache.mem_keys_insert]
    exact hy.imp_right fun hy => hcache hy
  obtain ⟨a, cache', ha, hkeys⟩ := h _ hentered
  exact ⟨a, cache', ha, (Set.subset_insert ..).trans hkeys⟩

theorem buildMembers_keeps {bst : BtypeRef} {fields : List BtypedIdentifier} :
    ∀ i, (∀ j field, fields[j]? = some field → Answers (tm.typeSize fuel field.btype) ∧
        (tm.obj field.btype).isSome ∧ Answers (tm.typeFieldOffset bst (i + j))) →
      (∀ y ∈ fields.map (·.btype), Retains TypeCache.keys (build y) seen) →
      Retains TypeCache.keys (tm.buildMembers fuel build bst i fields) seen := by
  induction fields with
  | nil => exact fun i _ _ => .ok []
  | cons field fields ih =>
    intro i hfields h
    obtain ⟨hsize, hmade, hoffset⟩ := hfields 0 field rfl
    have hrest : Retains TypeCache.keys (tm.buildMembers fuel build bst (i + 1) fields) seen := by
      refine ih (i + 1) (fun j f hf => ?_) fun y hy => h y (List.mem_cons_of_mem _ hy)
      rw [Nat.add_right_comm]
      exact hfields (j + 1) f hf
    exact (h field.btype (List.mem_cons_self ..)).bind fun type =>
      .query hsize fun bits _ => .query (typeFieldAlignment_answers hmade) fun align _ =>
        .query hoffset fun offset _ => hrest.bind fun members =>
          .ok (.member field.name bits (align % 2 ^ 32).toNat offset type :: members)

theorem buildStructDIType_keeps (hsize : ∀ y, tm.CanSize y → Answers (tm.typeSize fuel y))
    (hstring : ∀ y, tm.CanSpell y → Answers (tm.typToString print fuel y))
    (hok : tm.HasMembers ((tm.revNames x).getD x))
    (h : ∀ fields, tm.kindOf ((tm.revNames x).getD x) = some (.struct fields) →
      ∀ y ∈ fields.map (·.btype),
        Retains TypeCache.keys (build y) (insert ((tm.revNames x).getD x) seen)) :
    Retains TypeCache.keys (tm.buildStructDIType print fuel build x) seen := by
  unfold buildStructDIType
  generalize (tm.revNames x).getD x = bst at h hok ⊢
  obtain ⟨o, fields, ho, hk, hspell, hsized, hfields⟩ := hok
  have hmembers : Retains TypeCache.keys (tm.buildMembers fuel build bst 0 fields)
      (insert bst seen) := by
    refine buildMembers_keeps 0 (fun j field hj => ?_) (h fields (by rw [kindOf, ho, ← hk]; rfl))
    obtain ⟨hcan, hmade, hoffset⟩ := hfields j field hj
    exact ⟨hsize _ hcan, hmade, (Nat.zero_add j).symm ▸ hoffset⟩
  have hlast : ∀ name members, Retains TypeCache.keys (fun cache =>
      Stop.unless (tm.expand o.type).sizeInBits >>= fun size =>
        tm.getPrefTypeAlignment o.type >>= fun align =>
          .ok (DIType.struct name size align members,
            cache.insert bst (.struct name size align members))) seen :=
    fun name members => .ofOption ((sizeInBits_isSome_iff _).mpr hsized) fun size _ =>
      .query ((answers_getPrefTypeAlignment_iff _).mpr hsized) fun align _ =>
        .update _ (TypeCache.keys_subset_insert bst _)
  refine .ofOption (ho ▸ rfl) fun o' ho' => ?_
  cases ho.symm.trans ho'
  rw [hk]
  exact .query (hstring bst hspell) fun name _ =>
    (hmembers.entering bst (.temporary bst name)).bind (hlast name)

theorem buildCircularPointerDIType_keeps (hrev : tm.revNames x = none)
    (hstring : Answers (tm.typToString print fuel x))
    (htarget : (tm.circularConversionLoadMap x).isSome)
    (h : ∀ y, tm.circularConversionLoadMap x = some y →
      Retains TypeCache.keys (build y) (insert x seen)) :
    Retains TypeCache.keys (tm.buildCircularPointerDIType print fuel build x) seen := by
  unfold buildCircularPointerDIType
  rw [hrev, Option.getD_none]
  refine .query hstring fun name _ => .ofOption htarget fun y hy => ?_
  have hlast : ∀ d, Retains TypeCache.keys (fun cache =>
      .ok (DIType.pointer d pointerSizeInBits,
        cache.insert x (.pointer d pointerSizeInBits))) seen :=
    fun d => .update _ (TypeCache.keys_subset_insert x _)
  exact ((h y hy).entering x (.temporary x name)).bind hlast

/-- The calls that `buildKind` makes are those of `Visits`. -/
theorem buildKind_keeps {o : BtypeObject} (ho : tm.obj x = some o) (hok : tm.IsDescribable x o)
    (hsize : ∀ y, tm.CanSize y → Answers (tm.typeSize fuel y))
    (hstring : ∀ y, tm.CanSpell y → Answers (tm.typToString print fuel y))
    (h : ∀ y, tm.Visits x y → ∀ seen', seen ⊆ seen' → (∀ m, tm.VisitedFirst x m → m ∈ seen') →
      Retains TypeCache.keys (build y) seen') :
    Retains TypeCache.keys (tm.buildKind print fuel build x o) seen := by
  have hx : tm.kindOf x = some o.kind := by rw [kindOf, ho]; rfl
  -- a type that is neither a struct nor a marker is not entered first
  have hpart : ∀ y, o.kind.flavor ≠ .structT → o.kind.flavor ≠ .auxT → y ∈ spelledParts o.kind →
      Retains TypeCache.keys (build y) seen := by
    intro y hs haux hy
    refine h y (.part hx hs hy) seen (subset_refl _) fun m hm => ?_
    cases hm with
    | struct hflavor =>
      rw [flavorOf, hx] at hflavor
      exact (hs (Option.some.inj hflavor)).elim
    | circular ho' hk _ _ _ =>
      cases ho.symm.trans ho'
      rw [hk] at haux
      exact (haux rfl).elim
  unfold buildKind
  unfold IsDescribable at hok
  cases hk : o.kind with
  | aux =>
    rw [hk] at hok
    have hflavor : tm.flavorOf x ≠ some .structT := by
      rw [flavorOf, hx, hk]
      exact fun h => by cases h
    cases hrev : tm.revNames x with
    | some n =>
      dsimp only
      split_ifs with hvoid
      · exact .ok _
      have hvoid := Bool.eq_false_iff.mpr hvoid
      refine h n (.name ho hk hvoid hrev) seen (subset_refl _) fun m hm => ?_
      cases hm with
      | struct hs => exact (hflavor hs).elim
      | circular _ _ _ hnone _ => cases hrev.symm.trans hnone
    | none =>
      rw [hrev] at hok
      dsimp only
      split_ifs with hvoid hcircular
      · exact .ok _
      · obtain ⟨-, hspell, htarget⟩ := (hok.resolve_left hvoid).resolve_left Bool.false_ne_true
        have hvoid := Bool.eq_false_iff.mpr hvoid
        refine buildCircularPointerDIType_keeps hrev (hstring x hspell) htarget fun y hy => ?_
        refine h y (.target ho hk hvoid hrev hcircular hy) _ (Set.subset_insert ..) fun m hm => ?_
        cases hm with
        | struct hs => exact (hflavor hs).elim
        | circular => exact Set.mem_insert ..
      · have hnot := (hok.resolve_left hvoid).resolve_left Bool.false_ne_true
        exact (hcircular hnot.1).elim
  | integer =>
    rw [hk] at hok
    exact .query (hstring x hok) fun name _ => .ok _
  | float =>
    rw [hk] at hok
    exact .query (hstring x hok) fun name _ => .ok _
  | pointer toType =>
    rw [hk] at hpart hok
    refine .ofOption hok fun t ht => ?_
    have hto := hpart t TyFlavor.noConfusion TyFlavor.noConfusion (ht ▸ List.mem_singleton_self t)
    have hlast : ∀ d, Retains TypeCache.keys
        (fun cache => .ok (DIType.pointer d pointerSizeInBits, cache)) seen := fun d => .ok _
    exact hto.bind hlast
  | array elemType nelSize =>
    rw [hk] at hpart hok
    obtain ⟨hnel, e, elem, rfl, helem, hsized⟩ := hok
    have hto := hpart e TyFlavor.noConfusion TyFlavor.noConfusion (List.mem_singleton_self e)
    have hlast : ∀ d, Retains TypeCache.keys (fun cache => Stop.unless nelSize >>= fun n =>
        Stop.unless (tm.obj e) >>= fun elem => tm.getPrefTypeAlignment elem.type >>= fun align =>
          .ok (DIType.array n align d n, cache)) seen := by
      intro d
      refine .ofOption hnel fun n _ => .ofOption (helem ▸ rfl) fun elem' helem' => ?_
      cases helem.symm.trans helem'
      exact .query ((answers_getPrefTypeAlignment_iff _).mpr hsized) fun align _ => .ok _
    exact hto.bind hlast
  | struct fields =>
    rw [hk] at hx hok
    have hflavor : tm.flavorOf x = some .structT := by rw [flavorOf, hx]; rfl
    refine buildStructDIType_keeps hsize hstring hok fun fields' hcopy y hy => ?_
    refine h y (.field hflavor hcopy hy) _ (Set.subset_insert ..) fun m hm => ?_
    cases hm with
    | struct => exact Set.mem_insert ..
    | circular ho' haux _ _ _ =>
      cases ho.symm.trans ho'
      cases hk.symm.trans haux
  | function receiverType paramTypes resultTypes resultType followsCabi =>
    rw [hk] at hpart
    have hall : Retains TypeCache.keys
        (inOrder build (resultType :: receiverType.toList ++ paramTypes)) seen := by
      refine .inOrder fun y hy => hpart y TyFlavor.noConfusion TyFlavor.noConfusion ?_
      rcases List.mem_cons.mp hy with rfl | hy
      · exact List.mem_append_right _ (List.mem_singleton_self _)
      · exact List.mem_append_left _ hy
    have hlast : ∀ types, Retains TypeCache.keys
        (fun cache => .ok (DIType.subroutine types, cache)) seen := fun types => .ok _
    simp only [buildAll_eq_inOrder]
    exact hall.bind hlast

theorem buildDIType_walk (hnames : tm.Names) {n : ℕ} (cache : TypeCache)
    (hsize : ∀ fuel, n ≤ fuel → ∀ y, tm.CanSize y → Answers (tm.typeSize fuel y))
    (hstring : ∀ fuel, n ≤ fuel → ∀ y, tm.CanSpell y → Answers (tm.typToString print fuel y)) :
    Walk (fun fuel x seen => Retains TypeCache.keys (tm.buildDIType print (fuel + n) x) seen)
      tm.Visits tm.VisitedFirst tm.Describable tm.types cache.keys where
  source := by
    intro x y h
    have hkind : ∃ k, tm.kindOf x = some k := by
      cases h with
      | part hk => exact ⟨_, hk⟩
      | field hflavor =>
        obtain ⟨k, hk, -⟩ := Option.map_eq_some_iff.mp hflavor
        exact ⟨k, hk⟩
      | name ho | target ho => exact ⟨_, by rw [kindOf, ho]; rfl⟩
    obtain ⟨k, hk⟩ := hkind
    obtain ⟨o, ho, -⟩ := Option.map_eq_some_iff.mp hk
    exact mem_types ho
  marked := by
    intro x m h
    cases h with
    | struct hflavor =>
      cases hrev : tm.revNames x with
      | none =>
        obtain ⟨k, hk, -⟩ := Option.map_eq_some_iff.mp hflavor
        obtain ⟨o, ho, -⟩ := Option.map_eq_some_iff.mp hk
        exact mem_types ho
      | some n => exact Finset.mem_range.mpr (hnames.made n (hnames.named x n hrev))
    | circular ho => exact mem_types ho
  known := by
    intro fuel x seen hx _ cache hcache
    obtain ⟨d, hd⟩ := Option.isSome_iff_exists.mp (hcache hx)
    rw [Nat.add_right_comm, buildDIType, hd]
    exact Retains.ok d cache hcache
  step := by
    intro fuel x seen _ hok h cache hcache
    rw [Nat.add_right_comm, buildDIType]
    cases cache x with
    | some d => exact Retains.ok d cache hcache
    | none =>
      have hle : n ≤ fuel + n := Nat.le_add_left ..
      obtain ⟨o, ho, hok⟩ := hok
      have hkind : Retains TypeCache.keys
          (tm.buildKind print (fuel + n) (tm.buildDIType print (fuel + n)) x o) seen :=
        buildKind_keeps ho hok (hsize _ hle) (hstring _ hle) h
      rw [ho, Stop.unless_some_bind]
      exact hkind cache hcache

theorem buildDIType_returns (hr : tm.Reachable) (print : LType → String) {cache : TypeCache}
    (hx : tm.CanBuild cache x) : Terminates fun fuel => tm.buildDIType print fuel x cache := by
  let m := enough tm.types.card tm.types.card
  have hsize : ∀ fuel, m ≤ fuel → ∀ y, tm.CanSize y → Answers (tm.typeSize fuel y) :=
    fun fuel hfuel y hy => typeSize_answers hy hfuel
  have hstring : ∀ fuel, m ≤ fuel → ∀ y, tm.CanSpell y → Answers (tm.typToString print fuel y) :=
    fun fuel hfuel y hy => typToString_answers print hy hfuel
  refine ⟨m + m, fun fuel hfuel => ?_⟩
  have hrest : m ≤ fuel - m := by omega
  have hbuild := (buildDIType_walk hr.names cache hsize hstring).returns hx hrest
  rw [Nat.sub_add_cancel (by omega)] at hbuild
  obtain ⟨d, cache', h, -⟩ := hbuild cache (subset_refl _)
  exact ⟨_, h⟩

/-! ## Walks that have returned -/

/-- Neither a struct nor a marker. -/
theorem visits_iff_part {o : BtypeObject} (ho : tm.obj x = some o) (hs : o.kind.flavor ≠ .structT)
    (haux : o.kind.flavor ≠ .auxT) (y : BtypeRef) :
    tm.Visits x y ↔ y ∈ spelledParts o.kind := by
  have hx : tm.kindOf x = some o.kind := by rw [kindOf, ho]; rfl
  refine ⟨fun h => ?_, fun hy => .part hx hs hy⟩
  cases h with
  | part hk _ hy => exact Option.some.inj (hk.symm.trans hx) ▸ hy
  | field hflavor _ _ =>
    rw [flavorOf, hx] at hflavor
    exact (hs (Option.some.inj hflavor)).elim
  | name ho' hk _ _ | target ho' hk _ _ _ _ =>
    cases ho.symm.trans ho'
    rw [hk] at haux
    exact (haux rfl).elim

theorem visits_iff_field {o : BtypeObject} {fields fields' : List BtypedIdentifier}
    (ho : tm.obj x = some o) (hk : o.kind = .struct fields)
    (hcopy : tm.kindOf ((tm.revNames x).getD x) = some (.struct fields')) (y : BtypeRef) :
    tm.Visits x y ↔ y ∈ fields'.map (·.btype) := by
  have hx : tm.kindOf x = some (.struct fields) := by rw [kindOf, ho, ← hk]; rfl
  refine ⟨fun h => ?_, fun hy => .field (by rw [flavorOf, hx]; rfl) hcopy hy⟩
  cases h with
  | part hk' hs _ =>
    cases hk'.symm.trans hx
    exact (hs rfl).elim
  | field _ hcopy' hy =>
    cases hcopy.symm.trans hcopy'
    exact hy
  | name ho' haux _ _ | target ho' haux _ _ _ _ =>
    cases ho.symm.trans ho'
    cases hk.symm.trans haux

theorem visits_iff_aux {o : BtypeObject} (ho : tm.obj x = some o) (hk : o.kind = .aux)
    (y : BtypeRef) : tm.Visits x y ↔ o.type.isVoidTy = false ∧ (tm.revNames x = some y ∨
      tm.revNames x = none ∧ o.type ∈ tm.circularPointerTypes ∧
        tm.circularConversionLoadMap x = some y) := by
  have hx : tm.kindOf x = some .aux := by rw [kindOf, ho, ← hk]; rfl
  constructor
  · intro h
    cases h with
    | part hk' _ hy =>
      cases hk'.symm.trans hx
      exact absurd hy List.not_mem_nil
    | field hflavor _ _ =>
      rw [flavorOf, hx] at hflavor
      cases hflavor
    | name ho' _ hvoid hrev =>
      cases ho.symm.trans ho'
      exact ⟨hvoid, .inl hrev⟩
    | target ho' _ hvoid hrev hcircular hy =>
      cases ho.symm.trans ho'
      exact ⟨hvoid, .inr ⟨hrev, hcircular, hy⟩⟩
  · rintro ⟨hvoid, hrev | ⟨hrev, hcircular, hy⟩⟩
    · exact .name ho hk hvoid hrev
    · exact .target ho hk hvoid hrev hcircular hy

theorem obj_isSome_of_typeFieldAlignment (h : Answers (tm.typeFieldAlignment x)) :
    (tm.obj x).isSome := by
  obtain ⟨a, h⟩ := h
  obtain ⟨o, ho, -⟩ := Stop.bind_eq_ok h
  rw [Stop.unless_eq_ok ho]
  rfl

theorem buildMembers_calls {bst : BtypeRef} : ∀ {fields : List BtypedIdentifier} {i : ℕ}
    {cache cache' : TypeCache} {ds : List DIType},
    tm.buildMembers fuel build bst i fields cache = .ok (ds, cache') →
      (∀ j field, fields[j]? = some field → Answers (tm.typeSize fuel field.btype) ∧
        (tm.obj field.btype).isSome ∧ Answers (tm.typeFieldOffset bst (i + j))) ∧
      Calls (fun y => Returned TypeCache.keys (build y)) (fields.map (·.btype)) cache.keys
        cache'.keys
  | [], i, cache, cache', ds, h => by
    cases h
    exact ⟨fun _ _ hj => absurd hj (by simp), .nil _⟩
  | field :: fields, i, cache, cache', ds, h => by
    obtain ⟨⟨d, cache₁⟩, hd, h⟩ := Stop.bind_eq_ok h
    obtain ⟨size, hsize, h⟩ := Stop.bind_eq_ok h
    obtain ⟨align, halign, h⟩ := Stop.bind_eq_ok h
    obtain ⟨offset, hoffset, h⟩ := Stop.bind_eq_ok h
    obtain ⟨⟨ds', cache₂⟩, hrest, h⟩ := Stop.bind_eq_ok h
    cases h
    obtain ⟨hfields, hcalls⟩ := buildMembers_calls hrest
    refine ⟨fun j f hj => ?_, .cons ⟨cache, d, cache₁, rfl, rfl, hd⟩ hcalls⟩
    cases j with
    | zero =>
      cases hj
      exact ⟨⟨size, hsize⟩, obj_isSome_of_typeFieldAlignment ⟨align, halign⟩, ⟨offset, hoffset⟩⟩
    | succ j =>
      have hj' := hfields j f hj
      rwa [Nat.add_right_comm] at hj'

variable {cache cache' : TypeCache} {d : DIType} {o : BtypeObject}

theorem buildStructDIType_leaves {fields : List BtypedIdentifier} (hnew : x ∉ cache.keys)
    (ho : tm.obj x = some o) (hk : o.kind = .struct fields)
    (h : tm.buildStructDIType print fuel build x cache = .ok (d, cache')) :
    Leaves (fun y => Returned TypeCache.keys (build y)) tm.Visits tm.VisitedFirst tm.Describable x
      cache.keys cache'.keys := by
  have hmark : tm.VisitedFirst x ((tm.revNames x).getD x) := by
    refine .struct ?_
    rw [flavorOf, kindOf, ho]
    exact congrArg some (congrArg BtypeKind.flavor hk)
  unfold buildStructDIType at h
  have hdescribable : tm.HasMembers ((tm.revNames x).getD x) → tm.Describable x := by
    intro hok
    refine ⟨o, ho, ?_⟩
    rw [IsDescribable, hk]
    exact hok
  have hvisits := @visits_iff_field tm x o fields
  generalize (tm.revNames x).getD x = bst at h hmark hdescribable hvisits
  obtain ⟨o', ho', h⟩ := Stop.bind_eq_ok h
  cases hk' : o'.kind with
  | struct fields' =>
    rw [hk'] at h
    obtain ⟨name, hname, h⟩ := Stop.bind_eq_ok h
    obtain ⟨⟨members, cache₁⟩, hmembers, h⟩ := Stop.bind_eq_ok h
    obtain ⟨size, hsize, h⟩ := Stop.bind_eq_ok h
    obtain ⟨align, halign, h⟩ := Stop.bind_eq_ok h
    cases h
    have ho' := Stop.unless_eq_ok ho'
    obtain ⟨hfields, hcalls⟩ := buildMembers_calls hmembers
    have hok : tm.HasMembers bst := by
      refine ⟨o', fields', ho', hk', canSpell_of_answers ⟨name, hname⟩,
        (answers_getPrefTypeAlignment_iff _).mp ⟨align, halign⟩, fun j field hj => ?_⟩
      obtain ⟨hcan, hmade, hoffset⟩ := hfields j field hj
      exact ⟨canSize_of_answers hcan, hmade, Nat.zero_add j ▸ hoffset⟩
    refine .inr ⟨hnew, hdescribable hok, _, _, _, TypeCache.keys_subset_insert bst _ _, ?_, hcalls,
      ?_, TypeCache.keys_subset_insert .., ?_⟩
    · intro m hm
      rcases (TypeCache.mem_keys_insert ..).mp hm with rfl | hm
      · exact .inr hmark
      · exact .inl hm
    · intro y
      exact (hvisits ho hk (by rw [kindOf, ho', ← hk']; rfl) y).symm
    · intro m hm
      rcases (TypeCache.mem_keys_insert ..).mp hm with rfl | hm
      · exact .inr (.inr hmark)
      · exact .inl hm
  | _ =>
    rw [hk'] at h
    cases h

theorem buildCircularPointerDIType_leaves (hnew : x ∉ cache.keys) (ho : tm.obj x = some o)
    (hk : o.kind = .aux) (hvoid : o.type.isVoidTy = false) (hrev : tm.revNames x = none)
    (hcircular : o.type ∈ tm.circularPointerTypes)
    (h : tm.buildCircularPointerDIType print fuel build x cache = .ok (d, cache')) :
    Leaves (fun y => Returned TypeCache.keys (build y)) tm.Visits tm.VisitedFirst tm.Describable x
      cache.keys cache'.keys := by
  unfold buildCircularPointerDIType at h
  rw [hrev, Option.getD_none] at h
  obtain ⟨name, hname, h⟩ := Stop.bind_eq_ok h
  obtain ⟨y, hy, h⟩ := Stop.bind_eq_ok h
  obtain ⟨⟨d', cache₁⟩, hcall, h⟩ := Stop.bind_eq_ok h
  cases h
  have hy := Stop.unless_eq_ok hy
  have hok : tm.Describable x := by
    refine ⟨o, ho, ?_⟩
    rw [IsDescribable, hk]
    exact .inr (.inr ⟨hcircular, canSpell_of_answers ⟨name, hname⟩, hy ▸ rfl⟩)
  refine .inr ⟨hnew, hok, _, _, [y], TypeCache.keys_subset_insert x _ _, ?_, calls_single hcall, ?_,
    TypeCache.keys_subset_insert .., ?_⟩
  · intro m hm
    rcases (TypeCache.mem_keys_insert ..).mp hm with rfl | hm
    · exact .inr (.circular ho hk hvoid hrev hcircular)
    · exact .inl hm
  · intro z
    rw [visits_iff_aux ho hk, hy]
    simp [hvoid, hrev, hcircular, eq_comm]
  · intro m hm
    rcases (TypeCache.mem_keys_insert ..).mp hm with rfl | hm
    · exact .inr (.inl rfl)
    · exact .inl hm

theorem buildKind_leaves (hnew : x ∉ cache.keys) (ho : tm.obj x = some o)
    (h : tm.buildKind print fuel build x o cache = .ok (d, cache')) :
    Leaves (fun y => Returned TypeCache.keys (build y)) tm.Visits tm.VisitedFirst tm.Describable x
      cache.keys cache'.keys := by
  have hok : tm.IsDescribable x o → tm.Describable x := fun hok => ⟨o, ho, hok⟩
  have hparts := @visits_iff_part tm x o ho
  unfold buildKind at h
  unfold IsDescribable at hok
  cases hk : o.kind with
  | aux =>
    rw [hk] at h hok
    dsimp only at h hok
    by_cases hvoid : o.type.isVoidTy
    · rw [if_pos hvoid] at h
      cases h
      refine .of_leaf (hok (.inl hvoid)) fun y hy => ?_
      exact Bool.false_ne_true (((visits_iff_aux ho hk y).mp hy).1.symm.trans hvoid)
    rw [if_neg hvoid] at h
    have hvoid := Bool.eq_false_iff.mpr hvoid
    cases hrev : tm.revNames x with
    | some n =>
      rw [hrev] at h hok
      refine .inr ⟨hnew, hok (.inr (.inl rfl)), _, _, [n], subset_refl _, fun _ hm => .inl hm,
        calls_single h, fun y => ?_, subset_refl _, fun _ hm => .inl hm⟩
      rw [visits_iff_aux ho hk, hrev]
      simp [hvoid, eq_comm]
    | none =>
      rw [hrev] at h
      by_cases hcircular : o.type ∈ tm.circularPointerTypes
      · rw [if_pos hcircular] at h
        exact buildCircularPointerDIType_leaves hnew ho hk hvoid hrev hcircular h
      · rw [if_neg hcircular] at h
        cases h
  | integer | float =>
    rw [hk] at h hok hparts
    obtain ⟨name, hname, h⟩ := Stop.bind_eq_ok h
    cases h
    refine .of_leaf (hok (canSpell_of_answers ⟨name, hname⟩)) fun y hy => ?_
    exact absurd ((hparts TyFlavor.noConfusion TyFlavor.noConfusion y).mp hy) List.not_mem_nil
  | pointer toType =>
    rw [hk] at h hok hparts
    obtain ⟨t, ht, h⟩ := Stop.bind_eq_ok h
    obtain ⟨⟨d', cache₁⟩, hcall, h⟩ := Stop.bind_eq_ok h
    cases h
    cases Stop.unless_eq_ok ht
    exact .inr ⟨hnew, hok rfl, _, _, [t], subset_refl _, fun _ hm => .inl hm, calls_single hcall,
      fun y => (hparts TyFlavor.noConfusion TyFlavor.noConfusion y).symm, subset_refl _,
      fun _ hm => .inl hm⟩
  | array elemType nelSize =>
    rw [hk] at h hok hparts
    obtain ⟨e, he, h⟩ := Stop.bind_eq_ok h
    obtain ⟨⟨d', cache₁⟩, hcall, h⟩ := Stop.bind_eq_ok h
    obtain ⟨n, hn, h⟩ := Stop.bind_eq_ok h
    obtain ⟨elem, helem, h⟩ := Stop.bind_eq_ok h
    obtain ⟨align, halign, h⟩ := Stop.bind_eq_ok h
    cases h
    cases Stop.unless_eq_ok he
    have hsized := (answers_getPrefTypeAlignment_iff _).mp ⟨align, halign⟩
    exact .inr ⟨hnew, hok ⟨Stop.unless_eq_ok hn ▸ rfl, e, elem, rfl, Stop.unless_eq_ok helem, hsized⟩,
      _, _, [e], subset_refl _, fun _ hm => .inl hm, calls_single hcall,
      fun y => (hparts TyFlavor.noConfusion TyFlavor.noConfusion y).symm, subset_refl _,
      fun _ hm => .inl hm⟩
  | struct fields =>
    rw [hk] at h
    exact buildStructDIType_leaves hnew ho hk h
  | function receiverType paramTypes resultTypes resultType followsCabi =>
    rw [hk] at h hok hparts
    obtain ⟨⟨types, cache₁⟩, hcalls, h⟩ := Stop.bind_eq_ok h
    cases h
    rw [buildAll_eq_inOrder] at hcalls
    refine .inr ⟨hnew, hok trivial, _, _, _, subset_refl _, fun _ hm => .inl hm,
      calls_of_inOrder hcalls, fun y => ?_, subset_refl _, fun _ hm => .inl hm⟩
    rw [hparts TyFlavor.noConfusion TyFlavor.noConfusion y, spelledParts]
    simp only [List.mem_append, List.mem_cons, List.not_mem_nil, or_false]
    tauto

theorem buildDIType_trace (tm : TypeManager) (print : LType → String) :
    Trace (fun fuel x => Returned TypeCache.keys (tm.buildDIType print fuel x)) tm.Visits
      tm.VisitedFirst tm.Describable where
  zero := by
    rintro x seen seen' ⟨cache, d, cache', -, -, h⟩
    cases h
  succ := by
    rintro fuel x seen seen' ⟨cache, d, cache', rfl, rfl, h⟩
    rw [buildDIType] at h
    cases hx : cache x with
    | some d' =>
      rw [hx] at h
      cases h
      exact .inl ⟨Option.isSome_iff_exists.mpr ⟨_, hx⟩, rfl⟩
    | none =>
      rw [hx] at h
      obtain ⟨o, ho, h⟩ := Stop.bind_eq_ok h
      have hnew : x ∉ cache.keys := fun hmem =>
        absurd (hx ▸ hmem : (none : Option DIType).isSome) Bool.false_ne_true
      exact buildKind_leaves hnew (Stop.unless_eq_ok ho) h

theorem hasMembers_of_describable (hok : tm.Describable x) (hflavor : tm.flavorOf x = some .structT) :
    tm.HasMembers ((tm.revNames x).getD x) := by
  obtain ⟨o, ho, hok⟩ := hok
  have hk : o.kind.flavor = .structT := by
    rw [flavorOf, kindOf, ho] at hflavor
    exact Option.some.inj hflavor
  unfold IsDescribable at hok
  cases hkind : o.kind with
  | struct fields =>
    rw [hkind] at hok
    exact hok
  | _ =>
    rw [hkind] at hk
    cases hk

/-- A named copy that has no name of its own stands for the type that it was made of. -/
theorem VisitedFirst.standsFor {m : BtypeRef} (hok : tm.Describable x) (h : tm.VisitedFirst x m)
    (honce : ∀ n, tm.flavorOf x = some .structT → tm.revNames x = some n →
      tm.revNames n = none) :
    StandsFor tm.Visits tm.VisitedFirst tm.Describable x m := by
  cases h with
  | circular ho hk hvoid hrev hcircular =>
    exact ⟨.circular ho hk hvoid hrev hcircular, hok, fun _ hy => hy⟩
  | struct hflavor =>
    have hmembers := hasMembers_of_describable hok hflavor
    have hn : tm.revNames ((tm.revNames x).getD x) = none := by
      cases hrev : tm.revNames x with
      | none => exact hrev
      | some n => exact honce n hflavor hrev
    have hcopy := @visits_iff_field tm x
    obtain ⟨o, ho, -⟩ := hok
    have hx : ∃ fields, o.kind = .struct fields := by
      rw [flavorOf, kindOf, ho] at hflavor
      cases hk : o.kind with
      | struct fields => exact ⟨fields, rfl⟩
      | _ =>
        rw [Option.map_some, Option.map_some, hk] at hflavor
        cases hflavor
    obtain ⟨fields, hk⟩ := hx
    generalize (tm.revNames x).getD x = n at hmembers hn hcopy
    have hself : (tm.revNames n).getD n = n := by rw [hn, Option.getD_none]
    obtain ⟨o', fields', ho', hk', -⟩ := id hmembers
    have hkind : tm.kindOf n = some (.struct fields') := by rw [kindOf, ho', ← hk']; rfl
    refine ⟨?_, ⟨o', ho', ?_⟩, fun y hy => ?_⟩
    · have hmark : tm.VisitedFirst n ((tm.revNames n).getD n) := .struct (by rw [flavorOf, hkind]; rfl)
      rwa [hself] at hmark
    · rw [IsDescribable, hk']
      exact hself.symm ▸ hmembers
    · rw [visits_iff_field ho' hk' (hself.symm ▸ hkind)] at hy
      exact (hcopy ho hk hkind y).mpr hy

theorem canBuild_of_answers {cache : TypeCache} (honce : tm.NamedOnce cache x)
    (h : Answers (tm.buildDIType print fuel x cache)) : tm.CanBuild cache x := by
  obtain ⟨⟨d, cache'⟩, h⟩ := h
  exact (buildDIType_trace tm print).walkable
    (fun y m hreach hok hm => hm.standsFor hok fun n => honce y n hreach)
    ⟨cache, d, cache', rfl, rfl, h⟩

/-- A string is returned exactly for the types from which nothing is reached that is not set, and
no loop that is never remembered.  Under the same condition on the calls of `buildDIType` a debug
type is returned, and only then if the walk comes to no copy that has been named again: then the
order of the calls decides. -/
theorem walks_return_iff (hr : tm.Reachable) (print : LType → String) (x : BtypeRef)
    (cache : TypeCache) :
    ((Terminates fun fuel => tm.typToString print fuel x) ↔ tm.CanSpell x) ∧
      (tm.CanBuild cache x → Terminates fun fuel => tm.buildDIType print fuel x cache) ∧
      (tm.NamedOnce cache x → (Terminates fun fuel => tm.buildDIType print fuel x cache) →
        tm.CanBuild cache x) := by
  refine ⟨typToString_returns_iff print, buildDIType_returns hr print, fun honce => ?_⟩
  rintro ⟨n, hn⟩
  exact canBuild_of_answers honce (hn n le_rfl)

/-- The calls for `type T struct { next *T }`. -/
def recursiveStruct : List TypeOp :=
  [.placeholderStructType "T", .pointerType 3, .setPlaceholderStructType 3 [⟨"next", 4, 0⟩]]

/-- The loop of a struct and a pointer to it. -/
structure IsList (tm : TypeManager) : Prop where
  struct : tm.obj 3 = some ⟨"T", .structRef 1, false, .struct [⟨"next", 4, 0⟩]⟩
  pointer : tm.obj 4 = some ⟨"", ptr (.structRef 1), false, .pointer (some 3)⟩
  unnamed : tm.nameOf 3 = none ∧ tm.nameOf 4 = none ∧ tm.revNames 3 = none
  sized : tm.isSized (.structRef 1) ∧ tm.isSized (ptr (.structRef 1))
  offset : tm.typeFieldOffset 3 0 = .ok 0

theorem isList_recursiveStruct {tm : TypeManager}
    (h : (newManager id).run recursiveStruct = some tm) : tm.IsList := by
  have hrun : ((newManager id).run recursiveStruct).map (fun tm => (tm.obj 3, tm.obj 4,
      decide (tm.nameOf 3 = none ∧ tm.nameOf 4 = none ∧ tm.revNames 3 = none),
      tm.isSized (.structRef 1) && tm.isSized (ptr (.structRef 1)),
      (tm.typeFieldOffset 3 0).toOption)) =
    some (some ⟨"T", .structRef 1, false, .struct [⟨"next", 4, 0⟩]⟩,
      some ⟨"", ptr (.structRef 1), false, .pointer (some 3)⟩, true, true, some 0) := by decide
  rw [h, Option.map_some, Option.some_inj] at hrun
  simp only [Prod.mk.injEq, decide_eq_true_eq, Bool.and_eq_true] at hrun
  obtain ⟨hstruct, hpointer, hunnamed, hsized, hoffset⟩ := hrun
  refine ⟨hstruct, hpointer, hunnamed, hsized, ?_⟩
  cases hcall : tm.typeFieldOffset 3 0 with
  | error =>
    rw [hcall] at hoffset
    cases hoffset
  | ok n =>
    rw [hcall] at hoffset
    rw [Option.some.inj hoffset]

namespace IsList

variable {tm : TypeManager}

theorem spells (h : tm.IsList) {x y : BtypeRef} (hx : x = 3 ∨ x = 4) (hy : tm.Spells x y) :
    x = 3 ∧ y = 4 ∨ x = 4 ∧ y = 3 := by
  obtain ⟨-, k, hk, hy⟩ := hy
  rcases hx with rfl | rfl
  · rw [kindOf, h.struct] at hk
    cases hk
    exact .inl ⟨rfl, List.mem_singleton.mp hy⟩
  · rw [kindOf, h.pointer] at hk
    cases hk
    exact .inr ⟨rfl, List.mem_singleton.mp hy⟩

theorem visits (h : tm.IsList) {x y : BtypeRef} (hx : x = 3 ∨ x = 4) (hy : tm.Visits x y) :
    x = 3 ∧ y = 4 ∨ x = 4 ∧ y = 3 := by
  rcases hx with rfl | rfl
  · have hcopy : tm.kindOf ((tm.revNames 3).getD 3) = some (.struct [⟨"next", 4, 0⟩]) := by
      rw [h.unnamed.2.2, Option.getD_none, kindOf, h.struct]
      rfl
    exact .inl ⟨rfl, List.mem_singleton.mp ((visits_iff_field h.struct rfl hcopy y).mp hy)⟩
  · have hpart := (visits_iff_part h.pointer TyFlavor.noConfusion TyFlavor.noConfusion y).mp hy
    exact .inr ⟨rfl, List.mem_singleton.mp hpart⟩

/-- All that is reached is the struct or the pointer, of which the struct is remembered. -/
theorem walkable {r marks : BtypeRef → BtypeRef → Prop} {ok : BtypeRef → Prop}
    (hr : ∀ x y, x = 3 ∨ x = 4 → r x y → x = 3 ∧ y = 4 ∨ x = 4 ∧ y = 3) (hmark : marks 3 3)
    (hstruct : ok 3) (hpointer : ok 4) (seen : Set BtypeRef) :
    Remembering.Walkable r marks ok seen 3 := by
  have hreach : ∀ y, ReflTransGen (Beyond r seen) 3 y → y = 3 ∨ y = 4 := by
    intro y hy
    induction hy with
    | refl => exact .inl rfl
    | tail _ hstep ih => exact (hr _ _ ih hstep.2).symm.imp And.right And.right
  refine ⟨fun y hy _ => ?_, .of_marked fun x y hxy => ?_⟩
  · rcases hreach y hy with rfl | rfl
    · exact hstruct
    · exact hpointer
  · rcases hr x y (hreach x hxy.1) hxy.2.2 with ⟨rfl, -⟩ | ⟨-, rfl⟩
    · exact .inl hmark
    · exact .inr hmark

theorem canSpell (h : tm.IsList) : tm.CanSpell 3 := by
  refine walkable (fun _ _ hx hy => h.spells hx hy) ⟨rfl, _, by rw [kindOf, h.struct]; rfl⟩
    ⟨fun name hn => ?_, fun _ => ⟨_, h.struct, rfl, ?_⟩⟩
    ⟨fun name hn => ?_, fun _ => ⟨_, h.pointer, rfl, ?_⟩⟩ ∅
  · cases h.unnamed.1.symm.trans hn
  · intro bits hbits
    cases hbits
  · cases h.unnamed.2.1.symm.trans hn
  · intro bits hbits
    cases hbits

theorem canBuild (h : tm.IsList) (cache : TypeCache) : tm.CanBuild cache 3 := by
  have hself : (tm.revNames 3).getD 3 = 3 := by rw [h.unnamed.2.2, Option.getD_none]
  have hmark : tm.VisitedFirst 3 3 := by
    have hmark : tm.VisitedFirst 3 ((tm.revNames 3).getD 3) :=
      .struct (by rw [flavorOf, kindOf, h.struct]; rfl)
    rwa [hself] at hmark
  have hsize : tm.CanSize 4 := by
    refine .inr (.of_leaf ⟨_, h.pointer, .inl h.sized.2⟩ ?_)
    rintro y ⟨o, ho, hnot, -⟩
    cases h.pointer.symm.trans ho
    exact hnot h.sized.2
  have hmembers : tm.HasMembers 3 := by
    refine ⟨_, _, h.struct, rfl, h.canSpell, h.sized.1, fun i field hi => ?_⟩
    obtain ⟨rfl, rfl⟩ : i = 0 ∧ field = ⟨"next", 4, 0⟩ := by
      cases i with
      | zero => exact ⟨rfl, (Option.some.inj hi).symm⟩
      | succ i => cases hi
    exact ⟨hsize, h.pointer ▸ rfl, _, h.offset⟩
  refine walkable (fun _ _ hx hy => h.visits hx hy) hmark ⟨_, h.struct, ?_⟩
    ⟨_, h.pointer, rfl⟩ cache.keys
  change tm.HasMembers ((tm.revNames 3).getD 3)
  rw [hself]
  exact hmembers

end IsList

/-- Both walks return for the type of a list. -/
theorem recursiveStruct_walks_return : ∃ tm, (newManager id).run recursiveStruct = some tm ∧
    (Terminates fun fuel => tm.typToString (fun _ => "") fuel 3) ∧
      Terminates fun fuel => tm.buildDIType (fun _ => "") fuel 3 fun _ => none := by
  have hsome : ((newManager id).run recursiveStruct).isSome := by decide
  obtain ⟨tm, htm⟩ := Option.isSome_iff_exists.mp hsome
  have hlist := isList_recursiveStruct htm
  obtain ⟨hstring, hbuild, -⟩ := walks_return_iff ⟨id, _, _, new_eq id, htm⟩ (fun _ => "") 3
    fun _ => none
  exact ⟨tm, htm, hstring.mpr hlist.canSpell, hbuild (hlist.canBuild _)⟩

/-- A loop of an array and a pointer. -/
theorem typToStringRec_loops {y : BtypeRef} {o p : BtypeObject} {n : ℕ}
    (hx : tm.nameOf x = none) (hy : tm.nameOf y = none) (ho : tm.obj x = some o)
    (hp : tm.obj y = some p) (hok : o.kind = .array (some y) (some n))
    (hpk : p.kind = .pointer (some x)) (fuel : ℕ) :
    tm.typToStringRec print fuel x [] = .error .outOfFuel ∧
      tm.typToStringRec print fuel y [] = .error .outOfFuel := by
  induction fuel with
  | zero => exact ⟨rfl, rfl⟩
  | succ fuel ih =>
    constructor
    · rw [typToStringRec, hx, ho]
      change kindString print (tm.typToStringRec print fuel) x o [] >>= _ = _
      rw [kindString, hok]
      change (tm.typToStringRec print fuel y [] >>= _) >>= _ = _
      rw [ih.2]
      rfl
    · rw [typToStringRec, hy, hp]
      change kindString print (tm.typToStringRec print fuel) y p [] >>= _ = _
      rw [kindString, hpk]
      change (tm.typToStringRec print fuel x [] >>= _) >>= _ = _
      rw [ih.1]
      rfl

/-- The calls for `type A [2]*A`. -/
def recursiveArray : List TypeOp :=
  [.placeholderArrayType "A", .pointerType 3, .setPlaceholderArrayType 3 4 (some 2)]

/-- The string of `A` is never finished, however deep the calls go. -/
theorem recursiveArray_loops : ∃ tm, (newManager id).run recursiveArray = some tm ∧
    ∀ print fuel, tm.typToString print fuel 3 = .error .outOfFuel := by
  have hrun : ((newManager id).run recursiveArray).bind (fun tm =>
        if tm.nameOf 3 = none ∧ tm.nameOf 4 = none then some (tm.obj 3, tm.obj 4) else none) =
      some (some ⟨"A", .array (ptr (.structRef 1)) 2, true, .array (some 4) (some 2)⟩,
        some ⟨"", ptr (.structRef 1), true, .pointer (some 3)⟩) := by decide
  obtain ⟨tm, htm, hobj⟩ := Option.bind_eq_some_iff.mp hrun
  split_ifs at hobj with hname
  obtain ⟨hA, hP⟩ := Prod.mk.inj (Option.some.inj hobj)
  refine ⟨tm, htm, fun print fuel => ?_⟩
  rw [typToString, (typToStringRec_loops hname.1 hname.2 hA hP rfl rfl fuel).1]
  rfl

end Debug

end TypeManager
end Dragongo
