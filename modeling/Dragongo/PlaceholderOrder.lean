import Dragongo.Placeholders

/-!
# The order in which placeholder pointers are set

Placeholder pointers and pointers to them are made first, then every placeholder is
set.  A call whose target still waits copies the LLVM type of the target at once and
wraps it in one more pointer when the target is resolved.
-/

namespace Dragongo
open LType

namespace TypeManager

/-! ## Unset placeholders and what rests on them -/

def toType (tm : TypeManager) (x : BtypeRef) : Option BtypeRef :=
  match (tm.obj x).map BtypeObject.kind with
  | some (BtypeKind.pointer target) => target
  | _ => none

/-- A pointer placeholder that has been made and not been set. -/
def IsUnset (tm : TypeManager) (p : BtypeRef) : Prop :=
  p ∈ tm.placeholders ∧ ∃ o, tm.obj p = some o ∧ o.isPlaceholder ∧ o.kind = .pointer none

/-- The state in which only pointers wait: placeholders for their target, and pointers
for the placeholder they rest on. -/
structure Sound (tm : TypeManager) : Prop where
  waiting : ∀ x o, tm.obj x = some o → o.isUnresolvedPlaceholder → o.type.isPointerTy ∧
    (tm.IsUnset x ∨ ∃ y, o.kind = .pointer (some y) ∧ tm.isUnresolvedPlaceholder y ∧
      x ∈ tm.placeholderRefs y)
  linked : tm.Linked
  error : ∃ o, tm.obj tm.errorType = some o ∧ ¬o.isPlaceholder ∧ ¬o.type.isPointerTy
  entries : ∀ e ∈ tm.anonTypes, ∃ o, tm.obj e.1 = some o ∧
    (o.isPlaceholder → o.kind ≠ .pointer none)

theorem unresolved_of_pointer {o : BtypeObject} {t : Option BtypeRef} (hk : o.kind = .pointer t) :
    o.isUnresolvedPlaceholder = o.isPlaceholder := by
  rw [BtypeObject.isUnresolvedPlaceholder, hk]

theorem isPlaceholder_of_unresolved {tm : TypeManager} {x : BtypeRef}
    (h : tm.isUnresolvedPlaceholder x) : tm.isPlaceholder x := by
  obtain ⟨o, ho, hu⟩ := isUnresolvedPlaceholder_iff.mp h
  apply isPlaceholder_iff.mpr
  refine ⟨o, ho, ?_⟩
  unfold BtypeObject.isUnresolvedPlaceholder at hu
  split at hu
  · contradiction
  · exact hu

theorem IsUnset.unresolved {tm : TypeManager} {p : BtypeRef} (h : tm.IsUnset p) :
    tm.isUnresolvedPlaceholder p := by
  obtain ⟨-, o, ho, hp, hk⟩ := h
  exact isUnresolvedPlaceholder_iff.mpr ⟨o, ho, by rwa [unresolved_of_pointer hk]⟩

theorem IsUnset.toType {tm : TypeManager} {p : BtypeRef} (h : tm.IsUnset p) :
    tm.toType p = none := by
  obtain ⟨-, o, ho, -, hk⟩ := h
  rw [TypeManager.toType, ho, Option.map_some, hk]

theorem toType_of_obj {tm : TypeManager} {x : BtypeRef} {o : BtypeObject} {t : Option BtypeRef}
    (ho : tm.obj x = some o) (hk : o.kind = .pointer t) : tm.toType x = t := by
  rw [TypeManager.toType, ho, Option.map_some, hk]

/-- What waits is a pointer. -/
theorem Sound.pointer {tm : TypeManager} (h : tm.Sound) {x : BtypeRef}
    (hx : tm.isUnresolvedPlaceholder x) :
    ∃ o, tm.obj x = some o ∧ o.isPlaceholder ∧ o.kind = .pointer (tm.toType x) := by
  obtain ⟨o, ho, hu⟩ := isUnresolvedPlaceholder_iff.mp hx
  have hp : o.isPlaceholder := by
    obtain ⟨o', ho', hp⟩ := isPlaceholder_iff.mp (isPlaceholder_of_unresolved hx)
    rwa [Option.some.inj (ho.symm.trans ho')]
  obtain ⟨-, ⟨-, o', ho', -, hk⟩ | ⟨y, hk, -⟩⟩ := h.waiting x o ho hu
  · obtain rfl := Option.some.inj (ho.symm.trans ho')
    exact ⟨o, ho, hp, by rw [toType_of_obj ho hk, hk]⟩
  · exact ⟨o, ho, hp, by rw [toType_of_obj ho hk, hk]⟩

theorem Sound.target_waits {tm : TypeManager} (h : tm.Sound) {x y : BtypeRef}
    (hx : tm.isUnresolvedPlaceholder x) (hy : tm.toType x = some y) :
    tm.isUnresolvedPlaceholder y := by
  obtain ⟨o, ho, hu⟩ := isUnresolvedPlaceholder_iff.mp hx
  obtain ⟨-, hun | ⟨z, hk, hz, -⟩⟩ := h.waiting x o ho hu
  · rw [hun.toType] at hy
    contradiction
  · rw [toType_of_obj ho hk] at hy
    exact Option.some.inj hy ▸ hz

/-- The unset placeholder that a waiting type finally points to. -/
inductive RestsOn (tm : TypeManager) : BtypeRef → BtypeRef → Prop
  | self {q : BtypeRef} : tm.IsUnset q → RestsOn tm q q
  | pointer {x y q : BtypeRef} : tm.isUnresolvedPlaceholder x → tm.toType x = some y →
      RestsOn tm y q → RestsOn tm x q

/-- The LLVM type that an assignment means each type to have in the end. -/
inductive Intended (tm : TypeManager) (assign : BtypeRef → BtypeRef) : BtypeRef → LType → Prop
  | resolved {x : BtypeRef} {t : LType} : ¬tm.isUnresolvedPlaceholder x → tm.typeOf x = some t →
      Intended tm assign x t
  | placeholder {p : BtypeRef} {t : LType} : tm.IsUnset p → Intended tm assign (assign p) t →
      Intended tm assign p t
  | pointer {x y : BtypeRef} {t : LType} : tm.isUnresolvedPlaceholder x → tm.toType x = some y →
      Intended tm assign y t → Intended tm assign x (ptr t)

/-! ## One call -/

def circularTables (tm tm' : TypeManager) : TypeManager :=
  { tm with
    circularPointerLoop := tm'.circularPointerLoop
    circularConversionLoadMap := tm'.circularConversionLoadMap
    circularConversionAddrMap := tm'.circularConversionAddrMap }

theorem closeCircularLoop_eq (tm : TypeManager) (p to' : BtypeRef) :
    tm.closeCircularLoop p to' = tm.circularTables (tm.closeCircularLoop p to') := by
  unfold closeCircularLoop
  split
  · rfl
  · split_ifs
    · rfl
    · rfl

theorem Sound.circularTables {tm : TypeManager} (h : tm.Sound) (tm' : TypeManager) :
    (tm.circularTables tm').Sound :=
  ⟨h.waiting, h.linked, h.error, h.entries⟩

/-- What a call does to an unset placeholder and to what waits for it. -/
structure Redirected (tm tm' : TypeManager) (p target : BtypeRef) (t : LType) : Prop where
  length : tm'.heap.length = tm.heap.length
  placeholders : tm'.placeholders = tm.placeholders
  errorType : tm'.errorType = tm.errorType
  kept : ∀ x, x ≠ p → (¬tm.isPlaceholder x ∨ tm'.isPlaceholder x) → tm'.obj x = tm.obj x
  resolved : ∀ x, x ≠ p → tm.isPlaceholder x → ¬tm'.isPlaceholder x → ∃ o y t, tm.obj x = some o ∧
    o.kind = .pointer (some y) ∧ ¬tm'.isPlaceholder y ∧ tm'.typeOf y = some t ∧
    tm'.obj x = some { o with type := ptr t, isPlaceholder := false }
  placeholder : ∃ o, tm.obj p = some o ∧ tm'.obj p = some { o with
    type := t, isPlaceholder := tm.isUnresolvedPlaceholder target, kind := .pointer (some target) }
  sound : tm'.Sound

section Redirect
variable {tm : TypeManager} {p target : BtypeRef} {t : LType}

/-- The placeholder as `setToType` and `setType` leave it. -/
def retarget (tm : TypeManager) (p target : BtypeRef) (t : LType) : TypeManager :=
  tm.update p fun o => { o with type := t, kind := .pointer (some target) }

theorem IsUnset.not_mem_refs (hp : tm.IsUnset p) (hl : tm.Linked) (y : BtypeRef) :
    p ∉ tm.placeholderRefs y := by
  intro hmem
  obtain ⟨o, ho, hk⟩ := hl y p hmem (isPlaceholder_of_unresolved hp.unresolved)
  obtain ⟨-, o', ho', -, hk'⟩ := hp
  obtain rfl := Option.some.inj (ho.symm.trans ho')
  rw [hk] at hk'
  cases hk'

theorem IsUnset.ne_errorType (hp : tm.IsUnset p) (h : tm.Sound) : p ≠ tm.errorType := by
  rintro rfl
  obtain ⟨o, ho, hn, -⟩ := h.error
  obtain ⟨-, o', ho', hp, -⟩ := hp
  rw [Option.some.inj (ho.symm.trans ho')] at hn
  exact hn hp

theorem retarget_unresolved (hp : tm.IsUnset p) (x : BtypeRef) :
    (tm.retarget p target t).isUnresolvedPlaceholder x = tm.isUnresolvedPlaceholder x := by
  by_cases hx : p = x
  · obtain ⟨-, o, ho, -, hk⟩ := hp
    rw [← hx, isUnresolvedPlaceholder, isUnresolvedPlaceholder, retarget, obj_update_self, ho,
      Option.map_some, Option.any_some, Option.any_some, unresolved_of_pointer hk]
    rfl
  · rw [isUnresolvedPlaceholder, isUnresolvedPlaceholder, retarget, obj_update_ne _ hx]

/-- The target still waits, and from now on the placeholder waits for it. -/
theorem Sound.delayed (h : tm.Sound) (hp : tm.IsUnset p) (ht : t.isPointerTy)
    (hwait : tm.isUnresolvedPlaceholder target) :
    Redirected tm ((tm.retarget p target t).addRef target p) p target t := by
  obtain ⟨o, ho, hflag, hk⟩ := hp.2
  have hself : ((tm.retarget p target t).addRef target p).obj p =
      some { o with type := t, kind := .pointer (some target) } := by
    rw [show ((tm.retarget p target t).addRef target p).obj p = (tm.retarget p target t).obj p
      from rfl, retarget, obj_update_self, ho]
    rfl
  have hother : ∀ x, x ≠ p → ((tm.retarget p target t).addRef target p).obj x = tm.obj x :=
    fun x hx => obj_update_ne _ hx.symm _
  have hunres : ∀ x, ((tm.retarget p target t).addRef target p).isUnresolvedPlaceholder x =
      tm.isUnresolvedPlaceholder x := retarget_unresolved hp
  refine ⟨length_update .., rfl, rfl, fun x hx _ => hother x hx, ?_, ?_, ?_⟩
  · intro x hx hflag hflag'
    rw [isPlaceholder, hother x hx] at hflag'
    exact (hflag' hflag).elim
  · refine ⟨o, ho, ?_⟩
    rw [hself, hwait, hflag]
  · constructor
    · intro x o' ho' hu
      by_cases hx : x = p
      · subst hx
        obtain rfl := Option.some.inj (hself.symm.trans ho')
        refine ⟨ht, .inr ⟨target, rfl, ?_, ?_⟩⟩
        · rw [hunres]
          exact hwait
        · exact mem_addRef.mpr (.inr ⟨rfl, rfl⟩)
      · rw [hother x hx] at ho'
        obtain ⟨hptr, ⟨hmem, hun⟩ | ⟨y, hy, hyu, hmem⟩⟩ := h.waiting x o' ho' hu
        · exact ⟨hptr, .inl ⟨hmem, by rwa [hother x hx]⟩⟩
        · refine ⟨hptr, .inr ⟨y, hy, ?_, ?_⟩⟩
          · rw [hunres]
            exact hyu
          · exact mem_addRef.mpr (.inl hmem)
    · intro y x hx hflag'
      rcases mem_addRef.mp hx with hx | ⟨rfl, rfl⟩
      · have hxp : x ≠ p := fun heq => hp.not_mem_refs h.linked y (heq ▸ hx)
        rw [isPlaceholder, hother x hxp] at hflag'
        rw [hother x hxp]
        exact h.linked y x hx hflag'
      · exact ⟨_, hself, rfl⟩
    · rw [show ((tm.retarget p target t).addRef target p).errorType = tm.errorType from rfl,
        hother _ (hp.ne_errorType h).symm]
      exact h.error
    · intro e he
      by_cases hx : e.1 = p
      · rw [hx]
        exact ⟨_, hself, fun _ => by simp⟩
      · rw [hother _ hx]
        exact h.entries e he

/-- The placeholder with its target, and no longer a placeholder. -/
def retargetResolved (tm : TypeManager) (p target : BtypeRef) (t : LType) : TypeManager :=
  (tm.retarget p target t).update p fun o => { o with isPlaceholder := false }

theorem retargetResolved_self {o : BtypeObject} (ho : tm.obj p = some o) :
    (tm.retargetResolved p target t).obj p =
      some { o with type := t, isPlaceholder := false, kind := .pointer (some target) } := by
  rw [retargetResolved, obj_update_self, retarget, obj_update_self, ho]
  rfl

theorem retargetResolved_ne {x : BtypeRef} (hx : x ≠ p) :
    (tm.retargetResolved p target t).obj x = tm.obj x := by
  rw [retargetResolved, obj_update_ne _ hx.symm, retarget, obj_update_ne _ hx.symm]

theorem retargetResolved_length :
    (tm.retargetResolved p target t).heap.length = tm.heap.length := by
  rw [retargetResolved, length_update, retarget, length_update]

theorem IsUnset.retargetResolved (hp : tm.IsUnset p) :
    ¬(tm.retargetResolved p target t).isPlaceholder p := by
  obtain ⟨-, o, ho, -⟩ := hp
  simp [isPlaceholder, retargetResolved_self ho]

theorem Sound.retargetResolved_linked (h : tm.Sound) (hp : tm.IsUnset p) :
    (tm.retargetResolved p target t).Linked := by
  intro y x hx hflag
  have hxp : x ≠ p := fun heq => hp.retargetResolved (heq ▸ hflag)
  rw [isPlaceholder, retargetResolved_ne hxp] at hflag
  rw [retargetResolved_ne hxp]
  exact h.linked y x hx hflag

/-- The target is resolved, and so is everything that waited for the placeholder. -/
theorem Sound.immediate {tm' : TypeManager} (h : tm.Sound) (hp : tm.IsUnset p)
    (hwait : ¬tm.isUnresolvedPlaceholder target)
    (hrun : (tm.retargetResolved p target t).postProcessResolvedPlaceholder p = some tm') :
    Redirected tm tm' p target t := by
  obtain ⟨o, ho, -⟩ := hp.2
  have hnot : ¬(tm.retargetResolved p target t).isPlaceholder p := hp.retargetResolved
  have hlinked : (tm.retargetResolved p target t).Linked := h.retargetResolved_linked hp
  have hself : (tm.retargetResolved p target t).obj p = _ := retargetResolved_self ho
  have hother : ∀ x, x ≠ p → (tm.retargetResolved p target t).obj x = tm.obj x :=
    fun x hx => retargetResolved_ne hx
  obtain ⟨ha, hd, hp'⟩ := postProcessWithin_spec _ hlinked hnot hrun
  have hnot' := ha.not_isPlaceholder hnot
  have hkept : ∀ x, x ≠ p → (¬tm.isPlaceholder x ∨ tm'.isPlaceholder x) →
      tm'.obj x = tm.obj x := by
    intro x hx hor
    rw [← hother x hx]
    apply ha.kept x
    rw [isPlaceholder, hother x hx]
    exact hor
  have hplaceholders : tm'.placeholders = tm.placeholders := by
    rw [ha.rest]
    rfl
  have herror : tm'.errorType = tm.errorType := by
    rw [ha.rest]
    rfl
  refine ⟨?_, hplaceholders, herror, hkept, ?_, ?_, ?_⟩
  · exact ha.length.trans retargetResolved_length
  · intro x hx hflag' hflag''
    rw [← hother x hx]
    apply ha.resolved x _ hflag''
    rw [isPlaceholder, hother x hx]
    exact hflag'
  · refine ⟨o, ho, ?_⟩
    rw [ha.kept p (.inl hnot), hself, Bool.eq_false_iff.mpr hwait]
  · constructor
    · intro x o' ho' hu
      have hflag' := isPlaceholder_of_unresolved (isUnresolvedPlaceholder_iff.mpr ⟨o', ho', hu⟩)
      have hx : x ≠ p := fun heq => hnot' (heq ▸ hflag')
      have hsame := hkept x hx (.inr hflag')
      rw [hsame] at ho'
      obtain ⟨hptr, ⟨hmem, hun⟩ | ⟨y, hy, hyu, hmem⟩⟩ := h.waiting x o' ho' hu
      · exact ⟨hptr, .inl ⟨hplaceholders ▸ hmem, hsame ▸ hun⟩⟩
      · -- what `x` waits for cannot have been resolved, or `x` would be resolved too
        have hyp : y ≠ p := fun heq => hp' x (heq ▸ hmem : x ∈ tm.placeholderRefs p) hflag'
        have hyflag : (tm.retargetResolved p target t).isPlaceholder y := by
          rw [isPlaceholder, hother y hyp]
          exact isPlaceholder_of_unresolved hyu
        have hyflag' : tm'.isPlaceholder y := by
          by_contra hn
          exact hd y hyflag hn x hmem hflag'
        refine ⟨hptr, .inr ⟨y, hy, ?_, ?_⟩⟩
        · rw [isUnresolvedPlaceholder, hkept y hyp (.inr hyflag')]
          exact hyu
        · rw [ha.refs]
          exact hmem
    · exact ha.linked hlinked
    · rw [herror]
      obtain ⟨oe, hoe, hne, hpe⟩ := h.error
      refine ⟨oe, ?_, hne, hpe⟩
      rw [hkept _ (hp.ne_errorType h).symm (.inl _)]
      · exact hoe
      · intro hflag'
        obtain ⟨o', ho', hp⟩ := isPlaceholder_iff.mp hflag'
        exact hne (Option.some.inj (hoe.symm.trans ho') ▸ hp)
    · intro e he
      by_cases hx : e.1 = p
      · rw [hx, ha.kept p (.inl hnot)]
        exact ⟨_, hself, fun _ => by simp⟩
      · by_cases hflag' : tm'.isPlaceholder e.1
        · rcases ha.entries e he with he | ⟨hn, -⟩
          · rw [hkept _ hx (.inr hflag')]
            exact h.entries e he
          · exact (hn hflag').elim
        · have hlt : e.1 < tm.heap.length := by
            rcases ha.entries e he with he | ⟨-, hflag''⟩
            · obtain ⟨oe, hoe, -⟩ := h.entries e he
              exact (obj_isSome_iff _ _).mp (hoe ▸ rfl)
            · rw [isPlaceholder, hother _ hx] at hflag''
              obtain ⟨oe, hoe, -⟩ := isPlaceholder_iff.mp hflag''
              exact (obj_isSome_iff _ _).mp (hoe ▸ rfl)
          have hlen : tm'.heap.length = tm.heap.length :=
            ha.length.trans retargetResolved_length
          obtain ⟨oe, hoe⟩ := Option.isSome_iff_exists.mp
            ((obj_isSome_iff tm' e.1).mpr (hlen ▸ hlt))
          exact ⟨oe, hoe, fun hf => (hflag' (isPlaceholder_iff.mpr ⟨oe, hoe, hf⟩)).elim⟩

theorem setPlaceholderPointerType_spec {tm' : TypeManager} {b : Bool} (h : tm.Sound)
    (hp : tm.IsUnset p) (ht : tm.typeOf target = some t) (hptr : t.isPointerTy)
    (hrun : tm.setPlaceholderPointerType p target = some (b, tm')) :
    Redirected tm tm' p target t := by
  have htarget : target ≠ tm.errorType := by
    rintro rfl
    obtain ⟨o, ho, -, hn⟩ := h.error
    rw [typeOf, ho, Option.map_some] at ht
    rw [Option.some.inj ht] at hn
    exact hn hptr
  rw [setPlaceholderPointerType, if_neg (by simp [hp.ne_errorType h, htarget])] at hrun
  obtain ⟨t', ht', hrun⟩ := Option.bind_eq_some_iff.mp hrun
  obtain rfl := Option.some.inj (ht.symm.trans ht')
  obtain ⟨o, -, hrun⟩ := Option.bind_eq_some_iff.mp hrun
  obtain ⟨found, -, hrun⟩ := Option.bind_eq_some_iff.mp hrun
  split_ifs at hrun with hassert
  · obtain ⟨tm₁, hredirect, hrun⟩ := Option.bind_eq_some_iff.mp hrun
    obtain ⟨-, rfl⟩ := Prod.mk.inj (Option.some.inj hrun)
    have hspec : Redirected tm tm₁ p target t := by
      unfold redirect at hredirect
      dsimp only at hredirect
      rw [← retarget, retarget_unresolved hp, ← retargetResolved] at hredirect
      split_ifs at hredirect with hwait
      · obtain rfl := Option.some.inj hredirect
        exact h.delayed hp hptr hwait
      · exact h.immediate hp hwait hredirect
    rw [closeCircularLoop_eq]
    exact ⟨hspec.length, hspec.placeholders, hspec.errorType, hspec.kept, hspec.resolved,
      hspec.placeholder, hspec.sound.circularTables _⟩

namespace Redirected
variable {tm' : TypeManager}

theorem same (h : Redirected tm tm' p target t) {x : BtypeRef} (hx : x ≠ p)
    (hn : ¬tm.isUnresolvedPlaceholder x) : tm'.obj x = tm.obj x := by
  by_cases hor : ¬tm.isPlaceholder x ∨ tm'.isPlaceholder x
  · exact h.kept x hx hor
  · push Not at hor
    obtain ⟨o, y, t, ho, hk, -⟩ := h.resolved x hx hor.1 (by simpa using hor.2)
    obtain ⟨o', ho', hp⟩ := isPlaceholder_iff.mp hor.1
    obtain rfl := Option.some.inj (ho.symm.trans ho')
    exact (hn (isUnresolvedPlaceholder_iff.mpr
      ⟨o, ho, (unresolved_of_pointer hk).symm ▸ hp⟩)).elim

theorem still (h : Redirected tm tm' p target t) {x : BtypeRef} (hx : x ≠ p)
    (hu : tm'.isUnresolvedPlaceholder x) : tm'.obj x = tm.obj x :=
  h.kept x hx (.inr (isPlaceholder_of_unresolved hu))

theorem unresolved (h : Redirected tm tm' p target t) {x : BtypeRef} (hx : x ≠ p)
    (hu : tm'.isUnresolvedPlaceholder x) : tm.isUnresolvedPlaceholder x := by
  rw [isUnresolvedPlaceholder, ← h.still hx hu]
  exact hu

theorem unresolved_placeholder (h : Redirected tm tm' p target t) :
    tm'.isUnresolvedPlaceholder p = tm.isUnresolvedPlaceholder target := by
  obtain ⟨o, -, ho⟩ := h.placeholder
  rw [isUnresolvedPlaceholder, ho, Option.any_some, unresolved_of_pointer rfl]

theorem toType (h : Redirected tm tm' p target t) (x : BtypeRef) :
    tm'.toType x = if x = p then some target else tm.toType x := by
  split_ifs with hx
  · obtain ⟨o, -, ho⟩ := h.placeholder
    rw [hx]
    exact toType_of_obj ho rfl
  · by_cases hor : ¬tm.isPlaceholder x ∨ tm'.isPlaceholder x
    · rw [TypeManager.toType, h.kept x hx hor, TypeManager.toType]
    · push Not at hor
      obtain ⟨o, y, t, ho, hk, -, -, ho'⟩ := h.resolved x hx hor.1 (by simpa using hor.2)
      rw [toType_of_obj ho' hk, toType_of_obj ho hk]

theorem pointsTo (h : Redirected tm tm' p target t) {x : BtypeRef} (hx : x ≠ p)
    (hu : tm.isUnresolvedPlaceholder x) (hn : ¬tm'.isUnresolvedPlaceholder x) :
    ∃ y t, tm.toType x = some y ∧ ¬tm'.isUnresolvedPlaceholder y ∧ tm'.typeOf y = some t ∧
      tm'.typeOf x = some (ptr t) := by
  have hflag : ¬tm'.isPlaceholder x := by
    intro hflag
    rw [isUnresolvedPlaceholder, h.kept x hx (.inr hflag)] at hn
    exact hn hu
  obtain ⟨o, y, t, ho, hk, hy, hty, ho'⟩ :=
    h.resolved x hx (isPlaceholder_of_unresolved hu) hflag
  refine ⟨y, t, toType_of_obj ho hk, fun hyu => hy (isPlaceholder_of_unresolved hyu), hty, ?_⟩
  rw [typeOf, ho']
  rfl

end Redirected
end Redirect

/-! ## A run -/

/-- The calls that set the placeholders, one after the other. -/
def setPlaceholders (assign : BtypeRef → BtypeRef) :
    TypeManager → List BtypeRef → Option TypeManager
  | tm, [] => some tm
  | tm, p :: ps =>
    (tm.setPlaceholderPointerType p (assign p)).bind fun r => setPlaceholders assign r.2 ps

/-- Each placeholder is set after the one its target rests on, if there is one. -/
def InOrder (tm : TypeManager) (assign : BtypeRef → BtypeRef) :
    List BtypeRef → List BtypeRef → Prop
  | _, [] => True
  | before, p :: ps =>
    (∀ q, tm.RestsOn (assign p) q → q ∈ before) ∧ InOrder tm assign (p :: before) ps

/-- The state of the manager, begun in `base`, when the placeholders in `before` have
been set, those in `late` to targets that still waited. -/
structure Ran (base : TypeManager) (assign : BtypeRef → BtypeRef) (before late : List BtypeRef)
    (tm : TypeManager) : Prop where
  sound : tm.Sound
  length : tm.heap.length = base.heap.length
  placeholders : tm.placeholders = base.placeholders
  unset : ∀ x ∈ before, base.IsUnset x
  late_subset : ∀ x ∈ late, x ∈ before
  same : ∀ x, ¬base.isUnresolvedPlaceholder x → tm.obj x = base.obj x
  target : ∀ x, base.isUnresolvedPlaceholder x →
    tm.toType x = if x ∈ before then some (assign x) else base.toType x
  prompt : ∀ x ∈ before, x ∉ late → ¬tm.isUnresolvedPlaceholder x
  resolved : ∀ x, base.isUnresolvedPlaceholder x → ¬tm.isUnresolvedPlaceholder x →
    ∃ y t, tm.toType x = some y ∧ ¬tm.isUnresolvedPlaceholder y ∧ tm.typeOf y = some t ∧
      tm.typeOf x = some (if x ∈ before ∧ x ∉ late then t else ptr t)
  pointers : ∀ x, base.isUnresolvedPlaceholder x → ∃ t, tm.typeOf x = some t ∧ t.isPointerTy

namespace Ran
variable {base tm tm' : TypeManager} {assign : BtypeRef → BtypeRef} {before late : List BtypeRef}

theorem refl (h : base.Sound) : Ran base assign [] [] base where
  sound := h
  length := rfl
  placeholders := rfl
  unset := by simp
  late_subset := by simp
  same := fun _ _ => rfl
  target := by simp
  prompt := by simp
  resolved := fun _ hu hn => (hn hu).elim
  pointers := by
    intro x hx
    obtain ⟨o, ho, hu⟩ := isUnresolvedPlaceholder_iff.mp hx
    refine ⟨o.type, ?_, (h.waiting x o ho hu).1⟩
    rw [typeOf, ho]
    rfl

theorem unresolved (h : Ran base assign before late tm) {x : BtypeRef}
    (hx : tm.isUnresolvedPlaceholder x) : base.isUnresolvedPlaceholder x := by
  by_contra hn
  rw [isUnresolvedPlaceholder, h.same x hn] at hx
  exact hn hx

theorem isUnset (h : Ran base assign before late tm) {p : BtypeRef} (hp : base.IsUnset p)
    (hnew : p ∉ before) : tm.IsUnset p := by
  have htarget : tm.toType p = none := by
    rw [h.target p hp.unresolved, if_neg hnew, hp.toType]
  have hu : tm.isUnresolvedPlaceholder p := by
    by_contra hn
    obtain ⟨y, t, hy, -⟩ := h.resolved p hp.unresolved hn
    rw [hy] at htarget
    contradiction
  obtain ⟨o, ho, hflag, hk⟩ := h.sound.pointer hu
  exact ⟨h.placeholders ▸ hp.1, o, ho, hflag, htarget ▸ hk⟩

theorem step (h : Ran base assign before late tm) {p : BtypeRef} {t : LType}
    (hp : base.IsUnset p) (hnew : p ∉ before) (ht : tm.typeOf (assign p) = some t)
    (hptr : t.isPointerTy) (hr : Redirected tm tm' p (assign p) t) :
    Ran base assign (p :: before)
      (if tm.isUnresolvedPlaceholder (assign p) then p :: late else late) tm' := by
  have hnot_late : p ∉ late := fun hmem => hnew (h.late_subset p hmem)
  have hmem : ∀ x, x ≠ p → (x ∈ (if tm.isUnresolvedPlaceholder (assign p) then p :: late
      else late) ↔ x ∈ late) := by
    intro x hx
    split_ifs
    · simp [hx]
    · rfl
  refine ⟨hr.sound, hr.length.trans h.length, hr.placeholders.trans h.placeholders, ?_, ?_, ?_,
    ?_, ?_, ?_, ?_⟩
  · intro x hx
    rcases List.mem_cons.mp hx with rfl | hx
    · exact hp
    · exact h.unset x hx
  · intro x hx
    by_cases hxp : x = p
    · simp [hxp]
    · simp [h.late_subset x ((hmem x hxp).mp hx)]
  · intro x hx
    have hxp : x ≠ p := fun heq => hx (heq ▸ hp.unresolved)
    rw [hr.same hxp fun hu => hx (h.unresolved hu), h.same x hx]
  · intro x hx
    rw [hr.toType, h.target x hx]
    by_cases hxp : x = p
    · simp [hxp]
    · simp [hxp]
  · intro x hx hlate
    by_cases hxp : x = p
    · rw [hxp, hr.unresolved_placeholder]
      intro hu
      rw [if_pos hu, hxp] at hlate
      exact hlate (List.mem_cons_self ..)
    · intro hu
      have hx' : x ∈ before := by simpa [hxp] using hx
      exact h.prompt x hx' (fun hl => hlate ((hmem x hxp).mpr hl)) (hr.unresolved hxp hu)
  · intro x hx hn
    by_cases hxp : x = p
    · rw [hxp, hr.unresolved_placeholder] at hn
      have hne : assign p ≠ p := fun heq => hn (heq.symm ▸ (h.isUnset hp hnew).unresolved)
      have hsame : tm'.obj (assign p) = tm.obj (assign p) := hr.same hne hn
      obtain ⟨o, -, ho⟩ := hr.placeholder
      refine ⟨assign p, t, ?_, ?_, ?_, ?_⟩
      · rw [hr.toType, if_pos hxp]
      · rw [isUnresolvedPlaceholder, hsame]
        exact hn
      · rw [typeOf, hsame]
        exact ht
      · rw [if_neg hn, if_pos ⟨by simp [hxp], hxp ▸ hnot_late⟩, typeOf, hxp, ho]
        rfl
    · by_cases hu : tm.isUnresolvedPlaceholder x
      · -- resolved just now, as a pointer; so it had not been set to a resolved type
        obtain ⟨y, t', hy, hyn, hty, htx⟩ := hr.pointsTo hxp hu hn
        refine ⟨y, t', ?_, hyn, hty, ?_⟩
        · rw [hr.toType, if_neg hxp]
          exact hy
        · have : ¬(x ∈ before ∧ x ∉ late) := fun hb => h.prompt x hb.1 hb.2 hu
          rw [if_neg (by simpa [hxp, hmem x hxp] using this)]
          exact htx
      · obtain ⟨y, t', hy, hyn, hty, htx⟩ := h.resolved x hx hu
        have hyp : y ≠ p := fun heq => hyn (heq ▸ (h.isUnset hp hnew).unresolved)
        refine ⟨y, t', ?_, ?_, ?_, ?_⟩
        · rw [hr.toType, if_neg hxp]
          exact hy
        · rw [isUnresolvedPlaceholder, hr.same hyp hyn]
          exact hyn
        · rw [typeOf, hr.same hyp hyn]
          exact hty
        · rw [typeOf, hr.same hxp hu]
          simpa [hxp, hmem x hxp, typeOf] using htx
  · intro x hx
    by_cases hxp : x = p
    · obtain ⟨o, -, ho⟩ := hr.placeholder
      exact ⟨t, by rw [hxp, typeOf, ho]; rfl, hptr⟩
    · by_cases hu : tm.isUnresolvedPlaceholder x ∧ ¬tm'.isUnresolvedPlaceholder x
      · obtain ⟨y, t', -, -, -, htx⟩ := hr.pointsTo hxp hu.1 hu.2
        exact ⟨ptr t', htx, rfl⟩
      · have hobj : tm'.obj x = tm.obj x := by
          by_cases hu' : tm'.isUnresolvedPlaceholder x
          · exact hr.still hxp hu'
          · exact hr.same hxp fun hux => hu ⟨hux, hu'⟩
        rw [typeOf, hobj]
        exact h.pointers x hx

/-- While no call has been late, exactly what rests on a set placeholder is resolved. -/
theorem unresolved_iff (h : Ran base assign before [] tm) (x : BtypeRef)
    (hrests : base.isUnresolvedPlaceholder x → ∃ q, base.RestsOn x q) :
    tm.isUnresolvedPlaceholder x ↔ ∃ q, base.RestsOn x q ∧ q ∉ before := by
  constructor
  · intro hu
    obtain ⟨q, hq⟩ := hrests (h.unresolved hu)
    refine ⟨q, hq, fun hmem => ?_⟩
    induction hq with
    | self hun => exact h.prompt _ hmem (by simp) hu
    | @pointer x y q hx hy hq ih =>
      apply ih (fun _ => ⟨q, hq⟩) _ hmem
      by_cases hb : x ∈ before
      · exact (h.prompt x hb (by simp) hu).elim
      · apply h.sound.target_waits hu
        rw [h.target x hx, if_neg hb]
        exact hy
  · rintro ⟨q, hq, hmem⟩
    induction hq with
    | self hun => exact (h.isUnset hun hmem).unresolved
    | @pointer x y q hx hy hq ih =>
      by_contra hn
      obtain ⟨z, t, hz, hzn, -⟩ := h.resolved x hx hn
      have hb : x ∉ before := by
        intro hb
        rw [(h.unset x hb).toType] at hy
        contradiction
      rw [h.target x hx, if_neg hb, hy] at hz
      exact hzn (Option.some.inj hz ▸ ih (fun _ => ⟨q, hq⟩) hmem)

end Ran

/-! ## Whole runs -/

/-- What a manager is like when the placeholders and the pointers to them have been
made: a pointer comes after the type it points to. -/
structure Prepared (tm : TypeManager) : Prop extends tm.Sound where
  older : ∀ x y, tm.isUnresolvedPlaceholder x → tm.toType x = some y → y < x

/-- Following the assignment from any placeholder comes to an end. -/
def AcyclicAssignment (tm : TypeManager) (assign : BtypeRef → BtypeRef) : Prop :=
  ∃ rank : BtypeRef → ℕ, ∀ p, tm.IsUnset p → ∀ q, tm.RestsOn (assign p) q → rank q < rank p

/-- Every target is a type of the manager whose LLVM type is a pointer. -/
def PointerTargets (tm : TypeManager) (assign : BtypeRef → BtypeRef) : Prop :=
  ∀ p, tm.IsUnset p → ∃ t, tm.typeOf (assign p) = some t ∧ t.isPointerTy

section Run
variable {base tm tm' : TypeManager} {assign : BtypeRef → BtypeRef}

theorem Prepared.restsOn (h : base.Prepared) (x : BtypeRef)
    (hx : base.isUnresolvedPlaceholder x) : ∃ q, base.RestsOn x q := by
  induction x using Nat.strong_induction_on with
  | _ x ih =>
    obtain ⟨o, ho, hu⟩ := isUnresolvedPlaceholder_iff.mp hx
    obtain ⟨-, hun | ⟨y, hk, hy, -⟩⟩ := h.waiting x o ho hu
    · exact ⟨x, .self hun⟩
    · have hxy := toType_of_obj ho hk
      obtain ⟨q, hq⟩ := ih y (h.older x y hx hxy) hy
      exact ⟨q, .pointer hx hxy hq⟩

theorem Ran.target_type {before late : List BtypeRef} (h : Ran base assign before late tm)
    (htargets : base.PointerTargets assign) {p : BtypeRef} (hp : base.IsUnset p) :
    ∃ t, tm.typeOf (assign p) = some t ∧ t.isPointerTy := by
  by_cases hu : base.isUnresolvedPlaceholder (assign p)
  · exact h.pointers _ hu
  · rw [typeOf, h.same _ hu]
    exact htargets p hp

/-- The run as a whole, by induction on the calls that are left. -/
theorem Ran.run (hbase : base.Prepared) (htargets : base.PointerTargets assign)
    {ps : List BtypeRef} : ∀ {before late : List BtypeRef} {tm : TypeManager},
    Ran base assign before late tm → (∀ p ∈ ps, base.IsUnset p ∧ p ∉ before) → ps.Nodup →
    setPlaceholders assign tm ps = some tm' →
    ∃ late', Ran base assign (ps.reverse ++ before) late' tm' ∧
      (late ≠ [] → late' ≠ []) ∧ (late = [] → (late' = [] ↔ base.InOrder assign before ps)) := by
  induction ps with
  | nil =>
    intro before late tm h _ _ hrun
    obtain rfl := Option.some.inj hrun
    exact ⟨late, h, id, fun hl => iff_of_true hl trivial⟩
  | cons p ps ih =>
    intro before late tm h hps hnodup hrun
    obtain ⟨⟨b, tm₁⟩, hcall, hrun⟩ := Option.bind_eq_some_iff.mp hrun
    obtain ⟨hp, hnew⟩ := hps p (by simp)
    obtain ⟨hpps, hnodup⟩ := List.nodup_cons.mp hnodup
    obtain ⟨t, ht, hptr⟩ := h.target_type htargets hp
    have hr := setPlaceholderPointerType_spec h.sound (h.isUnset hp hnew) ht hptr hcall
    obtain ⟨late', hran, hlate, hiff⟩ := ih (h.step hp hnew ht hptr hr)
      (fun q hq => ⟨(hps q (by simp [hq])).1, by
        rintro hmem
        rcases List.mem_cons.mp hmem with rfl | hmem
        · exact hpps hq
        · exact (hps q (by simp [hq])).2 hmem⟩) hnodup hrun
    refine ⟨late', by simpa using hran, ?_, ?_⟩
    · intro hne
      apply hlate
      split_ifs
      · simp
      · exact hne
    · rintro rfl
      have hwait := h.unresolved_iff (assign p) fun hu => hbase.restsOn _ hu
      by_cases hu : tm.isUnresolvedPlaceholder (assign p)
      · obtain ⟨q, hq, hmem⟩ := hwait.mp hu
        apply iff_of_false
        · exact hlate (by simp [hu])
        · exact fun hord => hmem (hord.1 q hq)
      · rw [hiff (by simp [hu]), InOrder, iff_and_self]
        intro _ q hq
        by_contra hmem
        exact hu (hwait.mpr ⟨q, hq, hmem⟩)

/-- When all placeholders have been set, nothing waits any more. -/
theorem Ran.all_resolved {before late : List BtypeRef} (h : Ran base assign before late tm)
    (hbase : base.Prepared) (hacyclic : base.AcyclicAssignment assign)
    (hall : ∀ p, base.IsUnset p → p ∈ before) (x : BtypeRef) :
    ¬tm.isUnresolvedPlaceholder x := by
  obtain ⟨rank, hrank⟩ := hacyclic
  have hrests : ∀ n q, rank q = n → ∀ x, base.RestsOn x q → ¬tm.isUnresolvedPlaceholder x := by
    intro n
    induction n using Nat.strong_induction_on with
    | _ n ih =>
      intro q hqn x hq hu
      induction hq with
      | @self q hun =>
        have htarget : tm.toType q = some (assign q) := by
          rw [h.target q hun.unresolved, if_pos (hall q hun)]
        have hwait := h.sound.target_waits hu htarget
        obtain ⟨q', hq'⟩ := hbase.restsOn _ (h.unresolved hwait)
        exact ih (rank q') (hqn ▸ hrank q hun q' hq') q' rfl _ hq' hwait
      | @pointer x y q hx hy hq ihq =>
        have hb : x ∉ before := by
          intro hb
          rw [(h.unset x hb).toType] at hy
          contradiction
        apply ihq hqn
        apply h.sound.target_waits hu
        rw [h.target x hx, if_neg hb]
        exact hy
  intro hu
  obtain ⟨q, hq⟩ := hbase.restsOn x (h.unresolved hu)
  exact hrests _ q rfl x hq hu

/-- Only a call that was not late gives a placeholder the LLVM type of its target. -/
theorem Ran.typeOf_eq_iff {before late : List BtypeRef} (h : Ran base assign before late tm)
    {p : BtypeRef} (hp : p ∈ before) (hn : ¬tm.isUnresolvedPlaceholder p) :
    tm.typeOf p = tm.typeOf (assign p) ↔ p ∉ late := by
  have hu := (h.unset p hp).unresolved
  obtain ⟨y, t, hy, -, hty, htp⟩ := h.resolved p hu hn
  rw [h.target p hu, if_pos hp] at hy
  rw [Option.some.inj hy, hty, htp]
  by_cases hlate : p ∈ late
  · rw [if_neg (by simp [hlate])]
    simp [hlate, ptr_ne]
  · rw [if_pos ⟨hp, hlate⟩]
    simp [hlate]

theorem Ran.intended {before : List BtypeRef} (h : Ran base assign before [] tm)
    (hall : ∀ p, base.IsUnset p → p ∈ before) (hresolved : ∀ x, ¬tm.isUnresolvedPlaceholder x)
    {x : BtypeRef} {t : LType} (hx : base.Intended assign x t) : tm.typeOf x = some t := by
  induction hx with
  | @resolved x t hx ht =>
    rw [typeOf, h.same x hx]
    exact ht
  | @placeholder p t hp _ ih =>
    rw [(h.typeOf_eq_iff (hall p hp) (hresolved p)).mpr (by simp)]
    exact ih
  | @pointer x y t hx hy _ ih =>
    have hb : x ∉ before := by
      intro hb
      rw [(h.unset x hb).toType] at hy
      contradiction
    obtain ⟨z, t', hz, -, htz, htx⟩ := h.resolved x hx (hresolved x)
    rw [h.target x hx, if_neg hb, hy] at hz
    rw [← Option.some.inj hz, ih] at htz
    rw [htx, if_neg (fun hc => hb hc.1), Option.some.inj htz]

/-- Every type of the manager is meant to have some LLVM type in the end. -/
theorem Prepared.exists_intended (hbase : base.Prepared)
    (hacyclic : base.AcyclicAssignment assign) (htargets : base.PointerTargets assign)
    {x : BtypeRef} {t : LType} (hx : base.typeOf x = some t) : ∃ t', base.Intended assign x t' := by
  obtain ⟨rank, hrank⟩ := hacyclic
  have hrests : ∀ n q, rank q = n → ∀ x, base.RestsOn x q → ∃ t', base.Intended assign x t' := by
    intro n
    induction n using Nat.strong_induction_on with
    | _ n ih =>
      intro q hqn x hq
      induction hq with
      | @self q hun =>
        by_cases hu : base.isUnresolvedPlaceholder (assign q)
        · obtain ⟨q', hq'⟩ := hbase.restsOn _ hu
          obtain ⟨t', ht'⟩ := ih (rank q') (hqn ▸ hrank q hun q' hq') q' rfl _ hq'
          exact ⟨t', .placeholder hun ht'⟩
        · obtain ⟨t', ht', -⟩ := htargets q hun
          exact ⟨t', .placeholder hun (.resolved hu ht')⟩
      | @pointer x y q hx hy _ ihq =>
        obtain ⟨t', ht'⟩ := ihq hqn
        exact ⟨ptr t', .pointer hx hy ht'⟩
  by_cases hu : base.isUnresolvedPlaceholder x
  · obtain ⟨q, hq⟩ := hbase.restsOn x hu
    exact hrests _ q rfl x hq
  · exact ⟨t, .resolved hu hx⟩

theorem Intended.unique {x : BtypeRef} {t t' : LType} (h : base.Intended assign x t)
    (h' : base.Intended assign x t') : t = t' := by
  induction h generalizing t' with
  | resolved hx ht =>
    cases h' with
    | resolved _ ht' => exact Option.some.inj (ht.symm.trans ht')
    | placeholder hp _ => exact (hx hp.unresolved).elim
    | pointer hu _ _ => exact (hx hu).elim
  | placeholder hp _ ih =>
    cases h' with
    | resolved hx _ => exact (hx hp.unresolved).elim
    | placeholder _ ht' => exact ih ht'
    | pointer _ hy _ =>
      rw [hp.toType] at hy
      contradiction
  | pointer hu hy _ ih =>
    cases h' with
    | resolved hx _ => exact (hx hu).elim
    | placeholder hp _ =>
      rw [hp.toType] at hy
      contradiction
    | pointer _ hy' ht' =>
      rw [Option.some.inj (hy'.symm.trans hy)] at ht'
      rw [ih ht']

/-- Every type ends up with the LLVM type it is meant to have. -/
def EndsAsIntended (tm : TypeManager) (assign : BtypeRef → BtypeRef) (tm' : TypeManager) : Prop :=
  ∀ x t, tm'.typeOf x = some t → tm.Intended assign x t

/-- Setting all placeholders gives every type the LLVM type it is meant to have just if
no call comes before the one its target depends on. -/
theorem endsAsIntended_iff_inOrder (hbase : base.Prepared)
    (hacyclic : base.AcyclicAssignment assign) (htargets : base.PointerTargets assign)
    {ps : List BtypeRef} (hnodup : ps.Nodup) (hall : ∀ p, p ∈ ps ↔ base.IsUnset p)
    (hrun : setPlaceholders assign base ps = some tm') :
    base.EndsAsIntended assign tm' ↔ base.InOrder assign [] ps := by
  obtain ⟨late, hran, -, hiff⟩ := (Ran.refl hbase.toSound).run hbase htargets
    (fun p hp => ⟨(hall p).mp hp, by simp⟩) hnodup hrun
  have hbefore : ∀ p, base.IsUnset p → p ∈ ps.reverse ++ [] := fun p hp => by simp [(hall p).mpr hp]
  have hresolved := hran.all_resolved hbase hacyclic hbefore
  rw [← hiff rfl]
  constructor
  · intro hends
    rw [List.eq_nil_iff_forall_not_mem]
    intro p hp
    have hmem := hran.late_subset p hp
    have hun := hran.unset p hmem
    obtain ⟨t, ht, -⟩ := hran.target_type htargets hun
    obtain ⟨t', ht', -⟩ := hran.pointers p hun.unresolved
    apply (hran.typeOf_eq_iff hmem (hresolved p)).mp _ hp
    rw [ht, ht']
    exact congrArg some ((hends p t' ht').unique (.placeholder hun (hends _ t ht)))
  · rintro rfl x t hx
    obtain ⟨o', ho', -⟩ := Option.map_eq_some_iff.mp hx
    have hlt : x < base.heap.length := by
      rw [← hran.length, ← obj_isSome_iff, ho']
      rfl
    obtain ⟨o, ho⟩ := Option.isSome_iff_exists.mp ((obj_isSome_iff base x).mpr hlt)
    obtain ⟨t', ht'⟩ := hbase.exists_intended hacyclic htargets
      (show base.typeOf x = some o.type by rw [typeOf, ho]; rfl)
    rw [hran.intended hbefore hresolved ht'] at hx
    exact Option.some.inj hx ▸ ht'

end Run

end TypeManager
end Dragongo
