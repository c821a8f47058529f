import Dragongo.TypeResolution

/-!
# Closing a circle of pointer types

What loading through a type of a circle of placeholders and taking the address of one give
once the circle has been closed the way the frontend does it.
-/

namespace Dragongo
open LType

namespace TypeManager

/-! ## The conversions and the closing -/

/-- `loadFromExpr`: what comes of loading through a value of the type. -/
def loadType (tm : TypeManager) (x : BtypeRef) : Option LType :=
  match tm.circularConversionLoadMap x with
  | some conv => tm.typeOf conv
  | none => (tm.typeOf x).map pointeeType

/-- `address_expression`: what comes of taking the address of a value of the type. -/
def addressType (tm : TypeManager) (x : BtypeRef) : Option LType :=
  match tm.circularConversionAddrMap x with
  | some conv => tm.typeOf conv
  | none => (tm.typeOf x).map ptr

/-- Each placeholder in turn is set to a pointer to the one before it.  The result lists what
each has been set to. -/
def setToPointers (tm : TypeManager) (next : BtypeRef) :
    List BtypeRef → Option (List (BtypeRef × BtypeRef) × TypeManager)
  | [] => some ([], tm)
  | p :: ps => do
    let (toType, tm) ← tm.pointerType next
    let (_, tm) ← tm.setPlaceholderPointerType p toType
    let (set, tm) ← tm.setToPointers p ps
    some ((p, toType) :: set, tm)

/-- The frontend's way of closing the circle `first`, `p₁`, ..: the last placeholder is set to a
pointer to the marker, each one before it to a pointer to the next, and the first to the marker.
The result lists what each has been set to, in the order of the circle. -/
def closeCircle (tm : TypeManager) (first : BtypeRef) (ps : List BtypeRef) :
    Option (List (BtypeRef × BtypeRef) × TypeManager) := do
  let (marker, tm) ← tm.circularPointerType first
  let (set, tm) ← tm.setToPointers marker ps.reverse
  let (_, tm) ← tm.setPlaceholderPointerType first marker
  some ((first, marker) :: set.reverse, tm)

/-! ## Types of the circle -/

/-- The object is resolved and has the LLVM type. -/
def HasType (tm : TypeManager) (x : BtypeRef) (t : LType) : Prop :=
  ∃ o, tm.obj x = some o ∧ ¬o.isPlaceholder ∧ o.type = t

theorem HasType.typeOf {tm : TypeManager} {x : BtypeRef} {t : LType} (h : tm.HasType x t) :
    tm.typeOf x = some t := by
  obtain ⟨o, ho, -, rfl⟩ := h
  exact typeOf_of_obj ho

end TypeManager

namespace LType

/-- One pointer more than `k` to an opaque struct. -/
def pointers (id : ℕ) : ℕ → LType
  | 0 => ptr (.structRef id)
  | k + 1 => ptr (pointers id k)

theorem pointers_injective {id k k' : ℕ} (h : pointers id k = pointers id k') : k = k' := by
  induction k generalizing k' with
  | zero =>
    cases k' with
    | zero => rfl
    | succ k' => cases k' <;> cases h
  | succ k ih =>
    cases k' with
    | zero => cases k <;> cases h
    | succ k' => rw [ih (ptr.inj h)]

theorem pointers_base (id k : ℕ) : (pointers id k).base = some id := by
  induction k with
  | zero => rfl
  | succ k ih => exact ih

theorem pointers_isPointerTy (id k : ℕ) : (pointers id k).isPointerTy := by
  cases k with
  | zero => rfl
  | succ k => rfl

end LType

namespace TypeManager

/-! ## One placeholder -/

section Step
variable {tm tm' : TypeManager}

/-- Resolved types, placeholders and the tables of circular types stay. -/
structure Keeping (tm tm' : TypeManager) : Prop where
  resolved : ∀ x o, tm.obj x = some o → ¬o.isPlaceholder → tm'.obj x = some o
  loop : tm'.circularPointerLoop = tm.circularPointerLoop
  loads : tm'.circularConversionLoadMap = tm.circularConversionLoadMap
  addrs : tm'.circularConversionAddrMap = tm.circularConversionAddrMap

theorem Keeping.hasType (h : Keeping tm tm') {x : BtypeRef} {t : LType} (hx : tm.HasType x t) :
    tm'.HasType x t := by
  obtain ⟨o, ho, hp, ht⟩ := hx
  exact ⟨o, h.resolved x o ho hp, hp, ht⟩

/-- The error type is not a pointer. -/
theorem Regular.ne_errorType (h : tm.Regular) {x : BtypeRef} {t : LType} (hx : tm.typeOf x = some t)
    (hptr : t.isPointerTy) : x ≠ tm.errorType := by
  rintro rfl
  obtain ⟨o, ho, ht, -⟩ := h.auxTypes _ h.error
  rw [typeOf_of_obj ho] at hx
  rw [← Option.some.inj hx, ht] at hptr
  cases hptr

theorem Regular.unset_ne_errorType (h : tm.Regular) {p : BtypeRef} (hp : tm.IsUnset p) :
    p ≠ tm.errorType := by
  rintro rfl
  obtain ⟨-, o, ho, hflag, hk⟩ := hp
  obtain ⟨o', ho', -, hk'⟩ := h.auxTypes _ h.error
  obtain rfl := Option.some.inj (ho.symm.trans ho')
  rcases hk' with hk' | ⟨-, hk', -⟩
  · exact nomatch hk.symm.trans hk'
  · exact hk' hflag

/-- A pointer to a resolved type is there or is made, and is resolved. -/
theorem pointerType_keeping (h : tm.Regular) (hw : tm.WaitersComplete) {x r : BtypeRef} {t : LType}
    (hx : tm.HasType x t) (hptr : t.isPointerTy) (hcall : tm.pointerType x = some (r, tm')) :
    tm'.Regular ∧ tm'.WaitersComplete ∧ Keeping tm tm' ∧ tm'.HasType r (ptr t) ∧
      ∀ p, tm.IsUnset p → tm'.IsUnset p := by
  obtain ⟨o, ho, hp, rfl⟩ := hx
  have hcand : pointerCandidate o x = ⟨"", ptr o.type, false, .pointer (some x)⟩ := by
    rw [pointerCandidate, if_neg (not_isVoidTy_of_isPointerTy hptr), Bool.eq_false_iff.mpr hp]
  have hunresolved : tm.isUnresolvedPlaceholder x = false := by
    rw [Bool.eq_false_iff]
    intro hu
    obtain ⟨o', ho', hflag⟩ := isPlaceholder_iff.mp (isPlaceholder_of_unresolved hu)
    exact hp (Option.some.inj (ho.symm.trans ho') ▸ hflag)
  rcases pointerType_cases hcall with ⟨herr, -, -⟩ | ⟨target, -, htarget, hcases⟩
  · exact (h.ne_errorType (typeOf_of_obj ho) hptr herr).elim
  obtain rfl := Option.some.inj (ho.symm.trans htarget)
  rcases hcases with ⟨hfound, hsame⟩ | ⟨found, rfl, rfl, horigin⟩
  · obtain ⟨b, hb, hkey, hflag⟩ := lookup_some h hfound
    rw [hcand] at hkey hflag
    rw [hsame]
    refine ⟨h, hw, ⟨fun _ _ ho _ => ho, rfl, rfl, rfl⟩, ⟨b, hb, ?_, ?_⟩, fun _ hp => hp⟩
    · rw [hflag]
      exact Bool.false_ne_true
    · exact (Prod.mk.inj (Prod.mk.inj hkey).2).2
  · have g := tm.make_grown 0 (tm.withFlag (pointerCandidate o x) [x]) [x] (.ofLookup found)
    have htables := tm.make_tables 0 (tm.withFlag (pointerCandidate o x) [x]) [x] (.ofLookup found)
    refine ⟨h.make horigin, hw.make h horigin, ⟨?_, htables.1, htables.2.1, htables.2.2⟩, ?_, ?_⟩
    · exact fun y oy hy _ => (g.obj_old (obj_lt hy)).trans hy
    · refine ⟨_, g.obj_new, ?_, ?_⟩
      · simp [withFlag, hunresolved]
      · rw [hcand]
        rfl
    · intro p hunset
      obtain ⟨hmem, op, hop, hrest⟩ := hunset
      refine ⟨?_, op, (g.obj_old (obj_lt hop)).trans hop, hrest⟩
      rw [make_placeholders]
      split_ifs
      · exact List.mem_cons_of_mem _ hmem
      · exact hmem

/-- An unset placeholder waits for nothing. -/
theorem WaitersComplete.unset (hw : tm.WaitersComplete) {p : BtypeRef} (hp : tm.IsUnset p)
    (y : BtypeRef) : p ∉ tm.placeholderRefs y := by
  intro hmem
  obtain ⟨-, o, ho, -, hk⟩ := hp
  obtain ⟨o', ho', hcomplete⟩ := hw p y hmem
  rw [← Option.some.inj (ho.symm.trans ho'), hk] at hcomplete
  cases hcomplete

/-- A placeholder that is set to a resolved pointer takes its type, and the other unset
placeholders stay unset. -/
theorem setPointer_keeping (h : tm.Regular) (hw : tm.WaitersComplete) {p x : BtypeRef} {t : LType}
    {b : Bool} (hp : tm.IsUnset p) (hx : tm.HasType x t) (hptr : t.isPointerTy)
    (hcall : tm.setPlaceholderPointerType p x = some (b, tm')) :
    tm'.Regular ∧ tm'.WaitersComplete ∧ ∃ tm₁, tm' = tm₁.closeCircularLoop p x ∧
      Keeping tm tm₁ ∧ tm₁.HasType p t ∧ ∀ q, q ≠ p → tm.IsUnset q → tm₁.IsUnset q := by
  obtain ⟨ox, hox, hpx, rfl⟩ := hx
  have hpne := h.unset_ne_errorType hp
  have hxne := h.ne_errorType (typeOf_of_obj hox) hptr
  rcases setPlaceholderPointerType_some hcall with
    ⟨herr, -⟩ | ⟨t, o, tm₁, -, -, rfl, ht, -, ho, -, -, -, hredirect, rfl⟩
  · exact (herr.elim hpne hxne).elim
  obtain rfl := Option.some.inj ((typeOf_of_obj hox).symm.trans ht)
  have hstep : Step tm (.setPointer p x) (tm₁.closeCircularLoop p x) := .setPointer hcall
  refine ⟨hstep.regular h, hstep.waitersComplete hw h, tm₁, rfl, ?_⟩
  have hpx' : p ≠ x := by
    rintro rfl
    obtain ⟨-, o', ho', hflag, -⟩ := hp
    exact hpx (Option.some.inj (hox.symm.trans ho') ▸ hflag)
  let f := fun o : BtypeObject => { o with type := ox.type, kind := .pointer (some x) }
  let g := fun o : BtypeObject => { o with isPlaceholder := false }
  have hresolved : (tm.update p f).isUnresolvedPlaceholder x = false := by
    rw [isUnresolvedPlaceholder, obj_update_ne _ hpx', hox, Option.any_some, Bool.eq_false_iff]
    intro hu
    have hux : tm.isUnresolvedPlaceholder x := by
      rw [isUnresolvedPlaceholder, hox, Option.any_some]
      exact hu
    obtain ⟨o', ho', hflag⟩ := isPlaceholder_iff.mp (isPlaceholder_of_unresolved hux)
    exact hpx (Option.some.inj (hox.symm.trans ho') ▸ hflag)
  have hcascade : ((tm.update p f).update p g).postProcessResolvedPlaceholder p = some tm₁ := by
    rw [redirect] at hredirect
    exact (if_neg (by rw [hresolved]; exact Bool.false_ne_true)).symm.trans hredirect
  have hs := postProcessResolvedPlaceholder_settles hcascade
  have hself : ((tm.update p f).update p g).obj p = some (g (f o)) := by
    rw [obj_update_self, obj_update_self, ho]
    rfl
  have hother : ∀ y, y ≠ p → ((tm.update p f).update p g).obj y = tm.obj y := by
    intro y hy
    rw [obj_update_ne _ (Ne.symm hy), obj_update_ne _ (Ne.symm hy)]
  refine ⟨⟨?_, ?_, ?_, ?_⟩, ?_, ?_⟩
  · intro y oy hy hflag
    have hyp : y ≠ p := by
      rintro rfl
      obtain ⟨-, o', ho', hflag', -⟩ := hp
      exact hflag (Option.some.inj (hy.symm.trans ho') ▸ hflag')
    exact hs.kept ((hother y hyp).trans hy) hflag
  · rw [hs.rest]
    rfl
  · rw [hs.rest]
    rfl
  · rw [hs.rest]
    rfl
  · exact ⟨g (f o), hs.kept hself Bool.false_ne_true, Bool.false_ne_true, rfl⟩
  · intro q hq hunset
    have hwaits := hw.unset hunset
    obtain ⟨hmem, oq, hoq, hrest⟩ := hunset
    refine ⟨?_, oq, ?_, hrest⟩
    · rw [hs.placeholders]
      exact hmem
    · rw [hs.waited q, hother q hq]
      · exact hoq
      · exact hwaits

end Step

/-! ## The whole circle -/

theorem HasType.unique {tm : TypeManager} {x : BtypeRef} {t t' : LType} (h : tm.HasType x t)
    (h' : tm.HasType x t') : t = t' := Option.some.inj (h.typeOf.symm.trans h'.typeOf)

/-- The circle after some of its placeholders have been set, the last one of them `next`. -/
structure Closing (id : ℕ) (start tm : TypeManager) (first : BtypeRef × BtypeRef)
    (set : List (BtypeRef × BtypeRef)) (next : BtypeRef) (todo : List BtypeRef) : Prop where
  regular : tm.Regular
  waiters : tm.WaitersComplete
  resolved : ∀ x o, start.obj x = some o → ¬o.isPlaceholder → tm.obj x = some o
  loop : tm.circularPointerLoop = first :: set
  loads : tm.circularConversionLoadMap = start.circularConversionLoadMap
  addrs : tm.circularConversionAddrMap = start.circularConversionAddrMap
  marker : tm.HasType first.2 (pointers id 0)
  types : ∀ k c, set[k]? = some c →
    tm.HasType c.1 (pointers id (k + 1)) ∧ tm.HasType c.2 (pointers id (k + 1))
  next : tm.HasType next (pointers id set.length)
  todo : ∀ p ∈ todo, tm.IsUnset p

section Circle
variable {id : ℕ} {start tm tm' : TypeManager} {first : BtypeRef × BtypeRef}
  {set : List (BtypeRef × BtypeRef)} {next : BtypeRef} {todo : List BtypeRef}

theorem closeCircularLoop_push {p x : BtypeRef} (hloop : tm.circularPointerLoop = first :: set)
    (hx : x ≠ first.2) : tm.closeCircularLoop p x =
      { tm with circularPointerLoop := first :: (set ++ [(p, x)]) } := by
  rw [closeCircularLoop, hloop]
  exact if_neg hx

/-- One more placeholder has been set to a pointer to the one before it. -/
theorem Closing.step (h : Closing id start tm first set next (p :: todo)) (hp : p ∉ todo)
    {t : BtypeRef} {b : Bool} {tm₁ tm₂ : TypeManager}
    (hpointer : tm.pointerType next = some (t, tm₁))
    (hset : tm₁.setPlaceholderPointerType p t = some (b, tm₂)) :
    Closing id start tm₂ first (set ++ [(p, t)]) p todo := by
  obtain ⟨hr₁, hw₁, hkeep₁, ht, hunset₁⟩ := pointerType_keeping h.regular h.waiters h.next
    (pointers_isPointerTy id set.length) hpointer
  have hp₁ := hunset₁ p (h.todo p (List.mem_cons_self ..))
  obtain ⟨hr₂, hw₂, tm₃, rfl, hkeep₂, hp₂, hunset₂⟩ := setPointer_keeping hr₁ hw₁ hp₁ ht rfl hset
  have hloop : tm₃.circularPointerLoop = first :: set := by
    rw [hkeep₂.loop, hkeep₁.loop, h.loop]
  have hmarker := hkeep₂.hasType (hkeep₁.hasType h.marker)
  have ht₃ := hkeep₂.hasType ht
  have hne : t ≠ first.2 := by
    intro heq
    have hlevels := (show tm₃.HasType first.2 (pointers id (set.length + 1)) from heq ▸ ht₃).unique
      hmarker
    exact Nat.succ_ne_zero _ (pointers_injective hlevels)
  rw [closeCircularLoop_push hloop hne] at hr₂ hw₂ ⊢
  refine ⟨hr₂, hw₂, ?_, rfl, ?_, ?_, hmarker, ?_, ?_, ?_⟩
  · intro x o ho hflag
    exact hkeep₂.resolved x o (hkeep₁.resolved x o (h.resolved x o ho hflag) hflag) hflag
  · rw [← h.loads, ← hkeep₁.loads, ← hkeep₂.loads]
  · rw [← h.addrs, ← hkeep₁.addrs, ← hkeep₂.addrs]
  · intro k c hk
    by_cases hlt : k < set.length
    · rw [List.getElem?_append_left hlt] at hk
      obtain ⟨h₁, h₂⟩ := h.types k c hk
      exact ⟨hkeep₂.hasType (hkeep₁.hasType h₁), hkeep₂.hasType (hkeep₁.hasType h₂)⟩
    · rw [List.getElem?_append_right (by omega), List.getElem?_singleton] at hk
      split_ifs at hk with hzero
      obtain rfl := Option.some.inj hk
      obtain rfl : k = set.length := by omega
      exact ⟨hp₂, ht₃⟩
  · rw [List.length_append, List.length_singleton]
    exact hp₂
  · intro q hq
    have hqp : q ≠ p := fun heq => hp (heq ▸ hq)
    exact hunset₂ q hqp (hunset₁ q (h.todo q (List.mem_cons_of_mem _ hq)))

theorem Closing.run {ps : List BtypeRef} {set' : List (BtypeRef × BtypeRef)}
    (h : Closing id start tm first set next (ps ++ todo)) (hnodup : (ps ++ todo).Nodup)
    (hrun : tm.setToPointers next ps = some (set', tm')) :
    set'.map (·.1) = ps ∧ ∃ next', Closing id start tm' first (set ++ set') next' todo := by
  induction ps generalizing tm set set' next with
  | nil =>
    obtain ⟨rfl, rfl⟩ := Prod.mk.inj (Option.some.inj hrun)
    exact ⟨rfl, next, by rwa [List.append_nil]⟩
  | cons p ps ih =>
    obtain ⟨⟨t, tm₁⟩, hpointer, hrun⟩ := Option.bind_eq_some_iff.mp hrun
    obtain ⟨⟨b, tm₂⟩, hset, hrun⟩ := Option.bind_eq_some_iff.mp hrun
    obtain ⟨⟨rest, tm₃⟩, hrest, hrun⟩ := Option.bind_eq_some_iff.mp hrun
    obtain ⟨rfl, rfl⟩ := Prod.mk.inj (Option.some.inj hrun)
    obtain ⟨hp, hnodup⟩ := List.nodup_cons.mp hnodup
    obtain ⟨hps, next', hclosing⟩ := ih (h.step hp hpointer hset) hnodup hrest
    refine ⟨by rw [List.map_cons, hps], next', ?_⟩
    rwa [List.append_assoc] at hclosing

/-- The circle has been opened. -/
theorem circularPointerType_closing (h : tm.Regular) (hw : tm.WaitersComplete) {p m : BtypeRef}
    (hp : tm.IsUnset p) (hmarker : tm.circularPointerTypeMap p = none)
    (htodo : ∀ q ∈ todo, tm.IsUnset q) (hcall : tm.circularPointerType p = some (m, tm')) :
    m = tm.heap.length ∧ Closing tm.nextOpaque tm tm' (p, m) [] m todo := by
  have hstep : tm'.Regular ∧ tm'.WaitersComplete := by
    obtain ⟨tm₁, hpath, hstep⟩ := circularPointerType_steps hcall
    have hprepared : tm₁.Regular ∧ tm₁.WaitersComplete := by
      clear hstep
      induction hpath with
      | refl => exact ⟨h, hw⟩
      | tail _ hstep ih => exact ⟨ih.1.prepares hstep, hstep.waitersComplete ih.2 ih.1⟩
    rcases hstep with rfl | hstep
    · exact hprepared
    · exact ⟨hstep.regular hprepared.1, hstep.waitersComplete hprepared.2 hprepared.1⟩
  rw [circularPointerType, if_neg (h.unset_ne_errorType hp), hmarker] at hcall
  let tm₀ : TypeManager := { tm with nextOpaque := tm.nextOpaque + 1 }
  have hfresh : tm₀.makeAuxType (ptr (.structRef tm.nextOpaque)) = (tm.heap.length,
      tm₀.make 0 ⟨"", ptr (.structRef tm.nextOpaque), false, .aux⟩ [] .auxTypeMap) := by
    rcases tm₀.makeAuxType_cases (ptr (.structRef tm.nextOpaque)) with
      ⟨e, he, heq, -⟩ | ⟨-, hmade⟩
    · -- no type leads to the new struct yet
      obtain ⟨o, ho, ht, -⟩ := h.auxTypes e he
      have hknown := h.known e.2 o.type (typeOf_of_obj ho) tm.nextOpaque (by rw [ht, heq]; rfl)
      exact (Nat.lt_irrefl _ hknown).elim
    · exact hmade
  by_cases hloop : (tm₀.makeAuxType (ptr (.structRef tm.nextOpaque))).2.circularPointerLoop = []
  swap
  · cases (if_neg hloop).symm.trans hcall
  replace hcall := (if_pos hloop).symm.trans hcall
  obtain ⟨hm, hcall⟩ := Prod.mk.inj (Option.some.inj hcall)
  have hm : m = tm.heap.length := by
    rw [← hm]
    exact (Prod.mk.inj hfresh).1
  have g := tm₀.make_grown 0 ⟨"", ptr (.structRef tm.nextOpaque), false, .aux⟩ [] .auxTypeMap
  have hheap : tm'.heap = (tm₀.make 0 ⟨"", ptr (.structRef tm.nextOpaque), false, .aux⟩ []
      .auxTypeMap).heap := by
    rw [← hcall, ← (Prod.mk.inj hfresh).2]
  have hold : ∀ x o, tm.obj x = some o → tm'.obj x = some o := by
    intro x o ho
    rw [obj, hheap]
    exact (g.obj_old (obj_lt ho)).trans ho
  have hnew : tm'.HasType m (pointers tm.nextOpaque 0) := by
    refine ⟨⟨"", ptr (.structRef tm.nextOpaque), false, .aux⟩, ?_, Bool.false_ne_true, rfl⟩
    rw [obj, hheap, hm]
    exact g.obj_new
  refine ⟨hm, hstep.1, hstep.2, fun x o ho _ => hold x o ho, ?_, ?_, ?_, hnew, ?_, hnew, ?_⟩
  · rw [← hcall]
    change [(p, (tm₀.makeAuxType (ptr (.structRef tm.nextOpaque))).1)] = [(p, m)]
    rw [hfresh, hm]
  · rw [← hcall]
    change (tm₀.makeAuxType (ptr (.structRef tm.nextOpaque))).2.circularConversionLoadMap = _
    rw [hfresh]
    exact (make_tables ..).2.1
  · rw [← hcall]
    change (tm₀.makeAuxType (ptr (.structRef tm.nextOpaque))).2.circularConversionAddrMap = _
    rw [hfresh]
    exact (make_tables ..).2.2
  · exact fun k c hk => absurd hk (Option.some_ne_none c).symm
  · intro q hq
    obtain ⟨hmem, o, ho, hrest⟩ := htodo q hq
    refine ⟨?_, o, hold q o ho, hrest⟩
    rw [← hcall]
    change q ∈ (tm₀.makeAuxType (ptr (.structRef tm.nextOpaque))).2.placeholders
    rw [hfresh]
    exact hmem

end Circle

/-! ## The conversions that are recorded -/

/-- A circle of placeholders, none of them set, and no loop open.  Whatever has a conversion from
an earlier circle is resolved. -/
structure OpenCircle (tm : TypeManager) (first : BtypeRef) (ps : List BtypeRef) : Prop where
  nodup : (first :: ps).Nodup
  unset : ∀ p ∈ first :: ps, tm.IsUnset p
  marker : tm.circularPointerTypeMap first = none
  conversions : ∀ x, tm.circularConversionLoadMap x ≠ none ∨ tm.circularConversionAddrMap x ≠ none →
    ∃ o, tm.obj x = some o ∧ ¬o.isPlaceholder

/-- What the conversions for a circle have to be: `first` and what the others have been set to,
the pointee of `first` being the next one, or itself. -/
structure ConvertsRight (tm : TypeManager) (first : BtypeRef × BtypeRef)
    (rest : List (BtypeRef × BtypeRef)) : Prop where
  load : ∀ c ∈ first :: rest, ∀ x, x = c.1 ∨ x = c.2 → tm.circularConversionLoadMap x =
    if x = first.1 ∨ x = first.2 then some (rest.headD first).2 else none
  addr : ∀ c ∈ first :: rest, ∀ x, x = c.1 ∨ x = c.2 → tm.circularConversionAddrMap x =
    if x = (rest.headD first).1 ∨ x = (rest.headD first).2 then some first.2 else none
  loads : ∀ i c c', (first :: rest)[i]? = some c →
    (first :: rest)[(i + 1) % (first :: rest).length]? = some c' →
    ∀ x, x = c.1 ∨ x = c.2 → tm.loadType x = tm.typeOf c'.1
  addresses : ∀ i c c', (first :: rest)[i]? = some c →
    (first :: rest)[(i + 1) % (first :: rest).length]? = some c' →
    ∀ x, x = c'.1 ∨ x = c'.2 → tm.addressType x = tm.typeOf c.1

section Closed
variable {start tm tm' : TypeManager} {first : BtypeRef} {ps : List BtypeRef}
  {circle : List (BtypeRef × BtypeRef)}

/-- The circle once it is closed: `set` is in the order in which the placeholders were set. -/
structure CircleClosed (id : ℕ) (start tm : TypeManager) (first m : BtypeRef)
    (set : List (BtypeRef × BtypeRef)) : Prop where
  resolved : ∀ x o, start.obj x = some o → ¬o.isPlaceholder → tm.obj x = some o
  firstType : tm.HasType first (pointers id 0)
  marker : tm.HasType m (pointers id 0)
  types : ∀ k c, set[k]? = some c →
    tm.HasType c.1 (pointers id (k + 1)) ∧ tm.HasType c.2 (pointers id (k + 1))
  load : ∀ x, tm.circularConversionLoadMap x = if x = m ∨ x = first then
    some (set.getLastD (first, m)).2 else start.circularConversionLoadMap x
  addr : ∀ x, tm.circularConversionAddrMap x = if x = (set.headD (first, m)).1 ∨
    x = (set.headD (first, m)).2 then some m else start.circularConversionAddrMap x

theorem closeCircle_spec (h : start.Regular) (hw : start.WaitersComplete)
    (hopen : start.OpenCircle first ps)
    (hrun : start.closeCircle first ps = some (circle, tm)) : ∃ m set,
      circle = (first, m) :: set.reverse ∧ set.map (·.1) = ps.reverse ∧
      CircleClosed start.nextOpaque start tm first m set := by
  obtain ⟨⟨m, tm₁⟩, hmarker, hrun⟩ := Option.bind_eq_some_iff.mp hrun
  obtain ⟨⟨set, tm₂⟩, hset, hrun⟩ := Option.bind_eq_some_iff.mp hrun
  obtain ⟨⟨b, tm₃⟩, hfirst, hrun⟩ := Option.bind_eq_some_iff.mp hrun
  obtain ⟨rfl, rfl⟩ := Prod.mk.inj (Option.some.inj hrun)
  have hunset : ∀ q ∈ ps.reverse ++ [first], start.IsUnset q := by
    intro q hq
    apply hopen.unset
    simpa [or_comm] using hq
  have hnodup : (ps.reverse ++ [first]).Nodup := by
    have := hopen.nodup
    rw [← List.nodup_reverse, List.reverse_cons] at this
    exact this
  obtain ⟨-, hclosing⟩ := circularPointerType_closing h hw
    (hopen.unset first (List.mem_cons_self ..)) hopen.marker hunset hmarker
  obtain ⟨hps, next, hclosing⟩ := hclosing.run hnodup hset
  rw [List.nil_append] at hclosing
  refine ⟨m, set, rfl, hps, ?_⟩
  obtain ⟨-, -, tm₄, rfl, hkeep, htype, -⟩ := setPointer_keeping hclosing.regular hclosing.waiters
    (hclosing.todo first (List.mem_singleton_self _)) hclosing.marker rfl hfirst
  have hloop : tm₄.circularPointerLoop = (first, m) :: set := hkeep.loop.trans hclosing.loop
  have hclosed : tm₄.closeCircularLoop first m = { tm₄ with
      circularPointerLoop := []
      circularConversionLoadMap := fun x => if x = m ∨ x = first then
        some (set.getLastD (first, m)).2 else tm₄.circularConversionLoadMap x
      circularConversionAddrMap := fun x => if x = (set.headD (first, m)).1 ∨
        x = (set.headD (first, m)).2 then some m else tm₄.circularConversionAddrMap x } := by
    rw [closeCircularLoop, hloop]
    exact if_pos rfl
  rw [hclosed]
  refine ⟨?_, htype, hkeep.hasType hclosing.marker, ?_, ?_, ?_⟩
  · exact fun x o ho hflag => hkeep.resolved x o (hclosing.resolved x o ho hflag) hflag
  · exact fun k c hk => ⟨hkeep.hasType (hclosing.types k c hk).1,
      hkeep.hasType (hclosing.types k c hk).2⟩
  · intro x
    rw [← hclosing.loads, ← hkeep.loads]
  · intro x
    rw [← hclosing.addrs, ← hkeep.addrs]

/-- A type of the circle has no conversion from an earlier one. -/
theorem CircleClosed.fresh {m x : BtypeRef} {set : List (BtypeRef × BtypeRef)}
    (hc : CircleClosed start.nextOpaque start tm first m set) (h : start.Regular)
    (hopen : start.OpenCircle first ps) {k : ℕ} (hx : tm.HasType x (pointers start.nextOpaque k)) :
    start.circularConversionLoadMap x = none ∧ start.circularConversionAddrMap x = none := by
  have hnone : ¬(start.circularConversionLoadMap x ≠ none ∨
      start.circularConversionAddrMap x ≠ none) := by
    intro hconv
    -- it would have been resolved before the opaque struct of the marker was made
    obtain ⟨o, ho, hflag⟩ := hopen.conversions x hconv
    have htype := (typeOf_of_obj (hc.resolved x o ho hflag)).symm.trans hx.typeOf
    have hknown := h.known x o.type (typeOf_of_obj ho) start.nextOpaque
    rw [Option.some.inj htype, pointers_base] at hknown
    exact Nat.lt_irrefl _ (hknown rfl)
  rw [not_or, not_not, not_not] at hnone
  exact hnone

theorem HasType.ne {x y : BtypeRef} {id k k' : ℕ} (hx : tm.HasType x (pointers id k))
    (hy : tm.HasType y (pointers id k')) (hk : k ≠ k') : x ≠ y := by
  rintro rfl
  exact hk (pointers_injective (hx.unique hy))

/-- The conversions for one placeholder, which is its own pointee. -/
theorem CircleClosed.converts_one {m : BtypeRef}
    (hc : CircleClosed start.nextOpaque start tm first m []) : tm.ConvertsRight (first, m) [] where
  load := by
    intro c hmem x hx
    obtain rfl := List.mem_singleton.mp hmem
    rw [hc.load, if_pos hx.symm, if_pos hx]
    rfl
  addr := by
    intro c hmem x hx
    obtain rfl := List.mem_singleton.mp hmem
    have hx' : x = (List.headD ([] : List (BtypeRef × BtypeRef)) (first, m)).1 ∨
        x = (List.headD ([] : List (BtypeRef × BtypeRef)) (first, m)).2 := hx
    rw [hc.addr, if_pos hx', if_pos hx']
  loads := by
    intro i c c' hi hi' x hx
    obtain ⟨rfl, rfl⟩ : c = (first, m) ∧ c' = (first, m) := by
      rw [List.getElem?_singleton] at hi hi'
      split_ifs at hi hi'
      exact ⟨(Option.some.inj hi).symm, (Option.some.inj hi').symm⟩
    rw [loadType, hc.load, if_pos hx.symm]
    exact hc.marker.typeOf.trans hc.firstType.typeOf.symm
  addresses := by
    intro i c c' hi hi' x hx
    obtain ⟨rfl, rfl⟩ : c = (first, m) ∧ c' = (first, m) := by
      rw [List.getElem?_singleton] at hi hi'
      split_ifs at hi hi'
      exact ⟨(Option.some.inj hi).symm, (Option.some.inj hi').symm⟩
    rw [addressType, hc.addr]
    have hx' : x = (List.headD ([] : List (BtypeRef × BtypeRef)) (first, m)).1 ∨
        x = (List.headD ([] : List (BtypeRef × BtypeRef)) (first, m)).2 := hx
    rw [if_pos hx']
    exact hc.marker.typeOf.trans hc.firstType.typeOf.symm

/-- The conversions for two placeholders. -/
theorem CircleClosed.converts_two {m p t : BtypeRef}
    (hc : CircleClosed start.nextOpaque start tm first m [(p, t)]) (h : start.Regular)
    (hopen : start.OpenCircle first ps) : tm.ConvertsRight (first, m) [(p, t)] := by
  obtain ⟨hp, ht⟩ := hc.types 0 (p, t) rfl
  have hfirst : ∀ x, x = first ∨ x = m → tm.HasType x (pointers start.nextOpaque 0) := by
    rintro x (rfl | rfl)
    · exact hc.firstType
    · exact hc.marker
  have hnext : ∀ x, x = p ∨ x = t → tm.HasType x (pointers start.nextOpaque 1) := by
    rintro x (rfl | rfl)
    · exact hp
    · exact ht
  have hapart : ∀ x, (x = first ∨ x = m) → ¬(x = p ∨ x = t) := fun x hx hx' =>
    (hfirst x hx).ne (hnext x hx') Nat.zero_ne_one rfl
  have hload : ∀ x, (x = first ∨ x = m) → tm.circularConversionLoadMap x = some t := by
    intro x hx
    rw [hc.load, if_pos hx.symm]
    rfl
  have hload' : ∀ x, (x = p ∨ x = t) → tm.circularConversionLoadMap x = none := by
    intro x hx
    rw [hc.load, if_neg fun hx' => hapart x hx'.symm hx]
    exact (hc.fresh h hopen (hnext x hx)).1
  have haddr : ∀ x, (x = p ∨ x = t) → tm.circularConversionAddrMap x = some m := by
    intro x hx
    have hx' : x = (List.headD [(p, t)] (first, m)).1 ∨ x = (List.headD [(p, t)] (first, m)).2 := hx
    rw [hc.addr, if_pos hx']
  have haddr' : ∀ x, (x = first ∨ x = m) → tm.circularConversionAddrMap x = none := by
    intro x hx
    have hx' : ¬(x = (List.headD [(p, t)] (first, m)).1 ∨
        x = (List.headD [(p, t)] (first, m)).2) := hapart x hx
    rw [hc.addr, if_neg hx']
    exact (hc.fresh h hopen (hfirst x hx)).2
  have hmem : ∀ c ∈ [(first, m), (p, t)], c = (first, m) ∨ c = (p, t) := by simp
  have hpair : ∀ i (c c' : BtypeRef × BtypeRef), [(first, m), (p, t)][i]? = some c →
      [(first, m), (p, t)][(i + 1) % 2]? = some c' →
      c = (first, m) ∧ c' = (p, t) ∨ c = (p, t) ∧ c' = (first, m) := by
    intro i c c' hi hi'
    match i with
    | 0 => exact .inl ⟨(Option.some.inj hi).symm, (Option.some.inj hi').symm⟩
    | 1 => exact .inr ⟨(Option.some.inj hi).symm, (Option.some.inj hi').symm⟩
  refine ⟨?_, ?_, ?_, ?_⟩
  · intro c hc' x hx
    rcases hmem c hc' with rfl | rfl
    · rw [hload x hx]
      exact (if_pos hx).symm
    · rw [hload' x hx]
      exact (if_neg fun hx' => hapart x hx' hx).symm
  · intro c hc' x hx
    rcases hmem c hc' with rfl | rfl
    · rw [haddr' x hx]
      exact (if_neg (hapart x hx)).symm
    · rw [haddr x hx]
      exact (if_pos hx).symm
  · intro i c c' hi hi' x hx
    rcases hpair i c c' hi hi' with ⟨rfl, rfl⟩ | ⟨rfl, rfl⟩
    · rw [loadType, hload x hx]
      exact ht.typeOf.trans hp.typeOf.symm
    · rw [loadType, hload' x hx]
      change (tm.typeOf x).map pointeeType = tm.typeOf first
      rw [(hnext x hx).typeOf, hc.firstType.typeOf]
      rfl
  · intro i c c' hi hi' x hx
    rcases hpair i c c' hi hi' with ⟨rfl, rfl⟩ | ⟨rfl, rfl⟩
    · rw [addressType, haddr x hx]
      exact hc.marker.typeOf.trans hc.firstType.typeOf.symm
    · rw [addressType, haddr' x hx]
      change (tm.typeOf x).map ptr = tm.typeOf p
      rw [(hfirst x hx).typeOf, hp.typeOf]
      rfl

/-- With more than two, the address conversion is recorded for the last placeholder, which was
set first. -/
theorem CircleClosed.not_converts {m : BtypeRef} {a b : BtypeRef × BtypeRef}
    {set : List (BtypeRef × BtypeRef)}
    (hc : CircleClosed start.nextOpaque start tm first m (a :: b :: set)) :
    ¬tm.ConvertsRight (first, m) (a :: b :: set).reverse := by
  intro hconv
  obtain ⟨ha, -⟩ := hc.types 0 a rfl
  have hrecorded : tm.circularConversionAddrMap a.1 = some m := by
    have ha' : a.1 = ((a :: b :: set).headD (first, m)).1 ∨
        a.1 = ((a :: b :: set).headD (first, m)).2 := .inl rfl
    rw [hc.addr, if_pos ha']
  have hwanted := hconv.addr a (by simp) a.1 (.inl rfl)
  have hpointee : ∃ c, (a :: b :: set).reverse.headD (first, m) = c ∧
      (a :: b :: set)[set.length + 1]? = some c := by
    refine ⟨(a :: b :: set).getLast (by simp), ?_, ?_⟩
    · rw [List.headD_eq_head?_getD, List.head?_reverse, List.getLast?_eq_some_getLast (by simp)]
      rfl
    · rw [← List.getLast?_eq_some_getLast (by simp), List.getLast?_eq_getElem?]
      rfl
  obtain ⟨c, hc', hlast⟩ := hpointee
  obtain ⟨h₁, h₂⟩ := hc.types _ c hlast
  rw [hc', hrecorded, if_neg] at hwanted
  · cases hwanted
  · rintro (heq | heq)
    · exact ha.ne h₁ (by omega) heq
    · exact ha.ne h₂ (by omega) heq

/-- Once the circle is closed its conversions are right exactly if it has at most two types. -/
theorem closeCircle_converts_iff {c : BtypeRef × BtypeRef} (h : start.Reachable)
    (hopen : start.OpenCircle first ps)
    (hrun : start.closeCircle first ps = some (c :: circle, tm)) :
    tm.ConvertsRight c circle ↔ (first :: ps).length ≤ 2 := by
  obtain ⟨m, set, hcircle, hset, hc⟩ := closeCircle_spec h.regular h.waitersComplete hopen hrun
  obtain ⟨rfl, rfl⟩ := List.cons.inj hcircle
  have hlength : ps.length = set.length := by
    rw [← List.length_reverse, ← hset, List.length_map]
  rw [List.length_cons, hlength]
  match set, hc with
  | [], hc => exact iff_of_true hc.converts_one (by simp)
  | [(p, t)], hc => exact iff_of_true (hc.converts_two h.regular hopen) (by simp)
  | a :: b :: set, hc => exact iff_of_false hc.not_converts (by simp)

end Closed

/-! ## Two placeholders and three -/

/-- A type manager with placeholders at 3 and 4, for `type p *q` and `type q *p`. -/
def twoPointers : TypeManager :=
  (((newManager id).placeholderPointerType "p").2.placeholderPointerType "q").2

/-- A type manager with placeholders at 3, 4 and 5, for `type p *q`, `type q *r` and
`type r *p`. -/
def threePointers : TypeManager := (twoPointers.placeholderPointerType "r").2

theorem twoPointers_reachable : twoPointers.Reachable :=
  ⟨id, newManager id, [.placeholderPointerType "p", .placeholderPointerType "q"], rfl, rfl⟩

theorem threePointers_reachable : threePointers.Reachable :=
  ⟨id, newManager id,
    [.placeholderPointerType "p", .placeholderPointerType "q", .placeholderPointerType "r"],
    rfl, rfl⟩

theorem twoPointers_openCircle : twoPointers.OpenCircle 3 [4] where
  nodup := by decide
  unset := by
    intro p hp
    obtain rfl | rfl : p = 3 ∨ p = 4 := by simpa using hp
    · exact ⟨by decide, _, rfl, rfl, rfl⟩
    · exact ⟨by decide, _, rfl, rfl, rfl⟩
  marker := rfl
  conversions := fun x hx => (hx.elim (fun h => h rfl) fun h => h rfl).elim

theorem twoPointers_convertsRight :
    ∃ tm, twoPointers.closeCircle 3 [4] = some ([(3, 5), (4, 6)], tm) ∧
      tm.ConvertsRight (3, 5) [(4, 6)] := by
  have hcircle : (twoPointers.closeCircle 3 [4]).map (·.1) = some [(3, 5), (4, 6)] := by decide
  obtain ⟨⟨circle, tm⟩, hrun, hcircle⟩ := Option.map_eq_some_iff.mp hcircle
  change circle = _ at hcircle
  subst hcircle
  exact ⟨tm, hrun, (closeCircle_converts_iff twoPointers_reachable twoPointers_openCircle
    hrun).mpr (by decide)⟩

theorem threePointers_openCircle : threePointers.OpenCircle 3 [4, 5] where
  nodup := by decide
  unset := by
    intro p hp
    obtain rfl | rfl | rfl : p = 3 ∨ p = 4 ∨ p = 5 := by simpa using hp
    · exact ⟨by decide, _, rfl, rfl, rfl⟩
    · exact ⟨by decide, _, rfl, rfl, rfl⟩
    · exact ⟨by decide, _, rfl, rfl, rfl⟩
  marker := rfl
  conversions := fun x hx => (hx.elim (fun h => h rfl) fun h => h rfl).elim

/-- The pointee of the first placeholder is the one at 4, and its address has no conversion. -/
theorem threePointers_not_convertsRight : ¬∀ (start tm : TypeManager) (first : BtypeRef)
    (ps : List BtypeRef) (c : BtypeRef × BtypeRef) (circle : List (BtypeRef × BtypeRef)),
    start.Reachable → start.OpenCircle first ps →
    start.closeCircle first ps = some (c :: circle, tm) → tm.ConvertsRight c circle := by
  intro hall
  have hcircle : (threePointers.closeCircle 3 [4, 5]).map (fun c =>
      (c.1, c.2.circularConversionAddrMap 4)) = some ([(3, 6), (4, 8), (5, 7)], none) := by decide
  obtain ⟨⟨circle, tm⟩, hrun, hcircle⟩ := Option.map_eq_some_iff.mp hcircle
  obtain ⟨rfl, hnone⟩ := Prod.mk.inj hcircle
  have hright := hall _ _ _ _ _ _ threePointers_reachable threePointers_openCircle hrun
  have haddr : tm.circularConversionAddrMap 4 = some 6 :=
    hright.addr (4, 8) (by decide) 4 (.inl rfl)
  cases haddr.symm.trans hnone

end TypeManager
end Dragongo
