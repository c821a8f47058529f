import Dragongo.PlaceholderOrder
import Dragongo.TypeEquality

/-!
# Making placeholder pointers

The state of the manager after placeholders and pointers to them have been made: each
placeholder has an LLVM type of its own, and `pointerType` of a type that waits is the
one pointer to it.
-/

namespace Dragongo
open LType

namespace TypeManager

/-! ## Making placeholders and pointers -/

inductive Creation
  | placeholder (name : String)
  | pointer (toType : BtypeRef)

def createOne (tm : TypeManager) : Creation → Option TypeManager
  | .placeholder name => some (tm.placeholderPointerType name).2
  | .pointer toType => (tm.pointerType toType).map (·.2)

def create (tm : TypeManager) (ops : List Creation) : Option TypeManager :=
  ops.foldlM createOne tm

/-- No type waits for another one. -/
structure Settled (tm : TypeManager) : Prop where
  resolved : ∀ x, ¬tm.isUnresolvedPlaceholder x
  refs : ∀ y, ∀ x ∈ tm.placeholderRefs y, x < tm.heap.length ∧ ¬tm.isPlaceholder x
  error : ∃ o, tm.obj tm.errorType = some o ∧ ¬o.isPlaceholder ∧ ¬o.type.isPointerTy
  entries : ∀ e ∈ tm.anonTypes, e.1 < tm.heap.length

/-- Between the calls that make types: placeholders have LLVM types of their own, and
there is one hashed pointer to each type that waits. -/
structure Creating (tm : TypeManager) : Prop extends tm.Prepared where
  refs : ∀ y, ∀ x ∈ tm.placeholderRefs y, x < tm.heap.length
  unsetType : ∀ p, tm.IsUnset p → ∃ n < tm.nextOpaque, tm.typeOf p = some (ptr (.structRef n))
  distinct : ∀ p q, tm.IsUnset p → tm.IsUnset q → tm.typeOf p = tm.typeOf q → p = q
  derived : ∀ x y, tm.isUnresolvedPlaceholder x → tm.toType x = some y → ∃ t,
    tm.typeOf y = some t ∧ tm.obj x = some ⟨"", ptr t, true, .pointer (some y)⟩ ∧
    (x, (TyFlavor.pointerT, "", ptr t)) ∈ tm.anonTypes
  oneEach : ∀ x x' y, tm.isUnresolvedPlaceholder x → tm.isUnresolvedPlaceholder x' →
    tm.toType x = some y → tm.toType x' = some y → x = x'

theorem Settled.creating {tm : TypeManager} (h : tm.Settled) : tm.Creating where
  waiting := fun x o ho hu => (h.resolved x (isUnresolvedPlaceholder_iff.mpr ⟨o, ho, hu⟩)).elim
  linked := fun y x hx hp => ((h.refs y x hx).2 hp).elim
  error := h.error
  entries := by
    intro e he
    obtain ⟨o, ho⟩ := Option.isSome_iff_exists.mp ((obj_isSome_iff tm e.1).mpr (h.entries e he))
    refine ⟨o, ho, fun hp hk => h.resolved e.1 (isUnresolvedPlaceholder_iff.mpr ⟨o, ho, ?_⟩)⟩
    rw [unresolved_of_pointer hk]
    exact hp
  older := fun x _ hx => (h.resolved x hx).elim
  refs := fun y x hx => (h.refs y x hx).1
  unsetType := fun p hp => (h.resolved p hp.unresolved).elim
  distinct := fun p _ hp => (h.resolved p hp.unresolved).elim
  derived := fun x _ hx => (h.resolved x hx).elim
  oneEach := fun x _ _ hx => (h.resolved x hx).elim

section Alloc
variable {tm tm' : TypeManager} {o : BtypeObject}

/-- `tm'` has one object more than `tm`, and all the others as they were. -/
structure Grown (tm tm' : TypeManager) (o : BtypeObject) : Prop where
  heap : tm'.heap = tm.heap ++ [o]
  errorType : tm'.errorType = tm.errorType

namespace Grown

theorem length (h : Grown tm tm' o) : tm'.heap.length = tm.heap.length + 1 := by
  rw [h.heap, List.length_append, List.length_singleton]

theorem obj_old (h : Grown tm tm' o) {x : BtypeRef} (hx : x < tm.heap.length) :
    tm'.obj x = tm.obj x := by
  rw [obj, h.heap, List.getElem?_append_left hx, obj]

theorem obj_new (h : Grown tm tm' o) : tm'.obj tm.heap.length = some o := by
  rw [obj, h.heap, List.getElem?_concat_length]

/-- An object of `tm'` is the new one or an old one. -/
theorem cases (h : Grown tm tm' o) {x : BtypeRef} {o' : BtypeObject} (hx : tm'.obj x = some o') :
    (x = tm.heap.length ∧ o' = o) ∨ (x < tm.heap.length ∧ tm.obj x = some o') := by
  have hlt : x < tm'.heap.length := (obj_isSome_iff tm' x).mp (hx ▸ rfl)
  rw [h.length] at hlt
  by_cases hnew : x = tm.heap.length
  · rw [hnew, h.obj_new] at hx
    exact .inl ⟨hnew, (Option.some.inj hx).symm⟩
  · have hold : x < tm.heap.length := Nat.lt_of_le_of_ne (Nat.le_of_lt_succ hlt) hnew
    exact .inr ⟨hold, h.obj_old hold ▸ hx⟩

theorem lt_of_unresolved {x : BtypeRef} (hx : tm.isUnresolvedPlaceholder x) :
    x < tm.heap.length := by
  obtain ⟨o', ho', -⟩ := isUnresolvedPlaceholder_iff.mp hx
  exact (obj_isSome_iff tm x).mp (ho' ▸ rfl)

theorem unresolved_old (h : Grown tm tm' o) {x : BtypeRef} (hx : x < tm.heap.length) :
    tm'.isUnresolvedPlaceholder x = tm.isUnresolvedPlaceholder x := by
  rw [isUnresolvedPlaceholder, h.obj_old hx, isUnresolvedPlaceholder]

theorem unresolved_of_old (h : Grown tm tm' o) {x : BtypeRef}
    (hx : tm.isUnresolvedPlaceholder x) : tm'.isUnresolvedPlaceholder x := by
  rw [h.unresolved_old (lt_of_unresolved hx)]
  exact hx

theorem toType_old (h : Grown tm tm' o) {x : BtypeRef} (hx : x < tm.heap.length) :
    tm'.toType x = tm.toType x := by
  rw [toType, h.obj_old hx, toType]

end Grown
/-- A new object that does not wait, or an unset placeholder with an LLVM type of its
own, or the first pointer to a type that waits. -/
inductive Joins (tm tm' : TypeManager) (o : BtypeObject) : Prop
  | resolved : ¬o.isPlaceholder → Joins tm tm' o
  | unset : o.kind = .pointer none → tm.heap.length ∈ tm'.placeholders →
      o.type = ptr (.structRef tm.nextOpaque) → tm.nextOpaque < tm'.nextOpaque → Joins tm tm' o
  | derived {y : BtypeRef} {t : LType} : o = ⟨"", ptr t, true, .pointer (some y)⟩ →
      tm.isUnresolvedPlaceholder y → tm.typeOf y = some t →
      (tm.heap.length, (TyFlavor.pointerT, "", ptr t)) ∈ tm'.anonTypes →
      (∀ x, tm.isUnresolvedPlaceholder x → tm.toType x ≠ some y) → Joins tm tm' o

/-- The tables follow a new object. -/
structure Recorded (tm tm' : TypeManager) (o : BtypeObject) : Prop extends Grown tm tm' o where
  joins : Joins tm tm' o
  placeholders : ∀ x, x ∈ tm.placeholders → x ∈ tm'.placeholders
  placeholders_old : ∀ x, x ∈ tm'.placeholders → x ∈ tm.placeholders ∨ x = tm.heap.length
  refs : ∀ y x, x ∈ tm'.placeholderRefs y ↔ x ∈ tm.placeholderRefs y ∨
    (x = tm.heap.length ∧ o.isPlaceholder ∧ o.kind = .pointer (some y))
  nextOpaque : tm.nextOpaque ≤ tm'.nextOpaque
  entries : ∀ e, e ∈ tm.anonTypes → e ∈ tm'.anonTypes
  entries_old : ∀ e, e ∈ tm'.anonTypes →
    e ∈ tm.anonTypes ∨ (e.1 = tm.heap.length ∧ o.kind ≠ .pointer none)

namespace Recorded

theorem isUnset_of_old (g : Recorded tm tm' o) {p : BtypeRef} (hp : tm.IsUnset p) :
    tm'.IsUnset p := by
  have hlt := Grown.lt_of_unresolved hp.unresolved
  exact ⟨g.placeholders p hp.1, by rw [g.obj_old hlt]; exact hp.2⟩

theorem isUnset_cases (g : Recorded tm tm' o) {p : BtypeRef} (hp : tm'.IsUnset p) :
    tm.IsUnset p ∨ (p = tm.heap.length ∧ o.kind = .pointer none ∧
      o.type = ptr (.structRef tm.nextOpaque) ∧ tm.nextOpaque < tm'.nextOpaque) := by
  obtain ⟨hmem, o', ho', hflag, hk⟩ := hp
  rcases g.toGrown.cases ho' with ⟨rfl, rfl⟩ | ⟨hlt, hold⟩
  · right
    cases g.joins with
    | resolved hn => exact (hn hflag).elim
    | unset hk hmem ht hlt => exact ⟨rfl, hk, ht, hlt⟩
    | derived ho =>
      rw [ho] at hk
      cases hk
  · rcases g.placeholders_old p hmem with hmem | rfl
    · exact .inl ⟨hmem, o', hold, hflag, hk⟩
    · exact (Nat.lt_irrefl _ hlt).elim

theorem sound (g : Recorded tm tm' o) (h : tm.Creating) : tm'.Sound where
  waiting := by
    intro x o' ho' hu
    rcases g.toGrown.cases ho' with ⟨rfl, rfl⟩ | ⟨hlt, hold⟩
    · cases g.joins with
      | resolved hn =>
        have := isPlaceholder_of_unresolved (isUnresolvedPlaceholder_iff.mpr ⟨o', ho', hu⟩)
        obtain ⟨o'', ho'', hp⟩ := isPlaceholder_iff.mp this
        rw [Option.some.inj (ho'.symm.trans ho'')] at hn
        exact (hn hp).elim
      | unset hk hmem ht _ =>
        rw [unresolved_of_pointer hk] at hu
        refine ⟨by rw [ht]; rfl, .inl ⟨hmem, o', ho', hu, hk⟩⟩
      | @derived y t ho hy _ _ _ =>
        refine ⟨by rw [ho]; rfl, .inr ⟨y, by rw [ho], g.unresolved_of_old hy, ?_⟩⟩
        exact (g.refs y _).mpr (.inr ⟨rfl, by rw [ho], by rw [ho]⟩)
    · obtain ⟨hptr, hun | ⟨y, hk, hy, hmem⟩⟩ := h.waiting x o' hold hu
      · exact ⟨hptr, .inl (g.isUnset_of_old hun)⟩
      · exact ⟨hptr, .inr ⟨y, hk, g.unresolved_of_old hy, (g.refs y x).mpr (.inl hmem)⟩⟩
  linked := by
    intro y x hx hflag
    rcases (g.refs y x).mp hx with hx | ⟨rfl, -, hk⟩
    · have hlt := h.refs y x hx
      rw [isPlaceholder, g.obj_old hlt] at hflag
      rw [g.obj_old hlt]
      exact h.linked y x hx hflag
    · exact ⟨o, g.obj_new, hk⟩
  error := by
    obtain ⟨oe, hoe, hrest⟩ := h.error
    have hlt := (obj_isSome_iff tm tm.errorType).mp (hoe ▸ rfl)
    exact ⟨oe, by rw [g.errorType, g.obj_old hlt]; exact hoe, hrest⟩
  entries := by
    intro e he
    rcases g.entries_old e he with he | ⟨he, hk⟩
    · obtain ⟨oe, hoe, hrest⟩ := h.entries e he
      have hlt := (obj_isSome_iff tm e.1).mp (hoe ▸ rfl)
      exact ⟨oe, (g.obj_old hlt).trans hoe, hrest⟩
    · exact ⟨o, he ▸ g.obj_new, fun _ => hk⟩

/-- A pointer that waits in `tm'` is the new object or waited in `tm`. -/
theorem waits_cases (g : Recorded tm tm' o) {x y : BtypeRef}
    (hx : tm'.isUnresolvedPlaceholder x) (hy : tm'.toType x = some y) :
    (tm.isUnresolvedPlaceholder x ∧ tm.toType x = some y) ∨
      (x = tm.heap.length ∧ ∃ t, o = ⟨"", ptr t, true, .pointer (some y)⟩ ∧
        tm.isUnresolvedPlaceholder y ∧ tm.typeOf y = some t ∧
        (tm.heap.length, (TyFlavor.pointerT, "", ptr t)) ∈ tm'.anonTypes ∧
        ∀ x, tm.isUnresolvedPlaceholder x → tm.toType x ≠ some y) := by
  obtain ⟨o', ho', hu⟩ := isUnresolvedPlaceholder_iff.mp hx
  rcases g.toGrown.cases ho' with ⟨rfl, rfl⟩ | ⟨hlt, hold⟩
  · right
    cases g.joins with
    | resolved hn =>
      obtain ⟨o'', ho'', hp⟩ := isPlaceholder_iff.mp (isPlaceholder_of_unresolved hx)
      rw [Option.some.inj (ho'.symm.trans ho'')] at hn
      exact (hn hp).elim
    | unset hk =>
      rw [toType_of_obj ho' hk] at hy
      contradiction
    | @derived z t ho hz ht hmem hone =>
      rw [toType_of_obj ho' (by rw [ho])] at hy
      obtain rfl := Option.some.inj hy
      exact ⟨rfl, t, ho, hz, ht, hmem, hone⟩
  · rw [g.unresolved_old hlt] at hx
    rw [g.toType_old hlt] at hy
    exact .inl ⟨hx, hy⟩

theorem creating (g : Recorded tm tm' o) (h : tm.Creating) : tm'.Creating where
  toSound := g.sound h
  older := by
    intro x y hx hy
    rcases g.waits_cases hx hy with ⟨hx, hy⟩ | ⟨rfl, t, -, hyu, -⟩
    · exact h.older x y hx hy
    · exact Grown.lt_of_unresolved hyu
  refs := by
    intro y x hx
    rw [g.length]
    rcases (g.refs y x).mp hx with hx | ⟨rfl, -⟩
    · exact Nat.lt_succ_of_lt (h.refs y x hx)
    · exact Nat.lt_succ_self _
  unsetType := by
    intro p hp
    rcases g.isUnset_cases hp with hp | ⟨rfl, -, ht, hlt⟩
    · obtain ⟨n, hn, ht⟩ := h.unsetType p hp
      refine ⟨n, Nat.lt_of_lt_of_le hn g.nextOpaque, ?_⟩
      rw [typeOf, g.obj_old (Grown.lt_of_unresolved hp.unresolved)]
      exact ht
    · exact ⟨_, hlt, by rw [typeOf, g.obj_new, Option.map_some, ht]⟩
  distinct := by
    -- the LLVM type of the new placeholder is numbered higher than all the others
    have hfresh : ∀ p, tm.IsUnset p → tm'.typeOf p ≠ some (ptr (.structRef tm.nextOpaque)) := by
      intro p hp heq
      obtain ⟨n, hn, ht⟩ := h.unsetType p hp
      rw [typeOf, g.obj_old (Grown.lt_of_unresolved hp.unresolved)] at heq
      rw [typeOf, heq] at ht
      simp only [Option.some.injEq, LType.ptr.injEq, LType.structRef.injEq] at ht
      exact Nat.lt_irrefl _ (ht ▸ hn)
    have hnew : o.type = ptr (.structRef tm.nextOpaque) →
        tm'.typeOf tm.heap.length = some (ptr (.structRef tm.nextOpaque)) := by
      intro ht
      rw [typeOf, g.obj_new, Option.map_some, ht]
    intro p q hp hq heq
    rcases g.isUnset_cases hp with hp | ⟨rfl, -, ht, -⟩
    · rcases g.isUnset_cases hq with hq | ⟨rfl, -, ht, -⟩
      · rw [typeOf, typeOf, g.obj_old (Grown.lt_of_unresolved hp.unresolved),
          g.obj_old (Grown.lt_of_unresolved hq.unresolved)] at heq
        exact h.distinct p q hp hq heq
      · exact (hfresh p hp (heq.trans (hnew ht))).elim
    · rcases g.isUnset_cases hq with hq | ⟨rfl, -, -, -⟩
      · exact (hfresh q hq (heq.symm.trans (hnew ht))).elim
      · rfl
  derived := by
    intro x y hx hy
    rcases g.waits_cases hx hy with ⟨hx, hy⟩ | ⟨rfl, t, ho, hyu, ht, hmem, -⟩
    · obtain ⟨t, ht, ho, hmem⟩ := h.derived x y hx hy
      have hyu := h.target_waits hx hy
      refine ⟨t, ?_, ?_, g.entries _ hmem⟩
      · rw [typeOf, g.obj_old (Grown.lt_of_unresolved hyu)]
        exact ht
      · rw [g.obj_old (Grown.lt_of_unresolved hx)]
        exact ho
    · refine ⟨t, ?_, ho ▸ g.obj_new, hmem⟩
      rw [typeOf, g.obj_old (Grown.lt_of_unresolved hyu)]
      exact ht
  oneEach := by
    intro x x' y hx hx' hy hy'
    rcases g.waits_cases hx hy with ⟨hx, hy⟩ | ⟨rfl, t, -, -, -, -, hone⟩
    · rcases g.waits_cases hx' hy' with ⟨hx', hy'⟩ | ⟨rfl, t, -, -, -, -, hone⟩
      · exact h.oneEach x x' y hx hx' hy hy'
      · exact (hone x hx hy).elim
    · rcases g.waits_cases hx' hy' with ⟨hx', hy'⟩ | ⟨rfl, t, -, -, -, -, -⟩
      · exact (hone x' hx' hy').elim
      · rfl

end Recorded
end Alloc

theorem placeholderPointerType_recorded (tm : TypeManager) (name : String) :
    Recorded tm (tm.placeholderPointerType name).2
      ⟨name, ptr (.structRef tm.nextOpaque), true, .pointer none⟩ where
  heap := rfl
  errorType := rfl
  joins := .unset rfl (List.mem_cons_self ..) rfl (Nat.lt_succ_self _)
  placeholders := fun _ hx => List.mem_cons_of_mem _ hx
  placeholders_old := fun _ hx => (List.mem_cons.mp hx).symm
  refs := by
    intro y x
    constructor
    · exact Or.inl
    · rintro (hx | ⟨-, -, hk⟩)
      · exact hx
      · cases hk
  nextOpaque := Nat.le_succ _
  entries := fun _ he => he
  entries_old := fun _ he => .inl he

/-! ## Looking up a pointer type -/

theorem findEntry_some {heap : List BtypeObject} {x e : BtypeRef}
    {key : TyFlavor × String × LType} : ∀ {es : List (BtypeRef × (TyFlavor × String × LType))},
    findEntry heap x key es = some (some e) → (e, key) ∈ es ∧ equal heap x e = some true
  | [], h => by cases h
  | (y, k) :: es, h => by
    rw [findEntry] at h
    split_ifs at h with hkey
    · split at h
      · contradiction
      · next heq =>
        obtain rfl := Option.some.inj (Option.some.inj h)
        obtain rfl := hkey
        exact ⟨List.mem_cons_self .., heq⟩
      · obtain ⟨hmem, heq⟩ := findEntry_some h
        exact ⟨List.mem_cons_of_mem _ hmem, heq⟩
    · obtain ⟨hmem, heq⟩ := findEntry_some h
      exact ⟨List.mem_cons_of_mem _ hmem, heq⟩

theorem findEntry_none {heap : List BtypeObject} {x y : BtypeRef}
    {key : TyFlavor × String × LType} : ∀ {es : List (BtypeRef × (TyFlavor × String × LType))},
    findEntry heap x key es = some none → (y, key) ∈ es → equal heap x y = some false
  | (z, k) :: es, h, hmem => by
    rw [findEntry] at h
    rcases List.mem_cons.mp hmem with heq | hmem
    · obtain ⟨rfl, rfl⟩ := Prod.mk.inj heq
      rw [if_pos rfl] at h
      split at h
      · contradiction
      · cases h
      · assumption
    · split_ifs at h
      · split at h
        · contradiction
        · cases h
        · exact findEntry_none h hmem
      · exact findEntry_none h hmem

section Lookup
variable {tm : TypeManager}

theorem pointer_of_flavor {k : BtypeKind} (h : k.flavor = .pointerT) : ∃ t, k = .pointer t := by
  cases k with
  | pointer t => exact ⟨t, rfl⟩
  | _ => cases h

/-- A type that waits equals no other type. -/
theorem Creating.eq_of_equal (h : tm.Creating) {heap : List BtypeObject}
    (hheap : ∀ x < tm.heap.length, heap[x]? = tm.heap[x]?) (fuel : ℕ) :
    ∀ {x y : BtypeRef}, tm.isUnresolvedPlaceholder x → y < tm.heap.length →
      equalWithin heap fuel x y = some true → x = y := by
  induction fuel with
  | zero => exact fun _ _ h => nomatch h
  | succ fuel ih =>
    intro x y hx hy heq
    by_contra hxy
    obtain ⟨a, ha, haflag, hak⟩ := h.pointer hx
    obtain ⟨b, hb⟩ := Option.isSome_iff_exists.mp ((obj_isSome_iff tm y).mpr hy)
    rw [equalWithin_ne hxy ((hheap x (Grown.lt_of_unresolved hx)).trans ha)
      ((hheap y hy).trans hb)] at heq
    split_ifs at heq with hkey
    · obtain ⟨hkey, hflag⟩ := hkey
      have hflavor : b.kind.flavor = .pointerT := by
        rw [← (Prod.mk.inj hkey).1, hak]
        rfl
      obtain ⟨t, hbk⟩ := pointer_of_flavor hflavor
      have hyu : tm.isUnresolvedPlaceholder y := by
        refine isUnresolvedPlaceholder_iff.mpr ⟨b, hb, ?_⟩
        rw [unresolved_of_pointer hbk, ← hflag]
        exact haflag
      rw [hak, hbk] at heq
      cases hxt : tm.toType x with
      | none =>
        rw [hxt] at heq
        cases t <;> cases heq
      | some s =>
        rw [hxt] at heq
        cases t with
        | none => cases heq
        | some s' =>
          have hyt := toType_of_obj hb hbk
          have hs := ih (h.target_waits hx hxt)
            (Grown.lt_of_unresolved (h.target_waits hyu hyt)) heq
          exact hxy (h.oneEach x y s hx hyu hxt (hs ▸ hyt))
    · cases heq

theorem findAnon_congr {tm tm' : TypeManager} (hheap : tm'.heap = tm.heap)
    (hentries : tm'.anonTypes = tm.anonTypes) (x : BtypeRef) : tm'.findAnon x = tm.findAnon x := by
  simp only [findAnon, obj, hheap, hentries]

theorem modify_append_singleton (l : List BtypeObject) (o : BtypeObject)
    (f : BtypeObject → BtypeObject) : (l ++ [o]).modify l.length f = l ++ [f o] := by
  induction l with
  | nil => rfl
  | cons a l ih => simp [ih]

/-- The object that `pointerType` looks up. -/
def pointerCandidate (target : BtypeObject) (q : BtypeRef) : BtypeObject :=
  ⟨"", ptr (if target.type.isVoidTy then .int 8 else target.type), target.isPlaceholder,
    .pointer (some q)⟩

/-- An entry that equals the candidate is a pointer to the very type that waits. -/
theorem Creating.target_of_equal (h : tm.Creating) {q e : BtypeRef} {target : BtypeObject}
    (hq : tm.obj q = some target) (hu : tm.isUnresolvedPlaceholder q)
    (he : e < tm.heap.length)
    (heq : equal (tm.heap ++ [pointerCandidate target q]) tm.heap.length e = some true) :
    tm.toType e = some q := by
  have hold : ∀ x < tm.heap.length,
      (tm.heap ++ [pointerCandidate target q])[x]? = tm.heap[x]? :=
    fun x hx => List.getElem?_append_left hx
  obtain ⟨b, hb⟩ := Option.isSome_iff_exists.mp ((obj_isSome_iff tm e).mpr he)
  rw [equal, equalWithin_ne (Nat.ne_of_gt he) List.getElem?_concat_length ((hold e he).trans hb)]
    at heq
  split_ifs at heq with hkey
  · have hflag : b.isPlaceholder := by
      rw [← hkey.2]
      obtain ⟨o, ho, hp⟩ := isPlaceholder_iff.mp (isPlaceholder_of_unresolved hu)
      rw [pointerCandidate, Option.some.inj (hq.symm.trans ho)]
      exact hp
    obtain ⟨t, hbk⟩ := pointer_of_flavor (k := b.kind) (by rw [← (Prod.mk.inj hkey.1).1]; rfl)
    have heu : tm.isUnresolvedPlaceholder e :=
      isUnresolvedPlaceholder_iff.mpr ⟨b, hb, by rw [unresolved_of_pointer hbk]; exact hflag⟩
    rw [hbk] at heq
    cases t with
    | none => cases heq
    | some s =>
      have het := toType_of_obj hb hbk
      rw [h.eq_of_equal hold _ hu (Grown.lt_of_unresolved (h.target_waits heu het)) heq]
      exact het
  · cases heq

theorem not_isVoidTy_of_isPointerTy {t : LType} (h : t.isPointerTy) : ¬t.isVoidTy := by
  cases t with
  | ptr t => simp [LType.isVoidTy]
  | _ => cases h

theorem Creating.pointerCandidate_eq (h : tm.Creating) {q : BtypeRef} {target : BtypeObject}
    (hq : tm.obj q = some target) (hu : tm.isUnresolvedPlaceholder q) :
    pointerCandidate target q = ⟨"", ptr target.type, true, .pointer (some q)⟩ := by
  have hflag : target.isPlaceholder := by
    obtain ⟨o, ho, hp⟩ := isPlaceholder_iff.mp (isPlaceholder_of_unresolved hu)
    rw [Option.some.inj (hq.symm.trans ho)]
    exact hp
  have hptr : target.type.isPointerTy := by
    obtain ⟨o, ho, hou⟩ := isUnresolvedPlaceholder_iff.mp hu
    exact (h.waiting q target hq (by rwa [Option.some.inj (hq.symm.trans ho)])).1
  rw [pointerCandidate, if_neg (not_isVoidTy_of_isPointerTy hptr), hflag]

/-- The candidate was not found: nothing else points to a type that waits. -/
theorem Creating.not_pointed (h : tm.Creating) {q : BtypeRef} {target : BtypeObject}
    (hq : tm.obj q = some target) (hu : tm.isUnresolvedPlaceholder q)
    (hnone : (tm.alloc (pointerCandidate target q)).2.findAnon tm.heap.length = some none)
    (x : BtypeRef) (hx : tm.isUnresolvedPlaceholder x) : tm.toType x ≠ some q := by
  intro hxq
  obtain ⟨t, ht, hxo, hmem⟩ := h.derived x q hx hxq
  rw [typeOf, hq, Option.map_some, Option.some.injEq] at ht
  have hlt := Grown.lt_of_unresolved hx
  have hcand := h.pointerCandidate_eq hq hu
  rw [ht] at hcand
  obtain ⟨o, ho, hfind⟩ := Option.bind_eq_some_iff.mp hnone
  have hnew : (tm.alloc (pointerCandidate target q)).2.obj tm.heap.length =
      some (pointerCandidate target q) := List.getElem?_concat_length
  obtain rfl := Option.some.inj (hnew.symm.trans ho)
  rw [hcand] at hfind
  have hfalse : equal (tm.heap ++ [⟨"", ptr t, true, .pointer (some q)⟩]) tm.heap.length x =
      some false := findEntry_none hfind hmem
  rw [equal, equalWithin_ne (Nat.ne_of_gt hlt) List.getElem?_concat_length
    ((List.getElem?_append_left hlt).trans hxo), if_pos ⟨rfl, rfl⟩] at hfalse
  simp [equalKind, equalComponent, equalWithin, Nat.mul_add] at hfalse

/-- The manager with a new pointer to `q` in it that has yet to be hashed. -/
def withPointer (tm : TypeManager) (o : BtypeObject) (q : BtypeRef) : TypeManager :=
  { tm with
    heap := tm.heap ++ [o]
    placeholderRefs := if tm.isUnresolvedPlaceholder q then
      (tm.addRef q tm.heap.length).placeholderRefs else tm.placeholderRefs }

/-- The new object has the flag that `addPlaceholderRefs` decides on. -/
theorem update_addPlaceholderRef {q : BtypeRef} (o : BtypeObject) (hq : q < tm.heap.length) :
    ((tm.alloc o).2.addPlaceholderRef tm.heap.length q).2.update tm.heap.length (fun o' =>
      { o' with isPlaceholder := ((tm.alloc o).2.addPlaceholderRef tm.heap.length q).1 }) =
    tm.withPointer { o with isPlaceholder := tm.isUnresolvedPlaceholder q } q := by
  have hsame : (tm.alloc o).2.isUnresolvedPlaceholder q = tm.isUnresolvedPlaceholder q := by
    rw [isUnresolvedPlaceholder, show (tm.alloc o).2.obj q = tm.obj q
      from List.getElem?_append_left hq, isUnresolvedPlaceholder]
  unfold addPlaceholderRef withPointer
  rw [hsame]
  by_cases hu : tm.isUnresolvedPlaceholder q
  · simp only [hu, if_true, update, alloc, addRef, modify_append_singleton]
    rfl
  · simp only [hu, if_false, update, alloc, modify_append_singleton, Bool.false_eq_true]

theorem withPointer_refs {q : BtypeRef} (o : BtypeObject) (y x : BtypeRef) :
    x ∈ (tm.withPointer o q).placeholderRefs y ↔ x ∈ tm.placeholderRefs y ∨
      (x = tm.heap.length ∧ tm.isUnresolvedPlaceholder q ∧ y = q) := by
  unfold withPointer
  by_cases hu : tm.isUnresolvedPlaceholder q
  · simp only [if_pos hu, mem_addRef]
    tauto
  · simp [hu]

/-- A pointer that was not found is a new object of the manager. -/
theorem Creating.pointerType_recorded (h : tm.Creating) {tm' : TypeManager} {q : BtypeRef}
    {target : BtypeObject} (hq : tm.obj q = some target)
    (hnone : (tm.alloc (pointerCandidate target q)).2.findAnon tm.heap.length = some none)
    (hrun : (tm.withPointer { pointerCandidate target q with
      isPlaceholder := tm.isUnresolvedPlaceholder q } q).insertAnon tm.heap.length = some tm') :
    Recorded tm tm' { pointerCandidate target q with
      isPlaceholder := tm.isUnresolvedPlaceholder q } := by
  obtain ⟨hrehash, hentries⟩ := insertAnon_spec hrun
  obtain ⟨o, ho, hinsert⟩ := Option.bind_eq_some_iff.mp hrun
  obtain ⟨found, hfound, hinsert⟩ := Option.bind_eq_some_iff.mp hinsert
  have hrefs : ∀ y x, x ∈ tm'.placeholderRefs y ↔ x ∈ tm.placeholderRefs y ∨
      (x = tm.heap.length ∧ tm.isUnresolvedPlaceholder q ∧
        (pointerCandidate target q).kind = .pointer (some y)) := by
    intro y x
    rw [hrehash.eq]
    rw [show (pointerCandidate target q).kind = .pointer (some q) from rfl]
    simp only [withPointer_refs, BtypeKind.pointer.injEq, Option.some.injEq, eq_comm]
  refine ⟨⟨?_, ?_⟩, ?_, ?_, ?_, hrefs, ?_, ?_, ?_⟩
  · rw [hrehash.eq]
    rfl
  · rw [hrehash.eq]
    rfl
  · by_cases hu : tm.isUnresolvedPlaceholder q
    · have hcand := h.pointerCandidate_eq hq hu
      -- the flag is the candidate's, so the lookup in `insert` fails as the first one did
      have hlookup : (tm.withPointer { pointerCandidate target q with
          isPlaceholder := tm.isUnresolvedPlaceholder q } q).findAnon tm.heap.length =
          (tm.alloc (pointerCandidate target q)).2.findAnon tm.heap.length := by
        rw [show { pointerCandidate target q with
          isPlaceholder := tm.isUnresolvedPlaceholder q } = pointerCandidate target q by
            rw [hcand, hu]]
        exact findAnon_congr rfl rfl _
      rw [hlookup, hnone] at hfound
      obtain rfl := Option.some.inj hfound
      obtain rfl := Option.some.inj hinsert
      obtain rfl := Option.some.inj (ho.symm.trans List.getElem?_concat_length)
      refine .derived (by rw [hcand, hu]) hu (by rw [typeOf, hq]; rfl) ?_
        (h.not_pointed hq hu hnone)
      rw [hcand]
      exact List.mem_cons_self ..
    · exact .resolved hu
  · intro x hx
    rw [hrehash.eq]
    exact hx
  · intro x hx
    rw [hrehash.eq] at hx
    exact .inl hx
  · rw [hrehash.eq]
    exact Nat.le_refl _
  · intro e he
    cases found with
    | some y => exact Option.some.inj hinsert ▸ he
    | none => exact Option.some.inj hinsert ▸ List.mem_cons_of_mem _ he
  · intro e he
    rcases hentries e he with he | ⟨he, -⟩
    · exact .inl he
    · exact .inr ⟨he, fun hk => by cases hk⟩

theorem Creating.pointerType_spec (h : tm.Creating) {tm' : TypeManager} {q d : BtypeRef}
    (hrun : tm.pointerType q = some (d, tm')) :
    tm'.Creating ∧ (tm.isUnresolvedPlaceholder q → tm'.toType d = some q) := by
  unfold pointerType at hrun
  split_ifs at hrun with herr
  · obtain ⟨rfl, rfl⟩ := Prod.mk.inj (Option.some.inj hrun)
    refine ⟨h, fun hu => ?_⟩
    obtain ⟨o, ho, hn, -⟩ := h.error
    obtain ⟨o', ho', hp⟩ := isPlaceholder_iff.mp (isPlaceholder_of_unresolved hu)
    rw [herr] at ho'
    exact (hn (Option.some.inj (ho.symm.trans ho') ▸ hp)).elim
  · obtain ⟨target, hq, hrun⟩ := Option.bind_eq_some_iff.mp hrun
    have hqlt : q < tm.heap.length := (obj_isSome_iff tm q).mp (hq ▸ rfl)
    obtain ⟨found, hfound, hrun⟩ := Option.bind_eq_some_iff.mp hrun
    change (tm.alloc (pointerCandidate target q)).2.findAnon tm.heap.length = some found at hfound
    cases found with
    | some e =>
      obtain ⟨rfl, rfl⟩ := Prod.mk.inj (Option.some.inj hrun)
      refine ⟨h, fun hu => ?_⟩
      obtain ⟨o, -, hfind⟩ := Option.bind_eq_some_iff.mp hfound
      obtain ⟨hmem, heq⟩ := findEntry_some hfind
      obtain ⟨oe, hoe, -⟩ := h.entries _ hmem
      exact h.target_of_equal hq hu ((obj_isSome_iff tm e).mp (hoe ▸ rfl)) heq
    | none =>
      obtain ⟨tm₁, hinsert, hrun⟩ := Option.bind_eq_some_iff.mp hrun
      obtain ⟨rfl, rfl⟩ := Prod.mk.inj (Option.some.inj hrun)
      have hinsert' := (congrArg (insertAnon · tm.heap.length)
        (update_addPlaceholderRef (pointerCandidate target q) hqlt)).symm.trans hinsert
      have hrec := h.pointerType_recorded hq hfound hinsert'
      exact ⟨hrec.creating h, fun _ => toType_of_obj hrec.obj_new rfl⟩

end Lookup

theorem Creating.create {tm tm' : TypeManager} (h : tm.Creating) {ops : List Creation}
    (hrun : tm.create ops = some tm') : tm'.Creating := by
  induction ops generalizing tm with
  | nil => exact Option.some.inj hrun ▸ h
  | cons op ops ih =>
    rw [TypeManager.create, List.foldlM_cons] at hrun
    obtain ⟨tm₁, hop, hrun⟩ := Option.bind_eq_some_iff.mp hrun
    apply ih _ hrun
    cases op with
    | placeholder name =>
      obtain rfl := Option.some.inj hop
      exact (placeholderPointerType_recorded tm name).creating h
    | pointer toType =>
      obtain ⟨⟨d, tm₂⟩, hpointer, rfl⟩ := Option.map_eq_some_iff.mp hop
      exact (h.pointerType_spec hpointer).1

end TypeManager
end Dragongo
