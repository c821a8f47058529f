import Dragongo.TypeCascade
import Dragongo.DebugType

/-!
# Copies of types

`Btype::clone` is to make an object that answers like the original, which is what a named type
and its debug type are made from.
-/

namespace Dragongo
open LType

namespace BtypeKind

/-- All that the queries of the flavor return: the width and signedness of an integer, the width
of a float, the fields of a struct, and so on.  A float that is not a `BFloatType` has no width to
return. -/
def answers : BtypeKind → Option BtypeKind
  | float none => none
  | k => some k

/-- Not a placeholder for a pointer or an array that is yet to be set. -/
def isSet : BtypeKind → Bool
  | pointer toType => toType.isSome
  | array elemType _ => elemType.isSome
  | _ => true

theorem clone_isSome (k : BtypeKind) : k.clone.isSome = k.isSet := by
  cases k with
  | pointer toType => cases toType <;> rfl
  | array elemType nelSize => cases elemType <;> rfl
  | _ => rfl

theorem clone_of_flavor {k : BtypeKind} (hflavor : k.flavor ≠ .floatT) (hset : k.isSet) :
    k.clone = some k := by
  cases k with
  | float => exact (hflavor rfl).elim
  | pointer toType =>
    obtain ⟨t, rfl⟩ := Option.isSome_iff_exists.mp hset
    rfl
  | array elemType nelSize =>
    obtain ⟨e, rfl⟩ := Option.isSome_iff_exists.mp hset
    rfl
  | _ => rfl

theorem answers_of_flavor {k : BtypeKind} (hflavor : k.flavor ≠ .floatT) : k.answers = some k := by
  cases k with
  | float => exact (hflavor rfl).elim
  | _ => rfl

end BtypeKind

namespace BtypeObject

/-- The copy is of the same flavor, LLVM type and placeholder status, and each query of the flavor
has the same answer. -/
structure SameAnswers (o copy : BtypeObject) : Prop where
  flavor : copy.kind.flavor = o.kind.flavor
  type : copy.type = o.type
  isPlaceholder : copy.isPlaceholder = o.isPlaceholder
  answers : ∃ a, o.kind.answers = some a ∧ copy.kind.answers = some a

theorem clone_sameAnswers_iff (o : BtypeObject) :
    (∃ copy, o.clone = some copy ∧ o.SameAnswers copy) ↔
      o.kind.flavor ≠ .floatT ∧ o.kind.isSet := by
  constructor
  · rintro ⟨copy, hcopy, hsame⟩
    obtain ⟨-, -, -, hkind⟩ := clone_eq_some hcopy
    refine ⟨fun hflavor => ?_, ?_⟩
    · obtain ⟨a, -, ha⟩ := hsame.answers
      cases hk : o.kind with
      | float bits =>
        rw [hk] at hkind
        rw [← Option.some.inj hkind] at ha
        cases ha
      | _ =>
        rw [hk] at hflavor
        cases hflavor
    · rw [← BtypeKind.clone_isSome, hkind]
      rfl
  · rintro ⟨hflavor, hset⟩
    have hclone : o.clone = some o := by rw [clone, BtypeKind.clone_of_flavor hflavor hset]; rfl
    have hanswers := BtypeKind.answers_of_flavor hflavor
    exact ⟨o, hclone, rfl, rfl, rfl, o.kind, hanswers, hanswers⟩

end BtypeObject

namespace TypeManager
open Relation

/-! ## Names -/

section Names
variable {tm tm' : TypeManager}

/-- A name is given to a type by a copy, which is made later. -/
structure Names (tm : TypeManager) : Prop where
  newer : ∀ x n, tm.revNames x = some n → x < n
  named : ∀ x n, tm.revNames x = some n → n ∈ tm.namedTypes
  made : ∀ n ∈ tm.namedTypes, n < tm.heap.length

theorem Names.congr (h : tm.Names) (hrev : tm'.revNames = tm.revNames)
    (hnamed : tm'.namedTypes = tm.namedTypes) (hlength : tm.heap.length ≤ tm'.heap.length) :
    tm'.Names where
  newer := fun x n hx => h.newer x n (hrev ▸ hx)
  named := fun x n hx => hnamed ▸ h.named x n (hrev ▸ hx)
  made := fun n hn => (h.made n (hnamed ▸ hn)).trans_le hlength

variable {opaques : ℕ} {o : BtypeObject} {parts : List BtypeRef} {c : Container}

theorem make_revNames_of_ne (hc : ∀ x, c ≠ .namedTypes x) :
    (tm.make opaques o parts c).revNames = tm.revNames ∧
      (tm.make opaques o parts c).namedTypes = tm.namedTypes := by
  unfold make
  rw [waitFor_eq]
  cases c with
  | namedTypes x => exact (hc x rfl).elim
  | _ => exact ⟨rfl, rfl⟩

theorem make_revNames (x y : BtypeRef) : (tm.make opaques o parts (.namedTypes x)).revNames y =
    if y = x then some tm.heap.length else tm.revNames y := by
  unfold make
  rw [waitFor_eq]
  rfl

theorem make_namedTypes (x : BtypeRef) :
    (tm.make opaques o parts (.namedTypes x)).namedTypes = tm.heap.length :: tm.namedTypes := by
  unfold make
  rw [waitFor_eq]
  rfl

theorem Origin.original (ho : Origin tm opaques o parts c) {x : BtypeRef}
    (hc : c = .namedTypes x) : ∃ ox copy, tm.obj x = some ox ∧ ox.clone = some copy ∧
      copy.kind = o.kind ∧ copy.type = o.type := by
  cases ho with
  | @named y oy copy _ hy hcopy =>
    cases hc
    exact ⟨oy, copy, hy, hcopy, rfl, rfl⟩
  | @anon _ _ found => cases found <;> cases hc
  | @opaqueStruct _ _ found => cases found <;> cases hc
  | _ => cases hc

theorem Origin.original_lt (ho : Origin tm opaques o parts c) {x : BtypeRef}
    (hc : c = .namedTypes x) : x < tm.heap.length := by
  obtain ⟨ox, -, hox, -⟩ := ho.original hc
  exact obj_lt hox

/-- Setting a placeholder names nothing. -/
theorem Step.names_cases (hr : tm.Regular) {a : Action} (hstep : Step tm a tm') :
    (tm'.revNames = tm.revNames ∧ tm'.namedTypes = tm.namedTypes ∧
        tm.heap.length ≤ tm'.heap.length) ∨
      ∃ opaques o parts x, Origin tm opaques o parts (.namedTypes x) ∧
        tm' = tm.make opaques o parts (.namedTypes x) := by
  have hsettles : ∀ {tm₁ tm₂ : TypeManager}, Settles tm₁ tm₂ → tm₁.revNames = tm.revNames →
      tm₁.namedTypes = tm.namedTypes → tm₁.heap.length = tm.heap.length →
      tm₂.revNames = tm.revNames ∧ tm₂.namedTypes = tm.namedTypes ∧
        tm.heap.length ≤ tm₂.heap.length := by
    intro tm₁ tm₂ hs hrev hnamed hlength
    refine ⟨?_, ?_, ?_⟩
    · rw [hs.rest, ← hrev]
    · rw [hs.rest, ← hnamed]
    · rw [hs.length, hlength]
  cases hstep with
  | @make opaques o parts c ho =>
    have hlength := make_length tm opaques o parts c
    by_cases hc : ∀ x, c ≠ .namedTypes x
    · have hkept : (tm.make opaques o parts c).revNames = tm.revNames ∧
          (tm.make opaques o parts c).namedTypes = tm.namedTypes := make_revNames_of_ne hc
      exact .inl ⟨hkept.1, hkept.2, by omega⟩
    · push Not at hc
      obtain ⟨x, rfl⟩ := hc
      exact .inr ⟨opaques, o, parts, x, ho, rfl⟩
  | openLoop => exact .inl ⟨rfl, rfl, le_rfl⟩
  | @setPointer p x _ hcall =>
    apply Or.inl
    rcases setPlaceholderPointerType_some hcall with
      ⟨-, rfl⟩ | ⟨t, o, tm₁, -, -, -, -, -, -, -, -, -, hredirect, rfl⟩
    · exact ⟨rfl, rfl, le_rfl⟩
    rw [closeCircularLoop_eq]
    change tm₁.revNames = _ ∧ tm₁.namedTypes = _ ∧ _ ≤ tm₁.heap.length
    rw [redirect] at hredirect
    split_ifs at hredirect with hu
    · obtain rfl := Option.some.inj hredirect
      exact ⟨rfl, rfl, (length_update ..).ge⟩
    · exact hsettles (postProcessResolvedPlaceholder_settles hredirect) rfl rfl
        ((length_update ..).trans (length_update ..))
  | @setFields p fields _ _ hcall =>
    apply Or.inl
    obtain ⟨o, ho, -, -, -, hcall⟩ := setFields_some hcall
    dsimp only at hcall
    split_ifs at hcall
    · rw [hcall, waitFor_eq]
      exact ⟨rfl, rfl, (length_update ..).ge⟩
    · obtain ⟨tm₂, hbody, hcall⟩ := hcall
      obtain ⟨elems, id, -, -, -, rfl⟩ := setBody_some hbody
      exact hsettles (postProcessResolvedPlaceholder_settles hcall) rfl rfl
        ((length_update ..).trans (length_update ..))
  | @setElements p e atype t asize _ _ hatype hcall =>
    apply Or.inl
    obtain ⟨o, ho, hflavor, -, -, -, hcall⟩ := setElements_some hr hatype hcall
    dsimp only at hcall
    split_ifs at hcall with hu
    · rw [hcall]
      exact ⟨rfl, rfl, ((length_update ..).trans (length_update ..)).ge⟩
    · exact hsettles (postProcessResolvedPlaceholder_settles hcall) rfl rfl
        ((length_update ..).trans (length_update ..))

theorem Names.make {x : BtypeRef} (h : tm.Names) (hx : x < tm.heap.length) :
    (tm.make opaques o parts (.namedTypes x)).Names := by
  refine ⟨?_, ?_, ?_⟩
  · intro y n hy
    rw [make_revNames] at hy
    by_cases hyx : y = x
    · rw [if_pos hyx] at hy
      rw [hyx, ← Option.some.inj hy]
      exact hx
    · rw [if_neg hyx] at hy
      exact h.newer y n hy
  · intro y n hy
    rw [make_revNames] at hy
    rw [make_namedTypes]
    by_cases hyx : y = x
    · rw [if_pos hyx] at hy
      rw [← Option.some.inj hy]
      exact List.mem_cons_self ..
    · rw [if_neg hyx] at hy
      exact List.mem_cons_of_mem _ (h.named y n hy)
  · intro n hn
    rw [make_namedTypes] at hn
    rw [make_length]
    rcases List.mem_cons.mp hn with rfl | hn
    · exact Nat.lt_succ_self _
    · exact (h.made n hn).trans (Nat.lt_succ_self _)

theorem Names.step (h : tm.Names) (hr : tm.Regular) {a : Action} (hstep : Step tm a tm') :
    tm'.Names := by
  rcases hstep.names_cases hr with ⟨hrev, hnamed, hlength⟩ | ⟨opaques, o, parts, x, ho, rfl⟩
  · exact h.congr hrev hnamed hlength
  · exact h.make (ho.original_lt rfl)

theorem Reachable.names (h : tm.Reachable) : tm.Names := by
  apply h.induction
  · intro address tm hnew
    obtain rfl := Option.some.inj ((new_eq address).symm.trans hnew)
    exact ⟨fun _ _ hx => (nomatch hx), fun _ _ hx => (nomatch hx), fun _ hn => (nomatch hn)⟩
  · intro _ tm' hr h hp
    cases hp with
    | make ho _ => exact h.step hr (.make ho)
    | opaqueType => exact h.congr rfl rfl le_rfl
  · exact fun _ _ _ hr h hstep => h.step hr hstep

/-- A copy is no placeholder, has the components that the original has as long as that was no
placeholder either, and shares the LLVM type of a struct. -/
structure Copies (tm : TypeManager) : Prop where
  kind : ∀ x n, tm.revNames x = some n → x ∉ tm.placeholders →
    ∃ k k', tm.kindOf x = some k ∧ tm.kindOf n = some k' ∧ k.clone = some k'
  struct : ∀ x n, tm.revNames x = some n → tm.flavorOf x = some .structT →
    ∃ t, tm.IsStruct x t ∧ tm.IsStruct n t
  apart : ∀ n ∈ tm.namedTypes, n ∉ tm.placeholders
  made : ∀ p ∈ tm.placeholders, p < tm.heap.length

theorem Copies.make {x : BtypeRef} (h : tm.Copies) (hn : tm.Names)
    (ho : Origin tm opaques o parts (.namedTypes x)) :
    (tm.make opaques o parts (.namedTypes x)).Copies := by
  have g := tm.make_grown opaques o parts (.namedTypes x)
  have hp : (tm.make opaques o parts (.namedTypes x)).placeholders = tm.placeholders := by
    rw [make_placeholders, if_neg (fun h => nomatch h)]
  have hold : ∀ y < tm.heap.length,
      (tm.make opaques o parts (.namedTypes x)).kindOf y = tm.kindOf y := by
    intro y hy
    rw [kindOf, g.obj_old hy, kindOf]
  refine ⟨?_, ?_, ?_, ?_⟩
  · intro y n hy hyp
    rw [make_revNames] at hy
    rw [hp] at hyp
    by_cases hyx : y = x
    · rw [if_pos hyx] at hy
      obtain rfl := Option.some.inj hy
      obtain ⟨ox, copy, hox, hcopy, hk, -⟩ := ho.original rfl
      obtain ⟨-, -, -, hkind⟩ := BtypeObject.clone_eq_some hcopy
      refine ⟨ox.kind, copy.kind, ?_, ?_, hkind⟩
      · rw [hyx, hold x (obj_lt hox), kindOf, hox]
        rfl
      · rw [hk, kindOf, g.obj_new]
        rfl
    · rw [if_neg hyx] at hy
      obtain ⟨k, k', hk, hk', hclone⟩ := h.kind y n hy hyp
      have hlt := hn.made n (hn.named y n hy)
      refine ⟨k, k', ?_, ?_, hclone⟩
      · rw [hold y ((hn.newer y n hy).trans hlt), hk]
      · rw [hold n hlt, hk']
  · intro y n hy hs
    rw [make_revNames] at hy
    by_cases hyx : y = x
    · subst hyx
      rw [if_pos rfl] at hy
      obtain rfl := Option.some.inj hy
      obtain ⟨ox, copy, hox, hcopy, hk, ht⟩ := ho.original rfl
      obtain ⟨-, htype, -, hkind⟩ := BtypeObject.clone_eq_some hcopy
      rw [flavorOf, hold y (obj_lt hox), kindOf, hox] at hs
      have hflavor : ox.kind.flavor = .structT := Option.some.inj hs
      refine ⟨ox.type, ⟨ox, (g.obj_old (obj_lt hox)).trans hox, hflavor, rfl⟩,
        o, g.obj_new, ?_, ht.symm.trans htype⟩
      rw [← hk, (BtypeKind.clone_eq_some hkind).1, hflavor]
    · rw [if_neg hyx] at hy
      have hlt := hn.made n (hn.named y n hy)
      rw [flavorOf, hold y ((hn.newer y n hy).trans hlt)] at hs
      obtain ⟨t, ⟨oy, hoy, hyk, hyt⟩, on, hon, hnk, hnt⟩ := h.struct y n hy hs
      exact ⟨t, ⟨oy, (g.obj_old (obj_lt hoy)).trans hoy, hyk, hyt⟩,
        on, (g.obj_old hlt).trans hon, hnk, hnt⟩
  · intro n hnamed
    rw [make_namedTypes] at hnamed
    rw [hp]
    rcases List.mem_cons.mp hnamed with rfl | hnamed
    · exact fun hmem => (h.made _ hmem).false
    · exact h.apart n hnamed
  · intro p hmem
    rw [hp] at hmem
    rw [make_length]
    exact (h.made p hmem).trans (Nat.lt_succ_self _)

theorem Copies.step (h : tm.Copies) (hn : tm.Names) (hr : tm.Regular) {a : Action}
    (hstep : Step tm a tm') : tm'.Copies := by
  rcases hstep.names_cases hr with ⟨hrev, hnamed, hlength⟩ | ⟨opaques, o, parts, x, ho, rfl⟩
  · have hmono : ∀ p ∈ tm.placeholders, p ∈ tm'.placeholders := by
      intro p hp
      rcases hstep.placeholders_cases hr with hsame | ⟨hnew, -⟩
      · exact hsame ▸ hp
      · exact hnew ▸ List.mem_cons_of_mem _ hp
    refine ⟨?_, ?_, ?_, ?_⟩
    · intro x n hx hp
      rw [hrev] at hx
      have hold : x ∉ tm.placeholders := fun hmem => hp (hmono x hmem)
      have hnamed := hn.named x n hx
      have hlt := hn.made n hnamed
      rw [hstep.kindOf hr ((hn.newer x n hx).trans hlt) hold, hstep.kindOf hr hlt (h.apart n hnamed)]
      exact h.kind x n hx hold
    · intro x n hx hs
      rw [hrev] at hx
      have hlt := hn.made n (hn.named x n hx)
      rw [hstep.flavorOf hr ((hn.newer x n hx).trans hlt)] at hs
      obtain ⟨t, hxt, hnt⟩ := h.struct x n hx hs
      exact ⟨t, hstep.isStruct hr hxt, hstep.isStruct hr hnt⟩
    · intro n hmem hp
      rw [hnamed] at hmem
      rcases hstep.placeholders_cases hr with hsame | ⟨hnew, -⟩
      · exact h.apart n hmem (hsame ▸ hp)
      · rcases List.mem_cons.mp (hnew ▸ hp) with rfl | hp
        · exact (hn.made _ hmem).false
        · exact h.apart n hmem hp
    · intro p hp
      rcases hstep.placeholders_cases hr with hsame | ⟨hnew, hlen⟩
      · exact (h.made p (hsame ▸ hp)).trans_le hlength
      · rw [hlen]
        rcases List.mem_cons.mp (hnew ▸ hp) with rfl | hp
        · exact Nat.lt_succ_self _
        · exact (h.made p hp).trans (Nat.lt_succ_self _)
  · exact h.make hn ho

theorem Reachable.copies (h : tm.Reachable) : tm.Copies := by
  have hboth : tm.Names ∧ tm.Copies := by
    apply h.induction
    · intro address tm hnew
      obtain rfl := Option.some.inj ((new_eq address).symm.trans hnew)
      exact ⟨⟨fun _ _ hx => (nomatch hx), fun _ _ hx => (nomatch hx), fun _ hn => (nomatch hn)⟩,
        fun _ _ hx => (nomatch hx), fun _ _ hx => (nomatch hx), fun _ hn => (nomatch hn),
        fun _ hp => (nomatch hp)⟩
    · intro _ tm' hr ⟨hn, hc⟩ hp
      cases hp with
      | make ho _ => exact ⟨hn.step hr (.make ho), hc.step hn hr (.make ho)⟩
      | opaqueType =>
        exact ⟨hn.congr rfl rfl le_rfl, hc.kind, hc.struct, hc.apart, hc.made⟩
    · exact fun _ _ _ hr ⟨hn, hc⟩ hstep => ⟨hn.step hr hstep, hc.step hn hr hstep⟩
  exact hboth.2

end Names

/-! ## Debug types of copies -/

section Debug
variable (tm : TypeManager) (print : LType → String)

/-- A call for this type made this debug type. -/
def Builds (typ : BtypeRef) (d : DIType) : Prop :=
  ∃ fuel cache cache', tm.buildDIType print fuel typ cache = .ok (d, cache')

/-- A call for a type that was not in the cache. -/
def BuildsAnew (typ : BtypeRef) (d : DIType) : Prop :=
  ∃ fuel cache cache', cache typ = none ∧ tm.buildDIType print fuel typ cache = .ok (d, cache')

/-- The debug type tells what the queries return, and its parts are the debug types of the
components. -/
def Agrees : BtypeKind → DIType → Prop
  | .aux, _ => True
  | .integer isUnsigned bits, .basic _ sizeInBits encoding =>
    sizeInBits = some bits ∧ encoding = if isUnsigned then .unsigned else .signed
  | .float (some bits), .basic _ sizeInBits encoding => sizeInBits = some bits ∧ encoding = .float
  | .pointer (some toType), .pointer pointee _ => tm.Builds print toType pointee
  | .array (some elemType) (some nelSize), .array _ _ elem count =>
    tm.Builds print elemType elem ∧ count = nelSize
  | .struct fields, .struct _ _ _ members =>
    List.Forall₂ (fun field m => ∃ size align offset type,
      m = .member field.name size align offset type ∧ tm.Builds print field.btype type) fields members
  | .function receiverType paramTypes _ resultType _, .subroutine types =>
    List.Forall₂ (tm.Builds print) (resultType :: receiverType.toList ++ paramTypes) types
  | _, _ => False

variable {tm print} {d : DIType} {cache cache' : TypeCache} {fuel : ℕ}

theorem Stop.bind_eq_ok {α β : Type} {x : Except Stop α} {f : α → Except Stop β} {b : β}
    (h : x >>= f = .ok b) : ∃ a, x = .ok a ∧ f a = .ok b := by
  cases x with
  | error => cases h
  | ok a => exact ⟨a, rfl, h⟩

theorem Stop.unless_eq_ok {α : Type} {x : Option α} {a : α} (h : Stop.unless x = .ok a) :
    x = some a := by
  cases x with
  | none => cases h
  | some => exact congrArg some (Except.ok.inj h)

theorem buildAll_builds : ∀ {xs : List BtypeRef} {ds : List DIType} {cache : TypeCache},
    buildAll (tm.buildDIType print fuel) xs cache = .ok (ds, cache') →
      List.Forall₂ (tm.Builds print) xs ds
  | [], ds, cache, h => by
    cases h
    exact .nil
  | x :: xs, ds, cache, h => by
    obtain ⟨⟨d, c₁⟩, hd, h⟩ := Stop.bind_eq_ok h
    obtain ⟨⟨rest, c₂⟩, hrest, h⟩ := Stop.bind_eq_ok h
    cases h
    exact .cons ⟨fuel, cache, c₁, hd⟩ (buildAll_builds hrest)

theorem buildMembers_builds {bst : BtypeRef} : ∀ {fields : List BtypedIdentifier} {fidx : ℕ}
    {ms : List DIType} {cache : TypeCache},
    tm.buildMembers fuel (tm.buildDIType print fuel) bst fidx fields cache = .ok (ms, cache') →
      List.Forall₂ (fun field m => ∃ size align offset type,
        m = .member field.name size align offset type ∧ tm.Builds print field.btype type) fields ms
  | [], _, ms, cache, h => by
    cases h
    exact .nil
  | field :: fields, fidx, ms, cache, h => by
    obtain ⟨⟨d, c₁⟩, hd, h⟩ := Stop.bind_eq_ok h
    obtain ⟨size, -, h⟩ := Stop.bind_eq_ok h
    obtain ⟨align, -, h⟩ := Stop.bind_eq_ok h
    obtain ⟨offset, -, h⟩ := Stop.bind_eq_ok h
    obtain ⟨⟨rest, c₂⟩, hrest, h⟩ := Stop.bind_eq_ok h
    cases h
    exact .cons ⟨_, _, _, d, rfl, fuel, cache, c₁, hd⟩ (buildMembers_builds hrest)

/-- What is made for a type that has no name agrees with it. -/
theorem agrees_of_buildsAnew {typ : BtypeRef} {o : BtypeObject} (ho : tm.obj typ = some o)
    (hname : tm.revNames typ = none) (hanswers : o.kind.answers = some o.kind)
    (h : tm.BuildsAnew print typ d) : tm.Agrees print o.kind d := by
  obtain ⟨fuel, cache, cache', hcache, h⟩ := h
  cases fuel with
  | zero => cases h
  | succ fuel =>
    rw [buildDIType, hcache, ho] at h
    change tm.buildKind print fuel (tm.buildDIType print fuel) typ o cache = _ at h
    unfold buildKind at h
    cases hk : o.kind with
    | aux => trivial
    | integer isUnsigned bits =>
      rw [hk] at h
      obtain ⟨name, -, h⟩ := Stop.bind_eq_ok h
      cases h
      exact ⟨rfl, rfl⟩
    | float bits =>
      cases bits with
      | none =>
        rw [hk] at hanswers
        cases hanswers
      | some bits =>
        rw [hk] at h
        obtain ⟨name, -, h⟩ := Stop.bind_eq_ok h
        cases h
        exact ⟨rfl, rfl⟩
    | pointer toType =>
      rw [hk] at h
      obtain ⟨t, ht, h⟩ := Stop.bind_eq_ok h
      obtain ⟨⟨toDI, c₁⟩, hto, h⟩ := Stop.bind_eq_ok h
      cases h
      rw [Stop.unless_eq_ok ht]
      exact ⟨fuel, cache, _, hto⟩
    | array elemType nelSize =>
      rw [hk] at h
      obtain ⟨e, he, h⟩ := Stop.bind_eq_ok h
      obtain ⟨⟨elemDI, c₁⟩, helem, h⟩ := Stop.bind_eq_ok h
      obtain ⟨n, hn, h⟩ := Stop.bind_eq_ok h
      obtain ⟨elem, -, h⟩ := Stop.bind_eq_ok h
      obtain ⟨align, -, h⟩ := Stop.bind_eq_ok h
      cases h
      rw [Stop.unless_eq_ok he, Stop.unless_eq_ok hn]
      exact ⟨⟨fuel, cache, _, helem⟩, rfl⟩
    | struct fields =>
      rw [hk] at h
      change tm.buildStructDIType print fuel (tm.buildDIType print fuel) typ cache = _ at h
      rw [buildStructDIType, hname, Option.getD_none, ho] at h
      obtain ⟨o', ho', h⟩ := Stop.bind_eq_ok h
      cases ho'
      rw [hk] at h
      obtain ⟨name, -, h⟩ := Stop.bind_eq_ok h
      obtain ⟨⟨members, c₁⟩, hmembers, h⟩ := Stop.bind_eq_ok h
      obtain ⟨size, -, h⟩ := Stop.bind_eq_ok h
      obtain ⟨align, -, h⟩ := Stop.bind_eq_ok h
      cases h
      exact buildMembers_builds hmembers
    | function receiverType paramTypes resultTypes resultType followsCabi =>
      rw [hk] at h
      obtain ⟨⟨types, c₁⟩, htypes, h⟩ := Stop.bind_eq_ok h
      cases h
      exact buildAll_builds htypes

end Debug

/-! ## Copying faithfully -/

section Copies
variable {tm : TypeManager} {x : BtypeRef} {o copy : BtypeObject}

theorem namedType_eq (name : String) (ho : tm.obj x = some o) (hcopy : o.clone = some copy) :
    tm.namedType name x = some (tm.heap.length,
      tm.make 0 { copy with name } copy.kind.waitsFor (.namedTypes x)) := by
  rw [namedType, ho]
  change o.clone.bind _ = _
  rw [hcopy]
  rfl

/-- The copy answers like the original, and so do each named type made of the original and the
debug types of that. -/
structure CopiesFaithfully (tm : TypeManager) (print : LType → String) (x : BtypeRef)
    (o : BtypeObject) : Prop where
  copy : ∃ copy, o.clone = some copy ∧ o.SameAnswers copy
  named : ∀ name, ∃ r tm' o', tm.namedType name x = some (r, tm') ∧ tm'.obj r = some o' ∧
    o'.name = name ∧ o.SameAnswers o' ∧
    ∀ d, tm'.BuildsAnew print r d → tm'.Agrees print o.kind d

/-- A copy is faithful unless the type is a float or a placeholder without its component. -/
theorem copiesFaithfully_iff (h : tm.Reachable) (print : LType → String) (ho : tm.obj x = some o) :
    tm.CopiesFaithfully print x o ↔ o.kind.flavor ≠ .floatT ∧ o.kind.isSet := by
  constructor
  · exact fun hcopies => (BtypeObject.clone_sameAnswers_iff o).mp hcopies.copy
  · rintro ⟨hflavor, hset⟩
    obtain ⟨copy, hcopy, hsame⟩ := (BtypeObject.clone_sameAnswers_iff o).mpr ⟨hflavor, hset⟩
    refine ⟨⟨copy, hcopy, hsame⟩, fun name => ?_⟩
    have hkind : copy.kind = o.kind := by
      obtain ⟨-, -, -, hkind⟩ := BtypeObject.clone_eq_some hcopy
      rw [BtypeKind.clone_of_flavor hflavor hset] at hkind
      exact (Option.some.inj hkind).symm
    have hmade : (tm.make 0 { copy with name } copy.kind.waitsFor (.namedTypes x)).obj
        tm.heap.length = some { copy with name } := (tm.make_grown ..).obj_new
    refine ⟨_, _, _, namedType_eq name ho hcopy, hmade, rfl,
      ⟨hsame.flavor, hsame.type, hsame.isPlaceholder, hsame.answers⟩, fun d hd => ?_⟩
    -- nothing has named the copy in turn
    have hunnamed : (tm.make 0 { copy with name } copy.kind.waitsFor (.namedTypes x)).revNames
        tm.heap.length = none := by
      rw [make_revNames, if_neg (obj_lt ho).ne']
      rw [Option.eq_none_iff_forall_ne_some]
      intro n hn
      have hnewer := h.names.newer _ _ hn
      exact (hnewer.trans (h.names.made _ (h.names.named _ _ hn))).false
    have hanswers : copy.kind.answers = some copy.kind :=
      BtypeKind.answers_of_flavor (hsame.flavor ▸ hflavor)
    rw [← hkind]
    exact agrees_of_buildsAnew (o := { copy with name }) hmade hunnamed hanswers hd

theorem newManager_reachable (address : BtypeRef → ℕ) : (newManager address).Reachable :=
  ⟨address, _, [], new_eq address, rfl⟩

/-- The type of bytes. -/
theorem byteType_copiesFaithfully :
    (newManager id).CopiesFaithfully (fun _ => "") 1 ⟨"", .int 8, false, .integer true 8⟩ ↔
      (BtypeKind.integer true 8).flavor ≠ .floatT ∧ (BtypeKind.integer true 8).isSet :=
  copiesFaithfully_iff (newManager_reachable id) (fun _ => "") rfl

/-- A copy of `float64` has no width. -/
theorem not_copiesFaithfully : ¬∀ (tm : TypeManager) (print : LType → String) (x : BtypeRef)
    (o : BtypeObject), tm.Reachable → tm.obj x = some o → tm.CopiesFaithfully print x o := by
  intro hall
  have hrun : ((newManager id).run [.floatType 64]).bind (·.obj 3) =
      some ⟨"", .double, false, .float (some 64)⟩ := by decide
  obtain ⟨tm, htm, ho⟩ := Option.bind_eq_some_iff.mp hrun
  obtain ⟨copy, hcopy, hsame⟩ :=
    (hall tm (fun _ => "") 3 _ ⟨id, _, _, new_eq id, htm⟩ ho).copy
  obtain ⟨a, -, ha⟩ := hsame.answers
  cases hcopy
  cases ha

end Copies

end TypeManager
end Dragongo
