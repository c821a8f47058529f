import Dragongo.PlaceholderCreation

/-!
# The steps of the type manager

Every call is a sequence of steps, each of which makes one object, opens a loop of
circular pointers, or sets one placeholder.
-/

namespace Dragongo
open LType

namespace TypeManager

/-- `anonTypes_.find` of a candidate that is not on the heap. -/
def lookup (tm : TypeManager) (cand : BtypeObject) : Option (Option BtypeRef) :=
  (tm.alloc cand).2.findAnon tm.heap.length

/-- What holds a new object. -/
inductive Container
  | anonTypes
  | auxTypeMap
  | placeholders
  | namedTypes (btype : BtypeRef)
  | nowhere
deriving DecidableEq, Repr

/-- An object that was installed is in the hash table unless an equal one is there. -/
def Container.ofLookup : Option BtypeRef → Container
  | none => anonTypes
  | some _ => nowhere

def adopt (tm : TypeManager) (c : Container) (x : BtypeRef) (o : BtypeObject) : TypeManager :=
  match c with
  | .anonTypes => { tm with anonTypes := (x, o.key) :: tm.anonTypes }
  | .auxTypeMap => { tm with auxTypeMap := (o.type, x) :: tm.auxTypeMap }
  | .placeholders => { tm with placeholders := x :: tm.placeholders }
  | .namedTypes btype => { tm with
      namedTypes := x :: tm.namedTypes
      revNames := fun y => if y = btype then some x else tm.revNames y }
  | .nowhere => tm

/-- A new object, perhaps over a new opaque struct, that waits for some of its parts. -/
def make (tm : TypeManager) (opaques : ℕ) (o : BtypeObject) (parts : List BtypeRef)
    (c : Container) : TypeManager :=
  (({ tm with nextOpaque := tm.nextOpaque + opaques }.alloc o).2.waitFor tm.heap.length
    parts).adopt c tm.heap.length o

/-! ## Waiting -/

theorem mem_foldl_addRef {x x' y : BtypeRef} : ∀ (cs : List BtypeRef) (tm : TypeManager),
    x' ∈ (cs.foldl (fun tm c => tm.addRef c x) tm).placeholderRefs y ↔
      x' ∈ tm.placeholderRefs y ∨ (x' = x ∧ y ∈ cs)
  | [], tm => by simp
  | c :: cs, tm => by
    rw [List.foldl_cons, mem_foldl_addRef cs, mem_addRef, List.mem_cons]
    tauto

theorem mem_waitFor {tm : TypeManager} {x x' y : BtypeRef} {cs : List BtypeRef} :
    x' ∈ (tm.waitFor x cs).placeholderRefs y ↔ x' ∈ tm.placeholderRefs y ∨
      (x' = x ∧ y ∈ cs ∧ tm.isUnresolvedPlaceholder y) := by
  rw [waitFor, mem_foldl_addRef, List.mem_filter]

theorem foldl_addRef_eq {x : BtypeRef} : ∀ (cs : List BtypeRef) (tm : TypeManager),
    cs.foldl (fun tm c => tm.addRef c x) tm = { tm with
      placeholderRefs := (cs.foldl (fun tm c => tm.addRef c x) tm).placeholderRefs }
  | [], _ => rfl
  | c :: cs, tm => by
    rw [List.foldl_cons]
    conv_lhs => rw [foldl_addRef_eq cs]
    rfl

/-- Only the references change. -/
theorem waitFor_eq (tm : TypeManager) (x : BtypeRef) (cs : List BtypeRef) :
    tm.waitFor x cs = { tm with placeholderRefs := (tm.waitFor x cs).placeholderRefs } :=
  foldl_addRef_eq ..

/-! ## A new object -/

section Make
variable (tm : TypeManager) (opaques : ℕ) (o : BtypeObject) (parts : List BtypeRef) (c : Container)

theorem make_heap : (tm.make opaques o parts c).heap = tm.heap ++ [o] := by
  unfold make
  rw [waitFor_eq]
  cases c <;> rfl

theorem make_length : (tm.make opaques o parts c).heap.length = tm.heap.length + 1 := by
  rw [make_heap, List.length_append, List.length_singleton]

theorem make_errorType : (tm.make opaques o parts c).errorType = tm.errorType := by
  unfold make
  rw [waitFor_eq]
  cases c <;> rfl

theorem make_grown : Grown tm (tm.make opaques o parts c) o :=
  ⟨tm.make_heap .., tm.make_errorType ..⟩

theorem make_nextOpaque : (tm.make opaques o parts c).nextOpaque = tm.nextOpaque + opaques := by
  unfold make
  rw [waitFor_eq]
  cases c <;> rfl

theorem make_bodies : (tm.make opaques o parts c).bodies = tm.bodies := by
  unfold make
  rw [waitFor_eq]
  cases c <;> rfl

theorem make_anonTypes : (tm.make opaques o parts c).anonTypes =
    if c = .anonTypes then (tm.heap.length, o.key) :: tm.anonTypes else tm.anonTypes := by
  unfold make
  rw [waitFor_eq]
  cases c <;> rfl

theorem make_placeholders : (tm.make opaques o parts c).placeholders =
    if c = .placeholders then tm.heap.length :: tm.placeholders else tm.placeholders := by
  unfold make
  rw [waitFor_eq]
  cases c <;> rfl

theorem make_tables :
    (tm.make opaques o parts c).circularPointerLoop = tm.circularPointerLoop ∧
      (tm.make opaques o parts c).circularConversionLoadMap = tm.circularConversionLoadMap ∧
      (tm.make opaques o parts c).circularConversionAddrMap = tm.circularConversionAddrMap := by
  unfold make
  rw [waitFor_eq]
  cases c <;> exact ⟨rfl, rfl, rfl⟩

variable {tm opaques o parts c}

theorem mem_make_refs (hparts : ∀ y ∈ parts, y < tm.heap.length) {x y : BtypeRef} :
    x ∈ (tm.make opaques o parts c).placeholderRefs y ↔ x ∈ tm.placeholderRefs y ∨
      (x = tm.heap.length ∧ y ∈ parts ∧ tm.isUnresolvedPlaceholder y) := by
  have hsame : ∀ y ∈ parts, ({ tm with nextOpaque := tm.nextOpaque + opaques }.alloc
      o).2.isUnresolvedPlaceholder y = tm.isUnresolvedPlaceholder y := by
    intro y hy
    rw [isUnresolvedPlaceholder, isUnresolvedPlaceholder]
    apply congrArg
    exact List.getElem?_append_left (hparts y hy)
  have hrefs : (tm.make opaques o parts c).placeholderRefs =
      (({ tm with nextOpaque := tm.nextOpaque + opaques }.alloc o).2.waitFor tm.heap.length
        parts).placeholderRefs := by
    unfold make
    cases c <;> rfl
  rw [hrefs, mem_waitFor]
  apply or_congr Iff.rfl
  apply and_congr_right
  intro _
  apply and_congr_right
  intro hy
  rw [hsame y hy]

end Make

/-! ## Where new objects come from -/

/-- The objects that are looked up before they are made, with the types they may wait for. -/
inductive Candidate (tm : TypeManager) : BtypeObject → List BtypeRef → Prop
  | integer (isUnsigned : Bool) (bits : ℕ) :
      Candidate tm ⟨"", .int bits, false, .integer isUnsigned bits⟩ []
  | float {llft : LType} {bits : ℕ} : makeLLVMFloatType bits = some llft →
      Candidate tm ⟨"", llft, false, .float (some bits)⟩ []
  | pointer {x : BtypeRef} {target : BtypeObject} : tm.obj x = some target →
      Candidate tm (pointerCandidate target x) [x]
  | array {x : BtypeRef} {elem : BtypeObject} (asize : ℕ) : tm.obj x = some elem →
      Candidate tm (arrayCandidate elem x asize) [x]
  | struct {fields : List BtypedIdentifier} {elems : List LType} :
      (fields.mapM fun f : BtypedIdentifier => tm.typeOf f.btype) = some elems →
      (∀ f ∈ fields, ¬tm.isUnresolvedPlaceholder f.btype) →
      Candidate tm ⟨"", .struct none elems, false, .struct fields⟩ []
  | function {receiver resultStruct : Option BtypeRef} {parameters results : List BtypeRef}
      {rbtype : BtypeRef} {followsCabi : Bool} {llft : LType} :
      (∀ y ∈ functionParts receiver parameters results resultStruct, y < tm.heap.length) →
      (results = [] ∧ (∃ e ∈ tm.auxTypeMap, e.1 = .void ∧ e.2 = rbtype) ∨ results = [rbtype] ∨
        2 ≤ results.length ∧ resultStruct = some rbtype) →
      tm.makeLLVMFunctionType (receiver.toList ++ parameters) rbtype followsCabi = some llft →
      ¬((functionParts receiver parameters results resultStruct).any tm.isUnresolvedPlaceholder &&
        followsCabi) →
      Candidate tm
        ⟨"", llft, false, .function receiver (receiver.toList ++ parameters) results rbtype followsCabi⟩
        (functionParts receiver parameters results resultStruct)

/-- A new object with the number of opaque structs made for it, the types it may wait for
and what holds it. -/
inductive Origin (tm : TypeManager) : ℕ → BtypeObject → List BtypeRef → Container → Prop
  | anon {cand : BtypeObject} {parts : List BtypeRef} {found : Option BtypeRef} :
      Candidate tm cand parts → tm.lookup cand = some none →
      tm.lookup (tm.withFlag cand parts) = some found →
      Origin tm 0 (tm.withFlag cand parts) parts (.ofLookup found)
  | opaqueStruct {fields : List BtypedIdentifier} {parts : List BtypeRef}
      {found : Option BtypeRef} : parts = fields.map (·.btype) →
      (∀ y ∈ parts, y < tm.heap.length) → parts.any tm.isUnresolvedPlaceholder →
      { tm with nextOpaque := tm.nextOpaque + 1 }.lookup (tm.withFlag
        ⟨"", .structRef tm.nextOpaque, false, .struct fields⟩ parts) = some found →
      Origin tm 1 (tm.withFlag ⟨"", .structRef tm.nextOpaque, false, .struct fields⟩ parts) parts
        (.ofLookup found)
  | aux {t : LType} : (∀ e ∈ tm.auxTypeMap, e.1 ≠ t) → tm.knows t →
      Origin tm 0 ⟨"", t, false, .aux⟩ [] .auxTypeMap
  | auxFunction {result : LType} {params : List LType} {ps rs : List BtypeRef} {r : BtypeRef} :
      (∀ e ∈ tm.auxTypeMap, e.1 ≠ .func result params) →
      (∀ y ∈ ps ++ rs ++ [r], ∃ e ∈ tm.auxTypeMap, e.2 = y) →
      Origin tm 0 ⟨"", .func result params, false, .function none ps rs r false⟩ [] .auxTypeMap
  | placeholderPointer (name : String) :
      Origin tm 1 ⟨name, ptr (.structRef tm.nextOpaque), true, .pointer none⟩ [] .placeholders
  | placeholderStruct (name : String) :
      Origin tm 1 ⟨name, .structRef tm.nextOpaque, true, .struct []⟩ [] .placeholders
  | placeholderArray (name : String) :
      Origin tm 1 ⟨name, .structRef tm.nextOpaque, true, .array none none⟩ [] .placeholders
  | named {x : BtypeRef} {o copy : BtypeObject} (name : String) : tm.obj x = some o →
      o.clone = some copy → Origin tm 0 { copy with name } copy.kind.waitsFor (.namedTypes x)

/-! ## Steps -/

/-- What a step does. -/
inductive Action
  | make (o : BtypeObject) (parts : List BtypeRef)
  | openLoop (placeholder marker : BtypeRef)
  | setPointer (placeholder toType : BtypeRef)
  | setFields (placeholder : BtypeRef) (fields : List BtypedIdentifier)
  | setElements (placeholder elementBtype : BtypeRef) (asize : ℕ)

/-- A loop of circular pointers is opened. -/
def openLoop (tm : TypeManager) (placeholder marker : BtypeRef) (t : LType) : TypeManager :=
  { tm with
    circularPointerTypes := t :: tm.circularPointerTypes
    circularPointerTypeMap := fun x =>
      if x = placeholder then some marker else tm.circularPointerTypeMap x
    circularPointerLoop := [(placeholder, marker)] }

/-- `setPlaceholderArrayType` once the LLVM type has a `Btype`. -/
def setElements (tm : TypeManager) (placeholder elementBtype : BtypeRef) (asize : ℕ)
    (atype : BtypeRef) : Option TypeManager := do
  let _ ← tm.isSettable placeholder .arrayT
  let tm := tm.setElemType placeholder elementBtype asize
  let isplace := tm.isUnresolvedPlaceholder elementBtype
  let tm := tm.waitFor placeholder [elementBtype]
  let tm := tm.update atype fun o => { o with isPlaceholder := isplace }
  tm.updatePlaceholderUnderlyingType placeholder atype

inductive Step (tm : TypeManager) : Action → TypeManager → Prop
  | make {opaques : ℕ} {o : BtypeObject} {parts : List BtypeRef} {c : Container} :
      Origin tm opaques o parts c → Step tm (.make o parts) (tm.make opaques o parts c)
  | openLoop {placeholder marker : BtypeRef} {t : LType} : tm.circularPointerLoop = [] →
      tm.circularPointerTypeMap placeholder = none → (t, marker) ∈ tm.auxTypeMap →
      Step tm (.openLoop placeholder marker) (tm.openLoop placeholder marker t)
  | setPointer {placeholder toType : BtypeRef} {tm' : TypeManager} :
      tm.setPlaceholderPointerType placeholder toType = some (true, tm') →
      Step tm (.setPointer placeholder toType) tm'
  | setFields {placeholder : BtypeRef} {fields : List BtypedIdentifier} {tm' : TypeManager} :
      (∀ f ∈ fields, f.btype < tm.heap.length) → tm.setFields placeholder fields = some tm' →
      Step tm (.setFields placeholder fields) tm'
  | setElements {placeholder elementBtype atype : BtypeRef} {t : LType} {asize : ℕ}
      {tm' : TypeManager} : tm.typeOf elementBtype = some t →
      (.array t asize, atype) ∈ tm.auxTypeMap →
      tm.setElements placeholder elementBtype asize atype = some tm' →
      Step tm (.setElements placeholder elementBtype asize) tm'

/-- Making any type but a function type takes no more than this. -/
inductive Prepares (tm : TypeManager) : TypeManager → Prop
  | make {opaques : ℕ} {o : BtypeObject} {parts : List BtypeRef} {c : Container} :
      Origin tm opaques o parts c → o.kind.flavor ≠ .functionT →
      Prepares tm (tm.make opaques o parts c)
  | opaqueType : Prepares tm { tm with nextOpaque := tm.nextOpaque + 1 }

end TypeManager

/-- The step that a call takes after its preparations. -/
def TypeOp.Does : TypeOp → TypeManager.Action → Prop
  | functionType receiver parameters results resultStruct _, .make o parts =>
    parts = TypeManager.functionParts receiver parameters results resultStruct ∧ o.name = ""
  | makeAuxFcnType .., .make _ _ => True
  | namedType name _, .make o _ => o.name = name
  | circularPointerType placeholder, .openLoop p _ => p = placeholder
  | setPlaceholderPointerType placeholder toType, a => a = .setPointer placeholder toType
  | setPlaceholderStructType placeholder _, .setFields p _ => p = placeholder
  | setPlaceholderArrayType placeholder elementBtype length, .setElements p e n =>
    p = placeholder ∧ e = elementBtype ∧ length = some n
  | _, _ => False

namespace TypeManager
open Relation

/-! ## What the calls come to -/

section Calls
variable {tm tm' : TypeManager} {r : BtypeRef}

theorem findAnon_alloc (o : BtypeObject) :
    tm.lookup o = findEntry (tm.heap ++ [o]) tm.heap.length o.key tm.anonTypes := by
  have hnew : (tm.alloc o).2.obj tm.heap.length = some o := List.getElem?_concat_length
  rw [lookup, findAnon, hnew]
  rfl

theorem commonAnon_cases {cand : BtypeObject}
    {install : TypeManager → Option (BtypeRef × TypeManager)}
    (h : tm.commonAnon cand install = some (r, tm')) :
    (tm.lookup cand = some (some r) ∧ tm' = tm) ∨
      (tm.lookup cand = some none ∧ install tm = some (r, tm')) := by
  obtain ⟨found, hfound, h⟩ := Option.bind_eq_some_iff.mp h
  cases found with
  | none => exact .inr ⟨hfound, h⟩
  | some e =>
    obtain ⟨rfl, rfl⟩ := Prod.mk.inj (Option.some.inj h)
    exact .inl ⟨hfound, rfl⟩

/-- The references that the new object adds do not matter to the lookup. -/
theorem findAnon_waitFor (o : BtypeObject) (parts : List BtypeRef) :
    ((tm.alloc o).2.waitFor tm.heap.length parts).findAnon tm.heap.length = tm.lookup o := by
  rw [waitFor_eq]
  exact findAnon_congr rfl rfl _

theorem installWaiting_some {o : BtypeObject} {parts : List BtypeRef}
    (h : tm.installWaiting o parts = some (r, tm')) : r = tm.heap.length ∧
      ∃ found, tm.lookup (tm.withFlag o parts) = some found ∧
        tm' = tm.make 0 (tm.withFlag o parts) parts (.ofLookup found) := by
  obtain ⟨tm₁, hinsert, h⟩ := Option.map_eq_some_iff.mp h
  obtain ⟨rfl, rfl⟩ := Prod.mk.inj h
  obtain ⟨o', ho', hinsert⟩ := Option.bind_eq_some_iff.mp hinsert
  obtain ⟨found, hfound, hinsert⟩ := Option.bind_eq_some_iff.mp hinsert
  have hlookup : tm.lookup (tm.withFlag o parts) = some found := by
    rw [← findAnon_waitFor (tm.withFlag o parts) parts]
    exact hfound
  have hobj : o' = tm.withFlag o parts := by
    rw [waitFor_eq] at ho'
    exact (Option.some.inj (ho'.symm.trans List.getElem?_concat_length))
  refine ⟨rfl, found, hlookup, ?_⟩
  cases found with
  | none =>
    obtain rfl := Option.some.inj hinsert
    rw [hobj]
    rfl
  | some e =>
    obtain rfl := Option.some.inj hinsert
    rfl

/-- Types that are hashed all come about in the same way. -/
theorem common_cases {cand : BtypeObject} {parts : List BtypeRef} (hcand : Candidate tm cand parts)
    (h : tm.commonAnon cand (fun tm => tm.installWaiting cand parts) = some (r, tm')) :
    (tm.lookup cand = some (some r) ∧ tm' = tm) ∨
      ∃ found, r = tm.heap.length ∧ tm' = tm.make 0 (tm.withFlag cand parts) parts (.ofLookup found) ∧
        Origin tm 0 (tm.withFlag cand parts) parts (.ofLookup found) := by
  obtain hfound | ⟨hnone, h⟩ := commonAnon_cases h
  · exact .inl hfound
  · obtain ⟨hr, found, hfound, h⟩ := installWaiting_some h
    exact .inr ⟨found, hr, h, .anon hcand hnone hfound⟩

theorem install_eq {o : BtypeObject} (ho : o.isPlaceholder = false) :
    tm.install o = tm.installWaiting o [] := by
  have hflag : tm.withFlag o [] = o := by
    rw [withFlag, List.any_nil, ← ho]
  rw [installWaiting, hflag]
  exact Option.map_eq_bind.symm

theorem makeAuxType_cases (t : LType) : (∃ e ∈ tm.auxTypeMap, e.1 = t ∧ tm.makeAuxType t = (e.2, tm)) ∨
    ((∀ e ∈ tm.auxTypeMap, e.1 ≠ t) ∧
      tm.makeAuxType t = (tm.heap.length, tm.make 0 ⟨"", t, false, .aux⟩ [] .auxTypeMap)) := by
  unfold makeAuxType
  cases hfind : tm.auxTypeMap.find? (fun e => decide (e.1 = t)) with
  | some e =>
    exact .inl ⟨e, List.mem_of_find?_eq_some hfind, by simpa using List.find?_some hfind, rfl⟩
  | none =>
    refine .inr ⟨fun e he => ?_, rfl⟩
    simpa using List.find?_eq_none.mp hfind e he

theorem commonAnon_congr {cand : BtypeObject}
    {install install' : TypeManager → Option (BtypeRef × TypeManager)}
    (h : install tm = install' tm) : tm.commonAnon cand install = tm.commonAnon cand install' := by
  unfold commonAnon
  rw [h]

theorem withPointer_eq {x : BtypeRef} (o : BtypeObject) (hx : x < tm.heap.length) :
    tm.withPointer o x = (tm.alloc o).2.waitFor tm.heap.length [x] := by
  have hsame : (tm.alloc o).2.isUnresolvedPlaceholder x = tm.isUnresolvedPlaceholder x := by
    rw [isUnresolvedPlaceholder, show (tm.alloc o).2.obj x = tm.obj x
      from List.getElem?_append_left hx, isUnresolvedPlaceholder]
  unfold withPointer waitFor
  rw [List.filter_singleton, hsame]
  cases tm.isUnresolvedPlaceholder x <;> rfl

/-- `pointerType` is `arrayType` without a length. -/
theorem pointerType_eq {x : BtypeRef} {target : BtypeObject} (hx : x ≠ tm.errorType)
    (ho : tm.obj x = some target) :
    tm.pointerType x = tm.commonAnon (pointerCandidate target x)
      fun tm => tm.installWaiting (pointerCandidate target x) [x] := by
  have hlt : x < tm.heap.length := (obj_isSome_iff tm x).mp (ho ▸ rfl)
  have hflag : tm.withFlag (pointerCandidate target x) [x] =
      { pointerCandidate target x with isPlaceholder := tm.isUnresolvedPlaceholder x } := by
    rw [withFlag, List.any_cons, List.any_nil, Bool.or_false]
  rw [pointerType, if_neg hx, ho]
  apply commonAnon_congr
  rw [installWaiting, hflag]
  change ((((tm.alloc (pointerCandidate target x)).2.addPlaceholderRef tm.heap.length
    x).2.update tm.heap.length fun o => { o with isPlaceholder :=
      ((tm.alloc (pointerCandidate target x)).2.addPlaceholderRef tm.heap.length x).1 }).insertAnon
        tm.heap.length).bind (fun tm' => some (tm.heap.length, tm')) = _
  rw [update_addPlaceholderRef _ hlt, withPointer_eq _ hlt]
  exact Option.map_eq_bind.symm

theorem pointerType_cases {x : BtypeRef} (h : tm.pointerType x = some (r, tm')) :
    (x = tm.errorType ∧ r = x ∧ tm' = tm) ∨ ∃ target, x ≠ tm.errorType ∧ tm.obj x = some target ∧
      ((tm.lookup (pointerCandidate target x) = some (some r) ∧ tm' = tm) ∨
        ∃ found, r = tm.heap.length ∧
          tm' = tm.make 0 (tm.withFlag (pointerCandidate target x) [x]) [x] (.ofLookup found) ∧
          Origin tm 0 (tm.withFlag (pointerCandidate target x) [x]) [x] (.ofLookup found)) := by
  by_cases hx : x = tm.errorType
  · rw [pointerType, if_pos hx] at h
    obtain ⟨rfl, rfl⟩ := Prod.mk.inj (Option.some.inj h)
    exact .inl ⟨hx, hx.symm, rfl⟩
  · have hsome : ∃ target, tm.obj x = some target := by
      rw [pointerType, if_neg hx] at h
      obtain ⟨target, ho, -⟩ := Option.bind_eq_some_iff.mp h
      exact ⟨target, ho⟩
    obtain ⟨target, ho⟩ := hsome
    rw [pointerType_eq hx ho] at h
    exact .inr ⟨target, hx, ho, common_cases (.pointer ho) h⟩

theorem arrayType_cases {x : BtypeRef} {length : Option ℕ}
    (h : tm.arrayType x length = some (r, tm')) :
    (r = tm.errorType ∧ tm' = tm) ∨ ∃ elem asize, x ≠ tm.errorType ∧ length = some asize ∧
      tm.obj x = some elem ∧
      ((tm.lookup (arrayCandidate elem x asize) = some (some r) ∧ tm' = tm) ∨
        ∃ found, r = tm.heap.length ∧
          tm' = tm.make 0 (tm.withFlag (arrayCandidate elem x asize) [x]) [x] (.ofLookup found) ∧
          Origin tm 0 (tm.withFlag (arrayCandidate elem x asize) [x]) [x] (.ofLookup found)) := by
  cases length with
  | none =>
    obtain ⟨rfl, rfl⟩ := Prod.mk.inj (Option.some.inj h)
    exact .inl ⟨rfl, rfl⟩
  | some asize =>
    rw [arrayType] at h
    split_ifs at h with hx
    · obtain ⟨rfl, rfl⟩ := Prod.mk.inj (Option.some.inj h)
      exact .inl ⟨rfl, rfl⟩
    · obtain ⟨elem, ho, h⟩ := Option.bind_eq_some_iff.mp h
      exact .inr ⟨elem, asize, hx, rfl, ho, common_cases (.array asize ho) h⟩

end Calls

/-! ## What is left as it was -/

/-- Objects have been made, and some opaque structs. -/
structure Extends (tm tm' : TypeManager) : Prop where
  heap : ∃ l, tm'.heap = tm.heap ++ l
  errorType : tm'.errorType = tm.errorType
  bodies : tm'.bodies = tm.bodies

namespace Extends
variable {tm tm' tm'' : TypeManager}

theorem refl (tm : TypeManager) : Extends tm tm := ⟨⟨[], by simp⟩, rfl, rfl⟩

theorem trans (h : Extends tm tm') (h' : Extends tm' tm'') : Extends tm tm'' where
  heap := by
    obtain ⟨l, hl⟩ := h.heap
    obtain ⟨l', hl'⟩ := h'.heap
    exact ⟨l ++ l', by rw [hl', hl, List.append_assoc]⟩
  errorType := h'.errorType.trans h.errorType
  bodies := h'.bodies.trans h.bodies

theorem make (tm : TypeManager) (opaques : ℕ) (o : BtypeObject) (parts : List BtypeRef)
    (c : Container) : Extends tm (tm.make opaques o parts c) :=
  ⟨⟨[o], make_heap ..⟩, make_errorType .., make_bodies ..⟩

theorem length_le (h : Extends tm tm') : tm.heap.length ≤ tm'.heap.length := by
  obtain ⟨l, hl⟩ := h.heap
  rw [hl, List.length_append]
  exact Nat.le_add_right ..

theorem obj (h : Extends tm tm') {x : BtypeRef} (hx : x < tm.heap.length) :
    tm'.obj x = tm.obj x := by
  obtain ⟨l, hl⟩ := h.heap
  rw [TypeManager.obj, hl]
  exact List.getElem?_append_left hx

theorem typeOf (h : Extends tm tm') {x : BtypeRef} (hx : x < tm.heap.length) :
    tm'.typeOf x = tm.typeOf x := by
  rw [TypeManager.typeOf, h.obj hx, TypeManager.typeOf]

theorem isUnresolvedPlaceholder (h : Extends tm tm') {x : BtypeRef} (hx : x < tm.heap.length) :
    tm'.isUnresolvedPlaceholder x = tm.isUnresolvedPlaceholder x := by
  rw [TypeManager.isUnresolvedPlaceholder, h.obj hx, TypeManager.isUnresolvedPlaceholder]

end Extends

theorem Prepares.extends {tm tm' : TypeManager} (h : Prepares tm tm') : Extends tm tm' := by
  cases h with
  | make => exact Extends.make ..
  | opaqueType => exact ⟨⟨[], by simp⟩, rfl, rfl⟩

theorem Prepares.extends_of_path {tm tm' : TypeManager} (h : ReflTransGen Prepares tm tm') :
    Extends tm tm' := by
  induction h with
  | refl => exact .refl _
  | tail _ hstep ih => exact ih.trans hstep.extends

end TypeManager
end Dragongo
