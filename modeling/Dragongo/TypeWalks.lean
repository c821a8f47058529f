import Dragongo.DebugLayout
import Dragongo.Library.Remembering

/-!
# Walks over the graph of the types

`typeSize` and `typToString` walk a graph that may be cyclic.  Each returns exactly for the types
from which it reaches nothing that is not set, and no loop of which it remembers no type.
-/

namespace Dragongo
open LType

namespace TypeManager
open Relation Remembering

/-- The call returns; it is not aborted. -/
def Answers {α : Type} (x : Except Stop α) : Prop := ∃ a, x = .ok a

/-- The call returns, however deep it has to go. -/
def Terminates {α : Type} (call : ℕ → Except Stop α) : Prop :=
  ∃ n, ∀ fuel, n ≤ fuel → Answers (call fuel)

section Answers
variable {α β : Type}

theorem Answers.ok (a : α) : Answers (.ok a) := ⟨a, rfl⟩

theorem Answers.bind {x : Except Stop α} {f : α → Except Stop β} (hx : Answers x)
    (hf : ∀ a, x = .ok a → Answers (f a)) : Answers (x >>= f) := by
  obtain ⟨a, rfl⟩ := hx
  exact hf a rfl

theorem Answers.map {x : Except Stop α} {f : α → β} (hx : Answers x) : Answers (x.map f) := by
  obtain ⟨a, rfl⟩ := hx
  exact .ok (f a)

theorem answers_unless_iff {o : Option α} : Answers (Stop.unless o) ↔ o.isSome := by
  cases o with
  | none =>
    refine iff_of_false ?_ Bool.false_ne_true
    rintro ⟨a, ha⟩
    cases ha
  | some a => exact iff_of_true (.ok a) rfl

theorem Stop.unless_some_bind (a : α) (f : α → Except Stop β) : Stop.unless (some a) >>= f = f a :=
  rfl

theorem Stop.map_eq_ok {x : Except Stop α} {f : α → β} {b : β} (h : x.map f = .ok b) :
    ∃ a, x = .ok a ∧ f a = b := by
  cases x with
  | error => cases h
  | ok a => exact ⟨a, rfl, Except.ok.inj h⟩

end Answers

/-- The types that have been made. -/
def types (tm : TypeManager) : Finset BtypeRef := Finset.range tm.heap.length

theorem mem_types {tm : TypeManager} {x : BtypeRef} {o : BtypeObject} (h : tm.obj x = some o) :
    x ∈ tm.types := Finset.mem_range.mpr (obj_lt h)

/-! ## Calls with a memory -/

section Memory
variable {α β σ : Type} {keys : σ → Set BtypeRef}

/-- A call returns if at least these types are in its memory, and takes none of them out. -/
def Retains (keys : σ → Set BtypeRef) (call : σ → Except Stop (α × σ)) (seen : Set BtypeRef) :
    Prop :=
  ∀ s, seen ⊆ keys s → ∃ a s', call s = .ok (a, s') ∧ seen ⊆ keys s'

/-- A call has returned, with these types in its memory before and after it. -/
def Returned (keys : σ → Set BtypeRef) (call : σ → Except Stop (α × σ))
    (seen seen' : Set BtypeRef) : Prop :=
  ∃ s a s', keys s = seen ∧ keys s' = seen' ∧ call s = .ok (a, s')

/-- A call for each of some types, one after the other. -/
def inOrder (call : BtypeRef → σ → Except Stop (α × σ)) :
    List BtypeRef → σ → Except Stop (List α × σ)
  | [], s => .ok ([], s)
  | x :: xs, s => do
    let (a, s) ← call x s
    let (as, s) ← inOrder call xs s
    .ok (a :: as, s)

theorem proxies_eq_inOrder (proxy : BtypeRef → ProxyMap → Except Stop (LType × ProxyMap)) :
    ∀ xs pmap, proxies proxy xs pmap = inOrder proxy xs pmap
  | [], _ => rfl
  | x :: xs, pmap => by
    simp only [proxies, inOrder, proxies_eq_inOrder proxy xs]

theorem strings_eq_inOrder (string : BtypeRef → StringMap → Except Stop (String × StringMap)) :
    ∀ xs smap, strings string xs smap = inOrder string xs smap
  | [], _ => rfl
  | x :: xs, smap => by
    simp only [strings, inOrder, strings_eq_inOrder string xs]

theorem buildAll_eq_inOrder (build : BtypeRef → TypeCache → Except Stop (DIType × TypeCache)) :
    ∀ xs cache, buildAll build xs cache = inOrder build xs cache
  | [], _ => rfl
  | x :: xs, cache => by
    simp only [buildAll, inOrder, buildAll_eq_inOrder build xs]

namespace Retains
variable {seen : Set BtypeRef} {call : σ → Except Stop (α × σ)}
  {rest : α → σ → Except Stop (β × σ)}

theorem bind (h : Retains keys call seen) (hrest : ∀ a, Retains keys (rest a) seen) :
    Retains keys (fun s => call s >>= fun r => rest r.1 r.2) seen := by
  intro s hs
  obtain ⟨a, s₁, hcall, hs₁⟩ := h s hs
  obtain ⟨b, s', hall, hs'⟩ := hrest a s₁ hs₁
  refine ⟨b, s', ?_, hs'⟩
  dsimp only
  rw [hcall]
  exact hall

theorem update (a : α) {f : σ → σ} (hf : ∀ s, keys s ⊆ keys (f s)) :
    Retains keys (fun s => .ok (a, f s)) seen :=
  fun s hs => ⟨a, f s, rfl, hs.trans (hf s)⟩

theorem ok (a : α) : Retains keys (fun s => .ok (a, s)) seen := update a fun _ => subset_refl _

/-- A part of the call that has no memory. -/
theorem query {x : Except Stop α} (hx : Answers x) (h : ∀ a, x = .ok a → Retains keys (rest a) seen) :
    Retains keys (fun s => x >>= fun a => rest a s) seen := by
  obtain ⟨a, rfl⟩ := hx
  exact h a rfl

theorem ofOption {o : Option α} (ho : o.isSome)
    (h : ∀ a, o = some a → Retains keys (rest a) seen) :
    Retains keys (fun s => Stop.unless o >>= fun a => rest a s) seen :=
  query (answers_unless_iff.mpr ho) fun a ha => h a (Stop.unless_eq_ok ha)

theorem inOrder {call : BtypeRef → σ → Except Stop (α × σ)} {xs : List BtypeRef}
    (h : ∀ x ∈ xs, Retains keys (call x) seen) : Retains keys (inOrder call xs) seen := by
  induction xs with
  | nil => exact .ok []
  | cons x xs ih =>
    have hrest := ih fun y hy => h y (List.mem_cons_of_mem _ hy)
    exact (h x (List.mem_cons_self ..)).bind fun a => hrest.bind fun as => .ok (a :: as)

end Retains

/-- The calls of a list that has been gone through. -/
theorem calls_of_inOrder {call : BtypeRef → σ → Except Stop (α × σ)} :
    ∀ {xs : List BtypeRef} {s s' : σ} {as : List α}, inOrder call xs s = .ok (as, s') →
      Calls (fun x => Returned keys (call x)) xs (keys s) (keys s')
  | [], s, s', as, h => by
    cases h
    exact .nil _
  | x :: xs, s, s', as, h => by
    obtain ⟨⟨a, s₁⟩, hx, h⟩ := Stop.bind_eq_ok h
    obtain ⟨⟨as', s₂⟩, hxs, h⟩ := Stop.bind_eq_ok h
    cases h
    exact .cons ⟨s, a, s₁, rfl, rfl, hx⟩ (calls_of_inOrder hxs)

theorem calls_single {call : BtypeRef → σ → Except Stop (α × σ)} {x : BtypeRef} {s s' : σ} {a : α}
    (h : call x s = .ok (a, s')) :
    Calls (fun x => Returned keys (call x)) [x] (keys s) (keys s') :=
  .cons ⟨s, a, s', rfl, rfl, h⟩ (.nil _)

end Memory

/-! ## Sizes -/

/-- `placeholderProxyType` goes on from an unresolved struct or array to what it holds. -/
def Proxies (tm : TypeManager) (x y : BtypeRef) : Prop :=
  ∃ o, tm.obj x = some o ∧ ¬tm.isSized o.type ∧
    ((∃ n, o.kind = .array (some y) n) ∨ ∃ fields, o.kind = .struct fields ∧
      y ∈ fields.map (·.btype))

/-- Whether there is a proxy for a type of this kind. -/
def hasProxy : BtypeKind → Bool
  | .array elemType nelSize => elemType.isSome && nelSize.isSome
  | .aux | .integer .. | .float _ => false
  | _ => true

/-- What `placeholderProxyType` asks for. -/
def Proxiable (tm : TypeManager) (x : BtypeRef) : Prop :=
  ∃ o, tm.obj x = some o ∧ (tm.isSized o.type ∨ hasProxy o.kind)

/-- A type that is not resolved must not hold itself by value. -/
def CanSize (tm : TypeManager) (x : BtypeRef) : Prop :=
  x = tm.errorType ∨ Walkable tm.Proxies (fun _ _ => False) tm.Proxiable ∅ x

def ProxyMap.keys (pmap : ProxyMap) : Set BtypeRef := {x | (pmap x).isSome}


section Size
variable {tm : TypeManager}

/-- A type in the map has a size, as all those have that are put into it. -/
def AllSized (tm : TypeManager) (pmap : ProxyMap) : Prop :=
  ∀ x t, pmap x = some t → tm.isSized t

theorem AllSized.insert {pmap : ProxyMap} {x : BtypeRef} {t : LType} (h : tm.AllSized pmap)
    (ht : tm.isSized t) : tm.AllSized (pmap.insert x t) := by
  intro y u hy
  unfold ProxyMap.insert at hy
  split_ifs at hy
  · rw [← Option.some.inj hy]
    exact ht
  · exact h y u hy

theorem isSized_array (t : LType) (n : ℕ) : tm.isSized (.array t n) = tm.isSized t := by
  unfold isSized expand
  rw [expandWithin_array]
  rfl

theorem areSized_iff (ts : List LType) : areSized ts ↔ ∀ t ∈ ts, t.isSized := by
  induction ts with
  | nil => exact iff_of_true rfl fun _ h => absurd h List.not_mem_nil
  | cons t ts ih => rw [areSized, Bool.and_eq_true, ih, List.forall_mem_cons]

theorem mapRefsAll_eq_map (f : ℕ → LType) (ts : List LType) :
    mapRefsAll f ts = ts.map (mapRefs f) := by
  induction ts with
  | nil => rfl
  | cons t ts ih => rw [mapRefsAll, ih, List.map_cons]

theorem expandWithin_literal (bodies : ℕ → Option (List LType)) (fuel : ℕ) (ts : List LType) :
    expandWithin bodies fuel (.struct none ts) =
      .struct none (ts.map (expandWithin bodies fuel)) := by
  cases fuel with
  | zero =>
    have hid : expandWithin bodies 0 = id := rfl
    rw [hid, List.map_id]
    rfl
  | succ fuel =>
    rw [expandWithin, mapRefs, mapRefsAll_eq_map]
    rfl

theorem isSized_literal (ts : List LType) :
    tm.isSized (.struct none ts) ↔ ∀ t ∈ ts, tm.isSized t := by
  unfold isSized expand
  rw [expandWithin_literal, LType.isSized, areSized_iff, List.forall_mem_map]

theorem isSized_llvmPtrType : tm.isSized llvmPtrType := by
  unfold isSized expand llvmPtrType
  cases tm.nextOpaque <;> rfl

theorem inOrder_sized {proxy : BtypeRef → ProxyMap → Except Stop (LType × ProxyMap)}
    (h : ∀ x pmap t pmap', tm.AllSized pmap → proxy x pmap = .ok (t, pmap') →
      tm.isSized t ∧ tm.AllSized pmap') :
    ∀ {xs : List BtypeRef} {pmap pmap' : ProxyMap} {ts : List LType}, tm.AllSized pmap →
      inOrder proxy xs pmap = .ok (ts, pmap') → (∀ t ∈ ts, tm.isSized t) ∧ tm.AllSized pmap'
  | [], pmap, pmap', ts, hpmap, hxs => by
    cases hxs
    exact ⟨fun _ ht => absurd ht List.not_mem_nil, hpmap⟩
  | x :: xs, pmap, pmap', ts, hpmap, hxs => by
    obtain ⟨⟨t, pmap₁⟩, hx, hxs⟩ := Stop.bind_eq_ok hxs
    obtain ⟨⟨ts', pmap₂⟩, hrest, hxs⟩ := Stop.bind_eq_ok hxs
    cases hxs
    obtain ⟨ht, hpmap₁⟩ := h x pmap t pmap₁ hpmap hx
    obtain ⟨hts, hpmap₂⟩ := inOrder_sized h hpmap₁ hrest
    exact ⟨List.forall_mem_cons.mpr ⟨ht, hts⟩, hpmap₂⟩

/-- A proxy has a size. -/
theorem placeholderProxyType_sized (fuel : ℕ) : ∀ x pmap t pmap', tm.AllSized pmap →
    tm.placeholderProxyType fuel x pmap = .ok (t, pmap') →
      tm.isSized t ∧ tm.AllSized pmap' := by
  induction fuel with
  | zero =>
    intro x pmap t pmap' _ h
    cases h
  | succ fuel ih =>
    intro x pmap t pmap' hpmap h
    rw [placeholderProxyType] at h
    obtain ⟨o, -, h⟩ := Stop.bind_eq_ok h
    by_cases hsized : tm.isSized o.type
    · rw [if_pos hsized] at h
      cases h
      exact ⟨hsized, hpmap⟩
    rw [if_neg hsized] at h
    cases hx : pmap x with
    | some u =>
      rw [hx] at h
      cases h
      exact ⟨hpmap x _ hx, hpmap⟩
    | none =>
      rw [hx] at h
      cases hk : o.kind with
      | array elt nelSize =>
        rw [hk] at h
        obtain ⟨e, -, h⟩ := Stop.bind_eq_ok h
        obtain ⟨⟨elprox, pmap₁⟩, he, h⟩ := Stop.bind_eq_ok h
        obtain ⟨n, -, h⟩ := Stop.bind_eq_ok h
        cases h
        obtain ⟨helprox, hpmap₁⟩ := ih e pmap elprox pmap₁ hpmap he
        have harray : tm.isSized (.array elprox n) := by rw [isSized_array, helprox]
        exact ⟨harray, hpmap₁.insert harray⟩
      | struct fields =>
        rw [hk] at h
        obtain ⟨⟨elems, pmap₁⟩, helems, h⟩ := Stop.bind_eq_ok h
        cases h
        rw [proxies_eq_inOrder] at helems
        obtain ⟨hsizes, hpmap₁⟩ := inOrder_sized ih hpmap helems
        have hstruct := (isSized_literal elems).mpr hsizes
        exact ⟨hstruct, hpmap₁.insert hstruct⟩
      | pointer | function =>
        rw [hk] at h
        cases h
        exact ⟨isSized_llvmPtrType, hpmap⟩
      | aux | integer | float =>
        rw [hk] at h
        cases h

theorem placeholderProxyType_step {fuel : ℕ} {x : BtypeRef} (hx : tm.Proxiable x)
    (h : ∀ y, tm.Proxies x y → Retains (fun _ => ∅) (tm.placeholderProxyType fuel y) ∅) :
    Retains (fun _ => ∅) (tm.placeholderProxyType (fuel + 1) x) ∅ := by
  intro pmap hpmap
  obtain ⟨o, ho, hok⟩ := hx
  rw [placeholderProxyType, ho, Stop.unless_some_bind]
  by_cases hsized : tm.isSized o.type
  · exact ⟨_, _, if_pos hsized, subset_refl _⟩
  rw [if_neg hsized]
  have hproxy := hok.resolve_left hsized
  cases pmap x with
  | some t => exact ⟨_, _, rfl, subset_refl _⟩
  | none =>
    cases hk : o.kind with
    | array elt nelSize =>
      rw [hk] at hproxy
      obtain ⟨helt, hnel⟩ := Bool.and_eq_true_iff.mp hproxy
      have harray : Retains (fun _ => ∅) (fun pmap => Stop.unless elt >>= fun e =>
          tm.placeholderProxyType fuel e pmap >>= fun r => Stop.unless nelSize >>= fun n =>
            .ok (LType.array r.1 n, r.2.insert x (.array r.1 n))) ∅ := by
        refine .ofOption helt fun e he => ?_
        have hproxies : tm.Proxies x e := ⟨o, ho, hsized, .inl ⟨nelSize, he ▸ hk⟩⟩
        have hlast : ∀ (t : LType) (n : ℕ), Retains (fun _ => ∅)
            (fun pmap : ProxyMap => .ok (LType.array t n, pmap.insert x (.array t n))) ∅ :=
          fun t n => .update _ fun _ => subset_refl _
        exact (h e hproxies).bind fun t => .ofOption hnel fun n _ => hlast t n
      exact harray pmap hpmap
    | struct fields =>
      have hall : Retains (fun _ => ∅)
          (inOrder (tm.placeholderProxyType fuel) (fields.map (·.btype))) ∅ :=
        .inOrder fun y hy => h y ⟨o, ho, hsized, .inr ⟨fields, hk, hy⟩⟩
      have hstruct : Retains (fun _ => ∅) (fun pmap =>
          inOrder (tm.placeholderProxyType fuel) (fields.map (·.btype)) pmap >>= fun r =>
            .ok (LType.struct none r.1, r.2.insert x (.struct none r.1))) ∅ := by
        have hlast : ∀ ts : List LType, Retains (fun _ => ∅)
            (fun pmap : ProxyMap => .ok (LType.struct none ts, pmap.insert x (.struct none ts))) ∅ :=
          fun ts => .update _ fun _ => subset_refl _
        exact hall.bind hlast
      dsimp only
      rw [proxies_eq_inOrder]
      exact hstruct pmap hpmap
    | pointer | function => exact ⟨_, _, rfl, subset_refl _⟩
    | aux | integer | float =>
      rw [hk] at hproxy
      exact absurd hproxy Bool.false_ne_true

theorem placeholderProxyType_walk (tm : TypeManager) :
    Walk (fun fuel x seen => seen = ∅ → Retains (fun _ => ∅) (tm.placeholderProxyType fuel x) ∅)
      tm.Proxies (fun _ _ => False) tm.Proxiable tm.types ∅ where
  source := fun x y ⟨o, ho, _⟩ => mem_types ho
  marked := fun _ _ h => h.elim
  known := by
    rintro fuel x seen hx - rfl
    exact hx.elim
  step := by
    rintro fuel x seen - hok h rfl
    exact placeholderProxyType_step hok fun y hy =>
      h y hy ∅ (subset_refl _) (fun _ hm => hm.elim) rfl

theorem mem_keys_insert (pmap : ProxyMap) (x : BtypeRef) (t : LType) (y : BtypeRef) :
    y ∈ (pmap.insert x t).keys ↔ y = x ∨ y ∈ pmap.keys := by
  change (pmap.insert x t y).isSome ↔ y = x ∨ (pmap y).isSome
  unfold ProxyMap.insert
  by_cases hyx : y = x <;> simp [hyx]

theorem placeholderProxyType_trace (tm : TypeManager) :
    Trace (fun fuel x => Returned ProxyMap.keys (tm.placeholderProxyType fuel x)) tm.Proxies
      (fun _ _ => False) tm.Proxiable where
  zero := by
    rintro x seen seen' ⟨pmap, t, pmap', -, -, h⟩
    cases h
  succ := by
    rintro fuel x seen seen' ⟨pmap, t, pmap', rfl, rfl, h⟩
    rw [placeholderProxyType] at h
    obtain ⟨o, ho, h⟩ := Stop.bind_eq_ok h
    have ho := Stop.unless_eq_ok ho
    -- nothing is asked for where the type has a size
    by_cases hsized : tm.isSized o.type
    · rw [if_pos hsized] at h
      cases h
      have hnone : ∀ y, ¬tm.Proxies x y := fun y ⟨o', ho', hnot, _⟩ =>
        hnot (Option.some.inj (ho.symm.trans ho') ▸ hsized)
      exact .of_leaf ⟨o, ho, .inl hsized⟩ hnone
    rw [if_neg hsized] at h
    have hparts : ∀ y, tm.Proxies x y ↔ (∃ n, o.kind = .array (some y) n) ∨
        ∃ fields, o.kind = .struct fields ∧ y ∈ fields.map (·.btype) := by
      intro y
      refine ⟨fun ⟨o', ho', _, hy⟩ => ?_, fun hy => ⟨o, ho, hsized, hy⟩⟩
      rwa [Option.some.inj (ho.symm.trans ho')]
    cases hx : pmap x with
    | some t =>
      rw [hx] at h
      cases h
      exact .inl ⟨Option.isSome_iff_exists.mpr ⟨_, hx⟩, rfl⟩
    | none =>
      rw [hx] at h
      have hnew : x ∉ pmap.keys := fun hmem =>
        absurd (hx ▸ hmem : (none : Option LType).isSome) Bool.false_ne_true
      have hentered : ∀ (pmap : ProxyMap) t, pmap.keys ⊆ (pmap.insert x t).keys ∧
          ∀ m ∈ (pmap.insert x t).keys, m ∈ pmap.keys ∨ m = x ∨ False := by
        intro pmap t
        refine ⟨fun y hy => (mem_keys_insert pmap x t y).mpr (.inr hy), fun y hy => ?_⟩
        rcases (mem_keys_insert pmap x t y).mp hy with rfl | hy
        · exact .inr (.inl rfl)
        · exact .inl hy
      cases hk : o.kind with
      | array elt nelSize =>
        rw [hk] at h
        obtain ⟨e, he, h⟩ := Stop.bind_eq_ok h
        obtain ⟨⟨elprox, pmap₁⟩, hcall, h⟩ := Stop.bind_eq_ok h
        obtain ⟨n, hn, h⟩ := Stop.bind_eq_ok h
        cases h
        have he := Stop.unless_eq_ok he
        refine .inr ⟨hnew, ⟨o, ho, .inr ?_⟩, _, _, [e], subset_refl _, fun _ hm => .inl hm,
          calls_single hcall, ?_, (hentered _ _).1, (hentered _ _).2⟩
        · rw [hk, he, Stop.unless_eq_ok hn]
          rfl
        · intro y
          rw [hparts, hk, he]
          simp [eq_comm]
      | struct fields =>
        rw [hk] at h
        obtain ⟨⟨elems, pmap₁⟩, hcalls, h⟩ := Stop.bind_eq_ok h
        cases h
        rw [proxies_eq_inOrder] at hcalls
        refine .inr ⟨hnew, ⟨o, ho, .inr (hk ▸ rfl)⟩, _, _, _, subset_refl _, fun _ hm => .inl hm,
          calls_of_inOrder hcalls, ?_, (hentered _ _).1, (hentered _ _).2⟩
        intro y
        rw [hparts, hk]
        simp
      | pointer | function =>
        rw [hk] at h
        cases h
        exact .of_leaf ⟨o, ho, .inr (hk ▸ rfl)⟩ fun y hy => by simpa [hk] using (hparts y).mp hy
      | aux | integer | float =>
        rw [hk] at h
        cases h

theorem typeSize_answers {fuel : ℕ} {x : BtypeRef} (hx : tm.CanSize x)
    (hfuel : enough tm.types.card tm.types.card ≤ fuel) : Answers (tm.typeSize fuel x) := by
  unfold typeSize
  by_cases herr : x = tm.errorType
  · rw [if_pos herr]
    exact .ok 1
  rw [if_neg herr]
  have hw := hx.resolve_left herr
  obtain ⟨o, ho, -⟩ := hw.ok x .refl fun h => h.elim
  rw [ho, Stop.unless_some_bind]
  have hsize : ∀ {t : LType}, tm.isSized t → Answers (tm.getTypeAllocSize t) := by
    intro t ht
    rw [getTypeAllocSize, answers_unless_iff, allocSize, if_pos (show (tm.expand t).isSized from ht)]
    rfl
  by_cases hsized : tm.isSized o.type
  · rw [if_pos hsized]
    exact hsize hsized
  · rw [if_neg hsized]
    obtain ⟨t, pmap, h, -⟩ :=
      (placeholderProxyType_walk tm).returns hw hfuel rfl (fun _ => none) (Set.empty_subset _)
    rw [h]
    refine hsize (placeholderProxyType_sized fuel x _ t pmap (fun y u hy => ?_) h).1
    cases hy

theorem canSize_of_answers {fuel : ℕ} {x : BtypeRef} (h : Answers (tm.typeSize fuel x)) :
    tm.CanSize x := by
  obtain ⟨size, h⟩ := h
  unfold typeSize at h
  by_cases herr : x = tm.errorType
  · exact .inl herr
  rw [if_neg herr] at h
  obtain ⟨o, ho, h⟩ := Stop.bind_eq_ok h
  have ho := Stop.unless_eq_ok ho
  right
  have hempty : ProxyMap.keys (fun _ => none) = ∅ := by
    apply Set.eq_empty_of_forall_notMem
    intro y hy
    cases hy
  have hwalk : ∃ n t pmap, tm.placeholderProxyType n x (fun _ => none) = .ok (t, pmap) := by
    by_cases hsized : tm.isSized o.type
    · refine ⟨1, o.type, fun _ => none, ?_⟩
      rw [placeholderProxyType, ho, Stop.unless_some_bind, if_pos hsized]
    · rw [if_neg hsized] at h
      obtain ⟨⟨t, pmap⟩, hproxy, -⟩ := Stop.bind_eq_ok h
      exact ⟨fuel, t, pmap, hproxy⟩
  obtain ⟨n, t, pmap, hproxy⟩ := hwalk
  exact (placeholderProxyType_trace tm).walkable (fun _ _ _ _ hm => hm.elim)
    ⟨_, t, pmap, hempty, rfl, hproxy⟩

end Size

/-! ## Strings -/

/-- The types that the string of a type is made of. -/
def spelledParts : BtypeKind → List BtypeRef
  | .pointer toType => toType.toList
  | .array elemType _ => elemType.toList
  | .struct fields => fields.map (·.btype)
  | .function receiverType paramTypes _ resultType _ =>
    receiverType.toList ++ paramTypes ++ [resultType]
  | _ => []

/-- `typToStringRec` goes on from a type that has no name to its parts. -/
def Spells (tm : TypeManager) (x y : BtypeRef) : Prop :=
  tm.nameOf x = none ∧ ∃ k, tm.kindOf x = some k ∧ y ∈ spelledParts k

/-- Only a struct is entered in the map before its parts are visited. -/
def SpelledFirst (tm : TypeManager) (x m : BtypeRef) : Prop :=
  m = x ∧ ∃ fields, tm.kindOf x = some (.struct fields)

/-- What `typToStringRec` asks for: a name that can be read, or else parts that are set. -/
structure Spellable (tm : TypeManager) (x : BtypeRef) : Prop where
  named : ∀ name, tm.nameOf x = some name → Answers name
  unnamed : tm.nameOf x = none → ∃ o, tm.obj x = some o ∧ o.kind.isComplete ∧
    ∀ bits, o.kind = .float bits → bits.isSome

def CanSpell (tm : TypeManager) (x : BtypeRef) : Prop :=
  Walkable tm.Spells tm.SpelledFirst tm.Spellable ∅ x

/-- The types with a string in the map. -/
def StringMap.keys (smap : StringMap) : Set BtypeRef := {x | (smap.lookup x).isSome}

section Strings
variable {tm : TypeManager} {print : LType → String} {x : BtypeRef}

theorem lookup_filter_ne (x y : BtypeRef) (h : y ≠ x) : ∀ smap : StringMap,
    (smap.filter (·.1 ≠ x)).lookup y = smap.lookup y
  | [] => rfl
  | (z, s) :: smap => by
    by_cases hzx : z = x
    · subst hzx
      have hyz : (y == z) = false := beq_eq_false_iff_ne.mpr h
      rw [List.filter_cons_of_neg (by simp), List.lookup_cons, hyz]
      exact lookup_filter_ne z y h smap
    · rw [List.filter_cons_of_pos (by simpa using hzx), List.lookup_cons, List.lookup_cons]
      cases y == z with
      | true => rfl
      | false => exact lookup_filter_ne x y h smap

theorem StringMap.mem_keys_insert (smap : StringMap) (x : BtypeRef) (s : String) (y : BtypeRef) :
    y ∈ (smap.insert x s).keys ↔ y = x ∨ y ∈ smap.keys := by
  change ((smap.insert x s).lookup y).isSome ↔ y = x ∨ (smap.lookup y).isSome
  rw [StringMap.insert, List.lookup_cons]
  by_cases hyx : y = x
  · simp [hyx]
  · have hbeq : (y == x) = false := beq_eq_false_iff_ne.mpr hyx
    rw [hbeq]
    dsimp only
    rw [lookup_filter_ne x y hyx]
    simp [hyx]

theorem StringMap.keys_subset_insert (x : BtypeRef) (s : String) (smap : StringMap) :
    smap.keys ⊆ (smap.insert x s).keys :=
  fun y hy => (smap.mem_keys_insert x s y).mpr (.inr hy)

variable {string : BtypeRef → StringMap → Except Stop (String × StringMap)} {seen : Set BtypeRef}

theorem kindString_spelled {o : BtypeObject} (hcomplete : o.kind.isComplete)
    (hbits : ∀ bits, o.kind = .float bits → bits.isSome)
    (hparts : ∀ y ∈ spelledParts o.kind, ∀ seen', seen ⊆ seen' →
      (∀ fields, o.kind = .struct fields → x ∈ seen') → Retains StringMap.keys (string y) seen') :
    Retains StringMap.keys (kindString print string x o) seen := by
  -- only the parts of a struct are visited with an entry for `x`
  have hpart : o.kind.flavor ≠ .structT → ∀ y ∈ spelledParts o.kind,
      Retains StringMap.keys (string y) seen := by
    intro hflavor y hy
    refine hparts y hy seen (subset_refl _) fun fields hk => ?_
    rw [hk] at hflavor
    exact (hflavor rfl).elim
  unfold kindString
  cases hk : o.kind with
  | aux => exact .ok _
  | float bits => exact .ofOption (hbits bits hk) fun b _ => .ok _
  | integer => exact .ok _
  | pointer toType =>
    rw [hk] at hpart hcomplete
    refine .ofOption hcomplete fun t ht => ?_
    have hto := hpart TyFlavor.noConfusion t (ht ▸ List.mem_singleton_self t)
    exact hto.bind fun s => .ok _
  | struct fields =>
    intro smap hsmap
    have hall : Retains StringMap.keys (inOrder string (fields.map (·.btype))) (insert x seen) := by
      apply Retains.inOrder
      intro y hy
      refine hparts y (by rw [hk]; exact hy) (insert x seen) (Set.subset_insert ..) ?_
      exact fun _ _ => Set.mem_insert ..
    have hentered : insert x seen ⊆
        (smap.insert x ("$struct$" ++ toString smap.length)).keys := by
      intro y hy
      rw [StringMap.mem_keys_insert]
      exact hy.imp_right fun hy => hsmap hy
    obtain ⟨ss, smap', hss, hkeys⟩ := hall _ hentered
    refine ⟨"struct\x7b" ++ ",".intercalate ss ++ "\x7d", smap', ?_,
      (Set.subset_insert ..).trans hkeys⟩
    dsimp only
    rw [strings_eq_inOrder, hss]
    rfl
  | function receiverType paramTypes resultTypes resultType followsCabi =>
    rw [hk] at hpart
    have hpart := hpart TyFlavor.noConfusion
    have hparams :
        Retains StringMap.keys (inOrder string (receiverType.toList ++ paramTypes)) seen :=
      .inOrder fun y hy => hpart y (List.mem_append_left _ hy)
    have hresult : ∀ ss : List String, Retains StringMap.keys (fun smap =>
        string resultType smap >>= fun r => .ok ("func(" ++ ",".intercalate ss ++ ")" ++ r.1, r.2))
        seen :=
      fun ss => (hpart resultType (List.mem_append_right _ (List.mem_singleton_self _))).bind
        fun s => .ok _
    simp only [strings_eq_inOrder]
    exact hparams.bind hresult
  | array elemType nelSize =>
    rw [hk] at hpart hcomplete
    obtain ⟨helem, hnel⟩ := Bool.and_eq_true_iff.mp hcomplete
    refine .ofOption hnel fun n _ => .ofOption helem fun e he => ?_
    have hto := hpart TyFlavor.noConfusion e (he ▸ List.mem_singleton_self e)
    exact hto.bind fun s => .ok _

theorem nameOf_spelled {name : Except Stop String} (h : Answers name) :
    Retains StringMap.keys (fun smap => name.map fun s => (s, smap)) seen := by
  obtain ⟨s, rfl⟩ := h
  exact .ok s

theorem typToStringRec_walk (tm : TypeManager) (print : LType → String) :
    Walk (fun fuel x seen => Retains StringMap.keys (tm.typToStringRec print fuel x) seen)
      tm.Spells tm.SpelledFirst tm.Spellable tm.types ∅ where
  source := by
    rintro x y ⟨-, k, hk, -⟩
    obtain ⟨o, ho, -⟩ := Option.map_eq_some_iff.mp hk
    exact mem_types ho
  marked := by
    rintro x m ⟨rfl, fields, hk⟩
    obtain ⟨o, ho, -⟩ := Option.map_eq_some_iff.mp hk
    exact mem_types ho
  known := by
    intro fuel x seen hx hok smap hsmap
    obtain ⟨s, hs⟩ := Option.isSome_iff_exists.mp (hsmap hx)
    rw [typToStringRec, hs]
    cases hname : tm.nameOf x with
    | some name =>
      have hok := hok.resolve_left fun h => h.elim
      exact nameOf_spelled (hok.named name hname) smap hsmap
    | none => exact Retains.ok s smap hsmap
  step := by
    intro fuel x seen _ hok h smap hsmap
    rw [typToStringRec]
    cases hname : tm.nameOf x with
    | some name => exact nameOf_spelled (hok.named name hname) smap hsmap
    | none =>
      cases smap.lookup x with
      | some s => exact Retains.ok s smap hsmap
      | none =>
        obtain ⟨o, ho, hcomplete, hbits⟩ := hok.unnamed hname
        have hk : tm.kindOf x = some o.kind := by rw [kindOf, ho]; rfl
        have hkind : Retains StringMap.keys
            (kindString print (tm.typToStringRec print fuel) x o) seen := by
          refine kindString_spelled hcomplete hbits fun y hy seen' hsub hfirst => ?_
          refine h y ⟨hname, o.kind, hk, hy⟩ seen' hsub ?_
          rintro m ⟨rfl, fields, hfields⟩
          exact hfirst fields (Option.some.inj (hk.symm.trans hfields))
        have hcall : Retains StringMap.keys (fun smap =>
            kindString print (tm.typToStringRec print fuel) x o smap >>= fun r =>
              .ok (r.1, r.2.insert x r.1)) seen :=
          hkind.bind fun s => .update s (StringMap.keys_subset_insert x s)
        rw [ho, Stop.unless_some_bind]
        exact hcall smap hsmap

theorem typToString_answers (print : LType → String) {fuel : ℕ} (hx : tm.CanSpell x)
    (hfuel : enough tm.types.card tm.types.card ≤ fuel) : Answers (tm.typToString print fuel x) := by
  obtain ⟨s, smap, h, -⟩ :=
    (typToStringRec_walk tm print).returns hx hfuel [] (Set.empty_subset _)
  rw [typToString, h]
  exact .ok s

/-- What is left of the calls that `kindString` has made. -/
theorem kindString_calls {o : BtypeObject} {smap smap' : StringMap} {s : String}
    (ho : tm.obj x = some o) (h : kindString print string x o smap = .ok (s, smap')) :
    (o.kind.isComplete ∧ ∀ bits, o.kind = .float bits → bits.isSome) ∧
      ∃ first : StringMap, smap.keys ⊆ first.keys ∧
        (∀ m ∈ first.keys, m ∈ smap.keys ∨ tm.SpelledFirst x m) ∧
        Calls (fun y => Returned StringMap.keys (string y)) (spelledParts o.kind) first.keys
          smap'.keys := by
  unfold kindString at h
  cases hk : o.kind with
  | aux =>
    rw [hk] at h
    cases h
    exact ⟨⟨rfl, by intro _ h; cases h⟩, smap, subset_refl _, fun _ hm => .inl hm, .nil _⟩
  | integer =>
    rw [hk] at h
    cases h
    exact ⟨⟨rfl, by intro _ h; cases h⟩, smap, subset_refl _, fun _ hm => .inl hm, .nil _⟩
  | float bits =>
    rw [hk] at h
    obtain ⟨b, hb, h⟩ := Stop.bind_eq_ok h
    cases h
    refine ⟨⟨rfl, ?_⟩, smap, subset_refl _, fun _ hm => .inl hm, .nil _⟩
    intro bits' hbits'
    cases hbits'
    rw [Stop.unless_eq_ok hb]
    rfl
  | pointer toType =>
    rw [hk] at h
    obtain ⟨t, ht, h⟩ := Stop.bind_eq_ok h
    obtain ⟨⟨s', smap₁⟩, hcall, h⟩ := Stop.bind_eq_ok h
    cases h
    cases Stop.unless_eq_ok ht
    exact ⟨⟨rfl, by intro _ h; cases h⟩, smap, subset_refl _, fun _ hm => .inl hm,
      calls_single hcall⟩
  | array elemType nelSize =>
    rw [hk] at h
    obtain ⟨n, hn, h⟩ := Stop.bind_eq_ok h
    obtain ⟨e, he, h⟩ := Stop.bind_eq_ok h
    obtain ⟨⟨s', smap₁⟩, hcall, h⟩ := Stop.bind_eq_ok h
    cases h
    cases Stop.unless_eq_ok he
    cases Stop.unless_eq_ok hn
    exact ⟨⟨rfl, by intro _ h; cases h⟩, smap, subset_refl _, fun _ hm => .inl hm,
      calls_single hcall⟩
  | struct fields =>
    rw [hk] at h
    obtain ⟨⟨ss, smap₁⟩, hcalls, h⟩ := Stop.bind_eq_ok h
    cases h
    rw [strings_eq_inOrder] at hcalls
    refine ⟨⟨rfl, by intro _ h; cases h⟩, smap.insert x ("$struct$" ++ toString smap.length),
      StringMap.keys_subset_insert .., fun m hm => ?_, calls_of_inOrder hcalls⟩
    have hfirst : tm.SpelledFirst x x := ⟨rfl, fields, by rw [kindOf, ho, ← hk]; rfl⟩
    rcases (StringMap.mem_keys_insert ..).mp hm with rfl | hm
    · exact .inr hfirst
    · exact .inl hm
  | function receiverType paramTypes resultTypes resultType followsCabi =>
    rw [hk] at h
    obtain ⟨⟨ss, smap₁⟩, hcalls, h⟩ := Stop.bind_eq_ok h
    obtain ⟨⟨s', smap₂⟩, hcall, h⟩ := Stop.bind_eq_ok h
    cases h
    rw [strings_eq_inOrder] at hcalls
    exact ⟨⟨rfl, by intro _ h; cases h⟩, smap, subset_refl _, fun _ hm => .inl hm,
      (calls_of_inOrder hcalls).append (calls_single hcall)⟩

theorem typToStringRec_trace (tm : TypeManager) (print : LType → String) :
    Trace (fun fuel x => Returned StringMap.keys (tm.typToStringRec print fuel x)) tm.Spells
      tm.SpelledFirst tm.Spellable where
  zero := by
    rintro x seen seen' ⟨smap, s, smap', -, -, h⟩
    cases h
  succ := by
    rintro fuel x seen seen' ⟨smap, s, smap', rfl, rfl, h⟩
    rw [typToStringRec] at h
    cases hname : tm.nameOf x with
    | some name =>
      rw [hname] at h
      obtain ⟨s', rfl, h⟩ := Stop.map_eq_ok h
      cases h
      refine .of_leaf ⟨fun name hn => ?_, fun hnone => ?_⟩ fun y hy => ?_
      · rw [← Option.some.inj (hname.symm.trans hn)]
        exact .ok _
      · cases hname.symm.trans hnone
      · cases hname.symm.trans hy.1
    | none =>
      rw [hname] at h
      cases hx : smap.lookup x with
      | some s' =>
        rw [hx] at h
        cases h
        exact .inl ⟨Option.isSome_iff_exists.mpr ⟨_, hx⟩, rfl⟩
      | none =>
        rw [hx] at h
        obtain ⟨o, ho, h⟩ := Stop.bind_eq_ok h
        obtain ⟨⟨s', smap₁⟩, hkind, h⟩ := Stop.bind_eq_ok h
        cases h
        have ho := Stop.unless_eq_ok ho
        have hk : tm.kindOf x = some o.kind := by rw [kindOf, ho]; rfl
        have hnew : x ∉ smap.keys := fun hmem =>
          absurd (hx ▸ hmem : (none : Option String).isSome) Bool.false_ne_true
        obtain ⟨hset, first, hkept, hentered, hcalls⟩ := kindString_calls ho hkind
        refine .inr ⟨hnew, ⟨fun name hn => ?_, fun _ => ⟨o, ho, hset⟩⟩, _, _, _, hkept, hentered,
          hcalls, fun y => ⟨fun hy => ⟨hname, o.kind, hk, hy⟩, fun hy => ?_⟩,
          StringMap.keys_subset_insert .., fun m hm => ?_⟩
        · cases hname.symm.trans hn
        · obtain ⟨-, k, hk', hy⟩ := hy
          exact Option.some.inj (hk'.symm.trans hk) ▸ hy
        · rcases (StringMap.mem_keys_insert ..).mp hm with rfl | hm
          · exact .inr (.inl rfl)
          · exact .inl hm

/-- A struct stands for itself. -/
theorem SpelledFirst.standsFor {m : BtypeRef} (hok : tm.Spellable x) (h : tm.SpelledFirst x m) :
    StandsFor tm.Spells tm.SpelledFirst tm.Spellable x m := by
  obtain ⟨rfl, hstruct⟩ := h
  exact ⟨⟨rfl, hstruct⟩, hok, fun _ hy => hy⟩

theorem canSpell_of_answers {fuel : ℕ} (h : Answers (tm.typToString print fuel x)) :
    tm.CanSpell x := by
  obtain ⟨s, h⟩ := h
  obtain ⟨⟨s', smap⟩, h, -⟩ := Stop.map_eq_ok h
  have hempty : StringMap.keys [] = ∅ := by
    apply Set.eq_empty_of_forall_notMem
    intro y hy
    cases hy
  exact (typToStringRec_trace tm print).walkable (fun _ _ _ hok hm => hm.standsFor hok)
    ⟨[], s', smap, hempty, rfl, h⟩

/-- A string is returned exactly for the types from which nothing is reached that is not set, and
no loop without a struct. -/
theorem typToString_returns_iff (print : LType → String) :
    (Terminates fun fuel => tm.typToString print fuel x) ↔ tm.CanSpell x := by
  constructor
  · rintro ⟨n, hn⟩
    exact canSpell_of_answers (hn n le_rfl)
  · exact fun hx => ⟨_, fun fuel hfuel => typToString_answers print hx hfuel⟩

end Strings

end TypeManager
end Dragongo
