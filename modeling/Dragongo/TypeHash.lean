import Dragongo.TypeEquality
import Dragongo.Library.Acyclic

/-!
# The tables of types

The tables look types up by `Btype::equal` and `Btype::hash`.  On types whose parts are all there,
none of them a part of itself, the one is an equivalence that ends, and the other agrees with it.
-/

namespace Dragongo
open LType Relation Acyclic

def TyFlavor.number : TyFlavor → UInt64
  | arrayT => 0
  | floatT => 1
  | functionT => 2
  | integerT => 3
  | pointerT => 4
  | structT => 5
  | auxT => 6

section Hash

variable (hashName : String → UInt64) (hashType : LType → UInt64)

/-- `Btype::hash`, from the hashes of a string and of the pointer to an LLVM type. -/
def BtypeObject.hash (o : BtypeObject) : UInt32 :=
  (((hashName o.name + hashType o.type) <<< 3) ||| o.kind.flavor.number).toUInt32

/-- It is computed from what `Btype::equal` compares first. -/
theorem BtypeObject.hash_eq_of_key {a b : BtypeObject} (h : a.key = b.key) :
    a.hash hashName hashType = b.hash hashName hashType := by
  obtain ⟨hflavor, hrest⟩ := Prod.mk.inj h
  obtain ⟨hname, htype⟩ := Prod.mk.inj hrest
  rw [hash, hash, hflavor, hname, htype]

end Hash

/-- `y` is a part of `x`. -/
def IsPart (heap : List BtypeObject) (x y : BtypeRef) : Prop :=
  ∃ o, heap[x]? = some o ∧ y ∈ o.kind.components

/-- A type whose parts, and theirs, are all there, and are not parts of themselves. -/
structure IsResolved (heap : List BtypeObject) (x : BtypeRef) : Prop where
  complete : ∀ y, ReflTransGen (IsPart heap) x y → ∃ o, heap[y]? = some o ∧ o.kind.isComplete
  acyclic : ∀ y, ReflTransGen (IsPart heap) x y → ¬TransGen (IsPart heap) y y

/-! ## The comparison ends -/

section Ends

variable {E : BtypeRef → BtypeRef → Option Bool}

theorem andAlso_ends {p q : Option Bool} (hp : ∃ b, p = some b) (hq : ∃ b, q = some b) :
    ∃ b, andAlso p q = some b := by
  obtain ⟨b, rfl⟩ := hp
  cases b with
  | false => exact ⟨false, rfl⟩
  | true => exact hq

theorem equalFields_ends : ∀ fs gs : List BtypedIdentifier,
    (∀ f ∈ fs, ∀ g ∈ gs, ∃ b, E f.btype g.btype = some b) → ∃ b, equalFields E fs gs = some b
  | [], gs, _ => by cases gs <;> exact ⟨_, rfl⟩
  | _ :: _, [], _ => ⟨_, rfl⟩
  | f :: fs, g :: gs, h => by
    rw [equalFields]
    refine andAlso_ends (h f List.mem_cons_self g List.mem_cons_self) ?_
    split_ifs
    · exact equalFields_ends fs gs fun f' hf g' hg =>
        h f' (List.mem_cons_of_mem f hf) g' (List.mem_cons_of_mem g hg)
    · exact ⟨_, rfl⟩

theorem equalParams_ends : ∀ xs ys : List BtypeRef,
    (∀ x ∈ xs, ∀ y ∈ ys, ∃ b, E x y = some b) → ∃ b, equalParams E xs ys = some b
  | [], ys, _ => by cases ys <;> exact ⟨_, rfl⟩
  | _ :: _, [], _ => ⟨_, rfl⟩
  | x :: xs, y :: ys, h => by
    rw [equalParams]
    exact andAlso_ends (h x List.mem_cons_self y List.mem_cons_self)
      (equalParams_ends xs ys fun x' hx y' hy =>
        h x' (List.mem_cons_of_mem x hx) y' (List.mem_cons_of_mem y hy))

/-- The comparison of two kinds ends when those of their parts do. -/
theorem equalKind_ends {k k' : BtypeKind} (hk : k.isComplete) (hk' : k'.isComplete)
    (h : ∀ x ∈ k.components, ∀ y ∈ k'.components, ∃ b, E x y = some b) :
    ∃ b, equalKind E k k' = some b := by
  cases k with
  | pointer t =>
    cases k' with
    | pointer t' =>
      obtain ⟨t, rfl⟩ := Option.isSome_iff_exists.mp hk
      obtain ⟨t', rfl⟩ := Option.isSome_iff_exists.mp hk'
      exact h t List.mem_cons_self t' List.mem_cons_self
    | _ => exact ⟨_, rfl⟩
  | array e n =>
    cases k' with
    | array e' n' =>
      obtain ⟨he, hn⟩ := (Bool.and_eq_true ..).mp hk
      obtain ⟨he', hn'⟩ := (Bool.and_eq_true ..).mp hk'
      obtain ⟨e, rfl⟩ := Option.isSome_iff_exists.mp he
      obtain ⟨n, rfl⟩ := Option.isSome_iff_exists.mp hn
      obtain ⟨e', rfl⟩ := Option.isSome_iff_exists.mp he'
      obtain ⟨n', rfl⟩ := Option.isSome_iff_exists.mp hn'
      rw [equalKind_array, if_neg (by simp)]
      dsimp only
      split_ifs
      · exact h e List.mem_cons_self e' List.mem_cons_self
      · exact ⟨_, rfl⟩
    | _ => exact ⟨_, rfl⟩
  | struct fs =>
    cases k' with
    | struct gs =>
      rw [equalKind]
      split_ifs
      · exact equalFields_ends fs gs fun f hf g hg =>
          h _ (List.mem_map_of_mem hf) _ (List.mem_map_of_mem hg)
      · exact ⟨_, rfl⟩
    | _ => exact ⟨_, rfl⟩
  | function r ps rs t c =>
    cases k' with
    | function r' ps' rs' t' c' =>
      have hreceiver : ∃ b, equalReceiver E r r' = some b := by
        cases r with
        | none => cases r' <;> exact ⟨_, rfl⟩
        | some x =>
          cases r' with
          | none => exact ⟨_, rfl⟩
          | some y =>
            exact h x (by simp [BtypeKind.components]) y (by simp [BtypeKind.components])
      rw [equalKind]
      refine andAlso_ends hreceiver (andAlso_ends
        (h t (by simp [BtypeKind.components]) t' (by simp [BtypeKind.components])) ?_)
      split_ifs
      · refine andAlso_ends (equalParams_ends ps ps' fun x hx y hy => ?_) ⟨_, rfl⟩
        exact h x (by simp [BtypeKind.components, hx]) y (by simp [BtypeKind.components, hy])
      · exact ⟨_, rfl⟩
    | _ => exact ⟨_, rfl⟩
  | _ => cases k' <;> exact ⟨_, rfl⟩

end Ends

section Equal

variable {heap : List BtypeObject} {x y z : BtypeRef}

theorem IsResolved.part (h : IsResolved heap x) (hy : IsPart heap x y) : IsResolved heap y :=
  ⟨fun z hz => h.complete z (hz.head hy), fun z hz => h.acyclic z (hz.head hy)⟩

theorem IsResolved.below (h : IsResolved heap x) :
    Below (IsPart heap) x (Finset.range heap.length) where
  inside y hy := by
    obtain ⟨o, ho, -⟩ := h.complete y hy
    exact Finset.mem_range.mpr (List.getElem?_eq_some_iff.mp ho).1
  acyclic := h.acyclic

/-- No path through the parts is longer than there are objects. -/
theorem equal_ends (hx : IsResolved heap x) (hy : IsResolved heap y) :
    ∃ b, equal heap x y = some b := by
  have hall : IsResolved heap x → ∀ y, IsResolved heap y →
      ∃ b, equalWithin heap heap.length x y = some b := by
    refine Below.induction (P := fun fuel x => IsResolved heap x → ∀ y, IsResolved heap y →
      ∃ b, equalWithin heap fuel x y = some b) ?_ hx.below (by rw [Finset.card_range])
    intro fuel x ih hx y hy
    by_cases hxy : x = y
    · exact ⟨true, by rw [hxy, equalWithin_self]⟩
    · obtain ⟨a, ha, hacomplete⟩ := hx.complete x .refl
      obtain ⟨b, hb, hbcomplete⟩ := hy.complete y .refl
      rw [equalWithin_ne hxy ha hb]
      split_ifs
      · refine equalKind_ends hacomplete hbcomplete fun x' hx' y' hy' => ?_
        exact ih x' ⟨a, ha, hx'⟩ (hx.part ⟨a, ha, hx'⟩) y' (hy.part ⟨b, hb, hy'⟩)
      · exact ⟨false, rfl⟩
  obtain ⟨b, hb⟩ := hall hx y hy
  refine ⟨b, equalWithin_mono heap ?_ x y b hb⟩
  exact (Nat.le_mul_self heap.length).trans (Nat.le_succ _)

theorem equal_refl (heap : List BtypeObject) (x : BtypeRef) : equal heap x x = some true :=
  equalWithin_self heap _ x

theorem equal_comm (heap : List BtypeObject) (x y : BtypeRef) : equal heap x y = equal heap y x :=
  equalWithin_comm heap _ x y

theorem equal_trans (hxy : equal heap x y = some true) (hyz : equal heap y z = some true) :
    equal heap x z = some true := by
  rw [equal, equalWithin_congr heap _ x y z hxy]
  exact hyz

theorem hash_eq_of_equal (hashName : String → UInt64) (hashType : LType → UInt64)
    {a b : BtypeObject} (ha : heap[x]? = some a) (hb : heap[y]? = some b)
    (h : equal heap x y = some true) : a.hash hashName hashType = b.hash hashName hashType := by
  rcases equalWithin_eq_true h with rfl | ⟨a', b', ha', hb', hkey, -, -⟩
  · rw [Option.some.inj (ha.symm.trans hb)]
  · cases ha.symm.trans ha'
    cases hb.symm.trans hb'
    exact BtypeObject.hash_eq_of_key hashName hashType hkey

end Equal

/-- On resolved types `Btype::equal` ends and is an equivalence, and types that are equal under it
have one hash. -/
theorem equal_equivalence (heap : List BtypeObject) :
    (∀ x y : {x // IsResolved heap x}, ∃ b, equal heap x y = some b) ∧
    Equivalence (fun x y : {x // IsResolved heap x} => equal heap x y = some true) ∧
    ∀ (hashName : String → UInt64) (hashType : LType → UInt64) (x y : {x // IsResolved heap x})
      (a b : BtypeObject), heap[x.1]? = some a → heap[y.1]? = some b →
        equal heap x y = some true → a.hash hashName hashType = b.hash hashName hashType := by
  refine ⟨fun x y => equal_ends x.2 y.2, ⟨fun x => equal_refl heap x, fun {x y} h => ?_,
    fun h h' => equal_trans h h'⟩, fun hashName hashType x y a b ha hb h => ?_⟩
  · rw [equal_comm]
    exact h
  · exact hash_eq_of_equal hashName hashType ha hb h

/-- Two structs of one integer each, under one name. -/
def twoStructs : List BtypeObject :=
  [⟨"", .int 64, false, .integer false 64⟩,
    ⟨"pair", .struct none [.int 64], false, .struct [⟨"f", 0, 1⟩]⟩,
    ⟨"pair", .struct none [.int 64], false, .struct [⟨"f", 0, 1⟩]⟩]

example : equal twoStructs 1 2 = some true := by decide

end Dragongo
