import Dragongo.CompositeInit

/-!
# Composites assigned to what they read

A composite is expanded straight into the destination of its assignment, which its elements may
read.  Scalars are loaded and composites among the elements are built before the first store, but
an aggregate in memory is copied when its turn comes.
-/

namespace Dragongo
open LType Varexpr_context

/-! ## What is asked of the assignment -/

namespace Machine

/-- A state before the assignment to the place `a`.  No load of it has run, and values have as
many bytes as their types.  Temporaries and the variables of constants are nowhere else; an
aggregate that is referred to lies where it is assigned to, or apart from there. -/
structure BeforeComposite (M : Machine) (a : BitVec 64) (bt : Btype) (elems : List Bexpression) :
    Prop where
  fresh : ∀ v, M.loaded v = none
  sized : M.AllSized elems
  constants : M.AllHoldConstants elems
  separate : M.AllSeparate (M.allUses elems) elems
  temporaries : Disjoint (M.allScratch elems) (Memory.region a bt.type.shape.allocSize)
  constantVariables : ∀ bt' v vc, .expr bt' v vc ∈ elems → ¬vc.pending →
    bt'.type.isAggregateType → Disjoint
      (Memory.region (M.address (.constantVariable v)) bt'.type.shape.allocSize)
        (Memory.region a bt.type.shape.allocSize)
  apart : M.AllApart a bt.type 0 elems

end Machine

/-! ## Stores and sources -/

namespace Machine

section Sources

variable {M : Machine} {a : BitVec 64} {t : LType} {i : ℕ} {e : Bexpression}
  {es : List Bexpression} {m m' : BitVec 64 → BitVec 8}

/-- Elements that are no references are not in the destination. -/
def Aside (M : Machine) (m : BitVec 64 → BitVec 8) (a : BitVec 64) (t : LType)
    (es : List Bexpression) : Prop :=
  ∀ e ∈ es, ¬IsReference e → M.Keeps m e ∧ (e.btype.type.isAggregateType → Disjoint
    (Memory.region (M.source e) e.btype.type.shape.allocSize)
      (Memory.region a t.shape.allocSize))

theorem Aside.congr (h : M.Aside m a t es)
    (hm : ∀ b ∉ Memory.region a t.shape.allocSize, m' b = m b) : M.Aside m' a t es :=
  fun e he href => ⟨(h e he href).1.congr hm (h e he href).2, (h e he href).2⟩

end Sources

end Machine

/-! ## The assignment -/

section Assignment

variable {c : CircularPointerTypes} {node : ℕ} {bt lt : Btype} {d : Value} {lc : VarContext}
  {lhs : Bexpression} {elems : List Bexpression} {M : Machine}

/-- Constants are in their variables, and composites in temporaries. -/
theorem Machine.BeforeComposite.aside {a : BitVec 64} {m : BitVec 64 → BitVec 8}
    (hM : M.BeforeComposite a bt elems) (hw : AreWellTyped elems bt.type 0)
    (hkeeps : ∀ e ∈ elems, M.Keeps m e) : M.Aside m a bt.type elems := by
  refine fun e he href => ⟨hkeeps e he, fun hagg => ?_⟩
  obtain ⟨k, hk⟩ := List.mem_iff_getElem?.mp he
  cases e with
  | compositeInit node' bt' elems' =>
    refine hM.temporaries.mono_left (Set.Subset.trans ?_ (scratch_subset_allScratch he))
    exact Set.subset_union_left
  | expr bt' v vc =>
    have hp : ¬vc.pending := fun hp => href ⟨hp, pending_aggregate (hw.getElem hk).2.1 hagg hp⟩
    have hagg' : bt'.type.isAggregateType := hagg
    rw [source, Bexpression.storage, if_neg hp, if_pos hagg']
    exact hM.constantVariables bt' v vc he hp hagg

end Assignment

section Swap

variable {elem : Btype}

end Swap

end Dragongo
