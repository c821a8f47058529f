import Dragongo.PendingConversion

/-!
# Resolving one expression again

The front end may hand one expression to several consumers, and each of them resolves it in
its own context.  A resolution that hands out the address takes the pending context away
from the expression; one that loads makes a new expression and leaves the old one alone.
-/

namespace Dragongo
open LType Varexpr_context

section Shared

variable (c : CircularTypes) (bt : Btype) (v : Value)

/-- `resolveVarContext` hands out the address. -/
def handsOutAddress (vc : VarContext) (ctx : Varexpr_context) : Bool :=
  vc.addrLevel = 1 || vc.lvalue || ctx = VE_lvalue

/-- `resetVarExprContext`. -/
def VarContext.reset (vc : VarContext) : VarContext := { vc with pending := false }

/-- `resolveVarContext`, with the context that it leaves the expression with. -/
def resolveShared (vc : VarContext) (ctx : Varexpr_context) : Option (Resolved × VarContext) :=
  (resolveVarContext c bt v vc ctx).map fun r =>
    (r, if vc.pending ∧ handsOutAddress vc ctx then vc.reset else vc)

/-- The results of resolving one expression in each of these contexts in turn. -/
def resolveEach : VarContext → List Varexpr_context → Option (List Resolved)
  | _, [] => some []
  | vc, ctx :: ctxs => do
    let (r, vc) ← resolveShared c bt v vc ctx
    let rs ← resolveEach vc ctxs
    some (r :: rs)

/-- The values are one value in every state. -/
def SameMeaning (r r' : Resolved) : Prop := ∀ env, Env.eval env r.value = env.eval r'.value

/-- Every result of the sequence means what a copy of the original expression gives in that
context alone. -/
def KeepsMeaning (vc : VarContext) (ctxs : List Varexpr_context) : Prop :=
  ∃ rs, resolveEach c bt v vc ctxs = some rs ∧
    List.Forall₂ (fun r ctx => ∃ r', resolveVarContext c bt v vc ctx = some r' ∧
      SameMeaning r r') rs ctxs

end Shared

section Proofs

variable {c : CircularTypes} {bt : Btype} {v : Value} {vc : VarContext} {ctx : Varexpr_context}
  {ctxs : List Varexpr_context}

/-- The contexts that the assertions of `resolveVarContext` let through. -/
def VarContext.IsResolvable (vc : VarContext) (bt : Btype) : Prop :=
  vc.addrLevel = 0 ∨ vc.addrLevel = 1 ∧ bt.type.isPointerTy

/-! ## One resolution -/

theorem resolveVarContext_of_handsOut (hp : vc.pending) (hr : vc.IsResolvable bt)
    (h : handsOutAddress vc ctx) : resolveVarContext c bt v vc ctx = some ⟨bt, v, []⟩ := by
  have hctx : vc.addrLevel = 1 ∨ vc.lvalue ∨ ctx = VE_lvalue := by
    simpa [handsOutAddress, or_assoc] using h
  unfold resolveVarContext
  rw [if_pos hp, if_pos (hr.imp_right And.left), if_pos hctx, if_pos (hr.imp_right And.right)]

theorem resolveVarContext_of_load (hp : vc.pending) (hr : vc.IsResolvable bt)
    (h : handsOutAddress vc ctx = false) :
    resolveVarContext c bt v vc ctx = some (loadFromExpr c bt v vc bt) := by
  have hctx : ¬(vc.addrLevel = 1 ∨ vc.lvalue ∨ ctx = VE_lvalue) := by
    simpa [handsOutAddress, not_or, and_assoc] using h
  unfold resolveVarContext
  rw [if_pos hp, if_pos (hr.imp_right And.left), if_neg hctx]

theorem resolveShared_of_handsOut (hp : vc.pending) (hr : vc.IsResolvable bt)
    (h : handsOutAddress vc ctx) :
    resolveShared c bt v vc ctx = some (⟨bt, v, []⟩, vc.reset) := by
  rw [resolveShared, resolveVarContext_of_handsOut hp hr h, Option.map_some, if_pos ⟨hp, h⟩]

theorem resolveShared_of_load (hp : vc.pending) (hr : vc.IsResolvable bt)
    (h : handsOutAddress vc ctx = false) :
    resolveShared c bt v vc ctx = some (loadFromExpr c bt v vc bt, vc) := by
  rw [resolveShared, resolveVarContext_of_load hp hr h, Option.map_some,
    if_neg fun hn => by simp [h] at hn]

theorem resolveShared_of_not_pending (hp : vc.pending = false) (ctx : Varexpr_context) :
    resolveShared c bt v vc ctx = some (⟨bt, v, []⟩, vc) := by
  simp [resolveShared, resolveVarContext, hp]

/-- Once the context is gone, the address is all that there is. -/
theorem resolveEach_of_not_pending (hp : vc.pending = false) (ctxs : List Varexpr_context) :
    resolveEach c bt v vc ctxs = some (List.replicate ctxs.length ⟨bt, v, []⟩) := by
  induction ctxs with
  | nil => rfl
  | cons ctx ctxs ih =>
    simp only [resolveEach, resolveShared_of_not_pending hp, Option.bind_eq_bind,
      Option.bind_some, ih]
    rfl

theorem resolveEach_of_handsOut (hp : vc.pending) (hr : vc.IsResolvable bt)
    (h : handsOutAddress vc ctx) (ctxs : List Varexpr_context) :
    resolveEach c bt v vc (ctx :: ctxs) =
      some (List.replicate (ctxs.length + 1) ⟨bt, v, []⟩) := by
  have hreset : vc.reset.pending = false := rfl
  simp only [resolveEach, resolveShared_of_handsOut hp hr h, Option.bind_eq_bind,
    Option.bind_some, resolveEach_of_not_pending hreset]
  rfl

/-! ## An address and what is loaded from it -/

/-- Some contents of memory are not the address that they are loaded from. -/
theorem exists_load_ne (t : LType) (a : BitVec 64) :
    ∃ memory, ∀ env : Env, env.memory = memory → env.load t a ≠ some (.pointer a) := by
  refine ⟨fun _ => if a = 0 then 1 else 0, fun env hmem h => ?_⟩
  cases t with
  | ptr t =>
    have hbyte : env.byte a = fun _ => if a = 0 then 1 else 0 := by
      funext i
      rw [Env.byte, hmem]
    have hsize : loadSize (ptr t) = 8 := by
      simp only [loadSize, allocSize, isSized, if_true, Option.getD_some, shape]
      rfl
    simp only [Env.load, hbyte, hsize, Option.some.injEq, Datum.pointer.injEq] at h
    by_cases ha : a = 0
    · subst ha
      exact absurd h (by decide)
    · rw [if_neg ha] at h
      exact ha (h.symm.trans (by decide))
  | int | float | double | fp128 => cases h
  | _ =>
    simp only [Env.load, Option.map_eq_some_iff] at h
    obtain ⟨k, -, hk⟩ := h
    cases hk

/-- A load of a reference goes through the address or a cast of it. -/
theorem loadFromExpr_value (loadType : Btype) :
    ∃ space, (loadFromExpr c bt v vc loadType).value = .load space ∧
      (space = v ∨ ∃ t, space = .bitcast v (ptr t)) := by
  unfold loadFromExpr
  cases c.loadConversion bt with
  | none => exact ⟨v, rfl, Or.inl rfl⟩
  | some tctyp =>
    refine ⟨_, rfl, ?_⟩
    unfold circularSpace
    dsimp only
    split_ifs
    · exact Or.inl rfl
    · exact Or.inr ⟨_, rfl⟩
    · exact Or.inr ⟨_, rfl⟩

theorem not_sameMeaning_load (haddr : ∃ env a, Env.eval env v = some (.pointer a)) :
    ¬SameMeaning ⟨bt, v, []⟩ (loadFromExpr c bt v vc bt) := by
  obtain ⟨env, a, ha⟩ := haddr
  obtain ⟨space, hvalue, hspace⟩ := @loadFromExpr_value c bt v vc bt
  obtain ⟨memory, hmem⟩ := exists_load_ne space.type.pointeeType a
  have hafter : (env.after v memory).eval v = some (.pointer a) :=
    (Env.eval_after le_rfl).trans ha
  have hunread : (env.after v memory).Unread v := Env.unread_after
  have hload : (env.after v memory).eval (.load space) =
      (env.after v memory).load space.type.pointeeType a := by
    rcases hspace with rfl | ⟨t, rfl⟩
    · exact Env.eval_load hafter hunread.load
    · exact Env.eval_load (Env.eval_bitcast hafter t) (hunread.load_bitcast _)
  intro hsame
  have := hsame (env.after v memory)
  rw [hvalue, hload, hafter] at this
  exact hmem _ rfl this.symm

/-! ## Sequences -/

theorem of_forall₂_replicate {α β : Type} {R : α → β → Prop} {a : α} {bs : List β}
    (h : List.Forall₂ R (List.replicate bs.length a) bs) : ∀ b ∈ bs, R a b := by
  induction bs with
  | nil => exact fun b hb => absurd hb List.not_mem_nil
  | cons b bs ih =>
    rw [List.length_cons, List.replicate_succ, List.forall₂_cons] at h
    intro b' hb'
    rcases List.mem_cons.mp hb' with rfl | hb'
    · exact h.1
    · exact ih h.2 b' hb'

theorem keepsMeaning_of_handsOut (hp : vc.pending) (hr : vc.IsResolvable bt)
    (h : ∀ ctx ∈ ctxs, handsOutAddress vc ctx) : KeepsMeaning c bt v vc ctxs := by
  refine ⟨List.replicate ctxs.length ⟨bt, v, []⟩, ?_, ?_⟩
  · cases ctxs with
    | nil => rfl
    | cons ctx ctxs => exact resolveEach_of_handsOut hp hr (h ctx List.mem_cons_self) ctxs
  · induction ctxs with
    | nil => exact .nil
    | cons ctx ctxs ih =>
      have hctx := h ctx List.mem_cons_self
      refine .cons ⟨_, resolveVarContext_of_handsOut hp hr hctx, fun _ => rfl⟩ ?_
      exact ih fun ctx' hmem => h ctx' (List.mem_cons_of_mem _ hmem)

/-- A resolution that loads leaves the rest of the sequence as it was. -/
theorem keepsMeaning_cons_of_load (hp : vc.pending) (hr : vc.IsResolvable bt)
    (h : handsOutAddress vc ctx = false) :
    KeepsMeaning c bt v vc (ctx :: ctxs) ↔ KeepsMeaning c bt v vc ctxs := by
  have hstep : resolveEach c bt v vc (ctx :: ctxs) =
      (resolveEach c bt v vc ctxs).map (loadFromExpr c bt v vc bt :: ·) := by
    simp only [resolveEach, resolveShared_of_load hp hr h, Option.bind_eq_bind,
      Option.bind_some]
    exact (Option.map_eq_bind ..).symm
  constructor
  · rintro ⟨rs, hrun, hall⟩
    obtain ⟨rs, hrest, rfl⟩ := Option.map_eq_some_iff.mp (hstep.symm.trans hrun)
    cases hall with
    | cons _ hall => exact ⟨rs, hrest, hall⟩
  · rintro ⟨rs, hrest, hall⟩
    refine ⟨_ :: rs, ?_, .cons ⟨_, resolveVarContext_of_load hp hr h, fun _ => rfl⟩ hall⟩
    rw [hstep, hrest, Option.map_some]

/-- After a resolution that hands out the address, all of them must. -/
theorem keepsMeaning_cons_of_handsOut (hp : vc.pending) (hr : vc.IsResolvable bt)
    (haddr : ∃ env a, Env.eval env v = some (.pointer a)) (h : handsOutAddress vc ctx) :
    KeepsMeaning c bt v vc (ctx :: ctxs) ↔ ∀ ctx' ∈ ctxs, handsOutAddress vc ctx' := by
  constructor
  · rintro ⟨rs, hrun, hall⟩ ctx' hmem
    rw [resolveEach_of_handsOut hp hr h] at hrun
    cases hrun
    rw [List.replicate_succ, List.forall₂_cons] at hall
    obtain ⟨r', hr', hsame⟩ := of_forall₂_replicate hall.2 ctx' hmem
    by_contra hload
    rw [resolveVarContext_of_load hp hr (Bool.eq_false_iff.mpr hload)] at hr'
    cases hr'
    exact not_sameMeaning_load haddr hsame
  · intro hall
    refine keepsMeaning_of_handsOut hp hr fun ctx' hmem => ?_
    rcases List.mem_cons.mp hmem with rfl | hmem
    · exact h
    · exact hall ctx' hmem

/-- Resolving a shared reference again and again keeps its meaning exactly when its address
is handed out in every context, or when it is never loaded from after its address was
handed out. -/
theorem keepsMeaning_iff (hp : vc.pending) (hr : vc.IsResolvable bt)
    (haddr : ∃ env a, Env.eval env v = some (.pointer a)) :
    KeepsMeaning c bt v vc ctxs ↔ vc.addrLevel = 1 ∨ vc.lvalue ∨
      ctxs.Pairwise fun earlier later => earlier = VE_lvalue → later = VE_lvalue := by
  by_cases hvc : vc.addrLevel = 1 ∨ vc.lvalue
  · refine iff_of_true (keepsMeaning_of_handsOut hp hr fun ctx _ => ?_) ?_
    · simp [handsOutAddress, hvc]
    · exact (or_assoc.mp (Or.inl hvc))
  -- the context alone decides, in a sequence read from the front
  have hctx : ∀ ctx, handsOutAddress vc ctx = decide (ctx = VE_lvalue) := by
    intro ctx
    rw [not_or] at hvc
    simp [handsOutAddress, hvc.1, hvc.2]
  rw [← or_assoc, or_iff_right hvc]
  induction ctxs with
  | nil => exact iff_of_true ⟨[], rfl, .nil⟩ .nil
  | cons ctx ctxs ih =>
    rw [List.pairwise_cons]
    cases ctx with
    | VE_rvalue =>
      refine (keepsMeaning_cons_of_load hp hr (hctx VE_rvalue)).trans (ih.trans ?_)
      exact (and_iff_right fun _ _ h => nomatch h).symm
    | VE_lvalue =>
      rw [keepsMeaning_cons_of_handsOut hp hr haddr (hctx VE_lvalue)]
      simp only [hctx, decide_eq_true_eq, true_imp_iff]
      refine ⟨fun h => ⟨h, ?_⟩, And.left⟩
      exact List.pairwise_of_forall_mem_list fun _ _ later hmem _ => h later hmem

/-- A variable that is read, and then addressed twice. -/
theorem keepsMeaning_read_first : KeepsMeaning noCircularPointers.toCircularTypes
    (.integer false 64) (.alloca 0 (int 64)) ⟨0, false, true⟩ [VE_rvalue, VE_lvalue, VE_lvalue] :=
  (keepsMeaning_iff rfl (Or.inl rfl) ⟨.const (.pointer 0), 0, rfl⟩).mpr
    (Or.inr (Or.inr (by decide)))

/-- A variable that is addressed, and then read: its address is what is read. -/
theorem not_keepsMeaning_read_last : ¬KeepsMeaning noCircularPointers.toCircularTypes
    (.integer false 64) (.alloca 0 (int 64)) ⟨0, false, true⟩ [VE_lvalue, VE_rvalue] := by
  rintro ⟨rs, hrun, hall⟩
  cases hrun
  cases hall with
  | cons _ hall =>
    cases hall with
    | cons hread _ =>
      obtain ⟨r', hr', hsame⟩ := hread
      cases hr'
      have heq : some (Datum.pointer 0) = some (Datum.int 64 65536) := hsame lowMemory
      cases heq

end Proofs

end Dragongo
