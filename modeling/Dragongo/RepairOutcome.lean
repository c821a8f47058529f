import Dragongo.SharingRepair

/-!
# What a repair comes to

`repair` edits the parents while it goes through the records, and stops at the first node that
must not be cloned.  When a success means that nothing is shared any more, and a failure that
nothing has been changed.
-/

namespace Dragongo
namespace Backend
open Relation Acyclic

/-! ## Trees that can be cloned -/

/-- Only nodes of the flavors that may be cloned are below the node. -/
def Repairable (be : Backend) (c : BnodeRef) : Prop :=
  ∀ y n, ReflTransGen be.Child c y → be.node y = some n → acceptable n.flavor

/-- The nodes that may be cloned have expressions as children. -/
def ExprKids (be : Backend) (x : BnodeRef) : Prop :=
  ∀ y n, ReflTransGen be.Child x y → be.node y = some n → acceptable n.flavor →
    ∀ c ∈ n.kids, ∀ m, be.node c = some m → m.isExpr

section Repairable
variable {be be' : Backend} {x c c' : BnodeRef}

theorem isExpr_of_acceptable {n : Bnode} (h : acceptable n.flavor) : n.isExpr := by
  unfold Bnode.isExpr
  revert h
  generalize n.flavor = flavor
  cases flavor <;> decide

theorem Alike.reach (h : Alike be be' c c') {y : BnodeRef} (hy : ReflTransGen be.Child c y) :
    ∃ y', ReflTransGen be'.Child c' y' ∧ Alike be be' y y' := by
  induction hy with
  | refl => exact ⟨c', .refl, h⟩
  | tail _ hchild ih =>
    obtain ⟨y', hy', halike⟩ := ih
    obtain ⟨m, hm, hmem⟩ := hchild
    cases halike with
    | node hn hn' hlike hkids =>
      obtain rfl := Option.some.inj (hm.symm.trans hn)
      obtain ⟨i, hi⟩ := List.getElem?_of_mem hmem
      have hlt := (List.getElem?_eq_some_iff.mp hi).1
      rw [← hlike.kids] at hlt
      exact ⟨_, hy'.tail ⟨_, hn', List.getElem_mem hlt⟩,
        hkids i _ _ hi (List.getElem?_eq_getElem hlt)⟩

theorem Alike.symm (h : Alike be be' c c') : Alike be' be c' c := by
  induction h with
  | node hn hn' hlike _ ih =>
    exact .node hn' hn hlike.symm fun i c c' hi hi' => ih i c' c hi' hi

theorem Alike.repairable (h : Alike be be' c c') (hr : be.Repairable c) : be'.Repairable c' := by
  intro y' n' hy' hn'
  obtain ⟨y, hy, halike⟩ := h.symm.reach hy'
  obtain ⟨m', m, hm', hm, hlike⟩ := halike.exists_node
  obtain rfl := Option.some.inj (hn'.symm.trans hm')
  rw [← hlike.flavor]
  exact hr y m hy hm

theorem pushChildren_cons (visited work : List BnodeRef) (k : BnodeRef) (kids : List BnodeRef) :
    pushChildren visited work (k :: kids) = if k ∈ visited then pushChildren visited work kids
      else pushChildren (k :: visited) (k :: work) kids := by
  unfold pushChildren
  by_cases hk : k ∈ visited
  · simp only [List.foldl_cons, if_pos hk]
  · simp only [List.foldl_cons, if_neg hk]

/-- What is new among the children gets on the list of visited nodes and on the work list. -/
theorem pushChildren_spec (kids : List BnodeRef) {visited work : List BnodeRef}
    (hnodup : visited.Nodup) : ∃ new,
      pushChildren visited work kids = (new ++ visited, new ++ work) ∧ (new ++ visited).Nodup ∧
        (∀ c ∈ new, c ∈ kids) ∧ ∀ c ∈ kids, c ∈ new ++ visited := by
  induction kids generalizing visited work with
  | nil => exact ⟨[], rfl, hnodup, fun c hc => hc, fun c hc => nomatch hc⟩
  | cons k kids ih =>
    rw [pushChildren_cons]
    split_ifs with hk
    · obtain ⟨new, hpush, hnew, hmem, hall⟩ := @ih visited work hnodup
      refine ⟨new, hpush, hnew, fun c hc => List.mem_cons_of_mem _ (hmem c hc), fun c hc => ?_⟩
      rcases List.mem_cons.mp hc with rfl | hc
      · exact List.mem_append_right _ hk
      · exact hall c hc
    · obtain ⟨new, hpush, hnew, hmem, hall⟩ :=
        @ih (k :: visited) (k :: work) (List.nodup_cons.mpr ⟨hk, hnodup⟩)
      refine ⟨new ++ [k], ?_, ?_, fun c hc => ?_, fun c hc => ?_⟩
      · rw [hpush, List.append_assoc, List.append_assoc]
        rfl
      · rwa [List.append_assoc]
      · rcases List.mem_append.mp hc with hc | hc
        · exact List.mem_cons_of_mem _ (hmem c hc)
        · rw [List.mem_singleton.mp hc]
          exact List.mem_cons_self ..
      · rw [List.append_assoc]
        rcases List.mem_cons.mp hc with rfl | hc
        · exact List.mem_append_right _ (List.mem_cons_self ..)
        · exact hall c hc

theorem mapM_node_isExpr : ∀ {kids : List BnodeRef},
    (∀ c ∈ kids, ∃ m, be.node c = some m ∧ m.isExpr) →
    ∃ nodes, kids.mapM be.node = some nodes ∧ nodes.all Bnode.isExpr
  | [], _ => ⟨[], rfl, rfl⟩
  | c :: kids, h => by
    obtain ⟨m, hm, hexpr⟩ := h c (List.mem_cons_self ..)
    obtain ⟨nodes, hnodes, hall⟩ := mapM_node_isExpr fun d hd => h d (List.mem_cons_of_mem _ hd)
    refine ⟨m :: nodes, ?_, ?_⟩
    · rw [List.mapM_cons, hm, hnodes]
      rfl
    · rw [List.all_cons, hexpr, hall]
      rfl

/-- The nodes that have been taken off the work list may be cloned, and their children are
visited. -/
theorem repairableFrom_eq (hg : be.Graph x) (hexprs : be.ExprKids x) {S : Finset BnodeRef}
    (hS : ∀ y, ReflTransGen be.Child x y → y ∈ S) : ∀ (fuel : ℕ) {visited work : List BnodeRef},
    visited.Nodup → x ∈ visited → (∀ y ∈ visited, ReflTransGen be.Child x y) →
    (∀ y ∈ work, y ∈ visited) →
    (∀ y ∈ visited, y ∉ work → ∀ n, be.node y = some n → acceptable n.flavor ∧
      ∀ c ∈ n.kids, c ∈ visited) →
    S.card + work.length ≤ fuel + visited.length →
    ∃ b, be.repairableFrom fuel visited work = some b ∧ (b = true ↔ be.Repairable x)
  | fuel, visited, [], _, hx, _, _, hdone, _ => by
    have hclosed : ∀ y, ReflTransGen be.Child x y → y ∈ visited := by
      intro y hy
      induction hy with
      | refl => exact hx
      | tail _ hchild ih =>
        obtain ⟨n, hn, hc⟩ := hchild
        exact (hdone _ ih List.not_mem_nil n hn).2 _ hc
    refine ⟨true, by unfold repairableFrom; rfl, iff_of_true rfl fun y n hy hn => ?_⟩
    exact (hdone y (hclosed y hy) List.not_mem_nil n hn).1
  | 0, visited, y :: work, hnodup, _, hreach, _, _, hfuel => by
    have hle : visited.length ≤ S.card := by
      rw [← List.toFinset_card_of_nodup hnodup]
      exact Finset.card_le_card fun z hz => hS z (hreach z (List.mem_toFinset.mp hz))
    rw [List.length_cons] at hfuel
    omega
  | fuel + 1, visited, y :: work, hnodup, hx, hreach, hwork, hdone, hfuel => by
    have hy := hreach y (hwork y (List.mem_cons_self ..))
    obtain ⟨n, hn⟩ := Option.isSome_iff_exists.mp (hg.live y hy)
    rw [repairableFrom, hn, Option.bind_eq_bind, Option.bind_some]
    by_cases hacceptable : acceptable n.flavor
    · obtain ⟨nodes, hnodes, hall⟩ := @mapM_node_isExpr be n.kids fun c hc => by
        obtain ⟨m, hm⟩ := Option.isSome_iff_exists.mp (hg.live c (hy.tail ⟨n, hn, hc⟩))
        exact ⟨m, hm, hexprs y n hy hn hacceptable c hc m hm⟩
      obtain ⟨new, hpush, hnew, hmem, hkids⟩ := @pushChildren_spec n.kids visited work hnodup
      rw [if_pos hacceptable, hnodes, Option.bind_eq_bind, Option.bind_some, if_pos hall, hpush]
      refine repairableFrom_eq hg hexprs hS fuel hnew (List.mem_append_right _ hx) ?_ ?_ ?_ ?_
      · intro z hz
        rcases List.mem_append.mp hz with hz | hz
        · exact hy.tail ⟨n, hn, hmem z hz⟩
        · exact hreach z hz
      · intro z hz
        rcases List.mem_append.mp hz with hz | hz
        · exact List.mem_append_left _ hz
        · exact List.mem_append_right _ (hwork z (List.mem_cons_of_mem _ hz))
      · intro z hz hout m hm
        rw [List.mem_append, not_or] at hout
        have hzold := (List.mem_append.mp hz).resolve_left hout.1
        by_cases hzy : z = y
        · subst hzy
          obtain rfl := Option.some.inj (hn.symm.trans hm)
          exact ⟨hacceptable, hkids⟩
        · have hold := hdone z hzold (fun h => (List.mem_cons.mp h).elim hzy hout.2) m hm
          exact ⟨hold.1, fun c hc => List.mem_append_right _ (hold.2 c hc)⟩
      · rw [List.length_append, List.length_append]
        rw [List.length_cons] at hfuel
        omega
    · rw [if_neg hacceptable]
      exact ⟨false, rfl, iff_of_false Bool.false_ne_true fun h => hacceptable (h y n hy hn)⟩

theorem repairableSubTree_eq (ha : be.Allocated) (hg : be.Graph x) (hexprs : be.ExprKids x) :
    ∃ b, be.repairableSubTree x = some b ∧ (b = true ↔ be.Repairable x) := by
  obtain ⟨S, hcard, hbelow⟩ := hg.below ha
  refine repairableFrom_eq hg hexprs hbelow.inside _ (List.nodup_singleton x)
    (List.mem_singleton_self x) ?_ (fun y hy => hy) (fun y hy hout => (hout hy).elim) ?_
  · intro y hy
    rw [List.mem_singleton.mp hy]
  · rw [List.length_singleton]
    omega

end Repairable

/-! ## The records that are repaired -/

section Progress
variable {be₀ be be' : Backend} {x : BnodeRef} {replaced : BnodeRef × ℕ → Prop}

theorem Adds.fresh (h : Adds be be') (hfresh : be.Fresh) : be'.Fresh := by
  intro k hk
  obtain ⟨hdead, hinj⟩ := hfresh k (h.allocated.trans hk)
  rw [h.malloc]
  refine ⟨?_, fun k' hk' => hinj k' (h.allocated.trans hk')⟩
  rw [← Option.not_isSome_iff_eq_none] at hdead ⊢
  intro hlive
  rcases h.new _ hlive with hold | ⟨k', hle, hlt, heq⟩
  · exact hdead hold
  · exact absurd (hinj k' hle heq.symm) (hlt.trans_le hk).ne'

theorem update_fresh (h : be.Fresh) (y : BnodeRef) (f : Bnode → Bnode) : (be.update y f).Fresh := by
  intro k hk
  obtain ⟨hdead, hinj⟩ := h k hk
  refine ⟨?_, hinj⟩
  change (be.update y f).node (be.malloc k) = none
  by_cases hy : be.malloc k = y
  · rw [← hy, node_update_self, hdead]
    rfl
  · rw [node_update_ne be hy, hdead]

theorem nodup_of_index {l : List InstRef}
    (h : ∀ (i j : ℕ) (a : InstRef), l[i]? = some a → l[j]? = some a → i = j) : l.Nodup := by
  rw [List.nodup_iff_getElem?_ne_getElem?]
  intro i j hij hj heq
  have hj' := List.getElem?_eq_getElem hj
  exact hij.ne (h i j _ (heq.trans hj') hj')

/-- A node that may be cloned is the root of a tree that can be cloned. -/
theorem Repairing.copyTree (h : Repairing be₀ be x replaced) (ha : be₀.Allocated)
    (hg : be₀.Graph x) (hexecuted : be₀.Executed x) {c : BnodeRef}
    (hc : ReflTransGen be₀.Child x c) (hr : be₀.Repairable c) (honce : be₀.ValueOnce c) :
    be.CopyTree c := by
  have hold : ∀ {y n' n}, ReflTransGen be.Child c y → be.node y = some n' →
      be₀.node y = some n → ReflTransGen be₀.Child c y ∧ n'.instructions = n.instructions ∧
        n'.value = n.value := by
    intro y n' n hy hn' hn
    have hreach : ReflTransGen be₀.Child c y := ReflTransGen.mono (fun _ _ => KeptChild.child) _ _
      (h.kept_of_reach hg (.inl hc) hy (by rw [hn]; rfl))
    obtain ⟨kids, hkids, -⟩ := h.old y n (hc.trans hreach) hn
    obtain rfl := Option.some.inj (hn'.symm.trans hkids)
    exact ⟨hreach, rfl, rfl⟩
  refine ⟨h.graph hg (.inl hc), fun y n hy hn => ?_, fun y n' i hy hn' hi => ?_,
    fun y n' hy hn' i hi => ?_⟩
  · exact isExpr_of_acceptable ((h.alike ha hg hc).repairable hr y n hy hn)
  · cases hn : be₀.node y with
    | some n =>
      obtain ⟨hreach, hinsts, hvalue⟩ := hold hy hn' hn
      rw [hinsts]
      exact honce y n i hreach hn (hvalue.symm.trans hi)
    | none =>
      -- a clone has its instructions once
      refine List.nodup_iff_count_le_one.mp (nodup_of_index fun j k a hj hk => ?_) i
      have hsame := h.inst (a, y, j) (a, y, k) ⟨n', hn', hn, hj⟩ ⟨n', hn', hn, hk⟩ rfl
      exact (Prod.mk.inj (Prod.mk.inj hsame).2).2
  · cases hn : be₀.node y with
    | some n =>
      obtain ⟨hreach, hinsts, -⟩ := hold hy hn' hn
      exact (hexecuted y n (hc.trans hreach) hn i (hinsts ▸ hi)).trans_le h.length
    | none => exact (h.insts y n' hn' hn i hi).2

/-- A path goes on through slots that are kept, or comes through the child in another one. -/
theorem kept_or_replaced {c y : BnodeRef} (hy : ReflTransGen be₀.Child c y) :
    ReflTransGen (be₀.KeptChild replaced) c y ∨ ∃ p i n d, ReflTransGen be₀.Child c p ∧
      replaced (p, i) ∧ be₀.node p = some n ∧ n.kids[i]? = some d ∧
        ReflTransGen be₀.Child d y := by
  induction hy with
  | refl => exact .inl .refl
  | @tail z w hz hchild ih =>
    rcases ih with hkept | ⟨p, i, n, d, hp, hreplaced, hn, hi, hd⟩
    · obtain ⟨n, hn, hmem⟩ := hchild
      obtain ⟨i, hi⟩ := List.getElem?_of_mem hmem
      by_cases hreplaced : replaced (z, i)
      · exact .inr ⟨z, i, n, w, hz, hreplaced, hn, hi, .refl⟩
      · exact .inl (hkept.tail ⟨n, i, hn, hi, hreplaced⟩)
    · exact .inr ⟨p, i, n, d, hp, hreplaced, hn, hi, hd.tail hchild⟩

/-- What can be cloned now could be cloned at first. -/
theorem Repairing.valueOnce (h : Repairing be₀ be x replaced) {c : BnodeRef}
    (hc : ReflTransGen be₀.Child x c) (honce : be.ValueOnce c)
    (hreplaced : ∀ p i n d, replaced (p, i) → be₀.node p = some n → n.kids[i]? = some d →
      be₀.ValueOnce d) : be₀.ValueOnce c := by
  intro y n i hy hn hi
  rcases kept_or_replaced hy with hkept | ⟨p, j, m, d, -, hrep, hm, hj, hd⟩
  · obtain ⟨kids, hkids, -⟩ := h.old y n (hc.trans hy) hn
    exact honce y { n with kids } i (h.reach_of_kept hc hkept) hkids hi
  · exact hreplaced p j m d hrep hm hj y n i hd hn hi

theorem Repairing.exprKids (h : Repairing be₀ be x replaced) (ha : be₀.Allocated)
    (hg : be₀.Graph x) (hexprs : be₀.ExprKids x) {c : BnodeRef} (hc : ReflTransGen be₀.Child x c) :
    be.ExprKids c := by
  intro y' n' hy' hn' hacceptable d' hd' m' hm'
  obtain ⟨y, hy, halike⟩ := (h.alike ha hg hc).symm.reach hy'
  cases halike with
  | node hm hn hlike hkids =>
    obtain rfl := Option.some.inj (hn'.symm.trans hm)
    obtain ⟨i, hi⟩ := List.getElem?_of_mem hd'
    have hlt := (List.getElem?_eq_some_iff.mp hi).1
    rw [← hlike.kids] at hlt
    obtain ⟨k', k, hk', hk, hlike'⟩ :=
      (hkids i d' _ hi (List.getElem?_eq_getElem hlt)).exists_node
    obtain rfl := Option.some.inj (hm'.symm.trans hk')
    have hexpr := hexprs y _ (hc.trans hy) hn (hlike.flavor ▸ hacceptable) _
      (List.getElem_mem hlt) k hk
    unfold Bnode.isExpr at hexpr ⊢
    rwa [← hlike'.flavor]

/-- A graph that the builder can have made: instructions are there, the nodes that may be cloned
have expressions as children, and where an expression is among the children of a node, the check of
new nodes has come to the end of them. -/
structure BuiltGraph (be : Backend) (x : BnodeRef) : Prop extends be.Graph x where
  executed : be.Executed x
  exprKids : be.ExprKids x
  slots : ∀ y n, ReflTransGen be.Child x y → be.node y = some n →
    (∃ c ∈ n.kids, be.exprAt c) → n.kids.length ≤ 2 ^ 32

/-- The node is cloned by a repair. -/
def Repairs (be : Backend) (c : BnodeRef) : Prop := be.Repairable c ∧ be.ValueOnce c

theorem Repairable.exprAt (hr : be₀.Repairable x) (hlive : (be₀.node x).isSome) :
    be₀.exprAt x = true := by
  obtain ⟨n, hn⟩ := Option.isSome_iff_exists.mp hlive
  rw [Backend.exprAt, hn]
  exact isExpr_of_acceptable (hr x n .refl hn)

/-- A record of an expression that is below the root. -/
structure Record (be : Backend) (x : BnodeRef) (a : Place) : Prop where
  reach : ReflTransGen be.Child x a.1
  parent : be.exprAt a.1 → ReflTransGen be.Child x a.2.1 ∧
    ∃ n, be.node a.2.1 = some n ∧ n.kids[a.2.2]? = some a.1

/-- The repair of a list of records: all of them, or those before one whose node must not be
cloned, or none at all if there is one before that cannot be. -/
inductive Outcome (be₀ be : Backend) (x : BnodeRef) (replaced : BnodeRef × ℕ → Prop)
    (sharing : List Place) : Option (Bool × Backend) → Prop
  | repaired {be' : Backend} (hall : ∀ a ∈ sharing, be₀.Repairs a.1)
      (h : Repairing be₀ be' x fun q => replaced q ∨ ∃ c, (c, q) ∈ sharing) :
      Outcome be₀ be x replaced sharing (some (true, be'))
  | failed {be' : Backend} {done rest : List Place} {b : Place}
      (hsplit : sharing = done ++ b :: rest) (hdone : ∀ a ∈ done, be₀.Repairs a.1)
      (hexpr : be₀.exprAt b.1) (hb : ¬be₀.Repairable b.1) (hsame : done = [] → be' = be)
      (h : Repairing be₀ be' x fun q => replaced q ∨ ∃ c, (c, q) ∈ done) :
      Outcome be₀ be x replaced sharing (some (false, be'))
  | crashed {done rest : List Place} {b : Place} (hsplit : sharing = done ++ b :: rest)
      (hdone : ∀ a ∈ done, be₀.Repairs a.1) (hb : be₀.exprAt b.1 → be₀.Repairable b.1)
      (hnot : ¬be₀.Repairs b.1) : Outcome be₀ be x replaced sharing none

theorem Outcome.cons {be₁ be₂ : Backend} {child parent : BnodeRef} {slot : ℕ}
    {sharing : List Place} {res : Option (Bool × Backend)} (hchild : be₀.Repairs child)
    (h : Outcome be₀ be₂ x (fun q => replaced q ∨ q = (parent, slot)) sharing res) :
    Outcome be₀ be₁ x replaced ((child, parent, slot) :: sharing) res := by
  cases h with
  | repaired hall h =>
    refine .repaired (fun a ha => ?_) h.cons
    rcases List.mem_cons.mp ha with rfl | ha
    · exact hchild
    · exact hall a ha
  | @failed _ done rest b hsplit hdone hexpr hb hsame h =>
    have hsplit' : (child, parent, slot) :: sharing =
        ((child, parent, slot) :: done) ++ b :: rest := by
      rw [hsplit, List.cons_append]
    refine .failed hsplit'
      (fun a ha => ?_) hexpr hb (fun hnil => absurd hnil (List.cons_ne_nil _ _)) h.cons
    rcases List.mem_cons.mp ha with rfl | ha
    · exact hchild
    · exact hdone a ha
  | @crashed done rest b hsplit hdone hb hnot =>
    have hsplit' : (child, parent, slot) :: sharing =
        ((child, parent, slot) :: done) ++ b :: rest := by
      rw [hsplit, List.cons_append]
    refine .crashed hsplit'
      (fun a ha => ?_) hb hnot
    rcases List.mem_cons.mp ha with rfl | ha
    · exact hchild
    · exact hdone a ha

/-- Records are repaired until one is met whose node is not cloned. -/
theorem repair_outcome (ha : be₀.Allocated) (hg : be₀.BuiltGraph x) {visited : List BnodeRef}
    {sharing : List Place} (h : Repairing be₀ be x replaced) (hallocated : be.Allocated)
    (hfresh : be.Fresh) (hrecords : ∀ a ∈ sharing, be₀.Record x a)
    (hreplaced : ∀ p i n d, replaced (p, i) → be₀.node p = some n → n.kids[i]? = some d →
      be₀.ValueOnce d)
    (hvisited : ∀ c ∈ visited, be₀.Repairable c) :
    Outcome be₀ be x replaced sharing (be.repair visited sharing) := by
  induction sharing generalizing be visited replaced with
  | nil => exact .repaired (fun a ha => nomatch ha) (by simpa using h)
  | cons place sharing ih =>
    obtain ⟨child, parent, slot⟩ := place
    have hrecord := hrecords _ (List.mem_cons_self ..)
    have hchild : ReflTransGen be₀.Child x child := hrecord.reach
    obtain ⟨n, hn⟩ := Option.isSome_iff_exists.mp (hg.live child hchild)
    obtain ⟨kids, hkids, -⟩ := h.old child n hchild hn
    by_cases hexpr : n.isExpr
    case neg =>
      -- a statement fails the assertion
      have hnone : be.repair visited ((child, parent, slot) :: sharing) = none := by
        have hexpr' : ¬({ n with kids } : Bnode).isExpr := hexpr
        rw [repair, hkids, Option.bind_eq_bind, Option.bind_some, if_neg hexpr']
      have hnot : ¬be₀.exprAt child := by
        rw [exprAt, hn]
        exact hexpr
      rw [hnone]
      refine .crashed (List.nil_append _).symm (fun a ha => nomatch ha)
        (fun h => (hnot h).elim) ?_
      exact fun hr => hnot (hr.1.exprAt (by rw [hn]; rfl))
    have hexprAt : be₀.exprAt child = true := by
      rw [exprAt, hn]
      exact hexpr
    obtain ⟨hparent, p, hp, hslot⟩ := hrecord.parent hexprAt
    have hsame := h.alike ha hg.toGraph hchild
    have hrepairable : ∃ b, be.repairable visited child = some b ∧
        (b = true ↔ be₀.Repairable child) := by
      unfold repairable
      split_ifs with hmem
      · exact ⟨true, rfl, iff_of_true rfl (hvisited child hmem)⟩
      · obtain ⟨b, hb, hiff⟩ := repairableSubTree_eq hallocated (h.graph hg.toGraph (.inl hchild))
          (h.exprKids ha hg.toGraph hg.exprKids hchild)
        exact ⟨b, hb, hiff.trans ⟨hsame.symm.repairable, hsame.repairable⟩⟩
    obtain ⟨b, hb, hiff⟩ := hrepairable
    have hunfold : be.repair visited ((child, parent, slot) :: sharing) =
        if b then (be.cloneSubtree child).bind fun r =>
          (r.2.replaceChild parent slot r.1).bind fun be => be.repair (child :: visited) sharing
        else some (false, be) := by
      have hexpr' : ({ n with kids } : Bnode).isExpr := hexpr
      rw [repair, hkids, Option.bind_eq_bind, Option.bind_some, if_pos hexpr', hb]
      rfl
    rw [hunfold]
    cases b with
    | false =>
      refine .failed (List.nil_append _).symm (fun a ha => nomatch ha) hexprAt
        (fun hr => Bool.false_ne_true (hiff.mpr hr)) (fun _ => rfl) ?_
      simpa using h
    | true =>
      rw [if_pos rfl]
      have hr := hiff.mp rfl
      by_cases honce : be₀.ValueOnce child
      case neg =>
        -- the value is twice among the instructions of a node, and the clone fails on it
        have hnone : be.cloneSubtree child = none := by
          rw [← Option.not_isSome_iff_eq_none]
          intro hsome
          obtain ⟨⟨res, be'⟩, hclone⟩ := Option.isSome_iff_exists.mp hsome
          exact honce (h.valueOnce hchild
            (cloneSub_valueOnce (h.sound hg.toGraph (.inl hchild)) hclone) hreplaced)
        rw [hnone]
        exact .crashed (List.nil_append _).symm (fun a ha => nomatch ha) (fun _ => hr)
          fun hrepairs => honce hrepairs.2
      obtain ⟨clone, be₁, hclone, hadds, -⟩ := cloneSubtree_cloned hallocated hfresh
        (h.copyTree ha hg.toGraph hg.executed hchild hr honce)
      obtain ⟨hgrown, halike⟩ := cloneSub_grown (h.sound hg.toGraph (.inl hchild)) hclone
      obtain ⟨kids', hkids', hlength', -⟩ := h.old parent p hparent hp
      have hlt : slot < kids'.length := by
        rw [hlength']
        exact (List.getElem?_eq_some_iff.mp hslot).1
      have hreplace : be₁.replaceChild parent slot clone = some (be₁.update parent fun n =>
          { n with kids := n.kids.set slot clone }) := by
        rw [replaceChild, hadds.node hkids', Option.bind_eq_bind, Option.bind_some, if_pos hlt]
      rw [hclone, Option.bind_some, hreplace, Option.bind_some]
      refine .cons ⟨hr, honce⟩ (ih (h.step ha hg.toGraph hparent hp hslot hgrown halike hreplace)
        (((cloneSub_allocates hclone).trans (update_allocates ..)).allocated_of hallocated)
        (update_fresh (hadds.fresh hfresh) parent _)
        (fun a ha => hrecords a (List.mem_cons_of_mem _ ha)) ?_ fun c hc => ?_)
      · rintro q i m d (hrep | heq) hm hi
        · exact hreplaced q i m d hrep hm hi
        · obtain ⟨rfl, rfl⟩ := Prod.mk.inj heq
          obtain rfl := Option.some.inj (hp.symm.trans hm)
          obtain rfl := Option.some.inj (hslot.symm.trans hi)
          exact honce
      · exact (List.mem_cons.mp hc).elim (fun heq => heq ▸ hr) (hvisited c)

end Progress

/-! ## What an examination comes to -/

section Examine
variable {be be' : Backend} {x : BnodeRef} {ctl : TreeIntegCtl}

/-- The records of the walk are of expressions and statements below the root. -/
theorem BuiltGraph.records (hg : be.BuiltGraph x) (ha : be.Allocated) :
    ∀ a ∈ metAgain (be.walked ctl x), be.Record x a := by
  intro a hmem
  obtain ⟨j, ⟨hreach, -, n, hn, hj⟩, hslot⟩ :=
    (mem_walked_iff ha hg.toGraph a).mp (mem_of_mem_metAgain hmem)
  refine ⟨hreach.tail ⟨n, hn, List.mem_of_getElem? hj⟩, fun hexpr => ⟨hreach, n, hn, ?_⟩⟩
  have hlength := hg.slots _ n hreach hn ⟨a.1, List.mem_of_getElem? hj, hexpr⟩
  have hlt := (List.getElem?_eq_some_iff.mp hj).1
  rw [← hslot, Nat.mod_eq_of_lt (hlt.trans_le hlength), hj]

/-- An examination with repair fails, does nothing, or repairs. -/
theorem examine_repair (ha : be.Allocated) (hfresh : be.Fresh) (hg : be.BuiltGraph x)
    (varDisp : CkTreeVarDisp) :
    (¬(2 ^ 32 ∣ be.instsMetAgain x ∧ 2 ^ 32 ∣ be.stmtsMetAgain ⟨varDisp, .repairSharing⟩ x) →
      be.examine ⟨varDisp, .repairSharing⟩ x = some (false, be)) ∧
    (2 ^ 32 ∣ be.instsMetAgain x → 2 ^ 32 ∣ be.stmtsMetAgain ⟨varDisp, .repairSharing⟩ x →
      (2 ^ 32 ∣ be.exprsMetAgain ⟨varDisp, .repairSharing⟩ x →
        be.examine ⟨varDisp, .repairSharing⟩ x = some (true, be)) ∧
      (¬2 ^ 32 ∣ be.exprsMetAgain ⟨varDisp, .repairSharing⟩ x →
        Outcome be be x (fun _ => False) (metAgain (be.walked ⟨varDisp, .repairSharing⟩ x))
          (be.examine ⟨varDisp, .repairSharing⟩ x))) := by
  obtain ⟨iv, hvisit, hsharing, hinsts, hstmts, hexprs⟩ :=
    visit_counts ha hg.toGraph ⟨varDisp, .repairSharing⟩
  have hexamine : be.examine ⟨varDisp, .repairSharing⟩ x =
      if iv.instShareCount ≠ 0 ∨ iv.stmtShareCount ≠ 0 then some (false, be)
      else if iv.exprShareCount = 0 then some (true, be)
      else be.repair [] iv.sharing := by
    rw [examine, hvisit]
    rfl
  rw [← hinsts, ← hstmts, ← hexprs, hexamine, hsharing]
  refine ⟨fun hbad => if_pos ?_, fun hinst hstmt => ?_⟩
  · rwa [not_and_or] at hbad
  · rw [if_neg (by simp [hinst, hstmt])]
    refine ⟨fun hzero => if_pos hzero, fun hzero => ?_⟩
    rw [if_neg hzero]
    exact repair_outcome ha hg (.refl hg.toGraph) ha hfresh (hg.records ha)
      (fun _ _ _ _ hfalse => hfalse.elim) fun c hc => absurd hc List.not_mem_nil

/-- A failed repair has changed nothing, exactly if it has come to an unrepairable expression at
once, or has not come to one. -/
theorem failed_repair_unchanged_iff (ha : be.Allocated) (hfresh : be.Fresh) (hg : be.BuiltGraph x)
    (varDisp : CkTreeVarDisp) :
    (∀ be', be.examine ⟨varDisp, .repairSharing⟩ x = some (false, be') →
      ∀ y, ReflTransGen be.Child x y → (be'.node y).map Bnode.kids = (be.node y).map Bnode.kids) ↔
    ¬2 ^ 32 ∣ be.instsMetAgain x ∨ ¬2 ^ 32 ∣ be.stmtsMetAgain ⟨varDisp, .repairSharing⟩ x ∨
    2 ^ 32 ∣ be.exprsMetAgain ⟨varDisp, .repairSharing⟩ x ∨
    ¬∃ a done b rest,
      metAgain (be.walked ⟨varDisp, .repairSharing⟩ x) = a :: done ++ b :: rest ∧
        (∀ c ∈ a :: done, be.Repairs c.1) ∧ be.exprAt b.1 ∧ ¬be.Repairable b.1 := by
  obtain ⟨hfails, hgoes⟩ := examine_repair ha hfresh hg varDisp
  have hsame : be.examine ⟨varDisp, .repairSharing⟩ x = some (false, be) →
      ∀ be', be.examine ⟨varDisp, .repairSharing⟩ x = some (false, be') →
      ∀ y, ReflTransGen be.Child x y →
        (be'.node y).map Bnode.kids = (be.node y).map Bnode.kids := by
    intro h be' h' y _
    obtain ⟨-, rfl⟩ := Prod.mk.inj (Option.some.inj (h.symm.trans h'))
    rfl
  by_cases hinst : 2 ^ 32 ∣ be.instsMetAgain x
  case neg => exact iff_of_true (hsame (hfails fun hboth => hinst hboth.1)) (.inl hinst)
  by_cases hstmt : 2 ^ 32 ∣ be.stmtsMetAgain ⟨varDisp, .repairSharing⟩ x
  case neg => exact iff_of_true (hsame (hfails fun hboth => hstmt hboth.2)) (.inr (.inl hstmt))
  obtain ⟨hzero, hrepair⟩ := hgoes hinst hstmt
  by_cases hexpr : 2 ^ 32 ∣ be.exprsMetAgain ⟨varDisp, .repairSharing⟩ x
  case pos =>
    refine iff_of_true (fun be' h => ?_) (.inr (.inr (.inl hexpr)))
    rw [hzero hexpr] at h
    cases h
  rw [or_iff_right (not_not.mpr hinst), or_iff_right (not_not.mpr hstmt), or_iff_right hexpr]
  -- where a record fails, those before it can be repaired
  have hfirst : ∀ {a b : Place} {done rest done' rest' : List Place} {b' : Place},
      a :: done ++ b :: rest = done' ++ b' :: rest' → (∀ c ∈ a :: done, be.Repairs c.1) →
      ¬be.Repairs b.1 → (∀ c ∈ done', be.Repairs c.1) → ¬be.Repairs b'.1 →
      done' = a :: done ∧ b' = b := by
    intro a b done rest done' rest' b' heq hdone hb hdone' hb'
    rcases List.append_eq_append_iff.mp heq with ⟨more, hmore, hrest⟩ | ⟨more, hmore, hrest⟩
    · cases more with
      | nil => exact ⟨by rw [hmore, List.append_nil], (List.cons.inj hrest).1.symm⟩
      | cons c more =>
        obtain ⟨rfl, -⟩ := List.cons.inj hrest
        refine (hb (hdone' b ?_)).elim
        rw [hmore]
        exact List.mem_append_right _ (List.mem_cons_self ..)
    · cases more with
      | nil =>
        rw [List.append_nil] at hmore
        exact ⟨hmore.symm, (List.cons.inj hrest).1⟩
      | cons c more =>
        obtain ⟨rfl, -⟩ := List.cons.inj hrest
        refine (hb' (hdone b' ?_)).elim
        rw [hmore]
        exact List.mem_append_right _ (List.mem_cons_self ..)
  have houtcome := hrepair hexpr
  generalize hres : be.examine ⟨varDisp, .repairSharing⟩ x = res at houtcome hsame
  cases houtcome with
  | @repaired be' hall h =>
    refine iff_of_true (fun be'' heq => ?_) ?_
    · cases heq
    · rintro ⟨a, done, b, rest, hsplit, -, -, hb⟩
      refine hb (hall b ?_).1
      rw [hsplit]
      exact List.mem_append_right _ (List.mem_cons_self ..)
  | @crashed done' rest' b' hsplit' hdone' hb' hnot' =>
    refine iff_of_true (fun be'' heq => ?_) ?_
    · cases heq
    · rintro ⟨a, done, b, rest, hsplit, hdone, hexprAt, hb⟩
      obtain ⟨-, rfl⟩ := hfirst (hsplit.symm.trans hsplit') hdone (fun hr => hb hr.1) hdone' hnot'
      exact hb (hb' hexprAt)
  | @failed be' done' rest' b' hsplit' hdone' hexprAt' hb' hunchanged h =>
    cases done' with
    | nil =>
      obtain rfl := hunchanged rfl
      refine iff_of_true (hsame rfl) ?_
      rintro ⟨a, done, b, rest, hsplit, hdone, -, hb⟩
      obtain ⟨hnil, -⟩ := hfirst (hsplit.symm.trans hsplit') hdone (fun hr => hb hr.1) hdone'
        fun hr => hb' hr.1
      exact (List.cons_ne_nil _ _ hnil.symm).elim
    | cons a done' =>
      refine iff_of_false (fun hkids => ?_)
        (not_not.mpr ⟨a, done', b', rest', hsplit', hdone', hexprAt', hb'⟩)
      -- the slot of the first record holds a clone
      have hrecord := hg.records ha a (by
        rw [hsplit']
        exact List.mem_cons_self ..)
      have hlive := hg.live a.1 hrecord.reach
      have hrepairs := hdone' a (List.mem_cons_self ..)
      obtain ⟨hparent, p, hp, hslot⟩ := hrecord.parent (hrepairs.1.exprAt hlive)
      obtain ⟨kids, hkids', hlength, hslots⟩ := h.old _ p hparent hp
      have heq := hkids be' rfl _ hparent
      rw [hkids', hp] at heq
      obtain rfl : kids = p.kids := Option.some.inj heq
      rcases hslots _ _ _ hslot hslot with ⟨-, hfree⟩ | ⟨-, hdead, -⟩
      · exact hfree (.inr ⟨a.1, List.mem_cons_self ..⟩)
      · rw [hdead] at hlive
        cases hlive

end Examine

/-! ## A load and a call that are both used twice -/

section Examples
variable {be : Backend} {x : BnodeRef}

/-- The nodes are expressions with few children, and the allocator goes on after them. -/
theorem builtGraph_of_made {insts : List Instruction} {ops : List NodeOp}
    (hrun : (new id insts).run ops = some be) (hmalloc : be.malloc = id)
    (hmade : be.MadeInOrder) (hlive : (be.node x).isSome)
    (hnodes : (List.range be.allocated).all fun k => (be.node k).all fun n =>
      n.isExpr && decide (n.kids.length ≤ 2 ^ 32)) :
    be.Allocated ∧ be.Fresh ∧ be.BuiltGraph x := by
  have ha : be.Allocated := run_allocated hrun
  have hnode : ∀ y n, be.node y = some n → n.isExpr ∧ n.kids.length ≤ 2 ^ 32 := by
    intro y n hn
    obtain ⟨j, hj, hjy⟩ := ha y (by rw [hn]; rfl)
    rw [hmalloc] at hjy
    have hall := List.all_eq_true.mp hnodes j (List.mem_range.mpr hj)
    rw [show j = y from hjy, hn] at hall
    simpa using hall
  refine ⟨ha, fun k hk => ⟨?_, fun k' _ heq => ?_⟩, madeInOrder_graph hmade ha hlive,
    fun y n _ hn => (madeInOrder_node hmade ha hn).2.2, fun y n _ hn _ c hc m hm => (hnode c m hm).1,
    fun y n _ hn _ => (hnode y n hn).2⟩
  · rw [← Option.not_isSome_iff_eq_none, hmalloc]
    intro hk'
    obtain ⟨j, hj, hjk⟩ := ha _ hk'
    rw [hmalloc] at hjk
    obtain rfl : j = k := hjk
    exact absurd hk (Nat.not_le_of_lt hj)
  · rwa [hmalloc] at heq

/-- The operation on the two loads is walked before the one on the two calls. -/
def loadAndCallTwice : List NodeOp :=
  [.make (.mkVar (.other 0) 0), .make (.mkDeref 0 (.instruction 0) 0), .appendInstruction 1 0,
    .make (.mkCall 0 (.instruction 1) [] [1]), .make (.mkBinaryOp 0 (some (.instruction 2)) 1 1),
    .make (.mkBinaryOp 0 (some (.instruction 3)) 2 2),
    .make (.mkBinaryOp 0 (some (.instruction 4)) 3 4)]

def loadAndCallInsts : List Instruction :=
  [⟨false, 0, [.other 0]⟩, ⟨false, 1, []⟩, ⟨false, 2, [.instruction 0, .instruction 0]⟩,
    ⟨false, 2, [.instruction 1, .instruction 1]⟩, ⟨false, 2, [.instruction 2, .instruction 3]⟩]

theorem loadAndCallTwice_built : ∃ be, (new id loadAndCallInsts).run loadAndCallTwice = some be ∧
    be.Allocated ∧ be.Fresh ∧ be.BuiltGraph 5 := by
  have hmade : ((new id loadAndCallInsts).run loadAndCallTwice).map (fun be =>
      (be.MadeInOrder, (be.node 5).isSome, (List.range be.allocated).all fun k =>
        (be.node k).all fun n => n.isExpr && decide (n.kids.length ≤ 2 ^ 32))) =
      some (true, true, true) := by decide
  have hmalloc : ((new id loadAndCallInsts).run loadAndCallTwice).map (·.malloc) = some id := rfl
  obtain ⟨be, hrun, hmade⟩ := Option.map_eq_some_iff.mp hmade
  simp only [Prod.mk.injEq] at hmade
  rw [hrun, Option.map_some, Option.some.injEq] at hmalloc
  exact ⟨be, hrun, builtGraph_of_made hrun hmalloc hmade.1 hmade.2.1 hmade.2.2⟩

theorem loadAndCallTwice_unchanged_iff : ∃ be,
    (new id loadAndCallInsts).run loadAndCallTwice = some be ∧
    ((∀ be', be.examine ⟨.ignoreVarExprs, .repairSharing⟩ 5 = some (false, be') →
      ∀ y, ReflTransGen be.Child 5 y → (be'.node y).map Bnode.kids = (be.node y).map Bnode.kids) ↔
    ¬2 ^ 32 ∣ be.instsMetAgain 5 ∨
    ¬2 ^ 32 ∣ be.stmtsMetAgain ⟨.ignoreVarExprs, .repairSharing⟩ 5 ∨
    2 ^ 32 ∣ be.exprsMetAgain ⟨.ignoreVarExprs, .repairSharing⟩ 5 ∨
    ¬∃ a done b rest,
      metAgain (be.walked ⟨.ignoreVarExprs, .repairSharing⟩ 5) = a :: done ++ b :: rest ∧
        (∀ c ∈ a :: done, be.Repairs c.1) ∧ be.exprAt b.1 ∧ ¬be.Repairable b.1) := by
  obtain ⟨be, hrun, ha, hfresh, hg⟩ := loadAndCallTwice_built
  exact ⟨be, hrun, failed_repair_unchanged_iff ha hfresh hg .ignoreVarExprs⟩

/-- The second operand of the operation on the loads has been replaced when the repair fails. -/
theorem not_failed_repair_unchanged : ¬∀ (malloc : ℕ → BnodeRef) (insts : List Instruction)
    (ops : List NodeOp) (be be' : Backend) (x : BnodeRef), (new malloc insts).run ops = some be →
    be.Fresh → be.BuiltGraph x →
    be.examine ⟨.ignoreVarExprs, .repairSharing⟩ x = some (false, be') →
    ∀ y, ReflTransGen be.Child x y → (be'.node y).map Bnode.kids = (be.node y).map Bnode.kids := by
  intro hall
  obtain ⟨be, hrun, -, hfresh, hg⟩ := loadAndCallTwice_built
  have hkids : ((new id loadAndCallInsts).run loadAndCallTwice).bind (fun be =>
      (be.examine ⟨.ignoreVarExprs, .repairSharing⟩ 5).map fun res => (res.1,
        (be.node 5).map Bnode.kids, (be.node 3).map Bnode.kids, (res.2.node 3).map Bnode.kids)) =
      some (false, some [3, 4], some [1, 1], some [1, 7]) := by decide
  rw [hrun, Option.bind_some] at hkids
  obtain ⟨⟨res, be'⟩, hexamine, hkids⟩ := Option.map_eq_some_iff.mp hkids
  simp only [Prod.mk.injEq] at hkids
  obtain ⟨rfl, hroot, hold, hnew⟩ := hkids
  obtain ⟨n, hn, hkids⟩ := Option.map_eq_some_iff.mp hroot
  have hchild : be.Child 5 3 := ⟨n, hn, by rw [hkids]; exact List.mem_cons_self ..⟩
  have hsame := hall _ _ _ be be' 5 hrun hfresh hg hexamine 3 (.single hchild)
  rw [hold, hnew] at hsame
  revert hsame
  decide

end Examples
end Backend
end Dragongo
