import Dragongo.ClonedNodes

/-!
# The repair of sharing

`repair` puts a clone into each slot in which the walk met a node again.
-/

namespace Dragongo
namespace Backend
open Relation Acyclic

/-- A slot of a node that was below the root, or of one that is new, which holds a new node. -/
def CloneIn (be₀ be : Backend) (x : BnodeRef) (a : Place) : Prop :=
  (ReflTransGen be₀.Child x a.2.1 ∨ be₀.node a.2.1 = none) ∧ be₀.node a.1 = none ∧
    ∃ n, be.node a.2.1 = some n ∧ n.kids[a.2.2]? = some a.1

/-- The slots in `replaced` have got clones of what they held, and the others are as they were. -/
structure Repairing (be₀ be : Backend) (x : BnodeRef) (replaced : BnodeRef × ℕ → Prop) : Prop
    extends NewNodes be₀ be where
  live : ∀ y, (be₀.node y).isSome → (be.node y).isSome
  old : ∀ y n, ReflTransGen be₀.Child x y → be₀.node y = some n → ∃ kids,
    be.node y = some { n with kids } ∧ kids.length = n.kids.length ∧
      ∀ i c c', n.kids[i]? = some c → kids[i]? = some c' →
        c' = c ∧ ¬replaced (y, i) ∨ replaced (y, i) ∧ be₀.node c' = none ∧ Alike be₀ be c c'
  place : Alone (CloneIn be₀ be x)
  frame : ∀ y n, be₀.node y = some n → ¬ReflTransGen be₀.Child x y → be.node y = some n

section Repairing
variable {be₀ be be' : Backend} {x : BnodeRef} {replaced : BnodeRef × ℕ → Prop}

theorem Repairing.refl (hg : be.Graph x) : Repairing be be x fun _ => False where
  toNewNodes := (Grown.refl be).toNewNodes
  live _ hy := hy
  old y n _ hn := ⟨n.kids, hn, rfl, fun i c c' hi hi' =>
    .inl ⟨Option.some.inj (hi'.symm.trans hi), id⟩⟩
  place := by
    intro a _ ⟨hparent, hdead, n, hn, hi⟩
    rcases hparent with hreach | hnew
    · have hlive := hg.live a.1 (hreach.tail ⟨n, hn, List.mem_of_getElem? hi⟩)
      rw [hdead] at hlive
      cases hlive
    · rw [hnew] at hn
      cases hn
  frame _ _ hn _ := hn

/-- A node that is below the root, or was, or that is new. -/
def Around (be₀ be : Backend) (x y : BnodeRef) : Prop :=
  ReflTransGen be₀.Child x y ∨ be₀.node y = none ∧ (be.node y).isSome

theorem Repairing.child (h : Repairing be₀ be x replaced) (hg : be₀.Graph x) {y c : BnodeRef}
    (hy : Around be₀ be x y) (hc : be.Child y c) : Around be₀ be x c := by
  obtain ⟨n', hn', hmem⟩ := hc
  rcases hy with hreach | ⟨hnew, -⟩
  · obtain ⟨n, hn⟩ := Option.isSome_iff_exists.mp (hg.live y hreach)
    obtain ⟨kids, hkids, hlength, hslots⟩ := h.old y n hreach hn
    obtain rfl := Option.some.inj (hn'.symm.trans hkids)
    obtain ⟨i, hi⟩ := List.getElem?_of_mem hmem
    have hlt := (List.getElem?_eq_some_iff.mp hi).1
    dsimp only at hlt
    rw [hlength] at hlt
    rcases hslots i _ c (List.getElem?_eq_getElem hlt) hi with ⟨rfl, -⟩ | ⟨-, hdead, halike⟩
    · exact .inl (hreach.tail ⟨n, hn, List.getElem_mem hlt⟩)
    · obtain ⟨_, m, -, hm, -⟩ := halike.exists_node
      exact .inr ⟨hdead, by rw [hm]; rfl⟩
  · exact .inr (h.kids y n' hn' hnew c hmem)

theorem Repairing.below (h : Repairing be₀ be x replaced) (hg : be₀.Graph x) {y z : BnodeRef}
    (hy : Around be₀ be x y) (hz : ReflTransGen be.Child y z) : Around be₀ be x z := by
  induction hz with
  | refl => exact hy
  | tail _ hchild ih => exact h.child hg ih hchild

theorem Repairing.sound (h : Repairing be₀ be x replaced) (hg : be₀.Graph x) {y : BnodeRef}
    (hy : Around be₀ be x y) : be.Sound y := by
  intro z hz
  rcases h.below hg hy hz with hreach | ⟨hnew, hlive⟩
  · obtain ⟨n, hn⟩ := Option.isSome_iff_exists.mp (hg.live z hreach)
    obtain ⟨kids, hkids, hlength, -⟩ := h.old z n hreach hn
    refine ⟨_, hkids, fun hconv => ?_⟩
    change kids ≠ []
    rw [← List.length_pos_iff, hlength, List.length_pos_iff]
    exact hg.source z n hreach hn hconv
  · obtain ⟨n, hn⟩ := Option.isSome_iff_exists.mp hlive
    exact ⟨n, hn, h.source z n hn hnew⟩

/-- A node under the root keeps its shape. -/
theorem Repairing.alike (h : Repairing be₀ be x replaced) (ha : be₀.Allocated) (hg : be₀.Graph x)
    {y : BnodeRef} (hy : ReflTransGen be₀.Child x y) : Alike be₀ be y y := by
  obtain ⟨S, -, hbelow⟩ := hg.below ha
  refine Below.induction (P := fun _ y => ReflTransGen be₀.Child x y → Alike be₀ be y y) ?_
    (hbelow.down hy) (Nat.le_refl _) hy
  intro _ y ih hy
  obtain ⟨n, hn⟩ := Option.isSome_iff_exists.mp (hg.live y hy)
  obtain ⟨kids, hkids, hlength, hslots⟩ := h.old y n hy hn
  refine .node hn hkids ⟨rfl, rfl, hlength, rfl, fun _ => rfl⟩ fun i c c' hi hi' => ?_
  rcases hslots i c c' hi hi' with ⟨rfl, -⟩ | ⟨-, -, halike⟩
  · have hchild : be₀.Child y c' := ⟨n, hn, List.mem_of_getElem? hi⟩
    exact ih c' hchild (hy.tail hchild)
  · exact halike

/-- A clone stays as it is when other nodes change. -/
theorem Alike.keep {c c' : BnodeRef} (h : Alike be₀ be c c') (hnew : be₀.node c' = none)
    (hnodes : NewNodes be₀ be)
    (hkept : ∀ y n, be.node y = some n → be₀.node y = none → be'.node y = some n) :
    Alike be₀ be' c c' := by
  induction h with
  | node hn hn' hlike _ ih =>
    exact .node hn (hkept _ _ hn' hnew) hlike fun i c c' hi hi' =>
      ih i c c' hi hi' (hnodes.kids _ _ hn' hnew c' (List.mem_of_getElem? hi')).1

/-- One slot gets a clone of the node that was there at first. -/
theorem Repairing.step (h : Repairing be₀ be x replaced) (ha : be₀.Allocated) (hg : be₀.Graph x)
    {child parent clone : BnodeRef} {slot : ℕ} {be₁ be₂ : Backend} {p : Bnode}
    (hparent : ReflTransGen be₀.Child x parent) (hp : be₀.node parent = some p)
    (hslot : p.kids[slot]? = some child) (hgrown : Grown be be₁ [clone])
    (hclone : Alike be be₁ child clone)
    (hreplace : be₁.replaceChild parent slot clone = some be₂) :
    Repairing be₀ be₂ x fun q => replaced q ∨ q = (parent, slot) := by
  obtain ⟨kids, hkids, hlength, hslots⟩ := h.old parent p hparent hp
  obtain ⟨m, hm, hlt, rfl⟩ := replaceChild_some hreplace
  obtain rfl := Option.some.inj ((hgrown.kept _ _ hkids).symm.trans hm)
  obtain ⟨hclonedead, hclonelive, hcloneroot⟩ := hgrown.root clone (List.mem_singleton_self clone)
  set be₂ := be₁.update parent fun n => { n with kids := n.kids.set slot clone }
  have hself : be₂.node parent = some { p with kids := kids.set slot clone } := by
    rw [node_update_self, hm]
    rfl
  have hother : ∀ y, y ≠ parent → be₂.node y = be₁.node y := fun y hy => node_update_ne be₁ hy
  have hdead : ∀ y, be.node y = none → be₀.node y = none := by
    intro y hy
    rw [← Option.not_isSome_iff_eq_none] at hy ⊢
    exact fun hlive => hy (h.live y hlive)
  have hne : ∀ y, be₀.node y = none → y ≠ parent := by
    rintro y hy rfl
    rw [hp] at hy
    cases hy
  have hlive : ∀ y, (be₁.node y).isSome → (be₂.node y).isSome := by
    intro y hy
    by_cases hyp : y = parent
    · rw [hyp, hself]
      rfl
    · rwa [hother y hyp]
  have hkept : ∀ y n, be.node y = some n → be₀.node y = none → be₂.node y = some n :=
    fun y n hn hnew => (hother y (hne y hnew)).trans (hgrown.kept y n hn)
  have hadded : ∀ y n, be₁.node y = some n → be.node y = none → be₂.node y = some n :=
    fun y n hn hnew => (hother y (hne y (hdead y hnew))).trans hn
  -- a new node was there before the step, or comes with the clone
  have hcases : ∀ y n, be₂.node y = some n → be₀.node y = none →
      be.node y = some n ∨ be.node y = none ∧ be₁.node y = some n := by
    intro y n hn hnew
    rw [hother y (hne y hnew)] at hn
    exact (hgrown.before hn).imp id fun hy => ⟨hy, hn⟩
  have hplace : ∀ a, CloneIn be₀ be₂ x a → a = (clone, parent, slot) ∨
      CloneIn be₀ be x a ∧ (be.node a.1).isSome ∨ NewKid be be₁ a ∧ be.node a.1 = none := by
    intro a ⟨hin, hnew, n, hn, hi⟩
    have hbefore : ∀ n, be.node a.2.1 = some n → n.kids[a.2.2]? = some a.1 →
        CloneIn be₀ be x a ∧ (be.node a.1).isSome := by
      intro n hn hi
      refine ⟨⟨hin, hnew, n, hn, hi⟩, ?_⟩
      have haround : Around be₀ be x a.2.1 := hin.imp id fun hold => ⟨hold, by rw [hn]; rfl⟩
      rcases h.child hg haround ⟨n, hn, List.mem_of_getElem? hi⟩ with hreach | ⟨-, hlive⟩
      · exact h.live _ (hg.live _ hreach)
      · exact hlive
    by_cases hap : a.2.1 = parent
    · rw [hap, hself] at hn
      obtain rfl := Option.some.inj hn
      by_cases has : slot = a.2.2
      · left
        change (kids.set slot clone)[a.2.2]? = some a.1 at hi
        rw [← has, List.getElem?_set_self hlt] at hi
        exact Prod.ext (Option.some.inj hi).symm (Prod.ext hap has.symm)
      · right; left
        change (kids.set slot clone)[a.2.2]? = some a.1 at hi
        rw [List.getElem?_set_ne has] at hi
        exact hbefore _ (hap ▸ hkids) hi
    · rw [hother _ hap] at hn
      rcases hgrown.before hn with hn' | hdead'
      · exact .inr (.inl (hbefore n hn' hi))
      · exact .inr (.inr ⟨⟨n, hn, hdead', hi⟩,
          (hgrown.kids _ n hn hdead' _ (List.mem_of_getElem? hi)).1⟩)
  refine ⟨⟨hgrown.exprmap.trans h.exprmap, h.length.trans hgrown.length, ?_, ?_, ?_, ?_, ?_⟩,
    fun y hy => ?_, ?_, ?_, ?_⟩
  · intro y n hn hnew c hc
    rcases hcases y n hn hnew with hn | ⟨hy, hn⟩
    · have hkid := h.kids y n hn hnew c hc
      exact ⟨hkid.1, hlive c (hgrown.live hkid.2)⟩
    · have hkid := hgrown.kids y n hn hy c hc
      exact ⟨hdead c hkid.1, hlive c hkid.2⟩
  · intro y n hn hnew
    rcases hcases y n hn hnew with hn | ⟨hy, hn⟩
    · exact h.source y n hn hnew
    · exact hgrown.source y n hn hy
  · intro y n hn hnew i hi
    rcases hcases y n hn hnew with hn | ⟨hy, hn⟩
    · have hinst := h.insts y n hn hnew i hi
      exact ⟨hinst.1, hinst.2.trans_le hgrown.length⟩
    · have hinst := hgrown.insts y n hn hy i hi
      exact ⟨h.length.trans hinst.1, hinst.2⟩
  · intro y hnew hy
    obtain ⟨n, hn⟩ := Option.isSome_iff_exists.mp hy
    rcases hcases y n hn hnew with hn | ⟨hy, hn⟩
    · exact h.acc_of_kept hkept hnew (by rw [hn]; rfl)
    · exact hgrown.acc_of_kept hadded hy (by rw [hn]; rfl)
  · intro a b ⟨n, hn, hnew, hi⟩ ⟨k, hk, hnew', hj⟩ hab
    rcases hcases _ n hn hnew with hn' | ⟨ha', hn'⟩ <;>
      rcases hcases _ k hk hnew' with hk' | ⟨hb', hk'⟩
    · exact h.inst a b ⟨n, hn', hnew, hi⟩ ⟨k, hk', hnew', hj⟩ hab
    · have hlt := (h.insts _ n hn' hnew _ (List.mem_of_getElem? hi)).2
      have hle := (hgrown.insts _ k hk' hb' _ (List.mem_of_getElem? hj)).1
      rw [hab] at hlt
      exact (Nat.not_lt_of_ge hle hlt).elim
    · have hlt := (h.insts _ k hk' hnew' _ (List.mem_of_getElem? hj)).2
      have hle := (hgrown.insts _ n hn' ha' _ (List.mem_of_getElem? hi)).1
      rw [hab] at hle
      exact (Nat.not_lt_of_ge hle hlt).elim
    · exact hgrown.inst a b ⟨n, hn', ha', hi⟩ ⟨k, hk', hb', hj⟩ hab
  · exact hlive y (hgrown.live (h.live y hy))
  · intro y n hy hn
    have hstay : ∀ {i : ℕ} {c c' : BnodeRef}, (y, i) ≠ (parent, slot) →
        c' = c ∧ ¬replaced (y, i) ∨ replaced (y, i) ∧ be₀.node c' = none ∧ Alike be₀ be c c' →
        c' = c ∧ ¬(replaced (y, i) ∨ (y, i) = (parent, slot)) ∨
          (replaced (y, i) ∨ (y, i) = (parent, slot)) ∧
            be₀.node c' = none ∧ Alike be₀ be₂ c c' := by
      intro i c c' hslot' hc
      refine hc.imp (fun hc => ⟨hc.1, fun h' => h'.elim hc.2 hslot'⟩) fun hc =>
        ⟨.inl hc.1, hc.2.1, ?_⟩
      exact hc.2.2.keep hc.2.1 h.toNewNodes hkept
    by_cases hyp : y = parent
    · subst hyp
      obtain rfl := Option.some.inj (hp.symm.trans hn)
      refine ⟨_, hself, by rw [List.length_set, hlength], fun i c c' hi hi' => ?_⟩
      by_cases his : slot = i
      · subst his
        rw [List.getElem?_set_self hlt] at hi'
        obtain rfl := Option.some.inj hi'
        obtain rfl := Option.some.inj (hslot.symm.trans hi)
        have hchild : ReflTransGen be₀.Child x child :=
          hparent.tail ⟨p, hp, List.mem_of_getElem? hslot⟩
        exact .inr ⟨.inr rfl, hdead _ hclonedead, (h.alike ha hg hchild).trans
          (hclone.keep hclonedead hgrown.toNewNodes hadded)⟩
      · rw [List.getElem?_set_ne his] at hi'
        exact hstay (fun heq => his (Prod.mk.inj heq).2.symm) (hslots i c c' hi hi')
    · obtain ⟨kids', hkids', hlength', hslots'⟩ := h.old y n hy hn
      refine ⟨kids', (hother y hyp).trans (hgrown.kept _ _ hkids'), hlength',
        fun i c c' hi hi' => ?_⟩
      exact hstay (fun heq => hyp (Prod.mk.inj heq).1) (hslots' i c c' hi hi')
  · intro a b hina hinb hab
    rcases hplace a hina with rfl | ⟨ha', hal⟩ | ⟨ha', had⟩ <;>
      rcases hplace b hinb with rfl | ⟨hb', hbl⟩ | ⟨hb', hbd⟩
    · rfl
    · rw [← hab, hclonedead] at hbl
      cases hbl
    · obtain ⟨b₁, b₂⟩ := b
      obtain rfl : clone = b₁ := hab
      exact (hcloneroot _ _ hb').elim
    · rw [hab, hclonedead] at hal
      cases hal
    · exact h.place a b ha' hb' hab
    · rw [hab, hbd] at hal
      cases hal
    · obtain ⟨a₁, a₂⟩ := a
      obtain rfl : a₁ = clone := hab
      exact (hcloneroot _ _ ha').elim
    · rw [← hab, had] at hbl
      cases hbl
    · exact hgrown.place a b ha' hb' hab
  · intro y n hn hout
    have hne' : y ≠ parent := fun heq => hout (heq ▸ hparent)
    exact (hother y hne').trans (hgrown.kept y n (h.frame y n hn hout))

theorem Repairing.cons {child : BnodeRef} {place : BnodeRef × ℕ} {done : List Place}
    (h : Repairing be₀ be x fun q => (replaced q ∨ q = place) ∨ ∃ c, (c, q) ∈ done) :
    Repairing be₀ be x fun q => replaced q ∨ ∃ c, (c, q) ∈ (child, place) :: done := by
  have hsame : (fun q => (replaced q ∨ q = place) ∨ ∃ c, (c, q) ∈ done) =
      fun q => replaced q ∨ ∃ c, (c, q) ∈ (child, place) :: done := by
    funext q
    simp only [List.mem_cons, Prod.mk.injEq, exists_or, or_assoc, eq_iff_iff]
    apply or_congr Iff.rfl
    apply or_congr _ Iff.rfl
    exact ⟨fun hq => ⟨child, rfl, hq⟩, fun ⟨_, _, hq⟩ => hq⟩
  rwa [hsame] at h

/-! ## After the repair -/

theorem Repairing.tracked (h : Repairing be₀ be x replaced) (ha : be₀.Allocated) (hg : be₀.Graph x)
    {ctl : TreeIntegCtl} {y : BnodeRef} (hy : ReflTransGen be₀.Child x y) :
    be.shouldBeTracked ctl y = be₀.shouldBeTracked ctl y := by
  obtain ⟨n, hn⟩ := Option.isSome_iff_exists.mp (hg.live y hy)
  obtain ⟨kids, hkids, hlength, hslots⟩ := h.old y n hy hn
  have hvar : be.varExprOrConvVar { n with kids } = be₀.varExprOrConvVar n := by
    unfold varExprOrConvVar
    dsimp only
    split
    · rfl
    · -- the source of a conversion is as it was, or a clone of the same flavor
      cases hkid : n.kids[0]? with
      | none =>
        rw [List.getElem?_eq_none_iff] at hkid
        have hnone : kids[0]? = none := List.getElem?_eq_none_iff.mpr (hlength.trans_le hkid)
        rw [hnone]
        rfl
      | some c =>
        have hlt := (List.getElem?_eq_some_iff.mp hkid).1
        rw [← hlength] at hlt
        have hkid' := List.getElem?_eq_getElem hlt
        have halike : Alike be₀ be c kids[0] := by
          rcases hslots 0 c _ hkid hkid' with ⟨heq, -⟩ | ⟨-, -, halike⟩
          · rw [heq]
            exact h.alike ha hg (hy.tail ⟨n, hn, List.mem_of_getElem? hkid⟩)
          · exact halike
        obtain ⟨k, k', hk, hk', hlike⟩ := halike.exists_node
        rw [hkid']
        simp only [Option.bind_eq_bind, Option.bind_some, hk, hk', hlike.flavor]
    · rfl
  have hscope : be.moduleScopeValue n.value n.btype = be₀.moduleScopeValue n.value n.btype := by
    unfold moduleScopeValue
    rw [h.exprmap]
  rw [shouldBeTracked, shouldBeTracked, hn, hkids]
  simp only [Option.bind_eq_bind, Option.bind_some, hvar, hscope]
  rfl

/-- A slot that holds an old node has not been replaced. -/
theorem Repairing.slot (h : Repairing be₀ be x replaced) (hg : be₀.Graph x) {y c : BnodeRef}
    {n' : Bnode} {i : ℕ} (hy : Around be₀ be x y) (hn' : be.node y = some n')
    (hi : n'.kids[i]? = some c) (hc : (be₀.node c).isSome) : ReflTransGen be₀.Child x y ∧
      ¬replaced (y, i) ∧ ∃ n, be₀.node y = some n ∧ n.kids[i]? = some c := by
  rcases hy with hreach | ⟨hnew, -⟩
  · obtain ⟨n, hn⟩ := Option.isSome_iff_exists.mp (hg.live y hreach)
    obtain ⟨kids, hkids, hlength, hslots⟩ := h.old y n hreach hn
    obtain rfl := Option.some.inj (hn'.symm.trans hkids)
    have hlt := (List.getElem?_eq_some_iff.mp hi).1
    dsimp only at hlt
    rw [hlength] at hlt
    rcases hslots i _ c (List.getElem?_eq_getElem hlt) hi with ⟨rfl, hfree⟩ | ⟨-, hdead, -⟩
    · exact ⟨hreach, hfree, n, hn, List.getElem?_eq_getElem hlt⟩
    · rw [hdead] at hc
      cases hc
  · rw [(h.kids y n' hn' hnew c (List.mem_of_getElem? hi)).1] at hc
    cases hc

theorem not_transGen_of_acc {r : BnodeRef → BnodeRef → Prop} {y : BnodeRef}
    (h : Acc (fun c p => r p c) y) : ¬TransGen r y y := by
  induction h with
  | intro y _ ih =>
    intro hcycle
    obtain ⟨c, hc, hback⟩ := TransGen.head'_iff.mp hcycle
    exact ih c hc (TransGen.tail' hback hc)

theorem Repairing.path (h : Repairing be₀ be x replaced) (hg : be₀.Graph x) {y z : BnodeRef}
    (hy : Around be₀ be x y) (hyz : TransGen be.Child y z) (hz : (be₀.node z).isSome) :
    TransGen be₀.Child y z := by
  induction hyz with
  | single hchild =>
    obtain ⟨n', hn', hmem⟩ := hchild
    obtain ⟨i, hi⟩ := List.getElem?_of_mem hmem
    obtain ⟨-, -, n, hn, hi⟩ := h.slot hg hy hn' hi hz
    exact .single ⟨n, hn, List.mem_of_getElem? hi⟩
  | tail hyw hchild ih =>
    obtain ⟨n', hn', hmem⟩ := hchild
    obtain ⟨i, hi⟩ := List.getElem?_of_mem hmem
    have hw := h.below hg hy hyw.to_reflTransGen
    obtain ⟨hreach, -, n, hn, hi⟩ := h.slot hg hw hn' hi hz
    exact (ih (hg.live _ hreach)).tail ⟨n, hn, List.mem_of_getElem? hi⟩

theorem Repairing.graph (h : Repairing be₀ be x replaced) (hg : be₀.Graph x) {y : BnodeRef}
    (hy : Around be₀ be x y) : be.Graph y where
  live := by
    intro z hz
    obtain ⟨n, hn, -⟩ := h.sound hg hy z hz
    rw [hn]
    rfl
  acyclic := by
    intro z hz hcycle
    have haround := h.below hg hy hz
    rcases haround with hreach | ⟨hnew, hlive⟩
    · exact hg.acyclic z hreach (h.path hg (.inl hreach) hcycle (hg.live z hreach))
    · exact not_transGen_of_acc (h.acc z hnew hlive) hcycle
  source := by
    intro z n hz hn hconv
    obtain ⟨m, hm, hsource⟩ := h.sound hg hy z hz
    obtain rfl := Option.some.inj (hn.symm.trans hm)
    exact hsource hconv

/-- Each instruction that a node has is there. -/
def Executed (be : Backend) (x : BnodeRef) : Prop :=
  ∀ y n, ReflTransGen be.Child x y → be.node y = some n → ∀ i ∈ n.instructions, i < be.insts.length

/-- A child in a slot that is not among these. -/
def KeptChild (be : Backend) (replaced : BnodeRef × ℕ → Prop) (y c : BnodeRef) : Prop :=
  ∃ n i, be.node y = some n ∧ n.kids[i]? = some c ∧ ¬replaced (y, i)

theorem KeptChild.child {y c : BnodeRef} (h : be.KeptChild replaced y c) : be.Child y c := by
  obtain ⟨n, i, hn, hi, -⟩ := h
  exact ⟨n, hn, List.mem_of_getElem? hi⟩

/-- Below an old node, what is old is reached through slots that are kept. -/
theorem Repairing.kept_of_reach (h : Repairing be₀ be x replaced) (hg : be₀.Graph x)
    {y z : BnodeRef} (hy : Around be₀ be x y) (hz : ReflTransGen be.Child y z)
    (hlive : (be₀.node z).isSome) : ReflTransGen (be₀.KeptChild replaced) y z := by
  induction hz with
  | refl => exact .refl
  | tail hw hchild ih =>
    obtain ⟨n', hn', hmem⟩ := hchild
    obtain ⟨i, hi⟩ := List.getElem?_of_mem hmem
    obtain ⟨hreach, hfree, n, hn, hi⟩ := h.slot hg (h.below hg hy hw) hn' hi hlive
    exact (ih (hg.live _ hreach)).tail ⟨n, i, hn, hi, hfree⟩

/-- A slot that is kept holds what it held. -/
theorem Repairing.slot_of_kept (h : Repairing be₀ be x replaced) {y c : BnodeRef} {n : Bnode}
    {i : ℕ} (hy : ReflTransGen be₀.Child x y) (hn : be₀.node y = some n)
    (hi : n.kids[i]? = some c) (hfree : ¬replaced (y, i)) :
    ∃ n', be.node y = some n' ∧ n'.kids[i]? = some c := by
  obtain ⟨kids, hkids, hlength, hslots⟩ := h.old y n hy hn
  have hlt := (List.getElem?_eq_some_iff.mp hi).1
  rw [← hlength] at hlt
  refine ⟨_, hkids, ?_⟩
  rcases hslots i c _ hi (List.getElem?_eq_getElem hlt) with ⟨rfl, -⟩ | ⟨hreplaced, -⟩
  · exact List.getElem?_eq_getElem hlt
  · exact (hfree hreplaced).elim

theorem Repairing.reach_of_kept (h : Repairing be₀ be x replaced) {y z : BnodeRef}
    (hy : ReflTransGen be₀.Child x y) (hz : ReflTransGen (be₀.KeptChild replaced) y z) :
    ReflTransGen be.Child y z := by
  induction hz with
  | refl => exact .refl
  | tail hw hchild ih =>
    obtain ⟨n, i, hn, hi, hfree⟩ := hchild
    have hreach := hy.trans (ReflTransGen.mono (fun _ _ => KeptChild.child) _ _ hw)
    obtain ⟨n', hn', hi'⟩ := h.slot_of_kept hreach hn hi hfree
    exact ih.tail ⟨n', hn', List.mem_of_getElem? hi'⟩

end Repairing

/-! ## Graphs that are made in order -/

section MadeInOrder
variable {be : Backend} {x : BnodeRef}

/-- A graph in which all nodes come after their children and have what they name. -/
def MadeInOrder (be : Backend) : Bool :=
  (List.range be.allocated).all fun k => (be.node (be.malloc k)).all fun n =>
    n.kids.all (fun c => decide (c < be.malloc k) && (be.node c).isSome) &&
      (decide (n.flavor ≠ .conversion) || decide (n.kids ≠ [])) &&
      n.instructions.all fun i => decide (i < be.insts.length)

theorem madeInOrder_node (h : be.MadeInOrder) (ha : be.Allocated) {y : BnodeRef} {n : Bnode}
    (hn : be.node y = some n) : (∀ c ∈ n.kids, c < y ∧ (be.node c).isSome) ∧
      (n.flavor = .conversion → n.kids ≠ []) ∧ ∀ i ∈ n.instructions, i < be.insts.length := by
  obtain ⟨k, hk, rfl⟩ := ha y (by rw [hn]; rfl)
  have hall := List.all_eq_true.mp h k (List.mem_range.mpr hk)
  rw [hn] at hall
  simp only [Option.all_some, Bool.and_eq_true, List.all_eq_true, Bool.or_eq_true,
    decide_eq_true_eq] at hall
  obtain ⟨⟨hkids, hsource⟩, hinsts⟩ := hall
  exact ⟨hkids, fun hconv => hsource.resolve_left (not_not.mpr hconv), hinsts⟩

theorem madeInOrder_graph (h : be.MadeInOrder) (ha : be.Allocated) (hx : (be.node x).isSome) :
    be.Graph x :=
  graph_of_lt (fun _ _ hn => ⟨(madeInOrder_node h ha hn).1, (madeInOrder_node h ha hn).2.1⟩) hx

end MadeInOrder
end Backend
end Dragongo
