import Mathlib.Data.List.Nodup
import Dragongo.StatementMeaning

/-!
# What the walk of a statement leaves alone

The walk of a statement adds to the block where control is, to the blocks it makes itself, and
to those of the labels that are defined in the statement.
-/

namespace Dragongo

namespace GenBlocks

/-- Each label has a block of its own. -/
structure Labelled (s : GenBlocks) : Prop where
  inRange : ∀ ⦃l : LabelId⦄ ⦃b : BlockRef⦄, s.labelmap l = some b → b < s.blocks.length
  distinct : ∀ ⦃l l' : LabelId⦄ ⦃b : BlockRef⦄, s.labelmap l = some b → s.labelmap l' = some b →
    l = l'

/-- No label's block. -/
def Plain (s : GenBlocks) (b : BlockRef) : Prop := ∀ l, s.labelmap l ≠ some b

/-- Nothing has been put yet into the blocks of these labels. -/
def Waiting (ls : List LabelId) (s : GenBlocks) (cur : Option BlockRef) : Prop :=
  ∀ l ∈ ls, ∀ b, s.labelmap l = some b → s.blocks[b]? = some [] ∧ cur ≠ some b

/-- The block where control is has not been closed. -/
def Live (s : GenBlocks) (cur : Option BlockRef) : Prop :=
  ∀ b, cur = some b → ∃ is, s.blocks[b]? = some is ∧ s.getTerminator b = false

/-- What is left alone from one state of the walk to another one, where these labels are
defined in between. -/
structure Framed (ls : List LabelId) (s : GenBlocks) (cur : Option BlockRef) (s' : GenBlocks)
    (cur' : Option BlockRef) : Prop where
  labelled : s'.Labelled
  grown : Extends s.blocks s'.blocks
  kept : ∀ ⦃c : BlockRef⦄, c < s.blocks.length → cur ≠ some c → (∀ l ∈ ls, s.labelmap l ≠ some c) →
    s'.blocks[c]? = s.blocks[c]?
  cursor : ∀ ⦃b : BlockRef⦄, cur' = some b →
    cur = some b ∨ s.blocks.length ≤ b ∨ ∃ l ∈ ls, s.labelmap l = some b
  labels : ∀ ⦃l : LabelId⦄ ⦃b : BlockRef⦄, s.labelmap l = some b → s'.labelmap l = some b
  fresh : ∀ ⦃l : LabelId⦄ ⦃b : BlockRef⦄, s'.labelmap l = some b →
    s.labelmap l = some b ∨ s.blocks.length ≤ b
  pending : ∀ ⦃l : LabelId⦄ ⦃b : BlockRef⦄, l ∉ ls → s.labelmap l = none →
    s'.labelmap l = some b → s'.blocks[b]? = some [] ∧ cur' ≠ some b
  left : ∀ ⦃b : BlockRef⦄, cur = some b → b < s.blocks.length → s.Plain b → cur' ≠ some b →
    s'.getTerminator b = true

theorem getTerminator_congr {s s' : GenBlocks} {b : BlockRef}
    (h : s'.blocks[b]? = s.blocks[b]?) : s'.getTerminator b = s.getTerminator b := by
  unfold getTerminator
  rw [h]

section Frame

variable {s s₁ s' : GenBlocks} {cur cur₁ cur' : Option BlockRef} {ls ls' : List LabelId}
  {b : BlockRef} {bi : BlockInst}

theorem Framed.length_le (h : Framed ls s cur s' cur') : s.blocks.length ≤ s'.blocks.length :=
  h.grown.length_le

/-- A block that is no label's never becomes one. -/
theorem Framed.plain (h : Framed ls s cur s' cur') (hb : b < s.blocks.length) (hp : s.Plain b) :
    s'.Plain b := by
  intro l hl
  rcases h.fresh hl with hl | hle
  · exact hp l hl
  · exact Nat.not_le_of_lt hb hle

theorem Framed.kept_plain (h : Framed ls s cur s' cur') (hb : b < s.blocks.length) (hp : s.Plain b)
    (hne : cur ≠ some b) : s'.blocks[b]? = s.blocks[b]? := h.kept hb hne fun l _ => hp l

theorem Framed.refl (h : s.Labelled) : Framed [] s cur s cur where
  labelled := h
  grown := .refl _
  kept := fun _ _ _ _ => rfl
  cursor := fun _ hb => Or.inl hb
  labels := fun _ _ hl => hl
  fresh := fun _ _ hl => Or.inl hl
  pending := by
    intro l b _ hnone hl
    cases hnone.symm.trans hl
  left := fun _ hb _ _ hne => absurd hb hne

theorem Framed.trans (h : Framed ls s cur s₁ cur₁) (h' : Framed ls' s₁ cur₁ s' cur') :
    Framed (ls ++ ls') s cur s' cur' where
  labelled := h'.labelled
  grown := h.grown.trans h'.grown
  kept := by
    intro c hc hne hls
    rw [h'.kept (Nat.lt_of_lt_of_le hc h.length_le), h.kept hc hne]
    · exact fun l hl => hls l (List.mem_append_left _ hl)
    · intro hcur
      rcases h.cursor hcur with hcur | hle | ⟨l, hl, hlab⟩
      · exact hne hcur
      · exact Nat.not_le_of_lt hc hle
      · exact hls l (List.mem_append_left _ hl) hlab
    · intro l hl hlab
      rcases h.fresh hlab with hlab | hle
      · exact hls l (List.mem_append_right _ hl) hlab
      · exact Nat.not_le_of_lt hc hle
  cursor := by
    intro b hb
    rcases h'.cursor hb with hb | hle | ⟨l, hl, hlab⟩
    · rcases h.cursor hb with hb | hle | ⟨l, hl, hlab⟩
      · exact Or.inl hb
      · exact Or.inr (Or.inl hle)
      · exact Or.inr (Or.inr ⟨l, List.mem_append_left _ hl, hlab⟩)
    · exact Or.inr (Or.inl (Nat.le_trans h.length_le hle))
    · rcases h.fresh hlab with hlab | hle
      · exact Or.inr (Or.inr ⟨l, List.mem_append_right _ hl, hlab⟩)
      · exact Or.inr (Or.inl hle)
  labels := fun _ _ hl => h'.labels (h.labels hl)
  fresh := by
    intro l b hl
    rcases h'.fresh hl with hl | hle
    · exact h.fresh hl
    · exact Or.inr (Nat.le_trans h.length_le hle)
  pending := by
    intro l b hmem hnone hl
    rw [List.mem_append, not_or] at hmem
    cases hl₁ : s₁.labelmap l with
    | none => exact h'.pending hmem.2 hl₁ hl
    | some b₁ =>
      -- the label's block has been made in the first part, and the second one leaves it alone
      cases (h'.labels hl₁).symm.trans hl
      obtain ⟨hnil, hne⟩ := h.pending hmem.1 hnone hl₁
      have hother : ∀ l' ∈ ls', s₁.labelmap l' ≠ some b := by
        intro l' hl' hlab
        rw [h.labelled.distinct hlab hl₁] at hl'
        exact hmem.2 hl'
      have hlt := h.labelled.inRange hl₁
      refine ⟨(h'.kept hlt hne hother).trans hnil, fun hcur => ?_⟩
      rcases h'.cursor hcur with hcur | hle | ⟨l', hl', hlab⟩
      · exact hne hcur
      · exact Nat.not_le_of_lt hlt hle
      · exact hother l' hl' hlab
  left := by
    intro b hb hlt hp hne
    have hlt₁ := Nat.lt_of_lt_of_le hlt h.length_le
    by_cases hcur : cur₁ = some b
    · exact h'.left hcur hlt₁ (h.plain hlt hp) hne
    · rw [getTerminator_congr (h'.kept_plain hlt₁ (h.plain hlt hp) hcur)]
      exact h.left hb hlt hp hcur

/-- What was to be defined after a statement is still to be defined then. -/
theorem Framed.waiting (h : Framed ls s cur s' cur') (hlab : s.Labelled)
    (hw : Waiting ls' s cur) (hdis : ls.Disjoint ls') : Waiting ls' s' cur' := by
  intro l hl b hb
  cases hs : s.labelmap l with
  | none => exact h.pending (fun hmem => hdis hmem hl) hs hb
  | some b₁ =>
    cases (h.labels hs).symm.trans hb
    obtain ⟨hnil, hne⟩ := hw l hl b hs
    have hother : ∀ l' ∈ ls, s.labelmap l' ≠ some b := by
      intro l' hl' heq
      rw [hlab.distinct heq hs] at hl'
      exact hdis hl' hl
    have hlt := hlab.inRange hs
    refine ⟨(h.kept hlt hne hother).trans hnil, fun hcur => ?_⟩
    rcases h.cursor hcur with hcur | hle | ⟨l', hl', heq⟩
    · exact hne hcur
    · exact Nat.not_le_of_lt hlt hle
    · exact hother l' hl' heq

/-! ## Steps of the walk -/

/-- Other parts of the state do not matter. -/
theorem Framed.congr (h : Framed ls s cur s₁ cur') (hblocks : s'.blocks = s₁.blocks)
    (hlabels : s'.labelmap = s₁.labelmap) : Framed ls s cur s' cur' where
  labelled := ⟨fun l b hl => hblocks ▸ h.labelled.inRange (hlabels ▸ hl),
    fun l l' b hl hl' => h.labelled.distinct (hlabels ▸ hl) (hlabels ▸ hl')⟩
  grown := hblocks ▸ h.grown
  kept := hblocks ▸ h.kept
  cursor := h.cursor
  labels := hlabels ▸ h.labels
  fresh := hlabels ▸ h.fresh
  pending := hblocks ▸ hlabels ▸ h.pending
  left := by
    intro b hb hlt hp hne
    rw [getTerminator_congr (congrArg (·[b]?) hblocks)]
    exact h.left hb hlt hp hne

theorem labelmap_mkLLVMBlocks (s : GenBlocks) (n : ℕ) :
    (s.mkLLVMBlocks n).labelmap = s.labelmap := by
  rw [mkLLVMBlocks_eq]

theorem mkLLVMBlocks_old (s : GenBlocks) (n : ℕ) (hb : b < s.blocks.length) :
    (s.mkLLVMBlocks n).blocks[b]? = s.blocks[b]? := by
  rw [mkLLVMBlocks_blocks, List.getElem?_append_left hb]

theorem mkLLVMBlocks_new (s : GenBlocks) {n k : ℕ} (hk : k < n) :
    (s.mkLLVMBlocks n).blocks[s.blocks.length + k]? = some [] := by
  rw [mkLLVMBlocks_blocks, List.getElem?_append_right (Nat.le_add_right _ _),
    Nat.add_sub_cancel_left, List.getElem?_replicate_of_lt hk]

/-- New blocks, where control is not yet. -/
theorem Framed.mkLLVMBlocks (h : Framed ls s cur s' cur') (n : ℕ) :
    Framed ls s cur (s'.mkLLVMBlocks n) cur' := by
  have hlen := s'.length_mkLLVMBlocks n
  have hlabels := labelmap_mkLLVMBlocks s' n
  refine ⟨⟨?_, ?_⟩, ?_, ?_, h.cursor, hlabels ▸ h.labels, hlabels ▸ h.fresh, ?_, ?_⟩
  · intro l b hl
    rw [hlabels] at hl
    exact Nat.lt_of_lt_of_le (h.labelled.inRange hl) (hlen ▸ Nat.le_add_right _ _)
  · rw [hlabels]
    exact h.labelled.distinct
  · refine h.grown.trans fun c is hc => ⟨is, ?_, is.prefix_refl⟩
    rw [mkLLVMBlocks_old s' n (List.getElem?_eq_some_iff.mp hc).1, hc]
  · intro c hc hne hls
    rw [mkLLVMBlocks_old s' n (Nat.lt_of_lt_of_le hc h.length_le), h.kept hc hne hls]
  · intro l b hmem hnone hl
    rw [hlabels] at hl
    rw [mkLLVMBlocks_old s' n (h.labelled.inRange hl)]
    exact h.pending hmem hnone hl
  · intro b hb hlt hp hne
    rw [getTerminator_congr (mkLLVMBlocks_old s' n (Nat.lt_of_lt_of_le hlt h.length_le))]
    exact h.left hb hlt hp hne

theorem plain_mkLLVMBlocks (h : s.Labelled) (n k : ℕ) :
    (s.mkLLVMBlocks n).Plain (s.blocks.length + k) := by
  intro l hl
  rw [labelmap_mkLLVMBlocks] at hl
  exact Nat.not_le_of_lt (h.inRange hl) (Nat.le_add_right _ _)

/-- Something is put into the block where control is. -/
theorem Framed.push (h : Framed ls s cur s' (some b)) (bi : BlockInst) :
    Framed ls s cur (s'.push b bi) (some b) where
  labelled := by
    refine ⟨fun l c hl => ?_, h.labelled.distinct⟩
    rw [length_push]
    exact h.labelled.inRange hl
  grown := h.grown.trans (s'.push_extends b bi)
  kept := by
    intro c hc hne hls
    rw [push_ne s', h.kept hc hne hls]
    rintro rfl
    rcases h.cursor rfl with hb | hle | ⟨l, hl, hlab⟩
    · exact hne hb
    · exact Nat.not_le_of_lt hc hle
    · exact hls l hl hlab
  cursor := h.cursor
  labels := h.labels
  fresh := h.fresh
  pending := by
    intro l c hmem hnone hl
    obtain ⟨hnil, hne⟩ := h.pending hmem hnone hl
    rw [push_ne s' fun hcb => hne (congrArg some hcb.symm)]
    exact ⟨hnil, hne⟩
  left := by
    intro c hc hlt hp hne
    rw [getTerminator_congr (push_ne s' fun hcb => hne (congrArg some hcb.symm))]
    exact h.left hc hlt hp hne

/-- Control leaves the block where it is. -/
theorem Framed.close (h : Framed ls s cur s' (some b)) {is : List BlockInst}
    (hb : s'.blocks[b]? = some is) (hbi : bi.isTerminator = true) :
    Framed ls s cur (s'.push b bi) none where
  labelled := (h.push bi).labelled
  grown := (h.push bi).grown
  kept := (h.push bi).kept
  cursor := by
    intro c hc
    cases hc
  labels := h.labels
  fresh := h.fresh
  pending := by
    intro l c hmem hnone hl
    refine ⟨((h.push bi).pending hmem hnone hl).1, fun hc => ?_⟩
    cases hc
  left := by
    intro c hc hlt hp _
    by_cases hcb : some b = some c
    · cases hcb
      rw [getTerminator_of_last _ (push_self s' hb), hbi]
    · exact (h.push bi).left hc hlt hp hcb

/-- Something is put into a block that the walk has made, and that no label has. -/
theorem Framed.pushAt (h : Framed ls s cur s' cur') (hle : s.blocks.length ≤ b)
    (hp : s'.Plain b) (bi : BlockInst) : Framed ls s cur (s'.push b bi) cur' where
  labelled := by
    refine ⟨fun l c hl => ?_, h.labelled.distinct⟩
    rw [length_push]
    exact h.labelled.inRange hl
  grown := h.grown.trans (s'.push_extends b bi)
  kept := by
    intro c hc hne hls
    rw [push_ne s' (Nat.ne_of_lt (Nat.lt_of_lt_of_le hc hle)), h.kept hc hne hls]
  cursor := h.cursor
  labels := h.labels
  fresh := h.fresh
  pending := by
    intro l c hmem hnone hl
    have hcb : c ≠ b := by
      rintro rfl
      exact hp l hl
    rw [push_ne s' hcb]
    exact h.pending hmem hnone hl
  left := by
    intro c hc hlt hpc hne
    rw [getTerminator_congr (push_ne s' (Nat.ne_of_lt (Nat.lt_of_lt_of_le hlt hle)))]
    exact h.left hc hlt hpc hne

/-- Control is in a block that the walk has made, after it has left the one before. -/
theorem Framed.moveTo (h : Framed ls s cur s' none) (hle : s.blocks.length ≤ b)
    (hp : s'.Plain b) : Framed ls s cur s' (some b) where
  labelled := h.labelled
  grown := h.grown
  kept := h.kept
  cursor := by
    intro c hc
    cases hc
    exact Or.inr (Or.inl hle)
  labels := h.labels
  fresh := h.fresh
  pending := by
    intro l c hmem hnone hl
    refine ⟨(h.pending hmem hnone hl).1, fun hc => ?_⟩
    cases hc
    exact hp l hl
  left := by
    intro c hc hlt hpc _
    exact h.left hc hlt hpc fun hn => Option.some_ne_none c hn.symm

/-- Back to where control was before other blocks were walked. -/
theorem Framed.resume (h : Framed ls s cur s₁ cur₁) (h' : Framed ls' s₁ (some b) s' cur')
    (hle : s.blocks.length ≤ b) (hp : s₁.Plain b)
    (hcur : ∀ c, cur₁ = some c → c < s₁.blocks.length) :
    Framed (ls ++ ls') s cur s' cur₁ where
  labelled := h'.labelled
  grown := h.grown.trans h'.grown
  kept := by
    intro c hc hnec hls
    rw [h'.kept (Nat.lt_of_lt_of_le hc h.length_le), h.kept hc hnec]
    · exact fun l hl => hls l (List.mem_append_left _ hl)
    · intro hbc
      cases hbc
      exact Nat.not_le_of_lt hc hle
    · intro l hl hlab
      rcases h.fresh hlab with hlab | hle
      · exact hls l (List.mem_append_right _ hl) hlab
      · exact Nat.not_le_of_lt hc hle
  cursor := by
    intro c hc
    rcases h.cursor hc with hc | hle | ⟨l, hl, hlab⟩
    · exact Or.inl hc
    · exact Or.inr (Or.inl hle)
    · exact Or.inr (Or.inr ⟨l, List.mem_append_left _ hl, hlab⟩)
  labels := fun _ _ hl => h'.labels (h.labels hl)
  fresh := by
    intro l c hl
    rcases h'.fresh hl with hl | hle
    · exact h.fresh hl
    · exact Or.inr (Nat.le_trans h.length_le hle)
  pending := by
    intro l c hmem hnone hl
    rw [List.mem_append, not_or] at hmem
    cases hl₁ : s₁.labelmap l with
    | none =>
      refine ⟨(h'.pending hmem.2 hl₁ hl).1, fun hc => ?_⟩
      rcases h'.fresh hl with hl | hle
      · cases hl₁.symm.trans hl
      · exact Nat.not_le_of_lt (hcur c hc) hle
    | some c₁ =>
      cases (h'.labels hl₁).symm.trans hl
      obtain ⟨hnil, hnec⟩ := h.pending hmem.1 hnone hl₁
      refine ⟨(h'.kept (h.labelled.inRange hl₁) ?_ ?_).trans hnil, hnec⟩
      · intro hbc
        cases hbc
        exact hp l hl₁
      · intro l' hl' hlab
        rw [h.labelled.distinct hlab hl₁] at hl'
        exact hmem.2 hl'
  left := by
    intro c hc hlt hpc hnec
    have hlt₁ := Nat.lt_of_lt_of_le hlt h.length_le
    have hbc : some b ≠ some c := by
      intro hbc
      cases hbc
      exact Nat.not_le_of_lt hlt hle
    rw [getTerminator_congr (h'.kept_plain hlt₁ (h.plain hlt hpc) hbc)]
    exact h.left hc hlt hpc hnec

/-- Other blocks have been walked meanwhile. -/
theorem Framed.aside (h : Framed ls s none s' none) (hb : b < s.blocks.length) :
    Framed ls s (some b) s' (some b) where
  labelled := h.labelled
  grown := h.grown
  kept := fun c hc _ hls => h.kept hc (fun hn => Option.some_ne_none c hn.symm) hls
  cursor := fun _ hc => Or.inl hc
  labels := h.labels
  fresh := h.fresh
  pending := by
    intro l c hmem hnone hl
    refine ⟨(h.pending hmem hnone hl).1, fun hc => ?_⟩
    cases hc
    rcases h.fresh hl with hl | hle
    · cases hnone.symm.trans hl
    · exact Nat.not_le_of_lt hb hle
  left := fun _ hc _ _ hne => absurd hc hne

/-! ## Branches and labels -/

theorem live_none (s : GenBlocks) : s.Live none := by
  intro b hb
  cases hb

theorem live_of_nil (h : s.blocks[b]? = some []) : s.Live (some b) := by
  intro c hc
  cases hc
  exact ⟨[], h, getTerminator_of_nil s h⟩

theorem Live.lt (h : s.Live cur) (hb : cur = some b) : b < s.blocks.length := by
  obtain ⟨is, his, -⟩ := h b hb
  exact (List.getElem?_eq_some_iff.mp his).1

theorem Live.congr (h : s.Live cur) (hkept : ∀ b, cur = some b → s'.blocks[b]? = s.blocks[b]?) :
    s'.Live cur := by
  intro b hb
  obtain ⟨is, his, hopen⟩ := h b hb
  exact ⟨is, (hkept b hb).trans his, (getTerminator_congr (hkept b hb)).trans hopen⟩

/-- The walk of other blocks leaves the block alone where control was. -/
theorem Live.aside (h : s₁.Live cur) (hf : Framed ls s₁ cur₁ s' cur')
    (hne : ∀ b, cur = some b → cur₁ ≠ some b) (hw : Waiting ls s₁ cur) : s'.Live cur := by
  refine h.congr fun b hb => hf.kept (h.lt hb) (hne b hb) fun l hl hlab => ?_
  exact (hw l hl b hlab).2 hb

theorem branchTo_of_live {target : BlockRef} (h : s.Live (some b)) :
    s.branchTo (some b) target = s.push b (.br target) := by
  obtain ⟨is, -, hopen⟩ := h b rfl
  exact branchTo_of_open hopen

theorem labelmap_branchTo (s : GenBlocks) (cur : Option BlockRef) (target : BlockRef) :
    (s.branchTo cur target).labelmap = s.labelmap := by
  unfold GenBlocks.branchTo
  cases cur with
  | none => rfl
  | some b =>
    dsimp only
    split_ifs <;> rfl

theorem leave_eq_branchTo {target : BlockRef} (h : s.Live cur) :
    s.leave cur target = s.branchTo cur target := by
  cases cur with
  | none => rfl
  | some b => exact (branchTo_of_live h).symm

theorem Framed.branchTo (h : Framed ls s cur s' cur') (hlive : s'.Live cur') (target : BlockRef) :
    Framed ls s cur (s'.branchTo cur' target) none := by
  cases cur' with
  | none => exact h
  | some b =>
    obtain ⟨is, his, -⟩ := hlive b rfl
    rw [branchTo_of_live hlive]
    exact h.close his rfl

/-- The block of a label, which is made if there is none yet. -/
theorem Framed.getBlockForLabel (h : Framed ls s cur s' cur') (hlive : s'.Live cur')
    (lab : LabelId) : Framed ls s cur (s'.getBlockForLabel lab).2 cur' ∧
      (s'.getBlockForLabel lab).2.labelmap lab = some (s'.getBlockForLabel lab).1 ∧
        ∀ b < s'.blocks.length, (s'.getBlockForLabel lab).2.blocks[b]? = s'.blocks[b]? := by
  unfold GenBlocks.getBlockForLabel
  cases hl : s'.labelmap lab with
  | some bb => exact ⟨h, hl, fun _ _ => rfl⟩
  | none =>
    have hnew := h.mkLLVMBlocks 1
    have hlen : (s'.mkLLVMBlocks 1).blocks.length = s'.blocks.length + 1 :=
      length_mkLLVMBlocks s' 1
    have hold : ∀ l b, s'.labelmap l = some b → b ≠ s'.blocks.length :=
      fun l b hb => Nat.ne_of_lt (h.labelled.inRange hb)
    refine ⟨⟨⟨?_, ?_⟩, hnew.grown, hnew.kept, h.cursor, ?_, ?_, ?_, hnew.left⟩, if_pos rfl, ?_⟩
    · intro l b hb
      dsimp only at hb
      split_ifs at hb
      · cases hb
        exact Nat.lt_of_lt_of_eq (Nat.lt_succ_self _) hlen.symm
      · exact hnew.labelled.inRange hb
    · intro l l' b hb hb'
      dsimp only at hb hb'
      split_ifs at hb hb' with h₁ h₂ h₂
      · rw [h₁, h₂]
      · cases hb
        exact absurd rfl (hold l' _ hb')
      · cases hb'
        exact absurd rfl (hold l _ hb)
      · exact h.labelled.distinct hb hb'
    · intro l b hb
      dsimp only
      split_ifs with heq
      · subst heq
        cases hl.symm.trans (h.labels hb)
      · exact h.labels hb
    · intro l b hb
      dsimp only at hb
      split_ifs at hb
      · cases hb
        exact Or.inr h.length_le
      · exact h.fresh hb
    · intro l b hmem hnone hb
      dsimp only at hb
      split_ifs at hb
      · cases hb
        refine ⟨mkLLVMBlocks_new s' Nat.one_pos, fun hc => ?_⟩
        exact Nat.lt_irrefl _ (hlive.lt hc)
      · exact hnew.pending hmem hnone hb
    · exact fun b hb => mkLLVMBlocks_old s' 1 hb

/-- Control is in the block of a label that is defined now. -/
theorem Framed.define (h : Framed [] s cur s' none) {lab : LabelId}
    (hl : s'.labelmap lab = some b) : Framed [lab] s cur s' (some b) where
  labelled := h.labelled
  grown := h.grown
  kept := fun c hc hne _ => h.kept hc hne fun l hmem => absurd hmem List.not_mem_nil
  cursor := by
    intro c hc
    cases hc
    rcases h.fresh hl with hl | hle
    · exact Or.inr (Or.inr ⟨lab, List.mem_singleton_self lab, hl⟩)
    · exact Or.inr (Or.inl hle)
  labels := h.labels
  fresh := h.fresh
  pending := by
    intro l c hmem hnone hlc
    refine ⟨(h.pending List.not_mem_nil hnone hlc).1, fun hc => ?_⟩
    cases hc
    exact hmem (List.mem_singleton.mpr (h.labelled.distinct hlc hl))
  left := by
    intro c hc hlt hp _
    exact h.left hc hlt hp fun hn => Option.some_ne_none c hn.symm

/-! ## Blocks for later -/

/-- An empty block that is for something else than a label, and where control is not. -/
structure Reserved (s : GenBlocks) (cur : Option BlockRef) (b : BlockRef) : Prop where
  empty : s.blocks[b]? = some []
  plain : s.Plain b
  away : cur ≠ some b

theorem Reserved.lt (h : s.Reserved cur b) : b < s.blocks.length :=
  (List.getElem?_eq_some_iff.mp h.empty).1

theorem Framed.reserved (h : Framed ls s cur s' cur') (hb : s.Reserved cur b) :
    s'.Reserved cur' b where
  empty := (h.kept_plain hb.lt hb.plain hb.away).trans hb.empty
  plain := h.plain hb.lt hb.plain
  away := by
    intro hcur
    rcases h.cursor hcur with hcur | hle | ⟨l, -, hl⟩
    · exact hb.away hcur
    · exact Nat.not_le_of_lt hb.lt hle
    · exact hb.plain l hl

theorem branchTo_ne (s : GenBlocks) {target : BlockRef} (h : cur ≠ some b) :
    (s.branchTo cur target).blocks[b]? = s.blocks[b]? := by
  unfold GenBlocks.branchTo
  cases cur with
  | none => rfl
  | some c =>
    dsimp only
    split_ifs
    · rfl
    · exact push_ne s fun hbc => h (congrArg some hbc.symm)

theorem Reserved.branchTo (h : s.Reserved cur b) (target : BlockRef) :
    (s.branchTo cur target).Reserved none b where
  empty := (branchTo_ne s h.away).trans h.empty
  plain := by
    intro l hl
    rw [labelmap_branchTo] at hl
    exact h.plain l hl
  away := fun hn => Option.some_ne_none b hn.symm

theorem Reserved.moveTo {c : BlockRef} (h : s.Reserved cur b) (hne : c ≠ b) :
    s.Reserved (some c) b :=
  ⟨h.empty, h.plain, fun hc => hne (Option.some.inj hc)⟩

theorem Reserved.push {c : BlockRef} (h : s.Reserved cur b) (hne : c ≠ b) (bi : BlockInst) :
    (s.push c bi).Reserved cur b :=
  ⟨(push_ne s hne.symm).trans h.empty, h.plain, h.away⟩

end Frame

end GenBlocks

end Dragongo
