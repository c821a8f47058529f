import Dragongo.Assignment

/-!
# Expanding a composite

The code of the elements runs first, and builds the composites among them in temporaries; the
stores come after it.  While neither the temporaries nor the storage overlap what is read, each
element is in its place in the end.
-/

namespace Dragongo
open LType Varexpr_context

/-! ## What expanding needs of memory -/

mutual
/-- What an expression means is in memory from an address on, each part of a composite at its
offset. -/
def Contains (M₀ : Machine) (m : BitVec 64 → BitVec 8) (a : BitVec 64) : Bexpression → Prop
  | .expr bt v vc => Memory.read m a bt.type.shape.allocSize = M₀.means (.expr bt v vc)
  | .compositeInit _ bt elems => AllContain M₀ m a bt.type elems 0
def AllContain (M₀ : Machine) (m : BitVec 64 → BitVec 8) (a : BitVec 64) (t : LType) :
    List Bexpression → ℕ → Prop
  | [], _ => True
  | e :: es, i =>
    Contains M₀ m (a + BitVec.ofNat 64 (t.partOffset i)) e ∧ AllContain M₀ m a t es (i + 1)
end

namespace Machine

/-- The object that a value points to. -/
def object (M : Machine) (v : Value) : Set (BitVec 64) :=
  Memory.region (M.address v) v.type.pointeeType.shape.allocSize

mutual
/-- The temporaries that composites are built in. -/
def scratch (M : Machine) : Bexpression → Set (BitVec 64)
  | .expr .. => ∅
  | .compositeInit node bt elems => M.object (.temporary node bt.type) ∪ allScratch M elems
def allScratch (M : Machine) : List Bexpression → Set (BitVec 64)
  | [] => ∅
  | e :: es => scratch M e ∪ allScratch M es
end

mutual
/-- The temporaries are apart from each other, and from all that is read. -/
def Separate (M : Machine) (read : Set (BitVec 64)) : Bexpression → Prop
  | .expr .. => True
  | .compositeInit node bt elems =>
    Disjoint (read ∪ M.allScratch elems) (M.object (.temporary node bt.type)) ∧
      AllSeparate M read elems
def AllSeparate (M : Machine) (read : Set (BitVec 64)) : List Bexpression → Prop
  | [] => True
  | e :: es => Separate M read e ∧ Disjoint (read ∪ M.scratch e) (M.allScratch es) ∧
    AllSeparate M read es
end

mutual
/-- Values have as many bytes as their types. -/
def Sized (M : Machine) : Bexpression → Prop
  | .expr bt v vc => (M.means (.expr bt v vc)).length = bt.type.shape.allocSize
  | .compositeInit _ _ elems => AllSized M elems
def AllSized (M : Machine) : List Bexpression → Prop
  | [] => True
  | e :: es => Sized M e ∧ AllSized M es
end

mutual
/-- The bytes that an element is stored as.  A composite is in its temporary, where the gaps
between its elements are what they were. -/
def image (M : Machine) : Bexpression → Bytes
  | .expr bt v vc => M.means (.expr bt v vc)
  | .compositeInit node bt elems =>
    Memory.read (fill M.memory (M.address (.temporary node bt.type)) bt.type 0 (images M elems))
      (M.address (.temporary node bt.type)) bt.type.shape.allocSize
def images (M : Machine) : List Bexpression → List Bytes
  | [] => []
  | e :: es => image M e :: images M es
end

end Machine

/-- An element is where its index, a number of 32 bits with a sign, says it is. -/
def Value.InPlace : Value → Prop
  | .element _ t (.constantInt bits i) =>
    (BitVec.ofInt bits i).toInt * t.partSize 0 = i * t.partSize 0
  | _ => True

/-- The elements of an array have indexes that are positive numbers of 32 bits, or no bytes. -/
def LType.Indexable (t : LType) : Prop :=
  t.isArrayTy → t.numElements ≤ 2 ^ 31 ∨ t.partSize 0 = 0

mutual
/-- The composites in an expression can be expanded element by element. -/
def Indexed : Bexpression → Prop
  | .expr .. => True
  | .compositeInit _ bt elems => bt.type.Indexable ∧ AllIndexed elems
def AllIndexed : List Bexpression → Prop
  | [] => True
  | e :: es => Indexed e ∧ AllIndexed es
end

/-- A store goes to its place, and a copy is of a whole object. -/
def Inst.IsSound : Inst → Prop
  | .store (.value dst _) => dst.InPlace
  | .store (.copy dst _ size _) => dst.InPlace ∧ size = dst.type.pointeeType.shape.allocSize
  | _ => True

/-! ## Places -/

section Places

variable {t : LType} {storage : Value} {i : ℕ}

theorem partAddress_type (ht : t.isAggregateType) (hi : i < t.numElements) :
    (t.partAddress storage i).type = ptr (t.typeAtIndex i) := by
  cases t with
  | array elem n => rfl
  | struct id fields => rfl
  | structRef id => cases hi
  | _ => cases ht

theorem toIndex_constantInt (M : Machine) (i : ℤ) :
    (M.bytes (.constantInt 32 i)).toIndex = (BitVec.ofInt 32 i).toInt := by
  have hsize : (LType.int 32).shape.allocSize = 4 := by decide
  have hlt : (BitVec.ofInt 32 i).toNat < 256 ^ 4 := (BitVec.ofInt 32 i).isLt
  rw [Machine.bytes, hsize, Bytes.toIndex, LittleEndian.length_bytes, LittleEndian.ofBytes_bytes,
    Nat.mod_eq_of_lt hlt, BitVec.toInt_eq_toNat_bmod]

/-- The address of a part whose index is right. -/
theorem address_partAddress (M : Machine) (h : (t.partAddress storage i).InPlace) :
    M.address (t.partAddress storage i) =
      M.address storage + BitVec.ofNat 64 (t.partOffset i) := by
  unfold partAddress at h ⊢
  by_cases ht : t.isArrayTy
  · rw [if_pos ht] at h ⊢
    rw [Value.InPlace] at h
    have hoffset : (i : ℤ) * t.partSize 0 = (t.partOffset i : ℕ) := by
      cases t with
      | array elem n => exact (Nat.cast_mul i elem.shape.allocSize).symm
      | _ => cases ht
    rw [Machine.address, Machine.bytes, Bytes.toAddress_ofAddress, toIndex_constantInt, h, hoffset,
      BitVec.ofInt_natCast]
    rfl
  · rw [if_neg ht]
    rw [Machine.address, Machine.bytes, Bytes.toAddress_ofAddress]
    rfl

theorem toInt_ofInt_32 (hi : i < 2 ^ 32) :
    (BitVec.ofInt 32 i).toInt = if i < 2 ^ 31 then (i : ℤ) else i - 2 ^ 32 := by
  rw [BitVec.toInt_ofInt]
  split_ifs with hlt
  · exact Int.bmod_eq_of_le (by omega) (by omega)
  · rw [Int.bmod_def]
    omega

/-- From `2 ^ 31` on an index is taken for a negative number. -/
theorem inPlace_iff (hi : i < 2 ^ 32) :
    (t.partAddress storage i).InPlace ↔ (t.isArrayTy → i < 2 ^ 31 ∨ t.partSize 0 = 0) := by
  unfold partAddress
  by_cases ht : t.isArrayTy
  · rw [if_pos ht, Value.InPlace, toInt_ofInt_32 hi, forall_prop_of_true ht]
    split_ifs with hlt
    · exact iff_of_true rfl (.inl hlt)
    · constructor
      · intro h
        rw [sub_mul] at h
        have hzero : (2 ^ 32 : ℤ) * t.partSize 0 = 0 := sub_eq_self.mp h
        exact .inr (by simpa using hzero)
      · rintro (h | h)
        · exact absurd h hlt
        · rw [h, Nat.cast_zero, mul_zero, mul_zero]
  · rw [if_neg ht]
    exact iff_of_true trivial fun h => absurd h ht

/-- All elements are in place when the type allows it. -/
theorem inPlace_of_indexable (h : t.Indexable) (storage : Value) (hi : i < t.numElements) :
    (t.partAddress storage i).InPlace := by
  by_cases hlt : i < 2 ^ 32
  · refine (inPlace_iff hlt).mpr fun ht => ?_
    rcases h ht with hn | hzero
    · exact .inl (Nat.lt_of_lt_of_le hi hn)
    · exact .inr hzero
  · unfold partAddress
    by_cases ht : t.isArrayTy
    · have hzero : t.partSize 0 = 0 := (h ht).resolve_left fun hn => by omega
      rw [if_pos ht, Value.InPlace, hzero, Nat.cast_zero, mul_zero, mul_zero]
    · rw [if_neg ht]
      exact trivial

theorem indexable_of_inPlace
    (h : ∀ j < t.numElements, (t.partAddress storage j).InPlace) : t.Indexable := by
  intro ht
  by_contra hnot
  rw [not_or, Nat.not_le] at hnot
  have hplace := (inPlace_iff (by decide)).mp (h (2 ^ 31) hnot.1) ht
  rcases hplace with hlt | hzero
  · exact absurd hlt (Nat.lt_irrefl _)
  · exact hnot.2 hzero

end Places

/-! ## Contents -/

section Fill

variable {t : LType} {a : BitVec 64}

/-- A part is inside the object. -/
theorem part_subset {i : ℕ} (hi : i < t.numElements) :
    Memory.region (a + BitVec.ofNat 64 (t.partOffset i)) (t.partSize i) ⊆
      Memory.region a t.shape.allocSize :=
  Memory.region_add_subset (partOffset_spaced hi).2

/-- Parts that come later are written elsewhere. -/
theorem read_fill_of_lt (hsize : t.shape.allocSize ≤ 2 ^ 64) {i j : ℕ} (hij : j < i)
    (m : BitVec 64 → BitVec 8) (bss : List Bytes) (hlen : i + bss.length ≤ t.numElements)
    (hbss : ∀ k bs, bss[k]? = some bs → bs.length = t.partSize (i + k)) :
    Memory.read (fill m a t i bss) (a + BitVec.ofNat 64 (t.partOffset j)) (t.partSize j) =
      Memory.read m (a + BitVec.ofNat 64 (t.partOffset j)) (t.partSize j) := by
  induction bss generalizing i m with
  | nil => rfl
  | cons bs bss ih =>
    rw [List.length_cons] at hlen
    have hi : i < t.numElements := by omega
    have hbs : bs.length = t.partSize i := hbss 0 bs rfl
    rw [fill, ih (Nat.lt_succ_of_lt hij) _ (by omega) fun k bs' hk => ?_]
    · refine Memory.read_write_of_disjoint ?_
      rw [hbs]
      refine Memory.disjoint_region_add ((partOffset_spaced (hij.trans hi)).1 i hij hi) ?_
      exact (partOffset_spaced hi).2.trans hsize
    · rw [hbss (k + 1) bs' hk, Nat.succ_add]
      rfl

theorem read_fill (hsize : t.shape.allocSize ≤ 2 ^ 64) {i : ℕ} (m : BitVec 64 → BitVec 8)
    (bss : List Bytes) (hlen : i + bss.length ≤ t.numElements)
    (hbss : ∀ k bs, bss[k]? = some bs → bs.length = t.partSize (i + k)) :
    ∀ k bs, bss[k]? = some bs →
      Memory.read (fill m a t i bss) (a + BitVec.ofNat 64 (t.partOffset (i + k)))
        (t.partSize (i + k)) = bs := by
  induction bss generalizing i m with
  | nil => exact fun k bs hk => nomatch hk
  | cons bs bss ih =>
    rw [List.length_cons] at hlen
    have hrest : ∀ k bs', bss[k]? = some bs' → bs'.length = t.partSize (i + 1 + k) := by
      intro k bs' hk
      rw [hbss (k + 1) bs' hk, Nat.add_right_comm, Nat.add_assoc]
    intro k bs' hk
    cases k with
    | zero =>
      cases hk
      have hbs : bs.length = t.partSize i := hbss 0 bs rfl
      have hfits : t.partSize i ≤ 2 ^ 64 := (Nat.le_add_left _ _).trans
        ((partOffset_spaced (t := t) (i := i) (by omega)).2.trans hsize)
      rw [Nat.add_zero, fill,
        read_fill_of_lt hsize (Nat.lt_succ_self i) _ bss (by omega) hrest, ← hbs]
      exact Memory.read_write (hbs ▸ hfits)
    | succ k =>
      have hpart := ih (Memory.write m (a + BitVec.ofNat 64 (t.partOffset i)) bs) (by omega)
        hrest k bs' hk
      rwa [Nat.add_right_comm, Nat.add_assoc] at hpart

/-- What is filled does not depend on what was there before. -/
theorem fill_congr {m m' : BitVec 64 → BitVec 8} {b : BitVec 64} (h : m b = m' b) (i : ℕ)
    (bss : List Bytes) : fill m a t i bss b = fill m' a t i bss b := by
  induction bss generalizing m m' i with
  | nil => exact h
  | cons bs bss ih =>
    refine ih ?_ (i + 1)
    rw [Memory.write, Memory.write, h]

end Fill

namespace Machine

variable {M : Machine}

theorem images_eq_map (M : Machine) (es : List Bexpression) : M.images es = es.map M.image := by
  induction es with
  | nil => rfl
  | cons e es ih => rw [images, ih, List.map_cons]

theorem length_image : ∀ {e : Bexpression}, M.Sized e →
    (M.image e).length = e.btype.type.shape.allocSize
  | .expr .., h => h
  | .compositeInit .., _ => Memory.length_read

theorem length_images : ∀ {es : List Bexpression} {t : LType} {i : ℕ}, AreWellTyped es t i →
    M.AllSized es → ∀ k bs, (M.images es)[k]? = some bs → bs.length = t.partSize (i + k)
  | e :: es, t, i, hw, h, k, bs, hk => by
    cases k with
    | zero =>
      cases hk
      rw [length_image h.1, hw.2.1]
      rfl
    | succ k =>
      rw [← Nat.add_assoc, Nat.add_right_comm]
      exact length_images hw.2.2 h.2 k bs hk

end Machine

mutual
/-- Where the bytes of an element are, there is what it means. -/
theorem Contains.of_image {M : Machine} {m : BitVec 64 → BitVec 8} {a : BitVec 64} :
    ∀ {e : Bexpression}, WellTyped e → M.Sized e → e.btype.type.shape.allocSize ≤ 2 ^ 64 →
      Memory.read m a e.btype.type.shape.allocSize = M.image e → Contains M m a e
  | .expr .., _, _, _, h => h
  | .compositeInit node bt elems, hw, hsized, hsize, h => by
    have hlen : (M.images elems).length = bt.type.numElements := by
      rw [Machine.images_eq_map, List.length_map]
      exact hw.2.1
    refine AllContain.of_parts hw.2.2 hsized (by rw [hw.2.1, Nat.zero_add]) hsize fun k e hk => ?_
    have hk' : (M.images elems)[k]? = some (M.image e) := by
      rw [Machine.images_eq_map, List.getElem?_map, hk]
      rfl
    have hlt : k < bt.type.numElements := hlen ▸ (List.getElem?_eq_some_iff.mp hk').1
    have hend := (partOffset_spaced hlt).2
    have hread : Memory.read m a bt.type.shape.allocSize = M.image (.compositeInit node bt elems) := h
    rw [Machine.image] at hread
    rw [Nat.zero_add, Memory.read_add hend, hread, ← Memory.read_add hend]
    have hpart := read_fill (a := M.address (.temporary node bt.type)) hsize M.memory
      (M.images elems) (Nat.le_of_eq ((Nat.zero_add _).trans hlen))
      (Machine.length_images hw.2.2 hsized) k _ hk'
    rwa [Nat.zero_add] at hpart
theorem AllContain.of_parts {M : Machine} {m : BitVec 64 → BitVec 8} {a : BitVec 64} {t : LType} :
    ∀ {es : List Bexpression} {i : ℕ}, AreWellTyped es t i → M.AllSized es →
      i + es.length = t.numElements → t.shape.allocSize ≤ 2 ^ 64 →
        (∀ k e, es[k]? = some e → Memory.read m (a + BitVec.ofNat 64 (t.partOffset (i + k)))
          (t.partSize (i + k)) = M.image e) → AllContain M m a t es i
  | [], _, _, _, _, _, _ => trivial
  | e :: es, i, hw, hsized, hlen, hsize, h => by
    rw [List.length_cons] at hlen
    have hpart : e.btype.type.shape.allocSize = t.partSize i := by rw [hw.2.1]; rfl
    have hfits : t.partSize i ≤ 2 ^ 64 := ((Nat.le_add_left _ _).trans
      (partOffset_spaced (t := t) (i := i) (by omega)).2).trans hsize
    refine ⟨Contains.of_image hw.1 hsized.1 (hpart ▸ hfits) ?_,
      AllContain.of_parts hw.2.2 hsized.2 (by omega) hsize fun k e' hk => ?_⟩
    · rw [hpart]
      exact h 0 e rfl
    · rw [Nat.add_right_comm, Nat.add_assoc]
      exact h (k + 1) e' hk
end

namespace Machine

/-- Where an aggregate is copied from; one that has been built is in its temporary. -/
def source (M : Machine) (e : Bexpression) : BitVec 64 := (e.storage.map M.address).getD 0

/-- The source of an aggregate still has its bytes. -/
def Keeps (M₀ : Machine) (m : BitVec 64 → BitVec 8) (e : Bexpression) : Prop :=
  e.btype.type.isAggregateType →
    Memory.read m (M₀.source e) e.btype.type.shape.allocSize = M₀.image e

/-- The store puts an element into its destination: the bytes of a value that has been computed,
or a copy of what is at its source by then. -/
inductive Supplies (M₀ M : Machine) (e : Bexpression) (dst : Value) : Stored → Prop
  | value {v : Value} (scalar : ¬e.btype.type.isAggregateType) (ready : M.Ready v)
    (bytes : M.bytes v = M₀.image e) : Supplies M₀ M e dst (.value dst v)
  | copy {src : Value} (aggregate : e.btype.type.isAggregateType) (ready : M.Ready src)
    (address : M.address src = M₀.source e) :
    Supplies M₀ M e dst (.copy dst src e.btype.type.shape.allocSize e.btype.type.prefAlign)

/-- The bytes that the store of an element writes. -/
def stored (M₀ : Machine) (m : BitVec 64 → BitVec 8) (e : Bexpression) : Bytes :=
  if e.btype.type.isAggregateType then
    Memory.read m (M₀.source e) e.btype.type.shape.allocSize
  else M₀.image e

/-- Memory after the stores of the elements from index `i` on. -/
def expand (M₀ : Machine) (m : BitVec 64 → BitVec 8) (a : BitVec 64) (t : LType) :
    ℕ → List Bexpression → BitVec 64 → BitVec 8
  | _, [] => m
  | i, e :: es =>
    expand M₀ (Memory.write m (a + BitVec.ofNat 64 (t.partOffset i)) (M₀.stored m e)) a t (i + 1)
      es

section Supplies

variable {M₀ M M' : Machine} {W : Set (BitVec 64)} {e : Bexpression} {dst v : Value}
  {st : Stored} {m : BitVec 64 → BitVec 8}

theorem Frame.address_eq (h : M.Frame M' W) (hv : M.Ready v) : M'.address v = M.address v := by
  rw [address, address, (h.bytes_eq v hv).1]

/-- Writes leave the values that have been computed as they are. -/
theorem Supplies.frame (h : M₀.Supplies M e dst st) (hf : M.Frame M' W) :
    M₀.Supplies M' e dst st := by
  cases h with
  | value scalar ready bytes =>
    obtain ⟨heq, hready⟩ := hf.bytes_eq _ ready
    exact .value scalar hready (heq.trans bytes)
  | copy aggregate ready address =>
    exact .copy aggregate (hf.bytes_eq _ ready).2 ((hf.address_eq ready).trans address)

theorem Supplies.exec (h : M₀.Supplies M e dst st) (hcopy : e.btype.type.isAggregateType →
      CanCopy (M.address dst) (M₀.source e) e.btype.type.shape.allocSize)
    (halign : e.btype.type.isAggregateType →
      AreAligned e.btype.type.prefAlign (M.address dst) (M₀.source e)) :
    M.exec (.store st) = some (M.write (M.address dst) (M₀.stored M.memory e)) := by
  cases h with
  | value scalar ready bytes => rw [Machine.exec, stored, if_neg scalar, bytes]
  | copy aggregate ready address =>
    rw [Machine.exec, stored, if_pos aggregate, address,
      if_pos ⟨hcopy aggregate, halign aggregate⟩]

/-- A store that runs writes the bytes of the element, and a copy keeps its promise then. -/
theorem Supplies.of_exec (h : M₀.Supplies M e dst st) (hexec : M.exec (.store st) = some M') :
    M' = M.write (M.address dst) (M₀.stored M.memory e) ∧ (e.btype.type.isAggregateType →
      AreAligned e.btype.type.prefAlign (M.address dst) (M₀.source e)) := by
  cases h with
  | value scalar ready bytes =>
    cases hexec
    rw [stored, if_neg scalar, bytes]
    exact ⟨rfl, fun hagg => absurd hagg scalar⟩
  | copy aggregate ready address =>
    rw [Machine.exec, address] at hexec
    split_ifs at hexec with hcopy
    cases hexec
    rw [stored, if_pos aggregate]
    exact ⟨rfl, fun _ => hcopy.2⟩

theorem length_stored (hsized : M₀.Sized e) :
    (M₀.stored m e).length = e.btype.type.shape.allocSize := by
  rw [stored]
  split_ifs
  · exact Memory.length_read
  · exact length_image hsized

theorem Keeps.stored_eq (h : M₀.Keeps m e) : M₀.stored m e = M₀.image e := by
  rw [stored]
  split_ifs with hagg
  · exact h hagg
  · rfl

/-- The source is something that is read, or a temporary. -/
theorem region_source_subset (hw : WellTyped e) (hagg : e.btype.type.isAggregateType) :
    Memory.region (M₀.source e) e.btype.type.shape.allocSize ⊆ M₀.uses e ∪ M₀.scratch e := by
  cases e with
  | compositeInit node bt elems => exact fun b hb => .inr (.inl hb)
  | expr bt v vc =>
    obtain ⟨a, ha⟩ : ∃ a, (Bexpression.expr bt v vc).storage = some a := by
      rw [Bexpression.storage]
      by_cases hp : vc.pending
      · exact ⟨v, by rw [if_pos hp, if_pos (pending_aggregate hw hagg hp)]⟩
      · have hagg' : bt.type.isAggregateType := hagg
        exact ⟨.constantVariable v, by rw [if_neg hp, if_pos hagg']⟩
    rw [source, uses, ha]
    exact fun b hb => .inl (.inr hb)

theorem Keeps.congr {m' : BitVec 64 → BitVec 8} (h : M₀.Keeps m e) (hm : ∀ b ∉ W, m' b = m b)
    (hd : e.btype.type.isAggregateType →
      Disjoint (Memory.region (M₀.source e) e.btype.type.shape.allocSize) W) :
    M₀.Keeps m' e := by
  intro hagg
  rw [← h hagg]
  exact Memory.read_congr fun b hb => hm b (Set.disjoint_left.mp (hd hagg) hb)

end Supplies

/-- The stores of the elements from index `i` on put them into their places. -/
inductive AllSupply (M₀ M : Machine) (t : LType) (storage : Value) :
    ℕ → List Bexpression → List Stored → Prop
  | nil (i : ℕ) : AllSupply M₀ M t storage i [] []
  | cons {i : ℕ} {e : Bexpression} {es : List Bexpression} {st : Stored} {sts : List Stored}
    (head : M₀.Supplies M e (t.partAddress storage i) st)
    (tail : AllSupply M₀ M t storage (i + 1) es sts) :
    AllSupply M₀ M t storage i (e :: es) (st :: sts)

/-- Each aggregate lies where it is copied to, or apart from there. -/
def AllApart (M : Machine) (a : BitVec 64) (t : LType) (i : ℕ) (es : List Bexpression) : Prop :=
  ∀ k e, es[k]? = some e → e.btype.type.isAggregateType →
    CanCopy (a + BitVec.ofNat 64 (t.partOffset (i + k))) (M.source e)
      e.btype.type.shape.allocSize

/-- Aggregates, and the places that they are copied to, lie where a copy promises. -/
def PartsAligned (M : Machine) (a : BitVec 64) (t : LType) (i : ℕ) (es : List Bexpression) :
    Prop :=
  ∀ k e, es[k]? = some e → e.btype.type.isAggregateType →
    AreAligned e.btype.type.prefAlign (a + BitVec.ofNat 64 (t.partOffset (i + k))) (M.source e)

mutual
/-- So do the elements of the composites that are built in temporaries. -/
def BuildsAligned (M : Machine) : Bexpression → Prop
  | .expr .. => True
  | .compositeInit node bt elems =>
    M.PartsAligned (M.address (.temporary node bt.type)) bt.type 0 elems ∧ AllBuildAligned M elems
def AllBuildAligned (M : Machine) : List Bexpression → Prop
  | [] => True
  | e :: es => BuildsAligned M e ∧ AllBuildAligned M es
end

/-- When an aggregate is copied, its source still has its bytes. -/
def AllKeep (M : Machine) (m : BitVec 64 → BitVec 8) (a : BitVec 64) (t : LType) (i : ℕ)
    (es : List Bexpression) : Prop :=
  ∀ k e, es[k]? = some e → M.Keeps (fill m a t i (M.images (es.take k))) e

section AllSupply

variable {M₀ M M' : Machine} {W : Set (BitVec 64)} {t : LType} {storage : Value}
  {es : List Bexpression} {sts : List Stored} {e : Bexpression} {a : BitVec 64}
  {m : BitVec 64 → BitVec 8}

theorem AllSupply.frame {i : ℕ} (h : M₀.AllSupply M t storage i es sts) (hf : M.Frame M' W) :
    M₀.AllSupply M' t storage i es sts := by
  induction h with
  | nil i => exact .nil i
  | cons head _ ih => exact .cons (head.frame hf) ih

theorem AllApart.tail {i : ℕ} (h : M₀.AllApart a t i (e :: es)) : M₀.AllApart a t (i + 1) es := by
  intro k e' hk
  rw [Nat.add_right_comm, Nat.add_assoc]
  exact h (k + 1) e' hk

theorem PartsAligned.tail {i : ℕ} (h : M₀.PartsAligned a t i (e :: es)) :
    M₀.PartsAligned a t (i + 1) es := by
  intro k e' hk
  rw [Nat.add_right_comm, Nat.add_assoc]
  exact h (k + 1) e' hk

theorem PartsAligned.cons {i : ℕ} (hhead : e.btype.type.isAggregateType →
      AreAligned e.btype.type.prefAlign (a + BitVec.ofNat 64 (t.partOffset i)) (M₀.source e))
    (htail : M₀.PartsAligned a t (i + 1) es) : M₀.PartsAligned a t i (e :: es) := by
  intro k e' hk
  cases k with
  | zero =>
    cases hk
    exact hhead
  | succ k =>
    rw [← Nat.add_assoc, Nat.add_right_comm]
    exact htail k e' hk

theorem AllKeep.head {i : ℕ} (h : M₀.AllKeep m a t i (e :: es)) : M₀.Keeps m e := h 0 e rfl

theorem AllKeep.tail {i : ℕ} (h : M₀.AllKeep m a t i (e :: es)) :
    M₀.AllKeep (Memory.write m (a + BitVec.ofNat 64 (t.partOffset i)) (M₀.image e)) a t (i + 1)
      es :=
  fun k e' hk => h (k + 1) e' hk

/-- While all sources keep their bytes, the elements are put into the parts. -/
theorem AllKeep.expand_eq {i : ℕ} (h : M₀.AllKeep m a t i es) :
    M₀.expand m a t i es = fill m a t i (M₀.images es) := by
  induction es generalizing m i with
  | nil => rfl
  | cons e es ih => rw [expand, h.head.stored_eq, ih h.tail, images, fill]

/-- A part of storage is ready when the storage is. -/
theorem Ready.partAddress (h : M.Ready storage) (t : LType) (i : ℕ) :
    M.Ready (t.partAddress storage i) := by
  unfold LType.partAddress
  split_ifs
  · exact ⟨h, trivial⟩
  · exact h

/-- The stores of the elements run, and write nowhere but into their places. -/
theorem AllSupply.run {i : ℕ} (hw : AreWellTyped es t i) (hlen : i + es.length = t.numElements)
    (hplace : ∀ j, i ≤ j → j < t.numElements → (t.partAddress storage j).InPlace)
    (hsized : M₀.AllSized es) (hready : M.Ready storage)
    (h : M₀.AllSupply M t storage i es sts) (hapart : M₀.AllApart (M.address storage) t i es)
    (halign : M₀.PartsAligned (M.address storage) t i es) :
    ∃ M', M.run (sts.map .store) = some M' ∧ M'.loaded = M.loaded ∧
      M.Frame M' (Memory.region (M.address storage) t.shape.allocSize) ∧
        M'.memory = M₀.expand M.memory (M.address storage) t i es := by
  induction es generalizing M i sts with
  | nil =>
    cases h
    exact ⟨M, rfl, rfl, .refl M _, rfl⟩
  | cons e es ih =>
    obtain - | ⟨head, rest⟩ := h
    rename_i st sts
    rw [List.length_cons] at hlen
    have hi : i < t.numElements := by omega
    have hpart : e.btype.type.shape.allocSize = t.partSize i := by rw [hw.2.1]; rfl
    have haddr := address_partAddress M (hplace i (Nat.le_refl i) hi)
    have hexec := head.exec (fun hagg => haddr ▸ hapart 0 e rfl hagg)
      fun hagg => haddr ▸ halign 0 e rfl hagg
    have hframe := frame_write M (M.address (t.partAddress storage i)) (M₀.stored M.memory e)
    rw [haddr, length_stored hsized.1, hpart] at hframe
    rw [haddr] at hexec
    -- the values of the other stores and the address of the storage are as before
    have hstorage := hframe.address_eq hready
    have hapart' := hapart.tail
    have halign' := halign.tail
    rw [← hstorage] at hapart' halign'
    obtain ⟨M₂, hrun, hloaded, hframe', hmem⟩ := ih hw.2.2 (by omega)
      (fun j hij hj => hplace j (Nat.le_of_succ_le hij) hj) hsized.2 (hframe.bytes_eq _ hready).2
      (rest.frame hframe) hapart' halign'
    rw [hstorage] at hframe' hmem
    refine ⟨M₂, ?_, hloaded, (hframe.mono (part_subset hi)).trans hframe', hmem⟩
    rw [List.map_cons, Machine.run, hexec]
    exact hrun

/-- If the stores run, the aggregates lie where the copies promise. -/
theorem AllSupply.partsAligned {i : ℕ} (hw : AreWellTyped es t i)
    (hlen : i + es.length = t.numElements)
    (hplace : ∀ j, i ≤ j → j < t.numElements → (t.partAddress storage j).InPlace)
    (hready : M.Ready storage) (h : M₀.AllSupply M t storage i es sts)
    (hrun : M.run (sts.map .store) = some M') : M₀.PartsAligned (M.address storage) t i es := by
  induction es generalizing M i sts with
  | nil => exact fun k e hk => nomatch hk
  | cons e es ih =>
    obtain - | ⟨head, rest⟩ := h
    rename_i st sts
    rw [List.length_cons] at hlen
    have hi : i < t.numElements := by omega
    rw [List.map_cons, Machine.run] at hrun
    obtain ⟨M₁, hexec, hrest⟩ := Option.bind_eq_some_iff.mp hrun
    obtain ⟨rfl, halign⟩ := head.of_exec hexec
    rw [address_partAddress M (hplace i (Nat.le_refl i) hi)] at halign
    have hframe := frame_write M (M.address (t.partAddress storage i)) (M₀.stored M.memory e)
    refine .cons halign ?_
    rw [← hframe.address_eq hready]
    exact ih hw.2.2 (by omega) (fun j hij hj => hplace j (Nat.le_of_succ_le hij) hj)
      (hframe.bytes_eq _ hready).2 (rest.frame hframe) hrest

/-- What is filled is inside the object. -/
theorem fill_of_notMem {i : ℕ} (hw : AreWellTyped es t i) (hlen : i + es.length ≤ t.numElements)
    (hsized : M₀.AllSized es) (k : ℕ) {b : BitVec 64}
    (hb : b ∉ Memory.region a t.shape.allocSize) :
    fill m a t i (M₀.images (es.take k)) b = m b := by
  induction es generalizing m i k with
  | nil => rw [List.take_nil]; rfl
  | cons e es ih =>
    cases k with
    | zero => rfl
    | succ k =>
      rw [List.length_cons] at hlen
      rw [List.take_succ_cons, images, fill, ih hw.2.2 (by omega) hsized.2]
      refine Memory.write_of_notMem fun hmem => hb ?_
      rw [length_image hsized.1, hw.2.1] at hmem
      exact part_subset (by omega) hmem

/-- Sources elsewhere keep their bytes. -/
theorem allKeep_of_disjoint {i : ℕ} (hw : AreWellTyped es t i)
    (hlen : i + es.length ≤ t.numElements) (hsized : M₀.AllSized es)
    (hkeeps : ∀ e ∈ es, M₀.Keeps m e)
    (hd : ∀ e ∈ es, e.btype.type.isAggregateType → Disjoint
      (Memory.region (M₀.source e) e.btype.type.shape.allocSize)
        (Memory.region a t.shape.allocSize)) :
    M₀.AllKeep m a t i es := fun k e hk =>
  have hmem := List.mem_of_getElem? hk
  (hkeeps e hmem).congr (fun _ hb => fill_of_notMem hw hlen hsized k hb) (hd e hmem)

end AllSupply

end Machine

/-! ## Elements that are values -/

section Elements

variable {c : CircularPointerTypes} {bt : Btype} {v dst : Value} {vc : VarContext}

/-- The code of an element runs, with its composites in temporaries, if the copies for these keep
their promise, and only then.  Afterwards the store has the bytes of the element, or its source
does. -/
def RunsElement (e : Bexpression) (code : Code) (dst : Value) (st : Stored) : Prop :=
  ∀ {M₀ M : Machine} {W U : Set (BitVec 64)}, M₀.Later M W → Disjoint (U ∪ M₀.scratch e) W →
    M₀.uses e ⊆ U → M₀.Separate U e → M₀.Sized e → M₀.HoldsConstants e →
      (M₀.BuildsAligned e → ∃ M', M.run code.insts = some M' ∧
        M₀.Later M' (W ∪ M₀.scratch e) ∧ M.Frame M' (M₀.scratch e) ∧ M₀.Supplies M' e dst st ∧
          M₀.Keeps M'.memory e) ∧
      ∀ M', M.run code.insts = some M' → M₀.BuildsAligned e

/-- An element is built, and stored whole. -/
def BuildsElement (c : CircularTypes) (e : Bexpression) (dst : Value) : Prop :=
  ∃ r st, resolveElement c e = some r ∧ genStoreValue c r.btype dst r.value = some st ∧
    (∀ i ∈ r.code.insts, i.IsSound) ∧ (dst.InPlace → (Inst.store st).IsSound) ∧
      RunsElement e r.code dst st

theorem code_isSound (v : Value) : ∀ i ∈ v.code.insts, i.IsSound := by
  intro i hi
  obtain ⟨a, rfl⟩ := code_loads v i hi
  exact trivial

theorem uses_storage {M : Machine} {e : Bexpression} {a : Value} (he : e = .expr bt v vc)
    (h : e.storage = some a) :
    Memory.region (M.address a) bt.type.shape.allocSize ⊆ M.uses e := by
  subst he
  rw [Machine.uses, h]
  exact Set.subset_union_right

theorem buildsElement_aggregate {c : CircularTypes} (hw : WellTyped (.expr bt v vc))
    (hplain : bt.type.isPlain) (hagg : bt.type.isAggregateType) (hd : dst.type = ptr bt.type)
    (haddr : Addressable v vc) : BuildsElement c (.expr bt v vc) dst := by
  obtain ⟨src, hsrc, hptr, hor, hstorage, hcontents⟩ := source_spec hw hagg haddr
  have hctx : (Bexpression.expr bt v vc).varContextDisp = VE_lvalue := if_pos hagg
  have hres : resolveVarContext c bt v vc VE_lvalue = some ⟨bt, v, []⟩ :=
    resolve_aggregate hw hagg
  refine ⟨⟨bt, v, v.code⟩, .copy dst src bt.type.shape.allocSize bt.type.prefAlign, ?_, ?_,
    code_isSound v, fun hin => ⟨hin, by rw [hd]; rfl⟩, ?_⟩
  · rw [resolveElement, hctx, hres]
    rfl
  · rw [genStoreValue, if_neg (aggregate_value_ne_void hw hplain), if_pos hagg, hsrc,
      allocSize_of_isPlain hplain, Option.bind_eq_bind, Option.bind_some, Option.bind_eq_bind,
      Option.bind_some, if_pos hptr]
  · intro M₀ M W U hlater hapart huses _ _ hconst
    refine ⟨fun _ => ?_, fun _ _ => trivial⟩
    have hdisj : Disjoint U W := hapart.mono_left Set.subset_union_left
    have hreads : M₀.reads v ⊆ U := fun b hb => huses (by
      rw [Machine.uses]
      exact .inl hb)
    have hregion := (uses_storage rfl hstorage).trans huses
    obtain ⟨M', hrun, hlater', hframe, hready⟩ :=
      hlater.run_code v (hdisj.mono_left hreads)
    have hsrcReads : Disjoint (M₀.reads src) W := by
      rcases hor with rfl | rfl
      · exact hdisj.mono_left hreads
      · exact Set.empty_disjoint _
    have hsrcReady : M'.Ready src := by
      rcases hor with rfl | rfl
      · exact hready
      · exact trivial
    have haddress : M'.address src = M₀.address src := by
      rw [Machine.address, Machine.address, hlater'.bytes_eq src hsrcReads]
    have hsource : M₀.source (.expr bt v vc) = M₀.address src := by
      rw [Machine.source, hstorage]
      rfl
    refine ⟨M', hrun, hlater'.mono Set.subset_union_left, hframe.mono (Set.empty_subset _),
      .copy hagg hsrcReady (haddress.trans hsource.symm), fun _ => ?_⟩
    rw [hsource, Machine.image, ← hcontents M₀ hconst]
    refine Memory.read_congr fun b hb => hlater'.memory b ?_
    exact Set.disjoint_left.mp hdisj (hregion hb)

theorem buildsElement_scalar (hw : WellTyped (.expr bt v vc)) (hplain : bt.type.isPlain)
    (hagg : ¬bt.type.isAggregateType) (hd : dst.type = ptr bt.type)
    (hload : Loadable c.toCircularTypes bt vc) :
    BuildsElement c.toCircularTypes (.expr bt v vc) dst := by
  have hvoid := isPlain_ne_void hplain
  have hctx : (Bexpression.expr bt v vc).varContextDisp = VE_rvalue := if_neg hagg
  obtain ⟨r, hr, -, hne, hragg, -, htype⟩ := resolve_scalar (c := c.toCircularTypes) hw hagg hvoid
  obtain ⟨r', hr', -, -, -, -, hbytes, hreads⟩ :=
    resolve_scalar_value (c := c) hw hvoid fun hp h0 => (hload hp h0).1
  cases hr.symm.trans hr'
  have hdst : dst.type.pointeeType = bt.type := by rw [hd]; rfl
  -- the value that is stored, which may be a cast
  let u := if r.value.type.isPointerTy then
    convertForAssignment c.toCircularTypes r.btype.type r.value bt.type else r.value
  have hu : u = r.value ∨ ∃ t, u = .bitcast r.value t := by
    simp only [u, convertForAssignment]
    split_ifs <;> simp
  refine ⟨⟨r.btype, r.value, r.value.code⟩, .value dst u, ?_, ?_, code_isSound _, id, ?_⟩
  · rw [resolveElement, hctx]
    rw [resolve] at hr
    rw [hr]
    rfl
  · rw [genStoreValue, if_neg hne, if_neg hragg, hdst]
    exact if_pos (htype.mpr hload)
  · intro M₀ M W U hlater hapart huses _ _ _
    refine ⟨fun _ => ?_, fun _ _ => trivial⟩
    have hdisj : Disjoint U W := hapart.mono_left Set.subset_union_left
    obtain ⟨M', hrun, hlater', hframe, hready⟩ :=
      hlater.run_code r.value (hdisj.mono_left ((hreads M₀).trans huses))
    have hval : M'.bytes u = M₀.means (.expr bt v vc) := by
      have heq : M'.bytes u = M'.bytes r.value := by
        rcases hu with hu | ⟨t, hu⟩
        · rw [hu]
        · rw [hu, Machine.bytes]
      rw [heq, hlater'.bytes_eq _ (hdisj.mono_left ((hreads M₀).trans huses)),
        hbytes M₀ hlater.fresh]
    refine ⟨M', hrun, hlater'.mono Set.subset_union_left, hframe.mono (Set.empty_subset _),
      .value hagg ?_ hval, fun h => absurd h hagg⟩
    rcases hu with hu | ⟨t, hu⟩ <;> rw [hu] <;> exact hready

/-! ## Composites -/

mutual
theorem separate_disjoint {M : Machine} {U : Set (BitVec 64)} : ∀ {e : Bexpression},
    M.Separate U e → Disjoint U (M.scratch e)
  | .expr .., _ => Set.disjoint_empty _
  | .compositeInit _ _ _, h =>
    Set.disjoint_union_right.mpr ⟨h.1.mono_left Set.subset_union_left, allSeparate_disjoint h.2⟩
theorem allSeparate_disjoint {M : Machine} {U : Set (BitVec 64)} : ∀ {es : List Bexpression},
    M.AllSeparate U es → Disjoint U (M.allScratch es)
  | [], _ => Set.disjoint_empty _
  | _ :: _, h => Set.disjoint_union_right.mpr
    ⟨separate_disjoint h.1, h.2.1.mono_left Set.subset_union_left⟩
end

/-- The code of the elements runs, if the copies in it keep their promise, and only then, and their
stores or their sources have their bytes. -/
def RunsElements (es : List Bexpression) (t : LType) (storage : Value) (i : ℕ)
    (kids : List Code) (stores : List Stored) : Prop :=
  ∀ {M₀ M : Machine} {W U : Set (BitVec 64)}, M₀.Later M W → Disjoint (U ∪ M₀.allScratch es) W →
    M₀.allUses es ⊆ U → M₀.AllSeparate U es → M₀.AllSized es → M₀.AllHoldConstants es →
      (M₀.AllBuildAligned es → ∃ M', M.run (Code.allInsts kids) = some M' ∧
        M₀.Later M' (W ∪ M₀.allScratch es) ∧ M.Frame M' (M₀.allScratch es) ∧
          M₀.AllSupply M' t storage i es stores ∧ ∀ e ∈ es, M₀.Keeps M'.memory e) ∧
      ∀ M', M.run (Code.allInsts kids) = some M' → M₀.AllBuildAligned es

def BuildsElements (c : CircularTypes) (es : List Bexpression) (t : LType) (storage : Value)
    (i : ℕ) : Prop :=
  ∃ kids stores, genInit c es t storage i = some (kids, stores) ∧
    (∀ i ∈ Code.allInsts kids, i.IsSound) ∧ (∀ st ∈ stores, (Inst.store st).IsSound) ∧
      RunsElements es t storage i kids stores

theorem runsElements_cons {e : Bexpression} {es : List Bexpression} {t : LType} {storage : Value}
    {i : ℕ} {code : Code} {kids : List Code} {st : Stored} {stores : List Stored}
    (hw : WellTyped e) (h : RunsElement e code (t.partAddress storage i) st)
    (hs : RunsElements es t storage (i + 1) kids stores) :
    RunsElements (e :: es) t storage i (code :: kids) (st :: stores) := by
  intro M₀ M W U hlater hdisj huses hsep hsized hconst
  have hscratch : M₀.allScratch (e :: es) = M₀.scratch e ∪ M₀.allScratch es := rfl
  rw [hscratch] at hdisj ⊢
  obtain ⟨hbuilds, haligned⟩ := h hlater
    (hdisj.mono_left (Set.union_subset_union_right _ Set.subset_union_left))
    (Set.subset_union_left.trans huses) hsep.1 hsized.1 hconst.1
  have hdisj₁ : Disjoint (U ∪ M₀.allScratch es) (W ∪ M₀.scratch e) := by
    refine Set.disjoint_union_right.mpr
      ⟨hdisj.mono_left (Set.union_subset_union_right _ Set.subset_union_right), ?_⟩
    refine Set.disjoint_union_left.mpr ⟨separate_disjoint hsep.1, ?_⟩
    exact (hsep.2.1.mono_left Set.subset_union_right).symm
  have hrest : ∀ {M₁ : Machine}, M₀.Later M₁ (W ∪ M₀.scratch e) → _ := fun hlater₁ =>
    hs hlater₁ hdisj₁ (Set.subset_union_right.trans huses) hsep.2.2 hsized.2 hconst.2
  refine ⟨fun ⟨hhead, htail⟩ => ?_, fun M' hrun => ?_⟩
  swap
  · -- the head has run before the others
    rw [Code.allInsts, Machine.run_append] at hrun
    obtain ⟨M₁, hrun₁, hrun₂⟩ := Option.bind_eq_some_iff.mp hrun
    have hhead := haligned M₁ hrun₁
    obtain ⟨M₁', hrun₁', hlater₁, -⟩ := hbuilds hhead
    cases hrun₁.symm.trans hrun₁'
    exact ⟨hhead, (hrest hlater₁).2 M' hrun₂⟩
  obtain ⟨M₁, hrun, hlater₁, hframe₁, hsupply, hkeeps⟩ := hbuilds hhead
  obtain ⟨M₂, hrun₂, hlater₂, hframe₂, hsupplies, hkeep⟩ := (hrest hlater₁).1 htail
  rw [← Set.union_assoc]
  refine ⟨M₂, run_cons hrun hrun₂, hlater₂, ?_, .cons (hsupply.frame hframe₂) hsupplies, ?_⟩
  · exact (hframe₁.mono Set.subset_union_left).trans (hframe₂.mono Set.subset_union_right)
  · refine List.forall_mem_cons.mpr ⟨hkeeps.congr hframe₂.memory fun hagg => ?_, hkeep⟩
    refine hsep.2.1.mono_left ((Machine.region_source_subset hw hagg).trans ?_)
    exact Set.union_subset_union_left _ (Set.subset_union_left.trans huses)

/-- The elements have the types of their positions. -/
theorem AreWellTyped.getElem {es : List Bexpression} {t : LType} {i : ℕ} (h : AreWellTyped es t i)
    {k : ℕ} {e : Bexpression} (hk : es[k]? = some e) :
    i + k < i + es.length ∧ WellTyped e ∧ e.btype.type = t.typeAtIndex (i + k) := by
  induction es generalizing i k with
  | nil => cases hk
  | cons e' es ih =>
    rw [List.length_cons]
    cases k with
    | zero =>
      cases hk
      exact ⟨by omega, h.1, h.2.1⟩
    | succ k =>
      obtain ⟨hlt, hw, htype⟩ := ih h.2.2 hk
      rw [Nat.add_right_comm, Nat.add_assoc] at hlt htype
      exact ⟨by omega, hw, htype⟩

theorem uses_subset_allUses {M : Machine} {es : List Bexpression} {e : Bexpression}
    (h : e ∈ es) : M.uses e ⊆ M.allUses es := by
  induction h with
  | head es => exact Set.subset_union_left
  | tail e' _ ih => exact ih.trans Set.subset_union_right

theorem scratch_subset_allScratch {M : Machine} {es : List Bexpression} {e : Bexpression}
    (h : e ∈ es) : M.scratch e ⊆ M.allScratch es := by
  induction h with
  | head es => exact Set.subset_union_left
  | tail e' _ ih => exact ih.trans Set.subset_union_right

/-- Storage that is apart from all that is read gets the bytes of the elements. -/
theorem Machine.AllSupply.run_apart {M₀ M : Machine} {es : List Bexpression} {t : LType}
    {storage : Value} {sts : List Stored} (hw : AreWellTyped es t 0)
    (hlen : es.length = t.numElements) (hindex : t.Indexable) (hsized : M₀.AllSized es)
    (hready : M.Ready storage) (h : M₀.AllSupply M t storage 0 es sts)
    (hkeeps : ∀ e ∈ es, M₀.Keeps M.memory e)
    (halign : M₀.PartsAligned (M.address storage) t 0 es)
    (hd : Disjoint (M₀.allUses es ∪ M₀.allScratch es)
      (Memory.region (M.address storage) t.shape.allocSize)) :
    ∃ M', M.run (sts.map .store) = some M' ∧ M'.loaded = M.loaded ∧
      M.Frame M' (Memory.region (M.address storage) t.shape.allocSize) ∧
        M'.memory = fill M.memory (M.address storage) t 0 (M₀.images es) := by
  have hlen' : 0 + es.length = t.numElements := by rw [hlen, Nat.zero_add]
  have hsource : ∀ e ∈ es, e.btype.type.isAggregateType → Disjoint
      (Memory.region (M₀.source e) e.btype.type.shape.allocSize)
        (Memory.region (M.address storage) t.shape.allocSize) := by
    intro e hmem hagg
    obtain ⟨k, hk⟩ := List.mem_iff_getElem?.mp hmem
    refine hd.mono_left ((Machine.region_source_subset (hw.getElem hk).2.1 hagg).trans ?_)
    exact Set.union_subset_union (uses_subset_allUses hmem) (scratch_subset_allScratch hmem)
  have hapart : M₀.AllApart (M.address storage) t 0 es := by
    intro k e hk hagg
    obtain ⟨hlt, -, htype⟩ := hw.getElem hk
    have hpart : e.btype.type.shape.allocSize = t.partSize (0 + k) := by rw [htype]; rfl
    refine canCopy_of_disjoint ((hsource e (List.mem_of_getElem? hk) hagg).symm.mono_left ?_)
    rw [hpart]
    exact part_subset (hlen' ▸ hlt)
  obtain ⟨M', hrun, hloaded, hframe, hmem⟩ := h.run hw hlen'
    (fun j _ hj => inPlace_of_indexable hindex storage hj) hsized hready hapart halign
  refine ⟨M', hrun, hloaded, hframe, hmem.trans (Machine.AllKeep.expand_eq ?_)⟩
  exact Machine.allKeep_of_disjoint hw (Nat.le_of_eq hlen') hsized hkeeps hsource

/-- A composite among the elements is built in its temporary, and copied from there. -/
theorem runsElement_composite {node : ℕ} {elems : List Bexpression} {kids : List Code}
    {stores : List Stored} (hw : WellTyped (.compositeInit node bt elems))
    (hindex : bt.type.Indexable)
    (h : RunsElements elems bt.type (.temporary node bt.type) 0 kids stores) :
    RunsElement (.compositeInit node bt elems) (.node kids (stores.map .store)) dst
      (.copy dst (.temporary node bt.type) bt.type.shape.allocSize bt.type.prefAlign) := by
  intro M₀ M W U hlater hdisj huses hsep hsized hconst
  let temporary : Value := .temporary node bt.type
  have hscratch : M₀.scratch (.compositeInit node bt elems) =
    M₀.object temporary ∪ M₀.allScratch elems := rfl
  rw [hscratch] at hdisj ⊢
  obtain ⟨hbuilds, haligned⟩ := h hlater
    (hdisj.mono_left (Set.union_subset_union_right _ Set.subset_union_right)) huses hsep.2 hsized
    hconst
  have hplace : ∀ {M₁ : Machine} {W' : Set (BitVec 64)}, M₀.Later M₁ W' →
      M₁.address temporary = M₀.address temporary := by
    intro M₁ W' hlater₁
    rw [Machine.address, Machine.address, hlater₁.bytes_eq _ (Set.empty_disjoint _)]
  refine ⟨fun ⟨hparts, helems⟩ => ?_, fun M' hrun => ?_⟩
  swap
  · rw [Code.insts, Machine.run_append] at hrun
    obtain ⟨M₁, hrun₁, hrun₂⟩ := Option.bind_eq_some_iff.mp hrun
    have helems := haligned M₁ hrun₁
    obtain ⟨M₁', hrun₁', hlater₁, -, hsupplies, -⟩ := hbuilds helems
    cases hrun₁.symm.trans hrun₁'
    refine ⟨?_, helems⟩
    have hparts := hsupplies.partsAligned hw.2.2 (by rw [hw.2.1, Nat.zero_add])
      (fun j _ hj => inPlace_of_indexable hindex temporary hj)
      (show M₁.Ready temporary from trivial) hrun₂
    rwa [hplace hlater₁] at hparts
  obtain ⟨M₁, hrun, hlater₁, hframe₁, hsupplies, hkeeps⟩ := hbuilds helems
  have haddr := hplace hlater₁
  have hobject : Memory.region (M₁.address temporary) bt.type.shape.allocSize =
      M₀.object temporary := by rw [haddr]; rfl
  obtain ⟨M₂, hrun₂, hloaded, hframe₂, hmem⟩ := hsupplies.run_apart hw.2.2 hw.2.1 hindex hsized
    (show M₁.Ready temporary from trivial) hkeeps (haddr ▸ hparts)
    (hobject ▸ hsep.1.mono_left (Set.union_subset_union_left _ huses))
  rw [hobject] at hframe₂
  have haddr₂ : M₂.address temporary = M₁.address temporary := hframe₂.address_eq trivial
  refine ⟨M₂, run_node hrun hrun₂, ?_, ?_, .copy hw.1 trivial (haddr₂.trans haddr), fun _ => ?_⟩
  · refine (hlater₁.frame hframe₂ hloaded).mono ?_
    rw [Set.union_assoc, Set.union_comm (M₀.allScratch elems)]
  · exact (hframe₁.mono Set.subset_union_right).trans (hframe₂.mono Set.subset_union_left)
  · -- the gaps in the temporary have not been written before
    rw [hmem, haddr, Machine.image]
    refine Memory.read_congr fun b hb => fill_congr (hlater₁.memory b ?_) 0 _
    have hfresh : Disjoint (M₀.object temporary) (W ∪ M₀.allScratch elems) :=
      Set.disjoint_union_right.mpr
        ⟨hdisj.mono_left (Set.subset_union_left.trans Set.subset_union_right),
          (hsep.1.mono_left Set.subset_union_right).symm⟩
    exact Set.disjoint_left.mp hfresh hb

theorem genStoreValue_temporary {c : CircularTypes} (hagg : bt.type.isAggregateType)
    (hplain : bt.type.isPlain) (node : ℕ) :
    genStoreValue c bt dst (.temporary node bt.type) =
      some (.copy dst (.temporary node bt.type) bt.type.shape.allocSize bt.type.prefAlign) := by
  rw [genStoreValue, if_neg LType.noConfusion, if_pos hagg, allocSize_of_isPlain hplain]
  rfl

mutual
/-- Every element that can be stored is built. -/
theorem buildsElement : ∀ {e : Bexpression}, WellTyped e → e.btype.type.isPlain →
    Storable c.toCircularTypes e → Indexed e → ∀ {dst : Value},
      dst.type = ptr e.btype.type → BuildsElement c.toCircularTypes e dst
  | .expr bt v vc, hw, hplain, hst, _, _, hd => by
    rw [Storable] at hst
    by_cases hagg : bt.type.isAggregateType
    · rw [if_pos hagg] at hst
      exact buildsElement_aggregate hw hplain hagg hd hst
    · rw [if_neg hagg] at hst
      exact buildsElement_scalar hw hplain hagg hd hst
  | .compositeInit node bt elems, hw, hplain, hst, hindex, dst, hd => by
    obtain ⟨kids, stores, hinit, hkids, hstores, hrun⟩ :=
      buildsElements hw.2.2 hplain hw.1 (by rw [hw.2.1, Nat.zero_add]) hst hindex.2
        fun j hj => inPlace_of_indexable hindex.1 (.temporary node bt.type) hj
    refine ⟨⟨bt, .temporary node bt.type, .node kids (stores.map .store)⟩,
      .copy dst (.temporary node bt.type) bt.type.shape.allocSize bt.type.prefAlign, ?_, ?_, ?_,
      fun hin => ⟨hin, by rw [hd]; rfl⟩, runsElement_composite hw hindex.1 hrun⟩
    · rw [resolveElement, if_pos ⟨hw.1, hw.2.1⟩, hinit]
      rfl
    · exact genStoreValue_temporary hw.1 hplain node
    · intro i hi
      rw [Code.insts, List.mem_append, List.mem_map] at hi
      rcases hi with hi | ⟨st, hst, rfl⟩
      · exact hkids i hi
      · exact hstores st hst
theorem buildsElements : ∀ {es : List Bexpression} {t : LType} {storage : Value} {i : ℕ},
    AreWellTyped es t i → t.isPlain → t.isAggregateType → i + es.length = t.numElements →
      AllStorable c.toCircularTypes es → AllIndexed es →
        (∀ j < t.numElements, (t.partAddress storage j).InPlace) →
          BuildsElements c.toCircularTypes es t storage i
  | [], t, storage, i, _, _, _, _, _, _, _ =>
    ⟨[], [], rfl, nofun, nofun, fun {M₀ M W U} hlater _ _ _ _ _ =>
      ⟨fun _ => ⟨M, rfl, hlater.mono Set.subset_union_left, .refl M _, .nil i, nofun⟩,
        fun _ _ => trivial⟩⟩
  | e :: es, t, storage, i, hw, hplain, hagg, hlen, hst, hindex, hplace => by
    rw [List.length_cons] at hlen
    have hi : i < t.numElements := by omega
    have helem : e.btype.type.isPlain := hw.2.1 ▸ isPlain_typeAtIndex hplain hi
    have hd : (t.partAddress storage i).type = ptr e.btype.type := by
      rw [partAddress_type hagg hi, hw.2.1]
    obtain ⟨r, st, hr, hgen, hcode, hsound, hrun⟩ :=
      buildsElement hw.1 helem hst.1 hindex.1 hd
    obtain ⟨kids, stores, hinit, hkids, hstores, hruns⟩ :=
      buildsElements hw.2.2 hplain hagg (by omega) hst.2 hindex.2 hplace
    refine ⟨r.code :: kids, st :: stores, ?_, ?_, ?_, runsElements_cons hw.1 hrun hruns⟩
    · simp only [genInit, hr, hgen, hinit, Option.bind_eq_bind, Option.bind_some]
    · intro i hi
      rw [Code.allInsts, List.mem_append] at hi
      exact hi.elim (hcode i) (hkids i)
    · intro st' hst'
      rcases List.mem_cons.mp hst' with rfl | hst'
      · exact hsound (hplace i hi)
      · exact hstores st' hst'
end

/-! ## What has been expanded -/

/-- An aggregate that is stored whole could be copied. -/
theorem storable_of_aggregate {c : CircularTypes} {r : Built} {st : Stored}
    (hw : WellTyped (.expr bt v vc)) (hplain : bt.type.isPlain) (hagg : bt.type.isAggregateType)
    (hr : resolveElement c (.expr bt v vc) = some r)
    (hst : genStoreValue c r.btype dst r.value = some st) (hsound : (Inst.store st).IsSound) :
    Addressable v vc ∧ dst.InPlace := by
  have hctx : (Bexpression.expr bt v vc).varContextDisp = VE_lvalue := if_pos hagg
  have hres : resolveVarContext c bt v vc VE_lvalue = some ⟨bt, v, []⟩ := resolve_aggregate hw hagg
  rw [resolveElement, hctx, hres] at hr
  cases hr
  rw [genStoreValue, if_neg (aggregate_value_ne_void hw hplain), if_pos hagg,
    allocSize_of_isPlain hplain] at hst
  obtain ⟨src, hsrc, hst⟩ := Option.bind_eq_some_iff.mp hst
  rw [Option.bind_eq_bind, Option.bind_some, Option.ite_none_right_eq_some] at hst
  obtain ⟨hptr, hst⟩ := hst
  cases hst
  exact ⟨(spillConstant_iff hw hagg).mp ⟨src, hsrc, hptr⟩, hsound.1⟩

/-- A scalar that is stored has been loaded as its own type. -/
theorem storable_of_scalar {c : CircularTypes} {r : Built} {st : Stored}
    (hw : WellTyped (.expr bt v vc)) (hplain : bt.type.isPlain) (hagg : ¬bt.type.isAggregateType)
    (hd : dst.type = ptr bt.type) (hr : resolveElement c (.expr bt v vc) = some r)
    (hst : genStoreValue c r.btype dst r.value = some st) (hsound : (Inst.store st).IsSound) :
    Loadable c bt vc ∧ dst.InPlace := by
  obtain ⟨r', hr', -, hne, hragg, -, htype⟩ :=
    resolve_scalar (c := c) hw hagg (isPlain_ne_void hplain)
  have hctx : (Bexpression.expr bt v vc).varContextDisp = VE_rvalue := if_neg hagg
  rw [resolve] at hr'
  rw [resolveElement, hctx, hr'] at hr
  obtain rfl := Option.some.inj hr
  have hgen : genStoreValue c r'.btype dst r'.value = some st := hst
  rw [genStoreValue, if_neg hne, if_neg hragg, hd] at hgen
  obtain ⟨hu, hgen⟩ := Option.ite_none_right_eq_some.mp hgen
  cases hgen
  exact ⟨htype.mp hu, hsound⟩

mutual
/-- What has been built soundly could be. -/
theorem storable_of_built {c : CircularTypes} : ∀ {e : Bexpression}, WellTyped e →
    e.btype.type.isPlain → ∀ {dst : Value} {r : Built} {st : Stored}, dst.type = ptr e.btype.type →
      resolveElement c e = some r → genStoreValue c r.btype dst r.value = some st →
        (∀ i ∈ r.code.insts, i.IsSound) → (Inst.store st).IsSound →
          Storable c e ∧ Indexed e ∧ dst.InPlace
  | .expr bt v vc, hw, hplain, dst, r, st, hd, hr, hst, _, hsound => by
    rw [Storable]
    by_cases hagg : bt.type.isAggregateType
    · obtain ⟨haddr, hin⟩ := storable_of_aggregate hw hplain hagg hr hst hsound
      rw [if_pos hagg]
      exact ⟨haddr, trivial, hin⟩
    · obtain ⟨hload, hin⟩ := storable_of_scalar hw hplain hagg hd hr hst hsound
      rw [if_neg hagg]
      exact ⟨hload, trivial, hin⟩
  | .compositeInit node bt elems, hw, hplain, dst, r, st, hd, hr, hst, hcode, hsound => by
    rw [resolveElement, if_pos ⟨hw.1, hw.2.1⟩] at hr
    obtain ⟨⟨kids, stores⟩, hinit, rfl⟩ := Option.map_eq_some_iff.mp hr
    rw [genStoreValue_temporary hw.1 hplain] at hst
    cases hst
    have hkids : ∀ i ∈ Code.allInsts kids, i.IsSound := fun i hi =>
      hcode i (by rw [Code.insts]; exact List.mem_append_left _ hi)
    have hstores : ∀ st ∈ stores, (Inst.store st).IsSound := fun st hst =>
      hcode _ (by rw [Code.insts]; exact List.mem_append_right _ (List.mem_map_of_mem hst))
    obtain ⟨hst, hindex, hplace⟩ := allStorable_of_built hw.2.2 hplain hw.1
      (by rw [hw.2.1, Nat.zero_add]) hinit hkids hstores
    exact ⟨hst, ⟨indexable_of_inPlace fun j => hplace j (Nat.zero_le j), hindex⟩, hsound.1⟩
theorem allStorable_of_built {c : CircularTypes} : ∀ {es : List Bexpression} {t : LType} {i : ℕ},
    AreWellTyped es t i → t.isPlain → t.isAggregateType → i + es.length = t.numElements →
      ∀ {storage : Value} {kids : List Code} {stores : List Stored},
        genInit c es t storage i = some (kids, stores) → (∀ i ∈ Code.allInsts kids, i.IsSound) →
          (∀ st ∈ stores, (Inst.store st).IsSound) → AllStorable c es ∧ AllIndexed es ∧
            ∀ j, i ≤ j → j < t.numElements → (t.partAddress storage j).InPlace
  | [], _, _, _, _, _, hlen, _, _, _, _, _, _ =>
    ⟨trivial, trivial, fun j hij hj => absurd hj (by rw [← hlen]; exact Nat.not_lt.mpr hij)⟩
  | e :: es, t, i, hw, hplain, hagg, hlen, storage, kids, stores, hinit, hkids, hstores => by
    rw [List.length_cons] at hlen
    have hi : i < t.numElements := by omega
    rw [genInit] at hinit
    obtain ⟨r, hr, hinit⟩ := Option.bind_eq_some_iff.mp hinit
    obtain ⟨st, hst, hinit⟩ := Option.bind_eq_some_iff.mp hinit
    obtain ⟨⟨kids', stores'⟩, hrest, hinit⟩ := Option.bind_eq_some_iff.mp hinit
    cases hinit
    have hd : (t.partAddress storage i).type = ptr e.btype.type := by
      rw [partAddress_type hagg hi, hw.2.1]
    obtain ⟨hstorable, hindex, hin⟩ := storable_of_built hw.1
      (hw.2.1 ▸ isPlain_typeAtIndex hplain hi) hd hr hst
      (fun i hi => hkids i (by rw [Code.allInsts]; exact List.mem_append_left _ hi))
      (hstores st List.mem_cons_self)
    obtain ⟨hstorables, hindexes, hplaces⟩ := allStorable_of_built hw.2.2 hplain hagg (by omega)
      hrest (fun i hi => hkids i (by rw [Code.allInsts]; exact List.mem_append_right _ hi))
      fun st hst => hstores st (List.mem_cons_of_mem _ hst)
    refine ⟨⟨hstorable, hstorables⟩, ⟨hindex, hindexes⟩, fun j hij hj => ?_⟩
    rcases Nat.eq_or_lt_of_le hij with rfl | hlt
    · exact hin
    · exact hplaces j hlt hj
end

end Elements

end Dragongo
