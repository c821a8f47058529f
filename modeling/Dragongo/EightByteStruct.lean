import Dragongo.EightByte

/-!
# Structs in registers

The regions of a struct of naturally aligned scalars, and when the types they travel
as hold every scalar at its own offset.
-/

namespace Dragongo
open Layout LType TypDisp

/-! ## The flattening finds the leaves -/

def toLeaf (p : Btype × ℕ) : Leaf := ⟨p.1.type, p.2⟩

theorem mapM_flatten {α β γ : Type*} {f : α → Option (List β)} {g : β → γ} {h : α → List γ}
    (xs : List α) (hf : ∀ a ∈ xs, (f a).map (List.map g) = some (h a)) :
    (xs.mapM f).map (fun ys => ys.flatten.map g) = some (xs.flatMap h) := by
  induction xs with
  | nil => rfl
  | cons x xs ih =>
    obtain ⟨y, hy, hgy⟩ := Option.map_eq_some_iff.mp (hf x List.mem_cons_self)
    obtain ⟨ys, hys, hgys⟩ := Option.map_eq_some_iff.mp
      (ih fun a ha => hf a (List.mem_cons_of_mem _ ha))
    simp only [List.mapM_cons, hy, hys, Option.pure_def, Option.bind_eq_bind, Option.bind_some,
      Option.map_some, List.flatten_cons, List.map_append, List.flatMap_cons, hgy, hgys]

theorem mapM_eq_none {α β : Type*} {f : α → Option β} {x : α} {xs : List α} (h : f x = none) :
    (x :: xs).mapM f = none := by
  simp [List.mapM_cons, h]

mutual
/-- The flattening ends exactly on the walkable types, with the leaves of the layout. -/
theorem addLeafTypes_eq : ∀ (bt : Btype) (off : ℕ), bt.type.isSized →
    (addLeafTypes bt off).map (List.map toLeaf) =
      if bt.isWalkable then some (bt.type.leaves off) else none
  | .struct id fields, off, h => by
    have hf := addFieldLeafTypes_eq fields off 0 h
    simp only [Btype.type, isSized] at h
    simpa only [addLeafTypes, Btype.type, elementOffsets, h, if_true, Option.bind_eq_bind,
      Option.bind_some, Btype.isWalkable, leaves] using hf
  | .array elemType n, off, h => by
    have hsz : elemType.type.isSized := h
    have hstep := fun i => addLeafTypes_eq elemType (off + i * elemType.type.shape.allocSize) hsz
    simp only [addLeafTypes, allocSize, hsz, if_true, Option.bind_eq_bind, Option.bind_some,
      Btype.isWalkable, Btype.type, leaves]
    by_cases hn : n < 2 ^ 32
    · rw [if_pos hn, decide_eq_true hn, Bool.true_and]
      by_cases hw : elemType.isWalkable
      · obtain ⟨ys, hys, hmap⟩ := Option.map_eq_some_iff.mp
          (mapM_flatten (g := toLeaf) (List.range n) fun i _ => (hstep i).trans (if_pos hw))
        simp only [hys, Option.bind_some, Option.map_some, hmap, hw, Bool.or_true, if_true]
      · cases n with
        | zero => simp
        | succ n =>
          -- the first element already fails
          have hnone : addLeafTypes elemType (off + 0 * elemType.type.shape.allocSize) = none := by
            simpa [hw] using hstep 0
          rw [List.range_succ_eq_map, mapM_eq_none (x := 0) hnone]
          simp [hw]
    · have h0 : n ≠ 0 := by omega
      rw [if_neg hn, decide_eq_false hn]
      simp [h0]
  | .integer _ _, _, _ | .float .f32, _, _ | .float .f64, _, _ | .float .f128, _, _
  | .pointer _, _, _ => rfl
  | .aux _, _, _ | .function _, _, _ => rfl
theorem addFieldLeafTypes_eq : ∀ (fields : List Btype) (off pos : ℕ),
    areSized (Btype.types fields) →
    (addFieldLeafTypes fields (offsets pos (shapes (Btype.types fields))) off).map
      (List.map toLeaf) =
      if Btype.areWalkable fields then some (fieldLeaves (Btype.types fields) off pos) else none
  | [], _, _, _ => rfl
  | t :: ts, off, pos, h => by
    simp only [Btype.types, areSized, Bool.and_eq_true] at h
    have ht := addLeafTypes_eq t (off + alignTo pos t.type.shape.align) h.1
    have hts := addFieldLeafTypes_eq ts off
      (alignTo pos t.type.shape.align + t.type.shape.allocSize) h.2
    simp only [Btype.types, shapes, offsets, addFieldLeafTypes, Btype.areWalkable, fieldLeaves,
      Option.bind_eq_bind]
    by_cases hw : t.isWalkable
    · rw [if_pos hw] at ht
      obtain ⟨ls, hls, hmap⟩ := Option.map_eq_some_iff.mp ht
      by_cases hws : Btype.areWalkable ts
      · rw [if_pos hws] at hts
        obtain ⟨rs, hrs, hmaps⟩ := Option.map_eq_some_iff.mp hts
        simp [hls, hrs, hw, hws, hmap, hmaps]
      · rw [if_neg hws, Option.map_eq_none_iff] at hts
        simp [hls, hts, hws]
    · rw [if_neg hw, Option.map_eq_none_iff] at ht
      simp [ht, hw]
end

/-! ## Cutting the leaves at byte 8 -/

def region (ls : List Leaf) : EightByteRegion where
  types := ls.map Leaf.type
  offsets := ls.map Leaf.offset

def pushLeaf (ebrs : List EightByteRegion) (l : Leaf) : List EightByteRegion :=
  pushElement ebrs (ebrs.isEmpty || (8 ≤ l.offset && ebrs.length == 1)) l.type l.offset

theorem explodeStruct_eq {id : Option ℕ} {fields : List Btype}
    (hs : (Btype.struct id fields).type.isSized)
    (h16 : (Btype.struct id fields).type.shape.allocSize ≤ 16) :
    explodeStruct (.struct id fields) =
      if (Btype.struct id fields).isWalkable then
        some (((Btype.struct id fields).type.leaves 0).foldl pushLeaf [])
      else none := by
  have h := addLeafTypes_eq (.struct id fields) 0 hs
  unfold explodeStruct
  simp only [allocSize, hs, if_true, Option.bind_eq_bind, Option.bind_some]
  rw [if_pos h16]
  by_cases hw : (Btype.struct id fields).isWalkable
  · rw [if_pos hw] at h ⊢
    obtain ⟨ls, hls, hmap⟩ := Option.map_eq_some_iff.mp h
    simp only [hls, Option.bind_some, ← hmap, List.foldl_map]
    rfl
  · rw [if_neg hw, Option.map_eq_none_iff] at h
    rw [h, if_neg hw]
    rfl

/-- Leaves before byte 8 all go to the region that is open. -/
theorem foldl_low (xs : List Leaf) {ys : List Leaf} (hy : ∀ l ∈ ys, l.offset < 8) :
    ys.foldl pushLeaf [region xs] = [region (xs ++ ys)] := by
  induction ys generalizing xs with
  | nil => simp
  | cons y ys ih =>
    have hy0 : ¬8 ≤ y.offset := Nat.not_le.mpr (hy y List.mem_cons_self)
    have hstep : pushLeaf [region xs] y = [region (xs ++ [y])] := by
      simp [pushLeaf, pushElement, hy0, region, EightByteRegion.push]
    rw [List.foldl_cons, hstep, ih (xs ++ [y]) fun l hl => hy l (List.mem_cons_of_mem _ hl),
      List.append_assoc, List.singleton_append]

/-- Once there are two regions, every leaf goes to the second. -/
theorem foldl_second (ebr : EightByteRegion) (xs ys : List Leaf) :
    ys.foldl pushLeaf [ebr, region xs] = [ebr, region (xs ++ ys)] := by
  induction ys generalizing xs with
  | nil => simp
  | cons y ys ih =>
    have hstep : pushLeaf [ebr, region xs] y = [ebr, region (xs ++ [y])] := by
      simp [pushLeaf, pushElement, region, EightByteRegion.push]
    rw [List.foldl_cons, hstep, ih, List.append_assoc, List.singleton_append]

theorem foldl_one {ls : List Leaf} (hne : ls ≠ []) (h : ∀ l ∈ ls, l.offset < 8) :
    ls.foldl pushLeaf [] = [region ls] := by
  obtain ⟨l, ls, rfl⟩ := List.exists_cons_of_ne_nil hne
  have hstep : pushLeaf [] l = [region [l]] := by
    simp [pushLeaf, pushElement, region, EightByteRegion.push]
  rw [List.foldl_cons, hstep, foldl_low [l] fun l' hl => h l' (List.mem_cons_of_mem _ hl)]
  rfl

theorem foldl_two {xs ys : List Leaf} (hx : xs ≠ []) (hy : ys ≠ [])
    (hlo : ∀ l ∈ xs, l.offset < 8) (hhi : ∀ l ∈ ys, 8 ≤ l.offset) :
    (xs ++ ys).foldl pushLeaf [] = [region xs, region ys] := by
  obtain ⟨y, ys, rfl⟩ := List.exists_cons_of_ne_nil hy
  have hstep : pushLeaf [region xs] y = [region xs, region [y]] := by
    have hy8 : 8 ≤ y.offset := hhi y List.mem_cons_self
    simp [pushLeaf, pushElement, hy8, region, EightByteRegion.push]
  rw [List.foldl_append, foldl_one hx hlo, List.foldl_cons, hstep, foldl_second]
  rfl

/-! ## The class and the type of a region -/

theorem typeSize_scalar : ∀ t : LType, t.isPlainScalar → typeSize t = some t.shape.storeSize
  | int bits, h => by
    simp only [isPlainScalar, Bool.or_eq_true, beq_iff_eq] at h
    rcases h with ((rfl | rfl) | rfl) | rfl <;> rfl
  | float, _ | double, _ => rfl
  | ptr _, _ => by simp [typeSize, sizeInBits, isSized, shape, Shape.storeSize]

theorem getTypDisp_scalar : ∀ t : LType, t.isPlainScalar →
    getTypDisp t = if t.isFloatingPointTy then flavSSE else flavInt
  | int _, _ | float, _ | double, _ | ptr _, _ => rfl

theorem foldl_flavInt (ts : List LType) :
    ts.foldl (fun disp t => dispMeet (getTypDisp t) disp) flavInt = flavInt := by
  induction ts with
  | nil => rfl
  | cons t ts ih =>
    rw [List.foldl_cons, show dispMeet (getTypDisp t) flavInt = flavInt by
      cases getTypDisp t <;> decide]
    exact ih

theorem foldl_flavSSE {ts : List LType} (h : ∀ t ∈ ts, t.isPlainScalar) :
    ts.foldl (fun disp t => dispMeet (getTypDisp t) disp) flavSSE =
      if ts.all isFloatingPointTy then flavSSE else flavInt := by
  induction ts with
  | nil => rfl
  | cons t ts ih =>
    have hts : ∀ t ∈ ts, t.isPlainScalar := fun t' ht' => h t' (List.mem_cons_of_mem _ ht')
    rw [List.foldl_cons, getTypDisp_scalar t (h t List.mem_cons_self), List.all_cons]
    by_cases ht : t.isFloatingPointTy
    · rw [if_pos ht, show dispMeet flavSSE flavSSE = flavSSE by decide, ih hts, ht,
        Bool.true_and]
    · rw [if_neg ht, show dispMeet flavInt flavSSE = flavInt by decide, foldl_flavInt]
      simp [ht]

/-- A region of scalars is of class SSE when they all are floating point. -/
theorem region_disp {ls : List Leaf} (hne : ls ≠ []) (h : ∀ l ∈ ls, l.type.isPlainScalar) :
    (region ls).getRegionTypDisp =
      if ls.all fun l => l.type.isFloatingPointTy then flavSSE else flavInt := by
  obtain ⟨l, ls, rfl⟩ := List.exists_cons_of_ne_nil hne
  have hts : ∀ t ∈ ls.map Leaf.type, t.isPlainScalar := by
    intro t ht
    obtain ⟨l', hl', rfl⟩ := List.mem_map.mp ht
    exact h l' (List.mem_cons_of_mem _ hl')
  unfold EightByteRegion.getRegionTypDisp region
  rw [List.map_cons, List.foldl_cons, getTypDisp_scalar _ (h l List.mem_cons_self),
    List.all_cons]
  by_cases hl : l.type.isFloatingPointTy
  · rw [if_pos hl, show dispMeet flavSSE flavEmpty = flavSSE by decide, foldl_flavSSE hts,
      List.all_map, hl, Bool.true_and]
    rfl
  · rw [if_neg hl, show dispMeet flavInt flavEmpty = flavInt by decide, foldl_flavInt]
    simp [hl]

/-- `t` is a type that holds the bytes from `lo` up to `hi`, aligned as an integer of
that width is. -/
structure Holds (t : LType) (lo hi : ℕ) : Prop where
  bits : t.shape.bits = 8 * (hi - lo)
  align : t.shape.align = intAlign (8 * (hi - lo))
  sized : t.isSized

theorem float_size : ∀ t : LType, t.isFloatingPointTy →
    t = float ∧ t.shape.storeSize = 4 ∨ t = double ∧ t.shape.storeSize = 8
  | float, _ => .inl ⟨rfl, rfl⟩
  | double, _ => .inr ⟨rfl, rfl⟩

section Region

variable {ls : List Leaf} {b hi : ℕ}

/-- The end of the last scalar, which every other scalar ends before. -/
theorem chain_last {l : Leaf} (hc : Chain 8 b (ls.map Leaf.span) hi)
    (hl : ls.getLast? = some l) : ∀ l' ∈ ls, l'.span.stop ≤ l.span.stop := by
  obtain ⟨ys, rfl⟩ := List.getLast?_eq_some_iff.mp hl
  intro l' hl'
  rw [List.map_append, List.map_singleton] at hc
  rcases List.mem_append.mp hl' with h | h
  · have hle := (List.pairwise_append.mp hc.sorted).2.2 _ (List.mem_map_of_mem h) _
      (List.mem_singleton_self _)
    exact hle.trans (Nat.le_add_right _ _)
  · rw [List.mem_singleton.mp h]

theorem chain_first (hc : Chain 8 b (ls.map Leaf.span) hi) (hb : 8 ∣ b) (hlt : b < hi) :
    ∃ l rest, ls = l :: rest ∧ l.offset = b := by
  obtain ⟨s, ss, hs, hstart⟩ := hc.exists_first (by decide) hb hlt
  obtain ⟨l, rest, rfl, rfl, -⟩ := List.map_eq_cons_iff.mp hs
  exact ⟨l, rest, rfl, hstart⟩

/-- One scalar travels as itself and two floats as a vector; there is no room for more. -/
theorem determineABIType_sse (hsse : ∀ l ∈ ls, l.type.isFloatingPointTy)
    (hdisp : (region ls).getRegionTypDisp = flavSSE)
    (hc : Chain 8 b (ls.map Leaf.span) hi) (hb : 8 ∣ b) (hlt : b < hi) (hhi : hi ≤ b + 8) :
    ∃ t l, determineABIType (region ls) = some t ∧ ls.getLast? = some l ∧
      Holds t b l.span.stop := by
  obtain ⟨l, rest, rfl, hl⟩ := chain_first hc hb hlt
  have hsize := float_size l.type (hsse l List.mem_cons_self)
  simp only [determineABIType, hdisp, if_true]
  match rest with
  | [] =>
    rcases hsize with ⟨ht, -⟩ | ⟨ht, -⟩
    · refine ⟨float, l, by simp [region, ht], rfl, ?_⟩
      have hstop : l.span.stop - b = 4 := by
        simp [Leaf.span, Span.stop, ht, hl, shape, Shape.storeSize]
      exact ⟨by rw [hstop]; decide, by rw [hstop]; decide, rfl⟩
    · refine ⟨double, l, by simp [region, ht], rfl, ?_⟩
      have hstop : l.span.stop - b = 8 := by
        simp [Leaf.span, Span.stop, ht, hl, shape, Shape.storeSize]
      exact ⟨by rw [hstop]; decide, by rw [hstop]; decide, rfl⟩
  | [l2] =>
    refine ⟨twoFloatVec, l2, rfl, rfl, ?_⟩
    have hsize2 := float_size l2.type (hsse l2 (by simp))
    simp only [List.map_cons, List.map_nil, Chain, Leaf.span, Span.stop] at hc
    have hstop : l2.span.stop - b = 8 := by
      simp only [Leaf.span, Span.stop]
      omega
    exact ⟨by rw [hstop]; decide, by rw [hstop]; decide, rfl⟩
  | l2 :: l3 :: rest =>
    have hsize2 := float_size l2.type (hsse l2 (by simp))
    have hsize3 := float_size l3.type (hsse l3 (by simp))
    have hle : l3.span.stop ≤ hi := (hc.mem (s := l3.span) (by simp)).2.2
    simp only [List.map_cons, Chain, Leaf.span, Span.stop] at hc hle
    omega

theorem holds_int (lo hi : ℕ) :
    Holds (int ((hi - lo) * 8)) lo hi where
  bits := Nat.mul_comm _ _
  align := congrArg intAlign (Nat.mul_comm _ _)
  sized := rfl

/-- Any other region travels as an integer that reaches to the end of its last scalar. -/
theorem determineABIType_int (hplain : ∀ l ∈ ls, l.type.isPlainScalar)
    (hint : (region ls).getRegionTypDisp ≠ flavSSE)
    (hc : Chain 8 b (ls.map Leaf.span) hi) (hb : 8 ∣ b) (hlt : b < hi) (hhi : hi ≤ b + 8) :
    ∃ l, determineABIType (region ls) = some (int ((l.span.stop - b) * 8)) ∧
      ls.getLast? = some l := by
  obtain ⟨l, rest, hls, hl⟩ := chain_first hc hb hlt
  obtain ⟨last, hlast⟩ : ∃ last, ls.getLast? = some last :=
    Option.ne_none_iff_exists'.mp (by simp [hls])
  have hmem : last ∈ ls := List.mem_of_getLast? hlast
  obtain ⟨hnat, hstart, hstop⟩ := hc.mem (List.mem_map_of_mem hmem)
  have hpos : 0 < last.type.shape.storeSize := hnat.1
  simp only [Leaf.span, Span.stop] at hstart hstop
  refine ⟨last, ?_, hlast⟩
  have hhead : (region ls).offsets.head? = some b := by simp [region, hls, hl]
  have hoff : (region ls).offsets.getLast? = some last.offset := by simp [region, hlast]
  have htype : (region ls).types.getLast? = some last.type := by simp [region, hlast]
  simp only [determineABIType, hint, if_false, hhead, hoff, htype, Option.bind_eq_bind,
    Option.bind_some, typeSize_scalar _ (hplain last hmem), llvmArbitraryIntegerType]
  rw [show last.offset - b + last.type.shape.storeSize = last.span.stop - b by
    simp only [Leaf.span, Span.stop]; omega]
  apply if_pos
  simp only [Leaf.span, Span.stop]
  omega

/-- Every region that fits its eightbyte gets a type that reaches from the eightbyte's
start to the end of the last scalar in it. -/
theorem determineABIType_region (hplain : ∀ l ∈ ls, l.type.isPlainScalar)
    (hc : Chain 8 b (ls.map Leaf.span) hi) (hb : 8 ∣ b) (hlt : b < hi) (hhi : hi ≤ b + 8) :
    ∃ t l, determineABIType (region ls) = some t ∧ ls.getLast? = some l ∧
      Holds t b l.span.stop := by
  by_cases hdisp : (region ls).getRegionTypDisp = flavSSE
  · refine determineABIType_sse ?_ hdisp hc hb hlt hhi
    obtain ⟨l, rest, rfl, -⟩ := chain_first hc hb hlt
    rw [region_disp (by simp) hplain] at hdisp
    split_ifs at hdisp with hall
    exact List.all_eq_true.mp hall
  · obtain ⟨l, ht, hl⟩ := determineABIType_int hplain hdisp hc hb hlt hhi
    exact ⟨_, l, ht, hl, holds_int _ _⟩

end Region

/-! ## The regions of a struct -/

theorem determineABITypes_cons {ebr : EightByteRegion} {ebrs rs : List EightByteRegion}
    {t : LType} (ht : determineABIType ebr = some t) (hrs : determineABITypes ebrs = some rs) :
    determineABITypes (ebr :: ebrs) = some (ebr.withType t :: rs) := by
  unfold determineABITypes at hrs ⊢
  simp [List.mapM_cons, ht, hrs]

/-- The chunks of a struct: each reaches from an eightbyte's start to the end of the last
scalar that starts in that eightbyte. -/
inductive Chunks (ls : List Leaf) : List EightByteRegion → List LType → Prop
  | one {ebr : EightByteRegion} {t : LType} {e : ℕ} (htype : ebr.abiDirectType = some t)
      (ht : Holds t 0 e) (hlt : 0 < e) (hle : e ≤ 8) (hstop : ∀ l ∈ ls, l.span.stop ≤ e) :
      Chunks ls [ebr] [t]
  | two {ebr ebr' : EightByteRegion} {t t' : LType} {xs ys : List Leaf} {e e' : ℕ}
      (hls : ls = xs ++ ys) (hxs : xs ≠ []) (hys : ys ≠ [])
      (htype : ebr.abiDirectType = some t) (htype' : ebr'.abiDirectType = some t')
      (ht : Holds t 0 e) (ht' : Holds t' 8 e') (hlt : 0 < e) (hle : e ≤ 8) (hlt' : 8 < e')
      (hle' : e' ≤ 16) (hlo : ∀ l ∈ xs, l.offset < 8) (hhi : ∀ l ∈ ys, 8 ≤ l.offset)
      (hstop : ∀ l ∈ xs, l.span.stop ≤ e) (hstop' : ∀ l ∈ ys, l.span.stop ≤ e')
      (hlast : ∃ l ∈ xs, l.span.stop = e) (hlast' : ∃ l ∈ ys, l.span.stop = e') :
      Chunks ls [ebr, ebr'] [t, t']

theorem leaf_pos {ls : List Leaf} {b hi : ℕ} (hc : Chain 8 b (ls.map Leaf.span) hi) {l : Leaf}
    (hl : l ∈ ls) : b ≤ l.offset ∧ l.offset < l.span.stop ∧ l.span.stop ≤ hi := by
  obtain ⟨hnat, hstart, hstop⟩ := hc.mem (List.mem_map_of_mem hl)
  have hpos : 0 < l.span.size := hnat.1
  exact ⟨hstart, Nat.lt_add_of_pos_right hpos, hstop⟩

/-- A chain that stays in the first eightbyte is one region. -/
theorem foldl_first {ls : List Leaf} {hi : ℕ} (hc : Chain 8 0 (ls.map Leaf.span) hi)
    (h1 : 1 ≤ hi) (h8 : hi ≤ 8) : ls.foldl pushLeaf [] = [region ls] := by
  obtain ⟨l, rest, hls, -⟩ := chain_first hc (by decide) h1
  apply foldl_one (by simp [hls])
  intro l hl
  obtain ⟨-, hlt, hle⟩ := leaf_pos hc hl
  omega

/-- A chain that goes on into the second eightbyte is cut there. -/
theorem foldl_both {ys zs : List Leaf} {hi : ℕ} (hy : Chain 8 0 (ys.map Leaf.span) 8)
    (hz : Chain 8 8 (zs.map Leaf.span) hi) (h8 : 8 < hi) :
    (ys ++ zs).foldl pushLeaf [] = [region ys, region zs] := by
  obtain ⟨l, rest, hys, -⟩ := chain_first hy (by decide) (by decide)
  obtain ⟨l', rest', hzs, -⟩ := chain_first hz (by decide) h8
  apply foldl_two (by simp [hys]) (by simp [hzs])
  · intro l hl
    obtain ⟨-, hlt, hle⟩ := leaf_pos hy hl
    omega
  · intro l hl
    exact (leaf_pos hz hl).1

section Struct

variable {id : Option ℕ} {fields : List Btype} (htplain : (Btype.struct id fields).type.isPlain)
  (hw : (Btype.struct id fields).isWalkable)

include htplain hw

theorem eightByteInfo_struct_eq (h16 : (Btype.struct id fields).type.shape.allocSize ≤ 16) :
    eightByteInfo (.struct id fields) =
      let ebrs := ((Btype.struct id fields).type.leaves 0).foldl pushLeaf []
      if ebrs.length ≤ 2 then determineABITypes ebrs else none := by
  have hexplode := explodeStruct_eq (isSized_of_isPlain _ htplain) h16
  rw [if_pos hw] at hexplode
  simp only [eightByteInfo, explode, hexplode, Option.bind_eq_bind, Option.bind_some]

/-- At most eight bytes are one chunk, which ends where the last scalar does. -/
theorem eightByteInfo_struct_first (h1 : 1 ≤ (Btype.struct id fields).type.shape.allocSize)
    (h8 : (Btype.struct id fields).type.shape.allocSize ≤ 8) :
    ∃ ebr t l, eightByteInfo (.struct id fields) = some [ebr] ∧ ebr.abiDirectType = some t ∧
      ((Btype.struct id fields).type.leaves 0).getLast? = some l ∧ Holds t 0 l.span.stop := by
  have hc := leaves_chain _ 0 htplain (Nat.dvd_zero _)
  rw [Nat.zero_add] at hc
  obtain ⟨t, l, ht, hl, hholds⟩ :=
    determineABIType_region (leaves_isPlainScalar _ 0 htplain) hc (by decide) h1 h8
  rw [eightByteInfo_struct_eq htplain hw (h8.trans (by decide)), foldl_first hc h1 h8]
  exact ⟨_, t, l, determineABITypes_cons ht rfl, rfl, hl, hholds⟩

/-- More than eight bytes are two chunks. -/
theorem eightByteInfo_struct_second (h8 : 8 < (Btype.struct id fields).type.shape.allocSize)
    (h16 : (Btype.struct id fields).type.shape.allocSize ≤ 16) :
    ∃ ebr ebr' t t', eightByteInfo (.struct id fields) = some [ebr, ebr'] ∧
      Chunks ((Btype.struct id fields).type.leaves 0) [ebr, ebr'] [t, t'] := by
  have hscalar := leaves_isPlainScalar _ 0 htplain
  have hc := leaves_chain _ 0 htplain (Nat.dvd_zero _)
  rw [Nat.zero_add] at hc
  rw [eightByteInfo_struct_eq htplain hw h16]
  generalize (Btype.struct id fields).type.leaves 0 = ls at *
  generalize (Btype.struct id fields).type.shape.allocSize = sz at *
  obtain ⟨ys', zs', hsplit, hy, hz, -⟩ :=
    hc.split (by decide) (by decide : 8 ∣ 8) (Nat.zero_le 8) h8
  obtain ⟨ys, zs, rfl, rfl, rfl⟩ := List.map_eq_append_iff.mp hsplit
  have hys := fun l hl => hscalar l (List.mem_append_left zs hl)
  have hzs := fun l hl => hscalar l (List.mem_append_right ys hl)
  obtain ⟨t, l, ht, hl, hholds⟩ :=
    determineABIType_region hys hy (by decide) (by decide) (by decide)
  obtain ⟨t', l', ht', hl', hholds'⟩ :=
    determineABIType_region hzs hz (by decide) h8 h16
  have hmem := List.mem_of_getLast? hl
  have hmem' := List.mem_of_getLast? hl'
  have hlast := leaf_pos hy hmem
  have hlast' := leaf_pos hz hmem'
  rw [foldl_both hy hz h8]
  refine ⟨(region ys).withType t, (region zs).withType t', t, t',
    determineABITypes_cons ht (determineABITypes_cons ht' rfl),
    .two rfl (List.ne_nil_of_mem hmem) (List.ne_nil_of_mem hmem') rfl rfl hholds hholds'
      (by omega) hlast.2.2 (by omega) (hlast'.2.2.trans h16) ?_ ?_ (chain_last hy hl)
      (chain_last hz hl') ⟨l, hmem, rfl⟩ ⟨l', hmem', rfl⟩⟩
  · intro l hl
    have := leaf_pos hy hl
    omega
  · intro l hl
    exact (leaf_pos hz hl).1

theorem eightByteInfo_struct (h1 : 1 ≤ (Btype.struct id fields).type.shape.allocSize)
    (h16 : (Btype.struct id fields).type.shape.allocSize ≤ 16) :
    ∃ ebrs ts, eightByteInfo (.struct id fields) = some ebrs ∧
      Chunks ((Btype.struct id fields).type.leaves 0) ebrs ts := by
  have hc := leaves_chain _ 0 htplain (Nat.dvd_zero _)
  rw [Nat.zero_add] at hc
  by_cases h8 : (Btype.struct id fields).type.shape.allocSize ≤ 8
  · obtain ⟨ebr, t, l, h, htype, hl, hholds⟩ := eightByteInfo_struct_first htplain hw h1 h8
    have hlast := leaf_pos hc (List.mem_of_getLast? hl)
    exact ⟨[ebr], [t], h, .one htype hholds (by omega) (hlast.2.2.trans h8) (chain_last hc hl)⟩
  · obtain ⟨ebr, ebr', t, t', h, hchunks⟩ :=
      eightByteInfo_struct_second htplain hw (Nat.lt_of_not_le h8) h16
    exact ⟨_, _, h, hchunks⟩

end Struct

end Dragongo
