import Dragongo.EightByteStruct

/-!
# When a struct survives its ABI type

A struct passed in registers is loaded from memory through the struct of its chunk
types and stored back through it on the other side.  Only the bytes of the chunks
make the journey.
-/

namespace Dragongo
open Layout LType

/-- The bytes of the chunks in the non-packed struct made of them. -/
def chunkSpans (ts : List LType) : List Span :=
  (offsets 0 (shapes ts)).zipWith Span.mk (ts.map fun t => t.shape.storeSize)

/-- The struct is cut into one or two regions, every leaf lies inside one chunk, and so
what a leaf holds is there again after a copy through the chunks. -/
def TravelsWhole (bt : Btype) : Prop :=
  ∃ ebrs ts, eightByteInfo bt = some ebrs ∧ (ebrs.length = 1 ∨ ebrs.length = 2) ∧
    ebrs.map (·.abiDirectType) = ts.map some ∧
    (∀ l ∈ bt.type.leaves 0, ∃ c ∈ chunkSpans ts, l.span.Inside c) ∧
    ∀ src dst : ℕ → UInt8, ∀ l ∈ bt.type.leaves 0, ∀ i, l.span.start ≤ i → i < l.span.stop →
      transfer (chunkSpans ts) src dst i = src i

/-- There are leaves from byte 8 on, but they and the leaves below end so early that the
second chunk is not aligned to 8. -/
def SecondChunkMoves (t : LType) : Prop :=
  (∃ l ∈ t.leaves 0, 8 ≤ l.offset) ∧
    ∀ l ∈ t.leaves 0, l.span.stop ≤ 12 ∧ (l.offset < 8 → l.span.stop ≤ 4)

/-- The offset of the second of two chunks of `m` and `n` bytes. -/
def secondOffset (m n : ℕ) : ℕ := alignTo (alignTo m (intAlign (8 * m))) (intAlign (8 * n))

theorem secondOffset_eq_eight : ∀ m ≤ 8, ∀ n ≤ 8, 0 < m ∧ 0 < n ∧ (4 < m ∨ 4 < n) →
    secondOffset m n = 8 := by
  decide

theorem secondOffset_le_four : ∀ m ≤ 4, ∀ n ≤ 4, secondOffset m n ≤ 4 := by decide

theorem Holds.storeSize {t : LType} {lo hi : ℕ} (h : Holds t lo hi) :
    t.shape.storeSize = hi - lo :=
  Shape.storeSize_of_bytes h.bits

theorem chunkSpans_one {t : LType} {e : ℕ} (h : Holds t 0 e) : chunkSpans [t] = [⟨0, e⟩] := by
  simp only [chunkSpans, shapes, offsets, List.map_cons, List.map_nil, h.storeSize,
    alignTo_zero t.shape.align_pos]
  rfl

theorem chunkSpans_two {t t' : LType} {e e' : ℕ} (h : Holds t 0 e) (h' : Holds t' 8 e') :
    chunkSpans [t, t'] = [⟨0, e⟩, ⟨secondOffset e (e' - 8), e' - 8⟩] := by
  simp only [chunkSpans, shapes, offsets, List.map_cons, List.map_nil, h.storeSize, h'.storeSize,
    Shape.allocSize, h.align, h'.align, Nat.sub_zero, alignTo_zero (intAlign_pos _), Nat.zero_add]
  rfl

/-! ## Chunks -/

theorem Chunks.length {ls : List Leaf} {ebrs : List EightByteRegion} {ts : List LType}
    (h : Chunks ls ebrs ts) : ebrs.length = 1 ∨ ebrs.length = 2 := by
  cases h with
  | one => exact .inl rfl
  | two => exact .inr rfl

theorem Chunks.types {ls : List Leaf} {ebrs : List EightByteRegion} {ts : List LType}
    (h : Chunks ls ebrs ts) : ebrs.map (·.abiDirectType) = ts.map some := by
  cases h with
  | one htype => simp [htype]
  | two _ _ _ htype htype' => simp [htype, htype']

/-- The second chunk moves just if neither of the two is wider than 4 bytes. -/
theorem secondChunkMoves_iff {t : LType} {xs ys : List Leaf} {e e' : ℕ}
    (hls : t.leaves 0 = xs ++ ys) (hys : ys ≠ []) (hlo : ∀ l ∈ xs, l.offset < 8)
    (hhi : ∀ l ∈ ys, 8 ≤ l.offset) (hstop : ∀ l ∈ xs, l.span.stop ≤ e)
    (hstop' : ∀ l ∈ ys, l.span.stop ≤ e') (hle : e ≤ 8) (hlast : ∃ l ∈ xs, l.span.stop = e)
    (hlast' : ∃ l ∈ ys, l.span.stop = e') : SecondChunkMoves t ↔ e ≤ 4 ∧ e' ≤ 12 := by
  constructor
  · rintro ⟨-, hends⟩
    obtain ⟨a, ha, rfl⟩ := hlast
    obtain ⟨b, hb, rfl⟩ := hlast'
    have ha4 := (hends a (hls ▸ List.mem_append_left ys ha)).2 (hlo a ha)
    have hb12 := (hends b (hls ▸ List.mem_append_right xs hb)).1
    exact ⟨ha4, hb12⟩
  · rintro ⟨he, he'⟩
    obtain ⟨y, ys, rfl⟩ := List.exists_cons_of_ne_nil hys
    refine ⟨⟨y, by simp [hls], hhi y List.mem_cons_self⟩, ?_⟩
    intro l hl
    rw [hls] at hl
    rcases List.mem_append.mp hl with hl | hl
    · have := hstop l hl
      omega
    · have h1 := hstop' l hl
      have h2 := hhi l hl
      omega

/-- Two narrow chunks lie in the first 8 bytes. -/
theorem stop_le_of_narrow {t t' : LType} {e e' : ℕ} (h : Holds t 0 e) (h' : Holds t' 8 e')
    (he : e ≤ 4) (he' : e' ≤ 12) : ∀ c ∈ chunkSpans [t, t'], c.stop ≤ 8 := by
  have hoff := secondOffset_le_four e he (e' - 8) (by omega)
  rw [chunkSpans_two h h']
  intro c hc
  rcases List.mem_cons.mp hc with rfl | hc
  · simp only [Span.stop]
    omega
  · rw [List.mem_singleton.mp hc]
    simp only [Span.stop]
    omega

section Cover

variable {t : LType} {ebrs : List EightByteRegion} {ts : List LType}

theorem Chunks.inside (h : Chunks (t.leaves 0) ebrs ts) (hmoves : ¬SecondChunkMoves t) :
    ∀ l ∈ t.leaves 0, ∃ c ∈ chunkSpans ts, l.span.Inside c := by
  intro l hl
  cases h with
  | one _ ht _ _ hstop =>
    rw [chunkSpans_one ht]
    refine ⟨_, List.mem_singleton_self _, Nat.zero_le _, ?_⟩
    simpa [Span.stop] using hstop l hl
  | @two _ _ _ _ xs ys e e' hls hxs hys _ _ ht ht' hlt hle hlt' hle' hlo hhi hstop hstop' hlast
      hlast' =>
    rw [secondChunkMoves_iff hls hys hlo hhi hstop hstop' hle hlast hlast'] at hmoves
    rw [chunkSpans_two ht ht',
      secondOffset_eq_eight e hle (e' - 8) (by omega) ⟨hlt, by omega, by omega⟩]
    rw [hls] at hl
    rcases List.mem_append.mp hl with hl | hl
    · refine ⟨⟨0, e⟩, by simp, Nat.zero_le _, ?_⟩
      simpa [Span.stop] using hstop l hl
    · refine ⟨⟨8, e' - 8⟩, by simp, hhi l hl, ?_⟩
      have := hstop' l hl
      simp only [Span.stop] at this ⊢
      omega

/-- A second chunk that is not at byte 8 misses the leaves there. -/
theorem Chunks.not_inside (h : Chunks (t.leaves 0) ebrs ts) (hmoves : SecondChunkMoves t)
    (hpos : ∀ l ∈ t.leaves 0, l.offset < l.span.stop) :
    ∃ l ∈ t.leaves 0, ∀ c ∈ chunkSpans ts, ¬l.span.Inside c := by
  obtain ⟨l, hl, hl8⟩ := hmoves.1
  refine ⟨l, hl, ?_⟩
  have hstop8 := hpos l hl
  cases h with
  | one _ ht _ hle hstop =>
    have := hstop l hl
    omega
  | two hls _ hys _ _ ht ht' _ hle _ _ hlo hhi hstop hstop' hlast hlast' =>
    rw [secondChunkMoves_iff hls hys hlo hhi hstop hstop' hle hlast hlast'] at hmoves
    intro c hc hinside
    have hstop := stop_le_of_narrow ht ht' hmoves.1 hmoves.2 c hc
    have hle : l.span.stop ≤ c.stop := hinside.2
    omega

end Cover

theorem eightByteInfo_struct_none {id : Option ℕ} {fields : List Btype}
    (hsized : (Btype.struct id fields).type.isSized)
    (h16 : (Btype.struct id fields).type.shape.allocSize ≤ 16)
    (hw : ¬(Btype.struct id fields).isWalkable) : eightByteInfo (.struct id fields) = none := by
  have hexplode := explodeStruct_eq hsized h16
  rw [if_neg hw] at hexplode
  simp [eightByteInfo, explode, hexplode]

section Struct

variable {id : Option ℕ} {fields : List Btype} (hplain : (Btype.struct id fields).isPlain)
  (h1 : 1 ≤ (Btype.struct id fields).type.shape.allocSize)
  (h16 : (Btype.struct id fields).type.shape.allocSize ≤ 16)

include hplain h16

theorem isWalkable_of_travelsWhole (h : TravelsWhole (.struct id fields)) :
    (Btype.struct id fields).isWalkable := by
  obtain ⟨ebrs, ts, hinfo, -⟩ := h
  by_contra hw
  rw [eightByteInfo_struct_none (isSized_of_isPlain _ (Btype.type_isPlain _ hplain)) h16 hw] at hinfo
  contradiction

include h1

theorem not_travelsWhole_of_moves (hmoves : SecondChunkMoves (Btype.struct id fields).type) :
    ¬TravelsWhole (.struct id fields) := by
  intro h
  have hw := isWalkable_of_travelsWhole hplain h16 h
  obtain ⟨ebrs, ts, hinfo, -, htypes, hinside, -⟩ := h
  obtain ⟨ebrs', ts', hinfo', hchunks⟩ := eightByteInfo_struct (Btype.type_isPlain _ hplain) hw h1 h16
  obtain rfl : ebrs = ebrs' := Option.some.inj (hinfo.symm.trans hinfo')
  obtain rfl : ts = ts' := (Option.some_injective _).list_map (htypes.symm.trans hchunks.types)
  obtain ⟨l, hl, hmiss⟩ := hchunks.not_inside hmoves fun l hl =>
    (leaf_pos (leaves_chain _ 0 (Btype.type_isPlain _ hplain) (Nat.dvd_zero _)) hl).2.1
  obtain ⟨c, hc, hlc⟩ := hinside l hl
  exact hmiss c hc hlc

theorem travelsWhole_of_not_moves (hw : (Btype.struct id fields).isWalkable)
    (hmoves : ¬SecondChunkMoves (Btype.struct id fields).type) :
    TravelsWhole (.struct id fields) := by
  obtain ⟨ebrs, ts, hinfo, hchunks⟩ := eightByteInfo_struct (Btype.type_isPlain _ hplain) hw h1 h16
  have hinside := hchunks.inside hmoves
  refine ⟨ebrs, ts, hinfo, hchunks.length, hchunks.types, hinside, ?_⟩
  intro src dst l hl i hi hi'
  obtain ⟨c, hc, hlc⟩ := hinside l hl
  exact transfer_of_inside hc hlc hi hi'

/-- A struct of naturally aligned scalars travels whole exactly when its flattening ends
and its second chunk stays at byte 8. -/
theorem travelsWhole_iff : TravelsWhole (.struct id fields) ↔
    (Btype.struct id fields).isWalkable ∧ ¬SecondChunkMoves (Btype.struct id fields).type := by
  constructor
  · intro h
    refine ⟨isWalkable_of_travelsWhole hplain h16 h, ?_⟩
    intro hmoves
    exact not_travelsWhole_of_moves hplain h1 h16 hmoves h
  · intro h
    exact travelsWhole_of_not_moves hplain h1 h16 h.1 h.2

end Struct

/-- `struct { float32; uint16; int64 }`. -/
theorem travelsWhole_mixed :
    TravelsWhole (.struct none [.float .f32, .integer true 16, .integer false 64]) :=
  (travelsWhole_iff (by decide) (by decide) (by decide)).mpr
    ⟨by decide, by unfold SecondChunkMoves; decide⟩

/-- `struct { float32; [0]int64; int8 }`: the second chunk, one byte, lands at byte 4. -/
theorem not_travelsWhole_zeroLength :
    let bt := Btype.struct none [.float .f32, .array (.integer false 64) 0, .integer false 8]
    bt.isPlain ∧ 1 ≤ bt.type.shape.allocSize ∧ bt.type.shape.allocSize ≤ 16 ∧
      ¬TravelsWhole bt :=
  ⟨by decide, by decide, by decide, not_travelsWhole_of_moves (by decide) (by decide) (by decide)
    (by unfold SecondChunkMoves; decide)⟩

end Dragongo
