import Dragongo.Marshalling

/-!
# The type that a result is returned as

A struct or an array that is returned in registers is loaded from memory through another type,
and stored through that type on the other side.  Here is what that type is, when it reaches past
the end of the memory, and when a scalar is lost on the way.
-/

namespace Dragongo
open Layout LType TypDisp CABIParamDisp

/-- The bytes that a load or a store through the type moves: those of its scalars. -/
def movedSpans (t : LType) : List Span := (t.leaves 0).map Leaf.span

/-- Every scalar of an object of the type is there again after these bytes are moved. -/
def Arrives (t : LType) (spans : List Span) : Prop :=
  ∀ src dst : ℕ → UInt8, ∀ l ∈ t.leaves 0, ∀ i, l.span.start ≤ i → i < l.span.stop →
    transfer spans src dst i = src i

/-- The type of a chunk. -/
def LType.isRegisterType : LType → Bool
  | int _ | float | double | twoFloatVec => true
  | _ => false

/-- A struct whose second chunk is not at byte 8. -/
def Btype.MovesSecondChunk : Btype → Prop
  | struct id fields => SecondChunkMoves (Btype.struct id fields).type
  | _ => False

/-- The chunks of the type are no longer than it, and where its scalars are. -/
def ResultTravels (bt : Btype) : Prop :=
  bt.type.shape.allocSize ≤ 8 ∨ 16 < bt.type.shape.allocSize ∨
    bt.type.shape.allocSize = 16 ∧ ¬bt.MovesSecondChunk

/-! ## Bytes that are moved -/

theorem arrives_of_inside {t : LType} {spans : List Span}
    (h : ∀ l ∈ t.leaves 0, ∃ c ∈ spans, l.span.Inside c) : Arrives t spans := by
  intro src dst l hl i hi hi'
  obtain ⟨c, hc, hlc⟩ := h l hl
  exact transfer_of_inside hc hlc hi hi'

/-- A scalar does not arrive if its first byte is in none of the spans. -/
theorem not_arrives {t : LType} {spans : List Span} {l : Leaf} (hl : l ∈ t.leaves 0)
    (hpos : l.offset < l.span.stop) (hstop : ∀ c ∈ spans, c.stop ≤ l.offset) :
    ¬Arrives t spans := by
  intro h
  have hmoved := h (fun _ => 1) (fun _ => 0) l hl l.offset (Nat.le_refl _) hpos
  rw [transfer, if_neg] at hmoved
  · cases hmoved
  · rintro ⟨c, hc, -, hlt⟩
    exact absurd (hstop c hc) (Nat.not_le.mpr hlt)

theorem leaves_register : ∀ (t : LType) (b : ℕ), t.isRegisterType → t.leaves b = [⟨t, b⟩]
  | int _, _, _ | float, _, _ | double, _, _ | twoFloatVec, _, _ => rfl

theorem not_isAggregateType_of_isRegisterType : ∀ t : LType, t.isRegisterType → ¬t.isAggregateType
  | int _, _ | float, _ | double, _ | twoFloatVec, _ => Bool.false_ne_true

theorem movedSpans_register {t : LType} {e : ℕ} (hreg : t.isRegisterType) (h : Holds t 0 e) :
    movedSpans t = [⟨0, e⟩] := by
  rw [movedSpans, leaves_register t 0 hreg, List.map_singleton, Leaf.span, h.storeSize]
  rfl

theorem movedSpans_pair {t t' : LType} (hreg : t.isRegisterType) (hreg' : t'.isRegisterType) :
    movedSpans (makeLLVMTwoElementStructType t t') = chunkSpans [t, t'] := by
  simp only [movedSpans, makeLLVMTwoElementStructType, leaves, fieldLeaves,
    leaves_register _ _ hreg, leaves_register _ _ hreg', chunkSpans, shapes, offsets]
  simp [Leaf.span]

/-- The size of the struct of two chunks of `m` and `n` bytes. -/
def pairSize (m n : ℕ) : ℕ :=
  alignTo (secondOffset m n + alignTo n (intAlign (8 * n)))
    (max (intAlign (8 * m)) (max (intAlign (8 * n)) 1))

theorem pairSize_eq : ∀ m ≤ 8, ∀ n ≤ 8, 0 < m ∧ 0 < n ∧ (4 < m ∨ 4 < n) → pairSize m n = 16 := by
  decide

theorem storeSize_pair {t t' : LType} {e e' : ℕ} (h : Holds t 0 e) (h' : Holds t' 8 e') :
    (makeLLVMTwoElementStructType t t').shape.storeSize = pairSize e (e' - 8) := by
  refine Shape.storeSize_of_bytes ?_
  simp only [makeLLVMTwoElementStructType, shape, shapes, Shape.record, endPos, maxAlign,
    Shape.allocSize, h.storeSize, h'.storeSize, h.align, h'.align, Nat.sub_zero,
    alignTo_zero (intAlign_pos _), Nat.zero_add]
  rfl

/-! ## What a type is returned as -/

/-- The type that a result travels as. -/
inductive TravelsAs (bt : Btype) : LType → Prop
  | itself (h8 : bt.type.shape.allocSize ≤ 8) : TravelsAs bt bt.type
  | one {t : LType} {e : ℕ} (hreg : t.isRegisterType) (ht : Holds t 0 e)
      (hle : e ≤ bt.type.shape.allocSize) (h8 : bt.type.shape.allocSize ≤ 8)
      (hstop : ∀ l ∈ bt.type.leaves 0, l.span.stop ≤ e) : TravelsAs bt t
  | two {t t' : LType} {e e' : ℕ} (hreg : t.isRegisterType) (hreg' : t'.isRegisterType)
      (ht : Holds t 0 e) (ht' : Holds t' 8 e') (hlt : 0 < e) (hle : e ≤ 8) (hlt' : 8 < e')
      (hle' : e' ≤ bt.type.shape.allocSize) (h16 : bt.type.shape.allocSize ≤ 16)
      (hstop : ∀ l ∈ bt.type.leaves 0,
        l.span.stop ≤ e ∨ 8 ≤ l.offset ∧ l.span.stop ≤ e')
      (hsecond : ∃ l ∈ bt.type.leaves 0, 8 ≤ l.offset ∧ l.offset < l.span.stop)
      (hmoves : bt.MovesSecondChunk ↔ e ≤ 4 ∧ e' ≤ 12) :
      TravelsAs bt (makeLLVMTwoElementStructType t t')

section Travels

variable {bt : Btype} {t : LType}

section Two

variable {u u' : LType} {e e' : ℕ} (ht : Holds u 0 e) (ht' : Holds u' 8 e') (hle : e ≤ 8)
  (hlt' : 8 < e') (hle' : e' ≤ bt.type.shape.allocSize) (h16 : bt.type.shape.allocSize ≤ 16)

include ht ht' hle hlt' hle' h16

/-- Chunks of which one is wide are where they were cut. -/
theorem chunkSpans_wide (hlt : 0 < e) (hwide : ¬(e ≤ 4 ∧ e' ≤ 12)) :
    chunkSpans [u, u'] = [⟨0, e⟩, ⟨8, e' - 8⟩] := by
  rw [chunkSpans_two ht ht',
    secondOffset_eq_eight e hle (e' - 8) (by omega) ⟨hlt, by omega, by omega⟩]

theorem chunkSpans_stop_le (hlt : 0 < e) :
    ∀ c ∈ chunkSpans [u, u'], c.stop ≤ bt.type.shape.allocSize := by
  intro c hc
  by_cases hnarrow : e ≤ 4 ∧ e' ≤ 12
  · have hstop := stop_le_of_narrow ht ht' hnarrow.1 hnarrow.2 c hc
    omega
  · rw [chunkSpans_wide ht ht' hle hlt' hle' h16 hlt hnarrow] at hc
    simp only [List.mem_cons, List.not_mem_nil, or_false] at hc
    rcases hc with rfl | rfl <;> simp only [Span.stop] <;> omega

/-- The scalars arrive just if one of the chunks is wide. -/
theorem arrives_two (hlt : 0 < e)
    (hstop : ∀ l ∈ bt.type.leaves 0, l.span.stop ≤ e ∨ 8 ≤ l.offset ∧ l.span.stop ≤ e')
    (hsecond : ∃ l ∈ bt.type.leaves 0, 8 ≤ l.offset ∧ l.offset < l.span.stop) :
    Arrives bt.type (chunkSpans [u, u']) ↔ ¬(e ≤ 4 ∧ e' ≤ 12) := by
  constructor
  · -- the second chunk is in the first eight bytes, and the scalars from byte 8 on are lost
    rintro harrives ⟨he, he'⟩
    obtain ⟨l, hl, hl8, hpos⟩ := hsecond
    exact not_arrives hl hpos
      (fun c hc => (stop_le_of_narrow ht ht' he he' c hc).trans hl8) harrives
  · intro hwide
    rw [chunkSpans_wide ht ht' hle hlt' hle' h16 hlt hwide]
    refine arrives_of_inside fun l hl => ?_
    rcases hstop l hl with hl' | ⟨hl8, hl'⟩
    · refine ⟨⟨0, e⟩, by simp, Nat.zero_le _, ?_⟩
      simpa [Span.stop] using hl'
    · refine ⟨⟨8, e' - 8⟩, by simp, hl8, ?_⟩
      simp only [Span.stop] at hl' ⊢
      omega

end Two

theorem arrives_one {e : ℕ} (ht : Holds t 0 e) (hstop : ∀ l ∈ bt.type.leaves 0, l.span.stop ≤ e) :
    Arrives bt.type (chunkSpans [t]) := by
  refine arrives_of_inside fun l hl => ?_
  rw [chunkSpans_one ht]
  refine ⟨_, List.mem_singleton_self _, Nat.zero_le _, ?_⟩
  simpa [Span.stop] using hstop l hl

/-- Nothing outside of the memory is accessed and no scalar is lost, or not. -/
theorem TravelsAs.arrives_iff (h : TravelsAs bt t) :
    t.shape.storeSize ≤ bt.type.shape.allocSize ∧ Arrives bt.type (movedSpans t) ↔
      ResultTravels bt := by
  cases h with
  | itself h8 =>
    refine iff_of_true ⟨le_alignTo bt.type.shape.align_pos _, arrives_of_inside ?_⟩ (.inl h8)
    intro l hl
    exact ⟨l.span, List.mem_map_of_mem hl, Nat.le_refl _, Nat.le_refl _⟩
  | one hreg ht hle h8 hstop =>
    rw [movedSpans_register hreg ht, ← chunkSpans_one ht]
    exact iff_of_true ⟨ht.storeSize ▸ hle, arrives_one ht hstop⟩ (.inl h8)
  | @two u u' e e' hreg hreg' ht ht' hlt hle hlt' hle' h16 hstop hsecond hmoves =>
    rw [storeSize_pair ht ht', movedSpans_pair hreg hreg', ResultTravels, hmoves,
      arrives_two ht ht' hle hlt' hle' h16 hlt hstop hsecond]
    by_cases hnarrow : e ≤ 4 ∧ e' ≤ 12
    · refine iff_of_false (fun h => h.2 hnarrow) ?_
      omega
    · have hsize := pairSize_eq e hle (e' - 8) (by omega) ⟨hlt, by omega, by omega⟩
      rw [hsize, and_iff_left hnarrow]
      omega

end Travels

/-! ## Chunks are register types -/

theorem determineABIType_register {ebr : EightByteRegion} {t : LType}
    (h0 : ebr.abiDirectType = none) (h : determineABIType ebr = some t) : t.isRegisterType := by
  simp only [determineABIType, h0] at h
  split_ifs at h
  · split at h
    · cases h
      rfl
    · cases h
      rfl
    · cases h
      rfl
    · cases h
  · obtain ⟨lastOffset, -, h⟩ := Option.bind_eq_some_iff.mp h
    obtain ⟨firstOffset, -, h⟩ := Option.bind_eq_some_iff.mp h
    obtain ⟨lastType, -, h⟩ := Option.bind_eq_some_iff.mp h
    obtain ⟨sz, -, h⟩ := Option.bind_eq_some_iff.mp h
    rw [llvmArbitraryIntegerType] at h
    split_ifs at h
    cases h
    rfl

theorem determineABITypes_register {ebrs rs : List EightByteRegion}
    (h0 : ∀ ebr ∈ ebrs, ebr.abiDirectType = none) (h : determineABITypes ebrs = some rs) :
    ∀ ebr ∈ rs, ∀ t, ebr.abiDirectType = some t → t.isRegisterType := by
  induction ebrs generalizing rs with
  | nil =>
    cases h
    intro ebr hebr
    cases hebr
  | cons ebr ebrs ih =>
    obtain ⟨t, rs', ht, hrs', rfl⟩ := determineABITypes_cons_some h
    have hrest := ih (fun e he => h0 e (List.mem_cons_of_mem _ he)) hrs'
    intro e he u hu
    rcases List.mem_cons.mp he with rfl | he
    · cases hu
      exact determineABIType_register (h0 ebr List.mem_cons_self) ht
    · exact hrest e he u hu

/-- What a struct or an array is cut into is typed by the rule for regions. -/
theorem eightByteInfo_register {bt : Btype} {ebrs : List EightByteRegion}
    (hbt : (∃ id fields, bt = .struct id fields) ∨ ∃ t n, bt = .array t n)
    (h : eightByteInfo bt = some ebrs) :
    ∀ ebr ∈ ebrs, ∀ t, ebr.abiDirectType = some t → t.isRegisterType := by
  obtain ⟨rs, hrs, h⟩ := Option.bind_eq_some_iff.mp h
  split_ifs at h
  refine determineABITypes_register (fun ebr hebr => ?_) h
  rcases hbt with ⟨id, fields, rfl⟩ | ⟨t, n, rfl⟩
  · exact explodeStruct_forall (P := fun ebr => ebr.abiDirectType = none) rfl
      (fun _ _ _ h => h) hrs ebr hebr
  · exact explodeArray_forall (P := fun ebr => ebr.abiDirectType = none) rfl
      (fun _ _ _ h => h) hrs ebr hebr

/-! ## Structs and arrays -/

section Leaves

variable {bt : Btype} (hplain : bt.type.isPlain)

include hplain

theorem leaf_stop_le {l : Leaf} (hl : l ∈ bt.type.leaves 0) :
    l.offset < l.span.stop ∧ l.span.stop ≤ bt.type.shape.allocSize := by
  have hc := leaves_chain _ 0 hplain (Nat.dvd_zero _)
  rw [Nat.zero_add] at hc
  exact (leaf_pos hc hl).2

/-- The scalars from byte 8 on, of which there are some, do not reach below it. -/
theorem leaves_split (h8 : 8 < bt.type.shape.allocSize) :
    (∀ l ∈ bt.type.leaves 0, l.span.stop ≤ 8 ∨ 8 ≤ l.offset) ∧
      ∃ l ∈ bt.type.leaves 0, 8 ≤ l.offset := by
  have hc := leaves_chain _ 0 hplain (Nat.dvd_zero _)
  rw [Nat.zero_add] at hc
  obtain ⟨ys', zs', hsplit, hy, hz, -⟩ :=
    hc.split (by decide) (by decide : 8 ∣ 8) (Nat.zero_le 8) h8
  obtain ⟨ys, zs, hls, rfl, rfl⟩ := List.map_eq_append_iff.mp hsplit
  rw [hls]
  constructor
  · intro l hl
    rcases List.mem_append.mp hl with hl | hl
    · exact .inl (leaf_pos hy hl).2.2
    · exact .inr (leaf_pos hz hl).1
  · obtain ⟨l, rest, hzs, hl⟩ := chain_first hz (by decide) h8
    exact ⟨l, by simp [hzs], hl.ge⟩

end Leaves

section Array

variable {T : Btype} {n : ℕ}

/-- The type of a region of whole elements holds exactly them. -/
theorem holds_block (hsz : typeSize T.type = some T.type.shape.allocSize) {i k : ℕ} {t : LType}
    (hpair : getTypDisp T.type = flavSSE → k = 1 → T.type.shape.allocSize = 4)
    (h : determineABIType (block T.type (strideOffsets T.type.shape.allocSize i (k + 1))) = some t)
    (b : ℕ) : Holds t b (b + (k + 1) * T.type.shape.allocSize) ∧
      (k + 1) * T.type.shape.allocSize ≤ 8 := by
  have hwidth (m : ℕ) : b + m - b = m := Nat.add_sub_cancel_left b m
  by_cases hdisp : getTypDisp T.type = flavSSE
  · have hlen : (strideOffsets T.type.shape.allocSize i (k + 1)).length = k + 1 := by simp
    rcases block_sse_cases (by simp [strideOffsets]) hdisp h with h2 | ⟨h1, hfp⟩
    · have hk : k = 1 := by omega
      subst hk
      obtain ⟨o, o', hos⟩ := List.length_eq_two.mp hlen
      rw [hos, block_sse_two o o' hdisp] at h
      cases h
      rw [hpair hdisp rfl]
      exact ⟨⟨by rw [hwidth]; rfl, by rw [hwidth]; rfl, rfl⟩, by decide⟩
    · have hk : k = 0 := by omega
      subst hk
      obtain ⟨o, hos⟩ := List.length_eq_one_iff.mp hlen
      rw [hos] at h
      rcases float_size T.type hfp with ⟨hT, -⟩ | ⟨hT, -⟩
      · rw [hT] at h ⊢
        cases h
        exact ⟨⟨by rw [hwidth]; rfl, by rw [hwidth]; rfl, rfl⟩, by decide⟩
      · rw [hT] at h ⊢
        cases h
        exact ⟨⟨by rw [hwidth]; rfl, by rw [hwidth]; rfl, rfl⟩, by decide⟩
  · rw [block_int i k hdisp hsz, llvmArbitraryIntegerType] at h
    split_ifs at h with hle
    cases h
    have hint := holds_int b (b + (k + 1) * T.type.shape.allocSize)
    rw [hwidth] at hint
    exact ⟨hint, hle.2⟩

variable (hplain : T.type.isPlain) (h1 : 1 ≤ T.type.shape.allocSize * n)
  (h16 : T.type.shape.allocSize * n ≤ 16)

include hplain h1 h16

/-- The chunks of an array reach from an eightbyte's start to the end of its last element. -/
theorem holds_eightByteInfo_array {ebrs : List EightByteRegion}
    (h : eightByteInfo (.array T n) = some ebrs) :
    (T.type.shape.allocSize * n ≤ 8 ∧ ∃ ebr t, ebrs = [ebr] ∧ ebr.abiDirectType = some t ∧
        Holds t 0 (T.type.shape.allocSize * n)) ∨
      8 < T.type.shape.allocSize * n ∧ ∃ ebr ebr' t t', ebrs = [ebr, ebr'] ∧
        ebr.abiDirectType = some t ∧ ebr'.abiDirectType = some t' ∧ Holds t 0 8 ∧
          Holds t' 8 (T.type.shape.allocSize * n) := by
  obtain ⟨hs, hn⟩ := elem_pos h1
  have hs16 : T.type.shape.allocSize ≤ 16 := (Nat.le_mul_of_pos_right _ hn).trans h16
  have hsz := typeSize_of_isPlain hplain hs16
  have hfit := fits_of_eightByteInfo_array hplain h1 h16 h
  have hsse : getTypDisp T.type = flavSSE → ∃ q, T.type.shape.allocSize = 4 * q := fun hd =>
    four_dvd_of_sse hplain hd hs
  rw [eightByteInfo_array hplain h1 h16] at h
  rcases pieces_cases h16 with ⟨hp, h4, h8⟩ | ⟨k, m, rfl, hp, hcases⟩
  · obtain ⟨k, rfl⟩ := Nat.exists_eq_add_of_lt hn
    rw [Nat.zero_add] at *
    rw [hp] at h
    obtain ⟨t, rs, ht, hrs, rfl⟩ := determineABITypes_cons_some h
    cases hrs
    have hpair : getTypDisp T.type = flavSSE → k = 1 → T.type.shape.allocSize = 4 := by
      intro hd hk
      subst hk
      obtain ⟨q, hq⟩ := hsse hd
      omega
    obtain ⟨hholds, hle⟩ := holds_block hsz hpair ht 0
    rw [Nat.zero_add, Nat.mul_comm] at hholds
    rw [Nat.mul_comm] at hle
    exact .inl ⟨hle, _, t, rfl, rfl, hholds⟩
  · rw [hp] at h
    obtain ⟨t, rs, ht, hrs, rfl⟩ := determineABITypes_cons_some h
    obtain ⟨t', rs', ht', hrs', rfl⟩ := determineABITypes_cons_some hrs
    cases hrs'
    have hs48 : getTypDisp T.type = flavSSE → T.type.shape.allocSize ≠ 5 := by
      intro hd
      obtain ⟨q, hq⟩ := hsse hd
      omega
    obtain ⟨hholds, hle⟩ := holds_block hsz (fun hd hk => by have := hs48 hd; omega) ht 0
    obtain ⟨hholds', -⟩ := holds_block hsz (fun hd hm => by have := hs48 hd; omega) ht' 8
    have hk8 : (k + 1) * T.type.shape.allocSize = 8 := by
      rcases hcases with ⟨hs8, rfl, rfl⟩ | ⟨hs4, rfl, hm⟩ | ⟨hs5, rfl, rfl⟩
      · rw [hs8]
      · rw [hs4]
      · omega
    have hwhole : T.type.shape.allocSize * (k + 1 + (m + 1)) =
        8 + (m + 1) * T.type.shape.allocSize := by
      rw [Nat.mul_comm, Nat.add_mul, hk8]
    have hm : 0 < (m + 1) * T.type.shape.allocSize := Nat.mul_pos (Nat.succ_pos m) hs
    rw [hwhole]
    rw [hk8] at hholds
    exact .inr ⟨by omega, _, _, t, t', rfl, rfl, rfl, hholds, hholds'⟩

end Array

/-- The type that a struct or an array is returned as is a struct just if it has two chunks. -/
structure TravelsIn (bt : Btype) (info : CABIParamInfo) (t : LType) : Prop where
  abiTypes : info.abiTypes = [t]
  travels : TravelsAs bt t
  isAggregateType : t.isAggregateType ↔ 8 < bt.type.shape.allocSize
  isStructTy : t.isAggregateType → t.isStructTy

section Direct

variable {bt : Btype} {info : CABIParamInfo} {ebr ebr' : EightByteRegion} {t t' : LType} {e e' : ℕ}

theorem travelsIn_one (hinfo : directReturn [ebr] = some info) (hreg : t.isRegisterType)
    (htype : ebr.abiDirectType = some t) (ht : Holds t 0 e) (hle : e ≤ bt.type.shape.allocSize)
    (h8 : bt.type.shape.allocSize ≤ 8) (hstop : ∀ l ∈ bt.type.leaves 0, l.span.stop ≤ e) :
    TravelsIn bt info t := by
  have hnot := not_isAggregateType_of_isRegisterType t hreg
  simp only [directReturn, htype, Option.bind_eq_bind, Option.bind_some] at hinfo
  cases hinfo
  exact ⟨rfl, .one hreg ht hle h8 hstop, iff_of_false hnot (Nat.not_lt.mpr h8),
    fun h => absurd h hnot⟩

theorem travelsIn_two (hinfo : directReturn [ebr, ebr'] = some info) (hreg : t.isRegisterType)
    (hreg' : t'.isRegisterType) (htype : ebr.abiDirectType = some t)
    (htype' : ebr'.abiDirectType = some t') (hplain : bt.type.isPlain) (ht : Holds t 0 e)
    (ht' : Holds t' 8 e') (hlt : 0 < e) (hle : e ≤ 8) (hlt' : 8 < e')
    (hle' : e' ≤ bt.type.shape.allocSize) (h16 : bt.type.shape.allocSize ≤ 16)
    (hstop : ∀ l ∈ bt.type.leaves 0, l.span.stop ≤ e ∨ 8 ≤ l.offset ∧ l.span.stop ≤ e')
    (hmoves : bt.MovesSecondChunk ↔ e ≤ 4 ∧ e' ≤ 12) :
    TravelsIn bt info (makeLLVMTwoElementStructType t t') := by
  have h8 := hlt'.trans_le hle'
  simp only [directReturn, htype, htype', Option.bind_eq_bind, Option.bind_some] at hinfo
  cases hinfo
  obtain ⟨l, hl, hl8⟩ := (leaves_split hplain h8).2
  have hsecond : ∃ l ∈ bt.type.leaves 0, 8 ≤ l.offset ∧ l.offset < l.span.stop :=
    ⟨l, hl, hl8, (leaf_stop_le hplain hl).1⟩
  exact ⟨rfl, .two hreg hreg' ht ht' hlt hle hlt' hle' h16 hstop hsecond hmoves,
    iff_of_true rfl h8, fun _ => rfl⟩

variable {ebrs : List EightByteRegion}

theorem travelsIn_struct {id : Option ℕ} {fields : List Btype}
    (hplain : (Btype.struct id fields).type.isPlain)
    (h1 : 1 ≤ (Btype.struct id fields).type.shape.allocSize)
    (h16 : (Btype.struct id fields).type.shape.allocSize ≤ 16)
    (hebrs : eightByteInfo (.struct id fields) = some ebrs)
    (hinfo : directReturn ebrs = some info) : ∃ t, TravelsIn (.struct id fields) info t := by
  have hreg := eightByteInfo_register (.inl ⟨id, fields, rfl⟩) hebrs
  have hw : (Btype.struct id fields).isWalkable := by
    by_contra hw
    rw [eightByteInfo_struct_none (isSized_of_isPlain _ hplain) h16 hw] at hebrs
    cases hebrs
  have hc := leaves_chain _ 0 hplain (Nat.dvd_zero _)
  rw [Nat.zero_add] at hc
  by_cases h8 : (Btype.struct id fields).type.shape.allocSize ≤ 8
  · obtain ⟨ebr, t, l, h, htype, hl, hholds⟩ := eightByteInfo_struct_first hplain hw h1 h8
    obtain rfl := Option.some.inj (hebrs.symm.trans h)
    have hle := (leaf_stop_le hplain (List.mem_of_getLast? hl)).2
    exact ⟨t, travelsIn_one hinfo (hreg ebr List.mem_cons_self t htype) htype hholds hle h8
      (chain_last hc hl)⟩
  · obtain ⟨ebr, ebr', t, t', h, hchunks⟩ :=
      eightByteInfo_struct_second hplain hw (Nat.lt_of_not_le h8) h16
    obtain rfl := Option.some.inj (hebrs.symm.trans h)
    cases hchunks with
    | two hls hxs hys htype htype' ht ht' hlt hle hlt' hle' hlo hhi hstop hstop' hlast hlast' =>
      have hmoves := secondChunkMoves_iff hls hys hlo hhi hstop hstop' hle hlast hlast'
      obtain ⟨b, hb, hbe⟩ := hlast'
      have hend := (leaf_stop_le hplain (hls ▸ List.mem_append_right _ hb)).2
      refine ⟨_, travelsIn_two hinfo (hreg ebr List.mem_cons_self t htype)
        (hreg ebr' (List.mem_cons_of_mem _ List.mem_cons_self) t' htype') htype htype' hplain ht
        ht' hlt hle hlt' (hbe ▸ hend) h16 (fun l hl => ?_) hmoves⟩
      rw [hls] at hl
      rcases List.mem_append.mp hl with hl | hl
      · exact .inl (hstop l hl)
      · exact .inr ⟨hhi l hl, hstop' l hl⟩

theorem travelsIn_array {T : Btype} {n : ℕ} (hplain : (Btype.array T n).type.isPlain)
    (h1 : 1 ≤ (Btype.array T n).type.shape.allocSize)
    (h16 : (Btype.array T n).type.shape.allocSize ≤ 16)
    (hebrs : eightByteInfo (.array T n) = some ebrs) (hinfo : directReturn ebrs = some info) :
    ∃ t, TravelsIn (.array T n) info t := by
  have hreg := eightByteInfo_register (.inr ⟨T, n, rfl⟩) hebrs
  have hsize : T.type.shape.allocSize * n = (Btype.array T n).type.shape.allocSize := by
    rw [Btype.type, shape, Shape.allocSize_array, Nat.mul_comm]
  have hcut := holds_eightByteInfo_array (T := T) (n := n) hplain (by rwa [hsize])
    (by rwa [hsize]) hebrs
  rw [hsize] at hcut
  have hstop : ∀ l ∈ (Btype.array T n).type.leaves 0,
      l.span.stop ≤ (Btype.array T n).type.shape.allocSize := fun l hl =>
    (leaf_stop_le hplain hl).2
  rcases hcut with ⟨h8, ebr, t, rfl, htype, ht⟩ | ⟨h8, ebr, ebr', t, t', rfl, htype, htype', ht, ht'⟩
  · exact ⟨t, travelsIn_one hinfo (hreg ebr List.mem_cons_self t htype) htype ht (Nat.le_refl _) h8
      hstop⟩
  · have hmoves : (Btype.array T n).MovesSecondChunk ↔
        8 ≤ 4 ∧ (Btype.array T n).type.shape.allocSize ≤ 12 :=
      iff_of_false id fun h => absurd h.1 (by decide)
    refine ⟨_, travelsIn_two hinfo (hreg ebr List.mem_cons_self t htype)
      (hreg ebr' (List.mem_cons_of_mem _ List.mem_cons_self) t' htype') htype htype' hplain ht ht'
      (by decide) (Nat.le_refl 8) h8 (Nat.le_refl _) h16 (fun l hl => ?_) hmoves⟩
    exact ((leaves_split hplain h8).1 l hl).imp_right fun h => ⟨h, hstop l hl⟩

end Direct

/-! ## Results -/

/-- What the oracle decides about a result of a Go type. -/
inductive ReturnedAs (bt : Btype) : CABIParamInfo → Prop
  | ignored (h0 : bt.type.shape.allocSize = 0) : ReturnedAs bt ⟨[void], ignore, .none, -1⟩
  | inMemory (hagg : bt.type.isAggregateType) (h16 : 16 < bt.type.shape.allocSize) :
    ReturnedAs bt ⟨[ptr bt.type], indirect, .structReturn, 0⟩
  | scalar (attr : CABIParamAttr) (hagg : ¬bt.type.isAggregateType)
    (h1 : 1 ≤ bt.type.shape.allocSize) (h8 : bt.type.shape.allocSize ≤ 8) : ReturnedAs bt ⟨[bt.type], direct, attr, -1⟩
  | aggregate (t : LType) (attr : CABIParamAttr) (hagg : bt.type.isAggregateType)
    (h1 : 1 ≤ bt.type.shape.allocSize) (h16 : bt.type.shape.allocSize ≤ 16)
    (htravels : TravelsAs bt t) (hstruct : t.isAggregateType → t.isStructTy)
    (hwide : (∃ id fields, bt = .struct id fields) →
      (t.isAggregateType ↔ 8 < bt.type.shape.allocSize)) :
    ReturnedAs bt ⟨[t], direct, attr, -1⟩

/-- A Go type is a struct or an array, a complex number, or a scalar. -/
theorem go_result_cases {bt : Btype} (hgo : isGoType bt) :
    ((∃ id fields, bt = .struct id fields) ∨ ∃ t n, bt = .array t n) ∧ bt.type.isAggregateType ∨
      (∃ elem, bt = complexType elem) ∨ bt.type.isPlainScalar := by
  by_cases haux : auxParamAllowed bt
  · by_cases hstruct : ∃ id fields, bt = .struct id fields
    · obtain ⟨id, fields, rfl⟩ := hstruct
      exact .inl ⟨.inl ⟨id, fields, rfl⟩, rfl⟩
    by_cases harray : ∃ t n, bt = .array t n
    · obtain ⟨t, n, rfl⟩ := harray
      exact .inl ⟨.inr ⟨t, n, rfl⟩, rfl⟩
    exact .inr (.inr (isPlainScalar_of_go hgo haux (fun id fields h => hstruct ⟨id, fields, h⟩)
      (fun t n h => harray ⟨t, n, h⟩)))
  · refine .inr ?_
    match bt with
    | .aux t =>
      match t with
      | .struct none [float, float] => exact .inl ⟨float, rfl⟩
      | .struct none [double, double] => exact .inl ⟨double, rfl⟩
      | ptr (structRef _) => exact .inr rfl

/-- A complex number is one region, which travels as it is. -/
theorem eightByteInfo_complex {elem : LType} {ebrs : List EightByteRegion}
    (h : eightByteInfo (complexType elem) = some ebrs) :
    (complexType elem).type.shape.allocSize ≤ 8 ∧ ∃ attr, ebrs =
      [{ types := [(complexType elem).type], offsets := [0],
         abiDirectType := some (complexType elem).type, attr }] := by
  have hcut := eightByteInfo_some h
  obtain ⟨rs, hrs, -⟩ := Option.bind_eq_some_iff.mp h
  obtain ⟨sz, hsz, hrs⟩ := Option.bind_eq_some_iff.mp hrs
  split_ifs at hrs with h8
  rw [LType.allocSize] at hsz
  split_ifs at hsz
  obtain rfl := Option.some.inj hsz
  cases hcut with
  | composite hbt =>
    rcases hbt with ⟨id, fields, hbt⟩ | ⟨t, n, hbt⟩
    · cases hbt
    · cases hbt
  | scalar _ _ attr _ hebrs => exact ⟨h8, attr, hebrs⟩

theorem returnedAs_direct {bt : Btype} (hgo : isGoType bt) (h1 : 1 ≤ bt.type.shape.allocSize)
    (h16 : bt.type.shape.allocSize ≤ 16) {ebrs : List EightByteRegion}
    (hebrs : eightByteInfo bt = some ebrs) {info : CABIParamInfo}
    (hinfo : directReturn ebrs = some info) : ReturnedAs bt info := by
  have hplain := isGoType_isPlain bt hgo
  obtain ⟨hdisp, hoff, -⟩ := directReturn_some hinfo
  rcases go_result_cases hgo with ⟨hbt, hagg⟩ | ⟨elem, rfl⟩ | hscalar
  · obtain ⟨t, ht⟩ : ∃ t, TravelsIn bt info t := by
      rcases hbt with ⟨id, fields, rfl⟩ | ⟨T, n, rfl⟩
      · exact travelsIn_struct hplain h1 h16 hebrs hinfo
      · exact travelsIn_array hplain h1 h16 hebrs hinfo
    obtain ⟨abiTypes, disp, attr, sigOffset⟩ := info
    obtain rfl : disp = direct := hdisp
    obtain rfl : sigOffset = -1 := hoff
    obtain rfl : abiTypes = [t] := ht.abiTypes
    exact .aggregate t attr hagg h1 h16 ht.travels ht.isStructTy fun _ => ht.isAggregateType
  · obtain ⟨h8, attr, rfl⟩ := eightByteInfo_complex hebrs
    cases hinfo
    exact .aggregate _ attr rfl h1 h16 (.itself h8) (fun _ => rfl) nofun
  · have hagg := not_isAggregateType_of_isPlainScalar _ hscalar
    cases eightByteInfo_some hebrs with
    | composite hbt =>
      rcases hbt with ⟨id, fields, rfl⟩ | ⟨t, n, rfl⟩
      · exact absurd rfl hagg
      · exact absurd rfl hagg
    | scalar _ _ attr _ hebrs =>
      subst hebrs
      cases hinfo
      exact .scalar attr hagg h1 (allocSize_of_isPlainScalar hscalar).2

/-- The oracle's decision about a result. -/
theorem returnedAs_of_analyze {bt : Btype} (hgo : isGoResult bt) {s s' : ABIState}
    {info : CABIParamInfo} (h : analyzeABIReturn bt s = some (info, s')) : ReturnedAs bt info := by
  rcases hgo with hgo | rfl
  · unfold analyzeABIReturn at h
    rw [classifyResultType_of_go hgo, Option.bind_eq_bind, Option.bind_some] at h
    split_ifs at h with h0 h16
    · obtain ⟨rfl, -⟩ := Prod.mk.inj (Option.some.inj h)
      exact .ignored h0
    · obtain ⟨ebrs, hebrs, h⟩ := Option.bind_eq_some_iff.mp h
      obtain ⟨info', hinfo, h⟩ := Option.bind_eq_some_iff.mp h
      obtain ⟨rfl, -⟩ := Prod.mk.inj (Option.some.inj h)
      exact returnedAs_direct hgo (Nat.pos_of_ne_zero h0) h16 hebrs hinfo
    · obtain ⟨rfl, -⟩ := Prod.mk.inj (Option.some.inj h)
      refine .inMemory ?_ (Nat.lt_of_not_le h16)
      rcases go_result_cases hgo with ⟨-, hagg⟩ | ⟨elem, rfl⟩ | hscalar
      · exact hagg
      · rfl
      · exact absurd ((allocSize_of_isPlainScalar hscalar).2.trans (by decide)) h16
  · cases h
    exact .ignored (by decide)

end Dragongo
