import Dragongo.Linemap
import Mathlib.Data.List.Perm.Subperm

/-!
# Decoding undoes encoding over every history

The invariant `Valid` ties every issued handle to the bytes behind it and to the
segment that covers it, or to the segment still being built.
-/

namespace Dragongo.Linemap
open ULEB128

theorem noHandle_toNat : NoHandle.toNat = 2 ^ 32 - 1 := rfl

/-- The segment that decides the file of `handle`. -/
def coveringSegment (segments : List Segment) (handle : UInt32) : Option Segment :=
  segments.find? fun s => !decide (s.hi < handle)

def SortedSegments (segments : List Segment) : Prop := segments.Pairwise fun a b => a.hi < b.hi

theorem segmentFidx_eq {lm : LlvmLinemap} (h : SortedSegments lm.segments) (handle : UInt32) :
    segmentFidx lm handle =
      ((coveringSegment lm.segments handle).map Segment.fidx).getD lm.currentFidx := by
  have hp : LowerBound.Partitioned (fun seg : Segment => seg.cmp ⟨handle, handle, 0⟩)
      lm.segments := by
    refine h.imp ?_
    intro a b hab hb
    simp only [Segment.cmp, decide_eq_true_eq] at hb ⊢
    exact UInt32.lt_trans hab hb
  simp only [segmentFidx, LowerBound.getElem?_lowerBound hp]
  simp only [coveringSegment, Segment.cmp]
  cases lm.segments.find? fun s => !decide (s.hi < handle) <;> rfl

theorem coveringSegment_eq_none {segments : List Segment} {handle : UInt32} :
    coveringSegment segments handle = none ↔ ∀ s ∈ segments, s.hi < handle := by
  simp [coveringSegment]

/-- Segments added later do not matter to a handle that is already covered. -/
theorem coveringSegment_append_of_some {segments : List Segment} {handle : UInt32} {s : Segment}
    (h : coveringSegment segments handle = some s) (more : List Segment) :
    coveringSegment (segments ++ more) handle = some s := by
  unfold coveringSegment at h ⊢
  rw [List.find?_append, h, Option.some_or]

/-- A new segment covers the handles that lie past all the older ones. -/
theorem coveringSegment_append_of_none {segments : List Segment} {handle : UInt32} {s : Segment}
    (h : coveringSegment segments handle = none) (hs : ¬s.hi < handle) :
    coveringSegment (segments ++ [s]) handle = some s := by
  unfold coveringSegment at h ⊢
  rw [List.find?_append, h, Option.none_or]
  simp [hs]

variable (c : Codec)

theorem decodeLocation_fidx {c : Codec} {lm : LlvmLinemap} {handle : UInt32} {flc : FLC}
    (h : decodeLocation c lm handle = some flc) : flc.fidx = segmentFidx lm handle := by
  simp only [decodeLocation] at h
  split_ifs at h
  rw [← Option.some.inj h]

/-- The bytes behind the handle of an issued location. -/
def EncodedAt (lm : LlvmLinemap) (i : UInt32 × Position) : Prop :=
  ∃ fidx rest, lm.encodedLocations.drop i.1.toNat =
    encodePair c ⟨fidx, i.2.line, i.2.column⟩ ++ rest

/-- The file the segment table gives for an issued location, or the current file
while its segment is still being built. -/
def FileKnown (lm : LlvmLinemap) (i : UInt32 × Position) : Prop :=
  match coveringSegment lm.segments i.1 with
  | some s => lm.files[s.fidx.toNat]? = some i.2.file
  | none => lm.firstHandle ≠ NoHandle ∧ i.1 ≤ lm.lastHandle ∧
      lm.files[lm.currentFidx.toNat]? = some i.2.file

/-- The file table and the segment table hold what the handles were built from. -/
structure Valid (h : History) : Prop where
  unknown : h.lm.unknownHandle = 0
  builtin_pos : 0 < h.lm.builtinHandle.toNat
  builtin_lt : h.lm.builtinHandle.toNat < h.lm.encodedLocations.length
  files_length : h.lm.files.length = h.lm.fmap.length + 2
  fmap : ∀ e ∈ h.lm.fmap, h.lm.files[e.2.toNat]? = some e.1
  file : h.lm.inFile → h.lm.files[h.lm.currentFidx.toNat]? = some h.file
  line : h.lm.currentLine = h.line
  sorted : SortedSegments h.lm.segments
  closed : ∀ s ∈ h.lm.segments, s.hi.toNat < h.lm.encodedLocations.length
  opened : h.lm.firstHandle ≠ NoHandle →
    (∀ s ∈ h.lm.segments, s.hi < h.lm.lastHandle) ∧
      h.lm.lastHandle.toNat < h.lm.encodedLocations.length
  nodup : (h.issued.map Prod.fst).Nodup
  fresh : ∀ i ∈ h.issued, h.lm.builtinHandle < i.1 ∧ i.1.toNat < h.lm.encodedLocations.length
  encoded : ∀ i ∈ h.issued, EncodedAt c h.lm i
  known : ∀ i ∈ h.issued, FileKnown h.lm i

variable {c}

theorem Valid.decodes {h : History} (hv : Valid c h)
    (hlen : h.lm.encodedLocations.length < 2 ^ 32 - 1) {i : UInt32 × Position}
    (hi : i ∈ h.issued) : Decodes c h.lm i.1 i.2 := by
  obtain ⟨fidx, rest, hb⟩ := hv.encoded i hi
  have hdrop : i.1.toNat + ((encodePair c ⟨fidx, i.2.line, i.2.column⟩).length + rest.length) =
      h.lm.encodedLocations.length := by
    have hd := congrArg List.length hb
    rw [List.length_drop, List.length_append] at hd
    have := (hv.fresh i hi).2
    omega
  refine ⟨⟨segmentFidx h.lm i.1, i.2.line, i.2.column⟩, ?_, ?_, rfl, rfl⟩
  · simp only [encodePair, List.length_append] at hdrop
    unfold decodeLocation
    rw [if_pos (hv.fresh i hi).2]
    simp only [hb, encodePair, List.append_assoc, c.decode_encode, List.drop_left]
    rw [if_pos (by omega)]
    simp
  · rw [segmentFidx_eq hv.sorted]
    have hk := hv.known i hi
    unfold FileKnown at hk
    cases hc : coveringSegment h.lm.segments i.1 with
    | some s => simpa [hc] using hk
    | none => simpa [hc] using (by simpa [hc] using hk : _ ∧ _ ∧ _).2.2

/-! ## The calls keep the invariant -/

theorem encodePair_length_pos (flc : FLC) : 2 ≤ (encodePair c flc).length := by
  have h1 := c.encode_length_pos flc.line.toUInt64
  have h2 := c.encode_length_pos flc.column.toUInt64
  simp only [encodePair, List.length_append]
  omega

/-- Appending bytes keeps what is encoded behind an issued handle. -/
theorem EncodedAt.append {lm lm' : LlvmLinemap} {i : UInt32 × Position} {bytes : List UInt8}
    (h : EncodedAt c lm i) (hlt : i.1.toNat < lm.encodedLocations.length)
    (hb : lm'.encodedLocations = lm.encodedLocations ++ bytes) : EncodedAt c lm' i := by
  obtain ⟨fidx, rest, hd⟩ := h
  refine ⟨fidx, rest ++ bytes, ?_⟩
  rw [hb, List.drop_append_of_le_length (Nat.le_of_lt hlt), hd, List.append_assoc]

/-- Closing the segment being built moves every handle it holds into the table. -/
theorem FileKnown.closeSegment {h : History} (hv : Valid c h) {i : UInt32 × Position}
    (hi : i ∈ h.issued) : ∃ s, coveringSegment (closeSegment h.lm).segments i.1 = some s ∧
      h.lm.files[s.fidx.toNat]? = some i.2.file := by
  have hk := hv.known i hi
  unfold FileKnown at hk
  cases hc : coveringSegment h.lm.segments i.1 with
  | some s =>
    rw [hc] at hk
    refine ⟨s, ?_, hk⟩
    unfold Linemap.closeSegment
    split_ifs
    · exact coveringSegment_append_of_some hc _
    · exact hc
  | none =>
    rw [hc] at hk
    obtain ⟨hf, hle, hfile⟩ := hk
    refine ⟨⟨h.lm.firstHandle, h.lm.lastHandle, h.lm.currentFidx⟩, ?_, hfile⟩
    simp only [Linemap.closeSegment, if_pos hf]
    exact coveringSegment_append_of_none hc (UInt32.not_lt.mpr hle)

theorem closeSegment_sorted {h : History} (hv : Valid c h) :
    SortedSegments (closeSegment h.lm).segments := by
  unfold closeSegment
  split_ifs with hf
  · refine List.pairwise_append.mpr ⟨hv.sorted, List.pairwise_singleton _ _, ?_⟩
    intro a ha b hb
    rw [List.mem_singleton.mp hb]
    exact (hv.opened hf).1 a ha
  · exact hv.sorted

theorem closeSegment_closed {h : History} (hv : Valid c h) :
    ∀ s ∈ (closeSegment h.lm).segments, s.hi.toNat < h.lm.encodedLocations.length := by
  unfold closeSegment
  split_ifs with hf
  · intro s hs
    rcases List.mem_append.mp hs with hs | hs
    · exact hv.closed s hs
    · rw [List.mem_singleton.mp hs]
      exact (hv.opened hf).2
  · exact hv.closed

theorem getElem?_of_prefix {α : Type*} {xs ys : List α} (h : xs <+: ys) {i : ℕ} {a : α}
    (ha : xs[i]? = some a) : ys[i]? = some a := by
  obtain ⟨more, rfl⟩ := h
  have hi := (List.getElem?_eq_some_iff.mp ha).1
  rw [List.getElem?_append_left hi, ha]

theorem internFile_eq (lm : LlvmLinemap) (name : String) :
    ∃ files fmap, (internFile lm name).2 = { lm with files, fmap } := by
  unfold internFile
  split
  · exact ⟨lm.files, lm.fmap, rfl⟩
  · exact ⟨_, _, rfl⟩

/-- `internFile` only adds to the file table, and the index it returns is the name's. -/
theorem internFile_spec {lm : LlvmLinemap} (name : String)
    (hlen : lm.files.length = lm.fmap.length + 2)
    (hmap : ∀ e ∈ lm.fmap, lm.files[e.2.toNat]? = some e.1)
    (hcap : (internFile lm name).2.files.length ≤ 2 ^ 32) :
    let r := internFile lm name
    lm.files <+: r.2.files ∧ r.2.files.length = r.2.fmap.length + 2 ∧
      (∀ e ∈ r.2.fmap, r.2.files[e.2.toNat]? = some e.1) ∧
      r.2.files[r.1.toNat]? = some name := by
  unfold internFile at hcap ⊢
  cases hl : lm.fmap.lookup name with
  | some fidx =>
    refine ⟨List.prefix_rfl, hlen, hmap, ?_⟩
    obtain ⟨before, after, he, -⟩ := List.lookup_eq_some_iff.mp hl
    exact hmap (name, fidx) (by simp [he])
  | none =>
    simp only [hl, List.length_append, List.length_singleton] at hcap ⊢
    have hidx : (UInt32.ofNat lm.files.length).toNat = lm.files.length := by
      simp only [UInt32.toNat_ofNat']
      omega
    refine ⟨List.prefix_append _ _, by omega, ?_, by rw [hidx]; simp⟩
    intro e he
    rcases List.mem_append.mp he with he | he
    · exact getElem?_of_prefix (List.prefix_append _ _) (hmap e he)
    · rw [List.mem_singleton.mp he, hidx]
      simp

theorem Valid.startFile {h : History} (hv : Valid c h) (name : String) (line : UInt32)
    (hcap : (Linemap.startFile h.lm name line).files.length ≤ 2 ^ 32) :
    Valid c { h with lm := Linemap.startFile h.lm name line, file := name, line } := by
  obtain ⟨hpre, hlen, hmap, hidx⟩ :=
    @internFile_spec (Linemap.closeSegment h.lm) name hv.files_length hv.fmap hcap
  obtain ⟨files, fmap, he⟩ := internFile_eq (Linemap.closeSegment h.lm) name
  have hlm : Linemap.startFile h.lm name line = { Linemap.closeSegment h.lm with
      files, fmap, currentFidx := (internFile (Linemap.closeSegment h.lm) name).1,
      currentLine := line, inFile := true } := by
    simp only [Linemap.startFile, he]
  rw [he] at hpre hlen hmap hidx
  rw [hlm]
  refine ⟨hv.unknown, hv.builtin_pos, hv.builtin_lt, hlen, hmap, fun _ => hidx, rfl,
    closeSegment_sorted hv, closeSegment_closed hv, ?_, hv.nodup, hv.fresh, hv.encoded, ?_⟩
  · exact fun hf => absurd rfl hf
  · intro i hi
    obtain ⟨s, hs, hfile⟩ := FileKnown.closeSegment hv hi
    unfold FileKnown
    simp only [hs]
    exact getElem?_of_prefix hpre hfile

theorem Valid.startLine {h : History} (hv : Valid c h) (line size : UInt32) :
    Valid c { h with lm := Linemap.startLine h.lm line size, line } :=
  { hv with line := rfl }

theorem Valid.stop {h : History} (hv : Valid c h) :
    Valid c { h with lm := Linemap.stop h.lm } :=
  { hv with file := fun hf => absurd hf (by simp [Linemap.stop]) }

theorem getLocation_spec {lm lm' : LlvmLinemap} {column handle : UInt32}
    (hg : Linemap.getLocation c lm column = some (handle, lm')) :
    lm.inFile ∧ handle = UInt32.ofNat lm.encodedLocations.length ∧
      lm' = { lm with
        encodedLocations := lm.encodedLocations ++
          encodePair c ⟨lm.currentFidx, lm.currentLine, column⟩
        lookups := lm.lookups + 1
        firstHandle := if lm.firstHandle = NoHandle then handle else lm.firstHandle
        lastHandle := handle } := by
  unfold Linemap.getLocation at hg
  by_cases hin : lm.inFile
  · rw [if_pos hin] at hg
    obtain ⟨rfl, rfl⟩ := Prod.mk.inj (Option.some.inj hg)
    exact ⟨hin, rfl, rfl⟩
  · rw [if_neg hin] at hg
    contradiction

theorem Valid.getLocation {h : History} (hv : Valid c h) {column handle : UInt32}
    {lm : LlvmLinemap} (hg : Linemap.getLocation c h.lm column = some (handle, lm))
    (hlen : lm.encodedLocations.length < 2 ^ 32 - 1) :
    Valid c { h with lm, issued := (handle, ⟨h.file, h.line, column⟩) :: h.issued } := by
  obtain ⟨hin, hhandle, rfl⟩ := getLocation_spec hg
  have htwo := encodePair_length_pos (c := c) ⟨h.lm.currentFidx, h.lm.currentLine, column⟩
  rw [List.length_append] at hlen
  have hval : handle.toNat = h.lm.encodedLocations.length := by
    rw [hhandle, UInt32.toNat_ofNat']
    omega
  have hne : handle ≠ NoHandle := by
    intro he
    rw [he, noHandle_toNat] at hval
    omega
  have hpast : ∀ s ∈ h.lm.segments, s.hi < handle := by
    intro s hs
    rw [UInt32.lt_iff_toNat_lt, hval]
    exact hv.closed s hs
  have hfirst : (if h.lm.firstHandle = NoHandle then handle else h.lm.firstHandle) ≠ NoHandle := by
    split_ifs with hf
    · exact hne
    · exact hf
  refine
    { unknown := hv.unknown, builtin_pos := hv.builtin_pos, files_length := hv.files_length
      fmap := hv.fmap, file := hv.file, line := hv.line, sorted := hv.sorted
      builtin_lt := ?_, closed := ?_, opened := ?_, nodup := ?_, fresh := ?_, encoded := ?_
      known := ?_ }
  · have := hv.builtin_lt
    simp only [List.length_append]
    omega
  · intro s hs
    have := hv.closed s hs
    simp only [List.length_append]
    omega
  · intro _
    refine ⟨hpast, ?_⟩
    simp only [List.length_append]
    omega
  · refine List.nodup_cons.mpr ⟨?_, hv.nodup⟩
    intro hmem
    obtain ⟨i, hi, he⟩ := List.mem_map.mp hmem
    have := (hv.fresh i hi).2
    rw [he, hval] at this
    omega
  · intro i hi
    simp only [List.length_append]
    rcases List.mem_cons.mp hi with rfl | hi
    · refine ⟨?_, by dsimp only; omega⟩
      rw [UInt32.lt_iff_toNat_lt, hval]
      exact hv.builtin_lt
    · exact ⟨(hv.fresh i hi).1, by have := (hv.fresh i hi).2; omega⟩
  · intro i hi
    rcases List.mem_cons.mp hi with rfl | hi
    · refine ⟨h.lm.currentFidx, [], ?_⟩
      rw [hval, List.drop_left, List.append_nil, hv.line]
    · exact (hv.encoded i hi).append (hv.fresh i hi).2 rfl
  · intro i hi
    unfold FileKnown
    rcases List.mem_cons.mp hi with rfl | hi
    · simp only [coveringSegment_eq_none.mpr hpast]
      exact ⟨hfirst, UInt32.le_refl _, hv.file hin⟩
    · have hk := hv.known i hi
      unfold FileKnown at hk
      cases hc : coveringSegment h.lm.segments i.1 with
      | some s => simpa only [hc] using hk
      | none =>
        simp only [hc] at hk ⊢
        refine ⟨hfirst, ?_, hk.2.2⟩
        rw [UInt32.le_iff_toNat_le, hval]
        exact Nat.le_of_lt (hv.fresh i hi).2

/-! ## Whole histories -/

theorem Valid.new (c : Codec) (hlen : (History.new c).lm.encodedLocations.length < 2 ^ 32 - 1) :
    Valid c (.new c) := by
  have h0 := encodePair_length_pos (c := c) ⟨0, 0, 0⟩
  have h1 := encodePair_length_pos (c := c) ⟨1, 1, 1⟩
  simp only [History.new, LlvmLinemap.new, addEncodedLocation, List.nil_append,
    List.length_append] at hlen
  have hu : (UInt32.ofNat ([] : List UInt8).length) = 0 := rfl
  have hb : (UInt32.ofNat (encodePair c ⟨0, 0, 0⟩).length).toNat =
      (encodePair c ⟨0, 0, 0⟩).length := by
    rw [UInt32.toNat_ofNat']
    omega
  refine
    { unknown := rfl, builtin_pos := ?_, builtin_lt := ?_, files_length := rfl
      fmap := by simp [History.new, LlvmLinemap.new, addEncodedLocation]
      file := fun hf => absurd hf (by simp [History.new, LlvmLinemap.new, addEncodedLocation])
      line := rfl, sorted := ?_, closed := ?_
      opened := fun hf => absurd rfl hf
      nodup := List.nodup_nil, fresh := by simp [History.new], encoded := by simp [History.new]
      known := by simp [History.new] }
  · simp only [History.new, LlvmLinemap.new, addEncodedLocation, List.nil_append, hb]
    omega
  · simp only [History.new, LlvmLinemap.new, addEncodedLocation, List.nil_append, hb,
      List.length_append]
    omega
  · refine List.pairwise_cons.mpr ⟨?_, List.pairwise_singleton _ _⟩
    intro s hs
    rw [List.mem_singleton.mp hs, UInt32.lt_iff_toNat_lt]
    simp only [addEncodedLocation, List.nil_append, hb, hu]
    exact Nat.lt_of_lt_of_le (by decide) h0
  · intro s hs
    simp only [History.new, LlvmLinemap.new, addEncodedLocation, List.nil_append, hu,
      List.mem_cons, List.not_mem_nil, or_false] at hs
    simp only [History.new, LlvmLinemap.new, addEncodedLocation, List.nil_append,
      List.length_append]
    rcases hs with rfl | rfl
    · simp only [UInt32.toNat_zero]
      omega
    · rw [hb]
      omega

theorem Valid.step {h h' : History} (hv : Valid c h) {call : Call}
    (hs : h.step c call = some h') (hcap : h'.lm.files.length ≤ 2 ^ 32)
    (hlen : h'.lm.encodedLocations.length < 2 ^ 32 - 1) : Valid c h' := by
  cases call with
  | startFile name line =>
    obtain rfl := Option.some.inj hs
    exact hv.startFile name line hcap
  | startLine line size =>
    obtain rfl := Option.some.inj hs
    exact hv.startLine line size
  | stop =>
    obtain rfl := Option.some.inj hs
    exact hv.stop
  | getLocation column =>
    obtain ⟨⟨handle, lm⟩, hg, he⟩ := Option.bind_eq_some_iff.mp hs
    obtain rfl := Option.some.inj he
    exact hv.getLocation hg hlen

/-- A call only adds: file names, bytes and issued handles. -/
theorem step_grows {h h' : History} {call : Call} (hs : h.step c call = some h') :
    h.lm.files.length ≤ h'.lm.files.length ∧
      h.lm.encodedLocations.length ≤ h'.lm.encodedLocations.length ∧
      h.issued <:+ h'.issued := by
  cases call with
  | startFile name line =>
    obtain rfl := Option.some.inj hs
    refine ⟨?_, ?_, List.suffix_rfl⟩
    · simp only [Linemap.startFile, internFile]
      split <;> simp [Linemap.closeSegment]
    · obtain ⟨files, fmap, he⟩ := internFile_eq (Linemap.closeSegment h.lm) name
      simp only [Linemap.startFile, he]
      exact Nat.le_refl _
  | startLine line size =>
    obtain rfl := Option.some.inj hs
    exact ⟨Nat.le_refl _, Nat.le_refl _, List.suffix_rfl⟩
  | stop =>
    obtain rfl := Option.some.inj hs
    exact ⟨Nat.le_refl _, Nat.le_refl _, List.suffix_rfl⟩
  | getLocation column =>
    obtain ⟨⟨handle, lm⟩, hg, he⟩ := Option.bind_eq_some_iff.mp hs
    obtain rfl := Option.some.inj he
    obtain ⟨-, -, rfl⟩ := getLocation_spec hg
    exact ⟨Nat.le_refl _, by simp, List.suffix_cons _ _⟩

theorem runFrom_cons {h h' : History} {call : Call} {calls : List Call} :
    runFrom c h (call :: calls) = some h' ↔
      ∃ h1, h.step c call = some h1 ∧ runFrom c h1 calls = some h' := by
  simp [runFrom, List.foldlM_cons, Option.bind_eq_some_iff]

theorem runFrom_append {h h' : History} {pre post : List Call} :
    runFrom c h (pre ++ post) = some h' ↔
      ∃ h1, runFrom c h pre = some h1 ∧ runFrom c h1 post = some h' := by
  simp [runFrom, List.foldlM_append, Option.bind_eq_some_iff]

theorem runFrom_grows {h h' : History} {calls : List Call} (hr : runFrom c h calls = some h') :
    h.lm.files.length ≤ h'.lm.files.length ∧
      h.lm.encodedLocations.length ≤ h'.lm.encodedLocations.length ∧
      h.issued <:+ h'.issued := by
  induction calls generalizing h with
  | nil =>
    obtain rfl := Option.some.inj hr
    exact ⟨Nat.le_refl _, Nat.le_refl _, List.suffix_rfl⟩
  | cons call calls ih =>
    obtain ⟨h1, hs, hr⟩ := runFrom_cons.mp hr
    have hstep := step_grows hs
    have hrest := ih hr
    exact ⟨Nat.le_trans hstep.1 hrest.1, Nat.le_trans hstep.2.1 hrest.2.1,
      hstep.2.2.trans hrest.2.2⟩

theorem Valid.runFrom {h h' : History} {calls : List Call} (hv : Valid c h)
    (hr : Linemap.runFrom c h calls = some h') (hcap : h'.lm.files.length ≤ 2 ^ 32)
    (hlen : h'.lm.encodedLocations.length < 2 ^ 32 - 1) : Valid c h' := by
  induction calls generalizing h with
  | nil =>
    obtain rfl := Option.some.inj hr
    exact hv
  | cons call calls ih =>
    obtain ⟨h1, hs, hr⟩ := runFrom_cons.mp hr
    have hg := runFrom_grows hr
    exact ih (hv.step hs (by omega) (by omega)) hr

/-! ## Counting files -/

/-- The file table holds the two builtin entries and one entry for each started name. -/
structure Named (names : List String) (lm : LlvmLinemap) : Prop where
  length : lm.files.length = lm.fmap.length + 2
  nodup : (lm.fmap.map Prod.fst).Nodup
  subset : lm.fmap.map Prod.fst ⊆ names

theorem Named.startFile {names : List String} {lm : LlvmLinemap} (hn : Named names lm)
    (name : String) (line : UInt32) (hname : name ∈ names) :
    Named names (Linemap.startFile lm name line) := by
  unfold Linemap.startFile internFile
  cases hl : (Linemap.closeSegment lm).fmap.lookup name with
  | some fidx => exact ⟨hn.length, hn.nodup, hn.subset⟩
  | none =>
    have hnew : name ∉ lm.fmap.map Prod.fst := by
      intro hmem
      obtain ⟨e, he, rfl⟩ := List.mem_map.mp hmem
      have := List.lookup_eq_none_iff.mp hl e he
      simp at this
    refine ⟨?_, ?_, ?_⟩
    · simp only [Linemap.closeSegment, List.length_append, List.length_singleton, hn.length]
    · simp only [Linemap.closeSegment, List.map_append, List.map_cons, List.map_nil]
      exact List.nodup_append.mpr ⟨hn.nodup, List.nodup_singleton _, by
        rintro a ha b hb rfl
        exact hnew (List.mem_singleton.mp hb ▸ ha)⟩
    · simp only [Linemap.closeSegment, List.map_append, List.map_cons, List.map_nil]
      exact List.append_subset.mpr ⟨hn.subset, by simpa using hname⟩

theorem Named.runFrom {names : List String} {h h' : History} {calls : List Call}
    (hn : Named names h.lm) (hsub : calls.filterMap Call.fileName? ⊆ names)
    (hr : Linemap.runFrom c h calls = some h') : Named names h'.lm := by
  induction calls generalizing h with
  | nil =>
    obtain rfl := Option.some.inj hr
    exact hn
  | cons call calls ih =>
    obtain ⟨h1, hs, hr⟩ := runFrom_cons.mp hr
    have hrest : calls.filterMap Call.fileName? ⊆ names := by
      intro n hmem
      obtain ⟨d, hd, he⟩ := List.mem_filterMap.mp hmem
      exact hsub (List.mem_filterMap.mpr ⟨d, List.mem_cons_of_mem _ hd, he⟩)
    refine ih ?_ hrest hr
    cases call with
    | startFile name line =>
      obtain rfl := Option.some.inj hs
      exact hn.startFile name line (hsub (by simp [Call.fileName?]))
    | startLine line size =>
      obtain rfl := Option.some.inj hs
      exact ⟨hn.length, hn.nodup, hn.subset⟩
    | stop =>
      obtain rfl := Option.some.inj hs
      exact ⟨hn.length, hn.nodup, hn.subset⟩
    | getLocation column =>
      obtain ⟨⟨handle, lm⟩, hg, he⟩ := Option.bind_eq_some_iff.mp hs
      obtain rfl := Option.some.inj he
      obtain ⟨-, -, rfl⟩ := getLocation_spec hg
      exact ⟨hn.length, hn.nodup, hn.subset⟩

theorem files_length_le {calls : List Call} {h : History} (hr : run c calls = some h) :
    h.lm.files.length ≤ (startedFiles calls).length + 2 := by
  have hn : Named (startedFiles calls) h.lm := by
    refine Named.runFrom (h := .new c) ⟨rfl, List.nodup_nil, List.nil_subset _⟩ ?_ hr
    intro n hn
    exact List.mem_dedup.mpr hn
  have hle := (List.Nodup.subperm hn.nodup hn.subset).length_le
  rw [List.length_map] at hle
  rw [hn.length]
  omega

/-- Every handle stays distinct and decodable through any history in which no more
files are started than a file ID can number. -/
theorem handles_faithful (c : Codec) (pre post : List Call)
    (hfiles : (startedFiles (pre ++ post)).length ≤ 2 ^ 32 - 2) :
    HandlesFaithful c pre post := by
  intro h h' hpre hall hlen
  have hcap := files_length_le hall
  obtain ⟨h1, hpre', hpost⟩ := runFrom_append.mp hall
  obtain rfl : h = h1 := Option.some.inj (hpre.symm.trans hpre')
  have hg := runFrom_grows hpost
  have hnew := runFrom_grows hpre
  have hv' : Valid c h' :=
    (Valid.new c (by omega)).runFrom hall (by omega) hlen
  have hv : Valid c h := (Valid.new c (by omega)).runFrom hpre (by omega) (by omega)
  have hmem : ∀ i ∈ h.issued, i ∈ h'.issued := fun i hi => hg.2.2.subset hi
  refine ⟨hv.nodup, ?_, fun i hi => hv'.decodes hlen (hmem i hi)⟩
  intro i hi
  have hf := (hv'.fresh i (hmem i hi)).1
  rw [UInt32.lt_iff_toNat_lt] at hf
  have hb := hv'.builtin_pos
  constructor
  · rw [hv'.unknown]
    rintro he
    rw [he] at hf
    simp at hf
  · rintro he
    rw [he] at hf
    exact Nat.lt_irrefl _ hf

theorem handles_faithful_reentered :
    HandlesFaithful uleb128 [.startFile "foo.go" 10, .getLocation 1, .startLine 12 256, .getLocation 5]
      [.startFile "bar.go" 1, .getLocation 9, .startFile "foo.go" 3, .getLocation 1, .stop] :=
  handles_faithful uleb128 _ _ (by decide)

/-! ## File IDs wrap

`files_.size()` is converted to `unsigned`, so file number `2 ^ 32` shares ID 0
with the unknown file. -/

def fileNo (k : ℕ) : String := String.ofList (List.replicate (k + 1) 'a')

theorem fileNo_injective : Function.Injective fileNo := by
  intro j k h
  have hl := congrArg List.length (String.ofList_injective h)
  simpa using hl

/-- `n` files, all of different names. -/
def manyFiles (n : ℕ) : List Call := (List.range n).map fun k => .startFile (fileNo k) 1

/-- The line map after `n + 1` different files and no location. -/
def afterFiles (c : Codec) (n : ℕ) : LlvmLinemap :=
  { LlvmLinemap.new c with
    files := ["", "<built-in>"] ++ (List.range (n + 1)).map fileNo
    fmap := (List.range (n + 1)).map fun k => (fileNo k, UInt32.ofNat (k + 2))
    currentFidx := UInt32.ofNat (n + 2)
    currentLine := 1
    inFile := true }

theorem startFile_afterFiles (c : Codec) (n : ℕ) :
    startFile (afterFiles c n) (fileNo (n + 1)) 1 = afterFiles c (n + 1) := by
  have hclose : closeSegment (afterFiles c n) = afterFiles c n := rfl
  have hl : (afterFiles c n).fmap.lookup (fileNo (n + 1)) = none := by
    refine List.lookup_eq_none_iff.mpr ?_
    intro e he
    obtain ⟨k, hk, rfl⟩ := List.mem_map.mp he
    have hkn : n + 1 ≠ k := by have := List.mem_range.mp hk; omega
    simpa using fun h => hkn (fileNo_injective h)
  have hlen : (afterFiles c n).files.length = n + 3 := by simp [afterFiles]
  simp only [startFile, internFile, hclose, hl, hlen]
  simp only [afterFiles, List.range_succ (n := n + 1), List.map_append, List.map_singleton,
    List.append_assoc]

theorem run_manyFiles (c : Codec) (n : ℕ) :
    run c (manyFiles (n + 1)) = some ⟨afterFiles c n, fileNo n, 1, []⟩ := by
  induction n with
  | zero => rfl
  | succ n ih =>
    unfold run manyFiles
    rw [List.range_succ, List.map_append]
    refine runFrom_append.mpr ⟨_, ih, ?_⟩
    change some _ = _
    rw [startFile_afterFiles]

theorem not_faithful_of_wrap {n : ℕ} (hn : UInt32.ofNat (n + 2) = 0) :
    ¬HandlesFaithful uleb128 (manyFiles (n + 1) ++ [.getLocation 1]) [] := by
  intro hf
  obtain ⟨handle, lm, hg⟩ : ∃ handle lm,
      getLocation uleb128 (afterFiles uleb128 n) 1 = some (handle, lm) := ⟨_, _, rfl⟩
  have hstep : History.step uleb128 ⟨afterFiles uleb128 n, fileNo n, 1, []⟩ (.getLocation 1) =
      some ⟨lm, fileNo n, 1, [(handle, ⟨fileNo n, 1, 1⟩)]⟩ := by
    simp only [History.step, hg, Option.bind_eq_bind, Option.bind_some]
  have hrun : run uleb128 (manyFiles (n + 1) ++ [.getLocation 1]) =
      some ⟨lm, fileNo n, 1, [(handle, ⟨fileNo n, 1, 1⟩)]⟩ :=
    runFrom_append.mpr ⟨_, run_manyFiles uleb128 n, runFrom_cons.mpr ⟨_, hstep, rfl⟩⟩
  obtain ⟨-, hhandle, hlm⟩ := getLocation_spec hg
  have hpair : ∀ fidx, encodePair uleb128 ⟨fidx, 1, 1⟩ = [1, 1] := by
    intro fidx
    change groups 1 ++ groups 1 = _
    rw [groups_of_lt (by decide)]
    rfl
  have hbytes : (afterFiles uleb128 n).encodedLocations = [0, 0, 1, 1] := by
    change ([] ++ (groups 0 ++ groups 0)) ++ (groups 1 ++ groups 1) = _
    rw [groups_of_lt (by decide), groups_of_lt (by decide)]
    rfl
  have hbuiltin : (LlvmLinemap.new uleb128).segments = [⟨0, 0, 0⟩, ⟨2, 2, 1⟩] := by
    change [(⟨UInt32.ofNat 0, UInt32.ofNat 0, 0⟩ : Segment),
      ⟨UInt32.ofNat ([] ++ (groups 0 ++ groups 0)).length,
        UInt32.ofNat ([] ++ (groups 0 ++ groups 0)).length, 1⟩] = _
    rw [groups_of_lt (by decide)]
    rfl
  have hsegs : lm.segments = [⟨0, 0, 0⟩, ⟨2, 2, 1⟩] := by rw [hlm]; exact hbuiltin
  have hcur : lm.currentFidx = 0 := by rw [hlm]; exact hn
  rw [hbytes] at hhandle
  obtain ⟨-, -, hdec⟩ := hf _ _ hrun (by simpa using hrun) (by
    rw [hlm]
    simp only [afterFiles, hpair, List.length_append]
    change ((afterFiles uleb128 n).encodedLocations).length + 2 < _
    rw [hbytes]
    decide)
  obtain ⟨flc, hflc, hfile, -, -⟩ := hdec _ (List.mem_singleton.mpr rfl)
  -- no segment reaches the handle, so the file is the current one, whose ID is 0
  have hfidx : flc.fidx = 0 := by
    rw [decodeLocation_fidx hflc]
    simp only [segmentFidx, hsegs, hhandle, hcur]
    rfl
  rw [hfidx, hlm] at hfile
  have hname : "" = fileNo n := by simpa [afterFiles] using hfile
  have := congrArg String.length hname
  simp [fileNo] at this

/-- With as many files as an `unsigned` has values, a location of the last file is
decoded as a location of the unknown file. -/
theorem handles_not_faithful :
    ¬HandlesFaithful uleb128 (manyFiles (2 ^ 32 - 2 + 1) ++ [.getLocation 1]) [] :=
  not_faithful_of_wrap rfl

end Dragongo.Linemap
