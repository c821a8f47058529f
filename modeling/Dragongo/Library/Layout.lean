import Mathlib.Algebra.Order.Ring.Nat
import Mathlib.Data.List.Basic
import Mathlib.Data.Nat.Prime.Basic
import Mathlib.Tactic.Common

/-!
# Layout of records in memory

A record is laid out by placing its members one after the other, each at the next
multiple of its alignment.  What a reader of the record relies on is that the
leaves stay in order, never overlap, and are separated by alignment gaps only;
`Chain` states this for one word size, and is closed under concatenation.
-/

namespace Layout

def alignTo (n a : ℕ) : ℕ := (n + a - 1) / a * a

theorem dvd_alignTo (n a : ℕ) : a ∣ alignTo n a := Nat.dvd_mul_left _ _

theorem le_alignTo {a : ℕ} (ha : 0 < a) (n : ℕ) : n ≤ alignTo n a := by
  have h := Nat.div_add_mod (n + a - 1) a
  have hlt := Nat.mod_lt (n + a - 1) ha
  rw [Nat.mul_comm] at h
  unfold alignTo
  omega

theorem alignTo_le {n m a : ℕ} (ha : 0 < a) (hnm : n ≤ m) (hm : a ∣ m) : alignTo n a ≤ m := by
  obtain ⟨k, rfl⟩ := hm
  unfold alignTo
  rw [Nat.mul_comm a k]
  apply Nat.mul_le_mul_right
  rw [← Nat.lt_succ_iff, Nat.div_lt_iff_lt_mul ha, Nat.succ_mul, Nat.mul_comm k a]
  omega

theorem alignTo_of_dvd {n a : ℕ} (ha : 0 < a) (hn : a ∣ n) : alignTo n a = n :=
  Nat.le_antisymm (alignTo_le ha (Nat.le_refl n) hn) (le_alignTo ha n)

@[simp] theorem alignTo_zero {a : ℕ} (ha : 0 < a) : alignTo 0 a = 0 :=
  alignTo_of_dvd ha (Nat.dvd_zero a)

theorem alignTo_le_alignTo {n a b : ℕ} (ha : 0 < a) (hb : 0 < b) (hab : a ∣ b) :
    alignTo n a ≤ alignTo n b :=
  alignTo_le ha (le_alignTo hb n) (hab.trans (dvd_alignTo n b))

/-- Placing a record at an aligned base does not change its gaps. -/
theorem alignTo_add {base n a : ℕ} (ha : 0 < a) (hbase : a ∣ base) :
    alignTo (base + n) a = base + alignTo n a := by
  obtain ⟨k, rfl⟩ := hbase
  unfold alignTo
  rw [show a * k + n + a - 1 = n + a - 1 + a * k by omega, Nat.add_mul_div_left _ _ ha,
    Nat.add_mul, Nat.add_comm, Nat.mul_comm k a]

/-! ## Shapes -/

/-- The size and alignment of a type. -/
structure Shape where
  bits : ℕ
  align : ℕ
  align_pos : 0 < align
deriving DecidableEq, Repr

namespace Shape

def storeSize (s : Shape) : ℕ := (s.bits + 7) / 8

/-- The distance between successive objects in an array. -/
def allocSize (s : Shape) : ℕ := alignTo s.storeSize s.align

theorem align_dvd_allocSize (s : Shape) : s.align ∣ s.allocSize := dvd_alignTo _ _

end Shape

/-- The offsets of members placed in order from `pos` on. -/
def offsets : ℕ → List Shape → List ℕ
  | _, [] => []
  | pos, s :: ss => alignTo pos s.align :: offsets (alignTo pos s.align + s.allocSize) ss

def endPos : ℕ → List Shape → ℕ
  | pos, [] => pos
  | pos, s :: ss => endPos (alignTo pos s.align + s.allocSize) ss

def maxAlign : List Shape → ℕ
  | [] => 1
  | s :: ss => max s.align (maxAlign ss)

theorem maxAlign_pos (ss : List Shape) : 0 < maxAlign ss := by
  cases ss with
  | nil => exact Nat.one_pos
  | cons s ss => exact lt_max_of_lt_left s.align_pos

theorem le_endPos (pos : ℕ) (ss : List Shape) : pos ≤ endPos pos ss := by
  induction ss generalizing pos with
  | nil => exact Nat.le_refl pos
  | cons s ss ih =>
    calc pos ≤ alignTo pos s.align := le_alignTo s.align_pos pos
      _ ≤ alignTo pos s.align + s.allocSize := Nat.le_add_right _ _
      _ ≤ _ := ih _

theorem length_offsets (pos : ℕ) (ss : List Shape) : (offsets pos ss).length = ss.length := by
  induction ss generalizing pos with
  | nil => rfl
  | cons s ss ih => exact congrArg Nat.succ (ih _)

theorem le_offsets {pos i o : ℕ} {ss : List Shape} (ho : (offsets pos ss)[i]? = some o) :
    pos ≤ o := by
  induction ss generalizing pos i with
  | nil => cases ho
  | cons s ss ih =>
    have hpos : pos ≤ alignTo pos s.align := le_alignTo s.align_pos pos
    cases i with
    | zero =>
      cases ho
      exact hpos
    | succ i => exact hpos.trans ((Nat.le_add_right _ _).trans (ih ho))

/-- A member ends before the members after it, and before the end. -/
theorem offsets_spaced {pos i o : ℕ} {s : Shape} {ss : List Shape}
    (ho : (offsets pos ss)[i]? = some o) (hs : ss[i]? = some s) :
    (∀ j o', i < j → (offsets pos ss)[j]? = some o' → o + s.allocSize ≤ o') ∧
      o + s.allocSize ≤ endPos pos ss := by
  induction ss generalizing pos i with
  | nil => cases ho
  | cons t ss ih =>
    cases i with
    | zero =>
      cases ho
      cases hs
      refine ⟨fun j o' hj ho' => ?_, le_endPos _ _⟩
      cases j with
      | zero => cases hj
      | succ j => exact le_offsets ho'
    | succ i =>
      obtain ⟨hlater, hend⟩ := ih ho hs
      refine ⟨fun j o' hj ho' => ?_, hend⟩
      cases j with
      | zero => cases hj
      | succ j => exact hlater j o' (Nat.lt_of_succ_lt_succ hj) ho'

theorem maxAlign_dvd {w : ℕ} {ss : List Shape} (h : ∀ s ∈ ss, s.align ∣ w) :
    maxAlign ss ∣ w := by
  induction ss with
  | nil => exact Nat.one_dvd w
  | cons s ss ih =>
    have hs : s.align ∣ w := h s List.mem_cons_self
    have hss : maxAlign ss ∣ w := ih fun s' hs' => h s' (List.mem_cons_of_mem _ hs')
    rcases max_choice s.align (maxAlign ss) with hm | hm
    · simpa only [maxAlign, hm] using hs
    · simpa only [maxAlign, hm] using hss

/-- Among powers of two, the largest alignment is a multiple of the others. -/
theorem dvd_maxAlign {k : ℕ} {ss : List Shape} (h : ∀ s ∈ ss, s.align ∣ 2 ^ k) {s : Shape}
    (hs : s ∈ ss) : s.align ∣ maxAlign ss := by
  induction ss with
  | nil => cases hs
  | cons t ss ih =>
    have hss : ∀ s ∈ ss, s.align ∣ 2 ^ k := fun s' hs' => h s' (List.mem_cons_of_mem _ hs')
    obtain ⟨i, -, hi⟩ := (Nat.dvd_prime_pow Nat.prime_two).mp (h t List.mem_cons_self)
    obtain ⟨j, -, hj⟩ := (Nat.dvd_prime_pow Nat.prime_two).mp (maxAlign_dvd hss)
    unfold maxAlign
    rcases Nat.le_total i j with hij | hij
    · rw [Nat.max_eq_right (by rw [hi, hj]; exact Nat.pow_le_pow_right (by decide) hij)]
      rcases List.mem_cons.mp hs with rfl | hs
      · rw [hi, hj]
        exact Nat.pow_dvd_pow 2 hij
      · exact ih hss hs
    · rw [Nat.max_eq_left (by rw [hi, hj]; exact Nat.pow_le_pow_right (by decide) hij)]
      rcases List.mem_cons.mp hs with rfl | hs
      · exact Nat.dvd_refl _
      · apply (ih hss hs).trans
        rw [hi, hj]
        exact Nat.pow_dvd_pow 2 hij

/-- A record is as aligned as its most aligned member, and padded to that alignment. -/
def Shape.record (ss : List Shape) : Shape where
  bits := 8 * alignTo (endPos 0 ss) (maxAlign ss)
  align := maxAlign ss
  align_pos := maxAlign_pos ss

def Shape.array (s : Shape) (n : ℕ) : Shape where
  bits := 8 * (n * s.allocSize)
  align := s.align
  align_pos := s.align_pos

theorem Shape.storeSize_of_bytes {s : Shape} {n : ℕ} (h : s.bits = 8 * n) : s.storeSize = n := by
  unfold storeSize
  omega

@[simp] theorem Shape.allocSize_record (ss : List Shape) :
    (record ss).allocSize = alignTo (endPos 0 ss) (maxAlign ss) := by
  unfold allocSize
  rw [storeSize_of_bytes (n := alignTo (endPos 0 ss) (maxAlign ss)) rfl]
  exact alignTo_of_dvd (maxAlign_pos ss) (dvd_alignTo _ _)

@[simp] theorem Shape.allocSize_array (s : Shape) (n : ℕ) :
    (s.array n).allocSize = n * s.allocSize := by
  unfold allocSize
  rw [storeSize_of_bytes (n := n * s.allocSize) rfl]
  exact alignTo_of_dvd s.align_pos ((align_dvd_allocSize s).mul_left n)

/-! ## Chains of leaves -/

/-- The bytes `[start, start + size)`. -/
structure Span where
  start : ℕ
  size : ℕ
deriving DecidableEq, Repr

def Span.stop (s : Span) : ℕ := s.start + s.size

/-- The bytes of `s` are bytes of `t`. -/
def Span.Inside (s t : Span) : Prop := t.start ≤ s.start ∧ s.stop ≤ t.stop

instance (s t : Span) : Decidable (s.Inside t) := by unfold Span.Inside; infer_instance

/-- A leaf that no aligned word boundary cuts. -/
def Span.Natural (w : ℕ) (s : Span) : Prop := 0 < s.size ∧ s.size ∣ s.start ∧ s.size ∣ w

/-- The leaves lead from `lo` to `hi` in order, with gaps that end at the latest at
the next multiple of `w`. -/
def Chain (w : ℕ) : ℕ → List Span → ℕ → Prop
  | lo, [], hi => lo ≤ hi ∧ hi ≤ alignTo lo w
  | lo, s :: ss, hi =>
    lo ≤ s.start ∧ s.start ≤ alignTo lo w ∧ s.Natural w ∧ Chain w s.stop ss hi

namespace Chain

variable {w : ℕ} {lo mid hi : ℕ} {xs ys : List Span}

theorem nil (hw : 0 < w) (lo : ℕ) : Chain w lo [] lo := ⟨Nat.le_refl lo, le_alignTo hw lo⟩

/-- Alignment padding may be inserted between two leaves. -/
theorem padding {a : ℕ} (ha : 0 < a) (hw : 0 < w) (haw : a ∣ w) (lo : ℕ) :
    Chain w lo [] (alignTo lo a) :=
  ⟨le_alignTo ha lo, alignTo_le_alignTo ha hw haw⟩

theorem append (hw : 0 < w) (hx : Chain w lo xs mid) (hy : Chain w mid ys hi) :
    Chain w lo (xs ++ ys) hi := by
  induction xs generalizing lo with
  | nil =>
    obtain ⟨h1, h2⟩ := hx
    have h3 : alignTo mid w ≤ alignTo lo w := alignTo_le hw h2 (dvd_alignTo lo w)
    cases ys with
    | nil => exact ⟨h1.trans hy.1, hy.2.trans h3⟩
    | cons y ys => exact ⟨h1.trans hy.1, hy.2.1.trans h3, hy.2.2⟩
  | cons x xs ih => exact ⟨hx.1, hx.2.1, hx.2.2.1, ih hx.2.2.2⟩

theorem le (h : Chain w lo xs hi) : lo ≤ hi := by
  induction xs generalizing lo with
  | nil => exact h.1
  | cons x xs ih =>
    have h1 : lo ≤ x.start := h.1
    have h2 : x.stop ≤ hi := ih h.2.2.2
    unfold Span.stop at h2
    omega

/-- Every leaf is natural and lies between the ends. -/
theorem mem (h : Chain w lo xs hi) {s : Span} (hs : s ∈ xs) :
    s.Natural w ∧ lo ≤ s.start ∧ s.stop ≤ hi := by
  induction xs generalizing lo with
  | nil => cases hs
  | cons x xs ih =>
    have hle : x.stop ≤ hi := h.2.2.2.le
    have hstart : lo ≤ x.start := h.1
    rcases List.mem_cons.mp hs with rfl | hs
    · exact ⟨h.2.2.1, hstart, hle⟩
    · obtain ⟨hn, h1, h2⟩ := ih h.2.2.2 hs
      refine ⟨hn, ?_, h2⟩
      unfold Span.stop at h1
      omega

theorem sorted (h : Chain w lo xs hi) : xs.Pairwise fun s t => s.stop ≤ t.start := by
  induction xs generalizing lo with
  | nil => exact List.Pairwise.nil
  | cons x xs ih =>
    apply List.Pairwise.cons
    · intro t ht
      exact (mem h.2.2.2 ht).2.1
    · exact ih h.2.2.2

/-- A nonempty stretch from an aligned position holds a leaf, and the first one is there. -/
theorem exists_first (hw : 0 < w) (h : Chain w lo xs hi) (hlo : w ∣ lo) (hlt : lo < hi) :
    ∃ s ss, xs = s :: ss ∧ s.start = lo := by
  cases xs with
  | nil =>
    have := h.2
    rw [alignTo_of_dvd hw hlo] at this
    omega
  | cons s ss =>
    have h1 : lo ≤ s.start := h.1
    have h2 : s.start ≤ alignTo lo w := h.2.1
    rw [alignTo_of_dvd hw hlo] at h2
    exact ⟨s, ss, rfl, by omega⟩

theorem stop_le_of_start_lt {s : Span} {b : ℕ} (hs : s.Natural w) (hb : w ∣ b)
    (h : s.start < b) : s.stop ≤ b := by
  obtain ⟨-, ⟨i, hi⟩, hw⟩ := hs
  obtain ⟨j, hj⟩ := hw.trans hb
  have hij : i < j := by
    apply Nat.lt_of_mul_lt_mul_left (a := s.size)
    omega
  have hmul : s.size * (i + 1) ≤ s.size * j := Nat.mul_le_mul_left _ hij
  rw [Nat.mul_succ] at hmul
  unfold Span.stop
  omega

/-- A chain that reaches past a word boundary has no leaf across it, and has one that
starts there. -/
theorem split {b : ℕ} (hw : 0 < w) (hb : w ∣ b) (h : Chain w lo xs hi) (hlo : lo ≤ b)
    (hhi : b < hi) :
    ∃ ys zs, xs = ys ++ zs ∧ Chain w lo ys b ∧ Chain w b zs hi ∧ ∀ s ∈ ys, s.start < b := by
  have hgap : alignTo lo w ≤ b := alignTo_le hw hlo hb
  induction xs generalizing lo with
  | nil =>
    have := h.2
    omega
  | cons x xs ih =>
    obtain ⟨h1, h2, hx, hrest⟩ := h
    by_cases hxb : x.start < b
    · have hstop := stop_le_of_start_lt hx hb hxb
      obtain ⟨ys, zs, rfl, hys, hzs, hlt⟩ := ih hrest hstop (alignTo_le hw hstop hb)
      refine ⟨x :: ys, zs, rfl, ⟨h1, h2, hx, hys⟩, hzs, ?_⟩
      intro s hs
      rcases List.mem_cons.mp hs with rfl | hs
      · exact hxb
      · exact hlt s hs
    · have hxb' : b ≤ x.start := Nat.le_of_not_lt hxb
      exact ⟨[], x :: xs, rfl, ⟨hlo, hxb'.trans h2⟩,
        ⟨hxb', (h2.trans hgap).trans (le_alignTo hw b), hx, hrest⟩, by simp⟩

end Chain

/-! ## Copying through a set of spans -/

/-- Copy the bytes that lie in one of the chunks; the others keep what `dst` holds. -/
def transfer {β : Type*} (chunks : List Span) (src dst : ℕ → β) (i : ℕ) : β :=
  if ∃ c ∈ chunks, c.start ≤ i ∧ i < c.stop then src i else dst i

theorem transfer_of_inside {β : Type*} {chunks : List Span} {src dst : ℕ → β} {s c : Span}
    (hc : c ∈ chunks) (hs : s.Inside c) {i : ℕ} (h1 : s.start ≤ i) (h2 : i < s.stop) :
    transfer chunks src dst i = src i := by
  apply if_pos
  obtain ⟨hstart, hstop⟩ := hs
  exact ⟨c, hc, hstart.trans h1, by omega⟩

/-- Chunks are copied one after the other. -/
theorem transfer_cons {β : Type*} (c : Span) (cs : List Span) (src dst : ℕ → β) :
    transfer (c :: cs) src dst = transfer cs src (transfer [c] src dst) := by
  funext i
  by_cases hcs : ∃ c ∈ cs, c.start ≤ i ∧ i < c.stop
  · obtain ⟨d, hd, hi⟩ := hcs
    rw [transfer, transfer, if_pos ⟨d, List.mem_cons_of_mem c hd, hi⟩, if_pos ⟨d, hd, hi⟩]
  · have hrest : transfer cs src (transfer [c] src dst) i = transfer [c] src dst i := if_neg hcs
    rw [hrest, transfer, transfer]
    congr 1
    simp only [List.mem_cons, exists_eq_or_imp, exists_eq_left, List.not_mem_nil, or_false, hcs]

end Layout
