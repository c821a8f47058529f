import Dragongo.Conditional
import Dragongo.Library.Memory

/-!
# Running loads, stores and copies

Memory holds bytes, and a value is the bytes that it occupies.  A load keeps what it has read,
and a later store does not change that; a copy reads when it runs.  Numbers play no part here:
what other instructions gave is known.
-/

namespace Dragongo
open LType

abbrev Bytes := List (BitVec 8)

namespace Bytes

def toAddress (bs : Bytes) : BitVec 64 := BitVec.ofNat 64 (LittleEndian.ofBytes bs)

def ofAddress (a : BitVec 64) : Bytes := LittleEndian.bytes 8 a.toNat

@[simp] theorem toAddress_ofAddress (a : BitVec 64) : toAddress (ofAddress a) = a := by
  have hlt : a.toNat < 256 ^ 8 := a.isLt
  rw [toAddress, ofAddress, LittleEndian.ofBytes_bytes, Nat.mod_eq_of_lt hlt, BitVec.ofNat_toNat,
    BitVec.setWidth_eq]

/-- An index is a signed number of any width. -/
def toIndex (bs : Bytes) : ℤ := Int.bmod (LittleEndian.ofBytes bs) (2 ^ (8 * bs.length))

end Bytes

namespace LType

/-- The offset of a field or an element. -/
def partOffset : LType → ℕ → ℕ
  | array elem _, i => i * elem.shape.allocSize
  | struct _ fields, i => (Layout.offsets 0 (shapes fields)).getD i 0
  | _, _ => 0

/-- The number of bytes of a field or an element. -/
def partSize (t : LType) (i : ℕ) : ℕ := (t.typeAtIndex i).shape.allocSize

theorem shapes_eq_map (ts : List LType) : shapes ts = ts.map shape := by
  induction ts with
  | nil => rfl
  | cons t ts ih => rw [shapes, ih, List.map_cons]

/-- The parts of an aggregate lie one after the other in it. -/
theorem partOffset_spaced {t : LType} {i : ℕ} (hi : i < t.numElements) :
    (∀ j, i < j → j < t.numElements → t.partOffset i + t.partSize i ≤ t.partOffset j) ∧
      t.partOffset i + t.partSize i ≤ t.shape.allocSize := by
  cases t with
  | array elem n =>
    have hstep (j : ℕ) (h : i < j) : i * elem.shape.allocSize + elem.shape.allocSize ≤
        j * elem.shape.allocSize := by
      rw [← Nat.succ_mul]
      exact Nat.mul_le_mul_right _ h
    refine ⟨fun j hij _ => hstep j hij, ?_⟩
    rw [shape, Layout.Shape.allocSize_array]
    exact hstep n hi
  | struct id fields =>
    have hlen : i < (Layout.offsets 0 (shapes fields)).length := by
      rw [Layout.length_offsets, shapes_eq_map, List.length_map]
      exact hi
    have hshape : (shapes fields)[i]? = some ((struct id fields).typeAtIndex i).shape := by
      rw [shapes_eq_map, List.getElem?_map, typeAtIndex, List.getD_eq_getElem?_getD,
        List.getElem?_eq_getElem hi]
      rfl
    have hoffset (j : ℕ) (hj : j < fields.length) : (Layout.offsets 0 (shapes fields))[j]? =
        some ((struct id fields).partOffset j) := by
      have hj' : j < (Layout.offsets 0 (shapes fields)).length := by
        rwa [Layout.length_offsets, shapes_eq_map, List.length_map]
      rw [partOffset, List.getD_eq_getElem?_getD, List.getElem?_eq_getElem hj']
      rfl
    obtain ⟨hlater, hend⟩ := Layout.offsets_spaced (hoffset i hi) hshape
    refine ⟨fun j hij hj => hlater j _ hij (hoffset j hj), hend.trans ?_⟩
    rw [shape, Layout.Shape.allocSize_record]
    exact Layout.le_alignTo (Layout.maxAlign_pos _) _
  | _ => cases hi

end LType

/-! ## Values -/

/-- The contents of memory, the bytes of the values that are known, and what each load that has
run through an address has read. -/
structure Machine where
  memory : BitVec 64 → BitVec 8
  known : Value → Bytes
  loaded : Value → Option Bytes

/-- Parts written into memory, each at its offset from `a`, from index `i` on. -/
def fill (m : BitVec 64 → BitVec 8) (a : BitVec 64) (t : LType) :
    ℕ → List Bytes → BitVec 64 → BitVec 8
  | _, [] => m
  | i, bs :: rest =>
    fill (Memory.write m (a + BitVec.ofNat 64 (t.partOffset i)) bs) a t (i + 1) rest

namespace Machine

mutual
/-- The bytes of a value.  A load that has not run reads the memory as it is now. -/
def bytes (M : Machine) : Value → Bytes
  | .null t => List.replicate t.shape.allocSize 0
  | .constantInt bits n =>
    LittleEndian.bytes (LType.int bits).shape.allocSize (BitVec.ofInt bits n).toNat
  | .constantComposite t elems =>
    Memory.read (fill (fun _ => 0) 0 t 0 (allBytes M elems)) 0 t.shape.allocSize
  | .load a => (M.loaded a).getD
    (Memory.read M.memory (bytes M a).toAddress a.type.pointeeType.shape.allocSize)
  | .bitcast v _ => bytes M v
  | .field base t i =>
    Bytes.ofAddress ((bytes M base).toAddress + BitVec.ofNat 64 (t.partOffset i))
  | .element base t index =>
    Bytes.ofAddress ((bytes M base).toAddress +
      BitVec.ofInt 64 ((bytes M index).toIndex * t.partSize 0))
  | v => M.known v
def allBytes (M : Machine) : List Value → List Bytes
  | [] => []
  | v :: vs => bytes M v :: allBytes M vs
end

/-- The address that a value is. -/
def address (M : Machine) (v : Value) : BitVec 64 := (M.bytes v).toAddress

mutual
/-- The addresses that the loads of a value read. -/
def reads (M : Machine) : Value → Set (BitVec 64)
  | .constantComposite _ elems => allReads M elems
  | .load a => reads M a ∪ Memory.region (M.address a) a.type.pointeeType.shape.allocSize
  | .bitcast v _ => reads M v
  | .field base _ _ => reads M base
  | .element base _ index => reads M base ∪ reads M index
  | _ => ∅
def allReads (M : Machine) : List Value → Set (BitVec 64)
  | [] => ∅
  | v :: vs => reads M v ∪ allReads M vs
end

/-- The bytes of an object in memory. -/
def contents (M : Machine) (t : LType) (a : BitVec 64) : Bytes :=
  Memory.read M.memory a t.shape.allocSize

/-- What an expression means: what is at its address while it is a reference, or its value. -/
def means (M : Machine) : Bexpression → Bytes
  | .expr bt v vc => if vc.pending ∧ vc.addrLevel = 0 then M.contents bt.type (M.address v)
    else M.bytes v
  | .compositeInit node bt _ => M.contents bt.type (M.address (.temporary node bt.type))

end Machine

/-! ## Instructions -/

/-- The instructions that read or write memory. -/
inductive Inst
  | load (address : Value)
  | store (s : Stored)

/-- Copies of `n` bytes from `b` to `a` are allowed if they do not overlap, or do nothing. -/
def CanCopy (a b : BitVec 64) (n : ℕ) : Prop := a = b ∨ n ≤ (a - b).toNat ∧ n ≤ (b - a).toNat

instance (a b : BitVec 64) (n : ℕ) : Decidable (CanCopy a b n) := by
  unfold CanCopy
  infer_instance

instance (algn : ℕ) (a b : BitVec 64) : Decidable (AreAligned algn a b) := by
  unfold AreAligned
  infer_instance

theorem canCopy_of_disjoint {a b : BitVec 64} {n : ℕ}
    (h : Disjoint (Memory.region a n) (Memory.region b n)) : CanCopy a b n := by
  have hself (c : BitVec 64) (hn : 0 < n) : c ∈ Memory.region c n := by
    rwa [Memory.mem_region, BitVec.sub_self]
  rcases Nat.eq_zero_or_pos n with rfl | hn
  · exact .inr ⟨Nat.zero_le _, Nat.zero_le _⟩
  · have ha : a ∉ Memory.region b n := Set.disjoint_left.mp h (hself a hn)
    have hb : b ∉ Memory.region a n := fun hb => Set.disjoint_left.mp h hb (hself b hn)
    exact .inr ⟨Nat.not_lt.mp ha, Nat.not_lt.mp hb⟩

namespace Machine

def write (M : Machine) (a : BitVec 64) (bs : Bytes) : Machine :=
  { M with memory := Memory.write M.memory a bs }

open Classical in
/-- One instruction; a copy between places that overlap in part, or that are not aligned as it
promises, is undefined. -/
noncomputable def exec (M : Machine) : Inst → Option Machine
  | .load a => some { M with
    loaded := Function.update M.loaded a (some (M.contents a.type.pointeeType (M.address a))) }
  | .store .undef => some M
  | .store (.value dst v) => some (M.write (M.address dst) (M.bytes v))
  | .store (.copy dst src n algn) =>
    if CanCopy (M.address dst) (M.address src) n ∧
        AreAligned algn (M.address dst) (M.address src) then
      some (M.write (M.address dst) (Memory.read M.memory (M.address src) n))
    else none

noncomputable def run (M : Machine) : List Inst → Option Machine
  | [] => some M
  | i :: is => (M.exec i).bind fun M' => M'.run is

/-! ## Later states -/

/-- Nothing has been written outside of `W`, and loads that have run have kept what they read. -/
structure Frame (M M' : Machine) (W : Set (BitVec 64)) : Prop where
  memory : ∀ b ∉ W, M'.memory b = M.memory b
  known : M'.known = M.known
  kept : ∀ a bs, M.loaded a = some bs → M'.loaded a = some bs

/-- A state after one where no load has run: loads have read what was in memory there. -/
structure Later (M₀ M : Machine) (W : Set (BitVec 64)) : Prop extends Frame M₀ M W where
  fresh : ∀ a, M₀.loaded a = none
  loaded : ∀ a bs, M.loaded a = some bs → bs = M₀.bytes (.load a)

section Later

variable {M₀ M M' M'' : Machine} {W W' : Set (BitVec 64)} {v a : Value}

theorem Frame.refl (M : Machine) (W : Set (BitVec 64)) : M.Frame M W :=
  ⟨fun _ _ => rfl, rfl, fun _ _ h => h⟩

theorem Frame.mono (h : M.Frame M' W) (hW : W ⊆ W') : M.Frame M' W' :=
  { h with memory := fun b hb => h.memory b fun hmem => hb (hW hmem) }

theorem Frame.trans (h : M.Frame M' W) (h' : M'.Frame M'' W) : M.Frame M'' W where
  memory b hb := (h'.memory b hb).trans (h.memory b hb)
  known := h'.known.trans h.known
  kept a bs ha := h'.kept a bs (h.kept a bs ha)

theorem Later.refl (hfresh : ∀ a, M₀.loaded a = none) (W : Set (BitVec 64)) : M₀.Later M₀ W where
  toFrame := .refl M₀ W
  fresh := hfresh
  loaded a _ h := nomatch (hfresh a).symm.trans h

theorem Later.mono (h : M₀.Later M W) (hW : W ⊆ W') : M₀.Later M W' :=
  { h with toFrame := h.toFrame.mono hW }

theorem bytes_load_of_fresh (h : M₀.loaded a = none) :
    M₀.bytes (.load a) = M₀.contents a.type.pointeeType (M₀.address a) := by
  rw [bytes, h]
  rfl

mutual
/-- A value whose loads read nothing that has been written is what it was. -/
theorem Later.bytes_eq (h : M₀.Later M W) : ∀ v : Value, Disjoint (M₀.reads v) W →
    M.bytes v = M₀.bytes v
  | .null _, _ | .constantInt .., _ => rfl
  | .constantComposite t elems, hd => by
    rw [bytes, bytes, h.allBytes_eq elems (by simpa [reads] using hd)]
  | .load a, hd => by
    rw [reads, Set.disjoint_union_left] at hd
    have ha : M.bytes a = M₀.bytes a := h.bytes_eq a hd.1
    cases hl : M.loaded a with
    | some bs => rw [bytes, hl, Option.getD_some, h.loaded a bs hl]
    | none =>
      rw [bytes_load_of_fresh hl, bytes_load_of_fresh (h.fresh a), address, address, ha]
      exact Memory.read_congr fun b hb => h.memory b (Set.disjoint_left.mp hd.2 hb)
  | .bitcast v t, hd => by
    rw [bytes, bytes, h.bytes_eq v (by simpa [reads] using hd)]
  | .field base t i, hd => by
    rw [bytes, bytes, h.bytes_eq base (by simpa [reads] using hd)]
  | .element base t index, hd => by
    rw [reads, Set.disjoint_union_left] at hd
    rw [bytes, bytes, h.bytes_eq base hd.1, h.bytes_eq index hd.2]
  | .alloca .., _ | .argument .., _ | .globalVariable .., _ | .constantVariable _, _
  | .temporary .., _ | .undef _, _ | .constant .., _ | .instruction .., _ | .zext .., _
  | .cast .., _ | .cmp .., _ | .xor .., _ => by simp only [bytes, h.known]
theorem Later.allBytes_eq (h : M₀.Later M W) : ∀ vs : List Value, Disjoint (M₀.allReads vs) W →
    M.allBytes vs = M₀.allBytes vs
  | [], _ => rfl
  | v :: vs, hd => by
    rw [allReads, Set.disjoint_union_left] at hd
    rw [allBytes, allBytes, h.bytes_eq v hd.1, h.allBytes_eq vs hd.2]
end

mutual
/-- The loads that a value is made of have run. -/
def Ready (M : Machine) : Value → Prop
  | .constantComposite _ elems => AllReady M elems
  | .load a => (M.loaded a).isSome
  | .bitcast v _ => Ready M v
  | .field base _ _ => Ready M base
  | .element base _ index => Ready M base ∧ Ready M index
  | _ => True
def AllReady (M : Machine) : List Value → Prop
  | [] => True
  | v :: vs => Ready M v ∧ AllReady M vs
end

mutual
/-- Such a value stays what it is, whatever is written. -/
theorem Frame.bytes_eq (h : M.Frame M' W) : ∀ v : Value, M.Ready v →
    M'.bytes v = M.bytes v ∧ M'.Ready v
  | .null _, _ | .constantInt .., _ => ⟨rfl, trivial⟩
  | .constantComposite t elems, hr => by
    obtain ⟨heq, hr'⟩ := h.allBytes_eq elems hr
    exact ⟨by rw [bytes, bytes, heq], hr'⟩
  | .load a, hr => by
    obtain ⟨bs, hbs⟩ := Option.isSome_iff_exists.mp hr
    have hbs' := h.kept a bs hbs
    exact ⟨by simp only [bytes, hbs, hbs', Option.getD_some], Option.isSome_of_eq_some hbs'⟩
  | .bitcast v t, hr => by
    rw [bytes, bytes]
    exact h.bytes_eq v hr
  | .field base t i, hr => by
    obtain ⟨heq, hr'⟩ := h.bytes_eq base hr
    exact ⟨by rw [bytes, bytes, heq], hr'⟩
  | .element base t index, hr => by
    obtain ⟨heq, hr'⟩ := h.bytes_eq base hr.1
    obtain ⟨heqi, hri'⟩ := h.bytes_eq index hr.2
    exact ⟨by rw [bytes, bytes, heq, heqi], hr', hri'⟩
  | .alloca .., _ | .argument .., _ | .globalVariable .., _ | .constantVariable _, _
  | .temporary .., _ | .undef _, _ | .constant .., _ | .instruction .., _ | .zext .., _
  | .cast .., _ | .cmp .., _ | .xor .., _ => ⟨by simp only [bytes, h.known], trivial⟩
theorem Frame.allBytes_eq (h : M.Frame M' W) : ∀ vs : List Value, M.AllReady vs →
    M'.allBytes vs = M.allBytes vs ∧ M'.AllReady vs
  | [], _ => ⟨rfl, trivial⟩
  | v :: vs, hr => by
    obtain ⟨heq, hr'⟩ := h.bytes_eq v hr.1
    obtain ⟨heqs, hrs'⟩ := h.allBytes_eq vs hr.2
    exact ⟨by rw [allBytes, allBytes, heq, heqs], hr', hrs'⟩
end

/-! ## Steps -/

open Classical in
/-- A load reads what was in memory at the start. -/
theorem Later.exec_load (h : M₀.Later M W) (hd : Disjoint (M₀.reads (.load a)) W) :
    ∃ M', M.exec (.load a) = some M' ∧ M₀.Later M' W ∧ M.Frame M' ∅ ∧ M'.Ready (.load a) := by
  have hreads := hd
  rw [reads, Set.disjoint_union_left] at hd
  have hnow : M.contents a.type.pointeeType (M.address a) = M₀.bytes (.load a) := by
    rw [bytes_load_of_fresh (h.fresh a), address, address, h.bytes_eq a hd.1]
    exact Memory.read_congr fun b hb => h.memory b (Set.disjoint_left.mp hd.2 hb)
  have hkept : ∀ b bs, M.loaded b = some bs →
      Function.update M.loaded a (some (M₀.bytes (.load a))) b = some bs := by
    intro b bs hb
    by_cases hba : b = a
    · subst hba
      rw [Function.update_self, h.loaded b bs hb]
    · rw [Function.update_of_ne hba, hb]
  refine ⟨_, rfl, ⟨⟨h.memory, h.known, fun b _ hb => ?_⟩, h.fresh, fun b bs hb => ?_⟩,
    ⟨fun _ _ => rfl, rfl, fun b bs hb => ?_⟩, ?_⟩
  · cases (h.fresh b).symm.trans hb
  · simp only [hnow] at hb
    by_cases hba : b = a
    · subst hba
      rw [Function.update_self] at hb
      exact (Option.some.inj hb).symm
    · rw [Function.update_of_ne hba] at hb
      exact h.loaded b bs hb
  · simp only [hnow]
    exact hkept b bs hb
  · simp [Ready]

/-- Bytes written into a region. -/
theorem frame_write (M : Machine) (x : BitVec 64) (bs : Bytes) :
    M.Frame (M.write x bs) (Memory.region x bs.length) :=
  ⟨fun _ hb => Memory.write_of_notMem hb, rfl, fun _ _ h => h⟩

theorem Later.frame (h : M₀.Later M W) (h' : M.Frame M' W') (hloaded : M'.loaded = M.loaded) :
    M₀.Later M' (W ∪ W') where
  toFrame := (h.toFrame.mono Set.subset_union_left).trans (h'.mono Set.subset_union_right)
  fresh := h.fresh
  loaded a bs ha := h.loaded a bs (hloaded ▸ ha)

@[simp] theorem run_singleton (M : Machine) (i : Inst) : M.run [i] = M.exec i := by
  rw [run]
  cases M.exec i <;> rfl

theorem run_append (M : Machine) (is is' : List Inst) :
    M.run (is ++ is') = (M.run is).bind fun M' => M'.run is' := by
  induction is generalizing M with
  | nil => rfl
  | cons i is ih =>
    rw [List.cons_append, run, run, Option.bind_assoc]
    exact congrArg _ (funext fun M' => ih M')

end Later

end Machine

end Dragongo
