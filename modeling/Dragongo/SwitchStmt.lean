import Dragongo.IntegrityTable
import Mathlib.Data.List.Nodup

/-!
# Switch statements

The children of a switch statement are its value, then the values of all cases, then the
statements.  A table beside the nodes has for each case where its values start, how many they
are, and where its statement is, in numbers of 32 bits.
-/

namespace Dragongo

structure SwitchCaseDesc where
  st : UInt32
  len : UInt32
  stmt : UInt32
deriving DecidableEq, Repr

namespace SwitchDescriptor

/-- The descriptors of cases whose values start at `idx` and whose statements start at `stidx`. -/
def caseDescs : List (List BnodeRef) → UInt32 → UInt32 → List SwitchCaseDesc
  | [], _, _ => []
  | vvec :: vals, idx, stidx =>
    ⟨idx, UInt32.ofNat vvec.length, stidx⟩ ::
      caseDescs vals (idx + UInt32.ofNat vvec.length) (stidx + 1)

def new (vals : List (List BnodeRef)) : List SwitchCaseDesc :=
  caseDescs vals 1 (vals.foldl (fun stidx vvec => stidx + UInt32.ofNat vvec.length) 1)

end SwitchDescriptor

/-- The builder, with the descriptors of the switch statements. -/
structure SwitchBuilder where
  be : Backend
  swcases : BnodeRef → Option (List SwitchCaseDesc)

namespace SwitchBuilder

def mkSwitchStmt (b : SwitchBuilder) (swvalue : BnodeRef) (vals : List (List BnodeRef))
    (stmts : List BnodeRef) : Option (BnodeRef × SwitchBuilder) :=
  (b.be.make (.mkSwitchStmt swvalue vals stmts)).map fun r =>
    (r.1, ⟨r.2, Function.update b.swcases r.1 (some (SwitchDescriptor.new vals))⟩)

section Accessors

variable (b : SwitchBuilder)

def castToBexpression (x : BnodeRef) : Option BnodeRef :=
  (b.be.node x).bind fun n => if n.isExpr then some x else none

def castToBstatement (x : BnodeRef) : Option BnodeRef :=
  (b.be.node x).bind fun n => if n.isExpr then none else some x

/-- The children of a switch statement. -/
def switchKids (x : BnodeRef) : Option (List BnodeRef) :=
  (b.be.node x).bind fun n => if n.flavor = .switchStmt then some n.kids else none

def getSwitchStmtValue (x : BnodeRef) : Option BnodeRef := do
  let kids ← b.switchKids x
  let kid ← kids[0]?
  b.castToBexpression kid

def getSwitchStmtNumCases (x : BnodeRef) : Option UInt32 := do
  let _ ← b.switchKids x
  let cases ← b.swcases x
  some (UInt32.ofNat cases.length)

def getSwitchStmtNthCase (x : BnodeRef) (idx : UInt32) : Option (List BnodeRef) := do
  let kids ← b.switchKids x
  let cases ← b.swcases x
  let cdesc ← cases[idx.toNat]?
  (List.range' 0 cdesc.len.toNat).mapM fun ii => do
    let kid ← kids[(UInt32.ofNat ii + cdesc.st).toNat]?
    b.castToBexpression kid

def getSwitchStmtNthStmt (x : BnodeRef) (idx : UInt32) : Option BnodeRef := do
  let kids ← b.switchKids x
  let cases ← b.swcases x
  let cdesc ← cases[idx.toNat]?
  let kid ← kids[cdesc.stmt.toNat]?
  b.castToBstatement kid

end Accessors

/-- The accessors give back the value, the number of cases, and the values and the statement of
each case. -/
structure GivesBack (b : SwitchBuilder) (x swvalue : BnodeRef) (vals : List (List BnodeRef))
    (stmts : List BnodeRef) : Prop where
  value : b.getSwitchStmtValue x = some swvalue
  numCases : ∃ n, b.getSwitchStmtNumCases x = some n ∧ n.toNat = vals.length
  nthCase : ∀ idx : UInt32, idx.toNat < vals.length →
    b.getSwitchStmtNthCase x idx = vals[idx.toNat]?
  nthStmt : ∀ idx : UInt32, idx.toNat < vals.length →
    b.getSwitchStmtNthStmt x idx = stmts[idx.toNat]?

/-- What a switch statement is made from: expressions, and a statement for each case. -/
structure IsSwitch (be : Backend) (swvalue : BnodeRef) (vals : List (List BnodeRef))
    (stmts : List BnodeRef) : Prop where
  exprs : ∀ v ∈ swvalue :: vals.flatten, ∃ n, be.Present v n ∧ n.isExpr
  statements : ∀ s ∈ stmts, ∃ n, be.node s = some n ∧ ¬n.isExpr
  length : stmts.length = vals.length

/-! ## Descriptors -/

section Descriptors

open SwitchDescriptor

variable {vals : List (List BnodeRef)} {i : ℕ} {vvec : List BnodeRef}

theorem caseDescs_getElem? (a b : ℕ) (h : vals[i]? = some vvec) :
    (caseDescs vals (UInt32.ofNat a) (UInt32.ofNat b))[i]? =
      some ⟨UInt32.ofNat (a + (vals.take i).flatten.length), UInt32.ofNat vvec.length,
        UInt32.ofNat (b + i)⟩ := by
  induction vals generalizing a b i with
  | nil => cases h
  | cons v vals ih =>
    cases i with
    | zero =>
      cases h
      rfl
    | succ i =>
      have hone : (1 : UInt32) = UInt32.ofNat 1 := rfl
      rw [caseDescs, List.getElem?_cons_succ, ← UInt32.ofNat_add, hone, ← UInt32.ofNat_add,
        ih _ _ h, List.take_succ_cons, List.flatten_cons, List.length_append, Nat.add_assoc,
        Nat.add_assoc, Nat.add_comm 1 i]

theorem length_caseDescs (idx stidx : UInt32) : (caseDescs vals idx stidx).length = vals.length := by
  induction vals generalizing idx stidx with
  | nil => rfl
  | cons v vals ih => rw [caseDescs, List.length_cons, ih, List.length_cons]

theorem foldl_lengths (a : ℕ) : vals.foldl (fun stidx vvec => stidx + UInt32.ofNat vvec.length)
    (UInt32.ofNat a) = UInt32.ofNat (a + vals.flatten.length) := by
  induction vals generalizing a with
  | nil => rfl
  | cons v vals ih =>
    rw [List.foldl_cons, ← UInt32.ofNat_add, ih, List.flatten_cons, List.length_append,
      Nat.add_assoc]

/-- The values of a case come after those of the cases before it, and its statement after all
values. -/
theorem new_getElem? (h : vals[i]? = some vvec) : (new vals)[i]? =
    some ⟨UInt32.ofNat (1 + (vals.take i).flatten.length), UInt32.ofNat vvec.length,
      UInt32.ofNat (1 + vals.flatten.length + i)⟩ := by
  have hone : (1 : UInt32) = UInt32.ofNat 1 := rfl
  rw [new, hone, foldl_lengths, caseDescs_getElem? _ _ h]

/-- Where a value is among the children. -/
theorem flatten_getElem? {k : ℕ} (h : vals[i]? = some vvec) (hk : k < vvec.length) :
    vals.flatten[(vals.take i).flatten.length + k]? = vvec[k]? := by
  obtain ⟨hi, rfl⟩ := List.getElem?_eq_some_iff.mp h
  have hsplit : vals.flatten =
      (vals.take i).flatten ++ (vals[i] ++ (vals.drop (i + 1)).flatten) := by
    conv_lhs => rw [← List.take_append_drop i vals]
    rw [List.flatten_append, List.drop_eq_getElem_cons hi, List.flatten_cons]
  rw [hsplit, List.getElem?_append_right (Nat.le_add_right _ _), Nat.add_sub_cancel_left,
    List.getElem?_append_left hk]

theorem length_le_flatten (h : vals[i]? = some vvec) :
    (vals.take i).flatten.length + vvec.length ≤ vals.flatten.length := by
  obtain ⟨hi, rfl⟩ := List.getElem?_eq_some_iff.mp h
  conv_rhs => rw [← List.take_append_drop i vals]
  rw [List.flatten_append, List.drop_eq_getElem_cons hi, List.flatten_cons, List.length_append,
    List.length_append]
  omega

end Descriptors

/-! ## The node that is made -/

section Make

variable {b b' : SwitchBuilder} {x swvalue : BnodeRef} {vals : List (List BnodeRef)}
  {stmts : List BnodeRef}

/-- The node of the statement and its descriptors. -/
structure Made (b : SwitchBuilder) (x swvalue : BnodeRef) (vals : List (List BnodeRef))
    (stmts : List BnodeRef) : Prop where
  kids : b.switchKids x = some (swvalue :: vals.flatten ++ stmts)
  cases : b.swcases x = some (SwitchDescriptor.new vals)
  exprs : ∀ v ∈ swvalue :: vals.flatten, b.castToBexpression v = some v
  notStmts : ∀ v ∈ swvalue :: vals.flatten, b.castToBstatement v = none
  stmts : ∀ s ∈ stmts, b.castToBstatement s = some s

theorem made_of_mkSwitchStmt (h : b.mkSwitchStmt swvalue vals stmts = some (x, b'))
    (hs : IsSwitch b.be swvalue vals stmts) : b'.Made x swvalue vals stmts := by
  obtain ⟨⟨x', be'⟩, hmake, heq⟩ := Option.map_eq_some_iff.mp h
  obtain ⟨rfl, rfl⟩ := Prod.mk.inj heq
  obtain ⟨n, id, hn, hdead, hnode, hother, -⟩ := Backend.make_node hmake
  cases hn
  have hkept {y : BnodeRef} {m : Bnode} (hy : b.be.node y = some m) : be'.node y = some m := by
    rw [hother y, hy]
    rintro rfl
    cases hdead.symm.trans hy
  constructor
  · rw [switchKids, hnode]
    rfl
  · exact Function.update_self ..
  · intro v hv
    obtain ⟨m, ⟨hm, -⟩, hexpr⟩ := hs.exprs v hv
    rw [castToBexpression, hkept hm, Option.bind_some, if_pos hexpr]
  · intro v hv
    obtain ⟨m, ⟨hm, -⟩, hexpr⟩ := hs.exprs v hv
    rw [castToBstatement, hkept hm, Option.bind_some, if_pos hexpr]
  · intro s hs'
    obtain ⟨m, hm, hstmt⟩ := hs.statements s hs'
    rw [castToBstatement, hkept hm, Option.bind_some, if_neg hstmt]

theorem mapM_range' {α : Type} {f : ℕ → Option α} {l : List α} {s : ℕ}
    (h : ∀ k < l.length, f (s + k) = l[k]?) : (List.range' s l.length).mapM f = some l := by
  induction l generalizing s with
  | nil => rfl
  | cons a l ih =>
    have hhead : f s = some a := h 0 (Nat.succ_pos _)
    have htail : ∀ k < l.length, f (s + 1 + k) = l[k]? := by
      intro k hk
      have hnext := h (k + 1) (Nat.succ_lt_succ hk)
      rwa [List.getElem?_cons_succ, Nat.add_comm k 1, ← Nat.add_assoc] at hnext
    rw [List.length_cons, List.range'_succ, List.mapM_cons, hhead, ih htail]
    rfl

theorem toNat_ofNat {n : ℕ} (h : n < 2 ^ 32) : (UInt32.ofNat n).toNat = n := Nat.mod_eq_of_lt h

namespace Made

/-- The statement of a case, if its index among the children fits 32 bits. -/
theorem nthStmt (h : b.Made x swvalue vals stmts) {idx : UInt32} (hidx : idx.toNat < vals.length) :
    b.getSwitchStmtNthStmt x idx = (swvalue :: vals.flatten ++ stmts)[
      (1 + vals.flatten.length + idx.toNat) % 2 ^ 32]?.bind b.castToBstatement := by
  have hcase := new_getElem? (List.getElem?_eq_getElem hidx)
  simp only [getSwitchStmtNthStmt, h.kids, h.cases, Option.bind_eq_bind, Option.bind_some, hcase]
  rfl

theorem givesBack (h : b.Made x swvalue vals stmts) (hlen : stmts.length = vals.length)
    (hfits : 1 + vals.flatten.length + stmts.length ≤ 2 ^ 32) :
    b.GivesBack x swvalue vals stmts := by
  constructor
  · simp only [getSwitchStmtValue, h.kids, Option.bind_eq_bind, Option.bind_some]
    exact h.exprs swvalue List.mem_cons_self
  · refine ⟨UInt32.ofNat vals.length, ?_, toNat_ofNat (by omega)⟩
    simp only [getSwitchStmtNumCases, h.kids, h.cases, Option.bind_eq_bind, Option.bind_some,
      SwitchDescriptor.new, length_caseDescs]
  · intro idx hidx
    have hvals : vals[idx.toNat]? = some vals[idx.toNat] := List.getElem?_eq_getElem hidx
    have hle := length_le_flatten hvals
    simp only [getSwitchStmtNthCase, h.kids, h.cases, Option.bind_eq_bind, Option.bind_some,
      new_getElem? hvals, hvals]
    rw [toNat_ofNat (by omega)]
    refine mapM_range' fun k hk => ?_
    -- the k-th value of the case
    have hindex : (UInt32.ofNat (0 + k) +
        UInt32.ofNat (1 + (vals.take idx.toNat).flatten.length)).toNat =
          (vals.take idx.toNat).flatten.length + k + 1 := by
      rw [← UInt32.ofNat_add, toNat_ofNat (by omega)]
      omega
    have hkid := flatten_getElem? hvals hk
    rw [List.getElem?_eq_getElem hk] at hkid ⊢
    have hmem : vals[idx.toNat][k] ∈ swvalue :: vals.flatten :=
      List.mem_cons_of_mem _ (List.mem_of_getElem? hkid)
    rw [hindex, List.cons_append, List.getElem?_cons_succ,
      List.getElem?_append_left (by omega), hkid, Option.bind_some, h.exprs _ hmem]
  · intro idx hidx
    have hidx' : idx.toNat < stmts.length := hlen ▸ hidx
    have hindex : 1 + vals.flatten.length + idx.toNat =
        (swvalue :: vals.flatten).length + idx.toNat := by
      rw [List.length_cons]
      omega
    rw [h.nthStmt hidx, Nat.mod_eq_of_lt (by omega), hindex,
      List.getElem?_append_right (Nat.le_add_right _ _), Nat.add_sub_cancel_left,
      List.getElem?_eq_getElem hidx', Option.bind_some, h.stmts _ (List.getElem_mem hidx')]

end Made

/-- The loop over the children of a switch statement that is made has come to its end. -/
theorem length_of_mkSwitchStmt (h : b.mkSwitchStmt swvalue vals stmts = some (x, b')) :
    1 + vals.flatten.length + stmts.length < 2 ^ 32 := by
  obtain ⟨⟨x', be'⟩, hmake, -⟩ := Option.map_eq_some_iff.mp h
  obtain ⟨n, id, hn, -, -, -, hshort⟩ := Backend.make_node hmake
  have hkids : swvalue :: vals.flatten ++ stmts = n.kids :=
    congrArg Bnode.kids (Option.some.inj hn)
  rwa [← hkids, List.length_append, List.length_cons, Nat.add_comm _ 1] at hshort

/-- A switch statement is made, and the accessors give back what it was made from, exactly if it
has fewer than `2 ^ 32` children. -/
theorem switch_givesBack_iff (hfree : b.be.node (b.be.malloc b.be.allocated) = none)
    (hs : IsSwitch b.be swvalue vals stmts) :
    (∃ x b', b.mkSwitchStmt swvalue vals stmts = some (x, b') ∧
      b'.GivesBack x swvalue vals stmts) ↔
    1 + vals.flatten.length + stmts.length < 2 ^ 32 := by
  constructor
  · intro ⟨x, b', h, _⟩
    exact length_of_mkSwitchStmt h
  · intro hshort
    have hlength : (swvalue :: vals.flatten ++ stmts).length =
        1 + vals.flatten.length + stmts.length := by
      rw [List.length_append, List.length_cons, Nat.add_comm 1]
    rw [← hlength] at hshort
    obtain ⟨⟨x, be'⟩, hmake⟩ : ∃ r, b.be.make (.mkSwitchStmt swvalue vals stmts) = some r := by
      refine Backend.make_isSome rfl hfree (fun kid hkid => ?_) hshort
      rcases List.mem_append.mp hkid with hkid | hkid
      · exact (hs.exprs kid hkid).imp fun _ hn => hn.1
      · obtain ⟨n, hn, hstmt⟩ := hs.statements kid hkid
        refine ⟨n, hn, fun hconv => (hstmt ?_).elim⟩
        rw [Bnode.isExpr, hconv]
        rfl
    have h : b.mkSwitchStmt swvalue vals stmts = some (x, ⟨be', Function.update b.swcases x
        (some (SwitchDescriptor.new vals))⟩) := by
      rw [mkSwitchStmt, hmake]
      rfl
    refine ⟨x, _, h, (made_of_mkSwitchStmt h hs).givesBack hs.length ?_⟩
    rw [← hlength]
    exact hshort.le

end Make

/-! ## Small and large switches -/

/-- A builder with a constant, which is node 0, and two labels. -/
def switchStart : SwitchBuilder where
  be := ((Backend.new id []).run [.make (.mkConst 0 (.other 0)), .make .mkLabelDefStmt,
    .make .mkLabelDefStmt]).getD (.new id [])
  swcases := fun _ => none

section Start

variable {vals : List (List BnodeRef)} {stmts : List BnodeRef}

theorem isSwitch_start (hvals : ∀ v ∈ vals.flatten, v = 0) (hstmts : ∀ s ∈ stmts, s = 1 ∨ s = 2)
    (hlen : stmts.length = vals.length) : IsSwitch switchStart.be 0 vals stmts where
  exprs v hv := by
    have hzero : v = 0 := (List.mem_cons.mp hv).elim id (hvals v)
    subst hzero
    exact ⟨_, ⟨rfl, fun hconv => nomatch hconv⟩, rfl⟩
  statements s hs := by
    rcases hstmts s hs with rfl | rfl
    · exact ⟨_, rfl, Bool.false_ne_true⟩
    · exact ⟨_, rfl, Bool.false_ne_true⟩
  length := hlen

end Start

/-- A case of two values, and a default. -/
theorem twoCases_givesBack : (∃ x b, switchStart.mkSwitchStmt 0 [[0, 0], []] [1, 2] = some (x, b) ∧
    b.GivesBack x 0 [[0, 0], []] [1, 2]) ↔
    1 + ([[0, 0], []] : List (List BnodeRef)).flatten.length + [1, 2].length < 2 ^ 32 :=
  switch_givesBack_iff rfl (isSwitch_start (by decide) (by decide) rfl)

theorem isSwitch_oneCase (k : ℕ) : IsSwitch switchStart.be 0 [List.replicate k 0] [1] := by
  refine isSwitch_start (fun v hv => ?_) (fun s hs => .inl (List.mem_singleton.mp hs)) rfl
  rw [List.flatten_singleton] at hv
  exact List.eq_of_mem_replicate hv

theorem length_oneCase {k : ℕ} {x : BnodeRef} {b' : SwitchBuilder}
    (h : switchStart.mkSwitchStmt 0 [List.replicate k 0] [1] = some (x, b')) :
    1 + k + 1 < 2 ^ 32 := by
  have hshort := length_of_mkSwitchStmt h
  rwa [List.flatten_singleton, List.length_replicate, List.length_singleton] at hshort

/-- A case with so many values that there are `2 ^ 32` children: the node is not finished. -/
theorem manyValues_not_givesBack : ¬∀ (b : SwitchBuilder) (swvalue : BnodeRef)
    (vals : List (List BnodeRef)) (stmts : List BnodeRef),
    b.be.node (b.be.malloc b.be.allocated) = none → IsSwitch b.be swvalue vals stmts →
    ∃ x b', b.mkSwitchStmt swvalue vals stmts = some (x, b') ∧
      b'.GivesBack x swvalue vals stmts := by
  intro hall
  obtain ⟨x, b, h, -⟩ := hall switchStart 0 [List.replicate (2 ^ 32 - 2) 0] [1] rfl
    (isSwitch_oneCase _)
  have hshort := length_oneCase h
  omega

end SwitchBuilder

end Dragongo
