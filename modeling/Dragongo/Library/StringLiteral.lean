import Mathlib.Data.List.Basic
import Mathlib.Data.Nat.Notation

/-!
# String literals of an assembler

A literal stands between quotes.  After a backslash comes another one, a quote, an `n` for a
newline, or up to three octal digits; every other byte is itself.
-/

namespace StringLiteral

abbrev Byte := BitVec 8

def byte (c : Char) : Byte := BitVec.ofNat 8 c.toNat

def text (s : String) : List Byte := s.toList.map byte

/-- Where the reader of a literal is: after a backslash, or after some octal digits of a value,
or in neither. -/
inductive State
  | plain
  | escape
  | octal (digits value : ℕ)

def isOctalDigit (b : Byte) : Bool := byte '0' ≤ b && b ≤ byte '7'

def octalValue (b : Byte) : ℕ := b.toNat - (byte '0').toNat

/-- A byte that belongs to no escape: what it stands for, and the state after it unless it is the
closing quote. -/
def plainStep (b : Byte) : List Byte × Option State :=
  if b = byte '"' then ([], none)
  else if b = byte '\\' then ([], some .escape)
  else ([b], some .plain)

/-- The next byte; no other escapes are allowed. -/
def step : State → Byte → Option (List Byte × Option State)
  | .plain, b => some (plainStep b)
  | .escape, b =>
    if b = byte '\\' ∨ b = byte '"' then some ([b], some .plain)
    else if b = byte 'n' then some ([byte '\n'], some .plain)
    else if isOctalDigit b then some ([], some (.octal 1 (octalValue b)))
    else none
  | .octal digits value, b =>
    -- as many digits as there are, up to three
    if digits < 3 ∧ isOctalDigit b then
      some ([], some (.octal (digits + 1) (8 * value + octalValue b)))
    else some (BitVec.ofNat 8 value :: (plainStep b).1, (plainStep b).2)

/-- What a literal stands for, from after its opening quote, and what comes after it. -/
def read : State → List Byte → Option (List Byte × List Byte)
  | _, [] => none
  | s, b :: bs => do
    let (out, next) ← step s b
    match next with
    | none => some (out, bs)
    | some s => (read s bs).map fun r => (out ++ r.1, r.2)

section Read

variable {s : State} {b : Byte} {bs after out : List Byte}

theorem read_close (after : List Byte) : read .plain (byte '"' :: after) = some ([], after) := rfl

theorem read_plain (hquote : b ≠ byte '"') (hslash : b ≠ byte '\\') (bs : List Byte) :
    read .plain (b :: bs) = (read .plain bs).map fun r => (b :: r.1, r.2) := by
  simp only [read, step, plainStep, if_neg hquote, if_neg hslash, Option.bind_eq_bind,
    Option.bind_some]
  rfl

/-- A byte that stands for nothing yet. -/
theorem read_of_step (s' : State) (h : step s b = some ([], some s')) (bs : List Byte) :
    read s (b :: bs) = read s' bs := by
  rw [read, h]
  exact Option.map_id' ..

/-- A backslash, a quote or a newline after a backslash. -/
theorem read_escape {e : Byte} (h : step .escape e = some ([b], some .plain)) (bs : List Byte) :
    read .plain (byte '\\' :: e :: bs) = (read .plain bs).map fun r => (b :: r.1, r.2) := by
  rw [read_of_step .escape rfl, read, h]
  rfl

/-- After three digits the value is complete, whatever comes next. -/
theorem read_octal_three (value : ℕ) (bs : List Byte) : read (.octal 3 value) bs =
    (read .plain bs).map fun r => (BitVec.ofNat 8 value :: r.1, r.2) := by
  cases bs with
  | nil => rfl
  | cons b bs =>
    have hstep : step (.octal 3 value) b =
        some (BitVec.ofNat 8 value :: (plainStep b).1, (plainStep b).2) := by
      rw [step, if_neg fun h => Nat.lt_irrefl 3 h.1]
    rw [read, read, hstep]
    simp only [step, Option.bind_eq_bind, Option.bind_some]
    cases (plainStep b).2 with
    | none => rfl
    | some s =>
      simp only [Option.map_map]
      rfl

/-- A literal is shorter than the text that it is read from. -/
theorem length_of_read (h : read s bs = some (out, after)) : after.length < bs.length := by
  induction bs generalizing s out with
  | nil => cases h
  | cons b bs ih =>
    rw [read] at h
    obtain ⟨⟨emitted, next⟩, -, h⟩ := Option.bind_eq_some_iff.mp h
    cases next with
    | none =>
      cases h
      exact Nat.lt_succ_self _
    | some s' =>
      obtain ⟨r, hr, heq⟩ := Option.map_eq_some_iff.mp h
      cases heq
      exact Nat.lt_succ_of_lt (ih hr)

end Read

end StringLiteral
