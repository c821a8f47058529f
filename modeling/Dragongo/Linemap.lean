import Dragongo.Library.LowerBound
import Dragongo.Library.ULEB128
import Mathlib.Algebra.Order.Ring.Nat
import Mathlib.Data.List.Dedup

/-!
# The line map

`Llvm_linemap` hands out the offset of an encoded line/column pair as a handle.
The file of a handle is not stored with it: it is found in a table of handle
ranges, one range for each visit to a file, or is the current file when no range
reaches the handle yet.

Every C++ `unsigned` is a `UInt32`, so the conversions of container sizes wrap
as they do there.  A failed assertion is `none`.
-/

namespace Dragongo.Linemap
open ULEB128

/-- File/line/column container. -/
structure FLC where
  fidx : UInt32
  line : UInt32
  column : UInt32
deriving DecidableEq, Repr

/-- The file ID associated with a range of handles. -/
structure Segment where
  lo : UInt32
  hi : UInt32
  fidx : UInt32
deriving DecidableEq, Repr

def Segment.cmp (a1 a2 : Segment) : Bool := a1.hi < a2.hi

def NoHandle : UInt32 := 0xffffffff

structure LlvmLinemap where
  files : List String
  fmap : List (String × UInt32)
  segments : List Segment
  encodedLocations : List UInt8
  unknownFidx : UInt32
  builtinFidx : UInt32
  currentFidx : UInt32
  currentLine : UInt32
  builtinHandle : UInt32
  unknownHandle : UInt32
  firstHandle : UInt32
  lastHandle : UInt32
  lookups : UInt32
  inFile : Bool
deriving DecidableEq, Repr

variable (c : Codec)

/-- The bytes of a line/column pair. -/
def encodePair (flc : FLC) : List UInt8 :=
  c.encode flc.line.toUInt64 ++ c.encode flc.column.toUInt64

def addEncodedLocation (lm : LlvmLinemap) (flc : FLC) : UInt32 × LlvmLinemap :=
  (UInt32.ofNat lm.encodedLocations.length,
    { lm with encodedLocations := lm.encodedLocations ++ encodePair c flc })

/-- The file ID of the first segment that reaches the handle, else the current file. -/
def segmentFidx (lm : LlvmLinemap) (handle : UInt32) : UInt32 :=
  let s : Segment := ⟨handle, handle, 0⟩
  match lm.segments[LowerBound.lowerBound (fun seg => seg.cmp s) lm.segments]? with
  | some seg => seg.fidx
  | none => lm.currentFidx

def decodeLocation (lm : LlvmLinemap) (handle : UInt32) : Option FLC :=
  if handle.toNat < lm.encodedLocations.length then
    let lptr := lm.encodedLocations.drop handle.toNat
    let line := c.decode lptr
    let column := c.decode (lptr.drop line.2)
    if (handle.toNat + line.2 + column.2) % 2 ^ 32 ≤ lm.encodedLocations.length then
      some ⟨segmentFidx lm handle, line.1.toUInt32, column.1.toUInt32⟩
    else none
  else none

/-- The constructor: file 0 and file 1 stand for unknown and builtin locations. -/
def LlvmLinemap.new : LlvmLinemap :=
  let lm : LlvmLinemap :=
    { files := ["", "<built-in>"], fmap := [], segments := [], encodedLocations := [],
      unknownFidx := 0, builtinFidx := 1, currentFidx := 0, currentLine := 0xffffffff,
      builtinHandle := NoHandle, unknownHandle := NoHandle, firstHandle := NoHandle,
      lastHandle := NoHandle, lookups := 0, inFile := false }
  let u := addEncodedLocation c lm ⟨lm.unknownFidx, 0, 0⟩
  let b := addEncodedLocation c u.2 ⟨lm.builtinFidx, 1, 1⟩
  { b.2 with
    unknownHandle := u.1
    builtinHandle := b.1
    segments := [⟨u.1, u.1, lm.unknownFidx⟩, ⟨b.1, b.1, lm.builtinFidx⟩] }

/-- Close out the segment being built, if a location was handed out in it. -/
def closeSegment (lm : LlvmLinemap) : LlvmLinemap :=
  { lm with
    segments :=
      if lm.firstHandle ≠ NoHandle then
        lm.segments ++ [⟨lm.firstHandle, lm.lastHandle, lm.currentFidx⟩]
      else lm.segments
    firstHandle := NoHandle
    lastHandle := NoHandle }

/-- Locate the file in the file table, adding a new entry if needed. -/
def internFile (lm : LlvmLinemap) (fileName : String) : UInt32 × LlvmLinemap :=
  match lm.fmap.lookup fileName with
  | some fidx => (fidx, lm)
  | none =>
    let fidx := UInt32.ofNat lm.files.length
    (fidx, { lm with files := lm.files ++ [fileName], fmap := lm.fmap ++ [(fileName, fidx)] })

def startFile (lm : LlvmLinemap) (fileName : String) (lineBegin : UInt32) : LlvmLinemap :=
  let r := internFile (closeSegment lm) fileName
  { r.2 with currentFidx := r.1, currentLine := lineBegin, inFile := true }

def stop (lm : LlvmLinemap) : LlvmLinemap := { lm with inFile := false }

def startLine (lm : LlvmLinemap) (lineno _linesize : UInt32) : LlvmLinemap :=
  { lm with currentLine := lineno }

def getLocation (lm : LlvmLinemap) (column : UInt32) : Option (UInt32 × LlvmLinemap) :=
  if lm.inFile then
    let r := addEncodedLocation c { lm with lookups := lm.lookups + 1 }
      ⟨lm.currentFidx, lm.currentLine, column⟩
    some (r.1,
      { r.2 with
        firstHandle := if lm.firstHandle = NoHandle then r.1 else lm.firstHandle
        lastHandle := r.1 })
  else none

/-! ## Histories of calls -/

inductive Call
  | startFile (fileName : String) (lineBegin : UInt32)
  | startLine (lineno linesize : UInt32)
  | getLocation (column : UInt32)
  | stop
deriving DecidableEq, Repr

/-- A source position as the caller means it. -/
structure Position where
  file : String
  line : UInt32
  column : UInt32
deriving DecidableEq, Repr

/-- A line map together with the file and line in force, which only the calls
determine, and every handle issued so far with the position it was issued for. -/
structure History where
  lm : LlvmLinemap
  file : String
  line : UInt32
  issued : List (UInt32 × Position)
deriving DecidableEq, Repr

def History.new : History := ⟨.new c, "", 0xffffffff, []⟩

def History.step (h : History) : Call → Option History
  | .startFile name line => some { h with lm := Linemap.startFile h.lm name line, file := name, line }
  | .startLine line size => some { h with lm := Linemap.startLine h.lm line size, line }
  | .stop => some { h with lm := Linemap.stop h.lm }
  | .getLocation column => do
    let r ← Linemap.getLocation c h.lm column
    some { h with lm := r.2, issued := (r.1, ⟨h.file, h.line, column⟩) :: h.issued }

def runFrom (h : History) (calls : List Call) : Option History := calls.foldlM (History.step c) h

/-- The calls made on a new line map; `none` when one of them fails its assertion. -/
def run (calls : List Call) : Option History := runFrom c (.new c) calls

/-- Decoding `handle` yields exactly `pos`. -/
def Decodes (lm : LlvmLinemap) (handle : UInt32) (pos : Position) : Prop :=
  ∃ flc, decodeLocation c lm handle = some flc ∧ lm.files[flc.fidx.toNat]? = some pos.file ∧
    flc.line = pos.line ∧ flc.column = pos.column

/-- What the handles issued by `pre` owe the caller once `post` has run as well. -/
def HandlesFaithful (pre post : List Call) : Prop :=
  ∀ h h', run c pre = some h → run c (pre ++ post) = some h' →
    h'.lm.encodedLocations.length < 2 ^ 32 - 1 →
      (h.issued.map Prod.fst).Nodup ∧
      (∀ i ∈ h.issued, i.1 ≠ h'.lm.unknownHandle ∧ i.1 ≠ h'.lm.builtinHandle) ∧
      ∀ i ∈ h.issued, Decodes c h'.lm i.1 i.2

def Call.fileName? : Call → Option String
  | .startFile fileName _ => some fileName
  | _ => none

/-- The names of the files the calls start, each counted once. -/
def startedFiles (calls : List Call) : List String := (calls.filterMap Call.fileName?).dedup

end Dragongo.Linemap
