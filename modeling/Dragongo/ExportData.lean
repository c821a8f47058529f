import Dragongo.Library.StringLiteral

/-!
# Export data

The backend hands its export data to the assembler, in the literals of `.ascii` directives.  Read
back, each of them is the bytes that it was written for.
-/

namespace Dragongo
open StringLiteral

/-! ## Writing -/

/-- The bytes that are written as escapes. -/
def exportRewrites : List (Byte × List Byte) :=
  [(byte '\\', text "\\\\"), (0, text "\\000"), (byte '\n', text "\\n"), (byte '"', text "\\\"")]

def postProcessExportDataChunk (bytes : List Byte) : List Byte :=
  bytes.flatMap fun b => (exportRewrites.lookup b).getD [b]

/-- The inline assembly of the module, and what has been done about export data. -/
structure ExportData where
  asm : List Byte := []
  exportDataStarted : Bool := false
  exportDataFinalized : Bool := false

/-- The assembly always ends with a newline, unless it is empty. -/
def appendModuleInlineAsm (asm text : List Byte) : List Byte :=
  if asm ++ text ≠ [] ∧ (asm ++ text).getLast? ≠ some (byte '\n') then
    asm ++ text ++ [byte '\n']
  else asm ++ text

def exportPreamble : List Byte := text "\t.section \".go_export\",\"e\",@progbits"

def asciiDirective : List Byte := text "\t.ascii \""

namespace ExportData

def writeExportData (e : ExportData) (bytes : List Byte) : Option ExportData :=
  if e.exportDataFinalized then none
  else
    let asm := if e.exportDataStarted then e.asm else appendModuleInlineAsm e.asm exportPreamble
    some { e with
      exportDataStarted := true
      asm := appendModuleInlineAsm asm
        (asciiDirective ++ postProcessExportDataChunk bytes ++ text "\"\n") }

def finalizeExportData (e : ExportData) : Option ExportData :=
  if e.exportDataFinalized then none
  else some { e with
    exportDataFinalized := true
    asm := appendModuleInlineAsm e.asm (text "\t.text\n") }

end ExportData

/-! ## Reading -/

/-- What comes after the line. -/
def skipLine : List Byte → List Byte
  | [] => []
  | b :: bs => if b = byte '\n' then bs else skipLine bs

theorem length_skipLine (bs : List Byte) : (skipLine bs).length ≤ bs.length := by
  induction bs with
  | nil => exact Nat.le_refl 0
  | cons b bs ih =>
    rw [skipLine]
    split_ifs
    · exact Nat.le_succ _
    · exact Nat.le_succ_of_le ih

theorem skipLine_append {line : List Byte} (h : byte '\n' ∉ line) (rest : List Byte) :
    skipLine (line ++ byte '\n' :: rest) = rest := by
  induction line with
  | nil => exact if_pos rfl
  | cons b line ih =>
    rw [List.mem_cons, not_or] at h
    rw [List.cons_append, skipLine, if_neg (Ne.symm h.1), ih h.2]

/-- What the literals of the `.ascii` directives of an assembly stand for. -/
def literals (asm : List Byte) : Option (List (List Byte)) :=
  match asm with
  | [] => some []
  | b :: bs =>
    if asciiDirective.isPrefixOf (b :: bs) then
      match _hread : read .plain ((b :: bs).drop asciiDirective.length) with
      | none => none
      | some (bytes, after) =>
        if after.head? = some (byte '\n') then (literals after.tail).map (bytes :: ·) else none
    else literals (skipLine (b :: bs))
termination_by asm.length
decreasing_by
  · have hlt := length_of_read _hread
    rw [List.length_drop] at hlt
    rw [List.length_tail]
    omega
  · rw [skipLine]
    have hle := length_skipLine bs
    split_ifs <;> simp only [List.length_cons] <;> omega

theorem literals_ascii {text bytes after : List Byte}
    (h : read .plain text = some (bytes, byte '\n' :: after)) :
    literals (asciiDirective ++ text) = (literals after).map (bytes :: ·) := by
  have hprefix : asciiDirective.isPrefixOf (asciiDirective ++ text) := by
    rw [List.isPrefixOf_iff_prefix]
    exact List.prefix_append _ _
  have hdrop : (asciiDirective ++ text).drop asciiDirective.length = text :=
    List.drop_left
  have hcons : ∃ b bs, asciiDirective ++ text = b :: bs := ⟨_, _, rfl⟩
  obtain ⟨b, bs, hcons⟩ := hcons
  rw [hcons] at hprefix hdrop ⊢
  rw [literals, if_pos hprefix]
  split
  · next hnone =>
    rw [hdrop, h] at hnone
    cases hnone
  · next hsome =>
    rw [hdrop, h] at hsome
    cases hsome
    rfl

/-- A line that is no such directive is passed over. -/
theorem literals_line {b : Byte} {line : List Byte} (hline : byte '\n' ∉ b :: line)
    (rest : List Byte) (h : asciiDirective.isPrefixOf (b :: line ++ byte '\n' :: rest) = false) :
    literals (b :: line ++ byte '\n' :: rest) = literals rest := by
  rw [List.cons_append] at h ⊢
  rw [literals, if_neg (Bool.eq_false_iff.mp h), ← List.cons_append, skipLine_append hline]

theorem literals_preamble (rest : List Byte) :
    literals (exportPreamble ++ byte '\n' :: rest) = literals rest :=
  literals_line (by decide) rest rfl

theorem literals_text (rest : List Byte) : literals (text "\t.text\n" ++ rest) = literals rest := by
  have hline : byte '\n' ∉ byte '\t' :: text ".text" := by decide
  exact literals_line hline rest rfl

/-! ## A literal is read back -/

/-- Escaped, a byte is read back whatever comes after it. -/
theorem read_rewritten (b : Byte) (rest : List Byte) :
    read .plain ((exportRewrites.lookup b).getD [b] ++ rest) =
      (read .plain rest).map fun r => (b :: r.1, r.2) := by
  by_cases hslash : b = byte '\\'
  · subst hslash
    exact read_escape rfl rest
  by_cases hzero : b = 0
  · subst hzero
    -- three digits, so that none that follows is taken for a fourth
    change read .plain (byte '\\' :: byte '0' :: byte '0' :: byte '0' :: rest) = _
    rw [read_of_step .escape rfl, read_of_step (.octal 1 0) rfl,
      read_of_step (.octal 2 0) rfl, read_of_step (.octal 3 0) rfl, read_octal_three]
    rfl
  by_cases hnewline : b = byte '\n'
  · subst hnewline
    exact read_escape rfl rest
  by_cases hquote : b = byte '"'
  · subst hquote
    exact read_escape rfl rest
  have hlookup : exportRewrites.lookup b = none := by
    simp only [exportRewrites, List.lookup_cons, List.lookup_nil, beq_false_of_ne hslash,
      beq_false_of_ne hzero, beq_false_of_ne hnewline, beq_false_of_ne hquote]
  rw [hlookup]
  exact read_plain hquote hslash rest

/-- The literal of a chunk ends at its own closing quote. -/
theorem read_postProcess (bytes after : List Byte) :
    read .plain (postProcessExportDataChunk bytes ++ byte '"' :: after) = some (bytes, after) := by
  induction bytes with
  | nil => exact read_close after
  | cons b bytes ih =>
    rw [postProcessExportDataChunk, List.flatMap_cons, List.append_assoc, read_rewritten]
    rw [postProcessExportDataChunk] at ih
    rw [ih]
    rfl

/-! ## Everything that is written -/

def asciiLine (bytes : List Byte) : List Byte :=
  asciiDirective ++ postProcessExportDataChunk bytes ++ text "\"\n"

theorem literals_asciiLine (bytes rest : List Byte) :
    literals (asciiLine bytes ++ rest) = (literals rest).map (bytes :: ·) := by
  have hline : asciiLine bytes ++ rest = asciiDirective ++
      (postProcessExportDataChunk bytes ++ byte '"' :: byte '\n' :: rest) := by
    rw [asciiLine, List.append_assoc, List.append_assoc]
    rfl
  rw [hline, literals_ascii (read_postProcess bytes _)]

theorem literals_asciiLines (chunks : List (List Byte)) (rest : List Byte) :
    literals (chunks.flatMap asciiLine ++ rest) = (literals rest).map (chunks ++ ·) := by
  induction chunks with
  | nil => exact (Option.map_id' ..).symm
  | cons bytes chunks ih =>
    rw [List.flatMap_cons, List.append_assoc, literals_asciiLine, ih, Option.map_map]
    rfl

/-- Text that ends with a newline is appended as it is. -/
theorem appendModuleInlineAsm_newline (asm t : List Byte) :
    appendModuleInlineAsm asm (t ++ [byte '\n']) = asm ++ (t ++ [byte '\n']) := by
  refine if_neg fun h => h.2 ?_
  rw [← List.append_assoc, List.getLast?_concat]

theorem appendModuleInlineAsm_preamble (asm : List Byte) :
    appendModuleInlineAsm asm exportPreamble = asm ++ exportPreamble ++ [byte '\n'] := by
  refine if_pos ⟨?_, ?_⟩
  · exact fun h => absurd (List.append_eq_nil_iff.mp h).2 (by decide)
  · rw [List.getLast?_append_of_ne_nil _ (by decide)]
    decide

namespace ExportData

/-- What has been written: the section, and a line for each chunk. -/
structure Written (e : ExportData) (chunks : List (List Byte)) : Prop where
  open_ : e.exportDataFinalized = false
  asm : e.asm = if e.exportDataStarted then
      exportPreamble ++ byte '\n' :: chunks.flatMap asciiLine else []
  started : e.exportDataStarted = false → chunks = []

theorem Written.writeExportData {e : ExportData} {chunks : List (List Byte)}
    (h : e.Written chunks) (bytes : List Byte) :
    ∃ e', e.writeExportData bytes = some e' ∧ e'.Written (chunks ++ [bytes]) := by
  have hline (asm : List Byte) : appendModuleInlineAsm asm
      (asciiDirective ++ postProcessExportDataChunk bytes ++ text "\"\n") =
        asm ++ asciiLine bytes := by
    have heq : asciiLine bytes = asciiDirective ++ postProcessExportDataChunk bytes ++
        [byte '"'] ++ [byte '\n'] := by
      rw [asciiLine, List.append_assoc _ [byte '"']]
      rfl
    rw [← asciiLine, heq, appendModuleInlineAsm_newline]
  refine ⟨_, if_neg (Bool.eq_false_iff.mp h.open_), h.open_, ?_, nofun⟩
  dsimp only
  rw [hline, if_pos rfl, List.flatMap_append, h.asm]
  cases hs : e.exportDataStarted with
  | true => simp
  | false =>
    rw [h.started hs]
    simp [appendModuleInlineAsm_preamble]

/-- Any number of chunks can be written. -/
theorem Written.writeAll {e : ExportData} {before : List (List Byte)} (h : e.Written before)
    (chunks : List (List Byte)) : ∃ e', chunks.foldlM ExportData.writeExportData e = some e' ∧
      e'.Written (before ++ chunks) := by
  induction chunks generalizing e before with
  | nil => exact ⟨e, rfl, by rwa [List.append_nil]⟩
  | cons bytes chunks ih =>
    obtain ⟨e₁, hwrite, h₁⟩ := h.writeExportData bytes
    obtain ⟨e₂, hrest, h₂⟩ := ih h₁
    refine ⟨e₂, ?_, ?_⟩
    · rw [List.foldlM_cons, hwrite]
      exact hrest
    · rwa [List.append_assoc] at h₂

/-- The assembly is read back as the chunks, with or without something that comes after it. -/
theorem Written.literals {e : ExportData} {chunks : List (List Byte)} (h : e.Written chunks)
    {after : List Byte} (hafter : Dragongo.literals after = some []) :
    Dragongo.literals (e.asm ++ after) = some chunks := by
  rw [h.asm]
  cases hs : e.exportDataStarted with
  | true =>
    rw [if_pos rfl, List.append_assoc, List.cons_append, literals_preamble, literals_asciiLines,
      hafter, Option.map_some, List.append_nil]
  | false =>
    rw [h.started hs]
    exact hafter

end ExportData

/-- Whatever is written, in any number of calls, is read back from the literals, each of which
ends at its own closing quote; it still is when the data is finalized. -/
theorem exportData_readBack (chunks : List (List Byte)) :
    (∀ bytes ∈ chunks, ∀ after, read .plain
      (postProcessExportDataChunk bytes ++ byte '"' :: after) = some (bytes, after)) ∧
    ∃ e e', chunks.foldlM ExportData.writeExportData {} = some e ∧
      e.finalizeExportData = some e' ∧ literals e.asm = some chunks ∧
        literals e'.asm = some chunks := by
  have hnew : ExportData.Written {} [] := ⟨rfl, rfl, fun _ => rfl⟩
  obtain ⟨e, hwrite, h⟩ := hnew.writeAll chunks
  have hempty : literals [] = some [] := by rw [literals]
  refine ⟨fun bytes _ => read_postProcess bytes, e, _, hwrite,
    if_neg (Bool.eq_false_iff.mp h.open_), ?_, ?_⟩
  · have hread := h.literals hempty
    rwa [List.append_nil] at hread
  · have htext : literals (text "\t.text\n") = some [] := by
      have hline := literals_text []
      rwa [List.append_nil, hempty] at hline
    have hread := h.literals htext
    dsimp only
    rwa [show text "\t.text\n" = text "\t.text" ++ [byte '\n'] from rfl,
      appendModuleInlineAsm_newline]

/-- A zero before a digit, a quote and a backslash, in two chunks. -/
example : postProcessExportDataChunk [0, byte '7', byte '"', byte '\\'] =
    text "\\0007\\\"\\\\" := by decide

end Dragongo
