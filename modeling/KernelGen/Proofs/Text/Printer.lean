import KernelGen.Proofs.Text.Lines

/-! # Code printed line by line

A printer writes one line after the other and keeps the depth at which it is.  It goes one
level deeper before nested code and comes back after it.  What it writes are the lines of
the code, each behind the blanks of the depth at which it began, and at the end it is back
there (`Printer.writes_code`), however the code is nested. -/
namespace KernelGen

/-- What has been written, and the depth of the next line. -/
structure Printer where
  out : String := ""
  depth : Nat := 0

namespace Printer

/-- Write a line at the depth of the printer. -/
def line (text : String) : StateM Printer Unit :=
  modify fun p => { p with out := p.out ++ (blanks p.depth ++ text ++ "\n") }

/-- Print one level deeper, and come back. -/
def nested (print : StateM Printer Unit) : StateM Printer Unit := do
  modify fun p => { p with depth := p.depth + 1 }
  print
  modify fun p => { p with depth := p.depth - 1 }

mutual

/-- Print a kernel. -/
def kernel : Kernel → StateM Printer Unit
  | ⟨threadIndex, threadCount, copyIn, copyOut, body⟩ => do
    line ("kernel " ++ threadIndex.text ++ " < " ++ threadCount.text ++ " \x7b")
    nested do
      line ("copy_in " ++ Transfer.listText copyIn)
      line ("copy_out " ++ Transfer.listText copyOut)
      line "body \x7b"
      nested (code body)
      line "\x7d"
    line "\x7d"

/-- Print a statement. -/
def stmt : Stmt → StateM Printer Unit
  | .declareScalar name ty => line ("var " ++ name.text ++ ": " ++ ty.text)
  | .declareBlock name space => line ("var " ++ name.text ++ ": mem@" ++ space.text)
  | .allocate block size space =>
    line (block.text ++ " <- alloc@" ++ space.text ++ "(" ++ size.text ++ ")")
  | .set name value => line (name.text ++ " <- " ++ value.text)
  | .read dest block index element space =>
    line (dest.text ++ " <- " ++ block.text ++ "@" ++ space.text ++ "[" ++ index.text ++ "]: " ++
      element.text)
  | .write block index element space value =>
    line (block.text ++ "@" ++ space.text ++ "[" ++ index.text ++ "]: " ++ element.text ++
      " <- " ++ value.text)
  | .branch cond yes no => do
    line ("if " ++ cond.text ++ " \x7b")
    nested (code yes)
    line "\x7d else \x7b"
    nested (code no)
    line "\x7d"
  | .loop counter bound body => do
    line ("for " ++ counter.text ++ " < " ++ bound.text ++ " \x7b")
    nested (code body)
    line "\x7d"
  | .kernel k => kernel k

/-- Print statements in order. -/
def code : Code → StateM Printer Unit
  | [] => pure ()
  | s :: rest => do
    stmt s
    code rest

end

/-! ## What is written -/

/-- From every state these lines are written at the depth of the printer, and the depth is
the same afterwards. -/
def Writes (print : StateM Printer Unit) (lines : List String) : Prop :=
  ∀ p : Printer, print.run p =
    ((), { p with out := p.out ++ unlines (lines.map (blanks p.depth ++ ·)) })

variable {print print' : StateM Printer Unit} {lines lines' : List String}

theorem writes_pure : Writes (pure ()) [] := fun p => by
  show ((), p) = _
  simp [unlines]

theorem writes_line (text : String) : Writes (line text) [text] := fun p => by
  show ((), { p with out := p.out ++ (blanks p.depth ++ text ++ "\n") }) = _
  simp [unlines]

theorem Writes.seq (h : Writes print lines) (h' : Writes print' lines') :
    Writes (do print; print') (lines ++ lines') := fun p => by
  have hrun : (do print; print').run p = print'.run (print.run p).2 := rfl
  rw [hrun, h p, h' _, List.map_append, unlines_append, String.append_assoc]

/-- Lines of nested code are the lines of an indented block. -/
theorem Writes.nested (h : Writes print lines) : Writes (nested print) (indented lines) := by
  intro p
  have hrun : (Printer.nested print).run p =
      let q := (print.run { p with depth := p.depth + 1 }).2
      ((), { q with depth := q.depth - 1 }) := rfl
  rw [hrun, h _]
  simp [map_blanks_indented]

theorem Writes.enclosed {first last : String} (h : Writes print lines) :
    Writes (do line first; Printer.nested print; line last) (enclosed first lines last) :=
  (writes_line first).seq (h.nested.seq (writes_line last))

mutual

theorem writes_kernel : ∀ k : Kernel, Writes (kernel k) k.lines
  | ⟨_, _, _, _, body⟩ => by
    rw [kernel, Kernel.lines]
    exact ((writes_line _).seq ((writes_line _).seq (writes_code body).enclosed)).enclosed

theorem writes_stmt : ∀ s : Stmt, Writes (stmt s) s.lines
  | .declareScalar .. | .declareBlock .. | .allocate .. | .set .. | .read .. | .write .. => by
    rw [stmt, Stmt.lines]
    exact writes_line _
  | .branch _ yes no => by
    rw [stmt, Stmt.lines]
    exact (writes_line _).seq ((writes_code yes).nested.seq (writes_code no).enclosed)
  | .loop _ _ body => by
    rw [stmt, Stmt.lines]
    exact (writes_code body).enclosed
  | .kernel k => by
    rw [stmt, Stmt.lines]
    exact writes_kernel k

/-- **The printer writes the lines of the code, and comes back to where it was.** -/
theorem writes_code : ∀ c : Code, Writes (code c) c.lines
  | [] => by
    rw [code, Code.lines]
    exact writes_pure
  | s :: rest => by
    rw [code, Code.lines]
    exact (writes_stmt s).seq (writes_code rest)

end

/-- A printer that has written nothing yet writes the text of the code. -/
theorem out_run_code (c : Code) : ((code c).run {}).2.out = c.text := by
  rw [writes_code c {}, map_blanks_zero, Code.text, String.empty_append]

/-- Code is written like on its own, with every line as deep as the printer is. -/
theorem run_code {c : Code} (h : c.isPlain) (p : Printer) :
    (code c).run p = ((), { p with out := p.out ++ deeper p.depth c.text }) := by
  rw [writes_code c p, Code.deeper_text h]

end Printer

end KernelGen
