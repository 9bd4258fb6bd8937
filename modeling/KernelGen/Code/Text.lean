import KernelGen.Code.Basic

/-! # The text of emitted code

Code is written one line per simple statement; what is nested stands between an opening
and a closing line and is indented by two blanks per level. The text of code is thus the
texts of its statements one after the other (`Code.text_cons`), and nested code is
written like the same code on its own, every line with two more blanks in front. -/
namespace KernelGen

/-- How a transfer is written. -/
def Transfer.text : Transfer → String
  | block name size => "mem " ++ name.text ++ " [" ++ size.text ++ "]"
  | scalar name ty => "scalar " ++ name.text ++ ": " ++ ty.text

/-- Transfers on one line. -/
def Transfer.listText (ts : List Transfer) : String := ", ".intercalate (ts.map text)

/-- The lines, two blanks further in. -/
def indented (lines : List String) : List String := lines.map ("  " ++ ·)

/-- The lines between an opening and a closing one, further in. -/
def enclosed (first : String) (lines : List String) (last : String) : List String :=
  first :: (indented lines ++ [last])

mutual

/-- The lines of a kernel: its index and thread count, the transfers in and out, and what
its threads run. -/
def Kernel.lines : Kernel → List String
  | ⟨threadIndex, threadCount, copyIn, copyOut, body⟩ =>
    enclosed ("kernel " ++ threadIndex.text ++ " < " ++ threadCount.text ++ " \x7b")
      (("copy_in " ++ Transfer.listText copyIn) :: ("copy_out " ++ Transfer.listText copyOut) ::
        enclosed "body \x7b" (Code.lines body) "\x7d")
      "\x7d"

/-- The lines of a statement. -/
def Stmt.lines : Stmt → List String
  | .declareScalar name ty => ["var " ++ name.text ++ ": " ++ ty.text]
  | .declareBlock name space => ["var " ++ name.text ++ ": mem@" ++ space.text]
  | .allocate block size space =>
    [block.text ++ " <- alloc@" ++ space.text ++ "(" ++ size.text ++ ")"]
  | .set name value => [name.text ++ " <- " ++ value.text]
  | .read dest block index element space =>
    [dest.text ++ " <- " ++ block.text ++ "@" ++ space.text ++ "[" ++ index.text ++ "]: " ++
      element.text]
  | .write block index element space value =>
    [block.text ++ "@" ++ space.text ++ "[" ++ index.text ++ "]: " ++ element.text ++ " <- " ++
      value.text]
  | .branch cond yes no =>
    ("if " ++ cond.text ++ " \x7b") :: (indented (Code.lines yes) ++
      enclosed "\x7d else \x7b" (Code.lines no) "\x7d")
  | .loop counter bound body =>
    enclosed ("for " ++ counter.text ++ " < " ++ bound.text ++ " \x7b") (Code.lines body) "\x7d"
  | .kernel k => k.lines

/-- The lines of the statements, in order. -/
def Code.lines : Code → List String
  | [] => []
  | s :: code => s.lines ++ Code.lines code

end

/-- Lines as one text; each ends with a line feed. -/
def unlines (lines : List String) : String := String.join (lines.map (· ++ "\n"))

/-- The text of a kernel. -/
def Kernel.text (k : Kernel) : String := unlines k.lines

/-- The text of a statement. -/
def Stmt.text (s : Stmt) : String := unlines s.lines

/-- The text of code. -/
def Code.text (code : Code) : String := unlines code.lines

theorem unlines_append (a b : List String) : unlines (a ++ b) = unlines a ++ unlines b := by
  simp [unlines, String.join_append]

@[simp] theorem Code.text_nil : Code.text [] = "" := rfl

/-- The text of code is the texts of its statements one after the other. -/
theorem Code.text_cons (s : Stmt) (code : Code) :
    Code.text (s :: code) = s.text ++ Code.text code := unlines_append ..

end KernelGen
