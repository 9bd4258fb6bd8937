import KernelGen.Proofs.Text.Printer
import KernelGen.Proofs.Text.Resemblance

/-! # The text of code determines the code

Everything that is said about lines is said here about texts: plain code that is written
alike resembles each other, and the text of nested code is the text that the code has on
its own, with every line further in. -/
namespace KernelGen

theorem Code.text_eq_iff_lines {code code' : Code} (h : code.isPlain) (h' : code'.isPlain) :
    code.text = code'.text ↔ Code.lines code = Code.lines code' := by
  refine ⟨fun htext => ?_, congrArg unlines⟩
  rw [← Code.textLines_text h, htext, Code.textLines_text h']

theorem Code.text_eq_join (code : Code) : code.text = String.join (code.map Stmt.text) := by
  induction code with
  | nil => rfl
  | cons s code ih => rw [Code.text_cons, ih, List.map_cons, String.join_cons]

theorem Stmt.text_branch (cond : Expr) {yes no : Code} (hyes : yes.isPlain) (hno : no.isPlain) :
    (Stmt.branch cond yes no).text =
      "if " ++ cond.text ++ " \x7b\n" ++ deeper 1 (Code.text yes) ++
        "\x7d else \x7b\n" ++ deeper 1 (Code.text no) ++ "\x7d\n" := by
  rw [Code.deeper_text hyes, Code.deeper_text hno, Stmt.text, Stmt.lines, unlines_cons,
    unlines_append, unlines_enclosed, ← map_blanks_zero (indented _), map_blanks_indented]
  simp [String.append_assoc]

theorem Stmt.text_loop (counter : Name) (bound : Expr) {body : Code} (h : body.isPlain) :
    (Stmt.loop counter bound body).text =
      "for " ++ counter.text ++ " < " ++ bound.text ++ " \x7b\n" ++ deeper 1 (Code.text body) ++
        "\x7d\n" := by
  rw [Code.deeper_text h, Stmt.text, Stmt.lines, unlines_enclosed]
  simp [String.append_assoc]

theorem Stmt.text_kernel (k : Kernel) (h : Code.isPlain k.body) :
    (Stmt.kernel k).text =
      "kernel " ++ k.threadIndex.text ++ " < " ++ k.threadCount.text ++ " \x7b\n" ++
        "  copy_in " ++ Transfer.listText k.copyIn ++ "\n" ++
        "  copy_out " ++ Transfer.listText k.copyOut ++ "\n" ++
        "  body \x7b\n" ++ deeper 2 (Code.text k.body) ++ "  \x7d\n" ++ "\x7d\n" := by
  obtain ⟨index, count, ins, outs, body⟩ := k
  rw [Code.deeper_text h, Stmt.text, Stmt.lines, Kernel.lines, unlines_enclosed]
  simp only [List.map_cons, enclosed, List.map_append, map_blanks_indented, unlines_cons,
    unlines_append, List.map_nil, unlines_nil]
  -- Both sides are the same characters; the literals are only divided in other ways.
  rw [← String.toList_inj]
  simp [blanks]

/-- **The text of code determines the code.**  Plain code that is written alike has the same
statements in the same order at the same depth, save for sizes and types that are written
alike.  The text is the texts of the statements one after the other.  What is nested is
written like on its own, with every line one level further in, and two levels in a kernel;
and wherever a printer is, it writes code like on its own, at its depth, and comes back
there. -/
theorem code_text_faithful :
    (∀ code code' : Code, code.isPlain → code'.isPlain →
      (code.text = code'.text ↔ Code.Resembles code code')) ∧
    (∀ code : Code, code.text = String.join (code.map Stmt.text)) ∧
    (∀ (cond : Expr) (yes no : Code), yes.isPlain → no.isPlain →
      (Stmt.branch cond yes no).text =
        "if " ++ cond.text ++ " \x7b\n" ++ deeper 1 (Code.text yes) ++
          "\x7d else \x7b\n" ++ deeper 1 (Code.text no) ++ "\x7d\n") ∧
    (∀ (counter : Name) (bound : Expr) (body : Code), body.isPlain →
      (Stmt.loop counter bound body).text =
        "for " ++ counter.text ++ " < " ++ bound.text ++ " \x7b\n" ++ deeper 1 (Code.text body) ++
          "\x7d\n") ∧
    (∀ k : Kernel, Code.isPlain k.body →
      (Stmt.kernel k).text =
        "kernel " ++ k.threadIndex.text ++ " < " ++ k.threadCount.text ++ " \x7b\n" ++
          "  copy_in " ++ Transfer.listText k.copyIn ++ "\n" ++
          "  copy_out " ++ Transfer.listText k.copyOut ++ "\n" ++
          "  body \x7b\n" ++ deeper 2 (Code.text k.body) ++ "  \x7d\n" ++ "\x7d\n") ∧
    (∀ (code : Code) (p : Printer), code.isPlain →
      (Printer.code code).run p = ((), { p with out := p.out ++ deeper p.depth code.text })) := by
  refine ⟨fun code code' h h' => ?_, Code.text_eq_join,
    fun cond yes no hyes hno => Stmt.text_branch cond hyes hno,
    fun counter bound body h => Stmt.text_loop counter bound h, Stmt.text_kernel,
    fun code p h => Printer.run_code h p⟩
  rw [Code.text_eq_iff_lines h h']
  exact ⟨Code.resembles_of_lines code h h', Code.lines_of_resembles⟩

theorem code_text_faithful_regrouped :
    Code.Resembles
      [.loop ⟨"i", 0⟩ (.const (.int 3)) [.allocate ⟨"mem", 1⟩
        (.add (.var ⟨"n_0", 2⟩) (.add (.var ⟨"n", 0⟩) (.const (-1)))) .global]]
      [.loop ⟨"i", 0⟩ (.const (.int 3)) [.allocate ⟨"mem", 1⟩
        (.add (.add (.var ⟨"n_0", 2⟩) (.var ⟨"n", 0⟩)) (.const (-1))) .global]] ∧
    (Stmt.branch (.var ⟨"c", 3⟩) [.declareScalar ⟨"x", 4⟩ .i64] []).text =
      "if c_3 \x7b\n" ++ deeper 1 "var x_4: i64\n" ++ "\x7d else \x7b\n" ++ deeper 1 "" ++
        "\x7d\n" ∧
    (Stmt.loop ⟨"i", 0⟩ (.var ⟨"n", 2⟩) [.declareBlock ⟨"mem", 1⟩ .host]).text =
      "for i_0 < n_2 \x7b\n" ++ deeper 1 "var mem_1: mem@host\n" ++ "\x7d\n" ∧
    (Stmt.kernel ⟨⟨"gtid", 7⟩, .var ⟨"n", 0⟩, [.block ⟨"mem", 1⟩ (.var ⟨"n", 0⟩)], [],
        [.set ⟨"x", 2⟩ (.const (.int 1))]⟩).text =
      "kernel gtid_7 < n_0 \x7b\n" ++ "  copy_in mem mem_1 [n_0]\n" ++ "  copy_out \n" ++
        "  body \x7b\n" ++ deeper 2 "x_2 <- 1\n" ++ "  \x7d\n" ++ "\x7d\n" ∧
    (Printer.code [.set ⟨"x", 2⟩ (.const (.int 1))]).run ⟨"body \x7b\n", 1⟩ =
      ((), ⟨"body \x7b\n" ++ deeper 1 "x_2 <- 1\n", 1⟩) :=
  ⟨(code_text_faithful.1 _ _ (by decide) (by decide)).mp (by decide),
    code_text_faithful.2.2.1 _ _ _ (by decide) (by decide),
    code_text_faithful.2.2.2.1 _ _ _ (by decide),
    code_text_faithful.2.2.2.2.1 _ (by decide),
    code_text_faithful.2.2.2.2.2 _ _ (by decide)⟩

end KernelGen
