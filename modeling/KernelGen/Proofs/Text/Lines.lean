import KernelGen.Proofs.Text.Headings

/-! # The lines of a text

The lines of plain code have no line feed (`Code.isLine_of_mem_lines`), so that they are
found again in its text (`Code.textLines_text`), and to write the lines further in is to
indent every line of the text (`deeper`). -/
namespace KernelGen

/-! ## Texts as lines -/

/-- The text has no line feed. -/
def IsLine (line : String) : Prop := '\n' ∉ line.toList

instance (line : String) : Decidable (IsLine line) :=
  inferInstanceAs (Decidable ('\n' ∉ line.toList))

theorem isLine_append {a b : String} : IsLine (a ++ b) ↔ IsLine a ∧ IsLine b := by
  simp [IsLine]

/-- The lines of a text, each of which ends with a line feed. -/
def textLines (t : String) : List String :=
  (t.toList.splitOn '\n').dropLast.map String.ofList

theorem unlines_nil : unlines [] = "" := rfl

theorem unlines_cons (line : String) (lines : List String) :
    unlines (line :: lines) = line ++ "\n" ++ unlines lines := by
  simp [unlines, String.join_cons]

theorem toList_unlines (lines : List String) :
    (unlines lines).toList = ['\n'].intercalate (lines.map String.toList ++ [[]]) := by
  induction lines with
  | nil => simp [unlines]
  | cons line lines ih =>
    rw [unlines_cons, String.toList_append, String.toList_append, ih]
    cases lines <;> simp [List.intercalate_cons_cons]

/-- **Lines are found again in their text.** -/
theorem textLines_unlines {lines : List String} (h : ∀ line ∈ lines, IsLine line) :
    textLines (unlines lines) = lines := by
  have hfree : ∀ text ∈ lines.map String.toList ++ [[]], '\n' ∉ text := by
    rw [List.forall_mem_append, List.forall_mem_map]
    exact ⟨h, by simp⟩
  rw [textLines, toList_unlines, List.splitOn_intercalate _ hfree (by simp)]
  simp [Function.comp_def]

/-- Two blanks per level. -/
def blanks : Nat → String
  | 0 => ""
  | depth + 1 => blanks depth ++ "  "

/-- The text with every line some levels further in. -/
def deeper (levels : Nat) (t : String) : String :=
  unlines ((textLines t).map (blanks levels ++ ·))

theorem map_blanks_zero (lines : List String) : lines.map (blanks 0 ++ ·) = lines := by
  simp [blanks]

theorem map_blanks_indented (lines : List String) (levels : Nat) :
    (indented lines).map (blanks levels ++ ·) = lines.map (blanks (levels + 1) ++ ·) := by
  simp [indented, blanks, Function.comp_def, String.append_assoc]

theorem unlines_enclosed (first : String) (lines : List String) (last : String) :
    unlines (enclosed first lines last) =
      first ++ "\n" ++ unlines (lines.map (blanks 1 ++ ·)) ++ last ++ "\n" := by
  rw [← map_blanks_indented, map_blanks_zero]
  simp [enclosed, unlines, String.append_assoc]

/-! ## The lines of code -/

section
variable {lines : List String} {first last : String}

theorem isLine_of_mem_indented (h : ∀ line ∈ lines, IsLine line) :
    ∀ line ∈ indented lines, IsLine line := by
  rw [indented, List.forall_mem_map]
  exact fun line hline => isLine_append.mpr ⟨by decide, h line hline⟩

theorem isLine_of_mem_enclosed (hfirst : IsLine first) (h : ∀ line ∈ lines, IsLine line)
    (hlast : IsLine last) : ∀ line ∈ enclosed first lines last, IsLine line := by
  rw [enclosed, List.forall_mem_cons, List.forall_mem_append]
  exact ⟨hfirst, isLine_of_mem_indented h, by simpa using hlast⟩

theorem isLine_of_all {p : Char → Bool} {line : String} (h : line.toList.all p)
    (hp : p '\n' = false) : IsLine line :=
  not_mem_of_all h hp

end

theorem Name.isLine_text {x : Name} (hx : x.isPlain) : IsLine x.text :=
  isLine_of_all (all_nameChar_text hx) (by decide)

theorem Size.isLine_text {s : Size} (hs : s.isPlain) : IsLine s.text :=
  isLine_of_all (all_scalarChar_text hs) (by decide)

theorem Expr.isLine_text {e : Expr} (he : e.isPlain) : IsLine e.text :=
  isLine_of_all (all_scalarChar_text he) (by decide)

theorem Ty.isLine_text (t : Ty) : IsLine t.text := isLine_of_all t.all_tyChar_text (by decide)

theorem Space.isLine_text (space : Space) : IsLine space.text := by cases space <;> decide

theorem Transfer.isLine_text {t : Transfer} (ht : t.isPlain) : IsLine t.text := by
  match t with
  | block x size =>
    rw [isPlain, Bool.and_eq_true] at ht
    simp +decide only [text, isLine_append, Name.isLine_text ht.1, Size.isLine_text ht.2]
  | scalar x ty =>
    simp +decide only [text, isLine_append, Name.isLine_text (x := x) ht, Ty.isLine_text]

theorem Transfer.isLine_listText {ts : List Transfer} (hts : ts.all isPlain) :
    IsLine (listText ts) := by
  rw [listText]
  induction ts with
  | nil => decide
  | cons t ts ih =>
    rw [List.all_cons, Bool.and_eq_true] at hts
    have ht := isLine_text hts.1
    cases ts with
    | nil => simpa using ht
    | cons u ts =>
      rw [List.map_cons, List.map_cons, String.intercalate_cons_cons, isLine_append, isLine_append]
      exact ⟨⟨ht, by decide⟩, ih hts.2⟩

mutual

theorem Stmt.isLine_of_mem_lines : ∀ s : Stmt, s.isPlain → ∀ line ∈ s.lines, IsLine line
  | .declareScalar x ty, hs => by
    simp +decide only [Stmt.lines, List.forall_mem_singleton, isLine_append,
      Name.isLine_text (x := x) hs, Ty.isLine_text]
  | .declareBlock x space, hs => by
    simp +decide only [Stmt.lines, List.forall_mem_singleton, isLine_append,
      Name.isLine_text (x := x) hs, Space.isLine_text]
  | .allocate x size space, hs => by
    rw [Stmt.isPlain, Bool.and_eq_true] at hs
    simp +decide only [Stmt.lines, List.forall_mem_singleton, isLine_append, Name.isLine_text hs.1,
      Size.isLine_text hs.2, Space.isLine_text]
  | .set x e, hs => by
    rw [Stmt.isPlain, Bool.and_eq_true] at hs
    simp +decide only [Stmt.lines, List.forall_mem_singleton, isLine_append, Name.isLine_text hs.1,
      Expr.isLine_text hs.2]
  | .read x b i ty space, hs => by
    simp only [Stmt.isPlain, Bool.and_eq_true] at hs
    simp +decide only [Stmt.lines, List.forall_mem_singleton, isLine_append,
      Name.isLine_text hs.1.1, Name.isLine_text hs.1.2, Size.isLine_text hs.2, Ty.isLine_text,
      Space.isLine_text]
  | .write b i ty space e, hs => by
    simp only [Stmt.isPlain, Bool.and_eq_true] at hs
    simp +decide only [Stmt.lines, List.forall_mem_singleton, isLine_append,
      Name.isLine_text hs.1.1, Size.isLine_text hs.1.2, Expr.isLine_text hs.2, Ty.isLine_text,
      Space.isLine_text]
  | .branch cond yes no, hs => by
    simp only [Stmt.isPlain, Bool.and_eq_true] at hs
    have hfirst : IsLine ("if " ++ cond.text ++ " \x7b") := by
      simp +decide only [isLine_append, Expr.isLine_text hs.1.1]
    rw [Stmt.lines, List.forall_mem_cons, List.forall_mem_append]
    exact ⟨hfirst, isLine_of_mem_indented (Code.isLine_of_mem_lines yes hs.1.2),
      isLine_of_mem_enclosed (by decide) (Code.isLine_of_mem_lines no hs.2) (by decide)⟩
  | .loop counter bound body, hs => by
    simp only [Stmt.isPlain, Bool.and_eq_true] at hs
    refine isLine_of_mem_enclosed ?_ (Code.isLine_of_mem_lines body hs.2) (by decide)
    simp +decide only [isLine_append, Name.isLine_text hs.1.1, Expr.isLine_text hs.1.2]
  | .kernel ⟨index, count, ins, outs, body⟩, hs => by
    simp only [Stmt.isPlain, Kernel.isPlain, Bool.and_eq_true] at hs
    obtain ⟨⟨⟨⟨hindex, hcount⟩, hins⟩, houts⟩, hbody⟩ := hs
    refine isLine_of_mem_enclosed ?_ ?_ (by decide)
    · simp +decide only [isLine_append, Name.isLine_text hindex, Size.isLine_text hcount]
    · rw [List.forall_mem_cons, List.forall_mem_cons, isLine_append, isLine_append]
      exact ⟨⟨by decide, Transfer.isLine_listText hins⟩,
        ⟨by decide, Transfer.isLine_listText houts⟩,
        isLine_of_mem_enclosed (by decide) (Code.isLine_of_mem_lines body hbody) (by decide)⟩

theorem Code.isLine_of_mem_lines : ∀ code : Code, code.isPlain →
    ∀ line ∈ Code.lines code, IsLine line
  | [], _ => by simp [Code.lines]
  | s :: code, hcode => by
    rw [Code.isPlain, Bool.and_eq_true] at hcode
    rw [Code.lines, List.forall_mem_append]
    exact ⟨Stmt.isLine_of_mem_lines s hcode.1, Code.isLine_of_mem_lines code hcode.2⟩

end

theorem Code.textLines_text {code : Code} (h : code.isPlain) : textLines code.text = code.lines :=
  textLines_unlines (Code.isLine_of_mem_lines code h)

theorem Code.deeper_text {code : Code} (h : code.isPlain) (levels : Nat) :
    deeper levels code.text = unlines (code.lines.map (blanks levels ++ ·)) := by
  rw [deeper, Code.textLines_text h]

end KernelGen
