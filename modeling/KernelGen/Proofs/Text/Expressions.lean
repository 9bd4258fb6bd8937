import KernelGen.Proofs.Text.Sizes

/-! # What is written determines what is meant

An application is written in parentheses, so that the text of an expression shows its
structure: it can be split off the front of a longer text, and in one way only
(`Expr.eq_of_append`).  Texts of sizes show less, but all that matters for the value.
Both are stated together in `scalar_texts_faithful`. -/
namespace KernelGen

theorem Operator.eq_of_text {op op' : Operator} (h : op.text = op'.text) : op = op' := by
  cases op <;> cases op' <;> first | rfl | exact absurd h (by decide)

theorem Operator.all_text (op : Operator) : op.text.toList.all (· != ' ') := by
  cases op <;> decide

namespace Expr

/-- No floating-point number, and no name with an unusual character. -/
def isPlain : Expr → Bool
  | const c => c.isPlain
  | var x => x.isPlain
  | apply _ lhs rhs => lhs.isPlain && rhs.isPlain

theorem toList_text_apply (op : Operator) (lhs rhs : Expr) (rest : List Char) :
    (apply op lhs rhs).text.toList ++ rest = '(' :: (lhs.text.toList ++
      ' ' :: (op.text.toList ++ ' ' :: (rhs.text.toList ++ ')' :: rest))) := by
  simp [text]

theorem all_scalarChar_text {e : Expr} (he : e.isPlain) : e.text.toList.all scalarChar := by
  induction e with
  | const c => exact Operand.all_scalarChar_text (a := .const c) he
  | var x => exact Operand.all_scalarChar_text (a := .var x) he
  | apply op lhs rhs ihl ihr =>
    rw [isPlain, Bool.and_eq_true] at he
    have hop : op.text.toList.all scalarChar := by cases op <;> decide
    simp +decide only [text, String.toList_append, List.all_append, ihl he.1, ihr he.2, hop]

variable {rest rest' : List Char}

/-- An operand does not begin like an application. -/
theorem text_operand_ne_apply {a : Operand} (ha : a.isPlain) {op : Operator} {lhs rhs : Expr} :
    a.text.toList ++ rest ≠ (apply op lhs rhs).text.toList ++ rest' := by
  intro h
  rw [toList_text_apply] at h
  have hchars := Operand.all_atomChar_text ha
  cases hlist : a.text.toList with
  | nil => exact Operand.text_ne_nil ha hlist
  | cons c cs =>
    rw [hlist, List.cons_append, List.cons.injEq] at h
    rw [hlist, List.all_cons, h.1] at hchars
    simp +decide at hchars

/-- An operand in front of a longer text. -/
theorem eq_of_append_operand {a : Operand} {e : Expr}
    (h : a.text.toList ++ rest = e.text.toList ++ rest') (ha : a.isPlain) (he : e.isPlain)
    (hr : Stops atomChar rest) (hr' : Stops atomChar rest') : ofOperand a = e ∧ rest = rest' := by
  have hoperand (b : Operand) (hb : b.isPlain)
      (h : a.text.toList ++ rest = b.text.toList ++ rest') : a = b ∧ rest = rest' := by
    obtain ⟨htext, hrest⟩ :=
      KernelGen.eq_of_append h (Operand.all_atomChar_text ha) (Operand.all_atomChar_text hb) hr hr'
    exact ⟨Operand.eq_of_text ha hb (String.toList_inj.mp htext), hrest⟩
  match e with
  | const c =>
    obtain ⟨rfl, hrest⟩ := hoperand (.const c) he h
    exact ⟨rfl, hrest⟩
  | var x =>
    obtain ⟨rfl, hrest⟩ := hoperand (.var x) he h
    exact ⟨rfl, hrest⟩
  | apply op lhs rhs => exact absurd h (text_operand_ne_apply ha)

/-- **An expression is split off the front of a text in one way.** -/
theorem eq_of_append {e e' : Expr} (h : e.text.toList ++ rest = e'.text.toList ++ rest')
    (he : e.isPlain) (he' : e'.isPlain) (hr : Stops atomChar rest) (hr' : Stops atomChar rest') :
    e = e' ∧ rest = rest' := by
  induction e generalizing e' rest rest' with
  | const c => exact eq_of_append_operand (a := .const c) h he he' hr hr'
  | var x => exact eq_of_append_operand (a := .var x) h he he' hr hr'
  | apply op lhs rhs ihl ihr =>
    match e' with
    | const d => exact absurd h.symm (text_operand_ne_apply (a := .const d) he')
    | var y => exact absurd h.symm (text_operand_ne_apply (a := .var y) he')
    | apply op' lhs' rhs' =>
      simp only [isPlain, Bool.and_eq_true] at he he'
      rw [toList_text_apply, toList_text_apply, List.cons.injEq] at h
      -- Each part ends where a blank or a parenthesis follows.
      have hblank {rest : List Char} : Stops atomChar (' ' :: rest) := stops_cons.mpr (by decide)
      have hparen {rest : List Char} : Stops atomChar (')' :: rest) := stops_cons.mpr (by decide)
      obtain ⟨rfl, hop⟩ := ihl h.2 he.1 he'.1 hblank hblank
      rw [List.cons.injEq] at hop
      obtain ⟨htext, hright⟩ := KernelGen.eq_of_append hop.2 op.all_text op'.all_text
        (by simp) (by simp)
      obtain rfl := Operator.eq_of_text (String.toList_inj.mp htext)
      rw [List.cons.injEq] at hright
      obtain ⟨rfl, hclose⟩ := ihr hright.2 he.2 he'.2 hparen hparen
      rw [List.cons.injEq] at hclose
      exact ⟨rfl, hclose.2⟩

theorem eq_of_text {e e' : Expr} (h : e.text = e'.text) (he : e.isPlain) (he' : e'.isPlain) :
    e = e' := by
  have hlist : e.text.toList ++ [] = e'.text.toList ++ [] := by rw [h]
  exact (eq_of_append hlist he he' stops_nil stops_nil).1

/-- A size is found again in the expression that it becomes. -/
theorem ofSize_injective {a b : Size} (h : ofSize a = ofSize b) : a = b := by
  induction a generalizing b with
  | const n => cases b <;> simp_all [ofSize]
  | var x => cases b <;> simp_all [ofSize]
  | add a₁ a₂ ih₁ ih₂ =>
    cases b <;> simp only [ofSize, reduceCtorEq, apply.injEq, true_and, false_and] at h
    rw [ih₁ h.1, ih₂ h.2]
  | mul a₁ a₂ ih₁ ih₂ =>
    cases b <;> simp only [ofSize, reduceCtorEq, apply.injEq, true_and, false_and] at h
    rw [ih₁ h.1, ih₂ h.2]

theorem isPlain_ofSize (s : Size) : (ofSize s).isPlain = s.isPlain := by
  induction s with
  | const n | var x => rfl
  | add a b iha ihb | mul a b iha ihb => rw [ofSize, isPlain, iha, ihb, Size.isPlain]

end Expr

/-- **What is written determines what is meant.**  Sizes that are written alike have the same
value, whatever the values of the variables, though their sums and products may be nested in
different ways.  Expressions that are written alike are equal, and so are sizes that are
written alike as expressions. -/
theorem scalar_texts_faithful :
    (∀ a b : Size, a.isPlain → b.isPlain → a.text = b.text →
      ∀ env : Name → Int, a.value env = b.value env) ∧
    (∀ e e' : Expr, e.isPlain → e'.isPlain → e.text = e'.text → e = e') ∧
    (∀ a b : Size, a.isPlain → b.isPlain →
      (Expr.ofSize a).text = (Expr.ofSize b).text → a = b) := by
  refine ⟨fun a b ha hb h env => ?_, fun e e' he he' h => Expr.eq_of_text h he he',
    fun a b ha hb h => Expr.ofSize_injective ?_⟩
  · calc
      a.value env = Size.valueOfText env a.text := (Size.valueOfText_text env ha).symm
      _ = Size.valueOfText env b.text := by rw [h]
      _ = b.value env := Size.valueOfText_text env hb
  · refine Expr.eq_of_text h ?_ ?_
    · rw [Expr.isPlain_ofSize, ha]
    · rw [Expr.isPlain_ofSize, hb]

theorem scalar_texts_faithful_regrouped :
    (Size.add (.var ⟨"n_1", 2⟩) (.add (.mul (.const (-3)) (.var ⟨"_4", 5⟩)) (.const 6))).value
        (fun x => x.tag) =
      (Size.add (.add (.var ⟨"n_1", 2⟩) (.mul (.const (-3)) (.var ⟨"_4", 5⟩))) (.const 6)).value
        (fun x => x.tag) ∧
    Expr.apply .sub (.var ⟨"true", 0⟩) (.const (.bool true)) =
      .apply .sub (.var ⟨"true", 0⟩) (.const (.bool true)) ∧
    Size.mul (.add (.const 1) (.const (-1))) (.var ⟨"", 7⟩) =
      .mul (.add (.const 1) (.const (-1))) (.var ⟨"", 7⟩) :=
  ⟨scalar_texts_faithful.1 _ _ (by decide) (by decide) (by decide) _,
    scalar_texts_faithful.2.1 _ _ (by decide) (by decide) rfl,
    scalar_texts_faithful.2.2 _ _ (by decide) (by decide) rfl⟩

end KernelGen
