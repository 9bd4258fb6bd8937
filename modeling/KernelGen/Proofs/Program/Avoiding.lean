import KernelGen.Program.Rewrite

/-! # Programs without a form of expression

`Stm.AvoidsAll kind` says that no expression in the statements is of this form, at any
depth: in branches, in bodies of loops and in lambdas.  It can be computed.  Rewriting
leaves every form as it is (`Stm.avoidsAll_rewrite`). -/
namespace KernelGen

section
variable (kind : Exp.Kind)

mutual

/-- No expression of this form in the body. -/
def Body.Avoids : Body → Prop
  | ⟨stms, _⟩ => Stm.AvoidsAll stms

/-- No expression of this form in the statements, at any depth. -/
def Stm.AvoidsAll : List Stm → Prop
  | [] => True
  | stm :: stms => stm.Avoids ∧ Stm.AvoidsAll stms

/-- No expression of this form in the statement. -/
def Stm.Avoids : Stm → Prop
  | ⟨_, exp⟩ => exp.Avoids

/-- The expression is not of this form, and there is none inside. -/
def Exp.Avoids (e : Exp) : Prop :=
  e.kind ≠ kind ∧
    match e with
    | .branch _ yes no => yes.Avoids ∧ no.Avoids
    | .loop _ _ _ body => body.Avoids
    | .map ⟨_, body, _⟩ _ => body.Avoids
    | .operand _ | .apply .. | .index .. | .update .. | .alloc .. | .scratch .. => True

end

end

mutual

/-- Whether a form occurs can be computed. -/
def Stm.decidableAvoidsAll (kind : Exp.Kind) :
    (stms : List Stm) → Decidable (Stm.AvoidsAll kind stms)
  | [] => .isTrue trivial
  | stm :: stms =>
    let := Stm.decidableAvoids kind stm
    let := Stm.decidableAvoidsAll kind stms
    inferInstanceAs (Decidable (stm.Avoids kind ∧ Stm.AvoidsAll kind stms))

def Stm.decidableAvoids (kind : Exp.Kind) : (stm : Stm) → Decidable (stm.Avoids kind)
  | ⟨_, exp⟩ => Exp.decidableAvoids kind exp

def Exp.decidableAvoids (kind : Exp.Kind) : (e : Exp) → Decidable (e.Avoids kind)
  | .branch _ ⟨yes, _⟩ ⟨no, _⟩ =>
    let := Stm.decidableAvoidsAll kind yes
    let := Stm.decidableAvoidsAll kind no
    inferInstanceAs (Decidable (_ ≠ kind ∧ Stm.AvoidsAll kind yes ∧ Stm.AvoidsAll kind no))
  | .loop _ _ _ ⟨stms, _⟩ =>
    let := Stm.decidableAvoidsAll kind stms
    inferInstanceAs (Decidable (_ ≠ kind ∧ Stm.AvoidsAll kind stms))
  | .map ⟨_, ⟨stms, _⟩, _⟩ _ =>
    let := Stm.decidableAvoidsAll kind stms
    inferInstanceAs (Decidable (_ ≠ kind ∧ Stm.AvoidsAll kind stms))
  | .operand _ | .apply .. | .index .. | .update .. | .alloc .. | .scratch .. =>
    inferInstanceAs (Decidable (_ ≠ kind ∧ True))

end

instance (kind : Exp.Kind) (stms : List Stm) : Decidable (Stm.AvoidsAll kind stms) :=
  Stm.decidableAvoidsAll kind stms

theorem Stm.avoidsAll_iff {kind : Exp.Kind} {stms : List Stm} :
    Stm.AvoidsAll kind stms ↔ ∀ stm ∈ stms, stm.Avoids kind := by
  induction stms with
  | nil => exact ⟨fun _ => List.forall_mem_nil _, fun _ => trivial⟩
  | cons stm stms ih => rw [Stm.AvoidsAll, ih, List.forall_mem_cons]

section
variable (f : Placement → Placement) (g : Operand → Operand) (kind : Exp.Kind)

mutual

/-- **Rewriting keeps the forms.** -/
theorem Stm.avoidsAll_rewrite (stms : List Stm) :
    Stm.AvoidsAll kind (Stm.rewriteAll f g stms) ↔ Stm.AvoidsAll kind stms := by
  match stms with
  | [] => rfl
  | stm :: stms =>
    rw [Stm.rewriteAll, Stm.AvoidsAll, Stm.AvoidsAll, Stm.avoids_rewrite stm,
      Stm.avoidsAll_rewrite stms]

theorem Stm.avoids_rewrite (stm : Stm) : (stm.rewrite f g).Avoids kind ↔ stm.Avoids kind := by
  match stm with
  | ⟨pat, exp⟩ => rw [Stm.rewrite, Stm.Avoids, Stm.Avoids, Exp.avoids_rewrite exp]

theorem Exp.avoids_rewrite (e : Exp) : (e.rewrite f g).Avoids kind ↔ e.Avoids kind := by
  match e with
  | .operand _ | .apply .. | .index .. | .update .. | .alloc .. | .scratch .. => rfl
  | .branch cond ⟨yes, _⟩ ⟨no, _⟩ =>
    simp only [Exp.rewrite, Body.rewrite, Exp.Avoids, Body.Avoids, Exp.kind,
      Stm.avoidsAll_rewrite yes, Stm.avoidsAll_rewrite no]
  | .loop carried counter bound ⟨stms, result⟩ =>
    simp only [Exp.rewrite, Body.rewrite, Exp.Avoids, Body.Avoids, Exp.kind,
      Stm.avoidsAll_rewrite stms]
  | .map ⟨params, ⟨stms, result⟩, ret⟩ inputs =>
    simp only [Exp.rewrite, Lambda.rewrite, Body.rewrite, Exp.Avoids, Body.Avoids, Exp.kind,
      Stm.avoidsAll_rewrite stms]

end

end

end KernelGen
