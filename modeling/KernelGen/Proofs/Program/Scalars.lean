import KernelGen.Program.Names
import KernelGen.Program.Rewrite

/-! # Scalars and heads

Two more walks over a program.  `Stm.scalars` lists the names that compilation declares
as scalars when maps become loops: parameters, counters, and whatever a pattern or a loop
binds without a place in memory.  `Stm.heads` lists the first inputs of the maps, whose
extents become bounds of loops.  Neither depends on where arrays are placed. -/
namespace KernelGen

/-- The name, if it is no array's. -/
def Binder.scalars (b : Binder) : List Name := if b.placement.isNone then [b.name] else []

mutual

/-- The scalars that the statements declare, in order. -/
def Stm.scalarsAll : List Stm → List Name
  | [] => []
  | stm :: stms => stm.scalars ++ Stm.scalarsAll stms

/-- The scalars that the statement declares, in order.  An allocation declares a block. -/
def Stm.scalars : Stm → List Name
  | ⟨_, .alloc _ _⟩ => []
  | ⟨pat, exp⟩ => pat.flatMap Binder.scalars ++ exp.scalars

/-- The scalars that are declared inside an expression, in order. -/
def Exp.scalars : Exp → List Name
  | .operand _ | .apply .. | .index .. | .update .. | .alloc .. | .scratch .. => []
  | .branch _ ⟨yes, _⟩ ⟨no, _⟩ => Stm.scalarsAll yes ++ Stm.scalarsAll no
  | .loop carried counter _ ⟨stms, _⟩ =>
    carried.flatMap (·.1.scalars) ++ counter :: Stm.scalarsAll stms
  | .map ⟨params, ⟨stms, _⟩, _⟩ _ => params.map Binder.name ++ Stm.scalarsAll stms

end

/-- The parameters of a lambda, and the scalars that its body declares. -/
def Lambda.scalars (f : Lambda) : List Name :=
  f.params.map Binder.name ++ Stm.scalarsAll f.body.stms

mutual

/-- The first inputs of the maps among the statements, at any depth. -/
def Stm.headsAll : List Stm → List Name
  | [] => []
  | stm :: stms => stm.heads ++ Stm.headsAll stms

/-- The first inputs of the maps in a statement, at any depth. -/
def Stm.heads : Stm → List Name
  | ⟨_, exp⟩ => exp.heads

/-- The first inputs of the maps in an expression, at any depth. -/
def Exp.heads : Exp → List Name
  | .operand _ | .apply .. | .index .. | .update .. | .alloc .. | .scratch .. => []
  | .branch _ ⟨yes, _⟩ ⟨no, _⟩ => Stm.headsAll yes ++ Stm.headsAll no
  | .loop _ _ _ ⟨stms, _⟩ => Stm.headsAll stms
  | .map ⟨_, ⟨stms, _⟩, _⟩ inputs => inputs.head?.toList ++ Stm.headsAll stms

end

/-- The first inputs of the maps in the body of a lambda, at any depth. -/
def Lambda.heads (f : Lambda) : List Name := Stm.headsAll f.body.stms

/-! ## Rewritten programs -/

section
variable (f : Placement → Placement) (g : Operand → Operand)

theorem Binder.scalars_rewrite (b : Binder) : (b.rewrite f).scalars = b.scalars := by
  rcases b with ⟨x, ty, _ | p⟩ <;> rfl

mutual

theorem Stm.scalarsAll_rewrite (stms : List Stm) :
    Stm.scalarsAll (Stm.rewriteAll f g stms) = Stm.scalarsAll stms := by
  match stms with
  | [] => rfl
  | stm :: stms =>
    rw [Stm.rewriteAll, Stm.scalarsAll, Stm.scalarsAll, Stm.scalars_rewrite stm,
      Stm.scalarsAll_rewrite stms]

theorem Stm.scalars_rewrite (stm : Stm) : (stm.rewrite f g).scalars = stm.scalars := by
  match stm with
  | ⟨pat, exp⟩ =>
    have hpat : (pat.map (Binder.rewrite f)).flatMap Binder.scalars =
        pat.flatMap Binder.scalars := by
      simp [List.flatMap_map, Binder.scalars_rewrite]
    have hboth : (pat.map (Binder.rewrite f)).flatMap Binder.scalars ++ (exp.rewrite f g).scalars =
        pat.flatMap Binder.scalars ++ exp.scalars := by
      rw [hpat, Exp.scalars_rewrite exp]
    -- An allocation declares nothing, whatever its pattern.
    cases exp with
    | alloc size space => rfl
    | _ => exact hboth

theorem Exp.scalars_rewrite (e : Exp) : (e.rewrite f g).scalars = e.scalars := by
  match e with
  | .operand a | .apply op lhs rhs | .index array indices | .update array indices value
  | .alloc size space | .scratch element shape => rfl
  | .branch cond ⟨yes, yesResult⟩ ⟨no, noResult⟩ =>
    simp only [Exp.rewrite, Body.rewrite, Exp.scalars, Stm.scalarsAll_rewrite]
  | .loop carried counter bound ⟨stms, result⟩ =>
    simp only [Exp.rewrite, Body.rewrite, Exp.scalars, Stm.scalarsAll_rewrite, List.flatMap_map,
      Binder.scalars_rewrite]
  | .map ⟨params, ⟨stms, result⟩, ret⟩ inputs =>
    simp only [Exp.rewrite, Lambda.rewrite, Body.rewrite, Exp.scalars, Stm.scalarsAll_rewrite,
      List.map_map]
    rfl

end

mutual

theorem Stm.headsAll_rewrite (stms : List Stm) :
    Stm.headsAll (Stm.rewriteAll f g stms) = Stm.headsAll stms := by
  match stms with
  | [] => rfl
  | stm :: stms =>
    rw [Stm.rewriteAll, Stm.headsAll, Stm.headsAll, Stm.heads_rewrite stm,
      Stm.headsAll_rewrite stms]

theorem Stm.heads_rewrite (stm : Stm) : (stm.rewrite f g).heads = stm.heads := by
  match stm with
  | ⟨pat, exp⟩ => exact Exp.heads_rewrite exp

theorem Exp.heads_rewrite (e : Exp) : (e.rewrite f g).heads = e.heads := by
  match e with
  | .operand a | .apply op lhs rhs | .index array indices | .update array indices value
  | .alloc size space | .scratch element shape => rfl
  | .branch cond ⟨yes, yesResult⟩ ⟨no, noResult⟩ =>
    simp only [Exp.rewrite, Body.rewrite, Exp.heads, Stm.headsAll_rewrite]
  | .loop carried counter bound ⟨stms, result⟩ =>
    simp only [Exp.rewrite, Body.rewrite, Exp.heads, Stm.headsAll_rewrite]
  | .map ⟨params, ⟨stms, result⟩, ret⟩ inputs =>
    simp only [Exp.rewrite, Lambda.rewrite, Body.rewrite, Exp.heads, Stm.headsAll_rewrite]

end

end

end KernelGen
