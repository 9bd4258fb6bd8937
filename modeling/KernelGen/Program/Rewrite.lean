import KernelGen.Program.Basic

/-! # Rewriting placements and operands

`rewrite f g` replaces every placement of a program by its image under `f` and every
operand by its image under `g`, at any depth, and leaves all else alone: names, types,
operators, sizes of allocations, the arrays that are indexed or mapped over, counters,
and every order. -/
namespace KernelGen

/-- A binder with its placement, if it has one, replaced by its image. -/
def Binder.rewrite (f : Placement → Placement) (b : Binder) : Binder :=
  { b with placement := b.placement.map f }

variable (f : Placement → Placement) (g : Operand → Operand)

mutual

/-- The body with placements and operands replaced. -/
def Body.rewrite : Body → Body
  | ⟨stms, result⟩ => ⟨Stm.rewriteAll stms, result.map g⟩

/-- The lambda with placements and operands replaced. -/
def Lambda.rewrite : Lambda → Lambda
  | ⟨params, body, ret⟩ => ⟨params.map (Binder.rewrite f), Body.rewrite body, ret⟩

/-- The statements with placements and operands replaced. -/
def Stm.rewriteAll : List Stm → List Stm
  | [] => []
  | stm :: stms => Stm.rewrite stm :: Stm.rewriteAll stms

/-- The statement with placements and operands replaced. -/
def Stm.rewrite : Stm → Stm
  | ⟨pat, exp⟩ => ⟨pat.map (Binder.rewrite f), Exp.rewrite exp⟩

/-- The expression with placements and operands replaced. -/
def Exp.rewrite : Exp → Exp
  | .operand a => .operand (g a)
  | .apply op lhs rhs => .apply op (g lhs) (g rhs)
  | .index array indices => .index array (indices.map g)
  | .update array indices value => .update array (indices.map g) (g value)
  | .alloc size space => .alloc size space
  | .scratch element shape => .scratch element (shape.map g)
  | .branch cond yes no => .branch (g cond) (Body.rewrite yes) (Body.rewrite no)
  | .loop carried counter bound body =>
    .loop (carried.map fun (b, init) => (b.rewrite f, g init)) counter (g bound) (Body.rewrite body)
  | .map lam inputs => .map (Lambda.rewrite lam) inputs

end

end KernelGen
