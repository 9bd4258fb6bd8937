import KernelGen.Program.Basic

/-! # The names of a program

Two walks over a program list what it reads (`occurrences`) and what it binds
(`bindings`), both in the order of the text: a statement's binders before its
expression, the inputs of a map before its lambda, what a loop carries before its
counter, bound and body. The block and the variables of a placement are read where its
binder stands.

As every name is bound once, a name is free exactly when it is read but bound nowhere
inside (`Body.free`, `Lambda.free`). -/
namespace KernelGen

/-- The names read by a binder's placement. -/
def Binder.occurrences (b : Binder) : List Name :=
  match b.placement with
  | none => []
  | some p => p.block :: p.layout.occurrences

/-! ## Names that are read -/

mutual

/-- The names read in a body, in order, with repeats. -/
def Body.occurrences : Body → List Name
  | ⟨stms, result⟩ => Stm.occurrencesAll stms ++ result.flatMap Operand.occurrences

/-- The names read in a lambda, in order, with repeats. -/
def Lambda.occurrences : Lambda → List Name
  | ⟨params, body, _⟩ => params.flatMap Binder.occurrences ++ body.occurrences

/-- The names read in a list of statements, in order, with repeats. -/
def Stm.occurrencesAll : List Stm → List Name
  | [] => []
  | stm :: stms => stm.occurrences ++ Stm.occurrencesAll stms

/-- The names read in a statement, in order, with repeats. -/
def Stm.occurrences : Stm → List Name
  | ⟨pat, exp⟩ => pat.flatMap Binder.occurrences ++ exp.occurrences

/-- The names read in an expression, in order, with repeats. -/
def Exp.occurrences : Exp → List Name
  | .operand a => a.occurrences
  | .apply _ lhs rhs => lhs.occurrences ++ rhs.occurrences
  | .index array indices => array :: indices.flatMap Operand.occurrences
  | .update array indices value =>
    array :: (indices.flatMap Operand.occurrences ++ value.occurrences)
  | .alloc size _ => size.occurrences
  | .scratch _ shape => shape.flatMap Operand.occurrences
  | .branch cond yes no => cond.occurrences ++ (yes.occurrences ++ no.occurrences)
  | .loop carried _ bound body =>
    carried.flatMap (fun (b, init) => b.occurrences ++ init.occurrences) ++
      (bound.occurrences ++ body.occurrences)
  | .map f inputs => inputs ++ f.occurrences

end

/-! ## Names that are bound -/

mutual

/-- The names bound in a body, at any depth, in order. -/
def Body.bindings : Body → List Name
  | ⟨stms, _⟩ => Stm.bindingsAll stms

/-- The names bound by a lambda's parameters and in its body, in order. -/
def Lambda.bindings : Lambda → List Name
  | ⟨params, body, _⟩ => params.map Binder.name ++ body.bindings

/-- The names bound in a list of statements, at any depth, in order. -/
def Stm.bindingsAll : List Stm → List Name
  | [] => []
  | stm :: stms => stm.bindings ++ Stm.bindingsAll stms

/-- The names bound by a statement and inside its expression, in order. -/
def Stm.bindings : Stm → List Name
  | ⟨pat, exp⟩ => pat.map Binder.name ++ exp.bindings

/-- The names bound inside an expression, in order. -/
def Exp.bindings : Exp → List Name
  | .operand _ | .apply .. | .index .. | .update .. | .alloc .. | .scratch .. => []
  | .branch _ yes no => yes.bindings ++ no.bindings
  | .loop carried counter _ body => carried.map (·.1.name) ++ counter :: body.bindings
  | .map f _ => f.bindings

end

/-! ## Free and bound names -/

/-- The names read in a body and bound nowhere in it, in order of first use. -/
def Body.free (b : Body) : List Name := (b.occurrences.filter (· ∉ b.bindings)).eraseDups

/-- The names read in a lambda and bound nowhere in it, in order of first use. -/
def Lambda.free (f : Lambda) : List Name := (f.occurrences.filter (· ∉ f.bindings)).eraseDups

/-- The names bound by a lambda's parameters or in its body, in order of first binding. -/
def Lambda.bound (f : Lambda) : List Name := f.bindings.eraseDups

end KernelGen
