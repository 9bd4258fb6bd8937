import KernelGen.Program.Basic

/-! # Walking a program with effects

`Body.traverse` and `Lambda.traverse` walk a program in the order of its text and act
on what they meet. On arriving at a part of the program they announce it (`Site`); a
placement and an operand they replace by what the action returns. The order is: a
statement's binders before its expression; operands in the order of the fields of their
expression; of what a loop carries, each binder before its initial value, then the
bound, then the body; the branch taken before the other; parameters before the body;
statements before results. -/
namespace KernelGen

/-- A part of a program at which a walk arrives. -/
inductive Site where
  | body
  | stm
  | pattern
  | bound (name : Name)
  | param (name : Name)
  /-- A value that a loop carries, before its binder. -/
  | carried (name : Name)
  | exp (form : String)
  | loop (counter : Name)
  | lambda

/-- What a walk does where it comes along. -/
structure Action (m : Type → Type) where
  /-- On arriving at a part of the program. -/
  enter : Site → m Unit
  /-- At a placement: what stands there afterwards. -/
  placement : Placement → m Placement
  /-- At an operand: what stands there afterwards. -/
  operand : Operand → m Operand

variable {m : Type → Type} [Monad m] (act : Action m)

/-- A binder with its placement, if it has one, acted on. -/
def Binder.traverse (b : Binder) : m Binder :=
  match b.placement with
  | none => pure b
  | some p => do return { b with placement := some (← act.placement p) }

/-- A binder of a pattern. -/
def Binder.traverseBound (b : Binder) : m Binder := do
  act.enter (.bound b.name)
  b.traverse act

/-- A parameter, of a lambda or of a loop. -/
def Binder.traverseParam (b : Binder) : m Binder := do
  act.enter (.param b.name)
  b.traverse act

/-- A value that a loop carries: the binder, then what it starts as. -/
def Binder.traverseCarried : Binder × Operand → m (Binder × Operand)
  | (b, init) => do
    act.enter (.carried b.name)
    let b ← b.traverseParam act
    let init ← act.operand init
    return (b, init)

mutual

/-- Walk a body: its statements, then its results. -/
def Body.traverse : Body → m Body
  | ⟨stms, result⟩ => do
    act.enter .body
    let stms ← Stm.traverseAll stms
    let result ← result.mapM act.operand
    return ⟨stms, result⟩

/-- Walk a lambda: its parameters, then its body. -/
def Lambda.traverse : Lambda → m Lambda
  | ⟨params, body, ret⟩ => do
    act.enter .lambda
    let params ← params.mapM (Binder.traverseParam act)
    let body ← Body.traverse body
    return ⟨params, body, ret⟩

/-- Walk statements one after the other. -/
def Stm.traverseAll : List Stm → m (List Stm)
  | [] => return []
  | stm :: stms => do
    let stm ← Stm.traverse stm
    let stms ← Stm.traverseAll stms
    return stm :: stms

/-- Walk a statement: its pattern, then its expression. -/
def Stm.traverse : Stm → m Stm
  | ⟨pat, exp⟩ => do
    act.enter .stm
    act.enter .pattern
    let pat ← pat.mapM (Binder.traverseBound act)
    act.enter (.exp exp.form)
    let exp ← Exp.traverse exp
    return ⟨pat, exp⟩

/-- Walk the parts of an expression. -/
def Exp.traverse : Exp → m Exp
  | .operand a => return .operand (← act.operand a)
  | .apply op lhs rhs => do
    let lhs ← act.operand lhs
    let rhs ← act.operand rhs
    return .apply op lhs rhs
  | .index array indices => return .index array (← indices.mapM act.operand)
  | .update array indices value => do
    let indices ← indices.mapM act.operand
    let value ← act.operand value
    return .update array indices value
  | .alloc size space => return .alloc size space
  | .scratch element shape => return .scratch element (← shape.mapM act.operand)
  | .branch cond yes no => do
    let cond ← act.operand cond
    let yes ← Body.traverse yes
    let no ← Body.traverse no
    return .branch cond yes no
  | .loop carried counter bound body => do
    act.enter (.loop counter)
    let carried ← carried.mapM (Binder.traverseCarried act)
    let bound ← act.operand bound
    let body ← Body.traverse body
    return .loop carried counter bound body
  | .map f inputs => do
    let f ← Lambda.traverse f
    return .map f inputs

end

end KernelGen
