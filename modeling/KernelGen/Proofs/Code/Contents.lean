import KernelGen.Code.Basic

/-! # What stands in a piece of code

`Code.gather` lists what single statements contribute, at any depth: in branches, in the
bodies of loops and in the bodies of kernels.  Three lists are used of it: the variables
that are read (`Code.reads`), the variables that are declared, loop counters included
(`Code.declared`), and the blocks whose elements are read or written
(`Code.accessed`). -/
namespace KernelGen

/-- The variables of an expression, in order, each as often as it is read. -/
def Expr.occurrences : Expr → List Name
  | const _ => []
  | var x => [x]
  | apply _ lhs rhs => lhs.occurrences ++ rhs.occurrences

namespace Expr

theorem occurrences_ofOperand (a : Operand) : (ofOperand a).occurrences = a.occurrences := by
  cases a <;> rfl

theorem occurrences_ofSize (s : Size) : (ofSize s).occurrences = s.occurrences := by
  induction s with
  | const n | var x => rfl
  | add a b iha ihb | mul a b iha ihb => rw [ofSize, occurrences, iha, ihb]; rfl

end Expr

section
variable {α : Type} (own : Stmt → List α)

mutual

/-- What the kernel's body contributes. -/
def Kernel.gather : Kernel → List α
  | ⟨_, _, _, _, body⟩ => Code.gather body

/-- What the statement contributes itself, and what stands inside it. -/
def Stmt.gather : Stmt → List α
  | .branch e yes no => own (.branch e yes no) ++ (Code.gather yes ++ Code.gather no)
  | .loop x e body => own (.loop x e body) ++ Code.gather body
  | .kernel k => own (.kernel k) ++ Kernel.gather k
  | .declareScalar x ty => own (.declareScalar x ty)
  | .declareBlock x space => own (.declareBlock x space)
  | .allocate x size space => own (.allocate x size space)
  | .set x e => own (.set x e)
  | .read x b i ty space => own (.read x b i ty space)
  | .write b i ty space e => own (.write b i ty space e)

/-- What the statements contribute, in order. -/
def Code.gather : List Stmt → List α
  | [] => []
  | s :: code => Stmt.gather s ++ Code.gather code

end

theorem Code.gather_append (code code' : Code) :
    Code.gather own (code ++ code') = Code.gather own code ++ Code.gather own code' := by
  induction code with
  | nil => rfl
  | cons s code ih => rw [List.cons_append, gather, gather, ih, List.append_assoc]

theorem Code.mem_gather_iff {code : Code} {a : α} :
    a ∈ Code.gather own code ↔ ∃ s ∈ code, a ∈ s.gather own := by
  induction code with
  | nil => simp [gather]
  | cons s code ih => simp [gather, ih]

end

/-- The variables read by the statement outside of nested code. -/
def Stmt.ownReads : Stmt → List Name
  | .set _ e | .branch e _ _ | .loop _ e _ => e.occurrences
  | .read _ _ i _ _ => i.occurrences
  | .write _ i _ _ e => i.occurrences ++ e.occurrences
  | .declareScalar .. | .declareBlock .. | .allocate .. | .kernel _ => []

/-- The variable that the statement declares. -/
def Stmt.ownDeclared : Stmt → List Name
  | .declareScalar x _ | .loop x _ _ => [x]
  | .declareBlock .. | .allocate .. | .set .. | .read .. | .write .. | .branch .. | .kernel _ => []

/-- The block of which the statement reads or writes an element. -/
def Stmt.ownAccessed : Stmt → List Name
  | .read _ b _ _ _ | .write b _ _ _ _ => [b]
  | .declareScalar .. | .declareBlock .. | .allocate .. | .set .. | .branch .. | .loop ..
  | .kernel _ => []

namespace Code

/-- The variables read: by assignments, conditions, bounds and written values, and in the
positions of accesses. -/
abbrev reads (code : Code) : List Name := Code.gather Stmt.ownReads code

/-- The variables declared, and the counters of loops. -/
abbrev declared (code : Code) : List Name := Code.gather Stmt.ownDeclared code

/-- The blocks of which elements are read or written. -/
abbrev accessed (code : Code) : List Name := Code.gather Stmt.ownAccessed code

end Code

end KernelGen
