import KernelGen.Proofs.Code.Contents

/-! # Where kernels stand

`Code.kernels` collects the kernels outside of kernels and forgets where they stand.
`Code.launches` keeps that: with each kernel the statements in front of it in its own
list, be it the whole program, one side of a branch or the body of a loop.

Two further lists look into kernels as well: all statements (`Code.statements`) and the
names that are assigned or bound (`Code.assigned`). -/
namespace KernelGen

mutual

/-- The kernels of a statement, each with what stands in front of it. -/
def Stmt.launches (before : Code) : Stmt → List (Code × Kernel)
  | .branch _ yes no => Code.launches [] yes ++ Code.launches [] no
  | .loop _ _ body => Code.launches [] body
  | .kernel k => [(before, k)]
  | .declareScalar .. | .declareBlock .. | .allocate .. | .set .. | .read .. | .write .. => []

/-- The kernels of statements that stand behind others, each with what is in front of it. -/
def Code.launches (before : Code) : List Stmt → List (Code × Kernel)
  | [] => []
  | s :: code => s.launches before ++ Code.launches (before ++ [s]) code

end

namespace Code

theorem launches_append (before code code' : Code) :
    Code.launches before (code ++ code') =
      Code.launches before code ++ Code.launches (before ++ code) code' := by
  induction code generalizing before with
  | nil => rw [List.nil_append, launches, List.nil_append, List.append_nil]
  | cons s code ih =>
    rw [List.cons_append, launches, launches, ih, List.append_assoc, List.append_assoc]
    rfl

theorem kernels_append (code code' : Code) :
    Code.kernels (code ++ code') = Code.kernels code ++ Code.kernels code' := by
  induction code with
  | nil => rfl
  | cons s code ih => rw [List.cons_append, kernels, kernels, ih, List.append_assoc]

end Code

mutual

/-- **No kernel is missed**: those with their places are those that are collected. -/
theorem Code.map_snd_launches (before code : Code) :
    (Code.launches before code).map Prod.snd = Code.kernels code := by
  match code with
  | [] => rfl
  | s :: code =>
    rw [Code.launches, Code.kernels, List.map_append, Stmt.map_snd_launches before s,
      Code.map_snd_launches _ code]

theorem Stmt.map_snd_launches (before : Code) (s : Stmt) :
    (s.launches before).map Prod.snd = s.kernels := by
  match s with
  | .branch _ yes no =>
    rw [Stmt.launches, Stmt.kernels, List.map_append, Code.map_snd_launches [] yes,
      Code.map_snd_launches [] no]
  | .loop _ _ body => exact Code.map_snd_launches [] body
  | .kernel k => rfl
  | .declareScalar .. | .declareBlock .. | .allocate .. | .set .. | .read .. | .write .. => rfl

end

/-- Without kernels there is no place for one. -/
theorem Code.launches_eq_nil {code : Code} (h : Code.kernels code = []) (before : Code) :
    Code.launches before code = [] := by
  rwa [← List.map_eq_nil_iff (f := Prod.snd), Code.map_snd_launches]

/-- The name that the statement assigns or binds, outside of nested code. -/
def Stmt.ownAssigned : Stmt → List Name
  | .declareScalar x _ | .declareBlock x _ | .allocate x _ _ | .set x _ | .read x _ _ _ _
  | .loop x _ _ => [x]
  | .kernel k => [k.threadIndex]
  | .write .. | .branch .. => []

namespace Code

/-- All statements, at any depth. -/
abbrev statements (code : Code) : List Stmt := Code.gather (fun s => [s]) code

/-- The names that are assigned or bound, at any depth: variables that are declared, set or
loaded into, blocks, counters, and thread indices. -/
abbrev assigned (code : Code) : List Name := Code.gather Stmt.ownAssigned code

end Code

/-- The statement is a kernel, or makes a block: what no thread does. -/
def Stmt.HostOnly : Stmt → Prop
  | .kernel _ | .allocate .. | .declareBlock .. => True
  | .declareScalar .. | .set .. | .read .. | .write .. | .branch .. | .loop .. => False

end KernelGen
