import KernelGen.Program.Basic

/-! # Emitted code

Imperative code: an ordered list of statements. A kernel is a statement too. It holds the
code that each of its threads runs, and the transfers that are to be made before its
launch and after its end.

What emitted code computes with scalars are operands and operators, nested. An operand is
an expression, and so is a size (`Expr.ofSize`): its sums and products become
applications. -/
namespace KernelGen

/-! ## Scalar expressions -/

/-- A scalar expression. -/
inductive Expr where
  | const (c : Const)
  | var (name : Name)
  | apply (op : Operator) (lhs rhs : Expr)
deriving DecidableEq

namespace Expr

/-- An operand as an expression. -/
def ofOperand : Operand → Expr
  | .const c => const c
  | .var x => var x

/-- A size as an expression, node by node. -/
def ofSize : Size → Expr
  | .const n => const (.int n)
  | .var x => var x
  | .add a b => apply .add (ofSize a) (ofSize b)
  | .mul a b => apply .mul (ofSize a) (ofSize b)

/-- Every application stands in parentheses. -/
def text : Expr → String
  | const c => c.text
  | var x => x.text
  | apply op lhs rhs => "(" ++ lhs.text ++ " " ++ op.text ++ " " ++ rhs.text ++ ")"

/-- A constant of the expression differs from itself. -/
def hasNaN : Expr → Bool
  | const c => c.isNaN
  | var _ => false
  | apply _ lhs rhs => lhs.hasNaN || rhs.hasNaN

end Expr

/-! ## Statements -/

/-- Something moved between host and device around a launch. -/
inductive Transfer where
  /-- A whole block of `size` elements. -/
  | block (name : Name) (size : Size)
  /-- One scalar variable. -/
  | scalar (name : Name) (ty : Ty)

mutual

/-- A program that is run once per thread. -/
structure Kernel where
  /-- Holds the number of the running thread inside `body`. -/
  threadIndex : Name
  /-- How many threads there are; they are numbered from zero. -/
  threadCount : Size
  /-- Made before the launch, in order. -/
  copyIn : List Transfer
  /-- Made after the last thread has ended, in order. -/
  copyOut : List Transfer
  body : List Stmt

/-- A statement of emitted code. -/
inductive Stmt where
  | declareScalar (name : Name) (ty : Ty)
  | declareBlock (name : Name) (space : Space)
  | allocate (block : Name) (size : Size) (space : Space)
  | set (name : Name) (value : Expr)
  /-- Load the element of type `element` at position `index` of the block. -/
  | read (dest block : Name) (index : Size) (element : Ty) (space : Space)
  /-- Store an element of type `element` at position `index` of the block. -/
  | write (block : Name) (index : Size) (element : Ty) (space : Space) (value : Expr)
  | branch (cond : Expr) (yes no : List Stmt)
  /-- Run the code for `counter = 0, …, bound - 1`. -/
  | loop (counter : Name) (bound : Expr) (body : List Stmt)
  | kernel (k : Kernel)

end

/-- Statements in order. -/
abbrev Code := List Stmt

mutual

/-- The kernels of a statement: the statement itself, or those in its branches and loops.
What the threads of a kernel run is not looked at. -/
def Stmt.kernels : Stmt → List Kernel
  | .branch _ yes no => Code.kernels yes ++ Code.kernels no
  | .loop _ _ body => Code.kernels body
  | .kernel k => [k]
  | .declareScalar .. | .declareBlock .. | .allocate .. | .set .. | .read .. | .write .. => []

/-- The kernels of the statements, in order. -/
def Code.kernels : Code → List Kernel
  | [] => []
  | s :: code => s.kernels ++ Code.kernels code

end

/-! ## Comparing code

Constants are compared as numbers, and one that is no number differs from itself. -/

mutual

/-- A kernel's body has a constant that differs from itself. -/
def Kernel.hasNaN : Kernel → Bool
  | ⟨_, _, _, _, body⟩ => Code.hasNaN body

/-- A statement has a constant that differs from itself. -/
def Stmt.hasNaN : Stmt → Bool
  | .set _ value | .write _ _ _ _ value => value.hasNaN
  | .branch cond yes no => cond.hasNaN || Code.hasNaN yes || Code.hasNaN no
  | .loop _ bound body => bound.hasNaN || Code.hasNaN body
  | .kernel k => k.hasNaN
  | .declareScalar .. | .declareBlock .. | .allocate .. | .read .. => false

/-- Some statement has a constant that differs from itself. -/
def Code.hasNaN : Code → Bool
  | [] => false
  | s :: code => s.hasNaN || Code.hasNaN code

end

/-- Code is equal to a copy of itself unless it has a constant that is no number. -/
def Code.equalsCopy (code : Code) : Bool := !code.hasNaN

end KernelGen
