import KernelGen.Layout
import KernelGen.Operand
import KernelGen.Ty

/-! # Programs

The programs that are compiled: ordered statements that bind names to the results of
expressions, with arrays already placed in memory. A binder of an array carries a
`Placement`, the block the array lives in and its layout there; a binder of a scalar or
of a block handle carries none.

Callers promise that types were checked, that every name is bound once, and that blocks
come from allocations. None of it is enforced by the types below: what a broken promise
leads to is said where programs are compiled. -/
namespace KernelGen

/-- Where a block of memory is kept. -/
inductive Space where
  /-- Owned by the program that launches kernels. -/
  | host
  /-- Visible to every thread of a kernel. -/
  | global
deriving DecidableEq

/-- How a space is written. -/
def Space.text : Space → String
  | host => "host"
  | global => "global"

/-- Blocks are on the host unless said otherwise. -/
instance : Inhabited Space := ⟨.host⟩

/-- Where an array lives. -/
structure Placement where
  /-- The block that holds the elements. -/
  block : Name
  /-- Where in the block they are. -/
  layout : Layout
deriving DecidableEq

/-- A name that is bound: by a statement, as a parameter of a lambda, or as a value that a
loop carries along. -/
structure Binder where
  name : Name
  ty : Ty
  /-- Present for arrays. -/
  placement : Option Placement

mutual

/-- Statements, and the operands that are their result. -/
structure Body where
  stms : List Stm
  result : List Operand

/-- A function that is applied to every element of its input arrays. -/
structure Lambda where
  params : List Binder
  body : Body
  /-- The types of the results. -/
  ret : List Ty

/-- Names bound to the results of an expression. -/
structure Stm where
  pat : List Binder
  exp : Exp

/-- An expression. -/
inductive Exp where
  | operand (a : Operand)
  | apply (op : Operator) (lhs rhs : Operand)
  /-- Read one element. -/
  | index (array : Name) (indices : List Operand)
  /-- Write one element in place; the result is the array, where it was. -/
  | update (array : Name) (indices : List Operand) (value : Operand)
  /-- A new block of `size` elements. -/
  | alloc (size : Size) (space : Space)
  /-- An array with unspecified elements; its binder says where it lives. -/
  | scratch (element : Ty) (shape : List Operand)
  | branch (cond : Operand) (yes no : Body)
  /-- Run `body` for `counter = 0, …, bound - 1`. The carried values start as given and
  become the results of the body after every run. -/
  | loop (carried : List (Binder × Operand)) (counter : Name) (bound : Operand) (body : Body)
  /-- Apply the lambda element by element. -/
  | map (f : Lambda) (inputs : List Name)

end

namespace Exp

/-- The form of an expression, without its parts. -/
inductive Kind where
  | operand
  | apply
  | index
  | update
  | alloc
  | scratch
  | branch
  | loop
  | map
deriving DecidableEq

/-- The name of a form. -/
def Kind.text : Kind → String
  | operand => "subexp"
  | apply => "binop"
  | index => "index"
  | update => "update"
  | alloc => "alloc"
  | scratch => "scratch"
  | branch => "if"
  | loop => "loop"
  | map => "map"

/-- The form of the expression. -/
def kind : Exp → Kind
  | operand _ => .operand
  | apply .. => .apply
  | index .. => .index
  | update .. => .update
  | alloc .. => .alloc
  | scratch .. => .scratch
  | branch .. => .branch
  | loop .. => .loop
  | map .. => .map

/-- The name of the expression's form. -/
def form (e : Exp) : String := e.kind.text

end Exp

end KernelGen
