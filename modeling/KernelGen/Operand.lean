import KernelGen.Decimal
import KernelGen.Size

/-! # Operands

The atoms of a program: constants and variables, and the operators between them. -/
namespace KernelGen

/-- A constant. -/
inductive Const where
  | int (n : Int64)
  | float (x : Binary64)
  | bool (b : Bool)
deriving DecidableEq

/-- A constant or a variable. -/
inductive Operand where
  | const (c : Const)
  | var (name : Name)
deriving DecidableEq

/-- A binary operator on scalars. -/
inductive Operator where
  | add
  | sub
  | mul
  | div
  | lt
  | eq
deriving DecidableEq

namespace Const

/-- Numbers are written in full while the first digit stands between the fourth place
behind the point and the sixteenth before it, and with a bare power of ten outside. -/
def floatStyle : Decimal.Style where
  lowest := -4
  highest := 15
  exponentMark := "e"
  nan := "NaN"
  infinity := "inf"

/-- How a constant is written. -/
def text : Const → String
  | int n => n.toInt.repr
  | float x => floatStyle.text x
  | bool true => "true"
  | bool false => "false"

/-- The constant differs from itself when the two are compared as numbers. -/
def isNaN : Const → Bool
  | float x => x.isNaN
  | int _ | bool _ => false

end Const

namespace Operand

/-- The variable, if the operand is one. -/
def name? : Operand → Option Name
  | var x => some x
  | const _ => none

/-- The operand as a size: an integer or a variable is one, any other constant is not. -/
def size? : Operand → Option Size
  | const (.int n) => some (.const n)
  | const (.float _) | const (.bool _) => none
  | var x => some (.var x)

/-- The variables read: one or none. -/
def occurrences (a : Operand) : List Name := a.name?.toList

/-- How an operand is written. -/
def text : Operand → String
  | const c => c.text
  | var x => x.text

end Operand

/-- How an operator is written. -/
def Operator.text : Operator → String
  | add => "+"
  | sub => "-"
  | mul => "*"
  | div => "/"
  | lt => "<"
  | eq => "=="

end KernelGen
