/-! # Types of values

Types are terms: a head with arguments, or a type variable. An array type wraps the
type of its rows, so a matrix of `f32` is an array of arrays of `f32`. How long an array
is does not belong to its type; that is said by its layout (`KernelGen.Layout`).

A term need not make sense: any head may have any arguments. What is asked of a type
(`isScalar`, `rank`, `element`, …) is answered from the head, and for arrays from the
first argument. -/
namespace KernelGen

/-- The head of a type. -/
inductive TyHead where
  | bool
  /-- Signed integers of a width. -/
  | int (bits : Nat)
  /-- Unsigned integers of a width. -/
  | uint (bits : Nat)
  /-- Floating-point numbers of a width. -/
  | float (bits : Nat)
  /-- Arrays; the argument is the type of a row. -/
  | array
  /-- Handles of memory blocks. -/
  | mem
  /-- Functions; the arguments are the two sides of the arrow. -/
  | arrow
deriving DecidableEq

/-- A type. -/
inductive Ty where
  | var (id : Nat)
  | con (head : TyHead) (args : List Ty)

namespace TyHead

/-- How a head is written. -/
def text : TyHead → String
  | bool => "bool"
  | int bits => s!"i{bits}"
  | uint bits => s!"u{bits}"
  | float bits => s!"f{bits}"
  | array => "[]"
  | mem => "mem"
  | arrow => "->"

/-- Truth values and numbers. -/
def isScalar : TyHead → Bool
  | bool | int _ | uint _ | float _ => true
  | array | mem | arrow => false

end TyHead

namespace Ty

/-! ## Common types -/

/-- The type of counters and thread indices. -/
def i64 : Ty := con (.int 64) []

/-- The type of a block handle. -/
def mem : Ty := con .mem []

/-- Arrays whose rows have type `row`. -/
def array (row : Ty) : Ty := con .array [row]

/-- Functions from `a` to `b`. -/
def arrow (a b : Ty) : Ty := con .arrow [a, b]

/-- `element` under `rank` array heads. -/
def arrayOfRank (element : Ty) : Nat → Ty
  | 0 => element
  | rank + 1 => array (arrayOfRank element rank)

/-! ## Questions -/

/-- The head, unless the type is a variable. -/
def head? : Ty → Option TyHead
  | var _ => none
  | con head _ => some head

/-- The head is a truth value or a number, whatever the arguments. -/
def isScalar (t : Ty) : Bool := t.head?.any TyHead.isScalar

/-- The head is the array head, whatever the arguments. -/
def isArray (t : Ty) : Bool := t.head? == some .array

/-- The head is that of block handles, whatever the arguments. -/
def isMem (t : Ty) : Bool := t.head? == some .mem

/-- The type of a row: the first argument of an array. -/
def row? : Ty → Option Ty
  | con .array args => args.head?
  | _ => none

mutual

/-- How often a row can be taken. -/
def rank : Ty → Nat
  | con .array args => rankOfArgs args
  | _ => 0

/-- The rank of an array with these arguments. -/
def rankOfArgs : List Ty → Nat
  | [] => 0
  | row :: _ => row.rank + 1

end

mutual

/-- What is left when no further row can be taken. -/
def element : Ty → Ty
  | con .array args => elementOfArgs args
  | t => t

/-- The element of an array with these arguments. -/
def elementOfArgs : List Ty → Ty
  | [] => con .array []
  | row :: _ => row.element

end

@[simp] theorem element_array (row : Ty) : (array row).element = row.element := rfl

@[simp] theorem rank_array (row : Ty) : (array row).rank = row.rank + 1 := rfl

/-! ## Text -/

mutual

/-- `[]` in front of the row for arrays of one argument, else the head alone; a variable
is `?` and its number. -/
def text : Ty → String
  | var id => s!"?{id}"
  | con .array args => arrayText args
  | con head _ => head.text

/-- The text of an array with these arguments. -/
def arrayText : List Ty → String
  | [row] => TyHead.array.text ++ row.text
  | _ => TyHead.array.text

end

end Ty

end KernelGen
