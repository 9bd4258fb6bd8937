import KernelGen.Operand
import KernelGen.Ty

/-! # Why compilation fails

A program is refused for one of two reasons: it uses something that kernels do not
support, or it breaks a promise that earlier stages made about it. Causes of the second
kind are an unbound variable and the `Fault`s.

Each cause is a constructor with what it is about; its wording is in `Fault.message` and
`CompileError.message`. -/
namespace KernelGen

/-- A promise about the program that does not hold. -/
inductive Fault where
  /-- A binder is no scalar and has no placement. -/
  | unplaced (name : Name) (ty : Ty)
  | notArray (name : Name)
  | notBlock (name : Name)
  /-- An extent is neither an integer nor a variable. -/
  | extentNotInteger (a : Operand)
  /-- An index is neither an integer nor a variable. -/
  | indexNotInteger (a : Operand)
  /-- An allocation binds something else than one block handle. -/
  | allocationPattern
  /-- An expression with one result is bound to several names or to none. -/
  | destinationCount (count : Nat)
  /-- A scalar result is bound to an array in this block. -/
  | scalarIntoArray (block : Name)
  /-- An array is read with more or fewer indices than it has dimensions. -/
  | indexCount (array : Name) (count : Nat)
  /-- The result of an update is bound to a scalar. -/
  | updateOfScalar (name : Name)
  | constantIntoArray (a : Operand)
  /-- An array result lives somewhere else than its destination. -/
  | arrayElsewhere (array block wanted : Name)
  /-- What is to become an array in a block is no array. -/
  | storedNotArray (name block : Name)
  | resultCount (results destinations : Nat)
  /-- A loop does not carry as many values as its body returns, or as are bound. -/
  | carriedCount (carried results : Nat)
  | mapWithoutInputs
  /-- The first input of a map that becomes a loop has no dimension. -/
  | loopInputFlat (input : Name)
  /-- The first input of a map that becomes a kernel has no dimension. -/
  | kernelInputFlat (input : Name)
  /-- A map that becomes a loop has not one parameter per input or one result per binder. -/
  | mapArity
  /-- An input of a map that becomes a loop is not an array of scalars of one dimension. -/
  | loopInputRank (input : Name)
  /-- The result of a map is bound to a scalar. -/
  | mapResultScalar (name : Name)
  /-- A map that becomes a kernel has not one parameter per input. -/
  | threadParams (params inputs : Nat)
  /-- A map that becomes a kernel has not one result per binder. -/
  | threadResults (results destinations : Nat)

/-- Why a program is refused. -/
inductive CompileError where
  /-- The size of a block that each thread allocates reads a name bound in the lambda. -/
  | varyingSize (block dependsOn : Name)
  /-- A lambda reads an array that is not one of its inputs. -/
  | freeArray (name : Name)
  /-- A result of a kernel is bound to something else than an array. -/
  | resultNotArray
  /-- A result of a thread is no scalar. -/
  | resultNotScalar (name : Name)
  /-- An input of a kernel has not exactly one dimension. -/
  | inputRank (array : Name) (rank : Nat)
  /-- A thread allocates a block, and the settings forbid to do so in its place. -/
  | threadAllocation (block : Name)
  /-- A block is allocated in a nested body of a kernel. -/
  | nestedAllocation (block : Name)
  | unbound (name : Name)
  | malformed (fault : Fault)

/-- What a cause of failure says about the program. -/
inductive Category where
  /-- It uses something that is not supported. -/
  | unsupported
  /-- It should not have got here. -/
  | internal
deriving DecidableEq

/-- The wording of a fault. -/
def Fault.message : Fault → String
  | unplaced x ty => s!"`{x.text}` of type {ty.text} has no memory summary"
  | notArray x => s!"`{x.text}` is not an array"
  | notBlock x => s!"`{x.text}` is not a memory block"
  | extentNotInteger a => s!"non-integer dimension {a.text}"
  | indexNotInteger a => s!"`{a.text}` is not an integer index"
  | allocationPattern => "allocation must bind exactly one memory block"
  | destinationCount n => s!"expected one destination, got {n}"
  | scalarIntoArray block => s!"scalar result stored into array in `{block.text}`"
  | indexCount array n => s!"indexing `{array.text}` with {n} indices does not yield a scalar"
  | updateOfScalar x => s!"in-place update bound to scalar `{x.text}`"
  | constantIntoArray a => s!"constant {a.text} stored into array"
  | arrayElsewhere array block wanted =>
    s!"array `{array.text}` in `{block.text}` would need a copy into `{wanted.text}`"
  | storedNotArray x block => s!"`{x.text}` stored into array in `{block.text}` is not an array"
  | resultCount results dests => s!"body returns {results} values for {dests} destinations"
  | carriedCount carried results =>
    s!"loop with {carried} merge parameters returns {results} values"
  | mapWithoutInputs => "map without input arrays"
  | loopInputFlat input => s!"map input `{input.text}` is not an array"
  | kernelInputFlat input => s!"map input `{input.text}` has rank 0"
  | mapArity => "map lambda arity does not match its inputs and outputs"
  | loopInputRank input => s!"sequential map over `{input.text}` requires rank-1 input"
  | mapResultScalar x => s!"map result bound to scalar `{x.text}`"
  | threadParams params inputs =>
    s!"map lambda takes {params} parameters but has {inputs} inputs"
  | threadResults results dests =>
    s!"map lambda returns {results} values for {dests} destinations"

namespace CompileError

/-- The wording of a cause. -/
def message : CompileError → String
  | varyingSize block x =>
    s!"size of allocation `{block.text}` reads `{x.text}`, which is bound inside the kernel lambda"
  | freeArray x => s!"free array variable `{x.text}` cannot be passed to a kernel"
  | resultNotArray => "kernel must return an array"
  | resultNotScalar x => s!"cannot handle non-basic kernel thread result `{x.text}`"
  | inputRank array rank =>
    s!"kernel input `{array.text}` has rank {rank}, only rank-1 inputs are supported"
  | threadAllocation block =>
    s!"thread-local allocation `{block.text}` cannot be hoisted out of the kernel"
  | nestedAllocation block =>
    "not implemented inside a kernel body: " ++
      s!"allocation of `{block.text}` inside a nested kernel body"
  | unbound x => s!"unknown variable `{x.text}`"
  | malformed fault => "internal compiler error: " ++ fault.message

/-- Unbound variables and faults are an earlier stage's; all else is the program's own. -/
def category : CompileError → Category
  | unbound _ | malformed _ => .internal
  | varyingSize .. | freeArray _ | resultNotArray | resultNotScalar _ | inputRank ..
  | threadAllocation _ | nestedAllocation _ => .unsupported

end CompileError

end KernelGen
