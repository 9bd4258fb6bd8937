import KernelGen.Code.Basic
import KernelGen.Context.Basic
import KernelGen.Program.Names

/-! # Transfers around a launch

What a kernel reads has to be on the device before the launch, and what it wrote has to
come back. Whole blocks are moved, each once, even where a kernel touches only a part:
the blocks of the inputs, the blocks and scalars its lambda reads from outside, and after
the kernel the blocks of its results. An array cannot be read from outside, only mapped
over. -/
namespace KernelGen

/-- It moves this block. -/
def Transfer.movesBlock (x : Name) : Transfer → Bool
  | block y _ => y == x
  | scalar .. => false

namespace Context
variable (ctx : Context)

/-- The transfers, with a block added unless it is moved already. -/
def addBlock (plan : List Transfer) (x : Name) : Except CompileError (List Transfer) :=
  if plan.any (·.movesBlock x) then .ok plan
  else do
    let size ← ctx.blockSize x
    return plan ++ [.block x size]

/-- The transfers, with the block of an input array added. -/
def addInput (plan : List Transfer) (input : Name) : Except CompileError (List Transfer) := do
  let (_, p) ← ctx.array input
  ctx.addBlock plan p.block

/-- The transfers, with a variable added that a lambda reads from outside. -/
def addFree (plan : List Transfer) (x : Name) : Except CompileError (List Transfer) := do
  match ← ctx.entry x with
  | .array .. => throw (.freeArray x)
  | .block .. => ctx.addBlock plan x
  | .scalar ty => return plan ++ [.scalar x ty]

/-- The transfers, with the block of an array destination added. -/
def addDestination (plan : List Transfer) : Destination → Except CompileError (List Transfer)
  | .array p _ => ctx.addBlock plan p.block
  | .scalar _ => .ok plan

/-- Before the launch: the blocks of the inputs, then what the lambda reads from outside, in
order of first use. The inputs themselves are not moved again. -/
def copyIn (f : Lambda) (inputs : List Name) : Except CompileError (List Transfer) := do
  let plan ← inputs.foldlM ctx.addInput []
  (f.free.filter (· ∉ inputs)).foldlM ctx.addFree plan

/-- After the kernel: the blocks of the results. -/
def copyOut (dests : List Destination) : Except CompileError (List Transfer) :=
  dests.foldlM ctx.addDestination []

end Context

end KernelGen
