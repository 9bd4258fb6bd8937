import KernelGen.Error
import KernelGen.OrderedMap
import KernelGen.Program.Names
import KernelGen.Program.Rewrite

/-! # Allocations of a thread

Where a lambda becomes a kernel, its body would allocate a block for every thread. The
allocations among the top statements of the body are taken out of it, to be replaced by
one block for all threads (`Lambda.extract`). That needs a size which every thread agrees
on: a size that reads a name bound in the lambda is refused.

Allocations in nested bodies stay where they are.

When one block serves all threads, thread `t` owns its elements from `t * size` on, as
many as it would have allocated. Arrays that lived in the thread's own block live in its
slice: their layouts are shifted by `t * size` (`Body.offsetBy`). Arrays in other blocks
stay. -/
namespace KernelGen

/-- Sizes of blocks, in the order of their allocations. -/
abbrev BlockSizes := OrderedMap Name Size

/-- The block and its size, for an allocation that binds one name. -/
def Stm.allocation? : Stm → Option (Name × Size)
  | ⟨[b], .alloc size _⟩ => some (b.name, size)
  | _ => none

/-- The allocations among the statements of a body, in order. -/
def Body.allocations (b : Body) : List (Name × Size) := b.stms.filterMap Stm.allocation?

/-- The body without these allocations. -/
def Body.pruned (b : Body) : Body := ⟨b.stms.filter (·.allocation?.isNone), b.result⟩

/-- A body without its allocations, and the sizes of the blocks they made. -/
structure Extraction where
  pruned : Body
  blocks : BlockSizes

namespace Lambda

/-- The first variable of the size that is bound in the lambda. -/
def varying? (f : Lambda) (size : Size) : Option Name := size.vars.find? (· ∈ f.bound)

/-- Take the allocations out of the body. The first whose size reads a bound name is the
reason for a refusal. -/
def extract (f : Lambda) : Except CompileError Extraction :=
  let refused := f.body.allocations.findSome? fun (block, size) =>
    (f.varying? size).map fun x => (block, x)
  match refused with
  | some (block, x) => .error (.varyingSize block x)
  | none => .ok ⟨f.body.pruned, .ofList f.body.allocations⟩

end Lambda

/-- The sizes, scaled for `threads` threads. -/
def BlockSizes.scale (blocks : BlockSizes) (threads : Size) : BlockSizes :=
  blocks.map fun _ size => size.times threads

/-! ## Slices of a shared block -/

/-- Distances by which layouts are shifted, for each block. -/
abbrev BlockOffsets := OrderedMap Name Size

/-- Where the slice of `thread` begins in each block. -/
def BlockSizes.sliceOffsets (blocks : BlockSizes) (thread : Name) : BlockOffsets :=
  blocks.map fun _ size => (Size.var thread).times size

/-- The placement, shifted by the distance for its block if there is one. -/
def Placement.offsetBy (offsets : BlockOffsets) (p : Placement) : Placement :=
  match offsets.get? p.block with
  | some distance => { p with layout := p.layout.shift distance }
  | none => p

/-- The body with every placement shifted, at any depth. -/
def Body.offsetBy (offsets : BlockOffsets) (b : Body) : Body := b.rewrite (·.offsetBy offsets) id

end KernelGen
