import KernelGen.Error
import KernelGen.OrderedMap
import KernelGen.Program.Basic

/-! # What compilation knows about names

A `Context` is the table of the names in scope, with what they stand for, together with
the supply of fresh names and the settings. It remembers in which order names were first
bound. Binding a bound name again keeps its place.

While the code of a kernel's threads is compiled every block counts as visible to all
threads. `Context.enterDevice` turns every known block to that space;
`Context.leaveDevice` goes back: it forgets what was bound in between, gives the blocks
of the outer context their spaces again, and drops the flag it found set. A name of the
outer context that was bound again in between keeps what it was bound to, apart from the
space of a block that is still one. Tags that were drawn stay drawn. -/
namespace KernelGen

/-- What a name stands for. -/
inductive Entry where
  | scalar (ty : Ty)
  | array (ty : Ty) (placement : Placement)
  | block (size : Size) (space : Space)

/-- Where the result of an expression goes. -/
inductive Destination where
  /-- Into a scalar variable. -/
  | scalar (name : Name)
  /-- Into the elements, of type `element`, of an array that lives there. -/
  | array (placement : Placement) (element : Ty)

/-- The destination a binder stands for: its place in memory if it has one, else the scalar
variable of its name. -/
def Binder.destination (b : Binder) : Destination :=
  match b.placement with
  | some p => .array p b.ty.element
  | none => .scalar b.name

/-- Choices left to the caller. -/
structure Settings where
  /-- The base of the names of thread indices. -/
  threadIndexBase : String := "gtid"
  /-- Allocations made by every thread are replaced by one in front of the kernel; without
  this, such kernels are refused. -/
  hoistAllocations : Bool := true

/-- The names in scope, and what compilation carries along with them. -/
structure Context where
  vars : OrderedMap Name Entry
  names : NameSource
  settings : Settings
  /-- The code of a kernel's threads is being compiled. -/
  onDevice : Bool

namespace Context

/-- No name is bound. -/
def initial (settings : Settings) (names : NameSource) : Context :=
  ⟨.empty, names, settings, false⟩

variable (ctx : Context)

/-! ## Binding names -/

/-- `x` stands for this from now on. -/
def bind (x : Name) (entry : Entry) : Context := { ctx with vars := ctx.vars.insert x entry }

/-- `x` is a scalar. -/
def bindScalar (x : Name) (ty : Ty) : Context := ctx.bind x (.scalar ty)

/-- `x` is an array that lives there. -/
def bindArray (x : Name) (ty : Ty) (placement : Placement) : Context :=
  ctx.bind x (.array ty placement)

/-- `x` is a block. -/
def bindBlock (x : Name) (size : Size) (space : Space) : Context :=
  ctx.bind x (.block size space)

/-- Bind an array or a scalar as its binder says. Block handles are bound by allocations
alone, which know their sizes. -/
def bindBinder (b : Binder) : Except CompileError Context :=
  match b.placement with
  | some p => .ok (ctx.bindArray b.name b.ty p)
  | none =>
    if b.ty.isScalar then .ok (ctx.bindScalar b.name b.ty)
    else .error (.malformed (.unplaced b.name b.ty))

/-! ## Asking about names -/

/-- What a name stands for. -/
def entry (x : Name) : Except CompileError Entry :=
  match ctx.vars.get? x with
  | some e => .ok e
  | none => .error (.unbound x)

/-- The type of a name. -/
def type (x : Name) : Except CompileError Ty := do
  match ← ctx.entry x with
  | .scalar ty | .array ty _ => return ty
  | .block .. => return .mem

/-- The type of an array, and where it lives. -/
def array (x : Name) : Except CompileError (Ty × Placement) := do
  match ← ctx.entry x with
  | .array ty placement => return (ty, placement)
  | .scalar _ | .block .. => throw (.malformed (.notArray x))

/-- The extents of an array. -/
def shape (x : Name) : Except CompileError (List Size) := do
  let (_, placement) ← ctx.array x
  return placement.layout.shape

/-- The size of a block and its space. -/
def block (x : Name) : Except CompileError (Size × Space) := do
  match ← ctx.entry x with
  | .block size space => return (size, space)
  | .scalar _ | .array .. => throw (.malformed (.notBlock x))

/-- The size of a block. -/
def blockSize (x : Name) : Except CompileError Size := return (← ctx.block x).1

/-- The space of a block. -/
def blockSpace (x : Name) : Except CompileError Space := return (← ctx.block x).2

end Context

/-- The number of elements of an array of these extents. -/
def elementCount (extents : List Operand) : Except CompileError Size := do
  let factors ← extents.mapM fun a =>
    match a.size? with
    | some s => .ok s
    | none => .error (.malformed (.extentNotInteger a))
  return Size.product factors

/-! ## Compiling for the device -/

/-- A block in this space; anything but a block stays as it is. -/
def Entry.inSpace (space : Space) : Entry → Entry
  | block size _ => block size space
  | e => e

/-- The entry, in the space it has in `outer` if it is a block both there and here. -/
def Entry.spaceFrom (outer : Option Entry) (e : Entry) : Entry :=
  match outer with
  | some (block _ space) => e.inSpace space
  | _ => e

namespace Context

/-- All blocks visible to every thread. -/
def enterDevice (ctx : Context) : Context :=
  { ctx with vars := ctx.vars.map fun _ e => e.inSpace .global, onDevice := true }

/-- Back from `inner` to the names of `outer`. -/
def leaveDevice (outer inner : Context) : Context :=
  { inner with
    vars := (inner.vars.take outer.vars.size).map fun x e => e.spaceFrom (outer.vars.get? x)
    onDevice := outer.onDevice }

end Context

end KernelGen
