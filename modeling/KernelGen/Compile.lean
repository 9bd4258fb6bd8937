import KernelGen.Kernel.Allocations
import KernelGen.Kernel.Transfers
import KernelGen.Lowering.Statement

/-! # Compiling programs

The two ways to compile statements differ in what becomes of a map: `lowerLoops` makes it
a loop, `lowerKernels` a kernel. With `lowerKernels` this holds in branches and loops too,
but not inside a kernel, where maps are loops.

A map over arrays becomes a kernel with one thread per element. In order: the allocations
of its lambda are taken out and made in front of the kernel, each for all threads at once;
the arrays that lived in them move to the slice of their thread; the code of a thread is
compiled for the device; the transfers are planned. The statement's arrays are bound last,
when the kernel stands.

Thread `t` of a kernel reads element `t` of every input into a parameter, runs the body
of the lambda, and writes its results to element `t` of every destination.

`Body.compile` compiles a program with kernels. It emits either all of its code or none. -/
namespace KernelGen

namespace Lowering

/-! ## The code of a thread -/

/-- Read the thread's element of an input into a parameter. -/
def readThreadParam (thread : Name) : Binder × Name → Lowering Unit
  | (param, input) => do
    let (ty, p) ← ask (·.array input)
    if p.layout.rank ≠ 1 then fail (.inputRank input p.layout.rank)
    readParam thread param ty p

/-- Write a result, which has to be a scalar, to the thread's element of its destination. -/
def writeThreadResult (thread : Name) : Destination × Operand → Lowering Unit
  | (.scalar _, _) => fail .resultNotArray
  | (.array p element, a) => do
    if let .var x := a then
      let ty ← ask (·.type x)
      if !ty.isScalar then fail (.resultNotScalar x)
    writeElement p [.var thread] element a

/-- What each thread runs, for a lambda with these parameters and this body. -/
def lowerThread (thread : Name) (params : List Binder) (body : Body) (inputs : List Name)
    (dests : List Destination) : Lowering Unit := do
  if params.length ≠ inputs.length then fault (.threadParams params.length inputs.length)
  if body.result.length ≠ dests.length then
    fault (.threadResults body.result.length dests.length)
  bindScalar thread .i64
  (params.zip inputs).forM (readThreadParam thread)
  Stm.lowerAll none body.stms
  (dests.zip body.result).forM (writeThreadResult thread)

/-! ## From a map to a kernel -/

/-- Allocate each block once, for all threads, unless the settings forbid it. -/
def hoist (blocks : BlockSizes) (threads : Size) : Lowering Unit := do
  if let block :: _ := blocks.keys then
    if !(← ask (pure ·.settings.hoistAllocations)) then fail (.threadAllocation block)
  (blocks.scale threads).entries.forM fun (block, size) => allocate block size .global

/-- A map as a kernel. -/
def lowerMapKernel : MapLowering := fun pat f inputs => do
  let threads ← width inputs .kernelInputFlat
  let ⟨pruned, blocks⟩ ← ask fun _ => f.extract
  hoist blocks threads
  let thread ← fresh (← ask (pure ·.settings.threadIndexBase))
  let body := pruned.offsetBy (blocks.sliceOffsets thread)
  let dests := pat.map Binder.destination
  let code ← onDevice (collect (lowerThread thread f.params body inputs dests))
  let copyIn ← ask (·.copyIn f inputs)
  let copyOut ← ask (·.copyOut dests)
  emit (.kernel ⟨thread, threads, copyIn, copyOut, code⟩)
  pat.forM bindBinder

end Lowering

/-! ## Two ways to compile -/

/-- Compile statements; maps become loops. -/
def lowerLoops (stms : List Stm) : Lowering Unit := Stm.lowerAll none stms

/-- Compile statements; maps become kernels. -/
def lowerKernels (stms : List Stm) : Lowering Unit :=
  Stm.lowerAll (some Lowering.lowerMapKernel) stms

/-- The code of a body's statements. The variables it reads from outside have to be bound.
What the results are is left to the caller. -/
def Body.compile (b : Body) : Lowering Code := Lowering.collect (lowerKernels b.stms)

end KernelGen
