import KernelGen.Compile

/-! # Sessions

A session is a list of commands that run one after the other on one context: they bind
names, ask about them, and compile. A command that fails is answered with the cause and
does not end the session; what it did to the context until then stays.

The commands nested in `device` run for the device, on the context it enters, and are
followed by leaving it. -/
namespace KernelGen

/-- Something to do with a context. -/
inductive Command where
  | fresh (base : String)
  | onDevice
  | bindScalar (name : Name) (ty : Ty)
  | bindArray (name : Name) (ty : Ty) (placement : Placement)
  | bindBlock (name : Name) (size : Size) (space : Space)
  | bindBinder (b : Binder)
  | entries (names : List Name)
  | type (name : Name)
  | array (name : Name)
  | shape (name : Name)
  | block (name : Name)
  | blockSize (name : Name)
  | blockSpace (name : Name)
  | free (body : Body)
  | elementCount (extents : List Operand)
  | destination (b : Binder)
  | compile (body : Body)
  | lowerLoops (stms : List Stm)
  | lowerKernels (stms : List Stm)
  | readThreadParam (thread : Name) (param : Binder) (input : Name)
  | writeThreadResult (thread : Name) (dest : Destination) (result : Operand)
  | copyIn (f : Lambda) (inputs : List Name)
  | copyOut (dests : List Destination)
  | device (commands : List Command)

/-- What a command is answered with. -/
inductive Answer where
  | done
  | flag (b : Bool)
  | name (x : Name)
  | names (xs : List Name)
  | type (ty : Ty)
  | array (ty : Ty) (placement : Placement)
  | size (s : Size)
  | sizes (ss : List Size)
  | space (s : Space)
  | block (size : Size) (space : Space)
  | entries (es : List (Except CompileError Entry))
  | destination (d : Destination)
  | transfers (plan : List Transfer)
  | code (code : Code)
  | answers (as : List Answer)
  | failed (e : CompileError)
  /-- Code had been emitted before the failure. -/
  | failedAfter (e : CompileError) (emitted : Code)

/-- A question is answered with its value or with the cause of its failure. -/
def Answer.ofExcept {α : Type} (answer : α → Answer) : Except CompileError α → Answer
  | .ok a => answer a
  | .error e => .failed e

namespace Run

/-- A step that has a value is answered with it. -/
def answer {α : Type} (r : Run α) (answer : α → Answer) : Answer × Context :=
  (.ofExcept answer r.outcome, r.ctx)

/-- A step that emits code is answered with the code, up to a failure. -/
def codeAnswer (r : Run Unit) : Answer × Context :=
  match r.outcome with
  | .ok () => (.code r.emitted, r.ctx)
  | .error e => (.failedAfter e r.emitted, r.ctx)

end Run

mutual

/-- Run a command: its answer, and the context after it. -/
def Command.run (ctx : Context) : Command → Answer × Context
  | .fresh base => ((Lowering.fresh base).run ctx).answer .name
  | .onDevice => (.flag ctx.onDevice, ctx)
  | .bindScalar x ty => (.done, ctx.bindScalar x ty)
  | .bindArray x ty placement => (.done, ctx.bindArray x ty placement)
  | .bindBlock x size space => (.done, ctx.bindBlock x size space)
  | .bindBinder b => ((Lowering.bindBinder b).run ctx).answer fun _ => .done
  | .entries xs => (.entries (xs.map ctx.entry), ctx)
  | .type x => (.ofExcept .type (ctx.type x), ctx)
  | .array x => (.ofExcept (fun (ty, placement) => .array ty placement) (ctx.array x), ctx)
  | .shape x => (.ofExcept .sizes (ctx.shape x), ctx)
  | .block x => (.ofExcept (fun (size, space) => .block size space) (ctx.block x), ctx)
  | .blockSize x => (.ofExcept .size (ctx.blockSize x), ctx)
  | .blockSpace x => (.ofExcept .space (ctx.blockSpace x), ctx)
  | .free body => (.names body.free, ctx)
  | .elementCount extents => (.ofExcept .size (KernelGen.elementCount extents), ctx)
  | .destination b => (.destination b.destination, ctx)
  | .compile body => (body.compile.run ctx).answer .code
  | .lowerLoops stms => ((KernelGen.lowerLoops stms).run ctx).codeAnswer
  | .lowerKernels stms => ((KernelGen.lowerKernels stms).run ctx).codeAnswer
  | .readThreadParam thread param input =>
    ((Lowering.readThreadParam thread (param, input)).run ctx).codeAnswer
  | .writeThreadResult thread dest result =>
    ((Lowering.writeThreadResult thread (dest, result)).run ctx).codeAnswer
  | .copyIn f inputs => (.ofExcept .transfers (ctx.copyIn f inputs), ctx)
  | .copyOut dests => (.ofExcept .transfers (ctx.copyOut dests), ctx)
  | .device commands =>
    let (answers, inner) := Command.runAll ctx.enterDevice commands
    (.answers answers, ctx.leaveDevice inner)

/-- Run commands one after the other: their answers, and the context after the last. -/
def Command.runAll (ctx : Context) : List Command → List Answer × Context
  | [] => ([], ctx)
  | command :: commands =>
    let (a, ctx) := Command.run ctx command
    let (as, ctx) := Command.runAll ctx commands
    (a :: as, ctx)

end

end KernelGen
