import KernelGen.Proofs.Course.Kernels
import KernelGen.Session

/-! # What a scope on the device leaves behind

Between going to the device and coming back a session may do anything: bind names, draw
them, compile, open scopes of its own, and fail on the way.  Each command changes the
context in the steps of an evolution (`Command.run_evolves`), and so does a list of them,
at any nesting of scopes.

`device_restores` says what is left when the scope is over.  The names and their order are
those of the outer context, and so is the flag.  A name that was not bound in between
stands for what it stood for.  A name that was bound again stands for what it was bound
to, save that a block which was a block before is back in its space. -/
namespace KernelGen

mutual

/-- The names that a command binds, the drawn ones apart: those that it is given, those that
the programs bind which it compiles, and those of the commands nested in it. -/
def Command.bindings : Command → List Name
  | .bindScalar x _ | .bindArray x _ _ | .bindBlock x _ _ => [x]
  | .bindBinder b | .readThreadParam _ b _ => [b.name]
  | .compile body => body.bindings
  | .lowerLoops stms | .lowerKernels stms => Stm.bindingsAll stms
  | .device commands => Command.bindingsAll commands
  | .fresh _ | .onDevice | .entries _ | .type _ | .array _ | .shape _ | .block _ | .blockSize _
  | .blockSpace _ | .free _ | .elementCount _ | .destination _ | .writeThreadResult ..
  | .copyIn .. | .copyOut _ => []

/-- The names that commands bind, the drawn ones apart. -/
def Command.bindingsAll : List Command → List Name
  | [] => []
  | command :: commands => command.bindings ++ Command.bindingsAll commands

end

theorem Run.ctx_codeAnswer (r : Run Unit) : r.codeAnswer.2 = r.ctx := by
  rcases r with ⟨e | ⟨⟩, code, ctx⟩ <;> rfl

open Lowering Context

mutual

/-- **What a command does to the context**, whether it fails or not. -/
theorem Command.run_evolves (ctx : Context) (command : Command) :
    EvolvesWithin command.bindings ctx (command.run ctx).2 := by
  match command with
  | .fresh base =>
    have hfollows : Follows true [] [] (Lowering.fresh base >>= pure) :=
      .fresh base fun x => .of_pure x
    rw [bind_pure] at hfollows
    exact hfollows.evolvesWithin ctx
  | .bindScalar x ty => exact .bind x (.scalar ty)
  | .bindArray x ty placement => exact .bind x (.array ty placement)
  | .bindBlock x size space => exact .bind x (.block size space)
  | .bindBinder b =>
    have hfollows : Follows true [b.name] [] (Lowering.bindBinder b) :=
      follows_bindBinder (List.mem_cons_self ..)
    exact hfollows.evolvesWithin ctx
  | .compile body =>
    have hfollows :
        Follows true body.bindings body.bindings (KernelGen.lowerKernels body.stms) := by
      rcases body with ⟨stms, result⟩
      exact follows_lowerKernels fun _ hx => hx
    show EvolvesWithin _ _ ((collect (KernelGen.lowerKernels body.stms)).run ctx).ctx
    rw [ctx_run_collect]
    exact hfollows.evolvesWithin ctx
  | .lowerLoops stms =>
    rw [Command.run, Run.ctx_codeAnswer]
    have hfollows : Follows true (Stm.bindingsAll stms) (Stm.bindingsAll stms)
        (KernelGen.lowerLoops stms) := follows_lowerLoops fun _ hx => hx
    exact hfollows.evolvesWithin ctx
  | .lowerKernels stms =>
    rw [Command.run, Run.ctx_codeAnswer]
    have hfollows : Follows true (Stm.bindingsAll stms) (Stm.bindingsAll stms)
        (KernelGen.lowerKernels stms) := follows_lowerKernels fun _ hx => hx
    exact hfollows.evolvesWithin ctx
  | .readThreadParam thread param input =>
    rw [Command.run, Run.ctx_codeAnswer]
    have hfollows : Follows true [param.name] []
        (Lowering.readThreadParam thread (param, input)) :=
      follows_readThreadParam thread (List.mem_cons_self ..)
    exact hfollows.evolvesWithin ctx
  | .writeThreadResult thread dest result =>
    rw [Command.run, Run.ctx_codeAnswer]
    have hfollows : Follows true [] [] (Lowering.writeThreadResult thread (dest, result)) :=
      follows_writeThreadResult thread _
    exact hfollows.evolvesWithin ctx
  | .device commands =>
    rw [Command.bindings, Command.run]
    exact (Command.runAll_evolves ctx.enterDevice commands).device
  | .onDevice | .entries _ | .type _ | .array _ | .shape _ | .block _ | .blockSize _
  | .blockSpace _ | .free _ | .elementCount _ | .destination _ | .copyIn _ _ | .copyOut _ =>
    exact .refl

theorem Command.runAll_evolves (ctx : Context) (commands : List Command) :
    EvolvesWithin (Command.bindingsAll commands) ctx (Command.runAll ctx commands).2 := by
  match commands with
  | [] => exact .refl
  | command :: commands =>
    rw [Command.bindingsAll, Command.runAll]
    exact (Command.run_evolves ctx command).trans (Command.runAll_evolves _ commands)

end

namespace Context
variable {outer inner : Context} {x : Name}

/-- A block before and after is in the space that it had before. -/
theorem get?_leaveDevice_of_block (h : outer.vars.keys <+: inner.vars.keys)
    {size size' : Size} {space space' : Space} (hx : outer.vars.get? x = some (.block size space))
    (hx' : inner.vars.get? x = some (.block size' space')) :
    (outer.leaveDevice inner).vars.get? x = some (.block size' space) := by
  have hmem : x ∈ outer.vars.keys := by
    by_contra hnot
    rw [OrderedMap.get?_eq_none_iff.mpr hnot] at hx
    cases hx
  rw [get?_leaveDevice h, if_pos hmem, hx, hx']
  rfl

/-- What is not a block before and after is what it was bound to. -/
theorem get?_leaveDevice_of_not_block (h : outer.vars.keys <+: inner.vars.keys)
    (hmem : x ∈ outer.vars.keys)
    (hx : ∀ size space, outer.vars.get? x = some (.block size space) →
      ∀ size' space', inner.vars.get? x ≠ some (.block size' space')) :
    (outer.leaveDevice inner).vars.get? x = inner.vars.get? x := by
  rw [get?_leaveDevice h, if_pos hmem]
  cases hinner : inner.vars.get? x with
  | none => rfl
  | some e =>
    rw [hinner] at hx
    cases houter : outer.vars.get? x with
    | none => rfl
    | some e' =>
      cases e' with
      | scalar | array => rfl
      | block size space =>
        cases e with
        | scalar | array => rfl
        | block size' space' => exact absurd rfl (hx size space houter size' space')

end Context

/-- **A scope on the device restores what was there.**  Inside, every block is visible to all
threads and the flag is set.  After any commands in the scope, whether they fail or not,
the names, their order and the flag are those from before.  Of the names bound before,
one that is a block before and at the end of the scope keeps its new size and gets its
space back, and any other stands for what it stands for at the end of the scope.  A name
that was not bound in the scope, nor in scopes inside it, stands for exactly what it stood
for; bound are at most the names that the commands bind and names that they drew. -/
theorem device_restores (ctx : Context) (commands : List Command) :
    let inner := (Command.runAll ctx.enterDevice commands).2
    let last := ((Command.device commands).run ctx).2
    (ctx.enterDevice.onDevice = true ∧ ∀ x size space,
      ctx.enterDevice.vars.get? x = some (.block size space) → space = .global) ∧
    last.onDevice = ctx.onDevice ∧ last.vars.keys = ctx.vars.keys ∧
    (∀ x size space size' space', ctx.vars.get? x = some (.block size space) →
      inner.vars.get? x = some (.block size' space') →
        last.vars.get? x = some (.block size' space)) ∧
    (∀ x ∈ ctx.vars.keys,
      (∀ size space, ctx.vars.get? x = some (.block size space) →
        ∀ size' space', inner.vars.get? x ≠ some (.block size' space')) →
      last.vars.get? x = inner.vars.get? x) ∧
    ∃ xs, ctx.enterDevice.Evolves xs inner ∧
      (∀ x ∈ xs, x ∈ Command.bindingsAll commands ∨ Drawn ctx inner x) ∧
      ∀ x ∉ xs, last.vars.get? x = ctx.vars.get? x := by
  intro inner last
  obtain ⟨xs, hevolves, hxs⟩ := Command.runAll_evolves ctx.enterDevice commands
  have hlast : last = ctx.leaveDevice inner := by
    show ((Command.device commands).run ctx).2 = _
    rw [Command.run]
  have hkeys : ctx.vars.keys <+: inner.vars.keys := keys_enterDevice.trans hevolves.keys
  refine ⟨⟨rfl, fun x size space h => ?_⟩, ?_, ?_, ?_, ?_, xs, hevolves, hxs, ?_⟩
  · rw [get?_enterDevice] at h
    obtain ⟨_ | _ | ⟨size', space'⟩, -, he⟩ := Option.map_eq_some_iff.mp h
    · cases he
    · cases he
    · cases he
      rfl
  · rw [hlast]
    rfl
  · rw [hlast]
    exact keys_leaveDevice hkeys
  · intro x size space size' space' hx hx'
    rw [hlast]
    exact get?_leaveDevice_of_block hkeys hx hx'
  · intro x hmem hx
    rw [hlast]
    exact get?_leaveDevice_of_not_block hkeys hmem hx
  · intro x hx
    rw [hlast]
    exact get?_leaveDevice_of_get?_eq hkeys (hevolves.get?_eq hx)

end KernelGen
