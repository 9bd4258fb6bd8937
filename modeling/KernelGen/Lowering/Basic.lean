import KernelGen.Code.Basic
import KernelGen.Context.Basic

/-! # Steps of compilation

A step of compilation starts in a context and emits code. It may fail; what it emitted
and bound until then is kept in its `Run`. Emission only ever appends, so a run says
what was added and nothing about the code in front of it.

`collect` turns what a step emits into a value, for the nested code of branches and
loops: if the step fails, that code is lost, and what the step did to the context stays. -/
namespace KernelGen

/-- How a step went. -/
structure Run (α : Type) where
  /-- Its value, or why it failed. -/
  outcome : Except CompileError α
  /-- The code it emitted, up to a failure. -/
  emitted : Code
  /-- The context it left, up to a failure. -/
  ctx : Context

/-- A step of compilation. -/
def Lowering (α : Type) : Type := Context → Run α

namespace Lowering
variable {α β : Type}

/-- How the step goes from this context. -/
def run (x : Lowering α) (ctx : Context) : Run α := x ctx

instance : Monad Lowering where
  pure a := fun ctx => ⟨.ok a, [], ctx⟩
  bind x f := fun ctx =>
    match x ctx with
    | ⟨.error e, emitted, ctx⟩ => ⟨.error e, emitted, ctx⟩
    | ⟨.ok a, emitted, ctx⟩ =>
      let rest := f a ctx
      ⟨rest.outcome, emitted ++ rest.emitted, rest.ctx⟩

/-- Fail. -/
def fail (e : CompileError) : Lowering α := fun ctx => ⟨.error e, [], ctx⟩

/-- Fail for a promise that does not hold. -/
def fault (f : Fault) : Lowering α := fail (.malformed f)

/-- Emit one statement. -/
def emit (s : Stmt) : Lowering Unit := fun ctx => ⟨.ok (), [s], ctx⟩

/-- Ask the context. -/
def ask (question : Context → Except CompileError α) : Lowering α :=
  fun ctx => ⟨question ctx, [], ctx⟩

/-- Change the context. -/
def change (f : Context → Context) : Lowering Unit := fun ctx => ⟨.ok (), [], f ctx⟩

/-- A new name. -/
def fresh (base : String) : Lowering Name := fun ctx =>
  let (x, names) := ctx.names.fresh base
  ⟨.ok x, [], { ctx with names }⟩

/-- The code that a step emits, as a value. -/
def collect (x : Lowering Unit) : Lowering Code := fun ctx =>
  match x ctx with
  | ⟨.error e, _, ctx⟩ => ⟨.error e, [], ctx⟩
  | ⟨.ok (), emitted, ctx⟩ => ⟨.ok emitted, [], ctx⟩

/-- The step, for the device; whether it fails or not, the context is taken back. -/
def onDevice (x : Lowering α) : Lowering α := fun ctx =>
  let r := x ctx.enterDevice
  { r with ctx := ctx.leaveDevice r.ctx }

/-! ## Laws -/

@[simp] theorem run_pure (a : α) (ctx : Context) : run (pure a) ctx = ⟨.ok a, [], ctx⟩ := rfl

/-- What a step does that goes on after another. -/
theorem run_bind (x : Lowering α) (f : α → Lowering β) (ctx : Context) :
    run (x >>= f) ctx =
      match x.run ctx with
      | ⟨.error e, emitted, ctx⟩ => ⟨.error e, emitted, ctx⟩
      | ⟨.ok a, emitted, ctx⟩ =>
        ⟨((f a).run ctx).outcome, emitted ++ ((f a).run ctx).emitted, ((f a).run ctx).ctx⟩ := rfl

theorem run_bind_of_ok {x : Lowering α} {ctx ctx' : Context} {a : α} {code : Code}
    (f : α → Lowering β) (h : x.run ctx = ⟨.ok a, code, ctx'⟩) :
    run (x >>= f) ctx =
      ⟨((f a).run ctx').outcome, code ++ ((f a).run ctx').emitted, ((f a).run ctx').ctx⟩ := by
  rw [run_bind, h]

theorem run_bind_of_error {x : Lowering α} {ctx ctx' : Context} {e : CompileError} {code : Code}
    (f : α → Lowering β) (h : x.run ctx = ⟨.error e, code, ctx'⟩) :
    run (x >>= f) ctx = ⟨.error e, code, ctx'⟩ := by
  rw [run_bind, h]

theorem ext {x y : Lowering α} (h : ∀ ctx, x.run ctx = y.run ctx) : x = y := funext h

instance : LawfulMonad Lowering := LawfulMonad.mk' Lowering
  (by
    intro α x
    refine ext fun ctx => ?_
    change run (x >>= pure) ctx = x.run ctx
    rw [run_bind]
    rcases x.run ctx with ⟨e | a, code, ctx'⟩
    · rfl
    · simp)
  (by
    intro α β a f
    exact ext fun ctx => by rw [run_bind_of_ok f (run_pure a ctx)]; rfl)
  (by
    intro α β γ x f g
    refine ext fun ctx => ?_
    rcases hx : x.run ctx with ⟨e | a, code, ctx'⟩
    · rw [run_bind_of_error g (run_bind_of_error f hx), run_bind_of_error _ hx]
    · rw [run_bind_of_ok _ hx, run_bind, run_bind_of_ok f hx, run_bind]
      rcases (f a).run ctx' with ⟨e | b, code', ctx''⟩
      · rfl
      · simp)

end Lowering

end KernelGen
