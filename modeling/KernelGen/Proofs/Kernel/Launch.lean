import KernelGen.Compile
import KernelGen.Proofs.Lowering.Runs

/-! # What a successful kernel lowering did

`Launch` lists the steps by which a map became a kernel, each with the context it ran in.
Every successful run of `lowerMapKernel` is one (`lowerMapKernel_eq_ok`), so that what is
proved of kernels is proved from these fields. -/
namespace KernelGen

/-- The context in which the code of the threads is compiled, and the next name is the
one behind the thread index. -/
def Context.launched (ctx : Context) : Context := { ctx with names := ⟨ctx.names.next + 1⟩ }

/-- The map became the kernel `k`, with `front` in front of it. The blocks of `hoisted`
were made in `front`, which ended in `start`; the code of a thread ended in `inner`. -/
structure Launch (pat : List Binder) (f : Lambda) (inputs : List Name) (ctx : Context)
    (front : Code) (k : Kernel) (pruned : Body) (hoisted : BlockSizes)
    (start inner : Context) : Prop where
  width : (Lowering.width inputs .kernelInputFlat).run ctx = ⟨.ok k.threadCount, [], ctx⟩
  extract : f.extract = .ok ⟨pruned, hoisted⟩
  hoist : (Lowering.hoist hoisted k.threadCount).run ctx = ⟨.ok (), front, start⟩
  thread : k.threadIndex = ⟨start.settings.threadIndexBase, start.names.next⟩
  body : (Lowering.lowerThread k.threadIndex f.params
    (pruned.offsetBy (hoisted.sliceOffsets k.threadIndex)) inputs
    (pat.map Binder.destination)).run start.launched.enterDevice = ⟨.ok (), k.body, inner⟩
  copyIn : (start.launched.leaveDevice inner).copyIn f inputs = .ok k.copyIn
  copyOut : (start.launched.leaveDevice inner).copyOut (pat.map Binder.destination) =
    .ok k.copyOut

namespace Lowering
variable {ctx last : Context} {code : Code}

/-- The code of a thread, past the checks: the parameters are read, the body is compiled,
the results are written. -/
theorem lowerThread_eq_ok {thread : Name} {params : List Binder} {body : Body}
    {inputs : List Name} {dests : List Destination}
    (h : (lowerThread thread params body inputs dests).run ctx = ⟨.ok (), code, last⟩) :
    params.length = inputs.length ∧ body.result.length = dests.length ∧
      run (do
        (params.zip inputs).forM (readThreadParam thread)
        Stm.lowerAll none body.stms
        (dests.zip body.result).forM (writeThreadResult thread)) (ctx.bindScalar thread .i64) =
          ⟨.ok (), code, last⟩ := by
  unfold lowerThread at h
  obtain ⟨hparams, h₁⟩ := run_guard_eq_ok.mp h
  obtain ⟨hresult, h₂⟩ := run_guard_eq_ok.mp h₁
  obtain ⟨⟨⟩, c, mid, rest, hthread, h₃, rfl⟩ := run_bind_eq_ok.mp h₂
  cases hthread
  exact ⟨Decidable.not_not.mp hparams, Decidable.not_not.mp hresult, h₃⟩

/-- Code collected on the device. -/
theorem run_onDevice_collect_eq_ok {x : Lowering Unit} {body front : Code}
    (h : (onDevice (collect x)).run ctx = ⟨.ok body, front, last⟩) :
    ∃ inner, x.run ctx.enterDevice = ⟨.ok (), body, inner⟩ ∧ front = [] ∧
      last = ctx.leaveDevice inner := by
  rw [run_onDevice] at h
  rcases hr : (collect x).run ctx.enterDevice with ⟨o, c, inner⟩
  rw [hr] at h
  cases h
  obtain ⟨hx, rfl⟩ := run_collect_eq_ok.mp hr
  exact ⟨inner, hx, rfl, rfl⟩

/-- On the device a step ends as it does anywhere, and the context is taken back. -/
theorem run_onDevice_collect (x : Lowering Unit) (ctx : Context) :
    let inner := (x.run ctx.enterDevice).ctx
    (∃ code, x.run ctx.enterDevice = ⟨.ok (), code, inner⟩ ∧
      (onDevice (collect x)).run ctx = ⟨.ok code, [], ctx.leaveDevice inner⟩) ∨
    ∃ e, (onDevice (collect x)).run ctx = ⟨.error e, [], ctx.leaveDevice inner⟩ := by
  intro inner
  rcases hx : x.run ctx.enterDevice with ⟨e | ⟨⟩, code, last⟩
  · obtain rfl : inner = last := congrArg Run.ctx hx
    exact .inr ⟨e, by rw [run_onDevice, run_collect_of_error hx]⟩
  · obtain rfl : inner = last := congrArg Run.ctx hx
    exact .inl ⟨code, rfl, by rw [run_onDevice, run_collect_of_ok hx]⟩

/-- Planning the transfers changes nothing; if both plans are made, the kernel is emitted. -/
theorem run_plan (f : Lambda) (inputs : List Name) (dests : List Destination) (thread : Name)
    (threads : Size) (body : Code) (ctx : Context) :
    let plan : Lowering Unit := do
      let copyIn ← ask (·.copyIn f inputs)
      let copyOut ← ask (·.copyOut dests)
      emit (.kernel ⟨thread, threads, copyIn, copyOut, body⟩)
    (∃ k : Kernel, k.threadCount = threads ∧ k.body = body ∧
      plan.run ctx = ⟨.ok (), [.kernel k], ctx⟩) ∨ ∃ e, plan.run ctx = ⟨.error e, [], ctx⟩ := by
  intro plan
  cases hin : ctx.copyIn f inputs with
  | error e => exact .inr ⟨e, run_bind_of_error _ (by rw [run_ask, hin])⟩
  | ok copyIn =>
    cases hout : ctx.copyOut dests with
    | error e =>
      refine .inr ⟨e, ?_⟩
      rw [run_bind_of_ok _ (by rw [run_ask, hin]), run_bind_of_error _ (by rw [run_ask, hout])]
      rfl
    | ok copyOut =>
      refine .inl ⟨⟨thread, threads, copyIn, copyOut, body⟩, rfl, rfl, ?_⟩
      rw [run_bind_of_ok _ (by rw [run_ask, hin]), run_bind_of_ok _ (by rw [run_ask, hout])]
      rfl

/-- Binding a pattern emits nothing. -/
theorem run_forM_bindBinder {pat : List Binder}
    (h : (pat.forM bindBinder).run ctx = ⟨.ok (), code, last⟩) : code = [] := by
  induction pat generalizing ctx code with
  | nil =>
    cases h
    rfl
  | cons b pat ih =>
    change (bindBinder b >>= fun _ => pat.forM bindBinder).run ctx = _ at h
    obtain ⟨⟨⟩, front, mid, rest, hb, hpat, rfl⟩ := run_bind_eq_ok.mp h
    obtain ⟨c, c₁, ctx₁, c₂, hask, hchange, rfl⟩ := run_bind_eq_ok.mp hb
    obtain ⟨-, rfl, rfl⟩ := run_ask_eq_ok.mp hask
    cases hchange
    exact ih hpat

/-- **A map that became a kernel** did so in these steps. -/
theorem lowerMapKernel_eq_ok {pat : List Binder} {f : Lambda} {inputs : List Name}
    (h : (lowerMapKernel pat f inputs).run ctx = ⟨.ok (), code, last⟩) :
    ∃ front k pruned hoisted start inner,
      Launch pat f inputs ctx front k pruned hoisted start inner ∧
        code = front ++ [.kernel k] := by
  obtain ⟨threads, c₁, ctx₁, r₁, hwidth, h₁, rfl⟩ := run_bind_eq_ok.mp h
  obtain ⟨rfl, rfl, -⟩ := run_width hwidth
  obtain ⟨⟨pruned, hoisted⟩, c₂, ctx₂, r₂, hask, h₂, rfl⟩ := run_bind_eq_ok.mp h₁
  obtain ⟨hextract, rfl, rfl⟩ := run_ask_eq_ok.mp hask
  obtain ⟨⟨⟩, front, ctx₃, r₃, hhoist, h₃, rfl⟩ := run_bind_eq_ok.mp h₂
  obtain ⟨base, c₄, start, r₄, hask, h₄, rfl⟩ := run_bind_eq_ok.mp h₃
  obtain ⟨hbase, rfl, rfl⟩ := run_ask_eq_ok.mp hask
  obtain ⟨thread, c₅, ctx₅, r₅, hfresh, h₅, rfl⟩ := run_bind_eq_ok.mp h₄
  rw [run_fresh] at hfresh
  cases hfresh
  cases hbase
  obtain ⟨body, c₆, after, r₆, hdevice, h₆, rfl⟩ := run_bind_eq_ok.mp h₅
  obtain ⟨inner, hbody, rfl, rfl⟩ := run_onDevice_collect_eq_ok hdevice
  obtain ⟨copyIn, c₇, ctx₇, r₇, hask, h₇, rfl⟩ := run_bind_eq_ok.mp h₆
  obtain ⟨hin, rfl, rfl⟩ := run_ask_eq_ok.mp hask
  obtain ⟨copyOut, c₈, ctx₈, r₈, hask, h₈, rfl⟩ := run_bind_eq_ok.mp h₇
  obtain ⟨hout, rfl, rfl⟩ := run_ask_eq_ok.mp hask
  obtain ⟨⟨⟩, c₉, ctx₉, r₉, hemit, hbind, rfl⟩ := run_bind_eq_ok.mp h₈
  cases hemit
  refine ⟨front,
    ⟨⟨start.settings.threadIndexBase, start.names.next⟩, threads, copyIn, copyOut, body⟩,
    pruned, hoisted, start, inner, ⟨hwidth, hextract, hhoist, rfl, hbody, hin, hout⟩, ?_⟩
  rw [run_forM_bindBinder hbind]
  simp

end Lowering

end KernelGen
