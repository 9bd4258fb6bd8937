import KernelGen.Lowering.Statement
import KernelGen.Proofs.Context.Lookup
import Mathlib.Data.List.Forall2

/-! # How a step went, part by part

A step of compilation is put together from smaller ones.  `run_bind_eq_ok` takes the
successful run of two steps in a row apart: both succeeded, the second from the context
that the first left, and the code is that of the first followed by that of the second.
The other lemmas do the same for the single operations, so that a successful run is
read off its parts without opening the operations themselves. -/
namespace KernelGen.Lowering
variable {α β : Type}

/-- **Two steps in a row.** -/
theorem run_bind_eq_ok {x : Lowering α} {f : α → Lowering β} {ctx last : Context} {b : β}
    {code : Code} :
    run (x >>= f) ctx = ⟨.ok b, code, last⟩ ↔
      ∃ a front mid rest, x.run ctx = ⟨.ok a, front, mid⟩ ∧
        (f a).run mid = ⟨.ok b, rest, last⟩ ∧ code = front ++ rest := by
  rw [run_bind]
  rcases x.run ctx with ⟨e | a, front, mid⟩
  · constructor
    · intro h
      cases h
    · rintro ⟨a, _, _, _, h, _⟩
      cases h
  · rcases hf : (f a).run mid with ⟨o, rest, final⟩
    simp only [hf]
    constructor
    · intro h
      cases h
      exact ⟨a, front, mid, rest, rfl, hf, rfl⟩
    · rintro ⟨a', front', mid', rest', h, hf', rfl⟩
      cases h
      rw [hf] at hf'
      cases hf'
      rfl

theorem run_fail (e : CompileError) (ctx : Context) :
    run (fail e : Lowering α) ctx = ⟨.error e, [], ctx⟩ := rfl

theorem run_ask (q : Context → Except CompileError α) (ctx : Context) :
    run (ask q) ctx = ⟨q ctx, [], ctx⟩ := rfl

/-- What was asked in a run that went on has an answer. -/
theorem run_ask_eq_ok {q : Context → Except CompileError α} {ctx last : Context} {a : α}
    {code : Code} :
    run (ask q) ctx = ⟨.ok a, code, last⟩ ↔ q ctx = .ok a ∧ code = [] ∧ last = ctx := by
  constructor
  · intro h
    exact ⟨congrArg Run.outcome h, (congrArg Run.emitted h).symm, (congrArg Run.ctx h).symm⟩
  · rintro ⟨h, rfl, rfl⟩
    rw [run_ask, h]

theorem run_emit (s : Stmt) (ctx : Context) : run (emit s) ctx = ⟨.ok (), [s], ctx⟩ := rfl

theorem run_change (f : Context → Context) (ctx : Context) :
    run (change f) ctx = ⟨.ok (), [], f ctx⟩ := rfl

theorem run_fresh (base : String) (ctx : Context) :
    run (fresh base) ctx =
      ⟨.ok ⟨base, ctx.names.next⟩, [], { ctx with names := ⟨ctx.names.next + 1⟩ }⟩ := rfl

/-- Nothing follows a failure. -/
theorem fail_bind (e : CompileError) (f : α → Lowering β) : (fail e >>= f) = fail e := rfl

theorem run_collect_of_ok {x : Lowering Unit} {ctx last : Context} {code : Code}
    (h : x.run ctx = ⟨.ok (), code, last⟩) : (collect x).run ctx = ⟨.ok code, [], last⟩ := by
  unfold run collect
  unfold run at h
  rw [h]

theorem run_collect_of_error {x : Lowering Unit} {ctx last : Context} {code : Code}
    {e : CompileError} (h : x.run ctx = ⟨.error e, code, last⟩) :
    (collect x).run ctx = ⟨.error e, [], last⟩ := by
  unfold run collect
  unfold run at h
  rw [h]

/-- Collected code is what the step emits. -/
theorem run_collect_eq_ok {x : Lowering Unit} {ctx last : Context} {code front : Code} :
    (collect x).run ctx = ⟨.ok code, front, last⟩ ↔
      x.run ctx = ⟨.ok (), code, last⟩ ∧ front = [] := by
  constructor
  · intro h
    rcases hx : x.run ctx with ⟨e | ⟨⟩, emitted, mid⟩
    · rw [run_collect_of_error hx] at h
      cases h
    · rw [run_collect_of_ok hx] at h
      cases h
      exact ⟨rfl, rfl⟩
  · rintro ⟨h, rfl⟩
    exact run_collect_of_ok h

/-- What collecting leaves of the context is what the step leaves. -/
theorem ctx_run_collect (x : Lowering Unit) (ctx : Context) :
    ((collect x).run ctx).ctx = (x.run ctx).ctx := by
  rcases hx : x.run ctx with ⟨e | ⟨⟩, code, last⟩
  · rw [run_collect_of_error hx]
  · rw [run_collect_of_ok hx]

/-- On the device the step runs in the entered context, and the context is taken back. -/
theorem run_onDevice (x : Lowering α) (ctx : Context) :
    (onDevice x).run ctx =
      ⟨(x.run ctx.enterDevice).outcome, (x.run ctx.enterDevice).emitted,
        ctx.leaveDevice (x.run ctx.enterDevice).ctx⟩ := rfl

/-- A check that stops the step was passed. -/
theorem run_guard_eq_ok {p : Prop} [Decidable p] {e : CompileError} {k : Unit → Lowering α}
    {ctx last : Context} {a : α} {code : Code} :
    run (if p then fail e >>= k else k ()) ctx = ⟨.ok a, code, last⟩ ↔
      ¬ p ∧ (k ()).run ctx = ⟨.ok a, code, last⟩ := by
  by_cases hp : p
  · rw [if_pos hp, fail_bind, run_fail]
    constructor
    · intro h
      cases h
    · exact fun h => absurd hp h.1
  · rw [if_neg hp]
    exact ⟨fun h => ⟨hp, h⟩, fun h => h.2⟩

/-- The width of a map is the outermost extent of its first input. -/
theorem run_width {ctx last : Context} {code : Code} {inputs : List Name} {flat : Name → Fault}
    {size : Size}
    (h : (width inputs flat).run ctx = ⟨.ok size, code, last⟩) :
    code = [] ∧ last = ctx ∧ ∃ first, inputs.head? = some first ∧
      ∃ ty p, ctx.vars.get? first = some (.array ty p) ∧ p.layout.shape.head? = some size := by
  cases inputs with
  | nil => cases h
  | cons first rest =>
    obtain ⟨shape, front, mid, tail, hask, h, rfl⟩ := run_bind_eq_ok.mp h
    obtain ⟨hshape, rfl, rfl⟩ := run_ask_eq_ok.mp hask
    obtain ⟨ty, p, hfirst, rfl⟩ := Context.shape_eq_ok_iff.mp hshape
    cases hs : p.layout.shape with
    | nil =>
      rw [hs] at h
      cases h
    | cons d ds =>
      rw [hs] at h
      cases h
      exact ⟨rfl, rfl, first, rfl, ty, p, hfirst, by rw [hs]; rfl⟩

/-- On the device there are no allocations. -/
theorem lowerAlloc_fails {ctx : Context} (pat : List Binder) (size : Size) (space : Space)
    (h : ctx.onDevice = true) : ∃ e, ((lowerAlloc pat size space).run ctx).outcome = .error e := by
  match pat with
  | [] => exact ⟨_, rfl⟩
  | [b] =>
    by_cases hty : b.ty.isMem
    · refine ⟨.nestedAllocation b.name, ?_⟩
      have hask : (ask (pure ·.onDevice)).run ctx = ⟨.ok true, [], ctx⟩ := by
        rw [run_ask, h]
        rfl
      simp only [lowerAlloc, hty, if_true]
      rw [run_bind_of_ok _ hask]
      rfl
    · refine ⟨.malformed .allocationPattern, ?_⟩
      simp only [lowerAlloc, hty]
      rfl
  | b :: b' :: rest => exact ⟨_, rfl⟩

/-! ## Parts that only check

They emit no code and leave the context as it is. -/

section
variable {ctx last : Context} {code : Code}

theorem run_single_eq_ok {dests : List Destination} {d : Destination} :
    (single dests).run ctx = ⟨.ok d, code, last⟩ ↔ dests = [d] ∧ code = [] ∧ last = ctx := by
  constructor
  · intro h
    match dests with
    | [_] =>
      cases h
      exact ⟨rfl, rfl, rfl⟩
    | [] | _ :: _ :: _ => cases h
  · rintro ⟨rfl, rfl, rfl⟩
    rfl

theorem run_singleScalar_eq_ok {dests : List Destination} {x : Name} :
    (singleScalar dests).run ctx = ⟨.ok x, code, last⟩ ↔
      dests = [.scalar x] ∧ code = [] ∧ last = ctx := by
  constructor
  · intro h
    obtain ⟨d, front, mid, rest, hsingle, hrest, rfl⟩ := run_bind_eq_ok.mp h
    obtain ⟨rfl, rfl, rfl⟩ := run_single_eq_ok.mp hsingle
    cases d <;> cases hrest
    exact ⟨rfl, rfl, rfl⟩
  · rintro ⟨rfl, rfl, rfl⟩
    rfl

theorem run_positions_eq_ok {indices : List Operand} {is : List Size} :
    (positions indices).run ctx = ⟨.ok is, code, last⟩ ↔
      List.Forall₂ (fun a i => a.size? = some i) indices is ∧ code = [] ∧ last = ctx := by
  unfold positions
  induction indices generalizing is code with
  | nil =>
    constructor
    · intro h
      cases h
      exact ⟨.nil, rfl, rfl⟩
    · rintro ⟨⟨⟩, rfl, rfl⟩
      rfl
  | cons a indices ih =>
    rw [List.mapM_cons]
    constructor
    · intro h
      obtain ⟨i, front, mid, rest, hfirst, htail, rfl⟩ := run_bind_eq_ok.mp h
      obtain ⟨is', others, mid', rest', hothers, hpure, rfl⟩ := run_bind_eq_ok.mp htail
      cases hpure
      cases hsize : a.size? with
      | none =>
        rw [hsize] at hfirst
        cases hfirst
      | some j =>
        rw [hsize] at hfirst
        cases hfirst
        obtain ⟨hall, rfl, rfl⟩ := ih.mp hothers
        exact ⟨.cons hsize hall, rfl, rfl⟩
    · rintro ⟨_ | ⟨hsize, hall⟩, rfl, rfl⟩
      rw [hsize]
      refine run_bind_eq_ok.mpr ⟨_, [], last, [], rfl, ?_, rfl⟩
      exact run_bind_eq_ok.mpr ⟨_, [], last, [], ih.mpr ⟨hall, rfl, rfl⟩, rfl, rfl⟩

/-- An operand is stored into an array if it is an array that lives there. -/
theorem run_assign_array_eq_ok {p : Placement} {element : Ty} {a : Operand} :
    (assign (.array p element) a).run ctx = ⟨.ok (), code, last⟩ ↔
      (∃ x ty, a = .var x ∧ ctx.vars.get? x = some (.array ty p)) ∧ code = [] ∧ last = ctx := by
  match a with
  | .const c =>
    constructor
    · intro h
      cases h
    · rintro ⟨⟨x, ty, hx, -⟩, -⟩
      cases hx
  | .var x =>
    constructor
    · intro h
      obtain ⟨e, front, mid, rest, hask, hcheck, rfl⟩ := run_bind_eq_ok.mp h
      obtain ⟨he, rfl, rfl⟩ := run_ask_eq_ok.mp hask
      match e with
      | .scalar _ | .block _ _ => cases hcheck
      | .array ty home =>
        by_cases hhome : home = p
        · subst hhome
          simp only [if_true] at hcheck
          cases hcheck
          exact ⟨⟨x, ty, rfl, Context.entry_eq_ok_iff.mp he⟩, rfl, rfl⟩
        · simp only [hhome, if_false] at hcheck
          cases hcheck
    · rintro ⟨⟨_, ty, ⟨⟩, he⟩, rfl, rfl⟩
      have hask : (ask (·.entry x)).run last = ⟨.ok (.array ty p), [], last⟩ :=
        run_ask_eq_ok.mpr ⟨Context.entry_eq_ok_iff.mpr he, rfl, rfl⟩
      refine run_bind_eq_ok.mpr ⟨.array ty p, [], last, [], hask, ?_, rfl⟩
      simp only [if_true, run_pure]

end

end KernelGen.Lowering
