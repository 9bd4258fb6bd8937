import KernelGen.Proofs.Kernel.Blocks

/-! # The scalars of a kernel

A thread may read its index, what its code declares, and the scalars that are passed
(`Kernel.Supplies`).  Those that are passed are the scalars that the lambda reads from
outside (`Lambda.Captures`).  But the code also takes variables over from layouts that are
known outside of the lambda (`Lambda.Surfaces`): the elements of the inputs are found by
their layouts, those of the results by theirs, and an inner map over an input counts up to
its extent.  Nothing makes the lambda read these, and nothing else passes them.

So a kernel has all it reads exactly if the lambda happens to read these variables as
well (`lowerMapKernel_scalars`). -/
namespace KernelGen
open Lowering

/-- The variable is there when a thread of the kernel reads it. -/
def Kernel.Supplies (k : Kernel) (x : Name) : Prop :=
  x = k.threadIndex ∨ x ∈ Code.declared k.body ∨ ∃ ty, .scalar x ty ∈ k.copyIn

namespace Lambda

/-- What the lambda reads as a scalar is one: outside, or among what it declares. -/
def WellScoped (f : Lambda) (ctx : Context) : Prop :=
  f.Respects (.ofScalars fun x =>
    (∃ ty, ctx.vars.get? x = some (.scalar ty)) ∨ x ∈ f.scalars)

/-- The lambda reads the name from outside, where it is a scalar. -/
def Captures (f : Lambda) (ctx : Context) (x : Name) : Prop :=
  x ∈ f.free ∧ ∃ ty, ctx.vars.get? x = some (.scalar ty)

/-- The code of a thread reads the variable because of a layout outside of the lambda. -/
def Surfaces (f : Lambda) (pat : List Binder) (inputs : List Name) (ctx : Context) (y : Name) :
    Prop :=
  (∃ x ∈ inputs, ∃ ty p, ctx.vars.get? x = some (.array ty p) ∧
    (y ∈ p.layout.rowVars ∨ x ∈ f.heads ∧ ∃ d ∈ p.layout.shape.head?, y ∈ d.occurrences)) ∨
  ∃ b ∈ pat, ∃ p, b.placement = some p ∧ y ∈ p.layout.rowVars

/-- What the code of a thread may read without declaring it. -/
def MayRead (f : Lambda) (pat : List Binder) (inputs : List Name) (ctx : Context) (thread : Name)
    (y : Name) : Prop :=
  (((∃ ty, ctx.vars.get? y = some (.scalar ty)) ∨ y ∈ f.scalars) ∧
    (y ∈ f.occurrences ∨ y ∈ f.bindings)) ∨
  y = thread ∨ f.Surfaces pat inputs ctx y

end Lambda

/-- The read of one input: an array of one dimension is found, and its element at the
thread index is read. -/
theorem readThreadParam_eq_ok {thread input : Name} {param : Binder} {ctx last : Context}
    {code : Code} (h : (readThreadParam thread (param, input)).run ctx = ⟨.ok (), code, last⟩) :
    ∃ ty p space, ctx.vars.get? input = some (.array ty p) ∧ p.layout.rank = 1 ∧
      .read param.name p.block (p.layout.position [.var thread]) ty.element space ∈ code := by
  obtain ⟨⟨ty, p⟩, _, _, rest, hask, hguard, rfl⟩ := run_bind_eq_ok.mp h
  obtain ⟨harray, rfl, rfl⟩ := run_ask_eq_ok.mp hask
  obtain ⟨hrank, hread⟩ := run_guard_eq_ok.mp hguard
  obtain ⟨space, _, _, rest, hspace, h₁, rfl⟩ := run_bind_eq_ok.mp hread
  obtain ⟨-, rfl, rfl⟩ := run_ask_eq_ok.mp hspace
  obtain ⟨⟨⟩, _, _, rest, hdeclare, h₂, rfl⟩ := run_bind_eq_ok.mp h₁
  cases hdeclare
  obtain ⟨⟨⟩, _, _, rest, hemit, hbind, rfl⟩ := run_bind_eq_ok.mp h₂
  cases hemit
  refine ⟨ty, p, space, Context.array_eq_ok_iff.mp harray, Decidable.not_not.mp hrank, ?_⟩
  exact List.mem_cons_of_mem _ (List.mem_cons_self ..)

/-! ## Result writes -/

section
variable {pat : List Binder} {results : List Operand} {writes : Code} {ctx : Context}
  {thread : Name} (h : List.Forall₂
    (fun b s => ∃ a ∈ results, IsResultWrite ctx thread b.destination a s) pat writes)
include h

theorem declared_resultWrites : Code.declared writes = [] := by
  refine List.eq_nil_iff_forall_not_mem.mpr fun y hy => ?_
  obtain ⟨s, hs, hys⟩ := (Code.mem_gather_iff _).mp hy
  obtain ⟨b, -, a, -, hwrite⟩ := forall₂_mem_right h hs
  obtain ⟨p, space, -, rfl⟩ := hwrite.of_binder
  cases hys

/-- Beside the thread index and the results, the places of the results are read. -/
theorem mem_reads_resultWrites {y : Name} (hy : y ∈ Code.reads writes) :
    y = thread ∨ (∃ b ∈ pat, ∃ p, b.placement = some p ∧ y ∈ p.layout.rowVars) ∨
      ∃ a ∈ results, y ∈ a.occurrences := by
  obtain ⟨s, hs, hys⟩ := (Code.mem_gather_iff _).mp hy
  obtain ⟨b, hb, a, ha, hwrite⟩ := forall₂_mem_right h hs
  obtain ⟨p, space, hp, rfl⟩ := hwrite.of_binder
  rcases List.mem_append.mp hys with hposition | hvalue
  · exact (Layout.mem_occurrences_position_var.2 hposition).imp_right
      fun hrow => .inl ⟨b, hb, p, hp, hrow⟩
  · rw [Expr.occurrences_ofOperand] at hvalue
    exact .inr (.inr ⟨a, ha, hvalue⟩)

theorem rowVars_read_by_resultWrites {b : Binder} (hb : b ∈ pat) {p : Placement}
    (hp : b.placement = some p) : ∀ y ∈ p.layout.rowVars, y ∈ Code.reads writes := by
  intro y hy
  obtain ⟨s, hs, a, -, hwrite⟩ := forall₂_mem_left h hb
  obtain ⟨q, space, hq, rfl⟩ := hwrite.of_binder
  rw [hp] at hq
  cases hq
  refine (Code.mem_gather_iff _).mpr ⟨_, hs, ?_⟩
  exact List.mem_append.mpr (.inl (Layout.mem_occurrences_position_var.1 hy))

end

/-! ## The code of a thread -/

/-- What surfaces was in the context or in the places of the results. -/
theorem Lambda.mentioned_of_surfaces {f : Lambda} {pat : List Binder} {inputs : List Name}
    {ctx : Context} {y : Name} (h : f.Surfaces pat inputs ctx y) :
    y ∈ ctx.mentioned ∨ ∃ b ∈ pat, y ∈ b.occurrences := by
  rcases h with ⟨x, -, ty, p, hp, hy⟩ | ⟨b, hb, p, hp, hy⟩
  · refine .inl (Context.mem_mentioned_of_occurrence hp (List.mem_cons_of_mem _ ?_))
    rcases hy with hrow | ⟨-, d, hd, hy⟩
    · exact Layout.mem_occurrences_of_mem_rowVars hrow
    · exact Layout.mem_occurrences_of_mem_shape (List.mem_of_mem_head? hd) hy
  · refine .inr ⟨b, hb, ?_⟩
    rw [Binder.occurrences, hp]
    exact List.mem_cons_of_mem _ (Layout.mem_occurrences_of_mem_rowVars hy)

namespace Launch
variable {pat : List Binder} {f : Lambda} {inputs : List Name} {ctx start inner : Context}
  {front : Code} {k : Kernel} {pruned : Body} {hoisted : BlockSizes}
  (launch : Launch pat f inputs ctx front k pruned hoisted start inner)
  (hctx : ∀ x ∈ ctx.mentioned, x.tag < ctx.names.next)
  (hnew : ∀ x ∈ f.bindings, x ∉ ctx.mentioned ∧ x ∉ inputs ∧ ∀ b ∈ pat, x ∉ b.occurrences)
include launch hctx hnew

/-- An input has one dimension, and the code of a thread reads the position of its element. -/
theorem read_of_input {x : Name} {ty : Ty} {p : Placement} (hx : x ∈ inputs)
    (hp : ctx.vars.get? x = some (.array ty p)) :
    p.layout.rank = 1 ∧
      ∀ y ∈ (p.layout.position [.var k.threadIndex]).occurrences, y ∈ Code.reads k.body := by
  obtain ⟨hlen, -, hrun⟩ := lowerThread_eq_ok launch.body
  rw [← Context.threadHome.eq_def] at hrun
  obtain ⟨⟨⟩, code, _, rest, hreads, -, hbody⟩ := run_bind_eq_ok.mp hrun
  obtain ⟨q, hq, rfl⟩ : ∃ q ∈ f.params.zip inputs, q.2 = x := by
    rw [← List.map_snd_zip (Nat.le_of_eq hlen.symm)] at hx
    exact List.mem_map.mp hx
  -- On the way the input stays the array that it is in the context.
  have hbound : q.2 ∉ f.bindings := fun h => (hnew _ h).2.1 hx
  have htag : q.2.tag < ctx.names.next := hctx _ (Context.mem_mentioned_of_get? hp)
  have hsteps := launch.anyScalars.emits_readThreadParams k.threadIndex rfl trivial
  obtain ⟨c, part, _, hwithin, hread, hpart⟩ :=
    Emits.forM_mem (fun q hq => (hsteps q hq).mono fun _ _ _ => trivial)
      Surroundings.within_home hreads hq
  obtain ⟨ty', p', space, hp', hrank, hmem⟩ := readThreadParam_eq_ok hread
  rw [hwithin.kept _ (launch.not_new launch.anyScalars rfl rfl hbound htag)] at hp'
  have hhome := launch.get?_home hbound htag
  rw [hp] at hhome
  obtain ⟨rfl, rfl⟩ : ty = ty' ∧ p = p' := by
    have hsame := Option.some.inj (hhome.symm.trans hp')
    cases hsame
    exact ⟨rfl, rfl⟩
  have hin : .read q.1.name p.block (p.layout.position [.var k.threadIndex]) ty.element space ∈
      k.body := by
    rw [hbody]
    exact List.mem_append.mpr (.inl (hpart _ hmem))
  exact ⟨hrank, fun y hy => (Code.mem_gather_iff _).mpr ⟨_, hin, hy⟩⟩

/-- A thread whose scalars are those that it may read. -/
def knownScalars : Surroundings :=
  f.surroundings inputs (f.MayRead pat inputs ctx k.threadIndex) start k.threadIndex
    (fun {x ty p} hx hhome indices y hy => by
      obtain ⟨hin, hp⟩ := launch.input_of_home
        (fun x hx => hctx x (Context.mem_mentioned_of_mem_keys hx)) hnew hx hhome
      obtain ⟨hrank, -⟩ := launch.read_of_input hctx hnew hin hp
      rcases Layout.mem_occurrences_position_of_rank_one hrank hy with hoffset | hindex
      · exact .inl (.inr (.inr (.inl
          ⟨x, hin, ty, p, hp, .inl (List.mem_append.mpr (.inl hoffset))⟩)))
      · exact .inr hindex)
    fun {x ty p} hx hhome d hd y hy => by
      obtain ⟨hin, hp⟩ := launch.input_of_home
        (fun x hx => hctx x (Context.mem_mentioned_of_mem_keys hx)) hnew (.inl hx.1) hhome
      exact .inr (.inr (.inl ⟨x, hin, ty, p, hp, .inr ⟨hx.2, d, hd, hy⟩⟩))

/-- **What the code of a thread reads and declares**: it reads what it may read, what
surfaces among it, and what it declares; it declares the scalars of the lambda, and
nothing that was there before. -/
theorem reads_and_declares (hscoped : f.WellScoped ctx) :
    (∀ y ∈ Code.reads k.body,
      f.MayRead pat inputs ctx k.threadIndex y ∨ y ∈ Code.declared k.body) ∧
    (∀ y, f.Surfaces pat inputs ctx y → y ∈ Code.reads k.body) ∧
    (∀ y ∈ Code.declared k.body, y ∈ f.bindings ∨ ctx.names.next < y.tag) ∧
    ∀ y ∈ f.scalars, y ∈ Code.declared k.body := by
  have hown : ∀ x, (∃ ty, ctx.vars.get? x = some (.scalar ty)) ∨ x ∈ f.scalars →
      x ∈ f.occurrences ∨ x ∈ f.bindings → f.MayRead pat inputs ctx k.threadIndex x :=
    fun x hk hx => .inl ⟨hk, hx⟩
  have hthread : f.MayRead pat inputs ctx k.threadIndex k.threadIndex := .inr (.inl rfl)
  obtain ⟨code, writes, hbody, -, hyields, hwrites⟩ :=
    launch.code (launch.knownScalars hctx hnew) rfl rfl hscoped hown hthread
  obtain ⟨-, hresults⟩ :=
    Lambda.respects_threadRoles inputs launch.extract hscoped hown hthread
  have hreads : ∀ y, y ∈ Code.reads k.body ↔ y ∈ Code.reads code ∨ y ∈ Code.reads writes := by
    intro y
    rw [hbody, Code.reads, Code.gather_append, List.mem_append]
  have hdeclared : ∀ y, y ∈ Code.declared k.body ↔ y ∈ Code.declared code := by
    intro y
    rw [hbody, Code.declared, Code.gather_append, ← Code.declared, ← Code.declared,
      declared_resultWrites hwrites, List.append_nil]
  refine ⟨fun y hy => ?_, fun y hy => ?_, fun y hy => ?_, fun y hy => ?_⟩
  · rw [hdeclared]
    rcases (hreads y).mp hy with hy | hy
    · exact (hyields.reads y hy).imp_right fun h => h.resolve_left List.not_mem_nil
    · refine .inl ?_
      rcases mem_reads_resultWrites hwrites hy with rfl | hplace | ⟨a, ha, hvalue⟩
      · exact hthread
      · exact .inr (.inr (.inr hplace))
      · exact hresults a ha y hvalue
  · rcases hy with ⟨x, hx, ty, p, hp, hrow | ⟨hhead, d, hd, hextent⟩⟩ | ⟨b, hb, p, hp, hrow⟩
    · exact (launch.read_of_input hctx hnew hx hp).2 y (Layout.mem_occurrences_position_var.1 hrow)
    · have hbound : x ∉ f.bindings := fun h => (hnew x h).2.1 hx
      have htag : x.tag < ctx.names.next := hctx x (Context.mem_mentioned_of_get? hp)
      have hhome := launch.get?_home hbound htag
      rw [hp] at hhome
      refine (hreads y).mpr (.inl ?_)
      exact hyields.heads x hhead (launch.not_new _ rfl rfl hbound htag) ty p hhome d hd y hextent
    · exact (hreads y).mpr (.inr (rowVars_read_by_resultWrites hwrites hb hp y hrow))
  · rcases hyields.declared y ((hdeclared y).mp hy) with hb | hnext
    · exact .inl hb
    · have hle : start.names.next + 1 ≤ y.tag := hnext
      rw [launch.names_start] at hle
      exact .inr hle
  · exact (hdeclared y).mpr (hyields.declares y hy)

/-- **What is passed** are the scalars that the lambda captures. -/
theorem passed_iff {y : Name} : (∃ ty, .scalar y ty ∈ k.copyIn) ↔ f.Captures ctx y := by
  have hkeys : ∀ x ∈ ctx.vars.keys, x.tag < ctx.names.next :=
    fun x hx => hctx x (Context.mem_mentioned_of_mem_keys hx)
  obtain ⟨-, hfree, hplan⟩ := Context.copyIn_eq_ok launch.copyIn
  constructor
  · rintro ⟨ty, hmem⟩
    rcases hplan _ hmem with ⟨x, -, ty', p, size, -, heq⟩ | ⟨x, hx, ⟨size, heq⟩ | ⟨ty', hs, heq⟩⟩
    · cases heq
    · cases heq
    · cases heq
      rw [launch.get?_planned hkeys (Lambda.mem_free.mp hx).2] at hs
      exact ⟨hx, ty, hs⟩
  · rintro ⟨hy, ty, hs⟩
    have hinput : y ∉ inputs := by
      intro hin
      obtain ⟨ty', p, hp, -⟩ := launch.moves_input hkeys hnew hin
      rw [hs] at hp
      cases hp
    have hplanned := launch.get?_planned hkeys (Lambda.mem_free.mp hy).2
    rcases hfree y hy hinput with ⟨ty', -, hmem⟩ | ⟨⟨size, space, hb⟩, -⟩
    · exact ⟨ty', hmem⟩
    · rw [hplanned, hs] at hb
      cases hb

end Launch

/-- **The scalars that a kernel reads are there exactly if the lambda reads what
surfaces.**  All names that are used outside of the lambda have been drawn, those that it
binds are used nowhere else, and it reads as scalars what are scalars.  Then each variable
that is read in a kernel made of it is the thread index, is declared in the kernel, or is
passed to it, if and only if every variable that surfaces is a scalar that the lambda
reads from outside. -/
theorem lowerMapKernel_scalars {pat : List Binder} {f : Lambda} {inputs : List Name}
    {ctx : Context} (hctx : ∀ x ∈ ctx.mentioned, x.tag < ctx.names.next)
    (hpat : ∀ b ∈ pat, ∀ x ∈ b.occurrences, x.tag < ctx.names.next)
    (hnew : ∀ x ∈ f.bindings, x ∉ ctx.mentioned ∧ x ∉ inputs ∧ ∀ b ∈ pat, x ∉ b.occurrences)
    (hscoped : f.WellScoped ctx)
    (hok : ((lowerMapKernel pat f inputs).run ctx).outcome = .ok ()) :
    ∃ own k, ((lowerMapKernel pat f inputs).run ctx).emitted = hoistCode own ++ [.kernel k] ∧
      ((∀ x ∈ Code.reads k.body, k.Supplies x) ↔
        ∀ y, f.Surfaces pat inputs ctx y → f.Captures ctx y) := by
  rcases hrun : (lowerMapKernel pat f inputs).run ctx with ⟨o, code, last⟩
  rw [hrun] at hok
  obtain rfl : o = .ok () := hok
  obtain ⟨front, k, pruned, hoisted, start, inner, launch, rfl⟩ := lowerMapKernel_eq_ok hrun
  obtain ⟨hreads, hsurfaces, hdeclared, hdeclares⟩ :=
    launch.reads_and_declares hctx hnew hscoped
  refine ⟨(hoisted.scale k.threadCount).entries, k, by rw [launch.front_eq], ?_⟩
  constructor
  · intro hall y hy
    -- What surfaces was there before, so that it is neither the thread index nor declared.
    have htag : y.tag < ctx.names.next := by
      rcases Lambda.mentioned_of_surfaces hy with h | ⟨b, hb, h⟩
      · exact hctx y h
      · exact hpat b hb y h
    rcases hall y (hsurfaces y hy) with rfl | hd | hpassed
    · rw [launch.tag_thread] at htag
      exact absurd htag (Nat.lt_irrefl _)
    · rcases hdeclared y hd with hb | hnext
      · obtain ⟨hmentioned, -, hplaces⟩ := hnew y hb
        rcases Lambda.mentioned_of_surfaces hy with h | ⟨b, hb, h⟩
        · exact absurd h hmentioned
        · exact absurd h (hplaces b hb)
      · exact absurd (Nat.lt_trans hnext htag) (Nat.lt_irrefl _)
    · exact (launch.passed_iff hctx hnew).mp hpassed
  · intro hall x hx
    rcases hreads x hx with (⟨hkind, hx⟩ | rfl | hy) | hd
    · rcases hkind with ⟨ty, hs⟩ | hs
      · refine .inr (.inr ((launch.passed_iff hctx hnew).mpr ⟨?_, ty, hs⟩))
        have hbound : x ∉ f.bindings :=
          fun hb => (hnew x hb).1 (Context.mem_mentioned_of_get? hs)
        exact Lambda.mem_free.mpr ⟨hx.resolve_right hbound, hbound⟩
      · exact .inr (.inl (hdeclares x hs))
    · exact .inl rfl
    · exact .inr (.inr ((launch.passed_iff hctx hnew).mpr (hall x hy)))
    · exact .inr (.inl hd)

/-- Four elements of a block of eight, from a position on that a scalar tells, and a block
for four results. -/
def middleElements : Context :=
  let ctx := (((Context.initial {} ⟨20⟩).bindScalar ⟨"off", 10⟩ .i64).bindBlock ⟨"xs_mem", 0⟩
    (.const 8) .host).bindBlock ⟨"ys_mem", 2⟩ (.const 4) .host
  ctx.bindArray ⟨"xs", 3⟩ (.array .i64) ⟨⟨"xs_mem", 0⟩, ⟨.var ⟨"off", 10⟩, [.const 4]⟩⟩

/-- Every element is taken as it is. -/
def copyEach : Lambda where
  params := [⟨⟨"x", 5⟩, .i64, none⟩]
  body := ⟨[], [.var ⟨"x", 5⟩]⟩
  ret := [.i64]

/-- The lambda does not read the offset, so the kernel reads a scalar that is not passed. -/
theorem lowerMapKernel_scalars_copyEach :
    copyEach.WellScoped middleElements ∧
    ((lowerMapKernel [thirdArray] copyEach [⟨"xs", 3⟩]).run middleElements).outcome = .ok () ∧
    ∃ own k, ((lowerMapKernel [thirdArray] copyEach [⟨"xs", 3⟩]).run middleElements).emitted =
        hoistCode own ++ [.kernel k] ∧
      ¬ ∀ x ∈ Code.reads k.body, k.Supplies x := by
  have hscoped : copyEach.WellScoped middleElements := by
    refine ⟨fun _ _ => trivial, trivial, fun a ha x hx => .inr ?_⟩
    obtain rfl := List.mem_singleton.mp ha
    exact hx
  have hok : ((lowerMapKernel [thirdArray] copyEach [⟨"xs", 3⟩]).run
      middleElements).outcome = .ok () := by rfl
  obtain ⟨own, k, hemitted, hiff⟩ :=
    lowerMapKernel_scalars (by decide) (by decide) (by decide) hscoped hok
  refine ⟨hscoped, hok, own, k, hemitted, fun hall => ?_⟩
  have hcaptured := hiff.mp hall ⟨"off", 10⟩
    (.inl ⟨⟨"xs", 3⟩, by decide, _, _, rfl, .inl (by decide)⟩)
  exact absurd hcaptured.1 (by decide)

end KernelGen
