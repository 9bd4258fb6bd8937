import KernelGen.Proofs.Kernel.Hoisting
import KernelGen.Proofs.Kernel.Launch
import KernelGen.Proofs.Kernel.Transfers
import KernelGen.Proofs.Lowering.Contents
import KernelGen.Proofs.Slices.Shift

/-! # The code of a thread and its surroundings

The code of a thread is compiled where the blocks in front of the kernel have been made,
all blocks are on the device, and the thread index is a scalar (`Context.threadHome`).
`Lambda.surroundings` looks at it from there: the names of the lambda play the parts they
play in the program, and `scalar` says which variables the code may read.

`Launch.code` then splits the code of a thread into what the lambda compiles to, of which
`Surroundings.Yields` speaks, and the writes of the results. -/
namespace KernelGen
open Lowering

/-- The context in which a thread begins. -/
def Context.threadHome (start : Context) (thread : Name) : Context :=
  start.launched.enterDevice.bindScalar thread .i64

/-- But for the thread index, a thread finds what was there, with blocks on the device. -/
theorem Context.get?_threadHome_eq_some {start : Context} {thread x : Name} {e : Entry}
    (h : (start.threadHome thread).vars.get? x = some e) (he : ∀ ty, e ≠ .scalar ty) :
    ∃ e', start.vars.get? x = some e' ∧ e'.inSpace .global = e := by
  rw [threadHome, bindScalar, get?_bind] at h
  split at h
  · exact absurd (Option.some.inj h).symm (he .i64)
  · rw [get?_enterDevice] at h
    exact Option.map_eq_some_iff.mp h

/-- The parts that the names of a lambda play in the code of a thread. -/
def Lambda.threadRoles (f : Lambda) (inputs : List Name) (scalar : Name → Prop) : Roles where
  scalar := scalar
  array x := x ∈ f.occurrences ∨ x ∈ f.bindings ∨ x ∈ inputs
  head x := x ∈ f.occurrences ∧ x ∈ f.heads
  bound x := x ∈ f.bindings
  placed p := p.block ∈ f.occurrences ∧ ∀ y ∈ p.layout.occurrences, scalar y

namespace Surroundings
variable (S : Surroundings) {extra : List Name}

theorem emits_readThreadParam {thread : Name} {q : Binder × Name}
    (ht : S.roles.scalar thread ∨ thread ∈ extra) (hb : S.roles.bound q.1.name)
    (ha : S.roles.array q.2) :
    Emits S.Within (readThreadParam thread q) fun _ code => S.Yields extra [q.1.name] [] code := by
  rcases q with ⟨param, input⟩
  refine (S.emits_array ha).bind ?_
  rintro ⟨ty, p⟩ _ ⟨hp, rfl⟩
  exact Emits.guard fun _ => S.emits_readParam ty ht hb hp

theorem emits_readThreadParams {f : Lambda} {inputs : List Name} {scalar : Name → Prop}
    (thread : Name) (hroles : S.roles = f.threadRoles inputs scalar) (hthread : scalar thread) :
    ∀ q ∈ f.params.zip inputs, Emits S.Within (readThreadParam thread q) fun _ code =>
      S.Yields [] [q.1.name] [] code := by
  intro q hq
  have hparam : q.1.name ∈ f.bindings := by
    rcases f with ⟨params, body, ret⟩
    exact List.mem_append.mpr (.inl (List.mem_map_of_mem (List.of_mem_zip hq).1))
  refine S.emits_readThreadParam ?_ ?_ ?_
  all_goals rw [hroles]
  · exact .inl hthread
  · exact hparam
  · exact .inr (.inr (List.of_mem_zip hq).2)

end Surroundings

section
variable {α β γ : Type} {R : α → β → Prop} {as : List α} {bs : List β}

theorem forall₂_mem_left (h : List.Forall₂ R as bs) {a : α} (ha : a ∈ as) : ∃ b ∈ bs, R a b := by
  induction h with
  | nil => exact absurd ha List.not_mem_nil
  | cons hr _ ih =>
    rcases List.mem_cons.mp ha with rfl | ha
    · exact ⟨_, List.mem_cons_self .., hr⟩
    · obtain ⟨b, hb, hrb⟩ := ih ha
      exact ⟨b, List.mem_cons_of_mem _ hb, hrb⟩

theorem forall₂_mem_right (h : List.Forall₂ R as bs) {b : β} (hb : b ∈ bs) : ∃ a ∈ as, R a b :=
  forall₂_mem_left h.flip hb

/-- What is related to pairs is related to their first parts, each with some second part. -/
theorem forall₂_of_zip {R : α × β → γ → Prop} {cs : List γ} (hlen : as.length = bs.length)
    (h : List.Forall₂ R (as.zip bs) cs) :
    List.Forall₂ (fun a c => ∃ b ∈ bs, R (a, b) c) as cs := by
  have hmem : ∀ q ∈ as.zip bs, q.2 ∈ bs := fun q hq => (List.of_mem_zip hq).2
  have hboth := (List.forall₂_and_left _ _).mpr ⟨hmem, h⟩
  have hfst : List.Forall₂ (fun a c => ∃ b ∈ bs, R (a, b) c) ((as.zip bs).map Prod.fst) cs := by
    rw [List.forall₂_map_left_iff]
    exact hboth.imp fun q c h => ⟨q.2, h⟩
  rwa [List.map_fst_zip (Nat.le_of_eq hlen)] at hfst

end

/-- The write of the operand `a` to the thread's element of its destination. -/
def IsResultWrite (ctx : Context) (thread : Name) (d : Destination) (a : Operand) (s : Stmt) :
    Prop :=
  ∃ p ty space, d = .array p ty ∧ ctx.blockSpace p.block = .ok space ∧
    s = .write p.block (p.layout.position [.var thread]) ty space (.ofOperand a)

/-- For a result that is bound, in its place. -/
theorem IsResultWrite.of_binder {ctx : Context} {thread : Name} {b : Binder} {a : Operand}
    {s : Stmt} (h : IsResultWrite ctx thread b.destination a s) :
    ∃ p space, b.placement = some p ∧
      s = .write p.block (p.layout.position [.var thread]) b.ty.element space (.ofOperand a) := by
  obtain ⟨p, ty, space, hd, -, rfl⟩ := h
  rcases b with ⟨x, ty', _ | q⟩ <;> cases hd
  exact ⟨p, space, rfl, rfl⟩

theorem writeThreadResult_eq_ok {thread : Name} {q : Destination × Operand} {ctx last : Context}
    {code : Code} (h : (writeThreadResult thread q).run ctx = ⟨.ok (), code, last⟩) :
    last = ctx ∧ ∃ s, code = [s] ∧ IsResultWrite ctx thread q.1 q.2 s := by
  rcases q with ⟨_ | ⟨p, ty⟩, a⟩
  · cases h
  · have hwrite : ∃ front, (writeElement p [.var thread] ty a).run ctx = ⟨.ok (), front, last⟩ ∧
        code = front := by
      cases a with
      | const c => exact ⟨code, h, rfl⟩
      | var x =>
        obtain ⟨ty', c₁, ctx₁, rest, hask, hguard, rfl⟩ := run_bind_eq_ok.mp h
        obtain ⟨-, rfl, rfl⟩ := run_ask_eq_ok.mp hask
        exact ⟨rest, (run_guard_eq_ok.mp hguard).2, rfl⟩
    obtain ⟨front, hrun, rfl⟩ := hwrite
    obtain ⟨space, c₁, ctx₁, rest, hask, hemit, rfl⟩ := run_bind_eq_ok.mp hrun
    obtain ⟨hspace, rfl, rfl⟩ := run_ask_eq_ok.mp hask
    cases hemit
    exact ⟨rfl, _, rfl, p, ty, space, rfl, hspace, rfl⟩

/-- The results of a thread are written one by one, and nothing else is done. -/
theorem writeThreadResults_eq_ok {thread : Name} {qs : List (Destination × Operand)}
    {ctx last : Context} {code : Code}
    (h : (qs.forM (writeThreadResult thread)).run ctx = ⟨.ok (), code, last⟩) :
    last = ctx ∧ List.Forall₂ (fun q s => IsResultWrite ctx thread q.1 q.2 s) qs code := by
  induction qs generalizing ctx code with
  | nil =>
    cases h
    exact ⟨rfl, .nil⟩
  | cons q qs ih =>
    change (writeThreadResult thread q >>= fun _ => qs.forM (writeThreadResult thread)).run ctx = _
      at h
    obtain ⟨⟨⟩, front, mid, rest, hq, hqs, rfl⟩ := run_bind_eq_ok.mp h
    obtain ⟨rfl, s, rfl, hs⟩ := writeThreadResult_eq_ok hq
    obtain ⟨rfl, hrest⟩ := ih hqs
    exact ⟨rfl, .cons hs hrest⟩

/-- Every result of a kernel is an array. -/
theorem placed_of_writeThreadResults {pat : List Binder} {thread : Name}
    {results : List Operand} {ctx last : Context} {code : Code}
    (hlen : results.length = pat.length)
    (h : (((pat.map Binder.destination).zip results).forM (writeThreadResult thread)).run ctx =
      ⟨.ok (), code, last⟩) : ∀ b ∈ pat, b.placement.isSome := by
  intro b hb
  have hwrites := forall₂_of_zip (by rw [List.length_map, hlen]) (writeThreadResults_eq_ok h).2
  rw [List.forall₂_map_left_iff] at hwrites
  obtain ⟨s, -, a, -, hwrite⟩ := forall₂_mem_left hwrites hb
  obtain ⟨p, space, hp, -⟩ := hwrite.of_binder
  rw [hp]
  rfl

/-! ## The names of the lambda -/

namespace Lambda
variable {f : Lambda} {pruned : Body} {blocks : BlockSizes} {inputs : List Name}
  {scalar kinds : Name → Prop} {thread : Name}

/-- A layout in the slice of a thread reads the thread index and the size of the block too. -/
theorem occurrences_offsetBy {p : Placement} {y : Name}
    (hy : y ∈ (p.offsetBy (blocks.sliceOffsets thread)).layout.occurrences) :
    y ∈ p.layout.occurrences ∨ y = thread ∨
      ∃ size, blocks.get? p.block = some size ∧ y ∈ size.occurrences := by
  have hslice : (blocks.sliceOffsets thread).get? p.block =
      (blocks.get? p.block).map (Size.var thread).times := OrderedMap.get?_map ..
  cases hb : blocks.get? p.block with
  | none =>
    rw [hb, Option.map_none] at hslice
    rw [Placement.offsetBy, hslice] at hy
    exact .inl hy
  | some size =>
    rw [hb, Option.map_some] at hslice
    rw [Placement.offsetBy, hslice] at hy
    have hshift : y ∈ (p.layout.offset.plus ((Size.var thread).times size)).occurrences ++
        (p.layout.shape ++ p.layout.strides).flatMap Size.occurrences := hy
    rw [Size.occurrences_plus, List.mem_append, List.mem_append] at hshift
    rcases hshift with (hoffset | htimes) | hrest
    · exact .inl (List.mem_append.mpr (.inl hoffset))
    · have hpair := (Size.occurrences_times_sublist (.var thread) size).subset htimes
      rcases List.mem_cons.mp hpair with rfl | hsize
      · exact .inr (.inl rfl)
      · exact .inr (.inr ⟨size, rfl, hsize⟩)
    · exact .inl (List.mem_append.mpr (.inr hrest))

/-- **What is left of the lambda, moved into slices, plays the parts of its names**, where
scalars are what the lambda reads as such, and the thread index. -/
theorem respects_threadRoles (inputs : List Name) (hx : f.extract = .ok ⟨pruned, blocks⟩)
    (hk : f.Respects (.ofScalars kinds))
    (hscalar : ∀ x, kinds x → x ∈ f.occurrences ∨ x ∈ f.bindings → scalar x)
    (hthread : scalar thread) :
    Stm.RespectsAll (f.threadRoles inputs scalar)
      (pruned.offsetBy (blocks.sliceOffsets thread)).stms ∧
    ∀ a ∈ pruned.result, (f.threadRoles inputs scalar).Reads a := by
  have hnames : f.Respects (.ofNames (· ∈ f.occurrences) (· ∈ f.bindings) (· ∈ f.heads)) :=
    Lambda.respects_ofNames (fun _ h => h) (fun _ h => h) fun _ h => h
  -- Its own names say which are read, the kinds which of these are scalars.
  have hboth := Lambda.respects_both hnames hk
  have hinto : ((Roles.ofNames (· ∈ f.occurrences) (· ∈ f.bindings) (· ∈ f.heads)).both
      (.ofScalars kinds)).Into (Placement.offsetBy (blocks.sliceOffsets thread))
      (f.threadRoles inputs scalar) := by
    refine ⟨fun x h => hscalar x h.2 h.1, fun x h => h.1.imp_right .inl, fun x h => h.1,
      fun x h => h.1, fun p h => ⟨?_, fun y hy => ?_⟩⟩
    · rw [Placement.block_offsetBy]
      exact h.1.1
    · rcases occurrences_offsetBy hy with hl | rfl | ⟨size, hsize, hs⟩
      · exact hscalar y (h.2 y hl) (.inl (h.1.2 y hl))
      · exact hthread
      · have hboth := scalar_of_get? hboth hx hsize y hs
        exact hscalar y hboth.2 hboth.1
  obtain ⟨rfl, -, -⟩ := extract_eq_ok hx
  refine ⟨hinto.stms ((Stm.respectsAll_iff _).mpr fun stm hs => ?_), fun a ha => ?_⟩
  · exact (Stm.respectsAll_iff _).mp hboth.2.1 stm (List.mem_filter.mp hs).1
  · exact hinto.reads (hboth.2.2 a ha)

/-- What is left of the lambda declares its scalars and maps over its arrays. -/
theorem walks_offsetBy (hx : f.extract = .ok ⟨pruned, blocks⟩) (offsets : BlockOffsets) :
    Stm.scalarsAll (pruned.offsetBy offsets).stms = Stm.scalarsAll f.body.stms ∧
      Stm.headsAll (pruned.offsetBy offsets).stms = f.heads := by
  obtain ⟨rfl, -, -⟩ := extract_eq_ok hx
  obtain ⟨hscalars, hheads⟩ := Stm.walks_filter f.body.stms
  exact ⟨(Stm.scalarsAll_rewrite _ _ _).trans hscalars, (Stm.headsAll_rewrite _ _ _).trans hheads⟩

end Lambda

/-- The code of a thread from where it begins, with arrays that are there already reading
`scalar` variables only. -/
def Lambda.surroundings (f : Lambda) (inputs : List Name) (scalar : Name → Prop) (start : Context)
    (thread : Name)
    (outer : ∀ {x ty p}, (f.threadRoles inputs scalar).array x →
      (start.threadHome thread).vars.get? x = some (.array ty p) →
      ∀ indices, ∀ y ∈ (p.layout.position indices).occurrences,
        scalar y ∨ ∃ i ∈ indices, y ∈ i.occurrences)
    (extent : ∀ {x ty p}, (f.threadRoles inputs scalar).head x →
      (start.threadHome thread).vars.get? x = some (.array ty p) →
      ∀ d ∈ p.layout.shape.head?, ∀ y ∈ d.occurrences, scalar y) : Surroundings where
  home := start.threadHome thread
  roles := f.threadRoles inputs scalar
  device := rfl
  placed h := h.2
  outer := outer
  extent := extent

/-! ## Launches -/

namespace Launch
variable {pat : List Binder} {f : Lambda} {inputs : List Name} {ctx start inner : Context}
  {front : Code} {k : Kernel} {pruned : Body} {hoisted : BlockSizes}
  (launch : Launch pat f inputs ctx front k pruned hoisted start inner)
include launch

theorem front_eq : front = hoistCode (hoisted.scale k.threadCount).entries :=
  (hoist_eq_ok launch.hoist).1

theorem names_start : start.names = ctx.names := (hoist_eq_ok launch.hoist).2.names

theorem tag_thread : k.threadIndex.tag = ctx.names.next := by
  rw [launch.thread, launch.names_start]

theorem keys_start : ctx.vars.keys <+: start.vars.keys := (hoist_eq_ok launch.hoist).2.keys

/-- What hoisting does not make is there before. -/
theorem get?_start {x : Name} (hx : x ∉ hoisted.keys) :
    start.vars.get? x = ctx.vars.get? x := by
  refine (hoist_eq_ok launch.hoist).2.kept x ?_
  rwa [map_fst_scale]

/-- What hoisting makes are blocks. -/
theorem get?_start_of_hoisted {x : Name} (hx : x ∈ hoisted.keys) :
    ∃ size, start.vars.get? x = some (.block size .global) := by
  refine (hoist_eq_ok launch.hoist).2.gained x ?_
  rwa [map_fst_scale]

/-- The arrays that a thread finds are those of the context. -/
theorem array_of_home {x : Name} {ty : Ty} {p : Placement}
    (h : (start.threadHome k.threadIndex).vars.get? x = some (.array ty p)) :
    ctx.vars.get? x = some (.array ty p) := by
  obtain ⟨e, he, hspace⟩ := Context.get?_threadHome_eq_some h nofun
  have harray : start.vars.get? x = some (.array ty p) := by
    cases e with
    | scalar | block => cases hspace
    | array ty' p' =>
      cases hspace
      exact he
  by_cases hx : x ∈ hoisted.keys
  · obtain ⟨size, hblock⟩ := launch.get?_start_of_hoisted hx
    rw [harray] at hblock
    cases hblock
  · rwa [launch.get?_start hx] at harray

/-- The blocks that a thread finds were hoisted, or are blocks of the context. -/
theorem block_of_home {x : Name} {size : Size} {space : Space}
    (h : (start.threadHome k.threadIndex).vars.get? x = some (.block size space)) :
    x ∈ hoisted.keys ∨ ∃ size space, ctx.vars.get? x = some (.block size space) := by
  obtain ⟨e, he, hspace⟩ := Context.get?_threadHome_eq_some h nofun
  cases e with
  | scalar | array => cases hspace
  | block size' space' =>
    by_cases hx : x ∈ hoisted.keys
    · exact .inl hx
    · rw [launch.get?_start hx] at he
      exact .inr ⟨size', space', he⟩

/-- **The code of a thread**: what the lambda compiles to, then the writes of its results. -/
theorem code {kinds : Name → Prop} (S : Surroundings)
    (hhome : S.home = start.threadHome k.threadIndex) {scalar : Name → Prop}
    (hroles : S.roles = f.threadRoles inputs scalar) (hk : f.Respects (.ofScalars kinds))
    (hscalar : ∀ x, kinds x → x ∈ f.occurrences ∨ x ∈ f.bindings → scalar x)
    (hthread : scalar k.threadIndex) :
    ∃ code writes, k.body = code ++ writes ∧ S.Within inner ∧
      S.Yields [] f.scalars f.heads code ∧
      List.Forall₂ (fun b s => ∃ a ∈ pruned.result,
        IsResultWrite inner k.threadIndex b.destination a s) pat writes := by
  obtain ⟨hlen, hres, hrun⟩ := lowerThread_eq_ok launch.body
  rw [← Context.threadHome.eq_def, ← hhome] at hrun
  obtain ⟨⟨⟩, c₁, ctx₁, r₁, hreads, h₁, hbody₁⟩ := run_bind_eq_ok.mp hrun
  obtain ⟨⟨⟩, c₂, ctx₂, r₂, hstms, hwrites, rfl⟩ := run_bind_eq_ok.mp h₁
  obtain ⟨hrespects, -⟩ := Lambda.respects_threadRoles inputs launch.extract hk hscalar hthread
  rw [← hroles] at hrespects
  have hparams := S.emits_readThreadParams k.threadIndex hroles hthread
  obtain ⟨hwithin₁, hyields₁⟩ := S.emits_params hlen hparams Surroundings.within_home hreads
  obtain ⟨hwithin₂, hyields₂⟩ := S.emits_lowerAll hrespects hwithin₁ hstms
  obtain ⟨rfl, hall⟩ := writeThreadResults_eq_ok hwrites
  refine ⟨c₁ ++ c₂, r₂, ?_, hwithin₂, ?_, ?_⟩
  · rw [hbody₁, List.append_assoc]
  · obtain ⟨hscalars, hheads⟩ := Lambda.walks_offsetBy launch.extract
      (hoisted.sliceOffsets k.threadIndex)
    rw [hscalars, hheads] at hyields₂
    exact hyields₁.next hyields₂
  · have hresult : (pruned.offsetBy (hoisted.sliceOffsets k.threadIndex)).result =
        pruned.result := by
      rcases pruned with ⟨stms, result⟩
      exact List.map_id _
    rw [hresult] at hres hall
    have hwrite := forall₂_of_zip hres.symm hall
    rwa [List.forall₂_map_left_iff] at hwrite

/-- A name that was drawn before, and that the lambda does not bind, is what it was. -/
theorem get?_home {x : Name} (hx : x ∉ f.bindings) (htag : x.tag < ctx.names.next) :
    (start.threadHome k.threadIndex).vars.get? x =
      (ctx.vars.get? x).map (Entry.inSpace .global) := by
  have hhoisted : x ∉ hoisted.keys := fun h => hx (Lambda.binding_of_mem_keys launch.extract h)
  have hne : k.threadIndex ≠ x := by
    rintro rfl
    rw [launch.tag_thread] at htag
    exact absurd htag (Nat.lt_irrefl _)
  rw [Context.threadHome, Context.bindScalar, Context.get?_bind_of_ne _ hne,
    Context.get?_enterDevice]
  exact congrArg _ (launch.get?_start hhoisted)

/-- Nor does the code of a thread make it stand for anything else. -/
theorem not_new (S : Surroundings) (hhome : S.home = start.threadHome k.threadIndex)
    {scalar : Name → Prop} (hroles : S.roles = f.threadRoles inputs scalar) {x : Name}
    (hx : x ∉ f.bindings) (htag : x.tag < ctx.names.next) : ¬ S.New x := by
  rintro (hb | hnext)
  · rw [hroles] at hb
    exact hx hb
  · rw [hhome] at hnext
    have hle : start.names.next + 1 ≤ x.tag := hnext
    rw [launch.names_start] at hle
    omega

/-- **What is known when the transfers are planned**: of a name that the lambda does not
bind, what was known before. -/
theorem get?_after (S : Surroundings) (hhome : S.home = start.threadHome k.threadIndex)
    {scalar : Name → Prop} (hroles : S.roles = f.threadRoles inputs scalar)
    (hinner : S.Within inner) (hctx : ∀ x ∈ ctx.vars.keys, x.tag < ctx.names.next) {x : Name}
    (hx : x ∉ f.bindings) :
    (start.launched.leaveDevice inner).vars.get? x = ctx.vars.get? x := by
  have hkeys : start.launched.vars.keys <+: inner.vars.keys := by
    refine List.IsPrefix.trans ?_ hinner.keys
    rw [hhome]
    exact Context.keys_bind Context.keys_enterDevice _
  have hhoisted : x ∉ hoisted.keys := fun h => hx (Lambda.binding_of_mem_keys launch.extract h)
  have hstart := launch.get?_start hhoisted
  rw [Context.get?_leaveDevice hkeys]
  show (if x ∈ start.vars.keys then (inner.vars.get? x).map (Entry.spaceFrom (start.vars.get? x))
    else none) = _
  rw [hstart]
  -- The table is cut back to the names in front, among which new names are not.
  by_cases hmem : x ∈ ctx.vars.keys
  · have hnew := launch.not_new S hhome hroles hx (hctx x hmem)
    rw [if_pos (launch.keys_start.subset hmem), hinner.kept x hnew, hhome,
      launch.get?_home hx (hctx x hmem)]
    cases ctx.vars.get? x with
    | none => rfl
    | some e => cases e <;> rfl
  · have hnone := OrderedMap.get?_eq_none_iff.mpr hmem
    rw [hnone] at hstart ⊢
    rw [if_neg (OrderedMap.get?_eq_none_iff.mp hstart)]

end Launch

end KernelGen
