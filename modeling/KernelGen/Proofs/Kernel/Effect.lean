import KernelGen.Proofs.Context.Entries
import KernelGen.Proofs.Course.Kernels
import KernelGen.Proofs.Kernel.Blocks

/-! # The effect of lowering a map to a kernel

A map may be refused at many points: before its blocks are made, while the code of its
threads is compiled, when the transfers are planned.  What has been done by then is one of
two things: nothing, or all its blocks were made.  `run_lowerMapKernel` follows the steps
and says which; the names bound by the code of the threads are forgotten in any case, and
behind the kernel nothing can fail any more, as the results were found to be arrays.

With names that are new and all different this determines the table of the context in
every case (`lowerMapKernel_effect`). -/
namespace KernelGen
open Lowering Context

/-! ## The two changes that stay -/

/-- Blocks that all threads see, as entries. -/
def hoistEntries (blocks : List (Name × Size)) : List (Name × Entry) :=
  blocks.map fun (b, size) => (b, .block size .global)

/-- The arrays of a pattern, as entries. -/
def patternEntries (pat : List Binder) : List (Name × Entry) :=
  pat.filterMap fun b => b.placement.map fun p => (b.name, .array b.ty p)

/-- The blocks that a lambda allocates, as large as all its threads need. -/
def Lambda.ownBlocks (f : Lambda) (threads : Size) : List (Name × Size) :=
  f.body.allocations.map fun (b, size) => (b, size.times threads)

theorem map_fst_hoistEntries (blocks : List (Name × Size)) :
    (hoistEntries blocks).map Prod.fst = blocks.map Prod.fst := by
  rw [hoistEntries, List.map_map]
  rfl

theorem Lambda.map_fst_ownBlocks (f : Lambda) (threads : Size) :
    (f.ownBlocks threads).map Prod.fst = f.body.allocations.map Prod.fst := by
  rw [ownBlocks, List.map_map]
  rfl

theorem map_fst_patternEntries_sublist (pat : List Binder) :
    ((patternEntries pat).map Prod.fst).Sublist (pat.map Binder.name) := by
  induction pat with
  | nil => exact List.Sublist.refl _
  | cons b pat ih =>
    rw [patternEntries, List.filterMap_cons]
    cases hp : b.placement with
    | none => exact ih.trans (List.sublist_cons_self ..)
    | some p => exact ih.cons_cons b.name

/-- Extents that are scaled one by one. -/
theorem entries_scale {f : Lambda} {pruned : Body} {blocks : BlockSizes}
    (h : f.extract = .ok ⟨pruned, blocks⟩) (hnodup : (f.body.allocations.map Prod.fst).Nodup)
    (threads : Size) : (blocks.scale threads).entries = f.ownBlocks threads := by
  obtain ⟨-, rfl, -⟩ := Lambda.extract_eq_ok h
  show (OrderedMap.ofList f.body.allocations).entries.map _ = _
  rw [OrderedMap.entries_ofList hnodup]
  rfl

/-! ## The steps -/

namespace Lowering
variable {ctx : Context}

theorem run_forM_allocate_eq (blocks : List (Name × Size)) :
    (blocks.forM fun (b, size) => allocate b size .global).run ctx =
      ⟨.ok (), hoistCode blocks, ctx.bindAll (hoistEntries blocks)⟩ := by
  induction blocks generalizing ctx with
  | nil => rfl
  | cons q blocks ih =>
    rcases q with ⟨b, size⟩
    have hone : (allocate b size .global).run ctx =
        ⟨.ok (), [.declareBlock b .global, .allocate b size .global],
          ctx.bindBlock b size .global⟩ := rfl
    exact run_bind_eq_ok.mpr ⟨(), _, _, _, hone, ih, rfl⟩

/-- Hoisting is refused before anything is done, or done for all blocks. -/
theorem run_hoist (blocks : BlockSizes) (threads : Size) (ctx : Context) :
    (∃ e, (hoist blocks threads).run ctx = ⟨.error e, [], ctx⟩) ∨
      (hoist blocks threads).run ctx = ⟨.ok (), hoistCode (blocks.scale threads).entries,
        ctx.bindAll (hoistEntries (blocks.scale threads).entries)⟩ := by
  unfold hoist
  split
  · rename_i block _ _
    have hask : (ask (pure ·.settings.hoistAllocations)).run ctx =
        ⟨.ok ctx.settings.hoistAllocations, [], ctx⟩ := rfl
    rw [run_bind_of_ok _ hask]
    cases ctx.settings.hoistAllocations with
    | true => exact .inr (run_forM_allocate_eq _)
    | false => exact .inl ⟨.threadAllocation block, rfl⟩
  · exact .inr (run_forM_allocate_eq _)

/-- Asking for the width changes nothing, whatever the answer. -/
theorem run_width_or (inputs : List Name) (flat : Name → Fault) :
    (∃ e, (width inputs flat).run ctx = ⟨.error e, [], ctx⟩) ∨
      ∃ threads, (width inputs flat).run ctx = ⟨.ok threads, [], ctx⟩ := by
  match inputs with
  | [] => exact .inl ⟨_, rfl⟩
  | first :: rest =>
    rw [width]
    cases hshape : ctx.shape first with
    | error e => exact .inl ⟨e, run_bind_of_error _ (by rw [run_ask, hshape])⟩
    | ok shape =>
      rw [run_bind_of_ok _ (by rw [run_ask, hshape])]
      cases shape with
      | nil => exact .inl ⟨_, rfl⟩
      | cons extent _ => exact .inr ⟨extent, rfl⟩

/-- **The arrays of a pattern are bound without fail.** -/
theorem run_forM_bindBinder_of_placed {pat : List Binder}
    (hplaced : ∀ b ∈ pat, b.placement.isSome) :
    (pat.forM bindBinder).run ctx = ⟨.ok (), [], ctx.bindAll (patternEntries pat)⟩ := by
  induction pat generalizing ctx with
  | nil => rfl
  | cons b pat ih =>
    rw [List.forall_mem_cons] at hplaced
    rcases b with ⟨x, ty, _ | p⟩
    · cases hplaced.1
    · have hone : (bindBinder ⟨x, ty, some p⟩).run ctx = ⟨.ok (), [], ctx.bindArray x ty p⟩ := rfl
      exact run_bind_eq_ok.mpr ⟨(), _, _, _, hone, ih hplaced.2, rfl⟩

/-- What the code of a thread leaves of the context, and that all results are arrays if it
was compiled. -/
theorem run_lowerThread (thread : Name) (params : List Binder) (body : Body) (inputs : List Name)
    (pat : List Binder) (ctx : Context) :
    EvolvesWithin (thread :: (params.map Binder.name ++ Stm.bindingsAll body.stms)) ctx
      ((lowerThread thread params body inputs (pat.map Binder.destination)).run ctx).ctx ∧
    (((lowerThread thread params body inputs (pat.map Binder.destination)).run ctx).outcome =
      .ok () → ∀ b ∈ pat, b.placement.isSome) := by
  constructor
  · have hfollows : Follows false (thread :: (params.map Binder.name ++
        Stm.bindingsAll body.stms)) (Stm.bindingsAll body.stms) (lowerThread thread params body
          inputs (pat.map Binder.destination)) := by
      refine follows_lowerThread inputs _ (List.mem_cons_self ..) ?_ ?_
      · intro b hb
        exact List.mem_cons_of_mem _ (List.mem_append.mpr (.inl (List.mem_map_of_mem hb)))
      · intro x hx
        exact List.mem_cons_of_mem _ (List.mem_append.mpr (.inr hx))
    exact hfollows.evolvesWithin ctx
  · intro hok
    rcases hrun : (lowerThread thread params body inputs (pat.map Binder.destination)).run ctx
      with ⟨o, code, last⟩
    rw [hrun] at hok
    obtain rfl : o = .ok () := hok
    obtain ⟨-, hlen, hrest⟩ := lowerThread_eq_ok hrun
    obtain ⟨_, _, _, _, -, hrest, -⟩ := run_bind_eq_ok.mp hrest
    obtain ⟨_, _, _, _, -, hwrites, -⟩ := run_bind_eq_ok.mp hrest
    exact placed_of_writeThreadResults (by rw [hlen, List.length_map]) hwrites

/-- What the code of a thread binds, the drawn names apart: the thread index, the parameters
and what the rest of the body binds. -/
def threadBindings (f : Lambda) (sliced : Body) (thread : Name) : List Name :=
  thread :: (f.params.map Binder.name ++ Stm.bindingsAll sliced.stms)

/-- **From the first name that is drawn to the end.**  What the code of a thread bound is
forgotten; then there is an error and nothing was emitted, or one kernel was emitted and
the arrays of the pattern were bound. -/
theorem run_launch (pat : List Binder) (f : Lambda) (inputs : List Name) (threads : Size)
    (sliced : Name → Body) (ctx : Context) :
    let launch : Lowering Unit := do
      let thread ← fresh (← ask (pure ·.settings.threadIndexBase))
      let dests := pat.map Binder.destination
      let code ← onDevice (collect (lowerThread thread f.params (sliced thread) inputs dests))
      let copyIn ← ask (·.copyIn f inputs)
      let copyOut ← ask (·.copyOut dests)
      emit (.kernel ⟨thread, threads, copyIn, copyOut, code⟩)
      pat.forM bindBinder
    let thread : Name := ⟨ctx.settings.threadIndexBase, ctx.names.next⟩
    ∃ inner, EvolvesWithin (threadBindings f (sliced thread) thread) ctx.launched.enterDevice
        inner ∧
      ((∃ e, launch.run ctx = ⟨.error e, [], ctx.launched.leaveDevice inner⟩) ∨
        ∃ k : Kernel, k.threadCount = threads ∧ (∀ b ∈ pat, b.placement.isSome) ∧
          launch.run ctx = ⟨.ok (), [.kernel k],
            (ctx.launched.leaveDevice inner).bindAll (patternEntries pat)⟩) := by
  intro launch thread
  let code := lowerThread thread f.params (sliced thread) inputs (pat.map Binder.destination)
  obtain ⟨hevolves, hplaced⟩ := run_lowerThread thread f.params (sliced thread) inputs pat
    ctx.launched.enterDevice
  refine ⟨(code.run ctx.launched.enterDevice).ctx, hevolves, ?_⟩
  -- The tail, with the kernel and what comes behind it apart.
  have htail : launch.run ctx = run (onDevice (collect code) >>= fun body =>
      (do
        let copyIn ← ask (·.copyIn f inputs)
        let copyOut ← ask (·.copyOut (pat.map Binder.destination))
        emit (.kernel ⟨thread, threads, copyIn, copyOut, body⟩)) >>= fun _ =>
          pat.forM bindBinder) ctx.launched := by
    simp only [bind_assoc]
    rfl
  rw [htail]
  rcases run_onDevice_collect code ctx.launched with ⟨body, hbody, hdevice⟩ | ⟨e, hdevice⟩
  · rw [run_bind_of_ok _ hdevice]
    rcases run_plan f inputs (pat.map Binder.destination) thread threads body
      (ctx.launched.leaveDevice (code.run ctx.launched.enterDevice).ctx) with
      ⟨k, hk, -, hplan⟩ | ⟨e, hplan⟩
    · have hall := hplaced (congrArg Run.outcome hbody)
      rw [run_bind_of_ok _ hplan, run_forM_bindBinder_of_placed hall]
      exact .inr ⟨k, hk, hall, rfl⟩
    · rw [run_bind_of_error _ hplan]
      exact .inl ⟨e, rfl⟩
  · rw [run_bind_of_error _ hdevice]
    exact .inl ⟨e, rfl⟩

/-- **How a map is lowered**: refused before anything is done, or after its blocks were made,
or not at all. -/
theorem run_lowerMapKernel (pat : List Binder) (f : Lambda) (inputs : List Name) (ctx : Context) :
    (∃ e, (lowerMapKernel pat f inputs).run ctx = ⟨.error e, [], ctx⟩) ∨
    ∃ threads pruned blocks inner,
      (width inputs .kernelInputFlat).run ctx = ⟨.ok threads, [], ctx⟩ ∧
      f.extract = .ok ⟨pruned, blocks⟩ ∧
      let made := (blocks.scale threads).entries
      let start := ctx.bindAll (hoistEntries made)
      let thread : Name := ⟨ctx.settings.threadIndexBase, ctx.names.next⟩
      EvolvesWithin (threadBindings f (pruned.offsetBy (blocks.sliceOffsets thread)) thread)
        start.launched.enterDevice inner ∧
      ((∃ e, (lowerMapKernel pat f inputs).run ctx =
          ⟨.error e, hoistCode made, start.launched.leaveDevice inner⟩) ∨
        ∃ k : Kernel, k.threadCount = threads ∧ (∀ b ∈ pat, b.placement.isSome) ∧
          (lowerMapKernel pat f inputs).run ctx = ⟨.ok (), hoistCode made ++ [.kernel k],
            (start.launched.leaveDevice inner).bindAll (patternEntries pat)⟩) := by
  rcases run_width_or inputs .kernelInputFlat with ⟨e, hwidth⟩ | ⟨threads, hwidth⟩
  · exact .inl ⟨e, run_bind_of_error _ hwidth⟩
  cases hextract : f.extract with
  | error e =>
    refine .inl ⟨e, ?_⟩
    rw [lowerMapKernel, run_bind_of_ok _ hwidth, run_bind_of_error _ (by rw [run_ask, hextract])]
    rfl
  | ok extraction =>
    rcases extraction with ⟨pruned, blocks⟩
    rw [lowerMapKernel, run_bind_of_ok _ hwidth, run_bind_of_ok _ (by rw [run_ask, hextract])]
    rcases run_hoist blocks threads ctx with ⟨e, hhoist⟩ | hhoist
    · rw [run_bind_of_error _ hhoist]
      exact .inl ⟨e, rfl⟩
    · rw [run_bind_of_ok _ hhoist]
      obtain ⟨inner, hevolves, hrest⟩ := run_launch pat f inputs threads
        (fun thread => pruned.offsetBy (blocks.sliceOffsets thread))
        (ctx.bindAll (hoistEntries (blocks.scale threads).entries))
      rw [settings_bindAll, names_bindAll] at hevolves
      refine .inr ⟨threads, pruned, blocks, inner, hwidth, rfl, hevolves, ?_⟩
      rcases hrest with ⟨e, hrest⟩ | ⟨k, hk, hplaced, hrest⟩
      · rw [hrest]
        exact .inl ⟨e, by simp⟩
      · rw [hrest]
        exact .inr ⟨k, hk, hplaced, by simp⟩

end Lowering

/-! ## The effect -/

/-- The outermost extent of the first input. -/
def Context.HeadExtent (ctx : Context) (inputs : List Name) (extent : Size) : Prop :=
  ∃ first ty p, inputs.head? = some first ∧ ctx.vars.get? first = some (.array ty p) ∧
    p.layout.shape.head? = some extent

/-- How the lowering of a map went: what it emitted and how it changed the table of names. -/
inductive MapEffect (pat : List Binder) (f : Lambda) (inputs : List Name) (ctx : Context) :
    Run Unit → Prop
  /-- It was refused before anything was done. -/
  | refused {e : CompileError} {last : Context} (table : last.vars.entries = ctx.vars.entries) :
    MapEffect pat f inputs ctx ⟨.error e, [], last⟩
  /-- It was refused when its blocks had been made. -/
  | hoisted {e : CompileError} {last : Context} {threads : Size}
    (extent : ctx.HeadExtent inputs threads)
    (table : last.vars.entries = ctx.vars.entries ++ hoistEntries (f.ownBlocks threads)) :
    MapEffect pat f inputs ctx ⟨.error e, hoistCode (f.ownBlocks threads), last⟩
  /-- It became a kernel, whose results are arrays. -/
  | launched {last : Context} {threads : Size} {k : Kernel}
    (extent : ctx.HeadExtent inputs threads) (count : k.threadCount = threads)
    (placed : ∀ b ∈ pat, b.placement.isSome)
    (table : last.vars.entries =
      ctx.vars.entries ++ hoistEntries (f.ownBlocks threads) ++ patternEntries pat) :
    MapEffect pat f inputs ctx ⟨.ok (), hoistCode (f.ownBlocks threads) ++ [.kernel k], last⟩

theorem kernel_not_mem_hoistCode {blocks : List (Name × Size)} {k : Kernel} :
    .kernel k ∉ hoistCode blocks := by
  intro h
  obtain ⟨⟨b, size⟩, -, hk⟩ := List.mem_flatMap.mp h
  rcases List.mem_cons.mp hk with hk | hk
  · cases hk
  · cases List.mem_singleton.mp hk

section
variable {pat : List Binder} {f : Lambda} {ctx : Context}

/-- The blocks of a lambda are among the names that it binds. -/
theorem Lambda.map_fst_allocations_sublist (f : Lambda) :
    (f.body.allocations.map Prod.fst).Sublist f.bindings := by
  rcases f with ⟨params, body, ret⟩
  exact body.map_fst_allocations_sublist.trans (List.sublist_append_right ..)

/-- **The blocks come behind what was there**, when the lambda binds new names. -/
theorem entries_bindAll_ownBlocks (hnew : ∀ x ∈ f.bindings, x ∉ ctx.vars.keys)
    (hnodup : f.bindings.Nodup) (threads : Size) :
    (ctx.bindAll (hoistEntries (f.ownBlocks threads))).vars.entries =
      ctx.vars.entries ++ hoistEntries (f.ownBlocks threads) := by
  have hallocations := f.map_fst_allocations_sublist
  refine entries_bindAll ?_
  rw [map_fst_hoistEntries, Lambda.map_fst_ownBlocks, List.nodup_append]
  refine ⟨ctx.vars.nodup, hnodup.sublist hallocations, ?_⟩
  rintro x hx _ hy rfl
  exact hnew x (hallocations.subset hy) hx

theorem keys_bindAll_ownBlocks (hnew : ∀ x ∈ f.bindings, x ∉ ctx.vars.keys)
    (hnodup : f.bindings.Nodup) (threads : Size) :
    (ctx.bindAll (hoistEntries (f.ownBlocks threads))).vars.keys =
      ctx.vars.keys ++ f.body.allocations.map Prod.fst := by
  rw [OrderedMap.keys, entries_bindAll_ownBlocks hnew hnodup, List.map_append,
    map_fst_hoistEntries, Lambda.map_fst_ownBlocks]
  rfl

/-- No name that is known when the blocks have been made is bound by the code of a thread. -/
theorem not_mem_of_evolves {pruned : Body} {blocks : BlockSizes} {start inner : Context}
    {xs : List Name} (hnames : start.names = ctx.names) {offsets : BlockOffsets} {thread : Name}
    (hthread : thread.tag = ctx.names.next) (hextract : f.extract = .ok ⟨pruned, blocks⟩)
    (hctx : ∀ x ∈ ctx.vars.keys, x.tag < ctx.names.next)
    (hnew : ∀ x ∈ f.bindings, x ∉ ctx.vars.keys ∧ x.tag < ctx.names.next)
    (hnodup : f.bindings.Nodup)
    (hxs : ∀ x ∈ xs, x ∈ threadBindings f (pruned.offsetBy offsets) thread ∨
      Drawn start.launched.enterDevice inner x) {x : Name}
    (hx : x ∈ ctx.vars.keys ++ f.body.allocations.map Prod.fst) : x ∉ xs := by
  have hsliced := Lambda.bindingsAll_sliced_sublist hextract offsets
  have hmade := f.map_fst_allocations_sublist
  have hallocations := f.body.map_fst_allocations_sublist
  rcases f with ⟨params, ⟨stms, result⟩, ret⟩
  have htag : x.tag < ctx.names.next := by
    rcases List.mem_append.mp hx with hx | hx
    · exact hctx x hx
    · exact (hnew x (hmade.subset hx)).2
  obtain ⟨-, hbody, hdisjoint⟩ := List.nodup_append.mp hnodup
  intro hmem
  rcases hxs x hmem with hbound | hdrawn
  · rcases List.mem_cons.mp hbound with rfl | hbound
    · omega
    rcases List.mem_append.mp hx with hx | hx
    · -- Names of the context are not bound in the lambda.
      refine (hnew x (List.mem_append.mpr ?_)).1 hx
      exact (List.mem_append.mp hbound).imp_right fun h => hsliced.subset h
    · -- The blocks that were taken out are bound nowhere else in it.
      rcases List.mem_append.mp hbound with hparam | hleft
      · exact hdisjoint x hparam x (hallocations.subset hx) rfl
      · obtain ⟨rfl, -, -⟩ := Lambda.extract_eq_ok hextract
        have hrest : x ∈ Stm.bindingsAll (Stm.rewriteAll (·.offsetBy offsets) id
            (stms.filter (·.allocation?.isNone))) := hleft
        rw [Stm.bindingsAll_rewrite] at hrest
        exact Stm.not_mem_bindingsAll_filter hbody hx hrest
  · have hlow : start.launched.names.next ≤ x.tag := hdrawn.1
    rw [Context.launched, hnames] at hlow
    exact absurd htag (Nat.not_lt.mpr (Nat.le_of_succ_le hlow))

/-- Back from the device, flag and settings are what they were, and names were drawn. -/
theorem leaveDevice_launched {inner : Context} {xs : List Name}
    (h : ctx.launched.enterDevice.Evolves xs inner) :
    (ctx.launched.leaveDevice inner).onDevice = ctx.onDevice ∧
      (ctx.launched.leaveDevice inner).settings = ctx.settings ∧
      ctx.names.next ≤ (ctx.launched.leaveDevice inner).names.next :=
  ⟨rfl, h.settings, Nat.le_of_succ_le h.next_le⟩

/-- Patterns bind other names than lambdas. -/
theorem nodup_patternEntries {keys : List Name}
    (hkeys : keys = ctx.vars.keys ++ f.body.allocations.map Prod.fst) (hnodup : keys.Nodup)
    (hnew : ∀ x ∈ pat.map Binder.name, x ∉ ctx.vars.keys)
    (hnames : (pat.map Binder.name ++ f.bindings).Nodup) :
    (keys ++ (patternEntries pat).map Prod.fst).Nodup := by
  obtain ⟨hpat, -, hdisjoint⟩ := List.nodup_append.mp hnames
  have hsublist := map_fst_patternEntries_sublist pat
  rw [List.nodup_append]
  refine ⟨hnodup, hpat.sublist hsublist, ?_⟩
  rintro x hx _ hy rfl
  rw [hkeys, List.mem_append] at hx
  rcases hx with hx | hx
  · exact hnew x (hsublist.subset hy) hx
  · exact hdisjoint x (hsublist.subset hy) x (f.map_fst_allocations_sublist.subset hx) rfl

end

/-- **The effect of lowering a map to a kernel.**  The names of the pattern and of the lambda
are all different, none is bound in the context, and all names are drawn already.  Then
either nothing was emitted and the table of names is what it was; or the blocks of the
lambda were declared and allocated, in order, each as large as all threads need, they were
added to the table in this order, and that is all, or behind them one kernel was emitted
and the arrays of the pattern were added to the table.  Only the last is a success, so
where a kernel was emitted nothing fails.  The flag and the settings are what they were,
and names were drawn at most. -/
theorem lowerMapKernel_effect {pat : List Binder} {f : Lambda} {inputs : List Name}
    {ctx : Context} (hctx : ∀ x ∈ ctx.vars.keys, x.tag < ctx.names.next)
    (hnew : ∀ x ∈ pat.map Binder.name ++ f.bindings,
      x ∉ ctx.vars.keys ∧ x.tag < ctx.names.next)
    (hnodup : (pat.map Binder.name ++ f.bindings).Nodup) :
    let r := (lowerMapKernel pat f inputs).run ctx
    MapEffect pat f inputs ctx r ∧ (∀ k, .kernel k ∈ r.emitted → r.outcome = .ok ()) ∧
      r.ctx.onDevice = ctx.onDevice ∧ r.ctx.settings = ctx.settings ∧
      ctx.names.next ≤ r.ctx.names.next := by
  intro r
  obtain ⟨-, hlambda, -⟩ := List.nodup_append.mp hnodup
  obtain ⟨hpat, hf⟩ := List.forall_mem_append.mp hnew
  rcases run_lowerMapKernel pat f inputs ctx with ⟨e, hrun⟩ |
    ⟨threads, pruned, blocks, inner, hwidth, hextract, ⟨xs, hevolves, hxs⟩, hrun⟩
  · have hr : r = ⟨.error e, [], ctx⟩ := hrun
    rw [hr]
    exact ⟨.refused rfl, nofun, rfl, rfl, Nat.le_refl _⟩
  obtain ⟨-, -, first, hfirst, ty, p, hp, hextent⟩ := run_width hwidth
  have hextent : ctx.HeadExtent inputs threads := ⟨first, ty, p, hfirst, hp, hextent⟩
  rw [entries_scale hextract (hlambda.sublist f.map_fst_allocations_sublist)] at hevolves hxs hrun
  have hstart := entries_bindAll_ownBlocks (fun x hx => (hf x hx).1) hlambda threads
  have hkeys := keys_bindAll_ownBlocks (fun x hx => (hf x hx).1) hlambda threads
  obtain ⟨hflag, hsettings, hnext⟩ := leaveDevice_launched hevolves
  rw [onDevice_bindAll] at hflag
  rw [settings_bindAll] at hsettings
  rw [names_bindAll] at hnext
  -- What is bound on the device is forgotten.
  have hleft := entries_leaveDevice hevolves fun x hx => by
    have hx : x ∈ (ctx.bindAll (hoistEntries (f.ownBlocks threads))).vars.keys := hx
    rw [hkeys] at hx
    exact not_mem_of_evolves (names_bindAll ..) rfl hextract hctx hf hlambda hxs hx
  rcases hrun with ⟨e, hrun⟩ | ⟨k, hk, hplaced, hrun⟩
  · have hr : r = _ := hrun
    rw [hr]
    refine ⟨.hoisted hextent (hleft.trans hstart), fun k hmem => ?_, hflag, hsettings, hnext⟩
    exact absurd hmem kernel_not_mem_hoistCode
  · have hr : r = _ := hrun
    have hback := (congrArg (List.map Prod.fst) hleft).trans hkeys
    have hpattern := nodup_patternEntries hback (OrderedMap.nodup _)
      (fun x hx => (hpat x hx).1) hnodup
    rw [hr]
    refine ⟨.launched hextent hk hplaced ?_, fun _ _ => rfl, ?_, ?_, ?_⟩
    · rw [entries_bindAll hpattern, hleft]
      exact congrArg (· ++ patternEntries pat) hstart
    · rw [onDevice_bindAll, hflag]
    · rw [settings_bindAll, hsettings]
    · rw [names_bindAll]
      exact hnext

/-- The kernel of `throughCell` comes behind the one block that it needs. -/
theorem lowerMapKernel_effect_throughCell :
    (∀ x ∈ (twoArrays 22).vars.keys, x.tag < (twoArrays 22).names.next) ∧
    (∀ x ∈ [thirdArray].map Binder.name ++ throughCell.bindings,
      x ∉ (twoArrays 22).vars.keys ∧ x.tag < (twoArrays 22).names.next) ∧
    ([thirdArray].map Binder.name ++ throughCell.bindings).Nodup ∧
    ((lowerMapKernel [thirdArray] throughCell [⟨"xs", 3⟩]).run (twoArrays 22)).outcome = .ok () ∧
    let r := (lowerMapKernel [thirdArray] throughCell [⟨"xs", 3⟩]).run (twoArrays 22)
    MapEffect [thirdArray] throughCell [⟨"xs", 3⟩] (twoArrays 22) r ∧
      (∀ k, .kernel k ∈ r.emitted → r.outcome = .ok ()) ∧
      r.ctx.onDevice = (twoArrays 22).onDevice ∧ r.ctx.settings = (twoArrays 22).settings ∧
      (twoArrays 22).names.next ≤ r.ctx.names.next :=
  ⟨by decide, by decide, by decide, rfl,
    lowerMapKernel_effect (by decide) (by decide) (by decide)⟩

end KernelGen
