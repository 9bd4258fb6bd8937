import KernelGen.Compile
import KernelGen.Proofs.Context.FirstOccurrence
import KernelGen.Proofs.Lowering.Runs
import KernelGen.Proofs.Program.Roles

/-! # Blocks in front of a kernel

The allocations that are taken out of a lambda bind names of it, and their sizes read none
that it binds (`extract_eq_ok`).  In front of the kernel the blocks are declared
and allocated, one after the other, and the context gains them and nothing else
(`hoist_eq_ok`). -/
namespace KernelGen

/-! ## Extraction -/

theorem Stm.mem_bindingsAll {stms : List Stm} {stm : Stm} (h : stm ∈ stms) {x : Name}
    (hx : x ∈ stm.bindings) : x ∈ Stm.bindingsAll stms := by
  induction stms with
  | nil => exact absurd h List.not_mem_nil
  | cons s stms ih =>
    rw [bindingsAll, List.mem_append]
    rcases List.mem_cons.mp h with rfl | h
    · exact .inl hx
    · exact .inr (ih h)

theorem Stm.allocation?_eq_some {stm : Stm} {block : Name} {size : Size}
    (h : stm.allocation? = some (block, size)) :
    ∃ b space, stm = ⟨[b], .alloc size space⟩ ∧ b.name = block := by
  rcases stm with ⟨pat, exp⟩
  unfold allocation? at h
  split at h
  · rename_i b size' space heq
    cases h
    exact ⟨b, space, heq, rfl⟩
  · cases h

/-- An allocation declares no scalar and heads no map. -/
theorem Stm.walks_of_allocation {stm : Stm} {a : Name × Size} (h : stm.allocation? = some a) :
    stm.scalars = [] ∧ stm.heads = [] := by
  obtain ⟨b, space, rfl, -⟩ := Stm.allocation?_eq_some h
  exact ⟨rfl, rfl⟩

/-- So nothing is lost to the two walks where allocations are taken out. -/
theorem Stm.walks_filter (stms : List Stm) :
    Stm.scalarsAll (stms.filter (·.allocation?.isNone)) = Stm.scalarsAll stms ∧
      Stm.headsAll (stms.filter (·.allocation?.isNone)) = Stm.headsAll stms := by
  induction stms with
  | nil => exact ⟨rfl, rfl⟩
  | cons stm stms ih =>
    rw [List.filter_cons, scalarsAll, headsAll]
    cases ha : stm.allocation? with
    | none =>
      rw [Option.isNone_none, if_pos rfl, scalarsAll, headsAll, ih.1, ih.2]
      exact ⟨rfl, rfl⟩
    | some a =>
      obtain ⟨hscalars, hheads⟩ := Stm.walks_of_allocation ha
      rw [hscalars, hheads]
      exact ih

namespace Lambda
variable {f : Lambda}

theorem mem_of_mem_allocations {block : Name} {size : Size}
    (h : (block, size) ∈ f.body.allocations) :
    ∃ b space, ⟨[b], .alloc size space⟩ ∈ f.body.stms ∧ b.name = block := by
  obtain ⟨stm, hstm, halloc⟩ := List.mem_filterMap.mp h
  obtain ⟨b, space, rfl, rfl⟩ := Stm.allocation?_eq_some halloc
  exact ⟨b, space, hstm, rfl⟩

/-- **What is taken out of a lambda** are its allocations, of sizes that read nothing bound
in it. -/
theorem extract_eq_ok {pruned : Body} {blocks : BlockSizes} (h : f.extract = .ok ⟨pruned, blocks⟩) :
    pruned = f.body.pruned ∧ blocks = .ofList f.body.allocations ∧
      ∀ q ∈ f.body.allocations, ∀ x ∈ q.2.occurrences, x ∉ f.bindings := by
  simp only [extract] at h
  split at h
  · cases h
  · rename_i hnone
    cases h
    refine ⟨rfl, rfl, fun q hq x hx hbound => ?_⟩
    have hvarying := List.findSome?_eq_none_iff.mp hnone q hq
    have hfind : f.varying? q.2 = none := Option.map_eq_none_iff.mp hvarying
    have hnot := List.find?_eq_none.mp hfind x (List.mem_eraseDups.mpr hx)
    exact hnot (decide_eq_true (List.mem_eraseDups.mpr hbound))

variable {pruned : Body} {blocks : BlockSizes}

/-- The blocks that are taken out are bound in the lambda. -/
theorem binding_of_mem_keys (h : f.extract = .ok ⟨pruned, blocks⟩) {block : Name}
    (hb : block ∈ blocks.keys) : block ∈ f.bindings := by
  obtain ⟨-, rfl, -⟩ := extract_eq_ok h
  cases hget : (OrderedMap.ofList f.body.allocations).get? block with
  | none => exact absurd hb (OrderedMap.get?_eq_none_iff.mp hget)
  | some size =>
    obtain ⟨b, space, hstm, rfl⟩ := mem_of_mem_allocations (OrderedMap.mem_of_get?_ofList hget)
    rcases f with ⟨params, ⟨stms, result⟩, ret⟩
    have hname : b.name ∈ Stm.bindings ⟨[b], .alloc size space⟩ :=
      List.mem_append.mpr (.inl (List.mem_cons_self ..))
    exact List.mem_append.mpr (.inr (Stm.mem_bindingsAll hstm hname))

/-- Their sizes read what the lambda may read as a scalar. -/
theorem scalar_of_get? {R : Roles} (hr : f.Respects R) (h : f.extract = .ok ⟨pruned, blocks⟩)
    {block : Name} {size : Size} (hb : blocks.get? block = some size) :
    ∀ x ∈ size.occurrences, R.scalar x := by
  obtain ⟨-, rfl, -⟩ := extract_eq_ok h
  obtain ⟨b, space, hstm, -⟩ := mem_of_mem_allocations (OrderedMap.mem_of_get?_ofList hb)
  exact ((Stm.respectsAll_iff R).mp hr.2.1 _ hstm).2

end Lambda

/-! ## Hoisting -/

namespace Lowering

/-- The code that makes blocks visible to every thread. -/
def hoistCode (blocks : List (Name × Size)) : Code :=
  blocks.flatMap fun (b, size) => [.declareBlock b .global, .allocate b size .global]

/-- The context after hoisting: it has gained the blocks. -/
structure Hoisted (blocks : List (Name × Size)) (ctx start : Context) : Prop where
  names : start.names = ctx.names
  settings : start.settings = ctx.settings
  keys : ctx.vars.keys <+: start.vars.keys
  gained : ∀ x ∈ blocks.map Prod.fst, ∃ size, start.vars.get? x = some (.block size .global)
  kept : ∀ x ∉ blocks.map Prod.fst, start.vars.get? x = ctx.vars.get? x

theorem run_forM_allocate (blocks : List (Name × Size)) (ctx : Context) :
    ∃ start, (blocks.forM fun (b, size) => allocate b size .global).run ctx =
      ⟨.ok (), hoistCode blocks, start⟩ ∧ Hoisted blocks ctx start := by
  induction blocks generalizing ctx with
  | nil => exact ⟨ctx, rfl, rfl, rfl, List.prefix_refl _, List.forall_mem_nil _,
      fun _ _ => rfl⟩
  | cons q blocks ih =>
    rcases q with ⟨b, size⟩
    obtain ⟨start, hrun, h⟩ := ih (ctx.bindBlock b size .global)
    have hone : (allocate b size .global).run ctx =
        ⟨.ok (), [.declareBlock b .global, .allocate b size .global],
          ctx.bindBlock b size .global⟩ := rfl
    refine ⟨start, run_bind_eq_ok.mpr ⟨(), _, _, _, hone, hrun, rfl⟩, h.names, h.settings,
      ?_, ?_, ?_⟩
    · exact (Context.keys_bind (List.prefix_refl _) _).trans h.keys
    · intro x hx
      by_cases hrest : x ∈ blocks.map Prod.fst
      · exact h.gained x hrest
      · obtain rfl : x = b := by
          rcases List.mem_cons.mp hx with rfl | hx
          · rfl
          · exact absurd hx hrest
        refine ⟨size, ?_⟩
        rw [h.kept x hrest, Context.bindBlock, Context.get?_bind_self]
    · intro x hx
      rw [List.map_cons, List.mem_cons, not_or] at hx
      rw [h.kept x hx.2, Context.bindBlock, Context.get?_bind_of_ne _ (Ne.symm hx.1)]

/-- **What hoisting does** when it is not refused. -/
theorem hoist_eq_ok {blocks : BlockSizes} {threads : Size} {ctx start : Context} {front : Code}
    (h : (hoist blocks threads).run ctx = ⟨.ok (), front, start⟩) :
    front = hoistCode (blocks.scale threads).entries ∧
      Hoisted (blocks.scale threads).entries ctx start := by
  have hforM : ((blocks.scale threads).entries.forM fun (b, size) =>
      allocate b size .global).run ctx = ⟨.ok (), front, start⟩ := by
    unfold hoist at h
    split at h
    · obtain ⟨flag, c₁, ctx₁, rest, hask, hguard, rfl⟩ := run_bind_eq_ok.mp h
      obtain ⟨-, rfl, rfl⟩ := run_ask_eq_ok.mp hask
      exact (run_guard_eq_ok.mp hguard).2
    · exact h
  obtain ⟨last, hrun, hoisted⟩ := run_forM_allocate (blocks.scale threads).entries ctx
  rw [hrun] at hforM
  cases hforM
  exact ⟨rfl, hoisted⟩

theorem map_fst_scale (blocks : BlockSizes) (threads : Size) :
    (blocks.scale threads).entries.map Prod.fst = blocks.keys :=
  OrderedMap.keys_map ..

end Lowering

end KernelGen
