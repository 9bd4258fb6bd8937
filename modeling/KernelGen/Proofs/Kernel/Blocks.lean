import KernelGen.Proofs.Kernel.Threads
import KernelGen.Proofs.Program.Rewriting

/-! # The blocks of a kernel are on the device

The blocks that a kernel touches come out of the table of names while its body is
compiled; the blocks that are copied come out of an analysis of the lambda.  They agree
(`lowerMapKernel_blocks`): a thread finds arrays in three ways, placed by the lambda, as
inputs, or as destinations, and the block of each is among the free names of the lambda,
copied for an input, copied back for a result, or made for this kernel.

That free arrays of the lambda are inputs is checked when the transfers are planned, in
the context that the code of the thread left.  A name that was drawn on the way could
stand in front of an array there; so names in the context must not have tags yet to be
drawn. -/
namespace KernelGen
open Lowering

theorem Lambda.mem_free {f : Lambda} {x : Name} :
    x ∈ f.free ↔ x ∈ f.occurrences ∧ x ∉ f.bindings := by
  unfold Lambda.free
  rw [List.mem_eraseDups, List.mem_filter, decide_eq_true_eq]

/-- Every lambda respects roles in which everything is a scalar. -/
theorem Lambda.respects_ofScalars_true (f : Lambda) : f.Respects (.ofScalars fun _ => True) := by
  have hnames : f.Respects (.ofNames (fun _ => True) (fun _ => True) fun _ => True) :=
    Lambda.respects_ofNames (fun _ _ => trivial) (fun _ _ => trivial) fun _ _ => trivial
  have hinto : (Roles.ofNames (fun _ => True) (fun _ => True) fun _ => True).Into id
      (.ofScalars fun _ => True) :=
    ⟨fun _ _ => trivial, fun _ _ => trivial, fun _ _ => trivial, fun _ _ => trivial,
      fun _ _ _ _ => trivial⟩
  rw [← f.rewrite_id]
  exact hinto.lambda hnames

namespace Launch
variable {pat : List Binder} {f : Lambda} {inputs : List Name} {ctx start inner : Context}
  {front : Code} {k : Kernel} {pruned : Body} {hoisted : BlockSizes}
  (launch : Launch pat f inputs ctx front k pruned hoisted start inner)
  (hctx : ∀ x ∈ ctx.vars.keys, x.tag < ctx.names.next)
  (hnew : ∀ x ∈ f.bindings, x ∉ ctx.mentioned ∧ x ∉ inputs ∧ ∀ b ∈ pat, x ∉ b.occurrences)
include launch hctx hnew

/-- A thread whose scalars are of no matter. -/
def anyScalars (_ : Launch pat f inputs ctx front k pruned hoisted start inner) : Surroundings :=
  f.surroundings inputs (fun _ => True) start k.threadIndex (fun _ _ _ _ _ => .inl trivial)
    fun _ _ _ _ _ _ => trivial

omit hnew in
/-- What the transfers are planned with. -/
theorem get?_planned {x : Name} (hx : x ∉ f.bindings) :
    (start.launched.leaveDevice inner).vars.get? x = ctx.vars.get? x := by
  obtain ⟨_, _, -, hinner, -, -⟩ := launch.code launch.anyScalars rfl rfl f.respects_ofScalars_true
    (fun _ _ _ => trivial) trivial
  exact launch.get?_after launch.anyScalars rfl rfl hinner hctx hx

/-- An input is an array of the context, and its block is copied in. -/
theorem moves_input {x : Name} (hx : x ∈ inputs) :
    ∃ ty p, ctx.vars.get? x = some (.array ty p) ∧ Moves k.copyIn p.block := by
  have hbound : x ∉ f.bindings := fun h => (hnew x h).2.1 hx
  obtain ⟨ty, p, hp, hmoves⟩ := (Context.copyIn_eq_ok launch.copyIn).1 x hx
  rw [launch.get?_planned hctx hbound] at hp
  exact ⟨ty, p, hp, hmoves⟩

/-- An array that a thread finds is an input. -/
theorem input_of_home {x : Name} {ty : Ty} {p : Placement}
    (hx : x ∈ f.occurrences ∨ x ∈ f.bindings ∨ x ∈ inputs)
    (h : (start.threadHome k.threadIndex).vars.get? x = some (.array ty p)) :
    x ∈ inputs ∧ ctx.vars.get? x = some (.array ty p) := by
  have harray := launch.array_of_home h
  have hbound : x ∉ f.bindings := fun hb => (hnew x hb).1 (Context.mem_mentioned_of_get? harray)
  refine ⟨?_, harray⟩
  by_contra hin
  have hfree : x ∈ f.free := by
    refine Lambda.mem_free.mpr ⟨?_, hbound⟩
    exact hx.resolve_right fun h => h.elim hbound hin
  -- A free array that is no input is refused.
  have hplanned := launch.get?_planned hctx hbound
  rcases (Context.copyIn_eq_ok launch.copyIn).2.1 x hfree hin with ⟨ty', hs, -⟩ | ⟨⟨_, _, hb⟩, -⟩
  · rw [hplanned, harray] at hs
    cases hs
  · rw [hplanned, harray] at hb
    cases hb

/-- A block in which a thread may find an array was made for this kernel, or is copied in. -/
theorem moves_of_holds {b : Name} (hb : launch.anyScalars.Holds b) :
    Moves k.copyIn b ∨ b ∈ hoisted.keys := by
  obtain ⟨⟨p, hp, rfl⟩, size, space, hhome⟩ := hb
  rcases launch.block_of_home hhome with hh | ⟨size', space', hblock⟩
  · exact .inr hh
  · refine .inl ?_
    -- An array in a block of the context was put there by the lambda, or is an input.
    rcases hp with hplaced | ⟨x, ty, hx, harray⟩
    · have hbound : p.block ∉ f.bindings :=
        fun h => (hnew _ h).1 (Context.mem_mentioned_of_get? hblock)
      have hin : p.block ∉ inputs := by
        intro hin
        obtain ⟨ty, q, hq, -⟩ := launch.moves_input hctx hnew hin
        rw [hblock] at hq
        cases hq
      have hfree : p.block ∈ f.free := Lambda.mem_free.mpr ⟨hplaced.1, hbound⟩
      rcases (Context.copyIn_eq_ok launch.copyIn).2.1 _ hfree hin with ⟨ty, hs, -⟩ | ⟨-, hmoves⟩
      · rw [launch.get?_planned hctx hbound, hblock] at hs
        cases hs
      · exact hmoves
    · obtain ⟨hin, hget⟩ := launch.input_of_home hctx hnew hx harray
      obtain ⟨ty', q, hq, hmoves⟩ := launch.moves_input hctx hnew hin
      rw [hget] at hq
      cases hq
      exact hmoves

/-- A block that was made for this kernel is copied neither in nor out. -/
theorem not_moves_of_hoisted {b : Name} (hb : b ∈ hoisted.keys) :
    ¬ Moves k.copyIn b ∧ ¬ Moves k.copyOut b := by
  have hbound := Lambda.binding_of_mem_keys launch.extract hb
  obtain ⟨hmentions, -, hpat⟩ := hnew b hbound
  constructor
  · rintro ⟨size, hmem⟩
    rcases (Context.copyIn_eq_ok launch.copyIn).2.2 _ hmem with
      ⟨x, hx, ty, p, size', hp, heq⟩ | ⟨x, hx, ⟨size', heq⟩ | ⟨ty, -, heq⟩⟩
    · cases heq
      have hxb : x ∉ f.bindings := fun h => (hnew x h).2.1 hx
      rw [launch.get?_planned hctx hxb] at hp
      exact hmentions (Context.mem_mentioned_of_occurrence hp (List.mem_cons_self ..))
    · cases heq
      exact (Lambda.mem_free.mp hx).2 hbound
    · cases heq
  · rintro ⟨size, hmem⟩
    obtain ⟨p, ty, size', hd, heq⟩ := (Context.copyOut_eq_ok launch.copyOut).2 _ hmem
    cases heq
    obtain ⟨binder, hbinder, hoccurrences⟩ := occurrences_of_destination hd
    refine hpat binder hbinder ?_
    rw [hoccurrences]
    exact List.mem_cons_self ..

end Launch

/-- The last statement of a thread for a result, and the block that it writes is copied
back. -/
def WritesBack (k : Kernel) (b : Binder) (s : Stmt) : Prop :=
  ∃ p space a, b.placement = some p ∧
    s = .write p.block (p.layout.position [.var k.threadIndex]) b.ty.element space (.ofOperand a) ∧
    Moves k.copyOut p.block

/-- **Every block that a kernel touches is on the device.**  No name that the lambda binds
occurs in the context, among the inputs or in the places of the results, and the names of
the context were drawn before.  Then a map that became a kernel stands behind the code
that makes its own blocks; every block whose elements its threads read or write is one of
these, or is copied in or out; the threads end with one write for each result, into
blocks that are copied back; and the kernel's own blocks are not copied at all. -/
theorem lowerMapKernel_blocks {pat : List Binder} {f : Lambda} {inputs : List Name}
    {ctx : Context} (hctx : ∀ x ∈ ctx.vars.keys, x.tag < ctx.names.next)
    (hnew : ∀ x ∈ f.bindings, x ∉ ctx.mentioned ∧ x ∉ inputs ∧ ∀ b ∈ pat, x ∉ b.occurrences)
    (hok : ((lowerMapKernel pat f inputs).run ctx).outcome = .ok ()) :
    ∃ own k code writes,
      ((lowerMapKernel pat f inputs).run ctx).emitted = hoistCode own ++ [.kernel k] ∧
      (∀ b ∈ Code.accessed k.body,
        Moves k.copyIn b ∨ Moves k.copyOut b ∨ b ∈ own.map Prod.fst) ∧
      k.body = code ++ writes ∧ List.Forall₂ (WritesBack k) pat writes ∧
      ∀ b ∈ own.map Prod.fst, ¬ Moves k.copyIn b ∧ ¬ Moves k.copyOut b := by
  rcases hrun : (lowerMapKernel pat f inputs).run ctx with ⟨o, code, last⟩
  rw [hrun] at hok
  obtain rfl : o = .ok () := hok
  obtain ⟨front, k, pruned, hoisted, start, inner, launch, rfl⟩ := lowerMapKernel_eq_ok hrun
  obtain ⟨code, writes, hbody, -, hyields, hwrites⟩ := launch.code launch.anyScalars rfl rfl
    f.respects_ofScalars_true (fun _ _ _ => trivial) trivial
  have hback : List.Forall₂ (WritesBack k) pat writes := by
    have hmoves : ∀ b ∈ pat, ∀ p ty, b.destination = .array p ty → Moves k.copyOut p.block :=
      fun b hb p ty hd => (Context.copyOut_eq_ok launch.copyOut).1 p ty
        (List.mem_map.mpr ⟨b, hb, hd⟩)
    have hboth := (List.forall₂_and_left pat writes).mpr ⟨hmoves, hwrites⟩
    refine hboth.imp ?_
    rintro b s ⟨hmove, a, -, hwrite⟩
    obtain ⟨p, space, hp, rfl⟩ := hwrite.of_binder
    refine ⟨p, space, a, hp, rfl, hmove p b.ty.element ?_⟩
    rw [Binder.destination, hp]
  refine ⟨(hoisted.scale k.threadCount).entries, k, code, writes, ?_, ?_, hbody, hback, ?_⟩
  · rw [launch.front_eq]
  · intro b hb
    rw [hbody, Code.accessed, Code.gather_append, List.mem_append] at hb
    rw [map_fst_scale]
    rcases hb with hb | hb
    · exact (launch.moves_of_holds hctx hnew (hyields.accessed b hb)).imp_right .inr
    · obtain ⟨s, hs, hbs⟩ := (Code.mem_gather_iff _).mp hb
      obtain ⟨binder, -, p, space, a, -, rfl, hmove⟩ := forall₂_mem_right hback hs
      obtain rfl := List.mem_singleton.mp hbs
      exact .inr (.inl hmove)
  · rw [map_fst_scale]
    exact fun b hb => launch.not_moves_of_hoisted hctx hnew hb

/-- Four elements from the start of a block on. -/
def fourIn (block : Name) : Placement := ⟨block, .rowMajor [.const 4]⟩

/-- Two arrays of four elements and a block for a third; the next name has the tag `next`. -/
def twoArrays (next : Nat) : Context :=
  let blocks := (((Context.initial {} ⟨next⟩).bindBlock ⟨"xs_mem", 0⟩ (.const 4) .host).bindBlock
    ⟨"zs_mem", 1⟩ (.const 4) .host).bindBlock ⟨"ys_mem", 2⟩ (.const 4) .host
  (blocks.bindArray ⟨"xs", 3⟩ (.array .i64) (fourIn ⟨"xs_mem", 0⟩)).bindArray
    ⟨"acc_next", 21⟩ (.array .i64) (fourIn ⟨"zs_mem", 1⟩)

/-- The array of the results, in the third block. -/
def thirdArray : Binder := ⟨⟨"ys", 4⟩, .array .i64, some (fourIn ⟨"ys_mem", 2⟩)⟩

/-- Every element goes through a block of its own. -/
def throughCell : Lambda where
  params := [⟨⟨"x", 5⟩, .i64, none⟩]
  body :=
    let cell (tag : Nat) : Binder :=
      ⟨⟨"cell", tag⟩, .array .i64, some ⟨⟨"cell_mem", 6⟩, .rowMajor [.const 1]⟩⟩
    { stms := [⟨[⟨⟨"cell_mem", 6⟩, .mem, none⟩], .alloc (.const 1) .global⟩,
        ⟨[cell 7], .scratch .i64 [.const (.int 1)]⟩,
        ⟨[cell 8], .update ⟨"cell", 7⟩ [.const (.int 0)] (.var ⟨"x", 5⟩)⟩,
        ⟨[⟨⟨"y", 9⟩, .i64, none⟩], .index ⟨"cell", 8⟩ [.const (.int 0)]⟩]
      result := [.var ⟨"y", 9⟩] }
  ret := [.i64]

/-- The kernel for `throughCell` makes one block, for all cells. -/
theorem lowerMapKernel_blocks_throughCell :
    ((lowerMapKernel [thirdArray] throughCell [⟨"xs", 3⟩]).run (twoArrays 22)).outcome = .ok () ∧
    ∃ own k code writes,
      ((lowerMapKernel [thirdArray] throughCell [⟨"xs", 3⟩]).run (twoArrays 22)).emitted =
        hoistCode own ++ [.kernel k] ∧
      (∀ b ∈ Code.accessed k.body,
        Moves k.copyIn b ∨ Moves k.copyOut b ∨ b ∈ own.map Prod.fst) ∧
      k.body = code ++ writes ∧ List.Forall₂ (WritesBack k) [thirdArray] writes ∧
      ∀ b ∈ own.map Prod.fst, ¬ Moves k.copyIn b ∧ ¬ Moves k.copyOut b := by
  have hok : ((lowerMapKernel [thirdArray] throughCell [⟨"xs", 3⟩]).run
      (twoArrays 22)).outcome = .ok () := by rfl
  exact ⟨hok, lowerMapKernel_blocks (by decide) (by decide) hok⟩

/-- Every element is replaced by the first one of the second array, which is not an input.
A loop, of which nothing is used, draws a name on the way. -/
def firstOfOther : Lambda where
  params := [⟨⟨"x", 5⟩, .i64, none⟩]
  body :=
    { stms := [⟨[⟨⟨"first", 6⟩, .i64, none⟩], .index ⟨"acc_next", 21⟩ [.const (.int 0)]⟩,
        ⟨[⟨⟨"last", 7⟩, .i64, none⟩],
          .loop [(⟨⟨"acc", 8⟩, .i64, none⟩, .const (.int 0))] ⟨"j", 9⟩ (.const (.int 2))
            ⟨[], [.var ⟨"acc", 8⟩]⟩⟩]
      result := [.var ⟨"first", 6⟩] }
  ret := [.i64]

/-- Names that are still to be drawn must not be bound: where the second array has the name
that the loop draws, it passes for a scalar in the plan, and its block is not copied. -/
theorem lowerMapKernel_drawn_array :
    (∀ x ∈ firstOfOther.bindings, x ∉ (twoArrays 20).mentioned ∧ x ∉ [⟨"xs", 3⟩] ∧
      ∀ b ∈ [thirdArray], x ≠ b.name ∧ x ∉ b.occurrences) ∧
    ((lowerMapKernel [thirdArray] firstOfOther [⟨"xs", 3⟩]).run (twoArrays 20)).outcome = .ok () ∧
    ∃ k, ((lowerMapKernel [thirdArray] firstOfOther [⟨"xs", 3⟩]).run (twoArrays 20)).emitted =
        [.kernel k] ∧
      ⟨"zs_mem", 1⟩ ∈ Code.accessed k.body ∧
      ¬ Moves k.copyIn ⟨"zs_mem", 1⟩ ∧ ¬ Moves k.copyOut ⟨"zs_mem", 1⟩ := by
  have hok : ((lowerMapKernel [thirdArray] firstOfOther [⟨"xs", 3⟩]).run
      (twoArrays 20)).outcome = .ok () := by rfl
  exact ⟨by decide, hok, _, rfl, by decide, by decide, by decide⟩

end KernelGen
