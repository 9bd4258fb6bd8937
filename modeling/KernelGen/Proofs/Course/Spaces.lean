import KernelGen.Proofs.Code.Contents
import KernelGen.Proofs.Course.Kernels
import KernelGen.Proofs.Kernel.Blocks
import Mathlib.Data.List.Nodup

/-! # The space of every access

Reads and writes say in which space their block is kept.  They take it from the context
as it is where they are compiled, and that is overwritten by every kernel and given back
after it.  `Course.blockSpace_eq` and `Course.access` follow the spaces along a course:
a block that is known at its end was known before in the same space, or was made on the
way in this space, and every access names the space that its block has, or stands in a
kernel and names the space that all threads see.

With names that are all different a block has one space (`compile_spaces`). -/
namespace KernelGen

/-- An access to an element of a block. -/
structure Access where
  /-- It stands in the code of a kernel's threads. -/
  inKernel : Bool
  block : Name
  /-- Where the access says that its block is kept. -/
  space : Space
deriving DecidableEq

mutual

/-- The accesses in a statement, at any depth; `inKernel` says where the statement stands. -/
def Stmt.accesses (inKernel : Bool) : Stmt → List Access
  | .read _ b _ _ space | .write b _ _ space _ => [⟨inKernel, b, space⟩]
  | .branch _ yes no => Code.accesses inKernel yes ++ Code.accesses inKernel no
  | .loop _ _ body => Code.accesses inKernel body
  | .kernel ⟨_, _, _, _, body⟩ => Code.accesses true body
  | .declareScalar .. | .declareBlock .. | .allocate .. | .set .. => []

/-- The accesses in the statements, in order. -/
def Code.accesses (inKernel : Bool) : List Stmt → List Access
  | [] => []
  | s :: code => s.accesses inKernel ++ Code.accesses inKernel code

end

/-- The block that the statement declares, and its space. -/
def Stmt.ownDeclaredBlock : Stmt → List (Name × Space)
  | .declareBlock b space => [(b, space)]
  | .declareScalar .. | .allocate .. | .set .. | .read .. | .write .. | .branch .. | .loop ..
  | .kernel _ => []

/-- The block that the statement allocates, and its space. -/
def Stmt.ownAllocatedBlock : Stmt → List (Name × Space)
  | .allocate b _ space => [(b, space)]
  | .declareScalar .. | .declareBlock .. | .set .. | .read .. | .write .. | .branch .. | .loop ..
  | .kernel _ => []

/-- The statement makes a block, together with its neighbour. -/
def Stmt.MakesBlock : Stmt → Prop
  | .declareBlock .. | .allocate .. => True
  | .declareScalar .. | .set .. | .read .. | .write .. | .branch .. | .loop .. | .kernel _ => False

namespace Code

/-- The blocks that are declared, at any depth, with their spaces. -/
abbrev declaredBlocks (code : Code) : List (Name × Space) :=
  Code.gather Stmt.ownDeclaredBlock code

/-- The blocks that are allocated, at any depth, with their spaces. -/
abbrev allocatedBlocks (code : Code) : List (Name × Space) :=
  Code.gather Stmt.ownAllocatedBlock code

theorem accesses_append (inKernel : Bool) (code code' : Code) :
    Code.accesses inKernel (code ++ code') =
      Code.accesses inKernel code ++ Code.accesses inKernel code' := by
  induction code with
  | nil => rfl
  | cons s code ih => rw [List.cons_append, accesses, accesses, ih, List.append_assoc]

end Code

theorem Context.blockSpace_bind_eq_ok {c : Context} {x y : Name} {e : Entry} {space : Space}
    (he : ∀ size space, e ≠ .block size space) (h : (c.bind x e).blockSpace y = .ok space) :
    c.blockSpace y = .ok space := by
  rw [blockSpace_eq_ok_iff] at h ⊢
  obtain ⟨size, hy⟩ := h
  by_cases hxy : x = y
  · subst hxy
    rw [get?_bind_self] at hy
    exact absurd (Option.some.inj hy) (he size space)
  · rw [get?_bind_of_ne e hxy] at hy
    exact ⟨size, hy⟩

theorem Context.blockSpace_bindBlock_eq_ok {c : Context} {x y : Name} {size : Size}
    {space space' : Space} (h : (c.bindBlock x size space).blockSpace y = .ok space') :
    c.blockSpace y = .ok space' ∨ (y, space') ∈ [(x, space)] := by
  rw [blockSpace_eq_ok_iff] at h ⊢
  obtain ⟨size', hy⟩ := h
  by_cases hxy : x = y
  · subst hxy
    rw [bindBlock, get?_bind_self] at hy
    cases hy
    exact .inr (List.mem_cons_self ..)
  · rw [bindBlock, get?_bind_of_ne _ hxy] at hy
    exact .inl ⟨size', hy⟩

theorem Context.blockSpace_enterDevice_eq_ok {c : Context} {x : Name} {space : Space}
    (h : c.enterDevice.blockSpace x = .ok space) :
    space = .global ∧ ∃ size space', c.vars.get? x = some (.block size space') := by
  obtain ⟨size, hx⟩ := blockSpace_eq_ok_iff.mp h
  rw [get?_enterDevice] at hx
  obtain ⟨_ | _ | ⟨size', space'⟩, hc, he⟩ := Option.map_eq_some_iff.mp hx
  · cases he
  · cases he
  · cases he
    exact ⟨rfl, size, space', hc⟩

namespace Course
variable {kernels : Bool} {c c' : Context} {xs : List Name} {bs : List (Name × Space)}
  {code : Code}

/-- The blocks made on a course are those that its code makes, at any depth, whichever of the
two statements that make a block is looked at. -/
theorem gather_eq {own : Stmt → List (Name × Space)}
    (hmake : ∀ x size space, own (.declareBlock x space) ++ own (.allocate x size space) =
      [(x, space)])
    (hrest : ∀ s : Stmt, ¬ s.MakesBlock → own s = []) (h : Course kernels c xs bs code c') :
    Code.gather own code = bs := by
  induction h with
  | nil | draw | bind => rfl
  | append _ _ ih ih' => rw [Code.gather_append, ih, ih']
  | @emit _ _ s hs =>
    cases s with
    | declareScalar | set | read | write =>
      rw [Code.gather, Stmt.gather, hrest _ id]
      rfl
    | declareBlock | allocate | branch | loop | kernel => exact absurd hs id
  | make _ x size space =>
    simp only [Code.gather, Stmt.gather, List.append_nil]
    exact hmake x size space
  | branch _ _ _ ih ih' =>
    simp only [Code.gather, Stmt.gather, hrest (.branch _ _ _) id, ih, ih', List.nil_append,
      List.append_nil]
  | loop _ _ _ ih =>
    simp only [Code.gather, Stmt.gather, hrest (.loop _ _ _) id, ih, List.nil_append,
      List.append_nil]
  | @kernel _ _ _ _ k h ih =>
    rw [h.made_eq_nil rfl] at ih
    rcases k with ⟨thread, threads, copyIn, copyOut, body⟩
    simp only [Code.gather, Stmt.gather, Kernel.gather, hrest (.kernel _) id, List.nil_append,
      List.append_nil]
    exact ih

theorem declaredBlocks_eq (h : Course kernels c xs bs code c') : code.declaredBlocks = bs := by
  refine h.gather_eq (fun _ _ _ => rfl) fun s hs => ?_
  cases s with
  | declareBlock => exact absurd trivial hs
  | _ => rfl

theorem allocatedBlocks_eq (h : Course kernels c xs bs code c') : code.allocatedBlocks = bs := by
  refine h.gather_eq (fun _ _ _ => rfl) fun s hs => ?_
  cases s with
  | allocate => exact absurd trivial hs
  | _ => rfl

/-- **Spaces stay**: a block that is known at the end of a course was known before, or made on
the way, in the space that it has. -/
theorem blockSpace_eq (h : Course kernels c xs bs code c') {x : Name} {space : Space}
    (hx : c'.blockSpace x = .ok space) : c.blockSpace x = .ok space ∨ (x, space) ∈ bs := by
  induction h generalizing space with
  | nil | draw | emit => exact .inl hx
  | bind y he => exact .inl (Context.blockSpace_bind_eq_ok he hx)
  | make _ y size space' => exact Context.blockSpace_bindBlock_eq_ok hx
  | append _ _ ih ih' | branch _ _ _ ih ih' =>
    rw [List.mem_append]
    rcases ih' hx with hx | hmade
    · exact (ih hx).imp_right .inl
    · exact .inr (.inr hmade)
  | loop _ _ _ ih => exact ih hx
  | @kernel c inner _ _ _ hcourse ih =>
    -- Nothing was made on the device, so what is a block there was one before.
    have hkeys := Context.keys_enterDevice.trans hcourse.evolves.keys
    obtain ⟨size, hget⟩ := Context.blockSpace_eq_ok_iff.mp hx
    rw [Context.get?_leaveDevice hkeys] at hget
    split at hget
    · obtain ⟨e, he, hspace⟩ := Option.map_eq_some_iff.mp hget
      obtain ⟨size', space', rfl⟩ : ∃ size' space', e = .block size' space' := by
        cases houter : c.vars.get? x with
        | none => rw [houter] at hspace; exact ⟨size, space, hspace⟩
        | some outer =>
          rw [houter] at hspace
          cases outer <;> cases e <;> cases hspace <;> exact ⟨_, _, rfl⟩
      have hblock : inner.blockSpace x = .ok space' :=
        Context.blockSpace_eq_ok_iff.mpr ⟨size', he⟩
      rw [hcourse.made_eq_nil rfl] at ih
      have hinner := (ih hblock).resolve_right List.not_mem_nil
      obtain ⟨-, size'', space'', houter⟩ := Context.blockSpace_enterDevice_eq_ok hinner
      rw [houter] at hspace
      cases hspace
      exact .inl (Context.blockSpace_eq_ok_iff.mpr ⟨size'', houter⟩)
    · cases hget

/-- The access stands where `inKernel` says and names the space that its block has in the
context, or among the blocks made; or it stands in a kernel, and names the space that all
threads see. -/
def Tags (inKernel : Bool) (c : Context) (bs : List (Name × Space)) (a : Access) : Prop :=
  (a.inKernel = inKernel ∧ (c.blockSpace a.block = .ok a.space ∨ (a.block, a.space) ∈ bs)) ∨
    (a.inKernel = true ∧ a.space = .global)

section
variable {inKernel : Bool} {bs' : List (Name × Space)} {a : Access}

theorem Tags.of_first (h : Tags inKernel c bs a) : Tags inKernel c (bs ++ bs') a := by
  refine h.imp_left fun hin => ⟨hin.1, ?_⟩
  rw [List.mem_append]
  exact hin.2.imp_right .inl

/-- What the context has at the end of a course, it had before or gained. -/
theorem Tags.of_second (h : Tags inKernel c' bs' a) (hcourse : Course kernels c xs bs code c') :
    Tags inKernel c (bs ++ bs') a := by
  refine h.imp_left fun hin => ⟨hin.1, ?_⟩
  rw [List.mem_append]
  rcases hin.2 with hspace | hmade
  · exact (hcourse.blockSpace_eq hspace).imp_right .inl
  · exact .inr (.inr hmade)

end

/-- **Every access names the space of its block**, or stands in a kernel and names the space
that all threads see. -/
theorem access (h : Course kernels c xs bs code c') {inKernel : Bool} {a : Access}
    (ha : a ∈ Code.accesses inKernel code) : Tags inKernel c bs a := by
  induction h generalizing inKernel with
  | nil | draw | bind | make => cases ha
  | @emit _ _ s hs =>
    rw [Code.accesses, Code.accesses, List.append_nil] at ha
    cases s with
    | read | write =>
      obtain rfl := List.mem_singleton.mp ha
      exact .inl ⟨rfl, .inl hs⟩
    | declareScalar | set => cases ha
    | declareBlock | allocate | branch | loop | kernel => exact absurd hs id
  | append h _ ih ih' =>
    rw [Code.accesses_append, List.mem_append] at ha
    rcases ha with ha | ha
    · exact (ih ha).of_first
    · exact (ih' ha).of_second h
  | branch cond h _ ih ih' =>
    rw [Code.accesses, Code.accesses, List.append_nil, Stmt.accesses, List.mem_append] at ha
    rcases ha with ha | ha
    · exact (ih ha).of_first
    · exact (ih' ha).of_second h
  | loop _ _ _ ih =>
    rw [Code.accesses, Code.accesses, List.append_nil, Stmt.accesses] at ha
    exact ih ha
  | @kernel c _ _ _ k hcourse ih =>
    rcases k with ⟨thread, threads, copyIn, copyOut, body⟩
    rw [Code.accesses, Code.accesses, List.append_nil, Stmt.accesses] at ha
    rw [hcourse.made_eq_nil rfl] at ih
    rcases ih ha with ⟨hin, hspace⟩ | hin
    · have hdevice := hspace.resolve_right List.not_mem_nil
      exact .inr ⟨hin, (Context.blockSpace_enterDevice_eq_ok hdevice).1⟩
    · exact .inr hin

end Course

/-! ## Programs -/

section
variable {ctx : Context} {b : Body} {code : Code}

/-- A program that was compiled followed a course, on which only names of the program were
bound that were not in the context, and drawn ones. -/
theorem Body.course_of_compile (hok : (b.compile.run ctx).outcome = .ok code) :
    ∃ xs bs last, Course true ctx xs bs code last ∧ (bs.map Prod.fst).Sublist b.bindings := by
  rcases b with ⟨stms, result⟩
  have hfollows : Lowering.Follows true (Stm.bindingsAll stms) (Stm.bindingsAll stms)
      (lowerKernels stms) := Lowering.follows_lowerKernels fun _ hx => hx
  obtain ⟨code', ⟨xs, bs, hcourse, -, hbs⟩, hcode⟩ := hfollows ctx
  rcases hrun : (lowerKernels stms).run ctx with ⟨e | ⟨⟩, emitted, last⟩
  · have hcompile : (Body.compile ⟨stms, result⟩).run ctx = ⟨.error e, [], last⟩ :=
      Lowering.run_collect_of_error hrun
    rw [hcompile] at hok
    cases hok
  · have hcompile : (Body.compile ⟨stms, result⟩).run ctx = ⟨.ok emitted, [], last⟩ :=
      Lowering.run_collect_of_ok hrun
    rw [hcompile] at hok
    cases hok
    rw [hrun] at hcourse hcode
    obtain rfl : code = code' := hcode () rfl
    exact ⟨xs, bs, last, hcourse, hbs⟩

end

/-- **Every access names the right space.**  The names of the program are all different and
none of them is bound in the context.  Then in the code that the program compiles to every
read and write inside a kernel names the space that all threads see.  Every other one, in
front of kernels, between and behind them, in branches and loops, names the space of its
block, which is that of its entry in the context if it has one, and else that in which
the program declares and allocates it; there is no second one. -/
theorem compile_spaces {ctx : Context} {b : Body} {code : Code} (hnodup : b.bindings.Nodup)
    (hnew : ∀ x ∈ b.bindings, x ∉ ctx.vars.keys) (hok : (b.compile.run ctx).outcome = .ok code) :
    (∀ a ∈ Code.accesses false code, a.inKernel = true → a.space = .global) ∧
    ∀ a ∈ Code.accesses false code, a.inKernel = false →
      ((∃ size, ctx.vars.get? a.block = some (.block size a.space)) ∨
        ((a.block, a.space) ∈ code.declaredBlocks ∧ (a.block, a.space) ∈ code.allocatedBlocks)) ∧
      ∀ space, ((∃ size, ctx.vars.get? a.block = some (.block size space)) ∨
        (a.block, space) ∈ code.declaredBlocks ∨ (a.block, space) ∈ code.allocatedBlocks) →
          space = a.space := by
  obtain ⟨xs, bs, last, hcourse, hbs⟩ := Body.course_of_compile hok
  rw [hcourse.declaredBlocks_eq, hcourse.allocatedBlocks_eq]
  -- A block has one space: those of the context are not made, and each is made once.
  have hmade : ∀ q ∈ bs, q.1 ∉ ctx.vars.keys := fun q hq =>
    hnew q.1 (hbs.subset (List.mem_map_of_mem hq))
  have hbound : ∀ {x : Name} {e : Entry}, ctx.vars.get? x = some e → x ∈ ctx.vars.keys := by
    intro x e hx
    by_contra hnot
    rw [OrderedMap.get?_eq_none_iff.mpr hnot] at hx
    cases hx
  have honce : ∀ {x : Name} {space space' : Space}, (x, space) ∈ bs → (x, space') ∈ bs →
      space = space' := by
    intro x space space' h h'
    have hpair := List.inj_on_of_nodup_map (hnodup.sublist hbs) h h' rfl
    exact congrArg Prod.snd hpair
  constructor
  · intro a ha hin
    rcases hcourse.access ha with ⟨hout, -⟩ | ⟨-, hspace⟩
    · rw [hin] at hout
      cases hout
    · exact hspace
  · intro a ha hout
    rcases hcourse.access ha with ⟨-, hspace⟩ | ⟨hin, -⟩
    · rcases hspace with hspace | hspace
      · obtain ⟨size, hget⟩ := Context.blockSpace_eq_ok_iff.mp hspace
        refine ⟨.inl ⟨size, hget⟩, ?_⟩
        rintro space (⟨size', hget'⟩ | hmem | hmem)
        · rw [hget] at hget'
          cases hget'
          rfl
        · exact absurd (hbound hget) (hmade _ hmem)
        · exact absurd (hbound hget) (hmade _ hmem)
      · refine ⟨.inr ⟨hspace, hspace⟩, ?_⟩
        rintro space (⟨size', hget'⟩ | hmem | hmem)
        · exact absurd (hbound hget') (hmade _ hspace)
        · exact honce hmem hspace
        · exact honce hmem hspace
    · rw [hout] at hin
      cases hin

/-- A block is allocated, a map over the first array follows, and then the first of its results
is written into the block. -/
def aroundKernel : Body where
  stms :=
    let buffer (tag : Nat) : Binder :=
      ⟨⟨"buf", tag⟩, .array .i64, some (fourIn ⟨"buf_mem", 10⟩)⟩
    [⟨[⟨⟨"buf_mem", 10⟩, .mem, none⟩], .alloc (.const 4) .host⟩,
      ⟨[buffer 11], .scratch .i64 [.const (.int 4)]⟩,
      ⟨[thirdArray], .map throughCell [⟨"xs", 3⟩]⟩,
      ⟨[⟨⟨"first", 12⟩, .i64, none⟩], .index ⟨"ys", 4⟩ [.const (.int 0)]⟩,
      ⟨[buffer 13], .update ⟨"buf", 11⟩ [.const (.int 0)] (.var ⟨"first", 12⟩)⟩]
  result := []

/-- Behind the kernel, `ys_mem` is read in the space of its entry and `buf_mem` written in the
space of its allocation. -/
theorem compile_spaces_aroundKernel :
    aroundKernel.bindings.Nodup ∧ (∀ x ∈ aroundKernel.bindings, x ∉ (twoArrays 22).vars.keys) ∧
    ∃ code, (aroundKernel.compile.run (twoArrays 22)).outcome = .ok code ∧
      (∃ a ∈ Code.accesses false code, a.inKernel = true) ∧
      (∃ a ∈ Code.accesses false code, a.inKernel = false) ∧
      (∀ a ∈ Code.accesses false code, a.inKernel = true → a.space = .global) ∧
      ∀ a ∈ Code.accesses false code, a.inKernel = false →
        ((∃ size, (twoArrays 22).vars.get? a.block = some (.block size a.space)) ∨
          ((a.block, a.space) ∈ code.declaredBlocks ∧
            (a.block, a.space) ∈ code.allocatedBlocks)) ∧
        ∀ space, ((∃ size, (twoArrays 22).vars.get? a.block = some (.block size space)) ∨
          (a.block, space) ∈ code.declaredBlocks ∨ (a.block, space) ∈ code.allocatedBlocks) →
            space = a.space := by
  have hnodup : aroundKernel.bindings.Nodup := by decide
  have hnew : ∀ x ∈ aroundKernel.bindings, x ∉ (twoArrays 22).vars.keys := by decide
  obtain ⟨code, hok, hin, hout⟩ : ∃ code,
      (aroundKernel.compile.run (twoArrays 22)).outcome = .ok code ∧
      (∃ a ∈ Code.accesses false code, a.inKernel = true) ∧
      ∃ a ∈ Code.accesses false code, a.inKernel = false :=
    ⟨_, rfl, ⟨⟨true, ⟨"xs_mem", 0⟩, .global⟩, List.mem_cons_self .., rfl⟩,
      ⟨⟨false, ⟨"buf_mem", 10⟩, .host⟩, by decide, rfl⟩⟩
  exact ⟨hnodup, hnew, code, hok, hin, hout, compile_spaces hnodup hnew hok⟩

end KernelGen
