import KernelGen.Proofs.Kernel.Blocks
import KernelGen.Proofs.Kernel.Extraction

/-! # The names of a thread that works in slices

When a block that a lambda allocates is made for all threads instead, the allocation is
gone from the code of a thread, and with it the one place where the variables of its size
were read.  They come back wherever an array lies in the block, as the slice of a thread
begins at a multiple of the size.  So does the thread index, which the lambda does not know.

Copies are planned for what the lambda reads.  `free_offsetBy_extract` shows that nothing is
missed: a name that is free afterwards was free in the lambda, or belongs to the kernel
itself, as a parameter, as a block that was taken out, or as the thread index.  That a name
is bound nowhere any more happens to the blocks that were taken out, and only to them. -/
namespace KernelGen

/-- What a statement reads is read by the statements. -/
theorem Stm.mem_occurrencesAll {stms : List Stm} {stm : Stm} (h : stm ∈ stms) {x : Name}
    (hx : x ∈ stm.occurrences) : x ∈ Stm.occurrencesAll stms := by
  have hone : (Stm.occurrencesAll [stm]).Sublist (Stm.occurrencesAll stms) :=
    Stm.occurrencesAll_sublist (List.singleton_sublist.mpr h)
  exact hone.subset (List.mem_append_left _ hx)

theorem Body.mem_free {b : Body} {x : Name} : x ∈ b.free ↔ x ∈ b.occurrences ∧ x ∉ b.bindings := by
  unfold Body.free
  rw [List.mem_eraseDups, List.mem_filter, decide_eq_true_eq]

namespace Lambda
variable {f : Lambda} {pruned : Body} {blocks : BlockSizes} {x : Name}

/-- What is read in the body is read in the lambda. -/
theorem mem_occurrences_of_body (h : x ∈ f.body.occurrences) : x ∈ f.occurrences := by
  rcases f with ⟨params, body, ret⟩
  exact List.mem_append_right _ h

/-- **The sizes of the blocks that are taken out read free names of the lambda.** -/
theorem mem_free_of_get? (h : f.extract = .ok ⟨pruned, blocks⟩) {block : Name} {size : Size}
    (hb : blocks.get? block = some size) (hx : x ∈ size.occurrences) : x ∈ f.free := by
  obtain ⟨-, rfl, hinvariant⟩ := extract_eq_ok h
  have halloc := OrderedMap.mem_of_get?_ofList hb
  refine mem_free.mpr ⟨mem_occurrences_of_body ?_, hinvariant _ halloc x hx⟩
  obtain ⟨b, space, hstm, -⟩ := mem_of_mem_allocations halloc
  have hreads : x ∈ Stm.occurrences ⟨[b], .alloc size space⟩ := List.mem_append_right _ hx
  rcases f with ⟨params, ⟨stms, result⟩, ret⟩
  exact List.mem_append_left _ (Stm.mem_occurrencesAll hstm hreads)

/-- What is left reads what the lambda reads. -/
theorem occurrences_pruned_subset (f : Lambda) : f.body.pruned.occurrences ⊆ f.occurrences := by
  rcases f with ⟨params, ⟨stms, result⟩, ret⟩
  have hstms : (Stm.occurrencesAll (stms.filter (·.allocation?.isNone))).Sublist
      (Stm.occurrencesAll stms) := Stm.occurrencesAll_sublist List.filter_sublist
  exact fun x hx => mem_occurrences_of_body ((hstms.append (List.Sublist.refl _)).subset hx)

/-- In slices it reads, besides, the thread index. -/
theorem mem_occurrences_of_sliced (h : f.extract = .ok ⟨pruned, blocks⟩) {thread : Name}
    (hx : x ∈ (pruned.offsetBy (blocks.sliceOffsets thread)).occurrences) :
    x ∈ f.occurrences ∨ x = thread := by
  let reads (y : Name) : Prop := y ∈ f.occurrences ∨ y = thread
  have hkeeps : Placement.Keeps reads (Placement.offsetBy (blocks.sliceOffsets thread)) := by
    intro p hblock hlayout
    rw [Placement.block_offsetBy]
    refine ⟨hblock, fun y hy => ?_⟩
    rcases occurrences_offsetBy hy with hy | rfl | ⟨size, hsize, hy⟩
    · exact hlayout y hy
    · exact .inr rfl
    · exact .inl (mem_free.mp (mem_free_of_get? h hsize hy)).1
  have hpruned : ∀ y ∈ pruned.occurrences, reads y := by
    obtain ⟨rfl, -, -⟩ := extract_eq_ok h
    exact fun y hy => .inl (occurrences_pruned_subset f hy)
  exact Body.reads_rewrite hkeeps hpruned x hx

/-- **What is bound in what is left** is bound by a statement other than the allocations that
are taken out. -/
theorem mem_bindings_offsetBy_iff (h : f.extract = .ok ⟨pruned, blocks⟩) (offsets : BlockOffsets) :
    x ∈ (pruned.offsetBy offsets).bindings ↔
      ∃ stm ∈ f.body.stms, (∀ block size, ¬ stm.Allocates block size) ∧ stm.Binds x := by
  obtain ⟨rfl, -, -⟩ := extract_eq_ok h
  have hbindings : (f.body.pruned.offsetBy offsets).bindings =
      Stm.bindingsAll (f.body.stms.filter (·.allocation?.isNone)) := Stm.bindingsAll_rewrite _ _ _
  rw [hbindings, Stm.mem_bindingsAll_iff]
  simp only [List.mem_filter, Option.isNone_iff_eq_none, Stm.allocation?_eq_none_iff, and_assoc]

/-- What an allocation binds is its block. -/
theorem mem_keys_of_allocates (h : f.extract = .ok ⟨pruned, blocks⟩) {stm : Stm}
    (hstm : stm ∈ f.body.stms) {block : Name} {size : Size} (ha : stm.Allocates block size)
    (hx : stm.Binds x) : x ∈ blocks.keys := by
  obtain ⟨-, rfl, -⟩ := extract_eq_ok h
  have halloc : (block, size) ∈ f.body.allocations :=
    List.mem_filterMap.mpr ⟨stm, hstm, Stm.allocation?_eq_some_iff.mpr ha⟩
  obtain ⟨b, space, rfl, rfl⟩ := ha
  obtain rfl : x = b.name := List.mem_singleton.mp hx.mem_bindings
  rw [OrderedMap.keys_ofList, List.mem_eraseDups]
  exact List.mem_map_of_mem halloc

/-- **Names in slices.**  When the allocations have been taken out of a lambda and its arrays
moved into the slices of a thread, a name that is free in the code was free in the lambda, or
is one of its parameters, a block that was taken out, or the thread index.  The code binds
what the body binds, but for names that only the allocations bound. -/
theorem free_offsetBy_extract (h : f.extract = .ok ⟨pruned, blocks⟩) (thread : Name) :
    (∀ x ∈ (pruned.offsetBy (blocks.sliceOffsets thread)).free,
      x ∈ f.free ∨ (∃ b ∈ f.params, b.name = x) ∨ x ∈ blocks.keys ∨ x = thread) ∧
    ∀ x, x ∈ (pruned.offsetBy (blocks.sliceOffsets thread)).bindings ↔
      x ∈ f.body.bindings ∧
        ¬ ∀ stm ∈ f.body.stms, stm.Binds x → ∃ block size, stm.Allocates block size := by
  constructor
  · intro x hx
    obtain ⟨hreads, hbound⟩ := Body.mem_free.mp hx
    rcases mem_occurrences_of_sliced h hreads with hreads | rfl
    · by_cases hf : x ∈ f.bindings
      · rcases mem_bindings_iff.mp hf with hparam | ⟨stm, hstm, hbinds⟩
        · exact .inr (.inl hparam)
        · -- The statement that binds it must be gone, or it would still be bound.
          have hallocates : ∃ block size, stm.Allocates block size := by
            by_contra! hkept
            exact hbound ((mem_bindings_offsetBy_iff h _).mpr ⟨stm, hstm, hkept, hbinds⟩)
          obtain ⟨block, size, ha⟩ := hallocates
          exact .inr (.inr (.inl (mem_keys_of_allocates h hstm ha hbinds)))
      · exact .inl (mem_free.mpr ⟨hreads, hf⟩)
    · exact .inr (.inr (.inr rfl))
  · intro x
    rw [mem_bindings_offsetBy_iff h, Body.mem_bindings_iff]
    push Not
    constructor
    · rintro ⟨stm, hstm, hkept, hbinds⟩
      exact ⟨⟨stm, hstm, hbinds⟩, stm, hstm, hbinds, hkept⟩
    · rintro ⟨-, stm, hstm, hbinds, hkept⟩
      exact ⟨stm, hstm, hkept, hbinds⟩

/-- A row of eight elements in a block of `n`; the first one is the result. -/
def throughRow : Lambda where
  params := [⟨⟨"x", 0⟩, .i64, none⟩]
  body :=
    let row (tag : Nat) : Binder :=
      ⟨⟨"row", tag⟩, .array .i64, some ⟨⟨"row_mem", 2⟩, .rowMajor [.const 8]⟩⟩
    { stms := [⟨[⟨⟨"row_mem", 2⟩, .mem, none⟩], .alloc (.var ⟨"n", 1⟩) .global⟩,
        ⟨[row 3], .scratch .i64 [.const (.int 8)]⟩,
        ⟨[row 4], .update ⟨"row", 3⟩ [.const (.int 0)] (.var ⟨"x", 0⟩)⟩,
        ⟨[⟨⟨"y", 5⟩, .i64, none⟩], .index ⟨"row", 4⟩ [.const (.int 0)]⟩]
      result := [.var ⟨"y", 5⟩] }
  ret := [.i64]

/-- Without its allocation the lambda does not read `n` any more, but slices of `n` elements
do. -/
theorem free_offsetBy_extract_throughRow : ∃ pruned blocks,
    throughRow.extract = .ok ⟨pruned, blocks⟩ ∧ ⟨"n", 1⟩ ∉ pruned.free ∧
    ⟨"n", 1⟩ ∈ (pruned.offsetBy (blocks.sliceOffsets ⟨"tid", 6⟩)).free ∧
    (∀ x ∈ (pruned.offsetBy (blocks.sliceOffsets ⟨"tid", 6⟩)).free, x ∈ throughRow.free ∨
      (∃ b ∈ throughRow.params, b.name = x) ∨ x ∈ blocks.keys ∨ x = ⟨"tid", 6⟩) ∧
    ∀ x, x ∈ (pruned.offsetBy (blocks.sliceOffsets ⟨"tid", 6⟩)).bindings ↔
      x ∈ throughRow.body.bindings ∧
        ¬ ∀ stm ∈ throughRow.body.stms, stm.Binds x → ∃ block size, stm.Allocates block size :=
  ⟨_, _, rfl, by decide, by decide, free_offsetBy_extract rfl ⟨"tid", 6⟩⟩

end Lambda

end KernelGen
