import KernelGen.Proofs.Context.FirstOccurrence
import KernelGen.Proofs.Program.Binds

/-! # Which allocations are taken out of a lambda

An allocation can be made in front of a kernel if its size is the same for every thread.  A
size that reads a name of the lambda may differ: a parameter, or anything that is bound in
the body, in nested branches, loops and lambdas too (`Lambda.Binds`).  Names are looked for
everywhere, allocations only among the statements of the body itself.

`extract_exact` states what becomes of a lambda.  It is refused exactly when some allocation
reads such a name, and the reason is the first one, with the first name that its size reads
(`Lambda.FirstVarying`).  Otherwise the allocations are taken out, one after the other, and
nothing else is changed (`TakesOut`); of two allocations of one block the map of sizes has
the place of the first and the size of the last. -/
namespace KernelGen

/-- The statement is an allocation of this size that binds this block alone. -/
def Stm.Allocates (stm : Stm) (block : Name) (size : Size) : Prop :=
  ∃ b space, stm = ⟨[b], .alloc size space⟩ ∧ b.name = block

theorem Stm.allocation?_eq_some_iff {stm : Stm} {block : Name} {size : Size} :
    stm.allocation? = some (block, size) ↔ stm.Allocates block size := by
  constructor
  · exact Stm.allocation?_eq_some
  · rintro ⟨b, space, rfl, rfl⟩
    rfl

theorem Stm.allocation?_eq_none_iff {stm : Stm} :
    stm.allocation? = none ↔ ∀ block size, ¬ stm.Allocates block size := by
  simp only [← Stm.allocation?_eq_some_iff]
  cases stm.allocation? with
  | none => simp
  | some a => exact ⟨nofun, fun h => absurd rfl (h a.1 a.2)⟩

/-- Statements, what is kept of them, and the allocations that are taken out. -/
inductive TakesOut : List Stm → List Stm → List (Name × Size) → Prop where
  | nil : TakesOut [] [] []
  | take {stm : Stm} {block : Name} {size : Size} {stms kept : List Stm}
      {taken : List (Name × Size)} :
    stm.Allocates block size → TakesOut stms kept taken →
      TakesOut (stm :: stms) kept ((block, size) :: taken)
  | keep {stm : Stm} {stms kept : List Stm} {taken : List (Name × Size)} :
    (∀ block size, ¬ stm.Allocates block size) → TakesOut stms kept taken →
      TakesOut (stm :: stms) (stm :: kept) taken

theorem takesOut_allocations (stms : List Stm) :
    TakesOut stms (stms.filter (·.allocation?.isNone)) (stms.filterMap Stm.allocation?) := by
  induction stms with
  | nil => exact .nil
  | cons stm stms ih =>
    rw [List.filter_cons, List.filterMap_cons]
    cases ha : stm.allocation? with
    | none => exact .keep (Stm.allocation?_eq_none_iff.mp ha) ih
    | some a => exact .take (Stm.allocation?_eq_some_iff.mp ha) ih

namespace Lambda
variable {f : Lambda} {size : Size} {x : Name}

/-- The first name that the size reads and the lambda binds. -/
def FirstBound (f : Lambda) (size : Size) (x : Name) : Prop :=
  ∃ before after, size.occurrences = before ++ x :: after ∧ f.Binds x ∧ ∀ y ∈ before, ¬ f.Binds y

/-- The size reads no name that the lambda binds. -/
def Invariant (f : Lambda) (size : Size) : Prop := ∀ x ∈ size.occurrences, ¬ f.Binds x

theorem mem_bound_iff : x ∈ f.bound ↔ f.Binds x := by
  rw [bound, List.mem_eraseDups, mem_bindings_iff]

theorem varying?_eq_some_iff : f.varying? size = some x ↔ f.FirstBound size x := by
  rw [varying?, Size.vars, find?_eraseDups, List.find?_eq_some_iff_append]
  simp only [mem_bound_iff, decide_eq_true_eq, Bool.not_eq_true', decide_eq_false_iff_not]
  constructor
  · rintro ⟨hx, before, after, hsize, hbefore⟩
    exact ⟨before, after, hsize, hx, hbefore⟩
  · rintro ⟨before, after, hsize, hx, hbefore⟩
    exact ⟨hx, before, after, hsize, hbefore⟩

theorem varying?_eq_none_iff : f.varying? size = none ↔ f.Invariant size := by
  simp [varying?, Invariant, Size.vars, mem_bound_iff]

/-- The first allocation whose size reads a name that the lambda binds, and the first such
name. -/
def FirstVarying (f : Lambda) (block x : Name) : Prop :=
  ∃ before stm after size, f.body.stms = before ++ stm :: after ∧ stm.Allocates block size ∧
    f.FirstBound size x ∧ ∀ s ∈ before, ∀ b size, s.Allocates b size → f.Invariant size

/-- What is looked for among the allocations may be looked for among the statements. -/
theorem findSome?_allocations {β : Type} (g : Name × Size → Option β) (stms : List Stm) :
    (stms.filterMap Stm.allocation?).findSome? g =
      stms.findSome? fun stm => stm.allocation?.bind g := by
  induction stms with
  | nil => rfl
  | cons stm stms ih =>
    rw [List.filterMap_cons, List.findSome?_cons]
    cases stm.allocation? with
    | none => exact ih
    | some a =>
      rw [List.findSome?_cons, Option.bind_some, ih]

/-- **The reason for a refusal** is the first allocation that varies. -/
theorem extract_eq_error_iff {e : CompileError} :
    f.extract = .error e ↔ ∃ block x, f.FirstVarying block x ∧ e = .varyingSize block x := by
  let reason (a : Name × Size) : Option (Name × Name) := (f.varying? a.2).map fun x => (a.1, x)
  have hreason : ∀ stm : Stm, stm.allocation?.bind reason = none ↔
      ∀ b size, stm.Allocates b size → f.Invariant size := by
    intro stm
    simp only [Option.bind_eq_none_iff, ← Stm.allocation?_eq_some_iff, ← varying?_eq_none_iff]
    exact ⟨fun h b size ha => Option.map_eq_none_iff.mp (h (b, size) ha),
      fun h a ha => Option.map_eq_none_iff.mpr (h a.1 a.2 ha)⟩
  have hextract : f.extract = .error e ↔ ∃ block x,
      f.body.allocations.findSome? reason = some (block, x) ∧ e = .varyingSize block x := by
    unfold extract
    show (match f.body.allocations.findSome? reason with
      | some (block, x) => Except.error (CompileError.varyingSize block x)
      | none => Except.ok (Extraction.mk f.body.pruned (.ofList f.body.allocations))) = _ ↔ _
    cases f.body.allocations.findSome? reason with
    | none => simp
    | some q => simp [Prod.ext_iff, eq_comm]
  rw [hextract]
  refine exists_congr fun block => exists_congr fun x => and_congr_left fun _ => ?_
  rw [Body.allocations, findSome?_allocations, List.findSome?_eq_some_iff]
  constructor
  · rintro ⟨before, stm, after, hstms, hfound, hbefore⟩
    obtain ⟨a, ha, hx⟩ := Option.bind_eq_some_iff.mp hfound
    obtain ⟨x', hx', heq⟩ := Option.map_eq_some_iff.mp hx
    cases heq
    exact ⟨before, stm, after, a.2, hstms, Stm.allocation?_eq_some_iff.mp ha,
      varying?_eq_some_iff.mp hx', fun s hs => (hreason s).mp (hbefore s hs)⟩
  · rintro ⟨before, stm, after, size, hstms, ha, hx, hbefore⟩
    refine ⟨before, stm, after, hstms, ?_, fun s hs => (hreason s).mpr (hbefore s hs)⟩
    rw [Stm.allocation?_eq_some_iff.mpr ha, Option.bind_some]
    exact Option.map_eq_some_iff.mpr ⟨x, varying?_eq_some_iff.mpr hx, rfl⟩

/-- The first allocation that varies is an allocation of the body that reads a bound name. -/
theorem FirstVarying.reads_bound {block x : Name} (h : f.FirstVarying block x) :
    ∃ stm ∈ f.body.stms, ∃ size, stm.Allocates block size ∧ x ∈ size.occurrences ∧ f.Binds x := by
  obtain ⟨before, stm, after, size, hstms, ha, ⟨reads, rest, hsize, hbinds, -⟩, -⟩ := h
  have hstm : stm ∈ f.body.stms := hstms ▸ List.mem_append_right _ (List.mem_cons_self ..)
  have hx : x ∈ size.occurrences := hsize ▸ List.mem_append_right _ (List.mem_cons_self ..)
  exact ⟨stm, hstm, size, ha, hx, hbinds⟩

/-- **What is refused** are lambdas with an allocation that reads a bound name. -/
theorem exists_extract_eq_error_iff :
    (∃ e, f.extract = .error e) ↔ ∃ stm ∈ f.body.stms, ∃ block size, stm.Allocates block size ∧
      ∃ x ∈ size.occurrences, f.Binds x := by
  constructor
  · rintro ⟨e, he⟩
    obtain ⟨block, x, hfirst, -⟩ := extract_eq_error_iff.mp he
    obtain ⟨stm, hstm, size, ha, hx, hbinds⟩ := hfirst.reads_bound
    exact ⟨stm, hstm, block, size, ha, x, hx, hbinds⟩
  · rintro ⟨stm, hstm, block, size, ha, x, hx, hbinds⟩
    cases hextract : f.extract with
    | error e => exact ⟨e, rfl⟩
    | ok r =>
      rcases r with ⟨pruned, blocks⟩
      -- An allocation that is taken out reads nothing that is bound.
      obtain ⟨-, -, hinvariant⟩ := extract_eq_ok hextract
      have hmem : (block, size) ∈ f.body.allocations :=
        List.mem_filterMap.mpr ⟨stm, hstm, Stm.allocation?_eq_some_iff.mpr ha⟩
      exact absurd (mem_bindings_iff.mpr hbinds) (hinvariant _ hmem x hx)

/-- **Extraction.**  A lambda is refused exactly when a size among its allocations reads a
name that it binds at any depth, and the reason is the first such size with the first such
name.  Otherwise the allocations are removed from the statements and nothing else is; their
blocks are listed in order, each once, with the size of its last allocation. -/
theorem extract_exact (f : Lambda) :
    ((∃ e, f.extract = .error e) ↔ ∃ stm ∈ f.body.stms, ∃ block size, stm.Allocates block size ∧
      ∃ x ∈ size.occurrences, f.Binds x) ∧
    (∀ e, f.extract = .error e ↔ ∃ block x, f.FirstVarying block x ∧ e = .varyingSize block x) ∧
    ∀ pruned blocks, f.extract = .ok ⟨pruned, blocks⟩ → ∃ taken,
      TakesOut f.body.stms pruned.stms taken ∧ pruned.result = f.body.result ∧
      blocks.keys = (taken.map Prod.fst).eraseDups ∧
      ∀ block size, blocks.get? block = some size ↔
        ∃ before after, taken = before ++ (block, size) :: after ∧ block ∉ after.map Prod.fst := by
  refine ⟨exists_extract_eq_error_iff, fun e => extract_eq_error_iff, fun pruned blocks h => ?_⟩
  obtain ⟨rfl, rfl, -⟩ := extract_eq_ok h
  refine ⟨f.body.allocations, takesOut_allocations _, rfl, OrderedMap.keys_ofList _, ?_⟩
  exact fun block size => OrderedMap.get?_ofList_eq_some_iff

/-- A block is allocated, another one, and the first again with another size. -/
def allocatesTwice : Lambda where
  params := [⟨⟨"x", 0⟩, .i64, none⟩]
  body :=
    let alloc (block : Name) (size : Size) : Stm := ⟨[⟨block, .mem, none⟩], .alloc size .global⟩
    { stms := [alloc ⟨"a_mem", 1⟩ (.const 4), alloc ⟨"b_mem", 2⟩ (.var ⟨"n", 3⟩),
        ⟨[⟨⟨"y", 4⟩, .i64, none⟩], .operand (.var ⟨"x", 0⟩)⟩,
        alloc ⟨"a_mem", 1⟩ (.var ⟨"m", 5⟩)]
      result := [.var ⟨"y", 4⟩] }
  ret := [.i64]

/-- The block that is allocated twice is listed first, with its second size. -/
theorem extract_exact_twice : ∃ pruned blocks,
    allocatesTwice.extract = .ok ⟨pruned, blocks⟩ ∧ blocks.keys = [⟨"a_mem", 1⟩, ⟨"b_mem", 2⟩] ∧
    ∃ taken, TakesOut allocatesTwice.body.stms pruned.stms taken ∧
      pruned.result = allocatesTwice.body.result ∧
      blocks.keys = (taken.map Prod.fst).eraseDups ∧
      ∀ block size, blocks.get? block = some size ↔
        ∃ before after, taken = before ++ (block, size) :: after ∧ block ∉ after.map Prod.fst :=
  ⟨_, _, rfl, by decide, (extract_exact allocatesTwice).2.2 _ _ rfl⟩

/-- The counter of a loop inside a branch is bound too, although the allocation stands in front
of the branch. -/
example :
    let count : Stm := ⟨[], .loop [] ⟨"i", 2⟩ (.const (.int 3)) ⟨[], []⟩⟩
    let f : Lambda := ⟨[], ⟨[⟨[⟨⟨"a_mem", 1⟩, .mem, none⟩], .alloc (.var ⟨"i", 2⟩) .global⟩,
      ⟨[], .branch (.const (.bool true)) ⟨[count], []⟩ ⟨[], []⟩⟩], []⟩, []⟩
    f.extract = .error (.varyingSize ⟨"a_mem", 1⟩ ⟨"i", 2⟩) := by rfl

end Lambda

end KernelGen
