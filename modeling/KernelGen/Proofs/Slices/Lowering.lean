import KernelGen.Compile
import KernelGen.Proofs.Lowering.Forms
import KernelGen.Proofs.Slices.Shift
import Mathlib.Data.List.Forall2

/-! # Slices commute with compilation

Arrays are moved into the slice of their thread in the program, before it is compiled;
the positions of its reads and writes come out of the compilation much later, through
patterns, carried values, branches, nested maps and the table of names.  The main
statement, `lowerLoops_offsetBy`, says that nothing is lost on the way: the moved program
is refused exactly when the program itself is, for the same reason, and otherwise the two
codes differ in the positions of accesses to shared blocks only, each of which lies
`thread * size` further on, in the slice of the thread if it was in the block.

The two compilations are compared by a simulation.  The contexts hold the same entries,
except that the arrays on the right have been moved like those of the program.  Their codes
are alike (`Code.Alike`): they agree statement by statement, at every depth of branches and
loops, save for the positions at which blocks are read and written.  What the two positions
of one access have to do with each other is the parameter `index`, which is given the
block. -/
namespace KernelGen

/-! ## Code that differs in its positions only -/

section
variable (index : Name → Size → Size → Prop)

/-- Statements without kernels that differ in the positions of reads and writes only. -/
inductive Stmt.Alike : Stmt → Stmt → Prop
  | declareScalar {x ty} : Alike (.declareScalar x ty) (.declareScalar x ty)
  | declareBlock {x space} : Alike (.declareBlock x space) (.declareBlock x space)
  | allocate {x size space} : Alike (.allocate x size space) (.allocate x size space)
  | set {x e} : Alike (.set x e) (.set x e)
  | read {x b i i' ty space} (h : index b i i') :
    Alike (.read x b i ty space) (.read x b i' ty space)
  | write {b i i' ty space e} (h : index b i i') :
    Alike (.write b i ty space e) (.write b i' ty space e)
  | branch {e yes yes' no no'} (hyes : List.Forall₂ Alike yes yes')
    (hno : List.Forall₂ Alike no no') : Alike (.branch e yes no) (.branch e yes' no')
  | loop {x e body body'} (h : List.Forall₂ Alike body body') :
    Alike (.loop x e body) (.loop x e body')

/-- Code that differs in the positions of reads and writes only. -/
abbrev Code.Alike : Code → Code → Prop := List.Forall₂ (Stmt.Alike index)

end

/-! ## Positions in a slice -/

/-- An array in its slice; anything but an array stays as it is. -/
def Entry.offsetBy (offsets : BlockOffsets) : Entry → Entry
  | array ty p => array ty (p.offsetBy offsets)
  | e => e

namespace BlockSizes
variable (blocks : BlockSizes) (thread : Name)

/-- Position `i'` is where position `i` of block `b` comes to lie in the slice of the
thread; in a block that is not shared nothing moves. -/
def Slides (b : Name) (i i' : Size) : Prop :=
  match blocks.get? b with
  | none => i' = i
  | some size => ∀ env : Name → Int,
      i'.value env = i.value env + env thread * size.value env ∧
        (0 ≤ i.value env → i.value env < size.value env →
          env thread * size.value env ≤ i'.value env ∧
            i'.value env < (env thread + 1) * size.value env)

/-- **A shifted layout addresses the slice.** -/
theorem slides_position (p : Placement) (indices : List Size) :
    blocks.Slides thread p.block (p.layout.position indices)
      ((p.offsetBy (blocks.sliceOffsets thread)).layout.position indices) := by
  have hslice := Placement.get?_sliceOffsets blocks thread p.block
  unfold Slides
  cases hb : blocks.get? p.block with
  | none =>
    rw [hb, Option.map_none] at hslice
    rw [Placement.offsetBy_of_none hslice]
  | some size =>
    rw [hb, Option.map_some] at hslice
    intro env
    have hvalue : ((p.offsetBy (blocks.sliceOffsets thread)).layout.position indices).value env =
        (p.layout.position indices).value env + env thread * size.value env := by
      rw [Placement.offsetBy_of_some hslice, Layout.value_position_shift, Size.value_times]
      rfl
    refine ⟨hvalue, fun hlo hhi => ?_⟩
    rw [hvalue, add_mul, one_mul]
    omega

/-- Contexts that differ in the slices of arrays only. -/
structure Shifted (c c' : Context) : Prop where
  names : c'.names = c.names
  onDevice : c'.onDevice = c.onDevice
  vars : ∀ x, c'.vars.get? x = (c.vars.get? x).map (Entry.offsetBy (blocks.sliceOffsets thread))

variable {blocks thread}

theorem Shifted.bind {c c' : Context} (h : blocks.Shifted thread c c') (x : Name) (e : Entry) :
    blocks.Shifted thread (c.bind x e)
      (c'.bind x (e.offsetBy (blocks.sliceOffsets thread))) where
  names := h.names
  onDevice := h.onDevice
  vars y := by
    rw [Context.get?_bind, Context.get?_bind, h.vars]
    split <;> rfl

/-- Blocks are found where they were. -/
theorem Shifted.blockSpace {c c' : Context} (h : blocks.Shifted thread c c') (b : Name) :
    c'.blockSpace b = c.blockSpace b := by
  unfold Context.blockSpace Context.block Context.entry
  rw [h.vars]
  cases c.vars.get? b with
  | none => rfl
  | some e => cases e <;> rfl

variable (blocks thread)

/-- Compiling a program beside the program with its arrays in slices. -/
def sliding : Simulation where
  context := blocks.Shifted thread
  stmt := Stmt.Alike (blocks.Slides thread)
  strict := True
  roles := .ofNames (fun _ => True) (fun _ => True) fun _ => True
  move := Placement.offsetBy (blocks.sliceOffsets thread)
  move_block := Placement.block_offsetBy _
  move_shape := Placement.shape_offsetBy _
  move_injective _ _ := Placement.offsetBy_injective blocks thread
  names_eq h := h.names
  fresh_bound _ _ := trivial
  fresh_scalar _ _ := .inl trivial
  draw h := ⟨rfl, h.onDevice, h.vars⟩
  bind_scalar ty _ h := h.bind _ (.scalar ty)
  bind_array ty _ _ h := h.bind _ (.array ty _)
  entry {c c' x} h _ := by
    rw [h.vars]
    rcases c.vars.get? x with _ | e
    · exact .none
    · cases e with
      | scalar | block => exact .some (by constructor)
      | array ty p => exact .some (.array ⟨trivial, fun _ _ => trivial⟩)
  extent _ _ _ _ _ _ _ := .inl trivial
  space {c c' p} h _ := by
    rw [h.blockSpace]
    cases c.blockSpace p.block with
    | error e => exact fun _ => rfl
    | ok s =>
      refine ⟨s, rfl, fun indices ty _ => ⟨fun x _ => .read ?_, fun a _ => .write ?_⟩⟩
      · exact slides_position blocks thread p indices
      · exact slides_position blocks thread p indices
  alloc space _ _ := Pairing.tracks_lowerAlloc _ (fun h => h.onDevice)
    (fun _ _ => ⟨.declareBlock, .allocate⟩) fun x h => h.bind x (.block _ space)
  declare_stmt _ _ := .declareScalar
  set_stmt _ _ := .set
  apply_stmt _ _ _ _ := .set
  branch_stmt _ := .branch
  loop_stmt _ _ := .loop
  map_stmt _ _ := .loop

end BlockSizes

/-- **Slices commute with compilation.**  In a context without arrays in shared blocks,
the program whose arrays were moved into the slices of `thread` meets the same end as
the program itself, and its code differs in the positions of accesses to shared blocks
only: each lies `thread * size` further on, and in the slice of the thread if it lay in
a block of that size. -/
theorem lowerLoops_offsetBy (blocks : BlockSizes) (thread : Name) (body : Body) (ctx : Context)
    (hfree : ∀ x ty p, ctx.vars.get? x = some (.array ty p) → blocks.get? p.block = none) :
    let plain := (lowerLoops body.stms).run ctx
    let moved := (lowerLoops (body.offsetBy (blocks.sliceOffsets thread)).stms).run ctx
    moved.outcome = plain.outcome ∧
      (plain.outcome = .ok () → Code.Alike (blocks.Slides thread) plain.emitted moved.emitted) := by
  -- No array of the context lives in a shared block, so the context is its own image.
  have hctx : blocks.Shifted thread ctx ctx := by
    refine ⟨rfl, rfl, fun x => ?_⟩
    rcases hx : ctx.vars.get? x with _ | e
    · rfl
    · cases e with
      | scalar | block => rfl
      | array ty p =>
        have hp : (blocks.sliceOffsets thread).get? p.block = none := by
          rw [Placement.get?_sliceOffsets, hfree x ty p hx, Option.map_none]
        rw [Option.map_some, Entry.offsetBy, Placement.offsetBy_of_none hp]
  have hroles : Stm.RespectsAll (blocks.sliding thread).roles body.stms :=
    Stm.respectsAll_ofNames (fun _ _ => trivial) (fun _ _ => trivial) fun _ _ => trivial
  have htrack := (blocks.sliding thread).lowerAll .loops hroles hctx
  have hstms : (body.offsetBy (blocks.sliceOffsets thread)).stms =
      Stm.rewriteAll (blocks.sliding thread).move id body.stms := by
    cases body
    rfl
  intro plain moved
  change (blocks.sliding thread).Answers _ plain.outcome _ at htrack
  rw [← hstms] at htrack
  change (blocks.sliding thread).Answers _ plain.outcome moved.outcome at htrack
  cases ho : plain.outcome with
  | error e =>
    rw [ho] at htrack
    exact ⟨htrack trivial, nofun⟩
  | ok a =>
    rw [ho] at htrack
    obtain ⟨b, hb, -, hcode, -⟩ := htrack
    exact ⟨hb, fun _ => hcode⟩

/-- A thread's own block of three elements. -/
def tripleBlock : BlockSizes := .ofList [(⟨"buf", 1⟩, .const 3)]

/-- An array in that block, carried through a loop that overwrites its first element. -/
def tripleLoop : Body :=
  let place : Placement := ⟨⟨"buf", 1⟩, .rowMajor [.const 3]⟩
  let cell (tag : Nat) : Binder := ⟨⟨"cells", tag⟩, .array .i64, some place⟩
  { stms := [⟨[cell 2], .scratch .i64 [.const (.int 3)]⟩,
      ⟨[cell 3], .loop [(cell 4, .var ⟨"cells", 2⟩)] ⟨"j", 5⟩ (.const (.int 2))
        ⟨[⟨[cell 6], .update ⟨"cells", 4⟩ [.const (.int 0)] (.var ⟨"j", 5⟩)⟩],
          [.var ⟨"cells", 6⟩]⟩⟩]
    result := [.var ⟨"cells", 3⟩] }

/-- The block is known, and no array lives in it yet. -/
def tripleContext : Context :=
  (Context.initial {} ⟨8⟩).bindBlock ⟨"buf", 1⟩ (.const 12) .global

theorem lowerLoops_offsetBy_triple :
    (∀ x ty p, tripleContext.vars.get? x = some (.array ty p) →
      tripleBlock.get? p.block = none) ∧
    ((lowerLoops tripleLoop.stms).run tripleContext).outcome = .ok () ∧
    Code.Alike (tripleBlock.Slides ⟨"gtid", 7⟩)
      ((lowerLoops tripleLoop.stms).run tripleContext).emitted
      ((lowerLoops (tripleLoop.offsetBy (tripleBlock.sliceOffsets ⟨"gtid", 7⟩)).stms).run
        tripleContext).emitted := by
  have hfree : ∀ x ty p, tripleContext.vars.get? x = some (.array ty p) →
      tripleBlock.get? p.block = none := by
    intro x ty p h
    simp [tripleContext, Context.bindBlock, Context.get?_bind, Context.initial] at h
  have hok : ((lowerLoops tripleLoop.stms).run tripleContext).outcome = .ok () := by rfl
  exact ⟨hfree, hok, (lowerLoops_offsetBy tripleBlock ⟨"gtid", 7⟩ tripleLoop tripleContext
    hfree).2 hok⟩

end KernelGen
