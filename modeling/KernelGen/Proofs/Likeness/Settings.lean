import KernelGen.Proofs.Kernel.Structure
import KernelGen.Proofs.Likeness.Hoisting
import Mathlib.Data.List.Perm.Subperm

/-! # What the settings change

The settings decide what is refused and what is called how, and nothing else
(`compile_settings`).  Whether blocks may be made in front of kernels is a question of
refusals only.  The base of thread indices is a question of names: where all names of the
program and of the context come from before the first tag that is drawn, another base
leads to the same end, with the thread indices of the kernels under that base.

In the code a thread index is told by its kernel.  To compare the two compilations it has
to be told before there is any code, and also where there is none: the program says at
which draws its maps get their indices (`Stm.drawnAll_pattern`), so these are known from
the first tag.  That the kernels have no other indices, and that every one of these is the
index of some kernel, is seen by counting. -/
namespace KernelGen
open Lowering Pairing

/-- With this base for the names of thread indices. -/
def Context.naming (ctx : Context) (base : String) : Context :=
  { ctx with settings := { ctx.settings with threadIndexBase := base } }

/-- The name, with this base if it is one of `names`. -/
def Name.rebase (names : List Name) (base : String) (x : Name) : Name :=
  if x ∈ names then ⟨base, x.tag⟩ else x

/-- The code with this base for the thread indices of its kernels, wherever they occur. -/
def Code.rebase (base : String) (code : Code) : Code :=
  Code.rename (Name.rebase ((Code.kernels code).map Kernel.threadIndex) base) code

namespace Name
variable {names : List Name} {base : String} {x : Name}

theorem tag_rebase (names : List Name) (base : String) (x : Name) :
    (x.rebase names base).tag = x.tag := by
  unfold rebase
  split <;> rfl

theorem rebase_of_mem (h : x ∈ names) : x.rebase names base = ⟨base, x.tag⟩ := if_pos h

theorem rebase_of_not_mem (h : x ∉ names) : x.rebase names base = x := if_neg h

/-- What was there before all of `names` stays. -/
theorem rebase_of_lt {first : Nat} (hnew : ∀ x ∈ names, first ≤ x.tag) (hx : x.tag < first) :
    x.rebase names base = x :=
  rebase_of_not_mem fun hmem => (hnew x hmem).not_gt hx

/-- Names that have the base already. -/
theorem rebase_of_bases (h : ∀ x ∈ names, x.base = base) (x : Name) :
    x.rebase names base = x := by
  unfold rebase
  split
  next hx => rw [← h x hx]
  next => rfl

end Name

/-! ## Two bases -/

namespace Likeness

/-- The context with another base for thread indices beside the context itself, where the
names of these will be `threads`, all of them new. -/
def ofBases (left : Settings) (base : String) (first : Nat) (threads : List Name)
    (hnew : ∀ x ∈ threads, first ≤ x.tag) : Likeness where
  left := left
  right := { left with threadIndexBase := base }
  strict := True
  used x := x.tag < first
  known x := x.tag < first
  readable x := x.tag < first ∨
    x.base = left.threadIndexBase ∧ x.rebase threads base = ⟨base, x.tag⟩
  rename := Name.rebase threads base
  first := first
  known_of_used := id
  readable_of_known := .inl
  rename_of_known := Name.rebase_of_lt hnew
  rename_injective x y hx hy he := by
    have htag : x.tag = y.tag := by
      rw [← Name.tag_rebase threads base x, he, Name.tag_rebase]
    by_cases hold : x.tag < first
    · rwa [Name.rebase_of_lt hnew hold, Name.rebase_of_lt hnew (htag ▸ hold)] at he
    · have hbase := (hx.resolve_left hold).1
      have hbase' := (hy.resolve_left (htag ▸ hold)).1
      calc x = ⟨x.base, x.tag⟩ := rfl
        _ = ⟨y.base, y.tag⟩ := by rw [hbase, hbase', htag]
  known_of_rename {x} h := by
    have hmem : x ∈ threads := by
      by_contra hmem
      exact h (Name.rebase_of_not_mem hmem)
    rw [Name.tag_rebase]
    exact ⟨(hnew x hmem).not_gt, (hnew x hmem).not_gt⟩
  readable_thread h := .inr ⟨rfl, h⟩

variable {ctx : Context} {threads : List Name} {hnew : ∀ x ∈ threads, ctx.names.next ≤ x.tag}

/-- Both contexts are alike if what they hold was there before. -/
theorem alike_naming (base : String) (hctx : ∀ x ∈ ctx.mentioned, x.tag < ctx.names.next) :
    (ofBases ctx.settings base ctx.names.next threads hnew).Alike ctx (ctx.naming base) where
  left := rfl
  right := rfl
  names := rfl
  onDevice := rfl
  entries x _ := by
    show ctx.vars.get? x = (ctx.vars.get? x).map (Entry.renameOffset (Name.rebase threads base))
    cases he : ctx.vars.get? x with
    | none => rfl
    | some e =>
      cases e with
      | scalar | block => rfl
      | array ty p =>
        have hoffset : p.layout.offset.rename (Name.rebase threads base) = p.layout.offset := by
          refine Size.rename_eq_self fun y hy => Name.rebase_of_lt hnew (hctx y ?_)
          exact Context.mem_mentioned_of_occurrence he
            (List.mem_cons_of_mem _ (List.mem_append_left _ hy))
        rw [Option.map_some, Entry.renameOffset, Placement.renameOffset, hoffset]
  places x ty p _ he := by
    have hold : ∀ y ∈ p.block :: p.layout.occurrences, y.tag < ctx.names.next :=
      fun y hy => hctx y (Context.mem_mentioned_of_occurrence he hy)
    rw [List.forall_mem_cons, Layout.occurrences, List.forall_mem_append] at hold
    refine ⟨hold.1, fun s hs y hy => Name.rebase_of_lt hnew ?_, fun y hy => .inl (hold.2.1 y hy)⟩
    exact hold.2.2 y (List.mem_flatMap.mpr ⟨s, hs, hy⟩)
  sizes x size space _ he y hy :=
    Name.rebase_of_lt hnew (hctx y (Context.mem_mentioned_of_occurrence he hy))

end Likeness

/-! ## The names that will be thread indices -/

/-- The thread indices that are drawn where names are drawn by this pattern, from this tag
on. -/
def drawnThreads (base : String) (first : Nat) (pattern : List (Option String)) : List Name :=
  (pattern.findIdxs Option.isNone first).map (Name.mk base)

section
variable {base : String} {first : Nat} {pattern : List (Option String)}

theorem mem_drawnThreads {x : Name} : x ∈ drawnThreads base first pattern ↔
    x.base = base ∧ first ≤ x.tag ∧ pattern[x.tag - first]? = some none := by
  rw [drawnThreads, List.mem_map]
  constructor
  · rintro ⟨t, ht, rfl⟩
    obtain ⟨hle, hlt, hnone⟩ := List.mem_findIdxs_iff_getElem_sub_pos.mp ht
    exact ⟨rfl, hle, List.getElem?_eq_some_iff.mpr ⟨hlt, Option.isNone_iff_eq_none.mp hnone⟩⟩
  · rintro ⟨rfl, hle, hnone⟩
    obtain ⟨hlt, hnone⟩ := List.getElem?_eq_some_iff.mp hnone
    refine ⟨x.tag, List.mem_findIdxs_iff_getElem_sub_pos.mpr ⟨hle, hlt, ?_⟩, rfl⟩
    rw [hnone, Option.isNone_none]

theorem length_drawnThreads :
    (drawnThreads base first pattern).length = pattern.countP Option.isNone := by
  rw [drawnThreads, List.length_map, List.length_findIdxs]

end

/-- Names are drawn on time: at the places of the pattern thread indices, each under its base,
and elsewhere the same names. -/
theorem Likeness.due_naming {settings : Settings} {base : String} {first : Nat}
    {pattern : List (Option String)} {stms : List Stm}
    (hdrawn : ∀ thread, Stm.drawnAll (some thread) stms = pattern.map (·.getD thread)) :
    (ofBases settings base first (drawnThreads settings.threadIndexBase first pattern)
      fun _ hx => (mem_drawnThreads.mp hx).2.1).timetable.Due 0
      (Stm.drawnAll (some settings.threadIndexBase) stms) (Stm.drawnAll (some base) stms) := by
  intro i own other hown hother
  rw [hdrawn, List.getElem?_map] at hown hother
  obtain ⟨o, ho, rfl⟩ := Option.map_eq_some_iff.mp hown
  rw [ho] at hother
  cases hother
  show Name.rebase _ base ⟨_, first + (0 + i)⟩ = ⟨_, first + (0 + i)⟩
  rw [Nat.zero_add]
  cases o with
  | none =>
    refine Name.rebase_of_mem (mem_drawnThreads.mpr ⟨rfl, Nat.le_add_right .., ?_⟩)
    rwa [Nat.add_sub_cancel_left]
  | some drawn =>
    refine Name.rebase_of_not_mem fun hmem => ?_
    obtain ⟨-, -, hnone⟩ := mem_drawnThreads.mp hmem
    rw [Nat.add_sub_cancel_left, ho] at hnone
    cases hnone

/-! ## Programs -/

variable {b : Body} {ctx : Context} {code : Code}

/-- The thread indices of the kernels are those that the program draws, if they are among
them. -/
theorem mem_threadIndices_iff {pattern : List (Option String)} {base : String} {first : Nat}
    (hok : (b.compile.run ctx).outcome = .ok code)
    (hcount : pattern.countP Option.isNone = (Stm.mapsAll b.stms).length)
    (hsub : ∀ k ∈ Code.kernels code, k.threadIndex ∈ drawnThreads base first pattern) (x : Name) :
    x ∈ (Code.kernels code).map Kernel.threadIndex ↔ x ∈ drawnThreads base first pattern := by
  rcases hrun : b.compile.run ctx with ⟨o, emitted, last⟩
  rw [hrun] at hok
  cases hok
  obtain ⟨hstms, -⟩ := run_collect_eq_ok.mp hrun
  have hlaunched := launches_lowerAll b.stms hstms
  have hnodup : ((Code.kernels code).map Kernel.threadIndex).Nodup := by
    refine List.pairwise_map.mpr (hlaunched.increasing.imp fun hlt he => ?_)
    rw [he] at hlt
    exact hlt.ne rfl
  have hlength : (drawnThreads base first pattern).length =
      ((Code.kernels code).map Kernel.threadIndex).length := by
    rw [length_drawnThreads, hcount, (hlaunched.sites []).length_eq, List.length_map,
      ← Code.map_snd_launches [], List.length_map]
  refine ((hnodup.subperm ?_).perm_of_length_le hlength.le).mem_iff
  exact List.forall_mem_map.mpr hsub

/-- **Another base for thread indices** leads to the same end, up to that base. -/
theorem compile_naming (base : String)
    (htags : ∀ x ∈ b.occurrences ++ b.bindings ++ ctx.mentioned, x.tag < ctx.names.next) :
    (b.compile.run (ctx.naming base)).outcome =
      (b.compile.run ctx).outcome.map (Code.rebase base) := by
  rcases b with ⟨stms, result⟩
  simp only [List.forall_mem_append, Body.occurrences, Body.bindings] at htags
  obtain ⟨⟨⟨hreads, -⟩, hbinds⟩, hctx⟩ := htags
  obtain ⟨pattern, hdrawn, hcount⟩ := Stm.drawnAll_pattern stms
  have hanswers := Likeness.compile_alike (b := ⟨stms, result⟩)
    (Likeness.alike_naming base hctx) (n := 0) rfl (Likeness.due_naming hdrawn) hreads
    hbinds
    fun m _ e _ => .inr ⟨id, fun _ => rfl⟩
  cases ho : ((Body.compile ⟨stms, result⟩).run ctx).outcome with
  | error e =>
    rw [ho] at hanswers
    exact hanswers trivial
  | ok code =>
    rw [ho] at hanswers
    obtain ⟨code', hcode', hsame, hindexed⟩ := hanswers
    have hrename : Name.rebase (drawnThreads ctx.settings.threadIndexBase ctx.names.next pattern)
        base = Name.rebase ((Code.kernels code).map Kernel.threadIndex) base := by
      refine funext fun x => ?_
      by_cases hbase : ctx.settings.threadIndexBase = base
      · have hkernels : ∀ y ∈ (Code.kernels code).map Kernel.threadIndex, y.base = base :=
          List.forall_mem_map.mpr fun k hk => (hindexed k hk).1.trans hbase
        rw [Name.rebase_of_bases fun y hy => (mem_drawnThreads.mp hy).1.trans hbase,
          Name.rebase_of_bases hkernels]
      · have hsub : ∀ k ∈ Code.kernels code, k.threadIndex ∈
            drawnThreads ctx.settings.threadIndexBase ctx.names.next pattern := by
          intro k hk
          obtain ⟨hown, hother⟩ := hindexed k hk
          by_contra hmem
          have hkept := (Name.rebase_of_not_mem hmem).symm.trans hother
          exact hbase (hown.symm.trans (congrArg Name.base hkept))
        unfold Name.rebase
        simp only [mem_threadIndices_iff ho hcount hsub x]
    rw [hcode', hsame]
    exact congrArg (fun ρ => Except.ok (Code.rename ρ code)) hrename

/-- **What the settings change.**  Blocks in front of kernels are a question of what is refused:
without them a program that is compiled with them is refused at the first map that needs one,
and otherwise nothing is different.  The base of thread indices is a question of their names,
where all names come from before the first that is drawn. -/
theorem compile_settings (b : Body) (ctx : Context) :
    (∀ code, (b.compile.run (ctx.hoisting false)).outcome = .ok code →
      (b.compile.run (ctx.hoisting true)).outcome = .ok code) ∧
    (∀ code, (b.compile.run (ctx.hoisting true)).outcome = .ok code →
      (b.compile.run (ctx.hoisting false)).outcome =
        match Stm.firstBlock? b.stms with
        | none => .ok code
        | some block => .error (.threadAllocation block)) ∧
    ∀ base, (∀ x ∈ b.occurrences ++ b.bindings ++ ctx.mentioned, x.tag < ctx.names.next) →
      (b.compile.run (ctx.naming base)).outcome =
        (b.compile.run ctx).outcome.map (Code.rebase base) :=
  ⟨fun _ => compile_hoisting_of_ok, fun _ => compile_not_hoisting, compile_naming⟩

/-- The loop of `inBranchAndLoop` alone; its map needs no block. -/
def inLoopOnly : Body := ⟨inBranchAndLoop.stms.tail, []⟩

/-- In `inBranchAndLoop` the map in the branch needs a block. -/
theorem compile_settings_inBranchAndLoop :
    (∃ code, (inLoopOnly.compile.run ((twoArrays 22).hoisting false)).outcome = .ok code ∧
      (inLoopOnly.compile.run ((twoArrays 22).hoisting true)).outcome = .ok code) ∧
    (∃ code, (inBranchAndLoop.compile.run ((twoArrays 22).hoisting true)).outcome = .ok code ∧
      (Code.kernels code).map Kernel.threadIndex = [⟨"gtid", 22⟩, ⟨"gtid", 23⟩]) ∧
    (inBranchAndLoop.compile.run ((twoArrays 22).hoisting false)).outcome =
      .error (.threadAllocation ⟨"cell_mem", 6⟩) ∧
    (∀ x ∈ inBranchAndLoop.occurrences ++ inBranchAndLoop.bindings ++ (twoArrays 22).mentioned,
      x.tag < (twoArrays 22).names.next) ∧
    (inBranchAndLoop.compile.run ((twoArrays 22).naming "thread")).outcome =
      (inBranchAndLoop.compile.run (twoArrays 22)).outcome.map (Code.rebase "thread") := by
  obtain ⟨hmore, -, -⟩ := compile_settings inLoopOnly (twoArrays 22)
  obtain ⟨-, hless, hnaming⟩ := compile_settings inBranchAndLoop (twoArrays 22)
  obtain ⟨code, hcode⟩ : ∃ code,
      (inLoopOnly.compile.run ((twoArrays 22).hoisting false)).outcome = .ok code := ⟨_, rfl⟩
  obtain ⟨code', hcode', hkernels⟩ : ∃ code,
      (inBranchAndLoop.compile.run ((twoArrays 22).hoisting true)).outcome = .ok code ∧
      (Code.kernels code).map Kernel.threadIndex = [⟨"gtid", 22⟩, ⟨"gtid", 23⟩] := ⟨_, rfl, rfl⟩
  have htags : ∀ x ∈ inBranchAndLoop.occurrences ++ inBranchAndLoop.bindings ++
      (twoArrays 22).mentioned, x.tag < (twoArrays 22).names.next := by decide
  exact ⟨⟨code, hcode, hmore code hcode⟩, ⟨code', hcode', hkernels⟩, hless code' hcode', htags,
    hnaming "thread" htags⟩

end KernelGen
