import KernelGen.Compile
import KernelGen.Proofs.Kernel.Blocks
import KernelGen.Proofs.Lowering.Checkpoints

/-! # What is checked of accesses to arrays

Arrays are never copied, so an array has to be in its place wherever it is used.  Of the
three accesses two are checked for that: an array that is read has to be bound, with as
many indices as it has dimensions, and a result that is stored has to live where it is
expected.  For an update in place only the destination is looked at
(`Checkpoint.passed_iff_checked`).  Which array is named as the updated one plays no part,
and neither does the number of indices, as zeros may be left out or added at the end
(`Stm.lowerAll_redirectAll`).

So an update can bind its array to a place where that array never was (`misplaced`), and
the program has to see to it that none does. -/
namespace KernelGen
open Lowering

/-! ## Single accesses -/

/-- The name is bound to a block. -/
def Context.HasBlock (ctx : Context) (x : Name) : Prop :=
  ∃ size space, ctx.vars.get? x = some (.block size space)

/-- What is checked of an access, in its context. -/
def Checkpoint.Checked (q : Checkpoint) : Prop :=
  match q.access with
  | .index dests array indices =>
    ∃ x ty p, dests = [.scalar x] ∧ q.ctx.vars.get? array = some (.array ty p) ∧
      indices.length = p.layout.rank ∧ (∀ a ∈ indices, a.size?.isSome) ∧ q.ctx.HasBlock p.block
  | .update dests _ indices _ =>
    ∃ p element, dests = [.array p element] ∧ (∀ a ∈ indices, a.size?.isSome) ∧
      q.ctx.HasBlock p.block
  | .store (.scalar _) _ => True
  | .store (.array p _) a => ∃ x ty, a = .var x ∧ q.ctx.vars.get? x = some (.array ty p)

namespace Lowering
variable {α : Type} {ctx last : Context} {code : Code}

theorem succeeds_emit (s : Stmt) (ctx : Context) : (emit s).Succeeds ctx := ⟨_, _, run_emit s ctx⟩

theorem not_succeeds_fault (f : Fault) (ctx : Context) : ¬ (fault f).Succeeds ctx := by
  rintro ⟨code, last, h⟩
  cases h

/-- A step that only asks is answered in front of what depends on the answer. -/
theorem succeeds_bind_iff {x : Lowering α} {Q : α → Prop} {f : α → Lowering Unit}
    (hx : ∀ {a code last}, x.run ctx = ⟨.ok a, code, last⟩ ↔ Q a ∧ code = [] ∧ last = ctx) :
    (x >>= f).Succeeds ctx ↔ ∃ a, Q a ∧ (f a).Succeeds ctx := by
  constructor
  · rintro ⟨code, last, h⟩
    obtain ⟨a, front, mid, rest, hrun, hrest, -⟩ := run_bind_eq_ok.mp h
    obtain ⟨hQ, -, rfl⟩ := hx.mp hrun
    exact ⟨a, hQ, rest, last, hrest⟩
  · rintro ⟨a, hQ, rest, last, hrest⟩
    exact ⟨_, last, run_bind_eq_ok.mpr ⟨a, [], ctx, rest, hx.mpr ⟨hQ, rfl, rfl⟩, hrest, rfl⟩⟩

theorem exists_sizes_iff {indices : List Operand} :
    (∃ is, List.Forall₂ (fun a i => a.size? = some i) indices is) ↔
      ∀ a ∈ indices, a.size?.isSome := by
  induction indices with
  | nil => exact ⟨fun _ => List.forall_mem_nil _, fun _ => ⟨[], .nil⟩⟩
  | cons a indices ih =>
    rw [List.forall_mem_cons, ← ih, Option.isSome_iff_exists]
    constructor
    · rintro ⟨_, _ | ⟨hfirst, hrest⟩⟩
      exact ⟨⟨_, hfirst⟩, _, hrest⟩
    · rintro ⟨⟨i, hi⟩, is, his⟩
      exact ⟨i :: is, .cons hi his⟩

/-- The block is looked up, and then there is one statement. -/
theorem succeeds_access {block : Name} {s : Space → Stmt} :
    (ask (·.blockSpace block) >>= fun space => emit (s space)).Succeeds ctx ↔
      ctx.HasBlock block := by
  rw [succeeds_bind_iff run_ask_eq_ok]
  simp only [Context.blockSpace_eq_ok_iff]
  constructor
  · rintro ⟨space, ⟨size, h⟩, -⟩
    exact ⟨size, space, h⟩
  · rintro ⟨size, space, h⟩
    exact ⟨space, ⟨size, h⟩, succeeds_emit _ _⟩

/-- Positions are found, and then an element is accessed. -/
theorem succeeds_element {indices : List Operand} {block : Name} {s : List Size → Space → Stmt} :
    (positions indices >>= fun is => ask (·.blockSpace block) >>= fun space =>
      emit (s is space)).Succeeds ctx ↔
      (∀ a ∈ indices, a.size?.isSome) ∧ ctx.HasBlock block := by
  simp only [succeeds_bind_iff run_positions_eq_ok, succeeds_access, exists_and_right,
    exists_sizes_iff]

theorem succeeds_lowerIndex {dests : List Destination} {array : Name} {indices : List Operand} :
    (lowerIndex dests array indices).Succeeds ctx ↔
      ∃ x ty p, dests = [.scalar x] ∧ ctx.vars.get? array = some (.array ty p) ∧
        indices.length = p.layout.rank ∧ (∀ a ∈ indices, a.size?.isSome) ∧
          ctx.HasBlock p.block := by
  rw [lowerIndex, succeeds_bind_iff run_singleScalar_eq_ok]
  refine exists_congr fun x => ?_
  rw [succeeds_bind_iff run_ask_eq_ok]
  constructor
  · rintro ⟨hdests, ⟨ty, p⟩, harray, code, last, h⟩
    obtain ⟨hlen, hread⟩ := run_guard_eq_ok.mp h
    obtain ⟨hsizes, hblock⟩ := succeeds_element.mp ⟨code, last, hread⟩
    exact ⟨ty, p, hdests, Context.array_eq_ok_iff.mp harray, not_not.mp hlen, hsizes, hblock⟩
  · rintro ⟨ty, p, hdests, harray, hlen, hsizes, hblock⟩
    obtain ⟨code, last, hread⟩ := succeeds_element.mpr ⟨hsizes, hblock⟩
    exact ⟨hdests, (ty, p), Context.array_eq_ok_iff.mpr harray, code, last,
      run_guard_eq_ok.mpr ⟨not_not.mpr hlen, hread⟩⟩

theorem succeeds_lowerUpdate {dests : List Destination} {indices : List Operand}
    {value : Operand} :
    (lowerUpdate dests indices value).Succeeds ctx ↔
      ∃ p element, dests = [.array p element] ∧ (∀ a ∈ indices, a.size?.isSome) ∧
        ctx.HasBlock p.block := by
  rw [lowerUpdate, succeeds_bind_iff run_single_eq_ok]
  constructor
  · rintro ⟨x | ⟨p, element⟩, hdests, h⟩
    · exact absurd h (not_succeeds_fault _ _)
    · exact ⟨p, element, hdests, succeeds_element.mp h⟩
  · rintro ⟨p, element, hdests, h⟩
    exact ⟨.array p element, hdests, succeeds_element.mpr h⟩

theorem succeeds_assign {p : Placement} (element : Ty) {a : Operand} :
    (assign (.array p element) a).Succeeds ctx ↔
      ∃ x ty, a = .var x ∧ ctx.vars.get? x = some (.array ty p) := by
  constructor
  · rintro ⟨code, last, h⟩
    exact (run_assign_array_eq_ok.mp h).1
  · exact fun h => ⟨[], ctx, run_assign_array_eq_ok.mpr ⟨h, rfl, rfl⟩⟩

end Lowering

/-- **An access is compiled with success exactly if it passes its checks.** -/
theorem Checkpoint.passed_iff_checked (q : Checkpoint) : q.Passed ↔ q.Checked := by
  obtain ⟨ctx, access⟩ := q
  match access with
  | .index dests array indices => exact succeeds_lowerIndex
  | .update dests array indices value => exact succeeds_lowerUpdate
  | .store (.scalar x) a => exact ⟨fun _ => trivial, fun _ => succeeds_emit _ _⟩
  | .store (.array p element) a => exact succeeds_assign element

/-! ## What makes no difference -/

theorem Size.zero_times (s : Size) : (const 0).times s = const 0 := by
  match s with
  | .const y =>
    have hmul : Word.mul? 0 y = some 0 := Word.mul?_eq_some_iff.mpr (by simp)
    rw [times, hmul]
  | .var _ | .add _ _ | .mul _ _ => rfl

/-- Indices that are zero at the end do not move a position, whether there is a dimension
for them or not. -/
theorem Layout.position_append_zeros (l : Layout) (is : List Size) (n : Nat) :
    l.position (is ++ List.replicate n (.const 0)) = l.position is := by
  unfold position
  generalize l.strides = strides
  generalize l.offset = start
  -- The indices use up their strides; then each zero adds nothing, or finds no stride.
  induction is generalizing strides start with
  | nil =>
    induction n generalizing strides with
    | zero => rfl
    | succ n ih =>
      cases strides with
      | nil => rfl
      | cons s strides =>
        have hfirst : start.plus ((Size.const 0).times s) = start := by
          rw [Size.zero_times, Size.plus_zero]
        rw [List.nil_append, List.replicate_succ, List.zip_cons_cons, List.foldl_cons]
        simp only [hfirst]
        exact ih strides
  | cons i is ih =>
    cases strides with
    | nil => rfl
    | cons s strides => exact ih strides _

section
variable (inMaps : Bool) (g : Name → Name) (n : Nat)

mutual

/-- Every update is told another array and `n` zeros as further indices; `inMaps` says
whether updates in the bodies of maps are, too.  Where maps become kernels they are not: a
kernel copies in what its lambda mentions, so that another array would show there. -/
def Stm.redirectAll : List Stm → List Stm
  | [] => []
  | stm :: stms => Stm.redirect stm :: Stm.redirectAll stms

/-- The statement with its updates redirected. -/
def Stm.redirect : Stm → Stm
  | ⟨pat, exp⟩ => ⟨pat, Exp.redirect exp⟩

/-- The expression with its updates redirected. -/
def Exp.redirect : Exp → Exp
  | .update array indices value =>
    .update (g array) (indices ++ List.replicate n (.const (.int 0))) value
  | .branch cond ⟨yes, yesResult⟩ ⟨no, noResult⟩ =>
    .branch cond ⟨Stm.redirectAll yes, yesResult⟩ ⟨Stm.redirectAll no, noResult⟩
  | .loop carried counter bound ⟨stms, result⟩ =>
    .loop carried counter bound ⟨Stm.redirectAll stms, result⟩
  | .map ⟨params, ⟨stms, result⟩, ret⟩ inputs =>
    .map ⟨params, ⟨if inMaps then Stm.redirectAll stms else stms, result⟩, ret⟩ inputs
  | .operand a => .operand a
  | .apply op lhs rhs => .apply op lhs rhs
  | .index array indices => .index array indices
  | .alloc size space => .alloc size space
  | .scratch element shape => .scratch element shape

end

end

theorem Lowering.positions_append_zeros (indices : List Operand) (n : Nat) :
    positions (indices ++ List.replicate n (.const (.int 0))) =
      (· ++ List.replicate n (.const 0)) <$> positions indices := by
  have hzeros : positions (List.replicate n (.const (.int 0))) =
      pure (List.replicate n (.const 0)) := by
    unfold positions
    induction n with
    | zero => rfl
    | succ n ih => rw [List.replicate_succ, List.mapM_cons, ih]; rfl
  unfold positions at hzeros ⊢
  rw [List.mapM_append, hzeros]
  simp only [pure_bind, map_eq_pure_bind]

theorem Lowering.lowerUpdate_append_zeros (dests : List Destination) (indices : List Operand)
    (value : Operand) (n : Nat) :
    lowerUpdate dests (indices ++ List.replicate n (.const (.int 0))) value =
      lowerUpdate dests indices value := by
  simp only [lowerUpdate, positions_append_zeros, bind_map_left, writeElement,
    Layout.position_append_zeros]

section
variable {onMap : Option MapLowering} {inMaps : Bool} (g : Name → Name) (n : Nat)

mutual

/-- **The array of an update makes no difference, and neither do zeros as further
indices.** -/
theorem Stm.lowerAll_redirectAll (h : inMaps = true → onMap = none) (stms : List Stm) :
    Stm.lowerAll onMap (Stm.redirectAll inMaps g n stms) = Stm.lowerAll onMap stms := by
  match stms with
  | [] => rfl
  | stm :: stms =>
    rw [Stm.redirectAll, Stm.lowerAll, Stm.lowerAll, Stm.lower_redirect h stm,
      Stm.lowerAll_redirectAll h stms]

theorem Stm.lower_redirect (h : inMaps = true → onMap = none) (stm : Stm) :
    Stm.lower onMap (Stm.redirect inMaps g n stm) = Stm.lower onMap stm := by
  match stm with
  | ⟨pat, exp⟩ => rw [Stm.redirect, Stm.lower, Stm.lower, Exp.lower_redirect h pat exp]

theorem Exp.lower_redirect (h : inMaps = true → onMap = none) (pat : List Binder) (e : Exp) :
    Exp.lower onMap pat (Exp.redirect inMaps g n e) = Exp.lower onMap pat e := by
  match e with
  | .operand _ | .apply .. | .index .. | .alloc .. | .scratch .. => rfl
  | .update array indices value =>
    simp only [Exp.redirect, Exp.lower, lowerUpdate_append_zeros]
  | .branch cond ⟨yes, yesResult⟩ ⟨no, noResult⟩ =>
    rw [Exp.redirect, Exp.lower, Exp.lower, Stm.lowerAll_redirectAll h yes,
      Stm.lowerAll_redirectAll h no]
  | .loop carried counter bound ⟨stms, result⟩ =>
    rw [Exp.redirect, Exp.lower, Exp.lower, Stm.lowerAll_redirectAll h stms]
  | .map ⟨params, ⟨stms, result⟩, ret⟩ inputs =>
    have hstms := Stm.lowerAll_redirectAll h stms
    cases inMaps with
    | false => rfl
    | true =>
      obtain rfl := h rfl
      simp only [Exp.redirect, Exp.lower, if_true, hstms]

end

end

/-- **What is checked of accesses, and what is not.** If statements are compiled with
success, be it with loops or with kernels for maps, then every access that they come to
passes its checks, at every depth and in its own context: an array that is read is bound
and has as many dimensions as there are indices; a stored array lives where it is expected;
an update has an array in a known block as its only destination.

The array that an update names is not checked, and neither is the number of its indices:
with another array and further zeros the same code is compiled from every context, or the
same failure comes of it, in the threads of kernels too. -/
theorem checked_of_succeeds (stms : List Stm) (ctx : Context) :
    ((lowerLoops stms).Succeeds ctx → ∀ q ∈ checkpointsLoops stms ctx, q.Checked) ∧
      ((lowerKernels stms).Succeeds ctx → ∀ q ∈ checkpointsKernels stms ctx, q.Checked) ∧
      ∀ (g : Name → Name) (n : Nat),
        lowerLoops (Stm.redirectAll true g n stms) = lowerLoops stms ∧
        lowerKernels (Stm.redirectAll false g n stms) = lowerKernels stms ∧
        ∀ thread params result inputs dests,
          lowerThread thread params ⟨Stm.redirectAll true g n stms, result⟩ inputs dests =
            lowerThread thread params ⟨stms, result⟩ inputs dests := by
  refine ⟨?loops, ?kernels, fun g n => ?unchecked⟩
  case loops =>
    intro h q hq
    have hmaps : ∀ m ∈ (none : Option MapCheckpoints), m.Sound :=
      fun _ hm => absurd hm (Option.not_mem_none _)
    exact q.passed_iff_checked.mp (Stm.passed_checkpointsAll hmaps h q hq)
  case kernels =>
    intro h q hq
    have hmaps : ∀ m ∈ some (lowerMapKernel, Lambda.checkpoints), MapCheckpoints.Sound m := by
      rintro m ⟨⟩
      exact sound_kernels
    exact q.passed_iff_checked.mp (Stm.passed_checkpointsAll hmaps h q hq)
  case unchecked =>
    have hloops : Stm.lowerAll none (Stm.redirectAll true g n stms) = Stm.lowerAll none stms :=
      Stm.lowerAll_redirectAll g n (fun _ => rfl) stms
    have hkernels : Stm.lowerAll (some lowerMapKernel) (Stm.redirectAll false g n stms) =
        Stm.lowerAll (some lowerMapKernel) stms :=
      Stm.lowerAll_redirectAll g n (fun h => absurd h Bool.false_ne_true) stms
    refine ⟨hloops, hkernels, fun thread params result inputs dests => ?_⟩
    simp only [lowerThread, hloops]

/-- The updated array lives at the destination and has as many dimensions as there are
indices. -/
def Checkpoint.InPlace (q : Checkpoint) : Prop :=
  match q.access with
  | .update dests array indices _ =>
    ∃ p element ty, dests = [.array p element] ∧ q.ctx.vars.get? array = some (.array ty p) ∧
      indices.length = p.layout.rank
  | .index .. | .store .. => True

/-- One array is updated, with an index too many, where another one lives. -/
def misplaced : List Stm :=
  [⟨[thirdArray], .update ⟨"xs", 3⟩ [.const (.int 0), .const (.int 7)] (.const (.int 1))⟩,
    ⟨[⟨⟨"y", 5⟩, .i64, none⟩], .index ⟨"ys", 4⟩ [.const (.int 2)]⟩]

theorem checked_of_succeeds_misplaced :
    (lowerLoops misplaced).Succeeds (twoArrays 22) ∧
      (lowerKernels misplaced).Succeeds (twoArrays 22) ∧
      (∀ q ∈ checkpointsLoops misplaced (twoArrays 22), q.Checked) ∧
      (∀ q ∈ checkpointsKernels misplaced (twoArrays 22), q.Checked) ∧
      ∃ q ∈ checkpointsLoops misplaced (twoArrays 22), ¬ q.InPlace := by
  have hloops : (lowerLoops misplaced).Succeeds (twoArrays 22) := ⟨_, _, rfl⟩
  have hkernels : (lowerKernels misplaced).Succeeds (twoArrays 22) := ⟨_, _, rfl⟩
  obtain ⟨hchecked, hchecked', -⟩ := checked_of_succeeds misplaced (twoArrays 22)
  refine ⟨hloops, hkernels, hchecked hloops, hchecked' hkernels, _, List.mem_cons_self .., ?_⟩
  rintro ⟨p, element, ty, hdests, -, hlen⟩
  cases hdests
  exact absurd hlen (by decide)

end KernelGen
