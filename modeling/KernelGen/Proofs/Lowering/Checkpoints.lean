import KernelGen.Proofs.Kernel.Launch
import KernelGen.Proofs.Meaning.Loops

/-! # What compilation comes to, and in which contexts

Arrays are accessed in three ways that are compiled one at a time: an element is read, an
element is written in place, an operand is stored.  Each is checked against the context of
that moment, which is made by all that was compiled before it.

`Stm.checkpointsAll` lists these accesses for a list of statements, at every depth and in
order, each with its context.  It follows the program as the compiler does and takes the
contexts from the runs of the parts in front.  Maps are left to whoever says what becomes
of them; inside a kernel the accesses are those of one thread (`Lambda.checkpoints`).

If the statements are compiled with success, then so is every access in its own context
(`Stm.passed_checkpointsAll`).  What is known of a single access is thereby known of all in
a program. -/
namespace KernelGen
open Lowering

/-- The step ends well. -/
def Lowering.Succeeds (x : Lowering Unit) (ctx : Context) : Prop :=
  ∃ code last, x.run ctx = ⟨.ok (), code, last⟩

/-- The context that a step leaves. -/
def Lowering.after {α : Type} (x : Lowering α) (ctx : Context) : Context := (x.run ctx).ctx

section
variable {α β : Type} {x : Lowering α} {ctx last : Context} {code : Code}

theorem Lowering.after_eq {outcome : Except CompileError α}
    (h : x.run ctx = ⟨outcome, code, last⟩) : after x ctx = last :=
  congrArg Run.ctx h

theorem Lowering.after_bind {a : α} (h : x.run ctx = ⟨.ok a, code, last⟩) (f : α → Lowering β) :
    after (x >>= f) ctx = after (f a) last := by
  rw [after, run_bind_of_ok f h]
  rfl

end

/-! ## Accesses -/

/-- An access to an array. -/
inductive ArrayAccess where
  /-- Read one element into the only destination. -/
  | index (dests : List Destination) (array : Name) (indices : List Operand)
  /-- Write one element in place. -/
  | update (dests : List Destination) (array : Name) (indices : List Operand) (value : Operand)
  /-- Store a result, or what a carried value starts as. -/
  | store (dest : Destination) (a : Operand)

/-- How the access is compiled. -/
def ArrayAccess.lower : ArrayAccess → Lowering Unit
  | .index dests array indices => lowerIndex dests array indices
  | .update dests _ indices value => lowerUpdate dests indices value
  | .store dest a => assign dest a

/-- An access, in the context in which it is compiled. -/
structure Checkpoint where
  ctx : Context
  access : ArrayAccess

/-- The access is compiled with success. -/
def Checkpoint.Passed (q : Checkpoint) : Prop := q.access.lower.Succeeds q.ctx

/-- Operands are stored one after the other, which leaves the context as it is. -/
def storing (dests : List Destination) (results : List Operand) (ctx : Context) : List Checkpoint :=
  (dests.zip results).map fun (d, a) => ⟨ctx, .store d a⟩

/-- Carried values are declared and started one after the other. -/
def starting : List (Binder × Operand) → Context → List Checkpoint
  | [], _ => []
  | (b, init) :: rest, ctx =>
    ⟨after (declare b) ctx, .store b.destination init⟩ ::
      starting rest (after (startCarried (b, init)) ctx)

/-- What is done in front of the body of a map that becomes a loop. -/
def enterMapLoop (pat params : List Binder) (inputs : List Name) : Lowering Unit := do
  let _ ← declarePattern pat
  let _ ← width inputs .loopInputFlat
  let i ← fresh "i"
  bindScalar i .i64
  (params.zip inputs).forM (readLoopParam i)

/-- What is done in front of the body of a thread. -/
def enterThread (thread : Name) (params : List Binder) (inputs : List Name) : Lowering Unit := do
  bindScalar thread .i64
  (params.zip inputs).forM (readThreadParam thread)

/-- What becomes of a map, and the accesses met there. -/
abbrev MapCheckpoints := MapLowering × (Lambda → List Name → Context → List Checkpoint)

section
variable (maps : Option MapCheckpoints)

mutual

/-- The accesses of statements, in the contexts in which they are compiled. -/
def Stm.checkpointsAll : List Stm → Context → List Checkpoint
  | [], _ => []
  | stm :: stms, ctx =>
    Stm.checkpoints stm ctx ++
      Stm.checkpointsAll stms (after (Stm.lower (maps.map Prod.fst) stm) ctx)

/-- The accesses of a statement. -/
def Stm.checkpoints : Stm → Context → List Checkpoint
  | ⟨pat, exp⟩, ctx => Exp.checkpoints pat exp ctx

/-- The accesses of an expression that is bound by a pattern. -/
def Exp.checkpoints (pat : List Binder) : Exp → Context → List Checkpoint
  | .operand a, ctx =>
    storing (pat.map Binder.destination) [a] (after (declarePattern pat) ctx)
  | .index array indices, ctx =>
    [⟨after (declarePattern pat) ctx, .index (pat.map Binder.destination) array indices⟩]
  | .update array indices value, ctx =>
    [⟨after (declarePattern pat) ctx, .update (pat.map Binder.destination) array indices value⟩]
  | .apply .., _ | .alloc .., _ | .scratch .., _ => []
  | .branch _ ⟨yes, yesResult⟩ ⟨no, noResult⟩, ctx =>
    let dests := pat.map Binder.destination
    let declared := after (declarePattern pat) ctx
    let between := after (Stm.lowerAll (maps.map Prod.fst) yes) declared
    let last := after (Stm.lowerAll (maps.map Prod.fst) no) between
    Stm.checkpointsAll yes declared ++ storing dests yesResult between ++
      (Stm.checkpointsAll no between ++ storing dests noResult last)
  | .loop carried counter _ ⟨stms, result⟩, ctx =>
    let binders := carried.map Prod.fst
    let declared := after (declarePattern pat) ctx
    let entered := (after (carried.forM startCarried) declared).bindScalar counter .i64
    let left := after (Stm.lowerAll (maps.map Prod.fst) stms) entered
    let staged := after ((binders.zip result).mapM fun (b, a) => stageCarried b a) left
    starting carried declared ++ Stm.checkpointsAll stms entered ++
      storing (binders.map Binder.destination) result staged ++
      storing (pat.map Binder.destination) (binders.map (.var ·.name)) staged
  | .map ⟨params, ⟨stms, result⟩, ret⟩ inputs, ctx =>
    match maps with
    | some (_, checkpoints) => checkpoints ⟨params, ⟨stms, result⟩, ret⟩ inputs ctx
    | none => Stm.checkpointsAll stms (after (enterMapLoop pat params inputs) ctx)

end

end

/-- The accesses of a thread, in the kernel that a map with this lambda becomes. -/
def Lambda.checkpoints (f : Lambda) (inputs : List Name) (ctx : Context) : List Checkpoint :=
  match f.extract with
  | .error _ => []
  | .ok ⟨pruned, blocks⟩ =>
    let start := after (do hoist blocks (← width inputs .kernelInputFlat)) ctx
    let thread : Name := ⟨start.settings.threadIndexBase, start.names.next⟩
    Stm.checkpointsAll none (pruned.offsetBy (blocks.sliceOffsets thread)).stms
      (after (enterThread thread f.params inputs) start.launched.enterDevice)

/-- The accesses where maps become loops. -/
def checkpointsLoops (stms : List Stm) (ctx : Context) : List Checkpoint :=
  Stm.checkpointsAll none stms ctx

/-- The accesses where maps become kernels. -/
def checkpointsKernels (stms : List Stm) (ctx : Context) : List Checkpoint :=
  Stm.checkpointsAll (some (lowerMapKernel, Lambda.checkpoints)) stms ctx

/-! ## Success of the whole is success of every access -/

section
variable {ctx last : Context} {code : Code}

/-- Storing an operand leaves the context as it is. -/
theorem assign_eq_ok {dest : Destination} {a : Operand}
    (h : (assign dest a).run ctx = ⟨.ok (), code, last⟩) : last = ctx := by
  match dest with
  | .scalar x =>
    cases h
    rfl
  | .array p element => exact (run_assign_array_eq_ok.mp h).2.2

theorem passed_storing {dests : List Destination} {results : List Operand}
    (h : (assignAll dests results).run ctx = ⟨.ok (), code, last⟩) :
    last = ctx ∧ ∀ q ∈ storing dests results ctx, q.Passed := by
  induction dests generalizing results code with
  | nil =>
    cases h
    exact ⟨rfl, List.forall_mem_nil _⟩
  | cons d dests ih =>
    cases results with
    | nil =>
      cases h
      exact ⟨rfl, List.forall_mem_nil _⟩
    | cons a results =>
      obtain ⟨⟨⟩, front, mid, rest, hfirst, hrest, rfl⟩ := run_bind_eq_ok.mp h
      obtain rfl := assign_eq_ok hfirst
      obtain ⟨rfl, hall⟩ := ih hrest
      exact ⟨rfl, List.forall_mem_cons.mpr ⟨⟨front, _, hfirst⟩, hall⟩⟩

theorem passed_starting {carried : List (Binder × Operand)}
    (h : (carried.forM startCarried).run ctx = ⟨.ok (), code, last⟩) :
    ∀ q ∈ starting carried ctx, q.Passed := by
  induction carried generalizing ctx code with
  | nil => exact List.forall_mem_nil _
  | cons q carried ih =>
    obtain ⟨b, init⟩ := q
    obtain ⟨⟨⟩, front, mid, rest, hfirst, hrest, rfl⟩ := run_bind_eq_ok.mp h
    obtain ⟨⟨⟩, front', mid', rest', hdeclare, hassign, rfl⟩ := run_bind_eq_ok.mp hfirst
    have hpassed := ih hrest
    rw [← after_eq hfirst] at hpassed
    rw [← after_eq hdeclare] at hassign
    exact List.forall_mem_cons.mpr ⟨⟨_, _, hassign⟩, hpassed⟩

/-- What is staged for a carried array is the result itself. -/
theorem run_stageCarried_of_placed {b : Binder} {a staged : Operand} {p : Placement}
    (hb : b.placement = some p)
    (h : (stageCarried b a).run ctx = ⟨.ok staged, code, last⟩) : staged = a := by
  unfold stageCarried at h
  rw [hb] at h
  cases h
  rfl

/-- Instead of what was staged the results themselves could be stored: a carried array is
staged as it is, and a carried scalar takes anything. -/
theorem passed_staged {binders : List Binder} {result staged : List Operand} {put back : Code}
    {c c' : Context}
    (hstage : ((binders.zip result).mapM fun (b, a) => stageCarried b a).run ctx =
      ⟨.ok staged, put, c⟩)
    (hassign : (assignAll (binders.map Binder.destination) staged).run c' = ⟨.ok (), back, last⟩) :
    ∀ q ∈ storing (binders.map Binder.destination) result c', q.Passed := by
  induction binders generalizing result staged put back ctx c' with
  | nil => exact List.forall_mem_nil _
  | cons b binders ih =>
    cases result with
    | nil => exact List.forall_mem_nil _
    | cons a result =>
      rw [List.zip_cons_cons, List.mapM_cons] at hstage
      obtain ⟨o, front, mid, rest, hfirst, hrest, rfl⟩ := run_bind_eq_ok.mp hstage
      obtain ⟨os, front', mid', rest', hothers, hpure, rfl⟩ := run_bind_eq_ok.mp hrest
      cases hpure
      obtain ⟨⟨⟩, c₁, mid'', c₂, hput, hputs, rfl⟩ := run_bind_eq_ok.mp hassign
      obtain rfl := assign_eq_ok hput
      refine List.forall_mem_cons.mpr ⟨?_, ih hothers hputs⟩
      rcases b with ⟨x, ty, _ | p⟩
      · exact ⟨_, _, rfl⟩
      · obtain rfl := run_stageCarried_of_placed rfl hfirst
        exact ⟨_, _, hput⟩

/-- What follows the declaration of a pattern is told the destinations of its binders. -/
theorem succeeds_of_declarePattern {pat : List Binder} {f : List Destination → Lowering Unit}
    (h : (declarePattern pat >>= f).Succeeds ctx) :
    (f (pat.map Binder.destination)).Succeeds (after (declarePattern pat) ctx) := by
  obtain ⟨code, last, h⟩ := h
  obtain ⟨dests, front, mid, rest, hdeclare, hrest, -⟩ := run_bind_eq_ok.mp h
  obtain ⟨rfl, -⟩ := run_declarePattern_eq_ok hdeclare
  rw [after_eq hdeclare]
  exact ⟨rest, last, hrest⟩

/-- A branch compiles its statements and stores its results where these end. -/
theorem run_lowerBranch_eq_ok {dests : List Destination} {stms : Lowering Unit}
    {result : List Operand} {front : Code}
    (h : (lowerBranch dests stms result).run ctx = ⟨.ok code, front, last⟩) :
    last = after stms ctx ∧ stms.Succeeds ctx ∧ ∀ q ∈ storing dests result last, q.Passed := by
  unfold lowerBranch at h
  obtain ⟨-, hcollect⟩ := run_guard_eq_ok.mp h
  obtain ⟨hbody, rfl⟩ := run_collect_eq_ok.mp hcollect
  obtain ⟨⟨⟩, inner, mid, rest, hstms, hstores, rfl⟩ := run_bind_eq_ok.mp hbody
  obtain ⟨rfl, hpassed⟩ := passed_storing hstores
  exact ⟨(after_eq hstms).symm, ⟨inner, last, hstms⟩, hpassed⟩

/-- The second branch is compiled where the first one ends. -/
theorem passed_branches {dests : List Destination} {yes no : Lowering Unit}
    {yesResult noResult : List Operand} {cond : Expr}
    (h : Succeeds (do
      let yes ← lowerBranch dests yes yesResult
      let no ← lowerBranch dests no noResult
      emit (.branch cond yes no)) ctx) :
    (yes.Succeeds ctx ∧ ∀ q ∈ storing dests yesResult (after yes ctx), q.Passed) ∧
      no.Succeeds (after yes ctx) ∧
      ∀ q ∈ storing dests noResult (after no (after yes ctx)), q.Passed := by
  obtain ⟨code, last, h⟩ := h
  obtain ⟨yesCode, front, between, rest, hyes, h₁, -⟩ := run_bind_eq_ok.mp h
  obtain ⟨noCode, front', final, rest', hno, -, -⟩ := run_bind_eq_ok.mp h₁
  obtain ⟨rfl, hyes⟩ := run_lowerBranch_eq_ok hyes
  obtain ⟨rfl, hno⟩ := run_lowerBranch_eq_ok hno
  exact ⟨hyes, hno⟩

/-- A loop starts what it carries, compiles its body, and stores what it carries twice,
where the results of the body have been put aside. -/
theorem passed_lowerLoop {dests : List Destination} {carried : List (Binder × Operand)}
    {counter : Name} {bound : Operand} {stms : Lowering Unit} {result : List Operand}
    (h : (lowerLoop dests carried counter bound stms result).Succeeds ctx) :
    let binders := carried.map Prod.fst
    let entered := (after (carried.forM startCarried) ctx).bindScalar counter .i64
    let staged :=
      after ((binders.zip result).mapM fun (b, a) => stageCarried b a) (after stms entered)
    (∀ q ∈ starting carried ctx, q.Passed) ∧ stms.Succeeds entered ∧
      (∀ q ∈ storing (binders.map Binder.destination) result staged, q.Passed) ∧
      ∀ q ∈ storing dests (binders.map (.var ·.name)) staged, q.Passed := by
  obtain ⟨code, last, h⟩ := h
  obtain ⟨-, -, start, c₁, inner, c₂, staged, put, c₃, back, c₄, out, hstart, hstms, hstage,
    hback, hout, -⟩ := run_lowerLoop_eq_ok h
  obtain ⟨rfl, -⟩ := passed_storing hback
  simp only [after_eq hstart, after_eq hstms, after_eq hstage]
  exact ⟨passed_starting hstart, ⟨inner, c₂, hstms⟩, passed_staged hstage hback,
    (passed_storing hout).2⟩

/-- A map that becomes a loop compiles its body where the parameters have been read. -/
theorem succeeds_mapLoop {pat params : List Binder} {stms : Lowering Unit}
    {result : List Operand} {inputs : List Name}
    (h : (declarePattern pat >>= fun dests =>
      lowerMapLoop dests params stms result inputs).Succeeds ctx) :
    stms.Succeeds (after (enterMapLoop pat params inputs) ctx) := by
  obtain ⟨code, last, h⟩ := h
  obtain ⟨dests, c₁, ctx₁, r₁, hdeclare, h₁, rfl⟩ := run_bind_eq_ok.mp h
  unfold lowerMapLoop at h₁
  obtain ⟨count, c₂, ctx₂, r₂, hwidth, h₂, rfl⟩ := run_bind_eq_ok.mp h₁
  obtain ⟨-, h₃⟩ := run_guard_eq_ok.mp h₂
  obtain ⟨i, c₃, ctx₃, r₃, hfresh, h₄, rfl⟩ := run_bind_eq_ok.mp h₃
  obtain ⟨⟨⟩, c₄, ctx₄, r₄, hbind, h₅, rfl⟩ := run_bind_eq_ok.mp h₄
  obtain ⟨body, c₅, ctx₅, r₅, hcollect, -, rfl⟩ := run_bind_eq_ok.mp h₅
  obtain ⟨hbody, rfl⟩ := run_collect_eq_ok.mp hcollect
  obtain ⟨⟨⟩, c₆, ctx₆, r₆, hread, h₆, rfl⟩ := run_bind_eq_ok.mp hbody
  obtain ⟨⟨⟩, inner, mid, r₇, hstms, -, rfl⟩ := run_bind_eq_ok.mp h₆
  rw [enterMapLoop, after_bind hdeclare, after_bind hwidth, after_bind hfresh, after_bind hbind,
    after_eq hread]
  exact ⟨inner, mid, hstms⟩

end

/-- A way to treat maps that comes with the accesses met there. -/
def MapCheckpoints.Sound (m : MapCheckpoints) : Prop :=
  ∀ ⦃pat f inputs ctx⦄, (m.1 pat f inputs).Succeeds ctx → ∀ q ∈ m.2 f inputs ctx, q.Passed

section
variable {maps : Option MapCheckpoints}

mutual

/-- **Success of the whole is success of every access**, in the context of its own. -/
theorem Stm.passed_checkpointsAll (hmaps : ∀ m ∈ maps, m.Sound) {stms : List Stm} {ctx : Context}
    (h : (Stm.lowerAll (maps.map Prod.fst) stms).Succeeds ctx) :
    ∀ q ∈ Stm.checkpointsAll maps stms ctx, q.Passed := by
  match stms with
  | [] => exact List.forall_mem_nil _
  | stm :: stms =>
    obtain ⟨code, last, h⟩ := h
    rw [Stm.lowerAll] at h
    obtain ⟨⟨⟩, front, mid, rest, hstm, hstms, rfl⟩ := run_bind_eq_ok.mp h
    have hfirst := Stm.passed_checkpoints hmaps ⟨front, mid, hstm⟩
    have hothers := Stm.passed_checkpointsAll hmaps ⟨rest, last, hstms⟩
    rw [← after_eq hstm] at hothers
    rw [Stm.checkpointsAll]
    exact List.forall_mem_append.mpr ⟨hfirst, hothers⟩

theorem Stm.passed_checkpoints (hmaps : ∀ m ∈ maps, m.Sound) {stm : Stm} {ctx : Context}
    (h : (Stm.lower (maps.map Prod.fst) stm).Succeeds ctx) :
    ∀ q ∈ Stm.checkpoints maps stm ctx, q.Passed := by
  match stm with
  | ⟨pat, exp⟩ =>
    rw [Stm.lower] at h
    rw [Stm.checkpoints]
    exact Exp.passed_checkpoints hmaps h

theorem Exp.passed_checkpoints (hmaps : ∀ m ∈ maps, m.Sound) {pat : List Binder} {e : Exp}
    {ctx : Context} (h : (Exp.lower (maps.map Prod.fst) pat e).Succeeds ctx) :
    ∀ q ∈ Exp.checkpoints maps pat e ctx, q.Passed := by
  match e with
  | .apply .. | .alloc .. | .scratch .. => exact List.forall_mem_nil _
  | .operand a =>
    rw [Exp.lower] at h
    obtain ⟨code, last, h⟩ := succeeds_of_declarePattern h
    obtain ⟨d, front, mid, rest, hsingle, hassign, rfl⟩ := run_bind_eq_ok.mp h
    obtain ⟨b, rfl, rfl, rfl, rfl⟩ := binder_of_single hsingle
    exact List.forall_mem_singleton.mpr ⟨rest, last, hassign⟩
  | .index array indices =>
    rw [Exp.lower] at h
    exact List.forall_mem_singleton.mpr (succeeds_of_declarePattern h)
  | .update array indices value =>
    rw [Exp.lower] at h
    exact List.forall_mem_singleton.mpr (succeeds_of_declarePattern h)
  | .branch cond ⟨yes, yesResult⟩ ⟨no, noResult⟩ =>
    rw [Exp.lower] at h
    obtain ⟨⟨hyes, hyesStored⟩, hno, hnoStored⟩ := passed_branches (succeeds_of_declarePattern h)
    have hyes := Stm.passed_checkpointsAll hmaps hyes
    have hno := Stm.passed_checkpointsAll hmaps hno
    simp only [Exp.checkpoints, List.forall_mem_append]
    exact ⟨⟨hyes, hyesStored⟩, hno, hnoStored⟩
  | .loop carried counter bound ⟨stms, result⟩ =>
    rw [Exp.lower] at h
    obtain ⟨hstart, hstms, hback, hout⟩ := passed_lowerLoop (succeeds_of_declarePattern h)
    have hstms := Stm.passed_checkpointsAll hmaps hstms
    simp only [Exp.checkpoints, List.forall_mem_append]
    exact ⟨⟨⟨hstart, hstms⟩, hback⟩, hout⟩
  | .map ⟨params, ⟨stms, result⟩, ret⟩ inputs =>
    -- `maps` stays a variable here, since the recursive call is about the same `maps`.
    rcases maps.eq_none_or_eq_some with hnone | ⟨m, hm⟩
    · have hstms : (Stm.lowerAll (maps.map Prod.fst) stms).Succeeds
          (after (enterMapLoop pat params inputs) ctx) := by
        rw [hnone] at h ⊢
        exact succeeds_mapLoop h
      have hpassed := Stm.passed_checkpointsAll hmaps hstms
      rw [hnone] at hpassed ⊢
      exact hpassed
    · rw [hm] at h ⊢
      exact hmaps m hm h

end

end

/-- **The accesses of a thread are compiled with success** when the kernel is. -/
theorem sound_kernels : MapCheckpoints.Sound (lowerMapKernel, Lambda.checkpoints) := by
  rintro pat f inputs ctx ⟨code, last, h⟩
  obtain ⟨front, k, pruned, hoisted, start, inner, hlaunch, -⟩ := lowerMapKernel_eq_ok h
  obtain ⟨-, -, hthread⟩ := lowerThread_eq_ok hlaunch.body
  obtain ⟨⟨⟩, c₁, entered, r₁, hread, h₁, -⟩ := run_bind_eq_ok.mp hthread
  obtain ⟨⟨⟩, c₂, left, r₂, hstms, -, -⟩ := run_bind_eq_ok.mp h₁
  have hstart : after (do hoist hoisted (← width inputs .kernelInputFlat)) ctx = start := by
    rw [after_bind hlaunch.width, after_eq hlaunch.hoist]
  have henter : after (enterThread k.threadIndex f.params inputs) start.launched.enterDevice =
      entered := by
    rw [enterThread, bindScalar, after_bind (run_change _ _)]
    exact after_eq hread
  simp only [Lambda.checkpoints, hlaunch.extract, hstart, ← hlaunch.thread, henter]
  exact Stm.passed_checkpointsAll (fun _ hm => absurd hm (Option.not_mem_none _)) ⟨c₂, left, hstms⟩

end KernelGen
