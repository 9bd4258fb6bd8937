import KernelGen.Compile
import KernelGen.Proofs.Code.Contents
import KernelGen.Proofs.Kernel.Hoisting
import KernelGen.Proofs.Lowering.Runs
import KernelGen.Proofs.Meaning.Scopes
import KernelGen.Proofs.Program.Bindings
import Mathlib.Data.List.Nodup
import Mathlib.Data.Nat.Basic

/-! # Every name is introduced once

Emitted code introduces names in four ways: it declares scalars and blocks, it counts with
the counters of loops, and it numbers the threads of kernels.  Each of these names is bound
in the program, where the binders of a scope become declarations, or it was drawn while the
program was compiled.

`Introduces` counts.  In the code of one step a name is introduced at most as often as it is
bound in the part of the program that is compiled, and once more if its tag was drawn by the
step.  Steps in a row add up, as the tags drawn by the second follow those drawn by the
first. -/
namespace KernelGen

/-- The name that the statement introduces, outside of nested code. -/
def Stmt.ownIntroduced : Stmt → List Name
  | .declareScalar x _ | .declareBlock x _ | .loop x _ _ => [x]
  | .kernel ⟨thread, _, _, _, _⟩ => [thread]
  | .allocate .. | .set .. | .read .. | .write .. | .branch .. => []

/-- The names introduced, at any depth. -/
abbrev Code.introduced (code : Code) : List Name := Code.gather Stmt.ownIntroduced code

/-- The tag of the name is one of those from `lo` on and below `hi`. -/
def Name.drawnIn (lo hi : Nat) (x : Name) : Nat := if lo ≤ x.tag ∧ x.tag < hi then 1 else 0

/-- Names are introduced by the code as often as they stand in the list, and once more if
their tags are between the bounds. -/
structure Code.Introduced (lo hi : Nat) (vars : List Name) (code : Code) : Prop where
  le : lo ≤ hi
  count : ∀ x, code.introduced.count x ≤ vars.count x + x.drawnIn lo hi

namespace Code.Introduced
variable {lo mid hi : Nat} {vars vars' : List Name} {code code' : Code}

theorem of_eq (h : code.introduced = vars) (hle : lo ≤ hi) : Introduced lo hi vars code :=
  ⟨hle, fun _ => h ▸ Nat.le_add_right ..⟩

/-- Two pieces of code, compiled one after the other, whatever is made of them. -/
theorem join {both : Code} (h : Introduced lo mid vars code) (h' : Introduced mid hi vars' code')
    (hboth : ∀ x, both.introduced.count x ≤ code.introduced.count x + code'.introduced.count x) :
    Introduced lo hi (vars ++ vars') both := by
  refine ⟨Nat.le_trans h.le h'.le, fun x => ?_⟩
  -- A tag is drawn by the first step, by the second one, or by neither.
  have hdrawn : x.drawnIn lo mid + x.drawnIn mid hi ≤ x.drawnIn lo hi := by
    have hle := h.le
    have hle' := h'.le
    unfold Name.drawnIn
    split <;> split <;> split <;> omega
  have hfirst := h.count x
  have hsecond := h'.count x
  have hsum := hboth x
  rw [List.count_append]
  omega

theorem append (h : Introduced lo mid vars code) (h' : Introduced mid hi vars' code') :
    Introduced lo hi (vars ++ vars') (code ++ code') := by
  refine h.join h' fun x => ?_
  rw [introduced, gather_append, List.count_append]

theorem mono (h : Introduced lo hi vars code) (hvars : ∀ x, vars.count x ≤ vars'.count x) :
    Introduced lo hi vars' code :=
  ⟨h.le, fun x => Nat.le_trans (h.count x) (Nat.add_le_add_right (hvars x) _)⟩

theorem branch (cond : Expr) (h : Introduced lo mid vars code)
    (h' : Introduced mid hi vars' code') :
    Introduced lo hi (vars ++ vars') [.branch cond code code'] := by
  refine h.join h' fun x => ?_
  simp [introduced, gather, Stmt.gather, Stmt.ownIntroduced]

theorem loop (counter : Name) (bound : Expr) (h : Introduced lo hi vars code) :
    Introduced lo hi (counter :: vars) [.loop counter bound code] := by
  refine ⟨h.le, fun x => ?_⟩
  have hcode := h.count x
  simp only [introduced, gather, Stmt.gather, Stmt.ownIntroduced, List.append_nil,
    List.singleton_append, List.count_cons] at hcode ⊢
  omega

theorem kernel (thread : Name) (threads : Size) (copyIn copyOut : List Transfer)
    (h : Introduced lo hi vars code) :
    Introduced lo hi (thread :: vars) [.kernel ⟨thread, threads, copyIn, copyOut, code⟩] := by
  refine ⟨h.le, fun x => ?_⟩
  have hcode := h.count x
  simp only [introduced, gather, Stmt.gather, Kernel.gather, Stmt.ownIntroduced, List.append_nil,
    List.singleton_append, List.count_cons] at hcode ⊢
  omega

/-- A name that was drawn first may be introduced once. -/
theorem drawn {x : Name} (hx : x.tag = lo) (h : Introduced (lo + 1) hi (x :: vars) code) :
    Introduced lo hi vars code := by
  refine ⟨Nat.le_trans (Nat.le_succ lo) h.le, fun y => ?_⟩
  have hle := h.le
  have hcount := h.count y
  rw [List.count_cons] at hcount
  unfold Name.drawnIn at hcount ⊢
  by_cases hxy : x = y
  · subst hxy
    simp only [beq_self_eq_true, if_true, hx] at hcount ⊢
    split at hcount <;> split <;> omega
  · have hne : (x == y) = false := by simpa using hxy
    simp only [hne, Bool.false_eq_true, if_false] at hcount
    split at hcount <;> split <;> omega

/-- **Where binders are distinct and were drawn before, no name is introduced twice.** -/
theorem nodup (h : Introduced lo hi vars code) (hvars : vars.Nodup)
    (htags : ∀ x ∈ vars, x.tag < lo) :
    code.introduced.Nodup := by
  refine List.nodup_iff_count_le_one.mpr fun x => ?_
  have hcount := h.count x
  by_cases hx : x ∈ vars
  · have hone := List.nodup_iff_count_le_one.mp hvars x
    have hnone : x.drawnIn lo hi = 0 := if_neg fun htag => absurd htag.1 (htags x hx).not_ge
    omega
  · have hzero := List.count_eq_zero.mpr hx
    have hone : x.drawnIn lo hi ≤ 1 := by
      unfold Name.drawnIn
      split <;> omega
    omega

end Code.Introduced

/-! ## Steps -/

namespace Lowering
variable {α β : Type} {vars vars' : List Name}

/-- A successful run of the step introduces these names and names that it draws. -/
def Introduces (vars : List Name) (x : Lowering α) : Prop :=
  ∀ ⦃ctx a code last⦄, x.run ctx = ⟨.ok a, code, last⟩ →
    Code.Introduced ctx.names.next last.names.next vars code

/-- The same of code that is a value. -/
def IntroducesInto (vars : List Name) (x : Lowering Code) : Prop :=
  ∀ ⦃ctx a code last⦄, x.run ctx = ⟨.ok a, code, last⟩ →
    code = [] ∧ Code.Introduced ctx.names.next last.names.next vars a

namespace Introduces

/-- A step that emits nothing and draws nothing. -/
theorem of_silent {x : Lowering α}
    (h : ∀ ⦃ctx a code last⦄, x.run ctx = ⟨.ok a, code, last⟩ →
      code = [] ∧ last.names = ctx.names) :
    Introduces [] x := by
  intro ctx a code last hrun
  obtain ⟨rfl, hnames⟩ := h hrun
  exact .of_eq rfl (hnames ▸ le_rfl)

theorem of_pure (a : α) : Introduces [] (pure a) := by
  refine of_silent fun ctx b code last hrun => ?_
  cases hrun
  exact ⟨rfl, rfl⟩

theorem of_fail (e : CompileError) : Introduces vars (fail e : Lowering α) := by
  intro ctx a code last hrun
  cases hrun

theorem of_fault (f : Fault) : Introduces vars (fault f : Lowering α) := of_fail _

theorem of_ask (q : Context → Except CompileError α) : Introduces [] (ask q) := by
  refine of_silent fun ctx a code last hrun => ?_
  obtain ⟨-, rfl, rfl⟩ := run_ask_eq_ok.mp hrun
  exact ⟨rfl, rfl⟩

theorem of_emit (s : Stmt) : Introduces (s.gather Stmt.ownIntroduced) (emit s) := by
  intro ctx a code last hrun
  cases hrun
  exact .of_eq (List.append_nil _) le_rfl

theorem mono {x : Lowering α} (h : Introduces vars x) (hvars : ∀ y, vars.count y ≤ vars'.count y) :
    Introduces vars' x := fun _ _ _ _ hrun => (h hrun).mono hvars

/-- Two steps in a row. -/
theorem bind {x : Lowering α} {f : α → Lowering β} (h : Introduces vars x)
    (hf : ∀ a, Introduces vars' (f a)) : Introduces (vars ++ vars') (x >>= f) := by
  intro ctx b code last hrun
  obtain ⟨a, front, mid, rest, hx, hrest, rfl⟩ := run_bind_eq_ok.mp hrun
  exact (h hx).append (hf a hrest)

/-- A step that introduces nothing, and one after it. -/
theorem next {x : Lowering α} {f : α → Lowering β} (h : Introduces [] x)
    (hf : ∀ a, Introduces vars (f a)) : Introduces vars (x >>= f) := h.bind hf

/-- A step that introduces nothing, behind another. -/
theorem before {x : Lowering α} {f : α → Lowering β} (h : Introduces vars x)
    (hf : ∀ a, Introduces [] (f a)) : Introduces vars (x >>= f) := by
  have hboth := h.bind hf
  rwa [List.append_nil] at hboth

theorem ask_bind {q : Context → Except CompileError α} {f : α → Lowering β}
    (hf : ∀ ctx a, q ctx = .ok a → Introduces vars (f a)) : Introduces vars (ask q >>= f) := by
  intro ctx b code last hrun
  obtain ⟨a, front, mid, rest, hask, hrest, rfl⟩ := run_bind_eq_ok.mp hrun
  obtain ⟨hq, rfl, rfl⟩ := run_ask_eq_ok.mp hask
  exact hf _ a hq hrest

/-- A drawn name may be introduced once. -/
theorem fresh {f : Name → Lowering β} (base : String) (hf : ∀ x, Introduces (x :: vars) (f x)) :
    Introduces vars (Lowering.fresh base >>= f) := by
  intro ctx b code last hrun
  obtain ⟨x, front, mid, rest, hfresh, hrest, rfl⟩ := run_bind_eq_ok.mp hrun
  rw [run_fresh] at hfresh
  cases hfresh
  exact .drawn rfl (hf _ hrest)

theorem guard {p : Prop} [Decidable p] {e : CompileError} {k : Unit → Lowering β}
    (h : ¬ p → Introduces vars (k ())) :
    Introduces vars (if p then fail e >>= k else k ()) := by
  intro ctx b code last hrun
  obtain ⟨hp, hk⟩ := run_guard_eq_ok.mp hrun
  exact h hp hk

theorem forM {f : α → Lowering Unit} (names : α → List Name) {as : List α}
    (h : ∀ a ∈ as, Introduces (names a) (f a)) : Introduces (as.flatMap names) (as.forM f) := by
  induction as with
  | nil => exact of_pure ()
  | cons a as ih =>
    rw [List.forall_mem_cons] at h
    exact h.1.bind fun _ => ih h.2

theorem forM_one {f : α → Lowering Unit} (name : α → Name) {as : List α}
    (h : ∀ a ∈ as, Introduces [name a] (f a)) : Introduces (as.map name) (as.forM f) := by
  rw [List.map_eq_flatMap]
  exact forM (fun a => [name a]) h

theorem forM_nil {f : α → Lowering Unit} {as : List α} (h : ∀ a ∈ as, Introduces [] (f a)) :
    Introduces [] (as.forM f) := by
  have hall := forM (fun _ => []) h
  rwa [List.flatMap_eq_nil_iff.mpr fun _ _ => rfl] at hall

theorem mapM_nil {f : α → Lowering β} {as : List α} (h : ∀ a ∈ as, Introduces [] (f a)) :
    Introduces [] (as.mapM f) := by
  induction as with
  | nil => exact of_pure []
  | cons a as ih =>
    rw [List.forall_mem_cons] at h
    rw [List.mapM_cons]
    exact h.1.next fun b => (ih h.2).next fun bs => of_pure (b :: bs)

theorem collect {x : Lowering Unit} (h : Introduces vars x) :
    IntroducesInto vars (Lowering.collect x) := by
  intro ctx a code last hrun
  obtain ⟨hx, rfl⟩ := run_collect_eq_ok.mp hrun
  exact ⟨rfl, h hx⟩

end Introduces

namespace IntroducesInto

theorem guard {p : Prop} [Decidable p] {e : CompileError} {k : Unit → Lowering Code}
    (h : IntroducesInto vars (k ())) :
    IntroducesInto vars (if p then fail e >>= k else k ()) :=
  fun _ _ _ _ hrun => h (run_guard_eq_ok.mp hrun).2

/-- It is compiled for the device. -/
theorem onDevice {x : Lowering Code} (h : IntroducesInto vars x) :
    IntroducesInto vars (Lowering.onDevice x) := by
  intro ctx a code last hrun
  rw [run_onDevice] at hrun
  rcases hx : x.run ctx.enterDevice with ⟨o, emitted, inner⟩
  rw [hx] at hrun
  cases hrun
  obtain ⟨rfl, hcode⟩ := h hx
  exact ⟨rfl, hcode⟩

/-- It becomes part of the code of a step that draws nothing. -/
theorem wrap {x : Lowering Code} {f : Code → Lowering Unit} (h : IntroducesInto vars x)
    (hf : ∀ ⦃ctx body code last⦄, (f body).run ctx = ⟨.ok (), code, last⟩ →
      last.names = ctx.names ∧ ∀ lo hi, Code.Introduced lo hi vars body →
        Code.Introduced lo hi vars' code) :
    Introduces vars' (x >>= f) := by
  intro ctx a code last hrun
  obtain ⟨body, front, mid, rest, hx, hrest, rfl⟩ := run_bind_eq_ok.mp hrun
  obtain ⟨rfl, hbody⟩ := h hx
  obtain ⟨hnames, hwrap⟩ := hf hrest
  rw [hnames]
  exact hwrap _ _ hbody

/-- It becomes the body of a loop. -/
theorem loop {x : Lowering Code} (h : IntroducesInto vars x) (counter : Name) (bound : Expr) :
    Introduces (counter :: vars) (x >>= fun body => emit (.loop counter bound body)) := by
  refine h.wrap fun ctx body code last hrun => ?_
  cases hrun
  exact ⟨rfl, fun _ _ hbody => hbody.loop counter bound⟩

/-- It becomes the body of a kernel, once the transfers are planned. -/
theorem kernel {x : Lowering Code} (h : IntroducesInto vars x) (thread : Name) (threads : Size)
    (copyIn copyOut : Context → Except CompileError (List Transfer)) :
    Introduces (thread :: vars) (x >>= fun body => ask copyIn >>= fun into =>
      ask copyOut >>= fun back => emit (.kernel ⟨thread, threads, into, back, body⟩)) := by
  refine h.wrap fun ctx body code last hrun => ?_
  obtain ⟨into, front, mid, rest, hask, hrest, rfl⟩ := run_bind_eq_ok.mp hrun
  obtain ⟨-, rfl, rfl⟩ := run_ask_eq_ok.mp hask
  obtain ⟨back, front, mid, rest, hask, hemit, rfl⟩ := run_bind_eq_ok.mp hrest
  obtain ⟨-, rfl, rfl⟩ := run_ask_eq_ok.mp hask
  cases hemit
  exact ⟨rfl, fun _ _ hbody => hbody.kernel thread threads into back⟩

/-- Two pieces of it become the sides of a branch. -/
theorem branch {x y : Lowering Code} (h : IntroducesInto vars x) (h' : IntroducesInto vars' y)
    (cond : Expr) :
    Introduces (vars ++ vars') (x >>= fun yes => y >>= fun no => emit (.branch cond yes no)) := by
  intro ctx a code last hrun
  obtain ⟨yes, front, mid, rest, hx, hrest, rfl⟩ := run_bind_eq_ok.mp hrun
  obtain ⟨rfl, hyes⟩ := h hx
  obtain ⟨no, front, last', rest, hy, hemit, rfl⟩ := run_bind_eq_ok.mp hrest
  obtain ⟨rfl, hno⟩ := h' hy
  cases hemit
  exact hyes.branch cond hno

end IntroducesInto

/-! ## Moving values -/

theorem introduces_change {f : Context → Context} (h : ∀ ctx, (f ctx).names = ctx.names) :
    Introduces [] (change f) := by
  refine .of_silent fun ctx _ code last hrun => ?_
  cases hrun
  exact ⟨rfl, h ctx⟩

theorem introduces_bindScalar (x : Name) (ty : Ty) : Introduces [] (bindScalar x ty) :=
  introduces_change fun _ => rfl

theorem introduces_bindBinder (b : Binder) : Introduces [] (bindBinder b) := by
  refine .of_silent fun ctx _ code last hrun => ?_
  obtain ⟨c, front, mid, rest, hask, hchange, rfl⟩ := run_bind_eq_ok.mp hrun
  obtain ⟨hc, rfl, rfl⟩ := run_ask_eq_ok.mp hask
  cases hchange
  refine ⟨rfl, ?_⟩
  rcases b with ⟨x, ty, _ | p⟩
  · by_cases hty : ty.isScalar
    · simp only [Context.bindBinder, hty, if_true, Except.ok.injEq] at hc
      rw [← hc]
      rfl
    · simp [Context.bindBinder, hty] at hc
  · cases hc
    rfl

theorem introduces_allocate (block : Name) (size : Size) (space : Space) :
    Introduces [block] (allocate block size space) :=
  (Introduces.of_emit (.declareBlock block space)).before fun _ =>
    (Introduces.of_emit (.allocate block size space)).next fun _ => introduces_change fun _ => rfl

theorem introduces_declare (b : Binder) : Introduces [b.name] (declare b) := by
  unfold declare
  split
  · exact (Introduces.of_emit (.declareScalar b.name b.ty)).before fun _ => introduces_bindBinder b
  · exact (introduces_bindBinder b).mono fun _ => Nat.zero_le _

theorem introduces_declarePattern (pat : List Binder) :
    Introduces (pat.map Binder.name) (declarePattern pat) :=
  (Introduces.forM_one Binder.name fun b _ => introduces_declare b).before fun _ =>
    .of_pure (pat.map Binder.destination)

theorem introduces_single (dests : List Destination) : Introduces [] (single dests) := by
  match dests with
  | [d] => exact .of_pure d
  | [] | _ :: _ :: _ => exact .of_fault _

theorem introduces_singleScalar (dests : List Destination) :
    Introduces [] (singleScalar dests) := by
  refine (introduces_single dests).next ?_
  rintro (x | ⟨p, ty⟩)
  · exact .of_pure x
  · exact .of_fault _

theorem introduces_positions (indices : List Operand) : Introduces [] (positions indices) := by
  refine .mapM_nil fun a _ => ?_
  split
  · exact .of_pure _
  · exact .of_fault _

theorem introduces_assign (d : Destination) (a : Operand) : Introduces [] (assign d a) := by
  match d with
  | .scalar x => exact .of_emit (.set x (.ofOperand a))
  | .array p element =>
    refine .of_silent fun ctx _ code last hrun => ?_
    obtain ⟨-, rfl, rfl⟩ := run_assign_array_eq_ok.mp hrun
    exact ⟨rfl, rfl⟩

theorem introduces_assignAll (dests : List Destination) (results : List Operand) :
    Introduces [] (assignAll dests results) := .forM_nil fun q _ => introduces_assign q.1 q.2

theorem introduces_readElement (x : Name) (p : Placement) (indices : List Size) (element : Ty) :
    Introduces [] (readElement x p indices element) :=
  (Introduces.of_ask _).next fun space => .of_emit (.read x p.block _ element space)

theorem introduces_writeElement (p : Placement) (indices : List Size) (element : Ty) (a : Operand) :
    Introduces [] (writeElement p indices element a) :=
  (Introduces.of_ask _).next fun space => .of_emit (.write p.block _ element space (.ofOperand a))

theorem introduces_readParam (i : Name) (param : Binder) (ty : Ty) (p : Placement) :
    Introduces [param.name] (readParam i param ty p) :=
  (Introduces.of_ask _).next fun space =>
    (Introduces.of_emit (.declareScalar param.name param.ty)).before fun _ =>
      (Introduces.of_emit (.read param.name p.block _ ty.element space)).next fun _ =>
        introduces_bindScalar _ _

theorem introduces_width (inputs : List Name) (flat : Name → Fault) :
    Introduces [] (width inputs flat) := by
  refine .of_silent fun ctx size code last hrun => ?_
  obtain ⟨rfl, rfl, -⟩ := run_width hrun
  exact ⟨rfl, rfl⟩

/-! ## Forms of expressions -/

section
variable {stms : Lowering Unit} {dests : List Destination} {result : List Operand}

theorem introduces_lowerAlloc (pat : List Binder) (size : Size) (space : Space) :
    Introduces (pat.map Binder.name) (lowerAlloc pat size space) := by
  match pat with
  | [] | _ :: _ :: _ => exact .of_fault _
  | [b] =>
    by_cases hty : b.ty.isMem
    · simp only [lowerAlloc, hty, if_true]
      exact (Introduces.of_ask _).next fun _ => .guard fun _ =>
        introduces_allocate b.name size space
    · simp only [lowerAlloc, hty]
      exact .of_fault _

theorem introduces_lowerIndex (dests : List Destination) (array : Name) (indices : List Operand) :
    Introduces [] (lowerIndex dests array indices) :=
  (introduces_singleScalar dests).next fun x => (Introduces.of_ask _).next fun q =>
    .guard fun _ => (introduces_positions indices).next fun is =>
      introduces_readElement x q.2 is q.1.element

theorem introduces_lowerUpdate (dests : List Destination) (indices : List Operand)
    (value : Operand) : Introduces [] (lowerUpdate dests indices value) := by
  refine (introduces_single dests).next ?_
  rintro (x | ⟨p, element⟩)
  · exact .of_fault _
  · exact (introduces_positions indices).next fun is => introduces_writeElement p is element value

theorem introducesInto_lowerBranch (h : Introduces vars stms) :
    IntroducesInto vars (lowerBranch dests stms result) := by
  unfold lowerBranch
  exact .guard (Introduces.collect (h.before fun _ => introduces_assignAll dests result))

theorem introduces_startCarried (q : Binder × Operand) : Introduces [q.1.name] (startCarried q) :=
  (introduces_declare q.1).before fun _ => introduces_assign q.1.destination q.2

/-- What is put aside has a name of its own, which is drawn for it. -/
theorem introduces_stageCarried (b : Binder) (a : Operand) : Introduces [] (stageCarried b a) := by
  rcases b with ⟨x, ty, _ | p⟩
  · refine .fresh _ fun aside => ?_
    exact (Introduces.of_emit (.declareScalar aside ty)).before fun _ =>
      (Introduces.of_emit (.set aside (.ofOperand a))).next fun _ =>
        (introduces_bindScalar aside ty).next fun _ => .of_pure _
  · exact .of_pure _

theorem introduces_stageAll (pairs : List (Binder × Operand)) :
    Introduces [] (pairs.mapM fun (b, a) => stageCarried b a) :=
  .mapM_nil fun q _ => introduces_stageCarried q.1 q.2

theorem introduces_lowerLoop (carried : List (Binder × Operand)) (counter : Name) (bound : Operand)
    (h : Introduces vars stms) :
    Introduces (carried.map (·.1.name) ++ counter :: vars)
      (lowerLoop dests carried counter bound stms result) := by
  have hstart : Introduces (carried.map (·.1.name)) (carried.forM startCarried) :=
    .forM_one (·.1.name) fun q _ => introduces_startCarried q
  have hbody := h.before fun _ =>
    (introduces_stageAll ((carried.map Prod.fst).zip result)).next fun staged =>
      introduces_assignAll ((carried.map Prod.fst).map Binder.destination) staged
  have hall := (hbody.collect.loop counter (.ofOperand bound)).before fun _ =>
    introduces_assignAll dests ((carried.map Prod.fst).map (.var ·.name))
  rw [bind_assoc] at hall
  unfold lowerLoop
  exact .guard fun _ => hstart.bind fun _ => (introduces_bindScalar counter .i64).next fun _ => hall

/-- Parameters that are read one after the other. -/
theorem introduces_readParams {f : Binder × Name → Lowering Unit} {params : List Binder}
    {inputs : List Name} (hlen : params.length = inputs.length)
    (h : ∀ q, Introduces [q.1.name] (f q)) :
    Introduces (params.map Binder.name) ((params.zip inputs).forM f) := by
  have hall : Introduces ((params.zip inputs).map (·.1.name)) ((params.zip inputs).forM f) :=
    .forM_one (·.1.name) fun q _ => h q
  have hnames := congrArg (List.map Binder.name) (List.map_fst_zip (Nat.le_of_eq hlen))
  rw [List.map_map] at hnames
  rwa [← hnames]

theorem introduces_lowerMapLoop (params : List Binder) (inputs : List Name)
    (h : Introduces vars stms) :
    Introduces (params.map Binder.name ++ vars) (lowerMapLoop dests params stms result inputs) := by
  unfold lowerMapLoop
  refine (introduces_width inputs _).next fun count => .guard fun hlen => .fresh _ fun i => ?_
  have hread : ∀ q, Introduces [q.1.name] (readLoopParam i q) := fun q =>
    (Introduces.of_ask _).next fun r => .guard fun _ => introduces_readParam i q.1 r.1 r.2
  have hwrite : ∀ q, Introduces [] (writeLoopResult i q) := by
    rintro ⟨_ | ⟨p, element⟩, a⟩
    · exact .of_fault _
    · exact introduces_writeElement p [.var i] element a
  rw [not_or, not_not, not_not] at hlen
  have hwrites : Introduces [] ((dests.zip result).forM (writeLoopResult i)) :=
    .forM_nil fun q _ => hwrite q
  have hbody := (introduces_readParams hlen.1 hread).bind fun _ => h.before fun _ => hwrites
  exact (introduces_bindScalar i .i64).next fun _ => hbody.collect.loop i (.ofSize count)

/-- A block is introduced for each allocation that was taken out. -/
theorem introduces_hoist (blocks : BlockSizes) (threads : Size) :
    Introduces blocks.keys (hoist blocks threads) := by
  have hall : Introduces ((blocks.scale threads).entries.map Prod.fst)
      ((blocks.scale threads).entries.forM fun q => allocate q.1 q.2 .global) :=
    .forM_one Prod.fst fun q _ => introduces_allocate q.1 q.2 .global
  have hkeys : (blocks.scale threads).entries.map Prod.fst = blocks.keys := OrderedMap.keys_map ..
  rw [hkeys] at hall
  unfold hoist
  split
  · exact (Introduces.of_ask _).next fun _ => .guard fun _ => hall
  · exact hall

theorem introduces_lowerThread (dests : List Destination) (thread : Name)
    (params : List Binder) (body : Body) (inputs : List Name)
    (h : Introduces vars (Stm.lowerAll none body.stms)) :
    Introduces (params.map Binder.name ++ vars) (lowerThread thread params body inputs dests) := by
  have hread : ∀ q, Introduces [q.1.name] (readThreadParam thread q) := fun q =>
    (Introduces.of_ask _).next fun r => .guard fun _ => introduces_readParam thread q.1 r.1 r.2
  have hwrite : ∀ q, Introduces [] (writeThreadResult thread q) := by
    rintro ⟨_ | ⟨p, element⟩, c | x⟩
    · exact .of_fail _
    · exact .of_fail _
    · exact introduces_writeElement p [.var thread] element (.const c)
    · exact (Introduces.of_ask _).next fun ty => .guard fun _ =>
        introduces_writeElement p [.var thread] element (.var x)
  unfold lowerThread
  refine .guard fun hlen => .guard fun _ => (introduces_bindScalar thread .i64).next fun _ => ?_
  exact (introduces_readParams (Decidable.not_not.mp hlen) hread).bind fun _ => h.before fun _ =>
    .forM_nil fun q _ => hwrite q

end

/-! ## Kernels -/

/-- The blocks that are taken out of statements, and what is bound in the rest of them. -/
theorem perm_bindingsAll_filter (stms : List Stm) :
    ((stms.filterMap Stm.allocation?).map Prod.fst ++
      Stm.bindingsAll (stms.filter (·.allocation?.isNone))).Perm (Stm.bindingsAll stms) := by
  induction stms with
  | nil => exact .nil
  | cons stm stms ih =>
    rw [List.filterMap_cons, List.filter_cons, Stm.bindingsAll]
    cases ha : stm.allocation? with
    | none =>
      rw [Option.isNone_none, if_pos rfl, Stm.bindingsAll]
      exact (List.perm_append_comm_assoc ..).trans (ih.append_left stm.bindings)
    | some a =>
      obtain ⟨b, space, rfl, hb⟩ := Stm.allocation?_eq_some ha
      rw [Option.isNone_some, if_neg Bool.false_ne_true, List.map_cons, ← hb]
      exact ih.cons b.name

theorem bindingsAll_offsetBy (offsets : BlockOffsets) (b : Body) :
    Stm.bindingsAll (b.offsetBy offsets).stms = Stm.bindingsAll b.stms := by
  rcases b with ⟨stms, result⟩
  exact Stm.bindingsAll_rewrite ..

/-- Hoisting binds no name twice that the lambda binds once. -/
theorem count_hoisted_le {f : Lambda} {pruned : Body} {blocks : BlockSizes}
    (h : f.extract = .ok ⟨pruned, blocks⟩) (x : Name) :
    (blocks.keys ++ (f.params.map Binder.name ++ Stm.bindingsAll pruned.stms)).count x ≤
      f.bindings.count x := by
  obtain ⟨rfl, rfl, -⟩ := Lambda.extract_eq_ok h
  rcases f with ⟨params, ⟨stms, result⟩, ret⟩
  have hkeys := (OrderedMap.keys_ofList_sublist (stms.filterMap Stm.allocation?)).count_le x
  have hperm := (perm_bindingsAll_filter stms).count_eq x
  show ((OrderedMap.ofList (stms.filterMap Stm.allocation?)).keys ++ (params.map Binder.name ++
    Stm.bindingsAll (stms.filter (·.allocation?.isNone)))).count x ≤
      (params.map Binder.name ++ Stm.bindingsAll stms).count x
  simp only [List.count_append] at hperm ⊢
  omega

theorem introduces_lowerMapKernel (pat : List Binder) (f : Lambda) (inputs : List Name)
    (h : ∀ stms, Introduces (Stm.bindingsAll stms) (Stm.lowerAll none stms)) :
    Introduces f.bindings (lowerMapKernel pat f inputs) := by
  unfold lowerMapKernel
  refine (introduces_width inputs _).next fun threads => .ask_bind fun ctx extraction hextract => ?_
  obtain ⟨pruned, blocks⟩ := extraction
  refine Introduces.mono ((introduces_hoist blocks threads).bind fun _ =>
    (Introduces.of_ask _).next fun base => .fresh base fun thread => ?_)
    (count_hoisted_le hextract)
  have hthread := introduces_lowerThread (pat.map Binder.destination) thread f.params
    (pruned.offsetBy (blocks.sliceOffsets thread)) inputs (h _)
  rw [bindingsAll_offsetBy] at hthread
  have hkernel := hthread.collect.onDevice.kernel thread threads (·.copyIn f inputs)
    (·.copyOut (pat.map Binder.destination))
  have hbind : Introduces [] (pat.forM bindBinder) := .forM_nil fun b _ => introduces_bindBinder b
  have hall := hkernel.before fun _ => hbind
  simp only [bind_assoc] at hall
  exact hall

/-! ## Statements -/

/-- The code of a map introduces what is bound in its lambda, and names that are drawn. -/
def MapsIntroduce (onMap : Option MapLowering) : Prop :=
  ∀ lowerMap ∈ onMap, ∀ pat f inputs,
    Introduces (pat.map Binder.name ++ f.bindings) (lowerMap pat f inputs)

mutual

/-- **The code of statements introduces what they bind**, and names that are drawn. -/
theorem introduces_lowerAll {onMap : Option MapLowering} (hmaps : MapsIntroduce onMap)
    (stms : List Stm) : Introduces (Stm.bindingsAll stms) (Stm.lowerAll onMap stms) := by
  match stms with
  | [] => exact .of_pure ()
  | stm :: stms => exact (introduces_lower hmaps stm).bind fun _ => introduces_lowerAll hmaps stms

theorem introduces_lower {onMap : Option MapLowering} (hmaps : MapsIntroduce onMap) (stm : Stm) :
    Introduces stm.bindings (stm.lower onMap) := by
  match stm with
  | ⟨pat, exp⟩ => exact introduces_lowerExp hmaps pat exp

theorem introduces_lowerExp {onMap : Option MapLowering} (hmaps : MapsIntroduce onMap)
    (pat : List Binder) (e : Exp) :
    Introduces (pat.map Binder.name ++ e.bindings) (Exp.lower onMap pat e) := by
  have hdeclare := introduces_declarePattern pat
  match e with
  | .operand a =>
    exact hdeclare.bind fun dests => (introduces_single dests).next fun d => introduces_assign d a
  | .apply op lhs rhs =>
    exact hdeclare.bind fun dests =>
      (introduces_singleScalar dests).next fun x => .of_emit (.set x _)
  | .index array indices =>
    exact hdeclare.bind fun dests => introduces_lowerIndex dests array indices
  | .update array indices value =>
    exact hdeclare.bind fun dests => introduces_lowerUpdate dests indices value
  | .alloc size space =>
    have halloc := introduces_lowerAlloc pat size space
    rwa [← List.append_nil (pat.map Binder.name)] at halloc
  | .scratch element shape => exact hdeclare.bind fun dests => .of_pure ()
  | .branch cond ⟨yes, yesResult⟩ ⟨no, noResult⟩ =>
    exact hdeclare.bind fun dests =>
      (introducesInto_lowerBranch (introduces_lowerAll hmaps yes)).branch
        (introducesInto_lowerBranch (introduces_lowerAll hmaps no)) _
  | .loop carried counter bound ⟨stms, result⟩ =>
    exact hdeclare.bind fun dests =>
      introduces_lowerLoop carried counter bound (introduces_lowerAll hmaps stms)
  | .map ⟨params, ⟨stms, result⟩, ret⟩ inputs =>
    match onMap, hmaps with
    | some lowerMap, hmaps => exact hmaps lowerMap rfl pat _ inputs
    | none, hmaps =>
      exact hdeclare.bind fun dests =>
        introduces_lowerMapLoop params inputs (introduces_lowerAll hmaps stms)

end

theorem mapsIntroduce_none : MapsIntroduce none := fun _ h => absurd h (Option.not_mem_none _)

theorem mapsIntroduce_kernels : MapsIntroduce (some lowerMapKernel) := by
  rintro _ ⟨⟩ pat f inputs
  refine (introduces_lowerMapKernel pat f inputs (introduces_lowerAll mapsIntroduce_none)).mono ?_
  intro x
  rw [List.count_append]
  exact Nat.le_add_left ..

end Lowering

end KernelGen
