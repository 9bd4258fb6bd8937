import KernelGen.Compile
import KernelGen.Proofs.Context.Spending
import KernelGen.Proofs.Lowering.Runs
import KernelGen.Proofs.Program.Drawn

/-! # What compilation draws

`Draws base vars bases x` says of one step of compilation which names it draws and which
it may bind, whether it succeeds or fails: from every context with settings for thread
indices of this base it draws fresh names with the first of the bases, in order, all of
them if it succeeds; and it binds only names from `vars` and names that it drew.

A step that fails in the middle has drawn a part of the names, and the part is a beginning
of the list.  That is what makes the rule for two steps in a row (`Draws.bind`) short: a
beginning of the first list, or all of it and then a beginning of the second. -/
namespace KernelGen.Lowering
variable {α β : Type} {base : String} {vars : List Name} {bases bases' : List String}

/-- The step draws names with these bases, up to a failure, and binds no others but `vars`. -/
def Draws (base : String) (vars : List Name) (bases : List String) (x : Lowering α) : Prop :=
  ∀ ctx, ctx.settings.threadIndexBase = base →
    ∃ drawn, drawn <+: bases ∧ Context.Spends vars drawn ctx (x.run ctx).ctx ∧
      ∀ a, (x.run ctx).outcome = .ok a → drawn = bases

namespace Draws

/-! ## Single steps -/

/-- A step that leaves the context alone. -/
theorem of_same {x : Lowering α} (h : ∀ ctx, (x.run ctx).ctx = ctx) : Draws base vars [] x :=
  fun ctx _ => ⟨[], List.nil_prefix, (h ctx).symm ▸ .refl, fun _ _ => rfl⟩

theorem of_pure (a : α) : Draws base vars [] (pure a) := of_same fun _ => rfl

theorem of_ask (q : Context → Except CompileError α) : Draws base vars [] (ask q) :=
  of_same fun _ => rfl

theorem of_emit (s : Stmt) : Draws base vars [] (emit s) := of_same fun _ => rfl

/-- A failure comes before everything that is still to be drawn. -/
theorem of_fail (e : CompileError) : Draws base vars bases (fail e : Lowering α) :=
  fun _ _ => ⟨[], List.nil_prefix, .refl, nofun⟩

theorem of_fault (f : Fault) : Draws base vars bases (fault f : Lowering α) := of_fail _

/-! ## Steps in a row -/

/-- Two steps in a row. -/
theorem bind {x : Lowering α} {f : α → Lowering β} (h : Draws base vars bases x)
    (hf : ∀ a, Draws base vars bases' (f a)) : Draws base vars (bases ++ bases') (x >>= f) := by
  intro ctx hbase
  obtain ⟨drawn, hdrawn, hspends, hall⟩ := h ctx hbase
  rcases hx : x.run ctx with ⟨e | a, emitted, mid⟩
  · rw [hx] at hspends
    rw [run_bind_of_error f hx]
    exact ⟨drawn, hdrawn.trans (List.prefix_append ..), hspends, nofun⟩
  · rw [hx] at hspends hall
    obtain rfl : drawn = bases := hall a rfl
    rw [run_bind_of_ok f hx]
    obtain ⟨rest, hrest, hspends', hall'⟩ := hf a mid (hspends.settings ▸ hbase)
    refine ⟨drawn ++ rest, (List.prefix_append_right_inj _).mpr hrest,
      hspends.trans hspends', fun b hb => ?_⟩
    rw [hall' b hb]

/-- A step that draws nothing, and one after it. -/
theorem next {x : Lowering α} {f : α → Lowering β} (h : Draws base vars [] x)
    (hf : ∀ a, Draws base vars bases (f a)) : Draws base vars bases (x >>= f) :=
  h.bind hf

/-- What is asked is known when the second step is looked at. -/
theorem ask_bind {q : Context → Except CompileError α} {f : α → Lowering β}
    (hf : ∀ ctx a, ctx.settings.threadIndexBase = base → q ctx = .ok a →
      Draws base vars bases (f a)) : Draws base vars bases (ask q >>= f) := by
  intro ctx hbase
  cases hq : q ctx with
  | error e =>
    rw [run_bind_of_error f (by rw [run_ask, hq])]
    exact ⟨[], List.nil_prefix, .refl, nofun⟩
  | ok a =>
    rw [run_bind_of_ok f (by rw [run_ask, hq])]
    exact hf ctx a hbase hq ctx hbase

/-- A drawn name may be bound. -/
theorem fresh {f : Name → Lowering β} (b : String)
    (hf : ∀ x, Draws base (x :: vars) bases (f x)) :
    Draws base vars (b :: bases) (Lowering.fresh b >>= f) := by
  intro ctx hbase
  rw [run_bind_of_ok f (run_fresh b ctx)]
  obtain ⟨drawn, hdrawn, hspends, hall⟩ := hf ⟨b, ctx.names.next⟩
    { ctx with names := ⟨ctx.names.next + 1⟩ } hbase
  refine ⟨b :: drawn, (List.prefix_cons_inj b).mpr hdrawn, hspends.draw, fun a ha => ?_⟩
  rw [hall a ha]

/-- A check in front of a step. -/
theorem guard {p : Prop} [Decidable p] {e : CompileError} {k : Unit → Lowering β}
    (h : Draws base vars bases (k ())) :
    Draws base vars bases (if p then fail e >>= k else k ()) := by
  split
  · exact of_fail e
  · exact h

theorem forM {f : α → Lowering Unit} (bs : α → List String) {as : List α}
    (h : ∀ a ∈ as, Draws base vars (bs a) (f a)) :
    Draws base vars (as.flatMap bs) (as.forM f) := by
  induction as with
  | nil => exact of_pure ()
  | cons a as ih =>
    rw [List.forall_mem_cons] at h
    rw [List.flatMap_cons]
    exact h.1.bind fun _ => ih h.2

theorem mapM {f : α → Lowering β} (bs : α → List String) {as : List α}
    (h : ∀ a ∈ as, Draws base vars (bs a) (f a)) :
    Draws base vars (as.flatMap bs) (as.mapM f) := by
  induction as with
  | nil => exact of_pure []
  | cons a as ih =>
    rw [List.forall_mem_cons] at h
    rw [List.mapM_cons, List.flatMap_cons]
    refine h.1.bind fun b => ?_
    have hlast : ∀ bs', Draws base vars [] (pure (b :: bs')) := fun bs' => of_pure _
    have hrest := (ih h.2).bind hlast
    rwa [List.append_nil] at hrest

theorem forM_nil {f : α → Lowering Unit} {as : List α} (h : ∀ a ∈ as, Draws base vars [] (f a)) :
    Draws base vars [] (as.forM f) := by
  have hall := forM (fun _ => []) h
  rwa [List.flatMap_eq_nil_iff.mpr fun _ _ => rfl] at hall

/-! ## Nested steps -/

theorem collect {x : Lowering Unit} (h : Draws base vars bases x) :
    Draws base vars bases (Lowering.collect x) := by
  intro ctx hbase
  obtain ⟨drawn, hdrawn, hspends, hall⟩ := h ctx hbase
  rcases hx : x.run ctx with ⟨e | ⟨⟩, emitted, last⟩
  · rw [hx] at hspends
    rw [run_collect_of_error hx]
    exact ⟨drawn, hdrawn, hspends, nofun⟩
  · rw [hx] at hspends hall
    rw [run_collect_of_ok hx]
    exact ⟨drawn, hdrawn, hspends, fun _ _ => hall () rfl⟩

/-- What is drawn on the device stays drawn. -/
theorem onDevice {x : Lowering α} (h : Draws base vars bases x) :
    Draws base vars bases (Lowering.onDevice x) := by
  intro ctx hbase
  obtain ⟨drawn, hdrawn, hspends, hall⟩ := h ctx.enterDevice hbase
  exact ⟨drawn, hdrawn, hspends.device, hall⟩

end Draws

/-! ## Moving values -/

theorem draws_bindScalar {x : Name} (ty : Ty) (hx : x ∈ vars) :
    Draws base vars [] (bindScalar x ty) :=
  fun _ _ => ⟨[], List.nil_prefix, .bind hx _, fun _ _ => rfl⟩

theorem draws_bindBinder {b : Binder} (hb : b.name ∈ vars) : Draws base vars [] (bindBinder b) := by
  intro ctx _
  rcases b with ⟨x, ty, _ | p⟩
  · by_cases hty : ty.isScalar
    · have hask : ctx.bindBinder ⟨x, ty, none⟩ = .ok (ctx.bindScalar x ty) := if_pos hty
      rw [bindBinder, run_bind_of_ok _ (by rw [run_ask, hask])]
      exact ⟨[], List.nil_prefix, .bind hb _, fun _ _ => rfl⟩
    · have hask : ctx.bindBinder ⟨x, ty, none⟩ = .error (.malformed (.unplaced x ty)) :=
        if_neg hty
      rw [bindBinder, run_bind_of_error _ (by rw [run_ask, hask])]
      exact ⟨[], List.nil_prefix, .refl, nofun⟩
  · exact ⟨[], List.nil_prefix, .bind hb _, fun _ _ => rfl⟩

theorem draws_allocate {block : Name} (size : Size) (space : Space) (hblock : block ∈ vars) :
    Draws base vars [] (allocate block size space) :=
  fun _ _ => ⟨[], List.nil_prefix, .bind hblock _, fun _ _ => rfl⟩

theorem draws_declare {b : Binder} (hb : b.name ∈ vars) : Draws base vars [] (declare b) := by
  unfold declare
  split
  · exact (Draws.of_emit _).next fun _ => draws_bindBinder hb
  · exact draws_bindBinder hb

theorem draws_declarePattern {pat : List Binder} (hpat : ∀ x ∈ pat.map Binder.name, x ∈ vars) :
    Draws base vars [] (declarePattern pat) := by
  have hdeclare : Draws base vars [] (pat.forM declare) :=
    .forM_nil fun b hb => draws_declare (hpat _ (List.mem_map_of_mem hb))
  exact hdeclare.next fun _ => .of_pure _

theorem draws_single (dests : List Destination) : Draws base vars [] (single dests) := by
  match dests with
  | [d] => exact .of_pure d
  | [] | _ :: _ :: _ => exact .of_fault _

theorem draws_singleScalar (dests : List Destination) :
    Draws base vars [] (singleScalar dests) := by
  refine (draws_single dests).next ?_
  rintro (x | ⟨p, ty⟩)
  · exact .of_pure x
  · exact .of_fault _

theorem draws_positions (indices : List Operand) : Draws base vars [] (positions indices) := by
  have hall : Draws base vars (indices.flatMap fun _ => []) (positions indices) := by
    refine .mapM _ fun a _ => ?_
    split
    · exact .of_pure _
    · exact .of_fault _
  rwa [List.flatMap_eq_nil_iff.mpr fun _ _ => rfl] at hall

theorem draws_assign (dest : Destination) (a : Operand) : Draws base vars [] (assign dest a) := by
  match dest, a with
  | .scalar x, a => exact .of_emit _
  | .array wanted _, .const c => exact .of_fault _
  | .array wanted _, .var x =>
    refine (Draws.of_ask _).next ?_
    rintro (ty | ⟨ty, home⟩ | ⟨size, space⟩)
    · exact .of_fault _
    · show Draws _ _ _ (if home = wanted then pure () else _)
      split
      · exact .of_pure ()
      · exact .of_fault _
    · exact .of_fault _

theorem draws_assignAll (dests : List Destination) (results : List Operand) :
    Draws base vars [] (assignAll dests results) :=
  .forM_nil fun q _ => draws_assign q.1 q.2

theorem draws_readElement (x : Name) (p : Placement) (indices : List Size) (element : Ty) :
    Draws base vars [] (readElement x p indices element) :=
  (Draws.of_ask _).next fun _ => .of_emit _

theorem draws_writeElement (p : Placement) (indices : List Size) (element : Ty) (a : Operand) :
    Draws base vars [] (writeElement p indices element a) :=
  (Draws.of_ask _).next fun _ => .of_emit _

theorem draws_readParam (i : Name) {param : Binder} (ty : Ty) (p : Placement)
    (hparam : param.name ∈ vars) : Draws base vars [] (readParam i param ty p) := by
  refine (Draws.of_ask _).next fun _ => (Draws.of_emit _).next fun _ => ?_
  exact (Draws.of_emit _).next fun _ => draws_bindScalar _ hparam

theorem draws_width (inputs : List Name) (flat : Name → Fault) :
    Draws base vars [] (width inputs flat) := by
  match inputs with
  | [] => exact .of_fault _
  | first :: _ =>
    refine (Draws.of_ask _).next ?_
    rintro (_ | ⟨extent, _⟩)
    · exact .of_fault _
    · exact .of_pure extent

end KernelGen.Lowering
