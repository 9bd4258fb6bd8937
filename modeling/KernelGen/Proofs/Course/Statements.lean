import KernelGen.Program.Names
import KernelGen.Proofs.Course.Basic

/-! # The course of statements

Every part from which statements are compiled has one lemma here, and `follows_lowerAll`
puts them together along the program: compiling statements binds names that the statements
bind, or that it drew itself, and makes blocks under names that the statements bind, each
of them at most once if these are pairwise different.

What becomes of maps is left open; whoever chooses it shows that a map follows a course
too (`MapsFollow`). -/
namespace KernelGen.Lowering
variable {kernels : Bool} {vars made made' : List Name}

/-! ## Moving values -/

theorem follows_declareScalar (x : Name) (ty : Ty) :
    Follows kernels vars made (emit (.declareScalar x ty)) :=
  .of_emit fun _ => trivial

theorem follows_set (x : Name) (e : Expr) : Follows kernels vars made (emit (.set x e)) :=
  .of_emit fun _ => trivial

theorem follows_bindScalar {x : Name} (ty : Ty) (hx : x ∈ vars) :
    Follows kernels vars made (bindScalar x ty) :=
  fun _ => ⟨[], .of_bind hx nofun, fun _ _ => rfl⟩

theorem follows_bindBinder {b : Binder} (hb : b.name ∈ vars) :
    Follows kernels vars made (bindBinder b) := by
  rcases b with ⟨x, ty, _ | p⟩
  · intro ctx
    by_cases hty : ty.isScalar
    · have hask : ctx.bindBinder ⟨x, ty, none⟩ = .ok (ctx.bindScalar x ty) := if_pos hty
      rw [bindBinder, run_bind_of_ok _ (by rw [run_ask, hask])]
      exact ⟨[], .of_bind hb nofun, fun _ _ => rfl⟩
    · have hask : ctx.bindBinder ⟨x, ty, none⟩ = .error (.malformed (.unplaced x ty)) :=
        if_neg hty
      rw [bindBinder, run_bind_of_error _ (by rw [run_ask, hask])]
      exact ⟨[], .nil, nofun⟩
  · exact fun ctx => ⟨[], .of_bind hb nofun, fun _ _ => rfl⟩

theorem follows_declare {b : Binder} (hb : b.name ∈ vars) :
    Follows kernels vars made (declare b) := by
  unfold declare
  split
  · exact (follows_declareScalar _ _).next fun _ => follows_bindBinder hb
  · exact follows_bindBinder hb

theorem follows_declarePattern {pat : List Binder} (hpat : ∀ x ∈ pat.map Binder.name, x ∈ vars) :
    Follows kernels vars made (declarePattern pat) := by
  have hdeclare : Follows kernels vars [] (pat.forM declare) :=
    .forM_nil fun b hb => follows_declare (hpat _ (List.mem_map_of_mem hb))
  exact hdeclare.next fun _ => .of_pure _

theorem follows_single (dests : List Destination) : Follows kernels vars made (single dests) := by
  match dests with
  | [d] => exact .of_pure d
  | [] | _ :: _ :: _ => exact .of_fault _

theorem follows_singleScalar (dests : List Destination) :
    Follows kernels vars made (singleScalar dests) := by
  refine (follows_single dests).next ?_
  rintro (x | ⟨p, ty⟩)
  · exact .of_pure x
  · exact .of_fault _

theorem follows_positions (indices : List Operand) :
    Follows kernels vars made (positions indices) := by
  have hall : Follows kernels vars [] (positions indices) := by
    refine .mapM fun a _ => ?_
    split
    · exact .of_pure _
    · exact .of_fault _
  exact hall.mono (List.nil_sublist _)

theorem follows_assign (dest : Destination) (a : Operand) :
    Follows kernels vars made (assign dest a) := by
  match dest, a with
  | .scalar x, a => exact follows_set x _
  | .array wanted _, .const c => exact .of_fault _
  | .array wanted _, .var x =>
    refine (Follows.of_ask _).next ?_
    rintro (ty | ⟨ty, home⟩ | ⟨size, space⟩)
    · exact .of_fault _
    · show Follows _ _ _ (if home = wanted then pure () else _)
      split
      · exact .of_pure ()
      · exact .of_fault _
    · exact .of_fault _

theorem follows_assignAll (dests : List Destination) (results : List Operand) :
    Follows kernels vars made (assignAll dests results) := by
  have hall : Follows kernels vars [] (assignAll dests results) :=
    .forM_nil fun q _ => follows_assign q.1 q.2
  exact hall.mono (List.nil_sublist _)

/-- Asking for the space of a block, and doing something with it where it is the space of
the block. -/
theorem follows_blockSpace {α : Type} {block : Name} {f : Space → Lowering α}
    (hf : ∀ ctx space, ctx.blockSpace block = .ok space →
      ∃ code, Passes kernels vars made ctx code ((f space).run ctx).ctx ∧
        ∀ a, ((f space).run ctx).outcome = .ok a → ((f space).run ctx).emitted = code) :
    Follows kernels vars made (ask (·.blockSpace block) >>= f) := by
  intro ctx
  cases hspace : ctx.blockSpace block with
  | error e =>
    rw [run_bind_of_error f (by rw [run_ask, hspace])]
    exact ⟨[], .nil, nofun⟩
  | ok space =>
    rw [run_bind_of_ok f (by rw [run_ask, hspace])]
    exact hf ctx space hspace

theorem follows_readElement (x : Name) (p : Placement) (indices : List Size) (element : Ty) :
    Follows kernels vars made (readElement x p indices element) := by
  refine follows_blockSpace fun ctx space hspace => ⟨_, ?_, fun _ _ => rfl⟩
  exact .of_emit (s := .read x p.block (p.layout.position indices) element space) hspace

theorem follows_writeElement (p : Placement) (indices : List Size) (element : Ty) (a : Operand) :
    Follows kernels vars made (writeElement p indices element a) := by
  refine follows_blockSpace fun ctx space hspace => ⟨_, ?_, fun _ _ => rfl⟩
  exact .of_emit (s := .write p.block (p.layout.position indices) element space (.ofOperand a))
    hspace

theorem follows_readParam (i : Name) {param : Binder} (ty : Ty) (p : Placement)
    (hparam : param.name ∈ vars) : Follows kernels vars made (readParam i param ty p) := by
  refine follows_blockSpace fun ctx space hspace => ?_
  have hdeclare : Passes kernels vars [] ctx [.declareScalar param.name param.ty] ctx :=
    .of_emit trivial
  have hread : Passes kernels vars [] ctx
      [.read param.name p.block (p.layout.position [.var i]) ty.element space] ctx :=
    .of_emit hspace
  exact ⟨_, (hdeclare.append hread).append (.of_bind hparam nofun), fun _ _ => rfl⟩

theorem follows_width (inputs : List Name) (flat : Name → Fault) :
    Follows kernels vars made (width inputs flat) := by
  match inputs with
  | [] => exact .of_fault _
  | first :: _ =>
    refine (Follows.of_ask _).next ?_
    rintro (_ | ⟨extent, _⟩)
    · exact .of_fault _
    · exact .of_pure extent

/-! ## The forms of expressions -/

/-- An allocation makes its block where it is allowed. -/
theorem follows_lowerAlloc {pat : List Binder} (size : Size) (space : Space)
    (hpat : ∀ x ∈ pat.map Binder.name, x ∈ vars) :
    Follows kernels vars (pat.map Binder.name) (lowerAlloc pat size space) := by
  match pat with
  | [] | _ :: _ :: _ => exact .of_fault _
  | [b] =>
    by_cases hty : b.ty.isMem = true
    · intro ctx
      simp only [lowerAlloc, hty, if_true]
      have hask : (ask (pure ·.onDevice)).run ctx = ⟨.ok ctx.onDevice, [], ctx⟩ := rfl
      rw [run_bind_of_ok _ hask]
      cases hdevice : ctx.onDevice with
      | true =>
        refine ⟨[], .nil, fun _ h => ?_⟩
        cases h
      | false =>
        have hmake : ctx.onDevice = true → kernels = true := fun h => by simp [hdevice] at h
        refine ⟨_, ⟨[b.name], [(b.name, space)], .make hmake b.name size space, ?_,
          List.Sublist.refl _⟩, fun _ _ => rfl⟩
        exact fun x hx => .inl (hpat x hx)
    · simp only [lowerAlloc, hty]
      exact .of_fault _

theorem follows_lowerIndex (dests : List Destination) (array : Name) (indices : List Operand) :
    Follows kernels vars made (lowerIndex dests array indices) := by
  refine (follows_singleScalar dests).next fun x => (Follows.of_ask _).next ?_
  rintro ⟨ty, p⟩
  exact .guard ((follows_positions indices).next fun is => follows_readElement x p is _)

theorem follows_lowerUpdate (dests : List Destination) (indices : List Operand) (value : Operand) :
    Follows kernels vars made (lowerUpdate dests indices value) := by
  refine (follows_single dests).next ?_
  rintro (x | ⟨p, ty⟩)
  · exact .of_fault _
  · exact (follows_positions indices).next fun is => follows_writeElement p is ty value

/-- A branch makes what its statements make. -/
theorem collects_lowerBranch {stms : Lowering Unit} (dests : List Destination)
    (result : List Operand) (hstms : Follows kernels vars made stms) :
    Collects kernels vars made (lowerBranch dests stms result) := by
  refine .guard (Follows.collect ?_)
  have hassign : Follows kernels vars [] (assignAll dests result) := follows_assignAll dests result
  have hboth := hstms.bind fun _ => hassign
  rwa [List.append_nil] at hboth

theorem follows_startCarried {q : Binder × Operand} (hq : q.1.name ∈ vars) :
    Follows kernels vars made (startCarried q) :=
  ((follows_declare hq).next fun _ => follows_assign q.1.destination q.2)

/-- What is put aside is bound under a new name. -/
theorem follows_stageCarried (b : Binder) (result : Operand) :
    Follows kernels vars made (stageCarried b result) := by
  rcases b with ⟨x, ty, _ | p⟩
  · refine Follows.fresh _ fun aside => ?_
    refine (follows_declareScalar aside ty).next fun _ => (follows_set aside _).next fun _ => ?_
    exact (follows_bindScalar ty (List.mem_cons_self ..)).next fun _ => .of_pure _
  · exact .of_pure result

theorem follows_stageAll (pairs : List (Binder × Operand)) :
    Follows kernels vars [] (pairs.mapM fun (b, a) => stageCarried b a) :=
  .mapM fun q _ => follows_stageCarried q.1 q.2

theorem follows_lowerLoop {stms : Lowering Unit} (dests : List Destination)
    {carried : List (Binder × Operand)} {counter : Name} (bound : Operand) (result : List Operand)
    (hcarried : ∀ q ∈ carried, q.1.name ∈ vars) (hcounter : counter ∈ vars)
    (hstms : Follows kernels vars made stms) :
    Follows kernels vars made (lowerLoop dests carried counter bound stms result) := by
  refine .guard ?_
  have hstart : Follows kernels vars [] (carried.forM startCarried) :=
    .forM_nil fun q hq => follows_startCarried (hcarried q hq)
  refine hstart.next fun _ => (follows_bindScalar _ hcounter).next fun _ => ?_
  have hassign : ∀ staged, Follows kernels vars []
      (assignAll ((carried.map Prod.fst).map Binder.destination) staged) :=
    fun staged => follows_assignAll _ staged
  have hbody := hstms.bind fun _ =>
    (follows_stageAll ((carried.map Prod.fst).zip result)).next hassign
  rw [List.append_nil] at hbody
  have hloop := hbody.collect.loop counter (.ofOperand bound)
  have hlast : Follows kernels vars []
      (assignAll dests ((carried.map Prod.fst).map (.var ·.name))) := follows_assignAll dests _
  have hall := hloop.bind fun _ => hlast
  rw [List.append_nil, bind_assoc] at hall
  exact hall

/-! ## Maps -/

theorem follows_readLoopParam (i : Name) {q : Binder × Name} (hq : q.1.name ∈ vars) :
    Follows kernels vars made (readLoopParam i q) := by
  refine (Follows.of_ask _).next ?_
  rintro ⟨ty, p⟩
  exact .guard (follows_readParam i ty p hq)

theorem follows_writeLoopResult (i : Name) (q : Destination × Operand) :
    Follows kernels vars made (writeLoopResult i q) := by
  rcases q with ⟨x | ⟨p, ty⟩, a⟩
  · exact .of_fault _
  · exact follows_writeElement p _ ty a

theorem follows_lowerMapLoop {stms : Lowering Unit} (dests : List Destination)
    {params : List Binder} (result : List Operand) (inputs : List Name)
    (hparams : ∀ b ∈ params, b.name ∈ vars) (hstms : Follows kernels vars made stms) :
    Follows kernels vars made (lowerMapLoop dests params stms result inputs) := by
  refine (follows_width inputs _).next fun count => .guard (Follows.fresh "i" fun i => ?_)
  refine (follows_bindScalar _ (List.mem_cons_self ..)).next fun _ => ?_
  refine Collects.loop (Follows.collect ?_) i (.ofSize count)
  have hread : Follows kernels (i :: vars) [] ((params.zip inputs).forM (readLoopParam i)) :=
    .forM_nil fun q hq =>
      follows_readLoopParam i (List.mem_cons_of_mem _ (hparams _ (List.of_mem_zip hq).1))
  have hwrite : Follows kernels (i :: vars) [] ((dests.zip result).forM (writeLoopResult i)) :=
    .forM_nil fun q _ => follows_writeLoopResult i q
  have hall := hread.next fun _ => (hstms.weaken i).bind fun _ => hwrite
  rwa [List.append_nil] at hall

/-! ## Programs -/

/-- What is chosen for maps follows a course, with the names bound by the statement of the
map. -/
def MapsFollow (kernels : Bool) (onMap : Option MapLowering) : Prop :=
  ∀ m ∈ onMap, ∀ {vars : List Name} {pat : List Binder} {f : Lambda} (inputs : List Name),
    (∀ x ∈ Stm.bindings ⟨pat, .map f inputs⟩, x ∈ vars) →
      Follows kernels vars (Stm.bindings ⟨pat, .map f inputs⟩) (m pat f inputs)

theorem mapsFollow_none : MapsFollow kernels none := nofun

mutual

/-- **Compiling statements** binds names that they bind or that were drawn, and makes blocks
under names that they bind. -/
theorem follows_lowerAll {onMap : Option MapLowering} (hm : MapsFollow kernels onMap)
    {stms : List Stm} (hvars : ∀ x ∈ Stm.bindingsAll stms, x ∈ vars) :
    Follows kernels vars (Stm.bindingsAll stms) (Stm.lowerAll onMap stms) := by
  match stms with
  | [] => exact .of_pure ()
  | stm :: stms =>
    rw [Stm.bindingsAll, List.forall_mem_append] at hvars
    exact (follows_lower hm hvars.1).bind fun _ => follows_lowerAll hm hvars.2

theorem follows_lower {onMap : Option MapLowering} (hm : MapsFollow kernels onMap) {stm : Stm}
    (hvars : ∀ x ∈ stm.bindings, x ∈ vars) :
    Follows kernels vars stm.bindings (stm.lower onMap) := by
  match stm with
  | ⟨pat, exp⟩ =>
    obtain ⟨hpat, hexp⟩ := List.forall_mem_append.mp hvars
    rcases lowerExp_cases hm hexp with
      ⟨f, hlower, hf⟩ | ⟨size, space, rfl⟩ | ⟨m, g, inputs, rfl, rfl⟩
    · have hdeclare : Follows kernels vars [] (declarePattern pat) := follows_declarePattern hpat
      rw [Stm.lower, hlower]
      exact (hdeclare.next hf).mono (List.sublist_append_right ..)
    · exact (follows_lowerAlloc size space hpat).mono (List.sublist_append_left ..)
    · rcases g with ⟨params, ⟨stms, result⟩, ret⟩
      exact hm m rfl inputs hvars

/-- An expression first declares its pattern, and then binds names that it binds itself,
unless it is an allocation or a map for which something was chosen. -/
theorem lowerExp_cases {onMap : Option MapLowering} (hm : MapsFollow kernels onMap)
    {pat : List Binder} {e : Exp} (hvars : ∀ x ∈ e.bindings, x ∈ vars) :
    (∃ f, Exp.lower onMap pat e = (declarePattern pat >>= f) ∧
      ∀ dests, Follows kernels vars e.bindings (f dests)) ∨
    (∃ size space, e = .alloc size space) ∨
    ∃ m f inputs, onMap = some m ∧ e = .map f inputs := by
  match e with
  | .operand a =>
    exact .inl ⟨_, rfl, fun dests => (follows_single dests).next fun d => follows_assign d a⟩
  | .apply op lhs rhs =>
    exact .inl ⟨_, rfl, fun dests => (follows_singleScalar dests).next fun x => follows_set x _⟩
  | .index array indices => exact .inl ⟨_, rfl, fun dests => follows_lowerIndex dests array indices⟩
  | .update array indices value =>
    exact .inl ⟨_, rfl, fun dests => follows_lowerUpdate dests indices value⟩
  | .alloc size space => exact .inr (.inl ⟨size, space, rfl⟩)
  | .scratch element shape => exact .inl ⟨_, rfl, fun _ => .of_pure ()⟩
  | .branch cond ⟨yes, yesResult⟩ ⟨no, noResult⟩ =>
    obtain ⟨hyes, hno⟩ := List.forall_mem_append.mp hvars
    refine .inl ⟨_, rfl, fun dests => ?_⟩
    exact (collects_lowerBranch dests yesResult (follows_lowerAll hm hyes)).branch
      (collects_lowerBranch dests noResult (follows_lowerAll hm hno)) _
  | .loop carried counter bound ⟨stms, result⟩ =>
    rw [Exp.bindings, List.forall_mem_append, List.forall_mem_cons, List.forall_mem_map] at hvars
    obtain ⟨hcarried, hcounter, hstms⟩ := hvars
    refine .inl ⟨_, rfl, fun dests => ?_⟩
    have hloop := follows_lowerLoop dests bound result hcarried hcounter (follows_lowerAll hm hstms)
    exact hloop.mono ((List.sublist_cons_self ..).trans (List.sublist_append_right ..))
  | .map ⟨params, ⟨stms, result⟩, ret⟩ inputs =>
    match onMap with
    | some m => exact .inr (.inr ⟨m, _, inputs, rfl, rfl⟩)
    | none =>
      rw [Exp.bindings, Lambda.bindings, List.forall_mem_append, List.forall_mem_map] at hvars
      refine .inl ⟨_, rfl, fun dests => ?_⟩
      have hloop := follows_lowerMapLoop dests result inputs hvars.1 (follows_lowerAll hm hvars.2)
      exact hloop.mono (List.sublist_append_right ..)

end

/-- Statements whose maps become loops bind what they bind themselves. -/
theorem follows_lowerAll_none (stms : List Stm) :
    Follows true (Stm.bindingsAll stms) (Stm.bindingsAll stms) (Stm.lowerAll none stms) :=
  follows_lowerAll mapsFollow_none fun _ hx => hx

end KernelGen.Lowering
