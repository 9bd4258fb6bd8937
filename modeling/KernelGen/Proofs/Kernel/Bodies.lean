import KernelGen.Proofs.Code.Launches
import KernelGen.Proofs.Course.Spaces
import KernelGen.Proofs.Lowering.Forms
import KernelGen.Proofs.Program.Avoiding

/-! # What a thread does not do

Inside a kernel there are no kernels and no blocks are made.  The code shows it
(`Launch.body_not_hostOnly`): on the device a course has neither.  The lambda shows it too
(`Launch.avoids_alloc`): compiling an allocation fails on the device, at any depth, so a
lambda that was compiled has none but those that were taken out in front.

And a thread never changes its own number (`Launch.threadIndex_not_assigned`), provided
that the names of its lambda were drawn before.  For this the code of a thread is followed
with a simulation that compares it with itself, as what is said of the two sides may say
something of one. -/
namespace KernelGen
open Lowering

/-! ## Neither kernels nor blocks -/

namespace Course
variable {kernels : Bool} {c c' : Context} {xs : List Name} {bs : List (Name × Space)}
  {code : Code}

/-- On the device no statement is a kernel or makes a block, at any depth. -/
theorem not_hostOnly (h : Course kernels c xs bs code c') (hkernels : kernels = false)
    (hc : c.onDevice = true) : ∀ s ∈ code.statements, ¬ s.HostOnly := by
  induction h with
  | nil | draw | bind => exact List.forall_mem_nil _
  | append h _ ih ih' =>
    rw [Code.statements, Code.gather_append, List.forall_mem_append]
    exact ⟨ih hkernels hc, ih' hkernels (h.evolves.onDevice.trans hc)⟩
  | @emit _ _ s hs =>
    cases s with
    | declareScalar | set | read | write => exact List.forall_mem_singleton.mpr id
    | declareBlock | allocate | branch | loop | kernel => exact absurd hs id
  | make hmake => exact absurd ((hmake hc).symm.trans hkernels) Bool.noConfusion
  | branch cond h _ ih ih' =>
    simp only [Code.gather, Stmt.gather, List.append_nil, List.singleton_append,
      List.forall_mem_cons, List.forall_mem_append]
    exact ⟨id, ih hkernels hc, ih' hkernels (h.evolves.onDevice.trans hc)⟩
  | loop counter bound _ ih =>
    simp only [Code.gather, Stmt.gather, List.append_nil, List.singleton_append,
      List.forall_mem_cons]
    exact ⟨id, ih hkernels hc⟩
  | kernel => exact absurd hkernels Bool.noConfusion

/-- Where there may be no kernels there are none. -/
theorem kernels_eq_nil (h : Course kernels c xs bs code c') (hkernels : kernels = false) :
    Code.kernels code = [] := by
  induction h with
  | nil | draw | bind | make => rfl
  | append _ _ ih ih' => rw [Code.kernels_append, ih hkernels, ih' hkernels, List.append_nil]
  | @emit _ _ s hs =>
    cases s with
    | declareScalar | set | read | write => rfl
    | declareBlock | allocate | branch | loop | kernel => exact absurd hs id
  | branch _ _ _ ih ih' =>
    rw [Code.kernels, Code.kernels, Stmt.kernels, ih hkernels, ih' hkernels]
    rfl
  | loop _ _ _ ih =>
    rw [Code.kernels, Code.kernels, Stmt.kernels, ih hkernels]
    rfl
  | kernel => exact absurd hkernels Bool.noConfusion

end Course

/-! ## No allocation is let pass -/

namespace Lowering
variable {α β : Type} {P Q : Prop}

/-- Wherever the step succeeds on the device, this holds. -/
def Ensures (P : Prop) (x : Lowering α) : Prop :=
  ∀ ⦃ctx a code last⦄, ctx.onDevice = true → x.run ctx = ⟨.ok a, code, last⟩ → P

namespace Ensures
variable {x : Lowering α}

theorem and (h : Ensures P x) (h' : Ensures Q x) : Ensures (P ∧ Q) x :=
  fun _ _ _ _ hctx hrun => ⟨h hctx hrun, h' hctx hrun⟩

theorem mono (h : Ensures P x) (hPQ : P → Q) : Ensures Q x :=
  fun _ _ _ _ hctx hrun => hPQ (h hctx hrun)

/-- The first of two steps succeeds with both. -/
theorem first {f : α → Lowering β} (h : Ensures P x) : Ensures P (x >>= f) := by
  intro ctx b code last hctx hrun
  obtain ⟨a, front, mid, rest, hx, -, -⟩ := run_bind_eq_ok.mp hrun
  exact h hctx hx

/-- And the second does, still on the device. -/
theorem second {f : α → Lowering β} (hx : ∀ ctx, (x.run ctx).ctx.onDevice = ctx.onDevice)
    (h : ∀ a, Ensures P (f a)) : Ensures P (x >>= f) := by
  intro ctx b code last hctx hrun
  obtain ⟨a, front, mid, rest, hfirst, hrest, -⟩ := run_bind_eq_ok.mp hrun
  have hmid := hx ctx
  rw [hfirst] at hmid
  exact h a (hmid.trans hctx) hrest

theorem guard {p : Prop} [Decidable p] {e : CompileError} {k : Unit → Lowering β}
    (h : Ensures P (k ())) : Ensures P (if p then fail e >>= k else k ()) :=
  fun _ _ _ _ hctx hrun => h hctx (run_guard_eq_ok.mp hrun).2

theorem collect {x : Lowering Unit} (h : Ensures P x) : Ensures P (Lowering.collect x) :=
  fun _ _ _ _ hctx hrun => h hctx (run_collect_eq_ok.mp hrun).1

end Ensures

theorem Follows.onDevice_eq {kernels : Bool} {vars made : List Name} {x : Lowering α}
    (h : Follows kernels vars made x) (ctx : Context) :
    (x.run ctx).ctx.onDevice = ctx.onDevice := by
  obtain ⟨xs, hevolves, -⟩ := h.evolvesWithin ctx
  exact hevolves.onDevice

theorem Collects.onDevice_eq {kernels : Bool} {vars made : List Name} {x : Lowering Code}
    (h : Collects kernels vars made x) (ctx : Context) :
    (x.run ctx).ctx.onDevice = ctx.onDevice := by
  obtain ⟨_, ⟨_, _, hcourse, -, -⟩, -⟩ := h ctx
  exact hcourse.evolves.onDevice

theorem ensures_lowerBranch {stms : Lowering Unit} (dests : List Destination)
    (result : List Operand) (h : Ensures P stms) : Ensures P (lowerBranch dests stms result) := by
  unfold lowerBranch
  exact .guard (.collect h.first)

theorem ensures_lowerLoop {stms : Lowering Unit} (dests : List Destination)
    (carried : List (Binder × Operand)) (counter : Name) (bound : Operand)
    (result : List Operand) (h : Ensures P stms) :
    Ensures P (lowerLoop dests carried counter bound stms result) := by
  have hstart : Follows false (carried.map (·.1.name)) [] (carried.forM startCarried) :=
    .forM_nil fun q hq => follows_startCarried (List.mem_map_of_mem hq)
  unfold lowerLoop
  refine .guard (.second hstart.onDevice_eq fun _ => ?_)
  exact .second (fun _ => rfl) fun _ => h.first.collect.first

theorem ensures_lowerMapLoop {stms : Lowering Unit} (dests : List Destination)
    (params : List Binder) (result : List Operand) (inputs : List Name) (h : Ensures P stms) :
    Ensures P (lowerMapLoop dests params stms result inputs) := by
  have hwidth : Follows false [] [] (width inputs .loopInputFlat) := follows_width inputs _
  refine .second hwidth.onDevice_eq fun count => .guard (.second (fun _ => rfl) fun i => ?_)
  have hread : Follows false (params.map Binder.name) []
      ((params.zip inputs).forM (readLoopParam i)) :=
    .forM_nil fun q hq => follows_readLoopParam i (List.mem_map_of_mem (List.of_mem_zip hq).1)
  exact .second (fun _ => rfl) fun _ =>
    .first (.collect (.second hread.onDevice_eq fun _ => h.first))

mutual

/-- **What was compiled on the device allocates nothing**, at any depth. -/
theorem ensures_lowerAll (stms : List Stm) :
    Ensures (Stm.AvoidsAll .alloc stms) (Stm.lowerAll none stms) := by
  match stms with
  | [] => exact fun _ _ _ _ _ _ => trivial
  | stm :: stms =>
    have hstm : Follows false stm.bindings stm.bindings (stm.lower none) :=
      follows_lower mapsFollow_none fun _ hx => hx
    exact (ensures_lower stm).first.and (.second hstm.onDevice_eq fun _ => ensures_lowerAll stms)

theorem ensures_lower (stm : Stm) : Ensures (stm.Avoids .alloc) (stm.lower none) := by
  match stm with
  | ⟨pat, exp⟩ => exact ensures_lowerExp pat exp

theorem ensures_lowerExp (pat : List Binder) (e : Exp) :
    Ensures (e.Avoids .alloc) (Exp.lower none pat e) := by
  have hdeclare : Follows false (pat.map Binder.name) [] (declarePattern pat) :=
    follows_declarePattern fun _ hx => hx
  match e with
  | .operand _ | .apply .. | .index .. | .update .. | .scratch .. =>
    exact fun _ _ _ _ _ _ => ⟨by simp [Exp.kind], trivial⟩
  | .alloc size space =>
    intro ctx a code last hctx hrun
    obtain ⟨e, he⟩ := lowerAlloc_fails pat size space hctx
    have hok : ((lowerAlloc pat size space).run ctx).outcome = .ok a := congrArg Run.outcome hrun
    rw [he] at hok
    cases hok
  | .branch cond ⟨yes, yesResult⟩ ⟨no, noResult⟩ =>
    refine .second hdeclare.onDevice_eq fun dests => ?_
    have hyes := ensures_lowerBranch dests yesResult (ensures_lowerAll yes)
    have hno := ensures_lowerBranch dests noResult (ensures_lowerAll no)
    have hstms : Follows false (Stm.bindingsAll yes) (Stm.bindingsAll yes)
        (Stm.lowerAll none yes) := follows_lowerAll mapsFollow_none fun _ hx => hx
    have hcollects := collects_lowerBranch dests yesResult hstms
    refine Ensures.mono (hyes.first.and (.second hcollects.onDevice_eq fun _ => hno.first)) ?_
    exact fun h => ⟨by simp [Exp.kind], h⟩
  | .loop carried counter bound ⟨stms, result⟩ =>
    refine .second hdeclare.onDevice_eq fun dests => ?_
    have hstms := ensures_lowerLoop dests carried counter bound result (ensures_lowerAll stms)
    exact hstms.mono fun h => ⟨by simp [Exp.kind], h⟩
  | .map ⟨params, ⟨stms, result⟩, ret⟩ inputs =>
    refine .second hdeclare.onDevice_eq fun dests => ?_
    have hstms := ensures_lowerMapLoop dests params result inputs (ensures_lowerAll stms)
    exact hstms.mono fun h => ⟨by simp [Exp.kind], h⟩

end

end Lowering

/-! ## The number of the thread -/

/-- The statement neither assigns nor binds the name, at any depth. -/
def Stmt.LeavesAlone (t : Name) (s : Stmt) : Prop := t ∉ s.gather Stmt.ownAssigned

/-- No statement assigns or binds the name. -/
def Code.LeaveAlone (t : Name) (code : Code) : Prop := ∀ s ∈ code, s.LeavesAlone t

theorem Code.leaveAlone_iff {t : Name} {code : Code} :
    code.LeaveAlone t ↔ t ∉ code.assigned := by
  rw [Code.assigned, Code.mem_gather_iff]
  constructor
  · rintro h ⟨s, hs, ht⟩
    exact h s hs ht
  · exact fun h s hs ht => h ⟨s, hs, ht⟩

/-- Said of one side of paired code. -/
theorem Code.LeaveAlone.of_pairs {t : Name} {code code' : Code}
    (h : List.Forall₂ (fun s _ => s.LeavesAlone t) code code') : code.LeaveAlone t := by
  intro s hs
  obtain ⟨_, -, hleaves⟩ := forall₂_mem_left h hs
  exact hleaves

namespace Stmt.LeavesAlone
variable {t x : Name} {yes no body : Code}

theorem of_own {s : Stmt} (hs : s.gather Stmt.ownAssigned = [x]) (hx : x ≠ t) :
    s.LeavesAlone t := by
  rw [LeavesAlone, hs, List.mem_singleton]
  exact Ne.symm hx

theorem branch (cond : Expr) (hyes : yes.LeaveAlone t) (hno : no.LeaveAlone t) :
    (Stmt.branch cond yes no).LeavesAlone t := by
  rw [Code.leaveAlone_iff] at hyes hno
  rw [LeavesAlone, gather, List.mem_append, List.mem_append]
  rintro (h | h | h)
  · cases h
  · exact hyes h
  · exact hno h

theorem loop (bound : Expr) (hx : x ≠ t) (hbody : body.LeaveAlone t) :
    (Stmt.loop x bound body).LeavesAlone t := by
  rw [Code.leaveAlone_iff] at hbody
  rw [LeavesAlone, gather, List.mem_append]
  rintro (h | h)
  · exact hx (List.mem_singleton.mp h).symm
  · exact hbody h

end Stmt.LeavesAlone

/-- The code is compiled on the device, and names drawn from now on differ from `t`. -/
def Context.Past (t : Name) (c : Context) : Prop := t.tag < c.names.next ∧ c.onDevice = true

/-- A compilation on the device beside itself, by a program that does not bind `t`: no
statement that is emitted assigns it. -/
def besideItself (t : Name) : Simulation where
  context c c' := c' = c ∧ c.Past t
  stmt s _ := s.LeavesAlone t
  strict := False
  roles := .ofNames (fun _ => True) (· ≠ t) fun _ => True
  move p := p
  move_block _ := rfl
  move_shape _ := rfl
  move_injective _ _ h := h
  names_eq h := by rw [h.1]
  fresh_bound base h := by
    rintro rfl
    exact absurd h.2.1 (Nat.lt_irrefl _)
  fresh_scalar _ _ := .inl trivial
  draw h := by
    obtain ⟨rfl, htag, hdevice⟩ := h
    exact ⟨rfl, Nat.lt_succ_of_lt htag, hdevice⟩
  bind_scalar ty _ h := by
    obtain ⟨rfl, hpast⟩ := h
    exact ⟨rfl, hpast⟩
  bind_array ty _ _ h := by
    obtain ⟨rfl, hpast⟩ := h
    exact ⟨rfl, hpast⟩
  entry {c c' x} h _ := by
    obtain ⟨rfl, -⟩ := h
    rcases c'.vars.get? x with _ | (ty | ⟨ty, p⟩ | ⟨size, space⟩)
    · exact .none
    · exact .some .scalar
    · exact .some (.array ⟨trivial, fun _ _ => trivial⟩)
    · exact .some .block
  extent _ _ _ _ _ _ _ := .inl trivial
  space {c c' p} h _ := by
    obtain ⟨rfl, -⟩ := h
    cases c'.blockSpace p.block with
    | error e => exact False.elim
    | ok s =>
      refine ⟨s, rfl, fun indices ty _ => ⟨fun x hx => ?_, fun a _ => List.not_mem_nil⟩⟩
      exact .of_own rfl hx
  alloc space _ _ := Pairing.tracks_of_fails id fun _ _ h => lowerAlloc_fails _ _ _ h.2.2
  declare_stmt ty hx := .of_own rfl hx
  set_stmt hx _ := .of_own rfl hx
  apply_stmt op hx _ _ := .of_own rfl hx
  branch_stmt _ hyes hno := .branch _ (.of_pairs hyes) (.of_pairs hno)
  loop_stmt hx _ hbody := .loop _ hx (.of_pairs hbody)
  map_stmt hx _ hbody := .loop _ hx (.of_pairs hbody)

section
variable {t : Name}

/-- Statements that do not bind `t` are compiled to code that does not assign it. -/
theorem emits_lowerAll_past {stms : List Stm} (h : ∀ x ∈ Stm.bindingsAll stms, x ≠ t) :
    Emits (·.Past t) (Stm.lowerAll none stms) fun _ code => code.LeaveAlone t := by
  intro ctx a code last hctx hrun
  have hrespects : Stm.RespectsAll (besideItself t).roles stms :=
    Stm.respectsAll_ofNames (fun _ _ => trivial) h fun _ _ => trivial
  have hsteps := (besideItself t).lowerAll .loops hrespects
  have hboth := hsteps ⟨rfl, hctx⟩
  rw [hrun] at hboth
  obtain ⟨_, -, -, hcode, hlast⟩ := hboth
  rw [show (besideItself t).move = id from rfl, Stm.rewriteAll_id, hrun] at hcode hlast
  exact ⟨hlast.2, .of_pairs hcode⟩

/-- Steps in a row, none of which assigns `t`. -/
theorem emits_forM_past {α : Type} {f : α → Lowering Unit} {as : List α}
    (h : ∀ a ∈ as, Emits (·.Past t) (f a) fun _ code => code.LeaveAlone t) :
    Emits (·.Past t) (as.forM f) fun _ code => code.LeaveAlone t := by
  refine Emits.of_forM (M := fun _ part => part.LeaveAlone t)
    (P := fun _ code => code.LeaveAlone t) (List.forall_mem_nil _) ?_ h
  exact fun _ _ _ _ hpart hrest => List.forall_mem_append.mpr ⟨hpart, hrest⟩

theorem emits_readThreadParam_past (thread : Name) {q : Binder × Name} (hq : q.1.name ≠ t) :
    Emits (·.Past t) (readThreadParam thread q) fun _ code => code.LeaveAlone t := by
  rcases q with ⟨param, input⟩
  refine (Emits.of_ask (Q := fun _ code => code = []) fun _ _ _ _ => rfl).bind ?_
  rintro ⟨ty, p⟩ _ rfl
  refine .guard fun _ => ?_
  refine (Emits.of_ask (Q := fun _ code => code = []) fun _ _ _ _ => rfl).bind ?_
  rintro space _ rfl
  refine (Emits.of_emit (Q := fun _ code => code = [.declareScalar param.name param.ty])
    rfl).bind ?_
  rintro ⟨⟩ _ rfl
  refine (Emits.of_emit (Q := fun _ code => code.LeaveAlone t)
    (List.forall_mem_singleton.mpr (.of_own rfl hq))).bind fun _ read hread => ?_
  refine .of_change (fun _ h => h) ?_
  rw [List.append_nil]
  exact List.forall_mem_cons.mpr ⟨.of_own rfl hq, hread⟩

theorem emits_writeThreadResult_past (thread : Name) (q : Destination × Operand) :
    Emits (·.Past t) (writeThreadResult thread q) fun _ code => code.LeaveAlone t := by
  intro ctx a code last hctx hrun
  obtain ⟨rfl, s, rfl, p, ty, space, -, -, rfl⟩ := writeThreadResult_eq_ok hrun
  exact ⟨hctx, List.forall_mem_singleton.mpr List.not_mem_nil⟩

/-- The code of a thread assigns only what its parameters and its body bind, and what is
drawn on the way. -/
theorem emits_lowerThread_past {thread : Name} {params : List Binder} {body : Body}
    (inputs : List Name) (dests : List Destination) (hparams : ∀ b ∈ params, b.name ≠ t)
    (hbody : ∀ x ∈ Stm.bindingsAll body.stms, x ≠ t) :
    Emits (·.Past t) (lowerThread thread params body inputs dests)
      fun _ code => code.LeaveAlone t := by
  unfold lowerThread
  refine .guard fun _ => .guard fun _ => ?_
  have hthread : Emits (·.Past t) (bindScalar thread .i64) fun _ code => code = [] :=
    .of_change (fun _ h => h) rfl
  refine hthread.bind ?_
  rintro ⟨⟩ _ rfl
  simp only [List.nil_append]
  refine (emits_forM_past fun q hq => emits_readThreadParam_past thread
    (hparams _ (List.of_mem_zip hq).1)).bind fun _ reads hreads => ?_
  refine (emits_lowerAll_past hbody).bind fun _ code hcode => ?_
  refine (emits_forM_past fun q _ => emits_writeThreadResult_past thread q).mono ?_
  intro _ writes hwrites
  exact List.forall_mem_append.mpr ⟨hreads, List.forall_mem_append.mpr ⟨hcode, hwrites⟩⟩

end

/-! ## Launches -/

namespace Launch
variable {pat : List Binder} {f : Lambda} {inputs : List Name} {ctx start inner : Context}
  {front : Code} {k : Kernel} {pruned : Body} {hoisted : BlockSizes}
  (launch : Launch pat f inputs ctx front k pruned hoisted start inner)
include launch

/-- **There is no kernel in a kernel, and no block is made in one.** -/
theorem body_not_hostOnly : ∀ s ∈ Code.statements k.body, ¬ s.HostOnly := by
  have hrun := launch.body
  generalize pruned.offsetBy (hoisted.sliceOffsets k.threadIndex) = body at hrun
  have hfollows : Follows false
      (k.threadIndex :: (f.params.map Binder.name ++ Stm.bindingsAll body.stms))
      (Stm.bindingsAll body.stms) (lowerThread k.threadIndex f.params body inputs
        (pat.map Binder.destination)) := by
    refine follows_lowerThread inputs _ (List.mem_cons_self ..) (fun b hb => ?_) fun x hx => ?_
    · exact List.mem_cons_of_mem _ (List.mem_append_left _ (List.mem_map_of_mem hb))
    · exact List.mem_cons_of_mem _ (List.mem_append_right _ hx)
  obtain ⟨code, ⟨_, _, hcourse, -, -⟩, hcode⟩ := hfollows start.launched.enterDevice
  rw [hrun] at hcourse hcode
  obtain rfl : k.body = code := hcode () rfl
  exact hcourse.not_hostOnly rfl rfl

/-- **No allocation of the lambda was let pass**: each of its statements is an allocation that
was taken out, or has none at any depth. -/
theorem avoids_alloc :
    ∀ stm ∈ f.body.stms, stm.allocation?.isSome = true ∨ stm.Avoids .alloc := by
  obtain ⟨rfl, -, -⟩ := Lambda.extract_eq_ok launch.extract
  obtain ⟨-, -, hrun⟩ := lowerThread_eq_ok launch.body
  obtain ⟨⟨⟩, _, mid, _, hreads, hrest, -⟩ := run_bind_eq_ok.mp hrun
  obtain ⟨⟨⟩, _, _, _, hstms, -, -⟩ := run_bind_eq_ok.mp hrest
  have hfollows : Follows false (f.params.map Binder.name) []
      ((f.params.zip inputs).forM (readThreadParam k.threadIndex)) := .forM_nil fun q hq =>
    follows_readThreadParam _ (List.mem_map_of_mem (List.of_mem_zip hq).1)
  have hdevice := hfollows.onDevice_eq (start.threadHome k.threadIndex)
  rw [Context.threadHome, hreads] at hdevice
  have havoids := ensures_lowerAll _ (hdevice.trans rfl) hstms
  rcases f with ⟨params, ⟨stms, result⟩, ret⟩
  have hpruned : Stm.AvoidsAll .alloc (stms.filter (·.allocation?.isNone)) :=
    (Stm.avoidsAll_rewrite _ _ _ _).mp havoids
  intro stm hstm
  cases ha : stm.allocation? with
  | some a => exact .inl rfl
  | none =>
    refine .inr (Stm.avoidsAll_iff.mp hpruned stm (List.mem_filter.mpr ⟨hstm, ?_⟩))
    rw [ha]
    rfl

/-- **A thread keeps its number**, if the names of the lambda were drawn before. -/
theorem threadIndex_not_assigned (hf : ∀ x ∈ f.bindings, x.tag < ctx.names.next) :
    k.threadIndex ∉ Code.assigned k.body := by
  have hne : ∀ x ∈ f.bindings, x ≠ k.threadIndex := by
    rintro x hx rfl
    have hlt := hf _ hx
    rw [launch.tag_thread] at hlt
    exact absurd hlt (Nat.lt_irrefl _)
  have hparams : ∀ b ∈ f.params, b.name ≠ k.threadIndex := by
    rcases f with ⟨params, body, ret⟩
    exact fun b hb => hne _ (List.mem_append.mpr (.inl (List.mem_map_of_mem hb)))
  have hbody : f.body.bindings.Sublist f.bindings := by
    rcases f with ⟨params, body, ret⟩
    exact List.sublist_append_right ..
  have hsliced := Lambda.bindingsAll_sliced_sublist launch.extract
    (hoisted.sliceOffsets k.threadIndex)
  have hpast : start.launched.enterDevice.Past k.threadIndex := by
    refine ⟨?_, rfl⟩
    rw [launch.thread]
    exact Nat.lt_succ_self _
  have hemits := emits_lowerThread_past inputs (pat.map Binder.destination) hparams
    (fun x hx => hne x (hbody.subset (hsliced.subset hx))) hpast launch.body
  exact Code.leaveAlone_iff.mp hemits.2

end Launch

end KernelGen
