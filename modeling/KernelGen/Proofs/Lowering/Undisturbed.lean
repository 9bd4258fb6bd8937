import KernelGen.Proofs.Lowering.Draws
import KernelGen.Proofs.Kernel.Hoisting

/-! # Compilation disturbs nothing

Compiling statements draws the names of `Stm.drawnAll`, in order, or a beginning of them if
it fails, and binds only those and what the statements bind themselves
(`draws_lowerLoops`, `draws_lowerKernels`).  So whatever else was known before is known
afterwards, however far the compilation came and however many kernels it went through on
the way: each name keeps its entry and its place, the device flag is as it was, and the
code that was there stands in front of what was added (`Undisturbed`). -/
namespace KernelGen
namespace Lowering
variable {base : String} {vars : List Name} {bases bases' : List String}

/-! ## The forms of expressions -/

theorem draws_lowerAlloc {pat : List Binder} (size : Size) (space : Space)
    (hpat : ∀ x ∈ pat.map Binder.name, x ∈ vars) :
    Draws base vars [] (lowerAlloc pat size space) := by
  match pat with
  | [] | _ :: _ :: _ => exact .of_fault _
  | [b] =>
    by_cases hty : b.ty.isMem = true
    · simp only [lowerAlloc, hty, if_true]
      refine (Draws.of_ask _).next fun device => ?_
      exact .guard (draws_allocate size space (hpat _ (List.mem_cons_self ..)))
    · simp only [lowerAlloc, hty]
      exact .of_fault _

theorem draws_lowerIndex (dests : List Destination) (array : Name) (indices : List Operand) :
    Draws base vars [] (lowerIndex dests array indices) := by
  refine (draws_singleScalar dests).next fun x => (Draws.of_ask _).next ?_
  rintro ⟨ty, p⟩
  exact .guard ((draws_positions indices).next fun is => draws_readElement x p is _)

theorem draws_lowerUpdate (dests : List Destination) (indices : List Operand) (value : Operand) :
    Draws base vars [] (lowerUpdate dests indices value) := by
  refine (draws_single dests).next ?_
  rintro (x | ⟨p, ty⟩)
  · exact .of_fault _
  · exact (draws_positions indices).next fun is => draws_writeElement p is ty value

theorem draws_lowerBranch {stms : Lowering Unit} (dests : List Destination)
    (result : List Operand) (hstms : Draws base vars bases stms) :
    Draws base vars bases (lowerBranch dests stms result) := by
  refine .guard (Draws.collect ?_)
  have hboth := hstms.bind fun _ => draws_assignAll dests result
  rwa [List.append_nil] at hboth

theorem draws_startCarried {q : Binder × Operand} (hq : q.1.name ∈ vars) :
    Draws base vars [] (startCarried q) :=
  (draws_declare hq).next fun _ => draws_assign _ _

/-- A carried scalar is put aside under a fresh name, an array needs none. -/
theorem draws_stageCarried (b : Binder) (result : Operand) :
    Draws base vars b.aside (stageCarried b result) := by
  rcases b with ⟨x, ty, _ | p⟩
  · refine Draws.fresh _ fun aside => ?_
    refine (Draws.of_emit _).next fun _ => (Draws.of_emit _).next fun _ => ?_
    exact (draws_bindScalar ty (List.mem_cons_self ..)).next fun _ => .of_pure _
  · exact .of_pure result

/-- Every carried value has its result, so one name is drawn for each that is a scalar. -/
theorem draws_stageAll {binders : List Binder} {result : List Operand}
    (hlen : binders.length = result.length) :
    Draws base vars (binders.flatMap Binder.aside)
      ((binders.zip result).mapM fun (b, a) => stageCarried b a) := by
  have hall : Draws base vars ((binders.zip result).flatMap fun q => q.1.aside)
      ((binders.zip result).mapM fun (b, a) => stageCarried b a) :=
    .mapM _ fun q _ => draws_stageCarried q.1 q.2
  have hbinders : (binders.zip result).map Prod.fst = binders :=
    List.map_fst_zip (Nat.le_of_eq hlen)
  rwa [← List.flatMap_map (f := Prod.fst) (g := Binder.aside), hbinders] at hall

theorem draws_lowerLoop {stms : Lowering Unit} (dests : List Destination)
    {carried : List (Binder × Operand)} {counter : Name} (bound : Operand) (result : List Operand)
    (hcarried : ∀ q ∈ carried, q.1.name ∈ vars) (hcounter : counter ∈ vars)
    (hstms : Draws base vars bases stms) :
    Draws base vars (bases ++ carried.flatMap (·.1.aside))
      (lowerLoop dests carried counter bound stms result) := by
  unfold lowerLoop
  by_cases hlen : carried.length = result.length
  · refine .guard ?_
    have hstart : Draws base vars [] (carried.forM startCarried) :=
      .forM_nil fun q hq => draws_startCarried (hcarried q hq)
    refine hstart.next fun _ => (draws_bindScalar _ hcounter).next fun _ => ?_
    have hstage : Draws base vars (carried.flatMap (·.1.aside))
        (((carried.map Prod.fst).zip result).mapM fun (b, a) => stageCarried b a) := by
      rw [← List.flatMap_map (f := Prod.fst) (g := Binder.aside)]
      exact draws_stageAll (by rwa [List.length_map])
    have hbody := hstms.bind fun _ => hstage.bind fun staged =>
      draws_assignAll ((carried.map Prod.fst).map Binder.destination) staged
    have hall := hbody.collect.bind fun body =>
      (Draws.of_emit (.loop counter (.ofOperand bound) body)).next fun _ =>
        draws_assignAll dests ((carried.map Prod.fst).map (.var ·.name))
    rwa [List.append_nil, List.append_nil] at hall
  · rw [if_pos (.inl hlen)]
    exact .of_fault _

/-! ## Maps as loops -/

theorem draws_readLoopParam (i : Name) {q : Binder × Name} (hq : q.1.name ∈ vars) :
    Draws base vars [] (readLoopParam i q) := by
  refine (Draws.of_ask _).next ?_
  rintro ⟨ty, p⟩
  exact .guard (draws_readParam i ty p hq)

theorem draws_writeLoopResult (i : Name) (q : Destination × Operand) :
    Draws base vars [] (writeLoopResult i q) := by
  rcases q with ⟨x | ⟨p, ty⟩, a⟩
  · exact .of_fault _
  · exact draws_writeElement p _ ty a

/-- Reading parameters, statements, writing results: the statements alone draw names. -/
theorem Draws.between {stms read write : Lowering Unit} (hread : Draws base vars [] read)
    (hstms : Draws base vars bases stms) (hwrite : Draws base vars [] write) :
    Draws base vars bases (read >>= fun _ => stms >>= fun _ => write) := by
  have hall := hread.next fun _ => hstms.bind fun _ => hwrite
  rwa [List.append_nil] at hall

theorem draws_lowerMapLoop {stms : Lowering Unit} (dests : List Destination)
    {params : List Binder} (result : List Operand) (inputs : List Name)
    (hparams : ∀ b ∈ params, b.name ∈ vars)
    (hstms : ∀ i, Draws base (i :: vars) bases stms) :
    Draws base vars ("i" :: bases) (lowerMapLoop dests params stms result inputs) := by
  refine (draws_width inputs _).next fun count => .guard (Draws.fresh "i" fun i => ?_)
  refine (draws_bindScalar _ (List.mem_cons_self ..)).next fun _ => ?_
  have hread : Draws base (i :: vars) [] ((params.zip inputs).forM (readLoopParam i)) :=
    .forM_nil fun q hq =>
      draws_readLoopParam i (List.mem_cons_of_mem _ (hparams _ (List.of_mem_zip hq).1))
  have hwrite : Draws base (i :: vars) [] ((dests.zip result).forM (writeLoopResult i)) :=
    .forM_nil fun q _ => draws_writeLoopResult i q
  have hall := (Draws.between hread (hstms i) hwrite).collect.bind fun body =>
    Draws.of_emit (.loop i (.ofSize count) body)
  rwa [List.append_nil] at hall

/-! ## Statements -/

/-- What becomes of maps draws what is listed for it: as kernels with thread indices of some
base, or as loops. -/
inductive MapsDraw (base : String) : Option String → Option MapLowering → Prop
  | loops : MapsDraw base none none
  | kernels {thread : String} {m : MapLowering}
      (h : ∀ {vars : List Name} {pat : List Binder} {f : Lambda} (inputs : List Name),
        (∀ x ∈ Stm.bindings ⟨pat, .map f inputs⟩, x ∈ vars) →
          Draws base vars (thread :: f.body.drawn none) (m pat f inputs)) :
      MapsDraw base (some thread) (some m)

mutual

/-- **Compiling statements** draws the names that are listed for them. -/
theorem draws_lowerAll {thread : Option String} {onMap : Option MapLowering}
    (hm : MapsDraw base thread onMap) {vars : List Name} {stms : List Stm}
    (hvars : ∀ x ∈ Stm.bindingsAll stms, x ∈ vars) :
    Draws base vars (Stm.drawnAll thread stms) (Stm.lowerAll onMap stms) := by
  match stms with
  | [] => exact .of_pure ()
  | stm :: stms =>
    obtain ⟨hstm, hstms⟩ := List.forall_mem_append.mp hvars
    exact (draws_lower hm hstm).bind fun _ => draws_lowerAll hm hstms

theorem draws_lower {thread : Option String} {onMap : Option MapLowering}
    (hm : MapsDraw base thread onMap) {vars : List Name} {stm : Stm}
    (hvars : ∀ x ∈ stm.bindings, x ∈ vars) :
    Draws base vars (stm.drawn thread) (stm.lower onMap) := by
  match stm with
  | ⟨pat, exp⟩ =>
    obtain ⟨hpat, hexp⟩ := List.forall_mem_append.mp hvars
    exact draws_lowerExp hm hpat hexp

theorem draws_lowerExp {thread : Option String} {onMap : Option MapLowering}
    (hm : MapsDraw base thread onMap) {vars : List Name} {pat : List Binder} {e : Exp}
    (hpat : ∀ x ∈ pat.map Binder.name, x ∈ vars) (hvars : ∀ x ∈ e.bindings, x ∈ vars) :
    Draws base vars (e.drawn thread) (Exp.lower onMap pat e) := by
  have hdeclare : Draws base vars [] (declarePattern pat) := draws_declarePattern hpat
  match e with
  | .operand a => exact hdeclare.next fun d => (draws_single d).next fun d => draws_assign d a
  | .apply op lhs rhs =>
    exact hdeclare.next fun d => (draws_singleScalar d).next fun x => .of_emit _
  | .index array indices => exact hdeclare.next fun d => draws_lowerIndex d array indices
  | .update array indices value => exact hdeclare.next fun d => draws_lowerUpdate d indices value
  | .alloc size space => exact draws_lowerAlloc size space hpat
  | .scratch element shape => exact hdeclare.next fun _ => .of_pure ()
  | .branch cond ⟨yes, yesResult⟩ ⟨no, noResult⟩ =>
    obtain ⟨hyes, hno⟩ := List.forall_mem_append.mp hvars
    refine hdeclare.next fun dests => ?_
    refine (draws_lowerBranch dests yesResult (draws_lowerAll hm hyes)).bind fun yes => ?_
    have hlast := (draws_lowerBranch dests noResult (draws_lowerAll hm hno)).bind fun no =>
      .of_emit (.branch (.ofOperand cond) yes no)
    rwa [List.append_nil] at hlast
  | .loop carried counter bound ⟨stms, result⟩ =>
    rw [Exp.bindings, List.forall_mem_append, List.forall_mem_cons, List.forall_mem_map] at hvars
    obtain ⟨hcarried, hcounter, hstms⟩ := hvars
    exact hdeclare.next fun dests =>
      draws_lowerLoop dests bound result hcarried hcounter (draws_lowerAll hm hstms)
  | .map ⟨params, ⟨stms, result⟩, ret⟩ inputs =>
    cases hm with
    | kernels h => exact h inputs (List.forall_mem_append.mpr ⟨hpat, hvars⟩)
    | loops =>
      rw [Exp.bindings, Lambda.bindings, List.forall_mem_append, List.forall_mem_map] at hvars
      obtain ⟨hparams, hstms⟩ := hvars
      refine hdeclare.next fun dests => draws_lowerMapLoop dests result inputs hparams fun i => ?_
      exact draws_lowerAll .loops fun x hx => List.mem_cons_of_mem i (hstms x hx)

end

/-! ## Maps as kernels -/

theorem draws_hoist {blocks : BlockSizes} (threads : Size) (hblocks : ∀ x ∈ blocks.keys, x ∈ vars) :
    Draws base vars [] (hoist blocks threads) := by
  have hall : Draws base vars []
      ((blocks.scale threads).entries.forM fun q => allocate q.1 q.2 .global) := by
    refine .forM_nil fun q hq => draws_allocate q.2 .global (hblocks _ ?_)
    rw [← map_fst_scale blocks threads]
    exact List.mem_map_of_mem hq
  unfold hoist
  split
  · exact (Draws.of_ask _).next fun _ => .guard hall
  · exact hall

theorem draws_readThreadParam (thread : Name) {q : Binder × Name} (hq : q.1.name ∈ vars) :
    Draws base vars [] (readThreadParam thread q) := by
  refine (Draws.of_ask _).next ?_
  rintro ⟨ty, p⟩
  exact .guard (draws_readParam thread ty p hq)

theorem draws_writeThreadResult (thread : Name) (q : Destination × Operand) :
    Draws base vars [] (writeThreadResult thread q) := by
  rcases q with ⟨x | ⟨p, ty⟩, c | x⟩
  · exact .of_fail _
  · exact .of_fail _
  · exact draws_writeElement p _ ty _
  · exact (Draws.of_ask _).next fun ty' => .guard (draws_writeElement p _ ty _)

theorem draws_lowerThread {thread : Name} {params : List Binder} {body : Body}
    (inputs : List Name) (dests : List Destination) (hthread : thread ∈ vars)
    (hparams : ∀ b ∈ params, b.name ∈ vars) (hbody : ∀ x ∈ Stm.bindingsAll body.stms, x ∈ vars) :
    Draws base vars (Stm.drawnAll none body.stms)
      (lowerThread thread params body inputs dests) := by
  refine .guard (.guard ((draws_bindScalar _ hthread).next fun _ => ?_))
  refine Draws.between ?_ (draws_lowerAll .loops hbody) ?_
  · exact .forM_nil fun q hq => draws_readThreadParam thread (hparams _ (List.of_mem_zip hq).1)
  · exact .forM_nil fun q _ => draws_writeThreadResult thread q

/-- **A kernel** draws its thread index, after its blocks were made, and then what its threads
draw on the device. -/
theorem draws_lowerMapKernel {pat : List Binder} {f : Lambda} (inputs : List Name)
    (hvars : ∀ x ∈ Stm.bindings ⟨pat, .map f inputs⟩, x ∈ vars) :
    Draws base vars (base :: f.body.drawn none) (lowerMapKernel pat f inputs) := by
  obtain ⟨hpat, hf⟩ := List.forall_mem_append.mp hvars
  obtain ⟨hparams, hbody⟩ : (∀ x ∈ f.params.map Binder.name, x ∈ vars) ∧
      ∀ x ∈ f.body.bindings, x ∈ vars := by
    rcases f with ⟨params, body, ret⟩
    exact List.forall_mem_append.mp hf
  refine (draws_width inputs _).next fun threads => Draws.ask_bind fun _ a _ hextract => ?_
  rcases a with ⟨pruned, blocks⟩
  have hblocks : ∀ x ∈ blocks.keys, x ∈ vars :=
    fun x hx => hbody x ((Lambda.keys_sublist hextract).subset hx)
  refine (draws_hoist threads hblocks).next fun _ => Draws.ask_bind fun ctx b hbase hb => ?_
  obtain rfl : base = b := hbase.symm.trans (Except.ok.inj hb)
  refine Draws.fresh _ fun thread => ?_
  have hsliced := Lambda.bindingsAll_sliced_sublist hextract (blocks.sliceOffsets thread)
  have hthread : Draws base (thread :: vars) (f.body.drawn none) (lowerThread thread f.params
      (pruned.offsetBy (blocks.sliceOffsets thread)) inputs (pat.map Binder.destination)) := by
    rw [← Lambda.drawnAll_sliced hextract none (blocks.sliceOffsets thread)]
    refine draws_lowerThread inputs _ (List.mem_cons_self ..) (fun b hb => ?_) fun x hx => ?_
    · exact List.mem_cons_of_mem _ (hparams _ (List.mem_map_of_mem hb))
    · exact List.mem_cons_of_mem _ (hbody x (hsliced.subset hx))
  have hbind : Draws base (thread :: vars) [] (pat.forM bindBinder) := .forM_nil fun b hb =>
    draws_bindBinder (List.mem_cons_of_mem _ (hpat _ (List.mem_map_of_mem hb)))
  have hall := hthread.collect.onDevice.bind fun code =>
    (Draws.of_ask (·.copyIn f inputs)).next fun copyIn =>
      (Draws.of_ask (·.copyOut (pat.map Binder.destination))).next fun copyOut =>
        (Draws.of_emit (.kernel ⟨thread, threads, copyIn, copyOut, code⟩)).next fun _ => hbind
  rwa [List.append_nil] at hall

/-! ## Programs -/

theorem draws_lowerLoops {stms : List Stm} (hvars : ∀ x ∈ Stm.bindingsAll stms, x ∈ vars) :
    Draws base vars (Stm.drawnAll none stms) (lowerLoops stms) :=
  draws_lowerAll .loops hvars

theorem draws_lowerKernels {stms : List Stm} (hvars : ∀ x ∈ Stm.bindingsAll stms, x ∈ vars) :
    Draws base vars (Stm.drawnAll (some base) stms) (lowerKernels stms) :=
  draws_lowerAll (.kernels fun inputs h => draws_lowerMapKernel inputs h) hvars

end Lowering

/-! ## What was there before -/

/-- The code after a run, where this code was there before. -/
def Run.behind {α : Type} (front : Code) (r : Run α) : Code := front ++ r.emitted

/-- A run of statements from this context, behind this code, has drawn fresh names with
these bases and left everything else as it was. -/
structure Undisturbed (stms : List Stm) (bases : List String) (front : Code) (ctx : Context)
    (r : Run Unit) : Prop where
  /-- The code of before stands in front. -/
  code : front <+: r.behind front
  /-- These names were drawn, and no others. -/
  names : r.ctx.names = (ctx.names.freshAll bases).2
  /-- A name that the statements do not bind, and that was not drawn, keeps its entry. -/
  kept : ∀ x ∉ Stm.bindingsAll stms, x ∉ (ctx.names.freshAll bases).1 →
    r.ctx.vars.get? x = ctx.vars.get? x
  /-- Every name is still there, and in its place. -/
  keys : ctx.vars.keys <+: r.ctx.vars.keys
  settings : r.ctx.settings = ctx.settings
  onDevice : r.ctx.onDevice = ctx.onDevice

/-- What draws names of a list, and binds names of the statements besides, leaves everything
else as it was. -/
theorem Lowering.Draws.undisturbed {base : String} {bases : List String} {stms : List Stm}
    {x : Lowering Unit} (h : Draws base (Stm.bindingsAll stms) bases x) (front : Code)
    {ctx : Context} (hbase : ctx.settings.threadIndexBase = base) :
    ∃ drawn, drawn <+: bases ∧ ((x.run ctx).outcome = .ok () → drawn = bases) ∧
      Undisturbed stms drawn front ctx (x.run ctx) := by
  obtain ⟨drawn, hdrawn, hspends, hall⟩ := h ctx hbase
  refine ⟨drawn, hdrawn, hall (), ?_⟩
  exact
    { code := List.prefix_append ..
      names := hspends.names
      kept := fun _ hx hfresh => hspends.get?_eq hx hfresh
      keys := hspends.keys
      settings := hspends.settings
      onDevice := hspends.onDevice }

/-- **Compilation never disturbs what it was given**, with kernels or without, whether it
succeeds or fails: it draws the names that are listed for the statements, up to a failure,
and everything but these names and those that the statements bind stays as it was. -/
theorem statements_undisturbed (stms : List Stm) (front : Code) (ctx : Context) :
    (∃ drawn, drawn <+: Stm.drawnAll none stms ∧
      (((lowerLoops stms).run ctx).outcome = .ok () → drawn = Stm.drawnAll none stms) ∧
      Undisturbed stms drawn front ctx ((lowerLoops stms).run ctx)) ∧
    ∃ drawn, drawn <+: Stm.drawnAll (some ctx.settings.threadIndexBase) stms ∧
      (((lowerKernels stms).run ctx).outcome = .ok () →
        drawn = Stm.drawnAll (some ctx.settings.threadIndexBase) stms) ∧
      Undisturbed stms drawn front ctx ((lowerKernels stms).run ctx) := by
  constructor
  · exact (Lowering.draws_lowerLoops fun _ hx => hx).undisturbed front rfl
  · exact (Lowering.draws_lowerKernels fun _ hx => hx).undisturbed front rfl

end KernelGen
