import KernelGen.Proofs.Kernel.Blocks
import KernelGen.Proofs.Kernel.Effect
import KernelGen.Proofs.Lowering.Filling
import KernelGen.Proofs.Lowering.Introductions
import KernelGen.Proofs.Program.Scratch

/-! # Scalars are assigned in time

The variables of a pattern are declared in one place and assigned in others: inside both
sides of a branch, behind a loop, by the load of an element.  Emitted code is therefore not
taken apart by its own form but by that of the program: `Code.Settled` cuts it into the
codes of the statements, at every depth, and says of each of them that it assigns what it
declares before it ends.  What is declared in between, the parameters of lambdas, the values
that loops carry and what is put aside for them, is assigned by the very next statement.

`scalars_assigned` states this for both ways to compile maps, together with where variables
are in scope (`Code.TargetsIn`) and how often a name is introduced (`Introduces`).  It needs
that scratch arrays have been placed, as nothing assigns what a scratch statement
declares. -/
namespace KernelGen
open Lowering

/-! ## Code of statements -/

/-- The code is what the statement is compiled to, somewhere, and it assigns the variables
that it declares: those of the pattern before it ends, all others at once. -/
structure Stm.Finishes (onMap : Option MapLowering) (stm : Stm) (code : Code) : Prop where
  run : ∃ ctx last, (stm.lower onMap).run ctx = ⟨.ok (), code, last⟩
  settles : code.Settles (stm.pat.map Binder.name)

/-- The expression has no body. -/
def Exp.Flat : Exp → Prop
  | .branch .. | .loop .. | .map .. => False
  | .operand _ | .apply .. | .index .. | .update .. | .alloc .. | .scratch .. => True

/-- The code consists of the codes of the statements, one after the other, of which each is
finished where it ends; likewise, at every depth, the pieces of code inside it and the
statements of bodies.  In between there is code in which variables are assigned as soon as
they are declared. -/
inductive Code.Settled : Option MapLowering → List Stm → Code → Prop where
  | between {onMap : Option MapLowering} {code : Code} (h : code.Plain) : Code.Settled onMap [] code
  | append {onMap : Option MapLowering} {stms stms' : List Stm} {code code' : Code}
      (h : Code.Settled onMap stms code) (h' : Code.Settled onMap stms' code') :
    Code.Settled onMap (stms ++ stms') (code ++ code')
  | flat {onMap : Option MapLowering} {stm : Stm} {code : Code} (hcode : stm.Finishes onMap code)
      (hflat : stm.exp.Flat) (hbodies : code.bodies = []) : Code.Settled onMap [stm] code
  | branch {onMap : Option MapLowering} {pat : List Binder} {cond : Operand} {yes no : Body}
      {code inYes inNo : Code} (hcode : Stm.Finishes onMap ⟨pat, .branch cond yes no⟩ code)
      (hbodies : code.bodies = [inYes, inNo]) (hyes : Code.Settled onMap yes.stms inYes)
      (hno : Code.Settled onMap no.stms inNo) :
    Code.Settled onMap [⟨pat, .branch cond yes no⟩] code
  | loop {onMap : Option MapLowering} {pat : List Binder} {carried : List (Binder × Operand)}
      {counter : Name} {bound : Operand} {body : Body} {code inBody : Code}
      (hcode : Stm.Finishes onMap ⟨pat, .loop carried counter bound body⟩ code)
      (hbodies : code.bodies = [inBody]) (hbody : Code.Settled onMap body.stms inBody) :
    Code.Settled onMap [⟨pat, .loop carried counter bound body⟩] code
  | map {pat : List Binder} {f : Lambda} {inputs : List Name} {code inBody : Code}
      (hcode : Stm.Finishes none ⟨pat, .map f inputs⟩ code) (hbodies : code.bodies = [inBody])
      (hbody : Code.Settled none f.body.stms inBody) :
    Code.Settled none [⟨pat, .map f inputs⟩] code
  /-- The threads of a kernel run what is left of the lambda. -/
  | kernel {pat : List Binder} {f : Lambda} {inputs : List Name} {code inBody : Code}
      {pruned : Body} {blocks : BlockSizes} {thread : Name}
      (hcode : Stm.Finishes (some lowerMapKernel) ⟨pat, .map f inputs⟩ code)
      (hextract : f.extract = .ok ⟨pruned, blocks⟩) (hbodies : code.bodies = [inBody])
      (hbody : Code.Settled none (pruned.offsetBy (blocks.sliceOffsets thread)).stms inBody) :
    Code.Settled (some lowerMapKernel) [⟨pat, .map f inputs⟩] code

namespace Code
variable {onMap : Option MapLowering} {stms : List Stm} {code code' : Code}

theorem Settled.before (h : Settled onMap stms code) (h' : code'.Plain) :
    Settled onMap stms (code ++ code') := by
  have hboth := h.append (.between h')
  rwa [List.append_nil] at hboth

theorem Settled.behind (h : code.Plain) (h' : Settled onMap stms code') :
    Settled onMap stms (code ++ code') := Settled.append (.between h) h'

/-- **Every variable that is declared is assigned**, wherever the declaration stands, before
the code it stands in ends. -/
theorem Settled.assignsDeclared (h : Settled onMap stms code) : AssignsDeclared code := by
  induction h with
  | between h =>
    refine .mk (fun _ _ _ _ => h.settles.assigns) ?_
    rw [h.bodies]
    exact List.forall_mem_nil _
  | append _ _ ih ih' => exact ih.append ih'
  | flat hcode _ hbodies =>
    refine .mk (fun _ _ _ _ => hcode.settles.assigns) ?_
    rw [hbodies]
    exact List.forall_mem_nil _
  | branch hcode hbodies _ _ ihyes ihno =>
    refine .mk (fun _ _ _ _ => hcode.settles.assigns) ?_
    rw [hbodies]
    exact List.forall_mem_cons.mpr ⟨ihyes, List.forall_mem_singleton.mpr ihno⟩
  | loop hcode hbodies _ ih | map hcode hbodies _ ih | kernel hcode _ hbodies _ ih =>
    refine .mk (fun _ _ _ _ => hcode.settles.assigns) ?_
    rw [hbodies]
    exact List.forall_mem_singleton.mpr ih

end Code

namespace Lowering

/-! ## Forms with bodies -/

section
variable {onMap : Option MapLowering} {inner : List Stm} {stms : Lowering Unit}

theorem emits_lowerBranch (dests : List Destination) (result : List Operand)
    (hstms : Emits Anywhere stms fun _ code => code.Settled onMap inner ∧ code.Fills []) :
    Emits Anywhere (lowerBranch dests stms result) fun code front =>
      (Code.Settled onMap inner code ∧ code.Fills dests) ∧ front = [] := by
  unfold lowerBranch
  refine Emits.guard fun hlen => emits_collect (hstms.bind ?_)
  rintro ⟨⟩ front ⟨hsettled, hfront⟩
  have hle : dests.length ≤ result.length := (Decidable.not_not.mp hlen).le
  refine (emits_assignAll hle).mono fun _ rest ⟨hplain, hfills⟩ => ?_
  exact ⟨hsettled.before hplain, hfront.after hfills⟩

/-- A branch fills what both of its sides fill. -/
theorem emits_branch {dests : List Destination} {yes no : Lowering Code} {inYes inNo : List Stm}
    (cond : Expr)
    (hyes : Emits Anywhere yes fun code front =>
      (Code.Settled onMap inYes code ∧ code.Fills dests) ∧ front = [])
    (hno : Emits Anywhere no fun code front =>
      (Code.Settled onMap inNo code ∧ code.Fills dests) ∧ front = []) :
    Emits Anywhere (yes >>= fun y => no >>= fun n => emit (.branch cond y n)) fun _ code =>
      (code.Settles [] ∧ code.Fills dests) ∧ ∃ a b, code.bodies = [a, b] ∧
        Code.Settled onMap inYes a ∧ Code.Settled onMap inNo b := by
  refine hyes.bind ?_
  rintro a _ ⟨⟨ha, hfills⟩, rfl⟩
  refine hno.bind ?_
  rintro b _ ⟨⟨hb, hfills'⟩, rfl⟩
  refine .of_emit ⟨⟨Code.settles_nil.cons rfl, ?_⟩, a, b, rfl, ha, hb⟩
  exact ⟨fun x hx => (hfills.assigns x hx).branch cond (hfills'.assigns x hx),
    fun scope hscope => ⟨⟨hfills.targets scope hscope, hfills'.targets scope hscope⟩, trivial⟩⟩

/-- The body of a loop stores what it has put aside into what is carried. -/
theorem emits_loopBody (binders : List Binder) (result : List Operand)
    (hresult : binders.length = result.length)
    (hstms : Emits Anywhere stms fun _ code => code.Settled onMap inner ∧ code.Fills []) :
    Emits Anywhere (collect do
      stms
      let staged ← (binders.zip result).mapM fun q => stageCarried q.1 q.2
      assignAll (binders.map Binder.destination) staged) fun code front =>
        (Code.Settled onMap inner code ∧ code.Fills (binders.map Binder.destination)) ∧
          front = [] := by
  refine emits_collect (hstms.bind ?_)
  rintro ⟨⟩ code ⟨hsettled, hcode⟩
  refine (emits_stageAll (binders.zip result)).bind ?_
  rintro staged put ⟨hstaged, hput, hputFills⟩
  have hle : (binders.map Binder.destination).length ≤ staged.length := by
    rw [hstaged, List.length_map, List.length_zip]
    omega
  refine (emits_assignAll hle).mono fun _ back ⟨hback, hbackFills⟩ => ⟨?_, ?_⟩
  · exact hsettled.before (hput.append hback)
  · exact hcode.after (hputFills.after hbackFills)

/-- A loop starts what it carries, and stores it into the destinations when it has ended,
even if it has not run at all. -/
theorem emits_lowerLoop (dests : List Destination) (carried : List (Binder × Operand))
    (counter : Name) (bound : Operand) (result : List Operand)
    (hstms : Emits Anywhere stms fun _ code => code.Settled onMap inner ∧ code.Fills []) :
    Emits Anywhere (lowerLoop dests carried counter bound stms result) fun _ code =>
      (code.Settles [] ∧ code.Fills dests) ∧
        ∃ a, code.bodies = [a] ∧ Code.Settled onMap inner a := by
  unfold lowerLoop
  refine Emits.guard fun hlen => ?_
  rw [not_or, not_not, not_not] at hlen
  obtain ⟨hresult, hdests⟩ := hlen
  refine (emits_start carried).bind ?_
  rintro ⟨⟩ start ⟨hdeclares, hstart, hstartFills⟩
  refine (emits_bindScalar counter .i64).bind ?_
  rintro ⟨⟩ _ rfl
  let binders := carried.map Prod.fst
  have hbinders : binders.length = carried.length := List.length_map _
  refine (emits_loopBody binders result (hbinders.trans hresult) hstms).bind ?_
  rintro body _ ⟨⟨hsettled, hfills⟩, rfl⟩
  refine (emits_emit (.loop counter (.ofOperand bound) body)).bind ?_
  rintro ⟨⟩ _ rfl
  have hle : dests.length ≤ (binders.map (Operand.var ·.name)).length := by
    rw [List.length_map, hbinders, hdests]
  refine (emits_assignAll hle).mono fun _ out ⟨hout, houtFills⟩ => ?_
  -- The body assigns what was declared at the start.
  have hloop : Code.TargetsIn (binders.flatMap Binder.scalars)
      [.loop counter (.ofOperand bound) body] :=
    ⟨hfills.targets _ fun x hx => Code.mem_scalars_iff.mpr hx, trivial⟩
  have hfront : Code.Fills [] (start ++ [.loop counter (.ofOperand bound) body]) := by
    refine .of_targetsIn fun scope => (hstartFills.targetsIn scope).append hloop ?_
    rw [hdeclares]
    exact List.subset_append_left ..
  refine ⟨⟨?_, ?_⟩, body, ?_, hsettled⟩
  · exact hstart.settles.append (hout.settles.cons rfl)
  · have hall := hfront.after houtFills
    rwa [List.append_assoc] at hall
  · show Code.bodies (start ++ ([.loop counter (.ofOperand bound) body] ++ out)) = [body]
    rw [Code.bodies_append, Code.bodies_append, hstart.bodies, hout.bodies]
    rfl

theorem emits_writeThreadResult (thread : Name) (q : Destination × Operand) :
    Emits Anywhere (writeThreadResult thread q) fun _ code =>
      (∀ x, q.1 ≠ .scalar x) ∧ code.Plain ∧ code.Fills [] := by
  have hwrite : ∀ p element a, Emits Anywhere (writeElement p [.var thread] element a) fun _ code =>
      (∀ x, Destination.array p element ≠ .scalar x) ∧ code.Plain ∧ code.Fills [] :=
    fun p element a => (emits_writeElement p _ element a).mono fun _ _ h => ⟨nofun, h⟩
  rcases q with ⟨_ | ⟨p, element⟩, c | x⟩
  · exact .of_fail _
  · exact .of_fail _
  · exact hwrite p element (.const c)
  · refine (emits_ask _).bind ?_
    rintro ty _ rfl
    exact Emits.guard fun _ => hwrite p element (.var x)

/-- The body of a map reads parameters, runs the statements, and writes the results into
arrays. -/
theorem emits_mapBody {read : Binder × Name → Lowering Unit}
    {write : Destination × Operand → Lowering Unit} (params : List (Binder × Name))
    (dests : List Destination) (result : List Operand) (hlen : dests.length ≤ result.length)
    (hread : ∀ q, Emits Anywhere (read q) fun _ code => code.Plain ∧ code.Fills [])
    (hstms : Emits Anywhere stms fun _ code => code.Settled onMap inner ∧ code.Fills [])
    (hwrite : ∀ q, Emits Anywhere (write q) fun _ code =>
      (∀ x, q.1 ≠ .scalar x) ∧ code.Plain ∧ code.Fills []) :
    Emits Anywhere (do params.forM read; stms; (dests.zip result).forM write) fun _ code =>
      (∀ x, .scalar x ∉ dests) ∧ code.Settled onMap inner ∧ code.Fills [] := by
  refine (emits_forM fun q _ => hread q).bind ?_
  rintro ⟨⟩ reads ⟨hreads, hreadsFills⟩
  refine hstms.bind ?_
  rintro ⟨⟩ code ⟨hsettled, hcode⟩
  refine (emits_writeResults hlen hwrite).mono ?_
  rintro ⟨⟩ writes ⟨hdests, hwrites, hwritesFills⟩
  refine ⟨hdests, ?_, ?_⟩
  · exact (hsettled.before hwrites).behind hreads
  · exact hreadsFills.after (hcode.after hwritesFills)

/-- A map that becomes a loop has arrays as its destinations. -/
theorem emits_lowerMapLoop (dests : List Destination) (params : List Binder)
    (result : List Operand) (inputs : List Name)
    (hstms : Emits Anywhere stms fun _ code => code.Settled onMap inner ∧ code.Fills []) :
    Emits Anywhere (lowerMapLoop dests params stms result inputs) fun _ code =>
      (code.Settles [] ∧ code.Fills dests) ∧
        ∃ a, code.bodies = [a] ∧ Code.Settled onMap inner a := by
  have hwidth : Emits Anywhere (width inputs .loopInputFlat) fun _ code => code = [] :=
    fun _ _ _ _ _ hrun => ⟨trivial, (run_width hrun).1⟩
  unfold lowerMapLoop
  refine hwidth.bind ?_
  rintro count _ rfl
  refine Emits.guard fun hlen => (emits_fresh "i").bind ?_
  rw [not_or, not_not, not_not] at hlen
  rintro i _ rfl
  refine (emits_bindScalar i .i64).bind ?_
  rintro ⟨⟩ _ rfl
  have hread : ∀ q, Emits Anywhere (readLoopParam i q) fun _ code =>
      code.Plain ∧ code.Fills [] := by
    rintro ⟨param, input⟩
    refine (emits_ask _).bind ?_
    rintro ⟨ty, p⟩ _ rfl
    exact Emits.guard fun _ => emits_readParam i param ty p
  have hwrite : ∀ q, Emits Anywhere (writeLoopResult i q) fun _ code =>
      (∀ x, q.1 ≠ .scalar x) ∧ code.Plain ∧ code.Fills [] := by
    rintro ⟨_ | ⟨p, element⟩, a⟩
    · exact .of_fault _
    · exact (emits_writeElement p [.var i] element a).mono fun _ _ h => ⟨nofun, h⟩
  have hbody := emits_mapBody (params.zip inputs) dests result hlen.2.ge hread hstms hwrite
  refine (emits_collect hbody).bind ?_
  rintro body _ ⟨⟨hdests, hsettled, hfills⟩, rfl⟩
  refine .of_emit ⟨⟨Code.settles_nil.cons rfl, ?_⟩, body, rfl, hsettled⟩
  exact ⟨fun x hx => absurd hx (hdests x), fun scope _ => ⟨hfills.targetsIn scope, trivial⟩⟩

/-- A thread reads its parameters, runs the statements, and writes its results into
arrays. -/
theorem emits_lowerThread (dests : List Destination) (thread : Name) (params : List Binder)
    (body : Body) (inputs : List Name)
    (hstms : Emits Anywhere (Stm.lowerAll none body.stms) fun _ code =>
      code.Settled none body.stms ∧ code.Fills []) :
    Emits Anywhere (lowerThread thread params body inputs dests) fun _ code =>
      code.Settled none body.stms ∧ code.Fills [] := by
  have hread : ∀ q, Emits Anywhere (readThreadParam thread q) fun _ code =>
      code.Plain ∧ code.Fills [] := by
    rintro ⟨param, input⟩
    refine (emits_ask _).bind ?_
    rintro ⟨ty, p⟩ _ rfl
    exact Emits.guard fun _ => emits_readParam thread param ty p
  unfold lowerThread
  refine Emits.guard fun _ => Emits.guard fun hlen => (emits_bindScalar thread .i64).bind ?_
  rintro ⟨⟩ _ rfl
  have hbody := emits_mapBody (params.zip inputs) dests body.result (Decidable.not_not.mp hlen).ge
    hread hstms (emits_writeThreadResult thread)
  exact hbody.mono fun _ _ h => h.2

end

theorem plain_hoistCode (blocks : List (Name × Size)) :
    Code.Plain (hoistCode blocks) ∧ Code.Fills [] (hoistCode blocks) := by
  induction blocks with
  | nil => exact ⟨.nil, .empty⟩
  | cons q blocks ih =>
    have hone : Code.Plain [.declareBlock q.1 .global, .allocate q.1 q.2 .global] :=
      (Code.Plain.nil.cons rfl rfl).cons rfl rfl
    have hfills : Code.Fills [] [.declareBlock q.1 .global, .allocate q.1 q.2 .global] :=
      .of_targetsIn fun _ => ⟨trivial, trivial, trivial⟩
    exact ⟨hone.append ih.1, hfills.after ih.2⟩

/-- A kernel has the code of a thread inside, and in front of it only blocks. -/
theorem emits_lowerMapKernel (pat : List Binder) (f : Lambda) (inputs : List Name)
    (hf : Stm.ScratchPlaced f.body.stms)
    (hstms : ∀ stms, Stm.ScratchPlaced stms → Emits Anywhere (Stm.lowerAll none stms) fun _ code =>
      code.Settled none stms ∧ code.Fills []) :
    Emits Anywhere (lowerMapKernel pat f inputs) fun _ code =>
      (code.Settles [] ∧ code.Fills []) ∧ ∃ pruned blocks thread a,
        f.extract = .ok ⟨pruned, blocks⟩ ∧ code.bodies = [a] ∧
          Code.Settled none (pruned.offsetBy (blocks.sliceOffsets thread)).stms a := by
  intro ctx _ code last _ hrun
  obtain ⟨front, ⟨thread, threads, copyIn, copyOut, body⟩, pruned, blocks, start, inner, launch,
    rfl⟩ := lowerMapKernel_eq_ok hrun
  obtain ⟨hfront, hfrontFills⟩ := plain_hoistCode (blocks.scale threads).entries
  rw [← launch.front_eq] at hfront hfrontFills
  have hsliced := Lambda.scratchPlaced_sliced launch.extract hf (blocks.sliceOffsets thread)
  obtain ⟨-, hsettled, hfills⟩ :=
    emits_lowerThread _ thread f.params _ inputs (hstms _ hsliced) trivial launch.body
  refine ⟨trivial, ⟨?_, ?_⟩, pruned, blocks, thread, body, launch.extract, ?_, hsettled⟩
  · exact hfront.settles.append (Code.settles_nil.cons rfl)
  · exact hfrontFills.after (.of_targetsIn fun _ => ⟨hfills.targetsIn [], trivial⟩)
  · rw [Code.bodies_append, hfront.bodies]
    rfl

/-! ## Statements -/

/-- Whatever is known of a step that has been run may be used for what it emits. -/
theorem Emits.of_run {α : Type} {I : Context → Prop} {x : Lowering α} {Q : α → Code → Prop}
    (h : Emits I x fun a code => (∃ ctx last, x.run ctx = ⟨.ok a, code, last⟩) → Q a code) :
    Emits I x Q := by
  intro ctx a code last hctx hrun
  obtain ⟨hlast, hq⟩ := h hctx hrun
  exact ⟨hlast, hq ⟨ctx, last, hrun⟩⟩

/-- What becomes of a map is finished where its code ends. -/
def MapsSettle (onMap : Option MapLowering) : Prop :=
  ∀ lowerMap ∈ onMap, ∀ pat f inputs, Stm.ScratchPlaced f.body.stms →
    Emits Anywhere (lowerMap pat f inputs) fun _ code =>
      code.Settled onMap [⟨pat, .map f inputs⟩] ∧ code.Fills []

/-- A pattern is declared in front of the code that fills it. -/
theorem emits_declared {pat : List Binder} {f : List Destination → Lowering Unit}
    {N : List Code → Prop}
    (h : Emits Anywhere (f (pat.map Binder.destination)) fun _ code =>
      (code.Settles [] ∧ code.Fills (pat.map Binder.destination)) ∧ N code.bodies) :
    Emits Anywhere (declarePattern pat >>= f) fun _ code =>
      code.Fills [] ∧ code.Settles (pat.map Binder.name) ∧ N code.bodies := by
  refine (emits_declarePattern pat).bind ?_
  rintro dests _ ⟨rfl, rfl⟩
  refine h.mono fun _ code ⟨⟨hsettles, hfills⟩, hbodies⟩ => ?_
  obtain ⟨hall, hdeclared, heq⟩ := hfills.declared hsettles
  exact ⟨hall, hdeclared, heq ▸ hbodies⟩

/-- The same of an expression without bodies. -/
theorem emits_flat {onMap : Option MapLowering} {pat : List Binder} {e : Exp}
    {f : List Destination → Lowering Unit} (hflat : e.Flat)
    (hlower : Exp.lower onMap pat e = declarePattern pat >>= f)
    (h : Emits Anywhere (f (pat.map Binder.destination)) fun _ code =>
      code.Plain ∧ code.Fills (pat.map Binder.destination)) :
    Emits Anywhere (Exp.lower onMap pat e) fun _ code =>
      code.Settled onMap [⟨pat, e⟩] ∧ code.Fills [] := by
  refine Emits.of_run ?_
  rw [hlower]
  have hnone : Emits Anywhere (f (pat.map Binder.destination)) fun _ code =>
      (code.Settles [] ∧ code.Fills (pat.map Binder.destination)) ∧ code.bodies = [] :=
    h.mono fun _ code ⟨hplain, hfills⟩ => ⟨⟨hplain.settles, hfills⟩, hplain.bodies⟩
  refine (emits_declared (N := (· = [])) hnone).mono ?_
  rintro ⟨⟩ code ⟨hfills, hsettles, hbodies⟩ hrun
  rw [← hlower] at hrun
  exact ⟨.flat ⟨hrun, hsettles⟩ hflat hbodies, hfills⟩

mutual

/-- **The code of statements is settled**, whatever the context. -/
theorem emits_lowerAll {onMap : Option MapLowering} (hmaps : MapsSettle onMap) (stms : List Stm)
    (hscratch : Stm.ScratchPlaced stms) :
    Emits Anywhere (Stm.lowerAll onMap stms) fun _ code =>
      code.Settled onMap stms ∧ code.Fills [] := by
  match stms with
  | [] => exact .of_pure ⟨.between .nil, .empty⟩
  | stm :: stms =>
    obtain ⟨hstm, hstms⟩ := List.forall_mem_append.mp hscratch
    refine (emits_lower hmaps stm hstm).bind ?_
    rintro ⟨⟩ part ⟨hpart, hpartFills⟩
    refine (emits_lowerAll hmaps stms hstms).mono fun _ rest ⟨hrest, hrestFills⟩ => ?_
    exact ⟨hpart.append hrest, hpartFills.after hrestFills⟩

theorem emits_lower {onMap : Option MapLowering} (hmaps : MapsSettle onMap) (stm : Stm)
    (hscratch : ∀ b ∈ stm.scratched, b.placement.isSome = true) :
    Emits Anywhere (stm.lower onMap) fun _ code => code.Settled onMap [stm] ∧ code.Fills [] := by
  match stm with
  | ⟨pat, exp⟩ => exact emits_lowerExp hmaps pat exp hscratch

theorem emits_lowerExp {onMap : Option MapLowering} (hmaps : MapsSettle onMap)
    (pat : List Binder) (e : Exp) (hscratch : ∀ b ∈ e.scratched pat, b.placement.isSome = true) :
    Emits Anywhere (Exp.lower onMap pat e) fun _ code =>
      code.Settled onMap [⟨pat, e⟩] ∧ code.Fills [] := by
  match e with
  | .operand a =>
    refine emits_flat trivial rfl ((emits_single _).bind ?_)
    rintro d _ ⟨hd, rfl⟩
    rw [hd]
    exact emits_assign d a
  | .apply op lhs rhs =>
    refine emits_flat trivial rfl ((emits_singleScalar _).bind ?_)
    rintro x _ ⟨hx, rfl⟩
    rw [hx]
    exact emits_filling rfl rfl (.of_target rfl)
  | .index array indices => exact emits_flat trivial rfl (emits_lowerIndex _ array indices)
  | .update array indices value => exact emits_flat trivial rfl (emits_lowerUpdate _ indices value)
  | .alloc size space =>
    refine Emits.of_run ((emits_lowerAlloc pat size space).mono ?_)
    rintro ⟨⟩ code ⟨hplain, hfills⟩ hrun
    exact ⟨.flat ⟨hrun, hplain.settles.mono (List.nil_subset _)⟩ trivial hplain.bodies, hfills⟩
  | .scratch element shape =>
    -- Nothing is assigned, and nothing is declared.
    refine emits_flat trivial rfl (.of_pure ⟨.nil, .nil fun x hx => ?_⟩)
    obtain ⟨⟨y, ty, _ | p⟩, hb, hdest⟩ := List.mem_map.mp hx
    · exact absurd (hscratch _ hb) Bool.false_ne_true
    · cases hdest
  | .branch cond ⟨yes, yesResult⟩ ⟨no, noResult⟩ =>
    obtain ⟨hyes, hno⟩ := List.forall_mem_append.mp hscratch
    have hall := emits_branch (.ofOperand cond)
      (emits_lowerBranch (pat.map Binder.destination) yesResult (emits_lowerAll hmaps yes hyes))
      (emits_lowerBranch (pat.map Binder.destination) noResult (emits_lowerAll hmaps no hno))
    refine Emits.of_run ((emits_declared (N := fun bodies => ∃ a b, bodies = [a, b] ∧
      Code.Settled onMap yes a ∧ Code.Settled onMap no b) hall).mono ?_)
    rintro ⟨⟩ code ⟨hfills, hsettles, a, b, hbodies, ha, hb⟩ hrun
    exact ⟨.branch ⟨hrun, hsettles⟩ hbodies ha hb, hfills⟩
  | .loop carried counter bound ⟨stms, result⟩ =>
    have hall := emits_lowerLoop (pat.map Binder.destination) carried counter bound result
      (emits_lowerAll hmaps stms hscratch)
    refine Emits.of_run ((emits_declared
      (N := fun bodies => ∃ a, bodies = [a] ∧ Code.Settled onMap stms a) hall).mono ?_)
    rintro ⟨⟩ code ⟨hfills, hsettles, a, hbodies, ha⟩ hrun
    exact ⟨.loop ⟨hrun, hsettles⟩ hbodies ha, hfills⟩
  | .map ⟨params, ⟨stms, result⟩, ret⟩ inputs =>
    match onMap, hmaps with
    | some lowerMap, hmaps => exact hmaps lowerMap rfl pat _ inputs hscratch
    | none, hmaps =>
      have hall := emits_lowerMapLoop (pat.map Binder.destination) params result inputs
        (emits_lowerAll hmaps stms hscratch)
      refine Emits.of_run ((emits_declared
        (N := fun bodies => ∃ a, bodies = [a] ∧ Code.Settled none stms a) hall).mono ?_)
      rintro ⟨⟩ code ⟨hfills, hsettles, a, hbodies, ha⟩ hrun
      exact ⟨.map ⟨hrun, hsettles⟩ hbodies ha, hfills⟩

end

theorem mapsSettle_none : MapsSettle none := fun _ h => absurd h (Option.not_mem_none _)

theorem mapsSettle_kernels : MapsSettle (some lowerMapKernel) := by
  rintro _ ⟨⟩ pat f inputs hf
  have hkernel := emits_lowerMapKernel pat f inputs hf (emits_lowerAll mapsSettle_none)
  refine Emits.of_run (hkernel.mono ?_)
  rintro ⟨⟩ code ⟨⟨hsettles, hfills⟩, pruned, blocks, thread, a, hextract, hbodies, ha⟩ hrun
  rcases f with ⟨params, ⟨stms, result⟩, ret⟩
  exact ⟨.kernel ⟨hrun, hsettles.mono (List.nil_subset _)⟩ hextract hbodies ha, hfills⟩

end Lowering

/-! ## Programs -/

/-- The code declares each scalar before it assigns it, and assigns each scalar that it
declares, on every path and in time. -/
structure Stm.AssignedInTime (onMap : Option MapLowering) (stms : List Stm) (ctx : Context)
    (code : Code) : Prop where
  /-- What is assigned has been declared, in front of it in the same list or around it. -/
  declared : Code.TargetsIn [] code
  /-- What is declared is assigned before the code of its statement ends, or at once. -/
  settled : Code.Settled onMap stms code
  /-- So it is assigned on every path that starts behind its declaration. -/
  assigned : Code.AssignsDeclared code
  /-- The names of the program have to be distinct and drawn before those of compilation. -/
  once : (Stm.bindingsAll stms).Nodup → (∀ x ∈ Stm.bindingsAll stms, x.tag < ctx.names.next) →
    code.introduced.Nodup

theorem Stm.assignedInTime_of_run {onMap : Option MapLowering} {stms : List Stm}
    {ctx last : Context} {code : Code} (hsettle : MapsSettle onMap)
    (hintroduce : MapsIntroduce onMap) (hscratch : Stm.ScratchPlaced stms)
    (hrun : (Stm.lowerAll onMap stms).run ctx = ⟨.ok (), code, last⟩) :
    Stm.AssignedInTime onMap stms ctx code := by
  obtain ⟨-, hsettled, hfills⟩ := emits_lowerAll hsettle stms hscratch trivial hrun
  refine ⟨hfills.targetsIn [], hsettled, hsettled.assignsDeclared, fun hnodup htags => ?_⟩
  exact (introduces_lowerAll hintroduce stms hrun).nodup hnodup htags

/-- **Scalars are declared before they are assigned, and assigned in time**, in every
successful compilation with loops or with kernels for maps. -/
theorem scalars_assigned (stms : List Stm) (ctx : Context) (hscratch : Stm.ScratchPlaced stms) :
    (∀ code last, (lowerLoops stms).run ctx = ⟨.ok (), code, last⟩ →
      Stm.AssignedInTime none stms ctx code) ∧
    ∀ code last, (lowerKernels stms).run ctx = ⟨.ok (), code, last⟩ →
      Stm.AssignedInTime (some lowerMapKernel) stms ctx code := by
  constructor
  · exact fun _ _ => Stm.assignedInTime_of_run mapsSettle_none mapsIntroduce_none hscratch
  · exact fun _ _ => Stm.assignedInTime_of_run mapsSettle_kernels mapsIntroduce_kernels hscratch

/-- A map over one array, and a loop that looks at another one on one side of a branch. -/
def copyThenSearch : List Stm :=
  [⟨[thirdArray], .map throughCell [⟨"xs", 3⟩]⟩,
    ⟨[⟨⟨"found", 10⟩, .i64, none⟩],
      .loop [(⟨⟨"best", 11⟩, .i64, none⟩, .const (.int 0))] ⟨"k", 12⟩ (.const (.int 4))
        ⟨[⟨[⟨⟨"next", 13⟩, .i64, none⟩],
          .branch (.const (.bool true)) ⟨[], [.var ⟨"best", 11⟩]⟩
            ⟨[⟨[⟨⟨"e", 14⟩, .i64, none⟩], .index ⟨"xs", 3⟩ [.var ⟨"k", 12⟩]⟩],
              [.var ⟨"e", 14⟩]⟩⟩],
          [.var ⟨"next", 13⟩]⟩⟩]

theorem scalars_assigned_copyThenSearch :
    Stm.ScratchPlaced copyThenSearch ∧
      (∃ code last, (lowerLoops copyThenSearch).run (twoArrays 22) = ⟨.ok (), code, last⟩ ∧
        Stm.AssignedInTime none copyThenSearch (twoArrays 22) code ∧ code.introduced.Nodup) ∧
      ∃ code last, (lowerKernels copyThenSearch).run (twoArrays 22) = ⟨.ok (), code, last⟩ ∧
        Stm.AssignedInTime (some lowerMapKernel) copyThenSearch (twoArrays 22) code ∧
          code.introduced.Nodup := by
  have hscratch : Stm.ScratchPlaced copyThenSearch := by decide
  obtain ⟨hloops, hkernels⟩ := scalars_assigned copyThenSearch (twoArrays 22) hscratch
  refine ⟨hscratch, ⟨_, _, rfl, hloops _ _ rfl, ?_⟩, _, _, rfl, hkernels _ _ rfl, ?_⟩
  · exact (hloops _ _ rfl).once (by decide) (by decide)
  · exact (hkernels _ _ rfl).once (by decide) (by decide)

end KernelGen
