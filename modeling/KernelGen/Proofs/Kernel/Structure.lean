import KernelGen.Proofs.Kernel.Bodies
import KernelGen.Proofs.Lowering.Undisturbed
import KernelGen.Proofs.Program.Maps

/-! # The kernels of a compiled program

Every map that no other map contains becomes one kernel, in the order of the text, and no
kernel comes from anything else (`compile_structure`).  `Stm.mapsAll` lists those maps,
`Code.launches` the kernels with what stands in front of each, and the two lists match one
to one: a map became the kernel that its rule makes of it, in some context, directly behind
the blocks of its lambda (`MapStm.BecameAt`).

A step that compiles nested code comes in two stages, first the code as a value and then a
statement around it; the tags of the thread indices are followed through both
(`Code.Launched`).  Each map draws a name for itself before its lambda is compiled, so that
tags increase from kernel to kernel. -/
namespace KernelGen
open Lowering

/-! ## Maps and their kernels -/

namespace MapStm

/-- The map became the kernel by its rule, with the code that the rule puts in front of the
kernel directly before it. -/
def BecameAt (m : MapStm) (site : Code × Kernel) : Prop :=
  ∃ ctx front pruned hoisted start inner,
    Launch m.pat m.f m.inputs ctx front site.2 pruned hoisted start inner ∧ front <:+ site.1

/-- The allocations of the lambda stand directly before the kernel, each made once, for all
threads. -/
def HoistedAt (m : MapStm) (site : Code × Kernel) : Prop :=
  ∃ front, front <:+ site.1 ∧
    front = hoistCode (BlockSizes.scale (.ofList m.f.body.allocations) site.2.threadCount).entries ∧
    ∀ block ∈ m.f.body.allocations.map Prod.fst, ∃ size, (block, size) ∈ m.f.body.allocations ∧
      .allocate block (size.times site.2.threadCount) .global ∈ front

variable {m : MapStm} {site : Code × Kernel}

theorem BecameAt.hoistedAt (h : m.BecameAt site) : m.HoistedAt site := by
  obtain ⟨ctx, front, pruned, hoisted, start, inner, launch, hfront⟩ := h
  obtain ⟨-, rfl, -⟩ := Lambda.extract_eq_ok launch.extract
  refine ⟨front, hfront, launch.front_eq, fun block hblock => ?_⟩
  obtain ⟨size, hsize⟩ := OrderedMap.get?_ofList_of_mem hblock
  refine ⟨size, OrderedMap.mem_of_get?_ofList hsize, ?_⟩
  rw [launch.front_eq, hoistCode, List.mem_flatMap]
  have hentry := Context.mem_of_lookup_eq_some hsize
  refine ⟨(block, size.times site.2.threadCount), ?_, ?_⟩
  · exact List.mem_map.mpr ⟨(block, size), hentry, rfl⟩
  · exact List.mem_cons_of_mem _ (List.mem_cons_self ..)

end MapStm

/-! ## Code with its kernels -/

theorem Code.kernels_hoistCode (blocks : List (Name × Size)) :
    Code.kernels (hoistCode blocks) = [] := by
  induction blocks with
  | nil => rfl
  | cons q blocks ih =>
    rw [hoistCode, List.flatMap_cons, Code.kernels_append]
    exact ih

/-- These maps became the kernels of the code, wherever the code stands; the tags of their
thread indices lie between the two bounds and increase. -/
structure Code.Launched (lo hi : Nat) (maps : List MapStm) (code : Code) : Prop where
  le : lo ≤ hi
  sites : ∀ before, List.Forall₂ MapStm.BecameAt maps (Code.launches before code)
  within : ∀ k ∈ Code.kernels code, lo ≤ k.threadIndex.tag ∧ k.threadIndex.tag < hi
  increasing : (Code.kernels code).Pairwise fun k k' => k.threadIndex.tag < k'.threadIndex.tag

namespace Code.Launched
variable {lo mid hi : Nat} {maps maps' : List MapStm} {code code' : Code}

theorem of_kernels_eq_nil (h : lo ≤ hi) (hcode : Code.kernels code = []) :
    Code.Launched lo hi [] code where
  le := h
  sites before := by
    rw [Code.launches_eq_nil hcode]
    exact .nil
  within := by
    rw [hcode]
    exact List.forall_mem_nil _
  increasing := by
    rw [hcode]
    exact .nil

/-- Two pieces of code, compiled one after the other, whatever is made of them. -/
theorem join {both : Code} (h : Code.Launched lo mid maps code)
    (h' : Code.Launched mid hi maps' code')
    (hkernels : Code.kernels both = Code.kernels code ++ Code.kernels code')
    (hsites : ∀ before, List.Forall₂ MapStm.BecameAt (maps ++ maps') (Code.launches before both)) :
    Code.Launched lo hi (maps ++ maps') both where
  le := h.le.trans h'.le
  sites := hsites
  within := by
    rw [hkernels, List.forall_mem_append]
    constructor
    · intro k hk
      have hbounds := h.within k hk
      exact ⟨hbounds.1, hbounds.2.trans_le h'.le⟩
    · intro k hk
      have hbounds := h'.within k hk
      exact ⟨h.le.trans hbounds.1, hbounds.2⟩
  increasing := by
    rw [hkernels, List.pairwise_append]
    refine ⟨h.increasing, h'.increasing, fun k hk k' hk' => ?_⟩
    exact (h.within k hk).2.trans_le (h'.within k' hk').1

theorem append (h : Code.Launched lo mid maps code) (h' : Code.Launched mid hi maps' code') :
    Code.Launched lo hi (maps ++ maps') (code ++ code') := by
  refine h.join h' (Code.kernels_append ..) fun before => ?_
  rw [Code.launches_append]
  exact List.rel_append (h.sites before) (h'.sites _)

/-- The sides of a branch, of which each is a list of its own. -/
theorem branch (cond : Expr) (h : Code.Launched lo mid maps code)
    (h' : Code.Launched mid hi maps' code') :
    Code.Launched lo hi (maps ++ maps') [.branch cond code code'] := by
  refine h.join h' (List.append_nil _) fun before => ?_
  rw [Code.launches, Code.launches, List.append_nil, Stmt.launches]
  exact List.rel_append (h.sites []) (h'.sites [])

theorem loop (counter : Name) (bound : Expr) (h : Code.Launched lo hi maps code) :
    Code.Launched lo hi maps [.loop counter bound code] where
  le := h.le
  sites before := by
    rw [Code.launches, Code.launches, List.append_nil, Stmt.launches]
    exact h.sites []
  within := by
    rw [Code.kernels, Code.kernels, List.append_nil, Stmt.kernels]
    exact h.within
  increasing := by
    rw [Code.kernels, Code.kernels, List.append_nil, Stmt.kernels]
    exact h.increasing

end Code.Launched

/-! ## Steps -/

namespace Lowering
variable {α β : Type} {maps maps' : List MapStm} {vars made : List Name}

/-- A successful run of the step emits code in which these maps became kernels. -/
def Launches (maps : List MapStm) (x : Lowering α) : Prop :=
  ∀ ⦃ctx a code last⦄, x.run ctx = ⟨.ok a, code, last⟩ →
    Code.Launched ctx.names.next last.names.next maps code

/-- The same of code that is a value. -/
def LaunchesInto (maps : List MapStm) (x : Lowering Code) : Prop :=
  ∀ ⦃ctx a code last⦄, x.run ctx = ⟨.ok a, code, last⟩ →
    code = [] ∧ Code.Launched ctx.names.next last.names.next maps a

namespace Launches

/-- A step whose course has no kernels. -/
theorem of_follows {x : Lowering α} (h : Follows false vars made x) : Launches [] x := by
  intro ctx a code last hrun
  obtain ⟨_, ⟨_, _, hcourse, -, -⟩, hcode⟩ := h ctx
  rw [hrun] at hcourse hcode
  obtain rfl := hcode a rfl
  exact .of_kernels_eq_nil hcourse.evolves.next_le (hcourse.kernels_eq_nil rfl)

theorem bind {x : Lowering α} {f : α → Lowering β} (h : Launches maps x)
    (hf : ∀ a, Launches maps' (f a)) : Launches (maps ++ maps') (x >>= f) := by
  intro ctx b code last hrun
  obtain ⟨a, front, mid, rest, hx, hrest, rfl⟩ := run_bind_eq_ok.mp hrun
  exact (h hx).append (hf a hrest)

/-- In front of a step, one without kernels. -/
theorem after {x : Lowering α} {f : α → Lowering β} (hx : Follows false vars made x)
    (h : ∀ a, Launches maps (f a)) : Launches maps (x >>= f) :=
  (of_follows hx).bind h

/-- Behind a step, one without kernels. -/
theorem before {x : Lowering α} {f : α → Lowering β} (h : Launches maps x)
    (hf : ∀ a, Follows false vars made (f a)) : Launches maps (x >>= f) := by
  have hboth := h.bind fun a => of_follows (hf a)
  rwa [List.append_nil] at hboth

theorem guard {p : Prop} [Decidable p] {e : CompileError} {k : Unit → Lowering β}
    (h : Launches maps (k ())) : Launches maps (if p then fail e >>= k else k ()) :=
  fun _ _ _ _ hrun => h (run_guard_eq_ok.mp hrun).2

theorem collect {x : Lowering Unit} (h : Launches maps x) :
    LaunchesInto maps (Lowering.collect x) := by
  intro ctx a code last hrun
  obtain ⟨hx, rfl⟩ := run_collect_eq_ok.mp hrun
  exact ⟨rfl, h hx⟩

end Launches

namespace LaunchesInto

theorem guard {p : Prop} [Decidable p] {e : CompileError} {k : Unit → Lowering Code}
    (h : LaunchesInto maps (k ())) : LaunchesInto maps (if p then fail e >>= k else k ()) :=
  fun _ _ _ _ hrun => h (run_guard_eq_ok.mp hrun).2

/-- It becomes the body of a loop. -/
theorem loop {x : Lowering Code} (h : LaunchesInto maps x) (counter : Name) (bound : Expr) :
    Launches maps (x >>= fun body => emit (.loop counter bound body)) := by
  intro ctx a code last hrun
  obtain ⟨body, front, mid, rest, hx, hemit, rfl⟩ := run_bind_eq_ok.mp hrun
  obtain ⟨rfl, hbody⟩ := h hx
  cases hemit
  exact hbody.loop counter bound

/-- Two pieces of it become the sides of a branch. -/
theorem branch {x y : Lowering Code} (h : LaunchesInto maps x) (h' : LaunchesInto maps' y)
    (cond : Expr) :
    Launches (maps ++ maps') (x >>= fun yes => y >>= fun no => emit (.branch cond yes no)) := by
  intro ctx a code last hrun
  obtain ⟨yes, front, mid, rest, hx, hrest, rfl⟩ := run_bind_eq_ok.mp hrun
  obtain ⟨rfl, hyes⟩ := h hx
  obtain ⟨no, front, last', rest, hy, hemit, rfl⟩ := run_bind_eq_ok.mp hrest
  obtain ⟨rfl, hno⟩ := h' hy
  cases hemit
  exact hyes.branch cond hno

end LaunchesInto

theorem launchesInto_lowerBranch {stms : Lowering Unit} (dests : List Destination)
    (result : List Operand) (h : Launches maps stms) :
    LaunchesInto maps (lowerBranch dests stms result) := by
  have hassign : Follows false [] [] (assignAll dests result) := follows_assignAll dests result
  unfold lowerBranch
  exact .guard (Launches.collect (h.before fun _ => hassign))

theorem launches_lowerLoop {stms : Lowering Unit} (dests : List Destination)
    (carried : List (Binder × Operand)) (counter : Name) (bound : Operand)
    (result : List Operand) (h : Launches maps stms) :
    Launches maps (lowerLoop dests carried counter bound stms result) := by
  have hstart : Follows false (carried.map (·.1.name)) [] (carried.forM startCarried) :=
    .forM_nil fun q hq => follows_startCarried (List.mem_map_of_mem hq)
  have hcounter : Follows false [counter] [] (bindScalar counter .i64) :=
    follows_bindScalar _ (List.mem_cons_self ..)
  have hassign : ∀ (dests : List Destination) (results : List Operand),
      Follows false [] [] (assignAll dests results) := follows_assignAll
  have hbody := h.before fun _ => (follows_stageAll ((carried.map Prod.fst).zip result)).next
    fun staged => hassign ((carried.map Prod.fst).map Binder.destination) staged
  have hall := (hbody.collect.loop counter (.ofOperand bound)).before fun _ =>
    hassign dests ((carried.map Prod.fst).map (.var ·.name))
  rw [bind_assoc] at hall
  unfold lowerLoop
  exact .guard (.after hstart fun _ => .after hcounter fun _ => hall)

/-- **A map becomes one kernel**, behind its blocks. -/
theorem launches_lowerMapKernel (pat : List Binder) (f : Lambda) (inputs : List Name) :
    Launches [⟨pat, f, inputs⟩] (lowerMapKernel pat f inputs) := by
  intro ctx a code last hrun
  obtain ⟨front, k, pruned, hoisted, start, inner, launch, rfl⟩ := lowerMapKernel_eq_ok hrun
  have hfront : Code.kernels front = [] := by
    rw [launch.front_eq]
    exact Code.kernels_hoistCode _
  have hkernels : Code.kernels (front ++ [.kernel k]) = [k] := by
    rw [Code.kernels_append, hfront]
    rfl
  -- The tag of the thread index is the first one that is drawn.
  have htag : k.threadIndex.tag < last.names.next := by
    have hdraws : Draws ctx.settings.threadIndexBase (Stm.bindings ⟨pat, .map f inputs⟩)
        (ctx.settings.threadIndexBase :: f.body.drawn none) (lowerMapKernel pat f inputs) :=
      draws_lowerMapKernel inputs fun _ hx => hx
    obtain ⟨drawn, -, hspends, hall⟩ := hdraws ctx rfl
    rw [hrun] at hspends hall
    obtain rfl := hall a rfl
    rw [launch.tag_thread, hspends.names, NameSource.next_freshAll, List.length_cons]
    omega
  constructor
  · rw [launch.tag_thread] at htag
    exact htag.le
  · intro before
    rw [Code.launches_append, Code.launches_eq_nil hfront, List.nil_append]
    refine .cons ⟨ctx, front, pruned, hoisted, start, inner, launch, ?_⟩ .nil
    exact List.suffix_append ..
  · rw [hkernels, List.forall_mem_singleton]
    exact ⟨launch.tag_thread.ge, htag⟩
  · rw [hkernels]
    exact List.pairwise_singleton ..

/-- What is compiled the same way without kernels has none. -/
theorem launches_of_alike {pat : List Binder} {e : Exp}
    (h : Exp.lower (some lowerMapKernel) pat e = Exp.lower none pat e) :
    Launches [] (Exp.lower (some lowerMapKernel) pat e) := by
  have hfollows : Follows false (Stm.bindings ⟨pat, e⟩) (Stm.bindings ⟨pat, e⟩)
      (Stm.lower none ⟨pat, e⟩) := follows_lower mapsFollow_none fun _ hx => hx
  rw [h]
  exact .of_follows hfollows

mutual

/-- **Every map of the statements becomes a kernel**, and nothing else does. -/
theorem launches_lowerAll (stms : List Stm) :
    Launches (Stm.mapsAll stms) (Stm.lowerAll (some lowerMapKernel) stms) := by
  match stms with
  | [] =>
    have hnil : Follows false [] [] (pure () : Lowering Unit) := .of_pure ()
    exact .of_follows hnil
  | stm :: stms => exact (launches_lower stm).bind fun _ => launches_lowerAll stms

theorem launches_lower (stm : Stm) :
    Launches stm.maps (stm.lower (some lowerMapKernel)) := by
  match stm with
  | ⟨pat, exp⟩ => exact launches_lowerExp pat exp

theorem launches_lowerExp (pat : List Binder) (e : Exp) :
    Launches (e.maps pat) (Exp.lower (some lowerMapKernel) pat e) := by
  have hdeclare : Follows false (pat.map Binder.name) [] (declarePattern pat) :=
    follows_declarePattern fun _ hx => hx
  match e with
  | .operand _ | .apply .. | .index .. | .update .. | .alloc .. | .scratch .. =>
    exact launches_of_alike rfl
  | .branch cond ⟨yes, yesResult⟩ ⟨no, noResult⟩ =>
    refine .after hdeclare fun dests => ?_
    exact (launchesInto_lowerBranch dests yesResult (launches_lowerAll yes)).branch
      (launchesInto_lowerBranch dests noResult (launches_lowerAll no)) _
  | .loop carried counter bound ⟨stms, result⟩ =>
    exact .after hdeclare fun dests =>
      launches_lowerLoop dests carried counter bound result (launches_lowerAll stms)
  | .map ⟨params, ⟨stms, result⟩, ret⟩ inputs => exact launches_lowerMapKernel pat _ inputs

end

end Lowering

/-! ## Programs -/

variable {b : Body} {ctx : Context} {code : Code}

/-- The code is a program as a host runs it: its kernels are the maps of the body, each with
the blocks of its lambda directly in front of it, and nothing of a host is in a kernel. -/
structure Body.CompiledTo (b : Body) (ctx : Context) (code : Code) : Prop where
  /-- No kernel is left out of the list of places. -/
  kernels : (Code.launches [] code).map Prod.snd = Code.kernels code
  maps : List.Forall₂ MapStm.BecameAt (Stm.mapsAll b.stms) (Code.launches [] code)
  hoisted : List.Forall₂ MapStm.HoistedAt (Stm.mapsAll b.stms) (Code.launches [] code)
  increasing : (Code.kernels code).Pairwise fun k k' => k.threadIndex.tag < k'.threadIndex.tag
  bodies : ∀ k ∈ Code.kernels code, ∀ s ∈ Code.statements k.body, ¬ s.HostOnly
  lambdas : ∀ m ∈ Stm.mapsAll b.stms, ∀ stm ∈ m.f.body.stms,
    stm.allocation?.isSome = true ∨ stm.Avoids .alloc
  /-- The names of the program have to be drawn before those of the compilation. -/
  threadIndex : (∀ x ∈ b.bindings, x.tag < ctx.names.next) →
    ∀ k ∈ Code.kernels code, k.threadIndex ∉ Code.assigned k.body

/-- **The structure of compiled programs.** -/
theorem compile_structure (hok : (b.compile.run ctx).outcome = .ok code) :
    b.CompiledTo ctx code := by
  rcases hrun : b.compile.run ctx with ⟨o, emitted, last⟩
  rw [hrun] at hok
  cases hok
  obtain ⟨hstms, -⟩ := run_collect_eq_ok.mp hrun
  have hlaunched := launches_lowerAll b.stms hstms
  have hmaps := hlaunched.sites []
  -- Every kernel of the code has a place, and so a map that it was made of.
  have hof : ∀ k ∈ Code.kernels code, ∃ m ∈ Stm.mapsAll b.stms, ∃ before,
      m.BecameAt (before, k) := by
    intro k hk
    rw [← Code.map_snd_launches []] at hk
    obtain ⟨⟨before, k⟩, hsite, rfl⟩ := List.mem_map.mp hk
    obtain ⟨m, hm, hbecame⟩ := forall₂_mem_right hmaps hsite
    exact ⟨m, hm, before, hbecame⟩
  constructor
  case kernels => exact Code.map_snd_launches [] code
  case maps => exact hmaps
  case hoisted => exact hmaps.imp fun _ _ => MapStm.BecameAt.hoistedAt
  case increasing => exact hlaunched.increasing
  case bodies =>
    intro k hk
    obtain ⟨m, -, before, _, _, _, _, _, _, launch, -⟩ := hof k hk
    exact launch.body_not_hostOnly
  case lambdas =>
    intro m hm
    obtain ⟨site, -, _, _, _, _, _, _, launch, -⟩ := forall₂_mem_left hmaps hm
    exact launch.avoids_alloc
  case threadIndex =>
    intro htags k hk
    rcases b with ⟨stms, result⟩
    obtain ⟨m, hm, before, at_, _, _, _, _, _, launch, -⟩ := hof k hk
    -- The map was compiled from the start of the program on.
    have hstart : ctx.names.next ≤ at_.names.next := by
      rw [← launch.tag_thread]
      exact (hlaunched.within k hk).1
    refine launch.threadIndex_not_assigned fun x hx => ?_
    exact (htags x (Stm.bindings_of_mem_mapsAll hm x hx)).trans_le hstart

/-- Adds two to every element. -/
def addTwo : Lambda where
  params := [⟨⟨"x", 13⟩, .i64, none⟩]
  body :=
    { stms := [⟨[⟨⟨"y", 14⟩, .i64, none⟩], .apply .add (.var ⟨"x", 13⟩) (.const (.int 2))⟩]
      result := [.var ⟨"y", 14⟩] }
  ret := [.i64]

/-- One side of a branch is a map, and a loop has another one in its body. -/
def inBranchAndLoop : Body where
  stms :=
    [⟨[], .branch (.const (.bool true))
        ⟨[⟨[thirdArray], .map throughCell [⟨"xs", 3⟩]⟩], []⟩ ⟨[], []⟩⟩,
      ⟨[], .loop [] ⟨"i", 11⟩ (.const (.int 3))
        ⟨[⟨[⟨⟨"ys", 12⟩, .array .i64, some (fourIn ⟨"ys_mem", 2⟩)⟩],
          .map addTwo [⟨"xs", 3⟩]⟩], []⟩⟩]
  result := []

theorem compile_structure_inBranchAndLoop :
    ∃ code, (inBranchAndLoop.compile.run (twoArrays 22)).outcome = .ok code ∧
      (Code.kernels code).map Kernel.threadIndex = [⟨"gtid", 22⟩, ⟨"gtid", 23⟩] ∧
      (∀ x ∈ inBranchAndLoop.bindings, x.tag < (twoArrays 22).names.next) ∧
      inBranchAndLoop.CompiledTo (twoArrays 22) code := by
  obtain ⟨code, hok, hkernels⟩ : ∃ code,
      (inBranchAndLoop.compile.run (twoArrays 22)).outcome = .ok code ∧
      (Code.kernels code).map Kernel.threadIndex = [⟨"gtid", 22⟩, ⟨"gtid", 23⟩] := ⟨_, rfl, rfl⟩
  exact ⟨code, hok, hkernels, by decide, compile_structure hok⟩

end KernelGen
