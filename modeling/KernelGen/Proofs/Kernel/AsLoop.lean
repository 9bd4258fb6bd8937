import KernelGen.Compile
import KernelGen.Proofs.Code.Rename
import KernelGen.Proofs.Kernel.Threads
import KernelGen.Proofs.Lowering.Forms
import KernelGen.Proofs.Program.Rewriting
import KernelGen.Proofs.Size.Occurrences

/-! # A kernel runs the body of the loop

A map can become a kernel or a loop, and the two are compiled by different functions, in
contexts that differ: one for the device and without the arrays that the map binds, the
other where it stands and with them.  Still the code of a thread is that of one run of
the loop, read with the thread index for the counter and with every block on the device
(`lowerLoops_of_lowerKernels`).

Thread index and counter are drawn at the same moment, so they have the same tag.  All
names of the program have smaller tags and all names drawn later have larger ones; that
tag tells the counter from everything else. -/
namespace KernelGen
open Lowering

/-- The renaming that replaces one name. -/
def Name.replace (old new : Name) : Name → Name := fun x => if x = old then new else x

theorem Name.replace_self (old new : Name) : old.replace new old = new := if_pos rfl

theorem Name.replace_of_tag_ne {old new x : Name} (h : x.tag ≠ old.tag) :
    old.replace new x = x := if_neg fun he => h (by rw [he])

/-- The statement as a thread runs it. -/
def Stmt.onThread (counter thread : Name) (s : Stmt) : Stmt :=
  (s.rename (counter.replace thread)).inSpace .global

/-- The code as a thread runs it: with the thread index for the counter, and all blocks
visible to every thread. -/
def Code.onThread (counter thread : Name) (code : Code) : Code :=
  Code.inSpace .global (Code.rename (counter.replace thread) code)

/-- The contexts of a thread and of the loop.  Tag `tag` is that of thread index and
counter, and `outputs` are the arrays that the map binds; any other name stands for the
same on both sides. -/
structure ThreadContext (tag : Nat) (outputs : List Name) (thread loop : Context) : Prop where
  names : loop.names = thread.names
  onDevice : thread.onDevice = true
  next : tag < thread.names.next
  vars : ∀ x, x.tag ≠ tag → x ∉ outputs →
    thread.vars.get? x = (loop.vars.get? x).map (Entry.inSpace .global)
  others : ∀ x, x.tag = tag ∨ x ∈ outputs → ∀ e, thread.vars.get? x = some e → ∃ ty, e = .scalar ty
  placed : ∀ x ty p, thread.vars.get? x = some (.array ty p) →
    p.block.tag ≠ tag ∧ ∀ y ∈ p.layout.occurrences, y.tag ≠ tag

namespace ThreadContext
variable {tag : Nat} {outputs : List Name} {c c' : Context}

theorem draw (h : ThreadContext tag outputs c c') : ThreadContext tag outputs
    { c with names := ⟨c.names.next + 1⟩ } { c' with names := ⟨c.names.next + 1⟩ } where
  names := rfl
  onDevice := h.onDevice
  next := Nat.lt_succ_of_lt h.next
  vars := h.vars
  others := h.others
  placed := h.placed

/-- Binding another name to an array or a scalar. -/
theorem bind (h : ThreadContext tag outputs c c') {x : Name} {e : Entry} (hx : x.tag ≠ tag)
    (hout : x ∉ outputs) (hspace : e.inSpace .global = e)
    (hp : ∀ ty p, e = .array ty p → p.block.tag ≠ tag ∧ ∀ y ∈ p.layout.occurrences, y.tag ≠ tag) :
    ThreadContext tag outputs (c.bind x e) (c'.bind x e) where
  names := h.names
  onDevice := h.onDevice
  next := h.next
  vars y hy hyo := by
    rw [Context.get?_bind, Context.get?_bind, h.vars y hy hyo]
    split
    · rw [Option.map_some, hspace]
    · rfl
  others y hy e' he := by
    have hne : x ≠ y := by
      rintro rfl
      exact hy.elim hx hout
    rw [Context.get?_bind_of_ne _ hne] at he
    exact h.others y hy e' he
  placed y ty p hy := by
    rw [Context.get?_bind] at hy
    split at hy
    · exact hp ty p (Option.some.inj hy)
    · exact h.placed y ty p hy

/-- A block of the thread's context is a block of the loop's, and in the space of threads. -/
theorem block (h : ThreadContext tag outputs c c') {x : Name} {space : Space}
    (hx : c.blockSpace x = .ok space) :
    space = .global ∧ x.tag ≠ tag ∧ ∃ space', c'.blockSpace x = .ok space' := by
  obtain ⟨size, hb⟩ := Context.blockSpace_eq_ok_iff.mp hx
  have hother : ¬ (x.tag = tag ∨ x ∈ outputs) := by
    intro ho
    obtain ⟨ty, he⟩ := h.others x ho _ hb
    cases he
  rw [not_or] at hother
  have hv := h.vars x hother.1 hother.2
  rw [hb] at hv
  obtain ⟨e, he, hspace⟩ := Option.map_eq_some_iff.mp hv.symm
  cases e with
  | scalar | array => cases hspace
  | block size' space' =>
    cases hspace
    exact ⟨rfl, hother.1, space', Context.blockSpace_eq_ok_iff.mpr ⟨_, he⟩⟩

end ThreadContext

/-! ## Keeping step -/

section
variable {counter thread : Name} {outputs : List Name}

theorem Stmt.read_onThread {x : Name} {p : Placement} (ty : Ty) (space : Space)
    {indices indices' : List Size} (hx : x.tag ≠ counter.tag) (hb : p.block.tag ≠ counter.tag)
    (hp : ∀ y ∈ p.layout.occurrences, y.tag ≠ counter.tag)
    (hi : indices'.map (Size.rename (counter.replace thread)) = indices) :
    Stmt.read x p.block (p.layout.position indices) ty .global =
      Stmt.onThread counter thread (.read x p.block (p.layout.position indices') ty space) := by
  unfold onThread
  rw [rename, inSpace, Name.replace_of_tag_ne hx, Name.replace_of_tag_ne hb,
    Layout.rename_position _ fun y hy => Name.replace_of_tag_ne (hp y hy), hi]

theorem Stmt.write_onThread {a : Operand} {p : Placement} (ty : Ty) (space : Space)
    {indices indices' : List Size} (ha : ∀ y ∈ a.occurrences, y.tag ≠ counter.tag)
    (hb : p.block.tag ≠ counter.tag) (hp : ∀ y ∈ p.layout.occurrences, y.tag ≠ counter.tag)
    (hi : indices'.map (Size.rename (counter.replace thread)) = indices) :
    Stmt.write p.block (p.layout.position indices) ty .global (.ofOperand a) =
      Stmt.onThread counter thread
        (.write p.block (p.layout.position indices') ty space (.ofOperand a)) := by
  unfold onThread
  rw [rename, inSpace, Name.replace_of_tag_ne hb,
    Layout.rename_position _ fun y hy => Name.replace_of_tag_ne (hp y hy), hi,
    Expr.rename_ofOperand fun y hy => Name.replace_of_tag_ne (ha y hy)]

/-- Sizes without the counter are left alone. -/
theorem rename_indices {indices : List Size}
    (h : ∀ i ∈ indices, ∀ y ∈ i.occurrences, y.tag ≠ counter.tag) :
    indices.map (Size.rename (counter.replace thread)) = indices := by
  rw [List.map_congr_left (g := id), List.map_id]
  exact fun i hi => Size.rename_eq_self fun y hy => Name.replace_of_tag_ne (h i hi y hy)

theorem forall₂_onThread_iff {code code' : Code} :
    List.Forall₂ (fun s s' => s = Stmt.onThread counter thread s') code code' ↔
      code = Code.onThread counter thread code' := by
  have hmap : Code.onThread counter thread code' = code'.map (Stmt.onThread counter thread) :=
    Code.inSpace_rename_eq_map ..
  rw [hmap, ← List.forall₂_eq_eq_eq, List.forall₂_map_right_iff]

end

/-- A thread of a kernel beside one run of the loop. -/
def threadBesideLoop (counter thread : Name) (outputs : List Name)
    (hout : ∀ x ∈ outputs, x.tag < counter.tag) : Simulation where
  context := ThreadContext counter.tag outputs
  stmt s s' := s = Stmt.onThread counter thread s'
  strict := False
  roles := {
    scalar := fun x => x.tag ≠ counter.tag
    array := fun x => x.tag ≠ counter.tag ∧ x ∉ outputs
    head := fun x => x.tag ≠ counter.tag ∧ x ∉ outputs
    bound := fun x => x.tag ≠ counter.tag ∧ x ∉ outputs
    placed := fun p => p.block.tag ≠ counter.tag ∧ ∀ y ∈ p.layout.occurrences, y.tag ≠ counter.tag }
  move := id
  move_block _ := rfl
  move_shape _ := rfl
  move_injective _ _ h := h
  names_eq h := h.names
  fresh_bound {c c'} base h := by
    have hnext := h.next
    refine ⟨Nat.ne_of_gt hnext, fun hm => ?_⟩
    have htag := hout _ hm
    exact absurd (Nat.lt_trans hnext htag) (Nat.lt_irrefl _)
  fresh_scalar base h := Nat.ne_of_gt h.next
  draw h := h.draw
  bind_scalar ty hx h := h.bind hx.1 hx.2 rfl nofun
  bind_array ty hx hp h := h.bind hx.1 hx.2 rfl (by
    rintro ty' p' he
    cases he
    exact hp)
  entry {c c' x} h hx := by
    have hv := h.vars x hx.1 hx.2
    cases he : c'.vars.get? x with
    | none =>
      rw [he] at hv
      rw [hv]
      exact .none
    | some e =>
      rw [he] at hv
      rw [hv]
      cases e with
      | scalar | block => exact .some (by constructor)
      | array ty p => exact .some (.array (h.placed x ty p hv))
  extent {c c' x ty p} h hx he d hd y hy :=
    (h.placed x ty p he).2 y (Layout.mem_occurrences_of_mem_shape (List.mem_of_mem_head? hd) hy)
  space {c c' p} h hp := by
    cases hs : c.blockSpace p.block with
    | error e => exact False.elim
    | ok s =>
      obtain ⟨rfl, -, space', hs'⟩ := h.block hs
      refine ⟨space', hs', fun indices ty hi => ⟨fun x hx => ?_, fun a ha => ?_⟩⟩
      · exact Stmt.read_onThread ty space' hx.1 hp.1 hp.2 (rename_indices hi)
      · exact Stmt.write_onThread ty space' ha hp.1 hp.2 (rename_indices hi)
  alloc space _ _ := Pairing.tracks_of_fails id fun _ _ h => lowerAlloc_fails _ _ _ h.onDevice
  declare_stmt ty hx := by
    show _ = Stmt.declareScalar _ _
    rw [Name.replace_of_tag_ne hx.1]
  set_stmt hx ha := by
    show _ = Stmt.set _ _
    rw [Name.replace_of_tag_ne hx.1,
      Expr.rename_ofOperand fun y hy => Name.replace_of_tag_ne (ha y hy)]
  apply_stmt op hx ha hb := by
    show _ = Stmt.set _ (.apply _ _ _)
    rw [Name.replace_of_tag_ne hx.1,
      Expr.rename_ofOperand fun y hy => Name.replace_of_tag_ne (ha y hy),
      Expr.rename_ofOperand fun y hy => Name.replace_of_tag_ne (hb y hy)]
  branch_stmt ha hyes hno := by
    show _ = Stmt.branch _ _ _
    rw [Expr.rename_ofOperand fun y hy => Name.replace_of_tag_ne (ha y hy)]
    congr
    · exact forall₂_onThread_iff.mp hyes
    · exact forall₂_onThread_iff.mp hno
  loop_stmt hx ha hbody := by
    show _ = Stmt.loop _ _ _
    rw [Name.replace_of_tag_ne hx.1,
      Expr.rename_ofOperand fun y hy => Name.replace_of_tag_ne (ha y hy)]
    congr
    exact forall₂_onThread_iff.mp hbody
  map_stmt hx hs hbody := by
    show _ = Stmt.loop _ _ _
    rw [Name.replace_of_tag_ne hx.1, Expr.rename_ofSize,
      Size.rename_eq_self fun y hy => Name.replace_of_tag_ne (hs y hy)]
    congr
    exact forall₂_onThread_iff.mp hbody

section
open Pairing
variable {counter thread : Name} {outputs : List Name} (hout : ∀ x ∈ outputs, x.tag < counter.tag)

/-- The block of an array is on the device for the thread, and a block for the loop. -/
theorem tracks_blockSpace (b : Name) :
    (threadBesideLoop counter thread outputs hout).Tracks (fun space _ => space = .global)
      (ask (·.blockSpace b)) (ask (·.blockSpace b)) := by
  refine tracks_ask fun c c' h => ?_
  cases hs : c.blockSpace b with
  | error e => exact False.elim
  | ok s =>
    obtain ⟨rfl, -, space', hs'⟩ := h.block hs
    exact ⟨space', hs', rfl⟩

theorem rename_index :
    [Size.var counter].map (Size.rename (counter.replace thread)) = [.var thread] := by
  rw [List.map_cons, List.map_nil, Size.rename, Name.replace_self]

/-- Element `thread` is read as the loop reads element `counter`. -/
theorem tracks_readThreadParam {param : Binder} {input : Name} (hty : param.ty.isScalar)
    (hparam : param.name.tag ≠ counter.tag ∧ param.name ∉ outputs)
    (hinput : input.tag ≠ counter.tag) :
    (threadBesideLoop counter thread outputs hout).Steps (readThreadParam thread (param, input))
      (readLoopParam counter (param, input)) := by
  by_cases hin : input ∈ outputs
  · -- An output is no array yet when the thread is compiled.
    refine tracks_of_fails id fun c c' h => ?_
    have hno : ∃ e, c.array input = .error e := by
      cases ha : c.array input with
      | error e => exact ⟨e, rfl⟩
      | ok a =>
        obtain ⟨ty, he⟩ := h.others input (.inr hin) _ (Context.array_eq_ok_iff.mp ha)
        cases he
    obtain ⟨e, he⟩ := hno
    refine ⟨e, ?_⟩
    unfold readThreadParam
    rw [run_bind_of_error (e := e) _ (by rw [run_ask, he])]
  · let S := threadBesideLoop counter thread outputs hout
    refine (tracks_ask fun c c' h => S.array_answers h ⟨hinput, hin⟩).bind ?_
    rintro ⟨ty, p⟩ _ ⟨rfl, hp⟩
    refine tracks_check id _ fun hrank => ?_
    have hloop : ¬ (p.layout.rank ≠ 1 ∨ (!param.ty.isScalar) = true) := by
      simpa [hty] using hrank
    refine Tracks.mono (A := fun _ _ => True) ?_ fun _ _ _ => trivial
    show S.Steps (readParam thread param ty p) (if p.layout.rank ≠ 1 ∨ !param.ty.isScalar
      then fault (.loopInputRank input) >>= fun _ => readParam counter param ty p
      else readParam counter param ty p)
    rw [if_neg hloop]
    refine (tracks_blockSpace hout p.block).bind ?_
    rintro _ space' rfl
    refine (tracks_emit (S.declare_stmt _ hparam)).next ?_
    refine (tracks_emit ?_).next (S.tracks_bindScalar _ hparam)
    exact Stmt.read_onThread _ space' hparam.1 hp.1 hp.2 (rename_index)

/-- Element `thread` is written as the loop writes element `counter`. -/
theorem tracks_writeThreadResult {d : Destination} {a : Operand}
    (hd : ∀ p ty, d = .array p ty →
      p.block.tag ≠ counter.tag ∧ ∀ y ∈ p.layout.occurrences, y.tag ≠ counter.tag)
    (ha : ∀ y ∈ a.occurrences, y.tag ≠ counter.tag) :
    (threadBesideLoop counter thread outputs hout).Steps (writeThreadResult thread (d, a))
      (writeLoopResult counter (d, a)) := by
  let S := threadBesideLoop counter thread outputs hout
  cases d with
  | scalar x => exact tracks_of_fails id fun _ _ _ => ⟨_, rfl⟩
  | array p ty =>
    obtain ⟨hb, hp⟩ := hd p ty rfl
    have hwrite : S.Steps (writeElement p [.var thread] ty a)
        (writeElement p [.var counter] ty a) := by
      refine (tracks_blockSpace hout p.block).bind ?_
      rintro _ space' rfl
      exact tracks_emit (Stmt.write_onThread ty space' ha hb hp rename_index)
    cases a with
    | const c => exact hwrite
    | var x => exact tracks_ask_left id fun _ => tracks_check id _ fun _ => hwrite

variable (counter thread) in
/-- **The code of a thread is that of one run of the loop.** -/
theorem tracks_thread {f : Lambda} {inputs : List Name} {dests : List Destination}
    (hty : ∀ b ∈ f.params, b.ty.isScalar)
    (hf : ∀ x ∈ f.occurrences ++ f.bindings, x.tag ≠ counter.tag ∧ x ∉ outputs)
    (hinputs : ∀ x ∈ inputs, x.tag ≠ counter.tag)
    (hdests : ∀ p ty, .array p ty ∈ dests →
      p.block.tag ≠ counter.tag ∧ ∀ y ∈ p.layout.occurrences, y.tag ≠ counter.tag) :
    (threadBesideLoop counter thread outputs hout).Steps
      (do
        (f.params.zip inputs).forM (readThreadParam thread)
        Stm.lowerAll none f.body.stms
        (dests.zip f.body.result).forM (writeThreadResult thread))
      (do
        (f.params.zip inputs).forM (readLoopParam counter)
        Stm.lowerAll none f.body.stms
        (dests.zip f.body.result).forM (writeLoopResult counter)) := by
  let S := threadBesideLoop counter thread outputs hout
  rw [List.forall_mem_append] at hf
  have hroles : f.Respects S.roles := by
    let N : Name → Prop := fun x => x.tag ≠ counter.tag ∧ x ∉ outputs
    have hnames : f.Respects (.ofNames N N fun _ => True) :=
      Lambda.respects_ofNames hf.1 hf.2 fun _ _ => trivial
    have hinto : (Roles.ofNames N N fun _ => True).Into id S.roles :=
      ⟨fun x h => (h.elim id id : N x).1, fun x h => h.elim id id, fun x h => h.1, fun _ h => h,
        fun p h => ⟨h.1.1, fun y hy => (h.2 y hy).1⟩⟩
    rw [← f.rewrite_id]
    exact hinto.lambda hnames
  have hparams : List.Forall₂ (fun q q' : Binder × Name => (q.1.ty.isScalar ∧
        (q.1.name.tag ≠ counter.tag ∧ q.1.name ∉ outputs) ∧ q.2.tag ≠ counter.tag) ∧ q' = q)
      (f.params.zip inputs) (f.params.zip inputs) := by
    refine List.forall₂_same.mpr fun q hq => ⟨⟨hty _ (List.of_mem_zip hq).1, ?_, ?_⟩, rfl⟩
    · exact hroles.1 _ (List.of_mem_zip hq).1
    · exact hinputs _ (List.of_mem_zip hq).2
  have hresults : List.Forall₂ (fun q q' : Destination × Operand => (q.1 ∈ dests ∧
        S.roles.Reads q.2) ∧ q' = q) (dests.zip f.body.result) (dests.zip f.body.result) := by
    refine List.forall₂_same.mpr fun q hq => ⟨⟨(List.of_mem_zip hq).1, ?_⟩, rfl⟩
    exact hroles.2.2 _ (List.of_mem_zip hq).2
  have hbody : S.Steps (Stm.lowerAll none f.body.stms) (Stm.lowerAll none f.body.stms) := by
    have hlower := S.lowerAll .loops hroles.2.1
    rwa [show S.move = id from rfl, Stm.rewriteAll_id] at hlower
  refine (tracks_forM hparams ?_).next (hbody.next (tracks_forM hresults ?_))
  · rintro ⟨param, input⟩ _ ⟨⟨hs, hb, hi⟩, rfl⟩
    exact tracks_readThreadParam hout hs hb hi
  · rintro ⟨d, a⟩ _ ⟨⟨hd, ha⟩, rfl⟩
    exact tracks_writeThreadResult hout (fun p ty he => hdests p ty (he ▸ hd)) ha

end

/-! ## Nothing to hoist -/

/-- Nothing is taken out of a body without allocations. -/
theorem Lambda.extract_of_no_allocations {f : Lambda} {pruned : Body} {blocks : BlockSizes}
    (h : f.body.allocations = []) (hx : f.extract = .ok ⟨pruned, blocks⟩) :
    pruned = f.body ∧ blocks = .empty := by
  have hkeep : f.body.pruned = f.body := by
    rcases f with ⟨params, ⟨stms, result⟩, ret⟩
    have hall : ∀ stm ∈ stms, stm.allocation? = none := by
      simpa [Body.allocations, List.filterMap_eq_nil_iff] using h
    simp only [Body.pruned, Body.mk.injEq, and_true]
    exact List.filter_eq_self.mpr fun stm hs => by rw [hall stm hs]; rfl
  unfold Lambda.extract at hx
  rw [h] at hx
  simp only [List.findSome?_nil, Except.ok.injEq, Extraction.mk.injEq] at hx
  exact ⟨hx.1.symm.trans hkeep, hx.2.symm⟩

theorem Lowering.hoist_empty (threads : Size) : hoist .empty threads = pure () := rfl

theorem Body.offsetBy_empty (thread : Name) (b : Body) :
    b.offsetBy (BlockSizes.sliceOffsets .empty thread) = b := by
  have hid : (fun p : Placement => p.offsetBy (BlockSizes.sliceOffsets .empty thread)) = id :=
    funext fun _ => rfl
  unfold Body.offsetBy
  rw [hid, Body.rewrite_id]

/-! ## The two compilations of a map -/

section
variable {pat : List Binder} {f : Lambda} {inputs : List Name}

theorem lowerKernels_map :
    lowerKernels [⟨pat, .map f inputs⟩] = lowerMapKernel pat f inputs := by
  rcases f with ⟨params, ⟨stms, result⟩, ret⟩
  exact bind_pure_unit

theorem lowerLoops_map :
    lowerLoops [⟨pat, .map f inputs⟩] = (do
      let dests ← declarePattern pat
      lowerMapLoop dests f.params (Stm.lowerAll none f.body.stms) f.body.result inputs) := by
  rcases f with ⟨params, ⟨stms, result⟩, ret⟩
  exact bind_pure_unit

/-- Where nothing is hoisted, the threads run the code of the body from where the map
stands. -/
theorem Launch.run_thread_of_no_allocations {ctx start inner : Context} {front : Code}
    {k : Kernel} {pruned : Body} {hoisted : BlockSizes}
    (launch : Launch pat f inputs ctx front k pruned hoisted start inner)
    (halloc : f.body.allocations = []) :
    front = [] ∧ k.threadIndex = ⟨ctx.settings.threadIndexBase, ctx.names.next⟩ ∧
      f.params.length = inputs.length ∧ f.body.result.length = pat.length ∧
      run (do
        (f.params.zip inputs).forM (readThreadParam k.threadIndex)
        Stm.lowerAll none f.body.stms
        ((pat.map Binder.destination).zip f.body.result).forM (writeThreadResult k.threadIndex))
        (ctx.launched.enterDevice.bindScalar k.threadIndex .i64) = ⟨.ok (), k.body, inner⟩ := by
  obtain ⟨rfl, rfl⟩ := f.extract_of_no_allocations halloc launch.extract
  have hhoist := launch.hoist
  rw [hoist_empty, run_pure] at hhoist
  cases hhoist
  have hbody := launch.body
  rw [Body.offsetBy_empty] at hbody
  obtain ⟨hlen, hres, hcode⟩ := lowerThread_eq_ok hbody
  rw [List.length_map] at hres
  exact ⟨rfl, launch.thread, hlen, hres, hcode⟩

/-- Arrays are bound without being declared. -/
theorem run_declarePattern (ctx : Context) (h : ∀ b ∈ pat, b.placement.isSome) :
    ∃ last, (declarePattern pat).run ctx = ⟨.ok (pat.map Binder.destination), [], last⟩ ∧
      last.names = ctx.names ∧
      ∀ x, x ∉ pat.map Binder.name → last.vars.get? x = ctx.vars.get? x := by
  have hforM : ∃ last, (pat.forM declare).run ctx = ⟨.ok (), [], last⟩ ∧
      last.names = ctx.names ∧
      ∀ x, x ∉ pat.map Binder.name → last.vars.get? x = ctx.vars.get? x := by
    induction pat generalizing ctx with
    | nil => exact ⟨ctx, rfl, rfl, fun _ _ => rfl⟩
    | cons b pat ih =>
      rw [List.forall_mem_cons] at h
      rcases b with ⟨x, ty, _ | p⟩
      · exact absurd h.1 Bool.false_ne_true
      · obtain ⟨last, hrun, hnames, hvars⟩ := ih (ctx.bindArray x ty p) h.2
        have hone : (declare ⟨x, ty, some p⟩).run ctx = ⟨.ok (), [], ctx.bindArray x ty p⟩ := rfl
        refine ⟨last, ?_, hnames, fun y hy => ?_⟩
        · exact run_bind_eq_ok.mpr ⟨(), [], _, [], hone, hrun, rfl⟩
        · rw [List.map_cons, List.mem_cons, not_or] at hy
          rw [hvars y hy.2]
          exact Context.get?_bind_of_ne _ (Ne.symm hy.1)
  obtain ⟨last, hrun, hrest⟩ := hforM
  exact ⟨last, run_bind_eq_ok.mpr ⟨(), [], last, [], hrun, rfl, rfl⟩, hrest⟩

/-- A map whose inputs fit, and whose body compiles, is a loop. -/
theorem run_lowerMapLoop {dests : List Destination} {params : List Binder} {stms : Lowering Unit}
    {result : List Operand} {count : Size} {body : Code} {ctx last : Context} {counter : Name}
    (hcounter : counter = ⟨"i", ctx.names.next⟩)
    (hwidth : (width inputs .loopInputFlat).run ctx = ⟨.ok count, [], ctx⟩)
    (hparams : params.length = inputs.length) (hresult : result.length = dests.length)
    (hbody : run (do
        (params.zip inputs).forM (readLoopParam counter)
        stms
        (dests.zip result).forM (writeLoopResult counter))
      (ctx.launched.bindScalar counter .i64) = ⟨.ok (), body, last⟩) :
    (lowerMapLoop dests params stms result inputs).run ctx =
      ⟨.ok (), [.loop counter (.ofSize count) body], last⟩ := by
  subst hcounter
  have hguard : ¬ (params.length ≠ inputs.length ∨ result.length ≠ dests.length) := by
    simp [hparams, hresult]
  refine run_bind_eq_ok.mpr ⟨count, [], ctx, _, hwidth, ?_, rfl⟩
  refine run_guard_eq_ok.mpr ⟨hguard, ?_⟩
  refine run_bind_eq_ok.mpr ⟨_, [], _, _, run_fresh "i" ctx, ?_, rfl⟩
  refine run_bind_eq_ok.mpr ⟨(), [], _, _, run_change _ _, ?_, rfl⟩
  exact run_bind_eq_ok.mpr ⟨body, [], last, _, run_collect_of_ok hbody, run_emit _ _, rfl⟩

/-- A map is as wide in a context that knows more. -/
theorem run_width_of_known {flat flat' : Name → Fault} {ctx ctx' : Context} {size : Size}
    (h : (width inputs flat).run ctx = ⟨.ok size, [], ctx⟩)
    (hx : ∀ x, ctx.vars.get? x ≠ none → ctx'.vars.get? x = ctx.vars.get? x) :
    (width inputs flat').run ctx' = ⟨.ok size, [], ctx'⟩ := by
  obtain ⟨-, -, first, hfirst, ty, p, hp, hsize⟩ := run_width h
  cases inputs with
  | nil => cases hfirst
  | cons x rest =>
    cases hfirst
    have hshape : ctx'.shape first = .ok p.layout.shape := by
      refine Context.shape_eq_ok_iff.mpr ⟨ty, p, ?_, rfl⟩
      rw [hx first (by rw [hp]; nofun), hp]
    refine run_bind_eq_ok.mpr ⟨p.layout.shape, [], ctx', [], by rw [run_ask, hshape], ?_, rfl⟩
    cases hs : p.layout.shape with
    | nil =>
      rw [hs] at hsize
      cases hsize
    | cons d ds =>
      rw [hs] at hsize
      cases hsize
      rfl

/-- At the start of the bodies the two contexts belong together. -/
theorem ThreadContext.start {ctx bound : Context}
    (hmentions : ∀ x ∈ ctx.mentioned, x.tag < ctx.names.next) (hnames : bound.names = ctx.names)
    (hvars : ∀ x, x ∉ pat.map Binder.name → bound.vars.get? x = ctx.vars.get? x)
    (hpat : ∀ b ∈ pat, ctx.vars.get? b.name = none) (base base' : String) :
    ThreadContext ctx.names.next (pat.map Binder.name)
      (ctx.launched.enterDevice.bindScalar ⟨base, ctx.names.next⟩ .i64)
      (bound.launched.bindScalar ⟨base', ctx.names.next⟩ .i64) where
  names := by
    show (⟨bound.names.next + 1⟩ : NameSource) = ⟨ctx.names.next + 1⟩
    rw [hnames]
  onDevice := rfl
  next := Nat.lt_succ_self _
  vars x hx hxo := by
    have hne : (⟨base, ctx.names.next⟩ : Name) ≠ x := by
      rintro rfl
      exact hx rfl
    have hne' : (⟨base', ctx.names.next⟩ : Name) ≠ x := by
      rintro rfl
      exact hx rfl
    rw [Context.bindScalar, Context.bindScalar, Context.get?_bind_of_ne _ hne,
      Context.get?_bind_of_ne _ hne', Context.get?_enterDevice]
    exact congrArg _ (hvars x hxo).symm
  others x hx e he := by
    by_cases hthread : (⟨base, ctx.names.next⟩ : Name) = x
    · rw [Context.bindScalar, hthread, Context.get?_bind_self] at he
      exact ⟨_, (Option.some.inj he).symm⟩
    · rw [Context.bindScalar, Context.get?_bind_of_ne _ hthread, Context.get?_enterDevice] at he
      obtain ⟨e', he', -⟩ := Option.map_eq_some_iff.mp he
      rcases hx with hx | hx
      · -- No name of the context has the tag of the thread index.
        have hlt := hmentions x (Context.mem_mentioned_of_get? he')
        rw [hx] at hlt
        exact absurd hlt (Nat.lt_irrefl _)
      · obtain ⟨b, hb, rfl⟩ := List.mem_map.mp hx
        have hnone : ctx.vars.get? b.name = some e' := he'
        rw [hpat b hb] at hnone
        cases hnone
  placed x ty p hx := by
    have hne : (⟨base, ctx.names.next⟩ : Name) ≠ x := by
      rintro rfl
      rw [Context.bindScalar, Context.get?_bind_self] at hx
      cases hx
    rw [Context.bindScalar, Context.get?_bind_of_ne _ hne, Context.get?_enterDevice] at hx
    obtain ⟨e, he, hspace⟩ := Option.map_eq_some_iff.mp hx
    cases e with
    | scalar | block => cases hspace
    | array ty' p' =>
      cases hspace
      have hlt : ∀ y ∈ (Entry.array ty p).occurrences, y.tag < ctx.names.next :=
        fun y hy => hmentions y (Context.mem_mentioned_of_occurrence he hy)
      refine ⟨Nat.ne_of_lt (hlt _ (List.mem_cons_self ..)), fun y hy => ?_⟩
      exact Nat.ne_of_lt (hlt y (List.mem_cons_of_mem _ hy))

end

/-- **The kernel of a map runs the body of its loop.**  The lambda has no allocations of
its own and takes scalars; what the map binds is new; and all names in use have been
drawn.  Then, if the map can become a kernel, it can become a loop, with as many runs as
the kernel has threads, and a thread runs the code of the body. -/
theorem lowerLoops_of_lowerKernels {pat : List Binder} {f : Lambda} {inputs : List Name}
    {ctx : Context} (halloc : f.body.allocations = []) (hparams : ∀ b ∈ f.params, b.ty.isScalar)
    (hpat : ∀ b ∈ pat, ctx.vars.get? b.name = none ∧ b.name ∉ f.occurrences ∧ b.name ∉ f.bindings)
    (hctx : ∀ x ∈ ctx.mentioned, x.tag < ctx.names.next)
    (hnames : ∀ x ∈ Stm.occurrences ⟨pat, .map f inputs⟩ ++ Stm.bindings ⟨pat, .map f inputs⟩,
      x.tag < ctx.names.next)
    (hok : ((lowerKernels [⟨pat, .map f inputs⟩]).run ctx).outcome = .ok ()) :
    ∃ k counter body,
      ((lowerKernels [⟨pat, .map f inputs⟩]).run ctx).emitted = [.kernel k] ∧
      ((lowerLoops [⟨pat, .map f inputs⟩]).run ctx).outcome = .ok () ∧
      ((lowerLoops [⟨pat, .map f inputs⟩]).run ctx).emitted =
        [.loop counter (.ofSize k.threadCount) body] ∧
      k.body = Code.inSpace .global (Code.rename (counter.replace k.threadIndex) body) := by
  rw [lowerKernels_map, lowerLoops_map] at *
  rcases hrun : (lowerMapKernel pat f inputs).run ctx with ⟨o, code, last⟩
  rw [hrun] at hok
  obtain rfl : o = .ok () := hok
  obtain ⟨front, k, pruned, hoisted, start, inner, launch, rfl⟩ := lowerMapKernel_eq_ok hrun
  obtain ⟨rfl, hthread, hlen, hres, hcode⟩ := launch.run_thread_of_no_allocations halloc
  have hplaced : ∀ b ∈ pat, b.placement.isSome := by
    obtain ⟨_, _, _, _, -, hrest, -⟩ := run_bind_eq_ok.mp hcode
    obtain ⟨_, _, _, _, -, hwrites, -⟩ := run_bind_eq_ok.mp hrest
    exact placed_of_writeThreadResults hres hwrites
  obtain ⟨bound, hdeclare, hbnames, hbvars⟩ := run_declarePattern ctx hplaced
  simp only [Stm.occurrences, Exp.occurrences, Stm.bindings, Exp.bindings,
    List.forall_mem_append] at hnames
  obtain ⟨⟨hplaces, hinputs, hfo⟩, hpnames, hfb⟩ := hnames
  have hf : ∀ x ∈ f.occurrences ++ f.bindings,
      x.tag ≠ ctx.names.next ∧ x ∉ pat.map Binder.name := by
    intro x hx
    refine ⟨Nat.ne_of_lt ?_, fun hm => ?_⟩
    · exact (List.mem_append.mp hx).elim (hfo x) (hfb x)
    · obtain ⟨b, hb, rfl⟩ := List.mem_map.mp hm
      exact (List.mem_append.mp hx).elim (hpat b hb).2.1 (hpat b hb).2.2
  have hdests : ∀ p ty, Destination.array p ty ∈ pat.map Binder.destination →
      p.block.tag ≠ ctx.names.next ∧ ∀ y ∈ p.layout.occurrences, y.tag ≠ ctx.names.next := by
    intro p ty hd
    obtain ⟨b, hb, hp⟩ := occurrences_of_destination hd
    have htags : ∀ y ∈ b.occurrences, y.tag < ctx.names.next :=
      fun y hy => hplaces y (List.mem_flatMap.mpr ⟨b, hb, hy⟩)
    rw [hp, List.forall_mem_cons] at htags
    exact ⟨Nat.ne_of_lt htags.1, fun y hy => Nat.ne_of_lt (htags.2 y hy)⟩
  -- The bodies, from contexts that belong together.
  have hsteps := tracks_thread ⟨"i", ctx.names.next⟩ k.threadIndex hpnames hparams hf
    (fun x hx => Nat.ne_of_lt (hinputs x hx)) hdests
    (ThreadContext.start hctx hbnames hbvars (fun b hb => (hpat b hb).1)
      ctx.settings.threadIndexBase "i")
  rw [hthread] at hsteps hcode
  rw [hcode] at hsteps
  obtain ⟨⟨⟩, houtcome, -, hbodies, -⟩ := hsteps
  rcases hbodyrun : run (do
      (f.params.zip inputs).forM (readLoopParam ⟨"i", ctx.names.next⟩)
      Stm.lowerAll none f.body.stms
      ((pat.map Binder.destination).zip f.body.result).forM
        (writeLoopResult ⟨"i", ctx.names.next⟩))
    (bound.launched.bindScalar ⟨"i", ctx.names.next⟩ .i64) with ⟨o, body, after⟩
  rw [hbodyrun] at houtcome hbodies
  obtain rfl : o = .ok () := houtcome
  -- The first input is known before the map is bound, so it is none of its outputs.
  have hwidth : (width inputs .loopInputFlat).run bound = ⟨.ok k.threadCount, [], bound⟩ := by
    refine run_width_of_known launch.width fun x hx => hbvars x fun hm => ?_
    obtain ⟨b, hb, rfl⟩ := List.mem_map.mp hm
    exact hx (hpat b hb).1
  have hloop := run_lowerMapLoop (by rw [hbnames]) hwidth hlen (by rw [hres, List.length_map])
    hbodyrun
  rw [run_bind_of_ok _ hdeclare, hloop]
  refine ⟨k, _, body, rfl, rfl, rfl, ?_⟩
  rw [hthread]
  exact forall₂_onThread_iff.mp hbodies

/-- Three times every element: itself, to which it is added twice. -/
def tripleSum : Lambda where
  params := [⟨⟨"x", 4⟩, .i64, none⟩]
  body := ⟨[⟨[⟨⟨"sum", 5⟩, .i64, none⟩],
      .loop [(⟨⟨"acc", 6⟩, .i64, none⟩, .var ⟨"x", 4⟩)] ⟨"j", 7⟩ (.const (.int 2))
        ⟨[⟨[⟨⟨"next", 8⟩, .i64, none⟩], .apply .add (.var ⟨"acc", 6⟩) (.var ⟨"x", 4⟩)⟩],
          [.var ⟨"next", 8⟩]⟩⟩],
    [.var ⟨"sum", 5⟩]⟩
  ret := [.i64]

/-- Two blocks of four elements, with an array in the first one. -/
def fourElements : Context :=
  (((Context.initial {} ⟨9⟩).bindBlock ⟨"xs_mem", 0⟩ (.const 4) .host).bindBlock
    ⟨"ys_mem", 1⟩ (.const 4) .host).bindArray ⟨"xs", 2⟩ (.array .i64)
      ⟨⟨"xs_mem", 0⟩, .rowMajor [.const 4]⟩

/-- Where the sums go. -/
def sumsBinder : Binder := ⟨⟨"ys", 3⟩, .array .i64, some ⟨⟨"ys_mem", 1⟩, .rowMajor [.const 4]⟩⟩

theorem lowerLoops_of_lowerKernels_sums :
    ((lowerKernels [⟨[sumsBinder], .map tripleSum [⟨"xs", 2⟩]⟩]).run fourElements).outcome =
      .ok () ∧
    ∃ k counter body,
      ((lowerKernels [⟨[sumsBinder], .map tripleSum [⟨"xs", 2⟩]⟩]).run fourElements).emitted =
        [.kernel k] ∧
      ((lowerLoops [⟨[sumsBinder], .map tripleSum [⟨"xs", 2⟩]⟩]).run fourElements).outcome =
        .ok () ∧
      ((lowerLoops [⟨[sumsBinder], .map tripleSum [⟨"xs", 2⟩]⟩]).run fourElements).emitted =
        [.loop counter (.ofSize k.threadCount) body] ∧
      k.body = Code.inSpace .global (Code.rename (counter.replace k.threadIndex) body) := by
  have hok : ((lowerKernels [⟨[sumsBinder], .map tripleSum [⟨"xs", 2⟩]⟩]).run
      fourElements).outcome = .ok () := by rfl
  exact ⟨hok, lowerLoops_of_lowerKernels (by rfl) (by decide) (by decide) (by decide)
    (by decide) hok⟩

end KernelGen
