import KernelGen.Compile
import KernelGen.Proofs.Likeness.Contexts
import KernelGen.Proofs.Lowering.Forms
import KernelGen.Proofs.Lowering.Undisturbed

/-! # Compiling in contexts that are alike

From contexts that are alike a program compiles to the same code, up to the names of
thread indices (`Likeness.compile_alike`).  Statements and maps that become loops are
compared as everywhere (`Timetable.lowerAll`); what is left are kernels.  A thread index
is drawn under two names, the arrays in slices are shifted by multiples of it, and the
code of a thread reads and writes at it: `Likeness.timetable` renames them alike.  Between
going to the device and coming back both contexts stay alike, and so both plan the same
transfers. -/
namespace KernelGen
open Lowering Pairing

/-- A thread forgets no name that was there. -/
theorem Lowering.keys_lowerThread (thread : Name) (params : List Binder) (body : Body)
    (inputs : List Name) (dests : List Destination) (ctx : Context) :
    ctx.vars.keys <+: ((lowerThread thread params body inputs dests).run ctx).ctx.vars.keys := by
  have hdraws : Draws ctx.settings.threadIndexBase
      (thread :: (params.map Binder.name ++ Stm.bindingsAll body.stms))
      (Stm.drawnAll none body.stms) (lowerThread thread params body inputs dests) := by
    refine draws_lowerThread inputs dests (List.mem_cons_self ..) (fun b hb => ?_) fun x hx => ?_
    · exact List.mem_cons_of_mem _ (List.mem_append_left _ (List.mem_map_of_mem hb))
    · exact List.mem_cons_of_mem _ (List.mem_append_right _ hx)
  obtain ⟨_, -, hspends, -⟩ := hdraws ctx rfl
  exact hspends.keys

namespace Likeness
variable (L : Likeness)

/-- The thread index of the kernel has its names on the two sides. -/
def Indexed (k : Kernel) : Prop :=
  k.threadIndex.base = L.left.threadIndexBase ∧
    L.rename k.threadIndex = ⟨L.right.threadIndexBase, k.threadIndex.tag⟩

/-- The statement on the right is that on the left, renamed. -/
def Renamed (s s' : Stmt) : Prop := s' = s.rename L.rename ∧ ∀ k ∈ s.kernels, L.Indexed k

/-- If blocks may be made in front of kernels on the left, then also on the right; and the
other way round if failures have to agree. -/
def PermitsHoisting : Prop :=
  (L.left.hoistAllocations → L.right.hoistAllocations) ∧
    (L.strict → L.right.hoistAllocations = L.left.hoistAllocations)

variable {L}

/-- Code is renamed as a whole. -/
theorem code_renamed {code code' : Code} (h : List.Forall₂ L.Renamed code code') :
    code' = Code.rename L.rename code ∧ ∀ k ∈ Code.kernels code, L.Indexed k := by
  induction h with
  | nil => exact ⟨rfl, List.forall_mem_nil _⟩
  | cons hs _ ih =>
    rw [Code.rename, Code.kernels, List.forall_mem_append, ← hs.1, ← ih.1]
    exact ⟨rfl, hs.2, ih.2⟩

theorem rename_ofOperand {a : Operand} (h : ∀ x ∈ a.occurrences, L.Fixes x) :
    (Expr.ofOperand a).rename L.rename = .ofOperand a := Expr.rename_ofOperand h

theorem renamed_read {x : Name} {p : Placement} {indices indices' : List Size} (ty : Ty)
    (space : Space) (hx : L.Fixes x) (hp : L.Places p)
    (hi : indices.map (Size.rename L.rename) = indices') :
    L.Renamed (.read x p.block (p.layout.position indices) ty space)
      (.read x p.block ((p.renameOffset L.rename).layout.position indices') ty space) := by
  refine ⟨?_, List.forall_mem_nil _⟩
  rw [Stmt.rename, hx, L.rename_of_known hp.block, ← hp.position, hi]

theorem renamed_write {p : Placement} {indices indices' : List Size} {a : Operand} (ty : Ty)
    (space : Space) (hp : L.Places p) (hi : indices.map (Size.rename L.rename) = indices')
    (ha : ∀ x ∈ a.occurrences, L.Fixes x) :
    L.Renamed (.write p.block (p.layout.position indices) ty space (.ofOperand a))
      (.write p.block ((p.renameOffset L.rename).layout.position indices') ty space
        (.ofOperand a)) := by
  refine ⟨?_, List.forall_mem_nil _⟩
  rw [Stmt.rename, L.rename_of_known hp.block, ← hp.position, hi, rename_ofOperand ha]

theorem map_rename_of_fixes {indices : List Size}
    (h : ∀ i ∈ indices, ∀ y ∈ i.occurrences, L.Fixes y) :
    indices.map (Size.rename L.rename) = indices := by
  rw [List.map_congr_left (g := id), List.map_id]
  exact fun i hi => Size.rename_eq_self (h i hi)

variable (L)

/-- Compiling in one context beside compiling in the other. -/
def timetable : Timetable where
  context := L.Alike
  stmt := L.Renamed
  strict := L.strict
  roles := {
    scalar := L.Fixes
    array := L.used
    head := L.used
    bound := L.Fixes
    placed := L.Places }
  move := Placement.renameOffset L.rename
  move_block _ := rfl
  move_shape _ := rfl
  move_injective := renameOffset_injective
  names_eq h := h.names
  bind_scalar ty _ h := h.bind nofun nofun
  bind_array ty _ hp h := h.bind (by
    rintro ty' p' he
    cases he
    exact hp) nofun
  entry {c c' x} h hx := by
    have he := h.entries x (L.known_of_used hx)
    rw [he]
    cases hv : c.vars.get? x with
    | none => exact .none
    | some e =>
      cases e with
      | scalar | block => exact .some (by constructor)
      | array ty p => exact .some (.array (h.places x ty p hx hv))
  extent h hx he d hd :=
    (h.places _ _ _ hx he).extents d (List.mem_append_left _ (List.mem_of_mem_head? hd))
  space {c c' p} h hp := by
    rw [h.blockSpace hp.block]
    cases c.blockSpace p.block with
    | error e => exact fun _ => rfl
    | ok s =>
      refine ⟨s, rfl, fun indices ty hi => ⟨fun x hx => ?_, fun a ha => ?_⟩⟩
      · exact renamed_read ty s hx hp (map_rename_of_fixes hi)
      · exact renamed_write ty s hp (map_rename_of_fixes hi) ha
  alloc {pat size} space hpat hsize := by
    refine tracks_lowerAlloc _ (fun h => h.onDevice) (fun b hb => ⟨⟨?_, ?_⟩, ?_, ?_⟩) ?_
    · rw [Stmt.rename, (hpat b hb).1]
    · exact List.forall_mem_nil _
    · rw [Stmt.rename, (hpat b hb).1, Size.rename_eq_self hsize]
    · exact List.forall_mem_nil _
    · intro c c' x h
      refine h.bind (e := .block size space) nofun ?_
      intro size' space' he
      cases he
      exact hsize
  declare_stmt ty hx := ⟨by rw [Stmt.rename, hx], List.forall_mem_nil _⟩
  set_stmt hx ha := ⟨by rw [Stmt.rename, hx, rename_ofOperand ha], List.forall_mem_nil _⟩
  apply_stmt op hx ha hb :=
    ⟨by rw [Stmt.rename, hx, Expr.rename, rename_ofOperand ha, rename_ofOperand hb],
      List.forall_mem_nil _⟩
  branch_stmt ha hyes hno := by
    obtain ⟨rfl, hyes'⟩ := code_renamed hyes
    obtain ⟨rfl, hno'⟩ := code_renamed hno
    exact ⟨by rw [Stmt.rename, rename_ofOperand ha], List.forall_mem_append.mpr ⟨hyes', hno'⟩⟩
  loop_stmt hx ha hbody := by
    obtain ⟨rfl, hbody'⟩ := code_renamed hbody
    exact ⟨by rw [Stmt.rename, hx, rename_ofOperand ha], hbody'⟩
  map_stmt hx hs hbody := by
    obtain ⟨rfl, hbody'⟩ := code_renamed hbody
    exact ⟨by rw [Stmt.rename, hx, Expr.rename_ofSize, Size.rename_eq_self hs], hbody'⟩
  pace n names := names.next = L.first + n
  due n base base' := L.rename ⟨base, L.first + n⟩ = ⟨base', L.first + n⟩
  due_bound {n c c' base} _ hpace hdue := by
    show L.rename ⟨base, c.names.next⟩ = _
    rw [hpace]
    exact hdue
  due_scalar {n c c' base} _ hpace hdue := by
    show L.rename ⟨base, c.names.next⟩ = _
    rw [hpace]
    exact hdue
  draw h := h.draw
  pace_draw h := congrArg (· + 1) h

/-! ## Threads -/

section
variable {n : Nat} {t : Name}

/-- The thread index is bound under its name on each side. -/
theorem tracks_bindThread (t : Name) :
    (L.timetable.after n).Steps (bindScalar t .i64) (bindScalar (L.rename t) .i64) := by
  refine tracks_change ?_
  rintro c c' ⟨h, hpace⟩
  refine ⟨?_, hpace⟩
  by_cases ht : L.rename t = t
  · rw [ht]
    exact h.bind nofun nofun
  · obtain ⟨hleft, hright⟩ := L.known_of_rename ht
    exact h.bind_unknown hleft hright _ _

theorem tracks_blockSpace {p : Placement} (hp : L.Places p) :
    (L.timetable.after n).Tracks (fun space space' => space' = space)
      (ask (·.blockSpace p.block)) (ask (·.blockSpace p.block)) := by
  refine tracks_ask ?_
  rintro c c' ⟨h, -⟩
  rw [h.blockSpace hp.block]
  cases c.blockSpace p.block with
  | error e => exact fun _ => rfl
  | ok space => exact ⟨space, rfl, rfl⟩

theorem tracks_readThreadParam {q : Binder × Name} (hb : L.Fixes q.1.name) (hi : L.used q.2) :
    (L.timetable.after n).Steps (readThreadParam t q) (readThreadParam (L.rename t) q) := by
  rcases q with ⟨param, input⟩
  refine (tracks_ask fun c c' h => (L.timetable.after n).array_answers h hi).bind ?_
  rintro ⟨ty, p⟩ _ ⟨rfl, hp⟩
  refine Leads.guard Iff.rfl _ fun _ => ?_
  refine (L.tracks_blockSpace hp).bind ?_
  rintro _ space rfl
  refine (tracks_emit ((L.timetable.after n).declare_stmt _ hb)).next ?_
  refine (tracks_emit ?_).next ((L.timetable.after n).tracks_bindScalar _ hb)
  exact renamed_read _ space hb hp rfl

theorem tracks_writeThreadResult {d : Destination} {a : Operand}
    (hd : L.timetable.roles.Names d) (ha : ∀ x ∈ a.occurrences, L.used x) :
    (L.timetable.after n).Steps (writeThreadResult t (d, a))
      (writeThreadResult (L.rename t) (d.rewrite (Placement.renameOffset L.rename), a)) := by
  cases d with
  | scalar x => exact tracks_fail _
  | array p ty =>
    have hwrite : (L.timetable.after n).Steps (writeElement p [.var t] ty a)
        (writeElement (p.renameOffset L.rename) [.var (L.rename t)] ty a) := by
      refine (L.tracks_blockSpace hd).bind ?_
      rintro _ space rfl
      exact tracks_emit (renamed_write ty space hd rfl
        fun x hx => fixes_of_known (L.known_of_used (ha x hx)))
    cases a with
    | const c => exact hwrite
    | var x =>
      have htype : (L.timetable.after n).Tracks (fun ty ty' => ty' = ty) (ask (·.type x))
          (ask (·.type x)) := by
        refine tracks_ask ?_
        rintro c c' ⟨h, -⟩
        rw [h.type (L.known_of_used (ha x (List.mem_cons_self ..)))]
        cases c.type x with
        | error e => exact fun _ => rfl
        | ok ty => exact ⟨ty, rfl, rfl⟩
      refine htype.bind ?_
      rintro _ ty' rfl
      exact Leads.guard Iff.rfl _ fun _ => hwrite

/-- **The code of a thread** is the same on both sides, with its index renamed. -/
theorem keeps_lowerThread {params : List Binder} {body : Body} {inputs : List Name}
    {dests : List Destination} (hparams : ∀ b ∈ params, L.Fixes b.name)
    (hbody : Stm.RespectsAll L.timetable.roles body.stms)
    (hresult : ∀ a ∈ body.result, ∀ x ∈ a.occurrences, L.used x)
    (hinputs : ∀ x ∈ inputs, L.used x) (hdests : ∀ d ∈ dests, L.timetable.roles.Names d) :
    L.timetable.KeepsStep (Stm.drawnAll none body.stms) (Stm.drawnAll none body.stms)
      (lowerThread t params body inputs dests)
      (lowerThread (L.rename t) params (body.rewrite (Placement.renameOffset L.rename) id) inputs
        (dests.map (Destination.rewrite (Placement.renameOffset L.rename)))) := by
  rcases body with ⟨stms, result⟩
  have hread : List.Forall₂ (fun q q' : Binder × Name => (L.Fixes q.1.name ∧ L.used q.2) ∧ q' = q)
      (params.zip inputs) (params.zip inputs) := by
    refine List.forall₂_same.mpr fun q hq => ⟨⟨?_, ?_⟩, rfl⟩
    · exact hparams _ (List.of_mem_zip hq).1
    · exact hinputs _ (List.of_mem_zip hq).2
  have hwrite : List.Forall₂ (fun q q' : Destination × Operand =>
      (L.timetable.roles.Names q.1 ∧ ∀ x ∈ q.2.occurrences, L.used x) ∧
        q' = (q.1.rewrite (Placement.renameOffset L.rename), q.2)) (dests.zip result)
      ((dests.map (Destination.rewrite (Placement.renameOffset L.rename))).zip result) := by
    rw [List.zip_map_left, List.forall₂_map_right_iff, List.forall₂_same]
    exact fun q hq => ⟨⟨hdests _ (List.of_mem_zip hq).1, hresult _ (List.of_mem_zip hq).2⟩, rfl⟩
  simp only [Body.rewrite, List.map_id]
  unfold lowerThread
  simp only [List.length_map]
  refine .guard Iff.rfl _ fun _ => .guard Iff.rfl _ fun _ => ?_
  refine .after (fun n => L.tracks_bindThread t) fun _ _ _ => ?_
  refine .after (fun n => tracks_forM (S := (L.timetable.after n).toPairing) hread ?_)
    fun _ _ _ => ?_
  · rintro q _ ⟨⟨hb, hi⟩, rfl⟩
    exact L.tracks_readThreadParam hb hi
  refine (L.timetable.lowerAll .loops hbody).before rfl fun _ _ _ n =>
    tracks_forM (S := (L.timetable.after n).toPairing) hwrite ?_
  rintro ⟨d, a⟩ _ ⟨⟨hd, ha⟩, rfl⟩
  exact L.tracks_writeThreadResult hd ha

end

/-! ## Scopes on the device -/

/-- What is alike inside is alike afterwards. -/
theorem keeps_onDevice {bases bases' : List String} {x y : Lowering Unit}
    (hx : ∀ ctx, ctx.vars.keys <+: (x.run ctx).ctx.vars.keys)
    (hy : ∀ ctx, ctx.vars.keys <+: (y.run ctx).ctx.vars.keys)
    (h : L.timetable.KeepsStep bases bases' x y) :
    L.timetable.Keeps bases bases' L.timetable.code (onDevice (collect x))
      (onDevice (collect y)) := by
  rintro n hdue c c' ⟨hctx, hpace⟩
  have hrun := h.collect n hdue ⟨hctx.enterDevice, hpace⟩
  rw [run_onDevice, run_onDevice]
  cases ho : ((collect x).run c.enterDevice).outcome with
  | error e =>
    rw [ho] at hrun
    exact hrun
  | ok code =>
    rw [ho] at hrun
    obtain ⟨code', ho', hcode, hemitted, hlast, hpace'⟩ := hrun
    refine ⟨code', ho', hcode, hemitted, hctx.leaveDevice hlast ?_ ?_, hpace'⟩
    · rw [ctx_run_collect]
      exact Context.keys_enterDevice.trans (hx _)
    · rw [ctx_run_collect]
      exact Context.keys_enterDevice.trans (hy _)

/-! ## Blocks in front of a kernel -/

theorem tracks_hoist {n : Nat} {blocks : BlockSizes} {threads : Size}
    (hblocks : ∀ q ∈ (blocks.scale threads).entries,
      L.Fixes q.1 ∧ ∀ x ∈ q.2.occurrences, L.Fixes x)
    (h : blocks.keys = [] ∨ L.PermitsHoisting) :
    (L.timetable.after n).Steps (hoist blocks threads) (hoist blocks threads) := by
  have hall : (L.timetable.after n).Steps
      ((blocks.scale threads).entries.forM fun q => allocate q.1 q.2 .global)
      ((blocks.scale threads).entries.forM fun q => allocate q.1 q.2 .global) := by
    refine tracks_forM (R := fun q q' => (L.Fixes q.1 ∧ ∀ x ∈ q.2.occurrences, L.Fixes x) ∧
      q' = q) (List.forall₂_same.mpr fun q hq => ⟨hblocks q hq, rfl⟩) ?_
    rintro ⟨block, size⟩ _ ⟨⟨hblock, hsize⟩, rfl⟩
    have hdeclare : L.Renamed (.declareBlock block .global) (.declareBlock block .global) :=
      ⟨by rw [Stmt.rename, hblock], List.forall_mem_nil _⟩
    have hallocate : L.Renamed (.allocate block size .global) (.allocate block size .global) :=
      ⟨by rw [Stmt.rename, hblock, Size.rename_eq_self hsize], List.forall_mem_nil _⟩
    refine (tracks_emit hdeclare).next ((tracks_emit hallocate).next (tracks_change ?_))
    · rintro c c' ⟨hctx, hpace⟩
      refine ⟨hctx.bind (e := .block size .global) nofun ?_, hpace⟩
      intro size' space' he
      cases he
      exact hsize
  unfold hoist
  split
  next block rest hkeys =>
    obtain ⟨hpermits, hsame⟩ := h.resolve_left (by rw [hkeys]; exact List.cons_ne_nil _ _)
    have hflag : (L.timetable.after n).Tracks
        (fun b b' => b = L.left.hoistAllocations ∧ b' = L.right.hoistAllocations)
        (ask (pure ·.settings.hoistAllocations)) (ask (pure ·.settings.hoistAllocations)) :=
      tracks_ask fun c c' hctx => ⟨_, rfl, by rw [hctx.1.left], by rw [hctx.1.right]⟩
    refine hflag.bind ?_
    rintro _ _ ⟨rfl, rfl⟩
    cases hleft : L.left.hoistAllocations with
    | true =>
      rw [hpermits hleft]
      exact hall
    | false =>
      by_cases hstrict : L.strict
      · rw [hsame hstrict, hleft]
        exact Leads.guard Iff.rfl _ fun _ => hall
      · exact tracks_of_fails hstrict fun _ _ _ => ⟨_, rfl⟩
  next => exact hall

end Likeness

end KernelGen
