import KernelGen.Proofs.Likeness.Lowering
import KernelGen.Proofs.Program.Correspondence

/-! # Kernels in contexts that are alike

A thread index is drawn under one name on the left and under another on the right, and
the arrays in slices are shifted by multiples of it: to shift and then to rename is to
shift by the renamed index (`Likeness.rewrite_sliced`).  So the lambda of a map becomes
the same kernel on both sides, up to the name of its thread index
(`Likeness.Admits.keeps_lowerMapKernel`), and with that whole programs become the same code
(`Likeness.compile_alike`). -/
namespace KernelGen
open Lowering Pairing

/-- An entry is found under its key, as no key stands twice. -/
theorem OrderedMap.get?_of_mem_entries {κ α : Type} [DecidableEq κ] {m : OrderedMap κ α}
    {q : κ × α} (h : q ∈ m.entries) : m.get? q.1 = some q.2 := by
  rcases m with ⟨es, hnodup⟩
  show OrderedMap.lookup q.1 es = some q.2
  induction es with
  | nil => cases h
  | cons e es ih =>
    rw [List.map_cons, List.nodup_cons] at hnodup
    rcases List.mem_cons.mp h with rfl | h
    · simp [OrderedMap.lookup]
    · have hne : e.1 ≠ q.1 := fun he => hnodup.1 (he ▸ List.mem_map_of_mem h)
      simp [OrderedMap.lookup, hne, ih hnodup.2 h]

/-- What is left of a lambda names what the lambda names. -/
theorem Lambda.names_pruned {f : Lambda} {pruned : Body} {blocks : BlockSizes}
    (h : f.extract = .ok ⟨pruned, blocks⟩) :
    (∀ x ∈ Stm.occurrencesAll pruned.stms, x ∈ f.occurrences) ∧
      (∀ x ∈ Stm.bindingsAll pruned.stms, x ∈ f.bindings) ∧
      ∀ a ∈ pruned.result, ∀ x ∈ a.occurrences, x ∈ f.occurrences := by
  obtain ⟨rfl, -, -⟩ := extract_eq_ok h
  rcases f with ⟨params, ⟨stms, result⟩, ret⟩
  have hleft : (stms.filter (·.allocation?.isNone)).Sublist stms := List.filter_sublist
  refine ⟨fun x hx => ?_, fun x hx => ?_, fun a ha x hx => ?_⟩
  · have hread := (Stm.occurrencesAll_sublist hleft).subset hx
    exact List.mem_append_right _ (List.mem_append_left _ hread)
  · exact List.mem_append_right _ ((Stm.bindingsAll_sublist hleft).subset hx)
  · have hread : x ∈ result.flatMap Operand.occurrences := List.mem_flatMap.mpr ⟨a, ha, hx⟩
    exact List.mem_append_right _ (List.mem_append_right _ hread)

namespace Likeness
variable {L : Likeness}

/-! ## Slices -/

section
variable {blocks : BlockSizes} {t : Name}
  (hsizes : ∀ {b size}, blocks.get? b = some size → ∀ x ∈ size.occurrences, L.used x)

include hsizes in
/-- An array may live in the slice of a thread whose index may be read. -/
theorem places_offsetBy (ht : L.readable t) {p : Placement} (hblock : L.used p.block)
    (hlayout : ∀ x ∈ p.layout.occurrences, L.used x) :
    L.Places (p.offsetBy (blocks.sliceOffsets t)) := by
  have hp : L.Places p := places_of_used hblock hlayout
  have hslice := Placement.get?_sliceOffsets blocks t p.block
  cases hb : blocks.get? p.block with
  | none =>
    rw [hb, Option.map_none] at hslice
    rwa [Placement.offsetBy_of_none hslice]
  | some size =>
    rw [hb, Option.map_some] at hslice
    rw [Placement.offsetBy_of_some hslice]
    refine ⟨hp.block, hp.extents, fun x hx => ?_⟩
    simp only [Layout.shift, Size.occurrences_plus, List.mem_append] at hx
    rcases hx with hx | hx
    · exact hp.offset x hx
    · rcases Size.mem_occurrences_var_times.2 hx with rfl | hx
      · exact ht
      · exact L.readable_of_known (L.known_of_used (hsizes hb x hx))

include hsizes in
/-- **To shift and then to rename is to shift by the renamed index.** -/
theorem sameOn_slices : Placement.SameOn L.used
    (Placement.renameOffset L.rename ∘ Placement.offsetBy (blocks.sliceOffsets t))
    (Placement.offsetBy (blocks.sliceOffsets (L.rename t))) := by
  intro p _ hlayout
  have hslice := Placement.get?_sliceOffsets blocks t p.block
  have hslice' := Placement.get?_sliceOffsets blocks (L.rename t) p.block
  rw [Function.comp_apply]
  cases hb : blocks.get? p.block with
  | none =>
    rw [hb, Option.map_none] at hslice hslice'
    rw [Placement.offsetBy_of_none hslice, Placement.offsetBy_of_none hslice',
      renameOffset_of_used hlayout]
  | some size =>
    rw [hb, Option.map_some] at hslice hslice'
    have hsize : size.rename L.rename = size :=
      Size.rename_eq_self fun x hx => fixes_of_known (L.known_of_used (hsizes hb x hx))
    have hoffset : p.layout.offset.rename L.rename = p.layout.offset :=
      congrArg (·.layout.offset) (renameOffset_of_used hlayout)
    rw [Placement.offsetBy_of_some hslice, Placement.offsetBy_of_some hslice']
    simp only [Placement.renameOffset, Layout.shift, Size.rename_plus, Size.rename_times, hsize,
      hoffset, Size.rename]

include hsizes in
/-- A body over names of the program, in the slices of a thread. -/
theorem rewrite_sliced {body : Body} (hreads : ∀ x ∈ Stm.occurrencesAll body.stms, L.used x) :
    (body.offsetBy (blocks.sliceOffsets t)).rewrite (Placement.renameOffset L.rename) id =
      body.offsetBy (blocks.sliceOffsets (L.rename t)) := by
  rcases body with ⟨stms, result⟩
  rw [Body.offsetBy, Body.rewrite_comp]
  exact Body.rewrite_congr ((sameOn_slices hsizes).stms hreads)

end

/-- Programs over these names use them as they may be used, wherever their arrays are moved. -/
theorem respectsAll_rewrite {f : Placement → Placement}
    (hf : ∀ p : Placement, L.used p.block → (∀ x ∈ p.layout.occurrences, L.used x) → L.Places (f p))
    {stms : List Stm} (hreads : ∀ x ∈ Stm.occurrencesAll stms, L.used x)
    (hbinds : ∀ x ∈ Stm.bindingsAll stms, L.used x) :
    Stm.RespectsAll L.timetable.roles (Stm.rewriteAll f id stms) := by
  have hnames : Stm.RespectsAll (Roles.ofNames L.used L.used fun _ => True) stms :=
    Stm.respectsAll_ofNames hreads hbinds fun _ _ => trivial
  have hfixes : ∀ x, L.used x → L.Fixes x := fun x hx => fixes_of_known (L.known_of_used hx)
  have hinto : (Roles.ofNames L.used L.used fun _ => True).Into f L.timetable.roles :=
    { scalar := fun x hx => hfixes x (hx.elim id id)
      array := fun x hx => hx.elim id id
      head := fun x hx => hx.1
      bound := hfixes
      placed := fun p hp => hf p hp.1 hp.2 }
  exact hinto.stms hnames

theorem respectsAll_of_used {stms : List Stm} (hreads : ∀ x ∈ Stm.occurrencesAll stms, L.used x)
    (hbinds : ∀ x ∈ Stm.bindingsAll stms, L.used x) :
    Stm.RespectsAll L.timetable.roles stms := by
  have h := respectsAll_rewrite (f := id) (fun p => places_of_used) hreads hbinds
  rwa [Stm.rewriteAll_id] at h

/-! ## A map as a kernel -/

theorem Plans.answers {S : Pairing} {r r' : Except CompileError (List Transfer)}
    (h : L.Plans r r') :
    S.Answers (fun plan plan' => plan' = plan ∧ ∀ t ∈ plan, L.FixesTransfer t) r r' := by
  obtain ⟨hsame, hfixed⟩ := h
  rw [hsame]
  cases hr : r with
  | error e => exact fun _ => rfl
  | ok plan => exact ⟨plan, rfl, rfl, hfixed plan hr⟩

theorem map_rename_of_fixed {plan : List Transfer} (h : ∀ t ∈ plan, L.FixesTransfer t) :
    plan.map (Transfer.rename L.rename) = plan := by
  rw [List.map_congr_left (g := id) h, List.map_id]

/-- The thread index is drawn under its name on each side. -/
theorem keeps_thread :
    L.timetable.Keeps [L.left.threadIndexBase] [L.right.threadIndexBase]
      (fun t t' => t' = L.rename t ∧ L.readable t ∧ t.base = L.left.threadIndexBase ∧
        L.rename t = ⟨L.right.threadIndexBase, t.tag⟩)
      (ask (pure ·.settings.threadIndexBase) >>= fresh)
      (ask (pure ·.settings.threadIndexBase) >>= fresh) := by
  rintro n hdue c c' ⟨hctx, hpace⟩
  have hhere : L.rename ⟨L.left.threadIndexBase, L.first + n⟩ =
      ⟨L.right.threadIndexBase, L.first + n⟩ := hdue 0 _ _ rfl rfl
  have hnext : c.names.next = L.first + n := hpace
  have hask : (ask (pure ·.settings.threadIndexBase)).run c =
      ⟨.ok L.left.threadIndexBase, [], c⟩ := by rw [← hctx.left]; rfl
  have hask' : (ask (pure ·.settings.threadIndexBase)).run c' =
      ⟨.ok L.right.threadIndexBase, [], c'⟩ := by rw [← hctx.right]; rfl
  have hdraw := hctx.draw
  rw [hnext] at hdraw
  rw [run_bind_of_ok _ hask, run_bind_of_ok _ hask', run_fresh, run_fresh, hctx.names, hnext]
  exact ⟨_, rfl, ⟨hhere.symm, L.readable_thread hhere, rfl, hhere⟩, .nil, hdraw, rfl⟩

/-- Placements over names of the program are the same on both sides. -/
theorem sameOn_id : Placement.SameOn L.used (Placement.renameOffset L.rename) id :=
  fun _ _ hlayout => renameOffset_of_used hlayout

theorem binds_of_used {b : Binder} (hb : L.used b.name) (hplace : ∀ x ∈ b.occurrences, L.used x) :
    L.timetable.roles.Binds b := by
  refine ⟨fixes_of_known (L.known_of_used hb), fun p hp => ?_⟩
  simp only [Binder.occurrences, hp, List.forall_mem_cons] at hplace
  exact places_of_used hplace.1 hplace.2

/-- The map is over names of the program, and its blocks may be made in front of its kernel if
it has any. -/
structure Admits (L : Likeness) (m : MapStm) : Prop where
  reads : ∀ x ∈ m.stm.occurrences, L.used x
  binds : ∀ x ∈ m.stm.bindings, L.used x
  hoist : ∀ e, m.f.extract = .ok e → e.blocks.keys = [] ∨ L.PermitsHoisting

namespace Admits
variable {m : MapStm} {pruned : Body} {blocks : BlockSizes} {t : Name}

theorem places (h : L.Admits m) : ∀ x ∈ m.pat.flatMap Binder.occurrences, L.used x :=
  fun x hx => h.reads x (List.mem_append_left _ hx)

theorem inputs (h : L.Admits m) : ∀ x ∈ m.inputs, L.used x :=
  fun x hx => h.reads x (List.mem_append_right _ (List.mem_append_left _ hx))

theorem lambda (h : L.Admits m) : ∀ x ∈ m.f.occurrences, L.used x :=
  fun x hx => h.reads x (List.mem_append_right _ (List.mem_append_right _ hx))

theorem bound (h : L.Admits m) : ∀ x ∈ m.f.bindings, L.used x :=
  fun x hx => h.binds x (List.mem_append_right _ hx)

theorem pattern (h : L.Admits m) : ∀ b ∈ m.pat, L.timetable.roles.Binds b := fun b hb =>
  binds_of_used (h.binds _ (List.mem_append_left _ (List.mem_map_of_mem hb)))
    fun x hx => h.places x (List.mem_flatMap.mpr ⟨b, hb, hx⟩)

theorem params (h : L.Admits m) : ∀ b ∈ m.f.params, L.Fixes b.name := by
  rcases m with ⟨pat, ⟨params, body, ret⟩, inputs⟩
  intro b hb
  exact fixes_of_known (L.known_of_used (h.bound _ (List.mem_append_left _
    (List.mem_map_of_mem hb))))

/-- The pattern is the same on both sides. -/
theorem rewrite_pat (h : L.Admits m) :
    m.pat.map (Binder.rewrite (Placement.renameOffset L.rename)) = m.pat := by
  rw [Binder.map_rewrite_congr (sameOn_id.binders h.places), Binder.map_rewrite_id]

theorem size_used (h : L.Admits m) (hextract : m.f.extract = .ok ⟨pruned, blocks⟩) {b : Name}
    {size : Size} (hb : blocks.get? b = some size) : ∀ x ∈ size.occurrences, L.used x := by
  have hroles : m.f.Respects (Roles.ofNames L.used L.used fun _ => True) :=
    Lambda.respects_ofNames h.lambda h.bound fun _ _ => trivial
  exact fun x hx => (Lambda.scalar_of_get? hroles hextract hb x hx).elim id id

/-- The blocks that are made in front of the kernel are the same on both sides. -/
theorem scaled (h : L.Admits m) (hextract : m.f.extract = .ok ⟨pruned, blocks⟩) {threads : Size}
    (hthreads : ∀ y ∈ threads.occurrences, L.Fixes y) :
    ∀ q ∈ (blocks.scale threads).entries, L.Fixes q.1 ∧ ∀ x ∈ q.2.occurrences, L.Fixes x := by
  have hfixes : ∀ {x}, L.used x → L.Fixes x := fun hx => fixes_of_known (L.known_of_used hx)
  intro q hq
  obtain ⟨⟨b, size⟩, hb, rfl⟩ := List.mem_map.mp hq
  have hkey : b ∈ blocks.keys := List.mem_map_of_mem hb
  refine ⟨hfixes (h.bound b (Lambda.binding_of_mem_keys hextract hkey)), fun x hx => ?_⟩
  rcases List.mem_append.mp ((Size.occurrences_times_sublist size threads).subset hx) with hx | hx
  · exact hfixes (h.size_used hextract (OrderedMap.get?_of_mem_entries hb) x hx)
  · exact hthreads x hx

/-- The code of a thread keeps step, in the slices of its thread on each side. -/
theorem keeps_sliced (h : L.Admits m) (hextract : m.f.extract = .ok ⟨pruned, blocks⟩)
    (ht : L.readable t) :
    L.timetable.KeepsStep (m.f.body.drawn none) (m.f.body.drawn none)
      (lowerThread t m.f.params (pruned.offsetBy (blocks.sliceOffsets t)) m.inputs
        (m.pat.map Binder.destination))
      (lowerThread (L.rename t) m.f.params (pruned.offsetBy (blocks.sliceOffsets (L.rename t)))
        m.inputs (m.pat.map Binder.destination)) := by
  obtain ⟨hreads, hbinds, hresult⟩ := Lambda.names_pruned hextract
  have hread : ∀ x ∈ Stm.occurrencesAll pruned.stms, L.used x :=
    fun x hx => h.lambda x (hreads x hx)
  have hrespects : Stm.RespectsAll L.timetable.roles
      (pruned.offsetBy (blocks.sliceOffsets t)).stms := by
    rcases pruned with ⟨stms, result⟩
    exact respectsAll_rewrite (fun p => places_offsetBy (h.size_used hextract) ht) hread
      fun x hx => h.bound x (hbinds x hx)
  have hresults : ∀ a ∈ (pruned.offsetBy (blocks.sliceOffsets t)).result,
      ∀ x ∈ a.occurrences, L.used x := by
    rcases pruned with ⟨stms, result⟩
    simp only [Body.offsetBy, Body.rewrite, List.map_id]
    exact fun a ha x hx => h.lambda x (hresult a ha x hx)
  have hthread := L.keeps_lowerThread (t := t) h.params hrespects hresults h.inputs
    (Roles.names_of_binds h.pattern)
  rwa [Lambda.drawnAll_sliced hextract, rewrite_sliced (h.size_used hextract) hread,
    ← map_destination_rewrite, h.rewrite_pat] at hthread

/-- Around the code of a thread the same transfers are planned on both sides, and then the
pattern is bound. -/
theorem tracks_launch (h : L.Admits m) {threads : Size} {code : Code} (n : Nat)
    (hthreads : ∀ y ∈ threads.occurrences, L.Fixes y) (hbase : t.base = L.left.threadIndexBase)
    (hindex : L.rename t = ⟨L.right.threadIndexBase, t.tag⟩) :
    (L.timetable.after n).Steps
      (do
        let copyIn ← ask (·.copyIn m.f m.inputs)
        let copyOut ← ask (·.copyOut (m.pat.map Binder.destination))
        emit (.kernel ⟨t, threads, copyIn, copyOut, code⟩)
        m.pat.forM bindBinder)
      (do
        let copyIn ← ask (·.copyIn m.f m.inputs)
        let copyOut ← ask (·.copyOut (m.pat.map Binder.destination))
        emit (.kernel ⟨L.rename t, threads, copyIn, copyOut, Code.rename L.rename code⟩)
        m.pat.forM bindBinder) := by
  have hdests : ∀ p ty, .array p ty ∈ m.pat.map Binder.destination → L.known p.block :=
    fun p ty hd => (Roles.names_of_binds h.pattern _ hd).block
  refine (tracks_ask fun c c' hc => (hc.1.copyIn h.lambda h.inputs).answers).bind ?_
  rintro _ copyIn ⟨rfl, hin⟩
  refine (tracks_ask fun c c' hc => (hc.1.copyOut hdests).answers).bind ?_
  rintro _ copyOut ⟨rfl, hout⟩
  have hkernel : L.Renamed (.kernel ⟨t, threads, copyIn, copyOut, code⟩)
      (.kernel ⟨L.rename t, threads, copyIn, copyOut, Code.rename L.rename code⟩) := by
    refine ⟨?_, List.forall_mem_singleton.mpr ⟨hbase, hindex⟩⟩
    rw [Stmt.rename, Kernel.rename, Size.rename_eq_self hthreads, map_rename_of_fixed hin,
      map_rename_of_fixed hout]
  have hbinders : List.Forall₂ (fun b b' => L.timetable.roles.Binds b ∧
      b' = b.rewrite (Placement.renameOffset L.rename)) m.pat
      (m.pat.map (Binder.rewrite (Placement.renameOffset L.rename))) := by
    rw [List.forall₂_map_right_iff, List.forall₂_same]
    exact fun b hb => ⟨h.pattern b hb, rfl⟩
  rw [h.rewrite_pat] at hbinders
  refine (tracks_emit hkernel).next (tracks_forM hbinders ?_)
  rintro b _ ⟨hb, rfl⟩
  exact (L.timetable.after n).tracks_bindBinder hb

/-- **The kernel of a map** over names of the program is the same on both sides, with its
thread index renamed. -/
theorem keeps_lowerMapKernel (h : L.Admits m) :
    L.timetable.KeepsStep (L.left.threadIndexBase :: m.f.body.drawn none)
      (L.right.threadIndexBase :: m.f.body.drawn none) (lowerMapKernel m.pat m.f m.inputs)
      (lowerMapKernel m.pat m.f m.inputs) := by
  unfold lowerMapKernel
  refine .after (A := fun s s' => s' = s ∧ ∀ y ∈ s.occurrences, L.Fixes y)
    (fun n => (L.timetable.after n).tracks_width _ h.inputs
      fun x hx => h.inputs x (List.mem_of_mem_head? hx)) ?_
  rintro _ threads ⟨rfl, hthreads⟩
  refine .after (fun n => tracks_known m.f.extract) ?_
  rintro ⟨pruned, blocks⟩ _ ⟨rfl, hextract⟩
  refine .after (fun n => L.tracks_hoist (h.scaled hextract hthreads) (h.hoist _ hextract))
    fun _ _ _ => ?_
  rw [← bind_assoc]
  refine keeps_thread.bind rfl ?_
  rintro t _ ⟨rfl, ht, hbase, hindex⟩
  refine (L.keeps_onDevice (fun _ => keys_lowerThread ..) (fun _ => keys_lowerThread ..)
    (h.keeps_sliced hextract ht)).before rfl ?_
  intro code code' hcode n
  obtain ⟨rfl, -⟩ := code_renamed hcode
  exact h.tracks_launch n hthreads hbase hindex

end Admits

/-! ## Programs -/

/-- Such maps keep step where they become kernels. -/
theorem maps_lowerMapKernel {maps : List MapStm} (h : ∀ m ∈ maps, L.Admits m) :
    L.timetable.Maps maps (some L.left.threadIndexBase) (some L.right.threadIndexBase)
      (some lowerMapKernel) (some lowerMapKernel) := by
  refine .chosen fun m hm _ _ _ _ => ?_
  have hmove : L.timetable.move = Placement.renameOffset L.rename := rfl
  rw [hmove, (h m hm).rewrite_pat, Lambda.rewrite_congr (sameOn_id.lambda (h m hm).lambda),
    Lambda.rewrite_id]
  exact (h m hm).keeps_lowerMapKernel

/-- **From contexts that are alike, a program is compiled alike**: with names drawn on time,
if blocks may be made in front of the kernels that need them. -/
theorem compile_alike {b : Body} {c c' : Context} (halike : L.Alike c c') {n : Nat}
    (hpace : c.names.next = L.first + n)
    (hdue : L.timetable.Due n (Stm.drawnAll (some L.left.threadIndexBase) b.stms)
      (Stm.drawnAll (some L.right.threadIndexBase) b.stms))
    (hreads : ∀ x ∈ Stm.occurrencesAll b.stms, L.used x)
    (hbinds : ∀ x ∈ Stm.bindingsAll b.stms, L.used x)
    (hhoist : ∀ m ∈ Stm.mapsAll b.stms, ∀ e, m.f.extract = .ok e →
      e.blocks.keys = [] ∨ L.PermitsHoisting) :
    L.timetable.Answers (fun code code' => code' = Code.rename L.rename code ∧
      ∀ k ∈ Code.kernels code, L.Indexed k)
      (b.compile.run c).outcome (b.compile.run c').outcome := by
  have hadmits : ∀ m ∈ Stm.mapsAll b.stms, L.Admits m := by
    intro m hm
    obtain ⟨hmreads, hmbinds⟩ := Stm.names_of_mem_mapsAll hm
    exact ⟨fun x hx => hreads x (hmreads x hx), fun x hx => hbinds x (hmbinds x hx), hhoist m hm⟩
  have hkeeps := (L.timetable.lowerAll (maps_lowerMapKernel hadmits)
    (respectsAll_of_used hreads hbinds)).collect n hdue ⟨halike, hpace⟩
  have hmove : L.timetable.move = Placement.renameOffset L.rename := rfl
  rw [hmove, Stm.rewriteAll_congr (sameOn_id.stms hreads), Stm.rewriteAll_id] at hkeeps
  unfold Body.compile lowerKernels
  cases ho : ((collect (Stm.lowerAll (some lowerMapKernel) b.stms)).run c).outcome with
  | error e =>
    rw [ho] at hkeeps
    exact hkeeps
  | ok code =>
    rw [ho] at hkeeps
    obtain ⟨code', hcode', hrenamed, -⟩ := hkeeps
    exact ⟨code', hcode', code_renamed hrenamed⟩

end Likeness

end KernelGen
