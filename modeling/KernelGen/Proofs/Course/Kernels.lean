import KernelGen.Compile
import KernelGen.Proofs.Course.Statements
import KernelGen.Proofs.Kernel.Launch
import KernelGen.Proofs.Program.Bindings

/-! # The course of a kernel

The code of a thread follows a course in which there are no kernels; it is compiled
between going to the device and coming back, and stands in the course of the map as one
kernel, even where the transfers cannot be planned afterwards (`follows_launch`).  With
the blocks made in front this is the course of a map (`follows_lowerMapKernel`), and so
whole programs follow one, with kernels (`follows_lowerKernels`) and without
(`follows_lowerLoops`). -/
namespace KernelGen.Lowering
variable {kernels : Bool} {vars made : List Name}

/-! ## Threads -/

theorem follows_readThreadParam (thread : Name) {q : Binder × Name} (hq : q.1.name ∈ vars) :
    Follows kernels vars made (readThreadParam thread q) := by
  refine (Follows.of_ask _).next ?_
  rintro ⟨ty, p⟩
  exact .guard (follows_readParam thread ty p hq)

theorem follows_writeThreadResult (thread : Name) (q : Destination × Operand) :
    Follows kernels vars made (writeThreadResult thread q) := by
  rcases q with ⟨x | ⟨p, ty⟩, c | x⟩
  · exact .of_fail _
  · exact .of_fail _
  · exact follows_writeElement p _ ty _
  · exact (Follows.of_ask _).next fun ty' => .guard (follows_writeElement p _ ty _)

/-- The code of a thread binds the thread index, the parameters and what the body binds. -/
theorem follows_lowerThread {thread : Name} {params : List Binder} {body : Body}
    (inputs : List Name) (dests : List Destination) (hthread : thread ∈ vars)
    (hparams : ∀ b ∈ params, b.name ∈ vars) (hbody : ∀ x ∈ Stm.bindingsAll body.stms, x ∈ vars) :
    Follows kernels vars (Stm.bindingsAll body.stms)
      (lowerThread thread params body inputs dests) := by
  refine .guard (.guard ((follows_bindScalar _ hthread).next fun _ => ?_))
  have hread : Follows kernels vars [] ((params.zip inputs).forM (readThreadParam thread)) :=
    .forM_nil fun q hq => follows_readThreadParam thread (hparams _ (List.of_mem_zip hq).1)
  have hwrite : Follows kernels vars []
      ((dests.zip body.result).forM (writeThreadResult thread)) :=
    .forM_nil fun q _ => follows_writeThreadResult thread q
  have hstms : Follows kernels vars (Stm.bindingsAll body.stms) (Stm.lowerAll none body.stms) :=
    follows_lowerAll mapsFollow_none hbody
  have hall := hread.next fun _ => hstms.bind fun _ => hwrite
  rwa [List.append_nil] at hall

/-! ## Maps -/

theorem follows_allocate {block : Name} (size : Size) (hblock : block ∈ vars) :
    Follows true vars [block] (allocate block size .global) := by
  intro ctx
  refine ⟨_, ⟨[block], [(block, .global)], .make (fun _ => rfl) block size .global, ?_,
    List.Sublist.refl _⟩, fun _ _ => rfl⟩
  intro x hx
  obtain rfl := List.mem_singleton.mp hx
  exact .inl hblock

theorem follows_allocateAll {blocks : List (Name × Size)}
    (hblocks : ∀ x ∈ blocks.map Prod.fst, x ∈ vars) :
    Follows true vars (blocks.map Prod.fst)
      (blocks.forM fun (block, size) => allocate block size .global) := by
  have hone : ∀ q ∈ blocks, Follows true vars [q.1] (allocate q.1 q.2 .global) :=
    fun q hq => follows_allocate q.2 (hblocks _ (List.mem_map_of_mem hq))
  have hall := Follows.forM (fun q : Name × Size => [q.1]) hone
  rwa [← List.map_eq_flatMap] at hall

theorem follows_hoist {blocks : BlockSizes} (threads : Size)
    (hblocks : ∀ x ∈ blocks.keys, x ∈ vars) :
    Follows true vars blocks.keys (hoist blocks threads) := by
  rw [← map_fst_scale blocks threads] at hblocks ⊢
  unfold hoist
  split
  · exact (Follows.of_ask _).next fun _ => .guard (follows_allocateAll hblocks)
  · exact follows_allocateAll hblocks

/-- **A launch**: whatever the code of a thread does on the device, from outside it is one
kernel, also if nothing comes of it. -/
theorem follows_launch {x : Lowering Unit} {f : Code → Lowering Unit}
    (hx : Follows false vars made x)
    (hf : ∀ body ctx,
      (∃ k : Kernel, k.body = body ∧ (f body).run ctx = ⟨.ok (), [.kernel k], ctx⟩) ∨
        ∃ e, (f body).run ctx = ⟨.error e, [], ctx⟩) :
    Follows true vars [] (onDevice (collect x) >>= f) := by
  intro ctx
  obtain ⟨code, ⟨xs, bs, hcourse, hxs, -⟩, hcode⟩ := hx ctx.enterDevice
  have hkernel : ∀ k : Kernel, k.body = code →
      Passes true vars [] ctx [.kernel k] (ctx.leaveDevice (x.run ctx.enterDevice).ctx) := by
    rintro k rfl
    exact ⟨xs, [], .kernel hcourse, hxs, List.Sublist.refl _⟩
  rcases run_onDevice_collect x ctx with ⟨body, hrun, hdevice⟩ | ⟨e, hdevice⟩
  · obtain rfl : body = code := by
      rw [hrun] at hcode
      exact hcode () rfl
    rw [run_bind_of_ok f hdevice]
    rcases hf body (ctx.leaveDevice (x.run ctx.enterDevice).ctx) with ⟨k, hk, hrest⟩ | ⟨e, hrest⟩
    · rw [hrest]
      exact ⟨_, hkernel k hk, fun _ _ => rfl⟩
    · rw [hrest]
      exact ⟨_, hkernel ⟨⟨"", 0⟩, default, [], [], body⟩ rfl, nofun⟩
  · rw [run_bind_of_error f hdevice]
    exact ⟨_, hkernel ⟨⟨"", 0⟩, default, [], [], code⟩ rfl, nofun⟩

/-- **A map that is to become a kernel** binds what its statement binds, and makes the blocks
that are taken out of its lambda. -/
theorem follows_lowerMapKernel {pat : List Binder} {f : Lambda} (inputs : List Name)
    (hvars : ∀ x ∈ Stm.bindings ⟨pat, .map f inputs⟩, x ∈ vars) :
    Follows true vars (Stm.bindings ⟨pat, .map f inputs⟩) (lowerMapKernel pat f inputs) := by
  have hlambda : f.body.bindings.Sublist f.bindings := by
    rcases f with ⟨params, body, ret⟩
    exact List.sublist_append_right ..
  have hparams : ∀ b ∈ f.params, b.name ∈ f.bindings := by
    rcases f with ⟨params, body, ret⟩
    exact fun b hb => List.mem_append.mpr (.inl (List.mem_map_of_mem hb))
  have hpat : ∀ b ∈ pat, b.name ∈ vars :=
    fun b hb => hvars _ (List.mem_append.mpr (.inl (List.mem_map_of_mem hb)))
  have hf : ∀ x ∈ f.bindings, x ∈ vars := fun x hx => hvars x (List.mem_append.mpr (.inr hx))
  refine (follows_width inputs _).next fun threads => Follows.ask_bind fun ctx a hextract => ?_
  rcases a with ⟨pruned, blocks⟩
  have hkeys := (Lambda.keys_sublist hextract).trans hlambda
  have hmade : (blocks.keys ++ []).Sublist (Stm.bindings ⟨pat, .map f inputs⟩) := by
    rw [List.append_nil]
    exact hkeys.trans (List.sublist_append_right ..)
  refine Follows.mono ?_ hmade
  refine (follows_hoist threads fun x hx => hf x (hkeys.subset hx)).bind fun _ => ?_
  refine (Follows.of_ask _).next fun base => Follows.fresh base fun thread => ?_
  have hbody : ∀ x ∈ Stm.bindingsAll (pruned.offsetBy (blocks.sliceOffsets thread)).stms,
      x ∈ thread :: vars := by
    intro x hx
    have hbound := Lambda.bindingsAll_sliced_sublist hextract (blocks.sliceOffsets thread)
    exact List.mem_cons_of_mem _ (hf x (hlambda.subset (hbound.subset hx)))
  have hthread : Follows false (thread :: vars) _ (lowerThread thread f.params
      (pruned.offsetBy (blocks.sliceOffsets thread)) inputs (pat.map Binder.destination)) :=
    follows_lowerThread inputs _ (List.mem_cons_self ..)
      (fun b hb => List.mem_cons_of_mem _ (hf _ (hparams b hb))) hbody
  have hbind : Follows true (thread :: vars) [] (pat.forM bindBinder) :=
    .forM_nil fun b hb => follows_bindBinder (List.mem_cons_of_mem _ (hpat b hb))
  have hlaunch : Follows true (thread :: vars) []
      (onDevice (collect (lowerThread thread f.params
        (pruned.offsetBy (blocks.sliceOffsets thread)) inputs (pat.map Binder.destination))) >>=
          fun code => do
            let copyIn ← ask (·.copyIn f inputs)
            let copyOut ← ask (·.copyOut (pat.map Binder.destination))
            emit (.kernel ⟨thread, threads, copyIn, copyOut, code⟩)) := by
    refine follows_launch hthread fun code ctx => ?_
    exact (run_plan f inputs (pat.map Binder.destination) thread threads code ctx).imp_left
      fun ⟨k, _, hbody, hrun⟩ => ⟨k, hbody, hrun⟩
  have hall := hlaunch.next fun _ => hbind
  simp only [bind_assoc] at hall
  exact hall

theorem mapsFollow_lowerMapKernel : MapsFollow true (some lowerMapKernel) := by
  intro m hm vars pat f inputs hvars
  cases hm
  exact follows_lowerMapKernel inputs hvars

/-! ## Programs -/

/-- Statements without kernels. -/
theorem follows_lowerLoops {stms : List Stm} (hvars : ∀ x ∈ Stm.bindingsAll stms, x ∈ vars) :
    Follows kernels vars (Stm.bindingsAll stms) (lowerLoops stms) :=
  follows_lowerAll mapsFollow_none hvars

/-- Statements with kernels. -/
theorem follows_lowerKernels {stms : List Stm} (hvars : ∀ x ∈ Stm.bindingsAll stms, x ∈ vars) :
    Follows true vars (Stm.bindingsAll stms) (lowerKernels stms) :=
  follows_lowerAll mapsFollow_lowerMapKernel hvars

end KernelGen.Lowering
