import KernelGen.Proofs.Kernel.Hoisting

/-! # Scratch arrays

A scratch array has unspecified elements and is made by its binder alone, which says where
it lives (`Stm.ScratchPlaced`).  A scratch binder without a placement is a scalar that
nothing ever assigns; programs have none.  Moving arrays keeps them placed
(`Lambda.scratchPlaced_sliced`). -/
namespace KernelGen

mutual

/-- The binders of scratch arrays in statements, at any depth, in order. -/
def Stm.scratchedAll : List Stm → List Binder
  | [] => []
  | stm :: stms => stm.scratched ++ Stm.scratchedAll stms

/-- The binders of scratch arrays in a statement. -/
def Stm.scratched : Stm → List Binder
  | ⟨pat, exp⟩ => exp.scratched pat

/-- The binders of scratch arrays, for an expression that is bound by a pattern. -/
def Exp.scratched (pat : List Binder) : Exp → List Binder
  | .scratch .. => pat
  | .operand _ | .apply .. | .index .. | .update .. | .alloc .. => []
  | .branch _ ⟨yes, _⟩ ⟨no, _⟩ => Stm.scratchedAll yes ++ Stm.scratchedAll no
  | .loop _ _ _ ⟨stms, _⟩ => Stm.scratchedAll stms
  | .map ⟨_, ⟨stms, _⟩, _⟩ _ => Stm.scratchedAll stms

end

section
variable (f : Placement → Placement) (g : Operand → Operand)

mutual

theorem Stm.scratchedAll_rewrite (stms : List Stm) :
    Stm.scratchedAll (Stm.rewriteAll f g stms) =
      (Stm.scratchedAll stms).map (Binder.rewrite f) := by
  match stms with
  | [] => rfl
  | stm :: stms =>
    rw [Stm.rewriteAll, Stm.scratchedAll, Stm.scratchedAll, List.map_append,
      Stm.scratched_rewrite stm, Stm.scratchedAll_rewrite stms]

theorem Stm.scratched_rewrite (stm : Stm) :
    (stm.rewrite f g).scratched = stm.scratched.map (Binder.rewrite f) := by
  match stm with
  | ⟨pat, exp⟩ => exact Exp.scratched_rewrite pat exp

theorem Exp.scratched_rewrite (pat : List Binder) (e : Exp) :
    (e.rewrite f g).scratched (pat.map (Binder.rewrite f)) =
      (e.scratched pat).map (Binder.rewrite f) := by
  match e with
  | .operand _ | .apply .. | .index .. | .update .. | .alloc .. | .scratch .. => rfl
  | .branch cond ⟨yes, _⟩ ⟨no, _⟩ =>
    simp only [Exp.rewrite, Body.rewrite, Exp.scratched, List.map_append,
      Stm.scratchedAll_rewrite yes, Stm.scratchedAll_rewrite no]
  | .loop carried counter bound ⟨stms, _⟩ =>
    simp only [Exp.rewrite, Body.rewrite, Exp.scratched, Stm.scratchedAll_rewrite stms]
  | .map ⟨params, ⟨stms, result⟩, ret⟩ inputs =>
    simp only [Exp.rewrite, Lambda.rewrite, Body.rewrite, Exp.scratched,
      Stm.scratchedAll_rewrite stms]

end

end

/-- Fewer statements have fewer scratch arrays. -/
theorem Stm.scratchedAll_sublist {stms stms' : List Stm} (h : stms'.Sublist stms) :
    (Stm.scratchedAll stms').Sublist (Stm.scratchedAll stms) := by
  induction h with
  | slnil => exact List.Sublist.refl _
  | cons stm _ ih => exact ih.trans (List.sublist_append_right ..)
  | cons_cons stm _ ih => exact (List.Sublist.refl _).append ih

/-- Every scratch array in the statements has been placed. -/
def Stm.ScratchPlaced (stms : List Stm) : Prop :=
  ∀ b ∈ Stm.scratchedAll stms, b.placement.isSome = true

instance (stms : List Stm) : Decidable (Stm.ScratchPlaced stms) :=
  inferInstanceAs (Decidable (∀ b ∈ Stm.scratchedAll stms, b.placement.isSome = true))

/-- What is left of a lambda has its scratch arrays in the slices of the threads. -/
theorem Lambda.scratchPlaced_sliced {f : Lambda} {pruned : Body} {blocks : BlockSizes}
    (hextract : f.extract = .ok ⟨pruned, blocks⟩) (h : Stm.ScratchPlaced f.body.stms)
    (offsets : BlockOffsets) : Stm.ScratchPlaced (pruned.offsetBy offsets).stms := by
  obtain ⟨rfl, -, -⟩ := extract_eq_ok hextract
  rcases f with ⟨params, ⟨stms, result⟩, ret⟩
  intro b hb
  change b ∈ Stm.scratchedAll (Stm.rewriteAll _ _ _) at hb
  rw [Stm.scratchedAll_rewrite, List.mem_map] at hb
  obtain ⟨b, hb, rfl⟩ := hb
  have hplaced := h b ((Stm.scratchedAll_sublist List.filter_sublist).subset hb)
  exact (Option.isSome_map ..).trans hplaced

end KernelGen
