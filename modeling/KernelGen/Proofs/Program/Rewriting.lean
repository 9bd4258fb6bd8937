import KernelGen.Program.Names
import KernelGen.Program.Rewrite

/-! # What rewriting leaves

Rewriting with the identity changes nothing (`Stm.rewriteAll_id`).  What is read afterwards
are names that were read before, or that the new placements read (`Stm.reads_rewriteAll`). -/
namespace KernelGen

@[simp] theorem Binder.rewrite_id (b : Binder) : b.rewrite id = b := by
  rcases b with ⟨x, ty, _ | p⟩ <;> rfl

theorem Binder.map_rewrite_id (bs : List Binder) : bs.map (Binder.rewrite id) = bs := by
  simp [List.map_congr_left (fun b _ => Binder.rewrite_id b)]

mutual

theorem Stm.rewriteAll_id (stms : List Stm) : Stm.rewriteAll id id stms = stms := by
  match stms with
  | [] => rfl
  | stm :: stms => rw [Stm.rewriteAll, Stm.rewrite_id stm, Stm.rewriteAll_id stms]

theorem Stm.rewrite_id (stm : Stm) : stm.rewrite id id = stm := by
  match stm with
  | ⟨pat, exp⟩ => rw [Stm.rewrite, Binder.map_rewrite_id, Exp.rewrite_id exp]

theorem Exp.rewrite_id (e : Exp) : e.rewrite id id = e := by
  match e with
  | .operand _ | .apply .. | .alloc .. => rfl
  | .index .. | .update .. | .scratch .. => simp [Exp.rewrite]
  | .branch cond ⟨yes, _⟩ ⟨no, _⟩ =>
    simp [Exp.rewrite, Body.rewrite, Stm.rewriteAll_id yes, Stm.rewriteAll_id no]
  | .loop carried counter bound ⟨stms, result⟩ =>
    simp [Exp.rewrite, Body.rewrite, Stm.rewriteAll_id stms]
  | .map ⟨params, ⟨stms, result⟩, ret⟩ inputs =>
    simp [Exp.rewrite, Lambda.rewrite, Body.rewrite, Stm.rewriteAll_id stms,
      Binder.map_rewrite_id]

end

theorem Body.rewrite_id (b : Body) : b.rewrite id id = b := by
  rcases b with ⟨stms, result⟩
  rw [Body.rewrite, Stm.rewriteAll_id, List.map_id]

theorem Lambda.rewrite_id (f : Lambda) : f.rewrite id id = f := by
  rcases f with ⟨params, body, ret⟩
  rw [Lambda.rewrite, Binder.map_rewrite_id, Body.rewrite_id]

/-! ## Names that are read afterwards -/

/-- Placements over these names stay placements over these names. -/
def Placement.Keeps (reads : Name → Prop) (f : Placement → Placement) : Prop :=
  ∀ p : Placement, reads p.block → (∀ x ∈ p.layout.occurrences, reads x) →
    reads (f p).block ∧ ∀ x ∈ (f p).layout.occurrences, reads x

section
variable {f : Placement → Placement} {reads : Name → Prop}

theorem Binder.reads_rewrite (h : Placement.Keeps reads f) {b : Binder}
    (hb : ∀ x ∈ b.occurrences, reads x) : ∀ x ∈ (b.rewrite f).occurrences, reads x := by
  rcases b with ⟨x, ty, _ | p⟩
  · exact hb
  · obtain ⟨hblock, hlayout⟩ := List.forall_mem_cons.mp hb
    exact List.forall_mem_cons.mpr (h p hblock hlayout)

theorem Binder.reads_map_rewrite (h : Placement.Keeps reads f) {bs : List Binder}
    (hbs : ∀ x ∈ bs.flatMap Binder.occurrences, reads x) :
    ∀ x ∈ (bs.map (Binder.rewrite f)).flatMap Binder.occurrences, reads x := by
  rw [List.flatMap_map]
  intro x hx
  obtain ⟨b, hb, hx⟩ := List.mem_flatMap.mp hx
  have hreads : ∀ y ∈ b.occurrences, reads y := fun y hy =>
    hbs y (List.mem_flatMap.mpr ⟨b, hb, hy⟩)
  exact Binder.reads_rewrite h hreads x hx

mutual

/-- **A program over these names stays a program over these names** where placements do. -/
theorem Stm.reads_rewriteAll (h : Placement.Keeps reads f) {stms : List Stm}
    (hs : ∀ x ∈ Stm.occurrencesAll stms, reads x) :
    ∀ x ∈ Stm.occurrencesAll (Stm.rewriteAll f id stms), reads x := by
  match stms with
  | [] => exact hs
  | stm :: stms =>
    rw [Stm.occurrencesAll, List.forall_mem_append] at hs
    rw [Stm.rewriteAll, Stm.occurrencesAll, List.forall_mem_append]
    exact ⟨Stm.reads_rewrite h hs.1, Stm.reads_rewriteAll h hs.2⟩

theorem Stm.reads_rewrite (h : Placement.Keeps reads f) {stm : Stm}
    (hs : ∀ x ∈ stm.occurrences, reads x) :
    ∀ x ∈ (stm.rewrite f id).occurrences, reads x := by
  match stm with
  | ⟨pat, exp⟩ =>
    rw [Stm.occurrences, List.forall_mem_append] at hs
    rw [Stm.rewrite, Stm.occurrences, List.forall_mem_append]
    exact ⟨Binder.reads_map_rewrite h hs.1, Exp.reads_rewrite h hs.2⟩

theorem Exp.reads_rewrite (h : Placement.Keeps reads f) {e : Exp}
    (he : ∀ x ∈ e.occurrences, reads x) :
    ∀ x ∈ (e.rewrite f id).occurrences, reads x := by
  match e with
  | .operand _ | .apply .. | .alloc .. => exact he
  | .index .. | .update .. | .scratch .. =>
    simp only [Exp.rewrite, List.map_id]
    exact he
  | .branch cond ⟨yes, _⟩ ⟨no, _⟩ =>
    simp only [Exp.occurrences, Body.occurrences, List.forall_mem_append] at he
    obtain ⟨hcond, ⟨hyes, hyesResult⟩, hno, hnoResult⟩ := he
    simp only [Exp.rewrite, Body.rewrite, Exp.occurrences, Body.occurrences, List.map_id,
      List.forall_mem_append]
    exact ⟨hcond, ⟨Stm.reads_rewriteAll h hyes, hyesResult⟩, Stm.reads_rewriteAll h hno,
      hnoResult⟩
  | .loop carried counter bound ⟨stms, result⟩ =>
    simp only [Exp.occurrences, Body.occurrences, List.forall_mem_append] at he
    obtain ⟨hcarried, hbound, hstms, hresult⟩ := he
    simp only [Exp.rewrite, Body.rewrite, Exp.occurrences, Body.occurrences, List.map_id,
      List.forall_mem_append, List.flatMap_map]
    refine ⟨fun x hx => ?_, hbound, Stm.reads_rewriteAll h hstms, hresult⟩
    obtain ⟨q, hq, hx⟩ := List.mem_flatMap.mp hx
    have hreads : ∀ y ∈ q.1.occurrences ++ q.2.occurrences, reads y := fun y hy =>
      hcarried y (List.mem_flatMap.mpr ⟨q, hq, hy⟩)
    rw [List.forall_mem_append] at hreads
    rcases List.mem_append.mp hx with hx | hx
    · exact Binder.reads_rewrite h hreads.1 x hx
    · exact hreads.2 x hx
  | .map ⟨params, ⟨stms, result⟩, ret⟩ inputs =>
    simp only [Exp.occurrences, Lambda.occurrences, Body.occurrences,
      List.forall_mem_append] at he
    obtain ⟨hinputs, hparams, hstms, hresult⟩ := he
    simp only [Exp.rewrite, Lambda.rewrite, Body.rewrite, Exp.occurrences, Lambda.occurrences,
      Body.occurrences, List.map_id, List.forall_mem_append]
    exact ⟨hinputs, Binder.reads_map_rewrite h hparams, Stm.reads_rewriteAll h hstms, hresult⟩

end

theorem Body.reads_rewrite (h : Placement.Keeps reads f) {b : Body}
    (hb : ∀ x ∈ b.occurrences, reads x) : ∀ x ∈ (b.rewrite f id).occurrences, reads x := by
  rcases b with ⟨stms, result⟩
  rw [Body.occurrences, List.forall_mem_append] at hb
  rw [Body.rewrite, Body.occurrences, List.map_id, List.forall_mem_append]
  exact ⟨Stm.reads_rewriteAll h hb.1, hb.2⟩

end

end KernelGen
