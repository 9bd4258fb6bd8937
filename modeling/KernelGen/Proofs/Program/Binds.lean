import KernelGen.Proofs.Program.Bindings

/-! # Where a name is bound

A statement binds a name in its pattern or inside its expression: in a branch, as a value
that a loop carries, as a counter, as a parameter of a lambda, or in a body at any depth
(`Stm.Binds`).  The walk over the program lists exactly the names that are bound somewhere
(`Stm.mem_bindings_iff`, `Lambda.mem_bindings_iff`). -/
namespace KernelGen

/-- The statement binds `x`, itself or somewhere inside. -/
inductive Stm.Binds (x : Name) : Stm → Prop where
  | pattern {pat : List Binder} {exp : Exp} {b : Binder} : b ∈ pat → b.name = x → Binds x ⟨pat, exp⟩
  | yes {pat : List Binder} {cond : Operand} {yes no : Body} {stm : Stm} :
    stm ∈ yes.stms → Binds x stm → Binds x ⟨pat, .branch cond yes no⟩
  | no {pat : List Binder} {cond : Operand} {yes no : Body} {stm : Stm} :
    stm ∈ no.stms → Binds x stm → Binds x ⟨pat, .branch cond yes no⟩
  | carried {pat : List Binder} {carried : List (Binder × Operand)} {counter : Name}
      {bound : Operand} {body : Body} {q : Binder × Operand} :
    q ∈ carried → q.1.name = x → Binds x ⟨pat, .loop carried counter bound body⟩
  | counter {pat : List Binder} {carried : List (Binder × Operand)} {bound : Operand}
      {body : Body} : Binds x ⟨pat, .loop carried x bound body⟩
  | loop {pat : List Binder} {carried : List (Binder × Operand)} {counter : Name}
      {bound : Operand} {body : Body} {stm : Stm} :
    stm ∈ body.stms → Binds x stm → Binds x ⟨pat, .loop carried counter bound body⟩
  | param {pat : List Binder} {f : Lambda} {inputs : List Name} {b : Binder} :
    b ∈ f.params → b.name = x → Binds x ⟨pat, .map f inputs⟩
  | lambda {pat : List Binder} {f : Lambda} {inputs : List Name} {stm : Stm} :
    stm ∈ f.body.stms → Binds x stm → Binds x ⟨pat, .map f inputs⟩

/-- The lambda binds `x`, as a parameter or somewhere in its body. -/
def Lambda.Binds (f : Lambda) (x : Name) : Prop :=
  (∃ b ∈ f.params, b.name = x) ∨ ∃ stm ∈ f.body.stms, stm.Binds x

mutual

/-- What the walk finds among statements is bound by one of them. -/
theorem Stm.exists_binds_of_mem {x : Name} (stms : List Stm) (h : x ∈ Stm.bindingsAll stms) :
    ∃ stm ∈ stms, stm.Binds x := by
  match stms with
  | [] => cases h
  | stm :: stms =>
    rcases List.mem_append.mp h with h | h
    · exact ⟨stm, List.mem_cons_self .., Stm.binds_of_mem stm h⟩
    · obtain ⟨stm', hstm', hx⟩ := Stm.exists_binds_of_mem stms h
      exact ⟨stm', List.mem_cons_of_mem _ hstm', hx⟩

theorem Stm.binds_of_mem {x : Name} (stm : Stm) (h : x ∈ stm.bindings) : stm.Binds x := by
  match stm with
  | ⟨pat, .operand _⟩ | ⟨pat, .apply ..⟩ | ⟨pat, .index ..⟩ | ⟨pat, .update ..⟩
  | ⟨pat, .alloc ..⟩ | ⟨pat, .scratch ..⟩ =>
    have hpat : x ∈ pat.map Binder.name := by simpa [Stm.bindings, Exp.bindings] using h
    obtain ⟨b, hb, hx⟩ := List.mem_map.mp hpat
    exact .pattern hb hx
  | ⟨pat, .branch cond ⟨yes, _⟩ ⟨no, _⟩⟩ =>
    rcases List.mem_append.mp h with h | h
    · obtain ⟨b, hb, hx⟩ := List.mem_map.mp h
      exact .pattern hb hx
    · rcases List.mem_append.mp h with h | h
      · obtain ⟨stm, hstm, hx⟩ := Stm.exists_binds_of_mem yes h
        exact .yes hstm hx
      · obtain ⟨stm, hstm, hx⟩ := Stm.exists_binds_of_mem no h
        exact .no hstm hx
  | ⟨pat, .loop carried counter bound ⟨stms, _⟩⟩ =>
    rcases List.mem_append.mp h with h | h
    · obtain ⟨b, hb, hx⟩ := List.mem_map.mp h
      exact .pattern hb hx
    · rcases List.mem_append.mp h with h | h
      · obtain ⟨q, hq, hx⟩ := List.mem_map.mp h
        exact .carried hq hx
      · rcases List.mem_cons.mp h with rfl | h
        · exact .counter
        · obtain ⟨stm, hstm, hx⟩ := Stm.exists_binds_of_mem stms h
          exact .loop hstm hx
  | ⟨pat, .map ⟨params, ⟨stms, _⟩, _⟩ inputs⟩ =>
    rcases List.mem_append.mp h with h | h
    · obtain ⟨b, hb, hx⟩ := List.mem_map.mp h
      exact .pattern hb hx
    · rcases List.mem_append.mp h with h | h
      · obtain ⟨b, hb, hx⟩ := List.mem_map.mp h
        exact .param hb hx
      · obtain ⟨stm, hstm, hx⟩ := Stm.exists_binds_of_mem stms h
        exact .lambda hstm hx

end

/-- What is bound is found by the walk. -/
theorem Stm.Binds.mem_bindings {x : Name} {stm : Stm} (h : stm.Binds x) : x ∈ stm.bindings := by
  have within : ∀ (b : Body) {s : Stm}, s ∈ b.stms → x ∈ s.bindings → x ∈ b.bindings :=
    fun ⟨_, _⟩ _ hs hx => Stm.mem_bindingsAll hs hx
  induction h with
  | pattern hb hx => exact List.mem_append_left _ (hx ▸ List.mem_map_of_mem hb)
  | @yes pat cond yes no stm hstm _ ih =>
    exact List.mem_append_right _ (List.mem_append_left _ (within yes hstm ih))
  | @no pat cond yes no stm hstm _ ih =>
    exact List.mem_append_right _ (List.mem_append_right _ (within no hstm ih))
  | carried hq hx =>
    exact List.mem_append_right _ (List.mem_append_left _ (hx ▸ List.mem_map.mpr ⟨_, hq, rfl⟩))
  | counter =>
    exact List.mem_append_right _ (List.mem_append_right _ (List.mem_cons_self ..))
  | @loop pat carried counter bound body stm hstm _ ih =>
    have hbody := List.mem_cons_of_mem counter (within body hstm ih)
    exact List.mem_append_right _ (List.mem_append_right _ hbody)
  | @param pat f inputs b hb hx =>
    rcases f with ⟨params, body, ret⟩
    exact List.mem_append_right _ (List.mem_append_left _ (hx ▸ List.mem_map_of_mem hb))
  | @lambda pat f inputs stm hstm _ ih =>
    rcases f with ⟨params, body, ret⟩
    exact List.mem_append_right _ (List.mem_append_right _ (within body hstm ih))

/-- **The walk lists what is bound.** -/
theorem Stm.mem_bindings_iff {x : Name} {stm : Stm} : x ∈ stm.bindings ↔ stm.Binds x :=
  ⟨Stm.binds_of_mem stm, Stm.Binds.mem_bindings⟩

theorem Stm.mem_bindingsAll_iff {x : Name} {stms : List Stm} :
    x ∈ Stm.bindingsAll stms ↔ ∃ stm ∈ stms, stm.Binds x := by
  constructor
  · exact Stm.exists_binds_of_mem stms
  · rintro ⟨stm, hstm, hx⟩
    exact Stm.mem_bindingsAll hstm hx.mem_bindings

theorem Body.mem_bindings_iff {x : Name} {b : Body} :
    x ∈ b.bindings ↔ ∃ stm ∈ b.stms, stm.Binds x := by
  rcases b with ⟨stms, result⟩
  exact Stm.mem_bindingsAll_iff

theorem Lambda.mem_bindings_iff {x : Name} {f : Lambda} : x ∈ f.bindings ↔ f.Binds x := by
  rcases f with ⟨params, body, ret⟩
  rw [Lambda.bindings, List.mem_append, List.mem_map, Body.mem_bindings_iff]
  rfl

end KernelGen
