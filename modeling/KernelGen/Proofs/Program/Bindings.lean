import KernelGen.Kernel.Allocations
import KernelGen.Proofs.Kernel.Hoisting

/-! # The names that are bound, after a change to the program

Rewriting placements and operands binds what was bound (`Stm.bindingsAll_rewrite`).  What
is left of a lambda when its allocations have been taken out binds names of the lambda,
and so do the blocks that were taken out, in order and each once. -/
namespace KernelGen

section
variable (f : Placement → Placement) (g : Operand → Operand)

theorem Binder.map_name_rewrite (bs : List Binder) :
    (bs.map (Binder.rewrite f)).map Binder.name = bs.map Binder.name := by
  rw [List.map_map]
  rfl

mutual

/-- **Rewriting keeps the bound names.** -/
theorem Stm.bindingsAll_rewrite (stms : List Stm) :
    Stm.bindingsAll (Stm.rewriteAll f g stms) = Stm.bindingsAll stms := by
  match stms with
  | [] => rfl
  | stm :: stms =>
    rw [Stm.rewriteAll, Stm.bindingsAll, Stm.bindingsAll, Stm.bindings_rewrite stm,
      Stm.bindingsAll_rewrite stms]

theorem Stm.bindings_rewrite (stm : Stm) : (stm.rewrite f g).bindings = stm.bindings := by
  match stm with
  | ⟨pat, exp⟩ =>
    rw [Stm.rewrite, Stm.bindings, Stm.bindings, Binder.map_name_rewrite, Exp.bindings_rewrite exp]

theorem Exp.bindings_rewrite (e : Exp) : (e.rewrite f g).bindings = e.bindings := by
  match e with
  | .operand _ | .apply .. | .index .. | .update .. | .alloc .. | .scratch .. => rfl
  | .branch cond ⟨yes, _⟩ ⟨no, _⟩ =>
    simp only [Exp.rewrite, Body.rewrite, Exp.bindings, Body.bindings,
      Stm.bindingsAll_rewrite yes, Stm.bindingsAll_rewrite no]
  | .loop carried counter bound ⟨stms, result⟩ =>
    simp only [Exp.rewrite, Body.rewrite, Exp.bindings, Body.bindings,
      Stm.bindingsAll_rewrite stms, List.map_map]
    rfl
  | .map ⟨params, ⟨stms, result⟩, ret⟩ inputs =>
    simp only [Exp.rewrite, Lambda.rewrite, Body.rewrite, Exp.bindings, Lambda.bindings,
      Body.bindings, Stm.bindingsAll_rewrite stms, Binder.map_name_rewrite]

end

end

/-- Fewer statements bind fewer names. -/
theorem Stm.bindingsAll_sublist {stms stms' : List Stm} (h : stms'.Sublist stms) :
    (Stm.bindingsAll stms').Sublist (Stm.bindingsAll stms) := by
  induction h with
  | slnil => exact List.Sublist.refl _
  | cons stm _ ih => exact ih.trans (List.sublist_append_right ..)
  | cons_cons stm _ ih => exact (List.Sublist.refl _).append ih

/-- And they read fewer. -/
theorem Stm.occurrencesAll_sublist {stms stms' : List Stm} (h : stms'.Sublist stms) :
    (Stm.occurrencesAll stms').Sublist (Stm.occurrencesAll stms) := by
  induction h with
  | slnil => exact List.Sublist.refl _
  | cons stm _ ih => exact ih.trans (List.sublist_append_right ..)
  | cons_cons stm _ ih => exact (List.Sublist.refl _).append ih

/-- What is bound in front of all others is bound by the patterns of allocations. -/
theorem Body.map_fst_allocations_sublist (b : Body) :
    (b.allocations.map Prod.fst).Sublist b.bindings := by
  rcases b with ⟨stms, result⟩
  show ((stms.filterMap Stm.allocation?).map Prod.fst).Sublist (Stm.bindingsAll stms)
  induction stms with
  | nil => exact List.Sublist.refl _
  | cons stm stms ih =>
    rw [List.filterMap_cons, Stm.bindingsAll]
    cases ha : stm.allocation? with
    | none => exact ih.trans (List.sublist_append_right ..)
    | some a =>
      obtain ⟨b, space, rfl, hb⟩ := Stm.allocation?_eq_some ha
      rw [List.map_cons, ← hb]
      exact (List.Sublist.refl [b.name]).append ih

/-- The blocks that are taken out are not bound in what is left, where no name is bound
twice. -/
theorem Stm.not_mem_bindingsAll_filter {stms : List Stm} (hnodup : (Stm.bindingsAll stms).Nodup)
    {x : Name} (hx : x ∈ (stms.filterMap Stm.allocation?).map Prod.fst) :
    x ∉ Stm.bindingsAll (stms.filter (·.allocation?.isNone)) := by
  induction stms with
  | nil => cases hx
  | cons stm stms ih =>
    rw [Stm.bindingsAll] at hnodup
    obtain ⟨-, hrest, hdisjoint⟩ := List.nodup_append.mp hnodup
    have hallocated : ((stms.filterMap Stm.allocation?).map Prod.fst).Sublist
        (Stm.bindingsAll stms) := Body.map_fst_allocations_sublist ⟨stms, []⟩
    have hleft : (Stm.bindingsAll (stms.filter (·.allocation?.isNone))).Sublist
        (Stm.bindingsAll stms) := Stm.bindingsAll_sublist List.filter_sublist
    rw [List.filterMap_cons] at hx
    cases ha : stm.allocation? with
    | none =>
      rw [ha] at hx
      rw [List.filter_cons, ha, Option.isNone_none, if_pos rfl, Stm.bindingsAll, List.mem_append,
        not_or]
      refine ⟨fun hstm => ?_, ih hrest hx⟩
      exact hdisjoint x hstm x (hallocated.subset hx) rfl
    | some a =>
      rw [ha, List.map_cons, List.mem_cons] at hx
      rw [List.filter_cons, ha, Option.isNone_some, if_neg Bool.false_ne_true]
      obtain ⟨b, space, rfl, hb⟩ := Stm.allocation?_eq_some ha
      rcases hx with rfl | hx
      · intro hmem
        have hstm : b.name ∈ Stm.bindings ⟨[b], .alloc a.2 space⟩ :=
          List.mem_append.mpr (.inl (List.mem_cons_self ..))
        exact hdisjoint _ hstm _ (hleft.subset hmem) hb
      · exact ih hrest hx

namespace Lambda
variable {f : Lambda} {pruned : Body} {blocks : BlockSizes}

/-- The blocks that are taken out are bound in the body, in this order. -/
theorem keys_sublist (h : f.extract = .ok ⟨pruned, blocks⟩) :
    blocks.keys.Sublist f.body.bindings := by
  obtain ⟨-, rfl, -⟩ := extract_eq_ok h
  exact (OrderedMap.keys_ofList_sublist _).trans f.body.map_fst_allocations_sublist

/-- What is left in the slices of a thread binds names of the body. -/
theorem bindingsAll_sliced_sublist (h : f.extract = .ok ⟨pruned, blocks⟩)
    (offsets : BlockOffsets) :
    (Stm.bindingsAll (pruned.offsetBy offsets).stms).Sublist f.body.bindings := by
  obtain ⟨rfl, -, -⟩ := extract_eq_ok h
  rcases f with ⟨params, ⟨stms, result⟩, ret⟩
  show (Stm.bindingsAll (Stm.rewriteAll _ _ _)).Sublist _
  rw [Stm.bindingsAll_rewrite]
  exact Stm.bindingsAll_sublist List.filter_sublist

end Lambda

end KernelGen
