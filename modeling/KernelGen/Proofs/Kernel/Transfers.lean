import KernelGen.Kernel.Transfers
import KernelGen.Proofs.Context.Lookup

/-! # What is copied around a launch

A plan of transfers is made by going through inputs, free names or destinations, each of
which may add to it and takes nothing from it.  So a plan that was made covers all it was
made for, and nothing stands in it without a reason (`foldlM_plan`).  `copyIn_eq_ok` and
`copyOut_eq_ok` say this of the two plans of a kernel. -/
namespace KernelGen

/-- An array destination is the place of a binder. -/
theorem occurrences_of_destination {pat : List Binder} {p : Placement} {ty : Ty}
    (h : .array p ty ∈ pat.map Binder.destination) :
    ∃ b ∈ pat, b.occurrences = p.block :: p.layout.occurrences := by
  obtain ⟨b, hb, hdest⟩ := List.mem_map.mp h
  rcases b with ⟨x, ty', _ | q⟩ <;> cases hdest
  exact ⟨_, hb, rfl⟩

/-- A plan made step by step: nothing is taken out, what each step asks for is there in the
end, and every transfer is there for some step. -/
theorem foldlM_plan {α : Type} {step : List Transfer → α → Except CompileError (List Transfer)}
    {P : α → List Transfer → Prop} {R : α → Transfer → Prop}
    (mono : ∀ a plan added, P a plan → P a (plan ++ added))
    (h : ∀ plan a next, step plan a = .ok next →
      P a next ∧ ∃ added, next = plan ++ added ∧ ∀ t ∈ added, R a t)
    {xs : List α} {init final : List Transfer} (hrun : xs.foldlM step init = .ok final) :
    (∀ a ∈ xs, P a final) ∧ ∃ added, final = init ++ added ∧ ∀ t ∈ added, ∃ a ∈ xs, R a t := by
  induction xs generalizing init with
  | nil =>
    cases hrun
    exact ⟨List.forall_mem_nil _, [], (List.append_nil _).symm, List.forall_mem_nil _⟩
  | cons a xs ih =>
    rw [List.foldlM_cons] at hrun
    obtain ⟨next, hstep, hrest⟩ := except_bind_eq_ok.mp hrun
    obtain ⟨hP, added, rfl, hR⟩ := h init a next hstep
    obtain ⟨hall, added', rfl, hR'⟩ := ih hrest
    -- What the first step asked for has to survive all later additions.
    refine ⟨List.forall_mem_cons.mpr ⟨mono a _ added' hP, hall⟩, added ++ added',
      List.append_assoc .., fun t ht => ?_⟩
    rcases List.mem_append.mp ht with ht | ht
    · exact ⟨a, List.mem_cons_self .., hR t ht⟩
    · obtain ⟨b, hb, hr⟩ := hR' t ht
      exact ⟨b, List.mem_cons_of_mem _ hb, hr⟩

/-- The plan moves the block. -/
def Moves (plan : List Transfer) (b : Name) : Prop := ∃ size, Transfer.block b size ∈ plan

/-- What is looked up while a plan is made. -/
theorem moves_iff_any {plan : List Transfer} {b : Name} :
    Moves plan b ↔ plan.any (·.movesBlock b) := by
  rw [List.any_eq_true]
  constructor
  · rintro ⟨size, hmem⟩
    exact ⟨_, hmem, beq_self_eq_true b⟩
  · rintro ⟨t, hmem, hmoves⟩
    cases t with
    | scalar y ty => cases hmoves
    | block y size =>
      obtain rfl : y = b := eq_of_beq hmoves
      exact ⟨size, hmem⟩

instance (plan : List Transfer) (b : Name) : Decidable (Moves plan b) :=
  decidable_of_iff _ moves_iff_any.symm

theorem Moves.append {plan : List Transfer} {b : Name} (h : Moves plan b) (added : List Transfer) :
    Moves (plan ++ added) b := by
  obtain ⟨size, hsize⟩ := h
  exact ⟨size, List.mem_append.mpr (.inl hsize)⟩

namespace Context
variable {ctx : Context} {plan next : List Transfer}

theorem addBlock_eq_ok {b : Name} (h : ctx.addBlock plan b = .ok next) :
    Moves next b ∧ ∃ added, next = plan ++ added ∧ ∀ t ∈ added, ∃ size, t = .block b size := by
  unfold addBlock at h
  split at h
  · rename_i hany
    cases h
    exact ⟨moves_iff_any.mpr hany, [], (List.append_nil _).symm, List.forall_mem_nil _⟩
  · obtain ⟨size, -, hnext⟩ := except_bind_eq_ok.mp h
    cases hnext
    refine ⟨⟨size, List.mem_append.mpr (.inr (List.mem_cons_self ..))⟩, _, rfl, fun t ht => ?_⟩
    exact ⟨size, List.mem_singleton.mp ht⟩

/-- What a plan has for an input: it is an array, and its block is moved. -/
def MovesInput (ctx : Context) (x : Name) (plan : List Transfer) : Prop :=
  ∃ ty p, ctx.vars.get? x = some (.array ty p) ∧ Moves plan p.block

/-- What a plan has for a free name: it is a scalar and passed, or a block and moved. -/
def MovesFree (ctx : Context) (x : Name) (plan : List Transfer) : Prop :=
  (∃ ty, ctx.vars.get? x = some (.scalar ty) ∧ .scalar x ty ∈ plan) ∨
    (∃ size space, ctx.vars.get? x = some (.block size space)) ∧ Moves plan x

theorem addInput_eq_ok {x : Name} (h : ctx.addInput plan x = .ok next) :
    ctx.MovesInput x next ∧ ∃ added, next = plan ++ added ∧ ∀ t ∈ added,
      ∃ ty p size, ctx.vars.get? x = some (.array ty p) ∧ t = .block p.block size := by
  obtain ⟨⟨ty, p⟩, harray, hadd⟩ := except_bind_eq_ok.mp h
  have hx := array_eq_ok_iff.mp harray
  obtain ⟨hmoves, added, rfl, hadded⟩ := addBlock_eq_ok hadd
  refine ⟨⟨ty, p, hx, hmoves⟩, added, rfl, fun t ht => ?_⟩
  obtain ⟨size, rfl⟩ := hadded t ht
  exact ⟨ty, p, size, hx, rfl⟩

theorem addFree_eq_ok {x : Name} (h : ctx.addFree plan x = .ok next) :
    ctx.MovesFree x next ∧ ∃ added, next = plan ++ added ∧ ∀ t ∈ added,
      (∃ size, t = .block x size) ∨
        ∃ ty, ctx.vars.get? x = some (.scalar ty) ∧ t = .scalar x ty := by
  obtain ⟨e, he, hadd⟩ := except_bind_eq_ok.mp h
  have hx := entry_eq_ok_iff.mp he
  cases e with
  | array ty p => cases hadd
  | block size space =>
    obtain ⟨hmoves, added, rfl, hadded⟩ := addBlock_eq_ok hadd
    exact ⟨.inr ⟨⟨size, space, hx⟩, hmoves⟩, added, rfl, fun t ht => .inl (hadded t ht)⟩
  | scalar ty =>
    cases hadd
    refine ⟨.inl ⟨ty, hx, List.mem_append.mpr (.inr (List.mem_cons_self ..))⟩, _, rfl, ?_⟩
    intro t ht
    exact .inr ⟨ty, hx, List.mem_singleton.mp ht⟩

theorem addDestination_eq_ok {d : Destination} (h : ctx.addDestination plan d = .ok next) :
    (∀ p ty, d = .array p ty → Moves next p.block) ∧ ∃ added, next = plan ++ added ∧
      ∀ t ∈ added, ∃ p ty size, d = .array p ty ∧ t = .block p.block size := by
  cases d with
  | scalar x =>
    cases h
    exact ⟨nofun, [], (List.append_nil _).symm, List.forall_mem_nil _⟩
  | array p ty =>
    obtain ⟨hmoves, added, rfl, hadded⟩ := addBlock_eq_ok h
    refine ⟨fun q ty' he => ?_, added, rfl, fun t ht => ?_⟩
    · cases he
      exact hmoves
    · obtain ⟨size, rfl⟩ := hadded t ht
      exact ⟨p, ty, size, rfl, rfl⟩

/-- **What is copied in**: the blocks of the inputs, and the blocks and scalars that are
free in the lambda and no inputs. -/
theorem copyIn_eq_ok {f : Lambda} {inputs : List Name} (h : ctx.copyIn f inputs = .ok plan) :
    (∀ x ∈ inputs, ctx.MovesInput x plan) ∧
      (∀ x ∈ f.free, x ∉ inputs → ctx.MovesFree x plan) ∧
      ∀ t ∈ plan, (∃ x ∈ inputs, ∃ ty p size, ctx.vars.get? x = some (.array ty p) ∧
          t = .block p.block size) ∨
        ∃ x ∈ f.free, (∃ size, t = .block x size) ∨
          ∃ ty, ctx.vars.get? x = some (.scalar ty) ∧ t = .scalar x ty := by
  obtain ⟨first, hinputs, hfree⟩ := except_bind_eq_ok.mp h
  obtain ⟨hin, added, rfl, hadded⟩ := foldlM_plan (P := ctx.MovesInput)
    (fun x plan added h => by
      obtain ⟨ty, p, hx, hmoves⟩ := h
      exact ⟨ty, p, hx, hmoves.append added⟩)
    (fun plan x next => addInput_eq_ok) hinputs
  obtain ⟨hout, added', rfl, hadded'⟩ := foldlM_plan (P := ctx.MovesFree)
    (fun x plan added h => by
      rcases h with ⟨ty, hx, hmem⟩ | ⟨hx, hmoves⟩
      · exact .inl ⟨ty, hx, List.mem_append.mpr (.inl hmem)⟩
      · exact .inr ⟨hx, hmoves.append added⟩)
    (fun plan x next => addFree_eq_ok) hfree
  refine ⟨fun x hx => ?_, fun x hx hni => ?_, fun t ht => ?_⟩
  · obtain ⟨ty, p, hget, hmoves⟩ := hin x hx
    exact ⟨ty, p, hget, hmoves.append added'⟩
  · exact hout x (List.mem_filter.mpr ⟨hx, decide_eq_true hni⟩)
  · rcases List.mem_append.mp ht with ht | ht
    · exact .inl (hadded t ht)
    · obtain ⟨x, hx, ht⟩ := hadded' t ht
      exact .inr ⟨x, (List.mem_filter.mp hx).1, ht⟩

/-- **What is copied out**: the blocks of the array destinations. -/
theorem copyOut_eq_ok {dests : List Destination} (h : ctx.copyOut dests = .ok plan) :
    (∀ p ty, .array p ty ∈ dests → Moves plan p.block) ∧
      ∀ t ∈ plan, ∃ p ty size, .array p ty ∈ dests ∧ t = .block p.block size := by
  obtain ⟨hall, added, rfl, hadded⟩ := foldlM_plan
    (P := fun (d : Destination) plan => ∀ p ty, d = .array p ty → Moves plan p.block)
    (fun d plan added hmoves p ty he => (hmoves p ty he).append added)
    (fun plan d next => addDestination_eq_ok) h
  refine ⟨fun p ty hd => hall _ hd p ty rfl, fun t ht => ?_⟩
  obtain ⟨d, hd, p, ty, size, rfl, rfl⟩ := hadded t ht
  exact ⟨p, ty, size, hd, rfl⟩

end Context

end KernelGen
