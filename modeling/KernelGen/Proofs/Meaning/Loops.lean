import KernelGen.Proofs.Meaning.Bodies

/-! # Code for whole loops

The code of a loop starts what is carried, runs the body, and stores what is carried at the
end.  `rel_lowerLoop` puts the three together. -/
namespace KernelGen
open Lowering

section
variable {I : Interpretation} {Γ : Scope} {env : Env I} {σ : Store I} {m : Memory I}
  {ctx last : Context} {pat : List Binder} {code : Code} {stms : List Stm}
  {result : List Operand} {carried : List (Binder × Operand)} {counter : Name} {bound : Operand}

variable (I) in
/-- Wherever the statements are compiled in scope, the code does what they do. -/
def Stm.Realised (stms : List Stm) : Prop :=
  ∀ ⦃Γ : Scope⦄ ⦃ctx last : Context⦄ ⦃code : Code⦄, Γ.Known ctx →
    Γ.New ctx (Stm.bindingsAll stms) → Stm.ScopedAll Γ stms →
      (Stm.lowerAll none stms).run ctx = ⟨.ok (), code, last⟩ →
        (Γ.after stms).Known last ∧ Realises I Γ (Γ.after stms) stms code

/-- The parts of the code of a loop. -/
theorem run_lowerLoop_eq_ok {dests : List Destination} {step : Lowering Unit}
    (hrun : (lowerLoop dests carried counter bound step result).run ctx =
      ⟨.ok (), code, last⟩) :
    carried.length = result.length ∧ carried.length = dests.length ∧
      ∃ start c₁ inner c₂ staged put c₃ back c₄ out,
        (carried.forM startCarried).run ctx = ⟨.ok (), start, c₁⟩ ∧
        step.run (c₁.bindScalar counter .i64) = ⟨.ok (), inner, c₂⟩ ∧
        (((carried.map Prod.fst).zip result).mapM fun (b, a) => stageCarried b a).run c₂ =
          ⟨.ok staged, put, c₃⟩ ∧
        (assignAll ((carried.map Prod.fst).map Binder.destination) staged).run c₃ =
          ⟨.ok (), back, c₄⟩ ∧
        (assignAll dests ((carried.map Prod.fst).map (.var ·.name))).run c₄ =
          ⟨.ok (), out, last⟩ ∧
        code = start ++ ([.loop counter (.ofOperand bound) (inner ++ (put ++ back))] ++ out) := by
  unfold lowerLoop at hrun
  obtain ⟨hguard, hafter⟩ := run_guard_eq_ok.mp hrun
  rw [not_or, not_not, not_not] at hguard
  obtain ⟨⟨⟩, start, c₁, rest₁, hstart, hafter₁, rfl⟩ := run_bind_eq_ok.mp hafter
  obtain ⟨⟨⟩, front₂, mid₂, rest₂, hbind, hafter₂, rfl⟩ := run_bind_eq_ok.mp hafter₁
  cases hbind
  obtain ⟨body, front₃, c₄, rest₃, hcollect, hafter₃, rfl⟩ := run_bind_eq_ok.mp hafter₂
  obtain ⟨hbody, rfl⟩ := run_collect_eq_ok.mp hcollect
  obtain ⟨⟨⟩, inner, c₂, rest₄, hstep, hafter₄, rfl⟩ := run_bind_eq_ok.mp hbody
  obtain ⟨staged, put, c₃, back, hstage, hassign, rfl⟩ := run_bind_eq_ok.mp hafter₄
  obtain ⟨⟨⟩, front₅, mid₅, out, hemit, hout, rfl⟩ := run_bind_eq_ok.mp hafter₃
  cases hemit
  exact ⟨hguard.1, hguard.2, start, c₁, inner, c₂, staged, put, c₃, back, _, out, hstart, hstep,
    hstage, hassign, hout, rfl⟩

/-- What a loop carries at its end is stored into the pattern. -/
theorem exec_leave {binders : List Binder} {vals : List (Val I)} (hp : Prepared Γ env pat σ)
    (hclosed : Γ.Closed) (hbinders : Γ.Admits binders)
    (hreached : Reached Γ env binders (vals, m) ⟨σ, m⟩) (hknown : (Γ.bindAll binders).Known ctx)
    (hapart : ∀ x ∈ pat.map Binder.name, x ∉ binders.map Binder.name)
    (hlen : pat.length = binders.length)
    (hstores : (Γ.bindAll binders).StoresAll pat (binders.map (.var ·.name)))
    (hrun : (assignAll (pat.map Binder.destination) (binders.map (.var ·.name))).run ctx =
      ⟨.ok (), code, last⟩) :
    ∃ σ', Code.exec I ⟨σ, m⟩ code = some ⟨σ', m⟩ ∧ Reached Γ env pat (vals, m) ⟨σ', m⟩ := by
  obtain ⟨-, rfl, hdelivers⟩ := run_assignAll_eq_ok hknown hstores hrun
  have hout : ∀ x ∈ pat.map Binder.name, Γ.bindAll binders x = none := by
    intro x hx
    rw [Scope.bindAll_of_not_mem Γ (hapart x hx), hp.new x hx]
  have hlen' : pat.length = (binders.map fun b => Operand.var b.name).length := by
    rw [hlen, List.length_map]
  obtain ⟨vals', σ', hvals, hexec, hlast⟩ := exec_results (m := m) hp
    (hreached.agrees_bindAll hbinders hclosed) (.bindAll hbinders env vals) hlen' hdelivers
    (apart_of_delivers hout hdelivers)
  -- The carried binders stand for the values that the loop ended with.
  obtain rfl : vals' = vals := by
    have hvals' := env.mapM_eval_bindAll I hbinders.nodup hreached.held.length_eq
    rw [hvals'] at hvals
    exact (Option.some.inj hvals).symm
  exact ⟨σ', hexec, hlast⟩

/-- What was in scope before the body of a loop is known after it. -/
theorem known_loopBody {c₁ c₂ c₃ c₄ : Context} {binders : List Binder} {inner put back : Code}
    {staged : List Operand} (hknown : Γ.Known c₁) (hcounter : Γ counter = none)
    (hnew : ∀ x ∈ Stm.bindingsAll stms, Γ x = none)
    (hstep : (Stm.lowerAll none stms).run (c₁.bindScalar counter .i64) = ⟨.ok (), inner, c₂⟩)
    (hstage : ((binders.zip result).mapM fun (b, a) => stageCarried b a).run c₂ =
      ⟨.ok staged, put, c₃⟩)
    (hassign : (assignAll (binders.map Binder.destination) staged).run c₃ =
      ⟨.ok (), back, c₄⟩) : Γ.Known c₄ := by
  have hbind : Γ.Known (c₁.bindScalar counter .i64) :=
    hknown.evolve (.bind counter _) (by simpa using hcounter)
  have hstms : Γ.Known c₂ :=
    hbind.evolve (evolves_of_follows (follows_lowerAll_none stms) hstep) hnew
  have hstaged : Follows true [] [] _ := follows_stageAll (binders.zip result)
  have hassigned : Follows true [] [] (assignAll (binders.map Binder.destination) staged) :=
    follows_assignAll _ staged
  have hput := hstms.evolve (evolves_of_follows hstaged hstage) (List.forall_mem_nil _)
  exact hput.evolve (evolves_of_follows hassigned hassign) (List.forall_mem_nil _)

/-- **The code in a loop runs its body once**, and what was in scope before is known after
it. -/
theorem turns_of_run {c₁ c₂ c₃ c₄ : Context} {binders : List Binder} {inner put back : Code}
    {staged : List Operand} (hclosed : Γ.Closed) (hbinders : Γ.Admits binders)
    (hknown : (Γ.bindAll binders).Known c₁)
    (hnew : (Γ.bindAll binders).New c₁ ([counter] ++ Stm.bindingsAll stms))
    (hbody : Body.Scoped ((Γ.bindAll binders).set counter none) binders ⟨stms, result⟩)
    (hstms : Stm.Realised I stms) (hlen : binders.length = result.length)
    (hstep : (Stm.lowerAll none stms).run (c₁.bindScalar counter .i64) = ⟨.ok (), inner, c₂⟩)
    (hstage : ((binders.zip result).mapM fun (b, a) => stageCarried b a).run c₂ =
      ⟨.ok staged, put, c₃⟩)
    (hassign : (assignAll (binders.map Binder.destination) staged).run c₃ =
      ⟨.ok (), back, c₄⟩) :
    Turns Γ env binders counter ⟨stms, result⟩ (inner ++ (put ++ back)) ∧
      (Γ.bindAll binders).Known c₄ := by
  have hcounter := hnew.left.unbound counter (List.mem_cons_self ..)
  have hdrawn := hnew.left.drawn counter (List.mem_cons_self ..)
  have hnew' : ((Γ.bindAll binders).set counter none).New (c₁.bindScalar counter .i64)
      (Stm.bindingsAll stms) :=
    hnew.right (Nat.le_refl _) fun x hx => Scope.set_of_ne _ _ (by simpa using hx)
  obtain ⟨hafter, hrealises⟩ :=
    hstms (hknown.bindScalar hcounter hdrawn .i64) hnew' hbody.1 hstep
  refine ⟨turns_of_realises hbinders hclosed hknown.closed hcounter hnew'.unbound hrealises hafter
    hbody.2 hlen hstage hassign, ?_⟩
  exact known_loopBody hknown hcounter (fun x hx => hnew.unbound x (List.mem_cons_of_mem _ hx))
    hstep hstage hassign

/-- The runs of a loop, from where its carried values are held. -/
theorem Turns.rel_loop {body : Body} {inits : List (Val I)}
    (h : Turns Γ env (carried.map Prod.fst) counter body code)
    (hinits : carried.mapM (·.2.eval I env) = some inits)
    (hreached : Reached Γ env (carried.map Prod.fst) (inits, m) ⟨σ, m⟩) (hbound : Γ.Reads bound) :
    Option.Rel (Reached Γ env (carried.map Prod.fst))
      (Exp.eval I env m pat (.loop carried counter bound body))
      (Code.exec I ⟨σ, m⟩ [.loop counter (.ofOperand bound) code]) := by
  obtain ⟨w, -, hw, hw'⟩ := hreached.agrees.reads hbound
  have hnumber : bound.number I env = some (I.index w) := by
    rw [Operand.number, hw]
    rfl
  rw [Exp.eval, hinits, hnumber, Code.exec_singleton, Stmt.exec, hw']
  exact rel_foldlM (fun _ _ k hr => h hr k) (List.range (I.index w).toNat) hreached

/-- **A loop does in code what it does in the program.** -/
theorem rel_lowerLoop (hp : Prepared Γ env pat σ) (hknown : Γ.Known ctx)
    (hnew : Γ.New ctx (Exp.bindings (.loop carried counter bound ⟨stms, result⟩)))
    (hapart : ∀ x ∈ pat.map Binder.name,
      x ∉ Exp.bindings (.loop carried counter bound ⟨stms, result⟩))
    (hscoped : Exp.Scoped Γ pat (.loop carried counter bound ⟨stms, result⟩))
    (hstms : Stm.Realised I stms)
    (hrun : (lowerLoop (pat.map Binder.destination) carried counter bound
      (Stm.lowerAll none stms) result).run ctx = ⟨.ok (), code, last⟩) :
    Option.Rel (Reached Γ env pat)
      (Exp.eval I env m pat (.loop carried counter bound ⟨stms, result⟩))
      (Code.exec I ⟨σ, m⟩ code) := by
  obtain ⟨hlen, hlen', start, c₁, inner, c₂, staged, put, c₃, back, c₄, out, hstart, hstep, hstage,
    hassign, hout, rfl⟩ := run_lowerLoop_eq_ok hrun
  obtain ⟨hcarried, hbound, hbody, hfinal⟩ := hscoped
  have hnames : carried.map (·.1.name) = (carried.map Prod.fst).map Binder.name := by
    rw [List.map_map]
    rfl
  rw [Exp.bindings, hnames] at hnew hapart
  rw [List.length_map] at hlen'
  -- What the loop carries comes into scope.
  obtain ⟨hknown₁, inits, σ₁, hinits, hexec₁, hagrees₁, hheld₁⟩ :=
    exec_startAll (m := m) hp.agrees hknown hnew.left hcarried hstart
  have hbinders : Γ.Admits (carried.map Prod.fst) :=
    ⟨hnew.left.nodup, hnew.left.unbound, List.forall_mem_map.mpr fun q hq => (hcarried q hq).1⟩
  have hfollows : Follows true (carried.map (·.1.name)) [] (carried.forM startCarried) :=
    .forM_nil fun q hq => follows_startCarried (List.mem_map_of_mem hq)
  have hnew₁ : (Γ.bindAll (carried.map Prod.fst)).New c₁ ([counter] ++ Stm.bindingsAll stms) :=
    hnew.right (evolves_of_follows hfollows hstart).next_le fun x => Scope.bindAll_of_not_mem Γ
  obtain ⟨hturns, hknown₄⟩ := turns_of_run hknown.closed hbinders hknown₁ hnew₁ hbody hstms
    (by rw [List.length_map, hlen]) hstep hstage hassign
  rw [Code.exec_append, hexec₁, Option.bind_some, Code.exec_append, ← Option.bind_fun_some
    (Exp.eval I env m pat (.loop carried counter bound ⟨stms, result⟩))]
  refine rel_bind (hturns.rel_loop hinits ⟨rfl, hagrees₁, hheld₁⟩ hbound) ?_
  -- What is carried at the end is stored into the pattern.
  rintro ⟨vals, m₁⟩ ⟨σ', m₂⟩ - hexec h
  obtain rfl : m₂ = m₁ := h.memory
  have hp' := hp.grow h.agrees ((Code.grows_exec hexec₁).trans (Code.grows_exec hexec))
  have hfinal' : (Γ.bindAll (carried.map Prod.fst)).StoresAll pat
      ((carried.map Prod.fst).map (.var ·.name)) := by
    rw [List.map_map]
    exact hfinal
  have hapart' : ∀ x ∈ pat.map Binder.name, x ∉ (carried.map Prod.fst).map Binder.name :=
    fun x hx hmem => hapart x hx (List.mem_append.mpr (.inl hmem))
  obtain ⟨σ'', hexec', hlast⟩ := exec_leave hp' hknown.closed hbinders h hknown₄ hapart'
    (by rw [List.length_map, ← hlen']) hfinal' hout
  rw [hexec']
  exact .some hlast

end

end KernelGen
