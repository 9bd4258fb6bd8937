import KernelGen.Proofs.Meaning.Statements

/-! # Code for branches and loops

The statements of a body come first, and are taken here as code that does what they do
(`Realises`).  What is left is to bring their results into the binders.

A branch stores its results where it stands.  A loop goes through three states: its
carried values start, every run of the body starts from the values of the run before and
ends with values put aside and stored back, and at the end the carried values are stored
into the pattern.  Each of these is `Reached` by the code, with the carried binders as
pattern, and `Turns` says of one run that it leads from such a state to such a state. -/
namespace KernelGen
open Lowering

section
variable (I : Interpretation)

/-- From where environment and store agree on `Γ`, the code does what the statements do,
and they agree on `Γ'` afterwards. -/
def Realises (Γ Γ' : Scope) (stms : List Stm) (code : Code) : Prop :=
  ∀ ⦃env : Env I⦄ ⦃σ : Store I⦄ (m : Memory I), Agrees Γ env σ →
    Option.Rel (fun r s => s.memory = r.2 ∧ Agrees Γ' r.1 s.vars) (Stm.evalAll I env m stms)
      (Code.exec I ⟨σ, m⟩ code)

end

section
variable {I : Interpretation} {Γ : Scope} {env : Env I} {σ : Store I} {m : Memory I}
  {ctx mid last : Context} {pat : List Binder} {code inner rest : Code} {stms : List Stm}
  {result : List Operand}

/-! ## Bodies -/

/-- A body is run in a scope of its own, seen from outside.  What follows its statements
brings the results into the binders. -/
theorem rel_body {Γ' : Scope} {env' : Env I} (hp : Prepared Γ env pat σ) (hclosed : Γ.Closed)
    (h : Agrees Γ' env' σ) (hextends : Extends Γ Γ' env env')
    (hnew : ∀ x ∈ Stm.bindingsAll stms, Γ' x = none)
    (hrealises : Realises I Γ' (Γ'.after stms) stms inner)
    (hrest : ∀ ⦃env'' : Env I⦄ ⦃σ' : Store I⦄ (m' : Memory I), Prepared Γ env pat σ' →
      Agrees (Γ'.after stms) env'' σ' → Extends Γ (Γ'.after stms) env env'' →
        ∃ vals σ'', result.mapM (·.eval I env'') = some vals ∧
          Code.exec I ⟨σ', m'⟩ rest = some ⟨σ'', m'⟩ ∧
          Reached Γ env pat (vals, m') ⟨σ'', m'⟩) :
    Option.Rel (Reached Γ env pat) (Body.eval I env' m ⟨stms, result⟩)
      (Code.exec I ⟨σ, m⟩ (inner ++ rest)) := by
  rw [Body.eval, Code.exec_append]
  refine rel_bind (hrealises m h) ?_
  rintro ⟨env'', m₁⟩ ⟨σ', m₂⟩ heval hexec ⟨hmemory, hagrees⟩
  obtain rfl : m₂ = m₁ := hmemory
  have hextends' := hextends.trans (.after heval hnew)
  have hback : Agrees Γ env σ' := hagrees.restrict hextends' hclosed
  obtain ⟨vals, σ'', hvals, hstored, hreached⟩ :=
    hrest m₂ (hp.grow hback (Code.grows_exec hexec)) hagrees hextends'
  show Option.Rel _ (do return (← result.mapM (·.eval I env''), m₂)) _
  rw [hvals, hstored]
  exact .some hreached

/-- Results that are right for binders out of scope do not read them. -/
theorem apart_of_delivers {Γ' : Scope} {as : List Operand}
    (hout : ∀ x ∈ pat.map Binder.name, Γ' x = none)
    (hdelivers : ∀ q ∈ pat.zip as, Γ'.Delivers q.1.placement q.2) :
    ∀ q ∈ pat.zip as, q.1.placement = none → ∀ x ∈ q.2.occurrences,
      x ∉ pat.map Binder.name := by
  intro q hq hplace x hx hmem
  have hscalar : Γ'.Delivers none q.2 := hplace ▸ hdelivers q hq
  exact Scope.ne_of_isSome (by simp [hscalar x hx]) (hout x hmem) rfl

/-- The body of a branch stores its results where it stands. -/
theorem rel_branchBody (hp : Prepared Γ env pat σ) (hclosed : Γ.Closed)
    (hnew : ∀ x ∈ Stm.bindingsAll stms, Γ x = none)
    (hapart : ∀ x ∈ pat.map Binder.name, x ∉ Stm.bindingsAll stms)
    (hrealises : Realises I Γ (Γ.after stms) stms inner) (hknown : (Γ.after stms).Known mid)
    (hstores : (Γ.after stms).StoresAll pat result) (hlen : pat.length = result.length)
    (hassign : (assignAll (pat.map Binder.destination) result).run mid = ⟨.ok (), rest, last⟩) :
    Option.Rel (Reached Γ env pat) (Body.eval I env m ⟨stms, result⟩)
      (Code.exec I ⟨σ, m⟩ (inner ++ rest)) := by
  obtain ⟨-, rfl, hdelivers⟩ := run_assignAll_eq_ok hknown hstores hassign
  refine rel_body hp hclosed hp.agrees (.refl Γ env) hnew hrealises ?_
  intro env' σ' m' hp' hagrees hextends
  refine exec_results hp' hagrees hextends hlen hdelivers ?_
  refine apart_of_delivers (fun x hx => ?_) hdelivers
  rw [Scope.after_of_not_mem Γ (hapart x hx), hp.new x hx]

/-! ## Loops -/

/-- What binders hold is declared. -/
theorem Reached.prepared {r : List (Val I) × Memory I} {s : State I}
    (h : Reached Γ env pat r s) (hpat : Γ.Admits pat) : Prepared Γ env pat s.vars :=
  { hpat with agrees := h.agrees, declared := h.held.declared }

/-- The carried values come into scope. -/
theorem Reached.agrees_bindAll {vals : List (Val I)} {s : State I}
    (h : Reached Γ env pat (vals, m) s) (hpat : Γ.Admits pat) (hclosed : Γ.Closed) :
    Agrees (Γ.bindAll pat) (env.bindAll pat vals) s.vars :=
  h.agrees.bindAll hclosed hpat.nodup hpat.new hpat.places h.held

/-- What follows the statements in the body of a loop: the results are put aside and then
stored into the carried values, which they may have read. -/
theorem exec_carry {Γ' : Scope} {env' : Env I} {staged : List Operand} {put back : Code}
    {mid' : Context} (hp : Prepared Γ env pat σ) (hclosed : Γ.Closed) (h : Agrees Γ' env' σ)
    (hextends : Extends Γ Γ' env env') (hknown : Γ'.Known mid)
    (hdrawn : ∀ x ∈ pat.map Binder.name, x.tag < mid.names.next)
    (hstores : Γ'.StoresAll pat result) (hlen : pat.length = result.length)
    (hstage : ((pat.zip result).mapM fun (b, a) => stageCarried b a).run mid =
      ⟨.ok staged, put, mid'⟩)
    (hassign : (assignAll (pat.map Binder.destination) staged).run mid' =
      ⟨.ok (), back, last⟩) :
    ∃ vals σ', result.mapM (·.eval I env') = some vals ∧
      Code.exec I ⟨σ, m⟩ (put ++ back) = some ⟨σ', m⟩ ∧
      Reached Γ env pat (vals, m) ⟨σ', m⟩ := by
  obtain ⟨Γ'', env'', σ₁, hmore, hstands, hknown', hagrees, hput⟩ :=
    exec_stageAll (m := m) h hknown hstores hstage
  have hfst : (pat.zip result).map Prod.fst = pat := List.map_fst_zip (Nat.le_of_eq hlen)
  have hsnd : (pat.zip result).map Prod.snd = result := List.map_snd_zip (Nat.le_of_eq hlen.symm)
  have hlen' : pat.length = staged.length := by
    rw [← hstands.length_eq, List.length_zip, ← hlen, Nat.min_self]
  -- What stands for the results can be stored, and has newer tags than what is carried.
  have hstaged : List.Forall₂ (fun b a => Γ''.Stores b a ∧
      (b.placement = none → ∀ x ∈ a.occurrences, mid.names.next ≤ x.tag)) pat staged := by
    rw [← hfst, List.forall₂_map_left_iff]
    exact hstands.imp fun _ _ hq => ⟨hq.stores, hq.aside⟩
  have hstores' : Γ''.StoresAll pat staged := fun _ hq => (List.forall₂_zip hstaged hq).1
  have hapart : ∀ q ∈ pat.zip staged, q.1.placement = none → ∀ x ∈ q.2.occurrences,
      x ∉ pat.map Binder.name := by
    intro q hq hplace x hx hmem
    have hnew := (List.forall₂_zip hstaged hq).2 hplace x hx
    have hold := hdrawn x hmem
    omega
  obtain ⟨-, rfl, hdelivers⟩ := run_assignAll_eq_ok hknown' hstores' hassign
  have hextends' := hextends.trans hmore
  have hp' := hp.grow (hagrees.restrict hextends' hclosed) (Code.grows_exec hput)
  obtain ⟨vals, σ', hvals, hstored, hreached⟩ :=
    exec_results (m := m) hp' hagrees hextends' hlen' hdelivers hapart
  refine ⟨vals, σ', ?_, ?_, hreached⟩
  · rw [← hvals, mapM_eval_of_stands hstands, hsnd]
  · rw [Code.exec_append, hput]
    exact hstored

/-- The code runs the body of a loop once: from carried values that are held it leads to
carried values that are held, as the body does in the program. -/
def Turns (Γ : Scope) (env : Env I) (pat : List Binder) (counter : Name) (body : Body)
    (code : Code) : Prop :=
  ∀ ⦃r : List (Val I) × Memory I⦄ ⦃s : State I⦄, Reached Γ env pat r s → ∀ k : Nat,
    Option.Rel (Reached Γ env pat)
      (Body.eval I ((env.bindAll pat r.1).set counter (.scalar (I.number k))) r.2 body)
      (Code.exec I { s with vars := s.vars.set counter (I.number k) } code)

/-- **The body of a loop runs once**: counter and carried values come into scope, and the
results go from there into the carried values. -/
theorem turns_of_realises {counter : Name} {staged : List Operand} {put back : Code}
    {mid' : Context} (hpat : Γ.Admits pat) (hclosed : Γ.Closed) (hclosed' : (Γ.bindAll pat).Closed)
    (hcounter : Γ.bindAll pat counter = none)
    (hnew : ∀ x ∈ Stm.bindingsAll stms, (Γ.bindAll pat).set counter none x = none)
    (hrealises : Realises I ((Γ.bindAll pat).set counter none)
      (((Γ.bindAll pat).set counter none).after stms) stms inner)
    (hknown : (((Γ.bindAll pat).set counter none).after stms).Known mid)
    (hstores : (((Γ.bindAll pat).set counter none).after stms).StoresAll pat result)
    (hlen : pat.length = result.length)
    (hstage : ((pat.zip result).mapM fun (b, a) => stageCarried b a).run mid =
      ⟨.ok staged, put, mid'⟩)
    (hassign : (assignAll (pat.map Binder.destination) staged).run mid' =
      ⟨.ok (), back, last⟩) :
    Turns Γ env pat counter ⟨stms, result⟩ (inner ++ (put ++ back)) := by
  rintro ⟨vals, m⟩ ⟨σ, m'⟩ h k
  obtain rfl : m' = m := h.memory
  let v := I.number k
  have hcounted : Extends (Γ.bindAll pat) ((Γ.bindAll pat).set counter none) (env.bindAll pat vals)
      ((env.bindAll pat vals).set counter (.scalar v)) := .set hcounter _ none _
  have hextends := (Extends.bindAll hpat env vals).trans hcounted
  have hdrawn : ∀ x ∈ pat.map Binder.name, x.tag < mid.names.next := by
    intro x hx
    obtain ⟨kind, hkind⟩ := Option.isSome_iff_exists.mp (Γ.isSome_bindAll hx)
    exact hknown.drawn ((hcounted.within.trans (Scope.within_after hnew)).eq_some hkind)
  have hset : Agrees (Γ.bindAll pat) (env.bindAll pat vals) (σ.set counter v) :=
    (h.agrees_bindAll hpat hclosed).of_store fun x hx =>
      σ.set_of_ne v (Scope.ne_of_isSome hx hcounter)
  have henter := hset.setScalar hclosed' hcounter (σ.value_set_self counter v)
  have hp : Prepared Γ env pat (σ.set counter v) :=
    (h.prepared hpat).grow (henter.restrict hextends hclosed) (.set σ counter v)
  refine rel_body hp hclosed henter hextends hnew hrealises ?_
  intro env' σ' m' hp' hagrees hextends'
  exact exec_carry hp' hclosed hagrees hextends' hknown hdrawn hstores hlen hstage hassign

end

end KernelGen
