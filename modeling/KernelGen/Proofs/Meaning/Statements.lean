import KernelGen.Proofs.Meaning.Storing

/-! # Code for single statements

Code reaches what an expression does (`Reached`) when memory is the same, its binders hold
the values of the expression, and everything in scope is as before.  Binders are declared
before (`Prepared`).

An expression and its code may both be stuck.  `Option.Rel` relates the two outcomes: either
both are missing, or both are there and belong together.  For the forms without bodies
there is one lemma each; `exec_results` is about the results of a body. -/
namespace KernelGen
open Lowering

section
variable {I : Interpretation}

/-- The values are held by the binders, memory is the same, and what is in scope is as it
was in the environment. -/
structure Reached (Γ : Scope) (env : Env I) (pat : List Binder) (r : List (Val I) × Memory I)
    (s : State I) : Prop where
  memory : s.memory = r.2
  agrees : Agrees Γ env s.vars
  held : Held env s.vars pat r.1

/-- The binders are declared, and not yet in scope. -/
structure Prepared (Γ : Scope) (env : Env I) (pat : List Binder) (σ : Store I) : Prop
    extends Γ.Admits pat where
  agrees : Agrees Γ env σ
  declared : ∀ b ∈ pat, b.placement = none → (σ b.name).isSome

variable {Γ : Scope} {env : Env I} {σ : Store I} {m : Memory I} {ctx last : Context}
  {pat : List Binder} {code : Code} {b : Binder}

/-! ## Single statements -/

namespace Lowering

/-- The only destination of a pattern is that of its only binder. -/
theorem binder_of_single {d : Destination}
    (hrun : (single (pat.map Binder.destination)).run ctx = ⟨.ok d, code, last⟩) :
    ∃ b, pat = [b] ∧ d = b.destination ∧ code = [] ∧ last = ctx := by
  obtain ⟨hdests, rfl, rfl⟩ := run_single_eq_ok.mp hrun
  obtain ⟨b, rfl, rfl⟩ := List.map_eq_singleton_iff.mp hdests
  exact ⟨b, rfl, rfl, rfl, rfl⟩

theorem binder_of_singleScalar {x : Name}
    (hrun : (singleScalar (pat.map Binder.destination)).run ctx = ⟨.ok x, code, last⟩) :
    ∃ b, pat = [b] ∧ b.placement = none ∧ x = b.name ∧ code = [] ∧ last = ctx := by
  obtain ⟨hdests, rfl, rfl⟩ := run_singleScalar_eq_ok.mp hrun
  obtain ⟨⟨y, ty, _ | p⟩, rfl, hdest⟩ := List.map_eq_singleton_iff.mp hdests <;> cases hdest
  exact ⟨_, rfl, rfl, rfl, rfl, rfl⟩

/-- Reading an element is one statement. -/
theorem run_lowerIndex_eq_ok {array : Name} {indices : List Operand}
    (hrun : (lowerIndex (pat.map Binder.destination) array indices).run ctx =
      ⟨.ok (), code, last⟩) :
    ∃ b ty p is space, pat = [b] ∧ b.placement = none ∧
      ctx.vars.get? array = some (.array ty p) ∧
      List.Forall₂ (fun a i => a.size? = some i) indices is ∧
      code = [.read b.name p.block (p.layout.position is) ty.element space] := by
  obtain ⟨x, front₁, mid₁, rest₁, hsingle, hafter₁, rfl⟩ := run_bind_eq_ok.mp hrun
  obtain ⟨b, rfl, hb, rfl, rfl, rfl⟩ := binder_of_singleScalar hsingle
  obtain ⟨⟨ty, p⟩, front₂, mid₂, rest₂, harray, hafter₂, rfl⟩ := run_bind_eq_ok.mp hafter₁
  obtain ⟨hentry, rfl, rfl⟩ := run_ask_eq_ok.mp harray
  obtain ⟨-, hafter₃⟩ := run_guard_eq_ok.mp hafter₂
  obtain ⟨is, front₃, mid₃, rest₃, hpositions, hread, rfl⟩ := run_bind_eq_ok.mp hafter₃
  obtain ⟨hsizes, rfl, rfl⟩ := run_positions_eq_ok.mp hpositions
  obtain ⟨space, front₄, mid₄, rest₄, hspace, hemit, rfl⟩ := run_bind_eq_ok.mp hread
  obtain ⟨-, rfl, rfl⟩ := run_ask_eq_ok.mp hspace
  cases hemit
  exact ⟨b, ty, p, is, space, rfl, hb, Context.array_eq_ok_iff.mp hentry, hsizes, rfl⟩

/-- Writing an element is one statement. -/
theorem run_lowerUpdate_eq_ok {indices : List Operand} {value : Operand}
    (hrun : (lowerUpdate (pat.map Binder.destination) indices value).run ctx =
      ⟨.ok (), code, last⟩) :
    ∃ b p is space, pat = [b] ∧ b.placement = some p ∧
      List.Forall₂ (fun a i => a.size? = some i) indices is ∧
      code = [.write p.block (p.layout.position is) b.ty.element space (.ofOperand value)] := by
  obtain ⟨d, front₁, mid₁, rest₁, hsingle, hafter₁, rfl⟩ := run_bind_eq_ok.mp hrun
  obtain ⟨⟨x, ty, placement⟩, rfl, rfl, rfl, rfl⟩ := binder_of_single hsingle
  cases placement with
  | none => cases hafter₁
  | some p =>
    obtain ⟨is, front₂, mid₂, rest₂, hpositions, hwrite, rfl⟩ := run_bind_eq_ok.mp hafter₁
    obtain ⟨hsizes, rfl, rfl⟩ := run_positions_eq_ok.mp hpositions
    obtain ⟨space, front₃, mid₃, rest₃, hspace, hemit, rfl⟩ := run_bind_eq_ok.mp hwrite
    obtain ⟨-, rfl, rfl⟩ := run_ask_eq_ok.mp hspace
    cases hemit
    exact ⟨_, p, is, space, rfl, rfl, hsizes, rfl⟩

end Lowering

/-- A value is put into the only binder, if there is a value. -/
theorem rel_set (hp : Prepared Γ env [b] σ) (hb : b.placement = none) (v : Option I.Value) :
    Option.Rel (Reached Γ env [b]) (v.bind fun v => some ([.scalar v], m))
      (v.bind fun v => (σ.assign b.name v).bind fun σ' => some ⟨σ', m⟩) := by
  cases v with
  | none => exact .none
  | some v =>
    have hdeclared : (σ b.name).isSome := hp.declared b (List.mem_cons_self ..) hb
    rw [Option.bind_some, Option.bind_some, Store.assign_of_declared hdeclared]
    refine .some ⟨rfl, hp.agrees.of_store fun y hy => σ.set_of_ne v ?_, .cons ?_ .nil⟩
    · exact Scope.ne_of_isSome hy (hp.new _ (List.mem_cons_self ..))
    · rw [hb]
      exact ⟨v, rfl, σ.value_set_self b.name v⟩

theorem rel_apply {op : Operator} {lhs rhs : Operand} (hp : Prepared Γ env pat σ)
    (hl : Γ.Reads lhs) (hr : Γ.Reads rhs)
    (hrun : (singleScalar (pat.map Binder.destination) >>= fun x =>
      emit (.set x (.apply op (.ofOperand lhs) (.ofOperand rhs)))).run ctx =
        ⟨.ok (), code, last⟩) :
    Option.Rel (Reached Γ env pat) (Exp.eval I env m pat (.apply op lhs rhs))
      (Code.exec I ⟨σ, m⟩ code) := by
  obtain ⟨x, front, mid, rest, hsingle, hemit, rfl⟩ := run_bind_eq_ok.mp hrun
  obtain ⟨b, rfl, hb, rfl, rfl, rfl⟩ := binder_of_singleScalar hsingle
  cases hemit
  obtain ⟨v, -, hv, hv'⟩ := hp.agrees.reads hl
  obtain ⟨w, -, hw, hw'⟩ := hp.agrees.reads hr
  have hrel := rel_set (m := m) hp hb (I.apply op v w)
  simpa [Exp.eval, Code.exec_singleton, Stmt.exec, Expr.eval, hv, hw, hv', hw'] using hrel

theorem rel_lowerIndex {array : Name} {indices : List Operand} (hp : Prepared Γ env pat σ)
    (hknown : Γ.Known ctx) (harray : (Γ array).isSome) (hreads : ∀ a ∈ indices, Γ.Reads a)
    (hrun : (lowerIndex (pat.map Binder.destination) array indices).run ctx =
      ⟨.ok (), code, last⟩) :
    Option.Rel (Reached Γ env pat) (Exp.eval I env m pat (.index array indices))
      (Code.exec I ⟨σ, m⟩ code) := by
  obtain ⟨b, ty, p, is, space, rfl, hb, hentry, hsizes, rfl⟩ := run_lowerIndex_eq_ok hrun
  have hx := hknown.array harray hentry
  obtain ⟨l, ns, hl, hplace, hns, hposition⟩ :=
    hp.agrees.position hknown.closed hx hsizes hreads
  have hblock := Placement.block_of_locate hplace
  have hrel := rel_set (m := m) hp hb (m.load l.block (l.cell ns))
  simpa [Exp.eval, Code.exec_singleton, Stmt.exec, hl, hns, hposition, hblock] using hrel

theorem rel_lowerUpdate {array : Name} {indices : List Operand} {value : Operand}
    (hp : Prepared Γ env pat σ) (hclosed : Γ.Closed)
    (harray : ∀ b ∈ pat, Γ array = some b.placement) (hreads : ∀ a ∈ indices, Γ.Reads a)
    (hvalue : Γ.Reads value)
    (hrun : (lowerUpdate (pat.map Binder.destination) indices value).run ctx =
      ⟨.ok (), code, last⟩) :
    Option.Rel (Reached Γ env pat) (Exp.eval I env m pat (.update array indices value))
      (Code.exec I ⟨σ, m⟩ code) := by
  obtain ⟨b, p, is, space, rfl, hb, hsizes, rfl⟩ := run_lowerUpdate_eq_ok hrun
  have hx : Γ array = some (some p) := by rw [harray b (List.mem_cons_self ..), hb]
  obtain ⟨l, ns, hl, hplace, hns, hposition⟩ := hp.agrees.position hclosed hx hsizes hreads
  have hblock := Placement.block_of_locate hplace
  obtain ⟨v, -, hv, hv'⟩ := hp.agrees.reads hvalue
  simp only [Exp.eval, Code.exec_singleton, Stmt.exec, hl, hns, hv, hv', hposition, hblock,
    Option.bind_eq_bind, Option.bind_some]
  cases m.store p.block (l.cell ns) v with
  | none => exact .none
  | some m' =>
    refine .some ⟨rfl, hp.agrees, .cons ?_ .nil⟩
    rw [hb]
    exact ⟨l, rfl, hplace⟩

theorem rel_scratch (hp : Prepared Γ env pat σ) (hplaced : ∀ b ∈ pat, b.placement.isSome)
    (element : Ty) (shape : List Operand) :
    Option.Rel (Reached Γ env pat) (Exp.eval I env m pat (.scratch element shape))
      (Code.exec I ⟨σ, m⟩ []) := by
  obtain ⟨ls, hls, hheld⟩ := hp.agrees.locateAll hp.places hplaced
  rw [Exp.eval, hls]
  exact .some ⟨rfl, hp.agrees, hheld⟩

/-! ## Bodies -/

/-- Two steps in a row have the same outcome as two others. -/
theorem rel_bind {α β γ δ : Type} {R : α → β → Prop} {S : γ → δ → Prop} {x : Option α}
    {y : Option β} {f : α → Option γ} {g : β → Option δ} (h : Option.Rel R x y)
    (hfg : ∀ a b, x = some a → y = some b → R a b → Option.Rel S (f a) (g b)) :
    Option.Rel S (x.bind f) (y.bind g) := by
  cases h with
  | none => exact .none
  | some h => exact hfg _ _ rfl rfl h

/-- Steps that are repeated on both sides. -/
theorem rel_foldlM {α β κ : Type} {R : α → β → Prop} {f : α → κ → Option α} {g : β → κ → Option β}
    (hstep : ∀ a b k, R a b → Option.Rel R (f a k) (g b k)) (ks : List κ) {a : α} {b : β}
    (h : R a b) : Option.Rel R (ks.foldlM f a) (ks.foldlM g b) := by
  induction ks generalizing a b with
  | nil => exact .some h
  | cons k ks ih =>
    rw [List.foldlM_cons, List.foldlM_cons]
    exact rel_bind (hstep a b k h) fun a' b' _ _ h' => ih h'

/-- The binders are still declared later on. -/
theorem Prepared.grow (h : Prepared Γ env pat σ) {σ' : Store I} (hagrees : Agrees Γ env σ')
    (hgrows : σ.Grows σ') : Prepared Γ env pat σ' :=
  { h with agrees := hagrees, declared := fun b hb hplace => hgrows _ (h.declared b hb hplace) }

/-- **Results are stored** from within another scope; the variables that are set are not read
by them. -/
theorem exec_results {Γ' : Scope} {env' : Env I} {as : List Operand} (hp : Prepared Γ env pat σ)
    (h : Agrees Γ' env' σ) (hextends : Extends Γ Γ' env env') (hlen : pat.length = as.length)
    (hdelivers : ∀ q ∈ pat.zip as, Γ'.Delivers q.1.placement q.2)
    (hapart : ∀ q ∈ pat.zip as, q.1.placement = none → ∀ x ∈ q.2.occurrences,
      x ∉ pat.map Binder.name) :
    ∃ vals σ', as.mapM (·.eval I env') = some vals ∧
      Code.exec I ⟨σ, m⟩ ((pat.zip as).flatMap stored) = some ⟨σ', m⟩ ∧
      Reached Γ env pat (vals, m) ⟨σ', m⟩ := by
  obtain ⟨vals, hvals, hgives⟩ := h.givesAll hlen hdelivers
  have hfst : (pat.zip as).map Prod.fst = pat := List.map_fst_zip (Nat.le_of_eq hlen)
  have hnames : (pat.zip as).map (·.1.name) = pat.map Binder.name := by
    calc (pat.zip as).map (·.1.name)
        = ((pat.zip as).map Prod.fst).map Binder.name := by rw [List.map_map]; rfl
      _ = pat.map Binder.name := by rw [hfst]
  have hdeclared : ∀ q ∈ pat.zip as, q.1.placement = none → (σ q.1.name).isSome :=
    fun q hq => hp.declared q.1 (List.of_mem_zip hq).1
  obtain ⟨σ', hexec, hsame, hall⟩ := exec_stored (m := m) hgives (by rw [hnames]; exact hp.nodup)
    hdeclared (by rw [hnames]; exact hapart)
  have hheld : Held env' σ' pat vals := by
    rw [← hfst]
    exact List.forall₂_map_left_iff.mpr hall
  have hback : Agrees Γ env σ' := by
    refine hp.agrees.of_store fun x hx => hsame x ?_
    rw [hnames]
    exact fun hmem => Scope.ne_of_isSome hx (hp.new x hmem) rfl
  exact ⟨vals, σ', hvals, hexec, rfl, hback, h.held_restrict hextends hp.places hheld⟩

end

end KernelGen
