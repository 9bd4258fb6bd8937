import KernelGen.Proofs.Meaning.Code
import KernelGen.Proofs.Meaning.Programs
import KernelGen.Proofs.Meaning.Scopes

/-! # Environments and stores

Source programs run in an environment, emitted code on a store.  They agree on a scope
(`Agrees`) when every scalar in scope has the same value in both, and every array lives
where its place is.  Arrays have no variables in the store.

Names that are out of scope are not spoken of: the store may hold anything under them,
such as what a branch left behind.  So agreement is kept when other variables are set
(`Agrees.of_store`), and comes back when a scope is left that only had more names
(`Extends`, `Agrees.restrict`). -/
namespace KernelGen
variable {I : Interpretation}

/-! ## Indices -/

/-- Indices read the same variables as operands and as sizes. -/
theorem flatMap_occurrences_eq {indices : List Operand} {is : List Size}
    (hsizes : List.Forall₂ (fun a i => a.size? = some i) indices is) :
    is.flatMap Size.occurrences = indices.flatMap Operand.occurrences := by
  induction hsizes with
  | nil => rfl
  | @cons a i indices is hsize _ ih =>
    rw [List.flatMap_cons, List.flatMap_cons, ih]
    match a with
    | .const (.int n) | .var x =>
      cases hsize
      rfl

/-- The numbers of indices, given as operands and as sizes. -/
theorem mapM_number_eq_values {env : Env I} {ρ : Name → Int} {indices : List Operand}
    {is : List Size} (hsizes : List.Forall₂ (fun a i => a.size? = some i) indices is)
    (h : ∀ a ∈ indices, ∀ x ∈ a.occurrences, env.number x = some (ρ x)) :
    indices.mapM (·.number I env) = some (is.map (·.value ρ)) := by
  induction hsizes with
  | nil => rfl
  | @cons a i indices is hsize _ ih =>
    rw [List.forall_mem_cons] at h
    have hone : a.number I env = some (i.value ρ) := by
      match a with
      | .const (.int n) =>
        cases hsize
        simp [Operand.number, Operand.scalar, I.const_int, I.index_number, Size.value]
      | .var x =>
        cases hsize
        exact h.1 x (List.mem_cons_self ..)
    rw [List.mapM_cons, hone, ih h.2]
    rfl

/-! ## More names -/

/-- There are more names in scope, and those that were stand for what they did. -/
structure Extends (Γ Γ' : Scope) (env env' : Env I) : Prop where
  within : Γ.Within Γ'
  same : ∀ x, (Γ x).isSome → env' x = env x

namespace Extends
variable {Γ Γ' Γ'' : Scope} {env env' env'' : Env I} {x : Name}

theorem refl (Γ : Scope) (env : Env I) : Extends Γ Γ env env := ⟨.refl Γ, fun _ _ => rfl⟩

theorem trans (h : Extends Γ Γ' env env') (h' : Extends Γ' Γ'' env' env'') :
    Extends Γ Γ'' env env'' where
  within := h.within.trans h'.within
  same x hx := by rw [h'.same x (by rwa [h.within x hx]), h.same x hx]

/-- A name that was out of scope is bound. -/
theorem set (hx : Γ x = none) (env : Env I) (kind : Option Placement) (v : Val I) :
    Extends Γ (Γ.set x kind) env (env.set x v) where
  within := Scope.within_set kind hx
  same _ hy := env.set_of_ne v (Scope.ne_of_isSome hy hx)

/-- Binders that were out of scope are bound. -/
theorem bindAll {pat : List Binder} (hpat : Γ.Admits pat) (env : Env I) (vals : List (Val I)) :
    Extends Γ (Γ.bindAll pat) env (env.bindAll pat vals) where
  within := Scope.within_bindAll hpat.new
  same x hx := env.bindAll_of_not_mem vals fun hmem => Scope.ne_of_isSome hx (hpat.new x hmem) rfl

/-- Statements that bind names that were out of scope are run. -/
theorem after {stms : List Stm} {m m' : Memory I}
    (h : Stm.evalAll I env m stms = some (env', m'))
    (hnew : ∀ x ∈ Stm.bindingsAll stms, Γ x = none) : Extends Γ (Γ.after stms) env env' where
  within := Scope.within_after hnew
  same x hx := Stm.evalAll_frame I h fun hmem => Scope.ne_of_isSome hx (hnew x hmem) rfl

theorem scalar (h : Extends Γ Γ' env env') (hx : Γ x = some none) : env' x = env x :=
  h.same x (by simp [hx])

/-- What could be stored stands for the same. -/
theorem eval (h : Extends Γ Γ' env env') {b : Binder} {a : Operand} (ha : Γ.Stores b a) :
    a.eval I env' = a.eval I env :=
  Operand.eval_congr fun x hx => h.same x (ha.isSome x hx)

end Extends

/-! ## Agreement -/

/-- What an operand gives as a scalar, or as an array in its place. -/
def Gives (env : Env I) (σ : Store I) (kind : Option Placement) (a : Operand) (v : Val I) : Prop :=
  match kind with
  | none => ∃ w, v = .scalar w ∧ (Expr.ofOperand a).eval I σ = some w
  | some p => ∃ l, v = .array l ∧ p.locate env.number = some l

/-- Every scalar in scope has in the store the value that it has in the environment, and
every array in scope lives in its place. -/
def Agrees (Γ : Scope) (env : Env I) (σ : Store I) : Prop :=
  ∀ ⦃x kind⦄, Γ x = some kind → ∃ v, env x = some v ∧ Gives env σ kind (.var x) v

/-- The operand is right for a binder of this kind: a scalar, or an array in this place. -/
def Scope.Delivers (Γ : Scope) (kind : Option Placement) (a : Operand) : Prop :=
  match kind with
  | none => Γ.Reads a
  | some p => ∃ x, a = .var x ∧ Γ x = some (some p)

/-- The binders hold the values. -/
def Held (env : Env I) (σ : Store I) : List Binder → List (Val I) → Prop :=
  List.Forall₂ fun b v => Gives env σ b.placement (.var b.name) v

/-- Scalars that are held are declared. -/
theorem Held.declared {env : Env I} {σ : Store I} {pat : List Binder} {vals : List (Val I)}
    (h : Held env σ pat vals) : ∀ b ∈ pat, b.placement = none → (σ b.name).isSome := by
  induction pat generalizing vals with
  | nil => exact List.forall_mem_nil _
  | cons b pat ih =>
    cases h with
    | @cons _ v _ vals hb hrest =>
      refine List.forall_mem_cons.mpr ⟨fun hplace => ?_, ih hrest⟩
      rw [hplace] at hb
      obtain ⟨w, -, hw⟩ := hb
      exact Store.isSome_of_value hw

namespace Agrees
variable {Γ Γ' : Scope} {env env' : Env I} {σ σ' : Store I} {x : Name} {p : Placement}
  {pat : List Binder} {vals : List (Val I)}

/-! ## Reading -/

theorem scalar (h : Agrees Γ env σ) (hx : Γ x = some none) :
    ∃ w, env x = some (.scalar w) ∧ σ.value x = some w := by
  obtain ⟨v, hv, w, rfl, hw⟩ := h hx
  exact ⟨w, hv, hw⟩

theorem array (h : Agrees Γ env σ) (hx : Γ x = some (some p)) :
    ∃ l, env x = some (.array l) ∧ p.locate env.number = some l := by
  obtain ⟨v, hv, l, rfl, hl⟩ := h hx
  exact ⟨l, hv, hl⟩

/-- An operand that is read as a scalar has one value. -/
theorem reads (h : Agrees Γ env σ) {a : Operand} (ha : Γ.Reads a) :
    ∃ w, a.eval I env = some (.scalar w) ∧ a.scalar I env = some w ∧
      (Expr.ofOperand a).eval I σ = some w := by
  cases a with
  | const c => exact ⟨I.const c, rfl, rfl, rfl⟩
  | var x =>
    obtain ⟨w, henv, hσ⟩ := h.scalar (ha x (List.mem_cons_self ..))
    exact ⟨w, henv, by simp [Operand.scalar, Env.scalar, henv], hσ⟩

/-- An operand that is right for a binder gives its value. -/
theorem gives (h : Agrees Γ env σ) {kind : Option Placement} {a : Operand}
    (ha : Γ.Delivers kind a) : ∃ v, a.eval I env = some v ∧ Gives env σ kind a v := by
  cases kind with
  | none =>
    obtain ⟨w, heval, -, hσ⟩ := h.reads ha
    exact ⟨.scalar w, heval, w, rfl, hσ⟩
  | some p =>
    obtain ⟨x, rfl, hx⟩ := ha
    obtain ⟨l, henv, hl⟩ := h.array hx
    exact ⟨.array l, henv, l, rfl, hl⟩

/-- Operands that are right for binders have values. -/
theorem givesAll (h : Agrees Γ env σ) {as : List Operand} (hlen : pat.length = as.length)
    (ha : ∀ q ∈ pat.zip as, Γ.Delivers q.1.placement q.2) :
    ∃ vals, as.mapM (·.eval I env) = some vals ∧
      List.Forall₂ (fun q v => Gives env σ q.1.placement q.2 v) (pat.zip as) vals := by
  induction pat generalizing as with
  | nil =>
    obtain rfl := List.eq_nil_of_length_eq_zero hlen.symm
    exact ⟨[], rfl, .nil⟩
  | cons b pat ih =>
    cases as with
    | nil => cases hlen
    | cons a as =>
      rw [List.zip_cons_cons, List.forall_mem_cons] at ha
      obtain ⟨v, heval, hv⟩ := h.gives ha.1
      obtain ⟨vals, hevals, hvals⟩ := ih (Nat.succ.inj hlen) ha.2
      refine ⟨v :: vals, ?_, .cons hv hvals⟩
      rw [List.mapM_cons, heval, hevals]
      rfl

/-- A scalar stands for the same number on both sides. -/
theorem number (h : Agrees Γ env σ) (hx : Γ x = some none) :
    ∃ n, env.number x = some n ∧ σ.number x = some n := by
  obtain ⟨w, henv, hσ⟩ := h.scalar hx
  exact ⟨I.index w, by simp [Env.number, Env.scalar, henv], by simp [Store.number, hσ]⟩

/-- A place that reads scalars in scope is a location. -/
theorem locate (h : Agrees Γ env σ) (hp : Γ.Supports p) : ∃ l, p.locate env.number = some l := by
  refine ⟨_, Placement.locate_eq_values (ρ := fun x => (env.number x).getD 0) fun x hx => ?_⟩
  obtain ⟨n, hn, -⟩ := h.number (hp x hx)
  simp [hn]

/-- Binders of arrays whose places read scalars in scope hold their locations. -/
theorem locateAll (h : Agrees Γ env σ) (hplaces : ∀ b ∈ pat, Γ.Places b)
    (hplaced : ∀ b ∈ pat, b.placement.isSome) :
    ∃ ls, pat.mapM (fun b => b.placement.bind (·.locate env.number)) = some ls ∧
      Held env σ pat (ls.map .array) := by
  induction pat with
  | nil => exact ⟨[], rfl, .nil⟩
  | cons b pat ih =>
    rw [List.forall_mem_cons] at hplaces hplaced
    obtain ⟨p, hp⟩ := Option.isSome_iff_exists.mp hplaced.1
    obtain ⟨l, hl⟩ := h.locate (hplaces.1 p hp)
    obtain ⟨ls, hls, hheld⟩ := ih hplaces.2 hplaced.2
    refine ⟨l :: ls, ?_, .cons ?_ hheld⟩
    · rw [List.mapM_cons, hp, hls, Option.bind_some, hl]
      rfl
    · rw [hp]
      exact ⟨l, rfl, hl⟩

/-! ## Changing both sides -/

/-- A place depends on scalars in scope only. -/
theorem locate_congr (h : Agrees Γ env σ) (hp : Γ.Supports p)
    (henv : ∀ x, Γ x = some none → env' x = env x) :
    p.locate env'.number = p.locate env.number := by
  refine Placement.locate_congr (fun x hx => ?_) fun x hx => ?_
  · obtain ⟨n, hn, -⟩ := h.number (hp x hx)
    simp [hn]
  · simp [Env.number, Env.scalar, henv x (hp x hx)]

theorem gives_congr (h : Agrees Γ env σ) {kind : Option Placement} {a : Operand} {v : Val I}
    (hp : ∀ p, kind = some p → Γ.Supports p) (henv : ∀ x, Γ x = some none → env' x = env x)
    (hv : Gives env σ' kind a v) : Gives env' σ' kind a v := by
  cases kind with
  | none => exact hv
  | some p =>
    obtain ⟨l, hvl, hl⟩ := hv
    exact ⟨l, hvl, by rw [h.locate_congr (hp p rfl) henv, hl]⟩

end Agrees

theorem Gives.of_store {env : Env I} {σ σ' : Store I} {kind : Option Placement} {a : Operand}
    {v : Val I} (h : Gives env σ kind a v)
    (hσ : kind = none → ∀ x ∈ a.occurrences, σ' x = σ x) : Gives env σ' kind a v := by
  match kind, a with
  | some p, a => exact h
  | none, .const c => exact h
  | none, .var x =>
    obtain ⟨w, hw, hx⟩ := h
    refine ⟨w, hw, ?_⟩
    rw [← hx]
    exact congrArg Option.join (hσ rfl x (List.mem_cons_self ..))

namespace Agrees
variable {Γ Γ' : Scope} {env env' : Env I} {σ σ' : Store I} {x : Name} {p : Placement}
  {pat : List Binder} {vals : List (Val I)}

/-- Variables that are out of scope may change. -/
theorem of_store (h : Agrees Γ env σ) (hσ : ∀ x, (Γ x).isSome → σ' x = σ x) :
    Agrees Γ env σ' := by
  intro x kind hx
  obtain ⟨v, hv, hgives⟩ := h hx
  refine ⟨v, hv, hgives.of_store fun _ y hy => ?_⟩
  obtain rfl := List.mem_singleton.mp hy
  exact hσ y (by simp [hx])

/-- The names of a smaller scope. -/
theorem mono (h : Agrees Γ' env σ) (hwithin : Γ.Within Γ') : Agrees Γ env σ :=
  fun _ _ hx => h (hwithin.eq_some hx)

/-- Names that are out of scope may stand for something else. -/
theorem of_env (h : Agrees Γ env σ) (hclosed : Γ.Closed)
    (henv : ∀ x, (Γ x).isSome → env' x = env x) : Agrees Γ env' σ := by
  intro x kind hx
  obtain ⟨v, hv, hgives⟩ := h hx
  refine ⟨v, by rw [henv x (by simp [hx]), hv], h.gives_congr (fun p hp => ?_) ?_ hgives⟩
  · subst hp
    exact hclosed hx
  · exact fun y hy => henv y (by simp [hy])

/-- **Agreement outside follows from agreement inside.** -/
theorem restrict (h : Agrees Γ' env' σ) (hextends : Extends Γ Γ' env env') (hclosed : Γ.Closed) :
    Agrees Γ env σ :=
  (h.mono hextends.within).of_env hclosed fun x hx => (hextends.same x hx).symm

/-! ## Binding on both sides -/

/-- A name comes into scope with what it holds. -/
theorem set (h : Agrees Γ env σ) (hclosed : Γ.Closed) (hx : Γ x = none)
    {kind : Option Placement} (hkind : ∀ p, kind = some p → Γ.Supports p) {v : Val I}
    (hv : Gives env σ kind (.var x) v) : Agrees (Γ.set x kind) (env.set x v) σ := by
  have hextends : Extends Γ (Γ.set x kind) env (env.set x v) := .set hx env kind v
  intro y k hy
  by_cases hyx : y = x
  · subst hyx
    rw [Scope.set_self, Option.some.injEq] at hy
    subst hy
    exact ⟨v, env.set_self y v, h.gives_congr hkind (fun _ => hextends.scalar) hv⟩
  · rw [Scope.set_of_ne Γ kind hyx] at hy
    exact h.of_env hclosed hextends.same hy

theorem setScalar (h : Agrees Γ env σ) (hclosed : Γ.Closed) (hx : Γ x = none) {w : I.Value}
    (hw : σ.value x = some w) : Agrees (Γ.set x none) (env.set x (.scalar w)) σ := by
  have hgives : Gives env σ none (.var x) (.scalar w) := ⟨w, rfl, hw⟩
  refine h.set hclosed hx ?_ hgives
  exact nofun

/-- What binders hold does not depend on names that are out of scope. -/
theorem held_of_env (h : Agrees Γ env σ) (hplaces : ∀ b ∈ pat, Γ.Places b)
    (henv : ∀ x, Γ x = some none → env' x = env x) (hheld : Held env σ' pat vals) :
    Held env' σ' pat vals := by
  refine ((List.forall₂_and_left _ _).mpr ⟨hplaces, hheld⟩).imp ?_
  rintro b v ⟨hb, hv⟩
  exact h.gives_congr hb henv hv

/-- What binders hold inside, they hold outside. -/
theorem held_restrict (h : Agrees Γ' env' σ) (hextends : Extends Γ Γ' env env')
    (hplaces : ∀ b ∈ pat, Γ.Places b) (hheld : Held env' σ' pat vals) : Held env σ' pat vals :=
  (h.mono hextends.within).held_of_env hplaces (fun _ hx => (hextends.scalar hx).symm) hheld

/-- **Binders come into scope with what they hold.** -/
theorem bindAll (h : Agrees Γ env σ) (hclosed : Γ.Closed) (hnodup : (pat.map Binder.name).Nodup)
    (hnew : ∀ x ∈ pat.map Binder.name, Γ x = none) (hplaces : ∀ b ∈ pat, Γ.Places b)
    (hheld : Held env σ pat vals) : Agrees (Γ.bindAll pat) (env.bindAll pat vals) σ := by
  induction pat generalizing Γ env vals with
  | nil =>
    cases hheld
    exact h
  | cons b pat ih =>
    cases hheld with
    | @cons _ v _ vals hb hrest =>
      rw [List.map_cons, List.nodup_cons] at hnodup
      rw [List.map_cons, List.forall_mem_cons] at hnew
      rw [List.forall_mem_cons] at hplaces
      have hwithin := Scope.within_set b.placement hnew.1
      refine ih (h.set hclosed hnew.1 hplaces.1 hb) (hclosed.set hnew.1 hplaces.1) hnodup.2 ?_ ?_ ?_
      · intro x hx
        have hne : x ≠ b.name := by
          rintro rfl
          exact hnodup.1 hx
        exact (Scope.set_of_ne Γ b.placement hne).trans (hnew.2 x hx)
      · exact fun b' hb' p hp => hwithin.supports (hplaces.2 b' hb' p hp)
      · exact h.held_of_env hplaces.2 (fun _ => (Extends.set hnew.1 env b.placement v).scalar) hrest

/-! ## Positions -/

/-- **The position of an element is its cell.** -/
theorem position (h : Agrees Γ env σ) (hclosed : Γ.Closed) (hx : Γ x = some (some p))
    {indices : List Operand} {is : List Size}
    (hsizes : List.Forall₂ (fun a i => a.size? = some i) indices is)
    (hreads : ∀ a ∈ indices, Γ.Reads a) :
    ∃ l ns, env.location x = some l ∧ p.locate env.number = some l ∧
      indices.mapM (·.number I env) = some ns ∧
      (p.layout.position is).exact σ.number = some (l.cell ns) := by
  obtain ⟨l, henv, hl⟩ := h.array hx
  have hplace : p.locate σ.number = some l := by
    rw [← hl]
    refine Placement.locate_congr (fun y hy => ?_) fun y hy => ?_
    · obtain ⟨n, hn, -⟩ := h.number (hclosed hx y hy)
      simp [hn]
    · obtain ⟨n, hn, hσ⟩ := h.number (hclosed hx y hy)
      rw [hn, hσ]
  -- The numbers that scalars in scope stand for.
  let ρ : Name → Int := fun y => (σ.number y).getD 0
  have hρ : ∀ y, Γ y = some none → env.number y = some (ρ y) ∧ σ.number y = some (ρ y) := by
    intro y hy
    obtain ⟨n, hn, hσ⟩ := h.number hy
    simp [ρ, hn, hσ]
  have hnumbers : indices.mapM (·.number I env) = some (is.map (·.value ρ)) :=
    mapM_number_eq_values hsizes fun a ha y hy => (hρ y (hreads a ha y hy)).1
  have hoccurs : ∀ i ∈ is, ∀ y ∈ i.occurrences, Γ y = some none := by
    intro i hi y hy
    have hmem : y ∈ indices.flatMap Operand.occurrences := by
      rw [← flatMap_occurrences_eq hsizes]
      exact List.mem_flatMap.mpr ⟨i, hi, hy⟩
    obtain ⟨a, ha, hya⟩ := List.mem_flatMap.mp hmem
    exact hreads a ha y hya
  refine ⟨l, _, by simp [Env.location, henv], hl, hnumbers, ?_⟩
  exact Placement.exact_position (fun y hy => (hρ y (hclosed hx y hy)).2)
    (fun i hi y hy => (hρ y (hoccurs i hi y hy)).2) hplace

end Agrees

end KernelGen
