import KernelGen.Code.Basic
import KernelGen.Proofs.Meaning.Values

/-! # What emitted code does

Code runs on variables and memory.  A variable is declared before it is set, and set
before it is read.  Declaring it again takes its value away; so the code in the body of a
loop finds its variables anew in every run, and those of the run before are of no use.
The bound of a loop is computed once, and its counter is set before every run.

Positions of accesses are computed with exact integers.  Code is stuck where an operator
has no result, a condition is no truth value, a variable is not there, or a cell is not
there.  Code that makes blocks or launches kernels is not run here. -/
namespace KernelGen

/-- The variables: `none` before the declaration, then the value, if it is set. -/
def Store (I : Interpretation) : Type := Name → Option (Option I.Value)

/-- Between two statements. -/
structure State (I : Interpretation) where
  vars : Store I
  memory : Memory I

namespace Store
variable {I : Interpretation}

def declare (σ : Store I) (x : Name) : Store I := Function.update σ x (some none)

def set (σ : Store I) (x : Name) (v : I.Value) : Store I := Function.update σ x (some (some v))

/-- The value of a variable that is set. -/
def value (σ : Store I) (x : Name) : Option I.Value := (σ x).join

/-- The number that a variable stands for. -/
def number (σ : Store I) (x : Name) : Option Int := (σ.value x).map I.index

/-- Set a variable that is declared. -/
def assign (σ : Store I) (x : Name) (v : I.Value) : Option (Store I) :=
  (σ x).map fun _ => σ.set x v

theorem declare_of_ne (σ : Store I) {x y : Name} (h : y ≠ x) : σ.declare x y = σ y :=
  Function.update_of_ne h ..

theorem set_of_ne (σ : Store I) {x y : Name} (v : I.Value) (h : y ≠ x) : σ.set x v y = σ y :=
  Function.update_of_ne h ..

@[simp] theorem declare_self (σ : Store I) (x : Name) : σ.declare x x = some none :=
  Function.update_self ..

@[simp] theorem set_self (σ : Store I) (x : Name) (v : I.Value) : σ.set x v x = some (some v) :=
  Function.update_self ..

theorem value_set_self (σ : Store I) (x : Name) (v : I.Value) : (σ.set x v).value x = some v := by
  simp [value]

theorem isSome_of_value {σ : Store I} {x : Name} {v : I.Value} (h : σ.value x = some v) :
    (σ x).isSome := by
  unfold value at h
  cases hx : σ x with
  | none =>
    rw [hx] at h
    cases h
  | some _ => rfl

theorem assign_of_declared {σ : Store I} {x : Name} (h : (σ x).isSome) (v : I.Value) :
    σ.assign x v = some (σ.set x v) := by
  obtain ⟨w, hw⟩ := Option.isSome_iff_exists.mp h
  rw [assign, hw]
  rfl

end Store

section
variable (I : Interpretation)

/-- The value of an expression. -/
def Expr.eval (σ : Store I) : Expr → Option I.Value
  | const c => some (I.const c)
  | var x => σ.value x
  | apply op lhs rhs => do I.apply op (← lhs.eval σ) (← rhs.eval σ)

mutual

/-- Run a statement. -/
def Stmt.exec (s : State I) : Stmt → Option (State I)
  | .declareScalar x _ => some { s with vars := s.vars.declare x }
  | .set x e => do return { s with vars := ← s.vars.assign x (← e.eval I s.vars) }
  | .read x block i _ _ => do
    let v ← s.memory.load block (← i.exact s.vars.number)
    return { s with vars := ← s.vars.assign x v }
  | .write block i _ _ e => do
    return { s with
      memory := ← s.memory.store block (← i.exact s.vars.number) (← e.eval I s.vars) }
  | .branch cond yes no => do
    if ← I.truth (← cond.eval I s.vars) then Code.exec s yes else Code.exec s no
  | .loop counter bound body => do
    let v ← bound.eval I s.vars
    (List.range (I.index v).toNat).foldlM (fun s (k : Nat) =>
      Code.exec { s with vars := s.vars.set counter (I.number k) } body) s
  | .declareBlock .. | .allocate .. | .kernel _ => none

/-- Run statements one after the other. -/
def Code.exec (s : State I) : Code → Option (State I)
  | [] => some s
  | stmt :: code => do
    let s ← Stmt.exec s stmt
    Code.exec s code

end

theorem Stmt.exec_set {σ : Store I} {m : Memory I} {x : Name} {e : Expr} {v : I.Value}
    (hx : (σ x).isSome) (he : e.eval I σ = some v) :
    Stmt.exec I ⟨σ, m⟩ (.set x e) = some ⟨σ.set x v, m⟩ := by
  simp [Stmt.exec, he, Store.assign_of_declared hx]

theorem Code.exec_cons {s s' : State I} {stmt : Stmt} (h : stmt.exec I s = some s') (code : Code) :
    Code.exec I s (stmt :: code) = Code.exec I s' code := by
  rw [Code.exec, h]
  rfl

theorem Code.exec_singleton (s : State I) (stmt : Stmt) :
    Code.exec I s [stmt] = stmt.exec I s := by
  simp [Code.exec]

theorem Code.exec_append (s : State I) (code code' : Code) :
    Code.exec I s (code ++ code') = (Code.exec I s code).bind (Code.exec I · code') := by
  induction code generalizing s with
  | nil => rfl
  | cons stmt code ih =>
    rw [List.cons_append, Code.exec, Code.exec]
    cases stmt.exec I s with
    | none => rfl
    | some s' => exact ih s'

/-! ## Declared variables -/

variable {I}

/-- Every variable that is declared in `σ` is declared in `σ'`. -/
def Store.Grows (σ σ' : Store I) : Prop := ∀ x, (σ x).isSome → (σ' x).isSome

namespace Store.Grows
variable {σ σ' σ'' : Store I}

theorem refl (σ : Store I) : σ.Grows σ := fun _ h => h

theorem trans (h : σ.Grows σ') (h' : σ'.Grows σ'') : σ.Grows σ'' := fun x hx => h' x (h x hx)

theorem declare (σ : Store I) (x : Name) : σ.Grows (σ.declare x) := by
  intro y hy
  by_cases hxy : y = x
  · simp [hxy]
  · rwa [declare_of_ne σ hxy]

theorem set (σ : Store I) (x : Name) (v : I.Value) : σ.Grows (σ.set x v) := by
  intro y hy
  by_cases hxy : y = x
  · simp [hxy]
  · rwa [set_of_ne σ v hxy]

theorem assign {x : Name} {v : I.Value} (h : σ.assign x v = some σ') : σ.Grows σ' := by
  obtain ⟨_, -, rfl⟩ := Option.map_eq_some_iff.mp h
  exact set σ x v

end Store.Grows

/-- A fold of steps that grow the store grows it. -/
theorem grows_foldlM {α : Type} {f : State I → α → Option (State I)} {as : List α}
    (hf : ∀ s a s', f s a = some s' → s.vars.Grows s'.vars) {s s' : State I}
    (h : as.foldlM f s = some s') : s.vars.Grows s'.vars := by
  induction as generalizing s with
  | nil =>
    cases h
    exact .refl _
  | cons a as ih =>
    rw [List.foldlM_cons, Option.bind_eq_bind, Option.bind_eq_some_iff] at h
    obtain ⟨mid, hmid, hrest⟩ := h
    exact (hf s a mid hmid).trans (ih hrest)

mutual

/-- **Declarations last.** -/
theorem Stmt.grows_exec {s s' : State I} {stmt : Stmt} (h : stmt.exec I s = some s') :
    s.vars.Grows s'.vars := by
  match stmt with
  | .declareScalar x _ =>
    cases h
    exact .declare _ x
  | .set x e =>
    simp only [Stmt.exec, Option.bind_eq_bind, Option.bind_eq_some_iff] at h
    obtain ⟨v, -, σ, hσ, h⟩ := h
    cases h
    exact .assign hσ
  | .read x block i _ _ =>
    simp only [Stmt.exec, Option.bind_eq_bind, Option.bind_eq_some_iff] at h
    obtain ⟨k, -, v, -, σ, hσ, h⟩ := h
    cases h
    exact .assign hσ
  | .write block i _ _ e =>
    simp only [Stmt.exec, Option.bind_eq_bind, Option.bind_eq_some_iff] at h
    obtain ⟨k, -, v, -, m, -, h⟩ := h
    cases h
    exact .refl _
  | .branch cond yes no =>
    simp only [Stmt.exec, Option.bind_eq_bind, Option.bind_eq_some_iff] at h
    obtain ⟨v, -, b, -, h⟩ := h
    split at h
    · exact Code.grows_exec h
    · exact Code.grows_exec h
  | .loop counter bound body =>
    simp only [Stmt.exec, Option.bind_eq_bind, Option.bind_eq_some_iff] at h
    obtain ⟨v, -, h⟩ := h
    refine grows_foldlM (fun s k s' hbody => ?_) h
    exact (Store.Grows.set _ _ _).trans (Code.grows_exec hbody)
  | .declareBlock .. | .allocate .. | .kernel _ => cases h

theorem Code.grows_exec {s s' : State I} {code : Code} (h : Code.exec I s code = some s') :
    s.vars.Grows s'.vars := by
  match code with
  | [] =>
    cases h
    exact .refl _
  | stmt :: code =>
    rw [Code.exec, Option.bind_eq_bind, Option.bind_eq_some_iff] at h
    obtain ⟨mid, hmid, hrest⟩ := h
    exact (Stmt.grows_exec hmid).trans (Code.grows_exec hrest)

end

end

end KernelGen
