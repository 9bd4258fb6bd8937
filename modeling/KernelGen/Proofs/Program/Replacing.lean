import KernelGen.Program.Traverse
import KernelGen.Proofs.Program.Correspondence

/-! # Walks that only replace

A walk may do anything on its way.  One that puts the image of every placement and every
operand in its place, and does nothing else, never fails and returns the rewritten program
(`Body.traverse_replacing`).  So every placement and every operand has been visited once,
as the result holds the image of it and not an image of the image, and nothing else has been
touched (`Body.corresponds_iff`).

`traverse_functorial` states this of walks that could fail, for bodies and for lambdas: they
act on programs as functions act on the members of a list, with identities going to
identities and two walks in a row to one walk. -/
namespace KernelGen

/-- Replace placements and operands by their images. -/
def Action.replacing {m : Type → Type} [Monad m] (f : Placement → Placement)
    (g : Operand → Operand) : Action m where
  enter _ := pure ()
  placement p := pure (f p)
  operand a := pure (g a)

section
variable {m : Type → Type} [Monad m] [LawfulMonad m] (f : Placement → Placement)
  (g : Operand → Operand)

theorem Binder.traverseBound_replacing (b : Binder) :
    b.traverseBound (.replacing f g) = (pure (b.rewrite f) : m Binder) := by
  rcases b with ⟨x, ty, _ | p⟩ <;>
    simp [Binder.traverseBound, Binder.traverse, Action.replacing, Binder.rewrite]

theorem Binder.traverseParam_replacing (b : Binder) :
    b.traverseParam (.replacing f g) = (pure (b.rewrite f) : m Binder) := by
  rcases b with ⟨x, ty, _ | p⟩ <;>
    simp [Binder.traverseParam, Binder.traverse, Action.replacing, Binder.rewrite]

theorem Binder.traverseCarried_replacing (q : Binder × Operand) :
    Binder.traverseCarried (.replacing f g) q =
      (pure (q.1.rewrite f, g q.2) : m (Binder × Operand)) := by
  rcases q with ⟨b, init⟩
  have henter : ∀ s, (Action.replacing f g).enter s = (pure () : m Unit) := fun _ => rfl
  have hoperand : ∀ a, (Action.replacing f g).operand a = (pure (g a) : m Operand) := fun _ => rfl
  simp only [Binder.traverseCarried, Binder.traverseParam_replacing, henter, hoperand, pure_bind]

theorem mapM_traverseBound_replacing (bs : List Binder) :
    bs.mapM (Binder.traverseBound (.replacing f g)) =
      (pure (bs.map (Binder.rewrite f)) : m (List Binder)) := by
  rw [funext (Binder.traverseBound_replacing (m := m) f g), List.mapM_pure]

theorem mapM_traverseParam_replacing (bs : List Binder) :
    bs.mapM (Binder.traverseParam (.replacing f g)) =
      (pure (bs.map (Binder.rewrite f)) : m (List Binder)) := by
  rw [funext (Binder.traverseParam_replacing (m := m) f g), List.mapM_pure]

theorem mapM_traverseCarried_replacing (carried : List (Binder × Operand)) :
    carried.mapM (Binder.traverseCarried (.replacing f g)) =
      (pure (carried.map fun (b, init) => (b.rewrite f, g init)) :
        m (List (Binder × Operand))) := by
  rw [funext (Binder.traverseCarried_replacing (m := m) f g), List.mapM_pure]

theorem mapM_operand_replacing (as : List Operand) :
    as.mapM (Action.replacing f g).operand = (pure (as.map g) : m (List Operand)) :=
  List.mapM_pure

mutual

/-- **A walk that only replaces returns the rewritten program.** -/
theorem Stm.traverseAll_replacing (stms : List Stm) :
    Stm.traverseAll (.replacing f g) stms = (pure (Stm.rewriteAll f g stms) : m (List Stm)) := by
  match stms with
  | [] => rfl
  | stm :: stms =>
    simp only [Stm.traverseAll, Stm.rewriteAll, Stm.traverse_replacing stm,
      Stm.traverseAll_replacing stms, pure_bind]

theorem Stm.traverse_replacing (stm : Stm) :
    Stm.traverse (.replacing f g) stm = (pure (stm.rewrite f g) : m Stm) := by
  match stm with
  | ⟨pat, exp⟩ =>
    have henter : ∀ s, (Action.replacing f g).enter s = (pure () : m Unit) := fun _ => rfl
    simp only [Stm.traverse, Stm.rewrite, henter, mapM_traverseBound_replacing,
      Exp.traverse_replacing exp, pure_bind]

theorem Exp.traverse_replacing (e : Exp) :
    Exp.traverse (.replacing f g) e = (pure (e.rewrite f g) : m Exp) := by
  have henter : ∀ s, (Action.replacing f g).enter s = (pure () : m Unit) := fun _ => rfl
  have hoperand : ∀ a, (Action.replacing f g).operand a = (pure (g a) : m Operand) := fun _ => rfl
  match e with
  | .operand _ | .apply .. => simp only [Exp.traverse, Exp.rewrite, hoperand, pure_bind]
  | .index .. | .update .. | .scratch .. =>
    simp only [Exp.traverse, Exp.rewrite, hoperand, mapM_operand_replacing, pure_bind]
  | .alloc size space => rfl
  | .branch cond ⟨yes, _⟩ ⟨no, _⟩ =>
    simp only [Exp.traverse, Body.traverse, Exp.rewrite, Body.rewrite, henter, hoperand,
      Stm.traverseAll_replacing yes, Stm.traverseAll_replacing no, mapM_operand_replacing,
      pure_bind]
  | .loop carried counter bound ⟨stms, _⟩ =>
    simp only [Exp.traverse, Body.traverse, Exp.rewrite, Body.rewrite, henter, hoperand,
      mapM_traverseCarried_replacing, Stm.traverseAll_replacing stms, mapM_operand_replacing,
      pure_bind]
  | .map ⟨params, ⟨stms, _⟩, ret⟩ inputs =>
    simp only [Exp.traverse, Lambda.traverse, Body.traverse, Exp.rewrite, Lambda.rewrite,
      Body.rewrite, henter, mapM_traverseParam_replacing, Stm.traverseAll_replacing stms,
      mapM_operand_replacing, pure_bind]

end

theorem Body.traverse_replacing (b : Body) :
    b.traverse (.replacing f g) = (pure (b.rewrite f g) : m Body) := by
  rcases b with ⟨stms, result⟩
  have henter : ∀ s, (Action.replacing f g).enter s = (pure () : m Unit) := fun _ => rfl
  simp only [Body.traverse, Body.rewrite, henter, Stm.traverseAll_replacing,
    mapM_operand_replacing, pure_bind]

theorem Lambda.traverse_replacing (l : Lambda) :
    l.traverse (.replacing f g) = (pure (l.rewrite f g) : m Lambda) := by
  rcases l with ⟨params, body, ret⟩
  have henter : ∀ s, (Action.replacing f g).enter s = (pure () : m Unit) := fun _ => rfl
  simp only [Lambda.traverse, Lambda.rewrite, henter, mapM_traverseParam_replacing,
    Body.traverse_replacing, pure_bind]

end

/-! ## Walks as functors -/

/-- A walk that may fail, for every way to replace placements and operands in programs of
some kind, where `Corresponds` says what it is for two of these programs to differ in
placements and operands only. -/
structure Functorial {ε α : Type}
    (walk : (Placement → Placement) → (Operand → Operand) → α → Except ε α)
    (Corresponds : (Placement → Placement → Prop) → (Operand → Operand → Prop) → α → α → Prop) :
    Prop where
  /-- It succeeds; the result is the only program that holds the image of every placement and
  every operand where that stood, and everything else as it was. -/
  replaces : ∀ f g a, ∃ a', walk f g a = .ok a' ∧
    ∀ c, Corresponds (f · = ·) (g · = ·) a c ↔ c = a'
  /-- Replacing everything by itself changes nothing. -/
  identity : ∀ a, walk id id a = .ok a
  /-- Two walks in a row are one. -/
  composition : ∀ f g f' g' a, (walk f g a >>= walk f' g') = walk (f' ∘ f) (g' ∘ g) a

/-- The laws follow from what the walk returns, as that determines the result. -/
theorem Functorial.of_replaces {ε α : Type}
    {walk : (Placement → Placement) → (Operand → Operand) → α → Except ε α}
    {Corresponds : (Placement → Placement → Prop) → (Operand → Operand → Prop) → α → α → Prop}
    (rewrite : (Placement → Placement) → (Operand → Operand) → α → α)
    (hwalk : ∀ f g a, walk f g a = .ok (rewrite f g a))
    (hiff : ∀ f g a c, Corresponds (f · = ·) (g · = ·) a c ↔ c = rewrite f g a)
    (hid : ∀ a, rewrite id id a = a)
    (hcomp : ∀ f g f' g' a, rewrite f' g' (rewrite f g a) = rewrite (f' ∘ f) (g' ∘ g) a) :
    Functorial walk Corresponds where
  replaces f g a := ⟨rewrite f g a, hwalk f g a, hiff f g a⟩
  identity a := by rw [hwalk, hid]
  composition f g f' g' a := by
    rw [hwalk, hwalk, ← hcomp]
    exact hwalk f' g' _

/-- **The walk over programs is a functor**, on bodies and on lambdas. -/
theorem traverse_functorial (ε : Type) :
    Functorial (ε := ε) (fun f g (b : Body) => b.traverse (.replacing f g)) Body.Corresponds ∧
      Functorial (ε := ε) (fun f g (l : Lambda) => l.traverse (.replacing f g))
        Lambda.Corresponds := by
  constructor
  · refine .of_replaces Body.rewrite ?_ ?_ ?_ ?_
    · exact fun f g b => b.traverse_replacing f g
    · exact fun f g b c => Body.corresponds_iff
    · exact Body.rewrite_id
    · exact fun f g f' g' b => b.rewrite_comp
  · refine .of_replaces Lambda.rewrite ?_ ?_ ?_ ?_
    · exact fun f g l => l.traverse_replacing f g
    · exact fun f g l c => Lambda.corresponds_iff
    · exact Lambda.rewrite_id
    · exact fun f g f' g' l => l.rewrite_comp

end KernelGen
