import KernelGen.Program.Substitution
import KernelGen.Program.Rewrite

/-! # The visits of a walk, in order

What a walk comes upon is said by the program alone.  `Body.visits` and `Lambda.visits` list
it in the order of the program's text: the binders of a pattern before the expression, the
binder of a carried value before its initial value, all carried values before the bound, the
bound before the loop's body, the branch taken before the other, parameters before the body,
statements before results.

A recording walk (`Action.recording`) notes its visits one by one, puts something in the place
of every placement and operand, and stops with a failure where it has nothing to put.  It goes
through the visits of the program (`Body.goesThrough`): to the end if none of them fails, and
otherwise up to the first that does (`Recorder.GoesThrough`).  Two steps in a row go through
the visits of both, so this is shown form by form. -/
namespace KernelGen

/-- A walk that keeps a record of its visits and may stop with a failure. -/
abbrev Recorder (ε : Type) := ExceptT ε (StateM (List Visit))

namespace Recorder
variable {ε α β : Type}

/-- How the walk ends, and its record. -/
def trace (walk : Recorder ε α) : Except ε α × List Visit := (walk.run.run []).run

/-- Add a visit to the record. -/
def note (v : Visit) : Recorder ε Unit := modify (· ++ [v])

end Recorder

section
variable {ε : Type} (noted : Site → Bool) (placement : Placement → Except ε Placement)
  (operand : Operand → Except ε Operand)

/-- Note the parts of the program that are `noted`, every placement and every operand, and
replace placements and operands where that does not fail. -/
def Action.recording : Action (Recorder ε) where
  enter s := if noted s then Recorder.note (.site s) else pure ()
  placement p := do Recorder.note (.placement p); ofExcept (placement p)
  operand a := do Recorder.note (.operand a); ofExcept (operand a)

/-- The failure at a visit, if there is one; arriving at a part of the program never fails. -/
def Visit.failure? : Visit → Option ε
  | site _ => none
  | .placement p => match placement p with
    | .ok _ => none
    | .error e => some e
  | .operand a => match operand a with
    | .ok _ => none
    | .error e => some e

end

/-! ## The visits of a program -/

section
variable (noted : Site → Bool)

/-- The visit of a part of the program, if it is noted. -/
def Site.visits (s : Site) : List Visit := if noted s then [.site s] else []

/-- The visit of the binder's placement, if it has one. -/
def Binder.visits (b : Binder) : List Visit := b.placement.toList.map .placement

/-- The visits at a binder of a pattern. -/
def Binder.visitsBound (b : Binder) : List Visit := (Site.bound b.name).visits noted ++ b.visits

/-- The visits at a parameter. -/
def Binder.visitsParam (b : Binder) : List Visit := (Site.param b.name).visits noted ++ b.visits

/-- The visits at a carried value: those at its binder, then its initial value. -/
def Binder.visitsCarried : Binder × Operand → List Visit
  | (b, init) => (Site.carried b.name).visits noted ++ (b.visitsParam noted ++ [.operand init])

mutual

/-- The visits in a body: those in its statements, then its results. -/
def Body.visits : Body → List Visit
  | ⟨stms, result⟩ => Site.body.visits noted ++ (Stm.visitsAll stms ++ result.map .operand)

/-- The visits in a lambda: those at its parameters, then those in its body. -/
def Lambda.visits : Lambda → List Visit
  | ⟨params, body, _⟩ =>
    Site.lambda.visits noted ++ (params.flatMap (Binder.visitsParam noted) ++ Body.visits body)

/-- The visits in statements, one statement after the other. -/
def Stm.visitsAll : List Stm → List Visit
  | [] => []
  | stm :: stms => Stm.visits stm ++ Stm.visitsAll stms

/-- The visits in a statement: those in its pattern, then those in its expression. -/
def Stm.visits : Stm → List Visit
  | ⟨pat, exp⟩ =>
    Site.stm.visits noted ++ (Site.pattern.visits noted ++
      (pat.flatMap (Binder.visitsBound noted) ++ ((Site.exp exp.form).visits noted ++
        Exp.visits exp)))

/-- The visits in the parts of an expression. -/
def Exp.visits : Exp → List Visit
  | .operand a => [.operand a]
  | .apply _ lhs rhs => [.operand lhs, .operand rhs]
  | .index _ indices => indices.map .operand
  | .update _ indices value => indices.map .operand ++ [.operand value]
  | .alloc .. => []
  | .scratch _ shape => shape.map .operand
  | .branch cond yes no => .operand cond :: (Body.visits yes ++ Body.visits no)
  | .loop carried counter bound body =>
    (Site.loop counter).visits noted ++ (carried.flatMap (Binder.visitsCarried noted) ++
      (.operand bound :: Body.visits body))
  | .map f _ => Lambda.visits f

end

end

/-! ## Going through visits -/

namespace Recorder
variable {ε α β : Type} {fail? : Visit → Option ε}

/-- The walk comes to these visits in this order, stops at the first that fails, and returns
`result` if none does. -/
structure GoesThrough (fail? : Visit → Option ε) (walk : Recorder ε α) (visits : List Visit)
    (result : α) : Prop where
  /-- To the end, if no visit fails. -/
  completes : (∀ v ∈ visits, fail? v = none) →
    ∀ before, (walk.run.run before).run = (.ok result, before ++ visits)
  /-- Otherwise up to the first that does, which is noted. -/
  stops : ∀ {past v ahead e}, visits = past ++ v :: ahead → (∀ u ∈ past, fail? u = none) →
    fail? v = some e → ∀ before, (walk.run.run before).run = (.error e, before ++ (past ++ [v]))

/-- After a failure nothing is done. -/
theorem run_bind_of_error {walk : Recorder ε α} {next : α → Recorder ε β} {e : ε}
    {before after : List Visit} (h : (walk.run.run before).run = (.error e, after)) :
    ((walk >>= next).run.run before).run = (.error e, after) := by
  rw [ExceptT.run_bind, StateT.run_bind, Id.run_bind, h]
  rfl

theorem run_bind_of_ok {walk : Recorder ε α} {next : α → Recorder ε β} {a : α}
    {before after : List Visit} (h : (walk.run.run before).run = (.ok a, after)) :
    ((walk >>= next).run.run before).run = ((next a).run.run after).run := by
  rw [ExceptT.run_bind, StateT.run_bind, Id.run_bind, h]

namespace GoesThrough

theorem pure (a : α) : GoesThrough fail? (pure a) [] a where
  completes _ before := by rw [List.append_nil]; rfl
  stops h _ _ := absurd h (by simp)

/-- **Two steps in a row go through the visits of both.** -/
theorem bind {walk : Recorder ε α} {next : α → Recorder ε β} {vs ws : List Visit} {a : α} {b : β}
    (h : GoesThrough fail? walk vs a) (hnext : GoesThrough fail? (next a) ws b) :
    GoesThrough fail? (walk >>= next) (vs ++ ws) b where
  completes hall before := by
    obtain ⟨hvs, hws⟩ := List.forall_mem_append.mp hall
    rw [run_bind_of_ok (h.completes hvs before), hnext.completes hws, List.append_assoc]
  stops {past v ahead e} hsplit hpast hv before := by
    -- The first failing visit is one of the first step or one of the second.
    obtain ⟨front, rfl, hws⟩ | ⟨back, rfl, hback⟩ := List.append_eq_append_iff.mp hsplit
    · obtain ⟨hvs, hfront⟩ := List.forall_mem_append.mp hpast
      rw [run_bind_of_ok (h.completes hvs before), hnext.stops hws hfront hv]
      simp only [List.append_assoc]
    · rcases back with _ | ⟨u, back⟩
      · have hvs : ∀ u ∈ past ++ [], fail? u = none := by simpa using hpast
        have hws : ws = [] ++ v :: ahead := hback.symm
        rw [run_bind_of_ok (h.completes hvs before), hnext.stops hws (by simp) hv]
        simp only [List.append_nil, List.nil_append, List.append_assoc]
      · obtain ⟨rfl, rfl⟩ := List.cons.inj hback
        exact run_bind_of_error (h.stops rfl hpast hv before)

/-- What is made of the result in the end adds no visit. -/
theorem map {walk : Recorder ε α} {vs : List Visit} {a : α} (f : α → β)
    (h : GoesThrough fail? walk vs a) :
    GoesThrough fail? (walk >>= fun a => Pure.pure (f a)) vs (f a) := by
  have hbind : GoesThrough fail? (walk >>= fun a => Pure.pure (f a)) (vs ++ []) (f a) :=
    h.bind (GoesThrough.pure (f a))
  rwa [List.append_nil] at hbind

/-- Members of a list, one after the other. -/
theorem mapM {f : α → Recorder ε β} {visits : α → List Visit} {image : α → β}
    (h : ∀ a, GoesThrough fail? (f a) (visits a) (image a)) (as : List α) :
    GoesThrough fail? (as.mapM f) (as.flatMap visits) (as.map image) := by
  induction as with
  | nil => exact GoesThrough.pure []
  | cons a as ih =>
    rw [List.mapM_cons]
    exact (h a).bind (ih.map (image a :: ·))

/-- A single visit, with what it is replaced by or its failure. -/
theorem note {v : Visit} {a : α} (outcome : Except ε α)
    (hok : fail? v = none → outcome = .ok a) (herror : ∀ e, fail? v = some e → outcome = .error e) :
    GoesThrough fail? (do Recorder.note v; ofExcept outcome) [v] a where
  completes hall before := by
    rw [hok (hall v (List.mem_singleton_self v))]
    rfl
  stops {past u ahead e} hsplit hpast hu before := by
    obtain ⟨rfl, hu'⟩ : past = [] ∧ u = v := by
      rcases past with _ | ⟨w, past⟩ <;> simp_all
    subst hu'
    rw [herror e hu]
    rfl

end GoesThrough

end Recorder

/-! ## Going through a program -/

/-- The function that puts in what `f` returns, and where `f` fails what `other` returns. -/
def mended {ε α : Type} (f : α → Except ε α) (other : α → α) (a : α) : α :=
  match f a with
  | .ok b => b
  | .error _ => other a

section
open Recorder

variable {ε : Type} (noted : Site → Bool) (placement : Placement → Except ε Placement)
  (operand : Operand → Except ε Operand) (f : Placement → Placement) (g : Operand → Operand)

theorem Site.goesThrough (s : Site) :
    GoesThrough (Visit.failure? placement operand)
      ((Action.recording noted placement operand).enter s) (s.visits noted) () := by
  show GoesThrough _ (if noted s then note (.site s) else pure ()) (s.visits noted) ()
  unfold Site.visits
  split
  · exact GoesThrough.note (.ok ()) (fun _ => rfl) (fun _ h => nomatch h)
  · exact GoesThrough.pure ()

theorem Placement.goesThrough (p : Placement) :
    GoesThrough (Visit.failure? placement operand)
      ((Action.recording noted placement operand).placement p) [.placement p]
      (mended placement f p) := by
  refine GoesThrough.note _ (fun h => ?_) fun e h => ?_ <;>
    cases hp : placement p <;> simp_all [Visit.failure?, mended]

theorem Operand.goesThrough (a : Operand) :
    GoesThrough (Visit.failure? placement operand)
      ((Action.recording noted placement operand).operand a) [.operand a]
      (mended operand g a) := by
  refine GoesThrough.note _ (fun h => ?_) fun e h => ?_ <;>
    cases ha : operand a <;> simp_all [Visit.failure?, mended]

theorem Operand.goesThrough_mapM (as : List Operand) :
    GoesThrough (Visit.failure? placement operand)
      (as.mapM (Action.recording noted placement operand).operand) (as.map .operand)
      (as.map (mended operand g)) := by
  rw [List.map_eq_flatMap]
  exact GoesThrough.mapM (Operand.goesThrough noted placement operand g) as

theorem Binder.goesThrough (b : Binder) :
    GoesThrough (Visit.failure? placement operand)
      (b.traverse (Action.recording noted placement operand)) b.visits
      (b.rewrite (mended placement f)) := by
  rcases b with ⟨x, ty, _ | p⟩
  · exact GoesThrough.pure _
  · exact (Placement.goesThrough noted placement operand f p).map _

theorem Binder.goesThrough_bound (b : Binder) :
    GoesThrough (Visit.failure? placement operand)
      (b.traverseBound (Action.recording noted placement operand)) (b.visitsBound noted)
      (b.rewrite (mended placement f)) :=
  (Site.goesThrough noted placement operand _).bind (b.goesThrough noted placement operand f)

theorem Binder.goesThrough_param (b : Binder) :
    GoesThrough (Visit.failure? placement operand)
      (b.traverseParam (Action.recording noted placement operand)) (b.visitsParam noted)
      (b.rewrite (mended placement f)) :=
  (Site.goesThrough noted placement operand _).bind (b.goesThrough noted placement operand f)

theorem Binder.goesThrough_carried (q : Binder × Operand) :
    GoesThrough (Visit.failure? placement operand)
      (Binder.traverseCarried (Action.recording noted placement operand) q)
      (Binder.visitsCarried noted q)
      (q.1.rewrite (mended placement f), mended operand g q.2) := by
  rcases q with ⟨b, init⟩
  refine (Site.goesThrough noted placement operand _).bind ?_
  refine (b.goesThrough_param noted placement operand f).bind ?_
  exact (init.goesThrough noted placement operand g).map _

mutual

/-- **A recording walk goes through the visits of the program**, and returns it rewritten. -/
theorem Stm.goesThroughAll (stms : List Stm) :
    GoesThrough (Visit.failure? placement operand)
      (Stm.traverseAll (Action.recording noted placement operand) stms) (Stm.visitsAll noted stms)
      (Stm.rewriteAll (mended placement f) (mended operand g) stms) := by
  match stms with
  | [] => exact GoesThrough.pure _
  | stm :: stms =>
    rw [Stm.traverseAll, Stm.visitsAll, Stm.rewriteAll]
    exact (Stm.goesThrough stm).bind ((Stm.goesThroughAll stms).map _)

theorem Stm.goesThrough (stm : Stm) :
    GoesThrough (Visit.failure? placement operand)
      (Stm.traverse (Action.recording noted placement operand) stm) (stm.visits noted)
      (stm.rewrite (mended placement f) (mended operand g)) := by
  match stm with
  | ⟨pat, exp⟩ =>
    have henter := Site.goesThrough noted placement operand
    rw [Stm.traverse, Stm.visits, Stm.rewrite]
    refine (henter _).bind ((henter _).bind ?_)
    refine (GoesThrough.mapM (Binder.goesThrough_bound noted placement operand f) pat).bind ?_
    exact (henter _).bind ((Exp.goesThrough exp).map _)

theorem Exp.goesThrough (e : Exp) :
    GoesThrough (Visit.failure? placement operand)
      (Exp.traverse (Action.recording noted placement operand) e) (e.visits noted)
      (e.rewrite (mended placement f) (mended operand g)) := by
  have henter := Site.goesThrough noted placement operand
  have hoperand := Operand.goesThrough noted placement operand g
  have hall := Operand.goesThrough_mapM noted placement operand g
  match e with
  | .operand a => exact (hoperand a).map _
  | .apply op lhs rhs => exact (hoperand lhs).bind ((hoperand rhs).map _)
  | .index array indices => exact (hall indices).map _
  | .update array indices value => exact (hall indices).bind ((hoperand value).map _)
  | .alloc size space => exact GoesThrough.pure _
  | .scratch element shape => exact (hall shape).map _
  | .branch cond yes no =>
    exact (hoperand cond).bind ((Body.goesThrough yes).bind ((Body.goesThrough no).map _))
  | .loop carried counter bound body =>
    have hcarried :=
      GoesThrough.mapM (Binder.goesThrough_carried noted placement operand f g) carried
    refine (henter _).bind (hcarried.bind ?_)
    exact (hoperand bound).bind ((Body.goesThrough body).map _)
  | .map lam inputs => exact (Lambda.goesThrough lam).map _

theorem Body.goesThrough (b : Body) :
    GoesThrough (Visit.failure? placement operand)
      (b.traverse (Action.recording noted placement operand)) (b.visits noted)
      (b.rewrite (mended placement f) (mended operand g)) := by
  match b with
  | ⟨stms, result⟩ =>
    rw [Body.traverse, Body.visits, Body.rewrite]
    refine (Site.goesThrough noted placement operand _).bind ?_
    exact (Stm.goesThroughAll stms).bind
      ((Operand.goesThrough_mapM noted placement operand g result).map _)

theorem Lambda.goesThrough (l : Lambda) :
    GoesThrough (Visit.failure? placement operand)
      (l.traverse (Action.recording noted placement operand)) (l.visits noted)
      (l.rewrite (mended placement f) (mended operand g)) := by
  match l with
  | ⟨params, body, ret⟩ =>
    rw [Lambda.traverse, Lambda.visits, Lambda.rewrite]
    refine (Site.goesThrough noted placement operand _).bind ?_
    refine (GoesThrough.mapM (Binder.goesThrough_param noted placement operand f) params).bind ?_
    exact (Body.goesThrough body).map _

end

end

end KernelGen
