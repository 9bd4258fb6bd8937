import KernelGen.Proofs.Program.Visits

/-! # A walk that fails stops at its first failure

A recording walk that may fail is compared with the same walk without failures: where the one
has nothing to put in the place of a placement or an operand, the other puts in anything.  The
second never fails, and its record is the visits of the program in order.  The first fails
exactly if one of these visits does.  Then its failure is that of the first such visit, and
its record is the other's up to and including that visit; otherwise the two agree
(`Recorder.StopsFirst`, `traverse_stopsFirst`).

What the walk puts in has no part in this, as it never comes back to what it has replaced. -/
namespace KernelGen

namespace Recorder
variable {ε α : Type} {fail? : Visit → Option ε}

/-- The run of a walk that may fail, beside the run of the same walk without failures. -/
structure StopsFirst (fail? : Visit → Option ε) (run free : Except ε α × List Visit) : Prop where
  /-- It fails if the walk without failures comes to a visit that fails, and only then. -/
  fails_iff : (∃ e, run.1 = .error e) ↔ ∃ v ∈ free.2, fail? v ≠ none
  /-- The first visit that fails is the last one noted, and its failure is the outcome. -/
  at_first : ∀ {past v ahead e}, free.2 = past ++ v :: ahead → (∀ u ∈ past, fail? u = none) →
    fail? v = some e → run = (.error e, past ++ [v])
  /-- Without such a visit the runs do not differ. -/
  otherwise : (∀ v ∈ free.2, fail? v = none) → run = free

/-- A list of visits of which some fail has a first that does. -/
theorem exists_first {visits : List Visit} (h : ∃ v ∈ visits, fail? v ≠ none) :
    ∃ past v ahead e, visits = past ++ v :: ahead ∧ (∀ u ∈ past, fail? u = none) ∧
      fail? v = some e := by
  obtain ⟨v, hv, hfail⟩ := h
  have hsome : (visits.findSome? fail?).isSome :=
    List.findSome?_isSome_iff.mpr ⟨v, hv, Option.isSome_iff_ne_none.mpr hfail⟩
  obtain ⟨e, he⟩ := Option.isSome_iff_exists.mp hsome
  obtain ⟨past, u, ahead, rfl, hu, hpast⟩ := List.findSome?_eq_some_iff.mp he
  exact ⟨past, u, ahead, e, rfl, hpast, hu⟩

theorem GoesThrough.trace_eq {walk : Recorder ε α} {visits : List Visit} {a : α}
    (h : GoesThrough fail? walk visits a) (hall : ∀ v ∈ visits, fail? v = none) :
    walk.trace = (.ok a, visits) :=
  h.completes hall []

/-- **A walk through visits stops at the first that fails.** -/
theorem GoesThrough.stopsFirst {walk : Recorder ε α} {visits : List Visit} {a : α}
    (h : GoesThrough fail? walk visits a) : StopsFirst fail? walk.trace (.ok a, visits) where
  fails_iff := by
    constructor
    · rintro ⟨e, he⟩
      refine Classical.byContradiction fun hnone => ?_
      have hall : ∀ v ∈ visits, fail? v = none :=
        fun v hv => Classical.byContradiction fun hv' => hnone ⟨v, hv, hv'⟩
      rw [h.trace_eq hall] at he
      cases he
    · intro hfails
      obtain ⟨past, v, ahead, e, hsplit, hpast, hv⟩ := exists_first hfails
      exact ⟨e, congrArg Prod.fst (h.stops hsplit hpast hv [])⟩
  at_first hsplit hpast hv := h.stops hsplit hpast hv []
  otherwise hall := h.trace_eq hall

end Recorder

open Recorder

section
variable {ε : Type} (noted : Site → Bool) (placement : Placement → Except ε Placement)
  (operand : Operand → Except ε Operand) (f : Placement → Placement) (g : Operand → Operand)

/-- Record as a walk does that may fail, and never fail. -/
def Action.unfailing : Action (Recorder ε) :=
  .recording noted (fun p => .ok (mended placement f p)) fun a => .ok (mended operand g a)

theorem Visit.failure?_ok (f : Placement → Placement) (g : Operand → Operand) (v : Visit) :
    v.failure? (ε := ε) (fun p => .ok (f p)) (fun a => .ok (g a)) = none := by
  cases v <;> rfl

theorem Body.trace_unfailing (b : Body) :
    Recorder.trace (b.traverse (.unfailing noted placement operand f g)) =
      (.ok (b.rewrite (mended placement f) (mended operand g)), b.visits noted) :=
  (b.goesThrough noted (fun p => .ok (mended placement f p)) (fun a => .ok (mended operand g a))
    f g).trace_eq fun v _ => v.failure?_ok _ _

theorem Lambda.trace_unfailing (l : Lambda) :
    Recorder.trace (l.traverse (.unfailing noted placement operand f g)) =
      (.ok (l.rewrite (mended placement f) (mended operand g)), l.visits noted) :=
  (l.goesThrough noted (fun p => .ok (mended placement f p)) (fun a => .ok (mended operand g a))
    f g).trace_eq fun v _ => v.failure?_ok _ _

/-- **A walk that fails stops at its first failure in the order of the program's text.** -/
theorem traverse_stopsFirst :
    (∀ b : Body,
      let free := Recorder.trace (b.traverse (.unfailing noted placement operand f g))
      free = (.ok (b.rewrite (mended placement f) (mended operand g)), b.visits noted) ∧
        StopsFirst (Visit.failure? placement operand)
          (Recorder.trace (b.traverse (.recording noted placement operand))) free) ∧
    ∀ l : Lambda,
      let free := Recorder.trace (l.traverse (.unfailing noted placement operand f g))
      free = (.ok (l.rewrite (mended placement f) (mended operand g)), l.visits noted) ∧
        StopsFirst (Visit.failure? placement operand)
          (Recorder.trace (l.traverse (.recording noted placement operand))) free := by
  refine ⟨fun b => ?_, fun l => ?_⟩
  · have hfree := b.trace_unfailing noted placement operand f g
    refine ⟨hfree, ?_⟩
    rw [hfree]
    exact (b.goesThrough noted placement operand f g).stopsFirst
  · have hfree := l.trace_unfailing noted placement operand f g
    refine ⟨hfree, ?_⟩
    rw [hfree]
    exact (l.goesThrough noted placement operand f g).stopsFirst

end

/-- Of two variables that fail the first ends the walk, and the second is not come to. -/
example (x y z : Name) :
    let failing : Operand → Except Name Operand
      | .var x => .error x
      | .const c => .ok (.const c)
    let sum : Stm := ⟨[⟨z, .i64, none⟩], .apply .add (.var x) (.var y)⟩
    Recorder.trace (Body.traverse (.recording (fun _ => true) .ok failing) ⟨[sum], [.var z]⟩) =
      (.error x, [.site .body, .site .stm, .site .pattern, .site (.bound z), .site (.exp "binop"),
        .operand (.var x)]) := rfl

/-! ## Recorded walks

`Recorded.action` stops at a visit for which there is no replacement, and that visit is the
failure.  It notes all but carried values. -/

/-- The replacement, or the visit at which there is none. -/
def replacementAt {α : Type} (visit : α → Visit) (replacement? : α → Option α) (a : α) :
    Except Visit α :=
  match replacement? a with
  | some b => .ok b
  | none => .error (visit a)

/-- Everything but a carried value. -/
def Site.recorded : Site → Bool
  | carried _ => false
  | body | stm | pattern | bound _ | param _ | exp _ | loop _ | lambda => true

section
variable (placement? : Placement → Option Placement) (operand? : Operand → Option Operand)
  (f : Placement → Placement) (g : Operand → Operand)

theorem mended_replacementAt {α : Type} (visit : α → Visit) (replacement? : α → Option α)
    (other : α → α) (a : α) :
    mended (replacementAt visit replacement?) other a = (replacement? a).getD (other a) := by
  unfold mended replacementAt
  cases replacement? a <;> rfl

theorem Recorded.visit_eq {α : Type} (visit : α → Visit) (replacement? : α → Option α) (a : α) :
    Recorded.visit (visit a) (replacement? a) =
      (do Recorder.note (visit a); ofExcept (replacementAt visit replacement? a)) := by
  unfold replacementAt
  cases replacement? a <;> rfl

theorem Recorded.action_eq_recording :
    Recorded.action placement? operand? =
      .recording Site.recorded (replacementAt .placement placement?)
        (replacementAt .operand operand?) := by
  have henter : (Recorded.action placement? operand?).enter =
      fun s => if s.recorded then Recorder.note (.site s) else pure () := by
    funext s
    cases s <;> rfl
  have hplacement : (Recorded.action placement? operand?).placement = _ :=
    funext (Recorded.visit_eq .placement placement?)
  have hoperand : (Recorded.action placement? operand?).operand = _ :=
    funext (Recorded.visit_eq .operand operand?)
  rw [Action.recording, ← henter, ← hplacement, ← hoperand]

/-- **A recorded walk stops at the first visit without a replacement**, and returns that
visit. -/
theorem Recorded.record_traverse (b : Body) :
    let r := Recorded.record (b.traverse (Recorded.action placement? operand?))
    StopsFirst (Visit.failure? (replacementAt .placement placement?)
        (replacementAt .operand operand?)) (r.outcome, r.visits)
      (.ok (b.rewrite (fun p => (placement? p).getD (f p)) fun a => (operand? a).getD (g a)),
        b.visits Site.recorded) := by
  rw [Recorded.action_eq_recording, ← funext (mended_replacementAt .placement placement? f),
    ← funext (mended_replacementAt .operand operand? g)]
  exact (b.goesThrough Site.recorded _ _ f g).stopsFirst

end

end KernelGen
