import KernelGen.Proofs.Lowering.Runs
import Mathlib.Data.List.Forall2

/-! # Two runs side by side

Many facts about compilation compare two runs: of a program and of its rewriting, of
one program in two contexts, or of one program with itself, where what is said of the
pair is an invariant.  A `Pairing` fixes what the comparison asks of contexts and of
emitted statements; `Leads` says that one step of compilation keeps up with another:
from contexts related in one way, if the left one succeeds, the right one succeeds with a
related value, paired code and contexts related in another way.  When the pairing is
strict a failure on the left is the same failure on the right as well.  Most steps go from
paired contexts to paired contexts (`Tracks`).

The rules below follow the operations from which steps are built, so a comparison of
two compilations is put together the way the compilations are. -/
namespace KernelGen
open Lowering

/-- What a comparison of two runs asks for. -/
structure Pairing where
  /-- The contexts on the left and on the right belong together. -/
  context : Context → Context → Prop
  /-- The statements emitted on the left and on the right belong together. -/
  stmt : Stmt → Stmt → Prop
  /-- Failures have to agree too. -/
  strict : Prop

namespace Pairing
variable (S : Pairing) {α β γ δ : Type}

/-- Code is paired statement by statement. -/
abbrev code : Code → Code → Prop := List.Forall₂ S.stmt

/-- Two answers belong together. -/
def Answers (A : α → β → Prop) : Except CompileError α → Except CompileError β → Prop
  | .ok a, r => ∃ b, r = .ok b ∧ A a b
  | .error e, r => S.strict → r = .error e

/-- From contexts related by `P` the right step keeps up with the left one, up to contexts
related by `Q`. -/
def Leads (P Q : Context → Context → Prop) (A : α → β → Prop) (x : Lowering α)
    (y : Lowering β) : Prop :=
  ∀ ⦃ctx ctx' : Context⦄, P ctx ctx' →
    S.Answers (fun a b => A a b ∧ S.code (x.run ctx).emitted (y.run ctx').emitted ∧
      Q (x.run ctx).ctx (y.run ctx').ctx) (x.run ctx).outcome (y.run ctx').outcome

/-- The right step keeps up with the left one. -/
def Tracks (A : α → β → Prop) (x : Lowering α) (y : Lowering β) : Prop :=
  S.Leads S.context S.context A x y

/-- Tracking for steps without a value. -/
abbrev Steps (x y : Lowering Unit) : Prop := S.Tracks (fun _ _ => True) x y

variable {S} {P Q T : Context → Context → Prop} {A : α → β → Prop} {B : γ → δ → Prop}

/-! ## Single steps -/

theorem tracks_pure {a : α} {b : β} (h : A a b) : S.Tracks A (pure a) (pure b) :=
  fun _ _ hctx => ⟨b, rfl, h, .nil, hctx⟩

theorem tracks_fail (e : CompileError) : S.Tracks A (fail e) (fail e) :=
  fun _ _ _ _ => rfl

theorem tracks_fault (f : Fault) : S.Tracks A (fault f) (fault f) := tracks_fail _

theorem tracks_ask {q : Context → Except CompileError α} {q' : Context → Except CompileError β}
    (h : ∀ ⦃ctx ctx'⦄, S.context ctx ctx' → S.Answers A (q ctx) (q' ctx')) :
    S.Tracks A (ask q) (ask q') := by
  intro ctx ctx' hctx
  have hq := h hctx
  show S.Answers _ (q ctx) (q' ctx')
  cases hr : q ctx with
  | error e => rw [hr] at hq; exact hq
  | ok a =>
    rw [hr] at hq
    obtain ⟨b, hb, hab⟩ := hq
    exact ⟨b, hb, hab, .nil, hctx⟩

/-- A question that is none of the context. -/
theorem tracks_known (r : Except CompileError α) :
    S.Tracks (fun a a' => a' = a ∧ r = .ok a) (ask fun _ => r) (ask fun _ => r) := by
  refine tracks_ask fun _ _ _ => ?_
  cases r with
  | error e => exact fun _ => rfl
  | ok a => exact ⟨a, rfl, rfl, rfl⟩

theorem tracks_change {f g : Context → Context}
    (h : ∀ ⦃ctx ctx'⦄, S.context ctx ctx' → S.context (f ctx) (g ctx')) :
    S.Steps (change f) (change g) :=
  fun _ _ hctx => ⟨(), rfl, trivial, .nil, h hctx⟩

theorem tracks_emit {s s' : Stmt} (h : S.stmt s s') : S.Steps (emit s) (emit s') :=
  fun _ _ hctx => ⟨(), rfl, trivial, .cons h .nil, hctx⟩

/-- A step that fails wherever it is taken is tracked by every step, unless failures have
to agree. -/
theorem tracks_of_fails {x : Lowering α} {y : Lowering β} (hs : ¬ S.strict)
    (h : ∀ ⦃ctx ctx'⦄, S.context ctx ctx' → ∃ e, (x.run ctx).outcome = .error e) :
    S.Tracks A x y := by
  intro ctx ctx' hctx
  obtain ⟨e, he⟩ := h hctx
  rw [he]
  exact fun hstrict => absurd hstrict hs

/-! ## Steps in a row -/

theorem Leads.mono {A' : α → β → Prop} {x : Lowering α} {y : Lowering β} (h : S.Leads P Q A x y)
    (hA : ∀ a b, A a b → A' a b) : S.Leads P Q A' x y := by
  intro ctx ctx' hctx
  have hr := h hctx
  cases ho : (x.run ctx).outcome with
  | error e => rw [ho] at hr; exact hr
  | ok a =>
    rw [ho] at hr
    obtain ⟨b, hb, hab, hrest⟩ := hr
    exact ⟨b, hb, hA a b hab, hrest⟩

theorem Leads.bind {x : Lowering α} {y : Lowering β} {f : α → Lowering γ} {g : β → Lowering δ}
    (h : S.Leads P Q A x y) (hk : ∀ a b, A a b → S.Leads Q T B (f a) (g b)) :
    S.Leads P T B (x >>= f) (y >>= g) := by
  intro ctx ctx' hctx
  have hx := h hctx
  rcases hr : x.run ctx with ⟨e | a, emitted, mid⟩
  · rw [hr] at hx
    rw [run_bind_of_error f hr]
    intro hstrict
    rcases hr' : y.run ctx' with ⟨o, emitted', mid'⟩
    rw [hr'] at hx
    obtain rfl : o = .error e := hx hstrict
    rw [run_bind_of_error g hr']
  · rw [hr] at hx
    obtain ⟨b, hb, hab, hcode, hmid⟩ := hx
    rcases hr' : y.run ctx' with ⟨o, emitted', mid'⟩
    rw [hr'] at hb hcode hmid
    obtain rfl : o = .ok b := hb
    rw [run_bind_of_ok f hr, run_bind_of_ok g hr']
    have hf := hk a b hab hmid
    cases ho : ((f a).run mid).outcome with
    | error e => rw [ho] at hf; exact hf
    | ok c =>
      rw [ho] at hf
      obtain ⟨d, hd, hcd, hcode', hlast⟩ := hf
      exact ⟨d, hd, hcd, List.rel_append hcode hcode', hlast⟩

theorem Tracks.mono {A' : α → β → Prop} {x : Lowering α} {y : Lowering β} (h : S.Tracks A x y)
    (hA : ∀ a b, A a b → A' a b) : S.Tracks A' x y := Leads.mono h hA

theorem Tracks.bind {x : Lowering α} {y : Lowering β} {f : α → Lowering γ} {g : β → Lowering δ}
    (h : S.Tracks A x y) (hk : ∀ a b, A a b → S.Tracks B (f a) (g b)) :
    S.Tracks B (x >>= f) (y >>= g) := Leads.bind h hk

/-- Two steps in a row, of which the first has no value. -/
theorem Tracks.next {x y : Lowering Unit} {f : Unit → Lowering γ} {g : Unit → Lowering δ}
    (h : S.Steps x y) (hk : S.Tracks B (f ()) (g ())) : S.Tracks B (x >>= f) (y >>= g) :=
  h.bind fun _ _ _ => hk

theorem tracks_forM {R : α → β → Prop} {f : α → Lowering Unit} {g : β → Lowering Unit}
    {xs : List α} {ys : List β} (hs : List.Forall₂ R xs ys)
    (h : ∀ a b, R a b → S.Steps (f a) (g b)) : S.Steps (xs.forM f) (ys.forM g) := by
  induction hs with
  | nil => exact tracks_pure trivial
  | cons hab _ ih => exact (h _ _ hab).next ih

theorem tracks_mapM {R : α → β → Prop} {f : α → Lowering γ} {g : β → Lowering δ}
    {xs : List α} {ys : List β} (hs : List.Forall₂ R xs ys)
    (h : ∀ a b, R a b → S.Tracks B (f a) (g b)) :
    S.Tracks (List.Forall₂ B) (xs.mapM f) (ys.mapM g) := by
  induction hs with
  | nil => exact tracks_pure .nil
  | cons hab _ ih =>
    rw [List.mapM_cons, List.mapM_cons]
    exact (h _ _ hab).bind fun _ _ hcd => ih.bind fun _ _ hrest => tracks_pure (.cons hcd hrest)

theorem Leads.collect {x y : Lowering Unit} (h : S.Leads P Q (fun _ _ => True) x y) :
    S.Leads P Q S.code (Lowering.collect x) (Lowering.collect y) := by
  intro ctx ctx' hctx
  have hx := h hctx
  rcases hr : x.run ctx with ⟨e | ⟨⟩, emitted, mid⟩
  · rw [hr] at hx
    rw [run_collect_of_error hr]
    intro hstrict
    rcases hr' : y.run ctx' with ⟨o, emitted', mid'⟩
    rw [hr'] at hx
    obtain rfl : o = .error e := hx hstrict
    rw [run_collect_of_error hr']
  · rw [hr] at hx
    obtain ⟨⟨⟩, hb, -, hcode, hmid⟩ := hx
    rcases hr' : y.run ctx' with ⟨o, emitted', mid'⟩
    rw [hr'] at hb hcode hmid
    obtain rfl : o = .ok () := hb
    rw [run_collect_of_ok hr, run_collect_of_ok hr']
    exact ⟨emitted', rfl, hcode, .nil, hmid⟩

/-- A check in front of a step, made on both sides. -/
theorem Leads.guard {p q : Prop} [Decidable p] [Decidable q] (hpq : p ↔ q) (e : CompileError)
    {k : Unit → Lowering γ} {k' : Unit → Lowering δ} (h : ¬ p → S.Leads P Q B (k ()) (k' ())) :
    S.Leads P Q B (if p then fail e >>= k else k ()) (if q then fail e >>= k' else k' ()) := by
  by_cases hp : p
  · rw [if_pos hp, if_pos (hpq.mp hp)]
    exact fun _ _ _ _ => rfl
  · rw [if_neg hp, if_neg (fun hq => hp (hpq.mpr hq))]
    exact h hp

theorem tracks_guard {p q : Prop} [Decidable p] [Decidable q] (hpq : p ↔ q) (f : Fault)
    {k : Unit → Lowering γ} {k' : Unit → Lowering δ} (h : ¬ p → S.Tracks B (k ()) (k' ())) :
    S.Tracks B (if p then fault f >>= k else k ()) (if q then fault f >>= k' else k' ()) :=
  Leads.guard hpq (.malformed f) h

/-- A question that is asked on the left only. -/
theorem tracks_ask_left {q : Context → Except CompileError α} {f : α → Lowering γ}
    {y : Lowering δ} (hs : ¬ S.strict) (h : ∀ a, S.Tracks B (f a) y) :
    S.Tracks B (ask q >>= f) y := by
  intro ctx ctx' hctx
  cases hq : q ctx with
  | error e =>
    rw [run_bind_of_error (e := e) f (by rw [run_ask, hq])]
    exact fun hstrict => absurd hstrict hs
  | ok a =>
    rw [run_bind_of_ok f (by rw [run_ask, hq])]
    exact h a hctx

/-- A check that is made on the left only. -/
theorem tracks_check {p : Prop} [Decidable p] (hs : ¬ S.strict) (e : CompileError)
    {k : Unit → Lowering γ} {y : Lowering δ} (h : ¬ p → S.Tracks B (k ()) y) :
    S.Tracks B (if p then fail e >>= k else k ()) y := by
  by_cases hp : p
  · rw [if_pos hp]
    exact tracks_of_fails hs fun _ _ _ => ⟨e, rfl⟩
  · rw [if_neg hp]
    exact h hp

end Pairing

end KernelGen
