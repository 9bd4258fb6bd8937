import KernelGen.Proofs.Lowering.Runs

/-! # What a step emits

`Emits I x Q` says of one step of compilation what a `Pairing` says of two: if the step
succeeds from a context that satisfies `I`, the context it leaves satisfies `I` again, and
its value and the code it emitted satisfy `Q`.  Failures are not spoken of.

In a row of steps the value and the code of the first are known when the second is looked
at, so `Q` may tie a value to the code that produced it. -/
namespace KernelGen.Lowering
variable {α β : Type} {I : Context → Prop}

/-- From a context with `I` a successful run leaves one with `I`, and ends in `Q`. -/
def Emits (I : Context → Prop) (x : Lowering α) (Q : α → Code → Prop) : Prop :=
  ∀ ⦃ctx a code last⦄, I ctx → x.run ctx = ⟨.ok a, code, last⟩ → I last ∧ Q a code

namespace Emits
variable {x : Lowering α} {Q Q' : α → Code → Prop} {P : β → Code → Prop}

theorem mono (h : Emits I x Q) (hQ : ∀ a code, Q a code → Q' a code) : Emits I x Q' := by
  intro ctx a code last hctx hrun
  obtain ⟨hlast, hq⟩ := h hctx hrun
  exact ⟨hlast, hQ a code hq⟩

theorem of_pure {a : α} (h : Q a []) : Emits I (pure a) Q := by
  intro ctx b code last hctx hrun
  cases hrun
  exact ⟨hctx, h⟩

theorem of_fail (e : CompileError) : Emits I (fail e) Q := by
  intro ctx a code last _ hrun
  cases hrun

theorem of_fault (f : Fault) : Emits I (fault f) Q := of_fail _

theorem of_ask {q : Context → Except CompileError α}
    (h : ∀ ⦃ctx a⦄, I ctx → q ctx = .ok a → Q a []) : Emits I (ask q) Q := by
  intro ctx a code last hctx hrun
  obtain ⟨hq, rfl, rfl⟩ := run_ask_eq_ok.mp hrun
  exact ⟨hctx, h hctx hq⟩

theorem of_change {f : Context → Context} {Q : Unit → Code → Prop}
    (h : ∀ ⦃ctx⦄, I ctx → I (f ctx)) (hq : Q () []) : Emits I (change f) Q := by
  intro ctx a code last hctx hrun
  cases hrun
  exact ⟨h hctx, hq⟩

theorem of_emit {s : Stmt} {Q : Unit → Code → Prop} (h : Q () [s]) : Emits I (emit s) Q := by
  intro ctx a code last hctx hrun
  cases hrun
  exact ⟨hctx, h⟩

/-- Two steps in a row. -/
theorem bind {f : α → Lowering β} (h : Emits I x Q)
    (hf : ∀ a front, Q a front → Emits I (f a) fun b rest => P b (front ++ rest)) :
    Emits I (x >>= f) P := by
  intro ctx b code last hctx hrun
  obtain ⟨a, front, mid, rest, hx, hrest, rfl⟩ := run_bind_eq_ok.mp hrun
  obtain ⟨hmid, hq⟩ := h hctx hx
  exact hf a front hq hmid hrest

/-- A check in front of a step was passed. -/
theorem guard {p : Prop} [Decidable p] {e : CompileError} {k : Unit → Lowering β}
    (h : ¬ p → Emits I (k ()) P) : Emits I (if p then fail e >>= k else k ()) P := by
  intro ctx b code last hctx hrun
  obtain ⟨hp, hk⟩ := run_guard_eq_ok.mp hrun
  exact h hp hctx hk

/-- Collected code becomes the value. -/
theorem of_collect {x : Lowering Unit} {Q : Code → Code → Prop}
    (h : Emits I x fun _ code => Q code []) : Emits I (collect x) Q := by
  intro ctx code front last hctx hrun
  obtain ⟨hx, rfl⟩ := run_collect_eq_ok.mp hrun
  exact h hctx hx

/-- A list is handled member by member, and its code is put together likewise. -/
theorem of_forM {f : α → Lowering Unit} {xs : List α} {M : α → Code → Prop}
    {P : List α → Code → Prop} (nil : P [] [])
    (cons : ∀ a as part rest, M a part → P as rest → P (a :: as) (part ++ rest))
    (h : ∀ a ∈ xs, Emits I (f a) fun _ part => M a part) :
    Emits I (xs.forM f) fun _ code => P xs code := by
  induction xs with
  | nil => exact of_pure nil
  | cons a as ih =>
    rw [List.forall_mem_cons] at h
    refine Emits.bind (f := fun _ => as.forM f) h.1 fun _ part hpart => ?_
    exact (ih h.2).mono fun _ rest hrest => cons a as part rest hpart hrest

/-- The same with values. -/
theorem of_mapM {f : α → Lowering β} {xs : List α} {M : α → β → Code → Prop}
    {P : List α → List β → Code → Prop} (nil : P [] [] [])
    (cons : ∀ a b as bs part rest, M a b part → P as bs rest →
      P (a :: as) (b :: bs) (part ++ rest))
    (h : ∀ a ∈ xs, Emits I (f a) fun b part => M a b part) :
    Emits I (xs.mapM f) fun bs code => P xs bs code := by
  induction xs with
  | nil => exact of_pure nil
  | cons a as ih =>
    rw [List.forall_mem_cons] at h
    rw [List.mapM_cons]
    refine h.1.bind fun b part hpart => (ih h.2).bind fun bs rest hrest => of_pure ?_
    rw [List.append_nil]
    exact cons a b as bs part rest hpart hrest

/-- Some member of a list was handled from a context with `I`, and its code stands in that
of the list. -/
theorem forM_mem {f : α → Lowering Unit} {xs : List α} {ctx last : Context} {code : Code}
    (h : ∀ a ∈ xs, Emits I (f a) fun _ _ => True) (hctx : I ctx)
    (hrun : (xs.forM f).run ctx = ⟨.ok (), code, last⟩) {a : α} (ha : a ∈ xs) :
    ∃ c part c', I c ∧ (f a).run c = ⟨.ok (), part, c'⟩ ∧ ∀ s ∈ part, s ∈ code := by
  induction xs generalizing ctx code with
  | nil => exact absurd ha List.not_mem_nil
  | cons b bs ih =>
    rw [List.forall_mem_cons] at h
    change (f b >>= fun _ => bs.forM f).run ctx = _ at hrun
    obtain ⟨⟨⟩, front, mid, rest, hb, hbs, rfl⟩ := run_bind_eq_ok.mp hrun
    rcases List.mem_cons.mp ha with rfl | ha
    · exact ⟨ctx, front, mid, hctx, hb, fun s hs => List.mem_append.mpr (.inl hs)⟩
    · obtain ⟨c, part, c', hc, hf, hpart⟩ := ih h.2 (h.1 hctx hb).1 hbs ha
      exact ⟨c, part, c', hc, hf, fun s hs => List.mem_append.mpr (.inr (hpart s hs))⟩

end Emits

end KernelGen.Lowering
