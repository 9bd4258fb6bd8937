import KernelGen.Proofs.Lowering.Simulation

/-! # Two compilations in time

Where the names that are drawn differ on the two sides, or count for different things, a
comparison has to know at every draw which names they are.  The program tells in which
order names are drawn (`Stm.drawnAll`), so this can be laid down beforehand: a
`Timetable` says for every position in that order what may be drawn there.

`Keeps bases bases' A x y` says that one step keeps up with another while names of these
bases are drawn: wherever these are due, the right step keeps up with the left one, and
afterwards both are as many positions further on.  A comparison to which it does not
matter what is drawn is the timetable on which everything is due
(`Simulation.timetable`). -/
namespace KernelGen
open Lowering Pairing

/-- A comparison with a schedule of the names that are drawn. -/
structure Timetable extends Comparison where
  /-- After so many draws the next tags may be these. -/
  pace : Nat → NameSource → Prop
  /-- At that position the names drawn on the two sides may have these bases. -/
  due : Nat → String → String → Prop
  /-- A name that is drawn on both sides may be bound and read. -/
  due_bound : ∀ {n c c' base}, context c c' → pace n c.names → due n base base →
    roles.bound ⟨base, c.names.next⟩
  due_scalar : ∀ {n c c' base}, context c c' → pace n c.names → due n base base →
    roles.scalar ⟨base, c.names.next⟩
  draw : ∀ {c c'}, context c c' →
    context { c with names := ⟨c.names.next + 1⟩ } { c' with names := ⟨c.names.next + 1⟩ }
  pace_draw : ∀ {n names}, pace n names → pace (n + 1) ⟨names.next + 1⟩

/-- Everything is due at any time. -/
def Simulation.timetable (S : Simulation) : Timetable where
  toComparison := S.toComparison
  pace _ _ := True
  due _ _ _ := True
  due_bound h _ _ := S.fresh_bound _ h
  due_scalar h _ _ := S.fresh_scalar _ h
  draw := S.draw
  pace_draw h := h

/-- An allocation draws no name. -/
theorem Lowering.names_lowerAlloc (pat : List Binder) (size : Size) (space : Space)
    (ctx : Context) : ((lowerAlloc pat size space).run ctx).ctx.names = ctx.names := by
  match pat with
  | [] | _ :: _ :: _ => rfl
  | [b] =>
    by_cases hty : b.ty.isMem
    · have hask : (ask (pure ·.onDevice)).run ctx = ⟨.ok ctx.onDevice, [], ctx⟩ := rfl
      simp only [lowerAlloc, hty, if_true]
      rw [run_bind_of_ok _ hask]
      cases ctx.onDevice <;> rfl
    · simp only [lowerAlloc, hty]
      rfl

namespace Timetable
variable (S : Timetable) {α β γ δ : Type} {A : α → β → Prop} {B : γ → δ → Prop}
  {bases bases' rest rest' : List String}

/-- The comparison of contexts at this position. -/
def after (n : Nat) : Comparison where
  toPairing :=
    { S.toPairing with context := fun c c' => S.context c c' ∧ S.pace n c.names }
  roles := S.roles
  move := S.move
  move_block := S.move_block
  move_shape := S.move_shape
  move_injective := S.move_injective
  names_eq h := S.names_eq h.1
  bind_scalar ty hx h := ⟨S.bind_scalar ty hx h.1, h.2⟩
  bind_array ty hx hp h := ⟨S.bind_array ty hx hp h.1, h.2⟩
  entry h := S.entry h.1
  extent h := S.extent h.1
  space h := S.space h.1
  alloc {pat size} space hpat hsize := by
    intro c c' h
    have hrun := S.alloc space hpat hsize h.1
    cases ho : ((lowerAlloc pat size space).run c).outcome with
    | error e => rw [ho] at hrun; exact hrun
    | ok a =>
      rw [ho] at hrun
      obtain ⟨b, hb, hab, hcode, hctx⟩ := hrun
      refine ⟨b, hb, hab, hcode, hctx, ?_⟩
      rw [names_lowerAlloc]
      exact h.2
  declare_stmt := S.declare_stmt
  set_stmt := S.set_stmt
  apply_stmt := S.apply_stmt
  branch_stmt := S.branch_stmt
  loop_stmt := S.loop_stmt
  map_stmt := S.map_stmt

/-- From this position on, names of these bases are due. -/
def Due (n : Nat) (bases bases' : List String) : Prop :=
  ∀ i base base', bases[i]? = some base → bases'[i]? = some base' → S.due (n + i) base base'

/-- The right step keeps up with the left one while names of these bases are drawn. -/
def Keeps (bases bases' : List String) (A : α → β → Prop) (x : Lowering α) (y : Lowering β) :
    Prop :=
  ∀ n, S.Due n bases bases' →
    S.Leads (S.after n).context (S.after (n + bases.length)).context A x y

/-- The same for steps without a value. -/
abbrev KeepsStep (bases bases' : List String) (x y : Lowering Unit) : Prop :=
  S.Keeps bases bases' (fun _ _ => True) x y

variable {S}

theorem Due.append {n : Nat} (hlen : bases.length = bases'.length)
    (h : S.Due n (bases ++ rest) (bases' ++ rest')) :
    S.Due n bases bases' ∧ S.Due (n + bases.length) rest rest' := by
  constructor
  · intro i base base' hb hb'
    obtain ⟨hi, -⟩ := List.getElem?_eq_some_iff.mp hb
    refine h i base base' ?_ ?_
    · rw [List.getElem?_append_left hi, hb]
    · rw [List.getElem?_append_left (hlen ▸ hi), hb']
  · intro i base base' hb hb'
    rw [Nat.add_assoc]
    refine h (bases.length + i) base base' ?_ ?_
    · rw [List.getElem?_append_right (Nat.le_add_right ..), Nat.add_sub_cancel_left, hb]
    · rw [hlen, List.getElem?_append_right (Nat.le_add_right ..), Nat.add_sub_cancel_left, hb']

/-! ## Steps in a row -/

/-- A step that draws nothing. -/
theorem keeps_of_tracks {x : Lowering α} {y : Lowering β} (h : ∀ n, (S.after n).Tracks A x y) :
    S.Keeps [] [] A x y :=
  fun n _ => h n

theorem Keeps.bind {x : Lowering α} {y : Lowering β} {f : α → Lowering γ} {g : β → Lowering δ}
    (h : S.Keeps bases bases' A x y) (hlen : bases.length = bases'.length)
    (hk : ∀ a b, A a b → S.Keeps rest rest' B (f a) (g b)) :
    S.Keeps (bases ++ rest) (bases' ++ rest') B (x >>= f) (y >>= g) := by
  intro n hdue
  obtain ⟨hfirst, hsecond⟩ := hdue.append hlen
  rw [List.length_append, ← Nat.add_assoc]
  exact Leads.bind (h n hfirst) fun a b hab => hk a b hab _ hsecond

/-- A step that draws nothing, and one after it. -/
theorem Keeps.after {x : Lowering α} {y : Lowering β} {f : α → Lowering γ} {g : β → Lowering δ}
    (h : ∀ n, (S.after n).Tracks A x y)
    (hk : ∀ a b, A a b → S.Keeps bases bases' B (f a) (g b)) :
    S.Keeps bases bases' B (x >>= f) (y >>= g) :=
  (keeps_of_tracks h).bind rfl hk

/-- Behind a step, one that draws nothing. -/
theorem Keeps.before {x : Lowering α} {y : Lowering β} {f : α → Lowering γ} {g : β → Lowering δ}
    (h : S.Keeps bases bases' A x y) (hlen : bases.length = bases'.length)
    (hk : ∀ a b, A a b → ∀ n, (S.after n).Tracks B (f a) (g b)) :
    S.Keeps bases bases' B (x >>= f) (y >>= g) := by
  have hboth := h.bind hlen fun a b hab => keeps_of_tracks (hk a b hab)
  rwa [List.append_nil, List.append_nil] at hboth

theorem Keeps.collect {x y : Lowering Unit} (h : S.KeepsStep bases bases' x y) :
    S.Keeps bases bases' S.code (Lowering.collect x) (Lowering.collect y) :=
  fun n hdue => Leads.collect (h n hdue)

/-- A check in front of a step, made on both sides. -/
theorem Keeps.guard {p q : Prop} [Decidable p] [Decidable q] (hpq : p ↔ q) (e : CompileError)
    {k : Unit → Lowering γ} {k' : Unit → Lowering δ}
    (h : ¬ p → S.Keeps bases bases' B (k ()) (k' ())) :
    S.Keeps bases bases' B (if p then fail e >>= k else k ())
      (if q then fail e >>= k' else k' ()) :=
  fun n hdue => Leads.guard hpq e fun hp => h hp n hdue

variable (S)

/-- A name that is drawn on both sides. -/
theorem keeps_fresh (base : String) :
    S.Keeps [base] [base] (fun x y => y = x ∧ S.roles.bound x ∧ S.roles.scalar x)
      (fresh base) (fresh base) := by
  rintro n hdue c c' ⟨hctx, hpace⟩
  have hhere : S.due n base base := hdue 0 base base rfl rfl
  rw [run_fresh, run_fresh, S.names_eq hctx]
  exact ⟨_, rfl, ⟨rfl, S.due_bound hctx hpace hhere, S.due_scalar hctx hpace hhere⟩, .nil,
    S.draw hctx, S.pace_draw hpace⟩

end Timetable

end KernelGen
