import KernelGen.Proofs.Context.Entries
import KernelGen.Proofs.Course.Statements
import Mathlib.Data.List.Forall2
import Mathlib.Logic.Function.Basic

/-! # Names in scope

A `Scope` says which names may be read, and as what.  `Stm.ScopedAll` says of statements
that every name is in scope where it is read: scalars where scalars are read, in indices,
conditions, layouts and so on.  The names bound in a branch or in the body of a loop are in
scope there only, and what a loop carries is not yet in scope where it starts.

It also says that a scratch array is bound to arrays, and the result of an update to the
place of the array that is updated.  Programs that make blocks or have maps are not
scoped.  All of it can be decided.

A context may know more names than are in scope, such as those of a branch that was
compiled before.  `Scope.Known` says that it knows those in scope for what they are, and
stays true whatever else is bound (`Known.evolve`). -/
namespace KernelGen
open Lowering

/-- The names in scope: scalars, and arrays with their places. -/
def Scope : Type := Name → Option (Option Placement)

namespace Scope

def set (Γ : Scope) (x : Name) (kind : Option Placement) : Scope :=
  Function.update Γ x (some kind)

/-- The scope in which the binders are, too. -/
def bindAll (Γ : Scope) (pat : List Binder) : Scope :=
  pat.foldl (fun Γ b => Γ.set b.name b.placement) Γ

/-- The scope after statements. -/
def after (Γ : Scope) (stms : List Stm) : Scope := stms.foldl (fun Γ stm => Γ.bindAll stm.pat) Γ

/-- The operand is read as a scalar. -/
def Reads (Γ : Scope) (a : Operand) : Prop := ∀ x ∈ a.occurrences, Γ x = some none

/-- The operand may be stored into the binder. -/
def Stores (Γ : Scope) (b : Binder) (a : Operand) : Prop :=
  match b.placement with
  | none => Γ.Reads a
  | some _ => ∀ x ∈ a.occurrences, (Γ x).isSome

/-- The operands may be stored into the binders, each in its own. -/
def StoresAll (Γ : Scope) (pat : List Binder) (as : List Operand) : Prop :=
  ∀ q ∈ pat.zip as, Γ.Stores q.1 q.2

/-- The place reads scalars that are in scope. -/
def Supports (Γ : Scope) (p : Placement) : Prop := ∀ x ∈ p.layout.occurrences, Γ x = some none

/-- The places of arrays in scope read scalars in scope. -/
def Closed (Γ : Scope) : Prop := ∀ ⦃x p⦄, Γ x = some (some p) → Γ.Supports p

/-- The place of a binder, if it has one, reads scalars in scope. -/
def Places (Γ : Scope) (b : Binder) : Prop := ∀ p, b.placement = some p → Γ.Supports p

end Scope

/-! ## Scoped programs -/

mutual

/-- Every name is in scope where it is read. -/
def Stm.ScopedAll (Γ : Scope) : List Stm → Prop
  | [] => True
  | stm :: stms => Stm.Scoped Γ stm ∧ Stm.ScopedAll (Γ.bindAll stm.pat) stms

/-- Every name is in scope where it is read in a statement. -/
def Stm.Scoped (Γ : Scope) : Stm → Prop
  | ⟨pat, exp⟩ => (∀ b ∈ pat, Γ.Places b) ∧ Exp.Scoped Γ pat exp

/-- Every name is in scope where it is read in an expression that is bound by a pattern. -/
def Exp.Scoped (Γ : Scope) (pat : List Binder) : Exp → Prop
  | .operand a => ∀ b ∈ pat, Γ.Stores b a
  | .apply _ lhs rhs => Γ.Reads lhs ∧ Γ.Reads rhs
  | .index array indices => (Γ array).isSome ∧ ∀ a ∈ indices, Γ.Reads a
  | .update array indices value =>
    (∀ b ∈ pat, Γ array = some b.placement) ∧ (∀ a ∈ indices, Γ.Reads a) ∧ Γ.Reads value
  | .scratch _ _ => ∀ b ∈ pat, b.placement.isSome
  | .branch cond yes no => Γ.Reads cond ∧ Body.Scoped Γ pat yes ∧ Body.Scoped Γ pat no
  | .loop carried counter bound body =>
    (∀ q ∈ carried, Γ.Places q.1 ∧ Γ.Stores q.1 q.2) ∧ Γ.Reads bound ∧
      Body.Scoped ((Γ.bindAll (carried.map Prod.fst)).set counter none) (carried.map Prod.fst)
        body ∧
      (Γ.bindAll (carried.map Prod.fst)).StoresAll pat (carried.map (.var ·.1.name))
  | .alloc _ _ | .map _ _ => False

/-- Every name is in scope where it is read in a body, whose results go into the binders. -/
def Body.Scoped (Γ : Scope) (pat : List Binder) : Body → Prop
  | ⟨stms, result⟩ => Stm.ScopedAll Γ stms ∧ (Γ.after stms).StoresAll pat result

end

/-! ### Deciding -/

namespace Scope
variable (Γ : Scope)

instance (x : Name) (kind : Option (Option Placement)) : Decidable (Γ x = kind) := inferInstance

instance (a : Operand) : Decidable (Γ.Reads a) :=
  inferInstanceAs (Decidable (∀ x ∈ a.occurrences, Γ x = some none))

instance (b : Binder) (a : Operand) : Decidable (Γ.Stores b a) :=
  match b with
  | ⟨_, _, none⟩ => inferInstanceAs (Decidable (Γ.Reads a))
  | ⟨_, _, some _⟩ => inferInstanceAs (Decidable (∀ x ∈ a.occurrences, (Γ x).isSome))

instance (pat : List Binder) (as : List Operand) : Decidable (Γ.StoresAll pat as) :=
  inferInstanceAs (Decidable (∀ q ∈ pat.zip as, Γ.Stores q.1 q.2))

instance (p : Placement) : Decidable (Γ.Supports p) :=
  inferInstanceAs (Decidable (∀ x ∈ p.layout.occurrences, Γ x = some none))

instance (b : Binder) : Decidable (Γ.Places b) :=
  match b with
  | ⟨_, _, none⟩ => .isTrue nofun
  | ⟨_, _, some p⟩ =>
    decidable_of_iff (Γ.Supports p) ⟨fun h _ hp => Option.some.inj hp ▸ h, fun h => h p rfl⟩

end Scope

mutual

/-- Whether statements are in scope can be computed. -/
def Stm.decidableScopedAll (Γ : Scope) : (stms : List Stm) → Decidable (Stm.ScopedAll Γ stms)
  | [] => .isTrue trivial
  | stm :: stms =>
    let := Stm.decidableScoped Γ stm
    let := Stm.decidableScopedAll (Γ.bindAll stm.pat) stms
    inferInstanceAs (Decidable (Stm.Scoped Γ stm ∧ Stm.ScopedAll (Γ.bindAll stm.pat) stms))

def Stm.decidableScoped (Γ : Scope) : (stm : Stm) → Decidable (Stm.Scoped Γ stm)
  | ⟨pat, exp⟩ =>
    let := Exp.decidableScoped Γ pat exp
    inferInstanceAs (Decidable ((∀ b ∈ pat, Γ.Places b) ∧ Exp.Scoped Γ pat exp))

def Exp.decidableScoped (Γ : Scope) (pat : List Binder) :
    (e : Exp) → Decidable (Exp.Scoped Γ pat e)
  | .operand a => inferInstanceAs (Decidable (∀ b ∈ pat, Γ.Stores b a))
  | .apply _ lhs rhs => inferInstanceAs (Decidable (Γ.Reads lhs ∧ Γ.Reads rhs))
  | .index array indices =>
    inferInstanceAs (Decidable ((Γ array).isSome ∧ ∀ a ∈ indices, Γ.Reads a))
  | .update array indices value =>
    inferInstanceAs (Decidable ((∀ b ∈ pat, Γ array = some b.placement) ∧
      (∀ a ∈ indices, Γ.Reads a) ∧ Γ.Reads value))
  | .scratch _ _ => inferInstanceAs (Decidable (∀ b ∈ pat, b.placement.isSome))
  | .branch cond yes no =>
    let := Body.decidableScoped Γ pat yes
    let := Body.decidableScoped Γ pat no
    inferInstanceAs (Decidable (Γ.Reads cond ∧ Body.Scoped Γ pat yes ∧ Body.Scoped Γ pat no))
  | .loop carried counter bound body =>
    let := Body.decidableScoped ((Γ.bindAll (carried.map Prod.fst)).set counter none)
      (carried.map Prod.fst) body
    inferInstanceAs (Decidable ((∀ q ∈ carried, Γ.Places q.1 ∧ Γ.Stores q.1 q.2) ∧
      Γ.Reads bound ∧
      Body.Scoped ((Γ.bindAll (carried.map Prod.fst)).set counter none) (carried.map Prod.fst)
        body ∧
      (Γ.bindAll (carried.map Prod.fst)).StoresAll pat (carried.map (.var ·.1.name))))
  | .alloc _ _ | .map _ _ => .isFalse not_false

def Body.decidableScoped (Γ : Scope) (pat : List Binder) :
    (body : Body) → Decidable (Body.Scoped Γ pat body)
  | ⟨stms, result⟩ =>
    let := Stm.decidableScopedAll Γ stms
    inferInstanceAs (Decidable (Stm.ScopedAll Γ stms ∧ (Γ.after stms).StoresAll pat result))

end

instance (Γ : Scope) (stms : List Stm) : Decidable (Stm.ScopedAll Γ stms) :=
  Stm.decidableScopedAll Γ stms

/-! ## Growing scopes -/

/-- A statement binds its pattern. -/
theorem Stm.mem_bindings_of_pat {stm : Stm} {x : Name} (h : x ∈ stm.pat.map Binder.name) :
    x ∈ stm.bindings := by
  rcases stm with ⟨pat, exp⟩
  exact List.mem_append.mpr (.inl h)

namespace Scope
variable {Γ Γ' Γ'' : Scope} {x y : Name} {pat : List Binder}

theorem set_self (Γ : Scope) (x : Name) (kind : Option Placement) : Γ.set x kind x = some kind :=
  Function.update_self ..

theorem set_of_ne (Γ : Scope) (kind : Option Placement) (h : y ≠ x) : Γ.set x kind y = Γ y :=
  Function.update_of_ne h ..

theorem bindAll_of_not_mem (Γ : Scope) (h : x ∉ pat.map Binder.name) : Γ.bindAll pat x = Γ x := by
  induction pat generalizing Γ with
  | nil => rfl
  | cons b pat ih =>
    rw [List.map_cons, List.mem_cons, not_or] at h
    exact (ih (Γ.set b.name b.placement) h.2).trans (set_of_ne Γ b.placement h.1)

theorem isSome_bindAll (Γ : Scope) (h : x ∈ pat.map Binder.name) : (Γ.bindAll pat x).isSome := by
  induction pat generalizing Γ with
  | nil => cases h
  | cons b pat ih =>
    change ((Γ.set b.name b.placement).bindAll pat x).isSome
    by_cases hx : x ∈ pat.map Binder.name
    · exact ih _ hx
    · obtain rfl : x = b.name := by simpa [hx] using h
      rw [bindAll_of_not_mem _ hx, set_self]
      rfl

theorem after_of_not_mem (Γ : Scope) {stms : List Stm} (h : x ∉ Stm.bindingsAll stms) :
    Γ.after stms x = Γ x := by
  induction stms generalizing Γ with
  | nil => rfl
  | cons stm stms ih =>
    rw [Stm.bindingsAll, List.mem_append, not_or] at h
    have hpat : x ∉ stm.pat.map Binder.name := fun hmem => h.1 (Stm.mem_bindings_of_pat hmem)
    exact (ih (Γ.bindAll stm.pat) h.2).trans (bindAll_of_not_mem Γ hpat)

theorem bindAll_of_mem (Γ : Scope) (hnodup : (pat.map Binder.name).Nodup) {b : Binder}
    (hb : b ∈ pat) : Γ.bindAll pat b.name = some b.placement := by
  induction pat generalizing Γ with
  | nil => cases hb
  | cons b' pat ih =>
    rw [List.map_cons, List.nodup_cons] at hnodup
    rcases List.mem_cons.mp hb with rfl | hb
    · exact (bindAll_of_not_mem _ hnodup.1).trans (set_self ..)
    · exact ih (Γ.set b'.name b'.placement) hnodup.2 hb

/-- Binders with different names are in scope after their statements. -/
theorem after_of_mem (Γ : Scope) {stms : List Stm} (hnodup : (Stm.bindingsAll stms).Nodup)
    {stm : Stm} (hstm : stm ∈ stms) {b : Binder} (hb : b ∈ stm.pat) :
    Γ.after stms b.name = some b.placement := by
  induction stms generalizing Γ with
  | nil => cases hstm
  | cons stm' stms ih =>
    rw [Stm.bindingsAll] at hnodup
    obtain ⟨hfirst, hrest, hapart⟩ := List.nodup_append.mp hnodup
    rcases List.mem_cons.mp hstm with rfl | hstm
    · have hmem := Stm.mem_bindings_of_pat (List.mem_map_of_mem hb)
      have hnot : b.name ∉ Stm.bindingsAll stms := fun h => hapart _ hmem _ h rfl
      refine (after_of_not_mem _ hnot).trans (bindAll_of_mem Γ ?_ hb)
      rcases stm with ⟨pat, exp⟩
      rw [Stm.bindings] at hfirst
      exact (List.nodup_append.mp hfirst).1
    · exact ih (Γ.bindAll stm'.pat) hrest hstm

/-- A name in scope is another than one that is not. -/
theorem ne_of_isSome (hx : (Γ x).isSome) (hy : Γ y = none) : x ≠ y := by
  rintro rfl
  rw [hy] at hx
  cases hx

/-- What is in scope in `Γ` is in `Γ'`, as the same. -/
def Within (Γ Γ' : Scope) : Prop := ∀ x, (Γ x).isSome → Γ' x = Γ x

theorem Within.refl (Γ : Scope) : Γ.Within Γ := fun _ _ => rfl

theorem Within.trans (h : Γ.Within Γ') (h' : Γ'.Within Γ'') : Γ.Within Γ'' := by
  intro x hx
  have hx' : (Γ' x).isSome := by rwa [h x hx]
  rw [h' x hx', h x hx]

theorem Within.eq_some (h : Γ.Within Γ') {kind : Option Placement} (hx : Γ x = some kind) :
    Γ' x = some kind := by
  rw [h x (by simp [hx]), hx]

/-- Binding names that are not in scope takes nothing out of scope. -/
theorem within_of_eq {xs : List Name} (hnew : ∀ x ∈ xs, Γ x = none)
    (h : ∀ x, x ∉ xs → Γ' x = Γ x) : Γ.Within Γ' := by
  intro x hx
  exact h x fun hmem => ne_of_isSome hx (hnew x hmem) rfl

theorem within_set (kind : Option Placement) (hx : Γ x = none) : Γ.Within (Γ.set x kind) := by
  intro y hy
  exact set_of_ne Γ kind (ne_of_isSome hy hx)

theorem within_bindAll (h : ∀ x ∈ pat.map Binder.name, Γ x = none) : Γ.Within (Γ.bindAll pat) :=
  within_of_eq h fun _ hx => bindAll_of_not_mem Γ hx

theorem within_after {stms : List Stm} (h : ∀ x ∈ Stm.bindingsAll stms, Γ x = none) :
    Γ.Within (Γ.after stms) :=
  within_of_eq h fun _ hx => after_of_not_mem Γ hx

theorem Within.supports (h : Γ.Within Γ') {p : Placement} (hp : Γ.Supports p) : Γ'.Supports p :=
  fun x hx => h.eq_some (hp x hx)

theorem Stores.isSome {b : Binder} {a : Operand} (h : Γ.Stores b a) :
    ∀ x ∈ a.occurrences, (Γ x).isSome := by
  rcases b with ⟨y, ty, _ | p⟩
  · intro x hx
    rw [h x hx]
    rfl
  · exact h

theorem Within.stores (h : Γ.Within Γ') {b : Binder} {a : Operand} (ha : Γ.Stores b a) :
    Γ'.Stores b a := by
  rcases b with ⟨y, ty, _ | p⟩
  · exact fun x hx => h.eq_some (ha x hx)
  · intro x hx
    rw [h x (ha x hx)]
    exact ha x hx

theorem Closed.set (h : Γ.Closed) {kind : Option Placement} (hx : Γ x = none)
    (hkind : ∀ p, kind = some p → Γ.Supports p) : (Γ.set x kind).Closed := by
  intro y p hy
  refine (within_set kind hx).supports ?_
  by_cases hyx : y = x
  · subst hyx
    rw [set_self, Option.some.injEq] at hy
    exact hkind p hy
  · rw [set_of_ne Γ kind hyx] at hy
    exact h hy

/-! ## New names -/

/-- Different names, drawn before, that are not in scope. -/
structure New (Γ : Scope) (ctx : Context) (xs : List Name) : Prop where
  nodup : xs.Nodup
  unbound : ∀ x ∈ xs, Γ x = none
  drawn : ∀ x ∈ xs, x.tag < ctx.names.next

namespace New
variable {ctx ctx' : Context} {xs ys : List Name}

theorem left (h : Γ.New ctx (xs ++ ys)) : Γ.New ctx xs where
  nodup := (List.nodup_append.mp h.nodup).1
  unbound x hx := h.unbound x (List.mem_append.mpr (.inl hx))
  drawn x hx := h.drawn x (List.mem_append.mpr (.inl hx))

/-- The second names are new where the first ones are bound, in scope or not. -/
theorem right (h : Γ.New ctx (xs ++ ys)) (hnext : ctx.names.next ≤ ctx'.names.next)
    (hscope : ∀ x, x ∉ xs → Γ' x = Γ x) : Γ'.New ctx' ys where
  nodup := (List.nodup_append.mp h.nodup).2.1
  unbound x hx := by
    rw [hscope x fun hmem => (List.nodup_append.mp h.nodup).2.2 x hmem x hx rfl]
    exact h.unbound x (List.mem_append.mpr (.inr hx))
  drawn x hx := Nat.lt_of_lt_of_le (h.drawn x (List.mem_append.mpr (.inr hx))) hnext

end New

/-- A pattern that may be bound: different names that are not in scope, in places that read
scalars in scope. -/
structure Admits (Γ : Scope) (pat : List Binder) : Prop where
  nodup : (pat.map Binder.name).Nodup
  new : ∀ x ∈ pat.map Binder.name, Γ x = none
  places : ∀ b ∈ pat, Γ.Places b

/-! ## What contexts know -/

/-- The entry says what the name is. -/
def Describes (kind : Option Placement) (e : Entry) : Prop :=
  match kind with
  | none => ∃ ty, e = .scalar ty
  | some p => ∃ ty, e = .array ty p

/-- The context knows the names in scope for what they are, and their tags were drawn. -/
structure Known (Γ : Scope) (ctx : Context) : Prop where
  entry : ∀ {x kind}, Γ x = some kind → ∃ e, ctx.vars.get? x = some e ∧ Describes kind e
  closed : Γ.Closed
  drawn : ∀ {x kind}, Γ x = some kind → x.tag < ctx.names.next

namespace Known
variable {ctx ctx' : Context}

/-- What the context has for an array in scope is its place. -/
theorem array (h : Γ.Known ctx) {ty : Ty} {p : Placement} (hx : (Γ x).isSome)
    (hp : ctx.vars.get? x = some (.array ty p)) : Γ x = some (some p) := by
  obtain ⟨kind, hkind⟩ := Option.isSome_iff_exists.mp hx
  obtain ⟨e, he, hdescribes⟩ := h.entry hkind
  rw [hp, Option.some.injEq] at he
  subst he
  match kind with
  | none =>
    obtain ⟨ty', h⟩ := hdescribes
    cases h
  | some p' =>
    obtain ⟨ty', h⟩ := hdescribes
    cases h
    exact hkind

/-- **What is bound under other names** changes nothing. -/
theorem evolve (h : Γ.Known ctx) {vars : List Name} (hevolves : ctx.EvolvesWithin vars ctx')
    (hvars : ∀ x ∈ vars, Γ x = none) : Γ.Known ctx' where
  entry {x kind} hx := by
    obtain ⟨xs, hsteps, hxs⟩ := hevolves
    have hnot : x ∉ xs := by
      intro hmem
      rcases hxs x hmem with hv | ⟨hlow, -⟩
      · rw [hvars x hv] at hx
        cases hx
      · have := h.drawn hx
        omega
    rw [hsteps.get?_eq hnot]
    exact h.entry hx
  closed := h.closed
  drawn {x kind} hx := by
    obtain ⟨xs, hsteps, -⟩ := hevolves
    exact Nat.lt_of_lt_of_le (h.drawn hx) hsteps.next_le

theorem bind (h : Γ.Known ctx) {kind : Option Placement} {e : Entry} (hx : Γ x = none)
    (hdrawn : x.tag < ctx.names.next) (he : Describes kind e)
    (hkind : ∀ p, kind = some p → Γ.Supports p) : (Γ.set x kind).Known (ctx.bind x e) := by
  refine ⟨fun {y k} hy => ?_, h.closed.set hx hkind, fun {y k} hy => ?_⟩
  · by_cases hyx : y = x
    · subst hyx
      rw [set_self] at hy
      cases hy
      exact ⟨e, Context.get?_bind_self e, he⟩
    · rw [set_of_ne Γ kind hyx] at hy
      rw [Context.get?_bind_of_ne e (Ne.symm hyx)]
      exact h.entry hy
  · by_cases hyx : y = x
    · rw [hyx]
      exact hdrawn
    · rw [set_of_ne Γ kind hyx] at hy
      exact h.drawn hy

theorem bindScalar (h : Γ.Known ctx) (hx : Γ x = none) (hdrawn : x.tag < ctx.names.next)
    (ty : Ty) : (Γ.set x none).Known (ctx.bindScalar x ty) := by
  have he : Describes none (.scalar ty) := ⟨ty, rfl⟩
  exact h.bind hx hdrawn he nofun

end Known

end Scope

/-! ## Compiling in scope -/

namespace Lowering
variable {Γ : Scope} {ctx last : Context} {pat : List Binder} {code : Code}

/-- A step that succeeds lets its context evolve. -/
theorem evolves_of_follows {α : Type} {kernels : Bool} {vars made : List Name} {x : Lowering α}
    {a : α} (hfollows : Follows kernels vars made x)
    (hrun : x.run ctx = ⟨.ok a, code, last⟩) : ctx.EvolvesWithin vars last := by
  have hevolves := hfollows.evolvesWithin ctx
  rwa [hrun] at hevolves

/-- The statement that declares what the binder binds. -/
def declaration (b : Binder) : Code :=
  if b.placement.isNone then [.declareScalar b.name b.ty] else []

/-- A binder is in scope after its declaration. -/
theorem run_declare {b : Binder} (hrun : (declare b).run ctx = ⟨.ok (), code, last⟩) :
    code = declaration b ∧ ∃ e, Scope.Describes b.placement e ∧ last = ctx.bind b.name e := by
  rcases b with ⟨x, ty, _ | p⟩
  · obtain ⟨⟨⟩, front, mid, rest, hemit, hbind, rfl⟩ := run_bind_eq_ok.mp hrun
    cases hemit
    obtain ⟨c, front, mid, rest, hask, hchange, rfl⟩ := run_bind_eq_ok.mp hbind
    obtain ⟨hc, rfl, rfl⟩ := run_ask_eq_ok.mp hask
    cases hchange
    by_cases hty : ty.isScalar
    · simp only [Context.bindBinder, hty, if_true, Except.ok.injEq] at hc
      exact ⟨rfl, .scalar ty, ⟨ty, rfl⟩, hc.symm⟩
    · simp [Context.bindBinder, hty] at hc
  · cases hrun
    exact ⟨rfl, .array ty p, ⟨ty, rfl⟩, rfl⟩

/-- A pattern is declared binder by binder; each gets an entry that says what it is. -/
theorem run_declarePattern_eq_ok {dests : List Destination}
    (hrun : (declarePattern pat).run ctx = ⟨.ok dests, code, last⟩) :
    dests = pat.map Binder.destination ∧ code = pat.flatMap declaration ∧
      ∃ es, List.Forall₂ (fun b e => Scope.Describes b.placement e) pat es ∧
        last = ctx.bindAll ((pat.map Binder.name).zip es) := by
  obtain ⟨⟨⟩, front, mid, rest, hforM, hpure, rfl⟩ := run_bind_eq_ok.mp hrun
  cases hpure
  rw [List.append_nil]
  refine ⟨rfl, ?_⟩
  clear hrun
  induction pat generalizing ctx front with
  | nil =>
    cases hforM
    exact ⟨rfl, [], .nil, rfl⟩
  | cons b pat ih =>
    obtain ⟨⟨⟩, first, mid, others, hdeclare, hothers, rfl⟩ := run_bind_eq_ok.mp hforM
    obtain ⟨rfl, e, he, rfl⟩ := run_declare hdeclare
    obtain ⟨rfl, es, hes, rfl⟩ := ih others hothers
    exact ⟨rfl, e :: es, .cons he hes, rfl⟩

/-- **The binders of a pattern are in scope after their declarations.** -/
theorem known_declarePattern {dests : List Destination} (hknown : Γ.Known ctx)
    (hnew : Γ.New ctx (pat.map Binder.name)) (hplaces : ∀ b ∈ pat, Γ.Places b)
    (hrun : (declarePattern pat).run ctx = ⟨.ok dests, code, last⟩) :
    (Γ.bindAll pat).Known last := by
  obtain ⟨-, -, es, hes, rfl⟩ := run_declarePattern_eq_ok hrun
  clear hrun
  induction hes generalizing Γ ctx with
  | nil => exact hknown
  | @cons b e pat es he _ ih =>
    rw [List.forall_mem_cons] at hplaces
    rw [List.map_cons, ← List.singleton_append] at hnew
    have hb := hnew.left.unbound b.name (List.mem_cons_self ..)
    have hdrawn := hnew.left.drawn b.name (List.mem_cons_self ..)
    have hwithin := Scope.within_set b.placement hb
    refine ih (hknown.bind hb hdrawn he hplaces.1) ?_ fun b' hb' p hp => ?_
    · refine hnew.right (Nat.le_refl _) fun x hx => ?_
      exact Scope.set_of_ne Γ b.placement (by simpa using hx)
    · exact hwithin.supports (hplaces.2 b' hb' p hp)

/-- A statement in scope first declares its pattern; what follows binds names of its
expression. -/
theorem run_lowerExp_eq_ok {e : Exp} (hscoped : e.Scoped Γ pat)
    (hrun : (Exp.lower none pat e).run ctx = ⟨.ok (), code, last⟩) :
    ∃ front mid, (declarePattern pat).run ctx = ⟨.ok (pat.map Binder.destination), front, mid⟩ ∧
      mid.EvolvesWithin e.bindings last := by
  have hm : MapsFollow true none := mapsFollow_none
  have hself : ∀ x ∈ e.bindings, x ∈ e.bindings := fun _ hx => hx
  rcases lowerExp_cases hm hself with
    ⟨f, hlower, hf⟩ | ⟨size, space, rfl⟩ | ⟨m, g, inputs, hnone, -⟩
  · rw [hlower] at hrun
    obtain ⟨dests, front, mid, rest, hdeclare, hrest, -⟩ := run_bind_eq_ok.mp hrun
    obtain ⟨rfl, -⟩ := run_declarePattern_eq_ok hdeclare
    exact ⟨front, mid, hdeclare, evolves_of_follows (hf _) hrest⟩
  · exact hscoped.elim
  · cases hnone

end Lowering

end KernelGen
