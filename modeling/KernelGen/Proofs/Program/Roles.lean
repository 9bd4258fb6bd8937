import KernelGen.Context.Basic
import KernelGen.Program.Rewrite
import KernelGen.Proofs.Program.Scalars
import Mathlib.Data.List.Forall2

/-! # What the names of a program are used for

A name of a program is read as a scalar, looked up as an array, or bound; arrays are
placed in blocks.  `Roles` says which names may play which part, and `Stm.Respects` that
a statement uses names in no other way.  Which part an operand plays depends on where it
goes: stored into a scalar it is read, stored into an array it is looked up, as arrays
are never copied.

Roles may be as coarse as what a program reads and binds, whatever for (`Roles.ofNames`),
and every program respects those of its own names (`Stm.respects_ofNames`).  They may also
tell scalars from other names (`Roles.ofScalars`), and then `Respects` is what a check of
kinds would establish.  A program that respects two assignments of roles respects both at
once (`Stm.respectsAll_both`). -/
namespace KernelGen

/-- The parts that names may play. -/
structure Roles where
  /-- Read as a scalar. -/
  scalar : Name → Prop
  /-- Looked up as an array. -/
  array : Name → Prop
  /-- The first input of a map, whose extent is the number of elements. -/
  head : Name → Prop
  /-- Bound. -/
  bound : Name → Prop
  /-- The place of an array that is bound. -/
  placed : Placement → Prop

/-- The destination in the image of its place. -/
def Destination.rewrite (f : Placement → Placement) : Destination → Destination
  | .scalar x => .scalar x
  | .array p element => .array (f p) element

theorem Binder.destination_rewrite (f : Placement → Placement) (b : Binder) :
    (b.rewrite f).destination = b.destination.rewrite f := by
  rcases b with ⟨x, ty, _ | p⟩ <;> rfl

theorem map_destination_rewrite (f : Placement → Placement) (pat : List Binder) :
    (pat.map (Binder.rewrite f)).map Binder.destination =
      (pat.map Binder.destination).map (Destination.rewrite f) := by
  rw [List.map_map, List.map_map]
  exact List.map_congr_left fun b _ => b.destination_rewrite f

namespace Roles
variable (R : Roles)

/-- The operand is read as a scalar. -/
def Reads (a : Operand) : Prop := ∀ x ∈ a.occurrences, R.scalar x

/-- The binder binds a name, and an array in a place. -/
def Binds (b : Binder) : Prop := R.bound b.name ∧ ∀ p, b.placement = some p → R.placed p

/-- A destination names what is bound, or places what is placed. -/
def Names : Destination → Prop
  | .scalar x => R.bound x
  | .array p _ => R.placed p

/-- The operand may be stored there. -/
def Stores : Destination → Operand → Prop
  | .scalar _, a => R.Reads a
  | .array _ _, a => ∀ x ∈ a.occurrences, R.array x

/-- The operands may be stored, each in its destination. -/
def StoresAll (dests : List Destination) (results : List Operand) : Prop :=
  ∀ q ∈ dests.zip results, R.Stores q.1 q.2

theorem Binds.names {R : Roles} {b : Binder} (h : R.Binds b) : R.Names b.destination := by
  rcases b with ⟨x, ty, _ | p⟩
  · exact h.1
  · exact h.2 p rfl

theorem names_of_binds {R : Roles} {pat : List Binder} (hp : ∀ b ∈ pat, R.Binds b) :
    ∀ d ∈ pat.map Binder.destination, R.Names d := by
  intro d hd
  obtain ⟨b, hb, rfl⟩ := List.mem_map.mp hd
  exact (hp b hb).names

end Roles

/-! ## Programs that respect roles -/

section
variable (R : Roles)

mutual

/-- Every statement respects the roles. -/
def Stm.RespectsAll : List Stm → Prop
  | [] => True
  | stm :: stms => Stm.Respects stm ∧ Stm.RespectsAll stms

/-- The statement uses names only as the roles say. -/
def Stm.Respects : Stm → Prop
  | ⟨pat, exp⟩ => (∀ b ∈ pat, R.Binds b) ∧ Exp.Respects (pat.map Binder.destination) exp

/-- The expression, stored into these destinations, uses names only as the roles say. -/
def Exp.Respects (dests : List Destination) : Exp → Prop
  | .operand a => ∀ d ∈ dests, R.Stores d a
  | .apply _ lhs rhs => R.Reads lhs ∧ R.Reads rhs
  | .index array indices => R.array array ∧ ∀ a ∈ indices, R.Reads a
  | .update _ indices value => (∀ a ∈ indices, R.Reads a) ∧ R.Reads value
  | .alloc size _ => ∀ x ∈ size.occurrences, R.scalar x
  | .scratch _ _ => True
  | .branch cond ⟨yes, yesResult⟩ ⟨no, noResult⟩ =>
    R.Reads cond ∧ (Stm.RespectsAll yes ∧ R.StoresAll dests yesResult) ∧
      (Stm.RespectsAll no ∧ R.StoresAll dests noResult)
  | .loop carried counter bound ⟨stms, result⟩ =>
    (∀ q ∈ carried, R.Binds q.1 ∧ R.Stores q.1.destination q.2) ∧ R.bound counter ∧
      R.Reads bound ∧ Stm.RespectsAll stms ∧
      R.StoresAll (carried.map (·.1.destination)) result ∧
      R.StoresAll dests (carried.map (.var ·.1.name))
  | .map ⟨params, ⟨stms, result⟩, _⟩ inputs =>
    ((∀ b ∈ params, R.bound b.name) ∧ Stm.RespectsAll stms ∧ ∀ a ∈ result, R.Reads a) ∧
      (∀ x ∈ inputs, R.array x) ∧ ∀ x ∈ inputs.head?, R.head x

end

/-- The lambda of a map respects the roles; its results are scalars. -/
def Lambda.Respects (f : Lambda) : Prop :=
  (∀ b ∈ f.params, R.bound b.name) ∧ Stm.RespectsAll R f.body.stms ∧
    ∀ a ∈ f.body.result, R.Reads a

theorem Stm.respectsAll_iff {stms : List Stm} :
    Stm.RespectsAll R stms ↔ ∀ stm ∈ stms, stm.Respects R := by
  induction stms with
  | nil => simp [Stm.RespectsAll]
  | cons stm stms ih => simp [Stm.RespectsAll, ih]

end

/-! ## Coarser roles and rewritten programs -/

/-- Whatever plays a part under `R` may play it under `R'`, with places moved by `f`. -/
structure Roles.Into (R : Roles) (f : Placement → Placement) (R' : Roles) : Prop where
  scalar : ∀ x, R.scalar x → R'.scalar x
  array : ∀ x, R.array x → R'.array x
  head : ∀ x, R.head x → R'.head x
  bound : ∀ x, R.bound x → R'.bound x
  placed : ∀ p, R.placed p → R'.placed (f p)

namespace Roles.Into
variable {R R' : Roles} {f : Placement → Placement}

theorem reads (h : R.Into f R') {a : Operand} (ha : R.Reads a) : R'.Reads a :=
  fun x hx => h.scalar x (ha x hx)

theorem binds (h : R.Into f R') {b : Binder} (hb : R.Binds b) : R'.Binds (b.rewrite f) := by
  refine ⟨h.bound _ hb.1, fun p hp => ?_⟩
  obtain ⟨q, hq, rfl⟩ := Option.map_eq_some_iff.mp hp
  exact h.placed q (hb.2 q hq)

theorem stores (h : R.Into f R') {d : Destination} {a : Operand} (ha : R.Stores d a) :
    R'.Stores (d.rewrite f) a := by
  cases d with
  | scalar x => exact h.reads ha
  | array p element => exact fun x hx => h.array x (ha x hx)

theorem storesAll (h : R.Into f R') {dests : List Destination} {results : List Operand}
    (ha : R.StoresAll dests results) :
    R'.StoresAll (dests.map (Destination.rewrite f)) results := by
  intro q hq
  rw [List.zip_map_left, List.mem_map] at hq
  obtain ⟨r, hr, rfl⟩ := hq
  exact h.stores (ha r hr)

mutual

theorem stms (h : R.Into f R') {stms : List Stm} (hs : Stm.RespectsAll R stms) :
    Stm.RespectsAll R' (Stm.rewriteAll f id stms) := by
  match stms with
  | [] => trivial
  | stm :: stms => exact ⟨h.stm hs.1, h.stms hs.2⟩

theorem stm (h : R.Into f R') {stm : Stm} (hs : stm.Respects R) :
    (stm.rewrite f id).Respects R' := by
  match stm with
  | ⟨pat, exp⟩ =>
    refine ⟨?_, ?_⟩
    · intro b hb
      obtain ⟨c, hc, rfl⟩ := List.mem_map.mp hb
      exact h.binds (hs.1 c hc)
    · rw [map_destination_rewrite]
      exact h.exp hs.2

theorem exp (h : R.Into f R') {dests : List Destination} {e : Exp}
    (he : e.Respects R dests) :
    (e.rewrite f id).Respects R' (dests.map (Destination.rewrite f)) := by
  match e with
  | .operand a =>
    intro d hd
    obtain ⟨c, hc, rfl⟩ := List.mem_map.mp hd
    exact h.stores (he c hc)
  | .apply op lhs rhs => exact ⟨h.reads he.1, h.reads he.2⟩
  | .index array indices =>
    simp only [Exp.rewrite, List.map_id]
    exact ⟨h.array _ he.1, fun a ha => h.reads (he.2 a ha)⟩
  | .update array indices value =>
    simp only [Exp.rewrite, List.map_id]
    exact ⟨fun a ha => h.reads (he.1 a ha), h.reads he.2⟩
  | .alloc size space => exact fun x hx => h.scalar x (he x hx)
  | .scratch element shape => trivial
  | .branch cond ⟨yes, yesResult⟩ ⟨no, noResult⟩ =>
    simp only [Exp.rewrite, Body.rewrite, List.map_id]
    exact ⟨h.reads he.1, ⟨h.stms he.2.1.1, h.storesAll he.2.1.2⟩,
      h.stms he.2.2.1, h.storesAll he.2.2.2⟩
  | .loop carried counter bound ⟨stms, result⟩ =>
    obtain ⟨hc, hcounter, hb, hs, hr, hd⟩ := he
    simp only [Exp.rewrite, Body.rewrite, List.map_id]
    refine ⟨?_, h.bound _ hcounter, h.reads hb, h.stms hs, ?_, ?_⟩
    · intro q hq
      obtain ⟨r, hr, rfl⟩ := List.mem_map.mp hq
      refine ⟨h.binds (hc r hr).1, ?_⟩
      rw [Binder.destination_rewrite]
      exact h.stores (hc r hr).2
    · have := h.storesAll hr
      rw [List.map_map] at this ⊢
      simpa [Function.comp_def, Binder.destination_rewrite] using this
    · have := h.storesAll hd
      rw [List.map_map]
      simpa [Function.comp_def, Binder.rewrite] using this
  | .map ⟨params, ⟨stms, result⟩, ret⟩ inputs =>
    obtain ⟨⟨hp, hs, hr⟩, hi, hh⟩ := he
    simp only [Exp.rewrite, Lambda.rewrite, Body.rewrite, List.map_id]
    refine ⟨⟨?_, h.stms hs, fun a ha => h.reads (hr a ha)⟩,
      fun x hx => h.array x (hi x hx), fun x hx => h.head x (hh x hx)⟩
    intro b hb
    obtain ⟨c, hc, rfl⟩ := List.mem_map.mp hb
    exact h.bound _ (hp c hc)

end

theorem lambda (h : R.Into f R') {g : Lambda} (hg : g.Respects R) :
    (g.rewrite f id).Respects R' := by
  rcases g with ⟨params, ⟨stms, result⟩, ret⟩
  obtain ⟨hp, hs, hr⟩ := hg
  simp only [Lambda.rewrite, Body.rewrite, List.map_id]
  refine ⟨?_, h.stms hs, fun a ha => h.reads (hr a ha)⟩
  intro b hb
  obtain ⟨c, hc, rfl⟩ := List.mem_map.mp hb
  exact h.bound _ (hp c hc)

end Roles.Into

/-! ## Names that are read and bound -/

/-- What is read may be read for any purpose, what is bound may be bound and then read, and
maps run over the extents of some of what is read. -/
def Roles.ofNames (reads binds heads : Name → Prop) : Roles where
  scalar x := reads x ∨ binds x
  array x := reads x ∨ binds x
  head x := reads x ∧ heads x
  bound := binds
  placed p := reads p.block ∧ ∀ x ∈ p.layout.occurrences, reads x

section
variable {reads binds heads : Name → Prop}

namespace Roles

theorem reads_ofNames {a : Operand} (h : ∀ x ∈ a.occurrences, reads x) :
    (ofNames reads binds heads).Reads a := fun x hx => .inl (h x hx)

theorem stores_ofNames {d : Destination} {a : Operand}
    (h : ∀ x ∈ a.occurrences, reads x ∨ binds x) :
    (ofNames reads binds heads).Stores d a := by
  cases d <;> exact h

theorem storesAll_ofNames {dests : List Destination} {results : List Operand}
    (h : ∀ x ∈ results.flatMap Operand.occurrences, reads x ∨ binds x) :
    (ofNames reads binds heads).StoresAll dests results := by
  intro q hq
  refine stores_ofNames fun x hx => h x ?_
  exact List.mem_flatMap.mpr ⟨q.2, (List.of_mem_zip hq).2, hx⟩

theorem binds_ofNames {b : Binder} (hb : binds b.name) (h : ∀ x ∈ b.occurrences, reads x) :
    (ofNames reads binds heads).Binds b := by
  refine ⟨hb, fun p hp => ?_⟩
  simp only [Binder.occurrences, hp, List.forall_mem_cons] at h
  exact h

end Roles

mutual

/-- **A program respects the roles of its own names.** -/
theorem Stm.respectsAll_ofNames {stms : List Stm} (h : ∀ x ∈ Stm.occurrencesAll stms, reads x)
    (hb : ∀ x ∈ Stm.bindingsAll stms, binds x) (hh : ∀ x ∈ Stm.headsAll stms, heads x) :
    Stm.RespectsAll (Roles.ofNames reads binds heads) stms := by
  match stms with
  | [] => trivial
  | stm :: stms =>
    simp only [Stm.occurrencesAll, Stm.bindingsAll, Stm.headsAll, List.forall_mem_append] at h hb hh
    exact ⟨Stm.respects_ofNames h.1 hb.1 hh.1, Stm.respectsAll_ofNames h.2 hb.2 hh.2⟩

theorem Stm.respects_ofNames {stm : Stm} (h : ∀ x ∈ stm.occurrences, reads x)
    (hb : ∀ x ∈ stm.bindings, binds x) (hh : ∀ x ∈ stm.heads, heads x) :
    stm.Respects (Roles.ofNames reads binds heads) := by
  match stm with
  | ⟨pat, exp⟩ =>
    simp only [Stm.occurrences, Stm.bindings, Stm.heads, List.forall_mem_append] at h hb hh
    refine ⟨fun b hm => Roles.binds_ofNames ?_ ?_, Exp.respects_ofNames h.2 hb.2 hh⟩
    · exact hb.1 _ (List.mem_map_of_mem hm)
    · exact fun x hx => h.1 x (List.mem_flatMap.mpr ⟨b, hm, hx⟩)

theorem Exp.respects_ofNames {dests : List Destination} {e : Exp}
    (h : ∀ x ∈ e.occurrences, reads x) (hb : ∀ x ∈ e.bindings, binds x)
    (hh : ∀ x ∈ e.heads, heads x) : e.Respects (Roles.ofNames reads binds heads) dests := by
  have operands : ∀ {as : List Operand}, (∀ x ∈ as.flatMap Operand.occurrences, reads x) →
      ∀ a ∈ as, (Roles.ofNames reads binds heads).Reads a :=
    fun has a ha => Roles.reads_ofNames fun x hx => has x (List.mem_flatMap.mpr ⟨a, ha, hx⟩)
  match e with
  | .operand a => exact fun d _ => Roles.stores_ofNames fun x hx => .inl (h x hx)
  | .apply op lhs rhs =>
    simp only [Exp.occurrences, List.forall_mem_append] at h
    exact ⟨Roles.reads_ofNames h.1, Roles.reads_ofNames h.2⟩
  | .index array indices =>
    simp only [Exp.occurrences, List.forall_mem_cons] at h
    exact ⟨.inl h.1, operands h.2⟩
  | .update array indices value =>
    simp only [Exp.occurrences, List.forall_mem_cons, List.forall_mem_append] at h
    exact ⟨operands h.2.1, Roles.reads_ofNames h.2.2⟩
  | .alloc size space => exact fun x hx => .inl (h x hx)
  | .scratch element shape => trivial
  | .branch cond ⟨yes, yesResult⟩ ⟨no, noResult⟩ =>
    simp only [Exp.occurrences, Body.occurrences, Exp.bindings, Body.bindings, Exp.heads,
      List.forall_mem_append] at h hb hh
    obtain ⟨hc, ⟨hyes, hyr⟩, hno, hnr⟩ := h
    exact ⟨Roles.reads_ofNames hc,
      ⟨Stm.respectsAll_ofNames hyes hb.1 hh.1, Roles.storesAll_ofNames fun x hx => .inl (hyr x hx)⟩,
      Stm.respectsAll_ofNames hno hb.2 hh.2, Roles.storesAll_ofNames fun x hx => .inl (hnr x hx)⟩
  | .loop carried counter bound ⟨stms, result⟩ =>
    simp only [Exp.occurrences, Body.occurrences, Exp.bindings, Body.bindings, Exp.heads,
      List.forall_mem_append, List.forall_mem_cons] at h hb hh
    obtain ⟨hc, hbound, hs, hr⟩ := h
    obtain ⟨hnames, hcounter, hbs⟩ := hb
    refine ⟨?_, hcounter, Roles.reads_ofNames hbound, Stm.respectsAll_ofNames hs hbs hh,
      Roles.storesAll_ofNames fun x hx => .inl (hr x hx), Roles.storesAll_ofNames ?_⟩
    · intro q hq
      have hx : ∀ x ∈ q.1.occurrences ++ q.2.occurrences, reads x :=
        fun x hx => hc x (List.mem_flatMap.mpr ⟨q, hq, hx⟩)
      rw [List.forall_mem_append] at hx
      exact ⟨Roles.binds_ofNames (hnames _ (List.mem_map_of_mem hq)) hx.1,
        Roles.stores_ofNames fun x hm => .inl (hx.2 x hm)⟩
    · intro x hx
      exact .inr (hnames x (by simpa [Operand.occurrences, Operand.name?] using hx))
  | .map ⟨params, ⟨stms, result⟩, ret⟩ inputs =>
    simp only [Exp.occurrences, Lambda.occurrences, Body.occurrences, Exp.bindings,
      Lambda.bindings, Body.bindings, Exp.heads, List.forall_mem_append] at h hb hh
    obtain ⟨hi, -, hs, hr⟩ := h
    exact ⟨⟨fun b hm => hb.1 _ (List.mem_map_of_mem hm), Stm.respectsAll_ofNames hs hb.2 hh.2,
      operands hr⟩, fun x hx => .inl (hi x hx),
      fun x hx => ⟨hi x (List.mem_of_mem_head? hx), hh.1 x (Option.mem_toList.mpr hx)⟩⟩

end

theorem Lambda.respects_ofNames {f : Lambda} (h : ∀ x ∈ f.occurrences, reads x)
    (hb : ∀ x ∈ f.bindings, binds x) (hh : ∀ x ∈ f.heads, heads x) :
    f.Respects (Roles.ofNames reads binds heads) := by
  rcases f with ⟨params, ⟨stms, result⟩, ret⟩
  simp only [Lambda.occurrences, Body.occurrences, Lambda.bindings, Body.bindings,
    List.forall_mem_append] at h hb
  exact ⟨fun b hm => hb.1 _ (List.mem_map_of_mem hm), Stm.respectsAll_ofNames h.2.1 hb.2 hh,
    fun a ha => Roles.reads_ofNames fun x hx => h.2.2 x (List.mem_flatMap.mpr ⟨a, ha, hx⟩)⟩

end

/-! ## Scalars -/

/-- These names may be read as scalars; arrays are no matter. -/
def Roles.ofScalars (scalar : Name → Prop) : Roles where
  scalar := scalar
  array _ := True
  head _ := True
  bound _ := True
  placed p := ∀ x ∈ p.layout.occurrences, scalar x

/-- What may play a part under both. -/
def Roles.both (R R' : Roles) : Roles where
  scalar x := R.scalar x ∧ R'.scalar x
  array x := R.array x ∧ R'.array x
  head x := R.head x ∧ R'.head x
  bound x := R.bound x ∧ R'.bound x
  placed p := R.placed p ∧ R'.placed p

section
variable {R R' : Roles}

namespace Roles

theorem reads_both {a : Operand} (h : R.Reads a) (h' : R'.Reads a) : (R.both R').Reads a :=
  fun x hx => ⟨h x hx, h' x hx⟩

theorem binds_both {b : Binder} (h : R.Binds b) (h' : R'.Binds b) : (R.both R').Binds b :=
  ⟨⟨h.1, h'.1⟩, fun p hp => ⟨h.2 p hp, h'.2 p hp⟩⟩

theorem stores_both {d : Destination} {a : Operand} (h : R.Stores d a) (h' : R'.Stores d a) :
    (R.both R').Stores d a := by
  cases d <;> exact fun x hx => ⟨h x hx, h' x hx⟩

theorem storesAll_both {dests : List Destination} {results : List Operand}
    (h : R.StoresAll dests results) (h' : R'.StoresAll dests results) :
    (R.both R').StoresAll dests results := fun q hq => stores_both (h q hq) (h' q hq)

end Roles

mutual

/-- **Two assignments of roles, respected at once.** -/
theorem Stm.respectsAll_both {stms : List Stm} (h : Stm.RespectsAll R stms)
    (h' : Stm.RespectsAll R' stms) : Stm.RespectsAll (R.both R') stms := by
  match stms with
  | [] => trivial
  | stm :: stms => exact ⟨Stm.respects_both h.1 h'.1, Stm.respectsAll_both h.2 h'.2⟩

theorem Stm.respects_both {stm : Stm} (h : stm.Respects R) (h' : stm.Respects R') :
    stm.Respects (R.both R') := by
  match stm with
  | ⟨pat, exp⟩ =>
    exact ⟨fun b hb => Roles.binds_both (h.1 b hb) (h'.1 b hb), Exp.respects_both h.2 h'.2⟩

theorem Exp.respects_both {dests : List Destination} {e : Exp} (h : e.Respects R dests)
    (h' : e.Respects R' dests) : e.Respects (R.both R') dests := by
  match e with
  | .operand a => exact fun d hd => Roles.stores_both (h d hd) (h' d hd)
  | .apply op lhs rhs => exact ⟨Roles.reads_both h.1 h'.1, Roles.reads_both h.2 h'.2⟩
  | .index array indices =>
    exact ⟨⟨h.1, h'.1⟩, fun a ha => Roles.reads_both (h.2 a ha) (h'.2 a ha)⟩
  | .update array indices value =>
    exact ⟨fun a ha => Roles.reads_both (h.1 a ha) (h'.1 a ha), Roles.reads_both h.2 h'.2⟩
  | .alloc size space => exact fun x hx => ⟨h x hx, h' x hx⟩
  | .scratch element shape => trivial
  | .branch cond ⟨yes, yesResult⟩ ⟨no, noResult⟩ =>
    obtain ⟨hc, ⟨hyes, hyr⟩, hno, hnr⟩ := h
    obtain ⟨hc', ⟨hyes', hyr'⟩, hno', hnr'⟩ := h'
    exact ⟨Roles.reads_both hc hc',
      ⟨Stm.respectsAll_both hyes hyes', Roles.storesAll_both hyr hyr'⟩,
      Stm.respectsAll_both hno hno', Roles.storesAll_both hnr hnr'⟩
  | .loop carried counter bound ⟨stms, result⟩ =>
    obtain ⟨hc, hcounter, hb, hs, hr, hd⟩ := h
    obtain ⟨hc', hcounter', hb', hs', hr', hd'⟩ := h'
    exact ⟨fun q hq => ⟨Roles.binds_both (hc q hq).1 (hc' q hq).1,
        Roles.stores_both (hc q hq).2 (hc' q hq).2⟩,
      ⟨hcounter, hcounter'⟩, Roles.reads_both hb hb', Stm.respectsAll_both hs hs',
      Roles.storesAll_both hr hr', Roles.storesAll_both hd hd'⟩
  | .map ⟨params, ⟨stms, result⟩, ret⟩ inputs =>
    obtain ⟨⟨hp, hs, hr⟩, hi, hh⟩ := h
    obtain ⟨⟨hp', hs', hr'⟩, hi', hh'⟩ := h'
    exact ⟨⟨fun b hb => ⟨hp b hb, hp' b hb⟩, Stm.respectsAll_both hs hs',
      fun a ha => Roles.reads_both (hr a ha) (hr' a ha)⟩,
      fun x hx => ⟨hi x hx, hi' x hx⟩, fun x hx => ⟨hh x hx, hh' x hx⟩⟩

end

theorem Lambda.respects_both {f : Lambda} (h : f.Respects R) (h' : f.Respects R') :
    f.Respects (R.both R') :=
  ⟨fun b hb => ⟨h.1 b hb, h'.1 b hb⟩, Stm.respectsAll_both h.2.1 h'.2.1,
    fun a ha => Roles.reads_both (h.2.2 a ha) (h'.2.2 a ha)⟩

end

end KernelGen
