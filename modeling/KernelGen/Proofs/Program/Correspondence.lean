import KernelGen.Proofs.Program.Rewriting
import Mathlib.Data.List.Forall2
import Mathlib.Data.Option.Defs

/-! # Programs that differ in placements and operands only

Two programs correspond (`Body.Corresponds`) when they are built alike, form by form and at
every depth, with the same names, types, operators, sizes of allocations, arrays, counters
and result types, in the same order.  Their placements may differ, and their operands; how
the two placements that stand at one place are related is a parameter, and so is it for
operands.

Rewriting one program in two ways gives programs that correspond
(`Body.corresponds_rewrite_rewrite`).  A program that corresponds to another by two
functions is what rewriting with these functions makes of it, and nothing else
(`Body.corresponds_iff`).

The laws of rewriting follow from that.  Two rewritings in a row are one
(`Body.rewrite_comp`), and it matters only where the placements of the program go
(`Body.rewrite_congr`). -/
namespace KernelGen

section
variable (P : Placement → Placement → Prop) (O : Operand → Operand → Prop)

/-- The same binder but for its placement. -/
structure Binder.Corresponds (b b' : Binder) : Prop where
  name : b'.name = b.name
  ty : b'.ty = b.ty
  placement : Option.Rel P b.placement b'.placement

mutual

/-- Bodies that differ in placements and operands only. -/
inductive Body.Corresponds : Body → Body → Prop
  | mk {stms stms' result result'} (hstms : Stm.CorrespondsAll stms stms')
    (hresult : List.Forall₂ O result result') :
    Body.Corresponds ⟨stms, result⟩ ⟨stms', result'⟩

/-- Lambdas that differ in placements and operands only. -/
inductive Lambda.Corresponds : Lambda → Lambda → Prop
  | mk {params params' body body' ret}
      (hparams : List.Forall₂ (Binder.Corresponds P) params params')
    (hbody : Body.Corresponds body body') :
    Lambda.Corresponds ⟨params, body, ret⟩ ⟨params', body', ret⟩

/-- As many statements on both sides, each of which differs in placements and operands only. -/
inductive Stm.CorrespondsAll : List Stm → List Stm → Prop
  | nil : Stm.CorrespondsAll [] []
  | cons {stm stm' stms stms'} (hstm : Stm.Corresponds stm stm')
    (hstms : Stm.CorrespondsAll stms stms') : Stm.CorrespondsAll (stm :: stms) (stm' :: stms')

/-- Statements that differ in placements and operands only. -/
inductive Stm.Corresponds : Stm → Stm → Prop
  | mk {pat pat' exp exp'} (hpat : List.Forall₂ (Binder.Corresponds P) pat pat')
    (hexp : Exp.Corresponds exp exp') : Stm.Corresponds ⟨pat, exp⟩ ⟨pat', exp'⟩

/-- Expressions that differ in placements and operands only. -/
inductive Exp.Corresponds : Exp → Exp → Prop
  | operand {a a'} (h : O a a') : Exp.Corresponds (.operand a) (.operand a')
  | apply {op lhs lhs' rhs rhs'} (hlhs : O lhs lhs') (hrhs : O rhs rhs') :
    Exp.Corresponds (.apply op lhs rhs) (.apply op lhs' rhs')
  | index {array indices indices'} (h : List.Forall₂ O indices indices') :
    Exp.Corresponds (.index array indices) (.index array indices')
  | update {array indices indices' value value'} (hindices : List.Forall₂ O indices indices')
    (hvalue : O value value') :
    Exp.Corresponds (.update array indices value) (.update array indices' value')
  | alloc {size space} : Exp.Corresponds (.alloc size space) (.alloc size space)
  | scratch {element shape shape'} (h : List.Forall₂ O shape shape') :
    Exp.Corresponds (.scratch element shape) (.scratch element shape')
  | branch {cond cond' yes yes' no no'} (hcond : O cond cond') (hyes : Body.Corresponds yes yes')
    (hno : Body.Corresponds no no') :
    Exp.Corresponds (.branch cond yes no) (.branch cond' yes' no')
  | loop {carried carried' counter bound bound' body body'}
    (hcarried : List.Forall₂ (fun q q' => Binder.Corresponds P q.1 q'.1 ∧ O q.2 q'.2)
      carried carried')
    (hbound : O bound bound') (hbody : Body.Corresponds body body') :
    Exp.Corresponds (.loop carried counter bound body) (.loop carried' counter bound' body')
  | map {f f' inputs} (hf : Lambda.Corresponds f f') :
    Exp.Corresponds (.map f inputs) (.map f' inputs)

end

end

/-! ## The placements of a program -/

/-- The placement of the binder: one or none. -/
def Binder.placements (b : Binder) : List Placement := b.placement.toList

mutual

/-- The placements in a body, at any depth, in order. -/
def Body.placements : Body → List Placement
  | ⟨stms, _⟩ => Stm.placementsAll stms

/-- The placements of a lambda's parameters and in its body, in order. -/
def Lambda.placements : Lambda → List Placement
  | ⟨params, body, _⟩ => params.flatMap Binder.placements ++ body.placements

/-- The placements in statements, in order. -/
def Stm.placementsAll : List Stm → List Placement
  | [] => []
  | stm :: stms => stm.placements ++ Stm.placementsAll stms

/-- The placements of a pattern and in its expression, in order. -/
def Stm.placements : Stm → List Placement
  | ⟨pat, exp⟩ => pat.flatMap Binder.placements ++ exp.placements

/-- The placements inside an expression, in order. -/
def Exp.placements : Exp → List Placement
  | .operand _ | .apply .. | .index .. | .update .. | .alloc .. | .scratch .. => []
  | .branch _ yes no => yes.placements ++ no.placements
  | .loop carried _ _ body => carried.flatMap (·.1.placements) ++ body.placements
  | .map f _ => f.placements

end

/-! ## Two rewritings of one program -/

section
variable {P : Placement → Placement → Prop} {O : Operand → Operand → Prop}
  {f f' : Placement → Placement} {g g' : Operand → Operand}

theorem Operand.forall₂_map_map (hO : ∀ a, O (g a) (g' a)) (as : List Operand) :
    List.Forall₂ O (as.map g) (as.map g') := by
  rw [List.forall₂_map_left_iff, List.forall₂_map_right_iff, List.forall₂_same]
  exact fun a _ => hO a

theorem Binder.corresponds_rewrite_rewrite {b : Binder} (h : ∀ p ∈ b.placements, P (f p) (f' p)) :
    (b.rewrite f).Corresponds P (b.rewrite f') where
  name := rfl
  ty := rfl
  placement := by
    rcases b with ⟨x, ty, _ | p⟩
    · exact .none
    · exact .some (h p (List.mem_cons_self ..))

theorem Binder.forall₂_rewrite_rewrite {bs : List Binder}
    (h : ∀ p ∈ bs.flatMap Binder.placements, P (f p) (f' p)) :
    List.Forall₂ (Binder.Corresponds P) (bs.map (Binder.rewrite f))
      (bs.map (Binder.rewrite f')) := by
  rw [List.forall₂_map_left_iff, List.forall₂_map_right_iff, List.forall₂_same]
  intro b hb
  exact Binder.corresponds_rewrite_rewrite fun p hp => h p (List.mem_flatMap.mpr ⟨b, hb, hp⟩)

mutual

/-- **Two rewritings of one program correspond** as the images of its placements do, and the
images of operands. -/
theorem Stm.corresponds_rewrite_rewriteAll (hO : ∀ a, O (g a) (g' a)) {stms : List Stm}
    (h : ∀ p ∈ Stm.placementsAll stms, P (f p) (f' p)) :
    Stm.CorrespondsAll P O (Stm.rewriteAll f g stms) (Stm.rewriteAll f' g' stms) := by
  match stms with
  | [] => exact .nil
  | stm :: stms =>
    obtain ⟨hstm, hstms⟩ := List.forall_mem_append.mp h
    exact .cons (Stm.corresponds_rewrite_rewrite hO hstm)
      (Stm.corresponds_rewrite_rewriteAll hO hstms)

theorem Stm.corresponds_rewrite_rewrite (hO : ∀ a, O (g a) (g' a)) {stm : Stm}
    (h : ∀ p ∈ stm.placements, P (f p) (f' p)) :
    (stm.rewrite f g).Corresponds P O (stm.rewrite f' g') := by
  match stm with
  | ⟨pat, exp⟩ =>
    obtain ⟨hpat, hexp⟩ := List.forall_mem_append.mp h
    exact .mk (Binder.forall₂_rewrite_rewrite hpat) (Exp.corresponds_rewrite_rewrite hO hexp)

theorem Exp.corresponds_rewrite_rewrite (hO : ∀ a, O (g a) (g' a)) {e : Exp}
    (h : ∀ p ∈ e.placements, P (f p) (f' p)) :
    (e.rewrite f g).Corresponds P O (e.rewrite f' g') := by
  have hall := Operand.forall₂_map_map hO
  match e with
  | .operand a => exact .operand (hO a)
  | .apply op lhs rhs => exact .apply (hO lhs) (hO rhs)
  | .index array indices => exact .index (hall indices)
  | .update array indices value => exact .update (hall indices) (hO value)
  | .alloc size space => exact .alloc
  | .scratch element shape => exact .scratch (hall shape)
  | .branch cond ⟨yes, yesResult⟩ ⟨no, noResult⟩ =>
    obtain ⟨hyes, hno⟩ := List.forall_mem_append.mp h
    exact .branch (hO cond) (.mk (Stm.corresponds_rewrite_rewriteAll hO hyes) (hall yesResult))
      (.mk (Stm.corresponds_rewrite_rewriteAll hO hno) (hall noResult))
  | .loop carried counter bound ⟨stms, result⟩ =>
    obtain ⟨hcarried, hstms⟩ := List.forall_mem_append.mp h
    refine .loop ?_ (hO bound) (.mk (Stm.corresponds_rewrite_rewriteAll hO hstms) (hall result))
    rw [List.forall₂_map_left_iff, List.forall₂_map_right_iff, List.forall₂_same]
    intro q hq
    have hq : ∀ p ∈ q.1.placements, P (f p) (f' p) :=
      fun p hp => hcarried p (List.mem_flatMap.mpr ⟨q, hq, hp⟩)
    exact ⟨Binder.corresponds_rewrite_rewrite hq, hO q.2⟩
  | .map ⟨params, ⟨stms, result⟩, ret⟩ inputs =>
    obtain ⟨hparams, hstms⟩ := List.forall_mem_append.mp h
    exact .map (.mk (Binder.forall₂_rewrite_rewrite hparams)
      (.mk (Stm.corresponds_rewrite_rewriteAll hO hstms) (hall result)))

end

theorem Body.corresponds_rewrite_rewrite (hO : ∀ a, O (g a) (g' a)) {b : Body}
    (h : ∀ p ∈ b.placements, P (f p) (f' p)) :
    (b.rewrite f g).Corresponds P O (b.rewrite f' g') := by
  rcases b with ⟨stms, result⟩
  exact .mk (Stm.corresponds_rewrite_rewriteAll hO h) (Operand.forall₂_map_map hO result)

theorem Lambda.corresponds_rewrite_rewrite (hO : ∀ a, O (g a) (g' a)) {l : Lambda}
    (h : ∀ p ∈ l.placements, P (f p) (f' p)) :
    (l.rewrite f g).Corresponds P O (l.rewrite f' g') := by
  rcases l with ⟨params, body, ret⟩
  obtain ⟨hparams, hbody⟩ := List.forall_mem_append.mp h
  exact .mk (Binder.forall₂_rewrite_rewrite hparams) (Body.corresponds_rewrite_rewrite hO hbody)

/-! A program is the rewriting of itself that leaves everything in its place. -/

theorem Stm.corresponds_rewriteAll (hO : ∀ a, O a (g a)) {stms : List Stm}
    (h : ∀ p ∈ Stm.placementsAll stms, P p (f p)) :
    Stm.CorrespondsAll P O stms (Stm.rewriteAll f g stms) := by
  have hall : Stm.CorrespondsAll P O (Stm.rewriteAll id id stms) (Stm.rewriteAll f g stms) :=
    Stm.corresponds_rewrite_rewriteAll hO h
  rwa [Stm.rewriteAll_id] at hall

theorem Body.corresponds_rewrite (hO : ∀ a, O a (g a)) {b : Body}
    (h : ∀ p ∈ b.placements, P p (f p)) : b.Corresponds P O (b.rewrite f g) := by
  have hboth : (b.rewrite id id).Corresponds P O (b.rewrite f g) :=
    Body.corresponds_rewrite_rewrite hO h
  rwa [Body.rewrite_id] at hboth

theorem Lambda.corresponds_rewrite (hO : ∀ a, O a (g a)) {l : Lambda}
    (h : ∀ p ∈ l.placements, P p (f p)) : l.Corresponds P O (l.rewrite f g) := by
  have hboth : (l.rewrite id id).Corresponds P O (l.rewrite f g) :=
    Lambda.corresponds_rewrite_rewrite hO h
  rwa [Lambda.rewrite_id] at hboth

end

/-! ## Correspondence by functions -/

section
variable {f : Placement → Placement} {g : Operand → Operand}

/-- A list whose members are images, one by one, is the list of the images. -/
theorem eq_map_of_forall₂ {α β : Type} {h : α → β} {as : List α} {bs : List β}
    (hall : List.Forall₂ (h · = ·) as bs) : bs = as.map h := by
  rw [← List.forall₂_map_left_iff (R := Eq), List.forall₂_eq_eq_eq] at hall
  exact hall.symm

theorem Binder.eq_rewrite_of_corresponds {b b' : Binder} (h : b.Corresponds (f · = ·) b') :
    b.rewrite f = b' := by
  rcases b with ⟨x, ty, p⟩
  rcases b' with ⟨x', ty', p'⟩
  obtain ⟨rfl, rfl, hp⟩ := h
  cases hp with
  | none => rfl
  | some hp => rw [Binder.rewrite, Option.map_some, hp]

theorem Binder.eq_map_rewrite_of_forall₂ {bs bs' : List Binder}
    (h : List.Forall₂ (Binder.Corresponds (f · = ·)) bs bs') : bs' = bs.map (Binder.rewrite f) :=
  eq_map_of_forall₂ (h.imp fun _ _ => Binder.eq_rewrite_of_corresponds)

theorem Binder.eq_map_of_carried {carried carried' : List (Binder × Operand)}
    (h : List.Forall₂ (fun q q' => q.1.Corresponds (f · = ·) q'.1 ∧ g q.2 = q'.2)
      carried carried') :
    carried' = carried.map fun (b, init) => (b.rewrite f, g init) :=
  eq_map_of_forall₂ (h.imp fun _ _ hq => Prod.ext (Binder.eq_rewrite_of_corresponds hq.1) hq.2)

mutual

/-- **What corresponds by functions is the rewritten program.** -/
theorem Stm.eq_rewriteAll_of_corresponds {stms stms' : List Stm}
    (h : Stm.CorrespondsAll (f · = ·) (g · = ·) stms stms') : stms' = Stm.rewriteAll f g stms := by
  match stms, h with
  | [], .nil => rfl
  | stm :: stms, .cons hstm hstms =>
    rw [Stm.rewriteAll, Stm.eq_rewrite_of_corresponds hstm, Stm.eq_rewriteAll_of_corresponds hstms]

theorem Stm.eq_rewrite_of_corresponds {stm stm' : Stm}
    (h : stm.Corresponds (f · = ·) (g · = ·) stm') : stm' = stm.rewrite f g := by
  match stm, h with
  | ⟨pat, exp⟩, .mk hpat hexp =>
    rw [Stm.rewrite, Binder.eq_map_rewrite_of_forall₂ hpat, Exp.eq_rewrite_of_corresponds hexp]

theorem Exp.eq_rewrite_of_corresponds {e e' : Exp}
    (h : e.Corresponds (f · = ·) (g · = ·) e') : e' = e.rewrite f g := by
  match e, h with
  | .operand a, .operand h => rw [Exp.rewrite, h]
  | .apply op lhs rhs, .apply hlhs hrhs => rw [Exp.rewrite, hlhs, hrhs]
  | .index array indices, .index h => rw [Exp.rewrite, eq_map_of_forall₂ h]
  | .update array indices value, .update hindices hvalue =>
    rw [Exp.rewrite, eq_map_of_forall₂ hindices, hvalue]
  | .alloc size space, .alloc => rfl
  | .scratch element shape, .scratch h => rw [Exp.rewrite, eq_map_of_forall₂ h]
  | .branch cond ⟨yes, yesResult⟩ ⟨no, noResult⟩, .branch hcond (.mk hyes hyesResult)
      (.mk hno hnoResult) =>
    rw [Exp.rewrite, Body.rewrite, Body.rewrite, hcond, Stm.eq_rewriteAll_of_corresponds hyes,
      eq_map_of_forall₂ hyesResult, Stm.eq_rewriteAll_of_corresponds hno,
      eq_map_of_forall₂ hnoResult]
  | .loop carried counter bound ⟨stms, result⟩, .loop hcarried hbound (.mk hstms hresult) =>
    rw [Exp.rewrite, Body.rewrite, Binder.eq_map_of_carried hcarried, hbound,
      Stm.eq_rewriteAll_of_corresponds hstms, eq_map_of_forall₂ hresult]
  | .map ⟨params, ⟨stms, result⟩, ret⟩ inputs, .map (.mk hparams (.mk hstms hresult)) =>
    rw [Exp.rewrite, Lambda.rewrite, Body.rewrite, Binder.eq_map_rewrite_of_forall₂ hparams,
      Stm.eq_rewriteAll_of_corresponds hstms, eq_map_of_forall₂ hresult]

end

/-- **A program corresponds by functions to what rewriting makes of it**, and to nothing
else. -/
theorem Body.corresponds_iff {b b' : Body} :
    b.Corresponds (f · = ·) (g · = ·) b' ↔ b' = b.rewrite f g := by
  constructor
  · rintro ⟨hstms, hresult⟩
    rw [Body.rewrite, Stm.eq_rewriteAll_of_corresponds hstms, eq_map_of_forall₂ hresult]
  · rintro rfl
    exact Body.corresponds_rewrite (fun _ => rfl) fun _ _ => rfl

theorem Lambda.corresponds_iff {l l' : Lambda} :
    l.Corresponds (f · = ·) (g · = ·) l' ↔ l' = l.rewrite f g := by
  constructor
  · rintro ⟨hparams, hstms, hresult⟩
    rw [Lambda.rewrite, Body.rewrite, Binder.eq_map_rewrite_of_forall₂ hparams,
      Stm.eq_rewriteAll_of_corresponds hstms, eq_map_of_forall₂ hresult]
  · rintro rfl
    exact Lambda.corresponds_rewrite (fun _ => rfl) fun _ _ => rfl

end

/-! ## Laws of rewriting -/

section
variable {f f' : Placement → Placement} {g g' : Operand → Operand}

/-- **Two rewritings in a row are one.** -/
theorem Body.rewrite_comp (b : Body) :
    (b.rewrite f g).rewrite f' g' = b.rewrite (f' ∘ f) (g' ∘ g) := by
  have h : (b.rewrite f g).Corresponds (f' · = ·) (g' · = ·) (b.rewrite (f' ∘ f) (g' ∘ g)) := by
    refine Body.corresponds_rewrite_rewrite (fun a => ?_) fun p _ => ?_
    · rfl
    · rfl
  exact (Body.corresponds_iff.mp h).symm

theorem Lambda.rewrite_comp (l : Lambda) :
    (l.rewrite f g).rewrite f' g' = l.rewrite (f' ∘ f) (g' ∘ g) := by
  have h : (l.rewrite f g).Corresponds (f' · = ·) (g' · = ·) (l.rewrite (f' ∘ f) (g' ∘ g)) := by
    refine Lambda.corresponds_rewrite_rewrite (fun a => ?_) fun p _ => ?_
    · rfl
    · rfl
  exact (Lambda.corresponds_iff.mp h).symm

theorem Binder.map_rewrite_congr {bs : List Binder}
    (h : ∀ p ∈ bs.flatMap Binder.placements, f p = f' p) :
    bs.map (Binder.rewrite f) = bs.map (Binder.rewrite f') := by
  have hall : List.Forall₂ (Binder.Corresponds (f · = ·)) (bs.map (Binder.rewrite id))
      (bs.map (Binder.rewrite f')) := Binder.forall₂_rewrite_rewrite h
  rw [Binder.map_rewrite_id] at hall
  exact (Binder.eq_map_rewrite_of_forall₂ hall).symm

/-- **Rewriting depends on where the placements of the program go**, and on nothing else. -/
theorem Stm.rewriteAll_congr {stms : List Stm} (h : ∀ p ∈ Stm.placementsAll stms, f p = f' p) :
    Stm.rewriteAll f g stms = Stm.rewriteAll f' g stms := by
  have hall : Stm.CorrespondsAll (f · = ·) (g · = ·) stms (Stm.rewriteAll f' g stms) :=
    Stm.corresponds_rewriteAll (fun _ => rfl) h
  exact (Stm.eq_rewriteAll_of_corresponds hall).symm

theorem Body.rewrite_congr {b : Body} (h : ∀ p ∈ b.placements, f p = f' p) :
    b.rewrite f g = b.rewrite f' g := by
  have hboth : b.Corresponds (f · = ·) (g · = ·) (b.rewrite f' g) :=
    Body.corresponds_rewrite (fun _ => rfl) h
  exact (Body.corresponds_iff.mp hboth).symm

theorem Lambda.rewrite_congr {l : Lambda} (h : ∀ p ∈ l.placements, f p = f' p) :
    l.rewrite f g = l.rewrite f' g := by
  have hboth : l.Corresponds (f · = ·) (g · = ·) (l.rewrite f' g) :=
    Lambda.corresponds_rewrite (fun _ => rfl) h
  exact (Lambda.corresponds_iff.mp hboth).symm

end

/-! ## Rewritings that agree on some names -/

section
variable {p : Placement}

theorem Binder.occurrences_of_mem_placements {b : Binder} (hp : p ∈ b.placements) :
    p.block :: p.layout.occurrences ⊆ b.occurrences := by
  rcases b with ⟨x, ty, _ | q⟩
  · cases hp
  · rw [List.mem_singleton.mp hp]
    exact List.Subset.refl _

theorem Binder.occurrences_of_mem_flatMap_placements {bs : List Binder}
    (hp : p ∈ bs.flatMap Binder.placements) :
    p.block :: p.layout.occurrences ⊆ bs.flatMap Binder.occurrences := by
  obtain ⟨b, hb, hp⟩ := List.mem_flatMap.mp hp
  exact fun x hx => List.mem_flatMap.mpr ⟨b, hb, Binder.occurrences_of_mem_placements hp hx⟩

mutual

/-- The names of a placement are names that the program reads. -/
theorem Stm.occurrences_of_mem_placementsAll {stms : List Stm}
    (hp : p ∈ Stm.placementsAll stms) :
    p.block :: p.layout.occurrences ⊆ Stm.occurrencesAll stms := by
  match stms with
  | [] => cases hp
  | stm :: stms =>
    rcases List.mem_append.mp hp with hp | hp
    · exact List.subset_append_of_subset_left _ (Stm.occurrences_of_mem_placements hp)
    · exact List.subset_append_of_subset_right _ (Stm.occurrences_of_mem_placementsAll hp)

theorem Stm.occurrences_of_mem_placements {stm : Stm} (hp : p ∈ stm.placements) :
    p.block :: p.layout.occurrences ⊆ stm.occurrences := by
  match stm with
  | ⟨pat, exp⟩ =>
    rcases List.mem_append.mp hp with hp | hp
    · exact List.subset_append_of_subset_left _ (Binder.occurrences_of_mem_flatMap_placements hp)
    · exact List.subset_append_of_subset_right _ (Exp.occurrences_of_mem_placements hp)

theorem Exp.occurrences_of_mem_placements {e : Exp} (hp : p ∈ e.placements) :
    p.block :: p.layout.occurrences ⊆ e.occurrences := by
  match e with
  | .operand _ | .apply .. | .index .. | .update .. | .alloc .. | .scratch .. => cases hp
  | .branch cond ⟨yes, _⟩ ⟨no, _⟩ =>
    refine List.subset_append_of_subset_right _ ?_
    rcases List.mem_append.mp hp with hp | hp
    · exact List.subset_append_of_subset_left _ (List.subset_append_of_subset_left _
        (Stm.occurrences_of_mem_placementsAll hp))
    · exact List.subset_append_of_subset_right _ (List.subset_append_of_subset_left _
        (Stm.occurrences_of_mem_placementsAll hp))
  | .loop carried counter bound ⟨stms, _⟩ =>
    rcases List.mem_append.mp hp with hp | hp
    · obtain ⟨q, hq, hp⟩ := List.mem_flatMap.mp hp
      refine List.subset_append_of_subset_left _ fun x hx => ?_
      exact List.mem_flatMap.mpr
        ⟨q, hq, List.mem_append_left _ (Binder.occurrences_of_mem_placements hp hx)⟩
    · exact List.subset_append_of_subset_right _ (List.subset_append_of_subset_right _
        (List.subset_append_of_subset_left _ (Stm.occurrences_of_mem_placementsAll hp)))
  | .map ⟨params, ⟨stms, _⟩, _⟩ inputs =>
    refine List.subset_append_of_subset_right _ ?_
    rcases List.mem_append.mp hp with hp | hp
    · exact List.subset_append_of_subset_left _ (Binder.occurrences_of_mem_flatMap_placements hp)
    · exact List.subset_append_of_subset_right _ (List.subset_append_of_subset_left _
        (Stm.occurrences_of_mem_placementsAll hp))

end

end

/-- The two send every placement over these names to the same place. -/
def Placement.SameOn (reads : Name → Prop) (f f' : Placement → Placement) : Prop :=
  ∀ p : Placement, reads p.block → (∀ x ∈ p.layout.occurrences, reads x) → f p = f' p

namespace Placement.SameOn
variable {reads : Name → Prop} {f f' : Placement → Placement}

/-- So they do with a placement all whose names are in a list of such names. -/
theorem of_subset (h : SameOn reads f f') {p : Placement} {names : List Name}
    (hp : p.block :: p.layout.occurrences ⊆ names) (hnames : ∀ x ∈ names, reads x) :
    f p = f' p := by
  obtain ⟨hblock, hlayout⟩ := List.forall_mem_cons.mp fun x hx => hnames x (hp hx)
  exact h p hblock hlayout

theorem binders (h : SameOn reads f f') {bs : List Binder}
    (hbs : ∀ x ∈ bs.flatMap Binder.occurrences, reads x) :
    ∀ p ∈ bs.flatMap Binder.placements, f p = f' p :=
  fun _ hp => h.of_subset (Binder.occurrences_of_mem_flatMap_placements hp) hbs

theorem stms (h : SameOn reads f f') {stms : List Stm}
    (hs : ∀ x ∈ Stm.occurrencesAll stms, reads x) : ∀ p ∈ Stm.placementsAll stms, f p = f' p :=
  fun _ hp => h.of_subset (Stm.occurrences_of_mem_placementsAll hp) hs

theorem lambda (h : SameOn reads f f') {l : Lambda} (hl : ∀ x ∈ l.occurrences, reads x) :
    ∀ p ∈ l.placements, f p = f' p := by
  rcases l with ⟨params, ⟨stms, result⟩, ret⟩
  simp only [Lambda.occurrences, Body.occurrences, List.forall_mem_append] at hl
  exact List.forall_mem_append.mpr ⟨h.binders hl.1, h.stms hl.2.1⟩

end Placement.SameOn

end KernelGen
