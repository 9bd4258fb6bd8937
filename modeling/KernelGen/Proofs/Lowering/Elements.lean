import KernelGen.Lowering.Statement
import KernelGen.Proofs.Lowering.Surroundings

/-! # What the parts of a statement emit

One lemma for each of the functions from which statements are compiled: what it emits
when it succeeds within given surroundings.  Most emit code that reads what the roles
allow, or, in the body of a loop, also the variables in `extra`. -/
namespace KernelGen.Surroundings
open Lowering

section
variable (S : Surroundings) {extra : List Name}

/-! ## Lists of steps -/

variable (extra) in
/-- Steps in a row declare what each of them declares. -/
theorem emits_forM {α : Type} {f : α → Lowering Unit} {xs : List α} (declares : α → List Name)
    (h : ∀ a ∈ xs, Emits S.Within (f a) fun _ code => S.Yields extra (declares a) [] code) :
    Emits S.Within (xs.forM f) fun _ code => S.Yields extra (xs.flatMap declares) [] code := by
  refine Emits.of_forM (M := fun a part => S.Yields extra (declares a) [] part)
    (P := fun as code => S.Yields extra (as.flatMap declares) [] code) .nil ?_ h
  intro a as part rest hpart hrest
  exact hpart.append hrest fun x hx => .inl hx

variable (extra) in
/-- Steps of which none has to declare anything. -/
theorem emits_forM_nil {α : Type} {f : α → Lowering Unit} {xs : List α}
    (h : ∀ a ∈ xs, Emits S.Within (f a) fun _ code => S.Yields extra [] [] code) :
    Emits S.Within (xs.forM f) fun _ code => S.Yields extra [] [] code := by
  have hnil : xs.flatMap (fun _ => ([] : List Name)) = [] :=
    List.flatMap_eq_nil_iff.mpr fun _ _ => rfl
  have hall := S.emits_forM extra (fun _ => []) h
  rwa [hnil] at hall

/-! ## Binding -/

theorem emits_bindScalar {x : Name} (ty : Ty) (hx : S.New x) :
    Emits S.Within (bindScalar x ty) fun _ code => code = [] :=
  .of_change (fun _ h => h.bind hx nofun nofun) rfl

theorem emits_bindBinder {b : Binder} (hb : S.roles.Binds b) :
    Emits S.Within (bindBinder b) fun _ code => code = [] := by
  intro ctx a code last hctx hrun
  obtain ⟨c, c₁, ctx₁, c₂, hask, hchange, rfl⟩ := run_bind_eq_ok.mp hrun
  obtain ⟨hbind, rfl, rfl⟩ := run_ask_eq_ok.mp hask
  cases hchange
  refine ⟨?_, rfl⟩
  rcases b with ⟨x, ty, _ | p⟩
  · by_cases hty : ty.isScalar
    · simp only [Context.bindBinder, hty, if_true, Except.ok.injEq] at hbind
      rw [← hbind]
      exact hctx.bind (.inl hb.1) nofun nofun
    · simp [Context.bindBinder, hty] at hbind
  · simp only [Context.bindBinder, Except.ok.injEq] at hbind
    rw [← hbind]
    refine hctx.bind (.inl hb.1) (fun ty' q he => ?_) nofun
    cases he
    exact hb.2 p rfl

theorem emits_fresh (base : String) :
    Emits S.Within (fresh base) fun x code => S.New x ∧ code = [] := by
  intro ctx a code last hctx hrun
  rw [run_fresh] at hrun
  cases hrun
  exact ⟨hctx.draw, .inr hctx.next, rfl⟩

variable (extra) in
theorem emits_declare {b : Binder} (hb : S.roles.Binds b) :
    Emits S.Within (declare b) fun _ code => S.Yields extra b.scalars [] code := by
  have hbind := S.emits_bindBinder hb
  rcases b with ⟨x, ty, _ | p⟩
  · refine (Emits.of_emit (Q := fun _ code => code = [.declareScalar x ty]) rfl).bind ?_
    rintro ⟨⟩ _ rfl
    refine hbind.mono ?_
    rintro ⟨⟩ _ rfl
    exact yields_declare ty (.inl hb.1)
  · refine hbind.mono ?_
    rintro ⟨⟩ _ rfl
    exact .nil

variable (extra) in
theorem emits_declarePattern {pat : List Binder} (hp : ∀ b ∈ pat, S.roles.Binds b) :
    Emits S.Within (declarePattern pat) fun dests code =>
      dests = pat.map Binder.destination ∧ S.Yields extra (pat.flatMap Binder.scalars) [] code := by
  have hforM := S.emits_forM extra Binder.scalars fun b hb => S.emits_declare extra (hp b hb)
  refine hforM.bind fun _ front hfront => .of_pure ⟨rfl, ?_⟩
  rwa [List.append_nil]

/-! ## Questions and destinations -/

theorem emits_array {x : Name} (hx : S.roles.array x) :
    Emits S.Within (ask (·.array x)) fun q code => S.Lives q.2 ∧ code = [] :=
  .of_ask fun _ _ hctx hq => ⟨hctx.lives hx (Context.array_eq_ok_iff.mp hq), rfl⟩

theorem emits_single (dests : List Destination) :
    Emits S.Within (single dests) fun d code => d ∈ dests ∧ code = [] := by
  match dests with
  | [] => exact .of_fault _
  | [d] => exact .of_pure ⟨List.mem_cons_self .., rfl⟩
  | d :: e :: rest => exact .of_fault _

theorem emits_singleScalar (dests : List Destination) :
    Emits S.Within (singleScalar dests) fun _ code => code = [] := by
  refine (S.emits_single dests).bind ?_
  rintro (x | ⟨p, ty⟩) _ ⟨-, rfl⟩
  · exact .of_pure rfl
  · exact .of_fault _

variable (extra) in
theorem emits_positions {indices : List Operand} (hi : ∀ a ∈ indices, S.roles.Reads a) :
    Emits S.Within (positions indices) fun is code =>
      (∀ i ∈ is, S.Sees extra i.occurrences) ∧ code = [] := by
  refine Emits.of_mapM (M := fun _ (i : Size) part => S.Sees extra i.occurrences ∧ part = [])
    (P := fun _ (is : List Size) code => (∀ i ∈ is, S.Sees extra i.occurrences) ∧ code = [])
    ⟨List.forall_mem_nil _, rfl⟩ ?_ ?_
  · rintro a i as is part rest ⟨hi, rfl⟩ ⟨his, rfl⟩
    exact ⟨List.forall_mem_cons.mpr ⟨hi, his⟩, rfl⟩
  · intro a ha
    have hreads := hi a ha
    rcases a with (n | f | b) | x
    · exact .of_pure ⟨List.forall_mem_nil _, rfl⟩
    · exact .of_fault _
    · exact .of_fault _
    · exact .of_pure ⟨fun y hy => .inl (hreads y hy), rfl⟩

variable (extra) in
/-- Storing reads the operand if it goes into a scalar, and nothing otherwise. -/
theorem emits_assign {d : Destination} {a : Operand}
    (ha : ∀ x, d = .scalar x → S.Sees extra a.occurrences) :
    Emits S.Within (assign d a) fun _ code => S.Yields extra [] [] code := by
  match d, a with
  | .scalar x, a =>
    refine .of_emit (yields_set ?_)
    rw [Expr.occurrences_ofOperand]
    exact ha x rfl
  | .array wanted ty, a =>
    intro ctx _ code last hctx hrun
    obtain ⟨-, rfl, rfl⟩ := run_assign_array_eq_ok.mp hrun
    exact ⟨hctx, .nil⟩

variable (extra) in
theorem emits_assignAll {dests : List Destination} {results : List Operand}
    (ha : ∀ q ∈ dests.zip results, ∀ x, q.1 = .scalar x → S.Sees extra q.2.occurrences) :
    Emits S.Within (assignAll dests results) fun _ code => S.Yields extra [] [] code :=
  S.emits_forM_nil extra fun q hq => S.emits_assign extra (ha q hq)

/-- What may be stored by the roles may be stored. -/
theorem sees_of_stores {d : Destination} {a : Operand} (h : S.roles.Stores d a) (x : Name)
    (hd : d = .scalar x) : S.Sees extra a.occurrences := by
  subst hd
  exact fun y hy => .inl (h y hy)

/-! ## Elements -/

theorem sees_position {p : Placement} (hp : S.Lives p) {indices : List Size}
    (hi : ∀ i ∈ indices, S.Sees extra i.occurrences) :
    S.Sees extra (p.layout.position indices).occurrences := by
  intro y hy
  rcases scalar_of_position hp hy with hs | ⟨i, hmem, hyi⟩
  · exact .inl hs
  · exact hi i hmem y hyi

theorem emits_blockSpace {p : Placement} (hp : S.Lives p) :
    Emits S.Within (ask (·.blockSpace p.block)) fun _ code => S.Holds p.block ∧ code = [] :=
  .of_ask fun _ _ hctx hspace => ⟨hctx.holds hp hspace, rfl⟩

theorem emits_readElement {x : Name} {p : Placement} {indices : List Size} (ty : Ty)
    (hp : S.Lives p) (hi : ∀ i ∈ indices, S.Sees extra i.occurrences) :
    Emits S.Within (readElement x p indices ty) fun _ code => S.Yields extra [] [] code := by
  refine (S.emits_blockSpace hp).bind ?_
  rintro space _ ⟨hb, rfl⟩
  exact .of_emit (yields_read ty space (S.sees_position hp hi) hb)

theorem emits_writeElement {p : Placement} {indices : List Size} {a : Operand} (ty : Ty)
    (hp : S.Lives p) (hi : ∀ i ∈ indices, S.Sees extra i.occurrences)
    (ha : S.Sees extra a.occurrences) :
    Emits S.Within (writeElement p indices ty a) fun _ code => S.Yields extra [] [] code := by
  refine (S.emits_blockSpace hp).bind ?_
  rintro space _ ⟨hb, rfl⟩
  refine .of_emit (yields_write ty space (S.sees_position hp hi) ?_ hb)
  rwa [Expr.occurrences_ofOperand]

theorem sees_index {i : Name} (hi : S.roles.scalar i ∨ i ∈ extra) :
    ∀ s ∈ [Size.var i], S.Sees extra s.occurrences := by
  intro s hs y hy
  obtain rfl := List.mem_singleton.mp hs
  obtain rfl := List.mem_singleton.mp hy
  exact hi

theorem emits_readParam {i : Name} {param : Binder} {p : Placement} (ty : Ty)
    (hi : S.roles.scalar i ∨ i ∈ extra) (hb : S.roles.bound param.name) (hp : S.Lives p) :
    Emits S.Within (readParam i param ty p) fun _ code =>
      S.Yields extra [param.name] [] code := by
  refine (S.emits_blockSpace hp).bind ?_
  rintro space _ ⟨hblock, rfl⟩
  refine (Emits.of_emit (Q := fun _ code => code = [.declareScalar param.name param.ty])
    rfl).bind ?_
  rintro ⟨⟩ _ rfl
  refine (Emits.of_emit (Q := fun _ code => S.Yields extra [] [] code)
    (yields_read _ space (S.sees_position hp (S.sees_index hi)) hblock)).bind ?_
  intro _ front hread
  refine (S.emits_bindScalar _ (.inl hb)).mono ?_
  rintro ⟨⟩ _ rfl
  rw [List.append_nil]
  exact (yields_declare param.ty (.inl hb)).append hread fun x hx => .inl hx

end

end KernelGen.Surroundings
