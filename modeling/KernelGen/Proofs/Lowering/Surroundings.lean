import KernelGen.Proofs.Code.Contents
import KernelGen.Proofs.Context.Leaving
import KernelGen.Proofs.Lowering.Emission
import KernelGen.Proofs.Program.Roles
import KernelGen.Proofs.Program.Scalars
import KernelGen.Proofs.Size.Occurrences

/-! # Code for the device and what surrounds it

Code for the device is compiled in a context that was there before, by a program that
uses names as some `Roles` say.  `Surroundings` fixes the two.  While compilation goes on
(`Within`), entries are added for what the program binds and for fresh names, no block is
made, and all else stays.

What is emitted meanwhile is said by `Yields`: which variables it reads and where they
come from, which blocks it touches, and what it is sure to declare and to read. -/
namespace KernelGen

/-- A context for the device, and the roles of the names of the programs compiled in it.
Positions in arrays that are there already read scalars, and so do their outermost
extents. -/
structure Surroundings where
  home : Context
  roles : Roles
  device : home.onDevice = true
  placed : ∀ {p}, roles.placed p → ∀ y ∈ p.layout.occurrences, roles.scalar y
  outer : ∀ {x ty p}, roles.array x → home.vars.get? x = some (.array ty p) →
    ∀ indices, ∀ y ∈ (p.layout.position indices).occurrences,
      roles.scalar y ∨ ∃ i ∈ indices, y ∈ i.occurrences
  extent : ∀ {x ty p}, roles.head x → home.vars.get? x = some (.array ty p) →
    ∀ d ∈ p.layout.shape.head?, ∀ y ∈ d.occurrences, roles.scalar y

namespace Surroundings
variable (S : Surroundings)

/-- The name is the program's own, or was drawn on the way. -/
def New (x : Name) : Prop := S.roles.bound x ∨ S.home.names.next ≤ x.tag

/-- Where an array may live: where the program puts one, or where one is already. -/
def Lives (p : Placement) : Prop :=
  S.roles.placed p ∨ ∃ x ty, S.roles.array x ∧ S.home.vars.get? x = some (.array ty p)

/-- The block was there before, and an array may live in it. -/
def Holds (b : Name) : Prop :=
  (∃ p, S.Lives p ∧ p.block = b) ∧ ∃ size space, S.home.vars.get? b = some (.block size space)

variable {S}

theorem scalar_of_position {p : Placement} (hp : S.Lives p) {indices : List Size} {y : Name}
    (hy : y ∈ (p.layout.position indices).occurrences) :
    S.roles.scalar y ∨ ∃ i ∈ indices, y ∈ i.occurrences := by
  rcases hp with hp | ⟨x, ty, hx, hhome⟩
  · exact (Layout.mem_occurrences_position hy).imp_left (S.placed hp y)
  · exact S.outer hx hhome indices y hy

/-! ## Contexts on the way -/

variable (S)

/-- A context on the way: of the names that were there, those that the program does not
bind stand for what they stood for, and the blocks are the same. -/
structure Within (ctx : Context) : Prop where
  onDevice : ctx.onDevice = true
  next : S.home.names.next ≤ ctx.names.next
  keys : S.home.vars.keys <+: ctx.vars.keys
  kept : ∀ x, ¬ S.New x → ctx.vars.get? x = S.home.vars.get? x
  arrays : ∀ x ty p, ctx.vars.get? x = some (.array ty p) →
    S.roles.placed p ∨ S.home.vars.get? x = some (.array ty p)
  blocks : ∀ x size space, ctx.vars.get? x = some (.block size space) →
    S.home.vars.get? x = some (.block size space)

variable {S}

theorem within_home : S.Within S.home where
  onDevice := S.device
  next := Nat.le_refl _
  keys := List.prefix_refl _
  kept _ _ := rfl
  arrays _ _ _ h := .inr h
  blocks _ _ _ h := h

namespace Within
variable {ctx : Context}

theorem draw (h : S.Within ctx) : S.Within { ctx with names := ⟨ctx.names.next + 1⟩ } where
  onDevice := h.onDevice
  next := Nat.le_succ_of_le h.next
  keys := h.keys
  kept := h.kept
  arrays := h.arrays
  blocks := h.blocks

/-- A new name stands for a scalar, or for an array where the program may put it. -/
theorem bind (h : S.Within ctx) {x : Name} {e : Entry} (hx : S.New x)
    (harray : ∀ ty p, e = .array ty p → S.roles.placed p)
    (hblock : ∀ size space, e ≠ .block size space) : S.Within (ctx.bind x e) where
  onDevice := h.onDevice
  next := h.next
  keys := Context.keys_bind h.keys e
  kept y hy := by
    have hne : x ≠ y := by
      rintro rfl
      exact hy hx
    rw [Context.get?_bind_of_ne _ hne, h.kept y hy]
  arrays y ty p hy := by
    rw [Context.get?_bind] at hy
    split at hy
    · exact .inl (harray ty p (Option.some.inj hy))
    · exact h.arrays y ty p hy
  blocks y size space hy := by
    rw [Context.get?_bind] at hy
    split at hy
    · exact absurd (Option.some.inj hy) (hblock size space)
    · exact h.blocks y size space hy

theorem lives (h : S.Within ctx) {x : Name} {ty : Ty} {p : Placement} (hx : S.roles.array x)
    (hp : ctx.vars.get? x = some (.array ty p)) : S.Lives p :=
  (h.arrays x ty p hp).imp_right fun hhome => ⟨x, ty, hx, hhome⟩

theorem holds (h : S.Within ctx) {p : Placement} {space : Space} (hp : S.Lives p)
    (hb : ctx.blockSpace p.block = .ok space) : S.Holds p.block := by
  obtain ⟨size, hsize⟩ := Context.blockSpace_eq_ok_iff.mp hb
  exact ⟨⟨p, hp, rfl⟩, size, space, h.blocks _ _ _ hsize⟩

/-- The outermost extent of an array that heads a map reads scalars. -/
theorem scalar_of_extent (h : S.Within ctx) {x : Name} {ty : Ty} {p : Placement}
    (hx : S.roles.head x) (hp : ctx.vars.get? x = some (.array ty p)) {d : Size}
    (hd : d ∈ p.layout.shape.head?) : ∀ y ∈ d.occurrences, S.roles.scalar y := by
  intro y hy
  rcases h.arrays x ty p hp with hplaced | hhome
  · have hmem : d ∈ p.layout.shape := List.mem_of_mem_head? hd
    exact S.placed hplaced y (Layout.mem_occurrences_of_mem_shape hmem hy)
  · exact S.extent hx hhome d hd y hy

end Within

/-! ## Code on the way -/

variable (S)

/-- What is known of emitted code.  It reads scalars, variables in `extra` and variables
that it declares; it touches blocks that hold arrays; it declares new names, among them
all in `declares`.  For each name in `heads` that stood for an array, and still does, it
reads the variables of the outermost extent. -/
structure Yields (extra declares heads : List Name) (code : Code) : Prop where
  reads : ∀ x ∈ code.reads, S.roles.scalar x ∨ x ∈ extra ∨ x ∈ code.declared
  accessed : ∀ b ∈ code.accessed, S.Holds b
  declared : ∀ x ∈ code.declared, S.New x
  declares : ∀ x ∈ declares, x ∈ code.declared
  heads : ∀ x ∈ heads, ¬ S.New x → ∀ ty p, S.home.vars.get? x = some (.array ty p) →
    ∀ d ∈ p.layout.shape.head?, ∀ y ∈ d.occurrences, y ∈ code.reads

variable {S} {extra : List Name}

namespace Yields
variable {declares declares' heads heads' : List Name} {code code' : Code}

theorem nil : S.Yields extra [] [] [] where
  reads := List.forall_mem_nil _
  accessed := List.forall_mem_nil _
  declared := List.forall_mem_nil _
  declares := List.forall_mem_nil _
  heads := List.forall_mem_nil _

/-- Code after code, which may read what was declared before. -/
theorem append {extra' : List Name} (h : S.Yields extra declares heads code)
    (h' : S.Yields extra' declares' heads' code')
    (hextra : ∀ x ∈ extra', x ∈ extra ∨ x ∈ code.declared) :
    S.Yields extra (declares ++ declares') (heads ++ heads') (code ++ code') where
  reads x hx := by
    rw [Code.reads, Code.gather_append, List.mem_append] at hx
    rw [Code.declared, Code.gather_append, List.mem_append]
    rcases hx with hx | hx
    · rcases h.reads x hx with hs | he | hd
      · exact .inl hs
      · exact .inr (.inl he)
      · exact .inr (.inr (.inl hd))
    · rcases h'.reads x hx with hs | he | hd
      · exact .inl hs
      · exact .inr ((hextra x he).imp_right .inl)
      · exact .inr (.inr (.inr hd))
  accessed b hb := by
    rw [Code.accessed, Code.gather_append, List.mem_append] at hb
    exact hb.elim (h.accessed b) (h'.accessed b)
  declared x hx := by
    rw [Code.declared, Code.gather_append, List.mem_append] at hx
    exact hx.elim (h.declared x) (h'.declared x)
  declares x hx := by
    rw [Code.declared, Code.gather_append, List.mem_append]
    exact (List.mem_append.mp hx).imp (h.declares x) (h'.declares x)
  heads x hx hnew ty p hp d hd y hy := by
    rw [Code.reads, Code.gather_append, List.mem_append]
    rcases List.mem_append.mp hx with hx | hx
    · exact .inl (h.heads x hx hnew ty p hp d hd y hy)
    · exact .inr (h'.heads x hx hnew ty p hp d hd y hy)

/-- Code that reads nothing else of its own. -/
theorem next (h : S.Yields extra declares heads code) (h' : S.Yields [] declares' heads' code') :
    S.Yields extra (declares ++ declares') (heads ++ heads') (code ++ code') :=
  h.append h' (List.forall_mem_nil _)

/-- Less is promised of the same code. -/
theorem mono {extra' : List Name} (h : S.Yields extra declares heads code)
    (hextra : ∀ x ∈ extra, x ∈ extra') (hd : ∀ x ∈ declares', x ∈ declares)
    (hh : ∀ x ∈ heads', x ∈ heads) : S.Yields extra' declares' heads' code where
  reads x hx := (h.reads x hx).imp_right (Or.imp_left (hextra x))
  accessed := h.accessed
  declared := h.declared
  declares x hx := h.declares x (hd x hx)
  heads x hx := h.heads x (hh x hx)

/-- Code that reads nothing else may stand where more is known. -/
theorem weaken (h : S.Yields [] declares heads code) (extra : List Name) :
    S.Yields extra declares heads code :=
  h.mono (List.forall_mem_nil _) (fun _ hx => hx) fun _ hx => hx

end Yields

/-- The variables are scalars or stand in `extra`. -/
def Sees (S : Surroundings) (extra xs : List Name) : Prop := ∀ x ∈ xs, S.roles.scalar x ∨ x ∈ extra

/-! ### Single statements -/

/-- A statement with code inside it, which may read what the statement declares. -/
theorem yields_of_inner {declares heads : List Name} (s : Stmt) {inner : Code}
    (hs : ∀ own : Stmt → List Name, Code.gather own [s] = own s ++ Code.gather own inner)
    (hreads : S.Sees extra s.ownReads) (haccessed : ∀ b ∈ s.ownAccessed, S.Holds b)
    (hdeclared : ∀ x ∈ s.ownDeclared, S.New x)
    (h : S.Yields (s.ownDeclared ++ extra) declares heads inner) :
    S.Yields extra (s.ownDeclared ++ declares) heads [s] where
  reads x hx := by
    rw [Code.reads, hs, List.mem_append] at hx
    rw [Code.declared, hs, List.mem_append]
    rcases hx with hx | hx
    · exact (hreads x hx).imp_right .inl
    · rcases h.reads x hx with hscalar | hextra | hd
      · exact .inl hscalar
      · exact .inr ((List.mem_append.mp hextra).symm.imp_right .inl)
      · exact .inr (.inr (.inr hd))
  accessed b hb := by
    rw [Code.accessed, hs, List.mem_append] at hb
    exact hb.elim (haccessed b) (h.accessed b)
  declared x hx := by
    rw [Code.declared, hs, List.mem_append] at hx
    exact hx.elim (hdeclared x) (h.declared x)
  declares x hx := by
    rw [Code.declared, hs, List.mem_append]
    exact (List.mem_append.mp hx).imp_right (h.declares x)
  heads x hx hnew ty p hp d hd y hy := by
    rw [Code.reads, hs, List.mem_append]
    exact .inr (h.heads x hx hnew ty p hp d hd y hy)

/-- A statement without code inside it. -/
theorem yields_single (s : Stmt) (hs : ∀ own : Stmt → List Name, Code.gather own [s] = own s)
    (hreads : S.Sees extra s.ownReads) (haccessed : ∀ b ∈ s.ownAccessed, S.Holds b)
    (hdeclared : ∀ x ∈ s.ownDeclared, S.New x) : S.Yields extra s.ownDeclared [] [s] := by
  have hinner : ∀ own : Stmt → List Name, Code.gather own [s] = own s ++ Code.gather own [] :=
    fun own => (hs own).trans (List.append_nil _).symm
  have h : S.Yields extra (s.ownDeclared ++ []) [] [s] :=
    yields_of_inner s hinner hreads haccessed hdeclared .nil
  rwa [List.append_nil] at h

theorem yields_declare {x : Name} (ty : Ty) (hx : S.New x) :
    S.Yields extra [x] [] [.declareScalar x ty] :=
  yields_single (.declareScalar x ty) (fun _ => List.append_nil _) (List.forall_mem_nil _)
    (List.forall_mem_nil _) fun y hy => by
      obtain rfl := List.mem_singleton.mp hy
      exact hx

theorem yields_set {x : Name} {e : Expr} (he : S.Sees extra e.occurrences) :
    S.Yields extra [] [] [.set x e] :=
  yields_single (.set x e) (fun _ => List.append_nil _) he (List.forall_mem_nil _)
    (List.forall_mem_nil _)

theorem yields_read {x b : Name} {i : Size} (ty : Ty) (space : Space)
    (hi : S.Sees extra i.occurrences) (hb : S.Holds b) :
    S.Yields extra [] [] [.read x b i ty space] :=
  yields_single (.read x b i ty space) (fun _ => List.append_nil _) hi
    (by simpa [Stmt.ownAccessed] using hb) (List.forall_mem_nil _)

theorem yields_write {b : Name} {i : Size} {e : Expr} (ty : Ty) (space : Space)
    (hi : S.Sees extra i.occurrences) (he : S.Sees extra e.occurrences) (hb : S.Holds b) :
    S.Yields extra [] [] [.write b i ty space e] :=
  yields_single (.write b i ty space e) (fun _ => List.append_nil _)
    (List.forall_mem_append.mpr ⟨hi, he⟩) (by simpa [Stmt.ownAccessed] using hb)
    (List.forall_mem_nil _)

theorem yields_branch {declares declares' heads heads' : List Name} {e : Expr} {yes no : Code}
    (he : S.Sees extra e.occurrences) (hyes : S.Yields extra declares heads yes)
    (hno : S.Yields extra declares' heads' no) :
    S.Yields extra (declares ++ declares') (heads ++ heads') [.branch e yes no] := by
  have hinner : ∀ own : Stmt → List Name, Code.gather own [.branch e yes no] =
      own (.branch e yes no) ++ Code.gather own (yes ++ no) := by
    intro own
    rw [Code.gather_append]
    exact List.append_nil _
  exact yields_of_inner _ hinner he (List.forall_mem_nil _) (List.forall_mem_nil _)
    (hyes.append hno fun x hx => .inl hx)

/-- The body of a loop may read the counter. -/
theorem yields_loop {declares heads : List Name} {x : Name} {e : Expr} {body : Code}
    (hx : S.New x) (he : S.Sees extra e.occurrences)
    (hbody : S.Yields (x :: extra) declares heads body) :
    S.Yields extra (x :: declares) heads [.loop x e body] := by
  have hinner : ∀ own : Stmt → List Name,
      Code.gather own [.loop x e body] = own (.loop x e body) ++ Code.gather own body :=
    fun _ => List.append_nil _
  have hcounter : ∀ y ∈ [x], S.New y := by
    intro y hy
    obtain rfl := List.mem_singleton.mp hy
    exact hx
  exact yields_of_inner _ hinner he (List.forall_mem_nil _) hcounter hbody

end Surroundings

end KernelGen
