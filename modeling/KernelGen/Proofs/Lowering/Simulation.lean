import KernelGen.Lowering.Statement
import KernelGen.Proofs.Context.Lookup
import KernelGen.Proofs.Lowering.Pairing
import KernelGen.Proofs.Program.Roles

/-! # Comparing two compilations

A program is compiled on the left, and on the right the same program with every place of
an array moved.  A `Comparison` says when the two keep step where no names are drawn, and
a `Simulation` also where they are: the laws are about single entries of the context,
single emitted statements and single names, and none of them mentions programs.
`Simulation.lowerAll` is what they add up to: the compilation of any program that respects
the roles is tracked by that of the moved program.

The proof goes through the functions of compilation one by one, each with one lemma, and
through the forms of expressions once. -/
namespace KernelGen
open Lowering

/-- Entries of the two contexts for one name: of the same kind, a scalar with its type,
an array in the moved place. -/
inductive Entry.Matches (placed : Placement → Prop) (move : Placement → Placement) :
    Entry → Entry → Prop
  | scalar {ty : Ty} : Matches placed move (.scalar ty) (.scalar ty)
  | array {ty : Ty} {p : Placement} (h : placed p) :
    Matches placed move (.array ty p) (.array ty (move p))
  | block {size size' : Size} {space space' : Space} :
    Matches placed move (.block size space) (.block size' space')

/-- Allocations look at the flag of the device only. -/
theorem Pairing.tracks_lowerAlloc {S : Pairing} {pat : List Binder} {size : Size} {space : Space}
    (f : Placement → Placement)
    (hdevice : ∀ {c c'}, S.context c c' → c'.onDevice = c.onDevice)
    (hstmts : ∀ b ∈ pat, S.stmt (.declareBlock b.name space) (.declareBlock b.name space) ∧
      S.stmt (.allocate b.name size space) (.allocate b.name size space))
    (hbind : ∀ {c c'} x, S.context c c' →
      S.context (c.bindBlock x size space) (c'.bindBlock x size space)) :
    S.Steps (lowerAlloc pat size space)
      (lowerAlloc (pat.map (Binder.rewrite f)) size space) := by
  match pat with
  | [] => exact tracks_fault _
  | [b] =>
    by_cases hty : b.ty.isMem
    · simp only [lowerAlloc, List.map_cons, List.map_nil, Binder.rewrite, hty, if_true]
      have hflag : S.Tracks (fun d d' => d' = d) (ask (pure ·.onDevice))
          (ask (pure ·.onDevice)) := tracks_ask fun c c' h => ⟨_, rfl, hdevice h⟩
      refine hflag.bind ?_
      rintro _ d rfl
      cases d with
      | true => exact tracks_fail _
      | false =>
        obtain ⟨hdeclare, hallocate⟩ := hstmts b (List.mem_cons_self ..)
        refine (tracks_emit hdeclare).next ((tracks_emit hallocate).next (tracks_change ?_))
        exact fun c c' h => hbind b.name h
    · simp only [lowerAlloc, List.map_cons, List.map_nil, Binder.rewrite, hty]
      exact tracks_fault _
  | b :: b' :: rest => exact tracks_fault _

/-- A pairing that compilation preserves, names that are drawn aside. -/
structure Comparison extends Pairing where
  /-- How names are used by the programs that are compared. -/
  roles : Roles
  /-- Where arrays live on the right. -/
  move : Placement → Placement
  move_block : ∀ p, (move p).block = p.block
  move_shape : ∀ p, (move p).layout.shape = p.layout.shape
  move_injective : ∀ {p q}, roles.placed p → roles.placed q → move p = move q → p = q
  /-- Both sides draw the same tags. -/
  names_eq : ∀ {c c'}, context c c' → c'.names = c.names
  bind_scalar : ∀ {c c' x} (ty : Ty), roles.bound x → context c c' →
    context (c.bindScalar x ty) (c'.bindScalar x ty)
  bind_array : ∀ {c c' x p} (ty : Ty), roles.bound x → roles.placed p → context c c' →
    context (c.bindArray x ty p) (c'.bindArray x ty (move p))
  entry : ∀ {c c' x}, context c c' → roles.array x →
    Option.Rel (Entry.Matches roles.placed move) (c.vars.get? x) (c'.vars.get? x)
  /-- The extent over which a map runs is made of scalars. -/
  extent : ∀ {c c' x ty p}, context c c' → roles.head x → c.vars.get? x = some (.array ty p) →
    ∀ d ∈ p.layout.shape.head?, ∀ y ∈ d.occurrences, roles.scalar y
  /-- An access on the left has its counterpart on the right, in the space found there. -/
  space : ∀ {c c' p}, context c c' → roles.placed p →
    toPairing.Answers (fun s s' =>
      ∀ (indices : List Size) (ty : Ty), (∀ i ∈ indices, ∀ y ∈ i.occurrences, roles.scalar y) →
        (∀ x, roles.bound x →
          stmt (.read x p.block (p.layout.position indices) ty s)
            (.read x p.block ((move p).layout.position indices) ty s')) ∧
        ∀ a, roles.Reads a →
          stmt (.write p.block (p.layout.position indices) ty s (.ofOperand a))
            (.write p.block ((move p).layout.position indices) ty s' (.ofOperand a)))
      (c.blockSpace p.block) (c'.blockSpace p.block)
  alloc : ∀ {pat size} (space : Space), (∀ b ∈ pat, roles.Binds b) →
    (∀ x ∈ size.occurrences, roles.scalar x) →
    toPairing.Steps (lowerAlloc pat size space)
      (lowerAlloc (pat.map (Binder.rewrite move)) size space)
  declare_stmt : ∀ {x} (ty : Ty), roles.bound x → stmt (.declareScalar x ty) (.declareScalar x ty)
  set_stmt : ∀ {x a}, roles.bound x → roles.Reads a →
    stmt (.set x (.ofOperand a)) (.set x (.ofOperand a))
  apply_stmt : ∀ {x a b} (op : Operator), roles.bound x → roles.Reads a → roles.Reads b →
    stmt (.set x (.apply op (.ofOperand a) (.ofOperand b)))
      (.set x (.apply op (.ofOperand a) (.ofOperand b)))
  branch_stmt : ∀ {a yes yes' no no'}, roles.Reads a → toPairing.code yes yes' →
    toPairing.code no no' →
    stmt (.branch (.ofOperand a) yes no) (.branch (.ofOperand a) yes' no')
  loop_stmt : ∀ {x a body body'}, roles.bound x → roles.Reads a → toPairing.code body body' →
    stmt (.loop x (.ofOperand a) body) (.loop x (.ofOperand a) body')
  map_stmt : ∀ {x s body body'}, roles.bound x → (∀ y ∈ s.occurrences, roles.scalar y) →
    toPairing.code body body' → stmt (.loop x (.ofSize s) body) (.loop x (.ofSize s) body')

/-- A comparison in which both sides draw names. -/
structure Simulation extends Comparison where
  /-- New names may be bound and read, -/
  fresh_bound : ∀ {c c'} (base : String), context c c' → roles.bound ⟨base, c.names.next⟩
  fresh_scalar : ∀ {c c'} (base : String), context c c' → roles.scalar ⟨base, c.names.next⟩
  /-- and both sides go on together. -/
  draw : ∀ {c c'}, context c c' →
    context { c with names := ⟨c.names.next + 1⟩ } { c' with names := ⟨c.names.next + 1⟩ }

namespace Comparison
open Pairing
variable (S : Comparison)

theorem move_rank (p : Placement) : (S.move p).layout.rank = p.layout.rank := by
  unfold Layout.rank
  rw [S.move_shape]

/-! ## Questions -/

theorem array_answers {c c' : Context} {x : Name} (h : S.context c c') (hx : S.roles.array x) :
    S.Answers (fun a b => b = (a.1, S.move a.2) ∧ S.roles.placed a.2) (c.array x) (c'.array x) := by
  have he := S.entry h hx
  unfold Context.array Context.entry
  revert he
  generalize c.vars.get? x = e, c'.vars.get? x = e'
  rintro (⟨hm⟩ | _)
  · cases hm with
    | scalar | block => exact fun _ => rfl
    | array hp => exact ⟨_, rfl, rfl, hp⟩
  · exact fun _ => rfl

theorem tracks_width {inputs : List Name} (flat : Name → Fault)
    (ha : ∀ x ∈ inputs, S.roles.array x) (hh : ∀ x ∈ inputs.head?, S.roles.head x) :
    S.Tracks (fun s s' => s' = s ∧ ∀ y ∈ s.occurrences, S.roles.scalar y)
      (width inputs flat) (width inputs flat) := by
  cases inputs with
  | nil => exact tracks_fault _
  | cons first rest =>
    have shape : S.Tracks (fun l l' => l' = l ∧
        ∀ d ∈ l.head?, ∀ y ∈ d.occurrences, S.roles.scalar y)
        (ask (·.shape first)) (ask (·.shape first)) := by
      refine tracks_ask fun c c' hctx => ?_
      have harr := S.array_answers hctx (ha first (List.mem_cons_self ..))
      cases hr : c.array first with
      | error e =>
        rw [hr] at harr
        unfold Context.shape
        rw [hr]
        intro hs
        rw [harr hs]
        rfl
      | ok a =>
        rcases a with ⟨ty, p⟩
        rw [hr] at harr
        obtain ⟨b, hb, rfl, -⟩ := harr
        unfold Context.shape
        rw [hr, hb]
        exact ⟨_, rfl, S.move_shape p,
          S.extent hctx (hh first rfl) (Context.array_eq_ok_iff.mp hr)⟩
    refine shape.bind ?_
    rintro l l' ⟨rfl, hl⟩
    cases l' with
    | nil => exact tracks_fault _
    | cons d ds => exact tracks_pure ⟨rfl, hl d rfl⟩

/-! ## Binding -/

theorem tracks_bindBinder {b : Binder} (hb : S.roles.Binds b) :
    S.Steps (Lowering.bindBinder b) (Lowering.bindBinder (b.rewrite S.move)) := by
  intro c c' hctx
  rcases b with ⟨x, ty, _ | p⟩
  · by_cases hty : ty.isScalar
    · simp only [Lowering.bindBinder, Binder.rewrite, Context.bindBinder, hty, Option.map_none]
      exact ⟨(), rfl, trivial, .nil, S.bind_scalar ty hb.1 hctx⟩
    · simp only [Lowering.bindBinder, Binder.rewrite, Context.bindBinder, hty, Option.map_none]
      exact fun _ => rfl
  · exact ⟨(), rfl, trivial, .nil, S.bind_array ty hb.1 (hb.2 p rfl) hctx⟩

theorem tracks_bindScalar {x : Name} (ty : Ty) (hx : S.roles.bound x) :
    S.Steps (Lowering.bindScalar x ty) (Lowering.bindScalar x ty) :=
  tracks_change fun _ _ hctx => S.bind_scalar ty hx hctx

theorem tracks_declare {b : Binder} (hb : S.roles.Binds b) :
    S.Steps (declare b) (declare (b.rewrite S.move)) := by
  have hbind := S.tracks_bindBinder hb
  rcases b with ⟨x, ty, _ | p⟩
  · exact (tracks_emit (S.declare_stmt ty hb.1)).next hbind
  · exact hbind

/-- The destinations of a pattern, on the right in the moved places. -/
theorem tracks_declarePattern {pat : List Binder} (hp : ∀ b ∈ pat, S.roles.Binds b) :
    S.Tracks (fun ds ds' => ds = pat.map Binder.destination ∧
        ds' = (pat.map Binder.destination).map (Destination.rewrite S.move))
      (declarePattern pat) (declarePattern (pat.map (Binder.rewrite S.move))) := by
  have hs : List.Forall₂ (fun b b' => S.roles.Binds b ∧ b' = b.rewrite S.move) pat
      (pat.map (Binder.rewrite S.move)) := by
    rw [List.forall₂_map_right_iff, List.forall₂_same]
    exact fun b hb => ⟨hp b hb, rfl⟩
  refine (tracks_forM hs ?_).next (tracks_pure ⟨rfl, map_destination_rewrite S.move pat⟩)
  rintro b _ ⟨hb, rfl⟩
  exact S.tracks_declare hb

/-! ## Destinations -/

theorem tracks_single {dests : List Destination} (hd : ∀ d ∈ dests, S.roles.Names d) :
    S.Tracks (fun d d' => d ∈ dests ∧ S.roles.Names d ∧ d' = d.rewrite S.move) (single dests)
      (single (dests.map (Destination.rewrite S.move))) := by
  match dests with
  | [] => exact tracks_fault _
  | [d] => exact tracks_pure ⟨List.mem_cons_self .., hd d (List.mem_cons_self ..), rfl⟩
  | d :: e :: rest =>
    simp only [single, List.map_cons, List.length_cons, List.length_map]
    exact tracks_fault _

theorem tracks_singleScalar {dests : List Destination} (hd : ∀ d ∈ dests, S.roles.Names d) :
    S.Tracks (fun x y => y = x ∧ S.roles.bound x) (singleScalar dests)
      (singleScalar (dests.map (Destination.rewrite S.move))) := by
  refine (S.tracks_single hd).bind ?_
  rintro (x | ⟨p, ty⟩) _ ⟨-, hn, rfl⟩
  · exact tracks_pure ⟨rfl, hn⟩
  · simp only [Destination.rewrite, S.move_block]
    exact tracks_fault _

theorem tracks_positions {indices : List Operand} (hi : ∀ a ∈ indices, S.roles.Reads a) :
    S.Tracks (fun is is' => is' = is ∧ ∀ i ∈ is, ∀ y ∈ i.occurrences, S.roles.scalar y)
      (positions indices) (positions indices) := by
  have hs : List.Forall₂ (fun a a' => a' = a ∧ S.roles.Reads a) indices indices :=
    List.forall₂_same.mpr fun a ha => ⟨rfl, hi a ha⟩
  have hall : S.Tracks
      (List.Forall₂ fun i i' => i' = i ∧ ∀ y ∈ i.occurrences, S.roles.scalar y)
      (positions indices) (positions indices) := by
    refine tracks_mapM hs ?_
    rintro _ a ⟨rfl, ha⟩
    rcases a with (n | f | b) | x
    · exact tracks_pure ⟨rfl, List.forall_mem_nil _⟩
    · exact tracks_fault _
    · exact tracks_fault _
    · exact tracks_pure ⟨rfl, ha⟩
  refine hall.mono fun is is' h => ?_
  induction h with
  | nil => exact ⟨rfl, List.forall_mem_nil _⟩
  | cons hab _ ih =>
    obtain ⟨rfl, hy⟩ := hab
    obtain ⟨rfl, hys⟩ := ih
    exact ⟨rfl, List.forall_mem_cons.mpr ⟨hy, hys⟩⟩

/-- An array that has to be there already is there on the right exactly if it is on the
left, since moving keeps places apart. -/
theorem tracks_assign {d : Destination} {a : Operand} (hd : S.roles.Names d)
    (ha : S.roles.Stores d a) : S.Steps (assign d a) (assign (d.rewrite S.move) a) := by
  match d, a with
  | .scalar x, a => exact tracks_emit (S.set_stmt hd ha)
  | .array wanted ty, .const k => exact tracks_fault _
  | .array wanted ty, .var x =>
    have hx : S.roles.array x := ha x (List.mem_cons_self ..)
    have hentry : S.Tracks (Entry.Matches S.roles.placed S.move) (ask (·.entry x))
        (ask (·.entry x)) := by
      refine tracks_ask fun c c' hctx => ?_
      have he := S.entry hctx hx
      unfold Context.entry
      revert he
      generalize c.vars.get? x = e, c'.vars.get? x = e'
      rintro (hm | _)
      · exact ⟨_, rfl, hm⟩
      · exact fun _ => rfl
    refine hentry.bind ?_
    intro e e' hm
    cases hm with
    | scalar | block =>
      simp only [S.move_block]
      exact tracks_fault _
    | @array ty' home hp =>
      by_cases hh : home = wanted
      · simp only [hh, if_true]
        exact tracks_pure trivial
      · have hh' : S.move home ≠ S.move wanted := fun h => hh (S.move_injective hp hd h)
        simp only [hh, hh', if_false, S.move_block]
        exact tracks_fault _

theorem tracks_assignAll {dests : List Destination} {results : List Operand}
    (hd : ∀ d ∈ dests, S.roles.Names d) (ha : S.roles.StoresAll dests results) :
    S.Steps (assignAll dests results)
      (assignAll (dests.map (Destination.rewrite S.move)) results) := by
  have hs : List.Forall₂ (fun q q' : Destination × Operand => (S.roles.Names q.1 ∧
        S.roles.Stores q.1 q.2) ∧ q' = (q.1.rewrite S.move, q.2)) (dests.zip results)
      ((dests.map (Destination.rewrite S.move)).zip results) := by
    rw [List.zip_map_left, List.forall₂_map_right_iff, List.forall₂_same]
    exact fun q hq => ⟨⟨hd q.1 (List.of_mem_zip hq).1, ha q hq⟩, rfl⟩
  refine tracks_forM hs ?_
  rintro ⟨d, a⟩ _ ⟨⟨hn, hst⟩, rfl⟩
  exact S.tracks_assign hn hst

/-! ## Elements -/

theorem tracks_readElement {x : Name} {p : Placement} {indices : List Size} (ty : Ty)
    (hx : S.roles.bound x) (hp : S.roles.placed p)
    (hi : ∀ i ∈ indices, ∀ y ∈ i.occurrences, S.roles.scalar y) :
    S.Steps (readElement x p indices ty) (readElement x (S.move p) indices ty) := by
  unfold readElement
  rw [S.move_block]
  exact (tracks_ask fun c c' hctx => S.space hctx hp).bind fun s s' h =>
    tracks_emit ((h indices ty hi).1 x hx)

theorem tracks_writeElement {p : Placement} {indices : List Size} {a : Operand} (ty : Ty)
    (hp : S.roles.placed p) (hi : ∀ i ∈ indices, ∀ y ∈ i.occurrences, S.roles.scalar y)
    (ha : S.roles.Reads a) :
    S.Steps (writeElement p indices ty a) (writeElement (S.move p) indices ty a) := by
  unfold writeElement
  rw [S.move_block]
  exact (tracks_ask fun c c' hctx => S.space hctx hp).bind fun s s' h =>
    tracks_emit ((h indices ty hi).2 a ha)

theorem scalar_of_mem_index {i : Name} (hi : S.roles.scalar i) :
    ∀ s ∈ [Size.var i], ∀ y ∈ s.occurrences, S.roles.scalar y := by
  simpa [Size.occurrences] using hi

theorem tracks_readParam {i : Name} {param : Binder} {p : Placement} (ty : Ty)
    (hi : S.roles.scalar i) (hb : S.roles.bound param.name) (hp : S.roles.placed p) :
    S.Steps (readParam i param ty p) (readParam i param ty (S.move p)) := by
  unfold readParam
  rw [S.move_block]
  refine (tracks_ask fun c c' hctx => S.space hctx hp).bind fun s s' h => ?_
  refine (tracks_emit (S.declare_stmt _ hb)).next ?_
  refine (tracks_emit ?_).next (S.tracks_bindScalar _ hb)
  exact (h [.var i] ty.element (S.scalar_of_mem_index hi)).1 param.name hb

end Comparison

end KernelGen
