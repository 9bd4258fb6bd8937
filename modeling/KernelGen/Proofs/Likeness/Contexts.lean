import KernelGen.Kernel.Transfers
import KernelGen.Proofs.Code.Rename
import KernelGen.Proofs.Context.Leaving
import KernelGen.Proofs.Slices.Shift

/-! # Contexts that are alike

A program is compiled twice, in contexts that may differ in two ways: in what they hold
for names that are of no concern to the program, with the order in which all names came,
and in the settings, so that thread indices have other names.  A `Likeness` says which
names are of concern and what is called differently, and `Likeness.Alike` what the two
contexts have in common then.

The names of the program are `used`.  What they stand for has to be `known` on both
sides, and so have the blocks in which their arrays live.  Thread indices get into
contexts in one place only, the offsets of arrays in slices; there they are renamed. -/
namespace KernelGen

/-- The placement with the variables of its offset renamed. -/
def Placement.renameOffset (ρ : Name → Name) (p : Placement) : Placement :=
  { p with layout := { p.layout with offset := p.layout.offset.rename ρ } }

/-- The array in that place; anything but an array stays as it is. -/
def Entry.renameOffset (ρ : Name → Name) : Entry → Entry
  | array ty p => array ty (p.renameOffset ρ)
  | e => e

theorem Placement.renameOffset_id : Placement.renameOffset id = id := by
  refine funext fun p => ?_
  rw [renameOffset, Size.rename_id]
  rfl

theorem Entry.renameOffset_id : Entry.renameOffset id = id := by
  refine funext fun e => ?_
  cases e with
  | scalar | block => rfl
  | array ty p =>
    rw [renameOffset, Placement.renameOffset_id]
    rfl

theorem Entry.renameOffset_inSpace (ρ : Name → Name) (space : Space) (e : Entry) :
    (e.inSpace space).renameOffset ρ = (e.renameOffset ρ).inSpace space := by
  cases e <;> rfl

/-- Blocks are where they are under either name. -/
theorem Entry.spaceFrom_renameOffset (ρ : Name → Name) (outer : Option Entry) (e : Entry) :
    (e.renameOffset ρ).spaceFrom (outer.map (Entry.renameOffset ρ)) =
      (e.spaceFrom outer).renameOffset ρ := by
  rcases outer with _ | (_ | _ | _)
  · rfl
  · rfl
  · rfl
  · exact (Entry.renameOffset_inSpace ρ _ e).symm

theorem Entry.spaceFrom_eq_array {outer : Option Entry} {e : Entry} {ty : Ty} {p : Placement}
    (h : e.spaceFrom outer = .array ty p) : e = .array ty p := by
  unfold spaceFrom at h
  split at h
  · cases e <;> cases h
    rfl
  · exact h

theorem Entry.spaceFrom_eq_block {outer : Option Entry} {e : Entry} {size : Size} {space : Space}
    (h : e.spaceFrom outer = .block size space) : ∃ space', e = .block size space' := by
  unfold spaceFrom at h
  split at h
  · cases e <;> cases h
    exact ⟨_, rfl⟩
  · exact ⟨space, h⟩

/-- What two compilations of a program have in common. -/
structure Likeness where
  /-- The settings on the left, -/
  left : Settings
  /-- and on the right. -/
  right : Settings
  /-- Failures have to agree too. -/
  strict : Prop
  /-- The names of the program. -/
  used : Name → Prop
  /-- Names that stand for the same on both sides. -/
  known : Name → Prop
  /-- Variables of offsets. -/
  readable : Name → Prop
  /-- What is called so on the left is called so on the right. -/
  rename : Name → Name
  /-- Tags are drawn from here on. -/
  first : Nat
  known_of_used : ∀ {x}, used x → known x
  readable_of_known : ∀ {x}, known x → readable x
  rename_of_known : ∀ {x}, known x → rename x = x
  rename_injective : ∀ x y, readable x → readable y → rename x = rename y → x = y
  /-- Only thread indices are called differently, and they are not known. -/
  known_of_rename : ∀ {x}, rename x ≠ x → ¬ known x ∧ ¬ known (rename x)
  readable_thread : ∀ {t}, rename ⟨left.threadIndexBase, t⟩ = ⟨right.threadIndexBase, t⟩ →
    readable ⟨left.threadIndexBase, t⟩

namespace Likeness
variable (L : Likeness)

/-- The name is the same on both sides. -/
def Fixes (x : Name) : Prop := L.rename x = x

/-- An array may live there: in a known block, with extents that are the same on both
sides. -/
structure Places (p : Placement) : Prop where
  block : L.known p.block
  extents : ∀ s ∈ p.layout.shape ++ p.layout.strides, ∀ x ∈ s.occurrences, L.Fixes x
  offset : ∀ x ∈ p.layout.offset.occurrences, L.readable x

/-- The contexts are alike. -/
structure Alike (c c' : Context) : Prop where
  left : c.settings = L.left
  right : c'.settings = L.right
  names : c'.names = c.names
  onDevice : c'.onDevice = c.onDevice
  entries : ∀ x, L.known x → c'.vars.get? x = (c.vars.get? x).map (Entry.renameOffset L.rename)
  places : ∀ x ty p, L.used x → c.vars.get? x = some (.array ty p) → L.Places p
  sizes : ∀ x size space, L.known x → c.vars.get? x = some (.block size space) →
    ∀ y ∈ size.occurrences, L.Fixes y

variable {L} {p q : Placement} {c c' : Context} {x : Name}

theorem fixes_of_known (hx : L.known x) : L.Fixes x := L.rename_of_known hx

/-! ## Places -/

/-- A placement over names of the program. -/
theorem places_of_used (hblock : L.used p.block) (hlayout : ∀ x ∈ p.layout.occurrences, L.used x) :
    L.Places p := by
  rw [Layout.occurrences, List.forall_mem_append] at hlayout
  refine ⟨L.known_of_used hblock, fun s hs y hy => ?_, fun y hy => ?_⟩
  · exact fixes_of_known (L.known_of_used (hlayout.2 y (List.mem_flatMap.mpr ⟨s, hs, hy⟩)))
  · exact L.readable_of_known (L.known_of_used (hlayout.1 y hy))

/-- Such a placement is the same on both sides. -/
theorem renameOffset_of_used (hlayout : ∀ x ∈ p.layout.occurrences, L.used x) :
    p.renameOffset L.rename = p := by
  rcases p with ⟨b, ⟨offset, shape⟩⟩
  rw [Layout.occurrences, List.forall_mem_append] at hlayout
  have hoffset : offset.rename L.rename = offset :=
    Size.rename_eq_self fun y hy => fixes_of_known (L.known_of_used (hlayout.1 y hy))
  rw [Placement.renameOffset, hoffset]

/-- Renaming keeps places apart. -/
theorem renameOffset_injective (hp : L.Places p) (hq : L.Places q)
    (h : p.renameOffset L.rename = q.renameOffset L.rename) : p = q := by
  rcases p with ⟨b, ⟨offset, shape⟩⟩
  rcases q with ⟨b', ⟨offset', shape'⟩⟩
  simp only [Placement.renameOffset, Placement.mk.injEq, Layout.mk.injEq] at h
  obtain ⟨rfl, hoffset, rfl⟩ := h
  obtain rfl := Size.rename_injective L.rename_injective hp.offset hq.offset hoffset
  rfl

/-- **The position of an element is renamed**, with its indices. -/
theorem Places.position (hp : L.Places p) (indices : List Size) :
    (p.renameOffset L.rename).layout.position (indices.map (Size.rename L.rename)) =
      (p.layout.position indices).rename L.rename := by
  refine (rename_foldl_strides L.rename (fun s hs => ?_) indices p.layout.offset).symm
  exact Size.rename_eq_self (hp.extents s (List.mem_append_right _ hs))

/-! ## Contexts on the way -/

namespace Alike

theorem draw (h : L.Alike c c') : L.Alike { c with names := ⟨c.names.next + 1⟩ }
    { c' with names := ⟨c.names.next + 1⟩ } where
  left := h.left
  right := h.right
  names := rfl
  onDevice := h.onDevice
  entries := h.entries
  places := h.places
  sizes := h.sizes

/-- Binding a name to what it stands for on each side. -/
theorem bind (h : L.Alike c c') {e : Entry}
    (hplace : ∀ ty p, e = .array ty p → L.Places p)
    (hsize : ∀ size space, e = .block size space → ∀ y ∈ size.occurrences, L.Fixes y) :
    L.Alike (c.bind x e) (c'.bind x (e.renameOffset L.rename)) where
  left := h.left
  right := h.right
  names := h.names
  onDevice := h.onDevice
  entries y hy := by
    rw [Context.get?_bind, Context.get?_bind, h.entries y hy]
    split <;> rfl
  places y ty p hy he := by
    rw [Context.get?_bind] at he
    split at he
    · exact hplace ty p (Option.some.inj he)
    · exact h.places y ty p hy he
  sizes y size space hy he := by
    rw [Context.get?_bind] at he
    split at he
    · exact hsize size space (Option.some.inj he)
    · exact h.sizes y size space hy he

/-- Binding a name that is known on neither side. -/
theorem bind_unknown (h : L.Alike c c') {x' : Name} (hx : ¬ L.known x) (hx' : ¬ L.known x')
    (e e' : Entry) : L.Alike (c.bind x e) (c'.bind x' e') := by
  have hleft : ∀ y, L.known y → (c.bind x e).vars.get? y = c.vars.get? y := fun y hy =>
    Context.get?_bind_of_ne e fun he => hx (he ▸ hy)
  have hright : ∀ y, L.known y → (c'.bind x' e').vars.get? y = c'.vars.get? y := fun y hy =>
    Context.get?_bind_of_ne e' fun he => hx' (he ▸ hy)
  exact
    { left := h.left
      right := h.right
      names := h.names
      onDevice := h.onDevice
      entries := fun y hy => by rw [hleft y hy, hright y hy, h.entries y hy]
      places := fun y ty p hy he => h.places y ty p hy (hleft y (L.known_of_used hy) ▸ he)
      sizes := fun y size space hy he => h.sizes y size space hy (hleft y hy ▸ he) }

theorem enterDevice (h : L.Alike c c') : L.Alike c.enterDevice c'.enterDevice where
  left := h.left
  right := h.right
  names := h.names
  onDevice := rfl
  entries x hx := by
    rw [Context.get?_enterDevice, Context.get?_enterDevice, h.entries x hx, Option.map_map,
      Option.map_map]
    congr 1
    exact funext fun e => (Entry.renameOffset_inSpace L.rename _ e).symm
  places x ty p hx he := by
    rw [Context.get?_enterDevice, Option.map_eq_some_iff] at he
    obtain ⟨e, he, hspace⟩ := he
    cases e <;> cases hspace
    exact h.places x ty p hx he
  sizes x size space hx he := by
    rw [Context.get?_enterDevice, Option.map_eq_some_iff] at he
    obtain ⟨e, he, hspace⟩ := he
    cases e <;> cases hspace
    exact h.sizes x size _ hx he

/-- **Leaving the device.**  What is forgotten of the known names is forgotten on both sides,
however many other names there are. -/
theorem leaveDevice {i i' : Context} (h : L.Alike c c') (hi : L.Alike i i')
    (hkeys : c.vars.keys <+: i.vars.keys) (hkeys' : c'.vars.keys <+: i'.vars.keys) :
    L.Alike (c.leaveDevice i) (c'.leaveDevice i') := by
  have hleft : ∀ x e, (c.leaveDevice i).vars.get? x = some e →
      ∃ e', i.vars.get? x = some e' ∧ e'.spaceFrom (c.vars.get? x) = e := by
    intro x e he
    rw [Context.get?_leaveDevice hkeys] at he
    split at he
    · exact Option.map_eq_some_iff.mp he
    · cases he
  constructor
  case left => exact hi.left
  case right => exact hi.right
  case names => exact hi.names
  case onDevice => exact h.onDevice
  case entries =>
    intro x hx
    have hmem : x ∈ c'.vars.keys ↔ x ∈ c.vars.keys := by
      rw [← not_iff_not, ← OrderedMap.get?_eq_none_iff, ← OrderedMap.get?_eq_none_iff,
        h.entries x hx, Option.map_eq_none_iff]
    rw [Context.get?_leaveDevice hkeys, Context.get?_leaveDevice hkeys', h.entries x hx,
      hi.entries x hx]
    by_cases hx' : x ∈ c.vars.keys
    · rw [if_pos hx', if_pos (hmem.mpr hx'), Option.map_map, Option.map_map]
      congr 1
      exact funext fun e => Entry.spaceFrom_renameOffset L.rename _ e
    · rw [if_neg hx', if_neg (hmem.not.mpr hx')]
      rfl
  case places =>
    intro x ty p hx he
    obtain ⟨e, he, hspace⟩ := hleft x _ he
    obtain rfl := Entry.spaceFrom_eq_array hspace
    exact hi.places x ty p hx he
  case sizes =>
    intro x size space hx he
    obtain ⟨e, he, hspace⟩ := hleft x _ he
    obtain ⟨space', rfl⟩ := Entry.spaceFrom_eq_block hspace
    exact hi.sizes x size space' hx he

/-! ## What they answer -/

theorem type (h : L.Alike c c') (hx : L.known x) : c'.type x = c.type x := by
  unfold Context.type Context.entry
  rw [h.entries x hx]
  rcases c.vars.get? x with _ | (_ | _ | _) <;> rfl

theorem block (h : L.Alike c c') (hx : L.known x) : c'.block x = c.block x := by
  unfold Context.block Context.entry
  rw [h.entries x hx]
  rcases c.vars.get? x with _ | (_ | _ | _) <;> rfl

theorem blockSpace (h : L.Alike c c') (hx : L.known x) : c'.blockSpace x = c.blockSpace x := by
  rw [Context.blockSpace, Context.blockSpace, h.block hx]

end Alike

/-! ## Transfers -/

/-- The transfer is the same on both sides. -/
def FixesTransfer (L : Likeness) (t : Transfer) : Prop := t.rename L.rename = t

/-- What is planned on both sides alike: the same transfers or the same failure. -/
def Plans (L : Likeness) (r r' : Except CompileError (List Transfer)) : Prop :=
  r' = r ∧ ∀ plan, r = .ok plan → ∀ t ∈ plan, L.FixesTransfer t

namespace Alike
variable {plan : List Transfer}

theorem addBlock (h : L.Alike c c') (hplan : ∀ t ∈ plan, L.FixesTransfer t) (hx : L.known x) :
    L.Plans (c.addBlock plan x) (c'.addBlock plan x) := by
  unfold Context.addBlock Context.blockSize
  rw [h.block hx]
  refine ⟨rfl, fun next hnext => ?_⟩
  split at hnext
  · cases hnext
    exact hplan
  · obtain ⟨size, hsize, hlast⟩ := except_bind_eq_ok.mp hnext
    obtain ⟨⟨size', space⟩, hblock, hsame⟩ := except_bind_eq_ok.mp hsize
    cases hsame
    cases hlast
    refine List.forall_mem_append.mpr ⟨hplan, List.forall_mem_singleton.mpr ?_⟩
    have hfixed := h.sizes x size' space hx (Context.block_eq_ok_iff.mp hblock)
    rw [FixesTransfer, Transfer.rename, L.rename_of_known hx, Size.rename_eq_self hfixed]

theorem addInput (h : L.Alike c c') (hplan : ∀ t ∈ plan, L.FixesTransfer t) (hx : L.used x) :
    L.Plans (c.addInput plan x) (c'.addInput plan x) := by
  have hentry := h.entries x (L.known_of_used hx)
  unfold Context.addInput Context.array Context.entry
  rw [hentry]
  cases he : c.vars.get? x with
  | none => exact ⟨rfl, nofun⟩
  | some e =>
    cases e with
    | scalar | block => exact ⟨rfl, nofun⟩
    | array ty p => exact h.addBlock hplan (h.places x ty p hx he).block

theorem addFree (h : L.Alike c c') (hplan : ∀ t ∈ plan, L.FixesTransfer t) (hx : L.known x) :
    L.Plans (c.addFree plan x) (c'.addFree plan x) := by
  unfold Context.addFree Context.entry
  rw [h.entries x hx]
  cases c.vars.get? x with
  | none => exact ⟨rfl, nofun⟩
  | some e =>
    cases e with
    | array => exact ⟨rfl, nofun⟩
    | block => exact h.addBlock hplan hx
    | scalar ty =>
      refine ⟨rfl, fun next hnext => ?_⟩
      cases hnext
      refine List.forall_mem_append.mpr ⟨hplan, List.forall_mem_singleton.mpr ?_⟩
      rw [FixesTransfer, Transfer.rename, L.rename_of_known hx]

theorem addDestination (h : L.Alike c c') (hplan : ∀ t ∈ plan, L.FixesTransfer t)
    {d : Destination} (hd : ∀ p ty, d = .array p ty → L.known p.block) :
    L.Plans (c.addDestination plan d) (c'.addDestination plan d) := by
  cases d with
  | scalar x => exact ⟨rfl, fun next hnext => by cases hnext; exact hplan⟩
  | array p ty => exact h.addBlock hplan (hd p ty rfl)

end Alike

/-- A plan made step by step, on both sides. -/
theorem plans_foldlM {α : Type}
    {step step' : List Transfer → α → Except CompileError (List Transfer)} {xs : List α}
    {plan : List Transfer} (hplan : ∀ t ∈ plan, L.FixesTransfer t)
    (h : ∀ a ∈ xs, ∀ plan, (∀ t ∈ plan, L.FixesTransfer t) →
      L.Plans (step plan a) (step' plan a)) :
    L.Plans (xs.foldlM step plan) (xs.foldlM step' plan) := by
  induction xs generalizing plan with
  | nil => exact ⟨rfl, fun next hnext => by cases hnext; exact hplan⟩
  | cons a xs ih =>
    rw [List.forall_mem_cons] at h
    obtain ⟨hsame, hfixed⟩ := h.1 plan hplan
    rw [List.foldlM_cons, List.foldlM_cons, hsame]
    cases hstep : step plan a with
    | error e => exact ⟨rfl, nofun⟩
    | ok next => exact ih (hfixed next hstep) h.2

/-- **What is copied before a launch**, of a lambda over names of the program. -/
theorem Alike.copyIn (h : L.Alike c c') {f : Lambda} {inputs : List Name}
    (hf : ∀ x ∈ f.occurrences, L.used x) (hinputs : ∀ x ∈ inputs, L.used x) :
    L.Plans (c.copyIn f inputs) (c'.copyIn f inputs) := by
  obtain ⟨hsame, hfixed⟩ : L.Plans (inputs.foldlM c.addInput []) (inputs.foldlM c'.addInput []) :=
    plans_foldlM (List.forall_mem_nil _) fun x hx plan hplan => h.addInput hplan (hinputs x hx)
  unfold Context.copyIn
  rw [hsame]
  cases hplan : inputs.foldlM c.addInput [] with
  | error e => exact ⟨rfl, nofun⟩
  | ok plan =>
    refine plans_foldlM (hfixed plan hplan) fun x hx plan hplan => h.addFree hplan ?_
    have hfree : x ∈ f.free := (List.mem_filter.mp hx).1
    exact L.known_of_used (hf x (List.mem_filter.mp (List.mem_eraseDups.mp hfree)).1)

/-- **What is copied after a kernel.** -/
theorem Alike.copyOut (h : L.Alike c c') {dests : List Destination}
    (hd : ∀ p ty, .array p ty ∈ dests → L.known p.block) :
    L.Plans (c.copyOut dests) (c'.copyOut dests) :=
  plans_foldlM (List.forall_mem_nil _) fun _ hmem _ hplan =>
    h.addDestination hplan fun p ty he => hd p ty (he ▸ hmem)

end Likeness

end KernelGen
