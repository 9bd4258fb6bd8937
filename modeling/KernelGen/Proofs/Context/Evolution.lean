import KernelGen.Proofs.Context.Leaving

/-! # How contexts change

Whatever compilation does to a context, it does in steps of three kinds: it binds a name,
it draws a name, or it goes to the device, does such steps there, and comes back.
`Evolves c xs c'` says that `c'` comes from `c` in this way and that `xs` are the names
that were bound meanwhile, those bound on the device included.

So a scope on the device leaves nothing behind but what it says: names stay where they
are (`Evolves.keys`), and a name that was not bound meanwhile stands for what it stood
for (`Evolves.get?_eq`), however many scopes were entered and left. -/
namespace KernelGen
namespace Context

/-- The second context comes from the first, with these names bound on the way, in order. -/
inductive Evolves : Context → List Name → Context → Prop
  | refl (c : Context) : Evolves c [] c
  | bind {c c' : Context} {xs : List Name} (h : Evolves c xs c') (x : Name) (e : Entry) :
    Evolves c (xs ++ [x]) (c'.bind x e)
  | draw {c c' : Context} {xs : List Name} (h : Evolves c xs c') :
    Evolves c xs { c' with names := ⟨c'.names.next + 1⟩ }
  | device {c c' inner : Context} {xs ys : List Name} (h : Evolves c xs c')
    (hdevice : Evolves c'.enterDevice ys inner) : Evolves c (xs ++ ys) (c'.leaveDevice inner)

/-- The name was drawn between the two contexts. -/
def Drawn (c c' : Context) (x : Name) : Prop := c.names.next ≤ x.tag ∧ x.tag < c'.names.next

theorem Drawn.mono {c₁ c₂ c c' : Context} {x : Name} (h : Drawn c c' x)
    (h₁ : c₁.names.next ≤ c.names.next) (h₂ : c'.names.next ≤ c₂.names.next) :
    Drawn c₁ c₂ x := by
  obtain ⟨hlow, hhigh⟩ := h
  constructor
  · omega
  · omega

namespace Evolves
variable {c c' c'' : Context} {xs ys : List Name}

theorem trans (h : Evolves c xs c') (h' : Evolves c' ys c'') : Evolves c (xs ++ ys) c'' := by
  induction h' with
  | refl => rwa [List.append_nil]
  | bind _ x e ih =>
    rw [← List.append_assoc]
    exact (ih h).bind x e
  | draw _ ih => exact (ih h).draw
  | device _ hdevice ih _ =>
    rw [← List.append_assoc]
    exact (ih h).device hdevice

/-- Drawn names stay drawn. -/
theorem next_le (h : Evolves c xs c') : c.names.next ≤ c'.names.next := by
  induction h with
  | refl => exact Nat.le_refl _
  | bind _ _ _ ih => exact ih
  | draw _ ih => exact Nat.le_succ_of_le ih
  | device _ _ ih ihd => exact Nat.le_trans ih ihd

theorem settings (h : Evolves c xs c') : c'.settings = c.settings := by
  induction h with
  | refl => rfl
  | bind _ _ _ ih => exact ih
  | draw _ ih => exact ih
  | device _ _ ih ihd => exact ihd.trans ih

/-- A scope on the device is left with the flag that it found. -/
theorem onDevice (h : Evolves c xs c') : c'.onDevice = c.onDevice := by
  induction h with
  | refl => rfl
  | bind _ _ _ ih => exact ih
  | draw _ ih => exact ih
  | device _ _ ih _ => exact ih

/-- Names keep their places, and new ones come behind. -/
theorem keys (h : Evolves c xs c') : c.vars.keys <+: c'.vars.keys := by
  induction h with
  | refl => exact List.prefix_refl _
  | bind _ x e ih => exact keys_bind ih e
  | draw _ ih => exact ih
  | device _ _ ih ihd =>
    rw [keys_leaveDevice (keys_enterDevice.trans ihd)]
    exact ih

/-- **What is not bound on the way** stands for what it stood for. -/
theorem get?_eq (h : Evolves c xs c') {x : Name} (hx : x ∉ xs) :
    c'.vars.get? x = c.vars.get? x := by
  induction h with
  | refl => rfl
  | bind _ y e ih =>
    rw [List.mem_append, List.mem_singleton, not_or] at hx
    rw [get?_bind_of_ne e (Ne.symm hx.2), ih hx.1]
  | draw _ ih => exact ih hx
  | device _ hdevice ih ihd =>
    rw [List.mem_append, not_or] at hx
    rw [get?_leaveDevice_of_get?_eq (keys_enterDevice.trans hdevice.keys) (ihd hx.2), ih hx.1]

end Evolves

/-- The second context comes from the first; the names bound on the way are among `vars`,
or were drawn. -/
def EvolvesWithin (vars : List Name) (c c' : Context) : Prop :=
  ∃ xs, c.Evolves xs c' ∧ ∀ x ∈ xs, x ∈ vars ∨ Drawn c c' x

namespace EvolvesWithin
variable {vars vars' : List Name} {c c' c'' : Context}

theorem refl : EvolvesWithin vars c c := ⟨[], .refl c, List.forall_mem_nil _⟩

theorem bind (x : Name) (e : Entry) : EvolvesWithin [x] c (c.bind x e) :=
  ⟨[x], .bind (.refl c) x e, fun _ hx => .inl hx⟩

theorem trans (h : EvolvesWithin vars c c') (h' : EvolvesWithin vars' c' c'') :
    EvolvesWithin (vars ++ vars') c c'' := by
  obtain ⟨xs, hevolves, hxs⟩ := h
  obtain ⟨ys, hevolves', hys⟩ := h'
  refine ⟨xs ++ ys, hevolves.trans hevolves', fun x hx => ?_⟩
  rw [List.mem_append]
  rcases List.mem_append.mp hx with hx | hx
  · rcases hxs x hx with hx | hdrawn
    · exact .inl (.inl hx)
    · exact .inr (hdrawn.mono (Nat.le_refl _) hevolves'.next_le)
  · rcases hys x hx with hx | hdrawn
    · exact .inl (.inr hx)
    · exact .inr (hdrawn.mono hevolves.next_le (Nat.le_refl _))

theorem next_le (h : EvolvesWithin vars c c') : c.names.next ≤ c'.names.next := by
  obtain ⟨_, hevolves, -⟩ := h
  exact hevolves.next_le

/-- A scope on the device. -/
theorem device (h : EvolvesWithin vars c.enterDevice c') :
    EvolvesWithin vars c (c.leaveDevice c') := by
  obtain ⟨xs, hevolves, hxs⟩ := h
  exact ⟨xs, .device (.refl c) hevolves, hxs⟩

end EvolvesWithin

end Context

end KernelGen
