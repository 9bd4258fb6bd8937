import KernelGen.Proofs.Context.Evolution

/-! # Names that are spent

`Evolves` counts the names that are drawn and does not say which they are.  A name is its
base and its tag, so the tags alone are not enough to tell whether a name of an earlier
context was drawn again.  `Spends` keeps the bases: from one context to another fresh names
with these bases are drawn, one after the other, and only names that are known beforehand
or are among the drawn ones are bound (`Spends.get?_eq`). -/
namespace KernelGen

namespace NameSource
variable (source : NameSource)

@[simp] theorem freshAll_cons (base : String) (bases : List String) :
    source.freshAll (base :: bases) =
      (⟨base, source.next⟩ :: (NameSource.freshAll ⟨source.next + 1⟩ bases).1,
        (NameSource.freshAll ⟨source.next + 1⟩ bases).2) := rfl

/-- Names for two lists of bases are drawn for the first list first. -/
theorem freshAll_append (bases bases' : List String) :
    source.freshAll (bases ++ bases') =
      ((source.freshAll bases).1 ++ ((source.freshAll bases).2.freshAll bases').1,
        ((source.freshAll bases).2.freshAll bases').2) := by
  induction bases generalizing source with
  | nil => rfl
  | cons base bases ih => simp [ih]

/-- Every name takes one tag. -/
theorem next_freshAll (bases : List String) :
    (source.freshAll bases).2.next = source.next + bases.length := by
  induction bases generalizing source with
  | nil => rfl
  | cons base bases ih => rw [freshAll_cons, ih, List.length_cons, Nat.add_right_comm]; rfl

end NameSource

namespace Context

/-- From the first context to the second: fresh names with these bases are drawn, in order;
what is bound on the way is among `vars`, or among those names. -/
structure Spends (vars : List Name) (bases : List String) (c c' : Context) : Prop where
  names : c'.names = (c.names.freshAll bases).2
  within : ∃ xs, c.Evolves xs c' ∧ ∀ x ∈ xs, x ∈ vars ∨ x ∈ (c.names.freshAll bases).1

namespace Spends
variable {vars vars' : List Name} {bases bases' : List String} {c c' c'' : Context}

theorem refl : Spends vars [] c c := ⟨rfl, [], .refl c, List.forall_mem_nil _⟩

theorem bind {x : Name} (hx : x ∈ vars) (e : Entry) : Spends vars [] c (c.bind x e) := by
  refine ⟨rfl, [x], .bind (.refl c) x e, fun y hy => ?_⟩
  obtain rfl := List.mem_singleton.mp hy
  exact .inl hx

theorem trans (h : Spends vars bases c c') (h' : Spends vars bases' c' c'') :
    Spends vars (bases ++ bases') c c'' := by
  obtain ⟨hnames, xs, hevolves, hxs⟩ := h
  obtain ⟨hnames', ys, hevolves', hys⟩ := h'
  rw [hnames] at hnames' hys
  refine ⟨by rw [NameSource.freshAll_append, hnames'], xs ++ ys, hevolves.trans hevolves', ?_⟩
  intro x hx
  rw [NameSource.freshAll_append, List.mem_append]
  rcases List.mem_append.mp hx with hx | hx
  · exact (hxs x hx).imp_right .inl
  · exact (hys x hx).imp_right .inr

/-- A fresh name, which may be bound from then on. -/
theorem draw {base : String}
    (h : Spends (⟨base, c.names.next⟩ :: vars) bases { c with names := ⟨c.names.next + 1⟩ } c') :
    Spends vars (base :: bases) c c' := by
  obtain ⟨hnames, xs, hevolves, hxs⟩ := h
  refine ⟨hnames, xs, (Evolves.draw (.refl c)).trans hevolves, fun x hx => ?_⟩
  rw [NameSource.freshAll_cons]
  rcases hxs x hx with hx | hx
  · rcases List.mem_cons.mp hx with rfl | hx
    · exact .inr (List.mem_cons_self ..)
    · exact .inl hx
  · exact .inr (List.mem_cons_of_mem _ hx)

/-- A scope on the device: what is bound in it is left there, what is drawn is spent. -/
theorem device (h : Spends vars bases c.enterDevice c') :
    Spends vars bases c (c.leaveDevice c') := by
  obtain ⟨hnames, xs, hevolves, hxs⟩ := h
  exact ⟨hnames, xs, .device (.refl c) hevolves, hxs⟩

theorem settings (h : Spends vars bases c c') : c'.settings = c.settings := by
  obtain ⟨_, _, hevolves, -⟩ := h
  exact hevolves.settings

theorem onDevice (h : Spends vars bases c c') : c'.onDevice = c.onDevice := by
  obtain ⟨_, _, hevolves, -⟩ := h
  exact hevolves.onDevice

theorem keys (h : Spends vars bases c c') : c.vars.keys <+: c'.vars.keys := by
  obtain ⟨_, _, hevolves, -⟩ := h
  exact hevolves.keys

/-- **What is neither to be bound nor drawn** stands for what it stood for. -/
theorem get?_eq (h : Spends vars bases c c') {x : Name} (hx : x ∉ vars)
    (hdrawn : x ∉ (c.names.freshAll bases).1) : c'.vars.get? x = c.vars.get? x := by
  obtain ⟨_, xs, hevolves, hxs⟩ := h
  exact hevolves.get?_eq fun hmem => (hxs x hmem).elim hx hdrawn

end Spends

end Context

end KernelGen
