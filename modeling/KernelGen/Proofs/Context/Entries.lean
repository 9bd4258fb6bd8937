import KernelGen.Proofs.Context.Evolution

/-! # The whole table of a context

A table is known by its names in order and what they stand for (`entries_eq_of_get?_eq`).
Binding new names one after the other puts them behind the others, in this order
(`entries_bindAll`). -/
namespace KernelGen

namespace OrderedMap
variable {κ α : Type} [DecidableEq κ]

/-- A key that is new comes last. -/
theorem put_of_not_mem {k : κ} (a : α) {es : List (κ × α)} (h : k ∉ es.map Prod.fst) :
    put k a es = es ++ [(k, a)] := by
  induction es with
  | nil => rfl
  | cons e es ih =>
    rw [List.map_cons, List.mem_cons, not_or] at h
    rw [put, if_neg (Ne.symm h.1), ih h.2, List.cons_append]

theorem entries_insert_of_not_mem {m : OrderedMap κ α} {k : κ} (a : α) (h : k ∉ m.keys) :
    (m.insert k a).entries = m.entries ++ [(k, a)] :=
  put_of_not_mem a h

/-- Pairs whose keys are all different are the entries of their map. -/
theorem entries_ofList {pairs : List (κ × α)} (h : (pairs.map Prod.fst).Nodup) :
    (OrderedMap.ofList pairs).entries = pairs := by
  have fold : ∀ (pairs : List (κ × α)) (m : OrderedMap κ α),
      (m.keys ++ pairs.map Prod.fst).Nodup →
        (pairs.foldl (fun m p => m.insert p.1 p.2) m).entries = m.entries ++ pairs := by
    intro pairs
    induction pairs with
    | nil =>
      intro m _
      exact (List.append_nil _).symm
    | cons q pairs ih =>
      intro m hnodup
      have hq : q.1 ∉ m.keys := by
        intro hmem
        exact (List.nodup_append.mp hnodup).2.2 _ hmem _ (List.mem_cons_self ..) rfl
      have hkeys : (m.insert q.1 q.2).keys = m.keys ++ [q.1] := by
        rw [keys_insert, if_neg hq]
      rw [List.foldl_cons, ih, entries_insert_of_not_mem _ hq, List.append_assoc]
      · rfl
      · rwa [hkeys, List.append_assoc]
  exact fold pairs .empty h

/-- **A map is its keys in order and their values.** -/
theorem entries_eq_of_get?_eq {m m' : OrderedMap κ α} (hkeys : m.keys = m'.keys)
    (hget : ∀ k ∈ m.keys, m.get? k = m'.get? k) : m.entries = m'.entries := by
  rcases m with ⟨es, hnodup⟩
  rcases m' with ⟨es', hnodup'⟩
  simp only [keys, get?] at hkeys hget ⊢
  induction es generalizing es' with
  | nil => exact (List.map_eq_nil_iff.mp hkeys.symm).symm
  | cons e es ih =>
    cases es' with
    | nil => cases hkeys
    | cons e' es' =>
      rcases e with ⟨k, a⟩
      rcases e' with ⟨k', a'⟩
      obtain ⟨rfl, hrest⟩ := List.cons.inj hkeys
      obtain ⟨hk, hnodup⟩ := List.nodup_cons.mp hnodup
      obtain ⟨-, hnodup'⟩ := List.nodup_cons.mp hnodup'
      have hhead : a = a' := by simpa [lookup] using hget k (List.mem_cons_self ..)
      have htail : ∀ k' ∈ es.map Prod.fst, lookup k' es = lookup k' es' := by
        intro k' hk'
        have hne : k ≠ k' := fun heq => hk (heq ▸ hk')
        simpa [lookup, hne] using hget k' (List.mem_cons_of_mem _ hk')
      rw [hhead, ih hnodup es' hnodup' hrest htail]

end OrderedMap

namespace Context
variable {ctx : Context}

/-- Bind names, one after the other. -/
def bindAll (ctx : Context) (es : List (Name × Entry)) : Context :=
  es.foldl (fun ctx q => ctx.bind q.1 q.2) ctx

@[simp] theorem bindAll_cons (q : Name × Entry) (es : List (Name × Entry)) :
    ctx.bindAll (q :: es) = (ctx.bind q.1 q.2).bindAll es := rfl

@[simp] theorem names_bindAll (es : List (Name × Entry)) : (ctx.bindAll es).names = ctx.names := by
  induction es generalizing ctx with
  | nil => rfl
  | cons q es ih => exact ih

@[simp] theorem settings_bindAll (es : List (Name × Entry)) :
    (ctx.bindAll es).settings = ctx.settings := by
  induction es generalizing ctx with
  | nil => rfl
  | cons q es ih => exact ih

@[simp] theorem onDevice_bindAll (es : List (Name × Entry)) :
    (ctx.bindAll es).onDevice = ctx.onDevice := by
  induction es generalizing ctx with
  | nil => rfl
  | cons q es ih => exact ih

/-- **New names come behind the others**, in the order in which they are bound. -/
theorem entries_bindAll {es : List (Name × Entry)}
    (h : (ctx.vars.keys ++ es.map Prod.fst).Nodup) :
    (ctx.bindAll es).vars.entries = ctx.vars.entries ++ es := by
  induction es generalizing ctx with
  | nil => exact (List.append_nil _).symm
  | cons q es ih =>
    have hq : q.1 ∉ ctx.vars.keys := by
      intro hmem
      exact (List.nodup_append.mp h).2.2 _ hmem _ (List.mem_cons_self ..) rfl
    have hkeys : (ctx.bind q.1 q.2).vars.keys = ctx.vars.keys ++ [q.1] := by
      show (ctx.vars.insert q.1 q.2).keys = _
      rw [OrderedMap.keys_insert, if_neg hq]
    have hbind : (ctx.bind q.1 q.2).vars.entries = ctx.vars.entries ++ [q] :=
      OrderedMap.entries_insert_of_not_mem q.2 hq
    rw [bindAll_cons, ih, hbind, List.append_assoc]
    · rfl
    · rwa [hkeys, List.append_assoc]

/-- What comes back from the device is the whole table, if none of its names was bound
there. -/
theorem entries_leaveDevice {inner : Context} {xs : List Name}
    (h : ctx.enterDevice.Evolves xs inner) (hxs : ∀ x ∈ ctx.vars.keys, x ∉ xs) :
    (ctx.leaveDevice inner).vars.entries = ctx.vars.entries := by
  have hkeys : ctx.vars.keys <+: inner.vars.keys := keys_enterDevice.trans h.keys
  have hback := keys_leaveDevice hkeys
  refine OrderedMap.entries_eq_of_get?_eq hback fun x hx => ?_
  rw [hback] at hx
  exact get?_leaveDevice_of_get?_eq hkeys (h.get?_eq (hxs x hx))

end Context

end KernelGen
