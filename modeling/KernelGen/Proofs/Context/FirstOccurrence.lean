import KernelGen.Proofs.Context.Leaving

/-! # The order of first occurrence

Tables and plans grow in the same way: something with a key that is there already takes the
place of what was there, or is left out, and everything else comes last.  So the keys are
those that were offered, each once, in the order of their first occurrence
(`foldl_firstOccurrence`).  A map made from a list of pairs has them in this order, and with
each of them the last value it was given (`OrderedMap.get?_ofList_eq_some_iff`). -/
namespace KernelGen
variable {κ α σ : Type} [DecidableEq κ]

/-- **What grows by new keys only** has its keys in the order of their first occurrence. -/
theorem foldl_firstOccurrence (keys : σ → List κ) {step : σ → α → σ} {key : α → κ}
    (hstep : ∀ s a, keys (step s a) = if key a ∈ keys s then keys s else keys s ++ [key a])
    (s : σ) (as : List α) :
    keys (as.foldl step s) =
      keys s ++ ((as.map key).filter fun k => decide (k ∉ keys s)).eraseDups := by
  induction as generalizing s with
  | nil => simp
  | cons a as ih =>
    rw [List.foldl_cons, ih, hstep, List.map_cons]
    by_cases ha : key a ∈ keys s
    · rw [if_pos ha, List.filter_cons_of_neg (by simpa using ha)]
    · -- The new key is the first of the rest, and is taken out of what comes after it.
      rw [if_neg ha, List.filter_cons_of_pos (by simpa using ha), List.eraseDups_cons,
        List.filter_filter, List.append_assoc, List.singleton_append]
      congr 3
      apply List.filter_congr
      intro k _
      by_cases hk : k = key a <;> simp [hk]

theorem eraseDups_of_nodup {xs : List κ} (h : xs.Nodup) : xs.eraseDups = xs := by
  induction xs with
  | nil => rfl
  | cons x xs ih =>
    obtain ⟨hx, hxs⟩ := List.nodup_cons.mp h
    have hfilter : xs.filter (fun y => !y == x) = xs := by
      rw [List.filter_eq_self]
      intro y hy
      have hne : y ≠ x := fun heq => hx (heq ▸ hy)
      simpa using hne
    rw [List.eraseDups_cons, hfilter, ih hxs]

/-- The first element of a kind is the same where repeats are left out. -/
theorem find?_eraseDups (p : κ → Bool) (xs : List κ) : xs.eraseDups.find? p = xs.find? p := by
  match xs with
  | [] => rfl
  | x :: xs =>
    rw [List.eraseDups_cons, List.find?_cons, List.find?_cons]
    cases hx : p x with
    | true => rfl
    | false =>
      -- A repeat of `x` is not of this kind either.
      have hrest : ∀ y, decide ((!y == x) = true ∧ p y = true) = p y := by
        intro y
        by_cases hy : y = x
        · simp [hy, hx]
        · simp [hy]
      refine (find?_eraseDups p (xs.filter fun y => !y == x)).trans ?_
      rw [List.find?_filter, funext hrest]
termination_by xs.length
decreasing_by exact Nat.lt_succ_of_le (List.length_filter_le _ _)

theorem eraseDups_sublist (xs : List κ) : xs.eraseDups.Sublist xs := by
  match xs with
  | [] => exact .slnil
  | x :: xs =>
    rw [List.eraseDups_cons]
    exact ((eraseDups_sublist _).trans List.filter_sublist).cons_cons x
termination_by xs.length
decreasing_by exact Nat.lt_succ_of_le (List.length_filter_le _ _)

namespace OrderedMap

/-- **A map made from pairs has their keys in the order of first occurrence.** -/
theorem keys_ofList (pairs : List (κ × α)) :
    (OrderedMap.ofList pairs).keys = (pairs.map Prod.fst).eraseDups := by
  have h := foldl_firstOccurrence OrderedMap.keys (fun m p => keys_insert m p.1 p.2) .empty pairs
  have hall : (pairs.map Prod.fst).filter (fun _ => true) = pairs.map Prod.fst :=
    List.filter_eq_self.mpr fun _ _ => rfl
  simpa [OrderedMap.ofList, hall] using h

theorem keys_ofList_sublist (pairs : List (κ × α)) :
    (OrderedMap.ofList pairs).keys.Sublist (pairs.map Prod.fst) := by
  rw [keys_ofList]
  exact eraseDups_sublist _

theorem head?_keys_ofList (pairs : List (κ × α)) :
    (OrderedMap.ofList pairs).keys.head? = pairs.head?.map Prod.fst := by
  rw [keys_ofList]
  cases pairs with
  | nil => rfl
  | cons q pairs =>
    rw [List.map_cons, List.eraseDups_cons]
    rfl

theorem get?_ofList_of_mem {pairs : List (κ × α)} {k : κ} (h : k ∈ pairs.map Prod.fst) :
    ∃ a, (OrderedMap.ofList pairs).get? k = some a := by
  rw [← List.mem_eraseDups, ← keys_ofList] at h
  exact Option.ne_none_iff_exists'.mp fun hnone => get?_eq_none_iff.mp hnone h

/-- **A map made from pairs has, at each key, the value of its last pair.** -/
theorem get?_ofList_eq_some_iff {pairs : List (κ × α)} {k : κ} {a : α} :
    (OrderedMap.ofList pairs).get? k = some a ↔
      ∃ before after, pairs = before ++ (k, a) :: after ∧ k ∉ after.map Prod.fst := by
  -- What was there before the pairs stays where none of them has the key.
  have fold : ∀ (pairs : List (κ × α)) (m : OrderedMap κ α),
      (pairs.foldl (fun m p => m.insert p.1 p.2) m).get? k = some a ↔
        (∃ before after, pairs = before ++ (k, a) :: after ∧ k ∉ after.map Prod.fst) ∨
          k ∉ pairs.map Prod.fst ∧ m.get? k = some a := by
    intro pairs
    induction pairs with
    | nil => simp
    | cons q pairs ih =>
      intro m
      rw [List.foldl_cons, ih, get?_insert, List.map_cons, List.mem_cons, not_or]
      constructor
      · rintro (⟨before, after, rfl, hafter⟩ | ⟨hpairs, hget⟩)
        · exact .inl ⟨q :: before, after, rfl, hafter⟩
        · by_cases hq : q.1 = k
          · rw [if_pos hq] at hget
            refine .inl ⟨[], pairs, ?_, hpairs⟩
            rw [← hq, ← Option.some.inj hget, List.nil_append]
          · rw [if_neg hq] at hget
            exact .inr ⟨⟨Ne.symm hq, hpairs⟩, hget⟩
      · rintro (⟨before, after, heq, hafter⟩ | ⟨⟨hq, hpairs⟩, hget⟩)
        · cases before with
          | nil =>
            obtain ⟨rfl, rfl⟩ := List.cons.inj heq
            exact .inr ⟨hafter, if_pos rfl⟩
          | cons p before =>
            obtain ⟨rfl, rfl⟩ := List.cons.inj heq
            exact .inl ⟨before, after, rfl, hafter⟩
        · exact .inr ⟨hpairs, by rwa [if_neg (Ne.symm hq)]⟩
  have h := fold pairs .empty
  rw [get?_empty] at h
  simpa [OrderedMap.ofList] using h

theorem mem_of_get?_ofList {pairs : List (κ × α)} {k : κ} {a : α}
    (h : (OrderedMap.ofList pairs).get? k = some a) : (k, a) ∈ pairs := by
  obtain ⟨before, after, rfl, -⟩ := get?_ofList_eq_some_iff.mp h
  exact List.mem_append_right _ (List.mem_cons_self ..)

end OrderedMap

/-- Of keys each once there are no two alike. -/
theorem nodup_eraseDups (xs : List κ) : xs.eraseDups.Nodup := by
  have h := (OrderedMap.ofList (xs.map fun x => (x, ()))).nodup
  have hkeys := OrderedMap.keys_ofList (xs.map fun x => (x, ()))
  rw [OrderedMap.keys] at hkeys
  rw [hkeys] at h
  simpa [Function.comp_def] using h

end KernelGen
