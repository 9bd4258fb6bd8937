import KernelGen.Proofs.Size.Value

/-! # The variables of simplified sizes

Adding simplifies constants only, so a sum reads what its parts read, in order
(`occurrences_plus`).  A product may lose a part, where the other one is zero, but gains
none.  A position reads variables of the layout and of the indices, and no others. -/
namespace KernelGen

namespace Size

theorem occurrences_plusConst (a : Size) (y : Int64) :
    (a.plusConst y).occurrences = a.occurrences := by
  fun_induction plusConst a y with
  | case1 | case2 | case3 | case6 => rfl
  | case4 y l x h s hs ih => simp [ih, occurrences]
  | case5 | case7 => simp [occurrences]

/-- **A sum reads what its parts read, in order.** -/
theorem occurrences_plus (a b : Size) :
    (a.plus b).occurrences = a.occurrences ++ b.occurrences := by
  fun_cases plus a b with
  | case1 => simp [occurrences_plusConst, occurrences]
  | case2 => simp [occurrences_plusConst, occurrences]
  | case3 => rfl

/-- **A product reads nothing that its parts do not read.** -/
theorem occurrences_times_sublist (a b : Size) :
    (a.times b).occurrences.Sublist (a.occurrences ++ b.occurrences) := by
  fun_cases times a b with
  | case1 | case2 | case4 | case5 | case8 | case9 => simp [occurrences]
  | case3 | case6 => simp [occurrences]
  | case7 => simp [occurrences]

/-- A multiple of a variable reads the factor, and besides at most that variable. -/
theorem mem_occurrences_var_times {x y : Name} {s : Size} :
    (y ∈ s.occurrences → y ∈ ((var x).times s).occurrences) ∧
      (y ∈ ((var x).times s).occurrences → y = x ∨ y ∈ s.occurrences) := by
  constructor
  · intro hy
    cases s with
    | const n => cases hy
    | var | add | mul => exact List.mem_cons_of_mem _ hy
  · intro hy
    exact List.mem_cons.mp ((occurrences_times_sublist (var x) s).subset hy)

end Size

namespace Layout

/-- The variables of a position in order: those of the offset, and of each index with its
stride. -/
theorem occurrences_position (l : Layout) (indices : List Size) :
    (l.position indices).occurrences = l.offset.occurrences ++
      (indices.zip l.strides).flatMap fun (i, s) => (i.times s).occurrences := by
  have fold : ∀ (pairs : List (Size × Size)) (start : Size),
      (pairs.foldl (fun acc (i, s) => acc.plus (i.times s)) start).occurrences =
        start.occurrences ++ pairs.flatMap fun (i, s) => (i.times s).occurrences := by
    intro pairs
    induction pairs with
    | nil => simp
    | cons q pairs ih =>
      intro start
      rw [List.foldl_cons, ih, Size.occurrences_plus, List.append_assoc, List.flatMap_cons]
  exact fold _ _

/-- **A position reads variables of the layout and of the indices only.** -/
theorem mem_occurrences_position {l : Layout} {indices : List Size} {x : Name}
    (h : x ∈ (l.position indices).occurrences) :
    x ∈ l.occurrences ∨ ∃ i ∈ indices, x ∈ i.occurrences := by
  rw [occurrences_position, List.mem_append, List.mem_flatMap] at h
  rcases h with h | ⟨⟨i, s⟩, hq, h⟩
  · exact .inl (List.mem_append.mpr (.inl h))
  · rcases List.mem_append.mp ((Size.occurrences_times_sublist i s).subset h) with h | h
    · exact .inr ⟨i, (List.of_mem_zip hq).1, h⟩
    · refine .inl (List.mem_append.mpr (.inr (List.mem_flatMap.mpr ⟨s, ?_, h⟩)))
      exact List.mem_append.mpr (.inr (List.of_mem_zip hq).2)

/-- The variables of the positions of elements and rows along the outermost dimension. -/
def rowVars (l : Layout) : List Name :=
  l.offset.occurrences ++ l.strides.head?.toList.flatMap Size.occurrences

/-- The position of the row with a variable index reads those, and besides at most the
index. -/
theorem mem_occurrences_position_var {l : Layout} {x y : Name} :
    (y ∈ l.rowVars → y ∈ (l.position [.var x]).occurrences) ∧
      (y ∈ (l.position [.var x]).occurrences → y = x ∨ y ∈ l.rowVars) := by
  rw [occurrences_position, rowVars]
  cases l.strides with
  | nil =>
    simp only [List.zip_nil_right, List.flatMap_nil, List.append_nil, List.head?_nil,
      Option.toList_none]
    exact ⟨id, .inr⟩
  | cons s strides =>
    have htimes := Size.mem_occurrences_var_times (x := x) (y := y) (s := s)
    simp only [List.zip_cons_cons, List.zip_nil_left, List.flatMap_singleton, List.head?_cons,
      Option.toList_some, List.mem_append]
    refine ⟨Or.imp_right htimes.1, ?_⟩
    rintro (hoffset | hy)
    · exact .inr (.inl hoffset)
    · exact (htimes.2 hy).imp_right .inr

theorem mem_occurrences_of_mem_rowVars {l : Layout} {x : Name} (h : x ∈ l.rowVars) :
    x ∈ l.occurrences := by
  rcases List.mem_append.mp h with h | h
  · exact List.mem_append.mpr (.inl h)
  · obtain ⟨s, hs, hx⟩ := List.mem_flatMap.mp h
    have hstride : s ∈ l.strides := List.mem_of_mem_head? (Option.mem_toList.mp hs)
    refine List.mem_append.mpr (.inr (List.mem_flatMap.mpr ⟨s, ?_, hx⟩))
    exact List.mem_append.mpr (.inr hstride)

/-- With one dimension the stride is 1, and positions read the offset and the indices. -/
theorem mem_occurrences_position_of_rank_one {l : Layout} (hrank : l.rank = 1)
    {indices : List Size} {y : Name} (hy : y ∈ (l.position indices).occurrences) :
    y ∈ l.offset.occurrences ∨ ∃ i ∈ indices, y ∈ i.occurrences := by
  obtain ⟨d, hshape⟩ := List.length_eq_one_iff.mp hrank
  rw [occurrences_position, List.mem_append, List.mem_flatMap] at hy
  rcases hy with hy | ⟨⟨i, s⟩, hq, hy⟩
  · exact .inl hy
  · have hstrides : l.strides = [.const 1] := by rw [strides, hshape]; rfl
    rw [hstrides] at hq
    obtain rfl := List.mem_singleton.mp (List.of_mem_zip hq).2
    have hy := (Size.occurrences_times_sublist i (.const 1)).subset hy
    rw [Size.occurrences, List.append_nil] at hy
    exact .inr ⟨i, (List.of_mem_zip hq).1, hy⟩

/-- The extents of a layout are read with it. -/
theorem mem_occurrences_of_mem_shape {l : Layout} {d : Size} {x : Name} (hd : d ∈ l.shape)
    (h : x ∈ d.occurrences) : x ∈ l.occurrences :=
  List.mem_append.mpr (.inr (List.mem_flatMap.mpr ⟨d, List.mem_append.mpr (.inl hd), h⟩))

end Layout

end KernelGen
