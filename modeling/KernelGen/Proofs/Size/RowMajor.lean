import Mathlib
import KernelGen.Proofs.Size.Words

/-! # Row by row, one place for every element

The elements of an array of extents `d₀, …, d_{r-1}` are numbered row by row: an index `i₀`
skips `i₀` rows of `d₁ * … * d_{r-1}` elements each, and the other indices count inside a
row (`ordinal`).  Division by the size of a row recovers the indices, so that every number
below the number of elements belongs to one tuple of indices (`ordinal_bijOn`).

A position is computed in words, from strides that are products of extents and by a sum
over the dimensions.  No word is too small for it: a stride is at most the number of
elements, and a sum that was made up to some dimension lies between the first element and
the end of the array (`hasValue_positions`).  `rowMajor_positions` puts the two together. -/
namespace KernelGen

/-! ## Values that are words -/

namespace Word

/-- Some word denotes `n`. -/
def Fits (n : Int) : Prop := ∃ w : Int64, w.toInt = n

theorem fits_iff {n : Int} :
    Fits n ↔ Int64.minValue.toInt ≤ n ∧ n ≤ Int64.maxValue.toInt := by
  constructor
  · rintro ⟨w, rfl⟩
    exact ⟨w.minValue_le_toInt, w.toInt_le⟩
  · intro h
    exact ⟨_, ofInt?_eq_some_iff.mp (if_pos h)⟩

/-- Between two words there are only words. -/
theorem Fits.between {a b n : Int} (ha : Fits a) (hb : Fits b) (han : a ≤ n) (hnb : n ≤ b) :
    Fits n :=
  fits_iff.mpr ⟨(fits_iff.mp ha).1.trans han, hnb.trans (fits_iff.mp hb).2⟩

theorem fits_zero : Fits 0 := ⟨0, rfl⟩

end Word

namespace Size
variable {env : Name → Option Int64} {a b : Size} {x y : Int}

/-- The size has a value, and it is this integer. -/
def HasValue (env : Name → Option Int64) (s : Size) (n : Int) : Prop :=
  ∃ w, s.eval env = some w ∧ w.toInt = n

theorem HasValue.fits (h : a.HasValue env x) : Word.Fits x := by
  obtain ⟨w, -, hw⟩ := h
  exact ⟨w, hw⟩

/-- A size has one value. -/
theorem HasValue.eval_eq (ha : a.HasValue env x) (hb : b.HasValue env x) :
    a.eval env = b.eval env := by
  obtain ⟨u, hu, rfl⟩ := ha
  obtain ⟨v, hv, huv⟩ := hb
  rw [hu, hv, Int64.toInt_inj.mp huv]

theorem HasValue.plus (ha : a.HasValue env x) (hb : b.HasValue env y) (h : Word.Fits (x + y)) :
    (a.plus b).HasValue env (x + y) := by
  obtain ⟨u, hu, rfl⟩ := ha
  obtain ⟨v, hv, rfl⟩ := hb
  obtain ⟨w, hw⟩ := h
  exact ⟨w, refines_plus a b env w (eval_add_eq_some.mpr ⟨u, v, hu, hv, hw⟩), hw⟩

theorem HasValue.times (ha : a.HasValue env x) (hb : b.HasValue env y) (h : Word.Fits (x * y)) :
    (a.times b).HasValue env (x * y) := by
  obtain ⟨u, hu, rfl⟩ := ha
  obtain ⟨v, hv, rfl⟩ := hb
  obtain ⟨w, hw⟩ := h
  exact ⟨w, (eval_times hu hv).trans (Word.mul?_eq_some_iff.mpr hw), hw⟩

end Size

namespace Layout

/-! ## Elements numbered row by row -/

/-- The indices lie inside the extents.  Some may be left out at the end. -/
def Within : List Int → List Int → Prop
  | _, [] => True
  | [], _ :: _ => False
  | d :: ds, i :: is => (0 ≤ i ∧ i < d) ∧ Within ds is

/-- The number of the element with these indices; those that are left out count as zero. -/
def ordinal : List Int → List Int → Int
  | _ :: ds, i :: is => i * ds.prod + ordinal ds is
  | [], _ | _ :: _, [] => 0

/-- The tuples that have an index for each extent. -/
def tuples (ds : List Int) : Set (List Int) := {is | Within ds is ∧ is.length = ds.length}

variable {d : Int} {ds is : List Int}

@[simp] theorem within_nil : Within ds [] := by
  cases ds <;> trivial

@[simp] theorem ordinal_nil : ordinal ds [] = 0 := by
  cases ds <;> rfl

/-- Extents of one and more leave room for an element. -/
theorem prod_pos (hds : ∀ d ∈ ds, 1 ≤ d) : 0 < ds.prod :=
  List.prod_pos fun d hd => Int.lt_of_lt_of_le Int.zero_lt_one (hds d hd)

/-- Fewer than `d` rows and part of another one stay below `d` rows. -/
theorem row_bounds {i q r : Int} (hi : 0 ≤ i ∧ i < d) (hr : 0 ≤ r ∧ r < q) :
    0 ≤ i * q + r ∧ i * q + r < d * q := by
  have hq : 0 ≤ q := hr.1.trans hr.2.le
  have hlow : 0 ≤ i * q := Int.mul_nonneg hi.1 hq
  have hhigh : (i + 1) * q ≤ d * q := Int.mul_le_mul_of_nonneg_right hi.2 hq
  rw [Int.add_mul, Int.one_mul] at hhigh
  omega

theorem ordinal_bounds (hds : ∀ d ∈ ds, 1 ≤ d) (h : Within ds is) :
    0 ≤ ordinal ds is ∧ ordinal ds is < ds.prod := by
  induction ds generalizing is with
  | nil => simp [ordinal]
  | cons d ds ih =>
    cases is with
    | nil => exact ⟨Int.le_refl 0, prod_pos hds⟩
    | cons i is =>
      rw [ordinal, List.prod_cons]
      exact row_bounds h.1 (ih (List.forall_mem_cons.mp hds).2 h.2)

/-- The indices follow from the number: the first is its quotient by the size of a row. -/
theorem ordinal_injOn (hds : ∀ d ∈ ds, 1 ≤ d) : Set.InjOn (ordinal ds) (tuples ds) := by
  induction ds with
  | nil =>
    rintro is ⟨-, his⟩ js ⟨-, hjs⟩ -
    rw [List.length_eq_zero_iff.mp his, List.length_eq_zero_iff.mp hjs]
  | cons d ds ih =>
    have hrest := (List.forall_mem_cons.mp hds).2
    rintro is ⟨his, hlen⟩ js ⟨hjs, hlen'⟩ heq
    obtain ⟨i, is, rfl⟩ := List.exists_cons_of_length_eq_add_one hlen
    obtain ⟨j, js, rfl⟩ := List.exists_cons_of_length_eq_add_one hlen'
    have hr := ordinal_bounds hrest his.2
    have hr' := ordinal_bounds hrest hjs.2
    have split : ∀ k r : Int, 0 ≤ r ∧ r < ds.prod →
        (k * ds.prod + r) / ds.prod = k ∧ (k * ds.prod + r) % ds.prod = r := by
      intro k r hr
      refine (Int.ediv_emod_unique (prod_pos hrest)).mpr ⟨?_, hr⟩
      ring
    simp only [ordinal] at heq
    have hi : i = j := by rw [← (split i _ hr).1, ← (split j _ hr').1, heq]
    have his' : ordinal ds is = ordinal ds js := by
      rw [← (split i _ hr).2, ← (split j _ hr').2, heq]
    rw [hi, ih hrest ⟨his.2, by simpa using hlen⟩ ⟨hjs.2, by simpa using hlen'⟩ his']

/-- Every number below the number of elements has indices. -/
theorem ordinal_surjOn (hds : ∀ d ∈ ds, 1 ≤ d) :
    Set.SurjOn (ordinal ds) (tuples ds) (Set.Ico 0 ds.prod) := by
  induction ds with
  | nil =>
    rintro n ⟨hfrom, hto⟩
    refine ⟨[], ⟨trivial, rfl⟩, ?_⟩
    rw [List.prod_nil] at hto
    rw [ordinal]
    omega
  | cons d ds ih =>
    have hrest := (List.forall_mem_cons.mp hds).2
    have hrow := prod_pos hrest
    rintro n ⟨hfrom, hto⟩
    obtain ⟨is, ⟨his, hlen⟩, hn⟩ :=
      ih hrest ⟨Int.emod_nonneg n hrow.ne', Int.emod_lt_of_pos n hrow⟩
    have hfirst : 0 ≤ n / ds.prod ∧ n / ds.prod < d :=
      ⟨Int.ediv_nonneg hfrom hrow.le, Int.ediv_lt_of_lt_mul hrow hto⟩
    refine ⟨n / ds.prod :: is, ⟨⟨hfirst, his⟩, congrArg (· + 1) hlen⟩, ?_⟩
    rw [ordinal, hn]
    exact Int.ediv_mul_add_emod n ds.prod

/-- **Every number below the number of elements belongs to one tuple of indices.** -/
theorem ordinal_bijOn (hds : ∀ d ∈ ds, 1 ≤ d) :
    Set.BijOn (ordinal ds) (tuples ds) (Set.Ico 0 ds.prod) :=
  ⟨fun _ h => ordinal_bounds hds h.1, ordinal_injOn hds, ordinal_surjOn hds⟩

/-- Zeros may stand for indices that are left out. -/
theorem within_append_zeros (hds : ∀ d ∈ ds, 1 ≤ d) (h : Within ds is) {n : Nat}
    (hn : is.length + n ≤ ds.length) : Within ds (is ++ List.replicate n 0) := by
  induction ds generalizing is n with
  | nil =>
    obtain ⟨his, rfl⟩ : is.length = 0 ∧ n = 0 := by simpa using hn
    rw [List.length_eq_zero_iff.mp his]
    trivial
  | cons d ds ih =>
    obtain ⟨hd, hrest⟩ := List.forall_mem_cons.mp hds
    cases is with
    | cons i is => exact ⟨h.1, ih hrest h.2 (by simp at hn; omega)⟩
    | nil =>
      cases n with
      | zero => trivial
      | succ n =>
        have hzero : (0 : Int) ≤ 0 ∧ 0 < d := ⟨Int.le_refl 0, by omega⟩
        exact ⟨hzero, ih hrest within_nil (by simp at hn ⊢; omega)⟩

theorem ordinal_append_zeros (ds is : List Int) (n : Nat) :
    ordinal ds (is ++ List.replicate n 0) = ordinal ds is := by
  induction ds generalizing is n with
  | nil => rfl
  | cons d ds ih =>
    cases is with
    | cons i is => simp [ordinal, ih]
    | nil =>
      cases n with
      | zero => rfl
      | succ n =>
        have hrest := ih [] n
        rw [List.nil_append] at hrest
        rw [List.nil_append, List.replicate_succ, ordinal, hrest]
        simp

/-! ## Positions in words -/

section
variable {env : Name → Option Int64} {shape indices : List Size}

/-- The number of elements under some of the extents is a word if that of all is. -/
theorem fits_prod_tail (hds : ∀ x ∈ d :: ds, 1 ≤ x) (h : Word.Fits (d :: ds).prod) :
    Word.Fits ds.prod := by
  obtain ⟨hd, hrest⟩ := List.forall_mem_cons.mp hds
  have hle : 1 * ds.prod ≤ d * ds.prod := Int.mul_le_mul_of_nonneg_right hd (prod_pos hrest).le
  rw [List.prod_cons] at h
  exact Word.fits_zero.between h (prod_pos hrest).le (by omega)

/-- A stride has the value of the product of the extents after it. -/
theorem hasValue_extent (hshape : List.Forall₂ (Size.HasValue env) shape ds) (hds : ∀ d ∈ ds, 1 ≤ d)
    (hfits : Word.Fits ds.prod) : (extent shape).HasValue env ds.prod := by
  induction hshape with
  | nil => exact ⟨1, rfl, rfl⟩
  | @cons s d shape ds hs _ ih =>
    have hrow := ih (List.forall_mem_cons.mp hds).2 (fits_prod_tail hds hfits)
    rw [List.prod_cons, Int.mul_comm] at hfits ⊢
    exact hrow.times hs hfits

/-- The product of the extents, from the left, has the value of their product. -/
theorem hasValue_product (hshape : List.Forall₂ (Size.HasValue env) shape ds)
    (hds : ∀ d ∈ ds, 1 ≤ d) (hfits : Word.Fits ds.prod) :
    (Size.product shape).HasValue env ds.prod := by
  -- By induction on the extents, for what was multiplied so far.
  have fold : ∀ (s : Size) (x : Int), s.HasValue env x → 1 ≤ x → Word.Fits (x * ds.prod) →
      (shape.foldl Size.times s).HasValue env (x * ds.prod) := by
    clear hfits
    induction hshape with
    | nil =>
      intro s x hs _ _
      rwa [List.prod_nil, Int.mul_one]
    | @cons s d shape ds hs _ ih =>
      obtain ⟨hd, hrest⟩ := List.forall_mem_cons.mp hds
      intro s₀ x hx hpos hfits
      rw [List.prod_cons, ← Int.mul_assoc] at hfits ⊢
      have hstep : 1 ≤ x * d := Int.mul_pos hpos hd
      have hle : x * d * 1 ≤ x * d * ds.prod :=
        Int.mul_le_mul_of_nonneg_left (prod_pos hrest) (by omega)
      have hnext : Word.Fits (x * d) := Word.fits_zero.between hfits (by omega) (by omega)
      exact ih hrest _ _ (hx.times hs hnext) hstep hfits
  have h := fold (.const 1) 1 ⟨1, rfl, rfl⟩ (Int.le_refl 1) (by rwa [Int.one_mul])
  rwa [Int.one_mul] at h

/-- **No sum on the way to a position leaves the array.** -/
theorem hasValue_positions {start : Size} {x : Int}
    (hshape : List.Forall₂ (Size.HasValue env) shape ds) (hds : ∀ d ∈ ds, 1 ≤ d)
    (hfits : Word.Fits ds.prod) (hindices : List.Forall₂ (Size.HasValue env) indices is)
    (his : Within ds is) (hstart : start.HasValue env x) (hend : Word.Fits (x + ds.prod)) :
    ((indices.zip (stridesOf shape)).foldl (fun acc (i, s) => acc.plus (i.times s)) start).HasValue
      env (x + ordinal ds is) := by
  induction hshape generalizing indices is start x with
  | nil => simpa [stridesOf, ordinal] using hstart
  | @cons s d shape ds _ hshape ih =>
    cases hindices with
    | nil => simpa [ordinal] using hstart
    | @cons index i indices is hindex hindices =>
      obtain ⟨⟨hi, hid⟩, hwithin⟩ := his
      have hrest := (List.forall_mem_cons.mp hds).2
      have htail := fits_prod_tail hds hfits
      have hrow := prod_pos hrest
      rw [List.prod_cons] at hfits hend
      -- The rows that are skipped, and the row that is entered, are rows of the array.
      have hskipped : 0 ≤ i * ds.prod := Int.mul_nonneg hi hrow.le
      have hentered : (i + 1) * ds.prod ≤ d * ds.prod :=
        Int.mul_le_mul_of_nonneg_right hid hrow.le
      rw [Int.add_mul, Int.one_mul] at hentered
      have hterm := hindex.times (hasValue_extent hshape hrest htail)
        (Word.fits_zero.between hfits hskipped (by omega))
      have hnext := hstart.plus hterm (hstart.fits.between hend (by omega) (by omega))
      have hrowEnd : Word.Fits (x + i * ds.prod + ds.prod) :=
        hstart.fits.between hend (by omega) (by omega)
      have h := ih hrest htail hindices hwithin hnext hrowEnd
      rwa [Int.add_assoc] at h

end

/-- **Row-major positions are one to one.**  Let the extents have values, none less than
one, and let the array begin at `c`, with as many elements that their number and the end of
the array are words.  Then the product of the extents is the number of elements; indices
inside the extents have a position, without any overflow; tuples with an index for each
extent are in one-to-one correspondence with the elements from `c` on; and leaving out
indices at the end is the same as giving zeros for them. -/
theorem rowMajor_positions {env : Name → Option Int64} {shape : List Size} {o : Size}
    {ds : List Int} {c : Int} (hshape : List.Forall₂ (Size.HasValue env) shape ds)
    (hds : ∀ d ∈ ds, 1 ≤ d) (ho : o.HasValue env c) (hcount : Word.Fits ds.prod)
    (hend : Word.Fits (c + ds.prod)) :
    (Size.product shape).HasValue env ds.prod ∧
      (∀ indices is, List.Forall₂ (Size.HasValue env) indices is → Within ds is →
        (((rowMajor shape).shift o).position indices).HasValue env (c + ordinal ds is)) ∧
      Set.BijOn (fun is => c + ordinal ds is) (tuples ds) (Set.Ico c (c + ds.prod)) ∧
      (∀ indices is zeros, List.Forall₂ (Size.HasValue env) indices is → Within ds is →
        (∀ z ∈ zeros, Size.HasValue env z 0) → indices.length + zeros.length = shape.length →
        (((rowMajor shape).shift o).position indices).eval env =
          (((rowMajor shape).shift o).position (indices ++ zeros)).eval env) := by
  have hoffset : ((Size.const 0).plus o).HasValue env c := by
    have hzero : (Size.const 0).HasValue env 0 := ⟨0, rfl, rfl⟩
    have h := hzero.plus ho (by rw [Int.zero_add]; exact ho.fits)
    rwa [Int.zero_add] at h
  have hposition : ∀ indices is, List.Forall₂ (Size.HasValue env) indices is → Within ds is →
      (((rowMajor shape).shift o).position indices).HasValue env (c + ordinal ds is) :=
    fun indices is hindices his =>
      hasValue_positions hshape hds hcount hindices his hoffset hend
  refine ⟨hasValue_product hshape hds hcount, hposition, ?_, ?_⟩
  · have hshift : Set.BijOn (fun n => c + n) (Set.Ico 0 ds.prod) (Set.Ico c (c + ds.prod)) := by
      refine ⟨fun n hn => ?_, fun m _ n _ hmn => Int.add_left_cancel hmn, fun n hn => ?_⟩
      · exact ⟨Int.le_add_of_nonneg_right hn.1, Int.add_lt_add_left hn.2 c⟩
      · exact ⟨n - c, ⟨Int.sub_nonneg_of_le hn.1, by have := hn.2; omega⟩, by simp⟩
    exact hshift.comp (ordinal_bijOn hds)
  · intro indices is zeros hindices his hzeros hlength
    have hvalues : List.Forall₂ (Size.HasValue env) zeros (List.replicate zeros.length 0) := by
      clear hlength
      induction zeros with
      | nil => exact .nil
      | cons z zeros ih =>
        obtain ⟨hz, hzeros⟩ := List.forall_mem_cons.mp hzeros
        exact .cons hz (ih hzeros)
    have hroom : is.length + zeros.length ≤ ds.length := by
      rw [← hindices.length_eq, ← hshape.length_eq, hlength]
    have hlong := hposition _ _ (List.rel_append hindices hvalues)
      (within_append_zeros hds his hroom)
    rw [ordinal_append_zeros] at hlong
    exact (hposition indices is hindices his).eval_eq hlong

/-- Three dimensions, of which one is known beforehand. -/
def threeDims : List Size := [.var ⟨"n", 0⟩, .const 3, .var ⟨"m", 1⟩]

/-- Two by three by four elements, from the fifth on. -/
def fromFifth (x : Name) : Option Int64 :=
  if x = ⟨"n", 0⟩ then some 2 else if x = ⟨"m", 1⟩ then some 4
  else if x = ⟨"off", 2⟩ then some 5 else none

theorem rowMajor_positions_threeDims :
    let l := (rowMajor threeDims).shift (.var ⟨"off", 2⟩)
    (Size.product threeDims).HasValue fromFifth 24 ∧
      (l.position [.const 1, .var ⟨"n", 0⟩, .const 2]).HasValue fromFifth 27 ∧
      Set.BijOn (fun is => 5 + ordinal [2, 3, 4] is) (tuples [2, 3, 4]) (Set.Ico 5 29) ∧
      (l.position [.const 1]).eval fromFifth =
        (l.position [.const 1, .const 0, .const 0]).eval fromFifth := by
  have hshape : List.Forall₂ (Size.HasValue fromFifth) threeDims [2, 3, 4] :=
    .cons ⟨2, rfl, rfl⟩ (.cons ⟨3, rfl, rfl⟩ (.cons ⟨4, rfl, rfl⟩ .nil))
  have hoffset : (Size.var ⟨"off", 2⟩).HasValue fromFifth 5 := ⟨5, rfl, rfl⟩
  have hone : (Size.const 1).HasValue fromFifth 1 := ⟨1, rfl, rfl⟩
  have htwo : (Size.const 2).HasValue fromFifth 2 := ⟨2, rfl, rfl⟩
  have hn : (Size.var ⟨"n", 0⟩).HasValue fromFifth 2 := ⟨2, rfl, rfl⟩
  obtain ⟨hcount, hposition, hbij, hleftOut⟩ :=
    rowMajor_positions hshape (by decide) hoffset ⟨24, rfl⟩ ⟨29, rfl⟩
  refine ⟨hcount, ?_, hbij, ?_⟩
  · exact hposition _ [1, 2, 2] (.cons hone (.cons hn (.cons htwo .nil)))
      ⟨by decide, by decide, by decide, trivial⟩
  · have hzero : ∀ z ∈ [Size.const 0, Size.const 0], Size.HasValue fromFifth z 0 := by
      intro z hz
      obtain rfl : z = .const 0 := by simpa using hz
      exact ⟨0, rfl, rfl⟩
    exact hleftOut _ [1] _ (.cons hone .nil) ⟨by decide, trivial⟩ hzero rfl

end Layout

end KernelGen
