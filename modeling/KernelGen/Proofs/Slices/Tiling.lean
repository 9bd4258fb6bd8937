import Mathlib
import KernelGen.Kernel.Allocations
import KernelGen.Proofs.Size.Words

/-! # The slices of a shared block tile it

A block that serves `n` threads, `s` elements each, has `n * s` elements, and thread `t`
owns those from `t * s` on (`slice`).  The slices are disjoint, each begins where the one
before it ends, and together they are the block (`Tiling`).

That is arithmetic of integers.  What the two maps hold are symbolic sizes, built by a
simplifying product from factors in opposite order and evaluated in words, where a
product may be too large.  A simplified product has the value of the plain one, or no
value where that has none (`Size.eval_times`).  So when the block itself has a size,
every slice in it has a beginning: it is between 0 and that size. -/
namespace KernelGen

/-! ## Slices of an interval -/

/-- The elements of thread `t` when every thread has `size` elements. -/
def slice (size t : Int) : Set Int := Set.Ico (t * size) ((t + 1) * size)

/-- Slices of `size` elements for `count` threads, and a block of `total` elements. -/
structure Tiling (size count total : Int) : Prop where
  /-- No element belongs to two threads. -/
  disjoint : (Set.Ico 0 count).PairwiseDisjoint (slice size)
  /-- Where a slice ends, the next one begins. -/
  consecutive : ∀ t, slice size t ∪ slice size (t + 1) = Set.Ico (t * size) ((t + 2) * size)
  /-- No thread leaves the block. -/
  within : ∀ t, 0 ≤ t → t < count → slice size t ⊆ Set.Ico 0 total
  /-- Every element of the block belongs to some thread. -/
  covers : Set.Ico 0 total ⊆ ⋃ t ∈ Set.Ico 0 count, slice size t

namespace slice
variable {size count : Int}

/-- A slice ends before a later one begins. -/
theorem mul_le_of_lt (hsize : 0 ≤ size) {t t' : Int} (h : t < t') :
    (t + 1) * size ≤ t' * size :=
  Int.mul_le_mul_of_nonneg_right h hsize

theorem disjoint_of_lt (hsize : 0 ≤ size) {t t' : Int} (h : t < t') :
    Disjoint (slice size t) (slice size t') := by
  rw [Set.disjoint_left]
  intro i hi hi'
  have hnext := mul_le_of_lt hsize h
  exact absurd (hi.2.trans_le hnext) (not_lt_of_ge hi'.1)

/-- The element `i` belongs to thread `i / size`. -/
theorem mem_ediv (hsize : 0 < size) (i : Int) : i ∈ slice size (i / size) := by
  constructor
  · exact Int.ediv_mul_le i hsize.ne'
  · exact Int.lt_ediv_add_one_mul_self i hsize

/-- **The slices of all threads tile their common block.** -/
theorem tiling (hsize : 0 ≤ size) : Tiling size count (count * size) where
  disjoint t _ t' _ hne := by
    rcases Int.lt_or_gt_of_ne hne with h | h
    · exact disjoint_of_lt hsize h
    · exact (disjoint_of_lt hsize h).symm
  consecutive t := by
    have hle : ∀ t : Int, t * size ≤ (t + 1) * size := fun t =>
      Int.mul_le_mul_of_nonneg_right (by omega) hsize
    rw [slice, slice, Set.Ico_union_Ico_eq_Ico (hle t) (hle (t + 1)), add_assoc]
    rfl
  within t hfrom hto := by
    have hbegin : 0 ≤ t * size := Int.mul_nonneg hfrom hsize
    exact Set.Ico_subset_Ico hbegin (mul_le_of_lt hsize hto)
  covers i hi := by
    -- A block with an element has slices with one, so that the division makes sense.
    have hpos : 0 < size := by
      rcases hsize.lt_or_eq with h | rfl
      · exact h
      · exact absurd (hi.1.trans_lt hi.2) (by simp)
    refine Set.mem_biUnion ⟨?_, ?_⟩ (mem_ediv hpos i)
    · exact Int.ediv_nonneg hi.1 hsize
    · exact Int.ediv_lt_of_lt_mul hpos hi.2

end slice

/-! ## Slices of hoisted blocks -/

/-- **The beginning of a slice is a word.**  It lies between 0 and the size of the block
for all threads, so that no thread's product is too large if that of all threads is not. -/
theorem eval_sliceOffset {env : Name → Option Int64} {size : Size} {thread : Name}
    {s n total t : Int64} (hthread : thread ∉ size.occurrences) (hsize : size.eval env = some s)
    (hs : 0 ≤ s.toInt) (htotal : total.toInt = n.toInt * s.toInt) (ht : 0 ≤ t.toInt)
    (htn : t.toInt < n.toInt) :
    ∃ w : Int64,
      ((Size.var thread).times size).eval (Function.update env thread (some t)) = some w ∧
        w.toInt = t.toInt * s.toInt := by
  have hvar : (Size.var thread).eval (Function.update env thread (some t)) = some t := by
    rw [Size.eval, Function.update_self]
  have hsize' := (Size.eval_update hthread (some t)).trans hsize
  rw [Size.eval_times hvar hsize', Word.mul?, Word.ofInt?]
  have hbegin : 0 ≤ t.toInt * s.toInt := Int.mul_nonneg ht hs
  have hend : t.toInt * s.toInt ≤ total.toInt :=
    htotal ▸ Int.mul_le_mul_of_nonneg_right htn.le hs
  have hfits := hend.trans total.toInt_le
  have hmin : Int64.minValue.toInt ≤ 0 := by decide
  refine ⟨_, if_pos ⟨hmin.trans hbegin, hfits⟩, ?_⟩
  exact Int64.toInt_ofInt_of_le (hmin.trans hbegin) (Int.lt_add_one_of_le hfits)

/-- **Hoisted blocks are tiled by the slices of their threads.**  The two maps have the
blocks in the order in which they were allocated.  Where the size of the block for all
threads has a value, the number of threads and the size for one thread do, and the latter
is not negative, the block is as large as the slices together, every thread's beginning
has a value, and the slices tile the block. -/
theorem slices_tile (blocks : BlockSizes) (threads : Size) (thread : Name)
    (env : Name → Option Int64) :
    (blocks.scale threads).keys = blocks.keys ∧ (blocks.sliceOffsets thread).keys = blocks.keys ∧
      ∀ block size scaled offset, blocks.get? block = some size →
        (blocks.scale threads).get? block = some scaled →
        (blocks.sliceOffsets thread).get? block = some offset → thread ∉ size.occurrences →
        ∀ total n s, scaled.eval env = some total → threads.eval env = some n →
          size.eval env = some s → 0 ≤ s.toInt →
          total.toInt = n.toInt * s.toInt ∧
            (∀ t : Int64, 0 ≤ t.toInt → t.toInt < n.toInt →
              ∃ w : Int64, offset.eval (Function.update env thread (some t)) = some w ∧
                w.toInt = t.toInt * s.toInt) ∧
            Tiling s.toInt n.toInt total.toInt := by
  refine ⟨OrderedMap.keys_map .., OrderedMap.keys_map .., ?_⟩
  intro block size scaled offset hblock hscaled hoffset hthread total n s htotal hn hs hpos
  obtain rfl : size.times threads = scaled := by
    simpa [BlockSizes.scale, hblock] using hscaled
  obtain rfl : (Size.var thread).times size = offset := by
    simpa [BlockSizes.sliceOffsets, hblock] using hoffset
  have hproduct : total.toInt = n.toInt * s.toInt :=
    (Size.toInt_of_eval_times hs hn htotal).trans (Int.mul_comm ..)
  refine ⟨hproduct, ?_, ?_⟩
  · exact fun t ht htn => eval_sliceOffset hthread hs hpos hproduct ht htn
  · exact hproduct ▸ slice.tiling hpos

/-- A block whose size is known at run time only, and one of three elements. -/
def twoBlocks : BlockSizes := .ofList [(⟨"tmp", 0⟩, .var ⟨"m", 1⟩), (⟨"acc", 2⟩, .const 3)]

/-- Six elements for each of four threads. -/
def sixByFour (x : Name) : Option Int64 :=
  if x = ⟨"m", 1⟩ then some 6 else if x = ⟨"n", 3⟩ then some 4 else none

theorem slices_tile_sixByFour :
    (∀ t : Int64, 0 ≤ t.toInt → t.toInt < 4 →
      ∃ w : Int64, ((Size.var ⟨"i", 4⟩).times (.var ⟨"m", 1⟩)).eval
        (Function.update sixByFour ⟨"i", 4⟩ (some t)) = some w ∧ w.toInt = t.toInt * 6) ∧
      Tiling 6 4 24 :=
  ((slices_tile twoBlocks (.var ⟨"n", 3⟩) ⟨"i", 4⟩ sixByFour).2.2 ⟨"tmp", 0⟩ (.var ⟨"m", 1⟩) _ _
    rfl rfl rfl (by decide) 24 4 6 rfl rfl rfl (by decide)).2

end KernelGen
