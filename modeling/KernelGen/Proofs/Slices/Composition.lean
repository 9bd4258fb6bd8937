import KernelGen.Proofs.Context.FirstOccurrence
import KernelGen.Proofs.Program.Correspondence
import KernelGen.Proofs.Size.Words
import KernelGen.Proofs.Slices.Shift
import Mathlib.Algebra.BigOperators.Group.List.Basic

/-! # Shifts in a row

A shift adds to the offset of every layout in some blocks, and sizes simplify as they are
added.  So two orders of the same shifts leave offsets of different form, and equality is the
wrong thing to ask for where two shifts move the same block.  What does not depend on the
order is the exact position of every element, and with it the word that is computed wherever
one is (`Placement.SamePositions`).

Shifts of different blocks do not meet: they are one shift (`Body.offsetBy_union`), and one
that moves no block of the program is none (`Body.offsetBy_of_foreign`).
`offsetBy_composes` puts this together for any number of shifts. -/
namespace KernelGen

/-! ## Two maps in one -/

namespace OrderedMap
variable {κ α : Type} [DecidableEq κ]

/-- The pairs of both maps; where both have a key, those of the second. -/
def union (m m' : OrderedMap κ α) : OrderedMap κ α := .ofList (m.entries ++ m'.entries)

theorem foldl_insert_get? (es : List (κ × α)) (h : (es.map Prod.fst).Nodup)
    (m : OrderedMap κ α) (k : κ) :
    (es.foldl (fun m q => m.insert q.1 q.2) m).get? k = (lookup k es).or (m.get? k) := by
  induction es generalizing m with
  | nil => rfl
  | cons q es ih =>
    obtain ⟨hq, hes⟩ := List.nodup_cons.mp h
    rw [List.foldl_cons, ih hes, get?_insert, lookup]
    by_cases hk : q.1 = k
    · have hnone : lookup k es = none := lookup_eq_none_iff.mpr (hk ▸ hq)
      rw [if_pos hk, if_pos hk, hnone, Option.none_or, Option.some_or]
    · rw [if_neg hk, if_neg hk]

theorem get?_union (m m' : OrderedMap κ α) (k : κ) :
    (m.union m').get? k = (m'.get? k).or (m.get? k) := by
  rw [union, ofList, List.foldl_append, foldl_insert_get? m'.entries m'.nodup,
    foldl_insert_get? m.entries m.nodup, get?_empty, Option.or_none]
  rfl

/-- Where no key is in both maps, it does not matter which of them is asked first. -/
theorem get?_or_of_disjoint {m m' : OrderedMap κ α} (h : ∀ k ∈ m.keys, k ∉ m'.keys) (k : κ) :
    (m.get? k).or (m'.get? k) = (m'.get? k).or (m.get? k) := by
  by_cases hk : k ∈ m.keys
  · rw [get?_eq_none_iff.mpr (h k hk), Option.none_or, Option.or_none]
  · rw [get?_eq_none_iff.mpr hk, Option.none_or, Option.or_none]

end OrderedMap

/-! ## Placements -/

/-- By how much the layouts in a block are shifted, as an exact integer. -/
def BlockOffsets.distance (offsets : BlockOffsets) (block : Name) (env : Name → Int) : Int :=
  ((offsets.get? block).map (Size.value env)).getD 0

namespace Placement
variable {p q r : Placement}

theorem value_position_offsetBy (offsets : BlockOffsets) (p : Placement) (env : Name → Int)
    (indices : List Size) :
    ((p.offsetBy offsets).layout.position indices).value env =
      (p.layout.position indices).value env + offsets.distance p.block env := by
  cases h : offsets.get? p.block with
  | none => simp [offsetBy_of_none h, BlockOffsets.distance, h]
  | some d => simp [offsetBy_of_some h, BlockOffsets.distance, h, Layout.value_position_shift]

/-- `q` is `p` with another offset: the shifts have moved each position by the sum of the
distances for its block. -/
structure MovedBy (shifts : List BlockOffsets) (p q : Placement) : Prop where
  block : q.block = p.block
  shape : q.layout.shape = p.layout.shape
  position : ∀ env indices, (q.layout.position indices).value env =
    (p.layout.position indices).value env + (shifts.map (·.distance p.block env)).sum

/-- Placements that differ in the form of their offsets only: each position is the same
integer, and the same word if both sides compute one. -/
structure SamePositions (p q : Placement) : Prop where
  block : q.block = p.block
  shape : q.layout.shape = p.layout.shape
  value : ∀ env indices,
    (q.layout.position indices).value env = (p.layout.position indices).value env
  eval : ∀ env indices v w, (p.layout.position indices).eval env = some v →
    (q.layout.position indices).eval env = some w → v = w

/-- Shift after shift. -/
def offsetByAll (shifts : List BlockOffsets) (p : Placement) : Placement :=
  shifts.foldl (fun p offsets => p.offsetBy offsets) p

theorem movedBy_offsetByAll (shifts : List BlockOffsets) (p : Placement) :
    MovedBy shifts p (p.offsetByAll shifts) := by
  induction shifts generalizing p with
  | nil => exact ⟨rfl, rfl, fun env indices => (Int.add_zero _).symm⟩
  | cons offsets shifts ih =>
    obtain ⟨hblock, hshape, hposition⟩ := ih (p.offsetBy offsets)
    refine ⟨hblock.trans (block_offsetBy ..), hshape.trans (shape_offsetBy ..), ?_⟩
    intro env indices
    have hrest := hposition env indices
    rw [value_position_offsetBy, block_offsetBy] at hrest
    rw [List.map_cons, List.sum_cons, ← Int.add_assoc]
    exact hrest

end Placement

/-- The word that a size has is the exact integer, under the same values of variables. -/
theorem Size.toInt_of_eval {s : Size} {env : Name → Option Int64} {v : Int64}
    (h : s.eval env = some v) :
    s.value (fun x => ((env x).map Int64.toInt).getD 0) = v.toInt := by
  induction s generalizing v with
  | const n => exact congrArg Int64.toInt (Option.some.inj h)
  | var x =>
    have hx : env x = some v := h
    simp [value, hx]
  | add a b iha ihb =>
    obtain ⟨x, y, ha, hb, hsum⟩ := eval_add_eq_some.mp h
    rw [value, iha ha, ihb hb, hsum]
  | mul a b iha ihb =>
    obtain ⟨x, y, ha, hb, hprod⟩ := eval_mul_eq_some.mp h
    rw [value, iha ha, ihb hb, hprod]

/-- Sizes that are the same integer are the same word where both are words. -/
theorem Size.eq_of_eval_of_value_eq {s t : Size} {env : Name → Option Int64} {v w : Int64}
    (hvalue : ∀ env, s.value env = t.value env) (hs : s.eval env = some v)
    (ht : t.eval env = some w) : v = w := by
  apply Int64.toInt_inj.mp
  rw [← toInt_of_eval hs, ← toInt_of_eval ht]
  exact hvalue _

namespace Placement

/-- **The order of shifts is not seen in positions.** -/
theorem samePositions_offsetByAll {shifts shifts' : List BlockOffsets} (h : shifts.Perm shifts')
    (p : Placement) : SamePositions (p.offsetByAll shifts) (p.offsetByAll shifts') := by
  have hleft := movedBy_offsetByAll shifts p
  have hright := movedBy_offsetByAll shifts' p
  have hvalue : ∀ env indices, ((p.offsetByAll shifts').layout.position indices).value env =
      ((p.offsetByAll shifts).layout.position indices).value env := by
    intro env indices
    have hsum := (h.map (·.distance p.block env)).sum_eq
    rw [hleft.position, hright.position, hsum]
  refine ⟨hright.block.trans hleft.block.symm, hright.shape.trans hleft.shape.symm, hvalue, ?_⟩
  intro env indices v w hv hw
  exact Size.eq_of_eval_of_value_eq (fun env => (hvalue env indices).symm) hv hw

/-- Where no block is in both maps, one shift by both is a shift by one after the other. -/
theorem offsetBy_union {o o' : BlockOffsets} (h : ∀ m ∈ o.keys, m ∉ o'.keys) (p : Placement) :
    (p.offsetBy o).offsetBy o' = p.offsetBy (o.union o') := by
  by_cases hp : p.block ∈ o.keys
  · have hnone : o'.get? (p.offsetBy o).block = none := by
      rw [block_offsetBy]
      exact OrderedMap.get?_eq_none_iff.mpr (h _ hp)
    rw [offsetBy_of_none hnone]
    simp only [offsetBy, OrderedMap.get?_union]
    rw [block_offsetBy] at hnone
    rw [hnone, Option.none_or]
  · have hnone : o.get? p.block = none := OrderedMap.get?_eq_none_iff.mpr hp
    rw [offsetBy_of_none hnone]
    simp only [offsetBy, OrderedMap.get?_union, hnone, Option.or_none]

end Placement

/-! ## Bodies -/

namespace Body

/-- Shift after shift. -/
def offsetByAll (shifts : List BlockOffsets) (b : Body) : Body :=
  shifts.foldl (fun b offsets => b.offsetBy offsets) b

/-- Every placement is shifted by all of them. -/
theorem offsetByAll_eq_rewrite (shifts : List BlockOffsets) (b : Body) :
    b.offsetByAll shifts = b.rewrite (·.offsetByAll shifts) id := by
  induction shifts generalizing b with
  | nil => exact b.rewrite_id.symm
  | cons offsets shifts ih => exact (ih (b.offsetBy offsets)).trans b.rewrite_comp

/-- Shifts of different blocks are one shift. -/
theorem offsetBy_union {o o' : BlockOffsets} (h : ∀ m ∈ o.keys, m ∉ o'.keys) (b : Body) :
    (b.offsetBy o).offsetBy o' = b.offsetBy (o.union o') :=
  b.rewrite_comp.trans (rewrite_congr fun p _ => p.offsetBy_union h)

/-- Where no block is in both maps, their union in the other order shifts by the same. -/
theorem offsetBy_union_comm {o o' : BlockOffsets} (h : ∀ m ∈ o.keys, m ∉ o'.keys) (b : Body) :
    b.offsetBy (o'.union o) = b.offsetBy (o.union o') := by
  refine rewrite_congr fun p _ => ?_
  simp only [Placement.offsetBy, OrderedMap.get?_union, OrderedMap.get?_or_of_disjoint h]

/-- A shift of blocks that the body does not have leaves the body as it is. -/
theorem offsetBy_of_foreign {o : BlockOffsets} {b : Body}
    (h : ∀ p ∈ b.placements, p.block ∉ o.keys) :
    b.offsetBy o = b := by
  refine Eq.trans ?_ b.rewrite_id
  exact rewrite_congr fun p hp =>
    Placement.offsetBy_of_none (OrderedMap.get?_eq_none_iff.mpr (h p hp))

end Body

/-- **Shifts compose.**  Shifts of different blocks are, in either order, one shift; a shift
of blocks that the body does not have is none.  Shifts of any blocks in a row change nothing
but offsets, and move each position by the sum of the distances for its block; so another
order has the same positions. -/
theorem offsetBy_composes (b : Body) :
    (∀ o o' : BlockOffsets, (∀ m ∈ o.keys, m ∉ o'.keys) →
      (b.offsetBy o).offsetBy o' = b.offsetBy (o.union o') ∧
        (b.offsetBy o').offsetBy o = b.offsetBy (o.union o')) ∧
    (∀ o : BlockOffsets, (∀ p ∈ b.placements, p.block ∉ o.keys) → b.offsetBy o = b) ∧
    (∀ shifts, b.Corresponds (Placement.MovedBy shifts) (· = ·) (b.offsetByAll shifts)) ∧
    ∀ shifts shifts' : List BlockOffsets, shifts.Perm shifts' →
      (b.offsetByAll shifts).Corresponds Placement.SamePositions (· = ·)
        (b.offsetByAll shifts') := by
  refine ⟨?disjoint, fun o => Body.offsetBy_of_foreign, ?moved, ?order⟩
  case disjoint =>
    intro o o' h
    have h' : ∀ m ∈ o'.keys, m ∉ o.keys := fun m hm' hm => h m hm hm'
    exact ⟨b.offsetBy_union h, (b.offsetBy_union h').trans (b.offsetBy_union_comm h)⟩
  case moved =>
    intro shifts
    rw [Body.offsetByAll_eq_rewrite]
    exact Body.corresponds_rewrite (fun _ => rfl)
      fun p _ => Placement.movedBy_offsetByAll shifts p
  case order =>
    intro shifts shifts' h
    rw [Body.offsetByAll_eq_rewrite, Body.offsetByAll_eq_rewrite]
    exact Body.corresponds_rewrite_rewrite (fun _ => rfl)
      fun p _ => Placement.samePositions_offsetByAll h p

/-- A loop around a map: what the loop carries lives in `row_mem`, the row of each thread in
`tmp_mem`. -/
def mapInLoop : Body :=
  let row (x : Name) : Binder := ⟨x, .array .i64, some ⟨⟨"row_mem", 1⟩, .rowMajor [.const 8]⟩⟩
  let tmp (x : Name) : Binder := ⟨x, .array .i64, some ⟨⟨"tmp_mem", 2⟩, .rowMajor [.const 8]⟩⟩
  let perThread : Lambda :=
    ⟨[⟨⟨"x", 3⟩, .i64, none⟩],
      ⟨[⟨[tmp ⟨"t", 4⟩], .scratch .i64 [.const (.int 8)]⟩], [.var ⟨"x", 3⟩]⟩, [.i64]⟩
  { stms := [⟨[row ⟨"out", 5⟩],
      .loop [(row ⟨"acc", 6⟩, .var ⟨"init", 0⟩)] ⟨"i", 7⟩ (.const (.int 4))
        ⟨[⟨[row ⟨"next", 8⟩], .map perThread [⟨"acc", 6⟩]⟩], [.var ⟨"next", 8⟩]⟩⟩]
    result := [.var ⟨"out", 5⟩] }

/-- Two shifts of rows and one of what threads keep for themselves.  The two of rows stand in
the sum in the order in which they come. -/
theorem offsetBy_composes_mapInLoop :
    let byThread : BlockOffsets := .ofList [(⟨"row_mem", 1⟩, .var ⟨"tid", 9⟩)]
    let byStart : BlockOffsets := .ofList [(⟨"row_mem", 1⟩, .var ⟨"start", 10⟩)]
    let ofTmp : BlockOffsets := .ofList [(⟨"tmp_mem", 2⟩, .const 16)]
    let elsewhere : BlockOffsets := .ofList [(⟨"out_mem", 11⟩, .const 16)]
    ((mapInLoop.offsetBy byThread).offsetBy ofTmp = mapInLoop.offsetBy (byThread.union ofTmp) ∧
      (mapInLoop.offsetBy ofTmp).offsetBy byThread = mapInLoop.offsetBy (byThread.union ofTmp)) ∧
    mapInLoop.offsetBy elsewhere = mapInLoop ∧
    (mapInLoop.offsetByAll [byThread, byStart]).Corresponds Placement.SamePositions (· = ·)
      (mapInLoop.offsetByAll [byStart, byThread]) ∧
    (mapInLoop.offsetByAll [byThread, byStart]).placements ≠
      (mapInLoop.offsetByAll [byStart, byThread]).placements := by
  intro byThread byStart ofTmp elsewhere
  obtain ⟨disjoint, foreign, -, order⟩ := offsetBy_composes mapInLoop
  refine ⟨disjoint byThread ofTmp (by decide), foreign elsewhere (by decide), ?_, by decide⟩
  exact order [byThread, byStart] [byStart, byThread] (.swap ..)

end KernelGen
