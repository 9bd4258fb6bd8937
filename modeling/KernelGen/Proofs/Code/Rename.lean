import KernelGen.Code.Basic
import KernelGen.Proofs.Size.Occurrences

/-! # Renaming code, and moving it between spaces

`Code.rename` replaces every name in a piece of code by its image; `Code.inSpace` puts
every read and write into one space.  A renaming leaves a size alone if it leaves its
variables alone (`Size.rename_eq_self`), and it commutes with the simplifying
constructors, which look at constants only.  So the position of an element under a layout
that is left alone is renamed by renaming the indices (`Layout.rename_position`).  To keep
all names is to keep the code (`Code.rename_id`). -/
namespace KernelGen
variable (ρ : Name → Name)

/-! ## Sizes and expressions -/

/-- The size over the images of its variables. -/
def Size.rename : Size → Size
  | const n => const n
  | var x => var (ρ x)
  | add a b => add a.rename b.rename
  | mul a b => mul a.rename b.rename

/-- The expression over the images of its variables. -/
def Expr.rename : Expr → Expr
  | const c => const c
  | var x => var (ρ x)
  | apply op lhs rhs => apply op lhs.rename rhs.rename

namespace Size
variable {ρ}

theorem rename_eq_self {s : Size} (h : ∀ x ∈ s.occurrences, ρ x = x) : s.rename ρ = s := by
  induction s with
  | const n => rfl
  | var x => rw [rename, h x (List.mem_cons_self ..)]
  | add a b iha ihb | mul a b iha ihb =>
    simp only [occurrences, List.forall_mem_append] at h
    rw [rename, iha h.1, ihb h.2]

/-- Renamings that keep names apart keep sizes apart. -/
theorem rename_injective {R : Name → Prop} (h : ∀ x y, R x → R y → ρ x = ρ y → x = y)
    {s s' : Size} (hs : ∀ x ∈ s.occurrences, R x) (hs' : ∀ x ∈ s'.occurrences, R x)
    (he : s.rename ρ = s'.rename ρ) : s = s' := by
  induction s generalizing s' with
  | const n => cases s' <;> simp_all [rename]
  | var x =>
    cases s' <;> simp only [rename, reduceCtorEq, var.injEq] at he
    exact congrArg var (h _ _ (hs _ (List.mem_cons_self ..)) (hs' _ (List.mem_cons_self ..)) he)
  | add a b iha ihb =>
    cases s' <;> simp only [rename, reduceCtorEq, add.injEq] at he
    simp only [occurrences, List.forall_mem_append] at hs hs'
    rw [iha hs.1 hs'.1 he.1, ihb hs.2 hs'.2 he.2]
  | mul a b iha ihb =>
    cases s' <;> simp only [rename, reduceCtorEq, mul.injEq] at he
    simp only [occurrences, List.forall_mem_append] at hs hs'
    rw [iha hs.1 hs'.1 he.1, ihb hs.2 hs'.2 he.2]

variable (ρ)

theorem rename_plusConst (a : Size) (y : Int64) :
    (a.plusConst y).rename ρ = (a.rename ρ).plusConst y := by
  fun_induction plusConst a y with
  | case1 y x s h | case2 y x h => simp [rename, plusConst, h]
  | case3 l x => simp [rename, plusConst]
  | case4 y l x h s hs ih => simp [rename, plusConst, h, hs, ih]
  | case5 y l x h hs => simp [rename, plusConst, h, hs]
  | case6 a hconst hsum | case7 a y hconst hsum h =>
    match a with
    | const n => exact absurd rfl (hconst n)
    | add l (const x) => exact absurd rfl (hsum l x)
    | var x | mul l r | add l (var x) | add l (add _ _) | add l (mul _ _) =>
      simp_all [rename, plusConst]

theorem rename_plus (a b : Size) : (a.plus b).rename ρ = (a.rename ρ).plus (b.rename ρ) := by
  match a, b with
  | a, const y => cases a <;> exact rename_plusConst ρ _ y
  | const x, var y => exact rename_plusConst ρ (var y) x
  | const x, add l r => exact rename_plusConst ρ (add l r) x
  | const x, mul l r => exact rename_plusConst ρ (mul l r) x
  | var _, var _ | var _, add _ _ | var _, mul _ _ => rfl
  | add _ _, var _ | add _ _, add _ _ | add _ _, mul _ _ => rfl
  | mul _ _, var _ | mul _ _, add _ _ | mul _ _, mul _ _ => rfl

theorem rename_times (a b : Size) : (a.times b).rename ρ = (a.rename ρ).times (b.rename ρ) := by
  fun_cases times a b with
  | case1 x y p h | case2 x y h => simp [rename, times, h]
  | case3 b hb | case4 b hb _ | case5 x b hb _ _ => cases b <;> simp_all [rename, times]
  | case6 a ha | case7 a ha _ | case8 a y ha _ _ => cases a <;> simp_all [rename, times]
  | case9 a b _ _ _ => cases a <;> cases b <;> simp_all [rename, times]

end Size

/-- The sum of indices times strides, where the strides are left alone. -/
theorem rename_foldl_strides {strides : List Size} (hs : ∀ s ∈ strides, s.rename ρ = s)
    (indices : List Size) (start : Size) :
    ((indices.zip strides).foldl (fun acc (i, s) => acc.plus (i.times s)) start).rename ρ =
      ((indices.map (Size.rename ρ)).zip strides).foldl
        (fun acc (i, s) => acc.plus (i.times s)) (start.rename ρ) := by
  induction strides generalizing indices start with
  | nil => simp
  | cons s strides ih =>
    cases indices with
    | nil => rfl
    | cons i indices =>
      rw [List.forall_mem_cons] at hs
      simp only [List.map_cons, List.zip_cons_cons, List.foldl_cons]
      rw [ih hs.2, Size.rename_plus, Size.rename_times, hs.1]

/-- **A position is renamed in its indices** if the layout is left alone. -/
theorem Layout.rename_position {l : Layout} (h : ∀ x ∈ l.occurrences, ρ x = x)
    (indices : List Size) :
    (l.position indices).rename ρ = l.position (indices.map (Size.rename ρ)) := by
  simp only [occurrences, List.forall_mem_append] at h
  obtain ⟨hoffset, hrest⟩ := h
  have hstrides : ∀ s ∈ l.strides, s.rename ρ = s := by
    intro s hs
    refine Size.rename_eq_self fun x hx => hrest x (List.mem_flatMap.mpr ⟨s, ?_, hx⟩)
    exact List.mem_append.mpr (.inr hs)
  have hposition := rename_foldl_strides ρ hstrides indices l.offset
  rw [Size.rename_eq_self hoffset] at hposition
  exact hposition

namespace Expr
variable {ρ}

theorem rename_ofOperand {a : Operand} (h : ∀ x ∈ a.occurrences, ρ x = x) :
    (ofOperand a).rename ρ = ofOperand a := by
  cases a with
  | const c => rfl
  | var x => rw [ofOperand, rename, h x (List.mem_cons_self ..)]

theorem rename_ofSize (s : Size) : (ofSize s).rename ρ = ofSize (s.rename ρ) := by
  induction s with
  | const n | var x => rfl
  | add a b iha ihb | mul a b iha ihb => rw [ofSize, rename, iha, ihb]; rfl

end Expr

/-! ## Code -/

/-- The transfer of the image. -/
def Transfer.rename : Transfer → Transfer
  | block x size => block (ρ x) (size.rename ρ)
  | scalar x ty => scalar (ρ x) ty

mutual

/-- The kernel over the images of its names. -/
def Kernel.rename : Kernel → Kernel
  | ⟨thread, threads, copyIn, copyOut, body⟩ =>
    ⟨ρ thread, threads.rename ρ, copyIn.map (Transfer.rename ρ), copyOut.map (Transfer.rename ρ),
      Code.rename body⟩

/-- The statement over the images of its names. -/
def Stmt.rename : Stmt → Stmt
  | .declareScalar x ty => .declareScalar (ρ x) ty
  | .declareBlock x space => .declareBlock (ρ x) space
  | .allocate x size space => .allocate (ρ x) (size.rename ρ) space
  | .set x e => .set (ρ x) (e.rename ρ)
  | .read x b i ty space => .read (ρ x) (ρ b) (i.rename ρ) ty space
  | .write b i ty space e => .write (ρ b) (i.rename ρ) ty space (e.rename ρ)
  | .branch e yes no => .branch (e.rename ρ) (Code.rename yes) (Code.rename no)
  | .loop x e body => .loop (ρ x) (e.rename ρ) (Code.rename body)
  | .kernel k => .kernel (Kernel.rename k)

/-- The code over the images of its names. -/
def Code.rename : List Stmt → List Stmt
  | [] => []
  | s :: code => Stmt.rename s :: Code.rename code

end

theorem Expr.rename_id (e : Expr) : e.rename id = e := by
  induction e with
  | const c | var x => rfl
  | apply op lhs rhs ihl ihr => rw [rename, ihl, ihr]

theorem Size.rename_id (s : Size) : s.rename id = s := rename_eq_self fun _ _ => rfl

theorem Transfer.map_rename_id (plan : List Transfer) : plan.map (Transfer.rename id) = plan := by
  have hid : ∀ t : Transfer, t.rename id = t := by
    rintro (⟨x, size⟩ | ⟨x, ty⟩)
    · rw [rename, Size.rename_id]
      rfl
    · rfl
  rw [List.map_congr_left (g := id) fun t _ => hid t, List.map_id]

mutual

/-- **Without a change of names there is no change.** -/
theorem Code.rename_id (code : List Stmt) : Code.rename id code = code := by
  match code with
  | [] => rfl
  | s :: code => rw [Code.rename, Stmt.rename_id s, Code.rename_id code]

theorem Stmt.rename_id (s : Stmt) : s.rename id = s := by
  match s with
  | .declareScalar .. | .declareBlock .. => rfl
  | .allocate .. | .read .. => rw [Stmt.rename, Size.rename_id]; rfl
  | .set .. => rw [Stmt.rename, Expr.rename_id]; rfl
  | .write .. => rw [Stmt.rename, Size.rename_id, Expr.rename_id]; rfl
  | .branch _ yes no =>
    rw [Stmt.rename, Expr.rename_id, Code.rename_id yes, Code.rename_id no]
  | .loop _ _ body => rw [Stmt.rename, Expr.rename_id, Code.rename_id body]; rfl
  | .kernel ⟨_, _, _, _, body⟩ =>
    rw [Stmt.rename, Kernel.rename, Size.rename_id, Transfer.map_rename_id,
      Transfer.map_rename_id, Code.rename_id body]
    rfl

end

variable (space : Space)

mutual

/-- The statement with its reads and writes, at any depth, in this space. -/
def Stmt.inSpace : Stmt → Stmt
  | .read x b i ty _ => .read x b i ty space
  | .write b i ty _ e => .write b i ty space e
  | .branch e yes no => .branch e (Code.inSpace yes) (Code.inSpace no)
  | .loop x e body => .loop x e (Code.inSpace body)
  | .kernel ⟨thread, threads, copyIn, copyOut, body⟩ =>
    .kernel ⟨thread, threads, copyIn, copyOut, Code.inSpace body⟩
  | .declareScalar x ty => .declareScalar x ty
  | .declareBlock x home => .declareBlock x home
  | .allocate x size home => .allocate x size home
  | .set x e => .set x e

/-- The code with its reads and writes, at any depth, in this space. -/
def Code.inSpace : List Stmt → List Stmt
  | [] => []
  | s :: code => Stmt.inSpace s :: Code.inSpace code

end

/-- Renaming and moving go statement by statement. -/
theorem Code.inSpace_rename_eq_map (code : Code) :
    Code.inSpace space (Code.rename ρ code) =
      code.map fun s => (s.rename ρ).inSpace space := by
  induction code with
  | nil => rfl
  | cons s code ih =>
    rw [Code.rename, Code.inSpace, ih]
    rfl

end KernelGen
