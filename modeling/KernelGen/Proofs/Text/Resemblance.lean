import KernelGen.Proofs.Text.Headings
import Mathlib.Data.List.Basic
import Mathlib.Data.List.Forall2

/-! # Code that is written alike

Two pieces of code resemble each other when they agree statement by statement, at every
depth, save for sizes and types that are written alike.  Code that resembles other code
has the same lines (`Code.lines_of_resembles`), and for plain code nothing else has
(`Code.resembles_of_lines`): the first line of a statement tells its form, and the lines of
nested code end with the first line that does not begin with a blank. -/
namespace KernelGen

/-! ## The relation -/

/-- The same transfer, up to what is written alike. -/
inductive Transfer.Resembles : Transfer → Transfer → Prop
  | block {x size size'} (h : size.text = size'.text) : Resembles (.block x size) (.block x size')
  | scalar {x ty ty'} (h : ty.text = ty'.text) : Resembles (.scalar x ty) (.scalar x ty')

/-- The same statement, up to sizes and types that are written alike. -/
inductive Stmt.Resembles : Stmt → Stmt → Prop
  | declareScalar {x ty ty'} (h : ty.text = ty'.text) :
    Resembles (.declareScalar x ty) (.declareScalar x ty')
  | declareBlock {x space} : Resembles (.declareBlock x space) (.declareBlock x space)
  | allocate {x size size' space} (h : size.text = size'.text) :
    Resembles (.allocate x size space) (.allocate x size' space)
  | set {x e} : Resembles (.set x e) (.set x e)
  | read {x b i i' ty ty' space} (hi : i.text = i'.text) (hty : ty.text = ty'.text) :
    Resembles (.read x b i ty space) (.read x b i' ty' space)
  | write {b i i' ty ty' space e} (hi : i.text = i'.text) (hty : ty.text = ty'.text) :
    Resembles (.write b i ty space e) (.write b i' ty' space e)
  | branch {e yes yes' no no'} (hyes : List.Forall₂ Resembles yes yes')
    (hno : List.Forall₂ Resembles no no') : Resembles (.branch e yes no) (.branch e yes' no')
  | loop {x e body body'} (h : List.Forall₂ Resembles body body') :
    Resembles (.loop x e body) (.loop x e body')
  | kernel {x n n' ins ins' outs outs' body body'} (hn : n.text = n'.text)
    (hins : List.Forall₂ Transfer.Resembles ins ins')
    (houts : List.Forall₂ Transfer.Resembles outs outs')
    (hbody : List.Forall₂ Resembles body body') :
    Resembles (.kernel ⟨x, n, ins, outs, body⟩) (.kernel ⟨x, n', ins', outs', body'⟩)

/-- The same statements in the same order, up to sizes and types that are written alike. -/
abbrev Code.Resembles : Code → Code → Prop := List.Forall₂ Stmt.Resembles

/-! ## Transfers -/

namespace Transfer
variable {t t' : Transfer} {ts ts' : List Transfer}

theorem text_of_resembles (h : t.Resembles t') : t.text = t'.text := by
  cases h with
  | block h | scalar h => rw [text, text, h]

theorem listText_of_resembles (h : List.Forall₂ Resembles ts ts') :
    listText ts = listText ts' := by
  have htexts : ts.map text = ts'.map text := by
    induction h with
    | nil => rfl
    | cons ht _ ih => rw [List.map_cons, List.map_cons, text_of_resembles ht, ih]
  rw [listText, listText, htexts]

theorem resembles_of_text (ht : t.isPlain) (ht' : t'.isPlain) (h : t.text = t'.text) :
    t.Resembles t' := by
  rw [← String.toList_inj] at h
  have hopen {rest : List Char} : Stops nameChar (' ' :: rest) := stops_cons.mpr (by decide)
  have hcolon {rest : List Char} : Stops nameChar (':' :: rest) := stops_cons.mpr (by decide)
  match t, t' with
  | block x size, block x' size' =>
    rw [isPlain, Bool.and_eq_true] at ht ht'
    simp only [text, String.toList_append, List.append_assoc] at h
    obtain ⟨hname, hrest⟩ := eq_of_append (List.append_cancel_left h)
      (Name.all_nameChar_text ht.1) (Name.all_nameChar_text ht'.1) hopen hopen
    obtain rfl := Name.eq_of_text (String.toList_inj.mp hname)
    have hsize := List.append_cancel_right (List.append_cancel_left hrest)
    exact .block (String.toList_inj.mp hsize)
  | scalar x ty, scalar x' ty' =>
    simp only [text, String.toList_append, List.append_assoc] at h
    obtain ⟨hname, hrest⟩ := eq_of_append (List.append_cancel_left h)
      (Name.all_nameChar_text ht) (Name.all_nameChar_text ht') hcolon hcolon
    obtain rfl := Name.eq_of_text (String.toList_inj.mp hname)
    exact .scalar (String.toList_inj.mp (List.append_cancel_left hrest))
  | block _ _, scalar _ _ | scalar _ _, block _ _ => simp [text] at h

theorem all_ne_comma_text (ht : t.isPlain) : t.text.toList.all (· != ',') := by
  have hfree {p : Char → Bool} {text : List Char} (h : text.all p) (hc : p ',' = false) :
      text.all (· != ',') := by
    rw [List.all_bne']
    simpa using not_mem_of_all h hc
  match t with
  | block x size =>
    rw [isPlain, Bool.and_eq_true] at ht
    have hx := hfree (Name.all_nameChar_text ht.1) (by decide)
    have hsize := hfree (Size.all_scalarChar_text ht.2) (by decide)
    simp +decide only [text, String.toList_append, List.all_append, hx, hsize]
  | scalar x ty =>
    have hx := hfree (Name.all_nameChar_text (x := x) ht) (by decide)
    have hty := hfree ty.all_tyChar_text (by decide)
    simp +decide only [text, String.toList_append, List.all_append, hx, hty]

/-- What follows the first transfer on a line. -/
def following (ts : List Transfer) : List Char := ts.flatMap fun t => ',' :: ' ' :: t.text.toList

theorem toList_listText_cons (t : Transfer) (ts : List Transfer) :
    (listText (t :: ts)).toList = t.text.toList ++ following ts := by
  induction ts generalizing t with
  | nil => simp [listText, following]
  | cons u ts ih =>
    have hu := ih u
    rw [listText, List.map_cons] at hu
    rw [listText, List.map_cons, List.map_cons, String.intercalate_cons_cons, String.toList_append,
      String.toList_append, hu]
    simp [following]

theorem stops_following (ts : List Transfer) : Stops (· != ',') (following ts) := by
  cases ts <;> simp [following]

theorem resembles_of_following (hts : ts.all isPlain) (hts' : ts'.all isPlain)
    (h : following ts = following ts') : List.Forall₂ Resembles ts ts' := by
  induction ts generalizing ts' with
  | nil =>
    cases ts' with
    | nil => exact .nil
    | cons t' ts' => simp [following] at h
  | cons t ts ih =>
    cases ts' with
    | nil => simp [following] at h
    | cons t' ts' =>
      rw [List.all_cons, Bool.and_eq_true] at hts hts'
      simp only [following, List.flatMap_cons, List.cons_append, List.cons.injEq, true_and] at h
      obtain ⟨htext, hrest⟩ := eq_of_append h (all_ne_comma_text hts.1) (all_ne_comma_text hts'.1)
        (stops_following ts) (stops_following ts')
      exact .cons (resembles_of_text hts.1 hts'.1 (String.toList_inj.mp htext))
        (ih hts.2 hts'.2 hrest)

/-- **Transfers on a line are told apart by the commas between them.** -/
theorem resembles_of_listText (hts : ts.all isPlain) (hts' : ts'.all isPlain)
    (h : listText ts = listText ts') : List.Forall₂ Resembles ts ts' := by
  have hne (t : Transfer) (ts : List Transfer) : (listText (t :: ts)).toList ≠ [] := by
    rw [toList_listText_cons]
    cases t <;> simp [text]
  match ts, ts' with
  | [], [] => exact .nil
  | [], t' :: ts' => exact absurd (by rw [← h]; rfl) (hne t' ts')
  | t :: ts, [] => exact absurd (by rw [h]; rfl) (hne t ts)
  | t :: ts, t' :: ts' =>
    refine resembles_of_following hts hts' ?_
    have hlist := congrArg String.toList h
    rw [toList_listText_cons, toList_listText_cons] at hlist
    simpa [following] using hlist

end Transfer

/-! ## Blocks -/

/-- The line begins with a blank. -/
def isIndented (line : String) : Bool := line.toList.head? == some ' '

theorem all_isIndented_indented (lines : List String) : (indented lines).all isIndented := by
  simp [indented, isIndented]

theorem indented_injective : Function.Injective indented := by
  refine List.map_injective_iff.mpr fun line line' h => ?_
  rw [← String.toList_inj, String.toList_append, String.toList_append] at h
  exact String.toList_inj.mp (List.append_cancel_left h)

variable {lines lines' rest rest' : List String} {last : String}

/-- **A block ends with the first line that does not begin with a blank.** -/
theorem eq_of_block (h : indented lines ++ last :: rest = indented lines' ++ last :: rest')
    (hlast : isIndented last = false) : lines = lines' ∧ rest = rest' := by
  obtain ⟨hlines, hrest⟩ := eq_of_append h (all_isIndented_indented lines)
    (all_isIndented_indented lines') (by simpa using hlast) (by simpa using hlast)
  exact ⟨indented_injective hlines, (List.cons.inj hrest).2⟩

/-! ## Statements -/

namespace Stmt
variable {s s' : Stmt}

/-- The statements that hold no code are told by their first line, and have no other. -/
theorem resembles_of_heading (hs : s.isPlain) (hs' : s'.isPlain) (h : s.heading = s'.heading)
    (hone : s.lines.length = 1) : s.Resembles s' ∧ s'.lines.length = 1 := by
  match s with
  | .declareScalar x ty =>
    cases s' <;> simp only [heading, reduceCtorEq, Heading.declareScalar.injEq,
      String.toList_inj] at h
    obtain rfl := Name.eq_of_text h.1
    exact ⟨.declareScalar h.2, rfl⟩
  | .declareBlock x space =>
    cases s' <;> simp only [heading, reduceCtorEq, Heading.declareBlock.injEq,
      String.toList_inj] at h
    obtain rfl := Name.eq_of_text h.1
    obtain rfl := Space.eq_of_text h.2
    exact ⟨.declareBlock, rfl⟩
  | .allocate x size space =>
    cases s' <;> simp only [heading, reduceCtorEq, Heading.allocate.injEq,
      String.toList_inj] at h
    obtain rfl := Name.eq_of_text h.1
    obtain rfl := Space.eq_of_text h.2.1
    exact ⟨.allocate h.2.2, rfl⟩
  | .set x e =>
    cases s' <;> simp only [heading, reduceCtorEq, Heading.set.injEq, String.toList_inj] at h
    simp only [isPlain, Bool.and_eq_true] at hs hs'
    obtain rfl := Name.eq_of_text h.1
    obtain rfl := Expr.eq_of_text h.2 hs.2 hs'.2
    exact ⟨.set, rfl⟩
  | .read x b i ty space =>
    cases s' <;> simp only [heading, reduceCtorEq, Heading.read.injEq, String.toList_inj] at h
    obtain ⟨hx, hb, hspace, hi, hty⟩ := h
    obtain rfl := Name.eq_of_text hx
    obtain rfl := Name.eq_of_text hb
    obtain rfl := Space.eq_of_text hspace
    exact ⟨.read hi hty, rfl⟩
  | .write b i ty space e =>
    cases s' <;> simp only [heading, reduceCtorEq, Heading.write.injEq, String.toList_inj] at h
    simp only [isPlain, Bool.and_eq_true] at hs hs'
    obtain ⟨hb, hspace, hi, hty, he⟩ := h
    obtain rfl := Name.eq_of_text hb
    obtain rfl := Space.eq_of_text hspace
    obtain rfl := Expr.eq_of_text he hs.2 hs'.2
    exact ⟨.write hi hty, rfl⟩
  | .branch .. | .loop .. | .kernel ⟨_, _, _, _, _⟩ => simp [lines, Kernel.lines, enclosed] at hone

theorem lines_ne_nil (s : Stmt) : s.lines ≠ [] := by
  cases s with
  | kernel k => cases k; simp [lines, Kernel.lines, enclosed]
  | _ => simp [lines, enclosed]

variable {rest rest' : List String}

theorem heading_of_lines (hs : s.isPlain) (hs' : s'.isPlain)
    (h : s.lines ++ rest = s'.lines ++ rest') : s.heading = s'.heading := by
  obtain ⟨first, more, hlines, hread⟩ := ofLine_firstLine hs
  obtain ⟨first', more', hlines', hread'⟩ := ofLine_firstLine hs'
  rw [hlines, hlines', List.cons_append, List.cons_append, List.cons.injEq] at h
  rw [← hread, h.1, hread']

theorem resembles_of_single (hs : s.isPlain) (hs' : s'.isPlain)
    (h : s.lines ++ rest = s'.lines ++ rest') (hone : s.lines.length = 1) :
    s.Resembles s' ∧ rest = rest' := by
  obtain ⟨hresembles, hone'⟩ := resembles_of_heading hs hs' (heading_of_lines hs hs' h) hone
  exact ⟨hresembles, (List.append_inj h (hone.trans hone'.symm)).2⟩

end Stmt

mutual

theorem Stmt.lines_of_resembles : ∀ {s s' : Stmt}, s.Resembles s' → s.lines = s'.lines
  | _, _, .declareScalar h => by rw [Stmt.lines, Stmt.lines, h]
  | _, _, .declareBlock => rfl
  | _, _, .allocate h => by rw [Stmt.lines, Stmt.lines, h]
  | _, _, .set => rfl
  | _, _, .read hi hty => by rw [Stmt.lines, Stmt.lines, hi, hty]
  | _, _, .write hi hty => by rw [Stmt.lines, Stmt.lines, hi, hty]
  | _, _, .branch hyes hno => by
    rw [Stmt.lines, Stmt.lines, Code.lines_of_resembles hyes, Code.lines_of_resembles hno]
  | _, _, .loop h => by rw [Stmt.lines, Stmt.lines, Code.lines_of_resembles h]
  | _, _, .kernel hn hins houts hbody => by
    rw [Stmt.lines, Stmt.lines, Kernel.lines, Kernel.lines, hn,
      Transfer.listText_of_resembles hins, Transfer.listText_of_resembles houts,
      Code.lines_of_resembles hbody]

/-- **Code that resembles other code has the same lines.** -/
theorem Code.lines_of_resembles : ∀ {code code' : Code}, Code.Resembles code code' →
    Code.lines code = Code.lines code'
  | _, _, .nil => rfl
  | _, _, .cons hs hcode => by
    rw [Code.lines, Code.lines, Stmt.lines_of_resembles hs, Code.lines_of_resembles hcode]

end

mutual

/-- A statement in front of further lines: the first line tells the form, and then the
nested code ends where its block does. -/
theorem Stmt.resembles_of_lines : ∀ (s : Stmt) {s' : Stmt} {rest rest' : List String},
    s.isPlain → s'.isPlain → s.lines ++ rest = s'.lines ++ rest' → s.Resembles s' ∧ rest = rest'
  | .branch cond yes no, s', rest, rest', hs, hs', h => by
    have hheading := Stmt.heading_of_lines hs hs' h
    cases s' <;> simp only [Stmt.heading, reduceCtorEq, Heading.branch.injEq,
      String.toList_inj] at hheading
    case branch cond' yes' no' =>
      simp only [Stmt.isPlain, Bool.and_eq_true] at hs hs'
      obtain rfl := Expr.eq_of_text hheading hs.1.1 hs'.1.1
      simp only [Stmt.lines, enclosed, List.cons_append, List.append_assoc, List.cons.injEq,
        true_and, List.nil_append] at h
      obtain ⟨hyes, helse⟩ := eq_of_block h (by decide)
      obtain ⟨hno, hrest⟩ := eq_of_block helse (by decide)
      exact ⟨.branch (Code.resembles_of_lines yes hs.1.2 hs'.1.2 hyes)
        (Code.resembles_of_lines no hs.2 hs'.2 hno), hrest⟩
  | .loop counter bound body, s', rest, rest', hs, hs', h => by
    have hheading := Stmt.heading_of_lines hs hs' h
    cases s' <;> simp only [Stmt.heading, reduceCtorEq, Heading.loop.injEq,
      String.toList_inj] at hheading
    case loop counter' bound' body' =>
      simp only [Stmt.isPlain, Bool.and_eq_true] at hs hs'
      obtain rfl := Name.eq_of_text hheading.1
      obtain rfl := Expr.eq_of_text hheading.2 hs.1.2 hs'.1.2
      simp only [Stmt.lines, enclosed, List.cons_append, List.append_assoc, List.cons.injEq,
        true_and, List.nil_append] at h
      obtain ⟨hbody, hrest⟩ := eq_of_block h (by decide)
      exact ⟨.loop (Code.resembles_of_lines body hs.2 hs'.2 hbody), hrest⟩
  | .kernel ⟨index, count, ins, outs, body⟩, s', rest, rest', hs, hs', h => by
    have hheading := Stmt.heading_of_lines hs hs' h
    cases s' <;> simp only [Stmt.heading, reduceCtorEq, Heading.kernel.injEq,
      String.toList_inj] at hheading
    case kernel k' =>
      obtain ⟨index', count', ins', outs', body'⟩ := k'
      simp only [Stmt.isPlain, Kernel.isPlain, Bool.and_eq_true] at hs hs'
      obtain rfl := Name.eq_of_text hheading.1
      simp only [Stmt.lines, Kernel.lines, enclosed, List.cons_append, List.append_assoc,
        List.cons.injEq, List.nil_append] at h
      obtain ⟨hlines, hrest⟩ := eq_of_block h.2 (by decide)
      simp only [List.cons.injEq, true_and] at hlines
      obtain ⟨hins, houts, hblock⟩ := hlines
      obtain ⟨hbody, -⟩ := eq_of_block hblock (by decide)
      exact ⟨.kernel hheading.2
        (Transfer.resembles_of_listText hs.1.1.2 hs'.1.1.2 ((String.append_right_inj _).mp hins))
        (Transfer.resembles_of_listText hs.1.2 hs'.1.2 ((String.append_right_inj _).mp houts))
        (Code.resembles_of_lines body hs.2 hs'.2 hbody), hrest⟩
  | .declareScalar .., _, _, _, hs, hs', h | .declareBlock .., _, _, _, hs, hs', h
  | .allocate .., _, _, _, hs, hs', h | .set .., _, _, _, hs, hs', h
  | .read .., _, _, _, hs, hs', h | .write .., _, _, _, hs, hs', h =>
    Stmt.resembles_of_single hs hs' h rfl

/-- **Plain code that has the same lines resembles each other.** -/
theorem Code.resembles_of_lines : ∀ (code : Code) {code' : Code}, code.isPlain → code'.isPlain →
    Code.lines code = Code.lines code' → Code.Resembles code code'
  | [], [], _, _, _ => .nil
  | [], s' :: code', _, _, h => absurd (List.append_eq_nil_iff.mp h.symm).1 s'.lines_ne_nil
  | s :: code, [], _, _, h => absurd (List.append_eq_nil_iff.mp h).1 s.lines_ne_nil
  | s :: code, s' :: code', hcode, hcode', h => by
    rw [Code.isPlain, Bool.and_eq_true] at hcode hcode'
    obtain ⟨hs, hrest⟩ := Stmt.resembles_of_lines s hcode.1 hcode'.1 h
    exact .cons hs (Code.resembles_of_lines code hcode.2 hcode'.2 hrest)

end

end KernelGen
