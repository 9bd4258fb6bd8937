import KernelGen.Proofs.Lowering.Timetable
import KernelGen.Proofs.Program.Drawn
import KernelGen.Proofs.Program.Maps

/-! # Comparing two compilations, form by form

Every form of expression has one rule of compilation and one lemma here: under a
comparison with a timetable, the rule on the left is tracked by the same rule on the
right, with nested code tracked already, while the names are drawn that `Stm.drawnAll`
lists.  `Timetable.lowerAll` puts the lemmas together along the program.

What becomes of maps is a parameter of compilation.  `Timetable.Maps` says when the two
choices of the two sides belong together. -/
namespace KernelGen

namespace Comparison
open Lowering Pairing
variable (S : Comparison)

theorem tracks_lowerIndex {dests : List Destination} {array : Name} {indices : List Operand}
    (hd : ∀ d ∈ dests, S.roles.Names d) (ha : S.roles.array array)
    (hi : ∀ a ∈ indices, S.roles.Reads a) :
    S.Steps (lowerIndex dests array indices)
      (lowerIndex (dests.map (Destination.rewrite S.move)) array indices) := by
  refine (S.tracks_singleScalar hd).bind ?_
  rintro _ x ⟨rfl, hx⟩
  refine (tracks_ask fun c c' hctx => S.array_answers hctx ha).bind ?_
  rintro ⟨ty, p⟩ _ ⟨rfl, hp⟩
  refine tracks_guard (by rw [S.move_rank]) _ fun _ => ?_
  refine (S.tracks_positions hi).bind ?_
  rintro _ is ⟨rfl, his⟩
  exact S.tracks_readElement _ hx hp his

theorem tracks_lowerUpdate {dests : List Destination} {indices : List Operand} {value : Operand}
    (hd : ∀ d ∈ dests, S.roles.Names d) (hi : ∀ a ∈ indices, S.roles.Reads a)
    (hv : S.roles.Reads value) :
    S.Steps (lowerUpdate dests indices value)
      (lowerUpdate (dests.map (Destination.rewrite S.move)) indices value) := by
  refine (S.tracks_single hd).bind ?_
  rintro (x | ⟨p, ty⟩) _ ⟨-, hn, rfl⟩
  · exact tracks_fault _
  · refine (S.tracks_positions hi).bind ?_
    rintro _ is ⟨rfl, his⟩
    exact S.tracks_writeElement _ hn his hv

theorem tracks_startCarried {q : Binder × Operand} (hb : S.roles.Binds q.1)
    (hi : S.roles.Stores q.1.destination q.2) :
    S.Steps (startCarried q) (startCarried (q.1.rewrite S.move, q.2)) := by
  refine (S.tracks_declare hb).next ?_
  rw [Binder.destination_rewrite]
  exact S.tracks_assign hb.names hi

theorem tracks_readLoopParam {i : Name} {q : Binder × Name} (hi : S.roles.scalar i)
    (hb : S.roles.bound q.1.name) (ha : S.roles.array q.2) :
    S.Steps (readLoopParam i q) (readLoopParam i q) := by
  rcases q with ⟨param, input⟩
  refine (tracks_ask fun c c' hctx => S.array_answers hctx ha).bind ?_
  rintro ⟨ty, p⟩ _ ⟨rfl, hp⟩
  exact tracks_guard (by rw [S.move_rank]) _ fun _ => S.tracks_readParam ty hi hb hp

theorem tracks_writeLoopResult {i : Name} {d : Destination} {a : Operand} (hi : S.roles.scalar i)
    (hd : S.roles.Names d) (ha : S.roles.Reads a) :
    S.Steps (writeLoopResult i (d, a)) (writeLoopResult i (d.rewrite S.move, a)) := by
  cases d with
  | scalar x => exact tracks_fault _
  | array p ty => exact S.tracks_writeElement ty hd (S.scalar_of_mem_index hi) ha

end Comparison

namespace Timetable
open Lowering Pairing
variable (S : Timetable) {bases bases' : List String}

theorem keeps_lowerBranch {dests : List Destination} {stms stms' : Lowering Unit}
    {result : List Operand} (hlen : bases.length = bases'.length)
    (hd : ∀ d ∈ dests, S.roles.Names d) (hs : S.KeepsStep bases bases' stms stms')
    (hr : S.roles.StoresAll dests result) :
    S.Keeps bases bases' S.code (lowerBranch dests stms result)
      (lowerBranch (dests.map (Destination.rewrite S.move)) stms' result) := by
  unfold lowerBranch
  rw [List.length_map]
  refine .guard Iff.rfl _ fun _ => .collect (hs.before hlen fun _ _ _ n => ?_)
  exact (S.after n).tracks_assignAll hd hr

/-! ## Loops -/

/-- What is put aside for a carried value may be stored into it. -/
theorem keeps_stageCarried {b : Binder} {result : Operand}
    (hr : S.roles.Stores b.destination result) :
    S.Keeps b.aside b.aside (fun a a' => a' = a ∧ S.roles.Stores b.destination a)
      (stageCarried b result) (stageCarried (b.rewrite S.move) result) := by
  rcases b with ⟨x, ty, _ | p⟩
  · refine (S.keeps_fresh _).before rfl ?_
    rintro _ aside ⟨rfl, hbound, hscalar⟩ n
    let T := S.after n
    refine Tracks.next (S := T.toPairing) (tracks_emit (S.declare_stmt ty hbound)) ?_
    refine Tracks.next (S := T.toPairing) (tracks_emit (S.set_stmt hbound hr)) ?_
    refine (T.tracks_bindScalar ty hbound).next (tracks_pure ⟨rfl, ?_⟩)
    simpa [Binder.destination, Roles.Stores, Roles.Reads, Operand.occurrences,
      Operand.name?] using hscalar
  · exact keeps_of_tracks fun n => tracks_pure ⟨rfl, hr⟩

/-- The values put aside at the end of a run of a loop, all before any is stored. -/
theorem keeps_stageAll {binders : List Binder} {result : List Operand}
    (hlen : binders.length = result.length)
    (hr : S.roles.StoresAll (binders.map Binder.destination) result) :
    S.Keeps (binders.flatMap Binder.aside) (binders.flatMap Binder.aside)
      (fun as as' => as' = as ∧ S.roles.StoresAll (binders.map Binder.destination) as)
      ((binders.zip result).mapM fun (b, a) => stageCarried b a)
      (((binders.map (Binder.rewrite S.move)).zip result).mapM fun (b, a) => stageCarried b a) := by
  induction binders generalizing result with
  | nil => exact keeps_of_tracks fun n => tracks_pure ⟨rfl, List.forall_mem_nil _⟩
  | cons b bs ih =>
    cases result with
    | nil => cases hlen
    | cons a as =>
      simp only [List.map_cons, List.zip_cons_cons, List.mapM_cons, List.flatMap_cons]
      have hhead : S.roles.Stores b.destination a := hr (b.destination, a) (List.mem_cons_self ..)
      have htail : S.roles.StoresAll (bs.map Binder.destination) as :=
        fun q hq => hr q (List.mem_cons_of_mem _ hq)
      refine (S.keeps_stageCarried hhead).bind rfl ?_
      rintro _ a' ⟨rfl, ha'⟩
      refine (ih (Nat.succ.inj hlen) htail).before rfl ?_
      rintro _ as' ⟨rfl, has'⟩ n
      refine tracks_pure ⟨rfl, ?_⟩
      intro q hq
      simp only [List.zip_cons_cons, List.mem_cons] at hq
      rcases hq with rfl | hq
      · exact ha'
      · exact has' q hq

/-- The body of a loop: the results are put aside before the carried values are
overwritten. -/
theorem keeps_loopBody {binders : List Binder} {stms stms' : Lowering Unit}
    {result : List Operand} (hlen : bases.length = bases'.length)
    (hresult : binders.length = result.length) (hb : ∀ b ∈ binders, S.roles.Binds b)
    (hs : S.KeepsStep bases bases' stms stms')
    (hr : S.roles.StoresAll (binders.map Binder.destination) result) :
    S.KeepsStep (bases ++ binders.flatMap Binder.aside) (bases' ++ binders.flatMap Binder.aside)
      (do
        stms
        let staged ← (binders.zip result).mapM fun (b, a) => stageCarried b a
        assignAll (binders.map Binder.destination) staged)
      (do
        stms'
        let staged ← ((binders.map (Binder.rewrite S.move)).zip result).mapM
          fun (b, a) => stageCarried b a
        assignAll ((binders.map (Binder.rewrite S.move)).map Binder.destination) staged) := by
  refine hs.bind hlen fun _ _ _ => (S.keeps_stageAll hresult hr).before rfl ?_
  rintro _ staged ⟨rfl, hst⟩ n
  rw [map_destination_rewrite]
  exact (S.after n).tracks_assignAll (Roles.names_of_binds hb) hst

theorem keeps_lowerLoop {dests : List Destination} {carried : List (Binder × Operand)}
    {counter : Name} {bound : Operand} {stms stms' : Lowering Unit} {result : List Operand}
    (hlen : bases.length = bases'.length) (hd : ∀ d ∈ dests, S.roles.Names d)
    (hc : ∀ q ∈ carried, S.roles.Binds q.1 ∧ S.roles.Stores q.1.destination q.2)
    (hcounter : S.roles.bound counter) (hbound : S.roles.Reads bound)
    (hs : S.KeepsStep bases bases' stms stms')
    (hr : S.roles.StoresAll (carried.map (·.1.destination)) result)
    (hlast : S.roles.StoresAll dests (carried.map (.var ·.1.name))) :
    S.KeepsStep (bases ++ carried.flatMap (·.1.aside)) (bases' ++ carried.flatMap (·.1.aside))
      (lowerLoop dests carried counter bound stms result)
      (lowerLoop (dests.map (Destination.rewrite S.move))
        (carried.map fun (b, init) => (b.rewrite S.move, init)) counter bound stms' result) := by
  have hbinders : (carried.map fun (b, init) => (b.rewrite S.move, init)).map Prod.fst =
      (carried.map Prod.fst).map (Binder.rewrite S.move) := by
    rw [List.map_map, List.map_map]
    rfl
  have hasides : carried.flatMap (·.1.aside) = (carried.map Prod.fst).flatMap Binder.aside :=
    (List.flatMap_map ..).symm
  have hstart : List.Forall₂ (fun q q' : Binder × Operand => (S.roles.Binds q.1 ∧
        S.roles.Stores q.1.destination q.2) ∧ q' = (q.1.rewrite S.move, q.2)) carried
      (carried.map fun (b, init) => (b.rewrite S.move, init)) := by
    rw [List.forall₂_map_right_iff, List.forall₂_same]
    exact fun q hq => ⟨hc q hq, rfl⟩
  have hb : ∀ b ∈ carried.map Prod.fst, S.roles.Binds b := by
    intro b hb
    obtain ⟨q, hq, rfl⟩ := List.mem_map.mp hb
    exact (hc q hq).1
  have hr' : S.roles.StoresAll ((carried.map Prod.fst).map Binder.destination) result := by
    rw [List.map_map]
    exact hr
  unfold lowerLoop
  simp only [List.length_map, hbinders, hasides]
  refine .guard Iff.rfl _ fun hcount => ?_
  rw [not_or, Decidable.not_not] at hcount
  refine .after (fun n => tracks_forM (S := (S.after n).toPairing) hstart ?_) fun _ _ _ => ?_
  · rintro q _ ⟨⟨hb, hi⟩, rfl⟩
    exact (S.after n).tracks_startCarried hb hi
  refine .after (fun n => (S.after n).tracks_bindScalar _ hcounter) fun _ _ _ => ?_
  have hbody := S.keeps_loopBody hlen (by rw [List.length_map, hcount.1]) hb hs hr'
  refine hbody.collect.before (by rw [List.length_append, List.length_append, hlen])
    fun body body' hcode n => ?_
  refine (tracks_emit (S := (S.after n).toPairing) (S.loop_stmt hcounter hbound hcode)).next ?_
  rw [List.map_map, List.map_map, List.map_map]
  exact (S.after n).tracks_assignAll hd hlast

/-! ## Maps -/

theorem keeps_lowerMapLoop {dests : List Destination} {params : List Binder}
    {stms stms' : Lowering Unit} {result : List Operand} {inputs : List Name}
    (hlen : bases.length = bases'.length) (hd : ∀ d ∈ dests, S.roles.Names d)
    (hp : ∀ b ∈ params, S.roles.bound b.name) (hs : S.KeepsStep bases bases' stms stms')
    (hr : ∀ a ∈ result, S.roles.Reads a) (hi : ∀ x ∈ inputs, S.roles.array x)
    (hh : ∀ x ∈ inputs.head?, S.roles.head x) :
    S.KeepsStep ("i" :: bases) ("i" :: bases') (lowerMapLoop dests params stms result inputs)
      (lowerMapLoop (dests.map (Destination.rewrite S.move))
        (params.map (Binder.rewrite S.move)) stms' result inputs) := by
  have hparams : List.Forall₂ (fun q q' : Binder × Name => (S.roles.bound q.1.name ∧
        S.roles.array q.2) ∧ q' = (q.1.rewrite S.move, q.2)) (params.zip inputs)
      ((params.map (Binder.rewrite S.move)).zip inputs) := by
    rw [List.zip_map_left, List.forall₂_map_right_iff, List.forall₂_same]
    exact fun q hq => ⟨⟨hp _ (List.of_mem_zip hq).1, hi _ (List.of_mem_zip hq).2⟩, rfl⟩
  have hresults : List.Forall₂ (fun q q' : Destination × Operand => (S.roles.Names q.1 ∧
        S.roles.Reads q.2) ∧ q' = (q.1.rewrite S.move, q.2)) (dests.zip result)
      ((dests.map (Destination.rewrite S.move)).zip result) := by
    rw [List.zip_map_left, List.forall₂_map_right_iff, List.forall₂_same]
    exact fun q hq => ⟨⟨hd _ (List.of_mem_zip hq).1, hr _ (List.of_mem_zip hq).2⟩, rfl⟩
  unfold lowerMapLoop
  refine .after (A := fun s s' => s' = s ∧ ∀ y ∈ s.occurrences, S.roles.scalar y)
    (fun n => (S.after n).tracks_width _ hi hh) ?_
  rintro _ count ⟨rfl, hcount⟩
  simp only [List.length_map]
  refine .guard Iff.rfl _ fun _ => (S.keeps_fresh "i").bind rfl ?_
  rintro _ i ⟨rfl, hbound, hscalar⟩
  refine .after (fun n => (S.after n).tracks_bindScalar _ hbound) fun _ _ _ => ?_
  refine Keeps.before (Keeps.collect ?_) hlen fun body body' hcode n =>
    tracks_emit (S.map_stmt hbound hcount hcode)
  refine .after (fun n => tracks_forM (S := (S.after n).toPairing) hparams ?_) fun _ _ _ =>
    hs.before hlen fun _ _ _ n => tracks_forM (S := (S.after n).toPairing) hresults ?_
  · rintro ⟨param, input⟩ _ ⟨⟨hb, ha⟩, rfl⟩
    exact (S.after n).tracks_readLoopParam hscalar hb ha
  · rintro ⟨d, a⟩ _ ⟨⟨hn, ha⟩, rfl⟩
    exact (S.after n).tracks_writeLoopResult hscalar hn ha

/-! ## Programs -/

/-- What becomes of maps on the left and on the right, and the bases of thread indices: loops
on both sides, or on both sides something of the caller's choice that keeps step at these
maps. -/
inductive Maps (maps : List MapStm) : Option String → Option String → Option MapLowering →
    Option MapLowering → Prop
  | loops : Maps maps none none none none
  | chosen {thread thread' : String} {l l' : MapLowering}
      (h : ∀ m ∈ maps, (∀ b ∈ m.pat, S.roles.Binds b) → m.f.Respects S.roles →
        (∀ x ∈ m.inputs, S.roles.array x) → (∀ x ∈ m.inputs.head?, S.roles.head x) →
        S.KeepsStep (thread :: m.f.body.drawn none) (thread' :: m.f.body.drawn none)
          (l m.pat m.f m.inputs)
          (l' (m.pat.map (Binder.rewrite S.move)) (m.f.rewrite S.move id) m.inputs)) :
      Maps maps (some thread) (some thread') (some l) (some l')

variable {S} in
theorem Maps.mono {maps maps' : List MapStm} {thread thread' : Option String}
    {onMap onMap' : Option MapLowering} (hm : S.Maps maps thread thread' onMap onMap')
    (h : maps' ⊆ maps) : S.Maps maps' thread thread' onMap onMap' := by
  cases hm with
  | loops => exact .loops
  | chosen hchosen => exact .chosen fun m hmem => hchosen m (h hmem)

/-- The declarations of a pattern, and what follows with its destinations. -/
theorem keeps_pattern {pat : List Binder} (hp : ∀ b ∈ pat, S.roles.Binds b)
    {k k' : List Destination → Lowering Unit}
    (h : S.KeepsStep bases bases' (k (pat.map Binder.destination))
      (k' ((pat.map Binder.destination).map (Destination.rewrite S.move)))) :
    S.KeepsStep bases bases' (declarePattern pat >>= k)
      (declarePattern (pat.map (Binder.rewrite S.move)) >>= k') := by
  refine .after (A := fun ds ds' => ds = pat.map Binder.destination ∧
    ds' = (pat.map Binder.destination).map (Destination.rewrite S.move))
    (fun n => (S.after n).tracks_declarePattern hp) ?_
  rintro ds ds' ⟨rfl, rfl⟩
  exact h

/-- The same where nothing is drawn. -/
theorem keeps_pattern_of_tracks {pat : List Binder} (hp : ∀ b ∈ pat, S.roles.Binds b)
    {k k' : List Destination → Lowering Unit}
    (h : ∀ n, (S.after n).Steps (k (pat.map Binder.destination))
      (k' ((pat.map Binder.destination).map (Destination.rewrite S.move)))) :
    S.KeepsStep [] [] (declarePattern pat >>= k)
      (declarePattern (pat.map (Binder.rewrite S.move)) >>= k') :=
  S.keeps_pattern hp (keeps_of_tracks h)

mutual

/-- **Compilation keeps to the timetable.** -/
theorem lowerAll (S : Timetable) {thread thread' : Option String}
    {onMap onMap' : Option MapLowering} {stms : List Stm}
    (hm : S.Maps (Stm.mapsAll stms) thread thread' onMap onMap')
    (h : Stm.RespectsAll S.roles stms) :
    S.KeepsStep (Stm.drawnAll thread stms) (Stm.drawnAll thread' stms) (Stm.lowerAll onMap stms)
      (Stm.lowerAll onMap' (Stm.rewriteAll S.move id stms)) := by
  match stms with
  | [] => exact keeps_of_tracks fun n => tracks_pure trivial
  | stm :: stms =>
    refine (S.lower (hm.mono (List.subset_append_left ..)) h.1).bind
      (Stm.length_drawn thread thread' stm) fun _ _ _ => ?_
    exact S.lowerAll (hm.mono (List.subset_append_right ..)) h.2

theorem lower (S : Timetable) {thread thread' : Option String}
    {onMap onMap' : Option MapLowering} {stm : Stm}
    (hm : S.Maps stm.maps thread thread' onMap onMap') (h : stm.Respects S.roles) :
    S.KeepsStep (stm.drawn thread) (stm.drawn thread') (stm.lower onMap)
      ((stm.rewrite S.move id).lower onMap') := by
  match stm with
  | ⟨pat, exp⟩ => exact S.lowerExp hm h.1 h.2

theorem lowerExp (S : Timetable) {thread thread' : Option String}
    {onMap onMap' : Option MapLowering} {pat : List Binder} {e : Exp}
    (hm : S.Maps (e.maps pat) thread thread' onMap onMap')
    (hp : ∀ b ∈ pat, S.roles.Binds b) (h : e.Respects S.roles (pat.map Binder.destination)) :
    S.KeepsStep (e.drawn thread) (e.drawn thread') (Exp.lower onMap pat e)
      (Exp.lower onMap' (pat.map (Binder.rewrite S.move)) (e.rewrite S.move id)) := by
  have hd := Roles.names_of_binds hp
  match e with
  | .operand a =>
    refine S.keeps_pattern_of_tracks hp fun n => ((S.after n).tracks_single hd).bind ?_
    rintro d _ ⟨hmem, hn, rfl⟩
    exact (S.after n).tracks_assign hn (h d hmem)
  | .apply op lhs rhs =>
    refine S.keeps_pattern_of_tracks hp fun n => ((S.after n).tracks_singleScalar hd).bind ?_
    rintro _ x ⟨rfl, hx⟩
    exact tracks_emit (S.apply_stmt op hx h.1 h.2)
  | .index array indices =>
    simp only [Exp.rewrite, List.map_id]
    exact S.keeps_pattern_of_tracks hp fun n => (S.after n).tracks_lowerIndex hd h.1 h.2
  | .update array indices value =>
    simp only [Exp.rewrite, List.map_id]
    exact S.keeps_pattern_of_tracks hp fun n => (S.after n).tracks_lowerUpdate hd h.1 h.2
  | .alloc size space => exact keeps_of_tracks fun n => (S.after n).alloc space hp h
  | .scratch element shape =>
    exact S.keeps_pattern_of_tracks hp fun n => tracks_pure trivial
  | .branch cond ⟨yes, yesResult⟩ ⟨no, noResult⟩ =>
    obtain ⟨hc, ⟨hyes, hyr⟩, hno, hnr⟩ := h
    have hlen := Stm.length_drawnAll thread thread' yes
    have hlen' := Stm.length_drawnAll thread thread' no
    have hy := S.lowerAll (hm.mono (List.subset_append_left ..)) hyes
    have hn := S.lowerAll (hm.mono (List.subset_append_right ..)) hno
    simp only [Exp.rewrite, Body.rewrite, List.map_id]
    refine S.keeps_pattern hp ?_
    refine (S.keeps_lowerBranch hlen hd hy hyr).bind hlen fun _ _ hcode => ?_
    refine (S.keeps_lowerBranch hlen' hd hn hnr).before hlen' fun _ _ hcode' n => ?_
    exact tracks_emit (S.branch_stmt hc hcode hcode')
  | .loop carried counter bound ⟨stms, result⟩ =>
    obtain ⟨hc, hcounter, hb, hs, hr, hlast⟩ := h
    simp only [Exp.rewrite, Body.rewrite, List.map_id]
    exact S.keeps_pattern hp (S.keeps_lowerLoop (Stm.length_drawnAll thread thread' stms) hd hc
      hcounter hb (S.lowerAll hm hs) hr hlast)
  | .map ⟨params, ⟨stms, result⟩, ret⟩ inputs =>
    cases hm with
    | loops =>
      obtain ⟨⟨hps, hs, hr⟩, hi, hh⟩ := h
      simp only [Exp.rewrite, Lambda.rewrite, Body.rewrite, List.map_id]
      exact S.keeps_pattern hp
        (S.keeps_lowerMapLoop rfl hd hps (S.lowerAll .loops hs) hr hi hh)
    | chosen hchosen =>
      exact hchosen _ (List.mem_cons_self ..) hp h.1 h.2.1 h.2.2

end

end Timetable

/-- **Compilation preserves a simulation.** -/
theorem Simulation.lowerAll (S : Simulation) {thread thread' : Option String}
    {onMap onMap' : Option MapLowering} {stms : List Stm}
    (hm : S.timetable.Maps (Stm.mapsAll stms) thread thread' onMap onMap')
    (h : Stm.RespectsAll S.roles stms) :
    S.Steps (Stm.lowerAll onMap stms) (Stm.lowerAll onMap' (Stm.rewriteAll S.move id stms)) := by
  intro c c' hctx
  have hrun := S.timetable.lowerAll hm h 0 (fun _ _ _ _ _ => trivial) ⟨hctx, trivial⟩
  cases ho : ((Stm.lowerAll onMap stms).run c).outcome with
  | error e => rw [ho] at hrun; exact hrun
  | ok a =>
    rw [ho] at hrun
    obtain ⟨b, hb, hab, hcode, hlast⟩ := hrun
    exact ⟨b, hb, hab, hcode, hlast.1⟩

end KernelGen
