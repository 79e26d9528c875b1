import SlotRotation.Proofs.Execution
import SlotRotation.Proofs.Goodness
import SlotRotation.Proofs.Stages

/-! The accesses to a buffer in the order in which a run makes them. In the body of a loop the first access of the
walk is also the first one that is made, as long as no loop around it is passed over. -/

namespace SlotRotation

def Visit.reads (reads : OpId → List Use) : Visit → List Use
  | .op id | .loop id _ => reads id
  | .iteration .. => []

namespace Kernel

variable (k : Kernel) (buffer : ValueId)

def accessesIn (id : OpId) : List Use :=
  (((k.op? id).map (readsIn buffer id)).getD []).filter fun use => !k.isRelease use

def firstAccess? (visits : List Visit) : Option Use := (visits.flatMap (Visit.reads (k.accessesIn buffer))).head?

end Kernel

/-- A loop that fills a tile in an inner loop up to `upper`, and then reads it. -/
def Stmt.nestedFill (upper : ValueId) : List Stmt :=
  [.alloc .tile (some 2) none, .constant 0, .constant 8, .constant 1,
    .loop ⟨1⟩ ⟨2⟩ ⟨3⟩ none [.loop ⟨1⟩ upper ⟨3⟩ none [.fill ⟨0⟩ ⟨1⟩], .load ⟨0⟩ [⟨4⟩]]]

namespace Semantics

variable {sem : Semantics} {m m' : Machine}

theorem visits_writeAll (writes : List (Instance × Content)) (m : Machine) :
    (m.writeAll writes).visits = m.visits := by
  induction writes generalizing m with
  | nil => rfl
  | cons w writes ih => exact ih _

theorem visits_step {i : Instr} (h : sem.step m i = some m') : m'.visits = m.visits := by
  cases i <;> simp only [step, Option.bind_eq_bind, Option.bind_eq_some_iff, Option.pure_def, Option.some.injEq,
    reduceCtorEq] at h
  case alloc | dealloc | constant | barrier | yield | ret => subst h; rfl
  case fill | copy =>
    obtain ⟨_, _, _, _, rfl⟩ := h
    rfl
  case arith | store | selectSlot =>
    obtain ⟨_, _, _, _, _, _, rfl⟩ := h
    rfl
  case load =>
    obtain ⟨_, _, _, _, rfl⟩ := h
    rfl
  case compute =>
    obtain ⟨_, _, _, _, rfl⟩ := h
    exact visits_writeAll ..

section

variable {reads : OpId → List Use}

def Enters (F : Forest) (u : OpId) (visits : List Visit) : Prop :=
  ∀ id n, .loop id n ∈ visits → F.Encloses id u → 0 < n

/-- What a run of `F` adds to the visits, seen from the accesses: none if there is none in `F`, and the first one of
`F` ahead of all others if no loop around it is passed over. -/
structure Follows (reads : OpId → List Use) (F : Forest) (visits : List Visit) : Prop where
  silent : F.ids.flatMap reads = [] → visits.flatMap (Visit.reads reads) = []
  first : ∀ use, (F.ids.flatMap reads).head? = some use → Enters F use.user visits →
    (visits.flatMap (Visit.reads reads)).head? = some use

theorem head?_append_eq {α : Type} {xs ys : List α} {a : α} :
    (xs ++ ys).head? = some a ↔ xs.head? = some a ∨ (xs = [] ∧ ys.head? = some a) := by
  cases xs <;> simp

theorem follows_iterate {body : Forest} {f : Machine → Option Machine} {start : Nat → Machine → Machine} {id : OpId}
    (hstart : ∀ i m, ∃ offset, (start i m).visits = m.visits ++ [.iteration id offset])
    (hbody : ∀ {m m'}, f m = some m' → ∃ vs, m'.visits = m.visits ++ vs ∧ Follows reads body vs) {n i : Nat}
    (h : iterate f start n i m = some m') :
    ∃ vs, m'.visits = m.visits ++ vs ∧ (body.ids.flatMap reads = [] → vs.flatMap (Visit.reads reads) = []) ∧
      (0 < n → ∀ use, (body.ids.flatMap reads).head? = some use → Enters body use.user vs →
        (vs.flatMap (Visit.reads reads)).head? = some use) := by
  induction n generalizing i m with
  | zero =>
    cases h
    exact ⟨[], by simp, fun _ => rfl, fun hn => absurd hn (lt_irrefl 0)⟩
  | succ n ih =>
    obtain ⟨m₁, hone, hrest⟩ := Option.bind_eq_some_iff.mp h
    obtain ⟨offset, hoffset⟩ := hstart i m
    obtain ⟨vs, hvs, hfollows⟩ := hbody hone
    obtain ⟨ws, hws, hsilent, -⟩ := ih hrest
    refine ⟨.iteration id offset :: (vs ++ ws), ?_, fun hnone => ?_, fun _ use huse henters => ?_⟩
    · rw [hws, hvs, hoffset]
      simp
    · simp [Visit.reads, hfollows.silent hnone, hsilent hnone]
    · have hvisits : Enters body use.user vs := fun a t hmem => henters a t (by simp [hmem])
      rw [List.flatMap_cons, List.flatMap_append]
      exact head?_append_eq.mpr (Or.inr ⟨rfl, head?_append_eq.mpr (Or.inl (hfollows.first use huse hvisits))⟩)

theorem follows_exec (hreads : ∀ id, ∀ use ∈ reads id, use.user = id) {F : Forest} (h : sem.exec F m = some m') :
    ∃ vs, m'.visits = m.visits ++ vs ∧ Follows reads F vs := by
  induction F generalizing m m' with
  | nil =>
    cases h
    exact ⟨[], by simp, ⟨fun _ => rfl, fun use huse => absurd huse (by simp)⟩⟩
  | op id i rest ih =>
    obtain ⟨m₁, hone, hrest⟩ := Option.bind_eq_some_iff.mp h
    obtain ⟨vs, hvs, hfollows⟩ := ih hrest
    rw [visits_step hone] at hvs
    refine ⟨.op id :: vs, by rw [hvs]; simp [Machine.visit], ⟨fun hnone => ?_, fun use huse henters => ?_⟩⟩
    · rw [Forest.ids_op, List.flatMap_cons, List.append_eq_nil_iff] at hnone
      rw [List.flatMap_cons, hfollows.silent hnone.2, List.append_nil]
      exact hnone.1
    · rw [Forest.ids_op, List.flatMap_cons] at huse
      rw [List.flatMap_cons]
      refine head?_append_eq.mpr ((head?_append_eq.mp huse).imp_right fun ⟨hnone, hlater⟩ => ⟨hnone, ?_⟩)
      refine hfollows.first use hlater fun a t hmem hencloses => henters a t (List.mem_cons_of_mem _ hmem) ?_
      exact ⟨Or.inr hencloses.1, hencloses.2.imp fun l hl => List.mem_cons_of_mem _ hl⟩
  | loop id l body rest ihb ihr =>
    simp only [exec, Option.bind_eq_bind, Option.bind_eq_some_iff] at h
    obtain ⟨lower, -, upper, -, step, -, trips, -, m₁, hbody, hrest⟩ := h
    obtain ⟨vs, hvs, hsilent, hfirst⟩ := follows_iterate (fun i m => ⟨_, rfl⟩) (fun hm => ihb hm) hbody
    obtain ⟨ws, hws, hfollows⟩ := ihr hrest
    refine ⟨.loop id trips :: (vs ++ ws), ?_, ⟨fun hnone => ?_, fun use huse henters => ?_⟩⟩
    · rw [hws, hvs]
      simp [Machine.visit]
    · rw [Forest.ids_loop, List.flatMap_cons, List.flatMap_append, List.append_eq_nil_iff,
        List.append_eq_nil_iff] at hnone
      rw [List.flatMap_cons, List.flatMap_append, hsilent hnone.2.1, hfollows.silent hnone.2.2]
      simpa [Visit.reads] using hnone.1
    · rw [Forest.ids_loop, List.flatMap_cons, List.flatMap_append] at huse
      rw [List.flatMap_cons, List.flatMap_append]
      refine head?_append_eq.mpr ((head?_append_eq.mp huse).imp_right fun ⟨hnone, hlater⟩ => ⟨hnone, ?_⟩)
      refine head?_append_eq.mpr ((head?_append_eq.mp hlater).imp (fun hin => ?_) fun ⟨hempty, hout⟩ =>
        ⟨hsilent hempty, ?_⟩)
      · have hmem : use.user ∈ body.ids := by
          obtain ⟨a, ha, huse⟩ := List.mem_flatMap.mp (List.mem_of_mem_head? hin)
          rw [hreads a use huse]
          exact ha
        have hpos := henters id trips List.mem_cons_self ⟨Or.inl ⟨rfl, hmem⟩, l, List.mem_cons_self⟩
        refine hfirst hpos use hin fun a t hat hencloses => henters a t (by simp [hat]) ?_
        exact ⟨Or.inr (Or.inl hencloses.1), hencloses.2.imp fun l hl =>
          List.mem_cons_of_mem _ (List.mem_append_left _ hl)⟩
      · refine hfollows.first use hout fun a t hat hencloses => henters a t (by simp [hat]) ?_
        exact ⟨Or.inr (Or.inr hencloses.1), hencloses.2.imp fun l hl =>
          List.mem_cons_of_mem _ (List.mem_append_right _ hl)⟩

end

end Semantics

theorem Forest.Holds.flatMap_reads {F B : Forest} {a : OpId} {l : Loop} {reads : OpId → List Use} (h : F.Holds a l B)
    (hF : F.ids.Nodup) (hreads : ∀ id ∈ F.ids, id ∉ B.ids → reads id = []) :
    F.ids.flatMap reads = B.ids.flatMap reads := by
  have hnone : ∀ {G : Forest}, (∀ id ∈ G.ids, reads id = []) → G.ids.flatMap reads = [] := fun hG =>
    List.flatMap_eq_nil_iff.mpr hG
  induction F with
  | nil => exact h.elim
  | op id i rest ih =>
    obtain ⟨hid, hrest⟩ := nodup_op hF
    have hhead : reads id = [] := hreads id List.mem_cons_self fun hmem => hid (Holds.ids_subset (F := rest) h hmem)
    rw [ids_op, List.flatMap_cons, hhead, List.nil_append]
    exact ih h hrest fun x hx => hreads x (List.mem_cons_of_mem _ hx)
  | loop id l' body rest ihb ihr =>
    obtain ⟨hidb, hidr, hb, hr, hdis⟩ := nodup_loop hF
    simp only [ids_loop, List.mem_cons, List.mem_append] at hreads
    rw [ids_loop, List.flatMap_cons, List.flatMap_append]
    rcases h with ⟨rfl, rfl, rfl⟩ | h | h
    · rw [hreads id (Or.inl rfl) hidb, hnone fun x hx => hreads x (Or.inr (Or.inr hx)) fun hmem => hdis x hmem hx]
      simp
    · have hsub : ∀ x ∈ B.ids, x ∈ body.ids := fun x hx => Holds.ids_subset h hx
      rw [hreads id (Or.inl rfl) fun hmem => hidb (hsub id hmem),
        hnone fun x hx => hreads x (Or.inr (Or.inr hx)) fun hmem => hdis x (hsub x hmem) hx,
        ihb h hb fun x hx => hreads x (Or.inr (Or.inl hx))]
      simp
    · have hsub : ∀ x ∈ B.ids, x ∈ rest.ids := fun x hx => Holds.ids_subset h hx
      rw [hreads id (Or.inl rfl) fun hmem => hidr (hsub id hmem),
        hnone fun x hx => hreads x (Or.inr (Or.inl hx)) fun hmem => hdis x hx (hsub x hmem),
        ihr h hr fun x hx => hreads x (Or.inr (Or.inr hx))]
      simp

namespace Kernel

variable {k : Kernel} {F : Forest}

theorem user_of_mem_accessesIn {buffer : ValueId} {id : OpId} {use : Use} (h : use ∈ k.accessesIn buffer id) :
    use.user = id := by
  have hmem := (List.mem_filter.mp h).1
  cases hop : k.op? id with
  | none => simp [hop] at hmem
  | some op =>
    simp only [hop, Option.map_some, Option.getD_some] at hmem
    exact (Forest.mem_usesIn (n := (id, op.instr)).mp hmem).1

theorem Arranges.flatMap_accessesIn (h : Arranges k F) (buffer : ValueId) :
    F.ids.flatMap (k.accessesIn buffer) = (F.uses buffer).filter fun use => !k.isRelease use := by
  rw [Forest.uses, List.filter_flatMap, Forest.ids, List.flatMap_map, List.flatMap_def, List.flatMap_def]
  refine congrArg _ (List.map_congr_left fun n hn => ?_)
  obtain ⟨r, hr⟩ := h.placed.op? hn
  rw [accessesIn, hr]
  rfl

/-- The accesses of an expansion are those of the kernel in the order of the walk, and if that is asked for, the
first of them overwrites the buffer. -/
theorem Arranges.accesses_of_expansion (h : Arranges k F) {policy : Policy} {site : Site} {factor : Int64}
    {e : Expansion} (he : site.expansion policy k factor = .ok e) :
    e.accesses = F.ids.flatMap (k.accessesIn site.buffer) ∧
      (policy.requireOverwrite = true → ∀ first, e.accesses.head? = some first → k.overwrites first = true) := by
  have huses : (DefUse.ofKernel k).usesOf site.buffer = F.uses site.buffer := DefUse.usesOf_ofKernel h _
  unfold Site.expansion at he
  rw [huses] at he
  obtain ⟨slots, -, he⟩ := except_bind_eq_ok he
  obtain ⟨_, -, he⟩ := except_bind_eq_ok he
  obtain ⟨_, -, he⟩ := except_bind_eq_ok he
  obtain ⟨loop, -, he⟩ := except_bind_eq_ok he
  obtain ⟨_, hcheck, he⟩ := except_bind_eq_ok he
  cases he
  refine ⟨(h.flatMap_accessesIn site.buffer).symm, fun hpolicy first hfirst => ?_⟩
  unfold Site.checkOverwrite at hcheck
  split at hcheck
  · rename_i hpass
    simpa [hpolicy, hfirst] using hpass
  · cases hcheck

/-- A run of the body of the loop makes the first access of the walk before all others. -/
theorem Stores.firstAccess?_eq (h : Stores k F) (hsc : F.Scoped) {policy : Policy} {site : Site} {factor : Int64}
    {e : Expansion} (he : site.expansion policy k factor = .ok e) {l : Loop} {body : Forest}
    (hbody : F.Holds e.loop l body) {sem : Semantics} {m m' : Machine} (hvisits : m.visits = [])
    (hrun : sem.exec body m = some m')
    (henters : ∀ first ∈ e.accesses.head?, ∀ id n, .loop id n ∈ m'.visits → k.isAncestor id first.user → 0 < n) :
    k.firstAccess? site.buffer m'.visits = e.accesses.head? := by
  obtain ⟨haccesses, -⟩ := h.accesses_of_expansion he
  have hsound := h.expansion_sound (hsc.reaches _) he
  have hinside : F.ids.flatMap (k.accessesIn site.buffer) = body.ids.flatMap (k.accessesIn site.buffer) := by
    refine hbody.flatMap_reads h.nodup fun id hid hout => List.eq_nil_iff_forall_not_mem.mpr fun use huse => hout ?_
    rw [← user_of_mem_accessesIn huse]
    refine (hbody.inScope_iff h.nodup).mp (hsound.inner use ?_)
    rw [haccesses]
    exact List.mem_flatMap.mpr ⟨id, hid, huse⟩
  obtain ⟨vs, hvs, hfollows⟩ := Semantics.follows_exec (fun id use huse => user_of_mem_accessesIn huse) hrun
  rw [hvisits, List.nil_append] at hvs
  rw [haccesses, hinside] at henters ⊢
  rw [firstAccess?, hvs]
  cases hfirst : (body.ids.flatMap (k.accessesIn site.buffer)).head? with
  | none => rw [hfollows.silent (List.head?_eq_none_iff.mp hfirst), List.head?_nil]
  | some first =>
    refine hfollows.first first hfirst fun id n hmem hencloses => henters first hfirst id n (hvs ▸ hmem) ?_
    have hin : first.user ∈ F.ids := hbody.ids_subset hencloses.1.right_mem
    exact (h.isAncestor_iff hin).mpr ⟨hbody.inScope_of_body hencloses.1,
      hencloses.2.imp fun _ hl => hbody.nodes_subset hl⟩

end Kernel

namespace Transform

theorem expansion_of_expand {policy : Policy} {site : Site} {factor : Int64} {s s' : State} {set : SlotSet}
    (h : expand policy site factor s = .ok set s') :
    ∃ e, site.expansion policy s.kernel factor = .ok e ∧ set.loop = e.loop ∧
    set.bindings.map Binding.use = e.accesses := by
  obtain ⟨e, _, _, _, _, _, _, _, he, -, -, -, -, -, -, -, -, -, -, hloop, hbindings⟩ := expand_stages h
  refine ⟨e, he, hloop, ?_⟩
  rw [hbindings, List.map_map]
  exact List.map_id _

open Kernel in
/-- With the check for overwriting, the first access that an iteration of the loop makes overwrites the buffer, as
long as the loops around the first access of the walk make an iteration whenever they are come by. -/
theorem expand_overwrites {name : String} {location : Location} {stmts : List Stmt} (start : State)
    (hstart : start.kernel = build name location stmts) (hv : start.kernel.verify = .ok ()) (policy : Policy)
    (hpolicy : policy.requireOverwrite = true) (site : Site) (factor : Int64) {set : SlotSet} {s : State}
    (hexpand : expand policy site factor (survey start).2 = .ok set s) {l : Loop} {body : Forest}
    (hbody : (survey start).2.kernel.forest.Holds set.loop l body) (sem : Semantics) {m m' : Machine}
    (hvisits : m.visits = []) (hrun : sem.exec body m = some m')
    (henters : ∀ first ∈ set.bindings.head?, ∀ id n, .loop id n ∈ m'.visits →
      (survey start).2.kernel.isAncestor id first.use.user → 0 < n) :
    ∀ use, (survey start).2.kernel.firstAccess? site.buffer m'.visits = some use →
      (survey start).2.kernel.overwrites use = true := by
  obtain ⟨F₀, hF₀⟩ := build_stores name location stmts
  rw [← hstart] at hF₀
  obtain ⟨hbecomes, -, -⟩ := hF₀.surveyOps start.kernel.preorder
  have hS : Stores (survey start).2.kernel _ := hbecomes.stores
  have hsc := ((hF₀.verify_eq_ok_iff).mp hv).stripping hF₀.plain start.kernel.preorder hF₀.nodup
  rw [hS.forest_eq] at hbody
  obtain ⟨e, he, hloop, hbindings⟩ := expansion_of_expand hexpand
  rw [hloop] at hbody
  have hfirst := hS.firstAccess?_eq hsc he hbody hvisits hrun fun first hmem id n => by
    rw [← hbindings, List.head?_map, Option.mem_map] at hmem
    obtain ⟨binding, hbinding, rfl⟩ := hmem
    exact henters binding hbinding id n
  intro use huse
  exact (hS.accesses_of_expansion he).2 hpolicy use (hfirst ▸ huse)

/-- The inner loop fills the tile in every iteration. -/
theorem expand_overwrites_nestedFill :
    ∃ (start s : State) (set : SlotSet) (l : Loop) (body : Forest) (m m' : Machine),
      start.kernel = Kernel.build "nested" .unknown (Stmt.nestedFill ⟨2⟩) ∧
      expand .strict ⟨⟨0⟩, ⟨0⟩, .tile, 2, none⟩ 2 (survey start).2 = .ok set s ∧
      (survey start).2.kernel.forest.Holds set.loop l body ∧
      Semantics.exec ⟨fun _ => 0, fun _ _ _ _ => 0⟩ body m = some m' ∧
      ∀ use, (survey start).2.kernel.firstAccess? ⟨0⟩ m'.visits = some use →
        (survey start).2.kernel.overwrites use = true := by
  obtain ⟨start, hstart⟩ : ∃ start : State,
      start = { kernel := Kernel.build "nested" .unknown (Stmt.nestedFill ⟨2⟩), pass := "slots" } := ⟨_, rfl⟩
  let inner : Loop := { induction := ⟨5⟩, lower := ⟨1⟩, upper := ⟨2⟩, step := ⟨3⟩, body := ⟨2⟩ }
  let outer : Loop := { induction := ⟨4⟩, lower := ⟨1⟩, upper := ⟨2⟩, step := ⟨3⟩, body := ⟨1⟩ }
  let body : Forest := .loop ⟨6⟩ inner (.op ⟨4⟩ (.fill ⟨0⟩ ⟨1⟩) (.op ⟨5⟩ .yield .nil))
    (.op ⟨7⟩ (.load ⟨6⟩ ⟨0⟩ [⟨4⟩]) (.op ⟨8⟩ .yield .nil))
  let m : Machine := { env := fun v => [.buffer ⟨⟨0⟩, 0⟩, .word 0, .word 8, .word 1, .word 0][v.index]? }
  have hloop : (match expand .strict ⟨⟨0⟩, ⟨0⟩, .tile, 2, none⟩ 2 (survey start).2 with
      | .ok set _ => some set.loop
      | .error _ _ => none) = some ⟨9⟩ := by rw [hstart]; decide +kernel
  have hforest : (survey start).2.kernel.forest =
      .op ⟨0⟩ (.alloc { result := ⟨0⟩, ty := .tile }) (.op ⟨1⟩ (.constant ⟨1⟩ 0) (.op ⟨2⟩ (.constant ⟨2⟩ 8)
        (.op ⟨3⟩ (.constant ⟨3⟩ 1) (.loop ⟨9⟩ outer body .nil)))) := by rw [hstart]; decide +kernel
  have hruns : ((Semantics.exec ⟨fun _ => 0, fun _ _ _ _ => 0⟩ body m).map fun m' => m'.visits.all fun
      | .loop _ n => decide (0 < n)
      | _ => true) = some true := by decide +kernel
  have hv : start.kernel.verify = .ok () := by rw [hstart]; decide +kernel
  obtain ⟨m', hrun, hall⟩ := Option.map_eq_some_iff.mp hruns
  cases hexpand : expand .strict ⟨⟨0⟩, ⟨0⟩, .tile, 2, none⟩ 2 (survey start).2 with
  | error err s => rw [hexpand] at hloop; cases hloop
  | ok set s =>
    rw [hexpand, Option.some.injEq] at hloop
    have hbody : (survey start).2.kernel.forest.Holds set.loop outer body := by
      rw [hforest, hloop]
      exact Or.inl ⟨rfl, rfl, rfl⟩
    have hkernel : start.kernel = Kernel.build "nested" .unknown (Stmt.nestedFill ⟨2⟩) := by rw [hstart]
    refine ⟨start, s, set, outer, body, m, m', hkernel, hexpand, hbody, hrun, ?_⟩
    refine expand_overwrites start hkernel hv .strict rfl _ 2 hexpand hbody _ rfl hrun ?_
    intro first _ id n hmem _
    exact of_decide_eq_true (List.all_eq_true.mp hall _ hmem)

/-- An inner loop without iterations is passed over, and then the tile is read before it is overwritten. -/
theorem read_first_nestedFill :
    ∃ (start s : State) (set : SlotSet) (m : Machine) (before after : List Visit) (use : Use),
      start.kernel = Kernel.build "nested" .unknown (Stmt.nestedFill ⟨1⟩) ∧ start.kernel.verify = .ok () ∧
      expand .strict ⟨⟨0⟩, ⟨0⟩, .tile, 2, none⟩ 2 (survey start).2 = .ok set s ∧
      Semantics.exec ⟨fun _ => 0, fun _ _ _ _ => 0⟩ (survey start).2.kernel.forest {} = some m ∧
      m.visits = before ++ .iteration set.loop 0 :: after ∧
      (survey start).2.kernel.firstAccess? ⟨0⟩ after = some use ∧
      (survey start).2.kernel.overwrites use = false := by
  obtain ⟨start, hstart⟩ : ∃ start : State,
      start = { kernel := Kernel.build "nested" .unknown (Stmt.nestedFill ⟨1⟩), pass := "slots" } := ⟨_, rfl⟩
  have hloop : (match expand .strict ⟨⟨0⟩, ⟨0⟩, .tile, 2, none⟩ 2 (survey start).2 with
      | .ok set _ => some set.loop
      | .error _ _ => none) = some ⟨9⟩ := by rw [hstart]; decide +kernel
  have hruns : ((Semantics.exec ⟨fun _ => 0, fun _ _ _ _ => 0⟩ (survey start).2.kernel.forest {}).map fun m =>
      ((m.visits.drop 5).head?, (survey start).2.kernel.firstAccess? ⟨0⟩ (m.visits.drop 6))) =
        some (some (.iteration ⟨9⟩ 0), some ⟨⟨7⟩, 0⟩) := by rw [hstart]; decide +kernel
  have hreads : (survey start).2.kernel.overwrites ⟨⟨7⟩, 0⟩ = false := by rw [hstart]; decide +kernel
  have hv : start.kernel.verify = .ok () := by rw [hstart]; decide +kernel
  obtain ⟨m, hrun, heq⟩ := Option.map_eq_some_iff.mp hruns
  rw [Prod.mk.injEq] at heq
  have hsplit : m.visits = m.visits.take 5 ++ .iteration ⟨9⟩ 0 :: m.visits.drop 6 := by
    obtain ⟨rest, hrest⟩ := List.head?_eq_some_iff.mp heq.1
    have htail : m.visits.drop 6 = rest := by rw [← List.tail_drop, hrest, List.tail_cons]
    rw [htail, ← hrest, List.take_append_drop]
  cases hexpand : expand .strict ⟨⟨0⟩, ⟨0⟩, .tile, 2, none⟩ 2 (survey start).2 with
  | error err s => rw [hexpand] at hloop; cases hloop
  | ok set s =>
    rw [hexpand, Option.some.injEq] at hloop
    have hkernel : start.kernel = Kernel.build "nested" .unknown (Stmt.nestedFill ⟨1⟩) := by rw [hstart]
    exact ⟨start, s, set, m, _, _, _, hkernel, hv, hexpand, hrun, hloop.symm ▸ hsplit, heq.2, hreads⟩

end Transform
end SlotRotation
