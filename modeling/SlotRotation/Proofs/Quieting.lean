import SlotRotation.Proofs.Resize
import SlotRotation.Proofs.Simulation

/-! What expansions and resizings come to, apart from ops that do nothing: slots in place of a buffer. Such ops are
barriers and releases, and a kernel does the same without them. -/

namespace SlotRotation

def Rewriting.quieting : Rewriting where
  leaf id i := if i.isInert then [] else [(id, i)]

theorem Rewriting.flatMap_quieting (ns : List Node) :
    (ns.flatMap fun n => quieting.leaf n.1 n.2) = ns.filter fun n => !n.2.isInert := by
  induction ns with
  | nil => rfl
  | cons n ns ih =>
    rw [List.flatMap_cons, ih, List.filter_cons]
    cases hinert : n.2.isInert <;> simp [quieting, hinert]

namespace Semantics

variable {sem : Semantics}

theorem writeAll_visited (writes : List (Instance × Content)) (m : Machine) (vs : List Visit) :
    ({ m with visits := vs } : Machine).writeAll writes = { m.writeAll writes with visits := vs } := by
  induction writes generalizing m with
  | nil => rfl
  | cons w writes ih => exact ih (m.write w.1 w.2)

theorem step_visited (sem : Semantics) (m : Machine) (i : Instr) (vs : List Visit) :
    sem.step { m with visits := vs } i = (sem.step m i).map fun m' => { m' with visits := vs } := by
  have hword : ({ m with visits := vs } : Machine).word? = m.word? := rfl
  have hplace : ({ m with visits := vs } : Machine).place? = m.place? := rfl
  have hread : ({ m with visits := vs } : Machine).read? = m.read? := rfl
  cases i <;> simp only [step, hword, hplace, hread, Option.bind_eq_bind, Option.pure_def, Option.map_bind,
    Function.comp_def, Option.map_some, Option.map_none, writeAll_visited] <;> rfl

theorem iterate_visited {f g : Machine → Option Machine} {id : OpId} {l : Loop} {lower step : Int64}
    (hbody : ∀ {m m'}, f m = some m' → ∀ vs, ∃ vs', g { m with visits := vs } = some { m' with visits := vs' })
    {n i : Nat} {m m' : Machine} (h : iterate f (enter id l lower step) n i m = some m') (vs : List Visit) :
    ∃ vs', iterate g (enter id l lower step) n i { m with visits := vs } = some { m' with visits := vs' } := by
  induction n generalizing i m vs with
  | zero =>
    cases h
    exact ⟨vs, rfl⟩
  | succ n ih =>
    obtain ⟨m₁, hone, hrest⟩ := Option.bind_eq_some_iff.mp h
    obtain ⟨vs₁, hvs₁⟩ := hbody hone (vs ++ [.iteration id (i * step.toInt)])
    obtain ⟨vs', hvs'⟩ := ih hrest vs₁
    exact ⟨vs', Option.bind_eq_some_iff.mpr ⟨_, hvs₁, hvs'⟩⟩

theorem exec_of_quieting {G : Forest} {m m' : Machine} (h : sem.exec (G.rewrite .quieting) m = some m')
    (vs : List Visit) : ∃ vs', sem.exec G { m with visits := vs } = some { m' with visits := vs' } := by
  induction G generalizing m m' vs with
  | nil =>
    cases h
    exact ⟨vs, rfl⟩
  | op id i rest ih =>
    rw [Forest.rewrite, exec_prepend] at h
    obtain ⟨m₁, hone, hrest⟩ := Option.bind_eq_some_iff.mp h
    obtain ⟨vs', hvs'⟩ := ih hrest (vs ++ [.op id])
    refine ⟨vs', Option.bind_eq_some_iff.mpr ⟨_, ?_, hvs'⟩⟩
    change sem.step { m with visits := vs ++ [.op id] } i = _
    by_cases hinert : i.isInert = true
    · rw [sem.step_inert _ hinert]
      simp only [Rewriting.quieting, hinert, if_true, steps, Option.some.injEq] at hone
      rw [hone]
    · simp only [Rewriting.quieting, hinert, if_false, steps, Bool.false_eq_true] at hone
      rw [Option.bind_fun_some] at hone
      have hstep := step_visited sem (m.visit (.op id)) i (vs ++ [.op id])
      rwa [hone] at hstep
  | loop id l body rest ihb ihr =>
    simp only [Forest.rewrite, exec, Rewriting.quieting, Forest.prepend_nil, Option.bind_eq_bind,
      Option.bind_eq_some_iff] at h
    obtain ⟨lower, hlower, upper, hupper, step, hstep, trips, htrips, m₁, hbody, hrest⟩ := h
    obtain ⟨vs₁, hvs₁⟩ := iterate_visited (fun hm => ihb hm) hbody (vs ++ [.loop id trips])
    obtain ⟨vs', hvs'⟩ := ihr hrest vs₁
    refine ⟨vs', ?_⟩
    simp only [exec, Option.bind_eq_bind, Option.bind_eq_some_iff]
    exact ⟨lower, hlower, upper, hupper, step, hstep, trips, htrips, _, hvs₁, hvs'⟩

end Semantics
namespace Forest

variable {F : Forest} {R S : Rewriting}

/-- The rewritings agree, except at the loop `a` and the barrier `g`. -/
structure Agree (F : Forest) (R S : Rewriting) (a g : OpId) : Prop where
  head : ∀ id l, R.head id l = S.head id l
  top : ∀ id l, (id, .loop l) ∈ F.nodes → id ≠ a → R.top l.body = S.top l.body
  leaf : ∀ n ∈ F.nodes, n.1 ≠ g → R.leaf n.1 n.2 = S.leaf n.1 n.2

theorem Agree.mono {G : Forest} {a g : OpId} (h : F.Agree R S a g) (hG : ∀ n ∈ G.nodes, n ∈ F.nodes) :
    G.Agree R S a g :=
  ⟨h.head, fun id l hl => h.top id l (hG _ hl), fun n hn => h.leaf n (hG n hn)⟩

theorem Agree.rewrite_eq {a g : OpId} (h : F.Agree R S a g) (hP : F.Plain) (ha : a ∉ F.ids) (hg : g ∉ F.ids) :
    F.rewrite R = F.rewrite S := by
  refine rewrite_congr hP fun n hn => ?_
  have hid := mem_ids_of_mem_nodes hn
  obtain ⟨id, i⟩ := n
  cases hr : i.region? with
  | none =>
    rw [R.image_leaf hr, S.image_leaf hr]
    exact h.leaf _ hn fun heq => hg (heq ▸ hid)
  | some r =>
    cases i with
    | loop l => rw [R.image_loop, S.image_loop, h.head, h.top id l hn fun heq => ha (heq ▸ hid)]
    | _ => cases hr

/-- Ops may come behind the barrier that leads a loop, or at the top of its body in place of the barrier. -/
theorem Agree.rewrite_lead {a g : OpId} {l : Loop} {B : Forest} (h : F.Agree R S a g) (hF : F.ids.Nodup)
    (hP : F.Plain) (hB : F.Holds a l (op g .barrier B)) (hRg : R.leaf g .barrier = S.top l.body)
    (hRl : R.top l.body = []) (hSg : S.leaf g .barrier = []) : F.rewrite R = F.rewrite S := by
  induction F with
  | nil => exact hB.elim
  | op id i rest ih =>
    obtain ⟨hid, hrest⟩ := nodup_op hF
    have hg : g ∈ rest.ids := Holds.ids_subset (F := rest) hB List.mem_cons_self
    have heq : R.leaf id i = S.leaf id i := h.leaf (id, i) List.mem_cons_self fun (heq : id = g) => hid (heq ▸ hg)
    rw [rewrite, rewrite, heq, ih (h.mono fun n hn => List.mem_cons_of_mem _ hn) hrest hP.2 hB]
  | loop id l' body rest ihb ihr =>
    obtain ⟨hidb, hidr, hb, hr, hdis⟩ := nodup_loop hF
    have hbody := h.mono (G := body) fun n hn => List.mem_cons_of_mem _ (List.mem_append_left _ hn)
    have hrest := h.mono (G := rest) fun n hn => List.mem_cons_of_mem _ (List.mem_append_right _ hn)
    have hmem : ∀ {G : Forest}, G.Holds a l (op g .barrier B) → a ∈ G.ids ∧ g ∈ G.ids := fun hG =>
      ⟨mem_ids_of_mem_nodes hG.mem_nodes, hG.ids_subset List.mem_cons_self⟩
    rcases hB with ⟨rfl, rfl, rfl⟩ | hin | hout
    · obtain ⟨hg, -⟩ := nodup_op hb
      have hinner := (hbody.mono (G := B) fun n hn => List.mem_cons_of_mem _ hn).rewrite_eq hP.1.2
        (fun hin => hidb (List.mem_cons_of_mem _ hin)) hg
      have houter := hrest.rewrite_eq hP.2 hidr fun hin => hdis _ List.mem_cons_self hin
      simp only [rewrite, hRg, hRl, hSg, h.head, hinner, houter, prepend_nil]
    · obtain ⟨ha, hg⟩ := hmem hin
      have htop := h.top id l' List.mem_cons_self fun heq => hidb (heq ▸ ha)
      have houter := hrest.rewrite_eq hP.2 (hdis _ ha) (hdis _ hg)
      simp only [rewrite, h.head, htop, ihb hbody hb hP.1 hin, houter]
    · obtain ⟨ha, hg⟩ := hmem hout
      have htop := h.top id l' List.mem_cons_self fun heq => hidr (heq ▸ ha)
      have hinner := hbody.rewrite_eq hP.1 (fun hin => hdis _ hin ha) fun hin => hdis _ hin hg
      simp only [rewrite, h.head, htop, hinner, ihr hrest hr hP.2 hout]

end Forest

/-- What an exchange comes to without what does nothing, if its entry goes to the top of the region `r`. -/
def Exchange.quieted {F : Forest} (E : Exchange F) (r : RegionId) (entry : List Node) : Rewriting where
  leaf id i := ((E.table.lookup id).getD [E.renamed (id, i)]).filter fun n => !n.2.isInert
  head := E.rewriting.head
  head_frame := E.rewriting.head_frame
  top r' := if r' = r then entry else []

theorem Instr.isInert_mapOperands (f : Nat → ValueId → ValueId) (i : Instr) :
    (i.mapOperands f).isInert = i.isInert := by
  cases i <;> rfl

theorem Exchange.leaf_quieted {F : Forest} {E : Exchange F} {n : Node} (hkey : n.1 ∉ E.keys) (r : RegionId)
    (entry : List Node) : (E.quieted r entry).leaf n.1 n.2 = if n.2.isInert then [] else [E.renamed n] := by
  have hlookup : (E.quieted r entry).leaf n.1 n.2 = [E.renamed n].filter fun n => !n.2.isInert := by
    rw [quieted]
    dsimp only
    rw [lookup_eq_none hkey]
    rfl
  have hinert : (E.renamed n).2.isInert = n.2.isInert := Instr.isInert_mapOperands (fun _ => E.rename) n.2
  rw [hlookup, List.filter_singleton, hinert]
  cases n.2.isInert <;> rfl

namespace Kernel

variable {k k' : Kernel} {F : Forest} {E : Exchange F} {P : Footprint} {set : SlotSet} {l : Loop}
  {guard rot : List Node} (h : Installs k k' E P set l guard rot) (hS : Stores k F)
include h

theorem Installs.filter_entry : (E.entry.filter fun n => !n.2.isInert) = rot ++ [set.selectNode] := by
  have hguard : (guard.filter fun n => !n.2.isInert) = [] := by
    refine List.filter_eq_nil_iff.mpr fun n hn => ?_
    rw [h.yields.guarded n hn]
    simp [Instr.isInert, Instr.isDealloc, Instr.isBarrier]
  have hrot : (rot.filter fun n => !n.2.isInert) = rot := by
    refine List.filter_eq_self.mpr fun n hn => ?_
    rcases h.rotates.mem_cases hn with ⟨_, _, heq⟩ | ⟨_, _, _, _, heq⟩ <;> rw [heq] <;> rfl
  rw [h.yields.entry, List.filter_append, List.filter_append, hguard, hrot]
  rfl

include hS

theorem Installs.quiet_result :
    E.result.rewrite .quieting = F.rewrite (E.quieted l.body (rot ++ [set.selectNode])) := by
  have hleaf : ∀ n : Node, (E.rewriting.andThen .quieting).leaf n.1 n.2 =
      (E.quieted l.body (rot ++ [set.selectNode])).leaf n.1 n.2 ++
        if E.point = .after n.1 then rot ++ [set.selectNode] else [] := by
    intro n
    rw [Rewriting.leaf_andThen, Rewriting.flatMap_quieting, Exchange.leaf_rewriting, List.filter_append,
      ← h.filter_entry]
    congr 1
    split <;> rfl
  have htop : ∀ r, (E.rewriting.andThen .quieting).top r =
      if E.point = .first r then rot ++ [set.selectNode] else [] := by
    intro r
    change ((if E.point = .first r then E.entry else []).flatMap fun n => Rewriting.quieting.leaf n.1 n.2) = _
    rw [Rewriting.flatMap_quieting, ← h.filter_entry]
    split <;> rfl
  rw [Exchange.result, Forest.rewrite_rewrite]
  rcases h.opens with ⟨hp, -⟩ | ⟨g, hp, l', B, hB⟩
  · apply Forest.rewrite_congr hS.plain
    rintro ⟨id, i⟩ hn
    cases hr : i.region? with
    | none =>
      rw [Rewriting.image_leaf _ hr, Rewriting.image_leaf _ hr, hleaf (id, i), hp, if_neg (by simp), List.append_nil]
    | some r =>
      cases i with
      | loop l' =>
        rw [Rewriting.image_loop, Rewriting.image_loop, htop, hp]
        simp only [InsertPoint.first.injEq, eq_comm (a := l.body)]
        rfl
      | _ => cases hr
  -- a barrier leads the body and the entry follows it: without the barrier, the entry leads
  · have hg : (g, .barrier) ∈ F.nodes := hB.nodes_subset List.mem_cons_self
    obtain rfl : l' = l := by injection Forest.node_unique hS.nodup hB.mem_nodes h.lies.loop
    have hgone : (E.quieted l'.body (rot ++ [set.selectNode])).leaf g .barrier = [] := by
      have hkey := E.kept _ hg ((Forest.hosts_leaf rfl).mpr (Or.inr hp))
      exact (Exchange.leaf_quieted (n := (g, .barrier)) hkey _ _).trans (if_pos rfl)
    have hagree : F.Agree (E.rewriting.andThen .quieting)
        (E.quieted l'.body (rot ++ [set.selectNode])) set.loop g := by
      refine ⟨fun _ _ => rfl, fun id l₁ hl₁ hne => ?_, fun n hn hne => ?_⟩
      · rw [htop, hp, if_neg (by simp)]
        exact (if_neg fun hbody => hne (hS.eq_of_body hl₁ h.lies.loop hbody)).symm
      · rw [hleaf, hp, if_neg fun heq => hne (InsertPoint.after.inj heq).symm, List.append_nil]
    refine hagree.rewrite_lead hS.nodup hS.plain hB ?_ ?_ hgone
    · rw [hleaf (g, .barrier), hgone, if_pos hp]
      exact (if_pos rfl).symm
    · rw [htop, hp, if_neg (by simp)]

theorem Installs.leaf_footprint {n : Node} (hn : n ∈ P.nodes) (r : RegionId) (entry : List Node) :
    (E.quieted r entry).leaf n.1 n.2 = (E.rewriting.image n).filter fun n => !n.2.isInert := by
  have hkey : n.1 ∈ E.keys := h.replaces.keys ▸ Footprint.mem_ids_of_mem_nodes hn
  obtain ⟨e, he, heq⟩ := List.mem_map.mp hkey
  have hmem : (n.1, e.2) ∈ E.table := heq ▸ he
  rw [Exchange.image_key (h.lies.nodes n hn) hmem hS.nodup, Exchange.quieted]
  dsimp only
  rw [Exchange.lookup_eq_some E.nodup hmem, Option.getD_some]

theorem Installs.flatMap_allocs (r : RegionId) (entry : List Node) :
    (P.allocs.flatMap fun n => (E.quieted r entry).leaf n.1 n.2) = allocNodes set.ty set.slots := by
  have hkept : ((allocNodes set.ty set.slots).filter fun n => !n.2.isInert) = allocNodes set.ty set.slots := by
    refine List.filter_eq_self.mpr fun n hn => ?_
    obtain ⟨slot, -, rfl⟩ := SlotSet.mem_allocNodes.mp hn
    rfl
  rw [← hkept, ← h.replaces.allocs, List.filter_flatMap, List.flatMap_def, List.flatMap_def]
  refine congrArg _ (List.map_congr_left fun n hn => ?_)
  exact h.leaf_footprint hS (Footprint.mem_nodes.mpr (Or.inl hn)) r entry

theorem Installs.leaf_other {n : Node} (hn : n ∈ P.releases.flatten ++ P.prelude) (r : RegionId)
    (entry : List Node) : (E.quieted r entry).leaf n.1 n.2 = [] := by
  have hmem : n ∈ P.nodes := by
    rw [Footprint.nodes, List.append_assoc]
    exact List.mem_append_right _ hn
  rw [h.leaf_footprint hS hmem, List.filter_eq_nil_iff]
  intro m hm
  rcases List.mem_append.mp hn with hn | hn
  · have himage : m ∈ P.releases.flatten.flatMap E.rewriting.image := List.mem_flatMap.mpr ⟨n, hn, hm⟩
    rw [h.replaces.flatMap_releases] at himage
    obtain ⟨ns, hns, hmem⟩ := List.mem_flatten.mp himage
    obtain ⟨ops, -, rfl⟩ := List.mem_map.mp hns
    obtain ⟨_, _, -, -, heq⟩ := SlotSet.mem_releaseNodes.mp hmem
    rw [heq]
    simp [Instr.isInert, Instr.isDealloc]
  · have himage : m ∈ P.prelude.flatMap E.rewriting.image := List.mem_flatMap.mpr ⟨n, hn, hm⟩
    rw [h.replaces.prelude] at himage
    cases himage

end Kernel

end SlotRotation
