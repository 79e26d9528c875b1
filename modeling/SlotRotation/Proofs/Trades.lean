import SlotRotation.Proofs.Edits.Local

/-! Releases of one list of slots traded for releases of another, release by release. -/

namespace SlotRotation

theorem map_fst_releaseNodes {slots : List Slot} {ops : List OpId} (h : ops.length = slots.length) :
    (releaseNodes slots ops).map Prod.fst = ops := by
  induction slots generalizing ops with
  | nil =>
    rw [List.length_nil, List.length_eq_zero_iff] at h
    rw [h]
    rfl
  | cons slot slots ih =>
    cases ops with
    | nil => simp at h
    | cons op ops =>
      have hrest := ih (Nat.succ.inj h)
      rw [releaseNodes] at hrest
      rw [releaseNodes, List.zipWith_cons_cons, List.map_cons, hrest]

theorem map_fst_releases {slots : List Slot} {releases : List (List OpId)}
    (h : ∀ ops ∈ releases, ops.length = slots.length) :
    (releases.map (releaseNodes slots)).flatten.map Prod.fst = releases.flatten := by
  rw [List.map_flatten, List.map_map]
  congr 1
  exact (List.map_congr_left fun ops hops => map_fst_releaseNodes (h ops hops)).trans (List.map_id _)

theorem releaseNodes_append {slots added : List Slot} {ops new : List OpId} (h : ops.length = slots.length) :
    releaseNodes (slots ++ added) (ops ++ new) = releaseNodes slots ops ++ releaseNodes added new := by
  rw [releaseNodes, List.zipWith_append h.symm]
  rfl

theorem leaf_of_mem_releaseNodes {slots : List Slot} {ops : List OpId} {n : Node} (h : n ∈ releaseNodes slots ops) :
    n.2.region? = none := by
  obtain ⟨i, hi⟩ := List.mem_iff_getElem?.mp h
  obtain ⟨slot, op, -, -, rfl⟩ := List.getElem?_zipWith_eq_some.mp hi
  rfl

def Edit.replaceRelease (slots : List Slot) : List OpId → Edit (List OpId)
  | [] => pure []
  | old :: olds => do
    let ops ← releaseSlots slots (.before old)
    eraseAll (old :: olds)
    return ops

theorem Edit.eraseAll_singleton (id : OpId) : Edit.eraseAll [id] = Edit.erase id := by
  funext k
  rw [eraseAll]
  cases h : erase id k with
  | ok a k' => exact bind_of_ok h
  | error e k' => exact bind_of_error h

namespace Kernel

variable {k k' k₁ k₂ : Kernel} {F : Forest} {R S : Rewriting}

structure TradesOne (k k' : Kernel) (F : Forest) (R : Rewriting) (slots : List Slot) (ns : List Node)
    (new : List OpId) : Prop extends Becomes k k' F R where
  only : R.Local (ns.map Prod.fst)
  length : new.length = slots.length
  traded : ns.flatMap R.image = releaseNodes slots new
  nodup : new.Nodup
  origin : ∀ x ∈ new, x ∈ ns.map Prod.fst ∨ (k.ops.size ≤ x.index ∧ x.index < k'.ops.size)

structure Trades (k k' : Kernel) (F : Forest) (R : Rewriting) (slots : List Slot) (olds : List (List Node))
    (opss : List (List OpId)) : Prop extends Becomes k k' F R where
  only : R.Local (olds.flatten.map Prod.fst)
  traded : List.Forall₂ (fun ns ops => ops.length = slots.length ∧
    ns.flatMap R.image = releaseNodes slots ops) olds opss
  nodup : opss.flatten.Nodup
  origin : ∀ x ∈ opss.flatten, x ∈ olds.flatten.map Prod.fst ∨ (k.ops.size ≤ x.index ∧ x.index < k'.ops.size)

theorem Trades.nil (h : Stores k F) (slots : List Slot) : Trades k k F (.dropping []) slots [] [] where
  toExtends := Extends.refl k
  stores := by rw [Forest.rewrite_dropping_nil h.plain]; exact h
  flat := Rewriting.flat_dropping []
  only := Rewriting.local_dropping []
  traded := .nil
  nodup := List.nodup_nil
  origin := by simp

/-- The first release is traded, then the others: what was traded first is not touched again. -/
theorem Trades.cons {slots : List Slot} {ns : List Node} {olds : List (List Node)} {ops : List OpId}
    {opss : List (List OpId)} (hone : TradesOne k k₁ F R slots ns ops)
    (hrest : Trades k₁ k₂ (F.rewrite R) S slots olds opss) (hnodup : (((ns :: olds).flatten).map Prod.fst).Nodup)
    (hold : ∀ n ∈ (ns :: olds).flatten, n.1.index < k.ops.size) :
    Trades k k₂ F (R.andThen S) slots (ns :: olds) (ops :: opss) := by
  rw [List.flatten_cons, List.map_append] at hnodup
  obtain ⟨-, -, hdis⟩ := List.nodup_append.mp hnodup
  have hnew : ∀ x ∈ ops, x ∉ olds.flatten.map Prod.fst := by
    intro x hx hmem
    rcases hone.origin x hx with hin | hfresh
    · exact hdis x hin x hmem rfl
    · obtain ⟨n, hn, rfl⟩ := List.mem_map.mp hmem
      exact absurd (hold n (List.mem_append_right _ hn)) (Nat.not_lt.mpr hfresh.1)
  refine { hone.toBecomes.trans hrest.toBecomes with only := ?_, traded := ?_, nodup := ?_, origin := ?_ }
  · rw [List.flatten_cons, List.map_append]
    exact hone.only.andThen hrest.only
  · refine .cons ⟨hone.length, ?_⟩ ?_
    · rw [hone.flat.flatMap_andThen, hone.traded]
      refine hrest.only.flatMap_of_notMem fun n hn => ?_
      apply hnew
      rw [← map_fst_releaseNodes hone.length]
      exact List.mem_map_of_mem hn
    · have hkeep : ∀ ns' ∈ olds, ns'.flatMap R.image = ns' := by
        intro ns' hns'
        refine hone.only.flatMap_of_notMem fun n hn hmem => ?_
        exact hdis n.1 hmem n.1 (List.mem_map_of_mem (List.mem_flatten.mpr ⟨ns', hns', hn⟩)) rfl
      obtain ⟨hlength, hzip⟩ := List.forall₂_iff_zip.mp hrest.traded
      refine List.forall₂_iff_zip.mpr ⟨hlength, fun {ns' ops'} hmem => ⟨(hzip hmem).1, ?_⟩⟩
      rw [hone.flat.flatMap_andThen, hkeep ns' (List.of_mem_zip hmem).1]
      exact (hzip hmem).2
  · rw [List.flatten_cons]
    refine List.nodup_append.mpr ⟨hone.nodup, hrest.nodup, fun x hx y hy hxy => ?_⟩
    subst hxy
    rcases hrest.origin x hy with hin | hfresh
    · exact hnew x hx hin
    · rcases hone.origin x hx with hin' | hfresh'
      · obtain ⟨n, hn, rfl⟩ := List.mem_map.mp hin'
        have hlt := Nat.lt_of_lt_of_le (hold n (List.mem_append_left _ hn)) hone.ops
        exact absurd hlt (Nat.not_lt.mpr hfresh.1)
      · exact absurd hfresh'.2 (Nat.not_lt.mpr hfresh.1)
  · intro x hx
    rw [List.flatten_cons, List.map_append, List.mem_append]
    rcases List.mem_append.mp (List.flatten_cons ▸ hx) with hx | hx
    · exact (hone.origin x hx).imp Or.inl fun hfresh => ⟨hfresh.1, Nat.lt_of_lt_of_le hfresh.2 hrest.ops⟩
    · exact (hrest.origin x hx).imp Or.inr fun hfresh => ⟨Nat.le_trans hone.ops hfresh.1, hfresh.2⟩

theorem TradesOne.others_mem {slots : List Slot} {ns : List Node} {olds : List (List Node)} {new : List OpId}
    (h : Stores k F) (hone : TradesOne k k' F R slots ns new) (hnodes : ∀ n ∈ (ns :: olds).flatten, n ∈ F.nodes)
    (hnodup : (((ns :: olds).flatten).map Prod.fst).Nodup) : ∀ n ∈ olds.flatten, n ∈ (F.rewrite R).nodes := by
  intro n hn
  have hmem : n ∈ F.nodes := hnodes n (List.mem_append_right _ hn)
  have hkey : n.1 ∉ ns.map Prod.fst := by
    intro hin
    rw [List.flatten_cons, List.map_append] at hnodup
    exact (List.nodup_append.mp hnodup).2.2 n.1 hin n.1 (List.mem_map_of_mem hn) rfl
  refine (Forest.mem_nodes_rewrite h.plain).mpr ⟨n, hmem, ?_⟩
  rw [hone.only.image_of_notMem hkey]
  exact List.mem_singleton_self n

theorem Stores.replaceRelease (h : Stores k F) (slots : List Slot) {n : Node} {ns : List Node}
    (hns : ∀ m ∈ n :: ns, m ∈ F.nodes ∧ m.2.region? = none) (hnodup : ((n :: ns).map Prod.fst).Nodup) :
    ∃ new k₁ k' R, Edit.releaseSlots slots (.before n.1) k = .ok new k₁ ∧
      Edit.eraseAll ((n :: ns).map Prod.fst) k₁ = .ok () k' ∧ TradesOne k k' F R slots (n :: ns) new := by
  obtain ⟨hn, hleaf⟩ := hns n (List.mem_cons_self ..)
  obtain ⟨new, k₁, hrun, hplaces, hlength⟩ := h.releaseSlots (p := .before n.1) ⟨n.2, hn, hleaf⟩ slots
  have hkept : ∀ m ∈ F.nodes, m ∈ (F.rewrite (.placing (.before n.1) (releaseNodes slots new))).nodes := fun m hm =>
    (Forest.mem_nodes_rewrite h.plain).mpr ⟨m, hm, Forest.mem_image_placing.mpr (Or.inl rfl)⟩
  obtain ⟨k', hrun', hdrop, hsize⟩ := hplaces.stores.becomes_dropping hnodup (by
    intro id hid
    obtain ⟨m, hm, rfl⟩ := List.mem_map.mp hid
    exact ⟨m.2, hkept m (hns m hm).1, (hns m hm).2⟩)
  have hids := map_fst_releaseNodes hlength
  have hfresh : ∀ m ∈ releaseNodes slots new, m.1 ∉ (n :: ns).map Prod.fst := by
    intro m hm hmem
    obtain ⟨m', hm', heq⟩ := List.mem_map.mp hmem
    refine hplaces.notMem h m hm ?_
    rw [← heq]
    exact Forest.mem_ids_of_mem_nodes (hns m' hm').1
  have hbefore : (n :: ns).flatMap (Rewriting.placing (.before n.1) (releaseNodes slots new)).image =
      releaseNodes slots new ++ n :: ns := by
    have hrest : ns.flatMap (Rewriting.placing (.before n.1) (releaseNodes slots new)).image = ns := by
      refine (Rewriting.local_placing_before n.1 _).flatMap_of_notMem fun m hm hmem => ?_
      rw [List.map_cons, List.nodup_cons] at hnodup
      exact hnodup.1 (List.mem_singleton.mp hmem ▸ List.mem_map_of_mem hm)
    have hfirst : (Rewriting.placing (.before n.1) (releaseNodes slots new)).image n =
        releaseNodes slots new ++ [n] :=
      Rewriting.image_placing_before hleaf _
    rw [List.flatMap_cons, hfirst, hrest, List.append_assoc]
    rfl
  refine ⟨new, k₁, k', _, hrun, hrun', { (Becomes.of_places hplaces).trans hdrop with
    only := ?_, length := hlength, traded := ?_, nodup := ?_, origin := ?_ }⟩
  · refine ((Rewriting.local_placing_before n.1 _).andThen (Rewriting.local_dropping _)).mono fun x hx => ?_
    rcases List.mem_append.mp hx with hx | hx
    · rw [List.mem_singleton.mp hx]
      exact List.mem_cons_self ..
    · exact hx
  · rw [(Rewriting.flat_placing hplaces.leaf).flatMap_andThen, hbefore, List.flatMap_append,
      (Rewriting.local_dropping _).flatMap_of_notMem hfresh,
      Rewriting.flatMap_dropping (fun m hm => (hns m hm).2) fun m hm => List.mem_map_of_mem hm, List.append_nil]
  · rw [← hids]
    exact hplaces.nodup
  · intro x hx
    rw [← hids] at hx
    obtain ⟨m, hm, rfl⟩ := List.mem_map.mp hx
    exact Or.inr ⟨(hplaces.fresh m hm).1, hsize ▸ (hplaces.fresh m hm).2⟩

theorem Stores.shrinkRelease (h : Stores k F) {slots : List Slot} {ops : List OpId}
    (hlength : ops.length = slots.length)
    (hne : slots ≠ []) (hnodes : ∀ n ∈ releaseNodes slots ops, n ∈ F.nodes) (hnodup : ops.Nodup) (target : Nat) :
    ∃ new k' R, Edit.regroupRelease target [] ops k = .ok new k' ∧
      TradesOne k k' F R (slots.take target) (releaseNodes slots ops) new := by
  have hids := map_fst_releaseNodes hlength
  obtain ⟨k', hrun, hdrop, -⟩ := h.becomes_dropping (hnodup.sublist (List.drop_sublist target ops)) (by
    intro id hid
    have hmem := List.mem_of_mem_drop hid
    rw [← hids] at hmem
    obtain ⟨n, hn, rfl⟩ := List.mem_map.mp hmem
    exact ⟨n.2, hnodes n hn, leaf_of_mem_releaseNodes hn⟩)
  have htake : (ops.take target).length = (slots.take target).length := by simp [hlength]
  have hdropped : (ops.drop target).length = (slots.drop target).length := by simp [hlength]
  have hsplit : releaseNodes slots ops =
      releaseNodes (slots.take target) (ops.take target) ++ releaseNodes (slots.drop target) (ops.drop target) := by
    rw [← releaseNodes_append htake, List.take_append_drop, List.take_append_drop]
  have hops : ops ≠ [] := List.ne_nil_of_length_pos (hlength ▸ List.length_pos_of_ne_nil hne)
  have hlast : ops.getLast? = some (ops.getLast hops) := List.getLast?_eq_some_getLast hops
  refine ⟨ops.take target, k', _, ?_, { hdrop with
    only := ?_, length := htake, traded := ?_, nodup := ?_, origin := ?_ }⟩
  · rw [Edit.regroupRelease, bind_of_ok hrun, hlast]
    change EStateM.Result.ok (ops.take target ++ []) k' = _
    rw [List.append_nil]
  · rw [hids]
    exact (Rewriting.local_dropping _).mono fun x hx => List.mem_of_mem_drop hx
  · have hdis := (List.nodup_append.mp (List.take_append_drop target ops ▸ hnodup)).2.2
    have hkept : ∀ n ∈ releaseNodes (slots.take target) (ops.take target), n.1 ∉ ops.drop target := by
      intro n hn hmem
      have hn' := List.mem_map_of_mem (f := Prod.fst) hn
      rw [map_fst_releaseNodes htake] at hn'
      exact hdis n.1 hn' n.1 hmem rfl
    have hgone : ∀ n ∈ releaseNodes (slots.drop target) (ops.drop target), n.1 ∈ ops.drop target := by
      intro n hn
      rw [← map_fst_releaseNodes hdropped]
      exact List.mem_map_of_mem hn
    rw [hsplit, List.flatMap_append, (Rewriting.local_dropping _).flatMap_of_notMem hkept,
      Rewriting.flatMap_dropping (fun n hn => leaf_of_mem_releaseNodes hn) hgone, List.append_nil]
  · exact hnodup.sublist (List.take_sublist target ops)
  · intro x hx
    rw [hids]
    exact Or.inl (List.mem_of_mem_take hx)

theorem Stores.growRelease (h : Stores k F) {slots : List Slot} {ops : List OpId}
    (hlength : ops.length = slots.length)
    (hne : slots ≠ []) (hnodes : ∀ n ∈ releaseNodes slots ops, n ∈ F.nodes) (hnodup : ops.Nodup) {target : Nat}
    (htarget : slots.length ≤ target) (added : List Slot) :
    ∃ new k' R, Edit.regroupRelease target added ops k = .ok new k' ∧
      TradesOne k k' F R (slots ++ added) (releaseNodes slots ops) new := by
  have hids := map_fst_releaseNodes hlength
  have hdrop : ops.drop target = [] := List.drop_eq_nil_of_le (hlength ▸ htarget)
  have htake : ops.take target = ops := List.take_of_length_le (hlength ▸ htarget)
  obtain ⟨init, n, hsplit⟩ : ∃ init n, releaseNodes slots ops = init ++ [n] := by
    rcases List.eq_nil_or_concat' (releaseNodes slots ops) with hnil | hconcat
    · rw [hnil] at hids
      rw [← hids] at hlength
      exact absurd (List.length_eq_zero_iff.mp hlength.symm) hne
    · exact hconcat
  have hn : n ∈ releaseNodes slots ops := by simp [hsplit]
  have hlast : ops.getLast? = some n.1 := by
    rw [← hids, hsplit]
    simp
  obtain ⟨new, k', hrun, hplaces, hnew⟩ := h.releaseSlots (p := .after n.1)
    ⟨n.2, hnodes n hn, leaf_of_mem_releaseNodes hn⟩ added
  have hnewids := map_fst_releaseNodes hnew
  refine ⟨ops ++ new, k', _, ?_, { Becomes.of_places hplaces with
    only := ?_, length := ?_, traded := ?_, nodup := ?_, origin := ?_ }⟩
  · have herase : Edit.eraseAll [] k = .ok () k := rfl
    rw [Edit.regroupRelease, hdrop, bind_of_ok herase, hlast]
    change (Edit.releaseSlots added (.after n.1) >>= fun new => pure (ops.take target ++ new)) k = _
    rw [bind_of_ok hrun, htake]
    rfl
  · refine (Rewriting.local_placing_after n.1 _).mono fun x hx => ?_
    rw [List.mem_singleton.mp hx]
    exact List.mem_map_of_mem hn
  · simp [hlength, hnew]
  · have hinit : init.flatMap (Rewriting.placing (.after n.1) (releaseNodes added new)).image = init := by
      refine (Rewriting.local_placing_after n.1 _).flatMap_of_notMem fun m hm hmem => ?_
      rw [← hids, hsplit, List.map_append] at hnodup
      refine (List.nodup_append.mp hnodup).2.2 m.1 (List.mem_map_of_mem hm) n.1 (by simp) ?_
      exact List.mem_singleton.mp hmem
    have hhit : (Rewriting.placing (.after n.1) (releaseNodes added new)).image n = n :: releaseNodes added new :=
      Rewriting.image_placing_after (leaf_of_mem_releaseNodes hn) _
    rw [releaseNodes_append hlength, hsplit, List.flatMap_append, hinit, List.flatMap_singleton, hhit,
      List.append_assoc]
    rfl
  · refine List.nodup_append.mpr ⟨hnodup, hnewids ▸ hplaces.nodup, fun x hx y hy hxy => ?_⟩
    rw [← hids] at hx
    rw [← hnewids] at hy
    obtain ⟨m, hm, rfl⟩ := List.mem_map.mp hx
    obtain ⟨m', hm', rfl⟩ := List.mem_map.mp hy
    refine hplaces.notMem h m' hm' ?_
    rw [← hxy]
    exact Forest.mem_ids_of_mem_nodes (hnodes m hm)
  · intro x hx
    rcases List.mem_append.mp hx with hx | hx
    · rw [hids]
      exact Or.inl hx
    · rw [← hnewids] at hx
      obtain ⟨m, hm, rfl⟩ := List.mem_map.mp hx
      exact Or.inr (hplaces.fresh m hm)

theorem Stores.splitReleases (h : Stores k F) (slots : List Slot) {buffer : ValueId} {uses : List Use}
    (hnodes : ∀ use ∈ uses, (use.user, .dealloc buffer) ∈ F.nodes) (hnodup : (uses.map Use.user).Nodup) :
    ∃ opss k' R, Edit.splitReleases slots uses k = .ok opss k' ∧
      Trades k k' F R slots (uses.map fun use => [(use.user, .dealloc buffer)]) opss := by
  induction uses generalizing k F with
  | nil => exact ⟨[], k, _, rfl, Trades.nil h slots⟩
  | cons use uses ih =>
    have holds : ∀ uses : List Use, (uses.map fun use => [(use.user, Instr.dealloc buffer)]).flatten =
        uses.map fun use => (use.user, .dealloc buffer) := by
      intro uses
      rw [← List.flatMap_def, ← List.map_eq_flatMap]
    have hmem : ∀ n ∈ ((use :: uses).map fun use => [(use.user, Instr.dealloc buffer)]).flatten, n ∈ F.nodes := by
      rw [holds]
      intro n hn
      obtain ⟨use', huse', rfl⟩ := List.mem_map.mp hn
      exact hnodes use' huse'
    have hdis :
        ((((use :: uses).map fun use => [(use.user, Instr.dealloc buffer)]).flatten).map Prod.fst).Nodup := by
      rw [holds, List.map_map]
      exact hnodup
    have hfirst : ∀ m ∈ [(use.user, Instr.dealloc buffer)], m ∈ F.nodes ∧ m.2.region? = none := by
      intro m hm
      rw [List.mem_singleton.mp hm]
      exact ⟨hnodes use (List.mem_cons_self ..), rfl⟩
    obtain ⟨new, k₁, k₂, R, hrun₁, hrun₂, hone⟩ := h.replaceRelease slots hfirst (List.nodup_singleton _)
    have hothers := hone.others_mem h hmem hdis
    obtain ⟨opss, k₃, S, hrun₃, hrest⟩ := ih hone.stores (by
      intro use' huse'
      refine hothers _ ?_
      rw [holds]
      exact List.mem_map_of_mem huse') (List.nodup_cons.mp hnodup).2
    refine ⟨new :: opss, k₃, _, ?_, Trades.cons hone hrest hdis fun n hn =>
      h.index_lt (Forest.mem_ids_of_mem_nodes (hmem n hn))⟩
    have herase : Edit.erase use.user k₁ = .ok () k₂ := by
      rw [← Edit.eraseAll_singleton]
      exact hrun₂
    rw [Edit.splitReleases, bind_of_ok hrun₁, bind_of_ok herase]
    exact bind_of_ok hrun₃

section
variable {slots : List Slot} {releases : List (List OpId)} (h : Stores k F)
  (hlength : ∀ ops ∈ releases, ops.length = slots.length)
  (hnodes : ∀ ops ∈ releases, ∀ n ∈ releaseNodes slots ops, n ∈ F.nodes) (hnodup : releases.flatten.Nodup)
include h hlength hnodes hnodup

/-- A step of a trade of releases, whatever the trade of one of them is. -/
theorem Trades.of_step {target : List Slot} (edit : List OpId → Edit (List OpId))
    {edits : List (List OpId) → Edit (List (List OpId))} (hnil : edits [] = pure [])
    (hcons : ∀ ops releases, ops.length = slots.length → edits (ops :: releases) = do
      let new ← edit ops
      let rest ← edits releases
      return new :: rest)
    (hstep : ∀ {k F} ops, Stores k F → ops.length = slots.length → (∀ n ∈ releaseNodes slots ops, n ∈ F.nodes) →
      ops.Nodup → ∃ new k' R, edit ops k = .ok new k' ∧ TradesOne k k' F R target (releaseNodes slots ops) new) :
    ∃ opss k' R, edits releases k = .ok opss k' ∧
      Trades k k' F R target (releases.map (releaseNodes slots)) opss := by
  induction releases generalizing k F with
  | nil => exact ⟨[], k, _, by rw [hnil]; rfl, Trades.nil h target⟩
  | cons ops releases ih =>
    have hids : ∀ releases : List (List OpId), (∀ ops ∈ releases, ops.length = slots.length) →
        (releases.map (releaseNodes slots)).flatten.map Prod.fst = releases.flatten := by
      intro releases hlength
      rw [List.map_flatten, List.map_map]
      congr 1
      refine (List.map_congr_left fun ops hops => ?_).trans (List.map_id releases)
      exact map_fst_releaseNodes (hlength ops hops)
    have hmem : ∀ n ∈ (releaseNodes slots ops :: releases.map (releaseNodes slots)).flatten, n ∈ F.nodes := by
      intro n hn
      rw [← List.map_cons, ← List.flatMap_def] at hn
      obtain ⟨ops', hops', hn⟩ := List.mem_flatMap.mp hn
      exact hnodes ops' hops' n hn
    have hdis : ((releaseNodes slots ops :: releases.map (releaseNodes slots)).flatten.map Prod.fst).Nodup := by
      rw [← List.map_cons, hids _ hlength]
      exact hnodup
    have hops := hlength ops (List.mem_cons_self ..)
    have hrest := fun ops' hops' => hlength ops' (List.mem_cons_of_mem ops hops')
    rw [List.flatten_cons] at hnodup
    obtain ⟨hnodup₁, hnodup₂, -⟩ := List.nodup_append.mp hnodup
    obtain ⟨new, k₁, R, hrun₁, hone⟩ := hstep ops h hops (hnodes ops (List.mem_cons_self ..)) hnodup₁
    have hothers := hone.others_mem h hmem hdis
    obtain ⟨opss, k₂, S, hrun₂, htrades⟩ := ih hone.stores hrest (by
      intro ops' hops' n hn
      apply hothers
      exact List.mem_flatten.mpr ⟨_, List.mem_map_of_mem hops', hn⟩) hnodup₂
    refine ⟨new :: opss, k₂, _, ?_, Trades.cons hone htrades hdis fun n hn =>
      h.index_lt (Forest.mem_ids_of_mem_nodes (hmem n hn))⟩
    rw [hcons ops releases hops, bind_of_ok hrun₁]
    exact bind_of_ok hrun₂

theorem Stores.replaceReleases (hne : slots ≠ []) (target : List Slot) :
    ∃ opss k' R, Edit.replaceReleases target releases k = .ok opss k' ∧
      Trades k k' F R target (releases.map (releaseNodes slots)) opss := by
  have hcons : ∀ ops : List OpId, ops.length = slots.length → ∃ old olds, ops = old :: olds := by
    intro ops hops
    exact List.exists_cons_of_ne_nil (List.ne_nil_of_length_pos (hops ▸ List.length_pos_of_ne_nil hne))
  refine Trades.of_step h hlength hnodes hnodup (Edit.replaceRelease target) rfl ?_ ?_
  · intro ops releases hops
    obtain ⟨old, olds, rfl⟩ := hcons ops hops
    simp only [Edit.replaceReleases, Edit.replaceRelease, bind_assoc, pure_bind]
  · intro k F ops h hops hnodes hnodup
    have hids := map_fst_releaseNodes hops
    obtain ⟨old, olds, rfl⟩ := hcons ops hops
    obtain ⟨n, ns, hsplit⟩ : ∃ n ns, releaseNodes slots (old :: olds) = n :: ns := by
      apply List.exists_cons_of_ne_nil
      intro hnil
      simp [hnil] at hids
    have hfirst : n.1 = old := by
      rw [hsplit] at hids
      exact (List.cons.inj hids).1
    rw [← hids] at hnodup
    rw [hsplit] at hids hnodes hnodup ⊢
    obtain ⟨new, k₁, k₂, R, hrun₁, hrun₂, hone⟩ := h.replaceRelease target (fun m hm =>
      ⟨hnodes m hm, leaf_of_mem_releaseNodes (hsplit ▸ hm)⟩) hnodup
    rw [hids] at hrun₂
    rw [hfirst] at hrun₁
    refine ⟨new, k₂, R, ?_, hone⟩
    rw [Edit.replaceRelease, bind_of_ok hrun₁]
    exact bind_of_ok hrun₂

theorem Stores.regroupReleases (hne : slots ≠ []) {target : Nat} {added : List Slot}
    (hadded : added = [] ∨ slots.length ≤ target) :
    ∃ opss k' R, Edit.regroupReleases target added releases k = .ok opss k' ∧
      Trades k k' F R (slots.take target ++ added) (releases.map (releaseNodes slots)) opss := by
  refine Trades.of_step h hlength hnodes hnodup (Edit.regroupRelease target added) rfl (fun _ _ _ => rfl) ?_
  intro k F ops h hlength hnodes hnodup
  rcases hadded with rfl | htarget
  · rw [List.append_nil]
    exact h.shrinkRelease hlength hne hnodes hnodup target
  · rw [List.take_of_length_le htarget]
    exact h.growRelease hlength hne hnodes hnodup htarget added

end

end Kernel
end SlotRotation
