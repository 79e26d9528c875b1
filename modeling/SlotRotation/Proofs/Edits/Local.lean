import SlotRotation.Proofs.SlotEdits

/-! Changes that touch a few ops and leave all others alone. A sequence of changes is looked at one node at a time:
what comes from a node in the end comes, step by step, from what came before. -/

namespace SlotRotation

namespace Rewriting

variable {R S : Rewriting}

structure Flat (R : Rewriting) : Prop where
  leaf : ∀ id i, i.region? = none → ∀ m ∈ R.leaf id i, m.2.region? = none
  top : ∀ r, ∀ m ∈ R.top r, m.2.region? = none

def Spares (R : Rewriting) (x : OpId) : Prop := ∀ i, i.region? = none → R.leaf x i = [(x, i)]

structure Local (R : Rewriting) (keys : List OpId) : Prop where
  spares : ∀ x, x ∉ keys → R.Spares x
  head : ∀ id l, R.head id l = l
  top : ∀ r, R.top r = []

theorem Flat.image_andThen (hR : R.Flat) (n : Node) : (R.andThen S).image n = (R.image n).flatMap S.image := by
  have hleaf : ∀ ms : List Node, (∀ m ∈ ms, m.2.region? = none) →
      (ms.flatMap fun m => S.leaf m.1 m.2) = ms.flatMap S.image := by
    intro ms hms
    apply List.flatMap_congr
    intro m hm
    exact (S.image_leaf (hms m hm)).symm
  cases hr : n.2.region? with
  | none =>
    have himage : ∀ T : Rewriting, T.image n = T.leaf n.1 n.2 := fun T => T.image_leaf hr
    rw [himage, himage, leaf_andThen, hleaf _ (hR.leaf n.1 n.2 hr)]
  | some r =>
    obtain ⟨id, i⟩ := n
    cases i with
    | loop l =>
      rw [image_andThen_loop, image_loop, List.flatMap_cons, image_loop, (R.head_frame id l).1,
        hleaf _ (hR.top l.body), List.cons_append]
    | _ => cases hr

theorem Flat.flatMap_andThen (hR : R.Flat) (ns : List Node) :
    ns.flatMap (R.andThen S).image = (ns.flatMap R.image).flatMap S.image := by
  rw [List.flatMap_assoc]
  apply List.flatMap_congr
  intro n _
  exact hR.image_andThen n

theorem Flat.andThen (hR : R.Flat) (hS : S.Flat) : (R.andThen S).Flat := by
  constructor
  · intro id i hi m hm
    rw [leaf_andThen] at hm
    obtain ⟨n, hn, hm⟩ := List.mem_flatMap.mp hm
    exact hS.leaf n.1 n.2 (hR.leaf id i hi n hn) m hm
  · intro r m hm
    rcases List.mem_append.mp hm with hm | hm
    · exact hS.top r m hm
    · obtain ⟨n, hn, hm⟩ := List.mem_flatMap.mp hm
      exact hS.leaf n.1 n.2 (hR.top r n hn) m hm

theorem Flat.loop_of_mem (hR : R.Flat) {F : Forest} (hF : F.Plain) {a : OpId} {m : Loop}
    (hm : (a, .loop m) ∈ (F.rewrite R).nodes) : ∃ l, (a, .loop l) ∈ F.nodes ∧ m = R.head a l := by
  obtain ⟨n, hn, himage⟩ := (Forest.mem_nodes_rewrite hF).mp hm
  cases hr : n.2.region? with
  | none =>
    rw [image_leaf R hr] at himage
    cases hR.leaf _ _ hr _ himage
  | some r =>
    obtain ⟨id, i⟩ := n
    cases i with
    | loop l =>
      rcases List.mem_cons.mp himage with heq | hmem
      · cases heq
        exact ⟨l, hn, rfl⟩
      · cases hR.top _ _ hmem
    | _ => cases hr

theorem Flat.plain_rewrite (hR : R.Flat) {F : Forest} (hF : F.Plain) : (F.rewrite R).Plain := by
  have hprepend : ∀ {ns : List Node} {G : Forest}, (∀ n ∈ ns, n.2.region? = none) → G.Plain →
      (Forest.prepend ns G).Plain := by
    intro ns G hns hG
    induction ns with
    | nil => exact hG
    | cons n ns ih =>
      exact ⟨hns n List.mem_cons_self, ih fun m hm => hns m (List.mem_cons_of_mem _ hm)⟩
  induction F with
  | nil => trivial
  | op id i rest ih => exact hprepend (hR.leaf id i hF.1) (ih hF.2)
  | loop id l body rest ihb ihr => exact ⟨hprepend (hR.top l.body) (ihb hF.1), ihr hF.2⟩

theorem flat_placing {p : InsertPoint} {ns : List Node} (h : ∀ n ∈ ns, n.2.region? = none) :
    (placing p ns).Flat := by
  constructor
  · intro id i hi m hm
    rw [leaf_placing, List.mem_append, List.mem_cons] at hm
    rcases hm with hm | rfl | hm
    · split at hm
      · exact h m hm
      · simp at hm
    · exact hi
    · split at hm
      · exact h m hm
      · simp at hm
  · intro r m hm
    rw [top_placing] at hm
    split at hm
    · exact h m hm
    · simp at hm

theorem leaf_dropping (gone : List OpId) (id : OpId) (i : Instr) :
    (dropping gone).leaf id i = if id ∈ gone then [] else [(id, i)] := rfl

theorem flat_dropping (gone : List OpId) : (dropping gone).Flat := by
  constructor
  · intro id i hi m hm
    rw [leaf_dropping] at hm
    split at hm
    · simp at hm
    · rw [List.mem_singleton.mp hm]
      exact hi
  · intro r m hm
    exact absurd hm List.not_mem_nil

theorem flat_rebinding (f : Use → ValueId → ValueId) : (rebinding f).Flat := by
  constructor
  · intro id i hi m hm
    rw [List.mem_singleton.mp hm, Instr.region?_mapOperands]
    exact hi
  · intro r m hm
    exact absurd hm List.not_mem_nil

theorem flatMap_image_of_spares {ns : List Node} (hleaf : ∀ n ∈ ns, n.2.region? = none)
    (h : ∀ n ∈ ns, R.Spares n.1) : ns.flatMap R.image = ns := by
  have himage : ∀ n ∈ ns, R.image n = [n] := by
    intro n hn
    have hspared : R.leaf n.1 n.2 = [n] := h n hn n.2 (hleaf n hn)
    rw [← hspared]
    exact R.image_leaf (hleaf n hn)
  rw [List.flatMap_congr himage]
  exact List.flatMap_singleton' ns

namespace Local

variable {keys keys' : List OpId}

theorem image_of_notMem (h : R.Local keys) {n : Node} (hn : n.1 ∉ keys) : R.image n = [n] := by
  cases hr : n.2.region? with
  | none => exact (R.image_leaf hr).trans (h.spares n.1 hn n.2 hr)
  | some r =>
    obtain ⟨id, i⟩ := n
    cases i with
    | loop l => rw [image_loop, h.head, h.top]
    | _ => cases hr

theorem image_of_loop (h : R.Local keys) (id : OpId) (l : Loop) : R.image (id, .loop l) = [(id, .loop l)] := by
  rw [image_loop, h.head, h.top]

theorem flatMap_of_notMem (h : R.Local keys) {ns : List Node} (hns : ∀ n ∈ ns, n.1 ∉ keys) :
    ns.flatMap R.image = ns := by
  rw [List.flatMap_congr fun n hn => h.image_of_notMem (hns n hn)]
  exact List.flatMap_singleton' ns

theorem mono (h : R.Local keys) (hsub : ∀ x ∈ keys, x ∈ keys') : R.Local keys' :=
  ⟨fun x hx => h.spares x fun hmem => hx (hsub x hmem), h.head, h.top⟩

theorem andThen (h : R.Local keys) (h' : S.Local keys') : (R.andThen S).Local (keys ++ keys') := by
  refine ⟨fun x hx i hi => ?_, fun id l => ?_, fun r => ?_⟩
  · rw [List.mem_append, not_or] at hx
    rw [leaf_andThen, h.spares x hx.1 i hi, List.flatMap_singleton]
    exact h'.spares x hx.2 i hi
  · exact (h'.head id _).trans (h.head id l)
  · have htop : (R.andThen S).top r = S.top r ++ (R.top r).flatMap fun n => S.leaf n.1 n.2 := rfl
    rw [htop, h.top, h'.top]
    rfl

end Local

theorem local_placing_before (a : OpId) (ns : List Node) : (placing (.before a) ns).Local [a] := by
  refine ⟨fun x hx i _ => ?_, fun _ _ => rfl, fun r => ?_⟩
  · have hne : a ≠ x := fun e => hx (by simp [e])
    simp [leaf_placing, hne]
  · simp [top_placing]

theorem local_placing_after (a : OpId) (ns : List Node) : (placing (.after a) ns).Local [a] := by
  refine ⟨fun x hx i _ => ?_, fun _ _ => rfl, fun r => ?_⟩
  · have hne : a ≠ x := fun e => hx (by simp [e])
    simp [leaf_placing, hne]
  · simp [top_placing]

theorem local_dropping (gone : List OpId) : (dropping gone).Local gone := by
  refine ⟨fun x hx i _ => ?_, fun _ _ => rfl, fun r => rfl⟩
  rw [leaf_dropping, if_neg hx]

theorem image_placing_before {a : OpId} {i : Instr} (hi : i.region? = none) (ns : List Node) :
    (placing (.before a) ns).image (a, i) = ns ++ [(a, i)] := by
  rw [image_leaf _ hi, leaf_placing]
  simp

theorem image_placing_after {a : OpId} {i : Instr} (hi : i.region? = none) (ns : List Node) :
    (placing (.after a) ns).image (a, i) = (a, i) :: ns := by
  rw [image_leaf _ hi, leaf_placing]
  simp

theorem image_placing_of_not_hosts {p : InsertPoint} {n : Node} (h : ¬Forest.Hosts n p) (ns : List Node) :
    (placing p ns).image n = [n] := by
  cases hr : n.2.region? with
  | none =>
    have himage : (placing p ns).image n = (placing p ns).leaf n.1 n.2 := image_leaf _ hr
    rw [Forest.hosts_leaf hr, not_or] at h
    rw [himage, leaf_placing, if_neg h.1, if_neg h.2]
    rfl
  | some r =>
    rw [Forest.hosts_owner hr] at h
    obtain ⟨id, i⟩ := n
    cases i with
    | loop l =>
      obtain rfl : l.body = r := Option.some.inj hr
      rw [image_loop, top_placing, if_neg h]
      rfl
    | _ => cases hr

theorem image_placing_of_hosts {p : InsertPoint} {n : Node} (h : Forest.Hosts n p) (hp : p ≠ .before n.1)
    (ns : List Node) : (placing p ns).image n = n :: ns := by
  cases hr : n.2.region? with
  | none =>
    have himage : (placing p ns).image n = (placing p ns).leaf n.1 n.2 := image_leaf _ hr
    rw [himage, leaf_placing, if_neg hp, if_pos (((Forest.hosts_leaf hr).mp h).resolve_left hp)]
    rfl
  | some r =>
    rw [Forest.hosts_owner hr] at h
    obtain ⟨id, i⟩ := n
    cases i with
    | loop l =>
      obtain rfl : l.body = r := Option.some.inj hr
      rw [image_loop, top_placing, if_pos h]
      rfl
    | _ => cases hr

theorem flatMap_placing_of_not_hosts {p : InsertPoint} {ms : List Node} (h : ∀ m ∈ ms, ¬Forest.Hosts m p)
    (ns : List Node) : ms.flatMap (placing p ns).image = ms := by
  rw [List.flatMap_def, List.map_congr_left fun m hm => image_placing_of_not_hosts (h m hm) ns, ← List.flatMap_def,
    List.flatMap_singleton']

theorem flatMap_dropping_eq_filter (gone : List OpId) {ns : List Node} (hleaf : ∀ n ∈ ns, n.2.region? = none) :
    ns.flatMap (dropping gone).image = ns.filter fun n => n.1 ∉ gone := by
  induction ns with
  | nil => rfl
  | cons n ns ih =>
    have himage : (dropping gone).image n = (dropping gone).leaf n.1 n.2 := image_leaf _ (hleaf n List.mem_cons_self)
    rw [List.flatMap_cons, ih fun m hm => hleaf m (List.mem_cons_of_mem _ hm), himage, leaf_dropping,
      List.filter_cons]
    by_cases hn : n.1 ∈ gone <;> simp [hn]

theorem flatMap_dropping {gone : List OpId} {ns : List Node} (hleaf : ∀ n ∈ ns, n.2.region? = none)
    (hgone : ∀ n ∈ ns, n.1 ∈ gone) : ns.flatMap (dropping gone).image = [] := by
  rw [flatMap_dropping_eq_filter gone hleaf, List.filter_eq_nil_iff]
  intro n hn
  simpa using hgone n hn

end Rewriting

namespace Forest

variable {F : Forest} {gone : List OpId}

theorem eq_of_mem_image_dropping {m n : Node} (h : m ∈ (Rewriting.dropping gone).image n) : m = n := by
  cases hr : n.2.region? with
  | none =>
    rw [Rewriting.image_leaf _ hr, Rewriting.leaf_dropping] at h
    split at h
    · cases h
    · exact List.mem_singleton.mp h
  | some r =>
    obtain ⟨id, i⟩ := n
    cases i with
    | loop l =>
      rw [(Rewriting.local_dropping _).image_of_loop] at h
      exact List.mem_singleton.mp h
    | _ => cases hr

theorem mem_of_mem_dropping (hP : F.Plain) {n : Node} (hn : n ∈ (F.rewrite (.dropping gone)).nodes) :
    n ∈ F.nodes := by
  obtain ⟨m, hm, himage⟩ := (mem_nodes_rewrite hP).mp hn
  rw [eq_of_mem_image_dropping himage]
  exact hm

theorem notMem_dropping (hP : F.Plain) (hF : F.ids.Nodup) {n : Node} (hn : n ∈ F.nodes) (hleaf : n.2.region? = none)
    (hgone : n.1 ∈ gone) : n.1 ∉ (F.rewrite (.dropping gone)).ids := by
  intro hmem
  obtain ⟨i, hi⟩ := exists_mem_nodes hmem
  obtain ⟨m, hm, himage⟩ := (mem_nodes_rewrite hP).mp hi
  obtain rfl := eq_of_mem_image_dropping himage
  obtain rfl : i = n.2 := node_unique hF hm hn
  rw [Rewriting.image_leaf _ hleaf, Rewriting.leaf_dropping, if_pos hgone] at himage
  cases himage

end Forest

theorem Forest.placing_comm {F : Forest} (hF : F.Plain) {p q : InsertPoint} {ms ns : List Node}
    (hp : ∀ a, p ≠ .before a) (hq : ∀ a, q ≠ .before a) (hms : ∀ m ∈ ms, m.2.region? = none ∧ ¬Hosts m q)
    (hns : ∀ n ∈ ns, n.2.region? = none ∧ ¬Hosts n p) (hapart : ∀ n ∈ F.nodes, Hosts n p → ¬Hosts n q) :
    (F.rewrite (.placing p ms)).rewrite (.placing q ns) = (F.rewrite (.placing q ns)).rewrite (.placing p ms) := by
  rw [rewrite_rewrite, rewrite_rewrite]
  apply rewrite_congr hF
  intro n hn
  rw [(Rewriting.flat_placing fun m hm => (hms m hm).1).image_andThen,
    (Rewriting.flat_placing fun m hm => (hns m hm).1).image_andThen]
  have hms' := Rewriting.flatMap_placing_of_not_hosts (fun m hm => (hms m hm).2) ns
  have hns' := Rewriting.flatMap_placing_of_not_hosts (fun m hm => (hns m hm).2) ms
  by_cases hnp : Hosts n p
  · have hleft := Rewriting.image_placing_of_hosts hnp (hp _) ms
    have hright := Rewriting.image_placing_of_not_hosts (hapart n hn hnp) ns
    rw [hleft, hright, List.flatMap_cons, hright, hms', List.flatMap_singleton, hleft]
    rfl
  · have hleft := Rewriting.image_placing_of_not_hosts hnp ms
    by_cases hnq : Hosts n q
    · have hright := Rewriting.image_placing_of_hosts hnq (hq _) ns
      rw [hleft, hright, List.flatMap_singleton, hright, List.flatMap_cons, hleft, hns']
      rfl
    · have hright := Rewriting.image_placing_of_not_hosts hnq ns
      rw [hleft, hright, List.flatMap_singleton, List.flatMap_singleton, hleft, hright]

namespace Kernel

variable {k k' k₁ k₂ : Kernel} {F : Forest} {R S : Rewriting}

/-- `k'` stores what a rewriting makes of the forest of `k`. -/
structure Becomes (k k' : Kernel) (F : Forest) (R : Rewriting) : Prop extends Extends k k' where
  stores : Stores k' (F.rewrite R)
  flat : R.Flat

namespace Becomes

theorem trans (h : Becomes k k₁ F R) (h' : Becomes k₁ k₂ (F.rewrite R) S) : Becomes k k₂ F (R.andThen S) :=
  { h.toExtends.trans h'.toExtends with
    stores := by rw [← Forest.rewrite_rewrite]; exact h'.stores
    flat := h.flat.andThen h'.flat }

theorem of_places {p : InsertPoint} {ns : List Node} (h : Places k k' F p ns) : Becomes k k' F (.placing p ns) :=
  { h.toExtends with stores := h.stores, flat := Rewriting.flat_placing h.leaf }

theorem loop?_depth (h : Arranges k F) (hk : Becomes k k' F R) (a : OpId) :
    (k'.loop? a).bind Loop.depth = (k.loop? a).bind Loop.depth := by
  cases hl : k.loop? a with
  | some l =>
    have hmem : (a, .loop (R.head a l)) ∈ (F.rewrite R).nodes :=
      (Forest.mem_nodes_rewrite h.plain).mpr ⟨_, h.loop?_eq_some_iff.mp hl, List.mem_cons_self⟩
    rw [hk.stores.loop?_eq_some_iff.mpr hmem]
    exact (R.head_frame a l).2.2
  | none =>
    cases hm : k'.loop? a with
    | none => rfl
    | some m =>
      obtain ⟨l, hl', -⟩ := hk.flat.loop_of_mem h.plain (hk.stores.loop?_eq_some_iff.mp hm)
      rw [h.loop?_eq_some_iff.mpr hl'] at hl
      cases hl

end Becomes

theorem Stores.becomes_dropping (h : Stores k F) {ids : List OpId} (hids : ids.Nodup)
    (hleaf : ∀ id ∈ ids, ∃ i, (id, i) ∈ F.nodes ∧ i.region? = none) :
    ∃ k', Edit.eraseAll ids k = .ok () k' ∧ Becomes k k' F (.dropping ids) ∧ k'.ops.size = k.ops.size := by
  obtain ⟨k', hrun, hstores, hsize, hvalues⟩ := h.eraseAll hids hleaf
  exact ⟨k', hrun, { extends_of_values (Nat.le_of_eq hsize.symm) hvalues with
    stores := hstores, flat := Rewriting.flat_dropping ids }, hsize⟩

end Kernel
end SlotRotation
