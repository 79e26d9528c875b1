import SlotRotation.Proofs.Footprint

/-! The edits that exchange a footprint, in the order they are made: slots are allocated next to old ones, the loop
body gets its new entry, accesses are redirected, and at last releases are traded and the old ops go. Together they
are one exchange. -/

namespace SlotRotation

section

variable {k : Kernel} {F : Forest} {P : Footprint} {uses : List Use}
  (huses : ∀ use, use ∈ uses ↔ use ∈ F.uses P.value ∧ use.user ∉ P.ids)
include huses

/-- To redirect the uses outside the footprint is to exchange its value for the new one. -/
theorem Footprint.image_redirect (hF : F.ids.Nodup) (v : ValueId) {n : Node} (hn : n ∈ F.nodes) (hid : n.1 ∉ P.ids) :
    (Rewriting.rebinding (Kernel.redirect uses v)).image n =
      [(n.1, n.2.mapOperands fun _ w => if w = P.value then v else w)] := by
  rw [Rewriting.image_rebinding]
  congr 2
  refine Instr.mapOperands_congr fun j w hw => ?_
  have huse : (⟨n.1, j⟩ : Use) ∈ uses ↔ w = P.value := by
    rw [huses, Forest.mem_uses]
    constructor
    · rintro ⟨⟨i, hi, hop⟩, -⟩
      rw [Forest.node_unique hF hi hn, hw] at hop
      exact Option.some.inj hop
    · rintro rfl
      exact ⟨⟨n.2, hn, hw⟩, hid⟩
  by_cases hval : w = P.value
  · rw [Kernel.redirect, if_pos (huse.mpr hval), if_pos hval]
  · rw [Kernel.redirect, if_neg (mt huse.mp hval), if_neg hval]

theorem Footprint.spares_redirect (hS : k.Stores F) (v : ValueId) {x : OpId}
    (hx : x ∈ P.ids ∨ k.ops.size ≤ x.index) : (Rewriting.rebinding (Kernel.redirect uses v)).Spares x := by
  have hnot : ∀ j, (⟨x, j⟩ : Use) ∉ uses := by
    intro j huse
    obtain ⟨huse, hid⟩ := (huses _).mp huse
    rcases hx with hx | hlt
    · exact hid hx
    · obtain ⟨i, hi, -⟩ := Forest.mem_uses.mp huse
      exact Nat.not_lt.mpr hlt (hS.index_lt (Forest.mem_ids_of_mem_nodes hi))
  intro i _
  have hsame : i.mapOperands (fun j => Kernel.redirect uses v ⟨x, j⟩) = i := by
    refine (Instr.mapOperands_congr fun j w _ => ?_).trans (Instr.mapOperands_id i)
    exact if_neg (hnot j)
  exact congrArg (fun i => [(x, i)]) hsame

end

structure Assembly (k : Kernel) (F : Forest) (P : Footprint) (a : OpId) (l : Loop) where
  first : Rewriting
  point : InsertPoint
  entry : List Node
  redirects : Rewriting
  value : ValueId
  second : Rewriting
  stores : k.Stores F
  lies : P.Lies F a l
  opens : F.Opens a l point
  first_flat : first.Flat
  first_local : first.Local (P.allocs.map Prod.fst)
  first_new : ∀ n ∈ P.allocs, ∀ m ∈ first.image n, m.1 ∈ P.ids ∨ k.ops.size ≤ m.1.index
  entry_leaf : ∀ n ∈ entry, n.2.region? = none
  entry_new : ∀ n ∈ entry, k.ops.size ≤ n.1.index
  redirects_flat : redirects.Flat
  redirects_image : ∀ n ∈ F.nodes, n.1 ∉ P.ids →
    redirects.image n = [(n.1, n.2.mapOperands fun _ w => if w = P.value then value else w)]
  redirects_spares : ∀ x, x ∈ P.ids ∨ k.ops.size ≤ x.index → redirects.Spares x
  second_flat : second.Flat
  second_local : second.Local P.ids

namespace Assembly

variable {k : Kernel} {F : Forest} {P : Footprint} {a : OpId} {l : Loop} (A : Assembly k F P a l)

def rewriting : Rewriting :=
  A.first.andThen ((Rewriting.placing A.point A.entry).andThen (A.redirects.andThen A.second))

theorem flatMap_rewriting (ns : List Node) :
    ns.flatMap A.rewriting.image =
      (((ns.flatMap A.first.image).flatMap (Rewriting.placing A.point A.entry).image).flatMap
        A.redirects.image).flatMap A.second.image := by
  rw [rewriting, A.first_flat.flatMap_andThen, (Rewriting.flat_placing A.entry_leaf).flatMap_andThen,
    A.redirects_flat.flatMap_andThen]

theorem flat_rewriting : A.rewriting.Flat :=
  A.first_flat.andThen ((Rewriting.flat_placing A.entry_leaf).andThen (A.redirects_flat.andThen A.second_flat))

theorem host_cases {n : Node} (hn : n ∈ F.nodes) (hhost : Forest.Hosts n A.point) : n.1 = a ∨ F.Leads a n.1 :=
  A.opens.host_cases A.stores.toArranges A.lies.loop hn hhost

theorem host_notMem {n : Node} (hn : n ∈ F.nodes) (hhost : Forest.Hosts n A.point) : n.1 ∉ P.ids := by
  intro hid
  have hP := A.lies.mem_of_id A.stores.nodup hn hid
  rcases A.host_cases hn hhost with heq | hlead
  · have hl := A.lies.loop
    rw [← heq] at hl
    have hleaf := A.lies.leaf n hP
    rw [Forest.node_unique A.stores.nodup hn hl] at hleaf
    cases hleaf
  · exact A.lies.no_barrier n hP (Forest.node_unique A.stores.nodup hn hlead.mem_nodes)

theorem placing_spares {x : OpId} (hx : x ∈ P.ids ∨ k.ops.size ≤ x.index) :
    (Rewriting.placing A.point A.entry).Spares x := by
  intro i _
  have hafter : A.point ≠ .after x := by
    intro hp
    rcases A.opens with ⟨hp', -⟩ | ⟨g, hp', hlead⟩
    · rw [hp] at hp'
      cases hp'
    · rw [hp] at hp'
      cases hp'
      rcases hx with hx | hx
      · have hP := A.lies.mem_of_id A.stores.nodup hlead.mem_nodes hx
        exact A.lies.no_barrier _ hP rfl
      · have hlt := A.stores.index_lt (Forest.mem_ids_of_mem_nodes hlead.mem_nodes)
        exact absurd hlt (Nat.not_lt.mpr hx)
  simp [Rewriting.leaf_placing, A.opens.ne_before, hafter]

include A in
theorem id_lt {x : OpId} (hx : x ∈ P.ids) : x.index < k.ops.size := by
  obtain ⟨n, hn, rfl⟩ := List.mem_map.mp hx
  exact A.stores.index_lt (Forest.mem_ids_of_mem_nodes (A.lies.nodes n hn))

theorem second_new {ns : List Node} (hns : ∀ n ∈ ns, k.ops.size ≤ n.1.index) : ns.flatMap A.second.image = ns := by
  refine A.second_local.flatMap_of_notMem fun n hn hid => ?_
  exact absurd (A.id_lt hid) (Nat.not_lt.mpr (hns n hn))

theorem middle_spares {ns : List Node} (hleaf : ∀ n ∈ ns, n.2.region? = none)
    (hns : ∀ n ∈ ns, n.1 ∈ P.ids ∨ k.ops.size ≤ n.1.index) :
    (ns.flatMap (Rewriting.placing A.point A.entry).image).flatMap A.redirects.image = ns := by
  rw [Rewriting.flatMap_image_of_spares hleaf fun n hn => A.placing_spares (hns n hn),
    Rewriting.flatMap_image_of_spares hleaf fun n hn => A.redirects_spares n.1 (hns n hn)]

theorem flatMap_allocs :
    P.allocs.flatMap A.rewriting.image = (P.allocs.flatMap A.first.image).flatMap A.second.image := by
  rw [flatMap_rewriting, A.middle_spares]
  · intro n hn
    obtain ⟨m, hm, hn⟩ := List.mem_flatMap.mp hn
    have hleaf := A.lies.leaf m (Footprint.mem_nodes.mpr (Or.inl hm))
    have himage : A.first.image m = A.first.leaf m.1 m.2 := A.first.image_leaf hleaf
    rw [himage] at hn
    exact A.first_flat.leaf m.1 m.2 hleaf n hn
  · intro n hn
    obtain ⟨m, hm, hn⟩ := List.mem_flatMap.mp hn
    exact A.first_new m hm n hn

theorem flatMap_others {ns : List Node} (hns : ∀ n ∈ ns, n ∈ P.nodes ∧ n.1 ∉ P.allocs.map Prod.fst) :
    ns.flatMap A.rewriting.image = ns.flatMap A.second.image := by
  rw [flatMap_rewriting, A.first_local.flatMap_of_notMem fun n hn => (hns n hn).2, A.middle_spares]
  · exact fun n hn => A.lies.leaf n (hns n hn).1
  · exact fun n hn => Or.inl (Footprint.mem_ids_of_mem_nodes (hns n hn).1)

theorem image_of_notMem {n : Node} (hn : n ∈ F.nodes) (hid : n.1 ∉ P.ids) {ns : List Node}
    (hplaced : (Rewriting.placing A.point A.entry).image n = n :: ns) (hns : ∀ m ∈ ns, m ∈ A.entry) :
    A.rewriting.image n = (n.1, n.2.mapOperands fun _ w => if w = P.value then A.value else w) :: ns := by
  have hfirst : A.first.image n = [n] := by
    refine A.first_local.image_of_notMem fun hmem => hid ?_
    obtain ⟨m, hm, heq⟩ := List.mem_map.mp hmem
    rw [← heq]
    exact Footprint.mem_ids_of_mem_nodes (Footprint.mem_nodes.mpr (Or.inl hm))
  have hnew : ∀ m ∈ ns, k.ops.size ≤ m.1.index := fun m hm => A.entry_new m (hns m hm)
  have hredirect : ns.flatMap A.redirects.image = ns :=
    Rewriting.flatMap_image_of_spares (fun m hm => A.entry_leaf m (hns m hm)) fun m hm =>
      A.redirects_spares m.1 (Or.inr (hnew m hm))
  have hlast : ∀ i, A.second.image (n.1, i) = [(n.1, i)] := fun i => A.second_local.image_of_notMem hid
  have hone := A.flatMap_rewriting [n]
  rw [List.flatMap_singleton, List.flatMap_singleton, hfirst, List.flatMap_singleton, hplaced, List.flatMap_cons,
    A.redirects_image n hn hid, hredirect, List.flatMap_append, A.second_new hnew, List.flatMap_singleton,
    hlast] at hone
  exact hone

def exchange : Exchange F where
  table := P.nodes.map fun n => (n.1, A.rewriting.image n)
  rename w := if w = P.value then A.value else w
  point := A.point
  entry := A.entry
  nodup := by
    rw [List.map_map]
    exact A.lies.nodup
  leaf := by
    intro id hid
    rw [List.map_map] at hid
    obtain ⟨n, hn, rfl⟩ := List.mem_map.mp hid
    exact ⟨n.2, A.lies.nodes n hn, A.lies.leaf n hn⟩
  anchored := A.opens.anchors A.lies.loop
  kept := by
    intro n hn hhost
    rw [List.map_map]
    exact A.host_notMem hn hhost
  behind := A.opens.ne_before

theorem keys_exchange : A.exchange.keys = P.ids := by
  rw [Exchange.keys, exchange, List.map_map]
  rfl

theorem image_exchange {n : Node} (hn : n ∈ F.nodes) : A.exchange.rewriting.image n = A.rewriting.image n := by
  by_cases hid : n.1 ∈ P.ids
  · have hP := A.lies.mem_of_id A.stores.nodup hn hid
    refine Exchange.image_key hn ?_ A.stores.nodup
    exact List.mem_map_of_mem hP
  · have hkey : n.1 ∉ A.exchange.keys := by
      rw [A.keys_exchange]
      exact hid
    by_cases hhost : Forest.Hosts n A.point
    · rw [Exchange.image_host hn hhost]
      refine (A.image_of_notMem hn hid ?_ fun m hm => hm).symm
      exact Rewriting.image_placing_of_hosts hhost (A.opens.ne_before n.1) _
    · rw [Exchange.image_of_not_hosts hkey hhost]
      refine (A.image_of_notMem hn hid ?_ fun m hm => absurd hm List.not_mem_nil).symm
      exact Rewriting.image_placing_of_not_hosts hhost _

theorem result_exchange : A.exchange.result = F.rewrite A.rewriting :=
  Forest.rewrite_congr A.stores.plain fun _ hn => A.image_exchange hn

end Assembly
end SlotRotation
