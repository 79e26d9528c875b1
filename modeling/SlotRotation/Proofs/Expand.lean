import SlotRotation.Proofs.Expansion
import SlotRotation.Proofs.Installs

/-! An expansion puts a set of slots in place of one allocation and its releases. -/

namespace SlotRotation

def Expansion.footprint (e : Expansion) (site : Site) (a : Alloc) : Footprint where
  value := site.buffer
  allocs := [(site.alloc, .alloc a)]
  releases := e.releases.map fun use => [(use.user, .dealloc site.buffer)]
  prelude := []

namespace Expansion

variable {e : Expansion} {site : Site} {a : Alloc} {F : Forest} {k : Kernel}

theorem flatten_releases (e : Expansion) (buffer : ValueId) :
    (e.releases.map fun use => [((use.user, .dealloc buffer) : Node)]).flatten =
      e.releases.map fun use => (use.user, .dealloc buffer) := by
  rw [← List.flatMap_def, ← List.map_eq_flatMap]

theorem ids_footprint : (e.footprint site a).ids = site.alloc :: e.releases.map Use.user := by
  rw [Footprint.ids, Footprint.nodes, footprint, flatten_releases, List.append_nil, List.singleton_append,
    List.map_cons, List.map_map]
  rfl

theorem mem_footprint {n : Node} : n ∈ (e.footprint site a).nodes ↔
    n = (site.alloc, .alloc a) ∨ ∃ use ∈ e.releases, n = (use.user, .dealloc site.buffer) := by
  rw [Footprint.nodes, footprint, flatten_releases, List.append_nil, List.singleton_append, List.mem_cons,
    List.mem_map]
  refine or_congr Iff.rfl (exists_congr fun use => and_congr Iff.rfl eq_comm)

theorem mem_ids_of_release {x : OpId} (hx : x ∈ (e.footprint site a).releases.flatten.map Prod.fst) :
    x ∈ (e.footprint site a).ids := by
  rw [Footprint.ids, Footprint.nodes, List.map_append, List.map_append]
  exact List.mem_append_left _ (List.mem_append_right _ hx)

theorem alloc_notMem_releases (hnodup : (e.footprint site a).ids.Nodup) :
    site.alloc ∉ (e.footprint site a).releases.flatten.map Prod.fst := by
  rw [ids_footprint, List.nodup_cons] at hnodup
  rw [footprint, flatten_releases, List.map_map]
  exact hnodup.1

namespace Sound

theorem lies (he : e.Sound site F) (hS : k.Stores F) (hreach : F.Reaches site.buffer) {l : Loop}
    (ha : (site.alloc, .alloc a) ∈ F.nodes) (hres : a.result = site.buffer) (hl : (e.loop, .loop l) ∈ F.nodes) :
    (e.footprint site a).Lies F e.loop l where
  nodes n hn := by
    rcases mem_footprint.mp hn with rfl | ⟨use, huse, rfl⟩
    · exact ha
    · exact he.releases use huse
  nodup := by
    rw [ids_footprint, List.nodup_cons]
    refine ⟨fun hmem => ?_, he.releases_nodup⟩
    obtain ⟨use, huse, heq⟩ := List.mem_map.mp hmem
    have hnode := he.releases use huse
    rw [heq] at hnode
    cases Forest.node_unique hS.nodup hnode ha
  leaf n hn := by
    rcases mem_footprint.mp hn with rfl | ⟨use, -, rfl⟩ <;> rfl
  no_barrier n hn := by
    rcases mem_footprint.mp hn with rfl | ⟨use, -, rfl⟩ <;> simp
  loop := hl
  outside n hn := by
    rw [List.mem_singleton.mp hn]
    exact he.outer
  released n hn ns hns m hm := by
    rw [List.mem_singleton.mp hn]
    obtain ⟨use, huse, rfl⟩ := List.mem_map.mp hns
    rw [List.mem_singleton.mp hm]
    obtain ⟨d, hd, hdres, hscope⟩ := hreach _ (he.releases use huse) List.mem_cons_self
    rwa [hS.result_unique hd ha hdres (congrArg some hres)] at hscope
  defined := ⟨_, mem_footprint.mpr (Or.inl rfl), congrArg some hres⟩
  accessed use huse hid := by
    rcases (he.uses use).mp huse with hacc | hrel
    · exact he.inner use hacc
    · rw [ids_footprint] at hid
      exact absurd (List.mem_cons_of_mem _ (List.mem_map_of_mem hrel)) hid
  hidden n hn v hv := by
    rcases mem_footprint.mp hn with rfl | ⟨use, -, rfl⟩
    · exact Or.inl ((Option.some.inj hv).symm.trans hres)
    · cases hv
  reads n hn w hw := by
    rcases mem_footprint.mp hn with rfl | ⟨use, -, rfl⟩
    · cases hw
    · exact Or.inl (List.mem_singleton.mp hw)

theorem access_notMem (he : e.Sound site F) (hF : F.ids.Nodup) (ha : (site.alloc, .alloc a) ∈ F.nodes) {use : Use}
    (huse : use ∈ e.accesses) : use.user ∉ (e.footprint site a).ids := by
  obtain ⟨i, hi, hop⟩ := Forest.mem_uses.mp ((he.uses use).mpr (Or.inl huse))
  rw [ids_footprint, List.mem_cons]
  rintro (heq | hrel)
  · rw [heq] at hi
    rw [Forest.node_unique hF hi ha] at hop
    cases hop
  · obtain ⟨use', huse', heq⟩ := List.mem_map.mp hrel
    exact he.accesses use huse (heq ▸ he.releases use' huse')

theorem mem_accesses_iff (he : e.Sound site F) (hF : F.ids.Nodup) (ha : (site.alloc, .alloc a) ∈ F.nodes)
    (use : Use) : use ∈ e.accesses ↔ use ∈ F.uses site.buffer ∧ use.user ∉ (e.footprint site a).ids := by
  refine ⟨fun huse => ⟨(he.uses use).mpr (Or.inl huse), he.access_notMem hF ha huse⟩, fun ⟨huse, hid⟩ => ?_⟩
  rcases (he.uses use).mp huse with hacc | hrel
  · exact hacc
  · rw [ids_footprint] at hid
    exact absurd (List.mem_cons_of_mem _ (List.mem_map_of_mem hrel)) hid

theorem finish {l : Loop} {k₄ : Kernel} {G : Forest}
    (he : e.Sound site F) (h : k.Stores F) (hlies : (e.footprint site a).Lies F e.loop l)
    (huses : ∀ use, use ∈ e.accesses ↔ use ∈ F.uses site.buffer ∧ use.user ∉ (e.footprint site a).ids)
    (hG : k₄.Stores G) (hkept : ∀ n ∈ F.nodes, n ∈ G.nodes) (slots : List Slot)
    (v : ValueId) :
    ∃ k₅ k₆ k₇ R opss, Transform.Does (Transform.rebind v e.accesses) k₄ () k₅ ∧ k₄.ops.size ≤ k₅.ops.size ∧
      Edit.splitReleases slots e.releases k₅ = .ok opss k₆ ∧ Edit.erase site.alloc k₆ = .ok () k₇ ∧
      Kernel.Trades k₅ k₆ (G.rewrite (.rebinding (Kernel.redirect e.accesses v))) R slots
        (e.footprint site a).releases opss ∧
      Kernel.Becomes k₄ k₇ G
        ((Rewriting.rebinding (Kernel.redirect e.accesses v)).andThen (R.andThen (.dropping [site.alloc]))) := by
  have haccesses : ∀ use ∈ e.accesses, use ∈ G.uses site.buffer := by
    intro use huse
    obtain ⟨i, hi, hop⟩ := Forest.mem_uses.mp ((huses use).mp huse).1
    exact Forest.mem_uses.mpr ⟨i, hkept _ hi, hop⟩
  obtain ⟨k₅, hdoes, hrebound, -⟩ := hG.rebind haccesses he.accesses_nodup v
  have hspared : ∀ n ∈ (e.footprint site a).nodes,
      n ∈ (G.rewrite (.rebinding (Kernel.redirect e.accesses v))).nodes := by
    intro n hn
    refine Forest.mem_rewrite_of_mem_image hG.plain (hkept n (hlies.nodes n hn)) ?_
    rw [Rewriting.image_leaf _ (hlies.leaf n hn),
      Footprint.spares_redirect huses h v (Or.inl (Footprint.mem_ids_of_mem_nodes hn)) _ (hlies.leaf n hn)]
    exact List.mem_singleton_self _
  obtain ⟨opss, k₆, R, hrun₆, htrades⟩ := hrebound.stores.splitReleases slots
    (fun use huse => hspared _ (Expansion.mem_footprint.mpr (Or.inr ⟨use, huse, rfl⟩))) he.releases_nodup
  have hnotrade := alloc_notMem_releases hlies.nodup
  obtain ⟨k₇, hrun₇, herased, -⟩ := htrades.stores.becomes_dropping (List.nodup_singleton site.alloc) (by
    intro id hid
    rw [List.mem_singleton.mp hid]
    refine ⟨.alloc a, Forest.mem_rewrite_of_mem_image hrebound.stores.plain
      (hspared _ (Expansion.mem_footprint.mpr (Or.inl rfl))) ?_, rfl⟩
    rw [htrades.only.image_of_notMem hnotrade]
    exact List.mem_singleton_self _)
  rw [Edit.eraseAll_singleton] at hrun₇
  exact ⟨k₅, k₆, k₇, R, opss, hdoes, hrebound.ops, hrun₆, hrun₇, htrades,
    hrebound.trans (htrades.toBecomes.trans herased)⟩

end Sound

def outcome (e : Expansion) (site : Site) (slots : List Slot) (rotation : Rotation) (selector : OpId)
    (selected : ValueId) (releases : List (List OpId)) (guard : Option Guard) : SlotSet where
  ty := site.ty
  slots := slots
  loop := e.loop
  rotation := rotation
  selector := selector
  selected := selected
  bindings := e.accesses.map fun use => { use, selector }
  releases := releases
  guard := guard

section

variable {slots : List Slot} {rotation : Rotation} {selector : OpId} {selected : ValueId}
  {releases : List (List OpId)} {guard : Option Guard}

theorem map_use_outcome :
    (e.outcome site slots rotation selector selected releases guard).bindings.map Binding.use = e.accesses := by
  rw [outcome, List.map_map]
  exact List.map_id _

theorem Sound.formed_outcome (he : e.Sound site F) (hlength : slots.length = e.slots)
    (hordinals : slots.map Slot.ordinal = List.range' 0 e.slots) (hfactor : rotation.factor = e.slots)
    (hreleases : ∀ ops ∈ releases, ops.length = slots.length) :
    (e.outcome site slots rotation selector selected releases guard).Formed where
  inhabited hnil := by
    have hzero : slots.length = 0 := congrArg List.length hnil
    exact Nat.ne_of_gt he.slots (hlength ▸ hzero)
  ordinals := hordinals.trans (by rw [outcome, hlength, List.range_eq_range'])
  lengths := hreleases
  factor := hfactor.trans hlength.symm
  named binding hmem := by
    obtain ⟨use, -, rfl⟩ := List.mem_map.mp hmem
    rfl
  bindings_nodup := by
    rw [map_use_outcome]
    exact he.accesses_nodup

end

section

variable {k₁ k₂ k₃ k₄ : Kernel} {l : Loop} {ty : BufferType} {slots : List Slot} {p : InsertPoint}
  {entry : List Node} {G H : Forest} {R : Rewriting} {opss : List (List OpId)} (v : ValueId) (hS : k.Stores F)
  (hlies : (e.footprint site a).Lies F e.loop l)
  (huses : ∀ use, use ∈ e.accesses ↔ use ∈ F.uses site.buffer ∧ use.user ∉ (e.footprint site a).ids)
  (hslots : Kernel.Places k k₁ F (.after site.alloc) (allocNodes ty slots)) (hp : F.Opens e.loop l p)
  (hentry : Kernel.Places k₁ k₂ G p entry)
  (htrades : Kernel.Trades k₃ k₄ H R slots (e.footprint site a).releases opss)

/-- The edits of an expansion: slots behind the allocation, the entry, the accesses, the releases, the allocation. -/
def assembly : Assembly k F (e.footprint site a) e.loop l where
  first := .placing (.after site.alloc) (allocNodes ty slots)
  point := p
  entry := entry
  redirects := .rebinding (Kernel.redirect e.accesses v)
  value := v
  second := R.andThen (.dropping [site.alloc])
  stores := hS
  lies := hlies
  opens := hp
  first_flat := Rewriting.flat_placing hslots.leaf
  first_local := Rewriting.local_placing_after _ _
  first_new := by
    intro n hn m hm
    rw [List.mem_singleton.mp hn, Rewriting.image_placing_after rfl] at hm
    rcases List.mem_cons.mp hm with rfl | hm
    · exact Or.inl (Footprint.mem_ids_of_mem_nodes (mem_footprint.mpr (Or.inl rfl)))
    · exact Or.inr (hslots.fresh m hm).1
  entry_leaf := hentry.leaf
  entry_new n hn := Nat.le_trans hslots.ops (hentry.fresh n hn).1
  redirects_flat := Rewriting.flat_rebinding _
  redirects_image n hn hid := Footprint.image_redirect huses hS.nodup v hn hid
  redirects_spares x hx := Footprint.spares_redirect huses hS v hx
  second_flat := htrades.flat.andThen (Rewriting.flat_dropping _)
  second_local := by
    refine (htrades.only.andThen (Rewriting.local_dropping _)).mono fun x hx => ?_
    rcases List.mem_append.mp hx with hx | hx
    · exact mem_ids_of_release hx
    · rw [List.mem_singleton.mp hx]
      exact Footprint.mem_ids_of_mem_nodes (mem_footprint.mpr (Or.inl rfl))

include hS htrades in
theorem release_new (hlies : (e.footprint site a).Lies F e.loop l) (hsize : k.ops.size ≤ k₃.ops.size)
    {ops : List OpId} (hops : ops ∈ opss) {x : OpId} (hx : x ∈ ops) :
    (x ∈ (e.footprint site a).ids ∨ k.ops.size ≤ x.index) ∧ x ≠ site.alloc := by
  have halloc : site.alloc ∈ F.ids :=
    Forest.mem_ids_of_mem_nodes (hlies.nodes (site.alloc, .alloc a) (mem_footprint.mpr (Or.inl rfl)))
  rcases htrades.origin x (List.mem_flatten.mpr ⟨ops, hops, hx⟩) with hold | ⟨hlt, -⟩
  · refine ⟨Or.inl (mem_ids_of_release hold), ?_⟩
    rintro rfl
    exact alloc_notMem_releases hlies.nodup hold
  · refine ⟨Or.inr (Nat.le_trans hsize hlt), ?_⟩
    rintro rfl
    exact Nat.not_lt.mpr (Nat.le_trans hsize hlt) (hS.index_lt halloc)

include hS hslots hentry htrades in
theorem member_new {rotation : Rotation} {selector : OpId} {selected : ValueId} {guard : Option Guard}
    (hlies : (e.footprint site a).Lies F e.loop l) (hsize : k.ops.size ≤ k₃.ops.size)
    (hrot : ∀ x ∈ rotation.ops, x ∈ entry.map Prod.fst) (hselector : selector ∈ entry.map Prod.fst) {x : OpId}
    (hx : x ∈ (e.outcome site slots rotation selector selected opss guard).members) :
    (x ∈ (e.footprint site a).ids ∨ k.ops.size ≤ x.index) ∧ x ≠ site.alloc := by
  have halloc : site.alloc ∈ F.ids :=
    Forest.mem_ids_of_mem_nodes (hlies.nodes (site.alloc, .alloc a) (mem_footprint.mpr (Or.inl rfl)))
  have hnew : ∀ {x : OpId}, k.ops.size ≤ x.index →
      (x ∈ (e.footprint site a).ids ∨ k.ops.size ≤ x.index) ∧ x ≠ site.alloc := fun hx =>
    ⟨Or.inr hx, fun heq => Nat.not_lt.mpr hx (heq ▸ hS.index_lt halloc)⟩
  have hentered : ∀ x ∈ entry.map Prod.fst, k.ops.size ≤ x.index := by
    intro x hx
    obtain ⟨n, hn, rfl⟩ := List.mem_map.mp hx
    exact Nat.le_trans hslots.ops (hentry.fresh n hn).1
  rcases SlotSet.mem_members.mp hx with hx | rfl | hx | ⟨ops, hmem, hx⟩
  · obtain ⟨slot, hslot, rfl⟩ := List.mem_map.mp hx
    exact hnew (hslots.slot_new hslot).1
  · exact hnew (hentered _ hselector)
  · exact hnew (hentered x (hrot x hx))
  · exact release_new hS htrades hlies hsize hmem hx

theorem allocs_assembly :
    ((e.footprint site a).allocs.flatMap (assembly v hS hlies huses hslots hp hentry htrades).first.image).flatMap
      (assembly v hS hlies huses hslots hp hentry htrades).second.image = allocNodes ty slots := by
  change ([((site.alloc, .alloc a) : Node)].flatMap (Rewriting.placing (.after site.alloc) _).image).flatMap
    (R.andThen (.dropping [site.alloc])).image = allocNodes ty slots
  have hnew : ∀ n ∈ allocNodes ty slots, n.1 ∉ (e.footprint site a).ids := by
    intro n hn hid
    obtain ⟨m, hm, heq⟩ := List.mem_map.mp hid
    have hlt := hS.index_lt (Forest.mem_ids_of_mem_nodes (hlies.nodes m hm))
    exact Nat.not_lt.mpr (hslots.fresh n hn).1 (heq ▸ hlt)
  have hspared : ∀ n ∈ (site.alloc, .alloc a) :: allocNodes ty slots,
      n.1 ∉ (e.footprint site a).releases.flatten.map Prod.fst := by
    intro n hn hid
    rcases List.mem_cons.mp hn with rfl | hn
    · exact alloc_notMem_releases hlies.nodup hid
    · exact hnew n hn (mem_ids_of_release hid)
  have hdropped : (Rewriting.dropping [site.alloc]).image (site.alloc, .alloc a) = [] := by
    rw [Rewriting.image_leaf _ rfl, Rewriting.leaf_dropping, if_pos (List.mem_singleton_self _)]
  rw [List.flatMap_singleton, Rewriting.image_placing_after rfl, htrades.flat.flatMap_andThen,
    htrades.only.flatMap_of_notMem hspared, List.flatMap_cons, hdropped, List.nil_append,
    (Rewriting.local_dropping _).flatMap_of_notMem]
  intro n hn hid
  rw [List.mem_singleton] at hid
  exact hnew n hn (hid ▸ Footprint.mem_ids_of_mem_nodes (mem_footprint.mpr (Or.inl rfl)))

theorem releases_assembly (hsize : k.ops.size ≤ k₃.ops.size) :
    List.Forall₂ (fun ns ops =>
      ns.flatMap (assembly v hS hlies huses hslots hp hentry htrades).second.image = releaseNodes slots ops)
      (e.footprint site a).releases opss := by
  obtain ⟨hlength, htraded⟩ := List.forall₂_iff_zip.mp htrades.traded
  refine List.forall₂_iff_zip.mpr ⟨hlength, fun {ns ops} hmem => ?_⟩
  change ns.flatMap (R.andThen (.dropping [site.alloc])).image = releaseNodes slots ops
  obtain ⟨hops, heq⟩ := htraded hmem
  rw [htrades.flat.flatMap_andThen, heq, (Rewriting.local_dropping _).flatMap_of_notMem]
  intro n hn hid
  have hx : n.1 ∈ ops := by
    rw [← map_fst_releaseNodes hops]
    exact List.mem_map_of_mem hn
  exact (release_new hS htrades hlies hsize (List.of_mem_zip hmem).2 hx).2 (List.mem_singleton.mp hid)

end

end Expansion
namespace Kernel

variable {k : Kernel} {F : Forest} {site : Site}

/-- An expansion that nothing speaks against puts a set in place of the footprint of the buffer. -/
theorem Stores.expand (h : Stores k F) (hreach : F.Reaches site.buffer) (hknows : k.Knows F) (policy : Policy)
    (factor : Int64) :
    (∃ err, site.expansion policy k factor = .error err) ∨
      ∃ (e : Expansion) (a : Alloc) (l : Loop) (set : SlotSet) (k' : Kernel) (E : Exchange F)
          (guard rot : List Node),
        Transform.Does (Transform.expand policy site factor) k set k' ∧ site.expansion policy k factor = .ok e ∧
          (site.alloc, .alloc a) ∈ F.nodes ∧ a.result = site.buffer ∧ set.slots.length = e.slots ∧
          Installs k k' E (e.footprint site a) set l guard rot ∧ site.alloc ∉ set.members ∧
          set.guard.isSome = policy.needsGuard k set.ty set.loop set.slots.length ∧
          (∀ g, set.guard = some g → E.result.Leads set.loop g.op) ∧ guard = Guard.nodes set.guard := by
  cases he : site.expansion policy k factor with
  | error err => exact Or.inl ⟨err, rfl⟩
  | ok e =>
    have hsound := h.expansion_sound hreach he
    obtain ⟨a, ha, hres⟩ := hsound.alloc
    obtain ⟨l, hl⟩ := hsound.loop
    have hlies := hsound.lies h hreach ha hres hl
    have huses := hsound.mem_accesses_iff h.nodup ha
    -- the slots
    obtain ⟨slots, k₁, hrun₁, hslots, hordinals⟩ :=
      h.allocateSlots (p := .after site.alloc) ⟨_, ha, rfl⟩ site.ty (fun _ => .fresh) 0 e.slots
    have hlength : slots.length = e.slots := by simpa using congrArg List.length hordinals
    have hl₁ := loop_mem_placing h hl (.after site.alloc) (allocNodes site.ty slots)
    -- the entry
    obtain ⟨guard, k₂, p, gns, hdoes₂, hprepares, hneeds, hheaded, hinserted⟩ :=
      hslots.stores.guardFor hl₁ policy site.ty e.slots
    have htop := hprepares.bodyTop_eq hslots.stores hl₁
    obtain ⟨rotation, rot, k₃, hdoes₃, hplaces₃, hrotates, hops, hfactor⟩ :=
      hprepares.deriveRotation hslots.stores hl₁ hsound.bounded
    obtain ⟨selector, selected, k₄, hrun₄, hplaces₄, htyped⟩ := hplaces₃.stores.selectAmong
      (hplaces₃.anchors hslots.stores.plain (hprepares.opens.anchors hl₁)) site.ty slots rotation.value
    have hentry := hplaces₃.append hslots.stores hplaces₄
    have hopens : F.Opens e.loop l p := hprepares.opens.of_placing_after h.plain hslots.stores.nodup hl
    have hkept : ∀ n ∈ F.nodes, n ∈ ((F.rewrite (.placing (.after site.alloc) (allocNodes site.ty slots))).rewrite
        (.placing p (gns ++ rot ++
          [(selector, .selectSlot selected (slots.map Slot.value) rotation.value)]))).nodes := by
      intro n hn
      exact Forest.mem_placing hslots.stores.plain (Forest.mem_placing h.plain hn)
    obtain ⟨k₅, k₆, k₇, R, opss, hdoes₅, hsize₅, hrun₆, hrun₇, htrades, hfinish⟩ :=
      hsound.finish h hlies huses hentry.stores hkept slots selected
    have hbecomes : Becomes k k₇ F
        (Expansion.assembly selected h hlies huses hslots hopens hentry htrades).rewriting :=
      (Becomes.of_places hslots).trans ((Becomes.of_places hentry).trans hfinish)
    have hselected_new : k.values.size ≤ selected.index :=
      Nat.le_trans (Nat.le_trans hslots.values hplaces₃.values)
        (hplaces₄.results _ (List.mem_singleton_self _) _ rfl)
    have hsize : k.ops.size ≤ k₅.ops.size := Nat.le_trans hslots.ops (Nat.le_trans hentry.ops hsize₅)
    let out := e.outcome site slots rotation selector selected opss guard
    have hmembers : ∀ x ∈ out.members, (x ∈ (e.footprint site a).ids ∨ k.ops.size ≤ x.index) ∧ x ≠ site.alloc := by
      intro x hx
      refine Expansion.member_new h hslots hentry htrades hlies hsize (fun y hy => ?_) (by simp) hx
      rw [hops] at hy
      rw [List.map_append, List.map_append]
      exact List.mem_append_left _ (List.mem_append_right _ hy)
    have hinstalls : Installs k k₇ (Expansion.assembly selected h hlies huses hslots hopens hentry htrades).exchange
        (e.footprint site a) out l gns rot := by
      refine installs_of_assembly out _ hbecomes hknows ?_ rfl rfl hprepares.barriers hops.symm ?_ ?_ ?_ rfl ?_
        (Or.inr hselected_new) (fun slot hslot => Or.inl (hslots.slot_new hslot).2) ?_ ?_ ?_
      · apply hsound.formed_outcome hlength hordinals hfactor
        intro ops hmem
        obtain ⟨ns, -, hlen, -⟩ := exists_of_forall₂ htrades.traded.flip hmem
        exact hlen
      · change Rotates F l slots.length rot rotation.value
        rw [hlength]
        refine hrotates.of_placing h.plain fun d v c hmem => ?_
        obtain ⟨slot, -, heq⟩ := SlotSet.mem_allocNodes.mp hmem
        cases heq
      · exact Expansion.allocs_assembly selected h hlies huses hslots hopens hentry htrades
      · exact Expansion.releases_assembly selected h hlies huses hslots hopens hentry htrades hsize
      · exact fun x hx => (hmembers x hx).1
      · exact fun n hn v hv => Nat.le_trans hslots.values (hplaces₃.results n (List.mem_append_right _ hn) v hv)
      · exact hfinish.types _ _ htyped
      · intro use
        rw [Expansion.map_use_outcome]
        exact huses use
    have hleft : Transform.checkLeftover site.buffer k₇ = .ok () := by
      have hbuffer : site.buffer.index < k.values.size := h.result_lt ha (congrArg some hres)
      have hnil : Forest.uses _ site.buffer = [] := hinstalls.unused h
        (fun heq => Nat.not_lt.mpr hselected_new (congrArg ValueId.index heq ▸ hbuffer))
        (fun slot hslot heq => Nat.not_lt.mpr (hslots.slot_new hslot).2 (congrArg ValueId.index heq ▸ hbuffer))
      rw [Transform.checkLeftover, hinstalls.stores.usesOf_eq, hnil]
    refine Or.inr ⟨e, a, l, out, k₇, _, gns, rot, ?_, rfl, ha, hres, hlength, hinstalls, ?_, ?_, ?_, hinserted⟩
    · rw [List.map_append, InsertPoint.past_append, ← hops] at hrun₄
      refine (Transform.does_query he).bind ((Transform.does_edit hrun₁).bind ((Transform.does_record _ _ _).bind
        (hdoes₂.bind ((Transform.does_query htop).bind (hdoes₃.bind ((Transform.does_edit hrun₄).bind ?_))))))
      exact hdoes₅.bind ((Transform.does_edit hrun₆).bind ((Transform.does_edit hrun₇).bind
        ((Transform.does_query hleft).bind (Transform.does_pure _))))
    · exact fun hmem => (hmembers _ hmem).2 rfl
    · change guard.isSome = policy.needsGuard k site.ty e.loop slots.length
      rw [hneeds, hlength, (Becomes.of_places hslots).needsGuard_eq h.toArranges]
    · intro g hg
      exact hinstalls.leads_guard h ((hheaded g hg).of_placing_after h.plain hslots.stores.nodup hl)

end Kernel
end SlotRotation
