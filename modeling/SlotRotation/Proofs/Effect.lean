import SlotRotation.Proofs.Refusals

/-! The effect of an expansion on the whole kernel. An exchange of ops is read off the region lists, the walk and
the ops themselves. -/

namespace SlotRotation

theorem Forest.Level.rewrite {F G : Forest} {r : RegionId} {R : Rewriting} (h : F.Level r G)
    (hroot : R.top Kernel.body = []) : (F.rewrite R).Level r (prepend (R.top r) (G.rewrite R)) := by
  rcases h with ⟨rfl, rfl⟩ | ⟨a, l, hG, rfl⟩
  · rw [hroot]
    exact Or.inl ⟨rfl, rfl⟩
  · exact Or.inr ⟨a, R.head a l, hG.rewrite, (R.head_frame a l).1⟩

theorem flatMap_eq_filter {ns : List Node} {p : OpId → Bool} {g : Node → List OpId}
    (h : ∀ n ∈ ns, g n = if p n.1 then [n.1] else []) : ns.flatMap g = (ns.map Prod.fst).filter p := by
  induction ns with
  | nil => rfl
  | cons n ns ih =>
    rw [List.flatMap_cons, h n List.mem_cons_self, ih fun m hm => h m (List.mem_cons_of_mem _ hm), List.map_cons,
      List.filter_cons]
    split <;> rfl

namespace Exchange

variable {F G : Forest} {E : Exchange F} {k k' : Kernel} {r : RegionId} {x : OpId} {op : Op}

def standIns (E : Exchange F) (x : OpId) : List OpId := ((E.table.lookup x).map fun ns => ns.map Prod.fst).getD [x]

def entryIds (E : Exchange F) : List OpId := E.entry.map Prod.fst

theorem standIns_of_notMem (h : x ∉ E.keys) : E.standIns x = [x] := by
  rw [standIns, lookup_eq_none h]
  rfl

theorem standIns_of_mem {n : Node} (hn : n ∈ F.nodes) (h : n.1 ∈ E.keys) (hF : F.ids.Nodup) :
    E.standIns n.1 = (E.rewriting.image n).map Prod.fst := by
  obtain ⟨⟨id, ns⟩, he, rfl⟩ := List.mem_map.mp h
  rw [standIns, lookup_eq_some E.nodup he, image_key hn he hF]
  rfl

theorem tops_level (hG : F.Level r G) (hP : F.Plain) (hF : F.ids.Nodup) :
    (G.rewrite E.rewriting).tops =
      G.tops.flatMap fun x => E.standIns x ++ if E.point = .after x then E.entryIds else [] := by
  refine Forest.tops_rewrite (hG.plain hP) (fun n _ hleaf => ?_) fun a l hl => ?_
  · rw [leaf_rewriting, List.map_append, standIns]
    congr 1
    · cases E.table.lookup n.1 <;> rfl
    · split <;> rfl
  · have hnode := hG.nodes_subset hl
    have hkey : a ∉ E.keys := by
      intro hmem
      obtain ⟨i, hi, hleaf⟩ := E.leaf a hmem
      rw [Forest.node_unique hF hi hnode] at hleaf
      cases hleaf
    have hpoint : E.point ≠ .after a := by
      intro hp
      have hanchors := E.anchored
      rw [hp] at hanchors
      obtain ⟨i, hi, hleaf⟩ := hanchors
      rw [Forest.node_unique hF hi hnode] at hleaf
      cases hleaf
    rw [standIns_of_notMem hkey, if_neg hpoint, List.append_nil]

theorem top_root (h : k.Arranges F) : E.rewriting.top Kernel.body = [] := by
  refine if_neg fun hp => ?_
  have hanchors := E.anchored
  rw [hp] at hanchors
  obtain ⟨a, l, hl, hbody⟩ := hanchors
  have howner := h.owner?_of_mem hl rfl
  rw [hbody, h.root] at howner
  cases howner

theorem regionOps_result (h : k.Arranges F) (h' : k'.Arranges E.result) (hG : F.Level r G) :
    k'.regionOps r = (if E.point = .first r then E.entryIds else []) ++
      (k.regionOps r).flatMap fun x => E.standIns x ++ if E.point = .after x then E.entryIds else [] := by
  rw [h'.regionOps_level (hG.rewrite (top_root h)), Forest.tops_prepend, tops_level hG h.plain h.nodup,
    h.regionOps_level hG]
  congr 1
  change (if E.point = .first r then E.entry else []).map Prod.fst = _
  split <;> rfl

theorem op?_result (h : k.Arranges F) (h' : k'.Arranges E.result) (hx : k.op? x = some op) (hkey : x ∉ E.keys) :
    k'.op? x = some { op with instr := op.instr.mapOperands fun _ => E.rename } := by
  have hnode : (x, op.instr) ∈ F.nodes := h.mem_nodes_iff.mpr (by simp [Kernel.instr?, hx])
  obtain ⟨s, hs⟩ := h'.placed.op? ((mem_nodes_result h.plain h.nodup).mpr (Or.inr (Or.inr ⟨_, hnode, hkey, rfl⟩)))
  obtain ⟨r, G, hG, hxG⟩ := Forest.exists_level (Forest.mem_ids_of_mem_nodes hnode)
  have htop : x ∈ (Forest.prepend (E.rewriting.top r) (G.rewrite E.rewriting)).tops := by
    rw [Forest.tops_prepend, tops_level hG h.plain h.nodup]
    refine List.mem_append_right _ (List.mem_flatMap.mpr ⟨x, hxG, List.mem_append_left _ ?_⟩)
    rw [standIns_of_notMem hkey]
    exact List.mem_singleton_self x
  have hhome := h.home?_level hG hxG
  have hhome' := h'.home?_level (hG.rewrite (top_root h)) htop
  change k'.op? x = _ at hs
  rw [Kernel.home?, hx, Option.map_some, Option.some.injEq] at hhome
  rw [Kernel.home?, hs, Option.map_some, Option.some.injEq] at hhome'
  rw [hs, hhome, ← hhome']
  rfl

section

variable (h : k.Arranges F) (htable : ∀ e ∈ E.table, ∀ n ∈ e.2, k.isLive n.1 = false)
  (hentry : ∀ n ∈ E.entry, k.isLive n.1 = false)
include h htable hentry

theorem filter_image {n : Node} (hn : n ∈ F.nodes) :
    ((E.rewriting.image n).map Prod.fst).filter k.isLive = if n.1 ∉ E.keys then [n.1] else [] := by
  have hlive : k.isLive (E.renamed n).1 = true :=
    h.isLive_iff.mpr (show n.1 ∈ F.ids from Forest.mem_ids_of_mem_nodes hn)
  have hnone : ∀ {ns : List Node}, (∀ m ∈ ns, k.isLive m.1 = false) → (ns.map Prod.fst).filter k.isLive = [] := by
    intro ns hns
    rw [List.filter_eq_nil_iff]
    intro x hx
    obtain ⟨m, hm, rfl⟩ := List.mem_map.mp hx
    simp [hns m hm]
  split
  · rename_i hkey
    by_cases hhost : Forest.Hosts n E.point
    · rw [image_host hn hhost, List.map_cons, List.filter_cons_of_pos hlive, hnone hentry]
      rfl
    · rw [image_of_not_hosts hkey hhost, List.map_singleton, List.filter_cons_of_pos hlive]
      rfl
  · rename_i hkey
    obtain ⟨⟨id, ns⟩, he, hid⟩ := List.mem_map.mp (not_not.mp hkey)
    obtain rfl : id = n.1 := hid
    rw [image_key hn he h.nodup, hnone (htable _ he)]

theorem preorder_result (h' : k'.Arranges E.result) :
    k'.preorder.filter k.isLive = k.preorder.filter fun x => x ∉ E.keys := by
  rw [h'.preorder_eq, h.preorder_eq, Forest.ids, Forest.ids, result, Forest.nodes_rewrite h.plain, List.map_flatMap,
    List.filter_flatMap]
  exact flatMap_eq_filter fun n hn => by simpa using filter_image h htable hentry hn

end

end Exchange

def Kernel.releasesOf (k : Kernel) (buffer : ValueId) : List OpId :=
  k.preorder.filter fun x => k.instr? x = some (.dealloc buffer)

def Site.Takes (site : Site) (k : Kernel) (x : OpId) : Prop :=
  x = site.alloc ∨ k.instr? x = some (.dealloc site.buffer)

instance (site : Site) (k : Kernel) (x : OpId) : Decidable (site.Takes k x) :=
  inferInstanceAs (Decidable (x = site.alloc ∨ k.instr? x = some (.dealloc site.buffer)))

namespace SlotSet

def inserted (set : SlotSet) : List OpId := (set.guard.filter Guard.inserted).toList.map Guard.op

theorem map_fst_guard (set : SlotSet) : (Guard.nodes set.guard).map Prod.fst = set.inserted := List.map_map ..

def entry (set : SlotSet) : List OpId := set.inserted ++ set.rotation.ops ++ [set.selector]

/-- What stands where an op stood: the slots for the allocation, and for each release the releases of the slots. -/
def inPlaceOf (set : SlotSet) (site : Site) (k : Kernel) (x : OpId) : List OpId :=
  if x = site.alloc then set.slots.map Slot.alloc
  else (((k.releasesOf site.buffer).zip set.releases).lookup x).getD [x]

/-- The list of a region with the set in it. A barrier that leads the loop body stays in the lead. -/
def layout (set : SlotSet) (site : Site) (k : Kernel) (l : Loop) (r : RegionId) : List OpId :=
  if r = l.body then
    match k.leadingBarrier? r with
    | some g => g :: (set.entry ++ (k.regionOps r).tail.flatMap (set.inPlaceOf site k))
    | none => set.entry ++ (k.regionOps r).flatMap (set.inPlaceOf site k)
  else (k.regionOps r).flatMap (set.inPlaceOf site k)

end SlotSet

/-- What an expansion of a site does to a kernel: to the ops that stay, to the walk, to the lists of the regions,
what the new ops are, and what becomes of the uses of the buffer. -/
structure Site.Effect (site : Site) (set : SlotSet) (k k' : Kernel) : Prop where
  kept : ∀ x op, k.op? x = some op → ¬site.Takes k x →
    k'.op? x = some { op with instr := op.instr.mapOperands fun _ v => if v = site.buffer then set.selected else v }
  order : k'.preorder.filter k.isLive = k.preorder.filter fun x => ¬site.Takes k x
  live : ∀ x, k'.isLive x ↔ (k.isLive x ∧ ¬site.Takes k x) ∨ x ∈ set.members ++ set.inserted
  new : ∀ x ∈ set.members ++ set.inserted, k.ops.size ≤ x.index
  nodup : (set.members ++ set.inserted).Nodup
  lists : ∃ l, k.loop? set.loop = some l ∧
    ∀ r, (r = Kernel.body ∨ ∃ a m, k.loop? a = some m ∧ m.body = r) → k'.regionOps r = set.layout site k l r
  slots : ∀ (i : Nat) (slot : Slot), set.slots[i]? = some slot →
    slot.ordinal = i ∧ k'.instr? slot.alloc = some (.alloc { result := slot.value, ty := site.ty })
  guard : ∀ x ∈ set.inserted, k'.instr? x = some .barrier
  rotation : ∀ x ∈ set.rotation.ops, (∃ v c, k'.instr? x = some (.constant v c)) ∨
    ∃ v op lhs rhs, k'.instr? x = some (.arith v op lhs rhs)
  selector : k'.instr? set.selector = some (.selectSlot set.selected set.slotValues set.rotation.value)
  releases : ∀ ops ∈ set.releases, ops.length = set.slots.length ∧
    ∀ (i : Nat) (slot : Slot) (x : OpId), set.slots[i]? = some slot → ops[i]? = some x →
      k'.instr? x = some (.dealloc slot.value)
  bindings : set.bindings.map Binding.use = k.accessesOf site.buffer
  released : set.releases.length = (k.releasesOf site.buffer).length
  useCount : set.useCount = (k.usesOf site.buffer).length
  unread : ∀ x i, k'.instr? x = some i → site.buffer ∉ i.operands

namespace Kernel

variable {k k' : Kernel} {F : Forest} {site : Site} {set : SlotSet}

theorem Arranges.users_releases (h : Arranges k F) (v : ValueId) :
    ((k.usesOf v).filter k.isRelease).map Use.user = k.releasesOf v := by
  rw [h.usesOf_eq, releasesOf, h.preorder_eq, Forest.ids, Forest.uses, List.filter_flatMap, List.map_flatMap]
  refine flatMap_eq_filter fun n hn => ?_
  have hinstr : k.instr? n.1 = some n.2 := h.instr?_of_mem hn
  rw [hinstr]
  by_cases hd : n.2 = .dealloc v
  · simp [Forest.usesIn, hd, Instr.operands, isRelease, hinstr, Instr.isDealloc]
  · have hnil : (Forest.usesIn v n).filter k.isRelease = [] := by
      rw [List.filter_eq_nil_iff]
      intro use huse hrelease
      have hnode := ((h.isRelease_iff (List.mem_flatMap.mpr ⟨n, hn, huse⟩)).mp hrelease).1
      rw [(Forest.mem_usesIn.mp huse).1] at hnode
      exact hd (Forest.node_unique h.nodup hn hnode)
    simp [hnil, hd]

theorem Arranges.parts_of_expansion (h : Arranges k F) {policy : Policy} {factor : Int64} {e : Expansion}
    (he : site.expansion policy k factor = .ok e) :
    slotsAsked factor = .ok e.slots ∧ e.accesses = k.accessesOf site.buffer ∧
      e.releases.map Use.user = k.releasesOf site.buffer := by
  have huses : (DefUse.ofKernel k).usesOf site.buffer = k.usesOf site.buffer := by
    rw [DefUse.usesOf_ofKernel h, h.usesOf_eq]
  unfold Site.expansion at he
  rw [huses] at he
  obtain ⟨slots, hslots, he⟩ := except_bind_eq_ok he
  obtain ⟨_, -, he⟩ := except_bind_eq_ok he
  obtain ⟨_, -, he⟩ := except_bind_eq_ok he
  obtain ⟨_, -, he⟩ := except_bind_eq_ok he
  obtain ⟨_, -, he⟩ := except_bind_eq_ok he
  cases he
  exact ⟨hslots, rfl, h.users_releases site.buffer⟩

namespace Installs

section

variable {E : Exchange F} {e : Expansion} {a : Alloc} {l : Loop} {rot : List Node}
  (h : Installs k k' E (e.footprint site a) set l (Guard.nodes set.guard) rot) (hS : Stores k F)
  (hreleases : e.releases.map Use.user = k.releasesOf site.buffer)
include h

theorem entryIds_eq : E.entryIds = set.entry := by
  rw [Exchange.entryIds, h.yields.entry, List.map_append, List.map_append, h.yields.rot_ids, set.map_fst_guard]
  rfl

theorem mem_entry_iff {n : Node} : n ∈ E.entry ↔ n ∈ Guard.nodes set.guard ∨ n ∈ rot ∨ n = set.selectNode := by
  rw [h.yields.entry]
  simp

theorem mem_members_of_table {t : OpId × List Node} (ht : t ∈ E.table) {n : Node} (hn : n ∈ t.2) :
    n.1 ∈ set.members := by
  rcases h.yields.table_cases t ht n hn with hn | ⟨ops, hops, hn⟩
  · obtain ⟨slot, hslot, rfl⟩ := SlotSet.mem_allocNodes.mp hn
    exact SlotSet.alloc_mem_members hslot
  · have hmem := List.mem_map_of_mem (f := Prod.fst) hn
    rw [map_fst_releaseNodes (h.yields.lengths ops hops)] at hmem
    exact SlotSet.release_mem_members (List.mem_flatten.mpr ⟨ops, hops, hmem⟩)

theorem inserted_mem {x : OpId} (hx : x ∈ set.inserted) : (x, .barrier) ∈ E.entry := by
  obtain ⟨g, hg, rfl⟩ := List.mem_map.mp hx
  exact h.mem_entry_iff.mpr (Or.inl (List.mem_map.mpr ⟨g, hg, rfl⟩))

include hreleases

theorem keys_eq : E.keys = site.alloc :: k.releasesOf site.buffer := by
  rw [h.replaces.keys, Expansion.ids_footprint, hreleases]

theorem image_releases :
    List.Forall₂ (fun x ops => E.rewriting.image (x, .dealloc site.buffer) = releaseNodes set.slots ops)
      (k.releasesOf site.buffer) set.releases := by
  have hforall := h.replaces.releases
  rw [Expansion.footprint, List.forall₂_map_left_iff] at hforall
  rw [← hreleases, List.forall₂_map_left_iff]
  refine hforall.imp fun use ops himage => ?_
  rwa [List.flatMap_singleton] at himage

include hS

theorem mem_keys_iff {x : OpId} : x ∈ E.keys ↔ site.Takes k x := by
  rw [h.keys_eq hreleases, List.mem_cons, releasesOf, List.mem_filter, decide_eq_true_iff, hS.preorder_eq]
  refine or_congr_right (and_iff_right_of_imp fun hinstr => ?_)
  exact Forest.mem_ids_of_mem_nodes (hS.mem_nodes_iff.mpr hinstr)

theorem standIns_eq (ha : (site.alloc, .alloc a) ∈ F.nodes) (x : OpId) : E.standIns x = set.inPlaceOf site k x := by
  have hkeys := h.keys_eq hreleases
  have hmem : ∀ y ∈ site.alloc :: k.releasesOf site.buffer, y ∈ E.keys := fun y hy => hkeys ▸ hy
  obtain ⟨hlength, hzip⟩ := List.forall₂_iff_zip.mp (h.image_releases hreleases)
  have hfst : ((k.releasesOf site.buffer).zip set.releases).map Prod.fst = k.releasesOf site.buffer :=
    List.map_fst_zip (Nat.le_of_eq hlength)
  rw [SlotSet.inPlaceOf]
  split
  · rename_i hx
    have himage := h.replaces.allocs
    rw [Expansion.footprint, List.flatMap_singleton] at himage
    rw [hx, Exchange.standIns_of_mem ha (hmem _ List.mem_cons_self) hS.nodup, himage, allocNodes, List.map_map]
    rfl
  · rename_i hx
    by_cases hrelease : x ∈ k.releasesOf site.buffer
    · have hnode : (x, .dealloc site.buffer) ∈ F.nodes :=
        hS.mem_nodes_iff.mpr (by simpa using (List.mem_filter.mp hrelease).2)
      rw [← hfst] at hrelease
      obtain ⟨⟨_, ops⟩, hpair, rfl⟩ := List.mem_map.mp hrelease
      have hnodup : (((k.releasesOf site.buffer).zip set.releases).map Prod.fst).Nodup := by
        rw [hfst, releasesOf, hS.preorder_eq]
        exact hS.nodup.filter _
      have hops : ops.length = set.slots.length := h.yields.lengths ops (List.of_mem_zip hpair).2
      rw [Exchange.lookup_eq_some hnodup hpair, Option.getD_some,
        Exchange.standIns_of_mem hnode (hmem _ (List.mem_cons_of_mem _ (List.of_mem_zip hpair).1)) hS.nodup,
        hzip hpair, map_fst_releaseNodes hops]
    · have hkey : x ∉ E.keys := by
        rw [hkeys, List.mem_cons]
        exact not_or.mpr ⟨hx, hrelease⟩
      rw [Exchange.standIns_of_notMem hkey, Exchange.lookup_eq_none (by rwa [hfst])]
      rfl

theorem regionOps_eq (ha : (site.alloc, .alloc a) ∈ F.nodes) {r : RegionId} {G : Forest} (hG : F.Level r G) :
    k'.regionOps r = set.layout site k l r := by
  have hl := h.yields.loop
  have hbarrier : ∀ g, F.Leads set.loop g → set.inPlaceOf site k g = [g] := by
    intro g hg
    rw [← h.standIns_eq hS hreleases ha]
    refine Exchange.standIns_of_notMem fun hkey => ?_
    rcases (h.mem_keys_iff hS hreleases).mp hkey with rfl | hrelease
    · cases Forest.node_unique hS.nodup ha hg.mem_nodes
    · cases Forest.node_unique hS.nodup hg.mem_nodes (hS.mem_nodes_iff.mpr hrelease)
  rw [Exchange.regionOps_result hS.toArranges h.stores.toArranges hG, h.entryIds_eq, SlotSet.layout]
  simp only [h.standIns_eq hS hreleases ha]
  rcases h.opens with ⟨hp, hno⟩ | ⟨g, hp, hlead⟩
  · -- The entry is at the start of the body.
    have hnone : k.leadingBarrier? l.body = none := by
      cases hg : k.leadingBarrier? l.body with
      | none => rfl
      | some g => exact absurd ((hS.leadingBarrier?_eq_some_iff hl).mp hg) (hno g)
    simp only [hp, reduceCtorEq, if_false, List.append_nil, InsertPoint.first.injEq]
    by_cases hr : r = l.body
    · rw [if_pos hr.symm, if_pos hr, hr, hnone]
    · rw [if_neg (Ne.symm hr), if_neg hr]
      rfl
  · -- The entry is behind the barrier that leads the body.
    have hg := (hS.leadingBarrier?_eq_some_iff hl).mpr hlead
    have hself := hbarrier g hlead
    obtain ⟨l', B, hB⟩ := hlead
    obtain rfl : l' = l := Instr.loop.inj (Forest.node_unique hS.nodup hB.mem_nodes hl)
    have hlevel : F.Level l'.body (.op g .barrier B) := Or.inr ⟨_, _, hB, rfl⟩
    have hskip : ∀ xs : List OpId, g ∉ xs →
        (xs.flatMap fun x => set.inPlaceOf site k x ++ if g = x then set.entry else []) =
        xs.flatMap (set.inPlaceOf site k) := by
      intro xs hxs
      rw [List.flatMap_def, List.flatMap_def]
      refine congrArg _ (List.map_congr_left fun x hx => ?_)
      have hne : g ≠ x := fun heq => hxs (heq ▸ hx)
      rw [if_neg hne, List.append_nil]
    simp only [hp, reduceCtorEq, if_false, List.nil_append, InsertPoint.after.injEq]
    by_cases hr : r = l'.body
    · have hops : k.regionOps l'.body = g :: B.tops := hS.regionOps_level hlevel
      have hrest : g ∉ B.tops := (List.nodup_cons.mp (Forest.nodup_tops (hB.nodup hS.nodup))).1
      rw [if_pos hr, hr, hg, hops, List.flatMap_cons, if_pos rfl, hself, hskip _ hrest]
      rfl
    · have hout : g ∉ k.regionOps r := by
        intro hmem
        rw [hS.regionOps_level hG] at hmem
        exact hr (hS.region_unique hlevel List.mem_cons_self hG hmem)
      rw [if_neg hr, hskip _ hout]

theorem isLive_iff (x : OpId) :
    k'.isLive x ↔ (k.isLive x ∧ ¬site.Takes k x) ∨ x ∈ set.members ++ set.inserted := by
  have hresult : ∀ {n : Node}, n ∈ E.result.nodes ↔ (∃ t ∈ E.table, n ∈ t.2) ∨ n ∈ E.entry ∨
      ∃ m ∈ F.nodes, m.1 ∉ E.keys ∧ n = E.renamed m := Exchange.mem_nodes_result hS.plain hS.nodup
  rw [h.stores.isLive_iff, hS.isLive_iff, List.mem_append]
  constructor
  · intro hx
    obtain ⟨i, hi⟩ := Forest.exists_mem_nodes hx
    rcases hresult.mp hi with ⟨t, ht, hm⟩ | hm | ⟨n, hn, hkey, heq⟩
    · exact Or.inr (Or.inl (h.mem_members_of_table ht hm))
    · rcases h.mem_entry_iff.mp hm with hm | hm | hm
      · refine Or.inr (Or.inr ?_)
        rw [← set.map_fst_guard]
        exact List.mem_map_of_mem (f := Prod.fst) hm
      · refine Or.inr (Or.inl (SlotSet.rotation_mem_members ?_))
        rw [← h.yields.rot_ids]
        exact List.mem_map_of_mem (f := Prod.fst) hm
      · have hid : x = set.selector := congrArg Prod.fst hm
        exact Or.inr (Or.inl (hid ▸ SlotSet.selector_mem_members))
    · cases heq
      exact Or.inl ⟨Forest.mem_ids_of_mem_nodes hn, fun htakes => hkey ((h.mem_keys_iff hS hreleases).mpr htakes)⟩
  · rintro (⟨hx, htakes⟩ | hx | hx)
    · obtain ⟨i, hi⟩ := Forest.exists_mem_nodes hx
      exact Forest.mem_ids_of_mem_nodes (hresult.mpr (Or.inr (Or.inr
        ⟨_, hi, fun hkey => htakes ((h.mem_keys_iff hS hreleases).mp hkey), rfl⟩)))
    · obtain ⟨i, hi, -⟩ := (h.fits hS).exists_node hx
      exact Forest.mem_ids_of_mem_nodes hi
    · exact Forest.mem_ids_of_mem_nodes (hresult.mpr (Or.inr (Or.inl (h.inserted_mem hx))))

theorem effect (ha : (site.alloc, .alloc a) ∈ F.nodes) (hty : set.ty = site.ty)
    (hnew : ∀ x ∈ set.members, k.ops.size ≤ x.index)
    (hbindings : set.bindings.map Binding.use = k.accessesOf site.buffer) (hleft : k'.usesOf site.buffer = []) :
    site.Effect set k k' := by
  have hfits := h.fits hS
  have hgood := hfits.good h.stores
  have hmem : ∀ n ∈ E.entry, n ∈ E.result.nodes := fun n hn =>
    (Exchange.mem_nodes_result hS.plain hS.nodup).mpr (Or.inr (Or.inl hn))
  have hdead : ∀ x : OpId, k.ops.size ≤ x.index → k.isLive x = false := fun x hx =>
    Bool.eq_false_iff.mpr fun hlive => Nat.not_lt.mpr hx (hS.index_lt (hS.isLive_iff.mp hlive))
  have hreleased := (h.image_releases hreleases).length_eq
  refine ⟨?_, ?_, h.isLive_iff hS hreleases, ?_, ?_, ⟨l, hS.loop?_eq_some_iff.mpr h.yields.loop, ?_⟩, ?_, ?_, ?_, ?_,
    hgood.releases, hbindings, hreleased.symm, ?_, ?_⟩
  · intro x op hop htakes
    have hrename : E.rename = fun v => if v = site.buffer then set.selected else v := funext h.yields.rename
    rw [Exchange.op?_result hS.toArranges h.stores.toArranges hop
      fun hkey => htakes ((h.mem_keys_iff hS hreleases).mp hkey), hrename]
  · rw [Exchange.preorder_result hS.toArranges (fun t ht n hn => hdead n.1 (hnew _ (h.mem_members_of_table ht hn)))
      (fun n hn => hdead n.1 (h.entry_new n hn)) h.stores.toArranges]
    exact List.filter_congr fun x _ => by simp only [h.mem_keys_iff hS hreleases]
  · intro x hx
    rcases List.mem_append.mp hx with hx | hx
    · exact hnew x hx
    · exact h.entry_new _ (h.inserted_mem hx)
  · refine List.nodup_append.mpr ⟨hfits.members_nodup, ?_, fun x hx y hy heq => ?_⟩
    · rw [SlotSet.inserted]
      cases set.guard.filter Guard.inserted <;> simp
    · exact hfits.no_barrier h.stores.nodup (hmem _ (h.inserted_mem hy)) (heq ▸ hx) rfl
  · intro r hr
    obtain ⟨G, hG⟩ := hS.level_of_loop? hr
    exact h.regionOps_eq hS hreleases ha hG
  · rw [← hty]
    exact hgood.slots
  · exact fun x hx => h.stores.instr?_of_mem (hmem _ (h.inserted_mem hx))
  · intro x hx
    rw [← h.yields.rot_ids] at hx
    obtain ⟨n, hn, rfl⟩ := List.mem_map.mp hx
    have hinstr := h.stores.instr?_of_mem (hmem n (h.mem_entry_iff.mpr (Or.inr (Or.inl hn))))
    simp only [hinstr, Option.some.injEq]
    exact h.rotates.mem_cases hn
  · exact h.stores.instr?_of_mem hfits.selects
  · have hcount := congrArg List.length hbindings
    have hreleases' := congrArg List.length (hS.users_releases site.buffer)
    rw [List.length_map] at hcount hreleases'
    rw [SlotSet.useCount, hcount, ← hreleased, ← hreleases', accessesOf, Nat.add_comm]
    exact (List.length_eq_length_filter_add _).symm
  · intro x i hi hread
    obtain ⟨j, hj⟩ := List.mem_iff_getElem?.mp hread
    have huse : (⟨x, j⟩ : Use) ∈ E.result.uses site.buffer :=
      Forest.mem_uses.mpr ⟨i, h.stores.mem_nodes_iff.mpr hi, hj⟩
    rw [← h.stores.usesOf_eq, hleft] at huse
    cases huse

end

end Installs

variable {M N : Nat} {s s' : Transform.State} {policy : Policy} {factor : Int64}

theorem Grown.installs_of_expand (h : Grown M N s.kernel F) (hN : site.buffer.index < N)
    (hrun : Transform.expand policy site factor s = .ok set s') :
    ∃ (e : Expansion) (a : Alloc) (l : Loop) (E : Exchange F) (rot : List Node),
      site.expansion policy s.kernel factor = .ok e ∧ (site.alloc, .alloc a) ∈ F.nodes ∧
      slotsAsked factor = .ok set.slots.length ∧
      Installs s.kernel s'.kernel E (e.footprint site a) set l (Guard.nodes set.guard) rot := by
  rcases h.toStores.expand (h.steady.reaches _ hN) h.steady.knows policy factor with
    ⟨err, herr⟩ | ⟨e, a, l, set', k', E, guard, rot, hdoes, he, ha, -, hcount, hinstalls, -, -, -, rfl⟩
  · obtain ⟨e, -, -, -, -, -, -, -, he, -⟩ := Transform.expand_stages hrun
    cases he.symm.trans herr
  · obtain ⟨rfl, rfl⟩ := hdoes.unique rfl hrun
    exact ⟨e, a, l, E, rot, he, ha, hcount ▸ (h.parts_of_expansion he).1, hinstalls⟩

theorem Grown.effect_of_expand (h : Grown M N s.kernel F) (hM : site.alloc.index < M) (hN : site.buffer.index < N)
    (hrun : Transform.expand policy site factor s = .ok set s') :
    slotsAsked factor = .ok set.slots.length ∧ site.Effect set s.kernel s'.kernel := by
  -- Seen from this kernel, all that the set holds was added.
  have hrecent : Grown s.kernel.ops.size N s.kernel F := { h with
    ops_le := Nat.le_refl _
    steady := { h.steady with
      added := fun n hn hle => absurd (h.index_lt (Forest.mem_ids_of_mem_nodes hn)) (Nat.not_lt.mpr hle) } }
  obtain ⟨-, -, htracked, -⟩ := hrecent.expand (Nat.lt_of_lt_of_le hM h.ops_le) hN hrun
  obtain ⟨e, a, l, E, rot, he, ha, hslots, hinstalls⟩ := h.installs_of_expand hN hrun
  obtain ⟨e', top, s₁, s₂, s₃, s₄, s₅, s₆, he', -, -, -, -, -, -, -, -, hleft, hty, -, hbindings⟩ :=
    Transform.expand_stages hrun
  obtain rfl : e' = e := Except.ok.inj (he'.symm.trans he)
  obtain ⟨-, haccesses, hreleases⟩ := h.parts_of_expansion he
  have huses : set.bindings.map Binding.use = s.kernel.accessesOf site.buffer := by
    rw [hbindings, List.map_map, ← haccesses]
    exact List.map_id _
  have hnil : s'.kernel.usesOf site.buffer = [] := by
    rw [Transform.checkLeftover] at hleft
    split at hleft
    · assumption
    · cases hleft
  exact ⟨hslots, hinstalls.effect h.toStores hreleases ha hty (fun x hx => (htracked.members x hx).1) huses hnil⟩

end Kernel

theorem slotsAsked_eq_toInt {factor : Int64} {n : Nat} (h : slotsAsked factor = .ok n) :
    (n : Int) = factor.toInt := by
  have hpos := slotsAsked_pos h
  unfold slotsAsked at h
  split at h
  · cases h
  · cases h
    rw [Int64.toNatClampNeg] at hpos ⊢
    omega

theorem slotsAsked_of_toInt {factor : Int64} {n : Nat} (h : factor.toInt = n) (hn : 0 < n) :
    slotsAsked factor = .ok n := by
  have hge : ¬factor < 1 := by
    rw [Int64.lt_iff_toInt_lt, h]
    show ¬(n : Int) < 1
    omega
  unfold slotsAsked
  rw [if_neg hge, Int64.toNatClampNeg, h]
  rfl

namespace Transform

/-- The effect of an expansion of a site that no call was about. -/
theorem expand_effect {name : String} {location : Location} {stmts : List Stmt} (start : State)
    (hstart : start.kernel = Kernel.build name location stmts) (hv : start.kernel.verify = .ok ()) {site : Site}
    (hsite : site ∈ (survey start).1.sites) {s : State} {sets : List SlotSet}
    (hcalls : Relation.ReflTransGen (Call ((survey start).1.sites.erase site)) ((survey start).2, []) (s, sets))
    {policy : Policy} {factor : Int64} {set : SlotSet} {s' : State}
    (hrun : expand policy site factor s = .ok set s') :
    (set.slots.length : Int) = factor.toInt ∧ site.Effect set s.kernel s'.kernel := by
  obtain ⟨M, N, ⟨hM, hN⟩, hawaits⟩ := awaits_of_pending hstart hv hsite hcalls
  obtain ⟨F, hF⟩ := hawaits.grown
  obtain ⟨hslots, heffect⟩ := hF.effect_of_expand hM hN hrun
  exact ⟨slotsAsked_eq_toInt hslots, heffect⟩

/-- Two slots for the second tile of a pair. -/
theorem expand_effect_tilePair :
    let start : State := { kernel := Kernel.build "pair" .unknown Stmt.tilePair, pass := "slots" }
    let site : Site := ⟨⟨1⟩, ⟨1⟩, .tile, 1, some 3⟩
    ∃ (s s' : State) (first set : SlotSet), site ∈ (survey start).1.sites ∧
      Relation.ReflTransGen (Call ((survey start).1.sites.erase site)) ((survey start).2, []) (s, [first]) ∧
      expand {} site 2 s = .ok set s' ∧ (set.slots.length : Int) = 2 ∧ site.Effect set s.kernel s'.kernel := by
  intro start site
  obtain ⟨s, s', first, set, hsite, hchain, hrun⟩ :=
    pending_tilePair (show start = _ from rfl) (show site = _ from rfl)
  obtain ⟨hcount, heffect⟩ := expand_effect start rfl (by decide +kernel) hsite hchain hrun
  exact ⟨s, s', first, set, hsite, hchain, hrun, hcount, heffect⟩

end Transform
end SlotRotation
