import SlotRotation.Proofs.Expand
import SlotRotation.Proofs.Resize

/-! Several buffers side by side. Sets that are in place and sites that are still to be expanded stay so while one
more site is expanded or one of the sets is resized. The sets of a loop may share a barrier: it is erased only when
no set of the loop needs it. -/

namespace SlotRotation

/-- A set is in place, its selected value is typed, and its guard is a barrier as long as it is there. -/
structure SlotSet.Stands (set : SlotSet) (k : Kernel) (F : Forest) : Prop where
  fits : set.Fits F
  typed : k.typeOf? set.selected = some (.buffer set.ty)
  control : F.ControlFree set.selected
  guarded : ∀ g, set.guard = some g → g.op.index < k.ops.size ∧ ∀ i, (g.op, i) ∈ F.nodes → i = .barrier

structure Site.Stands (site : Site) (k : Kernel) (F : Forest) : Prop where
  control : F.ControlFree site.buffer
  old : site.alloc.index < k.ops.size
  alloc : ∀ i, (site.alloc, i) ∈ F.nodes → ∃ a, i = .alloc a

/-- The barrier of a set is there exactly when it is needed, and then it leads the loop. -/
def SlotSet.Guarded (set : SlotSet) (policy : Policy) (k : Kernel) (F : Forest) : Prop :=
  set.guard.isSome = policy.needsGuard k set.ty set.loop set.slots.length ∧
    ∀ g, set.guard = some g → F.Leads set.loop g.op

namespace Kernel

variable {k k' k₀ : Kernel} {F F₀ : Forest} {sites : List Site} {sets : List SlotSet} {site : Site}
  {set other : SlotSet} {policy : Policy}

structure Carries (k : Kernel) (F : Forest) (sites : List Site) (sets : List SlotSet) : Prop where
  stores : Stores k F
  visible : F.Scoped
  in_place : ∀ set ∈ sets, set.Stands k F
  apart : sets.Pairwise fun s t => ∀ x ∈ s.members, x ∉ t.members
  ahead : ∀ site ∈ sites, site.Stands k F
  strange : ∀ site ∈ sites, ∀ set ∈ sets, site.alloc ∉ set.members

theorem Arranges.child_unique (h : Arranges k F) {a b x : OpId} (ha : F.Child a x) (hb : F.Child b x) : a = b := by
  obtain ⟨l, B, hB, hx⟩ := ha
  obtain ⟨m, C, hC, hx'⟩ := hb
  have hbody : l.body = m.body := h.region_unique (Or.inr ⟨b, m, hC, rfl⟩) hx' (Or.inr ⟨a, l, hB, rfl⟩) hx
  exact h.eq_of_body hB.mem_nodes hC.mem_nodes hbody

section Installs

variable {E : Exchange F} {P : Footprint} {l : Loop} {guard rot : List Node}
  (h : Installs k k' E P set l guard rot) (hS : Stores k F)
include h hS

theorem Installs.stands_new (hcontrol : F.ControlFree P.value)
    (hguard : ∀ g, set.guard = some g →
      E.result.Leads set.loop g.op ∨ (g.op.index < k.ops.size ∧ ∀ i, (g.op, i) ∈ F.nodes → i = .barrier)) :
    set.Stands k' E.result where
  fits := h.fits hS
  typed := h.typed
  control := h.controlFree_selected hS hcontrol
  guarded g hg := by
    rcases hguard g hg with hlead | ⟨hlt, hb⟩
    · have hnode := hlead.mem_nodes
      exact ⟨h.stores.index_lt (Forest.mem_ids_of_mem_nodes hnode),
        fun i hi => Forest.node_unique h.stores.nodup hi hnode⟩
    · exact ⟨Nat.lt_of_lt_of_le hlt h.ops, fun i hi => h.barrier_persists hS hi hlt hb⟩

theorem Installs.stands_other (ho : other.Stands k F) (hcontrol : F.ControlFree P.value)
    (hdis : ∀ x ∈ other.members, x ∉ P.ids) : other.Stands k' E.result where
  fits := h.fits_other hS ho.fits hcontrol ho.control hdis
  typed := h.types _ _ ho.typed
  control := h.controlFree hS hcontrol ho.control
  guarded g hg := by
    obtain ⟨hlt, hb⟩ := ho.guarded g hg
    exact ⟨Nat.lt_of_lt_of_le hlt h.ops, fun i hi => h.barrier_persists hS hi hlt hb⟩

theorem Installs.stands_site (hsite : site.Stands k F) (hcontrol : F.ControlFree P.value)
    (hx : site.alloc ∉ set.members) : site.Stands k' E.result where
  control := h.controlFree hS hcontrol hsite.control
  old := Nat.lt_of_lt_of_le hsite.old h.ops
  alloc i hi := by
    obtain ⟨j, hj, ⟨-, hmem⟩ | ⟨-, rfl⟩⟩ := h.origin hS hi hsite.old
    · exact absurd hmem hx
    · obtain ⟨a, rfl⟩ := hsite.alloc j hj
      exact ⟨a, rfl⟩

theorem Installs.guarded_other (ho : other.Guarded policy k F) : other.Guarded policy k' E.result := by
  refine ⟨?_, fun g hg => h.leads hS (ho.2 g hg)⟩
  rw [h.needs]
  exact ho.1

end Installs

theorem Carries.footprint_apart (h : Carries k F sites sets) (hsite : site ∈ sites) {e : Expansion} {a : Alloc}
    (he : e.Sound site F) (ha : (site.alloc, .alloc a) ∈ F.nodes) (hres : a.result = site.buffer)
    (hset : set ∈ sets) : ∀ x ∈ set.members, x ∉ (e.footprint site a).ids := by
  have hstrange := h.strange site hsite set hset
  have hfits := (h.in_place set hset).fits
  intro x hx hid
  obtain ⟨n, hn, rfl⟩ := List.mem_map.mp hid
  rcases Expansion.mem_footprint.mp hn with rfl | ⟨use, huse, rfl⟩
  · exact hstrange hx
  · -- a release in the set would make the buffer one of its values, or a bound of its loop
    have hread : site.buffer ∈ (Instr.dealloc site.buffer).operands := List.mem_singleton_self _
    rcases hfits.operand_cases h.stores.nodup (he.releases use huse) hx hread with ⟨m, hm, hmx, hmres⟩ |
      ⟨l, hl, hbound⟩
    · rw [h.stores.result_unique hm ha hmres (congrArg some hres)] at hmx
      exact hstrange hmx
    · obtain ⟨hlower, hstep⟩ := (h.ahead site hsite).control _ _ hl
      rcases hbound with heq | heq | heq
      · have hnode := h.stores.result_unique ha hl (congrArg some hres) (congrArg some heq.symm)
        cases congrArg Prod.snd hnode
      · exact hlower heq.symm
      · exact hstep heq.symm

theorem Carries.expand (h : Carries k F sites sets) (hsite : site ∈ sites) (policy : Policy) (factor : Int64) :
    (∃ err, site.expansion policy k factor = .error err) ∨
      ∃ (e : Expansion) (a : Alloc) (l : Loop) (set : SlotSet) (k' : Kernel) (E : Exchange F)
          (guard rot : List Node),
        Transform.Does (Transform.expand policy site factor) k set k' ∧ site.expansion policy k factor = .ok e ∧
        set.slots.length = e.slots ∧ Installs k k' E (e.footprint site a) set l guard rot ∧
        (∀ n ∈ guard, set.guard = some ⟨n.1, true⟩) ∧ Carries k' E.result sites (sets ++ [set]) ∧
        ((∀ s ∈ sets, s.Guarded policy k F) → ∀ s ∈ sets ++ [set], s.Guarded policy k' E.result) := by
  refine (h.stores.expand (h.visible.reaches _) (h.stores.knows h.visible) policy factor).imp id ?_
  rintro ⟨e, a, l, set, k', E, guard, rot, hdoes, he, ha, hres, hcount, hinstalls, hnew, hneeds, hleads, hinserted⟩
  have hS := h.stores
  have hsound := hS.expansion_sound (h.visible.reaches _) he
  have hcontrol : F.ControlFree (e.footprint site a).value := (h.ahead site hsite).control
  have hdis : ∀ s ∈ sets, ∀ x ∈ s.members, x ∉ (e.footprint site a).ids := fun s hs =>
    h.footprint_apart hsite hsound ha hres hs
  have hstrange : ∀ other ∈ sites, other.alloc ∉ set.members := by
    intro other ho hmem
    rcases hinstalls.members _ hmem with hid | hlt
    · obtain ⟨n, hn, heq⟩ := List.mem_map.mp hid
      rcases Expansion.mem_footprint.mp hn with rfl | ⟨use, huse, rfl⟩
      · rw [← heq] at hmem
        exact hnew hmem
      · have hrelease := hsound.releases use huse
        change use.user = other.alloc at heq
        rw [heq] at hrelease
        obtain ⟨b, hb⟩ := (h.ahead other ho).alloc _ hrelease
        cases hb
    · exact Nat.not_lt.mpr hlt (h.ahead other ho).old
  have hcases : ∀ {s}, s ∈ sets ++ [set] → s ∈ sets ∨ s = set := fun hs =>
    (List.mem_append.mp hs).imp id List.mem_singleton.mp
  refine ⟨e, a, l, set, k', E, guard, rot, hdoes, he, hcount, hinstalls,
    fun n hn => Guard.eq_of_mem_nodes (hinserted ▸ hn),
    ⟨hinstalls.stores, hinstalls.scoped_result hS h.visible, ?_, ?_, ?_, ?_⟩, ?_⟩
  · intro s hs
    rcases hcases hs with hs | rfl
    · exact hinstalls.stands_other hS (h.in_place s hs) hcontrol (hdis s hs)
    · exact hinstalls.stands_new hS hcontrol fun g hg => Or.inl (hleads g hg)
  · refine List.pairwise_append.mpr ⟨h.apart, List.pairwise_singleton .., fun s hs t ht => ?_⟩
    rw [List.mem_singleton.mp ht]
    exact hinstalls.members_other hS (h.in_place s hs).fits (hdis s hs)
  · exact fun other ho => hinstalls.stands_site hS (h.ahead other ho) hcontrol (hstrange other ho)
  · intro other ho s hs
    rcases hcases hs with hs | rfl
    · exact h.strange other ho s hs
    · exact hstrange other ho
  · intro hguarded s hs
    rcases hcases hs with hs | rfl
    · exact hinstalls.guarded_other hS (hguarded s hs)
    · refine ⟨?_, hleads⟩
      rw [hinstalls.needs]
      exact hneeds

section Clears

variable {n : Nat} (h : Clears policy set n k k₀ F F₀) (hS : Stores k F)
include h hS

theorem Clears.stands_set (ho : other.Stands k F) : other.Stands k₀ F₀ where
  fits := h.fits hS ho.fits
  typed := h.extends_of.types _ _ ho.typed
  control := h.controlFree hS ho.control
  guarded g hg := by
    obtain ⟨hlt, hb⟩ := ho.guarded g hg
    exact ⟨h.size_eq.symm ▸ hlt, fun i hi => hb i (h.mem_of_mem hS hi)⟩

theorem Clears.stands_site (hsite : site.Stands k F) : site.Stands k₀ F₀ where
  control := h.controlFree hS hsite.control
  old := h.size_eq.symm ▸ hsite.old
  alloc i hi := hsite.alloc i (h.mem_of_mem hS hi)

end Clears

/-- A set that needs its guard is seen by the sets that share the loop. -/
theorem Stores.otherNeedsGuard_of (hS : Stores k F) (ho : other.Stands k F) {selector : OpId}
    (hne : other.selector ≠ selector) (hneeds : policy.needsGuard k other.ty other.loop other.slots.length = true) :
    k.otherNeedsGuard policy other.loop selector = true := by
  obtain ⟨l, B, hB, hmem⟩ := ho.fits.inside other.selector List.mem_cons_self
  have hloop : k.loop? other.loop = some l := hS.loop?_eq_some_iff.mpr hB.mem_nodes
  have hselection : k.selection? other.selector = some (other.ty, other.slots.length) := by
    have hinstr : k.instr? other.selector =
        some (.selectSlot other.selected other.slotValues other.rotation.value) :=
      hS.instr?_of_mem ho.fits.selects
    simp [selection?, hinstr, ho.typed, ValueType.buffer?, SlotSet.slotValues]
  unfold otherNeedsGuard
  rw [hloop, List.any_eq_true]
  refine ⟨_, List.mem_filterMap.mpr ⟨other.selector, List.mem_filter.mpr ⟨?_, by simpa using hne⟩, hselection⟩,
    hneeds⟩
  rw [(hS.placed.holds hB).1]
  exact hmem

theorem Clears.guarded_other {n : Nat} (h : Clears policy set n k k₀ F F₀) (hS : Stores k F) (ho : other.Stands k F)
    (hne : other.selector ≠ set.selector) (hset : set.Guarded policy k F) (hother : other.Guarded policy k F) :
    other.Guarded policy k₀ F₀ := by
  refine ⟨?_, fun g hg => ?_⟩
  · rw [h.needsGuard_eq hS]
    exact hother.1
  · rcases h with ⟨-, rfl⟩ | ⟨g', hg', -, hunneeded, -, rfl, -, -⟩
    · exact hother.2 g hg
    · refine (hother.2 g hg).dropping fun heq => ?_
      have hlead := hset.2 g' hg'
      rw [← heq] at hlead
      have hloop : other.loop = set.loop := hS.child_unique (hother.2 g hg).child hlead.child
      have hneeds : policy.needsGuard k other.ty other.loop other.slots.length = true := by
        rw [← hother.1, hg]
        rfl
      rw [← hloop, hS.otherNeedsGuard_of ho hne hneeds] at hunneeded
      cases hunneeded

theorem Carries.resize {before after : List SlotSet} (h : Carries k F sites (before ++ set :: after))
    (policy : Policy) (factor : Int64) :
    (Transform.Refuses (Transform.resize policy set factor) k ∧
        ((∃ err, slotsAsked factor = .error err) ∨ ∃ g, set.guard = some g ∧ g.op ∉ F.ids)) ∨
      ∃ (target : Nat) (set' : SlotSet) (k₀ k' : Kernel) (F₀ : Forest) (l : Loop) (ns : List Node) (E : Exchange F₀)
        (guard rot : List Node),
        Transform.Does (Transform.resize policy set factor) k set' k' ∧ slotsAsked factor = .ok target ∧
        set'.slots.length = target ∧ set'.ty = set.ty ∧ set'.loop = set.loop ∧ Clears policy set target k k₀ F F₀ ∧
        Installs k₀ k' E (set.footprint ns) set' l guard rot ∧ Renews policy set target k F₀ set'.guard guard ∧
        Carries k' E.result sites (before ++ set' :: after) ∧
        ((∀ s ∈ before ++ set :: after, s.Guarded policy k F) →
          ∀ s ∈ before ++ set' :: after, s.Guarded policy k' E.result) := by
  have hS := h.stores
  have hmem : set ∈ before ++ set :: after := List.mem_append_right _ List.mem_cons_self
  have hset := h.in_place set hmem
  refine (hS.resize h.visible hset.fits hset.typed (fun g hg => (hset.guarded g hg).2) policy factor).imp id ?_
  rintro ⟨target, set', k₀, k', F₀, l, ns, E, guard, rot, hdoes, hasked, hclears, hns, hinstalls, hty, hloop,
    hlength, hrenews, hleads⟩
  have hneeds := hrenews.needed
  have hS₀ := hclears.stores hS
  have hset₀ := hclears.stands_set hS hset
  have hcontrol : F₀.ControlFree (set.footprint ns).value := hset₀.control
  have hids : ∀ x, x ∈ (set.footprint ns).ids ↔ x ∈ set.members := fun x => hset₀.fits.mem_ids_footprint hns
  have hothers : ∀ s ∈ before ++ after, s ∈ before ++ set :: after := by
    intro s hs
    exact (List.sublist_cons_self set after).append_left before |>.mem hs
  obtain ⟨hfirst, hrest⟩ := List.pairwise_cons.mp
    (h.apart.perm List.perm_middle fun hst x hx hxt => hst x hxt hx)
  have hdis : ∀ s ∈ before ++ after, ∀ x ∈ s.members, x ∉ set.members :=
    fun s hs x hx hxset => hfirst s hs x hxset hx
  have hcases : ∀ {s}, s ∈ before ++ set' :: after → s = set' ∨ s ∈ before ++ after := by
    intro s hs
    simpa [or_left_comm] using hs
  have hdis₀ : ∀ s ∈ before ++ after, ∀ x ∈ s.members, x ∉ (set.footprint ns).ids := fun s hs x hx hid =>
    hdis s hs x hx ((hids x).mp hid)
  have hstands : ∀ s ∈ before ++ after, s.Stands k₀ F₀ := fun s hs =>
    hclears.stands_set hS (h.in_place s (hothers s hs))
  have hstrange : ∀ site ∈ sites, site.alloc ∉ set'.members := by
    intro site hsite hx
    rcases hinstalls.members _ hx with hid | hlt
    · exact h.strange site hsite set hmem ((hids _).mp hid)
    · exact Nat.not_lt.mpr hlt (hclears.stands_site hS (h.ahead site hsite)).old
  refine ⟨target, set', k₀, k', F₀, l, ns, E, guard, rot, hdoes, hasked, hlength, hty, hloop, hclears, hinstalls,
    hrenews, ⟨hinstalls.stores, ?_, ?_, ?_, ?_, ?_⟩, ?_⟩
  · exact hinstalls.scoped_result hS₀ (hclears.scoped_of_scoped hS h.visible)
  · intro s hs
    rcases hcases hs with rfl | hs
    · refine hinstalls.stands_new hS₀ hcontrol fun g hg => ?_
      exact (hleads g hg).symm.imp id fun hold => hset₀.guarded g hold
    · exact hinstalls.stands_other hS₀ (hstands s hs) hcontrol (hdis₀ s hs)
  · refine List.Pairwise.perm (List.pairwise_cons.mpr ⟨fun s hs x hx hxs => ?_, hrest⟩) List.perm_middle.symm
      (fun hst x hx hxt => hst x hxt hx)
    exact hinstalls.members_other hS₀ (hstands s hs).fits (hdis₀ s hs) x hxs hx
  · intro site hsite
    exact hinstalls.stands_site hS₀ (hclears.stands_site hS (h.ahead site hsite)) hcontrol (hstrange site hsite)
  · intro site hsite s hs
    rcases hcases hs with rfl | hs
    · exact hstrange site hsite
    · exact h.strange site hsite s (hothers s hs)
  · intro hguarded s hs
    have hset_guarded := hguarded set hmem
    rcases hcases hs with rfl | hs
    · have hneeds' : s.guard.isSome = policy.needsGuard k' s.ty s.loop s.slots.length := by
        rw [hinstalls.needs, hclears.needsGuard_eq hS, hty, hloop, hlength]
        exact hneeds
      refine ⟨hneeds', fun g hg => ?_⟩
      rcases hleads g hg with hold | hlead
      · -- a guard that is kept was not taken away
        rcases hclears with ⟨-, rfl⟩ | ⟨-, -, -, -, hunneeded, -⟩
        · rw [hloop]
          exact hinstalls.leads hS₀ (hset_guarded.2 g hold)
        · rw [hunneeded, hg] at hneeds
          cases hneeds
      · exact hlead
    · refine hinstalls.guarded_other hS₀ (hclears.guarded_other hS (h.in_place s (hothers s hs)) ?_ hset_guarded
        (hguarded s (hothers s hs)))
      intro heq
      have hselector : s.selector ∈ s.members := SlotSet.mem_members.mpr (Or.inr (Or.inl rfl))
      exact hdis s hs _ hselector (heq ▸ SlotSet.mem_members.mpr (Or.inr (Or.inl rfl)))

end Kernel
end SlotRotation
