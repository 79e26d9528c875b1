import SlotRotation.Proofs.Growth
import SlotRotation.Proofs.Outcomes

/-! Sites and sets in a kernel under expansions and resizings, whatever the bounds of its loops read. -/

namespace SlotRotation

variable {M N m : Nat} {k k' : Kernel} {F : Forest} {set set' : SlotSet} {s s' : Transform.State}

/-- The ops and values of the set were added. If its selector is live it defines the selected value, and if its
guard is live it is a barrier. -/
structure SlotSet.Tracked (set : SlotSet) (M N : Nat) (k : Kernel) : Prop where
  members : ∀ x ∈ set.members, k.AddedOp M x
  slots : ∀ slot ∈ set.slots, k.AddedValue N slot.value
  distinct : set.slotValues.Nodup
  selects : ∀ i, k.instr? set.selector = some i → i.result? = some set.selected
  users : ∀ binding ∈ set.bindings, binding.use.user.index < k.ops.size
  guard : ∀ g, set.guard = some g → k.WasBarrier g.op

namespace SlotSet.Tracked

theorem retains (h : set.Tracked M N k) (hk : k.Retains k') : set.Tracked M N k' where
  members x hx := (h.members x hx).extends hk.toExtends
  slots slot hslot := (h.slots slot hslot).extends hk.toExtends
  distinct := h.distinct
  selects i' hi' := by
    obtain ⟨i, f, hi, rfl⟩ := hk.sorts _ i' (h.members _ SlotSet.selector_mem_members).2 hi'
    rw [Instr.result?_mapOperands]
    exact h.selects i hi
  users binding hbinding := Nat.lt_of_lt_of_le (h.users binding hbinding) hk.ops
  guard g hg := hk.wasBarrier (h.guard g hg)

end SlotSet.Tracked

/-- The parts of a set that are made with its slots: `n` slots, a selector with an id from `m` on, and releases. -/
structure SlotSet.Rebuilt (set : SlotSet) (M N m n : Nat) (index : ValueId) (k : Kernel) : Prop where
  count : set.slots.length = n
  slots : ∀ slot ∈ set.slots, k.AddedOp M slot.alloc ∧ k.AddedValue N slot.value
  distinct : set.slotValues.Nodup
  selector : m ≤ set.selector.index ∧ set.selector.index < k.ops.size
  selects : k.instr? set.selector = some (.selectSlot set.selected set.slotValues index)
  releases : ∀ x ∈ set.releases.flatten, k.AddedOp M x

namespace SlotSet.Rebuilt

variable {n : Nat} {index : ValueId}

theorem mono (h : set.Rebuilt M N m n index k) (hk : k.Extends k')
    (hselects : k'.instr? set.selector = k.instr? set.selector) : set.Rebuilt M N m n index k' where
  count := h.count
  slots slot hslot := ⟨(h.slots slot hslot).1.extends hk, (h.slots slot hslot).2.extends hk⟩
  distinct := h.distinct
  selector := ⟨h.selector.1, Nat.lt_of_lt_of_le h.selector.2 hk.ops⟩
  selects := hselects.trans h.selects
  releases x hx := (h.releases x hx).extends hk

theorem tracked (h : set.Rebuilt M N m n index k) (hm : M ≤ m) (hrotation : ∀ x ∈ set.rotation.ops, k.AddedOp M x)
    (husers : ∀ binding ∈ set.bindings, binding.use.user.index < k.ops.size)
    (hguard : ∀ g, set.guard = some g → k.WasBarrier g.op) : set.Tracked M N k := by
  refine ⟨fun x hx => ?_, fun slot hslot => (h.slots slot hslot).2, h.distinct, fun i hi => ?_, husers, hguard⟩
  · rcases SlotSet.mem_members.mp hx with hx | rfl | hx | ⟨ops, hmem, hx⟩
    · obtain ⟨slot, hslot, rfl⟩ := List.mem_map.mp hx
      exact (h.slots slot hslot).1
    · exact ⟨Nat.le_trans hm h.selector.1, h.selector.2⟩
    · exact hrotation x hx
    · exact h.releases x (List.mem_flatten.mpr ⟨ops, hmem, hx⟩)
  · rw [h.selects] at hi
    cases hi
    rfl

end SlotSet.Rebuilt

namespace Kernel.Grown

theorem discard (h : Grown M N s.kernel F) {slots : List Slot}
    (hslots : ∀ slot ∈ slots, M ≤ slot.alloc.index ∧ slot.alloc.index < m) {u : Unit}
    (hrun : Transform.discard slots s = .ok u s') : Evolves M N m s.kernel s'.kernel := by
  induction slots generalizing s F with
  | nil =>
    cases hrun
    exact .refl h
  | cons slot slots ih =>
    obtain ⟨_, s₁, herase, hrun⟩ := bind_eq_ok hrun
    obtain ⟨_, s₂, hrecord, hrun⟩ := bind_eq_ok hrun
    cases hrecord
    obtain ⟨hM, hlt⟩ := hslots slot List.mem_cons_self
    have hev := h.erase (h.loose hM) hlt (Transform.edit_eq_ok herase).1
    obtain ⟨F₁, hF₁⟩ := hev.grown
    exact hev.trans (ih (s := s₁.record _ _ _) hF₁ (fun y hy => hslots y (List.mem_cons_of_mem _ hy)) hrun)

theorem rebind (h : Grown M N s.kernel F) {v : ValueId} (hv : s.kernel.AddedValue N v) {uses : List Use}
    (huses : ∀ use ∈ uses, use.user.index < m) {u : Unit} (hrun : Transform.rebind v uses s = .ok u s') :
    Evolves M N m s.kernel s'.kernel := by
  induction uses generalizing s F with
  | nil =>
    cases hrun
    exact .refl h
  | cons use uses ih =>
    obtain ⟨_, s₁, hset, hrun⟩ := bind_eq_ok hrun
    obtain ⟨_, s₂, hrecord, hrun⟩ := bind_eq_ok hrun
    cases hrecord
    have hev := h.setOperand hv (huses use List.mem_cons_self) (Transform.edit_eq_ok hset).1
    obtain ⟨F₁, hF₁⟩ := hev.grown
    exact hev.trans (ih (s := s₁.record _ _ _) hF₁ (hv.extends hev.toExtends)
      (fun y hy => huses y (List.mem_cons_of_mem _ hy)) hrun)

theorem rebindFrom (h : Grown M N s.kernel F) {old v : ValueId} (hv : s.kernel.AddedValue N v)
    {bindings : List Binding} (husers : ∀ binding ∈ bindings, binding.use.user.index < m) {u : Unit}
    (hrun : Transform.rebindFrom old v bindings s = .ok u s') : Evolves M N m s.kernel s'.kernel := by
  induction bindings generalizing s F with
  | nil =>
    cases hrun
    exact .refl h
  | cons binding bindings ih =>
    obtain ⟨found, s₁, hset, hrun⟩ := bind_eq_ok hrun
    have hev := h.setOperand hv (husers binding List.mem_cons_self) (Transform.edit_eq_ok hset).1
    obtain ⟨F₁, hF₁⟩ := hev.grown
    split at hrun
    · obtain ⟨_, s₂, hrecord, hrun⟩ := bind_eq_ok hrun
      cases hrecord
      exact hev.trans (ih (s := s₁.record _ _ _) hF₁ (hv.extends hev.toExtends)
        (fun y hy => husers y (List.mem_cons_of_mem _ hy)) hrun)
    · cases hrun

theorem wasBarrier_of_headed (h : Grown M N k F) {a g : OpId} {l : Loop} {p : InsertPoint} {ns : List Node}
    (hev : Evolves M N m k k') (hheaded : F.Headed a l p ns g)
    (hns : ∀ i ∈ ns, i.1.index < k'.ops.size ∧ k'.instr? i.1 = some i.2) : k'.WasBarrier g := by
  rcases hheaded with hlead | ⟨-, rest, rfl⟩
  · exact hev.wasBarrier (h.wasBarrier hlead.mem_nodes)
  · obtain ⟨hlt, hinstr⟩ := hns _ List.mem_cons_self
    exact ⟨hlt, fun i hi => Option.some.inj (hi.symm.trans hinstr)⟩

theorem enter (h : Grown M N s.kernel F) {a : OpId} {l : Loop} (hl : s.kernel.loop? a = some l) {slots : List Slot}
    (hslots : ∀ slot ∈ slots, s.kernel.AddedValue N slot.value) {policy : Policy} {ty : BufferType} {n : Nat}
    {guard : Option Guard} {top : InsertPoint} {rotation : Rotation} {op : OpId} {v : ValueId}
    {s₂ s₃ : Transform.State} (hguard : Transform.guardFor policy ty a n s = .ok guard s₂)
    (htop : s₂.kernel.bodyTop a = .ok top) (hrotation : Transform.deriveRotation a n top s₂ = .ok rotation s₃)
    (hselect : Edit.selectAmong ty slots rotation.value (top.past rotation.ops) s₃.kernel = .ok (op, v) k') :
    Evolves M N m s.kernel k' ∧ (∀ g, guard = some g → k'.WasBarrier g.op) ∧
      (∀ x ∈ rotation.ops, k'.AddedOp M x) ∧ (s.kernel.ops.size ≤ op.index ∧ op.index < k'.ops.size) ∧
      k'.AddedValue N v ∧ k'.instr? op = some (.selectSlot v (slots.map Slot.value) rotation.value) := by
  have hl' := h.loop?_eq_some_iff.mp hl
  obtain ⟨guard, k₂, p, gns, hdoes, hprepares, -, hheaded, -⟩ := h.toStores.guardFor hl' policy ty n
  obtain ⟨rfl, hs₂⟩ := hdoes.unique rfl hguard
  obtain ⟨hev₃, hvalue, hrot, hgns, ⟨last, hlast, hpoint⟩, -⟩ :=
    h.deriveRotation (m := m) hl' hprepares hs₂ htop hrotation
  obtain ⟨F₃, hF₃⟩ := hev₃.grown
  rw [hpoint] at hselect
  obtain ⟨hev₄, hselector, hselected, hselects⟩ := hF₃.selectAmong (m := m) (hF₃.loose (hrot last hlast).2.1).leaf
    (fun slot hmem => (hslots slot hmem).extends hev₃.toExtends) hvalue hselect
  exact ⟨hev₃.trans hev₄, fun g hg => hev₄.wasBarrier (h.wasBarrier_of_headed hev₃ (hheaded g hg) hgns),
    fun x hx => (hrot x hx).2.extends hev₄.toExtends, ⟨Nat.le_trans hev₃.ops hselector.1, hselector.2⟩, hselected,
    hselects⟩

theorem eraseAlloc (h : Grown M N k F) {site : Site} {a : Alloc} (ha : k.alloc? site.alloc = some a)
    (hres : a.result = site.buffer) {u : Unit} (hrun : Edit.erase site.alloc k = .ok u k')
    (hleft : Transform.checkLeftover site.buffer k' = .ok ()) :
    (∃ F', Grown M N k' F') ∧ Retains k k' ∧ ∀ x i, x ≠ site.alloc → k.instr? x = some i → k'.instr? x = some i := by
  have hn := h.alloc?_eq_some_iff.mp ha
  obtain ⟨_, hrun', hk, -⟩ := h.toStores.becomes_dropping (List.nodup_singleton site.alloc) (by
    intro id hid
    rw [List.mem_singleton.mp hid]
    exact ⟨_, hn, rfl⟩)
  rw [Edit.eraseAll_singleton, hrun] at hrun'
  cases hrun'
  have hkept : ∀ n ∈ F.nodes, n.1 ≠ site.alloc → n ∈ (F.rewrite (.dropping [site.alloc])).nodes := by
    intro n hn' hne
    refine Forest.mem_rewrite_of_mem_image h.plain hn' ?_
    rw [(Rewriting.local_dropping _).image_of_notMem (by simpa using hne)]
    exact List.mem_singleton_self _
  have hunread : ∀ n ∈ F.nodes, site.buffer ∉ n.2.operands := by
    intro n hn' hmem
    obtain ⟨j, hj⟩ := List.mem_iff_getElem?.mp hmem
    have hne : n.1 ≠ site.alloc := by
      intro heq
      have hnode : n = (site.alloc, .alloc a) := List.inj_on_of_nodup_map h.nodup hn' hn heq
      rw [hnode] at hmem
      cases hmem
    have huse : (⟨n.1, j⟩ : Use) ∈ (F.rewrite (.dropping [site.alloc])).uses site.buffer :=
      Forest.mem_uses.mpr ⟨n.2, hkept n hn' hne, hj⟩
    rw [← hk.stores.usesOf_eq] at huse
    rw [Transform.checkLeftover] at hleft
    split at hleft
    · rename_i hnil
      rw [hnil] at huse
      cases huse
    · cases hleft
  have hsteady := h.steady.dropping h.plain h.nodup hk.values hn fun v hv _ n hn' => by
    have hv' : a.result = v := Option.some.inj hv
    rw [← hv', hres]
    exact hunread n hn'
  refine ⟨⟨_, hk.stores, Nat.le_trans h.ops_le hk.ops, Nat.le_trans h.values_le hk.values, hsteady⟩,
    { hk.toExtends with sorts := ?_ }, ?_⟩
  · intro x i' _ hi'
    have hmem := Forest.mem_of_mem_dropping h.plain (hk.stores.mem_nodes_iff.mpr hi')
    exact ⟨i', fun _ v => v, h.mem_nodes_iff.mp hmem, i'.mapOperands_id.symm⟩
  · intro x i hx hi
    exact hk.stores.instr?_of_mem (hkept _ (h.mem_nodes_iff.mpr hi) hx)

theorem expand (h : Grown M N s.kernel F) {policy : Policy} {site : Site} {factor : Int64}
    (hM : site.alloc.index < M) (hN : site.buffer.index < N)
    (hrun : Transform.expand policy site factor s = .ok set s') :
    (∃ F', Grown M N s'.kernel F') ∧ Retains s.kernel s'.kernel ∧ set.Tracked M N s'.kernel ∧
      ∀ x a, x.index < M → x ≠ site.alloc → s.kernel.alloc? x = some a → s'.kernel.alloc? x = some a := by
  obtain ⟨e, top, s₁, s₂, s₃, s₄, s₅, s₆, he, hslots, hguard, htop, hrotation, hselect, hrebind, hreleases, herase,
    hleft, -, hloop, hbindings⟩ := Transform.expand_stages hrun
  have hsound := h.expansion_sound (h.steady.reaches _ hN) he
  obtain ⟨a, ha, hres⟩ := hsound.alloc
  obtain ⟨l, hl⟩ := hsound.loop
  have hlt : site.alloc.index < s.kernel.ops.size := Nat.lt_of_lt_of_le hM h.ops_le
  -- the slots
  obtain ⟨hev₁, hcount, hdistinct, hslot, -⟩ := h.allocateSlots (m := s.kernel.ops.size)
    (fun i hi => by rw [Forest.node_unique h.nodup (h.mem_nodes_iff.mpr hi) ha]; rfl) (Transform.edit_eq_ok hslots).1
  obtain ⟨F₁, hF₁⟩ := hev₁.grown
  -- the entry
  obtain ⟨l₁, hl₁⟩ := hev₁.loop? (h.loop?_eq_some_iff.mpr hl)
  obtain ⟨hev₄, hbarrier, hrot, hselector, hselected, hselects⟩ := hF₁.enter (s := s₁.record _ _ _)
    (m := s.kernel.ops.size) hl₁ (fun slot hmem => (hslot slot hmem).2) hguard htop hrotation
    (Transform.edit_eq_ok hselect).1
  obtain ⟨F₄, hF₄⟩ := hev₄.grown
  -- the accesses and the releases
  have husers : ∀ use ∈ e.accesses, use.user.index < s.kernel.ops.size := by
    intro use huse
    obtain ⟨i, hi, -⟩ := Forest.mem_uses.mp ((hsound.uses use).mpr (Or.inl huse))
    exact h.index_lt (Forest.mem_ids_of_mem_nodes hi)
  have hev₅ := hF₄.rebind hselected husers hrebind
  obtain ⟨F₅, hF₅⟩ := hev₅.grown
  have hevs₅ := (hev₁.trans hev₄).trans hev₅
  have hdeallocs : ∀ use ∈ e.releases, s₅.kernel.Loose M N use.user ∧ use.user.index < s₅.kernel.ops.size ∧
      use.user.index < s.kernel.ops.size := by
    intro use huse
    have hnode := hsound.releases use huse
    have hlt : use.user.index < s.kernel.ops.size := h.index_lt (Forest.mem_ids_of_mem_nodes hnode)
    refine ⟨hevs₅.loose hlt ?_, Nat.lt_of_lt_of_le hlt hevs₅.ops, hlt⟩
    exact loose_of_region?_eq_none (fun j hj => Forest.node_unique h.nodup (h.mem_nodes_iff.mpr hj) hnode) rfl rfl
  obtain ⟨hev₆, hreleased⟩ := hF₅.splitReleases
    (fun slot hmem => (hslot slot hmem).2.extends (hev₄.trans hev₅).toExtends) hdeallocs
    (Transform.edit_eq_ok hreleases).1
  obtain ⟨F₆, hF₆⟩ := hev₆.grown
  have hevs₆ := hevs₅.trans hev₆
  have hev₄₆ := hev₅.trans hev₆
  have hle : s.kernel.ops.size ≤ set.selector.index := Nat.le_trans hev₁.ops hselector.1
  have hrebuilt : set.Rebuilt M N s.kernel.ops.size e.slots set.rotation.value s₆.kernel := by
    refine ⟨hcount, fun slot hmem => ?_, hdistinct, ⟨hle, Nat.lt_of_lt_of_le hselector.2 hev₄₆.ops⟩,
      hev₄₆.recent _ _ hle hselects, hreleased⟩
    have hextends := (hev₄.trans hev₄₆).toExtends
    exact ⟨(hslot slot hmem).1.extends hextends, (hslot slot hmem).2.extends hextends⟩
  -- the allocation
  obtain ⟨hgrown, hretains, hspared⟩ := hF₆.eraseAlloc (hevs₆.alloc? hM (h.alloc?_eq_some_iff.mpr ha)) hres
    (Transform.edit_eq_ok herase).1 hleft
  have hne : set.selector ≠ site.alloc := by
    intro heq
    rw [heq] at hle
    exact Nat.not_lt.mpr hle hlt
  have hlater := hevs₆.toRetains.trans hretains
  refine ⟨hgrown, hlater, ?_, fun x b hx hne hb => ?_⟩
  · refine (hrebuilt.mono hretains.toExtends ?_).tracked h.ops_le (fun x hx => ?_) (fun binding hbinding => ?_)
      fun g hg => ?_
    · rw [hrebuilt.selects]
      exact hspared _ _ hne hrebuilt.selects
    · exact (hrot x hx).extends (hev₄₆.toRetains.trans hretains).toExtends
    · rw [hbindings] at hbinding
      obtain ⟨use, huse, rfl⟩ := List.mem_map.mp hbinding
      exact Nat.lt_of_lt_of_le (husers use huse) hlater.ops
    · exact (hev₄₆.toRetains.trans hretains).wasBarrier (hbarrier g hg)
  · obtain ⟨i, hi, hb'⟩ := Option.bind_eq_some_iff.mp (hevs₆.alloc? hx hb)
    rw [alloc?, hspared x i hne hi]
    exact hb'

end Kernel.Grown

theorem SlotSet.mem_of_lastSlot {set : SlotSet} {last : Slot} (h : set.lastSlot = .ok last) : last ∈ set.slots := by
  unfold lastSlot at h
  split at h
  · rename_i slot hslot
    cases h
    exact List.mem_of_getLast? hslot
  · cases h

theorem SlotSet.exists_loop_of_checkIntact {set : SlotSet} {k : Kernel} (h : set.checkIntact k = .ok ()) :
    ∃ l, k.loop? set.loop = some l := by
  obtain ⟨_, hcheck, -⟩ := except_bind_eq_ok h
  unfold checkLoop at hcheck
  split at hcheck
  · rename_i hsome
    exact Option.isSome_iff_exists.mp hsome
  · cases hcheck

namespace Kernel.Grown

variable {n : Nat} {last : Slot} {index : ValueId} {x : OpId}

theorem reallocate (h : Grown M N s.kernel F) (hset : set.Tracked M N s.kernel) (hm : m ≤ s.kernel.ops.size)
    (hmembers : ∀ x ∈ set.members, x.index < m) (husers : ∀ binding ∈ set.bindings, binding.use.user.index < m)
    (hlast : last ∈ set.slots) (hindex : s.kernel.AddedValue N index) (hx : s.kernel.AddedOp M x)
    (hrun : Transform.reallocate set n last index (.after x) s = .ok set' s') :
    Evolves M N m s.kernel s'.kernel ∧ set'.Rebuilt M N m n index s'.kernel ∧ set'.loop = set.loop := by
  obtain ⟨s₁, s₂, s₃, s₄, s₅, s₆, hslots, hselect, hrebind, hreleases, herase, hdiscard, hset', rfl⟩ :=
    Transform.reallocate_stages hrun
  have halloc : ∀ slot ∈ set.slots, slot.alloc ∈ set.members := fun slot hslot => SlotSet.alloc_mem_members hslot
  have hselector : set.selector ∈ set.members := SlotSet.selector_mem_members
  obtain ⟨hev₁, hcount, hdistinct, hslot₁, -⟩ := h.allocateSlots (m := m)
    (h.loose (hset.members _ (halloc _ hlast)).1).leaf (Transform.edit_eq_ok hslots).1
  obtain ⟨F₁, hF₁⟩ := hev₁.grown
  obtain ⟨hev₂, hnew, hselected, hselects⟩ := hF₁.selectAmong (m := m) (hF₁.loose hx.1).leaf
    (fun slot hmem => (hslot₁ slot hmem).2) (hindex.extends hev₁.toExtends) (Transform.edit_eq_ok hselect).1
  obtain ⟨F₂, hF₂⟩ := hev₂.grown
  have hev₃ := hF₂.rebindFrom hselected husers hrebind
  obtain ⟨F₃, hF₃⟩ := hev₃.grown
  obtain ⟨hev₄, hreleased⟩ := hF₃.replaceReleases
    (fun slot hmem => ((hslot₁ slot hmem).2.extends hev₂.toExtends).extends hev₃.toExtends)
    (fun y hy => ⟨(hset.members y (SlotSet.release_mem_members hy)).1, hmembers y (SlotSet.release_mem_members hy)⟩)
    (Transform.edit_eq_ok hreleases).1
  obtain ⟨F₄, hF₄⟩ := hev₄.grown
  have hev₅ := hF₄.erase (hF₄.loose (hset.members _ hselector).1) (hmembers _ hselector)
    (Transform.edit_eq_ok herase).1
  obtain ⟨F₅, hF₅⟩ := hev₅.grown
  have hev₆ := hF₅.discard (fun slot hmem =>
    ⟨(hset.members _ (halloc slot hmem)).1, hmembers _ (halloc slot hmem)⟩) hdiscard
  have hev₄₆ := hev₄.trans (hev₅.trans hev₆)
  have hev₂₆ := hev₃.trans hev₄₆
  have hle : m ≤ set'.selector.index := Nat.le_trans hm (Nat.le_trans hev₁.ops hnew.1)
  refine ⟨hev₁.trans (hev₂.trans hev₂₆), ⟨hcount, fun slot hmem => ?_, hdistinct, ⟨hle, ?_⟩, ?_, fun y hy => ?_⟩,
    by rw [hset']⟩
  · have hevs := (hev₂.trans hev₂₆).toExtends
    exact ⟨(hslot₁ slot hmem).1.extends hevs, (hslot₁ slot hmem).2.extends hevs⟩
  · exact Nat.lt_of_lt_of_le hnew.2 hev₂₆.ops
  · exact hev₂₆.recent _ _ hle hselects
  · exact (hreleased y hy).extends (hev₅.trans hev₆).toExtends

theorem regroup (h : Grown M N s.kernel F) (hset : set.Tracked M N s.kernel) (hm : m ≤ s.kernel.ops.size)
    (hmembers : ∀ x ∈ set.members, x.index < m) (hlast : last ∈ set.slots) (hindex : s.kernel.AddedValue N index)
    (hx : s.kernel.AddedOp M x) {strategy : Strategy}
    (hrun : Transform.regroup set strategy n last index (.after x) s = .ok set' s') :
    Evolves M N m s.kernel s'.kernel ∧ set'.Rebuilt M N m n index s'.kernel ∧ set'.loop = set.loop := by
  obtain ⟨kept, added, s₁, s₂, s₃, s₄, hadded, hmoved, hreleases, hdiscard, hkept, hset', rfl⟩ :=
    Transform.regroup_stages hrun
  have halloc : ∀ slot ∈ set.slots, slot.alloc ∈ set.members := fun slot hslot => SlotSet.alloc_mem_members hslot
  have hselector : set.selector ∈ set.members := SlotSet.selector_mem_members
  obtain ⟨hev₁, hcount, hdistinct, hslot, hlate⟩ := h.allocateSlots (m := m)
    (h.loose (hset.members _ (halloc _ hlast)).1).leaf (Transform.edit_eq_ok hadded).1
  obtain ⟨F₁, hF₁⟩ := hev₁.grown
  have hold : ∀ slot ∈ kept, ∃ slot' ∈ set.slots, slot.alloc = slot'.alloc ∧ slot.value = slot'.value := by
    intro slot hslot
    rw [hkept] at hslot
    obtain ⟨slot', hslot', rfl⟩ := List.mem_map.mp hslot
    exact ⟨slot', List.mem_of_mem_take hslot', rfl, rfl⟩
  have hslot₁ : ∀ slot ∈ kept ++ added, s₁.kernel.AddedOp M slot.alloc ∧ s₁.kernel.AddedValue N slot.value := by
    intro slot hmem
    rcases List.mem_append.mp hmem with hmem | hmem
    · obtain ⟨slot', hslot', halloc', hvalue⟩ := hold slot hmem
      rw [halloc', hvalue]
      exact ⟨(hset.members _ (halloc slot' hslot')).extends hev₁.toExtends,
        (hset.slots slot' hslot').extends hev₁.toExtends⟩
    · exact hslot slot hmem
  have hold₁ := hset.retains hev₁.toRetains
  obtain ⟨hev₂, hnew, hselects⟩ := hF₁.moveSelector (hF₁.loose hx.1).leaf (hset.members _ hselector).1
    (hmembers _ hselector) (hold₁.members _ hselector).2 hold₁.selects (fun slot hmem => (hslot₁ slot hmem).2)
    (hindex.extends hev₁.toExtends) (Transform.edit_eq_ok hmoved).1
  obtain ⟨F₂, hF₂⟩ := hev₂.grown
  obtain ⟨hev₃, hreleased⟩ := hF₂.regroupReleases
    (fun slot hmem => (hslot₁ slot (List.mem_append_right _ hmem)).2.extends hev₂.toExtends)
    (fun y hy => ⟨(hold₁.members y (SlotSet.release_mem_members hy)).extends hev₂.toExtends,
      hmembers y (SlotSet.release_mem_members hy)⟩) (Transform.edit_eq_ok hreleases).1
  obtain ⟨F₃, hF₃⟩ := hev₃.grown
  have hev₄ := hF₃.discard (fun slot hmem => by
    have hmem' := halloc slot (List.mem_of_mem_drop hmem)
    exact ⟨(hset.members _ hmem').1, hmembers _ hmem'⟩) hdiscard
  have hev₃₄ := hev₃.trans hev₄
  have hle : m ≤ set'.selector.index := Nat.le_trans hm (Nat.le_trans hev₁.ops hnew.1)
  have hslots : set'.slots = kept ++ added := congrArg SlotSet.slots hset'
  have hselected : set'.selected = set.selected := by rw [hset']
  refine ⟨hev₁.trans (hev₂.trans hev₃₄), ⟨?_, fun slot hmem => ?_, ?_, ⟨hle, ?_⟩, ?_, fun y hy => ?_⟩, by rw [hset']⟩
  · rw [hslots, List.length_append, hcount, hkept, List.length_map, List.length_take, SlotSet.factor]
    omega
  · have hevs := (hev₂.trans hev₃₄).toExtends
    rw [hslots] at hmem
    exact ⟨(hslot₁ slot hmem).1.extends hevs, (hslot₁ slot hmem).2.extends hevs⟩
  · have hvalues : kept.map Slot.value = (set.slots.map Slot.value).take n := by
      rw [hkept, List.map_map, List.map_take]
      rfl
    rw [SlotSet.slotValues, hslots, List.map_append, List.nodup_append, hvalues]
    refine ⟨hset.distinct.sublist (List.take_sublist ..), hdistinct, fun v hv w hw heq => ?_⟩
    obtain ⟨slot, hmem, rfl⟩ := List.mem_map.mp (List.mem_of_mem_take hv)
    obtain ⟨slot', hmem', rfl⟩ := List.mem_map.mp hw
    have hlt := (hset.slots slot hmem).2
    rw [heq] at hlt
    exact absurd hlt (Nat.not_lt.mpr (hlate slot' hmem'))
  · exact Nat.lt_of_lt_of_le hnew.2 hev₃₄.ops
  · rw [SlotSet.slotValues, hslots, hselected]
    exact hev₃₄.recent _ _ hle hselects
  · exact (hreleased y hy).extends hev₄.toExtends

theorem clears (h : Grown M N k F) {policy : Policy} {k₀ : Kernel} {F₀ : Forest}
    (hclears : Clears policy set n k k₀ F F₀) :
    Evolves M N k.ops.size k k₀ ∧ Grown M N k₀ F₀ ∧ ∀ v c, F₀.Constant v c → F.Constant v c := by
  rcases hclears with ⟨rfl, rfl⟩ | ⟨g, -, hg, -, -, rfl, hk, -⟩
  · exact ⟨.refl h, h, fun _ _ hc => hc⟩
  · have hwas := h.wasBarrier hg
    have hev := h.evolves_dropping hg (loose_of_region?_eq_none hwas.2 rfl rfl) hwas.1 hk
    obtain ⟨F', hF'⟩ := hev.grown
    rw [← hF'.forest_eq, hk.stores.forest_eq] at hF'
    refine ⟨hev, hF', ?_⟩
    rintro v c ⟨d, hd⟩
    exact ⟨d, Forest.mem_of_mem_dropping h.plain hd⟩

theorem resize (h : Grown M N s.kernel F) (hset : set.Tracked M N s.kernel) {policy : Policy} {factor : Int64}
    (hrun : Transform.resize policy set factor s = .ok set' s') :
    Evolves M N s.kernel.ops.size s.kernel s'.kernel ∧ set'.Tracked M N s'.kernel ∧
      ∃ l rot, s.kernel.loop? set'.loop = some l ∧ slotsAsked factor = .ok set'.slots.length ∧
        set'.rotation.InPlace F l set'.slots.length s.kernel.values.size rot s'.kernel ∧
        s'.kernel.instr? set'.selector = some (.selectSlot set'.selected set'.slotValues set'.rotation.value) := by
  obtain ⟨n, last, top, resized, s₁, s₂, s₃, hn, hlast, hintact, hguard, htop, hrotation, hresized, herase, hset'⟩ :=
    Transform.resize_stages hrun
  have hlast' := SlotSet.mem_of_lastSlot hlast
  obtain ⟨l, hl⟩ := SlotSet.exists_loop_of_checkIntact hintact
  have hl' := h.loop?_eq_some_iff.mp hl
  -- the top of the body
  rcases h.toStores.renewGuard hl' (fun g hg i hi => (hset.guard g hg).2 i (h.mem_nodes_iff.mp hi)) policy n with
    ⟨hrefuses, -⟩ | ⟨guard, k₀, F₀, k₁, p, gns, hdoes, hclears, hprepares, -, hheaded⟩
  · exact absurd hguard (hrefuses.not_ok rfl)
  obtain ⟨hgeq, hs₁⟩ := hdoes.unique rfl hguard
  obtain ⟨hev₀, hF₀, hconstant⟩ := h.clears hclears
  obtain ⟨hev₂, hvalue, hrot, hgns, ⟨x, hx, hpoint⟩, rot, hplace⟩ :=
    hF₀.deriveRotation (m := s.kernel.ops.size) (hclears.loop_mem h.toStores hl') hprepares hs₁ htop hrotation
  have hevs₂ := hev₀.trans hev₂
  obtain ⟨F₂, hF₂⟩ := hevs₂.grown
  -- the slots, the selector and the releases
  have hset₂ := hset.retains hevs₂.toRetains
  have hmembers : ∀ y ∈ set.members, y.index < s.kernel.ops.size := fun y hy => (hset.members y hy).2
  obtain ⟨hev₃, hrebuilt, hloop⟩ : Evolves M N s.kernel.ops.size s₂.kernel s₃.kernel ∧
      resized.Rebuilt M N s.kernel.ops.size n set'.rotation.value s₃.kernel ∧ resized.loop = set.loop := by
    rw [hpoint] at hresized
    rcases hresized with ⟨-, hreallocate⟩ | ⟨strategy, -, -, hregroup⟩
    · exact hF₂.reallocate hset₂ hevs₂.ops hmembers hset.users hlast' hvalue (hrot x hx).2 hreallocate
    · exact hF₂.regroup hset₂ hevs₂.ops hmembers hlast' hvalue (hrot x hx).2 hregroup
  obtain ⟨F₃, hF₃⟩ := hev₃.grown
  have hev₄ := hF₃.eraseAll (m := s.kernel.ops.size) (fun y hy => by
    have hmem : y ∈ set.members := SlotSet.rotation_mem_members (List.mem_reverse.mp hy)
    exact ⟨(hset.members y hmem).1, hmembers y hmem⟩) (Transform.edit_eq_ok herase).1
  have hev₃₄ := hev₃.trans hev₄
  have hrebuilt' : set'.Rebuilt M N s.kernel.ops.size n set'.rotation.value s'.kernel := by
    have hresized' := hrebuilt.mono hev₄.toExtends
      ((hev₄.recent _ _ hrebuilt.selector.1 hrebuilt.selects).trans hrebuilt.selects.symm)
    rw [hset']
    exact { hresized' with }
  have htracked : set'.Tracked M N s'.kernel := by
    refine hrebuilt'.tracked h.ops_le (fun y hy => ?_) (fun binding hmem => ?_) fun g hg => ?_
    · exact (hrot y hy).2.extends hev₃₄.toExtends
    · have hbindings := congrArg SlotSet.bindings hset'
      rw [hbindings] at hmem
      obtain ⟨old, hold, rfl⟩ := List.mem_map.mp hmem
      exact Nat.lt_of_lt_of_le (hset.users old hold) (hevs₂.trans hev₃₄).ops
    · rcases hheaded g (hgeq ▸ hg) with hsame | hhead
      · exact (hevs₂.trans hev₃₄).wasBarrier (hset.guard g hsame)
      · exact hev₃₄.wasBarrier (hF₀.wasBarrier_of_headed hev₂ hhead hgns)
  have hloop' : set'.loop = set.loop := by rw [hset']; exact hloop
  refine ⟨hevs₂.trans hev₃₄, htracked, l, rot, hloop' ▸ hl, by rw [hrebuilt'.count, hn], ?_, hrebuilt'.selects⟩
  rw [hrebuilt'.count]
  refine { hplace with
    rotates := hplace.rotates.of_constant hconstant
    live := fun i hi => ?_
    fresh := fun i hi v hv => Nat.le_trans hev₀.values (hplace.fresh i hi v hv) }
  have hi' : i.1 ∈ set'.rotation.ops := hplace.ops ▸ List.mem_map_of_mem hi
  exact hev₃₄.recent _ _ (Nat.le_trans hev₀.ops (hrot i.1 hi').1) (hplace.live i hi)

end Kernel.Grown

/-- The kernel grew, its sets are tracked, and the sites in `waiting` have their allocations. -/
structure Kernel.Awaits (M N : Nat) (waiting : List Site) (k : Kernel) (sets : List SlotSet) : Prop where
  grown : ∃ F, Grown M N k F
  tracked : ∀ set ∈ sets, set.Tracked M N k
  waiting : ∀ site ∈ waiting, ∃ a, k.alloc? site.alloc = some a ∧ a.result = site.buffer

def Site.Within (site : Site) (M N : Nat) : Prop := site.alloc.index < M ∧ site.buffer.index < N

namespace Transform

variable {sites waiting : List Site} {start : State} {x y : State × List SlotSet}

theorem Call.awaits (hcall : Call sites x y) (hsites : ∀ site ∈ sites, site.Within M N)
    (hwaiting : ∀ site ∈ waiting, site.Within M N)
    (hapart : ∀ site ∈ sites, ∀ other ∈ waiting, other.alloc ≠ site.alloc)
    (h : Kernel.Awaits M N waiting x.1.kernel x.2) : Kernel.Awaits M N waiting y.1.kernel y.2 := by
  obtain ⟨F, hF⟩ := h.grown
  cases hcall with
  | @expand s s' sets site set policy factor hsite hrun =>
    obtain ⟨hM, hN⟩ := hsites site hsite
    obtain ⟨hgrown, hretains, htracked, hstays⟩ := hF.expand hM hN hrun
    refine ⟨hgrown, fun other hmem => ?_, fun other hother => ?_⟩
    · rcases List.mem_append.mp hmem with hmem | hmem
      · exact (h.tracked other hmem).retains hretains
      · exact List.mem_singleton.mp hmem ▸ htracked
    · obtain ⟨a, ha, hres⟩ := h.waiting other hother
      exact ⟨a, hstays _ a (hwaiting other hother).1 (hapart site hsite other hother) ha, hres⟩
  | @resize s s' before after set set' policy factor hrun =>
    have hset : set ∈ before ++ set :: after := List.mem_append_right _ List.mem_cons_self
    obtain ⟨hev, htracked, -⟩ := hF.resize (h.tracked set hset) hrun
    refine ⟨hev.grown, fun other hmem => ?_, fun other hother => ?_⟩
    · rcases List.mem_append.mp hmem with hmem | hmem
      · exact (h.tracked other (List.mem_append_left _ hmem)).retains hev.toRetains
      · rcases List.mem_cons.mp hmem with rfl | hmem
        · exact htracked
        · exact (h.tracked other (List.mem_append_right _ (List.mem_cons_of_mem _ hmem))).retains hev.toRetains
    · obtain ⟨a, ha, hres⟩ := h.waiting other hother
      exact ⟨a, hev.alloc? (hwaiting other hother).1 ha, hres⟩

theorem survey_awaits (h : s.kernel.Stores F) (hv : s.kernel.verify = .ok ()) :
    let k := (survey s).2.kernel
    (∀ site ∈ (survey s).1.sites, site.Within k.ops.size k.values.size) ∧
      k.Awaits k.ops.size k.values.size (survey s).1.sites [] := by
  obtain ⟨hbecomes, -, hsites⟩ := h.surveyOps s.kernel.preorder
  have hS := hbecomes.stores
  have hscoped := ((h.verify_eq_ok_iff).mp hv).stripping h.plain s.kernel.preorder h.nodup
  have hfound : ∀ site ∈ (survey s).1.sites, ∃ a,
      (site.alloc, .alloc a) ∈ (F.rewrite (.stripping s.kernel.preorder)).nodes ∧ a.result = site.buffer := by
    intro site hsite
    obtain ⟨a, ha, hbuffer, -⟩ := hsites site hsite
    have hmem : site.alloc ∈ s.kernel.preorder := by
      rw [h.preorder_eq]
      exact Forest.mem_ids_of_mem_nodes ha
    refine ⟨a.stripped, (Forest.mem_stripping h.plain _).mpr ⟨_, ha, ?_⟩, hbuffer.symm⟩
    rw [if_pos hmem]
    rfl
  refine ⟨fun site hsite => ?_, ⟨_, hS, Nat.le_refl _, Nat.le_refl _, hS.knows hscoped, fun n hn hM => ?_, fun v _ =>
    hscoped.reaches v⟩, by simp, fun site hsite => ?_⟩
  · obtain ⟨a, ha, hres⟩ := hfound site hsite
    exact ⟨hS.index_lt (Forest.mem_ids_of_mem_nodes ha), hS.result_lt ha (congrArg some hres)⟩
  · exact absurd (hS.index_lt (Forest.mem_ids_of_mem_nodes hn)) (Nat.not_lt.mpr hM)
  · obtain ⟨a, ha, hres⟩ := hfound site hsite
    exact ⟨a, hS.alloc?_eq_some_iff.mpr ha, hres⟩

/-- After calls on some sites of a survey the other ones still have their allocations. -/
theorem awaits_of_calls {name : String} {location : Location} {stmts : List Stmt}
    (hstart : start.kernel = Kernel.build name location stmts) (hv : start.kernel.verify = .ok ())
    (hsites : ∀ site ∈ sites, site ∈ (survey start).1.sites)
    (hwaiting : ∀ site ∈ waiting, site ∈ (survey start).1.sites ∧ site ∉ sites) {sets : List SlotSet}
    (hcalls : Relation.ReflTransGen (Call sites) ((survey start).2, []) (s, sets)) :
    ∃ M N, (∀ site ∈ (survey start).1.sites, site.Within M N) ∧ s.kernel.Awaits M N waiting sets := by
  obtain ⟨F, hF⟩ := Kernel.build_stores name location stmts
  rw [← hstart] at hF
  obtain ⟨hwithin, hawaits⟩ := survey_awaits hF hv
  have hnodup := hF.nodup_sites
  rw [← hF.survey_found.1] at hnodup
  have hapart : ∀ site ∈ sites, ∀ other ∈ waiting, other.alloc ≠ site.alloc := by
    intro site hsite other hother heq
    have hsame := List.inj_on_of_nodup_map hnodup (hwaiting other hother).1 (hsites site hsite) heq
    exact (hwaiting other hother).2 (hsame ▸ hsite)
  refine ⟨_, _, hwithin, ?_⟩
  suffices h : ∀ y, Relation.ReflTransGen (Call sites) ((survey start).2, []) y →
      Kernel.Awaits _ _ waiting y.1.kernel y.2 from h _ hcalls
  intro y hy
  induction hy with
  | refl => exact { hawaits with waiting := fun site hsite => hawaits.waiting site (hwaiting site hsite).1 }
  | tail _ hcall ih =>
    exact hcall.awaits (fun site hsite => hwithin site (hsites site hsite))
      (fun site hsite => hwithin site (hwaiting site hsite).1) hapart ih

theorem awaits_of_pending {name : String} {location : Location} {stmts : List Stmt}
    (hstart : start.kernel = Kernel.build name location stmts) (hv : start.kernel.verify = .ok ()) {site : Site}
    (hsite : site ∈ (survey start).1.sites) {sets : List SlotSet}
    (hcalls : Relation.ReflTransGen (Call ((survey start).1.sites.erase site)) ((survey start).2, []) (s, sets)) :
    ∃ M N, site.Within M N ∧ s.kernel.Awaits M N [site] sets := by
  have hnodup : (survey start).1.sites.Nodup := by
    obtain ⟨F, hF⟩ := Kernel.build_stores name location stmts
    rw [← hstart] at hF
    rw [hF.survey_found.1]
    exact hF.nodup_sites.of_map
  have hwaiting : ∀ other ∈ [site], other ∈ (survey start).1.sites ∧ other ∉ (survey start).1.sites.erase site := by
    intro other hother
    rw [List.mem_singleton.mp hother]
    exact ⟨hsite, hnodup.not_mem_erase⟩
  obtain ⟨M, N, hwithin, hawaits⟩ :=
    awaits_of_calls hstart hv (fun _ hmem => List.mem_of_mem_erase hmem) hwaiting hcalls
  exact ⟨M, N, hwithin site hsite, hawaits⟩

/-- The second tile of a pair waits while the slots of the first one are made and resized, and can be expanded
then. -/
theorem pending_tilePair {start : State} {site : Site}
    (hstart : start = { kernel := Kernel.build "pair" .unknown Stmt.tilePair, pass := "slots" })
    (hsite : site = ⟨⟨1⟩, ⟨1⟩, .tile, 1, some 3⟩) :
    ∃ (s s' : State) (first set : SlotSet), site ∈ (survey start).1.sites ∧
      Relation.ReflTransGen (Call ((survey start).1.sites.erase site)) ((survey start).2, []) (s, [first]) ∧
      expand {} site 2 s = .ok set s' := by
  let other : Site := ⟨⟨0⟩, ⟨0⟩, .tile, 1, some 2⟩
  let calls : Transform SlotSet := do
    let made ← expand {} other 1
    let _ ← resize {} made 3
    expand {} site 2
  have hsites : (survey start).1.sites = [other, site] := by
    rw [hstart, hsite]
    decide +kernel
  have hothers : (survey start).1.sites.erase site = [other] := by
    rw [hstart, hsite]
    decide +kernel
  have hruns : (match calls (survey start).2 with | .ok _ _ => true | .error _ _ => false) = true := by
    simp only [calls]
    rw [hstart, hsite]
    decide +kernel
  obtain ⟨set, s', hcalls⟩ : ∃ set s', calls (survey start).2 = .ok set s' := by
    cases hrun : calls (survey start).2 with
    | ok set s' => exact ⟨set, s', rfl⟩
    | error err s' => rw [hrun] at hruns; cases hruns
  obtain ⟨made, s₁, hmade, hcalls⟩ := bind_eq_ok hcalls
  obtain ⟨first, s, hfirst, hset⟩ := bind_eq_ok hcalls
  have hlast : Call ((survey start).1.sites.erase site) (s₁, [] ++ made :: []) (s, [] ++ first :: []) :=
    .resize {} 3 hfirst
  refine ⟨s, s', first, set, by simp [hsites], ?_, hset⟩
  exact (Relation.ReflTransGen.single (.expand {} 1 (by simp [hothers]) hmade)).tail hlast

end Transform
end SlotRotation
