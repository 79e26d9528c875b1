import SlotRotation.Proofs.Goodness
import SlotRotation.Proofs.Quieting

/-! Expansions and resizings spread a buffer over slots. Whatever was resized before, the kernel is the one that the
buffer was expanded in, with slots in place of the buffer, up to ops that do nothing. -/

namespace SlotRotation

/-- The set is what a buffer of the kernel `k` was spread over, and `k'` is the kernel that it is in. -/
structure Spread (k : Kernel) (F : Forest) (alloc : OpId) (buffer : ValueId) (loop : OpId) (l : Loop) (k' : Kernel)
    (F' : Forest) (set : SlotSet) (rot : List Node) : Prop where
  layout : Layout k F alloc buffer loop l set rot
  stores : k'.Stores F'
  visible : F'.Scoped
  fits : set.Fits F'
  typed : k'.typeOf? set.selected = some (.buffer set.ty)
  guarded : ∀ g, set.guard = some g → g.op.index < k'.ops.size ∧ ∀ i, (g.op, i) ∈ F'.nodes → i = .barrier
  ops : k.ops.size ≤ k'.ops.size
  values : k.values.size ≤ k'.values.size
  loop_eq : set.loop = loop
  rot_ids : rot.map Prod.fst = set.rotation.ops
  members : ∀ x ∈ set.members, ∀ i, (x, i) ∈ F.nodes → x = alloc ∨ i.isInert = true
  quiet : F'.rewrite .quieting = F.rewrite (.spreading alloc buffer l.body set rot)

section

variable {k k₀ k' : Kernel} {F F₀ : Forest} {alloc loop : OpId} {buffer : ValueId} {l : Loop} {E : Exchange F₀}
  {P : Footprint} {set : SlotSet} {guard rot : List Node}

theorem Setting.spread (hk : Setting k F alloc buffer loop l) (h : k₀.Installs k' E P set l guard rot)
    (hS : k₀.Stores F₀) (hsc : F₀.Scoped) (hops : k.ops.size ≤ k₀.ops.size)
    (hvalues : k.values.size ≤ k₀.values.size) (hloop : set.loop = loop) (hcount : set.slots.length < 2 ^ 63)
    (hrotates : Rotates F l set.slots.length rot set.rotation.value)
    (hquiet : F₀.rewrite (E.quieted l.body (rot ++ [set.selectNode])) =
      F.rewrite (.spreading alloc buffer l.body set rot))
    (hhidden : ∀ n ∈ P.nodes, ∀ v, n.2.result? = some v → Hidden k.values.size buffer v)
    (hmembers : ∀ x ∈ P.ids, ∀ i, (x, i) ∈ F.nodes → x = alloc ∨ i.isInert = true)
    (hguard : ∀ g, set.guard = some g →
      E.result.Leads set.loop g.op ∨ (g.op.index < k₀.ops.size ∧ ∀ i, (g.op, i) ∈ F₀.nodes → i = .barrier)) :
    Spread k F alloc buffer loop l k' E.result set rot := by
  have hfits := h.fits hS
  have hsupplied : ∀ v, P.Supplies k₀ v → Hidden k.values.size buffer v := by
    rintro v (⟨n, hn, hv⟩ | hnew)
    · exact hhidden n hn v hv
    · exact Or.inr (hvalues.trans hnew)
  have hslots : ∀ slot ∈ set.slots, (slot.alloc, .alloc { result := slot.value, ty := set.ty }) ∈ E.result.nodes :=
    fun slot hslot => hfits.allocs _ (SlotSet.mem_allocNodes.mpr ⟨slot, hslot, rfl⟩)
  have hlayout : Layout k F alloc buffer loop l set rot :=
    { hk with
      unseen := ⟨fun slot hslot => hsupplied _ (h.slots_from slot hslot), hsupplied _ h.selected_from⟩
      inhabited := hfits.inhabited
      count := hcount
      rotates := hrotates
      fresh := by
        rintro v ⟨n, hn, hv⟩
        refine ⟨hvalues.trans (h.rot_new n hn v hv), ?_⟩
        rintro slot hslot rfl
        have heq := h.stores.result_unique (h.rot_mem hS n hn) (hslots slot hslot) hv rfl
        refine (SlotSet.members_disjoint hfits.members_nodup).2.2.1 slot hslot ?_
        rw [← h.yields.rot_ids]
        exact List.mem_map.mpr ⟨n, hn, congrArg Prod.fst heq⟩
      distinct := h.stores.nodup_results (h.rot_mem hS) (h.rot_nodup hS)
      apart := fun slot hslot heq => by
        have hsame := h.stores.result_unique (hslots slot hslot) hfits.selects rfl (congrArg some heq.symm)
        cases congrArg Prod.snd hsame }
  refine ⟨hlayout, h.stores, h.scoped_result hS hsc, hfits, h.typed, ?_, hops.trans h.ops, hvalues.trans h.values,
    hloop, h.yields.rot_ids, ?_, ?_⟩
  · intro g hg
    rcases hguard g hg with hlead | ⟨hlt, hb⟩
    · have hnode := hlead.mem_nodes
      exact ⟨h.stores.index_lt (Forest.mem_ids_of_mem_nodes hnode),
        fun i hi => Forest.node_unique h.stores.nodup hi hnode⟩
    · exact ⟨Nat.lt_of_lt_of_le hlt h.ops, fun i hi => h.barrier_persists hS hi hlt hb⟩
  · intro x hx i hi
    rcases h.members x hx with hid | hnew
    · exact hmembers x hid i hi
    · exact absurd (hk.stores.index_lt (Forest.mem_ids_of_mem_nodes hi)) (Nat.not_lt.mpr (hops.trans hnew))
  · rw [h.quiet_result hS]
    exact hquiet

end

section

variable {k k' : Kernel} {F : Forest} {site : Site} {e : Expansion} {a : Alloc} {l : Loop} {set : SlotSet}
  {E : Exchange F} {guard rot : List Node} (h : k.Installs k' E (e.footprint site a) set l guard rot)
  (hS : k.Stores F) (ha : (site.alloc, .alloc a) ∈ F.nodes)
include h hS ha

theorem Kernel.Installs.setting_of_expansion (hsc : F.Scoped) (hfixed : ∀ n ∈ F.nodes, n.2.isSelect = false)
    (hres : a.result = site.buffer) : Setting k F site.alloc site.buffer set.loop l where
  stores := hS
  visible := hsc
  fixed := hfixed
  allocates := ⟨a, ha, hres⟩
  loops := h.lies.loop
  outer := h.lies.outside (site.alloc, .alloc a) (List.mem_singleton_self _)
  inner n hn hread := by
    by_cases hid : n.1 ∈ (e.footprint site a).ids
    · rcases Expansion.mem_footprint.mp (h.lies.mem_of_id hS.nodup hn hid) with rfl | ⟨use, -, rfl⟩
      · cases hread
      · exact Or.inl rfl
    · obtain ⟨j, hj⟩ := List.mem_iff_getElem?.mp hread
      exact Or.inr (h.lies.accessed ⟨n.1, j⟩ (Forest.mem_uses.mpr ⟨n.2, hn, hj⟩) hid)

theorem Kernel.Installs.quiet_of_expansion : F.rewrite (E.quieted l.body (rot ++ [set.selectNode])) =
    F.rewrite (.spreading site.alloc site.buffer l.body set rot) := by
  have hrename : E.rename = set.rename site.buffer := funext h.yields.rename
  refine Forest.rewrite_congr hS.plain fun ⟨id, i⟩ hn => ?_
  cases hr : i.region? with
  | none =>
    rw [Rewriting.image_leaf _ hr, Rewriting.image_leaf _ hr, Rewriting.spreading]
    dsimp only
    split
    · rename_i heq
      subst heq
      rw [Forest.node_unique hS.nodup hn ha, ← h.flatMap_allocs hS l.body (rot ++ [set.selectNode])]
      exact (List.flatMap_singleton ..).symm
    · rename_i hne
      by_cases hid : id ∈ (e.footprint site a).ids
      · have hmem := h.lies.mem_of_id hS.nodup hn hid
        have hother : (id, i) ∈ (e.footprint site a).releases.flatten ++ (e.footprint site a).prelude := by
          rw [Footprint.nodes, List.append_assoc] at hmem
          exact (List.mem_append.mp hmem).resolve_left fun heq => hne (congrArg Prod.fst (List.mem_singleton.mp heq))
        rcases Expansion.mem_footprint.mp hmem with heq | ⟨use, -, heq⟩
        · exact absurd (congrArg Prod.fst heq) hne
        · cases heq
          exact h.leaf_other hS hother l.body _
      · rw [← h.replaces.keys] at hid
        rw [Exchange.leaf_quieted (n := (id, i)) hid, Exchange.renamed, hrename]
  | some r =>
    cases i with
    | loop l' =>
      rw [Rewriting.image_loop, Rewriting.image_loop]
      simp only [Exchange.quieted, Exchange.rewriting, Rewriting.spreading, hrename]
    | _ => cases hr

end

theorem Kernel.Stores.spread_of_expand {k : Kernel} {F : Forest} (hS : k.Stores F) (hsc : F.Scoped)
    (hfixed : ∀ n ∈ F.nodes, n.2.isSelect = false) {policy : Policy} {site : Site} {factor : Int64}
    {s s' : Transform.State} {set : SlotSet} (hs : s.kernel = k)
    (hrun : Transform.expand policy site factor s = .ok set s') :
    ∃ l F' rot, Spread k F site.alloc site.buffer set.loop l s'.kernel F' set rot := by
  rcases hS.expand (hsc.reaches _) (hS.knows hsc) policy factor with ⟨err, herr⟩ |
    ⟨e, a, l, set', k', E, guard, rot, hdoes, he, ha, hres, hcount, h, -, -, hleads, -⟩
  · exact absurd hrun ((Transform.refuses_expand herr).not_ok hs)
  · obtain ⟨rfl, rfl⟩ := hdoes.unique hs hrun
    have hasked : slotsAsked factor = .ok e.slots := by
      unfold Site.expansion at he
      obtain ⟨slots, hslots, he⟩ := except_bind_eq_ok he
      obtain ⟨_, -, he⟩ := except_bind_eq_ok he
      obtain ⟨_, -, he⟩ := except_bind_eq_ok he
      obtain ⟨loop, -, he⟩ := except_bind_eq_ok he
      obtain ⟨_, -, he⟩ := except_bind_eq_ok he
      cases he
      exact hslots
    refine ⟨l, E.result, rot, (h.setting_of_expansion hS ha hsc hfixed hres).spread h hS hsc le_rfl le_rfl rfl
      (hcount.symm ▸ slotsAsked_lt hasked) h.rotates (h.quiet_of_expansion hS ha) ?_ ?_
      fun g hg => Or.inl (hleads g hg)⟩
    · intro n hn v hv
      rcases Expansion.mem_footprint.mp hn with rfl | ⟨use, -, rfl⟩
      · exact Or.inl ((Option.some.inj hv).symm.trans hres)
      · cases hv
    · intro x hx i hi
      rcases Expansion.mem_footprint.mp (h.lies.mem_of_id hS.nodup hi hx) with heq | ⟨use, -, heq⟩
      · exact Or.inl (congrArg Prod.fst heq)
      · cases heq
        exact Or.inr rfl

/-- An index is computed in the same way if the bounds of the loop are known to be the same constants. -/
theorem Rotates.mono {F G : Forest} {l : Loop} {n : Nat} {rot : List Node} {v : ValueId} (h : Rotates F l n rot v)
    (hlower : F.Constant l.lower 0 → G.Constant l.lower 0) (hstep : F.Constant l.step 1 → G.Constant l.step 1) :
    Rotates G l n rot v := by
  cases h with
  | single x v => exact .single x v
  | many hn hshift hscale =>
    refine .many hn (hshift.imp_left ?_) (hscale.imp_left ?_)
    · exact fun ⟨hns, hresult, hc⟩ => ⟨hns, hresult, hlower hc⟩
    · exact fun ⟨hns, hresult, hc⟩ => ⟨hns, hresult, hstep hc⟩

theorem Forest.mem_quieting {F : Forest} (hP : F.Plain) {n : Node} :
    n ∈ (F.rewrite .quieting).nodes ↔ n ∈ F.nodes ∧ n.2.isInert = false := by
  have himage : ∀ m : Node, n ∈ Rewriting.quieting.image m ↔ n = m ∧ m.2.isInert = false := by
    rintro ⟨id, i⟩
    cases hr : i.region? with
    | none =>
      rw [Rewriting.image_leaf _ hr, Rewriting.quieting]
      cases hinert : i.isInert <;> simp [hinert]
    | some r =>
      cases i with
      | loop l => simp [Rewriting.image_loop, Rewriting.quieting, Instr.isInert, Instr.isDealloc, Instr.isBarrier]
      | _ => cases hr
  rw [Forest.mem_nodes_rewrite hP]
  constructor
  · rintro ⟨m, hm, hn⟩
    obtain ⟨rfl, hinert⟩ := (himage m).mp hn
    exact ⟨hm, hinert⟩
  · rintro ⟨hn, hinert⟩
    exact ⟨n, hn, (himage n).mpr ⟨rfl, hinert⟩⟩

theorem Kernel.Clears.quiet {policy : Policy} {set : SlotSet} {n : Nat} {k k₀ : Kernel} {F F₀ : Forest}
    (h : Clears policy set n k k₀ F F₀) (hS : k.Stores F) : F₀.rewrite .quieting = F.rewrite .quieting := by
  rcases h with ⟨-, rfl⟩ | ⟨g, -, hg, -, -, rfl, -⟩
  · rfl
  · rw [Forest.rewrite_rewrite]
    refine Forest.rewrite_congr hS.plain fun ⟨id, i⟩ hn => ?_
    cases hr : i.region? with
    | none =>
      rw [Rewriting.image_leaf _ hr, Rewriting.image_leaf _ hr, Rewriting.leaf_andThen, Rewriting.dropping]
      dsimp only
      split
      · rename_i heq
        obtain rfl := List.mem_singleton.mp heq
        rw [Forest.node_unique hS.nodup hn hg]
        rfl
      · exact List.flatMap_singleton ..
    | some r =>
      cases i with
      | loop l => rfl
      | _ => cases hr

namespace Spread

variable {k k' k₀ k₁ : Kernel} {F F' F₀ : Forest} {alloc loop : OpId} {buffer : ValueId} {l : Loop}
  {set set' : SlotSet} {rot ns guard rot' : List Node} {E : Exchange F₀}
  (h : Spread k F alloc buffer loop l k' F' set rot)
include h

theorem mem_spreading {n : Node} (hn : n ∈ (F.rewrite (.spreading alloc buffer l.body set rot)).nodes) :
    n ∈ allocNodes set.ty set.slots ∨ n ∈ rot ∨ n = set.selectNode ∨
      ∃ m ∈ F.nodes, n = (m.1, m.2.mapOperands fun _ => set.rename buffer) := by
  obtain ⟨⟨id, i⟩, hm, hn⟩ := (Forest.mem_nodes_rewrite h.layout.stores.plain).mp hn
  cases hr : i.region? with
  | none =>
    rw [Rewriting.image_leaf _ hr, Rewriting.spreading] at hn
    dsimp only at hn
    split at hn
    · exact Or.inl hn
    · split at hn
      · cases hn
      · exact Or.inr (Or.inr (Or.inr ⟨(id, i), hm, List.mem_singleton.mp hn⟩))
  | some r =>
    cases i with
    | loop l' =>
      rcases List.mem_cons.mp hn with rfl | hn
      · exact Or.inr (Or.inr (Or.inr ⟨_, hm, rfl⟩))
      · rw [Rewriting.spreading] at hn
        dsimp only at hn
        split at hn
        · rw [List.mem_append, List.mem_singleton] at hn
          exact Or.inr (hn.imp_right Or.inl)
        · cases hn
    | _ => cases hr

section

variable (hS₀ : k₀.Stores F₀) (hquiet₀ : F₀.rewrite .quieting = F.rewrite (.spreading alloc buffer l.body set rot))
include hS₀ hquiet₀

omit h in
theorem mem_nodes {n : Node} : n ∈ (F.rewrite (.spreading alloc buffer l.body set rot)).nodes ↔
    n ∈ F₀.nodes ∧ n.2.isInert = false := by
  rw [← hquiet₀]
  exact Forest.mem_quieting hS₀.plain

theorem loop_mem : (loop, .loop l) ∈ F₀.nodes := by
  refine ((mem_nodes hS₀ hquiet₀).mp ?_).1
  have hsame : ∀ v ∈ (Instr.loop l).operands, set.rename buffer v = v := fun v hv =>
    if_neg fun heq => h.layout.bounds_visible hv (Or.inl heq)
  refine Forest.mem_rewrite_of_mem_image h.layout.stores.plain h.layout.loops ?_
  rw [Rewriting.image_loop, Rewriting.spreading]
  dsimp only
  rw [hsame _ (by simp [Instr.operands]), hsame _ (by simp [Instr.operands]), hsame _ (by simp [Instr.operands])]
  exact List.mem_cons_self

theorem rot_mem {n : Node} (hn : n ∈ rot) : n ∈ F₀.nodes := by
  refine ((mem_nodes hS₀ hquiet₀).mp ?_).1
  refine (Forest.mem_nodes_rewrite h.layout.stores.plain).mpr ⟨_, h.layout.loops, ?_⟩
  rw [Rewriting.image_loop, Rewriting.spreading]
  simp [hn]

theorem constant {v : ValueId} {c : Int64} (hv : ¬Hidden k.values.size buffer v) (hc : F₀.Constant v c) :
    F.Constant v c := by
  obtain ⟨d, hd⟩ := hc
  rcases h.mem_spreading ((mem_nodes hS₀ hquiet₀).mpr ⟨hd, rfl⟩) with hmem | hmem | hmem | ⟨⟨id, i⟩, hm, heq⟩
  · obtain ⟨_, -, heq⟩ := SlotSet.mem_allocNodes.mp hmem
    cases heq
  · exact absurd (Or.inr (h.layout.fresh v ⟨_, hmem, rfl⟩).1) hv
  · cases hmem
  · cases i with
    | constant w c' =>
      cases heq
      exact ⟨_, hm⟩
    | _ => cases heq

variable (hinstalls : k₀.Installs k₁ E (set.footprint ns) set' l guard rot')
  (hns : ns.map Prod.fst = set.rotation.ops)
include hinstalls hns

theorem mem_prelude_iff {n : Node} : n ∈ ns ↔ n ∈ rot := by
  have hnodes : ∀ {n : Node}, n ∈ ns → n ∈ F₀.nodes := fun hn =>
    hinstalls.lies.nodes _ (Footprint.mem_nodes.mpr (Or.inr (Or.inr (List.mem_cons_of_mem _ hn))))
  have hids : ns.map Prod.fst = rot.map Prod.fst := hns.trans h.rot_ids.symm
  constructor
  · intro hn
    obtain ⟨m, hm, heq⟩ := List.mem_map.mp (hids ▸ List.mem_map_of_mem (f := Prod.fst) hn)
    obtain rfl := List.inj_on_of_nodup_map hS₀.nodup (h.rot_mem hS₀ hquiet₀ hm) (hnodes hn) heq
    exact hm
  · intro hn
    obtain ⟨m, hm, heq⟩ := List.mem_map.mp (hids ▸ List.mem_map_of_mem (f := Prod.fst) hn)
    obtain rfl := List.inj_on_of_nodup_map hS₀.nodup (hnodes hm) (h.rot_mem hS₀ hquiet₀ hn) heq
    exact hm

omit h hquiet₀ hns in
/-- Nothing comes in place of what does nothing, so it may as well go before. -/
theorem rewrite_quieting : F₀.rewrite (E.quieted l.body (rot' ++ [set'.selectNode])) =
    (F₀.rewrite .quieting).rewrite (E.quieted l.body (rot' ++ [set'.selectNode])) := by
  rw [Forest.rewrite_rewrite]
  refine Forest.rewrite_congr hS₀.plain fun ⟨id, i⟩ hn => ?_
  cases hr : i.region? with
  | none =>
    rw [Rewriting.image_leaf _ hr, Rewriting.image_leaf _ hr, Rewriting.leaf_andThen, Rewriting.quieting]
    dsimp only
    split
    · rename_i hinert
      by_cases hid : id ∈ (set.footprint ns).ids
      · have hmem := hinstalls.lies.mem_of_id hS₀.nodup hn hid
        rw [Footprint.nodes, List.append_assoc] at hmem
        refine hinstalls.leaf_other hS₀ (n := (id, i)) ((List.mem_append.mp hmem).resolve_left fun halloc => ?_) _ _
        obtain ⟨slot, -, heq⟩ := SlotSet.mem_allocNodes.mp halloc
        cases heq
        cases hinert
      · rw [← hinstalls.replaces.keys] at hid
        exact (Exchange.leaf_quieted (n := (id, i)) hid _ _).trans (if_pos hinert)
    · exact (List.flatMap_singleton ..).symm
  | some r =>
    cases i with
    | loop l' => exact (congrArg _ (List.append_nil _)).symm
    | _ => cases hr

/-- The new slots come in place of the old ones, and so in place of the buffer. -/
theorem rewrite_spreading (hids : ∀ x, x ∈ (set.footprint ns).ids ↔ x ∈ set.members) :
    F₀.rewrite (E.quieted l.body (rot' ++ [set'.selectNode])) =
      F.rewrite (.spreading alloc buffer l.body set' rot') := by
  have hplain := h.layout.stores.plain
  have hrename : ∀ n ∈ F.nodes, ∀ v ∈ n.2.operands, E.rename (set.rename buffer v) = set'.rename buffer v := by
    intro n hn v hv
    have hlt := h.layout.stores.operand_lt h.layout.visible hn hv
    rw [hinstalls.yields.rename, SlotSet.rename, SlotSet.rename]
    by_cases heq : v = buffer
    · rw [if_pos heq, if_pos heq]
      exact if_pos rfl
    · rw [if_neg heq, if_neg heq]
      refine if_neg fun (hselected : v = set.selected) => ?_
      rcases h.layout.unseen.selected with hb | hle
      · exact heq (hselected.trans hb)
      · exact Nat.not_lt.mpr hle (hselected ▸ hlt)
  -- the ops that computed the old index and selected an old slot leave nothing behind
  have hprelude : ((rot ++ [set.selectNode]).flatMap fun n =>
      (E.quieted l.body (rot' ++ [set'.selectNode])).leaf n.1 n.2) = [] := by
    refine List.flatMap_eq_nil_iff.mpr fun n hn => hinstalls.leaf_other hS₀ (List.mem_append_right _ ?_) _ _
    rcases List.mem_append.mp hn with hn | hn
    · exact List.mem_cons_of_mem _ ((h.mem_prelude_iff hS₀ hquiet₀ hinstalls hns).mpr hn)
    · exact List.mem_cons.mpr (Or.inl (List.mem_singleton.mp hn))
  rw [rewrite_quieting hS₀ hinstalls, hquiet₀, Forest.rewrite_rewrite]
  apply Forest.rewrite_congr hplain
  rintro ⟨id, i⟩ hn
  cases hr : i.region? with
  | none =>
    rw [Rewriting.image_leaf _ hr, Rewriting.image_leaf _ hr, Rewriting.leaf_andThen, Rewriting.spreading,
      Rewriting.spreading]
    dsimp only
    split
    · exact hinstalls.flatMap_allocs hS₀ l.body _
    · rename_i hne
      split
      · rfl
      · rename_i hinert
        have hid : id ∉ E.keys := by
          rw [hinstalls.replaces.keys, hids]
          exact fun hmem => (h.members id hmem i hn).elim hne hinert
        have hinert' : ¬(i.mapOperands fun _ => set.rename buffer).isInert = true := by
          rw [Instr.isInert_mapOperands]
          exact hinert
        rw [List.flatMap_singleton, Exchange.leaf_quieted (n := (id, i.mapOperands fun _ => set.rename buffer)) hid,
          if_neg hinert', Exchange.renamed, Instr.mapOperands_mapOperands]
        exact congrArg (fun j => [(id, j)]) (Instr.mapOperands_congr fun _ v hv =>
          hrename _ hn v (List.mem_of_getElem? hv))
  | some r =>
    cases i with
    | loop l' =>
      have hhead : E.rewriting.head id ((Rewriting.spreading alloc buffer l.body set rot).head id l') =
          (Rewriting.spreading alloc buffer l.body set' rot').head id l' := by
        have hbounds := hrename _ hn
        simp only [Instr.operands, List.mem_cons, List.not_mem_nil, or_false, forall_eq_or_imp, forall_eq] at hbounds
        simp only [Exchange.rewriting, Rewriting.spreading, hbounds]
      rw [Rewriting.image_andThen_loop, Rewriting.image_loop]
      refine congrArg₂ (fun l ns => (id, Instr.loop l) :: ns) hhead ?_
      by_cases hbody : l'.body = l.body
      · have hold : (Rewriting.spreading alloc buffer l.body set rot).top l'.body = rot ++ [set.selectNode] :=
          if_pos hbody
        have hnew : (E.quieted l.body (rot' ++ [set'.selectNode])).top l'.body = rot' ++ [set'.selectNode] :=
          if_pos hbody
        rw [hold, hnew, hprelude, List.append_nil]
        exact (if_pos hbody).symm
      · have hold : (Rewriting.spreading alloc buffer l.body set rot).top l'.body = [] := if_neg hbody
        have hnew : (E.quieted l.body (rot' ++ [set'.selectNode])).top l'.body = [] := if_neg hbody
        rw [hold, hnew]
        exact (if_neg hbody).symm
    | _ => cases hr

end

theorem resize {policy : Policy} {factor : Int64} {s s' : Transform.State} (hs : s.kernel = k')
    (hrun : Transform.resize policy set factor s = .ok set' s') :
    ∃ F'' rot', Spread k F alloc buffer loop l s'.kernel F'' set' rot' := by
  rcases h.stores.resize h.visible h.fits h.typed (fun g hg => (h.guarded g hg).2) policy factor with ⟨hrefuses, -⟩ |
    ⟨target, set₁, k₀, k₁, F₀, l', ns, E, guard, rot', hdoes, hasked, hclears, hns, hinstalls, -, hloop, hlength, -,
    hleads⟩
  · exact absurd hrun (hrefuses.not_ok hs)
  · obtain ⟨rfl, rfl⟩ := hdoes.unique hs hrun
    have hS₀ := hclears.stores h.stores
    have hfits₀ := hclears.fits h.stores h.fits
    have hquiet₀ := (hclears.quiet h.stores).trans h.quiet
    have hset : set'.loop = loop := hloop.trans h.loop_eq
    obtain rfl : l' = l := by
      have hl := hinstalls.lies.loop
      rw [hset] at hl
      injection Forest.node_unique hS₀.nodup hl (h.loop_mem hS₀ hquiet₀)
    have hids : ∀ x, x ∈ (set.footprint ns).ids ↔ x ∈ set.members := fun x => hfits₀.mem_ids_footprint hns
    -- the bounds are constants with the old slots only if they were constants before there were slots
    have hrotates : Rotates F l' set'.slots.length rot' set'.rotation.value := by
      refine hinstalls.rotates.mono (h.constant hS₀ hquiet₀ ?_) (h.constant hS₀ hquiet₀ ?_)
      · exact h.layout.bounds_visible (by simp [Instr.operands])
      · exact h.layout.bounds_visible (by simp [Instr.operands])
    refine ⟨E.result, rot', h.layout.toSetting.spread hinstalls hS₀
      (hclears.scoped_of_scoped h.stores h.visible) ?_ ?_ hset
      (hlength.symm ▸ slotsAsked_lt hasked) hrotates (h.rewrite_spreading hS₀ hquiet₀ hinstalls hns hids) ?_ ?_ ?_⟩
    · exact h.ops.trans hclears.extends_of.ops
    · exact h.values.trans hclears.extends_of.values
    · intro n hn v hv
      rcases Footprint.mem_nodes.mp hn with hn | ⟨ms, hms, hn⟩ | hn
      · obtain ⟨slot, hslot, rfl⟩ := SlotSet.mem_allocNodes.mp hn
        cases hv
        exact h.layout.unseen.slots slot hslot
      · obtain ⟨ops, -, rfl⟩ := List.mem_map.mp hms
        obtain ⟨_, _, -, -, heq⟩ := SlotSet.mem_releaseNodes.mp hn
        rw [heq] at hv
        cases hv
      · rcases List.mem_cons.mp hn with rfl | hn
        · cases hv
          exact h.layout.unseen.selected
        · exact Or.inr (h.layout.fresh v ⟨n, (h.mem_prelude_iff hS₀ hquiet₀ hinstalls hns).mp hn, hv⟩).1
    · exact fun x hx => h.members x ((hids x).mp hx)
    · intro g hg
      refine (hleads g hg).symm.imp_right fun hold => ?_
      obtain ⟨hlt, hb⟩ := h.guarded g hold
      exact ⟨hclears.size_eq.symm ▸ hlt, fun i hi => hb i (hclears.mem_of_mem h.stores hi)⟩

end Spread
end SlotRotation
