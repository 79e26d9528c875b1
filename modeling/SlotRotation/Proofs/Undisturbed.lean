import SlotRotation.Proofs.Multibuffer

/-! What is looked at before a site is expanded: the uses of its buffer, what they do, and the loops around them.
None of it changes while directives are taken off or other buffers are given their slots. -/

namespace SlotRotation

theorem Instr.isDealloc_stripped (i : Instr) : i.stripped.isDealloc = i.isDealloc := by cases i <;> rfl

theorem Instr.effectsOn_stripped (i : Instr) (n : Nat) : i.stripped.effectsOn n = i.effectsOn n := by cases i <;> rfl

namespace Forest

variable {F : Forest} {R : Rewriting}

theorem chain?_prepend (ns : List Node) (F : Forest) (u : OpId) :
    (prepend ns F).chain? u = if u ∈ ns.map Prod.fst then some [] else F.chain? u := by
  induction ns with
  | nil => rfl
  | cons n ns ih =>
    rw [prepend, chain?, ih]
    by_cases h : n.1 = u
    · simp [h]
    · simp only [if_neg h, List.map_cons, List.mem_cons, Ne.symm h, false_or]

theorem chain?_eq_none {u : OpId} (h : u ∉ F.ids) : F.chain? u = none := by
  rw [← Option.not_isSome_iff_eq_none, chain?_isSome]
  exact h

theorem chain?_rewrite (hP : F.Plain) (hF : F.ids.Nodup) (hR : (F.rewrite R).ids.Nodup) {n : Node} (hn : n ∈ F.nodes)
    (hkept : n.1 ∈ (R.image n).map Prod.fst) : (F.rewrite R).chain? n.1 = F.chain? n.1 := by
  have hmem : ∀ {G : Forest}, G.Plain → n ∈ G.nodes → n.1 ∈ (G.rewrite R).ids := by
    intro G hG hn
    obtain ⟨m, hm, heq⟩ := List.mem_map.mp hkept
    rw [← heq]
    exact mem_ids_of_mem_nodes ((mem_nodes_rewrite hG).mpr ⟨n, hn, hm⟩)
  induction F with
  | nil => cases hn
  | op id i rest ih =>
    obtain ⟨hid, hrest⟩ := nodup_op hF
    rw [rewrite, ids_prepend, List.nodup_append] at hR
    rw [rewrite, chain?_prepend, chain?]
    rcases List.mem_cons.mp hn with rfl | hn
    · rw [R.image_leaf hP.1] at hkept
      rw [if_pos hkept, if_pos rfl]
    · have hout : n.1 ∉ (R.leaf id i).map Prod.fst := fun h => hR.2.2 _ h _ (hmem hP.2 hn) rfl
      have hne : id ≠ n.1 := fun h => hid (h ▸ mem_ids_of_mem_nodes hn)
      rw [if_neg hout, if_neg hne]
      exact ih hP.2 hrest hR.2.1 hn
  | loop id l body rest ihb ihr =>
    obtain ⟨hidb, hidr, hb, hr, hdis⟩ := nodup_loop hF
    rw [rewrite] at hR ⊢
    obtain ⟨hidb', hidr', hb', hr', hdis'⟩ := nodup_loop hR
    simp only [nodes, List.mem_cons, List.mem_append] at hn
    rw [chain?, chain?]
    rcases hn with rfl | hn | hn
    · rw [if_pos rfl, if_pos rfl]
    · have hne : id ≠ n.1 := fun h => hidb (h ▸ mem_ids_of_mem_nodes hn)
      rw [ids_prepend, List.nodup_append] at hb'
      have hout : n.1 ∉ (R.top l.body).map Prod.fst := fun h => hb'.2.2 _ h _ (hmem hP.1 hn) rfl
      have hrest : n.1 ∉ rest.ids := hdis _ (mem_ids_of_mem_nodes hn)
      have hrest' : n.1 ∉ (rest.rewrite R).ids :=
        hdis' _ (by rw [ids_prepend]; exact List.mem_append_right _ (hmem hP.1 hn))
      rw [if_neg hne, if_neg hne, chain?_prepend, if_neg hout, ihb hP.1 hb hb'.2.1 hn, chain?_eq_none hrest,
        chain?_eq_none hrest']
    · have hne : id ≠ n.1 := fun h => hidr (h ▸ mem_ids_of_mem_nodes hn)
      have hbody : n.1 ∉ body.ids := fun h => hdis _ h (mem_ids_of_mem_nodes hn)
      have hbody' := fun h => hdis' _ h (hmem hP.2 hn)
      rw [if_neg hne, if_neg hne, chain?_eq_none hbody, chain?_eq_none hbody', Option.map_none, Option.none_or,
        Option.none_or]
      exact ihr hP.2 hr hr' hn

theorem uses_rewrite (hP : F.Plain) {v : ValueId} (h : ∀ n ∈ F.nodes, (R.image n).flatMap (usesIn v) = usesIn v n) :
    (F.rewrite R).uses v = F.uses v := by
  rw [uses, nodes_rewrite hP, List.flatMap_assoc]
  exact List.flatMap_congr fun n hn => h n hn

theorem usesIn_renamed {v : ValueId} {f : ValueId → ValueId} (h : ∀ w, f w = v ↔ w = v) (n : Node) :
    usesIn v (n.1, n.2.mapOperands fun _ => f) = usesIn v n := by
  have hmap : n.2.operands.mapIdx (fun _ => f) = n.2.operands.map f := List.ext_getElem? fun i => by simp
  simp only [usesIn, Instr.operands_mapOperands, hmap, List.zipIdx_map, List.filterMap_map, Function.comp_def,
    Prod.map_fst, Prod.map_snd, id_eq, h]

theorem usesIn_eq_nil {v : ValueId} {n : Node} (h : v ∉ n.2.operands) : usesIn v n = [] := by
  refine List.eq_nil_iff_forall_not_mem.mpr fun use huse => h ?_
  exact List.mem_of_getElem? (mem_usesIn.mp huse).2

end Forest

/-- Two kernels look the same to a site that is still to be expanded. -/
structure Site.Alike (site : Site) (k k' : Kernel) : Prop where
  uses : (DefUse.ofKernel k').usesOf site.buffer = (DefUse.ofKernel k).usesOf site.buffer
  alloc : site.checkAlloc k' = site.checkAlloc k
  around : k'.ancestors site.alloc = k.ancestors site.alloc
  user : ∀ use ∈ (DefUse.ofKernel k).usesOf site.buffer, k'.isRelease use = k.isRelease use ∧
    k'.overwrites use = k.overwrites use ∧ k'.ancestors use.user = k.ancestors use.user ∧
    k'.loopsAround use.user = k.loopsAround use.user

namespace Site.Alike

variable {site : Site} {k k' k'' : Kernel} (h : site.Alike k k')
include h

theorem trans (h' : site.Alike k' k'') : site.Alike k k'' where
  uses := h'.uses.trans h.uses
  alloc := h'.alloc.trans h.alloc
  around := h'.around.trans h.around
  user use huse := by
    obtain ⟨hrelease, hoverwrites, hancestors, hloops⟩ := h.user use huse
    obtain ⟨hrelease', hoverwrites', hancestors', hloops'⟩ := h'.user use (h.uses.symm ▸ huse)
    exact ⟨hrelease'.trans hrelease, hoverwrites'.trans hoverwrites, hancestors'.trans hancestors,
      hloops'.trans hloops⟩

theorem rotationLoop?_eq {accesses : List Use}
    (haccesses : ∀ use ∈ accesses, use ∈ (DefUse.ofKernel k).usesOf site.buffer) :
    k'.rotationLoop? site.alloc accesses = k.rotationLoop? site.alloc accesses := by
  unfold Kernel.rotationLoop?
  cases hfirst : accesses.head? with
  | none => rfl
  | some first =>
    have hmem : first ∈ accesses := List.mem_of_mem_head? hfirst
    have hinside : ∀ loop, (accesses.all fun use => k'.isAncestor loop use.user) =
        accesses.all fun use => k.isAncestor loop use.user := by
      intro loop
      rw [Bool.eq_iff_iff, List.all_eq_true, List.all_eq_true]
      refine forall₂_congr fun use huse => ?_
      rw [Kernel.isAncestor, Kernel.isAncestor, (h.user use (haccesses use huse)).2.2.1]
    change List.find? _ (k'.loopsAround first.user) = List.find? _ (k.loopsAround first.user)
    rw [(h.user first (haccesses first hmem)).2.2.2]
    refine congrArg (List.find? · _) (funext fun loop => ?_)
    rw [hinside, Kernel.isAncestor, Kernel.isAncestor, h.around]

theorem expansion_eq (policy : Policy) (factor : Int64) :
    site.expansion policy k' factor = site.expansion policy k factor := by
  have haccesses : ((DefUse.ofKernel k').usesOf site.buffer).filter (fun use => !k'.isRelease use) =
      ((DefUse.ofKernel k).usesOf site.buffer).filter fun use => !k.isRelease use := by
    rw [h.uses]
    exact List.filter_congr fun use huse => by rw [(h.user use huse).1]
  have hreleases : ((DefUse.ofKernel k').usesOf site.buffer).filter k'.isRelease =
      ((DefUse.ofKernel k).usesOf site.buffer).filter k.isRelease := by
    rw [h.uses]
    exact List.filter_congr fun use huse => (h.user use huse).1
  have hmem : ∀ use ∈ ((DefUse.ofKernel k).usesOf site.buffer).filter (fun use => !k.isRelease use),
      use ∈ (DefUse.ofKernel k).usesOf site.buffer := fun use huse => (List.mem_filter.mp huse).1
  have hoverwrite : ∀ accesses, (∀ use ∈ accesses, use ∈ (DefUse.ofKernel k).usesOf site.buffer) →
      site.checkOverwrite policy k' accesses = site.checkOverwrite policy k accesses := by
    intro accesses hsub
    unfold Site.checkOverwrite
    cases hfirst : accesses.head? with
    | none => rfl
    | some first =>
      rw [Option.any_some, Option.any_some, (h.user first (hsub _ (List.mem_of_mem_head? hfirst))).2.1]
  simp only [Site.expansion, Site.chooseLoop, haccesses, hreleases, h.alloc, hoverwrite _ hmem,
    h.rotationLoop?_eq hmem]

end Site.Alike

/-- A rewriting leaves alone what is looked at before the site is expanded. -/
structure Rewriting.Regards (R : Rewriting) (F : Forest) (site : Site) : Prop where
  uses : ∀ n ∈ F.nodes, (R.image n).flatMap (Forest.usesIn site.buffer) = Forest.usesIn site.buffer n
  users : ∀ n ∈ F.nodes, site.buffer ∈ n.2.operands → ∃ i, (n.1, i) ∈ R.image n ∧ i.isDealloc = n.2.isDealloc ∧
    ∀ m, i.effectsOn m = n.2.effectsOn m
  alloc : ∀ a, (site.alloc, .alloc a) ∈ F.nodes → ∃ b, (site.alloc, .alloc b) ∈ R.image (site.alloc, .alloc a) ∧
    b.result = a.result

def Forest.Allocates (F : Forest) (site : Site) : Prop :=
  ∃ a, (site.alloc, .alloc a) ∈ F.nodes ∧ a.result = site.buffer

namespace Kernel

variable {k k' : Kernel} {F : Forest} {R : Rewriting} {site : Site}

theorem Stores.checkAlloc_eq (h : Stores k F) (halloc : F.Allocates site) : site.checkAlloc k = .ok () := by
  obtain ⟨a, ha, hres⟩ := halloc
  rw [Site.checkAlloc, h.alloc?_eq_some_iff.mpr ha, if_pos (by simp [hres])]

theorem Stores.allocates_rewrite (hS : Stores k F) (h : R.Regards F site) (halloc : F.Allocates site) :
    (F.rewrite R).Allocates site := by
  obtain ⟨a, ha, hres⟩ := halloc
  obtain ⟨b, hb, heq⟩ := h.alloc a ha
  exact ⟨b, (Forest.mem_nodes_rewrite hS.plain).mpr ⟨_, ha, hb⟩, heq.trans hres⟩

theorem Stores.ancestors_rewrite (hS : Stores k F) (hS' : Stores k' (F.rewrite R)) {x : OpId} {i j : Instr}
    (hi : (x, i) ∈ F.nodes) (hj : (x, j) ∈ R.image (x, i)) :
    k'.ancestors x = k.ancestors x ∧ k'.loopsAround x = k.loopsAround x := by
  obtain ⟨c, hc⟩ := Option.isSome_iff_exists.mp (Forest.chain?_isSome.mpr (Forest.mem_ids_of_mem_nodes hi))
  have hkept : x ∈ (R.image (x, i)).map Prod.fst := List.mem_map.mpr ⟨_, hj, rfl⟩
  have hc' : (F.rewrite R).chain? x = some c := (Forest.chain?_rewrite hS.plain hS.nodup hS'.nodup hi hkept).trans hc
  rw [hS.ancestors_eq hc, hS'.ancestors_eq hc', hS.loopsAround_eq hc, hS'.loopsAround_eq hc']
  exact ⟨rfl, rfl⟩

theorem Stores.alike_rewrite (hS : Stores k F) (hS' : Stores k' (F.rewrite R)) (h : R.Regards F site)
    (halloc : F.Allocates site) : site.Alike k k' where
  uses := by
    rw [DefUse.usesOf_ofKernel hS'.toArranges, DefUse.usesOf_ofKernel hS.toArranges,
      Forest.uses_rewrite hS.plain h.uses]
  alloc := by rw [hS.checkAlloc_eq halloc, hS'.checkAlloc_eq (hS.allocates_rewrite h halloc)]
  around := by
    obtain ⟨a, ha, -⟩ := halloc
    obtain ⟨b, hb, -⟩ := h.alloc a ha
    exact (hS.ancestors_rewrite hS' ha hb).1
  user use huse := by
    rw [DefUse.usesOf_ofKernel hS.toArranges] at huse
    obtain ⟨i, hi, hv⟩ := Forest.mem_uses.mp huse
    obtain ⟨j, hj, hdealloc, heffects⟩ := h.users _ hi (List.mem_of_getElem? hv)
    have hinstr : k.instr? use.user = some i := hS.instr?_of_mem hi
    have hinstr' : k'.instr? use.user = some j :=
      hS'.instr?_of_mem ((Forest.mem_nodes_rewrite hS.plain).mpr ⟨_, hi, hj⟩)
    refine ⟨?_, ?_, hS.ancestors_rewrite hS' hi hj⟩
    · rw [isRelease, isRelease, hinstr, hinstr', Option.any_some, Option.any_some, hdealloc]
    · rw [overwrites, overwrites, hinstr, hinstr', Option.any_some, Option.any_some, heffects]

theorem regards_stripping (ids : List OpId) (F : Forest) (site : Site) :
    (Rewriting.stripping ids).Regards F site where
  uses n _ := by
    rw [Rewriting.image_stripping, List.flatMap_singleton]
    split
    · rw [Forest.usesIn, Forest.usesIn, Instr.operands_stripped]
    · rfl
  users n _ _ := by
    refine ⟨if n.1 ∈ ids then n.2.stripped else n.2, ?_, ?_, fun m => ?_⟩
    · rw [Rewriting.image_stripping]
      exact List.mem_singleton_self _
    · split
      · exact Instr.isDealloc_stripped _
      · rfl
    · split
      · exact Instr.effectsOn_stripped _ m
      · rfl
  alloc a _ := by
    refine ⟨if site.alloc ∈ ids then a.stripped else a, ?_, ?_⟩
    · rw [Rewriting.image_stripping, List.mem_singleton]
      split <;> rfl
    · split <;> rfl

section Installs

variable {E : Exchange F} {P : Footprint} {set : SlotSet} {l : Loop} {guard rot : List Node}
  (h : Installs k k' E P set l guard rot) (hS : Stores k F) (halloc : F.Allocates site) (hout : site.alloc ∉ P.ids)
include h hS halloc hout

theorem Installs.ne_buffer {w : ValueId} (hw : P.Supplies k w) : w ≠ site.buffer := by
  rintro rfl
  obtain ⟨a, ha, hres⟩ := halloc
  rcases hw with ⟨n, hn, hn'⟩ | hlt
  · rw [hS.result_unique (h.lies.nodes n hn) ha hn' (congrArg some hres)] at hn
    exact hout (Footprint.mem_ids_of_mem_nodes hn)
  · exact Nat.not_lt.mpr hlt (hS.result_lt ha (congrArg some hres))

variable (hcontrol : F.ControlFree site.buffer)
include hcontrol

omit hout in
theorem Installs.bound_ne_buffer {w : ValueId} (hw : w = l.induction ∨ w = l.lower ∨ w = l.step) :
    w ≠ site.buffer := by
  rintro rfl
  obtain ⟨a, ha, hres⟩ := halloc
  rcases hw with heq | heq | heq
  · cases congrArg Prod.snd (hS.result_unique ha h.lies.loop (congrArg some hres) (congrArg some heq.symm))
  · exact (hcontrol _ _ h.lies.loop).1 heq.symm
  · exact (hcontrol _ _ h.lies.loop).2 heq.symm

theorem Installs.old_notMem {n : Node} (hn : n ∈ P.nodes) : site.buffer ∉ n.2.operands := by
  intro hread
  obtain ⟨d, hd, hdres⟩ := h.lies.defined
  rcases h.lies.reads n hn _ hread with heq | hsupply | heq
  · exact h.ne_buffer hS halloc hout (Or.inl ⟨d, hd, hdres⟩) heq.symm
  · exact h.ne_buffer hS halloc hout (Or.inl hsupply) rfl
  · exact h.bound_ne_buffer hS halloc hcontrol heq rfl

omit hcontrol in
theorem Installs.table_notMem {e : OpId × List Node} (he : e ∈ E.table) {n : Node} (hn : n ∈ e.2) :
    site.buffer ∉ n.2.operands := by
  rcases h.yields.table_cases e he n hn with halloc' | ⟨ops, -, hrelease⟩
  · obtain ⟨slot, -, rfl⟩ := SlotSet.mem_allocNodes.mp halloc'
    exact List.not_mem_nil
  · obtain ⟨i, slot, hslot, -, heq⟩ := SlotSet.mem_releaseNodes.mp hrelease
    rw [heq]
    intro hread
    exact h.ne_buffer hS halloc hout (h.slots_from slot (List.mem_of_getElem? hslot))
      (List.mem_singleton.mp hread).symm

theorem Installs.entry_notMem {n : Node} (hn : n ∈ E.entry) : site.buffer ∉ n.2.operands := by
  intro hread
  have hrot : ∀ d ∈ rot, ∀ w, d.2.result? = some w → w ≠ site.buffer := fun d hd w hw =>
    h.ne_buffer hS halloc hout (Or.inr (h.rot_new d hd w hw))
  rw [h.yields.entry] at hn
  rcases List.mem_append.mp hn with hn | hn
  · rcases List.mem_append.mp hn with hn | hn
    · rw [h.yields.guarded n hn] at hread
      cases hread
    · obtain ⟨as, bs, rfl⟩ := List.append_of_mem hn
      rcases h.yields.computes.operands as n bs rfl _ hread with heq | heq | heq | ⟨d, hd, hres⟩
      · exact h.bound_ne_buffer hS halloc hcontrol (Or.inl heq) rfl
      · exact h.bound_ne_buffer hS halloc hcontrol (Or.inr (Or.inl heq)) rfl
      · exact h.bound_ne_buffer hS halloc hcontrol (Or.inr (Or.inr heq)) rfl
      · exact hrot d (List.mem_append_left _ hd) _ hres rfl
  · rw [List.mem_singleton.mp hn] at hread
    rcases List.mem_append.mp hread with hread | hread
    · obtain ⟨slot, hslot, heq⟩ := List.mem_map.mp hread
      exact h.ne_buffer hS halloc hout (h.slots_from slot hslot) heq
    · obtain ⟨d, hd, hres⟩ := h.yields.computes.value
      exact hrot d hd _ hres (List.mem_singleton.mp hread).symm

theorem Installs.regards : E.rewriting.Regards F site := by
  have hnil : ∀ ns : List Node, (∀ n ∈ ns, site.buffer ∉ n.2.operands) →
      ns.flatMap (Forest.usesIn site.buffer) = [] :=
    fun ns hns => List.flatMap_eq_nil_iff.mpr fun n hn => Forest.usesIn_eq_nil (hns n hn)
  have hkey : ∀ {n}, n ∈ F.nodes → n.1 ∈ E.keys → site.buffer ∉ n.2.operands := by
    intro n hn hkey
    rw [h.replaces.keys] at hkey
    exact h.old_notMem hS halloc hout hcontrol (h.lies.mem_of_id hS.nodup hn hkey)
  have hrename : ∀ w, E.rename w = site.buffer ↔ w = site.buffer := by
    intro w
    rw [h.yields.rename]
    split
    · rename_i heq
      have hvalue : P.value ≠ site.buffer := h.ne_buffer hS halloc hout (Or.inl h.lies.defined)
      have hselected : set.selected ≠ site.buffer := h.ne_buffer hS halloc hout h.selected_from
      rw [heq]
      exact ⟨fun hs => absurd hs hselected, fun hv => absurd hv hvalue⟩
    · rfl
  constructor
  · intro n hn
    by_cases hk : n.1 ∈ E.keys
    · obtain ⟨⟨id, ns⟩, he, hid⟩ := List.mem_map.mp hk
      obtain rfl : id = n.1 := hid
      rw [Exchange.image_key hn he hS.nodup, Forest.usesIn_eq_nil (hkey hn hk)]
      exact hnil ns fun m hm => h.table_notMem hS halloc hout he hm
    · have hrenamed : Forest.usesIn site.buffer (E.renamed n) = Forest.usesIn site.buffer n :=
        Forest.usesIn_renamed hrename n
      by_cases hhost : Forest.Hosts n E.point
      · rw [Exchange.image_host hn hhost, List.flatMap_cons, hrenamed,
          hnil _ fun m hm => h.entry_notMem hS halloc hout hcontrol hm, List.append_nil]
      · rw [Exchange.image_of_not_hosts hk hhost, List.flatMap_singleton, hrenamed]
  · intro n hn hread
    have hk : n.1 ∉ E.keys := fun hk => hkey hn hk hread
    exact ⟨_, Exchange.renamed_mem_image hk, Instr.isDealloc_mapOperands .., fun m => Instr.effectsOn_mapOperands ..⟩
  · intro a ha
    have hk : site.alloc ∉ E.keys := by rwa [h.replaces.keys]
    exact ⟨a, Exchange.renamed_mem_image hk, rfl⟩

end Installs

end Kernel
end SlotRotation
