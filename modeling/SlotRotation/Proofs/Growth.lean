import SlotRotation.Proofs.Expand
import SlotRotation.Proofs.Stages

/-! Kernels that slots were put into, whatever the bounds of their loops read. Resizing a set can leave the index of
another one without a definition for a value it reads, so not every operand stays in scope; those that read a value
of the surveyed kernel do, since nothing that was added defines one. -/

namespace SlotRotation

namespace Forest

variable {M N w w' : Nat} {F : Forest} {p : InsertPoint} {ns : List Node}

/-- Ops from id `M` on and values from id `N` on were added, and there are `w` values. What was added owns no region
and defines added values, and whatever reads an old value is in the scope of its definition. -/
structure Steady (M N w : Nat) (F : Forest) : Prop where
  knows : ∀ n ∈ F.nodes, ∀ v ∈ n.2.operands, v.index < w
  added : ∀ n ∈ F.nodes, M ≤ n.1.index → n.2.region? = none ∧ ∀ v, n.2.result? = some v → N ≤ v.index
  reaches : ∀ v : ValueId, v.index < N → F.Reaches v

namespace Steady

section

variable (h : F.Steady M N w) (hP : F.Plain) (hF : F.ids.Nodup) (hw : w ≤ w')
include h hP hF hw

theorem placing (hleaf : ∀ i ∈ ns, i.2.region? = none) (hresult : ∀ i ∈ ns, ∀ v, i.2.result? = some v → N ≤ v.index)
    (hknows : ∀ i ∈ ns, ∀ v ∈ i.2.operands, v.index < w')
    (hreach : ∀ n ∈ F.nodes, Hosts n p → ∀ i ∈ ns, ∀ v ∈ i.2.operands, v.index < N →
      (n.2.result? = some v ∧ p ≠ .before n.1) ∨ ∃ d ∈ F.nodes, d.2.result? = some v ∧ F.InScope d.1 n.1) :
    (F.rewrite (.placing p ns)).Steady M N w' where
  knows n hn v hv := by
    rcases mem_placing_cases hP hn with hn | hn
    · exact Nat.lt_of_lt_of_le (h.knows n hn v hv) hw
    · exact hknows n hn v hv
  added n hn hM := by
    rcases mem_placing_cases hP hn with hn | hn
    · exact h.added n hn hM
    · exact ⟨hleaf n hn, hresult n hn⟩
  reaches v hv := by
    have hself : ∀ d : Node, d ∈ (Rewriting.placing p ns).image d := fun d => mem_image_placing.mpr (Or.inl rfl)
    refine reaches_rewrite hP hF fun n hn i hi hop => ?_
    rcases mem_image_placing.mp hi with rfl | ⟨hi, hhost⟩
    · obtain ⟨d, hd, hres, hscope⟩ := h.reaches v hv i hn hop
      exact Or.inl ⟨d, hd, hscope, d, hself d, hres⟩
    · rcases hreach n hn hhost i hi v hop hv with ⟨hres, hp⟩ | ⟨d, hd, hres, hscope⟩
      · obtain ⟨bs, cs, hsplit⟩ := List.append_of_mem hi
        refine Or.inr ⟨[], n, bs, cs, ?_, hres⟩
        rw [Rewriting.image_placing_of_hosts hhost hp, hsplit]
        rfl
      · exact Or.inl ⟨d, hd, hscope, d, hself d, hres⟩

theorem dropping {n : Node} (hn : n ∈ F.nodes)
    (hread : ∀ v, n.2.result? = some v → v.index < N → ∀ i ∈ F.nodes, v ∉ i.2.operands) :
    (F.rewrite (.dropping [n.1])).Steady M N w' where
  knows i hi v hv := Nat.lt_of_lt_of_le (h.knows i (mem_of_mem_dropping hP hi) v hv) hw
  added i hi hM := h.added i (mem_of_mem_dropping hP hi) hM
  reaches v hv := by
    refine reaches_rewrite hP hF fun i hi j hj hop => Or.inl ?_
    obtain rfl := eq_of_mem_image_dropping hj
    obtain ⟨d, hd, hres, hscope⟩ := h.reaches v hv j hi hop
    refine ⟨d, hd, hscope, d, ?_, hres⟩
    have hne : d.1 ≠ n.1 := by
      intro heq
      have hdn : d = n := List.inj_on_of_nodup_map hF hd hn heq
      exact hread v (hdn ▸ hres) hv j hi hop
    rw [(Rewriting.local_dropping _).image_of_notMem (by simpa using hne)]
    exact List.mem_singleton_self _

theorem rebinding {f : Use → ValueId → ValueId}
    (hf : ∀ use v, f use v = v ∨ (N ≤ (f use v).index ∧ (f use v).index < w')) :
    (F.rewrite (.rebinding f)).Steady M N w' := by
  have hsource : ∀ n' ∈ (F.rewrite (.rebinding f)).nodes,
      ∃ n ∈ F.nodes, n' = (n.1, n.2.mapOperands fun j => f ⟨n.1, j⟩) := by
    intro n' hn'
    obtain ⟨n, hn, hmem⟩ := (mem_nodes_rewrite hP).mp hn'
    rw [Rewriting.image_rebinding, List.mem_singleton] at hmem
    exact ⟨n, hn, hmem⟩
  have hoperand : ∀ (n : Node), ∀ v ∈ (n.2.mapOperands fun j => f ⟨n.1, j⟩).operands,
      v ∈ n.2.operands ∨ (N ≤ v.index ∧ v.index < w') := by
    intro n v hv
    rw [Instr.operands_mapOperands] at hv
    obtain ⟨j, hj, rfl⟩ := List.mem_mapIdx.mp hv
    rcases hf ⟨n.1, j⟩ n.2.operands[j] with heq | hnew
    · rw [heq]
      exact Or.inl (List.getElem_mem hj)
    · exact Or.inr hnew
  refine ⟨fun n' hn' v hv => ?_, fun n' hn' hM => ?_, fun v hvN => ?_⟩
  · obtain ⟨n, hn, rfl⟩ := hsource n' hn'
    rcases hoperand n v hv with hv | hv
    · exact Nat.lt_of_lt_of_le (h.knows n hn v hv) hw
    · exact hv.2
  · obtain ⟨n, hn, rfl⟩ := hsource n' hn'
    rw [Instr.region?_mapOperands, Instr.result?_mapOperands]
    exact h.added n hn hM
  · refine reaches_rewrite hP hF fun n hn n' hn' hop => Or.inl ?_
    rw [Rewriting.image_rebinding, List.mem_singleton] at hn'
    rw [hn'] at hop
    rcases hoperand n v hop with hop | hop
    · obtain ⟨d, hd, hres, hscope⟩ := h.reaches v hvN n hn hop
      refine ⟨d, hd, hscope, (d.1, d.2.mapOperands fun j => f ⟨d.1, j⟩), ?_, ?_⟩
      · rw [Rewriting.image_rebinding]
        exact List.mem_singleton_self _
      · rw [Instr.result?_mapOperands]
        exact hres
    · exact absurd hvN (Nat.not_lt.mpr hop.1)

end

end Steady
end Forest

structure Rotation.InPlace (rotation : Rotation) (F : Forest) (l : Loop) (n size : Nat) (rot : List Node)
    (k : Kernel) : Prop where
  rotates : Rotates F l n rot rotation.value
  ops : rotation.ops = rot.map Prod.fst
  live : ∀ i ∈ rot, k.instr? i.1 = some i.2
  fresh : ∀ i ∈ rot, ∀ v, i.2.result? = some v → size ≤ v.index
  distinct : (rot.filterMap fun i => i.2.result?).Nodup

namespace Kernel

variable {M N m : Nat} {k k' k₁ k₂ : Kernel} {F : Forest} {p : InsertPoint} {ns : List Node} {x : OpId}

/-- The kernel came from one with `M` ops and `N` values. -/
structure Grown (M N : Nat) (k : Kernel) (F : Forest) : Prop extends Stores k F where
  ops_le : M ≤ k.ops.size
  values_le : N ≤ k.values.size
  steady : F.Steady M N k.values.size

/-- Nothing is forgotten, and ops keep what they are apart from their operands. -/
structure Retains (k k' : Kernel) : Prop extends Extends k k' where
  sorts : ∀ x i', x.index < k.ops.size → k'.instr? x = some i' → ∃ i f, k.instr? x = some i ∧ i' = i.mapOperands f

/-- A change between two such kernels. Loops and the definitions of old values stay, and ops from id `m` on stay as
they are. -/
structure Evolves (M N m : Nat) (k k' : Kernel) : Prop extends Retains k k' where
  grown : ∃ F', Grown M N k' F'
  stays : ∀ x i, k.instr? x = some i → i.region? ≠ none ∨ (x.index < M ∧ i.result? ≠ none) →
    ∃ f, k'.instr? x = some (i.mapOperands f)
  recent : ∀ x i, m ≤ x.index → k.instr? x = some i → k'.instr? x = some i

def Leaf (k : Kernel) (x : OpId) : Prop := ∀ i, k.instr? x = some i → i.region? = none

def WasBarrier (k : Kernel) (x : OpId) : Prop := x.index < k.ops.size ∧ ∀ i, k.instr? x = some i → i = .barrier

/-- If the op is live it owns no region, and it has no result unless it was added. -/
def Loose (M N : Nat) (k : Kernel) (x : OpId) : Prop :=
  ∀ i, k.instr? x = some i → i.region? = none ∧ ∀ v, i.result? = some v → M ≤ x.index ∧ N ≤ v.index

theorem Loose.leaf (h : k.Loose M N x) : k.Leaf x := fun i hi => (h i hi).1

def AddedOp (M : Nat) (k : Kernel) (x : OpId) : Prop := M ≤ x.index ∧ x.index < k.ops.size

def AddedValue (N : Nat) (k : Kernel) (v : ValueId) : Prop := N ≤ v.index ∧ v.index < k.values.size

theorem AddedOp.extends (h : k.AddedOp M x) (hk : Extends k k') : k'.AddedOp M x :=
  ⟨h.1, Nat.lt_of_lt_of_le h.2 hk.ops⟩

theorem AddedValue.extends {v : ValueId} (h : k.AddedValue N v) (hk : Extends k k') : k'.AddedValue N v :=
  ⟨h.1, Nat.lt_of_lt_of_le h.2 hk.values⟩

theorem loose_of_region?_eq_none {i : Instr} (h : ∀ j, k.instr? x = some j → j = i) (hi : i.region? = none)
    (hres : i.result? = none) : k.Loose M N x := by
  intro j hj
  rw [h j hj]
  exact ⟨hi, fun v hv => by rw [hres] at hv; cases hv⟩

theorem exists_op?_of_insert {i : Instr} {id : OpId} (hp : p = .before x ∨ p = .after x)
    (hrun : Edit.insert i p k = .ok id k') : ∃ op, k.op? x = some op := by
  unfold Edit.insert at hrun
  cases hplace : k.resolve p with
  | error e =>
    rw [hplace] at hrun
    cases hrun
  | ok place =>
    rcases hp with rfl | rfl
    · obtain ⟨op, hop, -⟩ := except_bind_eq_ok hplace
      exact ⟨op, op?_of_getOp hop⟩
    · obtain ⟨op, hop, -⟩ := except_bind_eq_ok hplace
      exact ⟨op, op?_of_getOp hop⟩

theorem exists_op?_of_erase {u : Unit} (hrun : Edit.erase x k = .ok u k') : ∃ op, k.op? x = some op := by
  unfold Edit.erase at hrun
  split at hrun
  · cases hrun
  · rename_i op hop
    exact ⟨op, op?_of_getOp hop⟩

theorem Retains.refl (k : Kernel) : Retains k k :=
  { Extends.refl k with sorts := fun _ i' _ hi' => ⟨i', fun _ v => v, hi', i'.mapOperands_id.symm⟩ }

theorem Retains.trans (h : Retains k k₁) (h' : Retains k₁ k₂) : Retains k k₂ :=
  { h.toExtends.trans h'.toExtends with
    sorts := by
      intro x i₂ hx hi₂
      obtain ⟨i₁, g, hi₁, rfl⟩ := h'.sorts x i₂ (Nat.lt_of_lt_of_le hx h.ops) hi₂
      obtain ⟨i, f, hi, rfl⟩ := h.sorts x i₁ hx hi₁
      exact ⟨i, _, hi, Instr.mapOperands_mapOperands ..⟩ }

theorem Retains.loose (h : Retains k k') (hx : x.index < k.ops.size) (hloose : k.Loose M N x) : k'.Loose M N x := by
  intro i' hi'
  obtain ⟨i, f, hi, rfl⟩ := h.sorts x i' hx hi'
  rw [Instr.region?_mapOperands, Instr.result?_mapOperands]
  exact hloose i hi

theorem Retains.wasBarrier (h : Retains k k') (hx : k.WasBarrier x) : k'.WasBarrier x := by
  refine ⟨Nat.lt_of_lt_of_le hx.1 h.ops, fun i' hi' => ?_⟩
  obtain ⟨i, f, hi, rfl⟩ := h.sorts x i' hx.1 hi'
  rw [hx.2 i hi]
  rfl

theorem Arranges.wasBarrier (h : Arranges k F) (hx : (x, .barrier) ∈ F.nodes) : k.WasBarrier x :=
  ⟨h.index_lt (Forest.mem_ids_of_mem_nodes hx), fun _ hi => Forest.node_unique h.nodup (h.mem_nodes_iff.mpr hi) hx⟩

namespace Evolves

theorem refl (h : Grown M N k F) : Evolves M N m k k :=
  { Retains.refl k with
    grown := ⟨F, h⟩
    stays := fun _ i hi _ => ⟨fun _ v => v, by rw [Instr.mapOperands_id]; exact hi⟩
    recent := fun _ _ _ hi => hi }

theorem trans (h : Evolves M N m k k₁) (h' : Evolves M N m k₁ k₂) : Evolves M N m k k₂ :=
  { h.toRetains.trans h'.toRetains with
    grown := h'.grown
    stays := by
      intro x i hi hfixed
      obtain ⟨f, hf⟩ := h.stays x i hi hfixed
      obtain ⟨g, hg⟩ := h'.stays x _ hf (by rwa [Instr.region?_mapOperands, Instr.result?_mapOperands])
      exact ⟨_, by rw [hg, Instr.mapOperands_mapOperands]⟩
    recent := fun x i hx hi => h'.recent x i hx (h.recent x i hx hi) }

theorem of_spared (hk : Retains k k') (hG : ∃ F', Grown M N k' F') (hloose : k.Loose M N x) (hlt : x.index < m)
    (hspared : ∀ y i, y ≠ x → k.instr? y = some i → k'.instr? y = some i) : Evolves M N m k k' := by
  refine { hk with grown := hG, stays := ?_, recent := ?_ }
  · intro y i hi hfixed
    refine ⟨fun _ v => v, ?_⟩
    rw [Instr.mapOperands_id]
    refine hspared y i ?_ hi
    rintro rfl
    obtain ⟨hregion, hresult⟩ := hloose i hi
    rcases hfixed with hne | ⟨hM, hne⟩
    · exact hne hregion
    · obtain ⟨v, hv⟩ := Option.ne_none_iff_exists'.mp hne
      exact Nat.not_lt.mpr (hresult v hv).1 hM
  · intro y i hy hi
    refine hspared y i ?_ hi
    rintro rfl
    exact Nat.not_lt.mpr hy hlt

theorem loop? (h : Evolves M N m k k') {a : OpId} {l : Loop} (hl : k.loop? a = some l) :
    ∃ l', k'.loop? a = some l' := by
  obtain ⟨i, hi, hil⟩ := Option.bind_eq_some_iff.mp hl
  cases i <;> cases hil
  obtain ⟨f, hf⟩ := h.stays a _ hi (Or.inl nofun)
  exact ⟨_, Option.bind_eq_some_iff.mpr ⟨_, hf, rfl⟩⟩

theorem alloc? (h : Evolves M N m k k') {a : Alloc} (hx : x.index < M) (ha : k.alloc? x = some a) :
    k'.alloc? x = some a := by
  obtain ⟨i, hi, hia⟩ := Option.bind_eq_some_iff.mp ha
  cases i <;> cases hia
  obtain ⟨f, hf⟩ := h.stays x _ hi (Or.inr ⟨hx, nofun⟩)
  exact Option.bind_eq_some_iff.mpr ⟨_, hf, rfl⟩

end Evolves

namespace Grown

theorem loose (h : Grown M N k F) (hx : M ≤ x.index) : k.Loose M N x := fun _ hi =>
  have hadded := h.steady.added _ (h.mem_nodes_iff.mpr hi) hx
  ⟨hadded.1, fun v hv => ⟨hx, hadded.2 v hv⟩⟩

theorem places (h : Grown M N k F) (hk : Places k k' F p ns)
    (hknows : ∀ i ∈ ns, ∀ v ∈ i.2.operands, v.index < k'.values.size)
    (hreach : ∀ n ∈ F.nodes, Forest.Hosts n p → ∀ i ∈ ns, ∀ v ∈ i.2.operands, v.index < N →
      (n.2.result? = some v ∧ p ≠ .before n.1) ∨ ∃ d ∈ F.nodes, d.2.result? = some v ∧ F.InScope d.1 n.1) :
    Grown M N k' (F.rewrite (.placing p ns)) where
  toStores := hk.stores
  ops_le := Nat.le_trans h.ops_le hk.ops
  values_le := Nat.le_trans h.values_le hk.values
  steady := h.steady.placing h.plain h.nodup hk.values hk.leaf
    (fun i hi v hv => Nat.le_trans h.values_le (hk.results i hi v hv)) hknows hreach

theorem evolves_places (h : Grown M N k F) (hk : Places k k' F p ns)
    (hG : Grown M N k' (F.rewrite (.placing p ns))) : Evolves M N m k k' := by
  have hkept : ∀ x i, k.instr? x = some i → k'.instr? x = some i := fun x i hi =>
    hk.stores.mem_nodes_iff.mp (Forest.mem_placing h.plain (h.mem_nodes_iff.mpr hi))
  refine { hk.toExtends with grown := ⟨_, hG⟩, sorts := ?_, stays := ?_, recent := fun x i _ => hkept x i }
  · intro x i' hx hi'
    rcases Forest.mem_placing_cases h.plain (hk.stores.mem_nodes_iff.mpr hi') with hmem | hmem
    · exact ⟨i', fun _ v => v, h.mem_nodes_iff.mp hmem, i'.mapOperands_id.symm⟩
    · exact absurd hx (Nat.not_lt.mpr (hk.fresh _ hmem).1)
  · exact fun x i hi _ => ⟨fun _ v => v, by rw [Instr.mapOperands_id]; exact hkept x i hi⟩

theorem evolves_added (h : Grown M N k F) (hk : Places k k' F p ns)
    (hadded : ∀ i ∈ ns, ∀ v ∈ i.2.operands, k'.AddedValue N v) : Evolves M N m k k' := by
  refine h.evolves_places hk (h.places hk (fun i hi v hv => (hadded i hi v hv).2) ?_)
  intro n _ _ i hi v hv hlt
  exact absurd hlt (Nat.not_lt.mpr (hadded i hi v hv).1)

theorem anchors (h : Grown M N k F) (hx : k.Leaf x) (hp : p = .before x ∨ p = .after x) {i : Instr} {id : OpId}
    {t : ValueType} (hrun : Edit.insert i p k = .ok id k' ∨ Edit.insert i p (k.addValue t) = .ok id k') :
    F.Anchors p := by
  obtain ⟨op, hop⟩ : ∃ op, k.op? x = some op := hrun.elim (exists_op?_of_insert hp) (exists_op?_of_insert hp)
  have hinstr : k.instr? x = some op.instr := by rw [instr?, hop]; rfl
  have hanchor : ∃ i, (x, i) ∈ F.nodes ∧ i.region? = none := ⟨_, h.mem_nodes_iff.mpr hinstr, hx _ hinstr⟩
  rcases hp with rfl | rfl <;> exact hanchor

theorem allocateSlots (h : Grown M N k F) (hx : k.Leaf x) {ty : BufferType} {origin : Nat → SlotOrigin}
    {first count : Nat} {slots : List Slot}
    (hrun : Edit.allocateSlots ty origin first count (.after x) k = .ok slots k') :
    Evolves M N m k k' ∧ slots.length = count ∧ (slots.map Slot.value).Nodup ∧
      (∀ slot ∈ slots, k'.AddedOp M slot.alloc ∧ k'.AddedValue N slot.value) ∧
      ∀ slot ∈ slots, k.values.size ≤ slot.value.index := by
  cases count with
  | zero =>
    cases hrun
    exact ⟨.refl h, rfl, by simp, by simp, by simp⟩
  | succ count =>
    have hp : F.Anchors (.after x) := by
      obtain ⟨_, _, hvalue, hinsert⟩ := bind_eq_ok hrun
      cases hvalue
      obtain ⟨_, _, hinsert, -⟩ := bind_eq_ok hinsert
      exact h.anchors hx (Or.inr rfl) (Or.inr hinsert)
    obtain ⟨_, _, hrun', hk, hordinals⟩ := h.toStores.allocateSlots hp ty origin first (count + 1)
    rw [hrun] at hrun'
    cases hrun'
    have hnode : ∀ slot ∈ slots, (slot.alloc, .alloc { result := slot.value, ty }) ∈ allocNodes ty slots :=
      fun slot hslot => SlotSet.mem_allocNodes.mpr ⟨slot, hslot, rfl⟩
    have hmem : ∀ n ∈ allocNodes ty slots, n ∈ (F.rewrite (.placing (.after x) (allocNodes ty slots))).nodes :=
      fun n hn => hp.mem_placed h.plain hn
    refine ⟨h.evolves_added hk ?_, by simpa using congrArg List.length hordinals, ?_, fun slot hslot => ?_,
      fun slot hslot => hk.results _ (hnode slot hslot) _ rfl⟩
    · intro i hi v hv
      obtain ⟨slot, -, rfl⟩ := SlotSet.mem_allocNodes.mp hi
      cases hv
    · have hids := hk.nodup
      rw [allocNodes, List.map_map] at hids
      refine (List.Nodup.of_map _ hids).map_on fun s hs t ht heq => ?_
      have hsame := hk.stores.result_unique (hmem _ (hnode s hs)) (hmem _ (hnode t ht)) rfl (congrArg some heq.symm)
      exact List.inj_on_of_nodup_map hids hs ht (congrArg Prod.fst hsame)
    · have hn := hnode slot hslot
      exact ⟨⟨Nat.le_trans h.ops_le (hk.fresh _ hn).1, (hk.fresh _ hn).2⟩,
        Nat.le_trans h.values_le (hk.results _ hn _ rfl), hk.stores.result_lt (hmem _ hn) rfl⟩

theorem releaseSlots (h : Grown M N k F) (hx : k.Leaf x) (hp : p = .before x ∨ p = .after x) {slots : List Slot}
    (hslots : ∀ slot ∈ slots, k.AddedValue N slot.value) {ops : List OpId}
    (hrun : Edit.releaseSlots slots p k = .ok ops k') : Evolves M N m k k' ∧ ∀ op ∈ ops, k'.AddedOp M op := by
  cases slots with
  | nil =>
    cases hrun
    exact ⟨.refl h, by simp⟩
  | cons slot slots =>
    have hanchors : F.Anchors p := by
      obtain ⟨_, _, hinsert, -⟩ := bind_eq_ok hrun
      exact h.anchors hx hp (t := .index) (Or.inl hinsert)
    obtain ⟨_, _, hrun', hk, hlength⟩ := h.toStores.releaseSlots hanchors (slot :: slots)
    rw [hrun] at hrun'
    cases hrun'
    refine ⟨h.evolves_added hk ?_, ?_⟩
    · intro i hi v hv
      obtain ⟨j, slot', hslot', -, hdealloc⟩ := SlotSet.mem_releaseNodes.mp hi
      rw [hdealloc, Instr.operands, List.mem_singleton] at hv
      rw [hv]
      exact (hslots _ (List.mem_of_getElem? hslot')).extends hk.toExtends
    · intro op hop
      rw [← map_fst_releaseNodes hlength] at hop
      obtain ⟨n, hn, rfl⟩ := List.mem_map.mp hop
      exact ⟨Nat.le_trans h.ops_le (hk.fresh n hn).1, (hk.fresh n hn).2⟩

theorem selectAmong (h : Grown M N k F) (hx : k.Leaf x) {ty : BufferType} {slots : List Slot} {index : ValueId}
    (hslots : ∀ slot ∈ slots, k.AddedValue N slot.value) (hindex : k.AddedValue N index) {op : OpId}
    {result : ValueId} (hrun : Edit.selectAmong ty slots index (.after x) k = .ok (op, result) k') :
    Evolves M N m k k' ∧ (k.ops.size ≤ op.index ∧ op.index < k'.ops.size) ∧ k'.AddedValue N result ∧
      k'.instr? op = some (.selectSlot result (slots.map Slot.value) index) := by
  have hp : F.Anchors (.after x) := by
    obtain ⟨_, _, hvalue, hinsert⟩ := bind_eq_ok hrun
    cases hvalue
    obtain ⟨_, _, hinsert, -⟩ := bind_eq_ok hinsert
    exact h.anchors hx (Or.inr rfl) (Or.inr hinsert)
  obtain ⟨_, _, _, hrun', hk, -⟩ := h.toStores.selectAmong hp ty slots index
  rw [hrun] at hrun'
  cases hrun'
  have hmem : (op, .selectSlot result (slots.map Slot.value) index) ∈ (F.rewrite (.placing (.after x)
      [(op, .selectSlot result (slots.map Slot.value) index)])).nodes :=
    hp.mem_placed h.plain (List.mem_singleton_self _)
  refine ⟨h.evolves_added hk ?_, hk.fresh _ (List.mem_singleton_self _), ⟨?_, hk.stores.result_lt hmem rfl⟩,
    hk.stores.instr?_of_mem hmem⟩
  · intro i hi v hv
    rw [List.mem_singleton.mp hi, Instr.operands, List.mem_append, List.mem_singleton] at hv
    rcases hv with hv | rfl
    · obtain ⟨slot, hslot, rfl⟩ := List.mem_map.mp hv
      exact (hslots slot hslot).extends hk.toExtends
    · exact hindex.extends hk.toExtends
  · exact Nat.le_trans h.values_le (hk.results _ (List.mem_singleton_self _) _ rfl)

theorem evolves_dropping (h : Grown M N k F) {n : Node} (hn : n ∈ F.nodes) (hloose : k.Loose M N n.1)
    (hlt : n.1.index < m) (hk : Becomes k k' F (.dropping [n.1])) : Evolves M N m k k' := by
  have hsteady := h.steady.dropping h.plain h.nodup hk.values hn fun v hv hvN =>
    absurd hvN (Nat.not_lt.mpr ((hloose _ (h.instr?_of_mem hn)).2 v hv).2)
  refine Evolves.of_spared { hk.toExtends with sorts := ?_ }
    ⟨_, hk.stores, Nat.le_trans h.ops_le hk.ops, Nat.le_trans h.values_le hk.values, hsteady⟩ hloose hlt ?_
  · intro x i' _ hi'
    have hmem := Forest.mem_of_mem_dropping h.plain (hk.stores.mem_nodes_iff.mpr hi')
    exact ⟨i', fun _ v => v, h.mem_nodes_iff.mp hmem, i'.mapOperands_id.symm⟩
  · intro x i hx hi
    refine hk.stores.mem_nodes_iff.mp (Forest.mem_rewrite_of_mem_image h.plain (h.mem_nodes_iff.mpr hi) ?_)
    rw [(Rewriting.local_dropping _).image_of_notMem (by simpa using hx)]
    exact List.mem_singleton_self _

theorem erase (h : Grown M N k F) (hx : k.Loose M N x) (hlt : x.index < m) {u : Unit}
    (hrun : Edit.erase x k = .ok u k') : Evolves M N m k k' := by
  obtain ⟨op, hop⟩ := exists_op?_of_erase hrun
  obtain ⟨i, hi⟩ : ∃ i, (x, i) ∈ F.nodes := ⟨_, h.mem_nodes_iff.mpr (by rw [instr?, hop]; rfl)⟩
  obtain ⟨_, hrun', hk, -⟩ := h.toStores.becomes_dropping (List.nodup_singleton x) (by
    intro id hid
    rw [List.mem_singleton.mp hid]
    exact ⟨i, hi, hx.leaf i (h.mem_nodes_iff.mp hi)⟩)
  rw [Edit.eraseAll_singleton, hrun] at hrun'
  cases hrun'
  exact h.evolves_dropping hi hx hlt hk

theorem eraseAll (h : Grown M N k F) {ids : List OpId} (hids : ∀ x ∈ ids, M ≤ x.index ∧ x.index < m) {u : Unit}
    (hrun : Edit.eraseAll ids k = .ok u k') : Evolves M N m k k' := by
  induction ids generalizing k F with
  | nil =>
    cases hrun
    exact .refl h
  | cons x ids ih =>
    obtain ⟨_, k₁, herase, hrun⟩ := bind_eq_ok hrun
    obtain ⟨hM, hlt⟩ := hids x List.mem_cons_self
    have hev := h.erase (h.loose hM) hlt herase
    obtain ⟨F₁, hF₁⟩ := hev.grown
    exact hev.trans (ih hF₁ (fun y hy => hids y (List.mem_cons_of_mem _ hy)) hrun)

theorem evolves_rebinding (h : Grown M N k F) {f : Use → ValueId → ValueId} (hk : Becomes k k' F (.rebinding f))
    (hf : ∀ use v, f use v = v ∨ k'.AddedValue N (f use v)) (hrecent : ∀ use v, m ≤ use.user.index → f use v = v) :
    Evolves M N m k k' := by
  have hkept : ∀ y i, k.instr? y = some i → k'.instr? y = some (i.mapOperands fun j => f ⟨y, j⟩) := by
    intro y i hi
    refine hk.stores.mem_nodes_iff.mp ((Forest.mem_nodes_rewrite h.plain).mpr ⟨_, h.mem_nodes_iff.mpr hi, ?_⟩)
    rw [Rewriting.image_rebinding]
    exact List.mem_singleton_self _
  have hsteady := h.steady.rebinding h.plain h.nodup hk.values hf
  refine { hk.toExtends with
    grown := ⟨_, hk.stores, Nat.le_trans h.ops_le hk.ops, Nat.le_trans h.values_le hk.values, hsteady⟩
    sorts := ?_, stays := fun y i hi _ => ⟨_, hkept y i hi⟩, recent := ?_ }
  · intro y i' _ hi'
    obtain ⟨n, hn, hmem⟩ := (Forest.mem_nodes_rewrite h.plain).mp (hk.stores.mem_nodes_iff.mpr hi')
    rw [Rewriting.image_rebinding, List.mem_singleton, Prod.mk.injEq] at hmem
    rw [hmem.1, hmem.2]
    exact ⟨n.2, _, h.instr?_of_mem hn, rfl⟩
  · intro y i hy hi
    rw [hkept y i hi]
    have hsame : (fun j => f ⟨y, j⟩) = fun _ v => v := by
      funext j v
      exact hrecent ⟨y, j⟩ v hy
    rw [hsame, Instr.mapOperands_id]

theorem setOperand (h : Grown M N k F) {j : Nat} {v old : ValueId} (hv : k.AddedValue N v) (hlt : x.index < m)
    (hrun : Edit.setOperand x j v k = .ok old k') : Evolves M N m k k' := by
  obtain ⟨_, hrun', hk, -, -⟩ := h.toStores.redirect_one (h.mem_uses_of_setOperand hrun) v
  have hrun'' : Edit.setOperand x j v k = .ok old _ := hrun'
  rw [hrun] at hrun''
  cases hrun''
  refine h.evolves_rebinding hk (fun use w => ?_) fun use w huse => if_neg ?_
  · split
    · exact Or.inr (hv.extends hk.toExtends)
    · exact Or.inl rfl
  · rintro rfl
    exact Nat.not_lt.mpr huse hlt

theorem supplant (h : Grown M N k F) (hp : F.Anchors p) {i : Instr} (hleaf : i.region? = none)
    (hadded : ∀ v ∈ i.operands, k.AddedValue N v) {o : Node} (ho : o ∈ F.nodes) (hM : M ≤ o.1.index)
    (hlt : o.1.index < m) {v : ValueId} (hv : i.result? = some v) (hov : o.2.result? = some v) :
    ∃ k₁ k', Edit.insert i p k = .ok k.nextOp k₁ ∧ Edit.erase o.1 k₁ = .ok () k' ∧ Evolves M N m k k' ∧
      k.ops.size < k'.ops.size ∧ k'.instr? k.nextOp = some i := by
  obtain ⟨hoLeaf, hoResult⟩ := h.steady.added o ho hM
  obtain ⟨k₁, k', hinsert, herase, hstores, hext, hsize⟩ := h.toStores.supplant hp hleaf ho hoLeaf hv hov
  obtain ⟨_, hinsert', harr, -, -⟩ := h.toArranges.insert hp hleaf
  rw [hinsert] at hinsert'
  cases hinsert'
  have hspared : ∀ {n : Node}, n ∈ (F.rewrite (.placing p [(k.nextOp, i)])).nodes → n.1 ≠ o.1 →
      k'.instr? n.1 = some n.2 := by
    intro n hn hne
    refine hstores.instr?_of_mem (Forest.mem_rewrite_of_mem_image harr.plain hn ?_)
    rw [(Rewriting.local_dropping _).image_of_notMem (by simpa using hne)]
    exact List.mem_singleton_self _
  have hplaced : (F.rewrite (.placing p [(k.nextOp, i)])).Steady M N k'.values.size := by
    refine h.steady.placing h.plain h.nodup hext.values ?_ ?_ ?_ ?_
    · simpa using hleaf
    · intro n hn w hw
      rw [List.mem_singleton.mp hn, hv] at hw
      cases hw
      exact hoResult v hov
    · intro n hn w hw
      rw [List.mem_singleton.mp hn] at hw
      exact ((hadded w hw).extends hext).2
    · intro _ _ _ n hn w hw hwN
      rw [List.mem_singleton.mp hn] at hw
      exact absurd hwN (Nat.not_lt.mpr (hadded w hw).1)
  have hsteady := hplaced.dropping harr.plain harr.nodup (Nat.le_refl _) (Forest.mem_placing h.plain ho)
    fun w hw hwN => absurd hwN (Nat.not_lt.mpr (hoResult w hw))
  refine ⟨k₁, k', hinsert, herase, Evolves.of_spared { hext with sorts := ?_ }
    ⟨_, hstores, Nat.le_trans h.ops_le hext.ops, Nat.le_trans h.values_le hext.values, hsteady⟩ (h.loose hM) hlt ?_,
    hsize, ?_⟩
  · intro y i' hy hi'
    have hmem := Forest.mem_of_mem_dropping harr.plain (hstores.mem_nodes_iff.mpr hi')
    rcases Forest.mem_placing_cases h.plain hmem with hmem | hmem
    · exact ⟨i', fun _ v => v, h.mem_nodes_iff.mp hmem, i'.mapOperands_id.symm⟩
    · rw [List.mem_singleton, Prod.mk.injEq] at hmem
      rw [hmem.1] at hy
      exact absurd hy (Nat.lt_irrefl _)
  · intro y j hne hj
    have hmem : (y, j) ∈ (F.rewrite (.placing p [(k.nextOp, i)])).nodes :=
      Forest.mem_placing h.plain (h.mem_nodes_iff.mpr hj)
    exact hspared hmem hne
  · have hmem : (k.nextOp, i) ∈ (F.rewrite (.placing p [(k.nextOp, i)])).nodes :=
      hp.mem_placed h.plain (List.mem_singleton_self _)
    refine hspared hmem fun heq => h.nextOp_notMem ?_
    have heq' : k.nextOp = o.1 := heq
    rw [heq']
    exact Forest.mem_ids_of_mem_nodes ho

theorem moveSelector (h : Grown M N k F) (hx : k.Leaf x) {set : SlotSet} (hM : M ≤ set.selector.index)
    (hlt : set.selector.index < m) (hold : set.selector.index < k.ops.size)
    (hselects : ∀ i, k.instr? set.selector = some i → i.result? = some set.selected) {slots : List Slot}
    {index : ValueId} (hslots : ∀ slot ∈ slots, k.AddedValue N slot.value) (hindex : k.AddedValue N index)
    {op : OpId} (hrun : Edit.moveSelector set slots index (.after x) k = .ok op k') :
    Evolves M N m k k' ∧ (k.ops.size ≤ op.index ∧ op.index < k'.ops.size) ∧
      k'.instr? op = some (.selectSlot set.selected (slots.map Slot.value) index) := by
  obtain ⟨id, k₁, hinsert, hrun⟩ := bind_eq_ok hrun
  obtain ⟨_, _, herase, hrun⟩ := bind_eq_ok hrun
  cases hrun
  have hp : F.Anchors (.after x) := h.anchors hx (Or.inr rfl) (t := .index) (Or.inl hinsert)
  -- the old selector is there when it is erased, and the insertion did not make it
  obtain ⟨i, hi⟩ : ∃ i, (set.selector, i) ∈ F.nodes := by
    obtain ⟨_, hinsert', harr, -, -⟩ := h.toArranges.insert hp
      (show (Instr.selectSlot set.selected (slots.map Slot.value) index).region? = none from rfl)
    rw [hinsert] at hinsert'
    cases hinsert'
    obtain ⟨o, ho⟩ := exists_op?_of_erase herase
    have hinstr : k₁.instr? set.selector = some o.instr := by rw [instr?, ho]; rfl
    rcases Forest.mem_placing_cases h.plain (harr.mem_nodes_iff.mpr hinstr) with hmem | hmem
    · exact ⟨_, hmem⟩
    · rw [List.mem_singleton, Prod.mk.injEq] at hmem
      rw [hmem.1] at hold
      exact absurd hold (Nat.lt_irrefl _)
  have hadded : ∀ v ∈ (Instr.selectSlot set.selected (slots.map Slot.value) index).operands, k.AddedValue N v := by
    intro v hv
    rw [Instr.operands, List.mem_append, List.mem_singleton] at hv
    rcases hv with hv | rfl
    · obtain ⟨slot, hslot, rfl⟩ := List.mem_map.mp hv
      exact hslots slot hslot
    · exact hindex
  obtain ⟨_, _, hinsert', herase', hev, hsize, hnew⟩ :=
    h.supplant hp rfl hadded hi hM hlt rfl (hselects i (h.mem_nodes_iff.mp hi))
  rw [hinsert] at hinsert'
  cases hinsert'
  rw [herase] at herase'
  cases herase'
  exact ⟨hev, ⟨Nat.le_refl _, hsize⟩, hnew⟩

theorem regroupRelease (h : Grown M N k F) {target : Nat} {added : List Slot}
    (hadded : ∀ slot ∈ added, k.AddedValue N slot.value) {ops ops' : List OpId}
    (hold : ∀ x ∈ ops, k.AddedOp M x ∧ x.index < m) (hrun : Edit.regroupRelease target added ops k = .ok ops' k') :
    Evolves M N m k k' ∧ ∀ x ∈ ops', k'.AddedOp M x := by
  obtain ⟨_, k₁, herase, hrun⟩ := bind_eq_ok hrun
  have hev₁ : Evolves M N m k k₁ := h.eraseAll (fun x hx => by
    obtain ⟨hx, hlt⟩ := hold x (List.mem_of_mem_drop hx)
    exact ⟨hx.1, hlt⟩) herase
  obtain ⟨F₁, hF₁⟩ := hev₁.grown
  cases hlast : ops.getLast? with
  | none =>
    rw [hlast] at hrun
    cases hrun
    exact ⟨hev₁, by simp⟩
  | some last =>
    rw [hlast] at hrun
    obtain ⟨new, _, hnew, hrun⟩ := bind_eq_ok hrun
    cases hrun
    obtain ⟨hev₂, hfresh⟩ := hF₁.releaseSlots (hF₁.loose (hold last (List.mem_of_getLast? hlast)).1.1).leaf
      (Or.inr rfl) (fun slot hslot => (hadded slot hslot).extends hev₁.toExtends) hnew
    refine ⟨hev₁.trans hev₂, fun x hx => ?_⟩
    rcases List.mem_append.mp hx with hx | hx
    · exact (hold x (List.mem_of_mem_take hx)).1.extends (hev₁.trans hev₂).toExtends
    · exact hfresh x hx

theorem regroupReleases (h : Grown M N k F) {target : Nat} {added : List Slot}
    (hadded : ∀ slot ∈ added, k.AddedValue N slot.value) {releases releases' : List (List OpId)}
    (hold : ∀ x ∈ releases.flatten, k.AddedOp M x ∧ x.index < m)
    (hrun : Edit.regroupReleases target added releases k = .ok releases' k') :
    Evolves M N m k k' ∧ ∀ x ∈ releases'.flatten, k'.AddedOp M x := by
  induction releases generalizing k F releases' with
  | nil =>
    cases hrun
    exact ⟨.refl h, by simp⟩
  | cons ops releases ih =>
    rw [List.flatten_cons] at hold
    obtain ⟨ops', k₁, hrun₁, hrun⟩ := bind_eq_ok hrun
    obtain ⟨rest, k₂, hrun₂, hrun⟩ := bind_eq_ok hrun
    cases hrun
    obtain ⟨hev₁, hops⟩ := h.regroupRelease hadded (fun x hx => hold x (List.mem_append_left _ hx)) hrun₁
    obtain ⟨F₁, hF₁⟩ := hev₁.grown
    obtain ⟨hev₂, hrest⟩ := ih hF₁ (fun slot hslot => (hadded slot hslot).extends hev₁.toExtends) (fun x hx => by
      obtain ⟨hx, hlt⟩ := hold x (List.mem_append_right _ hx)
      exact ⟨hx.extends hev₁.toExtends, hlt⟩) hrun₂
    refine ⟨hev₁.trans hev₂, fun x hx => ?_⟩
    rw [List.flatten_cons] at hx
    rcases List.mem_append.mp hx with hx | hx
    · exact (hops x hx).extends hev₂.toExtends
    · exact hrest x hx

theorem replaceReleases (h : Grown M N k F) {slots : List Slot} (hslots : ∀ slot ∈ slots, k.AddedValue N slot.value)
    {releases releases' : List (List OpId)} (hold : ∀ x ∈ releases.flatten, M ≤ x.index ∧ x.index < m)
    (hrun : Edit.replaceReleases slots releases k = .ok releases' k') :
    Evolves M N m k k' ∧ ∀ x ∈ releases'.flatten, k'.AddedOp M x := by
  induction releases generalizing k F releases' with
  | nil =>
    cases hrun
    exact ⟨.refl h, by simp⟩
  | cons ops releases ih =>
    rw [List.flatten_cons] at hold
    cases ops with
    | nil => exact ih h hslots hold hrun
    | cons old olds =>
      obtain ⟨ops', k₁, hrun₁, hrun⟩ := bind_eq_ok hrun
      obtain ⟨_, k₂, hrun₂, hrun⟩ := bind_eq_ok hrun
      obtain ⟨rest, k₃, hrun₃, hrun⟩ := bind_eq_ok hrun
      cases hrun
      obtain ⟨hev₁, hops⟩ := h.releaseSlots (h.loose (hold old (by simp)).1).leaf (Or.inl rfl) hslots hrun₁
      obtain ⟨F₁, hF₁⟩ := hev₁.grown
      have hev₂ := hF₁.eraseAll (fun x hx => hold x (List.mem_append_left _ hx)) hrun₂
      obtain ⟨F₂, hF₂⟩ := hev₂.grown
      obtain ⟨hev₃, hrest⟩ := ih hF₂
        (fun slot hslot => (hslots slot hslot).extends (hev₁.trans hev₂).toExtends)
        (fun x hx => hold x (List.mem_append_right _ hx)) hrun₃
      refine ⟨hev₁.trans (hev₂.trans hev₃), fun x hx => ?_⟩
      rw [List.flatten_cons] at hx
      rcases List.mem_append.mp hx with hx | hx
      · exact (hops x hx).extends (hev₂.trans hev₃).toExtends
      · exact hrest x hx

theorem splitReleases (h : Grown M N k F) {slots : List Slot} (hslots : ∀ slot ∈ slots, k.AddedValue N slot.value)
    {uses : List Use} {releases : List (List OpId)}
    (hold : ∀ use ∈ uses, k.Loose M N use.user ∧ use.user.index < k.ops.size ∧ use.user.index < m)
    (hrun : Edit.splitReleases slots uses k = .ok releases k') :
    Evolves M N m k k' ∧ ∀ x ∈ releases.flatten, k'.AddedOp M x := by
  induction uses generalizing k F releases with
  | nil =>
    cases hrun
    exact ⟨.refl h, by simp⟩
  | cons use uses ih =>
    obtain ⟨ops, k₁, hrun₁, hrun⟩ := bind_eq_ok hrun
    obtain ⟨_, k₂, hrun₂, hrun⟩ := bind_eq_ok hrun
    obtain ⟨rest, k₃, hrun₃, hrun⟩ := bind_eq_ok hrun
    cases hrun
    obtain ⟨hloose, hlt, hltm⟩ := hold use List.mem_cons_self
    obtain ⟨hev₁, hops⟩ := h.releaseSlots (m := m) hloose.leaf (Or.inl rfl) hslots hrun₁
    obtain ⟨F₁, hF₁⟩ := hev₁.grown
    have hev₂ := hF₁.erase (hev₁.loose hlt hloose) hltm hrun₂
    obtain ⟨F₂, hF₂⟩ := hev₂.grown
    have hev₁₂ := hev₁.trans hev₂
    obtain ⟨hev₃, hrest⟩ := ih hF₂ (fun slot hslot => (hslots slot hslot).extends hev₁₂.toExtends)
      (fun use' huse' => by
        obtain ⟨hloose', hlt', hltm'⟩ := hold use' (List.mem_cons_of_mem _ huse')
        exact ⟨hev₁₂.loose hlt' hloose', Nat.lt_of_lt_of_le hlt' hev₁₂.ops, hltm'⟩) hrun₃
    refine ⟨hev₁₂.trans hev₃, fun x hx => ?_⟩
    rw [List.flatten_cons] at hx
    rcases List.mem_append.mp hx with hx | hx
    · exact (hops x hx).extends (hev₂.trans hev₃).toExtends
    · exact hrest x hx

/-- The ops of an index read what their loop reads, which is in scope wherever it is in scope at the loop. -/
theorem computing (h : Grown M N k F) {a : OpId} {l : Loop} (hl : (a, .loop l) ∈ F.nodes)
    (hp : Prepares k k₁ F a l p ns) {rot : List Node} {v : ValueId} (hrot : Computes l rot v)
    (hk : Places k k₂ F p (ns ++ rot)) : Grown M N k₂ (F.rewrite (.placing p (ns ++ rot))) := by
  have hoperand : ∀ i ∈ ns ++ rot, ∀ v ∈ i.2.operands,
      v = l.induction ∨ (v = l.lower ∨ v = l.step) ∨ ∃ d ∈ ns ++ rot, d.2.result? = some v := by
    intro i hi v hv
    rcases List.mem_append.mp hi with hi | hi
    · rw [hp.barriers i hi] at hv
      cases hv
    · obtain ⟨as, bs, hsplit⟩ := List.append_of_mem hi
      rcases hrot.operands as i bs hsplit v hv with hv | hv | hv | ⟨d, hd, hres⟩
      · exact Or.inl hv
      · exact Or.inr (Or.inl (Or.inl hv))
      · exact Or.inr (Or.inl (Or.inr hv))
      · exact Or.inr (Or.inr ⟨d, List.mem_append_right _ (by rw [hsplit]; exact List.mem_append_left _ hd), hres⟩)
  have hbound : ∀ v, v = l.lower ∨ v = l.step → v ∈ (Instr.loop l).operands := by
    rintro v (rfl | rfl) <;> simp [Instr.operands]
  refine h.places hk (fun i hi v hv => ?_) fun host hhost hhosts i hi v hv hvN => ?_
  · rcases hoperand i hi v hv with rfl | hv | ⟨d, hd, hres⟩
    · exact Nat.lt_of_lt_of_le (h.result_lt hl rfl) hk.values
    · exact Nat.lt_of_lt_of_le (h.steady.knows _ hl v (hbound v hv)) hk.values
    · exact hk.stores.result_lt ((hp.opens.anchors hl).mem_placed h.plain hd) hres
  · -- the host of the point is the loop or the barrier that leads its body
    have hcases := hp.opens.host_cases h.toArranges hl hhost hhosts
    rcases hoperand i hi v hv with rfl | hv | ⟨d, hd, hres⟩
    · rcases hcases with heq | hlead
      · have hhost' : host = (a, .loop l) := List.inj_on_of_nodup_map h.nodup hhost hl heq
        exact Or.inl ⟨by rw [hhost']; rfl, hp.opens.ne_before host.1⟩
      · exact Or.inr ⟨_, hl, rfl, hlead.child.inScope h.nodup⟩
    · obtain ⟨d, hd, hres, hscope⟩ := h.steady.reaches v hvN _ hl (hbound v hv)
      rcases hcases with heq | hlead
      · exact Or.inr ⟨d, hd, hres, heq ▸ hscope⟩
      · exact Or.inr ⟨d, hd, hres, hscope.trans h.nodup (hlead.child.inScope h.nodup)⟩
    · exact absurd hvN (Nat.not_lt.mpr (Nat.le_trans h.values_le (hk.results d hd v hres)))

theorem deriveRotation (h : Grown M N k F) {a : OpId} {l : Loop} (hl : (a, .loop l) ∈ F.nodes)
    (hp : Prepares k k₁ F a l p ns) {n : Nat} {top : InsertPoint} {rotation : Rotation} {s s' : Transform.State}
    (hs : s.kernel = k₁) (htop : s.kernel.bodyTop a = .ok top)
    (hrun : Transform.deriveRotation a n top s = .ok rotation s') :
    Evolves M N m k s'.kernel ∧ s'.kernel.AddedValue N rotation.value ∧
      (∀ x ∈ rotation.ops, k.ops.size ≤ x.index ∧ s'.kernel.AddedOp M x) ∧
      (∀ i ∈ ns, i.1.index < s'.kernel.ops.size ∧ s'.kernel.instr? i.1 = some i.2) ∧
      (∃ x ∈ rotation.ops, top.past rotation.ops = .after x) ∧
      ∃ rot, rotation.InPlace F l n k.values.size rot s'.kernel := by
  rw [hs, hp.bodyTop_eq h.toStores hl] at htop
  cases htop
  obtain ⟨_, rot, k₂, hdoes, hk, hrotates, hops, -⟩ :=
    hp.deriveRotation h.toStores hl (Transform.le_of_deriveRotation hrun)
  obtain ⟨rfl, hs'⟩ := hdoes.unique hs hrun
  rw [hs']
  have hmem : ∀ i ∈ ns ++ rot, i ∈ (F.rewrite (.placing p (ns ++ rot))).nodes := fun i hi =>
    (hp.opens.anchors hl).mem_placed h.plain hi
  have hright : ∀ i ∈ rot, i ∈ ns ++ rot := fun i hi => List.mem_append_right _ hi
  obtain ⟨d, hd, hres⟩ := hrotates.computes.value
  refine ⟨h.evolves_places hk (h.computing hl hp hrotates.computes hk), ⟨?_, ?_⟩, fun x hx => ?_, fun i hi => ?_, ?_,
    rot, ⟨hrotates, hops, ?_, ?_, ?_⟩⟩
  · exact Nat.le_trans h.values_le (hk.results d (hright d hd) _ hres)
  · exact hk.stores.result_lt (hmem d (hright d hd)) hres
  · rw [hops] at hx
    obtain ⟨i, hi, rfl⟩ := List.mem_map.mp hx
    obtain ⟨hle, hlt⟩ := hk.fresh i (hright i hi)
    exact ⟨hle, Nat.le_trans h.ops_le hle, hlt⟩
  · have hi' := List.mem_append_left rot hi
    exact ⟨(hk.fresh i hi').2, hk.stores.instr?_of_mem (hmem i hi')⟩
  · have hne : rotation.ops ≠ [] := by
      rw [hops]
      exact List.ne_nil_of_mem (List.mem_map_of_mem hd)
    refine ⟨rotation.ops.getLast hne, List.getLast_mem hne, ?_⟩
    rw [InsertPoint.past, List.getLast?_eq_getLast_of_ne_nil hne]
    rfl
  · exact fun i hi => hk.stores.instr?_of_mem (hmem i (hright i hi))
  · exact fun i hi v hv => hk.results i (hright i hi) v hv
  · exact hk.stores.nodup_results (fun i hi => hmem i (hright i hi))
      (hk.nodup.of_map.sublist (List.sublist_append_right ..))

end Grown
end Kernel
end SlotRotation
