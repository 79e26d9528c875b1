import Mathlib.Logic.Relation
import SlotRotation.Proofs.Building
import SlotRotation.Proofs.Edits.Graft
import SlotRotation.Proofs.Edits.Prune
import SlotRotation.Proofs.Edits.Sequence

/-! The nesting of a kernel is stored four times over: in the region lists, in the ops, in the owners of the regions
and in the loops. Whatever is inserted at a place that is live, erased or made to read something else, all four
agree, and both ways of following them come to an end. -/

namespace SlotRotation

theorem Forest.Holds.mem_bodies {F B : Forest} {a : OpId} {l : Loop} (h : F.Holds a l B) : l.body ∈ F.bodies := by
  induction F with
  | nil => exact h.elim
  | op id i rest ih => exact ih h
  | loop id m body rest ihb ihr =>
    simp only [bodies, List.mem_cons, List.mem_append]
    rcases h with ⟨rfl, rfl, rfl⟩ | h | h
    · exact Or.inl rfl
    · exact Or.inr (Or.inl (ihb h))
    · exact Or.inr (Or.inr (ihr h))

theorem Forest.Level.mem_bodies {F G : Forest} {r : RegionId} (h : F.Level r G) :
    r = Kernel.body ∨ r ∈ F.bodies := by
  rcases h with ⟨rfl, -⟩ | ⟨a, l, hB, rfl⟩
  · exact Or.inl rfl
  · exact Or.inr hB.mem_bodies

namespace Kernel

variable {k k' : Kernel} {F : Forest} {r : RegionId}

/-- What a list names is live in its own region or not at all. Lists of erased loops count too. -/
def Homed (k : Kernel) : Prop :=
  ∀ r, ∀ id ∈ k.regionOps r, id.index < k.ops.size ∧ ∀ op, k.op? id = some op → op.region = r

theorem Homed.addValue (h : k.Homed) (ty : ValueType) : (k.addValue ty).Homed := h

theorem region?_addRegion (k : Kernel) (r : RegionId) :
    k.addRegion.region? r = if r.index = k.regions.size then some {} else k.region? r := by
  simp only [region?, addRegion, Array.getElem?_push]

theorem regionOps_addRegion (k : Kernel) (r : RegionId) : k.addRegion.regionOps r = k.regionOps r := by
  rw [regionOps, region?_addRegion, regionOps]
  split
  · rename_i hr
    have hnone : k.region? r = none := by simp [region?, hr]
    rw [hnone]
    rfl
  · rfl

theorem Homed.addRegion (h : k.Homed) : k.addRegion.Homed := by
  intro r id hid
  rw [regionOps_addRegion] at hid
  exact h r id hid

theorem Homed.append (h : k.Homed) (i : Instr) (r : RegionId) : (k.append i r).Homed := by
  intro s id hid
  have hmem : id ∈ k.regionOps s ∨ id = k.nextOp ∧ s = r := by
    rw [regionOps, region?_append] at hid
    cases hs : k.region? s with
    | none => simp [hs] at hid
    | some region =>
      rw [hs] at hid
      change id ∈ (if s = r then region.ops ++ [k.nextOp] else region.ops) at hid
      rw [regionOps, hs]
      split at hid
      · rename_i hsr
        exact (List.mem_append.mp hid).imp_right fun hid => ⟨List.mem_singleton.mp hid, hsr⟩
      · exact Or.inl hid
  rw [size_ops_append]
  rcases hmem with hmem | ⟨rfl, rfl⟩
  · obtain ⟨hlt, hop⟩ := h s id hmem
    refine ⟨Nat.lt_succ_of_lt hlt, fun op hid => hop op ?_⟩
    rw [op?_append, if_neg] at hid
    · exact hid
    · rintro rfl
      exact Nat.lt_irrefl _ hlt
  · refine ⟨Nat.lt_succ_self _, fun op hid => ?_⟩
    rw [op?_append, if_pos rfl] at hid
    cases hid
    rfl

mutual

theorem emit_homed : ∀ (stmt : Stmt) (k : Kernel) (r : RegionId), k.Homed → (emit r stmt k).1.Homed
  | .constant _, _, _, h | .arith .., _, _, h | .alloc .., _, _, h | .load .., _, _, h => (h.addValue _).append _ _
  | .dealloc _, _, _, h | .store .., _, _, h | .fill .., _, _, h | .copy .., _, _, h | .compute .., _, _, h
  | .barrier, _, _, h | .ret, _, _, h => h.append _ _
  | .loop _ _ _ _ stmts, k, _, h =>
    have hbody := emitAll_homed stmts (k.addRegion.addValue .index) ⟨k.regions.size⟩ (h.addRegion.addValue _)
    (hbody.append _ _).append _ _

theorem emitAll_homed : ∀ (stmts : List Stmt) (k : Kernel) (r : RegionId), k.Homed → (emitAll r stmts k).1.Homed
  | [], _, _, h => h
  | stmt :: stmts, k, r, h => emitAll_homed stmts (emit r stmt k).1 r (emit_homed stmt k r h)

end

theorem build_homed (name : String) (location : Location) (stmts : List Stmt) :
    (build name location stmts).Homed := by
  refine emitAll_homed stmts _ _ fun r id hid => ?_
  have hempty : ({ name, location } : Kernel).regionOps r = [] := by
    rcases r with ⟨_ | n⟩ <;> rfl
  rw [hempty] at hid
  cases hid

/-- A place that is live: next to a live op, or at an end of the list of the kernel or of a live loop. -/
def Stands (k : Kernel) : InsertPoint → Prop
  | .before a | .after a => k.isLive a
  | .first r | .last r => r = body ∨ ∃ a l, k.loop? a = some l ∧ l.body = r

/-- One change that builds on what is live. A loop is inserted with a region that no loop has taken yet. -/
inductive Edited : Kernel → Kernel → Prop
  | newValue {k k' : Kernel} {v : ValueId} (ty : ValueType) : Edit.newValue ty k = .ok v k' → Edited k k'
  | newRegion {k k' : Kernel} {r : RegionId} : Edit.newRegion k = .ok r k' → Edited k k'
  | insert {k k' : Kernel} {i : Instr} {point : InsertPoint} {id : OpId} : i.region? = none → k.Stands point →
    Edit.insert i point k = .ok id k' → Edited k k'
  | insertLoop {k k' : Kernel} {l : Loop} {point : InsertPoint} {id : OpId} : k.Vacant l.body → k.Stands point →
    Edit.insert (.loop l) point k = .ok id k' → Edited k k'
  | erase {k k' : Kernel} {id : OpId} : Edit.erase id k = .ok () k' → Edited k k'
  | setOperand {k k' : Kernel} {old : ValueId} (user : OpId) (operand : Nat) (value : ValueId) :
    Edit.setOperand user operand value k = .ok old k' → Edited k k'

theorem Arranges.level_of_loop? (h : Arranges k F) (hr : r = body ∨ ∃ a l, k.loop? a = some l ∧ l.body = r) :
    ∃ G, F.Level r G := by
  rcases hr with rfl | ⟨a, l, hl, rfl⟩
  · exact ⟨F, Or.inl ⟨rfl, rfl⟩⟩
  · obtain ⟨B, hB⟩ := Forest.exists_holds h.plain (h.loop?_eq_some_iff.mp hl)
    exact ⟨B, Or.inr ⟨a, l, hB, rfl⟩⟩

theorem Arranges.resolve_stands (h : Arranges k F) {p : InsertPoint} (hp : k.Stands p) :
    ∃ r m, k.resolve p = .ok (r, m) ∧ (r = body ∨ r ∈ F.bodies) ∧ m ≤ (k.regionOps r).length := by
  have hanchor : ∀ {a}, k.isLive a → ∃ r G i, F.Level r G ∧ k.op? a = some ⟨i, r⟩ ∧
      k.position? a = some (G.tops.idxOf a) ∧ G.tops.idxOf a < G.tops.length := by
    intro a ha
    obtain ⟨r, G, hG, haG⟩ := Forest.exists_level (h.isLive_iff.mp ha)
    obtain ⟨i, hi⟩ := (h.placed_level hG).op?_of_mem_tops haG
    exact ⟨r, G, i, hG, hi, h.position?_level hG haG, List.idxOf_lt_length_of_mem haG⟩
  have hend : ∀ {r}, (r = body ∨ ∃ a l, k.loop? a = some l ∧ l.body = r) →
      ∃ region, k.region? r = some region ∧ (r = body ∨ r ∈ F.bodies) := by
    intro r hr
    obtain ⟨G, hG⟩ := h.level_of_loop? hr
    have hmem := hG.mem_bodies
    obtain ⟨region, hregion⟩ := Option.isSome_iff_exists.mp (hmem.elim (· ▸ h.rooted) h.placed.mem_bodies)
    exact ⟨region, hregion, hmem⟩
  cases p with
  | before a =>
    obtain ⟨r, G, i, hG, hop, hpos, hlt⟩ := hanchor hp
    refine ⟨r, G.tops.idxOf a, ?_, hG.mem_bodies, by rw [h.regionOps_level hG]; exact Nat.le_of_lt hlt⟩
    simp [Kernel.resolve, getOp, getPosition, hop, hpos, bind, Except.bind, pure, Except.pure]
  | after a =>
    obtain ⟨r, G, i, hG, hop, hpos, hlt⟩ := hanchor hp
    refine ⟨r, G.tops.idxOf a + 1, ?_, hG.mem_bodies, by rw [h.regionOps_level hG]; exact hlt⟩
    simp [Kernel.resolve, getOp, getPosition, hop, hpos, bind, Except.bind, pure, Except.pure]
  | first r =>
    obtain ⟨region, hregion, hmem⟩ := hend hp
    refine ⟨r, 0, ?_, hmem, Nat.zero_le _⟩
    simp [Kernel.resolve, getRegion, hregion, bind, Except.bind, pure, Except.pure]
  | last r =>
    obtain ⟨region, hregion, hmem⟩ := hend hp
    refine ⟨r, region.ops.length, ?_, hmem, Nat.le_of_eq (by simp [regionOps, hregion])⟩
    simp [Kernel.resolve, getRegion, hregion, bind, Except.bind, pure, Except.pure]

theorem grafts_place (k : Kernel) (i : Instr) (hr : (k.region? r).isSome)
    (hregion : ∀ s, i.region? = some s → (k.region? s).isSome) (m : Nat) :
    Grafts k (((k.define i k.nextOp).own i k.nextOp).place i r m) (k.nextOp, i) r m := by
  have hnext : ((k.define i k.nextOp).own i k.nextOp).nextOp = k.nextOp := by simp [nextOp]
  have hdefine : ∀ s, (k.define i k.nextOp).region? s = k.region? s := by simp [region?]
  refine ⟨fun x => ?_, fun s => ?_, fun s => ?_⟩
  · rw [op?_place, hnext]
    simp [op?]
  · rw [regionOps, region?_place, region?_own, hdefine, hnext, regionOps]
    by_cases hs : s = r
    · subst hs
      obtain ⟨region, hsome⟩ := Option.isSome_iff_exists.mp hr
      simp only [hsome, if_true]
      split <;> rfl
    · rw [if_neg hs, if_neg hs]
      split <;> cases k.region? s <;> rfl
  · rw [owner?_place, owner?, region?_own, hdefine]
    split
    · rename_i hs
      obtain ⟨region, hsome⟩ := Option.isSome_iff_exists.mp (hregion s hs)
      simp [hsome]
    · rfl

theorem Homed.graft (h : k.Homed) {n : Node} {m : Nat} (hk : Grafts k k' n r m) (hid : n.1 = k.nextOp)
    (hsize : k'.ops.size = k.ops.size + 1) (hm : m ≤ (k.regionOps r).length) : k'.Homed := by
  intro s x hx
  have hmem : x ∈ k.regionOps s ∨ x = n.1 ∧ s = r := by
    rw [hk.list] at hx
    split at hx
    · rename_i hs
      subst hs
      exact ((List.mem_insertIdx hm).mp hx).symm.imp_right fun hx => ⟨hx, rfl⟩
    · exact Or.inl hx
  rw [hsize]
  rcases hmem with hmem | ⟨rfl, rfl⟩
  · obtain ⟨hlt, hop⟩ := h s x hmem
    refine ⟨Nat.lt_succ_of_lt hlt, fun op hx => hop op ?_⟩
    rw [hk.op?, if_neg] at hx
    · exact hx
    · rintro rfl
      rw [hid] at hlt
      exact Nat.lt_irrefl _ hlt
  · refine ⟨by rw [hid]; exact Nat.lt_succ_self _, fun op hx => ?_⟩
    rw [hk.op?, if_pos rfl] at hx
    cases hx
    rfl

theorem Arranges.insert_stands (h : Arranges k F) (hhomed : k.Homed) {i : Instr} {p : InsertPoint} (hp : k.Stands p)
    (hvacant : ∀ s, i.region? = some s → k.Vacant s) :
    ∃ k' r m, Edit.insert i p k = .ok k.nextOp k' ∧ Arranges k' (grafted F (k.nextOp, i) r m) ∧ k'.Homed ∧
      Grafts k k' (k.nextOp, i) r m := by
  obtain ⟨r, m, hres, hr, hm⟩ := h.resolve_stands hp
  have hsome : (k.region? r).isSome := hr.elim (· ▸ h.rooted) h.placed.mem_bodies
  have hregion : ∀ s, i.region? = some s → (k.region? s).isSome := fun s hs => by rw [(hvacant s hs).1]; rfl
  have hgrafts := grafts_place k i hsome hregion m
  have hunknown : k.unknownRegion? i = none := by
    rw [unknownRegion?, Option.filter_eq_none_iff]
    intro s hs
    obtain ⟨region, hregion⟩ := Option.isSome_iff_exists.mp (hregion s hs)
    simp [hregion]
  have hsize : (((k.define i k.nextOp).own i k.nextOp).place i r m).ops.size = k.ops.size + 1 := by
    simp [place, updateRegion]
  refine ⟨_, r, m, ?_, h.graft hgrafts rfl hsize (fun s hs => ?_) hvacant hr hm, hhomed.graft hgrafts rfl hsize hm,
    hgrafts⟩
  · simp only [Edit.insert, hres, hunknown]
  · rw [region?_isSome] at hs ⊢
    simpa [place, updateRegion] using hs

theorem Homed.remove (h : k.Homed) (x : OpId) (op : Op) : (k.remove x op).Homed := by
  intro s id hid
  obtain ⟨hlt, hop⟩ := h s id ((regionOps_remove_sublist k x op s).subset hid)
  refine ⟨by rw [size_ops_remove]; exact hlt, fun op' hid => hop op' ?_⟩
  rw [op?_remove] at hid
  split at hid
  · cases hid
  · exact hid

theorem Homed.setInstr (h : k.Homed) {x : OpId} {op : Op} (hx : k.op? x = some op) (i : Instr) :
    (k.setInstr x i).Homed := by
  intro s id hid
  have hlist : (k.setInstr x i).regionOps s = k.regionOps s := by simp [regionOps, region?, regions_setInstr]
  obtain ⟨hlt, hop⟩ := h s id (hlist ▸ hid)
  refine ⟨by rw [size_ops_setInstr]; exact hlt, fun op' hid => ?_⟩
  rw [op?_setInstr hx] at hid
  split at hid
  · rename_i heq
    cases hid
    exact hop op (heq ▸ hx)
  · exact hop op' hid

theorem Arranges.addRegion (h : Arranges k F) : Arranges k.addRegion F := by
  have howner : ∀ s, k.addRegion.owner? s = k.owner? s := by
    intro s
    rw [owner?, region?_addRegion, owner?]
    split
    · rename_i hs
      have hnone : k.region? s = none := by simp [region?, hs]
      rw [hnone]
      rfl
    · rfl
  refine ⟨?_, ?_, h.nodup, h.complete, fun s id hs => h.owner s id (howner s ▸ hs), ?_, ?_⟩
  · rw [regionOps_addRegion, h.top]
  · exact h.placed.transfer (fun _ _ => rfl) fun s _ => ⟨regionOps_addRegion k s, howner s⟩
  · rw [howner, h.root]
  · have hrooted := h.rooted
    rw [region?_isSome] at hrooted ⊢
    simpa [Kernel.addRegion] using Nat.lt_succ_of_lt hrooted

theorem Edited.keeps (hk : Edited k k') (h : Arranges k F) (hhomed : k.Homed) :
    (∃ F', Arranges k' F') ∧ k'.Homed := by
  cases hk with
  | newValue ty hrun =>
    cases hrun
    exact ⟨⟨F, h.top, h.placed.transfer (fun _ _ => rfl) fun _ _ => ⟨rfl, rfl⟩, h.nodup, h.complete, h.owner, h.root,
      h.rooted⟩, hhomed⟩
  | newRegion hrun =>
    cases hrun
    exact ⟨⟨F, h.addRegion⟩, hhomed.addRegion⟩
  | @insert i point id hi hp hrun =>
    have hvacant : ∀ s, i.region? = some s → k.Vacant s := fun s hs => by cases hi.symm.trans hs
    obtain ⟨k₁, r, m, hrun', harranges, hhomed', -⟩ := h.insert_stands hhomed hp hvacant
    cases hrun'.symm.trans hrun
    exact ⟨⟨_, harranges⟩, hhomed'⟩
  | @insertLoop l point id hvacant hp hrun =>
    have hvacant' : ∀ s, (Instr.loop l).region? = some s → k.Vacant s := fun s hs => by cases hs; exact hvacant
    obtain ⟨k₁, r, m, hrun', harranges, hhomed', -⟩ := h.insert_stands hhomed hp hvacant'
    cases hrun'.symm.trans hrun
    exact ⟨⟨_, harranges⟩, hhomed'⟩
  | @erase id hrun =>
    unfold Edit.erase at hrun
    split at hrun
    · cases hrun
    · rename_i op hget
      cases hrun
      exact ⟨⟨_, h.remove (op?_of_getOp hget)⟩, hhomed.remove id op⟩
  | setOperand user operand value hrun =>
    unfold Edit.setOperand at hrun
    split at hrun
    · cases hrun
    · rename_i op hget
      have hop := op?_of_getOp hget
      have hnode : (user, op.instr) ∈ F.nodes := h.mem_nodes_iff.mpr (by simp [instr?, hop])
      rw [Instr.exchange?_eq] at hrun
      cases hold : op.instr.operands[operand]? with
      | none =>
        rw [hold] at hrun
        cases hrun
      | some v =>
        rw [hold] at hrun
        cases hrun
        refine ⟨⟨_, h.setInstr hnode (Instr.region?_mapOperands ..) (alters_rebinding h.nodup hnode operand value)⟩,
          ?_⟩
        exact hhomed.setInstr hop _

inductive Climbs (k : Kernel) (r : RegionId) : OpId → List OpId → Prop
  | here {id : OpId} {op : Op} : k.op? id = some op → op.region = r → Climbs k r id []
  | up {id parent : OpId} {above : List OpId} : k.parent? id = some parent → Climbs k r parent above →
    Climbs k r id (parent :: above)

inductive Walks (k : Kernel) : List OpId → List OpId → Prop
  | nil : Walks k [] []
  | leaf {id : OpId} {ids rest : List OpId} : k.nested? id = none → Walks k ids rest →
      Walks k (id :: ids) (id :: rest)
  | loop {id : OpId} {ids inner rest : List OpId} {r : RegionId} : k.nested? id = some r →
    Walks k (k.regionOps r) inner → Walks k ids rest → Walks k (id :: ids) (id :: (inner ++ rest))

theorem Placed.walks (h : k.Placed r F) : k.Walks F.tops F.ids := by
  induction F generalizing r with
  | nil => exact .nil
  | op id i rest ih => exact .leaf (by simp [nested?, instr?, h.1, h.2.1]) (ih h.2.2)
  | loop id l body rest ihb ihr =>
    rw [Forest.ids_loop]
    refine .loop (r := l.body) (by simp [nested?, instr?, h.1, Instr.region?]) ?_ (ihr h.2.2.2.2)
    rw [h.2.1]
    exact ihb h.2.2.2.1

theorem Climbs.append {s : RegionId} {id a : OpId} {above : List OpId} {i : Instr} (h : k.Climbs s id above)
    (howner : k.owner? s = some a) (ha : k.op? a = some ⟨i, r⟩) : k.Climbs r id (above ++ [a]) := by
  induction h with
  | here hid hs => exact .up (by simp [parent?, hid, hs, howner]) (.here ha rfl)
  | up hparent _ ih => exact .up hparent ih

theorem Placed.climbs (h : k.Placed r F) {u : OpId} {c : List OpId} (hc : F.chain? u = some c) : k.Climbs r u c := by
  induction F generalizing r c with
  | nil => cases hc
  | op id i rest ih =>
    simp only [Forest.chain?] at hc
    split at hc
    · rename_i hid
      cases hc
      exact .here (hid ▸ h.1) rfl
    · exact ih h.2.2 hc
  | loop id l body rest ihb ihr =>
    simp only [Forest.chain?] at hc
    split at hc
    · rename_i hid
      cases hc
      exact .here (hid ▸ h.1) rfl
    · rcases Option.or_eq_some_iff.mp hc with hc | ⟨-, hc⟩
      · obtain ⟨c', hc', rfl⟩ := Option.map_eq_some_iff.mp hc
        exact (ihb h.2.2.2.1 hc').append h.2.2.1 h.1
      · exact ihr h.2.2.2.2 hc

structure Linked (k : Kernel) : Prop where
  walk_nodup : k.preorder.Nodup
  walk : ∀ id, id ∈ k.preorder ↔ k.isLive id
  walks : k.Walks (k.regionOps body) k.preorder
  home : ∀ id op, k.op? id = some op → ∀ r, (k.regionOps r).count id = if r = op.region then 1 else 0
  owner : ∀ id l, k.loop? id = some l → k.owner? l.body = some id
  bodies : ∀ a b l m, k.loop? a = some l → k.loop? b = some m → l.body = m.body → a = b
  climbs : ∀ id, k.isLive id → k.Climbs body id (k.ancestors id)

theorem Arranges.linked (h : Arranges k F) (hhomed : k.Homed) : k.Linked where
  walk_nodup := h.preorder_eq ▸ h.nodup
  walk id := by rw [h.preorder_eq, h.isLive_iff]
  walks := by
    rw [h.preorder_eq, h.top]
    exact h.placed.walks
  home id op hop r := by
    split
    · rename_i hr
      subst hr
      obtain ⟨s, G, hG, hid⟩ := Forest.exists_level (h.isLive_iff.mp (show k.isLive id by simp [isLive, hop]))
      obtain ⟨i, hi⟩ := (h.placed_level hG).op?_of_mem_tops hid
      rw [hop, Option.some.injEq] at hi
      subst hi
      rw [h.regionOps_level hG]
      exact List.count_eq_one_of_mem (Forest.nodup_tops (hG.nodup h.nodup)) hid
    · rename_i hr
      exact List.count_eq_zero_of_not_mem fun hid => hr ((hhomed r id hid).2 op hop).symm
  owner id l hl := h.owner?_of_mem (h.loop?_eq_some_iff.mp hl) rfl
  bodies a b l m hl hm heq := by
    have ha := h.owner?_of_mem (h.loop?_eq_some_iff.mp hl) rfl
    have hb := h.owner?_of_mem (h.loop?_eq_some_iff.mp hm) rfl
    rw [← heq, ha, Option.some.injEq] at hb
    exact hb
  climbs id hid := by
    obtain ⟨c, hc⟩ := Option.isSome_iff_exists.mp (Forest.chain?_isSome.mpr (h.isLive_iff.mp hid))
    rw [h.ancestors_eq hc]
    exact h.placed.climbs hc

theorem exists_arranges {name : String} {location : Location} {stmts : List Stmt}
    (h : Relation.ReflTransGen Edited (build name location stmts) k) : (∃ F, Arranges k F) ∧ k.Homed := by
  induction h with
  | refl =>
    obtain ⟨F, hF⟩ := build_stores name location stmts
    exact ⟨⟨F, hF.toArranges⟩, build_homed name location stmts⟩
  | tail _ hstep ih =>
    obtain ⟨⟨F, hF⟩, hhomed⟩ := ih
    exact hstep.keeps hF hhomed

/-- Whatever is inserted, erased and rebound after a kernel was built, its links agree. -/
theorem linked_of_edited {name : String} {location : Location} {stmts : List Stmt}
    (h : Relation.ReflTransGen Edited (build name location stmts) k) : k.Linked := by
  obtain ⟨⟨F, hF⟩, hhomed⟩ := exists_arranges h
  exact hF.linked hhomed

/-- A loop put into a loop and filled, next to an op that is erased afterwards. -/
theorem linked_of_edited_nested :
    let start := build "nest" .unknown [.constant 0, .loop ⟨0⟩ ⟨0⟩ ⟨0⟩ none [.barrier]]
    ∃ k, Relation.ReflTransGen Edited start k ∧ k.preorder = [⟨0⟩, ⟨3⟩, ⟨4⟩, ⟨5⟩, ⟨2⟩] ∧ k.Linked := by
  intro start
  let inner : Loop := { induction := ⟨2⟩, lower := ⟨0⟩, upper := ⟨0⟩, step := ⟨0⟩, body := ⟨2⟩, depth := none }
  let left {α : Type} : EStateM.Result Error Kernel α → Kernel := fun | .ok _ k => k | .error _ k => k
  let k₁ := start.addRegion.addValue .index
  let k₂ := left (Edit.insert (.loop inner) (.after ⟨1⟩) k₁)
  let k₃ := left (Edit.insert .barrier (.last ⟨2⟩) k₂)
  let k₄ := left (Edit.setOperand ⟨4⟩ 0 ⟨1⟩ k₃)
  let k₅ := left (Edit.erase ⟨1⟩ k₄)
  have hloop : Edited k₁ k₂ := .insertLoop (l := inner) ⟨rfl, by decide⟩ (show k₁.Stands (.after ⟨1⟩) from rfl)
    (show Edit.insert (.loop inner) (.after ⟨1⟩) k₁ = .ok ⟨4⟩ k₂ from rfl)
  have hbarrier : Edited k₂ k₃ := .insert (i := .barrier) rfl
    (show k₂.Stands (.last ⟨2⟩) from Or.inr ⟨⟨4⟩, inner, rfl, rfl⟩)
    (show Edit.insert .barrier (.last ⟨2⟩) k₂ = .ok ⟨5⟩ k₃ from rfl)
  have hop₄ : k₃.op? ⟨4⟩ = some ⟨.loop inner, ⟨1⟩⟩ := by decide +kernel
  have hop₁ : k₄.op? ⟨1⟩ = some ⟨.barrier, ⟨1⟩⟩ := by decide +kernel
  have hset : Edit.setOperand ⟨4⟩ 0 ⟨1⟩ k₃ = .ok ⟨0⟩ k₄ := by
    simp only [k₄, left, Edit.setOperand, getOp, hop₄]
    rfl
  have hgone : Edit.erase ⟨1⟩ k₄ = .ok () k₅ := by simp only [k₅, left, Edit.erase, getOp, hop₁]
  have hready : Relation.ReflTransGen Edited start k₁ :=
    (Relation.ReflTransGen.single (.newRegion rfl)).tail (.newValue .index rfl)
  have hchain : Relation.ReflTransGen Edited start k₅ :=
    (((hready.tail hloop).tail hbarrier).tail (.setOperand _ _ _ hset)).tail (.erase hgone)
  exact ⟨k₅, hchain, by decide +kernel, linked_of_edited hchain⟩

end Kernel
end SlotRotation
