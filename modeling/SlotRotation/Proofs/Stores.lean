import Mathlib.Data.List.Perm.Subperm
import SlotRotation.Proofs.Rewriting

/-! A kernel arranges its ops as a forest if its region lists, its ops and the owners of its regions are those of the
forest. There is at most one such forest, and it can be read off. The kernel stores the forest if it also records the
definitions of its values. -/

namespace SlotRotation.Kernel

/-- Reads off the ops of a region with what they hold; the number of nested regions is bounded by `n`. -/
def forestWithin (k : Kernel) : Nat → RegionId → Forest
  | 0, _ => .nil
  | n + 1, region => (k.regionOps region).foldr (fun id rest =>
    match k.instr? id with
    | some (.loop l) => .loop id l (k.forestWithin n l.body) rest
    | some instr => .op id instr rest
    | none => rest) .nil

def forest (k : Kernel) : Forest := k.forestWithin k.regions.size body

def recorded? (k : Kernel) (v : ValueId) : Option OpId := (k.value? v).bind Value.definition

/-- The ops of a forest are stored under their ids, and those that are not nested belong to region `r`. -/
def Placed (k : Kernel) : RegionId → Forest → Prop
  | _, .nil => True
  | r, .op id i rest => k.op? id = some ⟨i, r⟩ ∧ i.region? = none ∧ Placed k r rest
  | r, .loop id l body rest =>
    k.op? id = some ⟨.loop l, r⟩ ∧ k.regionOps l.body = body.tops ∧ k.owner? l.body = some id ∧
      Placed k l.body body ∧ Placed k r rest

structure Arranges (k : Kernel) (F : Forest) : Prop where
  top : k.regionOps body = F.tops
  placed : k.Placed body F
  nodup : F.ids.Nodup
  complete : ∀ id, k.isLive id → id ∈ F.ids
  owner : ∀ r id, k.owner? r = some id → id.index < k.ops.size ∧ ∀ i, (id, i) ∈ F.nodes → i.region? = some r
  root : k.owner? body = none
  rooted : (k.region? body).isSome

structure Stores (k : Kernel) (F : Forest) : Prop extends Arranges k F where
  defined : ∀ n ∈ F.nodes, ∀ v, n.2.result? = some v → k.recorded? v = some n.1
  definition : ∀ v id, k.recorded? v = some id → id.index < k.ops.size ∧ ∀ i, (id, i) ∈ F.nodes → i.result? = some v

variable {k : Kernel} {F : Forest}

theorem Placed.plain {r : RegionId} (h : k.Placed r F) : F.Plain := by
  induction F generalizing r with
  | nil => trivial
  | op id i rest ih => exact ⟨h.2.1, ih h.2.2⟩
  | loop id l body rest ihb ihr => exact ⟨ihb h.2.2.2.1, ihr h.2.2.2.2⟩

theorem Placed.op? {r : RegionId} (h : k.Placed r F) {n : Node} (hn : n ∈ F.nodes) :
    ∃ s, k.op? n.1 = some ⟨n.2, s⟩ := by
  induction F generalizing r with
  | nil => simp [Forest.nodes] at hn
  | op id i rest ih =>
    rcases List.mem_cons.mp hn with rfl | hn
    · exact ⟨r, h.1⟩
    · exact ih h.2.2 hn
  | loop id l body rest ihb ihr =>
    simp only [Forest.nodes, List.mem_cons, List.mem_append] at hn
    rcases hn with rfl | hn | hn
    · exact ⟨r, h.1⟩
    · exact ihb h.2.2.2.1 hn
    · exact ihr h.2.2.2.2 hn

theorem Placed.op?_of_mem_tops {r : RegionId} (h : k.Placed r F) {id : OpId} (hid : id ∈ F.tops) :
    ∃ i, k.op? id = some ⟨i, r⟩ := by
  induction F with
  | nil => simp [Forest.tops] at hid
  | op a i rest ih =>
    rcases List.mem_cons.mp hid with rfl | hid
    · exact ⟨i, h.1⟩
    · exact ih h.2.2 hid
  | loop a l body rest _ ih =>
    rcases List.mem_cons.mp hid with rfl | hid
    · exact ⟨.loop l, h.1⟩
    · exact ih h.2.2.2.2 hid

theorem Placed.mem_bodies {r : RegionId} (h : k.Placed r F) {s : RegionId} (hs : s ∈ F.bodies) :
    (k.region? s).isSome := by
  induction F generalizing r with
  | nil => simp [Forest.bodies] at hs
  | op id i rest ih => exact ih h.2.2 hs
  | loop id l body rest ihb ihr =>
    simp only [Forest.bodies, List.mem_cons, List.mem_append] at hs
    rcases hs with rfl | hs | hs
    · have howner : (k.region? l.body).bind Region.owner = some id := h.2.2.1
      obtain ⟨region, hregion, -⟩ := Option.bind_eq_some_iff.mp howner
      exact Option.isSome_iff_exists.mpr ⟨region, hregion⟩
    · exact ihb h.2.2.2.1 hs
    · exact ihr h.2.2.2.2 hs

/-- Different loops have different bodies, since each body names its owner. -/
theorem Placed.nodup_bodies {r : RegionId} (h : k.Placed r F) (hF : F.ids.Nodup) :
    F.bodies.Nodup ∧ ∀ s ∈ F.bodies, ∃ id ∈ F.ids, k.owner? s = some id := by
  induction F generalizing r with
  | nil => simp [Forest.bodies]
  | op id i rest ih =>
    obtain ⟨hn, ho⟩ := ih h.2.2 (Forest.nodup_op hF).2
    refine ⟨hn, fun s hs => ?_⟩
    obtain ⟨a, ha, hsa⟩ := ho s hs
    exact ⟨a, List.mem_cons_of_mem _ ha, hsa⟩
  | loop id l body rest ihb ihr =>
    obtain ⟨hidb, hidr, hb, hr, hdis⟩ := Forest.nodup_loop hF
    obtain ⟨hnb, hob⟩ := ihb h.2.2.2.1 hb
    obtain ⟨hnr, hor⟩ := ihr h.2.2.2.2 hr
    have hown : k.owner? l.body = some id := h.2.2.1
    refine ⟨List.nodup_cons.mpr ⟨fun hl => ?_, List.nodup_append.mpr ⟨hnb, hnr, ?_⟩⟩, fun s hs => ?_⟩
    · rcases List.mem_append.mp hl with hl | hl
      · obtain ⟨a, ha, hla⟩ := hob _ hl
        rw [hown, Option.some.injEq] at hla
        exact hidb (hla ▸ ha)
      · obtain ⟨a, ha, hla⟩ := hor _ hl
        rw [hown, Option.some.injEq] at hla
        exact hidr (hla ▸ ha)
    · rintro s hs _ hs' rfl
      obtain ⟨a, ha, hsa⟩ := hob s hs
      obtain ⟨c, hc, hsc⟩ := hor s hs'
      rw [hsa, Option.some.injEq] at hsc
      exact hdis a ha (hsc ▸ hc)
    · rw [Forest.ids_loop]
      simp only [Forest.bodies, List.mem_cons, List.mem_append] at hs
      rcases hs with rfl | hs | hs
      · exact ⟨id, List.mem_cons_self .., hown⟩
      · obtain ⟨a, ha, hsa⟩ := hob s hs
        exact ⟨a, List.mem_cons_of_mem _ (List.mem_append_left _ ha), hsa⟩
      · obtain ⟨a, ha, hsa⟩ := hor s hs
        exact ⟨a, List.mem_cons_of_mem _ (List.mem_append_right _ ha), hsa⟩

namespace Arranges

theorem plain (h : Arranges k F) : F.Plain := h.placed.plain

theorem instr?_of_mem (h : Arranges k F) {n : Node} (hn : n ∈ F.nodes) : k.instr? n.1 = some n.2 := by
  obtain ⟨s, hs⟩ := h.placed.op? hn
  simp [instr?, hs]

theorem isLive_iff (h : Arranges k F) {id : OpId} : k.isLive id ↔ id ∈ F.ids := by
  refine ⟨h.complete id, fun hid => ?_⟩
  obtain ⟨i, hn⟩ := Forest.exists_mem_nodes hid
  obtain ⟨s, hs⟩ := h.placed.op? hn
  simp only at hs
  simp [isLive, hs]

theorem mem_nodes_iff (h : Arranges k F) {id : OpId} {i : Instr} : (id, i) ∈ F.nodes ↔ k.instr? id = some i := by
  refine ⟨h.instr?_of_mem, fun hi => ?_⟩
  obtain ⟨op, hop, -⟩ := Option.map_eq_some_iff.mp hi
  have hlive : k.isLive id := by simp [isLive, hop]
  obtain ⟨j, hj⟩ := Forest.exists_mem_nodes (h.complete id hlive)
  have hj' := h.instr?_of_mem hj
  rw [hi, Option.some.injEq] at hj'
  exact hj' ▸ hj

theorem loop?_eq_some_iff (h : Arranges k F) {id : OpId} {l : Loop} :
    k.loop? id = some l ↔ (id, .loop l) ∈ F.nodes := by
  rw [h.mem_nodes_iff, loop?, Option.bind_eq_some_iff]
  constructor
  · rintro ⟨i, hi, hl⟩
    cases i <;> cases hl
    exact hi
  · exact fun hi => ⟨_, hi, rfl⟩

theorem alloc?_eq_some_iff (h : Arranges k F) {id : OpId} {a : Alloc} :
    k.alloc? id = some a ↔ (id, .alloc a) ∈ F.nodes := by
  rw [h.mem_nodes_iff, alloc?, Option.bind_eq_some_iff]
  constructor
  · rintro ⟨i, hi, hl⟩
    cases i <;> cases hl
    exact hi
  · exact fun hi => ⟨_, hi, rfl⟩

theorem bodies_length_lt (h : Arranges k F) : F.bodies.length < k.regions.size := by
  obtain ⟨hn, ho⟩ := h.placed.nodup_bodies h.nodup
  have hroot : body ∉ F.bodies := by
    intro hb
    obtain ⟨id, -, hid⟩ := ho _ hb
    rw [h.root] at hid
    cases hid
  have hnodup : ((body :: F.bodies).map RegionId.index).Nodup :=
    (List.nodup_cons.mpr ⟨hroot, hn⟩).map fun a b hab => by cases a; cases b; exact congrArg _ hab
  have hlt : ∀ s ∈ (body :: F.bodies).map RegionId.index, s < k.regions.size := by
    intro s hs
    obtain ⟨r, hr, rfl⟩ := List.mem_map.mp hs
    have hsome : (k.region? r).isSome := by
      rcases List.mem_cons.mp hr with rfl | hr
      · exact h.rooted
      · exact h.placed.mem_bodies hr
    simpa [region?] using hsome
  have hle := (List.subperm_of_subset hnodup fun s hs => List.mem_range.mpr (hlt s hs)).length_le
  simp only [List.length_map, List.length_cons, List.length_range] at hle
  exact hle

end Arranges

theorem Placed.forestWithin_eq {r : RegionId} (h : k.Placed r F) {n : Nat} (hn : F.bodies.length ≤ n) :
    F.tops.foldr (fun id rest =>
      match k.instr? id with
      | some (.loop l) => .loop id l (k.forestWithin n l.body) rest
      | some instr => .op id instr rest
      | none => rest) .nil = F := by
  induction F generalizing r n with
  | nil => rfl
  | op id i rest ih =>
    have hi : k.instr? id = some i := by simp [instr?, h.1]
    have hl : ∀ l, i ≠ .loop l := by rintro l rfl; exact absurd h.2.1 (by simp [Instr.region?])
    rw [Forest.tops, List.foldr_cons, ih h.2.2 hn, hi]
    cases i <;> first | rfl | exact absurd rfl (hl _)
  | loop id l body rest ihb ihr =>
    have hi : k.instr? id = some (.loop l) := by simp [instr?, h.1]
    simp only [Forest.bodies, List.length_cons, List.length_append] at hn
    obtain ⟨m, rfl⟩ : ∃ m, n = m + 1 := ⟨n - 1, by omega⟩
    rw [Forest.tops, List.foldr_cons, ihr h.2.2.2.2 (by omega), hi]
    simp only [forestWithin, h.2.1, ihb h.2.2.2.1 (show _ ≤ m by omega)]

theorem Arranges.forest_eq (h : Arranges k F) : k.forest = F := by
  obtain ⟨m, hm⟩ : ∃ m, k.regions.size = m + 1 := ⟨k.regions.size - 1, by have := h.bodies_length_lt; omega⟩
  have hlt := h.bodies_length_lt
  rw [forest, hm, forestWithin, h.top]
  exact h.placed.forestWithin_eq (by omega)

theorem Placed.preorderWithin_eq {r : RegionId} (h : k.Placed r F) {n : Nat} (hn : F.bodies.length ≤ n) :
    (F.tops.flatMap fun id => id :: ((k.nested? id).map (k.preorderWithin n)).getD []) = F.ids := by
  induction F generalizing r n with
  | nil => rfl
  | op id i rest ih =>
    have hi : k.nested? id = none := by simp [nested?, instr?, h.1, h.2.1]
    simp [Forest.tops, ih h.2.2 hn, hi]
  | loop id l body rest ihb ihr =>
    have hi : k.nested? id = some l.body := by simp [nested?, instr?, h.1, Instr.region?]
    simp only [Forest.bodies, List.length_cons, List.length_append] at hn
    obtain ⟨m, rfl⟩ : ∃ m, n = m + 1 := ⟨n - 1, by omega⟩
    have hb : k.preorderWithin (m + 1) l.body = body.ids := by
      rw [preorderWithin, h.2.1]
      exact ihb h.2.2.2.1 (by omega)
    simp [Forest.tops, ihr h.2.2.2.2 (show _ ≤ m + 1 by omega), hi, hb]

theorem Arranges.preorder_eq (h : Arranges k F) : k.preorder = F.ids := by
  obtain ⟨m, hm⟩ : ∃ m, k.regions.size = m + 1 := ⟨k.regions.size - 1, by have := h.bodies_length_lt; omega⟩
  have hlt := h.bodies_length_lt
  rw [preorder, preorderFrom, hm, preorderWithin, h.top]
  exact h.placed.preorderWithin_eq (by omega)

end SlotRotation.Kernel
