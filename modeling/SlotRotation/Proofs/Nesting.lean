import SlotRotation.Proofs.Stores

/-! The queries of a kernel in terms of the forest it stores: the ops around an op are the loops that it is in the
scope of, from the inside out, and the ops of a region are the children of its loop. -/

namespace SlotRotation

namespace Forest

def chain? : Forest → OpId → Option (List OpId)
  | nil, _ => none
  | op id _ rest, u => if id = u then some [] else rest.chain? u
  | loop id _ body rest, u =>
    if id = u then some [] else ((body.chain? u).map (· ++ [id])).or (rest.chain? u)

def Encloses (F : Forest) (a u : OpId) : Prop := F.InScope a u ∧ ∃ l, (a, .loop l) ∈ F.nodes

theorem Encloses.mem {F : Forest} {a u : OpId} (h : F.Encloses a u) : u ∈ F.ids := h.1.right_mem

theorem encloses_op {id a u : OpId} {i : Instr} {rest : Forest} (hF : (op id i rest).ids.Nodup)
    (hi : i.region? = none) : (op id i rest).Encloses a u ↔ rest.Encloses a u := by
  obtain ⟨hid, -⟩ := nodup_op hF
  constructor
  · rintro ⟨⟨rfl, -⟩ | hs, l, hl⟩
    · rcases List.mem_cons.mp hl with hl | hl
      · cases hl
        cases hi
      · exact absurd (mem_ids_of_mem_nodes hl) hid
    · refine ⟨hs, l, (List.mem_cons.mp hl).resolve_left fun hl => hid ?_⟩
      have hmem := hs.left_mem
      rwa [(Prod.mk.inj hl).1] at hmem
  · rintro ⟨hs, l, hl⟩
    exact ⟨Or.inr hs, l, List.mem_cons_of_mem _ hl⟩

theorem encloses_loop {id a u : OpId} {l : Loop} {body rest : Forest} (hF : (loop id l body rest).ids.Nodup) :
    (loop id l body rest).Encloses a u ↔ (a = id ∧ u ∈ body.ids) ∨ body.Encloses a u ∨ rest.Encloses a u := by
  obtain ⟨hidb, hidr, -, -, hdis⟩ := nodup_loop hF
  constructor
  · rintro ⟨hs, m, hm⟩
    simp only [nodes, List.mem_cons, List.mem_append, Prod.mk.injEq] at hm
    rcases hs with ⟨rfl, hu⟩ | hs | hs
    · exact Or.inl ⟨rfl, hu⟩
    · refine Or.inr (Or.inl ⟨hs, m, ?_⟩)
      rcases hm with ⟨rfl, -⟩ | hm | hm
      · exact absurd hs.left_mem hidb
      · exact hm
      · exact absurd (mem_ids_of_mem_nodes hm) (hdis _ hs.left_mem)
    · refine Or.inr (Or.inr ⟨hs, m, ?_⟩)
      rcases hm with ⟨rfl, -⟩ | hm | hm
      · exact absurd hs.left_mem hidr
      · exact absurd hs.left_mem (hdis _ (mem_ids_of_mem_nodes hm))
      · exact hm
  · rintro (⟨rfl, hu⟩ | ⟨hs, m, hm⟩ | ⟨hs, m, hm⟩)
    · exact ⟨Or.inl ⟨rfl, hu⟩, l, List.mem_cons_self ..⟩
    · exact ⟨Or.inr (Or.inl hs), m, List.mem_cons_of_mem _ (List.mem_append_left _ hm)⟩
    · exact ⟨Or.inr (Or.inr hs), m, List.mem_cons_of_mem _ (List.mem_append_right _ hm)⟩

theorem chain?_isSome {F : Forest} {u : OpId} : (F.chain? u).isSome ↔ u ∈ F.ids := by
  induction F with
  | nil => simp [chain?]
  | op id i rest ih =>
    by_cases h : id = u
    · simp [chain?, h]
    · simp [chain?, h, ih, Ne.symm h]
  | loop id l body rest ihb ihr =>
    by_cases h : id = u
    · simp [chain?, h]
    · simp [chain?, h, ihb, ihr, Ne.symm h]

theorem chain?_length_le {F : Forest} {u : OpId} {c : List OpId} (h : F.chain? u = some c) :
    c.length ≤ F.bodies.length := by
  induction F generalizing c with
  | nil => cases h
  | op id i rest ih =>
    simp only [chain?] at h
    split at h
    · cases h; simp
    · exact ih h
  | loop id l body rest ihb ihr =>
    simp only [chain?] at h
    simp only [bodies, List.length_cons, List.length_append]
    split at h
    · cases h; simp
    · rcases Option.or_eq_some_iff.mp h with h | ⟨-, h⟩
      · obtain ⟨c', hc', rfl⟩ := Option.map_eq_some_iff.mp h
        have := ihb hc'
        simp only [List.length_append, List.length_singleton]
        omega
      · have := ihr h
        omega

theorem mem_chain?_iff {F : Forest} (hF : F.ids.Nodup) (hP : F.Plain) {u : OpId} {c : List OpId}
    (h : F.chain? u = some c) {a : OpId} : a ∈ c ↔ F.Encloses a u := by
  induction F generalizing c with
  | nil => cases h
  | op id i rest ih =>
    obtain ⟨hid, hrest⟩ := nodup_op hF
    rw [encloses_op hF hP.1]
    simp only [chain?] at h
    split at h
    · rename_i hu
      subst hu
      cases h
      exact iff_of_false List.not_mem_nil fun hencloses => hid hencloses.mem
    · exact ih hrest hP.2 h
  | loop id l body rest ihb ihr =>
    obtain ⟨hidb, hidr, hb, hr, hdis⟩ := nodup_loop hF
    rw [encloses_loop hF]
    simp only [chain?] at h
    split at h
    · rename_i hu
      subst hu
      cases h
      refine iff_of_false List.not_mem_nil ?_
      rintro (⟨-, hin⟩ | hencloses | hencloses)
      · exact hidb hin
      · exact hidb hencloses.mem
      · exact hidr hencloses.mem
    · rcases Option.or_eq_some_iff.mp h with h | ⟨-, h⟩
      · obtain ⟨c', hc', rfl⟩ := Option.map_eq_some_iff.mp h
        have hub : u ∈ body.ids := chain?_isSome.mp (by simp [hc'])
        rw [List.mem_append, List.mem_singleton, ihb hb hP.1 hc']
        constructor
        · rintro (hencloses | rfl)
          · exact Or.inr (Or.inl hencloses)
          · exact Or.inl ⟨rfl, hub⟩
        · rintro (⟨rfl, -⟩ | hencloses | hencloses)
          · exact Or.inr rfl
          · exact Or.inl hencloses
          · exact absurd hencloses.mem (hdis _ hub)
      · have hur : u ∈ rest.ids := chain?_isSome.mp (by simp [h])
        rw [ihr hr hP.2 h]
        refine ⟨fun hencloses => Or.inr (Or.inr hencloses), ?_⟩
        rintro (⟨-, hub⟩ | hencloses | hencloses)
        · exact absurd hur (hdis _ hub)
        · exact absurd hur (hdis _ hencloses.mem)
        · exact hencloses

end Forest

namespace Kernel

variable {k : Kernel} {F : Forest}

/-- The ops around a region, innermost first, as far as `n` of them. -/
def around (k : Kernel) : Nat → RegionId → List OpId
  | 0, _ => []
  | n + 1, r =>
    match k.owner? r with
    | some a => a :: ((k.op? a).map fun op => k.around n op.region).getD []
    | none => []

theorem ancestorsWithin_eq_around {op : Op} {id : OpId} (h : k.op? id = some op) (n : Nat) :
    k.ancestorsWithin n id = k.around n op.region := by
  induction n generalizing id op with
  | zero => rfl
  | succ n ih =>
    have hp : k.parent? id = k.owner? op.region := by simp [parent?, h]
    rw [ancestorsWithin, around, hp]
    cases k.owner? op.region with
    | none => rfl
    | some a =>
      cases ha : k.op? a with
      | some op' => simp [ih ha, ha]
      | none =>
        cases n with
        | zero => simp [ancestorsWithin, ha]
        | succ n => simp [ancestorsWithin, parent?, ha]

theorem Placed.around_eq {r : RegionId} (h : k.Placed r F) {n : Node} (hn : n ∈ F.nodes) (hF : F.ids.Nodup)
    {c : List OpId} (hc : F.chain? n.1 = some c) {s : RegionId} (hs : k.op? n.1 = some ⟨n.2, s⟩) (m : Nat) :
    k.around (c.length + m) s = c ++ k.around m r := by
  induction F generalizing r c m with
  | nil => simp [Forest.nodes] at hn
  | op id i rest ih =>
    obtain ⟨hid, hrest⟩ := Forest.nodup_op hF
    rcases List.mem_cons.mp hn with rfl | hn
    · simp only [Forest.chain?, if_true, Option.some.injEq] at hc
      rw [h.1, Option.some.injEq, Op.mk.injEq] at hs
      simp [← hc, ← hs.2]
    · have hne : id ≠ n.1 := fun e => hid (e ▸ Forest.mem_ids_of_mem_nodes hn)
      rw [Forest.chain?, if_neg hne] at hc
      exact ih h.2.2 hn hrest hc m
  | loop id l body rest ihb ihr =>
    obtain ⟨hidb, hidr, hb, hr, hdis⟩ := Forest.nodup_loop hF
    simp only [Forest.nodes, List.mem_cons, List.mem_append] at hn
    rcases hn with rfl | hn | hn
    · simp only [Forest.chain?, if_true, Option.some.injEq] at hc
      rw [h.1, Option.some.injEq, Op.mk.injEq] at hs
      simp [← hc, ← hs.2]
    · have hmem := Forest.mem_ids_of_mem_nodes hn
      have hne : id ≠ n.1 := fun e => hidb (e ▸ hmem)
      obtain ⟨c', hc'⟩ := Option.isSome_iff_exists.mp (Forest.chain?_isSome.mpr hmem)
      simp only [Forest.chain?, if_neg hne, hc', Option.map_some, Option.some_or, Option.some.injEq] at hc
      subst hc
      have hstep : k.around (m + 1) l.body = id :: k.around m r := by simp [around, h.2.2.1, h.1]
      rw [List.length_append, List.length_singleton, Nat.add_assoc, Nat.add_comm 1 m,
        ihb h.2.2.2.1 hn hb hc' (m + 1), hstep, List.append_assoc, List.singleton_append]
    · have hmem := Forest.mem_ids_of_mem_nodes hn
      have hne : id ≠ n.1 := fun e => hidr (e ▸ hmem)
      have hnb : body.chain? n.1 = none := by
        cases hb' : body.chain? n.1 with
        | none => rfl
        | some c' => exact absurd hmem (hdis _ (Forest.chain?_isSome.mp (by rw [hb']; rfl)))
      simp only [Forest.chain?, if_neg hne, hnb, Option.map_none, Option.none_or] at hc
      exact ihr h.2.2.2.2 hn hr hc m

namespace Arranges

theorem ancestors_eq (h : Arranges k F) {u : OpId} {c : List OpId} (hc : F.chain? u = some c) :
    k.ancestors u = c := by
  have hu : u ∈ F.ids := Forest.chain?_isSome.mp (by simp [hc])
  obtain ⟨i, hn⟩ := Forest.exists_mem_nodes hu
  obtain ⟨s, hs⟩ := h.placed.op? hn
  have hlen := Forest.chain?_length_le hc
  have hlt := h.bodies_length_lt
  obtain ⟨m, hm⟩ : ∃ m, k.regions.size = c.length + (m + 1) := ⟨k.regions.size - c.length - 1, by omega⟩
  rw [ancestors, ancestorsWithin_eq_around hs, hm, h.placed.around_eq hn h.nodup hc hs]
  simp [around, h.root]

theorem isAncestor_iff (h : Arranges k F) {a u : OpId} (hu : u ∈ F.ids) : k.isAncestor a u ↔ F.Encloses a u := by
  obtain ⟨c, hc⟩ := Option.isSome_iff_exists.mp (Forest.chain?_isSome.mpr hu)
  rw [isAncestor, decide_eq_true_iff, h.ancestors_eq hc, Forest.mem_chain?_iff h.nodup h.plain hc]

theorem loopsAround_eq (h : Arranges k F) {u : OpId} {c : List OpId} (hc : F.chain? u = some c) :
    k.loopsAround u = c := by
  rw [loopsAround, h.ancestors_eq hc, List.filter_eq_self]
  intro a ha
  obtain ⟨-, l, hl⟩ := (Forest.mem_chain?_iff h.nodup h.plain hc).mp ha
  rw [h.loop?_eq_some_iff.mpr hl]
  rfl

end Arranges
end Kernel
end SlotRotation
