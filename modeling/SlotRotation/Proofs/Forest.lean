import Mathlib.Data.List.Nodup
import SlotRotation.Kernel.Nesting

/-! The nesting of a kernel as a forest: the ops of one region in order, each loop with the forest of its body. The
result of an op is in scope at whatever follows it in its own region, at any depth, and the induction value of a
loop is in scope inside the loop. -/

namespace SlotRotation

abbrev Node := OpId × Instr

inductive Forest where
  | nil
  | op (id : OpId) (instr : Instr) (rest : Forest)
  | loop (id : OpId) (l : Loop) (body rest : Forest)
deriving DecidableEq

namespace Forest

def nodes : Forest → List Node
  | nil => []
  | op id i rest => (id, i) :: rest.nodes
  | loop id l body rest => (id, .loop l) :: (body.nodes ++ rest.nodes)

def ids (F : Forest) : List OpId := F.nodes.map Prod.fst

def tops : Forest → List OpId
  | nil => []
  | op id _ rest => id :: rest.tops
  | loop id _ _ rest => id :: rest.tops

def bodies : Forest → List RegionId
  | nil => []
  | op _ _ rest => rest.bodies
  | loop _ l body rest => l.body :: (body.bodies ++ rest.bodies)

def Plain : Forest → Prop
  | nil => True
  | op _ i rest => i.region? = none ∧ rest.Plain
  | loop _ _ body rest => body.Plain ∧ rest.Plain

/-- What `d` defines can be read at `u`. -/
def InScope : Forest → OpId → OpId → Prop
  | nil, _, _ => False
  | op id _ rest, d, u => (id = d ∧ u ∈ rest.ids) ∨ rest.InScope d u
  | loop id _ body rest, d, u => (id = d ∧ u ∈ body.ids) ∨ body.InScope d u ∨ rest.InScope d u

/-- The loop `a` is `l` and holds `B`. -/
def Holds : Forest → OpId → Loop → Forest → Prop
  | nil, _, _, _ => False
  | op _ _ rest, a, l, B => rest.Holds a l B
  | loop id l' body rest, a, l, B => (id = a ∧ l' = l ∧ body = B) ∨ body.Holds a l B ∨ rest.Holds a l B

def Child (F : Forest) (a x : OpId) : Prop := ∃ l B, F.Holds a l B ∧ x ∈ B.tops

def Leads (F : Forest) (a g : OpId) : Prop := ∃ l B, F.Holds a l (op g .barrier B)

@[simp] theorem ids_nil : nil.ids = [] := rfl

@[simp] theorem ids_op (id : OpId) (i : Instr) (rest : Forest) : (op id i rest).ids = id :: rest.ids := rfl

@[simp] theorem ids_loop (id : OpId) (l : Loop) (body rest : Forest) :
    (loop id l body rest).ids = id :: (body.ids ++ rest.ids) := by
  simp [ids, nodes]

theorem mem_ids_of_mem_nodes {F : Forest} {n : Node} (h : n ∈ F.nodes) : n.1 ∈ F.ids := List.mem_map_of_mem h

theorem exists_mem_nodes {F : Forest} {id : OpId} (h : id ∈ F.ids) : ∃ i, (id, i) ∈ F.nodes := by
  obtain ⟨⟨_, i⟩, hn, rfl⟩ := List.mem_map.mp h
  exact ⟨i, hn⟩

theorem node_unique {F : Forest} (hF : F.ids.Nodup) {id : OpId} {i j : Instr} (hi : (id, i) ∈ F.nodes)
    (hj : (id, j) ∈ F.nodes) : i = j :=
  congrArg Prod.snd (List.inj_on_of_nodup_map hF hi hj rfl)

theorem mem_ids_of_mem_tops {F : Forest} {id : OpId} (h : id ∈ F.tops) : id ∈ F.ids := by
  induction F with
  | nil => simp [tops] at h
  | op a i rest ih =>
    simp only [tops, List.mem_cons, ids_op] at h ⊢
    exact h.imp_right ih
  | loop a l body rest _ ih =>
    simp only [tops, List.mem_cons, ids_loop, List.mem_append] at h ⊢
    exact h.imp_right fun h => Or.inr (ih h)

theorem nodup_tops {F : Forest} (hF : F.ids.Nodup) : F.tops.Nodup := by
  induction F with
  | nil => simp [tops]
  | op a i rest ih =>
    obtain ⟨ha, hrest⟩ := List.nodup_cons.mp hF
    exact List.nodup_cons.mpr ⟨fun h => ha (mem_ids_of_mem_tops h), ih hrest⟩
  | loop a l body rest _ ih =>
    rw [ids_loop] at hF
    obtain ⟨ha, hrest⟩ := List.nodup_cons.mp hF
    exact List.nodup_cons.mpr ⟨fun h => ha (List.mem_append_right _ (mem_ids_of_mem_tops h)),
      ih (List.nodup_append.mp hrest).2.1⟩

theorem InScope.left_mem {F : Forest} {d u : OpId} (h : F.InScope d u) : d ∈ F.ids := by
  induction F with
  | nil => exact h.elim
  | op a i rest ih =>
    rcases h with ⟨rfl, _⟩ | h
    · simp
    · exact List.mem_cons_of_mem _ (ih h)
  | loop a l body rest ihb ihr =>
    rw [ids_loop]
    rcases h with ⟨rfl, _⟩ | h | h
    · simp
    · exact List.mem_cons_of_mem _ (List.mem_append_left _ (ihb h))
    · exact List.mem_cons_of_mem _ (List.mem_append_right _ (ihr h))

theorem InScope.right_mem {F : Forest} {d u : OpId} (h : F.InScope d u) : u ∈ F.ids := by
  induction F with
  | nil => exact h.elim
  | op a i rest ih =>
    rcases h with ⟨_, hu⟩ | h
    · exact List.mem_cons_of_mem _ hu
    · exact List.mem_cons_of_mem _ (ih h)
  | loop a l body rest ihb ihr =>
    rw [ids_loop]
    rcases h with ⟨_, hu⟩ | h | h
    · exact List.mem_cons_of_mem _ (List.mem_append_left _ hu)
    · exact List.mem_cons_of_mem _ (List.mem_append_left _ (ihb h))
    · exact List.mem_cons_of_mem _ (List.mem_append_right _ (ihr h))

theorem nodup_op {id : OpId} {i : Instr} {rest : Forest} (h : (op id i rest).ids.Nodup) :
    id ∉ rest.ids ∧ rest.ids.Nodup := List.nodup_cons.mp h

theorem nodup_loop {id : OpId} {l : Loop} {body rest : Forest} (h : (loop id l body rest).ids.Nodup) :
    id ∉ body.ids ∧ id ∉ rest.ids ∧ body.ids.Nodup ∧ rest.ids.Nodup ∧ ∀ x ∈ body.ids, x ∉ rest.ids := by
  rw [ids_loop] at h
  obtain ⟨ha, hrest⟩ := List.nodup_cons.mp h
  obtain ⟨hb, hr, hd⟩ := List.nodup_append.mp hrest
  simp only [List.mem_append, not_or] at ha
  exact ⟨ha.1, ha.2, hb, hr, fun x hx hx' => hd x hx x hx' rfl⟩

theorem InScope.irrefl {F : Forest} (hF : F.ids.Nodup) {d : OpId} : ¬F.InScope d d := by
  induction F with
  | nil => exact id
  | op a i rest ih =>
    obtain ⟨ha, hrest⟩ := nodup_op hF
    rintro (⟨rfl, h⟩ | h)
    · exact ha h
    · exact ih hrest h
  | loop a l body rest ihb ihr =>
    obtain ⟨ha, _, hb, hr, _⟩ := nodup_loop hF
    rintro (⟨rfl, h⟩ | h | h)
    · exact ha h
    · exact ihb hb h
    · exact ihr hr h

theorem InScope.trans {F : Forest} (hF : F.ids.Nodup) {d a u : OpId} (hda : F.InScope d a)
    (hau : F.InScope a u) : F.InScope d u := by
  induction F with
  | nil => exact hda.elim
  | op c i rest ih =>
    obtain ⟨hc, hrest⟩ := nodup_op hF
    rcases hda with ⟨rfl, ha⟩ | hda <;> rcases hau with ⟨hca, hu⟩ | hau
    · exact absurd (hca ▸ ha) hc
    · exact Or.inl ⟨rfl, hau.right_mem⟩
    · exact absurd (hca ▸ hda.right_mem) hc
    · exact Or.inr (ih hrest hda hau)
  | loop c l body rest ihb ihr =>
    obtain ⟨hcb, hcr, hb, hr, hd⟩ := nodup_loop hF
    rcases hda with ⟨rfl, ha⟩ | hda | hda <;> rcases hau with ⟨hca, hu⟩ | hau | hau
    · exact absurd (hca ▸ ha) hcb
    · exact Or.inl ⟨rfl, hau.right_mem⟩
    · exact absurd hau.left_mem (hd _ ha)
    · exact absurd (hca ▸ hda.right_mem) hcb
    · exact Or.inr (Or.inl (ihb hb hda hau))
    · exact absurd hau.left_mem (hd _ hda.right_mem)
    · exact absurd (hca ▸ hda.right_mem) hcr
    · exact absurd hda.right_mem (hd _ hau.left_mem)
    · exact Or.inr (Or.inr (ihr hr hda hau))

/-- The ops with a common place in their scopes are in the scopes of one another. -/
theorem InScope.linear {F : Forest} (hF : F.ids.Nodup) {d a u : OpId} (hd : F.InScope d u)
    (ha : F.InScope a u) : d = a ∨ F.InScope d a ∨ F.InScope a d := by
  induction F with
  | nil => exact hd.elim
  | op c i rest ih =>
    obtain ⟨_, hrest⟩ := nodup_op hF
    rcases hd with ⟨rfl, _⟩ | hd <;> rcases ha with ⟨hca, _⟩ | ha
    · exact Or.inl hca
    · exact Or.inr (Or.inl (Or.inl ⟨rfl, ha.left_mem⟩))
    · exact Or.inr (Or.inr (Or.inl ⟨hca, hd.left_mem⟩))
    · exact (ih hrest hd ha).imp_right (Or.imp Or.inr Or.inr)
  | loop c l body rest ihb ihr =>
    obtain ⟨_, _, hb, hr, hdis⟩ := nodup_loop hF
    rcases hd with ⟨rfl, hu⟩ | hd | hd <;> rcases ha with ⟨hca, hu'⟩ | ha | ha
    · exact Or.inl hca
    · exact Or.inr (Or.inl (Or.inl ⟨rfl, ha.left_mem⟩))
    · exact absurd ha.right_mem (hdis _ hu)
    · exact Or.inr (Or.inr (Or.inl ⟨hca, hd.left_mem⟩))
    · exact (ihb hb hd ha).imp_right (Or.imp (fun h => Or.inr (Or.inl h)) (fun h => Or.inr (Or.inl h)))
    · exact absurd ha.right_mem (hdis _ hd.right_mem)
    · exact absurd hd.right_mem (hdis _ hu')
    · exact absurd hd.right_mem (hdis _ ha.right_mem)
    · exact (ihr hr hd ha).imp_right (Or.imp (fun h => Or.inr (Or.inr h)) (fun h => Or.inr (Or.inr h)))

theorem Holds.mem_nodes {F B : Forest} {a : OpId} {l : Loop} (h : F.Holds a l B) : (a, .loop l) ∈ F.nodes := by
  induction F with
  | nil => exact h.elim
  | op id i rest ih => exact List.mem_cons_of_mem _ (ih h)
  | loop id l' body rest ihb ihr =>
    rcases h with ⟨rfl, rfl, rfl⟩ | h | h
    · exact List.mem_cons_self ..
    · exact List.mem_cons_of_mem _ (List.mem_append_left _ (ihb h))
    · exact List.mem_cons_of_mem _ (List.mem_append_right _ (ihr h))

theorem exists_holds {F : Forest} (hF : F.Plain) {a : OpId} {l : Loop} (h : (a, .loop l) ∈ F.nodes) :
    ∃ B, F.Holds a l B := by
  induction F with
  | nil => simp [nodes] at h
  | op id i rest ih =>
    rcases List.mem_cons.mp h with h | h
    · cases h
      exact absurd hF.1 (by simp [Instr.region?])
    · exact ih hF.2 h
  | loop id l' body rest ihb ihr =>
    simp only [nodes, List.mem_cons, List.mem_append, Prod.mk.injEq, Instr.loop.injEq] at h
    rcases h with ⟨rfl, rfl⟩ | h | h
    · exact ⟨body, Or.inl ⟨rfl, rfl, rfl⟩⟩
    · obtain ⟨B, hB⟩ := ihb hF.1 h
      exact ⟨B, Or.inr (Or.inl hB)⟩
    · obtain ⟨B, hB⟩ := ihr hF.2 h
      exact ⟨B, Or.inr (Or.inr hB)⟩

theorem Holds.nodes_subset {F B : Forest} {a : OpId} {l : Loop} (h : F.Holds a l B) {n : Node} (hn : n ∈ B.nodes) :
    n ∈ F.nodes := by
  induction F with
  | nil => exact h.elim
  | op id i rest ih => exact List.mem_cons_of_mem _ (ih h)
  | loop id l' body rest ihb ihr =>
    rcases h with ⟨rfl, rfl, rfl⟩ | h | h
    · exact List.mem_cons_of_mem _ (List.mem_append_left _ hn)
    · exact List.mem_cons_of_mem _ (List.mem_append_left _ (ihb h))
    · exact List.mem_cons_of_mem _ (List.mem_append_right _ (ihr h))

theorem Holds.ids_subset {F B : Forest} {a : OpId} {l : Loop} (h : F.Holds a l B) {x : OpId} (hx : x ∈ B.ids) :
    x ∈ F.ids := by
  obtain ⟨i, hn⟩ := exists_mem_nodes hx
  exact mem_ids_of_mem_nodes (h.nodes_subset hn)

theorem Holds.nodup {F B : Forest} {a : OpId} {l : Loop} (h : F.Holds a l B) (hF : F.ids.Nodup) : B.ids.Nodup := by
  induction F with
  | nil => exact h.elim
  | op id i rest ih => exact ih h (nodup_op hF).2
  | loop id l' body rest ihb ihr =>
    obtain ⟨_, _, hb, hr, _⟩ := nodup_loop hF
    rcases h with ⟨rfl, rfl, rfl⟩ | h | h
    · exact hb
    · exact ihb h hb
    · exact ihr h hr

theorem Holds.plain {F B : Forest} {a : OpId} {l : Loop} (h : F.Holds a l B) (hF : F.Plain) : B.Plain := by
  induction F with
  | nil => exact h.elim
  | op id i rest ih => exact ih h hF.2
  | loop id l' body rest ihb ihr =>
    rcases h with ⟨rfl, rfl, rfl⟩ | h | h
    · exact hF.1
    · exact ihb h hF.1
    · exact ihr h hF.2

theorem Holds.inScope_of_body {F B : Forest} {a : OpId} {l : Loop} (h : F.Holds a l B) {d u : OpId}
    (hd : B.InScope d u) : F.InScope d u := by
  induction F with
  | nil => exact h.elim
  | op id i rest ih => exact Or.inr (ih h)
  | loop id l' body rest ihb ihr =>
    rcases h with ⟨rfl, rfl, rfl⟩ | h | h
    · exact Or.inr (Or.inl hd)
    · exact Or.inr (Or.inl (ihb h))
    · exact Or.inr (Or.inr (ihr h))

theorem Holds.trans {F B C : Forest} {a b : OpId} {l m : Loop} (h : F.Holds a l B) (h' : B.Holds b m C) :
    F.Holds b m C := by
  induction F with
  | nil => exact h.elim
  | op id i rest ih => exact ih h
  | loop id l' body rest ihb ihr =>
    rcases h with ⟨rfl, rfl, rfl⟩ | h | h
    · exact Or.inr (Or.inl h')
    · exact Or.inr (Or.inl (ihb h))
    · exact Or.inr (Or.inr (ihr h))

theorem Holds.inScope_iff {F B : Forest} {a : OpId} {l : Loop} (h : F.Holds a l B) (hF : F.ids.Nodup) {u : OpId} :
    F.InScope a u ↔ u ∈ B.ids := by
  induction F with
  | nil => exact h.elim
  | op id i rest ih =>
    obtain ⟨hid, hrest⟩ := nodup_op hF
    rw [← ih h hrest]
    refine ⟨fun hs => hs.resolve_left ?_, Or.inr⟩
    rintro ⟨rfl, _⟩
    exact hid (mem_ids_of_mem_nodes (Holds.mem_nodes (F := rest) h))
  | loop id l' body rest ihb ihr =>
    obtain ⟨hidb, hidr, hb, hr, hdis⟩ := nodup_loop hF
    rcases h with ⟨rfl, rfl, rfl⟩ | h | h
    · refine ⟨?_, fun hu => Or.inl ⟨rfl, hu⟩⟩
      rintro (⟨_, hu⟩ | hs | hs)
      · exact hu
      · exact absurd hs.left_mem hidb
      · exact absurd hs.left_mem hidr
    · have ha := mem_ids_of_mem_nodes (Holds.mem_nodes h)
      rw [← ihb h hb]
      refine ⟨?_, fun hu => Or.inr (Or.inl hu)⟩
      rintro (⟨rfl, _⟩ | hs | hs)
      · exact absurd ha hidb
      · exact hs
      · exact absurd hs.left_mem (hdis _ ha)
    · have ha := mem_ids_of_mem_nodes (Holds.mem_nodes h)
      rw [← ihr h hr]
      refine ⟨?_, fun hu => Or.inr (Or.inr hu)⟩
      rintro (⟨rfl, _⟩ | hs | hs)
      · exact absurd ha hidr
      · exact absurd ha (hdis _ hs.left_mem)
      · exact hs

theorem Holds.unique {F B B' : Forest} {a : OpId} {l l' : Loop} (h : F.Holds a l B) (h' : F.Holds a l' B')
    (hF : F.ids.Nodup) : l = l' ∧ B = B' := by
  induction F with
  | nil => exact h.elim
  | op id i rest ih => exact ih h h' (nodup_op hF).2
  | loop id m body rest ihb ihr =>
    obtain ⟨hidb, hidr, hb, hr, hdis⟩ := nodup_loop hF
    have mem : ∀ {G m B}, Holds G a m B → a ∈ G.ids := fun h => mem_ids_of_mem_nodes (Holds.mem_nodes h)
    rcases h with ⟨rfl, rfl, rfl⟩ | h | h <;> rcases h' with ⟨e, rfl, rfl⟩ | h' | h'
    · exact ⟨rfl, rfl⟩
    · exact absurd (mem h') hidb
    · exact absurd (mem h') hidr
    · exact absurd (e ▸ mem h) hidb
    · exact ihb h h' hb
    · exact absurd (mem h') (hdis _ (mem h))
    · exact absurd (e ▸ mem h) hidr
    · exact absurd (mem h) (hdis _ (mem h'))
    · exact ihr h h' hr

theorem Child.inScope {F : Forest} {a x : OpId} (h : F.Child a x) (hF : F.ids.Nodup) : F.InScope a x := by
  obtain ⟨l, B, hB, hx⟩ := h
  exact (hB.inScope_iff hF).mpr (mem_ids_of_mem_tops hx)

theorem Leads.child {F : Forest} {a g : OpId} (h : F.Leads a g) : F.Child a g := by
  obtain ⟨l, B, hB⟩ := h
  exact ⟨l, _, hB, List.mem_cons_self ..⟩

theorem Leads.unique {F : Forest} {a g g' : OpId} (h : F.Leads a g) (h' : F.Leads a g') (hF : F.ids.Nodup) :
    g = g' := by
  obtain ⟨l, B, hB⟩ := h
  obtain ⟨l', B', hB'⟩ := h'
  have heq := (hB.unique hB' hF).2
  injection heq

theorem Leads.mem_nodes {F : Forest} {a g : OpId} (h : F.Leads a g) : (g, .barrier) ∈ F.nodes := by
  obtain ⟨l, B, hB⟩ := h
  exact hB.nodes_subset (List.mem_cons_self ..)

theorem Leads.inScope {F : Forest} {a g u : OpId} (h : F.Leads a g) (hF : F.ids.Nodup) (hu : F.InScope a u)
    (hne : u ≠ g) : F.InScope g u := by
  obtain ⟨l, B, hB⟩ := h
  have hmem := (hB.inScope_iff hF).mp hu
  exact hB.inScope_of_body (Or.inl ⟨rfl, (List.mem_cons.mp hmem).resolve_left hne⟩)

end Forest
end SlotRotation
