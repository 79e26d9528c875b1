import SlotRotation.Kernel.Scope
import SlotRotation.Proofs.Nesting

/-! `verify` accepts a kernel exactly if every operand is the result of an op in whose scope it is read. The check
climbs from the reader to the region of the definition and compares places there; in the forest that region is a
level, and each op is below exactly one op of a level that it is not outside of. -/

namespace SlotRotation

namespace Forest

def Scoped (F : Forest) : Prop :=
  ∀ n ∈ F.nodes, ∀ v ∈ n.2.operands, ∃ d ∈ F.nodes, d.2.result? = some v ∧ F.InScope d.1 n.1

def Reaches (F : Forest) (v : ValueId) : Prop :=
  ∀ n ∈ F.nodes, v ∈ n.2.operands → ∃ d ∈ F.nodes, d.2.result? = some v ∧ F.InScope d.1 n.1

theorem Scoped.reaches {F : Forest} (h : F.Scoped) (v : ValueId) : F.Reaches v := fun n hn hv => h n hn v hv

def Level (F : Forest) (r : RegionId) (G : Forest) : Prop :=
  (r = Kernel.body ∧ G = F) ∨ ∃ a l, F.Holds a l G ∧ l.body = r

/-- `d` is a top of the forest and no loop, and `u` is at or under a later top. -/
def Ahead : Forest → OpId → OpId → Prop
  | nil, _, _ => False
  | op id _ rest, d, u => (id = d ∧ u ∈ rest.ids) ∨ rest.Ahead d u
  | loop _ _ _ rest, d, u => rest.Ahead d u

def Under (F : Forest) (m u : OpId) : Prop := m = u ∨ F.Encloses m u

theorem exists_top_under {F : Forest} {u : OpId} (h : u ∈ F.ids) : ∃ m ∈ F.tops, F.Under m u := by
  induction F with
  | nil => simp at h
  | op id i rest ih =>
    rcases List.mem_cons.mp h with rfl | h
    · exact ⟨u, List.mem_cons_self .., Or.inl rfl⟩
    · obtain ⟨m, hm, hu⟩ := ih h
      refine ⟨m, List.mem_cons_of_mem _ hm, hu.imp_right ?_⟩
      rintro ⟨hs, l, hl⟩
      exact ⟨Or.inr hs, l, List.mem_cons_of_mem _ hl⟩
  | loop id l body rest _ ih =>
    rw [ids_loop, List.mem_cons, List.mem_append] at h
    rcases h with rfl | h | h
    · exact ⟨u, List.mem_cons_self .., Or.inl rfl⟩
    · exact ⟨id, List.mem_cons_self .., Or.inr ⟨Or.inl ⟨rfl, h⟩, l, List.mem_cons_self ..⟩⟩
    · obtain ⟨m, hm, hu⟩ := ih h
      refine ⟨m, List.mem_cons_of_mem _ hm, hu.imp_right ?_⟩
      rintro ⟨hs, l', hl⟩
      exact ⟨Or.inr (Or.inr hs), l', List.mem_cons_of_mem _ (List.mem_append_right _ hl)⟩

theorem not_encloses_of_mem_tops {F : Forest} (hF : F.ids.Nodup) (hP : F.Plain) {a x : OpId} (hx : x ∈ F.tops) :
    ¬F.Encloses a x := by
  induction F with
  | nil => exact fun h => h.1
  | op id i rest ih =>
    obtain ⟨hid, hrest⟩ := nodup_op hF
    rw [encloses_op hF hP.1]
    rcases List.mem_cons.mp hx with rfl | hx
    · exact fun h => hid h.mem
    · exact ih hrest hP.2 hx
  | loop id l body rest _ ih =>
    obtain ⟨hidb, hidr, -, hr, hdis⟩ := nodup_loop hF
    have hxb : x ∉ body.ids := by
      intro hxb
      rcases List.mem_cons.mp hx with rfl | hx
      · exact hidb hxb
      · exact hdis x hxb (mem_ids_of_mem_tops hx)
    rw [encloses_loop hF]
    rintro (⟨-, h⟩ | h | h)
    · exact hxb h
    · exact hxb h.mem
    · rcases List.mem_cons.mp hx with rfl | hx
      · exact hidr h.mem
      · exact ih hr hP.2 hx h

theorem under_unique {F : Forest} (hF : F.ids.Nodup) (hP : F.Plain) {m m' u : OpId} (hm : m ∈ F.tops)
    (hm' : m' ∈ F.tops) (hu : F.Under m u) (hu' : F.Under m' u) : m = m' := by
  rcases hu with rfl | hu <;> rcases hu' with rfl | hu'
  · rfl
  · exact absurd hu' (not_encloses_of_mem_tops hF hP hm)
  · exact absurd hu (not_encloses_of_mem_tops hF hP hm')
  · rcases InScope.linear hF hu.1 hu'.1 with h | h | h
    · exact h
    · exact absurd ⟨h, hu.2⟩ (not_encloses_of_mem_tops hF hP hm')
    · exact absurd ⟨h, hu'.2⟩ (not_encloses_of_mem_tops hF hP hm)

theorem Ahead.left_mem {F : Forest} {d u : OpId} (h : F.Ahead d u) : d ∈ F.tops := by
  induction F with
  | nil => exact h.elim
  | op id i rest ih =>
    rcases h with ⟨rfl, -⟩ | h
    · exact List.mem_cons_self ..
    · exact List.mem_cons_of_mem _ (ih h)
  | loop id l body rest _ ih => exact List.mem_cons_of_mem _ (ih h)

theorem Ahead.inScope {F : Forest} {d u : OpId} (h : F.Ahead d u) : F.InScope d u := by
  induction F with
  | nil => exact h
  | op id i rest ih => exact h.imp_right ih
  | loop id l body rest _ ih => exact Or.inr (Or.inr (ih h))

theorem InScope.exists_ahead {F : Forest} (hF : F.ids.Nodup) {d : Node} (hd : d ∈ F.nodes) (hi : d.2.region? = none)
    {u : OpId} (h : F.InScope d.1 u) : F.Ahead d.1 u ∨ ∃ a l B, F.Holds a l B ∧ B.Ahead d.1 u := by
  induction F with
  | nil => exact h.elim
  | op id i rest ih =>
    obtain ⟨hid, hrest⟩ := nodup_op hF
    rcases h with ⟨rfl, hu⟩ | h
    · exact Or.inl (Or.inl ⟨rfl, hu⟩)
    · have hd' : d ∈ rest.nodes := (List.mem_cons.mp hd).resolve_left fun e => hid (by
        have := h.left_mem; rw [e] at this; exact this)
      exact (ih hrest hd' h).imp_left Or.inr
  | loop id l body rest ihb ihr =>
    obtain ⟨hidb, hidr, hb, hr, hdis⟩ := nodup_loop hF
    simp only [nodes, List.mem_cons, List.mem_append] at hd
    rcases hd with rfl | hd | hd
    · cases hi
    · have hdb := mem_ids_of_mem_nodes hd
      rcases h with ⟨rfl, -⟩ | h | h
      · exact absurd hdb hidb
      · refine Or.inr ?_
        rcases ihb hb hd h with h | ⟨a, l', B, hB, h⟩
        · exact ⟨id, l, body, Or.inl ⟨rfl, rfl, rfl⟩, h⟩
        · exact ⟨a, l', B, Or.inr (Or.inl hB), h⟩
      · exact absurd h.left_mem (hdis _ hdb)
    · have hdr := mem_ids_of_mem_nodes hd
      rcases h with ⟨rfl, -⟩ | h | h
      · exact absurd hdr hidr
      · exact absurd hdr (hdis _ h.left_mem)
      · rcases ihr hr hd h with h | ⟨a, l', B, hB, h⟩
        · exact Or.inl h
        · exact Or.inr ⟨a, l', B, Or.inr (Or.inr hB), h⟩

theorem encloses_op_iff {rest : Forest} {id m u : OpId} {i : Instr} (hid : id ∉ rest.ids) (hm : m ∈ rest.ids) :
    (op id i rest).Encloses m u ↔ rest.Encloses m u := by
  have hne : id ≠ m := fun e => hid (e ▸ hm)
  have hs : (op id i rest).InScope m u ↔ rest.InScope m u := by simp [InScope, hne]
  have hl : ∀ l, (m, .loop l) ∈ (op id i rest).nodes ↔ (m, .loop l) ∈ rest.nodes := by
    intro l
    simp [nodes, hne.symm]
  simp only [Encloses, hs, hl]

theorem encloses_loop_iff {body rest : Forest} {id m u : OpId} {l : Loop} (hF : (loop id l body rest).ids.Nodup)
    (hm : m ∈ rest.ids) : (loop id l body rest).Encloses m u ↔ rest.Encloses m u := by
  obtain ⟨-, hidr, -, -, hdis⟩ := nodup_loop hF
  rw [encloses_loop hF]
  refine ⟨?_, fun h => Or.inr (Or.inr h)⟩
  rintro (⟨rfl, -⟩ | h | h)
  · exact absurd hm hidr
  · exact absurd hm (hdis _ h.1.left_mem)
  · exact h

theorem exists_later_cons {x d : OpId} {ts : List OpId} {P Q : OpId → Prop} (hx : x ∉ ts) (hd : x ≠ d)
    (h : ∀ m ∈ ts, P m ↔ Q m) :
    (∃ m ∈ x :: ts, P m ∧ d ∈ x :: ts ∧ (x :: ts).idxOf d < (x :: ts).idxOf m) ↔
      ∃ m ∈ ts, Q m ∧ d ∈ ts ∧ ts.idxOf d < ts.idxOf m := by
  constructor
  · rintro ⟨m, hm, hP, hmem, hlt⟩
    have hne : x ≠ m := by
      rintro rfl
      rw [List.idxOf_cons_self] at hlt
      exact Nat.not_lt_zero _ hlt
    rw [List.idxOf_cons_ne _ hd, List.idxOf_cons_ne _ hne, Nat.succ_lt_succ_iff] at hlt
    have hm' := (List.mem_cons.mp hm).resolve_left hne.symm
    exact ⟨m, hm', (h m hm').mp hP, (List.mem_cons.mp hmem).resolve_left hd.symm, hlt⟩
  · rintro ⟨m, hm, hQ, hmem, hlt⟩
    have hne : x ≠ m := fun e => hx (e ▸ hm)
    refine ⟨m, List.mem_cons_of_mem _ hm, (h m hm).mpr hQ, List.mem_cons_of_mem _ hmem, ?_⟩
    rw [List.idxOf_cons_ne _ hd, List.idxOf_cons_ne _ hne]
    exact Nat.succ_lt_succ hlt

theorem ahead_iff {F : Forest} (hF : F.ids.Nodup) {d : Node} (hd : d ∈ F.nodes) (hi : d.2.region? = none)
    {u : OpId} :
    F.Ahead d.1 u ↔
      ∃ m ∈ F.tops, F.Under m u ∧ d.1 ∈ F.tops ∧ F.tops.idxOf d.1 < F.tops.idxOf m := by
  induction F with
  | nil => simp [nodes] at hd
  | op id i rest ih =>
    obtain ⟨hid, hrest⟩ := nodup_op hF
    rcases List.mem_cons.mp hd with rfl | hd
    · constructor
      · intro h
        have hu : u ∈ rest.ids := h.elim And.right fun h => absurd (mem_ids_of_mem_tops h.left_mem) hid
        obtain ⟨m, hm, hmu⟩ := exists_top_under hu
        have hmem := mem_ids_of_mem_tops hm
        have hne : id ≠ m := fun e => hid (e ▸ hmem)
        refine ⟨m, List.mem_cons_of_mem _ hm, hmu.imp_right (encloses_op_iff hid hmem).mpr, List.mem_cons_self ..,
          ?_⟩
        simp [tops, List.idxOf_cons_ne _ hne]
      · rintro ⟨m, hm, hmu, -, hlt⟩
        have hne : m ≠ id := by
          rintro rfl
          exact absurd hlt (Nat.lt_irrefl _)
        have hmem := mem_ids_of_mem_tops ((List.mem_cons.mp hm).resolve_left hne)
        refine Or.inl ⟨rfl, ?_⟩
        rcases hmu with rfl | hmu
        · exact hmem
        · exact ((encloses_op_iff hid hmem).mp hmu).mem
    · have hne : id ≠ d.1 := fun e => hid (e ▸ mem_ids_of_mem_nodes hd)
      have hahead : (op id i rest).Ahead d.1 u ↔ rest.Ahead d.1 u := by simp [Ahead, hne]
      rw [hahead, ih hrest hd]
      refine (exists_later_cons (fun h => hid (mem_ids_of_mem_tops h)) hne fun m hm => ?_).symm
      exact or_congr_right (encloses_op_iff hid (mem_ids_of_mem_tops hm))
  | loop id l body rest _ ih =>
    obtain ⟨hidb, hidr, hb, hr, hdis⟩ := nodup_loop hF
    by_cases hmem : d.1 ∈ rest.ids
    · have hd' : d ∈ rest.nodes := by
        simp only [nodes, List.mem_cons, List.mem_append] at hd
        rcases hd with rfl | hd | hd
        · exact absurd hmem hidr
        · exact absurd hmem (hdis _ (mem_ids_of_mem_nodes hd))
        · exact hd
      have hne : id ≠ d.1 := fun e => hidr (e ▸ hmem)
      rw [Ahead, ih hr hd']
      refine (exists_later_cons (fun h => hidr (mem_ids_of_mem_tops h)) hne fun m hm => ?_).symm
      exact or_congr_right (encloses_loop_iff hF (mem_ids_of_mem_tops hm))
    · have hne : d.1 ≠ id := by
        rintro rfl
        have heq := node_unique hF hd (List.mem_cons_self ..)
        rw [heq] at hi
        cases hi
      have htop : d.1 ∉ (loop id l body rest).tops := by
        rw [tops, List.mem_cons, not_or]
        exact ⟨hne, fun h => hmem (mem_ids_of_mem_tops h)⟩
      refine ⟨fun h => absurd h.left_mem htop, ?_⟩
      rintro ⟨_, _, _, h, _⟩
      exact absurd h htop

theorem exists_level {F : Forest} {x : OpId} (h : x ∈ F.ids) : ∃ r G, F.Level r G ∧ x ∈ G.tops := by
  have key : x ∈ F.tops ∨ ∃ a l B, F.Holds a l B ∧ x ∈ B.tops := by
    induction F with
    | nil => simp at h
    | op id i rest ih =>
      rcases List.mem_cons.mp h with rfl | h
      · exact Or.inl (List.mem_cons_self ..)
      · exact (ih h).imp_left (List.mem_cons_of_mem _)
    | loop id l body rest ihb ihr =>
      rw [ids_loop, List.mem_cons, List.mem_append] at h
      rcases h with rfl | h | h
      · exact Or.inl (List.mem_cons_self ..)
      · refine Or.inr ?_
        rcases ihb h with h | ⟨a, l', B, hB, hx⟩
        · exact ⟨id, l, body, Or.inl ⟨rfl, rfl, rfl⟩, h⟩
        · exact ⟨a, l', B, Or.inr (Or.inl hB), hx⟩
      · rcases ihr h with h | ⟨a, l', B, hB, hx⟩
        · exact Or.inl (List.mem_cons_of_mem _ h)
        · exact Or.inr ⟨a, l', B, Or.inr (Or.inr hB), hx⟩
  rcases key with h | ⟨a, l, B, hB, hx⟩
  · exact ⟨Kernel.body, F, Or.inl ⟨rfl, rfl⟩, h⟩
  · exact ⟨l.body, B, Or.inr ⟨a, l, hB, rfl⟩, hx⟩

namespace Level

variable {F G : Forest} {r : RegionId}

theorem nodes_subset (h : F.Level r G) {n : Node} (hn : n ∈ G.nodes) : n ∈ F.nodes := by
  rcases h with ⟨-, rfl⟩ | ⟨a, l, hG, -⟩
  · exact hn
  · exact hG.nodes_subset hn

theorem nodup (h : F.Level r G) (hF : F.ids.Nodup) : G.ids.Nodup := by
  rcases h with ⟨-, rfl⟩ | ⟨a, l, hG, -⟩
  · exact hF
  · exact hG.nodup hF

theorem plain (h : F.Level r G) (hF : F.Plain) : G.Plain := by
  rcases h with ⟨-, rfl⟩ | ⟨a, l, hG, -⟩
  · exact hF
  · exact hG.plain hF

theorem inScope (h : F.Level r G) {d u : OpId} (hd : G.InScope d u) : F.InScope d u := by
  rcases h with ⟨-, rfl⟩ | ⟨a, l, hG, -⟩
  · exact hd
  · exact hG.inScope_of_body hd

theorem node_mem (h : F.Level r G) (hF : F.ids.Nodup) {n : Node} (hn : n ∈ F.nodes) (hG : n.1 ∈ G.ids) :
    n ∈ G.nodes := by
  obtain ⟨i, hi⟩ := exists_mem_nodes hG
  obtain rfl : i = n.2 := node_unique hF (h.nodes_subset hi) hn
  exact hi

theorem holds (h : F.Level r G) {B : Forest} {a : OpId} {l : Loop} (hB : G.Holds a l B) : F.Holds a l B := by
  rcases h with ⟨-, rfl⟩ | ⟨c, l', hG, -⟩
  · exact hB
  · induction F with
    | nil => exact hG.elim
    | op id i rest ih => exact ih hG
    | loop id m body rest ihb ihr =>
      rcases hG with ⟨rfl, rfl, rfl⟩ | hG | hG
      · exact Or.inr (Or.inl hB)
      · exact Or.inr (Or.inl (ihb hG))
      · exact Or.inr (Or.inr (ihr hG))

theorem encloses_iff (h : F.Level r G) (hF : F.ids.Nodup) (hP : F.Plain) {m u : OpId} (hm : m ∈ G.ids) :
    G.Encloses m u ↔ F.Encloses m u := by
  constructor
  · rintro ⟨hs, l, hl⟩
    exact ⟨h.inScope hs, l, h.nodes_subset hl⟩
  · rintro ⟨hs, l, hl⟩
    have hl' := h.node_mem hF hl hm
    obtain ⟨B, hB⟩ := exists_holds (h.plain hP) hl'
    have hu := ((h.holds hB).inScope_iff hF).mp hs
    exact ⟨(hB.inScope_iff (h.nodup hF)).mpr hu, l, hl'⟩

end Level
end Forest

namespace Kernel

variable {k : Kernel} {F G : Forest} {r : RegionId}

theorem Placed.holds {B : Forest} {a : OpId} {l : Loop} (h : k.Placed r F) (hB : F.Holds a l B) :
    k.regionOps l.body = B.tops ∧ k.owner? l.body = some a ∧ k.Placed l.body B := by
  induction F generalizing r with
  | nil => exact hB.elim
  | op id i rest ih => exact ih h.2.2 hB
  | loop id l' body rest ihb ihr =>
    rcases hB with ⟨rfl, rfl, rfl⟩ | hB | hB
    · exact ⟨h.2.1, h.2.2.1, h.2.2.2.1⟩
    · exact ihb h.2.2.2.1 hB
    · exact ihr h.2.2.2.2 hB

namespace Arranges

theorem regionOps_level (h : Arranges k F) (hG : F.Level r G) : k.regionOps r = G.tops := by
  rcases hG with ⟨rfl, rfl⟩ | ⟨a, l, hG, rfl⟩
  · exact h.top
  · exact (h.placed.holds hG).1

theorem placed_level (h : Arranges k F) (hG : F.Level r G) : k.Placed r G := by
  rcases hG with ⟨rfl, rfl⟩ | ⟨a, l, hG, rfl⟩
  · exact h.placed
  · exact (h.placed.holds hG).2.2

theorem level_unique (h : Arranges k F) {G' : Forest} (hG : F.Level r G) (hG' : F.Level r G') : G = G' := by
  have howner : ∀ {a l B}, F.Holds a l B → k.owner? l.body = some a := fun hB => (h.placed.holds hB).2.1
  rcases hG with ⟨rfl, rfl⟩ | ⟨a, l, hG, rfl⟩ <;> rcases hG' with ⟨e, rfl⟩ | ⟨a', l', hG', e⟩
  · rfl
  · have hne := howner hG'
    rw [e, h.root] at hne
    cases hne
  · have hne := howner hG
    rw [e, h.root] at hne
    cases hne
  · have ha := howner hG'
    rw [e, howner hG, Option.some.injEq] at ha
    subst ha
    exact (hG.unique hG' h.nodup).2

theorem home?_level (h : Arranges k F) (hG : F.Level r G) {x : OpId} (hx : x ∈ G.tops) : k.home? x = some r := by
  obtain ⟨i, hi⟩ := (h.placed_level hG).op?_of_mem_tops hx
  simp [home?, hi]

theorem region_unique (h : Arranges k F) {s : RegionId} {H : Forest} {x : OpId} (hG : F.Level r G) (hx : x ∈ G.tops)
    (hH : F.Level s H) (hx' : x ∈ H.tops) : s = r := by
  have hhome := h.home?_level hG hx
  rwa [h.home?_level hH hx', Option.some.injEq] at hhome

theorem region?_level (h : Arranges k F) (hG : F.Level r G) : (k.region? r).isSome := by
  rcases hG with ⟨rfl, -⟩ | ⟨a, l, hG, rfl⟩
  · exact h.rooted
  · have howner : (k.region? l.body).bind Region.owner = some a := (h.placed.holds hG).2.1
    obtain ⟨region, hregion, -⟩ := Option.bind_eq_some_iff.mp howner
    exact Option.isSome_iff_exists.mpr ⟨region, hregion⟩

theorem mem_tops_of_home? (h : Arranges k F) (hG : F.Level r G) {x : OpId} (hx : k.home? x = some r) :
    x ∈ G.tops := by
  obtain ⟨op, hop, hr⟩ := Option.map_eq_some_iff.mp hx
  have hlive : k.isLive x := by simp [isLive, hop]
  obtain ⟨r', G', hG', hx'⟩ := Forest.exists_level (h.isLive_iff.mp hlive)
  have hhome := h.home?_level hG' hx'
  rw [hx, Option.some.injEq] at hhome
  subst hhome
  exact h.level_unique hG' hG ▸ hx'

theorem idxOf?_of_mem {x : OpId} {ts : List OpId} (h : x ∈ ts) : ts.idxOf? x = some (ts.idxOf x) := by
  induction ts with
  | nil => simp at h
  | cons t ts ih =>
    by_cases htx : t = x
    · simp [List.idxOf?_cons, htx]
    · have hx := (List.mem_cons.mp h).resolve_left (Ne.symm htx)
      simp [List.idxOf?_cons, List.idxOf_cons_ne _ htx, htx, ih hx]

theorem position?_level (h : Arranges k F) (hG : F.Level r G) {x : OpId} (hx : x ∈ G.tops) :
    k.position? x = some (G.tops.idxOf x) := by
  obtain ⟨i, hi⟩ := (h.placed_level hG).op?_of_mem_tops hx
  have hops : k.regionOps r = G.tops := h.regionOps_level hG
  simp only [position?, hi, Option.bind_eq_bind, Option.bind_some, hops]
  exact idxOf?_of_mem hx

theorem standsBefore_level (h : Arranges k F) (hG : F.Level r G) {x y : OpId} (hx : x ∈ G.tops) (hy : y ∈ G.tops) :
    k.standsBefore x y ↔ G.tops.idxOf x < G.tops.idxOf y := by
  simp [standsBefore, h.position?_level hG hx, h.position?_level hG hy]

/-- The climb from a reader meets a level at the one op of the level that the reader is at or under. -/
theorem meeting?_eq_some_iff (h : Arranges k F) (hG : F.Level r G) {d m u : OpId} (hd : d ∈ G.tops)
    (hu : u ∈ F.ids) : k.meeting? d u = some m ↔ m ∈ G.tops ∧ G.Under m u := by
  have hhome : k.home? d = some r := h.home?_level hG hd
  have hclimb : ∀ x, x ∈ u :: k.ancestors u ↔ F.Under x u := by
    intro x
    have hanc : x ∈ k.ancestors u ↔ F.Encloses x u := by
      rw [← h.isAncestor_iff hu, isAncestor, decide_eq_true_iff]
    rw [List.mem_cons, hanc, Forest.Under]
  have hunder : ∀ x ∈ G.tops, G.Under x u ↔ F.Under x u := fun x hx =>
    or_congr_right (hG.encloses_iff h.nodup h.plain (Forest.mem_ids_of_mem_tops hx))
  have hfound : ∀ x, k.meeting? d u = some x → x ∈ G.tops ∧ G.Under x u := by
    intro x hx
    have hmem := (hclimb x).mp (List.mem_of_find?_eq_some hx)
    have hxr : k.home? x = k.home? d := by simpa using List.find?_some hx
    have hxG := h.mem_tops_of_home? hG (hxr.trans hhome)
    exact ⟨hxG, (hunder x hxG).mpr hmem⟩
  refine ⟨hfound m, ?_⟩
  rintro ⟨hm, hmu⟩
  cases hx : k.meeting? d u with
  | none =>
    have hnone := List.find?_eq_none.mp hx m ((hclimb m).mpr ((hunder m hm).mp hmu))
    rw [h.home?_level hG hm, hhome] at hnone
    simp at hnone
  | some x =>
    obtain ⟨hxG, hxu⟩ := hfound x hx
    rw [Forest.under_unique (hG.nodup h.nodup) (hG.plain h.plain) hxG hm hxu hmu]

/-- The scope of an op that is no loop is what comes later on its level. -/
theorem inScope_iff_later (h : Arranges k F) (hG : F.Level r G) {d u : OpId} {i : Instr} (hd : (d, i) ∈ F.nodes)
    (hi : i.region? = none) (hdG : d ∈ G.tops) :
    F.InScope d u ↔ ∃ m ∈ G.tops, G.Under m u ∧ G.tops.idxOf d < G.tops.idxOf m := by
  have hdG' := hG.node_mem h.nodup hd (Forest.mem_ids_of_mem_tops hdG)
  have hlevel : F.InScope d u ↔ G.Ahead d u := by
    refine ⟨fun hs => ?_, fun ha => hG.inScope ha.inScope⟩
    obtain ⟨r', G', hG', ha⟩ : ∃ r' G', F.Level r' G' ∧ G'.Ahead d u := by
      rcases hs.exists_ahead h.nodup hd hi with ha | ⟨a, l, B, hB, ha⟩
      · exact ⟨body, F, Or.inl ⟨rfl, rfl⟩, ha⟩
      · exact ⟨l.body, B, Or.inr ⟨a, l, hB, rfl⟩, ha⟩
    have hr := h.home?_level hG' ha.left_mem
    rw [h.home?_level hG hdG, Option.some.injEq] at hr
    subst hr
    exact h.level_unique hG hG' ▸ ha
  rw [hlevel, Forest.ahead_iff (hG.nodup h.nodup) hdG' hi]
  simp [hdG]

theorem owner?_of_mem (h : Arranges k F) {n : Node} (hn : n ∈ F.nodes) (hr : n.2.region? = some r) :
    k.owner? r = some n.1 := by
  obtain ⟨id, i⟩ := n
  cases i with
  | loop l =>
    cases hr
    obtain ⟨B, hB⟩ := Forest.exists_holds h.plain hn
    exact (h.placed.holds hB).2.1
  | _ => cases hr

end Arranges

theorem Stores.definition?_eq_some_iff (h : Stores k F) {v : ValueId} {d : OpId} :
    k.definition? v = some d ↔ ∃ i, (d, i) ∈ F.nodes ∧ i.result? = some v := by
  have hrec : k.definition? v = (k.recorded? v).filter k.isLive := rfl
  rw [hrec, Option.filter_eq_some_iff, h.isLive_iff]
  constructor
  · rintro ⟨hv, hd⟩
    obtain ⟨i, hi⟩ := Forest.exists_mem_nodes hd
    exact ⟨i, hi, (h.definition v d hv).2 i hi⟩
  · rintro ⟨i, hi, hv⟩
    exact ⟨h.defined _ hi v hv, Forest.mem_ids_of_mem_nodes hi⟩

theorem Stores.result_unique (h : Stores k F) {m n : Node} {v : ValueId} (hm : m ∈ F.nodes) (hn : n ∈ F.nodes)
    (hmv : m.2.result? = some v) (hnv : n.2.result? = some v) : m = n := by
  have hid := (h.defined m hm v hmv).symm.trans (h.defined n hn v hnv)
  rw [Option.some.injEq] at hid
  exact List.inj_on_of_nodup_map h.nodup hm hn hid

theorem Stores.nodup_results (h : Stores k F) {ns : List Node} (hns : ∀ n ∈ ns, n ∈ F.nodes) (hnodup : ns.Nodup) :
    (ns.filterMap fun n => n.2.result?).Nodup := by
  refine List.pairwise_filterMap.mpr (hnodup.imp_of_mem fun {n m} hn hm hne v hv w hw heq => hne ?_)
  exact h.result_unique (hns n hn) (hns m hm) hv (heq ▸ hw)

theorem Stores.visibleAt_iff (h : Stores k F) {v : ValueId} {u : OpId} (hu : u ∈ F.ids) :
    k.visibleAt v u ↔ ∃ d ∈ F.nodes, d.2.result? = some v ∧ F.InScope d.1 u := by
  have hdef : ∀ d, k.definition? v = some d →
      ((∃ d ∈ F.nodes, d.2.result? = some v ∧ F.InScope d.1 u) ↔ F.InScope d u) := by
    intro d hd
    obtain ⟨i, hi, hv⟩ := h.definition?_eq_some_iff.mp hd
    constructor
    · rintro ⟨d', hd', hv', hs⟩
      rwa [h.result_unique hd' hi hv' hv] at hs
    · exact fun hs => ⟨_, hi, hv, hs⟩
  cases hd : k.definition? v with
  | none =>
    simp only [visibleAt, hd, Bool.false_eq_true, false_iff]
    rintro ⟨d, hn, hv, -⟩
    rw [h.definition?_eq_some_iff.mpr ⟨d.2, hn, hv⟩] at hd
    cases hd
  | some d =>
    rw [hdef d hd]
    obtain ⟨i, hi, hv⟩ := h.definition?_eq_some_iff.mp hd
    cases hreg : i.region? with
    | some r =>
      obtain ⟨l, rfl⟩ : ∃ l, i = .loop l := by
        cases i <;> first | exact ⟨_, rfl⟩ | cases hreg
      have hl := h.loop?_eq_some_iff.mpr hi
      have hind : k.isInduction d v := by
        simpa [isInduction, hl, Instr.result?] using hv
      simp only [visibleAt, hd, hind, if_true]
      rw [h.isAncestor_iff hu]
      exact ⟨And.left, fun hs => ⟨hs, l, hi⟩⟩
    | none =>
      have hl : k.loop? d = none := by
        cases hl : k.loop? d with
        | none => rfl
        | some l =>
          rw [Forest.node_unique h.nodup hi (h.loop?_eq_some_iff.mp hl)] at hreg
          cases hreg
      have hind : k.isInduction d v = false := by simp [isInduction, hl]
      obtain ⟨r, G, hG, hdG⟩ := Forest.exists_level (Forest.mem_ids_of_mem_nodes hi)
      rw [h.inScope_iff_later hG hi hreg hdG]
      simp only [visibleAt, hd, hind, Bool.false_eq_true, if_false]
      constructor
      · intro hb
        cases hm : k.meeting? d u with
        | none => simp [hm] at hb
        | some m =>
          obtain ⟨hmG, hmu⟩ := (h.meeting?_eq_some_iff hG hdG hu).mp hm
          rw [hm] at hb
          exact ⟨m, hmG, hmu, (h.standsBefore_level hG hdG hmG).mp hb⟩
      · rintro ⟨m, hmG, hmu, hlt⟩
        rw [(h.meeting?_eq_some_iff hG hdG hu).mpr ⟨hmG, hmu⟩]
        exact (h.standsBefore_level hG hdG hmG).mpr hlt

theorem forM_eq_ok_iff {α : Type} {f : α → Except Error Unit} {xs : List α} :
    xs.forM f = .ok () ↔ ∀ x ∈ xs, f x = .ok () := by
  induction xs with
  | nil => simp [List.forM_eq_forM, pure, Except.pure]
  | cons x xs ih =>
    rw [List.forM_eq_forM] at ih ⊢
    cases hx : f x with
    | error e => simp [hx, bind, Except.bind]
    | ok a => simp [hx, bind, Except.bind, ih]

theorem Stores.checkOperand_eq_ok_iff (h : Stores k F) {v : ValueId} {u : OpId} (n : Nat) (hu : u ∈ F.ids) :
    k.checkOperand u n v = .ok () ↔ ∃ d ∈ F.nodes, d.2.result? = some v ∧ F.InScope d.1 u := by
  rw [← h.visibleAt_iff hu, checkOperand]
  cases hd : k.definition? v with
  | none => simp [visibleAt, hd]
  | some d => cases hv : k.visibleAt v u <;> simp

theorem Stores.checkOp_eq_ok_iff (h : Stores k F) {n : Node} (hn : n ∈ F.nodes) :
    k.checkOp n.1 = .ok () ↔
      ∀ v ∈ n.2.operands, ∃ d ∈ F.nodes, d.2.result? = some v ∧ F.InScope d.1 n.1 := by
  obtain ⟨s, hs⟩ := h.placed.op? hn
  have hget : k.getOp n.1 = .ok ⟨n.2, s⟩ := by simp [getOp, hs]
  have hregion : k.checkRegion n.1 n.2 = .ok () := by
    cases hr : n.2.region? with
    | none => simp [checkRegion, hr]
    | some r =>
      have howner : k.owner? r = some n.1 := h.owner?_of_mem hn hr
      simp [checkRegion, hr, howner]
  have hu := Forest.mem_ids_of_mem_nodes hn
  simp only [checkOp, hget, hregion, bind, Except.bind]
  rw [forM_eq_ok_iff]
  constructor
  · intro hall v hv
    obtain ⟨i, hi, rfl⟩ := List.mem_iff_getElem.mp hv
    refine (h.checkOperand_eq_ok_iff i hu).mp (hall (_, i) ?_)
    exact List.mem_zipIdx_iff_getElem?.mpr (List.getElem?_eq_getElem hi)
  · rintro hall ⟨v, i⟩ hv
    exact (h.checkOperand_eq_ok_iff i hu).mpr (hall v (List.fst_mem_of_mem_zipIdx hv))

/-- A kernel is accepted exactly if every operand is in scope. -/
theorem Stores.verify_eq_ok_iff (h : Stores k F) : k.verify = .ok () ↔ F.Scoped := by
  rw [verify, forM_eq_ok_iff, h.preorder_eq]
  constructor
  · intro hall n hn
    exact (h.checkOp_eq_ok_iff hn).mp (hall n.1 (Forest.mem_ids_of_mem_nodes hn))
  · intro hall id hid
    obtain ⟨i, hn⟩ := Forest.exists_mem_nodes hid
    exact (h.checkOp_eq_ok_iff hn).mpr (hall _ hn)

end Kernel
end SlotRotation
