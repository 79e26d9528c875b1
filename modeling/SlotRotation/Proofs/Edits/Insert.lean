import SlotRotation.Proofs.Edits.Basic

/-! A new op next to an op or at the top of a loop body. -/

namespace SlotRotation

namespace Forest

/-- What is put next to `a`, ahead of it or behind it, is inserted into a list that has `a` once. -/
theorem flatMap_beside {x a : OpId} {ts : List OpId} {f : OpId → List OpId} {j : Nat} (hj : j ≤ 1) (hts : ts.Nodup)
    (ha : a ∈ ts) (hself : f a = [a].insertIdx j x) (hother : ∀ t, t ≠ a → f t = [t]) :
    ts.flatMap f = ts.insertIdx (ts.idxOf a + j) x := by
  induction ts with
  | nil => cases ha
  | cons t ts ih =>
    obtain ⟨ht, hts'⟩ := List.nodup_cons.mp hts
    by_cases h : t = a
    · subst h
      have hrest : ts.flatMap f = ts :=
        (List.flatMap_congr fun u hu => hother u (ne_of_mem_of_not_mem hu ht)).trans (List.flatMap_singleton' ts)
      rw [List.flatMap_cons, hself, hrest, List.idxOf_cons_self, Nat.zero_add]
      obtain rfl | rfl := Nat.le_one_iff_eq_zero_or_eq_one.mp hj <;> rfl
    · have hmem := (List.mem_cons.mp ha).resolve_left (Ne.symm h)
      rw [List.flatMap_cons, ih hts' hmem, hother t h, List.idxOf_cons_ne _ h, Nat.succ_add]
      rfl

theorem flatMap_ite_of_ne {p : InsertPoint} {ts : List OpId} (x : OpId)
    (h : ∀ t ∈ ts, p ≠ .before t ∧ p ≠ .after t) :
    (ts.flatMap fun t => (if p = .before t then [x] else []) ++ t :: if p = .after t then [x] else []) = ts := by
  refine Eq.trans (List.flatMap_congr fun t ht => ?_) (List.flatMap_singleton' ts)
  rw [if_neg (h t ht).1, if_neg (h t ht).2, List.nil_append]

/-- A point next to an op that is no loop, or at the top of a loop body. -/
def Anchors (F : Forest) : InsertPoint → Prop
  | .before a | .after a => ∃ i, (a, i) ∈ F.nodes ∧ i.region? = none
  | .first r => ∃ a l, (a, .loop l) ∈ F.nodes ∧ l.body = r
  | .last _ => False

/-- The node next to which, or at the top of whose body, the point is. -/
def Hosts (n : Node) (p : InsertPoint) : Prop :=
  match n.2.region? with
  | some r => p = .first r
  | none => p = .before n.1 ∨ p = .after n.1

theorem hosts_leaf {n : Node} {p : InsertPoint} (h : n.2.region? = none) :
    Hosts n p ↔ p = .before n.1 ∨ p = .after n.1 := by
  rw [Hosts, h]

theorem hosts_owner {n : Node} {p : InsertPoint} {r : RegionId} (h : n.2.region? = some r) :
    Hosts n p ↔ p = .first r := by
  rw [Hosts, h]

theorem Anchors.exists_host {F : Forest} {p : InsertPoint} (hp : F.Anchors p) : ∃ n ∈ F.nodes, Hosts n p := by
  cases p with
  | last r => exact hp.elim
  | first r =>
    obtain ⟨a, l, hl, rfl⟩ := hp
    exact ⟨_, hl, rfl⟩
  | before a =>
    obtain ⟨i, hi, hnone⟩ := hp
    exact ⟨_, hi, (hosts_leaf hnone).mpr (Or.inl rfl)⟩
  | after a =>
    obtain ⟨i, hi, hnone⟩ := hp
    exact ⟨_, hi, (hosts_leaf hnone).mpr (Or.inr rfl)⟩

theorem mem_image_placing {p : InsertPoint} {ns : List Node} {m n : Node} :
    m ∈ (Rewriting.placing p ns).image n ↔ m = n ∨ (m ∈ ns ∧ Hosts n p) := by
  cases hr : n.2.region? with
  | none =>
    have hleaf : (Rewriting.placing p ns).image n = (Rewriting.placing p ns).leaf n.1 n.2 :=
      Rewriting.image_leaf _ hr
    rw [hleaf, hosts_leaf hr]
    simp only [Rewriting.placing, List.mem_append, List.mem_cons]
    by_cases hb : p = .before n.1
    · simpa [hb] using or_comm
    · by_cases ha : p = .after n.1 <;> simp [hb, ha]
  | some r =>
    rw [hosts_owner hr]
    obtain ⟨id, i⟩ := n
    cases i with
    | loop l =>
      obtain rfl : l.body = r := Option.some.inj hr
      rw [Rewriting.image_loop, List.mem_cons, Rewriting.top_placing]
      by_cases hf : p = .first l.body <;> simp [hf, Rewriting.placing]
    | _ => cases hr

theorem mem_placing {F : Forest} (hF : F.Plain) {p : InsertPoint} {ns : List Node} {n : Node} (hn : n ∈ F.nodes) :
    n ∈ (F.rewrite (.placing p ns)).nodes := mem_rewrite_of_mem_image hF hn (mem_image_placing.mpr (Or.inl rfl))

theorem Anchors.mem_placed {F : Forest} (hF : F.Plain) {p : InsertPoint} (hp : F.Anchors p) {ns : List Node}
    {n : Node} (hn : n ∈ ns) : n ∈ (F.rewrite (.placing p ns)).nodes := by
  obtain ⟨host, hhost, hhosts⟩ := hp.exists_host
  exact (mem_nodes_rewrite hF).mpr ⟨host, hhost, mem_image_placing.mpr (Or.inr ⟨hn, hhosts⟩)⟩

theorem Anchors.placing {F : Forest} (hF : F.Plain) {p q : InsertPoint} {ns : List Node} (h : F.Anchors p) :
    (F.rewrite (.placing q ns)).Anchors p := by
  cases p with
  | before a | after a =>
    obtain ⟨i, hi, hr⟩ := h
    exact ⟨i, mem_placing hF hi, hr⟩
  | first r =>
    obtain ⟨a, l, hl, hr⟩ := h
    exact ⟨a, l, mem_placing hF hl, hr⟩
  | last r => exact h

theorem mem_placing_cases {F : Forest} (hF : F.Plain) {p : InsertPoint} {ns : List Node} {n : Node}
    (hn : n ∈ (F.rewrite (.placing p ns)).nodes) : n ∈ F.nodes ∨ n ∈ ns := by
  obtain ⟨m, hm, hmn⟩ := (mem_nodes_rewrite hF).mp hn
  rcases mem_image_placing.mp hmn with rfl | ⟨hmem, -⟩
  · exact Or.inl hm
  · exact Or.inr hmem

theorem nodup_image_placing {p : InsertPoint} {x n : Node} (h : x.1 ≠ n.1) :
    (((Rewriting.placing p [x]).image n).map Prod.fst).Nodup := by
  cases hr : n.2.region? with
  | none =>
    have hleaf : (Rewriting.placing p [x]).image n = (Rewriting.placing p [x]).leaf n.1 n.2 :=
      Rewriting.image_leaf _ hr
    rw [hleaf]
    by_cases hb : p = .before n.1
    · simp [Rewriting.placing, hb, h]
    · by_cases ha : p = .after n.1 <;> simp [Rewriting.placing, hb, ha, h.symm]
  | some r =>
    obtain ⟨id, i⟩ := n
    cases i with
    | loop l =>
      rw [Rewriting.image_loop, Rewriting.top_placing]
      split <;> simp [h.symm]
    | _ => cases hr

theorem tops_placing {F G : Forest} (hF : F.ids.Nodup) {p : InsertPoint} (hp : F.Anchors p) (hG : G.Plain)
    (hsub : ∀ n ∈ G.nodes, n ∈ F.nodes) (x : Node) :
    (G.rewrite (.placing p [x])).tops =
      G.tops.flatMap fun t => (if p = .before t then [x.1] else []) ++ t :: if p = .after t then [x.1] else [] := by
  refine tops_rewrite hG (fun n _ _ => ?_) fun id l hl => ?_
  · simp only [Rewriting.placing, List.map_append, List.map_cons]
    split <;> split <;> rfl
  · have hloop : ∀ {i}, (id, i) ∈ F.nodes → i.region? ≠ none := by
      intro i hi
      rw [node_unique hF hi (hsub _ hl)]
      simp [Instr.region?]
    have hb : p ≠ .before id := by
      rintro rfl
      obtain ⟨i, hi, hnone⟩ := hp
      exact hloop hi hnone
    have ha : p ≠ .after id := by
      rintro rfl
      obtain ⟨i, hi, hnone⟩ := hp
      exact hloop hi hnone
    rw [if_neg hb, if_neg ha, List.nil_append]

end Forest

namespace Kernel

variable {k k' : Kernel} {F : Forest} {R : Rewriting}

theorem Arranges.exists_level_of_mem (h : Arranges k F) {a : OpId} {i : Instr} (ha : (a, i) ∈ F.nodes) :
    ∃ r G, F.Level r G ∧ a ∈ G.tops ∧ ∃ j, k.op? a = some ⟨j, r⟩ := by
  obtain ⟨r, G, hG, haG⟩ := Forest.exists_level (Forest.mem_ids_of_mem_nodes ha)
  exact ⟨r, G, hG, haG, (h.placed_level hG).op?_of_mem_tops haG⟩

/-- The point is at place `n` of the level `G`, and putting an op there is what `placing` says. -/
structure Resolves (k : Kernel) (F : Forest) (p : InsertPoint) (r : RegionId) (G : Forest) (n : Nat) : Prop where
  level : F.Level r G
  resolve : k.resolve p = .ok (r, n)
  beside : ∀ a op, p = .before a ∨ p = .after a → k.op? a = some op → op.region = r
  first : ∀ s, p = .first s → s = r
  here : ∀ x : Node, (Forest.prepend ((Rewriting.placing p [x]).top r) (G.rewrite (.placing p [x]))).tops =
    G.tops.insertIdx n x.1
  elsewhere : ∀ s H, F.Level s H → s ≠ r → ∀ x : Node,
    (Forest.prepend ((Rewriting.placing p [x]).top s) (H.rewrite (.placing p [x]))).tops = H.tops

theorem Arranges.resolve (h : Arranges k F) {p : InsertPoint} (hp : F.Anchors p) :
    ∃ r G n, Resolves k F p r G n := by
  have htops : ∀ {s H}, F.Level s H → ∀ x : Node, (H.rewrite (.placing p [x])).tops =
      H.tops.flatMap fun t => (if p = .before t then [x.1] else []) ++ t :: if p = .after t then [x.1] else [] :=
    fun hH x => Forest.tops_placing h.nodup hp (hH.plain h.plain) (fun n hn => hH.nodes_subset hn) x
  -- a level that the point is neither next to an op of nor at the top of
  have hother : ∀ {s H}, F.Level s H → p ≠ .first s → (∀ t ∈ H.tops, p ≠ .before t ∧ p ≠ .after t) → ∀ x : Node,
      (Forest.prepend ((Rewriting.placing p [x]).top s) (H.rewrite (.placing p [x]))).tops = H.tops := by
    intro s H hH hfirst hne x
    rw [Rewriting.top_placing, if_neg hfirst, Forest.prepend_nil, htops hH]
    exact Forest.flatMap_ite_of_ne x.1 hne
  cases p with
  | last r => exact hp.elim
  | first r =>
    obtain ⟨a, l, hl, rfl⟩ := hp
    obtain ⟨B, hB⟩ := Forest.exists_holds h.plain hl
    have hG : F.Level l.body B := Or.inr ⟨a, l, hB, rfl⟩
    obtain ⟨region, hregion⟩ := Option.isSome_iff_exists.mp (h.region?_level hG)
    refine ⟨l.body, B, 0, hG, ?_, by simp, fun s hs => (InsertPoint.first.inj hs).symm, fun x => ?_,
      fun s H hH hne => hother hH ?_ (by simp)⟩
    · simp [Kernel.resolve, getRegion, hregion, bind, Except.bind, pure, Except.pure]
    · simp [Rewriting.top_placing, htops hG]
    · exact fun hs => hne (InsertPoint.first.inj hs).symm
  | before a =>
    obtain ⟨i, hi, -⟩ := hp
    obtain ⟨r, G, hG, haG, j, hj⟩ := h.exists_level_of_mem hi
    refine ⟨r, G, G.tops.idxOf a, hG, ?_, ?_, by simp, fun x => ?_,
      fun s H hH hne => hother hH (by simp) fun t ht => ?_⟩
    · simp [Kernel.resolve, getOp, getPosition, hj, h.position?_level hG haG, bind, Except.bind, pure, Except.pure]
    · rintro c op (hc | hc) hop <;> cases hc
      rw [hj, Option.some.injEq] at hop
      rw [← hop]
    · rw [Rewriting.top_placing, if_neg (by simp), Forest.prepend_nil, htops hG]
      refine Forest.flatMap_beside (j := 0) (Nat.zero_le 1) (Forest.nodup_tops (hG.nodup h.nodup)) haG ?_
        fun t ht => ?_
      · simp
      · simp [ht.symm]
    · refine ⟨fun heq => hne ?_, by simp⟩
      cases heq
      exact h.region_unique hG haG hH ht
  | after a =>
    obtain ⟨i, hi, -⟩ := hp
    obtain ⟨r, G, hG, haG, j, hj⟩ := h.exists_level_of_mem hi
    refine ⟨r, G, G.tops.idxOf a + 1, hG, ?_, ?_, by simp, fun x => ?_,
      fun s H hH hne => hother hH (by simp) fun t ht => ?_⟩
    · simp [Kernel.resolve, getOp, getPosition, hj, h.position?_level hG haG, bind, Except.bind, pure, Except.pure]
    · rintro c op (hc | hc) hop <;> cases hc
      rw [hj, Option.some.injEq] at hop
      rw [← hop]
    · rw [Rewriting.top_placing, if_neg (by simp), Forest.prepend_nil, htops hG]
      refine Forest.flatMap_beside (j := 1) (Nat.le_refl 1) (Forest.nodup_tops (hG.nodup h.nodup)) haG ?_
        fun t ht => ?_
      · simp
      · simp [ht.symm]
    · refine ⟨by simp, fun heq => hne ?_⟩
      cases heq
      exact h.region_unique hG haG hH ht

theorem Arranges.host_unique (h : Arranges k F) {p : InsertPoint} {m n : Node} (hm : m ∈ F.nodes) (hn : n ∈ F.nodes)
    (hmp : Forest.Hosts m p) (hnp : Forest.Hosts n p) : m.1 = n.1 := by
  cases hmr : m.2.region? with
  | none =>
    rw [Forest.hosts_leaf hmr] at hmp
    cases hnr : n.2.region? with
    | none =>
      rw [Forest.hosts_leaf hnr] at hnp
      rcases hmp with rfl | rfl <;> simpa using hnp
    | some r =>
      rw [Forest.hosts_owner hnr] at hnp
      rcases hmp with rfl | rfl <;> cases hnp
  | some r =>
    rw [Forest.hosts_owner hmr] at hmp
    cases hnr : n.2.region? with
    | none =>
      rw [Forest.hosts_leaf hnr] at hnp
      rcases hnp with rfl | rfl <;> cases hmp
    | some s =>
      rw [Forest.hosts_owner hnr, hmp, InsertPoint.first.injEq] at hnp
      have howner := h.owner?_of_mem hm hmr
      rw [hnp, h.owner?_of_mem hn hnr, Option.some.injEq] at howner
      exact howner.symm

theorem Arranges.nodup_placing (h : Arranges k F) (p : InsertPoint) {x : Node} (hx : x.1 ∉ F.ids) :
    (F.rewrite (.placing p [x])).ids.Nodup := by
  have hfresh : ∀ m ∈ F.nodes, x.1 ≠ m.1 := fun m hm e => hx (e ▸ Forest.mem_ids_of_mem_nodes hm)
  refine Forest.nodup_rewrite h.plain h.nodup (fun m hm => Forest.nodup_image_placing (hfresh m hm)) ?_
  intro m hm m' hm' y hy z hz hyz
  rcases Forest.mem_image_placing.mp hy with rfl | ⟨hy, hhost⟩ <;>
    rcases Forest.mem_image_placing.mp hz with rfl | ⟨hz, hhost'⟩
  · exact hyz
  · rw [List.mem_singleton] at hz
    subst hz
    exact absurd hyz.symm (hfresh _ hm)
  · rw [List.mem_singleton] at hy
    subst hy
    exact absurd hyz (hfresh _ hm')
  · exact h.host_unique hm hm' hhost hhost'

theorem Resolves.follows (h : Arranges k F) {p : InsertPoint} (hp : F.Anchors p) {r : RegionId} {G : Forest}
    {n : Nat} (hres : Resolves k F p r G n) {instr : Instr} (hi : instr.region? = none) :
    Follows k ((k.define instr k.nextOp).place instr r n) F (.placing p [(k.nextOp, instr)]) := by
  have hop : ∀ x, ((k.define instr k.nextOp).place instr r n).op? x =
      if x = k.nextOp then some ⟨instr, r⟩ else k.op? x := by
    intro x
    rw [op?_place]
    simp [op?]
  have hold : ∀ {x op}, k.op? x = some op → ((k.define instr k.nextOp).place instr r n).op? x = some op := by
    intro x op hx
    rw [hop, if_neg, hx]
    rintro rfl
    exact absurd (lt_size_of_op? hx) (Nat.lt_irrefl _)
  have hnew : ((k.define instr k.nextOp).place instr r n).op? k.nextOp = some ⟨instr, r⟩ := by
    rw [hop, if_pos rfl]
  have hregion : ∀ s, (k.define instr k.nextOp).region? s = k.region? s := fun s => by simp [region?]
  constructor
  case leaf =>
    intro m hm hmi s hs x hx
    rw [← Rewriting.image_leaf _ hmi] at hx
    rcases Forest.mem_image_placing.mp hx with rfl | ⟨hx, hhost⟩
    · exact ⟨hold hs, hmi⟩
    · rw [List.mem_singleton] at hx
      subst hx
      have hsr : s = r := hres.beside m.1 ⟨m.2, s⟩ ((Forest.hosts_leaf hmi).mp hhost) hs
      exact ⟨hsr ▸ hnew, hi⟩
  case head => exact fun a l hl s hs => hold hs
  case top =>
    intro a l hl x hx
    rw [Rewriting.top_placing] at hx
    split at hx
    · rename_i hpl
      rw [List.mem_singleton] at hx
      subst hx
      exact ⟨hres.first _ hpl ▸ hnew, hi⟩
    · simp at hx
  case lists =>
    intro s H hH
    have hops : (k.define instr k.nextOp).regionOps s = H.tops := by
      rw [← h.regionOps_level hH, regionOps, hregion, regionOps]
    have hsome : ((k.define instr k.nextOp).region? r).isSome := by
      rw [hregion]
      exact h.region?_level hres.level
    rw [regionOps_place _ _ _ _ _ hsome, hops, nextOp_define]
    by_cases hs : s = r
    · subst hs
      rw [if_pos rfl, h.level_unique hH hres.level, hres.here]
    · rw [if_neg hs, hres.elsewhere s H hH hs]
  case root =>
    rw [Rewriting.top_placing, if_neg]
    rintro rfl
    obtain ⟨a, l, hl, hroot⟩ := hp
    have howner := h.owner?_of_mem hl rfl
    rw [hroot, h.root] at howner
    cases howner
  case owner =>
    intro s
    rw [owner?_place, owner?, hregion, owner?]
  case rooted =>
    rw [region?_place, hregion]
    split
    · simpa using h.rooted
    · exact h.rooted
  case size => simp [place, updateRegion]
  case fresh =>
    intro m hm x hx
    rcases Forest.mem_image_placing.mp hx with rfl | ⟨hx, -⟩
    · exact Or.inl rfl
    · rw [List.mem_singleton] at hx
      subst hx
      exact Or.inr (Nat.le_refl _)
  case nodup => exact h.nodup_placing p h.nextOp_notMem
  case complete =>
    intro x hx
    by_cases hxn : x = k.nextOp
    · subst hxn
      exact Forest.mem_ids_of_mem_nodes (hp.mem_placed h.plain (List.mem_singleton_self (k.nextOp, instr)))
    · rw [isLive, hop, if_neg hxn] at hx
      obtain ⟨j, hj⟩ := Forest.exists_mem_nodes (h.complete x hx)
      exact Forest.mem_ids_of_mem_nodes (Forest.mem_placing h.plain hj)

theorem Arranges.insert (h : Arranges k F) {p : InsertPoint} (hp : F.Anchors p) {instr : Instr}
    (hi : instr.region? = none) :
    ∃ k', Edit.insert instr p k = .ok k.nextOp k' ∧ Arranges k' (F.rewrite (.placing p [(k.nextOp, instr)])) ∧
      k'.ops.size = k.ops.size + 1 ∧ k'.values = (k.define instr k.nextOp).values := by
  obtain ⟨r, G, n, hres⟩ := h.resolve hp
  refine ⟨(k.define instr k.nextOp).place instr r n, ?_, h.rewrite (hres.follows h hp hi), ?_, rfl⟩
  · simp [Edit.insert, hres.resolve, unknownRegion?, hi, own]
  · simp [place, updateRegion]

end Kernel
end SlotRotation
