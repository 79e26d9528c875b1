import SlotRotation.Proofs.Edits.Insert
import SlotRotation.Proofs.Uses

/-! The common shape of a change of the slots of a buffer: some ops are exchanged for lists of ops, new ops enter at
one point, and all other ops read their operands under another name. -/

namespace SlotRotation

structure Exchange (F : Forest) where
  /-- What comes in place of each op that goes. -/
  table : List (OpId × List Node)
  rename : ValueId → ValueId
  point : InsertPoint
  entry : List Node
  nodup : (table.map Prod.fst).Nodup
  leaf : ∀ id ∈ table.map Prod.fst, ∃ i, (id, i) ∈ F.nodes ∧ i.region? = none
  anchored : F.Anchors point
  kept : ∀ n ∈ F.nodes, Forest.Hosts n point → n.1 ∉ table.map Prod.fst
  behind : ∀ a, point ≠ .before a

namespace Exchange

variable {F : Forest} (E : Exchange F)

def keys : List OpId := E.table.map Prod.fst

def renamed (n : Node) : Node := (n.1, n.2.mapOperands fun _ => E.rename)

def rewriting : Rewriting where
  leaf id i :=
    (E.table.lookup id).getD [E.renamed (id, i)] ++ if E.point = .after id then E.entry else []
  head _ l := { l with lower := E.rename l.lower, upper := E.rename l.upper, step := E.rename l.step }
  top r := if E.point = .first r then E.entry else []

def result : Forest := F.rewrite E.rewriting

variable {E}

theorem lookup_eq_some {α : Type} {table : List (OpId × List α)} (h : (table.map Prod.fst).Nodup) {id : OpId}
    {ns : List α} (hmem : (id, ns) ∈ table) : table.lookup id = some ns := by
  induction table with
  | nil => simp at hmem
  | cons e table ih =>
    rw [List.map_cons, List.nodup_cons] at h
    rcases List.mem_cons.mp hmem with rfl | hmem
    · simp
    · have hne : id ≠ e.1 := fun heq => h.1 (heq ▸ List.mem_map_of_mem (f := Prod.fst) hmem)
      rw [List.lookup_cons, beq_eq_false_iff_ne.mpr hne]
      exact ih h.2 hmem

theorem lookup_eq_none {α : Type} {table : List (OpId × List α)} {id : OpId} (h : id ∉ table.map Prod.fst) :
    table.lookup id = none := by
  rw [List.lookup_eq_none_iff]
  intro e he
  rw [bne_iff_ne]
  rintro rfl
  exact h (List.mem_map_of_mem he)

theorem leaf_rewriting (n : Node) : E.rewriting.leaf n.1 n.2 =
    (E.table.lookup n.1).getD [E.renamed n] ++ if E.point = .after n.1 then E.entry else [] := rfl

theorem image_key {n : Node} (hn : n ∈ F.nodes) {ns : List Node} (h : (n.1, ns) ∈ E.table) (hF : F.ids.Nodup) :
    E.rewriting.image n = ns := by
  have hkey : n.1 ∈ E.table.map Prod.fst := List.mem_map_of_mem (f := Prod.fst) h
  obtain ⟨i, hi, hnone⟩ := E.leaf n.1 hkey
  obtain rfl : i = n.2 := Forest.node_unique hF hi hn
  have hafter : E.point ≠ .after n.1 := fun hp => E.kept n hn ((Forest.hosts_leaf hnone).mpr (Or.inr hp)) hkey
  have himage : E.rewriting.image n = E.rewriting.leaf n.1 n.2 := E.rewriting.image_leaf hnone
  rw [himage, leaf_rewriting, lookup_eq_some E.nodup h, if_neg hafter, List.append_nil, Option.getD_some]

theorem mem_image_of_notMem {n m : Node} (h : n.1 ∉ E.keys) :
    m ∈ E.rewriting.image n ↔ m = E.renamed n ∨ (m ∈ E.entry ∧ Forest.Hosts n E.point) := by
  cases hr : n.2.region? with
  | none =>
    have himage : E.rewriting.image n = E.rewriting.leaf n.1 n.2 := E.rewriting.image_leaf hr
    have hbefore : E.point ≠ .before n.1 := E.behind n.1
    rw [himage, Forest.hosts_leaf hr, leaf_rewriting, lookup_eq_none h]
    by_cases hp : E.point = .after n.1 <;> simp [hp, hbefore]
  | some r =>
    obtain ⟨id, i⟩ := n
    cases i with
    | loop l =>
      obtain rfl : l.body = r := Option.some.inj hr
      rw [Forest.hosts_owner hr, Rewriting.image_loop, List.mem_cons, rewriting]
      by_cases hp : E.point = .first l.body <;> simp [hp, renamed, Instr.mapOperands]
    | _ => cases hr

theorem renamed_mem_image {n : Node} (h : n.1 ∉ E.keys) : E.renamed n ∈ E.rewriting.image n :=
  (mem_image_of_notMem h).mpr (Or.inl rfl)

theorem image_host {n : Node} (hn : n ∈ F.nodes) (h : Forest.Hosts n E.point) :
    E.rewriting.image n = E.renamed n :: E.entry := by
  have hkey := E.kept n hn h
  cases hr : n.2.region? with
  | none =>
    have himage : E.rewriting.image n = E.rewriting.leaf n.1 n.2 := E.rewriting.image_leaf hr
    have hp := ((Forest.hosts_leaf hr).mp h).resolve_left (E.behind n.1)
    rw [himage, leaf_rewriting, lookup_eq_none hkey, if_pos hp]
    rfl
  | some r =>
    have hp := (Forest.hosts_owner hr).mp h
    obtain ⟨id, i⟩ := n
    cases i with
    | loop l =>
      obtain rfl : l.body = r := Option.some.inj hr
      rw [Rewriting.image_loop, rewriting]
      simp [hp, renamed, Instr.mapOperands]
    | _ => cases hr

theorem image_of_not_hosts {n : Node} (h : n.1 ∉ E.keys) (hhost : ¬Forest.Hosts n E.point) :
    E.rewriting.image n = [E.renamed n] := by
  cases hr : n.2.region? with
  | none =>
    have himage : E.rewriting.image n = E.rewriting.leaf n.1 n.2 := E.rewriting.image_leaf hr
    have hafter : E.point ≠ .after n.1 := fun hp => hhost ((Forest.hosts_leaf hr).mpr (Or.inr hp))
    rw [himage, leaf_rewriting, lookup_eq_none h, if_neg hafter]
    rfl
  | some r =>
    have hfirst : E.point ≠ .first r := fun hp => hhost ((Forest.hosts_owner hr).mpr hp)
    obtain ⟨id, i⟩ := n
    cases i with
    | loop l =>
      obtain rfl : l.body = r := Option.some.inj hr
      rw [Rewriting.image_loop, rewriting]
      simp [hfirst, renamed, Instr.mapOperands]
    | _ => cases hr

theorem mem_image {n m : Node} (hn : n ∈ F.nodes) (hF : F.ids.Nodup) (hm : m ∈ E.rewriting.image n) :
    (∃ ns, (n.1, ns) ∈ E.table ∧ m ∈ ns) ∨ (n.1 ∉ E.keys ∧ m = E.renamed n) ∨
      (m ∈ E.entry ∧ Forest.Hosts n E.point) := by
  by_cases h : n.1 ∈ E.keys
  · obtain ⟨⟨id, ns⟩, he, hid⟩ := List.mem_map.mp h
    obtain rfl : id = n.1 := hid
    rw [image_key hn he hF] at hm
    exact Or.inl ⟨ns, he, hm⟩
  · rcases (mem_image_of_notMem h).mp hm with rfl | ⟨hentry, hhost⟩
    · exact Or.inr (Or.inl ⟨h, rfl⟩)
    · exact Or.inr (Or.inr ⟨hentry, hhost⟩)

theorem mem_nodes_result (hP : F.Plain) (hF : F.ids.Nodup) {m : Node} :
    m ∈ E.result.nodes ↔
      (∃ e ∈ E.table, m ∈ e.2) ∨ m ∈ E.entry ∨ ∃ n ∈ F.nodes, n.1 ∉ E.keys ∧ m = E.renamed n := by
  rw [result, Forest.mem_nodes_rewrite hP]
  constructor
  · rintro ⟨n, hn, hm⟩
    rcases mem_image hn hF hm with ⟨ns, he, hm⟩ | ⟨hkey, rfl⟩ | ⟨hm, -⟩
    · exact Or.inl ⟨_, he, hm⟩
    · exact Or.inr (Or.inr ⟨n, hn, hkey, rfl⟩)
    · exact Or.inr (Or.inl hm)
  · rintro (⟨⟨id, ns⟩, he, hm⟩ | hm | ⟨n, hn, hkey, rfl⟩)
    · obtain ⟨i, hi, -⟩ := E.leaf id (List.mem_map_of_mem (f := Prod.fst) he)
      exact ⟨_, hi, by rw [image_key hi he hF]; exact hm⟩
    · obtain ⟨n, hn, hhost⟩ := E.anchored.exists_host
      exact ⟨n, hn, (mem_image_of_notMem (E.kept n hn hhost)).mpr (Or.inr ⟨hm, hhost⟩)⟩
    · exact ⟨n, hn, renamed_mem_image hkey⟩

theorem mem_uses_result (hP : F.Plain) (hF : F.ids.Nodup) {v : ValueId} {use : Use} :
    use ∈ E.result.uses v ↔
      (∃ e ∈ E.table, ∃ m ∈ e.2, use ∈ Forest.usesIn v m) ∨ (∃ m ∈ E.entry, use ∈ Forest.usesIn v m) ∨
        ∃ n ∈ F.nodes, n.1 ∉ E.keys ∧ use ∈ Forest.usesIn v (E.renamed n) := by
  rw [Forest.uses, List.mem_flatMap]
  constructor
  · rintro ⟨m, hm, huse⟩
    rcases (mem_nodes_result hP hF).mp hm with ⟨e, he, hm⟩ | hm | ⟨n, hn, hkey, rfl⟩
    · exact Or.inl ⟨e, he, m, hm, huse⟩
    · exact Or.inr (Or.inl ⟨m, hm, huse⟩)
    · exact Or.inr (Or.inr ⟨n, hn, hkey, huse⟩)
  · rintro (⟨e, he, m, hm, huse⟩ | ⟨m, hm, huse⟩ | ⟨n, hn, hkey, huse⟩)
    · exact ⟨m, (mem_nodes_result hP hF).mpr (Or.inl ⟨e, he, hm⟩), huse⟩
    · exact ⟨m, (mem_nodes_result hP hF).mpr (Or.inr (Or.inl hm)), huse⟩
    · exact ⟨_, (mem_nodes_result hP hF).mpr (Or.inr (Or.inr ⟨n, hn, hkey, rfl⟩)), huse⟩

theorem mem_usesIn_renamed {n : Node} {v : ValueId} {use : Use} :
    use ∈ Forest.usesIn v (E.renamed n) ↔
      use.user = n.1 ∧ ∃ w, n.2.operands[use.operand]? = some w ∧ E.rename w = v := by
  rw [Forest.mem_usesIn, renamed, Instr.operands_mapOperands, List.getElem?_mapIdx, Option.map_eq_some_iff]

end Exchange

namespace Forest

variable {F : Forest} {R : Rewriting}

/-- An operand is in scope after a rewriting if it is defined by something that comes from an op in scope, or by
something earlier that comes from the same op. -/
theorem reaches_rewrite (hP : F.Plain) (hF : F.ids.Nodup) {v : ValueId}
    (h : ∀ n ∈ F.nodes, ∀ m ∈ R.image n, v ∈ m.2.operands →
      (∃ d ∈ F.nodes, F.InScope d.1 n.1 ∧ ∃ d' ∈ R.image d, d'.2.result? = some v) ∨
        ∃ as d' bs cs, R.image n = as ++ d' :: (bs ++ m :: cs) ∧ d'.2.result? = some v) :
    (F.rewrite R).Reaches v := by
  intro m hm hv
  obtain ⟨n, hn, hmn⟩ := (mem_nodes_rewrite hP).mp hm
  rcases h n hn m hmn hv with ⟨d, hd, hscope, d', hd', hres⟩ | ⟨as, d', bs, cs, himage, hres⟩
  · exact ⟨d', (mem_nodes_rewrite hP).mpr ⟨d, hd, hd'⟩, hres, hscope.rewrite hP hF hd hn hd' hmn⟩
  · have hd' : d' ∈ R.image n := by simp [himage]
    exact ⟨d', (mem_nodes_rewrite hP).mpr ⟨n, hn, hd'⟩, hres, inScope_image hP hn himage⟩

theorem scoped_rewrite (hP : F.Plain) (hF : F.ids.Nodup)
    (h : ∀ n ∈ F.nodes, ∀ m ∈ R.image n, ∀ v ∈ m.2.operands,
      (∃ d ∈ F.nodes, F.InScope d.1 n.1 ∧ ∃ d' ∈ R.image d, d'.2.result? = some v) ∨
        ∃ as d' bs cs, R.image n = as ++ d' :: (bs ++ m :: cs) ∧ d'.2.result? = some v) :
    (F.rewrite R).Scoped := fun m hm v hv =>
  reaches_rewrite hP hF (fun n hn m hm => h n hn m hm v) m hm hv

end Forest

/-- After an exchange all operands are in scope if those of the ops that stayed, of the ops that came in place of
others and of the ops that entered are, each seen from where it comes from. -/
theorem Exchange.scoped_result {F : Forest} {E : Exchange F} (hP : F.Plain) (hF : F.ids.Nodup)
    (hkept : ∀ n ∈ F.nodes, n.1 ∉ E.keys → ∀ w ∈ n.2.operands,
      ∃ d ∈ F.nodes, F.InScope d.1 n.1 ∧ ∃ d' ∈ E.rewriting.image d, d'.2.result? = some (E.rename w))
    (htable : ∀ n ∈ F.nodes, ∀ ns, (n.1, ns) ∈ E.table → ∀ m ∈ ns, ∀ v ∈ m.2.operands,
      ∃ d ∈ F.nodes, F.InScope d.1 n.1 ∧ ∃ d' ∈ E.rewriting.image d, d'.2.result? = some v)
    (hentry : ∀ n ∈ F.nodes, Forest.Hosts n E.point → ∀ as m bs, E.entry = as ++ m :: bs → ∀ v ∈ m.2.operands,
      (∃ d ∈ F.nodes, F.InScope d.1 n.1 ∧ ∃ d' ∈ E.rewriting.image d, d'.2.result? = some v) ∨
        n.2.result? = some v ∨ ∃ d' ∈ as, d'.2.result? = some v) : E.result.Scoped := by
  refine Forest.scoped_rewrite hP hF fun n hn m hm v hv => ?_
  rcases mem_image hn hF hm with ⟨ns, he, hm⟩ | ⟨hkey, rfl⟩ | ⟨hm, hhost⟩
  · exact Or.inl (htable n hn ns he m hm v hv)
  · obtain ⟨w, hw, rfl⟩ : ∃ w ∈ n.2.operands, E.rename w = v := by
      rw [renamed, Instr.operands_mapOperands] at hv
      obtain ⟨j, hj, hvj⟩ := List.mem_mapIdx.mp hv
      exact ⟨_, List.getElem_mem hj, hvj⟩
    exact Or.inl (hkept n hn hkey w hw)
  · obtain ⟨as, bs, hsplit⟩ := List.append_of_mem hm
    have himage := image_host hn hhost
    rcases hentry n hn hhost as m bs hsplit v hv with h | h | ⟨d', hd', hres⟩
    · exact Or.inl h
    · refine Or.inr ⟨[], E.renamed n, as, bs, by rw [himage, hsplit]; rfl, ?_⟩
      rw [renamed, Instr.result?_mapOperands]
      exact h
    · obtain ⟨as₁, as₂, rfl⟩ := List.append_of_mem hd'
      refine Or.inr ⟨E.renamed n :: as₁, d', as₂, bs, ?_, hres⟩
      rw [himage, hsplit]
      simp

end SlotRotation
