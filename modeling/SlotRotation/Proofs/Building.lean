import SlotRotation.Proofs.Edits.Basic
import SlotRotation.Proofs.Lexical

/-! A kernel that is built from statements stores a forest. While the body of a loop is filled its loop is not there
yet, so the invariant speaks of one region: the ops, regions and values that are new form a forest at its end. -/

namespace SlotRotation

namespace Forest

def append : Forest → Forest → Forest
  | nil, G => G
  | op id i rest, G => op id i (rest.append G)
  | loop id l body rest, G => loop id l body (rest.append G)

@[simp] theorem nodes_append (F G : Forest) : (F.append G).nodes = F.nodes ++ G.nodes := by
  induction F with
  | nil => rfl
  | op id i rest ih => simp [append, nodes, ih]
  | loop id l body rest _ ih => simp [append, nodes, ih]

@[simp] theorem tops_append (F G : Forest) : (F.append G).tops = F.tops ++ G.tops := by
  induction F with
  | nil => rfl
  | op id i rest ih => simp [append, tops, ih]
  | loop id l body rest _ ih => simp [append, tops, ih]

@[simp] theorem bodies_append (F G : Forest) : (F.append G).bodies = F.bodies ++ G.bodies := by
  induction F with
  | nil => rfl
  | op id i rest ih => simp [append, bodies, ih]
  | loop id l body rest _ ih => simp [append, bodies, ih]

@[simp] theorem ids_append (F G : Forest) : (F.append G).ids = F.ids ++ G.ids := by simp [ids]

theorem lexical_leaf (id : OpId) (i : Instr) (scope : List ValueId) :
    (op id i nil).Lexical scope ↔ ∀ v ∈ i.operands, v ∈ scope := by
  simp [Lexical]

theorem lexical_append (F G : Forest) (scope : List ValueId) :
    (F.append G).Lexical scope ↔ F.Lexical scope ∧ G.Lexical (F.behind scope) := by
  induction F generalizing scope with
  | nil => simp [append, Lexical, behind]
  | op id i rest ih => simp [append, Lexical, behind, ih, and_assoc]
  | loop id l body rest _ ih => simp [append, Lexical, behind, ih, and_assoc]

end Forest

namespace Kernel

variable {k k₁ k₂ : Kernel} {r : RegionId} {F G : Forest}

theorem Placed.append (hF : k.Placed r F) (hG : k.Placed r G) : k.Placed r (F.append G) := by
  induction F with
  | nil => exact hG
  | op id i rest ih => exact ⟨hF.1, hF.2.1, ih hF.2.2⟩
  | loop id l body rest _ ih => exact ⟨hF.1, hF.2.1, hF.2.2.1, hF.2.2.2.1, ih hF.2.2.2.2⟩

theorem Placed.transfer (h : k.Placed r F) (hops : ∀ x ∈ F.ids, k₁.op? x = k.op? x)
    (hregions : ∀ s ∈ F.bodies, k₁.regionOps s = k.regionOps s ∧ k₁.owner? s = k.owner? s) : k₁.Placed r F := by
  induction F generalizing r with
  | nil => trivial
  | op id i rest ih =>
    refine ⟨(hops id (by simp)).trans h.1, h.2.1, ih h.2.2 (fun x hx => hops x (by simp [hx])) hregions⟩
  | loop id l body rest ihb ihr =>
    obtain ⟨hop, hlist, howner, hbody, hrest⟩ := h
    have hl := hregions l.body (by simp [Forest.bodies])
    refine ⟨(hops id (by simp)).trans hop, hl.1.trans hlist, hl.2.trans howner, ?_, ?_⟩
    · exact ihb hbody (fun x hx => hops x (by simp [hx])) fun s hs => hregions s (by simp [Forest.bodies, hs])
    · exact ihr hrest (fun x hx => hops x (by simp [hx])) fun s hs => hregions s (by simp [Forest.bodies, hs])

section

variable (k) (i : Instr) (id : OpId) (r s : RegionId)

@[simp] theorem ops_own : (k.own i id).ops = k.ops := by
  unfold own; split <;> rfl

@[simp] theorem values_own : (k.own i id).values = k.values := by
  unfold own; split <;> rfl

@[simp] theorem size_regions_own : (k.own i id).regions.size = k.regions.size := by
  unfold own; split <;> simp [updateRegion]

theorem region?_own : (k.own i id).region? s =
    if i.region? = some s then (k.region? s).map ({ · with owner := some id }) else k.region? s := by
  cases hr : i.region? with
  | none => simp [own, hr]
  | some r =>
    unfold own
    simp only [hr, region?_updateRegion, Option.some.injEq, eq_comm]

theorem region?_isSome : (k.region? s).isSome ↔ s.index < k.regions.size := by
  simp [region?]

theorem lt_of_owner? {a : OpId} (h : k.owner? s = some a) : s.index < k.regions.size := by
  obtain ⟨region, hregion, -⟩ := Option.bind_eq_some_iff.mp (show (k.region? s).bind Region.owner = some a from h)
  rw [← region?_isSome, hregion]
  rfl

theorem lt_of_recorded? {v : ValueId} {a : OpId} (h : k.recorded? v = some a) : v.index < k.values.size := by
  obtain ⟨value, hvalue, -⟩ := Option.bind_eq_some_iff.mp (show (k.value? v).bind _ = some a from h)
  exact (Array.getElem?_eq_some_iff.mp hvalue).1

theorem append_eq : k.append i r =
    ((k.define i k.nextOp).own i k.nextOp).place i r (k.regionOps r).length := by
  unfold append
  have hlist : (((k.define i k.nextOp).own i k.nextOp).regionOps r) = k.regionOps r := by
    unfold regionOps
    rw [region?_own]
    have hregion : (k.define i k.nextOp).region? r = k.region? r := by simp [region?]
    rw [hregion]
    split <;> cases k.region? r <;> rfl
  rw [← hlist]

theorem op?_append (x : OpId) : (k.append i r).op? x = if x = k.nextOp then some ⟨i, r⟩ else k.op? x := by
  have hnext : ((k.define i k.nextOp).own i k.nextOp).nextOp = k.nextOp := by simp [nextOp]
  have hop : ((k.define i k.nextOp).own i k.nextOp).op? x = k.op? x := by simp [op?]
  rw [append_eq, op?_place, hnext, hop]

theorem region?_append : (k.append i r).region? s =
    (k.region? s).map fun region =>
      { ops := if s = r then region.ops ++ [k.nextOp] else region.ops
        owner := if i.region? = some s then some k.nextOp else region.owner } := by
  have hnext : ((k.define i k.nextOp).own i k.nextOp).nextOp = k.nextOp := by simp [nextOp]
  have hregion : (k.define i k.nextOp).region? s = k.region? s := by simp [region?]
  rw [append_eq, region?_place, region?_own, hregion, hnext]
  cases hs : k.region? s with
  | none => simp
  | some region =>
    have hlength : s = r → (k.regionOps r).length = region.ops.length := by
      rintro rfl
      simp [regionOps, hs]
    by_cases hr : s = r
    · have hlast : region.ops.insertIdx (k.regionOps r).length k.nextOp = region.ops ++ [k.nextOp] := by
        rw [hlength hr, List.insertIdx_length_self]
      by_cases ho : i.region? = some s <;> simp [hr, hr ▸ ho, hlast]
    · by_cases ho : i.region? = some s <;> simp [hr, ho]

theorem regionOps_append (hr : r.index < k.regions.size) :
    (k.append i r).regionOps s = if s = r then k.regionOps s ++ [k.nextOp] else k.regionOps s := by
  unfold regionOps
  rw [region?_append]
  cases hs : k.region? s with
  | none =>
    rw [if_neg]
    · rfl
    · rintro rfl
      rw [← region?_isSome, hs] at hr
      cases hr
  | some region => split <;> rfl

theorem owner?_append (hs : s.index < k.regions.size) :
    (k.append i r).owner? s = if i.region? = some s then some k.nextOp else k.owner? s := by
  unfold owner?
  rw [region?_append]
  rw [← region?_isSome] at hs
  obtain ⟨region, hregion⟩ := Option.isSome_iff_exists.mp hs
  rw [hregion]
  rfl

theorem recorded?_append (v : ValueId) :
    (k.append i r).recorded? v =
      if i.result? = some v ∧ v.index < k.values.size then some k.nextOp else k.recorded? v := by
  rw [append_eq, ← recorded?_define]
  unfold recorded? value?
  change (((k.define i k.nextOp).own i k.nextOp).values[v.index]?.bind _) = _
  rw [values_own]

theorem op?_append_of_lt {x : OpId} (hx : x.index < k.ops.size) : (k.append i r).op? x = k.op? x := by
  rw [op?_append, if_neg]
  rintro rfl
  exact Nat.lt_irrefl _ hx

theorem regionOps_append_of_ne (hr : r.index < k.regions.size) (hs : s ≠ r) :
    (k.append i r).regionOps s = k.regionOps s := by
  rw [regionOps_append _ _ _ _ hr, if_neg hs]

theorem owner?_append_of_ne (hs : s.index < k.regions.size) (hi : i.region? ≠ some s) :
    (k.append i r).owner? s = k.owner? s := by
  rw [owner?_append _ _ _ _ hs, if_neg hi]

theorem recorded?_append_of_ne {v : ValueId} (hi : i.result? ≠ some v) :
    (k.append i r).recorded? v = k.recorded? v := by
  rw [recorded?_append, if_neg fun heq => hi heq.1]

theorem size_ops_append : (k.append i r).ops.size = k.ops.size + 1 := by
  rw [append_eq]
  simp [place, updateRegion]

theorem size_regions_append : (k.append i r).regions.size = k.regions.size := by
  rw [append_eq]
  simp [place, updateRegion]

theorem size_values_append : (k.append i r).values.size = k.values.size := by
  rw [append_eq]
  simp [place, updateRegion]

end

/-- What is in `k'` and not in `k` is the forest `G`, at the end of region `r`. -/
structure Grows (k k' : Kernel) (r : RegionId) (G : Forest) : Prop where
  ops : k.ops.size ≤ k'.ops.size
  regions : k.regions.size ≤ k'.regions.size
  values : k.values.size ≤ k'.values.size
  list : k'.regionOps r = k.regionOps r ++ G.tops
  lists : ∀ s, s.index < k.regions.size → s ≠ r → k'.regionOps s = k.regionOps s
  owners : ∀ s, s.index < k.regions.size → k'.owner? s = k.owner? s
  old : ∀ x, x.index < k.ops.size → k'.op? x = k.op? x
  recorded : ∀ v, v.index < k.values.size → k'.recorded? v = k.recorded? v
  placed : k'.Placed r G
  nodup : G.ids.Nodup
  new : ∀ x, x ∈ G.ids ↔ k.ops.size ≤ x.index ∧ x.index < k'.ops.size
  bodies : ∀ s ∈ G.bodies, k.regions.size ≤ s.index ∧ s.index < k'.regions.size
  owned : ∀ s a, k.regions.size ≤ s.index → k'.owner? s = some a → ∃ i, (a, i) ∈ G.nodes ∧ i.region? = some s
  defined : ∀ n ∈ G.nodes, ∀ v, n.2.result? = some v → k.values.size ≤ v.index ∧ k'.recorded? v = some n.1
  definition : ∀ v a, k.values.size ≤ v.index → k'.recorded? v = some a → ∃ i, (a, i) ∈ G.nodes ∧ i.result? = some v

theorem Grows.refl (k : Kernel) (r : RegionId) : Grows k k r .nil where
  ops := Nat.le_refl _
  regions := Nat.le_refl _
  values := Nat.le_refl _
  list := by simp [Forest.tops]
  lists _ _ _ := rfl
  owners _ _ := rfl
  old _ _ := rfl
  recorded _ _ := rfl
  placed := trivial
  nodup := List.nodup_nil
  new x := by simp
  bodies := by simp [Forest.bodies]
  owned s a hs ha := absurd (lt_of_owner? k s ha) (Nat.not_lt.mpr hs)
  defined := by simp [Forest.nodes]
  definition v a hv ha := absurd (lt_of_recorded? k ha) (Nat.not_lt.mpr hv)

theorem Grows.append (hr : r.index < k.regions.size) (h : Grows k k₁ r F) (h' : Grows k₁ k₂ r G) :
    Grows k k₂ r (F.append G) where
  ops := Nat.le_trans h.ops h'.ops
  regions := Nat.le_trans h.regions h'.regions
  values := Nat.le_trans h.values h'.values
  list := by rw [h'.list, h.list, Forest.tops_append, List.append_assoc]
  lists s hs hne := by rw [h'.lists s (Nat.lt_of_lt_of_le hs h.regions) hne, h.lists s hs hne]
  owners s hs := by rw [h'.owners s (Nat.lt_of_lt_of_le hs h.regions), h.owners s hs]
  old x hx := by rw [h'.old x (Nat.lt_of_lt_of_le hx h.ops), h.old x hx]
  recorded v hv := by rw [h'.recorded v (Nat.lt_of_lt_of_le hv h.values), h.recorded v hv]
  placed := by
    refine (h.placed.transfer (fun x hx => h'.old x ((h.new x).mp hx).2) fun s hs => ?_).append h'.placed
    obtain ⟨hge, hlt⟩ := h.bodies s hs
    refine ⟨h'.lists s hlt fun heq => ?_, h'.owners s hlt⟩
    exact Nat.not_lt.mpr hge (heq ▸ hr)
  nodup := by
    rw [Forest.ids_append]
    refine List.nodup_append.mpr ⟨h.nodup, h'.nodup, fun x hx y hy heq => ?_⟩
    exact Nat.not_lt.mpr ((h'.new y).mp hy).1 (heq ▸ ((h.new x).mp hx).2)
  new x := by
    rw [Forest.ids_append, List.mem_append, h.new, h'.new]
    have := h.ops
    have := h'.ops
    omega
  bodies s hs := by
    rw [Forest.bodies_append, List.mem_append] at hs
    rcases hs with hs | hs
    · exact ⟨(h.bodies s hs).1, Nat.lt_of_lt_of_le (h.bodies s hs).2 h'.regions⟩
    · exact ⟨Nat.le_trans h.regions (h'.bodies s hs).1, (h'.bodies s hs).2⟩
  owned s a hs ha := by
    simp only [Forest.nodes_append, List.mem_append]
    rcases Nat.lt_or_ge s.index k₁.regions.size with hlt | hge
    · rw [h'.owners s hlt] at ha
      obtain ⟨i, hi, hregion⟩ := h.owned s a hs ha
      exact ⟨i, Or.inl hi, hregion⟩
    · obtain ⟨i, hi, hregion⟩ := h'.owned s a hge ha
      exact ⟨i, Or.inr hi, hregion⟩
  defined n hn v hv := by
    rw [Forest.nodes_append, List.mem_append] at hn
    rcases hn with hn | hn
    · obtain ⟨hge, hrec⟩ := h.defined n hn v hv
      exact ⟨hge, (h'.recorded v (lt_of_recorded? k₁ hrec)).trans hrec⟩
    · obtain ⟨hge, hrec⟩ := h'.defined n hn v hv
      exact ⟨Nat.le_trans h.values hge, hrec⟩
  definition v a hv ha := by
    simp only [Forest.nodes_append, List.mem_append]
    rcases Nat.lt_or_ge v.index k₁.values.size with hlt | hge
    · rw [h'.recorded v hlt] at ha
      obtain ⟨i, hi, hres⟩ := h.definition v a hv ha
      exact ⟨i, Or.inl hi, hres⟩
    · obtain ⟨i, hi, hres⟩ := h'.definition v a hge ha
      exact ⟨i, Or.inr hi, hres⟩

theorem Grows.stores {name : String} {location : Location} (h : Grows { name, location } k body F) : Stores k F where
  top := h.list
  placed := h.placed
  nodup := h.nodup
  complete x hx := by
    rw [h.new]
    obtain ⟨op, hop⟩ := Option.isSome_iff_exists.mp hx
    exact ⟨Nat.zero_le _, lt_size_of_op? hop⟩
  owner s a ha := by
    rcases Nat.eq_zero_or_pos s.index with hzero | hpos
    · rw [h.owners s (by simp [hzero])] at ha
      simp [owner?, region?, hzero] at ha
    · obtain ⟨i, hi, hregion⟩ := h.owned s a hpos ha
      refine ⟨((h.new a).mp (Forest.mem_ids_of_mem_nodes hi)).2, fun j hj => ?_⟩
      rw [Forest.node_unique h.nodup hj hi]
      exact hregion
  root := h.owners body Nat.zero_lt_one
  rooted := (region?_isSome k body).mpr (Nat.lt_of_lt_of_le Nat.zero_lt_one h.regions)
  defined n hn v hv := (h.defined n hn v hv).2
  definition v a ha := by
    obtain ⟨i, hi, hres⟩ := h.definition v a (Nat.zero_le _) ha
    refine ⟨((h.new a).mp (Forest.mem_ids_of_mem_nodes hi)).2, fun j hj => ?_⟩
    rw [Forest.node_unique h.nodup hj hi]
    exact hres

/-- An op without a region is appended, after a value was made for its result. -/
theorem grows_append {i : Instr} (hr : r.index < k.regions.size) (hi : i.region? = none) (hops : k₁.ops = k.ops)
    (hregions : k₁.regions = k.regions) (hvalues : k.values.size ≤ k₁.values.size)
    (hrecorded : ∀ v, k₁.recorded? v = k.recorded? v)
    (hresult : ∀ v, i.result? = some v → k.values.size ≤ v.index ∧ v.index < k₁.values.size) :
    Grows k (k₁.append i r) r (.op k.nextOp i .nil) := by
  have hnext : k₁.nextOp = k.nextOp := by simp [nextOp, hops]
  have hregion : ∀ s, k₁.region? s = k.region? s := fun s => by simp [region?, hregions]
  have hr₁ : r.index < k₁.regions.size := hregions.symm ▸ hr
  have hlist : ∀ s, (k₁.append i r).regionOps s = if s = r then k.regionOps s ++ [k.nextOp] else k.regionOps s := by
    intro s
    rw [regionOps_append _ _ _ _ hr₁, hnext]
    simp only [regionOps, hregion]
  have howner : ∀ s, (k₁.append i r).owner? s = k.owner? s := by
    intro s
    simp only [owner?, region?_append, hi, hregion]
    cases k.region? s <;> rfl
  have hop : ∀ x, (k₁.append i r).op? x = if x = k.nextOp then some ⟨i, r⟩ else k.op? x := by
    intro x
    rw [op?_append, hnext]
    simp [op?, hops]
  have hsize : (k₁.append i r).ops.size = k.ops.size + 1 := by rw [size_ops_append, hops]
  have hrec := recorded?_append k₁ i r
  simp only [hnext, hrecorded] at hrec
  constructor
  case ops => omega
  case regions => exact Nat.le_of_eq (by rw [size_regions_append, hregions])
  case values => rwa [size_values_append]
  case list =>
    rw [hlist, if_pos rfl]
    rfl
  case lists =>
    intro s _ hne
    rw [hlist, if_neg hne]
  case owners => exact fun s _ => howner s
  case old =>
    intro x hx
    rw [hop, if_neg]
    rintro rfl
    exact Nat.lt_irrefl _ hx
  case recorded =>
    intro v hv
    rw [hrec, if_neg]
    exact fun hres => Nat.not_lt.mpr (hresult v hres.1).1 hv
  case placed =>
    refine ⟨?_, hi, trivial⟩
    rw [hop, if_pos rfl]
  case nodup => simp
  case new =>
    intro x
    simp [eq_nextOp_iff, hsize]
    omega
  case bodies => simp [Forest.bodies]
  case owned =>
    intro s a hs ha
    rw [howner] at ha
    exact absurd (lt_of_owner? k s ha) (Nat.not_lt.mpr hs)
  case defined =>
    intro n hn v hv
    obtain rfl : n = (k.nextOp, i) := by simpa [Forest.nodes] using hn
    obtain ⟨hge, hlt⟩ := hresult v hv
    exact ⟨hge, by rw [hrec, if_pos ⟨hv, hlt⟩]⟩
  case definition =>
    intro v a hv ha
    rw [hrec] at ha
    split at ha
    · rename_i hres
      cases ha
      exact ⟨i, by simp [Forest.nodes], hres.1⟩
    · exact absurd (lt_of_recorded? k ha) (Nat.not_lt.mpr hv)

theorem grows_appendOp {i : Instr} (hr : r.index < k.regions.size) (hi : i.region? = none)
    (hres : i.result? = none) : Grows k (k.appendOp r i).1 r (.op k.nextOp i .nil) :=
  grows_append hr hi rfl rfl (Nat.le_refl _) (fun _ => rfl) fun v hv => by cases hres.symm.trans hv

theorem recorded?_addValue (k : Kernel) (ty : ValueType) (v : ValueId) :
    (k.addValue ty).recorded? v = k.recorded? v := by
  simp only [recorded?, value?, addValue, Array.getElem?_push]
  split
  · rename_i heq
    simp [heq]
  · rfl

theorem grows_appendValue {ty : ValueType} {i : ValueId → Instr} (hr : r.index < k.regions.size)
    (hi : ∀ v, (i v).region? = none) (hres : ∀ v, (i v).result? = some v) :
    Grows k (k.appendValue r ty i).1 r (.op k.nextOp (i ⟨k.values.size⟩) .nil) := by
  have hresult : ∀ v, (i ⟨k.values.size⟩).result? = some v →
      k.values.size ≤ v.index ∧ v.index < (k.addValue ty).values.size := by
    intro v hv
    cases (hres _).symm.trans hv
    simp [addValue]
  exact grows_append hr (hi _) rfl rfl (by simp [addValue]) (recorded?_addValue k ty) hresult

theorem size_regions_enter (k : Kernel) : (k.addRegion.addValue .index).regions.size = k.regions.size + 1 :=
  Array.size_push ..

theorem size_values_enter (k : Kernel) : (k.addRegion.addValue .index).values.size = k.values.size + 1 :=
  Array.size_push ..

theorem Grows.old_region {b : RegionId} (hb : b = ⟨k.regions.size⟩) (h : Grows (k.addRegion.addValue .index) k₂ b G)
    {s : RegionId} (hs : s.index < k.regions.size) :
    k₂.regionOps s = k.regionOps s ∧ k₂.owner? s = k.owner? s := by
  have hregion : (k.addRegion.addValue .index).region? s = k.region? s := by
    simp only [region?, addRegion, addValue, Array.getElem?_push, if_neg (Nat.ne_of_lt hs)]
  have hlt : s.index < (k.addRegion.addValue .index).regions.size := by
    rw [size_regions_enter]
    omega
  have hne : s ≠ b := by
    rintro rfl
    rw [hb] at hs
    exact Nat.lt_irrefl _ hs
  rw [h.lists s hlt hne, h.owners s hlt]
  simp only [regionOps, owner?, hregion, and_self]

theorem Grows.body_list {b : RegionId} (hb : b = ⟨k.regions.size⟩)
    (h : Grows (k.addRegion.addValue .index) k₂ b G) : k₂.regionOps b = G.tops := by
  rw [h.list, hb]
  simp [regionOps, region?, addRegion, addValue]

section Loop

variable {l : Loop} {B : Forest} (hr : r.index < k.regions.size) (hbody : l.body = ⟨k.regions.size⟩)
  (hind : l.induction = ⟨k.values.size⟩) (h : Grows (k.addRegion.addValue .index) k₂ l.body B)
include h

omit h in
theorem nodes_loop_nil (x : OpId) (l : Loop) (B : Forest) :
    (Forest.loop x l B .nil).nodes = (x, .loop l) :: B.nodes := by
  rw [Forest.nodes, Forest.nodes, List.append_nil]

theorem Grows.regions_loop : k.regions.size + 1 ≤ k₂.regions.size := size_regions_enter k ▸ h.regions

theorem Grows.values_loop : k.values.size + 1 ≤ k₂.values.size := size_values_enter k ▸ h.values

omit h in
theorem owner?_append_loop {s : RegionId} (hs : s.index < k₂.regions.size) (hne : s ≠ l.body) :
    (k₂.append (.loop l) r).owner? s = k₂.owner? s :=
  owner?_append_of_ne k₂ _ _ _ hs fun heq => hne (Option.some.inj heq).symm

omit h in
theorem recorded?_append_loop {v : ValueId} (hne : v ≠ l.induction) :
    (k₂.append (.loop l) r).recorded? v = k₂.recorded? v :=
  recorded?_append_of_ne k₂ _ _ fun heq => hne (Option.some.inj heq).symm

include hbody in
theorem Grows.owner?_body : (k₂.append (.loop l) r).owner? l.body = some k₂.nextOp := by
  rw [owner?_append k₂ _ _ _ (by rw [hbody]; exact h.regions_loop)]
  exact if_pos rfl

include hr hbody in
theorem Grows.placed_loop : (k₂.append (.loop l) r).Placed r (.loop k₂.nextOp l B .nil) := by
  have hr₂ : r.index < k₂.regions.size := Nat.lt_trans hr h.regions_loop
  refine ⟨?_, ?_, h.owner?_body hbody, ?_, trivial⟩
  · rw [op?_append, if_pos rfl]
  · rw [regionOps_append_of_ne k₂ _ _ _ hr₂ ?_, h.body_list hbody]
    rintro rfl
    rw [hbody] at hr
    exact Nat.lt_irrefl _ hr
  · refine h.placed.transfer (fun x hx => op?_append_of_lt k₂ _ _ ((h.new x).mp hx).2) fun s hs => ?_
    obtain ⟨hge, hlt⟩ := h.bodies s hs
    rw [size_regions_enter] at hge
    have hne : ∀ {t : RegionId}, t.index ≤ k.regions.size → s ≠ t := by
      rintro t ht rfl
      omega
    exact ⟨regionOps_append_of_ne k₂ _ _ _ hr₂ (hne (Nat.le_of_lt hr)),
      owner?_append_loop hlt (hne (Nat.le_of_eq (by rw [hbody])))⟩

include hbody in
theorem Grows.owned_loop {s : RegionId} {a : OpId} (hs : k.regions.size ≤ s.index)
    (ha : (k₂.append (.loop l) r).owner? s = some a) :
    ∃ i, (a, i) ∈ (Forest.loop k₂.nextOp l B .nil).nodes ∧ i.region? = some s := by
  rw [nodes_loop_nil]
  by_cases heq : s = l.body
  · rw [heq, h.owner?_body hbody] at ha
    cases ha
    exact ⟨_, List.mem_cons_self, congrArg some heq.symm⟩
  · have hs' : s.index ≠ k.regions.size := fun hs' => heq (by rw [hbody]; cases s; simpa using hs')
    have hlt := lt_of_owner? _ s ha
    rw [size_regions_append] at hlt
    rw [owner?_append_loop hlt heq] at ha
    obtain ⟨i, hi, hregion⟩ := h.owned s a (by rw [size_regions_enter]; omega) ha
    exact ⟨i, List.mem_cons_of_mem _ hi, hregion⟩

include hind in
theorem Grows.defined_loop {n : Node} (hn : n ∈ (Forest.loop k₂.nextOp l B .nil).nodes) {v : ValueId}
    (hv : n.2.result? = some v) :
    k.values.size ≤ v.index ∧ (k₂.append (.loop l) r).recorded? v = some n.1 := by
  rw [nodes_loop_nil] at hn
  rcases List.mem_cons.mp hn with rfl | hn
  · cases hv
    refine ⟨Nat.le_of_eq (by rw [hind]), ?_⟩
    rw [recorded?_append, if_pos ⟨rfl, by rw [hind]; exact h.values_loop⟩]
  · obtain ⟨hge, hrecorded⟩ := h.defined n hn v hv
    rw [size_values_enter] at hge
    refine ⟨by omega, (recorded?_append_loop ?_).trans hrecorded⟩
    rintro rfl
    rw [hind] at hge
    exact Nat.not_succ_le_self _ hge

include hind in
theorem Grows.definition_loop {v : ValueId} {a : OpId} (hv : k.values.size ≤ v.index)
    (ha : (k₂.append (.loop l) r).recorded? v = some a) :
    ∃ i, (a, i) ∈ (Forest.loop k₂.nextOp l B .nil).nodes ∧ i.result? = some v := by
  rw [nodes_loop_nil]
  by_cases heq : v = l.induction
  · have hlt : v.index < k₂.values.size := by
      rw [heq, hind]
      exact h.values_loop
    rw [recorded?_append, if_pos ⟨congrArg some heq.symm, hlt⟩] at ha
    cases ha
    exact ⟨_, List.mem_cons_self, congrArg some heq.symm⟩
  · have hv' : v.index ≠ k.values.size := fun hv' => heq (by rw [hind]; cases v; simpa using hv')
    rw [recorded?_append_loop heq] at ha
    obtain ⟨i, hi, hres⟩ := h.definition v a (by rw [size_values_enter]; omega) ha
    exact ⟨i, List.mem_cons_of_mem _ hi, hres⟩

include hr hbody hind in
/-- A loop comes after its body, which has a region and a value of its own. -/
theorem grows_loop : Grows k (k₂.append (.loop l) r) r (.loop k₂.nextOp l B .nil) := by
  have hregions := h.regions_loop
  have hvalues := h.values_loop
  have hops : k.ops.size ≤ k₂.ops.size := h.ops
  have hr₂ : r.index < k₂.regions.size := by omega
  constructor
  case ops =>
    rw [size_ops_append]
    omega
  case regions =>
    rw [size_regions_append]
    omega
  case values =>
    rw [size_values_append]
    omega
  case list =>
    rw [regionOps_append k₂ _ _ _ hr₂, if_pos rfl, (h.old_region hbody hr).1]
    rfl
  case lists =>
    intro s hs hs'
    rw [regionOps_append_of_ne k₂ _ _ _ hr₂ hs', (h.old_region hbody hs).1]
  case owners =>
    intro s hs
    rw [owner?_append_loop (by omega) ?_, (h.old_region hbody hs).2]
    rintro rfl
    rw [hbody] at hs
    exact Nat.lt_irrefl _ hs
  case old =>
    intro x hx
    rw [op?_append_of_lt k₂ _ _ (by omega), h.old x hx]
    rfl
  case recorded =>
    intro v hv
    rw [recorded?_append_loop ?_, h.recorded v (by rw [size_values_enter]; omega), recorded?_addValue]
    · rfl
    · rintro rfl
      rw [hind] at hv
      exact Nat.lt_irrefl _ hv
  case placed => exact h.placed_loop hr hbody
  case nodup =>
    rw [Forest.ids_loop, Forest.ids_nil, List.append_nil, List.nodup_cons]
    exact ⟨fun hmem => Nat.lt_irrefl _ ((h.new _).mp hmem).2, h.nodup⟩
  case new =>
    intro x
    have hnew := h.new x
    simp only [addRegion, addValue] at hnew
    rw [Forest.ids_loop, Forest.ids_nil, List.append_nil, List.mem_cons, eq_nextOp_iff, hnew, size_ops_append]
    omega
  case bodies =>
    intro s hs
    rw [size_regions_append]
    rcases List.mem_cons.mp (show s ∈ l.body :: (B.bodies ++ []) from hs) with rfl | hs
    · rw [hbody]
      exact ⟨Nat.le_refl _, hregions⟩
    · rw [List.append_nil] at hs
      obtain ⟨hge, hlt⟩ := h.bodies s hs
      rw [size_regions_enter] at hge
      omega
  case owned => exact fun s a => h.owned_loop hbody
  case defined => exact fun n hn v => h.defined_loop hind hn
  case definition => exact fun v a => h.definition_loop hind

end Loop

/-- What is built from a statement: a forest at the end of region `r` that reads as the statement does, and handles
for the values that are made, numbered in the order in which the statement makes them. -/
structure Renders (stmt : Stmt) (k : Kernel) (built : Kernel × List Handle) (r : RegionId) (G : Forest) : Prop
    extends Grows k built.1 r G where
  count : built.1.values.size = k.values.size + stmt.valueCount
  made : built.2.filterMap Handle.value? = (List.range' k.values.size stmt.valueCount).map ValueId.mk
  lexical : ∀ scope, G.Lexical scope ↔ stmt.Scoped scope k.values.size
  behind : ∀ scope, G.behind scope = (stmt.result? k.values.size).toList ++ scope

structure RendersAll (stmts : List Stmt) (k : Kernel) (built : Kernel × List Handle) (r : RegionId) (G : Forest) :
    Prop extends Grows k built.1 r G where
  count : built.1.values.size = k.values.size + Stmt.valueCountAll stmts
  made : built.2.filterMap Handle.value? = (List.range' k.values.size (Stmt.valueCountAll stmts)).map ValueId.mk
  lexical : ∀ scope, G.Lexical scope ↔ Stmt.ScopedAll scope k.values.size stmts

theorem renders_appendOp {stmt : Stmt} {i : Instr} (hr : r.index < k.regions.size)
    (hemit : emit r stmt k = k.appendOp r i) (hi : i.region? = none) (hres : i.result? = none)
    (hcount : stmt.valueCount = 0) (hread : ∀ scope, (∀ v ∈ i.operands, v ∈ scope) ↔ stmt.Scoped scope k.values.size)
    (hmade : stmt.result? k.values.size = none) : ∃ G, Renders stmt k (emit r stmt k) r G := by
  rw [hemit]
  refine ⟨_, grows_appendOp hr hi hres, ?_, ?_, fun scope => (Forest.lexical_leaf ..).trans (hread scope),
    fun scope => ?_⟩
  · rw [hcount]
    exact size_values_append ..
  · rw [hcount]
    rfl
  · rw [hmade, Forest.behind, Forest.behind, hres]

theorem renders_appendValue {stmt : Stmt} {ty : ValueType} (i : ValueId → Instr) (hr : r.index < k.regions.size)
    (hemit : emit r stmt k = k.appendValue r ty i) (hi : ∀ v, (i v).region? = none)
    (hres : ∀ v, (i v).result? = some v) (hcount : stmt.valueCount = 1)
    (hread : ∀ scope, (∀ v ∈ (i ⟨k.values.size⟩).operands, v ∈ scope) ↔ stmt.Scoped scope k.values.size)
    (hmade : stmt.result? k.values.size = some ⟨k.values.size⟩) : ∃ G, Renders stmt k (emit r stmt k) r G := by
  rw [hemit]
  refine ⟨_, grows_appendValue hr hi hres, ?_, ?_, fun scope => (Forest.lexical_leaf ..).trans (hread scope),
    fun scope => ?_⟩
  · rw [hcount]
    exact (size_values_append ..).trans (Array.size_push ..)
  · rw [hcount]
    rfl
  · rw [hmade, Forest.behind, Forest.behind, hres]

mutual

theorem emit_renders : ∀ (stmt : Stmt) (k : Kernel) (r : RegionId), r.index < k.regions.size →
    ∃ G, Renders stmt k (emit r stmt k) r G
  | .constant value, _, _, hr =>
    renders_appendValue (.constant · value) hr rfl (fun _ => rfl) (fun _ => rfl) rfl (fun _ => .rfl) rfl
  | .arith op lhs rhs, _, _, hr =>
    renders_appendValue (.arith · op lhs rhs) hr rfl (fun _ => rfl) (fun _ => rfl) rfl (fun _ => .rfl) rfl
  | .alloc ty multibuffer remultibuffer, _, _, hr =>
    renders_appendValue (fun result => .alloc { result, ty, multibuffer, remultibuffer }) hr rfl (fun _ => rfl)
      (fun _ => rfl) rfl (fun _ => .rfl) rfl
  | .load buffer indices, _, _, hr =>
    renders_appendValue (.load · buffer indices) hr rfl (fun _ => rfl) (fun _ => rfl) rfl (fun _ => .rfl) rfl
  | .dealloc _, _, _, hr => renders_appendOp hr rfl rfl rfl rfl (fun _ => .rfl) rfl
  | .store .., _, _, hr => renders_appendOp hr rfl rfl rfl rfl (fun _ => .rfl) rfl
  | .fill .., _, _, hr => renders_appendOp hr rfl rfl rfl rfl (fun _ => .rfl) rfl
  | .copy .., _, _, hr => renders_appendOp hr rfl rfl rfl rfl (fun _ => .rfl) rfl
  | .compute .., _, _, hr => renders_appendOp hr rfl rfl rfl rfl (fun _ => .rfl) rfl
  | .barrier, _, _, hr => renders_appendOp hr rfl rfl rfl rfl (fun _ => .rfl) rfl
  | .ret, _, _, hr => renders_appendOp hr rfl rfl rfl rfl (fun _ => .rfl) rfl
  | .loop lower upper step depth stmts, k, r, hr => by
    have hbody : k.regions.size < (k.addRegion.addValue .index).regions.size := by
      rw [size_regions_enter]
      exact Nat.lt_succ_self _
    obtain ⟨G, hG⟩ := emitAll_renders stmts (k.addRegion.addValue .index) ⟨k.regions.size⟩ hbody
    have hyield := grows_appendOp (i := .yield) (Nat.lt_of_lt_of_le hbody hG.regions) rfl rfl
    refine ⟨_, grows_loop hr rfl rfl (hG.toGrows.append hbody hyield), ?_, ?_, fun scope => ?_, fun _ => rfl⟩
    · show (Kernel.append _ (.loop _) r).values.size = k.values.size + (Stmt.valueCountAll stmts + 1)
      rw [size_values_append]
      show (Kernel.append _ .yield _).values.size = _
      rw [size_values_append, hG.count, size_values_enter]
      omega
    · -- the induction value is made ahead of the body
      show (Handle.body _ _ :: _ ++ [Handle.op _]).filterMap Handle.value? =
        (List.range' k.values.size (Stmt.valueCountAll stmts + 1)).map ValueId.mk
      rw [List.filterMap_append, List.filterMap_cons, hG.made, size_values_enter, List.range'_succ]
      simp [Handle.value?]
    · -- the yield at the end of the body reads nothing
      have hread := hG.lexical (⟨k.values.size⟩ :: scope)
      rw [size_values_enter] at hread
      rw [Forest.Lexical, Forest.lexical_append, hread]
      simp [Forest.Lexical, Stmt.Scoped, Instr.operands]

theorem emitAll_renders : ∀ (stmts : List Stmt) (k : Kernel) (r : RegionId), r.index < k.regions.size →
    ∃ G, RendersAll stmts k (emitAll r stmts k) r G
  | [], k, r, _ => ⟨_, Grows.refl k r, rfl, rfl, fun _ => .rfl⟩
  | stmt :: stmts, k, r, hr => by
    obtain ⟨G, hG⟩ := emit_renders stmt k r hr
    obtain ⟨H, hH⟩ := emitAll_renders stmts (emit r stmt k).1 r (Nat.lt_of_lt_of_le hr hG.regions)
    refine ⟨_, hG.toGrows.append hr hH.toGrows, ?_, ?_, fun scope => ?_⟩
    · show (emitAll r stmts (emit r stmt k).1).1.values.size = _
      rw [hH.count, hG.count, Stmt.valueCountAll, Nat.add_assoc]
    · show ((emit r stmt k).2 ++ (emitAll r stmts (emit r stmt k).1).2).filterMap Handle.value? = _
      rw [List.filterMap_append, hG.made, hH.made, hG.count, ← List.map_append, List.range'_append_1,
        Stmt.valueCountAll]
    · rw [Forest.lexical_append, hG.lexical, hG.behind, hH.lexical, hG.count]
      exact .rfl

end

theorem build_renders (name : String) (location : Location) (stmts : List Stmt) :
    ∃ F, RendersAll stmts { name, location } (buildWithHandles name location stmts) body F :=
  emitAll_renders stmts { name, location } body Nat.zero_lt_one

theorem build_stores (name : String) (location : Location) (stmts : List Stmt) :
    ∃ F, Stores (build name location stmts) F := by
  obtain ⟨F, hF⟩ := build_renders name location stmts
  exact ⟨F, hF.stores⟩

/-- Values are known by their numbers in the order of the statements, and the kernel that is built is accepted
exactly if each of them is read in its scope only. -/
theorem verify_build_eq_ok_iff (name : String) (location : Location) (stmts : List Stmt) :
    (buildWithHandles name location stmts).2.filterMap Handle.value? =
        (List.range (Stmt.valueCountAll stmts)).map ValueId.mk ∧
      ((build name location stmts).verify = .ok () ↔ Stmt.WellScoped stmts) := by
  obtain ⟨F, hF⟩ := build_renders name location stmts
  have hS : Stores (build name location stmts) F := hF.stores
  constructor
  · rw [hF.made, List.range_eq_range']
    rfl
  · rw [hS.verify_eq_ok_iff, Forest.scoped_iff_lexical hS.nodup, hF.lexical]
    rfl

/-- What is behind a loop reads neither its induction value nor a result of its body. -/
example : Stmt.WellScoped [.constant 0, .constant 8, .loop ⟨0⟩ ⟨1⟩ ⟨1⟩ none [.arith .add ⟨2⟩ ⟨0⟩], .dealloc ⟨1⟩] ∧
    ¬Stmt.WellScoped [.constant 0, .constant 8, .loop ⟨0⟩ ⟨1⟩ ⟨1⟩ none [.arith .add ⟨2⟩ ⟨0⟩], .dealloc ⟨2⟩] ∧
    ¬Stmt.WellScoped [.constant 0, .constant 8, .loop ⟨0⟩ ⟨1⟩ ⟨1⟩ none [.arith .add ⟨2⟩ ⟨0⟩], .dealloc ⟨3⟩] := by
  decide

end Kernel
end SlotRotation
