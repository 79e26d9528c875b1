import SlotRotation.Proofs.Edits.Basic

/-! A new op at any place of any region list. A loop comes with an empty body. -/

namespace SlotRotation

namespace Forest

def plant (n : Node) (rest : Forest) : Forest :=
  match n.2 with
  | .loop l => loop n.1 l nil rest
  | i => op n.1 i rest

def plantAt (n : Node) : Nat → Forest → Forest
  | 0, F => plant n F
  | _ + 1, nil => nil
  | m + 1, op id i rest => op id i (plantAt n m rest)
  | m + 1, loop id l body rest => loop id l body (plantAt n m rest)

def graft (n : Node) (r : RegionId) (m : Nat) : Forest → Forest
  | nil => nil
  | op id i rest => op id i (rest.graft n r m)
  | loop id l body rest =>
    loop id l (if l.body = r then plantAt n m (body.graft n r m) else body.graft n r m) (rest.graft n r m)

variable {F : Forest} {n : Node} {r s : RegionId} {m : Nat}

@[simp] theorem nodes_plant (n : Node) (F : Forest) : (plant n F).nodes = n :: F.nodes := by
  obtain ⟨id, i⟩ := n
  cases i <;> rfl

@[simp] theorem tops_plant (n : Node) (F : Forest) : (plant n F).tops = n.1 :: F.tops := by
  obtain ⟨id, i⟩ := n
  cases i <;> rfl

theorem tops_plantAt (n : Node) (m : Nat) (F : Forest) : (plantAt n m F).tops = F.tops.insertIdx m n.1 := by
  induction m generalizing F with
  | zero => simp [plantAt]
  | succ m ih =>
    cases F with
    | nil => rfl
    | op id i rest => simp [plantAt, tops, ih]
    | loop id l body rest => simp [plantAt, tops, ih]

theorem nodes_plantAt (hm : m ≤ F.tops.length) : (plantAt n m F).nodes.Perm (n :: F.nodes) := by
  induction m generalizing F with
  | zero => simp [plantAt]
  | succ m ih =>
    cases F with
    | nil => simp [tops] at hm
    | op id i rest =>
      have hrest := ih (F := rest) (by simpa [tops] using hm)
      exact (hrest.cons _).trans (.swap ..)
    | loop id l body rest =>
      have hrest := ih (F := rest) (by simpa [tops] using hm)
      refine (List.Perm.cons _ ((hrest.append_left body.nodes).trans ?_)).trans (.swap ..)
      exact List.perm_middle

@[simp] theorem tops_graft (n : Node) (r : RegionId) (m : Nat) (F : Forest) : (F.graft n r m).tops = F.tops := by
  induction F with
  | nil => rfl
  | op id i rest ih => simp [graft, tops, ih]
  | loop id l body rest _ ih => simp [graft, tops, ih]

theorem graft_of_notMem (h : r ∉ F.bodies) : F.graft n r m = F := by
  induction F with
  | nil => rfl
  | op id i rest ih => rw [graft, ih h]
  | loop id l body rest ihb ihr =>
    simp only [bodies, List.mem_cons, List.mem_append, not_or] at h
    rw [graft, ihb h.2.1, ihr h.2.2, if_neg (Ne.symm h.1)]

end Forest

namespace Kernel

variable {k k' : Kernel} {F : Forest} {n : Node} {r s : RegionId} {m : Nat}

structure Rooted (k : Kernel) (n : Node) (r : RegionId) : Prop where
  op? : k.op? n.1 = some ⟨n.2, r⟩
  empty : ∀ s, n.2.region? = some s → k.regionOps s = [] ∧ k.owner? s = some n.1

theorem Rooted.plant (hn : k.Rooted n r) (h : k.Placed r F) : k.Placed r (F.plant n) := by
  obtain ⟨id, i⟩ := n
  cases i with
  | loop l =>
    obtain ⟨hlist, howner⟩ := hn.empty l.body rfl
    exact ⟨hn.op?, hlist, howner, trivial, h⟩
  | _ => exact ⟨hn.op?, rfl, h⟩

theorem Rooted.plantAt (hn : k.Rooted n r) (h : k.Placed r F) : k.Placed r (F.plantAt n m) := by
  induction m generalizing F with
  | zero => exact hn.plant h
  | succ m ih =>
    cases F with
    | nil => trivial
    | op id i rest => exact ⟨h.1, h.2.1, ih h.2.2⟩
    | loop id l body rest => exact ⟨h.1, h.2.1, h.2.2.1, h.2.2.2.1, ih h.2.2.2.2⟩

theorem Placed.nodes_graft (h : k.Placed s F) (hF : F.bodies.Nodup) (hr : r ∈ F.bodies)
    (hm : m ≤ (k.regionOps r).length) : (F.graft n r m).nodes.Perm (n :: F.nodes) := by
  induction F generalizing s with
  | nil => simp [Forest.bodies] at hr
  | op id i rest ih => exact ((ih h.2.2 hF hr).cons _).trans (.swap ..)
  | loop id l body rest ihb ihr =>
    obtain ⟨hop, hlist, howner, hbody, hrest⟩ := h
    simp only [Forest.bodies, List.nodup_cons, List.mem_append, not_or, List.nodup_append] at hF
    obtain ⟨⟨hlb, hlr⟩, hb, hrb, hdis⟩ := hF
    simp only [Forest.bodies, List.mem_cons, List.mem_append] at hr
    by_cases hl : l.body = r
    · subst hl
      have hplanted := Forest.nodes_plantAt (n := n) (F := body) (hlist ▸ hm)
      simp only [Forest.graft, if_true, Forest.graft_of_notMem hlb, Forest.graft_of_notMem hlr, Forest.nodes]
      exact ((hplanted.append_right _).cons _).trans (.swap ..)
    · rcases hr with hr | hr | hr
      · exact absurd hr.symm hl
      · have hrest' : r ∉ rest.bodies := fun hr' => hdis r hr r hr' rfl
        simp only [Forest.graft, if_neg hl, Forest.graft_of_notMem hrest', Forest.nodes]
        exact (((ihb hbody hb hr).append_right _).cons _).trans (.swap ..)
      · have hbody' : r ∉ body.bodies := fun hr' => hdis r hr' r hr rfl
        simp only [Forest.graft, if_neg hl, Forest.graft_of_notMem hbody', Forest.nodes]
        refine (List.Perm.cons _ (((ihr hrest hrb hr).append_left _).trans ?_)).trans (.swap ..)
        exact List.perm_middle

/-- `k'` is `k` with the node `n` at place `m` of the list of region `r`. -/
structure Grafts (k k' : Kernel) (n : Node) (r : RegionId) (m : Nat) : Prop where
  op? : ∀ x, k'.op? x = if x = n.1 then some ⟨n.2, r⟩ else k.op? x
  list : ∀ s, k'.regionOps s = if s = r then (k.regionOps s).insertIdx m n.1 else k.regionOps s
  owner : ∀ s, k'.owner? s = if n.2.region? = some s then some n.1 else k.owner? s

def Vacant (k : Kernel) (r : RegionId) : Prop := k.region? r = some {} ∧ r ≠ body

theorem Vacant.regionOps (h : k.Vacant r) : k.regionOps r = [] := by simp [Kernel.regionOps, h.1]

theorem Vacant.owner? (h : k.Vacant r) : k.owner? r = none := by simp [Kernel.owner?, h.1]

theorem Grafts.placed (hk : Grafts k k' n r m) (hnew : k'.Rooted n r)
    (hvacant : ∀ s, n.2.region? = some s → k.Vacant s) (h : k.Placed s F) (hn : n.1 ∉ F.ids) :
    k'.Placed s (F.graft n r m) := by
  have hop : ∀ {x}, x ≠ n.1 → k'.op? x = k.op? x := fun hx => (hk.op? _).trans (if_neg hx)
  induction F generalizing s with
  | nil => trivial
  | op id i rest ih =>
    simp only [Forest.ids_op, List.mem_cons, not_or] at hn
    exact ⟨(hop (Ne.symm hn.1)).trans h.1, h.2.1, ih h.2.2 hn.2⟩
  | loop id l body rest ihb ihr =>
    obtain ⟨hid, hlist, howner, hbody, hrest⟩ := h
    simp only [Forest.ids_loop, List.mem_cons, List.mem_append, not_or] at hn
    have hbody' := ihb hbody hn.2.1
    have howner' : k'.owner? l.body = some id := by
      rw [hk.owner, if_neg, howner]
      intro hs
      rw [(hvacant _ hs).owner?] at howner
      cases howner
    refine ⟨(hop (Ne.symm hn.1)).trans hid, ?_, howner', ?_, ihr hrest hn.2.2⟩
    · rw [hk.list, hlist]
      split
      · rw [Forest.tops_plantAt, Forest.tops_graft]
      · rw [Forest.tops_graft]
    · split
      · rename_i hl
        subst hl
        exact hnew.plantAt hbody'
      · exact hbody'

def grafted (F : Forest) (n : Node) (r : RegionId) (m : Nat) : Forest :=
  if r = body then F.plantAt n m else F.graft n r m

theorem Arranges.root_notMem (h : Arranges k F) : body ∉ F.bodies := by
  intro hb
  obtain ⟨id, -, hid⟩ := (h.placed.nodup_bodies h.nodup).2 _ hb
  rw [h.root] at hid
  cases hid

theorem Arranges.nodes_grafted (h : Arranges k F) (hr : r = body ∨ r ∈ F.bodies)
    (hm : m ≤ (k.regionOps r).length) : (grafted F n r m).nodes.Perm (n :: F.nodes) := by
  unfold grafted
  split
  · rename_i hbody
    subst hbody
    exact Forest.nodes_plantAt (h.top ▸ hm)
  · rename_i hbody
    exact h.placed.nodes_graft (h.placed.nodup_bodies h.nodup).1 (hr.resolve_left hbody) hm

theorem Arranges.graft (h : Arranges k F) (hk : Grafts k k' n r m) (hid : n.1 = k.nextOp)
    (hsize : k'.ops.size = k.ops.size + 1) (hsome : ∀ s, (k.region? s).isSome → (k'.region? s).isSome)
    (hvacant : ∀ s, n.2.region? = some s → k.Vacant s) (hr : r = body ∨ r ∈ F.bodies)
    (hm : m ≤ (k.regionOps r).length) : Arranges k' (grafted F n r m) := by
  have hn : n.1 ∉ F.ids := hid ▸ h.nextOp_notMem
  have hperm := h.nodes_grafted (n := n) hr hm
  have hmem : ∀ x, x ∈ (grafted F n r m).nodes ↔ x = n ∨ x ∈ F.nodes := fun x => by rw [hperm.mem_iff, List.mem_cons]
  have howned : ∀ s, n.2.region? = some s → s ≠ r := by
    rintro s hs rfl
    rcases hr with rfl | hr
    · exact (hvacant _ hs).2 rfl
    · obtain ⟨a, -, ha⟩ := (h.placed.nodup_bodies h.nodup).2 s hr
      rw [(hvacant s hs).owner?] at ha
      cases ha
  have hnew : k'.Rooted n r := by
    refine ⟨(hk.op? _).trans (if_pos rfl), fun s hs => ⟨?_, (hk.owner s).trans (if_pos hs)⟩⟩
    rw [hk.list, if_neg (howned s hs), (hvacant s hs).regionOps]
  have hroot : ∀ s, n.2.region? = some s → s ≠ body := fun s hs => (hvacant s hs).2
  refine ⟨?_, ?_, ?_, fun x hx => ?_, fun s a ha => ?_, ?_, hsome _ h.rooted⟩
  · rw [hk.list, h.top, grafted]
    by_cases hb : r = body
    · rw [if_pos hb.symm, if_pos hb, Forest.tops_plantAt]
    · rw [if_neg (Ne.symm hb), if_neg hb, Forest.tops_graft]
  · have hplaced := hk.placed hnew hvacant h.placed hn
    rw [grafted]
    split
    · rename_i hb
      subst hb
      rw [Forest.graft_of_notMem h.root_notMem] at hplaced
      exact hnew.plantAt hplaced
    · exact hplaced
  · rw [Forest.ids, (hperm.map Prod.fst).nodup_iff, List.map_cons, List.nodup_cons]
    exact ⟨hn, h.nodup⟩
  · by_cases hxn : x = n.1
    · exact hxn ▸ Forest.mem_ids_of_mem_nodes ((hmem n).mpr (Or.inl rfl))
    · rw [isLive, hk.op?, if_neg hxn] at hx
      obtain ⟨i, hi⟩ := Forest.exists_mem_nodes (h.complete x hx)
      exact Forest.mem_ids_of_mem_nodes ((hmem _).mpr (Or.inr hi))
  · rw [hk.owner] at ha
    split at ha
    · rename_i hs
      cases ha
      refine ⟨by rw [hsize, hid]; exact Nat.lt_succ_self _, fun i hi => ?_⟩
      rcases (hmem _).mp hi with heq | hi
      · rw [← hs, ← heq]
      · exact absurd (Forest.mem_ids_of_mem_nodes hi) hn
    · obtain ⟨hlt, hregion⟩ := h.owner s a ha
      refine ⟨by omega, fun i hi => ?_⟩
      rcases (hmem _).mp hi with heq | hi
      · obtain rfl : a = k.nextOp := (congrArg Prod.fst heq).trans hid
        exact absurd hlt (Nat.lt_irrefl _)
      · exact hregion i hi
  · rw [hk.owner, if_neg fun hs => hroot _ hs rfl, h.root]

end Kernel
end SlotRotation
