import SlotRotation.Kernel.Edit
import SlotRotation.Proofs.Forest
import SlotRotation.Proofs.Operands

/-! Rewritings put a list of ops in place of each op that is not a loop, ops at the top of loop bodies, and other
operands into loops. Every edit of a kernel is one, and rewritings compose. A rewriting keeps scopes: whatever comes
from `d` is in scope at whatever comes from `u`, if `d` was in scope at `u`. -/

namespace SlotRotation

namespace Forest

def prepend : List Node → Forest → Forest
  | [], F => F
  | n :: ns, F => op n.1 n.2 (prepend ns F)

@[simp] theorem prepend_nil (F : Forest) : prepend [] F = F := rfl

theorem prepend_append (ms ns : List Node) (F : Forest) :
    prepend (ms ++ ns) F = prepend ms (prepend ns F) := by
  induction ms with
  | nil => rfl
  | cons m ms ih => simp only [List.cons_append, prepend, ih]

@[simp] theorem nodes_prepend (ns : List Node) (F : Forest) : (prepend ns F).nodes = ns ++ F.nodes := by
  induction ns with
  | nil => rfl
  | cons n ns ih => simp only [prepend, nodes, ih, List.cons_append]

@[simp] theorem ids_prepend (ns : List Node) (F : Forest) :
    (prepend ns F).ids = ns.map Prod.fst ++ F.ids := by
  simp [ids]

@[simp] theorem tops_prepend (ns : List Node) (F : Forest) :
    (prepend ns F).tops = ns.map Prod.fst ++ F.tops := by
  induction ns with
  | nil => rfl
  | cons n ns ih => simp only [prepend, tops, ih, List.map_cons, List.cons_append]

theorem inScope_prepend_of_right {ns : List Node} {F : Forest} {d u : OpId} (h : F.InScope d u) :
    (prepend ns F).InScope d u := by
  induction ns with
  | nil => exact h
  | cons n ns ih => exact Or.inr ih

theorem inScope_prepend_across {ns : List Node} {F : Forest} {d u : OpId} (hd : d ∈ ns.map Prod.fst)
    (hu : u ∈ F.ids) : (prepend ns F).InScope d u := by
  induction ns with
  | nil => simp at hd
  | cons n ns ih =>
    rcases List.mem_cons.mp hd with rfl | hd
    · exact Or.inl ⟨rfl, by simp [hu]⟩
    · exact Or.inr (ih hd)

theorem inScope_prepend_within {as bs cs : List Node} {d u : Node} {F : Forest} :
    (prepend (as ++ d :: (bs ++ u :: cs)) F).InScope d.1 u.1 := by
  induction as with
  | nil => exact Or.inl ⟨rfl, by simp⟩
  | cons a as ih => exact Or.inr ih

theorem holds_prepend {ns : List Node} {F B : Forest} {a : OpId} {l : Loop} :
    (prepend ns F).Holds a l B ↔ F.Holds a l B := by
  induction ns with
  | nil => rfl
  | cons n ns ih => exact ih

end Forest

theorem Loop.frame_self (_ : OpId) (l : Loop) : l.body = l.body ∧ l.induction = l.induction ∧ l.depth = l.depth :=
  ⟨rfl, rfl, rfl⟩

/-- What to put in place of an op, of the operands of a loop, and at the top of a region. -/
structure Rewriting where
  leaf : OpId → Instr → List Node := fun id i => [(id, i)]
  head : OpId → Loop → Loop := fun _ l => l
  top : RegionId → List Node := fun _ => []
  head_frame : ∀ id l, (head id l).body = l.body ∧ (head id l).induction = l.induction ∧
    (head id l).depth = l.depth := by exact Loop.frame_self

namespace Rewriting

def image (R : Rewriting) (n : Node) : List Node :=
  match n.2 with
  | .loop l => (n.1, .loop (R.head n.1 l)) :: R.top l.body
  | i => R.leaf n.1 i

theorem image_loop (R : Rewriting) (id : OpId) (l : Loop) :
    R.image (id, .loop l) = (id, .loop (R.head id l)) :: R.top l.body := rfl

theorem image_leaf (R : Rewriting) {id : OpId} {i : Instr} (h : i.region? = none) :
    R.image (id, i) = R.leaf id i := by
  cases i <;> first | rfl | cases h

def andThen (R S : Rewriting) : Rewriting where
  leaf id i := (R.leaf id i).flatMap fun n => S.leaf n.1 n.2
  head id l := S.head id (R.head id l)
  top r := S.top r ++ (R.top r).flatMap fun n => S.leaf n.1 n.2
  head_frame id l := by
    obtain ⟨h₁, h₂, h₃⟩ := S.head_frame id (R.head id l)
    obtain ⟨h₄, h₅, h₆⟩ := R.head_frame id l
    exact ⟨h₁.trans h₄, h₂.trans h₅, h₃.trans h₆⟩

theorem leaf_andThen (R S : Rewriting) (id : OpId) (i : Instr) :
    (R.andThen S).leaf id i = (R.leaf id i).flatMap fun n => S.leaf n.1 n.2 := rfl

theorem image_andThen_loop (R S : Rewriting) (id : OpId) (l : Loop) : (R.andThen S).image (id, .loop l) =
    (id, .loop (S.head id (R.head id l))) :: (S.top l.body ++ (R.top l.body).flatMap fun n => S.leaf n.1 n.2) := rfl

def placing (p : InsertPoint) (ns : List Node) : Rewriting where
  leaf id i := (if p = .before id then ns else []) ++ (id, i) :: (if p = .after id then ns else [])
  top r := if p = .first r then ns else []

def dropping (gone : List OpId) : Rewriting where
  leaf id i := if id ∈ gone then [] else [(id, i)]

def rebinding (f : Use → ValueId → ValueId) : Rewriting where
  leaf id i := [(id, i.mapOperands fun n => f ⟨id, n⟩)]
  head id l :=
    { l with lower := f ⟨id, 0⟩ l.lower, upper := f ⟨id, 1⟩ l.upper, step := f ⟨id, 2⟩ l.step }

theorem leaf_placing (p : InsertPoint) (ns : List Node) (id : OpId) (i : Instr) : (placing p ns).leaf id i =
    (if p = .before id then ns else []) ++ (id, i) :: (if p = .after id then ns else []) := rfl

theorem top_placing (p : InsertPoint) (ns : List Node) (r : RegionId) :
    (placing p ns).top r = if p = .first r then ns else [] := rfl

theorem image_rebinding (f : Use → ValueId → ValueId) (n : Node) :
    (rebinding f).image n = [(n.1, n.2.mapOperands fun m => f ⟨n.1, m⟩)] := by
  obtain ⟨id, i⟩ := n
  cases i <;> rfl

end Rewriting

namespace Forest

variable (R S : Rewriting)

def rewrite : Forest → Forest
  | nil => nil
  | op id i rest => prepend (R.leaf id i) rest.rewrite
  | loop id l body rest => loop id (R.head id l) (prepend (R.top l.body) body.rewrite) rest.rewrite

theorem rewrite_prepend (ns : List Node) (F : Forest) :
    (prepend ns F).rewrite R = prepend (ns.flatMap fun n => R.leaf n.1 n.2) (F.rewrite R) := by
  induction ns with
  | nil => rfl
  | cons n ns ih => simp only [prepend, rewrite, ih, List.flatMap_cons, prepend_append]

theorem rewrite_rewrite (F : Forest) : (F.rewrite R).rewrite S = F.rewrite (R.andThen S) := by
  induction F with
  | nil => rfl
  | op id i rest ih => simp only [rewrite, rewrite_prepend, ih]; rfl
  | loop id l body rest ihb ihr =>
    simp only [rewrite, rewrite_prepend, ihb, ihr, (R.head_frame id l).1, ← prepend_append]
    rfl

variable {R S}

theorem rewrite_congr {F : Forest} (hF : F.Plain) (h : ∀ n ∈ F.nodes, R.image n = S.image n) :
    F.rewrite R = F.rewrite S := by
  induction F with
  | nil => rfl
  | op id i rest ih =>
    have hi := h (id, i) (List.mem_cons_self ..)
    rw [R.image_leaf hF.1, S.image_leaf hF.1] at hi
    rw [rewrite, rewrite, hi, ih hF.2 fun n hn => h n (List.mem_cons_of_mem _ hn)]
  | loop id l body rest ihb ihr =>
    have hl := h (id, .loop l) (List.mem_cons_self ..)
    rw [R.image_loop, S.image_loop, List.cons.injEq, Prod.mk.injEq, Instr.loop.injEq] at hl
    obtain ⟨⟨-, hhead⟩, htop⟩ := hl
    rw [rewrite, rewrite, hhead, htop,
      ihb hF.1 fun n hn => h n (List.mem_cons_of_mem _ (List.mem_append_left _ hn)),
      ihr hF.2 fun n hn => h n (List.mem_cons_of_mem _ (List.mem_append_right _ hn))]

theorem rewrite_identity (F : Forest) : F.rewrite {} = F := by
  induction F with
  | nil => rfl
  | op id i rest ih => rw [rewrite, ih, prepend, prepend_nil]
  | loop id l body rest ihb ihr => rw [rewrite, ihb, ihr, prepend_nil]

theorem rewrite_eq_self {F : Forest} (hF : F.Plain) (h : ∀ n ∈ F.nodes, R.image n = [n]) : F.rewrite R = F := by
  refine (rewrite_congr (S := {}) hF fun n hn => (h n hn).trans ?_).trans (rewrite_identity F)
  obtain ⟨id, i⟩ := n
  cases i <;> rfl

theorem nodes_rewrite {F : Forest} (hF : F.Plain) : (F.rewrite R).nodes = F.nodes.flatMap R.image := by
  induction F with
  | nil => rfl
  | op id i rest ih =>
    rw [rewrite, nodes_prepend, ih hF.2, nodes, List.flatMap_cons, R.image_leaf hF.1]
  | loop id l body rest ihb ihr =>
    simp only [rewrite, nodes, nodes_prepend, ihb hF.1, ihr hF.2, List.flatMap_cons, R.image_loop,
      List.flatMap_append, List.cons_append, List.append_assoc]

theorem mem_nodes_rewrite {F : Forest} (hF : F.Plain) {n : Node} :
    n ∈ (F.rewrite R).nodes ↔ ∃ m ∈ F.nodes, n ∈ R.image m := by
  rw [nodes_rewrite hF, List.mem_flatMap]

theorem mem_rewrite_of_mem_image {F : Forest} (hF : F.Plain) {n : Node} (hn : n ∈ F.nodes) (himage : n ∈ R.image n) :
    n ∈ (F.rewrite R).nodes := (mem_nodes_rewrite hF).mpr ⟨n, hn, himage⟩

theorem InScope.rewrite {F : Forest} (hF : F.Plain) (hids : F.ids.Nodup) {d u d' u' : Node} (h : F.InScope d.1 u.1)
    (hd : d ∈ F.nodes) (hu : u ∈ F.nodes) (hd' : d' ∈ R.image d) (hu' : u' ∈ R.image u) :
    (F.rewrite R).InScope d'.1 u'.1 := by
  have hmem : ∀ {G : Forest} {n n'}, G.Plain → n ∈ G.nodes → n' ∈ R.image n → n'.1 ∈ (G.rewrite R).ids :=
    fun hG hn hn' => mem_ids_of_mem_nodes ((mem_nodes_rewrite hG).mpr ⟨_, hn, hn'⟩)
  induction F with
  | nil => exact h.elim
  | op id i rest ih =>
    obtain ⟨hid, hrest⟩ := nodup_op hids
    rcases h with ⟨rfl, hu₁⟩ | h
    · have hdi : d = (d.1, i) := (List.mem_cons.mp hd).resolve_right fun hd => hid (mem_ids_of_mem_nodes hd)
      have hur : u ∈ rest.nodes := (List.mem_cons.mp hu).resolve_left fun hu => hid (by rw [hu] at hu₁; exact hu₁)
      rw [hdi, R.image_leaf hF.1] at hd'
      exact inScope_prepend_across (List.mem_map_of_mem hd') (hmem hF.2 hur hu')
    · have hdr : d ∈ rest.nodes := (List.mem_cons.mp hd).resolve_left fun hd => hid (by
        have := h.left_mem; rw [hd] at this; exact this)
      have hur : u ∈ rest.nodes := (List.mem_cons.mp hu).resolve_left fun hu => hid (by
        have := h.right_mem; rw [hu] at this; exact this)
      exact inScope_prepend_of_right (ih hF.2 hrest h hdr hur)
  | loop id l body rest ihb ihr =>
    obtain ⟨hidb, hidr, hb, hr, hdis⟩ := nodup_loop hids
    -- A node with an id of one part of the forest belongs to that part.
    have part : ∀ {n : Node}, n ∈ (loop id l body rest).nodes →
        (n.1 ∈ body.ids → n ∈ body.nodes) ∧ (n.1 ∈ rest.ids → n ∈ rest.nodes) := by
      intro n hn
      simp only [nodes, List.mem_cons, List.mem_append] at hn
      rcases hn with rfl | hn | hn
      · exact ⟨fun h => absurd h hidb, fun h => absurd h hidr⟩
      · exact ⟨fun _ => hn, fun h => absurd h (hdis _ (mem_ids_of_mem_nodes hn))⟩
      · exact ⟨fun h => absurd (mem_ids_of_mem_nodes hn) (hdis _ h), fun _ => hn⟩
    rcases h with ⟨rfl, hu₁⟩ | h | h
    · have hdl : d = (d.1, .loop l) := by
        simp only [nodes, List.mem_cons, List.mem_append] at hd
        rcases hd with hd | hd | hd
        · exact hd
        · exact absurd (mem_ids_of_mem_nodes hd) hidb
        · exact absurd (mem_ids_of_mem_nodes hd) hidr
      have hub := hmem hF.1 ((part hu).1 hu₁) hu'
      rw [hdl, R.image_loop] at hd'
      rcases List.mem_cons.mp hd' with rfl | hd'
      · exact Or.inl ⟨rfl, by simp [hub]⟩
      · exact Or.inr (Or.inl (inScope_prepend_across (List.mem_map_of_mem hd') hub))
    · exact Or.inr (Or.inl (inScope_prepend_of_right
        (ihb hF.1 hb h ((part hd).1 h.left_mem) ((part hu).1 h.right_mem))))
    · exact Or.inr (Or.inr (ihr hF.2 hr h ((part hd).2 h.left_mem) ((part hu).2 h.right_mem)))

theorem inScope_image {F : Forest} (hF : F.Plain) {n d u : Node} {as bs cs : List Node} (hn : n ∈ F.nodes)
    (h : R.image n = as ++ d :: (bs ++ u :: cs)) : (F.rewrite R).InScope d.1 u.1 := by
  induction F with
  | nil => simp [nodes] at hn
  | op id i rest ih =>
    rcases List.mem_cons.mp hn with rfl | hn
    · rw [R.image_leaf hF.1] at h
      rw [rewrite, h]
      exact inScope_prepend_within
    · exact inScope_prepend_of_right (ih hF.2 hn)
  | loop id l body rest ihb ihr =>
    simp only [nodes, List.mem_cons, List.mem_append] at hn
    rcases hn with rfl | hn | hn
    · rw [R.image_loop] at h
      cases as with
      | nil =>
        simp only [List.nil_append, List.cons.injEq] at h
        obtain ⟨rfl, htop⟩ := h
        exact Or.inl ⟨rfl, by simp [htop]⟩
      | cons a as =>
        simp only [List.cons_append, List.cons.injEq] at h
        exact Or.inr (Or.inl (by rw [h.2]; exact inScope_prepend_within))
    · exact Or.inr (Or.inl (inScope_prepend_of_right (ihb hF.1 hn)))
    · exact Or.inr (Or.inr (ihr hF.2 hn))

theorem Holds.rewrite {F B : Forest} {a : OpId} {l : Loop} (h : F.Holds a l B) :
    (F.rewrite R).Holds a (R.head a l) (prepend (R.top l.body) (B.rewrite R)) := by
  induction F with
  | nil => exact h.elim
  | op id i rest ih => exact holds_prepend.mpr (ih h)
  | loop id l' body rest ihb ihr =>
    rcases h with ⟨rfl, rfl, rfl⟩ | h | h
    · exact Or.inl ⟨rfl, rfl, rfl⟩
    · exact Or.inr (Or.inl (holds_prepend.mpr (ihb h)))
    · exact Or.inr (Or.inr (ihr h))

theorem mem_tops_rewrite {F : Forest} (hF : F.Plain) (hids : F.ids.Nodup) {n n' : Node} (hn : n ∈ F.nodes)
    (ht : n.1 ∈ F.tops) (hi : n.2.region? = none) (hn' : n' ∈ R.image n) : n'.1 ∈ (F.rewrite R).tops := by
  induction F with
  | nil => simp [nodes] at hn
  | op id i rest ih =>
    obtain ⟨hid, hrest⟩ := nodup_op hids
    rw [rewrite, tops_prepend, List.mem_append]
    rcases List.mem_cons.mp hn with rfl | hn
    · rw [R.image_leaf hF.1] at hn'
      exact Or.inl (List.mem_map_of_mem hn')
    · refine Or.inr (ih hF.2 hrest hn ((List.mem_cons.mp ht).resolve_left fun e => hid ?_))
      exact e ▸ mem_ids_of_mem_nodes hn
  | loop id l body rest _ ih =>
    obtain ⟨hidb, hidr, hb, hr, hdis⟩ := nodup_loop hids
    simp only [nodes, List.mem_cons, List.mem_append] at hn
    rcases hn with rfl | hn | hn
    · cases hi
    · rcases List.mem_cons.mp ht with e | ht
      · exact absurd (e ▸ mem_ids_of_mem_nodes hn) hidb
      · exact absurd (mem_ids_of_mem_tops ht) (hdis _ (mem_ids_of_mem_nodes hn))
    · refine List.mem_cons_of_mem _ (ih hF.2 hr hn ((List.mem_cons.mp ht).resolve_left fun e => hidr ?_))
      exact e ▸ mem_ids_of_mem_nodes hn

theorem Child.rewrite {F : Forest} (hF : F.Plain) (hids : F.ids.Nodup) {a : OpId} {n n' : Node} (h : F.Child a n.1)
    (hn : n ∈ F.nodes) (hi : n.2.region? = none) (hn' : n' ∈ R.image n) : (F.rewrite R).Child a n'.1 := by
  obtain ⟨l, B, hB, hx⟩ := h
  obtain ⟨i, hnB⟩ := exists_mem_nodes (mem_ids_of_mem_tops hx)
  have hnB' : n ∈ B.nodes := by
    obtain rfl : i = n.2 := node_unique hids (hB.nodes_subset hnB) hn
    exact hnB
  refine ⟨_, _, hB.rewrite, ?_⟩
  rw [tops_prepend]
  exact List.mem_append_right _ (mem_tops_rewrite (hB.plain hF) (hB.nodup hids) hnB' hx hi hn')

theorem child_top {F B : Forest} {a : OpId} {l : Loop} (h : F.Holds a l B) {n : Node} (hn : n ∈ R.top l.body) :
    (F.rewrite R).Child a n.1 :=
  ⟨_, _, h.rewrite, by simp [List.mem_map_of_mem hn]⟩

theorem Leads.rewrite {F : Forest} {a g : OpId} (h : F.Leads a g)
    (htop : ∀ l, (a, .loop l) ∈ F.nodes → R.top l.body = []) {ns : List Node}
    (hleaf : R.leaf g .barrier = (g, .barrier) :: ns) : (F.rewrite R).Leads a g := by
  obtain ⟨l, B, hB⟩ := h
  refine ⟨R.head a l, prepend ns (B.rewrite R), ?_⟩
  have hrw := hB.rewrite (R := R)
  rwa [htop l hB.mem_nodes, prepend_nil, Forest.rewrite, hleaf] at hrw

end Forest
end SlotRotation
