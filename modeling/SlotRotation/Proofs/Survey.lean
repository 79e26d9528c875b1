import SlotRotation.Transform.Site
import SlotRotation.Proofs.Edits.Local
import SlotRotation.Proofs.Fits

/-! A survey changes nothing about a kernel but the directives of its allocations. -/

namespace SlotRotation

def Instr.stripped : Instr → Instr
  | .alloc a => .alloc a.stripped
  | i => i

@[simp] theorem Instr.result?_stripped (i : Instr) : i.stripped.result? = i.result? := by cases i <;> rfl

@[simp] theorem Instr.operands_stripped (i : Instr) : i.stripped.operands = i.operands := by cases i <;> rfl

@[simp] theorem Instr.region?_stripped (i : Instr) : i.stripped.region? = i.region? := by cases i <;> rfl

theorem Alloc.stripped_eq {a : Alloc} (h : a.multibuffer = none) (h' : a.remultibuffer = none) : a.stripped = a := by
  cases a
  simp_all [Alloc.stripped]

def Rewriting.stripping (ids : List OpId) : Rewriting where
  leaf id i := [(id, if id ∈ ids then i.stripped else i)]

theorem Rewriting.image_stripping (ids : List OpId) (n : Node) :
    (stripping ids).image n = [(n.1, if n.1 ∈ ids then n.2.stripped else n.2)] := by
  obtain ⟨id, i⟩ := n
  cases i with
  | loop l => simp [image, stripping, Instr.stripped]
  | _ => rfl

theorem Rewriting.flat_stripping (ids : List OpId) : (stripping ids).Flat where
  leaf id i hi m hm := by
    rw [List.mem_singleton.mp hm]
    change (if id ∈ ids then i.stripped else i).region? = none
    split
    · rw [Instr.region?_stripped, hi]
    · exact hi
  top r m hm := absurd hm List.not_mem_nil

namespace Forest

variable {F : Forest} (hP : F.Plain) (ids : List OpId)
include hP

theorem mem_stripping {n : Node} : n ∈ (F.rewrite (.stripping ids)).nodes ↔
    ∃ i, (n.1, i) ∈ F.nodes ∧ n.2 = if n.1 ∈ ids then i.stripped else i := by
  rw [mem_nodes_rewrite hP]
  simp only [Rewriting.image_stripping, List.mem_singleton]
  constructor
  · rintro ⟨m, hm, rfl⟩
    exact ⟨m.2, hm, rfl⟩
  · rintro ⟨i, hi, heq⟩
    exact ⟨_, hi, Prod.ext rfl heq⟩

theorem Scoped.stripping (hF : F.ids.Nodup) (h : F.Scoped) : (F.rewrite (.stripping ids)).Scoped := by
  intro n hn v hv
  obtain ⟨i, hi, heq⟩ := (mem_stripping hP ids).mp hn
  have hread : v ∈ i.operands := by
    rw [heq] at hv
    split at hv
    · rwa [Instr.operands_stripped] at hv
    · exact hv
  obtain ⟨d, hd, hres, hscope⟩ := h _ hi v hread
  refine ⟨(d.1, if d.1 ∈ ids then d.2.stripped else d.2), (mem_stripping hP ids).mpr ⟨d.2, hd, rfl⟩, ?_, ?_⟩
  · change (if d.1 ∈ ids then d.2.stripped else d.2).result? = some v
    split
    · rwa [Instr.result?_stripped]
    · exact hres
  · have hdef : (d.1, if d.1 ∈ ids then d.2.stripped else d.2) ∈ (Rewriting.stripping ids).image d := by
      rw [Rewriting.image_stripping]
      exact List.mem_singleton_self _
    have huse : n ∈ (Rewriting.stripping ids).image (n.1, i) := by
      rw [Rewriting.image_stripping]
      exact List.mem_singleton.mpr (Prod.ext rfl heq)
    exact hscope.rewrite hP hF hd hi hdef huse

theorem ControlFree.stripping {v : ValueId} (h : F.ControlFree v) : (F.rewrite (.stripping ids)).ControlFree v := by
  intro a l hl
  obtain ⟨i, hi, heq⟩ := (mem_stripping hP ids).mp hl
  refine h a l ?_
  cases i with
  | loop m =>
    obtain rfl : l = m := by simpa [Instr.stripped] using heq
    exact hi
  | _ => split at heq <;> cases heq

end Forest

def Site.Names (site : Site) (a : Alloc) : Prop :=
  site.buffer = a.result ∧ site.ty = a.ty ∧ a.multibuffer = some site.factor ∧ a.remultibuffer = site.resize

namespace Kernel

variable {k : Kernel} {F : Forest} {s : Transform.State}

theorem Stores.strip (h : Stores k F) {id : OpId} {a : Alloc} (ha : (id, .alloc a) ∈ F.nodes) :
    Becomes k (k.updateAlloc id Alloc.stripped) F (.stripping [id]) ∧
      (k.updateAlloc id Alloc.stripped).ops.size = k.ops.size := by
  have heq : k.updateAlloc id Alloc.stripped = k.setInstr id (.alloc a.stripped) := by
    rw [updateAlloc, h.alloc?_eq_some_iff.mpr ha]
  rw [heq]
  refine ⟨⟨extends_of_values (Nat.le_of_eq (size_ops_setInstr ..).symm) (values_setInstr ..), ?_,
    Rewriting.flat_stripping _⟩, size_ops_setInstr ..⟩
  refine h.setInstr (R := .stripping [id]) (i := .alloc a.stripped) ha rfl rfl ⟨fun m hm => ?_, fun _ => rfl⟩
  rw [Rewriting.image_stripping]
  by_cases hid : m.1 = id
  · have hm' : m.2 = .alloc a := Forest.node_unique h.nodup hm (hid ▸ ha)
    simp [hid, hm', Instr.stripped]
  · simp [hid]

theorem Stores.strip_nothing (h : Stores k F) {ids : List OpId}
    (hids : ∀ id ∈ ids, ∀ i, (id, i) ∈ F.nodes → i.stripped = i) : Becomes k k F (.stripping ids) := by
  refine ⟨Extends.refl k, ?_, Rewriting.flat_stripping _⟩
  have hsame : F.rewrite (.stripping ids) = F.rewrite (.dropping []) := by
    refine Forest.rewrite_congr h.plain fun n hn => ?_
    rw [Rewriting.image_stripping, (Rewriting.local_dropping []).image_of_notMem List.not_mem_nil]
    split
    · rename_i hid
      rw [hids n.1 hid n.2 hn]
    · rfl
  rw [hsame, Forest.rewrite_dropping_nil h.plain]
  exact h

/-- One op of the walk: its directives go, and a slot directive makes it a site. -/
theorem Stores.surveyOp (h : Stores s.kernel F) (id : OpId) :
    Becomes s.kernel (Transform.surveyOp id s).2.kernel F (.stripping [id]) ∧
      (Transform.surveyOp id s).2.kernel.ops.size = s.kernel.ops.size ∧
      ∀ site ∈ (Transform.surveyOp id s).1.sites, ∃ a, (site.alloc, .alloc a) ∈ F.nodes ∧ site.Names a := by
  unfold Transform.surveyOp
  cases ha : s.kernel.alloc? id with
  | none =>
    refine ⟨h.strip_nothing fun x hx i hi => ?_, rfl, by simp⟩
    rw [List.mem_singleton.mp hx] at hi
    cases i with
    | alloc a => cases ha.symm.trans (h.alloc?_eq_some_iff.mpr hi)
    | _ => rfl
  | some a =>
    have hmem := h.alloc?_eq_some_iff.mp ha
    obtain ⟨hstrip, hsize⟩ := h.strip hmem
    cases hmulti : a.multibuffer with
    | some factor =>
      simp only [hmulti]
      refine ⟨hstrip, hsize, fun site hsite => ⟨a, ?_⟩⟩
      rw [List.mem_singleton.mp hsite]
      exact ⟨hmem, rfl, rfl, hmulti, rfl⟩
    | none =>
      cases hre : a.remultibuffer with
      | some resize =>
        simp only [hmulti, hre]
        exact ⟨hstrip, hsize, fun site hsite => absurd hsite List.not_mem_nil⟩
      | none =>
        simp only [hmulti, hre]
        refine ⟨h.strip_nothing fun x hx i hi => ?_, trivial, fun site hsite => absurd hsite List.not_mem_nil⟩
        rw [List.mem_singleton.mp hx] at hi
        rw [Forest.node_unique h.nodup hi hmem, Instr.stripped, Alloc.stripped_eq hmulti hre]

theorem stripping_andThen (hF : F.Plain) (id : OpId) (ids : List OpId) :
    F.rewrite ((Rewriting.stripping [id]).andThen (.stripping ids)) = F.rewrite (.stripping (id :: ids)) := by
  refine Forest.rewrite_congr hF fun n _ => ?_
  have htwice : n.2.stripped.stripped = n.2.stripped := by cases n.2 <;> rfl
  rw [(Rewriting.flat_stripping [id]).image_andThen, Rewriting.image_stripping, Rewriting.image_stripping]
  simp only [List.flatMap_singleton, Rewriting.image_stripping, List.mem_cons]
  by_cases hid : n.1 = id <;> by_cases hids : n.1 ∈ ids <;> simp [hid, hids, htwice]

/-- A walk takes the directives off every op it meets; what it finds was there at the start. -/
theorem Stores.surveyOps (h : Stores s.kernel F) (ids : List OpId) :
    Becomes s.kernel (Transform.surveyOps ids s).2.kernel F (.stripping ids) ∧
      (Transform.surveyOps ids s).2.kernel.ops.size = s.kernel.ops.size ∧
      ∀ site ∈ (Transform.surveyOps ids s).1.sites, ∃ a, (site.alloc, .alloc a) ∈ F.nodes ∧ site.Names a := by
  induction ids generalizing s F with
  | nil => exact ⟨h.strip_nothing (by simp), rfl, fun site hsite => absurd hsite List.not_mem_nil⟩
  | cons id ids ih =>
    obtain ⟨hfirst, hsize, hfound⟩ := h.surveyOp id
    obtain ⟨hrest, hsize', hfound'⟩ := ih hfirst.stores
    refine ⟨?_, hsize'.trans hsize, fun site hsite => ?_⟩
    · have htrans := hfirst.trans hrest
      exact { htrans with
        stores := by rw [← stripping_andThen h.plain]; exact htrans.stores
        flat := Rewriting.flat_stripping _ }
    · rcases List.mem_append.mp hsite with hsite | hsite
      · exact hfound site hsite
      · obtain ⟨a, ha, hnames⟩ := hfound' site hsite
        obtain ⟨i, hi, heq⟩ := (Forest.mem_stripping h.plain [id]).mp ha
        refine ⟨a, ?_, hnames⟩
        split at heq
        · cases i with
          | alloc b =>
            cases heq
            cases hnames.2.2.1
          | _ => cases heq
        · rw [← heq] at hi
          exact hi

end Kernel
end SlotRotation
