import SlotRotation.Proofs.Footprint

/-! Barriers at the top of loop bodies. Nothing reads a barrier, so one can go without a change to scoping or to a
set. -/

namespace SlotRotation

namespace Forest

variable {F : Forest} {g : OpId}

theorem image_dropping_barrier (hF : F.ids.Nodup) (hg : (g, .barrier) ∈ F.nodes) {n : Node} (hn : n ∈ F.nodes)
    (hne : n.2 ≠ .barrier) : (Rewriting.dropping [g]).image n = [n] := by
  apply (Rewriting.local_dropping _).image_of_notMem
  intro hmem
  have hnode : (n.1, .barrier) ∈ F.nodes := by
    rw [List.mem_singleton.mp hmem]
    exact hg
  exact hne (node_unique hF hn hnode)

section

variable (hP : F.Plain) (hF : F.ids.Nodup) (hg : (g, .barrier) ∈ F.nodes)
include hP hF hg

theorem mem_dropping_of_ne_barrier {n : Node} (hn : n ∈ F.nodes) (hne : n.2 ≠ .barrier) :
    n ∈ (F.rewrite (.dropping [g])).nodes := by
  apply mem_rewrite_of_mem_image hP hn
  rw [image_dropping_barrier hF hg hn hne]
  exact List.mem_singleton_self _

theorem Scoped.dropping_barrier (hsc : F.Scoped) : (F.rewrite (.dropping [g])).Scoped := by
  apply scoped_rewrite hP hF
  intro n hn m hm v hv
  rw [eq_of_mem_image_dropping hm] at hv
  obtain ⟨d, hd, hres, hscope⟩ := hsc n hn v hv
  have hne : d.2 ≠ .barrier := by
    intro heq
    rw [heq] at hres
    cases hres
  refine Or.inl ⟨d, hd, hscope, d, ?_, hres⟩
  rw [image_dropping_barrier hF hg hd hne]
  exact List.mem_singleton_self _

theorem uses_dropping_barrier (v : ValueId) (use : Use) :
    use ∈ (F.rewrite (.dropping [g])).uses v ↔ use ∈ F.uses v := by
  rw [mem_uses, mem_uses]
  constructor
  · rintro ⟨i, hi, hop⟩
    exact ⟨i, mem_of_mem_dropping hP hi, hop⟩
  · rintro ⟨i, hi, hop⟩
    refine ⟨i, mem_dropping_of_ne_barrier hP hF hg hi ?_, hop⟩
    rintro rfl
    cases hop

end

theorem ControlFree.dropping (hP : F.Plain) {v : ValueId} (h : F.ControlFree v) (gone : List OpId) :
    (F.rewrite (.dropping gone)).ControlFree v := fun a l hl => h a l (mem_of_mem_dropping hP hl)

theorem Leads.dropping {a g' : OpId} (h : F.Leads a g') (hne : g' ≠ g) : (F.rewrite (.dropping [g])).Leads a g' := by
  have hleaf : (Rewriting.dropping [g]).leaf g' .barrier = [(g', .barrier)] := by
    rw [Rewriting.leaf_dropping, if_neg]
    simpa using hne
  exact h.rewrite (fun _ _ => rfl) hleaf

end Forest

theorem SlotSet.Fits.dropping_barrier {set : SlotSet} {F : Forest} {g : OpId} (h : set.Fits F) (hP : F.Plain)
    (hF : F.ids.Nodup) (hg : (g, .barrier) ∈ F.nodes) (hids : (F.rewrite (.dropping [g])).ids.Nodup) :
    set.Fits (F.rewrite (.dropping [g])) := by
  apply h.rewrite hP hF
  · intro n hn hx
    rw [Forest.image_dropping_barrier hF hg hn (h.no_barrier hF hn hx)]
    exact List.mem_singleton_self _
  · exact fun v _ use => Forest.uses_dropping_barrier hP hF hg v use
  · exact fun a l _ => ⟨rfl, rfl⟩
  · exact hids

namespace Kernel.Clears

variable {k k₀ : Kernel} {F F₀ : Forest} {policy : Policy} {set : SlotSet} {n : Nat}

theorem scoped_of_scoped (h : Clears policy set n k k₀ F F₀) (hS : Stores k F) (hsc : F.Scoped) : F₀.Scoped := by
  rcases h with ⟨-, rfl⟩ | ⟨g, -, hg, -, -, rfl, -, -⟩
  · exact hsc
  · exact hsc.dropping_barrier hS.plain hS.nodup hg

theorem fits (h : Clears policy set n k k₀ F F₀) (hS : Stores k F) {other : SlotSet} (ho : other.Fits F) :
    other.Fits F₀ := by
  rcases h with ⟨-, rfl⟩ | ⟨g, -, hg, -, -, rfl, hbecomes, -⟩
  · exact ho
  · exact ho.dropping_barrier hS.plain hS.nodup hg hbecomes.stores.nodup

theorem controlFree (h : Clears policy set n k k₀ F F₀) (hS : Stores k F) {v : ValueId} (hv : F.ControlFree v) :
    F₀.ControlFree v := by
  rcases h with ⟨-, rfl⟩ | ⟨g, -, -, -, -, rfl, -, -⟩
  · exact hv
  · exact hv.dropping hS.plain [g.op]

theorem mem_of_mem (h : Clears policy set n k k₀ F F₀) (hS : Stores k F) {m : Node} (hm : m ∈ F₀.nodes) :
    m ∈ F.nodes := by
  rcases h with ⟨-, rfl⟩ | ⟨g, -, -, -, -, rfl, -, -⟩
  · exact hm
  · exact Forest.mem_of_mem_dropping hS.plain hm

theorem size_eq (h : Clears policy set n k k₀ F F₀) : k₀.ops.size = k.ops.size := by
  rcases h with ⟨rfl, -⟩ | ⟨g, -, -, -, -, -, -, hsize⟩
  · rfl
  · exact hsize

theorem extends_of (h : Clears policy set n k k₀ F F₀) : Extends k k₀ := by
  rcases h with ⟨rfl, -⟩ | ⟨g, -, -, -, -, -, hbecomes, -⟩
  · exact Extends.refl _
  · exact hbecomes.toExtends

theorem needsGuard_eq (h : Clears policy set n k k₀ F F₀) (hS : Stores k F) (policy' : Policy) (ty : BufferType)
    (a : OpId) (m : Nat) : policy'.needsGuard k₀ ty a m = policy'.needsGuard k ty a m := by
  rcases h with ⟨rfl, -⟩ | ⟨g, -, -, -, -, -, hbecomes, -⟩
  · rfl
  · exact hbecomes.needsGuard_eq hS.toArranges policy' ty a m

end Kernel.Clears
end SlotRotation
