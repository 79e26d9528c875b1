import SlotRotation.Proofs.Nesting
import SlotRotation.Proofs.Opening

/-! What is known of an expansion that nothing speaks against. -/

namespace SlotRotation

theorem slotsAsked_pos {factor : Int64} {slots : Nat} (h : slotsAsked factor = .ok slots) : 0 < slots := by
  unfold slotsAsked at h
  split at h
  · cases h
  · rename_i hlt
    cases h
    rw [Int64.lt_iff_toInt_lt] at hlt
    have hone : (1 : Int64).toInt = 1 := rfl
    rw [hone] at hlt
    rw [Int64.toNatClampNeg]
    omega

theorem slotsAsked_le {factor : Int64} {slots : Nat} (h : slotsAsked factor = .ok slots) :
    slots ≤ Int64.maxValue.toInt := by
  have hpos := slotsAsked_pos h
  unfold slotsAsked at h
  split at h
  · cases h
  · cases h
    have hle : factor.toInt ≤ Int64.maxValue.toInt := Int64.toInt_le factor
    rw [Int64.toNatClampNeg] at hpos ⊢
    omega

theorem except_bind_eq_ok {ε α β : Type} {x : Except ε α} {f : α → Except ε β} {b : β} (h : x >>= f = .ok b) :
    ∃ a, x = .ok a ∧ f a = .ok b := by
  cases x with
  | error e => cases h
  | ok a => exact ⟨a, rfl, h⟩

structure Expansion.Sound (e : Expansion) (site : Site) (F : Forest) : Prop where
  slots : 0 < e.slots
  bounded : e.slots ≤ Int64.maxValue.toInt
  alloc : ∃ a, (site.alloc, .alloc a) ∈ F.nodes ∧ a.result = site.buffer
  loop : ∃ l, (e.loop, .loop l) ∈ F.nodes
  outer : F.InScope site.alloc e.loop
  inner : ∀ use ∈ e.accesses, F.InScope e.loop use.user
  uses : ∀ use, use ∈ F.uses site.buffer ↔ use ∈ e.accesses ∨ use ∈ e.releases
  releases : ∀ use ∈ e.releases, (use.user, .dealloc site.buffer) ∈ F.nodes
  accesses : ∀ use ∈ e.accesses, (use.user, .dealloc site.buffer) ∉ F.nodes
  accesses_nodup : e.accesses.Nodup
  releases_nodup : (e.releases.map Use.user).Nodup

namespace Kernel

variable {k : Kernel} {F : Forest}

theorem Arranges.isRelease_iff (h : Arranges k F) {v : ValueId} {use : Use} (huse : use ∈ F.uses v) :
    k.isRelease use = true ↔ (use.user, .dealloc v) ∈ F.nodes ∧ use.operand = 0 := by
  obtain ⟨i, hi, hv⟩ := Forest.mem_uses.mp huse
  have hinstr : k.instr? use.user = some i := h.instr?_of_mem hi
  rw [isRelease, hinstr, Option.any_some]
  constructor
  · intro hd
    cases i with
    | dealloc buffer =>
      rw [Instr.operands, List.getElem?_singleton] at hv
      split at hv
      · rename_i hzero
        cases hv
        exact ⟨hi, hzero⟩
      · cases hv
    | _ => cases hd
  · rintro ⟨hd, -⟩
    rw [Forest.node_unique h.nodup hi hd]
    rfl

theorem Arranges.rotationLoop (h : Arranges k F) {alloc loop : OpId} {accesses : List Use}
    (hloop : k.rotationLoop? alloc accesses = some loop) (hids : ∀ use ∈ accesses, use.user ∈ F.ids)
    (halloc : alloc ∈ F.ids) :
    (∃ l, (loop, .loop l) ∈ F.nodes) ∧ ¬F.InScope loop alloc ∧ accesses ≠ [] ∧
      ∀ use ∈ accesses, F.InScope loop use.user := by
  obtain ⟨first, hfirst, hfind⟩ := Option.bind_eq_some_iff.mp hloop
  have hmem : first ∈ accesses := List.mem_of_mem_head? hfirst
  obtain ⟨c, hc⟩ := Option.isSome_iff_exists.mp (Forest.chain?_isSome.mpr (hids first hmem))
  have hmem' := List.mem_of_find?_eq_some hfind
  rw [h.loopsAround_eq hc, Forest.mem_chain?_iff h.nodup h.plain hc] at hmem'
  have hcond := List.find?_some hfind
  rw [Bool.and_eq_true, Bool.not_eq_true', List.all_eq_true] at hcond
  obtain ⟨l, hl⟩ := hmem'.2
  refine ⟨⟨l, hl⟩, fun hscope => ?_, List.ne_nil_of_mem hmem, fun use huse => ?_⟩
  · have hanc := (h.isAncestor_iff halloc).mpr ⟨hscope, l, hl⟩
    rw [hcond.1] at hanc
    cases hanc
  · exact ((h.isAncestor_iff (hids use huse)).mp (hcond.2 use huse)).1

theorem Stores.expansion_sound (h : Stores k F) {policy : Policy} {site : Site} (hreach : F.Reaches site.buffer)
    {factor : Int64} {e : Expansion} (he : site.expansion policy k factor = .ok e) : e.Sound site F := by
  have huses : (DefUse.ofKernel k).usesOf site.buffer = F.uses site.buffer := DefUse.usesOf_ofKernel h.toArranges _
  unfold Site.expansion at he
  rw [huses] at he
  obtain ⟨slots, hslots, he⟩ := except_bind_eq_ok he
  obtain ⟨_, -, he⟩ := except_bind_eq_ok he
  obtain ⟨_, halloc, he⟩ := except_bind_eq_ok he
  obtain ⟨loop, hloop, he⟩ := except_bind_eq_ok he
  obtain ⟨_, -, he⟩ := except_bind_eq_ok he
  cases he
  obtain ⟨a, ha, hres⟩ : ∃ a, (site.alloc, .alloc a) ∈ F.nodes ∧ a.result = site.buffer := by
    unfold Site.checkAlloc at halloc
    split at halloc
    · rename_i hany
      rw [Option.any_eq_true] at hany
      obtain ⟨a, ha, hres⟩ := hany
      exact ⟨a, h.alloc?_eq_some_iff.mp ha, by simpa using hres⟩
    · cases halloc
  have hfound : k.rotationLoop? site.alloc ((F.uses site.buffer).filter fun use => !k.isRelease use) =
      some loop := by
    unfold Site.chooseLoop at hloop
    split at hloop
    · rename_i hsome
      cases hloop
      exact hsome
    · cases hloop
  have hids : ∀ use ∈ (F.uses site.buffer).filter (fun use => !k.isRelease use), use.user ∈ F.ids := by
    intro use huse
    obtain ⟨i, hi, -⟩ := Forest.mem_uses.mp (List.mem_filter.mp huse).1
    exact Forest.mem_ids_of_mem_nodes hi
  obtain ⟨hl, hout, hne, hin⟩ := h.rotationLoop hfound hids (Forest.mem_ids_of_mem_nodes ha)
  refine ⟨slotsAsked_pos hslots, slotsAsked_le hslots, ⟨a, ha, hres⟩, hl, ?_, hin, fun use => ?_, fun use huse => ?_,
    fun use huse hd => ?_, (Forest.nodup_uses h.nodup _).filter _, ?_⟩
  · -- The definition of the buffer and the loop are both in scope at the first access: one is in scope of the other.
    obtain ⟨use, huse⟩ := List.exists_mem_of_ne_nil _ hne
    obtain ⟨i, hi, hv⟩ := Forest.mem_uses.mp (List.mem_filter.mp huse).1
    obtain ⟨d, hd, hdres, hscope⟩ := hreach _ hi (List.mem_of_getElem? hv)
    have hdef : d = (site.alloc, .alloc a) := h.result_unique hd ha hdres (congrArg some hres)
    rw [hdef] at hscope
    rcases hscope.linear h.nodup (hin use huse) with heq | hlt | hgt
    · obtain ⟨l, hl⟩ := hl
      have heq' : site.alloc = loop := heq
      rw [heq'] at ha
      cases Forest.node_unique h.nodup ha hl
    · exact hlt
    · exact absurd hgt hout
  · simp only [List.mem_filter, Bool.not_eq_true']
    cases k.isRelease use <;> simp
  · obtain ⟨hmem, hrel⟩ := List.mem_filter.mp huse
    exact ((h.isRelease_iff hmem).mp hrel).1
  · obtain ⟨hmem, hrel⟩ := List.mem_filter.mp huse
    have hrel' : k.isRelease use = true := by
      rw [isRelease, h.instr?_of_mem hd]
      rfl
    rw [hrel'] at hrel
    cases hrel
  · refine ((Forest.nodup_uses h.nodup site.buffer).filter k.isRelease).map_on fun use huse use' huse' heq => ?_
    obtain ⟨hmem, hrel⟩ := List.mem_filter.mp huse
    obtain ⟨hmem', hrel'⟩ := List.mem_filter.mp huse'
    have hzero := ((h.isRelease_iff hmem).mp hrel).2
    have hzero' := ((h.isRelease_iff hmem').mp hrel').2
    cases use
    cases use'
    simp_all

end Kernel
end SlotRotation
