import Mathlib.Data.List.DropRight
import Mathlib.Data.List.Infix
import SlotRotation.Proofs.Overwriting

/-! The visits of a run by the iterations of a loop, and what the first access to a buffer in an iteration has to
do. -/

namespace SlotRotation

def Visit.starts (loop : OpId) : Visit → Bool
  | .iteration id _ => id == loop
  | _ => false

/-- The visits from the beginning of each iteration of a loop to the next one. -/
def iterations (loop : OpId) (visits : List Visit) : List (List Visit) :=
  visits.tails.filterMap fun
    | [] => none
    | visit :: rest => if visit.starts loop then some (rest.takeWhile fun v => !v.starts loop) else none

def Kernel.OverwritesFirst (k : Kernel) (buffer : ValueId) (loop : OpId) (visits : List Visit) : Prop :=
  ∀ iteration ∈ iterations loop visits, ∀ use ∈ k.firstAccess? buffer iteration, k.overwrites use = true

instance (k : Kernel) (buffer : ValueId) (loop : OpId) (visits : List Visit) :
    Decidable (k.OverwritesFirst buffer loop visits) :=
  inferInstanceAs (Decidable (∀ iteration ∈ _, _))

def currentIteration (loop : OpId) (visits : List Visit) : List Visit := visits.rtakeWhile fun v => !v.starts loop

section

variable {loop : OpId} {visits : List Visit} {visit : Visit}

theorem currentIteration_concat (h : visit.starts loop = false) :
    currentIteration loop (visits ++ [visit]) = currentIteration loop visits ++ [visit] :=
  List.rtakeWhile_concat_pos _ _ _ (by simp [h])

theorem currentIteration_starting (h : visit.starts loop = true) : currentIteration loop (visits ++ [visit]) = [] :=
  List.rtakeWhile_concat_neg _ _ _ (by simp [h])

/-- A run that has begun an iteration is in one of the iterations of all that is visited in the end. -/
theorem exists_iteration (rest : List Visit) (hvisits : ∃ v ∈ visits, v.starts loop = true) :
    currentIteration loop visits ++ rest.takeWhile (fun v => !v.starts loop) ∈ iterations loop (visits ++ rest) := by
  induction visits using List.reverseRecOn generalizing rest with
  | nil => simp at hvisits
  | append_singleton visits visit ih =>
    by_cases hstarts : visit.starts loop = true
    · rw [currentIteration_starting hstarts, List.nil_append, List.append_assoc]
      refine List.mem_filterMap.mpr ⟨visit :: rest, ?_, ?_⟩
      · rw [List.mem_tails]
        exact List.suffix_append _ _
      · simp [hstarts]
    · rw [Bool.not_eq_true] at hstarts
      obtain ⟨v, hv, hv'⟩ := hvisits
      have hearlier : v ∈ visits := by
        refine (List.mem_append.mp hv).resolve_right fun hlast => ?_
        rw [List.mem_singleton.mp hlast, hstarts] at hv'
        cases hv'
      have hin := ih (visit :: rest) ⟨v, hearlier, hv'⟩
      rw [currentIteration_concat hstarts, List.append_assoc, List.append_assoc]
      rw [List.takeWhile_cons, hstarts] at hin
      exact hin

end

namespace Kernel

variable {k : Kernel} {F : Forest} {buffer : ValueId} {loop : OpId}

def accessesSince (k : Kernel) (buffer : ValueId) (loop : OpId) (visits : List Visit) : List Use :=
  (currentIteration loop visits).flatMap (Visit.reads (k.accessesIn buffer))

theorem accessesSince_concat {visits : List Visit} {visit : Visit} (h : visit.starts loop = false) :
    k.accessesSince buffer loop (visits ++ [visit]) =
      k.accessesSince buffer loop visits ++ visit.reads (k.accessesIn buffer) := by
  simp [accessesSince, currentIteration_concat h]

theorem accessesSince_starting {visits : List Visit} {visit : Visit} (h : visit.starts loop = true) :
    k.accessesSince buffer loop (visits ++ [visit]) = [] := by
  simp [accessesSince, currentIteration_starting h]

theorem OverwritesFirst.head {visits rest : List Visit} {visit : Visit}
    (h : k.OverwritesFirst buffer loop (visits ++ visit :: rest)) (hvisits : ∃ v ∈ visits, v.starts loop = true)
    (hvisit : visit.starts loop = false) (hnone : k.accessesSince buffer loop visits = []) {use : Use}
    (huse : (visit.reads (k.accessesIn buffer)).head? = some use) : k.overwrites use = true := by
  refine h _ (exists_iteration _ hvisits) use ?_
  unfold accessesSince at hnone
  rw [firstAccess?, List.flatMap_append, hnone, List.nil_append, List.takeWhile_cons, hvisit]
  exact Semantics.head?_append_eq.mpr (Or.inl huse)

theorem Arranges.accessesIn_eq (h : Arranges k F) {id : OpId} {i : Instr} (hn : (id, i) ∈ F.nodes) :
    k.accessesIn buffer id = if i.isDealloc then [] else Forest.usesIn buffer (id, i) := by
  obtain ⟨r, hr⟩ := h.placed.op? hn
  have hinstr : k.instr? id = some i := h.instr?_of_mem hn
  have hreads : k.accessesIn buffer id = (Forest.usesIn buffer (id, i)).filter fun use => !k.isRelease use := by
    rw [accessesIn, hr]
    rfl
  have hrelease : ∀ use ∈ Forest.usesIn buffer (id, i), k.isRelease use = i.isDealloc := by
    intro use huse
    rw [isRelease, (Forest.mem_usesIn.mp huse).1, hinstr, Option.any_some]
  rw [hreads]
  split
  · rename_i hd
    refine List.filter_eq_nil_iff.mpr fun use huse => ?_
    simp [hrelease use huse, hd]
  · rename_i hd
    refine List.filter_eq_self.mpr fun use huse => ?_
    simp [hrelease use huse, hd]

theorem Arranges.accessesIn_eq_nil_iff (h : Arranges k F) {id : OpId} {i : Instr} (hn : (id, i) ∈ F.nodes) :
    k.accessesIn buffer id = [] ↔ i.isDealloc = true ∨ buffer ∉ i.operands := by
  rw [h.accessesIn_eq hn]
  split
  · rename_i hd
    simp [hd]
  · rename_i hd
    rw [List.eq_nil_iff_forall_not_mem]
    constructor
    · refine fun hnone => Or.inr fun hmem => ?_
      obtain ⟨n, hn⟩ := List.mem_iff_getElem?.mp hmem
      exact hnone ⟨id, n⟩ (Forest.mem_usesIn.mpr ⟨rfl, hn⟩)
    · intro hnone use huse
      exact hnone.elim hd fun hmem => hmem (List.mem_of_getElem? (Forest.mem_usesIn.mp huse).2)

/-- Only fills and copies overwrite a buffer, and a copy only if it does not read it. -/
theorem Arranges.overwrites_cases (h : Arranges k F) {id : OpId} {i : Instr} (hn : (id, i) ∈ F.nodes) {use : Use}
    (huse : (k.accessesIn buffer id).head? = some use) (hover : k.overwrites use = true) :
    (∃ v w, i = .fill v w) ∨ ∃ v w, i = .copy v w ∧ v ≠ buffer := by
  have hinstr : k.instr? id = some i := h.instr?_of_mem hn
  rw [overwrites, user_of_mem_accessesIn (List.mem_of_mem_head? huse), hinstr, Option.any_some] at hover
  cases i with
  | fill v w => exact Or.inl ⟨v, w, rfl⟩
  | copy v w =>
    refine Or.inr ⟨v, w, rfl, ?_⟩
    rintro rfl
    rw [h.accessesIn_eq hn] at huse
    obtain rfl : ⟨id, 0⟩ = use := by simpa [Instr.isDealloc, Forest.usesIn, Instr.operands] using huse
    cases hover
  | _ => cases hover

end Kernel
end SlotRotation
