import SlotRotation.Proofs.Refusals

/-! The loop that a buffer rotates in. Only the loops around one access are looked at, yet the choice is the
innermost loop around all accesses that leaves the allocation out. -/

namespace SlotRotation

theorem Forest.chain?_pairwise {F : Forest} (hF : F.ids.Nodup) (hP : F.Plain) {u : OpId} {c : List OpId}
    (h : F.chain? u = some c) : c.Pairwise fun a b => F.InScope b a := by
  induction F generalizing c with
  | nil => cases h
  | op id i rest ih =>
    rw [chain?] at h
    split at h
    · cases h
      exact .nil
    · apply (ih (nodup_op hF).2 hP.2 h).imp
      exact fun hscope => Or.inr hscope
  | loop id l body rest ihb ihr =>
    obtain ⟨-, -, hb, hr, -⟩ := nodup_loop hF
    rw [chain?] at h
    split at h
    · cases h
      exact .nil
    · rcases Option.or_eq_some_iff.mp h with h | ⟨-, h⟩
      · -- The chain within the body, and then the loop itself, which is around all of it.
        obtain ⟨inner, hinner, rfl⟩ := Option.map_eq_some_iff.mp h
        apply List.pairwise_append.mpr
        refine ⟨(ihb hb hP.1 hinner).imp fun hscope => Or.inr (Or.inl hscope), List.pairwise_singleton .., ?_⟩
        intro a ha b hid
        rw [List.mem_singleton.mp hid]
        have hencloses : body.Encloses a u := (mem_chain?_iff hb hP.1 hinner).mp ha
        exact Or.inl ⟨rfl, hencloses.1.left_mem⟩
      · apply (ihr hr hP.2 h).imp
        exact fun hscope => Or.inr (Or.inr hscope)

/-- A loop with a tile and two loops in it, one in the other, that fill the tile in the inner one and then read
it. -/
def Stmt.innerTile : List Stmt :=
  [.constant 0, .constant 8, .constant 1, .loop ⟨0⟩ ⟨1⟩ ⟨2⟩ none [.alloc .tile (some 2) none,
    .loop ⟨0⟩ ⟨1⟩ ⟨2⟩ none [.loop ⟨0⟩ ⟨1⟩ ⟨2⟩ none [.fill ⟨4⟩ ⟨0⟩], .load ⟨4⟩ [⟨0⟩]]]]

namespace Kernel

variable {k : Kernel} {F : Forest} {alloc loop other : OpId} {uses uses' : List Use}

theorem Spans.of_mem_iff (h : k.Spans alloc uses loop) (hmem : ∀ use, use ∈ uses' ↔ use ∈ uses) :
    k.Spans alloc uses' loop where
  inhabited := by
    obtain ⟨use, huse⟩ := List.exists_mem_of_ne_nil _ h.inhabited
    exact List.ne_nil_of_mem ((hmem use).mpr huse)
  around use huse := h.around use ((hmem use).mp huse)
  apart := h.apart

structure SpansFirst (k : Kernel) (alloc : OpId) (uses : List Use) (loop : OpId) : Prop
    extends Spans k alloc uses loop where
  innermost : ∀ other, k.Spans alloc uses other → other ≠ loop → k.Under other loop

theorem SpansFirst.of_mem_iff (h : k.SpansFirst alloc uses loop) (hmem : ∀ use, use ∈ uses' ↔ use ∈ uses) :
    k.SpansFirst alloc uses' loop where
  toSpans := h.toSpans.of_mem_iff hmem
  innermost other hother := h.innermost other (hother.of_mem_iff fun use => (hmem use).symm)

namespace Arranges

theorem under_iff_encloses (h : Arranges k F) {a x : OpId} (hx : x ∈ F.ids) : k.Under a x ↔ F.Encloses a x := by
  rw [h.under_iff hx, h.isAncestor_iff hx]

theorem not_under_of_under (h : Arranges k F) {a b : OpId} (ha : a ∈ F.ids) (hb : b ∈ F.ids) (hab : k.Under a b) :
    ¬k.Under b a := by
  intro hba
  obtain ⟨hab', -⟩ := (h.under_iff_encloses hb).mp hab
  obtain ⟨hba', -⟩ := (h.under_iff_encloses ha).mp hba
  exact Forest.InScope.irrefl h.nodup (hab'.trans h.nodup hba')

section

variable (h : Arranges k F) (halloc : alloc ∈ F.ids) (huses : ∀ use ∈ uses, use.user ∈ F.ids)
include h

theorem mem_of_spans (hspans : k.Spans alloc uses loop) : loop ∈ F.ids := by
  obtain ⟨use, huse⟩ := List.exists_mem_of_ne_nil _ hspans.inhabited
  obtain ⟨l, hl⟩ := (hspans.around use huse).exists_loop?
  exact Forest.mem_ids_of_mem_nodes (h.loop?_eq_some_iff.mp hl)

include halloc huses

theorem spans_iff_qualifies (hne : uses ≠ []) : k.Spans alloc uses loop ↔
    (!k.isAncestor loop alloc && uses.all fun use => k.isAncestor loop use.user) = true := by
  rw [Bool.and_eq_true, Bool.not_eq_true', List.all_eq_true]
  constructor
  · intro hspans
    refine ⟨Bool.eq_false_iff.mpr fun hanc => hspans.apart ((h.under_iff halloc).mpr hanc), fun use huse => ?_⟩
    exact (h.under_iff (huses use huse)).mp (hspans.around use huse)
  · rintro ⟨hapart, haround⟩
    refine ⟨hne, fun use huse => (h.under_iff (huses use huse)).mpr (haround use huse), fun hunder => ?_⟩
    rw [h.under_iff halloc, hapart] at hunder
    cases hunder

/-- The first loop from the inside out that passes the test is the innermost of all that would pass it: every one of
them is around the first use, so it comes later in the same chain. -/
theorem spansFirst_of_rotationLoop? (hloop : k.rotationLoop? alloc uses = some loop) :
    k.SpansFirst alloc uses loop := by
  obtain ⟨first, hfirst, hfind⟩ := Option.bind_eq_some_iff.mp hloop
  have hmem : first ∈ uses := List.mem_of_mem_head? hfirst
  have hne : uses ≠ [] := List.ne_nil_of_mem hmem
  obtain ⟨c, hc⟩ := Option.isSome_iff_exists.mp (Forest.chain?_isSome.mpr (huses first hmem))
  rw [h.loopsAround_eq hc] at hfind
  obtain ⟨hpasses, inner, outer, rfl, hinner⟩ := List.find?_eq_some_iff_append.mp hfind
  have hspans : k.Spans alloc uses loop := (h.spans_iff_qualifies halloc huses hne).mpr hpasses
  refine ⟨hspans, fun other hother hdiff => ?_⟩
  have hchain : other ∈ inner ++ loop :: outer := by
    rw [Forest.mem_chain?_iff h.nodup h.plain hc, ← h.under_iff_encloses (huses first hmem)]
    exact hother.around first hmem
  have houter : other ∈ outer := by
    rcases List.mem_append.mp hchain with hin | hin
    · have hfails := hinner other hin
      rw [(h.spans_iff_qualifies halloc huses hne).mp hother] at hfails
      cases hfails
    · exact (List.mem_cons.mp hin).resolve_left hdiff
  obtain ⟨-, hpairs, -⟩ := List.pairwise_append.mp (Forest.chain?_pairwise h.nodup h.plain hc)
  obtain ⟨-, hl⟩ := (h.under_iff_encloses (huses first hmem)).mp (hother.around first hmem)
  exact (h.under_iff_encloses (h.mem_of_spans hspans)).mpr ⟨(List.pairwise_cons.mp hpairs).1 other houter, hl⟩

theorem rotationLoop?_eq_some_iff : k.rotationLoop? alloc uses = some loop ↔ k.SpansFirst alloc uses loop := by
  refine ⟨h.spansFirst_of_rotationLoop? halloc huses, fun hfirst => ?_⟩
  obtain ⟨found, hfound⟩ := (h.exists_rotationLoop?_iff halloc huses).mpr ⟨loop, hfirst.toSpans⟩
  have hspans := h.spansFirst_of_rotationLoop? halloc huses hfound
  by_cases heq : loop = found
  · rw [hfound, heq]
  · -- Two innermost loops would each be under the other.
    have hup : k.Under loop found := hspans.innermost loop hfirst.toSpans heq
    have hdown : k.Under found loop := hfirst.innermost found hspans.toSpans (Ne.symm heq)
    exact absurd hdown (h.not_under_of_under (h.mem_of_spans hfirst.toSpans) (h.mem_of_spans hspans.toSpans) hup)

end

end Arranges

/-- In a built kernel the loop chosen for uses of an allocation is the innermost one that is around all of them and
not around the allocation. There is none only if no loop is like that, and the order of the uses does not matter. -/
theorem rotationLoop?_innermost (name : String) (location : Location) (stmts : List Stmt) {alloc : OpId} {a : Alloc}
    (halloc : (build name location stmts).alloc? alloc = some a) {uses : List Use}
    (huses : ∀ use ∈ uses, use ∈ (build name location stmts).accessesOf a.result) :
    let k := build name location stmts
    (∀ loop, k.rotationLoop? alloc uses = some loop ↔ k.SpansFirst alloc uses loop) ∧
      (k.rotationLoop? alloc uses = none ↔ ∀ loop, ¬k.Spans alloc uses loop) ∧
      ∀ uses', (∀ use, use ∈ uses' ↔ use ∈ uses) → k.rotationLoop? alloc uses' = k.rotationLoop? alloc uses := by
  intro k
  obtain ⟨F, hF⟩ := build_stores name location stmts
  have hmem : alloc ∈ F.ids := Forest.mem_ids_of_mem_nodes (hF.alloc?_eq_some_iff.mp halloc)
  have hids : ∀ use ∈ uses, use.user ∈ F.ids := by
    intro use huse
    have hread := (List.mem_filter.mp (huses use huse)).1
    rw [hF.usesOf_eq] at hread
    obtain ⟨i, hi, -⟩ := Forest.mem_uses.mp hread
    exact Forest.mem_ids_of_mem_nodes hi
  refine ⟨fun loop => hF.rotationLoop?_eq_some_iff hmem hids, ?_, fun uses' heq => ?_⟩
  · rw [← not_exists, ← hF.exists_rotationLoop?_iff hmem hids, not_exists]
    exact Option.eq_none_iff_forall_ne_some
  · have hids' : ∀ use ∈ uses', use.user ∈ F.ids := fun use huse => hids use ((heq use).mp huse)
    ext loop
    rw [hF.rotationLoop?_eq_some_iff hmem hids', hF.rotationLoop?_eq_some_iff hmem hids]
    exact ⟨fun hfirst => hfirst.of_mem_iff fun use => (heq use).symm, fun hfirst => hfirst.of_mem_iff heq⟩

/-- The two accesses stand at different depths. The outer one of the inner loops is chosen, from either of them. -/
theorem rotationLoop?_innermost_innerTile :
    ∃ (k : Kernel) (a : Alloc), k = build "nested" .unknown Stmt.innerTile ∧ k.alloc? ⟨3⟩ = some a ∧
      k.accessesOf a.result = [⟨⟨4⟩, 0⟩, ⟨⟨7⟩, 0⟩] ∧ k.SpansFirst ⟨3⟩ (k.accessesOf a.result) ⟨9⟩ ∧
      k.rotationLoop? ⟨3⟩ [⟨⟨7⟩, 0⟩, ⟨⟨4⟩, 0⟩] = k.rotationLoop? ⟨3⟩ (k.accessesOf a.result) := by
  have halloc : (build "nested" .unknown Stmt.innerTile).alloc? ⟨3⟩ =
      some { result := ⟨4⟩, ty := .tile, multibuffer := some 2 } := by
    decide +kernel
  have haccesses : (build "nested" .unknown Stmt.innerTile).accessesOf ⟨4⟩ = [⟨⟨4⟩, 0⟩, ⟨⟨7⟩, 0⟩] := by
    decide +kernel
  obtain ⟨hchosen, -, hsame⟩ := rotationLoop?_innermost "nested" .unknown Stmt.innerTile halloc fun _ huse => huse
  refine ⟨_, _, rfl, halloc, haccesses, (hchosen ⟨9⟩).mp (by decide +kernel), hsame _ fun use => ?_⟩
  rw [haccesses, List.mem_pair, List.mem_pair, or_comm]

end Kernel
end SlotRotation
