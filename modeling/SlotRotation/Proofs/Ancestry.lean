import SlotRotation.Proofs.LoopChoice

/-! Nesting seen from both sides. Upwards the owners of regions are followed from an op, downwards the region lists
are walked from a loop, and the two give the same pairs. The ops around an op are loops, each in all that come after
it. -/

namespace SlotRotation.Kernel

variable {k : Kernel} {F : Forest} {a b : OpId}

/-- Looking up from an op and looking down at it agree. Neither look stops early: the climb comes to the kernel
itself, and the walk comes by all that is under a loop. -/
structure Nests (k : Kernel) : Prop where
  climbs : ∀ b, k.isLive b → k.Climbs body b (k.ancestors b)
  walks : ∀ a l, k.loop? a = some l → k.Walks (k.regionOps l.body) (k.descendants a)
  ancestor : ∀ a b, k.isAncestor a b ↔ b ∈ k.descendants a
  nodup : ∀ b, (k.loopsAround b).Nodup
  loops : ∀ a b, a ∈ k.loopsAround b ↔ (∃ l, k.loop? a = some l) ∧ b ∈ k.descendants a
  inward : ∀ b, (k.loopsAround b).Pairwise fun inner outer => inner ∈ k.descendants outer

theorem ancestors_of_dead (h : ¬k.isLive b) : k.ancestors b = [] := by
  have hparent : k.parent? b = none := by
    rw [isLive, Option.not_isSome_iff_eq_none] at h
    simp [parent?, h]
  rw [ancestors]
  cases k.regions.size with
  | zero => rfl
  | succ n => rw [ancestorsWithin, hparent]

namespace Arranges

variable (h : Arranges k F)
include h

theorem descendants_eq {l : Loop} {B : Forest} (hB : F.Holds a l B) : k.descendants a = B.ids := by
  have hinstr : k.instr? a = some (.loop l) := h.instr?_of_mem hB.mem_nodes
  rw [← h.preorderFrom_eq hB, descendants, nested?, hinstr]
  rfl

theorem mem_descendants_iff : b ∈ k.descendants a ↔ F.Encloses a b := by
  constructor
  · intro hb
    rw [descendants] at hb
    cases hnested : k.nested? a with
    | none => simp [hnested] at hb
    | some r =>
      obtain ⟨i, hi, hregion⟩ := Option.bind_eq_some_iff.mp hnested
      cases i with
      | loop l =>
        have hl : (a, .loop l) ∈ F.nodes := h.mem_nodes_iff.mpr hi
        obtain ⟨B, hB⟩ := Forest.exists_holds h.plain hl
        have hmem : b ∈ B.ids := by
          rw [← h.descendants_eq hB, descendants]
          exact hb
        exact ⟨(hB.inScope_iff h.nodup).mpr hmem, l, hl⟩
      | _ => cases hregion
  · rintro ⟨hscope, l, hl⟩
    obtain ⟨B, hB⟩ := Forest.exists_holds h.plain hl
    rw [h.descendants_eq hB]
    exact (hB.inScope_iff h.nodup).mp hscope

/-- The climb from an op meets the loops around it and nothing else, from the inside out. There is none from an op
that is not live. -/
theorem exists_chain (b : OpId) : ∃ c, k.ancestors b = c ∧ k.loopsAround b = c ∧ (∀ a, a ∈ c ↔ F.Encloses a b) ∧
    c.Pairwise fun inner outer => F.InScope outer inner := by
  by_cases hb : b ∈ F.ids
  · obtain ⟨c, hc⟩ := Option.isSome_iff_exists.mp (Forest.chain?_isSome.mpr hb)
    exact ⟨c, h.ancestors_eq hc, h.loopsAround_eq hc, fun a => Forest.mem_chain?_iff h.nodup h.plain hc,
      Forest.chain?_pairwise h.nodup h.plain hc⟩
  · have hnone : k.ancestors b = [] := ancestors_of_dead fun hlive => hb (h.isLive_iff.mp hlive)
    refine ⟨[], hnone, by rw [loopsAround, hnone]; rfl, fun a => ⟨nofun, fun hencloses => ?_⟩, .nil⟩
    exact absurd hencloses.1.right_mem hb

theorem nests (hhomed : k.Homed) : k.Nests where
  climbs := (h.linked hhomed).climbs
  walks a l hl := by
    obtain ⟨B, hB⟩ := Forest.exists_holds h.plain (h.loop?_eq_some_iff.mp hl)
    obtain ⟨hlist, -, hplaced⟩ := h.placed.holds hB
    rw [h.descendants_eq hB, hlist]
    exact hplaced.walks
  ancestor a b := by
    obtain ⟨c, hup, -, hmem, -⟩ := h.exists_chain b
    rw [isAncestor, decide_eq_true_iff, hup, hmem, h.mem_descendants_iff]
  nodup b := by
    obtain ⟨c, -, hloops, -, hpairs⟩ := h.exists_chain b
    rw [hloops]
    -- A loop that came twice would be in its own scope.
    refine hpairs.imp fun hscope heq => ?_
    rw [heq] at hscope
    exact Forest.InScope.irrefl h.nodup hscope
  loops a b := by
    obtain ⟨c, -, hloops, hmem, -⟩ := h.exists_chain b
    rw [hloops, hmem, h.mem_descendants_iff]
    refine ⟨fun hencloses => ⟨?_, hencloses⟩, And.right⟩
    obtain ⟨l, hl⟩ := hencloses.2
    exact ⟨l, h.loop?_eq_some_iff.mpr hl⟩
  inward b := by
    obtain ⟨c, -, hloops, hmem, hpairs⟩ := h.exists_chain b
    rw [hloops]
    refine hpairs.imp_of_mem fun _ houter hscope => h.mem_descendants_iff.mpr ⟨hscope, ?_⟩
    exact ((hmem _).mp houter).2

end Arranges

/-- Whatever is inserted, erased and rebound after a kernel was built, an op is around another one exactly if that
one is under it, and the loops around an op are listed once each and from the inside out. -/
theorem nests_of_edited {name : String} {location : Location} {stmts : List Stmt}
    (h : Relation.ReflTransGen Edited (build name location stmts) k) : k.Nests := by
  obtain ⟨⟨F, hF⟩, hhomed⟩ := exists_arranges h
  exact hF.nests hhomed

/-- Two loops, one in the other, after the erasure of an op that stood between them. -/
theorem nests_of_edited_nested :
    let start := build "nest" .unknown
      [.constant 0, .loop ⟨0⟩ ⟨0⟩ ⟨0⟩ none [.barrier, .loop ⟨0⟩ ⟨0⟩ ⟨0⟩ none [.barrier]]]
    ∃ k, Relation.ReflTransGen Edited start k ∧ k.preorder = [⟨0⟩, ⟨6⟩, ⟨4⟩, ⟨2⟩, ⟨3⟩, ⟨5⟩] ∧
      k.loopsAround ⟨2⟩ = [⟨4⟩, ⟨6⟩] ∧ k.Nests := by
  intro start
  have hop : start.op? ⟨1⟩ = some ⟨.barrier, ⟨1⟩⟩ := by decide +kernel
  have herase : Edited start (start.remove ⟨1⟩ ⟨.barrier, ⟨1⟩⟩) :=
    .erase (show Edit.erase ⟨1⟩ start = .ok () _ by simp only [Edit.erase, getOp, hop])
  exact ⟨_, .single herase, by decide +kernel, by decide +kernel, nests_of_edited (.single herase)⟩

end SlotRotation.Kernel
