import SlotRotation.Pipeline.Pass
import SlotRotation.Proofs.Consumption
import SlotRotation.Proofs.Outcomes

/-! Directives are used once. The walk of a survey comes by every live op, so it takes all of them off, and nothing
that is done afterwards makes new ones. -/

namespace SlotRotation

namespace Instr

theorem any_hasDirective_eq_false_iff {i : Instr} : i.alloc?.any Alloc.hasDirective = false ↔ i.Bare := by
  unfold Bare
  cases i.alloc? <;> simp

theorem Bare.exchange {i i' : Instr} {n : Nat} {v old : ValueId} (h : i.exchange? n v = some (old, i'))
    (hi : i.Bare) : i'.Bare := by
  rw [exchange?_eq] at h
  obtain ⟨_, -, heq⟩ := Option.map_eq_some_iff.mp h
  cases heq
  rwa [Bare, alloc?_mapOperands]

theorem bare_stripped (i : Instr) : i.stripped.Bare := by
  cases i with
  | alloc a => exact bare_alloc rfl
  | _ => exact bare_of_alloc?_eq_none rfl

end Instr

namespace Kernel

variable {k k' : Kernel} {F : Forest} {s : Transform.State}

def Bare (k : Kernel) : Prop := ∀ x op, k.op? x = some op → op.instr.Bare

theorem hasDirective_eq_false_iff : Pass.hasDirective k = false ↔ k.Bare := by
  unfold Pass.hasDirective
  rw [List.any_eq_false]
  constructor
  · intro h x op hx
    exact Instr.any_hasDirective_eq_false_iff.mp (eq_false_of_ne_true (h (x, op) (mem_liveOps_iff.mpr hx)))
  · rintro h ⟨x, op⟩ hmem
    exact ne_true_of_eq_false (Instr.any_hasDirective_eq_false_iff.mpr (h x op (mem_liveOps_iff.mp hmem)))

theorem Bare.descends (h : k.Bare) (hk : Descends Instr.Bare k k') : k'.Bare := by
  intro x op' hx
  rcases hk.origin x op' hx with ⟨-, hnew⟩ | ⟨op, hop, hkept⟩
  · exact hnew
  · exact hkept (h x op hop)

theorem lasts_bare : Lasts (Descends Instr.Bare) :=
  lasts_descends (fun _ h => h) fun _ _ _ _ _ => Instr.Bare.exchange

theorem Stores.bare_survey (h : Stores s.kernel F) : (Transform.survey s).2.kernel.Bare := by
  obtain ⟨hbecomes, -, -⟩ := h.surveyOps s.kernel.preorder
  intro x op hx
  have hinstr : (Transform.survey s).2.kernel.instr? x = some op.instr := by rw [instr?, hx]; rfl
  obtain ⟨i, hi, heq⟩ := (Forest.mem_stripping h.plain _).mp (hbecomes.stores.mem_nodes_iff.mpr hinstr)
  change op.instr = _ at heq
  -- a live op is on the walk
  have hwalk : x ∈ s.kernel.preorder := h.preorder_eq ▸ Forest.mem_ids_of_mem_nodes hi
  rw [heq]
  show (if x ∈ s.kernel.preorder then i.stripped else i).Bare
  rw [if_pos hwalk]
  exact i.bare_stripped

end Kernel

/-- The survey lists every allocation with a slot directive as a site and every one with a resize directive only as
an orphan, each of them once and in the order of the walk. -/
structure Survey.Lists (found : Survey) (k : Kernel) : Prop where
  sites : ∀ site, site ∈ found.sites ↔ ∃ a, k.alloc? site.alloc = some a ∧ site.Names a
  orphans : ∀ x, x ∈ found.orphans ↔ ∃ a, k.alloc? x = some a ∧ a.multibuffer = none ∧ a.remultibuffer.isSome
  sites_order : (found.sites.map Site.alloc).Sublist k.preorder
  orphans_order : found.orphans.Sublist k.preorder
  once : k.preorder.Nodup

theorem Alloc.site?_eq_some_iff {a : Alloc} {id : OpId} {site : Site} :
    a.site? id = some site ↔ site.alloc = id ∧ site.Names a := by
  constructor
  · intro h
    obtain ⟨factor, hfactor, rfl⟩ := Option.map_eq_some_iff.mp h
    exact ⟨rfl, rfl, rfl, hfactor, rfl⟩
  · rintro ⟨rfl, hbuffer, hty, hfactor, hresize⟩
    rw [site?, hfactor, Option.map_some, ← hbuffer, ← hty, hresize]

namespace Kernel

variable {k : Kernel} {F : Forest} {s : Transform.State}

theorem Stores.mem_preorder_of_alloc? (h : Stores k F) {x : OpId} {a : Alloc} (ha : k.alloc? x = some a) :
    x ∈ k.preorder := by
  rw [h.preorder_eq]
  exact Forest.mem_ids_of_mem_nodes (h.alloc?_eq_some_iff.mp ha)

theorem Stores.mem_sites_iff (h : Stores k F) {site : Site} :
    site ∈ k.sites ↔ ∃ a, k.alloc? site.alloc = some a ∧ site.Names a := by
  unfold Kernel.sites
  rw [List.mem_filterMap]
  constructor
  · rintro ⟨id, -, hsite⟩
    obtain ⟨a, ha, hsite⟩ := Option.bind_eq_some_iff.mp hsite
    obtain ⟨rfl, hnames⟩ := Alloc.site?_eq_some_iff.mp hsite
    exact ⟨a, ha, hnames⟩
  · rintro ⟨a, ha, hnames⟩
    refine ⟨site.alloc, h.mem_preorder_of_alloc? ha, ?_⟩
    rw [ha]
    exact Alloc.site?_eq_some_iff.mpr ⟨rfl, hnames⟩

theorem Stores.mem_orphans_iff (h : Stores k F) {x : OpId} :
    x ∈ k.orphans ↔ ∃ a, k.alloc? x = some a ∧ a.multibuffer = none ∧ a.remultibuffer.isSome := by
  unfold Kernel.orphans
  rw [List.mem_filter]
  constructor
  · rintro ⟨-, hany⟩
    cases ha : k.alloc? x with
    | none => rw [ha] at hany; cases hany
    | some a =>
      rw [ha] at hany
      exact ⟨a, rfl, by simpa [Alloc.isOrphan] using hany⟩
  · rintro ⟨a, ha, horphan⟩
    refine ⟨h.mem_preorder_of_alloc? ha, ?_⟩
    rw [ha]
    simpa [Alloc.isOrphan] using horphan

theorem Stores.survey_lists (h : Stores s.kernel F) : (Transform.survey s).1.Lists s.kernel := by
  obtain ⟨hsites, horphans⟩ := h.survey_found
  refine ⟨?_, ?_, ?_, ?_, h.preorder_eq ▸ h.nodup⟩
  · rw [hsites]
    exact fun _ => h.mem_sites_iff
  · rw [horphans]
    exact fun _ => h.mem_orphans_iff
  · rw [hsites]
    exact s.kernel.sites_sublist
  · rw [horphans]
    exact List.filter_sublist

end Kernel

namespace Transform

open Kernel

variable {s : State} {F : Forest} {policy : Policy}

theorem surveyOp_of_bare (h : s.kernel.Bare) (id : OpId) : surveyOp id s = ({}, s) := by
  unfold surveyOp
  cases ha : s.kernel.alloc? id with
  | none => rfl
  | some a =>
    obtain ⟨i, hi, ha⟩ := Option.bind_eq_some_iff.mp ha
    obtain ⟨op, hop, rfl⟩ := Option.map_eq_some_iff.mp hi
    have hnone : a.multibuffer = none ∧ a.remultibuffer = none := by
      simpa [Alloc.hasDirective] using h id op hop a ha
    simp only [hnone.1, hnone.2]

theorem survey_of_bare (h : s.kernel.Bare) : survey s = ({}, s) := by
  unfold survey
  induction s.kernel.preorder with
  | nil => rfl
  | cons id ids ih =>
    simp only [surveyOps, surveyOp_of_bare h, ih]
    rfl

theorem multibuffer_of_bare (h : s.kernel.Bare) (policy : Policy) :
    ∃ report, multibuffer policy s = (report, s) ∧ report.phase = .done ∧ report.outcomes = [] ∧
      report.orphans = [] := by
  obtain ⟨outcomes, s₁, outcomes', s₂, history, hexpand, hresize, heq⟩ := exists_run policy s
  rw [survey_of_bare h] at hexpand heq
  cases hexpand
  cases hresize
  refine ⟨_, heq, ?_, rfl, rfl⟩
  simp [conclude]

theorem length_expandSites (policy : Policy) (sites : List Site) (s : State) :
    (expandSites policy sites s).1.length = sites.length := by
  induction sites generalizing s with
  | nil => rfl
  | cons site sites ih => exact congrArg (· + 1) (ih _)

theorem length_resizeOutcomes (policy : Policy) (outcomes : List SiteResult) (s : State) :
    (resizeOutcomes policy outcomes s).1.length = outcomes.length := by
  induction outcomes generalizing s with
  | nil => rfl
  | cons o outcomes ih => exact congrArg (· + 1) (ih _)

theorem length_outcomes (policy : Policy) (s : State) :
    (multibuffer policy s).1.outcomes.length = (survey s).1.sites.length := by
  obtain ⟨outcomes, s₁, outcomes', s₂, history, hexpand, hresize, heq⟩ := exists_run policy s
  have hexpanded := length_expandSites policy (survey s).1.sites (survey s).2
  have hresized := length_resizeOutcomes policy outcomes s₁
  rw [hexpand] at hexpanded
  rw [hresize] at hresized
  rw [heq]
  exact hresized.trans hexpanded

theorem orphans_multibuffer (policy : Policy) (s : State) :
    (multibuffer policy s).1.orphans = (survey s).1.orphans := by
  obtain ⟨outcomes, s₁, outcomes', s₂, history, -, -, heq⟩ := exists_run policy s
  rw [heq]
  rfl

theorem bare_of_not_changed (hF : Stores s.kernel F) (h : (multibuffer policy s).1.changed = false) :
    s.kernel.Bare := by
  have hfound := hF.survey_lists
  have hempty : (survey s).1.sites = [] ∧ (survey s).1.orphans = [] := by
    rw [← orphans_multibuffer policy s, ← List.length_eq_zero_iff, ← length_outcomes policy s,
      List.length_eq_zero_iff]
    simpa [Report.changed] using h
  intro x op hx a ha
  have halloc : s.kernel.alloc? x = some a := by
    rw [alloc?, instr?, hx]
    exact ha
  cases hmulti : a.multibuffer with
  | some factor =>
    have hsite : (⟨x, a.result, a.ty, factor, a.remultibuffer⟩ : Site) ∈ (survey s).1.sites :=
      (hfound.sites _).mpr ⟨a, halloc, rfl, rfl, hmulti, rfl⟩
    rw [hempty.1] at hsite
    cases hsite
  | none =>
    cases hre : a.remultibuffer with
    | some resize =>
      have horphan : x ∈ (survey s).1.orphans := (hfound.orphans x).mpr ⟨a, halloc, hmulti, by rw [hre]; rfl⟩
      rw [hempty.2] at horphan
      cases horphan
    | none => simp [Alloc.hasDirective, hmulti, hre]

theorem changed_iff (hF : Stores s.kernel F) : (multibuffer policy s).1.changed = true ↔ ¬s.kernel.Bare := by
  constructor
  · intro h hbare
    obtain ⟨report, heq, -, houtcomes, horphans⟩ := multibuffer_of_bare hbare policy
    rw [heq, Report.changed, houtcomes, horphans] at h
    cases h
  · intro h
    by_contra hchanged
    exact h (bare_of_not_changed hF (eq_false_of_ne_true hchanged))

theorem bare_multibuffer (hF : Stores s.kernel F) (policy : Policy) : (multibuffer policy s).2.kernel.Bare :=
  hF.bare_survey.descends ((Lasts.ofKernel lasts_bare).multibuffer_of_survey policy s)

end Transform

open Transform Kernel in
/-- A run changes a kernel, and says so, exactly if the kernel has a directive. It leaves none, whatever became of
the sites, so a second run finds nothing to do; and the survey lists what has a directive. -/
theorem Pass.directives_used_once (name : String) (location : Location) (stmts : List Stmt) (policy policy' : Policy)
    (log log' : Log) :
    let k := build name location stmts
    let run := multibufferRun policy k log
    ((Pass.multibuffer policy).wants k = pure true ↔ run.1.changed = true) ∧
      (run.1.changed = true ↔ run.2.kernel ≠ k) ∧
      (∀ a ∈ run.2.kernel.allocs, a.multibuffer = none ∧ a.remultibuffer = none) ∧
      (Pass.multibuffer policy').wants run.2.kernel = pure false ∧
      (∃ report, multibufferRun policy' run.2.kernel log' =
          (report, { kernel := run.2.kernel, log := log', pass := multibufferName }) ∧
        report.phase = .done ∧ report.outcomes = [] ∧ report.orphans = []) ∧
      (survey { kernel := k, log, pass := multibufferName }).1.Lists k := by
  intro k run
  obtain ⟨F, hF⟩ := build_stores name location stmts
  let start : State := { kernel := k, log, pass := multibufferName }
  have hchanged : run.1.changed = true ↔ ¬k.Bare := changed_iff (s := start) hF
  have hbare : run.2.kernel.Bare := bare_multibuffer (s := start) hF policy
  have hnone : Pass.hasDirective run.2.kernel = false := hasDirective_eq_false_iff.mpr hbare
  refine ⟨?_, ?_, ?_, congrArg pure hnone, ?_, Stores.survey_lists (s := start) hF⟩
  · rw [hchanged, ← hasDirective_eq_false_iff, Bool.not_eq_false]
    exact Job.done.injEq (Pass.hasDirective k) true ▸ Iff.rfl
  · rw [hchanged]
    constructor
    · -- what is left has no directive, so it is not the kernel that had one
      intro h heq
      exact h (heq ▸ hbare)
    · intro h hk
      obtain ⟨report, heq, -⟩ := multibuffer_of_bare (s := start) hk policy
      exact h (congrArg (fun result => result.2.kernel) heq)
  · intro a ha
    obtain ⟨⟨x, op⟩, hx, ha⟩ := List.mem_filterMap.mp ha
    simpa [Alloc.hasDirective] using hbare x op (mem_liveOps_iff.mp hx) a ha
  · exact multibuffer_of_bare (s := { kernel := run.2.kernel, log := log', pass := multibufferName }) hbare policy'

end SlotRotation
