import Mathlib.Data.List.Dedup
import SlotRotation.Proofs.Goodness
import SlotRotation.Proofs.Locality

/-! Kernels side by side. Each kernel is a job, and the context takes the requests of the jobs in any order.
Requests made under different names commute, except for their places in the log; so whichever job makes the next
request, running the jobs one after the other from there on ends the same, and that is what every interleaving ends
with. -/

namespace SlotRotation

theorem distinctCount_eq (names : List String) : distinctCount names = names.dedup.length := by
  induction names with
  | nil => rfl
  | cons name names ih =>
    by_cases hmem : name ∈ names
    · rw [distinctCount, if_pos hmem, ih, List.dedup_cons_of_mem hmem]
    · rw [distinctCount, if_neg hmem, ih, List.dedup_cons_of_notMem hmem, List.length_cons]

namespace Log

variable {log log' : Log}

theorem events_push (log : Log) (event : Event) : (log.push event).events = log.events ++ [event] :=
  Array.toList_push

theorem count_congr (h : log.events.Perm log'.events) (kind : EventKind) : log.count kind = log'.count kind :=
  h.countP_eq _

theorem has_congr (h : log.events.Perm log'.events) (kind : EventKind) : log.has kind = log'.has kind :=
  h.any_eq

theorem size_congr (h : log.events.Perm log'.events) : log.size = log'.size := h.length_eq

theorem isEmpty_congr (h : log.events.Perm log'.events) : log.isEmpty = log'.isEmpty := by
  have hsize := size_congr h
  rw [isEmpty, isEmpty, Array.isEmpty, Array.isEmpty]
  exact congrArg (fun n => decide (n = 0)) hsize

theorem kernelsAffected_congr (h : log.events.Perm log'.events) : log.kernelsAffected = log'.kernelsAffected := by
  rw [kernelsAffected, kernelsAffected, distinctCount_eq, distinctCount_eq]
  exact (((h.filter _).filterMap _).dedup).length_eq

theorem counts_congr (h : log.events.Perm log'.events) : log.counts = log'.counts := by
  have hhas : log.has = log'.has := funext (has_congr h)
  have hcount : log.count = log'.count := funext (count_congr h)
  rw [counts, counts, hhas, hcount]

theorem summary_congr (h : log.events.Perm log'.events) : log.summary = log'.summary := by
  rw [summary, summary, isEmpty_congr h, counts_congr h, size_congr h]

theorem stats_congr (h : log.events.Perm log'.events) : Stats.ofLog log = Stats.ofLog log' := by
  have hcount : log.count = log'.count := funext (count_congr h)
  rw [Stats.ofLog, Stats.ofLog, kernelsAffected_congr h, hcount]

end Log

namespace Context

variable {c c' c'' : Context} {name other : String} {f : Context → Context}

/-- The contexts hold the same failures and the same processed kernels, and their logs are the same to each
kernel. -/
structure Agrees (c c' : Context) : Prop where
  failure (name : String) : c.failure? name = c'.failure? name
  done (name : String) : c.isDone name = c'.isDone name
  named (name : String) : c.log.ofNamed name = c'.log.ofNamed name
  events : c.log.events.Perm c'.log.events

theorem Agrees.refl (c : Context) : c.Agrees c := ⟨fun _ => rfl, fun _ => rfl, fun _ => rfl, .refl _⟩

theorem Agrees.trans (h : c.Agrees c') (h' : c'.Agrees c'') : c.Agrees c'' where
  failure name := (h.failure name).trans (h'.failure name)
  done name := (h.done name).trans (h'.done name)
  named name := (h.named name).trans (h'.named name)
  events := h.events.trans h'.events

theorem Agrees.symm (h : c.Agrees c') : c'.Agrees c where
  failure name := (h.failure name).symm
  done name := (h.done name).symm
  named name := (h.named name).symm
  events := h.events.symm

theorem Agrees.failures (h : c.Agrees c') : c.failures.toList = c'.failures.toList :=
  (Std.TreeMap.Equiv.of_forall_constGet?_eq h.failure).toList_eq

theorem Agrees.processed (h : c.Agrees c') : c.processed.toList = c'.processed.toList :=
  (Std.TreeSet.Equiv.of_forall_contains_eq h.done).toList_eq

theorem failure?_keepFailure (c : Context) (d : Diagnostic) (name : String) :
    (c.keepFailure d).failure? name =
      if d.kernel = name then (c.failure? name).or (some d) else c.failure? name := by
  have hinsert : (c.keepFailure d).failure? name =
      if compare d.kernel name = .eq ∧ d.kernel ∉ c.failures then some d else c.failures[name]? :=
    Std.TreeMap.getElem?_insertIfNew
  rw [hinsert, failure?]
  simp only [Std.LawfulEqCmp.compare_eq_iff_eq]
  by_cases hname : d.kernel = name
  · subst hname
    by_cases hmem : d.kernel ∈ c.failures <;> simp [hmem]
  · simp [hname]

theorem isDone_markDone (c : Context) (marked name : String) :
    (c.markDone marked).isDone name = (decide (marked = name) || c.isDone name) := by
  have hinsert : (c.markDone marked).isDone name = (compare marked name == .eq || c.processed.contains name) :=
    Std.TreeSet.contains_insert
  rw [hinsert, isDone]
  congr 1
  rw [Bool.eq_iff_iff, beq_iff_eq, decide_eq_true_iff, Std.LawfulEqCmp.compare_eq_iff_eq]

theorem ofNamed_record (c : Context) (event : Event) (name : String) :
    (c.record event).log.ofNamed name = c.log.ofNamed name ++ if event.kernel = some name then [event] else [] := by
  change ((c.log.push event).events.filter _) = _
  rw [Log.events_push, List.filter_append, List.filter_singleton, Log.ofNamed, Bool.cond_decide]

theorem Agrees.record (h : c.Agrees c') (event : Event) : (c.record event).Agrees (c'.record event) where
  failure := h.failure
  done := h.done
  named name := by rw [ofNamed_record, ofNamed_record, h.named]
  events := by
    change (c.log.push event).events.Perm (c'.log.push event).events
    rw [Log.events_push, Log.events_push]
    exact h.events.append_right [event]

theorem Agrees.keepFailure (h : c.Agrees c') (d : Diagnostic) : (c.keepFailure d).Agrees (c'.keepFailure d) where
  failure name := by rw [failure?_keepFailure, failure?_keepFailure, h.failure]
  done := h.done
  named := h.named
  events := h.events

theorem Agrees.markDone (h : c.Agrees c') (marked : String) : (c.markDone marked).Agrees (c'.markDone marked) where
  failure := h.failure
  done name := by rw [isDone_markDone, isDone_markDone, h.done]
  named := h.named
  events := h.events

/-- The change `f` of the context and what is done under `name` do not depend on each other. -/
structure Elsewhere (name : String) (f : Context → Context) : Prop where
  failure (c : Context) : (f c).failure? name = c.failure? name
  record (c : Context) (event : Event) (h : event.kernel = none ∨ event.kernel = some name) :
    ((f c).record event).Agrees (f (c.record event))
  keepFailure (c : Context) (d : Diagnostic) (h : d.kernel = name) :
    ((f c).keepFailure d).Agrees (f (c.keepFailure d))
  markDone (c : Context) (marked : String) : ((f c).markDone marked).Agrees (f (c.markDone marked))

theorem elsewhere_id (name : String) : Elsewhere name id where
  failure _ := rfl
  record c event _ := .refl (c.record event)
  keepFailure c d _ := .refl (c.keepFailure d)
  markDone c marked := .refl (c.markDone marked)

theorem elsewhere_record {event : Event} (h : event.kernel = none ∨ event.kernel = some other) (hne : other ≠ name) :
    Elsewhere name (·.record event) where
  failure _ := rfl
  record c event' h' := by
    refine ⟨fun _ => rfl, fun _ => rfl, fun asked => ?_, ?_⟩
    · -- no kernel owns both events
      simp only [ofNamed_record, List.append_assoc]
      congr 1
      split_ifs with hone htwo <;> first | rfl | skip
      have hother : some asked = some other := (h.resolve_left (by simp [hone])).symm.trans hone |>.symm
      have hname : some asked = some name := (h'.resolve_left (by simp [htwo])).symm.trans htwo |>.symm
      exact absurd (Option.some.inj (hother.symm.trans hname)) hne
    · change ((c.log.push event).push event').events.Perm ((c.log.push event').push event).events
      simp only [Log.events_push, List.append_assoc]
      exact (List.Perm.swap _ _ _).append_left _
  keepFailure c d _ := .refl _
  markDone c marked := .refl _

theorem elsewhere_keepFailure {d : Diagnostic} (hne : d.kernel ≠ name) : Elsewhere name (·.keepFailure d) where
  failure c := by rw [failure?_keepFailure, if_neg hne]
  record c event _ := .refl _
  keepFailure c d' h' := by
    refine ⟨fun asked => ?_, fun _ => rfl, fun _ => rfl, .refl _⟩
    simp only [failure?_keepFailure]
    split_ifs with hone htwo <;> first | rfl | skip
    exact absurd (htwo.trans (hone.symm.trans h')) hne
  markDone c marked := .refl _

theorem elsewhere_markDone (name marked : String) : Elsewhere name (·.markDone marked) where
  failure _ := rfl
  record c event _ := .refl _
  keepFailure c d _ := .refl _
  markDone c marked' := by
    refine ⟨fun _ => rfl, fun asked => ?_, fun _ => rfl, .refl _⟩
    simp only [isDone_markDone]
    exact Bool.or_left_comm ..

end Context

def Concur {α : Type} (r r' : α × Context) : Prop := r.1 = r'.1 ∧ r.2.Agrees r'.2

theorem Concur.trans {α : Type} {r r' r'' : α × Context} (h : Concur r r') (h' : Concur r' r'') : Concur r r'' :=
  ⟨h.1.trans h'.1, h.2.trans h'.2⟩

namespace Job

variable {α : Type}

def step? : Job α → Context → Option (Job α × Context)
  | done _, _ => none
  | record event next, c => some (next, c.record event)
  | fail diagnostic next, c => some (next, c.keepFailure diagnostic)
  | mark name next, c => some (next, c.markDone name)
  | look next, c => some (next c, c)

inductive Step : List (Job α) → Context → List (Job α) → Context → Prop where
  | head {job job' : Job α} {jobs : List (Job α)} {c c' : Context} (h : job.step? c = some (job', c')) :
    Step (job :: jobs) c (job' :: jobs) c'
  | tail {job : Job α} {jobs jobs' : List (Job α)} {c c' : Context} (h : Step jobs c jobs' c') :
    Step (job :: jobs) c (job :: jobs') c'

/-- The jobs make their requests in some order until all are done. -/
inductive Interleaved : List (Job α) → Context → List α → Context → Prop where
  | finished (results : List α) (c : Context) : Interleaved (results.map done) c results c
  | request {jobs jobs' : List (Job α)} {results : List α} {c c' c'' : Context} (h : Step jobs c jobs' c')
    (rest : Interleaved jobs' c' results c'') : Interleaved jobs c results c''

def runAll : List (Job α) → Context → List α × Context
  | [], c => ([], c)
  | job :: jobs, c => ((job.run c).1 :: (runAll jobs (job.run c).2).1, (runAll jobs (job.run c).2).2)

variable {name other : String} {post : α → Prop} {job job' : Job α} {jobs jobs' : List (Job α)} {names : List String}
  {results : List α} {c c' : Context} {f : Context → Context}

theorem runAll_done (results : List α) (c : Context) : runAll (results.map done) c = (results, c) := by
  induction results with
  | nil => rfl
  | cons result results ih => rw [List.map_cons, runAll, run, ih]

theorem Within.run_congr (hjob : job.Within name post) (h : c.Agrees c') : Concur (job.run c) (job.run c') := by
  induction job generalizing c c' with
  | done a => exact ⟨rfl, h⟩
  | record event next ih => exact ih hjob.2 (h.record event)
  | fail diagnostic next ih => exact ih hjob.2 (h.keepFailure diagnostic)
  | mark marked next ih => exact ih hjob (h.markDone marked)
  | look next ih =>
    rw [run, run, hjob.1 c c' (h.failure name)]
    exact ih c' (hjob.2 c') h

theorem runAll_congr (hjobs : List.Forall₂ (fun name job => job.Within name post) names jobs) (h : c.Agrees c') :
    Concur (runAll jobs c) (runAll jobs c') := by
  induction hjobs generalizing c c' with
  | nil => exact ⟨rfl, h⟩
  | cons hjob _ ih =>
    obtain ⟨hresult, hcontext⟩ := hjob.run_congr h
    obtain ⟨hresults, hcontext'⟩ := ih hcontext
    exact ⟨congrArg₂ List.cons hresult hresults, hcontext'⟩

theorem Within.failure?_run (h : job.Within name post) (hne : name ≠ other) (c : Context) :
    (job.run c).2.failure? other = c.failure? other := by
  induction job generalizing c with
  | done a => rfl
  | record event next ih => exact ih h.2 _
  | fail diagnostic next ih =>
    refine (ih h.2 _).trans ?_
    rw [Context.failure?_keepFailure, if_neg (h.1 ▸ hne)]
  | mark marked next ih => exact ih h _
  | look next ih => exact ih _ (h.2 _) c

/-- What is done elsewhere may as well be done after the job. -/
theorem Within.run_elsewhere (h : job.Within name post) (hf : Context.Elsewhere name f) (c : Context) :
    Concur (job.run (f c)) ((job.run c).1, f (job.run c).2) := by
  induction job generalizing c with
  | done a => exact ⟨rfl, .refl _⟩
  | record event next ih => exact (h.2.run_congr (hf.record c event h.1)).trans (ih h.2 _)
  | fail diagnostic next ih => exact (h.2.run_congr (hf.keepFailure c diagnostic h.1)).trans (ih h.2 _)
  | mark marked next ih =>
    have hnext : next.Within name post := h
    exact (hnext.run_congr (hf.markDone c marked)).trans (ih hnext _)
  | look next ih =>
    rw [run, run, h.1 (f c) c (hf.failure c)]
    exact ih c (h.2 c) c

/-- A request is a change that is elsewhere to the other kernels, and the job would make it wherever the failure of
its own kernel is the same. -/
theorem Within.step (h : job.Within name post) (hstep : job.step? c = some (job', c')) :
    ∃ f, c' = f c ∧ job'.Within name post ∧ (∀ other, other ≠ name → Context.Elsewhere other f) ∧
      ∀ c₁, c₁.failure? name = c.failure? name → job.run c₁ = job'.run (f c₁) := by
  cases job with
  | done a => cases hstep
  | record event next =>
    cases hstep
    exact ⟨(·.record event), rfl, h.2, fun _ hne => Context.elsewhere_record h.1 hne.symm, fun _ _ => rfl⟩
  | fail diagnostic next =>
    cases hstep
    refine ⟨(·.keepFailure diagnostic), rfl, h.2, fun _ hne => ?_, fun _ _ => rfl⟩
    exact Context.elsewhere_keepFailure (h.1 ▸ hne.symm)
  | mark marked next =>
    cases hstep
    exact ⟨(·.markDone marked), rfl, h, fun other _ => Context.elsewhere_markDone other marked, fun _ _ => rfl⟩
  | look next =>
    cases hstep
    refine ⟨id, rfl, h.2 _, fun other _ => Context.elsewhere_id other, fun c₁ hc₁ => ?_⟩
    rw [run, h.1 c₁ _ hc₁]
    rfl

abbrev Apart (names : List String) (jobs : List (Job α)) : Prop :=
  names.Nodup ∧ List.Forall₂ (fun name job => job.Within name fun _ => True) names jobs

/-- Whichever job makes the next request, running the jobs in order ends the same before and after it. -/
theorem Step.concur (h : Apart names jobs) (hstep : Step jobs c jobs' c') :
    Apart names jobs' ∧ ∃ name ∈ names, ∃ f, c' = f c ∧ (∀ other, other ≠ name → Context.Elsewhere other f) ∧
      ∀ c₁, c₁.failure? name = c.failure? name → Concur (runAll jobs c₁) (runAll jobs' (f c₁)) := by
  induction hstep generalizing names with
  | head hstep =>
    obtain ⟨hnodup, hwithin⟩ := h
    cases hwithin with
    | cons hjob hjobs =>
      obtain ⟨f, heq, hjob', helsewhere, hrun⟩ := hjob.step hstep
      refine ⟨⟨hnodup, .cons hjob' hjobs⟩, _, List.mem_cons_self, f, heq, helsewhere, fun c₁ hc₁ => ?_⟩
      rw [runAll, runAll, hrun c₁ hc₁]
      exact ⟨rfl, .refl _⟩
  | tail hstep ih =>
    obtain ⟨hnodup, hwithin⟩ := h
    cases hwithin with
    | cons hjob hjobs =>
      obtain ⟨hnotMem, hnodup'⟩ := List.nodup_cons.mp hnodup
      obtain ⟨⟨-, hjobs'⟩, name, hname, f, heq, helsewhere, hconcur⟩ := ih ⟨hnodup', hjobs⟩
      have hne := ne_of_mem_of_not_mem hname hnotMem
      refine ⟨⟨hnodup, .cons hjob hjobs'⟩, name, List.mem_cons_of_mem _ hname, f, heq, helsewhere, fun c₁ hc₁ => ?_⟩
      -- the request passes over the job at the head
      obtain ⟨hresult, hcontext⟩ := hjob.run_elsewhere (helsewhere _ hne.symm) c₁
      have hrest := (hconcur _ ((hjob.failure?_run hne.symm c₁).trans hc₁)).trans (runAll_congr hjobs' hcontext.symm)
      exact ⟨congrArg₂ List.cons hresult.symm hrest.1, hrest.2⟩

theorem Interleaved.concur (h : Apart names jobs) (hrun : Interleaved jobs c results c') :
    Concur (runAll jobs c) (results, c') := by
  induction hrun with
  | finished results c =>
    rw [runAll_done]
    exact ⟨rfl, .refl c⟩
  | request hstep rest ih =>
    obtain ⟨hapart, _, -, f, rfl, -, hconcur⟩ := hstep.concur h
    exact (hconcur _ rfl).trans (ih hapart)

theorem Step.middle (before after : List (Job α)) (h : job.step? c = some (job', c')) :
    Step (before ++ job :: after) c (before ++ job' :: after) c' := by
  induction before with
  | nil => exact .head h
  | cons first before ih => exact .tail ih

theorem Interleaved.of_run (before after : List (Job α))
    (h : Interleaved (before ++ done (job.run c).1 :: after) (job.run c).2 results c') :
    Interleaved (before ++ job :: after) c results c' := by
  induction job generalizing c with
  | done a => exact h
  | record event next ih => exact .request (.middle before after rfl) (ih h)
  | fail diagnostic next ih => exact .request (.middle before after rfl) (ih h)
  | mark marked next ih => exact .request (.middle before after rfl) (ih h)
  | look next ih => exact .request (.middle before after rfl) (ih _ h)

theorem interleaved_swapped (job job' : Job α) (c : Context) :
    Interleaved [job, job'] c [(job.run (job'.run c).2).1, (job'.run c).1] (job.run (job'.run c).2).2 := by
  refine .of_run [job] [] ?_
  exact .of_run [] [done (job'.run c).1] (.finished [(job.run (job'.run c).2).1, (job'.run c).1] _)

end Job

theorem Program.firstRepeated?_eq_none {seen names : List String} (h : firstRepeated? seen names = none) :
    names.Nodup ∧ ∀ name ∈ names, name ∉ seen := by
  induction names generalizing seen with
  | nil => exact ⟨List.nodup_nil, fun _ h => absurd h List.not_mem_nil⟩
  | cons name names ih =>
    rw [firstRepeated?] at h
    split at h
    · cases h
    · rename_i hfresh
      obtain ⟨hnodup, hseen⟩ := ih h
      refine ⟨List.nodup_cons.mpr ⟨fun hmem => hseen name hmem List.mem_cons_self, hnodup⟩, ?_⟩
      intro other hother
      rcases List.mem_cons.mp hother with rfl | hother
      · exact hfresh
      · exact fun hmem => hseen other hother (List.mem_cons_of_mem _ hmem)

namespace Pipeline

theorem runKernels_eq (p : Pipeline) (kernels : List Kernel) (c : Context) :
    p.runKernels kernels c = Job.runAll (kernels.map (runKernel p.options p.passes)) c := by
  induction kernels generalizing c with
  | nil => rfl
  | cons k kernels ih =>
    rw [List.map_cons, Job.runAll, ← ih]
    rfl

theorem apart_runKernel {p : Pipeline} {program : Program} (hnames : program.duplicate? = none)
    (hlocal : ∀ pass ∈ p.passes, pass.Local) :
    Job.Apart program.names (program.kernels.map (runKernel p.options p.passes)) := by
  refine ⟨(Program.firstRepeated?_eq_none hnames).1, ?_⟩
  rw [Program.names, List.forall₂_map_left_iff, List.forall₂_map_right_iff, List.forall₂_same]
  exact fun k _ => within_runKernel hlocal k

/-- Kernels of different names, under passes that keep to the kernel they are given, may be processed side by side:
in whatever order the context takes their requests, the run ends as if the kernels had been processed one after the
other. The multi-buffer pass is such a pass. -/
theorem interleaved_eq_runKernels :
    (∀ policy, (Pass.multibuffer policy).Local) ∧
      ∀ (p : Pipeline) (program : Program) (c c' : Context) (results : List (Kernel × KernelOutcome)),
        program.duplicate? = none → (∀ pass ∈ p.passes, pass.Local) →
        Job.Interleaved (program.kernels.map (runKernel p.options p.passes)) c results c' →
        results = (p.runKernels program.kernels c).1 ∧
          c'.failures.toList = (p.runKernels program.kernels c).2.failures.toList ∧
          c'.processed.toList = (p.runKernels program.kernels c).2.processed.toList ∧
          (∀ name, c'.log.ofNamed name = (p.runKernels program.kernels c).2.log.ofNamed name) ∧
          Stats.ofLog c'.log = Stats.ofLog (p.runKernels program.kernels c).2.log ∧
          c'.log.summary = (p.runKernels program.kernels c).2.log.summary := by
  refine ⟨Pass.local_multibuffer, fun p program c c' results hnames hlocal hrun => ?_⟩
  obtain ⟨hresults, hcontext⟩ := hrun.concur (apart_runKernel hnames hlocal)
  rw [← runKernels_eq] at hresults hcontext
  exact ⟨hresults.symm, hcontext.symm.failures, hcontext.symm.processed, hcontext.symm.named,
    Log.stats_congr hcontext.symm.events, Log.summary_congr hcontext.symm.events⟩

/-- Two kernels, of which the second is processed first. -/
theorem interleaved_eq_runKernels_tilePair :
    ∃ first second : Kernel, ∃ passes : List Pass, first = .build "first" .unknown Stmt.tilePair ∧
      second = .build "second" .unknown Stmt.tilePair ∧ passes = [Pass.multibuffer {}] ∧
      let run := (runKernel {} passes first).run ((runKernel {} passes second).run {}).2
      [run.1, ((runKernel {} passes second).run {}).1] = (runKernels { passes } [first, second] {}).1 := by
  obtain ⟨first, hfirst⟩ : ∃ first, first = Kernel.build "first" .unknown Stmt.tilePair := ⟨_, rfl⟩
  obtain ⟨second, hsecond⟩ : ∃ second, second = Kernel.build "second" .unknown Stmt.tilePair := ⟨_, rfl⟩
  obtain ⟨passes, hpasses⟩ : ∃ passes, passes = [Pass.multibuffer {}] := ⟨_, rfl⟩
  have hlocal : ∀ pass ∈ passes, pass.Local := by
    intro pass hpass
    rw [hpasses, List.mem_singleton] at hpass
    exact hpass ▸ Pass.local_multibuffer {}
  have hnames : Program.duplicate? ⟨[first, second]⟩ = none := by
    rw [hfirst, hsecond]
    decide +kernel
  have hrun := Job.interleaved_swapped (runKernel {} passes first) (runKernel {} passes second) {}
  exact ⟨first, second, passes, hfirst, hsecond, hpasses,
    (interleaved_eq_runKernels.2 { passes } ⟨[first, second]⟩ {} _ _ hnames hlocal hrun).1⟩

end Pipeline
end SlotRotation
