import Mathlib.Logic.Relation
import SlotRotation.Proofs.Interleaving

/-! The passes on one kernel. When its turn comes, a pass finds the kernel and the context as the pass before it has
left them; that is a visit, in which the pass runs or not. What is logged, counted, reported and answered for a
kernel is all in its visits. A failure that a context holds once, it holds for good. -/

namespace SlotRotation

def EventKind.frames : EventKind → Bool
  | passStarted | passCompleted | kernelStarted | kernelCompleted => true
  | _ => false

namespace Job

variable {α β : Type}

def logged : Job α → Context → List Event
  | done _, _ => []
  | record event next, c => event :: next.logged (c.record event)
  | fail diagnostic next, c => next.logged (c.keepFailure diagnostic)
  | mark name next, c => next.logged (c.markDone name)
  | look next, c => (next c).logged c

/-- The failures that the job reports, whether they are the first of their kernels or not. -/
def reported : Job α → Context → List Diagnostic
  | done _, _ => []
  | record event next, c => next.reported (c.record event)
  | fail diagnostic next, c => diagnostic :: next.reported (c.keepFailure diagnostic)
  | mark name next, c => next.reported (c.markDone name)
  | look next, c => (next c).reported c

theorem run_bind (job : Job α) (f : α → Job β) (c : Context) :
    (job >>= f).run c = (f (job.run c).1).run (job.run c).2 := by
  change (job.bind f).run c = _
  induction job generalizing c with
  | done a => rfl
  | record event next ih => exact ih _
  | fail diagnostic next ih => exact ih _
  | mark name next ih => exact ih _
  | look next ih => exact ih c c

theorem events_run (job : Job α) (c : Context) : (job.run c).2.log.events = c.log.events ++ job.logged c := by
  induction job generalizing c with
  | done a => exact (List.append_nil _).symm
  | record event next ih =>
    have hpush : (c.record event).log.events = c.log.events ++ [event] := Log.events_push c.log event
    rw [run, ih, hpush, logged, List.append_assoc, List.singleton_append]
  | fail diagnostic next ih => exact ih _
  | mark name next ih => exact ih _
  | look next ih => exact ih c c

/-- The failure of a kernel is the one it had, or else the first that is reported. -/
theorem failure?_run (job : Job α) (c : Context) (name : String) :
    (job.run c).2.failure? name = (c.failure? name).or ((job.reported c).find? (·.kernel = name)) := by
  induction job generalizing c with
  | done a => exact Option.or_none.symm
  | record event next ih => exact ih _
  | fail diagnostic next ih =>
    rw [run, ih, reported, List.find?_cons, Context.failure?_keepFailure]
    by_cases hname : diagnostic.kernel = name
    · rw [if_pos hname, decide_eq_true hname, Option.or_assoc, Option.some_or]
    · rw [if_neg hname, decide_eq_false hname]
  | mark marked next ih => exact ih _
  | look next ih => exact ih c c

theorem failure?_run_of_some (job : Job α) {c : Context} {name : String} {d : Diagnostic}
    (h : c.failure? name = some d) : (job.run c).2.failure? name = some d := by
  rw [failure?_run, h, Option.some_or]

end Job

namespace Pipeline

/-- A pass whose turn has come, with the kernel and the context that it finds. -/
structure Visit where
  pass : Pass
  kernel : Kernel
  context : Context

namespace Visit

variable (name : String) (v : Visit)

/-- The answer of the pass when it is asked whether it wants the kernel, and the context after that. -/
def asked : Bool × Context := (v.pass.wants v.kernel).run v.context

def runs : Bool := v.asked.1

def doubts : List Diagnostic := (v.pass.wants v.kernel).reported v.context

def started : Event := { kind := .passStarted, kernel := some name, pass := some v.pass.name }

def completed : Event := { kind := .passCompleted, kernel := some name, pass := some v.pass.name }

def announced : Context := v.asked.2.record (v.started name)

def result : (Kernel × Except Error Bool) × Context := (v.pass.run v.kernel).run (v.announced name)

def error? : Option Diagnostic :=
  match (v.result name).1 with
  | (kernel, .error error) => some (diagnosticOf kernel name error)
  | (_, .ok _) => none

def changes : Bool :=
  match (v.result name).1.2 with
  | .ok changed => changed
  | .error _ => false

/-- What the pass itself logs, before it answers and at work. -/
def own : List Event × List Event :=
  ((v.pass.wants v.kernel).logged v.context, (v.pass.run v.kernel).logged (v.announced name))

def work : List Event :=
  v.started name :: ((v.own name).2 ++ ((v.error? name).toList.map Context.failureEvent ++ [v.completed name]))

def events : List Event := (v.own name).1 ++ if v.runs then v.work name else []

def complaints : List Diagnostic := (v.pass.run v.kernel).reported (v.announced name) ++ (v.error? name).toList

def reports : List Diagnostic := v.doubts ++ if v.runs then v.complaints name else []

/-- The kernel and the context that the next pass finds. -/
def leaves : Kernel × Context :=
  if v.runs then
    ((v.result name).1.1,
      ((v.error? name).elim (v.result name).2 (v.result name).2.addFailure).record (v.completed name))
  else (v.kernel, v.asked.2)

def advance (progress : Progress) : Progress :=
  { kernel := (v.leaves name).1, changed := progress.changed || v.runs && v.changes name
    passesRun := progress.passesRun + v.runs.toNat }

def Plain : Prop :=
  (∀ event ∈ (v.own name).1, event.kind.frames = false) ∧
    (v.runs → ∀ event ∈ (v.own name).2, event.kind.frames = false)

variable {name v}

theorem changes_iff : v.changes name = true ↔ (v.result name).1.2 = .ok true := by
  unfold changes
  split <;> simp_all

theorem events_asked : v.asked.2.log.events = v.context.log.events ++ (v.own name).1 := Job.events_run ..

theorem failure?_asked (asked : String) :
    v.asked.2.failure? asked = (v.context.failure? asked).or (v.doubts.find? (·.kernel = asked)) :=
  Job.failure?_run ..

theorem events_leaves : (v.leaves name).2.log.events = v.context.log.events ++ v.events name := by
  rw [events, ← List.append_assoc, ← events_asked, leaves]
  split
  · have hpass : (v.result name).2.log.events = v.asked.2.log.events ++ v.started name :: (v.own name).2 := by
      rw [result, Job.events_run, announced]
      exact (congrArg (· ++ _) (Log.events_push ..)).trans (List.append_assoc ..)
    cases herror : v.error? name with
    | none =>
      refine (Log.events_push ..).trans ?_
      simp [work, herror, hpass]
    | some d =>
      refine (Log.events_push ..).trans ?_
      rw [Option.elim_some, show ((v.result name).2.addFailure d).log.events = _ from Log.events_push ..]
      simp [work, herror, hpass]
  · exact (List.append_nil _).symm

theorem failure?_leaves (asked : String) : (v.leaves name).2.failure? asked =
    (v.context.failure? asked).or ((v.reports name).find? (·.kernel = asked)) := by
  rw [reports, List.find?_append, ← Option.or_assoc, ← failure?_asked, leaves]
  split
  · have hpass : (v.result name).2.failure? asked = (v.asked.2.failure? asked).or
        (((v.pass.run v.kernel).reported (v.announced name)).find? (·.kernel = asked)) := Job.failure?_run ..
    rw [complaints, List.find?_append, ← Option.or_assoc, ← hpass]
    cases v.error? name with
    | none => exact Option.or_none.symm
    | some d =>
      refine (Context.failure?_keepFailure _ d asked).trans ?_
      by_cases hd : d.kernel = asked <;> simp [hd, Context.failure?, Context.record]
  · exact Option.or_none.symm

theorem run_runPass (progress : Progress) (hruns : v.runs = true) (hkernel : progress.kernel = v.kernel) :
    (runPass name v.pass progress).run v.asked.2 = (v.advance name progress, (v.leaves name).2) := by
  rw [runPass, Job.run_bind, Job.run_bind, advance, leaves, if_pos hruns, hruns, Bool.true_and, error?, changes]
  generalize hresult : (v.pass.run progress.kernel).run _ = result
  have heq : v.result name = result := by
    rw [← hresult, hkernel]
    rfl
  rw [heq]
  obtain ⟨⟨kernel, verdict⟩, context⟩ := result
  cases verdict with
  | ok changed => rfl
  | error error => rfl

end Visit

/-- The passes that are visited one after the other: each finds what the one before it has left. -/
inductive Visited (name : String) : Kernel × Context → List Visit → Kernel × Context → Prop where
  | none (s : Kernel × Context) : Visited name s [] s
  | visit (v : Visit) {visits : List Visit} {s : Kernel × Context} (rest : Visited name (v.leaves name) visits s) :
    Visited name (v.kernel, v.context) (v :: visits) s

def ran (visits : List Visit) : List Visit := visits.filter Visit.runs

section

variable {name : String} {visits : List Visit} {s s' : Kernel × Context}

theorem ran_cons (v : Visit) (visits : List Visit) :
    ran (v :: visits) = if v.runs then v :: ran visits else ran visits :=
  List.filter_cons

theorem Visited.events (h : Visited name s visits s') :
    s'.2.log.events = s.2.log.events ++ visits.flatMap (Visit.events name) := by
  induction h with
  | none s => exact (List.append_nil _).symm
  | visit v rest ih => rw [ih, Visit.events_leaves, List.append_assoc, List.flatMap_cons]

theorem Visited.failure? (h : Visited name s visits s') (asked : String) : s'.2.failure? asked =
    (s.2.failure? asked).or ((visits.flatMap (Visit.reports name)).find? (·.kernel = asked)) := by
  induction h with
  | none s => exact Option.or_none.symm
  | visit v rest ih => rw [ih, Visit.failure?_leaves, Option.or_assoc, List.flatMap_cons, List.find?_append]

end

/-- The passes that are visited come first in order. Only a failure keeps the others from being visited, and only if
it is to do so; then no pass is visited after it. -/
structure InTurn (options : RunOptions) (name : String) (passes : List Pass) (visits : List Visit) (last : Context) :
    Prop where
  order : visits.map Visit.pass <+: passes
  unfailed : options.stopOnFailure → ∀ v ∈ visits, v.context.failure? name = none
  every : ¬options.stopOnFailure → visits.map Visit.pass = passes
  short : visits.map Visit.pass ≠ passes → last.failure? name ≠ none

variable {options : RunOptions} {name : String} {pass : Pass} {passes : List Pass} {progress : Progress}
  {c : Context}

theorem inTurn_nil (options : RunOptions) (name : String) (c : Context) : InTurn options name [] [] c where
  order := List.prefix_rfl
  unfailed _ _ h := absurd h List.not_mem_nil
  every _ := rfl
  short h := absurd rfl h

theorem inTurn_stopped (h : (options.stopOnFailure && (c.failure? name).isSome) = true) :
    InTurn options name passes [] c := by
  obtain ⟨hoption, hfailed⟩ := Bool.and_eq_true_iff.mp h
  exact ⟨List.nil_prefix, fun _ _ hmem => absurd hmem List.not_mem_nil, fun hnot => absurd hoption hnot,
    fun _ => Option.isSome_iff_ne_none.mp hfailed⟩

theorem InTurn.visit {visits : List Visit} {last : Context} (h : InTurn options name passes visits last) (v : Visit)
    (hv : (options.stopOnFailure && (v.context.failure? name).isSome) = false) :
    InTurn options name (v.pass :: passes) (v :: visits) last where
  order := (List.prefix_cons_inj v.pass).mpr h.order
  unfailed hoption := by
    rw [hoption, Bool.true_and, Option.isSome_eq_false_iff, Option.isNone_iff_eq_none] at hv
    exact List.forall_mem_cons.mpr ⟨hv, h.unfailed hoption⟩
  every hoption := congrArg (v.pass :: ·) (h.every hoption)
  short hne := h.short fun heq => hne (congrArg (v.pass :: ·) heq)

theorem run_stops (options : RunOptions) (name : String) (c : Context) :
    (stops options name).run c = (options.stopOnFailure && (c.failure? name).isSome, c) := by
  unfold stops
  split
  · rename_i hstop
    rw [hstop, Bool.true_and]
    rfl
  · rename_i hstop
    rw [Bool.eq_false_iff.mpr hstop]
    rfl

theorem run_runPasses_cons (h : (options.stopOnFailure && (c.failure? name).isSome) = false) :
    (runPasses options name (pass :: passes) progress).run c =
      (runPasses options name passes (Visit.advance name ⟨pass, progress.kernel, c⟩ progress)).run
        (Visit.leaves name ⟨pass, progress.kernel, c⟩).2 := by
  rw [runPasses, Job.run_bind, run_stops, h, if_neg Bool.false_ne_true, Job.run_bind]
  let v : Visit := ⟨pass, progress.kernel, c⟩
  change Job.run (if v.runs = true then _ else _) v.asked.2 =
    (runPasses options name passes (v.advance name progress)).run _
  by_cases hruns : v.runs = true
  · rw [if_pos hruns, Job.run_bind, v.run_runPass progress hruns rfl]
  · have hadvance : v.advance name progress = progress := by
      simp [Visit.advance, Visit.leaves, hruns, v]
    rw [if_neg hruns, hadvance, Visit.leaves, if_neg hruns]

theorem exists_visits (options : RunOptions) (name : String) (passes : List Pass) (progress : Progress)
    (c : Context) :
    let run := (runPasses options name passes progress).run c
    ∃ visits, Visited name (progress.kernel, c) visits (run.1.kernel, run.2) ∧
      InTurn options name passes visits run.2 ∧ run.1.passesRun = progress.passesRun + (ran visits).length ∧
      run.1.changed = (progress.changed || (ran visits).any (Visit.changes name)) := by
  induction passes generalizing progress c with
  | nil => exact ⟨[], .none _, inTurn_nil .., rfl, (Bool.or_false _).symm⟩
  | cons pass passes ih =>
    cases hstop : options.stopOnFailure && (c.failure? name).isSome with
    | true =>
      have hrun : (runPasses options name (pass :: passes) progress).run c = (progress, c) := by
        rw [runPasses, Job.run_bind, run_stops, hstop]
        rfl
      rw [hrun]
      exact ⟨[], .none _, inTurn_stopped hstop, rfl, (Bool.or_false _).symm⟩
    | false =>
      rw [run_runPasses_cons hstop]
      let v : Visit := ⟨pass, progress.kernel, c⟩
      obtain ⟨visits, hvisited, hturn, hcount, hchanged⟩ := ih (v.advance name progress) (v.leaves name).2
      refine ⟨v :: visits, .visit v hvisited, hturn.visit v hstop, ?_, ?_⟩
      · rw [hcount, ran_cons, Visit.advance]
        cases v.runs with
        | true =>
          rw [if_pos rfl, List.length_cons, Nat.add_right_comm]
          rfl
        | false => rfl
      · rw [hchanged, ran_cons, Visit.advance]
        cases v.runs with
        | true => rw [if_pos rfl, List.any_cons, Bool.true_and, Bool.or_assoc]
        | false =>
          rw [Bool.false_and, Bool.or_false]
          rfl

def kernelStarted (name : String) : Event := { kind := .kernelStarted, kernel := some name }

def kernelCompleted (name : String) : Event := { kind := .kernelCompleted, kernel := some name }

/-- What all the work on a kernel comes to, in terms of its visits. The failure that is kept in the end is the one
that was there, or else the first that a visit reports; over a context with a history it is the first of all that
were ever reported for the kernel. -/
structure Disciplined (options : RunOptions) (passes : List Pass) (k : Kernel) (c : Context)
    (run : (Kernel × KernelOutcome) × Context) (visits : List Visit) : Prop
    extends InTurn options k.name passes visits run.2 where
  visited : ∃ last, Visited k.name (k, c.record (kernelStarted k.name)) visits (run.1.1, last) ∧
    run.2 = (last.markDone k.name).record (kernelCompleted k.name)
  log : run.2.log.events = c.log.events ++
    (kernelStarted k.name :: visits.flatMap (Visit.events k.name) ++ [kernelCompleted k.name])
  frames : (∀ v ∈ visits, v.Plain k.name) →
    (run.2.log.events.drop c.log.events.length).filter (·.kind.frames) = kernelStarted k.name ::
      (ran visits).flatMap (fun v => [v.started k.name, v.completed k.name]) ++ [kernelCompleted k.name]
  count : run.1.2.passesRun = (ran visits).length
  held : options.stopOnFailure → ∀ v ∈ ran visits,
    (v.announced k.name).failure? k.name = v.doubts.find? (·.kernel = k.name)
  kept : run.2.failure? k.name =
    (c.failure? k.name).or ((visits.flatMap (Visit.reports k.name)).find? (·.kernel = k.name))
  first : ∀ (α : Type) (before : Job α), c = (before.run {}).2 → run.2.failure? k.name =
    (before.reported {} ++ visits.flatMap (Visit.reports k.name)).find? (·.kernel = k.name)
  failed : ∀ d, run.1.2.status = .failed d ↔ run.2.failure? k.name = some d
  changed : run.1.2.status = .changed ↔
    run.2.failure? k.name = none ∧ ∃ v ∈ ran visits, (v.result k.name).1.2 = .ok true

theorem statusOf_eq_failed_iff {failure : Option Diagnostic} {d : Diagnostic} :
    statusOf progress failure = .failed d ↔ failure = some d := by
  cases failure with
  | some d' => simp [statusOf]
  | none => cases h : progress.changed <;> simp [statusOf, h]

theorem statusOf_eq_changed_iff {failure : Option Diagnostic} :
    statusOf progress failure = .changed ↔ failure = none ∧ progress.changed = true := by
  cases failure with
  | some d => simp [statusOf]
  | none => cases h : progress.changed <;> simp [statusOf, h]

theorem run_runKernel (options : RunOptions) (passes : List Pass) (k : Kernel) (c : Context) :
    (runKernel options passes k).run c =
      let r := (runPasses options k.name passes { kernel := k }).run (c.record (kernelStarted k.name))
      ((r.1.kernel, { kernel := k.name, status := statusOf r.1 (r.2.failure? k.name), passesRun := r.1.passesRun }),
        (r.2.markDone k.name).record (kernelCompleted k.name)) := by
  rw [runKernel, Job.run_bind, Job.run_bind]
  rfl

theorem filter_frames_events {v : Visit} (h : v.Plain name) :
    (v.events name).filter (·.kind.frames) = if v.runs then [v.started name, v.completed name] else [] := by
  have hasking : (v.own name).1.filter (·.kind.frames) = [] :=
    List.filter_eq_nil_iff.mpr fun e he => by simp [h.1 e he]
  rw [Visit.events, List.filter_append, hasking, List.nil_append]
  split
  · rename_i hruns
    have hown : (v.own name).2.filter (·.kind.frames) = [] :=
      List.filter_eq_nil_iff.mpr fun e he => by simp [h.2 hruns e he]
    have herror : ((v.error? name).toList.map Context.failureEvent).filter (·.kind.frames) = [] := by
      cases v.error? name <;> rfl
    have hframes : [v.completed name].filter (·.kind.frames) = [v.completed name] := rfl
    rw [Visit.work, List.filter_cons_of_pos rfl, List.filter_append, List.filter_append, hown, herror, hframes]
    rfl
  · rfl

theorem filter_frames_flatMap {visits : List Visit} (h : ∀ v ∈ visits, v.Plain name) :
    (visits.flatMap (Visit.events name)).filter (·.kind.frames) =
      (ran visits).flatMap fun v => [v.started name, v.completed name] := by
  induction visits with
  | nil => rfl
  | cons v visits ih =>
    obtain ⟨hv, hvisits⟩ := List.forall_mem_cons.mp h
    rw [List.flatMap_cons, List.filter_append, filter_frames_events hv, ih hvisits, ran_cons]
    split <;> rfl

theorem exists_disciplined (options : RunOptions) (passes : List Pass) (k : Kernel) (c : Context) :
    ∃ visits, Disciplined options passes k c ((runKernel options passes k).run c) visits := by
  obtain ⟨visits, hvisited, hturn, hcount, hchanged⟩ :=
    exists_visits options k.name passes { kernel := k } (c.record (kernelStarted k.name))
  rw [run_runKernel]
  generalize (runPasses options k.name passes { kernel := k }).run (c.record (kernelStarted k.name)) = r at *
  have hlog : ((r.2.markDone k.name).record (kernelCompleted k.name)).log.events = c.log.events ++
      (kernelStarted k.name :: visits.flatMap (Visit.events k.name) ++ [kernelCompleted k.name]) := by
    have hlast : r.2.log.events = _ := hvisited.events
    have hstart : (c.record (kernelStarted k.name)).log.events = _ := Log.events_push ..
    refine (Log.events_push ..).trans ?_
    change r.2.log.events ++ _ = _
    rw [hlast, hstart]
    simp only [List.append_assoc, List.cons_append, List.nil_append]
  have hkept : r.2.failure? k.name = _ := hvisited.failure? k.name
  refine ⟨visits, { hturn with
    visited := ⟨r.2, hvisited, rfl⟩
    log := hlog
    frames := fun hown => ?_
    count := hcount.trans (Nat.zero_add _)
    held := fun hoption v hv => ?_
    kept := hkept
    first := fun α before hbefore => ?_
    failed := fun d => statusOf_eq_failed_iff
    changed := statusOf_eq_changed_iff.trans (and_congr_right' ?_) }⟩
  · rw [hlog, List.drop_left, List.filter_append, List.filter_cons_of_pos rfl, filter_frames_flatMap hown]
    rfl
  · refine (Visit.failure?_asked k.name).trans ?_
    rw [hturn.unfailed hoption v (List.mem_of_mem_filter hv), Option.none_or]
  · have hbegin : c.failure? k.name = (before.reported {}).find? (·.kernel = k.name) := by
      rw [hbefore, Job.failure?_run]
      exact Option.none_or
    rw [List.find?_append, ← hbegin]
    exact hkept
  · rw [hchanged, Bool.false_or, List.any_eq_true]
    simp only [Visit.changes_iff]

end Pipeline

namespace Job

variable {α β : Type} {name : String} {d : Diagnostic} {post : α → Prop} {job job' : Job α}
  {jobs jobs' : List (Job α)} {results : List α} {c c' : Context}

/-- `post` holds of the result as long as the job sees the failure `d` of the kernel `name` whenever it looks. -/
def Aware (name : String) (d : Diagnostic) (post : α → Prop) : Job α → Prop
  | done a => post a
  | record _ next => next.Aware name d post
  | fail _ next => next.Aware name d post
  | mark _ next => next.Aware name d post
  | look next => ∀ c, c.failure? name = some d → (next c).Aware name d post

theorem Aware.bind {post' : β → Prop} {f : α → Job β} (hf : ∀ a, (f a).Aware name d post') (job : Job α) :
    (job >>= f).Aware name d post' := by
  change (job.bind f).Aware name d post'
  induction job with
  | done a => exact hf a
  | record event next ih => exact ih
  | fail diagnostic next ih => exact ih
  | mark marked next ih => exact ih
  | look next ih => exact fun c _ => ih c

theorem Aware.step (h : job.Aware name d post) (hc : c.failure? name = some d)
    (hstep : job.step? c = some (job', c')) : job'.Aware name d post ∧ c'.failure? name = some d := by
  cases job with
  | done a => cases hstep
  | record event next =>
    cases hstep
    exact ⟨h, hc⟩
  | fail diagnostic next =>
    cases hstep
    refine ⟨h, ?_⟩
    rw [Context.failure?_keepFailure, hc]
    exact ite_self _
  | mark marked next =>
    cases hstep
    exact ⟨h, hc⟩
  | look next =>
    cases hstep
    exact ⟨h _ hc, hc⟩

theorem Step.aware (h : ∀ job ∈ jobs, job.Aware name d post) (hc : c.failure? name = some d)
    (hstep : Step jobs c jobs' c') : (∀ job ∈ jobs', job.Aware name d post) ∧ c'.failure? name = some d := by
  induction hstep with
  | head hstep =>
    obtain ⟨hjob, hjobs⟩ := List.forall_mem_cons.mp h
    obtain ⟨hjob', hc'⟩ := hjob.step hc hstep
    exact ⟨List.forall_mem_cons.mpr ⟨hjob', hjobs⟩, hc'⟩
  | tail _ ih =>
    obtain ⟨hjob, hjobs⟩ := List.forall_mem_cons.mp h
    obtain ⟨hjobs', hc'⟩ := ih hjobs hc
    exact ⟨List.forall_mem_cons.mpr ⟨hjob, hjobs'⟩, hc'⟩

/-- However the jobs interleave, a failure that is there at the start is there at the end, and the results are those
of jobs that have seen it. -/
theorem Interleaved.aware (h : ∀ job ∈ jobs, job.Aware name d post) (hc : c.failure? name = some d)
    (hrun : Interleaved jobs c results c') : (∀ result ∈ results, post result) ∧ c'.failure? name = some d := by
  induction hrun with
  | finished results c => exact ⟨fun result hresult => h (done result) (List.mem_map_of_mem hresult), hc⟩
  | request hstep _ ih =>
    obtain ⟨h', hc'⟩ := hstep.aware h hc
    exact ih h' hc'

theorem interleaved_runAll (results : List α) (jobs : List (Job α)) (c : Context) :
    Interleaved (results.map done ++ jobs) c (results ++ (runAll jobs c).1) (runAll jobs c).2 := by
  induction jobs generalizing results c with
  | nil =>
    rw [List.append_nil]
    exact (List.append_nil results).symm ▸ .finished results c
  | cons job jobs ih =>
    refine .of_run (results.map done) jobs ?_
    have hnext := ih (results ++ [(job.run c).1]) (job.run c).2
    rwa [List.map_append, List.append_assoc, List.append_assoc] at hnext

end Job

namespace Pipeline

variable {name : String} {d : Diagnostic} {c c' : Context}

theorem aware_runKernel (options : RunOptions) (passes : List Pass) (k : Kernel) :
    (runKernel options passes k).Aware name d fun result =>
      result.2.kernel = name → result.2.status = .failed d := by
  refine Job.Aware.bind (fun _ => Job.Aware.bind (fun progress => ?_) _) (Job.recordEvent _)
  intro c hc hname
  obtain rfl : k.name = name := hname
  exact statusOf_eq_failed_iff.mpr hc

def Processed (p : Pipeline) (kernels : List Kernel) : Context → List (Kernel × KernelOutcome) → Context → Prop :=
  Job.Interleaved (kernels.map (runKernel p.options p.passes))

theorem Processed.failed {p : Pipeline} {kernels : List Kernel} {results : List (Kernel × KernelOutcome)}
    (h : p.Processed kernels c results c') (hc : c.failure? name = some d) :
    (∀ result ∈ results, result.2.kernel = name → result.2.status = .failed d) ∧ c'.failure? name = some d := by
  refine Job.Interleaved.aware (fun job hjob => ?_) hc h
  obtain ⟨k, -, rfl⟩ := List.mem_map.mp hjob
  exact aware_runKernel ..

theorem processed_runKernels (p : Pipeline) (kernels : List Kernel) (c : Context) :
    p.Processed kernels c (p.runKernels kernels c).1 (p.runKernels kernels c).2 := by
  rw [runKernels_eq]
  exact Job.interleaved_runAll [] _ c

theorem kernel_runKernels (p : Pipeline) (kernels : List Kernel) (c : Context) :
    (p.runKernels kernels c).1.map (·.2.kernel) = kernels.map Kernel.name := by
  induction kernels generalizing c with
  | nil => rfl
  | cons k kernels ih =>
    rw [runKernels, run_runKernel]
    exact congrArg (k.name :: ·) (ih _)

/-- A run stops before the passes are set up, or before the first kernel, or it leaves what the passes leave after
the last kernel. -/
theorem run_cases (p : Pipeline) (program : Program) (c : Context) :
    let before := ((frame Pass.setUp p.passes).run c).2
    let results := p.runKernels program.kernels before
    (((p.run program c).2.2 = c ∨ (p.run program c).2.2 = before) ∧ ∀ report, (p.run program c).1 ≠ .ok report) ∨
      (p.run program c).2.2 = ((frame Pass.tearDown p.passes).run results.2).2 ∧
        ∀ report, (p.run program c).1 = .ok report → report.outcomes = results.1.map Prod.snd := by
  unfold run
  split
  · exact Or.inl ⟨Or.inl rfl, fun _ h => nomatch h⟩
  · generalize (frame Pass.setUp p.passes).run c = first
    obtain ⟨verdict, before⟩ := first
    cases verdict with
    | error error => exact Or.inl ⟨Or.inr rfl, fun _ h => nomatch h⟩
    | ok done =>
      refine Or.inr ?_
      dsimp only
      generalize (frame Pass.tearDown p.passes).run (p.runKernels program.kernels before).2 = last
      obtain ⟨verdict, after⟩ := last
      cases verdict with
      | error error => exact ⟨rfl, fun _ h => nomatch h⟩
      | ok done =>
        refine ⟨rfl, fun report h => ?_⟩
        cases h
        rfl

theorem failed_of_run (p : Pipeline) (program : Program) (hc : c.failure? name = some d) :
    (∀ report, (p.run program c).1 = .ok report → report.outcomes.map KernelOutcome.kernel = program.names ∧
      ∀ o ∈ report.outcomes, o.kernel = name → o.status = .failed d) ∧
      (p.run program c).2.2.failure? name = some d := by
  have hbefore := ((frame Pass.setUp p.passes).failure?_run_of_some hc)
  rcases run_cases p program c with ⟨hcontext, hnone⟩ | ⟨hcontext, houtcomes⟩
  · refine ⟨fun report h => absurd h (hnone report), ?_⟩
    rcases hcontext with hcontext | hcontext
    · rw [hcontext, hc]
    · rw [hcontext, hbefore]
  · obtain ⟨hresults, hc'⟩ := (processed_runKernels p program.kernels _).failed hbefore
    refine ⟨fun report h => ?_, by rw [hcontext, Job.failure?_run_of_some _ hc']⟩
    rw [houtcomes report h]
    refine ⟨(List.map_map ..).trans (kernel_runKernels ..), fun o ho => ?_⟩
    obtain ⟨result, hresult, rfl⟩ := List.mem_map.mp ho
    exact hresults result hresult

inductive Follows : Context → Context → Prop where
  | run (p : Pipeline) (program : Program) (c : Context) : Follows c (p.run program c).2.2
  | processed {p : Pipeline} {kernels : List Kernel} {results : List (Kernel × KernelOutcome)} {c c' : Context}
    (h : p.Processed kernels c results c') : Follows c c'

theorem failure?_of_follows (h : Relation.ReflTransGen Follows c c') (hc : c.failure? name = some d) :
    c'.failure? name = some d := by
  induction h with
  | refl => exact hc
  | tail _ hstep ih =>
    cases hstep with
    | run p program => exact (failed_of_run p program ih).2
    | processed hprocessed => exact (hprocessed.failed ih).2

/-- The passes on a kernel, whatever they do and whatever the context holds: they have their turns in order, those
that run are framed in the log and counted, a failure keeps the passes after it from the kernel if it is to do so,
and the status is the first failure ever reported for the kernel or else tells whether a pass changed it. Once the
kernel has failed, every later run on that context that gives a report reports it with the same failure. -/
theorem runKernel_disciplined (options : RunOptions) (passes : List Pass) (k : Kernel) (c : Context) :
    (∃ visits, Disciplined options passes k c ((runKernel options passes k).run c) visits) ∧
      ∀ d, c.failure? k.name = some d → ∀ c', Relation.ReflTransGen Follows c c' →
        (∀ p program report, (run p program c').1 = .ok report →
          report.outcomes.map KernelOutcome.kernel = program.names ∧
            ∀ o ∈ report.outcomes, o.kernel = k.name → o.status = .failed d) ∧
        ∀ p kernels results c'', Processed p kernels c' results c'' → ∀ result ∈ results, result.2.kernel = k.name →
          result.2.status = .failed d := by
  refine ⟨exists_disciplined options passes k c, fun d hd c' hc' => ?_⟩
  have hlater := failure?_of_follows hc' hd
  exact ⟨fun p program => (failed_of_run p program hlater).1, fun p kernels results c'' h => (h.failed hlater).1⟩

/-- A pass that gives up on the kernel, and one that is not reached any more. When the second pass alone comes to the
kernel later, the kernel has still failed. -/
theorem runKernel_disciplined_refuse :
    let k := Kernel.build "tile" .unknown [.barrier]
    let refuse : Pass := { name := "refuse", run := fun k => pure (k, .error (.unknownPass "other")) }
    let touch : Pass := { name := "touch", run := fun k => pure (k, .ok true) }
    let first := (runKernel {} [refuse, touch] k).run {}
    ∃ d, d = diagnosticOf k "tile" (.unknownPass "other") ∧ first.1.2.passesRun = 1 ∧ first.1.2.status = .failed d ∧
      first.2.log.events.map Event.kind = [.kernelStarted, .passStarted, .error, .passCompleted, .kernelCompleted] ∧
      ((runKernel {} [touch] k).run {}).1.2.status = .changed ∧
      ((runKernel {} [touch] k).run first.2).1.2.status = .failed d := by
  intro k refuse touch first
  obtain ⟨⟨visits, hdisciplined⟩, -⟩ := runKernel_disciplined {} [refuse, touch] k {}
  have hd : first.2.failure? k.name = some (diagnosticOf k "tile" (.unknownPass "other")) := by decide +kernel
  refine ⟨_, rfl, by decide +kernel, (hdisciplined.failed _).mpr hd, by decide +kernel, by decide +kernel, ?_⟩
  have hlater := ((runKernel_disciplined {} [touch] k first.2).2 _ hd first.2 .refl).2 { passes := [touch] } [k]
  have hprocessed := processed_runKernels { passes := [touch] } [k] first.2
  rw [runKernels_eq, List.map_singleton, Job.runAll, Job.runAll] at hprocessed
  refine hlater _ _ hprocessed _ List.mem_cons_self ?_
  rw [run_runKernel]

/-- A pass that reports a failure of the kernel when it is asked, and says that it wants it: it starts after the
failure has been kept. And a pass that cannot be torn down: the run on the failed kernel ends without a report. -/
theorem runKernel_started_after_failure :
    let k := Kernel.build "tile" .unknown [.barrier]
    let d : Diagnostic := { kernel := "tile", message := "in doubt" }
    let doubt : Pass :=
      { name := "doubt"
        wants := fun _ => do
          Job.addFailure d
          return true
        run := fun k => pure (k, .ok false) }
    let late : Pass := { name := "late", tearDown := throw (.failure "late"), run := fun k => pure (k, .ok false) }
    let failed := ({} : Context).addFailure d
    let first := (runKernel { stopOnFailure := true } [doubt] k).run {}
    first.2.log.events.map Event.kind = [.kernelStarted, .error, .passStarted, .passCompleted, .kernelCompleted] ∧
      first.1.2 = { kernel := "tile", status := .failed d, passesRun := 1 } ∧ failed.failure? "tile" = some d ∧
      (run { passes := [late] } ⟨[k]⟩ failed).1 = .error (.failure "late") := by
  decide +kernel

end Pipeline
end SlotRotation
