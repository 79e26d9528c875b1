import SlotRotation.Pipeline.Run
import SlotRotation.Proofs.Lasting

/-! What the work on a kernel leaves alone. No edit gives a kernel another name, so all that is logged while a
kernel is worked on is filed under its name, and so is the failure that is reported in the end. -/

namespace SlotRotation

namespace Kernel

variable (k : Kernel)

theorem name_define (i : Instr) (id : OpId) : (k.define i id).name = k.name := by
  unfold define
  split <;> rfl

theorem name_own (i : Instr) (id : OpId) : (k.own i id).name = k.name := by
  unfold own
  split <;> rfl

theorem name_setInstr (id : OpId) (i : Instr) : (k.setInstr id i).name = k.name := by
  unfold setInstr
  split <;> rfl

theorem name_updateAlloc (id : OpId) (f : Alloc → Alloc) : (k.updateAlloc id f).name = k.name := by
  unfold updateAlloc
  split
  · exact name_setInstr ..
  · rfl

theorem lasts_name : Lasts fun k k' => k'.name = k.name where
  refl _ := rfl
  trans _ _ _ h h' := h'.trans h
  newValue _ := ⟨fun _ => rfl⟩
  insert := by
    intro i _ point
    refine ⟨fun k => ?_⟩
    unfold Edit.insert
    cases k.resolve point with
    | error e => rfl
    | ok place =>
      simp only
      split
      · exact name_define ..
      · exact (name_own ..).trans (name_define ..)
  erase id := by
    refine ⟨fun k => ?_⟩
    unfold Edit.erase
    split
    · rfl
    · exact remove_keeps Kernel.name (fun _ _ => rfl) (fun _ _ _ => rfl) ..
  setOperand user operand value := by
    refine ⟨fun k => ?_⟩
    unfold Edit.setOperand
    split
    · rfl
    · split
      · exact name_setInstr ..
      · rfl
  strip _ _ := name_updateAlloc ..

end Kernel

namespace Transform

structure State.Files (s s' : State) : Prop where
  name : s'.kernel.name = s.kernel.name
  events : ∀ event ∈ s'.log.events, event ∈ s.log.events ∨ event.kernel = some s.kernel.name

theorem State.Files.refl (s : State) : s.Files s := ⟨rfl, fun _ h => Or.inl h⟩

theorem State.Files.trans {s t u : State} (h : s.Files t) (h' : t.Files u) : s.Files u := by
  refine ⟨h'.name.trans h.name, fun event hevent => ?_⟩
  rcases h'.events event hevent with hevent | hevent
  · exact h.events event hevent
  · exact Or.inr (h.name ▸ hevent)

theorem State.files_record (s : State) (kind : EventKind) (op : OpId) (message : String) :
    s.Files (s.record kind op message) := by
  refine ⟨rfl, fun event hevent => ?_⟩
  rw [State.record, Log.push, Log.events, Array.toList_push, List.mem_append, List.mem_singleton] at hevent
  exact hevent.imp id fun heq => by rw [heq]

theorem lasts_files : Lasts (fun k k' => k'.name = k.name) State.Files where
  edits := Kernel.lasts_name
  refl := State.Files.refl
  trans _ _ _ := State.Files.trans
  log := State.files_record
  kernel _ _ h := ⟨h, fun _ => Or.inl⟩

theorem files_multibuffer (policy : Policy) (s : State) :
    s.Files (multibuffer policy s).2 ∧ ∀ d ∈ (multibuffer policy s).1.diagnostic, d.kernel = s.kernel.name := by
  obtain ⟨outcomes, s₁, outcomes', s₂, history, hexpand, hresize, heq⟩ := exists_run policy s
  have hfiles := lasts_files.multibuffer policy s
  rw [heq] at hfiles
  rw [heq]
  refine ⟨hfiles, fun d hd => ?_⟩
  simp only [conclude, Option.mem_def, Option.ite_none_right_eq_some, Option.some.injEq] at hd
  rw [← hd.2]
  exact hfiles.name

end Transform

namespace Job

variable {α β : Type}

/-- The job logs nothing about another kernel than `name` and keeps no failure of another; when it looks at the
context, how it goes on depends on the failure of `name` alone; `post` holds of its result. -/
def Within (name : String) (post : α → Prop) : Job α → Prop
  | done a => post a
  | record event next => (event.kernel = none ∨ event.kernel = some name) ∧ next.Within name post
  | fail diagnostic next => diagnostic.kernel = name ∧ next.Within name post
  | mark _ next => next.Within name post
  | look next =>
    (∀ c c', c.failure? name = c'.failure? name → next c = next c') ∧ ∀ c, (next c).Within name post

variable {name : String} {post : α → Prop} {job : Job α}

theorem Within.bind {post' : β → Prop} {f : α → Job β} (h : job.Within name post)
    (hf : ∀ a, post a → (f a).Within name post') : (job >>= f).Within name post' := by
  change (job.bind f).Within name post'
  induction job with
  | done a => exact hf a h
  | record event next ih => exact ⟨h.1, ih h.2⟩
  | fail diagnostic next ih => exact ⟨h.1, ih h.2⟩
  | mark marked next ih => exact ih h
  | look next ih =>
    exact ⟨fun c c' heq => congrArg (Job.bind · f) (h.1 c c' heq), fun c => ih c (h.2 c)⟩

theorem within_recordAll {events : List Event} (h : ∀ event ∈ events, event.kernel = some name) :
    (recordAll events).Within name fun _ => True := by
  induction events with
  | nil => trivial
  | cons event events ih =>
    exact ⟨Or.inr (h event List.mem_cons_self), ih fun e he => h e (List.mem_cons_of_mem _ he)⟩

theorem within_ask {view : Context → β} (h : ∀ c c', c.failure? name = c'.failure? name → view c = view c') :
    (ask view).Within name fun _ => True :=
  ⟨fun c c' heq => congrArg done (h c c' heq), fun _ => trivial⟩

theorem within_addFailure {d : Diagnostic} (h : d.kernel = name) : (addFailure d).Within name fun _ => True :=
  ⟨Or.inr (congrArg some h), h, trivial⟩

end Job

/-- On a kernel the pass touches that kernel only, which keeps its name, and reports under its name only, also when
it is asked whether it wants the kernel; what it answers does not depend on other kernels either. -/
def Pass.Local (pass : Pass) : Prop :=
  ∀ k, ((pass.wants k).Within k.name fun _ => True) ∧
    (pass.run k).Within k.name fun result => result.1.name = k.name

theorem Pass.local_multibuffer (policy : Policy) : (Pass.multibuffer policy).Local := by
  intro k
  refine ⟨trivial, ?_⟩
  let start : Transform.State := { kernel := k, log := {}, pass := multibufferName }
  obtain ⟨hfiles, hdiagnostic⟩ := Transform.files_multibuffer policy start
  have hevents : ∀ event ∈ (Transform.multibuffer policy start).2.log.events, event.kernel = some k.name :=
    fun event he => (hfiles.events event he).resolve_left List.not_mem_nil
  refine (Job.within_recordAll hevents).bind fun _ _ => ?_
  have hreport : (Pass.reportAll (Transform.multibuffer policy start).1.diagnostic).Within k.name fun _ => True := by
    cases hd : (Transform.multibuffer policy start).1.diagnostic with
    | none => trivial
    | some d => exact Job.within_addFailure (hdiagnostic d hd)
  exact hreport.bind fun _ _ => hfiles.name

namespace Pipeline

variable {options : RunOptions} {name : String} {pass : Pass} {passes : List Pass} {progress : Progress}

theorem within_runPass (hpass : pass.Local) (hname : progress.kernel.name = name) :
    (runPass name pass progress).Within name fun progress' => progress'.kernel.name = name := by
  subst hname
  refine ⟨Or.inr rfl, (hpass progress.kernel).2.bind fun result hresult => ?_⟩
  obtain ⟨kernel, verdict⟩ := result
  cases verdict with
  | ok changed => exact ⟨Or.inr rfl, hresult⟩
  | error error => exact ⟨Or.inr rfl, rfl, Or.inr rfl, hresult⟩

theorem within_stops : (stops options name).Within name fun _ => True := by
  unfold stops
  split
  · exact (Job.within_ask fun _ _ heq => heq).bind fun _ _ => trivial
  · trivial

theorem within_runPasses (hpasses : ∀ pass ∈ passes, pass.Local) (hname : progress.kernel.name = name) :
    (runPasses options name passes progress).Within name fun progress' => progress'.kernel.name = name := by
  induction passes generalizing progress with
  | nil => exact hname
  | cons pass passes ih =>
    have hrest : ∀ pass ∈ passes, pass.Local := fun pass' h => hpasses pass' (List.mem_cons_of_mem pass h)
    refine within_stops.bind fun stopped _ => ?_
    split
    · exact hname
    · have hpass := hpasses pass List.mem_cons_self
      refine (hname ▸ (hpass progress.kernel).1).bind fun wanted _ => ?_
      split
      · exact (within_runPass hpass hname).bind fun progress' hname' => ih hrest hname'
      · exact ih hrest hname

theorem within_runKernel (hpasses : ∀ pass ∈ passes, pass.Local) (k : Kernel) :
    (runKernel options passes k).Within k.name fun _ => True := by
  refine ⟨Or.inr rfl, ?_⟩
  have hrun : (runPasses options k.name passes { kernel := k }).Within k.name _ := within_runPasses hpasses rfl
  exact hrun.bind fun progress _ => ⟨Or.inr rfl, (Job.within_ask fun _ _ heq => heq).bind fun _ _ => trivial⟩

end Pipeline
end SlotRotation
