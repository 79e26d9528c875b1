import Mathlib.Algebra.GroupWithZero.Nat
import SlotRotation.Proofs.Directives
import SlotRotation.Proofs.Interleaving

/-! The log and the report of a run tell the same. What is logged for a site can be read off its fate, the guards
apart, so every figure of the log but the number of guards can be read off the report. -/

namespace SlotRotation

def EventKind.isGuard : EventKind → Bool
  | guardInserted | guardAdopted => true
  | _ => false

theorem Log.count_push (log : Log) (event : Event) (kind : EventKind) :
    (log.push event).count kind = log.count kind + [event.kind].count kind := by
  rw [count, events_push, List.countP_append]
  rfl

namespace Transform

variable {α : Type} {policy : Policy} {site : Site} {factor : Int64} {set set' : SlotSet} {s s' t : State}
  {kinds kinds' : List EventKind}

/-- From `s` to `s'` there are events of these kinds more, in whatever order, and guards besides. -/
structure State.Logs (s : State) (kinds : List EventKind) (s' : State) : Prop where
  count : ∀ kind, kind.isGuard = false → s'.log.count kind = s.log.count kind + kinds.count kind

theorem State.Logs.of_log (h : s'.log = s.log) : s.Logs [] s' := by
  refine ⟨fun kind _ => ?_⟩
  rw [h, List.count_nil, Nat.add_zero]

theorem State.Logs.trans (h : s.Logs kinds t) (h' : t.Logs kinds' s') : s.Logs (kinds ++ kinds') s' := by
  refine ⟨fun kind hkind => ?_⟩
  rw [h'.count kind hkind, h.count kind hkind, List.count_append, Nat.add_assoc]

theorem State.logs_record (s : State) (kind : EventKind) (op : OpId) (message : String) :
    s.Logs [kind] (s.record kind op message) := ⟨fun _ _ => Log.count_push ..⟩

theorem State.logs_guard (s : State) {kind : EventKind} (h : kind.isGuard = true) (op : OpId) (message : String) :
    s.Logs [] (s.record kind op message) := by
  refine ⟨fun other hother => ?_⟩
  have hne : kind ≠ other := by
    rintro rfl
    rw [h] at hother
    cases hother
  rw [State.record, Log.count_push]
  simp [hne]

/-- The transformation logs nothing but guards, whatever comes of it. -/
def Quiet (t : Transform α) : Prop := Leaves (fun s s' : State => s.Logs [] s') t

theorem Quiet.bind {β : Type} {t : Transform α} {f : α → Transform β} (h : Quiet t) (hf : ∀ a, Quiet (f a)) :
    Quiet (t >>= f) :=
  Leaves.bind (fun _ _ _ h h' => h.trans h') h hf

theorem quiet_pure (a : α) : Quiet (pure a) := ⟨fun _ => .of_log rfl⟩

theorem quiet_currentKernel : Quiet currentKernel := ⟨fun _ => .of_log rfl⟩

theorem quiet_query (q : Kernel → Except Error α) : Quiet (query q) := by
  refine ⟨fun s => ?_⟩
  unfold query
  split <;> exact .of_log rfl

theorem quiet_edit (e : Edit α) : Quiet (edit e) := by
  refine ⟨fun s => ?_⟩
  unfold edit
  split <;> exact .of_log rfl

theorem quiet_note {kind : EventKind} (h : kind.isGuard = true) (op : OpId) : Quiet (note kind op) :=
  ⟨fun s => s.logs_guard h op kind.description⟩

theorem quiet_leadWithBarrier (loop : OpId) : Quiet (leadWithBarrier loop) := by
  apply (quiet_query _).bind
  intro l
  apply quiet_currentKernel.bind
  intro k
  split
  · exact (quiet_note rfl _).bind fun _ => quiet_pure _
  · exact (quiet_edit _).bind fun _ => (quiet_note rfl _).bind fun _ => quiet_pure _

theorem quiet_guardFor (policy : Policy) (ty : BufferType) (loop : OpId) (factor : Nat) :
    Quiet (guardFor policy ty loop factor) := by
  apply quiet_currentKernel.bind
  intro k
  split
  · exact (quiet_leadWithBarrier loop).bind fun _ => quiet_pure _
  · exact quiet_pure _

theorem quiet_renewGuard (policy : Policy) (set : SlotSet) (factor : Nat) :
    Quiet (renewGuard policy set factor) := by
  apply quiet_currentKernel.bind
  intro k
  split
  · exact quiet_pure _
  · exact (quiet_leadWithBarrier _).bind fun _ => quiet_pure _
  · split
    · exact (quiet_edit _).bind fun _ => quiet_pure _
    · exact quiet_pure _
  · exact quiet_pure _

theorem logs_deriveRotation {loop : OpId} {factor : Nat} {point : InsertPoint} {rotation : Rotation}
    (h : deriveRotation loop factor point s = .ok rotation s') : s.Logs [.rotationDerived] s' := by
  obtain ⟨l, -, h⟩ := query_bind_eq_ok h
  obtain ⟨_, s₁, hedit, h⟩ := bind_eq_ok h
  obtain ⟨_, s₂, hrecord, h⟩ := bind_eq_ok h
  cases hrecord
  cases h
  exact ((quiet_edit _).ok hedit).trans (s₁.logs_record ..)

theorem logs_rebind {selected : ValueId} {uses : List Use} (h : rebind selected uses s = .ok () s') :
    s.Logs (List.replicate uses.length .useRebound) s' := by
  induction uses generalizing s with
  | nil =>
    cases h
    exact .of_log rfl
  | cons use uses ih =>
    obtain ⟨_, s₁, hedit, h⟩ := bind_eq_ok h
    obtain ⟨_, s₂, hrecord, h⟩ := bind_eq_ok h
    cases hrecord
    exact (((quiet_edit _).ok hedit).trans (s₁.logs_record ..)).trans (ih h)

theorem logs_rebindFrom {old new : ValueId} {bindings : List Binding}
    (h : rebindFrom old new bindings s = .ok () s') : s.Logs (List.replicate bindings.length .useRebound) s' := by
  induction bindings generalizing s with
  | nil =>
    cases h
    exact .of_log rfl
  | cons binding bindings ih =>
    obtain ⟨found, s₁, hedit, h⟩ := bind_eq_ok h
    split at h
    · obtain ⟨_, s₂, hrecord, h⟩ := bind_eq_ok h
      cases hrecord
      exact (((quiet_edit _).ok hedit).trans (s₁.logs_record ..)).trans (ih h)
    · cases h

theorem logs_discard {slots : List Slot} (h : discard slots s = .ok () s') :
    s.Logs (List.replicate slots.length .slotDiscarded) s' := by
  induction slots generalizing s with
  | nil =>
    cases h
    exact .of_log rfl
  | cons slot slots ih =>
    obtain ⟨_, s₁, hedit, h⟩ := bind_eq_ok h
    obtain ⟨_, s₂, hrecord, h⟩ := bind_eq_ok h
    cases hrecord
    exact (((quiet_edit _).ok hedit).trans (s₁.logs_record ..)).trans (ih h)

end Transform

/-- A set and the slot count that it had before it was resized. -/
structure SlotChange where
  before : Nat
  set : SlotSet

namespace SlotChange

variable (z : SlotChange)

def regroups : Bool := z.set.factor ∣ z.before ∨ z.before ∣ z.set.factor

def givenUp : Nat :=
  if z.set.factor ∣ z.before then z.before - z.set.factor else if z.before ∣ z.set.factor then 0 else z.before

def events : List EventKind :=
  .rotationDerived ::
    if z.regroups then List.replicate (z.before - z.set.factor) .slotDiscarded ++ [.slotsRegrouped]
    else
      List.replicate z.set.bindings.length .useRebound ++ List.replicate z.before .slotDiscarded ++
        [.slotsReallocated]

end SlotChange

def SlotSet.events (set : SlotSet) : List EventKind :=
  .slotsCreated :: .rotationDerived :: List.replicate set.bindings.length .useRebound

namespace Fate

def opening : Fate → List EventKind
  | expanded set | resized _ set | notResized set _ => set.events
  | notExpanded _ => [.error]

def closing : Fate → List EventKind
  | expanded _ | notExpanded _ => []
  | notResized .. => [.error]
  | resized before set => SlotChange.events ⟨before, set⟩

def events (fate : Fate) : List EventKind := fate.opening ++ fate.closing

end Fate

theorem Strategy.choose_eq_reallocate_iff {n m : Nat} : choose n m = .reallocate ↔ ¬(m ∣ n ∨ n ∣ m) := by
  have hshrink : (m = n ∨ n % m = 0) ↔ m ∣ n := by
    rw [← Nat.dvd_iff_mod_eq_zero]
    exact or_iff_right_of_imp fun h => h ▸ Nat.dvd_refl m
  unfold choose
  by_cases hdown : m ∣ n
  · rw [if_pos (hshrink.mpr hdown)]
    simp [hdown]
  · rw [if_neg (hshrink.not.mpr hdown)]
    by_cases hup : n ∣ m
    · rw [if_pos (Nat.mod_eq_zero_of_dvd hup)]
      simp [hup]
    · rw [if_neg fun h => hup (Nat.dvd_of_mod_eq_zero h)]
      simp [hdown, hup]

namespace Transform

variable {policy : Policy} {site : Site} {factor : Int64} {set set' : SlotSet} {s s' : State}

theorem logs_expand (h : expand policy site factor s = .ok set s') : s.Logs set.events s' := by
  obtain ⟨e, top, s₁, s₂, s₃, s₄, s₅, s₆, -, hslots, hguard, -, hrotation, hselect, hrebind, hreleases, herase, -,
    -, -, hbindings⟩ := expand_stages h
  have hcreated := ((quiet_edit _).ok hslots).trans ((s₁.logs_record ..).trans ((quiet_guardFor ..).ok hguard))
  have hderived := logs_deriveRotation hrotation
  have hrebound := ((quiet_edit _).ok hselect).trans (logs_rebind hrebind)
  have hreleased := ((quiet_edit _).ok hreleases).trans ((quiet_edit _).ok herase)
  have hlogs := ((hcreated.trans hderived).trans hrebound).trans hreleased
  rw [SlotSet.events, hbindings, List.length_map]
  simpa using hlogs

theorem logs_reallocate {target : Nat} {last : Slot} {index : ValueId} {point : InsertPoint}
    (h : reallocate set target last index point s = .ok set' s') :
    s.Logs (List.replicate set.bindings.length .useRebound ++ List.replicate set.factor .slotDiscarded ++
      [.slotsReallocated]) s' := by
  obtain ⟨s₁, s₂, s₃, s₄, s₅, s₆, hslots, hselect, hrebind, hreleases, hselector, hdiscard, -, rfl⟩ :=
    reallocate_stages h
  have hrebound := (((quiet_edit _).ok hslots).trans ((quiet_edit _).ok hselect)).trans (logs_rebindFrom hrebind)
  have hdiscarded := (((quiet_edit _).ok hreleases).trans ((quiet_edit _).ok hselector)).trans
    (logs_discard hdiscard)
  exact (hrebound.trans hdiscarded).trans (s₆.logs_record ..)

theorem logs_regroup {strategy : Strategy} {target : Nat} {last : Slot} {index : ValueId} {point : InsertPoint}
    (h : regroup set strategy target last index point s = .ok set' s') :
    s.Logs (List.replicate (set.factor - target) .slotDiscarded ++ [.slotsRegrouped]) s' := by
  obtain ⟨kept, added, s₁, s₂, s₃, s₄, hadded, hselector, hreleases, hdiscard, -, -, rfl⟩ := regroup_stages h
  have hmoved := (((quiet_edit _).ok hadded).trans ((quiet_edit _).ok hselector)).trans ((quiet_edit _).ok hreleases)
  have hdiscarded := logs_discard hdiscard
  rw [List.length_drop] at hdiscarded
  exact (hmoved.trans hdiscarded).trans (s₄.logs_record ..)

theorem logs_resize (h : resize policy set factor s = .ok set' s') (hfactor : slotsAsked factor = .ok set'.factor) :
    s.Logs (SlotChange.events ⟨set.factor, set'⟩) s' ∧ set'.events = set.events := by
  obtain ⟨target, last, top, resized, s₁, s₂, s₃, htarget, -, -, hguard, -, hrotation, hresized, herase,
    hset⟩ := resize_stages h
  obtain rfl : set'.factor = target := Except.ok.inj (hfactor.symm.trans htarget)
  have hlength : set'.bindings.length = set.bindings.length := by
    rw [congrArg SlotSet.bindings hset, List.length_map]
  refine ⟨?_, by rw [SlotSet.events, SlotSet.events, hlength]⟩
  have hderived := ((quiet_renewGuard ..).ok hguard).trans (logs_deriveRotation hrotation)
  have herased := (quiet_edit _).ok herase
  unfold SlotChange.events
  rcases hresized with ⟨hchoose, hreallocate⟩ | ⟨strategy, hchoose, hne, hregroup⟩
  · have hdivides : ¬SlotChange.regroups ⟨set.factor, set'⟩ := by
      rw [SlotChange.regroups, decide_eq_true_eq]
      exact Strategy.choose_eq_reallocate_iff.mp hchoose
    rw [if_neg hdivides, hlength]
    have hlogs := (hderived.trans (logs_reallocate hreallocate)).trans herased
    rwa [List.append_nil] at hlogs
  · have hdivides : SlotChange.regroups ⟨set.factor, set'⟩ := by
      rw [SlotChange.regroups, decide_eq_true_eq]
      by_contra hno
      exact hne (hchoose.symm.trans (Strategy.choose_eq_reallocate_iff.mpr hno))
    rw [if_pos hdivides]
    have hlogs := (hderived.trans (logs_regroup hregroup)).trans herased
    rwa [List.append_nil] at hlogs

theorem logs_expandSite {F F' : Forest} {k' : Kernel} {o : SiteResult} (hrun : expandSite policy site s = (o, s'))
    (hstep : Kernel.ExpandStep policy site s.kernel F o k' F') :
    s.Logs o.status.opening s' ∧ o.status.closing = [] := by
  unfold expandSite at hrun
  cases hstep with
  | @refused err herr =>
    -- a refusal comes before any edit, so the failure is all that is logged
    have hattempt : attempt (expand policy site site.factor) s = (.error err, s) := attempt_query herr
    rw [stateBind_eq hattempt] at hrun
    cases hrun
    exact ⟨s.logs_record .., rfl⟩
  | expanded =>
    cases hexpand : expand policy site site.factor s with
    | ok set t =>
      rw [stateBind_eq (attempt_of_ok hexpand)] at hrun
      cases hrun
      exact ⟨logs_expand hexpand, rfl⟩
    | error err t =>
      -- not this step: the outcome holds a set
      rw [stateBind_eq (attempt_of_error hexpand)] at hrun
      cases hrun

theorem logs_resizeOutcome {F F' : Forest} {k' : Kernel} {o o' : SiteResult}
    (hrun : resizeOutcome policy o s = (o', s')) (hstep : Kernel.ResizeStep policy o s.kernel F o' k' F')
    (ho : o.status.closing = []) :
    s.Logs o'.status.closing s' ∧ o'.status.opening = o.status.opening := by
  unfold resizeOutcome at hrun
  cases hstep with
  | kept hpending =>
    rw [hpending] at hrun
    cases hrun
    exact ⟨ho ▸ .of_log rfl, rfl⟩
  | @refused set factor err hpending herr =>
    obtain ⟨hstatus, -⟩ := SiteResult.pending?_eq_some_iff.mp hpending
    rw [hpending] at hrun
    dsimp only at hrun
    have hattempt : attempt (resize policy set factor) s = (.error err, s) := attempt_query herr
    rw [stateBind_eq hattempt] at hrun
    cases hrun
    exact ⟨s.logs_record .., by rw [hstatus]; rfl⟩
  | @resized set set' factor target k₀ k' F₀ l ns guard rot E hpending hasked hlength =>
    obtain ⟨hstatus, -⟩ := SiteResult.pending?_eq_some_iff.mp hpending
    rw [hpending] at hrun
    dsimp only at hrun
    cases hresize : resize policy set factor s with
    | ok set'' t =>
      rw [stateBind_eq (attempt_of_ok hresize)] at hrun
      cases hrun
      obtain ⟨hlogs, hevents⟩ := logs_resize hresize (hasked.trans (congrArg Except.ok hlength.symm))
      exact ⟨hlogs, by rw [hstatus]; exact hevents⟩
    | error err t =>
      rw [stateBind_eq (attempt_of_error hresize)] at hrun
      cases hrun

end Transform

def Survey.events (found : Survey) : List EventKind :=
  List.replicate found.sites.length .directiveConsumed ++ List.replicate found.orphans.length .warning

theorem Survey.count_events_append (a b : Survey) (kind : EventKind) :
    (a.append b).events.count kind = a.events.count kind + b.events.count kind := by
  simp only [events, append, List.length_append, List.count_append, List.count_replicate]
  split <;> split <;> omega

namespace Transform

open Kernel

variable {policy : Policy} {s s' : State} {F : Forest}

theorem count_surveyOp (id : OpId) (s : State) (kind : EventKind) :
    (surveyOp id s).2.log.count kind = s.log.count kind + (surveyOp id s).1.events.count kind := by
  unfold surveyOp
  split
  · rfl
  · dsimp only
    split
    · rfl
    · exact Log.count_push ..
    · exact Log.count_push ..

theorem count_surveyOps (ids : List OpId) (s : State) (kind : EventKind) :
    (surveyOps ids s).2.log.count kind = s.log.count kind + (surveyOps ids s).1.events.count kind := by
  induction ids generalizing s with
  | nil => rfl
  | cons id ids ih =>
    have hrest := ih (surveyOp id s).2
    rw [count_surveyOp, Nat.add_assoc] at hrest
    exact hrest.trans (congrArg _ (Survey.count_events_append ..).symm)

/-- Since `start`, what the fates of the outcomes stand for was logged; those in `todo` are not resized yet. -/
structure Booked (start s : State) (done todo : List SiteResult) : Prop where
  logs : start.Logs ((done ++ todo).flatMap fun o => o.status.events) s
  unresized : ∀ o ∈ todo, o.status.closing = []

theorem Booked.expandSite {start : State} {done : List SiteResult} (h : Booked start s [] done) {site : Site}
    {o : SiteResult} {F F' : Forest} {k' : Kernel} (hrun : Transform.expandSite policy site s = (o, s'))
    (hstep : ExpandStep policy site s.kernel F o k' F') : Booked start s' [] (done ++ [o]) := by
  obtain ⟨hopening, hclosing⟩ := logs_expandSite hrun hstep
  constructor
  · have hlogs := h.logs.trans hopening
    rw [← List.append_assoc, List.flatMap_append, List.flatMap_singleton, Fate.events, hclosing, List.append_nil]
    exact hlogs
  · intro o' ho'
    rcases List.mem_append.mp ho' with ho' | ho'
    · exact h.unresized o' ho'
    · rw [List.mem_singleton.mp ho']
      exact hclosing

theorem Booked.resizeOutcome {start : State} {done todo : List SiteResult} {o o' : SiteResult}
    (h : Booked start s done (o :: todo)) {F F' : Forest} {k' : Kernel}
    (hrun : Transform.resizeOutcome policy o s = (o', s')) (hstep : ResizeStep policy o s.kernel F o' k' F') :
    Booked start s' (done ++ [o']) todo := by
  have ho := h.unresized o List.mem_cons_self
  obtain ⟨hclosing, hopening⟩ := logs_resizeOutcome hrun hstep ho
  refine ⟨⟨fun kind hkind => ?_⟩, fun x hx => h.unresized x (List.mem_cons_of_mem _ hx)⟩
  -- what the resizing logs stands behind all openings, but only the number of events matters
  have hcount := (h.logs.trans hclosing).count kind hkind
  simp only [List.flatMap_append, List.flatMap_cons, List.flatMap_nil, List.count_append, List.count_nil,
    Fate.events, ho, hopening] at hcount ⊢
  omega

theorem logs_multibuffer (hF : Stores s.kernel F) (hv : s.kernel.verify = .ok ()) (hbounds : s.kernel.PlainBounds)
    (policy : Policy) :
    (survey s).2.Logs ((multibuffer policy s).1.outcomes.flatMap fun o => o.status.events)
      (multibuffer policy s).2 := by
  have hstart : Booked (survey s).2 (survey s).2 [] [] := ⟨.of_log rfl, fun _ h => absurd h List.not_mem_nil⟩
  obtain ⟨history, outcomes, s', F', heq, -, hbooked⟩ := multibuffer_state_induction
    (fun t _ done _ => Booked (survey s).2 t [] done) (fun t _ done todo => Booked (survey s).2 t done todo)
    (hF.survey hv hbounds) hstart (fun _ _ h hrun hstep _ => h.expandSite hrun hstep) (fun _ h => h)
    (fun _ h hrun hstep _ => h.resizeOutcome hrun hstep)
  rw [heq]
  have hlogs := hbooked.logs
  rwa [List.append_nil] at hlogs

end Transform

def SiteResult.slotChange? (o : SiteResult) : Option SlotChange :=
  match o.status with
  | .resized before set => some ⟨before, set⟩
  | _ => none

namespace Report

variable (r : Report)

def resizings : List SlotChange := r.outcomes.filterMap SiteResult.slotChange?

def regroupings : List SlotChange := r.resizings.filter SlotChange.regroups

def reallocations : List SlotChange := r.resizings.filter fun z => !z.regroups

def discards : Nat := (r.resizings.map SlotChange.givenUp).sum

/-- Accesses are bound to a selector when a set is made, and once more when its slots are allocated anew. -/
def rebindings : Nat :=
  (r.sets.map fun set => set.bindings.length).sum + (r.reallocations.map fun z => z.set.bindings.length).sum

/-- The number of events of a kind that the report stands for, guards apart. -/
def count : EventKind → Nat
  | .directiveConsumed => r.outcomes.length
  | .warning => r.orphans.length
  | .error => r.failedSites.length
  | .slotsCreated => r.sets.length
  | .rotationDerived => r.sets.length + r.resizings.length
  | .slotsRegrouped => r.regroupings.length
  | .slotsReallocated => r.reallocations.length
  | .slotDiscarded => r.discards
  | .useRebound => r.rebindings
  | _ => 0

def stats (guards : Nat) : Stats where
  kernelsChanged := if r.outcomes.isEmpty then 0 else 1
  expansions := r.sets.length
  rebindings := r.rebindings
  guardsAdded := guards
  regroupings := r.regroupings.length
  reallocations := r.reallocations.length
  discards := r.discards
  warnings := r.orphans.length
  errors := r.failedSites.length

end Report

variable {kind : EventKind}

theorem Report.count_events (r : Report) :
    (r.outcomes.flatMap fun o => o.status.events).count kind = (r.sets.flatMap SlotSet.events).count kind +
      (r.resizings.flatMap SlotChange.events).count kind +
      (List.replicate r.failedSites.length EventKind.error).count kind := by
  unfold sets resizings failedSites
  induction r.outcomes with
  | nil => rfl
  | cons o outcomes ih =>
    obtain ⟨site, fate⟩ := o
    rw [List.flatMap_cons, List.count_append, ih]
    cases fate <;>
      simp [SiteResult.set?, SiteResult.slotChange?, SiteResult.isSuccess, Fate.events, Fate.opening, Fate.closing,
        List.filterMap_cons, List.replicate_succ, List.count_cons] <;> omega

theorem SlotSet.count_events (sets : List SlotSet) :
    (sets.flatMap events).count kind = (List.replicate sets.length EventKind.slotsCreated).count kind +
      (List.replicate sets.length EventKind.rotationDerived).count kind +
      (List.replicate (sets.map fun set => set.bindings.length).sum EventKind.useRebound).count kind := by
  induction sets with
  | nil => rfl
  | cons set sets ih =>
    rw [List.flatMap_cons, List.count_append, ih, events, List.map_cons, List.sum_cons, List.replicate_add,
      List.length_cons, List.replicate_succ, List.replicate_succ]
    simp only [List.count_cons, List.count_append]
    omega

namespace SlotChange

theorem givenUp_of_regroups {z : SlotChange} (hz : 1 ≤ z.set.factor) (h : z.regroups = true) :
    z.givenUp = z.before - z.set.factor := by
  unfold givenUp
  by_cases hdown : z.set.factor ∣ z.before
  · rw [if_pos hdown]
  · have hup := (of_decide_eq_true h).resolve_left hdown
    rw [if_neg hdown, if_pos hup, Nat.sub_eq_zero_of_le (Nat.le_of_dvd hz hup)]

theorem givenUp_of_not_regroups {z : SlotChange} (h : z.regroups = false) : z.givenUp = z.before := by
  have hno := not_or.mp (of_decide_eq_false h)
  rw [givenUp, if_neg hno.1, if_neg hno.2]

theorem count_events {resizings : List SlotChange} (h : ∀ z ∈ resizings, 1 ≤ z.set.factor) :
    (resizings.flatMap events).count kind = (List.replicate resizings.length EventKind.rotationDerived).count kind +
      (List.replicate (resizings.filter regroups).length EventKind.slotsRegrouped).count kind +
      (List.replicate (resizings.filter fun z => !z.regroups).length EventKind.slotsReallocated).count kind +
      (List.replicate (resizings.map givenUp).sum EventKind.slotDiscarded).count kind +
      (List.replicate ((resizings.filter fun z => !z.regroups).map fun z => z.set.bindings.length).sum
        EventKind.useRebound).count kind := by
  induction resizings with
  | nil => rfl
  | cons z resizings ih =>
    rw [List.flatMap_cons, List.count_append, ih fun z hz => h z (List.mem_cons_of_mem _ hz), List.map_cons,
      List.sum_cons, List.replicate_add, List.length_cons, List.replicate_succ, events]
    cases hregroups : z.regroups with
    | true =>
      rw [if_pos rfl, givenUp_of_regroups (h z List.mem_cons_self) hregroups, List.filter_cons_of_pos hregroups,
        List.filter_cons_of_neg (by rw [hregroups]; decide), List.length_cons, List.replicate_succ]
      simp only [List.count_cons, List.count_append, List.count_nil]
      omega
    | false =>
      rw [if_neg Bool.false_ne_true, givenUp_of_not_regroups hregroups,
        List.filter_cons_of_neg (by rw [hregroups]; decide), List.filter_cons_of_pos (by rw [hregroups]; rfl),
        List.length_cons, List.replicate_succ, List.map_cons, List.sum_cons, List.replicate_add]
      simp only [List.count_cons, List.count_append, List.count_nil]
      omega

end SlotChange

theorem distinctCount_replicate (n : Nat) (name : String) : distinctCount (List.replicate n name) = min n 1 := by
  rw [distinctCount_eq]
  cases n with
  | zero => rfl
  | succ n =>
    rw [List.replicate_dedup (Nat.succ_ne_zero n), Nat.min_eq_right (Nat.succ_pos n)]
    rfl

namespace Log

variable {log : Log}

theorem kernelsAffected_of_named {name : String} (h : ∀ event ∈ log.events, event.kernel = some name) :
    log.kernelsAffected = min (log.events.countP (·.kind.isTransformation)) 1 := by
  have hnames : (log.events.filter (·.kind.isTransformation)).filterMap Event.kernel =
      (log.events.filter (·.kind.isTransformation)).map fun _ => name :=
    List.filterMap_eq_map_iff_forall_eq_some.mpr fun event hevent => h event (List.mem_filter.mp hevent).1
  rw [kernelsAffected, hnames, List.map_const', distinctCount_replicate, List.countP_eq_length_filter]

theorem count_pos_iff : 0 < log.count kind ↔ ∃ event ∈ log.events, event.kind = kind := by
  simp [count, List.countP_pos_iff]

end Log

namespace Transform

open Kernel

variable {policy : Policy} {s : State} {F : Forest}

theorem count_survey (hlog : s.log = {}) : (survey s).2.log.count kind = (survey s).1.events.count kind := by
  have hcount := count_surveyOps s.kernel.preorder s kind
  rw [hlog] at hcount
  exact hcount.trans (Nat.zero_add _)

theorem multibuffer_of_no_sites (policy : Policy) (h : (survey s).1.sites = []) :
    (multibuffer policy s).2 = (survey s).2 := by
  obtain ⟨outcomes, s₁, outcomes', s₂, history, hexpand, hresize, heq⟩ := exists_run policy s
  rw [h] at hexpand
  cases hexpand
  cases hresize
  rw [heq]

theorem count_multibuffer (hF : Stores s.kernel F) (hv : s.kernel.verify = .ok ()) (hbounds : s.kernel.PlainBounds)
    (hlog : s.log = {}) (policy : Policy) (kind : EventKind) (hkind : kind.isGuard = false) :
    (multibuffer policy s).2.log.count kind = (multibuffer policy s).1.count kind := by
  obtain ⟨F', hupholds⟩ := multibuffer_upholds s hF hv hbounds policy
  have hinhabited : ∀ z ∈ (multibuffer policy s).1.resizings, 1 ≤ z.set.factor := by
    intro z hz
    obtain ⟨⟨site, fate⟩, ho, hchange⟩ := List.mem_filterMap.mp hz
    have hset : z.set ∈ (multibuffer policy s).1.sets := by
      refine List.mem_filterMap.mpr ⟨_, ho, ?_⟩
      cases fate with
      | resized before set => cases hchange; rfl
      | _ => cases hchange
    exact List.length_pos_iff.mpr (hupholds.carries.in_place z.set hset).fits.inhabited
  rw [(logs_multibuffer hF hv hbounds policy).count kind hkind, count_survey hlog, Survey.events, List.count_append,
    Report.count_events, SlotSet.count_events, SlotChange.count_events hinhabited, ← orphans_multibuffer policy s,
    ← length_outcomes policy s]
  cases kind <;>
    simp [List.count_replicate, Report.count, Report.rebindings, Report.regroupings, Report.reallocations,
      Report.discards]

theorem countP_isTransformation_multibuffer (hF : Stores s.kernel F) (hv : s.kernel.verify = .ok ())
    (hbounds : s.kernel.PlainBounds) (hlog : s.log = {}) (policy : Policy) :
    (multibuffer policy s).2.log.events.countP (·.kind.isTransformation) = 0 ↔
      (multibuffer policy s).1.outcomes = [] := by
  rw [List.countP_eq_zero]
  constructor
  · intro hnone
    by_contra hsome
    have hconsumed := count_multibuffer hF hv hbounds hlog policy .directiveConsumed rfl
    have hpos : 0 < (multibuffer policy s).2.log.count .directiveConsumed :=
      hconsumed ▸ List.length_pos_iff.mpr hsome
    obtain ⟨event, hevent, hkind⟩ := Log.count_pos_iff.mp hpos
    exact hnone event hevent (hkind ▸ rfl)
  · intro hnone event hevent
    have hsites : (survey s).1.sites = [] := by
      rw [← List.length_eq_zero_iff, ← length_outcomes policy s, hnone]
      rfl
    rw [multibuffer_of_no_sites policy hsites] at hevent
    have hpos := Log.count_pos_iff.mpr ⟨event, hevent, rfl⟩
    rw [count_survey hlog, Survey.events, hsites, List.count_pos_iff] at hpos
    -- a survey without sites warns of orphans, and that is all
    rw [List.eq_of_mem_replicate hpos]
    decide

theorem kernelsAffected_multibuffer (hF : Stores s.kernel F) (hv : s.kernel.verify = .ok ())
    (hbounds : s.kernel.PlainBounds) (hlog : s.log = {}) (policy : Policy) :
    (multibuffer policy s).2.log.kernelsAffected = if (multibuffer policy s).1.outcomes.isEmpty then 0 else 1 := by
  have hnamed : ∀ event ∈ (multibuffer policy s).2.log.events, event.kernel = some s.kernel.name := by
    intro event hevent
    apply ((files_multibuffer policy s).1.events event hevent).resolve_left
    rw [hlog]
    exact List.not_mem_nil
  have hchanges := countP_isTransformation_multibuffer hF hv hbounds hlog policy
  rw [Log.kernelsAffected_of_named hnamed]
  split
  case isTrue hnone =>
    rw [hchanges.mpr (List.isEmpty_iff.mp hnone)]
    rfl
  case isFalse hsome =>
    have hpos := Nat.pos_of_ne_zero fun hzero => hsome (List.isEmpty_iff.mpr (hchanges.mp hzero))
    exact Nat.min_eq_right hpos

/-- The log of a run on a verified kernel counts what the report lists, so the figures of the log, the number of
guards apart, depend on the report only. -/
theorem multibuffer_accounts {name : String} {location : Location} {stmts : List Stmt} (s : State)
    (hs : s.kernel = build name location stmts) (hlog : s.log = {}) (hv : s.kernel.verify = .ok ())
    (hbounds : s.kernel.PlainBounds) (policy : Policy) :
    (∀ kind, kind.isGuard = false → (multibuffer policy s).2.log.count kind = (multibuffer policy s).1.count kind) ∧
      Stats.ofLog (multibuffer policy s).2.log =
        (multibuffer policy s).1.stats ((multibuffer policy s).2.log.count .guardInserted) := by
  obtain ⟨F, hF⟩ := build_stores name location stmts
  rw [← hs] at hF
  have hcount := count_multibuffer hF hv hbounds hlog policy
  refine ⟨hcount, ?_⟩
  unfold Stats.ofLog
  rw [kernelsAffected_multibuffer hF hv hbounds hlog policy, hcount .slotsCreated rfl, hcount .useRebound rfl,
    hcount .slotsRegrouped rfl, hcount .slotsReallocated rfl, hcount .slotDiscarded rfl, hcount .warning rfl,
    hcount .error rfl]
  rfl

/-- Two tiles in one loop are expanded and resized, with three accesses and one barrier between them. -/
theorem multibuffer_accounts_tilePair :
    ∃ s : State, s = { kernel := build "pair" .unknown Stmt.tilePair, pass := "slots" } ∧
      let run := multibuffer {} s
      let figures : Stats :=
        { kernelsChanged := 1, expansions := 2, rebindings := 3, guardsAdded := 1, regroupings := 2 }
      (∀ kind, kind.isGuard = false → run.2.log.count kind = run.1.count kind) ∧
        run.2.log.count .directiveConsumed = 2 ∧ run.2.log.count .rotationDerived = 4 ∧
        Stats.ofLog run.2.log = figures ∧ run.1.stats (run.2.log.count .guardInserted) = figures := by
  obtain ⟨s, hs⟩ : ∃ s : State, s = { kernel := build "pair" .unknown Stmt.tilePair, pass := "slots" } := ⟨_, rfl⟩
  have hconsumed : (multibuffer {} s).1.count .directiveConsumed = 2 := by
    rw [hs]
    decide +kernel
  have hderived : (multibuffer {} s).1.count .rotationDerived = 4 := by
    rw [hs]
    decide +kernel
  have hfigures : (multibuffer {} s).1.stats ((multibuffer {} s).2.log.count .guardInserted) =
      { kernelsChanged := 1, expansions := 2, rebindings := 3, guardsAdded := 1, regroupings := 2 } := by
    rw [hs]
    decide +kernel
  obtain ⟨hcount, hstats⟩ := multibuffer_accounts s (by rw [hs]) (by rw [hs]) (by rw [hs]; decide +kernel)
    (by rw [hs]; decide +kernel) {}
  exact ⟨s, hs, hcount, (hcount _ rfl).trans hconsumed, (hcount _ rfl).trans hderived, hstats.trans hfigures,
    hfigures⟩

end Transform
end SlotRotation
