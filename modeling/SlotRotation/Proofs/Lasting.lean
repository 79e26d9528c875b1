import SlotRotation.Proofs.Multibuffer

/-! Relations that last. Whatever holds between the states ahead of an elementary change and behind it, and can be
chained, holds between the states ahead of a whole run and behind it, refused changes included. -/

namespace SlotRotation

def leftBy {ε σ α : Type} : EStateM.Result ε σ α → σ
  | .ok _ s => s
  | .error _ s => s

/-- Whatever comes of it, the states before and after are related. -/
structure Leaves {ε σ α : Type} (R : σ → σ → Prop) (x : EStateM ε σ α) : Prop where
  related : ∀ s, R s (leftBy (x s))

theorem Leaves.bind {ε σ α β : Type} {R : σ → σ → Prop} {x : EStateM ε σ α} {f : α → EStateM ε σ β}
    (hR : ∀ s t u, R s t → R t u → R s u) (h : Leaves R x) (hf : ∀ a, Leaves R (f a)) : Leaves R (x >>= f) := by
  refine ⟨fun s => ?_⟩
  have hx := h.related s
  cases hrun : x s with
  | error e t =>
    rw [hrun] at hx
    rw [bind_of_error hrun]
    exact hx
  | ok a t =>
    rw [hrun] at hx
    rw [bind_of_ok hrun]
    exact hR _ _ _ hx ((hf a).related t)

theorem Leaves.ok {ε σ α : Type} {R : σ → σ → Prop} {x : EStateM ε σ α} (h : Leaves R x) {s s' : σ} {a : α}
    (hx : x s = .ok a s') : R s s' := by
  have hleft := h.related s
  rwa [hx] at hleft

def Instr.Bare (i : Instr) : Prop := ∀ a ∈ i.alloc?, a.hasDirective = false

theorem Instr.bare_of_alloc?_eq_none {i : Instr} (h : i.alloc? = none) : i.Bare := by simp [Bare, h]

theorem Instr.bare_alloc {a : Alloc} (h : a.hasDirective = false) : (Instr.alloc a).Bare := by
  intro b hb
  cases hb
  exact h

/-- The relation holds between a kernel and what an elementary change leaves of it. Nothing that is inserted into a
kernel under transformation has a directive. -/
structure Kernel.Lasts (R : Kernel → Kernel → Prop) : Prop where
  refl : ∀ k, R k k
  trans : ∀ k₁ k₂ k₃, R k₁ k₂ → R k₂ k₃ → R k₁ k₃
  newValue : ∀ ty, Leaves R (Edit.newValue ty)
  insert : ∀ {i : Instr}, i.Bare → ∀ point, Leaves R (Edit.insert i point)
  erase : ∀ id, Leaves R (Edit.erase id)
  setOperand : ∀ user operand value, Leaves R (Edit.setOperand user operand value)
  strip : ∀ k id, R k (k.updateAlloc id Alloc.stripped)

namespace Kernel.Lasts

variable {α β : Type} {R : Kernel → Kernel → Prop} (h : Lasts R)
include h

theorem pure (a : α) : Leaves R (Pure.pure a : Edit α) := ⟨h.refl⟩

theorem bind {e : Edit α} {f : α → Edit β} (he : Leaves R e) (hf : ∀ a, Leaves R (f a)) : Leaves R (e >>= f) :=
  Leaves.bind h.trans he hf

theorem insertPlain {i : Instr} (hi : i.alloc? = none) (point : InsertPoint) : Leaves R (Edit.insert i point) :=
  h.insert (Instr.bare_of_alloc?_eq_none hi) point

theorem eraseAll (ids : List OpId) : Leaves R (Edit.eraseAll ids) := by
  induction ids with
  | nil => exact h.pure ()
  | cons id ids ih => exact h.bind (h.erase id) fun _ => ih

theorem allocateSlots (ty : BufferType) (origin : Nat → SlotOrigin) (first count : Nat) (point : InsertPoint) :
    Leaves R (Edit.allocateSlots ty origin first count point) := by
  induction count generalizing first point with
  | zero => exact h.pure []
  | succ count ih =>
    apply h.bind (h.newValue _)
    intro value
    apply h.bind (h.insert (Instr.bare_alloc rfl) point)
    intro alloc
    exact h.bind (ih ..) fun _ => h.pure _

theorem selectAmong (ty : BufferType) (slots : List Slot) (index : ValueId) (point : InsertPoint) :
    Leaves R (Edit.selectAmong ty slots index point) :=
  h.bind (h.newValue _) fun _ => h.bind (h.insertPlain rfl point) fun _ => h.pure _

theorem releaseSlots (slots : List Slot) (point : InsertPoint) : Leaves R (Edit.releaseSlots slots point) := by
  induction slots generalizing point with
  | nil => exact h.pure []
  | cons slot slots ih => exact h.bind (h.insertPlain rfl point) fun _ => h.bind (ih _) fun _ => h.pure _

theorem splitReleases (slots : List Slot) (uses : List Use) : Leaves R (Edit.splitReleases slots uses) := by
  induction uses with
  | nil => exact h.pure []
  | cons use uses ih =>
    apply h.bind (h.releaseSlots ..)
    intro ops
    exact h.bind (h.erase _) fun _ => h.bind ih fun _ => h.pure _

theorem addConstant (value : Int64) (point : InsertPoint) : Leaves R (Edit.addConstant value point) :=
  h.bind (h.newValue _) fun _ => h.bind (h.insertPlain rfl point) fun _ => h.pure _

theorem addArith (op : ArithOp) (lhs rhs : ValueId) (point : InsertPoint) :
    Leaves R (Edit.addArith op lhs rhs point) :=
  h.bind (h.newValue _) fun _ => h.bind (h.insertPlain rfl point) fun _ => h.pure _

theorem addArithUnless (neutral : Int64) (op : ArithOp) (value other : ValueId) (point : InsertPoint) :
    Leaves R (Edit.addArithUnless neutral op value other point) := by
  refine h.bind ⟨fun k => h.refl k⟩ fun k => ?_
  split
  · exact h.pure _
  · exact h.bind (h.addArith ..) fun _ => h.pure _

theorem addRotation (l : Loop) (factor : Nat) (point : InsertPoint) :
    Leaves R (Edit.addRotation l factor point) := by
  unfold Edit.addRotation
  split_ifs
  · exact ⟨h.refl⟩
  · exact h.bind (h.addConstant ..) fun _ => h.pure _
  · apply h.bind (h.addArithUnless ..)
    intro offset
    apply h.bind (h.addArithUnless ..)
    intro iteration
    apply h.bind (h.addConstant ..)
    intro modulus
    exact h.bind (h.addArith ..) fun _ => h.pure _

theorem moveSelector (set : SlotSet) (slots : List Slot) (index : ValueId) (point : InsertPoint) :
    Leaves R (Edit.moveSelector set slots index point) :=
  h.bind (h.insertPlain rfl point) fun _ => h.bind (h.erase _) fun _ => h.pure _

theorem regroupRelease (target : Nat) (added : List Slot) (ops : List OpId) :
    Leaves R (Edit.regroupRelease target added ops) := by
  apply h.bind (h.eraseAll _)
  intro _
  split
  · exact h.bind (h.releaseSlots ..) fun _ => h.pure _
  · exact h.pure _

theorem regroupReleases (target : Nat) (added : List Slot) (releases : List (List OpId)) :
    Leaves R (Edit.regroupReleases target added releases) := by
  induction releases with
  | nil => exact h.pure []
  | cons ops releases ih => exact h.bind (h.regroupRelease ..) fun _ => h.bind ih fun _ => h.pure _

theorem replaceReleases (slots : List Slot) (releases : List (List OpId)) :
    Leaves R (Edit.replaceReleases slots releases) := by
  induction releases with
  | nil => exact h.pure []
  | cons ops releases ih =>
    cases ops with
    | nil => exact ih
    | cons old olds =>
      apply h.bind (h.releaseSlots ..)
      intro new
      exact h.bind (h.eraseAll _) fun _ => h.bind ih fun _ => h.pure _

end Kernel.Lasts

namespace Transform

/-- The relation holds between a state and what is left of it if something is logged or if the kernel is changed,
where `Q` relates the kernels of a change. -/
structure Lasts (Q : Kernel → Kernel → Prop) (R : State → State → Prop) : Prop where
  edits : Kernel.Lasts Q
  refl : ∀ s, R s s
  trans : ∀ s₁ s₂ s₃, R s₁ s₂ → R s₂ s₃ → R s₁ s₃
  log : ∀ (s : State) kind op message, R s (s.record kind op message)
  kernel : ∀ (s : State) k, Q s.kernel k → R s { s with kernel := k }

theorem leaves_attempt {α : Type} {R : State → State → Prop} {t : Transform α} (h : Leaves R t) (s : State) :
    R s (Transform.attempt t s).2 := by
  have hleft := h.related s
  rw [Transform.attempt]
  cases hrun : t s with
  | ok a s' =>
    rw [hrun] at hleft
    exact hleft
  | error err s' =>
    rw [hrun] at hleft
    exact hleft

theorem Lasts.ofKernel {Q : Kernel → Kernel → Prop} (h : Kernel.Lasts Q) :
    Lasts Q fun s s' => Q s.kernel s'.kernel where
  edits := h
  refl s := h.refl s.kernel
  trans _ _ _ := h.trans _ _ _
  log s _ _ _ := h.refl s.kernel
  kernel _ _ := id

namespace Lasts

variable {α β : Type} {Q : Kernel → Kernel → Prop} {R : State → State → Prop} (h : Lasts Q R)
include h

theorem pure (a : α) : Leaves R (Pure.pure a : Transform α) := ⟨h.refl⟩

theorem throw (err : Error) : Leaves R (MonadExcept.throw err : Transform α) := ⟨h.refl⟩

theorem bind {t : Transform α} {f : α → Transform β} (ht : Leaves R t) (hf : ∀ a, Leaves R (f a)) :
    Leaves R (t >>= f) :=
  Leaves.bind h.trans ht hf

theorem record (kind : EventKind) (op : OpId) (message : String) : Leaves R (Transform.record kind op message) :=
  ⟨fun s => h.log s kind op message⟩

theorem currentKernel : Leaves R Transform.currentKernel := ⟨h.refl⟩

theorem query (q : Kernel → Except Error α) : Leaves R (Transform.query q) := by
  refine ⟨fun s => ?_⟩
  rw [Transform.query]
  split <;> exact h.refl s

theorem edit {e : Edit α} (he : Leaves Q e) : Leaves R (Transform.edit e) := by
  refine ⟨fun s => ?_⟩
  have hleft := he.related s.kernel
  rw [Transform.edit]
  cases hrun : e s.kernel with
  | ok a k =>
    rw [hrun] at hleft
    exact h.kernel s k hleft
  | error err k =>
    rw [hrun] at hleft
    exact h.kernel s k hleft

theorem leadWithBarrier (loop : OpId) : Leaves R (Transform.leadWithBarrier loop) := by
  apply h.bind (h.query _)
  intro l
  apply h.bind h.currentKernel
  intro k
  split
  · exact h.bind (h.record ..) fun _ => h.pure _
  · exact h.bind (h.edit (h.edits.insertPlain rfl _)) fun _ => h.bind (h.record ..) fun _ => h.pure _

theorem guardFor (policy : Policy) (ty : BufferType) (loop : OpId) (factor : Nat) :
    Leaves R (Transform.guardFor policy ty loop factor) := by
  apply h.bind h.currentKernel
  intro k
  split
  · exact h.bind (h.leadWithBarrier loop) fun _ => h.pure _
  · exact h.pure _

theorem renewGuard (policy : Policy) (set : SlotSet) (factor : Nat) :
    Leaves R (Transform.renewGuard policy set factor) := by
  apply h.bind h.currentKernel
  intro k
  split
  · exact h.pure _
  · exact h.bind (h.leadWithBarrier _) fun _ => h.pure _
  · split
    · exact h.bind (h.edit (h.edits.erase _)) fun _ => h.pure _
    · exact h.pure _
  · exact h.pure _

theorem deriveRotation (loop : OpId) (factor : Nat) (point : InsertPoint) :
    Leaves R (Transform.deriveRotation loop factor point) := by
  apply h.bind (h.query _)
  intro l
  apply h.bind (h.edit (h.edits.addRotation ..))
  intro rotation
  exact h.bind (h.record ..) fun _ => h.pure _

theorem rebind (selected : ValueId) (uses : List Use) : Leaves R (Transform.rebind selected uses) := by
  induction uses with
  | nil => exact h.pure ()
  | cons use uses ih => exact h.bind (h.edit (h.edits.setOperand ..)) fun _ => h.bind (h.record ..) fun _ => ih

theorem rebindFrom (old new : ValueId) (bindings : List Binding) :
    Leaves R (Transform.rebindFrom old new bindings) := by
  induction bindings with
  | nil => exact h.pure ()
  | cons binding bindings ih =>
    apply h.bind (h.edit (h.edits.setOperand ..))
    intro found
    split
    · exact h.bind (h.record ..) fun _ => ih
    · exact h.throw _

theorem discard (slots : List Slot) : Leaves R (Transform.discard slots) := by
  induction slots with
  | nil => exact h.pure ()
  | cons slot slots ih => exact h.bind (h.edit (h.edits.erase _)) fun _ => h.bind (h.record ..) fun _ => ih

theorem expand (policy : Policy) (site : Site) (factor : Int64) :
    Leaves R (Transform.expand policy site factor) := by
  apply h.bind (h.query _)
  intro e
  apply h.bind (h.edit (h.edits.allocateSlots ..))
  intro slots
  apply h.bind (h.record ..)
  intro _
  apply h.bind (h.guardFor ..)
  intro guard
  apply h.bind (h.query _)
  intro top
  apply h.bind (h.deriveRotation ..)
  intro rotation
  apply h.bind (h.edit (h.edits.selectAmong ..))
  intro selection
  apply h.bind (h.rebind ..)
  intro _
  apply h.bind (h.edit (h.edits.splitReleases ..))
  intro releases
  apply h.bind (h.edit (h.edits.erase _))
  intro _
  exact h.bind (h.query _) fun _ => h.pure _

theorem regroup (set : SlotSet) (strategy : Strategy) (target : Nat) (last : Slot) (index : ValueId)
    (point : InsertPoint) : Leaves R (Transform.regroup set strategy target last index point) := by
  apply h.bind (h.edit (h.edits.allocateSlots ..))
  intro added
  apply h.bind (h.edit (h.edits.moveSelector ..))
  intro selector
  apply h.bind (h.edit (h.edits.regroupReleases ..))
  intro releases
  apply h.bind (h.discard _)
  intro _
  exact h.bind (h.record ..) fun _ => h.pure _

theorem reallocate (set : SlotSet) (target : Nat) (last : Slot) (index : ValueId) (point : InsertPoint) :
    Leaves R (Transform.reallocate set target last index point) := by
  apply h.bind (h.edit (h.edits.allocateSlots ..))
  intro slots
  apply h.bind (h.edit (h.edits.selectAmong ..))
  intro selection
  apply h.bind (h.rebindFrom ..)
  intro _
  apply h.bind (h.edit (h.edits.replaceReleases ..))
  intro releases
  apply h.bind (h.edit (h.edits.erase _))
  intro _
  apply h.bind (h.discard _)
  intro _
  exact h.bind (h.record ..) fun _ => h.pure _

theorem resize (policy : Policy) (set : SlotSet) (factor : Int64) :
    Leaves R (Transform.resize policy set factor) := by
  apply h.bind (h.query _)
  intro target
  apply h.bind (h.query _)
  intro last
  apply h.bind (h.query _)
  intro _
  apply h.bind (h.renewGuard ..)
  intro guard
  apply h.bind (h.query _)
  intro top
  apply h.bind (h.deriveRotation ..)
  intro rotation
  dsimp only
  split
  · exact h.bind (h.reallocate ..) fun _ => h.bind (h.edit (h.edits.eraseAll _)) fun _ => h.pure _
  · exact h.bind (h.regroup ..) fun _ => h.bind (h.edit (h.edits.eraseAll _)) fun _ => h.pure _

theorem surveyOp (id : OpId) (s : State) : R s (Transform.surveyOp id s).2 := by
  have hstripped := h.kernel s _ (h.edits.strip s.kernel id)
  unfold Transform.surveyOp
  split
  · exact h.refl s
  · dsimp only
    split
    · exact h.refl s
    · exact h.trans _ _ _ hstripped (h.log ..)
    · exact h.trans _ _ _ hstripped (h.log ..)

theorem surveyOps (ids : List OpId) (s : State) : R s (Transform.surveyOps ids s).2 := by
  induction ids generalizing s with
  | nil => exact h.refl s
  | cons id ids ih => exact h.trans _ _ _ (h.surveyOp id s) (ih _)

theorem survey (s : State) : R s (Transform.survey s).2 := h.surveyOps s.kernel.preorder s

theorem expandSite (policy : Policy) (site : Site) (s : State) : R s (Transform.expandSite policy site s).2 := by
  have hattempt := leaves_attempt (h.expand policy site site.factor) s
  cases hrun : Transform.attempt (Transform.expand policy site site.factor) s with
  | mk answer s' =>
    rw [hrun] at hattempt
    rw [Transform.expandSite, stateBind_eq hrun]
    cases answer with
    | ok set => exact hattempt
    | error err => exact h.trans _ _ _ hattempt (h.log ..)

theorem expandSites (policy : Policy) (sites : List Site) (s : State) :
    R s (Transform.expandSites policy sites s).2 := by
  induction sites generalizing s with
  | nil => exact h.refl s
  | cons site sites ih => exact h.trans _ _ _ (h.expandSite policy site s) (ih _)

theorem resizeOutcome (policy : Policy) (o : SiteResult) (s : State) :
    R s (Transform.resizeOutcome policy o s).2 := by
  rw [Transform.resizeOutcome]
  cases o.pending? with
  | none => exact h.refl s
  | some pair =>
    obtain ⟨set, factor⟩ := pair
    have hattempt := leaves_attempt (h.resize policy set factor) s
    cases hrun : Transform.attempt (Transform.resize policy set factor) s with
    | mk answer s' =>
      rw [hrun] at hattempt
      dsimp only
      rw [stateBind_eq hrun]
      cases answer with
      | ok set => exact hattempt
      | error err => exact h.trans _ _ _ hattempt (h.log ..)

theorem resizeOutcomes (policy : Policy) (outcomes : List SiteResult) (s : State) :
    R s (Transform.resizeOutcomes policy outcomes s).2 := by
  induction outcomes generalizing s with
  | nil => exact h.refl s
  | cons o outcomes ih => exact h.trans _ _ _ (h.resizeOutcome policy o s) (ih _)

theorem multibuffer_of_survey (policy : Policy) (s : State) :
    R (Transform.survey s).2 (Transform.multibuffer policy s).2 := by
  obtain ⟨outcomes, s₁, outcomes', s₂, history, hexpand, hresize, heq⟩ := exists_run policy s
  have hexpanded := h.expandSites policy (Transform.survey s).1.sites (Transform.survey s).2
  have hresized := h.resizeOutcomes policy outcomes s₁
  rw [hexpand] at hexpanded
  rw [hresize] at hresized
  rw [heq]
  exact h.trans _ _ _ hexpanded hresized

theorem multibuffer (policy : Policy) (s : State) : R s (Transform.multibuffer policy s).2 :=
  h.trans _ _ _ (h.survey s) (h.multibuffer_of_survey policy s)

end Lasts
end Transform
end SlotRotation
