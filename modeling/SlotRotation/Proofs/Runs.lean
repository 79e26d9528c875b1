import SlotRotation.Proofs.Edits.Local
import SlotRotation.Proofs.Uses

/-! What a transformation does to a kernel, apart from the log. The log never decides anything, so a transformation
that succeeds does so with the same answer whatever was logged before. -/

namespace SlotRotation

namespace Transform

variable {α β : Type} {t : Transform α} {f : α → Transform β} {k k' k'' : Kernel} {a : α} {b : β}

def Does (t : Transform α) (k : Kernel) (a : α) (k' : Kernel) : Prop :=
  ∀ s : State, s.kernel = k → ∃ s', t s = .ok a s' ∧ s'.kernel = k'

def Refuses (t : Transform α) (k : Kernel) : Prop :=
  ∀ s : State, s.kernel = k → ∃ e s', t s = .error e s' ∧ s'.kernel = k

theorem Does.bind (h : Does t k a k') (h' : Does (f a) k' b k'') : Does (t >>= f) k b k'' := by
  intro s hs
  obtain ⟨s₁, hrun, hs₁⟩ := h s hs
  obtain ⟨s₂, hrun', hs₂⟩ := h' s₁ hs₁
  exact ⟨s₂, (bind_of_ok hrun).trans hrun', hs₂⟩

theorem Does.bind_refuses (h : Does t k a k) (h' : Refuses (f a) k) : Refuses (t >>= f) k := by
  intro s hs
  obtain ⟨s₁, hrun, hs₁⟩ := h s hs
  obtain ⟨e, s₂, hrun', hs₂⟩ := h' s₁ hs₁
  exact ⟨e, s₂, (bind_of_ok hrun).trans hrun', hs₂⟩

theorem Refuses.bind (h : Refuses t k) : Refuses (t >>= f) k := by
  intro s hs
  obtain ⟨e, s₁, hrun, hs₁⟩ := h s hs
  exact ⟨e, s₁, bind_of_error hrun, hs₁⟩

theorem does_pure (a : α) : Does (pure a) k a k := fun s hs => ⟨s, rfl, hs⟩

theorem does_record (kind : EventKind) (op : OpId) (message : String) : Does (record kind op message) k () k :=
  fun _ hs => ⟨_, rfl, hs⟩

theorem does_currentKernel : Does currentKernel k k k := by
  intro s hs
  refine ⟨s, ?_, hs⟩
  rw [currentKernel, hs]

theorem does_edit {e : Edit α} (h : e k = .ok a k') : Does (edit e) k a k' := by
  intro s hs
  refine ⟨{ s with kernel := k' }, ?_, rfl⟩
  rw [edit, hs, h]

theorem does_query {q : Kernel → Except Error α} (h : q k = .ok a) : Does (query q) k a k := by
  intro s hs
  refine ⟨s, ?_, hs⟩
  rw [query, hs, h]

theorem refuses_query {q : Kernel → Except Error α} {err : Error} (h : q k = .error err) : Refuses (query q) k := by
  intro s hs
  refine ⟨err, s, ?_, hs⟩
  rw [query, hs, h]

theorem Does.unique (h : Does t k a k') {s s' : State} {c : α} (hs : s.kernel = k) (hrun : t s = .ok c s') :
    c = a ∧ s'.kernel = k' := by
  obtain ⟨s₁, hrun', hs₁⟩ := h s hs
  rw [hrun'] at hrun
  cases hrun
  exact ⟨rfl, hs₁⟩

theorem Refuses.not_ok (h : Refuses t k) {s s' : State} (hs : s.kernel = k) : t s ≠ .ok a s' := by
  intro hrun
  obtain ⟨e, s₁, herr, -⟩ := h s hs
  rw [hrun] at herr
  cases herr

theorem does_discard {slots : List Slot} (h : Edit.eraseAll (slots.map Slot.alloc) k = .ok () k') :
    Does (discard slots) k () k' := by
  induction slots generalizing k with
  | nil =>
    cases h
    exact does_pure ()
  | cons slot slots ih =>
    rw [List.map_cons, Edit.eraseAll] at h
    cases hone : Edit.erase slot.alloc k with
    | error e k₁ =>
      rw [bind_of_error hone] at h
      cases h
    | ok _ k₁ =>
      rw [bind_of_ok hone] at h
      exact (does_edit hone).bind ((does_record _ _ _).bind (ih h))

theorem edit_erase_of_not_isLive {s : State} {x : OpId} (h : ¬s.kernel.isLive x) :
    ∃ fault, edit (Edit.erase x) s = .error (.malformed fault) s := by
  have hnone : s.kernel.op? x = none := by
    unfold Kernel.isLive at h
    rwa [Bool.not_eq_true, Option.isSome_eq_false_iff, Option.isNone_iff_eq_none] at h
  refine ⟨.deadOp x s.kernel.name, ?_⟩
  unfold edit Edit.erase Kernel.getOp
  rw [hnone]

section RenewGuard

variable {policy : Policy} {set : SlotSet} {n : Nat} {g : Guard}

theorem does_renewGuard_stay (hneeds : policy.needsGuard k set.ty set.loop n = true) (hg : set.guard = some g) :
    Does (renewGuard policy set n) k (some g) k := by
  apply does_currentKernel.bind
  rw [hg, hneeds]
  exact does_pure _

theorem does_renewGuard_lead (hneeds : policy.needsGuard k set.ty set.loop n = true) (hg : set.guard = none)
    (h : Does (leadWithBarrier set.loop) k g k') : Does (renewGuard policy set n) k (some g) k' := by
  apply does_currentKernel.bind
  rw [hg, hneeds]
  exact h.bind (does_pure _)

theorem does_renewGuard_leave (hneeds : policy.needsGuard k set.ty set.loop n = false)
    (hleave : ¬∃ g, set.guard = some g ∧ g.inserted = true ∧
      k.otherNeedsGuard policy set.loop set.selector = false) :
    Does (renewGuard policy set n) k none k := by
  apply does_currentKernel.bind
  cases hg : set.guard with
  | none =>
    rw [hneeds]
    exact does_pure _
  | some g =>
    have hstays : (g.inserted && !k.otherNeedsGuard policy set.loop set.selector) = false := by
      rw [Bool.eq_false_iff, Ne, Bool.and_eq_true, Bool.not_eq_true']
      exact fun hgoes => hleave ⟨g, hg, hgoes⟩
    rw [hneeds]
    show Does (do
      if g.inserted && !k.otherNeedsGuard policy set.loop set.selector then edit (Edit.erase g.op)
      return none) k none k
    rw [hstays]
    exact does_pure _

/-- Where the barrier is to go, everything hangs on its erasure. -/
theorem renewGuard_of_drop {s : State} (hneeds : policy.needsGuard s.kernel set.ty set.loop n = false)
    (hg : set.guard = some g) (hins : g.inserted = true)
    (hother : s.kernel.otherNeedsGuard policy set.loop set.selector = false) :
    renewGuard policy set n s = (edit (Edit.erase g.op) >>= fun _ => pure none) s := by
  unfold renewGuard
  rw [bind_of_ok (show currentKernel s = .ok s.kernel s from rfl), hg, hneeds]
  show (do
    if g.inserted && !s.kernel.otherNeedsGuard policy set.loop set.selector then edit (Edit.erase g.op)
    return none : Transform (Option Guard)) s = _
  rw [hins, hother]
  rfl

theorem does_renewGuard_drop (hneeds : policy.needsGuard k set.ty set.loop n = false) (hg : set.guard = some g)
    (hins : g.inserted = true) (hother : k.otherNeedsGuard policy set.loop set.selector = false)
    (h : Does (edit (Edit.erase g.op)) k () k') : Does (renewGuard policy set n) k none k' := by
  intro s hs
  subst hs
  rw [renewGuard_of_drop hneeds hg hins hother]
  exact h.bind (does_pure none) s rfl

theorem refuses_renewGuard (hneeds : policy.needsGuard k set.ty set.loop n = false) (hg : set.guard = some g)
    (hins : g.inserted = true) (hother : k.otherNeedsGuard policy set.loop set.selector = false)
    (hdead : ¬k.isLive g.op) : Refuses (renewGuard policy set n) k := by
  intro s hs
  subst hs
  rw [renewGuard_of_drop hneeds hg hins hother]
  obtain ⟨fault, hfault⟩ := edit_erase_of_not_isLive hdead
  exact ⟨_, s, bind_of_error hfault, rfl⟩

end RenewGuard

end Transform

namespace Kernel

variable {k k' : Kernel} {F : Forest}

def redirect (uses : List Use) (value : ValueId) (use : Use) (v : ValueId) : ValueId :=
  if use ∈ uses then value else v

theorem redirect_cons (use : Use) (uses : List Use) (value : ValueId) :
    (fun u v => redirect uses value u (if u = use then value else v)) = redirect (use :: uses) value := by
  funext u v
  by_cases hu : u = use
  · simp [redirect, hu]
  · simp [redirect, hu]

theorem Arranges.mem_uses_of_setOperand (h : Arranges k F) {x : OpId} {j : Nat} {value old : ValueId}
    (hrun : Edit.setOperand x j value k = .ok old k') : (⟨x, j⟩ : Use) ∈ F.uses old := by
  unfold Edit.setOperand at hrun
  split at hrun
  · cases hrun
  · rename_i op hop
    have hinstr : k.instr? x = some op.instr := by rw [instr?, op?_of_getOp hop]; rfl
    rw [Instr.exchange?_eq] at hrun
    cases hoperand : op.instr.operands[j]? with
    | some w =>
      rw [hoperand] at hrun
      cases hrun
      exact Forest.mem_uses.mpr ⟨op.instr, h.mem_nodes_iff.mpr hinstr, hoperand⟩
    | none =>
      rw [hoperand] at hrun
      cases hrun

theorem Stores.redirect_one (h : Stores k F) {use : Use} {old : ValueId} (huse : use ∈ F.uses old)
    (value : ValueId) :
    ∃ k', Edit.setOperand use.user use.operand value k = .ok old k' ∧
      Becomes k k' F (.rebinding fun u v => if u = use then value else v) ∧ k'.ops.size = k.ops.size ∧
      ∀ u w, u ≠ use → u ∈ F.uses w →
        u ∈ (F.rewrite (.rebinding fun u v => if u = use then value else v)).uses w := by
  obtain ⟨i, hi, hold⟩ := Forest.mem_uses.mp huse
  obtain ⟨k', hrun, hstores, hsize, hvalues⟩ := h.setOperand hi hold value
  refine ⟨k', hrun, { extends_of_values (Nat.le_of_eq hsize.symm) hvalues with
    stores := hstores, flat := Rewriting.flat_rebinding _ }, hsize, fun u w hne hu => ?_⟩
  obtain ⟨j, hj, hw⟩ := Forest.mem_uses.mp hu
  refine Forest.mem_uses.mpr ⟨j.mapOperands fun m v => if ⟨u.user, m⟩ = use then value else v, ?_, ?_⟩
  · refine (Forest.mem_nodes_rewrite h.plain).mpr ⟨_, hj, ?_⟩
    rw [Rewriting.image_rebinding]
    exact List.mem_singleton_self _
  · rw [Instr.operands_mapOperands, List.getElem?_mapIdx, hw]
    exact congrArg some (if_neg hne)

/-- A walk that exchanges one operand after the other, all of them reading the same value. -/
theorem Stores.redirect_all {α : Type} (g : α → Use) (t : List α → Transform Unit) {old value : ValueId}
    (hnil : t [] = pure ())
    (hcons : ∀ {x xs k k₁ k₂}, Edit.setOperand (g x).user (g x).operand value k = .ok old k₁ →
      Transform.Does (t xs) k₁ () k₂ → Transform.Does (t (x :: xs)) k () k₂)
    (h : Stores k F) {xs : List α} (huses : ∀ use ∈ xs.map g, use ∈ F.uses old) (hnodup : (xs.map g).Nodup) :
    ∃ k', Transform.Does (t xs) k () k' ∧ Becomes k k' F (.rebinding (redirect (xs.map g) value)) ∧
      k'.ops.size = k.ops.size := by
  induction xs generalizing k F with
  | nil =>
    have hid : F.rewrite (.rebinding (redirect [] value)) = F := by
      refine Forest.rewrite_eq_self h.plain fun n _ => ?_
      have hf : (fun m => redirect [] value ⟨n.1, m⟩) = fun _ v => v := by
        funext m v
        simp [redirect]
      rw [Rewriting.image_rebinding, hf, Instr.mapOperands_id]
    refine ⟨k, by rw [hnil]; exact Transform.does_pure (), { Extends.refl k with
      stores := ?_, flat := Rewriting.flat_rebinding _ }, rfl⟩
    rw [List.map_nil, hid]
    exact h
  | cons x xs ih =>
    rw [List.map_cons] at huses hnodup
    obtain ⟨hnotMem, hrest⟩ := List.nodup_cons.mp hnodup
    obtain ⟨k₁, hrun₁, hbecomes₁, hsize₁, hkeep⟩ := h.redirect_one (huses _ (List.mem_cons_self ..)) value
    obtain ⟨k₂, hdoes, hbecomes₂, hsize₂⟩ := ih hbecomes₁.stores (fun use huse =>
      hkeep use old (fun e => hnotMem (e ▸ huse)) (huses use (List.mem_cons_of_mem _ huse))) hrest
    refine ⟨k₂, hcons hrun₁ hdoes, ?_, hsize₂.trans hsize₁⟩
    refine { hbecomes₁.toExtends.trans hbecomes₂.toExtends with stores := ?_, flat := Rewriting.flat_rebinding _ }
    have hstores := hbecomes₂.stores
    rw [rewrite_rebinding_rebinding h.plain, redirect_cons] at hstores
    rw [List.map_cons]
    exact hstores

theorem Stores.rebind (h : Stores k F) {old : ValueId} {uses : List Use} (huses : ∀ use ∈ uses, use ∈ F.uses old)
    (hnodup : uses.Nodup) (value : ValueId) :
    ∃ k', Transform.Does (Transform.rebind value uses) k () k' ∧
      Becomes k k' F (.rebinding (redirect uses value)) ∧ k'.ops.size = k.ops.size := by
  have hcons : ∀ {use uses k k₁ k₂}, Edit.setOperand (id use).user (id use).operand value k = .ok old k₁ →
      Transform.Does (Transform.rebind value uses) k₁ () k₂ →
        Transform.Does (Transform.rebind value (use :: uses)) k () k₂ := by
    intro use uses k k₁ k₂ hrun hdoes
    exact (Transform.does_edit hrun).bind ((Transform.does_record _ _ _).bind hdoes)
  rw [← List.map_id uses] at huses hnodup
  have hall := h.redirect_all id (Transform.rebind value) rfl hcons huses hnodup
  rwa [List.map_id] at hall

theorem Stores.rebindFrom (h : Stores k F) {old : ValueId} {bindings : List Binding}
    (huses : ∀ use ∈ bindings.map Binding.use, use ∈ F.uses old) (hnodup : (bindings.map Binding.use).Nodup)
    (value : ValueId) :
    ∃ k', Transform.Does (Transform.rebindFrom old value bindings) k () k' ∧
      Becomes k k' F (.rebinding (redirect (bindings.map Binding.use) value)) ∧ k'.ops.size = k.ops.size := by
  refine h.redirect_all Binding.use (Transform.rebindFrom old value) rfl ?_ huses hnodup
  intro binding bindings k k₁ k₂ hrun hdoes
  rw [Transform.rebindFrom]
  refine (Transform.does_edit hrun).bind ?_
  rw [if_pos rfl]
  exact (Transform.does_record _ _ _).bind hdoes

end Kernel
end SlotRotation
