import SlotRotation.Proofs.Edits.Sequence
import SlotRotation.Transform.Resize

/-! A transformation that went through, taken apart: the states between its stages and the answer of each. -/

namespace SlotRotation.Transform

variable {α : Type} {policy : Policy} {site : Site} {factor : Int64} {set set' : SlotSet} {s s' : State}

theorem query_bind_eq_ok {β : Type} {q : Kernel → Except Error α} {f : α → Transform β} {b : β}
    (h : (query q >>= f) s = .ok b s') : ∃ a, q s.kernel = .ok a ∧ f a s = .ok b s' := by
  obtain ⟨a, s₁, hquery, h⟩ := bind_eq_ok h
  unfold query at hquery
  split at hquery
  · rename_i heq
    cases hquery
    exact ⟨a, heq, h⟩
  · cases hquery

theorem query_bind_error {α β : Type} {q : Kernel → Except Error α} {f : α → Transform β} {err : Error}
    (h : q s.kernel = .error err) : (query q >>= f) s = .error err s := by
  apply bind_of_error
  rw [query, h]

theorem query_bind_ok {α β : Type} {q : Kernel → Except Error α} {f : α → Transform β} {a : α}
    (h : q s.kernel = .ok a) : (query q >>= f) s = f a s := by
  apply bind_of_ok
  rw [query, h]

theorem attempt_of_ok {t : Transform α} {a : α} (h : t s = .ok a s') : attempt t s = (.ok a, s') := by
  rw [attempt, h]

theorem attempt_of_error {t : Transform α} {err : Error} (h : t s = .error err s') :
    attempt t s = (.error err, s') := by
  rw [attempt, h]

theorem edit_eq_ok {e : Edit α} {a : α} (h : edit e s = .ok a s') :
    e s.kernel = .ok a s'.kernel ∧ s' = { s with kernel := s'.kernel } := by
  unfold edit at h
  split at h
  · rename_i heq
    cases h
    exact ⟨heq, rfl⟩
  · cases h

theorem bind_edit_eq_ok {β : Type} {t : Transform α} {e : Edit Unit} {g : α → β} {b : β}
    (h : (do let a ← t; edit e; return g a) s = .ok b s') :
    ∃ a s₁, t s = .ok a s₁ ∧ edit e s₁ = .ok () s' ∧ b = g a := by
  obtain ⟨a, s₁, ht, h⟩ := bind_eq_ok h
  obtain ⟨_, s₂, he, h⟩ := bind_eq_ok h
  cases h
  exact ⟨a, s₁, ht, he, rfl⟩

theorem le_of_deriveRotation {a : OpId} {n : Nat} {point : InsertPoint} {rotation : Rotation}
    (h : deriveRotation a n point s = .ok rotation s') : n ≤ Int64.maxValue.toInt := by
  obtain ⟨l, s₁, -, h⟩ := bind_eq_ok h
  obtain ⟨_, s₂, hedit, -⟩ := bind_eq_ok h
  have hadd := (edit_eq_ok hedit).1
  unfold Edit.addRotation at hadd
  split_ifs at hadd with hlarge hone
  · cases hadd
  · exact Int.not_lt.mp hlarge
  · exact Int.not_lt.mp hlarge

theorem expand_stages (h : expand policy site factor s = .ok set s') :
    ∃ e top s₁ s₂ s₃ s₄ s₅ s₆, site.expansion policy s.kernel factor = .ok e ∧
      edit (Edit.allocateSlots site.ty (fun _ => .fresh) 0 e.slots (.after site.alloc)) s = .ok set.slots s₁ ∧
      guardFor policy site.ty e.loop e.slots (s₁.record .slotsCreated site.alloc s!"{e.slots} x {site.ty}") =
        .ok set.guard s₂ ∧
      s₂.kernel.bodyTop e.loop = .ok top ∧
      deriveRotation e.loop e.slots top s₂ = .ok set.rotation s₃ ∧
      edit (Edit.selectAmong site.ty set.slots set.rotation.value (top.past set.rotation.ops)) s₃ =
        .ok (set.selector, set.selected) s₄ ∧
      rebind set.selected e.accesses s₄ = .ok () s₅ ∧
      edit (Edit.splitReleases set.slots e.releases) s₅ = .ok set.releases s₆ ∧
      edit (Edit.erase site.alloc) s₆ = .ok () s' ∧
      checkLeftover site.buffer s'.kernel = .ok () ∧
      set.ty = site.ty ∧ set.loop = e.loop ∧
      set.bindings = e.accesses.map fun use => { use, selector := set.selector } := by
  obtain ⟨e, he, h⟩ := query_bind_eq_ok h
  obtain ⟨slots, s₁, hslots, h⟩ := bind_eq_ok h
  obtain ⟨_, s₁', hrecord, h⟩ := bind_eq_ok h
  cases hrecord
  obtain ⟨guard, s₂, hguard, h⟩ := bind_eq_ok h
  obtain ⟨top, htop, h⟩ := query_bind_eq_ok h
  obtain ⟨rotation, s₃, hrotation, h⟩ := bind_eq_ok h
  obtain ⟨⟨selector, selected⟩, s₄, hselect, h⟩ := bind_eq_ok h
  obtain ⟨_, s₅, hrebind, h⟩ := bind_eq_ok h
  obtain ⟨releases, s₆, hreleases, h⟩ := bind_eq_ok h
  obtain ⟨_, s₇, herase, h⟩ := bind_eq_ok h
  obtain ⟨_, hleft, h⟩ := query_bind_eq_ok h
  cases h
  exact ⟨e, top, s₁, s₂, s₃, s₄, s₅, s₆, he, hslots, hguard, htop, hrotation, hselect, hrebind, hreleases, herase,
    hleft, rfl, rfl, rfl⟩

theorem regroup_stages {strategy : Strategy} {target : Nat} {last : Slot} {index : ValueId} {point : InsertPoint}
    (h : regroup set strategy target last index point s = .ok set' s') :
    ∃ kept added s₁ s₂ s₃ s₄,
      edit (Edit.allocateSlots set.ty (fun _ => .fresh) set.factor (target - set.factor) (.after last.alloc)) s =
        .ok added s₁ ∧
      edit (Edit.moveSelector set (kept ++ added) index point) s₁ = .ok set'.selector s₂ ∧
      edit (Edit.regroupReleases target added set.releases) s₂ = .ok set'.releases s₃ ∧
      discard (set.slots.drop target) s₃ = .ok () s₄ ∧
      kept = (set.slots.take target).map (fun slot => { slot with origin := .reused slot.ordinal }) ∧
      set' = { set with slots := kept ++ added, selector := set'.selector, releases := set'.releases } ∧
      s' = s₄.record .slotsRegrouped set'.selector s!"{set.factor} -> {target} slots ({strategy.text})" := by
  obtain ⟨added, s₁, hadded, h⟩ := bind_eq_ok h
  obtain ⟨selector, s₂, hselector, h⟩ := bind_eq_ok h
  obtain ⟨releases, s₃, hreleases, h⟩ := bind_eq_ok h
  obtain ⟨_, s₄, hdiscard, h⟩ := bind_eq_ok h
  obtain ⟨_, s₅, hrecord, h⟩ := bind_eq_ok h
  cases hrecord
  cases h
  exact ⟨_, added, s₁, s₂, s₃, s₄, hadded, hselector, hreleases, hdiscard, rfl, rfl, rfl⟩

theorem reallocate_stages {target : Nat} {last : Slot} {index : ValueId} {point : InsertPoint}
    (h : reallocate set target last index point s = .ok set' s') :
    ∃ s₁ s₂ s₃ s₄ s₅ s₆,
      edit (Edit.allocateSlots set.ty (fun ordinal => .inherited (ordinal % set.factor)) 0 target
        (.after last.alloc)) s = .ok set'.slots s₁ ∧
      edit (Edit.selectAmong set.ty set'.slots index point) s₁ = .ok (set'.selector, set'.selected) s₂ ∧
      rebindFrom set.selected set'.selected set.bindings s₂ = .ok () s₃ ∧
      edit (Edit.replaceReleases set'.slots set.releases) s₃ = .ok set'.releases s₄ ∧
      edit (Edit.erase set.selector) s₄ = .ok () s₅ ∧
      discard set.slots s₅ = .ok () s₆ ∧
      set' = { set with
        slots := set'.slots, selector := set'.selector, selected := set'.selected, releases := set'.releases } ∧
      s' = s₆.record .slotsReallocated set'.selector s!"{set.factor} -> {target} slots" := by
  obtain ⟨slots, s₁, hslots, h⟩ := bind_eq_ok h
  obtain ⟨⟨selector, selected⟩, s₂, hselect, h⟩ := bind_eq_ok h
  obtain ⟨_, s₃, hrebind, h⟩ := bind_eq_ok h
  obtain ⟨releases, s₄, hreleases, h⟩ := bind_eq_ok h
  obtain ⟨_, s₅, herase, h⟩ := bind_eq_ok h
  obtain ⟨_, s₆, hdiscard, h⟩ := bind_eq_ok h
  obtain ⟨_, s₇, hrecord, h⟩ := bind_eq_ok h
  cases hrecord
  cases h
  exact ⟨s₁, s₂, s₃, s₄, s₅, s₆, hslots, hselect, hrebind, hreleases, herase, hdiscard, rfl, rfl⟩

theorem resize_stages (h : resize policy set factor s = .ok set' s') :
    ∃ target last top resized s₁ s₂ s₃, slotsAsked factor = .ok target ∧ set.lastSlot = .ok last ∧
      set.checkIntact s.kernel = .ok () ∧
      renewGuard policy set target s = .ok set'.guard s₁ ∧
      s₁.kernel.bodyTop set.loop = .ok top ∧
      deriveRotation set.loop target top s₁ = .ok set'.rotation s₂ ∧
      (Strategy.choose set.factor target = .reallocate ∧
          reallocate set target last set'.rotation.value (top.past set'.rotation.ops) s₂ = .ok resized s₃ ∨
        ∃ strategy, Strategy.choose set.factor target = strategy ∧ strategy ≠ .reallocate ∧
          regroup set strategy target last set'.rotation.value (top.past set'.rotation.ops) s₂ = .ok resized s₃) ∧
      edit (Edit.eraseAll set.rotation.ops.reverse) s₃ = .ok () s' ∧
      set' = { resized with
        rotation := set'.rotation, guard := set'.guard
        bindings := set.bindings.map fun binding => { binding with selector := resized.selector } } := by
  obtain ⟨target, htarget, h⟩ := query_bind_eq_ok h
  obtain ⟨last, hlast, h⟩ := query_bind_eq_ok h
  obtain ⟨_, hintact, h⟩ := query_bind_eq_ok h
  obtain ⟨guard, s₁, hguard, h⟩ := bind_eq_ok h
  obtain ⟨top, htop, h⟩ := query_bind_eq_ok h
  obtain ⟨rotation, s₂, hrotation, h⟩ := bind_eq_ok h
  dsimp only at h
  -- both ways end with the same two stages, which `bind_edit_eq_ok` takes off
  cases hchoose : Strategy.choose set.factor target with
  | reallocate =>
    rw [hchoose] at h
    obtain ⟨resized, s₃, hresized, herase, rfl⟩ := bind_edit_eq_ok h
    exact ⟨target, last, top, resized, s₁, s₂, s₃, htarget, hlast, hintact, hguard, htop, hrotation,
      Or.inl ⟨hchoose, hresized⟩, herase, rfl⟩
  | shrink | grow =>
    rw [hchoose] at h
    obtain ⟨resized, s₃, hresized, herase, rfl⟩ := bind_edit_eq_ok h
    exact ⟨target, last, top, resized, s₁, s₂, s₃, htarget, hlast, hintact, hguard, htop, hrotation,
      Or.inr ⟨_, hchoose, nofun, hresized⟩, herase, rfl⟩

end SlotRotation.Transform
