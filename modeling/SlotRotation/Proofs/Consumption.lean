import SlotRotation.Proofs.Lasting
import SlotRotation.Proofs.Stages

/-! Ids are never used again. An op that is erased stays so whatever is done to the kernel, so a site that was
expanded and a set that was resized are never taken for one that is in place. -/

namespace SlotRotation

namespace Kernel

variable {k k' k'' : Kernel} {P : Instr → Prop} {x : OpId}

/-- Whatever is live in `k'` was live in `k` or is new. What is new satisfies `P`, and what is old still does if it
did. -/
structure Descends (P : Instr → Prop) (k k' : Kernel) : Prop where
  size : k.ops.size ≤ k'.ops.size
  origin : ∀ x op', k'.op? x = some op' →
    k.ops.size ≤ x.index ∧ P op'.instr ∨ ∃ op, k.op? x = some op ∧ (P op.instr → P op'.instr)

theorem Descends.of_ops (h : k'.ops = k.ops) : Descends P k k' := by
  refine ⟨Nat.le_of_eq (by rw [h]), fun x op' hx => Or.inr ⟨op', ?_, id⟩⟩
  rwa [op?, h] at hx

theorem Descends.trans (h : Descends P k k') (h' : Descends P k' k'') : Descends P k k'' := by
  refine ⟨Nat.le_trans h.size h'.size, fun x op'' hx => ?_⟩
  rcases h'.origin x op'' hx with ⟨hnew, hP⟩ | ⟨op', hx', hP'⟩
  · exact Or.inl ⟨Nat.le_trans h.size hnew, hP⟩
  · rcases h.origin x op' hx' with ⟨hnew, hP⟩ | ⟨op, hop, hP⟩
    · exact Or.inl ⟨hnew, hP' hP⟩
    · exact Or.inr ⟨op, hop, fun h => hP' (hP h)⟩

theorem descends_place {i : Instr} (hi : P i) (r : RegionId) (n : Nat) : Descends P k (k.place i r n) := by
  refine ⟨?_, fun x op' hx => ?_⟩
  · show k.ops.size ≤ (k.ops.push _).size
    rw [Array.size_push]
    exact Nat.le_succ _
  · rw [op?_place] at hx
    split at hx
    · rename_i heq
      cases hx
      exact Or.inl ⟨Nat.le_of_eq (by rw [heq]; rfl), hi⟩
    · exact Or.inr ⟨op', hx, id⟩

theorem descends_insert {i : Instr} (hi : P i) (point : InsertPoint) :
    Leaves (Descends P) (Edit.insert i point) := by
  refine ⟨fun k => ?_⟩
  unfold Edit.insert
  cases k.resolve point with
  | error e => exact .of_ops rfl
  | ok place =>
    have hdefined : Descends P k (k.define i k.nextOp) := .of_ops (ops_define ..)
    have howned : Descends P (k.define i k.nextOp) ((k.define i k.nextOp).own i k.nextOp) := .of_ops (ops_own ..)
    simp only
    split
    · exact hdefined
    · exact (hdefined.trans howned).trans (descends_place hi ..)

theorem descends_remove (k : Kernel) (id : OpId) (op : Op) : Descends P k (k.remove id op) := by
  refine ⟨Nat.le_of_eq (size_ops_remove ..).symm, fun x op' hx => Or.inr ⟨op', ?_, fun h => h⟩⟩
  rw [op?_remove] at hx
  split at hx
  · cases hx
  · exact hx

theorem descends_setInstr {id : OpId} {op : Op} (hop : k.op? id = some op) {i : Instr} (hi : P op.instr → P i) :
    Descends P k (k.setInstr id i) := by
  refine ⟨Nat.le_of_eq (size_ops_setInstr ..).symm, fun x op' hx => Or.inr ?_⟩
  rw [op?_setInstr hop] at hx
  split at hx
  · rename_i heq
    cases hx
    exact ⟨op, heq ▸ hop, hi⟩
  · exact ⟨op', hx, fun h => h⟩

theorem lasts_descends (hbare : ∀ i : Instr, i.Bare → P i)
    (hexchange : ∀ (i i' : Instr) n v old, i.exchange? n v = some (old, i') → P i → P i') : Lasts (Descends P) where
  refl _ := .of_ops rfl
  trans _ _ _ := Descends.trans
  newValue _ := ⟨fun _ => .of_ops rfl⟩
  insert hi point := descends_insert (hbare _ hi) point
  erase id := by
    refine ⟨fun k => ?_⟩
    unfold Edit.erase
    split
    · exact .of_ops rfl
    · exact descends_remove ..
  setOperand user operand value := by
    refine ⟨fun k => ?_⟩
    unfold Edit.setOperand
    split
    · exact .of_ops rfl
    · rename_i op hop
      split
      · rename_i old i hi
        exact descends_setInstr (op?_of_getOp hop) (hexchange _ _ _ _ _ hi)
      · exact .of_ops rfl
  strip k id := by
    unfold updateAlloc
    split
    · rename_i a ha
      obtain ⟨i, hi, -⟩ := Option.bind_eq_some_iff.mp ha
      obtain ⟨op, hop, -⟩ := Option.map_eq_some_iff.mp hi
      exact descends_setInstr hop fun _ => hbare _ (Instr.bare_alloc rfl)
    · exact .of_ops rfl

def Erased (k : Kernel) (x : OpId) : Prop := x.index < k.ops.size ∧ k.op? x = none

theorem Erased.descends (h : k.Erased x) (hk : Descends P k k') : k'.Erased x := by
  refine ⟨Nat.lt_of_lt_of_le h.1 hk.size, Option.eq_none_iff_forall_not_mem.mpr fun op' hx => ?_⟩
  rcases hk.origin x op' hx with ⟨hnew, -⟩ | ⟨op, hop, -⟩
  · exact absurd h.1 (Nat.not_lt.mpr hnew)
  · cases h.2.symm.trans hop

theorem erased_of_erase {u : Unit} (h : Edit.erase x k = .ok u k') : k'.Erased x := by
  unfold Edit.erase at h
  split at h
  · cases h
  · rename_i op hop
    cases h
    constructor
    · rw [size_ops_remove]
      exact lt_size_of_op? (op?_of_getOp hop)
    · rw [op?_remove, if_pos (by simp)]

theorem lasts_gone : Lasts (Descends fun _ => True) :=
  lasts_descends (fun _ _ => trivial) fun _ _ _ _ _ _ _ => trivial

end Kernel

structure Site.Spent (site : Site) (k : Kernel) : Prop where
  erased : k.Erased site.alloc
  element : site.checkElement = .ok ()

structure SlotSet.Spent (set : SlotSet) (k : Kernel) : Prop where
  erased : k.Erased set.selector
  inhabited : ∃ last, set.lastSlot = .ok last

theorem slotsAsked_of_le {factor : Int64} (h : 1 ≤ factor) : slotsAsked factor = .ok factor.toNatClampNeg :=
  if_neg (Int64.not_lt.mpr h)

namespace Transform

open Kernel

variable {policy : Policy} {site : Site} {set set' : SlotSet} {factor : Int64} {s s' : State}

theorem lasts_gone : Lasts (Descends fun _ => True) fun s s' => s.kernel.Descends (fun _ => True) s'.kernel :=
  .ofKernel Kernel.lasts_gone

theorem spent_of_expand (h : expand policy site factor s = .ok set s') : site.Spent s'.kernel := by
  obtain ⟨e, _, _, _, _, _, _, _, he, -, -, -, -, -, -, -, herase, -, -⟩ := expand_stages h
  refine ⟨erased_of_erase (edit_eq_ok herase).1, ?_⟩
  obtain ⟨_, -, he⟩ := except_bind_eq_ok he
  obtain ⟨_, helement, -⟩ := except_bind_eq_ok he
  exact helement

theorem erased_of_regroup {strategy : Strategy} {target : Nat} {last : Slot} {index : ValueId} {point : InsertPoint}
    (h : regroup set strategy target last index point s = .ok set' s') : s'.kernel.Erased set.selector := by
  obtain ⟨kept, added, s₁, s₂, s₃, s₄, -, hselector, hreleases, hdiscard, -, -, rfl⟩ := regroup_stages h
  -- a selector is moved by making another one and erasing it
  have herased : s₂.kernel.Erased set.selector := by
    obtain ⟨_, _, -, hmove⟩ := bind_eq_ok (edit_eq_ok hselector).1
    obtain ⟨_, _, herase, hmove⟩ := bind_eq_ok hmove
    cases hmove
    exact erased_of_erase herase
  have hregrouped := (lasts_gone.edit (lasts_gone.edits.regroupReleases ..)).ok hreleases
  have hdiscarded := (lasts_gone.discard _).ok hdiscard
  exact (herased.descends hregrouped).descends hdiscarded

theorem erased_of_reallocate {target : Nat} {last : Slot} {index : ValueId} {point : InsertPoint}
    (h : reallocate set target last index point s = .ok set' s') : s'.kernel.Erased set.selector := by
  obtain ⟨s₁, s₂, s₃, s₄, s₅, s₆, -, -, -, -, herase, hdiscard, -, rfl⟩ := reallocate_stages h
  have herased := erased_of_erase (edit_eq_ok herase).1
  have hdiscarded := (lasts_gone.discard _).ok hdiscard
  exact herased.descends hdiscarded

/-- Each way to resize a set takes its selector away, also where all else is kept. -/
theorem spent_of_resize (h : resize policy set factor s = .ok set' s') : set.Spent s'.kernel := by
  obtain ⟨target, last, top, resized, s₁, s₂, s₃, -, hlast, -, -, -, -, hresized, herase, -⟩ := resize_stages h
  have herased : s₃.kernel.Erased set.selector := by
    rcases hresized with ⟨-, hreallocate⟩ | ⟨strategy, -, -, hregroup⟩
    · exact erased_of_reallocate hreallocate
    · exact erased_of_regroup hregroup
  exact ⟨herased.descends ((lasts_gone.edit (lasts_gone.edits.eraseAll _)).ok herase), last, hlast⟩

theorem expand_of_spent (h : site.Spent s.kernel) (hfactor : 1 ≤ factor) :
    ∃ fault, expand policy site factor s = .error (.malformed fault) s := by
  refine ⟨.staleSite site.alloc site.buffer s.kernel.name, query_bind_error ?_⟩
  have hgone : site.checkAlloc s.kernel = .error (.malformed (.staleSite site.alloc site.buffer s.kernel.name)) := by
    simp [Site.checkAlloc, alloc?, instr?, h.erased.2]
  -- the factor and the element type are looked at first, and neither is at fault
  simp only [Site.expansion, slotsAsked_of_le hfactor, h.element, hgone]
  rfl

theorem checkIntact_of_erased {k : Kernel} (h : k.Erased set.selector) :
    ∃ fault, set.checkIntact k = .error (.malformed fault) := by
  unfold SlotSet.checkIntact SlotSet.checkLoop
  split
  · unfold SlotSet.checkMembers
    split
    · exact ⟨_, rfl⟩
    · rename_i hlive
      have hmember : set.selector ∈ set.members := by simp [SlotSet.members]
      exact absurd (List.find?_eq_none.mp hlive _ hmember) (by simp [isLive, h.2])
  · exact ⟨_, rfl⟩

theorem resize_of_spent (h : set.Spent s.kernel) (hfactor : 1 ≤ factor) :
    ∃ fault, resize policy set factor s = .error (.malformed fault) s := by
  obtain ⟨fault, hfault⟩ := checkIntact_of_erased h.erased
  obtain ⟨last, hlast⟩ := h.inhabited
  refine ⟨fault, ?_⟩
  unfold resize
  rw [query_bind_ok (slotsAsked_of_le hfactor), query_bind_ok hlast]
  exact query_bind_error hfault

inductive Action where
  | newValue (ty : ValueType)
  | newRegion
  | insert (instr : Instr) (point : InsertPoint)
  | erase (op : OpId)
  | setOperand (user : OpId) (operand : Nat) (value : ValueId)
  | survey
  | expand (policy : Policy) (site : Site) (factor : Int64)
  | resize (policy : Policy) (set : SlotSet) (factor : Int64)

def Action.run : Action → State → State
  | newValue ty, s => leftBy (edit (Edit.newValue ty) s)
  | newRegion, s => leftBy (edit Edit.newRegion s)
  | insert instr point, s => leftBy (edit (Edit.insert instr point) s)
  | erase op, s => leftBy (edit (Edit.erase op) s)
  | setOperand user operand value, s => leftBy (edit (Edit.setOperand user operand value) s)
  | survey, s => (Transform.survey s).2
  | expand policy site factor, s => leftBy (Transform.expand policy site factor s)
  | resize policy set factor, s => leftBy (Transform.resize policy set factor s)

def State.after (s : State) (actions : List Action) : State := actions.foldl (fun s action => action.run s) s

theorem Action.descends (action : Action) (s : State) : s.kernel.Descends (fun _ => True) (action.run s).kernel := by
  cases action with
  | newValue ty => exact (lasts_gone.edit (lasts_gone.edits.newValue ty)).related s
  | newRegion => exact (lasts_gone.edit (e := Edit.newRegion) ⟨fun _ => .of_ops rfl⟩).related s
  | insert instr point => exact (lasts_gone.edit (descends_insert trivial point)).related s
  | erase op => exact (lasts_gone.edit (lasts_gone.edits.erase op)).related s
  | setOperand user operand value => exact (lasts_gone.edit (lasts_gone.edits.setOperand ..)).related s
  | survey => exact lasts_gone.survey s
  | expand policy site factor => exact (lasts_gone.expand policy site factor).related s
  | resize policy set factor => exact (lasts_gone.resize policy set factor).related s

theorem State.descends_after (s : State) (actions : List Action) :
    s.kernel.Descends (fun _ => True) (s.after actions).kernel := by
  induction actions generalizing s with
  | nil => exact .of_ops rfl
  | cons action actions ih => exact (action.descends s).trans (ih (action.run s))

/-- A set that was resized and a site that was expanded are used up: whatever is done afterwards, they are found
malformed, and nothing is changed or logged. -/
theorem consumed_once (s : State) (later : List Action) (policy policy' : Policy) (factor : Int64) {factor' : Int64}
    (hfactor : 1 ≤ factor') :
    (∀ (set set' : SlotSet) (s' : State), resize policy set factor s = .ok set' s' →
        ∃ fault, resize policy' set factor' (s'.after later) = .error (.malformed fault) (s'.after later)) ∧
      ∀ (site : Site) (set : SlotSet) (s' : State), expand policy site factor s = .ok set s' →
        ∃ fault, expand policy' site factor' (s'.after later) = .error (.malformed fault) (s'.after later) := by
  constructor
  · intro set set' s' h
    have hspent := spent_of_resize h
    exact resize_of_spent ⟨hspent.erased.descends (s'.descends_after later), hspent.inhabited⟩ hfactor
  · intro site set s' h
    have hspent := spent_of_expand h
    exact expand_of_spent ⟨hspent.erased.descends (s'.descends_after later), hspent.element⟩ hfactor

/-- A set that keeps its slot and its slot count is used up all the same. -/
theorem consumed_once_tilePair :
    let start : State := { kernel := Kernel.build "pair" .unknown Stmt.tilePair, pass := "slots" }
    let site : Site := ⟨⟨0⟩, ⟨0⟩, .tile, 1, some 2⟩
    ∃ (set set' : SlotSet) (s₁ s₂ : State), expand {} site 1 (survey start).2 = .ok set s₁ ∧
      resize {} set 1 s₁ = .ok set' s₂ ∧ set'.slots.map Slot.alloc = set.slots.map Slot.alloc ∧
      let later : List Action := [.insert .barrier (.first Kernel.body), .erase ⟨3⟩, .resize {} set' 3]
      (∃ fault, expand {} site 2 (s₁.after later) = .error (.malformed fault) (s₁.after later)) ∧
        ∃ fault, resize {} set 1 (s₂.after later) = .error (.malformed fault) (s₂.after later) := by
  intro start site
  let calls : Transform (SlotSet × SlotSet) := do
    let set ← expand {} site 1
    let set' ← resize {} set 1
    pure (set, set')
  have hkept : ((attempt calls (survey start).2).1.map fun sets =>
      decide (sets.2.slots.map Slot.alloc = sets.1.slots.map Slot.alloc)) = .ok true := by decide +kernel
  cases hcalls : calls (survey start).2 with
  | error err s => rw [attempt_of_error hcalls] at hkept; cases hkept
  | ok sets s₂ =>
    rw [attempt_of_ok hcalls, Except.map, Except.ok.injEq] at hkept
    obtain ⟨set, s₁, hexpand, hcalls⟩ := bind_eq_ok hcalls
    obtain ⟨set', _, hresize, hcalls⟩ := bind_eq_ok hcalls
    cases hcalls
    exact ⟨set, set', s₁, s₂, hexpand, hresize, of_decide_eq_true hkept,
      (consumed_once _ _ {} {} 1 (by decide)).2 site set s₁ hexpand,
      (consumed_once _ _ {} {} 1 (by decide)).1 set set' s₂ hresize⟩

end Transform
end SlotRotation
