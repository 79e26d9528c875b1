import SlotRotation.Proofs.Overwriting

/-! What holds between the start and the end of a run whenever it holds across each of its steps: values stay bound,
and bound to what their definitions produce, values that no op of the run defines stay as they are, and visits add
up. -/

namespace SlotRotation

/-- `d` may be the result of the instruction, as far as that can be told without running it. -/
def Produces (i : Instr) (d : Datum) : Prop :=
  (∀ v c, i = .constant v c → d = .word c) ∧ ∀ a, i = .alloc a → ∃ n, d = .buffer ⟨a.result, n⟩

def Machine.Respects (m : Machine) (F : Forest) : Prop :=
  ∀ n ∈ F.nodes, ∀ v d, n.2.result? = some v → m.env v = some d → Produces n.2 d

namespace Semantics

variable {sem : Semantics} {m m' : Machine} {F G : Forest} {P : Machine → Machine → Prop}

theorem iterate_within (hrefl : ∀ m, P m m) (htrans : ∀ {m₁ m₂ m₃}, P m₁ m₂ → P m₂ m₃ → P m₁ m₃)
    {body : Machine → Option Machine} {start : Nat → Machine → Machine} (hstart : ∀ i m, P m (start i m))
    (hbody : ∀ {m m'}, body m = some m' → P m m') {n i : Nat} (hrun : iterate body start n i m = some m') :
    P m m' := by
  induction n generalizing i m with
  | zero =>
    cases hrun
    exact hrefl _
  | succ n ih =>
    obtain ⟨m₁, hone, hrest⟩ := Option.bind_eq_some_iff.mp hrun
    exact htrans (htrans (hstart i m) (hbody hone)) (ih hrest)

structure Invariant (sem : Semantics) (G : Forest) (P : Machine → Machine → Prop) : Prop where
  refl : ∀ m, P m m
  trans : ∀ {m₁ m₂ m₃}, P m₁ m₂ → P m₂ m₃ → P m₁ m₃
  visit : ∀ m v, P m (m.visit v)
  step : ∀ n ∈ G.nodes, ∀ {m m'}, sem.step m n.2 = some m' → P m m'
  enter : ∀ id l, (id, .loop l) ∈ G.nodes → ∀ m n, P m (m.define l.induction (.word n))

namespace Invariant

theorem mono (h : Invariant sem F P) (hG : ∀ n ∈ G.nodes, n ∈ F.nodes) : Invariant sem G P where
  __ := h
  step n hn := h.step n (hG n hn)
  enter id l hl := h.enter id l (hG _ hl)

theorem exec (h : Invariant sem G P) (hrun : sem.exec G m = some m') : P m m' := by
  induction G generalizing m m' with
  | nil =>
    cases hrun
    exact h.refl _
  | op id i rest ih =>
    obtain ⟨m₁, hone, hrest⟩ := Option.bind_eq_some_iff.mp hrun
    have hstep := h.step (id, i) List.mem_cons_self hone
    exact h.trans (h.trans (h.visit m _) hstep) (ih (h.mono fun n hn => List.mem_cons_of_mem _ hn) hrest)
  | loop id l body rest ihb ihr =>
    simp only [Semantics.exec, Option.bind_eq_bind, Option.bind_eq_some_iff] at hrun
    obtain ⟨lower, -, upper, -, step, -, trips, -, m₁, hbody, hrest⟩ := hrun
    have hin := h.mono (G := body) fun n hn => List.mem_cons_of_mem _ (List.mem_append_left _ hn)
    have hout := h.mono (G := rest) fun n hn => List.mem_cons_of_mem _ (List.mem_append_right _ hn)
    have hstart : ∀ i m, P m (Semantics.enter id l lower step i m) := fun i m =>
      h.trans (h.visit m _) (h.enter id l List.mem_cons_self _ _)
    exact h.trans (h.trans (h.visit m _) (iterate_within h.refl h.trans hstart (ihb hin) hbody)) (ihr hout hrest)

theorem loop (h : Invariant sem G P) {id : OpId} {l : Loop} {body : Forest} (hl : (id, .loop l) ∈ G.nodes)
    (hbody : ∀ n ∈ body.nodes, n ∈ G.nodes) {lower step : Int64} {n i : Nat}
    (hrun : iterate (sem.exec body) (Semantics.enter id l lower step) n i m = some m') : P m m' :=
  iterate_within h.refl h.trans (fun _ m => h.trans (h.visit m _) (h.enter id l hl _ _)) (h.mono hbody).exec hrun

end Invariant

theorem invariant_visits (sem : Semantics) (G : Forest) : Invariant sem G fun m m' => m.visits <+: m'.visits where
  refl _ := List.prefix_rfl
  trans := List.IsPrefix.trans
  visit _ v := List.prefix_append _ [v]
  step _ _ _ _ h := (visits_step h).symm ▸ List.prefix_rfl
  enter _ _ _ _ _ := List.prefix_rfl

theorem env_writeAll (writes : List (Instance × Content)) (m : Machine) : (m.writeAll writes).env = m.env := by
  induction writes generalizing m with
  | nil => rfl
  | cons w writes ih => exact ih _

theorem env_step {i : Instr} (h : sem.step m i = some m') :
    m'.env = m.env ∨ ∃ v d, i.result? = some v ∧ Produces i d ∧ m'.env = Function.update m.env v (some d) := by
  cases i <;> simp only [step, Option.bind_eq_bind, Option.bind_eq_some_iff, Option.pure_def, Option.some.injEq,
    reduceCtorEq] at h
  case dealloc | barrier | yield | ret => exact Or.inl (congrArg Machine.env h).symm
  case fill | copy =>
    obtain ⟨_, _, _, _, rfl⟩ := h
    exact Or.inl rfl
  case store =>
    obtain ⟨_, _, _, _, _, _, rfl⟩ := h
    exact Or.inl rfl
  case compute =>
    obtain ⟨_, _, _, _, rfl⟩ := h
    exact Or.inl (env_writeAll ..)
  case alloc a =>
    subst h
    exact Or.inr ⟨_, _, rfl, ⟨by simp, fun b hb => by cases hb; exact ⟨_, rfl⟩⟩, rfl⟩
  case constant v c =>
    subst h
    exact Or.inr ⟨_, _, rfl, ⟨fun w c hc => by cases hc; rfl, by simp⟩, rfl⟩
  case load =>
    obtain ⟨_, _, _, _, rfl⟩ := h
    exact Or.inr ⟨_, _, rfl, ⟨by simp, by simp⟩, rfl⟩
  case arith | selectSlot =>
    obtain ⟨_, _, _, _, _, _, rfl⟩ := h
    exact Or.inr ⟨_, _, rfl, ⟨by simp, by simp⟩, rfl⟩

theorem invariant_frame (sem : Semantics) {v : ValueId} (hv : ∀ n ∈ G.nodes, n.2.result? ≠ some v) :
    Invariant sem G fun m m' => m'.env v = m.env v where
  refl _ := rfl
  trans h h' := h'.trans h
  visit _ _ := rfl
  step n hn m m' h := by
    rcases env_step h with henv | ⟨w, d, hw, -, henv⟩
    · rw [henv]
    · rw [henv, Function.update_of_ne]
      rintro rfl
      exact hv n hn hw
  enter id l hl m n := by
    refine Function.update_of_ne ?_ _ _
    rintro rfl
    exact hv _ hl rfl

structure Keeps (F : Forest) (m m' : Machine) : Prop where
  respects : m.Respects F → m'.Respects F
  bound : ∀ v, m.env v ≠ none → m'.env v ≠ none

theorem Keeps.of_update {v : ValueId} {d : Datum} (henv : m'.env = Function.update m.env v (some d))
    (hd : ∀ n ∈ F.nodes, n.2.result? = some v → Produces n.2 d) : Keeps F m m' := by
  refine ⟨fun hm n hn w e hw he => ?_, fun w hw => ?_⟩
  · rw [henv] at he
    by_cases heq : w = v
    · subst heq
      rw [Function.update_self, Option.some.injEq] at he
      exact he ▸ hd n hn hw
    · rw [Function.update_of_ne heq] at he
      exact hm n hn w e hw he
  · rw [henv]
    by_cases heq : w = v
    · rw [heq, Function.update_self]
      simp
    · rw [Function.update_of_ne heq]
      exact hw

theorem invariant_keeps (sem : Semantics) {k : Kernel} (hF : k.Stores F) : Invariant sem F (Keeps F) where
  refl _ := ⟨id, fun _ => id⟩
  trans h h' := ⟨fun hm => h'.respects (h.respects hm), fun v hv => h'.bound v (h.bound v hv)⟩
  visit _ _ := ⟨id, fun _ => id⟩
  step n hn m m' h := by
    rcases env_step h with henv | ⟨v, d, hv, hd, henv⟩
    · refine ⟨fun hm n hn w e hw he => hm n hn w e hw (henv ▸ he), fun w hw => henv ▸ hw⟩
    · refine Keeps.of_update henv fun n' hn' hv' => ?_
      rw [hF.result_unique hn' hn hv' hv]
      exact hd
  enter id l hl m c := by
    refine Keeps.of_update rfl fun n hn hv => ?_
    rw [hF.result_unique hn hl hv rfl]
    exact ⟨by simp, by simp⟩

end Semantics
end SlotRotation
