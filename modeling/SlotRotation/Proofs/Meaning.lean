import SlotRotation.Proofs.Spreading

/-! An expansion and any number of resizings keep the meaning of a kernel: the run loads the same values in the same
order, and leaves the same contents in all other buffers. -/

namespace SlotRotation

/-- A loop whose induction value leaves the lower bound so far behind that the distance is no word. -/
def Stmt.wideLoop : List Stmt :=
  [.alloc .tile (some 2) none, .constant (-2 ^ 63), .constant 1, .constant (2 ^ 62),
    .loop ⟨1⟩ ⟨2⟩ ⟨3⟩ none [.fill ⟨0⟩ ⟨2⟩, .load ⟨0⟩ [⟨2⟩]]]

theorem Semantics.step_stripped (sem : Semantics) (m : Machine) (i : Instr) :
    sem.step m i.stripped = sem.step m i := by
  cases i <;> rfl

theorem Semantics.exec_stripping (sem : Semantics) (ids : List OpId) (G : Forest) :
    sem.exec (G.rewrite (.stripping ids)) = sem.exec G := by
  induction G with
  | nil => rfl
  | op id i rest ih =>
    funext m
    have hstep : sem.step (m.visit (.op id)) (if id ∈ ids then i.stripped else i) =
        sem.step (m.visit (.op id)) i := by
      split
      · exact sem.step_stripped _ i
      · rfl
    rw [Forest.rewrite, exec_prepend, exec, ← ih, ← hstep, Rewriting.stripping]
    simp [steps]
  | loop id l body rest ihb ihr =>
    funext m
    simp only [Forest.rewrite, Rewriting.stripping, Forest.prepend_nil, exec]
    rw [← Rewriting.stripping, ihb, ihr]

namespace Kernel

variable {k k' : Kernel} {F : Forest} {ids : List OpId}

theorem Stores.accesses_stripping (h : k.Stores F) (h' : k'.Stores (F.rewrite (.stripping ids))) (buffer : ValueId) :
    k'.accessesIn buffer = k.accessesIn buffer ∧ k'.overwrites = k.overwrites := by
  have hdead : ∀ id, id ∉ F.ids → k.op? id = none ∧ k'.op? id = none := by
    intro id hid
    have hid' : id ∉ (F.rewrite (.stripping ids)).ids := by
      intro hmem
      obtain ⟨j, hj⟩ := Forest.exists_mem_nodes hmem
      obtain ⟨i, hi, -⟩ := (Forest.mem_stripping h.plain ids).mp hj
      exact hid (Forest.mem_ids_of_mem_nodes hi)
    exact ⟨Option.not_isSome_iff_eq_none.mp fun hlive => hid (h.isLive_iff.mp hlive),
      Option.not_isSome_iff_eq_none.mp fun hlive => hid' (h'.isLive_iff.mp hlive)⟩
  have hlive : ∀ id ∈ F.ids, ∃ i j : Instr, (id, i) ∈ F.nodes ∧ (id, j) ∈ (F.rewrite (.stripping ids)).nodes ∧
      (j = i ∨ j = i.stripped) := by
    intro id hid
    obtain ⟨i, hi⟩ := Forest.exists_mem_nodes hid
    refine ⟨i, if id ∈ ids then i.stripped else i, hi, (Forest.mem_stripping h.plain ids).mpr ⟨i, hi, rfl⟩, ?_⟩
    split
    · exact Or.inr rfl
    · exact Or.inl rfl
  constructor
  · funext id
    by_cases hid : id ∈ F.ids
    · obtain ⟨i, j, hi, hj, rfl | rfl⟩ := hlive id hid
      · rw [h.accessesIn_eq hi, h'.accessesIn_eq hj]
      · rw [h.accessesIn_eq hi, h'.accessesIn_eq hj, Forest.usesIn, Forest.usesIn, Instr.operands_stripped]
        cases i <;> rfl
    · rw [accessesIn, accessesIn, (hdead id hid).1, (hdead id hid).2]
      rfl
  · funext use
    by_cases hid : use.user ∈ F.ids
    · obtain ⟨i, j, hi, hj, heq⟩ := hlive use.user hid
      rw [overwrites, overwrites, h.instr?_of_mem hi, h'.instr?_of_mem hj]
      rcases heq with rfl | rfl
      · rfl
      · cases i <;> rfl
    · rw [overwrites, overwrites, instr?, instr?, (hdead _ hid).1, (hdead _ hid).2]

theorem Stores.overwritesFirst_stripping (h : k.Stores F) (h' : k'.Stores (F.rewrite (.stripping ids)))
    {buffer : ValueId} {loop : OpId} {visits : List Visit} (hfirst : k.OverwritesFirst buffer loop visits) :
    k'.OverwritesFirst buffer loop visits := by
  obtain ⟨haccesses, hoverwrites⟩ := h.accesses_stripping h' buffer
  unfold OverwritesFirst firstAccess?
  rw [haccesses, hoverwrites]
  exact hfirst

end Kernel

namespace Transform

/-- A set that is put in place of another one by a change of the slot count. -/
def Resized (x y : State × SlotSet) : Prop :=
  ∃ (policy : Policy) (factor : Int64), resize policy x.2 factor x.1 = .ok y.2 y.1

theorem spread_of_resized {k : Kernel} {F : Forest} {alloc loop : OpId} {buffer : ValueId} {l : Loop}
    {x y : State × SlotSet} (hcalls : Relation.ReflTransGen Resized x y)
    (hx : ∃ F' rot, Spread k F alloc buffer loop l x.1.kernel F' x.2 rot) :
    ∃ F' rot, Spread k F alloc buffer loop l y.1.kernel F' y.2 rot := by
  induction hcalls with
  | refl => exact hx
  | tail _ hcall ih =>
    obtain ⟨F', rot, h⟩ := ih
    obtain ⟨policy, factor, hrun⟩ := hcall
    exact h.resize rfl hrun

open Kernel in
/-- With one slot in the end, or if the iterations of the loop overwrite the buffer before they read it, the kernel
still does what it did. With more slots than one the index is computed from the distance of the induction value from
the lower bound, which has to be a word. -/
theorem resized_preserves_run {name : String} {location : Location} {stmts : List Stmt} (start : State)
    (hstart : start.kernel = build name location stmts) (hv : start.kernel.verify = .ok ()) (policy : Policy)
    (site : Site) (factor : Int64) {set set' : SlotSet} {s s' : State}
    (hexpand : expand policy site factor (survey start).2 = .ok set s)
    (hresized : Relation.ReflTransGen Resized (s, set) (s', set')) (sem : Semantics) {m : Machine}
    (hrun : sem.exec start.kernel.forest {} = some m)
    (hfirst : set'.slots.length = 1 ∨ start.kernel.OverwritesFirst site.buffer set.loop m.visits)
    (hfits : set'.slots.length = 1 ∨ ∀ offset, .iteration set.loop offset ∈ m.visits → offset < 2 ^ 63) :
    ∃ m', sem.exec s'.kernel.forest {} = some m' ∧ m'.loads = m.loads ∧
      ∀ v, v.index < start.kernel.values.size → v ≠ site.buffer →
        m'.made v = m.made v ∧ ∀ n, m'.contents ⟨v, n⟩ = m.contents ⟨v, n⟩ := by
  obtain ⟨F, hF⟩ := build_stores name location stmts
  have hfree := build_selectFree name location stmts
  rw [← hstart] at hF hfree
  obtain ⟨hbecomes, -, -⟩ := hF.surveyOps start.kernel.preorder
  have hS : Stores (survey start).2.kernel _ := hbecomes.stores
  have hsc := ((hF.verify_eq_ok_iff).mp hv).stripping hF.plain start.kernel.preorder hF.nodup
  have hfixed : ∀ n ∈ (F.rewrite (.stripping start.kernel.preorder)).nodes, n.2.isSelect = false := by
    intro n hn
    rw [← Bool.not_eq_true]
    intro hselect
    obtain ⟨_, hmem, -⟩ := (hF.settles hfree policy start.kernel.preorder start.kernel).claimed n hn hselect
    cases hmem
  obtain ⟨l, F₁, rot₁, hspread⟩ := hS.spread_of_expand hsc hfixed rfl hexpand
  obtain ⟨F', rot, h⟩ := spread_of_resized hresized ⟨F₁, rot₁, hspread⟩
  have hsuits : set'.Suits (survey start).2.kernel site.buffer set.loop m.visits :=
    ⟨hfirst.imp_right fun hfirst => hF.overwritesFirst_stripping hS hfirst, hfits⟩
  rw [hF.forest_eq, ← sem.exec_stripping start.kernel.preorder] at hrun
  obtain ⟨τ, hτ, settled, R⟩ := h.layout.simulates hrun hsuits
  -- the kernel with the slots also has barriers and releases, which leave the machine as it is
  rw [← h.quiet] at hτ
  obtain ⟨visits, hexec⟩ := Semantics.exec_of_quieting hτ []
  rw [← h.stores.forest_eq] at hexec
  refine ⟨{ τ with visits := visits }, hexec, R.loads.symm, fun v hlt hne => ?_⟩
  have hv : ¬Hidden (survey start).2.kernel.values.size site.buffer v :=
    not_or.mpr ⟨hne, Nat.not_le.mpr (Nat.lt_of_lt_of_le hlt hbecomes.values)⟩
  exact ⟨(R.made v hv).symm, fun n => (R.contents ⟨v, n⟩ hv).symm⟩

/-- A tile that an inner loop fills in every iteration, spread over two slots and then over three. -/
theorem resized_preserves_run_nestedFill :
    ∃ (start s s' : State) (set set' : SlotSet) (m m' : Machine),
      start.kernel = Kernel.build "nested" .unknown (Stmt.nestedFill ⟨2⟩) ∧
      expand {} ⟨⟨0⟩, ⟨0⟩, .tile, 2, none⟩ 2 (survey start).2 = .ok set s ∧ resize {} set 3 s = .ok set' s' ∧
      Semantics.exec ⟨fun _ => 0, fun _ _ _ _ => 0⟩ start.kernel.forest {} = some m ∧
      Semantics.exec ⟨fun _ => 0, fun _ _ _ _ => 0⟩ s'.kernel.forest {} = some m' ∧ m'.loads = m.loads := by
  obtain ⟨start, hstart⟩ : ∃ start : State,
      start = { kernel := Kernel.build "nested" .unknown (Stmt.nestedFill ⟨2⟩), pass := "slots" } := ⟨_, rfl⟩
  let calls : Transform (SlotSet × SlotSet) := do
    let set ← expand {} ⟨⟨0⟩, ⟨0⟩, .tile, 2, none⟩ 2
    let set' ← resize {} set 3
    pure (set, set')
  have hloop : ((attempt calls (survey start).2).1.map fun sets => sets.1.loop) = .ok ⟨9⟩ := by
    rw [hstart]; decide +kernel
  have hruns : ((Semantics.exec ⟨fun _ => 0, fun _ _ _ _ => 0⟩ start.kernel.forest {}).map fun m =>
      (decide (start.kernel.OverwritesFirst ⟨0⟩ ⟨9⟩ m.visits), m.visits.all fun
        | .iteration _ offset => decide (offset < 2 ^ 63)
        | .op _ | .loop .. => true)) = some (true, true) := by rw [hstart]; decide +kernel
  have hv : start.kernel.verify = .ok () := by rw [hstart]; decide +kernel
  have hkernel : start.kernel = Kernel.build "nested" .unknown (Stmt.nestedFill ⟨2⟩) := by rw [hstart]
  obtain ⟨m, hrun, heq⟩ := Option.map_eq_some_iff.mp hruns
  rw [Prod.mk.injEq] at heq
  cases hcalls : calls (survey start).2 with
  | error err s => rw [attempt_of_error hcalls] at hloop; cases hloop
  | ok sets s' =>
    rw [attempt_of_ok hcalls, Except.map, Except.ok.injEq] at hloop
    obtain ⟨set, s, hexpand, hcalls⟩ := bind_eq_ok hcalls
    obtain ⟨set', s₁, hresize, hcalls⟩ := bind_eq_ok hcalls
    cases hcalls
    have hfirst : start.kernel.OverwritesFirst ⟨0⟩ set.loop m.visits := hloop ▸ of_decide_eq_true heq.1
    have hfits : ∀ offset, .iteration set.loop offset ∈ m.visits → offset < 2 ^ 63 := fun offset hmem =>
      of_decide_eq_true (List.all_eq_true.mp heq.2 _ hmem)
    obtain ⟨m', hrun', hloads, -⟩ :=
      resized_preserves_run start hkernel hv {} _ 2 hexpand (.single ⟨{}, 3, hresize⟩) _ hrun
        (Or.inr hfirst) (Or.inr hfits)
    exact ⟨start, s, s', set, set', m, m', hkernel, hexpand, hresize, hrun, hrun', hloads⟩

/-- In the third iteration the distance from the lower bound is no word, and the kernel with the slots has no run. -/
theorem no_run_wideLoop :
    ∃ (start s : State) (set : SlotSet) (m : Machine),
      start.kernel = Kernel.build "wide" .unknown Stmt.wideLoop ∧ start.kernel.verify = .ok () ∧
      (⟨⟨0⟩, ⟨0⟩, .tile, 2, none⟩ : Site) ∈ (survey start).1.sites ∧
      expand {} ⟨⟨0⟩, ⟨0⟩, .tile, 2, none⟩ 2 (survey start).2 = .ok set s ∧
      Semantics.exec ⟨fun _ => 0, fun _ _ _ _ => 0⟩ start.kernel.forest {} = some m ∧
      start.kernel.OverwritesFirst ⟨0⟩ set.loop m.visits ∧
      Semantics.exec ⟨fun _ => 0, fun _ _ _ _ => 0⟩ s.kernel.forest {} = none := by
  obtain ⟨start, hstart⟩ : ∃ start : State,
      start = { kernel := Kernel.build "wide" .unknown Stmt.wideLoop, pass := "slots" } := ⟨_, rfl⟩
  have hsite : (⟨⟨0⟩, ⟨0⟩, .tile, 2, none⟩ : Site) ∈ (survey start).1.sites := by rw [hstart]; decide +kernel
  have hloop : (match expand {} ⟨⟨0⟩, ⟨0⟩, .tile, 2, none⟩ 2 (survey start).2 with
      | .ok set s => some (set.loop, (Semantics.exec ⟨fun _ => 0, fun _ _ _ _ => 0⟩ s.kernel.forest {}).isNone)
      | .error _ _ => none) = some (⟨7⟩, true) := by rw [hstart]; decide +kernel
  have hruns : ((Semantics.exec ⟨fun _ => 0, fun _ _ _ _ => 0⟩ start.kernel.forest {}).map fun m =>
      decide (start.kernel.OverwritesFirst ⟨0⟩ ⟨7⟩ m.visits)) = some true := by rw [hstart]; decide +kernel
  have hv : start.kernel.verify = .ok () := by rw [hstart]; decide +kernel
  obtain ⟨m, hrun, hfirst⟩ := Option.map_eq_some_iff.mp hruns
  cases hexpand : expand {} ⟨⟨0⟩, ⟨0⟩, .tile, 2, none⟩ 2 (survey start).2 with
  | error err s => rw [hexpand] at hloop; cases hloop
  | ok set s =>
    rw [hexpand, Option.some.injEq, Prod.mk.injEq] at hloop
    have hkernel : start.kernel = Kernel.build "wide" .unknown Stmt.wideLoop := by rw [hstart]
    exact ⟨start, s, set, m, hkernel, hv, hsite, hexpand, hrun, hloop.1.symm ▸ of_decide_eq_true hfirst,
      Option.isNone_iff_eq_none.mp hloop.2⟩

end Transform
end SlotRotation
