import SlotRotation.Proofs.Barriers
import SlotRotation.Proofs.Bindings
import SlotRotation.Proofs.Iterations
import SlotRotation.Proofs.Relation
import SlotRotation.Proofs.Rotating

/-! A kernel with slots in place of one of its buffers does what the kernel did. The slots are allocated in place of
the buffer, one of them is selected in each iteration of a loop around all accesses, and the accesses go to it. -/

namespace SlotRotation

def Instr.isInert (i : Instr) : Bool := i.isDealloc || i.isBarrier

theorem Instr.inert_cases {i : Instr} (h : i.isInert = true) : (∃ v, i = .dealloc v) ∨ i = .barrier := by
  cases i with
  | dealloc v => exact Or.inl ⟨v, rfl⟩
  | barrier => exact Or.inr rfl
  | _ => cases h

theorem Semantics.step_inert (sem : Semantics) (m : Machine) {i : Instr} (h : i.isInert = true) :
    sem.step m i = some m := by
  rcases Instr.inert_cases h with ⟨v, rfl⟩ | rfl <;> rfl

/-- Slots come in place of a buffer, and what does nothing goes. -/
def Rewriting.spreading (alloc : OpId) (buffer : ValueId) (body : RegionId) (set : SlotSet) (rot : List Node) :
    Rewriting where
  leaf id i :=
    if id = alloc then allocNodes set.ty set.slots
    else if i.isInert then [] else [(id, i.mapOperands fun _ => set.rename buffer)]
  head _ l :=
    { l with
      lower := set.rename buffer l.lower, upper := set.rename buffer l.upper, step := set.rename buffer l.step }
  top r := if r = body then rot ++ [set.selectNode] else []

namespace Related

variable {size : Nat} {buffer : ValueId} {set : SlotSet} {settled : Prop} {σ τ τ' : Machine}

theorem allocate (R : Related size buffer set none settled σ τ) (hset : set.Unseen size buffer) (sem : Semantics) :
    ∃ τ', sem.steps (allocNodes set.ty set.slots) τ = some τ' ∧
      Related size buffer set none settled (σ.make buffer sem.blank) τ' := by
  obtain ⟨τ', hrun, hslots, hrest, hloads⟩ := Semantics.steps_allocs sem set.ty set.slots τ
  have hother : ∀ v, ¬Hidden size buffer v → ∀ slot ∈ set.slots, slot.value ≠ v := by
    rintro v hv slot hslot rfl
    exact hv (hset.slots slot hslot)
  have hbuffer : ∀ v, ¬Hidden size buffer v → v ≠ buffer := fun v hv heq => hv (Or.inl heq)
  refine ⟨τ', hrun, ⟨fun v hv => ?_, fun v place h => ?_, fun place hplace => ?_, fun v hv => ?_, ?_,
    fun old hold slot hslot => ?_, fun _ hp => nomatch hp⟩⟩
  · rw [(hrest v (hother v hv)).1, ← R.env v hv]
    exact Function.update_of_ne (hbuffer v hv) _ _
  · change Function.update σ.env buffer _ v = _ at h
    by_cases heq : v = buffer
    · rw [heq, Function.update_self] at h
      cases h
      exact heq.symm
    · rw [Function.update_of_ne heq] at h
      exact R.tidy v place h
  · rw [(hrest _ (hother _ hplace)).2.2 place.number, ← R.contents place hplace]
    refine Function.update_of_ne (fun heq => hbuffer _ hplace ?_) _ _
    rw [heq]
  · rw [(hrest v (hother v hv)).2.1, ← R.made v hv]
    exact Function.update_of_ne (hbuffer v hv) _ _
  · exact R.loads.trans hloads.symm
  · obtain ⟨new, henv, hvalue, hblank⟩ := hslots slot hslot
    refine ⟨new, henv, hvalue, fun _ => ?_⟩
    change Function.update σ.env buffer _ buffer = _ at hold
    rw [Function.update_self] at hold
    cases hold
    rw [hblank]
    exact Function.update_self ..

theorem select (R : Related size buffer set none settled σ τ) {old new : Instance} {slot : Slot}
    {fresh : ValueId → Prop} (hold : σ.env buffer = some (.buffer old)) (hslot : slot ∈ set.slots)
    (hnew : τ.env slot.value = some (.buffer new))
    (hbinds : τ.Binds fresh τ') (hfresh : ∀ v, fresh v → Hidden size buffer v ∧ ∀ slot ∈ set.slots, slot.value ≠ v)
    (hselected : τ'.env set.selected = some (.buffer new)) :
    Related size buffer set (some (old, new)) (set.slots.length = 1) σ τ' := by
  have hslots : ∀ slot ∈ set.slots, τ'.env slot.value = τ.env slot.value := fun slot hslot =>
    hbinds.env _ fun hv => (hfresh _ hv).2 slot hslot rfl
  refine ⟨fun v hv => ?_, R.tidy, fun place hplace => ?_, fun v hv => ?_, R.loads.trans hbinds.loads.symm,
    fun old' hold' slot' hslot' => ?_, ?_⟩
  · exact (R.env v hv).trans (hbinds.env v fun hf => hv (hfresh v hf).1).symm
  · rw [hbinds.contents, R.contents place hplace]
  · rw [hbinds.made, R.made v hv]
  · rw [hslots slot' hslot', hbinds.contents]
    exact R.slots old' hold' slot' hslot'
  · rintro p ⟨⟩
    obtain ⟨new', hnew', hvalue, hsame⟩ := R.slots old hold slot hslot
    obtain rfl : new' = new := by
      rw [hnew] at hnew'
      cases hnew'
      rfl
    refine ⟨hold, hselected, ⟨slot, hslot, (hslots slot hslot).trans hnew, hvalue⟩, fun hone => ?_⟩
    rw [hbinds.contents]
    exact hsame hone

end Related

/-- A buffer of a kernel without slots, and a loop around all accesses to it. -/
structure Setting (k : Kernel) (F : Forest) (alloc : OpId) (buffer : ValueId) (loop : OpId) (l : Loop) : Prop where
  stores : k.Stores F
  visible : F.Scoped
  fixed : ∀ n ∈ F.nodes, n.2.isSelect = false
  allocates : ∃ a : Alloc, (alloc, .alloc a) ∈ F.nodes ∧ a.result = buffer
  loops : (loop, .loop l) ∈ F.nodes
  outer : F.InScope alloc loop
  inner : ∀ n ∈ F.nodes, buffer ∈ n.2.operands → n.2.isInert = true ∨ F.InScope loop n.1

structure Layout (k : Kernel) (F : Forest) (alloc : OpId) (buffer : ValueId) (loop : OpId) (l : Loop) (set : SlotSet)
    (rot : List Node) : Prop extends Setting k F alloc buffer loop l where
  unseen : set.Unseen k.values.size buffer
  inhabited : set.slots ≠ []
  count : set.slots.length < 2 ^ 63
  rotates : Rotates F l set.slots.length rot set.rotation.value
  fresh : ∀ v, Semantics.Defines rot v → k.values.size ≤ v.index ∧ ∀ slot ∈ set.slots, slot.value ≠ v
  distinct : (rot.filterMap fun n => n.2.result?).Nodup
  apart : ∀ slot ∈ set.slots, slot.value ≠ set.selected

/-- The selected slot holds what the buffer holds. -/
def SlotSet.Settled (set : SlotSet) (k : Kernel) (buffer : ValueId) (loop : OpId) (visits : List Visit) : Prop :=
  set.slots.length = 1 ∨ k.accessesSince buffer loop visits ≠ []

/-- What a run has to be like for more slots than one. -/
structure SlotSet.Suits (set : SlotSet) (k : Kernel) (buffer : ValueId) (loop : OpId) (visits : List Visit) :
    Prop where
  first : set.slots.length = 1 ∨ k.OverwritesFirst buffer loop visits
  fits : set.slots.length = 1 ∨ ∀ offset, .iteration loop offset ∈ visits → offset < 2 ^ 63

/-- Where the run `σ` is ahead of the part `G` of the kernel `F`, in an iteration of the loop or not. -/
structure Ahead (F : Forest) (alloc : OpId) (buffer : ValueId) (loop : OpId) (G : Forest) (inside : Prop)
    (σ : Machine) : Prop where
  nodes : ∀ n ∈ G.nodes, n ∈ F.nodes
  holds : ∀ {a l B}, G.Holds a l B → F.Holds a l B
  nodup : G.ids.Nodup
  respects : σ.Respects F
  within : inside → (∀ x ∈ G.ids, F.InScope loop x) ∧ ∃ v ∈ σ.visits, v.starts loop = true
  readers : ¬inside → ∀ n ∈ G.nodes, buffer ∈ n.2.operands → n.2.isInert = true ∨ G.InScope loop n.1
  made : ¬inside → loop ∈ G.ids → σ.env buffer ≠ none ∨ G.InScope alloc loop

theorem Ahead.advance {F G : Forest} {alloc loop : OpId} {buffer : ValueId} {inside : Prop} {σ σ' : Machine}
    (ha : Ahead F alloc buffer loop G inside σ) (hkeeps : Semantics.Keeps F σ σ')
    (hvisits : σ.visits <+: σ'.visits) : Ahead F alloc buffer loop G inside σ' where
  __ := ha
  respects := hkeeps.respects ha.respects
  within hin := ⟨(ha.within hin).1, (ha.within hin).2.imp fun _ hv => ⟨hvisits.subset hv.1, hv.2⟩⟩
  made hout hmem := (ha.made hout hmem).imp (hkeeps.bound buffer) id

/-- Runs of the part `G` are followed by runs of what becomes of it. -/
def Mirrored (sem : Semantics) (k : Kernel) (F : Forest) (alloc : OpId) (buffer : ValueId) (loop : OpId) (l : Loop)
    (set : SlotSet) (rot : List Node) (V : List Visit) (G : Forest) : Prop :=
  ∀ {focus σ σ' τ}, Ahead F alloc buffer loop G focus.isSome σ → sem.exec G σ = some σ' → σ'.visits <+: V →
    Related k.values.size buffer set focus (set.Settled k buffer loop σ.visits) σ τ →
    ∃ τ', sem.exec (G.rewrite (.spreading alloc buffer l.body set rot)) τ = some τ' ∧
      Related k.values.size buffer set focus (set.Settled k buffer loop σ'.visits) σ' τ'

/-- Between two iterations of the loop of the slots no slot is in focus, and the bounds are what they were before the
first one. -/
structure Between (k : Kernel) (F : Forest) (buffer : ValueId) (l : Loop) (set : SlotSet) (settled : Prop)
    (σ σ₁ τ₁ : Machine) : Prop where
  respects : σ₁.Respects F
  bound : σ₁.env buffer ≠ none
  bounds : ∀ v ∈ (Instr.loop l).operands, σ₁.env v = σ.env v
  related : Related k.values.size buffer set none settled σ₁ τ₁

theorem Semantics.iterate_mirrored {P : Machine → Machine → Prop} {f g : Machine → Option Machine}
    {s t : Nat → Machine → Machine} {V : List Visit} {n i : Nat} {σ σ' τ : Machine}
    (hstart : ∀ i m, m.visits <+: (s i m).visits) (hbody : ∀ {m m'}, f m = some m' → m.visits <+: m'.visits)
    (hstep : ∀ j < i + n, ∀ {σ σ' τ}, P σ τ → f (s j σ) = some σ' → σ'.visits <+: V →
      ∃ τ', g (t j τ) = some τ' ∧ P σ' τ')
    (hrun : iterate f s n i σ = some σ') (hvisits : σ'.visits <+: V) (hP : P σ τ) :
    ∃ τ', iterate g t n i τ = some τ' ∧ P σ' τ' := by
  induction n generalizing i σ τ with
  | zero =>
    cases hrun
    exact ⟨τ, rfl, hP⟩
  | succ n ih =>
    obtain ⟨σ₁, hone, hrest⟩ := Option.bind_eq_some_iff.mp hrun
    have hgrows : σ₁.visits <+: σ'.visits := iterate_within (P := fun m m' => m.visits <+: m'.visits)
      (fun _ => List.prefix_rfl) List.IsPrefix.trans hstart hbody hrest
    obtain ⟨τ₁, hτ₁, hP₁⟩ := hstep i (by omega) hP hone (hgrows.trans hvisits)
    obtain ⟨τ', hτ', hP'⟩ := ih (fun j hj => hstep j (by omega)) hrest hP₁
    exact ⟨τ', Option.bind_eq_some_iff.mpr ⟨τ₁, hτ₁, hτ'⟩, hP'⟩

theorem Setting.bounds_visible {k : Kernel} {F : Forest} {alloc loop : OpId} {buffer v : ValueId} {l : Loop}
    (h : Setting k F alloc buffer loop l) (hv : v ∈ (Instr.loop l).operands) : ¬Hidden k.values.size buffer v := by
  rintro (rfl | hle)
  · rcases h.inner _ h.loops hv with hd | hscope
    · cases hd
    · exact Forest.InScope.irrefl h.stores.nodup hscope
  · exact Nat.not_lt.mpr hle (h.stores.operand_lt h.visible h.loops hv)

namespace Layout

variable {k : Kernel} {F : Forest} {alloc : OpId} {buffer : ValueId} {loop : OpId} {l : Loop} {set : SlotSet}
  {rot : List Node} (h : Layout k F alloc buffer loop l set rot) {sem : Semantics} {V : List Visit}
  {focus : Option (Instance × Instance)} {σ σ' τ : Machine}
include h

theorem not_hidden {n : Node} (hn : n ∈ F.nodes) (hne : n.1 ≠ alloc) {v : ValueId} (hv : n.2.result? = some v) :
    ¬Hidden k.values.size buffer v := by
  rintro (rfl | hle)
  · obtain ⟨a, ha, hres⟩ := h.allocates
    rw [h.stores.result_unique hn ha hv (congrArg some hres)] at hne
    exact hne rfl
  · exact Nat.not_lt.mpr hle (h.stores.result_lt hn hv)

theorem notMem_alloc {G : Forest} {inside : Prop} (ha : Ahead F alloc buffer loop G inside σ) (hin : inside) :
    alloc ∉ G.ids ∧ loop ∉ G.ids := by
  refine ⟨fun hmem => ?_, fun hmem => Forest.InScope.irrefl h.stores.nodup ((ha.within hin).1 _ hmem)⟩
  exact Forest.InScope.irrefl h.stores.nodup (h.outer.trans h.stores.nodup ((ha.within hin).1 _ hmem))

theorem exists_place (hrespects : σ.Respects F) (hbound : σ.env buffer ≠ none) :
    ∃ old : Instance, σ.env buffer = some (.buffer old) := by
  obtain ⟨a, ha, hres⟩ := h.allocates
  obtain ⟨d, hd⟩ := Option.ne_none_iff_exists'.mp hbound
  obtain ⟨n, hn⟩ := (hrespects _ ha buffer d (congrArg some hres) hd).2 a rfl
  exact ⟨_, hn ▸ hd⟩

omit h in
theorem settled_op {id : OpId} (hadded : σ'.visits = σ.visits ++ [.op id])
    (hs : set.Settled k buffer loop σ'.visits) :
    set.Settled k buffer loop σ.visits ∨ k.accessesIn buffer id ≠ [] := by
  unfold SlotSet.Settled at hs ⊢
  rwa [hadded, Kernel.accessesSince_concat rfl, ne_eq, List.append_eq_nil_iff, not_and_or, ← or_assoc] at hs

/-- An access that is not settled is the first one of its iteration, so it overwrites the buffer. -/
theorem overwrites_of_unsettled {id : OpId} {i : Instr} {rest : Forest} {inside : Prop}
    (hV : set.Suits k buffer loop V) (ha : Ahead F alloc buffer loop (.op id i rest) inside σ) (hin : inside)
    (hvisits : σ.visits ++ [.op id] <+: V) (hread : k.accessesIn buffer id ≠ [])
    (hs : ¬set.Settled k buffer loop σ.visits) : (∃ v w, i = .fill v w) ∨ ∃ v w, i = .copy v w ∧ v ≠ buffer := by
  obtain ⟨hmany, hnone⟩ := not_or.mp hs
  obtain ⟨rest', rfl⟩ := hvisits
  obtain ⟨use, huse⟩ : ∃ use, (k.accessesIn buffer id).head? = some use := by
    cases haccess : k.accessesIn buffer id with
    | nil => exact absurd haccess hread
    | cons use uses => exact ⟨use, rfl⟩
  have hfirst := hV.first.resolve_left hmany
  rw [List.append_assoc] at hfirst
  have hover := hfirst.head (ha.within hin).2 rfl (not_not.mp hnone) huse
  exact h.stores.overwrites_cases (ha.nodes _ List.mem_cons_self) huse hover

theorem simulates_kept {id : OpId} {i : Instr} {rest : Forest} (hV : set.Suits k buffer loop V)
    (ha : Ahead F alloc buffer loop (.op id i rest) focus.isSome σ) (hne : id ≠ alloc) (hinert : ¬i.isInert = true)
    (hrun : sem.step (σ.visit (.op id)) i = some σ') (hvisits : σ'.visits <+: V)
    (R : Related k.values.size buffer set focus (set.Settled k buffer loop σ.visits) σ τ) :
    ∃ τ', sem.steps [(id, i.mapOperands fun _ => set.rename buffer)] τ = some τ' ∧
      Related k.values.size buffer set focus (set.Settled k buffer loop σ'.visits) σ' τ' := by
  have hn : (id, i) ∈ F.nodes := ha.nodes _ List.mem_cons_self
  have hadded : σ'.visits = σ.visits ++ [.op id] := Semantics.visits_step hrun
  have hread : buffer ∈ i.operands ↔ k.accessesIn buffer id ≠ [] := by
    rw [ne_eq, h.stores.accessesIn_eq_nil_iff hn, not_or, not_not]
    refine ⟨fun hmem => ⟨fun hd => hinert ?_, hmem⟩, And.right⟩
    rw [Instr.isInert, hd, Bool.true_or]
  have hfocus : buffer ∈ i.operands → focus.isSome := by
    intro hmem
    by_contra hout
    rcases ha.readers hout _ List.mem_cons_self hmem with hd | hscope
    · exact hinert hd
    · obtain ⟨hid, -⟩ := Forest.nodup_op ha.nodup
      rcases hscope with ⟨-, hin⟩ | hscope
      · exact hid hin
      · exact hid hscope.right_mem
  have hfirst : buffer ∈ i.operands → set.Settled k buffer loop σ.visits ∨ (∃ v w, i = .fill v w) ∨
      ∃ v w, i = .copy v w ∧ v ≠ buffer := fun hmem =>
    or_iff_not_imp_left.mpr (h.overwrites_of_unsettled hV ha (hfocus hmem) (hadded ▸ hvisits) (hread.mp hmem))
  have hselect : ∀ result slots index, i ≠ .selectSlot result slots index := by
    rintro result slots index rfl
    cases h.fixed _ hn
  have hdealloc : ∀ v, i ≠ .dealloc v := by
    rintro v rfl
    exact hinert rfl
  obtain ⟨τ', hτ, R'⟩ := (R.visit (.op id) (.op id)).step h.unseen hselect hdealloc
    (fun v hv => h.not_hidden hn hne hv) (fun v hv => h.stores.operand_lt h.visible hn hv) hfocus hfirst hrun
  refine ⟨τ', ?_, R'.imp fun hs => (settled_op hadded hs).imp_right hread.mpr⟩
  simp only [Semantics.steps, hτ, Option.bind_some]

theorem simulates_op {id : OpId} {i : Instr} {rest : Forest} (hV : set.Suits k buffer loop V)
    (ha : Ahead F alloc buffer loop (.op id i rest) focus.isSome σ) (hrun : sem.step (σ.visit (.op id)) i = some σ')
    (hvisits : σ'.visits <+: V)
    (R : Related k.values.size buffer set focus (set.Settled k buffer loop σ.visits) σ τ) :
    ∃ τ', sem.steps ((Rewriting.spreading alloc buffer l.body set rot).leaf id i) τ = some τ' ∧
      Related k.values.size buffer set focus (set.Settled k buffer loop σ'.visits) σ' τ' := by
  have hn : (id, i) ∈ F.nodes := ha.nodes _ List.mem_cons_self
  dsimp only [Rewriting.spreading]
  split
  · rename_i heq
    subst heq
    obtain rfl : focus = none := by
      rw [← Option.not_isSome_iff_eq_none]
      exact fun hin => (h.notMem_alloc ha hin).1 List.mem_cons_self
    obtain ⟨a, ha', rfl⟩ := h.allocates
    obtain rfl := Forest.node_unique h.stores.nodup hn ha'
    cases hrun
    obtain ⟨τ', hτ, R'⟩ := ((R.visit_left (.op id)).unfocus _).allocate h.unseen sem
    exact ⟨τ', hτ, R'⟩
  · rename_i hne
    split
    · rename_i hinert
      have hnone : k.accessesIn buffer id = [] := by
        rw [h.stores.accessesIn_eq_nil_iff hn]
        rcases Instr.inert_cases hinert with ⟨v, rfl⟩ | rfl
        · exact Or.inl rfl
        · exact Or.inr List.not_mem_nil
      have hsettled : set.Settled k buffer loop σ'.visits → set.Settled k buffer loop σ.visits := fun hs =>
        (settled_op (Semantics.visits_step hrun) hs).resolve_right fun hne => hne hnone
      rw [sem.step_inert _ hinert, Option.some.injEq] at hrun
      refine ⟨τ, rfl, ?_⟩
      rw [← hrun] at hsettled ⊢
      exact (R.visit_left _).imp hsettled
    · rename_i hinert
      exact h.simulates_kept hV ha hne hinert hrun hvisits R

theorem ahead_op {id : OpId} {i : Instr} {rest : Forest} {inside : Prop}
    (ha : Ahead F alloc buffer loop (.op id i rest) inside σ) (hrun : sem.step (σ.visit (.op id)) i = some σ') :
    Ahead F alloc buffer loop rest inside σ' := by
  have hn : (id, i) ∈ F.nodes := ha.nodes _ List.mem_cons_self
  have hkeeps : Semantics.Keeps F σ σ' := by
    have hinvariant := Semantics.invariant_keeps sem h.stores
    exact hinvariant.trans (hinvariant.visit σ (.op id)) (hinvariant.step _ hn hrun)
  have hvisits : σ.visits <+: σ'.visits := Semantics.visits_step hrun ▸ List.prefix_append _ _
  have hloop : id ≠ loop := by
    rintro rfl
    rw [Forest.node_unique h.stores.nodup hn h.loops] at hrun
    cases hrun
  refine ⟨fun n hn => ha.nodes n (List.mem_cons_of_mem _ hn), ha.holds, (Forest.nodup_op ha.nodup).2,
    hkeeps.respects ha.respects, fun hin => ?_, fun hout n hn hmem => ?_, fun hout hmem => ?_⟩
  · obtain ⟨hscope, v, hv, hstarts⟩ := ha.within hin
    exact ⟨fun x hx => hscope x (List.mem_cons_of_mem _ hx), v, hvisits.subset hv, hstarts⟩
  · refine (ha.readers hout n (List.mem_cons_of_mem _ hn) hmem).imp_right fun hscope => ?_
    exact hscope.resolve_left fun heq => hloop heq.1
  · rcases ha.made hout (List.mem_cons_of_mem _ hmem) with hbound | ⟨rfl, -⟩ | hscope
    · exact Or.inl (hkeeps.bound buffer hbound)
    · obtain ⟨a, ha', rfl⟩ := h.allocates
      obtain rfl := Forest.node_unique h.stores.nodup hn ha'
      cases hrun
      exact Or.inl (by simp [Machine.make, Machine.define, Machine.write])
    · exact Or.inr hscope

omit h in
theorem ahead_rest {id : OpId} {l' : Loop} {body rest : Forest} {inside : Prop}
    (ha : Ahead F alloc buffer loop (.loop id l' body rest) inside σ) : Ahead F alloc buffer loop rest inside σ := by
  obtain ⟨hidb, hidr, hb, hr, hdis⟩ := Forest.nodup_loop ha.nodup
  have hids : ∀ x ∈ rest.ids, x ∈ (Forest.loop id l' body rest).ids := fun x hx => by simp [hx]
  refine ⟨fun n hn => ha.nodes n (List.mem_cons_of_mem _ (List.mem_append_right _ hn)),
    fun hB => ha.holds (Or.inr (Or.inr hB)), hr, ha.respects, fun hin => ?_, fun hout n hn hmem => ?_,
    fun hout hmem => ?_⟩
  · exact ⟨fun x hx => (ha.within hin).1 x (hids x hx), (ha.within hin).2⟩
  · have hrest := Forest.mem_ids_of_mem_nodes hn
    refine (ha.readers hout n (List.mem_cons_of_mem _ (List.mem_append_right _ hn)) hmem).imp_right fun hscope => ?_
    rcases hscope with ⟨-, hin⟩ | hin | hin
    · exact absurd hrest (hdis _ hin)
    · exact absurd hrest (hdis _ hin.right_mem)
    · exact hin
  · rcases ha.made hout (hids _ hmem) with hbound | ⟨-, hin⟩ | hin | hin
    · exact Or.inl hbound
    · exact absurd hmem (hdis _ hin)
    · exact absurd hmem (hdis _ hin.right_mem)
    · exact Or.inr hin

theorem ahead_body {id : OpId} {l' : Loop} {body rest : Forest} {inside : Prop}
    (ha : Ahead F alloc buffer loop (.loop id l' body rest) inside σ) (hne : id ≠ loop) :
    Ahead F alloc buffer loop body inside σ := by
  obtain ⟨hidb, hidr, hb, hr, hdis⟩ := Forest.nodup_loop ha.nodup
  have hids : ∀ x ∈ body.ids, x ∈ (Forest.loop id l' body rest).ids := fun x hx => by simp [hx]
  refine ⟨fun n hn => ha.nodes n (List.mem_cons_of_mem _ (List.mem_append_left _ hn)),
    fun hB => ha.holds (Or.inr (Or.inl hB)), hb, ha.respects, fun hin => ?_, fun hout n hn hmem => ?_,
    fun hout hmem => ?_⟩
  · exact ⟨fun x hx => (ha.within hin).1 x (hids x hx), (ha.within hin).2⟩
  · have hbody := Forest.mem_ids_of_mem_nodes hn
    refine (ha.readers hout n (List.mem_cons_of_mem _ (List.mem_append_left _ hn)) hmem).imp_right fun hscope => ?_
    rcases hscope with ⟨heq, -⟩ | hin | hin
    · exact absurd heq hne
    · exact hin
    · exact absurd hin.right_mem (hdis _ hbody)
  · rcases ha.made hout (hids _ hmem) with hbound | ⟨rfl, -⟩ | hin | hin
    · exact Or.inl hbound
    · obtain ⟨a, ha', -⟩ := h.allocates
      cases Forest.node_unique h.stores.nodup (ha.nodes _ List.mem_cons_self) ha'
    · exact Or.inr hin
    · exact absurd hin.right_mem (hdis _ hmem)

variable {id : OpId} {l' : Loop} {body rest : Forest} {trips : Nat} {lower step : Int64}

/-- A bound that reads the buffer would be a reader outside of the loop. -/
theorem bound_focus (ha : Ahead F alloc buffer loop (.loop id l' body rest) focus.isSome σ) {v : ValueId}
    (hv : v ∈ (Instr.loop l').operands) : v = buffer → focus.isSome := by
  rintro rfl
  obtain ⟨hidb, hidr, -, -, -⟩ := Forest.nodup_loop ha.nodup
  by_contra hout
  rcases ha.readers hout _ List.mem_cons_self hv with hd | ⟨-, hin⟩ | hin | hin
  · cases hd
  · exact hidb hin
  · exact hidb hin.right_mem
  · exact hidr hin.right_mem

theorem keeps_enter (sem : Semantics) (hn : (id, .loop l') ∈ F.nodes) (lower step : Int64) (j : Nat) (σ : Machine) :
    Semantics.Keeps F σ (Semantics.enter id l' lower step j σ) := by
  have hkeeps := Semantics.invariant_keeps sem h.stores
  exact hkeeps.trans (hkeeps.visit σ _) (hkeeps.enter id l' hn _ _)

theorem related_enter {settled : Prop} (hn : (id, .loop l') ∈ F.nodes) (lower step : Int64) (j : Nat)
    (R : Related k.values.size buffer set focus settled σ τ) :
    Related k.values.size buffer set focus settled (Semantics.enter id l' lower step j σ)
      (Semantics.enter id l' lower step j τ) := by
  have halloc : id ≠ alloc := by
    rintro rfl
    obtain ⟨a, ha, -⟩ := h.allocates
    cases Forest.node_unique h.stores.nodup hn ha
  exact (R.visit (.iteration id (j * step.toInt)) (.iteration id (j * step.toInt))).define h.unseen
    (h.not_hidden hn halloc rfl) (.word (.ofInt (lower.toInt + j * step.toInt))) fun _ heq => nomatch heq

theorem simulates_iteration_other {j : Nat} (hn : (id, .loop l') ∈ F.nodes) (hne : id ≠ loop)
    (ha : Ahead F alloc buffer loop body focus.isSome σ)
    (hbody : Mirrored sem k F alloc buffer loop l set rot V body)
    (hrun : sem.exec body (Semantics.enter id l' lower step j σ) = some σ') (hvisits : σ'.visits <+: V)
    (R : Related k.values.size buffer set focus (set.Settled k buffer loop σ.visits) σ τ) :
    ∃ τ', sem.exec (body.rewrite (.spreading alloc buffer l.body set rot))
        (Semantics.enter id l' lower step j τ) = some τ' ∧
      Ahead F alloc buffer loop body focus.isSome σ' ∧
      Related k.values.size buffer set focus (set.Settled k buffer loop σ'.visits) σ' τ' := by
  have ha₁ := ha.advance (h.keeps_enter sem hn lower step j σ) (List.prefix_append _ _)
  -- this is no iteration of the loop of the slots, so the accesses so far still count
  have hsame : set.Settled k buffer loop (Semantics.enter id l' lower step j σ).visits →
      set.Settled k buffer loop σ.visits := by
    have hstarts : (Visit.iteration id (j * step.toInt)).starts loop = false := by simpa [Visit.starts] using hne
    unfold SlotSet.Settled
    change _ ∨ k.accessesSince buffer loop (σ.visits ++ [.iteration id (j * step.toInt)]) ≠ [] → _
    rw [Kernel.accessesSince_concat hstarts]
    simp [Visit.reads]
  obtain ⟨τ', hτ', R'⟩ := hbody ha₁ hrun hvisits ((h.related_enter hn lower step j R).imp hsame)
  have hkeeps := (Semantics.invariant_keeps sem h.stores).mono ha.nodes
  exact ⟨τ', hτ', ha₁.advance (hkeeps.exec hrun) ((Semantics.invariant_visits sem body).exec hrun), R'⟩

theorem simulates_other (ha : Ahead F alloc buffer loop (.loop id l' body rest) focus.isSome σ) (hne : id ≠ loop)
    (hbody : Mirrored sem k F alloc buffer loop l set rot V body)
    (hrun : Semantics.iterate (sem.exec body) (Semantics.enter id l' lower step) trips 0 σ = some σ')
    (hvisits : σ'.visits <+: V)
    (R : Related k.values.size buffer set focus (set.Settled k buffer loop σ.visits) σ τ) :
    ∃ τ', Semantics.iterate (sem.exec (body.rewrite (.spreading alloc buffer l.body set rot)))
        (Semantics.enter id l' lower step) trips 0 τ = some τ' ∧
      Related k.values.size buffer set focus (set.Settled k buffer loop σ'.visits) σ' τ' := by
  have hn : (id, .loop l') ∈ F.nodes := ha.nodes _ List.mem_cons_self
  have hstart : ∀ i m, m.visits <+: (Semantics.enter id l' lower step i m).visits :=
    fun i m => List.prefix_append _ _
  have hone : ∀ j < 0 + trips, ∀ {σ σ' τ}, Ahead F alloc buffer loop body focus.isSome σ ∧
      Related k.values.size buffer set focus (set.Settled k buffer loop σ.visits) σ τ →
      sem.exec body (Semantics.enter id l' lower step j σ) = some σ' → σ'.visits <+: V →
      ∃ τ', sem.exec (body.rewrite (.spreading alloc buffer l.body set rot))
          (Semantics.enter id l' lower step j τ) = some τ' ∧
        Ahead F alloc buffer loop body focus.isSome σ' ∧
        Related k.values.size buffer set focus (set.Settled k buffer loop σ'.visits) σ' τ' :=
    fun j _ _ _ _ hP hrun hvisits => h.simulates_iteration_other hn hne hP.1 hbody hrun hvisits hP.2
  obtain ⟨τ', hτ', -, R'⟩ := Semantics.iterate_mirrored hstart (Semantics.invariant_visits sem body).exec hone hrun
    hvisits ⟨h.ahead_body ha hne, R⟩
  exact ⟨τ', hτ', R'⟩

theorem bounds_outside (hB : F.Holds loop l body) {v : ValueId} (hv : v ∈ (Instr.loop l).operands) :
    v ≠ l.induction ∧ ∀ n ∈ body.nodes, n.2.result? ≠ some v := by
  obtain ⟨d, hd, hres, hscope⟩ := h.visible _ h.loops v hv
  have hnot : ¬F.InScope loop d.1 := fun hin =>
    Forest.InScope.irrefl h.stores.nodup (hin.trans h.stores.nodup hscope)
  refine ⟨?_, fun n hn heq => hnot ?_⟩
  · rintro rfl
    rw [h.stores.result_unique hd h.loops hres rfl] at hscope
    exact Forest.InScope.irrefl h.stores.nodup hscope
  · rw [← h.stores.result_unique (hB.nodes_subset hn) hd heq hres]
    exact (hB.inScope_iff h.stores.nodup).mpr (Forest.mem_ids_of_mem_nodes hn)

theorem atIteration {upper : Int64} {j : Nat} {settled : Prop} (hB : F.Holds loop l body) (hrespects : σ.Respects F)
    (hlower : σ.word? l.lower = some lower) (hstep : σ.word? l.step = some step)
    (htrips : trips? lower.toInt upper.toInt step.toInt = some trips) (hj : j < trips)
    (R : Related k.values.size buffer set none settled σ τ) :
    Semantics.AtIteration F l lower step j (Semantics.enter loop l lower step j τ) := by
  obtain ⟨hbelow, habove⟩ := trips?_eq_some_iff.mp htrips
  have hforward : 0 < step.toInt := by
    have hfirst := hbelow 0 (by omega)
    simp only [Nat.cast_zero, zero_mul, add_zero] at hfirst
    by_contra hnot
    have hdown : (trips : Int) * step.toInt ≤ 0 :=
      mul_nonpos_of_nonneg_of_nonpos (Int.natCast_nonneg _) (not_lt.mp hnot)
    linarith
  have hwords : ∀ v ∈ (Instr.loop l).operands,
      (Semantics.enter loop l lower step j τ).word? v = σ.word? v := by
    intro v hv
    refine Semantics.word?_of_env ((Function.update_of_ne (h.bounds_outside hB hv).1 _ _).trans ?_)
    exact (R.env v (h.bounds_visible hv)).symm
  have hconstant : ∀ {v : ValueId} {n c : Int64}, σ.word? v = some n → F.Constant v c → n = c := by
    rintro v n c hword ⟨d, hd⟩
    have hproduces := (hrespects _ hd v _ rfl (Machine.word?_eq_some_iff.mp hword)).1 v c rfl
    cases hproduces
    rfl
  have hstart : -2 ^ 63 ≤ lower.toInt := Int64.le_toInt lower
  have hend : upper.toInt < 2 ^ 63 := Int64.toInt_lt upper
  have hoffset : 0 ≤ (j : Int) * step.toInt := by positivity
  have hlast := hbelow j hj
  refine ⟨Semantics.word?_define .., ?_, ?_, ⟨by omega, by omega⟩, hforward, hconstant hlower, hconstant hstep⟩
  · rw [hwords _ (by simp [Instr.operands]), hlower]
  · rw [hwords _ (by simp [Instr.operands]), hstep]

/-- The entry of an iteration selects a slot, which holds what an earlier iteration left there. -/
theorem selects (sem : Semantics) {upper : Int64} {settled : Prop} {σ₁ : Machine} {j : Nat}
    (hB : F.Holds loop l body) (hlower : σ.word? l.lower = some lower) (hstep : σ.word? l.step = some step)
    (htrips : trips? lower.toInt upper.toInt step.toInt = some trips) (hj : j < trips)
    (hfits : set.slots.length = 1 ∨ j * step.toInt < 2 ^ 63) (hI : Between k F buffer l set settled σ σ₁ τ) :
    ∃ old new τ', sem.steps (rot ++ [set.selectNode]) (Semantics.enter loop l lower step j τ) = some τ' ∧
      Related k.values.size buffer set (some (old, new)) (set.slots.length = 1)
        (Semantics.enter loop l lower step j σ₁) τ' := by
  have henter := h.keeps_enter sem h.loops lower step j σ₁
  obtain ⟨old, hold⟩ := h.exists_place (henter.respects hI.respects) (henter.bound _ hI.bound)
  have R₁ := h.related_enter h.loops lower step j hI.related
  have hword : ∀ v ∈ (Instr.loop l).operands, σ₁.word? v = σ.word? v := fun v hv =>
    Semantics.word?_of_env (hI.bounds v hv)
  have hat := h.atIteration hB hI.respects ((hword _ (by simp [Instr.operands])).trans hlower)
    ((hword _ (by simp [Instr.operands])).trans hstep) htrips hj hI.related
  have hslots : ∀ slot ∈ set.slots, ¬Semantics.Defines rot slot.value ∧
      ∃ place, (Semantics.enter loop l lower step j τ).env slot.value = some (.buffer place) := by
    intro slot hslot
    obtain ⟨new, hnew, -⟩ := R₁.slots old hold slot hslot
    exact ⟨fun hv => (h.fresh _ hv).2 slot hslot rfl, new, hnew⟩
  have hold' : ∀ v ∈ (Instr.loop l).operands, v.index < k.values.size := fun v hv =>
    h.stores.operand_lt h.visible h.loops hv
  obtain ⟨slot, hslot, new, τ₂, hnew, hτ₂, hselected, hbinds⟩ := Semantics.steps_entry sem h.rotates hat
    h.inhabited h.count hfits ⟨h.stores.result_lt h.loops rfl, hold' _ (by simp [Instr.operands]),
      hold' _ (by simp [Instr.operands])⟩ (fun v hv => (h.fresh v hv).1) h.distinct hslots
  have hhidden : ∀ v, Semantics.Defines rot v ∨ v = set.selected →
      Hidden k.values.size buffer v ∧ ∀ slot ∈ set.slots, slot.value ≠ v := by
    rintro v (hv | rfl)
    · exact ⟨Or.inr (h.fresh v hv).1, (h.fresh v hv).2⟩
    · exact ⟨h.unseen.selected, h.apart⟩
  exact ⟨old, new, τ₂, hτ₂, R₁.select hold hslot hnew hbinds hhidden hselected⟩

theorem simulates_iteration {upper : Int64} {settled : Prop} {σ₁ σ₂ : Machine} {j : Nat}
    (hV : set.Suits k buffer loop V) (hB : F.Holds loop l body)
    (hbody : Mirrored sem k F alloc buffer loop l set rot V body) (hlower : σ.word? l.lower = some lower)
    (hstep : σ.word? l.step = some step) (htrips : trips? lower.toInt upper.toInt step.toInt = some trips)
    (hj : j < trips) (hI : Between k F buffer l set settled σ σ₁ τ)
    (hrun : sem.exec body (Semantics.enter loop l lower step j σ₁) = some σ₂) (hvisits : σ₂.visits <+: V) :
    ∃ τ₂, sem.exec (.prepend (rot ++ [set.selectNode]) (body.rewrite (.spreading alloc buffer l.body set rot)))
        (Semantics.enter loop l lower step j τ) = some τ₂ ∧
      Between k F buffer l set settled σ σ₂ τ₂ := by
  have hkeeps := Semantics.invariant_keeps sem h.stores
  have henter := h.keeps_enter sem h.loops lower step j σ₁
  have hstarted : .iteration loop (j * step.toInt) ∈ (Semantics.enter loop l lower step j σ₁).visits :=
    List.mem_append_right _ (List.mem_singleton_self _)
  have hfits : set.slots.length = 1 ∨ j * step.toInt < 2 ^ 63 := hV.fits.imp_right fun hfits =>
    hfits _ (hvisits.subset (((Semantics.invariant_visits sem body).exec hrun).subset hstarted))
  obtain ⟨old, new, τ₁, hτ₁, R₁⟩ := h.selects sem hB hlower hstep htrips hj hfits hI
  -- nothing is accessed yet in this iteration
  have hsettled : set.Settled k buffer loop (Semantics.enter loop l lower step j σ₁).visits →
      set.slots.length = 1 := by
    refine fun hs => hs.resolve_right (not_not.mpr ?_)
    exact Kernel.accessesSince_starting (beq_self_eq_true loop)
  have hahead : Ahead F alloc buffer loop body (some (old, new)).isSome
      (Semantics.enter loop l lower step j σ₁) := by
    refine ⟨fun n hn => hB.nodes_subset hn, hB.trans, hB.nodup h.stores.nodup, henter.respects hI.respects,
      fun _ => ⟨fun x hx => ?_, ?_⟩, fun hout => absurd rfl hout, fun hout => absurd rfl hout⟩
    · exact (hB.inScope_iff h.stores.nodup).mpr hx
    · exact ⟨_, hstarted, beq_self_eq_true loop⟩
  obtain ⟨τ₂, hτ₂, R₂⟩ := hbody hahead hrun hvisits (R₁.imp hsettled)
  have hrest := (hkeeps.mono fun n hn => hB.nodes_subset hn).exec hrun
  refine ⟨τ₂, ?_, hrest.respects (henter.respects hI.respects), hrest.bound _ (henter.bound _ hI.bound),
    fun v hv => ?_, R₂.unfocus _⟩
  · rw [Semantics.exec_prepend, hτ₁]
    exact hτ₂
  · obtain ⟨hinduction, hinside⟩ := h.bounds_outside hB hv
    refine ((Semantics.invariant_frame sem hinside).exec hrun).trans (Eq.trans ?_ (hI.bounds v hv))
    exact Function.update_of_ne hinduction _ _

theorem simulates_loop {upper : Int64} (hV : set.Suits k buffer loop V) (hB : F.Holds loop l body)
    (hrespects : σ.Respects F) (hbound : σ.env buffer ≠ none)
    (hbody : Mirrored sem k F alloc buffer loop l set rot V body) (hlower : σ.word? l.lower = some lower)
    (hstep : σ.word? l.step = some step) (htrips : trips? lower.toInt upper.toInt step.toInt = some trips)
    (hrun : Semantics.iterate (sem.exec body) (Semantics.enter loop l lower step) trips 0 σ = some σ')
    (hvisits : σ'.visits <+: V) {settled : Prop} (R : Related k.values.size buffer set none settled σ τ) :
    ∃ τ', Semantics.iterate (sem.exec (.prepend (rot ++ [set.selectNode])
        (body.rewrite (.spreading alloc buffer l.body set rot)))) (Semantics.enter loop l lower step) trips 0 τ =
          some τ' ∧
      Related k.values.size buffer set none settled σ' τ' := by
  have hstart : ∀ i m, m.visits <+: (Semantics.enter loop l lower step i m).visits :=
    fun i m => List.prefix_append _ _
  have hone : ∀ j < 0 + trips, ∀ {σ₁ σ₂ τ₁}, Between k F buffer l set settled σ σ₁ τ₁ →
      sem.exec body (Semantics.enter loop l lower step j σ₁) = some σ₂ → σ₂.visits <+: V →
      ∃ τ₂, sem.exec (.prepend (rot ++ [set.selectNode]) (body.rewrite (.spreading alloc buffer l.body set rot)))
          (Semantics.enter loop l lower step j τ₁) = some τ₂ ∧
        Between k F buffer l set settled σ σ₂ τ₂ := by
    intro j hj σ₁ σ₂ τ₁ hI hrun hvisits
    rw [Nat.zero_add] at hj
    exact h.simulates_iteration hV hB hbody hlower hstep htrips hj hI hrun hvisits
  obtain ⟨τ', hτ', hI⟩ := Semantics.iterate_mirrored hstart
    (Semantics.invariant_visits sem body).exec hone hrun hvisits
    ⟨hrespects, hbound, fun _ _ => rfl, R⟩
  exact ⟨τ', hτ', hI.related⟩

theorem mirrored (hV : set.Suits k buffer loop V) (G : Forest) :
    Mirrored sem k F alloc buffer loop l set rot V G := by
  induction G with
  | nil =>
    intro focus σ σ' τ _ hrun _ R
    cases hrun
    exact ⟨τ, rfl, R⟩
  | op id i rest ih =>
    intro focus σ σ' τ ha hrun hvisits R
    obtain ⟨σ₁, hone, hrest⟩ := Option.bind_eq_some_iff.mp hrun
    have hgrows := ((Semantics.invariant_visits sem rest).exec hrest).trans hvisits
    obtain ⟨τ₁, hτ₁, R₁⟩ := h.simulates_op hV ha hone hgrows R
    obtain ⟨τ', hτ', R'⟩ := ih (h.ahead_op ha hone) hrest hvisits R₁
    refine ⟨τ', ?_, R'⟩
    rw [Forest.rewrite, Semantics.exec_prepend, hτ₁]
    exact hτ'
  | loop id l' body rest ihb ihr =>
    intro focus σ σ' τ ha hrun hvisits R
    simp only [Semantics.exec, Option.bind_eq_bind, Option.bind_eq_some_iff] at hrun
    obtain ⟨lower, hlower, upper, hupper, step, hstep, trips, htrips, σ₁, hbody, hrest⟩ := hrun
    have hn : (id, .loop l') ∈ F.nodes := ha.nodes _ List.mem_cons_self
    have hwords : ∀ v ∈ (Instr.loop l').operands, ∀ n, σ.word? v = some n →
        v ≠ buffer ∧ τ.word? (set.rename buffer v) = some n := fun v hv n hword =>
      ⟨R.ne_of_word (h.bound_focus ha hv) hword,
        R.word (h.stores.operand_lt h.visible hn hv) (h.bound_focus ha hv) hword⟩
    obtain ⟨hlower_ne, hlower'⟩ := hwords _ (by simp [Instr.operands]) _ hlower
    obtain ⟨hupper_ne, hupper'⟩ := hwords _ (by simp [Instr.operands]) _ hupper
    obtain ⟨hstep_ne, hstep'⟩ := hwords _ (by simp [Instr.operands]) _ hstep
    have hnone : k.accessesIn buffer id = [] := by
      rw [h.stores.accessesIn_eq_nil_iff hn]
      simp [Instr.operands, hlower_ne.symm, hupper_ne.symm, hstep_ne.symm]
    have R₀ : Related k.values.size buffer set focus (set.Settled k buffer loop (σ.visit (.loop id trips)).visits)
        (σ.visit (.loop id trips)) (τ.visit (.loop id trips)) := by
      refine (R.visit _ _).imp fun hs => hs.imp_right fun hne heq => hne ?_
      exact (Kernel.accessesSince_concat rfl).trans (by simp [heq, Visit.reads, hnone])
    have hkeeps := Semantics.invariant_keeps sem h.stores
    have ha₀ := ha.advance (hkeeps.visit σ (.loop id trips)) (List.prefix_append _ _)
    have hgrows := ((Semantics.invariant_visits sem rest).exec hrest).trans hvisits
    have hloop : ∃ τ₁, Semantics.iterate
        (sem.exec (.prepend ((Rewriting.spreading alloc buffer l.body set rot).top l'.body)
          (body.rewrite (.spreading alloc buffer l.body set rot)))) (Semantics.enter id l' lower step) trips 0
          (τ.visit (.loop id trips)) = some τ₁ ∧
        Related k.values.size buffer set focus (set.Settled k buffer loop σ₁.visits) σ₁ τ₁ := by
      have hB : F.Holds id l' body := ha.holds (Or.inl ⟨rfl, rfl, rfl⟩)
      by_cases heq : id = loop
      · subst heq
        obtain rfl : l' = l := by injection Forest.node_unique h.stores.nodup hn h.loops
        -- the loop is not inside itself, so no slot is in focus yet
        obtain rfl : focus = none := by
          rw [← Option.not_isSome_iff_eq_none]
          exact fun hin => (h.notMem_alloc ha hin).2 (by simp)
        have hbound : (σ.visit (.loop id trips)).env buffer ≠ none := by
          obtain ⟨hidb, hidr, -, -, -⟩ := Forest.nodup_loop ha.nodup
          rcases ha₀.made (by simp) (by simp) with hbound | ⟨-, hin⟩ | hin | hin
          · exact hbound
          · exact absurd hin hidb
          · exact absurd hin.right_mem hidb
          · exact absurd hin.right_mem hidr
        obtain ⟨τ₁, hτ₁, R₁⟩ := h.simulates_loop hV hB ha₀.respects hbound ihb hlower hstep htrips hbody hgrows R₀
        have htop : (Rewriting.spreading alloc buffer l'.body set rot).top l'.body = rot ++ [set.selectNode] :=
          if_pos rfl
        exact ⟨τ₁, htop ▸ hτ₁, R₁.unfocus _⟩
      · have htop : (Rewriting.spreading alloc buffer l.body set rot).top l'.body = [] :=
          if_neg fun hbody => heq (h.stores.eq_of_body hn h.loops hbody)
        rw [htop]
        exact h.simulates_other ha₀ heq ihb hbody hgrows R₀
    obtain ⟨τ₁, hτ₁, R₁⟩ := hloop
    have hin : ∀ n ∈ body.nodes, n ∈ F.nodes :=
      fun n hn => ha.nodes n (List.mem_cons_of_mem _ (List.mem_append_left _ hn))
    have ha₁ := (ahead_rest ha₀).advance (hkeeps.loop hn hin hbody)
      ((Semantics.invariant_visits sem F).loop hn hin hbody)
    obtain ⟨τ', hτ', R'⟩ := ihr ha₁ hrest hvisits R₁
    refine ⟨τ', ?_, R'⟩
    simp only [Forest.rewrite, Semantics.exec, Rewriting.spreading, hlower', hupper', hstep', htrips,
      Option.bind_eq_bind, Option.bind_some]
    exact Option.bind_eq_some_iff.mpr ⟨τ₁, hτ₁, hτ'⟩

theorem simulates (hrun : sem.exec F {} = some σ) (hV : set.Suits k buffer loop σ.visits) :
    ∃ τ, sem.exec (F.rewrite (.spreading alloc buffer l.body set rot)) {} = some τ ∧
      ∃ settled, Related k.values.size buffer set none settled σ τ := by
  have hahead : Ahead F alloc buffer loop F (none : Option (Instance × Instance)).isSome {} := by
    refine ⟨fun n hn => hn, id, h.stores.nodup, ?_, nofun, fun _ => h.inner, fun _ _ => Or.inr h.outer⟩
    exact fun n hn v d _ hd => nomatch hd
  have hstart : Related k.values.size buffer set none (set.Settled k buffer loop []) {} {} :=
    ⟨fun _ _ => rfl, nofun, fun _ _ => rfl, fun _ _ => rfl, rfl, nofun, nofun⟩
  obtain ⟨τ, hτ, R⟩ := h.mirrored hV F hahead hrun List.prefix_rfl hstart
  exact ⟨τ, hτ, _, R⟩

end Layout
end SlotRotation
