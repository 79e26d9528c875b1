import SlotRotation.Proofs.Effect
import SlotRotation.Proofs.Rotating

/-! The index counts. Evaluated in the iteration `i` of its loop it is `i` modulo the number of slots, whichever of
its steps were left out, so the selector goes round the slots. -/

namespace SlotRotation

variable {k k' k₁ k₂ : Kernel} {F : Forest} {l : Loop} {n i : Nat} {start stride : Int64} {p : InsertPoint}

abbrev Words := ValueId → Option Int64

def Instr.fold? (words : Words) : Instr → Option (ValueId × Int64)
  | .constant result value => some (result, value)
  | .arith result op lhs rhs => do
    let x ← words lhs
    let y ← words rhs
    let z ← op.fold x y
    return (result, z)
  | _ => none

/-- Evaluates ops in a row. There is no answer if one of them does not fold. -/
def Kernel.evaluate? (k : Kernel) : List OpId → Words → Option Words
  | [], words => some words
  | x :: xs, words => do
    let i ← k.instr? x
    let (result, word) ← i.fold? words
    k.evaluate? xs (Function.update words result (some word))

def Rotation.index? (rotation : Rotation) (k : Kernel) (words : Words) : Option Int64 := do
  let words ← k.evaluate? rotation.ops words
  words rotation.value

def SlotSet.slot? (set : SlotSet) (k : Kernel) (words : Words) : Option ValueId :=
  match k.instr? set.selector with
  | some (.selectSlot _ slots index) => do
    let words ← k.evaluate? set.rotation.ops words
    let word ← words index
    Semantics.slotAt? slots word
  | _ => none

/-- The words are those of the iteration `i` of a loop from `start` by `stride`. -/
structure Loop.At (l : Loop) (k : Kernel) (start stride : Int64) (i : Nat) (words : Words) : Prop where
  constants : ∀ v c, k.constant? v = some c → words v = some c
  lower : words l.lower = some start
  step : words l.step = some stride
  induction : ∃ w, words l.induction = some w ∧ w.toInt = start.toInt + i * stride.toInt
  forward : 1 ≤ stride.toInt
  fits : i * stride.toInt < 2 ^ 63

def Loop.Known (l : Loop) (k : Kernel) : Prop :=
  l.induction.index < k.values.size ∧ l.lower.index < k.values.size ∧ l.step.index < k.values.size

namespace Semantics

theorem word?_define_eq (m : Machine) (v : ValueId) (w : Int64) :
    (m.define v (.word w)).word? = Function.update m.word? v (some w) := by
  funext u
  by_cases hu : u = v
  · subst hu
    rw [word?_define, Function.update_self]
  · rw [Function.update_of_ne hu]
    exact word?_of_env (Function.update_of_ne hu _ _)

theorem evaluate?_word? (sem : Semantics) {ns : List Node} (hk : ∀ n ∈ ns, k.instr? n.1 = some n.2)
    (hns : ∀ n ∈ ns, (∃ v c, n.2 = .constant v c) ∨ ∃ v op lhs rhs, n.2 = .arith v op lhs rhs) (m : Machine) :
    k.evaluate? (ns.map Prod.fst) m.word? = (sem.steps ns m).map Machine.word? := by
  induction ns generalizing m with
  | nil => rfl
  | cons n ns ih =>
    have ih' := ih (fun d hd => hk d (List.mem_cons_of_mem _ hd)) fun d hd => hns d (List.mem_cons_of_mem _ hd)
    have hdefine : ∀ v w, k.evaluate? (ns.map Prod.fst) (Function.update m.word? v (some w)) =
        (sem.steps ns ((m.visit (.op n.1)).define v (.word w))).map Machine.word? := by
      intro v w
      rw [← ih', word?_define_eq]
      rfl
    rw [List.map_cons, Kernel.evaluate?, hk n List.mem_cons_self, steps]
    rcases hns n List.mem_cons_self with ⟨v, c, hn⟩ | ⟨v, op, lhs, rhs, hn⟩
    · rw [hn]
      exact hdefine v c
    · have hvisit : (m.visit (.op n.1)).word? = m.word? := rfl
      rw [hn, step, hvisit]
      cases hx : m.word? lhs with
      | none => simp [Instr.fold?, hx]
      | some x =>
        cases hy : m.word? rhs with
        | none => simp [Instr.fold?, hx, hy]
        | some y =>
          cases hz : op.fold x y with
          | none => simp [Instr.fold?, hx, hy, hz]
          | some z => simpa [Instr.fold?, hx, hy, hz] using hdefine v z

end Semantics

/-- In every iteration the index is the number of the iteration modulo `n`. -/
def Rotation.Counts (rotation : Rotation) (l : Loop) (n : Nat) (k k' : Kernel) : Prop :=
  ∀ start stride i words, l.At k start stride i words →
    ∃ w, rotation.index? k' words = some w ∧ w.toInt = (i % n : Nat)

theorem Rotation.InPlace.index?_eq {rotation : Rotation} {rot : List Node}
    (h : rotation.InPlace F l n k.values.size rot k') (hconstant : ∀ v c, F.Constant v c → k.constant? v = some c)
    (hknown : l.Known k) (hn : 0 < n) (hn' : n < 2 ^ 63) {words : Words} (hat : l.At k start stride i words) :
    rotation.index? k' words = some (Int64.ofInt (i % n : Nat)) := by
  -- a machine that holds the words and no buffers
  let sem : Semantics := ⟨fun _ => 0, fun _ _ _ _ => 0⟩
  let m : Machine := { env := fun v => (words v).map .word }
  have hm : m.word? = words := by
    funext v
    cases hv : words v <;> simp [Machine.word?, m, hv]
  obtain ⟨w, hw, heq⟩ := hat.induction
  have hiteration : Semantics.AtIteration F l start stride i m := by
    refine ⟨?_, ?_, ?_, ?_, hat.forward, fun hc => ?_, fun hc => ?_⟩
    · rw [hm, hw, ← heq, Int64.ofInt_toInt]
    · rw [hm, hat.lower]
    · rw [hm, hat.step]
    · rw [← heq]
      exact ⟨Int64.le_toInt w, Int64.toInt_lt w⟩
    · exact Option.some.inj (hat.lower.symm.trans (hat.constants _ _ (hconstant _ _ hc)))
    · exact Option.some.inj (hat.step.symm.trans (hat.constants _ _ (hconstant _ _ hc)))
  have hfresh : ∀ v, Semantics.Defines rot v → k.values.size ≤ v.index := by
    rintro v ⟨d, hd, hres⟩
    exact h.fresh d hd v hres
  obtain ⟨m', hrun, hvalue, -⟩ := Semantics.steps_rotates sem h.rotates hiteration hn hn' (Or.inr hat.fits) hknown
    hfresh h.distinct
  have heval := Semantics.evaluate?_word? sem h.live (fun d hd => h.rotates.mem_cases hd) m
  rw [hm, hrun, ← h.ops] at heval
  rw [Rotation.index?, heval]
  exact hvalue

theorem Rotation.InPlace.counts {rotation : Rotation} {rot : List Node}
    (h : rotation.InPlace F l n k.values.size rot k') (hconstant : ∀ v c, F.Constant v c → k.constant? v = some c)
    (hknown : l.Known k) (hn : 0 < n) (hn' : n < 2 ^ 63) : rotation.Counts l n k k' := by
  intro start stride i words hat
  have hmod := Nat.mod_lt i hn
  exact ⟨_, h.index?_eq hconstant hknown hn hn' hat, Int64.toInt_ofInt_of_le (by omega) (by omega)⟩

namespace Kernel

/-- The ops `ns` were put into a kernel, and each defines a new value. -/
structure Gains (k k' : Kernel) (ns : List Node) : Prop where
  values : k.values.size ≤ k'.values.size
  keeps : ∀ x i, k.instr? x = some i → k'.instr? x = some i
  live : ∀ n ∈ ns, k'.instr? n.1 = some n.2
  results : ∀ n ∈ ns, ∀ v, n.2.result? = some v → k.values.size ≤ v.index ∧ v.index < k'.values.size
  distinct : (ns.filterMap fun n => n.2.result?).Nodup

namespace Gains

variable {ns ms : List Node}

theorem refl (k : Kernel) : Gains k k [] := ⟨Nat.le_refl _, fun _ _ h => h, by simp, by simp, by simp⟩

theorem append (h : Gains k k₁ ns) (h' : Gains k₁ k₂ ms) : Gains k k₂ (ns ++ ms) where
  values := Nat.le_trans h.values h'.values
  keeps x i hi := h'.keeps x i (h.keeps x i hi)
  live n hn := by
    rcases List.mem_append.mp hn with hn | hn
    · exact h'.keeps _ _ (h.live n hn)
    · exact h'.live n hn
  results n hn v hv := by
    rcases List.mem_append.mp hn with hn | hn
    · exact ⟨(h.results n hn v hv).1, Nat.lt_of_lt_of_le (h.results n hn v hv).2 h'.values⟩
    · exact ⟨Nat.le_trans h.values (h'.results n hn v hv).1, (h'.results n hn v hv).2⟩
  distinct := by
    rw [List.filterMap_append, List.nodup_append]
    refine ⟨h.distinct, h'.distinct, fun v hv w hw heq => ?_⟩
    obtain ⟨n, hn, hres⟩ := List.mem_filterMap.mp hv
    obtain ⟨n', hn', hres'⟩ := List.mem_filterMap.mp hw
    have hlt := (h.results n hn v hres).2
    rw [heq] at hlt
    exact absurd hlt (Nat.not_lt.mpr (h'.results n' hn' w hres').1)

end Gains

theorem constant?_eq_some_iff {v : ValueId} {c : Int64} :
    k.constant? v = some c ↔ ∃ d r, k.recorded? v = some d ∧ k.instr? d = some (.constant r c) := by
  have hdefinition : k.definition? v = (k.recorded? v).filter k.isLive := rfl
  rw [constant?, hdefinition]
  constructor
  · intro h
    split at h
    · rename_i r c' hi
      cases h
      obtain ⟨d, hd, hi⟩ := Option.bind_eq_some_iff.mp hi
      exact ⟨d, r, (Option.filter_eq_some_iff.mp hd).1, hi⟩
    · cases h
  · rintro ⟨d, r, hd, hi⟩
    obtain ⟨op, hop, -⟩ := Option.map_eq_some_iff.mp hi
    have hlive : k.isLive d = true := by rw [isLive, hop]; rfl
    rw [hd, Option.filter_some, if_pos hlive, Option.bind_some, hi]

theorem insert_eq_ok {i : Instr} (hregion : i.region? = none) {x : OpId} (hrun : Edit.insert i p k = .ok x k') :
    x = k.nextOp ∧ (∀ y, k'.instr? y = if y = x then some i else k.instr? y) ∧ k'.values.size = k.values.size ∧
      ∀ v, k'.recorded? v = if i.result? = some v ∧ v.index < k.values.size then some x else k.recorded? v := by
  unfold Edit.insert at hrun
  split at hrun
  · cases hrun
  · rename_i r j _
    simp only [unknownRegion?, hregion, Option.filter_none, own_of_region?_eq_none _ _ hregion] at hrun
    cases hrun
    refine ⟨rfl, fun y => ?_, size_values_define .., recorded?_define k i k.nextOp⟩
    rw [instr?, op?_place, nextOp_define]
    by_cases hy : y = k.nextOp
    · rw [if_pos hy, if_pos hy]
      rfl
    · rw [if_neg hy, if_neg hy, op?, ops_define]
      rfl

theorem gains_of_insert {f : ValueId → Instr} (hresult : ∀ v, (f v).result? = some v)
    (hregion : ∀ v, (f v).region? = none) {v : ValueId} {x : OpId}
    (hrun : (do
      let result ← Edit.newValue .index
      let op ← Edit.insert (f result) p
      return (result, op) : Edit (ValueId × OpId)) k = .ok (v, x) k') :
    Gains k k' [(x, f v)] ∧
      ((∀ r c, f v ≠ .constant r c) → ∀ w c, k'.constant? w = some c → k.constant? w = some c) := by
  obtain ⟨_, _, hnew, hrun⟩ := bind_eq_ok hrun
  cases hnew
  obtain ⟨_, _, hinsert, hrun⟩ := bind_eq_ok hrun
  cases hrun
  obtain ⟨rfl, hinstr, hsize, hrecorded⟩ := insert_eq_ok (hregion _) hinsert
  have hsize' : k'.values.size = k.values.size + 1 := hsize.trans (Array.size_push ..)
  have hself := (hinstr (k.addValue .index).nextOp).trans (if_pos rfl)
  constructor
  · refine ⟨by omega, fun y i hy => ?_, ?_, ?_, ?_⟩
    · obtain ⟨op, hop, -⟩ := Option.map_eq_some_iff.mp hy
      have hne : y ≠ (k.addValue .index).nextOp := by
        rintro rfl
        exact Nat.lt_irrefl _ (lt_size_of_op? hop)
      rw [hinstr, if_neg hne]
      exact hy
    · simpa using hself
    · simp only [List.mem_singleton, forall_eq, hresult, Option.some.injEq]
      rintro _ rfl
      exact ⟨Nat.le_refl _, hsize' ▸ Nat.lt_succ_self _⟩
    · simp [hresult]
  · intro hne w c hc
    obtain ⟨d, r, hd, hi⟩ := constant?_eq_some_iff.mp hc
    -- a value may have had the id of the new op as its definition before there was such an op
    have hd' : d ≠ (k.addValue .index).nextOp := by
      rintro rfl
      exact hne r c (Option.some.inj (hself.symm.trans hi))
    rw [hinstr, if_neg hd'] at hi
    rw [hrecorded] at hd
    split at hd
    · exact absurd (Option.some.inj hd).symm hd'
    · rw [recorded?_addValue] at hd
      exact constant?_eq_some_iff.mpr ⟨d, r, hd, hi⟩

def constantsOf (k : Kernel) (vs : List ValueId) : Forest :=
  Forest.prepend (vs.filterMap fun v => (k.constant? v).map fun c => (⟨0⟩, .constant v c)) .nil

theorem constant_constantsOf {vs : List ValueId} {v : ValueId} {c : Int64} :
    (k.constantsOf vs).Constant v c ↔ v ∈ vs ∧ k.constant? v = some c := by
  rw [Forest.Constant, constantsOf, Forest.nodes_prepend]
  simp [Forest.nodes]

theorem addArithUnless_gains {c : Int64} {op : ArithOp} {value other v : ValueId} {ops : List OpId}
    (hother : k.constant? other = some c → F.Constant other c)
    (hrun : Edit.addArithUnless c op value other p k = .ok (v, ops) k') :
    ∃ ns, ops = ns.map Prod.fst ∧ Combines F c op value other ns v ∧ Gains k k' ns ∧
      ∀ w c, k'.constant? w = some c → k.constant? w = some c := by
  obtain ⟨_, _, hget, hrun⟩ := bind_eq_ok hrun
  cases hget
  split at hrun
  · rename_i hc
    cases hrun
    exact ⟨[], rfl, Or.inl ⟨rfl, rfl, hother hc⟩, .refl k, fun _ _ h => h⟩
  · obtain ⟨⟨_, x⟩, _, harith, hrun⟩ := bind_eq_ok hrun
    cases hrun
    obtain ⟨hgains, hconstant⟩ := gains_of_insert (f := fun v => .arith v op value other) (fun _ => rfl)
      (fun _ => rfl) harith
    exact ⟨_, rfl, Or.inr ⟨x, rfl⟩, hgains, hconstant nofun⟩

theorem addRotation_inPlace {rotation : Rotation} (hrun : Edit.addRotation l n p k = .ok rotation k') :
    ∃ rot, rotation.InPlace (k.constantsOf [l.lower, l.step]) l n k.values.size rot k' := by
  have hconstant : ∀ {c : Int64} {v : ValueId}, v ∈ [l.lower, l.step] → k.constant? v = some c →
      (k.constantsOf [l.lower, l.step]).Constant v c := fun hv hc => constant_constantsOf.mpr ⟨hv, hc⟩
  suffices h : ∃ rot, Rotates (k.constantsOf [l.lower, l.step]) l n rot rotation.value ∧
      rotation.ops = rot.map Prod.fst ∧ Gains k k' rot by
    obtain ⟨rot, hrotates, hops, hgains⟩ := h
    exact ⟨rot, hrotates, hops, hgains.live, fun d hd v hv => (hgains.results d hd v hv).1, hgains.distinct⟩
  unfold Edit.addRotation at hrun
  split_ifs at hrun with hlarge hn
  · cases hrun
  · subst hn
    obtain ⟨⟨v, x⟩, _, hzero, hrun⟩ := bind_eq_ok hrun
    cases hrun
    exact ⟨_, .single x v, rfl, (gains_of_insert (f := fun v => .constant v 0) (fun _ => rfl)
      (fun _ => rfl) hzero).1⟩
  · obtain ⟨⟨offset, _⟩, k₁, hshift, hrun⟩ := bind_eq_ok hrun
    obtain ⟨⟨iteration, _⟩, k₂, hscale, hrun⟩ := bind_eq_ok hrun
    obtain ⟨⟨modulus, c⟩, k₃, hmodulus, hrun⟩ := bind_eq_ok hrun
    obtain ⟨⟨v, x⟩, k₄, hremainder, hrun⟩ := bind_eq_ok hrun
    cases hrun
    obtain ⟨shift, rfl, hcombines, hgains₁, hback⟩ := addArithUnless_gains (hconstant (by simp)) hshift
    -- the step is looked up with the subtraction in place
    obtain ⟨scale, rfl, hcombines', hgains₂, -⟩ := addArithUnless_gains
      (fun hc => hconstant (by simp) (hback _ _ hc)) hscale
    have hgains₃ := (gains_of_insert (f := fun v => .constant v (Int64.ofNat n)) (fun _ => rfl) (fun _ => rfl)
      hmodulus).1
    have hgains₄ := (gains_of_insert (f := fun v => .arith v .rem iteration modulus) (fun _ => rfl) (fun _ => rfl)
      hremainder).1
    refine ⟨shift ++ scale ++ [(c, .constant modulus (Int64.ofNat n)), (x, .arith v .rem iteration modulus)],
      .many hn hcombines hcombines', by simp, ?_⟩
    exact (hgains₁.append hgains₂).append (hgains₃.append hgains₄)

end Kernel

/-- The selector of a set goes round its slots: it never leaves the list, comes back to a slot after as many
iterations as there are slots, and not before. -/
structure SlotSet.Cycles (set : SlotSet) (l : Loop) (k k' : Kernel) : Prop where
  counts : set.rotation.Counts l set.slots.length k k'
  inside : ∀ {start stride i words}, l.At k start stride i words →
    ∃ slot ∈ set.slots, set.slot? k' words = some slot.value
  again : ∀ {start stride i words words'}, l.At k start stride i words →
    l.At k start stride (i + set.slots.length) words' → set.slot? k' words' = set.slot? k' words
  apart : ∀ {start stride i j words words'}, l.At k start stride i words → l.At k start stride j words' → i < j →
    j < i + set.slots.length → set.slot? k' words ≠ set.slot? k' words'

theorem SlotSet.cycles_of_inPlace {set : SlotSet} {rot : List Node}
    (h : set.rotation.InPlace F l set.slots.length k.values.size rot k')
    (hconstant : ∀ v c, F.Constant v c → k.constant? v = some c) (hknown : l.Known k) (hn : 0 < set.slots.length)
    (hn' : set.slots.length < 2 ^ 63) (hdistinct : set.slotValues.Nodup)
    (hselects : k'.instr? set.selector = some (.selectSlot set.selected set.slotValues set.rotation.value)) :
    set.Cycles l k k' := by
  have hslot : ∀ {start stride i words}, l.At k start stride i words →
      set.slot? k' words = set.slotValues[i % set.slots.length]? := by
    intro start stride i words hat
    have hindex : (k'.evaluate? set.rotation.ops words).bind (fun words => words set.rotation.value) = some _ :=
      h.index?_eq hconstant hknown hn hn' hat
    rw [slot?, hselects]
    change (k'.evaluate? _ _).bind (fun words => (words _).bind (Semantics.slotAt? set.slotValues)) = _
    rw [← Option.bind_assoc, hindex, Option.bind_some]
    exact Semantics.slotAt?_ofInt _ (Nat.lt_trans (Nat.mod_lt i hn) hn')
  refine ⟨h.counts hconstant hknown hn hn', fun {start stride i words} hat => ?_,
    fun {start stride i words words'} hat hat' => ?_, fun {start stride i j words words'} hat hat' hij hji => ?_⟩
  · have hmod := Nat.mod_lt i hn
    refine ⟨set.slots[i % set.slots.length], List.getElem_mem _, ?_⟩
    rw [hslot hat, SlotSet.slotValues, List.getElem?_map, List.getElem?_eq_getElem hmod]
    rfl
  · rw [hslot hat, hslot hat', Nat.add_mod_right]
  · rw [hslot hat, hslot hat']
    intro heq
    have hlength : set.slotValues.length = set.slots.length := List.length_map _
    have hlt : i % set.slots.length < set.slotValues.length := by
      rw [hlength]
      exact Nat.mod_lt i hn
    have hmod := (List.getElem?_inj hlt hdistinct).mp heq
    have hsub := Nat.sub_mod_eq_zero_of_mod_eq hmod.symm
    rw [Nat.mod_eq_of_lt (by omega)] at hsub
    omega

namespace Kernel

theorem Installs.inPlace {E : Exchange F} {P : Footprint} {set : SlotSet} {guard rot : List Node}
    (h : Installs k k' E P set l guard rot) (hS : Stores k F) :
    set.rotation.InPlace F l set.slots.length k.values.size rot k' where
  rotates := h.rotates
  ops := h.yields.rot_ids.symm
  live d hd := h.stores.instr?_of_mem (h.rot_mem hS d hd)
  fresh := h.rot_new
  distinct := h.stores.nodup_results (h.rot_mem hS) (h.rot_nodup hS)

namespace Grown

variable {M N : Nat} {policy : Policy} {site : Site} {factor : Int64} {set set' : SlotSet} {s s' : Transform.State}

theorem known (h : Grown M N k F) {a : OpId} (hl : k.loop? a = some l) : l.Known k := by
  have hl' := h.loop?_eq_some_iff.mp hl
  have hread := h.steady.knows _ hl'
  exact ⟨h.result_lt hl' rfl, hread _ (by simp [Instr.operands]), hread _ (by simp [Instr.operands])⟩

theorem cycles_of_expand (h : Grown M N s.kernel F) (hM : site.alloc.index < M) (hN : site.buffer.index < N)
    (hrun : Transform.expand policy site factor s = .ok set s') :
    ∃ l, s.kernel.loop? set.loop = some l ∧ set.Cycles l s.kernel s'.kernel := by
  obtain ⟨-, -, htracked, -⟩ := h.expand hM hN hrun
  obtain ⟨e, a, l, E, rot, -, -, hslots, hinstalls⟩ := h.installs_of_expand hN hrun
  have hl := h.loop?_eq_some_iff.mpr hinstalls.lies.loop
  exact ⟨l, hl, SlotSet.cycles_of_inPlace (hinstalls.inPlace h.toStores)
    (fun v c hc => h.toStores.constant?_eq_some_iff.mpr hc) (h.known hl) (slotsAsked_pos hslots)
    (slotsAsked_lt hslots) htracked.distinct
    (hinstalls.stores.instr?_of_mem (hinstalls.fits h.toStores).selects)⟩

theorem cycles_of_resize (h : Grown M N s.kernel F) (hset : set.Tracked M N s.kernel)
    (hrun : Transform.resize policy set factor s = .ok set' s') :
    ∃ l, s.kernel.loop? set'.loop = some l ∧ set'.Cycles l s.kernel s'.kernel := by
  obtain ⟨-, htracked, l, rot, hl, hslots, hplace, hselects⟩ := h.resize hset hrun
  exact ⟨l, hl, SlotSet.cycles_of_inPlace hplace (fun v c hc => h.toStores.constant?_eq_some_iff.mpr hc) (h.known hl)
    (slotsAsked_pos hslots) (slotsAsked_lt hslots) htracked.distinct hselects⟩

end Grown
end Kernel

/-- A tile in a loop from 4 by a step that is no constant. -/
def Stmt.strided : List Stmt :=
  [.alloc .tile (some 3) none, .constant 4, .constant 40, .arith .add ⟨1⟩ ⟨1⟩,
    .loop ⟨1⟩ ⟨2⟩ ⟨3⟩ none [.fill ⟨0⟩ ⟨4⟩], .dealloc ⟨0⟩]

namespace Transform

variable {s s' : State} {a : OpId} {rotation : Rotation}

theorem counts_of_deriveRotation (hl : s.kernel.loop? a = some l) (hknown : l.Known s.kernel) (hn : 0 < n)
    (hn' : n < 2 ^ 63) (hrun : deriveRotation a n p s = .ok rotation s') :
    rotation.Counts l n s.kernel s'.kernel := by
  have hget : s.kernel.getLoop a = .ok l := by rw [Kernel.getLoop, hl]
  rw [deriveRotation, query_bind_ok (q := (·.getLoop a)) hget] at hrun
  obtain ⟨_, s₁, hedit, hrun⟩ := bind_eq_ok hrun
  obtain ⟨_, s₂, hrecord, hrun⟩ := bind_eq_ok hrun
  cases hrecord
  cases hrun
  obtain ⟨rot, hplace⟩ := Kernel.addRotation_inPlace (edit_eq_ok hedit).1
  exact hplace.counts (fun v c hc => (Kernel.constant_constantsOf.mp hc).2) hknown hn hn'

theorem exists_deriveRotation {M N : Nat} (h : s.kernel.Grown M N F) (hl : s.kernel.loop? a = some l)
    (hn : n < 2 ^ 63) :
    ∃ top rotation s', s.kernel.bodyTop a = .ok top ∧ deriveRotation a n top s = .ok rotation s' := by
  have hl' := h.loop?_eq_some_iff.mp hl
  obtain ⟨p, hp⟩ := h.toStores.prepares_nil hl'
  have hle : (n : Int) ≤ 2 ^ 63 - 1 := by omega
  obtain ⟨rotation, rot, k', hdoes, -⟩ := hp.deriveRotation h.toStores hl' hle
  obtain ⟨s', hrun, -⟩ := hdoes s rfl
  exact ⟨_, rotation, s', hp.bodyTop_eq h.toStores hl', hrun⟩

/-- The index counts the iterations of the loop that it is made for, whatever kernel that is in. In a kernel that
calls lead to it can be made at the top of every loop body, and the sets that calls make go round their slots. -/
theorem index_counts_iterations :
    (∀ {s s' : State} {a : OpId} {l : Loop} {n : Nat} {point : InsertPoint} {rotation : Rotation},
      s.kernel.loop? a = some l → l.Known s.kernel → 0 < n → n < 2 ^ 63 →
        deriveRotation a n point s = .ok rotation s' → rotation.Counts l n s.kernel s'.kernel) ∧
    ∀ {name : String} {location : Location} {stmts : List Stmt} {start : State},
      start.kernel = Kernel.build name location stmts → start.kernel.verify = .ok () →
      ∀ {s : State} {sets : List SlotSet},
        Relation.ReflTransGen (Call (survey start).1.sites) ((survey start).2, []) (s, sets) →
          (∀ {a : OpId} {l : Loop} {n : Nat}, s.kernel.loop? a = some l → 0 < n → n < 2 ^ 63 →
            ∃ top rotation s', s.kernel.bodyTop a = .ok top ∧ deriveRotation a n top s = .ok rotation s' ∧
              rotation.Counts l n s.kernel s'.kernel) ∧
          ∀ {policy : Policy} {factor : Int64} {set : SlotSet} {s' : State},
            (∃ site ∈ (survey start).1.sites, expand policy site factor s = .ok set s') ∨
              (∃ old ∈ sets, resize policy old factor s = .ok set s') →
            ∃ l, s.kernel.loop? set.loop = some l ∧ set.Cycles l s.kernel s'.kernel := by
  refine ⟨counts_of_deriveRotation, fun {name location stmts start} hstart hv {s sets} hcalls => ?_⟩
  have hnone : ∀ site ∈ ([] : List Site), site ∈ (survey start).1.sites ∧ site ∉ (survey start).1.sites := by simp
  obtain ⟨M, N, hwithin, hawaits⟩ := awaits_of_calls hstart hv (fun _ h => h) hnone hcalls
  obtain ⟨F, hF⟩ := hawaits.grown
  refine ⟨fun {a l n} hl hn hn' => ?_, fun {policy factor set s'} hmade => ?_⟩
  · obtain ⟨top, rotation, s', htop, hrun⟩ := exists_deriveRotation hF hl hn'
    exact ⟨top, rotation, s', htop, hrun, counts_of_deriveRotation hl (hF.known hl) hn hn' hrun⟩
  · rcases hmade with ⟨site, hsite, hrun⟩ | ⟨old, hold, hrun⟩
    · obtain ⟨hM, hN⟩ := hwithin site hsite
      exact hF.cycles_of_expand hM hN hrun
    · exact hF.cycles_of_resize (hawaits.tracked old hold) hrun

/-- In the fifth of its iterations the index for three slots is 1. -/
theorem index_counts_iterations_strided :
    let start : State := { kernel := Kernel.build "strided" .unknown Stmt.strided, pass := "slots" }
    let s := (survey start).2
    let l : Loop := ⟨⟨4⟩, ⟨1⟩, ⟨2⟩, ⟨3⟩, ⟨1⟩, none⟩
    let words : Words := fun v => [none, some 4, some 40, some 8, some 36][v.index]?.join
    s.kernel.loop? ⟨6⟩ = some l ∧ l.At s.kernel 4 8 4 words ∧
      (∃ top rotation s', s.kernel.bodyTop ⟨6⟩ = .ok top ∧ deriveRotation ⟨6⟩ 3 top s = .ok rotation s' ∧
        ∃ w, rotation.index? s'.kernel words = some w ∧ w.toInt = 1) ∧
      ∃ set s', expand {} ⟨⟨0⟩, ⟨0⟩, .tile, 3, none⟩ 3 s = .ok set s' ∧ set.Cycles l s.kernel s'.kernel ∧
        ∃ slot ∈ set.slots, set.slot? s'.kernel words = some slot.value := by
  intro start s l words
  have hl : s.kernel.loop? ⟨6⟩ = some l := by decide +kernel
  have hat : l.At s.kernel 4 8 4 words := by
    refine ⟨fun v c hc => ?_, rfl, rfl, ⟨36, rfl, by decide⟩, by decide, by decide⟩
    obtain ⟨d, r, hd, -⟩ := Kernel.constant?_eq_some_iff.mp hc
    have hlt : v.index < 5 := Kernel.lt_size_of_recorded? hd
    have hconstants : ∀ j < 5, s.kernel.constant? ⟨j⟩ = none ∨ s.kernel.constant? ⟨j⟩ = words ⟨j⟩ := by
      decide +kernel
    rcases hconstants v.index hlt with hnone | heq
    · cases hnone.symm.trans hc
    · exact heq.symm.trans hc
  obtain ⟨-, hreached⟩ := index_counts_iterations
  obtain ⟨hmakes, hpicks⟩ := hreached (show start.kernel = _ from rfl) (by decide +kernel) .refl
  obtain ⟨top, rotation, s', htop, hrun, -⟩ := hmakes hl (by decide : 0 < 3) (by decide)
  refine ⟨hl, hat, ⟨top, rotation, s', htop, hrun, ?_⟩, ?_⟩
  · have hknown : l.Known s.kernel := ⟨by decide +kernel, by decide +kernel, by decide +kernel⟩
    exact index_counts_iterations.1 hl hknown (by decide) (by decide) hrun 4 8 4 words hat
  · have hloop : (match expand {} ⟨⟨0⟩, ⟨0⟩, .tile, 3, none⟩ 3 s with
        | .ok set _ => decide (set.loop = ⟨6⟩) | .error _ _ => false) = true := by decide +kernel
    cases hset : expand {} ⟨⟨0⟩, ⟨0⟩, .tile, 3, none⟩ 3 s with
    | error err s' => rw [hset] at hloop; cases hloop
    | ok set s' =>
      rw [hset] at hloop
      obtain ⟨l', hl', hcycles⟩ := hpicks (Or.inl ⟨_, by decide +kernel, hset⟩)
      rw [of_decide_eq_true hloop] at hl'
      obtain rfl : l' = l := Option.some.inj (hl'.symm.trans hl)
      exact ⟨set, s', rfl, hcycles, hcycles.inside hat⟩

end Transform
end SlotRotation
