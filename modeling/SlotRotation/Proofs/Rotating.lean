import SlotRotation.Proofs.Expansion
import SlotRotation.Proofs.Execution

/-! What the ops at the top of a loop body come to: in iteration `i` the index is `i` modulo the number of slots,
and the slot with that number is selected. -/

namespace SlotRotation

theorem wordOf?_eq {n : Int} (h : -2 ^ 63 ≤ n) (h' : n < 2 ^ 63) : wordOf? n = some (Int64.ofInt n) := by
  unfold wordOf?
  rw [if_pos]
  refine ⟨h, ?_⟩
  change n ≤ 2 ^ 63 - 1
  omega

theorem slotsAsked_lt {factor : Int64} {n : Nat} (h : slotsAsked factor = .ok n) : n < 2 ^ 63 := by
  have hle : (n : Int) ≤ 2 ^ 63 - 1 := slotsAsked_le h
  omega

namespace ArithOp

theorem fold_sub {x y : Int64} {n : Int} (hn : x.toInt - y.toInt = n) (h : 0 ≤ n) (h' : n < 2 ^ 63) :
    sub.fold x y = some (Int64.ofInt n) := by
  rw [fold, hn]
  exact wordOf?_eq (by omega) h'

theorem fold_div {step : Int64} {i : Nat} (hstep : 0 < step.toInt) (h : i * step.toInt < 2 ^ 63) :
    div.fold (Int64.ofInt (i * step.toInt)) step = some (Int64.ofInt i) := by
  have hpos : (0 : Int) ≤ i * step.toInt := by positivity
  have hle : (i : Int) ≤ i * step.toInt := by nlinarith
  have hne : step ≠ 0 := by
    rintro rfl
    exact absurd hstep (by decide)
  rw [fold, if_neg hne, Int64.toInt_ofInt_of_le (by omega) h, Int.mul_ediv_cancel _ (by omega)]
  exact wordOf?_eq (by omega) (by omega)

theorem fold_rem {i n : Nat} (hn : 0 < n) (hn' : n < 2 ^ 63) (hi : (i : Int) < 2 ^ 63) :
    rem.fold (Int64.ofInt i) (Int64.ofNat n) = some (Int64.ofInt (i % n : Nat)) := by
  have hne : Int64.ofNat n ≠ 0 := by
    intro h
    have hzero : (Int64.ofNat n).toInt = 0 := by rw [h]; rfl
    rw [Int64.toInt_ofNat_of_lt hn'] at hzero
    omega
  have hdiv : (i : Int) / n ≤ i := Int.ediv_le_self _ (by omega)
  have hpos : 0 ≤ (i : Int) / n := Int.ediv_nonneg (by omega) (by omega)
  rw [fold, if_neg hne, Int64.toInt_ofInt_of_le (by omega) hi, Int64.toInt_ofNat_of_lt hn',
    wordOf?_eq (by omega) (by omega)]
  simp

end ArithOp

/-- The machines differ in the values of `new` and in the visits only. -/
structure Machine.Binds (new : ValueId → Prop) (m m' : Machine) : Prop where
  env : ∀ v, ¬new v → m'.env v = m.env v
  contents : m'.contents = m.contents
  made : m'.made = m.made
  loads : m'.loads = m.loads

namespace Machine

variable {m m' m'' : Machine} {new new' : ValueId → Prop}

theorem Binds.refl (new : ValueId → Prop) (m : Machine) : m.Binds new m := ⟨fun _ _ => rfl, rfl, rfl, rfl⟩

theorem Binds.trans (h : m.Binds new m') (h' : m'.Binds new' m'') :
    m.Binds (fun v => new v ∨ new' v) m'' :=
  ⟨fun v hv => (h'.env v fun hn => hv (Or.inr hn)).trans (h.env v fun hn => hv (Or.inl hn)),
    h'.contents.trans h.contents, h'.made.trans h.made, h'.loads.trans h.loads⟩

theorem Binds.mono (h : m.Binds new m') (hnew : ∀ v, new v → new' v) : m.Binds new' m' :=
  ⟨fun v hv => h.env v fun hn => hv (hnew v hn), h.contents, h.made, h.loads⟩

end Machine

namespace Semantics

variable {sem : Semantics} {m m' : Machine} {F : Forest}

def steps (sem : Semantics) : List Node → Machine → Option Machine
  | [], m => some m
  | n :: ns, m => (sem.step (m.visit (.op n.1)) n.2).bind (steps sem ns)

theorem exec_prepend (ns : List Node) (F : Forest) (m : Machine) :
    sem.exec (Forest.prepend ns F) m = (sem.steps ns m).bind (sem.exec F) := by
  induction ns generalizing m with
  | nil => rfl
  | cons n ns ih =>
    rw [Forest.prepend, exec, steps, Option.bind_assoc]
    exact congrArg _ (funext ih)

theorem steps_append (as bs : List Node) (m : Machine) :
    sem.steps (as ++ bs) m = (sem.steps as m).bind (sem.steps bs) := by
  induction as generalizing m with
  | nil => rfl
  | cons n ns ih =>
    rw [List.cons_append, steps, steps, Option.bind_assoc]
    exact congrArg _ (funext ih)

def Defines (ns : List Node) (v : ValueId) : Prop := ∃ n ∈ ns, n.2.result? = some v

theorem binds_define (m : Machine) (visit : Visit) (v : ValueId) (d : Datum) :
    m.Binds (· = v) ((m.visit visit).define v d) :=
  ⟨fun _ hw => Function.update_of_ne hw _ _, rfl, rfl, rfl⟩

theorem word?_define (m : Machine) (v : ValueId) (n : Int64) : (m.define v (.word n)).word? v = some n := by
  have henv : (m.define v (.word n)).env v = some (.word n) := Function.update_self ..
  rw [Machine.word?, henv]

theorem word?_of_env {v : ValueId} (h : m'.env v = m.env v) : m'.word? v = m.word? v := by
  unfold Machine.word?
  rw [h]

theorem steps_combines {c : Int64} {op : ArithOp} {value other result : ValueId} {ns : List Node} {x y z : Int64}
    (sem : Semantics) (h : Combines F c op value other ns result) (hx : m.word? value = some x)
    (hy : m.word? other = some y) (hskip : F.Constant other c → z = x) (hfold : op.fold x y = some z) :
    ∃ m', sem.steps ns m = some m' ∧ m'.word? result = some z ∧ m.Binds (Defines ns) m' := by
  rcases h with ⟨rfl, rfl, hc⟩ | ⟨id, rfl⟩
  · exact ⟨m, rfl, by rw [hx, hskip hc], Machine.Binds.refl _ m⟩
  · refine ⟨(m.visit (.op id)).define result (.word z), ?_, word?_define .., ?_⟩
    · have hx' : (m.visit (.op id)).word? value = some x := hx
      have hy' : (m.visit (.op id)).word? other = some y := hy
      simp [steps, step, hx', hy', hfold]
    · exact (binds_define m (.op id) result (.word z)).mono fun v hv => ⟨_, List.mem_singleton_self _, hv ▸ rfl⟩

structure AtIteration (F : Forest) (l : Loop) (start stride : Int64) (i : Nat) (m : Machine) : Prop where
  induction : m.word? l.induction = some (.ofInt (start.toInt + i * stride.toInt))
  lower : m.word? l.lower = some start
  step : m.word? l.step = some stride
  fits : -2 ^ 63 ≤ start.toInt + i * stride.toInt ∧ start.toInt + i * stride.toInt < 2 ^ 63
  forward : 0 < stride.toInt
  lower_eq : F.Constant l.lower 0 → start = 0
  step_eq : F.Constant l.step 1 → stride = 1

theorem steps_rotates (sem : Semantics) {l : Loop} {n : Nat} {rot : List Node} {v : ValueId} {start stride : Int64}
    {i size : Nat} (h : Rotates F l n rot v) (hm : AtIteration F l start stride i m) (hn : 0 < n) (hn' : n < 2 ^ 63)
    (hfits : n = 1 ∨ i * stride.toInt < 2 ^ 63)
    (hold : l.induction.index < size ∧ l.lower.index < size ∧ l.step.index < size)
    (hnew : ∀ w, Defines rot w → size ≤ w.index) (hdistinct : (rot.filterMap fun n => n.2.result?).Nodup) :
    ∃ m', sem.steps rot m = some m' ∧ m'.word? v = some (Int64.ofInt (i % n : Nat)) ∧ m.Binds (Defines rot) m' := by
  cases h with
  | single x =>
    refine ⟨_, rfl, ?_, ?_⟩
    · rw [Nat.mod_one]
      exact word?_define ..
    · exact (binds_define m (.op x) v (.word 0)).mono fun w hw => ⟨_, List.mem_singleton_self _, hw ▸ rfl⟩
  | @many _ shift scale offset iteration modulus _ c x hne hshift hscale =>
    have hfits := hfits.resolve_left hne
    have hpos : (0 : Int) ≤ i * stride.toInt := mul_nonneg (Int.natCast_nonneg i) hm.forward.le
    have hi : (i : Int) < 2 ^ 63 := by nlinarith [hm.forward]
    -- the distance from the lower bound
    obtain ⟨m₁, hrun₁, hoffset, hbinds₁⟩ := steps_combines sem (z := .ofInt (i * stride.toInt)) hshift hm.induction
      hm.lower (fun hc => by rw [hm.lower_eq hc]; simp) (ArithOp.fold_sub (by
        rw [Int64.toInt_ofInt_of_le hm.fits.1 hm.fits.2]
        omega) hpos hfits)
    have hstep₁ : m₁.word? l.step = some stride := by
      rw [word?_of_env (hbinds₁.env l.step fun hd => ?_), hm.step]
      obtain ⟨d, hd, hres⟩ := hd
      exact Nat.not_lt.mpr (hnew _ ⟨d, by simp [hd], hres⟩) hold.2.2
    -- the number of the iteration
    obtain ⟨m₂, hrun₂, hiteration, hbinds₂⟩ := steps_combines sem (z := .ofInt i) hscale hoffset hstep₁
      (fun hc => by rw [hm.step_eq hc]; simp) (ArithOp.fold_div hm.forward hfits)
    have hmodulus : iteration ≠ modulus := by
      have hfirst : iteration = l.induction ∨ Defines (shift ++ scale) iteration := by
        rcases hscale.result_cases with rfl | ⟨d, hd, hres⟩
        · exact hshift.result_cases.imp id fun ⟨d, hd, hres⟩ => ⟨d, List.mem_append_left _ hd, hres⟩
        · exact Or.inr ⟨d, List.mem_append_right _ hd, hres⟩
      rcases hfirst with rfl | ⟨d, hd, hres⟩
      · rintro heq
        exact Nat.not_lt.mpr (hnew modulus ⟨(c, .constant modulus (Int64.ofNat n)), by simp, rfl⟩) (heq ▸ hold.1)
      · rintro rfl
        rw [List.filterMap_append, List.nodup_append] at hdistinct
        exact hdistinct.2.2 _ (List.mem_filterMap.mpr ⟨d, hd, hres⟩) _ (by simp [Instr.result?]) rfl
    let m₃ := (m₂.visit (.op c)).define modulus (.word (Int64.ofNat n))
    have hiteration₃ : (m₃.visit (.op x)).word? iteration = some (.ofInt i) :=
      (word?_of_env (Function.update_of_ne hmodulus _ _)).trans hiteration
    have hmodulus₃ : (m₃.visit (.op x)).word? modulus = some (Int64.ofNat n) := word?_define ..
    refine ⟨(m₃.visit (.op x)).define v (.word (Int64.ofInt (i % n : Nat))), ?_, word?_define .., ?_⟩
    · rw [steps_append, steps_append, hrun₁, Option.bind_some, hrun₂, Option.bind_some]
      have hfold := ArithOp.fold_rem hn hn' hi
      change ((sem.step (m₃.visit (.op x)) (.arith v .rem iteration modulus)).bind some) = _
      simp [step, hiteration₃, hmodulus₃, hfold]
    · have hbinds₃ := binds_define m₂ (.op c) modulus (.word (Int64.ofNat n))
      have hbinds₄ := binds_define m₃ (.op x) v (.word (Int64.ofInt (i % n : Nat)))
      refine (((hbinds₁.trans hbinds₂).trans hbinds₃).trans hbinds₄).mono ?_
      rintro w (((⟨d, hd, hres⟩ | ⟨d, hd, hres⟩) | hw) | hw)
      · exact ⟨d, by simp [hd], hres⟩
      · exact ⟨d, by simp [hd], hres⟩
      · exact ⟨(c, .constant modulus (Int64.ofNat n)), by simp, hw ▸ rfl⟩
      · exact ⟨(x, .arith v .rem iteration modulus), by simp, hw ▸ rfl⟩

theorem slotAt?_ofInt (slots : List ValueId) {j : Nat} (hj : j < 2 ^ 63) :
    slotAt? slots (Int64.ofInt j) = slots[j]? := by
  have hword : (Int64.ofInt j).toInt = j := Int64.toInt_ofInt_of_le (by omega) (by omega)
  have hzero : 0 ≤ Int64.ofInt j := by
    rw [Int64.le_iff_toInt_le, hword]
    exact Int.natCast_nonneg _
  rw [slotAt?, if_pos hzero, hword, Int.toNat_natCast]

/-- The index is computed and the slot of the iteration is selected. -/
theorem steps_entry (sem : Semantics) {l : Loop} {set : SlotSet} {rot : List Node} {start stride : Int64}
    {i size : Nat} (h : Rotates F l set.slots.length rot set.rotation.value) (hm : AtIteration F l start stride i m)
    (hinhabited : set.slots ≠ []) (hcount : set.slots.length < 2 ^ 63)
    (hfits : set.slots.length = 1 ∨ i * stride.toInt < 2 ^ 63)
    (hold : l.induction.index < size ∧ l.lower.index < size ∧ l.step.index < size)
    (hnew : ∀ w, Defines rot w → size ≤ w.index) (hdistinct : (rot.filterMap fun n => n.2.result?).Nodup)
    (hslots : ∀ slot ∈ set.slots, ¬Defines rot slot.value ∧ ∃ place, m.env slot.value = some (.buffer place)) :
    ∃ slot ∈ set.slots, ∃ place m', m.env slot.value = some (.buffer place) ∧
      sem.steps (rot ++ [set.selectNode]) m = some m' ∧ m'.env set.selected = some (.buffer place) ∧
      m.Binds (fun v => Defines rot v ∨ v = set.selected) m' := by
  have hpos : 0 < set.slots.length := List.length_pos_iff.mpr hinhabited
  obtain ⟨m₁, hrun, hindex, hbinds⟩ := steps_rotates sem h hm hpos hcount hfits hold hnew hdistinct
  have hlt := Nat.mod_lt i hpos
  obtain ⟨slot, hslot⟩ : ∃ slot, set.slots[i % set.slots.length]? = some slot := ⟨_, List.getElem?_eq_getElem hlt⟩
  have hmem := List.mem_of_getElem? hslot
  obtain ⟨hother, place, hplace⟩ := hslots slot hmem
  have hat : slotAt? set.slotValues (Int64.ofInt (i % set.slots.length : Nat)) = some slot.value := by
    rw [slotAt?_ofInt _ (Nat.lt_trans hlt hcount), SlotSet.slotValues, List.getElem?_map, hslot, Option.map_some]
  have hplace₁ : (m₁.visit (.op set.selector)).place? slot.value = some place := by
    have henv : (m₁.visit (.op set.selector)).env slot.value = some (.buffer place) :=
      (hbinds.env _ hother).trans hplace
    rw [Machine.place?, henv]
  have hindex₁ : (m₁.visit (.op set.selector)).word? set.rotation.value =
      some (Int64.ofInt (i % set.slots.length : Nat)) := hindex
  refine ⟨slot, hmem, place, (m₁.visit (.op set.selector)).define set.selected (.buffer place), hplace, ?_,
    Function.update_self .., hbinds.trans (binds_define ..)⟩
  rw [steps_append, hrun, Option.bind_some]
  simp only [steps, SlotSet.selectNode, step, hindex₁, hat, hplace₁, Option.bind_eq_bind, Option.bind_some]
  rfl

theorem steps_allocs (sem : Semantics) (ty : BufferType) (slots : List Slot) (m : Machine) :
    ∃ m', sem.steps (allocNodes ty slots) m = some m' ∧
      (∀ slot ∈ slots, ∃ place : Instance, m'.env slot.value = some (.buffer place) ∧ place.value = slot.value ∧
        m'.contents place = sem.blank) ∧
      (∀ v, (∀ slot ∈ slots, slot.value ≠ v) → m'.env v = m.env v ∧ m'.made v = m.made v ∧
        ∀ n, m'.contents ⟨v, n⟩ = m.contents ⟨v, n⟩) ∧
      m'.loads = m.loads := by
  induction slots generalizing m with
  | nil => exact ⟨m, rfl, by simp, fun v _ => ⟨rfl, rfl, fun _ => rfl⟩, rfl⟩
  | cons slot slots ih =>
    let m₁ := (m.visit (.op slot.alloc)).make slot.value sem.blank
    obtain ⟨m', hrun, hmade, hrest, hloads⟩ := ih m₁
    refine ⟨m', hrun, fun s hs => ?_, fun v hv => ?_, hloads⟩
    · by_cases hagain : ∃ s' ∈ slots, s'.value = s.value
      · obtain ⟨s', hs', heq⟩ := hagain
        rw [← heq]
        exact hmade s' hs'
      · obtain rfl : s = slot := (List.mem_cons.mp hs).resolve_right fun h => hagain ⟨s, h, rfl⟩
        obtain ⟨henv, -, hcontents⟩ := hrest s.value fun s' hs' heq => hagain ⟨s', hs', heq⟩
        refine ⟨⟨s.value, m.made s.value⟩, henv.trans (Function.update_self ..), rfl, ?_⟩
        exact (hcontents _).trans (Function.update_self ..)
    · obtain ⟨henv, hmade', hcontents⟩ := hrest v fun s hs => hv s (List.mem_cons_of_mem _ hs)
      have hne : v ≠ slot.value := (hv slot List.mem_cons_self).symm
      refine ⟨henv.trans (Function.update_of_ne hne _ _), hmade'.trans (Function.update_of_ne hne _ _), fun n => ?_⟩
      refine (hcontents n).trans (Function.update_of_ne ?_ _ _)
      rintro heq
      exact hne (congrArg Instance.value heq)

end Semantics
end SlotRotation
