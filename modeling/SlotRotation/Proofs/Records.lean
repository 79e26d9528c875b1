import SlotRotation.Proofs.Lasting
import SlotRotation.Proofs.Linking

/-! What is recorded as the definition of a value. An insertion that is refused leaves the kernel as it was, unless
it would insert a loop whose region does not exist: then it has recorded an op that is yet to come as the definition
of the induction value, and the next op that is inserted passes for it. Without such an insertion the recorded
definitions are true whatever is done, and whatever of it is refused. -/

namespace SlotRotation.Kernel

variable {k k' : Kernel} {i : Instr} {point : InsertPoint} {e : Error} {id : OpId} {v : ValueId}

def Unhoused (k : Kernel) (i : Instr) (point : InsertPoint) : Prop :=
  ∃ l, i = .loop l ∧ k.region? l.body = none ∧ ∃ place, k.resolve point = .ok place

theorem exists_loop_of_unknownRegion? {r : RegionId} (h : k.unknownRegion? i = some r) :
    ∃ l, i = .loop l ∧ k.region? l.body = none := by
  obtain ⟨hregion, hnone⟩ := Option.filter_eq_some_iff.mp h
  cases i with
  | loop l =>
    cases hregion
    exact ⟨l, rfl, Option.isNone_iff_eq_none.mp hnone⟩
  | _ => cases hregion

/-- A refused insertion has done nothing, or it has recorded a definition for a loop without a region. -/
theorem insert_eq_error (h : Edit.insert i point k = .error e k') :
    k' = k ∨ k.Unhoused i point ∧ k' = k.define i k.nextOp := by
  unfold Edit.insert at h
  split at h
  · cases h
    exact Or.inl rfl
  · rename_i place hplace
    simp only at h
    split at h
    · rename_i hunknown
      cases h
      obtain ⟨l, hl, hregion⟩ := exists_loop_of_unknownRegion? hunknown
      exact Or.inr ⟨⟨l, hl, hregion, _, hplace⟩, rfl⟩
    · cases h

theorem eq_place_of_insert (h : Edit.insert i point k = .ok id k') :
    id = k.nextOp ∧ ∃ r n, k' = ((k.define i k.nextOp).own i k.nextOp).place i r n := by
  unfold Edit.insert at h
  split at h
  · cases h
  · simp only at h
    split at h
    · cases h
    · cases h
      exact ⟨rfl, _, _, rfl⟩

theorem value?_define (h : i.result? ≠ some v) : (k.define i id).value? v = k.value? v := by
  unfold define
  split
  · rename_i w hw
    have hne : w.index ≠ v.index := by
      intro heq
      obtain rfl : w = v := by cases w; cases v; exact congrArg _ heq
      exact h hw
    simp [value?, updateValue, Array.getElem?_modify, hne]
  · rfl

theorem define_eq (k : Kernel) (i : Instr) (id : OpId) :
    k.define i id = { k with values := (k.define i id).values } := by
  unfold define
  split <;> rfl

/-- What is recorded as a definition has been inserted, and as long as it is live it gives the value. -/
def Truthful (k : Kernel) : Prop :=
  ∀ v id, k.recorded? v = some id → id.index < k.ops.size ∧ ∀ op, k.op? id = some op → op.instr.result? = some v

theorem Stores.truthful {F : Forest} (h : Stores k F) : k.Truthful := by
  intro v id hv
  obtain ⟨hlt, hresult⟩ := h.definition v id hv
  exact ⟨hlt, fun op hop => hresult op.instr (h.mem_nodes_iff.mpr (by rw [instr?, hop]; rfl))⟩

theorem Truthful.addValue (h : k.Truthful) (ty : ValueType) : (k.addValue ty).Truthful := by
  intro v id hv
  rw [recorded?_addValue] at hv
  exact h v id hv

theorem Truthful.remove (h : k.Truthful) (x : OpId) (op : Op) : (k.remove x op).Truthful := by
  intro v id hv
  rw [recorded?_of_values (values_remove k x op)] at hv
  obtain ⟨hlt, hresult⟩ := h v id hv
  refine ⟨by rwa [size_ops_remove], fun op' hop => hresult op' ?_⟩
  rw [op?_remove] at hop
  split at hop
  · cases hop
  · exact hop

theorem Truthful.setInstr (h : k.Truthful) {x : OpId} {op : Op} (hx : k.op? x = some op)
    (hi : i.result? = op.instr.result?) : (k.setInstr x i).Truthful := by
  intro v id hv
  rw [recorded?_of_values (values_setInstr k x i)] at hv
  obtain ⟨hlt, hresult⟩ := h v id hv
  refine ⟨by rwa [size_ops_setInstr], fun op' hop => ?_⟩
  rw [op?_setInstr hx] at hop
  split at hop
  · rename_i heq
    cases hop
    exact hi.trans (hresult op (heq ▸ hx))
  · exact hresult op' hop

theorem Truthful.place (h : k.Truthful) (i : Instr) (r : RegionId) (n : Nat) :
    (((k.define i k.nextOp).own i k.nextOp).place i r n).Truthful := by
  intro v id hv
  have hnext : ((k.define i k.nextOp).own i k.nextOp).nextOp = k.nextOp := by simp [nextOp]
  have hvalues : (((k.define i k.nextOp).own i k.nextOp).place i r n).values = (k.define i k.nextOp).values :=
    values_own ..
  have hop : ∀ x, (((k.define i k.nextOp).own i k.nextOp).place i r n).op? x =
      if x = k.nextOp then some ⟨i, r⟩ else k.op? x := fun x => by
    rw [op?_place, hnext]
    simp [op?]
  have hsize : (((k.define i k.nextOp).own i k.nextOp).place i r n).ops.size = k.ops.size + 1 := by
    simp [Kernel.place, updateRegion]
  rw [recorded?_of_values hvalues, recorded?_define] at hv
  rw [hsize]
  split at hv
  · rename_i hdefined
    cases hv
    refine ⟨Nat.lt_succ_self _, fun op hnew => ?_⟩
    rw [hop, if_pos rfl] at hnew
    cases hnew
    exact hdefined.1
  · obtain ⟨hlt, hresult⟩ := h v id hv
    refine ⟨Nat.lt_succ_of_lt hlt, fun op hold => hresult op ?_⟩
    rwa [hop, if_neg] at hold
    rintro rfl
    exact Nat.lt_irrefl _ hlt

theorem Truthful.insert (h : k.Truthful) (hi : ¬k.Unhoused i point) :
    (leftBy (Edit.insert i point k)).Truthful := by
  cases hrun : Edit.insert i point k with
  | error e k' =>
    obtain rfl := (insert_eq_error hrun).resolve_right fun hleft => hi hleft.1
    exact h
  | ok id k' =>
    obtain ⟨-, r, n, rfl⟩ := eq_place_of_insert hrun
    exact h.place i r n

theorem Truthful.erase (h : k.Truthful) (id : OpId) : (leftBy (Edit.erase id k)).Truthful := by
  unfold Edit.erase
  split
  · exact h
  · exact h.remove id _

theorem Truthful.setOperand (h : k.Truthful) (user : OpId) (operand : Nat) (value : ValueId) :
    (leftBy (Edit.setOperand user operand value k)).Truthful := by
  unfold Edit.setOperand
  split
  · exact h
  · rename_i op hop
    rw [Instr.exchange?_eq]
    cases op.instr.operands[operand]? with
    | none => exact h
    | some old => exact h.setInstr (op?_of_getOp hop) (Instr.result?_mapOperands ..)

/-- A change and what is left of the kernel, whether it was refused or not. No loop is left without its region. -/
inductive Tried : Kernel → Kernel → Prop
  | newValue (k : Kernel) (ty : ValueType) : Tried k (leftBy (Edit.newValue ty k))
  | newRegion (k : Kernel) : Tried k (leftBy (Edit.newRegion k))
  | insert (k : Kernel) (i : Instr) (point : InsertPoint) (h : ¬k.Unhoused i point) :
    Tried k (leftBy (Edit.insert i point k))
  | erase (k : Kernel) (id : OpId) : Tried k (leftBy (Edit.erase id k))
  | setOperand (k : Kernel) (user : OpId) (operand : Nat) (value : ValueId) :
    Tried k (leftBy (Edit.setOperand user operand value k))

theorem Truthful.tried (h : k.Truthful) (hk : Tried k k') : k'.Truthful := by
  cases hk with
  | newValue ty => exact h.addValue ty
  | newRegion => exact h
  | insert i point hi => exact h.insert hi
  | erase id => exact h.erase id
  | setOperand user operand value => exact h.setOperand user operand value

theorem truthful_of_tried {name : String} {location : Location} {stmts : List Stmt}
    (h : Relation.ReflTransGen Tried (build name location stmts) k) : k.Truthful := by
  induction h with
  | refl =>
    obtain ⟨F, hF⟩ := build_stores name location stmts
    exact hF.truthful
  | tail _ hstep ih => exact ih.tried hstep

/-- An insertion that is refused leaves the kernel exactly as it was, unless it is that of a loop which finds its
place but not its region: that one may leave another definition of the induction value, and nothing else. As long as
no such insertion is tried, an op that is inserted after any changes, refused ones among them, is the definition of
no value but its result. -/
theorem insert_refused_keeps (k k' : Kernel) (i : Instr) (point : InsertPoint) :
    (∀ e, Edit.insert i point k = .error e k' →
      (¬k.Unhoused i point → k' = k) ∧
        k' = { k with values := k'.values } ∧ k'.values.size = k.values.size ∧ (∀ v, k'.typeOf? v = k.typeOf? v) ∧
        ∀ v, i.result? ≠ some v → k'.value? v = k.value? v) ∧
    ∀ name location stmts id, Relation.ReflTransGen Tried (build name location stmts) k →
      Edit.insert i point k = .ok id k' → ∀ v, k'.definition? v = some id → i.result? = some v := by
  refine ⟨fun e h => ?_, fun name location stmts id hk h v hv => ?_⟩
  · rcases insert_eq_error h with rfl | ⟨hunhoused, rfl⟩
    · exact ⟨fun _ => rfl, rfl, rfl, fun _ => rfl, fun _ _ => rfl⟩
    · exact ⟨fun hhoused => absurd hunhoused hhoused, define_eq .., size_values_define .., typeOf?_define k _ _,
        fun v hv => value?_define hv⟩
  · obtain ⟨rfl, r, n, rfl⟩ := eq_place_of_insert h
    have htrue := (truthful_of_tried hk).place i r n
    obtain ⟨hrecorded, -⟩ := Option.filter_eq_some_iff.mp hv
    refine (htrue v _ hrecorded).2 ⟨i, r⟩ ?_
    rw [op?_place]
    simp [nextOp]

/-- A constant next to an op that does not exist, and then next to one that does. -/
theorem insert_refused_keeps_deadAnchor :
    let k := build "anchor" .unknown [.constant 0]
    ∃ e k' k'', Edit.insert (.constant ⟨0⟩ 7) (.before ⟨9⟩) k = .error e k' ∧ k' = k ∧
      Edit.insert (.constant ⟨0⟩ 7) (.before ⟨0⟩) k' = .ok ⟨1⟩ k'' ∧
      ∀ v, k''.definition? v = some ⟨1⟩ → v = ⟨0⟩ := by
  intro k
  have hplain : ¬k.Unhoused (.constant ⟨0⟩ 7) (.before ⟨9⟩) := fun ⟨_, hloop, _⟩ => nomatch hloop
  have hrefused : Edit.insert (.constant ⟨0⟩ 7) (.before ⟨9⟩) k = .error (.malformed (.deadOp ⟨9⟩ "anchor")) k := rfl
  have hkept := ((insert_refused_keeps k _ _ _).1 _ hrefused).1 hplain
  have htried : Tried k k := .insert k (.constant ⟨0⟩ 7) (.before ⟨9⟩) hplain
  refine ⟨_, _, _, hrefused, hkept, rfl, fun v hv => ?_⟩
  have hresult := (insert_refused_keeps k _ (.constant ⟨0⟩ 7) (.before ⟨0⟩)).2 _ _ _ _ (.single htried) rfl v hv
  exact (Option.some.inj hresult).symm

/-- A loop with a region that does not exist is refused. The constant is then no longer known as the definition of
its value, and a barrier that is inserted afterwards is. -/
theorem insert_refused_lostRegion :
    let k := build "lost" .unknown [.constant 0]
    let l : Loop := { induction := ⟨0⟩, lower := ⟨0⟩, upper := ⟨0⟩, step := ⟨0⟩, body := ⟨7⟩ }
    ∃ e k' k'', Edit.insert (.loop l) (.last body) k = .error e k' ∧
      Edit.insert .barrier (.last body) k' = .ok ⟨1⟩ k'' ∧
      k.definition? ⟨0⟩ = some ⟨0⟩ ∧ k' ≠ k ∧ k'.definition? ⟨0⟩ = none ∧ k''.definition? ⟨0⟩ = some ⟨1⟩ ∧
      k''.instr? ⟨1⟩ = some .barrier :=
  ⟨_, _, _, rfl, rfl, by decide, by decide, by decide, by decide, by decide⟩

end SlotRotation.Kernel
