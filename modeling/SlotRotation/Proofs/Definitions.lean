import SlotRotation.Proofs.Consumption
import SlotRotation.Proofs.Counting
import SlotRotation.Proofs.Records

/-! Each value has one definition at most, and it is the one that is recorded. Surveys, expansions and resizings
keep it so, whatever the operands of the kernel read. Only a selector that is moved gives a value a second
definition, and the old selector goes right after that. -/

namespace SlotRotation

structure Preserves {ε σ α : Type} (P : σ → Prop) (x : EStateM ε σ α) : Prop where
  kept : ∀ s a s', P s → x s = .ok a s' → P s'

namespace Preserves

variable {ε σ α β : Type} {P : σ → Prop}

theorem pure (a : α) : Preserves P (Pure.pure a : EStateM ε σ α) :=
  ⟨fun s _ s' hs hrun => by cases hrun; exact hs⟩

theorem bind {x : EStateM ε σ α} {f : α → EStateM ε σ β} (h : Preserves P x) (hf : ∀ a, Preserves P (f a)) :
    Preserves P (x >>= f) := by
  refine ⟨fun s b s' hs hrun => ?_⟩
  obtain ⟨a, t, hx, hrun⟩ := bind_eq_ok hrun
  exact (hf a).kept t b s' (h.kept s a t hs hx) hrun

end Preserves

def InsertPoint.Within (r : RegionId) : InsertPoint → Prop
  | .before _ | .after _ => True
  | .first s | .last s => s = r

theorem InsertPoint.Within.before (r : RegionId) (x : OpId) : (InsertPoint.before x).Within r := trivial

theorem InsertPoint.Within.after (r : RegionId) (x : OpId) : (InsertPoint.after x).Within r := trivial

theorem InsertPoint.Within.first (r : RegionId) : (InsertPoint.first r).Within r := rfl

theorem InsertPoint.Within.past {r : RegionId} {p : InsertPoint} (h : p.Within r) (ops : List OpId) :
    (p.past ops).Within r := by
  rw [InsertPoint.past]
  cases ops.getLast? with
  | none => exact h
  | some x => trivial

namespace Kernel

variable {k k' k'' : Kernel} {F : Forest} {i : Instr} {p : InsertPoint} {r : RegionId} {x : OpId} {v : ValueId}

def Gives (k : Kernel) (x : OpId) (v : ValueId) : Prop :=
  x.index < k.ops.size ∧ ∀ i, k.instr? x = some i → i.result? = some v

/-- What was inserted keeps its result as long as it is live, and no id is used again. -/
structure KeepsResults (k k' : Kernel) : Prop where
  size : k.ops.size ≤ k'.ops.size
  origin : ∀ x op', x.index < k.ops.size → k'.op? x = some op' →
    ∃ op, k.op? x = some op ∧ op'.instr.result? = op.instr.result?

theorem Gives.of_keeps (h : k.Gives x v) (hk : KeepsResults k k') : k'.Gives x v := by
  refine ⟨Nat.lt_of_lt_of_le h.1 hk.size, fun i' hi' => ?_⟩
  obtain ⟨op', hop', rfl⟩ := Option.map_eq_some_iff.mp hi'
  obtain ⟨op, hop, hresult⟩ := hk.origin x op' h.1 hop'
  rw [hresult]
  exact h.2 op.instr (by rw [instr?, hop]; rfl)

namespace KeepsResults

theorem of_ops (h : k'.ops = k.ops) : KeepsResults k k' := by
  refine ⟨Nat.le_of_eq (by rw [h]), fun x op' _ hx => ⟨op', ?_, rfl⟩⟩
  rwa [op?, h] at hx

theorem trans (h : KeepsResults k k') (h' : KeepsResults k' k'') : KeepsResults k k'' := by
  refine ⟨Nat.le_trans h.size h'.size, fun x op'' hlt hx => ?_⟩
  obtain ⟨op', hop', hresult'⟩ := h'.origin x op'' (Nat.lt_of_lt_of_le hlt h.size) hx
  obtain ⟨op, hop, hresult⟩ := h.origin x op' hlt hop'
  exact ⟨op, hop, hresult'.trans hresult⟩

theorem place (k : Kernel) (i : Instr) (r : RegionId) (n : Nat) : KeepsResults k (k.place i r n) := by
  refine ⟨?_, fun x op' hlt hx => ⟨op', ?_, rfl⟩⟩
  · show k.ops.size ≤ (k.ops.push _).size
    rw [Array.size_push]
    exact Nat.le_succ _
  · rwa [op?_place, if_neg] at hx
    rintro rfl
    exact Nat.lt_irrefl _ hlt

theorem insert (i : Instr) (p : InsertPoint) : Leaves KeepsResults (Edit.insert i p) := by
  refine ⟨fun k => ?_⟩
  cases hrun : Edit.insert i p k with
  | error e k' =>
    rcases insert_eq_error hrun with rfl | ⟨-, rfl⟩
    · exact .of_ops rfl
    · exact .of_ops (ops_define ..)
  | ok x k' =>
    obtain ⟨-, r, n, rfl⟩ := eq_place_of_insert hrun
    have hready : KeepsResults k ((k.define i k.nextOp).own i k.nextOp) := .of_ops (by simp)
    exact hready.trans (.place ..)

theorem remove (k : Kernel) (x : OpId) (op : Op) : KeepsResults k (k.remove x op) := by
  refine ⟨Nat.le_of_eq (size_ops_remove ..).symm, fun y op' _ hy => ⟨op', ?_, rfl⟩⟩
  rw [op?_remove] at hy
  split at hy
  · cases hy
  · exact hy

theorem setInstr {op : Op} (hop : k.op? x = some op) (hi : i.result? = op.instr.result?) :
    KeepsResults k (k.setInstr x i) := by
  refine ⟨Nat.le_of_eq (size_ops_setInstr ..).symm, fun y op' _ hy => ?_⟩
  rw [op?_setInstr hop] at hy
  split at hy
  · rename_i heq
    cases hy
    exact ⟨op, heq ▸ hop, hi⟩
  · exact ⟨op', hy, rfl⟩

end KeepsResults

theorem updateAlloc_eq (k : Kernel) (x : OpId) (f : Alloc → Alloc) : k.updateAlloc x f = k ∨
    ∃ op a, k.op? x = some op ∧ op.instr = .alloc a ∧ k.updateAlloc x f = k.setInstr x (.alloc (f a)) := by
  unfold updateAlloc
  split
  · rename_i a ha
    obtain ⟨i, hi, hia⟩ := Option.bind_eq_some_iff.mp ha
    obtain ⟨op, hop, rfl⟩ := Option.map_eq_some_iff.mp hi
    refine Or.inr ⟨op, a, hop, ?_, rfl⟩
    cases hinstr : op.instr <;> rw [hinstr] at hia <;> cases hia
    rfl
  · exact Or.inl rfl

theorem lasts_results : Lasts KeepsResults where
  refl _ := .of_ops rfl
  trans _ _ _ := KeepsResults.trans
  newValue _ := ⟨fun _ => .of_ops rfl⟩
  insert _ p := KeepsResults.insert _ p
  erase x := by
    refine ⟨fun k => ?_⟩
    unfold Edit.erase
    split
    · exact .of_ops rfl
    · exact .remove ..
  setOperand user operand value := by
    refine ⟨fun k => ?_⟩
    unfold Edit.setOperand
    split
    · exact .of_ops rfl
    · rename_i op hop
      rw [Instr.exchange?_eq]
      cases op.instr.operands[operand]? with
      | none => exact .of_ops rfl
      | some old => exact .setInstr (op?_of_getOp hop) (Instr.result?_mapOperands ..)
  strip k x := by
    rcases updateAlloc_eq k x Alloc.stripped with heq | ⟨op, a, hop, ha, heq⟩
    · rw [heq]
      exact .of_ops rfl
    · rw [heq]
      exact .setInstr hop (by rw [ha]; rfl)

/-- The links of the kernel agree, and the recorded definitions are those of the live ops. -/
structure Tidy (k : Kernel) : Prop where
  stores : ∃ F, Stores k F
  homed : k.Homed

/-- A tidy kernel that has region `r`, as its own or as that of a live loop. -/
structure TidyAt (r : RegionId) (k : Kernel) : Prop extends Tidy k where
  walked : r = body ∨ ∃ a l, k.loop? a = some l ∧ l.body = r

theorem Tidy.at_body (h : k.Tidy) : k.TidyAt body := ⟨h, Or.inl rfl⟩

def Unclaimed (k : Kernel) (v : ValueId) : Prop :=
  v.index < k.values.size ∧ ∀ x i, k.instr? x = some i → i.result? ≠ some v

theorem Arranges.stores (h : Arranges k F) (htrue : k.Truthful)
    (hrecorded : ∀ x i v, k.instr? x = some i → i.result? = some v → k.recorded? v = some x) : Stores k F := by
  refine ⟨h, fun n hn v hv => hrecorded n.1 n.2 v (h.instr?_of_mem hn) hv, fun v x hv => ?_⟩
  obtain ⟨hlt, hresult⟩ := htrue v x hv
  refine ⟨hlt, fun i hi => ?_⟩
  obtain ⟨op, hop, rfl⟩ := Option.map_eq_some_iff.mp (h.mem_nodes_iff.mp hi)
  exact hresult op hop

theorem Stores.recorded?_eq (h : Stores k F) (hi : k.instr? x = some i) (hv : i.result? = some v) :
    k.recorded? v = some x :=
  h.defined (x, i) (h.mem_nodes_iff.mpr hi) v hv

/-- Where an op was inserted next to another one, that one is live, so the point is one that the walk comes by. -/
theorem TidyAt.stands (h : k.TidyAt r) (hp : p.Within r) (hrun : Edit.insert i p k = .ok x k') : k.Stands p := by
  cases p with
  | before a | after a =>
    obtain ⟨op, hop⟩ := exists_op?_of_insert (x := a) (by simp) hrun
    show k.isLive a
    rw [isLive, hop]
    rfl
  | first s | last s =>
    cases hp
    exact h.walked

theorem instr?_of_insert (hi : i.region? = none) (hrun : Edit.insert i p k = .ok x k') {y : OpId} {j : Instr}
    (hj : k.instr? y = some j) : k'.instr? y = some j := by
  obtain ⟨rfl, hinstr, -, -⟩ := insert_eq_ok hi hrun
  obtain ⟨op, hop, -⟩ := Option.map_eq_some_iff.mp hj
  rw [hinstr, if_neg, hj]
  rintro rfl
  exact Nat.lt_irrefl _ (lt_size_of_op? hop)

theorem TidyAt.of_kept (h : k.TidyAt r) (hk : k'.Tidy) (hkept : ∀ y j, k.instr? y = some j → k'.instr? y = some j) :
    k'.TidyAt r := by
  refine ⟨hk, h.walked.imp_right ?_⟩
  rintro ⟨a, l, hl, hbody⟩
  obtain ⟨j, hj, hloop⟩ := Option.bind_eq_some_iff.mp hl
  exact ⟨a, l, Option.bind_eq_some_iff.mpr ⟨j, hkept a j hj, hloop⟩, hbody⟩

theorem TidyAt.insert (h : k.TidyAt r) (hi : i.region? = none) (hp : p.Within r)
    (hresult : ∀ v, i.result? = some v → k.Unclaimed v) (hrun : Edit.insert i p k = .ok x k') : k'.TidyAt r := by
  obtain ⟨F, hF⟩ := h.stores
  obtain ⟨⟨G, hG⟩, hhomed⟩ := (Edited.insert hi (h.stands hp hrun) hrun).keeps hF.toArranges h.homed
  have htrue : k'.Truthful := by
    obtain ⟨-, s, n, rfl⟩ := eq_place_of_insert hrun
    exact hF.truthful.place i s n
  refine h.of_kept ⟨⟨G, hG.stores htrue fun y j v hj hv => ?_⟩, hhomed⟩ fun _ _ => instr?_of_insert hi hrun
  obtain ⟨-, hinstr, -, hrecorded⟩ := insert_eq_ok hi hrun
  rw [hinstr] at hj
  rw [hrecorded]
  split at hj
  · rename_i hy
    cases hj
    rw [if_pos ⟨hv, (hresult v hv).1⟩, hy]
  · rw [if_neg fun hnew => (hresult v hnew.1).2 y j hj hv]
    exact hF.recorded?_eq hj hv

theorem TidyAt.addValue (h : k.TidyAt r) (ty : ValueType) :
    (k.addValue ty).TidyAt r ∧ (k.addValue ty).Unclaimed ⟨k.values.size⟩ := by
  obtain ⟨F, hF⟩ := h.stores
  refine ⟨⟨⟨⟨F, hF.addValue ty⟩, h.homed.addValue ty⟩, h.walked⟩, by simp [Kernel.addValue], fun x i hi hv => ?_⟩
  exact Nat.lt_irrefl _ (lt_size_of_recorded? (hF.recorded?_eq (k := k) hi hv))

theorem Tidy.of_keeps (h : k.Tidy) (hk : KeepsResults k k') (hsize : k'.ops.size = k.ops.size)
    (hvalues : k'.values = k.values) (harranged : ∃ G, Arranges k' G) (hhomed : k'.Homed) : k'.Tidy := by
  obtain ⟨F, hF⟩ := h.stores
  obtain ⟨G, hG⟩ := harranged
  refine ⟨⟨G, hF.of_subset hG hsize hvalues fun n hn => ?_⟩, hhomed⟩
  obtain ⟨s, hs⟩ := hG.placed.op? hn
  obtain ⟨op, hop, hresult⟩ := hk.origin n.1 _ (hsize ▸ lt_size_of_op? hs) hs
  exact ⟨op.instr, hF.mem_nodes_iff.mpr (by rw [instr?, hop]; rfl), hresult.symm⟩

theorem exists_remove_of_erase {u : Unit} (hrun : Edit.erase x k = .ok u k') :
    ∃ op, k.op? x = some op ∧ k' = k.remove x op := by
  unfold Edit.erase at hrun
  split at hrun
  · cases hrun
  · rename_i op hop
    cases hrun
    exact ⟨op, op?_of_getOp hop, rfl⟩

theorem exists_setInstr_of_setOperand {n : Nat} {old : ValueId} (hrun : Edit.setOperand x n v k = .ok old k') :
    ∃ i, k' = k.setInstr x i := by
  unfold Edit.setOperand at hrun
  split at hrun
  · cases hrun
  · split at hrun
    · cases hrun
      exact ⟨_, rfl⟩
    · cases hrun

theorem Tidy.erase (h : k.Tidy) {u : Unit} (hrun : Edit.erase x k = .ok u k') : k'.Tidy := by
  obtain ⟨F, hF⟩ := h.stores
  obtain ⟨harranged, hhomed⟩ := (Edited.erase hrun).keeps hF.toArranges h.homed
  have hkeeps := (lasts_results.erase x).ok hrun
  obtain ⟨op, -, rfl⟩ := exists_remove_of_erase hrun
  exact h.of_keeps hkeeps (size_ops_remove ..) (values_remove ..) harranged hhomed

theorem Tidy.setOperand (h : k.Tidy) {n : Nat} {old : ValueId} (hrun : Edit.setOperand x n v k = .ok old k') :
    k'.Tidy := by
  obtain ⟨F, hF⟩ := h.stores
  obtain ⟨harranged, hhomed⟩ := (Edited.setOperand x n v hrun).keeps hF.toArranges h.homed
  have hkeeps := (lasts_results.setOperand x n v).ok hrun
  obtain ⟨i, rfl⟩ := exists_setInstr_of_setOperand hrun
  exact h.of_keeps hkeeps (size_ops_setInstr ..) (values_setInstr ..) harranged hhomed

/-- An op takes over the result of another one, which goes. In between the value has two definitions. -/
theorem TidyAt.supplant (h : k.TidyAt r) (hi : i.region? = none) (hp : p.Within r) (hv : i.result? = some v)
    (hgives : k.Gives x v) {y : OpId} (hinsert : Edit.insert i p k = .ok y k') {u : Unit}
    (herase : Edit.erase x k' = .ok u k'') : k''.Tidy := by
  obtain ⟨F, hF⟩ := h.stores
  obtain ⟨⟨G, hG⟩, hhomed⟩ := (Edited.insert hi (h.stands hp hinsert) hinsert).keeps hF.toArranges h.homed
  obtain ⟨⟨H, hH⟩, hhomed'⟩ := (Edited.erase herase).keeps hG hhomed
  obtain ⟨rfl, hinstr, -, hrecorded⟩ := insert_eq_ok hi hinsert
  have htrue : k''.Truthful := by
    obtain ⟨-, s, n, rfl⟩ := eq_place_of_insert hinsert
    have htrue := (hF.truthful.place i s n).erase x
    rwa [herase] at htrue
  -- the op that goes was live before the other one came, and was recorded for the value
  have hx : k.recorded? v = some x := by
    obtain ⟨op, hop, -⟩ := exists_remove_of_erase herase
    have hlive := hinstr x
    rw [if_neg (by rintro rfl; exact Nat.lt_irrefl _ hgives.1), instr?, hop] at hlive
    exact hF.recorded?_eq hlive.symm (hgives.2 _ hlive.symm)
  refine ⟨⟨H, hH.stores htrue fun z j w hj hw => ?_⟩, hhomed'⟩
  obtain ⟨op, -, rfl⟩ := exists_remove_of_erase herase
  rw [recorded?_of_values (values_remove ..), hrecorded]
  rw [instr?, op?_remove] at hj
  split at hj
  · cases hj
  · rename_i hz
    have hzx : z ≠ x := fun heq => hz (by simp [heq])
    have hj' : k'.instr? z = some j := hj
    rw [hinstr] at hj'
    split at hj'
    · rename_i hnew
      cases hj'
      obtain rfl : v = w := Option.some.inj (hv.symm.trans hw)
      rw [if_pos ⟨hv, lt_size_of_recorded? hx⟩, hnew]
    · have hzw := hF.recorded?_eq hj' hw
      rw [if_neg, hzw]
      rintro ⟨hnew, -⟩
      rw [hv, Option.some.injEq] at hnew
      rw [← hnew, hx, Option.some.injEq] at hzw
      exact hzx hzw.symm

end Kernel

namespace Edit

variable {β : Type} {r : RegionId} {p : InsertPoint}

open Kernel

theorem preserves_insert {i : Instr} (hi : i.region? = none) (hresult : i.result? = none) (hp : p.Within r) :
    Preserves (TidyAt r) (insert i p) :=
  ⟨fun _ _ _ h hrun => h.insert hi hp (by simp [hresult]) hrun⟩

theorem preserves_newValue {ty : ValueType} {f : ValueId → Instr} (hi : ∀ v, (f v).region? = none)
    (hresult : ∀ v, (f v).result? = some v) (hp : p.Within r) {g : ValueId → OpId → Edit β}
    (hg : ∀ v x, Preserves (TidyAt r) (g v x)) :
    Preserves (TidyAt r) (newValue ty >>= fun v => insert (f v) p >>= g v) := by
  refine ⟨fun k b k' h hrun => ?_⟩
  obtain ⟨_, _, hnew, hrun⟩ := bind_eq_ok hrun
  cases hnew
  obtain ⟨x, k₁, hinsert, hrun⟩ := bind_eq_ok hrun
  obtain ⟨hadded, hunclaimed⟩ := h.addValue ty
  have htidy := hadded.insert (hi _) hp (fun v hv => by
    rw [hresult, Option.some.injEq] at hv
    exact hv ▸ hunclaimed) hinsert
  exact (hg _ _).kept k₁ b k' htidy hrun

theorem preserves_erase (x : OpId) : Preserves (TidyAt body) (erase x) :=
  ⟨fun _ _ _ h hrun => (h.toTidy.erase hrun).at_body⟩

theorem preserves_setOperand (user : OpId) (operand : Nat) (value : ValueId) :
    Preserves (TidyAt body) (setOperand user operand value) :=
  ⟨fun _ _ _ h hrun => (h.toTidy.setOperand hrun).at_body⟩

theorem preserves_eraseAll (ids : List OpId) : Preserves (TidyAt body) (eraseAll ids) := by
  induction ids with
  | nil => exact .pure ()
  | cons x ids ih => exact (preserves_erase x).bind fun _ => ih

theorem preserves_allocateSlots (ty : BufferType) (origin : Nat → SlotOrigin) (first count : Nat) (hp : p.Within r) :
    Preserves (TidyAt r) (allocateSlots ty origin first count p) := by
  induction count generalizing first p with
  | zero => exact .pure []
  | succ count ih =>
    refine preserves_newValue (fun _ => rfl) (fun _ => rfl) hp fun v x => ?_
    exact (ih (first + 1) (.after r x)).bind fun _ => .pure _

theorem preserves_selectAmong (ty : BufferType) (slots : List Slot) (index : ValueId) (hp : p.Within r) :
    Preserves (TidyAt r) (selectAmong ty slots index p) :=
  preserves_newValue (fun _ => rfl) (fun _ => rfl) hp fun _ _ => .pure _

theorem preserves_releaseSlots (slots : List Slot) (hp : p.Within r) :
    Preserves (TidyAt r) (releaseSlots slots p) := by
  induction slots generalizing p with
  | nil => exact .pure []
  | cons slot slots ih =>
    refine (preserves_insert rfl rfl hp).bind fun x => ?_
    exact (ih (.after r x)).bind fun _ => .pure _

theorem preserves_splitReleases (slots : List Slot) (uses : List Use) :
    Preserves (TidyAt body) (splitReleases slots uses) := by
  induction uses with
  | nil => exact .pure []
  | cons use uses ih =>
    refine (preserves_releaseSlots slots (.before ..)).bind fun _ => ?_
    exact (preserves_erase _).bind fun _ => ih.bind fun _ => .pure _

theorem preserves_regroupReleases (target : Nat) (added : List Slot) (releases : List (List OpId)) :
    Preserves (TidyAt body) (regroupReleases target added releases) := by
  have hone : ∀ ops, Preserves (TidyAt body) (regroupRelease target added ops) := by
    intro ops
    refine (preserves_eraseAll _).bind fun _ => ?_
    split
    · exact (preserves_releaseSlots added (.after ..)).bind fun _ => .pure _
    · exact .pure _
  induction releases with
  | nil => exact .pure []
  | cons ops releases ih => exact (hone ops).bind fun _ => ih.bind fun _ => .pure _

theorem preserves_replaceReleases (slots : List Slot) (releases : List (List OpId)) :
    Preserves (TidyAt body) (replaceReleases slots releases) := by
  induction releases with
  | nil => exact .pure []
  | cons ops releases ih =>
    cases ops with
    | nil => exact ih
    | cons old olds =>
      refine (preserves_releaseSlots slots (.before ..)).bind fun _ => ?_
      exact (preserves_eraseAll _).bind fun _ => ih.bind fun _ => .pure _

theorem preserves_addConstant (value : Int64) (hp : p.Within r) : Preserves (TidyAt r) (addConstant value p) :=
  preserves_newValue (fun _ => rfl) (fun _ => rfl) hp fun _ _ => .pure _

theorem preserves_addArith (op : ArithOp) (lhs rhs : ValueId) (hp : p.Within r) :
    Preserves (TidyAt r) (addArith op lhs rhs p) :=
  preserves_newValue (f := fun v => .arith v op lhs rhs) (fun _ => rfl) (fun _ => rfl) hp fun _ _ => .pure _

theorem preserves_addArithUnless (neutral : Int64) (op : ArithOp) (value other : ValueId) (hp : p.Within r) :
    Preserves (TidyAt r) (addArithUnless neutral op value other p) := by
  refine Preserves.bind ⟨fun k _ k' h hrun => by cases hrun; exact h⟩ fun k => ?_
  split
  · exact .pure _
  · exact (preserves_addArith op value other hp).bind fun _ => .pure _

theorem preserves_addRotation (l : Loop) (factor : Nat) (hp : p.Within r) :
    Preserves (TidyAt r) (addRotation l factor p) := by
  unfold addRotation
  split_ifs
  · exact ⟨fun k _ k' _ hrun => by cases hrun⟩
  · exact (preserves_addConstant 0 hp).bind fun _ => .pure _
  · refine (preserves_addArithUnless 0 .sub _ _ hp).bind fun shift => ?_
    refine (preserves_addArithUnless 1 .div _ _ (hp.past _)).bind fun scale => ?_
    refine (preserves_addConstant _ (hp.past _)).bind fun constant => ?_
    exact (preserves_addArith .rem _ _ (.after ..)).bind fun _ => .pure _

end Edit

namespace Kernel

variable {k k' : Kernel} {r : RegionId} {p : InsertPoint} {set : SlotSet} {slots : List Slot} {index : ValueId}

theorem gives_of_insert {i : Instr} (hi : i.region? = none) {v : ValueId} (hv : i.result? = some v) {x : OpId}
    (hrun : Edit.insert i p k = .ok x k') : k'.Gives x v := by
  obtain ⟨-, hinstr, -, -⟩ := insert_eq_ok hi hrun
  have hself : k'.instr? x = some i := (hinstr x).trans (if_pos rfl)
  obtain ⟨op, hop, -⟩ := Option.map_eq_some_iff.mp hself
  refine ⟨lt_size_of_op? hop, fun j hj => ?_⟩
  rw [← Option.some.inj (hself.symm.trans hj)]
  exact hv

theorem gives_of_selectAmong {ty : BufferType} {op : OpId} {result : ValueId}
    (hrun : Edit.selectAmong ty slots index p k = .ok (op, result) k') : k'.Gives op result := by
  obtain ⟨_, _, -, hrun⟩ := bind_eq_ok hrun
  obtain ⟨_, _, hinsert, hrun⟩ := bind_eq_ok hrun
  cases hrun
  exact gives_of_insert rfl rfl hinsert

theorem TidyAt.moveSelector (h : k.TidyAt r) (hp : p.Within r) (hgives : k.Gives set.selector set.selected)
    {op : OpId} (hrun : Edit.moveSelector set slots index p k = .ok op k') :
    k'.Tidy ∧ k'.Gives op set.selected := by
  obtain ⟨_, k₁, hinsert, hrun⟩ := bind_eq_ok hrun
  obtain ⟨_, _, herase, hrun⟩ := bind_eq_ok hrun
  cases hrun
  exact ⟨h.supplant rfl hp rfl hgives hinsert herase,
    (gives_of_insert rfl rfl hinsert).of_keeps ((lasts_results.erase _).ok herase)⟩

theorem loop?_of_getLoop {a : OpId} {l : Loop} (h : k.getLoop a = .ok l) : k.loop? a = some l := by
  unfold getLoop at h
  split at h
  · rename_i hl
    cases h
    exact hl
  · cases h

theorem Tidy.bodyTop (h : k.Tidy) {a : OpId} {top : InsertPoint} (htop : k.bodyTop a = .ok top) :
    ∃ r, k.TidyAt r ∧ top.Within r := by
  obtain ⟨l, hl, htop⟩ := except_bind_eq_ok htop
  cases htop
  refine ⟨l.body, ⟨h, Or.inr ⟨a, l, loop?_of_getLoop hl, rfl⟩⟩, ?_⟩
  cases k.leadingBarrier? l.body with
  | none => rfl
  | some b => trivial

end Kernel

namespace Transform

open Kernel

variable {α : Type} {P : Kernel → Prop} {policy : Policy} {set set' : SlotSet} {s s' : State}

theorem preserves_edit {e : Edit α} (h : Preserves P e) : Preserves (fun s => P s.kernel) (edit e) :=
  ⟨fun _ _ _ hs hrun => h.kept _ _ _ hs (edit_eq_ok hrun).1⟩

theorem preserves_record (kind : EventKind) (op : OpId) (message : String) :
    Preserves (fun s => P s.kernel) (record kind op message) :=
  ⟨fun _ _ _ hs hrun => by cases hrun; exact hs⟩

theorem preserves_currentKernel : Preserves (fun s => P s.kernel) currentKernel :=
  ⟨fun _ _ _ hs hrun => by cases hrun; exact hs⟩

theorem preserves_query (q : Kernel → Except Error α) : Preserves (fun s => P s.kernel) (query q) := by
  refine ⟨fun s a s' hs hrun => ?_⟩
  unfold query at hrun
  split at hrun
  · cases hrun
    exact hs
  · cases hrun

theorem preserves_leadWithBarrier (loop : OpId) :
    Preserves (fun s => s.kernel.TidyAt body) (leadWithBarrier loop) := by
  refine ⟨fun s guard s' hs hrun => ?_⟩
  obtain ⟨l, hl, hrun⟩ := query_bind_eq_ok hrun
  -- the loop is live now, and it stays so while the barrier is inserted
  have hbody : s.kernel.TidyAt l.body := ⟨hs.toTidy, Or.inr ⟨loop, l, loop?_of_getLoop hl, rfl⟩⟩
  refine Tidy.at_body (TidyAt.toTidy ((Preserves.bind preserves_currentKernel fun k => ?_).kept s _ _ hbody hrun))
  split
  · exact (preserves_record ..).bind fun _ => .pure _
  · refine (preserves_edit (Edit.preserves_insert rfl rfl (.first l.body))).bind fun _ => ?_
    exact (preserves_record ..).bind fun _ => .pure _

theorem preserves_guardFor (policy : Policy) (ty : BufferType) (loop : OpId) (factor : Nat) :
    Preserves (fun s => s.kernel.TidyAt body) (guardFor policy ty loop factor) := by
  refine preserves_currentKernel.bind fun k => ?_
  split
  · exact (preserves_leadWithBarrier loop).bind fun _ => .pure _
  · exact .pure _

theorem preserves_renewGuard (policy : Policy) (set : SlotSet) (factor : Nat) :
    Preserves (fun s => s.kernel.TidyAt body) (renewGuard policy set factor) := by
  refine preserves_currentKernel.bind fun k => ?_
  split
  · exact .pure _
  · exact (preserves_leadWithBarrier _).bind fun _ => .pure _
  · split
    · exact (preserves_edit (Edit.preserves_erase _)).bind fun _ => .pure _
    · exact .pure _
  · exact .pure _

theorem preserves_deriveRotation (loop : OpId) (factor : Nat) {r : RegionId} {p : InsertPoint} (hp : p.Within r) :
    Preserves (fun s => s.kernel.TidyAt r) (deriveRotation loop factor p) := by
  refine (preserves_query _).bind fun l => ?_
  refine (preserves_edit (Edit.preserves_addRotation l factor hp)).bind fun _ => ?_
  exact (preserves_record ..).bind fun _ => .pure _

theorem preserves_rebind (selected : ValueId) (uses : List Use) :
    Preserves (fun s => s.kernel.TidyAt body) (rebind selected uses) := by
  induction uses with
  | nil => exact .pure ()
  | cons use uses ih =>
    refine (preserves_edit (Edit.preserves_setOperand ..)).bind fun _ => ?_
    exact (preserves_record ..).bind fun _ => ih

theorem preserves_rebindFrom (old new : ValueId) (bindings : List Binding) :
    Preserves (fun s => s.kernel.TidyAt body) (rebindFrom old new bindings) := by
  induction bindings with
  | nil => exact .pure ()
  | cons binding bindings ih =>
    refine (preserves_edit (Edit.preserves_setOperand ..)).bind fun found => ?_
    split
    · exact (preserves_record ..).bind fun _ => ih
    · exact ⟨fun _ _ _ _ hrun => nomatch hrun⟩

theorem preserves_discard (slots : List Slot) : Preserves (fun s => s.kernel.TidyAt body) (discard slots) := by
  induction slots with
  | nil => exact .pure ()
  | cons slot slots ih =>
    refine (preserves_edit (Edit.preserves_erase _)).bind fun _ => ?_
    exact (preserves_record ..).bind fun _ => ih

theorem lasts_results : Lasts KeepsResults fun s s' => KeepsResults s.kernel s'.kernel :=
  .ofKernel Kernel.lasts_results

theorem tidy_of_expand {site : Site} {factor : Int64} (h : s.kernel.Tidy)
    (hrun : expand policy site factor s = .ok set s') :
    s'.kernel.Tidy ∧ s'.kernel.Gives set.selector set.selected := by
  obtain ⟨e, top, s₁, s₂, s₃, s₄, s₅, s₆, -, hslots, hguard, htop, hrotation, hselect, hrebind, hreleases, herase,
    -⟩ := expand_stages hrun
  have h₁ := (preserves_edit (Edit.preserves_allocateSlots _ _ _ _ (.after ..))).kept _ _ _ h.at_body hslots
  have h₂ := (preserves_guardFor ..).kept (s₁.record ..) _ _ h₁ hguard
  obtain ⟨r, hr, hwithin⟩ := h₂.toTidy.bodyTop htop
  have h₃ := (preserves_deriveRotation _ _ hwithin).kept _ _ _ hr hrotation
  have h₄ := (preserves_edit (Edit.preserves_selectAmong _ _ _ (hwithin.past _))).kept _ _ _ h₃ hselect
  have h₅ := (preserves_rebind ..).kept _ _ _ h₄.toTidy.at_body hrebind
  have h₆ := (preserves_edit (Edit.preserves_splitReleases ..)).kept _ _ _ h₅ hreleases
  have h₇ := (preserves_edit (Edit.preserves_erase _)).kept _ _ _ h₆ herase
  refine ⟨h₇.toTidy, ?_⟩
  have hgives := gives_of_selectAmong (edit_eq_ok hselect).1
  have hrebound := (lasts_results.rebind ..).ok hrebind
  have hsplit := (lasts_results.edit (lasts_results.edits.splitReleases ..)).ok hreleases
  have herased := (lasts_results.edit (lasts_results.edits.erase _)).ok herase
  exact hgives.of_keeps ((hrebound.trans hsplit).trans herased)

section

variable {target : Nat} {last : Slot} {index : ValueId} {r : RegionId} {p : InsertPoint}

theorem tidy_of_reallocate (h : s.kernel.TidyAt r) (hp : p.Within r)
    (hrun : reallocate set target last index p s = .ok set' s') :
    s'.kernel.Tidy ∧ s'.kernel.Gives set'.selector set'.selected := by
  obtain ⟨s₁, s₂, s₃, s₄, s₅, s₆, hslots, hselect, hrebind, hreleases, herase, hdiscard, -, rfl⟩ :=
    reallocate_stages hrun
  have h₁ := (preserves_edit (Edit.preserves_allocateSlots _ _ _ _ (.after ..))).kept _ _ _ h hslots
  have h₂ := (preserves_edit (Edit.preserves_selectAmong _ _ _ hp)).kept _ _ _ h₁ hselect
  have h₃ := (preserves_rebindFrom ..).kept _ _ _ h₂.toTidy.at_body hrebind
  have h₄ := (preserves_edit (Edit.preserves_replaceReleases ..)).kept _ _ _ h₃ hreleases
  have h₅ := (preserves_edit (Edit.preserves_erase _)).kept _ _ _ h₄ herase
  have h₆ := (preserves_discard _).kept _ _ _ h₅ hdiscard
  refine ⟨h₆.toTidy, ?_⟩
  have hgives := gives_of_selectAmong (edit_eq_ok hselect).1
  have hrebound := (lasts_results.rebindFrom ..).ok hrebind
  have hreplaced := (lasts_results.edit (lasts_results.edits.replaceReleases ..)).ok hreleases
  have herased := (lasts_results.edit (lasts_results.edits.erase _)).ok herase
  have hdiscarded := (lasts_results.discard _).ok hdiscard
  exact hgives.of_keeps (((hrebound.trans hreplaced).trans herased).trans hdiscarded)

theorem tidy_of_regroup {strategy : Strategy} (h : s.kernel.TidyAt r) (hp : p.Within r)
    (hgives : s.kernel.Gives set.selector set.selected)
    (hrun : regroup set strategy target last index p s = .ok set' s') :
    s'.kernel.Tidy ∧ s'.kernel.Gives set'.selector set'.selected := by
  obtain ⟨kept, added, s₁, s₂, s₃, s₄, hslots, hselector, hreleases, hdiscard, -, hset', rfl⟩ := regroup_stages hrun
  have h₁ := (preserves_edit (Edit.preserves_allocateSlots _ _ _ _ (.after ..))).kept _ _ _ h hslots
  have hallocated := (lasts_results.edit (lasts_results.edits.allocateSlots ..)).ok hslots
  obtain ⟨h₂, hmoved⟩ := h₁.moveSelector hp (hgives.of_keeps hallocated) (edit_eq_ok hselector).1
  have h₃ := (preserves_edit (Edit.preserves_regroupReleases ..)).kept _ _ _ h₂.at_body hreleases
  have h₄ := (preserves_discard _).kept _ _ _ h₃ hdiscard
  have hselected : set'.selected = set.selected := by rw [hset']
  have hregrouped := (lasts_results.edit (lasts_results.edits.regroupReleases ..)).ok hreleases
  have hdiscarded := (lasts_results.discard _).ok hdiscard
  rw [hselected]
  exact ⟨h₄.toTidy, hmoved.of_keeps (hregrouped.trans hdiscarded)⟩

end

/-- A resizing leaves a tidy kernel tidy if the selector of the set gives the selected value, and so does the
selector of the new set. -/
theorem tidy_of_resize {factor : Int64} (h : s.kernel.Tidy) (hgives : s.kernel.Gives set.selector set.selected)
    (hrun : resize policy set factor s = .ok set' s') :
    s'.kernel.Tidy ∧ s'.kernel.Gives set'.selector set'.selected := by
  obtain ⟨target, last, top, resized, s₁, s₂, s₃, -, -, -, hguard, htop, hrotation, hresized, herase, hset'⟩ :=
    resize_stages hrun
  have h₁ := (preserves_renewGuard ..).kept _ _ _ h.at_body hguard
  obtain ⟨r, hr, hwithin⟩ := h₁.toTidy.bodyTop htop
  have h₂ := (preserves_deriveRotation _ _ hwithin).kept _ _ _ hr hrotation
  have hrenewed := (lasts_results.renewGuard ..).ok hguard
  have hrotated := (lasts_results.deriveRotation ..).ok hrotation
  have hgives₂ := hgives.of_keeps (hrenewed.trans hrotated)
  obtain ⟨h₃, hgives₃⟩ : s₃.kernel.Tidy ∧ s₃.kernel.Gives resized.selector resized.selected := by
    rcases hresized with ⟨-, hreallocate⟩ | ⟨strategy, -, -, hregroup⟩
    · exact tidy_of_reallocate h₂ (hwithin.past _) hreallocate
    · exact tidy_of_regroup h₂ (hwithin.past _) hgives₂ hregroup
  have h₄ := (preserves_edit (Edit.preserves_eraseAll _)).kept _ _ _ h₃.at_body herase
  have herased := (lasts_results.edit (lasts_results.edits.eraseAll _)).ok herase
  rw [hset']
  exact ⟨h₄.toTidy, hgives₃.of_keeps herased⟩

theorem homed_surveyOp (h : s.kernel.Homed) (id : OpId) : (surveyOp id s).2.kernel.Homed := by
  have hstripped : (s.kernel.updateAlloc id Alloc.stripped).Homed := by
    rcases updateAlloc_eq s.kernel id Alloc.stripped with heq | ⟨op, a, hop, -, heq⟩
    · rw [heq]
      exact h
    · rw [heq]
      exact h.setInstr hop _
  unfold surveyOp
  split
  · exact h
  · dsimp only
    split
    · exact h
    · exact hstripped
    · exact hstripped

theorem homed_surveyOps (h : s.kernel.Homed) (ids : List OpId) : (surveyOps ids s).2.kernel.Homed := by
  induction ids generalizing s with
  | nil => exact h
  | cons id ids ih => exact ih (homed_surveyOp h id)

theorem tidy_of_survey (h : s.kernel.Tidy) : (survey s).2.kernel.Tidy := by
  obtain ⟨F, hF⟩ := h.stores
  obtain ⟨hbecomes, -, -⟩ := hF.surveyOps s.kernel.preorder
  exact ⟨⟨_, hbecomes.stores⟩, homed_surveyOps h.homed _⟩

/-- A kernel under transformation, with every set that was made in it, still in place or not. -/
structure Session where
  state : State
  sets : List SlotSet := []

inductive Advances : Session → Session → Prop
  | survey (w : Session) : Advances w { w with state := (Transform.survey w.state).2 }
  | expand {w : Session} {site : Site} {set : SlotSet} {s' : State} (policy : Policy) (factor : Int64) :
    Transform.expand policy site factor w.state = .ok set s' → Advances w { state := s', sets := w.sets ++ [set] }
  | resize {w : Session} {set set' : SlotSet} {s' : State} (policy : Policy) (factor : Int64) :
    set ∈ w.sets → Transform.resize policy set factor w.state = .ok set' s' →
      Advances w { state := s', sets := w.sets ++ [set'] }

/-- The kernel is tidy, and each selector that is left gives the value of its set. -/
structure Session.Orderly (w : Session) : Prop where
  tidy : w.state.kernel.Tidy
  gives : ∀ set ∈ w.sets, w.state.kernel.Gives set.selector set.selected

theorem Session.Orderly.extend {w : Session} {set : SlotSet} {s' : State} (h : w.Orderly) (htidy : s'.kernel.Tidy)
    (hgives : s'.kernel.Gives set.selector set.selected) (hkeeps : KeepsResults w.state.kernel s'.kernel) :
    Session.Orderly { state := s', sets := w.sets ++ [set] } := by
  refine ⟨htidy, fun other hother => ?_⟩
  rcases List.mem_append.mp hother with hother | hother
  · exact (h.gives other hother).of_keeps hkeeps
  · rw [List.mem_singleton.mp hother]
    exact hgives

theorem Advances.orderly {w w' : Session} (hstep : Advances w w') (h : w.Orderly) : w'.Orderly := by
  cases hstep with
  | survey =>
    refine ⟨tidy_of_survey h.tidy, fun set hset => ?_⟩
    exact (h.gives set hset).of_keeps (lasts_results.survey w.state)
  | expand policy factor hrun =>
    obtain ⟨htidy, hgives⟩ := tidy_of_expand h.tidy hrun
    exact h.extend htidy hgives ((lasts_results.expand policy _ factor).ok hrun)
  | resize policy factor hset hrun =>
    obtain ⟨htidy, hgives⟩ := tidy_of_resize h.tidy (h.gives _ hset) hrun
    exact h.extend htidy hgives ((lasts_results.resize policy _ factor).ok hrun)

theorem orderly_of_advances {w w' : Session} (hsteps : Relation.ReflTransGen Advances w w') (h : w.Orderly) :
    w'.Orderly := by
  induction hsteps with
  | refl => exact h
  | tail _ hstep ih => exact hstep.orderly ih

theorem orderly_of_build {name : String} {location : Location} {stmts : List Stmt}
    (hstart : s.kernel = build name location stmts) : Session.Orderly { state := s } := by
  refine ⟨⟨?_, ?_⟩, nofun⟩
  · rw [hstart]
    exact build_stores name location stmts
  · rw [hstart]
    exact build_homed name location stmts

end Transform
end SlotRotation
