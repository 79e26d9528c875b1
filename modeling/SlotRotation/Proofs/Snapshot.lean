import Mathlib.Data.Set.Card
import SlotRotation.Proofs.Definitions
import SlotRotation.Proofs.Goodness

/-! A snapshot says of its kernel what the kernel says of itself. The uses of each value, their number and the order
of the walk agree after any edits, and the definitions after any surveys, expansions and resizings. -/

namespace SlotRotation

namespace DefUse

variable {k : Kernel} {F : Forest}

theorem exists_addUses (id : OpId) (operands : List (ValueId × Nat)) (s : DefUse) :
    ∃ uses, operands.foldl (fun s (value, operand) => s.addUse value { user := id, operand }) s =
      { s with uses } := by
  induction operands generalizing s with
  | nil => exact ⟨s.uses, rfl⟩
  | cons n operands ih =>
    obtain ⟨uses, huses⟩ := ih (s.addUse n.1 { user := id, operand := n.2 })
    exact ⟨uses, huses⟩

theorem rank?_addOp (s : DefUse) (id : OpId) (op : Op) (x : OpId) : (s.addOp id op).rank? x = s.rank? x := by
  obtain ⟨uses, huses⟩ := exists_addUses id op.instr.operands.zipIdx _
  rw [addOp, huses]
  cases op.instr.result? <;> rfl

theorem definition?_addDefinition (s : DefUse) (id : OpId) (value v : ValueId) :
    (s.addDefinition id value).definition? v = if value = v then some id else s.definition? v := by
  simp only [definition?, addDefinition, Std.TreeMap.getElem?_insert, Std.LawfulEqCmp.compare_eq_iff_eq]

theorem definition?_addOp (s : DefUse) (id : OpId) (op : Op) (v : ValueId) :
    (s.addOp id op).definition? v = if op.instr.result? = some v then some id else s.definition? v := by
  obtain ⟨uses, huses⟩ := exists_addUses id op.instr.operands.zipIdx _
  rw [addOp, huses]
  cases op.instr.result? with
  | none => rfl
  | some value =>
    simp only [Option.some.injEq]
    exact definition?_addDefinition s id value v

theorem rank?_add (s : DefUse) (n : OpId × Nat) (x : OpId) :
    (s.add k n.1 n.2).rank? x = (if n.1 = x then some n.2 else none).or (s.rank? x) := by
  have hrank : (s.addRank n.1 n.2).rank? x = if n.1 = x then some n.2 else s.rank? x := by
    simp only [rank?, addRank, Std.TreeMap.getElem?_insert, Std.LawfulEqCmp.compare_eq_iff_eq]
  have hadd : (s.add k n.1 n.2).rank? x = (s.addRank n.1 n.2).rank? x := by
    unfold add
    cases k.op? n.1 with
    | none => rfl
    | some op => exact rank?_addOp ..
  rw [hadd, hrank]
  split <;> rfl

theorem definition?_add (s : DefUse) (n : OpId × Nat) (v : ValueId) :
    (s.add k n.1 n.2).definition? v =
      (if (k.instr? n.1).bind Instr.result? = some v then some n.1 else none).or (s.definition? v) := by
  unfold add Kernel.instr?
  cases k.op? n.1 with
  | none => rfl
  | some op =>
    refine (definition?_addOp (s.addRank n.1 n.2) n.1 op v).trans ?_
    simp only [Option.map_some, Option.bind_some]
    split <;> rfl

section

variable {β : Type} (view : DefUse → Option β) {answer : OpId × Nat → Option β}

/-- Where each op puts its own answer over the ones before, the last answer of the walk stands. -/
theorem view_ofKernel (hempty : view {} = none) (hadd : ∀ s n, view (s.add k n.1 n.2) = (answer n).or (view s)) :
    view (ofKernel k) = k.preorder.zipIdx.reverse.findSome? answer := by
  have hfold : ∀ (entries : List (OpId × Nat)) (s : DefUse), view (entries.foldl (fun s n => s.add k n.1 n.2) s) =
      (entries.reverse.findSome? answer).or (view s) := by
    intro entries
    induction entries with
    | nil => exact fun s => rfl
    | cons n entries ih =>
      intro s
      rw [List.foldl_cons, ih, hadd, List.reverse_cons, List.findSome?_append, Option.or_assoc,
        List.findSome?_singleton]
  rw [← Option.or_none (o := k.preorder.zipIdx.reverse.findSome? answer), ← hempty]
  exact hfold ..

theorem view_ofKernel_eq_some_iff (hempty : view {} = none)
    (hadd : ∀ s n, view (s.add k n.1 n.2) = (answer n).or (view s))
    (hsame : ∀ m ∈ k.preorder.zipIdx, ∀ n ∈ k.preorder.zipIdx, ∀ x y, answer m = some x → answer n = some y → x = y)
    {x : β} : view (ofKernel k) = some x ↔ ∃ n ∈ k.preorder.zipIdx, answer n = some x := by
  rw [view_ofKernel view hempty hadd]
  constructor
  · intro hfound
    obtain ⟨n, hn, hx⟩ := List.exists_of_findSome?_eq_some hfound
    exact ⟨n, List.mem_reverse.mp hn, hx⟩
  · rintro ⟨n, hn, hx⟩
    have hsome : (k.preorder.zipIdx.reverse.findSome? answer).isSome :=
      List.findSome?_isSome_iff.mpr ⟨n, List.mem_reverse.mpr hn, by rw [hx]; rfl⟩
    obtain ⟨y, hfound⟩ := Option.isSome_iff_exists.mp hsome
    obtain ⟨m, hm, hy⟩ := List.exists_of_findSome?_eq_some hfound
    rw [hfound, hsame m (List.mem_reverse.mp hm) n hn y x hy hx]

end

theorem rank?_ofKernel (hnodup : k.preorder.Nodup) {x : OpId} {m : Nat} :
    (ofKernel k).rank? x = some m ↔ k.preorder[m]? = some x := by
  have hentry : ∀ {n : OpId × Nat} {m : Nat}, n ∈ k.preorder.zipIdx → (if n.1 = x then some n.2 else none) = some m →
      k.preorder[m]? = some x := by
    intro n m hn hm
    obtain ⟨hx, hm⟩ := Option.ite_none_right_eq_some.mp hm
    rw [← hx, ← Option.some.inj hm]
    exact List.mem_zipIdx_iff_getElem?.mp hn
  refine (view_ofKernel_eq_some_iff (rank? · x) Std.TreeMap.getElem?_emptyc (rank?_add · · x) ?_).trans ⟨?_, ?_⟩
  · intro a ha b hb m n hm hn
    have hlt := (List.getElem?_eq_some_iff.mp (hentry ha hm)).1
    exact (List.getElem?_inj hlt hnodup).mp ((hentry ha hm).trans (hentry hb hn).symm)
  · rintro ⟨n, hn, hm⟩
    exact hentry hn hm
  · intro hm
    exact ⟨(x, m), List.mem_zipIdx_iff_getElem?.mpr hm, if_pos rfl⟩

theorem precedes_iff {s : DefUse} {a b : OpId} :
    s.precedes a b ↔ ∃ m n, m < n ∧ s.rank? a = some m ∧ s.rank? b = some n := by
  unfold precedes
  cases s.rank? a with
  | none => simp
  | some m => cases s.rank? b <;> simp

theorem definition?_ofKernel (h : k.Stores F) (v : ValueId) : (ofKernel k).definition? v = k.definition? v := by
  have hentry : ∀ {n : OpId × Nat} {x : OpId},
      (if (k.instr? n.1).bind Instr.result? = some v then some n.1 else none) = some x →
      k.definition? v = some x := by
    intro n x hx
    obtain ⟨hv, hx⟩ := Option.ite_none_right_eq_some.mp hx
    obtain ⟨i, hi, hv⟩ := Option.bind_eq_some_iff.mp hv
    rw [← Option.some.inj hx]
    exact h.definition?_eq_some_iff.mpr ⟨i, h.mem_nodes_iff.mpr hi, hv⟩
  refine Option.ext fun x => (view_ofKernel_eq_some_iff (definition? · v) Std.TreeMap.getElem?_emptyc
    (definition?_add · · v) ?_).trans ⟨?_, ?_⟩
  · intro a _ b _ x y hx hy
    exact Option.some.inj ((hentry hx).symm.trans (hentry hy))
  · rintro ⟨n, -, hx⟩
    exact hentry hx
  · intro hx
    obtain ⟨i, hi, hv⟩ := h.definition?_eq_some_iff.mp hx
    have hmem : x ∈ k.preorder := by
      rw [h.preorder_eq]
      exact List.mem_map_of_mem hi
    obtain ⟨m, hm⟩ := List.mem_iff_getElem?.mp hmem
    refine ⟨(x, m), List.mem_zipIdx_iff_getElem?.mpr hm, if_pos ?_⟩
    rw [h.mem_nodes_iff.mp hi, Option.bind_some, hv]

/-- The snapshot has the uses of the kernel, counts each operand of a live op once, and puts the live ops in the
order of the walk, which goes through every region. -/
structure Agrees (s : DefUse) (k : Kernel) : Prop where
  uses : ∀ v, s.usesOf v = k.usesOf v
  count : ∀ v,
    {use : Use | ∃ op, k.op? use.user = some op ∧ op.instr.operands[use.operand]? = some v}.encard = s.useCount v
  order : IsStrictTotalOrder {id // k.isLive id} fun a b => s.precedes a b
  walk : ∀ a b, s.precedes a b ↔ ∃ m n : Nat, m < n ∧ k.preorder[m]? = some a ∧ k.preorder[n]? = some b
  walks : k.Walks (k.regionOps Kernel.body) k.preorder

theorem encard_uses (h : k.Arranges F) (v : ValueId) :
    {use : Use | ∃ op, k.op? use.user = some op ∧ op.instr.operands[use.operand]? = some v}.encard =
      (F.uses v).length := by
  have hset : {use : Use | ∃ op, k.op? use.user = some op ∧ op.instr.operands[use.operand]? = some v} =
      (F.uses v).toFinset := by
    ext use
    rw [Set.mem_ofPred_eq, Finset.mem_coe, List.mem_toFinset, Forest.mem_uses]
    constructor
    · rintro ⟨op, hop, hv⟩
      exact ⟨op.instr, h.mem_nodes_iff.mpr (by rw [Kernel.instr?, hop]; rfl), hv⟩
    · rintro ⟨i, hi, hv⟩
      obtain ⟨op, hop, rfl⟩ := Option.map_eq_some_iff.mp (h.mem_nodes_iff.mp hi)
      exact ⟨op, hop, hv⟩
  rw [hset, Set.encard_coe_eq_coe_finsetCard, List.toFinset_card_of_nodup (Forest.nodup_uses h.nodup v)]

theorem exists_rank (h : k.Linked) {x : OpId} (hx : k.isLive x) : ∃ m, (ofKernel k).rank? x = some m := by
  obtain ⟨m, hm⟩ := List.mem_iff_getElem?.mp ((h.walk x).mpr hx)
  exact ⟨m, (rank?_ofKernel h.walk_nodup).mpr hm⟩

theorem isStrictTotalOrder_precedes (h : k.Linked) :
    IsStrictTotalOrder {id // k.isLive id} fun a b => (ofKernel k).precedes a b where
  irrefl a hlt := by
    obtain ⟨m, n, hlt, hm, hn⟩ := precedes_iff.mp hlt
    exact hlt.ne (Option.some.inj (hm.symm.trans hn))
  trans a b c hab hbc := by
    obtain ⟨m, n, hmn, ha, hb⟩ := precedes_iff.mp hab
    obtain ⟨n', l, hnl, hb', hc⟩ := precedes_iff.mp hbc
    obtain rfl : n = n' := Option.some.inj (hb.symm.trans hb')
    exact precedes_iff.mpr ⟨m, l, hmn.trans hnl, ha, hc⟩
  trichotomous a b hab hba := by
    obtain ⟨m, hm⟩ := exists_rank h a.2
    obtain ⟨n, hn⟩ := exists_rank h b.2
    have hnot : ¬ m < n := fun hlt => hab (precedes_iff.mpr ⟨m, n, hlt, hm, hn⟩)
    have hnot' : ¬ n < m := fun hlt => hba (precedes_iff.mpr ⟨n, m, hlt, hn, hm⟩)
    -- Ops of the same rank are at the same place of the walk.
    obtain rfl : m = n := by omega
    have ha := (rank?_ofKernel h.walk_nodup).mp hm
    have hb := (rank?_ofKernel h.walk_nodup).mp hn
    exact Subtype.ext (Option.some.inj (ha.symm.trans hb))

theorem agrees (h : k.Arranges F) (hlinked : k.Linked) : (ofKernel k).Agrees k where
  uses v := (usesOf_ofKernel h v).trans (h.usesOf_eq v).symm
  count v := by rw [encard_uses h, useCount, usesOf_ofKernel h]
  order := isStrictTotalOrder_precedes hlinked
  walk a b := by simp only [precedes_iff, rank?_ofKernel hlinked.walk_nodup]
  walks := hlinked.walks

open Transform in
/-- A snapshot agrees with its kernel on uses and order, whatever was inserted, erased and rebound after the kernel
was built. It also agrees on definitions where sites were found and expanded and sets were resized. -/
theorem agrees_of_build (name : String) (location : Location) (stmts : List Stmt) :
    (∀ k, Relation.ReflTransGen Kernel.Edited (Kernel.build name location stmts) k → (ofKernel k).Agrees k) ∧
      ∀ (start : State) (w : Session), start.kernel = Kernel.build name location stmts →
        Relation.ReflTransGen Advances { state := start } w →
          (ofKernel w.state.kernel).Agrees w.state.kernel ∧
            ∀ v, (ofKernel w.state.kernel).definition? v = w.state.kernel.definition? v := by
  refine ⟨fun k hedits => ?_, fun start w hstart hsteps => ?_⟩
  · obtain ⟨⟨F, hF⟩, hhomed⟩ := Kernel.exists_arranges hedits
    exact agrees hF (hF.linked hhomed)
  · have htidy := (orderly_of_advances hsteps (orderly_of_build hstart)).tidy
    obtain ⟨F, hF⟩ := htidy.stores
    exact ⟨agrees hF.toArranges (hF.linked htidy.homed), definition?_ofKernel hF⟩

open Transform in
/-- An erased copy out of a slot, and a slot that was expanded and then regrouped into three. -/
theorem agrees_of_build_tilePair :
    let start : State := { kernel := Kernel.build "pair" .unknown Stmt.tilePair, pass := "slots" }
    (∃ k, Relation.ReflTransGen Kernel.Edited start.kernel k ∧ k.usesOf ⟨0⟩ = [⟨⟨5⟩, 0⟩, ⟨⟨9⟩, 0⟩] ∧
      (ofKernel k).Agrees k) ∧
      ∃ (w : Session) (set set' : SlotSet),
        Relation.ReflTransGen Advances { state := start } w ∧ w.sets = [set, set'] ∧
          set.selector ≠ set'.selector ∧ w.state.kernel.definition? set.selected = some set'.selector ∧
          (ofKernel w.state.kernel).Agrees w.state.kernel ∧
            ∀ v, (ofKernel w.state.kernel).definition? v = w.state.kernel.definition? v := by
  intro start
  obtain ⟨hedited, hadvanced⟩ := agrees_of_build "pair" .unknown Stmt.tilePair
  constructor
  · have hop : start.kernel.op? ⟨6⟩ = some ⟨.copy ⟨0⟩ ⟨1⟩, ⟨1⟩⟩ := by decide +kernel
    have herase : Kernel.Edited start.kernel (start.kernel.remove ⟨6⟩ ⟨.copy ⟨0⟩ ⟨1⟩, ⟨1⟩⟩) :=
      .erase (show Edit.erase ⟨6⟩ start.kernel = .ok () _ by simp only [Edit.erase, Kernel.getOp, hop])
    exact ⟨_, .single herase, by decide +kernel, hedited _ (.single herase)⟩
  · let site : Site := ⟨⟨0⟩, ⟨0⟩, .tile, 1, some 2⟩
    let calls : Transform (SlotSet × SlotSet × Option OpId) := do
      let set ← expand {} site 1
      let set' ← resize {} set 3
      let k ← currentKernel
      pure (set, set', k.definition? set.selected)
    have hruns : ((calls.run' (survey start).2).any fun r =>
        decide (r.1.selector ≠ r.2.1.selector ∧ r.2.2 = some r.2.1.selector)) = true := by decide +kernel
    obtain ⟨r, s, hcalls, hmoved⟩ : ∃ r s, calls (survey start).2 = .ok r s ∧
        r.1.selector ≠ r.2.1.selector ∧ r.2.2 = some r.2.1.selector := by
      unfold EStateM.run' EStateM.run at hruns
      cases hrun : calls (survey start).2 with
      | ok r s => rw [hrun] at hruns; exact ⟨r, s, rfl, of_decide_eq_true hruns⟩
      | error err s => rw [hrun] at hruns; cases hruns
    obtain ⟨set, s₁, hexpand, hcalls⟩ := bind_eq_ok hcalls
    obtain ⟨set', s₂, hresize, hcalls⟩ := bind_eq_ok hcalls
    cases hcalls
    have hchain : Relation.ReflTransGen Advances { state := start } { state := s, sets := [set, set'] } :=
      ((Relation.ReflTransGen.single (.survey _)).tail (.expand {} 1 hexpand)).tail
        (.resize {} 3 (List.mem_singleton.mpr rfl) hresize)
    exact ⟨_, set, set', hchain, rfl, hmoved.1, hmoved.2, hadvanced start _ rfl hchain⟩

end DefUse
end SlotRotation
