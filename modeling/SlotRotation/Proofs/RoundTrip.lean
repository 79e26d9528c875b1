import SlotRotation.Proofs.Accounting
import SlotRotation.Proofs.Housing

/-! More slots and back again. The slots that are added behind the old ones are those that go when the set is brought
back to its old slot count; only the index, the selector and the guard are made again on the way. -/

namespace SlotRotation

namespace SlotSet

variable {set grown final : SlotSet} {N n m : Nat} {k k' k'' : Kernel} {x : OpId}

/-- The ops that are made again when a set gets more slots and is brought back. -/
def remakes (set grown final : SlotSet) : List OpId := set.entry ++ grown.inserted ++ final.entry

structure Restored (set grown final : SlotSet) (k k' : Kernel) : Prop where
  slots : final.slots.map Slot.storage = set.slots.map Slot.storage
  selected : final.selected = set.selected
  loop : final.loop = set.loop
  bindings : final.bindings.map Binding.use = set.bindings.map Binding.use
  releases : final.releases = set.releases
  op? : ∀ x ∉ set.remakes grown final, k'.op? x = k.op? x
  order : k'.preorder.filter (· ∉ set.remakes grown final) = k.preorder.filter (· ∉ set.remakes grown final)

theorem map_take_eq {releases : List (List OpId)} (h : ∀ ops ∈ releases, ops.length = n) :
    releases.map (·.take n) = releases := by
  rw [List.map_congr_left fun ops hops => List.take_of_length_le (Nat.le_of_eq (h ops hops)), List.map_id']

theorem mem_entry_of_expendable (hslots : set.slots.length = n) (hreleases : ∀ ops ∈ set.releases, ops.length = n)
    (hx : x ∈ set.expendable n) : x ∈ set.entry := by
  have hspare : set.spare n = [set.selector] := by
    have hflat : (set.releases.map (·.drop n)).flatten = [] := by
      rw [List.flatten_eq_nil_iff]
      intro ops hops
      obtain ⟨old, hold, rfl⟩ := List.mem_map.mp hops
      exact List.drop_eq_nil_of_le (Nat.le_of_eq (hreleases old hold))
    unfold spare
    rw [hflat, List.drop_eq_nil_of_le (Nat.le_of_eq hslots)]
    rfl
  unfold expendable at hx
  rw [hspare] at hx
  unfold entry
  rw [List.append_assoc]
  exact List.mem_append_right _ hx

theorem Refitted.restored {N' : Nat} (hset : set.Seated N k) (hn : set.slots.length = n)
    (h : set.Refitted grown N m n (fun _ v => v) k k') (h' : grown.Refitted final N' n n (fun _ v => v) k' k'')
    (hselected : grown.selected = set.selected) (hselected' : final.selected = grown.selected) :
    set.Restored grown final k k'' := by
  have hreleases : ∀ ops ∈ set.releases, ops.length = n := fun ops hops => hn ▸ hset.lengths ops hops
  obtain ⟨gone, new, hswaps, hreguards⟩ := h.swaps
  obtain ⟨gone', new', hswaps', hreguards'⟩ := h'.swaps
  have hgone : ∀ x ∉ set.remakes grown final, x ∉ gone ++ set.expendable n := by
    intro x hx hmem
    apply hx
    refine List.mem_append_left _ (List.mem_append_left _ ?_)
    rcases List.mem_append.mp hmem with hmem | hmem
    · exact List.mem_append_left _ (List.mem_append_left _ (hreguards.old x hmem))
    · exact mem_entry_of_expendable hn hreleases hmem
  have hnew : ∀ x ∉ set.remakes grown final, x ∉ new' ++ final.expendable n := by
    intro x hx hmem
    apply hx
    refine List.mem_append_right _ ?_
    rcases List.mem_append.mp hmem with hmem | hmem
    · exact List.mem_append_left _ (List.mem_append_left _ (hreguards'.made x hmem))
    · exact mem_entry_of_expendable h'.count h'.lengths hmem
  -- of the grown set only its guard may be there still
  have hmid : ∀ x ∉ set.remakes grown final, (x ∈ new ++ grown.expendable n ↔ x ∈ gone' ++ grown.expendable n) := by
    intro x hx
    have hguard : x ∉ grown.inserted := fun hmem =>
      hx (List.mem_append_left _ (List.mem_append_right _ hmem))
    have hnew' : x ∉ new := fun hmem => hguard (hreguards.made x hmem)
    have hgone' : x ∉ gone' := fun hmem => hguard (hreguards'.old x hmem)
    simp [hnew', hgone']
  refine ⟨?_, hselected'.trans hselected, h'.loop.trans h.loop, ?_, ?_,
    fun x hx => hswaps.op?_undo hswaps' (hgone x hx) (hnew x hx) (hmid x hx),
    hswaps.order_undo hswaps' hgone hnew hmid⟩
  · have hslots := h'.slots.trans h.slots
    rw [List.take_of_length_le (Nat.le_of_eq h'.count), List.take_of_length_le (Nat.le_of_eq hn)] at hslots
    exact hslots
  · rw [h'.bindings, h.bindings, List.map_map, List.map_map]
    rfl
  · calc final.releases = final.releases.map (·.take n) := (map_take_eq h'.lengths).symm
      _ = grown.releases.map (·.take n) := h'.releases
      _ = set.releases.map (·.take n) := h.releases
      _ = set.releases := map_take_eq hreleases

end SlotSet

namespace Transform

/-- Whatever was called before, a set that gets a multiple of its slots and is brought back has its old storage. -/
theorem resize_back_restores {name : String} {location : Location} {stmts : List Stmt} (start : State)
    (hstart : start.kernel = Kernel.build name location stmts) (hv : start.kernel.verify = .ok ()) {s : State}
    {sets : List SlotSet}
    (hcalls : Relation.ReflTransGen (Call (survey start).1.sites) ((survey start).2, []) (s, sets)) {set : SlotSet}
    (hset : set ∈ sets) {times : Nat} (htimes : 1 ≤ times) {more back : Int64}
    (hmore : more.toInt = times * set.factor) (hback : back.toInt = set.factor) (policy policy' : Policy) :
    ∃ (grown final : SlotSet) (s₁ s₂ : State), resize policy set more s = .ok grown s₁ ∧
      grown.slots.length = times * set.factor ∧ resize policy' grown back s₁ = .ok final s₂ ∧
      set.Restored grown final s.kernel s₂.kernel := by
  have hgoes : ∀ n m, n ∣ m ∨ m ∣ n → Strategy.choose n m ≠ .reallocate := fun n m hdvd hchoose =>
    Strategy.choose_eq_reallocate_iff.mp hchoose hdvd.symm
  obtain ⟨M, N, hawaits, hhouses⟩ := houses_of_calls hstart hv hcalls
  obtain ⟨F, hF⟩ := hawaits.grown
  have hseated := hhouses.seated set hset
  have hpos : 0 < set.factor := List.length_pos_iff.mpr hseated.inhabited
  have hle : set.factor ≤ times * set.factor := Nat.le_mul_of_pos_left _ htimes
  -- more slots
  obtain ⟨grown, k₁, F₁, hdoes₁, -, hrefitted₁, hselected₁⟩ := hF.toStores.refitted_of_regroup policy
    hseated hF.values_le (slotsAsked_of_toInt (n := times * set.factor) (by rw [hmore]; norm_cast) (by omega))
    (fun _ _ => hhouses.guarded set hset) (hgoes _ _ (Or.inl (Nat.dvd_mul_left ..)))
  obtain ⟨s₁, hrun₁, rfl⟩ := hdoes₁ s rfl
  -- and back
  obtain ⟨before, after, rfl⟩ := List.append_of_mem hset
  obtain ⟨M', N', hawaits₁, hhouses₁⟩ := houses_of_calls hstart hv (hcalls.tail (.resize policy more hrun₁))
  obtain ⟨F₂, hF₂⟩ := hawaits₁.grown
  have hgrown : grown ∈ before ++ grown :: after := List.mem_append_right _ List.mem_cons_self
  have hcount : grown.slots.length = times * set.factor := hrefitted₁.count
  obtain ⟨final, k₂, -, hdoes₂, -, hrefitted₂, hselected₂⟩ := hF₂.toStores.refitted_of_regroup policy'
    (hhouses₁.seated grown hgrown) hF₂.values_le (slotsAsked_of_toInt hback hpos)
    (fun _ _ => hhouses₁.guarded grown hgrown)
    (hgoes _ _ (Or.inr (by unfold SlotSet.factor; rw [hcount]; exact Nat.dvd_mul_left ..)))
  obtain ⟨s₂, hrun₂, rfl⟩ := hdoes₂ s₁ rfl
  rw [hcount, Nat.min_eq_right hle] at hrefitted₂
  rw [show set.slots.length = set.factor from rfl, Nat.min_eq_left hle] at hrefitted₁
  exact ⟨grown, final, s₁, s₂, hrun₁, hcount, hrun₂,
    hrefitted₁.restored hseated rfl hrefitted₂ hselected₁ hselected₂⟩

/-- The first tile of a pair goes from two slots to six and back. -/
theorem resize_back_restores_tilePair :
    let start : State := { kernel := Kernel.build "pair" .unknown Stmt.tilePair, pass := "slots" }
    ∃ (s s₁ s₂ : State) (set other grown final : SlotSet),
      Relation.ReflTransGen (Call (survey start).1.sites) ((survey start).2, []) (s, [set, other]) ∧ set.factor = 2 ∧
      resize {} set 6 s = .ok grown s₁ ∧ grown.slots.length = 6 ∧ resize {} grown 2 s₁ = .ok final s₂ ∧
      set.Restored grown final s.kernel s₂.kernel := by
  intro start
  obtain ⟨s, -, set, other, -, hcalls, hfactor, -⟩ := resized_tilePair (show start = _ from rfl)
  obtain ⟨grown, final, s₁, s₂, hmore, hcount, hback, hrestored⟩ :=
    resize_back_restores start rfl (by decide +kernel) hcalls List.mem_cons_self (show 1 ≤ 3 by decide)
      (show (6 : Int64).toInt = (3 : Nat) * set.factor by rw [hfactor]; decide)
      (show (2 : Int64).toInt = set.factor by rw [hfactor]; decide) {} {}
  rw [hfactor] at hcount
  exact ⟨s, s₁, s₂, set, other, grown, final, hcalls, hfactor, hmore, hcount, hback, hrestored⟩

end Transform
end SlotRotation
