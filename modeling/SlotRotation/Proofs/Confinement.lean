import SlotRotation.Proofs.Accounting
import SlotRotation.Proofs.Goodness
import SlotRotation.Proofs.Housing

/-! A resizing touches the ops of its own set and no others. -/

namespace SlotRotation

namespace SlotSet

/-- What a resizing of a set does to the rest of the kernel and to the old set. If one of the two slot counts divides
the other the slots that both sets have stay, otherwise all slots are allocated anew. -/
structure Confined (set set' : SlotSet) (k k' : Kernel) : Prop where
  stays : ∀ x, k.isLive x → x ∉ set.own → k'.isLive x ∧ k'.home? x = k.home? x
  order : k'.preorder.filter (fun x => k.isLive x ∧ x ∉ set.own) = k.preorder.filter (· ∉ set.own)
  regrouped : set'.factor ∣ set.factor ∨ set.factor ∣ set'.factor →
    (∀ x, k.isLive x → x ∉ set.own → k'.op? x = k.op? x) ∧ set'.selected = set.selected ∧
      ∀ i < min set.factor set'.factor, ∃ slot slot', set.slots[i]? = some slot ∧ set'.slots[i]? = some slot' ∧
        slot'.alloc = slot.alloc ∧ slot'.value = slot.value
  reallocated : ¬(set'.factor ∣ set.factor ∨ set.factor ∣ set'.factor) →
    (∀ x op, k.op? x = some op → x ∉ set.own →
      k'.op? x = some (op.reading (Kernel.redirect (set.bindings.map Binding.use) set'.selected) x)) ∧
    (∀ use ∈ set.bindings.map Binding.use, use ∈ k'.usesOf set'.selected) ∧
    (∀ slot ∈ set.slots, ¬k'.isLive slot.alloc) ∧ (∀ x ∈ set.releases.flatten, ¬k'.isLive x) ∧
      ∀ (i : Nat) (slot : Slot), set'.slots[i]? = some slot → slot.origin = .inherited (i % set.factor)

namespace Refitted

variable {set set' : SlotSet} {N n c : Nat} {f : Use → ValueId → ValueId} {k k' : Kernel} {x : OpId}
  (h : set.Refitted set' N n c f k k')
include h

theorem op?_of_notMem {op : Op} (hop : k.op? x = some op) (hown : x ∉ set.own) :
    k'.op? x = some (op.reading f x) := by
  obtain ⟨gone, new, hswaps, hreguards⟩ := h.swaps
  rw [hswaps.op?_of_lt (Kernel.lt_size_of_op? hop) (hreguards.notMem_of_own hown), hop]
  rfl

theorem preorder_filter {F' : Forest} (h' : k'.Stores F') :
    k'.preorder.filter (fun x => k.isLive x ∧ x ∉ set.own) = k.preorder.filter (· ∉ set.own) := by
  obtain ⟨gone, new, hswaps, hreguards⟩ := h.swaps
  have hfilter := congrArg (List.filter (· ∉ set.own)) hswaps.order
  rw [List.filter_filter, List.filter_filter] at hfilter
  calc k'.preorder.filter (fun x => k.isLive x ∧ x ∉ set.own)
      = k'.preorder.filter (fun x => decide (x ∉ set.own) && decide (x ∉ new ++ set'.expendable c)) := by
        refine List.filter_congr fun x hx => ?_
        rw [h'.preorder_eq, ← h'.isLive_iff] at hx
        by_cases hown : x ∈ set.own
        · simp [hown]
        · simp [hown, ← hswaps.notMem_new_iff hx (hreguards.notMem_of_own hown)]
    _ = _ := hfilter
    _ = k.preorder.filter (· ∉ set.own) := by
        refine List.filter_congr fun x _ => ?_
        have hgone := hreguards.notMem_of_own (c := c) (x := x)
        simpa using hgone

theorem stays (hlive : k.isLive x) (hown : x ∉ set.own) : k'.isLive x ∧ k'.home? x = k.home? x := by
  obtain ⟨op, hop⟩ := Option.isSome_iff_exists.mp hlive
  unfold Kernel.isLive Kernel.home?
  rw [h.op?_of_notMem hop hown, hop]
  exact ⟨rfl, rfl⟩

theorem not_isLive (hx : x ∈ set.expendable c) : ¬k'.isLive x := by
  obtain ⟨gone, new, hswaps, -⟩ := h.swaps
  unfold Kernel.isLive
  rw [(hswaps.erased x (List.mem_append_right _ hx)).2]
  exact Bool.false_ne_true

theorem exists_slots {i : Nat} (hi : i < c) (hset : i < set.slots.length) (hset' : i < set'.slots.length) :
    ∃ slot slot', set.slots[i]? = some slot ∧ set'.slots[i]? = some slot' ∧ slot'.alloc = slot.alloc ∧
      slot'.value = slot.value := by
  have hstorage := congrArg (fun storages => storages[i]?) h.slots
  simp only [List.getElem?_map, List.getElem?_take_of_lt hi, List.getElem?_eq_getElem hset,
    List.getElem?_eq_getElem hset', Option.map_some, Option.some.injEq, Slot.storage, Prod.mk.injEq] at hstorage
  exact ⟨_, _, List.getElem?_eq_getElem hset, List.getElem?_eq_getElem hset', hstorage.2.1, hstorage.2.2⟩

end Refitted
end SlotSet

namespace Transform

open Kernel in
/-- Whatever was called before, a resizing keeps to its set. -/
theorem resize_confined {name : String} {location : Location} {stmts : List Stmt} (start : State)
    (hstart : start.kernel = build name location stmts) (hv : start.kernel.verify = .ok ())
    (hbounds : start.kernel.PlainBounds) {s : State} {sets : List SlotSet}
    (hcalls : Relation.ReflTransGen (Call (survey start).1.sites) ((survey start).2, []) (s, sets)) {set : SlotSet}
    (hset : set ∈ sets) {policy : Policy} {factor : Int64} {set' : SlotSet} {s' : State}
    (hrun : resize policy set factor s = .ok set' s') :
    (set'.slots.length : Int) = factor.toInt ∧ set.Confined set' s.kernel s'.kernel := by
  obtain ⟨M, N, hawaits, hhouses⟩ := houses_of_calls hstart hv hcalls
  obtain ⟨F, hF⟩ := hawaits.grown
  obtain ⟨n, -, -, -, -, -, -, hn, -⟩ := resize_stages hrun
  obtain ⟨F', hstores, hrefitted⟩ := hF.toStores.refitted_of_resize (hhouses.seated set hset) hF.values_le hn
    (fun _ _ => hhouses.guarded set hset) rfl hrun
  -- the accesses of the new set
  have hread : ∀ use, use ∈ s'.kernel.usesOf set'.selected ↔ use ∈ set'.bindings.map Binding.use := by
    obtain ⟨before, after, rfl⟩ := List.append_of_mem hset
    obtain ⟨F₀, hF₀⟩ := build_stores name location stmts
    rw [← hstart] at hF₀
    obtain ⟨G, hG⟩ := carries_of_calls (hcalls.tail (.resize policy factor hrun)) ⟨_, hF₀.survey hv hbounds⟩
    exact ((hG.in_place set' (List.mem_append_right _ List.mem_cons_self)).fits.good hG.stores).accesses
  rcases hrefitted with ⟨hchoose, hselected, hrefitted⟩ | ⟨hchoose, horigin, hrefitted⟩
  · have hcount : set'.factor = n := hrefitted.count
    rw [Ne, Strategy.choose_eq_reallocate_iff, not_not, ← hcount] at hchoose
    refine ⟨by rw [hrefitted.count, slotsAsked_eq_toInt hn], fun x => hrefitted.stays,
      hrefitted.preorder_filter hstores, fun _ => ⟨fun x hlive hown => ?_, hselected, fun i hi => ?_⟩,
      fun hnot => absurd hchoose hnot⟩
    · obtain ⟨op, hop⟩ := Option.isSome_iff_exists.mp hlive
      rw [hrefitted.op?_of_notMem hop hown, Op.reading_id, hop]
    · obtain ⟨hold, hnew⟩ := Nat.lt_min.mp hi
      exact hrefitted.exists_slots (hcount ▸ hi) hold hnew
  · have hcount : set'.factor = n := hrefitted.count
    rw [Strategy.choose_eq_reallocate_iff, ← hcount] at hchoose
    refine ⟨by rw [hrefitted.count, slotsAsked_eq_toInt hn], fun x => hrefitted.stays,
      hrefitted.preorder_filter hstores, fun hdvd => absurd hdvd hchoose,
      fun _ => ⟨fun x op => hrefitted.op?_of_notMem, fun use huse => ?_,
        fun slot hslot => ?_, fun x hx => ?_, horigin⟩⟩
    · rw [hread, hrefitted.bindings, List.map_map]
      exact huse
    · exact hrefitted.not_isLive (SlotSet.mem_expendable_zero.mpr (SlotSet.alloc_mem_members hslot))
    · exact hrefitted.not_isLive (SlotSet.mem_expendable_zero.mpr (SlotSet.release_mem_members hx))

/-- The first tile of a pair goes from two slots to three, next to the slots of the second one. -/
theorem resize_confined_tilePair :
    let start : State := { kernel := Kernel.build "pair" .unknown Stmt.tilePair, pass := "slots" }
    ∃ (s s' : State) (set other set' : SlotSet),
      Relation.ReflTransGen (Call (survey start).1.sites) ((survey start).2, []) (s, [set, other]) ∧
      resize {} set 3 s = .ok set' s' ∧ set.factor = 2 ∧ (set'.slots.length : Int) = 3 ∧
      set.Confined set' s.kernel s'.kernel := by
  intro start
  obtain ⟨s, s', set, other, set', hcalls, hfactor, hresize⟩ := resized_tilePair (show start = _ from rfl)
  obtain ⟨hcount, hconfined⟩ := resize_confined start rfl (by decide +kernel) (by decide +kernel) hcalls
    List.mem_cons_self hresize
  exact ⟨s, s', set, other, set', hcalls, hresize, hfactor, hcount, hconfined⟩

end Transform
end SlotRotation
