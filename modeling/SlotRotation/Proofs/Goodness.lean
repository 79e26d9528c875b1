import Mathlib.Logic.Relation
import SlotRotation.Proofs.Building
import SlotRotation.Proofs.Carries
import SlotRotation.Proofs.Survey

/-! What a set records agrees with the kernel, whatever was expanded and resized before. -/

namespace SlotRotation

def BufferType.tile : BufferType := { element := .f32, shape := [8] }

/-- Two annotated tiles that a loop fills and copies. -/
def Stmt.tilePair : List Stmt :=
  [.alloc .tile (some 1) (some 2), .alloc .tile (some 1) (some 3), .constant 0, .constant 8, .constant 1,
    .loop ⟨2⟩ ⟨3⟩ ⟨4⟩ none [.fill ⟨0⟩ ⟨5⟩, .copy ⟨0⟩ ⟨1⟩], .dealloc ⟨0⟩, .dealloc ⟨1⟩]

namespace Kernel

def allocs (k : Kernel) : List Alloc := k.liveOps.filterMap fun (_, op) => op.instr.alloc?

def loops (k : Kernel) : List Loop := k.liveOps.filterMap fun (_, op) => op.instr.loop?

/-- No loop starts at a buffer with a slot directive or steps by one. -/
def PlainBounds (k : Kernel) : Prop :=
  ∀ a ∈ k.allocs, a.multibuffer.isSome → ∀ l ∈ k.loops, l.lower ≠ a.result ∧ l.step ≠ a.result

instance (k : Kernel) : Decidable k.PlainBounds :=
  inferInstanceAs (Decidable (∀ a ∈ k.allocs, a.multibuffer.isSome → ∀ l ∈ k.loops,
    l.lower ≠ a.result ∧ l.step ≠ a.result))

end Kernel

namespace SlotSet

structure Good (set : SlotSet) (k : Kernel) : Prop where
  inhabited : 1 ≤ set.factor
  slots : ∀ (i : Nat) (slot : Slot), set.slots[i]? = some slot →
    slot.ordinal = i ∧ k.instr? slot.alloc = some (.alloc { result := slot.value, ty := set.ty })
  selector : ∃ l, k.loop? set.loop = some l ∧
    k.op? set.selector = some ⟨.selectSlot set.selected set.slotValues set.rotation.value, l.body⟩ ∧
    set.selector ∈ k.regionOps l.body ∧
    ∀ x ∈ set.rotation.ops, k.home? x = some l.body ∧ x ∈ k.regionOps l.body ∧ k.standsBefore x set.selector
  rotates : set.rotation.factor = set.factor
  accesses : ∀ use, use ∈ k.usesOf set.selected ↔ use ∈ set.bindings.map Binding.use
  named : ∀ binding ∈ set.bindings, binding.selector = set.selector
  releases : ∀ ops ∈ set.releases, ops.length = set.factor ∧
    ∀ (i : Nat) (slot : Slot) (x : OpId), set.slots[i]? = some slot → ops[i]? = some x →
      k.instr? x = some (.dealloc slot.value)
  uses : ∀ (i : Nat) (slot : Slot), set.slots[i]? = some slot → ∀ use, use ∈ k.usesOf slot.value ↔
    use = ⟨set.selector, i⟩ ∨ ∃ ops ∈ set.releases, ∃ x, ops[i]? = some x ∧ use = ⟨x, 0⟩

variable {set : SlotSet} {k : Kernel} {F : Forest}

theorem Fits.good (h : set.Fits F) (hS : k.Stores F) : set.Good k where
  inhabited := List.length_pos_iff.mpr h.inhabited
  slots i slot hi := by
    have hordinal : (set.slots.map Slot.ordinal)[i]? = some slot.ordinal := by rw [List.getElem?_map, hi]; rfl
    rw [h.ordinals, List.getElem?_range (List.getElem?_eq_some_iff.mp hi).1] at hordinal
    refine ⟨(Option.some.inj hordinal).symm, ?_⟩
    exact hS.instr?_of_mem (h.allocs _ (mem_allocNodes.mpr ⟨slot, List.mem_of_getElem? hi, rfl⟩))
  selector := by
    obtain ⟨l, B, hB, hmem⟩ := h.inside set.selector List.mem_cons_self
    have hlevel : F.Level l.body B := Or.inr ⟨set.loop, l, hB, rfl⟩
    have hlist := hS.regionOps_level hlevel
    refine ⟨l, hS.loop?_eq_some_iff.mpr hB.mem_nodes, ?_, hlist ▸ hmem, fun x hx => ?_⟩
    · obtain ⟨i, hi⟩ := (hS.placed_level hlevel).op?_of_mem_tops hmem
      have hinstr := hS.instr?_of_mem h.selects
      rw [show k.instr? set.selectNode.1 = some i by rw [Kernel.instr?, selectNode, hi]; rfl] at hinstr
      rw [hi, Option.some.inj hinstr]
      rfl
    · obtain ⟨l', B', hB', hx'⟩ := h.inside x (List.mem_cons_of_mem _ hx)
      obtain ⟨rfl, rfl⟩ := hB.unique hB' hS.nodup
      refine ⟨hS.home?_level hlevel hx', hlist ▸ hx', ?_⟩
      -- the op at which the selector meets its own region is the selector
      obtain ⟨i, hi, hleaf⟩ := h.exists_node (mem_members.mpr (Or.inr (Or.inr (Or.inl hx))))
      obtain ⟨m, hm, hunder, hlt⟩ := (hS.inScope_iff_later hlevel hi hleaf hx').mp (h.ahead x hx)
      have hself := Forest.under_unique (hlevel.nodup hS.nodup) (hlevel.plain hS.plain) hm hmem hunder (Or.inl rfl)
      rw [hself] at hlt
      exact (hS.standsBefore_level hlevel hx' hmem).mpr hlt
  rotates := h.factor
  accesses use := by rw [hS.usesOf_eq]; exact h.selected_uses use
  named := h.named
  releases ops hops := by
    obtain ⟨hlength, hnodes⟩ := h.releases ops hops
    refine ⟨hlength, fun i slot x hslot hx => ?_⟩
    exact hS.instr?_of_mem (hnodes (x, _) (mem_releaseNodes.mpr ⟨i, slot, hslot, hx, rfl⟩))
  uses i slot hi use := by
    rw [hS.usesOf_eq, h.slot_uses i slot hi use]
    refine or_congr_right (exists_congr fun ops => and_congr_right fun _ => ?_)
    constructor
    · rintro ⟨hx, hzero⟩
      exact ⟨use.user, hx, by rw [← hzero]⟩
    · rintro ⟨x, hx, rfl⟩
      exact ⟨hx, rfl⟩

end SlotSet

namespace Kernel

variable {k : Kernel} {F : Forest}

theorem mem_liveOps_iff {id : OpId} {op : Op} : (id, op) ∈ k.liveOps ↔ k.op? id = some op := by
  have hop : k.op? id = some op ↔ k.ops[id.index]? = some (some op) := by rw [op?, Option.join_eq_some_iff]
  rw [hop, liveOps, List.mem_filterMap]
  constructor
  · rintro ⟨⟨slot, index⟩, hmem, hsome⟩
    rw [List.mem_zipIdx_iff_getElem?, Array.getElem?_toList] at hmem
    obtain ⟨op', rfl, heq⟩ := Option.map_eq_some_iff.mp hsome
    cases heq
    exact hmem
  · intro hmem
    refine ⟨(some op, id.index), ?_, rfl⟩
    rw [List.mem_zipIdx_iff_getElem?, Array.getElem?_toList]
    exact hmem

theorem Stores.mem_allocs_iff (h : Stores k F) {a : Alloc} : a ∈ k.allocs ↔ ∃ id, (id, .alloc a) ∈ F.nodes := by
  rw [allocs, List.mem_filterMap]
  constructor
  · rintro ⟨⟨id, op⟩, hmem, ha⟩
    have hinstr : k.alloc? id = some a := by simpa [alloc?, instr?, mem_liveOps_iff.mp hmem] using ha
    exact ⟨id, h.alloc?_eq_some_iff.mp hinstr⟩
  · rintro ⟨id, ha⟩
    obtain ⟨r, hr⟩ := h.placed.op? ha
    exact ⟨_, mem_liveOps_iff.mpr hr, rfl⟩

theorem Stores.mem_loops_iff (h : Stores k F) {l : Loop} : l ∈ k.loops ↔ ∃ id, (id, .loop l) ∈ F.nodes := by
  rw [loops, List.mem_filterMap]
  constructor
  · rintro ⟨⟨id, op⟩, hmem, hl⟩
    have hinstr : k.loop? id = some l := by simpa [loop?, instr?, mem_liveOps_iff.mp hmem] using hl
    exact ⟨id, h.loop?_eq_some_iff.mp hinstr⟩
  · rintro ⟨id, hl⟩
    obtain ⟨r, hr⟩ := h.placed.op? hl
    exact ⟨_, mem_liveOps_iff.mpr hr, rfl⟩

theorem Stores.survey {s : Transform.State} (h : Stores s.kernel F) (hv : s.kernel.verify = .ok ())
    (hbounds : s.kernel.PlainBounds) :
    Carries (Transform.survey s).2.kernel (F.rewrite (.stripping s.kernel.preorder))
      (Transform.survey s).1.sites [] := by
  obtain ⟨hbecomes, hsize, hsites⟩ := h.surveyOps s.kernel.preorder
  refine ⟨hbecomes.stores, ((h.verify_eq_ok_iff).mp hv).stripping h.plain _ h.nodup, by simp, .nil, ?_, by simp⟩
  intro site hsite
  obtain ⟨a, ha, hbuffer, -, hmulti, -⟩ := hsites site hsite
  refine ⟨?_, ?_, fun i hi => ?_⟩
  · refine Forest.ControlFree.stripping h.plain _ fun b l hl => ?_
    rw [hbuffer]
    exact hbounds a (h.mem_allocs_iff.mpr ⟨_, ha⟩) (by rw [hmulti]; rfl) l (h.mem_loops_iff.mpr ⟨_, hl⟩)
  · exact hsize.symm ▸ h.index_lt (Forest.mem_ids_of_mem_nodes ha)
  · obtain ⟨j, hj, heq⟩ := (Forest.mem_stripping h.plain _).mp hi
    rw [Forest.node_unique h.nodup hj ha] at heq
    change i = _ at heq
    rw [heq]
    split
    · exact ⟨_, rfl⟩
    · exact ⟨_, rfl⟩

end Kernel

namespace Transform

/-- One call on the sites of a survey and the sets made so far: an expansion adds a set, a resizing puts one in place
of another. -/
inductive Call (sites : List Site) : State × List SlotSet → State × List SlotSet → Prop
  | expand {s s' : State} {sets : List SlotSet} {site : Site} {set : SlotSet} (policy : Policy) (factor : Int64) :
    site ∈ sites → Transform.expand policy site factor s = .ok set s' → Call sites (s, sets) (s', sets ++ [set])
  | resize {s s' : State} {before after : List SlotSet} {set set' : SlotSet} (policy : Policy) (factor : Int64) :
    Transform.resize policy set factor s = .ok set' s' →
      Call sites (s, before ++ set :: after) (s', before ++ set' :: after)

theorem refuses_expand {policy : Policy} {site : Site} {factor : Int64} {k : Kernel} {err : Error}
    (h : site.expansion policy k factor = .error err) : Refuses (expand policy site factor) k :=
  (refuses_query h).bind

theorem Call.carries {sites : List Site} {x y : State × List SlotSet} (hcall : Call sites x y)
    (hx : ∃ F, Kernel.Carries x.1.kernel F sites x.2) : ∃ F, Kernel.Carries y.1.kernel F sites y.2 := by
  obtain ⟨F, hF⟩ := hx
  cases hcall with
  | expand policy factor hsite hrun =>
    rcases hF.expand hsite policy factor with ⟨err, herr⟩ |
      ⟨e, a, l, set, k', E, guard, rot, hdoes, -, -, -, -, hcarries, -⟩
    · exact absurd hrun ((refuses_expand herr).not_ok rfl)
    · obtain ⟨rfl, hk⟩ := hdoes.unique rfl hrun
      exact ⟨E.result, hk.symm ▸ hcarries⟩
  | resize policy factor hrun =>
    rcases hF.resize policy factor with ⟨hrefuses, -⟩ |
      ⟨target, set, k₀, k', F₀, l, ns, E, guard, rot, hdoes, -, -, -, -, -, -, -, hcarries, -⟩
    · exact absurd hrun (hrefuses.not_ok rfl)
    · obtain ⟨rfl, hk⟩ := hdoes.unique rfl hrun
      exact ⟨E.result, hk.symm ▸ hcarries⟩

theorem carries_of_calls {sites : List Site} {x y : State × List SlotSet}
    (hcalls : Relation.ReflTransGen (Call sites) x y) (hx : ∃ F, Kernel.Carries x.1.kernel F sites x.2) :
    ∃ F, Kernel.Carries y.1.kernel F sites y.2 := by
  induction hcalls with
  | refl => exact hx
  | tail _ hcall ih => exact hcall.carries ih

open Kernel in
/-- Whatever is expanded and resized after a survey, in whatever order, every set is good. -/
theorem good_of_calls {name : String} {location : Location} {stmts : List Stmt} (start : State)
    (hstart : start.kernel = build name location stmts) (hv : start.kernel.verify = .ok ())
    (hbounds : start.kernel.PlainBounds) {s : State} {sets : List SlotSet}
    (hcalls : Relation.ReflTransGen (Call (survey start).1.sites) ((survey start).2, []) (s, sets)) :
    ∀ set ∈ sets, set.Good s.kernel := by
  obtain ⟨F, hF⟩ := build_stores name location stmts
  rw [← hstart] at hF
  obtain ⟨G, hG⟩ := carries_of_calls hcalls ⟨_, hF.survey hv hbounds⟩
  exact fun set hset => (hG.in_place set hset).fits.good hG.stores

/-- Two sets of one loop, the first of them resized when the second is in place. -/
theorem good_of_calls_tilePair :
    let start : State := { kernel := Kernel.build "pair" .unknown Stmt.tilePair, pass := "slots" }
    ∃ (s : State) (set₁ set₂ : SlotSet),
      Relation.ReflTransGen (Call (survey start).1.sites) ((survey start).2, []) (s, [set₁, set₂]) ∧
        set₁.slots.length = 3 ∧ set₂.slots.length = 1 ∧ ∀ set ∈ [set₁, set₂], set.Good s.kernel := by
  intro start
  let first : Site := ⟨⟨0⟩, ⟨0⟩, .tile, 1, some 2⟩
  let second : Site := ⟨⟨1⟩, ⟨1⟩, .tile, 1, some 3⟩
  let calls : Transform (SlotSet × SlotSet) := do
    let set ← expand {} first 1
    let set₂ ← expand {} second 1
    let set₁ ← resize {} set 3
    pure (set₁, set₂)
  have hsites : (survey start).1.sites = [first, second] := by decide +kernel
  have hruns : (match calls (survey start).2 with
      | .ok (set₁, set₂) _ => some (set₁.slots.length, set₂.slots.length)
      | .error _ _ => none) = some (3, 1) := by decide +kernel
  obtain ⟨pair, s, hcalls, hcounts⟩ :
      ∃ pair s, calls (survey start).2 = .ok pair s ∧ (pair.1.slots.length, pair.2.slots.length) = (3, 1) := by
    cases hrun : calls (survey start).2 with
    | ok pair s =>
      rw [hrun] at hruns
      exact ⟨pair, s, rfl, Option.some.inj hruns⟩
    | error err s =>
      rw [hrun] at hruns
      cases hruns
  obtain ⟨set, s₁, hfirst, hcalls⟩ := bind_eq_ok hcalls
  obtain ⟨set₂, s₂, hsecond, hcalls⟩ := bind_eq_ok hcalls
  obtain ⟨set₁, s₃, hresize, hcalls⟩ := bind_eq_ok hcalls
  cases hcalls
  have hlast : Call (survey start).1.sites (s₂, [] ++ set :: [set₂]) (s, [] ++ set₁ :: [set₂]) :=
    .resize {} 3 hresize
  have hchain : Relation.ReflTransGen (Call (survey start).1.sites) ((survey start).2, []) (s, [set₁, set₂]) :=
    ((Relation.ReflTransGen.single (.expand {} 1 (by simp [hsites]) hfirst)).tail
      (.expand {} 1 (by simp [hsites]) hsecond)).tail hlast
  obtain ⟨hcount₁, hcount₂⟩ := Prod.mk.inj hcounts
  exact ⟨s, set₁, set₂, hchain, hcount₁, hcount₂,
    good_of_calls start rfl (by decide +kernel) (by decide +kernel) hchain⟩

end Transform
end SlotRotation
