import SlotRotation.Proofs.Expansion
import SlotRotation.Proofs.Guards
import SlotRotation.Proofs.Resizing

/-! A change of the slot count puts a new set in place of the old one, by regrouping the slots or by allocating all
of them anew. -/

namespace SlotRotation

theorem Edit.eraseAll_append (as bs : List OpId) :
    Edit.eraseAll (as ++ bs) = Edit.eraseAll as >>= fun _ => Edit.eraseAll bs := by
  induction as with
  | nil => rfl
  | cons a as ih =>
    rw [List.cons_append, Edit.eraseAll, ih, Edit.eraseAll, bind_assoc]

theorem Edit.eraseAll_append_ok {as bs : List OpId} {k k' : Kernel} (h : Edit.eraseAll (as ++ bs) k = .ok () k') :
    ∃ k₁, Edit.eraseAll as k = .ok () k₁ ∧ Edit.eraseAll bs k₁ = .ok () k' := by
  rw [Edit.eraseAll_append] at h
  obtain ⟨_, k₁, has, hbs⟩ := bind_eq_ok h
  exact ⟨k₁, has, hbs⟩

theorem allocNodes_origin (ty : BufferType) (slots : List Slot) (origin : Slot → SlotOrigin) :
    allocNodes ty (slots.map fun slot => { slot with origin := origin slot }) = allocNodes ty slots := List.map_map

theorem map_value_origin (slots : List Slot) (origin : Slot → SlotOrigin) :
    (slots.map fun slot => { slot with origin := origin slot }).map Slot.value = slots.map Slot.value := List.map_map

theorem releaseNodes_congr {slots slots' : List Slot} (h : slots.map Slot.value = slots'.map Slot.value)
    (ops : List OpId) : releaseNodes slots ops = releaseNodes slots' ops := by
  have hmap : ∀ slots : List Slot, releaseNodes slots ops =
      List.zipWith (fun v op => ((op, .dealloc v) : Node)) (slots.map Slot.value) ops := by
    intro slots
    rw [List.zipWith_map_left, releaseNodes]
  rw [hmap, hmap, h]

theorem range_regrouped (n target : Nat) :
    (List.range n).take target ++ List.range' n (target - n) = List.range target := by
  rw [List.take_range]
  rcases Nat.le_total target n with hle | hle
  · rw [Nat.min_eq_left hle, Nat.sub_eq_zero_of_le hle, List.range'_zero, List.append_nil]
  · have happend : List.range' 0 n ++ List.range' (0 + 1 * n) (target - n) = List.range' 0 (n + (target - n)) :=
      List.range'_append
    rw [Nat.min_eq_right hle, List.range_eq_range', List.range_eq_range']
    simpa [Nat.add_sub_cancel' hle] using happend

namespace SlotSet

variable {set : SlotSet}

def core (set : SlotSet) : List OpId := set.slots.map Slot.alloc ++ [set.selector] ++ set.rotation.ops

theorem alloc_mem_core {slot : Slot} (hslot : slot ∈ set.slots) : slot.alloc ∈ set.core :=
  List.mem_append_left _ (List.mem_append_left _ (List.mem_map_of_mem hslot))

theorem selector_mem_core : set.selector ∈ set.core :=
  List.mem_append_left _ (List.mem_append_right _ (List.mem_singleton_self _))

theorem rotation_mem_core {x : OpId} (hx : x ∈ set.rotation.ops) : x ∈ set.core := List.mem_append_right _ hx

theorem Fits.core_apart {F : Forest} (h : set.Fits F) {x : OpId} (hx : x ∈ set.core) :
    x ∈ set.members ∧ x ∉ set.releases.flatten := by
  have hnodup : (set.core ++ set.releases.flatten).Nodup := h.members_nodup
  rw [List.nodup_append] at hnodup
  exact ⟨List.mem_append_left _ hx, fun hrel => hnodup.2.2 x hx x hrel rfl⟩

def regroupedSlots (set : SlotSet) (target : Nat) (added : List Slot) : List Slot :=
  (set.slots.take target).map (fun slot => { slot with origin := .reused slot.ordinal }) ++ added

theorem map_value_regroupedSlots (set : SlotSet) (target : Nat) (added : List Slot) :
    (set.regroupedSlots target added).map Slot.value = (set.slots.take target ++ added).map Slot.value := by
  rw [regroupedSlots, List.map_append, List.map_append]
  exact congrArg (· ++ _) (map_value_origin _ _)

theorem allocNodes_regroupedSlots (set : SlotSet) (target : Nat) (added : List Slot) :
    allocNodes set.ty (set.regroupedSlots target added) = allocNodes set.ty (set.slots.take target ++ added) := by
  unfold allocNodes
  rw [regroupedSlots, List.map_append, List.map_append]
  exact congrArg (· ++ _) (allocNodes_origin set.ty _ _)

theorem ordinals_regroupedSlots {target : Nat} {added : List Slot}
    (hslots : set.slots.map Slot.ordinal = List.range set.slots.length)
    (hadded : added.map Slot.ordinal = List.range' set.slots.length (target - set.slots.length)) :
    (set.regroupedSlots target added).map Slot.ordinal = List.range target := by
  have hkept :
      ((set.slots.take target).map fun slot => { slot with origin := .reused slot.ordinal }).map Slot.ordinal =
      (List.range set.slots.length).take target := by
    rw [← hslots, ← List.map_take]
    exact List.map_map
  rw [regroupedSlots, List.map_append, hkept, hadded]
  exact range_regrouped set.slots.length target

theorem value_of_mem_regroupedSlots {target : Nat} {added : List Slot} {slot : Slot}
    (hslot : slot ∈ set.regroupedSlots target added) : slot ∈ added ∨ ∃ old ∈ set.slots, old.value = slot.value := by
  rcases List.mem_append.mp hslot with hslot | hslot
  · obtain ⟨old, hold, rfl⟩ := List.mem_map.mp hslot
    exact Or.inr ⟨old, List.mem_of_mem_take hold, rfl⟩
  · exact Or.inl hslot

def leftover (set : SlotSet) (target : Nat) : List OpId :=
  (set.slots.drop target).map Slot.alloc ++ set.rotation.ops.reverse

theorem mem_leftover {target : Nat} {x : OpId} :
    x ∈ set.leftover target ↔ x ∈ (set.slots.drop target).map Slot.alloc ∨ x ∈ set.rotation.ops := by
  rw [leftover, List.mem_append, List.mem_reverse]

theorem Fits.mem_core_of_leftover {F : Forest} (h : set.Fits F) {target : Nat} {x : OpId}
    (hx : x ∈ set.leftover target) : x ∈ set.core ∧ x ≠ set.selector := by
  obtain ⟨-, hslot_ne, -, hsel_rot⟩ := members_disjoint h.members_nodup
  rcases mem_leftover.mp hx with hx | hx
  · obtain ⟨slot, hslot, rfl⟩ := List.mem_map.mp hx
    have hslot := List.mem_of_mem_drop hslot
    exact ⟨alloc_mem_core hslot, hslot_ne slot hslot⟩
  · exact ⟨rotation_mem_core hx, fun heq => hsel_rot (heq ▸ hx)⟩

theorem nodup_leftover (h : set.core.Nodup) (target : Nat) : (set.leftover target).Nodup := by
  apply ((List.reverse_perm set.rotation.ops).append_left _).nodup_iff.mpr
  refine List.Nodup.sublist ?_ h
  refine List.Sublist.append (List.Sublist.trans ?_ (List.sublist_append_left _ _)) (List.Sublist.refl _)
  exact (List.drop_sublist target set.slots).map _

theorem Fits.notMem_leftover {F : Forest} (h : set.Fits F) {target : Nat} {slot : Slot}
    (hslot : slot ∈ set.slots.take target) : slot.alloc ∉ set.selector :: set.leftover target := by
  obtain ⟨hnodup, hslot_ne, hslot_rot, -⟩ := members_disjoint h.members_nodup
  have hold := List.mem_of_mem_take hslot
  rw [List.mem_cons, mem_leftover]
  rintro (heq | hdrop | hrot)
  · exact hslot_ne slot hold heq
  · rw [← List.take_append_drop target set.slots, List.map_append, List.nodup_append] at hnodup
    exact hnodup.2.2 _ (List.mem_map_of_mem hslot) _ hdrop rfl
  · exact hslot_rot slot hold hrot

end SlotSet

theorem Instr.mapOperands_ite_self (i : Instr) (v : ValueId) :
    (i.mapOperands fun _ w => if w = v then v else w) = i := by
  refine (Instr.mapOperands_congr fun j w _ => ?_).trans (Instr.mapOperands_id i)
  split
  · rename_i heq
    exact heq.symm
  · rfl

theorem filter_allocNodes {set : SlotSet} {as bs added : List Slot} {gone : List OpId}
    (hslots : set.slots = as ++ bs) (has : ∀ slot ∈ as, slot.alloc ∉ gone) (hbs : ∀ slot ∈ bs, slot.alloc ∈ gone)
    (hadded : ∀ slot ∈ added, slot.alloc ∉ gone) :
    (allocNodes set.ty (set.slots ++ added)).filter (fun n => n.1 ∉ gone) = allocNodes set.ty (as ++ added) := by
  have hstay : ∀ slots : List Slot, (∀ slot ∈ slots, slot.alloc ∉ gone) →
      (allocNodes set.ty slots).filter (fun n => n.1 ∉ gone) = allocNodes set.ty slots := by
    intro slots hstay
    rw [List.filter_eq_self]
    intro n hn
    obtain ⟨slot, hslot, rfl⟩ := SlotSet.mem_allocNodes.mp hn
    exact decide_eq_true (hstay slot hslot)
  have hnone : (allocNodes set.ty bs).filter (fun n => n.1 ∉ gone) = [] := by
    rw [List.filter_eq_nil_iff]
    intro n hn
    obtain ⟨slot, hslot, rfl⟩ := SlotSet.mem_allocNodes.mp hn
    exact fun hkept => of_decide_eq_true hkept (hbs slot hslot)
  have happend : ∀ as bs : List Slot, allocNodes set.ty (as ++ bs) = allocNodes set.ty as ++ allocNodes set.ty bs :=
    fun as bs => List.map_append
  rw [hslots, happend, happend, List.filter_append, List.filter_append, hnone, hstay as has, hstay added hadded,
    happend, List.append_nil]

theorem SlotSet.Fits.checkIntact_eq {set : SlotSet} {k : Kernel} {F : Forest} (h : set.Fits F) (hS : k.Stores F) :
    set.checkIntact k = .ok () := by
  obtain ⟨l, -, hl, -⟩ := h.rotates
  have hloop : set.checkLoop k = .ok () := by rw [checkLoop, hS.loop?_eq_some_iff.mpr hl]; rfl
  have hmembers : set.checkMembers k = .ok () := by
    have hnone : set.members.find? (fun op => !k.isLive op) = none := by
      rw [List.find?_eq_none]
      intro x hx
      obtain ⟨i, hi, -⟩ := h.exists_node hx
      simp [hS.isLive_iff.mpr (Forest.mem_ids_of_mem_nodes hi)]
    rw [checkMembers, hnone]
  rw [checkIntact, hloop]
  exact hmembers

namespace Kernel

variable {k k₂ k₃ : Kernel} {F : Forest} {set : SlotSet} {l : Loop} {ns : List Node} {p : InsertPoint}
  {gns rot : List Node} {rotation : Rotation} {target : Nat} {last : Slot}

theorem Trades.of_values {k k' : Kernel} {T : Rewriting} {slots slots' : List Slot} {olds : List (List Node)}
    {opss : List (List OpId)} (h : Trades k k' F T slots olds opss)
    (hvalues : slots.map Slot.value = slots'.map Slot.value) : Trades k k' F T slots' olds opss := by
  have hlength : slots.length = slots'.length := by simpa using congrArg List.length hvalues
  refine { h with traded := h.traded.imp fun ns ops hns => ?_ }
  rw [← hlength, ← releaseNodes_congr hvalues]
  exact hns

/-- A set in place, the new index at the top of its loop, and nothing else changed yet. -/
structure Stage (k k₂ : Kernel) (F : Forest) (set : SlotSet) (l : Loop) (ns : List Node) (p : InsertPoint)
    (gns rot : List Node) (rotation : Rotation) (target : Nat) (last : Slot) : Prop where
  stores : Stores k F
  visible : F.Scoped
  fits : set.Fits F
  lies : (set.footprint ns).Lies F set.loop l
  ids : ns.map Prod.fst = set.rotation.ops
  opens : F.Opens set.loop l p
  guarded : ∀ n ∈ gns, n.2 = .barrier
  places : Places k k₂ F p (gns ++ rot)
  rotates : Rotates F l target rot rotation.value
  rot_ids : rotation.ops = rot.map Prod.fst
  rot_factor : rotation.factor = target
  positive : 0 < target
  is_last : set.slots.getLast? = some last
  typed : k.typeOf? set.selected = some (.buffer set.ty)

namespace Stage

variable (h : Stage k k₂ F set l ns p gns rot rotation target last)
include h

theorem last_mem : last ∈ set.slots := List.mem_of_getLast? h.is_last

theorem last_node : (last.alloc, .alloc { result := last.value, ty := set.ty }) ∈ F.nodes :=
  h.fits.allocs _ (SlotSet.mem_allocNodes.mpr ⟨last, h.last_mem, rfl⟩)

theorem allocate (origin : Nat → SlotOrigin) (first count : Nat) :
    ∃ added k₃, Edit.allocateSlots set.ty origin first count (.after last.alloc) k₂ = .ok added k₃ ∧
      Places k₂ k₃ (F.rewrite (.placing p (gns ++ rot))) (.after last.alloc) (allocNodes set.ty added) ∧
      added.map Slot.ordinal = List.range' first count :=
  h.places.stores.allocateSlots (p := .after last.alloc) ⟨_, Forest.mem_placing h.stores.plain h.last_node, rfl⟩
    set.ty origin first count

theorem entered {added : List Slot}
    (hadded : Places k₂ k₃ (F.rewrite (.placing p (gns ++ rot))) (.after last.alloc) (allocNodes set.ty added))
    (n : Node) :
    ((F.rewrite (.placing p (gns ++ rot))).rewrite (.placing (.after last.alloc) (allocNodes set.ty added))).rewrite
        (.placing (p.past ((gns ++ rot).map Prod.fst)) [n]) =
      F.refitted set.ty last.alloc added p (gns ++ rot ++ [n]) := by
  have hplain := h.stores.plain
  have hlast := h.last_node
  have hlast_lt := h.stores.index_lt (Forest.mem_ids_of_mem_nodes hlast)
  have hcomm :
      (F.rewrite (.placing p (gns ++ rot))).rewrite (.placing (.after last.alloc) (allocNodes set.ty added)) =
      (F.rewrite (.placing (.after last.alloc) (allocNodes set.ty added))).rewrite (.placing p (gns ++ rot)) := by
    apply Forest.placing_comm hplain h.opens.ne_before (by simp)
    · intro m hm
      refine ⟨h.places.leaf m hm, fun hhost => ?_⟩
      rcases (Forest.hosts_leaf (h.places.leaf m hm)).mp hhost with heq | heq
      · cases heq
      · rw [InsertPoint.after.inj heq] at hlast_lt
        exact Nat.not_lt.mpr (h.places.fresh m hm).1 hlast_lt
    · intro m hm
      refine ⟨hadded.leaf m hm, fun hhost => ?_⟩
      have hnew : k.ops.size ≤ m.1.index := Nat.le_trans h.places.ops (hadded.fresh m hm).1
      rcases (Forest.hosts_leaf (hadded.leaf m hm)).mp hhost with heq | heq
      · exact h.opens.ne_before _ heq
      · rcases h.opens with ⟨hp, -⟩ | ⟨g, hp, hlead⟩
        · cases heq.symm.trans hp
        · have hlt := h.stores.index_lt (Forest.mem_ids_of_mem_nodes hlead.mem_nodes)
          rw [← InsertPoint.after.inj (heq.symm.trans hp)] at hlt
          exact Nat.not_lt.mpr hnew hlt
    · intro m hm hhost hhost'
      rcases h.opens.host_cases h.stores.toArranges h.lies.loop hm hhost with hid | hlead
      · have hloop : (m.1, .loop l) ∈ F.nodes := hid ▸ h.lies.loop
        have hr : m.2.region? = some l.body := by rw [Forest.node_unique h.stores.nodup hm hloop]; rfl
        cases (Forest.hosts_owner hr).mp hhost'
      · have hr : m.2.region? = none := by rw [Forest.node_unique h.stores.nodup hm hlead.mem_nodes]; rfl
        rcases (Forest.hosts_leaf hr).mp hhost' with heq | heq
        · cases heq
        · rw [InsertPoint.after.inj heq] at hlast
          cases Forest.node_unique h.stores.nodup hlast hlead.mem_nodes
  have hplain' := (Rewriting.flat_placing (p := .after last.alloc) hadded.leaf).plain_rewrite hplain
  rw [hcomm, Forest.refitted, Forest.rewrite_placing_past hplain' h.places.nodup]
  intro m hm hid
  obtain ⟨i, hi⟩ := Forest.exists_mem_nodes hid
  rcases Forest.mem_placing_cases hplain hi with hold | hnew
  · exact Places.notMem h.stores h.places m hm (Forest.mem_ids_of_mem_nodes (n := (m.1, i)) hold)
  · exact Nat.not_lt.mpr (hadded.fresh _ hnew).1 (h.places.fresh m hm).2

theorem entry_leaf {n : Node} (hleaf : n.2.region? = none) : ∀ m ∈ gns ++ rot ++ [n], m.2.region? = none := by
  intro m hm
  rcases List.mem_append.mp hm with hm | hm
  · exact h.places.leaf m hm
  · rw [List.mem_singleton.mp hm]
    exact hleaf

theorem plain_refitted (added : List Slot) {n : Node} (hleaf : n.2.region? = none) :
    (F.refitted set.ty last.alloc added p (gns ++ rot ++ [n])).Plain ∧
      ∀ m ∈ F.nodes, m ∈ (F.refitted set.ty last.alloc added p (gns ++ rot ++ [n])).nodes := by
  have hallocs : ∀ m ∈ allocNodes set.ty added, m.2.region? = none := by
    intro m hm
    obtain ⟨slot, -, rfl⟩ := SlotSet.mem_allocNodes.mp hm
    rfl
  have hplain := (Rewriting.flat_placing (p := .after last.alloc) hallocs).plain_rewrite h.stores.plain
  exact ⟨(Rewriting.flat_placing (h.entry_leaf hleaf)).plain_rewrite hplain,
    fun m hm => Forest.mem_placing hplain (Forest.mem_placing h.stores.plain hm)⟩

theorem core_nodup : set.core.Nodup :=
  (List.nodup_append.mp (show (set.core ++ _).Nodup from h.fits.members_nodup)).1

theorem lt_of_mem {x : OpId} (hx : x ∈ set.members) : x.index < k.ops.size := by
  obtain ⟨i, hi, -⟩ := h.fits.exists_node hx
  exact h.stores.index_lt (Forest.mem_ids_of_mem_nodes hi)

theorem drop_late {k₄ k₅ : Kernel} {H : Forest} {T : Rewriting} {slots : List Slot} {opss : List (List OpId)}
    {late : List OpId} (hH : Stores k₄ H)
    (htrades : Trades k₄ k₅ H T slots (set.releases.map (releaseNodes set.slots)) opss) (hnodup : late.Nodup)
    (hlate : ∀ x ∈ late, x ∈ set.core)
    (hkept : ∀ n ∈ F.nodes, n.1 ∈ late → n ∈ H.nodes) :
    ∃ k₆, Edit.eraseAll late k₅ = .ok () k₆ ∧ Becomes k₅ k₆ (H.rewrite T) (.dropping late) := by
  have hids := map_fst_releases fun ops hops => (h.fits.releases ops hops).1
  obtain ⟨k₆, hrun, hbecomes, -⟩ := htrades.stores.becomes_dropping hnodup (by
    intro x hx
    obtain ⟨hmember, hrel⟩ := h.fits.core_apart (hlate x hx)
    obtain ⟨i, hi, hleaf⟩ := h.fits.exists_node hmember
    refine ⟨i, Forest.mem_rewrite_of_mem_image hH.plain (hkept _ hi hx) ?_, hleaf⟩
    rw [htrades.only.image_of_notMem (by rw [hids]; exact hrel)]
    exact List.mem_singleton_self _)
  exact ⟨k₆, hrun, hbecomes⟩

theorem added_new {added : List Slot}
    (hadded : Places k₂ k₃ (F.rewrite (.placing p (gns ++ rot))) (.after last.alloc) (allocNodes set.ty added)) :
    ∀ slot ∈ added, k.ops.size ≤ slot.alloc.index ∧ k.values.size ≤ slot.value.index := by
  intro slot hslot
  obtain ⟨hop, hvalue⟩ := hadded.slot_new hslot
  exact ⟨Nat.le_trans h.places.ops hop, Nat.le_trans h.places.values hvalue⟩

theorem added_notMem_core {added : List Slot}
    (hadded : Places k₂ k₃ (F.rewrite (.placing p (gns ++ rot))) (.after last.alloc) (allocNodes set.ty added))
    {slot : Slot} (hslot : slot ∈ added) : slot.alloc ∉ set.core := fun hcore =>
  Nat.not_lt.mpr (h.added_new hadded slot hslot).1 (h.lt_of_mem (h.fits.core_apart hcore).1)

def resizing {k₄ k₅ : Kernel} {H : Forest} {added slots : List Slot} {selector : OpId} {selected : ValueId}
    {redirects T : Rewriting} {early late : List OpId} {opss : List (List OpId)}
    (hadded : Places k₂ k₃ (F.rewrite (.placing p (gns ++ rot))) (.after last.alloc) (allocNodes set.ty added))
    (hlength : slots.length = target) (hordinals : slots.map Slot.ordinal = List.range target)
    (hselector : k₃.ops.size ≤ selector.index)
    (hselected : selected = set.selected ∨ k.values.size ≤ selected.index)
    (hslots : ∀ slot ∈ slots, slot ∈ added ∨
      (selected = set.selected ∧ ∃ old ∈ set.slots, old.value = slot.value))
    (hflat : redirects.Flat)
    (himage : ∀ n ∈ F.nodes, n.1 ∉ (set.footprint ns).ids →
      redirects.image n = [(n.1, n.2.mapOperands fun _ w => if w = set.selected then selected else w)])
    (hspares : ∀ x, x ∈ (set.footprint ns).ids ∨ k.ops.size ≤ x.index → redirects.Spares x)
    (hgone : ∀ x ∈ early ++ late, x ∈ set.core)
    (hprelude : ∀ x ∈ set.selector :: set.rotation.ops, x ∈ early ++ late)
    (hkept : (allocNodes set.ty (set.slots ++ added)).filter (fun n => n.1 ∉ early ++ late) =
      allocNodes set.ty slots)
    (htrades : Trades k₄ k₅ H T slots (set.releases.map (releaseNodes set.slots)) opss)
    (hsize : k₃.ops.size ≤ k₄.ops.size) : Resizing k F set l ns where
  point := p
  guard := gns
  rot := rot
  rotation := rotation
  last := last
  added := added
  slots := slots
  selector := selector
  selected := selected
  redirects := redirects
  early := early
  trade := T
  late := late
  releases := opss
  stores := h.stores
  fits := h.fits
  lies := h.lies
  ids := h.ids
  opens := h.opens
  guarded := h.guarded
  rotates := hlength.symm ▸ h.rotates
  rot_ids := h.rot_ids
  rot_factor := h.rot_factor.trans hlength.symm
  entry_new n hn := ⟨(h.places.fresh n hn).1, h.places.leaf n hn⟩
  rot_new n hn := h.places.results n (List.mem_append_right _ hn)
  is_last := h.is_last
  added_new := h.added_new hadded
  inhabited := by
    rintro rfl
    exact Nat.ne_of_lt h.positive hlength
  ordinals := hlength.symm ▸ hordinals
  selector_new := Nat.le_trans (Nat.le_trans h.places.ops hadded.ops) hselector
  selected_from := hselected
  slots_from slot hslot := (hslots slot hslot).imp (fun hnew => (h.added_new hadded slot hnew).2) id
  redirects_flat := hflat
  redirects_image := himage
  redirects_spares := hspares
  gone x hx := h.fits.core_apart (hgone x hx)
  prelude_gone := hprelude
  kept := hkept
  trade_flat := htrades.flat
  trade_local := by
    have hlocal := htrades.only
    rwa [map_fst_releases fun ops hops => (h.fits.releases ops hops).1] at hlocal
  traded := htrades.traded
  origin ops hops x hx := by
    have horigin := htrades.origin x (List.mem_flatten.mpr ⟨ops, hops, hx⟩)
    rw [map_fst_releases fun ops hops => (h.fits.releases ops hops).1] at horigin
    refine horigin.imp id fun hnew => ?_
    exact Nat.le_trans (Nat.le_trans (Nat.le_trans h.places.ops hadded.ops) hsize) hnew.1

theorem release_notMem_core {ops : List OpId} (hops : ops ∈ set.releases) {n : Node}
    (hn : n ∈ releaseNodes set.slots ops) : n.1 ∉ set.core := by
  intro hcore
  apply (h.fits.core_apart hcore).2
  refine List.mem_flatten.mpr ⟨ops, hops, ?_⟩
  rw [← map_fst_releaseNodes (h.fits.releases ops hops).1]
  exact List.mem_map_of_mem hn

theorem anchors_past (added : List Slot) : ((F.rewrite (.placing p (gns ++ rot))).rewrite
    (.placing (.after last.alloc) (allocNodes set.ty added))).Anchors (p.past ((gns ++ rot).map Prod.fst)) :=
  (h.places.anchors h.stores.plain (h.opens.anchors h.lies.loop)).placing h.places.stores.plain

theorem releases_nodup : set.releases.flatten.Nodup :=
  (List.nodup_append.mp (show (set.core ++ _).Nodup from h.fits.members_nodup)).2.1

theorem use_refitted {G : Forest} (hmem : ∀ n ∈ F.nodes, n ∈ G.nodes) {use : Use}
    (huse : use ∈ set.bindings.map Binding.use) : use ∈ G.uses set.selected := by
  obtain ⟨i, hi, hop⟩ := Forest.mem_uses.mp ((h.fits.selected_uses use).mpr huse)
  exact Forest.mem_uses.mpr ⟨i, hmem _ hi, hop⟩

theorem release_mem_members {ops : List OpId} (hops : ops ∈ set.releases) {n : Node}
    (hn : n ∈ releaseNodes set.slots ops) : n.1 ∈ set.members := by
  refine SlotSet.mem_members.mpr (Or.inr (Or.inr (Or.inr ⟨ops, hops, ?_⟩)))
  rw [← map_fst_releaseNodes (h.fits.releases ops hops).1]
  exact List.mem_map_of_mem hn

theorem reselect {added : List Slot}
    (hadded : Places k₂ k₃ (F.rewrite (.placing p (gns ++ rot))) (.after last.alloc) (allocNodes set.ty added))
    (slots : List Slot) :
    ∃ k₄ H, Edit.moveSelector set slots rotation.value (p.past ((gns ++ rot).map Prod.fst)) k₃ = .ok k₃.nextOp k₄ ∧
      Stores k₄ H ∧ Extends k₃ k₄ ∧
      (F.refitted set.ty last.alloc added p
        (gns ++ rot ++ [(k₃.nextOp, .selectSlot set.selected (slots.map Slot.value) rotation.value)])).rewrite
          ((Rewriting.dropping []).andThen (.dropping [set.selector])) = H ∧
      ∀ n ∈ F.nodes, n.1 ≠ set.selector → n ∈ H.nodes := by
  have hselect : set.selectNode ∈ ((F.rewrite (.placing p (gns ++ rot))).rewrite
      (.placing (.after last.alloc) (allocNodes set.ty added))).nodes :=
    Forest.mem_placing h.places.stores.plain (Forest.mem_placing h.stores.plain h.fits.selects)
  have hleaf : (Instr.selectSlot set.selected (slots.map Slot.value) rotation.value).region? = none := rfl
  obtain ⟨k₃', k₄, hrun, herase, hstores, hext, -⟩ := hadded.stores.supplant (h.anchors_past added) hleaf
    hselect rfl rfl rfl
  rw [h.entered hadded] at hstores
  change Stores k₄ (Forest.rewrite (.dropping [set.selector]) _) at hstores
  change Edit.erase set.selector k₃' = .ok () k₄ at herase
  obtain ⟨hplain, hmem⟩ := h.plain_refitted added (n := (k₃.nextOp, _)) hleaf
  refine ⟨k₄, _, ?_, hstores, hext, ?_, ?_⟩
  · unfold Edit.moveSelector
    rw [bind_of_ok hrun, bind_of_ok herase]
    rfl
  · rw [← Forest.rewrite_rewrite, Forest.rewrite_dropping_nil hplain]
  · intro n hn hne
    refine Forest.mem_rewrite_of_mem_image hplain (hmem n hn) ?_
    rw [(Rewriting.local_dropping _).image_of_notMem (by simpa using hne)]
    exact List.mem_singleton_self _

/-- The selector of a reallocated set has a value of its own, and the accesses are redirected to it. -/
theorem select_anew {added : List Slot}
    (hadded : Places k₂ k₃ (F.rewrite (.placing p (gns ++ rot))) (.after last.alloc) (allocNodes set.ty added)) :
    ∃ selector selected k₄ k₅ H,
      Edit.selectAmong set.ty added rotation.value (p.past ((gns ++ rot).map Prod.fst)) k₃ =
        .ok (selector, selected) k₄ ∧
      Transform.Does (Transform.rebindFrom set.selected selected set.bindings) k₄ () k₅ ∧
      Stores k₅ H ∧ Extends k₃ k₅ ∧ k₅.typeOf? selected = some (.buffer set.ty) ∧ k₃.ops.size ≤ selector.index ∧
      k.values.size ≤ selected.index ∧
      (F.refitted set.ty last.alloc added p
        (gns ++ rot ++ [(selector, .selectSlot selected (added.map Slot.value) rotation.value)])).rewrite
          ((Rewriting.rebinding (redirect (set.bindings.map Binding.use) selected)).andThen (.dropping [])) = H ∧
      ∀ n ∈ F.nodes, n.1 ∈ set.members → n ∈ H.nodes := by
  obtain ⟨selector, selected, k₄, hrun, hplaces, htyped⟩ :=
    hadded.stores.selectAmong (h.anchors_past added) set.ty added rotation.value
  have hstores := hplaces.stores
  rw [h.entered hadded] at hstores
  obtain ⟨-, hmem⟩ := h.plain_refitted added (n := (selector, .selectSlot selected _ rotation.value)) rfl
  obtain ⟨k₅, hdoes, hrebound, -⟩ := hstores.rebindFrom (fun use huse => h.use_refitted hmem huse)
    h.fits.bindings_nodup selected
  refine ⟨selector, selected, k₄, k₅, _, hrun, hdoes, hrebound.stores, hplaces.toExtends.trans hrebound.toExtends,
    hrebound.types _ _ htyped, (hplaces.fresh _ (List.mem_singleton_self _)).1, ?_, ?_, ?_⟩
  · exact Nat.le_trans (Nat.le_trans h.places.values hadded.values)
      (hplaces.results _ (List.mem_singleton_self _) _ rfl)
  · rw [← Forest.rewrite_rewrite, Forest.rewrite_dropping_nil hrebound.stores.plain]
  · intro n hn hx
    have hleaf := h.fits.leaf_of_mem h.stores.nodup hn hx
    have hspares := Footprint.spares_redirect (h.fits.mem_bindings_iff h.stores h.visible h.ids) h.stores selected
      (Or.inl ((h.fits.mem_ids_footprint h.ids).mpr hx))
    refine Forest.mem_rewrite_of_mem_image hstores.plain (hmem n hn) ?_
    rw [Rewriting.image_leaf _ hleaf, hspares _ hleaf]
    exact List.mem_singleton_self _

end Stage

def Resizes (t : Transform SlotSet) (k k₂ : Kernel) (F : Forest) (set : SlotSet) (l : Loop) (ns : List Node)
    (p : InsertPoint) (gns : List Node) (rotation : Rotation) (target : Nat) : Prop :=
  ∃ (R : Resizing k F set l ns) (resized : SlotSet) (k₅ k₆ : Kernel), Transform.Does t k₂ resized k₅ ∧
    Edit.eraseAll set.rotation.ops.reverse k₅ = .ok () k₆ ∧ Becomes k k₆ F R.assembly.rewriting ∧
    k₆.typeOf? R.selected = some (.buffer set.ty) ∧ R.point = p ∧ R.guard = gns ∧ R.slots.length = target ∧
    ∀ guard, { resized with
      rotation, guard,
      bindings := set.bindings.map fun binding => { binding with selector := resized.selector } } = R.result guard

theorem Stage.regroup (h : Stage k k₂ F set l ns p gns rot rotation target last) (strategy : Strategy) :
    Resizes (Transform.regroup set strategy target last rotation.value (p.past ((gns ++ rot).map Prod.fst))) k k₂
      F set l ns p gns rotation target := by
  obtain ⟨added, k₃, hrun₃, hadded, hordinals⟩ := h.allocate (fun _ => .fresh) set.factor (target - set.factor)
  unfold SlotSet.factor at hordinals
  have hcount : added.length = target - set.slots.length := by simpa using congrArg List.length hordinals
  have hordinals' := SlotSet.ordinals_regroupedSlots h.fits.ordinals hordinals
  have hlength : (set.regroupedSlots target added).length = target := by simpa using congrArg List.length hordinals'
  obtain ⟨k₄, H, hrun₄, hH, hext₄, hforest, hmem⟩ := h.reselect hadded (set.regroupedSlots target added)
  -- the releases
  have hgrown : added = [] ∨ set.slots.length ≤ target := by
    rcases Nat.le_total set.slots.length target with hle | hle
    · exact Or.inr hle
    · exact Or.inl (List.length_eq_zero_iff.mp (hcount.trans (Nat.sub_eq_zero_of_le hle)))
  obtain ⟨opss, k₅, T, hrun₅, htrades⟩ := hH.regroupReleases (fun ops hops => (h.fits.releases ops hops).1)
    (fun ops hops n hn => hmem n ((h.fits.releases ops hops).2 n hn) fun heq =>
      h.release_notMem_core hops hn (heq ▸ SlotSet.selector_mem_core))
    h.releases_nodup h.fits.inhabited hgrown
  replace htrades := htrades.of_values (set.map_value_regroupedSlots target added).symm
  -- the slots that are left over and the old index
  obtain ⟨k₇, hrun, hdropped⟩ := h.drop_late hH htrades (SlotSet.nodup_leftover h.core_nodup target)
    (fun x hx => (h.fits.mem_core_of_leftover hx).1) (fun n hn hx => hmem n hn (h.fits.mem_core_of_leftover hx).2)
  obtain ⟨k₆, hrun₆, hrun₇⟩ := Edit.eraseAll_append_ok hrun
  have hselector : k₃.ops.size ≤ k₃.nextOp.index := Nat.le_refl _
  have himage : ∀ n ∈ F.nodes, n.1 ∉ (set.footprint ns).ids → (Rewriting.dropping []).image n =
      [(n.1, n.2.mapOperands fun _ w => if w = set.selected then set.selected else w)] := by
    intro n _ _
    rw [(Rewriting.local_dropping []).image_of_notMem List.not_mem_nil, Instr.mapOperands_ite_self]
  have hspares : ∀ x, x ∈ (set.footprint ns).ids ∨ k.ops.size ≤ x.index → (Rewriting.dropping []).Spares x :=
    fun x _ => (Rewriting.local_dropping []).spares x List.not_mem_nil
  have hgone : ∀ x ∈ [set.selector] ++ set.leftover target, x ∈ set.core := by
    intro x hx
    rcases List.mem_cons.mp hx with rfl | hx
    · exact SlotSet.selector_mem_core
    · exact (h.fits.mem_core_of_leftover hx).1
  have hkept :
      (allocNodes set.ty (set.slots ++ added)).filter (fun n => n.1 ∉ [set.selector] ++ set.leftover target) =
      allocNodes set.ty (set.regroupedSlots target added) := by
    rw [SlotSet.allocNodes_regroupedSlots]
    apply filter_allocNodes (List.take_append_drop target set.slots).symm
    · exact fun slot hslot => h.fits.notMem_leftover hslot
    · exact fun slot hslot => List.mem_cons_of_mem _ (SlotSet.mem_leftover.mpr (Or.inl (List.mem_map_of_mem hslot)))
    · exact fun slot hslot hx => h.added_notMem_core hadded hslot (hgone _ hx)
  have hprelude : ∀ x ∈ set.selector :: set.rotation.ops, x ∈ [set.selector] ++ set.leftover target := by
    intro x hx
    rcases List.mem_cons.mp hx with rfl | hx
    · exact List.mem_cons_self
    · exact List.mem_cons_of_mem _ (SlotSet.mem_leftover.mpr (Or.inr hx))
  have hextends : Extends k k₇ := h.places.toExtends.trans (hadded.toExtends.trans
    (hext₄.trans (htrades.toExtends.trans hdropped.toExtends)))
  refine ⟨h.resizing hadded hlength hordinals' hselector (Or.inl rfl)
    (fun slot hslot => (SlotSet.value_of_mem_regroupedSlots hslot).imp id fun hold => ⟨rfl, hold⟩)
    (Rewriting.flat_dropping []) himage hspares hgone hprelude hkept htrades hext₄.ops,
    { set with slots := set.regroupedSlots target added, selector := k₃.nextOp, releases := opss }, k₆, k₇, ?_,
    hrun₇, ?_, ?_, rfl, rfl, hlength, fun guard => rfl⟩
  · exact (Transform.does_edit hrun₃).bind ((Transform.does_edit hrun₄).bind ((Transform.does_edit hrun₅).bind
      ((Transform.does_discard hrun₆).bind ((Transform.does_record _ _ _).bind (Transform.does_pure _)))))
  · exact Resizing.becomes _ hextends hforest hdropped.stores
  · exact hextends.types _ _ h.typed

theorem Stage.reallocate (h : Stage k k₂ F set l ns p gns rot rotation target last) :
    Resizes (Transform.reallocate set target last rotation.value (p.past ((gns ++ rot).map Prod.fst))) k k₂ F set l
      ns p gns rotation target := by
  obtain ⟨added, k₃, hrun₃, hadded, hordinals⟩ :=
    h.allocate (fun ordinal => .inherited (ordinal % set.factor)) 0 target
  have hlength : added.length = target := by simpa using congrArg List.length hordinals
  obtain ⟨selector, selected, k₄, k₅, H, hrun₄, hdoes₅, hH, hext₅, htyped, hselector, hselected, hforest, hkept⟩ :=
    h.select_anew hadded
  have huses := h.fits.mem_bindings_iff h.stores h.visible h.ids
  -- the releases
  obtain ⟨opss, k₆, T, hrun₆, htrades⟩ := hH.replaceReleases
    (fun ops hops => (h.fits.releases ops hops).1)
    (fun ops hops n hn => hkept n ((h.fits.releases ops hops).2 n hn) (h.release_mem_members hops hn))
    h.releases_nodup h.fits.inhabited added
  -- the old selector, slots and index
  let late := [set.selector] ++ (set.slots.map Slot.alloc ++ set.rotation.ops.reverse)
  have hperm : late.Perm set.core := by
    rw [List.perm_iff_count]
    intro x
    simp only [late, SlotSet.core, List.count_append, List.count_reverse]
    omega
  obtain ⟨k₉, hrun, hdropped⟩ := h.drop_late hH htrades (hperm.nodup_iff.mpr h.core_nodup)
    (fun x hx => hperm.mem_iff.mp hx)
    (fun n hn hx => hkept n hn (h.fits.core_apart (hperm.mem_iff.mp hx)).1)
  obtain ⟨k₇, hrun₇, hrun⟩ := Edit.eraseAll_append_ok hrun
  obtain ⟨k₈, hrun₈, hrun₉⟩ := Edit.eraseAll_append_ok hrun
  rw [Edit.eraseAll_singleton] at hrun₇
  have hgone : ∀ x ∈ [] ++ late, x ∈ set.core := fun x hx => hperm.mem_iff.mp hx
  have hprelude : ∀ x ∈ set.selector :: set.rotation.ops, x ∈ [] ++ late := by
    intro x hx
    apply hperm.mem_iff.mpr
    rcases List.mem_cons.mp hx with rfl | hx
    · exact SlotSet.selector_mem_core
    · exact SlotSet.rotation_mem_core hx
  have hfilter : (allocNodes set.ty (set.slots ++ added)).filter (fun n => n.1 ∉ [] ++ late) =
      allocNodes set.ty added := by
    have hsplit : set.slots = [] ++ set.slots := rfl
    apply filter_allocNodes hsplit
    · exact fun slot hslot => absurd hslot List.not_mem_nil
    · exact fun slot hslot => hperm.mem_iff.mpr (SlotSet.alloc_mem_core hslot)
    · exact fun slot hslot hx => h.added_notMem_core hadded hslot (hgone _ hx)
  have hextends : Extends k₅ k₉ := htrades.toExtends.trans hdropped.toExtends
  refine ⟨h.resizing hadded hlength (hordinals.trans List.range_eq_range'.symm) hselector (Or.inr hselected)
    (fun slot hslot => Or.inl hslot) (Rewriting.flat_rebinding _)
    (fun n hn hid => Footprint.image_redirect huses h.stores.nodup selected hn hid)
    (fun x hx => Footprint.spares_redirect huses h.stores selected hx) hgone hprelude hfilter htrades hext₅.ops,
    { set with slots := added, selector, selected, releases := opss }, k₈, k₉, ?_, hrun₉, ?_, ?_, rfl, rfl, hlength,
    fun guard => rfl⟩
  · exact (Transform.does_edit hrun₃).bind ((Transform.does_edit hrun₄).bind
      (hdoes₅.bind ((Transform.does_edit hrun₆).bind
      ((Transform.does_edit hrun₇).bind ((Transform.does_discard hrun₈).bind ((Transform.does_record _ _ _).bind
        (Transform.does_pure _)))))))
  · exact Resizing.becomes _ (h.places.toExtends.trans (hadded.toExtends.trans (hext₅.trans hextends))) hforest
      hdropped.stores
  · exact hextends.types _ _ htyped

theorem Stage.resizes (h : Stage k k₂ F set l ns p gns rot rotation target last) :
    Resizes
      (match Strategy.choose set.factor target with
        | .reallocate =>
          Transform.reallocate set target last rotation.value (p.past ((gns ++ rot).map Prod.fst))
        | strategy =>
          Transform.regroup set strategy target last rotation.value (p.past ((gns ++ rot).map Prod.fst)))
      k k₂ F set l ns p gns rotation target := by
  cases Strategy.choose set.factor target with
  | reallocate => exact h.reallocate
  | shrink => exact h.regroup .shrink
  | grow => exact h.regroup .grow

/-- A set in place is resized, or nothing is changed. A barrier that is no longer needed may go first; then other
slots take the place of the old ones. -/
theorem Stores.resize (h : Stores k F) (hsc : F.Scoped) (hfits : set.Fits F)
    (htyped : k.typeOf? set.selected = some (.buffer set.ty))
    (hguard : ∀ g, set.guard = some g → ∀ i, (g.op, i) ∈ F.nodes → i = .barrier) (policy : Policy) (factor : Int64) :
    (Transform.Refuses (Transform.resize policy set factor) k ∧
        ((∃ err, slotsAsked factor = .error err) ∨ ∃ g, set.guard = some g ∧ g.op ∉ F.ids)) ∨
      ∃ (target : Nat) (set' : SlotSet) (k₀ k' : Kernel) (F₀ : Forest) (l : Loop) (ns : List Node) (E : Exchange F₀)
        (guard rot : List Node),
        Transform.Does (Transform.resize policy set factor) k set' k' ∧ slotsAsked factor = .ok target ∧
          Clears policy set target k k₀ F F₀ ∧ ns.map Prod.fst = set.rotation.ops ∧
          Installs k₀ k' E (set.footprint ns) set' l guard rot ∧ set'.ty = set.ty ∧ set'.loop = set.loop ∧
          set'.slots.length = target ∧ Renews policy set target k F₀ set'.guard guard ∧
          ∀ g, set'.guard = some g → set.guard = some g ∨ E.result.Leads set'.loop g.op := by
  cases hasked : slotsAsked factor with
  | error err => exact Or.inl ⟨(Transform.refuses_query hasked).bind, Or.inl ⟨err, rfl⟩⟩
  | ok target =>
    have hlast : ∃ last, set.slots.getLast? = some last := by
      exact ⟨_, List.getLast?_eq_some_getLast hfits.inhabited⟩
    obtain ⟨last, hlast⟩ := hlast
    have hslot : set.lastSlot = .ok last := by rw [SlotSet.lastSlot, hlast]
    have hfirst := Transform.does_query (k := k) (q := fun _ => slotsAsked factor) hasked
    have hsecond := Transform.does_query (k := k) (q := fun _ => set.lastSlot) hslot
    have hthird := Transform.does_query (k := k) (hfits.checkIntact_eq h)
    obtain ⟨l, -, hl, -, -, -⟩ := hfits.rotates
    rcases h.renewGuard hl hguard policy target with ⟨hrefuses, hdead⟩ | ⟨guard, k₀, F₀, k₁, p, gns, hdoes, hclears,
      hprepares, hrenews, hheaded⟩
    · exact Or.inl ⟨hfirst.bind_refuses (hsecond.bind_refuses (hthird.bind_refuses hrefuses.bind)), Or.inr hdead⟩
    · -- from here on nothing is refused
      have hS := hclears.stores h
      have hl₀ := hclears.loop_mem h hl
      have hfits₀ := hclears.fits h hfits
      have hsc₀ := hclears.scoped_of_scoped h hsc
      obtain ⟨l', ns, hl', hnodes, hns, -⟩ := hfits₀.rotates
      obtain ⟨rotation, rot, k₂, hdoes₂, hplaces, hrotates, hops, hfactor⟩ :=
        hprepares.deriveRotation hS hl₀ (slotsAsked_le hasked)
      have hstage : Stage k₀ k₂ F₀ set l ns p gns rot rotation target last := {
        stores := hS, visible := hsc₀, fits := hfits₀, lies := hfits₀.lies hS hsc₀ hl₀ hnodes hns, ids := hns,
        opens := hprepares.opens, guarded := hprepares.barriers, places := hplaces, rotates := hrotates,
        rot_ids := hops, rot_factor := hfactor, positive := slotsAsked_pos hasked, is_last := hlast,
        typed := hclears.extends_of.types _ _ htyped }
      obtain ⟨R, resized, k₅, k₆, hdoes₅, hrun₆, hbecomes, htyped', hpoint, hgns, hlength, hresult⟩ := hstage.resizes
      have hinstalls := R.installs hbecomes hsc₀ guard htyped'
      refine Or.inr ⟨target, R.result guard, k₀, k₆, F₀, l, ns, _, _, _, ?_, rfl, hclears, hns, hinstalls, rfl, rfl,
        hlength, hgns.symm ▸ hrenews, ?_⟩
      · rw [List.map_append, InsertPoint.past_append, ← hops] at hdoes₅
        have hend : Transform.Does (Transform.edit (Edit.eraseAll set.rotation.ops.reverse) >>= fun _ =>
            pure { resized with
              rotation, guard,
              bindings := set.bindings.map fun binding => { binding with selector := resized.selector } })
            k₅ (R.result guard) k₆ := by
          rw [hresult guard]
          exact (Transform.does_edit hrun₆).bind (Transform.does_pure _)
        refine hfirst.bind (hsecond.bind (hthird.bind (hdoes.bind ((Transform.does_query
          (hprepares.bodyTop_eq hS hl₀)).bind (hdoes₂.bind ?_)))))
        revert hdoes₅
        cases Strategy.choose set.factor target <;> exact fun hdoes₅ => hdoes₅.bind hend
      · intro g hg
        refine (hheaded g hg).imp id fun hg => hinstalls.leads_guard hS ?_
        change F₀.Headed set.loop l R.point R.guard g.op
        rw [hpoint, hgns]
        exact hg

end Kernel
end SlotRotation
