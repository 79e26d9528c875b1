import SlotRotation.Proofs.Refitting

/-! The sets of a kernel side by side. Each set is in place and has ops of its own, and so it stays whatever is
called: a call takes out ops of the one set that it is about, and what it puts in belongs to no other. -/

namespace SlotRotation

namespace SlotSet

variable {set set' other : SlotSet} {N n c : Nat} {f : Use → ValueId → ValueId} {k k' : Kernel} {x : OpId}

theorem mem_own_of_members (h : x ∈ set.members) : x ∈ set.own := List.mem_append_left _ h

theorem mem_own_of_inserted (h : x ∈ set.inserted) : x ∈ set.own := List.mem_append_right _ h

theorem inserted_nodup (set : SlotSet) : set.inserted.Nodup := by
  unfold inserted
  cases set.guard.filter Guard.inserted <;> simp

theorem Reguards.notMem_of_own {guard : Option Guard} {gone new : List OpId} (h : set.Reguards guard gone new)
    (hown : x ∉ set.own) : x ∉ gone ++ set.expendable c := by
  intro hmem
  rcases List.mem_append.mp hmem with hmem | hmem
  · exact hown (mem_own_of_inserted (h.old x hmem))
  · exact hown (mem_own_of_members (mem_members_of_expendable hmem))

namespace Refitted

variable (h : set.Refitted set' N n c f k k')
include h

theorem kept_eq : set'.kept c = set.kept c := by
  have hallocs := congrArg (List.map fun storage => storage.2.1) h.slots
  rw [List.map_map, List.map_map] at hallocs
  unfold SlotSet.kept
  rw [h.releases]
  exact congrArg (· ++ _) hallocs

theorem lodged_of_notMem (hx : k.Lodged N x) (hown : x ∉ set.own) : k'.Lodged N x := by
  obtain ⟨gone, new, hswaps, hreguards⟩ := h.swaps
  exact hswaps.lodged hx (hreguards.notMem_of_own hown)

section

variable (hset : set.Seated N k)
include hset

theorem own_cases {gone new : List OpId} (hreguards : set.Reguards set'.guard gone new) (hx : x ∈ set'.own) :
    x ∈ new ++ set'.expendable c ∨ x ∈ set.own ∧ x ∉ gone ++ set.expendable c := by
  have hnodup := hset.members_nodup
  rw [(set.members_perm c).nodup_iff] at hnodup
  rcases List.mem_append.mp hx with hx | hx
  · rw [(set'.members_perm c).mem_iff, h.kept_eq] at hx
    rcases List.mem_append.mp hx with hx | hx
    · have hmem := mem_members_of_kept hx
      refine Or.inr ⟨mem_own_of_members hmem, fun hgone => ?_⟩
      rcases List.mem_append.mp hgone with hgone | hgone
      · exact hset.apart (hreguards.old x hgone) hmem
      · exact (List.nodup_append.mp hnodup).2.2 x hx x hgone rfl
    · exact Or.inl (List.mem_append_right _ hx)
  · rcases hreguards.kept x hx with hx | ⟨hx, hgone⟩
    · exact Or.inl (List.mem_append_left _ hx)
    · refine Or.inr ⟨mem_own_of_inserted hx, fun hmem => ?_⟩
      rcases List.mem_append.mp hmem with hmem | hmem
      · exact hgone hmem
      · exact hset.apart hx (mem_members_of_expendable hmem)

theorem mem_own_or_le (hx : x ∈ set'.own) : x ∈ set.own ∨ k.ops.size ≤ x.index := by
  obtain ⟨gone, new, hswaps, hreguards⟩ := h.swaps
  rcases h.own_cases hset hreguards hx with hx | hx
  · exact Or.inr (hswaps.fresh x hx).1
  · exact Or.inl hx.1

theorem lodged_own (hguard : ∀ y ∈ set.inserted, k.Lodged N y) (hx : x ∈ set'.own) : k'.Lodged N x := by
  obtain ⟨gone, new, hswaps, hreguards⟩ := h.swaps
  rcases h.own_cases hset hreguards hx with hx | ⟨hx, hgone⟩
  · exact (hswaps.fresh x hx).2
  · rcases List.mem_append.mp hx with hx | hx
    · exact hswaps.lodged (hset.lodged x hx) hgone
    · exact hswaps.lodged (hguard x hx) hgone

theorem own_nodup (hguard : ∀ y ∈ set.inserted, k.Lodged N y) : set'.own.Nodup := by
  obtain ⟨gone, new, hswaps, hreguards⟩ := h.swaps
  have hnew := List.nodup_append.mp hswaps.nodup
  have hkept : ∀ y ∈ set.kept c, y.index < k.ops.size :=
    fun y hy => (hset.lodged y (mem_members_of_kept hy)).index_lt
  have hfresh : ∀ y ∈ set'.expendable c, k.ops.size ≤ y.index := fun y hy =>
    (hswaps.fresh y (List.mem_append_right _ hy)).1
  have hmembers : set'.members.Nodup := by
    have hold := hset.members_nodup
    rw [(set.members_perm c).nodup_iff] at hold
    rw [(set'.members_perm c).nodup_iff, h.kept_eq]
    refine List.nodup_append.mpr ⟨(List.nodup_append.mp hold).1, hnew.2.1, fun y hy z hz heq => ?_⟩
    exact absurd (hfresh z hz) (Nat.not_le.mpr (heq ▸ hkept y hy))
  refine List.nodup_append.mpr ⟨hmembers, set'.inserted_nodup, fun y hy z hz heq => ?_⟩
  subst heq
  rw [(set'.members_perm c).mem_iff, h.kept_eq] at hy
  rcases hreguards.kept y hz with hz | ⟨hz, -⟩
  · rcases List.mem_append.mp hy with hy | hy
    · exact hswaps.notMem_new (hkept y hy) (List.mem_append_left _ hz)
    · exact hnew.2.2 y hz y hy rfl
  · rcases List.mem_append.mp hy with hy | hy
    · exact hset.apart hz (mem_members_of_kept hy)
    · exact absurd (hguard y hz).index_lt (Nat.not_lt.mpr (hfresh y hy))

theorem seated (hn : 0 < n) (hguard : ∀ y ∈ set.inserted, k.Lodged N y)
    (hselects : ∀ i, k'.instr? set'.selector = some i → i.result? = some set'.selected) : set'.Seated N k' where
  inhabited := List.ne_nil_of_length_pos (by rw [h.count]; exact hn)
  lengths ops hops := by rw [h.lengths ops hops, h.count]
  nodup := h.own_nodup hset hguard
  lodged x hx := h.lodged_own hset hguard (mem_own_of_members hx)
  loop := by
    obtain ⟨gone, new, hswaps, -⟩ := h.swaps
    rw [h.loop]
    exact hswaps.loop? hset.loop
  selects := hselects

end

end Refitted
end SlotSet

namespace Site.Effect

variable {site : Site} {set other : SlotSet} {N : Nat} {k k' : Kernel} {x : OpId} (h : site.Effect set k k')
include h

theorem op?_eq {op : Op} (hop : k.op? x = some op) (htakes : ¬site.Takes k x) :
    k'.op? x = (k.op? x).map (Op.reading (fun _ v => if v = site.buffer then set.selected else v) x) := by
  rw [hop]
  exact h.kept x op hop htakes

theorem loop? {a : Alloc} (ha : k.instr? site.alloc = some (.alloc a)) (hl : (k.loop? x).isSome) :
    (k'.loop? x).isSome := by
  obtain ⟨op, hop⟩ := Kernel.exists_op?_of_loop? hl
  refine Kernel.isSome_loop?_of_reading hl (h.op?_eq hop ?_)
  rintro (rfl | hrelease)
  · simp [Kernel.loop?, ha, Instr.loop?] at hl
  · simp [Kernel.loop?, hrelease, Instr.loop?] at hl

section

variable (hN : site.buffer.index < N)
include hN

omit h in
theorem le_rename {v : ValueId} (hv : N ≤ v.index) : N ≤ (if v = site.buffer then set.selected else v).index := by
  split
  · rename_i heq
    exact absurd (heq ▸ hv) (Nat.not_le.mpr hN)
  · exact hv

theorem op?_of_lodged (hx : k.Lodged N x) (hne : x ≠ site.alloc) :
    k'.op? x = (k.op? x).map (Op.reading (fun _ v => if v = site.buffer then set.selected else v) x) := by
  obtain ⟨op, hop⟩ := hx.op?
  apply h.op?_eq hop
  rintro (heq | hrelease)
  · exact hne heq
  · obtain ⟨i, hi, -, hvalue⟩ := hx
    rw [hrelease, Option.some.injEq] at hi
    exact absurd (hvalue _ hi.symm) (Nat.not_le.mpr hN)

theorem lodged (hx : k.Lodged N x) (hne : x ≠ site.alloc) : k'.Lodged N x :=
  hx.of_reading (h.op?_of_lodged hN hx hne) fun _ _ => le_rename hN

theorem seated_of_seated {a : Alloc} (ha : k.instr? site.alloc = some (.alloc a)) (hother : other.Seated N k)
    (hne : ∀ x ∈ other.members, x ≠ site.alloc) : other.Seated N k' :=
  hother.of_reading (fun x hx => h.op?_of_lodged hN (hother.lodged x hx) (hne x hx)) (fun _ _ => le_rename hN)
    (h.loop? ha hother.loop)

end

theorem lodged_own (hslots : ∀ slot ∈ set.slots, N ≤ slot.value.index) (hx : x ∈ set.own) : k'.Lodged N x := by
  rcases List.mem_append.mp hx with hx | hx
  · rcases List.mem_append.mp hx with hx | hx
    · rcases List.mem_append.mp hx with hx | hx
      · rcases List.mem_append.mp hx with hx | hx
        · obtain ⟨slot, hslot, rfl⟩ := List.mem_map.mp hx
          obtain ⟨i, hi⟩ := List.mem_iff_getElem?.mp hslot
          exact ⟨_, (h.slots i slot hi).2, rfl, nofun⟩
        · rw [List.mem_singleton.mp hx]
          exact ⟨_, h.selector, rfl, nofun⟩
      · rcases h.rotation x hx with ⟨v, c, hinstr⟩ | ⟨v, op, lhs, rhs, hinstr⟩
        · exact ⟨_, hinstr, rfl, nofun⟩
        · exact ⟨_, hinstr, rfl, nofun⟩
    · obtain ⟨ops, hops, hx⟩ := List.mem_flatten.mp hx
      obtain ⟨hlength, hreleases⟩ := h.releases ops hops
      obtain ⟨i, hi⟩ := List.mem_iff_getElem?.mp hx
      have hlt : i < set.slots.length := hlength ▸ (List.getElem?_eq_some_iff.mp hi).1
      have hslot : set.slots[i]? = some set.slots[i] := List.getElem?_eq_getElem hlt
      refine ⟨_, hreleases i _ x hslot hi, rfl, fun v hv => ?_⟩
      cases hv
      exact hslots _ (List.getElem_mem hlt)
  · exact ⟨_, h.guard x hx, rfl, nofun⟩

theorem seated {a : Alloc} (ha : k.instr? site.alloc = some (.alloc a)) (hpos : 0 < set.slots.length)
    (hslots : ∀ slot ∈ set.slots, N ≤ slot.value.index) : set.Seated N k' where
  inhabited := List.ne_nil_of_length_pos hpos
  lengths ops hops := (h.releases ops hops).1
  nodup := h.nodup
  lodged x hx := h.lodged_own hslots (SlotSet.mem_own_of_members hx)
  loop := by
    obtain ⟨l, hl, -⟩ := h.lists
    exact h.loop? ha (by rw [hl]; rfl)
  selects i hi := by
    rw [h.selector, Option.some.injEq] at hi
    rw [← hi]
    rfl

end Site.Effect

/-- The sets are in place, with their guards, and no op belongs to two of them. -/
structure Kernel.Houses (N : Nat) (k : Kernel) (sets : List SlotSet) : Prop where
  seated : ∀ set ∈ sets, set.Seated N k
  guarded : ∀ set ∈ sets, ∀ x ∈ set.inserted, k.Lodged N x
  apart : sets.Pairwise fun set other => ∀ x ∈ set.own, x ∉ other.own

namespace Kernel.Houses

variable {N : Nat} {k k' : Kernel} {sets before after : List SlotSet} {set set' : SlotSet} {x : OpId}

theorem lodged (h : k.Houses N sets) (hset : set ∈ sets) (hx : x ∈ set.own) : k.Lodged N x := by
  rcases List.mem_append.mp hx with hx | hx
  · exact (h.seated set hset).lodged x hx
  · exact h.guarded set hset x hx

theorem concat (h : k.Houses N sets) (hsets : ∀ other ∈ sets, other.Seated N k')
    (hguards : ∀ other ∈ sets, ∀ x ∈ other.inserted, k'.Lodged N x) (hset : set.Seated N k')
    (hguard : ∀ x ∈ set.inserted, k'.Lodged N x) (hnew : ∀ x ∈ set.own, k.ops.size ≤ x.index) :
    k'.Houses N (sets ++ [set]) where
  seated other hother := by
    rcases List.mem_append.mp hother with hother | hother
    · exact hsets other hother
    · exact List.mem_singleton.mp hother ▸ hset
  guarded other hother := by
    rcases List.mem_append.mp hother with hother | hother
    · exact hguards other hother
    · exact List.mem_singleton.mp hother ▸ hguard
  apart := by
    refine List.pairwise_append.mpr ⟨h.apart, List.pairwise_singleton ..,
      fun other hother made hmade x hx hmem => ?_⟩
    rw [List.mem_singleton.mp hmade] at hmem
    exact absurd (h.lodged hother hx).index_lt (Nat.not_lt.mpr (hnew x hmem))

theorem notMem_own (h : k.Houses N (before ++ set :: after)) {other : SlotSet} (hother : other ∈ before ++ after)
    (hx : x ∈ other.own) : x ∉ set.own := by
  obtain ⟨-, hafter, hbefore⟩ := List.pairwise_append.mp h.apart
  rcases List.mem_append.mp hother with hother | hother
  · exact hbefore other hother set List.mem_cons_self x hx
  · exact fun hmem => (List.pairwise_cons.mp hafter).1 other hother x hmem hx

theorem exchange (h : k.Houses N (before ++ set :: after)) (hsets : ∀ other ∈ before ++ after, other.Seated N k')
    (hguards : ∀ other ∈ before ++ after, ∀ x ∈ other.inserted, k'.Lodged N x) (hset : set'.Seated N k')
    (hguard : ∀ x ∈ set'.inserted, k'.Lodged N x) (hown : ∀ x ∈ set'.own, x ∈ set.own ∨ k.ops.size ≤ x.index) :
    k'.Houses N (before ++ set' :: after) := by
  have hsplit : ∀ {P : SlotSet → Prop}, (∀ other ∈ before ++ after, P other) → P set' →
      ∀ other ∈ before ++ set' :: after, P other := by
    intro P hothers hset other hother
    rcases List.mem_append.mp hother with hother | hother
    · exact hothers other (List.mem_append_left _ hother)
    · rcases List.mem_cons.mp hother with rfl | hother
      · exact hset
      · exact hothers other (List.mem_append_right _ hother)
  have hapart : ∀ other ∈ before ++ after, ∀ x ∈ other.own, x ∉ set'.own := by
    intro other hother x hx hmem
    rcases hown x hmem with hmem | hle
    · exact h.notMem_own hother hx hmem
    · have hother' : other ∈ before ++ set :: after :=
        List.mem_append.mpr ((List.mem_append.mp hother).imp_right (List.mem_cons_of_mem _))
      exact absurd (h.lodged hother' hx).index_lt (Nat.not_lt.mpr hle)
  obtain ⟨hbefore, hafter, hacross⟩ := List.pairwise_append.mp h.apart
  refine ⟨hsplit hsets hset, hsplit hguards hguard, List.pairwise_append.mpr ⟨hbefore, ?_, ?_⟩⟩
  · refine List.pairwise_cons.mpr ⟨fun other hother x hx hmem => ?_, (List.pairwise_cons.mp hafter).2⟩
    exact hapart other (List.mem_append_right _ hother) x hmem hx
  · intro other hother later hlater
    rcases List.mem_cons.mp hlater with rfl | hlater
    · exact hapart other (List.mem_append_left _ hother)
    · exact hacross other hother later (List.mem_cons_of_mem _ hlater)

section

variable {M : Nat} {F : Forest} {s s' : Transform.State} {policy : Policy} {factor : Int64}

theorem expand {site : Site} (h : s.kernel.Houses N sets) (hF : Grown M N s.kernel F)
    (htracked : ∀ other ∈ sets, other.Tracked M N s.kernel) (hset : set.Tracked M N s'.kernel)
    (hM : site.alloc.index < M) (hN : site.buffer.index < N)
    (hrun : Transform.expand policy site factor s = .ok set s') : s'.kernel.Houses N (sets ++ [set]) := by
  obtain ⟨hslots, heffect⟩ := hF.effect_of_expand hM hN hrun
  obtain ⟨-, a, -, -, -, -, ha, -, -⟩ := hF.installs_of_expand hN hrun
  have ha := hF.instr?_of_mem ha
  have hvalues : ∀ slot ∈ set.slots, N ≤ slot.value.index := fun slot hslot => (hset.slots slot hslot).1
  refine h.concat (fun other hother => ?_) (fun other hother x hx => ?_)
    (heffect.seated ha (slotsAsked_pos hslots) hvalues)
    (fun x hx => heffect.lodged_own hvalues (SlotSet.mem_own_of_inserted hx)) heffect.new
  · refine heffect.seated_of_seated hN ha (h.seated other hother) fun x hx heq => ?_
    have hle := ((htracked other hother).members x hx).1
    exact absurd hM (Nat.not_lt.mpr (heq ▸ hle))
  · refine heffect.lodged hN (h.guarded other hother x hx) fun heq => ?_
    -- a barrier is no allocation
    obtain ⟨g, hg, rfl⟩ := List.mem_map.mp hx
    obtain ⟨hg, -⟩ := Option.filter_eq_some_iff.mp (Option.mem_toList.mp hg)
    cases ((htracked other hother).guard g hg).2 _ (heq ▸ ha)

theorem resize (h : s.kernel.Houses N (before ++ set :: after)) (hF : Grown M N s.kernel F)
    (hset : set'.Tracked M N s'.kernel) (hrun : Transform.resize policy set factor s = .ok set' s') :
    s'.kernel.Houses N (before ++ set' :: after) := by
  have hmem : set ∈ before ++ set :: after := List.mem_append_right _ List.mem_cons_self
  have hothers : ∀ other ∈ before ++ after, other ∈ before ++ set :: after := fun other hother =>
    List.mem_append.mpr ((List.mem_append.mp hother).imp_right (List.mem_cons_of_mem _))
  have hseated := h.seated set hmem
  have hguard := h.guarded set hmem
  obtain ⟨n, -, -, -, -, -, -, hn, -⟩ := Transform.resize_stages hrun
  obtain ⟨c, f, hrefitted⟩ : ∃ c f, set.Refitted set' N n c f s.kernel s'.kernel := by
    obtain ⟨-, -, ⟨-, -, hrefitted⟩ | ⟨-, -, hrefitted⟩⟩ :=
      hF.toStores.refitted_of_resize hseated hF.values_le hn (fun _ _ => hguard) rfl hrun
    · exact ⟨_, _, hrefitted⟩
    · exact ⟨_, _, hrefitted⟩
  refine h.exchange (fun other hother => ?_) (fun other hother x hx => ?_)
    (hrefitted.seated hseated (slotsAsked_pos hn) hguard hset.selects)
    (fun x hx => hrefitted.lodged_own hseated hguard (SlotSet.mem_own_of_inserted hx))
    fun x hx => hrefitted.mem_own_or_le hseated hx
  · obtain ⟨_, _, hswaps, hreguards⟩ := hrefitted.swaps
    exact (h.seated other (hothers other hother)).swaps hswaps fun x hx =>
      hreguards.notMem_of_own (h.notMem_own hother (SlotSet.mem_own_of_members hx))
  · exact hrefitted.lodged_of_notMem (h.guarded other (hothers other hother) x hx)
      (h.notMem_own hother (SlotSet.mem_own_of_inserted hx))

end

end Kernel.Houses

namespace Transform

variable {M N : Nat} {sites : List Site} {x y : State × List SlotSet}

theorem Call.houses (hcall : Call sites x y) (hsites : ∀ site ∈ sites, site.Within M N)
    (hx : x.1.kernel.Awaits M N [] x.2) (hy : y.1.kernel.Awaits M N [] y.2) (h : x.1.kernel.Houses N x.2) :
    y.1.kernel.Houses N y.2 := by
  obtain ⟨F, hF⟩ := hx.grown
  cases hcall with
  | @expand s s' sets site set policy factor hsite hrun =>
    obtain ⟨hM, hN⟩ := hsites site hsite
    exact h.expand hF hx.tracked (hy.tracked set (List.mem_append_right _ (List.mem_singleton_self set))) hM hN hrun
  | @resize s s' before after set set' policy factor hrun =>
    exact h.resize hF (hy.tracked set' (List.mem_append_right _ List.mem_cons_self)) hrun

/-- After any calls on the sites of a survey all sets are in place. -/
theorem houses_of_calls {name : String} {location : Location} {stmts : List Stmt} {start s : State}
    {sets : List SlotSet} (hstart : start.kernel = Kernel.build name location stmts)
    (hv : start.kernel.verify = .ok ())
    (hcalls : Relation.ReflTransGen (Call (survey start).1.sites) ((survey start).2, []) (s, sets)) :
    ∃ M N, s.kernel.Awaits M N [] sets ∧ s.kernel.Houses N sets := by
  obtain ⟨F, hF⟩ := Kernel.build_stores name location stmts
  rw [← hstart] at hF
  obtain ⟨hwithin, hawaits⟩ := survey_awaits hF hv
  refine ⟨(survey start).2.kernel.ops.size, (survey start).2.kernel.values.size, ?_⟩
  suffices h : ∀ y, Relation.ReflTransGen (Call (survey start).1.sites) ((survey start).2, []) y →
      Kernel.Awaits _ _ [] y.1.kernel y.2 ∧ Kernel.Houses _ y.1.kernel y.2 from h _ hcalls
  intro y hy
  induction hy with
  | refl => exact ⟨{ hawaits with waiting := by simp }, by simp, by simp, List.Pairwise.nil⟩
  | tail _ hcall ih =>
    have hnext := hcall.awaits hwithin (by simp) (by simp) ih.1
    exact ⟨hnext, hcall.houses hwithin ih.1 hnext ih.2⟩

theorem exists_of_check {α : Type} {t : Transform α} {s : State} {p : α → State → Bool}
    (h : (match t s with | .ok a s' => p a s' | .error _ _ => false) = true) :
    ∃ a s', t s = .ok a s' ∧ p a s' = true := by
  cases hrun : t s with
  | ok a s' =>
    rw [hrun] at h
    exact ⟨a, s', rfl, h⟩
  | error err s' =>
    rw [hrun] at h
    cases h

/-- Two sets of one loop: the first tile of a pair has two slots and can be given three, next to the second's
slot. -/
theorem resized_tilePair {start : State}
    (hstart : start = { kernel := Kernel.build "pair" .unknown Stmt.tilePair, pass := "slots" }) :
    ∃ (s s' : State) (set other set' : SlotSet),
      Relation.ReflTransGen (Call (survey start).1.sites) ((survey start).2, []) (s, [set, other]) ∧ set.factor = 2 ∧
      resize {} set 3 s = .ok set' s' := by
  let first : Site := ⟨⟨0⟩, ⟨0⟩, .tile, 1, some 2⟩
  let second : Site := ⟨⟨1⟩, ⟨1⟩, .tile, 1, some 3⟩
  let calls : Transform (SlotSet × SlotSet × SlotSet) := do
    let set ← expand {} first 2
    let other ← expand {} second 1
    let set' ← resize {} set 3
    pure (set, other, set')
  have hsites : (survey start).1.sites = [first, second] := by
    rw [hstart]
    decide +kernel
  obtain ⟨⟨set, other, set'⟩, s', hcalls, hfactor⟩ := exists_of_check (t := calls) (s := (survey start).2)
    (p := fun sets _ => sets.1.factor == 2) (by rw [hstart]; decide +kernel)
  have hfactor : set.factor = 2 := beq_iff_eq.mp hfactor
  obtain ⟨_, s₁, hfirst, hcalls⟩ := bind_eq_ok hcalls
  obtain ⟨_, s, hsecond, hcalls⟩ := bind_eq_ok hcalls
  obtain ⟨_, _, hresize, hcalls⟩ := bind_eq_ok hcalls
  cases hcalls
  refine ⟨s, s', set, other, set', ?_, hfactor, hresize⟩
  exact (Relation.ReflTransGen.single (.expand {} 2 (by simp [hsites]) hfirst)).tail
    (.expand {} 1 (by simp [hsites]) hsecond)

end Transform
end SlotRotation
