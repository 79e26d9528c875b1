import SlotRotation.Proofs.Linking
import SlotRotation.Proofs.Tracking

/-! When an expansion is refused. The checks stand in a fixed order, the first one that fails is the error, and
nothing has changed then. Where none fails the expansion succeeds. -/

namespace SlotRotation

namespace Kernel

variable {k : Kernel} {F : Forest} {a x : OpId} {l : Loop}

inductive Under (k : Kernel) (a : OpId) : OpId → Prop
  | body {x : OpId} {l : Loop} : k.loop? a = some l → k.home? x = some l.body → Under k a x
  | nested {b x : OpId} {l : Loop} : Under k a b → k.loop? b = some l → k.home? x = some l.body → Under k a x

def accessesOf (k : Kernel) (buffer : ValueId) : List Use := (k.usesOf buffer).filter fun use => !k.isRelease use

structure Spans (k : Kernel) (alloc : OpId) (uses : List Use) (loop : OpId) : Prop where
  inhabited : uses ≠ []
  around : ∀ use ∈ uses, k.Under loop use.user
  apart : ¬k.Under loop alloc

theorem Under.exists_loop? (h : k.Under a x) : ∃ l, k.loop? a = some l := by
  induction h with
  | body hl _ => exact ⟨_, hl⟩
  | nested _ _ _ ih => exact ih

namespace Arranges

theorem encloses_of_home? (h : Arranges k F) (hl : k.loop? a = some l) (hx : k.home? x = some l.body) :
    F.Encloses a x := by
  have hl' := h.loop?_eq_some_iff.mp hl
  have hlive : k.isLive x := by
    obtain ⟨op, hop, -⟩ := Option.map_eq_some_iff.mp hx
    simp [isLive, hop]
  obtain ⟨r, G, hG, hxG⟩ := Forest.exists_level (h.isLive_iff.mp hlive)
  have hr := h.home?_level hG hxG
  rw [hx, Option.some.injEq] at hr
  have howner := h.owner?_of_mem hl' rfl
  rcases hG with ⟨rfl, -⟩ | ⟨b, m, hB, rfl⟩
  · rw [hr, h.root] at howner
    cases howner
  · have howner' := h.owner?_of_mem hB.mem_nodes rfl
    rw [← hr, howner, Option.some.injEq] at howner'
    subst howner'
    exact ⟨(hB.inScope_iff h.nodup).mpr (Forest.mem_ids_of_mem_tops hxG), l, hl'⟩

theorem under_of_climbs (h : Arranges k F) {r : RegionId} {u : OpId} {c : List OpId} (hc : k.Climbs r u c) :
    ∀ a ∈ c, k.Under a u := by
  induction hc with
  | here _ _ => simp
  | @up id parent above hparent hclimbs ih =>
    obtain ⟨op, hop, howner⟩ := Option.bind_eq_some_iff.mp hparent
    have hlive : k.isLive parent := by
      cases hclimbs with
      | here hop _ => simp [isLive, hop]
      | up hup _ =>
        obtain ⟨op, hop, -⟩ := Option.bind_eq_some_iff.mp hup
        simp [isLive, hop]
    obtain ⟨i, hi⟩ := Forest.exists_mem_nodes (h.isLive_iff.mp hlive)
    have hregion := (h.owner _ _ howner).2 i hi
    cases i with
    | loop m =>
      have hm := h.loop?_eq_some_iff.mpr hi
      have hhome : k.home? id = some m.body := by
        rw [home?, hop, Option.map_some, Option.some.inj hregion]
      intro a ha
      rcases List.mem_cons.mp ha with rfl | ha
      · exact .body hm hhome
      · exact .nested (ih a ha) hm hhome
    | _ => cases hregion

theorem under_iff (h : Arranges k F) (hx : x ∈ F.ids) : k.Under a x ↔ k.isAncestor a x := by
  rw [h.isAncestor_iff hx]
  constructor
  · intro hunder
    clear hx
    induction hunder with
    | body hl hhome => exact h.encloses_of_home? hl hhome
    | nested _ hl hhome ih => exact ⟨ih.1.trans h.nodup (h.encloses_of_home? hl hhome).1, ih.2⟩
  · intro henc
    obtain ⟨c, hc⟩ := Option.isSome_iff_exists.mp (Forest.chain?_isSome.mpr hx)
    exact h.under_of_climbs (h.placed.climbs hc) a ((Forest.mem_chain?_iff h.nodup h.plain hc).mpr henc)

theorem exists_rotationLoop?_iff (h : Arranges k F) {alloc : OpId} {accesses : List Use} (halloc : alloc ∈ F.ids)
    (hids : ∀ use ∈ accesses, use.user ∈ F.ids) :
    (∃ loop, k.rotationLoop? alloc accesses = some loop) ↔ ∃ loop, k.Spans alloc accesses loop := by
  constructor
  · rintro ⟨loop, hloop⟩
    obtain ⟨first, hfirst, hfind⟩ := Option.bind_eq_some_iff.mp hloop
    have hcond := List.find?_some hfind
    rw [Bool.and_eq_true, Bool.not_eq_true', List.all_eq_true] at hcond
    refine ⟨loop, List.ne_nil_of_mem (List.mem_of_mem_head? hfirst), fun use huse => ?_, fun hunder => ?_⟩
    · exact (h.under_iff (hids use huse)).mpr (hcond.2 use huse)
    · rw [h.under_iff halloc, hcond.1] at hunder
      cases hunder
  · rintro ⟨loop, hspans⟩
    obtain ⟨first, rest, rfl⟩ := List.exists_cons_of_ne_nil hspans.inhabited
    have haround : ∀ use ∈ first :: rest, k.isAncestor loop use.user := fun use huse =>
      (h.under_iff (hids use huse)).mp (hspans.around use huse)
    have hapart : k.isAncestor loop alloc = false :=
      Bool.eq_false_iff.mpr fun hanc => hspans.apart ((h.under_iff halloc).mpr hanc)
    obtain ⟨l, hl⟩ := (hspans.around first List.mem_cons_self).exists_loop?
    refine Option.isSome_iff_exists.mp (List.find?_isSome.mpr ⟨loop, List.mem_filter.mpr ⟨?_, by rw [hl]; rfl⟩, ?_⟩)
    · exact of_decide_eq_true (haround first List.mem_cons_self)
    · rw [hapart, List.all_eq_true.mpr haround]
      rfl

end Arranges
end Kernel

namespace Site

variable {site : Site} {policy : Policy} {k : Kernel} {F : Forest} {factor : Int64} {err : Error}

/-- The first thing that speaks against an expansion. -/
inductive Refused (site : Site) (policy : Policy) (k : Kernel) (factor : Int64) : Error → Prop
  | factor : factor < 1 → Refused site policy k factor (.invalidFactor factor)
  | element : 1 ≤ factor → site.ty.element.width? = none →
      Refused site policy k factor (.notReplicable site.ty.element)
  | loop : 1 ≤ factor → site.ty.element.width? ≠ none →
    (∀ loop, ¬k.Spans site.alloc (k.accessesOf site.buffer) loop) → Refused site policy k factor (.noLoop site.alloc)
  | overwrite {loop : OpId} {first : Use} : 1 ≤ factor → site.ty.element.width? ≠ none →
    k.Spans site.alloc (k.accessesOf site.buffer) loop → policy.requireOverwrite →
    (k.accessesOf site.buffer).head? = some first → k.overwrites first = false →
    Refused site policy k factor (.notOverwritten site.alloc)

theorem check_eq_error_iff {c : Prop} [Decidable c] {e : Error} :
    (if c then .ok () else .error e : Except Error Unit) = .error err ↔ ¬c ∧ err = e := by
  split
  · rename_i hc
    exact ⟨nofun, fun h => absurd hc h.1⟩
  · rename_i hc
    exact ⟨fun h => ⟨hc, (Except.error.inj h).symm⟩, fun h => by rw [h.2]⟩

theorem slotsAsked_eq_error_iff : slotsAsked factor = .error err ↔ factor < 1 ∧ err = .invalidFactor factor := by
  rw [slotsAsked]
  split
  · rename_i hlt
    exact ⟨fun h => ⟨hlt, (Except.error.inj h).symm⟩, fun h => by rw [h.2]⟩
  · rename_i hle
    exact ⟨fun h => (by cases h), fun h => absurd h.1 hle⟩

theorem exists_slotsAsked_iff : (∃ n, slotsAsked factor = .ok n) ↔ 1 ≤ factor := by
  rw [slotsAsked, ← Int64.not_lt]
  split <;> simp_all

theorem checkElement_eq_error_iff :
    site.checkElement = .error err ↔ site.ty.element.width? = none ∧ err = .notReplicable site.ty.element := by
  rw [checkElement, check_eq_error_iff, Element.replicable, Option.not_isSome_iff_eq_none]

theorem exists_checkElement_iff : (∃ u, site.checkElement = .ok u) ↔ site.ty.element.width? ≠ none := by
  rw [checkElement, Element.replicable, ← Option.isSome_iff_ne_none]
  split <;> simp_all

theorem chooseLoop_eq_error_iff {accesses : List Use} : site.chooseLoop k accesses = .error err ↔
    (¬∃ loop, k.rotationLoop? site.alloc accesses = some loop) ∧ err = .noLoop site.alloc := by
  rw [chooseLoop]
  cases k.rotationLoop? site.alloc accesses with
  | some loop => simp
  | none => simp [eq_comm]

theorem exists_chooseLoop_iff {accesses : List Use} : (∃ loop, site.chooseLoop k accesses = .ok loop) ↔
    ∃ loop, k.rotationLoop? site.alloc accesses = some loop := by
  simp only [chooseLoop]
  cases k.rotationLoop? site.alloc accesses <;> simp

theorem checkOverwrite_eq_error_iff {first : Use} {rest : List Use} :
    site.checkOverwrite policy k (first :: rest) = .error err ↔
      (policy.requireOverwrite ∧ k.overwrites first = false) ∧ err = .notOverwritten site.alloc := by
  rw [checkOverwrite, check_eq_error_iff]
  simp

theorem expansion_eq_error_iff (h : k.Arranges F) (hmem : site.alloc ∈ F.ids) (halloc : site.checkAlloc k = .ok ()) :
    site.expansion policy k factor = .error err ↔ site.Refused policy k factor err := by
  have huses : (DefUse.ofKernel k).usesOf site.buffer = k.usesOf site.buffer := by
    rw [DefUse.usesOf_ofKernel h, h.usesOf_eq]
  have hids : ∀ use ∈ k.accessesOf site.buffer, use.user ∈ F.ids := by
    intro use huse
    have huse' := (List.mem_filter.mp huse).1
    rw [h.usesOf_eq] at huse'
    obtain ⟨i, hi, -⟩ := Forest.mem_uses.mp huse'
    exact Forest.mem_ids_of_mem_nodes hi
  have hspans := h.exists_rotationLoop?_iff hmem hids
  have hsteps : site.expansion policy k factor = .error err ↔ slotsAsked factor = .error err ∨
      (∃ n, slotsAsked factor = .ok n) ∧ (site.checkElement = .error err ∨ (∃ u, site.checkElement = .ok u) ∧
        (site.chooseLoop k (k.accessesOf site.buffer) = .error err ∨
          (∃ loop, site.chooseLoop k (k.accessesOf site.buffer) = .ok loop) ∧
            site.checkOverwrite policy k (k.accessesOf site.buffer) = .error err)) := by
    rw [expansion, huses]
    simp [Kernel.accessesOf, except_bind_eq_error_iff, halloc, pure, Except.pure]
  rw [hsteps, slotsAsked_eq_error_iff, exists_slotsAsked_iff, checkElement_eq_error_iff, exists_checkElement_iff,
    chooseLoop_eq_error_iff, exists_chooseLoop_iff, hspans]
  constructor
  · rintro (⟨hf, rfl⟩ | ⟨hf, ⟨hw, rfl⟩ | ⟨hw, ⟨hloop, rfl⟩ | ⟨⟨loop, hloop⟩, hover⟩⟩⟩)
    · exact .factor hf
    · exact .element hf hw
    · exact .loop hf hw (not_exists.mp hloop)
    · obtain ⟨first, rest, heq⟩ := List.exists_cons_of_ne_nil hloop.inhabited
      rw [heq, checkOverwrite_eq_error_iff] at hover
      obtain ⟨⟨hpolicy, hfirst⟩, rfl⟩ := hover
      exact .overwrite hf hw hloop hpolicy (by rw [heq]; rfl) hfirst
  · intro hr
    cases hr with
    | factor hf => exact Or.inl ⟨hf, rfl⟩
    | element hf hw => exact Or.inr ⟨hf, Or.inl ⟨hw, rfl⟩⟩
    | loop hf hw hloop => exact Or.inr ⟨hf, Or.inr ⟨hw, Or.inl ⟨not_exists.mpr hloop, rfl⟩⟩⟩
    | @overwrite loop first hf hw hloop hpolicy hhead hfirst =>
      refine Or.inr ⟨hf, Or.inr ⟨hw, Or.inr ⟨⟨loop, hloop⟩, ?_⟩⟩⟩
      obtain ⟨rest, heq⟩ := List.head?_eq_some_iff.mp hhead
      rw [heq, checkOverwrite_eq_error_iff]
      exact ⟨⟨hpolicy, hfirst⟩, rfl⟩

end Site

namespace Transform

variable {M N : Nat} {s : State} {F : Forest} {site : Site}

/-- A site that has its allocation is refused without a trace, or nothing speaks against it and it is expanded. -/
theorem expand_outcome (h : s.kernel.Grown M N F) (hN : site.buffer.index < N) {a : Alloc}
    (ha : s.kernel.alloc? site.alloc = some a) (hres : a.result = site.buffer) (policy : Policy) (factor : Int64) :
    (∃ err, expand policy site factor s = .error err s ∧
        ∀ err', site.Refused policy s.kernel factor err' ↔ err' = err) ∨
      (∃ set s', expand policy site factor s = .ok set s') ∧ ∀ err, ¬site.Refused policy s.kernel factor err := by
  have hnode := h.alloc?_eq_some_iff.mp ha
  have halloc : site.checkAlloc s.kernel = .ok () := by
    rw [Site.checkAlloc, ha]
    simp [hres]
  have hrefused : ∀ err, site.expansion policy s.kernel factor = .error err ↔
      site.Refused policy s.kernel factor err :=
    fun err => Site.expansion_eq_error_iff h.toArranges (Forest.mem_ids_of_mem_nodes hnode) halloc
  rcases h.toStores.expand (h.steady.reaches _ hN) h.steady.knows policy factor with
    ⟨err, herr⟩ | ⟨e, _, _, set, _, _, _, _, hdoes, he, -⟩
  · have hrun : expand policy site factor s = .error err s := by
      unfold expand
      exact query_bind_error herr
    refine Or.inl ⟨err, hrun, fun err' => ?_⟩
    rw [← hrefused, herr, Except.error.injEq, eq_comm]
  · obtain ⟨s', hrun, -⟩ := hdoes s rfl
    refine Or.inr ⟨⟨set, s', hrun⟩, fun err herr => ?_⟩
    rw [← hrefused, he] at herr
    cases herr

/-- After calls on other sites of the survey a site that is left is expanded, or refused for the first thing that
speaks against it and without a trace. -/
theorem expand_eq_error_iff {name : String} {location : Location} {stmts : List Stmt} (start : State)
    (hstart : start.kernel = Kernel.build name location stmts) (hv : start.kernel.verify = .ok ()) {site : Site}
    (hsite : site ∈ (survey start).1.sites) {s : State} {sets : List SlotSet}
    (hcalls : Relation.ReflTransGen (Call ((survey start).1.sites.erase site)) ((survey start).2, []) (s, sets))
    (policy : Policy) (factor : Int64) :
    (∀ err s', expand policy site factor s = .error err s' ↔ site.Refused policy s.kernel factor err ∧ s' = s) ∧
      ((∃ set s', expand policy site factor s = .ok set s') ↔ ∀ err, ¬site.Refused policy s.kernel factor err) ∧
      ∀ fault s', expand policy site factor s ≠ .error (.malformed fault) s' := by
  obtain ⟨M, N, ⟨-, hN⟩, hawaits⟩ := awaits_of_pending hstart hv hsite hcalls
  obtain ⟨F, hF⟩ := hawaits.grown
  obtain ⟨a, ha, hres⟩ := hawaits.waiting site List.mem_cons_self
  rcases expand_outcome hF hN ha hres policy factor with ⟨err, hrun, hrefused⟩ | ⟨⟨set, s₁, hrun⟩, hrefused⟩
  · rw [hrun]
    refine ⟨fun err' s' => ?_, ⟨?_, fun h => absurd ((hrefused err).mpr rfl) (h err)⟩, fun fault s' heq => ?_⟩
    · rw [hrefused, EStateM.Result.error.injEq]
      exact and_congr eq_comm eq_comm
    · rintro ⟨_, _, heq⟩
      cases heq
    · cases heq
      cases (hrefused _).mpr rfl
  · rw [hrun]
    refine ⟨fun err s' => ⟨fun heq => ?_, fun h => absurd h.1 (hrefused err)⟩, iff_of_true ⟨set, s₁, rfl⟩ hrefused,
      fun fault s' heq => ?_⟩
    · cases heq
    · cases heq

/-- The second tile of a pair, when the slots of the first one are in place and were resized. -/
theorem expand_eq_error_iff_tilePair :
    let start : State := { kernel := Kernel.build "pair" .unknown Stmt.tilePair, pass := "slots" }
    let site : Site := ⟨⟨1⟩, ⟨1⟩, .tile, 1, some 3⟩
    ∃ (s : State) (set : SlotSet), site ∈ (survey start).1.sites ∧
      Relation.ReflTransGen (Call ((survey start).1.sites.erase site)) ((survey start).2, []) (s, [set]) ∧
      ∀ policy factor,
        (∀ err s', expand policy site factor s = .error err s' ↔ site.Refused policy s.kernel factor err ∧ s' = s) ∧
        ((∃ set s', expand policy site factor s = .ok set s') ↔ ∀ err, ¬site.Refused policy s.kernel factor err) ∧
        ∀ fault s', expand policy site factor s ≠ .error (.malformed fault) s' := by
  intro start site
  obtain ⟨s, -, set, -, hsite, hchain, -⟩ := pending_tilePair (show start = _ from rfl) (show site = _ from rfl)
  exact ⟨s, set, hsite, hchain, expand_eq_error_iff start rfl (by decide +kernel) hsite hchain⟩

end Transform
end SlotRotation
