import SlotRotation.Proofs.Fits
import SlotRotation.Proofs.Runs

/-! The top of a loop body: where new ops go, the barrier that may stand there, and the ops that compute the index
of the slots. -/

namespace SlotRotation

def Forest.Opens (F : Forest) (a : OpId) (l : Loop) (p : InsertPoint) : Prop :=
  (p = .first l.body ∧ ∀ g, ¬F.Leads a g) ∨ ∃ g, p = .after g ∧ F.Leads a g

/-- The barrier leads the body, or is the first of the ops that go to its start. -/
def Forest.Headed (F : Forest) (a : OpId) (l : Loop) (p : InsertPoint) (ns : List Node) (g : OpId) : Prop :=
  F.Leads a g ∨ (p = .first l.body ∧ ∃ ms, ns = (g, .barrier) :: ms)

def Guard.nodes (guard : Option Guard) : List Node :=
  (guard.filter Guard.inserted).toList.map fun g => (g.op, .barrier)

theorem Guard.eq_of_mem_nodes {guard : Option Guard} {n : Node} (h : n ∈ Guard.nodes guard) :
    guard = some ⟨n.1, true⟩ := by
  obtain ⟨g, hg, rfl⟩ := List.mem_map.mp h
  obtain ⟨rfl, hinserted⟩ := Option.filter_eq_some_iff.mp (Option.mem_toList.mp hg)
  rw [← hinserted]

theorem Kernel.Arranges.eq_of_body {k : Kernel} {F : Forest} (h : k.Arranges F) {a b : OpId} {l m : Loop}
    (hl : (a, .loop l) ∈ F.nodes) (hm : (b, .loop m) ∈ F.nodes) (hbody : l.body = m.body) : a = b := by
  have howner := h.owner?_of_mem hl rfl
  rw [hbody, h.owner?_of_mem hm rfl, Option.some.injEq] at howner
  exact howner.symm

theorem Forest.Opens.ne_before {F : Forest} {a : OpId} {l : Loop} {p : InsertPoint} (h : F.Opens a l p) (x : OpId) :
    p ≠ .before x := by
  rintro rfl
  rcases h with ⟨hp, -⟩ | ⟨g, hp, -⟩ <;> cases hp

theorem Forest.Opens.host_cases {k : Kernel} {F : Forest} {a : OpId} {l : Loop} {p : InsertPoint} (h : F.Opens a l p)
    (hS : k.Arranges F) (hl : (a, .loop l) ∈ F.nodes) {n : Node} (hn : n ∈ F.nodes) (hhost : Hosts n p) :
    n.1 = a ∨ F.Leads a n.1 := by
  rcases h with ⟨hp, -⟩ | ⟨g, hp, hlead⟩
  · refine Or.inl (hS.host_unique hn hl hhost ?_)
    rw [hp]
    exact (hosts_owner rfl).mpr rfl
  · refine Or.inr ?_
    rw [hp] at hhost
    cases hr : n.2.region? with
    | none =>
      rcases (hosts_leaf hr).mp hhost with heq | heq
      · cases heq
      · cases heq
        exact hlead
    | some r => cases (hosts_owner hr).mp hhost

theorem Forest.Opens.anchors {F : Forest} {a : OpId} {l : Loop} {p : InsertPoint} (h : F.Opens a l p)
    (hl : (a, .loop l) ∈ F.nodes) : F.Anchors p := by
  rcases h with ⟨rfl, -⟩ | ⟨g, rfl, hlead⟩
  · exact ⟨a, l, hl, rfl⟩
  · exact ⟨.barrier, hlead.mem_nodes, rfl⟩

namespace Forest

section

variable {F : Forest} {a x g : OpId} {l : Loop} {p : InsertPoint} {ns ms : List Node} (hP : F.Plain)
  (hids : (F.rewrite (.placing (.after x) ns)).ids.Nodup) (hl : (a, .loop l) ∈ F.nodes)

theorem Leads.placing_after (h : F.Leads a g) : (F.rewrite (.placing (.after x) ns)).Leads a g := by
  have hleaf : (Rewriting.placing (.after x) ns).leaf g .barrier =
      (g, .barrier) :: if InsertPoint.after x = .after g then ns else [] := by
    rw [Rewriting.leaf_placing, if_neg (by simp)]
    rfl
  exact h.rewrite (fun _ _ => rfl) hleaf

include hP hids hl

theorem Leads.of_placing_after (h : (F.rewrite (.placing (.after x) ns)).Leads a g) : F.Leads a g := by
  obtain ⟨B, hB⟩ := exists_holds hP hl
  obtain ⟨l', B', hB'⟩ := h
  have heq := ((hB.rewrite (R := .placing (.after x) ns)).unique hB' hids).2
  cases B with
  | nil => cases heq
  | op y i rest =>
    rw [Forest.rewrite, Rewriting.leaf_placing, if_neg (by simp)] at heq
    injection heq with hid hinstr
    subst hid hinstr
    exact ⟨l, rest, hB⟩
  | loop y m body rest => cases heq

theorem Opens.of_placing_after (h : (F.rewrite (.placing (.after x) ns)).Opens a l p) : F.Opens a l p := by
  rcases h with ⟨hp, hno⟩ | ⟨g, hp, hlead⟩
  · exact Or.inl ⟨hp, fun g hg => hno g hg.placing_after⟩
  · exact Or.inr ⟨g, hp, hlead.of_placing_after hP hids hl⟩

theorem Headed.of_placing_after (h : (F.rewrite (.placing (.after x) ns)).Headed a l p ms g) : F.Headed a l p ms g :=
  h.imp (fun hlead => hlead.of_placing_after hP hids hl) id

end

end Forest

theorem Rotates.of_constant {F F' : Forest} {l : Loop} {n : Nat} {ns : List Node} {v : ValueId}
    (h : Rotates F' l n ns v) (hc : ∀ w c, F'.Constant w c → F.Constant w c) : Rotates F l n ns v := by
  have hstep : ∀ {c op value other ns result}, Combines F' c op value other ns result →
      Combines F c op value other ns result := fun hcomb =>
    hcomb.imp_left fun ⟨hns, hv, hconst⟩ => ⟨hns, hv, hc _ _ hconst⟩
  cases h with
  | single x => exact .single x v
  | many hn hshift hscale => exact .many hn (hstep hshift) (hstep hscale)

theorem Rotates.of_placing {F : Forest} (hF : F.Plain) {p : InsertPoint} {ms : List Node} {l : Loop} {n : Nat}
    {ns : List Node} {v : ValueId} (h : Rotates (F.rewrite (.placing p ms)) l n ns v)
    (hms : ∀ d w c, (d, .constant w c) ∉ ms) : Rotates F l n ns v := by
  apply h.of_constant
  rintro w c ⟨d, hd⟩
  exact ⟨d, (Forest.mem_placing_cases hF hd).resolve_right (hms d w c)⟩

theorem Combines.result_cases {F : Forest} {c : Int64} {op : ArithOp} {value other result : ValueId} {ns : List Node}
    (h : Combines F c op value other ns result) : result = value ∨ ∃ d ∈ ns, d.2.result? = some result := by
  rcases h with ⟨-, rfl, -⟩ | ⟨x, rfl⟩
  · exact Or.inl rfl
  · exact Or.inr ⟨_, List.mem_singleton_self _, rfl⟩

def Feeds (l : Loop) (ns : List Node) : Prop :=
  ∀ as m bs, ns = as ++ m :: bs → ∀ w ∈ m.2.operands,
    w = l.induction ∨ w = l.lower ∨ w = l.step ∨ ∃ d ∈ as, d.2.result? = some w

theorem Feeds.nil (l : Loop) : Feeds l [] := fun as m bs h => by simp at h

theorem Feeds.concat {l : Loop} {ns : List Node} {m : Node} (h : Feeds l ns)
    (hm : ∀ w ∈ m.2.operands, w = l.induction ∨ w = l.lower ∨ w = l.step ∨ ∃ d ∈ ns, d.2.result? = some w) :
    Feeds l (ns ++ [m]) := by
  intro as m' bs hsplit w hw
  rcases List.eq_nil_or_concat' bs with rfl | ⟨bs', b, rfl⟩
  · obtain ⟨rfl, hmm⟩ := List.append_inj' hsplit rfl
    obtain rfl : m = m' := (List.cons.inj hmm).1
    exact hm w hw
  · have hsplit' : ns ++ [m] = (as ++ m' :: bs') ++ [b] := by simpa using hsplit
    exact h as m' bs' (List.append_inj' hsplit' rfl).1 w hw

theorem Feeds.combines {F : Forest} {l : Loop} {c : Int64} {op : ArithOp} {value other result : ValueId}
    {ns ms : List Node} (h : Feeds l ns) (hms : Combines F c op value other ms result)
    (hvalue : value = l.induction ∨ ∃ d ∈ ns, d.2.result? = some value) (hother : other = l.lower ∨ other = l.step) :
    Feeds l (ns ++ ms) := by
  rcases hms with ⟨rfl, -, -⟩ | ⟨x, rfl⟩
  · rw [List.append_nil]
    exact h
  · refine h.concat fun w hw => ?_
    simp only [Instr.operands, List.mem_cons, List.not_mem_nil, or_false] at hw
    rcases hw with rfl | rfl
    · exact hvalue.imp_right fun hd => Or.inr (Or.inr hd)
    · exact Or.inr (hother.imp_right Or.inl)

theorem Combines.leaf {F : Forest} {c : Int64} {op : ArithOp} {value other result : ValueId} {ns : List Node}
    (h : Combines F c op value other ns result) : ∀ n ∈ ns, n.2.region? = none ∧ n.2 ≠ .barrier := by
  rcases h with ⟨rfl, -, -⟩ | ⟨x, rfl⟩
  · simp
  · simp [Instr.region?]

theorem Rotates.mem_cases {F : Forest} {l : Loop} {n : Nat} {ns : List Node} {v : ValueId} (h : Rotates F l n ns v)
    {m : Node} (hm : m ∈ ns) : (∃ w c, m.2 = .constant w c) ∨ ∃ w op x y, m.2 = .arith w op x y := by
  have hstep : ∀ {c op value other ns result}, Combines F c op value other ns result → m ∈ ns →
      ∃ w op x y, m.2 = .arith w op x y := by
    rintro c op value other ns result (⟨rfl, -⟩ | ⟨x, rfl⟩) hm
    · cases hm
    · rw [List.mem_singleton.mp hm]
      exact ⟨_, _, _, _, rfl⟩
  cases h with
  | single x =>
    rw [List.mem_singleton.mp hm]
    exact Or.inl ⟨_, _, rfl⟩
  | many hn hshift hscale =>
    simp only [List.mem_append, List.mem_cons, List.not_mem_nil, or_false] at hm
    rcases hm with (hm | hm) | rfl | rfl
    · exact Or.inr (hstep hshift hm)
    · exact Or.inr (hstep hscale hm)
    · exact Or.inl ⟨_, _, rfl⟩
    · exact Or.inr ⟨_, _, _, _, rfl⟩

theorem Rotates.computes {F : Forest} {l : Loop} {n : Nat} {ns : List Node} {v : ValueId} (h : Rotates F l n ns v) :
    Computes l ns v := by
  cases h with
  | single x =>
    refine ⟨by simp [Instr.region?], by simp, ?_, _, List.mem_singleton_self _, rfl⟩
    exact (Feeds.nil l).concat (m := (x, .constant v 0)) (by simp [Instr.operands])
  | @many _ shift scale offset iteration modulus _ c x hn hshift hscale =>
    have hoffset : offset = l.induction ∨ ∃ d ∈ shift, d.2.result? = some offset := hshift.result_cases
    have hiteration : iteration = l.induction ∨ ∃ d ∈ shift ++ scale, d.2.result? = some iteration := by
      rcases hscale.result_cases with rfl | ⟨d, hd, hres⟩
      · apply hoffset.imp_right
        rintro ⟨d, hd, hres⟩
        exact ⟨d, List.mem_append_left _ hd, hres⟩
      · exact Or.inr ⟨d, List.mem_append_right _ hd, hres⟩
    have hfeeds := ((Feeds.nil l).combines hshift (Or.inl rfl) (Or.inl rfl)).combines hscale hoffset (Or.inr rfl)
    have hleaf : ∀ m ∈ shift ++ scale ++
        [(c, .constant modulus (Int64.ofNat n)), (x, .arith v .rem iteration modulus)],
        m.2.region? = none ∧ m.2 ≠ .barrier := by
      intro m hm
      simp only [List.mem_append, List.mem_cons, List.not_mem_nil, or_false] at hm
      rcases hm with (hm | hm) | rfl | rfl
      · exact hshift.leaf m hm
      · exact hscale.leaf m hm
      · exact ⟨rfl, by simp⟩
      · exact ⟨rfl, by simp⟩
    refine ⟨fun m hm => (hleaf m hm).1, fun m hm => (hleaf m hm).2, ?_, (x, .arith v .rem iteration modulus),
      by simp, rfl⟩
    have hconst := hfeeds.concat (m := (c, .constant modulus (Int64.ofNat n))) (by simp [Instr.operands])
    have hrem := hconst.concat (m := (x, .arith v .rem iteration modulus)) (by
      intro w hw
      simp only [Instr.operands, List.mem_cons, List.not_mem_nil, or_false] at hw
      rcases hw with rfl | rfl
      · apply hiteration.imp_right
        rintro ⟨d, hd, hres⟩
        exact Or.inr (Or.inr ⟨d, List.mem_append_left _ hd, hres⟩)
      · exact Or.inr (Or.inr (Or.inr ⟨(c, .constant w (Int64.ofNat n)), by simp, rfl⟩)))
    rw [List.nil_append, List.append_assoc] at hrem
    exact hrem

namespace Kernel

variable {k k' k₁ : Kernel} {F : Forest} {a : OpId} {l : Loop} {p : InsertPoint} {ns : List Node}

theorem Arranges.leadingBarrier?_eq_some_iff (h : Arranges k F) (hl : (a, .loop l) ∈ F.nodes) {g : OpId} :
    k.leadingBarrier? l.body = some g ↔ F.Leads a g := by
  obtain ⟨B, hB⟩ := Forest.exists_holds h.plain hl
  have hops : k.regionOps l.body = B.tops := (h.placed.holds hB).1
  have hlead : F.Leads a g ↔ ∃ rest, B = .op g .barrier rest := by
    constructor
    · rintro ⟨l', rest, hB'⟩
      exact ⟨rest, (hB.unique hB' h.nodup).2⟩
    · rintro ⟨rest, rfl⟩
      exact ⟨l, rest, hB⟩
  rw [hlead, leadingBarrier?, hops]
  cases B with
  | nil => simp [Forest.tops]
  | op x i rest =>
    have hi : k.instr? x = some i := h.instr?_of_mem (hB.nodes_subset (List.mem_cons_self ..))
    rw [Forest.tops, List.head?_cons, Option.filter_eq_some_iff]
    constructor
    · rintro ⟨hx, hbarrier⟩
      cases hx
      rw [hi] at hbarrier
      cases i <;> first | exact ⟨rest, rfl⟩ | cases hbarrier
    · rintro ⟨rest', heq⟩
      cases heq
      rw [hi]
      exact ⟨rfl, rfl⟩
  | loop x l' body rest =>
    have hi : k.instr? x = some (.loop l') := h.instr?_of_mem (hB.nodes_subset (List.mem_cons_self ..))
    rw [Forest.tops, List.head?_cons, Option.filter_eq_some_iff]
    constructor
    · rintro ⟨hx, hbarrier⟩
      cases hx
      rw [hi] at hbarrier
      cases hbarrier
    · rintro ⟨rest', heq⟩
      cases heq

theorem Arranges.getLoop_eq (h : Arranges k F) (hl : (a, .loop l) ∈ F.nodes) : k.getLoop a = .ok l := by
  rw [getLoop, h.loop?_eq_some_iff.mpr hl]

theorem Arranges.bodyTop_eq (h : Arranges k F) (hl : (a, .loop l) ∈ F.nodes) (hp : F.Opens a l p) :
    k.bodyTop a = .ok p := by
  have htop : k.bodyTop a = .ok (((k.leadingBarrier? l.body).map .after).getD (.first l.body)) := by
    rw [bodyTop, h.getLoop_eq hl]
    rfl
  rw [htop]
  rcases hp with ⟨rfl, hnone⟩ | ⟨g, rfl, hlead⟩
  · cases hg : k.leadingBarrier? l.body with
    | none => rfl
    | some g => exact absurd ((h.leadingBarrier?_eq_some_iff hl).mp hg) (hnone g)
  · rw [(h.leadingBarrier?_eq_some_iff hl).mpr hlead]
    rfl

theorem Arranges.exists_opens (h : Arranges k F) (hl : (a, .loop l) ∈ F.nodes) : ∃ p, F.Opens a l p := by
  cases hg : k.leadingBarrier? l.body with
  | some g => exact ⟨_, Or.inr ⟨g, rfl, (h.leadingBarrier?_eq_some_iff hl).mp hg⟩⟩
  | none =>
    refine ⟨_, Or.inl ⟨rfl, fun g hlead => ?_⟩⟩
    rw [(h.leadingBarrier?_eq_some_iff hl).mpr hlead] at hg
    cases hg

/-- The body is open for new ops, behind a barrier put there if there was none. -/
structure Prepares (k k' : Kernel) (F : Forest) (a : OpId) (l : Loop) (p : InsertPoint) (ns : List Node) : Prop
    extends Places k k' F p ns where
  barriers : ∀ n ∈ ns, n.2 = .barrier
  opens : F.Opens a l p
  reopens : (F.rewrite (.placing p ns)).Opens a l (p.past (ns.map Prod.fst))

theorem Stores.prepares_nil (h : Stores k F) (hl : (a, .loop l) ∈ F.nodes) : ∃ p, Prepares k k F a l p [] := by
  obtain ⟨p, hp⟩ := h.exists_opens hl
  refine ⟨p, { Places.nil h with barriers := by simp, opens := hp, reopens := ?_ }⟩
  rw [Forest.rewrite_placing_nil h.plain]
  exact hp

theorem loop_mem_placing (h : Stores k F) (hl : (a, .loop l) ∈ F.nodes) (p : InsertPoint) (ns : List Node) :
    (a, .loop l) ∈ (F.rewrite (.placing p ns)).nodes := Forest.mem_placing h.plain hl

theorem Becomes.needsGuard_eq (h : Arranges k F) {R : Rewriting} (hk : Becomes k k' F R) (policy : Policy)
    (ty : BufferType) (a : OpId) (n : Nat) : policy.needsGuard k' ty a n = policy.needsGuard k ty a n := by
  rw [Policy.needsGuard, Policy.needsGuard, Policy.depthOf, Policy.depthOf, hk.loop?_depth h]

theorem Stores.leadWithBarrier (h : Stores k F) (hl : (a, .loop l) ∈ F.nodes) :
    ∃ guard k' p ns, Transform.Does (Transform.leadWithBarrier a) k guard k' ∧ Prepares k k' F a l p ns ∧
      F.Headed a l p ns guard.op ∧ ns = Guard.nodes (some guard) := by
  have hloop := Transform.does_query (q := (·.getLoop a)) (h.getLoop_eq hl)
  cases hg : k.leadingBarrier? l.body with
  | some g =>
    have hlead := (h.leadingBarrier?_eq_some_iff hl).mp hg
    refine ⟨⟨g, false⟩, k, .after g, [], ?_, { Places.nil h with barriers := by simp, opens := ?_, reopens := ?_ },
      ?_, rfl⟩
    · refine hloop.bind (Transform.does_currentKernel.bind ?_)
      rw [hg]
      exact (Transform.does_record _ _ _).bind (Transform.does_pure _)
    · exact Or.inr ⟨g, rfl, hlead⟩
    · rw [Forest.rewrite_placing_nil h.plain]
      exact Or.inr ⟨g, rfl, hlead⟩
    · exact Or.inl hlead
  | none =>
    have hanchor : F.Anchors (.first l.body) := ⟨a, l, hl, rfl⟩
    obtain ⟨k', hrun, hplaces⟩ := h.insert_op hanchor (i := .barrier) rfl rfl
    have hnone : ∀ g, ¬F.Leads a g := by
      intro g hlead
      rw [(h.leadingBarrier?_eq_some_iff hl).mpr hlead] at hg
      cases hg
    obtain ⟨B, hB⟩ := Forest.exists_holds h.plain hl
    have hlead : (F.rewrite (.placing (.first l.body) [(k.nextOp, .barrier)])).Leads a k.nextOp := by
      have hrw := hB.rewrite (R := .placing (.first l.body) [(k.nextOp, .barrier)])
      rw [Rewriting.top_placing, if_pos rfl] at hrw
      exact ⟨_, _, hrw⟩
    refine ⟨⟨k.nextOp, true⟩, k', .first l.body, [(k.nextOp, .barrier)], ?_, { hplaces with
      barriers := ?_, opens := Or.inl ⟨rfl, hnone⟩, reopens := Or.inr ⟨k.nextOp, rfl, hlead⟩ },
      Or.inr ⟨rfl, [], rfl⟩, rfl⟩
    · refine hloop.bind (Transform.does_currentKernel.bind ?_)
      rw [hg]
      exact (Transform.does_edit hrun).bind ((Transform.does_record _ _ _).bind (Transform.does_pure _))
    · intro n hn
      rw [List.mem_singleton.mp hn]

theorem Stores.guardFor (h : Stores k F) (hl : (a, .loop l) ∈ F.nodes) (policy : Policy) (ty : BufferType)
    (n : Nat) :
    ∃ guard k' p ns, Transform.Does (Transform.guardFor policy ty a n) k guard k' ∧ Prepares k k' F a l p ns ∧
      guard.isSome = policy.needsGuard k ty a n ∧
      (∀ g, guard = some g → F.Headed a l p ns g.op) ∧ ns = Guard.nodes guard := by
  cases hneeds : policy.needsGuard k ty a n with
  | true =>
    obtain ⟨guard, k', p, ns, hdoes, hprepares, hlead, hnew⟩ := h.leadWithBarrier hl
    refine ⟨some guard, k', p, ns, ?_, hprepares, rfl, fun g hg => ?_, hnew⟩
    · refine Transform.does_currentKernel.bind ?_
      rw [if_pos hneeds]
      exact hdoes.bind (Transform.does_pure _)
    · cases hg
      exact hlead
  | false =>
    obtain ⟨p, hprepares⟩ := h.prepares_nil hl
    refine ⟨none, k, p, [], ?_, hprepares, rfl, fun g hg => (by cases hg), rfl⟩
    refine Transform.does_currentKernel.bind ?_
    rw [if_neg (by rw [hneeds]; exact Bool.false_ne_true)]
    exact Transform.does_pure _

/-- What becomes of the barrier of a set whose slot count changes: it stays, or it goes because nothing needs it. -/
def Clears (policy : Policy) (set : SlotSet) (n : Nat) (k k₀ : Kernel) (F F₀ : Forest) : Prop :=
  (k₀ = k ∧ F₀ = F) ∨ ∃ g, set.guard = some g ∧ (g.op, .barrier) ∈ F.nodes ∧
    k.otherNeedsGuard policy set.loop set.selector = false ∧ policy.needsGuard k set.ty set.loop n = false ∧
    F₀ = F.rewrite (.dropping [g.op]) ∧ Becomes k k₀ F (.dropping [g.op]) ∧ k₀.ops.size = k.ops.size

theorem Clears.stores {policy : Policy} {set : SlotSet} {n : Nat} {k₀ : Kernel} {F₀ : Forest} (h : Stores k F)
    (hclears : Clears policy set n k k₀ F F₀) : Stores k₀ F₀ := by
  rcases hclears with ⟨rfl, rfl⟩ | ⟨g, -, -, -, -, rfl, hbecomes, -⟩
  · exact h
  · exact hbecomes.stores

theorem Clears.loop_mem {policy : Policy} {set : SlotSet} {n : Nat} {k₀ : Kernel} {F₀ : Forest} (h : Stores k F)
    (hclears : Clears policy set n k k₀ F F₀) (hl : (a, .loop l) ∈ F.nodes) : (a, .loop l) ∈ F₀.nodes := by
  rcases hclears with ⟨-, rfl⟩ | ⟨g, -, -, -, -, rfl, -, -⟩
  · exact hl
  · refine (Forest.mem_nodes_rewrite h.plain).mpr ⟨_, hl, ?_⟩
    rw [(Rewriting.local_dropping _).image_of_loop]
    exact List.mem_singleton_self _

/-- The guard of a set whose slot count becomes `n`: one that is needed stays or is made, one that was put there for
the set goes when nothing needs it. -/
structure Renews (policy : Policy) (set : SlotSet) (n : Nat) (k : Kernel) (F₀ : Forest) (guard : Option Guard)
    (ns : List Node) : Prop where
  needed : guard.isSome = policy.needsGuard k set.ty set.loop n
  kept : policy.needsGuard k set.ty set.loop n = true → ∀ g, set.guard = some g → guard = some g
  inserted : ∀ m ∈ ns, guard = some ⟨m.1, true⟩
  dropped : policy.needsGuard k set.ty set.loop n = false → ∀ g, set.guard = some g → g.inserted = true →
    k.otherNeedsGuard policy set.loop set.selector = false → g.op ∉ F₀.ids

theorem renews_none {policy : Policy} {set : SlotSet} {n : Nat} {F₀ : Forest}
    (hneeds : policy.needsGuard k set.ty set.loop n = false)
    (hdropped : ∀ g, set.guard = some g → g.inserted = true →
      k.otherNeedsGuard policy set.loop set.selector = false → g.op ∉ F₀.ids) :
    Renews policy set n k F₀ none [] where
  needed := hneeds.symm
  kept htrue := absurd (htrue.symm.trans hneeds) nofun
  inserted := by simp
  dropped _ := hdropped

theorem Stores.renewGuard_of_needed (h : Stores k F) {set : SlotSet} (hl : (set.loop, .loop l) ∈ F.nodes)
    {policy : Policy} {n : Nat} (hneeds : policy.needsGuard k set.ty set.loop n = true) :
    ∃ guard k' p ns, Transform.Does (Transform.renewGuard policy set n) k guard k' ∧
      Prepares k k' F set.loop l p ns ∧ Renews policy set n k F guard ns ∧
      ∀ g, guard = some g → set.guard = some g ∨ F.Headed set.loop l p ns g.op := by
  have hneeded : ¬policy.needsGuard k set.ty set.loop n = false := by simp [hneeds]
  cases hg : set.guard with
  | some guard =>
    obtain ⟨p, hprepares⟩ := h.prepares_nil hl
    refine ⟨some guard, k, p, [], Transform.does_renewGuard_stay hneeds hg, hprepares,
      ⟨hneeds.symm, fun _ g hg' => ?_, by simp, fun hfalse => absurd hfalse hneeded⟩, fun g hg' => Or.inl hg'⟩
    rw [← hg', hg]
  | none =>
    obtain ⟨guard, k', p, ns, hdoes, hprepares, hlead, hnew⟩ := h.leadWithBarrier hl
    refine ⟨some guard, k', p, ns, Transform.does_renewGuard_lead hneeds hg hdoes, hprepares, ⟨hneeds.symm,
      fun _ g hg' => ?_, fun m hm => Guard.eq_of_mem_nodes (hnew ▸ hm), fun hfalse => absurd hfalse hneeded⟩,
      fun g hg' => ?_⟩
    · rw [hg] at hg'
      cases hg'
    · cases hg'
      exact Or.inr hlead

theorem Stores.clearGuard (h : Stores k F) {set : SlotSet} {g : Guard} (hg : set.guard = some g)
    (hi : (g.op, .barrier) ∈ F.nodes) {policy : Policy} {n : Nat}
    (hneeds : policy.needsGuard k set.ty set.loop n = false)
    (hother : k.otherNeedsGuard policy set.loop set.selector = false) :
    ∃ k₀, Edit.erase g.op k = .ok () k₀ ∧ Clears policy set n k k₀ F (F.rewrite (.dropping [g.op])) ∧
      Renews policy set n k (F.rewrite (.dropping [g.op])) none [] := by
  obtain ⟨k₀, hrun, hstores, hsize, hvalues⟩ := h.erase hi rfl
  have hbecomes : Becomes k k₀ F (.dropping [g.op]) :=
    { extends_of_values (Nat.le_of_eq hsize.symm) hvalues with
      stores := hstores, flat := Rewriting.flat_dropping _ }
  refine ⟨k₀, hrun, Or.inr ⟨g, hg, hi, hother, hneeds, rfl, hbecomes, hsize⟩,
    renews_none hneeds fun g' hg' _ _ => ?_⟩
  rw [hg] at hg'
  cases hg'
  exact Forest.notMem_dropping h.plain h.nodup hi rfl (List.mem_singleton_self _)

theorem Stores.renewGuard (h : Stores k F) {set : SlotSet} (hl : (set.loop, .loop l) ∈ F.nodes)
    (hguard : ∀ g, set.guard = some g → ∀ i, (g.op, i) ∈ F.nodes → i = .barrier) (policy : Policy) (n : Nat) :
    (Transform.Refuses (Transform.renewGuard policy set n) k ∧ ∃ g, set.guard = some g ∧ g.op ∉ F.ids) ∨
      ∃ guard k₀ F₀ k' p ns, Transform.Does (Transform.renewGuard policy set n) k guard k' ∧
        Clears policy set n k k₀ F F₀ ∧ Prepares k₀ k' F₀ set.loop l p ns ∧ Renews policy set n k F₀ guard ns ∧
        ∀ g, guard = some g → set.guard = some g ∨ F₀.Headed set.loop l p ns g.op := by
  have hsame : Clears policy set n k k F F := Or.inl ⟨rfl, rfl⟩
  cases hneeds : policy.needsGuard k set.ty set.loop n with
  | true =>
    obtain ⟨guard, k', p, ns, hdoes, hprepares, hrenews, hlead⟩ := h.renewGuard_of_needed hl hneeds
    exact Or.inr ⟨guard, k, F, k', p, ns, hdoes, hsame, hprepares, hrenews, hlead⟩
  | false =>
    by_cases hgoes : ∃ g, set.guard = some g ∧ g.inserted = true ∧
        k.otherNeedsGuard policy set.loop set.selector = false
    · obtain ⟨g, hg, hins, hother⟩ := hgoes
      by_cases hlive : g.op ∈ F.ids
      · obtain ⟨i, hi⟩ := Forest.exists_mem_nodes hlive
        obtain rfl := hguard g hg i hi
        obtain ⟨k₀, hrun, hclears, hrenews⟩ := h.clearGuard hg hi hneeds hother
        obtain ⟨p, hprepares⟩ := (hclears.stores h).prepares_nil (hclears.loop_mem h hl)
        have hdoes := Transform.does_renewGuard_drop hneeds hg hins hother (Transform.does_edit hrun)
        exact Or.inr ⟨none, k₀, _, k₀, p, [], hdoes, hclears, hprepares, hrenews, nofun⟩
      · have hdead : ¬k.isLive g.op := fun hop => hlive (h.complete g.op hop)
        exact Or.inl ⟨Transform.refuses_renewGuard hneeds hg hins hother hdead, g, hg, hlive⟩
    · obtain ⟨p, hprepares⟩ := h.prepares_nil hl
      refine Or.inr ⟨none, k, F, k, p, [], Transform.does_renewGuard_leave hneeds hgoes, hsame, hprepares,
        renews_none hneeds fun g hg hins hother => ?_, nofun⟩
      exact absurd ⟨g, hg, hins, hother⟩ hgoes

theorem Prepares.bodyTop_eq (h : Stores k F) (hl : (a, .loop l) ∈ F.nodes) (hp : Prepares k k₁ F a l p ns) :
    k₁.bodyTop a = .ok (p.past (ns.map Prod.fst)) :=
  hp.stores.bodyTop_eq (loop_mem_placing h hl p ns) hp.reopens

theorem Prepares.deriveRotation (h : Stores k F) (hl : (a, .loop l) ∈ F.nodes) (hp : Prepares k k₁ F a l p ns)
    {n : Nat} (hn : n ≤ Int64.maxValue.toInt) :
    ∃ rotation rot k₂, Transform.Does (Transform.deriveRotation a n (p.past (ns.map Prod.fst))) k₁ rotation k₂ ∧
      Places k k₂ F p (ns ++ rot) ∧ Rotates F l n rot rotation.value ∧ rotation.ops = rot.map Prod.fst ∧
      rotation.factor = n := by
  have hl₁ := loop_mem_placing h hl p ns
  obtain ⟨rotation, rot, k₂, hrun, hplaces, hrot, hops, hfactor⟩ :=
    hp.stores.addRotation (hp.reopens.anchors hl₁) l hn
  refine ⟨rotation, rot, k₂, ?_, hp.toPlaces.append h hplaces, hrot.of_placing h.plain fun d v c hd => ?_, hops,
    hfactor⟩
  · refine (Transform.does_query (hp.stores.getLoop_eq hl₁)).bind ((Transform.does_edit hrun).bind ?_)
    exact (Transform.does_record _ _ _).bind (Transform.does_pure _)
  · cases hp.barriers _ hd

end Kernel
end SlotRotation
