import SlotRotation.Kernel.Stmt
import SlotRotation.Proofs.Visibility

/-! Scoping in one pass. A walk over statements carries the values that can be read: each result joins them for what
follows on its own list, and the body of a loop has the induction value besides what the loop itself can read. The
same walk over a forest finds a fault exactly if some operand is not in the scope of its definition. -/

namespace SlotRotation

def Handle.value? : Handle → Option ValueId
  | value v | body _ v => some v
  | op _ => none

namespace Stmt

def operands : Stmt → List ValueId
  | constant _ | alloc .. | barrier | ret => []
  | arith _ lhs rhs => [lhs, rhs]
  | dealloc buffer => [buffer]
  | load buffer indices => buffer :: indices
  | store value buffer indices => value :: buffer :: indices
  | fill buffer value => [buffer, value]
  | copy source target => [source, target]
  | compute _ inputs outputs => inputs ++ outputs
  | loop lower upper step _ _ => [lower, upper, step]

def result? (next : Nat) : Stmt → Option ValueId
  | constant _ | arith .. | alloc .. | load .. => some ⟨next⟩
  | _ => none

mutual

def valueCount : Stmt → Nat
  | constant _ | arith .. | alloc .. | load .. => 1
  | loop _ _ _ _ body => valueCountAll body + 1
  | _ => 0

def valueCountAll : List Stmt → Nat
  | [] => 0
  | stmt :: stmts => stmt.valueCount + valueCountAll stmts

end

mutual

/-- All that is read by a statement and in it can be read there, where `scope` can be read at the statement. -/
def Scoped (scope : List ValueId) (next : Nat) : Stmt → Prop
  | loop lower upper step _ body =>
    (∀ v ∈ [lower, upper, step], v ∈ scope) ∧ ScopedAll (⟨next⟩ :: scope) (next + 1) body
  | stmt => ∀ v ∈ stmt.operands, v ∈ scope

def ScopedAll (scope : List ValueId) (next : Nat) : List Stmt → Prop
  | [] => True
  | stmt :: stmts =>
    stmt.Scoped scope next ∧ ScopedAll ((stmt.result? next).toList ++ scope) (next + stmt.valueCount) stmts

end

mutual

def decideScoped (scope : List ValueId) (next : Nat) : (stmt : Stmt) → Decidable (stmt.Scoped scope next)
  | loop lower upper step _ body =>
    have := decideScopedAll (⟨next⟩ :: scope) (next + 1) body
    inferInstanceAs (Decidable ((∀ v ∈ [lower, upper, step], v ∈ scope) ∧
      ScopedAll (⟨next⟩ :: scope) (next + 1) body))
  | constant _ | alloc .. | barrier | ret | arith .. | dealloc _ | load .. | store .. | fill .. | copy .. 
  | compute .. =>
    inferInstanceAs (Decidable (∀ v ∈ operands _, v ∈ scope))

def decideScopedAll (scope : List ValueId) (next : Nat) :
    (stmts : List Stmt) → Decidable (ScopedAll scope next stmts)
  | [] => inferInstanceAs (Decidable True)
  | stmt :: stmts =>
    have := stmt.decideScoped scope next
    have := decideScopedAll ((stmt.result? next).toList ++ scope) (next + stmt.valueCount) stmts
    inferInstanceAs (Decidable (stmt.Scoped scope next ∧ _))

end

def WellScoped (stmts : List Stmt) : Prop := ScopedAll [] 0 stmts

instance (stmts : List Stmt) : Decidable (WellScoped stmts) := decideScopedAll [] 0 stmts

end Stmt

namespace Forest

/-- All that is read in the forest can be read there, where `scope` can be read ahead of it. -/
def Lexical : Forest → List ValueId → Prop
  | nil, _ => True
  | op _ i rest, scope => (∀ v ∈ i.operands, v ∈ scope) ∧ rest.Lexical (i.result?.toList ++ scope)
  | loop _ l body rest, scope =>
    (∀ v ∈ (Instr.loop l).operands, v ∈ scope) ∧ body.Lexical (l.induction :: scope) ∧ rest.Lexical scope

def behind : Forest → List ValueId → List ValueId
  | nil, scope => scope
  | op _ i rest, scope => rest.behind (i.result?.toList ++ scope)
  | loop _ _ _ rest, scope => rest.behind scope

/-- The value can be read at `u`: ahead of the forest already, or as the result of an op in whose scope `u` is. -/
def Readable (F : Forest) (scope : List ValueId) (v : ValueId) (u : OpId) : Prop :=
  v ∈ scope ∨ ∃ d ∈ F.nodes, d.2.result? = some v ∧ F.InScope d.1 u

section
variable {F G : Forest} {scope : List ValueId} {v : ValueId} {id u : OpId} {i : Instr} {l : Loop}
  {body rest : Forest}

theorem readable_of_not_inScope (hu : ∀ d, ¬F.InScope d u) : F.Readable scope v u ↔ v ∈ scope :=
  or_iff_left fun ⟨_, _, _, h⟩ => hu _ h

theorem mem_nodes_part (hF : F.ids.Nodup) (hG : ∀ n ∈ G.nodes, n ∈ F.nodes) {n : Node} (hn : n ∈ F.nodes)
    (hid : n.1 ∈ G.ids) : n ∈ G.nodes := by
  obtain ⟨j, hj⟩ := exists_mem_nodes hid
  rwa [node_unique hF (hG _ hj) hn] at hj

theorem readable_op_iff (hF : (op id i rest).ids.Nodup) (hu : u ∈ rest.ids) :
    (op id i rest).Readable scope v u ↔ rest.Readable (i.result?.toList ++ scope) v u := by
  have hpart : ∀ n ∈ rest.nodes, n ∈ (op id i rest).nodes := fun _ => List.mem_cons_of_mem _
  simp only [Readable, List.mem_append, Option.mem_toList]
  constructor
  · rintro (hv | ⟨d, hd, hres, ⟨rfl, -⟩ | hs⟩)
    · exact Or.inl (Or.inr hv)
    · rw [node_unique hF hd List.mem_cons_self] at hres
      exact Or.inl (Or.inl hres)
    · exact Or.inr ⟨d, mem_nodes_part hF hpart hd hs.left_mem, hres, hs⟩
  · rintro ((hres | hv) | ⟨d, hd, hres, hs⟩)
    · exact Or.inr ⟨_, List.mem_cons_self, hres, Or.inl ⟨rfl, hu⟩⟩
    · exact Or.inl hv
    · exact Or.inr ⟨d, hpart d hd, hres, Or.inr hs⟩

theorem readable_body_iff (hF : (loop id l body rest).ids.Nodup) (hu : u ∈ body.ids) :
    (loop id l body rest).Readable scope v u ↔ body.Readable (l.induction :: scope) v u := by
  obtain ⟨-, -, -, -, hdis⟩ := nodup_loop hF
  have hpart : ∀ n ∈ body.nodes, n ∈ (loop id l body rest).nodes := fun _ hn =>
    List.mem_cons_of_mem _ (List.mem_append_left _ hn)
  simp only [Readable, List.mem_cons]
  constructor
  · rintro (hv | ⟨d, hd, hres, ⟨rfl, -⟩ | hs | hs⟩)
    · exact Or.inl (Or.inr hv)
    · rw [node_unique hF hd List.mem_cons_self] at hres
      exact Or.inl (Or.inl (Option.some.inj hres).symm)
    · exact Or.inr ⟨d, mem_nodes_part hF hpart hd hs.left_mem, hres, hs⟩
    · exact absurd hs.right_mem (hdis u hu)
  · rintro ((rfl | hv) | ⟨d, hd, hres, hs⟩)
    · exact Or.inr ⟨_, List.mem_cons_self, rfl, Or.inl ⟨rfl, hu⟩⟩
    · exact Or.inl hv
    · exact Or.inr ⟨d, hpart d hd, hres, Or.inr (Or.inl hs)⟩

theorem readable_rest_iff (hF : (loop id l body rest).ids.Nodup) (hu : u ∈ rest.ids) :
    (loop id l body rest).Readable scope v u ↔ rest.Readable scope v u := by
  obtain ⟨-, -, -, -, hdis⟩ := nodup_loop hF
  have hbody : u ∉ body.ids := fun h => hdis u h hu
  have hpart : ∀ n ∈ rest.nodes, n ∈ (loop id l body rest).nodes := fun _ hn =>
    List.mem_cons_of_mem _ (List.mem_append_right _ hn)
  refine or_congr_right ⟨?_, ?_⟩
  · rintro ⟨d, hd, hres, ⟨-, h⟩ | hs | hs⟩
    · exact absurd h hbody
    · exact absurd hs.right_mem hbody
    · exact ⟨d, mem_nodes_part hF hpart hd hs.left_mem, hres, hs⟩
  · rintro ⟨d, hd, hres, hs⟩
    exact ⟨d, hpart d hd, hres, Or.inr (Or.inr hs)⟩

end

theorem not_inScope_head_op {id d : OpId} {i : Instr} {rest : Forest} (hF : (op id i rest).ids.Nodup) :
    ¬(op id i rest).InScope d id := by
  obtain ⟨hid, -⟩ := nodup_op hF
  rintro (⟨-, h⟩ | h)
  · exact hid h
  · exact hid h.right_mem

theorem not_inScope_head_loop {id d : OpId} {l : Loop} {body rest : Forest} (hF : (loop id l body rest).ids.Nodup) :
    ¬(loop id l body rest).InScope d id := by
  obtain ⟨hidb, hidr, -⟩ := nodup_loop hF
  rintro (⟨-, h⟩ | h | h)
  · exact hidb h
  · exact hidb h.right_mem
  · exact hidr h.right_mem

/-- The walk carries along the results of the ops in whose scope it is. -/
theorem lexical_iff {F : Forest} (hF : F.ids.Nodup) {scope : List ValueId} :
    F.Lexical scope ↔ ∀ n ∈ F.nodes, ∀ v ∈ n.2.operands, F.Readable scope v n.1 := by
  induction F generalizing scope with
  | nil => simp [Lexical, nodes]
  | op id i rest ih =>
    rw [Lexical, ih (nodup_op hF).2, nodes, List.forall_mem_cons]
    refine and_congr (forall₂_congr fun v _ => ?_) (forall₂_congr fun n hn => forall₂_congr fun v _ => ?_)
    · exact (readable_of_not_inScope fun _ => not_inScope_head_op hF).symm
    · exact (readable_op_iff hF (mem_ids_of_mem_nodes hn)).symm
  | loop id l body rest ihb ihr =>
    obtain ⟨-, -, hb, hr, -⟩ := nodup_loop hF
    rw [Lexical, ihb hb, ihr hr, nodes, List.forall_mem_cons, List.forall_mem_append]
    refine and_congr (forall₂_congr fun v _ => ?_) (and_congr (forall₂_congr fun n hn => forall₂_congr fun v _ => ?_)
      (forall₂_congr fun n hn => forall₂_congr fun v _ => ?_))
    · exact (readable_of_not_inScope fun _ => not_inScope_head_loop hF).symm
    · exact (readable_body_iff hF (mem_ids_of_mem_nodes hn)).symm
    · exact (readable_rest_iff hF (mem_ids_of_mem_nodes hn)).symm

theorem scoped_iff_lexical {F : Forest} (hF : F.ids.Nodup) : F.Scoped ↔ F.Lexical [] := by
  simp only [lexical_iff hF, Scoped, Readable, List.not_mem_nil, false_or]

end Forest
end SlotRotation
