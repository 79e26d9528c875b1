import SlotRotation.Kernel.Edit

/-! Kernels as trees of statements. Building numbers values and ops in the order of the tree: a loop takes its
region and its induction value before its body, the body ends with a yield, and the op of the loop comes after all
of these. -/

namespace SlotRotation

inductive Stmt where
  | constant (value : Int64)
  | arith (op : ArithOp) (lhs rhs : ValueId)
  | alloc (ty : BufferType) (multibuffer remultibuffer : Option Int64)
  | dealloc (buffer : ValueId)
  | load (buffer : ValueId) (indices : List ValueId)
  | store (value buffer : ValueId) (indices : List ValueId)
  | fill (buffer value : ValueId)
  | copy (source target : ValueId)
  | compute (name : String) (inputs outputs : List ValueId)
  | barrier
  | ret
  | loop (lower upper step : ValueId) (depth : Option UInt32) (body : List Stmt)

/-- What a statement is known by once it is built: its value, or its op if it has none. A loop body is known by its
region and induction value when it is entered. -/
inductive Handle where
  | value (value : ValueId)
  | op (op : OpId)
  | body (region : RegionId) (induction : ValueId)
deriving DecidableEq

namespace Kernel

def appendValue (k : Kernel) (region : RegionId) (ty : ValueType) (instr : ValueId → Instr) :
    Kernel × List Handle :=
  let result : ValueId := ⟨k.values.size⟩
  ((k.addValue ty).append (instr result) region, [.value result])

def appendOp (k : Kernel) (region : RegionId) (instr : Instr) : Kernel × List Handle :=
  (k.append instr region, [.op k.nextOp])

def loadType (k : Kernel) (buffer : ValueId) : ValueType :=
  (((k.typeOf? buffer).bind ValueType.buffer?).map BufferType.scalar).getD .index

mutual

def emit (region : RegionId) : Stmt → Kernel → Kernel × List Handle
  | .constant value, k => k.appendValue region .index (.constant · value)
  | .arith op lhs rhs, k => k.appendValue region .index (.arith · op lhs rhs)
  | .alloc ty multibuffer remultibuffer, k =>
    k.appendValue region (.buffer ty) fun result => .alloc { result, ty, multibuffer, remultibuffer }
  | .dealloc buffer, k => k.appendOp region (.dealloc buffer)
  | .load buffer indices, k => k.appendValue region (k.loadType buffer) (.load · buffer indices)
  | .store value buffer indices, k => k.appendOp region (.store value buffer indices)
  | .fill buffer value, k => k.appendOp region (.fill buffer value)
  | .copy source target, k => k.appendOp region (.copy source target)
  | .compute name inputs outputs, k => k.appendOp region (.compute name inputs outputs)
  | .barrier, k => k.appendOp region .barrier
  | .ret, k => k.appendOp region .ret
  | .loop lower upper step depth stmts, k =>
    let body : RegionId := ⟨k.regions.size⟩
    let induction : ValueId := ⟨k.values.size⟩
    let (k, inner) := emitAll body stmts (k.addRegion.addValue .index)
    let (k, last) := (k.append .yield body).appendOp region
      (.loop { induction, lower, upper, step, body, depth })
    (k, .body body induction :: inner ++ last)

def emitAll (region : RegionId) : List Stmt → Kernel → Kernel × List Handle
  | [], k => (k, [])
  | stmt :: stmts, k =>
    let (k, handles) := emit region stmt k
    let (k, rest) := emitAll region stmts k
    (k, handles ++ rest)

end

def buildWithHandles (name : String) (location : Location) (stmts : List Stmt) : Kernel × List Handle :=
  emitAll body stmts { name, location }

def build (name : String) (location : Location) (stmts : List Stmt) : Kernel :=
  (buildWithHandles name location stmts).1

end Kernel
end SlotRotation
