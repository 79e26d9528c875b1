import SlotRotation.Kernel.Nesting

/-! The text of a kernel: one line per live op, two blanks per level. -/

namespace SlotRotation

def commaSeparated (values : List ValueId) : String := ", ".intercalate (values.map toString)

def attributes (entries : List String) : String :=
  if entries.isEmpty then "" else " \x7b" ++ ", ".intercalate entries ++ "\x7d"

def Alloc.attributes (alloc : Alloc) : List String :=
  (alloc.multibuffer.map fun factor => s!"multibuffer = {factor.toInt}").toList ++
    (alloc.remultibuffer.map fun factor => s!"remultibuffer = {factor.toInt}").toList

/-- The line of an op; of a loop, the line without its opening brace. -/
def Instr.text : Instr → String
  | alloc a => s!"{a.result} = alloc : {a.ty}" ++ SlotRotation.attributes a.attributes
  | dealloc buffer => s!"dealloc {buffer}"
  | constant result value => s!"{result} = constant {value.toInt}"
  | arith result op lhs rhs => s!"{result} = {op} {lhs}, {rhs}"
  | loop l =>
    s!"for {l.induction} = {l.lower} to {l.upper} step {l.step}" ++
      SlotRotation.attributes (l.depth.map fun depth => s!"pipeline_depth = {depth}").toList
  | load result buffer indices => s!"{result} = load {buffer}[{commaSeparated indices}]"
  | store value buffer indices => s!"store {value}, {buffer}[{commaSeparated indices}]"
  | fill buffer value => s!"fill {buffer}, {value}"
  | copy source target => s!"copy {source} -> {target}"
  | compute name inputs outputs =>
    s!"compute \"{name}\" ins({commaSeparated inputs}) outs({commaSeparated outputs})"
  | selectSlot result slots index => s!"{result} = select_slot [{commaSeparated slots}][{index}]"
  | instr => instr.mnemonic

namespace Kernel

def indent (depth : Nat) (line : String) : String := String.join (List.replicate depth "  ") ++ line

def linesWithin (k : Kernel) : Nat → Nat → RegionId → List String
  | 0, _, _ => []
  | n + 1, depth, region => (k.regionOps region).flatMap fun id =>
    match k.instr? id with
    | some (.loop l) =>
      [indent depth (Instr.text (.loop l) ++ " \x7b")] ++ k.linesWithin n (depth + 1) l.body ++
        [indent depth "\x7d"]
    | some instr => [indent depth instr.text]
    | none => []

def lines (k : Kernel) : List String := k.linesWithin k.regions.size 1 body

def render (k : Kernel) : String :=
  let head := s!"func @{k.name}() {k.location}" ++ " \x7b"
  String.join (([head] ++ k.lines ++ ["\x7d"]).map (· ++ "\n"))

end Kernel
end SlotRotation
