import MiniC.Code.Buffer
import MiniC.Code.Routines
import MiniC.Syntax

/-!
# Code of expressions

The code of an expression leaves its value in the accumulator. It keeps temporary values in the
cells of the frame from a given offset downwards. It is written to a buffer at the cursor: jumps to
fixed addresses are relative to it, and a jump over code that is still to be written has a slot kept
for it.

An array is a row of cells above a cell that holds its length; its value is the address of that
cell.
-/

namespace MiniC

/-- The functions whose addresses are known, the latest first. -/
abbrev Entries := List (String × Nat)

/-- How calls are linked. While addresses are still being collected, a call of an unknown function
is linked to the place of the call; afterwards it is a fault. -/
structure Linker where
  entries : Entries
  strict : Bool

/-- The address to call, for a call whose sequence starts at `address`. -/
def Linker.entry (k : Linker) (callee : String) (address : Nat) : Except CodeFault Nat :=
  match k.entries.lookup callee with
  | some entry => .ok entry
  | none => if k.strict then .error (.neverDefined callee) else .ok address

/-- An offset below the frame base, which must fit into an instruction. -/
def lowered (offset : Int) (n : Nat) : Except CodeFault Int :=
  fit32 (offset - n)

namespace VarUse

/-- The storage of a variable and the register it is relative to. -/
def storage (v : VarUse) : Except CodeFault (Layout × Reg) :=
  match v.layout with
  | some layout => .ok (layout, if layout.isGlobal then .gp else .fp)
  | none => .error (.noStorage v.name)

/-- Loads the value of a variable, which for an array is its address. -/
def load (v : VarUse) (r : Reg) : Except CodeFault Instr := do
  let (layout, base) ← v.storage
  match layout.storage with
  | .scalar => return .rm .ld r layout.offset base s!"load {v.name}"
  | .array => return .rm .lda r layout.offset base s!"load address of {v.name}"
  | .arrayRef => return .rm .ld r layout.offset base s!"load reference {v.name}"

/-- Stores the accumulator in the cell of a variable. -/
def store (v : VarUse) : Except CodeFault Instr := do
  let (layout, base) ← v.storage
  return .rm .st .ac layout.offset base s!"assign: store {v.name}"

/-- Turns the index in the accumulator into the address of the element, after checking it against
both bounds. -/
def elementAddress (v : VarUse) (start : Nat) : Except CodeFault (List Instr) := do
  let load ← v.load .ac1
  let tooLarge ← Instr.relative .jge .ac1 (start + 3) (faultEntry .upper) "index too large"
  let negative ← Instr.relative .jlt .ac (start + 4) (faultEntry .lower) "index negative"
  return [load,
    .rm .ld .ac1 0 .ac1 "load array length",
    .ro .sub .ac1 .ac .ac1 "index - length",
    tooLarge,
    negative,
    load,
    .ro .add .ac .ac1 .ac "base + index",
    .rm .lda .ac 1 .ac "skip length cell"]

end VarUse

/-- Replaces the accumulator by one if the jump would be taken on it, and by zero otherwise. -/
def truthValue (jump : Opcode) (what : String) : List Instr :=
  [.rm jump .ac 2 .pc s!"{what}: true case",
   .rm .ldc .ac 0 .unused "false case",
   .rm .lda .pc 1 .pc "unconditional jump",
   .rm .ldc .ac 1 .unused "true case"]

/-- How the operands of a binary operator, in both accumulators, are combined. -/
inductive Combination where
  /-- By an operation of the machine. -/
  | operation (op : Opcode)
  /-- By the sign of their difference. -/
  | comparison (jump : Opcode)
  /-- Not at all: the right operand is skipped if the jump is taken on the left one. -/
  | shortCircuit (jump : Opcode) (comment : String)

/-- The combination of each operator. -/
def BinaryOp.combination : BinaryOp → Combination
  | .add => .operation .add
  | .sub => .operation .sub
  | .mul => .operation .mul
  | .div => .operation .div
  | .less => .comparison .jlt
  | .lessEqual => .comparison .jle
  | .greater => .comparison .jgt
  | .greaterEqual => .comparison .jge
  | .equal => .comparison .jeq
  | .notEqual => .comparison .jne
  | .and => .shortCircuit .jeq "and: short circuit"
  | .or => .shortCircuit .jne "or: short circuit"

/-- Copies `n` arguments, stored from `offset` downwards, to the parameter cells of the frame
below them. -/
def copyArguments (offset : Int) (n : Nat) : List Instr :=
  (List.range n).flatMap fun (i : Nat) =>
    [.rm .ld .ac (offset - i) .fp "call: load argument",
     .rm .st .ac (offset - n - 2 - i) .fp "call: store parameter"]

/-- Enters a function with the frame base at `frame`, and restores the own frame afterwards. -/
def callSequence (frame : Int) (jump : Instr) : List Instr :=
  [.rm .st .fp (frame + savedFrameOffset) .fp "push ofp",
   .rm .lda .fp frame .fp "push frame",
   .rm .lda .ac 1 .pc "load ac with ret ptr",
   jump,
   .rm .ld .fp savedFrameOffset .fp "pop frame"]

mutual

/-- Writes the code of an expression at the cursor, with temporary cells from `offset` down. A jump
over an operand gets a slot in front of the operand, which is filled when its end is known. -/
def Exp.emit (k : Linker) (offset : Int) (b : CodeBuffer) : Exp → Except CodeFault CodeBuffer
  | .int _ value => return b.emit (.rm .ldc .ac value .unused "load constant")
  | .bool _ value => return b.emit (.rm .ldc .ac (if value then 1 else 0) .unused "load boolean")
  | .nil _ => return b
  | .unary _ _ op operand => do
    let b ← operand.emit k offset b
    match op with
    | .neg =>
      return b.emitAll
        [.rm .ldc .ac1 0 .unused "load 0", .ro .sub .ac .ac1 .ac "negate"]
    | .not => return b.emitAll (truthValue .jeq "not")
  | .binary _ _ op lhs rhs => do
    let b ← lhs.emit k offset b
    match op.combination with
    | .shortCircuit jump comment => do
      let slot := b.cursor
      let b ← rhs.emit k offset (b.reserve 1)
      b.patch slot jump .ac b.cursor comment
    | .operation operation => do
      let lower ← lowered offset 1
      let b ← rhs.emit k lower (b.emit (.rm .st .ac offset .fp "op: push left"))
      return b.emitAll
        [.rm .ld .ac1 offset .fp "op: load left",
         .ro operation .ac .ac1 .ac s!"op {op.symbol}"]
    | .comparison jump => do
      let lower ← lowered offset 1
      let b ← rhs.emit k lower (b.emit (.rm .st .ac offset .fp "op: push left"))
      return b.emitAll
        (.rm .ld .ac1 offset .fp "op: load left" ::
         .ro .sub .ac .ac1 .ac s!"op {op.symbol}" :: truthValue jump op.symbol)
  | .var _ v => return b.emit (← v.load .ac)
  | .element _ v index => do
    let b ← index.emit k offset b
    let b := b.emitAll (← v.elementAddress b.cursor)
    return b.emit (.rm .ld .ac 0 .ac s!"load {v.name}[]")
  | .assign _ _ v value => do
    let b ← value.emit k offset b
    return b.emit (← v.store)
  | .assignElement _ _ v index value => do
    let b ← index.emit k offset b
    let b := b.emitAll (← v.elementAddress b.cursor)
    let lower ← lowered offset 1
    let b ← value.emit k lower (b.emit (.rm .st .ac offset .fp "assign: push address"))
    return b.emitAll
      [.rm .ld .ac1 offset .fp "assign: load address",
       .rm .st .ac 0 .ac1 s!"assign: store {v.name}[]"]
  | .call _ _ callee args => do
    let b ← Exp.emitArguments k offset b args
    let n := args.length
    let _ ← lowered offset (2 * n + 1)
    let b := b.emitAll (copyArguments offset n)
    let entry ← k.entry callee b.cursor
    let jump ← Instr.relative .lda .pc (b.cursor + 3) entry s!"jump to {callee}"
    return b.emitAll (callSequence (offset - n) jump)

/-- Evaluates arguments from left to right and stores each, from `offset` downwards. -/
def Exp.emitArguments (k : Linker) (offset : Int) (b : CodeBuffer) :
    List Exp → Except CodeFault CodeBuffer
  | [] => return b
  | e :: rest => do
    let lower ← lowered offset 1
    let b ← e.emit k lower b
    Exp.emitArguments k lower (b.emit (.rm .st .ac offset .fp "call: store argument")) rest

end

end MiniC
