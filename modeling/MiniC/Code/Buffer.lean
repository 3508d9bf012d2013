import MiniC.Code.Fault
import MiniC.Code.Instruction

/-!
# Code buffers

A buffer of instructions that can be written out of order: slots are kept free and filled later,
when the address that a jump in them needs is known. Instructions go to the cursor, which stands
behind the last slot except while an earlier slot is being filled.

Jumps are written relative to the program counter, which is one past the jump when the machine
executes it.
-/

namespace MiniC

/-- The lowest number of a 32-bit field. -/
def minInt32 : Int := -2147483648

/-- The highest number of a 32-bit field. -/
def maxInt32 : Int := 2147483647

/-- A number that fits a 32-bit field. -/
def fit32 (n : Int) : Except CodeFault Int :=
  if minInt32 ≤ n ∧ n ≤ maxInt32 then .ok n else .error .outOfRange

/-- The lower 32 bits of an address, read as a signed number. -/
def low32 (address : Nat) : Int :=
  Int.bmod address 4294967296

/-- The displacement from the instruction behind `address` to `target`. -/
def displacement (address target : Nat) : Except CodeFault Int := do
  let behind ← fit32 (low32 address + 1)
  fit32 (low32 target - behind)

/-- An instruction that names `target` relative to its own address. -/
def Instr.relative (op : Opcode) (r : Reg) (address target : Nat) (comment : String) :
    Except CodeFault Instr :=
  return .rm op r (← displacement address target) .pc comment

/-- A buffer: its slots, of which some may be free, and the address of the next instruction. -/
structure CodeBuffer where
  slots : Array (Option Instr)
  cursor : Nat

namespace CodeBuffer

/-- A buffer without slots. -/
def empty : CodeBuffer :=
  ⟨#[], 0⟩

/-- The address behind the last slot. -/
def highWater (b : CodeBuffer) : Nat :=
  b.slots.size

/-- Writes an instruction at the cursor, over what stood there. -/
def emit (b : CodeBuffer) (i : Instr) : CodeBuffer :=
  if b.cursor < b.slots.size then ⟨b.slots.setIfInBounds b.cursor (some i), b.cursor + 1⟩
  else ⟨b.slots.push (some i), b.cursor + 1⟩

/-- Writes instructions one after the other. -/
def emitAll (b : CodeBuffer) (code : List Instr) : CodeBuffer :=
  code.foldl emit b

/-- Writes a register-only instruction. -/
def emitRo (b : CodeBuffer) (op : Opcode) (r s t : Reg) (comment : String) :
    Except CodeFault CodeBuffer :=
  if op.isRegisterOnly then .ok (b.emit (.ro op r s t comment)) else .error .wrongForm

/-- Writes a register-memory instruction. -/
def emitRm (b : CodeBuffer) (op : Opcode) (r : Reg) (d : Int) (s : Reg) (comment : String) :
    Except CodeFault CodeBuffer :=
  if op.isRegisterOnly then .error .wrongForm else .ok (b.emit (.rm op r d s comment))

/-- Writes an instruction that names `target` relative to the cursor. -/
def emitRelative (b : CodeBuffer) (op : Opcode) (r : Reg) (target : Nat) (comment : String) :
    Except CodeFault CodeBuffer := do
  b.emitRm op r (← displacement b.cursor target) .pc comment

/-- Moves the cursor over `n` slots; those behind the end are new and free. -/
def reserve (b : CodeBuffer) (n : Nat) : CodeBuffer :=
  ⟨b.slots ++ Array.replicate (b.cursor + n - b.slots.size) none, b.cursor + n⟩

/-- The number of slots from which on no buffer can be had, `2 ^ 58`: a slot takes 32 bytes, and the
bytes of a buffer are counted by a signed 64-bit number. -/
def slotLimit : Nat := 288230376151711744

/-- Moves the cursor over `n` slots, if a buffer can have so many. -/
def tryReserve (b : CodeBuffer) (n : Nat) : Except CodeFault CodeBuffer :=
  if b.cursor + n < slotLimit then .ok (b.reserve n) else .error .tooManySlots

/-- Sets the cursor to an address up to the end of the buffer. -/
def rewind (b : CodeBuffer) (address : Nat) : Except CodeFault CodeBuffer :=
  if b.highWater < address then .error (.rewindBeyond address b.highWater)
  else .ok { b with cursor := address }

/-- Sets the cursor behind the last slot. -/
def resume (b : CodeBuffer) : CodeBuffer :=
  { b with cursor := b.highWater }

/-- Fills a slot with an instruction that names `target`, and goes on behind the last slot. -/
def patch (b : CodeBuffer) (slot : Nat) (op : Opcode) (r : Reg) (target : Nat)
    (comment : String) : Except CodeFault CodeBuffer := do
  return (← (← b.rewind slot).emitRelative op r target comment).resume

/-- The instructions of the slots from an address on; the first free slot is a fault. -/
def filled (address : Nat) : List (Option Instr) → Except CodeFault (List Instr)
  | [] => .ok []
  | none :: _ => .error (.slotEmpty address)
  | some i :: rest => do return i :: (← filled (address + 1) rest)

/-- The finished code, in which every slot has been filled. -/
def finish (b : CodeBuffer) : Except CodeFault (List Instr) :=
  filled 0 b.slots.toList

end CodeBuffer

end MiniC
