import MiniC.Code.Instruction
import MiniC.Machine.Memory

/-!
# The machine

Eight registers, one of which is the program counter, and a data memory of 64-bit words. Sums,
differences, products and quotients wrap around; the address that an instruction names does not:
an address outside the range of a word stops the machine.

Cell 0 of the memory first holds the address of the last cell, and later the code of a fault that
the program reports. Frames grow downwards, so an access through a frame or global base that
reaches cell 0 has run out of room.

* `Machine.step`: executes one instruction
* `Machine.run`: executes instructions up to a limit
-/

namespace MiniC

/-- Why the machine stopped other than by halting. -/
inductive MachineError where
  | dataAddress (address : Int) (site : Nat)
  | instructionAddress (address : Int)
  | zeroDivide (site : Nat)
  | stepLimit (limit : Nat)
  | input (reason : String)
  | output (reason : String)
  | stackOverflow (site : Nat)
  | malformed (site : Nat)
deriving DecidableEq, Repr

/-- The wording of a machine error. -/
def MachineError.message : MachineError → String
  | .dataAddress address site => s!"data address {address} out of range at instruction {site}"
  | .instructionAddress address => s!"instruction address {address} out of range"
  | .zeroDivide site => s!"division by zero at instruction {site}"
  | .stepLimit limit => s!"step limit of {limit} instructions exceeded"
  | .input reason => s!"bad input: {reason}"
  | .output reason => s!"cannot write output: {reason}"
  | .stackOverflow site => s!"stack overflow at instruction {site}"
  | .malformed site => s!"malformed instruction at {site}"

/-- How a run ends. -/
inductive Outcome where
  | halted
  | failed (error : MachineError)
  /-- The address that an instruction names is outside the range of a word. -/
  | addressOverflow
deriving DecidableEq, Repr

/-- What a program reads from and writes to. Both may fail, and both may change the state. -/
structure Device (σ : Type) where
  read : σ → Except MachineError Word × σ
  write : Word → σ → Except MachineError Unit × σ

/-- The registers and the data memory. -/
structure Machine where
  registers : Vector Word 8
  memory : Memory

/-- A fault that a program reports in cell 0. -/
inductive BoundsFault where
  | lower
  | upper
deriving DecidableEq, Repr

namespace BoundsFault

/-- The code of a fault. -/
def code : BoundsFault → Int
  | .lower => -1000000
  | .upper => -2000000

/-- The wording of a fault. -/
def message : BoundsFault → String
  | .lower => "array index below lower bound"
  | .upper => "array index above upper bound"

end BoundsFault

namespace Machine

/-- A machine with cleared registers and at least one cell. -/
def init (size : Nat) : Machine :=
  let cells := max size 1
  ⟨Vector.replicate 8 0, (Memory.zeros cells).set 0 (Int64.ofInt ((cells : Int) - 1))⟩

/-- A new machine, if so much memory can be had. -/
def init? (size : Nat) : Option Machine :=
  if size < Memory.sizeLimit then some (init size) else none

/-- The value of a register. -/
def reg (m : Machine) (r : Reg) : Word :=
  m.registers.get r

/-- Gives a register a value. -/
def setReg (m : Machine) (r : Reg) (w : Word) : Machine :=
  { m with registers := m.registers.set r.val w r.isLt }

/-- Gives a cell a value. -/
def setCell (m : Machine) (address : Nat) (w : Word) : Machine :=
  { m with memory := m.memory.set address w }

/-- The fault that the program has reported. -/
def fault (m : Machine) : Option BoundsFault :=
  let w := m.memory.get 0
  if w.toInt = BoundsFault.lower.code then some .lower
  else if w.toInt = BoundsFault.upper.code then some .upper
  else none

/-- The cell that an access through the register `base` names. -/
def cell (m : Machine) (base : Reg) (address : Int) (site : Nat) : Except MachineError Nat :=
  if (base = .fp ∨ base = .gp) ∧ address ≤ 0 then .error (.stackOverflow site)
  else if 0 ≤ address ∧ address < m.memory.size then .ok address.toNat
  else .error (.dataAddress address site)

/-- Whether a conditional jump is taken on a value; `none` for any other operation. -/
def jumps? (op : Opcode) (w : Word) : Option Bool :=
  match op with
  | .jlt => some (w < 0)
  | .jle => some (w ≤ 0)
  | .jgt => some (0 < w)
  | .jge => some (0 ≤ w)
  | .jeq => some (w = 0)
  | .jne => some (w ≠ 0)
  | _ => none

/-- The lowest number that a word holds. -/
def minWord : Int := -9223372036854775808

/-- The highest number that a word holds. -/
def maxWord : Int := 9223372036854775807

/-- The state after an instruction: the machine goes on, or it has stopped. -/
structure StepResult (σ : Type) where
  stopped : Option Outcome
  machine : Machine
  io : σ

/-- Executes a register-only instruction of a machine whose program counter has moved on. -/
def stepRo {σ : Type} (device : Device σ) (m : Machine) (io : σ) (site : Nat) (op : Opcode)
    (r s t : Reg) : StepResult σ :=
  match op with
  | .halt => ⟨some .halted, m, io⟩
  | .read =>
    match device.read io with
    | (.ok w, io) => ⟨none, m.setReg r w, io⟩
    | (.error e, io) => ⟨some (.failed e), m, io⟩
  | .write =>
    match device.write (m.reg r) io with
    | (.ok _, io) => ⟨none, m, io⟩
    | (.error e, io) => ⟨some (.failed e), m, io⟩
  | .add => ⟨none, m.setReg r (m.reg s + m.reg t), io⟩
  | .sub => ⟨none, m.setReg r (m.reg s - m.reg t), io⟩
  | .mul => ⟨none, m.setReg r (m.reg s * m.reg t), io⟩
  | .div =>
    if m.reg t = 0 then ⟨some (.failed (.zeroDivide site)), m, io⟩
    else ⟨none, m.setReg r (m.reg s / m.reg t), io⟩
  | _ => ⟨some (.failed (.malformed site)), m, io⟩

/-- Executes a register-memory instruction of a machine whose program counter has moved on. The
address is formed first, whether the operation uses it or not. -/
def stepRm {σ : Type} (m : Machine) (io : σ) (site : Nat) (op : Opcode) (r : Reg) (d : Int)
    (s : Reg) : StepResult σ :=
  let address := d + (m.reg s).toInt
  if minWord ≤ address ∧ address ≤ maxWord then
    match op with
    | .ld =>
      match m.cell s address site with
      | .ok a => ⟨none, m.setReg r (m.memory.get a), io⟩
      | .error e => ⟨some (.failed e), m, io⟩
    | .lda => ⟨none, m.setReg r (Int64.ofInt address), io⟩
    | .ldc => ⟨none, m.setReg r (Int64.ofInt d), io⟩
    | .st =>
      match m.cell s address site with
      | .ok a => ⟨none, m.setCell a (m.reg r), io⟩
      | .error e => ⟨some (.failed e), m, io⟩
    | op =>
      match jumps? op (m.reg r) with
      | some true => ⟨none, m.setReg .pc (Int64.ofInt address), io⟩
      | some false => ⟨none, m, io⟩
      | none => ⟨some (.failed (.malformed site)), m, io⟩
  else ⟨some .addressOverflow, m, io⟩

/-- The instruction at an address. -/
def fetch (code : Array Instr) (address : Int) : Option Instr :=
  if 0 ≤ address then code[address.toNat]? else none

/-- Executes the instruction that the program counter names. The counter moves on before the
instruction takes effect; nothing happens if there is no instruction. -/
def step {σ : Type} (code : Array Instr) (device : Device σ) (m : Machine) (io : σ) :
    StepResult σ :=
  let pc := (m.reg .pc).toInt
  match fetch code pc with
  | none => ⟨some (.failed (.instructionAddress pc)), m, io⟩
  | some i =>
    let m := m.setReg .pc (Int64.ofInt (pc + 1))
    match i with
    | .ro op r s t _ => stepRo device m io pc.toNat op r s t
    | .rm op r d s _ => stepRm m io pc.toNat op r d s

/-- Executes at most `steps` instructions. The machine has not stopped if all were executed. -/
def runFor {σ : Type} (code : Array Instr) (device : Device σ) :
    Nat → Machine → σ → StepResult σ
  | 0, m, io => ⟨none, m, io⟩
  | steps + 1, m, io =>
    let result := step code device m io
    match result.stopped with
    | some _ => result
    | none => runFor code device steps result.machine result.io

/-- A finished run. -/
structure RunResult (σ : Type) where
  outcome : Outcome
  machine : Machine
  io : σ

/-- Runs until the machine stops; it is stopped when it has executed `limit` instructions. -/
def run {σ : Type} (code : Array Instr) (device : Device σ) (limit : Nat) (m : Machine) (io : σ) :
    RunResult σ :=
  let result := runFor code device limit m io
  ⟨result.stopped.getD (.failed (.stepLimit limit)), result.machine, result.io⟩

end Machine

end MiniC
