/-!
# Instructions

The instructions of the machine. A register-only instruction names three registers; a
register-memory instruction names a register, and an address by a displacement from a second
register. Every operation belongs to one of the two forms.
-/

namespace MiniC

/-- One of the eight registers. -/
abbrev Reg := Fin 8

namespace Reg

/-- The accumulator. -/
abbrev ac : Reg := 0

/-- The second accumulator. -/
abbrev ac1 : Reg := 1

/-- The base of the running function's frame. -/
abbrev fp : Reg := 5

/-- The base of the global cells. -/
abbrev gp : Reg := 6

/-- The address of the next instruction. -/
abbrev pc : Reg := 7

/-- What an operand is set to that an operation ignores. -/
abbrev unused : Reg := 0

end Reg

/-- The operations of the machine. -/
inductive Opcode where
  | halt | read | write | add | sub | mul | div
  | ld | lda | ldc | st | jlt | jle | jgt | jge | jeq | jne
deriving DecidableEq, Repr

namespace Opcode

/-- The name of an operation in a listing. -/
def mnemonic : Opcode → String
  | .halt => "HALT"
  | .read => "IN"
  | .write => "OUT"
  | .add => "ADD"
  | .sub => "SUB"
  | .mul => "MUL"
  | .div => "DIV"
  | .ld => "LD"
  | .lda => "LDA"
  | .ldc => "LDC"
  | .st => "ST"
  | .jlt => "JLT"
  | .jle => "JLE"
  | .jgt => "JGT"
  | .jge => "JGE"
  | .jeq => "JEQ"
  | .jne => "JNE"

/-- Whether the operation belongs to the register-only form. -/
def isRegisterOnly : Opcode → Bool
  | .halt | .read | .write | .add | .sub | .mul | .div => true
  | _ => false

end Opcode

/-- An instruction with a remark for its reader. -/
inductive Instr where
  /-- Register-only: `op r, s, t`. -/
  | ro (op : Opcode) (r s t : Reg) (comment : String)
  /-- Register-memory: `op r, d(s)`. -/
  | rm (op : Opcode) (r : Reg) (d : Int) (s : Reg) (comment : String)
deriving DecidableEq, Repr

end MiniC
