import MiniC.Code.Instruction
import MiniC.Machine

/-!
# Fixed code

The code at the start of every program: set-up of the base registers, a jump over the routines
that every program shares, and the routines themselves. Their addresses are the same in every
program.

A frame holds the return address at its base, and below it the caller's frame base.
-/

namespace MiniC

/-- The offset of the return address in a frame. -/
def returnOffset : Int := 0

/-- The offset of the caller's frame base in a frame. -/
def savedFrameOffset : Int := -1

/-- The offset of the first parameter in a frame. -/
def firstParamOffset : Int := -2

/-- Leaves a function: the return address is where the frame begins. -/
def returnInstr : Instr :=
  .rm .ld .pc returnOffset .fp "return to caller"

/-- Sets the base registers to the last cell, whose address cell 0 holds, and clears cell 0. -/
def startupCode : List Instr :=
  [.rm .ld .gp 0 .ac "load gp with maxaddress",
   .rm .lda .fp 0 .gp "copy gp to fp",
   .rm .st .ac 0 .ac "clear location 0"]

/-- Reads a number. -/
def inputRoutine : List Instr :=
  [.rm .st .ac returnOffset .fp "input: store return",
   .ro .read .ac .unused .unused "input integer value",
   returnInstr]

/-- Writes its argument. -/
def outputRoutine : List Instr :=
  [.rm .st .ac returnOffset .fp "output: store return",
   .rm .ld .ac firstParamOffset .fp "load output value",
   .ro .write .ac .unused .unused "output integer value",
   returnInstr]

/-- The word for a bound. -/
def BoundsFault.text : BoundsFault → String
  | .lower => "lower"
  | .upper => "upper"

/-- Stores the code of a fault in cell 0, writes it, and halts. -/
def faultRoutine (fault : BoundsFault) : List Instr :=
  [.rm .ldc .ac1 0 .unused s!"{fault.text} bound fault",
   .rm .ldc .ac fault.code .unused "load fault code",
   .rm .st .ac 0 .ac1 "record fault in location 0",
   .ro .write .ac .unused .unused "report fault code",
   .ro .halt .unused .unused .unused ""]

/-- All routines, in the order of their addresses. -/
def routines : List Instr :=
  inputRoutine ++ outputRoutine ++ faultRoutine .lower ++ faultRoutine .upper

/-- Where the routine that reads a number starts: behind the set-up and the jump. -/
def inputEntry : Nat := startupCode.length + 1

/-- Where the routine that writes a number starts. -/
def outputEntry : Nat := inputEntry + inputRoutine.length

/-- Where the routine for a fault starts. -/
def faultEntry : BoundsFault → Nat
  | .lower => outputEntry + outputRoutine.length
  | .upper => outputEntry + outputRoutine.length + (faultRoutine .lower).length

end MiniC
