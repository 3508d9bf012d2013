import MiniC.Code.Instruction
import MiniC.Text.Align
import MiniC.Text.Blank

/-!
# Listings

The text of a code sequence: three lines of heading, then one line per instruction with its
address, operation, operands and remark.
-/

namespace MiniC

/-- The operands as text. -/
def Instr.operandText : Instr → String
  | .ro _ r s t _ => s!"{r.val}, {s.val}, {t.val}"
  | .rm _ r d s _ => s!"{r.val}, {d}({s.val})"

/-- The operation of an instruction. -/
def Instr.op : Instr → Opcode
  | .ro op _ _ _ _ => op
  | .rm op _ _ _ _ => op

/-- The remark of an instruction. -/
def Instr.comment : Instr → String
  | .ro _ _ _ _ comment => comment
  | .rm _ _ _ _ comment => comment

/-- The line of an instruction at an address. Addresses and operations are aligned to the right,
as far as three and five characters hold them. -/
def Instr.listing (i : Instr) (address : Nat) : String :=
  let addressText := Text.alignRight 3 (toString address)
  let opText := Text.alignRight 5 i.op.mnemonic
  s!"{addressText}: {opText} {i.operandText}  {i.comment}"

/-- The lines of a listing. Blanks at the end of an instruction's line are dropped. -/
def listingLines (path : String) (code : List Instr) : List String :=
  ["* C-Minus Compilation to TM Code", s!"* File: {path}", s!"* Instructions: {code.length}"] ++
    code.mapIdx fun address i => String.ofList (Text.trimEnd (i.listing address).toList)

/-- The text of a listing, each line ended by a line feed. -/
def listingText (path : String) (code : List Instr) : String :=
  String.join ((listingLines path code).map (· ++ "\n"))

end MiniC
