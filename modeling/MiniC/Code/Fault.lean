/-!
# Faults of code generation

A fault is either a property of the program that is compiled, or a misuse of a code buffer, or a
number that does not fit its field.
-/

namespace MiniC

/-- Why no code was generated. -/
inductive CodeFault where
  /-- There is no function to start with. -/
  | noMain
  /-- A function is called, but only declared. -/
  | neverDefined (function : String)
  /-- A variable was given no storage. -/
  | noStorage (name : String)
  /-- The cursor was set beyond the end of the buffer. -/
  | rewindBeyond (address mark : Nat)
  /-- A slot was kept free and never written to. -/
  | slotEmpty (address : Nat)
  /-- More slots were asked for than a buffer can have. -/
  | tooManySlots
  /-- An offset or a displacement does not fit into 32 bits. -/
  | outOfRange
  /-- An operation was used in the form that it does not belong to. -/
  | wrongForm
deriving DecidableEq, Repr

/-- The wording of a fault. -/
def CodeFault.message : CodeFault → String
  | .noMain => "no function named 'main' was declared"
  | .neverDefined function => s!"function '{function}' is called but never defined"
  | .noStorage name =>
    s!"internal code generator fault: variable '{name}' has no storage"
  | .rewindBeyond address mark =>
    s!"internal code generator fault: rewind to {address} beyond high-water mark {mark}"
  | .slotEmpty address =>
    s!"internal code generator fault: instruction slot {address} was reserved but never filled"
  | .tooManySlots => "too many instruction slots"
  | .outOfRange => "number out of range"
  | .wrongForm => "operation used in the wrong form"

end MiniC
