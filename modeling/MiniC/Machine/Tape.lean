import MiniC.Machine

/-!
# Tapes

A device that reads the words of a list and keeps the words that are written. It can be made to
refuse output beyond a number of words.
-/

namespace MiniC

/-- The words still to be read, the words written so far, and how many may be written. -/
structure Tape where
  input : List Word
  output : Array Word
  limit : Option Nat

namespace Tape

/-- A tape with the given words to read, on which nothing has been written. -/
def ofList (input : List Word) (limit : Option Nat) : Tape :=
  ⟨input, #[], limit⟩

/-- Reads the next word; there must be one. -/
def read (t : Tape) : Except MachineError Word × Tape :=
  match t.input with
  | [] => (.error (.input "input exhausted"), t)
  | w :: rest => (.ok w, { t with input := rest })

/-- Whether the tape takes no more words. -/
def isFull (t : Tape) : Bool :=
  match t.limit with
  | none => false
  | some n => n ≤ t.output.size

/-- Writes a word, if there is room. -/
def write (w : Word) (t : Tape) : Except MachineError Unit × Tape :=
  if t.isFull then (.error (.output "closed"), t)
  else (.ok (), { t with output := t.output.push w })

/-- The tape as a device. -/
def device : Device Tape :=
  ⟨read, write⟩

end Tape

end MiniC
