import MiniC.Command.Files
import MiniC.Machine
import MiniC.Text.Blank
import MiniC.Text.Decimal

/-!
# The console

The standard input and the standard output. A text is printed as a whole or not at all; where the
output goes there may be no room for it.

To the machine the console is a device that reads one number per line and writes one number per
line. White space around a number is ignored; an empty line is no number.
-/

namespace MiniC

/-- How many bytes can be printed, and why no more of them can. -/
structure Console.Limit where
  bytes : Nat
  fault : FileFault
deriving DecidableEq, Repr

/-- The bytes still to be read, the text printed so far, and how much can be printed. -/
structure Console where
  input : List UInt8
  output : String
  limit : Option Console.Limit

namespace Console

/-- A console with an input, on which nothing has been printed and all output finds room. -/
def ofInput (input : List UInt8) : Console :=
  ⟨input, "", none⟩

instance : Coe (List UInt8) Console :=
  ⟨ofInput⟩

/-- Why a text cannot be printed. -/
def refusal? (c : Console) (text : String) : Option FileFault :=
  match c.limit with
  | none => none
  | some l => if c.output.utf8ByteSize + text.utf8ByteSize ≤ l.bytes then none else some l.fault

/-- Prints a text, if there is room for it. -/
def print (c : Console) (text : String) : Except FileFault Unit × Console :=
  match c.refusal? text with
  | some fault => (.error fault, c)
  | none => (.ok (), { c with output := c.output ++ text })

/-- Prints texts one after the other, up to the first that there is no room for. -/
def printAll (c : Console) : List String → Except FileFault Unit × Console
  | [] => (.ok (), c)
  | text :: rest =>
    match c.print text with
    | (.ok (), c) => c.printAll rest
    | (.error fault, c) => (.error fault, c)

/-- The number that a line holds. -/
def readWord? (line : List Char) : Option Word :=
  match Decimal.readInt? (Text.trim line) with
  | none => none
  | some n => if Machine.minWord ≤ n ∧ n ≤ Machine.maxWord then some (Int64.ofInt n) else none

/-- The number on a line that was read, or why there is none. -/
def wordOfLine (line : List UInt8) : Except MachineError Word :=
  match String.fromUTF8? ⟨line.toArray⟩ with
  | none => .error (.input "stream did not contain valid UTF-8")
  | some text =>
    match readWord? text.toList with
    | some w => .ok w
    | none =>
      let shown := String.ofList (Text.trim text.toList)
      .error (.input s!"'{shown}' is not an integer")

/-- Reads a line. The last line need not be ended. -/
def read (c : Console) : Except MachineError Word × Console :=
  if c.input.isEmpty then (.error (.input "end of input"), c)
  else
    let line := c.input.takeWhile (· ≠ 10)
    (wordOfLine line, { c with input := c.input.drop (line.length + 1) })

/-- The line of a number. -/
def lineOfWord (w : Word) : String :=
  toString w.toInt ++ "\n"

/-- Writes a line. -/
def write (w : Word) (c : Console) : Except MachineError Unit × Console :=
  match c.print (lineOfWord w) with
  | (.ok (), c) => (.ok (), c)
  | (.error fault, c) => (.error (.output fault.message), c)

/-- The console as a device. -/
def device : Device Console :=
  ⟨read, write⟩

end Console

end MiniC
