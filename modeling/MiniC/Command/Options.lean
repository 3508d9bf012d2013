import MiniC.Text.Decimal

/-!
# The command line

What a command asks for. Options can stand before and after the file, and options of one letter
can be joined. An option's value is checked when the next argument is understood, so of two
mistakes the first is reported, except that an argument that cannot be understood at all comes
before a mistake in the value in front of it.
-/

namespace MiniC

/-- What to do with one source file. -/
structure Options where
  source : String
  showTree : Bool
  showSymbols : Bool
  generate : Bool
  output : Option String
  run : Bool
  memory : Nat
  maxSteps : Nat
deriving DecidableEq, Repr

/-- The number of cells that a program is run with by default. -/
def defaultMemory : Nat := 1024

/-- The number of instructions after which a run is stopped by default. -/
def defaultMaxSteps : Nat := 10000000

/-- Why a command line is not carried out. -/
inductive UsageFault where
  | missingFile
  | unknownArgument
  | conflict
  | noValue
  | badNumber
  | unexpectedValue
  | help
  | version
deriving DecidableEq, Repr

namespace UsageFault

/-- A request for help or the version is no mistake. -/
def exitCode : UsageFault → Nat
  | .help | .version => 0
  | _ => 2

/-- The wording of a usage fault. -/
def message : UsageFault → String
  | .missingFile => "a source file is required"
  | .unknownArgument => "an argument was not understood"
  | .conflict => "an option was given more than once"
  | .noValue => "an option lacks its value"
  | .badNumber => "a count is not a number"
  | .unexpectedValue => "an option takes no value"
  | .help => "usage: [-a] [-s] [-c] [-r] [-o FILE] [--memory N] [--max-steps N] FILE"
  | .version => "0.1.0"

end UsageFault

namespace CommandLine

/-- Options without a value. -/
inductive Switch where
  | tree
  | symbols
  | code
  | run
deriving DecidableEq, Repr

/-- Options with a value. -/
inductive Setting where
  | output
  | memory
  | maxSteps
deriving DecidableEq, Repr

/-- A value that has been read but not checked. -/
inductive Pending where
  | nothing
  | awaited (setting : Setting)
  | value (setting : Setting) (text : String)
  | file (text : String)

/-- What has been understood of a command line. -/
structure State where
  switches : List Switch
  output : Option String
  memory : Option Nat
  maxSteps : Option Nat
  file : Option String
  /-- Set once an argument was taken for the file. -/
  fileSeen : Bool
  pending : Pending

/-- Nothing has been understood yet. -/
def State.initial : State :=
  ⟨[], none, none, none, none, false, .nothing⟩

/-- The numbers that a count can be given by. -/
def maxCount : Nat := 18446744073709551615

/-- Reads a count: digits, after at most a plus sign. -/
def readCount (text : String) : Except UsageFault Nat :=
  let digits := match text.toList with
    | '+' :: digits => digits
    | digits => digits
  match Decimal.readNat? digits with
  | some n => if n ≤ maxCount then .ok n else .error .badNumber
  | none => .error .badNumber

namespace State

/-- Records the value of an option, which must not have one yet. -/
def assign (s : State) (setting : Setting) (text : String) : Except UsageFault State :=
  match setting with
  | .output => if s.output.isSome then .error .conflict else .ok { s with output := some text }
  | .memory =>
    if s.memory.isSome then .error .conflict
    else do return { s with memory := some (← readCount text) }
  | .maxSteps =>
    if s.maxSteps.isSome then .error .conflict
    else do return { s with maxSteps := some (← readCount text) }

/-- Checks the value that was read last. -/
def settle (s : State) : Except UsageFault State :=
  let done := { s with pending := .nothing }
  match s.pending with
  | .nothing => .ok done
  | .awaited _ => .error .noValue
  | .value setting text => done.assign setting text
  | .file text => if text = "" then .error .noValue else .ok { done with file := some text }

/-- Turns a switch on, which must be off. -/
def turnOn (s : State) (switch : Switch) : Except UsageFault State := do
  let s ← s.settle
  if switch ∈ s.switches then throw .conflict
  return { s with switches := switch :: s.switches }

/-- Starts an option whose value is the next argument. -/
def await (s : State) (setting : Setting) : Except UsageFault State := do
  return { ← s.settle with pending := .awaited setting }

/-- Records an option together with its value. -/
def give (s : State) (setting : Setting) (text : String) : Except UsageFault State := do
  (← s.settle).assign setting text

/-- Reports a request that ends the command. -/
def stop (s : State) (request : UsageFault) : Except UsageFault State := do
  let _ ← s.settle
  throw request

/-- Takes an argument for the file; a second one is not understood. -/
def takeFile (s : State) (text : String) : Except UsageFault State := do
  if s.fileSeen then throw .unknownArgument
  return { ← s.settle with fileSeen := true, pending := .file text }

/-- Understands joined options of one letter. What follows a letter that takes a value is the
value, after an equals sign or directly. -/
def letters (s : State) : List Char → Except UsageFault State
  | [] => .ok s
  | 'a' :: rest => do (← s.turnOn .tree).letters rest
  | 's' :: rest => do (← s.turnOn .symbols).letters rest
  | 'c' :: rest => do (← s.turnOn .code).letters rest
  | 'r' :: rest => do (← s.turnOn .run).letters rest
  | 'o' :: rest =>
    match rest with
    | [] => s.await .output
    | '=' :: value => s.give .output (String.ofList value)
    | value => s.give .output (String.ofList value)
  | 'h' :: _ => s.stop .help
  | 'V' :: _ => s.stop .version
  | _ => .error .unknownArgument

/-- Understands an option of several letters, which may carry its value after an equals sign. -/
def word (s : State) (name : String) (value : Option String) : Except UsageFault State :=
  match name, value with
  | "memory", none => s.await .memory
  | "memory", some text => s.give .memory text
  | "max-steps", none => s.await .maxSteps
  | "max-steps", some text => s.give .maxSteps text
  | "help", none => s.stop .help
  | "help", some _ => .error .unexpectedValue
  | "version", none => s.stop .version
  | "version", some _ => .error .unexpectedValue
  | _, _ => .error .unknownArgument

/-- Takes an argument for an awaited value, or else for the file. -/
def plain (s : State) (text : String) : Except UsageFault State :=
  match s.pending with
  | .awaited setting => .ok { s with pending := .value setting text }
  | _ => s.takeFile text

/-- Understands one argument. A hyphen alone is no option. -/
def argument (s : State) (text : String) : Except UsageFault State :=
  match text.toList with
  | '-' :: '-' :: rest =>
    let name := rest.takeWhile (· ≠ '=')
    let value := match rest.dropWhile (· ≠ '=') with
      | [] => none
      | _ :: value => some (String.ofList value)
    s.word (String.ofList name) value
  | '-' :: c :: rest => s.letters (c :: rest)
  | _ => s.plain text

/-- Understands arguments in order. After two hyphens alone every argument is a file. -/
def arguments (s : State) : List String → Except UsageFault State
  | [] => s.settle
  | "--" :: rest => do (← rest.foldlM takeFile s).settle
  | text :: rest => do (← s.argument text).arguments rest

end State

end CommandLine

/-- What a command line asks for. -/
def Options.ofArguments (args : List String) : Except UsageFault Options := do
  let s ← CommandLine.State.initial.arguments args
  match s.file with
  | none => throw .missingFile
  | some source =>
    return {
      source
      showTree := .tree ∈ s.switches
      showSymbols := .symbols ∈ s.switches
      generate := .code ∈ s.switches || s.output.isSome
      output := s.output
      run := .run ∈ s.switches
      memory := s.memory.getD defaultMemory
      maxSteps := s.maxSteps.getD defaultMaxSteps }

end MiniC
