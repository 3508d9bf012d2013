import MiniC.Code.Listing
import MiniC.Code.Program
import MiniC.Command.Console
import MiniC.Command.Files
import MiniC.Command.Options
import MiniC.Syntax.Outline
import MiniC.Syntax.Parser
import MiniC.Typing.Analysis

/-!
# Sessions

One command from its options to its exit code. The front half reads and checks the source, prints
what is to be shown of it, and generates its code; then a listing is written if one was asked for,
and then the program is run if that was asked for. The first step that fails ends the session. What
is shown must find room on the console, or the session is broken off; a listing or a run that finds
no room has failed, and says so.

* `compile`: a session on a file system and a console
-/

namespace MiniC

/-- Why a session failed. -/
inductive SessionFault where
  | unreadable (path : String) (fault : FileFault)
  | rejected (errors : Nat)
  | code (fault : CodeFault)
  | unwritable (path : String) (fault : FileFault)
  | machine (error : MachineError)
  | bounds (fault : BoundsFault)
  /-- A number or an amount of memory was out of range, or there was no room for what was to be
  shown; the session is broken off. -/
  | aborted
deriving DecidableEq, Repr

namespace SessionFault

/-- The wording of a fault; a session that is broken off says nothing. -/
def message? : SessionFault → Option String
  | .unreadable path fault => some s!"cannot read '{path}': {fault.message}"
  | .rejected errors => some s!"{errors} error(s); no code generated"
  | .code fault => some fault.message
  | .unwritable path fault => some s!"cannot write output to '{path}': {fault.message}"
  | .machine error => some s!"Runtime error: {error.message}"
  | .bounds fault => some s!"Runtime fault: {fault.message}"
  | .aborted => none

/-- The exit code of a failed session. -/
def exitCode : SessionFault → Nat
  | .aborted => 101
  | _ => 1

/-- The fault of a session whose code could not be generated. -/
def ofCode : CodeFault → SessionFault
  | .tooManySlots | .outOfRange | .wrongForm => .aborted
  | fault => .code fault

end SessionFault

/-- Lines of text, each ended by a line feed. -/
def textOfLines (lines : List String) : String :=
  String.join (lines.map (· ++ "\n"))

/-- What a step of a session left on the console and printed on the standard error, and how it
went. -/
structure Step (α : Type) where
  console : Console
  stderr : String
  result : Except SessionFault α

/-- The text of a source file. -/
def sourceText (content : Except FileFault ByteArray) : Except FileFault String := do
  match String.fromUTF8? (← content) with
  | some text => return text
  | none => throw .notText

/-- What is shown of a program: its tree, and the symbols that the analysis lists. -/
def Options.shown (o : Options) (program : Program) (a : Analysis) : List String :=
  (if o.showTree then [program.outlineText] else []) ++ a.dump.map (· ++ "\n")

/-- The front half: the code of the source, or `none` if no code was asked for. -/
def prepare (o : Options) (content : Except FileFault ByteArray) (c : Console) :
    Step (Option (List Instr)) :=
  match sourceText content with
  | .error fault => ⟨c, "", .error (.unreadable o.source fault)⟩
  | .ok source =>
    match parse source with
    | .error errors =>
      ⟨c, textOfLines (errors.map SyntaxError.text), .error (.rejected errors.length)⟩
    | .ok program =>
      let a := analyze program o.showSymbols
      match c.printAll (o.shown program a) with
      | (.error _, c) => ⟨c, "", .error .aborted⟩
      | (.ok (), c) =>
        let stderr := textOfLines (a.errors.map Diagnostic.text)
        if a.errors.isEmpty then
          if o.generate || o.run then
            match generate a.program with
            | .error fault => ⟨c, "no errors\n", .error (.ofCode fault)⟩
            | .ok (_, code) => ⟨c, "no errors\n", .ok (some code)⟩
          else ⟨c, "no errors\n", .ok none⟩
        else ⟨c, stderr, .error (.rejected a.errors.length)⟩

/-- Where a listing goes. -/
inductive Target where
  | nowhere
  | stdout
  | file (path : String)
deriving DecidableEq, Repr

/-- Where the listing of a session goes: a hyphen stands for the standard output, and without a
name the listing stands next to the source. -/
def Options.target (o : Options) : Target :=
  if o.generate then
    match o.output with
    | some "-" => .stdout
    | some path => .file path
    | none => .file (withExtension o.source "tm")
  else .nowhere

/-- A run that was begun: the code, and how the run ended, or `none` if so much memory could not be
had. -/
structure Execution where
  code : List Instr
  run? : Option (Machine.RunResult Console)

/-- The back half: runs the code if that was asked for. -/
def execute (o : Options) (code : List Instr) (c : Console) : Option Execution :=
  if o.run then
    some ⟨code, (Machine.init? o.memory).map fun machine =>
      machine.run code.toArray Console.device o.maxSteps c⟩
  else none

/-- How a finished run went. -/
def runResult (r : Machine.RunResult Console) : Except SessionFault Unit :=
  match r.outcome with
  | .failed e => .error (.machine e)
  | .addressOverflow => .error .aborted
  | .halted =>
    match r.machine.fault with
    | some fault => .error (.bounds fault)
    | none => .ok ()

/-- What the back half left on the console it began with, and how it went. -/
def report (c : Console) : Option Execution → Step Unit
  | none => ⟨c, "", .ok ()⟩
  | some ⟨_, none⟩ => ⟨c, "", .error .aborted⟩
  | some ⟨_, some r⟩ => ⟨r.io, "", runResult r⟩

/-- What a session leaves behind: the console, what was printed on the standard error, the files,
the run if there was one, and how it went. -/
structure Session where
  console : Console
  stderr : String
  files : FileSystem
  execution : Option Execution
  result : Except SessionFault Unit

namespace Session

/-- Everything on the standard output. -/
def stdout (s : Session) : String :=
  s.console.output

/-- The exit code is zero if every step that was asked for succeeded. -/
def exitCode (s : Session) : Nat :=
  match s.result with
  | .ok _ => 0
  | .error fault => fault.exitCode

/-- Everything on the standard error: the wording of a fault comes last. -/
def errorText (s : Session) : String :=
  match s.result with
  | .ok _ => s.stderr
  | .error fault => s.stderr ++ textOfLines fault.message?.toList

/-- Goes on with the back half. -/
def conclude (o : Options) (code : List Instr) (c : Console) (stderr : String)
    (files : FileSystem) : Session :=
  let execution := execute o code c
  let back := report c execution
  ⟨back.console, stderr ++ back.stderr, files, execution, back.result⟩

end Session

/-- The lines of the listing of code. -/
def Options.listing (o : Options) (code : List Instr) : List String :=
  (listingLines o.source code).map (· ++ "\n")

/-- Writes the listing of code to where it goes, and gives the files and the console that this
leaves. -/
def writeListing (o : Options) (code : List Instr) (files : FileSystem) (c : Console) :
    Except SessionFault FileSystem × Console :=
  match o.target with
  | .nowhere => (.ok files, c)
  | .stdout =>
    match c.printAll (o.listing code) with
    | (.error fault, c) => (.error (.unwritable "-" fault), c)
    | (.ok (), c) => (.ok files, c)
  | .file path =>
    match files.write path (listingText o.source code).toUTF8 with
    | .error fault => (.error (.unwritable path fault), c)
    | .ok files => (.ok files, c)

/-- A whole session. -/
def compile (o : Options) (files : FileSystem) (c : Console) : Session :=
  let front := prepare o (files.read o.source) c
  match front.result with
  | .error fault => ⟨front.console, front.stderr, files, none, .error fault⟩
  | .ok none => ⟨front.console, front.stderr, files, none, .ok ()⟩
  | .ok (some code) =>
    match writeListing o code files front.console with
    | (.error fault, c) => ⟨c, front.stderr, files, none, .error fault⟩
    | (.ok files, c) => .conclude o code c front.stderr files

end MiniC
