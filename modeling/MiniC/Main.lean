import MiniC.Command.Session

/-!
# The command

The session on the files of the computer. Everything is decided by `MiniC.prepare`,
`MiniC.Options.target` and `MiniC.execute`; what is left here is to read, to write and to print. The
texts are made for a console with room for all of them, and what the real one cannot take is a fault
of the same step.
-/

namespace MiniC

/-- The number of an error of the operating system, which may be given with a minus sign. -/
def errorNumber (code : UInt32) : UInt32 :=
  min code (-code)

/-- The cause of an error of the operating system. -/
def FileFault.ofError (e : IO.Error) : FileFault :=
  match e with
  | .noFileOrDirectory _ _ _ => .notFound
  | .inappropriateType _ code _ =>
    if errorNumber code = 20 then .notDirectory else .isDirectory
  | .invalidArgument _ code _ =>
    if errorNumber code = 36 then .nameTooLong else .nameInvalid
  | e => .other (toString e)

/-- Carries out an action on a file. -/
def attempt {α : Type} (action : IO α) : IO (Except FileFault α) := do
  try
    return .ok (← action)
  catch e =>
    return .error (.ofError e)

/-- Prints the wording of a fault and gives the exit code. -/
def leave : Except SessionFault Unit → IO UInt32
  | .ok _ => return 0
  | .error fault => do
    IO.eprint (textOfLines fault.message?.toList)
    return fault.exitCode.toUInt32

/-- Prints a text. -/
def print (text : String) : IO (Except FileFault Unit) :=
  attempt do
    let stdout ← IO.getStdout
    stdout.putStr text
    stdout.flush

/-- Runs the code on the standard input. -/
def runCode (o : Options) (code : List Instr) : IO UInt32 := do
  let stdin ← if o.run then (← IO.getStdin).readBinToEnd else pure ByteArray.empty
  let c := Console.ofInput stdin.toList
  let back := report c (execute o code c)
  match ← print back.console.output with
  | .ok _ => leave back.result
  | .error fault => leave (.error (.machine (.output fault.message)))

/-- A session on the files of the computer. -/
def session (o : Options) : IO UInt32 := do
  let front := prepare o (← attempt (IO.FS.readBinFile o.source)) (.ofInput [])
  match ← print front.console.output with
  | .error _ => leave (.error .aborted)
  | .ok _ =>
    IO.eprint front.stderr
    match front.result with
    | .error fault => leave (.error fault)
    | .ok none => return 0
    | .ok (some code) =>
      let listing := listingText o.source code
      match o.target with
      | .nowhere => runCode o code
      | .stdout => do
        match ← print listing with
        | .ok _ => runCode o code
        | .error fault => leave (.error (.unwritable "-" fault))
      | .file path => do
        match ← attempt (IO.FS.writeFile path listing) with
        | .ok _ => runCode o code
        | .error fault => leave (.error (.unwritable path fault))

end MiniC

/-- The command line. -/
def main (args : List String) : IO UInt32 := do
  match MiniC.Options.ofArguments args with
  | .ok o => MiniC.session o
  | .error fault => do
    IO.eprintln fault.message
    return fault.exitCode.toUInt32
