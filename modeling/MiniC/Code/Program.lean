import MiniC.Code.Buffer
import MiniC.Code.Statement

/-!
# Code of programs

The declarations of a program are laid out in order behind the fixed code; what follows is the
call of `main`. Execution passes over each function by a jump in front of it, and sets the length
cells of the global arrays in between.

A program is laid out twice, since a function can be called before its address is known: the first
time only to learn the addresses.

* `generate`: the program with the addresses of its functions, and its code
-/

namespace MiniC

/-- Code laid out so far, and the addresses of the functions in it. -/
structure Assembly where
  buffer : CodeBuffer
  entries : Entries

/-- Writes the code of a function: it stores the return address that it is called with, and returns
when it reaches its end. -/
def FunDecl.emit (k : Linker) (b : CodeBuffer) (f : FunDecl) (body : Block) :
    Except CodeFault CodeBuffer := do
  let b := b.emit (.rm .st .ac returnOffset .fp s!"{f.name}: store return")
  return (← body.emit k f.frameEnd b).emit returnInstr

/-- Fills a slot with a jump to the end of the code laid out so far. -/
def CodeBuffer.jumpToEnd (b : CodeBuffer) (slot : Nat) (comment : String) :
    Except CodeFault CodeBuffer :=
  b.patch slot .lda .pc b.cursor comment

namespace Assembly

/-- The fixed code, with addresses known from before. -/
def start (known : Entries) : Except CodeFault Assembly := do
  let slot := startupCode.length
  let buffer := ((CodeBuffer.empty.emitAll startupCode).reserve 1).emitAll routines
  let buffer ← buffer.jumpToEnd slot "jump around i/o routines"
  return ⟨buffer, ("output", outputEntry) :: ("input", inputEntry) :: known⟩

/-- Lays out a declaration. When calls are linked, a function records its address. -/
def declaration (linked : Bool) (a : Assembly) : Decl → Except CodeFault (Decl × Assembly)
  | .var d => return (.var d, { a with buffer := a.buffer.emitAll (d.lengthCode .gp) })
  | .function f =>
    match f.body with
    | none => return (.function f, a)
    | some body => do
      let slot := a.buffer.cursor
      let buffer := a.buffer.reserve 1
      let entry := buffer.cursor
      let entries := (f.name, entry) :: a.entries
      let buffer ← f.emit ⟨entries, linked⟩ buffer body
      let buffer ← buffer.jumpToEnd slot s!"jump around {f.name} body"
      let f := if linked then { f with entry := some entry } else f
      return (.function f, ⟨buffer, entries⟩)

/-- Lays out declarations in order. -/
def declarations (linked : Bool) (a : Assembly) :
    List Decl → Except CodeFault (List Decl × Assembly)
  | [] => return ([], a)
  | d :: rest => do
    let (d, a) ← declaration linked a d
    let (rest, a) ← declarations linked a rest
    return (d :: rest, a)

/-- The call of `main`, whose frame starts below the global cells, and the end of the program. -/
def finale (a : Assembly) (globalsEnd : Int) : Except CodeFault Assembly :=
  match a.entries.lookup "main" with
  | none => .error .noMain
  | some main => do
    let _ ← lowered globalsEnd 1
    let jump ← Instr.relative .lda .pc (a.buffer.cursor + 3) main "jump to main loc"
    return { a with
      buffer := a.buffer.emitAll
        (callSequence globalsEnd jump ++ [.ro .halt .unused .unused .unused ""]) }

/-- Lays out a whole program. -/
def program (linked : Bool) (known : Entries) (p : Program) :
    Except CodeFault (Program × Assembly) := do
  let (decls, a) ← declarations linked (← start known) p.decls
  return ({ p with decls }, ← a.finale p.globalsEnd)

end Assembly

/-- The program with the addresses of its functions, and its code. -/
def generate (p : Program) : Except CodeFault (Program × List Instr) := do
  let (_, layout) ← Assembly.program false [] p
  let (p, linked) ← Assembly.program true layout.entries p
  return (p, ← linked.buffer.finish)

end MiniC
