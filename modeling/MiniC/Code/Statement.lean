import MiniC.Code.Expression

/-!
# Code of statements

Statements follow one another; tests jump over the code that is not to be executed. Where such a
jump leads is known when the code behind it has been written, so its slot is filled afterwards. A
block sets the length cells of its arrays each time it is entered.
-/

namespace MiniC

/-- Sets the length cell of an array; other variables need no code. -/
def VarDecl.lengthCode (d : VarDecl) (base : Reg) : List Instr :=
  match d.layout, d.shape with
  | some ⟨_, offset, .array⟩, .array size =>
    [.rm .ldc .ac size .unused s!"length of array {d.name}",
     .rm .st .ac offset base "store array length"]
  | _, _ => []

mutual

/-- Writes the code of a statement at the cursor, with temporary cells from `offset` down. The slots
of its forward jumps are kept when the cursor reaches them, and filled when it reaches their
targets. -/
def Stmt.emit (k : Linker) (offset : Int) (b : CodeBuffer) : Stmt → Except CodeFault CodeBuffer
  | .exp _ e => e.emit k offset b
  | .block _ decls body =>
    Stmt.emitAll k offset (b.emitAll (decls.flatMap (VarDecl.lengthCode · .fp))) body
  | .ifThen _ test thenBranch => do
    let b ← test.emit k offset b
    let slot := b.cursor
    let b ← thenBranch.emit k offset (b.reserve 1)
    b.patch slot .jeq .ac b.cursor "if: jump to end"
  | .ifElse _ test thenBranch elseBranch => do
    let b ← test.emit k offset b
    let slot := b.cursor
    let b ← thenBranch.emit k offset (b.reserve 1)
    let exit := b.cursor
    let b := b.reserve 1
    let b ← b.patch slot .jeq .ac b.cursor "if: jump to else"
    let b ← elseBranch.emit k offset b
    b.patch exit .lda .pc b.cursor "if: jump to end"
  | .whileDo _ test body => do
    let top := b.cursor
    let b ← test.emit k offset b
    let slot := b.cursor
    let b ← body.emit k offset (b.reserve 1)
    let b ← b.emitRelative .lda .pc top "while: jump back to test"
    b.patch slot .jeq .ac b.cursor "while: jump to end"
  | .ret _ none => return b.emit returnInstr
  | .ret _ (some value) => return (← value.emit k offset b).emit returnInstr

/-- Writes the code of statements in order. -/
def Stmt.emitAll (k : Linker) (offset : Int) (b : CodeBuffer) :
    List Stmt → Except CodeFault CodeBuffer
  | [] => return b
  | s :: rest => do Stmt.emitAll k offset (← s.emit k offset b) rest

end

/-- Writes the code of a function body. -/
def Block.emit (k : Linker) (offset : Int) (b : CodeBuffer) (body : Block) :
    Except CodeFault CodeBuffer :=
  (Stmt.block body.pos body.decls body.stmts).emit k offset b

end MiniC
