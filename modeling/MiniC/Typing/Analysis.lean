import MiniC.Text.Align
import MiniC.Typing.Expression

/-!
# Analysis of programs

The analysis checks a program, records types and storage in its tree, and lists the symbols of each
scope as the scope is closed. It goes on after a fault, so that all faults are found. One table of
scopes goes with it from phrase to phrase: declarations add to it, and each scope that is opened is
closed again.

Storage grows downwards. Parameters and locals of a function take consecutive cells from offset
`-2` of its frame; blocks inside a function share the frame and never reuse a cell. Global
variables take cells from offset `0`.

* `analyze`: the analysed program, the diagnostics in order, and the scope dump
-/

namespace MiniC

/-! ### Storage -/

/-- The first cell of a frame that parameters can take, below the return address and the saved
frame address. -/
def firstFrameOffset : Int := -2

/-- The lowest offset that declarations may reach, half of the range of an offset; the rest is
left for temporary values. -/
def minOffset : Int := -1073741824

/-- The level of global variables. -/
def globalLevel : Nat := 0

/-- The level of parameters and locals. -/
def frameLevel : Nat := 1

namespace Shape

/-- How the cells of a shape are used. -/
def storage : Shape → Storage
  | .scalar => .scalar
  | .array _ => .array
  | .reference => .arrayRef

/-- The number of cells above the one that an offset names. -/
def elements : Shape → Nat
  | .array size => size
  | _ => 0

end Shape

/-- A placed declaration: its storage, the next free offset, and whether it fits. -/
structure Placement where
  layout : Layout
  next : Int
  fits : Bool

/-- Places a declaration below the offset `next`. What does not fit takes no room. -/
def VarDecl.place (d : VarDecl) (level : Nat) (next : Int) : Placement :=
  let offset := next - d.shape.elements
  if minOffset ≤ offset - 1 then ⟨⟨level, offset, d.shape.storage⟩, offset - 1, true⟩
  else ⟨⟨level, next, d.shape.storage⟩, next, false⟩

/-! ### Declarations of variables -/

/-- Analysed declarations: the scopes and the free offset after them. -/
structure Declared (α : Type) where
  value : α
  scopes : ScopeTable
  next : Int
  errors : List Diagnostic

/-- Analyses the declaration of a variable or parameter. A name that is taken still gets storage,
but not the name. -/
def VarDecl.check (role : Role) (level : Nat) (scopes : ScopeTable) (next : Int) (d : VarDecl) :
    Declared VarDecl :=
  let placed := d.place level next
  let symbol := Symbol.var d.name d.ty placed.layout
  let added := scopes.declare? d.name symbol
  ⟨{ d with layout := some placed.layout }, added.getD scopes, placed.next,
    demand (d.base != .void || d.shape.isArray) d.pos (.voidDeclared role d.name) ++
    demand (d.shape != .array 0) d.pos .zeroSize ++
    demand placed.fits d.pos (.tooLarge d.name) ++
    demand added.isSome d.pos (.redeclared role d.name)⟩

/-- Analyses declarations in order. -/
def VarDecl.checkAll (role : Role) (level : Nat) (scopes : ScopeTable) (next : Int) :
    List VarDecl → Declared (List VarDecl)
  | [] => ⟨[], scopes, next, []⟩
  | d :: rest =>
    let first := d.check role level scopes next
    let others := VarDecl.checkAll role level first.scopes first.next rest
    ⟨first.value :: others.value, others.scopes, others.next, first.errors ++ others.errors⟩

/-! ### Scopes -/

/-- Closes the innermost scope. -/
def ScopeTable.leave (scopes : ScopeTable) : ScopeTable :=
  (scopes.exit?.map Prod.snd).getD scopes

/-- The lines for the innermost scope: a heading, and a line for each of its symbols, indented by
four blanks for each enclosing scope. -/
def ScopeTable.dump (scopes : ScopeTable) (heading : String) : List String :=
  let indent := Text.blanks (4 * (scopes.depth - 1))
  (indent ++ heading) :: scopes.symbols.map fun s => indent ++ "    " ++ s.text

/-! ### Statements -/

/-- The function around a statement. -/
structure Enclosing where
  name : String
  result : BaseType

/-- Analysed statements: the free offset after them, whether a value is returned anywhere in them,
the diagnostics and the dump of the scopes closed in them. -/
structure Checked (α : Type) where
  value : α
  next : Int
  returns : Bool
  errors : List Diagnostic
  dump : List String

/-- Analysed statements, and the scopes after them. -/
structure Visited (α : Type) extends Checked α where
  scopes : ScopeTable

/-- A test takes any single value other than void. -/
def testErrors (construct : Construct) (test : TypedExp) : List Diagnostic :=
  demand (!test.ty.isArray && test.ty.base != .void) test.exp.pos (.testType construct)

/-- The faults of a return with a value of the given type. -/
def returnErrors (enclosing : Enclosing) (pos : Pos) (value : Ty) : List Diagnostic :=
  if enclosing.result = .void then [⟨pos, .valueFromVoid enclosing.name⟩]
  else demand (value = .scalar enclosing.result) pos
    (.returnType enclosing.name enclosing.result value)

mutual

/-- Analyses a statement, with `next` the free offset before it. A block opens a scope, and lists it
and closes it at its end. -/
def Stmt.visit (enclosing : Enclosing) (scopes : ScopeTable) (next : Int) : Stmt → Visited Stmt
  | .exp p e =>
    let e := e.check scopes
    ⟨⟨.exp p e.exp, next, false, e.errors, []⟩, scopes⟩
  | .block p decls body =>
    let d := VarDecl.checkAll .var frameLevel scopes.enter next decls
    let b := Stmt.visitAll enclosing d.scopes d.next body
    ⟨⟨.block p d.value b.value, b.next, b.returns, d.errors ++ b.errors,
      b.dump ++ b.scopes.dump "Block scope:"⟩, b.scopes.leave⟩
  | .ifThen p test thenBranch =>
    let t := test.check scopes
    let a := thenBranch.visit enclosing scopes next
    ⟨⟨.ifThen p t.exp a.value, a.next, a.returns,
      t.errors ++ testErrors .conditional t ++ a.errors, a.dump⟩, a.scopes⟩
  | .ifElse p test thenBranch elseBranch =>
    let t := test.check scopes
    let a := thenBranch.visit enclosing scopes next
    let b := elseBranch.visit enclosing a.scopes a.next
    ⟨⟨.ifElse p t.exp a.value b.value, b.next, a.returns || b.returns,
      t.errors ++ testErrors .conditional t ++ a.errors ++ b.errors, a.dump ++ b.dump⟩, b.scopes⟩
  | .whileDo p test body =>
    let t := test.check scopes
    let b := body.visit enclosing scopes next
    ⟨⟨.whileDo p t.exp b.value, b.next, b.returns,
      t.errors ++ testErrors .loop t ++ b.errors, b.dump⟩, b.scopes⟩
  | .ret p none =>
    ⟨⟨.ret p none, next, false,
      demand (enclosing.result = .void) p (.bareReturn enclosing.name), []⟩, scopes⟩
  | .ret p (some value) =>
    let v := value.check scopes
    ⟨⟨.ret p (some v.exp), next, true, v.errors ++ returnErrors enclosing p v.ty, []⟩, scopes⟩

/-- Analyses statements in order. -/
def Stmt.visitAll (enclosing : Enclosing) (scopes : ScopeTable) (next : Int) :
    List Stmt → Visited (List Stmt)
  | [] => ⟨⟨[], next, false, [], []⟩, scopes⟩
  | s :: rest =>
    let first := s.visit enclosing scopes next
    let others := Stmt.visitAll enclosing first.scopes first.next rest
    ⟨⟨first.value :: others.value, others.next, first.returns || others.returns,
      first.errors ++ others.errors, first.dump ++ others.dump⟩, others.scopes⟩

end

/-- Analyses a function body, a block whose scope is inside that of the parameters. -/
def Block.visit (enclosing : Enclosing) (scopes : ScopeTable) (next : Int) (b : Block) :
    Visited Block :=
  let d := VarDecl.checkAll .var frameLevel scopes.enter next b.decls
  let s := Stmt.visitAll enclosing d.scopes d.next b.stmts
  ⟨⟨⟨b.pos, d.value, s.value⟩, s.next, s.returns, d.errors ++ s.errors,
    s.dump ++ s.scopes.dump "Block scope:"⟩, s.scopes.leave⟩

/-! ### Functions and programs -/

/-- The symbol of a function. -/
def FunDecl.symbol (f : FunDecl) : Symbol :=
  .function f.name f.result (f.params.map fun p => ⟨p.name, p.ty⟩) f.body.isSome

/-- The scopes after a function was announced, if it may be. A function may be declared again with
the same signature; a body may follow a prototype, but not another body. -/
def FunDecl.announce? (scopes : ScopeTable) (f : FunDecl) : Option ScopeTable :=
  match scopes.lookupInner f.name with
  | none => scopes.declare? f.name f.symbol
  | some known =>
    if known.isFunction && known.sameSignature f.symbol then
      if f.body.isNone then some scopes
      else if known.isDefined then none
      else scopes.redefine? f.name f.symbol
    else none

/-- Analysed declarations of the outermost level. -/
structure Announced (α : Type) where
  value : α
  scopes : ScopeTable
  next : Int
  errors : List Diagnostic
  dump : List String

/-- Analyses a function, whose parameters have a scope of their own. The scope of the parameters of
a prototype is not listed. -/
def FunDecl.visit (scopes : ScopeTable) (next : Int) (f : FunDecl) : Announced FunDecl :=
  let announced := f.announce? scopes
  let outer := announced.getD scopes
  let refused := demand announced.isSome f.pos (.redeclared .function f.name)
  let params := VarDecl.checkAll .param frameLevel outer.enter firstFrameOffset f.params
  match f.body with
  | none =>
    ⟨{ f with params := params.value, frameEnd := params.next }, params.scopes.leave, next,
      refused ++ params.errors, []⟩
  | some body =>
    let b := body.visit ⟨f.name, f.result⟩ params.scopes params.next
    ⟨{ f with params := params.value, body := some b.value, frameEnd := b.next }, b.scopes.leave,
      next, refused ++ params.errors ++ b.errors ++
        demand (f.result = .void || b.returns) f.pos (.noReturn f.name),
      b.dump ++ b.scopes.dump s!"Function scope of '{f.name}':"⟩

/-- Analyses a declaration, with `next` the free global offset before it. -/
def Decl.visit (scopes : ScopeTable) (next : Int) : Decl → Announced Decl
  | .var d =>
    let d := d.check .var globalLevel scopes next
    ⟨.var d.value, d.scopes, d.next, d.errors, []⟩
  | .function f =>
    let f := f.visit scopes next
    ⟨.function f.value, f.scopes, f.next, f.errors, f.dump⟩

/-- Analyses declarations in order. -/
def Decl.visitAll (scopes : ScopeTable) (next : Int) : List Decl → Announced (List Decl)
  | [] => ⟨[], scopes, next, [], []⟩
  | d :: rest =>
    let first := d.visit scopes next
    let others := Decl.visitAll first.scopes first.next rest
    ⟨first.value :: others.value, others.scopes, others.next, first.errors ++ others.errors,
      first.dump ++ others.dump⟩

/-- The outcome of an analysis. -/
structure Analysis where
  program : Program
  errors : List Diagnostic
  dump : List String

/-- Analyses a program. The dump is empty unless it is asked for. -/
def analyze (program : Program) (trace : Bool) : Analysis :=
  let checked := Decl.visitAll .initial 0 program.decls
  ⟨⟨checked.value, checked.next⟩, checked.errors,
    if trace then checked.dump ++ checked.scopes.dump "Global scope:" else []⟩

end MiniC
