import Mathlib.Algebra.Ring.Int.Defs
import Mathlib.Algebra.Ring.Nat
import Mathlib.Data.List.Forall2
import MiniC.Proofs.Typing.Checking

/-!
# The type system

The rules that the analysis enforces, said without scope tables, diagnostics or an order of
checking. A context lists the names of each enclosing frame; an expression has a type in a context,
a statement and a declaration are well typed in one, and a program is well formed when its names fit
together and each of its declarations is well typed where it stands.

* `HasType`: the types of expressions
* `Stmt.WellTyped`, `FunDecl.WellTyped`: statements and functions
* `Program.WellFormed`: whole programs
* `Program.nodes`: every expression of a program, with the names that are visible there
* `Program.bare`: a program without what the analysis records
-/

namespace MiniC

/-! ### Contexts

The frames that are visible in a phrase, the innermost one first. A name stands for what the first
frame says that has it. -/

/-- What a name stands for. -/
inductive Entity where
  | var (ty : Ty)
  | function (result : BaseType) (params : List Ty)
deriving DecidableEq, Repr

/-- The names of each enclosing frame, the innermost frame first. -/
abbrev TypeContext := List (List (String × Entity))

/-- What a name stands for in a context: the innermost frame that has it decides. -/
def TypeContext.find (Γ : TypeContext) (x : String) : Option Entity :=
  Γ.findSome? (List.lookup x)

/-! ### Expressions

One rule for each production. An expression has one type at most. -/

/-- An expression has a type in a context. What is recorded in the tree does not matter. -/
inductive HasType (Γ : TypeContext) : Exp → Ty → Prop where
  | int (p : Pos) (n : Nat) : HasType Γ (.int p n) .int
  | bool (p : Pos) (b : Bool) : HasType Γ (.bool p b) .bool
  | nil (p : Pos) : HasType Γ (.nil p) (.scalar .void)
  | neg {p t e} (he : HasType Γ e .int) : HasType Γ (.unary p t .neg e) .int
  | not {p t e} (he : HasType Γ e .bool) : HasType Γ (.unary p t .not e) .bool
  | arithmetic {p t op l r} (hop : op ∈ [BinaryOp.add, .sub, .mul, .div])
      (hl : HasType Γ l .int) (hr : HasType Γ r .int) : HasType Γ (.binary p t op l r) .int
  | logical {p t op l r} (hop : op ∈ [BinaryOp.and, .or])
      (hl : HasType Γ l .bool) (hr : HasType Γ r .bool) : HasType Γ (.binary p t op l r) .bool
  | comparison {p t op l r base}
      (hop : op ∈ [BinaryOp.less, .greater, .lessEqual, .greaterEqual, .equal, .notEqual])
      (hbase : base ≠ .void) (hl : HasType Γ l (.scalar base)) (hr : HasType Γ r (.scalar base)) :
      HasType Γ (.binary p t op l r) .bool
  | var {t v ty} (hv : Γ.find v.name = some (.var ty)) : HasType Γ (.var t v) ty
  | element {t v i base} (hv : Γ.find v.name = some (.var (.array base)))
      (hi : HasType Γ i .int) : HasType Γ (.element t v i) (.scalar base)
  | assign {p t v e base} (hv : Γ.find v.name = some (.var (.scalar base))) (hbase : base ≠ .void)
      (he : HasType Γ e (.scalar base)) : HasType Γ (.assign p t v e) (.scalar base)
  | assignElement {p t v i e base} (hv : Γ.find v.name = some (.var (.array base)))
      (hi : HasType Γ i .int) (hbase : base ≠ .void) (he : HasType Γ e (.scalar base)) :
      HasType Γ (.assignElement p t v i e) (.scalar base)
  | call {p t f args result params} (hf : Γ.find f = some (.function result params))
      (hargs : List.Forall₂ (HasType Γ) args params) :
      HasType Γ (.call p t f args) (.scalar result)

/-! ### Declarations of variables

What a declaration must satisfy on its own, what a frame of declarations must satisfy, and the cells
that they take. -/

namespace VarDecl

/-- A variable has a type other than void, or is an array; an array is not empty. -/
structure WellFormed (d : VarDecl) : Prop where
  notVoid : d.base = .void → d.shape.isArray = true
  notEmpty : d.shape ≠ .array 0

/-- The name that a declaration adds to its frame. -/
def binding (d : VarDecl) : String × Entity :=
  (d.name, .var d.ty)

/-- The names of a frame are different, and each of its variables is well formed. -/
structure FrameOf (ds : List VarDecl) : Prop where
  names : (ds.map VarDecl.name).Nodup
  each : ∀ d ∈ ds, d.WellFormed

/-- The cells that a variable takes: one, and those of the elements of an array. -/
def cells (d : VarDecl) : Nat :=
  d.shape.elements + 1

/-- The cells that variables take. -/
def cellsAll (ds : List VarDecl) : Nat :=
  (ds.map cells).sum

end VarDecl

/-! ### Statements

The rules for statements carry the result of the function. Whether a value is returned is a question
of its own, as are the cells that a statement takes. -/

namespace Stmt

mutual

/-- The cells that the declarations in a statement take; no cell is used twice. -/
def cells : Stmt → Nat
  | .exp _ _ | .ret _ _ => 0
  | .block _ ds body => VarDecl.cellsAll ds + cellsAll body
  | .ifThen _ _ a => a.cells
  | .ifElse _ _ a b => a.cells + b.cells
  | .whileDo _ _ b => b.cells

/-- The cells that the declarations in statements take. -/
def cellsAll : List Stmt → Nat
  | [] => 0
  | s :: rest => s.cells + cellsAll rest

end

/-- The statement has a return with a value in it. -/
inductive ReturnsValue : Stmt → Prop where
  | ret {p e} : ReturnsValue (.ret p (some e))
  | block {p ds body s} (hmem : s ∈ body) (h : ReturnsValue s) : ReturnsValue (.block p ds body)
  | ifThen {p t a} (h : ReturnsValue a) : ReturnsValue (.ifThen p t a)
  | thenBranch {p t a b} (h : ReturnsValue a) : ReturnsValue (.ifElse p t a b)
  | elseBranch {p t a b} (h : ReturnsValue b) : ReturnsValue (.ifElse p t a b)
  | whileDo {p t b} (h : ReturnsValue b) : ReturnsValue (.whileDo p t b)

/-- A statement is well typed in a function with the given result. -/
inductive WellTyped (result : BaseType) : TypeContext → Stmt → Prop where
  | exp {Γ p e ty} (he : HasType Γ e ty) : WellTyped result Γ (.exp p e)
  | block {Γ p ds body} (hds : VarDecl.FrameOf ds)
      (hbody : ∀ s ∈ body, WellTyped result (ds.map VarDecl.binding :: Γ) s) :
      WellTyped result Γ (.block p ds body)
  | ifThen {Γ p t a ty} (ht : HasType Γ t ty) (hty : ty = .int ∨ ty = .bool)
      (ha : WellTyped result Γ a) : WellTyped result Γ (.ifThen p t a)
  | ifElse {Γ p t a b ty} (ht : HasType Γ t ty) (hty : ty = .int ∨ ty = .bool)
      (ha : WellTyped result Γ a) (hb : WellTyped result Γ b) : WellTyped result Γ (.ifElse p t a b)
  | whileDo {Γ p t b ty} (ht : HasType Γ t ty) (hty : ty = .int ∨ ty = .bool)
      (hb : WellTyped result Γ b) : WellTyped result Γ (.whileDo p t b)
  | bareReturn {Γ p} (hvoid : result = .void) : WellTyped result Γ (.ret p none)
  | valueReturn {Γ p e} (hvoid : result ≠ .void) (he : HasType Γ e (.scalar result)) :
      WellTyped result Γ (.ret p (some e))

end Stmt

/-! ### Functions

A function is well typed with its parameters in one frame and the block of its body inside it. -/

/-- A function body as a statement. -/
def Block.toStmt (b : Block) : Stmt :=
  .block b.pos b.decls b.stmts

namespace FunDecl

/-- The cells that the parameters and all declarations in the body take. -/
def cells (f : FunDecl) : Nat :=
  VarDecl.cellsAll f.params + (f.body.map fun b => b.toStmt.cells).getD 0

/-- A function is well typed in the context of the outermost names, its own among them. -/
structure WellTyped (Γ : TypeContext) (f : FunDecl) : Prop where
  params : VarDecl.FrameOf f.params
  fits : minOffset ≤ firstFrameOffset - f.cells
  /-- The body is a block of its own inside the frame of the parameters. -/
  body : ∀ b, f.body = some b →
    b.toStmt.WellTyped f.result (f.params.map VarDecl.binding :: Γ)
  returns : ∀ b, f.body = some b → f.result ≠ .void → b.toStmt.ReturnsValue

end FunDecl

/-! ### Programs

A declaration sees those before it and itself. Names may be declared again only by prototypes and
the definition that completes them. -/

/-- A declaration of the outermost level as the others see it. -/
structure Header where
  name : String
  entity : Entity
  hasBody : Bool
deriving DecidableEq, Repr

namespace Header

/-- The name that a declaration adds to the outermost frame. -/
def binding (h : Header) : String × Entity :=
  (h.name, h.entity)

/-- Two declarations of one name declare the same function, and one of them at most has a body. -/
def Compatible (a b : Header) : Prop :=
  a.name = b.name → a.entity = b.entity ∧ (∃ result params, a.entity = .function result params) ∧
    ¬(a.hasBody = true ∧ b.hasBody = true)

end Header

/-- The routines that every program can call, as if they had been defined before it. -/
def routineHeaders : List Header :=
  [⟨"input", .function .int [], true⟩, ⟨"output", .function .void [.int], true⟩]

namespace Decl

/-- What a declaration declares. -/
def header : Decl → Header
  | .var d => ⟨d.name, .var d.ty, false⟩
  | .function f => ⟨f.name, .function f.result (f.params.map VarDecl.ty), f.body.isSome⟩

/-- The global cells that a declaration takes. -/
def cells : Decl → Nat
  | .var d => d.cells
  | .function _ => 0

/-- A declaration is well typed in the context of the outermost names, its own among them. -/
def WellTyped (Γ : TypeContext) : Decl → Prop
  | .var d => d.WellFormed
  | .function f => f.WellTyped Γ

/-- Declarations with the names that are visible in them: those of the given headers, of the
declarations before and their own. -/
def inContext (headers : List Header) : List Decl → List (TypeContext × Decl)
  | [] => []
  | d :: rest =>
    ([(headers ++ [d.header]).map Header.binding], d) :: inContext (headers ++ [d.header]) rest

end Decl

namespace Program

/-- The declarations of a program with the names that are visible in them. -/
def inContext (p : Program) : List (TypeContext × Decl) :=
  Decl.inContext routineHeaders p.decls

/-- A program is well formed. -/
structure WellFormed (p : Program) : Prop where
  names : (routineHeaders ++ p.decls.map Decl.header).Pairwise Header.Compatible
  fits : minOffset ≤ -((p.decls.map Decl.cells).sum : Int)
  decls : ∀ x ∈ p.inContext, x.2.WellTyped x.1

end Program

/-! ### The expressions of a program

Every expression in a program with the frames around it. What a frame says of a declaration is a
parameter, since the types and the storage of names are of interest in turn. -/

mutual

/-- An expression and all expressions in it. -/
def Exp.nodes : Exp → List Exp
  | .unary p t op e => .unary p t op e :: e.nodes
  | .binary p t op l r => .binary p t op l r :: (l.nodes ++ r.nodes)
  | .element t v i => .element t v i :: i.nodes
  | .assign p t v e => .assign p t v e :: e.nodes
  | .assignElement p t v i e => .assignElement p t v i e :: (i.nodes ++ e.nodes)
  | .call p t f args => .call p t f args :: Exp.nodesAll args
  | e => [e]

/-- Expressions and all expressions in them. -/
def Exp.nodesAll : List Exp → List Exp
  | [] => []
  | e :: rest => e.nodes ++ Exp.nodesAll rest

end

/-- An expression and all expressions in it, with the frames around them. -/
def Exp.nodesIn {α : Type} (Γ : α) (e : Exp) : List (α × Exp) :=
  e.nodes.map (Γ, ·)

mutual

/-- The expressions in a statement, with the frames around them. Each block is a frame, and `entry`
is what a declaration adds to its frame. -/
def Stmt.nodes {α : Type} (entry : VarDecl → α) (Γ : List (List α)) :
    Stmt → List (List (List α) × Exp)
  | .exp _ e => e.nodesIn Γ
  | .block _ ds body => Stmt.nodesAll entry (ds.map entry :: Γ) body
  | .ifThen _ t a => t.nodesIn Γ ++ a.nodes entry Γ
  | .ifElse _ t a b => t.nodesIn Γ ++ a.nodes entry Γ ++ b.nodes entry Γ
  | .whileDo _ t b => t.nodesIn Γ ++ b.nodes entry Γ
  | .ret _ none => []
  | .ret _ (some e) => e.nodesIn Γ

/-- The expressions in statements, with the frames around them. -/
def Stmt.nodesAll {α : Type} (entry : VarDecl → α) (Γ : List (List α)) :
    List Stmt → List (List (List α) × Exp)
  | [] => []
  | s :: rest => s.nodes entry Γ ++ Stmt.nodesAll entry Γ rest

end

/-- The expressions in a declaration, with the frames around them. The body of a function is a block
of its own inside the frame of the parameters. -/
def Decl.nodes {α : Type} (entry : VarDecl → α) (Γ : List (List α)) :
    Decl → List (List (List α) × Exp)
  | .var _ => []
  | .function f => (f.body.map fun b => b.toStmt.nodes entry (f.params.map entry :: Γ)).getD []

/-- The expressions in a program, with the names that are visible there. -/
def Program.nodes (p : Program) : List (TypeContext × Exp) :=
  p.inContext.flatMap fun x => x.2.nodes VarDecl.binding x.1

/-- The type that is recorded at an expression is the only one that it has. -/
def Exp.Recorded (Γ : TypeContext) (e : Exp) : Prop :=
  ∃ ty, e.ty = some ty ∧ HasType Γ e ty ∧ ∀ ty', HasType Γ e ty' → ty' = ty

/-! ### Trees without records

The parser leaves no types and no storage in a tree. This is what an analysed tree is compared with.
-/

/-- A variable without its storage. -/
def VarUse.bare (v : VarUse) : VarUse :=
  { v with layout := none }

mutual

/-- An expression without types and storage. -/
def Exp.bare : Exp → Exp
  | .int p n => .int p n
  | .bool p b => .bool p b
  | .nil p => .nil p
  | .unary p _ op e => .unary p none op e.bare
  | .binary p _ op l r => .binary p none op l.bare r.bare
  | .var _ v => .var none v.bare
  | .element _ v i => .element none v.bare i.bare
  | .assign p _ v e => .assign p none v.bare e.bare
  | .assignElement p _ v i e => .assignElement p none v.bare i.bare e.bare
  | .call p _ f args => .call p none f (Exp.bareAll args)

/-- Expressions without types and storage. -/
def Exp.bareAll : List Exp → List Exp
  | [] => []
  | e :: rest => e.bare :: Exp.bareAll rest

end

/-- A declaration without its storage. -/
def VarDecl.bare (d : VarDecl) : VarDecl :=
  { d with layout := none }

mutual

/-- A statement without types and storage. -/
def Stmt.bare : Stmt → Stmt
  | .exp p e => .exp p e.bare
  | .block p ds body => .block p (ds.map VarDecl.bare) (Stmt.bareAll body)
  | .ifThen p t a => .ifThen p t.bare a.bare
  | .ifElse p t a b => .ifElse p t.bare a.bare b.bare
  | .whileDo p t b => .whileDo p t.bare b.bare
  | .ret p v => .ret p (v.map Exp.bare)

/-- Statements without types and storage. -/
def Stmt.bareAll : List Stmt → List Stmt
  | [] => []
  | s :: rest => s.bare :: Stmt.bareAll rest

end

/-- A function body without types and storage. -/
def Block.bare (b : Block) : Block :=
  ⟨b.pos, b.decls.map VarDecl.bare, Stmt.bareAll b.stmts⟩

/-- A function without types, storage and the extent of its frame. -/
def FunDecl.bare (f : FunDecl) : FunDecl :=
  { f with params := f.params.map VarDecl.bare, body := f.body.map Block.bare, frameEnd := 0 }

/-- A declaration without types and storage. -/
def Decl.bare : Decl → Decl
  | .var d => .var d.bare
  | .function f => .function f.bare

/-- A program without types and storage. -/
def Program.bare (p : Program) : Program :=
  ⟨p.decls.map Decl.bare, 0⟩

end MiniC
