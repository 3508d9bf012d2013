import MiniC.Pos

/-!
# Programs

The tree of a program. Three kinds of slots are empty after parsing and are filled later: the
analysis records the type of each expression, the storage of each variable and the extent of each
frame; code generation records the address at which each function starts.
-/

namespace MiniC

/-- The largest number that can be written: array sizes and the numbers in expressions are those of
32 bits. -/
def maxNumeral : Nat := 2147483647

/-- The types a declaration can name. -/
inductive BaseType where
  | int
  | bool
  | void
deriving DecidableEq, Repr

/-- The keyword of a base type. -/
def BaseType.text : BaseType → String
  | .int => "int"
  | .bool => "bool"
  | .void => "void"

/-- The type of an expression: a base type, or an array of it. -/
structure Ty where
  base : BaseType
  isArray : Bool
deriving DecidableEq, Repr

namespace Ty

/-- A single value of a base type. -/
def scalar (base : BaseType) : Ty :=
  ⟨base, false⟩

/-- An array of a base type. -/
def array (base : BaseType) : Ty :=
  ⟨base, true⟩

/-- Arrays are written with a pair of brackets. -/
def text (t : Ty) : String :=
  if t.isArray then t.base.text ++ "[]" else t.base.text

end Ty

/-- Operators with one operand. -/
inductive UnaryOp where
  | neg
  | not
deriving DecidableEq, Repr

/-- The canonical spelling of an operator. -/
def UnaryOp.symbol : UnaryOp → String
  | .neg => "-"
  | .not => "!"

/-- Operators with two operands. -/
inductive BinaryOp where
  | add | sub | mul | div
  | less | greater | lessEqual | greaterEqual | equal | notEqual
  | and | or
deriving DecidableEq, Repr

/-- The spelling of an operator. -/
def BinaryOp.symbol : BinaryOp → String
  | .add => "+"
  | .sub => "-"
  | .mul => "*"
  | .div => "/"
  | .less => "<"
  | .greater => ">"
  | .lessEqual => "<="
  | .greaterEqual => ">="
  | .equal => "=="
  | .notEqual => "!="
  | .and => "&&"
  | .or => "||"

/-- How the cell of a variable is used. -/
inductive Storage where
  /-- The cell holds the value. -/
  | scalar
  /-- The array lies in place, and the cell below its elements holds its length. -/
  | array
  /-- The cell holds the address of the length cell of another array. -/
  | arrayRef
deriving DecidableEq, Repr

/-- The storage of a variable: an offset from the base of the global cells (level 0) or from the
frame of the running function (any other level). -/
structure Layout where
  level : Nat
  offset : Int
  storage : Storage
deriving DecidableEq, Repr

/-- Whether the offset counts from the global cells. -/
def Layout.isGlobal (l : Layout) : Bool :=
  l.level == 0

/-- An occurrence of a variable's name, with the storage found for it. -/
structure VarUse where
  pos : Pos
  name : String
  layout : Option Layout
deriving DecidableEq, Repr

/-- Expressions. A literal and the empty expression have the type of their form; every other
expression has a slot for its type. -/
inductive Exp where
  | int (pos : Pos) (value : Nat)
  | bool (pos : Pos) (value : Bool)
  /-- The expression of a statement that consists of a semicolon alone. -/
  | nil (pos : Pos)
  | unary (pos : Pos) (ty : Option Ty) (op : UnaryOp) (operand : Exp)
  | binary (pos : Pos) (ty : Option Ty) (op : BinaryOp) (lhs rhs : Exp)
  | var (ty : Option Ty) (var : VarUse)
  | element (ty : Option Ty) (array : VarUse) (index : Exp)
  | assign (pos : Pos) (ty : Option Ty) (target : VarUse) (value : Exp)
  | assignElement (pos : Pos) (ty : Option Ty) (target : VarUse) (index value : Exp)
  | call (pos : Pos) (ty : Option Ty) (callee : String) (args : List Exp)
deriving Repr

namespace Exp

/-- The position of an expression is that of its characteristic token: the operator, the equals
sign of an assignment, otherwise the first token. -/
def pos : Exp → Pos
  | .int p _ => p
  | .bool p _ => p
  | .nil p => p
  | .unary p _ _ _ => p
  | .binary p _ _ _ _ => p
  | .var _ v => v.pos
  | .element _ v _ => v.pos
  | .assign p _ _ _ => p
  | .assignElement p _ _ _ _ => p
  | .call p _ _ _ => p

/-- The recorded type of an expression. -/
def ty : Exp → Option Ty
  | .int _ _ => some (.scalar .int)
  | .bool _ _ => some (.scalar .bool)
  | .nil _ => some (.scalar .void)
  | .unary _ t _ _ => t
  | .binary _ t _ _ _ => t
  | .var t _ => t
  | .element t _ _ => t
  | .assign _ t _ _ => t
  | .assignElement _ t _ _ _ => t
  | .call _ t _ _ => t

end Exp

/-- The shape of a declared variable. Only a parameter can be a reference to an array. -/
inductive Shape where
  | scalar
  | array (size : Nat)
  | reference
deriving DecidableEq, Repr

/-- Whether a name of this shape denotes an array. -/
def Shape.isArray : Shape → Bool
  | .scalar => false
  | .array _ => true
  | .reference => true

/-- The declaration of a variable or of a parameter, at the position of its type. -/
structure VarDecl where
  pos : Pos
  base : BaseType
  name : String
  shape : Shape
  layout : Option Layout
deriving DecidableEq, Repr

/-- The type of the declared name. -/
def VarDecl.ty (d : VarDecl) : Ty :=
  ⟨d.base, d.shape.isArray⟩

/-- Statements. -/
inductive Stmt where
  | exp (pos : Pos) (e : Exp)
  | block (pos : Pos) (decls : List VarDecl) (body : List Stmt)
  | ifThen (pos : Pos) (test : Exp) (thenBranch : Stmt)
  | ifElse (pos : Pos) (test : Exp) (thenBranch elseBranch : Stmt)
  | whileDo (pos : Pos) (test : Exp) (body : Stmt)
  | ret (pos : Pos) (value : Option Exp)
deriving Repr

/-- A function body: declarations, then statements, at the position of its brace. -/
structure Block where
  pos : Pos
  decls : List VarDecl
  stmts : List Stmt
deriving Repr

/-- The declaration of a function; one without a body is a prototype. -/
structure FunDecl where
  pos : Pos
  result : BaseType
  name : String
  params : List VarDecl
  body : Option Block
  /-- The first free offset of the frame, below the parameters and locals. -/
  frameEnd : Int
  /-- The address of the first instruction. -/
  entry : Option Nat
deriving Repr

/-- Declarations of the outermost level. -/
inductive Decl where
  | var (decl : VarDecl)
  | function (decl : FunDecl)
deriving Repr

/-- A whole program. -/
structure Program where
  decls : List Decl
  /-- The first free global offset; the outermost frame starts there. -/
  globalsEnd : Int
deriving Repr

/-- The function declared by a declaration, if it declares one. -/
def Decl.function? : Decl → Option FunDecl
  | .var _ => none
  | .function f => some f

/-- The declared functions in order, prototypes included. -/
def Program.functions (p : Program) : List FunDecl :=
  p.decls.filterMap Decl.function?

end MiniC
