import MiniC.Syntax
import MiniC.Syntax.Parser.State
import MiniC.Text.Decimal
import MiniC.Token.Scan

/-!
# Parsing

Recursive descent, with expressions read by the level of their operators. The parser goes on after
an error, and answers either the tree or all errors in source order.

A parse is bounded by its number of tokens: between two recursive calls at most a few steps go by
without a token being read. The recursion counts down from `bound`, which allows for that; a parse
that ran out of steps would answer `none`.

* `Program.ofTokens`: the program that a token stream spells, or the errors in it
* `parse`: the same for a source text
-/

namespace MiniC.Parser

/-- A reader of some phrase. It answers `none` only when it runs out of steps. -/
abbrev Reader (α : Type) := StateT State Option α

/-- The answer of a reader that has run out of steps. -/
def outOfSteps {α : Type} : Reader α :=
  fun _ => none

/-- The next token, left unread. -/
def peek : Reader Token :=
  return (← get).current

/-- Reads the next token. -/
def read : Reader Token := do
  let s ← get
  set s.advance
  return s.current

/-- Records an error. -/
def report (token : Token) (fault : SyntaxFault) : Reader Unit :=
  modify fun s => s.report token fault

/-- Reads the next token if it is of the given kind. -/
def accept (kind : Token.Kind) : Reader Bool := do
  if (← peek).kind = kind then
    let _ ← read
    return true
  else
    return false

/-- Reads the next token, which must be of the given kind; otherwise reports the fault there. -/
def expect (kind : Token.Kind) (fault : SyntaxFault) : Reader (Option Token) := do
  let t ← peek
  if t.kind = kind then
    return some (← read)
  else
    report t fault
    return none

/-! ### Operators -/

/-- What may stand between two operands. -/
inductive Connective where
  | assignment
  | binary (op : BinaryOp)
deriving DecidableEq

namespace Connective

/-- The connective that a token spells. -/
def ofKind? : Token.Kind → Option Connective
  | .equal => some .assignment
  | .orOr => some (.binary .or)
  | .andAnd => some (.binary .and)
  | .equalEqual => some (.binary .equal)
  | .bangEqual => some (.binary .notEqual)
  | .less => some (.binary .less)
  | .greater => some (.binary .greater)
  | .lessEqual => some (.binary .lessEqual)
  | .greaterEqual => some (.binary .greaterEqual)
  | .plus => some (.binary .add)
  | .minus => some (.binary .sub)
  | .star => some (.binary .mul)
  | .slash => some (.binary .div)
  | _ => none

/-- How tightly a connective binds, from one (loosest) to seven. -/
def level : Connective → Nat
  | .assignment => 1
  | .binary .or => 2
  | .binary .and => 3
  | .binary .equal | .binary .notEqual => 4
  | .binary .less | .binary .greater | .binary .lessEqual | .binary .greaterEqual => 5
  | .binary .add | .binary .sub => 6
  | .binary .mul | .binary .div => 7

/-- The level of the right operand. Assignment associates to the right, all else to the left. -/
def rightLevel : Connective → Nat
  | .assignment => 1
  | c => c.level + 1

end Connective

/-- The level of a whole expression. -/
def looseLevel : Nat := 1

/-- The level of an operand of a unary operator, above every connective. -/
def tightLevel : Nat := 8

/-- Joins two operands. Only a variable or an array element can be assigned to; otherwise the
fault is reported at the equals sign, and the value stands for the assignment. -/
def join (c : Connective) (token : Token) (lhs rhs : Exp) : Reader Exp :=
  match c, lhs with
  | .binary op, _ => return .binary token.pos none op lhs rhs
  | .assignment, .var _ v => return .assign token.pos none v rhs
  | .assignment, .element _ v index => return .assignElement token.pos none v index rhs
  | .assignment, _ => do
    report token .assignmentTarget
    return rhs

/-- The number that an integer token spells, if it can be written. -/
def literal? (text : String) : Option Nat :=
  (Decimal.readNat? text.toList).filter (· ≤ maxNumeral)

/-! ### Expressions -/

mutual

/-- An expression whose connectives bind at least as tightly as `level`. -/
def expression (steps : Nat) (level : Nat) : Reader Exp :=
  match steps with
  | 0 => outOfSteps
  | steps + 1 => do
    let first ← operand steps
    connected steps level first

/-- An operand: a literal, a variable, a call, or an expression in parentheses, with the unary
operators in front of it. -/
def operand (steps : Nat) : Reader Exp :=
  match steps with
  | 0 => outOfSteps
  | steps + 1 => do
    let t ← read
    match t.kind with
    | .leftParen => do
      let e ← expression steps looseLevel
      let _ ← expect .rightParen .openGroup
      return e
    | .minus => return .unary t.pos none .neg (← expression steps tightLevel)
    | .bang => return .unary t.pos none .not (← expression steps tightLevel)
    | .integer =>
      match literal? t.text with
      | some value => return .int t.pos value
      | none => do
        report t .integerTooLarge
        return .int t.pos 0
    | .kwTrue => return .bool t.pos true
    | .kwFalse => return .bool t.pos false
    | .identifier => do
      if ← accept .leftParen then
        let args ← if (← peek).kind = .rightParen then pure [] else arguments steps
        let _ ← expect .rightParen .openArguments
        return .call t.pos none t.text args
      else if ← accept .leftBracket then
        let index ← expression steps looseLevel
        let _ ← expect .rightBracket .openIndex
        return .element none ⟨t.pos, t.text, none⟩ index
      else
        return .var none ⟨t.pos, t.text, none⟩
    | _ => do
      report t .noExpression
      return .nil t.pos

/-- The connectives and operands that follow `lhs`, as far as they bind tightly enough. -/
def connected (steps : Nat) (level : Nat) (lhs : Exp) : Reader Exp :=
  match steps with
  | 0 => outOfSteps
  | steps + 1 => do
    match Connective.ofKind? (← peek).kind with
    | none => return lhs
    | some c =>
      if level ≤ c.level then do
        let t ← read
        let rhs ← expression steps c.rightLevel
        let e ← join c t lhs rhs
        connected steps level e
      else
        return lhs

/-- One or more arguments. -/
def arguments (steps : Nat) : Reader (List Exp) :=
  match steps with
  | 0 => outOfSteps
  | steps + 1 => do
    let e ← expression steps looseLevel
    if ← accept .comma then
      return e :: (← arguments steps)
    else
      return [e]

end

/-! ### Declarations of variables -/

/-- The type that a keyword names. -/
def baseType? : Token.Kind → Option BaseType
  | .kwInt => some .int
  | .kwBool => some .bool
  | .kwVoid => some .void
  | _ => none

/-- The keyword of a type, with its position. -/
def typeSpecifier : Reader (Option (Pos × BaseType)) := do
  let t ← peek
  match baseType? t.kind with
  | some base => do
    let _ ← read
    return some (t.pos, base)
  | none => do
    report t .noTypeSpecifier
    return none

/-- The shape that a variable's name is followed by. -/
def shape : Reader (Option Shape) := do
  if ← accept .leftBracket then
    let some size ← expect .integer .noArraySize | return none
    match literal? size.text with
    | none => do
      report size .arraySizeTooLarge
      return none
    | some n => do
      let some _ ← expect .rightBracket .openArraySize | return none
      return some (.array n)
  else
    return some .scalar

/-- The rest of a variable's declaration, after its name. -/
def variableRest (pos : Pos) (base : BaseType) (name : Token) : Reader (Option VarDecl) := do
  let some shape ← shape | return none
  let some _ ← expect .semicolon .openVariable | return none
  return some ⟨pos, base, name.text, shape, none⟩

/-- A declaration of a variable inside a block. -/
def localVariable : Reader (Option VarDecl) := do
  let some (pos, base) ← typeSpecifier | return none
  let some name ← expect .identifier .noVariableName | return none
  variableRest pos base name

/-- The declarations at the start of a block. -/
def localVariables (steps : Nat) : Reader (List VarDecl) :=
  match steps with
  | 0 => outOfSteps
  | steps + 1 => do
    if (baseType? (← peek).kind).isSome then
      let d ← localVariable
      modify fun s => if s.recovering then s.synchronize else s
      return d.toList ++ (← localVariables steps)
    else
      return []

/-! ### Statements -/

/-- The test of a statement, in parentheses. -/
def test (steps : Nat) (construct : Construct) : Reader Exp := do
  let _ ← expect .leftParen (.noTest construct)
  let e ← expression steps looseLevel
  let _ ← expect .rightParen (.openTest construct)
  return e

mutual

/-- A statement. -/
def statement (steps : Nat) : Reader Stmt :=
  match steps with
  | 0 => outOfSteps
  | steps + 1 => do
    let t ← peek
    match t.kind with
    | .leftBrace => do
      let _ ← read
      let (decls, body) ← blockRest steps
      return .block t.pos decls body
    | .kwIf => do
      let _ ← read
      let condition ← test steps .conditional
      let thenBranch ← statement steps
      if ← accept .kwElse then
        return .ifElse t.pos condition thenBranch (← statement steps)
      else
        return .ifThen t.pos condition thenBranch
    | .kwWhile => do
      let _ ← read
      let condition ← test steps .loop
      return .whileDo t.pos condition (← statement steps)
    | .kwReturn => do
      let _ ← read
      if ← accept .semicolon then
        return .ret t.pos none
      else
        let value ← expression steps looseLevel
        let _ ← expect .semicolon .openReturn
        return .ret t.pos (some value)
    | .semicolon => do
      let _ ← read
      return .exp t.pos (.nil t.pos)
    | .kwInt | .kwBool | .kwVoid => do
      report t .lateDeclaration
      let _ ← read
      return .exp t.pos (.nil t.pos)
    | _ => do
      let e ← expression steps looseLevel
      let _ ← expect .semicolon .openStatement
      return .exp t.pos e

/-- The rest of a block, after its opening brace. -/
def blockRest (steps : Nat) : Reader (List VarDecl × List Stmt) :=
  match steps with
  | 0 => outOfSteps
  | steps + 1 => do
    let decls ← localVariables steps
    let body ← statements steps
    let _ ← expect .rightBrace .openBlock
    return (decls, body)

/-- The statements up to a closing brace or the end of the input. -/
def statements (steps : Nat) : Reader (List Stmt) :=
  match steps with
  | 0 => outOfSteps
  | steps + 1 => do
    let s ← get
    if s.current.kind = .rightBrace ∨ s.current.kind = .eof then
      return []
    else
      let first ← statement steps
      modify fun t => t.recover s.current.pos
      return first :: (← statements steps)

end

/-! ### Declarations of the outermost level -/

/-- The rest of a parameter, after its type. -/
def parameterRest (pos : Pos) (base : BaseType) : Reader (Option VarDecl) := do
  let some name ← expect .identifier .noParameterName | return none
  if ← accept .leftBracket then
    let some _ ← expect .rightBracket .openParameterBrackets | return none
    return some ⟨pos, base, name.text, .reference, none⟩
  else
    return some ⟨pos, base, name.text, .scalar, none⟩

/-- One or more parameters; `void` alone stands for none. -/
def parameterList (steps : Nat) (first : Bool) : Reader (Option (List VarDecl)) :=
  match steps with
  | 0 => outOfSteps
  | steps + 1 => do
    let some (pos, base) ← typeSpecifier | return none
    if first ∧ base = .void ∧ (← peek).kind = .rightParen then
      return some []
    else
      let some param ← parameterRest pos base | return none
      if ← accept .comma then
        let some rest ← parameterList steps false | return none
        return some (param :: rest)
      else
        return some [param]

/-- The parameters of a function, up to the closing parenthesis. -/
def parameters (steps : Nat) : Reader (Option (List VarDecl)) := do
  if (← peek).kind = .rightParen then
    return some []
  else
    parameterList steps true

/-- The rest of a function's declaration, after its opening parenthesis. -/
def functionRest (steps : Nat) (pos : Pos) (result : BaseType) (name : Token) :
    Reader (Option FunDecl) := do
  let some params ← parameters steps | return none
  let some _ ← expect .rightParen .openParameters | return none
  if ← accept .semicolon then
    return some ⟨pos, result, name.text, params, none, 0, none⟩
  else
    let some brace ← expect .leftBrace .noFunctionBody | return none
    let (decls, stmts) ← blockRest steps
    return some ⟨pos, result, name.text, params, some ⟨brace.pos, decls, stmts⟩, 0, none⟩

/-- A declaration of the outermost level. -/
def declaration (steps : Nat) : Reader (Option Decl) := do
  let some (pos, base) ← typeSpecifier | return none
  let some name ← expect .identifier .noDeclarationName | return none
  if ← accept .leftParen then
    return (← functionRest steps pos base name).map .function
  else
    return (← variableRest pos base name).map .var

/-- The declarations up to the end of the input. -/
def declarations (steps : Nat) : Reader (List Decl) :=
  match steps with
  | 0 => outOfSteps
  | steps + 1 => do
    let s ← get
    if s.current.kind = .eof then
      return []
    else
      let d ← declaration steps
      modify fun t => t.recover s.current.pos
      return d.toList ++ (← declarations steps)

/-- The state before the first token. -/
def start (stream : TokenStream) : State :=
  State.settle ⟨none, [], stream.stop, [], false⟩ stream.tokens

/-- Steps that suffice for a number of tokens. -/
def bound (tokens : Nat) : Nat :=
  8 * tokens + 16

end Parser

/-- The program that a token stream spells, or the errors in it. -/
def Program.ofTokens (stream : TokenStream) : Except (List SyntaxError) Program :=
  match (Parser.declarations (Parser.bound stream.tokens.length)).run (Parser.start stream) with
  | none => .error []
  | some (decls, s) => if s.errors.isEmpty then .ok ⟨decls, 0⟩ else .error s.errors

/-- The program that a source text spells, or the errors in it. -/
def parse (source : String) : Except (List SyntaxError) Program :=
  Program.ofTokens (scan source)

end MiniC
