import MiniC.Token

/-!
# Syntax errors

A syntax error says what was expected, or what is wrong, at a token. Its wording names the token,
unless the token is itself the complaint.
-/

namespace MiniC

/-- The two statements with a test. -/
inductive Construct where
  | conditional
  | loop
deriving DecidableEq, Repr

/-- The keyword of a statement with a test. -/
def Construct.text : Construct → String
  | .conditional => "if"
  | .loop => "while"

/-- What is wrong with the text of a program. -/
inductive SyntaxFault where
  | lexical (fault : LexicalFault)
  | noTypeSpecifier
  | noDeclarationName
  | noVariableName
  | noParameterName
  | noArraySize
  | arraySizeTooLarge
  | openArraySize
  | openVariable
  | openParameters
  | openParameterBrackets
  | noFunctionBody
  | openBlock
  | lateDeclaration
  | noTest (construct : Construct)
  | openTest (construct : Construct)
  | openReturn
  | openStatement
  | noExpression
  | integerTooLarge
  | openArguments
  | openIndex
  | openGroup
  | assignmentTarget
deriving DecidableEq, Repr

/-- The wording of a fault, the token apart. -/
def SyntaxFault.text : SyntaxFault → String
  | .lexical fault => fault.message
  | .noTypeSpecifier => "Expect type specifier."
  | .noDeclarationName => "Expect declaration name."
  | .noVariableName => "Expect variable name."
  | .noParameterName => "Expect parameter name."
  | .noArraySize => "Expect array size."
  | .arraySizeTooLarge => "Array size out of range."
  | .openArraySize => "Expect ']' after array size."
  | .openVariable => "Expect ';' after variable declaration."
  | .openParameters => "Expect ')' after parameters."
  | .openParameterBrackets => "Expect ']' after '[' in parameter."
  | .noFunctionBody => "Expect '\x7b' before function body."
  | .openBlock => "Expect '\x7d' after block."
  | .lateDeclaration => "Declarations must come before statements in a block."
  | .noTest construct => s!"Expect '(' after '{construct.text}'."
  | .openTest construct => s!"Expect ')' after {construct.text} condition."
  | .openReturn => "Expect ';' after return value."
  | .openStatement => "Expect ';' after expression."
  | .noExpression => "Expect expression."
  | .integerTooLarge => "Integer literal out of range."
  | .openArguments => "Expect ')' after arguments."
  | .openIndex => "Expect ']' after index."
  | .openGroup => "Expect ')' after expression."
  | .assignmentTarget => "Invalid assignment target."

/-- A fault and the token at which it was found. -/
structure SyntaxError where
  fault : SyntaxFault
  token : Token
deriving DecidableEq, Repr

namespace SyntaxError

/-- The position of a syntax error is that of its token. -/
def pos (e : SyntaxError) : Pos :=
  e.token.pos

/-- The wording names the token, or the end of the input. -/
def message (e : SyntaxError) : String :=
  match e.token.kind with
  | .eof => s!"{e.fault.text} (at end of input)"
  | .invalid _ => e.fault.text
  | _ => s!"{e.fault.text} (at '{e.token.text}')"

/-- The full text of a syntax error. -/
def text (e : SyntaxError) : String :=
  diagnosticText e.message e.pos

end SyntaxError

end MiniC
