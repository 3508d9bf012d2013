import MiniC.Syntax
import MiniC.Syntax.Fault

/-!
# Diagnostics of the analysis

A diagnostic is a cause at a position. Its kind and its wording follow from the cause.
-/

namespace MiniC

/-- What a declaration declares. -/
inductive Role where
  | var
  | param
  | function
deriving DecidableEq, Repr

/-- The word for a role inside a sentence. -/
def Role.text : Role → String
  | .var => "variable"
  | .param => "parameter"
  | .function => "function"

/-- The word for a role at the start of a sentence. -/
def Role.title : Role → String
  | .var => "Variable"
  | .param => "Parameter"
  | .function => "Function"

/-- The families of binary operators, by the operands they take. -/
inductive BinaryOp.Family where
  | arithmetic
  | logical
  | comparison
deriving DecidableEq, Repr

/-- The causes of a diagnostic. -/
inductive SemanticFault where
  | redeclared (role : Role) (name : String)
  | voidDeclared (role : Role) (name : String)
  | zeroSize
  | tooLarge (name : String)
  | noReturn (function : String)
  | bareReturn (function : String)
  | valueFromVoid (function : String)
  | returnType (function : String) (expected : BaseType) (found : Ty)
  | testType (construct : Construct)
  | voidAssigned
  | assignedType
  | operand (op : UnaryOp)
  | operands (family : BinaryOp.Family)
  | undefinedFunction (name : String)
  | notFunction (name : String)
  | arity (function : String) (expected found : Nat)
  | outputArgument
  | argumentType (number : Nat) (function : String) (expected found : Ty)
  | undefinedVariable (name : String)
  | undefinedArray (name : String)
  | notVariable (name : String)
  | notArray (name : String)
  | indexType
deriving DecidableEq, Repr

namespace SemanticFault

/-- The kinds of diagnostics. -/
inductive Kind where
  | redeclaration
  | undefinedSymbol
  | typeMismatch
  | arityMismatch
  | invalidArraySize
  | notAnArray
  | missingReturn
  | voidMisuse
deriving DecidableEq, Repr

/-- The kind of a cause. -/
def kind : SemanticFault → Kind
  | .redeclared _ _ => .redeclaration
  | .voidDeclared _ _ => .voidMisuse
  | .zeroSize => .invalidArraySize
  | .tooLarge _ => .invalidArraySize
  | .noReturn _ => .missingReturn
  | .bareReturn _ => .missingReturn
  | .valueFromVoid _ => .voidMisuse
  | .returnType _ _ _ => .typeMismatch
  | .testType _ => .typeMismatch
  | .voidAssigned => .typeMismatch
  | .assignedType => .typeMismatch
  | .operand _ => .typeMismatch
  | .operands _ => .typeMismatch
  | .undefinedFunction _ => .undefinedSymbol
  | .notFunction _ => .typeMismatch
  | .arity _ _ _ => .arityMismatch
  | .outputArgument => .typeMismatch
  | .argumentType _ _ _ _ => .typeMismatch
  | .undefinedVariable _ => .undefinedSymbol
  | .undefinedArray _ => .undefinedSymbol
  | .notVariable _ => .typeMismatch
  | .notArray _ => .notAnArray
  | .indexType => .typeMismatch

/-- The wording of a cause. -/
def message : SemanticFault → String
  | .redeclared role name => s!"Redeclaration of {role.text} '{name}'"
  | .voidDeclared role name => s!"{role.title} '{name}' cannot have type void"
  | .zeroSize => "Array size cannot be 0"
  | .tooLarge name => s!"Array '{name}' is too large"
  | .noReturn function => s!"Non-void function '{function}' may not return a value in all paths"
  | .bareReturn function => s!"Non-void function '{function}' must return a value"
  | .valueFromVoid function => s!"Void function '{function}' cannot return a value"
  | .returnType function expected found =>
    s!"Return type mismatch in function '{function}'. Expected {expected.text} but got {found.text}"
  | .testType construct => s!"Test condition in {construct.text} statement must be int or bool"
  | .voidAssigned => "Cannot assign to/from void type"
  | .assignedType => "Type mismatch in assignment"
  | .operand .not => "Logical NOT operation requires a boolean operand"
  | .operand .neg => "Unary minus operation requires an integer operand"
  | .operands .arithmetic => "Arithmetic operations require integer operands"
  | .operands .logical => "Logical operations require boolean operands"
  | .operands .comparison => "Comparison operations require operands of the same type"
  | .undefinedFunction name => s!"Undefined function '{name}'"
  | .notFunction name => s!"'{name}' is not a function"
  | .arity function expected found =>
    s!"Function '{function}' expects {expected} arguments, but got {found}"
  | .outputArgument => "output function requires integer arguments"
  | .argumentType number function expected found =>
    s!"Argument {number} of function '{function}' has wrong type. " ++
      s!"Expected {expected.text} but got {found.text}"
  | .undefinedVariable name => s!"Undefined variable '{name}'"
  | .undefinedArray name => s!"Undefined array '{name}'"
  | .notVariable name => s!"'{name}' is a function, not a variable"
  | .notArray name => s!"Variable '{name}' is not an array"
  | .indexType => "Array index must be an integer"

end SemanticFault

/-- A cause at a position. -/
structure Diagnostic where
  pos : Pos
  fault : SemanticFault
deriving DecidableEq, Repr

/-- The full text of a diagnostic. -/
def Diagnostic.text (d : Diagnostic) : String :=
  diagnosticText d.fault.message d.pos

/-- One diagnostic unless the condition holds. -/
def demand (holds : Bool) (pos : Pos) (fault : SemanticFault) : List Diagnostic :=
  if holds then [] else [⟨pos, fault⟩]

end MiniC
