import MiniC.Pos

/-!
# Tokens

The words of the language. A stretch of text that starts no token, and a comment that is never
closed, are tokens too: an `invalid` token keeps the reason, so that a reader of the tokens decides
what to do about it.
-/

namespace MiniC

/-- Why a stretch of text is no token. -/
inductive LexicalFault where
  | strayByte
  | loneAmpersand
  | loneBar
  | unterminatedComment
deriving DecidableEq, Repr

/-- The wording of a lexical fault. -/
def LexicalFault.message : LexicalFault → String
  | .strayByte => "Unexpected character."
  | .loneAmpersand => "Unexpected character '&'."
  | .loneBar => "Unexpected character '|'."
  | .unterminatedComment => "Unterminated comment."

namespace Token

/-- What a token is, its spelling and place apart. -/
inductive Kind where
  | leftParen | rightParen | leftBrace | rightBrace | leftBracket | rightBracket
  | comma | semicolon
  | minus | plus | slash | star
  | bang | bangEqual | equal | equalEqual | greater | greaterEqual | less | lessEqual
  | andAnd | orOr
  | identifier | integer
  | kwBool | kwElse | kwFalse | kwIf | kwInt | kwReturn | kwTrue | kwVoid | kwWhile
  | invalid (fault : LexicalFault)
  | eof
deriving DecidableEq, Repr

/-- The reserved words; every other word is an identifier. -/
def Kind.ofWord : String → Kind
  | "bool" => .kwBool
  | "else" => .kwElse
  | "false" => .kwFalse
  | "if" => .kwIf
  | "int" => .kwInt
  | "return" => .kwReturn
  | "true" => .kwTrue
  | "void" => .kwVoid
  | "while" => .kwWhile
  | _ => .identifier

end Token

/-- A token with its spelling and the position of its first byte. An invalid token is spelled by
the wording of its fault, the end of the input by nothing. -/
structure Token where
  kind : Token.Kind
  text : String
  pos : Pos
deriving DecidableEq, Repr

namespace Token

/-- The token that says why the text at `pos` is none. -/
def ofFault (fault : LexicalFault) (pos : Pos) : Token :=
  ⟨.invalid fault, fault.message, pos⟩

/-- The end of the input. -/
def ofEnd (pos : Pos) : Token :=
  ⟨.eof, "", pos⟩

end Token

/-- A scanned source: its tokens in order, and the position at which the input ends. -/
structure TokenStream where
  tokens : List Token
  stop : Pos

/-- All tokens, the end of the input last. -/
def TokenStream.toList (s : TokenStream) : List Token :=
  s.tokens ++ [Token.ofEnd s.stop]

end MiniC
