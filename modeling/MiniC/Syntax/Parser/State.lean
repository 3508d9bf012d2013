import MiniC.Syntax.Fault

/-!
# The state of a parse

A parse reads tokens one at a time and keeps going after an error: the first error silences all
others until the parser has found a place to go on from. Invalid tokens are reported and passed
over as soon as they come up, so the grammar never sees one.

* `State.advance_unread_lt`: reading a token leaves fewer unread, so recovery ends
-/

namespace MiniC.Parser

/-- The state of a parse. -/
structure State where
  /-- The kind of the token read last. -/
  last : Option Token.Kind
  /-- The tokens not read yet. -/
  unread : List Token
  /-- Where the input ends. -/
  stop : Pos
  /-- The errors so far, in the order in which they were found. -/
  errors : List SyntaxError
  /-- Set from an error until a place to go on from is found. -/
  recovering : Bool

namespace State

/-- The next token, which is the end of the input when no token is left. -/
def current (s : State) : Token :=
  s.unread.headD (Token.ofEnd s.stop)

/-- Records an error, unless an earlier one is still being recovered from. -/
def report (s : State) (token : Token) (fault : SyntaxFault) : State :=
  if s.recovering then s
  else { s with errors := s.errors ++ [⟨fault, token⟩], recovering := true }

/-- Makes `tokens` the unread tokens, reporting and dropping invalid tokens in front. -/
def settle (s : State) : List Token → State
  | [] => { s with unread := [] }
  | t :: rest =>
    match t.kind with
    | .invalid fault => (s.report t (.lexical fault)).settle rest
    | _ => { s with unread := t :: rest }

/-- Reads the next token. At the end of the input nothing is left to read. -/
def advance (s : State) : State :=
  { s with last := some s.current.kind }.settle s.unread.tail

theorem settle_unread_length_le (s : State) (tokens : List Token) :
    (s.settle tokens).unread.length ≤ tokens.length := by
  induction tokens generalizing s with
  | nil => simp [settle]
  | cons t rest ih =>
    rw [settle]
    split
    · exact Nat.le_succ_of_le (ih _)
    · simp

/-- Reading a token leaves fewer tokens unread. -/
theorem advance_unread_lt (s : State) (h : s.unread ≠ []) :
    s.advance.unread.length < s.unread.length := by
  have hle := settle_unread_length_le { s with last := some s.current.kind } s.unread.tail
  have hpos := List.length_pos_iff.mpr h
  simp only [List.length_tail] at hle
  unfold advance
  omega

end State

/-- A token that can only stand at the start of a declaration or statement. -/
def startsPhrase : Token.Kind → Bool
  | .kwInt | .kwBool | .kwVoid | .kwIf | .kwWhile | .kwReturn | .leftBrace => true
  | _ => false

/-- A token that ends a declaration or statement. -/
def endsPhrase : Option Token.Kind → Bool
  | some .semicolon | some .rightBrace => true
  | _ => false

namespace State

/-- Reads on until after the end of a phrase, or up to the start of one. -/
def seekPhrase (s : State) : State :=
  if _h : s.unread = [] then s
  else if endsPhrase s.last || startsPhrase s.current.kind then s
  else s.advance.seekPhrase
termination_by s.unread.length
decreasing_by exact s.advance_unread_lt _h

/-- Ends the silence that followed an error, at the next place to go on from. -/
def synchronize (s : State) : State :=
  { s with recovering := false }.seekPhrase

/-- Recovers from an error in a phrase that began with the token at `start`. If recovery has come no
further than that token, it is dropped, so that the next phrase begins behind it. -/
def recover (s : State) (start : Pos) : State :=
  if s.recovering then
    let s := s.synchronize
    if s.current.pos = start ∧ s.current.kind ≠ .eof then s.advance else s
  else s

end State

end MiniC.Parser
