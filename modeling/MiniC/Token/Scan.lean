import MiniC.Token

/-!
# Scanning

The source is read byte by byte. Between tokens stand blanks, line comments and block comments;
at the first byte of a token the longest spelling wins.

* `Cursor.next`: the next token and the cursor behind it
* `scan`: all tokens of a source
* `Cursor.next_shorter`: a token other than the end of the input uses up text, so scanning ends
-/

namespace MiniC

/-- The bytes of a text, each as the character of that code. Every byte of a character outside
ASCII is above `'\x7f'`, so none of them is mistaken for an ASCII character. -/
def octets (source : String) : List Char :=
  source.toUTF8.toList.map Char.ofUInt8

/-- The unread text and the position of its first byte. -/
structure Cursor where
  rest : List Char
  pos : Pos

namespace Token

/-- A blank between tokens. -/
def isBlank (c : Char) : Bool :=
  c = ' ' || c = '\t' || c = '\r' || c = '\n'

/-- A character that may start a word. -/
def isWordStart (c : Char) : Bool :=
  c.isAlpha || c = '_'

/-- A character that may follow in a word. -/
def isWordRest (c : Char) : Bool :=
  c.isAlphanum || c = '_'

/-- What the text between two tokens is inside of. -/
inductive Gap where
  | blank
  | lineComment
  | blockComment (start : Pos)

/-- Skips to the next token. The first component is the start of a comment that is never closed;
such a comment reaches to the end of the text. -/
def skip : Gap → Pos → List Char → Option Pos × Cursor
  | .blank, p, '/' :: '/' :: r => skip .lineComment (p.right 2) r
  | .blank, p, '/' :: '*' :: r => skip (.blockComment p) (p.right 2) r
  | .blank, p, c :: r => if isBlank c then skip .blank (p.after c) r else (none, ⟨c :: r, p⟩)
  | .lineComment, p, c :: r => skip (if c = '\n' then .blank else .lineComment) (p.after c) r
  | .blockComment _, p, '*' :: '/' :: r => skip .blank (p.right 2) r
  | .blockComment start, p, c :: r => skip (.blockComment start) (p.after c) r
  | .blockComment start, p, [] => (some start, ⟨[], p⟩)
  | .blank, p, [] => (none, ⟨[], p⟩)
  | .lineComment, p, [] => (none, ⟨[], p⟩)

/-- The kind of the longest token that starts with `c` before the text `r`, and how many
characters of `r` belong to it. -/
def longest (c : Char) (r : List Char) : Kind × Nat :=
  match c, r with
  | '(', _ => (.leftParen, 0)
  | ')', _ => (.rightParen, 0)
  | '{', _ => (.leftBrace, 0)
  | '}', _ => (.rightBrace, 0)
  | '[', _ => (.leftBracket, 0)
  | ']', _ => (.rightBracket, 0)
  | ';', _ => (.semicolon, 0)
  | ',', _ => (.comma, 0)
  | '-', _ => (.minus, 0)
  | '+', _ => (.plus, 0)
  | '/', _ => (.slash, 0)
  | '*', _ => (.star, 0)
  | '~', _ => (.bang, 0)
  | '!', '=' :: _ => (.bangEqual, 1)
  | '!', _ => (.bang, 0)
  | '=', '=' :: _ => (.equalEqual, 1)
  | '=', _ => (.equal, 0)
  | '<', '=' :: _ => (.lessEqual, 1)
  | '<', _ => (.less, 0)
  | '>', '=' :: _ => (.greaterEqual, 1)
  | '>', _ => (.greater, 0)
  | '&', '&' :: _ => (.andAnd, 1)
  | '&', _ => (.invalid .loneAmpersand, 0)
  | '|', '|' :: _ => (.orOr, 1)
  | '|', _ => (.invalid .loneBar, 0)
  | c, r =>
    if c.isDigit then
      (.integer, (r.takeWhile Char.isDigit).length)
    else if isWordStart c then
      (Kind.ofWord (String.ofList (c :: r.takeWhile isWordRest)), (r.takeWhile isWordRest).length)
    else
      (.invalid .strayByte, 0)

end Token

namespace Cursor

/-- The token that starts with the byte `c` at `p`, before the text `r`. -/
def tokenAt (c : Char) (r : List Char) (p : Pos) : Token :=
  match Token.longest c r with
  | (.invalid fault, _) => Token.ofFault fault p
  | (kind, n) => ⟨kind, String.ofList (c :: r.take n), p⟩

/-- The next token, and the cursor behind it. At the end of the input the cursor stays. -/
def next (cursor : Cursor) : Token × Cursor :=
  match Token.skip .blank cursor.pos cursor.rest with
  | (some start, behind) => (Token.ofFault .unterminatedComment start, behind)
  | (none, ⟨[], p⟩) => (Token.ofEnd p, ⟨[], p⟩)
  | (none, ⟨c :: r, p⟩) =>
    let n := (Token.longest c r).2
    (tokenAt c r p, ⟨r.drop n, p.right (n + 1)⟩)

end Cursor

namespace Token

theorem skip_length_le (gap : Gap) (p : Pos) (cs : List Char) :
    (skip gap p cs).2.rest.length ≤ cs.length := by
  fun_induction skip gap p cs <;> simp_all <;> omega

theorem skip_unterminated {gap : Gap} {p start : Pos} {cs : List Char}
    (h : (skip gap p cs).1 = some start) : (skip gap p cs).2.rest = [] := by
  fun_induction skip gap p cs <;> simp_all

/-- An open comment was opened by two bytes. -/
theorem ne_nil_of_skip_unterminated {p start : Pos} {cs : List Char}
    (h : (skip .blank p cs).1 = some start) : cs ≠ [] := by
  rintro rfl
  simp [skip] at h

end Token

namespace Cursor

/-- A token other than the end of the input uses up text. -/
theorem next_shorter (cursor : Cursor) (h : cursor.next.1.kind ≠ .eof) :
    cursor.next.2.rest.length < cursor.rest.length := by
  have hle := Token.skip_length_le .blank cursor.pos cursor.rest
  unfold next at h ⊢
  split at h
  · rename_i start behind hs
    have hopen : (Token.skip .blank cursor.pos cursor.rest).1 = some start := by rw [hs]
    have hnil := Token.skip_unterminated hopen
    have hne := Token.ne_nil_of_skip_unterminated hopen
    rw [hs] at hnil
    simp only at hnil
    simp [hnil, List.length_pos_iff, hne]
  · simp [Token.ofEnd] at h
  · rename_i c r p hs
    rw [hs] at hle
    simp only [List.length_cons, List.length_drop] at hle ⊢
    omega

/-- All tokens from the cursor on. -/
def tokens (cursor : Cursor) : TokenStream :=
  if _h : cursor.next.1.kind = .eof then
    ⟨[], cursor.next.1.pos⟩
  else
    let behind := tokens cursor.next.2
    ⟨cursor.next.1 :: behind.tokens, behind.stop⟩
termination_by cursor.rest.length
decreasing_by exact next_shorter cursor _h

end Cursor

/-- The tokens of a source text. -/
def scan (source : String) : TokenStream :=
  Cursor.tokens ⟨octets source, ⟨0, 0⟩⟩

end MiniC
