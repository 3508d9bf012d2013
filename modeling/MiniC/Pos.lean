/-!
# Source positions

A position names a byte of the source text by its row and its column, both counted from zero;
columns count bytes. Only a line feed ends a row.
-/

namespace MiniC

/-- Zero-based coordinates of a byte of the source text. -/
structure Pos where
  row : Nat
  col : Nat
deriving DecidableEq, Repr, Inhabited

namespace Pos

/-- The position after `n` bytes none of which ends the row. -/
def right (p : Pos) (n : Nat) : Pos :=
  ⟨p.row, p.col + n⟩

/-- The position after the byte `c`. -/
def after (p : Pos) (c : Char) : Pos :=
  if c = '\n' then ⟨p.row + 1, 0⟩ else p.right 1

/-- Readers count rows and columns from one. -/
def text (p : Pos) : String :=
  s!"line {p.row + 1}, column {p.col + 1}"

/-- Reading order: by row, then by column. -/
def le (p q : Pos) : Prop :=
  p.row < q.row ∨ p.row = q.row ∧ p.col ≤ q.col

end Pos

/-- The text of a diagnostic: what is wrong and where. -/
def diagnosticText (message : String) (pos : Pos) : String :=
  s!"Error: {message} at {pos.text}"

end MiniC
