/-!
# Alignment of text in columns
-/

namespace MiniC.Text

/-- A number of blanks. -/
def blanks (n : Nat) : String :=
  String.ofList (List.replicate n ' ')

/-- Fills a text up to a width with blanks on its left; a wider text stays as it is. -/
def alignRight (width : Nat) (text : String) : String :=
  blanks (width - text.length) ++ text

end MiniC.Text
