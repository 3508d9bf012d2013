/-!
# Splitting text at a character
-/

namespace MiniC.Text

/-- The pieces of a text between the occurrences of `sep`; there is one more piece than there are
occurrences. -/
def split (sep : Char) : List Char → List (List Char)
  | [] => [[]]
  | c :: rest =>
    if c = sep then [] :: split sep rest
    else
      match split sep rest with
      | [] => [[c]]
      | piece :: pieces => (c :: piece) :: pieces

end MiniC.Text
