/-! # Lines of a text

A line ends at a line feed, which is not part of it; a carriage return right before the line feed
is dropped as well. A text that ends with a line feed has no empty line behind it.

Padding knows no widest field: every width is taken to be one that a text can be formatted to.
-/
namespace OnePass.Text

/-- A line given back to front, without the carriage return at its end. -/
def closeLine : List Char → String
  | '\r' :: reversed => String.ofList reversed.reverse
  | reversed => String.ofList reversed.reverse

/-- The lines of `rest`, where `reversed` holds the characters of the line begun so far. -/
def linesFrom (reversed : List Char) : List Char → List String
  | [] => if reversed.isEmpty then [] else [String.ofList reversed.reverse]
  | c :: rest =>
    if c = '\n' then closeLine reversed :: linesFrom [] rest
    else linesFrom (c :: reversed) rest

def lines (text : String) : List String :=
  linesFrom [] text.toList

def padRight (text : String) (width : Nat) : String :=
  text ++ String.ofList (List.replicate (width - text.length) ' ')

end OnePass.Text
