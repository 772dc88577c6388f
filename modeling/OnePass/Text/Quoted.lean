import OnePass.Text.Combining
import OnePass.Text.Unprintable

/-! # Quoted characters

A character in a message stands between single quotes. The six characters that would garble the
quotation have short escapes; any other character that cannot be seen on its own is given by its
code point in hexadecimal.
-/
namespace OnePass.Text

def hexadecimal (n : Nat) : String :=
  String.ofList (Nat.toDigits 16 n)

/-- The text of a character inside single quotes. A double quote needs no escape there. -/
def escaped (c : Char) : String :=
  if c = '\x00' then "\\0"
  else if c = '\t' then "\\t"
  else if c = '\r' then "\\r"
  else if c = '\n' then "\\n"
  else if c = '\'' then "\\'"
  else if c = '\\' then "\\\\"
  else if isCombining c || isUnprintable c then
    "\\u\x7b" ++ hexadecimal c.toNat ++ "\x7d"
  else c.toString

def quoted (c : Char) : String :=
  "'" ++ escaped c ++ "'"

end OnePass.Text
