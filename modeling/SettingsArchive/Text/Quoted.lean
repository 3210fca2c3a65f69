import SettingsArchive.Text.Unprintable

/-!
# Quoted text

Messages show a path, an identifier or the text of a setting between double
quotes.  The quote itself, the backslash and the usual control characters
are written with a backslash, a character that cannot be seen by its number,
and every other character as it is.  A single quote is not escaped.
-/

namespace SettingsArchive.Text

/-- The text of a number in base sixteen, with small letters. -/
def hexadecimal (n : Nat) : String :=
  String.ofList (Nat.toDigits 16 n)

/-- One character as a quoted text shows it. -/
def quotedChar (c : Char) : String :=
  match c with
  | '\x00' => "\\0"
  | '\t' => "\\t"
  | '\n' => "\\n"
  | '\r' => "\\r"
  | '"' => "\\\""
  | '\\' => "\\\\"
  | c =>
    if isUnprintable c.toNat then
      "\\u\x7b" ++ hexadecimal c.toNat ++ "\x7d"
    else
      c.toString

/-- A text between double quotes. -/
def quoted (s : String) : String :=
  "\"" ++ String.join (s.toList.map quotedChar) ++ "\""

end SettingsArchive.Text
