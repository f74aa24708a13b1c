import WireCodec.Text.Printable

/-!
# Quoted text

A text between double quotes, as error messages show it. The quote, the backslash
and four control characters have short escapes; every other character that is not
printable is shown by its code point in hexadecimal.
-/
namespace WireCodec.Text

def codePoint (c : Char) : List Char :=
  "\\u\x7b".toList ++ Nat.toDigits 16 c.toNat ++ ['\x7d']

/-- A character as it stands between the quotes. -/
def escape (c : Char) : List Char :=
  match c with
  | '\x00' => ['\\', '0']
  | '\t' => ['\\', 't']
  | '\n' => ['\\', 'n']
  | '\r' => ['\\', 'r']
  | '"' => ['\\', '"']
  | '\\' => ['\\', '\\']
  | c => if isPrintable c then [c] else codePoint c

def quoted (s : String) : String := .ofList ('"' :: s.toList.flatMap escape ++ ['"'])

end WireCodec.Text
