import Restructure.Text.Printable

namespace Restructure.Text

/-!
# Quoted text — a text between double quotes, on one line

* `escape c` — the written form of one character: a backslash form for the double quote, the
  backslash and four controls, `\u` with the code point in braces for a character that is not
  shown, and the character itself otherwise.
* `quote s` — the written forms of the characters of `s` between double quotes.
-/

/-- The digits of `n` in base 16, lower case, without leading zeros. -/
def hexDigits (n : Nat) : List Char := Nat.toDigits 16 n

/-- The written form of one character inside double quotes. -/
def escape (c : Char) : List Char :=
  match c with
  | '"' => ['\\', '"']
  | '\\' => ['\\', '\\']
  | '\t' => ['\\', 't']
  | '\n' => ['\\', 'n']
  | '\r' => ['\\', 'r']
  | '\x00' => ['\\', '0']
  | c => if isShown c then [c] else ['\\', 'u', '\x7b'] ++ hexDigits c.toNat ++ ['\x7d']

/-- `s` between double quotes, every character in its written form. -/
def quote (s : String) : String :=
  String.ofList ('"' :: s.toList.flatMap escape ++ ['"'])

end Restructure.Text
