import GraphQL.Text.Printable

/-!
# Quoted text

Names and paths that appear inside a message are written between double quotes, with every
character that would be invisible or ambiguous there replaced by an escape:

* the quote and the backslash get a backslash in front;
* NUL, tab, line feed and carriage return have a letter of their own (`\0`, `\t`, `\n`, `\r`);
* any other character that is not printable is written as its code point in lower-case
  hexadecimal between braces after `\u`;
* everything else stands for itself, the apostrophe included.
-/

namespace GraphQL.Text

/-- The code point of `c` in lower-case hexadecimal, as `\u` and the digits between braces. -/
def codePointEscape (c : Char) : List Char :=
  ['\\', 'u', '\x7b'] ++ Nat.toDigits 16 c.toNat ++ ['\x7d']

/-- How one character is written between double quotes. -/
def escapeChar (c : Char) : List Char :=
  if c = '\"' then ['\\', '\"']
  else if c = '\\' then ['\\', '\\']
  else if c = '\x00' then ['\\', '0']
  else if c = '\t' then ['\\', 't']
  else if c = '\n' then ['\\', 'n']
  else if c = '\r' then ['\\', 'r']
  else if isPrintable c then [c]
  else codePointEscape c

/-- A name or a path between double quotes. -/
def quoted (s : String) : String :=
  String.ofList (['\"'] ++ s.toList.flatMap escapeChar ++ ['\"'])

end GraphQL.Text
