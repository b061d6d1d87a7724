import ReachingDefs.Text.Unicode.GraphemeExtend
import ReachingDefs.Text.Unicode.Unprintable

/-!
# Quoted text in debug output

Debug output writes text between double quotes. Inside, a double quote and a backslash get a
backslash in front, and tab, line feed, carriage return and the NUL character are written
`\t`, `\n`, `\r` and `\0`. A character that would merge into the one before it (it extends a
grapheme) or that does not print is written `\u` followed by its code in lower-case
hexadecimal between braces. Every other character stands for itself.
-/

namespace ReachingDefs

namespace Quoted

/-- The lower-case hexadecimal digits of a number, without leading zeros. -/
def hexDigits (n : Nat) : List Char := Nat.toDigits 16 n

/-- The escape of a character by its code. -/
def codeEscape (c : Char) : List Char := ['\\', 'u', '\x7b'] ++ hexDigits c.toNat ++ ['\x7d']

/-- The characters that stand for one character inside quotes. -/
def escapeChar (c : Char) : List Char :=
  if c = '"' then ['\\', '"']
  else if c = '\\' then ['\\', '\\']
  else if c = '\t' then ['\\', 't']
  else if c = '\n' then ['\\', 'n']
  else if c = '\r' then ['\\', 'r']
  else if c = '\x00' then ['\\', '0']
  else if Unicode.isGraphemeExtend c || Unicode.isUnprintable c then codeEscape c
  else [c]

/-- Text between double quotes, escaped. -/
def quote (s : String) : String :=
  String.ofList ('"' :: s.toList.flatMap escapeChar ++ ['"'])

end Quoted

end ReachingDefs
