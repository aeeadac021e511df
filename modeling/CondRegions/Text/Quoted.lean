import CondRegions.Text.GraphemeExtend
import CondRegions.Text.Unprintable

/-!
# Quoted text

`quote` shows a text in double quotes. A quote, a backslash and four control characters have short
escapes; any other character that has no glyph of its own, or that would be drawn onto the character
before it, is written as its code point in braces. All else stands for itself.
-/

namespace CondRegions.Text

/-- The lower case hexadecimal digits of a number, without leading zeros. -/
def hexDigits (n : Nat) : List Char :=
  Nat.toDigits 16 n

/-- How one character is written between quotes. -/
def quoteChar (c : Char) : List Char :=
  match c with
  | '"' => ['\\', '"']
  | '\\' => ['\\', '\\']
  | '\n' => ['\\', 'n']
  | '\r' => ['\\', 'r']
  | '\t' => ['\\', 't']
  | '\x00' => ['\\', '0']
  | c =>
    if 0x20 ≤ c.toNat && c.toNat < 0x7F then [c]
    else if isUnprintable c || isGraphemeExtend c then
      ['\\', 'u', '\x7b'] ++ hexDigits c.toNat ++ ['\x7d']
    else [c]

/-- **Quoted text.** The text between double quotes, each character as `quoteChar` writes it. -/
def quote (cs : List Char) : List Char :=
  '"' :: cs.flatMap quoteChar ++ ['"']

end CondRegions.Text
