import LazyMachine.Text.Numeral
import LazyMachine.Text.Printable

/-!
# Quoted text

A character or a string between quotes. The delimiting quote and the backslash are escaped by a
backslash, NUL, tab, newline and carriage return have letters of their own, and a character that
is not printable is written by its code point in lower-case hexadecimal between braces.
-/

namespace LazyMachine.Text

/-- The characters that stand for `c` between two `quote`s. -/
def escapeChar (quote c : Char) : List Char :=
  if c = '\x00' then ['\\', '0']
  else if c = '\t' then ['\\', 't']
  else if c = '\n' then ['\\', 'n']
  else if c = '\r' then ['\\', 'r']
  else if c = '\\' ∨ c = quote then ['\\', c]
  else if isPrintable c then [c]
  else ['\\', 'u', '\x7b'] ++ Nat.toDigits 16 c.toNat ++ ['\x7d']

/-- A character between single quotes. -/
def quoteChar (c : Char) : String :=
  String.ofList ('\'' :: escapeChar '\'' c ++ ['\''])

/-- A string between double quotes. -/
def quote (text : String) : String :=
  String.ofList ('"' :: text.toList.flatMap (escapeChar '"') ++ ['"'])

end LazyMachine.Text
