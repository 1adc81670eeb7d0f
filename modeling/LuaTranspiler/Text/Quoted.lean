/-!
# Double-quoted string literals

A string is written between double quotes. A double quote, a backslash, a newline, a carriage
return and a tab have escapes of one letter, any other control character is written as `\u` and
four hexadecimal digits.

* `isControl`: the Unicode category `Cc`
* `quote`: the literal of a string
-/

namespace LuaTranspiler.Text

/-- Whether a character is in the Unicode category `Cc`. -/
def isControl (c : Char) : Bool := c.toNat < 0x20 || (0x7F ≤ c.toNat && c.toNat < 0xA0)

/-- The four lowercase hexadecimal digits of a number below `16 ^ 4`. -/
def fourHex (n : Nat) : List Char :=
  [Nat.digitChar (n / 4096 % 16), Nat.digitChar (n / 256 % 16), Nat.digitChar (n / 16 % 16),
    Nat.digitChar (n % 16)]

/-- What is written for one character of a string literal. -/
def quoteChar (c : Char) : List Char :=
  if c = '"' then ['\\', '"']
  else if c = '\\' then ['\\', '\\']
  else if c = '\n' then ['\\', 'n']
  else if c = '\r' then ['\\', 'r']
  else if c = '\t' then ['\\', 't']
  else if isControl c then '\\' :: 'u' :: fourHex c.toNat
  else [c]

/-- The literal of a list of characters. -/
def quoteChars (cs : List Char) : List Char := '"' :: (cs.flatMap quoteChar ++ ['"'])

/-- The literal of a string. -/
def quote (s : String) : String := String.ofList (quoteChars s.toList)

end LuaTranspiler.Text
