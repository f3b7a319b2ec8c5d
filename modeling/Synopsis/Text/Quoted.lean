import Synopsis.Text.Shown

/-!
# Quoted text

Text between double quotes. A quote, a backslash and the common control characters are written with
a backslash, any other character that cannot be shown by its code point.
-/

namespace Synopsis.Text

def codePoint (c : Char) : List Char :=
  ['\\', 'u', '\x7b'] ++ Nat.toDigits 16 c.toNat ++ ['\x7d']

def quoteChar (c : Char) : List Char :=
  if c = '\x00' then ['\\', '0']
  else if c = '\t' then ['\\', 't']
  else if c = '\r' then ['\\', 'r']
  else if c = '\n' then ['\\', 'n']
  else if c = '"' then ['\\', '"']
  else if c = '\\' then ['\\', '\\']
  else if isShown c then [c]
  else codePoint c

def quoted (text : List Char) : List Char := '"' :: (text.flatMap quoteChar ++ ['"'])

end Synopsis.Text
