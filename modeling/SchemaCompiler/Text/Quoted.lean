import SchemaCompiler.Text.Printable

/-! String literals. A quote, a backslash and the usual controls have short escapes, every other
character that cannot stand for itself is written by its code point in hexadecimal. -/

namespace SchemaCompiler.Text

def hexadecimal (n : Nat) : List Char :=
  Nat.toDigits 16 n

def escaped (c : Char) : List Char :=
  if c = '"' then ['\\', '"']
  else if c = '\\' then ['\\', '\\']
  else if c = '\t' then ['\\', 't']
  else if c = '\r' then ['\\', 'r']
  else if c = '\n' then ['\\', 'n']
  else if c.toNat = 0 then ['\\', '0']
  else if standsForItself c then [c]
  else ['\\', 'u', '\x7b'] ++ hexadecimal c.toNat ++ ['\x7d']

def quoted (s : String) : String :=
  String.ofList ('"' :: s.toList.flatMap escaped ++ ['"'])

end SchemaCompiler.Text
