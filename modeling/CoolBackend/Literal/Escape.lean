import CoolBackend.Text.Bytes

/-!
The bytes of a string constant between the quotes of an `.asciiz` directive. The assembler reads a
backslash before three octal digits as one byte.
-/
namespace CoolBackend.Literal

def octalDigit (n : UInt8) : Char := Char.ofNat (48 + n.toNat % 8)

def escapeByte (b : UInt8) : List Char :=
  if b = 0x5c then ['\\', '\\']
  else if b = 0x22 then ['\\', '"']
  else if b = 0x0a then ['\\', 'n']
  else if b = 0x09 then ['\\', 't']
  else if b < 0x20 || 0x7e < b then ['\\', octalDigit (b / 64), octalDigit (b / 8), octalDigit b]
  else [Char.ofNat b.toNat]

def escape (bytes : Bytes) : String := String.ofList (bytes.flatMap escapeByte)

end CoolBackend.Literal
