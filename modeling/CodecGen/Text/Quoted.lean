import CodecGen.Text.Characters
set_option autoImplicit false
/-!
Texts in double quotes and characters in single ones, as they stand in messages. Printable
characters appear as they are; everything else is escaped: the common controls by a letter (`\n`),
other bytes below 128 by two hexadecimal digits, the rest by four or eight.
-/
namespace CodecGen.Text.Quoted

def hexDigit (n : Nat) : Char := "0123456789abcdef".toList.getD n '0'

def hex : (width n : Nat) → List Char
  | 0, _ => []
  | width + 1, n => hex width (n / 16) ++ [hexDigit (n % 16)]

def controlLetter? (n : Nat) : Option Char :=
  [(7, 'a'), (8, 'b'), (9, 't'), (10, 'n'), (11, 'v'), (12, 'f'), (13, 'r')].lookup n

/-- A character between two marks; the mark itself and the backslash get a backslash. -/
def escapeWithin (mark c : Char) : List Char :=
  if c == mark || c == '\\' then ['\\', c]
  else if Printable.isPrintable c then [c]
  else match controlLetter? c.toNat with
    | some l => ['\\', l]
    | none =>
      if c.toNat < 0x20 || c.toNat == 0x7f then '\\' :: 'x' :: hex 2 c.toNat
      else if c.toNat < 0x10000 then '\\' :: 'u' :: hex 4 c.toNat
      else '\\' :: 'U' :: hex 8 c.toNat

def escape (c : Char) : List Char := escapeWithin '"' c

def quote (s : String) : String :=
  String.ofList ('"' :: s.toList.flatMap escape ++ ['"'])

def quoteChar (c : Char) : String :=
  "'" ++ String.ofList (escapeWithin (Char.ofNat 39) c) ++ "'"

end CodecGen.Text.Quoted
