import CodecGen.Source
set_option autoImplicit false
/-!
UTF-8: the shortest encodings of Unicode scalar values, read from the front of a byte string.
-/
namespace CodecGen.Text.Utf8

def isTail (b : UInt8) : Bool := 0x80 ≤ b && b ≤ 0xbf

/-- The second byte of a longer encoding leaves out overlong forms, surrogates and what lies above
the last code point. -/
def isSecond (lead b : UInt8) : Bool :=
  if lead == 0xe0 then 0xa0 ≤ b && b ≤ 0xbf
  else if lead == 0xed then 0x80 ≤ b && b ≤ 0x9f
  else if lead == 0xf0 then 0x90 ≤ b && b ≤ 0xbf
  else if lead == 0xf4 then 0x80 ≤ b && b ≤ 0x8f
  else isTail b

def payload (marker b : UInt8) : Nat := b.toNat - marker.toNat

def two (a b : UInt8) : Char := Char.ofNat (payload 0xc0 a * 64 + payload 0x80 b)

def three (a b c : UInt8) : Char :=
  Char.ofNat ((payload 0xe0 a * 64 + payload 0x80 b) * 64 + payload 0x80 c)

def four (a b c d : UInt8) : Char :=
  Char.ofNat (((payload 0xf0 a * 64 + payload 0x80 b) * 64 + payload 0x80 c) * 64 + payload 0x80 d)

@[inline] def head? : Bytes → Option (Char × Nat)
  | [] => none
  | a :: r =>
    if a < 0x80 then some (Char.ofNat a.toNat, 0)
    -- tails, and leads that only overlong forms have
    else if a < 0xc2 then none
    else if a < 0xe0 then
      match r with
      | b :: _ => if isTail b then some (two a b, 1) else none
      | _ => none
    else if a < 0xf0 then
      match r with
      | b :: c :: _ => if isSecond a b && isTail c then some (three a b c, 2) else none
      | _ => none
    else if a ≤ 0xf4 then
      match r with
      | b :: c :: d :: _ =>
        if isSecond a b && isTail c && isTail d then some (four a b c d, 3) else none
      | _ => none
    else none

def replacement : Char := Char.ofNat 0xfffd

def validFrom : (pending : Nat) → Bytes → Bool
  | _, [] => true
  | pending + 1, _ :: r => validFrom pending r
  | 0, b :: r =>
    match head? (b :: r) with
    | some (_, more) => validFrom more r
    | none => false

def valid (s : Bytes) : Bool := validFrom 0 s

/-- Reads characters onto `seen`, newest first; a byte that starts no encoding counts as the
replacement character. -/
def decodeOnto : (seen : List Char) → (pending : Nat) → Bytes → List Char
  | seen, _, [] => seen.reverse
  | seen, pending + 1, _ :: r => decodeOnto seen pending r
  | seen, 0, b :: r =>
    match head? (b :: r) with
    | some (c, more) => decodeOnto (c :: seen) more r
    | none => decodeOnto (replacement :: seen) 0 r

def decode (s : Bytes) : List Char := decodeOnto [] 0 s

/-- The offset of the first place that does not read as a character, or that reads as the
replacement character. -/
def firstReplacement : (offset pending : Nat) → Bytes → Nat
  | offset, _, [] => offset
  | offset, pending + 1, _ :: r => firstReplacement (offset + 1) pending r
  | offset, 0, b :: r =>
    match head? (b :: r) with
    | some (c, more) => if c == replacement then offset else firstReplacement (offset + 1) more r
    | none => offset

def encodeChar (c : Char) : Bytes := String.utf8EncodeChar c

def encode (s : String) : Bytes := s.toUTF8.data.toList

end CodecGen.Text.Utf8
