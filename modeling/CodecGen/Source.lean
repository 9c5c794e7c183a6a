set_option autoImplicit false
/-!
Source files as bytes, places in them, and the line and column of a place.
-/
namespace CodecGen

abbrev Bytes := List UInt8

/-- A stretch of a source file, in bytes from its beginning. -/
structure Span where
  start : Nat
  length : Nat
deriving DecidableEq, Repr, Inhabited

def Span.stop (s : Span) : Nat := s.start + s.length

structure Position where
  line : Nat
  column : Nat
deriving DecidableEq, Repr

namespace Position

def first : Position := ⟨1, 1⟩

def next (p : Position) (b : UInt8) : Position :=
  if b == 10 then ⟨p.line + 1, 1⟩ else ⟨p.line, p.column + 1⟩

def advance : Position → Nat → Bytes → Position
  | p, 0, _ => p
  | p, _ + 1, [] => p
  | p, n + 1, b :: r => advance (p.next b) n r

/-- The place of an offset; offsets past the end share the place of the end. -/
def ofOffset (src : Bytes) (offset : Nat) : Position := first.advance offset src

end Position
end CodecGen
