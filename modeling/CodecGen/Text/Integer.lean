set_option autoImplicit false
/-!
Integer literals: an optional sign, an optional base (`0x`, `0b`, `0o`, or a leading `0` for
octal, in either case) and digits, between which single underscores may stand. An underscore may
also follow the base.
-/
namespace CodecGen.Text.Integer

def digit? (c : Char) : Option Nat :=
  if '0' ≤ c && c ≤ '9' then some (c.toNat - '0'.toNat)
  else if 'a' ≤ c && c ≤ 'z' then some (c.toNat - 'a'.toNat + 10)
  else if 'A' ≤ c && c ≤ 'Z' then some (c.toNat - 'A'.toNat + 10)
  else none

def digits? (base : Nat) : (value : Nat) → List Char → Option Nat
  | value, [] => some value
  | value, c :: cs =>
    if c == '_' then digits? base value cs
    else match digit? c with
      | some d => if d < base then digits? base (value * base + d) cs else none
      | none => none

/-- Every underscore stands after a digit (or the base, when `afterDigit` holds at the start) and
before one. -/
def underscoresSeparate : (afterDigit : Bool) → List Char → Bool
  | _, [] => true
  | afterDigit, c :: cs =>
    if c == '_' then afterDigit && !cs.isEmpty && cs.head? != some '_' && underscoresSeparate false cs
    else underscoresSeparate true cs

def base (cs : List Char) : Nat × Bool × List Char :=
  match cs with
  | '0' :: b :: d :: r =>
    if b == 'x' || b == 'X' then (16, true, d :: r)
    else if b == 'b' || b == 'B' then (2, true, d :: r)
    else if b == 'o' || b == 'O' then (8, true, d :: r)
    else (8, true, b :: d :: r)
  -- a leading zero alone makes the literal octal
  | '0' :: r => (8, true, r)
  | _ => (10, false, cs)

def natural? (cs : List Char) : Option Nat :=
  match base cs with
  | (b, prefixed, ds) =>
    if cs.isEmpty || !underscoresSeparate prefixed ds then none else digits? b 0 ds

def literal? (s : String) : Option Int :=
  match s.toList with
  | '+' :: cs => (natural? cs).map fun n => (n : Int)
  | '-' :: cs => (natural? cs).map fun n => -(n : Int)
  | cs => (natural? cs).map fun n => (n : Int)

def twoTo (n : Nat) : Nat := 1 <<< n

/-- The number that the literal denotes, when it fits a signed word of `bits` bits. -/
def word? (bits : Nat) (s : String) : Option Int :=
  match literal? s with
  | some v => if -(twoTo (bits - 1) : Int) ≤ v ∧ v < twoTo (bits - 1) then some v else none
  | none => none

def wrap (bits : Nat) (v : Int) : Int := v.bmod (twoTo bits)

end CodecGen.Text.Integer
