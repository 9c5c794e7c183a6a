set_option autoImplicit false
/-!
Names of protocol types, which are paths such as `xcb`, `Input`, `Key` or a single C++ scalar, and
expressions over the fields of a message: list lengths, selectors of switches and computed values.
-/
namespace CodecGen.Schema

abbrev Name := List String

namespace Name

def text (n : Name) : String := String.intercalate ":" n

def last (n : Name) : String := n.getLast?.getD ""

end Name

/-- An expression. A missing one is possible in models that were not resolved from a description;
the summand of `sumOf` may be left out, and then stands for the element itself. -/
inductive Expr where
  | absent
  | binary (op : String) (lhs rhs : Expr)
  | complement (operand : Expr)
  | popCount (operand : Expr)
  | fieldLen (name : String)
  | fieldRef (name : String)
  | sumOf (list : String) (summand : Expr)
  | enumRef (enum : Name) (item : String)
  | listElement
  | value (v : Nat)
deriving DecidableEq, Repr, Inhabited

def Expr.sumDepth : Expr → Nat
  | sumOf _ summand => summand.sumDepth + 1
  | binary _ lhs rhs => max lhs.sumDepth rhs.sumDepth
  | complement operand | popCount operand => operand.sumDepth
  | absent | fieldLen _ | fieldRef _ | enumRef _ _ | listElement | value _ => 0

def binaryOps : List String := ["+", "-", "*", "/", "&", "|"]

end CodecGen.Schema
