import CodecGen.Resolve.Environment
set_option autoImplicit false
/-!
Expression elements of a description.
-/
namespace CodecGen.Resolve
open Schema Markup

def isExpression (e : Element) : Bool :=
  ["op", "unop", "popcount", "sumof", "fieldref", "paramref", "enumref", "value", "bit",
    "listelement-ref"].contains e.tag

def resolveEnumRef (env : Env) (e : Element) : Noted (Option Expr) := do
  match ← requireAttr e "ref" with
  | none => return none
  | some ref =>
    match ← lookupType env ref e.span with
    | none => return none
    | some target =>
      if target.kind == .enum then return some (.enumRef target.type.typeName e.text)
      else refuse (.notEnum ref) e.span

/-- The expression that an element stands for, given what its children stand for. Both operands of
an operation are looked at even when one of them is at fault. -/
def resolveNode (env : Env) (e : Element) (operands : List (Noted (Option Expr))) :
    Noted (Option Expr) :=
  match e.tag with
  | "op" => do
    match ← requireAttr e "op" with
    | none => return none
    | some op =>
      match binaryOps.contains op, operands with
      | true, [l, r] => do
        match ← l, ← r with
        | some lhs, some rhs => return some (.binary op lhs rhs)
        | _, _ => return none
      | _, _ => refuse (.unknownOperation op) e.span
  | "unop" =>
    match e.attrD "op" "" == "~", operands with
    | true, [x] => do return (← x).map .complement
    | _, _ => refuse (.unknownExpr "unop") e.span
  | "popcount" =>
    match operands with
    | [x] => do return (← x).map .popCount
    | _ => refuse (.missingExpr e.tag) e.span
  | "sumof" => do
    match ← requireAttr e "ref" with
    | none => return none
    | some ref =>
      match operands with
      | [] => return some (.sumOf ref .absent)
      | x :: _ => return (← x).map (.sumOf ref)
  | "fieldref" | "paramref" => return some (.fieldRef e.text)
  | "enumref" => resolveEnumRef env e
  | "value" => do return (← natural e).map .value
  | "bit" => do return (← bitPosition e).map fun v => .value (Text.Integer.twoTo v)
  | "listelement-ref" => return some .listElement
  | tag => refuse (.unknownExpr tag) e.span

mutual

def resolveExpr (env : Env) : Element → Noted (Option Expr)
  | ⟨tag, attrs, text, children, span⟩ =>
    resolveNode env ⟨tag, attrs, text, children, span⟩ (resolveExprs env children)

def resolveExprs (env : Env) : List Element → List (Noted (Option Expr))
  | [] => []
  | e :: rest => resolveExpr env e :: resolveExprs env rest

end

end CodecGen.Resolve
