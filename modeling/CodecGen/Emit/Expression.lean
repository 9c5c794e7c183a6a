import CodecGen.Emit.Scope
set_option autoImplicit false
/-!
Expressions as C++ text. A sum is accumulated by statements of its own before the statement that
uses it.
-/
namespace CodecGen.Emit
open Schema

structure Site where
  dir : Direction
  ns : List String
  path : List String
deriving DecidableEq, Repr

def Site.at (site : Site) (name : String) : Site := { site with path := site.path ++ [name] }

def Site.fail {α : Type} (site : Site) (cause : Cause) : Emission α := throw ⟨cause, site.path⟩

def elementFields (site : Site) : Ty → Except Fault (List Field)
  | .container _ _ fields => .ok fields
  | .mention .struct name | .mention .request name | .mention .event name | .mention .error name =>
    .error ⟨.selfContained name, site.path⟩
  | _ => .ok []

/-- Accumulates what `summand` stands for over the elements of a list, whose members it may name. -/
def sumOver (site : Site) (list : String) (summand : Emission (List Stmt × String)) :
    Emission (List Stmt × String) := do
  match (← get).scope.resolve? list with
  | none => site.fail (.unboundList list)
  | some field =>
    match field.type with
    | .list member _ _ =>
      let fields ← elementFields site member
      let id ← freshId
      let (bindings, before, value) ← withFields listElementName fields summand
      return ([.openSum id site.dir] ++ bindings ++ before ++ [.summand value, .closeSum list],
        sumName id)
    | _ => site.fail (.sumOfNotList list)

/-- The statements to put before, and the text of the expression. -/
def compileExpr (site : Site) : Expr → Emission (List Stmt × String)
  | .absent => site.fail .missingExpr
  | .binary op lhs rhs => do
    let (before, lhs) ← compileExpr site lhs
    let (between, rhs) ← compileExpr site rhs
    return (before ++ between, "(" ++ lhs ++ ") " ++ op ++ " (" ++ rhs ++ ")")
  | .complement operand => do
    let (before, operand) ← compileExpr site operand
    return (before, "~(" ++ operand ++ ")")
  | .popCount operand => do
    let (before, operand) ← compileExpr site operand
    return (before, "PopCount(" ++ operand ++ ")")
  | .fieldLen name => do
    match (← get).scope.resolve? name with
    | none => site.fail (.unboundLength name)
    | some _ => return ([], safeName name ++ "_len")
  | .fieldRef name => return ([], name)
  | .enumRef enum item => return ([], qualify (.mention .enum enum) site.ns ++ "::" ++ safeName item)
  | .listElement => return ([], listElementName)
  | .value v => return ([], toString v)
  | .sumOf list .absent => sumOver site list (return ([], listElementName))
  | .sumOf list summand => sumOver site list (compileExpr site summand)

end CodecGen.Emit
