import CodecGen.Schema.Type
import CodecGen.Text.Quoted
set_option autoImplicit false
/-!
Models that no code can be generated for: the cause, and the path of declarations and fields to
the node at fault. Most causes are diagnostics with a code. Two are not: where a message goes on
deeper than it is spelled out, generation has not come to an end, and a scope that holds fewer fields
than are to be taken from it is a breakdown.
-/
namespace CodecGen.Emit
open Schema

inductive HeaderFieldFault where
  | notDecoded
  | notInRequest
  | notEncoded
  | withoutValue
deriving DecidableEq, Repr

inductive Cause where
  | missingExpr
  | unboundLength (name : String)
  | unboundList (name : String)
  | sumOfNotList (name : String)
  | caseKind
  | emptyCase
  | listLength (count : Int)
  | padAlign (bytes align : Int)
  | headerField (name : String) (fault : HeaderFieldFault)
  | fieldType (kind : Kind)
  | declType (kind : Kind)
  | selfContained (name : Name)
  | scopeUnderflow
deriving DecidableEq, Repr

structure Fault where
  cause : Cause
  path : List String
deriving DecidableEq, Repr

def kindLabel : Kind → String
  | .absent => "<nil>"
  | .simple => "*schema.Simple"
  | .enum => "*schema.Enum"
  | .union => "*schema.Union"
  | .struct => "*schema.Struct"
  | .request => "*schema.Request"
  | .reply => "*schema.Reply"
  | .event => "*schema.Event"
  | .error => "*schema.Error"
  | .pad => "*schema.Pad"
  | .list => "*schema.List"
  | .exprField => "*schema.ExprField"
  | .switch => "*schema.Switch"
  | .case => "*schema.Case"

def HeaderFieldFault.text : HeaderFieldFault → String
  | notDecoded => "cannot be decoded"
  | notInRequest => "is only valid in a request"
  | notEncoded => "cannot be encoded"
  | withoutValue => "is hidden but has no value expression"

namespace Cause

def code? : Cause → Option Nat
  | missingExpr => some 5000
  | unboundLength _ | unboundList _ => some 5001
  | sumOfNotList _ => some 5002
  | caseKind => some 5003
  | emptyCase => some 5004
  | listLength _ => some 5005
  | padAlign .. => some 5006
  | headerField .. => some 5007
  | fieldType _ => some 5008
  | declType _ => some 5009
  | selfContained _ | scopeUnderflow => none

def text : Cause → String
  | missingExpr => "Unsupported expression node " ++ kindLabel .absent
  | unboundLength name | unboundList name =>
    "Name " ++ Text.Quoted.quote name ++ " is not bound in this scope"
  | sumOfNotList name => "Sum target " ++ Text.Quoted.quote name ++ " is not a list"
  | caseKind => "Switch branch must be exactly one of case or bitcase"
  | emptyCase => "Switch branch has no selector expressions"
  | listLength count =>
    if count == 0 then "Dynamic list has no length expression"
    else "Fixed list has invalid element count " ++ toString count
  | padAlign bytes align =>
    "Alignment pad must be 1 byte aligned to 2 or 4, got " ++ toString bytes ++
      " bytes aligned to " ++ toString align
  | headerField name fault => "Header field " ++ Text.Quoted.quote name ++ " " ++ fault.text
  | fieldType kind => "Unsupported field type " ++ kindLabel kind
  | declType kind => "Unsupported declaration type " ++ kindLabel kind
  | selfContained name => "Type " ++ Text.Quoted.quote (Name.text name) ++ " contains itself"
  | scopeUnderflow => "codegen: scope underflow"

end Cause

def Fault.message? (f : Fault) : Option String :=
  f.cause.code?.map fun code =>
    let place := if f.path.isEmpty then "" else String.intercalate "." f.path ++ ": "
    "E" ++ toString code ++ ": " ++ place ++ f.cause.text

end CodecGen.Emit
