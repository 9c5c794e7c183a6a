import CodecGen.Source
import CodecGen.Text.Quoted
set_option autoImplicit false
/-!
Errors and warnings about the meaning of a protocol description.
-/
namespace CodecGen.Resolve
open Text.Quoted (quote)

inductive ErrorCause where
  | unknownType (name : String)
  | duplicateDecl (name : String)
  | importNotFound (header : String) (searched : List String)
  | importCycle (chain : List String)
  | invalidInteger (text : String)
  | missingAttr (tag attr : String)
  | notEnum (name : String)
  | unknownExpr (tag : String)
  | unknownOperation (op : String)
  | missingExpr (tag : String)
  | unknownField (tag container : String)
  | replyOutsideRequest (container : String)
deriving DecidableEq, Repr

namespace ErrorCause

def code : ErrorCause → Nat
  | unknownType _ => 3000
  | duplicateDecl _ => 3001
  | importNotFound .. => 3002
  | importCycle _ => 3003
  | invalidInteger _ => 3004
  | missingAttr .. => 3005
  | notEnum _ => 3006
  | unknownExpr _ | unknownOperation _ | missingExpr _ => 3007
  | unknownField .. => 3008
  | replyOutsideRequest _ => 3009

def message : ErrorCause → String
  | unknownType name => "Unknown type " ++ quote name
  | duplicateDecl name => "Duplicate declaration of " ++ quote name
  | importNotFound header searched =>
    "Imported module " ++ quote header ++ " not found" ++
      (if searched.isEmpty then "" else " (searched " ++ String.intercalate ", " searched ++ ")")
  | importCycle chain => "Import cycle: " ++ String.intercalate " -> " chain
  | invalidInteger text => "Invalid integer " ++ quote text
  | missingAttr tag attr => "Element <" ++ tag ++ "> is missing attribute " ++ quote attr
  | notEnum name => "Enum reference target " ++ quote name ++ " is not an enum"
  | unknownExpr tag => "Unknown expression element <" ++ tag ++ ">"
  | unknownOperation op => "Unknown expression element <op " ++ quote op ++ ">"
  | missingExpr tag => "Element <" ++ tag ++ "> requires an expression"
  | unknownField tag container => "Unknown field element <" ++ tag ++ "> in " ++ quote container
  | replyOutsideRequest container =>
    "Element <reply> in " ++ quote container ++ " is not inside a request"

end ErrorCause

inductive WarningCause where
  | ignoredElement (tag : String)
  | duplicateItem (enum item : String)
  | unusedImport (header : String)
deriving DecidableEq, Repr

namespace WarningCause

def code : WarningCause → Nat
  | ignoredElement _ => 4000
  | duplicateItem .. => 4001
  | unusedImport _ => 4002

def message : WarningCause → String
  | ignoredElement tag => "Element <" ++ tag ++ "> is not supported and was ignored"
  | duplicateItem enum item => "Duplicate item '" ++ item ++ "' in enum " ++ quote enum
  | unusedImport header => "Import of module " ++ quote header ++ " is unused"

end WarningCause

structure Error where
  cause : ErrorCause
  span : Span
deriving DecidableEq, Repr

structure Warning where
  cause : WarningCause
  span : Span
deriving DecidableEq, Repr

def Error.text (e : Error) : String := "E" ++ toString e.cause.code ++ ": " ++ e.cause.message

def Warning.text (w : Warning) : String := "W" ++ toString w.cause.code ++ ": " ++ w.cause.message

end CodecGen.Resolve
