import CodecGen.Schema.Type
set_option autoImplicit false
/-!
Names in generated code: identifiers that the C++ compiler accepts, and the paths of types as seen
from inside a namespace.
-/
namespace CodecGen.Emit
open Schema

def reservedNames : List String :=
  ["and", "xor", "or", "class", "explicit", "new", "delete", "default", "private"]

def startsWithDigit (name : String) : Bool :=
  match name.toList with
  | c :: _ => c.isDigit
  | [] => false

def safeName (name : String) : String :=
  if startsWithDigit name || reservedNames.contains name then "c_" ++ name else name

/-- What is appended to the declared name of a message, so that a request and its reply can share
a name. -/
def suffix : Kind → String
  | .error => "Error"
  | .request => "Request"
  | .reply => "Reply"
  | .event => "Event"
  | _ => ""

def typeSuffix (t : Ty) : String := suffix t.kind

def appendLast (path : List String) (s : String) : List String :=
  path.dropLast ++ [path.getLast?.getD "" ++ s]

/-- The full C++ path of a type. What lies in `xcb` moves to `x11`, and the core protocol gets a
class of its own, so that its types sit as deep as those of extensions. -/
def qualifiedPath (t : Ty) : List String :=
  if t.typeName.isEmpty then []
  else match appendLast t.typeName (typeSuffix t) with
    | ["xcb", name] => ["x11", "XProto", name]
    | "xcb" :: rest => "x11" :: rest
    | path => path

/-- Drops the longest common beginning of the path and the namespace. -/
def chop : (path ns : List String) → List String
  | p :: path, n :: ns => if p == n then chop path ns else p :: path
  | path, _ => path

def qualify (t : Ty) (ns : List String) : String := String.intercalate "::" (chop (qualifiedPath t) ns)

end CodecGen.Emit
