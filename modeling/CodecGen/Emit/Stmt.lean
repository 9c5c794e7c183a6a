import CodecGen.Emit.Line
set_option autoImplicit false
/-!
The statements that encoders and decoders are made of.
-/
namespace CodecGen.Emit

inductive Direction where
  | encode
  | decode
deriving DecidableEq, Repr

/-- A line of an encoder or decoder. Names and values are C++ text. -/
inductive Stmt where
  | blank
  | fieldComment (name : String)
  | majorOpcodeNote
  | lengthNote
  | align (boundary : Int)
  | pad (bytes : Int)
  | reserve (type : String)
  | define (type name value : String)
  | declare (type name : String)
  | copy (dir : Direction) (name : String)
  | resize (list size : String)
  | checkSize (list size : String)
  | openLoop (element list : String)
  | openBlock
  | closeBlock
  | openBranch (conditions : List String)
  | bindSelector (name value : String)
  | openSum (id : Nat) (dir : Direction)
  | summand (value : String)
  | closeSum (list : String)
  | bindMember (name object : String)
  | bindMemberAside (id : Nat) (name object : String)
  | bindFromAside (name : String) (id : Nat)
  | bindLength (name list : String)
deriving DecidableEq, Repr

def listElementName : String := "listelem_ref"

def sumName (id : Nat) : String := "sum" ++ toString id ++ "_"

def asideName (id : Nat) : String := "tmp" ++ toString id

def Direction.copyFunction : Direction → String
  | encode => "Write"
  | decode => "Read"

def Direction.qualifier : Direction → String
  | encode => "const "
  | decode => ""

namespace Stmt

def nesting : Stmt → Nesting
  | openLoop .. | openBlock | openBranch _ | openSum .. => .opens
  | closeBlock | closeSum _ => .closes
  | _ => .flat

def text : Stmt → String
  | blank => ""
  | fieldComment name => "// " ++ name
  | majorOpcodeNote => "// Caller fills in extension major opcode."
  | lengthNote => "// Caller fills in length for writes."
  | align boundary => "Align(&buf, " ++ toString boundary ++ ");"
  | pad bytes => "Pad(&buf, " ++ toString bytes ++ ");"
  | reserve type => "Pad(&buf, sizeof(" ++ type ++ "));"
  | define type name value => type ++ " " ++ name ++ " = " ++ value ++ ";"
  | declare type name => type ++ " " ++ name ++ ";"
  | copy dir name => dir.copyFunction ++ "(&" ++ name ++ ", &buf);"
  | resize list size => list ++ ".resize(" ++ size ++ ");"
  | checkSize list size => "DCHECK_EQ(static_cast<size_t>(" ++ size ++ "), " ++ list ++ ".size());"
  | openLoop element list => "for (auto& " ++ element ++ " : " ++ list ++ ") \x7b"
  | openBlock => "\x7b"
  | closeBlock => "\x7d"
  | openBranch conditions => "if (" ++ String.intercalate " || " conditions ++ ") \x7b"
  | bindSelector name value => "auto " ++ name ++ " = " ++ value ++ ";"
  | openSum id dir =>
    "auto " ++ sumName id ++ " = SumOf([](" ++ dir.qualifier ++ "auto& " ++ listElementName ++ ") \x7b"
  | summand value => "return " ++ value ++ ";"
  | closeSum list => "\x7d, " ++ list ++ ");"
  | bindMember name object => "auto& " ++ name ++ " = " ++ object ++ "." ++ name ++ ";"
  | bindMemberAside id name object =>
    "auto& " ++ asideName id ++ " = " ++ object ++ "." ++ name ++ ";"
  | bindFromAside name id => "auto& " ++ name ++ " = " ++ asideName id ++ ";"
  | bindLength name list => "size_t " ++ name ++ " = " ++ list ++ ".size();"

def line (s : Stmt) : Line := ⟨s.nesting, s.text⟩

end Stmt
end CodecGen.Emit
