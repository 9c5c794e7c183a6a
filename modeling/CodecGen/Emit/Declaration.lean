import CodecGen.Emit.Codec
import CodecGen.Schema.Module
set_option autoImplicit false
/-!
The declarations of a header: enumerations, unions, structures for messages and their members, and
a method for each request.
-/
namespace CodecGen.Emit
open Schema

/-- A line of the class that a header declares. Names and types are C++ text. -/
inductive DeclLine where
  | blank
  | ifDefined (name : String)
  | undefine (name : String)
  | endIf
  | openEnum (name : String)
  | enumItem (name value : String)
  | openStruct (name : String)
  | openAnonymous
  | openUnion (name : String)
  | unionConstructor (name : String)
  | unionMember (type name : String)
  | member (type name : String)
  | closeMember (name : String)
  | closeType
  | triviallyCopyable (name : String)
  | typeAlias (name type : String)
  | response (method reply : String)
  | methodResult (reply method : String)
  | methodArgument (request : String)
deriving DecidableEq, Repr

namespace DeclLine

def nesting : DeclLine → Nesting
  | openEnum _ | openStruct _ | openAnonymous | openUnion _ => .opens
  | closeMember _ | closeType => .closes
  | _ => .flat

def text : DeclLine → String
  | blank => ""
  | ifDefined name => "#ifdef " ++ name
  | undefine name => "#undef " ++ name
  | endIf => "#endif"
  | openEnum name => "enum class " ++ name ++ " \x7b"
  | enumItem name value => name ++ " = " ++ value ++ ","
  | openStruct name => "struct " ++ name ++ " \x7b"
  | openAnonymous => "struct \x7b"
  | openUnion name => "union " ++ name ++ " \x7b"
  | unionConstructor name => name ++ "() \x7b memset(this, 0, sizeof(*this)); \x7d"
  | unionMember type name => type ++ " " ++ name ++ ";"
  | member type name => type ++ " " ++ name ++ "\x7b\x7d;"
  | closeMember name => "\x7d " ++ name ++ ";"
  | closeType => "\x7d;"
  | triviallyCopyable name => "static_assert(std::is_trivially_copyable<" ++ name ++ ">::value, \"\");"
  | typeAlias name type => "using " ++ name ++ " = " ++ type ++ ";"
  | response method reply => "using " ++ method ++ "Response = Response<" ++ reply ++ ">;"
  | methodResult reply method => "Future<" ++ reply ++ "> " ++ method ++ "("
  | methodArgument request => "    const " ++ request ++ "& request);"

def line (l : DeclLine) : Line := ⟨l.nesting, l.text⟩

end DeclLine

def undefLines (name : String) : List DeclLine := [.ifDefined name, .undefine name, .endIf]

def arrayType (element : String) (count : Int) : String :=
  "std::array<" ++ element ++ ", " ++ toString count ++ ">"

/-- The C++ type of a list of elements; untyped data are bytes, and characters make a string. -/
def listType (element : String) (count : Int) : String :=
  if 0 < count then arrayType element count
  else if element == "void" then "std::vector<uint8_t>"
  else if element == "char" then "std::string"
  else "std::vector<" ++ element ++ ">"

mutual

def emitField (site : Site) : Field → Emission (List DeclLine)
  | ⟨name, type, wire, visible⟩ =>
    if wire && visible then emitMember (site.at name) (safeName name) type else return []

def emitMember (site : Site) (name : String) : Ty → Emission (List DeclLine)
  | .switch _ _ cases => do
    let body ← emitBranches site cases
    return [.openAnonymous] ++ body ++ [.closeMember name]
  | .list member count length => do
    checkList site count length
    return [.member (listType (qualify (.list member count length) site.ns) count) name]
  | .case .. => site.fail (.fieldType .case)
  | type => return [.member (qualify type site.ns) name]

def emitFields (site : Site) : List Field → Emission (List DeclLine)
  | [] => return []
  | f :: rest => do
    let one ← emitField site f
    let more ← emitFields site rest
    return one ++ more

def emitBranches (site : Site) : List Field → Emission (List DeclLine)
  | [] => return []
  | f :: rest => do
    let one ← emitBranch site f
    let more ← emitBranches site rest
    return one ++ more

def emitBranch (site : Site) : Field → Emission (List DeclLine)
  | ⟨name, .case _ byValue byMask _ fields, _, _⟩ => do
    let site := site.at name
    checkCase site byValue byMask
    let body ← emitFields site fields
    -- the members of an unnamed branch are members of the switch
    return if name == "" then body else [.openAnonymous] ++ body ++ [.closeMember (safeName name)]
  | ⟨name, type, _, _⟩ => (site.at name).fail (.fieldType type.kind)

end

/-- Plain values come before bits, each behind its own guard. -/
def declareEnum (name : Name) (values bits : List EnumItem) : List DeclLine :=
  let item (name value : String) := undefLines (safeName name) ++ [DeclLine.enumItem (safeName name) value]
  undefLines name.last ++ [DeclLine.openEnum name.last] ++
    (values.filter fun v => !isBit bits v.name).flatMap (fun v => item v.name v.value) ++
    bits.flatMap (fun b => item b.name ("1 << " ++ b.value)) ++ [DeclLine.closeType, .blank]

def emitContainer (site : Site) (name : Name) (kind : Kind) (fields : List Field) :
    Emission (List DeclLine) := do
  let typeName := name.last ++ suffix kind
  let body ← emitFields site fields
  return undefLines typeName ++ [DeclLine.openStruct typeName] ++ body ++ [DeclLine.closeType, .blank]

def unionMemberType (site : Site) (f : Field) : Except Fault String :=
  match f.type with
  | .list _ count _ =>
    if count < 2 then .error ⟨.listLength count, (site.at f.name).path⟩
    else .ok (arrayType (qualify f.type site.ns) count)
  | type => .ok (qualify type site.ns)

def emitUnionMembers (site : Site) : List Field → Emission (List DeclLine)
  | [] => return []
  | f :: rest => do
    let type ← unionMemberType site f
    let more ← emitUnionMembers site rest
    return .unionMember type (safeName f.name) :: more

def emitUnion (site : Site) (name : Name) (fields : List Field) : Emission (List DeclLine) := do
  let body ← emitUnionMembers site fields
  return [DeclLine.openUnion name.last, .unionConstructor name.last, .blank] ++ body ++
    [DeclLine.closeType, .triviallyCopyable name.last, .blank]

def emitReply (site : Site) (reply : Option Reply) : Emission (List DeclLine) :=
  match reply with
  | some reply => emitContainer (site.at "reply") reply.name .reply reply.fields
  | none => return []

def emitRequest (site : Site) (r : Request) : Emission (List DeclLine) := do
  let method := r.name.last
  let replyName := if r.reply.isSome then method ++ "Reply" else "void"
  let request ← emitContainer site r.name .request r.fields
  let reply ← emitReply site r.reply
  return request ++ reply ++
    [DeclLine.response method replyName, .blank, .methodResult replyName method,
      .methodArgument (method ++ "Request"), .blank]

def emitType (site : Site) (d : Decl) : Emission (List DeclLine) :=
  match d.type with
  | .union name fields => emitUnion site name fields
  | .container (.request opcode) name fields => emitRequest site ⟨name, opcode, fields, d.reply⟩
  | .container shape _ fields => emitContainer site d.name shape.kind fields
  | .enum name values bits => return declareEnum name values bits
  | .simple name => return [.typeAlias d.name.last (qualify (.simple name) site.ns), .blank]
  | type => site.fail (.declType type.kind)

def emitDecl (className : String) (d : Decl) : Emission (List DeclLine) := do
  freshScope
  emitType ⟨.encode, ["x11", className], [d.name.last]⟩ d

def emitDecls (className : String) : List Decl → Emission (List DeclLine)
  | [] => return []
  | d :: rest => do
    let lines ← emitDecl className d
    let more ← emitDecls className rest
    return lines ++ more

/-- The names declared before the first declaration that fails, and the lines of all of them. -/
def declareAll (className : String) (decls : List Decl) : List Name × Except Fault (List DeclLine) :=
  ((decls.takeWhile fun d => (alone (emitDecl className d)).isOk).map (·.name),
    alone (emitDecls className decls))

end CodecGen.Emit
