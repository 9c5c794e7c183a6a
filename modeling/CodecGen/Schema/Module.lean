import CodecGen.Schema.Type
set_option autoImplicit false
/-!
Protocol modules: the core protocol or one extension, with its declarations in order. The stages that
work on a module report their progress as events.
-/
namespace CodecGen.Schema

structure Reply where
  name : Name
  fields : List Field
deriving Inhabited

/-- A declared name and the type it stands for, with the reply if that is a request which has one.
Several declarations may share a type. -/
structure Decl where
  name : Name
  type : Ty
  reply : Option Reply := none
deriving Inhabited

structure Request where
  name : Name
  opcode : Int
  fields : List Field
  reply : Option Reply

def Decl.request? (d : Decl) : Option Request :=
  match d.type with
  | .container (.request opcode) name fields => some ⟨name, opcode, fields, d.reply⟩
  | _ => none

structure Module where
  header : String
  isExt : Bool := false
  extName : String := ""
  extXName : String := ""
  major : Int := 0
  minor : Int := 0
  imports : List Module := []
  decls : List Decl := []
deriving Inhabited

namespace Module

def className (m : Module) : String := if m.isExt then m.extName else "XProto"

def requests (m : Module) : List Request := m.decls.filterMap Decl.request?

/-- The declaration that the last segment of a name stands for; of several the last one. -/
def find? (m : Module) (name : String) : Option Decl :=
  m.decls.reverse.find? fun d => Name.last d.name == name

end Module
end CodecGen.Schema

namespace CodecGen

inductive LogEvent where
  | compiled (header source : String) (decls warnings : Nat)
  | loadingImport (importer imported path : String)
  | declared (name : Schema.Name)
  | generated (header className : String) (headerBytes sourceBytes : Nat)
  | wrote (header source : String)
deriving DecidableEq, Repr

end CodecGen
