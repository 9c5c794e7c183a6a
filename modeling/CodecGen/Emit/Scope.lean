import CodecGen.Emit.Fault
import CodecGen.Emit.Naming
import CodecGen.Emit.Stmt
set_option autoImplicit false
/-!
The fields that expressions can name, and the bindings that make the members of an object visible
as locals.
-/
namespace CodecGen.Emit
open Schema

/-- The fields in scope, innermost first. -/
abbrev Scope := List Field

namespace Scope

def binds (f : Field) : Bool := f.wire && f.visible

def push (s : Scope) (f : Field) : Scope := if binds f then f :: s else s

def resolve? (s : Scope) (name : String) : Option Field := s.find? (·.name == name)

def pop? (s : Scope) (count : Int) : Option Scope :=
  if count < 0 || (s.length : Int) < count then none else some (s.drop count.toNat)

/-- The variable that holds the size of a list field, and whether it has to be declared because no
field of that name is in scope. Other fields have none. -/
def lengthBinding (s : Scope) (f : Field) : String × Bool :=
  match f.type with
  | .list .. =>
    let name := safeName f.name ++ "_len"
    (name, (s.resolve? name).isNone)
  | _ => ("", false)

end Scope

structure Frame where
  scope : Scope := []
  nextId : Nat := 0

abbrev Emission := ExceptT Fault (StateM Frame)

def alone {α : Type} (x : Emission α) : Except Fault α := (x.run {}).1

/-- The statements that bind the visible members of an object, how many were bound, and the frame
after them. A member called like the object itself is bound by way of a temporary. -/
def bindMembers (object : String) : List Field → Frame → List Stmt × Nat × Frame
  | [], frame => ([], 0, frame)
  | f :: rest, frame =>
    if Scope.binds f then
      let name := safeName f.name
      let scope := f :: frame.scope
      let (bound, nextId) :=
        if name == object then
          ([Stmt.bindMemberAside frame.nextId name object, .bindFromAside name frame.nextId],
            frame.nextId + 1)
        else ([.bindMember name object], frame.nextId)
      let size :=
        match Scope.lengthBinding scope f with
        | (length, true) => [.bindLength length name]
        | _ => []
      let (more, count, frame) := bindMembers object rest ⟨scope, nextId⟩
      (bound ++ size ++ more, count + 1, frame)
    else bindMembers object rest frame

def bindFields (object : String) (fields : List Field) (frame : Frame) : List Stmt × Nat × Frame :=
  let (stmts, count, frame) := bindMembers object fields frame
  (if count == 0 then stmts else stmts ++ [.blank], count, frame)

/-- Runs a piece of emission with the members of an object in scope, and takes them out of scope
again however it ends. -/
def withFields {α : Type} (object : String) (fields : List Field) (body : Emission α) :
    Emission (List Stmt × α) :=
  ExceptT.mk fun frame =>
    let (stmts, count, inner) := bindFields object fields frame
    let (result, inner) := body.run inner
    match Scope.pop? inner.scope count with
    | some scope => (result.map fun a => (stmts, a), { inner with scope })
    | none => (.error ⟨.scopeUnderflow, []⟩, inner)

def freshScope : Emission Unit := modify fun frame => { frame with scope := [] }

def freshId : Emission Nat := modifyGet fun frame => (frame.nextId, { frame with nextId := frame.nextId + 1 })

end CodecGen.Emit
