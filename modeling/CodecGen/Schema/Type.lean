import CodecGen.Schema.Expr
set_option autoImplicit false
/-!
The types of a protocol, with the layout of messages in wire order.

A type is a finite tree: where a field has a message type, the layout of that message is part of
the tree. Only a message that contains itself has no end; it is spelled out to some depth, and
below that it is a `mention` of its kind and name.
-/
namespace CodecGen.Schema

inductive Kind where
  | absent | simple | enum | union | struct | request | reply | event | error
  | pad | list | exprField | switch | case
deriving DecidableEq, Repr, Inhabited

structure EnumItem where
  name : String
  value : String
deriving DecidableEq, Repr, Inhabited

inductive Shape where
  | struct
  | request (opcode : Int)
  | reply
  | event (number : Int) (noSequence xge : Bool)
  | error (number : Int)
deriving DecidableEq, Repr, Inhabited

def Shape.kind : Shape → Kind
  | struct => .struct
  | request _ => .request
  | reply => .reply
  | event .. => .event
  | error _ => .error

mutual

/-- A type. An `enum` lists every item with its value, and the bits again with their positions. A
`list` has a fixed count or a length. The branches of a `switch` are fields whose types are
cases. -/
inductive Ty where
  | absent
  | simple (name : Name)
  | enum (name : Name) (values bits : List EnumItem)
  | union (name : Name) (fields : List Field)
  | container (shape : Shape) (name : Name) (fields : List Field)
  | pad (bytes align : Int)
  | list (member : Ty) (count : Int) (length : Option Expr)
  | exprField (base : Ty) (value : Expr)
  | switch (name : Name) (selector : Expr) (cases : List Field)
  | case (name : Name) (byValue byMask : Bool) (selectors : List Expr) (fields : List Field)
  | mention (kind : Kind) (name : Name)

/-- A field. On the wire it takes up bytes; visible it is a member that expressions may name. -/
structure Field where
  name : String
  type : Ty
  wire : Bool
  visible : Bool

end

instance : Inhabited Ty := ⟨.absent⟩
instance : Inhabited Field := ⟨⟨"", .absent, false, false⟩⟩

namespace Ty

def kind : Ty → Kind
  | absent => .absent
  | simple _ => .simple
  | enum .. => .enum
  | union .. => .union
  | container shape .. => shape.kind
  | pad .. => .pad
  | list .. => .list
  | exprField .. => .exprField
  | switch .. => .switch
  | case .. => .case
  | mention kind _ => kind

def typeName : Ty → Name
  | absent => []
  | simple name => name
  | enum name .. => name
  | union name _ => name
  | container _ name _ => name
  | pad .. => ["uint8_t"]
  | list member .. => member.typeName
  | exprField base _ => base.typeName
  | switch name .. => name
  | case name .. => name
  | mention _ name => name

end Ty

def isBit (bits : List EnumItem) (name : String) : Bool := bits.any (·.name == name)

/-- A field of this name holds the minor opcode of an extension, whose major opcode is assigned
when the program runs. -/
def hasMinorOpcode (fields : List Field) : Bool := fields.any (·.name == "minor_opcode")

end CodecGen.Schema
