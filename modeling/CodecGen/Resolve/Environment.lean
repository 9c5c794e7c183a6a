import CodecGen.Markup.Element
import CodecGen.ModuleSet
import CodecGen.Resolve.Noted
import CodecGen.Text.Integer
set_option autoImplicit false
/-!
What type names stand for inside a module, and the attributes of its elements.
-/
namespace CodecGen.Resolve
open Schema Markup

def scalar? (name : String) : Option String :=
  [("CARD8", "uint8_t"), ("CARD16", "uint16_t"), ("CARD32", "uint32_t"), ("CARD64", "uint64_t"),
    ("INT8", "int8_t"), ("INT16", "int16_t"), ("INT32", "int32_t"), ("INT64", "int64_t"),
    ("BYTE", "uint8_t"), ("BOOL", "uint8_t"), ("char", "char"), ("void", "void"),
    ("float", "float"), ("double", "double")].lookup name

def card8 : Ty := .simple ["uint8_t"]
def card16 : Ty := .simple ["uint16_t"]
def card32 : Ty := .simple ["uint32_t"]
def int32 : Ty := .simple ["int32_t"]

/-- What a type name stands for: a type that is complete, or one that this module declares and
whose contents are still to be resolved. -/
inductive Target where
  | known (type : Ty) (reply : Option Reply)
  | own (kind : Kind) (name : Name)

def Target.type : Target → Ty
  | known type _ => type
  | own kind name => .mention kind name

def Target.kind (t : Target) : Kind := t.type.kind

structure Import where
  module : Module
  span : Span

structure Env where
  header : String
  own : List (String × Target) := []
  imports : List Import := []

def splitQualified? (name : String) : Option (String × String) :=
  let cs := name.toList
  if cs.contains ':' then
    some (String.ofList (cs.takeWhile (· != ':')), String.ofList ((cs.dropWhile (· != ':')).drop 1))
  else none

namespace Env

def findImported? (accepts : Module → Bool) (name : String) :
    (index : Nat) → List Import → Option (Target × Nat)
  | _, [] => none
  | index, i :: rest =>
    match if accepts i.module then i.module.find? name else none with
    | some d => some (.known d.type d.reply, index)
    | none => findImported? accepts name (index + 1) rest

/-- Looks a name up, and says which import was used. A name qualified by a header means a
declaration of that module; others are looked up among the scalars, the module's own
declarations and its imports, in this order. -/
def lookup? (env : Env) (name : String) : Option (Target × Option Nat) :=
  match splitQualified? name with
  | some (header, id) =>
    match if header == env.header then env.own.lookup id else none with
    | some t => some (t, none)
    | none =>
      (findImported? (·.header == header) id 0 env.imports).map fun (t, index) => (t, some index)
  | none =>
    match scalar? name with
    | some scalar => some (.known (.simple [scalar]) none, none)
    | none =>
      match env.own.lookup name with
      | some t => some (t, none)
      | none =>
        (findImported? (fun _ => true) name 0 env.imports).map fun (t, index) => (t, some index)

end Env

def lookupType (env : Env) (name : String) (span : Span) : Noted (Option Target) :=
  match env.lookup? name with
  | some (t, some index) => ⟨some t, [.used index]⟩
  | some (t, none) => ⟨some t, []⟩
  | none => refuse (.unknownType name) span

def requireAttr (e : Element) (attr : String) : Noted (Option String) :=
  match e.attr? attr with
  | some value => pure (some value)
  | none => refuse (.missingAttr e.tag attr) e.span

def intAttr (e : Element) (attr : String) (default : Int) : Noted Int :=
  match e.attr? attr with
  | none => pure default
  | some text =>
    match Text.Integer.word? 32 text with
    | some v => pure v
    | none => do
      noteError (.invalidInteger text) e.span
      return default

def natural (e : Element) : Noted (Option Nat) :=
  match Text.Integer.word? 64 e.text with
  | some (.ofNat v) => pure (some v)
  | _ => refuse (.invalidInteger e.text) e.span

def bitPosition (e : Element) : Noted (Option Nat) := do
  match ← natural e with
  | some v => if v ≤ 63 then return some v else refuse (.invalidInteger e.text) e.span
  | none => return none

end CodecGen.Resolve
