import CodecGen.Schema.Module
set_option autoImplicit false
/-!
Modules by header name, for others to import.
-/
namespace CodecGen
open Schema

/-- Modules of pairwise different headers, in the order in which the headers were first added. Modules
that are resolved among them have the messages that contain themselves spelled out as deep as
`unrolling` says; code generation that would have to look deeper has no result. -/
structure ModuleSet where
  modules : List Module := []
  unrolling : Nat := 0

namespace ModuleSet

def empty : ModuleSet := {}

def headers (s : ModuleSet) : List String := s.modules.map (·.header)

def get? (s : ModuleSet) (header : String) : Option Module := s.modules.find? (·.header == header)

def addTo (m : Module) : List Module → List Module
  | [] => [m]
  -- a module of the same header keeps its place
  | n :: rest => if n.header == m.header then m :: rest else n :: addTo m rest

def add (s : ModuleSet) (m : Module) : ModuleSet := { s with modules := addTo m s.modules }

def merge (s other : ModuleSet) : ModuleSet := other.modules.foldl add s

def find? (s : ModuleSet) (header name : String) : Option Decl := (s.get? header).bind (·.find? name)

end ModuleSet
end CodecGen
