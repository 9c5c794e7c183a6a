set_option autoImplicit false
/-!
Generated text line by line. Indentation is two spaces for each enclosing block; preprocessor
lines and empty lines are never indented.
-/
namespace CodecGen.Emit

/-- How a line changes the depth: one that opens a block deepens the lines after it, one that
closes a block stands at the depth of the line that opened it. -/
inductive Nesting where
  | flat
  | opens
  | closes
deriving DecidableEq, Repr

structure Line where
  nesting : Nesting
  text : String
deriving DecidableEq, Repr

def Line.flat (text : String) : Line := ⟨.flat, text⟩
def Line.opens (text : String) : Line := ⟨.opens, text⟩
def Line.closes (text : String) : Line := ⟨.closes, text⟩

def Line.depthAt (l : Line) (depth : Int) : Int :=
  match l.nesting with
  | .closes => depth - 1
  | _ => depth

def Line.depthAfter (l : Line) (depth : Int) : Int :=
  match l.nesting with
  | .flat => depth
  | .opens => depth + 1
  | .closes => depth - 1

def isIndented (text : String) : Bool :=
  match text.toList with
  | [] => false
  | c :: _ => c != '#'

def indentation (depth : Int) : String := String.ofList (List.replicate (2 * depth.toNat) ' ')

def Line.render (l : Line) (depth : Int) : String :=
  (if isIndented l.text then indentation (l.depthAt depth) else "") ++ l.text ++ "\n"

def renderOnto (text : String) (depth : Int) : List Line → String
  | [] => text
  | l :: rest => renderOnto (text ++ l.render depth) (l.depthAfter depth) rest

def render (lines : List Line) : String := renderOnto "" 0 lines

end CodecGen.Emit
