import CodecGen.Markup.Event
set_option autoImplicit false
/-!
The element tree of a protocol description. Documentation (`doc` elements) is left out, and of
names only the local part is kept.
-/
namespace CodecGen.Markup

structure Attribute where
  name : String
  value : String
deriving DecidableEq, Repr, Inhabited

def TagAttribute.plain (a : TagAttribute) : Attribute := ⟨a.name.tag, a.value⟩

/-- An element with its attributes in order, its own character data without the white space around
it, its child elements, and the stretch of the source from its start tag through its end tag. -/
structure Element where
  tag : String
  attrs : List Attribute
  text : String
  children : List Element
  span : Span
deriving Repr, Inhabited

namespace Element

def attr? (e : Element) (name : String) : Option String :=
  (e.attrs.find? (·.name == name)).map (·.value)

def attrD (e : Element) (name fallback : String) : String := (e.attr? name).getD fallback

def elements (e : Element) (tag : String) : List Element := e.children.filter (·.tag == tag)

end Element

inductive SyntaxError where
  | tooLong (size : Nat)
  | invalidUtf8 (offset : Nat)
  | malformed (fault : Fault)
  | multipleRoots (offset : Nat)
  | unexpectedRoot (tag : String) (offset : Nat)
  | missingRoot
deriving DecidableEq, Repr

def maxSourceSize : Nat := 16 * 1024 * 1024

namespace SyntaxError

def code : SyntaxError → Nat
  | tooLong _ => 1000
  | invalidUtf8 _ => 1001
  | malformed _ | multipleRoots _ => 1002
  | unexpectedRoot .. | missingRoot => 1003

def message : SyntaxError → String
  | tooLong size =>
    "Source file size (" ++ toString size ++ " bytes) exceeds maximum (" ++
      toString maxSourceSize ++ " bytes)"
  | invalidUtf8 _ => "Source file contains invalid UTF-8"
  | malformed fault => "Malformed XML: " ++ fault.message
  | multipleRoots _ => "Malformed XML: multiple root elements"
  | unexpectedRoot tag _ => "Root element is <" ++ tag ++ ">, expected <xcb>"
  | missingRoot => "Missing root element <xcb>"

def text (e : SyntaxError) : String := "E" ++ toString e.code ++ ": " ++ e.message

def span : SyntaxError → Span
  | tooLong size => ⟨0, min size 0xffffffff⟩
  | invalidUtf8 offset => ⟨offset, 1⟩
  | malformed fault => ⟨fault.offset, 0⟩
  | multipleRoots offset => ⟨offset, 0⟩
  | unexpectedRoot tag offset => ⟨offset, tag.utf8ByteSize + 1⟩
  | missingRoot => ⟨0, 1⟩

end SyntaxError

structure Frame where
  tag : String
  attrs : List Attribute
  start : Nat
  text : List Char := []
  children : List Element := []
deriving Repr

def Frame.close (f : Frame) (stop : Nat) : Element where
  tag := f.tag
  attrs := f.attrs
  text := String.ofList (Text.Blank.trimChars f.text.reverse)
  children := f.children.reverse
  span := ⟨f.start, stop - f.start⟩

/-- A tree under construction: the finished root, the open elements from the innermost outwards,
and how many documentation elements enclose the current place. -/
structure Assembly where
  root? : Option Element := none
  frames : List Frame := []
  skipped : Nat := 0
deriving Repr

namespace Assembly

def enter (a : Assembly) (start : Nat) (name : QName) (attrs : List TagAttribute) :
    Except SyntaxError Assembly :=
  if 0 < a.skipped then .ok { a with skipped := a.skipped + 1 }
  else if name.tag == "doc" then .ok { a with skipped := 1 }
  else if a.frames.isEmpty && a.root?.isSome then .error (.multipleRoots start)
  else if a.frames.isEmpty && name.tag != "xcb" then .error (.unexpectedRoot name.tag start)
  else .ok { a with frames := ⟨name.tag, attrs.map TagAttribute.plain, start, [], []⟩ :: a.frames }

def leave (a : Assembly) (stop : Nat) : Assembly :=
  if 0 < a.skipped then { a with skipped := a.skipped - 1 }
  else match a.frames with
    | [] => a
    | [f] => { a with root? := some (f.close stop), frames := [] }
    | f :: parent :: rest =>
      { a with frames := { parent with children := f.close stop :: parent.children } :: rest }

def addText (a : Assembly) (cs : List Char) : Assembly :=
  if 0 < a.skipped then a
  else match a.frames with
    | [] => a
    | f :: rest => { a with frames := { f with text := cs.reverse ++ f.text } :: rest }

def step (a : Assembly) : Event → Except SyntaxError Assembly
  | .enter start name attrs => a.enter start name attrs
  | .leave stop => .ok (a.leave stop)
  | .text cs => .ok (a.addText cs)

def run (a : Assembly) : List Event → Except SyntaxError Assembly
  | [] => .ok a
  | e :: rest =>
    match a.step e with
    | .error err => .error err
    | .ok a => run a rest

end Assembly

def parse (src : Bytes) : Except SyntaxError Element :=
  if maxSourceSize < src.length then .error (.tooLong src.length)
  else if !Text.Utf8.valid src then .error (.invalidUtf8 (Text.Utf8.firstReplacement 0 0 src))
  else
    let (events, fault?) := events src
    match Assembly.run {} events with
    | .error err => .error err
    | .ok a =>
      match fault?, a.root? with
      | some fault, _ => .error (.malformed fault)
      | none, some root => .ok root
      | none, none => .error .missingRoot

end CodecGen.Markup
