import CodecGen.Markup.Lexeme
set_option autoImplicit false
/-!
Lexemes matched into elements that are entered and left: every end tag closes the element opened
last, and at the end none is open.
-/
namespace CodecGen.Markup

inductive Event where
  | enter (start : Nat) (name : QName) (attrs : List TagAttribute)
  | leave (stop : Nat)
  | text (cs : List Char)
deriving DecidableEq, Repr

def closeFault? (opened : List QName) (name : QName) : Option Cause :=
  match opened with
  | [] => some (.unexpectedClose name.tag)
  | top :: _ =>
    if top.tag != name.tag then some (.mismatchedClose top.tag name.tag)
    else if top.space != name.space then some (.mismatchedSpace name.tag top.space name.space)
    else none

/-- The events up to the end of the lexemes or the first end tag that does not match, and the
elements left open. -/
def matchTags : (opened : List QName) → (out : List Event) → List Placed →
    List Event × Except Fault (List QName)
  | opened, out, [] => (out.reverse, .ok opened)
  | opened, out, p :: rest =>
    match p.lexeme with
    | .text cs => matchTags opened (.text cs :: out) rest
    | .openTag start name attrs false =>
      matchTags (name :: opened) (.enter start name attrs :: out) rest
    | .openTag start name attrs true =>
      matchTags opened (.leave p.stop :: .enter start name attrs :: out) rest
    | .closeTag name =>
      match closeFault? opened name with
      | some c => (out.reverse, .error ⟨p.stop, p.line, c⟩)
      | none => matchTags opened.tail (.leave p.stop :: out) rest

def events (src : Bytes) : List Event × Option Fault :=
  let reading := read src
  match matchTags [] [] reading.lexemes with
  | (out, .error fault) => (out, some fault)
  | (out, .ok opened) =>
    match reading.cause? with
    | some c => (out, some ⟨reading.offset, reading.line, c⟩)
    | none =>
      if opened.isEmpty then (out, none)
      else (out, some ⟨reading.offset, reading.line, .unexpectedEnd⟩)

end CodecGen.Markup
