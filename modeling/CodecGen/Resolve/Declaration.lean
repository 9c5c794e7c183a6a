import CodecGen.Resolve.Layout
set_option autoImplicit false
/-!
Declarations. Names are registered first, so that types may be used before the place where they
are declared; then the contents are resolved, copies of events and errors after everything else.
-/
namespace CodecGen.Resolve
open Schema Markup

inductive Head where
  | enum
  | union
  | container (shape : Shape)
deriving DecidableEq, Repr

def Head.kind : Head → Kind
  | enum => .enum
  | union => .union
  | container shape => shape.kind

structure Pending where
  element : Element
  name : Name
  head : Head

def isCopy (e : Element) : Bool := e.tag == "eventcopy" || e.tag == "errorcopy"

/-- The names declared so far and what they stand for, and the declarations among them that have
contents, both in order. -/
structure Registry where
  names : List (String × Target) := []
  pending : List Pending := []

def declare (r : Registry) (e : Element) (name : String) (target : Target) (pending : List Pending) :
    Noted Registry :=
  match r.names.lookup name with
  | some _ => do
    noteError (.duplicateDecl name) e.span
    return r
  | none => return ⟨r.names ++ [(name, target)], r.pending ++ pending⟩

def declareOwn (path : Name) (r : Registry) (e : Element) (name : String) (head : Head) :
    Noted Registry :=
  let full := path ++ [name]
  declare r e name (.own head.kind full) [⟨e, full, head⟩]

def head? (e : Element) : Option (Noted Head) :=
  match e.tag with
  | "enum" => some (pure .enum)
  | "struct" => some (pure (.container .struct))
  | "union" => some (pure .union)
  | "request" => some ((fun opcode => .container (.request opcode)) <$> intAttr e "opcode" (-1))
  | "event" | "eventcopy" =>
    some ((fun number =>
      .container (.event number (e.attrD "no-sequence-number" "" == "true") (e.attrD "xge" "" == "true")))
      <$> intAttr e "number" (-1))
  | "error" | "errorcopy" => some ((fun number => .container (.error number)) <$> intAttr e "number" (-1))
  | _ => none

def registerTypedef (env : Env) (r : Registry) (e : Element) : Noted Registry := do
  match ← requireAttr e "oldname", ← requireAttr e "newname" with
  | some oldName, some newName =>
    match ← lookupType { env with own := r.names } oldName e.span with
    | some target => declare r e newName target []
    | none => return r
  | _, _ => return r

def register (env : Env) (path : Name) (r : Registry) (e : Element) : Noted Registry :=
  match e.tag with
  | "import" => return r
  -- identifiers of resources are plain numbers on the wire
  | "xidtype" | "xidunion" => do
    match ← requireAttr e "name" with
    | some name => declare r e name (.known card32 none) []
    | none => return r
  -- an alias sees only the names that were declared before it
  | "typedef" => registerTypedef env r e
  | tag =>
    match head? e with
    | some head => do
      match ← requireAttr e "name" with
      | some name => declareOwn path r e name (← head)
      | none => return r
    | none => do
      noteWarning (.ignoredElement tag) e.span
      return r

def registerAll (env : Env) (path : Name) (r : Registry) : List Element → Noted Registry
  | [] => return r
  | e :: rest => do registerAll env path (← register env path r e) rest

structure EnumEntry where
  item : EnumItem
  bit : Option String
deriving DecidableEq, Repr

/-- The value that an item states: its own text, or that of a bit with its position. The number is
the one that counting goes on from, if the item sets it. -/
def resolveItem (name : String) (e : Element) : Noted (Option (EnumEntry × Option Int)) := do
  match e.tag with
  | "value" => return (← natural e).map fun v => (⟨⟨name, e.text⟩, none⟩, some (v + 1))
  | "bit" =>
    return (← bitPosition e).map fun v =>
      (⟨⟨name, toString (Text.Integer.twoTo v)⟩, some e.text⟩, none)
  | tag => do
    noteWarning (.ignoredElement tag) e.span
    return none

/-- The items of an enumeration. One without a value gets the number after the last stated or
counted value, in a signed word of 64 bits. -/
def resolveItems (enum : String) : (seen : List String) → (next : Int) → List Element →
    Noted (List EnumEntry)
  | _, _, [] => return []
  | seen, next, e :: rest => do
    match ← requireAttr e "name" with
    | none => resolveItems enum seen next rest
    | some name =>
      if seen.contains name then do
        noteWarning (.duplicateItem enum name) e.span
        resolveItems enum seen next rest
      else
        match e.children with
        | [] => do
          let more ← resolveItems enum (name :: seen) (Text.Integer.wrap 64 (next + 1)) rest
          return ⟨⟨name, toString next⟩, none⟩ :: more
        | child :: _ => do
          match ← resolveItem name child with
          | none => resolveItems enum (name :: seen) next rest
          | some (entry, after) =>
            let more ← resolveItems enum (name :: seen)
              (Text.Integer.wrap 64 (after.getD next)) rest
            return entry :: more

def resolveEnum (name : Name) (e : Element) : Noted Ty := do
  let entries ← resolveItems name.last [] 0 (e.elements "item")
  return .enum name (entries.map (·.item))
    (entries.filterMap fun x => x.bit.map fun bit => ⟨x.item.name, bit⟩)

def resolveRequest (env : Env) (isExt : Bool) (name : Name) (opcode : Int) (e : Element) :
    Noted Decl := do
  let members ← resolveMembers env { parent := name, inRequest := true, mayReply := true } 0 e.children
  return {
    name
    type := .container (.request opcode) name (requestLayout isExt (members.filterMap Member.field?))
    -- of several replies the last one counts
    reply := ((members.filterMap Member.reply?).getLast?).map fun fields => ⟨name, fields⟩ }

def resolveContents (env : Env) (isExt : Bool) (p : Pending) : Noted Decl :=
  let fields := resolveFields env { parent := p.name } p.element
  match p.head with
  | .enum => (fun type => { name := p.name, type }) <$> resolveEnum p.name p.element
  | .union => (fun fields => { name := p.name, type := .union p.name fields }) <$> fields
  | .container (.request opcode) => resolveRequest env isExt p.name opcode p.element
  | .container (.event number noSequence xge) =>
    (fun fields =>
      { name := p.name
        type := .container (.event number noSequence xge) p.name (eventLayout noSequence xge fields) })
      <$> fields
  | .container (.error number) =>
    (fun fields => { name := p.name, type := .container (.error number) p.name (errorLayout fields) })
      <$> fields
  | .container shape => (fun fields => { name := p.name, type := .container shape p.name fields }) <$> fields

def resolveAllContents (env : Env) (isExt : Bool) : List Pending → Noted (List Decl)
  | [] => return []
  | p :: rest => do
    let one ← resolveContents env isExt p
    let more ← resolveAllContents env isExt rest
    return one :: more

def sharesFields : Head → Ty → Bool
  | .container (.event ..), .container (.event ..) .. => true
  | .container (.error _), .container (.error _) .. => true
  | _, _ => false

/-- The fields that a copy takes from its source. A source that is itself a copy and comes later
has none yet, and a source of another kind gives none. -/
def copiedFields (drafts : List Decl) (head : Head) : Target → List Field
  | .known type _ =>
    match sharesFields head type, type with
    | true, .container _ _ fields => fields
    | _, _ => []
  | .own _ name =>
    match drafts.find? (·.name == name) with
    | some d =>
      match sharesFields head d.type, d.type with
      | true, .container _ _ fields => fields
      | _, _ => []
    | none => []

def copyType (head : Head) (name : Name) (fields : List Field) : Ty :=
  match head with
  | .container shape => .container shape name fields
  | .union => .union name fields
  | .enum => .enum name [] []

def resolveCopy (env : Env) (drafts : List Decl) (p : Pending) : Noted Decl := do
  let source ←
    match ← requireAttr p.element "ref" with
    | some ref => lookupType env ref p.element.span
    | none => pure none
  let fields := (source.map (copiedFields drafts p.head)).getD []
  return { name := p.name, type := copyType p.head p.name fields }

def resolveCopies (env : Env) (drafts : List Decl) : List Pending → Noted (List Decl)
  | [] => return drafts
  | p :: rest => do
    let one ← resolveCopy env drafts p
    resolveCopies env (drafts ++ [one]) rest

end CodecGen.Resolve
