import CodecGen.Resolve.Expression
set_option autoImplicit false
/-!
The fields of messages. What the description lists are the members of a message; the protocol puts
header fields before them and, in core requests, replies and events, moves the first member into
the byte after the first.
-/
namespace CodecGen.Resolve
open Schema Markup

/-- What a list of members belongs to: the name for messages, whether lists take their lengths from
request fields, whether a reply may stand here, and whether expressions are left out. -/
structure Place where
  parent : Name
  inRequest : Bool := false
  mayReply : Bool := false
  inBranch : Bool := false

inductive Member where
  | field (f : Field)
  | reply (fields : List Field)

def Member.field? : Member → Option Field
  | field f => some f
  | reply _ => none

def Member.reply? : Member → Option (List Field)
  | field _ => none
  | reply fields => some fields

def isIgnored (e : Element) : Bool :=
  ["valueparam", "required_start_align", "length"].contains e.tag

def headerField (name : String) (type : Ty) : Field := ⟨name, type, true, false⟩

def placeholder : Field := headerField "pad0" (.pad 1 1)

/-- The fields of a message while they are put together. A placeholder keeps the slot at an index free
for the first member. -/
structure FieldList where
  fields : List Field := []
  slot? : Option Nat := none

namespace FieldList

def header (l : FieldList) (f : Field) : FieldList := { l with fields := l.fields ++ [f] }

def addPlaceholder (l : FieldList) : FieldList := ⟨l.fields ++ [placeholder], some l.fields.length⟩

def add (l : FieldList) (f : Field) : FieldList :=
  match l.slot? with
  | some index => ⟨l.fields.set index f, none⟩
  | none => { l with fields := l.fields ++ [f] }

def addAll (l : FieldList) (members : List Field) : List Field := (members.foldl add l).fields

end FieldList

def requestLayout (isExt : Bool) (members : List Field) : List Field :=
  let start := FieldList.header {} (headerField "major_opcode" card8)
  let slotted :=
    if isExt then start.header (headerField "minor_opcode" card8) else start.addPlaceholder
  (slotted.header (headerField "length" card16)).addAll members

def replyLayout (members : List Field) : List Field :=
  let start := FieldList.header {} (headerField "response_type" card8)
  ((start.addPlaceholder.header (headerField "sequence" card16)).header
    (headerField "length" card32)).addAll members

def eventLayout (noSequence xge : Bool) (members : List Field) : List Field :=
  let start := FieldList.header {} (headerField "response_type" card8)
  let rest :=
    if xge then
      [headerField "extension" card8, headerField "sequence" card16, headerField "length" card32,
        headerField "event_type" card16].foldl FieldList.header start
    else if noSequence then start.addPlaceholder
    else start.addPlaceholder.header (headerField "sequence" card16)
  rest.addAll members

def errorLayout (members : List Field) : List Field :=
  let start := FieldList.header {} (headerField "response_type" card8)
  ((start.header (headerField "error_code" card8)).header
    (headerField "sequence" card16)).addAll members

def padType (e : Element) : Noted Ty :=
  match e.attr? "align" with
  | some _ => (fun align => .pad 1 align) <$> intAttr e "align" 1
  | none => (fun bytes => .pad bytes 1) <$> intAttr e "bytes" 1

def resolvePad (pads : Nat) (e : Element) : Noted (Option Member) := do
  return some (.field ⟨"pad" ++ toString pads, ← padType e, true, false⟩)

def nameAndType (env : Env) (e : Element) : Noted (Option (String × Ty)) := do
  match ← requireAttr e "name", ← requireAttr e "type" with
  | some name, some type => return (← lookupType env type e.span).map fun t => (name, t.type)
  | _, _ => return none

def resolvePlain (env : Env) (e : Element) : Noted (Option Member) := do
  return (← nameAndType env e).map fun (name, type) => .field ⟨name, type, true, true⟩

def resolveDescriptor (e : Element) : Noted (Option Member) := do
  return (← requireAttr e "name").map fun name => .field ⟨name, int32, false, true⟩

/-- The count and the length of a list. A number is a count in a signed word of 64 bits. Without an
expression a request has a field for the length, and other messages use the length of the list
itself. -/
def listSize (place : Place) (name : String) : Option Expr → Int × Option Expr
  | some (.value v) => (Text.Integer.wrap 64 v, none)
  | some e => (0, some e)
  | none => (0, some (if place.inRequest then .fieldRef (name ++ "_len") else .fieldLen name))

def resolveList (env : Env) (place : Place) (e : Element) : Noted (Option Member) := do
  match ← nameAndType env e with
  | none => return none
  | some (name, type) =>
    let member (size : Int × Option Expr) : Member :=
      .field ⟨name, .list type size.1 size.2, true, true⟩
    match e.children with
    | [] => return some (member (listSize place name none))
    | child :: _ => return (← resolveExpr env child).map fun x => member (listSize place name (some x))

def resolveExprField (env : Env) (e : Element) : Noted (Option Member) := do
  match ← nameAndType env e with
  | none => return none
  | some (name, type) =>
    match e.children with
    | [] => refuse (.missingExpr e.tag) e.span
    | child :: _ =>
      return (← resolveExpr env child).map fun x => .field ⟨name, .exprField type x, true, false⟩

def resolveSelectors (env : Env) : List Element → Noted (List Expr)
  | [] => return []
  | e :: rest =>
    if isExpression e then do
      let one ← resolveExpr env e
      let more ← resolveSelectors env rest
      return one.toList ++ more
    else resolveSelectors env rest

def resolveSelector (env : Env) (children : List Element) : Noted (Option Expr) :=
  match children with
  | [] => return none
  | e :: _ => resolveExpr env e

def switchMember (e : Element) (name : String) (type : Name) (selector : Option Expr)
    (branches : List Field) : Noted (Option Member) :=
  match selector with
  | some selector => return some (.field ⟨name, .switch type selector branches, true, true⟩)
  | none => refuse (.missingExpr e.tag) e.span

/-- The element that the fields of a branch are those of: the branch without its selectors. It is made
up, so it has no place in the source. -/
def branchBody (branch : Element) : Element :=
  ⟨branch.tag, [], "", branch.children.filter (!isExpression ·), ⟨0, 0⟩⟩

mutual

def resolveMember (env : Env) (place : Place) (pads : Nat) : Element → Noted (Option Member)
  | ⟨tag, attrs, text, children, span⟩ =>
    let e : Element := ⟨tag, attrs, text, children, span⟩
    match tag with
    | "pad" => resolvePad pads e
    | "field" => resolvePlain env e
    | "fd" => resolveDescriptor e
    | "list" => resolveList env place e
    | "exprfield" => resolveExprField env e
    | "switch" => do
      match ← requireAttr e "name" with
      | none => return none
      | some name =>
        let type := place.parent ++ [name]
        let selector ← resolveSelector env children
        let branches ← resolveBranches env { parent := type, inRequest := place.inRequest } true children
        switchMember e name type selector branches
    | "reply" =>
      if place.mayReply then do
        let members ← resolveMembers env { parent := place.parent } 0 children
        return some (.reply (replyLayout (members.filterMap Member.field?)))
      else refuse (.replyOutsideRequest place.parent.text) span
    | tag =>
      if isIgnored e then do
        noteWarning (.ignoredElement tag) span
        return none
      else refuse (.unknownField tag place.parent.text) span

def resolveMembers (env : Env) (place : Place) (pads : Nat) : List Element → Noted (List Member)
  | [] => return []
  | e :: rest =>
    -- in a branch the expressions are selectors and no members
    if place.inBranch && isExpression e then resolveMembers env place pads rest
    else do
      let one ← resolveMember env place pads e
      let more ← resolveMembers env place (if e.tag == "pad" then pads + 1 else pads) rest
      return one.toList ++ more

def resolveBranches (env : Env) (place : Place) (first : Bool) : List Element → Noted (List Field)
  | [] => return []
  | e :: rest =>
    -- the first child of a switch is its selector
    if first then resolveBranches env place false rest
    else do
      let one ← resolveBranch env place e
      let more ← resolveBranches env place false rest
      return one.toList ++ more

def resolveBranch (env : Env) (place : Place) : Element → Noted (Option Field)
  | ⟨tag, attrs, text, children, span⟩ =>
    let e : Element := ⟨tag, attrs, text, children, span⟩
    if tag == "case" || tag == "bitcase" then do
      let name := e.attrD "name" ""
      let selectors ← resolveSelectors env children
      let members ← resolveMembers env { place with inBranch := true } 0 children
      let type :=
        Ty.case (place.parent ++ [name]) (tag == "case") (tag == "bitcase") selectors
          (members.filterMap Member.field?)
      return some ⟨name, type, true, true⟩
    else refuse (.unknownField tag place.parent.text) span

end

def resolveFields (env : Env) (place : Place) (e : Element) : Noted (List Field) := do
  return (← resolveMembers env place 0 e.children).filterMap Member.field?

theorem resolveMember_place (env : Env) (place : Place) (inBranch : Bool) (pads : Nat) (e : Element) :
    resolveMember env { place with inBranch } pads e = resolveMember env place pads e := by
  obtain ⟨tag, attrs, text, children, span⟩ := e
  unfold resolveMember
  rfl

theorem resolveMembers_inBranch (env : Env) (place : Place) (pads : Nat) (es : List Element) :
    resolveMembers env { place with inBranch := true } pads es =
      resolveMembers env { place with inBranch := false } pads (es.filter (!isExpression ·)) := by
  induction es generalizing pads with
  | nil => simp only [List.filter_nil, resolveMembers]
  | cons e rest ih =>
    cases hexpr : isExpression e with
    | true => simp [resolveMembers, hexpr, ih]
    | false =>
      rw [List.filter_cons_of_pos (by simp [hexpr]), resolveMembers, resolveMembers]
      simp only [hexpr, Bool.and_false, Bool.false_eq_true, if_false, ih, resolveMember_place]

theorem resolveBranch_eq (env : Env) (place : Place) (e : Element) :
    resolveBranch env place e =
      if e.tag == "case" || e.tag == "bitcase" then do
        let name := e.attrD "name" ""
        let selectors ← resolveSelectors env e.children
        let fields ← resolveFields env { place with inBranch := false } (branchBody e)
        return some ⟨name, .case (place.parent ++ [name]) (e.tag == "case") (e.tag == "bitcase")
          selectors fields, true, true⟩
      else refuse (.unknownField e.tag place.parent.text) e.span := by
  obtain ⟨tag, attrs, text, children, span⟩ := e
  rw [resolveBranch]
  simp only [resolveFields, branchBody, resolveMembers_inBranch, bind_assoc, pure_bind]

end CodecGen.Resolve
