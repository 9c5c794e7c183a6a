import CodecGen.Emit.Expression
set_option autoImplicit false
/-!
The statements that encode or decode a message, field by field in wire order. The layout of a type
is a tree, and every function here follows it.
-/
namespace CodecGen.Emit
open Schema

structure RequestHead where
  opcode : Int
  hasMinor : Bool
deriving DecidableEq, Repr

def requestHead? (shape : Shape) (fields : List Field) : Option RequestHead :=
  match shape with
  | .request opcode => some ⟨opcode, hasMinorOpcode fields⟩
  | _ => none

def copyPad (site : Site) (bytes align : Int) : Emission (List Stmt) :=
  if align ≤ 1 then return [.pad bytes]
  else if bytes ≠ 1 ∨ (align ≠ 2 ∧ align ≠ 4) then site.fail (.padAlign bytes align)
  else return [.align align]

/-- Writes or reads an opcode of a request. Where there is a minor opcode, the major one is left to
the caller. -/
def copyOpcode (site : Site) (head? : Option RequestHead) (type name : String) : Emission (List Stmt) :=
  match site.dir, head? with
  | .decode, _ => site.fail (.headerField name .notDecoded)
  | .encode, none => site.fail (.headerField name .notInRequest)
  | .encode, some head =>
    if name == "major_opcode" && head.hasMinor then return [.majorOpcodeNote, .reserve type]
    else return [.define type name (toString head.opcode), .copy .encode name]

/-- A field that the members of a message do not show. Header fields are known by their names;
opcodes are only written and the head of a reply is only read. Any other must be computed. -/
def copyHidden (site : Site) (head? : Option RequestHead) (name : String) (type : Ty) :
    Emission (List Stmt) :=
  let typeText := qualify type site.ns
  if name == "major_opcode" || name == "minor_opcode" then copyOpcode site head? typeText name
  else if name == "response_type" || name == "sequence" || name == "extension" then
    match site.dir with
    | .encode => site.fail (.headerField name .notEncoded)
    | .decode => return [.declare typeText name, .copy .decode name]
  else if name == "length" then
    match site.dir with
    | .encode => return [.lengthNote, .reserve typeText]
    | .decode => return [.declare typeText name, .copy .decode name]
  else match type with
    | .exprField _ value => do
      let (before, value) ← compileExpr site value
      return before ++ [.define typeText name value, .copy site.dir name]
    | _ => site.fail (.headerField name .withoutValue)

def checkList (site : Site) (count : Int) (length : Option Expr) : Except Fault Unit :=
  if count == 1 || count < 0 || (count == 0 && length.isNone) then
    .error ⟨.listLength count, site.path⟩
  else .ok ()

/-- Sizes the list before decoding, or checks its size before encoding; a list of fixed count needs
neither. -/
def copyLength (site : Site) (name : String) (count : Int) (length : Option Expr) :
    Emission (List Stmt) := do
  checkList site count length
  match length with
  | some length =>
    if count == 0 then
      let (before, size) ← compileExpr site length
      return before ++ [match site.dir with
        | .encode => .checkSize name size
        | .decode => .resize name size]
    else return []
  | none => return []

def checkCase (site : Site) (byValue byMask : Bool) : Except Fault Unit :=
  if byValue == byMask then .error ⟨.caseKind, site.path⟩ else .ok ()

/-- The members of the object of a switch: its named branches, and the fields of the others. -/
def switchMembers (site : Site) : List Field → Except Fault (List Field)
  | [] => .ok []
  | branch :: rest => do
    if branch.name != "" then return branch :: (← switchMembers site rest)
    match branch.type with
    | .case _ byValue byMask _ fields =>
      checkCase (site.at branch.name) byValue byMask
      return fields ++ (← switchMembers site rest)
    | type => throw ⟨.fieldType type.kind, (site.at branch.name).path⟩

def compileConditions (site : Site) (test selector : String) : List Expr →
    Emission (List Stmt × List String)
  | [] => return ([], [])
  | e :: rest => do
    let (before, value) ← compileExpr site e
    let (between, conditions) ← compileConditions site test selector rest
    return (before ++ between, (test ++ "(" ++ selector ++ ", " ++ value ++ ")") :: conditions)

def withBranch {α : Type} (name : String) (fields : List Field) (body : Emission α) :
    Emission (List Stmt × α) :=
  if name == "" then (fun a => ([], a)) <$> body else withFields (safeName name) fields body

mutual

def copyField (site : Site) (head? : Option RequestHead) : Field → Emission (List Stmt)
  | ⟨name, type, _, visible⟩ => do
    let site := site.at name
    let name := safeName name
    let body ←
      -- a pad is never hidden, whatever its visibility
      match type with
      | .pad bytes align => copyPad site bytes align
      | type => if visible then copyValue site name type else copyHidden site head? name type
    return .fieldComment name :: body

def copyValue (site : Site) (name : String) : Ty → Emission (List Stmt)
  | .simple _ | .union .. | .mention .union _ => return [.copy site.dir name]
  | .container shape _ fields => do
    let (bindings, body) ← withFields name fields (copyFields site (requestHead? shape fields) fields)
    return [.openBlock] ++ bindings ++ body ++ [.closeBlock]
  | .list member count length => do
    let before ← copyLength site name count length
    let element := name ++ "_elem"
    let body ← copyElement site element member
    return before ++ [.openLoop element name] ++ body ++ [.closeBlock]
  | .switch _ selector cases => do
    let members ← switchMembers site cases
    let selectorName := name ++ "_expr"
    let (bindings, body) ← withFields name members do
      let (before, value) ← compileExpr site selector
      let branches ← copyBranches site selectorName cases
      return before ++ [.bindSelector selectorName value] ++ branches
    return [.openBlock] ++ bindings ++ body ++ [.closeBlock]
  | .mention .struct name | .mention .request name | .mention .event name | .mention .error name =>
    site.fail (.selfContained name)
  | type => site.fail (.fieldType type.kind)

def copyElement (site : Site) (name : String) : Ty → Emission (List Stmt)
  | .simple _ | .union .. | .mention .union _ => return [.copy site.dir name]
  | .container shape _ fields => do
    let (bindings, body) ← withFields name fields (copyFields site (requestHead? shape fields) fields)
    return bindings ++ body
  | .mention .struct name | .mention .request name | .mention .event name | .mention .error name =>
    site.fail (.selfContained name)
  | type => site.fail (.fieldType type.kind)

def copyFields (site : Site) (head? : Option RequestHead) : List Field → Emission (List Stmt)
  | [] => return []
  | f :: rest => do
    if f.wire then
      let body ← copyField site head? f
      let more ← copyFields site head? rest
      return body ++ [.blank] ++ more
    else copyFields site head? rest

def copyBranches (site : Site) (selector : String) : List Field → Emission (List Stmt)
  | [] => return []
  | branch :: rest => do
    let body ← copyBranch site selector branch
    let more ← copyBranches site selector rest
    return body ++ more

def copyBranch (site : Site) (selector : String) : Field → Emission (List Stmt)
  | ⟨name, .case _ byValue byMask selectors fields, _, _⟩ => do
    let site := site.at name
    checkCase site byValue byMask
    if selectors.isEmpty then site.fail .emptyCase
    let test := if byValue then "CaseEq" else "CaseAnd"
    let (before, conditions) ← compileConditions site test selector selectors
    let (bindings, body) ← withBranch name fields (copyBranchFields site fields)
    return before ++ [.openBranch conditions] ++ bindings ++ body ++ [.closeBlock]
  | ⟨name, type, _, _⟩ => (site.at name).fail (.fieldType type.kind)

def copyBranchFields (site : Site) : List Field → Emission (List Stmt)
  | [] => return []
  | f :: rest => do
    if f.wire then
      let body ← copyField site none f
      let more ← copyBranchFields site rest
      return body ++ more
    else (site.at f.name).fail (.fieldType f.type.kind)

end

def copyContainer (site : Site) (shape : Shape) (fields : List Field) (object : String) :
    Emission (List Stmt) := do
  let (bindings, body) ← withFields object fields (copyFields site (requestHead? shape fields) fields)
  return bindings ++ body

end CodecGen.Emit
