import CodecGen.Proofs.Containment
import CodecGen.Proofs.EmittedCode
set_option autoImplicit false
/-!
Nodes at fault. A module is a tree of declarations, replies, fields and branches; a path names the nodes
on the way to one of them. What is in scope at a node is known from the way alone, and the node offends
against the rule that a fault is about.
-/
namespace CodecGen.Emit
open Schema

inductive Owner where
  | message (shape : Shape)
  | union
  | branch

inductive Node where
  | decl (d : Decl)
  | reply (r : Reply)
  | field (owner : Owner) (f : Field)
  | branch (b : Field)

/-- The step that one component of a path stands for. -/
inductive Step : Node → String → Node → Prop where
  | reply {d : Decl} {r : Request} {reply : Reply} (hd : d.request? = some r)
      (hreply : r.reply = some reply) : Step (.decl d) "reply" (.reply reply)
  | declared {d : Decl} {shape : Shape} {name : Name} {fields : List Field} {f : Field}
      (hd : d.type = .container shape name fields) (hf : f ∈ fields) :
    Step (.decl d) f.name (.field (.message shape) f)
  | united {d : Decl} {name : Name} {fields : List Field} {f : Field} (hd : d.type = .union name fields)
      (hf : f ∈ fields) : Step (.decl d) f.name (.field .union f)
  | replied {reply : Reply} {f : Field} (hf : f ∈ reply.fields) :
    Step (.reply reply) f.name (.field (.message .reply) f)
  | contained {owner : Owner} {g f : Field} {shape : Shape} {name : Name} {fields : List Field}
      (hg : g.type = .container shape name fields) (hf : f ∈ fields) :
    Step (.field owner g) f.name (.field (.message shape) f)
  | listed {owner : Owner} {g f : Field} {shape : Shape} {name : Name} {fields : List Field}
      {count : Int} {length : Option Expr}
      (hg : g.type = .list (.container shape name fields) count length) (hf : f ∈ fields) :
    Step (.field owner g) f.name (.field (.message shape) f)
  | branched {owner : Owner} {g b : Field} {name : Name} {selector : Expr} {cases : List Field}
      (hg : g.type = .switch name selector cases) (hb : b ∈ cases) :
    Step (.field owner g) b.name (.branch b)
  | selected {b f : Field} {name : Name} {byValue byMask : Bool} {selectors : List Expr}
      {fields : List Field} (hb : b.type = .case name byValue byMask selectors fields) (hf : f ∈ fields) :
    Step (.branch b) f.name (.field .branch f)

structure Setting where
  dir : Direction
  scope : Scope

def innerMembers : Ty → List Field
  | .container _ _ fields => fields
  | .list member _ _ => elementMembers member
  | .switch _ _ cases => branchMembers cases
  | .case _ _ _ _ fields => fields
  | _ => []

/-- The setting inside a node. Requests and replies start with nothing else in scope. -/
def Node.inside (w : Setting) : Node → Setting
  | .decl d => ⟨w.dir, boundBy (innerMembers d.type)⟩
  | .reply r => ⟨.decode, boundBy r.fields⟩
  | .field _ f => ⟨w.dir, boundBy (innerMembers f.type) ++ w.scope⟩
  | .branch b => ⟨w.dir, branchScope b.name (innerMembers b.type) w.scope⟩

/-- A path leads from a node to another, with the settings in which they are found. -/
inductive Walk : Setting → Node → List String → Setting → Node → Prop where
  | here {w : Setting} {node : Node} : Walk w node [] w node
  | step {w w' : Setting} {node next final : Node} {name : String} {rest : List String}
      (hstep : Step node name next) (hrest : Walk (node.inside w) next rest w' final) :
    Walk w node (name :: rest) w' final

/-- What is wrong with an expression where these fields are in scope. The elements of a list are in scope
for the summand of a sum. -/
inductive ExprFault : Scope → Expr → Cause → Prop where
  | missing {s : Scope} : ExprFault s .absent .missingExpr
  | length {s : Scope} {name : String} (h : s.resolve? name = none) :
    ExprFault s (.fieldLen name) (.unboundLength name)
  | list {s : Scope} {name : String} {summand : Expr} (h : s.resolve? name = none) :
    ExprFault s (.sumOf name summand) (.unboundList name)
  | notList {s : Scope} {name : String} {summand : Expr} {f : Field} (h : s.resolve? name = some f)
      (hf : ∀ member count length, f.type ≠ .list member count length) :
    ExprFault s (.sumOf name summand) (.sumOfNotList name)
  | endless {s : Scope} {name : String} {summand : Expr} {f : Field} {kind : Kind} {message : Name}
      {count : Int} {length : Option Expr} (h : s.resolve? name = some f)
      (hf : f.type = .list (.mention kind message) count length) (hkind : kind.isMessage = true) :
    ExprFault s (.sumOf name summand) (.selfContained message)
  | summand {s : Scope} {name : String} {summand : Expr} {f : Field} {member : Ty} {count : Int}
      {length : Option Expr} {cause : Cause} (h : s.resolve? name = some f)
      (hf : f.type = .list member count length) (hsummand : summand ≠ .absent)
      (hfault : ExprFault (boundBy (elementMembers member) ++ s) summand cause) :
    ExprFault s (.sumOf name summand) cause
  | lhs {s : Scope} {op : String} {lhs rhs : Expr} {cause : Cause} (h : ExprFault s lhs cause) :
    ExprFault s (.binary op lhs rhs) cause
  | rhs {s : Scope} {op : String} {lhs rhs : Expr} {cause : Cause} (h : ExprFault s rhs cause) :
    ExprFault s (.binary op lhs rhs) cause
  | complement {s : Scope} {operand : Expr} {cause : Cause} (h : ExprFault s operand cause) :
    ExprFault s (.complement operand) cause
  | popCount {s : Scope} {operand : Expr} {cause : Cause} (h : ExprFault s operand cause) :
    ExprFault s (.popCount operand) cause

def isElementType : Ty → Bool
  | .simple _ | .union .. | .container .. => true
  | .mention kind _ => [.union, .struct, .request, .event, .error].contains kind
  | _ => false

def isMemberType : Ty → Bool
  | .list .. | .switch .. | .pad .. => true
  | type => isElementType type

def isDeclType : Ty → Bool
  | .simple _ | .enum .. | .union .. | .container .. => true
  | _ => false

inductive HiddenFault : Direction → Owner → Field → HeaderFieldFault → Prop where
  | notDecoded {owner : Owner} {f : Field} (hname : safeName f.name ∈ ["major_opcode", "minor_opcode"]) :
    HiddenFault .decode owner f .notDecoded
  | notInRequest {owner : Owner} {f : Field} (hname : safeName f.name ∈ ["major_opcode", "minor_opcode"])
      (howner : ∀ opcode, owner ≠ .message (.request opcode)) : HiddenFault .encode owner f .notInRequest
  | notEncoded {owner : Owner} {f : Field}
      (hname : safeName f.name ∈ ["response_type", "sequence", "extension"]) :
    HiddenFault .encode owner f .notEncoded
  | withoutValue {dir : Direction} {owner : Owner} {f : Field} (hname : safeName f.name ∉ headerNames)
      (htype : ∀ base e, f.type ≠ .exprField base e) : HiddenFault dir owner f .withoutValue

/-- The node offends against the rule that a fault of this cause is about. -/
inductive Offends : Setting → Node → Cause → Prop where
  | listSize {w : Setting} {owner : Owner} {f : Field} {member : Ty} {count : Int} {length : Option Expr}
      (hf : f.type = .list member count length)
      (hsize : count = 1 ∨ count < 0 ∨ count = 0 ∧ length = none) :
    Offends w (.field owner f) (.listLength count)
  | unionListSize {w : Setting} {f : Field} {member : Ty} {count : Int} {length : Option Expr}
      (hf : f.type = .list member count length) (hsize : count < 2) :
    Offends w (.field .union f) (.listLength count)
  | padAlign {w : Setting} {owner : Owner} {f : Field} {bytes align : Int} (hf : f.type = .pad bytes align)
      (haligns : 1 < align) (halign : bytes ≠ 1 ∨ align ≠ 2 ∧ align ≠ 4) :
    Offends w (.field owner f) (.padAlign bytes align)
  | caseKind {w : Setting} {b : Field} {name : Name} {byValue byMask : Bool} {selectors : List Expr}
      {fields : List Field} (hb : b.type = .case name byValue byMask selectors fields)
      (hkind : byValue = byMask) : Offends w (.branch b) .caseKind
  | emptyCase {w : Setting} {b : Field} {name : Name} {byValue byMask : Bool} {fields : List Field}
      (hb : b.type = .case name byValue byMask [] fields) : Offends w (.branch b) .emptyCase
  | length {w : Setting} {owner : Owner} {f : Field} {member : Ty} {count : Int} {e : Expr} {cause : Cause}
      (hf : f.type = .list member count (some e)) (he : ExprFault w.scope e cause) :
    Offends w (.field owner f) cause
  | value {w : Setting} {owner : Owner} {f : Field} {base : Ty} {e : Expr} {cause : Cause}
      (hf : f.type = .exprField base e) (he : ExprFault w.scope e cause) : Offends w (.field owner f) cause
  | selector {w : Setting} {owner : Owner} {f : Field} {name : Name} {e : Expr} {cases : List Field}
      {cause : Cause} (hf : f.type = .switch name e cases)
      (he : ExprFault (boundBy (branchMembers cases) ++ w.scope) e cause) :
    Offends w (.field owner f) cause
  | branchSelector {w : Setting} {b : Field} {name : Name} {byValue byMask : Bool} {selectors : List Expr}
      {fields : List Field} {e : Expr} {cause : Cause}
      (hb : b.type = .case name byValue byMask selectors fields) (hmem : e ∈ selectors)
      (he : ExprFault w.scope e cause) : Offends w (.branch b) cause
  | hidden {w : Setting} {owner : Owner} {f : Field} {fault : HeaderFieldFault}
      (hvisible : f.visible = false) (hfault : HiddenFault w.dir owner f fault) :
    Offends w (.field owner f) (.headerField (safeName f.name) fault)
  | fieldType {w : Setting} {owner : Owner} {f : Field} (hf : isMemberType f.type = false) :
    Offends w (.field owner f) (.fieldType f.type.kind)
  | elementType {w : Setting} {owner : Owner} {f : Field} {member : Ty} {count : Int}
      {length : Option Expr} (hf : f.type = .list member count length)
      (hmember : isElementType member = false) : Offends w (.field owner f) (.fieldType member.kind)
  | branchType {w : Setting} {b : Field}
      (hb : ∀ name byValue byMask selectors fields, b.type ≠ .case name byValue byMask selectors fields) :
    Offends w (.branch b) (.fieldType b.type.kind)
  | offWire {w : Setting} {f : Field} (hwire : f.wire = false) :
    Offends w (.field .branch f) (.fieldType f.type.kind)
  | declType {w : Setting} {d : Decl} (hd : isDeclType d.type = false) :
    Offends w (.decl d) (.declType d.type.kind)
  | selfContained {w : Setting} {owner : Owner} {f : Field} {kind : Kind} {message : Name}
      (hf : f.type = .mention kind message) (hkind : kind.isMessage = true) :
    Offends w (.field owner f) (.selfContained message)
  | elementSelfContained {w : Setting} {owner : Owner} {f : Field} {kind : Kind} {message : Name}
      {count : Int} {length : Option Expr} (hf : f.type = .list (.mention kind message) count length)
      (hkind : kind.isMessage = true) : Offends w (.field owner f) (.selfContained message)

theorem Offends.of_type {w : Setting} {owner : Owner} {f : Field} {type : Ty} (hf : f.type = type)
    (htype : isMemberType type = false) : Offends w (.field owner f) (.fieldType type.kind) := by
  subst hf
  exact .fieldType htype

/-- The fault is found below a node that has this path: the rest of its path leads from there to a node
that offends. -/
def FaultFrom (path : List String) (w : Setting) (node : Node) (fault : Fault) : Prop :=
  ∃ rest w' final, fault.path = path ++ rest ∧ Walk w node rest w' final ∧ Offends w' final fault.cause

def FaultAmong (path : List String) (w : Setting) (owner : Owner) (fields : List Field) (fault : Fault) :
    Prop :=
  ∃ f ∈ fields, FaultFrom (path ++ [f.name]) w (.field owner f) fault

def FaultAmongBranches (path : List String) (w : Setting) (branches : List Field) (fault : Fault) : Prop :=
  ∃ b ∈ branches, FaultFrom (path ++ [b.name]) w (.branch b) fault

section
variable {path : List String} {w : Setting} {node next : Node} {fault : Fault}

theorem FaultFrom.here {cause : Cause} (h : Offends w node cause) :
    FaultFrom path w node ⟨cause, path⟩ :=
  ⟨[], w, node, (List.append_nil path).symm, .here, h⟩

theorem FaultFrom.step {name : String} (hstep : Step node name next)
    (h : FaultFrom (path ++ [name]) (node.inside w) next fault) : FaultFrom path w node fault := by
  obtain ⟨rest, w', final, hpath, hwalk, hoffends⟩ := h
  refine ⟨name :: rest, w', final, ?_, .step hstep hwalk, hoffends⟩
  rw [hpath, List.append_assoc]
  rfl

theorem FaultAmong.head {owner : Owner} {f : Field} (rest : List Field)
    (h : FaultFrom (path ++ [f.name]) w (.field owner f) fault) : FaultAmong path w owner (f :: rest) fault :=
  ⟨f, List.mem_cons_self, h⟩

theorem FaultAmong.tail {owner : Owner} (f : Field) {rest : List Field}
    (h : FaultAmong path w owner rest fault) : FaultAmong path w owner (f :: rest) fault := by
  obtain ⟨g, hg, hfault⟩ := h
  exact ⟨g, List.mem_cons_of_mem f hg, hfault⟩

theorem FaultAmongBranches.head {b : Field} (rest : List Field)
    (h : FaultFrom (path ++ [b.name]) w (.branch b) fault) : FaultAmongBranches path w (b :: rest) fault :=
  ⟨b, List.mem_cons_self, h⟩

theorem FaultAmongBranches.tail (b : Field) {rest : List Field}
    (h : FaultAmongBranches path w rest fault) : FaultAmongBranches path w (b :: rest) fault := by
  obtain ⟨c, hc, hfault⟩ := h
  exact ⟨c, List.mem_cons_of_mem b hc, hfault⟩

end

theorem inside_field {owner : Owner} {f : Field} {type : Ty} (hf : f.type = type) (w : Setting) :
    (Node.field owner f).inside w = ⟨w.dir, boundBy (innerMembers type) ++ w.scope⟩ := by
  rw [Node.inside, hf]

end CodecGen.Emit
