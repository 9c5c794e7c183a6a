import CodecGen.Schema.Module
set_option autoImplicit false
/-!
Spelling out the types of a module. The declarations of a module mention one another by name; here
every mention is replaced by the type it stands for, and the mentions in that type in turn. A
message that contains itself can be spelled out to any depth but never to the end.
-/
namespace CodecGen.Resolve
open Schema

mutual

/-- Replaces the mentions in a type that stand outside the messages spelled out in it. -/
def replaceMentions (f : Kind → Name → Ty) : Ty → Ty
  | .mention kind name => f kind name
  | .list member count length => .list (replaceMentions f member) count length
  | .exprField base value => .exprField (replaceMentions f base) value
  | .switch name selector cases => .switch name selector (replaceInFields f cases)
  | .case name byValue byMask selectors fields =>
    .case name byValue byMask selectors (replaceInFields f fields)
  | type => type

def replaceInFields (f : Kind → Name → Ty) : List Field → List Field
  | [] => []
  | ⟨name, type, wire, visible⟩ :: rest =>
    ⟨name, replaceMentions f type, wire, visible⟩ :: replaceInFields f rest

end

mutual

def mentionedBy : Ty → List Name
  | .mention _ name => [name]
  | .list member _ _ => mentionedBy member
  | .exprField base _ => mentionedBy base
  | .switch _ _ cases => mentionedIn cases
  | .case _ _ _ _ fields => mentionedIn fields
  | _ => []

def mentionedIn : List Field → List Name
  | [] => []
  | ⟨_, type, _, _⟩ :: rest => mentionedBy type ++ mentionedIn rest

end

def ownFields : Ty → List Field
  | .union _ fields | .container _ _ fields => fields
  | _ => []

def mapFields (f : List Field → List Field) : Ty → Ty
  | .union name fields => .union name (f fields)
  | .container shape name fields => .container shape name (f fields)
  | type => type

def declFields (d : Decl) : List Field :=
  ownFields d.type ++ ((d.reply.map (·.fields)).getD [])

def typeIn (decls : List Decl) (kind : Kind) (name : Name) : Ty :=
  match decls.find? (·.name == name) with
  | some d => d.type
  | none => .mention kind name

def spell (below : List Decl) (d : Decl) : Decl where
  name := d.name
  type := mapFields (replaceInFields (typeIn below)) d.type
  reply := d.reply.map fun r => ⟨r.name, replaceInFields (typeIn below) r.fields⟩

def spellOut (drafts : List Decl) : (depth : Nat) → List Decl
  | 0 => drafts
  | depth + 1 => drafts.map (spell (spellOut drafts depth))

/-- The declarations that still mention names one step deeper, given those that do so far. -/
def stillOpen (drafts : List Decl) (openNames : List Name) : List Name :=
  (drafts.filter fun d => (mentionedIn (declFields d)).any openNames.contains).map (·.name)

def depthWithin (drafts : List Decl) : (bound : Nat) → (openNames : List Name) → Nat
  | 0, _ => 0
  | bound + 1, openNames =>
    if openNames.isEmpty then 0 else depthWithin drafts bound (stillOpen drafts openNames) + 1

/-- The declarations with all types spelled out. Where a message contains itself there is no end to
that; it is then spelled out `unrolling` messages deeper than there are declarations. -/
def spelled (unrolling : Nat) (drafts : List Decl) : List Decl :=
  spellOut drafts (depthWithin drafts (drafts.length + unrolling + 2)
    (stillOpen drafts (drafts.map (·.name))))

end CodecGen.Resolve
