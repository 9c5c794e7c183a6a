import CodecGen.Proofs.Header
import CodecGen.Proofs.Origin
set_option autoImplicit false
/-!
The names of types in the text of a header. The types of members are found among its words, and a name
is looked up in the classes around it.
-/
namespace CodecGen.Emit
open Schema Resolve

mutual

def writtenIn : List Field → List Ty
  | [] => []
  | ⟨_, type, wire, visible⟩ :: rest => (if wire && visible then writtenBy type else []) ++ writtenIn rest

def writtenBy : Ty → List Ty
  | .switch _ _ cases => writtenBranches cases
  | type => [type]

def writtenBranches : List Field → List Ty
  | [] => []
  | ⟨_, .case _ _ _ _ fields, _, _⟩ :: rest => writtenIn fields ++ writtenBranches rest
  | _ :: rest => writtenBranches rest

end

def writtenTypes (d : Decl) : List Ty :=
  match d.type with
  | .union _ fields => fields.map (·.type)
  | .container (.request _) _ fields =>
    writtenIn fields ++ writtenIn ((d.reply.map (·.fields)).getD [])
  | .container _ _ fields => writtenIn fields
  | _ => []

def DeclLine.memberText? : DeclLine → Option String
  | .member type _ | .unionMember type _ => some type
  | _ => none

def memberTexts (lines : List DeclLine) : List String := lines.filterMap DeclLine.memberText?

theorem memberTexts_append (lines more : List DeclLine) :
    memberTexts (lines ++ more) = memberTexts lines ++ memberTexts more :=
  List.filterMap_append

mutual

theorem memberTexts_fieldLines (ns : List String) (fields : List Field) :
    memberTexts (fieldLines ns fields) = (writtenIn fields).map (memberType ns) := by
  match fields with
  | [] => rfl
  | ⟨name, type, wire, visible⟩ :: rest =>
    rw [fieldLines, writtenIn, memberTexts_append, List.map_append, memberTexts_fieldLines ns rest]
    congr 1
    split
    · exact memberTexts_memberLines ns (safeName name) type
    · rfl

theorem memberTexts_memberLines (ns : List String) (name : String) (type : Ty) :
    memberTexts (memberLines ns name type) = (writtenBy type).map (memberType ns) := by
  cases type with
  | switch n selector cases =>
    rw [memberLines, memberTexts_append, memberTexts_append, memberTexts_branchLines ns cases]
    exact List.append_nil _
  | _ => rfl

theorem memberTexts_branchLines (ns : List String) (cases : List Field) :
    memberTexts (branchLines ns cases) = (writtenBranches cases).map (memberType ns) := by
  match cases with
  | [] => rfl
  | ⟨name, type, wire, visible⟩ :: rest =>
    cases type with
    | case n byValue byMask selectors fields =>
      rw [branchLines, writtenBranches, memberTexts_append, List.map_append,
        memberTexts_branchLines ns rest]
      congr 1
      split
      · exact memberTexts_fieldLines ns fields
      · rw [memberTexts_append, memberTexts_append, memberTexts_fieldLines ns fields]
        exact List.append_nil _
    | _ => exact memberTexts_branchLines ns rest

end

theorem memberTexts_structLines (ns : List String) (name : String) (fields : List Field) :
    memberTexts (structLines ns name fields) = (writtenIn fields).map (memberType ns) := by
  rw [structLines, memberTexts_append, memberTexts_append, memberTexts_fieldLines]
  exact List.append_nil _

theorem unionType_eq {type : Ty} (h : countFits type = true) (ns : List String) :
    unionType ns type = memberType ns type := by
  cases type with
  | list member count length =>
    have hcount : 0 < count := by
      have : ¬ count < 2 := by simpa [countFits] using h
      omega
    simp [unionType, memberType, listType, hcount]
  | _ => rfl

theorem memberTexts_unionLines (ns : List String) {fields : List Field}
    (h : ∀ f ∈ fields, countFits f.type = true) :
    memberTexts (fields.map (unionLine ns)) = (fields.map (·.type)).map (memberType ns) := by
  induction fields with
  | nil => rfl
  | cons f rest ih =>
    rw [List.forall_mem_cons] at h
    rw [List.map_cons, List.map_cons, List.map_cons, ← ih h.2, ← unionType_eq h.1]
    rfl

theorem memberTexts_declareEnum (name : Name) (values bits : List EnumItem) :
    memberTexts (declareEnum name values bits) = [] := by
  have hitems := filterMap_enumItems DeclLine.memberText? (fun _ => rfl) fun _ _ => rfl
  simp only [declareEnum, memberTexts, List.filterMap_append, hitems]
  rfl

theorem memberTexts_declLines {d : Decl} (h : declDeclarable d = true) (ns : List String) :
    memberTexts (declLines ns d) = (writtenTypes d).map (memberType ns) := by
  obtain ⟨name, type, reply⟩ := d
  cases type with
  | union n fields =>
    rw [declLines, memberTexts_append, memberTexts_append,
      memberTexts_unionLines ns (List.all_eq_true.mp h)]
    exact List.append_nil _
  | enum n values bits => exact memberTexts_declareEnum n values bits
  | container shape n fields =>
    cases shape with
    | request opcode =>
      rw [declLines, memberTexts_append, memberTexts_append, memberTexts_structLines]
      cases reply with
      | none => simp [replyLines, writtenTypes, memberTexts, methodLines, DeclLine.memberText?, writtenIn]
      | some r =>
        rw [replyLines, memberTexts_structLines]
        simp [writtenTypes, memberTexts, methodLines, DeclLine.memberText?]
    | _ => exact memberTexts_structLines ns _ fields
  | _ => rfl

/-- The type whose name is written: lists and computed fields go by the type they are made of. -/
def namedType : Ty → Ty
  | .list member _ _ => member
  | .exprField base _ => base
  | type => type

def writtenName (ns : List String) (type : Ty) : String :=
  match type with
  | .list _ count _ =>
    if ¬ 0 < count ∧ qualify type ns = "void" then "uint8_t" else qualify type ns
  | _ => qualify type ns

def textAround (name : String) : Ty → String
  | .list _ count _ =>
    if 0 < count then arrayType name count
    else if name = "char" then "std::string"
    else "std::vector<" ++ name ++ ">"
  | _ => name

theorem memberType_eq (ns : List String) (type : Ty) :
    memberType ns type = textAround (writtenName ns type) type := by
  cases type with
  | list member count length =>
    unfold memberType writtenName textAround listType
    by_cases hcount : 0 < count
    · simp [hcount]
    · by_cases hvoid : qualify (.list member count length) ns = "void"
      · simp [hcount, hvoid]
      · simp [hcount, hvoid]
  | _ => rfl

def IsScalar (name : String) : Prop := ∃ scalar, scalar? scalar = some name

/-- What can be named in the header of a module: the classes of the modules in reach, and the types that
their headers introduce in them. -/
inductive InSight (m : Module) : List String → Prop where
  | outer : InSight m ["x11"]
  | classOf {n : Module} (hn : Reaches m n) : InSight m (headerScope n)
  | typeOf {n : Module} {name : String} (hn : Reaches m n) (hname : name ∈ introducedNames (headerBody n)) :
      InSight m (headerScope n ++ [name])

/-- A path is looked up from inside a scope: the innermost scope around that has its first segment
decides. -/
def FoundAt (m : Module) (scope relative path : List String) : Prop :=
  ∃ around, around <+: scope ∧ path = around ++ relative ∧ InSight m path ∧
    InSight m (around ++ relative.take 1) ∧
    ∀ inner, inner <+: scope → around.length < inner.length → ¬ InSight m (inner ++ relative.take 1)

def DeclaredAt (m : Module) (t : Ty) (path : List String) : Prop :=
  ∃ n d, Reaches m n ∧ d ∈ n.decls ∧ DeclaresOwn d ∧ Cut t d.type ∧ path = headerScope n ++ [ownName d]

def WellNamed (m : Module) (t : Ty) : Prop :=
  IsScalar (writtenName (headerScope m) t) ∨
    ∃ path, FoundAt m (headerScope m) (chop (qualifiedPath t) (headerScope m)) path ∧
      DeclaredAt m (namedType t) path

/-- A list or a computed field of a type that is declared under a suffix, which is not written. -/
def LacksSuffix : Ty → Prop
  | .list member _ _ => typeSuffix member ≠ ""
  | .exprField base _ => typeSuffix base ≠ ""
  | _ => False

/-- The class of the module introduces a type that is called like the class to be named. -/
def Captured (m : Module) (t : Ty) : Prop :=
  ∃ n name, Reaches m n ∧ qualifiedPath t = headerScope n ++ [name] ∧ n.className ≠ m.className ∧
    InSight m (headerScope m ++ [n.className])

def Misnamed (m : Module) (t : Ty) : Prop :=
  LacksSuffix t ∨ t.kind = .switch ∨ Captured m t

end CodecGen.Emit
