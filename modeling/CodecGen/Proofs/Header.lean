import CodecGen.Proofs.Declarations
set_option autoImplicit false
/-!
The lines of a header. Declaring members fails for some layouts, and otherwise writes lines that depend
on nothing but the layout and the namespace. A declaration opens types under certain names; everything
else that it writes stands inside these types or introduces no type.
-/
namespace CodecGen.Emit
open Schema

section
variable {α β : Type}

/-- The result is `a` where `p` holds, and a fault where it does not. -/
def Yields (p : Bool) (a : α) (x : Except Fault α) : Prop :=
  x.toOption = if p then some a else none

theorem Yields.ok (a : α) : Yields true a (.ok a) := rfl

theorem Yields.error (a : α) (fault : Fault) : Yields false a (.error fault) := rfl

theorem Yields.bind {p q : Bool} {a : α} {b : β} {x : Except Fault α} {f : α → Except Fault β}
    (hx : Yields p a x) (hf : Yields q b (f a)) : Yields (p && q) b (x >>= f) := by
  cases x with
  | ok c =>
    cases p with
    | true =>
      obtain rfl : c = a := Option.some.inj hx
      exact hf
    | false => cases hx
  | error fault =>
    cases p with
    | true => cases hx
    | false => rfl

theorem Yields.map {p : Bool} {a : α} {b : β} {x : Except Fault α} {f : α → Except Fault β}
    (hx : Yields p a x) (hf : f a = .ok b) : Yields p b (x >>= f) := by
  have h := hx.bind (hf ▸ Yields.ok b)
  rwa [Bool.and_true] at h

theorem Yields.eq_ok {p : Bool} {a b : α} {x : Except Fault α} (h : Yields p a x) (hx : x = .ok b) :
    p = true ∧ b = a := by
  subst hx
  cases p with
  | true => exact ⟨rfl, Option.some.inj h⟩
  | false => cases h

theorem Yields.ok_of {a : α} {x : Except Fault α} (h : Yields true a x) : x = .ok a := by
  cases x with
  | ok b => rw [(h.eq_ok rfl).2]
  | error fault => cases h

end

def memberType (ns : List String) (type : Ty) : String :=
  match type with
  | .list _ count _ => listType (qualify type ns) count
  | _ => qualify type ns

mutual

def fieldLines (ns : List String) : List Field → List DeclLine
  | [] => []
  | ⟨name, type, wire, visible⟩ :: rest =>
    (if wire && visible then memberLines ns (safeName name) type else []) ++ fieldLines ns rest

def memberLines (ns : List String) (name : String) : Ty → List DeclLine
  | .switch _ _ cases => [DeclLine.openAnonymous] ++ branchLines ns cases ++ [DeclLine.closeMember name]
  | type => [.member (memberType ns type) name]

def branchLines (ns : List String) : List Field → List DeclLine
  | [] => []
  | ⟨name, .case _ _ _ _ fields, _, _⟩ :: rest =>
    (if name == "" then fieldLines ns fields
      else [DeclLine.openAnonymous] ++ fieldLines ns fields ++ [DeclLine.closeMember (safeName name)]) ++
    branchLines ns rest
  | _ :: rest => branchLines ns rest

end

def sized (count : Int) (length : Option Expr) : Bool :=
  !(count == 1 || count < 0 || (count == 0 && length.isNone))

mutual

def declarableIn : List Field → Bool
  | [] => true
  | ⟨_, type, wire, visible⟩ :: rest => (!(wire && visible) || declarable type) && declarableIn rest

def declarable : Ty → Bool
  | .list _ count length => sized count length
  | .switch _ _ cases => declarableBranches cases
  | .case .. => false
  | _ => true

def declarableBranches : List Field → Bool
  | [] => true
  | ⟨_, .case _ byValue byMask _ fields, _, _⟩ :: rest =>
    ((byValue != byMask) && declarableIn fields) && declarableBranches rest
  | _ :: _ => false

end

theorem checkList_yields (site : Site) (count : Int) (length : Option Expr) :
    Yields (sized count length) () (checkList site count length) := by
  unfold checkList sized
  split
  · next h =>
    rw [h]
    exact .error ..
  · next h =>
    rw [Bool.not_eq_true] at h
    rw [h]
    exact .ok ()

theorem checkCase_yields (site : Site) (byValue byMask : Bool) :
    Yields (byValue != byMask) () (checkCase site byValue byMask) := by
  cases byValue <;> cases byMask <;> rfl

mutual

theorem declareFields_yields (site : Site) (fields : List Field) :
    Yields (declarableIn fields) (fieldLines site.ns fields) (declareFields site fields) := by
  match fields with
  | [] => exact .ok []
  | ⟨name, type, wire, visible⟩ :: rest =>
    rw [declareFields_cons]
    refine .bind (a := if wire && visible then memberLines site.ns (safeName name) type else []) ?_
      (.map (declareFields_yields site rest) rfl)
    rw [declareField_mk]
    by_cases hb : (wire && visible) = true
    · simp only [hb, ↓reduceIte, Bool.not_true, Bool.false_or]
      exact declareMember_yields (site.at name) (safeName name) type
    · simp only [hb, Bool.false_eq_true, ↓reduceIte, Bool.not_false, Bool.true_or]
      exact .ok []

theorem declareMember_yields (site : Site) (name : String) (type : Ty) :
    Yields (declarable type) (memberLines site.ns name type) (declareMember site name type) := by
  cases type with
  | switch n selector cases =>
    rw [declareMember_switch]
    exact .map (declareBranches_yields site cases) rfl
  | list member count length =>
    rw [declareMember_list]
    exact .map (checkList_yields site count length) rfl
  | case n byValue byMask selectors fields => exact .error ..
  | _ => exact .ok _

theorem declareBranches_yields (site : Site) (cases : List Field) :
    Yields (declarableBranches cases) (branchLines site.ns cases) (declareBranches site cases) := by
  match cases with
  | [] => exact .ok []
  | ⟨name, type, wire, visible⟩ :: rest =>
    rw [declareBranches_cons]
    cases type with
    | case n byValue byMask selectors fields =>
      rw [declareBranch_case]
      refine .bind (.bind (checkCase_yields (site.at name) byValue byMask)
        (.map (declareFields_yields (site.at name) fields) rfl)) ?_
      exact .map (declareBranches_yields site rest) rfl
    | _ => rfl

end

def structLines (ns : List String) (name : String) (fields : List Field) : List DeclLine :=
  undefLines name ++ [DeclLine.openStruct name] ++ fieldLines ns fields ++ [DeclLine.closeType, .blank]

theorem declareContainer_yields (site : Site) (name : Name) (kind : Kind) (fields : List Field) :
    Yields (declarableIn fields) (structLines site.ns (name.last ++ suffix kind) fields)
      (declareContainer site name kind fields) := by
  rw [declareContainer_eq]
  exact .map (declareFields_yields site fields) rfl

def unionType (ns : List String) (type : Ty) : String :=
  match type with
  | .list _ count _ => arrayType (qualify type ns) count
  | _ => qualify type ns

def countFits : Ty → Bool
  | .list _ count _ => !decide (count < 2)
  | _ => true

def unionLine (ns : List String) (f : Field) : DeclLine :=
  .unionMember (unionType ns f.type) (safeName f.name)

theorem unionMemberType_yields (site : Site) (f : Field) :
    Yields (countFits f.type) (unionType site.ns f.type) (unionMemberType site f) := by
  obtain ⟨name, type, wire, visible⟩ := f
  cases type with
  | list member count length =>
    by_cases h : count < 2 <;> simp [Yields, countFits, unionMemberType, unionType, Except.toOption, h]
  | _ => exact .ok _

theorem unionMembers_yields (site : Site) (fields : List Field) :
    Yields (fields.all fun f => countFits f.type) (fields.map (unionLine site.ns))
      (unionMembers site fields) := by
  induction fields with
  | nil => exact .ok []
  | cons f rest ih =>
    rw [unionMembers_cons]
    exact .bind (unionMemberType_yields site f) (.map ih rfl)

def replyLines (ns : List String) : Option Reply → List DeclLine
  | some r => structLines ns (r.name.last ++ "Reply") r.fields
  | none => []

def replyDeclarable : Option Reply → Bool
  | some r => declarableIn r.fields
  | none => true

theorem declareReply_yields (site : Site) (reply : Option Reply) :
    Yields (replyDeclarable reply) (replyLines site.ns reply) (declareReply site reply) := by
  cases reply with
  | none => exact .ok []
  | some r => exact declareContainer_yields (site.at "reply") r.name .reply r.fields

def methodLines (method : String) (reply : Option Reply) : List DeclLine :=
  let replyName := if reply.isSome then method ++ "Reply" else "void"
  [.response method replyName, .blank, .methodResult replyName method,
    .methodArgument (method ++ "Request"), .blank]

def declLines (ns : List String) (d : Decl) : List DeclLine :=
  match d.type with
  | .union name fields =>
    [DeclLine.openUnion name.last, .unionConstructor name.last, .blank] ++ fields.map (unionLine ns) ++
      [DeclLine.closeType, .triviallyCopyable name.last, .blank]
  | .container (.request _) name fields =>
    structLines ns (name.last ++ "Request") fields ++ replyLines ns d.reply ++
      methodLines name.last d.reply
  | .container shape _ fields => structLines ns (d.name.last ++ suffix shape.kind) fields
  | .enum name values bits => declareEnum name values bits
  | .simple name => [.typeAlias d.name.last (qualify (.simple name) ns), .blank]
  | _ => []

def declDeclarable (d : Decl) : Bool :=
  match d.type with
  | .union _ fields => fields.all fun f => countFits f.type
  | .container (.request _) _ fields => declarableIn fields && replyDeclarable d.reply
  | .container _ _ fields => declarableIn fields
  | .enum .. | .simple _ => true
  | _ => false

theorem declareType_yields (site : Site) (d : Decl) :
    Yields (declDeclarable d) (declLines site.ns d) (declareType site d) := by
  obtain ⟨name, type, reply⟩ := d
  cases type with
  | union n fields =>
    change Yields _ _ (alone (emitUnion site n fields))
    rw [alone_emitUnion]
    exact .map (unionMembers_yields site fields) rfl
  | enum n values bits => exact .ok _
  | simple n => exact .ok _
  | container shape n fields =>
    cases shape with
    | request opcode =>
      change Yields _ _ (alone (emitRequest site ⟨n, opcode, fields, reply⟩))
      rw [alone_emitRequest]
      exact .bind (declareContainer_yields site n .request fields)
        (.map (declareReply_yields site reply) rfl)
    | _ => exact declareContainer_yields site name _ fields
  | _ => exact .error ..

theorem declareAll_yields (className : String) (decls : List Decl) :
    Yields (decls.all declDeclarable) (decls.flatMap (declLines ["x11", className]))
      (declareAll className decls).2 := by
  induction decls with
  | nil => exact .ok []
  | cons d rest ih =>
    rw [declareAll_cons]
    exact .bind (declareType_yields _ d) (.map ih rfl)

abbrev headerScope (m : Module) : List String := ["x11", m.className]

def headerBody (m : Module) : List DeclLine := m.decls.flatMap (declLines (headerScope m))

/-- A header that was generated holds the lines of every declaration. -/
theorem header_of_generate {m : Module} {headerPath : String} {artifacts : Artifacts}
    (h : generate m headerPath = .ok artifacts) :
    (declareAll m.className m.decls).2 = .ok (headerBody m) ∧
      artifacts.header = render (headerLines m (defaultHeaderPath m headerPath) (headerBody m)) ∧
      ∀ d ∈ m.decls, declDeclarable d = true := by
  rw [generate_eq] at h
  obtain ⟨header, hheader, h⟩ := except_bind_ok h
  obtain ⟨source, -, h⟩ := except_bind_ok h
  obtain rfl := Except.ok.inj h
  have hyields := declareAll_yields m.className m.decls
  unfold generateHeader at hheader
  cases hbody : (declareAll m.className m.decls).2 with
  | error fault =>
    rw [hbody] at hheader
    cases hheader
  | ok body =>
    rw [hbody] at hheader
    obtain ⟨hall, rfl⟩ := hyields.eq_ok hbody
    exact ⟨rfl, (Except.ok.inj hheader).symm, List.all_eq_true.mp hall⟩

theorem infix_headerBody {m : Module} {d : Decl} (hd : d ∈ m.decls) :
    declLines (headerScope m) d <:+: headerBody m := by
  obtain ⟨before, after, hdecls⟩ := List.append_of_mem hd
  rw [headerBody, hdecls, List.flatMap_append, List.flatMap_cons, ← List.append_assoc]
  exact ⟨_, _, rfl⟩

def headerSite (m : Module) (d : Decl) : Site := ⟨.encode, headerScope m, [d.name.last]⟩

theorem declareType_of_generate {m : Module} {headerPath : String} {artifacts : Artifacts}
    (h : generate m headerPath = .ok artifacts) {d : Decl} (hd : d ∈ m.decls) :
    declareType (headerSite m d) d = .ok (declLines (headerScope m) d) := by
  have hyields := declareType_yields (headerSite m d) d
  rw [(header_of_generate h).2.2 d hd] at hyields
  exact hyields.ok_of

def DeclLine.introduced? : DeclLine → Option String
  | .openEnum name | .openStruct name | .openUnion name | .typeAlias name _ => some name
  | .response method _ => some (method ++ "Response")
  | _ => none

def introducedNames (lines : List DeclLine) : List String := lines.filterMap DeclLine.introduced?

theorem introducedNames_append (lines more : List DeclLine) :
    introducedNames (lines ++ more) = introducedNames lines ++ introducedNames more :=
  List.filterMap_append

mutual

theorem introducedNames_fieldLines (ns : List String) (fields : List Field) :
    introducedNames (fieldLines ns fields) = [] := by
  match fields with
  | [] => rfl
  | ⟨name, type, wire, visible⟩ :: rest =>
    rw [fieldLines, introducedNames_append, introducedNames_fieldLines ns rest, List.append_nil]
    split
    · exact introducedNames_memberLines ns (safeName name) type
    · rfl

theorem introducedNames_memberLines (ns : List String) (name : String) (type : Ty) :
    introducedNames (memberLines ns name type) = [] := by
  cases type with
  | switch n selector cases =>
    rw [memberLines, introducedNames_append, introducedNames_append,
      introducedNames_branchLines ns cases]
    rfl
  | _ => rfl

theorem introducedNames_branchLines (ns : List String) (cases : List Field) :
    introducedNames (branchLines ns cases) = [] := by
  match cases with
  | [] => rfl
  | ⟨name, type, wire, visible⟩ :: rest =>
    cases type with
    | case n byValue byMask selectors fields =>
      rw [branchLines, introducedNames_append, introducedNames_branchLines ns rest, List.append_nil]
      split
      · exact introducedNames_fieldLines ns fields
      · rw [introducedNames_append, introducedNames_append, introducedNames_fieldLines ns fields]
        rfl
    | _ => exact introducedNames_branchLines ns rest

end

/-- The names under which a declaration introduces types. Enumerations, unions and requests go by the
names of their types, whatever they are declared as. -/
def introducedBy (d : Decl) : List String :=
  match d.type with
  | .enum name .. | .union name _ => [name.last]
  | .container (.request _) name _ =>
    [name.last ++ "Request"] ++ (d.reply.map fun r => r.name.last ++ "Reply").toList ++
      [name.last ++ "Response"]
  | .container shape .. => [d.name.last ++ suffix shape.kind]
  | .simple _ => [d.name.last]
  | _ => []

def ownName (d : Decl) : String := d.name.last ++ typeSuffix d.type

theorem introducedNames_structLines (ns : List String) (name : String) (fields : List Field) :
    introducedNames (structLines ns name fields) = [name] := by
  rw [structLines, introducedNames_append, introducedNames_append, introducedNames_fieldLines]
  rfl

theorem filterMap_enumItems {α : Type} (read : DeclLine → Option α)
    (hundef : ∀ name, (undefLines name).filterMap read = [])
    (hitem : ∀ name value, read (.enumItem name value) = none) (items : List EnumItem)
    (value : EnumItem → String) :
    (items.flatMap fun i => undefLines (safeName i.name) ++
      [DeclLine.enumItem (safeName i.name) (value i)]).filterMap read = [] := by
  rw [List.filterMap_flatMap, List.flatMap_eq_nil_iff]
  intro i _
  rw [List.filterMap_append, hundef]
  simp [hitem]

theorem introducedNames_declareEnum (name : Name) (values bits : List EnumItem) :
    introducedNames (declareEnum name values bits) = [name.last] := by
  have hitems := filterMap_enumItems DeclLine.introduced? (fun _ => rfl) fun _ _ => rfl
  simp only [declareEnum, introducedNames, List.filterMap_append, hitems]
  rfl

theorem introducedNames_unionLines (ns : List String) (fields : List Field) :
    introducedNames (fields.map (unionLine ns)) = [] := by
  induction fields with
  | nil => rfl
  | cons f rest ih => exact ih

theorem introducedNames_declLines (ns : List String) (d : Decl) :
    introducedNames (declLines ns d) = introducedBy d := by
  obtain ⟨name, type, reply⟩ := d
  cases type with
  | union n fields =>
    rw [declLines, introducedNames_append, introducedNames_append, introducedNames_unionLines]
    rfl
  | enum n values bits => exact introducedNames_declareEnum n values bits
  | container shape n fields =>
    cases shape with
    | request opcode =>
      rw [declLines, introducedNames_append, introducedNames_append, introducedNames_structLines]
      cases reply with
      | none => rfl
      | some r =>
        rw [replyLines, introducedNames_structLines]
        rfl
    | _ => exact introducedNames_structLines ns _ fields
  | _ => rfl

theorem introducedNames_headerBody (m : Module) :
    introducedNames (headerBody m) = m.decls.flatMap introducedBy := by
  rw [headerBody, introducedNames, List.filterMap_flatMap]
  exact congrArg (m.decls.flatMap ·) (funext fun d => introducedNames_declLines _ d)

end CodecGen.Emit
