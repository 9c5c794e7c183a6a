import CodecGen.Proofs.EmittedRequests
set_option autoImplicit false
/-!
The texts that code is made from. Whatever is true of every string of a module is true of the names and
expressions of its requests, of the fields in scope, and so of all ingredients of the generated code.
-/
namespace CodecGen.Emit
open Schema

def exprTexts : Expr → List String
  | .absent | .listElement | .value _ => []
  | .binary op lhs rhs => op :: (exprTexts lhs ++ exprTexts rhs)
  | .complement operand | .popCount operand => exprTexts operand
  | .fieldLen name | .fieldRef name => [name]
  | .sumOf list summand => list :: exprTexts summand
  | .enumRef enum item => item :: enum

def itemTexts (item : EnumItem) : List String := [item.name, item.value]

mutual

def typeTexts : Ty → List String
  | .absent | .pad .. => []
  | .simple name | .mention _ name => name
  | .enum name values bits => name ++ values.flatMap itemTexts ++ bits.flatMap itemTexts
  | .union name fields | .container _ name fields => name ++ fieldTexts fields
  | .list member _ length => typeTexts member ++ length.toList.flatMap exprTexts
  | .exprField base value => typeTexts base ++ exprTexts value
  | .switch name selector cases => name ++ exprTexts selector ++ fieldTexts cases
  | .case name _ _ selectors fields => name ++ selectors.flatMap exprTexts ++ fieldTexts fields

def fieldTexts : List Field → List String
  | [] => []
  | ⟨name, type, _, _⟩ :: rest => name :: (typeTexts type ++ fieldTexts rest)

end

def replyTexts (reply : Reply) : List String := reply.name ++ fieldTexts reply.fields

def declTexts (d : Decl) : List String :=
  d.name ++ typeTexts d.type ++ d.reply.toList.flatMap replyTexts

/-- Every string of a module that code is generated from: names, headers, the values of
enumerations, operators and what expressions refer to. -/
def moduleTexts (m : Module) : List String :=
  m.header :: m.extName :: (m.imports.map Module.header ++ m.decls.flatMap declTexts)

section
variable {P : String → Prop}

def FieldHolds (P : String → Prop) (f : Field) : Prop := P f.name ∧ ∀ x ∈ typeTexts f.type, P x

theorem fieldTexts_hold_iff {fields : List Field} :
    (∀ x ∈ fieldTexts fields, P x) ↔ ∀ f ∈ fields, FieldHolds P f := by
  induction fields with
  | nil => exact ⟨fun _ f hf => (by cases hf), fun _ x hx => (by cases hx)⟩
  | cons f rest ih =>
    obtain ⟨name, type, wire, visible⟩ := f
    rw [fieldTexts, List.forall_mem_cons, List.forall_mem_append, ih, List.forall_mem_cons]
    exact and_assoc.symm

theorem typeName_holds (type : Ty) (hpad : P "uint8_t") (h : ∀ x ∈ typeTexts type, P x) :
    ∀ x ∈ type.typeName, P x := by
  match type with
  | .absent => exact fun x hx => by cases hx
  | .pad .. => exact List.forall_mem_singleton.2 hpad
  | .simple name | .mention _ name => exact h
  | .enum name values bits =>
    exact (List.forall_mem_append.1 (List.forall_mem_append.1 h).1).1
  | .union name fields | .container _ name fields => exact (List.forall_mem_append.1 h).1
  | .list member _ length => exact typeName_holds member hpad (List.forall_mem_append.1 h).1
  | .exprField base value => exact typeName_holds base hpad (List.forall_mem_append.1 h).1
  | .switch name selector cases => exact (List.forall_mem_append.1 (List.forall_mem_append.1 h).1).1
  | .case name _ _ selectors fields =>
    exact (List.forall_mem_append.1 (List.forall_mem_append.1 h).1).1

theorem elementMembers_hold {type : Ty} (h : ∀ x ∈ typeTexts type, P x) :
    ∀ f ∈ elementMembers type, FieldHolds P f := by
  cases type with
  | container shape name fields => exact fieldTexts_hold_iff.1 (List.forall_mem_append.1 h).2
  | _ => exact fun f hf => by cases hf

theorem branchMembers_hold {branches : List Field} (h : ∀ f ∈ branches, FieldHolds P f) :
    ∀ f ∈ branchMembers branches, FieldHolds P f := by
  induction branches with
  | nil => exact h
  | cons branch rest ih =>
    obtain ⟨hbranch, hrest⟩ := List.forall_mem_cons.1 h
    unfold branchMembers
    split
    · split
      · rename_i hcase
        have hfields := hbranch.2
        rw [hcase] at hfields
        exact List.forall_mem_append.2
          ⟨fieldTexts_hold_iff.1 (List.forall_mem_append.1 hfields).2, ih hrest⟩
      · exact ih hrest
    · exact List.forall_mem_cons.2 ⟨hbranch, ih hrest⟩

theorem scope_holds {fields : List Field} {s : Scope} (h : ∀ f ∈ fields, FieldHolds P f)
    (hs : ∀ f ∈ s, FieldHolds P f) : ∀ f ∈ boundBy fields ++ s, FieldHolds P f :=
  List.forall_mem_append.2 ⟨fun f hf => h f (mem_boundBy.1 hf).1, hs⟩

structure RequestHolds (P : String → Prop) (r : Request) : Prop where
  name : ∀ x ∈ r.name, P x
  fields : ∀ f ∈ r.fields, FieldHolds P f
  reply : ∀ reply, r.reply = some reply → ∀ f ∈ reply.fields, FieldHolds P f

theorem requestHolds_of_decl {d : Decl} {r : Request} (h : ∀ x ∈ declTexts d, P x)
    (hr : d.request? = some r) : RequestHolds P r := by
  obtain ⟨name, type, reply⟩ := d
  obtain ⟨h, hreply⟩ := List.forall_mem_append.1 h
  have htype := (List.forall_mem_append.1 h).2
  unfold Decl.request? at hr
  split at hr
  · rename_i opcode n fields heq
    cases heq
    cases hr
    obtain ⟨hn, hfields⟩ := List.forall_mem_append.1 htype
    refine ⟨hn, fieldTexts_hold_iff.1 hfields, ?_⟩
    rintro reply rfl
    have hreply : ∀ x ∈ replyTexts reply, P x := by simpa using hreply
    exact fieldTexts_hold_iff.1 (List.forall_mem_append.1 hreply).2
  · cases hr

/-- The texts of a module satisfy `P`, by what they are used for. -/
structure ModuleHolds (P : String → Prop) (m : Module) : Prop where
  header : P m.header
  className : P m.className
  imports : ∀ i ∈ m.imports, P i.header
  decls : ∀ d ∈ m.decls, ∀ x ∈ declTexts d, P x
  requests : ∀ r ∈ m.requests, RequestHolds P r

theorem moduleHolds_of_texts {m : Module} (h : ∀ x ∈ moduleTexts m, P x) (hcore : P "XProto") :
    ModuleHolds P m := by
  obtain ⟨hheader, hrest⟩ := List.forall_mem_cons.1 h
  obtain ⟨hext, hrest⟩ := List.forall_mem_cons.1 hrest
  obtain ⟨himports, hdecls⟩ := List.forall_mem_append.1 hrest
  have hdecl : ∀ d ∈ m.decls, ∀ x ∈ declTexts d, P x :=
    fun d hd x hx => hdecls x (List.mem_flatMap.2 ⟨d, hd, hx⟩)
  refine ⟨hheader, ?_, List.forall_mem_map.1 himports, hdecl, fun r hr => ?_⟩
  · unfold Module.className
    split
    · exact hext
    · exact hcore
  · obtain ⟨d, hd, hdr⟩ := List.mem_filterMap.1 hr
    exact requestHolds_of_decl (hdecl d hd) hdr

theorem exprTexts_summandOf (summand : Expr) : exprTexts (summandOf summand) = exprTexts summand := by
  cases summand <;> rfl

theorem summedMembers_hold {s : Scope} {list : String} {f : Field} {member : Ty} {count : Int}
    {length : Option Expr} (hs : ∀ f ∈ s, FieldHolds P f) (hlist : s.resolve? list = some f)
    (htype : f.type = .list member count length) : ∀ g ∈ elementMembers member, FieldHolds P g := by
  have hf := (hs f (List.mem_of_find?_eq_some hlist)).2
  rw [htype, typeTexts, List.forall_mem_append] at hf
  exact elementMembers_hold hf.1

theorem AtHand.holds {locals : List String} {s : Scope} {name : String} (h : AtHand locals s name)
    (hlocals : ∀ x ∈ locals, P x) (hs : ∀ f ∈ s, P (safeName f.name)) : P name := by
  rcases h with h | ⟨f, hf, rfl⟩
  · exact hlocals name h
  · exact hs f hf

def Ingredient.Holds (P : String → Prop) : Ingredient → Prop
  | label name => P name
  | hidden name type => P name ∧ ∀ x ∈ typeTexts type, P x
  | branch b => P b.name
  | members fields => ∀ f ∈ fields, FieldHolds P f
  | expr _ e => ∀ x ∈ exprTexts e, P x

theorem hiddenIngredients_hold {s : Scope} {name : String} {type : Ty} (hname : P name)
    (htype : ∀ x ∈ typeTexts type, P x) : ∀ i ∈ hiddenIngredients s name type, i.Holds P := by
  unfold hiddenIngredients
  split
  · exact List.forall_mem_nil _
  · refine List.forall_mem_append.mpr ⟨?_, List.forall_mem_singleton.mpr ⟨hname, htype⟩⟩
    split
    · exact List.forall_mem_nil _
    · exact List.forall_mem_singleton.mpr (List.forall_mem_append.mp htype).2
  · exact List.forall_mem_singleton.mpr ⟨hname, htype⟩

theorem lengthIngredients_hold {s : Scope} {count : Int} {length : Option Expr}
    (h : ∀ x ∈ length.toList.flatMap exprTexts, P x) :
    ∀ i ∈ lengthIngredients s count length, i.Holds P := by
  unfold lengthIngredients
  split
  · split
    · rw [List.forall_mem_singleton]
      exact fun x hx => h x (by simpa using hx)
    · exact List.forall_mem_nil _
  · exact List.forall_mem_nil _

mutual

theorem ingredientsIn_hold (s : Scope) (fields : List Field) (h : ∀ f ∈ fields, FieldHolds P f) :
    ∀ i ∈ ingredientsIn s fields, i.Holds P := by
  match fields with
  | [] => exact List.forall_mem_nil _
  | ⟨name, type, wire, visible⟩ :: rest =>
    obtain ⟨hf, hrest⟩ := List.forall_mem_cons.mp h
    rw [ingredientsIn, List.forall_mem_append]
    refine ⟨?_, ingredientsIn_hold s rest hrest⟩
    cases wire with
    | false => exact List.forall_mem_nil _
    | true =>
      refine List.forall_mem_cons.mpr ⟨hf.1, ?_⟩
      cases visible with
      | true => exact ingredientsOf_hold s type hf.2
      | false => exact hiddenIngredients_hold hf.1 hf.2
termination_by structural fields

theorem ingredientsOf_hold (s : Scope) (type : Ty) (h : ∀ x ∈ typeTexts type, P x) :
    ∀ i ∈ ingredientsOf s type, i.Holds P := by
  cases type with
  | container shape t fields =>
    have hfields := fieldTexts_hold_iff.mp (List.forall_mem_append.mp h).2
    exact List.forall_mem_cons.mpr ⟨hfields, ingredientsIn_hold _ fields hfields⟩
  | list member count length =>
    obtain ⟨hmember, hlength⟩ := List.forall_mem_append.mp h
    exact List.forall_mem_append.mpr
      ⟨lengthIngredients_hold hlength, elementIngredients_hold s member hmember⟩
  | switch t selector cases =>
    obtain ⟨hselector, hcases⟩ := List.forall_mem_append.mp h
    have hcases := fieldTexts_hold_iff.mp hcases
    exact List.forall_mem_cons.mpr ⟨branchMembers_hold hcases, List.forall_mem_cons.mpr
      ⟨(List.forall_mem_append.mp hselector).2, branchIngredients_hold _ cases hcases⟩⟩
  | _ => exact List.forall_mem_nil _
termination_by structural type

theorem elementIngredients_hold (s : Scope) (type : Ty) (h : ∀ x ∈ typeTexts type, P x) :
    ∀ i ∈ elementIngredients s type, i.Holds P := by
  cases type with
  | container shape t fields =>
    have hfields := fieldTexts_hold_iff.mp (List.forall_mem_append.mp h).2
    exact List.forall_mem_cons.mpr ⟨hfields, ingredientsIn_hold _ fields hfields⟩
  | _ => exact List.forall_mem_nil _
termination_by structural type

theorem branchIngredients_hold (s : Scope) (cases : List Field) (h : ∀ f ∈ cases, FieldHolds P f) :
    ∀ i ∈ branchIngredients s cases, i.Holds P := by
  match cases with
  | [] => exact List.forall_mem_nil _
  | ⟨name, type, wire, visible⟩ :: rest =>
    obtain ⟨hf, hrest⟩ := List.forall_mem_cons.mp h
    cases type with
    | case t byValue byMask selectors fields =>
      obtain ⟨hselectors, hfields⟩ := List.forall_mem_append.mp hf.2
      have hselectors := (List.forall_mem_append.mp hselectors).2
      have hfields := fieldTexts_hold_iff.mp hfields
      rw [branchIngredients, List.forall_mem_append, List.forall_mem_append, List.forall_mem_append]
      refine ⟨⟨⟨?_, ?_⟩, ingredientsIn_hold _ fields hfields⟩, branchIngredients_hold s rest hrest⟩
      · rw [List.forall_mem_map]
        exact fun e he x hx => hselectors x (List.mem_flatMap.mpr ⟨e, he, hx⟩)
      · unfold branchIngredient
        split
        · exact List.forall_mem_nil _
        · exact List.forall_mem_cons.mpr ⟨hf.1, List.forall_mem_singleton.mpr hfields⟩
    | _ => exact branchIngredients_hold s rest hrest
termination_by structural cases

end

end

end CodecGen.Emit
