import CodecGen.Proofs.Visits
import CodecGen.Proofs.Origin
set_option autoImplicit false
/-!
The members that headers declare. The members of a structure are read off its lines, and the structure
of a message, a switch or a named branch stands in the header of the module that declares it.
-/
namespace CodecGen.Emit
open Schema Resolve

def DeclLine.depthAfter (depth : Nat) : DeclLine → Nat
  | .openAnonymous => depth + 1
  | .closeMember _ => depth - 1
  | _ => depth

def DeclLine.memberAt? (depth : Nat) : DeclLine → Option String
  | .member _ name => if depth = 0 then some name else none
  | .closeMember name => if depth = 1 then some name else none
  | _ => none

/-- The members that lines declare in the structure around them, read from some depth on. -/
def membersFrom (depth : Nat) : List DeclLine → List String
  | [] => []
  | line :: rest => (line.memberAt? depth).toList ++ membersFrom (line.depthAfter depth) rest

def structMembers (lines : List DeclLine) : List String := membersFrom 0 lines

mutual

theorem membersFrom_fieldLines (depth : Nat) (ns : List String) (fields : List Field)
    (after : List DeclLine) :
    membersFrom (depth + 1) (fieldLines ns fields ++ after) = membersFrom (depth + 1) after := by
  match fields with
  | [] => rfl
  | ⟨name, type, wire, visible⟩ :: rest =>
    rw [fieldLines, List.append_assoc]
    split
    · rw [membersFrom_memberLines depth ns (safeName name) type, membersFrom_fieldLines depth ns rest]
    · exact membersFrom_fieldLines depth ns rest after

theorem membersFrom_memberLines (depth : Nat) (ns : List String) (name : String) (type : Ty)
    (after : List DeclLine) :
    membersFrom (depth + 1) (memberLines ns name type ++ after) = membersFrom (depth + 1) after := by
  cases type with
  | switch n selector cases =>
    rw [memberLines, List.append_assoc, List.append_assoc]
    exact membersFrom_branchLines (depth + 1) ns cases _
  | _ => rfl

theorem membersFrom_branchLines (depth : Nat) (ns : List String) (cases : List Field)
    (after : List DeclLine) :
    membersFrom (depth + 1) (branchLines ns cases ++ after) = membersFrom (depth + 1) after := by
  match cases with
  | [] => rfl
  | ⟨name, type, wire, visible⟩ :: rest =>
    cases type with
    | case n byValue byMask selectors fields =>
      rw [branchLines, List.append_assoc]
      split
      · rw [membersFrom_fieldLines depth ns fields, membersFrom_branchLines depth ns rest]
      · rw [List.append_assoc, List.append_assoc]
        exact (membersFrom_fieldLines (depth + 1) ns fields _).trans
          (membersFrom_branchLines depth ns rest after)
    | _ => exact membersFrom_branchLines depth ns rest after

end

theorem structMembers_memberLines (ns : List String) (name : String) (type : Ty)
    (after : List DeclLine) :
    structMembers (memberLines ns name type ++ after) = name :: structMembers after := by
  cases type with
  | switch n selector cases =>
    rw [memberLines, List.append_assoc, List.append_assoc]
    exact membersFrom_branchLines 0 ns cases _
  | _ => rfl

theorem structMembers_fieldLines (ns : List String) (fields : List Field) (after : List DeclLine) :
    structMembers (fieldLines ns fields ++ after) =
      safeNames (fields.filter Scope.binds) ++ structMembers after := by
  induction fields with
  | nil => rfl
  | cons f rest ih =>
    obtain ⟨name, type, wire, visible⟩ := f
    have hbinds : Scope.binds ⟨name, type, wire, visible⟩ = (wire && visible) := rfl
    rw [fieldLines, List.append_assoc, List.filter_cons, hbinds]
    by_cases hb : (wire && visible) = true
    · rw [if_pos hb, if_pos hb, structMembers_memberLines, ih]
      rfl
    · rw [if_neg hb, if_neg hb, List.nil_append, ih]

def branchNames : List Field → List String
  | [] => []
  | ⟨name, .case _ _ _ _ fields, _, _⟩ :: rest =>
    (if name == "" then safeNames (fields.filter Scope.binds) else [safeName name]) ++ branchNames rest
  | _ :: rest => branchNames rest

theorem structMembers_branchLines (ns : List String) (cases : List Field) (after : List DeclLine) :
    structMembers (branchLines ns cases ++ after) = branchNames cases ++ structMembers after := by
  induction cases with
  | nil => rfl
  | cons f rest ih =>
    obtain ⟨name, type, wire, visible⟩ := f
    cases type with
    | case n byValue byMask selectors fields =>
      rw [branchLines, branchNames, List.append_assoc, List.append_assoc _ (branchNames rest), ← ih]
      split
      · exact structMembers_fieldLines ns fields _
      · rw [List.append_assoc, List.append_assoc]
        exact membersFrom_fieldLines 0 ns fields _
    | _ => exact ih

theorem branchNames_eq {L : Ty → Prop} {cases : List Field} (h : LaidBranches L cases) :
    branchNames cases = safeNames ((branchMembers cases).filter Scope.binds) := by
  induction cases with
  | nil => rfl
  | cons f rest ih =>
    obtain ⟨name, type, wire, visible⟩ := f
    cases type with
    | case n byValue byMask selectors fields =>
      obtain ⟨⟨rfl, rfl, -⟩, hrest⟩ := h
      rw [branchNames, branchMembers, ih hrest]
      by_cases hname : name = ""
      · simp [hname, safeNames]
      · simp [hname, safeNames, Scope.binds]
    | _ => exact h.1.elim

def Part.names : Part → List String
  | message _ _ fields | branch fields => safeNames (fields.filter Scope.binds)
  | switch cases => branchNames cases

def Part.declare (site : Site) : Part → Except Fault (List DeclLine)
  | message _ _ fields | branch fields => declareFields site fields
  | switch cases => declareBranches site cases

def Part.lines (ns : List String) : Part → List DeclLine
  | message _ _ fields | branch fields => fieldLines ns fields
  | switch cases => branchLines ns cases

theorem Part.declare_yields (site : Site) (p : Part) :
    Yields p.declarable (p.lines site.ns) (p.declare site) := by
  cases p with
  | message shape name fields => exact declareFields_yields site fields
  | switch cases => exact declareBranches_yields site cases
  | branch fields => exact declareFields_yields site fields

theorem structMembers_lines (ns : List String) (p : Part) : structMembers (p.lines ns) = p.names := by
  have hfields (fields : List Field) :
      structMembers (fieldLines ns fields) = safeNames (fields.filter Scope.binds) := by
    simpa [structMembers, membersFrom] using structMembers_fieldLines ns fields []
  cases p with
  | message shape name fields => exact hfields fields
  | switch cases =>
    change structMembers (branchLines ns cases) = branchNames cases
    simpa [structMembers, membersFrom] using structMembers_branchLines ns cases []
  | branch fields => exact hfields fields

def Block.opening (b : Block) : DeclLine :=
  match b.part with
  | .message shape name _ => .openStruct (name.last ++ suffix shape.kind)
  | _ => .openAnonymous

def Block.closing (b : Block) : DeclLine :=
  match b.part with
  | .message .. => .closeType
  | _ => .closeMember b.object

def Block.struct (b : Block) (lines : List DeclLine) : List DeclLine := b.opening :: lines ++ [b.closing]

theorem qualify_cut {s t : Ty} (h : Cut s t) (ns : List String) : qualify s ns = qualify t ns := by
  unfold qualify qualifiedPath typeSuffix
  rw [typeName_of_cut h, kind_of_cut h]

mutual

/-- Members are declared alike however deep their types are spelled out. -/
theorem memberLines_cut (ns : List String) (name : String) {s t : Ty} (h : Cut s t) :
    memberLines ns name s = memberLines ns name t := by
  match h, qualify_cut h ns with
  | .switch h, _ => rw [memberLines, memberLines, branchLines_cut ns h]
  | .list _, hq | .message .., hq | .unionName .., hq | .enumName .., hq | .exprField _, hq =>
    simp [memberLines, memberType, hq]
  | .refl _, _ | .container _, _ | .union _, _ | .case _, _ => rfl

theorem fieldLines_cut (ns : List String) {cut fields : List Field} (h : CutFields cut fields) :
    fieldLines ns cut = fieldLines ns fields := by
  match h with
  | .nil => rfl
  | .cons h rest => rw [fieldLines, fieldLines, memberLines_cut ns _ h, fieldLines_cut ns rest]

theorem branchLines_cut (ns : List String) {cut cases : List Field} (h : CutFields cut cases) :
    branchLines ns cut = branchLines ns cases := by
  match h with
  | .nil => rfl
  | .cons (.refl type) rest =>
    cases type with
    | case n byValue byMask selectors fields => rw [branchLines, branchLines, branchLines_cut ns rest]
    | _ => exact (branchLines_cut ns rest :)
  | .cons (.case h) rest =>
    rw [branchLines, branchLines, fieldLines_cut ns h, branchLines_cut ns rest]
  | .cons (.message ..) rest | .cons (.unionName ..) rest | .cons (.enumName ..) rest
  | .cons (.container _) rest | .cons (.union _) rest | .cons (.list _) rest
  | .cons (.exprField _) rest | .cons (.switch _) rest => exact (branchLines_cut ns rest :)

end

theorem struct_infix_structLines (object : String) (ns : List String) (shape : Shape) (name : Name)
    (fields : List Field) :
    (⟨object, .message shape name fields⟩ : Block).struct (fieldLines ns fields) <:+:
      structLines ns (name.last ++ suffix shape.kind) fields :=
  ⟨undefLines (name.last ++ suffix shape.kind), [.blank], by
    simp [Block.struct, Block.opening, Block.closing, structLines]⟩

theorem structLines_infix_request (ns : List String) {d : Decl} {opcode : Int} {name : Name}
    {fields : List Field} (htype : d.type = .container (.request opcode) name fields) :
    structLines ns (name.last ++ "Request") fields <:+: declLines ns d ∧
      ∀ reply ∈ d.reply, structLines ns (reply.name.last ++ "Reply") reply.fields <:+: declLines ns d := by
  unfold declLines
  rw [htype]
  refine ⟨⟨[], _, by simp; rfl⟩, fun reply hreply => ?_⟩
  rw [Option.mem_def.mp hreply]
  exact ⟨_, _, rfl⟩

theorem structLines_infix_declLines (ns : List String) {d : Decl} {shape : Shape} {name : Name}
    {fields : List Field} (htype : d.type = .container shape name fields) (hname : d.name = name) :
    structLines ns (name.last ++ suffix shape.kind) fields <:+: declLines ns d := by
  cases shape with
  | request opcode => exact (structLines_infix_request ns htype).1
  | _ =>
    subst hname
    exact ⟨[], [], by simp [declLines, htype]⟩

theorem struct_of_anchored {m : Module} (object : String) {shape : Shape} {name : Name}
    {fields : List Field} (ht : Anchored m (.container shape name fields)) :
    ∃ n, Reaches m n ∧
      (⟨object, .message shape name fields⟩ : Block).struct (fieldLines (headerScope n) fields) <:+:
        headerBody n := by
  generalize hcontainer : Ty.container shape name fields = t at ht
  cases ht with
  | scalar => cases hcontainer
  | @declared n d _ hn hd hown hcut =>
    obtain ⟨whole, htype, hcutFields⟩ := fields_of_cut (hcontainer ▸ hcut)
    have hname : d.name = name := by rw [← typeName_of_declaresOwn hown, htype]; rfl
    have hstruct := struct_infix_structLines object (headerScope n) shape name whole
    refine ⟨n, hn, ?_⟩
    rw [fieldLines_cut _ hcutFields]
    exact (hstruct.trans (structLines_infix_declLines _ htype hname)).trans (infix_headerBody hd)

end CodecGen.Emit
