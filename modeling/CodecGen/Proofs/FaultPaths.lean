import CodecGen.Proofs.FaultWalks
import CodecGen.Proofs.HiddenFields
set_option autoImplicit false
/-!
The paths of faults. A path names a declaration and then, one by one, the parts of the model that lie on
the way to the node at fault: the reply of a request, fields, branches. What is in scope at that node is
known from the way alone, and the node offends against the rule that the fault is about.
-/
namespace CodecGen.Emit
open Schema

-- Declarations do not look at the scope, so their faults offend in every setting.
mutual

theorem declareField_refuses (f : Field) (owner : Owner) (site : Site) (w : Setting) :
    RefusesBy (FaultFrom (site.path ++ [f.name]) w (.field owner f)) (declareField site f) := by
  match f with
  | ⟨name, type, wire, visible⟩ =>
    rw [declareField_mk]
    split
    · exact declareMember_refuses type ⟨name, type, wire, visible⟩ owner rfl (site.at name) _ w
    · exact trivial

theorem declareMember_refuses (type : Ty) (f : Field) (owner : Owner) (hf : f.type = type) (site : Site)
    (name : String) (w : Setting) :
    RefusesBy (FaultFrom site.path w (.field owner f)) (declareMember site name type) := by
  cases type with
  | switch n selector cases =>
    have hbranches := declareBranches_refuses cases site ⟨w.dir, boundBy (branchMembers cases) ++ w.scope⟩
    rw [declareMember_switch]
    exact holds_bind (hbranches.weaken fun _ hfault => .of_branches hf hfault) fun _ _ => trivial
  | list member count length =>
    rw [declareMember_list]
    exact holds_bind (checkList_refuses hf site w) fun _ _ => trivial
  | case n byValue byMask selectors fields => exact .here (.of_type hf rfl)
  | _ => exact trivial

theorem declareFields_refuses (fields : List Field) (owner : Owner) (site : Site) (w : Setting) :
    RefusesBy (FaultAmong site.path w owner fields) (declareFields site fields) := by
  cases fields with
  | nil => exact trivial
  | cons f rest =>
    have hone := declareField_refuses f owner site w
    have hrest := declareFields_refuses rest owner site w
    rw [declareFields_cons]
    refine holds_bind (hone.weaken fun _ => .head rest) fun _ _ => ?_
    exact holds_bind (hrest.weaken fun _ => .tail f) fun _ _ => trivial

theorem declareBranches_refuses (branches : List Field) (site : Site) (w : Setting) :
    RefusesBy (FaultAmongBranches site.path w branches) (declareBranches site branches) := by
  cases branches with
  | nil => exact trivial
  | cons branch rest =>
    have hone := declareBranch_refuses branch site w
    have hrest := declareBranches_refuses rest site w
    rw [declareBranches_cons]
    refine holds_bind (hone.weaken fun _ => .head rest) fun _ _ => ?_
    exact holds_bind (hrest.weaken fun _ => .tail branch) fun _ _ => trivial

theorem declareBranch_refuses (branch : Field) (site : Site) (w : Setting) :
    RefusesBy (FaultFrom (site.path ++ [branch.name]) w (.branch branch)) (declareBranch site branch) := by
  match branch with
  | ⟨name, type, wire, visible⟩ =>
    cases type with
    | case n byValue byMask selectors fields =>
      have hcase := checkCase_refuses (b := ⟨name, .case n byValue byMask selectors fields, wire, visible⟩)
        rfl (site.at name) w
      have hfields := declareFields_refuses fields .branch (site.at name)
        ⟨w.dir, branchScope name fields w.scope⟩
      rw [declareBranch_case]
      refine holds_bind hcase fun _ _ => ?_
      exact holds_bind (hfields.weaken fun _ hfault => .of_selected rfl hfault) fun _ _ => trivial
    | _ => exact .here (.branchType (by simp))

end

section
variable (site : Site) (w : Setting) {d : Decl}

theorem unionMembers_refuses (fields : List Field) :
    RefusesBy (FaultAmong site.path w .union fields) (unionMembers site fields) := by
  induction fields with
  | nil => exact trivial
  | cons f rest ih =>
    have hone : RefusesBy (FaultAmong site.path w .union (f :: rest)) (unionMemberType site f) := by
      unfold unionMemberType
      split
      · next member count length htype =>
        split
        · next hsize => exact .head rest (.here (.unionListSize htype hsize))
        · exact trivial
      · exact trivial
    rw [unionMembers_cons]
    refine holds_bind hone fun _ _ => ?_
    exact holds_bind (Holds.weaken ih fun _ => .tail f) fun _ _ => trivial

theorem declareContainer_refuses {shape : Shape} {name : Name} {fields : List Field}
    (hd : d.type = .container shape name fields) (typeName : Name) (kind : Kind) :
    RefusesBy (FaultFrom site.path w (.decl d)) (declareContainer site typeName kind fields) := by
  have hfields := declareFields_refuses fields (.message shape) site ((Node.decl d).inside w)
  rw [declareContainer_eq]
  refine holds_bind (hfields.weaken ?_) fun _ _ => trivial
  rintro fault ⟨f, hf, hfault⟩
  exact .step (.declared hd hf) hfault

theorem declareReply_refuses {r : Request} (hd : d.request? = some r) :
    RefusesBy (FaultFrom site.path w (.decl d)) (declareReply site r.reply) := by
  unfold declareReply emitReply
  split
  · next reply hreply =>
    have hfields := declareFields_refuses reply.fields (.message .reply) (site.at "reply")
      ((Node.reply reply).inside ((Node.decl d).inside w))
    change RefusesBy _ (declareContainer (site.at "reply") reply.name .reply reply.fields)
    rw [declareContainer_eq]
    refine holds_bind (hfields.weaken ?_) fun _ _ => trivial
    rintro fault ⟨f, hf, hfault⟩
    exact .step (.reply hd hreply) (.step (.replied hf) hfault)
  · exact trivial

theorem declareType_refuses (d : Decl) :
    RefusesBy (FaultFrom site.path w (.decl d)) (declareType site d) := by
  unfold declareType emitType
  split
  · next name fields hd =>
    have hmembers := unionMembers_refuses site ((Node.decl d).inside w) fields
    rw [alone_emitUnion]
    refine holds_bind (hmembers.weaken ?_) fun _ _ => trivial
    rintro fault ⟨f, hf, hfault⟩
    exact .step (.united hd hf) hfault
  · next opcode name fields hd =>
    rw [alone_emitRequest]
    refine holds_bind (declareContainer_refuses site w hd _ _) fun _ _ => ?_
    have hrequest : d.request? = some ⟨name, opcode, fields, d.reply⟩ := by
      unfold Decl.request?
      rw [hd]
    exact holds_bind (declareReply_refuses site w hrequest) fun _ _ => trivial
  · next hd => exact declareContainer_refuses site w hd _ _
  · exact trivial
  · exact trivial
  · next hunion _ hcontainer henum hsimple =>
    refine .here (.declType ?_)
    unfold isDeclType
    split
    · next hd => exact absurd hd (hsimple _)
    · next hd => exact absurd hd (henum _ _ _)
    · next hd => exact absurd hd (hunion _ _)
    · next hd => exact absurd hd (hcontainer _ _ _)
    · rfl

end

/-- The names by which paths call a declaration: its own, and that of the request it stands for. -/
def Calls (d : Decl) (first : String) : Prop :=
  first = d.name.last ∨ ∃ r, d.request? = some r ∧ first = r.name.last

def FaultIn (decls : List Decl) (fault : Fault) : Prop :=
  ∃ d ∈ decls, ∃ first, Calls d first ∧ FaultFrom [first] ⟨.encode, []⟩ (.decl d) fault

section
variable {d : Decl} {r : Request} (hd : d.request? = some r)
include hd

theorem encodeRequest_fails (className : String) :
    FailsBy [] (FaultFrom [r.name.last] ⟨.encode, []⟩ (.decl d)) (encodeRequest className r) := by
  have hbody := copyContainer_fails ⟨.encode, ["x11", className], [r.name.last]⟩ (.request r.opcode) r.fields
    "request" []
  refine .bind .freshScope fun _ _ => hbody.weaken ?_
  rintro fault ⟨f, hf, hfault⟩
  refine .step (.declared (Resolve.type_of_request hd) hf) ?_
  rw [Node.inside, Resolve.type_of_request hd, innerMembers]
  rwa [List.append_nil] at hfault

theorem decodeReply_fails {reply : Reply} (hreply : r.reply = some reply) :
    FailsBy [] (FaultFrom [r.name.last] ⟨.encode, []⟩ (.decl d)) (decodeReply r reply) := by
  have hbody := copyContainer_fails ⟨.decode, ["x11"], [r.name.last, "reply"]⟩ .reply reply.fields "(*reply)" []
  refine .bind .freshScope fun _ _ => hbody.weaken ?_
  rintro fault ⟨f, hf, hfault⟩
  refine .step (.reply hd hreply) (.step (.replied hf) ?_)
  rwa [List.append_nil] at hfault

theorem compileRequest_fails (className : String) :
    FailsBy [] (FaultFrom [r.name.last] ⟨.encode, []⟩ (.decl d)) (compileRequest className r) := by
  unfold compileRequest
  apply Ensures.bind (encodeRequest_fails hd className)
  intro encoder _
  split
  · exact .pure trivial
  · next reply hreply => exact .bind (decodeReply_fails hd hreply) fun _ _ => .pure trivial

end

theorem generate_refuses (m : Module) (headerPath : String) :
    RefusesBy (FaultIn m.decls) (generate m headerPath) := by
  refine generate_holds headerPath (declareAll_holds fun d hd => ?_) (compileRequests_ensures fun r hr => ?_)
  · refine (declareType_refuses _ ⟨.encode, []⟩ d).weaken fun fault hfault => ?_
    exact ⟨d, hd, d.name.last, .inl rfl, hfault⟩
  · obtain ⟨d, hd, hrequest⟩ := List.mem_filterMap.mp hr
    refine (compileRequest_fails hrequest m.className).weaken fun fault hfault => ?_
    exact ⟨d, hd, r.name.last, .inr ⟨r, hrequest, rfl⟩, hfault⟩

/-- Where no code can be generated for a module, the path of the fault calls one of its declarations,
and its other components lead from there, step by step, to a node that offends against the rule that
the fault is about. -/
theorem fault_path_leads_to_offender (m : Module) (headerPath : String) (fault : Fault)
    (h : generate m headerPath = .error fault) :
    ∃ first rest d w node, fault.path = first :: rest ∧ d ∈ m.decls ∧ Calls d first ∧
      Walk ⟨.encode, []⟩ (.decl d) rest w node ∧ Offends w node fault.cause := by
  have hfault := generate_refuses m headerPath
  rw [h] at hfault
  obtain ⟨d, hd, first, hfirst, rest, w, node, hpath, hwalk, hoffends⟩ := hfault
  exact ⟨first, rest, d, w, node, hpath, hd, hfirst, hwalk, hoffends⟩

def sketches : Module :=
  let byte := Ty.simple ["xcb", "CARD8"]
  let points : Field := ⟨"points", .list byte 0 (some (.fieldLen "count")), true, true⟩
  let polygon : Field := ⟨"", .case ["xcb", "polygon"] true false [.value 1] [points], true, true⟩
  let outline : Field := ⟨"outline", .switch ["xcb", "outline"] (.fieldRef "kind") [polygon], true, true⟩
  let figure := Ty.container .struct ["xcb", "FIGURE"] [⟨"kind", byte, true, true⟩, outline]
  let figures : Field := ⟨"figures", .list figure 2 none, true, true⟩
  { header := "sketch",
    decls := [⟨["xcb", "QuerySketch"], .container (.request 7) ["xcb", "QuerySketch"] [],
      some ⟨["xcb", "QuerySketch"], [figures]⟩⟩] }

theorem fault_path_leads_to_offender_sketches :
    generate sketches "" = .error ⟨.unboundLength "count",
      ["QuerySketch", "reply", "figures", "outline", "", "points"]⟩ ∧
    ∃ first rest d w node, ["QuerySketch", "reply", "figures", "outline", "", "points"] = first :: rest ∧
      d ∈ sketches.decls ∧ Calls d first ∧ Walk ⟨.encode, []⟩ (.decl d) rest w node ∧
      Offends w node (.unboundLength "count") := by
  have hfault : generate sketches "" = .error ⟨.unboundLength "count",
      ["QuerySketch", "reply", "figures", "outline", "", "points"]⟩ := by
    decide +kernel
  exact ⟨hfault, fault_path_leads_to_offender sketches "" _ hfault⟩

end CodecGen.Emit
