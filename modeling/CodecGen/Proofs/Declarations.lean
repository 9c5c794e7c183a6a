import CodecGen.Proofs.Emission
set_option autoImplicit false
/-!
Declarations apart from the run that writes them. The header of a module is written before its
source in one run, in which all temporaries are numbered. A walk through a declaration, however deep
its switches and branches go, leaves the frame as it was and does not depend on it; so the outcome of
each walk can be told alone, and the code of the requests starts where it would start without a
header.
-/
namespace CodecGen.Emit
open Schema

section
variable {α β γ : Type}

/-- Started with nothing in scope, every run ends in the same way and in the frame that it was
started from: no temporary is taken, and nothing is left behind. -/
def Steady (x : Emission α) : Prop := ∀ n, x.run ⟨[], n⟩ = (alone x, ⟨[], n⟩)

theorem alone_bind {x : Emission α} (hx : Steady x) (f : α → Emission β) :
    alone (x >>= f) = (alone x >>= fun a => alone (f a)) := by
  have hrun := hx 0
  cases hresult : alone x with
  | ok a =>
    rw [hresult] at hrun
    exact congrArg Prod.fst (run_bind_ok f hrun)
  | error fault =>
    rw [hresult] at hrun
    exact congrArg Prod.fst (run_bind_error f hrun)

theorem alone_map (x : Emission α) (f : α → β) :
    alone (do return f (← x)) = (alone x).map f := by
  rcases hrun : x.run {} with ⟨fault | a, frame⟩
  · have hfault : alone x = .error fault := congrArg Prod.fst hrun
    rw [hfault]
    exact congrArg Prod.fst (run_bind_error _ hrun)
  · have hvalue : alone x = .ok a := congrArg Prod.fst hrun
    rw [hvalue]
    exact congrArg Prod.fst (run_bind_ok _ hrun)

theorem alone_pair {x : Emission α} {y : Emission β} (hx : Steady x) (hy : Steady y)
    (f : α → β → γ) :
    alone (do return f (← x) (← y)) = (do return f (← alone x) (← alone y)) :=
  (alone_bind hx _).trans (bind_congr fun _ => alone_bind hy _)

namespace Steady

theorem pure (a : α) : Steady (pure a : Emission α) := fun _ => rfl

theorem fail (site : Site) (cause : Cause) : Steady (site.fail cause : Emission α) := fun _ => rfl

theorem lift (x : Except Fault α) : Steady (liftM x : Emission α) := fun _ => rfl

theorem freshScope : Steady freshScope := fun _ => rfl

theorem bind {x : Emission α} {f : α → Emission β} (hx : Steady x) (hf : ∀ a, Steady (f a)) :
    Steady (x >>= f) := by
  intro n
  have hrun := hx n
  rw [alone_bind hx f]
  cases hresult : alone x with
  | ok a =>
    rw [hresult] at hrun
    rw [run_bind_ok f hrun]
    exact hf a n
  | error fault =>
    rw [hresult] at hrun
    exact run_bind_error f hrun

end Steady
end

mutual

theorem emitField_steady (f : Field) (site : Site) : Steady (emitField site f) := by
  match f with
  | ⟨name, type, wire, visible⟩ =>
    rw [emitField]
    split
    · exact emitMember_steady type _ _
    · exact .pure []
termination_by structural f

theorem emitMember_steady (type : Ty) (site : Site) (name : String) :
    Steady (emitMember site name type) := by
  cases type with
  | switch n selector cases => exact .bind (emitBranches_steady cases site) fun _ => .pure _
  | list member count length => exact .bind (.lift _) fun _ => .pure _
  | case => exact .fail _ _
  | _ => exact .pure _
termination_by structural type

theorem emitFields_steady (fields : List Field) (site : Site) : Steady (emitFields site fields) := by
  cases fields with
  | nil => exact .pure []
  | cons f rest =>
    have hrest := emitFields_steady rest site
    exact .bind (emitField_steady f site) fun _ => .bind hrest fun _ => .pure _
termination_by structural fields

theorem emitBranches_steady (branches : List Field) (site : Site) :
    Steady (emitBranches site branches) := by
  cases branches with
  | nil => exact .pure []
  | cons branch rest =>
    have hrest := emitBranches_steady rest site
    exact .bind (emitBranch_steady branch site) fun _ => .bind hrest fun _ => .pure _
termination_by structural branches

theorem emitBranch_steady (branch : Field) (site : Site) : Steady (emitBranch site branch) := by
  match branch with
  | ⟨name, type, wire, visible⟩ =>
    cases type with
    | case n byValue byMask selectors fields =>
      have hfields := emitFields_steady fields (site.at name)
      exact .bind (.lift _) fun _ => .bind hfields fun _ => .pure _
    | _ => exact .fail _ _
termination_by structural branch

end

theorem emitContainer_steady (site : Site) (name : Name) (kind : Kind) (fields : List Field) :
    Steady (emitContainer site name kind fields) :=
  .bind (emitFields_steady fields site) fun _ => .pure _

theorem emitUnionMembers_steady (site : Site) (fields : List Field) :
    Steady (emitUnionMembers site fields) := by
  induction fields with
  | nil => exact .pure []
  | cons f rest ih => exact .bind (.lift _) fun _ => .bind ih fun _ => .pure _

theorem emitReply_steady (site : Site) (reply : Option Reply) : Steady (emitReply site reply) := by
  cases reply with
  | none => exact .pure []
  | some reply => exact emitContainer_steady _ _ _ _

theorem emitType_steady (site : Site) (d : Decl) : Steady (emitType site d) := by
  unfold emitType
  split
  · exact .bind (emitUnionMembers_steady site _) fun _ => .pure _
  · refine .bind (emitContainer_steady site _ _ _) fun _ => ?_
    exact .bind (emitReply_steady site d.reply) fun _ => .pure _
  · exact emitContainer_steady site _ _ _
  · exact .pure _
  · exact .pure _
  · exact .fail _ _

section
variable (site : Site)

def declareField (f : Field) : Except Fault (List DeclLine) := alone (emitField site f)

def declareMember (name : String) (type : Ty) : Except Fault (List DeclLine) :=
  alone (emitMember site name type)

def declareFields (fields : List Field) : Except Fault (List DeclLine) := alone (emitFields site fields)

def declareBranches (branches : List Field) : Except Fault (List DeclLine) :=
  alone (emitBranches site branches)

def declareBranch (branch : Field) : Except Fault (List DeclLine) := alone (emitBranch site branch)

def declareContainer (name : Name) (kind : Kind) (fields : List Field) : Except Fault (List DeclLine) :=
  alone (emitContainer site name kind fields)

def unionMembers (fields : List Field) : Except Fault (List DeclLine) :=
  alone (emitUnionMembers site fields)

def declareReply (reply : Option Reply) : Except Fault (List DeclLine) := alone (emitReply site reply)

def declareType (d : Decl) : Except Fault (List DeclLine) := alone (emitType site d)

theorem declareField_mk (name : String) (type : Ty) (wire visible : Bool) :
    declareField site ⟨name, type, wire, visible⟩ =
      if wire && visible then declareMember (site.at name) (safeName name) type else .ok [] := by
  unfold declareField
  rw [emitField]
  split <;> rfl

theorem declareMember_switch (name : String) (type : Name) (selector : Expr) (cases : List Field) :
    declareMember site name (.switch type selector cases) = (do
      let body ← declareBranches site cases
      return [.openAnonymous] ++ body ++ [.closeMember name]) :=
  alone_bind (emitBranches_steady cases site) _

theorem declareMember_list (name : String) (member : Ty) (count : Int) (length : Option Expr) :
    declareMember site name (.list member count length) = (do
      checkList site count length
      return [.member (listType (qualify (.list member count length) site.ns) count) name]) :=
  alone_bind (.lift (checkList site count length)) _

theorem declareFields_cons (f : Field) (rest : List Field) :
    declareFields site (f :: rest) = (do
      let one ← declareField site f
      let more ← declareFields site rest
      return one ++ more) :=
  alone_pair (emitField_steady f site) (emitFields_steady rest site) _

theorem declareBranches_cons (branch : Field) (rest : List Field) :
    declareBranches site (branch :: rest) = (do
      let one ← declareBranch site branch
      let more ← declareBranches site rest
      return one ++ more) :=
  alone_pair (emitBranch_steady branch site) (emitBranches_steady rest site) _

theorem declareBranch_case (name : String) (type : Name) (byValue byMask : Bool)
    (selectors : List Expr) (fields : List Field) (wire visible : Bool) :
    declareBranch site ⟨name, .case type byValue byMask selectors fields, wire, visible⟩ = (do
      checkCase (site.at name) byValue byMask
      let body ← declareFields (site.at name) fields
      return if name == "" then body
        else [.openAnonymous] ++ body ++ [.closeMember (safeName name)]) :=
  alone_pair (.lift (checkCase (site.at name) byValue byMask))
    (emitFields_steady fields (site.at name)) _

theorem declareContainer_eq (name : Name) (kind : Kind) (fields : List Field) :
    declareContainer site name kind fields = (do
      let body ← declareFields site fields
      return undefLines (name.last ++ suffix kind) ++ [DeclLine.openStruct (name.last ++ suffix kind)] ++
        body ++ [DeclLine.closeType, .blank]) :=
  alone_bind (emitFields_steady fields site) _

theorem unionMembers_cons (f : Field) (rest : List Field) :
    unionMembers site (f :: rest) = (do
      let type ← unionMemberType site f
      let more ← unionMembers site rest
      return .unionMember type (safeName f.name) :: more) :=
  alone_pair (.lift (unionMemberType site f)) (emitUnionMembers_steady site rest) _

theorem alone_emitUnion (name : Name) (fields : List Field) :
    alone (emitUnion site name fields) = (do
      let body ← unionMembers site fields
      return [DeclLine.openUnion name.last, .unionConstructor name.last, .blank] ++ body ++
        [DeclLine.closeType, .triviallyCopyable name.last, .blank]) :=
  alone_bind (emitUnionMembers_steady site fields) _

theorem alone_emitRequest (r : Request) :
    alone (emitRequest site r) = (do
      let request ← declareContainer site r.name .request r.fields
      let reply ← declareReply site r.reply
      let replyName := if r.reply.isSome then r.name.last ++ "Reply" else "void"
      return request ++ reply ++
        [DeclLine.response r.name.last replyName, .blank, .methodResult replyName r.name.last,
          .methodArgument (r.name.last ++ "Request"), .blank]) :=
  alone_pair (emitContainer_steady site r.name .request r.fields) (emitReply_steady site r.reply) _

end

section
variable (className : String)

theorem emitDecl_steady (d : Decl) : Steady (emitDecl className d) :=
  .bind .freshScope fun _ => emitType_steady _ d

theorem emitDecls_steady (decls : List Decl) : Steady (emitDecls className decls) := by
  induction decls with
  | nil => exact .pure []
  | cons d rest ih => exact .bind (emitDecl_steady className d) fun _ => .bind ih fun _ => .pure _

theorem declareAll_cons (d : Decl) (rest : List Decl) :
    (declareAll className (d :: rest)).2 = (do
      let lines ← declareType ⟨.encode, ["x11", className], [d.name.last]⟩ d
      let more ← (declareAll className rest).2
      return lines ++ more) :=
  alone_pair (emitDecl_steady className d) (emitDecls_steady className rest) _

end

def generateHeader (m : Module) (headerPath : String) : Except Fault String :=
  (declareAll m.className m.decls).2.map fun body =>
    render (headerLines m (defaultHeaderPath m headerPath) body)

def generateSource (m : Module) : Except Fault String :=
  ((compileRequests m.className m.requests).run {}).1.map fun codes => render (sourceLines m codes)

theorem emitHeader_steady (m : Module) (headerPath : String) : Steady (emitHeader m headerPath) :=
  .bind (emitDecls_steady m.className m.decls) fun _ => .pure _

/-- The source is written as if no header had been. -/
theorem generate_eq (m : Module) (headerPath : String) :
    generate m headerPath = (do
      let header ← generateHeader m headerPath
      let source ← generateSource m
      return ⟨header, source⟩) := by
  have hheader : alone (emitHeader m headerPath) = generateHeader m headerPath := alone_map _ _
  have hsource : alone (emitSource m) = generateSource m := alone_map _ _
  rw [← hheader, ← hsource]
  refine (alone_bind (emitHeader_steady m headerPath) _).trans (bind_congr fun header => ?_)
  rw [alone_map]
  cases alone (emitSource m) <;> rfl

section
variable {E : Fault → Prop} {className : String}

theorem declareAll_holds {decls : List Decl}
    (h : ∀ d ∈ decls,
      Holds (fun _ => True) E (declareType ⟨.encode, ["x11", className], [d.name.last]⟩ d)) :
    Holds (fun _ => True) E (declareAll className decls).2 := by
  induction decls with
  | nil => exact trivial
  | cons d rest ih =>
    rw [List.forall_mem_cons] at h
    rw [declareAll_cons]
    exact holds_bind h.1 fun _ _ => holds_bind (ih h.2) fun _ _ => trivial

theorem compileRequests_ensures {requests : List Request}
    (h : ∀ r ∈ requests, Ensures [] (fun _ => True) E (compileRequest className r)) :
    Ensures [] (fun _ => True) E (compileRequests className requests) := by
  induction requests with
  | nil => exact .pure trivial
  | cons r rest ih =>
    rw [List.forall_mem_cons] at h
    exact .bind h.1 fun _ _ => .bind (ih h.2) fun _ _ => .pure trivial

theorem generate_holds {m : Module} (headerPath : String)
    (hdecls : Holds (fun _ => True) E (declareAll m.className m.decls).2)
    (hrequests : Ensures [] (fun _ => True) E (compileRequests m.className m.requests)) :
    Holds (fun _ => True) E (generate m headerPath) := by
  have hheader : Holds (fun _ => True) E (generateHeader m headerPath) := by
    unfold generateHeader
    cases hlines : (declareAll m.className m.decls).2 with
    | ok lines => exact trivial
    | error fault =>
      rw [hlines] at hdecls
      exact hdecls
  have hsource : Holds (fun _ => True) E (generateSource m) := by
    obtain ⟨result, n, hrun, hresult⟩ := hrequests 0
    have hrun : (compileRequests m.className m.requests).run {} = (result, ⟨[], n⟩) := hrun
    unfold generateSource
    rw [hrun]
    cases result with
    | ok codes => exact trivial
    | error fault => exact hresult
  rw [generate_eq]
  exact holds_bind hheader fun _ _ => holds_bind hsource fun _ _ => trivial

end

theorem generateSource_of_generate {m : Module} {headerPath : String} {artifacts : Artifacts}
    (h : generate m headerPath = .ok artifacts) : generateSource m = .ok artifacts.source := by
  rw [generate_eq] at h
  obtain ⟨header, -, h⟩ := except_bind_ok h
  obtain ⟨source, hsource, h⟩ := except_bind_ok h
  obtain rfl := Except.ok.inj h
  exact hsource

theorem generate_source {m : Module} {headerPath : String} {artifacts : Artifacts}
    (h : generate m headerPath = .ok artifacts) :
    ∃ codes frame, (compileRequests m.className m.requests).run {} = (.ok codes, frame) ∧
      artifacts.source = render (sourceLines m codes) := by
  have hsource := generateSource_of_generate h
  unfold generateSource at hsource
  rcases hrun : (compileRequests m.className m.requests).run {} with ⟨fault | codes, frame⟩
  · rw [hrun] at hsource
    cases hsource
  · rw [hrun] at hsource
    exact ⟨codes, frame, rfl, (Except.ok.inj hsource).symm⟩

/-- Two modules of one name and one class that have the same requests have the same source, whatever
else they declare and import and wherever their headers go: the header is written first, but neither
takes a number from the source nor leaves anything in its scope. -/
theorem source_determined_by_requests {m n : Module} {path other : String} {a b : Artifacts}
    (hheader : m.header = n.header) (hclass : m.className = n.className)
    (hrequests : m.requests = n.requests) (ha : generate m path = .ok a)
    (hb : generate n other = .ok b) : a.source = b.source := by
  have hsame : generateSource m = generateSource n := by
    unfold generateSource sourceLines
    rw [hheader, hclass, hrequests]
  rw [generateSource_of_generate ha, generateSource_of_generate hb] at hsame
  exact Except.ok.inj hsame

def fillRequest : Decl :=
  ⟨["xcb", "Fill"], .container (.request 7) ["xcb", "Fill"]
    [⟨"request", .simple ["uint8_t"], true, true⟩], none⟩

def fillModule : Module where
  header := "fill"
  decls := [fillRequest]

def shapedFillModule : Module where
  header := "fill"
  major := 1
  imports := [{ header := "shape" }]
  decls := [⟨["xcb", "Shape"], .container .struct ["xcb", "Shape"]
      [⟨"mode", .simple ["uint8_t"], true, true⟩,
        ⟨"data", .switch ["xcb", "Shape", "data"] (.fieldRef "mode")
          [⟨"dots", .case ["xcb", "Shape", "data", "dots"] true false [.value 1]
            [⟨"sizes", .list (.simple ["uint8_t"]) 4 none, true, true⟩], true, true⟩], true, true⟩],
      none⟩, fillRequest]

theorem source_determined_by_requests_fill :
    ∃ a b, generate fillModule "" = .ok a ∧ generate shapedFillModule "x/fill.h" = .ok b ∧
      a.source = b.source := by
  have hplain : (generate fillModule "").isOk = true := by decide +kernel
  have hshaped : (generate shapedFillModule "x/fill.h").isOk = true := by decide +kernel
  obtain ⟨a, ha⟩ := eq_ok_of_isOk hplain
  obtain ⟨b, hb⟩ := eq_ok_of_isOk hshaped
  have hheader : fillModule.header = shapedFillModule.header := rfl
  have hclass : fillModule.className = shapedFillModule.className := rfl
  have hrequests : fillModule.requests = shapedFillModule.requests := rfl
  exact ⟨a, b, ha, hb, source_determined_by_requests hheader hclass hrequests ha hb⟩

end CodecGen.Emit
