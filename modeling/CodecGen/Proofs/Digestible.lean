import CodecGen.Proofs.Declared
import CodecGen.Proofs.ExpectedFaults
set_option autoImplicit false
/-!
Generation accepts what resolution hands on. The layouts of a finished module are well-formed, and
where no message contains itself they are complete; generation then fails only for what descriptions
are free to say and code cannot express.
-/
namespace CodecGen.Emit
open Schema Resolve

section
variable {s : Scope} {site : Site}

mutual

theorem declareField_expected (f : Field) (site : Site) (h : wellFormed f.type = true) :
    Holds (fun _ => True) Expected (declareField site f) := by
  match f with
  | ⟨name, type, wire, visible⟩ =>
    rw [declareField_mk]
    split
    · exact declareMember_expected type _ _ h
    · exact trivial
termination_by structural f

theorem declareMember_expected (type : Ty) (site : Site) (name : String)
    (h : wellFormed type = true) : Holds (fun _ => True) Expected (declareMember site name type) := by
  cases type with
  | switch n selector cases =>
    simp only [wellFormed, Bool.and_eq_true] at h
    rw [declareMember_switch]
    exact holds_bind (declareBranches_expected cases site h.2) fun _ _ => trivial
  | list member count length =>
    rw [declareMember_list]
    exact holds_bind (checkList_expected count length) fun _ _ => trivial
  | case => exact rfl
  | _ => exact trivial
termination_by structural type

theorem declareFields_expected (fields : List Field) (site : Site) (h : wellFormedIn fields = true) :
    Holds (fun _ => True) Expected (declareFields site fields) := by
  match fields with
  | [] => exact trivial
  | ⟨name, type, wire, visible⟩ :: rest =>
    simp only [wellFormedIn, Bool.and_eq_true] at h
    rw [declareFields_cons]
    refine holds_bind (declareField_expected _ site h.1.2) fun _ _ => ?_
    exact holds_bind (declareFields_expected rest site h.2) fun _ _ => trivial
termination_by structural fields

theorem declareBranches_expected (branches : List Field) (site : Site)
    (h : wellFormedIn branches = true) :
    Holds (fun _ => True) Expected (declareBranches site branches) := by
  match branches with
  | [] => exact trivial
  | ⟨name, type, wire, visible⟩ :: rest =>
    simp only [wellFormedIn, Bool.and_eq_true] at h
    rw [declareBranches_cons]
    refine holds_bind (declareBranch_expected _ site h.1.2) fun _ _ => ?_
    exact holds_bind (declareBranches_expected rest site h.2) fun _ _ => trivial
termination_by structural branches

theorem declareBranch_expected (branch : Field) (site : Site) (h : wellFormed branch.type = true) :
    Holds (fun _ => True) Expected (declareBranch site branch) := by
  match branch with
  | ⟨name, type, wire, visible⟩ =>
    cases type with
    | case n byValue byMask selectors fields =>
      simp only [wellFormed, Bool.and_eq_true] at h
      rw [declareBranch_case]
      refine holds_bind (checkCase_expected h.1.1) fun _ _ => ?_
      exact holds_bind (declareFields_expected fields _ h.2) fun _ _ => trivial
    | _ => exact rfl
termination_by structural branch

end

theorem unionMembers_expected (fields : List Field) :
    Holds (fun _ => True) Expected (unionMembers site fields) := by
  induction fields with
  | nil => exact trivial
  | cons f rest ih =>
    have hone : Holds (fun _ => True) Expected (unionMemberType site f) := by
      unfold unionMemberType
      split
      · split
        · exact rfl
        · exact trivial
      · exact trivial
    rw [unionMembers_cons]
    exact holds_bind hone fun _ _ => holds_bind ih fun _ _ => trivial

theorem declareContainer_expected {name : Name} {kind : Kind} {fields : List Field}
    (h : wellFormedIn fields = true) :
    Holds (fun _ => True) Expected (declareContainer site name kind fields) := by
  rw [declareContainer_eq]
  exact holds_bind (declareFields_expected fields site h) fun _ _ => trivial

theorem declareType_expected (site : Site) {d : Decl} (h : Finished d.type d.reply) :
    Holds (fun _ => True) Expected (declareType site d) := by
  have hreply : Holds (fun _ => True) Expected (declareReply site d.reply) := by
    unfold declareReply emitReply
    split
    · next reply hreply => exact declareContainer_expected (wellFormedIn_of_whole (h.2 reply hreply))
    · exact trivial
  obtain ⟨name, type, reply⟩ := d
  cases type with
  | simple | enum => exact trivial
  | union n fields =>
    change Holds _ _ (alone (emitUnion site n fields))
    rw [alone_emitUnion]
    exact holds_bind (unionMembers_expected fields) fun _ _ => trivial
  | container shape n fields =>
    have hbody : ∀ name kind,
        Holds (fun _ => True) Expected (declareContainer site name kind fields) :=
      fun _ _ => declareContainer_expected (wellFormedIn_of_whole h.1)
    cases shape with
    | request opcode =>
      change Holds _ _ (alone (emitRequest site ⟨n, opcode, fields, reply⟩))
      rw [alone_emitRequest]
      exact holds_bind (hbody _ _) fun _ _ => holds_bind hreply fun _ _ => trivial
    | _ => exact hbody _ _
  | _ => exact h.1.elim

theorem copyContainer_digests {shape : Shape} {fields : List Field} {object : String}
    (hwell : wellFormedIn fields = true) (hcomplete : completeIn fields = true) :
    Digests [] (copyContainer site shape fields object) := by
  refine .bind (Ensures.withFields (Q := fun _ => True) ?_) fun _ _ => .pure trivial
  exact copyFields_digests fields site _ _ (completeScope_bound (by simp [CompleteScope]) hcomplete)
    hwell hcomplete (boundIn_bound fields)

/-- The messages that code is generated for: requests and replies. -/
def messageRoots (m : Module) : List Ty :=
  m.requests.flatMap fun r =>
    .container (.request r.opcode) r.name r.fields ::
      (r.reply.toList.map fun reply => .container .reply reply.name reply.fields)

def Copyable (r : Request) : Prop :=
  (wellFormedIn r.fields = true ∧ completeIn r.fields = true) ∧
    ∀ reply, r.reply = some reply →
      wellFormedIn reply.fields = true ∧ completeIn reply.fields = true

theorem compileRequest_digests (className : String) {r : Request} (h : Copyable r) :
    Digests [] (compileRequest className r) := by
  refine .bind (.bind .freshScope fun _ _ => copyContainer_digests h.1.1 h.1.2) fun _ _ => ?_
  split
  · exact .pure trivial
  · next reply hreply =>
    obtain ⟨hwell, hcomplete⟩ := h.2 reply hreply
    exact .bind (.bind .freshScope fun _ _ => copyContainer_digests hwell hcomplete)
      fun _ _ => .pure trivial

theorem copyable_of_finished {m : Module} (hm : FinishedModule m)
    (hne : ∀ t ∈ messageRoots m, ¬ Endless t) : ∀ r ∈ m.requests, Copyable r := by
  intro r hr
  have hself : ¬ Endless (.container (.request r.opcode) r.name r.fields) :=
    hne _ (List.mem_flatMap.mpr ⟨r, hr, List.mem_cons_self⟩)
  have hreplies : ∀ reply, r.reply = some reply →
      ¬ Endless (.container .reply reply.name reply.fields) := fun reply hreply =>
    hne _ (List.mem_flatMap.mpr ⟨r, hr, by simp [hreply]⟩)
  obtain ⟨d, hd, hrequest⟩ := List.mem_filterMap.mp hr
  have hfinished := hm d hd
  unfold Decl.request? at hrequest
  split at hrequest
  · next opcode name fields htype =>
    obtain rfl := Option.some.inj hrequest
    rw [htype] at hfinished
    refine ⟨⟨wellFormedIn_of_whole hfinished.1, settled_of_whole hfinished.1 hself⟩, ?_⟩
    intro reply hreply
    have hwhole := hfinished.2 reply hreply
    exact ⟨wellFormedIn_of_whole hwhole, settled_of_whole hwhole (hreplies reply hreply)⟩
  · cases hrequest

theorem generate_expected {m : Module} (hm : FinishedModule m)
    (hne : ∀ t ∈ messageRoots m, ¬ Endless t) (headerPath : String) :
    Holds (fun _ => True) Expected (generate m headerPath) := by
  refine generate_holds headerPath (declareAll_holds fun d hd => declareType_expected _ (hm d hd)) ?_
  exact compileRequests_ensures fun r hr =>
    compileRequest_digests m.className (copyable_of_finished hm hne r hr)

end

mutual

/-- No type is missing, neither the type itself nor one that it is made of. -/
def present : Ty → Bool
  | .absent => false
  | .union _ fields | .container _ _ fields => presentIn fields
  | .list member _ _ => present member
  | .exprField base _ => present base
  | .switch _ _ cases => presentIn cases
  | .case _ _ _ _ fields => presentIn fields
  | .simple _ | .enum .. | .pad .. | .mention .. => true

def presentIn : List Field → Bool
  | [] => true
  | ⟨_, type, _, _⟩ :: rest => present type && presentIn rest

end

mutual

theorem present_of_wellFormed (t : Ty) (h : wellFormed t = true) : present t = true := by
  cases t with
  | absent => cases h
  | union name fields => exact presentIn_of_wellFormed fields h
  | container shape name fields => exact presentIn_of_wellFormed fields h
  | list member count length => exact present_of_wellFormed member h
  | exprField base value =>
    rw [wellFormed, Bool.and_eq_true] at h
    exact present_of_wellFormed base h.1
  | switch name selector cases =>
    rw [wellFormed, Bool.and_eq_true] at h
    exact presentIn_of_wellFormed cases h.2
  | case name byValue byMask selectors fields =>
    rw [wellFormed, Bool.and_eq_true] at h
    exact presentIn_of_wellFormed fields h.2
  | simple | enum | pad | mention => rfl
termination_by structural t

theorem presentIn_of_wellFormed (fields : List Field) (h : wellFormedIn fields = true) :
    presentIn fields = true := by
  match fields with
  | [] => rfl
  | ⟨name, type, wire, visible⟩ :: rest =>
    rw [wellFormedIn, Bool.and_eq_true, Bool.and_eq_true] at h
    rw [presentIn, Bool.and_eq_true]
    exact ⟨present_of_wellFormed type h.1.2, presentIn_of_wellFormed rest h.2⟩
termination_by structural fields

end

theorem present_of_finished {type : Ty} {reply : Option Reply} (h : Finished type reply) :
    present type = true ∧ ∀ r, reply = some r → presentIn r.fields = true := by
  refine ⟨present_of_wellFormed type ?_, fun r hr => ?_⟩
  · cases type with
    | simple | enum => rfl
    | union name fields => exact h.1
    | container shape name fields => exact wellFormedIn_of_whole h.1
    | _ => exact h.1.elim
  · exact presentIn_of_wellFormed r.fields (wellFormedIn_of_whole (h.2 r hr))

/-- In a resolved module no type is missing, so there is always one to be named. Where no request and no
reply reaches a message that contains itself, generation has an end and fails, if at all, for one of the
causes that are left to descriptions; a name that is not in scope can only be that of a list to be summed
up. -/
theorem resolved_module_digestible (set : ModuleSet) (hset : Compiled set) (root : Markup.Element)
    (m : Module) (hm : (resolve set root).module? = some m) :
    (∀ d ∈ m.decls, present d.type = true ∧
      ∀ reply, d.reply = some reply → presentIn reply.fields = true) ∧
    ((∀ t ∈ messageRoots m, ¬ Endless t) →
      ∀ (headerPath : String) (fault : Fault), generate m headerPath = .error fault →
        ∃ code ∈ [5001, 5002, 5004, 5005, 5006, 5007, 5008], fault.cause.code? = some code ∧
          (code = 5001 → ∃ list, fault.cause = .unboundList list)) := by
  have hfinished : FinishedModule m := resolve_finished (finished_of_compiled hset) hm
  refine ⟨fun d hd => present_of_finished (hfinished d hd), fun hne headerPath fault hfault => ?_⟩
  have h := generate_expected hfinished hne headerPath
  rw [hfault] at h
  exact code_of_expected h

def unboundSum : Markup.Element :=
  let element (tag : String) (attrs : List Markup.Attribute) (children : List Markup.Element) :
      Markup.Element := ⟨tag, attrs, "", children, ⟨0, 0⟩⟩
  element "xcb" [⟨"header", "draw"⟩]
    [element "struct" [⟨"name", "POINT"⟩] [element "field" [⟨"type", "INT16"⟩, ⟨"name", "x"⟩] []],
      element "request" [⟨"name", "Draw"⟩, ⟨"opcode", "7"⟩]
        [element "list" [⟨"type", "POINT"⟩, ⟨"name", "points"⟩]
          [element "sumof" [⟨"ref", "widths"⟩] []]]]

theorem resolved_module_digestible_unboundSum :
    ∃ m fault, (resolve .empty unboundSum).module? = some m ∧
      (∀ d ∈ m.decls, present d.type = true ∧
        ∀ reply, d.reply = some reply → presentIn reply.fields = true) ∧
      (∀ t ∈ messageRoots m, ¬ Endless t) ∧ generate m "" = .error fault ∧
      ∃ code ∈ [5001, 5002, 5004, 5005, 5006, 5007, 5008], fault.cause.code? = some code ∧
        (code = 5001 → ∃ list, fault.cause = .unboundList list) := by
  have hcomplete : (resolve .empty unboundSum).module?.map (fun m => (messageRoots m).all complete) =
      some true := by decide +kernel
  have hfails : (resolve .empty unboundSum).module?.map (fun m => (generate m "").isOk) =
      some false := by decide +kernel
  obtain ⟨m, hm, hroots⟩ := Option.map_eq_some_iff.mp hcomplete
  have hne : ∀ t ∈ messageRoots m, ¬ Endless t :=
    fun t ht => not_endless_of_complete (List.all_eq_true.mp hroots t ht)
  rw [hm] at hfails
  cases hfault : generate m "" with
  | ok artifacts =>
    rw [Option.map_some, hfault] at hfails
    cases hfails
  | error fault =>
    obtain ⟨hpresent, hcodes⟩ := resolved_module_digestible .empty (.empty 0) unboundSum m hm
    exact ⟨m, fault, hm, hpresent, hne, hfault, hcodes hne "" fault hfault⟩

end CodecGen.Emit
