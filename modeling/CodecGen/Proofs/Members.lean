import CodecGen.Proofs.HeaderParts
set_option autoImplicit false
/-!
Header and source agree on members. Whatever a source file takes from an object is what the headers
declare for it, in the same order: for a message the members of its structure, for a switch and for a
named branch those of the nested structures.
-/
namespace CodecGen.Emit
open Schema Resolve

/-- The structure of a block is in a header in reach, its names are those of its members, and what they
bind is known. -/
structure Sited (m : Module) (whole : List Block) (b : Block) : Prop where
  placed : ∃ n, Reaches m n ∧ b.struct (b.part.lines (headerScope n)) <:+: headerBody n
  names : b.part.names = b.members
  known : Known whole (boundBy b.part.bound)

section
variable {m : Module} {whole : List Block}

theorem mem_visitFields {fields : List Field} {f : Field} (hf : f ∈ fields) (hbinds : Scope.binds f = true)
    {b : Block} (hb : b ∈ visitValue (safeName f.name) f.type) : b ∈ visitFields fields := by
  induction fields with
  | nil => cases hf
  | cons g rest ih =>
    obtain ⟨name, type, wire, visible⟩ := g
    rw [visitFields, List.mem_append]
    rcases List.mem_cons.mp hf with rfl | hf
    · rw [if_pos (show (wire && visible) = true from hbinds)]
      exact .inl hb
    · exact .inr (ih hf)

theorem known_fields {fields : List Field} (hsub : visitFields fields ⊆ whole) :
    Known whole (boundBy fields) := by
  intro f hf shape name inner count length htype
  obtain ⟨hmem, hbinds⟩ := mem_boundBy.mp hf
  refine ⟨safeName f.name ++ "_elem", hsub (mem_visitFields hmem hbinds ?_)⟩
  rw [htype]
  exact List.mem_cons_self

theorem known_branches {L : Ty → Prop} {cases : List Field} (h : LaidBranches L cases)
    (hsub : visitBranches cases ⊆ whole) : Known whole (boundBy (branchMembers cases)) := by
  induction cases with
  | nil => intro f hf; cases hf
  | cons f rest ih =>
    obtain ⟨name, type, wire, visible⟩ := f
    cases type with
    | case n byValue byMask selectors fields =>
      rw [visitBranches, List.append_subset, List.append_subset] at hsub
      obtain ⟨⟨-, hfields⟩, hrest⟩ := hsub
      have hknown := ih h.2 hrest
      rw [branchMembers]
      split
      · dsimp only
        rw [boundBy, List.filter_append, List.reverse_append]
        exact hknown.append (known_fields hfields)
      · rw [boundBy, List.filter_cons]
        split
        · -- A named branch is bound itself, and it is no list.
          rw [List.reverse_cons]
          refine hknown.append ?_
          rintro _ hf shape name inner count length htype
          rw [List.mem_singleton.mp hf] at htype
          cases htype
        · exact hknown
    | _ => exact h.1.elim

theorem sited_message {n : Module} (hn : Reaches m n) {object : String} {shape : Shape} {name : Name}
    {fields : List Field}
    (hplace : (⟨object, .message shape name fields⟩ : Block).struct (fieldLines (headerScope n) fields)
      <:+: headerBody n)
    (hsub : visitFields fields ⊆ whole)
    (h : fieldLines (headerScope n) fields <:+: headerBody n →
      ∀ b ∈ visitFields fields, Sited m whole b) :
    ∀ b ∈ visitMessage object shape name fields, Sited m whole b := by
  refine List.forall_mem_cons.mpr ⟨⟨⟨n, hn, hplace⟩, rfl, known_fields hsub⟩, h ?_⟩
  exact List.IsInfix.trans ⟨[_], [_], rfl⟩ hplace

theorem sited_container {object : String} {shape : Shape} {name : Name} {fields : List Field}
    (ht : Anchored m (.container shape name fields))
    (hsub : visitMessage object shape name fields ⊆ whole)
    (h : ∀ n, Reaches m n → fieldLines (headerScope n) fields <:+: headerBody n →
      visitFields fields ⊆ whole → ∀ b ∈ visitFields fields, Sited m whole b) :
    ∀ b ∈ visitMessage object shape name fields, Sited m whole b := by
  -- The message may be declared in another header than the one it is met in; its fields are there too.
  obtain ⟨n, hn, hstruct⟩ := struct_of_anchored object ht
  have hinner : visitFields fields ⊆ whole := (List.cons_subset.mp hsub).2
  exact sited_message hn hstruct hinner fun hlines => h n hn hlines hinner

mutual

theorem sited_fields (hm : Grounded m) {n : Module} (hn : Reaches m n) (fields : List Field)
    (hlaid : LaidIn (Anchored m) fields) (hplace : fieldLines (headerScope n) fields <:+: headerBody n)
    (hsub : visitFields fields ⊆ whole) : ∀ b ∈ visitFields fields, Sited m whole b := by
  match fields with
  | [] => exact List.forall_mem_nil _
  | ⟨name, type, wire, visible⟩ :: rest =>
    rw [visitFields, List.append_subset] at hsub
    rw [fieldLines] at hplace
    have hrest := (List.suffix_append _ _).isInfix.trans hplace
    refine List.forall_mem_append.mpr ⟨?_, sited_fields hm hn rest hlaid.2 hrest hsub.2⟩
    have hone := (List.prefix_append _ _).isInfix.trans hplace
    split
    · next hb =>
      rw [if_pos hb] at hone hsub
      exact sited_value hm hn (safeName name) type hlaid.1 hone hsub.1
    · exact List.forall_mem_nil _

theorem sited_value (hm : Grounded m) {n : Module} (hn : Reaches m n) (name : String) (type : Ty)
    (hlaid : Laid (Anchored m) type) (hplace : memberLines (headerScope n) name type <:+: headerBody n)
    (hsub : visitValue name type ⊆ whole) : ∀ b ∈ visitValue name type, Sited m whole b := by
  cases type with
  | container shape t fields =>
    exact sited_container hlaid hsub fun _ hhost =>
      sited_fields hm hhost fields (laidIn_of_anchored hm hlaid)
  | list member count length => exact sited_element hm _ member hlaid hsub
  | switch t selector cases =>
    have hinner : visitBranches cases ⊆ whole := (List.cons_subset.mp hsub).2
    refine List.forall_mem_cons.mpr ⟨⟨⟨n, hn, hplace⟩, branchNames_eq hlaid, ?_⟩, ?_⟩
    · exact known_branches hlaid hinner
    · exact sited_branches hm hn cases hlaid (List.IsInfix.trans ⟨[_], [_], rfl⟩ hplace) hinner
  | _ => exact List.forall_mem_nil _

theorem sited_element (hm : Grounded m) (name : String) (type : Ty) (ht : Anchored m type)
    (hsub : visitElement name type ⊆ whole) : ∀ b ∈ visitElement name type, Sited m whole b := by
  cases type with
  | container shape t fields =>
    exact sited_container ht hsub fun _ hhost =>
      sited_fields hm hhost fields (laidIn_of_anchored hm ht)
  | _ => exact List.forall_mem_nil _

theorem sited_branches (hm : Grounded m) {n : Module} (hn : Reaches m n) (cases : List Field)
    (hlaid : LaidBranches (Anchored m) cases)
    (hplace : branchLines (headerScope n) cases <:+: headerBody n)
    (hsub : visitBranches cases ⊆ whole) : ∀ b ∈ visitBranches cases, Sited m whole b := by
  match cases with
  | [] => exact List.forall_mem_nil _
  | ⟨name, type, wire, visible⟩ :: rest =>
    cases type with
    | case t byValue byMask selectors fields =>
      rw [visitBranches, List.append_subset, List.append_subset] at hsub
      obtain ⟨⟨-, hfields⟩, hrest⟩ := hsub
      rw [branchLines] at hplace
      have hmore := (List.suffix_append _ _).isInfix.trans hplace
      have hone := (List.prefix_append _ _).isInfix.trans hplace
      rw [visitBranches]
      refine List.forall_mem_append.mpr ⟨List.forall_mem_append.mpr ⟨?_, ?_⟩,
        sited_branches hm hn rest hlaid.2 hmore hrest⟩
      · unfold branchBlock
        split
        · exact List.forall_mem_nil _
        · next hname =>
          rw [if_neg hname] at hone
          exact List.forall_mem_singleton.mpr ⟨⟨n, hn, hone⟩, rfl, known_fields hfields⟩
      · refine sited_fields hm hn fields hlaid.1.2.2 (List.IsInfix.trans ?_ hone) hfields
        split
        · exact List.infix_refl _
        · exact ⟨[_], [_], rfl⟩
    | _ => exact hlaid.1.elim

end

theorem sited_visits (hm : Grounded m) {object : String} {shape : Shape} {name : Name}
    {fields : List Field} (hlaid : LaidIn (Anchored m) fields)
    (hlines : structLines (headerScope m) (name.last ++ suffix shape.kind) fields <:+: headerBody m) :
    ∀ b ∈ visitMessage object shape name fields,
      Sited m (visitMessage object shape name fields) b := by
  have hsub : visitFields fields ⊆ visitMessage object shape name fields := List.subset_cons_self ..
  exact sited_message .refl ((struct_infix_structLines ..).trans hlines) hsub fun hplace =>
    sited_fields hm .refl fields hlaid hplace hsub

theorem sited_of_mem_requests (hm : Grounded m) {r : Request} (hr : r ∈ m.requests) :
    (∀ b ∈ requestVisits r, Sited m (requestVisits r) b) ∧
      ∀ reply ∈ r.reply, ∀ b ∈ replyVisits reply, Sited m (replyVisits reply) b := by
  obtain ⟨d, hd, hrequest⟩ := List.mem_filterMap.mp hr
  unfold Decl.request? at hrequest
  split at hrequest
  · next opcode name fields htype =>
    obtain rfl := Option.some.inj hrequest
    have hlaid := (hm m .refl).1.fields d hd
    rw [declFields, laidIn_append, htype] at hlaid
    have hlines := structLines_infix_request (headerScope m) htype
    refine ⟨sited_visits hm hlaid.1 (hlines.1.trans (infix_headerBody hd)), fun reply hreply => ?_⟩
    have hreplyLaid := hlaid.2
    rw [show d.reply = some reply from hreply] at hreplyLaid
    exact sited_visits hm hreplyLaid ((hlines.2 reply hreply).trans (infix_headerBody hd))
  · cases hrequest

theorem requestClosed_of_mem_requests (hm : Grounded m) {r : Request} (hr : r ∈ m.requests) :
    RequestClosed r where
  request := fun b hb => ((sited_of_mem_requests hm hr).1 b hb).known
  reply := fun reply hreply b hb => ((sited_of_mem_requests hm hr).2 reply hreply b hb).known

end

structure DeclaredIn (n : Module) (b : Block) (lines : List DeclLine) : Prop where
  declared : ∀ site : Site, site.ns = headerScope n → b.part.declare site = .ok lines
  message : ∀ shape name fields, b.part = .message shape name fields →
    ∀ site : Site, site.ns = headerScope n → declareContainer site name shape.kind fields =
      .ok (undefLines (name.last ++ suffix shape.kind) ++ b.struct lines ++ [.blank])
  placed : b.struct lines <:+: headerBody n
  names : structMembers lines = b.part.names
  bound : ∀ frame, accesses (bindFields b.object b.part.bound frame).1 =
    (structMembers lines).map fun name => (b.object, name)

/-- The accesses in statements are those that bind the blocks met on the way through a message, and the
header of a module in reach declares the structure of each. -/
def MembersAgree (m : Module) (visits : List Block) (stmts : List Stmt) : Prop :=
  ∃ blocks, accesses stmts = blocks.flatMap Block.accesses ∧ visits.Sublist blocks ∧
    ∀ b ∈ blocks, Met visits b ∧ ∃ n lines, Reaches m n ∧ DeclaredIn n b lines

theorem declareContainer_struct {object : String} {shape : Shape} {name : Name} {fields : List Field}
    (h : declarableIn fields = true) (site : Site) :
    declareContainer site name shape.kind fields =
      .ok (undefLines (name.last ++ suffix shape.kind) ++
        (⟨object, .message shape name fields⟩ : Block).struct (fieldLines site.ns fields) ++ [.blank]) := by
  have hyields := declareContainer_yields site name shape.kind fields
  rw [h] at hyields
  rw [hyields.ok_of]
  simp [structLines, Block.struct, Block.opening, Block.closing]

theorem declaredIn_of_sited {m : Module} {whole : List Block} {b : Block} (h : Sited m whole b)
    (hdeclarable : b.part.declarable = true) : ∃ n lines, Reaches m n ∧ DeclaredIn n b lines := by
  obtain ⟨n, hn, hplace⟩ := h.placed
  have hmembers := structMembers_lines (headerScope n) b.part
  refine ⟨n, b.part.lines (headerScope n), hn, fun site hsite => ?_, ?_, hplace, hmembers, fun frame => ?_⟩
  · have hyields := b.part.declare_yields site
    rw [hdeclarable, hsite] at hyields
    exact hyields.ok_of
  · obtain ⟨object, part⟩ := b
    rintro shape name fields rfl site hsite
    rw [← hsite]
    exact declareContainer_struct hdeclarable site
  · rw [accesses_bindFields, hmembers, h.names]
    rfl

theorem membersAgree_of_copied {m : Module} {whole : List Block} {stmts : List Stmt}
    (h : Copied whole whole true stmts) (hsited : ∀ b ∈ whole, Sited m whole b) :
    MembersAgree m whole stmts := by
  obtain ⟨blocks, haccesses, hsub, hmet⟩ := h.accounts
  refine ⟨blocks, haccesses, hsub, fun b hb => ⟨hmet b hb, ?_⟩⟩
  cases hmet b hb with
  | visited hmem => exact declaredIn_of_sited (hsited b hmem) (h.parts b hmem)
  | @summed object shape name fields hmem =>
    -- The structure of a message does not depend on the object that holds it.
    obtain ⟨hplaced, hnames, hknown⟩ := hsited _ hmem
    have helement : Sited m whole ⟨listElementName, .message shape name fields⟩ :=
      ⟨hplaced, hnames, hknown⟩
    have hdeclarable : (Part.message shape name fields).declarable = true := h.parts _ hmem
    exact declaredIn_of_sited helement hdeclarable

structure CodeAgrees (m : Module) (codes : List RequestCode) : Prop where
  requests : codes.map (·.request) = m.requests
  encoders : ∀ code ∈ codes, MembersAgree m (requestVisits code.request) code.encoder
  decoders : ∀ code ∈ codes, Option.Rel (fun reply => MembersAgree m (replyVisits reply))
    code.request.reply code.decoder
  headers : ∀ n, Reaches m n → ∀ headerPath artifacts, generate n headerPath = .ok artifacts →
    (declareAll n.className n.decls).2 = .ok (headerBody n)

/-- Header and source agree on members: in the files of every module that is resolved and generated, the
encoders of requests and the decoders of replies access, for each message, switch and named branch that
they meet, exactly the members that its structure declares, in the same order. -/
theorem accessed_members_declared (set : ModuleSet) (hset : Compiled set) (root : Markup.Element)
    (m : Module) (hm : (resolve set root).module? = some m) (headerPath : String)
    (artifacts : Artifacts) (h : generate m headerPath = .ok artifacts) :
    ∃ codes next, (compileRequests m.className m.requests).run {} = (.ok codes, next) ∧
      artifacts.source = render (sourceLines m codes) ∧
      artifacts.header = render (headerLines m (defaultHeaderPath m headerPath) (headerBody m)) ∧
      CodeAgrees m codes := by
  have hgrounded := resolve_grounded (grounded_of_compiled hset) hm
  obtain ⟨codes, next, hrun, hsource⟩ := generate_source h
  obtain ⟨result, k, hresult, hcodes⟩ := compileRequests_copied m.className m.requests
    (fun r => requestClosed_of_mem_requests hgrounded) 0
  obtain ⟨rfl, -⟩ := Prod.mk.inj (hresult.symm.trans hrun)
  obtain ⟨hrequests, hcopied⟩ : codes.map (·.request) = m.requests ∧ ∀ code ∈ codes, code.Copied := hcodes
  have hsited : ∀ code ∈ codes, _ := fun code hcode =>
    sited_of_mem_requests hgrounded (r := code.request) (hrequests ▸ List.mem_map_of_mem hcode)
  refine ⟨codes, next, hrun, hsource, (header_of_generate h).2.1, hrequests, ?_, ?_, ?_⟩
  · intro code hcode
    exact membersAgree_of_copied (hcopied code hcode).encoder (hsited code hcode).1
  · intro code hcode
    have hdecoder := (hcopied code hcode).decoder
    have hreplies := (hsited code hcode).2
    generalize code.request.reply = reply? at hdecoder hreplies ⊢
    generalize code.decoder = decoder? at hdecoder ⊢
    cases hdecoder with
    | none => exact .none
    | some hcopied => exact .some (membersAgree_of_copied hcopied (hreplies _ rfl))
  · intro n _ headerPath artifacts h
    exact (header_of_generate h).1

def drawing : Markup.Element :=
  described "xcb" [("header", "draw")]
    [described "struct" [("name", "POINT")]
        [described "field" [("type", "INT16"), ("name", "x")] [],
          described "field" [("type", "INT16"), ("name", "y")] []],
      described "request" [("name", "Draw"), ("opcode", "7")]
        [described "field" [("type", "CARD8"), ("name", "mode")] [],
          described "list" [("type", "POINT"), ("name", "points")] [described "value" [] [] "2"],
          described "list" [("type", "CARD8"), ("name", "weights")]
            [described "sumof" [("ref", "points")] [described "fieldref" [] [] "x"]],
          described "switch" [("name", "style")]
            [described "fieldref" [] [] "mode",
              described "bitcase" []
                [described "value" [] [] "1", described "field" [("type", "CARD8"), ("name", "width")] []],
              described "bitcase" [("name", "fill")]
                [described "value" [] [] "2", described "field" [("type", "CARD8"), ("name", "class")] []]],
          described "reply" [] [described "field" [("type", "POINT"), ("name", "corner")] []]]]

theorem accessed_members_declared_drawing :
    ∃ m artifacts, (resolve .empty drawing).module? = some m ∧ generate m "" = .ok artifacts ∧
      ∃ codes next, (compileRequests m.className m.requests).run {} = (.ok codes, next) ∧
        artifacts.source = render (sourceLines m codes) ∧
        artifacts.header = render (headerLines m (defaultHeaderPath m "") (headerBody m)) ∧
        CodeAgrees m codes := by
  have hgenerates : (resolve .empty drawing).module?.map (fun m => (generate m "").isOk) =
      some true := by decide +kernel
  obtain ⟨m, hm, hok⟩ := Option.map_eq_some_iff.mp hgenerates
  obtain ⟨artifacts, hartifacts⟩ := eq_ok_of_isOk hok
  exact ⟨m, artifacts, hm, hartifacts,
    accessed_members_declared .empty (.empty 0) drawing m hm "" artifacts hartifacts⟩

/-- The points are taken apart twice, since the weights count what they sum up to. -/
example :
    (resolve .empty drawing).module?.map (fun m =>
      ((compileRequests m.className m.requests).run {}).1.toOption.map fun codes =>
        codes.map fun code => accesses code.encoder) =
      some (some [[("request", "mode"), ("request", "points"), ("request", "weights"),
        ("request", "style"), ("points_elem", "x"), ("points_elem", "y"), (listElementName, "x"),
        (listElementName, "y"), ("style", "width"), ("style", "fill"), ("fill", "c_class")]]) := by
  decide +kernel

end CodecGen.Emit
