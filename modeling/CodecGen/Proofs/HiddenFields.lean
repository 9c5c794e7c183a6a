import CodecGen.Proofs.HiddenCode
set_option autoImplicit false
/-!
Hidden fields in encoders. A hidden field is known by its name alone: a field called like one of the
header is written like that, whether resolution put it into the header or a description states it. So
the major opcode is left to the caller wherever some field is called like the minor one, and a computed
field gets its value only if its name is none of the header.
-/
namespace CodecGen.Resolve
open Schema Markup

def RequestLaid (t : Ty) : Prop :=
  ∀ opcode name fields, t = .container (.request opcode) name fields →
    ∃ (n : Module) (entry : String) (members : List Field), name = declPath n ++ [entry] ∧
      LaidOut n.isExt members (.request opcode) fields

theorem head_of_kind_request {head : Head} (h : head.kind = .request) :
    ∃ opcode, head = .container (.request opcode) := by
  cases head with
  | enum | union => cases h
  | container shape =>
    cases shape with
    | request opcode => exact ⟨opcode, rfl⟩
    | _ => cases h

theorem type_spell_request {below : List Decl} {d : Decl} {opcode : Int} {name : Name} {fields : List Field}
    (h : (spell below d).type = .container (.request opcode) name fields) :
    ∃ inner, d.type = .container (.request opcode) name inner ∧
      fields = replaceInFields (typeIn below) inner := by
  unfold spell at h
  dsimp only at h
  cases htype : d.type with
  | container shape called inner =>
    rw [htype] at h
    cases h
    exact ⟨inner, rfl, rfl⟩
  | _ =>
    rw [htype] at h
    cases h

section
variable {set : ModuleSet} {root : Element} {r : Registered}

theorem Accepts.made (h : Accepts set root r) {p : Pending} (hp : p ∈ r.registry.pending) :
    ∃ e ∈ root.children, Makes (declPath r.head) e p := by
  obtain ⟨env, -, hregistry⟩ := h.registry
  rw [hregistry] at hp
  rcases registerAll_made hp with hnone | hmade
  · cases hnone
  · exact hmade

theorem Accepts.requestLaid (h : Accepts set root r) (d : Decl) (hd : Drawn r d) :
    RequestLaid (spelledDraft r d).type := by
  intro opcode name fields htype
  obtain ⟨inner, hinner, rfl⟩ := type_spell_request htype
  have hkind : d.type.kind = .request := by rw [hinner]; rfl
  rcases mem_drafts h.contents hd.draft with ⟨p, hp, -, rfl⟩ | ⟨p, hp, hcopy, fields, hfields⟩
  · rw [kind_resolveContents] at hkind
    obtain ⟨number, hhead⟩ := head_of_kind_request hkind
    obtain ⟨e, -, entry, head, -, -, rfl⟩ := h.made hp
    dsimp only at hhead
    rw [hhead] at hinner
    cases hinner
    exact ⟨r.head, entry, _, rfl, laidOut_replace _ (laidOut_request r.head.isExt _ opcode)⟩
  · -- A copy is an event or an error.
    obtain ⟨e, -, entry, head, hhead, -, rfl⟩ := h.made hp
    obtain ⟨copied, shape, hcopied, hshape, hcopiedKind⟩ := head?_of_isCopy hcopy
    obtain rfl := Option.some.inj (hhead.symm.trans hcopied)
    rw [hfields] at hkind
    dsimp only at hkind
    rw [hshape] at hkind
    change shape.kind = .request at hkind
    rw [hcopiedKind] at hkind
    rcases copiedKind_cases e with hcase | hcase <;> rw [hcase] at hkind <;> cases hkind

end

/-- Paths of extensions are longer than those of the core. -/
theorem isExt_of_path {m n : Module} {entry other : String}
    (h : declPath m ++ [entry] = declPath n ++ [other]) : m.isExt = n.isExt := by
  have hlength := congrArg List.length h
  unfold declPath at hlength
  cases hm : m.isExt <;> cases hn : n.isExt <;> simp [hm, hn] at hlength ⊢

theorem type_of_request {d : Decl} {r : Request} (h : d.request? = some r) :
    d.type = .container (.request r.opcode) r.name r.fields := by
  unfold Decl.request? at h
  split at h
  · next htype =>
    cases h
    exact htype
  · cases h

theorem path_of_request {m : Module} (h : Grounded m) {r : Request} (hr : r ∈ m.requests) :
    ∃ n entry, Reaches m n ∧ r.name = declPath n ++ [entry] := by
  obtain ⟨d, hd, hrequest⟩ := List.mem_filterMap.mp hr
  have hanchored := (h m .refl).1.types d hd
  rw [type_of_request hrequest] at hanchored
  generalize hlast : Ty.container (.request r.opcode) r.name r.fields = type at hanchored
  cases hanchored with
  | scalar => cases hlast
  | @declared n s _ hn hs hown hcut =>
    obtain ⟨entries, -, hnames⟩ := (h n hn).1.names
    obtain ⟨entry, -, hentry⟩ := List.mem_map.mp (hnames ▸ List.mem_map_of_mem hs)
    have hname := typeName_of_cut hcut
    rw [← hlast, typeName_of_declaresOwn hown] at hname
    exact ⟨n, entry, hn, hname.trans hentry.symm⟩

theorem stated_of_mem {env : Env} {T : Target → Ty → Prop} {place : Place} {pads : Nat} {es : List Element}
    {members : List Field} (h : FieldsFor env T place pads es members) {e : Element} (he : e ∈ es)
    (hstates : statesField e = true) : ∃ f ∈ members, ∃ pads, FieldFor env T place pads e f := by
  induction es generalizing pads members with
  | nil => cases he
  | cons first rest ih =>
    cases h with
    | stated hf hrest =>
      rcases List.mem_cons.mp he with rfl | he
      · exact ⟨_, List.mem_cons_self, pads, hf⟩
      · obtain ⟨f, hmem, hfor⟩ := ih hrest he
        exact ⟨f, List.mem_cons_of_mem _ hmem, hfor⟩
    | other hnone hrest =>
      rcases List.mem_cons.mp he with rfl | he
      · rw [hnone] at hstates
        cases hstates
      · exact ih hrest he

theorem computed_of_fieldFor {env : Env} {T : Target → Ty → Prop} {place : Place} {pads : Nat}
    {e : Element} {f : Field} (h : FieldFor env T place pads e f) (htag : e.tag = "exprfield") :
    ∃ name base value, e.attr? "name" = some name ∧ f = ⟨name, .exprField base value, true, false⟩ := by
  cases h with
  | computed _ hname => exact ⟨_, _, _, hname, rfl⟩
  | pad hother | plain hother | descriptor hother | list hother | switch hother =>
    exact absurd (htag.symm.trans hother) (by decide)

theorem members_subset_request {isExt : Bool} {members fields : List Field} {opcode : Int}
    (h : LaidOut isExt members (.request opcode) fields) : members ⊆ fields := by
  cases h with
  | coreRequest _ hslot =>
    rcases hslot with rfl | ⟨rfl, -, -⟩
    · intro f hf
      rcases List.mem_cons.mp hf with rfl | hf
      · simp
      · simp [hf]
    · exact List.nil_subset _
  | extRequest => exact List.subset_append_right _ _

theorem DeclaredAs.mem {m : Module} {e : Element} {d : Decl} (h : DeclaredAs m e d) : d ∈ m.decls := by
  obtain ⟨name, -, hfind⟩ := h
  exact List.mem_reverse.mp (List.mem_of_find?_eq_some hfind)

theorem Accepts.computed {set : ModuleSet} {root : Element} {r : Registered} (h : Accepts set root r)
    {e : Element} (he : e ∈ root.children) (htag : e.tag = "request") {x : Element} (hx : x ∈ e.children)
    (hexpr : x.tag = "exprfield") :
    ∃ d request name base value, DeclaredAs r.module e d ∧ d.request? = some request ∧
      request ∈ r.module.requests ∧ x.attr? "name" = some name ∧
      ⟨name, .exprField base value, true, false⟩ ∈ request.fields := by
  obtain ⟨path, d, hdeclared, hmessage⟩ := h.message he (by simp [declaresMessage, htag])
  obtain ⟨shape, members, fields, reply, rfl, hshape, hmembers, hfields, -⟩ :=
    container_of_messageFor hmessage (by simp [htag])
  obtain ⟨opcode, rfl⟩ := shape_of_request hshape htag
  obtain ⟨f, hf, pads, hfor⟩ := stated_of_mem hmembers hx (by simp [statesField, hexpr])
  obtain ⟨name, base, value, hname, rfl⟩ := computed_of_fieldFor hfor hexpr
  exact ⟨_, _, name, base, value, hdeclared, rfl, List.mem_filterMap.mpr ⟨_, hdeclared.mem, rfl⟩, hname,
    members_subset_request hfields hf⟩

end CodecGen.Resolve

namespace CodecGen.Emit
open Schema Resolve Markup

/-- What the encoder of a request does with its opcodes, depending on the module in whose path the request
lies, and with every computed field in it. -/
structure EncodedByName (m : Module) (code : RequestCode) : Prop where
  home : ∃ n entry, Reaches m n ∧ code.request.name = declPath n ++ [entry]
  opcodes : ∀ n entry, code.request.name = declPath n ++ [entry] →
    OpcodesWritten n.isExt code.request code.encoder
  computed : ∀ head? f base value,
    CopiedWithin (some (requestHead code.request)) code.request.fields head? f → f.type = .exprField base value →
    ∃ piece, HiddenCode ["x11", m.className] head? f.name f.type piece ∧ piece <:+: code.encoder

/-- The source file generated from a resolved module holds an encoder for each of its requests, those with
the computed fields of the description among them, and each encoder writes hidden fields by their names. -/
theorem hidden_fields_encoded_by_name (set : ModuleSet) (hset : Compiled set) (root : Element) {m : Module}
    (h : (resolve set root).module? = some m) {headerPath : String} {artifacts : Artifacts}
    (hgenerate : generate m headerPath = .ok artifacts) :
    ∃ codes, artifacts.source = render (sourceLines m codes) ∧ codes.map (·.request) = m.requests ∧
      (∀ code ∈ codes, EncodedByName m code) ∧
      ∀ e ∈ root.children, e.tag = "request" → ∀ x ∈ e.children, x.tag = "exprfield" →
        ∃ code ∈ codes, ∃ d name base value, DeclaredAs m e d ∧ d.request? = some code.request ∧
          x.attr? "name" = some name ∧ ⟨name, .exprField base value, true, false⟩ ∈ code.request.fields := by
  obtain ⟨codes, frame, hrun, hsource⟩ := generate_source hgenerate
  obtain ⟨hrequests, hencoders⟩ := compileRequests_eq_ok hrun
  refine ⟨codes, hsource, hrequests, fun code hcode => ?_, ?_⟩
  · have hmem : code.request ∈ m.requests := hrequests ▸ List.mem_map_of_mem hcode
    obtain ⟨start, last, hencoder⟩ := hencoders code hcode
    refine ⟨path_of_request (resolve_grounded (grounded_of_compiled hset) h) hmem, ?_, ?_⟩
    · -- the path tells whether the request belongs to an extension
      intro n entry hname
      obtain ⟨d, hd, hrequest⟩ := List.mem_filterMap.mp hmem
      obtain ⟨home, other, members, hpath, hlaid⟩ :=
        types_of_resolve (fun _ _ _ _ htype => by cases htype) Accepts.requestLaid hset h d hd _ _ _
          (type_of_request hrequest)
      rw [isExt_of_path (hname.symm.trans hpath)]
      exact opcodesWritten_of_laidOut hlaid hencoder
    · intro head? f base value hcopied htype
      obtain ⟨mid, _, _, body, hout, hbody⟩ := encodeRequest_eq_ok hencoder
      have hall : CopiesAll .encode ["x11", m.className] (some (requestHead code.request))
          code.request.fields body := ⟨_, _, _, rfl, rfl, .inl hbody⟩
      -- the field has statements of its own in the code that copies all fields
      obtain ⟨piece, hpiece, hinfix⟩ := hall.copied hcopied
      refine ⟨piece, hiddenCode_of_exprField htype hcopied.wire hpiece, hinfix.trans ?_⟩
      rw [hout]
      exact (List.suffix_append _ _).isInfix
  · obtain ⟨r, haccepts⟩ := accepts_of_resolve hset (errors_of_resolve h)
    obtain rfl := Option.some.inj (haccepts.resolved.symm.trans h)
    intro e he htag x hx hexpr
    obtain ⟨d, request, name, base, value, hdeclared, hrequest, hmem, hname, hfield⟩ :=
      haccepts.computed he htag hx hexpr
    rw [← hrequests] at hmem
    obtain ⟨code, hcode, rfl⟩ := List.mem_map.mp hmem
    exact ⟨code, hcode, d, name, base, value, hdeclared, hrequest, hname, hfield⟩

def plot : Element :=
  described "request" [("name", "Plot"), ("opcode", "4")]
    [described "field" [("type", "CARD8"), ("name", "count")] [],
      described "exprfield" [("type", "CARD16"), ("name", "total")]
        [described "op" [("op", "+")] [described "fieldref" [] [] "count", described "value" [] [] "1"]]]

def plotting : Element := described "xcb" [("header", "plotting")] [plot]

theorem hidden_fields_encoded_by_name_plotting :
    ∃ m artifacts codes, (resolve .empty plotting).module? = some m ∧ generate m "" = .ok artifacts ∧
      artifacts.source = render (sourceLines m codes) ∧ (∀ code ∈ codes, EncodedByName m code) ∧
      ∃ code ∈ codes, ∃ base value piece,
        HiddenCode ["x11", m.className] (some (requestHead code.request)) "total" (.exprField base value)
          piece ∧ piece <:+: code.encoder := by
  have hgenerated : (resolve .empty plotting).module?.map (fun m => (generate m "").isOk) = some true := by
    decide +kernel
  obtain ⟨m, hm, hok⟩ := Option.map_eq_some_iff.mp hgenerated
  obtain ⟨artifacts, hartifacts⟩ := eq_ok_of_isOk hok
  obtain ⟨codes, hsource, -, hencoded, hcomputed⟩ :=
    hidden_fields_encoded_by_name .empty (.empty 0) plotting hm hartifacts
  obtain ⟨code, hcode, _, _, base, value, -, -, hname, hfield⟩ :=
    hcomputed plot List.mem_cons_self rfl _ (List.mem_cons_of_mem _ List.mem_cons_self) rfl
  obtain rfl := Option.some.inj hname
  obtain ⟨piece, hpiece, hinfix⟩ := (hencoded code hcode).computed _ _ base value (.here hfield rfl) rfl
  exact ⟨m, artifacts, codes, hm, hartifacts, hsource, hencoded, code, hcode, base, value, piece, hpiece,
    hinfix⟩

/-- A request of the core with a member called like the minor opcode, and a computed one called like the
length. -/
def querying : Element :=
  described "xcb" [("header", "querying")]
    [described "request" [("name", "Query"), ("opcode", "5")]
      [described "field" [("type", "CARD8"), ("name", "minor_opcode")] [],
        described "exprfield" [("type", "CARD16"), ("name", "length")] [described "value" [] [] "4"]]]

/-- The encoder of `querying` writes neither the opcode nor the value. -/
theorem header_names_hide_opcode_and_value :
    (resolve .empty querying).module?.bind (fun m =>
      ((compileRequests m.className m.requests).run {}).1.toOption.map (·.map (fromFirstField ·.encoder))) =
      some [majorReserved ++ [.fieldComment "minor_opcode", .copy .encode "minor_opcode", .blank,
        .fieldComment "length", .lengthNote, .reserve "uint16_t", .blank,
        .fieldComment "length", .lengthNote, .reserve "uint16_t", .blank]] := by
  decide +kernel

end CodecGen.Emit
