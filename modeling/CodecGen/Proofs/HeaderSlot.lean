import CodecGen.Proofs.CopiedFields
set_option autoImplicit false
/-!
The byte behind the first header field. Core requests, replies and events keep a byte of the header for
their first member, or for a pad where they have none. A file descriptor is a member that is not on the
wire, so a message whose elements state one before anything else has no such byte, and what follows it
in the header moves forward.
-/
namespace CodecGen.Resolve
open Schema Markup

def descriptorFirst (es : List Element) : Bool := (es.find? statesField).any (·.tag == "fd")

/-- The field behind the first header field and in front of the header fields `after`. It is on the wire
unless the elements state a file descriptor first, and then one field less is in front of the others. -/
structure HeaderSlot (es : List Element) (after fields : List Field) : Prop where
  laid : ∃ first slot rest, fields = first :: slot :: (after ++ rest)
  onWire_iff : ∀ slot, fields[1]? = some slot → (slot.wire = true ↔ descriptorFirst es = false)
  before : ((fields.take 2).filter (·.wire)).length = if descriptorFirst es then 1 else 2
  header : ∀ f ∈ after, f.wire = true

section
variable {env : Env} {T : Target → Ty → Prop} {place : Place} {pads : Nat}

theorem wire_of_fieldFor {e : Element} {f : Field} (h : FieldFor env T place pads e f) :
    statesField e = true ∧ f.wire = !(e.tag == "fd") := by
  cases h with
  | pad htag | plain htag | descriptor htag | list htag | computed htag | switch htag =>
    rw [statesField, htag]
    exact ⟨rfl, rfl⟩

theorem wire_of_first {es : List Element} {members : List Field}
    (h : FieldsFor env T place pads es members) :
    (members.headD placeholder).wire = !descriptorFirst es := by
  induction es generalizing pads members with
  | nil =>
    cases h
    rfl
  | cons e rest ih =>
    cases h with
    | stated hf hrest =>
      obtain ⟨hstates, hwire⟩ := wire_of_fieldFor hf
      rw [descriptorFirst, List.find?_cons_of_pos hstates]
      exact hwire
    | other hnone hrest =>
      rw [descriptorFirst, List.find?_cons_of_neg (by simp [hnone])]
      exact ih hrest

theorem slot_eq {members rest : List Field} {x : Field} (h : Slot members x rest) :
    x = members.headD placeholder := by
  rcases h with rfl | ⟨rfl, rfl, -⟩
  · rfl
  · rfl

theorem headerSlot_of_slot {es : List Element} {members rest after : List Field} {first x : Field}
    (h : FieldsFor env T place pads es members) (hslot : Slot members x rest)
    (hfirst : first.wire = true) (hafter : ∀ f ∈ after, f.wire = true) :
    HeaderSlot es after (first :: x :: (after ++ rest)) := by
  have hwire : x.wire = !descriptorFirst es := by rw [slot_eq hslot, wire_of_first h]
  refine ⟨⟨first, x, rest, rfl⟩, ?_, ?_, hafter⟩
  · intro slot hslot
    obtain rfl := Option.some.inj hslot
    rw [hwire, Bool.not_eq_true']
  · cases hfd : descriptorFirst es <;> simp [hfirst, hwire, hfd]

end

section
variable {env : Env} {T : Target → Ty → Prop} {isExt : Bool} {name : Name} {e : Element} {d : Decl}

theorem container_of_messageFor (h : MessageFor isExt env T name e d) (htag : e.tag ≠ "union") :
    ∃ shape members fields reply, d = ⟨name, .container shape name fields, reply⟩ ∧ ShapeOf e shape ∧
      FieldsFor env T (placeOf name e) 0 e.children members ∧ LaidOut isExt members shape fields ∧
      ReplyFor isExt env T name e reply := by
  cases h with
  | union hunion => exact absurd hunion htag
  | container hshape hmembers hfields hreply => exact ⟨_, _, _, _, rfl, hshape, hmembers, hfields, hreply⟩

theorem shape_of_request {shape : Shape} (h : ShapeOf e shape) (htag : e.tag = "request") :
    ∃ opcode, shape = .request opcode := by
  cases shape with
  | request opcode => exact ⟨opcode, rfl⟩
  | reply => exact h.elim
  | struct | error => exact absurd (htag.symm.trans h) (by decide)
  | event => exact absurd (htag.symm.trans h.1) (by decide)

theorem shape_of_event {shape : Shape} (h : ShapeOf e shape) (htag : e.tag = "event") :
    ∃ number, shape = .event number (e.attrD "no-sequence-number" "" == "true")
      (e.attrD "xge" "" == "true") := by
  cases shape with
  | event number noSequence xge =>
    obtain ⟨-, rfl, rfl⟩ := h
    exact ⟨number, rfl⟩
  | reply => exact h.elim
  | struct | error | request => exact absurd (htag.symm.trans h) (by decide)

theorem headerSlot_of_request (h : MessageFor isExt env T name e d) (htag : e.tag = "request") :
    d.type.kind = .request ∧
      (isExt = false → HeaderSlot e.children [headerField "length" card16] (ownFields d.type)) := by
  obtain ⟨shape, members, fields, reply, rfl, hshape, hmembers, hfields, -⟩ :=
    container_of_messageFor h (by simp [htag])
  obtain ⟨opcode, rfl⟩ := shape_of_request hshape htag
  refine ⟨rfl, fun hcore => ?_⟩
  cases hfields with
  | coreRequest _ hslot => exact headerSlot_of_slot hmembers hslot rfl (by simp [headerField])
  | extRequest hext => exact absurd (hcore.symm.trans hext) Bool.false_ne_true

theorem headerSlot_of_reply (h : MessageFor isExt env T name e d) (htag : e.tag = "request")
    {answer : Element} (hanswer : (e.elements "reply").getLast? = some answer) :
    ∃ reply, d.reply = some reply ∧
      HeaderSlot answer.children [headerField "sequence" card16, headerField "length" card32]
        reply.fields := by
  obtain ⟨shape, -, fields, reply, rfl, -, -, -, hreply⟩ := container_of_messageFor h (by simp [htag])
  cases reply with
  | none =>
    have hnone : e.elements "reply" = [] := hreply
    rw [hnone] at hanswer
    cases hanswer
  | some reply =>
    obtain ⟨last, members, hlast, hmembers, -, hfields⟩ := hreply
    obtain rfl := Option.some.inj (hanswer.symm.trans hlast)
    refine ⟨reply, rfl, ?_⟩
    generalize reply.fields = fields at hfields ⊢
    cases hfields with
    | reply hslot => exact headerSlot_of_slot hmembers hslot rfl (by simp [headerField])

def eventHeader (e : Element) : List Field :=
  if e.attrD "no-sequence-number" "" == "true" then [] else [headerField "sequence" card16]

theorem headerSlot_of_event (h : MessageFor isExt env T name e d) (htag : e.tag = "event")
    (hxge : e.attrD "xge" "" ≠ "true") :
    d.type.kind = .event ∧ HeaderSlot e.children (eventHeader e) (ownFields d.type) := by
  obtain ⟨shape, members, fields, reply, rfl, hshape, hmembers, hfields, -⟩ :=
    container_of_messageFor h (by simp [htag])
  obtain ⟨number, rfl⟩ := shape_of_event hshape htag
  refine ⟨rfl, ?_⟩
  rw [beq_eq_false_iff_ne.mpr hxge] at hfields
  unfold eventHeader
  generalize (e.attrD "no-sequence-number" "" == "true") = noSequence at hfields ⊢
  cases hfields with
  | event hslot => exact headerSlot_of_slot hmembers hslot rfl (by simp [headerField])
  | unnumberedEvent hslot => exact headerSlot_of_slot hmembers hslot rfl (by simp)

end

section
variable {r : Registered}

theorem Draws.source_of_copy (h : Draws r) {target : Target} (hoffered : Offered r.env target)
    (hkind : (target.typeIn r.module).kind = .event) :
    ∃ s, (s ∈ r.module.decls ∨ ∃ i ∈ r.imports, s ∈ i.module.decls) ∧
      s.type = target.typeIn r.module := by
  have hfrom : TargetFrom r.imports r.registry.pending target :=
    offered_from r.env h.registers.targets hoffered
  cases hfrom with
  | scalar => cases hkind
  | @imported i s hi hs => exact ⟨s, .inr ⟨i, hi, hs⟩, rfl⟩
  | own hown =>
    obtain ⟨s, hs, rfl, rfl⟩ := h.draft hown
    exact ⟨spelledDraft r s, .inl hs.decl, (h.typeIn_own hs _).symm⟩

theorem Accepts.copied_event {set : ModuleSet} {root : Element} (h : Accepts set root r) {e : Element}
    (he : e ∈ root.children) (htag : e.tag = "eventcopy") :
    ∃ d, DeclaredAs r.module e d ∧ d.type.kind = .event ∧
      (ownFields d.type = [] ∨ ∃ s, (s ∈ r.module.decls ∨ ∃ n ∈ set.modules, s ∈ n.decls) ∧
        s.type.kind = .event ∧ ownFields d.type = ownFields s.type) := by
  have hcopy : isCopy e = true := by simp [isCopy, htag]
  have hevent : copiedKind e = .event := by simp [copiedKind, htag]
  obtain ⟨env, herrors, hregistry⟩ := h.registry
  obtain ⟨before, after, hchildren⟩ := List.append_of_mem he
  rw [hchildren] at herrors
  obtain ⟨name, shape, earlier, later, hname, hkind, hpending, -⟩ := registerAll_split hcopy herrors
  rw [← hchildren, ← hregistry] at hpending
  rw [hevent] at hkind
  obtain ⟨ref, target, index, d, -, hlookup, hd, hcalled, hcopied⟩ :=
    h.draws.copy h.contents hpending hcopy rfl (.inl hkind)
  rw [hkind] at hcopied
  refine ⟨d, ⟨name, hname, find?_of_mem h.draws.origins hd hcalled⟩, hcopied.same, ?_⟩
  by_cases hsource : (target.typeIn r.module).kind = .event ∧ ¬ Below later target
  · obtain ⟨s, hs, htype⟩ := h.draws.source_of_copy ⟨ref, index, hlookup⟩ hsource.1
    have hshared := hcopied.shared hsource.1 hsource.2
    refine .inr ⟨s, hs.imp_right ?_, by rw [htype]; exact hsource.1, by rw [hshared, htype]⟩
    rintro ⟨i, hi, hs⟩
    exact ⟨i.module, h.imports i hi, hs⟩
  · refine .inl (hcopied.nothing ?_)
    rwa [not_and_or, Classical.not_not] at hsource

theorem Accepts.message {set : ModuleSet} {root : Element} (h : Accepts set root r) {e : Element}
    (he : e ∈ root.children) (hdeclares : declaresMessage e = true) :
    ∃ name d, DeclaredAs r.module e d ∧
      MessageFor r.head.isExt r.env (Stands r.module) (declPath r.head ++ [name]) e d := by
  obtain ⟨env, herrors, hregistry⟩ := h.registry
  obtain ⟨name, head, hname, hhead, hpending⟩ := registerAll_awaits herrors he hdeclares
  rw [← hregistry] at hpending
  obtain ⟨d, hd, hmessage⟩ := h.draws.message h.contents hdeclares hhead hpending
  have hfind := find?_of_mem h.draws.origins hd (name_of_messageFor hmessage)
  exact ⟨name, d, ⟨name, hname, hfind⟩, hmessage⟩

theorem tag_of_head_message {e : Element} {head : Noted Head} (h : head? e = some head)
    (hkind : head.value.kind = .request ∨ head.value.kind = .event) :
    ["request", "event", "eventcopy"].contains e.tag = true := by
  unfold head? at h
  split at h
  case h_4 htag | h_5 htag | h_6 htag =>
    rw [htag]
    rfl
  case h_9 => cases h
  -- The other elements declare no requests and no events.
  all_goals
    cases h
    rcases hkind with hkind | hkind <;> cases hkind

end

/-- Resolution without errors gives a module in which every core request, every reply and every event
that is not generic has a header slot, which is on the wire exactly if no file descriptor is the first
thing that the elements of the message state. A copied event has the fields of another event or none.
All other requests and events of the module are these by another name or belong to modules of the set. -/
theorem header_slot_on_wire_iff (set : ModuleSet) (hset : Compiled set) (root : Element)
    (h : (resolve set root).errors = []) :
    ∃ m, (resolve set root).module? = some m ∧
      (∀ e ∈ root.children, e.tag = "request" → ∃ d, DeclaredAs m e d ∧ d.type.kind = .request ∧
        (m.isExt = false → HeaderSlot e.children [headerField "length" card16] (ownFields d.type)) ∧
        ∀ answer, (e.elements "reply").getLast? = some answer → ∃ reply, d.reply = some reply ∧
          HeaderSlot answer.children [headerField "sequence" card16, headerField "length" card32]
            reply.fields) ∧
      (∀ e ∈ root.children, e.tag = "event" → e.attrD "xge" "" ≠ "true" → ∃ d, DeclaredAs m e d ∧
        d.type.kind = .event ∧ HeaderSlot e.children (eventHeader e) (ownFields d.type)) ∧
      (∀ e ∈ root.children, e.tag = "eventcopy" → ∃ d, DeclaredAs m e d ∧ d.type.kind = .event ∧
        (ownFields d.type = [] ∨ ∃ s, (s ∈ m.decls ∨ ∃ n ∈ set.modules, s ∈ n.decls) ∧
          s.type.kind = .event ∧ ownFields d.type = ownFields s.type)) ∧
      ∀ d ∈ m.decls, d.type.kind = .request ∨ d.type.kind = .event →
        (∃ e ∈ root.children, ["request", "event", "eventcopy"].contains e.tag = true ∧
          ∃ s, DeclaredAs m e s ∧ s.type = d.type ∧ s.reply = d.reply) ∨
        ∃ n ∈ set.modules, ∃ s ∈ n.decls, s.type = d.type ∧ s.reply = d.reply := by
  obtain ⟨r, haccepts⟩ := accepts_of_resolve hset h
  refine ⟨r.module, haccepts.resolved, ?_, ?_, fun e he htag => haccepts.copied_event he htag, ?_⟩
  · intro e he htag
    obtain ⟨name, d, hdeclared, hmessage⟩ := haccepts.message he (by simp [declaresMessage, htag])
    obtain ⟨hkind, hslot⟩ := headerSlot_of_request hmessage htag
    exact ⟨d, hdeclared, hkind, hslot, fun answer hanswer => headerSlot_of_reply hmessage htag hanswer⟩
  · intro e he htag hxge
    obtain ⟨name, d, hdeclared, hmessage⟩ := haccepts.message he (by simp [declaresMessage, htag])
    exact ⟨d, hdeclared, headerSlot_of_event hmessage htag hxge⟩
  · intro d hd hkind
    -- an alias has the type of what it stands for
    rcases haccepts.described hd with hsimple | ⟨e, he, head, s, hhead, hsame, hs⟩ | himported
    · rw [hsimple] at hkind
      rcases hkind with hkind | hkind <;> cases hkind
    · rw [← hsame] at hkind
      exact .inl ⟨e, he, tag_of_head_message hhead hkind, s, hs⟩
    · exact .inr himported

def descriptor (name : String) : Element := described "fd" [("name", name)] []

def attach : Element :=
  described "request" [("name", "Attach"), ("opcode", "1")]
    [described "field" [("type", "CARD8"), ("name", "mode")] [], descriptor "segment",
      described "reply" [] [descriptor "event", described "pad" [("bytes", "24")] []]]

def attached : Element := described "event" [("name", "Attached"), ("number", "3")] []

def memory : Element := described "xcb" [("header", "memory")] [attach, attached]

theorem header_slot_on_wire_iff_memory :
    (resolve .empty memory).errors = [] ∧
    ∃ m request event reply, (resolve .empty memory).module? = some m ∧
      m.find? "Attach" = some request ∧ request.reply = some reply ∧
      m.find? "Attached" = some event ∧
      HeaderSlot attach.children [headerField "length" card16] (ownFields request.type) ∧
      HeaderSlot [descriptor "event", described "pad" [("bytes", "24")] []]
        [headerField "sequence" card16, headerField "length" card32] reply.fields ∧
      HeaderSlot [] [headerField "sequence" card16] (ownFields event.type) := by
  have herrors : (resolve .empty memory).errors = [] := by decide +kernel
  have hcore : (resolve .empty memory).module?.map (·.isExt) = some false := by decide +kernel
  obtain ⟨m, hm, hrequests, hevents, -, -⟩ := header_slot_on_wire_iff .empty (.empty 0) memory herrors
  rw [hm] at hcore
  obtain ⟨request, ⟨_, hname, hrequest⟩, -, hslot, hreplies⟩ :=
    hrequests attach List.mem_cons_self rfl
  obtain rfl := Option.some.inj hname
  obtain ⟨reply, hreply, hanswer⟩ := hreplies _ rfl
  obtain ⟨event, ⟨_, hname, hevent⟩, -, hsequence⟩ :=
    hevents attached (List.mem_cons_of_mem _ List.mem_cons_self) rfl (by decide)
  obtain rfl := Option.some.inj hname
  exact ⟨herrors, m, request, event, reply, hm, hrequest, hreply, hevent,
    hslot (Option.some.inj hcore), hanswer, hsequence⟩

/-- A request whose only member is a file descriptor. -/
def detaching : Element :=
  described "xcb" [("header", "detaching")]
    [described "request" [("name", "Detach"), ("opcode", "2")] [descriptor "segment"]]

/-- The length of the request in `detaching` is behind one field of the wire only. -/
theorem descriptor_takes_header_slot :
    (resolve .empty detaching).errors = [] ∧
    (resolve .empty detaching).module?.map (·.decls.map fun d =>
      (ownFields d.type).map fun f => (f.name, f.wire)) =
      some [[("major_opcode", true), ("segment", false), ("length", true)]] := by
  decide +kernel

end CodecGen.Resolve
