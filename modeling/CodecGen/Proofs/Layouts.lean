import CodecGen.Proofs.Building
import CodecGen.Proofs.StatedFields
set_option autoImplicit false
/-!
The layout of one message: the header fields of its kind, and the fields that its elements state, in
the order in which they are stated.
-/
namespace CodecGen.Resolve
open Schema Markup

/-- The first member moves into the header; where there is none, a pad byte takes its place. -/
def Slot (members : List Field) (x : Field) (rest : List Field) : Prop :=
  members = x :: rest ∨ members = [] ∧ x = ⟨"pad0", .pad 1 1, true, false⟩ ∧ rest = []

/-- The fields of a message with these members. -/
inductive LaidOut (isExt : Bool) (members : List Field) : Shape → List Field → Prop where
  | struct : LaidOut isExt members .struct members
  | coreRequest {opcode : Int} {x : Field} {rest : List Field} (hcore : isExt = false)
      (hslot : Slot members x rest) :
    LaidOut isExt members (.request opcode)
      ([headerField "major_opcode" card8, x, headerField "length" card16] ++ rest)
  | extRequest {opcode : Int} (hext : isExt = true) :
    LaidOut isExt members (.request opcode)
      ([headerField "major_opcode" card8, headerField "minor_opcode" card8,
        headerField "length" card16] ++ members)
  | reply {x : Field} {rest : List Field} (hslot : Slot members x rest) :
    LaidOut isExt members .reply
      ([headerField "response_type" card8, x, headerField "sequence" card16,
        headerField "length" card32] ++ rest)
  | event {number : Int} {x : Field} {rest : List Field} (hslot : Slot members x rest) :
    LaidOut isExt members (.event number false false)
      ([headerField "response_type" card8, x, headerField "sequence" card16] ++ rest)
  | unnumberedEvent {number : Int} {x : Field} {rest : List Field} (hslot : Slot members x rest) :
    LaidOut isExt members (.event number true false) ([headerField "response_type" card8, x] ++ rest)
  | genericEvent {number : Int} {noSequence : Bool} :
    LaidOut isExt members (.event number noSequence true)
      ([headerField "response_type" card8, headerField "extension" card8,
        headerField "sequence" card16, headerField "length" card32,
        headerField "event_type" card16] ++ members)
  | error {number : Int} :
    LaidOut isExt members (.error number)
      ([headerField "response_type" card8, headerField "error_code" card8,
        headerField "sequence" card16] ++ members)

section
variable {isExt : Bool} {members : List Field}

theorem slot_headD_tail (members : List Field) :
    Slot members (members.headD placeholder) members.tail := by
  cases members with
  | nil => exact .inr ⟨rfl, rfl, rfl⟩
  | cons f rest => exact .inl rfl

theorem laidOut_request (isExt : Bool) (members : List Field) (opcode : Int) :
    LaidOut isExt members (.request opcode) (requestLayout isExt members) := by
  rw [requestLayout_eq]
  cases isExt with
  | false => exact .coreRequest rfl (slot_headD_tail members)
  | true => exact .extRequest rfl

theorem laidOut_reply (isExt : Bool) (members : List Field) :
    LaidOut isExt members .reply (replyLayout members) := by
  rw [replyLayout_eq]
  exact .reply (slot_headD_tail members)

theorem laidOut_event (isExt : Bool) (members : List Field) (number : Int) (noSequence xge : Bool) :
    LaidOut isExt members (.event number noSequence xge) (eventLayout noSequence xge members) := by
  rw [eventLayout_eq]
  cases xge with
  | true => exact .genericEvent
  | false =>
    cases noSequence with
    | false => exact .event (slot_headD_tail members)
    | true => exact .unnumberedEvent (slot_headD_tail members)

theorem laidOut_error (isExt : Bool) (members : List Field) (number : Int) :
    LaidOut isExt members (.error number) (errorLayout members) := by
  rw [errorLayout_eq]
  exact .error

theorem replaceInFields_eq_map (f : Kind → Name → Ty) (fields : List Field) :
    replaceInFields f fields = fields.map fun g => { g with type := replaceMentions f g.type } := by
  induction fields with
  | nil => rfl
  | cons g rest ih => rw [replaceInFields_cons, ih, List.map_cons]

theorem slot_replace (f : Kind → Name → Ty) {x : Field} {rest : List Field} (h : Slot members x rest) :
    Slot (replaceInFields f members) { x with type := replaceMentions f x.type }
      (replaceInFields f rest) := by
  rcases h with rfl | ⟨rfl, rfl, rfl⟩
  · exact .inl (replaceInFields_cons f x rest)
  · exact .inr ⟨rfl, rfl, rfl⟩

theorem laidOut_replace (f : Kind → Name → Ty) {shape : Shape} {fields : List Field}
    (h : LaidOut isExt members shape fields) :
    LaidOut isExt (replaceInFields f members) shape (replaceInFields f fields) := by
  have happend (fields more : List Field) :
      replaceInFields f (fields ++ more) = replaceInFields f fields ++ replaceInFields f more := by
    simp only [replaceInFields_eq_map, List.map_append]
  cases h with
  | struct => exact .struct
  | coreRequest hcore hslot =>
    rw [happend, replaceInFields_eq_map f [_, _, _]]
    exact .coreRequest hcore (slot_replace f hslot)
  | extRequest hext =>
    rw [happend]
    exact .extRequest hext
  | reply hslot =>
    rw [happend, replaceInFields_eq_map f [_, _, _, _]]
    exact .reply (slot_replace f hslot)
  | event hslot =>
    rw [happend, replaceInFields_eq_map f [_, _, _]]
    exact .event (slot_replace f hslot)
  | unnumberedEvent hslot =>
    rw [happend, replaceInFields_eq_map f [_, _]]
    exact .unnumberedEvent (slot_replace f hslot)
  | genericEvent =>
    rw [happend]
    exact .genericEvent
  | error =>
    rw [happend]
    exact .error

end

def declaresMessage (e : Element) : Bool :=
  ["struct", "union", "request", "event", "error"].contains e.tag

def ShapeOf (e : Element) : Shape → Prop
  | .struct => e.tag = "struct"
  | .request _ => e.tag = "request"
  | .reply => False
  | .event _ noSequence xge => e.tag = "event" ∧
      noSequence = (e.attrD "no-sequence-number" "" == "true") ∧ xge = (e.attrD "xge" "" == "true")
  | .error _ => e.tag = "error"

def placeOf (name : Name) (e : Element) : Place :=
  { parent := name, inRequest := e.tag == "request", mayReply := e.tag == "request" }

def ReplyFor (isExt : Bool) (env : Env) (T : Target → Ty → Prop) (name : Name) (e : Element) :
    Option Reply → Prop
  | none => e.elements "reply" = []
  | some reply => ∃ answer members, (e.elements "reply").getLast? = some answer ∧
      FieldsFor env T { parent := name } 0 answer.children members ∧
      reply.name = name ∧ LaidOut isExt members .reply reply.fields

/-- The declaration that an element stands for. -/
inductive MessageFor (isExt : Bool) (env : Env) (T : Target → Ty → Prop) (name : Name) (e : Element) :
    Decl → Prop where
  | union {members : List Field} (htag : e.tag = "union")
      (hmembers : FieldsFor env T (placeOf name e) 0 e.children members) :
    MessageFor isExt env T name e ⟨name, .union name members, none⟩
  | container {shape : Shape} {members fields : List Field} {reply : Option Reply}
      (hshape : ShapeOf e shape) (hmembers : FieldsFor env T (placeOf name e) 0 e.children members)
      (hfields : LaidOut isExt members shape fields) (hreply : ReplyFor isExt env T name e reply) :
    MessageFor isExt env T name e ⟨name, .container shape name fields, reply⟩

section
variable {isExt : Bool} {env : Env}

def ReplyStated (env : Env) (place : Place) (e : Element) (fields : List Field) : Prop :=
  place.mayReply = true ∧ ∃ members,
    FieldsFor env Mentions { parent := place.parent } 0 e.children members ∧ fields = replyLayout members

theorem resolveMember_reply {place : Place} {pads : Nat} {e : Element} (htag : e.tag = "reply")
    (h : (resolveMember env place pads e).errors = []) :
    ∃ fields, (resolveMember env place pads e).value = some (.reply fields) ∧
      ReplyStated env place e fields := by
  obtain ⟨tag, attrs, text, children, span⟩ := e
  obtain rfl : tag = "reply" := htag
  have hmember : resolveMember env place pads ⟨"reply", attrs, text, children, span⟩ =
      if place.mayReply then do
        let members ← resolveMembers env { parent := place.parent } 0 children
        return some (.reply (replyLayout (members.filterMap Member.field?)))
      else refuse (.replyOutsideRequest place.parent.text) span := by
    rw [resolveMember]
  rw [hmember] at h ⊢
  split
  · next hmay =>
    rw [if_pos hmay, Noted.errors_bind_eq_nil] at h
    exact ⟨_, rfl, hmay, _, resolveMembers_stated _ 0 children h.1, rfl⟩
  · next hmay =>
    rw [if_neg hmay] at h
    cases h

theorem resolveMember_other {place : Place} {pads : Nat} {e : Element} (hstates : statesField e = false)
    (htag : e.tag ≠ "reply") : (resolveMember env place pads e).value = none := by
  obtain ⟨tag, attrs, text, children, span⟩ := e
  unfold resolveMember
  dsimp only
  split
  case h_7 => exact absurd rfl htag
  case h_8 => split <;> rfl
  all_goals cases hstates

theorem resolveMembers_replies (place : Place) (pads : Nat) (es : List Element)
    (h : (resolveMembers env place pads es).errors = []) :
    List.Forall₂ (ReplyStated env place) (es.filter (·.tag == "reply"))
      ((resolveMembers env place pads es).value.filterMap Member.reply?) := by
  induction es generalizing pads with
  | nil =>
    rw [resolveMembers]
    exact .nil
  | cons e rest ih =>
    unfold resolveMembers at h ⊢
    split
    · next hskip =>
      rw [if_pos hskip] at h
      -- only selectors are passed over
      have htag : e.tag ≠ "reply" := fun htag => by
        have hexpression := (Bool.and_eq_true_iff.mp hskip).2
        rw [isExpression, htag] at hexpression
        cases hexpression
      rw [List.filter_cons_of_neg (by simp [htag])]
      exact ih pads h
    · next hskip =>
      rw [if_neg hskip, Noted.errors_bind_eq_nil, Noted.errors_bind_eq_nil] at h
      rw [Noted.value_bind, Noted.value_bind, Noted.value_pure, List.filterMap_append]
      have hrest := ih _ h.2.1
      by_cases htag : e.tag = "reply"
      · obtain ⟨fields, hvalue, hstated⟩ := resolveMember_reply htag h.1
        rw [hvalue, List.filter_cons_of_pos (by simp [htag])]
        exact .cons hstated hrest
      · rw [List.filter_cons_of_neg (by simp [htag])]
        cases hstates : statesField e with
        | true =>
          obtain ⟨_, hvalue, f, rfl, -⟩ := resolveMember_stated place pads e hstates h.1
          rw [hvalue]
          exact hrest
        | false =>
          rw [resolveMember_other hstates htag]
          exact hrest

theorem replyFor_of_members {place : Place} {e : Element} {replies : List (List Field)}
    (h : List.Forall₂ (ReplyStated env place) (e.elements "reply") replies) :
    ReplyFor isExt env Mentions place.parent e
      (replies.getLast?.map fun fields => ⟨place.parent, fields⟩) := by
  -- Of several replies the last one counts, so both lists are read from their ends.
  have hreverse := List.forall₂_reverse_iff.mpr h
  rw [List.getLast?_eq_head?_reverse]
  generalize replies.reverse = reversed at hreverse
  generalize hanswers : (e.elements "reply").reverse = answers at hreverse
  cases hreverse with
  | nil => exact List.reverse_eq_nil_iff.mp hanswers
  | cons hlast _ =>
    obtain ⟨-, members, hmembers, rfl⟩ := hlast
    refine ⟨_, members, ?_, hmembers, rfl, laidOut_reply isExt members⟩
    rw [List.getLast?_eq_head?_reverse, hanswers, List.head?_cons]

theorem no_replies {place : Place} {e : Element} {replies : List (List Field)}
    (h : List.Forall₂ (ReplyStated env place) (e.elements "reply") replies)
    (hplace : place.mayReply = false) : e.elements "reply" = [] := by
  cases hes : e.elements "reply" with
  | nil => rfl
  | cons first rest =>
    rw [hes] at h
    cases h with
    | cons hfirst _ => exact absurd hfirst.1 (by simp [hplace])

end

end CodecGen.Resolve
