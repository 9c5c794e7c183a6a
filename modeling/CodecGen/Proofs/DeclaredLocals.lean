import CodecGen.Proofs.CodeLocals
import CodecGen.Proofs.Members
set_option autoImplicit false
/-!
No undeclared locals. The code for a message declares every local that it names exactly when each name
in its expressions is, as it stands, the local of a field in scope or of the size of a list in scope.
A description may refer to a field whose name C++ keeps for itself, or to the size of such a list; the
field then has a local of another name, and the reference has none.
-/
namespace CodecGen.Emit
open Schema Resolve

def messageIngredients (fields : List Field) : List Ingredient :=
  .members fields :: ingredientsIn (boundBy fields) fields

def messageReferences (fields : List Field) : List (Scope × Reference) :=
  (messageIngredients fields).flatMap Ingredient.references

section
variable {dir : Direction} {ns : List String} {object : String} {fields : List Field} {n m : Nat}
  {out : List Stmt}

theorem message_prepares (hnamed : Ingredient.WellNamed (.members fields)) (object : String) (n : Nat) :
    ∃ names, enterAll [[object]] (bindFields object fields ⟨[], n⟩).1 = [names ++ [object]] ∧
      AllDeclared [[object]] (bindFields object fields ⟨[], n⟩).1 ∧
      Ready [] (boundBy fields) [names ++ [object]] ∧
      ∀ x ∈ names, LocalOf (boundBy fields) x ∨ Incidental x := by
  have hobject : Blocks.Has [[object]] object := Blocks.has_cons.mpr (.inl List.mem_cons_self)
  have hnothing : Supplies [[object]] [] := by
    rintro x (⟨f, hf, -⟩ | ⟨f, hf, -⟩) <;> cases hf
  obtain ⟨names, hrun, hdeclared, hsupplies, hnames⟩ :=
    bindFields_prepares (n := n) fields hobject hnothing
  rw [List.append_nil] at hsupplies hnames
  refine ⟨names, hrun, hdeclared, ⟨hsupplies, by simp, by simp, ?_⟩, hnames⟩
  intro f hf
  obtain ⟨hf, hbinds⟩ := mem_boundBy.mp hf
  exact hnamed f hf hbinds

theorem Copies.declares (h : Copies dir ns object fields n out m)
    (hnamed : ∀ i ∈ messageIngredients fields, i.WellNamed ∧ i.Bound)
    (hrefs : ∀ r ∈ messageReferences fields, Answered r) : AllDeclared [[object]] out := by
  obtain ⟨body, rfl, hbody⟩ := h
  rw [messageIngredients, List.forall_mem_cons] at hnamed
  obtain ⟨names, hrun, hdeclared, hready, -⟩ := message_prepares hnamed.1.1 object n
  rw [allDeclared_append, hrun]
  refine ⟨hdeclared, hbody.declares hready hnamed.2 fun i hi r hr => hrefs r ?_⟩
  exact List.mem_flatMap.mpr ⟨i, List.mem_cons_of_mem _ hi, hr⟩

theorem Copies.answers (h : Copies dir ns object fields n out m) (hobject : Incidental object)
    (hnamed : ∀ i ∈ messageIngredients fields, i.WellNamed ∧ i.Bound)
    (hapart : ∀ i ∈ messageIngredients fields, i.Apart)
    (hmeant : ∀ r ∈ messageReferences fields, Meant r) (hdeclared : AllDeclared [[object]] out) :
    ∀ r ∈ messageReferences fields, Answered r := by
  obtain ⟨body, rfl, hbody⟩ := h
  rw [messageIngredients, List.forall_mem_cons] at hnamed hapart
  obtain ⟨names, hrun, -, hready, hnames⟩ := message_prepares hnamed.1.1 object n
  have haccounted : Accounted false [names ++ [object]] (boundBy fields) := by
    intro x hx
    simp only [Blocks.has_cons, List.mem_append, List.mem_singleton] at hx
    rcases hx with (hx | rfl) | ⟨b, hb, -⟩
    · exact (hnames x hx).imp_right .inl
    · exact .inr (.inl hobject)
    · cases hb
  rw [allDeclared_append, hrun] at hdeclared
  have hbodyanswers := hbody.answers hready haccounted hnamed.2 hapart.2
    (fun i hi r hr => hmeant r (List.mem_flatMap.mpr ⟨i, List.mem_cons_of_mem _ hi, hr⟩)) hdeclared.2
  intro r hr
  obtain ⟨i, hi, hr⟩ := List.mem_flatMap.mp hr
  rcases List.mem_cons.mp hi with rfl | hi
  · cases hr
  · exact hbodyanswers i hi r hr

end

theorem bound_hiddenIngredients (s : Scope) (name : String) (type : Ty) :
    ∀ i ∈ hiddenIngredients s name type, i.Bound := by
  unfold hiddenIngredients
  split
  · exact List.forall_mem_nil _
  · refine List.forall_mem_append.mpr ⟨?_, List.forall_mem_singleton.mpr trivial⟩
    split
    · exact List.forall_mem_nil _
    · exact List.forall_mem_singleton.mpr trivial
  · exact List.forall_mem_singleton.mpr trivial

section
variable {m : Module}

mutual

theorem bound_ingredientsIn (hm : Grounded m) (s : Scope) (fields : List Field)
    (hlaid : LaidIn (Anchored m) fields) : ∀ i ∈ ingredientsIn s fields, i.Bound := by
  match fields with
  | [] => exact List.forall_mem_nil _
  | ⟨name, type, wire, visible⟩ :: rest =>
    rw [ingredientsIn, List.forall_mem_append]
    refine ⟨?_, bound_ingredientsIn hm s rest hlaid.2⟩
    cases wire with
    | false => exact List.forall_mem_nil _
    | true =>
      refine List.forall_mem_cons.mpr ⟨trivial, ?_⟩
      cases visible with
      | true => exact bound_ingredientsOf hm s type hlaid.1
      | false => exact bound_hiddenIngredients s name type
termination_by structural fields

theorem bound_ingredientsOf (hm : Grounded m) (s : Scope) (type : Ty)
    (hlaid : Laid (Anchored m) type) : ∀ i ∈ ingredientsOf s type, i.Bound := by
  cases type with
  | container shape t fields =>
    exact List.forall_mem_cons.mpr
      ⟨trivial, bound_ingredientsIn hm _ fields (laidIn_of_anchored hm hlaid)⟩
  | list member count length =>
    refine List.forall_mem_append.mpr ⟨?_, bound_elementIngredients hm s member hlaid⟩
    unfold lengthIngredients
    split
    · split
      · exact List.forall_mem_singleton.mpr trivial
      · exact List.forall_mem_nil _
    · exact List.forall_mem_nil _
  | switch t selector cases =>
    exact List.forall_mem_cons.mpr ⟨trivial, List.forall_mem_cons.mpr
      ⟨trivial, bound_branchIngredients hm _ cases hlaid⟩⟩
  | _ => exact List.forall_mem_nil _
termination_by structural type

theorem bound_elementIngredients (hm : Grounded m) (s : Scope) (type : Ty) (ht : Anchored m type) :
    ∀ i ∈ elementIngredients s type, i.Bound := by
  cases type with
  | container shape t fields =>
    exact List.forall_mem_cons.mpr
      ⟨trivial, bound_ingredientsIn hm _ fields (laidIn_of_anchored hm ht)⟩
  | _ => exact List.forall_mem_nil _
termination_by structural type

theorem bound_branchIngredients (hm : Grounded m) (s : Scope) (cases : List Field)
    (hlaid : LaidBranches (Anchored m) cases) : ∀ i ∈ branchIngredients s cases, i.Bound := by
  match cases with
  | [] => exact List.forall_mem_nil _
  | ⟨name, type, wire, visible⟩ :: rest =>
    cases type with
    | case t byValue byMask selectors fields =>
      obtain ⟨⟨rfl, rfl, hfields⟩, hrest⟩ := hlaid
      rw [branchIngredients, List.forall_mem_append, List.forall_mem_append, List.forall_mem_append]
      refine ⟨⟨⟨?_, ?_⟩, bound_ingredientsIn hm _ fields hfields⟩,
        bound_branchIngredients hm s rest hrest⟩
      · rw [List.forall_mem_map]
        exact fun _ _ => trivial
      · unfold branchIngredient
        split
        · exact List.forall_mem_nil _
        · exact List.forall_mem_cons.mpr ⟨rfl, List.forall_mem_singleton.mpr trivial⟩
    | _ => exact hlaid.1.elim
termination_by structural cases

end

theorem bound_of_mem_requests (hm : Grounded m) {r : Request} (hr : r ∈ m.requests) :
    (∀ i ∈ messageIngredients r.fields, i.Bound) ∧
      ∀ reply ∈ r.reply, ∀ i ∈ messageIngredients reply.fields, i.Bound := by
  have hmessage : ∀ {fields : List Field}, LaidIn (Anchored m) fields →
      ∀ i ∈ messageIngredients fields, i.Bound := fun hlaid =>
    List.forall_mem_cons.mpr ⟨trivial, bound_ingredientsIn hm _ _ hlaid⟩
  obtain ⟨d, hd, hrequest⟩ := List.mem_filterMap.mp hr
  unfold Decl.request? at hrequest
  split at hrequest
  · next opcode name fields htype =>
    obtain rfl := Option.some.inj hrequest
    have hlaid := (hm m .refl).1.fields d hd
    rw [declFields, laidIn_append, htype] at hlaid
    refine ⟨hmessage hlaid.1, fun reply hreply => hmessage ?_⟩
    have hreplyLaid := hlaid.2
    rw [show d.reply = some reply from hreply] at hreplyLaid
    exact hreplyLaid
  · cases hrequest

end

structure MessageCode where
  object : String
  fields : List Field
  stmts : List Stmt

def RequestCode.messages (code : RequestCode) : List MessageCode :=
  ⟨"request", code.request.fields, code.encoder⟩ ::
    match code.request.reply, code.decoder with
    | some reply, some decoder => [⟨"(*reply)", reply.fields, decoder⟩]
    | _, _ => []

theorem fields_of_mem_messages {code : RequestCode} {x : MessageCode} (hx : x ∈ code.messages) :
    x.fields = code.request.fields ∨ ∃ reply ∈ code.request.reply, x.fields = reply.fields := by
  rcases List.mem_cons.mp hx with rfl | hx
  · exact .inl rfl
  · split at hx
    · next reply decoder hreply _ =>
      rw [List.mem_singleton.mp hx]
      exact .inr ⟨reply, hreply, rfl⟩
    · cases hx

theorem CodeOf.copies {className : String} {n m : Nat} {code : RequestCode}
    (h : CodeOf className n code m) {x : MessageCode} (hx : x ∈ code.messages) :
    Incidental x.object ∧ ∃ dir ns n m, Copies dir ns x.object x.fields n x.stmts m := by
  have hrequestObject : Incidental "request" := by decide
  have hreplyObject : Incidental "(*reply)" := by decide
  cases h with
  | request hreply h =>
    rw [RequestCode.messages, hreply, List.mem_singleton] at hx
    subst hx
    exact ⟨hrequestObject, _, _, _, _, h⟩
  | reply hreply h hd =>
    rw [RequestCode.messages, hreply, List.mem_cons, List.mem_singleton] at hx
    rcases hx with rfl | rfl
    · exact ⟨hrequestObject, _, _, _, _, h⟩
    · exact ⟨hreplyObject, _, _, _, _, hd⟩

/-- In the files of every module that is resolved and generated, the code for a message declares all the
locals that it names if each reference of its expressions is, as it stands, the local of a field in
scope or of the size of a list in scope. Otherwise there is a name that nothing declares, unless a
hidden field happens to be called so. -/
theorem generated_locals_declared (set : ModuleSet) (hset : Compiled set) (root : Markup.Element)
    (m : Module) (hm : (resolve set root).module? = some m) (headerPath : String)
    (artifacts : Artifacts) (h : generate m headerPath = .ok artifacts) :
    ∃ codes, artifacts.source = render (sourceLines m codes) ∧ codes.map (·.request) = m.requests ∧
      ∀ code ∈ codes, ∀ x ∈ code.messages, (∀ i ∈ messageIngredients x.fields, i.WellNamed) →
        ((∀ r ∈ messageReferences x.fields, Answered r) → AllDeclared [[x.object]] x.stmts) ∧
        ((∀ r ∈ messageReferences x.fields, Meant r) → (∀ i ∈ messageIngredients x.fields, i.Apart) →
          AllDeclared [[x.object]] x.stmts → ∀ r ∈ messageReferences x.fields, Answered r) := by
  have hgrounded := resolve_grounded (grounded_of_compiled hset) hm
  obtain ⟨codes, next, hrun, hsource⟩ := generate_source h
  obtain ⟨k, -, hrequests, hcodes⟩ :=
    (compileRequests_codesOf m.className m.requests 0).result hrun
  refine ⟨codes, hsource, hrequests, ?_⟩
  intro code hcode x hx hwell
  obtain ⟨n, k, hcodeOf⟩ := hcodes.of_mem hcode
  obtain ⟨hobject, dir, ns, i, j, hcopies⟩ := hcodeOf.copies hx
  have hbranches := bound_of_mem_requests hgrounded (r := code.request)
    (hrequests ▸ List.mem_map_of_mem hcode)
  have hbound : ∀ i ∈ messageIngredients x.fields, i.Bound := by
    rcases fields_of_mem_messages hx with hfields | ⟨reply, hreply, hfields⟩ <;> rw [hfields]
    · exact hbranches.1
    · exact hbranches.2 reply hreply
  have hnamed : ∀ i ∈ messageIngredients x.fields, i.WellNamed ∧ i.Bound :=
    fun i hi => ⟨hwell i hi, hbound i hi⟩
  exact ⟨hcopies.declares hnamed, fun hmeant hapart hdeclared =>
    hcopies.answers hobject hnamed hapart hmeant hdeclared⟩

theorem generated_locals_declared_drawing :
    ∃ m artifacts, (resolve .empty drawing).module? = some m ∧ generate m "" = .ok artifacts ∧
      ∃ codes, artifacts.source = render (sourceLines m codes) ∧
        codes.map (·.request) = m.requests ∧
        ∀ code ∈ codes, ∀ x ∈ code.messages, AllDeclared [[x.object]] x.stmts := by
  let fits (fields : List Field) : Bool := decide ((∀ i ∈ messageIngredients fields, i.WellNamed) ∧
    ∀ r ∈ messageReferences fields, Answered r)
  have hchecks : (resolve .empty drawing).module?.map (fun m => ((generate m "").isOk,
      m.requests.all fun r => fits r.fields && r.reply.all fun reply => fits reply.fields)) =
      some (true, true) := by decide +kernel
  obtain ⟨m, hm, hcheck⟩ := Option.map_eq_some_iff.mp hchecks
  obtain ⟨hok, hfits⟩ := Prod.mk.inj hcheck
  obtain ⟨artifacts, hartifacts⟩ := eq_ok_of_isOk hok
  obtain ⟨codes, hsource, hrequests, hcodes⟩ :=
    generated_locals_declared .empty (.empty 0) drawing m hm "" artifacts hartifacts
  refine ⟨m, artifacts, hm, hartifacts, codes, hsource, hrequests, ?_⟩
  intro code hcode x hx
  have hrequest := List.all_eq_true.mp hfits code.request (hrequests ▸ List.mem_map_of_mem hcode)
  rw [Bool.and_eq_true] at hrequest
  have hx' : fits x.fields = true := by
    rcases fields_of_mem_messages hx with hfields | ⟨reply, hreply, hfields⟩ <;> rw [hfields]
    · exact hrequest.1
    · have hreplies := hrequest.2
      rw [hreply] at hreplies
      exact hreplies
  obtain ⟨hnamed, hanswered⟩ := of_decide_eq_true hx'
  exact (hcodes code hcode x hx hnamed).1 hanswered

def setClass : Markup.Element :=
  described "xcb" [("header", "classes")]
    [described "request" [("name", "SetClass"), ("opcode", "1")]
      [described "list" [("type", "CARD8"), ("name", "class")] []]]

/-- The size of the list is declared under the name made from its local, and read under the one made
from its own name. -/
theorem size_of_reserved_name_undeclared :
    ∃ m artifacts code next, (resolve .empty setClass).module? = some m ∧
      generate m "" = .ok artifacts ∧
      (compileRequests m.className m.requests).run {} = (.ok [code], next) ∧
      (∀ i ∈ messageIngredients code.request.fields, i.WellNamed ∧ i.Apart) ∧
      (∀ r ∈ messageReferences code.request.fields, Meant r) ∧
      .bindLength "c_class_len" "c_class" ∈ code.encoder ∧
      .checkSize "c_class" "class_len" ∈ code.encoder ∧
      ¬ AllDeclared [["request"]] code.encoder := by
  let checks (code : RequestCode) : Bool := decide (
    (∀ i ∈ messageIngredients code.request.fields, i.WellNamed ∧ i.Apart) ∧
    (∀ r ∈ messageReferences code.request.fields, Meant r) ∧
    .bindLength "c_class_len" "c_class" ∈ code.encoder ∧
    .checkSize "c_class" "class_len" ∈ code.encoder ∧ ¬ AllDeclared [["request"]] code.encoder)
  have hchecks : (resolve .empty setClass).module?.map (fun m => ((generate m "").isOk,
      ((compileRequests m.className m.requests).run {}).1.toOption.map (List.map checks))) =
      some (true, some [true]) := by decide +kernel
  obtain ⟨m, hm, hcheck⟩ := Option.map_eq_some_iff.mp hchecks
  obtain ⟨hok, hcodes⟩ := Prod.mk.inj hcheck
  obtain ⟨artifacts, hartifacts⟩ := eq_ok_of_isOk hok
  obtain ⟨codes, hrun, hcodes⟩ := Option.map_eq_some_iff.mp hcodes
  obtain ⟨code, rfl, hcode⟩ := List.map_eq_singleton_iff.mp hcodes
  refine ⟨m, artifacts, code, _, hm, hartifacts, Prod.ext ?_ rfl, of_decide_eq_true hcode⟩
  cases hresult : ((compileRequests m.className m.requests).run {}).1 with
  | error e =>
    rw [hresult] at hrun
    cases hrun
  | ok codes =>
    rw [hresult] at hrun
    cases hrun
    rfl

end CodecGen.Emit
