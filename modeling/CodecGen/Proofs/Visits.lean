import CodecGen.Proofs.Accounts
set_option autoImplicit false
/-!
What encoders and decoders take apart. Copying a message binds its members, and so it does with the
messages, switches and named branches met inside, each as a block of its own. Summing a list up binds the
members of its elements once more. Whatever is taken apart can also be declared.
-/
namespace CodecGen.Emit
open Schema

def Part.declarable : Part → Bool
  | message _ _ fields | branch fields => declarableIn fields
  | switch cases => declarableBranches cases

/-- What was copied is accounted for, and what was visited on the way can be declared. -/
structure Copied (whole visits : List Block) (fits : Bool) (out : List Stmt) : Prop where
  accounts : Accounts whole visits out
  fits : fits = true
  parts : ∀ b ∈ visits, b.part.declarable = true

theorem Copied.nothing {whole : List Block} {out : List Stmt} (h : Accounts whole [] out) :
    Copied whole [] true out := ⟨h, rfl, by simp⟩

section
variable {whole : List Block}

theorem Copied.of_accesses_eq {visits : List Block} {fits : Bool} {out rest : List Stmt}
    (h : Copied whole visits fits out) (heq : accesses rest = accesses out) :
    Copied whole visits fits rest := ⟨h.accounts.of_accesses_eq heq, h.fits, h.parts⟩

theorem Copied.append {visits more : List Block} {fits others : Bool} {out rest : List Stmt}
    (h : Copied whole visits fits out) (hrest : Copied whole more others rest) :
    Copied whole (visits ++ more) (fits && others) (out ++ rest) where
  accounts := h.accounts.append hrest.accounts
  fits := by rw [h.fits, hrest.fits]; rfl
  parts := List.forall_mem_append.mpr ⟨h.parts, hrest.parts⟩

theorem withFields_copied (hclosed : Closed whole) (b : Block) (visits : List Block)
    {body : Emission (List Stmt)} {s : Scope} (hs : Known whole s) (hb : b ∈ whole)
    (h : ∀ t, Known whole t → Ensures t (Copied whole visits b.part.declarable) AnyFault body) :
    Ensures s (fun p => Copied whole (b :: visits) b.part.declarable (p.1 ++ p.2)) AnyFault
      (withFields b.object b.part.bound body) := by
  have hknown : Known whole (boundBy b.part.bound ++ s) := (hclosed b hb).append hs
  refine (Ensures.withFields (h _ hknown)).mono ?_ fun _ => id
  rintro ⟨_, body⟩ ⟨⟨k, rfl⟩, hbody⟩
  refine ⟨(Accounts.bindings (.visited hb) ⟨s, k⟩).append hbody.accounts, hbody.fits, ?_⟩
  exact List.forall_mem_cons.mpr ⟨hbody.fits, hbody.parts⟩

theorem withBranch_copied (hclosed : Closed whole) {name : String} {fields : List Field}
    {visits : List Block} {body : Emission (List Stmt)} {s : Scope} (hs : Known whole s)
    (hsub : branchBlock name fields ⊆ whole)
    (h : ∀ t, Known whole t → Ensures t (Copied whole visits (declarableIn fields)) AnyFault body) :
    Ensures s (fun p => Copied whole (branchBlock name fields ++ visits) (declarableIn fields)
      (p.1 ++ p.2)) AnyFault (withBranch name fields body) := by
  unfold branchBlock at hsub ⊢
  unfold withBranch
  split
  · next hname => exact (h s hs).map fun out hout => hout
  · next hname =>
    rw [if_neg hname] at hsub
    exact withFields_copied hclosed ⟨safeName name, .branch fields⟩ visits hs (hsub List.mem_cons_self) h

theorem copyBranch_copied (hclosed : Closed whole) {name : String} {n : Name} {byValue byMask : Bool}
    {selectors : List Expr} {fields : List Field} {wire visible : Bool} {site : Site} (selector : String)
    {s : Scope} (hs : Known whole s) (hsub : branchBlock name fields ⊆ whole)
    (h : ∀ t, Known whole t → Ensures t (Copied whole (visitFields fields) (declarableIn fields))
      AnyFault (copyBranchFields (site.at name) fields)) :
    Ensures s (Copied whole (branchBlock name fields ++ visitFields fields)
        ((byValue != byMask) && declarableIn fields)) AnyFault
      (copyBranch site selector ⟨name, .case n byValue byMask selectors fields, wire, visible⟩) := by
  rw [copyBranch]
  refine .bind (.lift (holds_of_ok fun _ h => ((checkCase_yields _ byValue byMask).eq_ok h).1)) ?_
  intro _ hcase
  dsimp only
  split
  · exact .bind (.fail trivial) fun _ (h : False) => h.elim
  refine .bind (compileConditions_apart hclosed _ _ selector selectors hs) fun p hp => ?_
  refine .bind (withBranch_copied hclosed hs hsub h) fun q hq => .pure ?_
  refine ⟨(hp.append hq.accounts).of_accesses_eq ?_, by rw [hcase, hq.fits]; rfl, hq.parts⟩
  simp [Stmt.access?]

-- The induction follows the copying. It is carried by the scope: whatever list can be summed up inside
-- has elements that are visited, since its message has been bound on the way.
mutual

theorem copyField_copied (hclosed : Closed whole) (f : Field) (site : Site)
    (head? : Option RequestHead) {s : Scope} (hs : Known whole s)
    (hsub : (if f.visible then visitValue (safeName f.name) f.type else []) ⊆ whole) :
    Ensures s (Copied whole (if f.visible then visitValue (safeName f.name) f.type else [])
      (!f.visible || declarable f.type)) AnyFault (copyField site head? f) := by
  match f with
  | ⟨name, type, wire, visible⟩ =>
    rw [copyField_eq]
    refine .map (Q := Copied whole (if visible then visitValue (safeName name) type else [])
      (!visible || declarable type)) ?_ fun out hout => hout.of_accesses_eq rfl
    cases visible with
    | true =>
      cases type with
      | pad bytes align => exact (copyPad_apart _ bytes align s).mono (fun _ => .nothing) fun _ => id
      | _ => exact copyValue_copied hclosed _ _ (safeName name) hs hsub
    | false =>
      cases type with
      | pad bytes align => exact (copyPad_apart _ bytes align s).mono (fun _ => .nothing) fun _ => id
      | _ =>
        exact (copyHidden_apart hclosed _ head? (safeName name) _ hs).mono (fun _ => .nothing) fun _ => id
termination_by structural f

theorem copyValue_copied (hclosed : Closed whole) (type : Ty) (site : Site) (name : String) {s : Scope}
    (hs : Known whole s) (hsub : visitValue name type ⊆ whole) :
    Ensures s (Copied whole (visitValue name type) (declarable type)) AnyFault
      (copyValue site name type) := by
  cases type with
  | container shape n fields =>
    obtain ⟨hmem, hfields⟩ := List.cons_subset.mp hsub
    refine .bind (withFields_copied hclosed ⟨name, .message shape n fields⟩ (visitFields fields) hs hmem
      fun t ht => copyFields_copied hclosed fields site _ ht hfields) fun p hp => .pure ?_
    exact ⟨hp.accounts.of_accesses_eq (by simp [Stmt.access?]), rfl, hp.parts⟩
  | list member count length =>
    -- Only the elements are taken apart; the length was checked before.
    refine .bind (copyLength_apart hclosed site name count length hs) fun before hbefore => ?_
    refine .bind (copyElement_copied hclosed member site _ hs hsub) fun body hbody => .pure ?_
    refine ⟨(hbefore.1.append hbody.accounts).of_accesses_eq ?_, hbefore.2, hbody.parts⟩
    simp [Stmt.access?]
  | switch n selector cases =>
    obtain ⟨hmem, hbranches⟩ := List.cons_subset.mp hsub
    refine .bind (.lift (holds_of_ok fun _ => switchMembers_eq)) ?_
    rintro _ rfl
    refine .bind (withFields_copied hclosed ⟨name, .switch cases⟩ (visitBranches cases) hs hmem
      fun t ht => ?_) fun p hp => ?_
    · refine .bind (compileExpr_apart hclosed site selector ht) fun p hp => ?_
      refine .bind (copyBranches_copied hclosed cases site _ ht hbranches) fun body hbody => .pure ?_
      exact ((Copied.nothing hp).append hbody).of_accesses_eq (by simp [Stmt.access?])
    · exact .pure (hp.of_accesses_eq (by simp [Stmt.access?]))
  | simple n => exact .pure (.nothing (.of_no_access rfl))
  | union n fields => exact .pure (.nothing (.of_no_access rfl))
  | mention kind n =>
    cases kind with
    | union => exact .pure (.nothing (.of_no_access rfl))
    | _ => exact .fail trivial
  | _ => exact .fail trivial
termination_by structural type

theorem copyElement_copied (hclosed : Closed whole) (type : Ty) (site : Site) (name : String)
    {s : Scope} (hs : Known whole s) (hsub : visitElement name type ⊆ whole) :
    Ensures s (Copied whole (visitElement name type) true) AnyFault (copyElement site name type) := by
  cases type with
  | container shape n fields =>
    obtain ⟨hmem, hfields⟩ := List.cons_subset.mp hsub
    refine .bind (withFields_copied hclosed ⟨name, .message shape n fields⟩ (visitFields fields) hs hmem
      fun t ht => copyFields_copied hclosed fields site _ ht hfields) fun p hp => .pure ?_
    exact ⟨hp.accounts, rfl, hp.parts⟩
  | simple n => exact .pure (.nothing (.of_no_access rfl))
  | union n fields => exact .pure (.nothing (.of_no_access rfl))
  | mention kind n =>
    cases kind with
    | union => exact .pure (.nothing (.of_no_access rfl))
    | _ => exact .fail trivial
  | _ => exact .fail trivial
termination_by structural type

theorem copyFields_copied (hclosed : Closed whole) (fields : List Field) (site : Site)
    (head? : Option RequestHead) {s : Scope} (hs : Known whole s) (hsub : visitFields fields ⊆ whole) :
    Ensures s (Copied whole (visitFields fields) (declarableIn fields)) AnyFault
      (copyFields site head? fields) := by
  match fields with
  | [] => exact .pure (.nothing (.of_no_access rfl))
  | ⟨name, type, wire, visible⟩ :: rest =>
    rw [visitFields, List.append_subset] at hsub
    rw [copyFields, visitFields, declarableIn]
    have hone hvisits := copyField_copied hclosed ⟨name, type, wire, visible⟩ site head? hs hvisits
    cases wire with
    | true =>
      refine .bind (hone hsub.1) fun body hbody => ?_
      refine .bind (copyFields_copied hclosed rest site head? hs hsub.2) fun more hmore => .pure ?_
      exact (hbody.append hmore).of_accesses_eq (by simp [Stmt.access?])
    | false => exact copyFields_copied hclosed rest site head? hs hsub.2
termination_by structural fields

theorem copyBranches_copied (hclosed : Closed whole) (branches : List Field) (site : Site)
    (selector : String) {s : Scope} (hs : Known whole s) (hsub : visitBranches branches ⊆ whole) :
    Ensures s (Copied whole (visitBranches branches) (declarableBranches branches)) AnyFault
      (copyBranches site selector branches) := by
  match branches with
  | [] => exact .pure (.nothing (.of_no_access rfl))
  | ⟨name, type, wire, visible⟩ :: rest =>
    cases type with
    | case n byValue byMask selectors fields =>
      rw [visitBranches, List.append_subset, List.append_subset] at hsub
      obtain ⟨⟨hblock, hfields⟩, hrest⟩ := hsub
      refine .bind (copyBranch_copied hclosed selector hs hblock fun t ht =>
        copyBranchFields_copied hclosed fields (site.at name) ht hfields) fun body hbody => ?_
      refine .bind (copyBranches_copied hclosed rest site selector hs hrest) fun more hmore => .pure ?_
      exact hbody.append hmore
    | _ => exact .bind (.fail trivial) fun _ (h : False) => h.elim
termination_by structural branches

theorem copyBranchFields_copied (hclosed : Closed whole) (fields : List Field) (site : Site)
    {s : Scope} (hs : Known whole s) (hsub : visitFields fields ⊆ whole) :
    Ensures s (Copied whole (visitFields fields) (declarableIn fields)) AnyFault
      (copyBranchFields site fields) := by
  match fields with
  | [] => exact .pure (.nothing (.of_no_access rfl))
  | ⟨name, type, wire, visible⟩ :: rest =>
    rw [visitFields, List.append_subset] at hsub
    rw [copyBranchFields, visitFields, declarableIn]
    have hone hvisits := copyField_copied hclosed ⟨name, type, wire, visible⟩ site none hs hvisits
    cases wire with
    | true =>
      refine .bind (hone hsub.1) fun body hbody => ?_
      refine .bind (copyBranchFields_copied hclosed rest site hs hsub.2) fun more hmore => .pure ?_
      exact hbody.append hmore
    | false => exact .fail trivial
termination_by structural fields

end

end

def visitMessage (object : String) (shape : Shape) (name : Name) (fields : List Field) : List Block :=
  ⟨object, .message shape name fields⟩ :: visitFields fields

def requestVisits (r : Request) : List Block :=
  visitMessage "request" (.request r.opcode) r.name r.fields

def replyVisits (r : Reply) : List Block := visitMessage "(*reply)" .reply r.name r.fields

theorem copyContainer_copied {object : String} {shape : Shape} {name : Name} {fields : List Field}
    (hclosed : Closed (visitMessage object shape name fields)) (site : Site) :
    Ensures [] (Copied (visitMessage object shape name fields) (visitMessage object shape name fields)
      true) AnyFault (copyContainer site shape fields object) := by
  have hnil : Known (visitMessage object shape name fields) [] := fun _ hf => nomatch hf
  refine .bind (withFields_copied hclosed ⟨object, .message shape name fields⟩ (visitFields fields) hnil
    List.mem_cons_self fun t ht => copyFields_copied hclosed fields site _ ht
      (List.subset_cons_self ..)) fun p hp => .pure ?_
  exact ⟨hp.accounts, rfl, hp.parts⟩

structure RequestClosed (r : Request) : Prop where
  request : Closed (requestVisits r)
  reply : ∀ reply ∈ r.reply, Closed (replyVisits reply)

structure RequestCode.Copied (code : RequestCode) : Prop where
  encoder : Emit.Copied (requestVisits code.request) (requestVisits code.request) true code.encoder
  decoder : Option.Rel (fun reply => Emit.Copied (replyVisits reply) (replyVisits reply) true)
    code.request.reply code.decoder

theorem compileRequest_copied (className : String) {r : Request} (hr : RequestClosed r) :
    Ensures [] (fun code => code.request = r ∧ code.Copied) AnyFault (compileRequest className r) := by
  unfold compileRequest
  refine .bind (.bind .freshScope fun _ _ => copyContainer_copied hr.request _) fun encoder hencoder => ?_
  split
  · next hreply => exact .pure ⟨rfl, hencoder, hreply ▸ .none⟩
  · next reply hreply =>
    refine .bind (.bind .freshScope fun _ _ => copyContainer_copied (hr.reply reply hreply) _) ?_
    intro decoder hdecoder
    exact .pure ⟨rfl, hencoder, hreply ▸ .some hdecoder⟩

theorem compileRequests_copied (className : String) (requests : List Request)
    (h : ∀ r ∈ requests, RequestClosed r) :
    Ensures [] (fun codes => codes.map (·.request) = requests ∧ ∀ code ∈ codes, code.Copied) AnyFault
      (compileRequests className requests) := by
  induction requests with
  | nil => exact .pure ⟨rfl, by simp⟩
  | cons r rest ih =>
    obtain ⟨hr, hrest⟩ := List.forall_mem_cons.mp h
    refine .bind (compileRequest_copied className hr) fun one hone => ?_
    refine .bind (ih hrest) fun more hmore => .pure ?_
    exact ⟨by simp [hone.1, hmore.1], List.forall_mem_cons.mpr ⟨hone.2, hmore.2⟩⟩

end CodecGen.Emit
