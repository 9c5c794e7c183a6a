import CodecGen.Proofs.Resolved
set_option autoImplicit false
/-!
Drafts of declarations. Resolving contents makes a draft of every pending declaration, a copy takes its
fields from a draft before it, and names lead to what has been drafted.
-/
namespace CodecGen.Resolve
open Schema Markup

/-- The draft that a pending declaration becomes, with fields that satisfy `P`. A reply is called like
its request. -/
structure DraftOf (P : Field → Prop) (p : Pending) (d : Decl) : Prop where
  name : d.name = p.name
  kind : d.type.kind = p.head.kind
  own : DeclaresOwn d
  fields : ∀ f ∈ declFields d, P f
  reply : ∀ r ∈ d.reply, r.name = d.name

section
variable {P : Field → Prop} {env : Env}

theorem resolveFields_admitted (h : Admits env P) (place : Place) (e : Element) :
    ∀ f ∈ (resolveFields env place e).value, P f :=
  forall_fields_of_members (resolveMembers_admitted h place 0 e.children)

theorem resolveRequest_draft (h : Admits env P) (isExt : Bool) (name : Name) (opcode : Int)
    (e : Element) :
    DraftOf P ⟨e, name, .container (.request opcode)⟩
      (resolveRequest env isExt name opcode e).value := by
  have hmembers :=
    resolveMembers_admitted h { parent := name, inRequest := true, mayReply := true } 0 e.children
  refine ⟨rfl, rfl, rfl, List.forall_mem_append.mpr ⟨?_, ?_⟩, ?_⟩
  · exact requestLayout_admitted h isExt (forall_fields_of_members hmembers)
  · -- The reply is one of the contributions of the field list.
    change ∀ f ∈ Option.getD (Option.map _ (Option.map _ _)) [], P f
    rw [Option.map_map]
    cases hlast : ((resolveMembers env { parent := name, inRequest := true, mayReply := true } 0
        e.children).value.filterMap Member.reply?).getLast? with
    | none => simp
    | some fields =>
      obtain ⟨m, hm, hreply⟩ := List.mem_filterMap.mp (List.mem_of_getLast? hlast)
      cases m with
      | field f => cases hreply
      | reply members =>
        obtain rfl := Option.some.inj hreply
        exact hmembers _ hm
  · intro r hr
    obtain ⟨fields, -, rfl⟩ := Option.map_eq_some_iff.mp hr
    rfl

theorem declFields_of_no_reply (name : Name) (type : Ty) :
    declFields { name, type } = ownFields type := by
  simp [declFields]

theorem resolveContents_draft (h : Admits env P) (isExt : Bool) (p : Pending) :
    DraftOf P p (resolveContents env isExt p).value := by
  obtain ⟨e, name, head⟩ := p
  have hfields := resolveFields_admitted h { parent := name } e
  unfold resolveContents
  dsimp only
  split
  · exact ⟨rfl, rfl, rfl, fun f hf => absurd hf List.not_mem_nil, nofun⟩
  · refine ⟨rfl, rfl, rfl, ?_, nofun⟩
    exact (declFields_of_no_reply ..).symm ▸ hfields
  · exact resolveRequest_draft h isExt name _ e
  · refine ⟨rfl, rfl, rfl, ?_, nofun⟩
    exact (declFields_of_no_reply ..).symm ▸ eventLayout_admitted h _ _ hfields
  · refine ⟨rfl, rfl, rfl, ?_, nofun⟩
    exact (declFields_of_no_reply ..).symm ▸ errorLayout_admitted h hfields
  · refine ⟨rfl, rfl, rfl, ?_, nofun⟩
    exact (declFields_of_no_reply ..).symm ▸ hfields

theorem resolveAllContents_drafts (h : Admits env P) (isExt : Bool) (ps : List Pending) :
    List.Forall₂ (DraftOf P) ps (resolveAllContents env isExt ps).value := by
  induction ps with
  | nil => exact .nil
  | cons p rest ih => exact .cons (resolveContents_draft h isExt p) ih

theorem copiedFields_admitted (h : Admits env P) {drafts : List Decl}
    (hdrafts : ∀ d ∈ drafts, ∀ f ∈ declFields d, P f) (head : Head) {t : Target}
    (ht : Offered env t) : ∀ f ∈ copiedFields drafts head t, P f := by
  cases t with
  | known type reply =>
    unfold copiedFields
    dsimp only
    split
    · exact h.copied _ _ _ reply ht
    · simp
  | own kind name =>
    unfold copiedFields
    dsimp only
    split
    · next d hfind =>
      split
      · next fields hshare htype =>
        have hown := hdrafts d (List.mem_of_find?_eq_some hfind)
        rw [declFields, List.forall_mem_append, htype] at hown
        exact hown.1
      · simp
    · simp

theorem copyType_draft (e : Element) (name : Name) (head : Head) {fields : List Field}
    (h : ∀ f ∈ fields, P f) :
    DraftOf P ⟨e, name, head⟩ { name, type := copyType head name fields } := by
  cases head with
  | enum => exact ⟨rfl, rfl, rfl, fun f hf => absurd hf List.not_mem_nil, nofun⟩
  | union | container => exact ⟨rfl, rfl, rfl, (declFields_of_no_reply ..).symm ▸ h, nofun⟩

theorem resolveCopy_draft (h : Admits env P) {drafts : List Decl}
    (hdrafts : ∀ d ∈ drafts, ∀ f ∈ declFields d, P f) (p : Pending) :
    DraftOf P p (resolveCopy env drafts p).value := by
  unfold resolveCopy
  rw [Noted.value_bind]
  split
  · next ref _ =>
    rw [Noted.value_bind]
    refine copyType_draft p.element p.name p.head ?_
    cases hsource : (lookupType env ref p.element.span).value with
    | none => simp
    | some t => exact copiedFields_admitted h hdrafts p.head (lookupType_offered env ref _ t hsource)
  · exact copyType_draft p.element p.name p.head (fun f hf => absurd hf List.not_mem_nil)

theorem resolveCopies_drafts (h : Admits env P) (ps : List Pending) {drafts : List Decl}
    (hdrafts : ∀ d ∈ drafts, ∀ f ∈ declFields d, P f) :
    ∃ copies, (resolveCopies env drafts ps).value = drafts ++ copies ∧
      List.Forall₂ (DraftOf P) ps copies := by
  induction ps generalizing drafts with
  | nil => exact ⟨[], (List.append_nil _).symm, .nil⟩
  | cons p rest ih =>
    have hone := resolveCopy_draft h hdrafts p
    have hmore : ∀ d ∈ drafts ++ [(resolveCopy env drafts p).value], ∀ f ∈ declFields d, P f :=
      List.forall_mem_append.mpr ⟨hdrafts, by simpa using hone.fields⟩
    obtain ⟨copies, hvalue, hcopies⟩ := ih hmore
    refine ⟨_ :: copies, ?_, .cons hone hcopies⟩
    rw [← List.append_cons] at hvalue
    exact hvalue

theorem names_of_drafts {ps : List Pending} {drafts : List Decl}
    (h : List.Forall₂ (DraftOf P) ps drafts) : drafts.map (·.name) = ps.map (·.name) := by
  induction h with
  | nil => rfl
  | cons hone _ ih => simp [hone.name, ih]

theorem draft_of_pending {ps : List Pending} {drafts : List Decl}
    (h : List.Forall₂ (DraftOf P) ps drafts) {p : Pending} (hp : p ∈ ps) :
    ∃ d ∈ drafts, DraftOf P p d := by
  induction h with
  | nil => cases hp
  | cons hone _ ih =>
    rcases List.mem_cons.mp hp with rfl | hp
    · exact ⟨_, List.mem_cons_self, hone⟩
    · obtain ⟨d, hd, hdraft⟩ := ih hp
      exact ⟨d, List.mem_cons_of_mem _ hd, hdraft⟩

theorem pending_of_draft {ps : List Pending} {drafts : List Decl}
    (h : List.Forall₂ (DraftOf P) ps drafts) {d : Decl} (hd : d ∈ drafts) :
    ∃ p ∈ ps, DraftOf P p d := by
  induction h with
  | nil => cases hd
  | cons hone _ ih =>
    rcases List.mem_cons.mp hd with rfl | hd
    · exact ⟨_, List.mem_cons_self, hone⟩
    · obtain ⟨p, hp, hdraft⟩ := ih hd
      exact ⟨p, List.mem_cons_of_mem _ hp, hdraft⟩

/-- Copies are resolved last, so the drafts stand in another order than what is pending. -/
theorem resolveDrafts_drafts {r : Registered} (h : Admits r.env P) :
    ∃ ps : List Pending, ps.Perm r.registry.pending ∧
      List.Forall₂ (DraftOf P) ps (resolveDrafts r).value := by
  have hcontents := resolveAllContents_drafts h r.head.isExt
    (r.registry.pending.filter (!isCopy ·.element))
  have hfields : ∀ d ∈ (resolveAllContents r.env r.head.isExt
      (r.registry.pending.filter (!isCopy ·.element))).value, ∀ f ∈ declFields d, P f := by
    intro d hd
    obtain ⟨p, -, hdraft⟩ := pending_of_draft hcontents hd
    exact hdraft.fields
  obtain ⟨copies, hvalue, hcopies⟩ :=
    resolveCopies_drafts h (r.registry.pending.filter (isCopy ·.element)) hfields
  refine ⟨r.registry.pending.filter (!isCopy ·.element) ++
    r.registry.pending.filter (isCopy ·.element), ?_, ?_⟩
  · exact List.perm_append_comm.trans (List.filter_append_perm _ _)
  · change List.Forall₂ _ _ (resolveCopies r.env _ _).value
    rw [hvalue]
    exact List.rel_append hcontents hcopies

def OwnPending (pending : List Pending) (kind : Kind) (name : Name) : Prop :=
  ∃ p ∈ pending, p.name = name ∧ p.head.kind = kind

theorem ownIn_of_pending {r : Registered} (h : Admits r.env P) {kind : Kind} {name : Name}
    (hown : OwnPending r.registry.pending kind name) : OwnIn (resolveDrafts r).value kind name := by
  obtain ⟨ps, hperm, hdrafts⟩ := resolveDrafts_drafts h
  obtain ⟨p, hp, rfl, rfl⟩ := hown
  obtain ⟨d, hd, hdraft⟩ := draft_of_pending hdrafts (hperm.mem_iff.mpr hp)
  exact ⟨d, hd, hdraft.name, hdraft.kind⟩

end

theorem drafted_of_registered {r : Registered} (hnodup : (r.registry.pending.map (·.name)).Nodup)
    (h : Offers r.env (OwnPending r.registry.pending)) : Drafted (resolveDrafts r).value := by
  obtain ⟨ps, hperm, hdrafts⟩ := resolveDrafts_drafts (admits_built h)
  refine ⟨?_, ?_, ?_⟩
  · rw [names_of_drafts hdrafts]
    exact (hperm.map _).nodup_iff.mpr hnodup
  · intro d hd
    obtain ⟨p, -, hdraft⟩ := pending_of_draft hdrafts hd
    exact hdraft.own
  · intro d hd
    obtain ⟨p, -, hdraft⟩ := pending_of_draft hdrafts hd
    exact builtIn_leaf_mono (fun _ _ => ownIn_of_pending (admits_built h))
      (builtIn_iff.mpr hdraft.fields)

/-- What a target is: a scalar, a declaration of an imported module, or one of this module whose
contents are still to be resolved. -/
inductive TargetFrom (imports : List Import) (pending : List Pending) : Target → Prop where
  | scalar {name scalar : String} (h : scalar? name = some scalar) :
      TargetFrom imports pending (.known (.simple [scalar]) none)
  | imported {i : Import} {d : Decl} (hi : i ∈ imports) (hd : d ∈ i.module.decls) :
      TargetFrom imports pending (.known d.type d.reply)
  | own {kind : Kind} {name : Name} (h : OwnPending pending kind name) :
      TargetFrom imports pending (.own kind name)

theorem TargetFrom.mono {imports : List Import} {pending more : List Pending} {t : Target}
    (h : TargetFrom imports pending t) (hsub : pending ⊆ more) : TargetFrom imports more t := by
  cases h with
  | scalar h => exact .scalar h
  | imported hi hd => exact .imported hi hd
  | own h =>
    obtain ⟨p, hp, hname⟩ := h
    exact .own ⟨p, hsub hp, hname⟩

theorem mem_of_lookup {α : Type} {entries : List (String × α)} {name : String} {a : α}
    (h : entries.lookup name = some a) : (name, a) ∈ entries := by
  obtain ⟨before, after, rfl, -⟩ := List.lookup_eq_some_iff.mp h
  simp

theorem findImported?_from {pending : List Pending} {accepts : Module → Bool} {name : String}
    {index found : Nat} {imports : List Import} {t : Target}
    (h : Env.findImported? accepts name index imports = some (t, found)) :
    TargetFrom imports pending t := by
  induction imports generalizing index with
  | nil => cases h
  | cons i rest ih =>
    unfold Env.findImported? at h
    split at h
    · next d hd =>
      obtain ⟨rfl, -⟩ := Prod.mk.inj (Option.some.inj h)
      split at hd
      · exact .imported List.mem_cons_self (List.mem_reverse.mp (List.mem_of_find?_eq_some hd))
      · cases hd
    · cases ih h with
      | scalar hscalar => exact .scalar hscalar
      | imported hi hd => exact .imported (List.mem_cons_of_mem _ hi) hd
      | own hown => exact .own hown

theorem offered_from (env : Env) {pending : List Pending}
    (hown : ∀ entry ∈ env.own, TargetFrom env.imports pending entry.2) {t : Target}
    (h : Offered env t) : TargetFrom env.imports pending t := by
  obtain ⟨name, index, hlookup⟩ := h
  unfold Env.lookup? at hlookup
  split at hlookup
  · split at hlookup
    · next id _ target hfound =>
      obtain ⟨rfl, -⟩ := Prod.mk.inj (Option.some.inj hlookup)
      split at hfound
      · exact hown _ (mem_of_lookup hfound)
      · cases hfound
    · obtain ⟨⟨target, found⟩, hfound, heq⟩ := Option.map_eq_some_iff.mp hlookup
      obtain ⟨rfl, -⟩ := Prod.mk.inj heq
      exact findImported?_from hfound
  · split at hlookup
    · next hscalar =>
      obtain ⟨rfl, -⟩ := Prod.mk.inj (Option.some.inj hlookup)
      exact .scalar hscalar
    · split at hlookup
      · next target hfound =>
        obtain ⟨rfl, -⟩ := Prod.mk.inj (Option.some.inj hlookup)
        exact hown _ (mem_of_lookup hfound)
      · obtain ⟨⟨target, found⟩, hfound, heq⟩ := Option.map_eq_some_iff.mp hlookup
        obtain ⟨rfl, -⟩ := Prod.mk.inj heq
        exact findImported?_from hfound

def FinishedModule (m : Module) : Prop := ∀ d ∈ m.decls, Finished d.type d.reply

theorem targetOk_of_from {imports : List Import} {pending : List Pending} {t : Target}
    (himports : ∀ i ∈ imports, FinishedModule i.module) (h : TargetFrom imports pending t) :
    TargetOk (OwnPending pending) t := by
  cases h with
  | scalar h => exact ⟨trivial, by simp⟩
  | imported hi hd => exact himports _ hi _ hd
  | own h => exact h

theorem targetOk_mono {Own Own' : Kind → Name → Prop}
    (h : ∀ kind name, Own kind name → Own' kind name) {t : Target} (ht : TargetOk Own t) :
    TargetOk Own' t := by
  cases t with
  | known type reply => exact ht
  | own kind name => exact h kind name ht

end CodecGen.Resolve
