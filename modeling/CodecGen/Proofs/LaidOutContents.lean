import CodecGen.Proofs.Layouts
set_option autoImplicit false
/-!
The contents of declarations without errors. What is registered under a name is resolved to the message
that its element stands for.
-/
namespace CodecGen.Resolve
open Schema Markup

section
variable {isExt : Bool} {env : Env}

def HeadOf (e : Element) : Head → Prop
  | .enum => False
  | .union => e.tag = "union"
  | .container shape => ShapeOf e shape

theorem fieldsFor_of_resolveFields {name : Name} {e : Element} (htag : e.tag ≠ "request")
    (h : (resolveFields env { parent := name } e).errors = []) :
    FieldsFor env Mentions (placeOf name e) 0 e.children (resolveFields env { parent := name } e).value ∧
      e.elements "reply" = [] := by
  have hplace : placeOf name e = { parent := name } := by simp [placeOf, htag]
  have herrors := (Noted.errors_bind_eq_nil.mp h).1
  rw [hplace]
  exact ⟨resolveMembers_stated _ 0 e.children herrors,
    no_replies (resolveMembers_replies _ 0 e.children herrors) rfl⟩

theorem resolveRequest_stated {name : Name} {opcode : Int} {e : Element} (htag : e.tag = "request")
    (h : (resolveRequest env isExt name opcode e).errors = []) :
    MessageFor isExt env Mentions name e (resolveRequest env isExt name opcode e).value := by
  have hplace : placeOf name e = { parent := name, inRequest := true, mayReply := true } := by
    simp [placeOf, htag]
  have herrors := (Noted.errors_bind_eq_nil.mp h).1
  have hmembers := resolveMembers_stated _ 0 e.children herrors
  exact .container htag (by rw [hplace]; exact hmembers) (laidOut_request isExt _ opcode)
    (replyFor_of_members (resolveMembers_replies _ 0 e.children herrors))

theorem resolveContents_stated {p : Pending} (hhead : HeadOf p.element p.head)
    (h : (resolveContents env isExt p).errors = []) :
    MessageFor isExt env Mentions p.name p.element (resolveContents env isExt p).value := by
  obtain ⟨e, name, head⟩ := p
  unfold resolveContents at h ⊢
  dsimp only at h ⊢ hhead
  split at h
  · exact hhead.elim
  · rw [Noted.errors_map] at h
    have htag : e.tag = "union" := hhead
    exact .union htag (fieldsFor_of_resolveFields (by simp [htag]) h).1
  · exact resolveRequest_stated hhead h
  · rw [Noted.errors_map] at h
    have htag : e.tag = "event" := hhead.1
    obtain ⟨hmembers, hreplies⟩ := fieldsFor_of_resolveFields (by simp [htag]) h
    exact .container hhead hmembers (laidOut_event isExt _ _ _ _) hreplies
  · rw [Noted.errors_map] at h
    have htag : e.tag = "error" := hhead
    obtain ⟨hmembers, hreplies⟩ := fieldsFor_of_resolveFields (by simp [htag]) h
    exact .container hhead hmembers (laidOut_error isExt _ _) hreplies
  · next shape hrequest hevent herror =>
    rw [Noted.errors_map] at h
    cases shape with
    | struct =>
      have htag : e.tag = "struct" := hhead
      obtain ⟨hmembers, hreplies⟩ := fieldsFor_of_resolveFields (by simp [htag]) h
      exact .container hhead hmembers .struct hreplies
    | reply => exact hhead.elim
    | request opcode => exact absurd rfl (hrequest opcode)
    | event number noSequence xge => exact absurd rfl (hevent number noSequence xge)
    | error number => exact absurd rfl (herror number)

theorem mem_resolveAllContents {ps : List Pending} (h : (resolveAllContents env isExt ps).errors = [])
    {p : Pending} (hp : p ∈ ps) :
    (resolveContents env isExt p).errors = [] ∧
      (resolveContents env isExt p).value ∈ (resolveAllContents env isExt ps).value := by
  induction ps with
  | nil => cases hp
  | cons first rest ih =>
    rw [resolveAllContents, Noted.errors_bind_eq_nil, Noted.errors_bind_eq_nil] at h
    rcases List.mem_cons.mp hp with rfl | hp
    · exact ⟨h.1, List.mem_cons_self⟩
    · obtain ⟨herrors, hmem⟩ := ih h.2.1 hp
      exact ⟨herrors, List.mem_cons_of_mem _ hmem⟩

theorem subset_resolveCopies (env : Env) (drafts : List Decl) (ps : List Pending) :
    drafts ⊆ (resolveCopies env drafts ps).value := by
  induction ps generalizing drafts with
  | nil => exact List.Subset.refl _
  | cons p rest ih => exact List.Subset.trans (List.subset_append_left _ _) (ih _)

theorem head?_of_declaresMessage {e : Element} (h : declaresMessage e = true) :
    ∃ head, head? e = some head ∧ HeadOf e head.value := by
  have htag : e.tag = "struct" ∨ e.tag = "union" ∨ e.tag = "request" ∨ e.tag = "event" ∨
      e.tag = "error" := by simpa [declaresMessage] using h
  unfold head?
  rcases htag with htag | htag | htag | htag | htag <;> rw [htag]
  · exact ⟨_, rfl, htag⟩
  · exact ⟨_, rfl, htag⟩
  · exact ⟨_, rfl, htag⟩
  · exact ⟨_, rfl, htag, rfl, rfl⟩
  · exact ⟨_, rfl, htag⟩

theorem not_isCopy_of_declaresMessage {e : Element} (h : declaresMessage e = true) :
    isCopy e = false := by
  have hall : ∀ tag ∈ ["struct", "union", "request", "event", "error"],
      (tag == "eventcopy" || tag == "errorcopy") = false := by decide
  exact hall e.tag (List.contains_iff_mem.mp h)

section
variable {path : Name} {r : Registry}

theorem attr?_of_requireAttr {e : Element} {attr value : String}
    (h : (requireAttr e attr).value = some value) : e.attr? attr = some value := by
  unfold requireAttr at h
  split at h
  · next hattr =>
    obtain rfl := Option.some.inj h
    exact hattr
  · cases h

theorem pending_declare (r : Registry) (e : Element) (name : String) (target : Target)
    (pending : List Pending) :
    (declare r e name target pending).value.pending = r.pending ∨
      (declare r e name target pending).value.pending = r.pending ++ pending := by
  unfold declare
  split
  · exact .inl rfl
  · exact .inr rfl

theorem pending_declare_nil (r : Registry) (e : Element) (name : String) (target : Target) :
    (declare r e name target []).value.pending = r.pending := by
  rcases pending_declare r e name target [] with hsame | hmore
  · exact hsame
  · rw [hmore, List.append_nil]

def Makes (path : Name) (e : Element) (p : Pending) : Prop :=
  ∃ name head, head? e = some head ∧ e.attr? "name" = some name ∧ p = ⟨e, path ++ [name], head.value⟩

theorem pending_register (env : Env) (path : Name) (r : Registry) (e : Element) :
    (register env path r e).value.pending = r.pending ∨
      ∃ p, Makes path e p ∧ (register env path r e).value.pending = r.pending ++ [p] := by
  unfold register
  split
  · exact .inl rfl
  · rw [Noted.value_bind]
    split
    · exact .inl (pending_declare_nil r e _ _)
    · exact .inl rfl
  · rw [Noted.value_bind]
    split
    · exact .inl (pending_declare_nil r e _ _)
    · exact .inl rfl
  · unfold registerTypedef
    rw [Noted.value_bind, Noted.value_bind]
    split
    · rw [Noted.value_bind]
      split
      · exact .inl (pending_declare_nil r e _ _)
      · exact .inl rfl
    · exact .inl rfl
  · split
    · next head hhead =>
      rw [Noted.value_bind]
      split
      · next name hname =>
        have hmakes : Makes path e ⟨e, path ++ [name], head.value⟩ :=
          ⟨name, head, hhead, attr?_of_requireAttr hname, rfl⟩
        exact (pending_declare r e _ _ _).imp_right fun hmore => ⟨_, hmakes, hmore⟩
      · exact .inl rfl
    · exact .inl rfl

theorem pending_subset_register (env : Env) (path : Name) (r : Registry) (e : Element) :
    r.pending ⊆ (register env path r e).value.pending := by
  rcases pending_register env path r e with hsame | ⟨p, -, hmore⟩
  · rw [hsame]
    exact List.Subset.refl _
  · rw [hmore]
    exact List.subset_append_left _ _

theorem pending_subset_registerAll (env : Env) (path : Name) (r : Registry) (es : List Element) :
    r.pending ⊆ (registerAll env path r es).value.pending := by
  induction es generalizing r with
  | nil => exact List.Subset.refl _
  | cons e rest ih => exact List.Subset.trans (pending_subset_register env path r e) (ih _)

/-- The element is registered under its name, with its contents still to be resolved. -/
def Awaits (path : Name) (r : Registry) (e : Element) : Prop :=
  ∃ name head, e.attr? "name" = some name ∧ HeadOf e head ∧ ⟨e, path ++ [name], head⟩ ∈ r.pending

theorem mem_declare {e : Element} {name : String} {target : Target} {pending : List Pending}
    (h : (declare r e name target pending).errors = []) :
    pending ⊆ (declare r e name target pending).value.pending := by
  unfold declare at h ⊢
  split
  · next hlookup =>
    rw [hlookup] at h
    cases h
  · exact List.subset_append_right _ _

theorem register_declares {e : Element} {head : Noted Head} (hhead : head? e = some head)
    (h : (register env path r e).errors = []) :
    ∃ name, e.attr? "name" = some name ∧
      ⟨e, path ++ [name], head.value⟩ ∈ (register env path r e).value.pending := by
  unfold register at h ⊢
  split at h
  case h_5 =>
    rw [hhead] at h ⊢
    dsimp only at h ⊢
    rw [Noted.errors_bind_eq_nil] at h
    obtain ⟨name, hvalue, hname⟩ := requireAttr_succeeds e "name" h.1
    rw [hvalue] at h
    rw [Noted.value_bind, hvalue]
    have hdeclare := mem_declare (Noted.errors_bind_eq_nil.mp h.2).2
    exact ⟨name, hname, hdeclare List.mem_cons_self⟩
  -- The other elements declare no types of their own.
  all_goals
    rename_i htag
    rw [head?, htag] at hhead
    cases hhead

theorem registerAll_declares {es : List Element} (h : (registerAll env path r es).errors = [])
    {e : Element} (hmem : e ∈ es) {head : Noted Head} (hhead : head? e = some head) :
    ∃ name, e.attr? "name" = some name ∧
      ⟨e, path ++ [name], head.value⟩ ∈ (registerAll env path r es).value.pending := by
  induction es generalizing r with
  | nil => cases hmem
  | cons first rest ih =>
    rw [registerAll, Noted.errors_bind_eq_nil] at h
    rcases List.mem_cons.mp hmem with rfl | hmem
    · obtain ⟨name, hname, hpending⟩ := register_declares hhead h.1
      exact ⟨name, hname, pending_subset_registerAll env path _ rest hpending⟩
    · exact ih h.2 hmem

theorem registerAll_awaits {es : List Element} (h : (registerAll env path r es).errors = [])
    {e : Element} (hmem : e ∈ es) (he : declaresMessage e = true) :
    Awaits path (registerAll env path r es).value e := by
  obtain ⟨head, hhead, hof⟩ := head?_of_declaresMessage he
  obtain ⟨name, hname, hpending⟩ := registerAll_declares h hmem hhead
  exact ⟨name, head.value, hname, hof, hpending⟩

theorem registerAll_made {es : List Element} {p : Pending}
    (hp : p ∈ (registerAll env path r es).value.pending) :
    p ∈ r.pending ∨ ∃ e ∈ es, Makes path e p := by
  induction es generalizing r with
  | nil => exact .inl hp
  | cons e rest ih =>
    rcases ih hp with hp | ⟨c, hc, hmakes⟩
    · rcases pending_register env path r e with hsame | ⟨q, hmakes, hmore⟩
      · exact .inl (hsame ▸ hp)
      · rw [hmore] at hp
        rcases List.mem_append.mp hp with hp | hp
        · exact .inl hp
        · rw [List.mem_singleton.mp hp]
          exact .inr ⟨e, List.mem_cons_self, hmakes⟩
    · exact .inr ⟨c, List.mem_cons_of_mem _ hc, hmakes⟩

end

end

end CodecGen.Resolve
