import CodecGen.Proofs.Resolved
set_option autoImplicit false
/-!
The fields that a description states. Of the elements of a field list some stand for one field each, in
the order in which they come; the others add nothing. What resolution leaves out it reports, so that
without errors the members of a message are exactly the fields that its elements stand for.
-/
namespace CodecGen.Resolve
open Schema Markup

def statesField (e : Element) : Bool :=
  ["pad", "field", "fd", "list", "exprfield", "switch"].contains e.tag

def TypeOf (env : Env) (T : Target → Ty → Prop) (e : Element) (t : Ty) : Prop :=
  ∃ name target index, e.attr? "type" = some name ∧ env.lookup? name = some (target, index) ∧ T target t

def ExprOf (env : Env) (e : Element) (x : Expr) : Prop := (resolveExpr env e).value = some x

def LengthOf (env : Env) (e : Element) : Option Expr → Prop
  | none => e.children = []
  | some x => ∃ child rest, e.children = child :: rest ∧ ExprOf env child x

mutual

/-- The field that an element stands for in a field list in which `pads` pads came before. -/
inductive FieldFor (env : Env) (T : Target → Ty → Prop) : Place → Nat → Element → Field → Prop where
  | pad {place : Place} {pads : Nat} {e : Element} (htag : e.tag = "pad") :
    FieldFor env T place pads e ⟨"pad" ++ toString pads, (padType e).value, true, false⟩
  | plain {place : Place} {pads : Nat} {e : Element} {name : String} {t : Ty} (htag : e.tag = "field")
      (hname : e.attr? "name" = some name) (ht : TypeOf env T e t) :
    FieldFor env T place pads e ⟨name, t, true, true⟩
  | descriptor {place : Place} {pads : Nat} {e : Element} {name : String} (htag : e.tag = "fd")
      (hname : e.attr? "name" = some name) :
    FieldFor env T place pads e ⟨name, int32, false, true⟩
  | list {place : Place} {pads : Nat} {e : Element} {name : String} {t : Ty} {x : Option Expr}
      (htag : e.tag = "list") (hname : e.attr? "name" = some name) (ht : TypeOf env T e t)
      (hx : LengthOf env e x) :
    FieldFor env T place pads e
      ⟨name, .list t (listSize place name x).1 (listSize place name x).2, true, true⟩
  | computed {place : Place} {pads : Nat} {e : Element} {name : String} {t : Ty} {x : Expr}
      (htag : e.tag = "exprfield") (hname : e.attr? "name" = some name) (ht : TypeOf env T e t)
      (hx : LengthOf env e (some x)) :
    FieldFor env T place pads e ⟨name, .exprField t x, true, false⟩
  | switch {place : Place} {pads : Nat} {e child : Element} {rest : List Element} {name : String}
      {selector : Expr} {branches : List Field} (htag : e.tag = "switch")
      (hname : e.attr? "name" = some name) (hchildren : e.children = child :: rest)
      (hselector : ExprOf env child selector)
      (hbranches : BranchesFor env T
        { parent := place.parent ++ [name], inRequest := place.inRequest } rest branches) :
    FieldFor env T place pads e ⟨name, .switch (place.parent ++ [name]) selector branches, true, true⟩

inductive FieldsFor (env : Env) (T : Target → Ty → Prop) :
    Place → Nat → List Element → List Field → Prop where
  | nil {place : Place} {pads : Nat} : FieldsFor env T place pads [] []
  | stated {place : Place} {pads : Nat} {e : Element} {rest : List Element} {f : Field}
      {fields : List Field} (hf : FieldFor env T place pads e f)
      (hrest : FieldsFor env T place (if e.tag == "pad" then pads + 1 else pads) rest fields) :
    FieldsFor env T place pads (e :: rest) (f :: fields)
  | other {place : Place} {pads : Nat} {e : Element} {rest : List Element} {fields : List Field}
      (he : statesField e = false) (hrest : FieldsFor env T place pads rest fields) :
    FieldsFor env T place pads (e :: rest) fields

/-- The branches of a switch. Each has the expressions among its elements as selectors, and the fields
that its elements stand for. -/
inductive BranchesFor (env : Env) (T : Target → Ty → Prop) :
    Place → List Element → List Field → Prop where
  | nil {place : Place} : BranchesFor env T place [] []
  | cons {place : Place} {e : Element} {rest : List Element} {selectors : List Expr}
      {fields branches : List Field} (htag : e.tag = "case" ∨ e.tag = "bitcase")
      (hselectors : List.Forall₂ (ExprOf env) (e.children.filter isExpression) selectors)
      (hfields : FieldsFor env T { place with inBranch := true } 0 e.children fields)
      (hrest : BranchesFor env T place rest branches) :
    BranchesFor env T place (e :: rest)
      (⟨e.attrD "name" "", .case (place.parent ++ [e.attrD "name" ""]) (e.tag == "case")
        (e.tag == "bitcase") selectors fields, true, true⟩ :: branches)

end

theorem not_stated_of_isExpression {e : Element} (h : isExpression e = true) :
    statesField e = false := by
  have hall : ∀ tag ∈ ["op", "unop", "popcount", "sumof", "fieldref", "paramref", "enumref", "value",
      "bit", "listelement-ref"],
      ["pad", "field", "fd", "list", "exprfield", "switch"].contains tag = false := by decide
  exact hall e.tag (List.contains_iff_mem.mp h)

theorem tag_ne_pad_of_not_stated {e : Element} (h : statesField e = false) :
    (e.tag == "pad") = false := by
  cases hpad : e.tag == "pad" with
  | false => rfl
  | true =>
    rw [statesField, beq_iff_eq.mp hpad] at h
    cases h

namespace Noted
variable {α β : Type}

theorem errors_bind (x : Noted α) (f : α → Noted β) :
    (x >>= f).errors = x.errors ++ (f x.value).errors := by
  simp [errors]

theorem errors_bind_eq_nil {x : Noted α} {f : α → Noted β} :
    (x >>= f).errors = [] ↔ x.errors = [] ∧ (f x.value).errors = [] := by
  rw [errors_bind, List.append_eq_nil_iff]

theorem errors_map (f : α → β) (x : Noted α) : (f <$> x).errors = x.errors := by
  rw [map_eq_pure_bind, errors_bind]
  exact List.append_nil _

end Noted

/-- Without errors there is a result, and it satisfies `Q`. -/
def Succeeds {α : Type} (x : Noted (Option α)) (Q : α → Prop) : Prop :=
  x.errors = [] → ∃ a, x.value = some a ∧ Q a

namespace Succeeds
variable {α β : Type} {Q : α → Prop} {P : β → Prop}

theorem refuse {cause : ErrorCause} {span : Span} : Succeeds (refuse cause span) Q := nofun

theorem result {a : α} (h : Q a) : Succeeds (return some a) Q := fun _ => ⟨a, rfl, h⟩

theorem map {x : Noted (Option α)} {f : α → β} (hx : Succeeds x Q) (hf : ∀ a, Q a → P (f a)) :
    Succeeds (do return (← x).map f) P := by
  intro herrors
  obtain ⟨a, ha, hQ⟩ := hx (Noted.errors_bind_eq_nil.mp herrors).1
  exact ⟨f a, by rw [Noted.value_bind, ha]; rfl, hf a hQ⟩

theorem bind {x : Noted β} {f : β → Noted (Option α)}
    (h : x.errors = [] → Succeeds (f x.value) Q) : Succeeds (x >>= f) Q := by
  intro herrors
  obtain ⟨hx, hf⟩ := Noted.errors_bind_eq_nil.mp herrors
  exact h hx hf

end Succeeds

section
variable {env : Env}

theorem requireAttr_succeeds (e : Element) (attr : String) :
    Succeeds (requireAttr e attr) fun value => e.attr? attr = some value := by
  unfold requireAttr
  split
  · next value hattr => exact .result hattr
  · exact .refuse

theorem lookupType_succeeds (env : Env) (name : String) (span : Span) :
    Succeeds (lookupType env name span) fun t => ∃ index, env.lookup? name = some (t, index) := by
  unfold lookupType
  split
  · next t index hlookup => exact fun _ => ⟨t, rfl, _, hlookup⟩
  · next t hlookup => exact fun _ => ⟨t, rfl, _, hlookup⟩
  · exact .refuse

theorem natural_succeeds (e : Element) :
    Succeeds (natural e) fun v => Text.Integer.word? 64 e.text = some (v : Int) := by
  unfold natural
  split
  · next v hv => exact .result hv
  · exact .refuse

theorem bitPosition_succeeds (e : Element) :
    Succeeds (bitPosition e) fun v => Text.Integer.word? 64 e.text = some (v : Int) ∧ v ≤ 63 := by
  unfold bitPosition
  refine .bind fun hnatural => ?_
  obtain ⟨v, hv, hword⟩ := natural_succeeds e hnatural
  rw [hv]
  dsimp only
  split
  · next hle => exact .result ⟨hword, hle⟩
  · exact .refuse

theorem resolveEnumRef_succeeds (env : Env) (e : Element) :
    Succeeds (resolveEnumRef env e) fun _ => True := by
  unfold resolveEnumRef
  refine .bind fun href => ?_
  obtain ⟨ref, href, -⟩ := requireAttr_succeeds e "ref" href
  rw [href]
  refine .bind fun htarget => ?_
  obtain ⟨target, htarget, -⟩ := lookupType_succeeds env ref e.span htarget
  rw [htarget]
  dsimp only
  split
  · exact .result trivial
  · exact .refuse

theorem resolveNode_succeeds (env : Env) (e : Element) (operands : List (Noted (Option Expr)))
    (h : ∀ x ∈ operands, Succeeds x fun _ => True) :
    Succeeds (resolveNode env e operands) fun _ => True := by
  unfold resolveNode
  split
  · refine .bind fun hop => ?_
    obtain ⟨op, hop, -⟩ := requireAttr_succeeds e "op" hop
    rw [hop]
    dsimp only
    split
    · next l r _ =>
      -- without errors neither operand is missing
      refine .bind fun hl => .bind fun hr => ?_
      obtain ⟨lhs, hlhs, -⟩ := h l (by simp) hl
      obtain ⟨rhs, hrhs, -⟩ := h r (by simp) hr
      rw [hlhs, hrhs]
      exact .result trivial
    · exact .refuse
  · split
    · exact .map (h _ (by simp)) fun _ _ => trivial
    · exact .refuse
  · split
    · exact .map (h _ (by simp)) fun _ _ => trivial
    · exact .refuse
  · refine .bind fun href => ?_
    obtain ⟨ref, href, -⟩ := requireAttr_succeeds e "ref" href
    rw [href]
    dsimp only
    split
    · exact .result trivial
    · exact .map (h _ (by simp)) fun _ _ => trivial
  · exact .result trivial
  · exact .result trivial
  · exact resolveEnumRef_succeeds env e
  · exact .map (natural_succeeds e) fun _ _ => trivial
  · exact .map (bitPosition_succeeds e) fun _ _ => trivial
  · exact .result trivial
  · exact .refuse

mutual

theorem resolveExpr_succeeds (env : Env) (e : Element) :
    Succeeds (resolveExpr env e) (ExprOf env e) := by
  match e with
  | ⟨tag, attrs, text, children, span⟩ =>
    intro herrors
    obtain ⟨x, hx, -⟩ := resolveNode_succeeds env _ _ (resolveExprs_succeeds env children) herrors
    exact ⟨x, hx, hx⟩

theorem resolveExprs_succeeds (env : Env) (es : List Element) :
    ∀ x ∈ resolveExprs env es, Succeeds x fun _ => True := by
  match es with
  | [] => simp [resolveExprs]
  | e :: rest =>
    rw [resolveExprs, List.forall_mem_cons]
    refine ⟨fun herrors => ?_, resolveExprs_succeeds env rest⟩
    obtain ⟨x, hx, -⟩ := resolveExpr_succeeds env e herrors
    exact ⟨x, hx, trivial⟩

end

theorem resolveSelectors_stated (es : List Element) (h : (resolveSelectors env es).errors = []) :
    List.Forall₂ (ExprOf env) (es.filter isExpression) (resolveSelectors env es).value := by
  induction es with
  | nil => exact .nil
  | cons e rest ih =>
    unfold resolveSelectors at h ⊢
    split
    · next he =>
      rw [if_pos he, Noted.errors_bind_eq_nil, Noted.errors_bind_eq_nil] at h
      obtain ⟨x, hx, hof⟩ := resolveExpr_succeeds env e h.1
      rw [List.filter_cons_of_pos he, Noted.value_bind, hx]
      exact .cons hof (ih h.2.1)
    · next he =>
      rw [if_neg he] at h
      rw [List.filter_cons_of_neg he]
      exact ih h

def Mentions (target : Target) (t : Ty) : Prop := t = target.type

theorem nameAndType_succeeds (env : Env) (e : Element) :
    Succeeds (nameAndType env e) fun p => e.attr? "name" = some p.1 ∧ TypeOf env Mentions e p.2 := by
  unfold nameAndType
  refine .bind fun hname => .bind fun htype => ?_
  obtain ⟨name, hvalue, hname⟩ := requireAttr_succeeds e "name" hname
  obtain ⟨type, hvalue', htype⟩ := requireAttr_succeeds e "type" htype
  rw [hvalue, hvalue']
  refine .map (lookupType_succeeds env type e.span) fun t ht => ?_
  obtain ⟨index, hlookup⟩ := ht
  exact ⟨hname, type, t, index, htype, hlookup, rfl⟩

section
variable {place : Place} {pads : Nat} {e : Element}

def Stated (env : Env) (place : Place) (pads : Nat) (e : Element) (m : Member) : Prop :=
  ∃ f, m = .field f ∧ FieldFor env Mentions place pads e f

theorem resolvePlain_stated (htag : e.tag = "field") :
    Succeeds (resolvePlain env e) (Stated env place pads e) := by
  refine .map (nameAndType_succeeds env e) ?_
  rintro ⟨name, t⟩ ⟨hname, ht⟩
  exact ⟨_, rfl, .plain htag hname ht⟩

theorem resolveDescriptor_stated (htag : e.tag = "fd") :
    Succeeds (resolveDescriptor e) (Stated env place pads e) :=
  .map (requireAttr_succeeds e "name") fun _ hname => ⟨_, rfl, .descriptor htag hname⟩

theorem resolveList_stated (htag : e.tag = "list") :
    Succeeds (resolveList env place e) (Stated env place pads e) := by
  unfold resolveList
  refine .bind fun herrors => ?_
  obtain ⟨⟨name, t⟩, hvalue, hname, ht⟩ := nameAndType_succeeds env e herrors
  rw [hvalue]
  dsimp only
  split
  · next hchildren => exact .result ⟨_, rfl, .list htag hname ht (x := none) hchildren⟩
  · next child rest hchildren =>
    refine .map (resolveExpr_succeeds env child) fun x hx => ?_
    exact ⟨_, rfl, .list htag hname ht (x := some x) ⟨child, rest, hchildren, hx⟩⟩

theorem resolveExprField_stated (htag : e.tag = "exprfield") :
    Succeeds (resolveExprField env e) (Stated env place pads e) := by
  unfold resolveExprField
  refine .bind fun herrors => ?_
  obtain ⟨⟨name, t⟩, hvalue, hname, ht⟩ := nameAndType_succeeds env e herrors
  rw [hvalue]
  dsimp only
  split
  · exact .refuse
  · next child rest hchildren =>
    refine .map (resolveExpr_succeeds env child) fun x hx => ?_
    exact ⟨_, rfl, .computed htag hname ht ⟨child, rest, hchildren, hx⟩⟩

theorem field?_of_not_stated (env : Env) (place : Place) (pads : Nat) (h : statesField e = false) :
    (resolveMember env place pads e).value.toList.filterMap Member.field? = [] := by
  obtain ⟨tag, attrs, text, children, span⟩ := e
  unfold resolveMember
  dsimp only
  split
  case h_7 => split <;> rfl
  case h_8 => split <;> rfl
  all_goals cases h

end

mutual

/-- An element that stands for a field is resolved to it, or an error says why not. -/
theorem resolveMember_stated (place : Place) (pads : Nat) (e : Element) (h : statesField e = true) :
    Succeeds (resolveMember env place pads e) (Stated env place pads e) := by
  match e with
  | ⟨tag, attrs, text, children, span⟩ =>
    unfold resolveMember
    dsimp only
    split
    · exact .bind fun _ => .result ⟨_, rfl, .pad rfl⟩
    · exact resolvePlain_stated rfl
    · exact resolveDescriptor_stated rfl
    · exact resolveList_stated rfl
    · exact resolveExprField_stated rfl
    · refine .bind fun herrors => ?_
      obtain ⟨name, hvalue, hname⟩ := requireAttr_succeeds _ "name" herrors
      rw [hvalue]
      refine .bind fun _ => .bind fun hbranches => ?_
      have hstated := resolveBranches_stated _ true children hbranches
      unfold switchMember
      split
      · next selector hselector =>
        cases children with
        | nil => cases hselector
        | cons child rest => exact .result ⟨_, rfl, .switch rfl hname rfl hselector hstated⟩
      · exact .refuse
    · cases h
    · simp_all [statesField]

theorem resolveMembers_stated (place : Place) (pads : Nat) (es : List Element)
    (h : (resolveMembers env place pads es).errors = []) :
    FieldsFor env Mentions place pads es
      ((resolveMembers env place pads es).value.filterMap Member.field?) := by
  match es with
  | [] =>
    rw [resolveMembers]
    exact .nil
  | e :: rest =>
    unfold resolveMembers at h ⊢
    split
    · next hskip =>
      rw [if_pos hskip] at h
      exact .other (not_stated_of_isExpression (Bool.and_eq_true_iff.mp hskip).2)
        (resolveMembers_stated place pads rest h)
    · next hskip =>
      rw [if_neg hskip, Noted.errors_bind_eq_nil, Noted.errors_bind_eq_nil] at h
      have hrest := resolveMembers_stated place _ rest h.2.1
      rw [Noted.value_bind, Noted.value_bind, Noted.value_pure, List.filterMap_append]
      cases hstates : statesField e with
      | true =>
        obtain ⟨_, hvalue, f, rfl, hf⟩ := resolveMember_stated place pads e hstates h.1
        rw [hvalue]
        exact .stated hf hrest
      | false =>
        rw [field?_of_not_stated env place pads hstates]
        rw [tag_ne_pad_of_not_stated hstates] at hrest ⊢
        exact .other hstates hrest

theorem resolveBranches_stated (place : Place) (first : Bool) (es : List Element)
    (h : (resolveBranches env place first es).errors = []) :
    BranchesFor env Mentions place (if first then es.tail else es)
      (resolveBranches env place first es).value := by
  match es with
  | [] =>
    rw [resolveBranches]
    cases first <;> exact .nil
  | ⟨tag, attrs, text, children, span⟩ :: rest =>
    unfold resolveBranches at h ⊢
    cases first with
    | true => exact resolveBranches_stated place false rest h
    | false =>
      simp only [Bool.false_eq_true, ↓reduceIte] at h ⊢
      rw [Noted.errors_bind_eq_nil, Noted.errors_bind_eq_nil] at h
      have hrest := resolveBranches_stated place false rest h.2.1
      rw [Noted.value_bind, Noted.value_bind, Noted.value_pure]
      have hbranch := h.1
      rw [resolveBranch] at hbranch ⊢
      dsimp only at hbranch ⊢
      split
      · next htag =>
        rw [if_pos htag, Noted.errors_bind_eq_nil, Noted.errors_bind_eq_nil] at hbranch
        exact .cons (by simpa using htag) (resolveSelectors_stated children hbranch.1)
          (resolveMembers_stated _ 0 children hbranch.2.1) hrest
      · next htag =>
        rw [if_neg htag] at hbranch
        cases hbranch

end

theorem replaceMentions_padType (f : Kind → Name → Ty) (e : Element) :
    replaceMentions f (padType e).value = (padType e).value := by
  unfold padType
  split <;> rfl

theorem replaceInFields_cons (f : Kind → Name → Ty) (g : Field) (rest : List Field) :
    replaceInFields f (g :: rest) =
      { g with type := replaceMentions f g.type } :: replaceInFields f rest := by
  obtain ⟨name, type, wire, visible⟩ := g
  rfl

section
variable {T T' : Target → Ty → Prop} {f : Kind → Name → Ty}

theorem typeOf_replace
    (hT : ∀ target, Offered env target → ∀ t, T target t → T' target (replaceMentions f t))
    {e : Element} {t : Ty} (h : TypeOf env T e t) : TypeOf env T' e (replaceMentions f t) := by
  obtain ⟨name, target, index, hname, hlookup, ht⟩ := h
  exact ⟨name, target, index, hname, hlookup, hT target ⟨name, index, hlookup⟩ t ht⟩

mutual

theorem fieldFor_replace
    (hT : ∀ target, Offered env target → ∀ t, T target t → T' target (replaceMentions f t))
    {place : Place} {pads : Nat} {e : Element} {g : Field} (h : FieldFor env T place pads e g) :
    FieldFor env T' place pads e { g with type := replaceMentions f g.type } := by
  match h with
  | .pad htag =>
    rw [replaceMentions_padType]
    exact .pad htag
  | .plain htag hname ht => exact .plain htag hname (typeOf_replace hT ht)
  | .descriptor htag hname => exact .descriptor htag hname
  | .list htag hname ht hx => exact .list htag hname (typeOf_replace hT ht) hx
  | .computed htag hname ht hx => exact .computed htag hname (typeOf_replace hT ht) hx
  | .switch htag hname hchildren hselector hbranches =>
    exact .switch htag hname hchildren hselector (branchesFor_replace hT hbranches)

theorem fieldsFor_replace
    (hT : ∀ target, Offered env target → ∀ t, T target t → T' target (replaceMentions f t))
    {place : Place} {pads : Nat} {es : List Element} {fields : List Field}
    (h : FieldsFor env T place pads es fields) :
    FieldsFor env T' place pads es (replaceInFields f fields) := by
  match h with
  | .nil => exact .nil
  | .stated hf hrest =>
    rw [replaceInFields_cons]
    exact .stated (fieldFor_replace hT hf) (fieldsFor_replace hT hrest)
  | .other he hrest => exact .other he (fieldsFor_replace hT hrest)

theorem branchesFor_replace
    (hT : ∀ target, Offered env target → ∀ t, T target t → T' target (replaceMentions f t))
    {place : Place} {es : List Element} {branches : List Field}
    (h : BranchesFor env T place es branches) :
    BranchesFor env T' place es (replaceInFields f branches) := by
  match h with
  | .nil => exact .nil
  | .cons htag hselectors hfields hrest =>
    exact .cons htag hselectors (fieldsFor_replace hT hfields) (branchesFor_replace hT hrest)

end

end

end
end CodecGen.Resolve
