import CodecGen.Proofs.ComparedModules
import CodecGen.Proofs.Spans
set_option autoImplicit false
/-!
The places of notes. Every error and every warning takes its place from an element that is being looked
at; so do those about attributes, expressions and members.
-/
namespace CodecGen.Resolve
open Schema Markup

def Note.span? : Note → Option Span
  | .error e => some e.span
  | .warning w => some w.span
  | .used _ => none

/-- All errors and warnings are at places that satisfy `S`. -/
def Points (S : Span → Prop) {α : Type} (x : Noted α) : Prop :=
  ∀ n ∈ x.notes, ∀ span ∈ n.span?, S span

namespace Points
variable {S : Span → Prop} {α β : Type} {x : Noted α}

theorem pure (a : α) : Points S (pure a : Noted α) := fun _ hn => absurd hn List.not_mem_nil

theorem note (a : α) {n : Note} (h : ∀ span ∈ n.span?, S span) : Points S (⟨a, [n]⟩ : Noted α) := by
  intro m hm
  rw [List.mem_singleton.1 hm]
  exact h

theorem error (a : α) {cause : ErrorCause} {span : Span} (h : S span) :
    Points S (⟨a, [.error ⟨cause, span⟩]⟩ : Noted α) :=
  .note a fun _ heq => Option.some.inj heq ▸ h

theorem warning (a : α) {cause : WarningCause} {span : Span} (h : S span) :
    Points S (⟨a, [.warning ⟨cause, span⟩]⟩ : Noted α) :=
  .note a fun _ heq => Option.some.inj heq ▸ h

theorem bind {f : α → Noted β} (hx : Points S x) (hf : Points S (f x.value)) : Points S (x >>= f) := by
  intro n hn
  rw [Noted.notes_bind, List.mem_append] at hn
  rcases hn with hn | hn
  · exact hx n hn
  · exact hf n hn

theorem handOn {f : α → β} (hx : Points S x) : Points S (do return f (← x)) := hx.bind (.pure _)

theorem map {f : α → β} (hx : Points S x) : Points S (f <$> x) := by
  rw [map_eq_pure_bind]
  exact hx.handOn

theorem errors (hx : Points S x) : ∀ e ∈ x.errors, S e.span :=
  fun _ he => hx _ (error_of_mem_errors he) _ rfl

theorem warnings (hx : Points S x) : ∀ w ∈ x.warnings, S w.span :=
  fun _ hw => hx _ (warning_of_mem_warnings hw) _ rfl

end Points

/-- The element and all that is inside it are at such places. -/
def Covers (S : Span → Prop) (e : Element) : Prop := ∀ x ∈ e.preorder, S x.span

section
variable {S : Span → Prop} {env : Env}

theorem Covers.self {e : Element} (h : Covers S e) : S e.span := by
  refine h e ?_
  rw [Element.preorder_eq]
  exact List.mem_cons_self

theorem mem_preorderOf_of_mem {x c : Element} {es : List Element} (hc : c ∈ es) (hx : x ∈ c.preorder) :
    x ∈ preorderOf es := by
  induction es with
  | nil => exact absurd hc List.not_mem_nil
  | cons e rest ih =>
    rw [preorderOf, List.mem_append]
    rcases List.mem_cons.1 hc with rfl | hc
    · exact .inl hx
    · exact .inr (ih hc)

theorem Covers.children {e : Element} (h : Covers S e) : ∀ c ∈ e.children, Covers S c := by
  intro c hc x hx
  refine h x ?_
  rw [Element.preorder_eq]
  exact List.mem_cons_of_mem e (mem_preorderOf_of_mem hc hx)

theorem Covers.first {e child : Element} {rest : List Element} (h : Covers S e)
    (hchildren : e.children = child :: rest) : Covers S child :=
  h.children child (hchildren ▸ List.mem_cons_self)

theorem lookupType_points (env : Env) (name : String) {span : Span} (h : S span) :
    Points S (lookupType env name span) := by
  unfold lookupType
  split
  · exact .note _ (by simp [Note.span?])
  · exact .pure _
  · exact .error none h

theorem requireAttr_points {e : Element} (h : Covers S e) (attr : String) :
    Points S (requireAttr e attr) := by
  unfold requireAttr
  split
  · exact .pure _
  · exact .error none h.self

theorem intAttr_points {e : Element} (h : Covers S e) (attr : String) (default : Int) :
    Points S (intAttr e attr default) := by
  unfold intAttr
  split
  · exact .pure _
  · split
    · exact .pure _
    · exact .bind (.error () h.self) (.pure _)

theorem natural_points {e : Element} (h : Covers S e) : Points S (natural e) := by
  unfold natural
  split
  · exact .pure _
  · exact .error none h.self

theorem bitPosition_points {e : Element} (h : Covers S e) : Points S (bitPosition e) := by
  unfold bitPosition
  refine (natural_points h).bind ?_
  split
  · split
    · exact .pure _
    · exact .error none h.self
  · exact .pure _

theorem resolveEnumRef_points (env : Env) {e : Element} (h : Covers S e) :
    Points S (resolveEnumRef env e) := by
  unfold resolveEnumRef
  refine (requireAttr_points h "ref").bind ?_
  split
  · exact .pure _
  · refine (lookupType_points env _ h.self).bind ?_
    split
    · exact .pure _
    · split
      · exact .pure _
      · exact .error none h.self

theorem resolveNode_points (env : Env) {e : Element} (h : Covers S e)
    {operands : List (Noted (Option Expr))} (hoperands : ∀ x ∈ operands, Points S x) :
    Points S (resolveNode env e operands) := by
  unfold resolveNode
  split
  · refine (requireAttr_points h "op").bind ?_
    split
    · exact .pure _
    · split
      · next l r _ =>
        refine (hoperands l (by simp)).bind ((hoperands r (by simp)).bind ?_)
        split <;> exact .pure _
      · exact .error none h.self
  · split
    · next x _ => exact (hoperands x (by simp)).handOn
    · exact .error none h.self
  · split
    · next x => exact (hoperands x (by simp)).handOn
    · exact .error none h.self
  · refine (requireAttr_points h "ref").bind ?_
    split
    · exact .pure _
    · split
      · exact .pure _
      · next x _ => exact (hoperands x (by simp)).handOn
  · exact .pure _
  · exact .pure _
  · exact resolveEnumRef_points env h
  · exact (natural_points h).handOn
  · exact (bitPosition_points h).handOn
  · exact .pure _
  · exact .error none h.self

mutual

theorem resolveExpr_points (env : Env) (e : Element) (h : Covers S e) :
    Points S (resolveExpr env e) := by
  match e with
  | ⟨tag, attrs, text, children, span⟩ =>
    rw [resolveExpr]
    exact resolveNode_points env h (resolveExprs_points env children h.children)

theorem resolveExprs_points (env : Env) (es : List Element) (h : ∀ e ∈ es, Covers S e) :
    ∀ x ∈ resolveExprs env es, Points S x := by
  match es with
  | [] =>
    intro x hx
    rw [resolveExprs] at hx
    cases hx
  | e :: rest =>
    rw [List.forall_mem_cons] at h
    rw [resolveExprs, List.forall_mem_cons]
    exact ⟨resolveExpr_points env e h.1, resolveExprs_points env rest h.2⟩

end

theorem resolvePad_points (pads : Nat) {e : Element} (h : Covers S e) :
    Points S (resolvePad pads e) := by
  unfold resolvePad padType
  split
  · exact (intAttr_points h "align" 1).map.handOn
  · exact (intAttr_points h "bytes" 1).map.handOn

theorem nameAndType_points (env : Env) {e : Element} (h : Covers S e) :
    Points S (nameAndType env e) := by
  unfold nameAndType
  refine (requireAttr_points h "name").bind ((requireAttr_points h "type").bind ?_)
  split
  · exact (lookupType_points env _ h.self).handOn
  · exact .pure _

theorem resolveList_points (env : Env) (place : Place) {e : Element} (h : Covers S e) :
    Points S (resolveList env place e) := by
  unfold resolveList
  refine (nameAndType_points env h).bind ?_
  split
  · exact .pure _
  · dsimp only
    split
    · exact .pure _
    · next child rest hchildren => exact (resolveExpr_points env child (h.first hchildren)).handOn

theorem resolveExprField_points (env : Env) {e : Element} (h : Covers S e) :
    Points S (resolveExprField env e) := by
  unfold resolveExprField
  refine (nameAndType_points env h).bind ?_
  split
  · exact .pure _
  · split
    · exact .error none h.self
    · next child rest hchildren => exact (resolveExpr_points env child (h.first hchildren)).handOn

theorem resolveSelectors_points (env : Env) {es : List Element} (h : ∀ e ∈ es, Covers S e) :
    Points S (resolveSelectors env es) := by
  induction es with
  | nil => exact .pure _
  | cons e rest ih =>
    rw [List.forall_mem_cons] at h
    unfold resolveSelectors
    split
    · exact (resolveExpr_points env e h.1).bind (ih h.2).handOn
    · exact ih h.2

theorem resolveSelector_points (env : Env) {es : List Element} (h : ∀ e ∈ es, Covers S e) :
    Points S (resolveSelector env es) := by
  cases es with
  | nil => exact .pure _
  | cons e rest => exact resolveExpr_points env e (h e List.mem_cons_self)

theorem switchMember_points {e : Element} (h : Covers S e) (name : String) (type : Name)
    (selector : Option Expr) (branches : List Field) :
    Points S (switchMember e name type selector branches) := by
  cases selector with
  | none => exact .error none h.self
  | some selector => exact .pure _

mutual

theorem resolveMember_points (env : Env) (place : Place) (pads : Nat) (e : Element)
    (h : Covers S e) : Points S (resolveMember env place pads e) := by
  match e with
  | ⟨tag, attrs, text, children, span⟩ =>
    have hchildren : ∀ c ∈ children, Covers S c := h.children
    unfold resolveMember
    dsimp only
    split
    · exact resolvePad_points pads h
    · exact (nameAndType_points env h).handOn
    · exact (requireAttr_points h "name").handOn
    · exact resolveList_points env place h
    · exact resolveExprField_points env h
    · refine (requireAttr_points h "name").bind ?_
      split
      · exact .pure _
      · refine (resolveSelector_points env hchildren).bind ?_
        exact (resolveBranches_points env _ true children hchildren).bind
          (switchMember_points h _ _ _ _)
    · split
      · exact (resolveMembers_points env _ 0 children hchildren).handOn
      · exact .error none h.self
    · split
      · exact .bind (.warning () h.self) (.pure _)
      · exact .error none h.self

theorem resolveMembers_points (env : Env) (place : Place) (pads : Nat) (es : List Element)
    (h : ∀ e ∈ es, Covers S e) : Points S (resolveMembers env place pads es) := by
  match es with
  | [] =>
    rw [resolveMembers]
    exact .pure _
  | e :: rest =>
    rw [List.forall_mem_cons] at h
    unfold resolveMembers
    split
    · exact resolveMembers_points env place pads rest h.2
    · exact (resolveMember_points env place pads e h.1).bind
        (resolveMembers_points env place _ rest h.2).handOn

theorem resolveBranches_points (env : Env) (place : Place) (first : Bool) (es : List Element)
    (h : ∀ e ∈ es, Covers S e) : Points S (resolveBranches env place first es) := by
  match es with
  | [] =>
    rw [resolveBranches]
    exact .pure _
  | e :: rest =>
    rw [List.forall_mem_cons] at h
    unfold resolveBranches
    split
    · exact resolveBranches_points env place false rest h.2
    · exact (resolveBranch_points env place e h.1).bind
        (resolveBranches_points env place false rest h.2).handOn

theorem resolveBranch_points (env : Env) (place : Place) (e : Element) (h : Covers S e) :
    Points S (resolveBranch env place e) := by
  match e with
  | ⟨tag, attrs, text, children, span⟩ =>
    have hchildren : ∀ c ∈ children, Covers S c := h.children
    -- Of the body only the children are looked at, and those stand in the branch.
    have hbody : Points S (resolveFields env { place with inBranch := false }
        (branchBody ⟨tag, attrs, text, children, span⟩)) := by
      unfold resolveFields
      rw [branchBody, ← resolveMembers_inBranch]
      exact (resolveMembers_points env _ 0 children hchildren).handOn
    rw [resolveBranch_eq]
    split
    · exact (resolveSelectors_points env hchildren).bind hbody.handOn
    · exact .error none h.self

end

end

end CodecGen.Resolve
