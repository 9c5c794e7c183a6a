import CodecGen.Proofs.Declared
import CodecGen.Proofs.StatedFields
import Mathlib.Data.List.Forall2
set_option autoImplicit false
/-!
Two resolutions of the same elements. Names are the only thing that resolution takes from its
surroundings, so two surroundings in which names lead to the same targets give the same results, and
what they note differs only in the imports that were used. A comparison of notes that holds for every
lookup holds for the elements of a whole module.
-/
namespace CodecGen.Resolve
open Schema Markup

/-- A note made while the elements of a module are looked at. Cycles of imports are no matter of one
module, and which imports are unused is known only at the end. -/
def Note.isOrdinary : Note → Prop
  | .error e => ∀ chain, e.cause ≠ .importCycle chain
  | .warning w => ∀ header, w.cause ≠ .unusedImport header
  | .used _ => True

def Note.isUse : Note → Bool
  | .used _ => true
  | _ => false

/-- How the notes of two resolutions are compared, as long as all notes of the first are admitted. -/
structure Comparison where
  admits : Note → Prop
  alike : Note → Note → Prop
  same : ∀ n : Note, n.isOrdinary → n.isUse = false → alike n n

def Agree (c : Comparison) {α : Type} (x y : Noted α) : Prop :=
  (∀ n ∈ x.notes, c.admits n) → y.value = x.value ∧ List.Forall₂ c.alike x.notes y.notes

namespace Agree
variable {c : Comparison} {α β : Type} {x y : Noted α}

theorem pure (a : α) : Agree c (pure a) (pure a) := fun _ => ⟨rfl, .nil⟩

theorem note (a : α) {n : Note} (h : n.isOrdinary) (huse : n.isUse = false) :
    Agree c (⟨a, [n]⟩ : Noted α) ⟨a, [n]⟩ := fun _ => ⟨rfl, .cons (c.same n h huse) .nil⟩

theorem refuse {cause : ErrorCause} {span : Span} (h : ∀ chain, cause ≠ .importCycle chain) :
    Agree c (refuse cause span : Noted (Option α)) (refuse cause span) := .note none h rfl

theorem bind {f g : α → Noted β} (h : Agree c x y) (hf : ∀ a, Agree c (f a) (g a)) :
    Agree c (x >>= f) (y >>= g) := by
  intro hnotes
  rw [Noted.notes_bind, List.forall_mem_append] at hnotes
  obtain ⟨hvalue, hx⟩ := h hnotes.1
  obtain ⟨hresult, hfx⟩ := hf x.value hnotes.2
  rw [Noted.value_bind, Noted.value_bind, Noted.notes_bind, Noted.notes_bind, hvalue]
  exact ⟨hresult, List.rel_append hx hfx⟩

theorem map {f : α → β} (h : Agree c x y) : Agree c (f <$> x) (f <$> y) := by
  rw [map_eq_pure_bind, map_eq_pure_bind]
  exact h.bind fun a => .pure (f a)

theorem handOn {f : α → β} (h : Agree c x y) :
    Agree c (do return f (← x)) (do return f (← y)) := h.bind fun a => .pure (f a)

end Agree

/-- Names lead to the same targets in two surroundings, up to a comparison of the notes. -/
def LooksUp (c : Comparison) (env env' : Env) : Prop :=
  ∀ name span, Agree c (lookupType env name span) (lookupType env' name span)

section
variable {c : Comparison} {env env' : Env}

theorem requireAttr_agree (e : Element) (attr : String) :
    Agree c (requireAttr e attr) (requireAttr e attr) := by
  unfold requireAttr
  split
  · exact .pure _
  · exact .refuse (by simp)

theorem noteError_agree {cause : ErrorCause} {span : Span} (h : ∀ chain, cause ≠ .importCycle chain) :
    Agree c (noteError cause span) (noteError cause span) := .note () h rfl

theorem noteWarning_agree {cause : WarningCause} {span : Span}
    (h : ∀ header, cause ≠ .unusedImport header) :
    Agree c (noteWarning cause span) (noteWarning cause span) := .note () h rfl

theorem intAttr_agree (e : Element) (attr : String) (default : Int) :
    Agree c (intAttr e attr default) (intAttr e attr default) := by
  unfold intAttr
  split
  · exact .pure _
  · split
    · exact .pure _
    · exact .bind (noteError_agree (by simp)) fun _ => .pure _

theorem natural_agree (e : Element) : Agree c (natural e) (natural e) := by
  unfold natural
  split
  · exact .pure _
  · exact .refuse (by simp)

theorem bitPosition_agree (e : Element) : Agree c (bitPosition e) (bitPosition e) := by
  unfold bitPosition
  refine (natural_agree e).bind fun v => ?_
  cases v with
  | none => exact .pure _
  | some v =>
    dsimp only
    split
    · exact .pure _
    · exact .refuse (by simp)

theorem resolveEnumRef_agree (h : LooksUp c env env') (e : Element) :
    Agree c (resolveEnumRef env e) (resolveEnumRef env' e) := by
  unfold resolveEnumRef
  refine (requireAttr_agree e "ref").bind fun ref => ?_
  cases ref with
  | none => exact .pure _
  | some ref =>
    refine (h ref e.span).bind fun target => ?_
    cases target with
    | none => exact .pure _
    | some target =>
      dsimp only
      split
      · exact .pure _
      · exact .refuse (by simp)

theorem resolveNode_agree (h : LooksUp c env env') (e : Element)
    {operands operands' : List (Noted (Option Expr))}
    (hoperands : List.Forall₂ (Agree c) operands operands') :
    Agree c (resolveNode env e operands) (resolveNode env' e operands') := by
  unfold resolveNode
  split
  · refine (requireAttr_agree e "op").bind fun op => ?_
    cases op with
    | none => exact .pure _
    | some op =>
      dsimp only
      cases binaryOps.contains op with
      | false => exact .refuse (by simp)
      | true =>
        -- both operands are looked at, whatever is wrong with the first
        match hoperands with
        | .nil | .cons _ .nil | .cons _ (.cons _ (.cons _ _)) => exact .refuse (by simp)
        | .cons hl (.cons hr .nil) =>
          refine hl.bind fun lhs => hr.bind fun rhs => ?_
          cases lhs <;> cases rhs <;> exact .pure _
  · cases e.attrD "op" "" == "~" with
    | false => exact .refuse (by simp)
    | true =>
      match hoperands with
      | .nil | .cons _ (.cons _ _) => exact .refuse (by simp)
      | .cons hx .nil => exact hx.handOn
  · match hoperands with
    | .nil | .cons _ (.cons _ _) => exact .refuse (by simp)
    | .cons hx .nil => exact hx.handOn
  · refine (requireAttr_agree e "ref").bind fun ref => ?_
    cases ref with
    | none => exact .pure _
    | some ref =>
      cases hoperands with
      | nil => exact .pure _
      | cons hx _ => exact hx.handOn
  · exact .pure _
  · exact .pure _
  · exact resolveEnumRef_agree h e
  · exact (natural_agree e).handOn
  · exact (bitPosition_agree e).handOn
  · exact .pure _
  · exact .refuse (by simp)

mutual

theorem resolveExpr_agree (h : LooksUp c env env') (e : Element) :
    Agree c (resolveExpr env e) (resolveExpr env' e) := by
  match e with
  | ⟨tag, attrs, text, children, span⟩ =>
    rw [resolveExpr, resolveExpr]
    exact resolveNode_agree h _ (resolveExprs_agree h children)

theorem resolveExprs_agree (h : LooksUp c env env') (es : List Element) :
    List.Forall₂ (Agree c) (resolveExprs env es) (resolveExprs env' es) := by
  match es with
  | [] =>
    rw [resolveExprs, resolveExprs]
    exact .nil
  | e :: rest =>
    rw [resolveExprs, resolveExprs]
    exact .cons (resolveExpr_agree h e) (resolveExprs_agree h rest)

end

theorem resolvePad_agree (pads : Nat) (e : Element) :
    Agree c (resolvePad pads e) (resolvePad pads e) := by
  unfold resolvePad padType
  split
  · exact (intAttr_agree e "align" 1).map.handOn
  · exact (intAttr_agree e "bytes" 1).map.handOn

theorem nameAndType_agree (h : LooksUp c env env') (e : Element) :
    Agree c (nameAndType env e) (nameAndType env' e) := by
  unfold nameAndType
  refine (requireAttr_agree e "name").bind fun name => (requireAttr_agree e "type").bind fun type => ?_
  cases name with
  | none => exact .pure _
  | some name =>
    cases type with
    | none => exact .pure _
    | some type => exact (h type e.span).handOn

theorem resolveList_agree (h : LooksUp c env env') (place : Place) (e : Element) :
    Agree c (resolveList env place e) (resolveList env' place e) := by
  unfold resolveList
  refine (nameAndType_agree h e).bind fun named => ?_
  cases named with
  | none => exact .pure _
  | some named =>
    dsimp only
    split
    · exact .pure _
    · exact (resolveExpr_agree h _).handOn

theorem resolveExprField_agree (h : LooksUp c env env') (e : Element) :
    Agree c (resolveExprField env e) (resolveExprField env' e) := by
  unfold resolveExprField
  refine (nameAndType_agree h e).bind fun named => ?_
  cases named with
  | none => exact .pure _
  | some named =>
    dsimp only
    split
    · exact .refuse (by simp)
    · exact (resolveExpr_agree h _).handOn

theorem resolveSelectors_agree (h : LooksUp c env env') (es : List Element) :
    Agree c (resolveSelectors env es) (resolveSelectors env' es) := by
  induction es with
  | nil => exact .pure _
  | cons e rest ih =>
    unfold resolveSelectors
    split
    · exact (resolveExpr_agree h e).bind fun _ => ih.bind fun _ => .pure _
    · exact ih

theorem resolveSelector_agree (h : LooksUp c env env') (children : List Element) :
    Agree c (resolveSelector env children) (resolveSelector env' children) := by
  cases children with
  | nil => exact .pure _
  | cons e _ => exact resolveExpr_agree h e

theorem switchMember_agree (e : Element) (name : String) (type : Name) (selector : Option Expr)
    (branches : List Field) :
    Agree c (switchMember e name type selector branches)
      (switchMember e name type selector branches) := by
  cases selector with
  | none => exact .refuse (by simp)
  | some _ => exact .pure _

mutual

theorem resolveMember_agree (h : LooksUp c env env') (place : Place) (pads : Nat) (e : Element) :
    Agree c (resolveMember env place pads e) (resolveMember env' place pads e) := by
  match e with
  | ⟨tag, attrs, text, children, span⟩ =>
    unfold resolveMember
    dsimp only
    split
    · exact resolvePad_agree pads _
    · exact (nameAndType_agree h _).handOn
    · exact (requireAttr_agree _ "name").handOn
    · exact resolveList_agree h place _
    · exact resolveExprField_agree h _
    · refine (requireAttr_agree _ "name").bind fun name => ?_
      cases name with
      | none => exact .pure _
      | some name =>
        refine (resolveSelector_agree h children).bind fun selector => ?_
        exact (resolveBranches_agree h _ true children).bind fun branches =>
          switchMember_agree _ name _ selector branches
    · split
      · exact (resolveMembers_agree h _ 0 children).handOn
      · exact .refuse (by simp)
    · split
      · exact .bind (noteWarning_agree (by simp)) fun _ => .pure _
      · exact .refuse (by simp)

theorem resolveMembers_agree (h : LooksUp c env env') (place : Place) (pads : Nat)
    (es : List Element) :
    Agree c (resolveMembers env place pads es) (resolveMembers env' place pads es) := by
  match es with
  | [] =>
    rw [resolveMembers, resolveMembers]
    exact .pure _
  | e :: rest =>
    unfold resolveMembers
    split
    · exact resolveMembers_agree h place pads rest
    · exact (resolveMember_agree h place pads e).bind fun _ =>
        (resolveMembers_agree h place _ rest).handOn

theorem resolveBranches_agree (h : LooksUp c env env') (place : Place) (first : Bool)
    (es : List Element) :
    Agree c (resolveBranches env place first es) (resolveBranches env' place first es) := by
  match es with
  | [] =>
    rw [resolveBranches, resolveBranches]
    exact .pure _
  | e :: rest =>
    unfold resolveBranches
    split
    · exact resolveBranches_agree h place false rest
    · exact (resolveBranch_agree h place e).bind fun _ =>
        (resolveBranches_agree h place false rest).handOn

theorem resolveBranch_agree (h : LooksUp c env env') (place : Place) (e : Element) :
    Agree c (resolveBranch env place e) (resolveBranch env' place e) := by
  match e with
  | ⟨tag, attrs, text, children, span⟩ =>
    rw [resolveBranch, resolveBranch]
    dsimp only
    split
    · exact (resolveSelectors_agree h children).bind fun _ =>
        (resolveMembers_agree h _ 0 children).handOn
    · exact .refuse (by simp)

end

end

end CodecGen.Resolve
