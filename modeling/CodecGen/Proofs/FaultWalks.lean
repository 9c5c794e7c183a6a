import CodecGen.Proofs.FaultChecks
set_option autoImplicit false
/-!
Faults of encoders and decoders. Code for a message goes from the message to its fields, and from those
into what they contain; a fault from inside is found one step further on the way.
-/
namespace CodecGen.Emit
open Schema

section
variable {path : List String} {dir : Direction} {s : Scope} {owner : Owner} {f : Field} {fault : Fault}

theorem FaultFrom.of_members {shape : Shape} {name : Name} {fields : List Field}
    (hf : f.type = .container shape name fields)
    (h : FaultAmong path ⟨dir, boundBy fields ++ s⟩ (.message shape) fields fault) :
    FaultFrom path ⟨dir, s⟩ (.field owner f) fault := by
  obtain ⟨g, hg, hfault⟩ := h
  refine .step (.contained hf hg) ?_
  rw [inside_field hf]
  exact hfault

theorem FaultFrom.of_elements {shape : Shape} {name : Name} {fields : List Field} {count : Int}
    {length : Option Expr} (hf : f.type = .list (.container shape name fields) count length)
    (h : FaultAmong path ⟨dir, boundBy fields ++ s⟩ (.message shape) fields fault) :
    FaultFrom path ⟨dir, s⟩ (.field owner f) fault := by
  obtain ⟨g, hg, hfault⟩ := h
  refine .step (.listed hf hg) ?_
  rw [inside_field hf]
  exact hfault

theorem FaultFrom.of_branches {name : Name} {selector : Expr} {cases : List Field}
    (hf : f.type = .switch name selector cases)
    (h : FaultAmongBranches path ⟨dir, boundBy (branchMembers cases) ++ s⟩ cases fault) :
    FaultFrom path ⟨dir, s⟩ (.field owner f) fault := by
  obtain ⟨b, hb, hfault⟩ := h
  refine .step (.branched hf hb) ?_
  rw [inside_field hf]
  exact hfault

theorem FaultFrom.of_selected {b : Field} {name : Name} {byValue byMask : Bool} {selectors : List Expr}
    {fields : List Field} (hb : b.type = .case name byValue byMask selectors fields)
    (h : FaultAmong path ⟨dir, branchScope b.name fields s⟩ .branch fields fault) :
    FaultFrom path ⟨dir, s⟩ (.branch b) fault := by
  obtain ⟨g, hg, hfault⟩ := h
  refine .step (.selected hb hg) ?_
  rw [Node.inside, hb]
  exact hfault

end

-- The induction follows the copying. The setting of a node has the scope that the node is copied in, so a
-- fault from inside is one step away.
mutual

theorem copyField_fails (f : Field) (owner : Owner) (site : Site) (head? : Option RequestHead)
    (hhead : Heads head? owner) (s : Scope) :
    FailsBy s (FaultFrom (site.path ++ [f.name]) ⟨site.dir, s⟩ (.field owner f))
      (copyField site head? f) := by
  match f with
  | ⟨name, type, wire, visible⟩ =>
    rw [copyField_eq]
    refine .map (Q := fun _ => True) ?_ fun _ _ => trivial
    cases visible with
    | true =>
      have hvalue hpad := copyValue_fails type ⟨name, type, wire, true⟩ owner rfl hpad (site.at name)
        (safeName name) s
      cases type with
      | pad bytes align => exact copyPad_fails rfl (site.at name) _
      | _ => exact hvalue (by simp)
    | false =>
      cases type with
      | pad bytes align => exact copyPad_fails rfl (site.at name) _
      | _ => exact copyHidden_fails hhead rfl (site.at name)
termination_by structural f

theorem copyValue_fails (type : Ty) (f : Field) (owner : Owner) (hf : f.type = type)
    (hpad : ∀ bytes align, type ≠ .pad bytes align) (site : Site) (name : String) (s : Scope) :
    FailsBy s (FaultFrom site.path ⟨site.dir, s⟩ (.field owner f)) (copyValue site name type) := by
  cases type with
  | container shape n fields =>
    have hbody := copyFields_fails fields (.message shape) site _ (heads_requestHead? shape fields)
      (boundBy fields ++ s)
    exact .bind (hbody.weaken fun _ => .of_members hf).withFields fun _ _ => .pure trivial
  | list member count length =>
    apply Ensures.bind (copyLength_fails hf name)
    intro _ _
    exact .bind (copyElement_fails member f owner count length hf site _ s) fun _ _ => .pure trivial
  | switch n selector cases =>
    have hmembers := switchMembers_finds site ⟨site.dir, boundBy (branchMembers cases) ++ s⟩ cases
    apply Ensures.bind (.lift (hmembers.weaken fun _ => .of_branches hf))
    rintro members rfl
    -- The selector is compiled with the members of the switch in scope, though it stands outside of them.
    refine .bind (Ensures.withFields (Q := fun _ => True) ?_) fun _ _ => .pure trivial
    apply Ensures.bind ((compileExpr_fails site selector _).weaken fun _ hfault =>
      .of_expr hfault fun _ hcause => .selector hf hcause)
    intro _ _
    have hbranches := copyBranches_fails cases site
    exact .bind ((hbranches _ _).weaken fun _ => .of_branches hf) fun _ _ => .pure trivial
  | simple n | union n fields => exact .pure trivial
  | mention kind n =>
    cases kind with
    | union => exact .pure trivial
    | struct | request | event | error => exact .fail (.here (.selfContained hf rfl))
    | _ => exact .fail (.here (.of_type hf rfl))
  | pad bytes align => exact absurd rfl (hpad bytes align)
  | _ => exact .fail (.here (.of_type hf rfl))
termination_by structural type

theorem copyElement_fails (type : Ty) (f : Field) (owner : Owner) (count : Int) (length : Option Expr)
    (hf : f.type = .list type count length) (site : Site) (name : String) (s : Scope) :
    FailsBy s (FaultFrom site.path ⟨site.dir, s⟩ (.field owner f)) (copyElement site name type) := by
  cases type with
  | container shape n fields =>
    have hbody := copyFields_fails fields (.message shape) site _ (heads_requestHead? shape fields)
      (boundBy fields ++ s)
    exact .bind (hbody.weaken fun _ => .of_elements hf).withFields fun _ _ => .pure trivial
  | simple n | union n fields => exact .pure trivial
  | mention kind n =>
    cases kind with
    | union => exact .pure trivial
    | struct | request | event | error => exact .fail (.here (.elementSelfContained hf rfl))
    | _ => exact .fail (.here (.elementType hf rfl))
  | _ => exact .fail (.here (.elementType hf rfl))
termination_by structural type

theorem copyFields_fails (fields : List Field) (owner : Owner) (site : Site)
    (head? : Option RequestHead) (hhead : Heads head? owner) (s : Scope) :
    FailsBy s (FaultAmong site.path ⟨site.dir, s⟩ owner fields) (copyFields site head? fields) := by
  cases fields with
  | nil => exact .pure trivial
  | cons f rest =>
    have hone := (copyField_fails f owner site head? hhead s).weaken fun _ => FaultAmong.head rest
    have hrest := (copyFields_fails rest owner site head? hhead s).weaken fun _ => FaultAmong.tail f
    rw [copyFields]
    split
    · exact .bind hone fun _ _ => .bind hrest fun _ _ => .pure trivial
    · exact hrest
termination_by structural fields

theorem copyBranches_fails (branches : List Field) (site : Site) (selector : String) (s : Scope) :
    FailsBy s (FaultAmongBranches site.path ⟨site.dir, s⟩ branches)
      (copyBranches site selector branches) := by
  cases branches with
  | nil => exact .pure trivial
  | cons branch rest =>
    have hone := (copyBranch_fails branch site selector s).weaken fun _ => FaultAmongBranches.head rest
    have hrest := (copyBranches_fails rest site selector s).weaken fun _ => FaultAmongBranches.tail branch
    exact .bind hone fun _ _ => .bind hrest fun _ _ => .pure trivial
termination_by structural branches

theorem copyBranch_fails (branch : Field) (site : Site) (selector : String) (s : Scope) :
    FailsBy s (FaultFrom (site.path ++ [branch.name]) ⟨site.dir, s⟩ (.branch branch))
      (copyBranch site selector branch) := by
  match branch with
  | ⟨name, type, wire, visible⟩ =>
    cases type with
    | case n byValue byMask selectors fields =>
      rw [copyBranch]
      apply Ensures.bind (.lift (checkCase_refuses rfl (site.at name) _))
      intro _ _
      dsimp only
      split
      · next hempty =>
        have hempty : selectors = [] := List.isEmpty_iff.1 hempty
        subst hempty
        exact .bind (.fail (.here (.emptyCase rfl))) fun _ (h : False) => h.elim
      have hconditions := compileConditions_fails (site.at name)
      apply Ensures.bind ((hconditions _ _ selectors s).weaken ?_)
      · intro _ _
        -- The members of an unnamed branch are in scope from the switch.
        have hbody := copyBranchFields_fails fields (site.at name) (branchScope name fields s)
        exact .bind (hbody.weaken fun _ hfault => .of_selected rfl hfault).withBranch fun _ _ => .pure trivial
      · rintro fault ⟨e, he, hfault⟩
        exact .of_expr hfault fun _ hcause => .branchSelector rfl he hcause
    | _ => exact .fail (.here (.branchType (by simp)))
termination_by structural branch

theorem copyBranchFields_fails (fields : List Field) (site : Site) (s : Scope) :
    FailsBy s (FaultAmong site.path ⟨site.dir, s⟩ .branch fields) (copyBranchFields site fields) := by
  cases fields with
  | nil => exact .pure trivial
  | cons f rest =>
    have hone := copyField_fails f .branch site none (heads_branch none) s
    have hrest := (copyBranchFields_fails rest site s).weaken fun _ => FaultAmong.tail f
    rw [copyBranchFields]
    split
    · exact .bind (hone.weaken fun _ => .head rest) fun _ _ => .bind hrest fun _ _ => .pure trivial
    · next hwire => exact .fail (.head rest (.here (.offWire (eq_false_of_ne_true hwire))))
termination_by structural fields

end

theorem copyContainer_fails (site : Site) (shape : Shape) (fields : List Field) (object : String) (s : Scope) :
    FailsBy s (FaultAmong site.path ⟨site.dir, boundBy fields ++ s⟩ (.message shape) fields)
      (copyContainer site shape fields object) := by
  have hbody := copyFields_fails fields (.message shape) site _ (heads_requestHead? shape fields)
    (boundBy fields ++ s)
  exact .bind hbody.withFields fun _ _ => .pure trivial

end CodecGen.Emit
