import CodecGen.Proofs.EmittedCode
set_option autoImplicit false
/-!
Every successful run of the emitters writes code of the form that `Written` describes.
-/
namespace CodecGen.Emit
open Schema

abbrev Produces (site : Site) (locals : List String) (s : Scope) (n : Nat) (is : List Ingredient)
    (x : Emission (List Stmt)) : Prop :=
  Emits s n (fun out m => Written site.dir site.ns locals s n is out m) x

section
variable {site : Site} {locals : List String} {s : Scope} {n : Nat}

theorem compileConditions_tested (test selector : String) (es : List Expr) (n : Nat) :
    Emits s n (fun r m => Tested site.dir site.ns test selector s n es r.1 r.2 m)
      (compileConditions site test selector es) := by
  induction es generalizing n with
  | nil => exact .pure .nil
  | cons e rest ih =>
    apply Emits.bind (compileExpr_expressed site e s n)
    intro one k hone
    apply Emits.bind (ih k)
    intro more m hmore
    exact .pure (.cons hone hmore)

theorem copyPad_written (site : Site) (bytes align : Int) :
    Produces site locals s n [] (copyPad site bytes align) := by
  unfold copyPad
  split
  · exact .pure (.note rfl)
  · split
    · exact .fail
    · exact .pure (.note rfl)

theorem copyOpcode_written {head? : Option RequestHead} (name : String) (type : Ty) :
    Produces site locals s n [.hidden name type]
      (copyOpcode site head? (qualify type site.ns) (safeName name)) := by
  unfold copyOpcode
  split
  · exact .fail
  · exact .fail
  · rename_i head hdir
    split
    · exact .pure (.append (.note rfl) (.reserve name type))
    · rw [← hdir]
      exact .pure (.opcode name type head.opcode)

theorem mem_headerNames {name : String} :
    headerNames.contains name = true ↔ (name == "major_opcode" || name == "minor_opcode") = true ∨
      (name == "response_type" || name == "sequence" || name == "extension") = true ∨
      (name == "length") = true := by
  simp [headerNames, or_assoc]

theorem copyHeader_written {head? : Option RequestHead} {name : String} {type : Ty}
    (h : headerNames.contains (safeName name) = true) :
    Produces site locals s n [.hidden name type] (copyHidden site head? (safeName name) type) := by
  have hread : Written .decode site.ns locals s n [.hidden name type]
      [.declare (qualify type site.ns) (safeName name), .copy .decode (safeName name)] n :=
    .read name type
  unfold copyHidden
  dsimp only
  split
  · exact copyOpcode_written name type
  split
  · split
    · exact .fail
    · rename_i hdir
      rw [Produces, hdir]
      exact .pure hread
  split
  · split
    · exact .pure (.append (.note rfl) (.reserve name type))
    · rename_i hdir
      rw [Produces, hdir]
      exact .pure hread
  · rcases mem_headerNames.mp h with h | h | h <;> contradiction

theorem copyHidden_written (site : Site) {head? : Option RequestHead} {name : String} {type : Ty}
    (hpad : ∀ bytes align, type ≠ .pad bytes align) :
    Produces site locals s n (hiddenIngredients s name type)
      (copyHidden site head? (safeName name) type) := by
  by_cases h : headerNames.contains (safeName name) = true
  · have hwritten : Produces site locals s n [.hidden name type]
        (copyHidden site head? (safeName name) type) := copyHeader_written h
    cases type with
    | pad bytes align => exact absurd rfl (hpad bytes align)
    | exprField base value =>
      rw [hiddenIngredients, if_pos h]
      exact hwritten
    | _ => exact hwritten
  · have hnot := mt mem_headerNames.mpr h
    rw [not_or, not_or] at hnot
    unfold copyHidden
    dsimp only
    rw [if_neg hnot.1, if_neg hnot.2.1, if_neg hnot.2.2]
    cases type with
    | exprField base value =>
      rw [hiddenIngredients, if_neg h]
      apply Emits.bind (compileExpr_expressed site value s n)
      intro p m hp
      exact .pure (.computed hp)
    | _ => exact .fail

theorem copyLength_written {name : String} (hname : AtHand locals s name) (count : Int)
    (length : Option Expr) :
    Produces site locals s n (lengthIngredients s count length)
      (copyLength site name count length) := by
  unfold copyLength
  apply Emits.bind (R := fun _ k => k = n) (.lift fun _ _ => rfl)
  rintro _ k rfl
  cases length with
  | none => exact .pure .nil
  | some e =>
    dsimp only
    by_cases hcount : count = 0
    · rw [if_pos (beq_iff_eq.mpr hcount), lengthIngredients, if_pos hcount]
      apply Emits.bind (compileExpr_expressed site e s k)
      intro p m hp
      exact .pure (.size hname hp)
    · rw [if_neg (mt beq_iff_eq.mp hcount), lengthIngredients, if_neg hcount]
      exact .pure .nil

theorem withFields_written {object : String} {fields : List Field} {is : List Ingredient}
    {body : Emission (List Stmt)} (hobject : AtHand locals s object)
    (h : ∀ n, Produces site locals (boundBy fields ++ s) n is body) :
    Emits s n (fun p m => Interior site.dir site.ns locals s n (.members fields :: is) (p.1 ++ p.2) m)
      (withFields object fields body) := by
  refine (Emits.withFields (h _)).mono ?_
  rintro ⟨_, body⟩ m ⟨rfl, hbody⟩
  exact ⟨_, _, _, _, _, _, .members hobject, hbody, rfl, rfl⟩

/-- A switch, once its members are bound: the selector, and then the branches. -/
theorem selected_written {name : String} {selector : Expr} {is : List Ingredient}
    {branches : Emission (List Stmt)} (hname : AtHand locals s name)
    (h : ∀ n, Produces site ((name ++ "_expr") :: locals) s n is branches) :
    Produces site locals s n (.expr s selector :: is) (do
      let (before, value) ← compileExpr site selector
      let branches ← branches
      return before ++ [Stmt.bindSelector (name ++ "_expr") value] ++ branches) := by
  apply Emits.bind (compileExpr_expressed site selector s n)
  intro p k hp
  apply Emits.bind (h k)
  intro rest m hrest
  exact .pure (.selected hname hp hrest)

theorem withBranch_written {b : Field} {fields : List Field} {is : List Ingredient}
    {body : Emission (List Stmt)} (hb : b.name ≠ "" → Scope.binds b = true → b ∈ s)
    (h : ∀ n, Produces site locals (branchScope b.name fields s) n is body) :
    Emits s n (fun p m => Interior site.dir site.ns locals s n (branchIngredient b fields ++ is)
      (p.1 ++ p.2) m) (withBranch b.name fields body) := by
  unfold withBranch branchIngredient
  by_cases hname : b.name = ""
  · simp only [branchScope, if_pos hname] at h
    rw [if_pos hname, if_pos (beq_iff_eq.mpr hname)]
    exact (h n).map fun out m hout => hout.interior
  · simp only [branchScope, if_neg hname] at h
    rw [if_neg hname, if_neg (mt beq_iff_eq.mp hname)]
    refine (Emits.withFields (h _)).mono ?_
    rintro ⟨_, body⟩ m ⟨rfl, hbody⟩
    exact ⟨_, _, _, _, _, _, .branch (hb hname), hbody, rfl, rfl⟩

end

theorem mem_scope_of_binds {fields : List Field} {s : Scope} :
    ∀ f ∈ fields, Scope.binds f = true → f ∈ boundBy fields ++ s := by
  intro f hf hbinds
  exact List.mem_append_left _ (mem_boundBy.mpr ⟨hf, hbinds⟩)

theorem mem_branchScope {name : String} {fields : List Field} {s : Scope}
    (h : name = "" → ∀ f ∈ fields, Scope.binds f = true → f ∈ s) :
    ∀ f ∈ fields, Scope.binds f = true → f ∈ branchScope name fields s := by
  unfold branchScope
  split
  · rename_i hname
    exact h hname
  · exact mem_scope_of_binds

theorem copyBranch_written {name : String} {t : Name} {byValue byMask : Bool}
    {selectors : List Expr} {fields : List Field} {wire visible : Bool} {site : Site}
    {selector : String} {locals : List String} {s : Scope} {n : Nat} (hselector : selector ∈ locals)
    (hb : name ≠ "" → (wire && visible) = true →
      ⟨name, .case t byValue byMask selectors fields, wire, visible⟩ ∈ s)
    (h : ∀ n, Produces site locals (branchScope name fields s) n
      (ingredientsIn (branchScope name fields s) fields) (copyBranchFields (site.at name) fields)) :
    Produces site locals s n (selectors.map (.expr s) ++
      branchIngredient ⟨name, .case t byValue byMask selectors fields, wire, visible⟩ fields ++
      ingredientsIn (branchScope name fields s) fields)
      (copyBranch site selector ⟨name, .case t byValue byMask selectors fields, wire, visible⟩) := by
  rw [copyBranch]
  apply Emits.bind (R := fun _ k => k = n) (.lift fun _ _ => rfl)
  rintro _ k rfl
  dsimp only
  split
  · exact .bind (R := fun _ _ => False) .fail fun _ _ h => h.elim
  have htest : (if byValue then "CaseEq" else "CaseAnd") = "CaseEq" ∨
      (if byValue then "CaseEq" else "CaseAnd") = "CaseAnd" := by
    cases byValue
    · exact .inr rfl
    · exact .inl rfl
  apply Emits.bind (compileConditions_tested _ selector selectors k)
  rintro ⟨before, conditions⟩ j hconditions
  apply Emits.bind (withBranch_written
    (b := ⟨name, .case t byValue byMask selectors fields, wire, visible⟩) hb h)
  rintro ⟨bindings, body⟩ m hbody
  have hwritten : Written site.dir site.ns locals s k _ _ m :=
    hbody.branch htest hselector hconditions
  exact .pure (by simpa using hwritten)

-- The induction follows the copying. What carries it is that the fields to be copied, where they are
-- bound at all, have been bound in the scope.
mutual

theorem copyField_written (f : Field) (site : Site) (head? : Option RequestHead)
    (locals : List String) (s : Scope) (n : Nat) (hf : f.wire = true → f.visible = true → f ∈ s)
    (hwire : f.wire = true) :
    Produces site locals s n
      (.label f.name :: if f.visible then ingredientsOf s f.type else hiddenIngredients s f.name f.type)
      (copyField site head? f) := by
  match f with
  | ⟨name, type, wire, visible⟩ =>
    rw [copyField_eq]
    refine Emits.map (R := fun out m => Written site.dir site.ns locals s n
      (if visible then ingredientsOf s type else hiddenIngredients s name type) out m) ?_
      fun body m hbody => .append (.comment name) hbody
    cases visible with
    | true =>
      have hname : AtHand locals s (safeName name) := .inr ⟨_, hf hwire rfl, rfl⟩
      cases type with
      | pad bytes align => exact copyPad_written (site.at name) bytes align
      | _ => exact copyValue_written _ (site.at name) (safeName name) locals s n hname
    | false =>
      cases type with
      | pad bytes align => exact copyPad_written (site.at name) bytes align
      | _ => exact copyHidden_written (site.at name) fun _ _ h => by cases h
termination_by structural f

theorem copyValue_written (type : Ty) (site : Site) (name : String) (locals : List String)
    (s : Scope) (n : Nat) (hname : AtHand locals s name) :
    Produces site locals s n (ingredientsOf s type) (copyValue site name type) := by
  cases type with
  | container shape t fields =>
    apply Emits.bind (withFields_written hname fun n =>
      copyFields_written fields site (requestHead? shape fields) locals _ n mem_scope_of_binds)
    rintro ⟨bindings, body⟩ m hbody
    have hblock := hbody.block
    exact .pure (by simpa [ingredientsOf] using hblock)
  | list member count length =>
    apply Emits.bind (copyLength_written hname count length)
    intro before k hbefore
    apply Emits.bind (copyElement_written member site (name ++ "_elem") ((name ++ "_elem") :: locals)
      s k (.inl List.mem_cons_self))
    intro body m hbody
    have hloop := hbefore.append (hbody.loop hname)
    exact .pure (by simpa [ingredientsOf] using hloop)
  | switch t selector cases =>
    apply Emits.bind (R := fun members k => members = branchMembers cases ∧ k = n)
      (.lift fun members hmembers => ⟨switchMembers_eq hmembers, rfl⟩)
    rintro _ k ⟨rfl, rfl⟩
    have hselected : AtHand locals (boundBy (branchMembers cases) ++ s) name := by
      rcases hname with hname | ⟨f, hf, hname⟩
      · exact .inl hname
      · exact .inr ⟨f, List.mem_append_right _ hf, hname⟩
    apply Emits.bind (withFields_written hname fun n => selected_written hselected fun n =>
      copyBranches_written cases site (name ++ "_expr") ((name ++ "_expr") :: locals) _ n
        List.mem_cons_self mem_scope_of_binds)
    rintro ⟨bindings, body⟩ m hbody
    have hblock := hbody.block
    exact .pure (by simpa [ingredientsOf] using hblock)
  | simple t => exact .pure (.copy hname)
  | union t fields => exact .pure (.copy hname)
  | mention kind t =>
    cases kind with
    | union => exact .pure (.copy hname)
    | _ => exact .fail
  | _ => exact .fail
termination_by structural type

theorem copyElement_written (type : Ty) (site : Site) (name : String) (locals : List String)
    (s : Scope) (n : Nat) (hname : AtHand locals s name) :
    Emits s n (fun out m => Interior site.dir site.ns locals s n (elementIngredients s type) out m)
      (copyElement site name type) := by
  cases type with
  | container shape t fields =>
    apply Emits.bind (withFields_written hname fun n =>
      copyFields_written fields site (requestHead? shape fields) locals _ n mem_scope_of_binds)
    rintro ⟨bindings, body⟩ m hbody
    exact .pure hbody
  | simple t => exact .pure (Written.copy hname).interior
  | union t fields => exact .pure (Written.copy hname).interior
  | mention kind t =>
    cases kind with
    | union => exact .pure (Written.copy hname).interior
    | _ => exact .fail
  | _ => exact .fail
termination_by structural type

theorem copyFields_written (fields : List Field) (site : Site) (head? : Option RequestHead)
    (locals : List String) (s : Scope) (n : Nat)
    (h : ∀ f ∈ fields, Scope.binds f = true → f ∈ s) :
    Produces site locals s n (ingredientsIn s fields) (copyFields site head? fields) := by
  match fields with
  | [] => exact .pure .nil
  | ⟨name, type, wire, visible⟩ :: rest =>
    obtain ⟨hf, hrest⟩ := List.forall_mem_cons.mp h
    have hone := copyField_written ⟨name, type, wire, visible⟩ site head? locals s n
    rw [copyFields, ingredientsIn]
    cases wire with
    | true =>
      apply Emits.bind (hone (fun _ hvisible => hf hvisible) rfl)
      intro body k hbody
      apply Emits.bind (copyFields_written rest site head? locals s k hrest)
      intro more m hmore
      have hwritten := (hbody.append (.note (x := .blank) rfl)).append hmore
      exact .pure (by simpa using hwritten)
    | false => exact copyFields_written rest site head? locals s n hrest
termination_by structural fields

theorem copyBranches_written (branches : List Field) (site : Site) (selector : String)
    (locals : List String) (s : Scope) (n : Nat) (hselector : selector ∈ locals)
    (h : ∀ f ∈ branchMembers branches, Scope.binds f = true → f ∈ s) :
    Produces site locals s n (branchIngredients s branches) (copyBranches site selector branches) := by
  match branches with
  | [] => exact .pure .nil
  | ⟨name, type, wire, visible⟩ :: rest =>
    cases type with
    | case t byValue byMask selectors fields =>
      -- a named branch is a member of the switch, and so are the fields of an unnamed one
      have hone : name ≠ "" → (wire && visible) = true →
          ⟨name, .case t byValue byMask selectors fields, wire, visible⟩ ∈ s := by
        intro hname hbinds
        refine h _ ?_ hbinds
        rw [branchMembers, if_neg hname]
        exact List.mem_cons_self
      have hfields : name = "" → ∀ f ∈ fields, Scope.binds f = true → f ∈ s := by
        intro hname f hf
        refine h f ?_
        rw [branchMembers, if_pos hname]
        exact List.mem_append_left _ hf
      have hmore : ∀ f ∈ branchMembers rest, Scope.binds f = true → f ∈ s := by
        intro f hf
        refine h f ?_
        rw [branchMembers]
        split
        · exact List.mem_append_right _ hf
        · exact List.mem_cons_of_mem _ hf
      apply Emits.bind (copyBranch_written hselector hone fun n =>
        copyBranchFields_written fields (site.at name) locals _ n (mem_branchScope hfields))
      intro body k hbody
      apply Emits.bind (copyBranches_written rest site selector locals s k hselector hmore)
      intro more m hmore
      exact .pure (hbody.append hmore)
    | _ => exact .bind (R := fun _ _ => False) .fail fun _ _ h => h.elim
termination_by structural branches

theorem copyBranchFields_written (fields : List Field) (site : Site) (locals : List String)
    (s : Scope) (n : Nat) (h : ∀ f ∈ fields, Scope.binds f = true → f ∈ s) :
    Produces site locals s n (ingredientsIn s fields) (copyBranchFields site fields) := by
  match fields with
  | [] => exact .pure .nil
  | ⟨name, type, wire, visible⟩ :: rest =>
    obtain ⟨hf, hrest⟩ := List.forall_mem_cons.mp h
    have hone := copyField_written ⟨name, type, wire, visible⟩ site none locals s n
    rw [copyBranchFields, ingredientsIn]
    cases wire with
    | true =>
      apply Emits.bind (hone (fun _ hvisible => hf hvisible) rfl)
      intro body k hbody
      apply Emits.bind (copyBranchFields_written rest site locals s k hrest)
      intro more m hmore
      exact .pure (hbody.append hmore)
    | false => exact .fail
termination_by structural fields

end

end CodecGen.Emit
