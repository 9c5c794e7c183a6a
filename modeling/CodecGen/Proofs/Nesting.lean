import CodecGen.Proofs.Emission
set_option autoImplicit false
/-!
Messages inside messages. A message is closed when every name that its expressions look up is bound
inside it. A closed message is copied alike in every enclosing scope, but for the sizes of lists: a
size is declared only where no field of its name is in scope, and the search for such a field goes on
outside the message. So the copy in a scope is the copy in the empty scope without the sizes that
the scope has fields for.
-/
namespace CodecGen.Emit
open Schema

/-- Every list whose length or elements the expression asks for is in scope. References are copied
as they stand and look nothing up. -/
def closedExpr (s : Scope) : Expr → Bool
  | .binary _ lhs rhs => closedExpr s lhs && closedExpr s rhs
  | .complement operand | .popCount operand => closedExpr s operand
  | .fieldLen name => (s.resolve? name).isSome
  | .sumOf list summand =>
    match s.resolve? list with
    | none => false
    | some field =>
      match field.type with
      | .list member _ _ => closedExpr (boundBy (elementMembers member) ++ s) summand
      | _ => true
  | _ => true

def closedHidden (s : Scope) : Ty → Bool
  | .exprField _ value => closedExpr s value
  | _ => true

mutual

def closedField (s : Scope) : Field → Bool
  | ⟨_, type, _, true⟩ => closedValue s type
  | ⟨_, type, _, false⟩ => closedHidden s type
termination_by structural f => f

def closedValue (s : Scope) : Ty → Bool
  | .container _ _ fields => closedFields (boundBy fields ++ s) fields
  | .list member _ length => length.all (closedExpr s) && closedElement s member
  | .switch _ selector cases =>
    closedExpr (boundBy (branchMembers cases) ++ s) selector &&
      closedBranches (boundBy (branchMembers cases) ++ s) cases
  | _ => true
termination_by structural type => type

def closedElement (s : Scope) : Ty → Bool
  | .container _ _ fields => closedFields (boundBy fields ++ s) fields
  | _ => true
termination_by structural type => type

def closedFields (s : Scope) : List Field → Bool
  | [] => true
  | f :: rest => (!f.wire || closedField s f) && closedFields s rest
termination_by structural fields => fields

def closedBranches (s : Scope) : List Field → Bool
  | [] => true
  | branch :: rest => closedBranch s branch && closedBranches s rest
termination_by structural branches => branches

def closedBranch (s : Scope) : Field → Bool
  | ⟨name, .case _ _ _ selectors fields, _, _⟩ =>
    selectors.all (closedExpr s) && closedFields (branchScope name fields s) fields
  | _ => true
termination_by structural branch => branch

end

def closedMessage (fields : List Field) : Bool := closedFields (boundBy fields) fields

/-- Whether a statement is also emitted in the scope `s`: it does not declare a size for which the
scope has a field. -/
def keptIn (s : Scope) : Stmt → Bool
  | .bindLength name _ => (s.resolve? name).isNone
  | _ => true

/-- The statements of a copy, from those of the copy in the empty scope. -/
def Trimmed (s : Scope) (nested alone : List Stmt) : Prop := nested = alone.filter (keptIn s)

theorem Trimmed.append {s : Scope} {nested alone nested' alone' : List Stmt}
    (h : Trimmed s nested alone) (h' : Trimmed s nested' alone') :
    Trimmed s (nested ++ nested') (alone ++ alone') := by
  simp only [Trimmed] at *
  rw [h, h', List.filter_append]

theorem Trimmed.of_kept {s : Scope} {stmts : List Stmt} (h : ∀ x ∈ stmts, keptIn s x = true) :
    Trimmed s stmts stmts :=
  (List.filter_eq_self.mpr h).symm

theorem Trimmed.cons {s : Scope} {x : Stmt} {nested alone : List Stmt} (hx : keptIn s x = true)
    (h : Trimmed s nested alone) : Trimmed s (x :: nested) (x :: alone) := by
  simp only [Trimmed] at *
  rw [h, List.filter_cons_of_pos hx]

def TrimmedBefore {α : Type} (s : Scope) (p q : List Stmt × α) : Prop :=
  Trimmed s p.1 q.1 ∧ p.2 = q.2

theorem lengthStmts_trimmed (i s : Scope) (f : Field) :
    Trimmed s (lengthStmts (i ++ s) f) (lengthStmts i f) := by
  unfold Trimmed lengthStmts Scope.lengthBinding
  split
  · simp only [resolve?_append]
    -- A field found inside hides those outside; otherwise only `s` is left to search.
    cases hi : i.resolve? (safeName f.name ++ "_len") with
    | some g => simp
    | none =>
      cases hs : s.resolve? (safeName f.name ++ "_len") <;> simp [keptIn, hs]
  · simp

theorem memberStmts_trimmed (object : String) (i s : Scope) (n : Nat) (f : Field) :
    Trimmed s (memberStmts object (i ++ s) n f) (memberStmts object i n f) := by
  refine Trimmed.append (.of_kept ?_) (lengthStmts_trimmed (f :: i) s f)
  split <;> simp [keptIn]

theorem bindMembers_trimmed (object : String) (fields : List Field) (i s : Scope) (n : Nat) :
    Trimmed s (bindMembers object fields ⟨i ++ s, n⟩).1 (bindMembers object fields ⟨i, n⟩).1 := by
  induction fields generalizing i n with
  | nil => exact .of_kept (by simp [bindMembers])
  | cons f rest ih =>
    by_cases hb : Scope.binds f = true
    · rw [bindMembers_cons_of_binds object rest _ n hb, bindMembers_cons_of_binds object rest _ n hb]
      exact (memberStmts_trimmed object i s n f).append (ih (f :: i) _)
    · rw [bindMembers_cons_of_not_binds object rest _ hb,
        bindMembers_cons_of_not_binds object rest _ hb]
      exact ih i n

theorem bindFields_trimmed (object : String) (fields : List Field) (i s : Scope) (n : Nat) :
    Trimmed s (bindFields object fields ⟨i ++ s, n⟩).1 (bindFields object fields ⟨i, n⟩).1 := by
  rw [bindFields_stmts, bindFields_stmts]
  refine (bindMembers_trimmed object fields i s n).append (.of_kept ?_)
  split <;> simp [keptIn]

section
variable {α : Type} {i s : Scope}

theorem withFields_trimmed {object : String} {fields : List Field} {x y : Emission α}
    {R : α → α → Prop} (h : Alike ((boundBy fields ++ i) ++ s) (boundBy fields ++ i) R x y) :
    Alike (i ++ s) i (fun p q => Trimmed s p.1 q.1 ∧ R p.2 q.2) (withFields object fields x)
      (withFields object fields y) :=
  .withFields (bindFields_trimmed object fields i s) (List.append_assoc .. ▸ h)

theorem withBranch_trimmed {name : String} {fields : List Field} {x y : Emission α}
    {R : α → α → Prop}
    (h : Alike (branchScope name fields i ++ s) (branchScope name fields i) R x y) :
    Alike (i ++ s) i (fun p q => Trimmed s p.1 q.1 ∧ R p.2 q.2) (withBranch name fields x)
      (withBranch name fields y) := by
  have hscope : branchScope name fields (i ++ s) = branchScope name fields i ++ s := by
    unfold branchScope
    split <;> simp
  exact .withBranch (.of_kept (by simp)) (bindFields_trimmed _ fields i s) (hscope ▸ h)

theorem sumOver_trimmed {site : Site} {list : String} {field : Field}
    {summand : Emission (List Stmt × String)} (hfield : i.resolve? list = some field)
    (h : ∀ member count length, field.type = .list member count length →
      Alike ((boundBy (elementMembers member) ++ i) ++ s) (boundBy (elementMembers member) ++ i)
        (TrimmedBefore s) summand summand) :
    Alike (i ++ s) i (TrimmedBefore s) (sumOver site list summand) (sumOver site list summand) := by
  unfold sumOver
  refine .get fun n => ?_
  simp only [resolve?_append, hfield, Option.some_or]
  split
  · next member count length hlist =>
    refine .bind (.lift (.self (elementFields site member))) ?_
    rintro fields _ ⟨rfl, hfields⟩
    obtain rfl := elementFields_eq hfields
    refine .bind .freshId ?_
    rintro id _ rfl
    refine .bind (withFields_trimmed (h member count length hlist)) ?_
    rintro ⟨bindings, before, value⟩ ⟨bindings', before', _⟩ ⟨hbindings, hbefore, rfl⟩
    refine .pure ⟨?_, rfl⟩
    refine Trimmed.append (.append (.append (.of_kept ?_) hbindings) hbefore) (.of_kept ?_) <;>
      simp [keptIn]
  · exact .fail rfl

theorem compileExpr_trimmed (site : Site) (e : Expr) (i : Scope) (h : closedExpr i e = true) :
    Alike (i ++ s) i (TrimmedBefore s) (compileExpr site e) (compileExpr site e) := by
  induction e generalizing i with
  | absent => exact .fail rfl
  | binary op lhs rhs ihl ihr =>
    simp only [closedExpr, Bool.and_eq_true] at h
    refine .bind (ihl i h.1) ?_
    rintro ⟨before, l⟩ ⟨before', _⟩ ⟨hbefore, rfl⟩
    refine .bind (ihr i h.2) ?_
    rintro ⟨between, r⟩ ⟨between', _⟩ ⟨hbetween, rfl⟩
    exact .pure ⟨hbefore.append hbetween, rfl⟩
  | complement operand ih | popCount operand ih =>
    refine .bind (ih i h) ?_
    rintro ⟨before, x⟩ ⟨before', _⟩ ⟨hbefore, rfl⟩
    exact .pure ⟨hbefore, rfl⟩
  | fieldLen name =>
    -- The list is found inside, so the search does not leave the message.
    obtain ⟨f, hf⟩ := Option.isSome_iff_exists.mp h
    refine .get fun n => ?_
    simp only [resolve?_append, hf, Option.some_or]
    exact .pure ⟨rfl, rfl⟩
  | fieldRef | enumRef | listElement | value => exact .pure ⟨rfl, rfl⟩
  | sumOf list summand ih =>
    unfold closedExpr at h
    split at h
    · cases h
    · next field hfield =>
      have hsummand : ∀ member count length, field.type = .list member count length →
          closedExpr (boundBy (elementMembers member) ++ i) summand = true := by
        intro member count length hlist
        simpa [hlist] using h
      cases summand with
      | absent => exact sumOver_trimmed hfield fun _ _ _ _ => .pure ⟨rfl, rfl⟩
      | _ =>
        exact sumOver_trimmed hfield fun member count length hlist =>
          ih _ (hsummand member count length hlist)

theorem compileConditions_trimmed (site : Site) (test selector : String) (es : List Expr)
    (h : es.all (closedExpr i) = true) :
    Alike (i ++ s) i (TrimmedBefore s) (compileConditions site test selector es)
      (compileConditions site test selector es) := by
  induction es with
  | nil => exact .pure ⟨rfl, rfl⟩
  | cons e rest ih =>
    simp only [List.all_cons, Bool.and_eq_true] at h
    refine .bind (compileExpr_trimmed site e i h.1) ?_
    rintro ⟨before, value⟩ ⟨before', _⟩ ⟨hbefore, rfl⟩
    refine .bind (ih h.2) ?_
    rintro ⟨between, conditions⟩ ⟨between', _⟩ ⟨hbetween, rfl⟩
    exact .pure ⟨hbefore.append hbetween, rfl⟩

theorem copyPad_trimmed (site : Site) (bytes align : Int) :
    Alike (i ++ s) i (Trimmed s) (copyPad site bytes align) (copyPad site bytes align) := by
  unfold copyPad
  split
  · exact .pure rfl
  · split
    · exact .fail rfl
    · exact .pure rfl

theorem copyOpcode_trimmed (site : Site) (head? : Option RequestHead) (type name : String) :
    Alike (i ++ s) i (Trimmed s) (copyOpcode site head? type name)
      (copyOpcode site head? type name) := by
  unfold copyOpcode
  split
  · exact .fail rfl
  · exact .fail rfl
  · split <;> exact .pure rfl

theorem copyHidden_trimmed {site : Site} {head? : Option RequestHead} {name : String} {type : Ty}
    (h : closedHidden i type = true) :
    Alike (i ++ s) i (Trimmed s) (copyHidden site head? name type)
      (copyHidden site head? name type) := by
  unfold copyHidden
  dsimp only
  split
  · exact copyOpcode_trimmed site head? _ name
  split
  · split
    · exact .fail rfl
    · exact .pure rfl
  split
  · split <;> exact .pure rfl
  split
  · refine .bind (compileExpr_trimmed site _ i h) ?_
    rintro ⟨before, value⟩ ⟨before', _⟩ ⟨hbefore, rfl⟩
    exact .pure (hbefore.append (.of_kept (by simp [keptIn])))
  · exact .fail rfl

theorem copyLength_trimmed {site : Site} {name : String} {count : Int} {length : Option Expr}
    (h : length.all (closedExpr i) = true) :
    Alike (i ++ s) i (Trimmed s) (copyLength site name count length)
      (copyLength site name count length) := by
  unfold copyLength
  refine .bind (.lift (.self (checkList site count length))) fun _ _ _ => ?_
  split
  · split
    · refine .bind (compileExpr_trimmed site _ i h) ?_
      rintro ⟨before, size⟩ ⟨before', _⟩ ⟨hbefore, rfl⟩
      refine .pure (hbefore.append (.of_kept ?_))
      cases site.dir <;> simp [keptIn]
    · exact .pure rfl
  · exact .pure rfl

mutual

theorem copyField_trimmed (f : Field) (site : Site) (head? : Option RequestHead) (i : Scope)
    (h : closedField i f = true) :
    Alike (i ++ s) i (Trimmed s) (copyField site head? f) (copyField site head? f) := by
  match f with
  | ⟨name, type, wire, visible⟩ =>
    rw [copyField_eq]
    refine .map (R := Trimmed s) ?_ fun nested alone hbody => .cons rfl hbody
    cases visible with
    | true =>
      cases type with
      | pad bytes align => exact copyPad_trimmed _ bytes align
      | _ => exact copyValue_trimmed _ _ (safeName name) i h
    | false =>
      cases type with
      | pad bytes align => exact copyPad_trimmed _ bytes align
      | _ => exact copyHidden_trimmed h
termination_by structural f

theorem copyValue_trimmed (type : Ty) (site : Site) (name : String) (i : Scope)
    (h : closedValue i type = true) :
    Alike (i ++ s) i (Trimmed s) (copyValue site name type) (copyValue site name type) := by
  cases type with
  | container shape n fields =>
    refine .bind (withFields_trimmed
      (copyFields_trimmed fields site (requestHead? shape fields) _ h)) ?_
    rintro ⟨bindings, body⟩ ⟨bindings', body'⟩ ⟨hbindings, hbody⟩
    refine .pure (((Trimmed.append (.of_kept ?_) hbindings).append hbody).append (.of_kept ?_)) <;>
      simp [keptIn]
  | list member count length =>
    simp only [closedValue, Bool.and_eq_true] at h
    refine .bind (copyLength_trimmed h.1) fun before before' hbefore => ?_
    refine .bind (copyElement_trimmed member site _ i h.2) fun body body' hbody => ?_
    refine .pure (((hbefore.append (.of_kept ?_)).append hbody).append (.of_kept ?_)) <;>
      simp [keptIn]
  | switch n selector cases =>
    simp only [closedValue, Bool.and_eq_true] at h
    refine .bind (.lift (.self (switchMembers site cases))) ?_
    rintro members _ ⟨rfl, hmembers⟩
    -- the object of a switch binds its members before the selector is compiled
    obtain rfl := switchMembers_eq hmembers
    refine .bind (withFields_trimmed (R := Trimmed s) ?_) ?_
    · refine .bind (compileExpr_trimmed site selector _ h.1) ?_
      rintro ⟨before, value⟩ ⟨before', _⟩ ⟨hbefore, rfl⟩
      refine .bind (copyBranches_trimmed cases site _ _ h.2) fun branches branches' hbranches => ?_
      exact .pure ((hbefore.append (.of_kept (by simp [keptIn]))).append hbranches)
    · rintro ⟨bindings, body⟩ ⟨bindings', body'⟩ ⟨hbindings, hbody⟩
      refine .pure (((Trimmed.append (.of_kept ?_) hbindings).append hbody).append (.of_kept ?_)) <;>
        simp [keptIn]
  | simple n | union n fields => exact .pure rfl
  | mention kind n =>
    cases kind with
    | union => exact .pure rfl
    | _ => exact .fail rfl
  | _ => exact .fail rfl
termination_by structural type

theorem copyElement_trimmed (type : Ty) (site : Site) (name : String) (i : Scope)
    (h : closedElement i type = true) :
    Alike (i ++ s) i (Trimmed s) (copyElement site name type) (copyElement site name type) := by
  cases type with
  | container shape n fields =>
    refine .bind (withFields_trimmed
      (copyFields_trimmed fields site (requestHead? shape fields) _ h)) ?_
    rintro ⟨bindings, body⟩ ⟨bindings', body'⟩ ⟨hbindings, hbody⟩
    exact .pure (hbindings.append hbody)
  | simple n | union n fields => exact .pure rfl
  | mention kind n =>
    cases kind with
    | union => exact .pure rfl
    | _ => exact .fail rfl
  | _ => exact .fail rfl
termination_by structural type

theorem copyFields_trimmed (fields : List Field) (site : Site) (head? : Option RequestHead)
    (i : Scope) (h : closedFields i fields = true) :
    Alike (i ++ s) i (Trimmed s) (copyFields site head? fields) (copyFields site head? fields) := by
  cases fields with
  | nil => exact .pure rfl
  | cons f rest =>
    rw [copyFields]
    simp only [closedFields, Bool.and_eq_true, Bool.or_eq_true, Bool.not_eq_eq_eq_not,
      Bool.not_true] at h
    split
    · next hwire =>
      refine .bind (copyField_trimmed f site head? i (by simpa [hwire] using h.1)) ?_
      intro body body' hbody
      refine .bind (copyFields_trimmed rest site head? i h.2) fun more more' hmore => ?_
      exact .pure ((hbody.append (.of_kept (by simp [keptIn]))).append hmore)
    · exact copyFields_trimmed rest site head? i h.2
termination_by structural fields

theorem copyBranches_trimmed (branches : List Field) (site : Site) (selector : String) (i : Scope)
    (h : closedBranches i branches = true) :
    Alike (i ++ s) i (Trimmed s) (copyBranches site selector branches)
      (copyBranches site selector branches) := by
  cases branches with
  | nil => exact .pure rfl
  | cons branch rest =>
    simp only [closedBranches, Bool.and_eq_true] at h
    refine .bind (copyBranch_trimmed branch site selector i h.1) fun body body' hbody => ?_
    refine .bind (copyBranches_trimmed rest site selector i h.2) fun more more' hmore => ?_
    exact .pure (hbody.append hmore)
termination_by structural branches

theorem copyBranch_trimmed (branch : Field) (site : Site) (selector : String) (i : Scope)
    (h : closedBranch i branch = true) :
    Alike (i ++ s) i (Trimmed s) (copyBranch site selector branch)
      (copyBranch site selector branch) := by
  match branch with
  | ⟨name, type, wire, visible⟩ =>
    cases type with
    | case n byValue byMask selectors fields =>
      simp only [closedBranch, Bool.and_eq_true] at h
      rw [copyBranch]
      refine .bind (.lift (.self (checkCase (site.at name) byValue byMask))) fun _ _ _ => ?_
      dsimp only
      split
      · exact .bind (.fail rfl) fun _ _ (h : False) => h.elim
      refine .bind (compileConditions_trimmed _ _ selector selectors h.1) ?_
      rintro ⟨before, conditions⟩ ⟨before', _⟩ ⟨hbefore, rfl⟩
      refine .bind (withBranch_trimmed (copyBranchFields_trimmed fields _ _ h.2)) ?_
      rintro ⟨bindings, body⟩ ⟨bindings', body'⟩ ⟨hbindings, hbody⟩
      refine .pure ((((hbefore.append (.of_kept ?_)).append hbindings).append hbody).append
        (.of_kept ?_)) <;> simp [keptIn]
    | _ => exact .fail rfl
termination_by structural branch

theorem copyBranchFields_trimmed (fields : List Field) (site : Site) (i : Scope)
    (h : closedFields i fields = true) :
    Alike (i ++ s) i (Trimmed s) (copyBranchFields site fields) (copyBranchFields site fields) := by
  cases fields with
  | nil => exact .pure rfl
  | cons f rest =>
    rw [copyBranchFields]
    simp only [closedFields, Bool.and_eq_true, Bool.or_eq_true, Bool.not_eq_eq_eq_not,
      Bool.not_true] at h
    split
    · next hwire =>
      refine .bind (copyField_trimmed f site none i (by simpa [hwire] using h.1)) ?_
      intro body body' hbody
      refine .bind (copyBranchFields_trimmed rest site i h.2) fun more more' hmore => ?_
      exact .pure (hbody.append hmore)
    · exact .fail rfl
termination_by structural fields

end

theorem copyContainer_trimmed {site : Site} {shape : Shape} {fields : List Field} {object : String}
    (h : closedMessage fields = true) :
    Alike s [] (Trimmed s) (copyContainer site shape fields object)
      (copyContainer site shape fields object) := by
  have hfields : closedFields (boundBy fields ++ []) fields = true := by
    rw [List.append_nil]
    exact h
  refine .bind (withFields_trimmed (i := [])
    (copyFields_trimmed fields site (requestHead? shape fields) _ hfields)) ?_
  rintro ⟨bindings, body⟩ ⟨bindings', body'⟩ ⟨hbindings, hbody⟩
  exact .pure (hbindings.append hbody)

end

def declaredSizes (stmts : List Stmt) : List String :=
  stmts.filterMap fun
    | .bindLength name _ => some name
    | _ => none

theorem mem_declaredSizes {name : String} {stmts : List Stmt} :
    name ∈ declaredSizes stmts ↔ ∃ list, .bindLength name list ∈ stmts := by
  simp only [declaredSizes, List.mem_filterMap]
  constructor
  · rintro ⟨x, hx, hname⟩
    split at hname
    · obtain rfl := Option.some.inj hname
      exact ⟨_, hx⟩
    · cases hname
  · rintro ⟨list, hx⟩
    exact ⟨_, hx, rfl⟩

/-- Two scopes keep the same of some statements exactly when they have fields for the same ones of
the sizes declared there. -/
theorem filter_keptIn_eq_iff (s t : Scope) (stmts : List Stmt) :
    stmts.filter (keptIn s) = stmts.filter (keptIn t) ↔
      ∀ name ∈ declaredSizes stmts, (s.resolve? name).isSome = (t.resolve? name).isSome := by
  constructor
  · intro h name hname
    obtain ⟨list, hmem⟩ := mem_declaredSizes.mp hname
    have hkept : Stmt.bindLength name list ∈ stmts.filter (keptIn s) ↔
        Stmt.bindLength name list ∈ stmts.filter (keptIn t) := by rw [h]
    simp only [List.mem_filter, hmem, true_and, keptIn] at hkept
    cases hs : s.resolve? name <;> cases ht : t.resolve? name <;> simp_all
  · intro h
    refine List.filter_congr fun x hx => ?_
    cases x with
    | bindLength name list =>
      have hsame := h name (mem_declaredSizes.mpr ⟨list, hx⟩)
      cases hs : s.resolve? name <;> cases ht : t.resolve? name <;> simp_all [keptIn]
    | _ => rfl

theorem run_of_closed (site : Site) (shape : Shape) (fields : List Field) (object : String)
    (s : Scope) (n : Nat) (h : closedMessage fields = true) :
    (copyContainer site shape fields object).run ⟨s, n⟩ =
      (((copyContainer site shape fields object).run ⟨[], n⟩).1.map (·.filter (keptIn s)),
        ⟨s, ((copyContainer site shape fields object).run ⟨[], n⟩).2.nextId⟩) := by
  obtain ⟨nested, alone, m, hnested, halone, hsame⟩ := copyContainer_trimmed (s := s) h n
  rw [hnested, halone]
  cases hsame with
  | ok htrimmed => rw [htrimmed]; rfl
  | error fault => rfl

/-- A closed message is copied in a scope as it is alone, but for the sizes that the scope has fields
for, which are not declared. So two scopes give the same faults and take the same temporaries, and
they give the same statements exactly when they have fields for the same ones of the sizes that the
message declares alone. -/
theorem closed_message_copied_alike (site : Site) (shape : Shape) (fields : List Field)
    (object : String) (s t : Scope) (n : Nat) (h : closedMessage fields = true) :
    (copyContainer site shape fields object).run ⟨s, n⟩ =
      (((copyContainer site shape fields object).run ⟨[], n⟩).1.map (·.filter (keptIn s)),
        ⟨s, ((copyContainer site shape fields object).run ⟨[], n⟩).2.nextId⟩) ∧
    (((copyContainer site shape fields object).run ⟨s, n⟩).1 =
        ((copyContainer site shape fields object).run ⟨t, n⟩).1 ↔
      ∀ alone, ((copyContainer site shape fields object).run ⟨[], n⟩).1 = .ok alone →
        ∀ name ∈ declaredSizes alone, (s.resolve? name).isSome = (t.resolve? name).isSome) := by
  refine ⟨run_of_closed site shape fields object s n h, ?_⟩
  rw [run_of_closed site shape fields object s n h, run_of_closed site shape fields object t n h]
  cases (copyContainer site shape fields object).run ⟨[], n⟩ with
  | mk result next =>
    cases result with
    | error fault => simp [Except.map]
    | ok alone => simpa [Except.map] using filter_keptIn_eq_iff s t alone

def bytesFields : List Field :=
  [⟨"data", .list (.simple ["uint8_t"]) 0 (some (.fieldLen "data")), true, true⟩]

def outerSize : Field := ⟨"data_len", .simple ["uint8_t"], true, true⟩

/-- Inside a message with a field called `data_len`, the size of the list is that field. -/
theorem outer_field_taken_as_size :
    closedMessage bytesFields = true ∧
    ((copyContainer ⟨.encode, ["x11"], []⟩ .struct bytesFields "item").run ⟨[], 0⟩).1.toOption =
      some [.bindMember "data" "item", .bindLength "data_len" "data", .blank, .fieldComment "data",
        .checkSize "data" "data_len", .openLoop "data_elem" "data", .copy .encode "data_elem",
        .closeBlock, .blank] ∧
    ((copyContainer ⟨.encode, ["x11"], []⟩ .struct bytesFields "item").run
        ⟨[outerSize], 0⟩).1.toOption =
      some [.bindMember "data" "item", .blank, .fieldComment "data",
        .checkSize "data" "data_len", .openLoop "data_elem" "data", .copy .encode "data_elem",
        .closeBlock, .blank] := by
  decide +kernel

theorem closed_message_copied_alike_bytes :
    closedMessage bytesFields = true ∧
    ((copyContainer ⟨.decode, ["x11"], []⟩ .struct bytesFields "item").run ⟨[], 0⟩).1 =
      ((copyContainer ⟨.decode, ["x11"], []⟩ .struct bytesFields "item").run
        ⟨[⟨"count", .simple ["uint8_t"], true, true⟩], 0⟩).1 := by
  have hclosed : closedMessage bytesFields = true := by decide +kernel
  have hsizes : ((copyContainer ⟨.decode, ["x11"], []⟩ .struct bytesFields "item").run
      ⟨[], 0⟩).1.toOption.map declaredSizes = some ["data_len"] := by decide +kernel
  refine ⟨hclosed, (closed_message_copied_alike ⟨.decode, ["x11"], []⟩ .struct bytesFields "item" []
    [⟨"count", .simple ["uint8_t"], true, true⟩] 0 hclosed).2.mpr ?_⟩
  intro alone halone name hname
  rw [halone] at hsizes
  rw [Option.some.inj hsizes, List.mem_singleton] at hname
  rw [hname]
  decide +kernel

end CodecGen.Emit
