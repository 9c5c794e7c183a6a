import CodecGen.Proofs.Building
import CodecGen.Proofs.Declarations
set_option autoImplicit false
/-!
The faults of encoders and decoders for well-formed layouts. Where the layouts in scope are well-formed
and complete, code for fields fails only for what descriptions are free to say and code cannot express.
-/
namespace CodecGen.Emit
open Schema Resolve

/-- The causes that a description can be at fault for. -/
def Cause.expected : Cause → Bool
  | unboundList _ | sumOfNotList _ | emptyCase | listLength _ | padAlign .. | headerField ..
  | fieldType _ => true
  | _ => false

def Expected (fault : Fault) : Prop := fault.cause.expected = true

theorem code_of_expected {cause : Cause} (h : cause.expected = true) :
    ∃ code ∈ [5001, 5002, 5004, 5005, 5006, 5007, 5008], cause.code? = some code ∧
      (code = 5001 → ∃ list, cause = .unboundList list) := by
  cases cause with
  | unboundList list => exact ⟨5001, by decide, rfl, fun _ => ⟨list, rfl⟩⟩
  | missingExpr | unboundLength | caseKind | declType | selfContained | scopeUnderflow => cases h
  | _ => exact ⟨_, by decide, rfl, fun h => absurd h (by decide)⟩

abbrev Digests {α : Type} (s : Scope) (x : Emission α) : Prop := Ensures s (fun _ => True) Expected x

def CompleteScope (s : Scope) : Prop := ∀ f ∈ s, complete f.type = true

theorem completeIn_iff {fields : List Field} :
    completeIn fields = true ↔ ∀ f ∈ fields, complete f.type = true := by
  induction fields with
  | nil => simp [completeIn]
  | cons f rest ih =>
    obtain ⟨name, type, wire, visible⟩ := f
    simp [completeIn, ih]

theorem completeScope_bound {s : Scope} {fields : List Field} (hs : CompleteScope s)
    (h : completeIn fields = true) : CompleteScope (boundBy fields ++ s) := by
  refine List.forall_mem_append.mpr ⟨fun f hf => ?_, hs⟩
  exact completeIn_iff.mp h f (mem_boundBy.mp hf).1

section
variable {s : Scope} {site : Site}

theorem elementFields_complete {member : Ty} (h : complete member = true) :
    Holds (fun fields => completeIn fields = true) Expected (elementFields site member) := by
  cases member with
  | container shape name fields => exact h
  | mention kind name =>
    cases kind with
    | struct | request | event | error => cases h
    | _ => exact rfl
  | _ => exact rfl

theorem sumOver_digests (hs : CompleteScope s) {list : String}
    {summand : Emission (List Stmt × String)} (h : ∀ s, CompleteScope s → Digests s summand) :
    Digests s (sumOver site list summand) := by
  unfold sumOver
  refine .get fun n => ?_
  split
  · exact .fail rfl
  · next field hfield =>
    have hcomplete := hs field (List.mem_of_find?_eq_some hfield)
    split
    · next member count length htype =>
      rw [htype] at hcomplete
      refine .bind (.lift (elementFields_complete hcomplete)) fun fields hfields => ?_
      refine .bind .freshId fun id _ => ?_
      refine .bind (h _ (completeScope_bound hs hfields)).withFields fun _ _ => ?_
      exact .pure trivial
    · exact .fail rfl

theorem compileExpr_digests (e : Expr) (h : e.sound = true) (s : Scope) (hs : CompleteScope s) :
    Digests s (compileExpr site e) := by
  induction e generalizing s with
  | absent | fieldLen => cases h
  | binary op lhs rhs ihl ihr =>
    simp only [Expr.sound, Bool.and_eq_true] at h
    exact .bind (ihl h.1 s hs) fun _ _ => .bind (ihr h.2 s hs) fun _ _ => .pure trivial
  | complement operand ih | popCount operand ih => exact .bind (ih h s hs) fun _ _ => .pure trivial
  | fieldRef | enumRef | listElement | value => exact .pure trivial
  | sumOf list summand ih =>
    cases summand with
    | absent => exact sumOver_digests hs fun s _ => .pure trivial
    | _ => exact sumOver_digests hs (ih h)

theorem compileConditions_digests (hs : CompleteScope s) (test selector : String) (es : List Expr)
    (h : es.all Expr.sound = true) : Digests s (compileConditions site test selector es) := by
  induction es with
  | nil => exact .pure trivial
  | cons e rest ih =>
    simp only [List.all_cons, Bool.and_eq_true] at h
    refine .bind (compileExpr_digests e h.1 s hs) fun _ _ => ?_
    exact .bind (ih h.2) fun _ _ => .pure trivial

theorem copyPad_digests (bytes align : Int) : Digests s (copyPad site bytes align) := by
  unfold copyPad
  split
  · exact .pure trivial
  · split
    · exact .fail rfl
    · exact .pure trivial

theorem copyOpcode_digests (head? : Option RequestHead) (type name : String) :
    Digests s (copyOpcode site head? type name) := by
  unfold copyOpcode
  split
  · exact .fail rfl
  · exact .fail rfl
  · split <;> exact .pure trivial

theorem copyHidden_digests (hs : CompleteScope s) {head? : Option RequestHead} {name : String}
    {type : Ty} (h : wellFormed type = true) : Digests s (copyHidden site head? name type) := by
  unfold copyHidden
  dsimp only
  split
  · exact copyOpcode_digests head? _ name
  split
  · split
    · exact .fail rfl
    · exact .pure trivial
  split
  · split <;> exact .pure trivial
  split
  · rw [wellFormed, Bool.and_eq_true] at h
    exact .bind (compileExpr_digests _ h.2 s hs) fun _ _ => .pure trivial
  · exact .fail rfl

theorem checkList_expected (count : Int) (length : Option Expr) :
    Holds (fun _ => True) Expected (checkList site count length) := by
  unfold checkList
  split
  · exact rfl
  · exact trivial

def Bound (s : Scope) (name : String) : Prop := ∃ f ∈ s, f.name = name

theorem resolve?_of_bound {name : String} (h : Bound s name) : ∃ f, s.resolve? name = some f := by
  obtain ⟨f, hf, rfl⟩ := h
  cases hfind : s.resolve? f.name with
  | some g => exact ⟨g, rfl⟩
  | none => simpa using List.find?_eq_none.mp hfind f hf

/-- The length of a list is computed from other fields, or is its own and the list is in scope. -/
theorem compileLength_digests (hs : CompleteScope s) {name : String} {member : Ty} {count : Int}
    {length : Expr} (h : lengthFits name (.list member count (some length)) = true)
    (hbound : Bound s name) : Digests s (compileExpr site length) := by
  cases length with
  | fieldLen list =>
    obtain rfl : list = name := by simpa [lengthFits] using h
    obtain ⟨f, hf⟩ := resolve?_of_bound hbound
    refine .get fun n => ?_
    simp only [hf]
    exact .pure trivial
  | _ => exact compileExpr_digests _ h s hs

theorem copyLength_digests (hs : CompleteScope s) {name text : String} {member : Ty} {count : Int}
    {length : Option Expr} (h : lengthFits name (.list member count length) = true)
    (hbound : Bound s name) : Digests s (copyLength site text count length) := by
  unfold copyLength
  refine .bind (.lift (checkList_expected count length)) fun _ _ => ?_
  split
  · split
    · exact .bind (compileLength_digests hs h hbound) fun _ _ => .pure trivial
    · exact .pure trivial
  · exact .pure trivial

theorem checkCase_expected {byValue byMask : Bool} (h : (byValue != byMask) = true) :
    Holds (fun _ => True) Expected (checkCase site byValue byMask) := by
  unfold checkCase
  split
  · simp_all
  · exact trivial

def BoundIn (s : Scope) (fields : List Field) : Prop :=
  ∀ f ∈ fields, Scope.binds f = true → Bound s f.name

theorem boundIn_bound (fields : List Field) : BoundIn (boundBy fields ++ s) fields := by
  intro f hf hbinds
  exact ⟨f, List.mem_append_left _ (mem_boundBy.mpr ⟨hf, hbinds⟩), rfl⟩

theorem completeIn_branchMembers {branches : List Field} (h : completeIn branches = true) :
    completeIn (branchMembers branches) = true := by
  induction branches with
  | nil => rfl
  | cons branch rest ih =>
    rw [completeIn_iff, List.forall_mem_cons] at h
    have hrest := completeIn_iff.mp (ih (completeIn_iff.mpr h.2))
    unfold branchMembers
    split
    · split
      · next fields htype =>
        rw [htype] at h
        exact completeIn_iff.mpr (List.forall_mem_append.mpr ⟨completeIn_iff.mp h.1, hrest⟩)
      · exact completeIn_iff.mpr hrest
    · exact completeIn_iff.mpr (List.forall_mem_cons.mpr ⟨h.1, hrest⟩)

theorem mem_branchMembers {name : String} {n : Name} {byValue byMask wire visible : Bool}
    {selectors : List Expr} {fields rest : List Field} (hname : name = "") {f : Field}
    (hf : f ∈ fields) :
    f ∈ branchMembers (⟨name, .case n byValue byMask selectors fields, wire, visible⟩ :: rest) := by
  simp [branchMembers, hname, hf]

theorem branchMembers_subset (branch : Field) (rest : List Field) :
    branchMembers rest ⊆ branchMembers (branch :: rest) := by
  intro f hf
  unfold branchMembers
  split
  · split
    · exact List.mem_append_right _ hf
    · exact hf
  · exact List.mem_cons_of_mem _ hf

theorem switchMembers_expected (site : Site) {branches : List Field}
    (h : wellFormedIn branches = true) :
    Holds (fun _ => True) Expected (switchMembers site branches) := by
  induction branches with
  | nil => exact trivial
  | cons branch rest ih =>
    obtain ⟨name, type, wire, visible⟩ := branch
    simp only [wellFormedIn, Bool.and_eq_true] at h
    have hrest := ih h.2
    unfold switchMembers
    split
    · exact holds_bind hrest fun _ _ => trivial
    · dsimp only
      split
      · simp only [wellFormed, Bool.and_eq_true] at h
        exact holds_bind (checkCase_expected h.1.2.1.1) fun _ _ => holds_bind hrest fun _ _ => trivial
      · exact rfl

theorem switchMembers_members {branches : List Field} (h : wellFormedIn branches = true) :
    Holds (fun members => members = branchMembers branches) Expected
      (switchMembers site branches) := by
  have hfaults := switchMembers_expected site h
  cases hmembers : switchMembers site branches with
  | ok members => exact switchMembers_eq hmembers
  | error fault =>
    rw [hmembers] at hfaults
    exact hfaults

mutual

theorem copyField_digests (f : Field) (site : Site) (head? : Option RequestHead) (s : Scope)
    (hs : CompleteScope s) (hfits : lengthFits f.name f.type = true)
    (hwell : wellFormed f.type = true) (hcomplete : complete f.type = true)
    (hbound : f.visible = true → Bound s f.name) : Digests s (copyField site head? f) := by
  match f with
  | ⟨name, type, wire, visible⟩ =>
    rw [copyField_eq]
    refine .map (Q := fun _ => True) ?_ fun _ _ => trivial
    cases visible with
    | true =>
      cases type with
      | pad bytes align => exact copyPad_digests bytes align
      | _ => exact copyValue_digests _ _ name _ s hs hfits hwell hcomplete (hbound rfl)
    | false =>
      cases type with
      | pad bytes align => exact copyPad_digests bytes align
      | _ => exact copyHidden_digests hs hwell
termination_by structural f

theorem copyValue_digests (type : Ty) (site : Site) (name text : String) (s : Scope)
    (hs : CompleteScope s) (hfits : lengthFits name type = true) (hwell : wellFormed type = true)
    (hcomplete : complete type = true) (hbound : Bound s name) :
    Digests s (copyValue site text type) := by
  cases type with
  | container shape n fields =>
    exact .bind (copyFields_digests fields site _ _ (completeScope_bound hs hcomplete) hwell hcomplete
      (boundIn_bound fields)).withFields fun _ _ => .pure trivial
  | list member count length =>
    refine .bind (copyLength_digests hs hfits hbound) fun _ _ => ?_
    exact .bind (copyElement_digests member site _ s hs hwell hcomplete) fun _ _ => .pure trivial
  | switch n selector cases =>
    simp only [wellFormed, Bool.and_eq_true] at hwell
    refine .bind (.lift (switchMembers_members hwell.2)) ?_
    rintro _ rfl
    have hscope := completeScope_bound hs (completeIn_branchMembers hcomplete)
    refine .bind (Ensures.withFields (Q := fun _ => True) ?_) fun _ _ => .pure trivial
    refine .bind (compileExpr_digests selector hwell.1 _ hscope) fun _ _ => ?_
    exact .bind (copyBranches_digests cases site _ _ hscope hwell.2 hcomplete (boundIn_bound _))
      fun _ _ => .pure trivial
  | simple n | union n fields => exact .pure trivial
  | mention kind n =>
    cases kind with
    | union => exact .pure trivial
    | struct | request | event | error => cases hcomplete
    | _ => exact .fail rfl
  | _ => exact .fail rfl
termination_by structural type

theorem copyElement_digests (type : Ty) (site : Site) (text : String) (s : Scope)
    (hs : CompleteScope s) (hwell : wellFormed type = true) (hcomplete : complete type = true) :
    Digests s (copyElement site text type) := by
  cases type with
  | container shape n fields =>
    exact .bind (copyFields_digests fields site _ _ (completeScope_bound hs hcomplete) hwell hcomplete
      (boundIn_bound fields)).withFields fun _ _ => .pure trivial
  | simple n | union n fields => exact .pure trivial
  | mention kind n =>
    cases kind with
    | union => exact .pure trivial
    | struct | request | event | error => cases hcomplete
    | _ => exact .fail rfl
  | _ => exact .fail rfl
termination_by structural type

theorem copyFields_digests (fields : List Field) (site : Site) (head? : Option RequestHead)
    (s : Scope) (hs : CompleteScope s) (hwell : wellFormedIn fields = true)
    (hcomplete : completeIn fields = true) (hbound : BoundIn s fields) :
    Digests s (copyFields site head? fields) := by
  match fields with
  | [] => exact .pure trivial
  | ⟨name, type, wire, visible⟩ :: rest =>
    simp only [wellFormedIn, completeIn, Bool.and_eq_true] at hwell hcomplete
    have hrest : BoundIn s rest := fun f hf => hbound f (List.mem_cons_of_mem _ hf)
    rw [copyFields]
    split
    · next hwire =>
      -- What is copied by value is on the wire and visible, and so among the fields bound.
      have hself : visible = true → Bound s name := fun hvisible =>
        hbound _ List.mem_cons_self (by simp_all [Scope.binds])
      refine .bind (copyField_digests _ site head? s hs hwell.1.1 hwell.1.2 hcomplete.1 hself)
        fun _ _ => ?_
      exact .bind (copyFields_digests rest site head? s hs hwell.2 hcomplete.2 hrest)
        fun _ _ => .pure trivial
    · exact copyFields_digests rest site head? s hs hwell.2 hcomplete.2 hrest
termination_by structural fields

theorem copyBranches_digests (branches : List Field) (site : Site) (selector : String) (s : Scope)
    (hs : CompleteScope s) (hwell : wellFormedIn branches = true)
    (hcomplete : completeIn branches = true) (hbound : BoundIn s (branchMembers branches)) :
    Digests s (copyBranches site selector branches) := by
  match branches with
  | [] => exact .pure trivial
  | ⟨name, type, wire, visible⟩ :: rest =>
    simp only [wellFormedIn, completeIn, Bool.and_eq_true] at hwell hcomplete
    refine .bind (copyBranch_digests _ site selector s hs hwell.1.2 hcomplete.1 ?_) fun _ _ => ?_
    · rintro rfl n byValue byMask selectors fields rfl f hf
      exact hbound f (mem_branchMembers rfl hf)
    · exact .bind (copyBranches_digests rest site selector s hs hwell.2 hcomplete.2
        fun f hf => hbound f (branchMembers_subset _ rest hf)) fun _ _ => .pure trivial
termination_by structural branches

theorem copyBranch_digests (branch : Field) (site : Site) (selector : String) (s : Scope)
    (hs : CompleteScope s) (hwell : wellFormed branch.type = true)
    (hcomplete : complete branch.type = true)
    (hbound : branch.name = "" → ∀ n byValue byMask selectors fields,
      branch.type = .case n byValue byMask selectors fields → BoundIn s fields) :
    Digests s (copyBranch site selector branch) := by
  match branch with
  | ⟨name, type, wire, visible⟩ =>
    cases type with
    | case n byValue byMask selectors fields =>
      simp only [wellFormed, Bool.and_eq_true] at hwell
      rw [copyBranch]
      refine .bind (.lift (checkCase_expected hwell.1.1)) fun _ _ => ?_
      dsimp only
      split
      · exact .bind (Q := fun _ => False) (.fail rfl) fun _ h => h.elim
      refine .bind (compileConditions_digests hs _ selector selectors hwell.1.2) fun _ _ => ?_
      refine .bind (Ensures.withBranch (Q := fun _ => True) ?_) fun _ _ => .pure trivial
      -- The switch has bound the members of an unnamed branch; a named one binds its own.
      by_cases hname : name = ""
      · have hscope : branchScope name fields s = s := if_pos hname
        rw [hscope]
        exact copyBranchFields_digests fields _ s hs hwell.2 hcomplete
          (hbound hname n byValue byMask selectors fields rfl)
      · have hscope : branchScope name fields s = boundBy fields ++ s := if_neg hname
        rw [hscope]
        exact copyBranchFields_digests fields _ _ (completeScope_bound hs hcomplete) hwell.2 hcomplete
          (boundIn_bound fields)
    | _ => exact .fail rfl
termination_by structural branch

theorem copyBranchFields_digests (fields : List Field) (site : Site) (s : Scope)
    (hs : CompleteScope s) (hwell : wellFormedIn fields = true)
    (hcomplete : completeIn fields = true) (hbound : BoundIn s fields) :
    Digests s (copyBranchFields site fields) := by
  match fields with
  | [] => exact .pure trivial
  | ⟨name, type, wire, visible⟩ :: rest =>
    simp only [wellFormedIn, completeIn, Bool.and_eq_true] at hwell hcomplete
    rw [copyBranchFields]
    split
    · next hwire =>
      have hself : visible = true → Bound s name := fun hvisible =>
        hbound _ List.mem_cons_self (by simp_all [Scope.binds])
      refine .bind (copyField_digests _ site none s hs hwell.1.1 hwell.1.2 hcomplete.1 hself)
        fun _ _ => ?_
      exact .bind (copyBranchFields_digests rest site s hs hwell.2 hcomplete.2
        fun f hf => hbound f (List.mem_cons_of_mem _ hf)) fun _ _ => .pure trivial
    · exact .fail rfl
termination_by structural fields

end

end

end CodecGen.Emit
