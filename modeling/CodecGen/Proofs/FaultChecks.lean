import CodecGen.Proofs.FaultSites
set_option autoImplicit false
/-!
The checks that generation makes at one node. Where a check fails, the node offends against the rule of
the fault, and the path of the fault is the way to the node.
-/
namespace CodecGen.Emit
open Schema

abbrev FailsBy {α : Type} (s : Scope) (E : Fault → Prop) (x : Emission α) : Prop :=
  Ensures s (fun _ => True) E x

abbrev RefusesBy {α : Type} (E : Fault → Prop) (x : Except Fault α) : Prop := Holds (fun _ => True) E x

section
variable {s : Scope} {site : Site}

/-- The fault is at the site, and the expression is the reason for it. -/
def ExprAtFault (site : Site) (s : Scope) (e : Expr) (fault : Fault) : Prop :=
  fault.path = site.path ∧ ExprFault s e fault.cause

theorem elementFields_refuses {list : String} {summand : Expr} {f : Field} {member : Ty} {count : Int}
    {length : Option Expr} (h : s.resolve? list = some f) (hf : f.type = .list member count length) :
    Holds (fun fields => fields = elementMembers member) (ExprAtFault site s (.sumOf list summand))
      (elementFields site member) := by
  cases member with
  | mention kind name =>
    cases kind with
    | struct | request | event | error => exact ⟨rfl, .endless h hf rfl⟩
    | _ => exact rfl
  | _ => exact rfl

theorem sumOver_fails {list : String} {e : Expr} {summand : Emission (List Stmt × String)}
    (h : ∀ f member count length, s.resolve? list = some f → f.type = .list member count length →
      FailsBy (boundBy (elementMembers member) ++ s) (ExprAtFault site s (.sumOf list e)) summand) :
    FailsBy s (ExprAtFault site s (.sumOf list e)) (sumOver site list summand) := by
  unfold sumOver
  apply Ensures.get
  intro n
  split
  · next hnone => exact .fail ⟨rfl, .list hnone⟩
  · next f hfound =>
    split
    · next member count length htype =>
      apply Ensures.bind (.lift (elementFields_refuses hfound htype))
      intro fields hfields
      apply Ensures.bind .freshId
      intro id _
      rw [hfields]
      exact .bind (h f member count length hfound htype).withFields fun _ _ => .pure trivial
    · next hother =>
      exact .fail ⟨rfl, .notList hfound hother⟩

theorem compileExpr_fails (site : Site) (e : Expr) (s : Scope) :
    FailsBy s (ExprAtFault site s e) (compileExpr site e) := by
  fun_induction compileExpr site e generalizing s with
  | case1 => exact .fail ⟨rfl, .missing⟩
  | case2 op lhs rhs ihl ihr =>
    apply Ensures.bind ((ihl s).weaken fun fault hfault => ⟨hfault.1, .lhs hfault.2⟩)
    intro _ _
    apply Ensures.bind ((ihr s).weaken fun fault hfault => ⟨hfault.1, .rhs hfault.2⟩)
    exact fun _ _ => .pure trivial
  | case3 operand ih =>
    apply Ensures.bind ((ih s).weaken fun fault hfault => ⟨hfault.1, .complement hfault.2⟩)
    exact fun _ _ => .pure trivial
  | case4 operand ih =>
    apply Ensures.bind ((ih s).weaken fun fault hfault => ⟨hfault.1, .popCount hfault.2⟩)
    exact fun _ _ => .pure trivial
  | case5 name =>
    apply Ensures.get
    intro n
    split
    · next hnone => exact .fail ⟨rfl, .length hnone⟩
    · exact .pure trivial
  | case6 | case7 | case8 | case9 => exact .pure trivial
  | case10 list => exact sumOver_fails fun _ _ _ _ _ _ => .pure trivial
  | case11 list summand hpresent ih =>
    refine sumOver_fails fun f member count length hfound htype => ?_
    exact (ih _).weaken fun fault hfault =>
      ⟨hfault.1, .summand hfound htype (hpresent ·) hfault.2⟩

theorem compileConditions_fails (site : Site) (test selector : String) (es : List Expr) (s : Scope) :
    FailsBy s (fun fault => ∃ e ∈ es, ExprAtFault site s e fault)
      (compileConditions site test selector es) := by
  induction es with
  | nil => exact .pure trivial
  | cons e rest ih =>
    apply Ensures.bind ((compileExpr_fails site e s).weaken ?_)
    · intro _ _
      apply Ensures.bind (ih.weaken ?_)
      · exact fun _ _ => .pure trivial
      · rintro fault ⟨x, hx, hfault⟩
        exact ⟨x, List.mem_cons_of_mem e hx, hfault⟩
    · intro fault hfault
      exact ⟨e, List.mem_cons_self, hfault⟩

theorem FaultFrom.of_expr {w : Setting} {node : Node} {t : Scope} {e : Expr} {fault : Fault}
    (hfault : ExprAtFault site t e fault) (h : ∀ cause, ExprFault t e cause → Offends w node cause) :
    FaultFrom site.path w node fault := by
  obtain ⟨cause, path⟩ := fault
  obtain ⟨rfl, hcause⟩ := hfault
  exact .here (h cause hcause)

theorem copyPad_fails {owner : Owner} {f : Field} {bytes align : Int} (hf : f.type = .pad bytes align)
    (site : Site) (w : Setting) :
    FailsBy s (FaultFrom site.path w (.field owner f)) (copyPad site bytes align) := by
  unfold copyPad
  split
  · exact .pure trivial
  · next haligns =>
    split
    · next halign => exact .fail (.here (.padAlign hf (Int.not_le.1 haligns) halign))
    · exact .pure trivial

def Heads (head? : Option RequestHead) (owner : Owner) : Prop :=
  head? = none → ∀ opcode, owner ≠ .message (.request opcode)

theorem heads_requestHead? (shape : Shape) (fields : List Field) :
    Heads (requestHead? shape fields) (.message shape) := by
  intro hnone opcode heq
  obtain rfl := Owner.message.inj heq
  cases hnone

theorem heads_branch (head? : Option RequestHead) : Heads head? .branch := by
  intro _ opcode heq
  cases heq

theorem copyOpcode_fails {owner : Owner} {head? : Option RequestHead} (hhead : Heads head? owner)
    {f : Field} (hvisible : f.visible = false)
    (hname : safeName f.name ∈ ["major_opcode", "minor_opcode"]) (type : String) :
    FailsBy s (FaultFrom site.path ⟨site.dir, s⟩ (.field owner f))
      (copyOpcode site head? type (safeName f.name)) := by
  unfold copyOpcode
  split
  · next hdir =>
    refine .fail (.here (.hidden hvisible ?_))
    rw [hdir]
    exact .notDecoded hname
  · next hdir =>
    refine .fail (.here (.hidden hvisible ?_))
    rw [hdir]
    exact .notInRequest hname (hhead rfl)
  · split <;> exact .pure trivial

theorem copyHidden_fails {owner : Owner} {head? : Option RequestHead} (hhead : Heads head? owner)
    {f : Field} (hvisible : f.visible = false) (site : Site) :
    FailsBy s (FaultFrom site.path ⟨site.dir, s⟩ (.field owner f))
      (copyHidden site head? (safeName f.name) f.type) := by
  unfold copyHidden
  dsimp only
  split
  · next hopcode => exact copyOpcode_fails hhead hvisible (by simpa using hopcode) _
  next hopcode =>
  split
  · next hread =>
    split
    · next hdir =>
      refine .fail (.here (.hidden hvisible ?_))
      rw [hdir]
      exact .notEncoded (by simpa [or_assoc] using hread)
    · exact .pure trivial
  next hread =>
  split
  · split <;> exact .pure trivial
  next hlength =>
  split
  · next base e htype =>
    apply Ensures.bind ((compileExpr_fails site e s).weaken ?_)
    · exact fun _ _ => .pure trivial
    · exact fun fault hfault => .of_expr hfault fun cause hcause => .value htype hcause
  · next hother =>
    refine .fail (.here (.hidden hvisible (.withoutValue ?_ hother)))
    simp only [Bool.or_eq_true, beq_iff_eq, not_or] at hopcode hread hlength
    simp [headerNames, hopcode, hread, hlength]

theorem checkList_refuses {owner : Owner} {f : Field} {member : Ty} {count : Int} {length : Option Expr}
    (hf : f.type = .list member count length) (site : Site) (w : Setting) :
    RefusesBy (FaultFrom site.path w (.field owner f)) (checkList site count length) := by
  unfold checkList
  split
  · next hsize =>
    have hsize : count = 1 ∨ count < 0 ∨ count = 0 ∧ length = none := by
      simpa [or_assoc] using hsize
    exact .here (.listSize hf hsize)
  · exact trivial

theorem copyLength_fails {owner : Owner} {f : Field} {member : Ty} {count : Int} {length : Option Expr}
    (hf : f.type = .list member count length) (name : String) :
    FailsBy s (FaultFrom site.path ⟨site.dir, s⟩ (.field owner f)) (copyLength site name count length) := by
  unfold copyLength
  apply Ensures.bind (.lift (checkList_refuses hf site _))
  intro _ _
  split
  · next e =>
    split
    · apply Ensures.bind ((compileExpr_fails site e s).weaken ?_)
      · exact fun _ _ => .pure trivial
      · exact fun fault hfault => .of_expr hfault fun cause hcause => .length hf hcause
    · exact .pure trivial
  · exact .pure trivial

theorem checkCase_refuses {b : Field} {name : Name} {byValue byMask : Bool} {selectors : List Expr}
    {fields : List Field} (hb : b.type = .case name byValue byMask selectors fields) (site : Site)
    (w : Setting) : RefusesBy (FaultFrom site.path w (.branch b)) (checkCase site byValue byMask) := by
  unfold checkCase
  split
  · next hkind => exact .here (.caseKind hb (eq_of_beq hkind))
  · exact trivial

theorem switchMembers_refuses (site : Site) (w : Setting) (branches : List Field) :
    RefusesBy (FaultAmongBranches site.path w branches) (switchMembers site branches) := by
  induction branches with
  | nil => exact trivial
  | cons branch rest ih =>
    have hrest : RefusesBy (FaultAmongBranches site.path w (branch :: rest)) (switchMembers site rest) :=
      Holds.weaken ih fun _ => .tail branch
    unfold switchMembers
    split
    · exact holds_bind hrest fun _ _ => trivial
    · split
      · next name byValue byMask selectors fields htype =>
        have hcase := checkCase_refuses htype (site.at branch.name) w
        exact holds_bind (hcase.weaken fun _ => .head rest) fun _ _ => holds_bind hrest fun _ _ => trivial
      · next hother => exact .head rest (.here (.branchType hother))

theorem switchMembers_finds (site : Site) (w : Setting) (branches : List Field) :
    Holds (fun members => members = branchMembers branches) (FaultAmongBranches site.path w branches)
      (switchMembers site branches) := by
  have hfaults := switchMembers_refuses site w branches
  cases hmembers : switchMembers site branches with
  | ok members => exact switchMembers_eq hmembers
  | error fault =>
    rw [hmembers] at hfaults
    exact hfaults

end

end CodecGen.Emit
