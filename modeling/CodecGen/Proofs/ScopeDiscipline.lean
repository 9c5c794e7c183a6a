import CodecGen.Proofs.FaultPaths
set_option autoImplicit false
/-!
The scope as a stack. Members are put in scope before a message, the object of a switch, a branch or
the summand of a sum is emitted, and taken out again however that ends. So every piece of emission
leaves the scope as it found it, and there are always as many fields in scope as are taken out: the
faults of emission are those of nodes, and none of these is about the scope.
-/
namespace CodecGen.Emit
open Schema

def Proper (fault : Fault) : Prop := fault.cause ≠ .scopeUnderflow

/-- Every run ends in the scope that it was started in, with a result or a fault of the model. -/
def Balanced {α : Type} (x : Emission α) : Prop :=
  ∀ frame : Frame, (x.run frame).2.scope = frame.scope ∧
    ∀ fault, (x.run frame).1 = .error fault → Proper fault

abbrev Restores {α : Type} (s : Scope) (x : Emission α) : Prop := Ensures s (fun _ => True) Proper x

theorem Balanced.of_restores {α : Type} {x : Emission α} (h : ∀ s, Restores s x) : Balanced x := by
  intro frame
  obtain ⟨result, n, hrun, hresult⟩ := h frame.scope frame.nextId
  have hrun : x.run frame = (result, ⟨frame.scope, n⟩) := hrun
  rw [hrun]
  refine ⟨rfl, fun fault hfault => ?_⟩
  have hfault : result = .error fault := hfault
  rw [hfault] at hresult
  exact hresult

abbrev Checks {α : Type} (x : Except Fault α) : Prop := Holds (fun _ => True) Proper x

theorem ExprFault.proper {s : Scope} {e : Expr} {cause : Cause} (h : ExprFault s e cause) :
    cause ≠ .scopeUnderflow := by
  induction h with
  | missing | length | list | notList | endless => simp
  | summand _ _ _ _ ih | lhs _ ih | rhs _ ih | complement _ ih | popCount _ ih => exact ih

theorem Offends.proper {w : Setting} {node : Node} {cause : Cause} (h : Offends w node cause) :
    cause ≠ .scopeUnderflow := by
  cases h with
  | length _ he | value _ he | selector _ he | branchSelector _ _ he => exact he.proper
  | _ => simp

theorem FaultFrom.proper {path : List String} {w : Setting} {node : Node} {fault : Fault}
    (h : FaultFrom path w node fault) : Proper fault := by
  obtain ⟨rest, w', final, -, -, hoffends⟩ := h
  exact hoffends.proper

theorem compileExpr_restores (site : Site) (e : Expr) (s : Scope) : Restores s (compileExpr site e) :=
  (compileExpr_fails site e s).weaken fun _ hfault => hfault.2.proper

theorem copyField_restores (f : Field) (site : Site) (head? : Option RequestHead) (s : Scope) :
    Restores s (copyField site head? f) :=
  (copyField_fails f .branch site head? (heads_branch head?) s).weaken fun _ hfault => hfault.proper

theorem copyOpcode_restores (site : Site) (head? : Option RequestHead) (type name : String) (s : Scope) :
    Restores s (copyOpcode site head? type name) := by
  unfold copyOpcode
  split
  · exact .fail (by simp [Proper])
  · exact .fail (by simp [Proper])
  · split <;> exact .pure trivial

-- The name need not be the safe name of a field here, so there may be no node to be at fault.
theorem copyHidden_restores (site : Site) (head? : Option RequestHead) (name : String) (type : Ty)
    (s : Scope) : Restores s (copyHidden site head? name type) := by
  unfold copyHidden
  dsimp only
  split
  · exact copyOpcode_restores site head? _ name s
  split
  · split
    · exact .fail (by simp [Proper])
    · exact .pure trivial
  split
  · split <;> exact .pure trivial
  split
  · exact .bind (compileExpr_restores site _ s) fun _ _ => .pure trivial
  · exact .fail (by simp [Proper])

theorem copyValue_restores (type : Ty) (site : Site) (name : String) (s : Scope) :
    Restores s (copyValue site name type) := by
  have hvalue hpad := copyValue_fails type ⟨name, type, true, true⟩ .branch rfl hpad site name s
  cases type with
  | pad bytes align => exact .fail (by simp [Proper])
  | _ => exact (hvalue (by simp)).weaken fun _ hfault => hfault.proper

theorem copyBranch_restores (branch : Field) (site : Site) (selector : String) (s : Scope) :
    Restores s (copyBranch site selector branch) :=
  (copyBranch_fails branch site selector s).weaken fun _ hfault => hfault.proper

theorem copyContainer_restores (site : Site) (shape : Shape) (fields : List Field) (object : String)
    (s : Scope) : Restores s (copyContainer site shape fields object) := by
  refine (copyContainer_fails site shape fields object s).weaken ?_
  rintro fault ⟨f, -, hfault⟩
  exact hfault.proper

theorem encodeRequest_restores (className : String) (r : Request) :
    Restores [] (encodeRequest className r) :=
  .bind .freshScope fun _ _ => copyContainer_restores _ _ _ _ []

theorem decodeReply_restores (r : Request) (reply : Reply) : Restores [] (decodeReply r reply) :=
  .bind .freshScope fun _ _ => copyContainer_restores _ _ _ _ []

theorem compileRequest_restores (className : String) (r : Request) :
    Restores [] (compileRequest className r) := by
  unfold compileRequest
  apply Ensures.bind (encodeRequest_restores className r)
  intro encoder _
  split
  · exact .pure trivial
  · exact .bind (decodeReply_restores r _) fun _ _ => .pure trivial

theorem compileRequests_restores (className : String) (requests : List Request) :
    Restores [] (compileRequests className requests) :=
  compileRequests_ensures fun r _ => compileRequest_restores className r

theorem generate_checks (m : Module) (headerPath : String) : Checks (generate m headerPath) := by
  refine (generate_refuses m headerPath).weaken ?_
  rintro fault ⟨d, -, first, -, hfault⟩
  exact hfault.proper

theorem scope_after_message {x : Emission (List Stmt)} (h : Restores [] x) (frame : Frame) :
    ((freshScope >>= fun _ => x).run frame).2.scope = [] := by
  obtain ⟨result, n, hrun, -⟩ := h frame.nextId
  have hfresh : freshScope.run frame = (.ok (), ⟨[], frame.nextId⟩) := rfl
  rw [run_bind_ok _ hfresh, hrun]

/-- Expressions, sums, fields, hidden fields, lists, switches, branches and whole messages leave the
scope as it was, whether they come about or fail. So nothing is in scope after the encoder of a
request and after the decoder of a reply, and generation never takes out of scope what is not
there. -/
theorem scope_left_as_found :
    (∀ site e, Balanced (compileExpr site e)) ∧
    (∀ site list summand, Balanced (compileExpr site (.sumOf list summand))) ∧
    (∀ site head? f, Balanced (copyField site head? f)) ∧
    (∀ site head? name type, Balanced (copyHidden site head? name type)) ∧
    (∀ site name member count length, Balanced (copyValue site name (.list member count length))) ∧
    (∀ site name type selector cases, Balanced (copyValue site name (.switch type selector cases))) ∧
    (∀ site selector branch, Balanced (copyBranch site selector branch)) ∧
    (∀ site shape fields object, Balanced (copyContainer site shape fields object)) ∧
    (∀ className r frame, ((encodeRequest className r).run frame).2.scope = []) ∧
    (∀ r reply frame, ((decodeReply r reply).run frame).2.scope = []) ∧
    (∀ className requests, ((compileRequests className requests).run {}).2.scope = []) ∧
    ∀ m headerPath, Checks (generate m headerPath) := by
  refine ⟨?_, ?_, ?_, ?_, ?_, ?_, ?_, ?_, ?_, ?_, ?_, generate_checks⟩
  · intro site e
    exact .of_restores (compileExpr_restores site e)
  · intro site list summand
    exact .of_restores (compileExpr_restores site (.sumOf list summand))
  · intro site head? f
    exact .of_restores (copyField_restores f site head?)
  · intro site head? name type
    exact .of_restores (copyHidden_restores site head? name type)
  · intro site name member count length
    exact .of_restores (copyValue_restores (.list member count length) site name)
  · intro site name type selector cases
    exact .of_restores (copyValue_restores (.switch type selector cases) site name)
  · intro site selector branch
    exact .of_restores (copyBranch_restores branch site selector)
  · intro site shape fields object
    exact .of_restores (copyContainer_restores site shape fields object)
  · intro className r frame
    exact scope_after_message (copyContainer_restores _ _ _ _ []) frame
  · intro r reply frame
    exact scope_after_message (copyContainer_restores _ _ _ _ []) frame
  · intro className requests
    obtain ⟨result, n, hrun, -⟩ := compileRequests_restores className requests 0
    have hrun : (compileRequests className requests).run {} = (result, ⟨[], n⟩) := hrun
    rw [hrun]

end CodecGen.Emit
